import Charr.FixedSearch.FixedMatcher

/-!
# Splitting at fixed matches

The fields between the matches of a pattern, with a limit on their number. Empty
fields are skipped in place, a tokens-only search looks one field ahead, and the
last field takes in the rest of the subject. A single loop does all of it; the
laws below say what comes out.
-/

namespace Charr.FixedSearch

open Occurrence (Greedy)
open Utf8 (CodePoint)

/-- How splitting ends. -/
inductive FixedSplitResult where
  | ok
  | limitTooLarge
  deriving DecidableEq, Repr

/-! ## The splitting loops -/

/-- The fields so far: `current` is the last of them, still open. -/
structure SplitState where
  done : List ByteRange
  current : ByteRange
  fieldCount : Int
  deriving DecidableEq

/-- No field is closed, and the first one is open. -/
def SplitState.initial : SplitState := ⟨[], ⟨0, 0⟩, 1⟩

/-- Take a match `[start, stop)` into account. -/
def SplitState.advance (omitEmpty : Bool) (state : SplitState) (start stop : Int) : SplitState :=
  if omitEmpty ∧ state.current.start = start then
    { state with current := ⟨stop, state.current.stop⟩ }
  else
    { done := state.done ++ [⟨state.current.start, start⟩]
      current := ⟨stop, stop⟩
      fieldCount := state.fieldCount + 1 }

/-- Close the last field at the end of the subject, or drop it. -/
def SplitState.close (omitEmpty : Bool) (subjectLength : Int) (state : SplitState) :
    List ByteRange :=
  let last : ByteRange := ⟨state.current.start, subjectLength⟩
  let fields := state.done ++ [last]
  if omitEmpty ∧ last.start = last.stop then fields.dropLast else fields

/-- Close the last field and cut what a limit does not admit. -/
def SplitState.finish (omitEmpty tokensOnly : Bool) (fieldLimit subjectLength : Int)
    (state : SplitState) : List ByteRange :=
  let fields := state.close omitEmpty subjectLength
  if tokensOnly ∧ fieldLimit < intMax then fields.take fieldLimit.toNat else fields

/-- A negative limit is none. -/
def fieldLimit (n : Int) : Int := if n < 0 then intMax else n

/-- The fields searched for: with tokens only there is one more, which is cut off again. -/
def searchLimit (n : Int) (tokensOnly : Bool) : Int :=
  if tokensOnly ∧ fieldLimit n < intMax then fieldLimit n + 1 else fieldLimit n

/-- The fields up to the limit, cut at a byte. -/
def splitExactLoop (subject : List UInt8) (delimiter : UInt8) (omitEmpty : Bool) (limit : Int) :
    Nat → Nat → SplitState → SplitState
  | 0, _, state => state
  | fuel + 1, searchFrom, state =>
      if state.fieldCount < limit then
        match memchr (subject.drop searchFrom) delimiter (subject.length - searchFrom) with
        | none => state
        | some offset =>
            splitExactLoop subject delimiter omitEmpty limit fuel (searchFrom + offset + 1)
              (state.advance omitEmpty ((searchFrom + offset : Nat) : Int)
                ((searchFrom + offset + 1 : Nat) : Int))
      else state

/-- The inline path for a delimiter of one byte. -/
def splitExactByte (subject : StringView) (delimiter : UInt8) (n : Int)
    (omitEmpty tokensOnly : Bool) :
    Except NativeError (FixedSplitResult × List ByteRange) :=
  if n ≥ intMax - 1 then .ok (.limitTooLarge, [])
  else if n = 0 then .ok (.ok, [])
  else if subject.isNa ∨ subject.len < 0 ∨ (subject.isNull ∧ subject.len ≠ 0) then
    .error FixedMatcher.requiresSubject
  else if subject.len = 0 then .ok (.ok, [])
  else
    let state := splitExactLoop subject.bytes delimiter omitEmpty (searchLimit n tokensOnly)
      (subject.bytes.length + 1) 0 .initial
    .ok (.ok, state.finish omitEmpty tokensOnly (fieldLimit n) subject.len)

namespace FixedMatcher

variable (toUpper : CodePoint → CodePoint)

/-- The fields up to the limit, cut at the matches. -/
def splitLoop (omitEmpty : Bool) (limit : Int) :
    Nat → ByteSearchMatcher → SplitState → Except NativeError (SplitState × ByteSearchMatcher)
  | 0, matcher, state => .ok (state, matcher)
  | fuel + 1, matcher, state =>
      if state.fieldCount < limit then do
        let (start, matcher) := matcher.findNext toUpper
        if start = notFound then return (state, matcher)
        else
          let length ← matcher.matchedLength
          splitLoop omitEmpty limit fuel matcher (state.advance omitEmpty start (start + length))
      else .ok (state, matcher)

/-- What `split` does where the byte path does not apply: the loop over the matcher. -/
def splitByMatcher (self : FixedMatcher) (subject pattern : StringView)
    (options : FixedSearchOptions) (n : Int) (omitEmpty tokensOnly : Bool) :
    Except NativeError ((FixedSplitResult × List ByteRange) × FixedMatcher) :=
  if n ≥ intMax - 1 then .ok ((.limitTooLarge, []), self)
  else if n = 0 then .ok ((.ok, []), self)
  else do
    match ← self.resetSubject toUpper subject pattern options with
    | (none, self) => return ((.ok, []), self)
    | (some matcher, self) =>
        let (state, matcher) ← splitLoop toUpper omitEmpty (searchLimit n tokensOnly)
          (matcher.searchLength + 1) matcher .initial
        return ((.ok, state.finish omitEmpty tokensOnly (fieldLimit n) subject.len),
          self.keep matcher)

/-- `FixedMatcher::split`: a case-sensitive delimiter of one byte needs no matcher. -/
def split (self : FixedMatcher) (subject pattern : StringView) (options : FixedSearchOptions)
    (n : Int) (omitEmpty tokensOnly : Bool) :
    Except NativeError ((FixedSplitResult × List ByteRange) × FixedMatcher) :=
  if !options.caseInsensitive ∧ !pattern.isNull ∧ pattern.len = 1 then do
    let result ← splitExactByte subject (pattern.bytes.getD 0 0) n omitEmpty tokensOnly
    return (result, self)
  else self.splitByMatcher toUpper subject pattern options n omitEmpty tokensOnly

end FixedMatcher

/-! ## Fields of a list of matches -/

/-- Matches that follow each other without overlap, from `start` to `limit`. -/
def Ordered (limit : Nat) : Nat → List (Nat × Nat) → Prop
  | start, [] => start ≤ limit
  | start, found :: rest => start ≤ found.1 ∧ found.1 < found.2 ∧ Ordered limit found.2 rest

/-- The fields between the matches, in the abstract. -/
def fieldsBetween (omitEmpty : Bool) (limit : Nat) : Nat → List (Nat × Nat) → List (Nat × Nat)
  | start, [] => if omitEmpty ∧ start = limit then [] else [(start, limit)]
  | start, found :: rest =>
      if omitEmpty ∧ start = found.1 then fieldsBetween omitEmpty limit found.2 rest
      else (start, found.1) :: fieldsBetween omitEmpty limit found.2 rest

/-- The same with at most `budget` fields closed by a match: the next one takes
in the rest. -/
def limitedFields (omitEmpty : Bool) (limit : Nat) :
    Nat → Nat → List (Nat × Nat) → List (Nat × Nat)
  | _, start, [] => if omitEmpty ∧ start = limit then [] else [(start, limit)]
  | 0, start, _ :: _ => if omitEmpty ∧ start = limit then [] else [(start, limit)]
  | budget + 1, start, found :: rest =>
      if omitEmpty ∧ start = found.1 then limitedFields omitEmpty limit (budget + 1) found.2 rest
      else (start, found.1) :: limitedFields omitEmpty limit budget found.2 rest

section Fields

variable {limit : Nat} {omitEmpty : Bool}

theorem Ordered.start_le {ranges : List (Nat × Nat)} {start : Nat}
    (hordered : Ordered limit start ranges) : start ≤ limit := by
  induction ranges generalizing start with
  | nil => exact hordered
  | cons found rest ih =>
      obtain ⟨hstart, hfound, hrest⟩ := hordered
      have := ih hrest
      omega

/-- The limit does not touch the fields before it. -/
theorem take_limitedFields (ranges : List (Nat × Nat)) {budget count start : Nat}
    (hcount : count ≤ budget) :
    (limitedFields omitEmpty limit budget start ranges).take count =
      (fieldsBetween omitEmpty limit start ranges).take count := by
  induction ranges generalizing budget count start with
  | nil => cases budget <;> rfl
  | cons found rest ih =>
      cases budget with
      | zero =>
          obtain rfl : count = 0 := by omega
          simp
      | succ budget =>
          rw [limitedFields, fieldsBetween]
          split
          · exact ih hcount
          · cases count with
            | zero => simp
            | succ count => rw [List.take_succ_cons, List.take_succ_cons, ih (by omega)]

/-- A limit above the number of matches is none. -/
theorem limitedFields_eq (ranges : List (Nat × Nat)) {budget start : Nat}
    (hbudget : ranges.length ≤ budget) :
    limitedFields omitEmpty limit budget start ranges =
      fieldsBetween omitEmpty limit start ranges := by
  induction ranges generalizing budget start with
  | nil => cases budget <;> rfl
  | cons found rest ih =>
      rw [List.length_cons] at hbudget
      obtain ⟨budget, rfl⟩ : ∃ less, budget = less + 1 := ⟨budget - 1, by omega⟩
      rw [limitedFields, fieldsBetween, ih (by omega), ih (by omega)]

/-- A limited split without skipping closes `budget` fields and leaves the rest
to one more. -/
theorem limitedFields_false (ranges : List (Nat × Nat)) {budget start : Nat}
    (hbudget : budget < (fieldsBetween false limit start ranges).length) :
    ∃ field, (fieldsBetween false limit start ranges)[budget]? = some field ∧
      limitedFields false limit budget start ranges =
        (fieldsBetween false limit start ranges).take budget ++ [(field.1, limit)] := by
  induction ranges generalizing budget start with
  | nil =>
      simp only [fieldsBetween, Bool.false_eq_true, false_and, if_false, List.length_singleton]
        at hbudget
      obtain rfl : budget = 0 := by omega
      exact ⟨(start, limit), rfl, rfl⟩
  | cons found rest ih =>
      cases budget with
      | zero => exact ⟨(start, found.1), by simp [fieldsBetween], by simp [limitedFields]⟩
      | succ budget =>
          simp only [fieldsBetween, Bool.false_eq_true, false_and, if_false, List.length_cons]
            at hbudget
          obtain ⟨field, hfield, heq⟩ :=
            ih (show budget < (fieldsBetween false limit found.2 rest).length by omega)
          refine ⟨field, ?_, ?_⟩
          · simpa [fieldsBetween] using hfield
          · simp [limitedFields, fieldsBetween, heq]

/-- Skipping leaves exactly the fields that are not empty. -/
theorem fieldsBetween_true (ranges : List (Nat × Nat)) {start : Nat}
    (hordered : Ordered limit start ranges) :
    fieldsBetween true limit start ranges =
      (fieldsBetween false limit start ranges).filter fun field => field.1 < field.2 := by
  induction ranges generalizing start with
  | nil =>
      have hstart : start ≤ limit := hordered
      simp only [fieldsBetween, true_and, Bool.false_eq_true, false_and, if_false,
        List.filter_cons, List.filter_nil, decide_eq_true_eq]
      by_cases heq : start = limit
      · rw [if_pos heq, if_neg (by omega)]
      · rw [if_neg heq, if_pos (by omega)]
  | cons found rest ih =>
      obtain ⟨hstart, -, hrest⟩ := hordered
      simp only [fieldsBetween, true_and, Bool.false_eq_true, false_and, if_false,
        List.filter_cons, decide_eq_true_eq, ih hrest]
      by_cases heq : start = found.1
      · rw [if_pos heq, if_neg (by omega)]
      · rw [if_neg heq, if_pos (by omega)]

/-- Fields that are kept are not empty. -/
theorem limitedFields_nonempty (ranges : List (Nat × Nat)) {budget start : Nat}
    (hordered : Ordered limit start ranges) :
    ∀ field ∈ limitedFields true limit budget start ranges, field.1 < field.2 := by
  induction ranges generalizing budget start with
  | nil =>
      have hstart : start ≤ limit := hordered
      intro field hfield
      cases budget <;>
      · simp only [limitedFields, true_and] at hfield
        split at hfield
        · simp at hfield
        · obtain rfl := List.mem_singleton.mp hfield
          simp only
          omega
  | cons found rest ih =>
      have hwhole : start ≤ limit := hordered.start_le
      obtain ⟨hstart, -, hrest⟩ := hordered
      intro field hfield
      cases budget with
      | zero =>
          simp only [limitedFields, true_and] at hfield
          split at hfield
          · simp at hfield
          · obtain rfl := List.mem_singleton.mp hfield
            simp only
            omega
      | succ budget =>
          simp only [limitedFields, true_and] at hfield
          split at hfield
          · exact ih hrest field hfield
          · rcases List.mem_cons.mp hfield with rfl | hmem
            · simp only
              omega
            · exact ih hrest field hmem

/-- The bytes of a range of the subject. -/
def slice (subject : List UInt8) (range : Nat × Nat) : List UInt8 :=
  (subject.drop range.1).take (range.2 - range.1)

/-- Alternate the elements of two lists. -/
def weave {α : Type*} : List α → List α → List α
  | [], others => others
  | element :: elements, [] => element :: elements
  | element :: elements, other :: others => element :: other :: weave elements others

theorem slice_append {subject : List UInt8} {start middle : Nat} (hle : start ≤ middle) :
    slice subject (start, middle) ++ subject.drop middle = subject.drop start := by
  have hdrop : subject.drop middle = (subject.drop start).drop (middle - start) := by
    rw [List.drop_drop, Nat.add_sub_cancel' hle]
  rw [slice, hdrop, List.take_append_drop]

/-- The fields and the matches between them make up the subject. -/
theorem weave_fieldsBetween {subject : List UInt8} (ranges : List (Nat × Nat)) {start : Nat}
    (hordered : Ordered subject.length start ranges) :
    (weave ((fieldsBetween false subject.length start ranges).map (slice subject))
      (ranges.map (slice subject))).flatten = subject.drop start := by
  induction ranges generalizing start with
  | nil =>
      have hall : slice subject (start, subject.length) ++ _ = _ := slice_append hordered
      rw [List.drop_length, List.append_nil] at hall
      simp [fieldsBetween, weave, hall]
  | cons found rest ih =>
      obtain ⟨hstart, hfound, hrest⟩ := hordered
      simp only [fieldsBetween, Bool.false_eq_true, false_and, if_false, List.map_cons, weave,
        List.flatten_cons]
      rw [ih hrest, slice_append hfound.le, slice_append hstart]

end Fields

/-! ## The loops compute the limited fields -/

open FixedMatcher (toRange)

/-- Both loops, as a recursion over the matches they find. -/
def advanceAll (omitEmpty : Bool) (limit : Int) : List (Nat × Nat) → SplitState → SplitState
  | [], state => state
  | found :: rest, state =>
      if state.fieldCount < limit then
        advanceAll omitEmpty limit rest (state.advance omitEmpty found.1 found.2)
      else state

/-- The open field reaches to the end of the subject. -/
theorem close_eq (omitEmpty : Bool) (subjectLength : Nat) {state : SplitState} {start : Nat}
    (hstart : state.current.start = start) :
    state.close omitEmpty subjectLength = state.done ++
      (if omitEmpty ∧ start = subjectLength then [] else [(start, subjectLength)]).map
        toRange := by
  rw [SplitState.close]
  simp only [hstart]
  by_cases hskip : omitEmpty = true ∧ start = subjectLength
  · rw [if_pos hskip, if_pos ⟨hskip.1, by omega⟩]
    simp
  · rw [if_neg hskip, if_neg fun h => hskip ⟨h.1, by omega⟩]
    rfl

/-- The state after a match: a skipped empty field moves on, any other is closed. -/
theorem advance_eq (omitEmpty : Bool) {state : SplitState} {start : Nat}
    (hstart : state.current.start = start) (found : Nat × Nat) :
    state.advance omitEmpty found.1 found.2 =
      if omitEmpty ∧ start = found.1 then
        { state with current := ⟨found.2, state.current.stop⟩ }
      else
        { done := state.done ++ [toRange (start, found.1)]
          current := ⟨found.2, found.2⟩
          fieldCount := state.fieldCount + 1 } := by
  rw [SplitState.advance]
  by_cases hskip : omitEmpty = true ∧ start = found.1
  · rw [if_pos hskip, if_pos ⟨hskip.1, by omega⟩]
  · rw [if_neg hskip, if_neg fun h => hskip ⟨h.1, by omega⟩, hstart]
    rfl

/-- The fields of a list of matches, up to the limit. -/
theorem close_advanceAll (omitEmpty : Bool) (limit : Int) (subjectLength : Nat)
    (ranges : List (Nat × Nat)) {state : SplitState} {start : Nat}
    (hstart : state.current.start = start) (hcount : state.fieldCount ≤ limit) :
    (advanceAll omitEmpty limit ranges state).close omitEmpty subjectLength =
      state.done ++ (limitedFields omitEmpty subjectLength (limit - state.fieldCount).toNat start
        ranges).map toRange := by
  induction ranges generalizing state start with
  | nil =>
      rw [advanceAll, close_eq omitEmpty subjectLength hstart]
      cases (limit - state.fieldCount).toNat <;> rfl
  | cons found rest ih =>
      rw [advanceAll]
      by_cases hless : state.fieldCount < limit
      · obtain ⟨budget, hbudget⟩ : ∃ less, (limit - state.fieldCount).toNat = less + 1 :=
          ⟨(limit - state.fieldCount).toNat - 1, by omega⟩
        rw [if_pos hless, advance_eq omitEmpty hstart, hbudget, limitedFields]
        split
        · have hskipped := @ih { state with current := ⟨found.2, state.current.stop⟩ } found.2
            rfl hcount
          rw [hskipped]
          simp only [hbudget]
        · rw [ih rfl (by simp only; omega),
            show (limit - (state.fieldCount + 1)).toNat = budget by omega]
          simp
      · rw [if_neg hless, close_eq omitEmpty subjectLength hstart,
          show (limit - state.fieldCount).toNat = 0 by omega]
        rfl

/-- Splitting at a byte advances over its occurrences. -/
theorem splitExactLoop_eq {subject : List UInt8} {delimiter : UInt8} (omitEmpty : Bool)
    (limit : Int) {searchFrom : Nat} {positions : List Nat}
    (hgreedy : Greedy [delimiter] subject searchFrom positions) {fuel : Nat}
    (hfuel : positions.length < fuel) (state : SplitState) :
    splitExactLoop subject delimiter omitEmpty limit fuel searchFrom state =
      advanceAll omitEmpty limit (positions.map fun position => (position, position + 1))
        state := by
  unfold Greedy at hgreedy
  induction hgreedy generalizing fuel state with
  | @done start hnone =>
      obtain ⟨fuel, rfl⟩ : ∃ less, fuel = less + 1 := ⟨fuel - 1, by omega⟩
      have hfinds := memchr_finds subject delimiter start
        (show subject.length ≤ start + (subject.length - start) by omega)
      rw [splitExactLoop]
      cases hfound : memchr (subject.drop start) delimiter (subject.length - start) with
      | none => split <;> rfl
      | some offset =>
          rw [hfound] at hfinds
          exact absurd hfinds.occurs (hnone _ hfinds.from_start)
  | @found start position rest hfirst _ ih =>
      rw [List.length_cons] at hfuel
      obtain ⟨fuel, rfl⟩ : ∃ less, fuel = less + 1 := ⟨fuel - 1, by omega⟩
      have hfinds := memchr_finds subject delimiter start
        (show subject.length ≤ start + (subject.length - start) by omega)
      rw [splitExactLoop, List.map_cons, advanceAll]
      cases hfound : memchr (subject.drop start) delimiter (subject.length - start) with
      | none =>
          rw [hfound] at hfinds
          exact absurd hfirst.occurs (hfinds _ hfirst.from_start)
      | some offset =>
          rw [hfound] at hfinds
          obtain rfl := hfirst.unique hfinds
          split
          · exact ih (show rest.length < fuel by omega) _
          · rfl

namespace FixedMatcher

open ByteSearchMatcher

variable {toUpper : CodePoint → CodePoint}

/-- Splitting by the matcher advances over its matches. -/
theorem splitLoop_eq (omitEmpty : Bool) (limit : Int) {pattern : List UInt8}
    {overlap caseInsensitive : Bool} {matcher last : ByteSearchMatcher}
    {ranges : List (Nat × Nat)}
    (hbuilt : BuiltFor toUpper pattern overlap caseInsensitive matcher)
    (hreports : Reports toUpper matcher ranges last) {fuel : Nat} (hfuel : ranges.length < fuel)
    (state : SplitState) :
    ∃ after, splitLoop toUpper omitEmpty limit fuel matcher state =
        .ok (advanceAll omitEmpty limit ranges state, after) ∧
      BuiltFor toUpper pattern overlap caseInsensitive after := by
  induction hreports generalizing fuel state with
  | @done matcher last hnext =>
      obtain ⟨fuel, rfl⟩ : ∃ less, fuel = less + 1 := ⟨fuel - 1, by omega⟩
      rw [splitLoop]
      split
      · simp only [hnext, if_true]
        exact ⟨last, rfl, hbuilt.findNext hnext⟩
      · exact ⟨matcher, rfl, hbuilt⟩
  | @found matcher next last start stop rest hnext hlength _ ih =>
      rw [List.length_cons] at hfuel
      obtain ⟨fuel, rfl⟩ : ∃ less, fuel = less + 1 := ⟨fuel - 1, by omega⟩
      have hrange : (start : Int) + (stop - start) = stop := by omega
      rw [splitLoop, advanceAll]
      split
      · simp only [hnext, natCast_ne_notFound, if_false, hlength]
        obtain ⟨after, hafter, hkept⟩ := ih (hbuilt.findNext hnext)
          (show rest.length < fuel by omega) (state.advance omitEmpty start stop)
        refine ⟨after, ?_, hkept⟩
        rw [← hafter]
        change splitLoop toUpper omitEmpty limit fuel next
          (state.advance omitEmpty start (start + (stop - start))) = _
        rw [hrange]
      · exact ⟨matcher, rfl, hbuilt⟩

/-! ## The leftmost matches -/

/-- The leftmost matches without overlap: of the bytes, or of the folded code
points, whose places the subject gives. -/
def Leftmost (toUpper : CodePoint → CodePoint) (caseInsensitive : Bool)
    (pattern subject : List UInt8) (ranges : List (Nat × Nat)) : Prop :=
  if caseInsensitive then
    ∃ positions, Greedy (folded toUpper pattern) (folded toUpper subject) 0 positions ∧
      ranges = positions.map fun position =>
        (Utf8.boundary subject position,
          Utf8.boundary subject (position + (folded toUpper pattern).length))
  else
    ∃ positions, Greedy pattern subject 0 positions ∧
      ranges = positions.map fun position => (position, position + pattern.length)

section Leftmost

variable {caseInsensitive : Bool} {patternBytes subjectBytes : List UInt8}
  {ranges : List (Nat × Nat)}

/-- Every subject has its leftmost matches. -/
theorem exists_leftmost (toUpper : CodePoint → CodePoint) (caseInsensitive : Bool)
    (hne : patternBytes ≠ []) (subjectBytes : List UInt8) :
    ∃ ranges, Leftmost toUpper caseInsensitive patternBytes subjectBytes ranges := by
  have hexists : ∀ {Symbol : Type} {needle : List Symbol} (text : List Symbol),
      needle ≠ [] → ∃ positions, Greedy needle text 0 positions := by
    intro Symbol needle text hneedle
    have hlength := List.length_pos_of_ne_nil hneedle
    exact Occurrence.exists_sweep hneedle text (fun position => by omega) 0
  cases caseInsensitive with
  | false =>
      obtain ⟨positions, hgreedy⟩ := hexists subjectBytes hne
      exact ⟨_, positions, hgreedy, rfl⟩
  | true =>
      obtain ⟨positions, hgreedy⟩ := hexists (folded toUpper subjectBytes)
        (folded_ne_nil toUpper hne)
      exact ⟨_, positions, hgreedy, rfl⟩

/-- The leftmost matches are what the matcher reports. -/
theorem Leftmost.matches (hne : patternBytes ≠ [])
    (hleftmost : Leftmost toUpper caseInsensitive patternBytes subjectBytes ranges) :
    Matches toUpper ⟨caseInsensitive, false⟩ patternBytes subjectBytes ranges := by
  cases caseInsensitive with
  | false =>
      obtain ⟨positions, hgreedy, rfl⟩ := hleftmost
      exact matches_of_greedy hne hgreedy
  | true =>
      obtain ⟨positions, hgreedy, rfl⟩ := hleftmost
      exact matches_of_reads (reads_folded hne) hgreedy

/-- The places of a sweep that goes on behind each occurrence are in order. -/
theorem ordered_of_greedy {Symbol : Type} {needle text : List Symbol} {place : Nat → Nat}
    (hmono : StrictMono place) (hneedle : needle ≠ []) {start : Nat} {positions : List Nat}
    (hgreedy : Greedy needle text start positions) (hstart : start ≤ text.length) :
    Ordered (place text.length) (place start)
      (positions.map fun position => (place position, place (position + needle.length))) := by
  unfold Greedy at hgreedy
  induction hgreedy with
  | done => exact hmono.monotone hstart
  | @found start position rest hfirst _ ih =>
      have hend := hfirst.occurs.add_length_le hneedle
      have hlength := List.length_pos_of_ne_nil hneedle
      exact ⟨hmono.monotone hfirst.from_start, hmono (by omega), ih hend⟩

/-- The leftmost matches are in order and apart. -/
theorem Leftmost.ordered (hne : patternBytes ≠ [])
    (hleftmost : Leftmost toUpper caseInsensitive patternBytes subjectBytes ranges) :
    Ordered subjectBytes.length 0 ranges := by
  cases caseInsensitive with
  | false =>
      obtain ⟨positions, hgreedy, rfl⟩ := hleftmost
      exact ordered_of_greedy strictMono_id hne hgreedy (Nat.zero_le _)
  | true =>
      obtain ⟨positions, hgreedy, rfl⟩ := hleftmost
      have hordered := ordered_of_greedy (Utf8.boundary_strictMono subjectBytes)
        (folded_ne_nil toUpper hne) hgreedy (Nat.zero_le _)
      rw [boundary_length_folded] at hordered
      exact hordered

end Leftmost

/-! ## What a split returns -/

/-- The fields of a split: those the limit admits of the fields closed so far. -/
def splitFields (omitEmpty tokensOnly : Bool) (n : Int) (subjectLength : Nat)
    (ranges : List (Nat × Nat)) : List (Nat × Nat) :=
  if subjectLength = 0 then []
  else
    let fields := limitedFields omitEmpty subjectLength
      (searchLimit n tokensOnly - 1).toNat 0 ranges
    if tokensOnly ∧ fieldLimit n < intMax then fields.take (fieldLimit n).toNat else fields

/-- What is returned are the fields between the matches. -/
theorem finish_advanceAll (omitEmpty tokensOnly : Bool) {n : Int} (hn : n ≠ 0)
    {subjectLength : Nat} (hlength : subjectLength ≠ 0) (ranges : List (Nat × Nat)) :
    (advanceAll omitEmpty (searchLimit n tokensOnly) ranges .initial).finish omitEmpty tokensOnly
        (fieldLimit n) subjectLength =
      (splitFields omitEmpty tokensOnly n subjectLength ranges).map toRange := by
  have hlimit : 1 ≤ searchLimit n tokensOnly := by
    unfold searchLimit fieldLimit intMax
    split <;> split <;> omega
  have hclose := close_advanceAll omitEmpty (searchLimit n tokensOnly) subjectLength ranges
    (show SplitState.initial.current.start = (0 : Nat) from rfl) hlimit
  rw [SplitState.finish, hclose, splitFields, if_neg hlength]
  simp only [SplitState.initial, List.nil_append]
  split
  · rw [List.map_take]
  · rfl

section Answer

variable {self : FixedMatcher} {subject pattern : StringView} {options : FixedSearchOptions}
  {subjectBytes patternBytes : List UInt8} {ranges : List (Nat × Nat)}

/-- The byte kernel returns the fields. -/
theorem splitExactByte_eq {delimiter : UInt8} (hsubject : Present subject subjectBytes)
    (hleftmost : Leftmost toUpper false [delimiter] subjectBytes ranges) {n : Int} (hn : n ≠ 0)
    (hlimit : n < intMax - 1) (omitEmpty tokensOnly : Bool) :
    splitExactByte subject delimiter n omitEmpty tokensOnly =
      .ok (.ok, (splitFields omitEmpty tokensOnly n subjectBytes.length ranges).map toRange) := by
  obtain ⟨positions, hgreedy, rfl⟩ := hleftmost
  unfold splitExactByte
  rw [if_neg (by omega), if_neg hn, hsubject.len_eq, hsubject.not_na, hsubject.not_null,
    if_neg (by simp), hsubject.bytes_eq]
  by_cases hempty : subjectBytes.length = 0
  · rw [if_pos (by omega), splitFields, if_pos hempty]
    rfl
  · have hcount : positions.length ≤ subjectBytes.length - 0 :=
      Occurrence.Sweep.length_le (by simp) (fun position => by simp) hgreedy
    rw [if_neg (by omega), splitExactLoop_eq omitEmpty _ hgreedy (by omega)]
    simp only [← finish_advanceAll omitEmpty tokensOnly hn hempty]
    rfl

theorem split_of_many (hexact : ¬ (!options.caseInsensitive ∧ !pattern.isNull ∧ pattern.len = 1))
    (n : Int) (omitEmpty tokensOnly : Bool) :
    self.split toUpper subject pattern options n omitEmpty tokensOnly =
      self.splitByMatcher toUpper subject pattern options n omitEmpty tokensOnly := by
  rw [split, if_neg hexact]

/-- Splitting by the matcher returns the fields. -/
theorem splitByMatcher_eq (hself : Consistent toUpper self)
    (hsubject : Present subject subjectBytes) (hpattern : Present pattern patternBytes)
    (hne : patternBytes ≠ []) {caseInsensitive : Bool}
    (hleftmost : Leftmost toUpper caseInsensitive patternBytes subjectBytes ranges) {n : Int}
    (hn : n ≠ 0) (hlimit : n < intMax - 1) (omitEmpty tokensOnly : Bool) :
    ∃ self', self.splitByMatcher toUpper subject pattern ⟨caseInsensitive, false⟩ n omitEmpty
          tokensOnly =
        .ok ((.ok, (splitFields omitEmpty tokensOnly n subjectBytes.length ranges).map toRange),
          self') ∧
      Consistent toUpper self' := by
  rw [splitByMatcher, if_neg (show ¬ n ≥ intMax - 1 by omega), if_neg hn]
  by_cases hempty : subjectBytes = []
  · subst hempty
    refine ⟨self, ?_, hself⟩
    rw [resetSubject_of_empty hsubject]
    rfl
  · obtain ⟨matcher, self', hreset, hbuilt, hspan, hoptions⟩ :=
      resetSubject_eq ⟨caseInsensitive, false⟩ hself hsubject hempty hpattern hne
    have hmatches := hleftmost.matches hne
    have hfuel : ranges.length < (matcher.reset subjectBytes).searchLength + 1 :=
      Nat.lt_succ_of_le hmatches.2
    obtain ⟨after, hloop, hkept⟩ := splitLoop_eq omitEmpty (searchLimit n tokensOnly)
      (hbuilt.reset subjectBytes) (reports_reset hbuilt hmatches) hfuel .initial
    refine ⟨self'.keep after, ?_, consistent_keep hspan hoptions hkept⟩
    have hlength : subjectBytes.length ≠ 0 := by simpa using hempty
    rw [hreset, ← finish_advanceAll omitEmpty tokensOnly hn hlength, hsubject.len_eq]
    simp only [bind, Except.bind, hloop]
    rfl

/-- Splitting returns the fields, by the byte kernel or by the matcher. -/
theorem split_eq (hself : Consistent toUpper self) (hsubject : Present subject subjectBytes)
    (hpattern : Present pattern patternBytes) (hne : patternBytes ≠ []) {caseInsensitive : Bool}
    (hleftmost : Leftmost toUpper caseInsensitive patternBytes subjectBytes ranges) {n : Int}
    (hn : n ≠ 0) (hlimit : n < intMax - 1) (omitEmpty tokensOnly : Bool) :
    ∃ self', self.split toUpper subject pattern ⟨caseInsensitive, false⟩ n omitEmpty tokensOnly =
        .ok ((.ok, (splitFields omitEmpty tokensOnly n subjectBytes.length ranges).map toRange),
          self') ∧
      Consistent toUpper self' := by
  by_cases hexact : !caseInsensitive ∧ !pattern.isNull ∧ pattern.len = 1
  · -- a delimiter of one byte, compared as it is
    rw [split, if_pos hexact]
    obtain ⟨hsensitive, -, hsingle⟩ := hexact
    rw [hpattern.len_eq] at hsingle
    obtain ⟨delimiter, rfl⟩ := List.length_eq_one_iff.mp (Int.ofNat_inj.mp hsingle)
    obtain rfl : caseInsensitive = false := by simpa using hsensitive
    refine ⟨self, ?_, hself⟩
    rw [hpattern.bytes_eq, List.getD_cons_zero, splitExactByte_eq hsubject hleftmost hn hlimit]
    rfl
  · rw [split_of_many hexact]
    exact splitByMatcher_eq hself hsubject hpattern hne hleftmost hn hlimit omitEmpty tokensOnly

end Answer

end FixedMatcher

end Charr.FixedSearch
