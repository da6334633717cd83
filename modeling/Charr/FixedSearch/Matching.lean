import Charr.FixedSearch.ByteSearchMatcher
import Charr.Library.KmpBackward

/-!
# What a matcher finds

Every strategy searches a text of symbols for a needle of symbols and reports
the places where the occurrence begins and ends. For the byte strategies the
symbols are the bytes; for the folding strategy they are the folded code points
of the subject, one for each step of the forward iteration.
-/

namespace Charr.FixedSearch

open Occurrence (At IsFirst Finds Greedy)
open Utf8 (CodePoint)

namespace ByteSearchMatcher

variable {toUpper : CodePoint → CodePoint} {matcher : ByteSearchMatcher}

/-! ## The byte strategies -/

/-- Bytes are read one by one. -/
theorem reading_readByte (matcher : ByteSearchMatcher) :
    Kmp.Reading matcher.readByte matcher.searchLength matcher.subject id where
  advances position := Nat.lt_succ_self position
  place_succ _ := rfl
  symbol index hindex := by
    simp [readByte, List.getD_eq_getElem?_getD, List.getElem?_eq_getElem hindex]
  place_lt _ := Iff.rfl

/-- The search by the table finds the first match from a position on. -/
theorem findFromPosKmp_finds (matcher : ByteSearchMatcher) (hpattern : matcher.pattern ≠ [])
    (hsteers : Kmp.Steers matcher.pattern matcher.kmpNext) (start : Nat) :
    ∃ result, Finds matcher.pattern matcher.subject start result ∧
      matcher.findFromPosKmp start =
        match result with
        | some position => matcher.matched position (position + matcher.pattern.length)
        | none => matcher.exhausted := by
  have hfuel : matcher.searchLength < matcher.searchLength + 1 + id start := by omega
  obtain ⟨result, hfinds, hscan⟩ :=
    matcher.reading_readByte.scan_finds hpattern start hfuel
  refine ⟨result, hfinds, ?_⟩
  unfold findFromPosKmp
  rw [Kmp.scan_zero_of_steers hsteers hpattern, show start = id start from rfl, hscan]
  cases result with
  | none => rfl
  | some position => simp [patternLength]

theorem findFromPosSingleByte_finds (matcher : ByteSearchMatcher)
    (hpattern : matcher.pattern.length = 1) (start : Nat) :
    ∃ result, Finds matcher.pattern matcher.subject start result ∧
      matcher.findFromPosSingleByte start =
        match result with
        | some position => matcher.matched position (position + matcher.pattern.length)
        | none => matcher.exhausted := by
  obtain ⟨byte, hbyte⟩ := List.length_eq_one_iff.mp hpattern
  unfold findFromPosSingleByte patternLength
  rw [hbyte]
  split
  next hpast =>
    refine ⟨none, fun position hposition hat => ?_, rfl⟩
    have := hat.add_length_le (by simp)
    change _ ≤ matcher.searchLength at this
    rw [List.length_singleton] at *
    omega
  next hinside =>
    rw [List.length_singleton] at hinside
    have hfinds := memchr_finds matcher.subject byte start
      (show matcher.subject.length ≤ start + (matcher.searchLength - start) by
        change matcher.searchLength ≤ _
        omega)
    refine ⟨_, hfinds, ?_⟩
    rw [List.getD_cons_zero]
    cases memchr (matcher.subject.drop start) byte (matcher.searchLength - start) <;> rfl

/-- The search for a short pattern finds the first match from a position on. -/
theorem findFromPosShort_finds (matcher : ByteSearchMatcher) (hpattern : matcher.pattern ≠ [])
    (start : Nat) :
    ∃ result, Finds matcher.pattern matcher.subject start result ∧
      matcher.findFromPosShort start =
        match result with
        | some position => matcher.matched position (position + matcher.pattern.length)
        | none => matcher.exhausted := by
  obtain ⟨head, tail, hcons⟩ := List.exists_cons_of_ne_nil hpattern
  unfold findFromPosShort patternLength
  rw [hcons]
  split
  next hpast =>
    refine ⟨none, fun position hposition hat => ?_, rfl⟩
    have := hat.add_length_le (by simp)
    change _ ≤ matcher.searchLength at this
    rcases hpast with hzero | hpast
    · simp at hzero
    · omega
  next hinside =>
    have hlast : ∀ position, At (head :: tail) matcher.subject position →
        position ≤ matcher.searchLength - (head :: tail).length := by
      intro position hat
      have := hat.add_length_le (by simp)
      change _ ≤ matcher.searchLength at this
      omega
    have hfinds : Finds (head :: tail) matcher.subject start (candidateLoop matcher.subject head
        (matcher.searchLength - (head :: tail).length)
        (fun candidate => memequal (matcher.subject.drop (candidate + 1)) ((head :: tail).drop 1)
          ((head :: tail).length - 1)) (matcher.searchLength + 1) start) := by
      refine candidateLoop_spec hlast (fun position hbyte => ?_) _ (by omega)
      rw [at_cons_iff]
      simp [hbyte]
    rw [List.getD_cons_zero]
    cases hloop : candidateLoop matcher.subject head
        (matcher.searchLength - (head :: tail).length)
        (fun candidate => memequal (matcher.subject.drop (candidate + 1)) ((head :: tail).drop 1)
          ((head :: tail).length - 1)) (matcher.searchLength + 1) start with
    | none => exact ⟨none, hloop ▸ hfinds, rfl⟩
    | some candidate => exact ⟨some candidate, hloop ▸ hfinds, rfl⟩

/-! ## The folding strategy -/

/-- The folded code points of a text. -/
def folded (toUpper : CodePoint → CodePoint) (text : List UInt8) : List CodePoint :=
  foldLoop toUpper text text.length 0

section Folding

variable (toUpper : CodePoint → CodePoint) (text : List UInt8)

/-- Folding from a boundary on folds the code points from there on. -/
theorem foldLoop_boundary {stop : Nat} (hstop : Utf8.boundary text stop = text.length)
    (fuel : Nat) {index : Nat} (hindex : index ≤ stop)
    (hfuel : text.length ≤ fuel + Utf8.boundary text index) :
    foldLoop toUpper text fuel (Utf8.boundary text index) =
      (List.range' index (stop - index)).map fun index =>
        toUpper (Utf8.next text (Utf8.boundary text index)).1 := by
  have hmono := Utf8.boundary_strictMono text
  induction fuel generalizing index with
  | zero =>
      obtain rfl : index = stop := by
        rcases Nat.lt_or_eq_of_le hindex with hlt | heq
        · have := hmono hlt
          omega
        · exact heq
      simp [foldLoop]
  | succ fuel ih =>
      rw [foldLoop]
      split
      next hinside =>
        have hlt : index < stop := by
          rw [← hstop] at hinside
          exact hmono.lt_iff_lt.mp hinside
        have hnext : (readFolded toUpper text (Utf8.boundary text index)).2 =
            Utf8.boundary text (index + 1) := by
          rw [Utf8.boundary_succ, ← Utf8.next_snd]
          rfl
        have hgrows : Utf8.boundary text index < Utf8.boundary text (index + 1) :=
          hmono (Nat.lt_succ_self index)
        rw [hnext, ih (by omega) (by omega),
          show stop - index = stop - (index + 1) + 1 by omega, List.range'_succ, List.map_cons]
        rfl
      next houtside =>
        obtain rfl : index = stop := by
          rcases Nat.lt_or_eq_of_le hindex with hlt | heq
          · have := hmono hlt
            omega
          · exact heq
        simp

/-- There are as many folded code points as code points. -/
theorem boundary_length_folded :
    Utf8.boundary text (folded toUpper text).length = text.length := by
  obtain ⟨stop, hstop⟩ := Utf8.exists_boundary_eq_length text
  have hfolded := foldLoop_boundary toUpper text hstop text.length (Nat.zero_le stop) (by omega)
  rw [folded, show (0 : Nat) = Utf8.boundary text 0 from rfl, hfolded]
  simpa using hstop

/-- Folded code points are read one by one, from boundary to boundary. -/
theorem reading_readFolded :
    Kmp.Reading (readFolded toUpper text) text.length (folded toUpper text)
      (Utf8.boundary text) where
  advances position := by
    rw [readFolded, Utf8.next_snd]
    exact Utf8.lt_fwd1 text position
  place_succ index := by
    rw [Utf8.boundary_succ, readFolded, Utf8.next_snd]
  symbol index hindex := by
    obtain ⟨stop, hstop⟩ := Utf8.exists_boundary_eq_length text
    have hfolded := foldLoop_boundary toUpper text hstop text.length (Nat.zero_le stop) (by omega)
    rw [show Utf8.boundary text 0 = 0 from rfl] at hfolded
    simp only [folded, hfolded, List.getElem_map, List.getElem_range', readFolded]
    simp
  place_lt index := by
    have hmono := Utf8.boundary_strictMono text
    have hend := boundary_length_folded toUpper text
    conv_lhs => rw [← hend]
    exact hmono.lt_iff_lt

end Folding

/-- The search over folded code points finds the first match from a position on. -/
theorem findFromPosKmpCaseInsensitive_finds (matcher : ByteSearchMatcher)
    (hpattern : matcher.foldedPattern ≠ [])
    (hsteers : Kmp.Steers matcher.foldedPattern matcher.kmpNext) (start : Nat) :
    ∃ result, Finds matcher.foldedPattern (folded toUpper matcher.subject) start result ∧
      matcher.findFromPosKmpCaseInsensitive toUpper (Utf8.boundary matcher.subject start) =
        match result with
        | some position => matcher.matched (Utf8.boundary matcher.subject position)
            (Utf8.boundary matcher.subject (position + matcher.foldedPattern.length))
        | none => matcher.exhausted := by
  obtain ⟨result, hfinds, hscan⟩ :=
    (reading_readFolded toUpper matcher.subject).scan_finds hpattern start
      (show matcher.subject.length < matcher.subject.length + 1 + _ by omega)
  refine ⟨result, hfinds, ?_⟩
  unfold findFromPosKmpCaseInsensitive
  rw [Kmp.scan_zero_of_steers hsteers hpattern,
    show matcher.searchLength = matcher.subject.length from rfl, hscan]
  cases result with
  | none => rfl
  | some position =>
      have hend := hfinds.occurs.add_length_le hpattern
      have hplace : Utf8.boundary matcher.subject (position + matcher.foldedPattern.length) ≤
          matcher.subject.length := by
        rw [← boundary_length_folded toUpper matcher.subject]
        exact (Utf8.boundary_strictMono matcher.subject).monotone hend
      simp only [Option.map_some, Utf8.back1_iterate_boundary matcher.subject hplace]

/-! ## Matchers with their history forgotten -/

/-- The table as a search leaves it. -/
def filledTable (matcher : ByteSearchMatcher) : List Int :=
  match matcher.strategy with
  | .kmp => Kmp.table matcher.pattern
  | .kmpCaseInsensitive => Kmp.table matcher.foldedPattern
  | .singleByte => [-100]
  | .shortPattern => [-100]

/-- The matcher with the table of its pattern. -/
def filled (matcher : ByteSearchMatcher) : ByteSearchMatcher :=
  { matcher with kmpNext := matcher.filledTable }

/-- The matcher was built for this pattern, and has been used for forward
searches only. -/
structure BuiltFor (toUpper : CodePoint → CodePoint) (pattern : List UInt8)
    (overlap caseInsensitive : Bool) (matcher : ByteSearchMatcher) : Prop where
  strategy_eq : matcher.strategy = (create toUpper pattern overlap caseInsensitive).strategy
  overlap_eq : matcher.overlap = overlap
  pattern_eq : matcher.pattern = pattern
  folded_eq : matcher.foldedPattern =
    (create toUpper pattern overlap caseInsensitive).foldedPattern
  settled : matcher.kmpNext = [-100] ∨ matcher.kmpNext = matcher.filledTable

/-- The matcher all of them amount to on one subject: freshly reset, with its
table filled. -/
def canonical (toUpper : CodePoint → CodePoint) (pattern : List UInt8)
    (overlap caseInsensitive : Bool) (subject : List UInt8) : ByteSearchMatcher :=
  ((create toUpper pattern overlap caseInsensitive).reset subject).filled

variable {pattern subject : List UInt8} {overlap caseInsensitive : Bool}

theorem builtFor_create :
    BuiltFor toUpper pattern overlap caseInsensitive
      (create toUpper pattern overlap caseInsensitive) :=
  ⟨rfl, rfl, rfl, rfl, Or.inl rfl⟩

/-- With its table filled, a matcher built for a pattern is the canonical one. -/
theorem BuiltFor.filled_reset
    (hbuilt : BuiltFor toUpper pattern overlap caseInsensitive matcher) :
    (matcher.reset subject).filled =
      canonical toUpper pattern overlap caseInsensitive subject := by
  have hpattern : matcher.pattern = (create toUpper pattern overlap caseInsensitive).pattern :=
    hbuilt.pattern_eq
  have hoverlap : matcher.overlap = (create toUpper pattern overlap caseInsensitive).overlap :=
    hbuilt.overlap_eq
  simp only [canonical, filled, reset, filledTable, hbuilt.strategy_eq, hpattern, hoverlap,
    hbuilt.folded_eq]

theorem table_head {Symbol : Type} [DecidableEq Symbol] (needle : List Symbol) :
    (Kmp.table needle).getD 0 0 = -1 := by
  obtain ⟨entry, hentry, -, hgreatest⟩ := (Kmp.isTable_table needle).entry 0 (Nat.zero_le _)
  rw [List.getD_eq_getElem?_getD, hentry, Option.getD_some]
  rcases hgreatest with rfl | ⟨length, -, hborder⟩
  · rfl
  · exact absurd hborder.1 (Nat.not_lt_zero _)

/-- A table that was made stays, whatever it was made for. -/
theorem fillTable_table {Symbol : Type} [DecidableEq Symbol] {needle : List Symbol}
    (hmade : matcher.kmpNext = Kmp.table needle) (table : List Int) :
    matcher.fillTable table = matcher := by
  rw [fillTable, hmade, table_head, if_pos (by decide)]

/-- The table is filled once, and is the table of the pattern. -/
theorem fillTable_eq {Symbol : Type} [DecidableEq Symbol] {needle : List Symbol}
    (hsettled : matcher.kmpNext = [-100] ∨ matcher.kmpNext = Kmp.table needle) :
    matcher.fillTable (Kmp.table needle) = { matcher with kmpNext := Kmp.table needle } := by
  rcases hsettled with hfresh | htable
  · rw [fillTable, hfresh, if_neg (by decide)]
  · rw [fillTable_table htable, ← htable]

/-- The first search fills the table, unless an earlier subject's did. -/
theorem findFirst_eq (hsettled : matcher.kmpNext = [-100] ∨ matcher.kmpNext = matcher.filledTable) :
    matcher.findFirst toUpper = matcher.filled.findFromPos toUpper 0 := by
  have hstays : [-100] = matcher.filledTable → matcher.filled = matcher := by
    intro htable
    rw [filled, ← htable]
    rcases hsettled with h | h
    · rw [← h]
    · rw [htable, ← h]
  unfold findFirst findFromPos prepareKmpForward prepareFoldedKmpForward
  rw [show matcher.filled.strategy = matcher.strategy from rfl]
  cases hstrategy : matcher.strategy with
  | kmp =>
      have htable : matcher.filledTable = Kmp.table matcher.pattern := by
        simp only [filledTable, hstrategy]
      simp only
      rw [fillTable_eq (htable ▸ hsettled), filled, htable]
  | kmpCaseInsensitive =>
      have htable : matcher.filledTable = Kmp.table matcher.foldedPattern := by
        simp only [filledTable, hstrategy]
      simp only
      rw [fillTable_eq (htable ▸ hsettled), filled, htable]
  | singleByte => rw [hstays (by simp only [filledTable, hstrategy])]
  | shortPattern => rw [hstays (by simp only [filledTable, hstrategy])]

/-- After a reset every matcher built for a pattern searches alike. -/
theorem BuiltFor.findFirst_reset
    (hbuilt : BuiltFor toUpper pattern overlap caseInsensitive matcher) :
    (matcher.reset subject).findFirst toUpper =
      (canonical toUpper pattern overlap caseInsensitive subject).findFromPos toUpper 0 := by
  rw [findFirst_eq, hbuilt.filled_reset]
  exact hbuilt.settled

/-- Behind a reset the search starts at the start, as the canonical one does. -/
theorem BuiltFor.findNext_reset
    (hbuilt : BuiltFor toUpper pattern overlap caseInsensitive matcher) :
    (matcher.reset subject).findNext toUpper =
      (canonical toUpper pattern overlap caseInsensitive subject).findFromPos toUpper 0 := by
  have hfresh : (matcher.reset subject).searchPos < 0 := show (-1 : Int) < 0 by decide
  rw [findNext, if_pos hfresh, hbuilt.findFirst_reset]

/-- `after` differs from the matcher in the place of the last match only. -/
def Keeps (matcher after : ByteSearchMatcher) : Prop :=
  ∃ pos stop, after = { matcher with searchPos := pos, searchEnd := stop }

theorem keeps_matched (start stop : Nat) : matcher.Keeps (matcher.matched start stop).2 :=
  ⟨_, _, rfl⟩

theorem keeps_exhausted : matcher.Keeps matcher.exhausted.2 :=
  ⟨_, _, rfl⟩

/-- A search moves the matcher and changes nothing else. -/
theorem keeps_findFromPos (toUpper : CodePoint → CodePoint) (matcher : ByteSearchMatcher)
    (start : Nat) : matcher.Keeps (matcher.findFromPos toUpper start).2 := by
  unfold findFromPos
  cases matcher.strategy with
  | kmp =>
      simp only [findFromPosKmp]
      split
      · exact keeps_matched _ _
      · exact keeps_exhausted
  | kmpCaseInsensitive =>
      simp only [findFromPosKmpCaseInsensitive]
      split
      · exact keeps_matched _ _
      · exact keeps_exhausted
  | singleByte =>
      simp only [findFromPosSingleByte]
      split
      · exact keeps_exhausted
      · split
        · exact keeps_exhausted
        · exact keeps_matched _ _
  | shortPattern =>
      simp only [findFromPosShort]
      split
      · exact keeps_exhausted
      · split
        · exact keeps_exhausted
        · exact keeps_matched _ _

/-- What a search moves does not touch what the matcher is built for. -/
theorem BuiltFor.of_keeps (hbuilt : BuiltFor toUpper pattern overlap caseInsensitive matcher)
    {after : ByteSearchMatcher} (hkeeps : matcher.Keeps after) :
    BuiltFor toUpper pattern overlap caseInsensitive after := by
  obtain ⟨pos, stop, rfl⟩ := hkeeps
  exact ⟨hbuilt.strategy_eq, hbuilt.overlap_eq, hbuilt.pattern_eq, hbuilt.folded_eq,
    hbuilt.settled⟩

theorem BuiltFor.reset (hbuilt : BuiltFor toUpper pattern overlap caseInsensitive matcher)
    (search : List UInt8) :
    BuiltFor toUpper pattern overlap caseInsensitive (matcher.reset search) :=
  ⟨hbuilt.strategy_eq, hbuilt.overlap_eq, hbuilt.pattern_eq, hbuilt.folded_eq, hbuilt.settled⟩

/-- A search moves the match and may fill the table. -/
theorem keeps_of_findFromPos {position : Nat} {start : Int} {next : ByteSearchMatcher}
    (hnext : matcher.findFromPos toUpper position = (start, next)) : matcher.Keeps next := by
  have hkeeps := keeps_findFromPos toUpper matcher position
  rwa [hnext] at hkeeps

/-- A matcher stays built for its pattern from match to match. -/
theorem BuiltFor.findNext (hbuilt : BuiltFor toUpper pattern overlap caseInsensitive matcher)
    {start : Int} {next : ByteSearchMatcher} (hnext : matcher.findNext toUpper = (start, next)) :
    BuiltFor toUpper pattern overlap caseInsensitive next := by
  have hfilled : BuiltFor toUpper pattern overlap caseInsensitive matcher.filled :=
    ⟨hbuilt.strategy_eq, hbuilt.overlap_eq, hbuilt.pattern_eq, hbuilt.folded_eq, Or.inr rfl⟩
  unfold ByteSearchMatcher.findNext at hnext
  split at hnext
  · rw [findFirst_eq hbuilt.settled] at hnext
    exact hfilled.of_keeps (keeps_of_findFromPos hnext)
  · split at hnext
    · exact hbuilt.of_keeps (keeps_of_findFromPos hnext)
    · exact hbuilt.of_keeps (keeps_of_findFromPos hnext)

theorem builtFor_canonical :
    BuiltFor toUpper pattern overlap caseInsensitive
      (canonical toUpper pattern overlap caseInsensitive subject) :=
  ⟨rfl, rfl, rfl, rfl, Or.inr rfl⟩

/-! ## Searching from match to match -/

/-- The same matcher with its last match elsewhere. -/
def moved (matcher : ByteSearchMatcher) (start stop : Nat) : ByteSearchMatcher :=
  { matcher with searchPos := start, searchEnd := stop }

section Moved

variable (start stop : Nat)

@[simp] theorem moved_search : (matcher.moved start stop).search = matcher.search := rfl

@[simp] theorem moved_subject : (matcher.moved start stop).subject = matcher.subject := rfl

@[simp] theorem moved_searchLength :
    (matcher.moved start stop).searchLength = matcher.searchLength := rfl

@[simp] theorem moved_overlap : (matcher.moved start stop).overlap = matcher.overlap := rfl

@[simp] theorem moved_searchPos : (matcher.moved start stop).searchPos = start := rfl

@[simp] theorem moved_searchEnd : (matcher.moved start stop).searchEnd = stop := rfl

end Moved

/-- The matcher searches `text` for `needle`, symbol `index` of the text standing
at `place index` of the subject, and goes on at `follow` after a match. -/
structure Reads {Symbol : Type} (toUpper : CodePoint → CodePoint) (matcher : ByteSearchMatcher)
    (needle text : List Symbol) (place follow : Nat → Nat) : Prop where
  resets : matcher.search.isNone = false
  needle_ne : needle ≠ []
  place_zero : place 0 = 0
  place_mono : StrictMono place
  place_length : place text.length = matcher.searchLength
  finds : ∀ start, ∃ result, Finds needle text start result ∧
    matcher.findFromPos toUpper (place start) =
      match result with
      | some position => matcher.matched (place position) (place (position + needle.length))
      | none => matcher.exhausted
  lt_follow : ∀ position, position < follow position
  place_follow : ∀ position, place (follow position) =
    if matcher.overlap then Utf8.fwd1 matcher.subject (place position)
    else place (position + needle.length)

/-- The matches that calls of `findNext` report one after the other, up to the
call that reports none. -/
inductive Reports (toUpper : CodePoint → CodePoint) :
    ByteSearchMatcher → List (Nat × Nat) → ByteSearchMatcher → Prop
  | done {matcher last : ByteSearchMatcher}
      (hnext : matcher.findNext toUpper = (notFound, last)) :
      Reports toUpper matcher [] last
  | found {matcher next last : ByteSearchMatcher} {start stop : Nat} {rest : List (Nat × Nat)}
      (hnext : matcher.findNext toUpper = ((start : Int), next))
      (hlength : next.matchedLength = .ok ((stop : Int) - start))
      (hrest : Reports toUpper next rest last) :
      Reports toUpper matcher ((start, stop) :: rest) last

/-- The last match does not matter to a search from a position. -/
theorem findFromPos_moved (start stop position : Nat) :
    (matcher.moved start stop).findFromPos toUpper position =
      matcher.findFromPos toUpper position := by
  unfold findFromPos
  rw [show (matcher.moved start stop).strategy = matcher.strategy from rfl]
  cases matcher.strategy <;> rfl

section Reads

variable {Symbol : Type} {needle text : List Symbol} {place follow : Nat → Nat}
  (hreads : Reads toUpper matcher needle text place follow)
include hreads

/-- A match takes some of the subject. -/
theorem Reads.place_bounds {position : Nat} (hat : At needle text position) :
    place position < place (position + needle.length) ∧
      place (position + needle.length) ≤ matcher.searchLength := by
  have hpos := List.length_pos_of_ne_nil hreads.needle_ne
  refine ⟨hreads.place_mono (by omega), ?_⟩
  rw [← hreads.place_length]
  exact hreads.place_mono.monotone (hat.add_length_le hreads.needle_ne)

theorem Reads.matchedLength_moved {position : Nat} (hat : At needle text position) :
    (matcher.moved (place position) (place (position + needle.length))).matchedLength =
      .ok ((place (position + needle.length) : Int) - place position) := by
  obtain ⟨hlt, hle⟩ := hreads.place_bounds hat
  have hstart : (matcher.moved (place position)
      (place (position + needle.length))).matchedStart = .ok (place position) := by
    unfold matchedStart
    rw [if_neg, if_neg]
    · rfl
    · simp only [moved_searchPos, moved_searchEnd, moved_searchLength]
      omega
    · rw [moved_search, hreads.resets]
      exact Bool.false_ne_true
  unfold matchedLength
  rw [hstart]
  rfl

/-- After a match the search goes on at the place that follows. -/
theorem Reads.findNext_moved (position : Nat) :
    (matcher.moved (place position) (place (position + needle.length))).findNext toUpper =
      matcher.findFromPos toUpper (place (follow position)) := by
  unfold findNext
  simp only [moved_searchPos, moved_searchEnd, moved_overlap, moved_subject, findFromPos_moved,
    Int.toNat_natCast]
  rw [if_neg (by omega), hreads.place_follow]
  cases matcher.overlap <;> rfl

/-- A sweep over the symbols is what the calls report. -/
theorem Reads.reports {start : Nat} {positions : List Nat}
    (hsweep : Occurrence.Sweep needle text follow start positions)
    {current : ByteSearchMatcher}
    (hcurrent : current.findNext toUpper = matcher.findFromPos toUpper (place start)) :
    Reports toUpper current
      (positions.map fun position => (place position, place (position + needle.length)))
      matcher.exhausted.2 := by
  induction hsweep generalizing current with
  | @done start hnone =>
      obtain ⟨result, hfinds, heq⟩ := hreads.finds start
      cases result with
      | none =>
          rw [heq] at hcurrent
          exact .done hcurrent
      | some position => exact absurd hfinds.occurs (hnone _ hfinds.from_start)
  | @found start position rest hfirst _ ih =>
      obtain ⟨result, hfinds, heq⟩ := hreads.finds start
      cases result with
      | none => exact absurd hfirst.occurs (hfinds _ hfirst.from_start)
      | some found =>
          obtain rfl := hfirst.unique hfinds
          rw [heq] at hcurrent
          exact .found hcurrent (hreads.matchedLength_moved hfirst.occurs)
            (ih (hreads.findNext_moved position))

end Reads

/-! ## Both readings -/

/-- Where a byte search goes on after a match at `position`. -/
def followByte (overlap : Bool) (pattern subject : List UInt8) (position : Nat) : Nat :=
  if overlap then Utf8.fwd1 subject position else position + pattern.length

/-- The symbol a folding search goes on at. -/
def followFolded (overlap : Bool) (needle : List CodePoint) (position : Nat) : Nat :=
  if overlap then position + 1 else position + needle.length

/-- A search by bytes reads the pattern in the subject. -/
theorem reads_bytes (hpattern : pattern ≠ []) :
    Reads toUpper (canonical toUpper pattern overlap false subject) pattern subject id
      (followByte overlap pattern subject) where
  resets := rfl
  needle_ne := hpattern
  place_zero := rfl
  place_mono := strictMono_id
  place_length := rfl
  finds start := by
    have hlength := List.length_pos_of_ne_nil hpattern
    have hfields : (canonical toUpper pattern overlap false subject).strategy =
        if pattern.length = 1 then Strategy.singleByte
        else if pattern.length < 16 then .shortPattern else .kmp := rfl
    by_cases hsingle : pattern.length = 1
    · rw [if_pos hsingle] at hfields
      simp only [findFromPos, hfields]
      exact findFromPosSingleByte_finds (canonical toUpper pattern overlap false subject)
        hsingle start
    · by_cases hshort : pattern.length < 16
      · rw [if_neg hsingle, if_pos hshort] at hfields
        simp only [findFromPos, hfields]
        exact findFromPosShort_finds (canonical toUpper pattern overlap false subject)
          hpattern start
      · rw [if_neg hsingle, if_neg hshort] at hfields
        have htable : (canonical toUpper pattern overlap false subject).kmpNext =
            Kmp.table pattern := by
          change filledTable _ = _
          simp only [filledTable, reset, create, hsingle, hshort, Bool.false_eq_true, if_false]
        simp only [findFromPos, hfields]
        have hsteers : Kmp.Steers pattern
            (canonical toUpper pattern overlap false subject).kmpNext :=
          htable ▸ Kmp.steers_table pattern
        exact findFromPosKmp_finds (canonical toUpper pattern overlap false subject) hpattern
          hsteers start
  lt_follow position := by
    have hpos := List.length_pos_of_ne_nil hpattern
    unfold followByte
    split
    · exact Utf8.lt_fwd1 subject position
    · omega
  place_follow position := rfl

theorem folded_ne_nil (toUpper : CodePoint → CodePoint) (hpattern : pattern ≠ []) :
    folded toUpper pattern ≠ [] := by
  intro hnil
  have hend := boundary_length_folded toUpper pattern
  rw [hnil] at hend
  have hpos := List.length_pos_of_ne_nil hpattern
  change 0 = pattern.length at hend
  omega

/-- A search without case reads the folded pattern in the folded subject. -/
theorem reads_folded (hpattern : pattern ≠ []) :
    Reads toUpper (canonical toUpper pattern overlap true subject) (folded toUpper pattern)
      (folded toUpper subject) (Utf8.boundary subject)
      (followFolded overlap (folded toUpper pattern)) where
  resets := rfl
  needle_ne := folded_ne_nil toUpper hpattern
  place_zero := rfl
  place_mono := Utf8.boundary_strictMono subject
  place_length := boundary_length_folded toUpper subject
  finds start := findFromPosKmpCaseInsensitive_finds
    (canonical toUpper pattern overlap true subject) (folded_ne_nil toUpper hpattern)
    (Kmp.steers_table _) start
  lt_follow position := by
    have hpos := List.length_pos_of_ne_nil (folded_ne_nil toUpper hpattern)
    unfold followFolded
    split <;> omega
  place_follow position := by
    unfold followFolded
    change _ = if overlap then Utf8.fwd1 subject (Utf8.boundary subject position) else _
    rw [← Utf8.boundary_succ]
    cases overlap <;> rfl

end ByteSearchMatcher

end Charr.FixedSearch
