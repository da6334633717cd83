import Charr.FixedSearch.FindLast

/-!
# The table two directions share

The first search of a matcher fills its table, and every later search, forward or
backward and on any subject, goes by it. What a matcher has been used for shows in
the direction of its first search alone, and a search answers for its subject
when the table made then leads it as its own would.
-/

namespace Charr.FixedSearch

open Occurrence (At Finds FindsLast)
open Utf8 (CodePoint WellFormed boundary tokens)

namespace ByteSearchMatcher

/-! ## Calls -/

/-- What is asked of a matcher between two patterns. -/
inductive SearchCall where
  | reset (search : List UInt8)
  | findFirst
  | findNext
  | findLast
  deriving DecidableEq, Repr

/-- The matcher that a call leaves behind. -/
def afterCall (toUpper : CodePoint → CodePoint) (matcher : ByteSearchMatcher) :
    SearchCall → ByteSearchMatcher
  | .reset search => matcher.reset search
  | .findFirst => (matcher.findFirst toUpper).2
  | .findNext => (matcher.findNext toUpper).2
  | .findLast => (matcher.findLast toUpper).2

/-- A new matcher after some calls. -/
def afterCalls (toUpper : CodePoint → CodePoint) (pattern : List UInt8)
    (overlap caseInsensitive : Bool) (calls : List SearchCall) : ByteSearchMatcher :=
  calls.foldl (afterCall toUpper) (create toUpper pattern overlap caseInsensitive)

/-- The leftmost occurrence: of the bytes, or of the folded code points, whose places the
subject gives. -/
def FirstAnswer (toUpper : CodePoint → CodePoint) (caseInsensitive : Bool)
    (pattern subject : List UInt8) (answer : Int) : Prop :=
  if caseInsensitive then
    ∃ result, Finds (folded toUpper pattern) (folded toUpper subject) 0 result ∧
      answer = answerAt (boundary subject) result
  else ∃ result, Finds pattern subject 0 result ∧ answer = answerAt id result

/-- The rightmost occurrence, likewise. -/
def LastAnswer (toUpper : CodePoint → CodePoint) (caseInsensitive : Bool)
    (pattern subject : List UInt8) (answer : Int) : Prop :=
  if caseInsensitive then
    ∃ result, FindsLast (folded toUpper pattern) (folded toUpper subject) result ∧
      answer = answerAt (boundary subject) result
  else ∃ result, FindsLast pattern subject result ∧ answer = answerAt id result

/-! ## The table a matcher has -/

/-- The end a search starts from. -/
inductive Direction where
  | forward
  | backward
  deriving DecidableEq, Repr

/-- The pattern as it is read in a direction. -/
def Direction.facing {Symbol : Type} : Direction → List Symbol → List Symbol
  | .forward, pattern => pattern
  | .backward, pattern => pattern.reverse

/-- The direction of a search that is made on a matcher without a table. -/
def SearchCall.direction : SearchCall → Option Direction
  | .reset _ => none
  | .findFirst => some .forward
  | .findNext => some .forward
  | .findLast => some .backward

/-- The direction of the first search. -/
def firstDirection (calls : List SearchCall) : Option Direction :=
  calls.findSome? SearchCall.direction

/-- The subject that the calls leave. -/
def currentSubject (calls : List SearchCall) : List UInt8 :=
  calls.foldl (fun subject call =>
    match call with
    | .reset search => search
    | .findFirst | .findNext | .findLast => subject) []

section Table

variable (matcher : ByteSearchMatcher) (direction : Direction)

/-- What the first search fills in. -/
def madeTable : List Int :=
  match matcher.strategy with
  | .kmp => Kmp.table (direction.facing matcher.pattern)
  | .kmpCaseInsensitive => Kmp.table (direction.facing matcher.foldedPattern)
  | .singleByte => [-100]
  | .shortPattern => [-100]

/-- The matcher as a search in this direction prepares it. -/
def prepared : ByteSearchMatcher :=
  match matcher.strategy with
  | .kmp => matcher.fillTable (Kmp.table (direction.facing matcher.pattern))
  | .kmpCaseInsensitive => matcher.fillTable (Kmp.table (direction.facing matcher.foldedPattern))
  | .singleByte => matcher
  | .shortPattern => matcher

variable (toUpper : CodePoint → CodePoint)

/-- The matcher with another table. -/
def withTable (table : List Int) : ByteSearchMatcher :=
  { matcher with kmpNext := table }

/-- A search from the end, behind its preparation. -/
def findBack : Int × ByteSearchMatcher :=
  match matcher.strategy with
  | .kmp => matcher.findBackKmp
  | .kmpCaseInsensitive => matcher.findBackKmpCaseInsensitive toUpper
  | .singleByte => matcher.findLastSingleByte
  | .shortPattern => matcher.findLastShort

theorem strategy_fillTable (table : List Int) :
    (matcher.fillTable table).strategy = matcher.strategy := by
  unfold fillTable
  split <;> rfl

theorem subject_fillTable (table : List Int) :
    (matcher.fillTable table).subject = matcher.subject := by
  unfold fillTable
  split <;> rfl

/-- Searching forward is preparing the table and searching from the start. -/
theorem findFirst_eq_findFromPos :
    matcher.findFirst toUpper = (matcher.prepared .forward).findFromPos toUpper 0 := by
  unfold findFirst prepared findFromPos
  cases hstrategy : matcher.strategy <;>
    simp only [strategy_fillTable, hstrategy, prepareKmpForward, prepareFoldedKmpForward,
      Direction.facing]

/-- Searching backward is preparing the table and searching from the end. -/
theorem findLast_eq_findBack :
    matcher.findLast toUpper = (matcher.prepared .backward).findBack toUpper := by
  unfold findLast prepared findBack
  cases hstrategy : matcher.strategy <;>
    simp only [strategy_fillTable, hstrategy, prepareKmpBackward, prepareFoldedKmpBackward,
      Direction.facing]

variable {matcher toUpper}

theorem keeps_findBack : matcher.Keeps (matcher.findBack toUpper).2 := by
  unfold findBack
  cases matcher.strategy with
  | kmp =>
      simp only [findBackKmp]
      split
      · exact keeps_matched _ _
      · exact keeps_exhausted
  | kmpCaseInsensitive =>
      simp only [findBackKmpCaseInsensitive]
      split
      · exact keeps_matched _ _
      · exact keeps_exhausted
  | singleByte =>
      simp only [findLastSingleByte]
      split
      · exact keeps_exhausted
      · split
        · exact keeps_matched _ _
        · exact keeps_exhausted
  | shortPattern =>
      simp only [findLastShort]
      split
      · exact keeps_exhausted
      · split
        · exact keeps_matched _ _
        · exact keeps_exhausted

theorem withTable_self {table : List Int} (hmade : matcher.kmpNext = table) :
    matcher.withTable table = matcher := by
  rw [withTable, ← hmade]

end Table

/-- The matcher was built for this pattern, and its first search went in the direction
`made`, if there was one. -/
structure UsedFor (toUpper : CodePoint → CodePoint) (pattern : List UInt8)
    (overlap caseInsensitive : Bool) (made : Option Direction) (matcher : ByteSearchMatcher) :
    Prop where
  strategy_eq : matcher.strategy = (create toUpper pattern overlap caseInsensitive).strategy
  pattern_eq : matcher.pattern = pattern
  folded_eq : matcher.foldedPattern =
    (create toUpper pattern overlap caseInsensitive).foldedPattern
  table_eq : matcher.kmpNext = (made.map matcher.madeTable).getD [-100]
  fresh : made = none → matcher.searchPos < 0

section UsedFor

variable {toUpper : CodePoint → CodePoint} {pattern : List UInt8}
  {overlap caseInsensitive : Bool} {made : Option Direction} {matcher : ByteSearchMatcher}

theorem usedFor_create :
    UsedFor toUpper pattern overlap caseInsensitive none
      (create toUpper pattern overlap caseInsensitive) :=
  ⟨rfl, rfl, rfl, rfl, fun _ => show (-1 : Int) < 0 by decide⟩

/-- A search of either direction goes by the table that was made, if there was one. -/
theorem fillTable_made {Symbol : Type} [DecidableEq Symbol] (needle : Direction → List Symbol)
    (htable : matcher.kmpNext = (made.map fun made => Kmp.table (needle made)).getD [-100])
    (direction : Direction) :
    matcher.fillTable (Kmp.table (needle direction)) =
      matcher.withTable (Kmp.table (needle (made.getD direction))) := by
  cases made with
  | none => exact fillTable_eq (.inl htable)
  | some made =>
      have hmade : matcher.kmpNext = Kmp.table (needle made) := htable
      rw [fillTable_table hmade, Option.getD_some, withTable_self hmade]

/-- The table is made for the first direction only. -/
theorem UsedFor.prepared_eq
    (hused : UsedFor toUpper pattern overlap caseInsensitive made matcher)
    (direction : Direction) :
    matcher.prepared direction =
      matcher.withTable (matcher.madeTable (made.getD direction)) := by
  have htable := hused.table_eq
  cases hstrategy : matcher.strategy with
  | kmp =>
      simp only [prepared, madeTable, hstrategy]
      apply fillTable_made (·.facing matcher.pattern)
      cases made <;> simpa [madeTable, hstrategy] using htable
  | kmpCaseInsensitive =>
      simp only [prepared, madeTable, hstrategy]
      apply fillTable_made (·.facing matcher.foldedPattern)
      cases made <;> simpa [madeTable, hstrategy] using htable
  | singleByte =>
      simp only [prepared, madeTable, hstrategy]
      refine (withTable_self ?_).symm
      cases made <;> simpa [madeTable, hstrategy] using htable
  | shortPattern =>
      simp only [prepared, madeTable, hstrategy]
      refine (withTable_self ?_).symm
      cases made <;> simpa [madeTable, hstrategy] using htable

theorem UsedFor.of_keeps (hused : UsedFor toUpper pattern overlap caseInsensitive made matcher)
    (hmade : made ≠ none) {after : ByteSearchMatcher} (hkeeps : matcher.Keeps after) :
    UsedFor toUpper pattern overlap caseInsensitive made after := by
  obtain ⟨pos, stop, rfl⟩ := hkeeps
  exact ⟨hused.strategy_eq, hused.pattern_eq, hused.folded_eq, hused.table_eq,
    fun hnone => absurd hnone hmade⟩

theorem UsedFor.prepared (hused : UsedFor toUpper pattern overlap caseInsensitive made matcher)
    (direction : Direction) :
    UsedFor toUpper pattern overlap caseInsensitive (made.or (some direction))
      (matcher.prepared direction) := by
  rw [hused.prepared_eq]
  refine ⟨hused.strategy_eq, hused.pattern_eq, hused.folded_eq, ?_, ?_⟩
  · cases made <;> rfl
  · cases made <;> nofun

/-- A call makes the table, if none was made before. -/
theorem UsedFor.afterCall (hused : UsedFor toUpper pattern overlap caseInsensitive made matcher)
    (call : SearchCall) :
    UsedFor toUpper pattern overlap caseInsensitive (made.or call.direction)
      (matcher.afterCall toUpper call) := by
  have hsearched : ∀ direction, made.or (some direction) ≠ none := by
    intro direction
    cases made with
    | none => exact Option.some_ne_none _
    | some made => exact Option.some_ne_none _
  cases call with
  | reset search =>
      rw [SearchCall.direction, Option.or_none]
      exact ⟨hused.strategy_eq, hused.pattern_eq, hused.folded_eq, hused.table_eq,
        fun _ => show (-1 : Int) < 0 by decide⟩
  | findFirst =>
      rw [ByteSearchMatcher.afterCall, findFirst_eq_findFromPos]
      exact (hused.prepared .forward).of_keeps (hsearched .forward) (keeps_findFromPos _ _ _)
  | findLast =>
      rw [ByteSearchMatcher.afterCall, findLast_eq_findBack]
      exact (hused.prepared .backward).of_keeps (hsearched .backward) keeps_findBack
  | findNext =>
      rw [ByteSearchMatcher.afterCall, findNext]
      split
      next =>
        rw [findFirst_eq_findFromPos]
        exact (hused.prepared .forward).of_keeps (hsearched .forward) (keeps_findFromPos _ _ _)
      next hplaced =>
        -- Only a search before this one has left a place to go on from.
        obtain ⟨direction, rfl⟩ : ∃ direction, made = some direction :=
          Option.ne_none_iff_exists'.mp fun hnone => hplaced (hused.fresh hnone)
        have hkept : ∀ start, UsedFor toUpper pattern overlap caseInsensitive (some direction)
            (matcher.findFromPos toUpper start).2 := fun start =>
          hused.of_keeps (Option.some_ne_none _) (keeps_findFromPos _ _ _)
        split
        · exact hkept _
        · exact hkept _

/-- Which table a matcher has shows in the first search of its history. -/
theorem usedFor_afterCalls (calls : List SearchCall) :
    UsedFor toUpper pattern overlap caseInsensitive (firstDirection calls)
      (afterCalls toUpper pattern overlap caseInsensitive calls) := by
  have hrun : ∀ (calls : List SearchCall) {made matcher},
      UsedFor toUpper pattern overlap caseInsensitive made matcher →
      UsedFor toUpper pattern overlap caseInsensitive (made.or (firstDirection calls))
        (calls.foldl (ByteSearchMatcher.afterCall toUpper) matcher) := by
    intro calls
    induction calls with
    | nil =>
        intro made matcher hused
        rwa [show firstDirection [] = none from rfl, Option.or_none]
    | cons call calls ih =>
        intro made matcher hused
        have hnext := ih (hused.afterCall call)
        rw [Option.or_assoc] at hnext
        have hfirst : firstDirection (call :: calls) =
            call.direction.or (firstDirection calls) := by
          rw [firstDirection, List.findSome?_cons]
          cases call.direction <;> rfl
        rwa [hfirst]
  exact hrun calls usedFor_create

end UsedFor

/-! ## Any sequence of calls -/

section Calls

variable (toUpper : CodePoint → CodePoint) (pattern : List UInt8)
  (overlap caseInsensitive : Bool)

/-- The table made for one direction serves a search in another: strategies without a
table have none to share. -/
def Serves (made wanted : Direction) : Prop :=
  if caseInsensitive then
    Kmp.Steers (wanted.facing (folded toUpper pattern))
      (Kmp.table (made.facing (folded toUpper pattern)))
  else pattern.length < 16 ∨ Kmp.Steers (wanted.facing pattern) (Kmp.table (made.facing pattern))

/-- What a call is about to return is settled before it: it goes in the direction of the
first search, or the table made then serves it as well. -/
def Ready (before : List SearchCall) (call : SearchCall) : Prop :=
  ∀ made, firstDirection before = some made →
    match call with
    | .findFirst => Serves toUpper pattern caseInsensitive made .forward
    | .findLast => Serves toUpper pattern caseInsensitive made .backward
    | .findNext | .reset _ => True

/-- The call finds the leftmost or the rightmost occurrence in the current subject. -/
def CallAnswers (before : List SearchCall) (call : SearchCall) : Prop :=
  let matcher := afterCalls toUpper pattern overlap caseInsensitive before
  match call with
  | .findFirst =>
      FirstAnswer toUpper caseInsensitive pattern (currentSubject before)
        (matcher.findFirst toUpper).1
  | .findLast =>
      LastAnswer toUpper caseInsensitive pattern (currentSubject before)
        (matcher.findLast toUpper).1
  | .findNext | .reset _ => True

variable {toUpper pattern overlap caseInsensitive}
variable {made : Option Direction} {matcher : ByteSearchMatcher}

/-- A table serves the direction it was made for. -/
theorem serves_self (direction : Direction) :
    Serves toUpper pattern caseInsensitive direction direction := by
  unfold Serves
  split
  · exact Kmp.steers_table _
  · exact .inr (Kmp.steers_table _)

/-- The strategy follows from the length of the pattern. -/
theorem UsedFor.byte_strategy
    (hused : UsedFor toUpper pattern overlap false made matcher) :
    pattern.length = 1 ∧ matcher.strategy = .singleByte ∨
      pattern.length < 16 ∧ matcher.strategy = .shortPattern ∨
      ¬ pattern.length < 16 ∧ matcher.strategy = .kmp := by
  have hstrategy : matcher.strategy =
      if pattern.length = 1 then Strategy.singleByte
      else if pattern.length < 16 then .shortPattern else .kmp := hused.strategy_eq
  split_ifs at hstrategy with hsingle hshort
  · exact .inl ⟨hsingle, hstrategy⟩
  · exact .inr (.inl ⟨hshort, hstrategy⟩)
  · exact .inr (.inr ⟨hshort, hstrategy⟩)

theorem UsedFor.kmp_strategy (hused : UsedFor toUpper pattern overlap false made matcher)
    (hlong : ¬ pattern.length < 16) : matcher.strategy = .kmp := by
  rcases hused.byte_strategy with ⟨hsingle, -⟩ | ⟨hshort, -⟩ | ⟨-, hstrategy⟩
  · omega
  · exact absurd hshort hlong
  · exact hstrategy

/-- Without case the search is the one over folded code points. -/
theorem UsedFor.folded_strategy
    (hused : UsedFor toUpper pattern overlap true made matcher) :
    matcher.strategy = .kmpCaseInsensitive ∧ matcher.foldedPattern = folded toUpper pattern :=
  ⟨hused.strategy_eq, hused.folded_eq⟩

/-- The table of a folded pattern, in the direction it was made for. -/
theorem UsedFor.folded_table {direction : Direction}
    (hused : UsedFor toUpper pattern overlap true (some direction) matcher) :
    matcher.kmpNext = Kmp.table (direction.facing (folded toUpper pattern)) := by
  obtain ⟨hstrategy, hfolded⟩ := hused.folded_strategy
  rw [hused.table_eq, Option.map_some, Option.getD_some, madeTable, hstrategy, hfolded]

/-- The table of a long pattern, in the direction it was made for. -/
theorem UsedFor.byte_table {direction : Direction}
    (hused : UsedFor toUpper pattern overlap false (some direction) matcher)
    (hstrategy : matcher.strategy = .kmp) :
    matcher.kmpNext = Kmp.table (direction.facing pattern) := by
  rw [hused.table_eq, Option.map_some, Option.getD_some, madeTable, hstrategy, hused.pattern_eq]

/-- The table that was made serves the search. -/
theorem UsedFor.steers_folded {direction wanted : Direction}
    (hused : UsedFor toUpper pattern overlap true (some direction) matcher)
    (hserves : Serves toUpper pattern true direction wanted) :
    Kmp.Steers (wanted.facing matcher.foldedPattern) matcher.kmpNext := by
  rw [hused.folded_table, hused.folded_strategy.2]
  exact hserves

/-- A table that serves a direction steers the search there. -/
theorem UsedFor.steers_bytes {direction wanted : Direction}
    (hused : UsedFor toUpper pattern overlap false (some direction) matcher)
    (hlong : ¬ pattern.length < 16) (hstrategy : matcher.strategy = .kmp)
    (hserves : Serves toUpper pattern false direction wanted) :
    Kmp.Steers (wanted.facing matcher.pattern) matcher.kmpNext := by
  rw [hused.byte_table hstrategy, hused.pattern_eq]
  exact hserves.resolve_left hlong

theorem answerAt_of_eq {place stop : Nat → Nat} {result : Option Nat}
    {answer : Int × ByteSearchMatcher}
    (hanswer : answer = match result with
      | some position => matcher.matched (place position) (stop position)
      | none => matcher.exhausted) : answer.1 = answerAt place result := by
  rw [hanswer]
  cases result <;> rfl

/-- With a table that serves, the forward search answers right. -/
theorem findFromPos_answers {direction : Direction}
    (hused : UsedFor toUpper pattern overlap caseInsensitive (some direction) matcher)
    (hpattern : pattern ≠ [])
    (hserves : Serves toUpper pattern caseInsensitive direction .forward) :
    FirstAnswer toUpper caseInsensitive pattern matcher.subject
      (matcher.findFromPos toUpper 0).1 := by
  unfold findFromPos
  cases caseInsensitive with
  | true =>
      have hsteers := hused.steers_folded hserves
      obtain ⟨hstrategy, hfolded⟩ := hused.folded_strategy
      obtain ⟨result, hfinds, hanswer⟩ := @findFromPosKmpCaseInsensitive_finds toUpper matcher
        (hfolded ▸ folded_ne_nil toUpper hpattern) hsteers 0
      rw [hstrategy]
      exact ⟨result, hfolded ▸ hfinds, answerAt_of_eq hanswer⟩
  | false =>
      have hne : matcher.pattern ≠ [] := hused.pattern_eq ▸ hpattern
      rcases hused.byte_strategy with ⟨hsingle, hstrategy⟩ | ⟨-, hstrategy⟩ | ⟨hlong, hstrategy⟩
      · rw [← hused.pattern_eq] at hsingle ⊢
        obtain ⟨result, hfinds, hanswer⟩ := findFromPosSingleByte_finds matcher hsingle 0
        rw [hstrategy]
        exact ⟨result, hfinds, answerAt_of_eq hanswer⟩
      · rw [← hused.pattern_eq]
        obtain ⟨result, hfinds, hanswer⟩ := findFromPosShort_finds matcher hne 0
        rw [hstrategy]
        exact ⟨result, hfinds, answerAt_of_eq hanswer⟩
      · have hsteers := hused.steers_bytes hlong hstrategy hserves
        rw [← hused.pattern_eq]
        obtain ⟨result, hfinds, hanswer⟩ := findFromPosKmp_finds matcher hne hsteers 0
        rw [hstrategy]
        exact ⟨result, hfinds, answerAt_of_eq hanswer⟩

/-- With a table that serves, the backward search answers right. -/
theorem findBack_answers {direction : Direction}
    (hused : UsedFor toUpper pattern overlap caseInsensitive (some direction) matcher)
    (hpattern : pattern ≠ []) (hwell : caseInsensitive = true → WellFormed matcher.subject)
    (hserves : Serves toUpper pattern caseInsensitive direction .backward) :
    LastAnswer toUpper caseInsensitive pattern matcher.subject
      (matcher.findBack toUpper).1 := by
  unfold findBack
  cases caseInsensitive with
  | true =>
      have hsteers := hused.steers_folded hserves
      obtain ⟨hstrategy, hfolded⟩ := hused.folded_strategy
      obtain ⟨result, hfinds, hanswer⟩ := @findBackKmpCaseInsensitive_answers toUpper matcher
        (hfolded ▸ folded_ne_nil toUpper hpattern) (hwell rfl) hsteers
      rw [hstrategy]
      exact ⟨result, hfolded ▸ hfinds, hanswer⟩
  | false =>
      have hne : matcher.pattern ≠ [] := hused.pattern_eq ▸ hpattern
      rcases hused.byte_strategy with ⟨hsingle, hstrategy⟩ | ⟨-, hstrategy⟩ | ⟨hlong, hstrategy⟩
      · rw [← hused.pattern_eq] at hsingle ⊢
        rw [hstrategy]
        exact findLastSingleByte_answers hsingle
      · rw [← hused.pattern_eq, hstrategy]
        exact findLastShort_answers hne
      · have hsteers := hused.steers_bytes hlong hstrategy hserves
        rw [← hused.pattern_eq, hstrategy]
        exact findBackKmp_answers hne hsteers

/-! ### The subject -/

theorem subject_prepared (direction : Direction) :
    (matcher.prepared direction).subject = matcher.subject := by
  unfold prepared
  split
  · exact subject_fillTable _ _
  · exact subject_fillTable _ _
  · rfl
  · rfl

theorem Keeps.subject_eq {after : ByteSearchMatcher} (hkeeps : matcher.Keeps after) :
    after.subject = matcher.subject := by
  obtain ⟨pos, stop, rfl⟩ := hkeeps
  rfl

theorem subject_findFirst : (matcher.findFirst toUpper).2.subject = matcher.subject := by
  rw [findFirst_eq_findFromPos, (keeps_findFromPos _ _ _).subject_eq, subject_prepared]

theorem subject_findLast : (matcher.findLast toUpper).2.subject = matcher.subject := by
  rw [findLast_eq_findBack, keeps_findBack.subject_eq, subject_prepared]

theorem subject_findNext : (matcher.findNext toUpper).2.subject = matcher.subject := by
  rw [findNext]
  split
  next => exact subject_findFirst
  next =>
    split
    · exact (keeps_findFromPos _ _ _).subject_eq
    · exact (keeps_findFromPos _ _ _).subject_eq

/-- Only a reset changes the subject. -/
theorem subject_afterCalls (calls : List SearchCall) :
    (afterCalls toUpper pattern overlap caseInsensitive calls).subject = currentSubject calls := by
  -- Reading the subject commutes with every call, and so with the fold of them.
  have hcall : ∀ (matcher : ByteSearchMatcher) (call : SearchCall),
      (match call with
        | .reset search => search
        | .findFirst | .findNext | .findLast => matcher.subject) =
      (matcher.afterCall toUpper call).subject := by
    intro matcher call
    cases call with
    | reset search => rfl
    | findFirst => exact subject_findFirst.symm
    | findNext => exact subject_findNext.symm
    | findLast => exact subject_findLast.symm
  exact (List.foldl_hom subject hcall).symm

/-- The current subject is one of those that were set. -/
theorem wellFormed_currentSubject {calls : List SearchCall}
    (hwell : ∀ search, .reset search ∈ calls → WellFormed search) :
    WellFormed (currentSubject calls) := by
  apply List.foldlRecOn
  · exact ⟨[], rfl, nofun⟩
  · intro subject hsubject call hcall
    cases call with
    | reset search => exact hwell search hcall
    | findFirst => exact hsubject
    | findNext => exact hsubject
    | findLast => exact hsubject

/-! ### Every run -/

/-- The table of the first search serves the one that comes now. -/
theorem Serves.of_first {before : List SearchCall} {direction : Direction}
    (hserves : ∀ made, firstDirection before = some made →
      Serves toUpper pattern caseInsensitive made direction) :
    ∃ made, (firstDirection before).or (some direction) = some made ∧
      Serves toUpper pattern caseInsensitive made direction := by
  cases hfirst : firstDirection before with
  | none => exact ⟨direction, rfl, serves_self direction⟩
  | some made => exact ⟨made, rfl, hserves made hfirst⟩

/-- A call that meets the condition answers right. -/
theorem callAnswers_of_ready (hpattern : pattern ≠ []) {before : List SearchCall}
    (hwell : caseInsensitive = true → WellFormed (currentSubject before))
    {call : SearchCall} (hready : Ready toUpper pattern caseInsensitive before call) :
    CallAnswers toUpper pattern overlap caseInsensitive before call := by
  have hused := @usedFor_afterCalls toUpper pattern overlap caseInsensitive before
  have hsubject := @subject_afterCalls toUpper pattern overlap caseInsensitive before
  cases call with
  | reset search => trivial
  | findNext => trivial
  | findFirst =>
      -- the table of the first search, or the one this search makes
      obtain ⟨made, hmade, hserves⟩ := Serves.of_first hready
      have hprepared := hused.prepared .forward
      rw [hmade] at hprepared
      have hanswer := findFromPos_answers hprepared hpattern hserves
      rwa [subject_prepared, hsubject, ← findFirst_eq_findFromPos] at hanswer
  | findLast =>
      obtain ⟨made, hmade, hserves⟩ := Serves.of_first hready
      have hprepared := hused.prepared .backward
      rw [hmade] at hprepared
      have hread : caseInsensitive = true →
          WellFormed ((afterCalls toUpper pattern overlap caseInsensitive before).prepared
            .backward).subject := by
        intro hfolding
        rw [subject_prepared, hsubject]
        exact hwell hfolding
      have hanswer := findBack_answers hprepared hpattern hread hserves
      rwa [subject_prepared, hsubject, ← findLast_eq_findBack] at hanswer

/-- A matcher that searches from one end only is ready for every call. -/
theorem ready_of_one_direction {direction : Direction} {calls : List SearchCall}
    (hone : ∀ call ∈ calls, call.direction = none ∨ call.direction = some direction) :
    ∀ before call, before ++ [call] <+: calls →
      Ready toUpper pattern caseInsensitive before call := by
  intro before call hpart made hmade
  have hall : ∀ other ∈ before ++ [call],
      other.direction = none ∨ other.direction = some direction :=
    fun other hother => hone other (hpart.subset hother)
  obtain ⟨first, hfirst, hdirection⟩ := List.exists_of_findSome?_eq_some hmade
  obtain rfl : made = direction := by
    rcases hall first (List.mem_append_left _ hfirst) with hnone | hsome
    · exact nomatch hdirection.symm.trans hnone
    · exact Option.some.inj (hdirection.symm.trans hsome)
  have hlast := hall call (List.mem_append_right _ (List.mem_singleton_self call))
  cases call with
  | reset search => trivial
  | findNext => trivial
  | findFirst =>
      obtain rfl := Option.some.inj (hlast.resolve_left nofun)
      exact serves_self _
  | findLast =>
      obtain rfl := Option.some.inj (hlast.resolve_left nofun)
      exact serves_self _

/-- In a run whose searches all go in the direction of the first, or are served by the
table it made, every search answers for its subject alone. -/
theorem every_call_answers (hpattern : pattern ≠ []) {calls : List SearchCall}
    (hwell : caseInsensitive = true → ∀ search, .reset search ∈ calls → WellFormed search)
    (hready : ∀ before call, before ++ [call] <+: calls →
      Ready toUpper pattern caseInsensitive before call) :
    ∀ before call, before ++ [call] <+: calls →
      CallAnswers toUpper pattern overlap caseInsensitive before call := by
  intro before call hpart
  apply callAnswers_of_ready hpattern
  · intro hfolding
    apply wellFormed_currentSubject
    intro search hsearch
    exact hwell hfolding search (hpart.subset (List.mem_append_left _ hsearch))
  · exact hready before call hpart

theorem every_call_answers_forward :
    let calls : List SearchCall := [.reset [97, 97, 97, 98], .findFirst, .findNext,
      .reset [65, 65, 66], .findFirst]
    ∀ before call, before ++ [call] <+: calls →
      CallAnswers asciiToUpper [97, 97, 98] false true before call := by
  intro calls
  apply every_call_answers (List.cons_ne_nil _ _)
  · intro _ search hsearch
    simp only [calls, List.mem_cons, SearchCall.reset.injEq, reduceCtorEq, false_or,
      List.not_mem_nil, or_false] at hsearch
    rcases hsearch with rfl | rfl
    · exact ⟨[[97], [97], [97], [98]], rfl, by decide⟩
    · exact ⟨[[65], [65], [66]], rfl, by decide⟩
  · apply @ready_of_one_direction _ _ _ .forward
    decide

/-- `aab` stands in `aaab` from the second byte on. The search from the end finds it;
the search from the start, by the table that is left, does not. -/
theorem findLast_spoils_findFirst :
    let calls : List SearchCall := [.reset [97, 97, 97, 98], .findLast]
    WellFormed [97, 97, 97, 98] ∧
      At (folded asciiToUpper [97, 97, 98]) (folded asciiToUpper [97, 97, 97, 98]) 1 ∧
      ((afterCalls asciiToUpper [97, 97, 98] false true calls).findFirst asciiToUpper).1 =
        notFound ∧
      ¬ CallAnswers asciiToUpper [97, 97, 98] false true calls .findFirst := by
  intro calls
  have hat : At (folded asciiToUpper [97, 97, 98]) (folded asciiToUpper [97, 97, 97, 98]) 1 := by
    unfold At
    decide
  have hmissed : ((afterCalls asciiToUpper [97, 97, 98] false true calls).findFirst
      asciiToUpper).1 = notFound := by decide
  refine ⟨⟨[[97], [97], [97], [98]], rfl, by decide⟩, hat, hmissed, ?_⟩
  rintro ⟨result, hfinds, hanswer⟩
  cases result with
  | none => exact hfinds 1 (Nat.zero_le _) hat
  | some position => exact nomatch hmissed.symm.trans hanswer

end Calls

/-! ## Nothing less will do -/

section Exact

variable {toUpper : CodePoint → CodePoint} {pattern : List UInt8}
  {overlap caseInsensitive : Bool} {made : Direction} {matcher : ByteSearchMatcher}

theorem length_facing {Symbol : Type} (direction : Direction) (pattern : List Symbol) :
    (direction.facing pattern).length = pattern.length := by
  cases direction with
  | forward => rfl
  | backward => exact List.length_reverse

/-- Every failure table falls, whatever its pattern, so that searches end. -/
theorem falls_facing {Symbol : Type} [DecidableEq Symbol] (direction : Direction)
    (pattern : List Symbol) : Kmp.Falls pattern.length (Kmp.table (direction.facing pattern)) := by
  have hfalls := Kmp.falls_table (direction.facing pattern)
  rwa [length_facing] at hfalls

/-- Answers tell positions apart. -/
theorem answerAt_injective {place : Nat → Nat} (hplace : place.Injective) :
    (answerAt place).Injective := by
  intro left right heq
  cases left with
  | none =>
      cases right with
      | none => rfl
      | some position => exact absurd heq.symm (FixedMatcher.natCast_ne_notFound _)
  | some position =>
      cases right with
      | none => exact absurd heq (FixedMatcher.natCast_ne_notFound _)
      | some other => rw [hplace (Int.ofNat_inj.mp heq)]

theorem folded_eq_map (text : List UInt8) :
    folded toUpper text = (tokens text).map fun token => toUpper token.codePoint := by
  apply List.ext_getElem
  · rw [length_folded, List.length_map]
    rfl
  · intro index hindex _
    have hcount : index < Utf8.codePointCount text := by rwa [length_folded] at hindex
    have hsymbol := (reading_readFolded toUpper text).symbol index hindex
    rw [readFolded, next_boundary_eq hcount] at hsymbol
    rw [List.getElem_map]
    exact hsymbol.symm

/-- Code points of the folded pattern are what some subject folds to. -/
theorem exists_subject (hwell : WellFormed pattern) {symbols : List CodePoint}
    (hsymbols : ∀ symbol ∈ symbols, symbol ∈ folded toUpper pattern) :
    ∃ subject, WellFormed subject ∧ folded toUpper subject = symbols := by
  rw [folded_eq_map] at hsymbols
  obtain ⟨list, hlist, rfl⟩ : ∃ list : List Utf8.Token, Utf8.AreCodePoints list ∧
      (list.map fun token => toUpper token.codePoint) = symbols := by
    induction symbols with
    | nil => exact ⟨[], nofun, rfl⟩
    | cons symbol symbols ih =>
        obtain ⟨hsymbol, hothers⟩ := List.forall_mem_cons.mp hsymbols
        obtain ⟨list, hlist, rfl⟩ := ih hothers
        obtain ⟨token, htoken, rfl⟩ := List.mem_map.mp hsymbol
        exact ⟨token :: list,
          List.forall_mem_cons.mpr ⟨hwell.areCodePoints token htoken, hlist⟩, rfl⟩
  refine ⟨Utf8.tokenBytes list, Utf8.wellFormed_tokenBytes hlist, ?_⟩
  rw [folded_eq_map, Utf8.tokens_tokenBytes hlist]

/-! ### What a search reports with any table -/

/-- The forward search is a scan of the subject. -/
theorem findFromPosKmp_eq_scanList :
    (matcher.findFromPosKmp 0).1 =
      answerAt id ((Kmp.scanList matcher.pattern matcher.kmpNext matcher.subject 0).map
        (· - matcher.pattern.length)) := by
  have hscan := @Kmp.Reading.scan_eq_scanList _ _ _ _ _ _ matcher.reading_readByte
    matcher.pattern matcher.kmpNext (matcher.searchLength + 1) 0
    (show _ < _ by omega) 0
  unfold findFromPosKmp
  rw [show (0 : Nat) = id 0 from rfl, hscan, List.drop_zero]
  cases Kmp.scanList matcher.pattern matcher.kmpNext matcher.subject 0 with
  | none => rfl
  | some count => simp [matched, answerAt, patternLength]

theorem findFromPosKmpCaseInsensitive_eq_scanList (hpattern : matcher.foldedPattern ≠ [])
    (hfalls : Kmp.Falls matcher.foldedPattern.length matcher.kmpNext) :
    (matcher.findFromPosKmpCaseInsensitive toUpper 0).1 =
      answerAt (boundary matcher.subject)
        ((Kmp.scanList matcher.foldedPattern matcher.kmpNext
          (folded toUpper matcher.subject) 0).map (· - matcher.foldedPattern.length)) := by
  have hscan := @Kmp.Reading.scan_eq_scanList _ _ _ _ _ _
    (reading_readFolded toUpper matcher.subject) matcher.foldedPattern matcher.kmpNext
    (matcher.subject.length + 1) 0 (show matcher.subject.length < _ by omega) 0
  unfold findFromPosKmpCaseInsensitive
  rw [show (0 : Nat) = boundary matcher.subject 0 from rfl,
    show matcher.searchLength = matcher.subject.length from rfl, hscan, List.drop_zero]
  cases hcount : Kmp.scanList matcher.foldedPattern matcher.kmpNext
      (folded toUpper matcher.subject) 0 with
  | none => rfl
  | some count =>
      have hbounds := Kmp.scanList_bounds hfalls _ (List.length_pos_of_ne_nil hpattern) hcount
      have hend : boundary matcher.subject
          (count - matcher.foldedPattern.length + matcher.foldedPattern.length) ≤
            matcher.subject.length := by
        rw [Nat.sub_add_cancel (by omega), ← boundary_length_folded toUpper matcher.subject]
        exact (Utf8.boundary_strictMono matcher.subject).monotone hbounds.2
      have hstart := Utf8.back1_iterate_boundary matcher.subject hend
      rw [Nat.sub_add_cancel (by omega)] at hstart
      simp only [Option.map_some, Nat.zero_add, hstart]
      rfl

/-- The backward search is a scan of the reversed subject. -/
theorem findBackKmp_eq_scanList (hpattern : matcher.pattern ≠ [])
    (hfalls : Kmp.Falls matcher.pattern.length matcher.kmpNext) :
    matcher.findBackKmp.1 =
      answerAt id ((Kmp.scanList matcher.pattern.reverse matcher.kmpNext
        matcher.subject.reverse 0).map (matcher.subject.length - ·)) := by
  rw [← List.length_reverse] at hfalls
  have hreverse : matcher.pattern.reverse ≠ [] := by simpa using hpattern
  have hscan := (@readingBack_readByteBack matcher).scanBack_eq_scanList hfalls hreverse
    (show id matcher.subject.length < matcher.searchLength + 1 from Nat.lt_succ_self _)
  unfold findBackKmp
  rw [show matcher.searchLength = id matcher.subject.length from rfl]
  rw [show matcher.searchLength = id matcher.subject.length from rfl] at hscan
  rw [hscan]
  cases Kmp.scanList matcher.pattern.reverse matcher.kmpNext matcher.subject.reverse 0 <;> rfl

theorem findBackKmpCaseInsensitive_eq_scanList (hpattern : matcher.foldedPattern ≠ [])
    (hwell : WellFormed matcher.subject)
    (hfalls : Kmp.Falls matcher.foldedPattern.length matcher.kmpNext) :
    (matcher.findBackKmpCaseInsensitive toUpper).1 =
      answerAt (boundary matcher.subject)
        ((Kmp.scanList matcher.foldedPattern.reverse matcher.kmpNext
          (folded toUpper matcher.subject).reverse 0).map
            ((folded toUpper matcher.subject).length - ·)) := by
  rw [← List.length_reverse] at hfalls
  have hreverse : matcher.foldedPattern.reverse ≠ [] := by simpa using hpattern
  have hend : boundary matcher.subject (folded toUpper matcher.subject).length =
      matcher.searchLength := boundary_length_folded toUpper matcher.subject
  have hscan := (@readingBack_readFoldedBack toUpper _ hwell).scanBack_eq_scanList
    hfalls hreverse (show _ < matcher.searchLength + 1 from hend ▸ Nat.lt_succ_self _)
  rw [hend] at hscan
  unfold findBackKmpCaseInsensitive
  rw [hscan]
  cases Kmp.scanList matcher.foldedPattern.reverse matcher.kmpNext
    (folded toUpper matcher.subject).reverse 0 <;> rfl

/-! ### A subject for every table that does not serve -/

/-- If some search of every subject answers right with the table, the table serves. -/
theorem serves_of_firstAnswers (hpattern : pattern ≠ [])
    (hwell : caseInsensitive = true → WellFormed pattern)
    (hanswers : ∀ subject, (caseInsensitive = true → WellFormed subject) →
      ∃ matcher, UsedFor toUpper pattern overlap caseInsensitive (some made) matcher ∧
        matcher.subject = subject ∧
        FirstAnswer toUpper caseInsensitive pattern subject (matcher.findFromPos toUpper 0).1) :
    Serves toUpper pattern caseInsensitive made .forward := by
  by_contra hnot
  cases caseInsensitive with
  | true =>
      -- the text on which the table fails is over folded code points of the pattern
      obtain ⟨symbols, hsymbols, hfails⟩ := Kmp.exists_text_not_first
        (folded_ne_nil toUpper hpattern) (falls_facing made _) hnot
      obtain ⟨subject, hread, rfl⟩ := exists_subject (hwell rfl) hsymbols
      obtain ⟨matcher, hused, rfl, result, hfinds, hanswer⟩ := hanswers subject fun _ => hread
      obtain ⟨hstrategy, hfolded⟩ := hused.folded_strategy
      have hreports := @findFromPosKmpCaseInsensitive_eq_scanList toUpper matcher
        (hfolded ▸ folded_ne_nil toUpper hpattern)
        (by rw [hfolded, hused.folded_table]; exact falls_facing made _)
      unfold findFromPos at hanswer
      rw [hstrategy] at hanswer
      have hsame := answerAt_injective (Utf8.boundary_strictMono _).injective
        (hreports.symm.trans hanswer)
      rw [hfolded, hused.folded_table] at hsame
      exact hfails (hsame ▸ hfinds)
  | false =>
      -- with bytes the text is a subject as it is
      obtain ⟨hlong, hsteers⟩ := not_or.mp hnot
      obtain ⟨subject, -, hfails⟩ :=
        Kmp.exists_text_not_first hpattern (falls_facing made _) hsteers
      obtain ⟨matcher, hused, rfl, result, hfinds, hanswer⟩ := hanswers subject nofun
      have hstrategy := hused.kmp_strategy hlong
      unfold findFromPos at hanswer
      rw [hstrategy] at hanswer
      have hsame := answerAt_injective Function.injective_id
        (findFromPosKmp_eq_scanList.symm.trans hanswer)
      rw [hused.pattern_eq, hused.byte_table hstrategy] at hsame
      exact hfails (hsame ▸ hfinds)

/-- A table with which every backward search answers right serves the direction. -/
theorem serves_of_lastAnswers (hpattern : pattern ≠ [])
    (hwell : caseInsensitive = true → WellFormed pattern)
    (hanswers : ∀ subject, (caseInsensitive = true → WellFormed subject) →
      ∃ matcher, UsedFor toUpper pattern overlap caseInsensitive (some made) matcher ∧
        matcher.subject = subject ∧
        LastAnswer toUpper caseInsensitive pattern subject (matcher.findBack toUpper).1) :
    Serves toUpper pattern caseInsensitive made .backward := by
  by_contra hnot
  cases caseInsensitive with
  | true =>
      obtain ⟨symbols, hsymbols, hfails⟩ := Kmp.exists_text_not_last
        (folded_ne_nil toUpper hpattern) (falls_facing made _) hnot
      obtain ⟨subject, hread, rfl⟩ := exists_subject (hwell rfl) hsymbols
      obtain ⟨matcher, hused, rfl, result, hfinds, hanswer⟩ := hanswers subject fun _ => hread
      obtain ⟨hstrategy, hfolded⟩ := hused.folded_strategy
      have hreports := @findBackKmpCaseInsensitive_eq_scanList toUpper matcher
        (hfolded ▸ folded_ne_nil toUpper hpattern) hread
        (by rw [hfolded, hused.folded_table]; exact falls_facing made _)
      unfold findBack at hanswer
      rw [hstrategy] at hanswer
      have hsame := answerAt_injective (Utf8.boundary_strictMono _).injective
        (hreports.symm.trans hanswer)
      rw [hfolded, hused.folded_table] at hsame
      exact hfails (hsame ▸ hfinds)
  | false =>
      obtain ⟨hlong, hsteers⟩ := not_or.mp hnot
      obtain ⟨subject, -, hfails⟩ :=
        Kmp.exists_text_not_last hpattern (falls_facing made _) hsteers
      obtain ⟨matcher, hused, rfl, result, hfinds, hanswer⟩ := hanswers subject nofun
      have hstrategy := hused.kmp_strategy hlong
      have hreports := @findBackKmp_eq_scanList matcher (hused.pattern_eq ▸ hpattern)
        (by rw [hused.pattern_eq, hused.byte_table hstrategy]; exact falls_facing made _)
      unfold findBack at hanswer
      rw [hstrategy] at hanswer
      have hsame := answerAt_injective Function.injective_id (hreports.symm.trans hanswer)
      rw [hused.pattern_eq, hused.byte_table hstrategy] at hsame
      exact hfails (hsame ▸ hfinds)

theorem firstDirection_reset (before : List SearchCall) (search : List UInt8) :
    firstDirection (before ++ [.reset search]) = firstDirection before := by
  rw [firstDirection, List.findSome?_append]
  exact Option.or_none

theorem currentSubject_reset (before : List SearchCall) (search : List UInt8) :
    currentSubject (before ++ [.reset search]) = search := by
  rw [currentSubject, List.foldl_append]
  rfl

/-- After any calls, a search answers right for every subject it may be given next if and
only if it is ready. -/
theorem callAnswers_iff_ready (hpattern : pattern ≠ [])
    (hwell : caseInsensitive = true → WellFormed pattern) {before : List SearchCall}
    {call : SearchCall} :
    (∀ search, (caseInsensitive = true → WellFormed search) →
      CallAnswers toUpper pattern overlap caseInsensitive (before ++ [.reset search]) call) ↔
      Ready toUpper pattern caseInsensitive before call := by
  constructor
  · intro hanswers made hmade
    have hused : ∀ search direction, UsedFor toUpper pattern overlap caseInsensitive (some made)
        ((afterCalls toUpper pattern overlap caseInsensitive
          (before ++ [.reset search])).prepared direction) := by
      intro search direction
      have hprepared := (@usedFor_afterCalls toUpper pattern overlap caseInsensitive
        (before ++ [.reset search])).prepared direction
      rwa [firstDirection_reset, hmade] at hprepared
    have hsubject : ∀ search direction, ((afterCalls toUpper pattern overlap caseInsensitive
        (before ++ [.reset search])).prepared direction).subject = search := by
      intro search direction
      rw [subject_prepared, subject_afterCalls, currentSubject_reset]
    cases call with
    | reset search => trivial
    | findNext => trivial
    | findFirst =>
        apply @serves_of_firstAnswers _ _ overlap _ _ hpattern hwell
        intro subject hread
        refine ⟨_, hused subject .forward, hsubject subject .forward, ?_⟩
        have hanswer := hanswers subject hread
        rwa [CallAnswers, currentSubject_reset, findFirst_eq_findFromPos] at hanswer
    | findLast =>
        apply @serves_of_lastAnswers _ _ overlap _ _ hpattern hwell
        intro subject hread
        refine ⟨_, hused subject .backward, hsubject subject .backward, ?_⟩
        have hanswer := hanswers subject hread
        rwa [CallAnswers, currentSubject_reset, findLast_eq_findBack] at hanswer
  · intro hready search hread
    apply callAnswers_of_ready hpattern
    · rwa [currentSubject_reset]
    · rwa [Ready, firstDirection_reset]

end Exact

end ByteSearchMatcher

end Charr.FixedSearch
