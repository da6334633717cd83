import Charr.FixedSearch.Matching
import Mathlib.Order.WellFounded

/-!
# The fixed matcher

The reusable search state of the fixed operations. It keeps the byte matcher of
the last pattern and builds a new one only when the pattern's bytes, its length
or the options change. Whatever it has been used for before, it reports the same
matches.
-/

namespace Charr.FixedSearch

open Occurrence (At Greedy Sweep)
open Utf8 (CodePoint)

/-- Whether case counts, and whether matches may overlap. -/
structure FixedSearchOptions where
  caseInsensitive : Bool
  overlap : Bool
  deriving DecidableEq, Repr

/-- The matcher with the pattern and the options it was built for. -/
structure FixedMatcher where
  matcher : Option ByteSearchMatcher := none
  pattern : Option Span := none
  options : FixedSearchOptions := ⟨false, false⟩
  deriving DecidableEq

namespace FixedMatcher

section Operations

variable (toUpper : CodePoint → CodePoint)

/-- The error of a pattern that is missing or empty. -/
def requiresPattern : NativeError := .invalidArgument "fixed matcher requires a pattern"

/-- The error of a subject that is missing. -/
def requiresSubject : NativeError := .invalidArgument "fixed matcher requires a subject"

/-- The byte matcher for a pattern, kept or built anew. -/
def prepare (self : FixedMatcher) (pattern : StringView) (options : FixedSearchOptions) :
    Except NativeError (ByteSearchMatcher × FixedMatcher) :=
  match pattern.data with
  | .null _ => .error requiresPattern
  | .bytes span =>
      if pattern.isNa ∨ span.bytes.length ≤ 0 then .error requiresPattern
      else
        let build :=
          let matcher := ByteSearchMatcher.create toUpper span.bytes options.overlap
            options.caseInsensitive
          (matcher, { matcher := some matcher, pattern := some span, options })
        match self.matcher with
        | none => .ok build
        | some matcher =>
            if self.pattern = some span ∧ options = self.options then .ok (matcher, self)
            else .ok build

/-- The byte matcher reset to the subject, or nothing for an empty subject. -/
def resetSubject (self : FixedMatcher) (subject pattern : StringView)
    (options : FixedSearchOptions) :
    Except NativeError (Option ByteSearchMatcher × FixedMatcher) :=
  if subject.isNa ∨ subject.len < 0 ∨ (subject.isNull ∧ subject.len ≠ 0) then
    .error requiresSubject
  else if subject.len = 0 then .ok (none, self)
  else do
    let (matcher, self) ← self.prepare toUpper pattern options
    return (some (matcher.reset subject.bytes), self)

/-- Keep the byte matcher as a search left it. -/
def keep (self : FixedMatcher) (matcher : ByteSearchMatcher) : FixedMatcher :=
  { self with matcher := some matcher }

/-- Count the matches that are left. -/
def countLoop : Nat → ByteSearchMatcher → Nat → Nat × ByteSearchMatcher
  | 0, matcher, found => (found, matcher)
  | fuel + 1, matcher, found =>
      let (start, matcher) := matcher.findNext toUpper
      if start = notFound then (found, matcher) else countLoop fuel matcher (found + 1)

/-- How often the pattern occurs. -/
def count (self : FixedMatcher) (subject pattern : StringView) (options : FixedSearchOptions) :
    Except NativeError (Nat × FixedMatcher) := do
  match ← self.resetSubject toUpper subject pattern options with
  | (none, self) => return (0, self)
  | (some matcher, self) =>
      let (found, matcher) := countLoop toUpper (matcher.searchLength + 1) matcher 0
      return (found, self.keep matcher)

/-- Whether the pattern occurs. -/
def contains (self : FixedMatcher) (subject pattern : StringView)
    (options : FixedSearchOptions) : Except NativeError (Bool × FixedMatcher) := do
  match ← self.resetSubject toUpper subject pattern options with
  | (none, self) => return (false, self)
  | (some matcher, self) =>
      let (start, matcher) := matcher.findFirst toUpper
      return (start ≠ notFound, self.keep matcher)

/-- The first match. -/
def findFirst (self : FixedMatcher) (subject pattern : StringView)
    (options : FixedSearchOptions) : Except NativeError (Option ByteRange × FixedMatcher) := do
  match ← self.resetSubject toUpper subject pattern options with
  | (none, self) => return (none, self)
  | (some matcher, self) =>
      let (start, matcher) := matcher.findFirst toUpper
      if start = notFound then return (none, self.keep matcher)
      else
        let length ← matcher.matchedLength
        return (some ⟨start, start + length⟩, self.keep matcher)

/-- The match at `start` and those behind it. -/
def findAllLoop : Nat → Int → ByteSearchMatcher → List ByteRange →
    Except NativeError (List ByteRange × ByteSearchMatcher)
  | 0, _, matcher, output => .ok (output, matcher)
  | fuel + 1, start, matcher, output =>
      if start = notFound then .ok (output, matcher)
      else do
        let length ← matcher.matchedLength
        let (next, matcher) := matcher.findNext toUpper
        findAllLoop fuel next matcher (output ++ [⟨start, start + length⟩])

/-- All matches in their order. -/
def findAll (self : FixedMatcher) (subject pattern : StringView)
    (options : FixedSearchOptions) : Except NativeError (List ByteRange × FixedMatcher) := do
  match ← self.resetSubject toUpper subject pattern options with
  | (none, self) => return ([], self)
  | (some matcher, self) =>
      let (start, matcher) := matcher.findFirst toUpper
      let (output, matcher) ← findAllLoop toUpper (matcher.searchLength + 2) start matcher []
      return (output, self.keep matcher)

end Operations

/-! ## The reported matches -/

section Reports

open ByteSearchMatcher

variable {toUpper : CodePoint → CodePoint}

/-- A match as a byte range. -/
def toRange (found : Nat × Nat) : ByteRange := ⟨found.1, found.2⟩

theorem natCast_ne_notFound (start : Nat) : (start : Int) ≠ notFound := by
  unfold notFound
  omega

/-- The loop counts the matches that are reported. -/
theorem countLoop_eq {matcher last : ByteSearchMatcher} {ranges : List (Nat × Nat)}
    (hreports : Reports toUpper matcher ranges last) {fuel : Nat} (hfuel : ranges.length < fuel)
    (found : Nat) :
    countLoop toUpper fuel matcher found = (found + ranges.length, last) := by
  induction hreports generalizing fuel found with
  | done hnext =>
      obtain ⟨fuel, rfl⟩ : ∃ less, fuel = less + 1 := ⟨fuel - 1, by omega⟩
      simp [countLoop, hnext]
  | @found _ _ _ start _ rest hnext _ _ ih =>
      rw [List.length_cons] at hfuel ⊢
      obtain ⟨fuel, rfl⟩ : ∃ less, fuel = less + 1 := ⟨fuel - 1, by omega⟩
      simp only [countLoop, hnext, natCast_ne_notFound, if_false]
      rw [ih (by omega)]
      congr 1
      omega

/-- The loop collects the matches that are reported. -/
theorem findAllLoop_eq {matcher last : ByteSearchMatcher} {ranges : List (Nat × Nat)}
    (hreports : Reports toUpper matcher ranges last) {fuel : Nat} (hfuel : ranges.length < fuel)
    (output : List ByteRange) :
    findAllLoop toUpper fuel (matcher.findNext toUpper).1 (matcher.findNext toUpper).2 output =
      .ok (output ++ ranges.map toRange, last) := by
  induction hreports generalizing fuel output with
  | done hnext =>
      obtain ⟨fuel, rfl⟩ : ∃ less, fuel = less + 1 := ⟨fuel - 1, by omega⟩
      simp [findAllLoop, hnext]
  | @found _ next _ start stop rest hnext hlength _ ih =>
      rw [List.length_cons] at hfuel
      obtain ⟨fuel, rfl⟩ : ∃ less, fuel = less + 1 := ⟨fuel - 1, by omega⟩
      have hrange : (start : Int) + (stop - start) = stop := by omega
      simp only [findAllLoop, hnext, natCast_ne_notFound, if_false, hlength]
      change findAllLoop toUpper fuel (next.findNext toUpper).1 (next.findNext toUpper).2 _ = _
      rw [ih (by omega), hrange, List.map_cons, List.append_assoc]
      rfl

end Reports

/-! ## Consistent matchers -/

section Consistent

open ByteSearchMatcher

variable (toUpper : CodePoint → CodePoint)

/-- The byte matcher was built for the pattern and the options kept beside it. -/
def Consistent (self : FixedMatcher) : Prop :=
  ∀ matcher, self.matcher = some matcher → ∃ span, self.pattern = some span ∧
    BuiltFor toUpper span.bytes self.options.overlap self.options.caseInsensitive matcher

/-- A new matcher has nothing to be consistent with. -/
theorem consistent_default : Consistent toUpper {} := by
  intro matcher hmatcher
  exact absurd hmatcher (by simp)

/-- A view with bytes to search in or to search for. -/
structure Present (view : StringView) (bytes : List UInt8) : Prop where
  not_na : view.isNa = false
  data_eq : ∃ span, view.data = .bytes span ∧ span.bytes = bytes

variable {toUpper} {self : FixedMatcher} {subject pattern : StringView}
  {subjectBytes patternBytes : List UInt8} {options : FixedSearchOptions}

theorem Present.len_eq (hpresent : Present subject subjectBytes) :
    subject.len = subjectBytes.length := by
  obtain ⟨span, hdata, rfl⟩ := hpresent.data_eq
  simp [StringView.len, hdata]

theorem Present.bytes_eq (hpresent : Present subject subjectBytes) :
    subject.bytes = subjectBytes := by
  obtain ⟨span, hdata, rfl⟩ := hpresent.data_eq
  simp [StringView.bytes, hdata]

theorem Present.not_null (hpresent : Present subject subjectBytes) : subject.isNull = false := by
  obtain ⟨span, hdata, -⟩ := hpresent.data_eq
  simp [StringView.isNull, hdata]

theorem Present.length_le (hpresent : Present subject subjectBytes) :
    subjectBytes.length ≤ intMax := by
  obtain ⟨span, -, rfl⟩ := hpresent.data_eq
  exact span.length_le

/-- After preparing, the matcher is built for the pattern, whatever it was built for before. -/
theorem prepare_eq (hself : Consistent toUpper self) (hpattern : Present pattern patternBytes)
    (hne : patternBytes ≠ []) :
    ∃ matcher self', self.prepare toUpper pattern options = .ok (matcher, self') ∧
      BuiltFor toUpper patternBytes options.overlap options.caseInsensitive matcher ∧
      (∃ span, self'.pattern = some span ∧ span.bytes = patternBytes) ∧
      self'.options = options := by
  obtain ⟨span, hdata, rfl⟩ := hpattern.data_eq
  have hlength := List.length_pos_of_ne_nil hne
  have hreject : ¬ (pattern.isNa = true ∨ span.bytes.length ≤ 0) := by
    rw [hpattern.not_na]
    simp only [Bool.false_eq_true, false_or]
    omega
  unfold prepare
  simp only [hdata, hreject, if_false]
  cases hmatcher : self.matcher with
  | none => exact ⟨_, _, rfl, builtFor_create, ⟨span, rfl, rfl⟩, rfl⟩
  | some matcher =>
      simp only
      split
      next hkept =>
        obtain ⟨kept, hpatterns, hbuilt⟩ := hself matcher hmatcher
        obtain rfl : kept = span := Option.some.inj (hpatterns.symm.trans hkept.1)
        rw [← hkept.2] at hbuilt
        exact ⟨matcher, self, rfl, hbuilt, ⟨kept, hpatterns, rfl⟩, hkept.2.symm⟩
      next => exact ⟨_, _, rfl, builtFor_create, ⟨span, rfl, rfl⟩, rfl⟩

theorem resetSubject_of_empty (hsubject : Present subject []) :
    self.resetSubject toUpper subject pattern options = .ok (none, self) := by
  have hlen := hsubject.len_eq
  unfold resetSubject
  rw [hlen, hsubject.not_na, hsubject.not_null]
  simp

/-- After the reset, the matcher is built for the pattern and stands at the start of the subject. -/
theorem resetSubject_eq (options : FixedSearchOptions) (hself : Consistent toUpper self)
    (hsubject : Present subject subjectBytes) (hnonempty : subjectBytes ≠ [])
    (hpattern : Present pattern patternBytes) (hne : patternBytes ≠ []) :
    ∃ matcher self', self.resetSubject toUpper subject pattern options =
        .ok (some (matcher.reset subjectBytes), self') ∧
      BuiltFor toUpper patternBytes options.overlap options.caseInsensitive matcher ∧
      (∃ span, self'.pattern = some span ∧ span.bytes = patternBytes) ∧
      self'.options = options := by
  obtain ⟨matcher, self', hprepare, hrest⟩ :
      ∃ matcher self', self.prepare toUpper pattern options = .ok (matcher, self') ∧ _ :=
    prepare_eq hself hpattern hne
  refine ⟨matcher, self', ?_, hrest⟩
  have hlength := List.length_pos_of_ne_nil hnonempty
  unfold resetSubject
  rw [hsubject.len_eq, hsubject.not_na, hsubject.not_null, hprepare, hsubject.bytes_eq]
  rw [if_neg (by simp), if_neg (by omega)]
  rfl

/-- A matcher built for a pattern can be kept with it. -/
theorem consistent_keep {self' : FixedMatcher} {matcher : ByteSearchMatcher}
    (hspan : ∃ span, self'.pattern = some span ∧ span.bytes = patternBytes)
    (hoptions : self'.options = options)
    (hbuilt : BuiltFor toUpper patternBytes options.overlap options.caseInsensitive matcher) :
    Consistent toUpper (self'.keep matcher) := by
  intro kept hkept
  obtain ⟨span, hpattern, rfl⟩ := hspan
  obtain rfl := Option.some.inj hkept
  refine ⟨span, hpattern, ?_⟩
  rw [← hoptions] at hbuilt
  exact hbuilt

/-! ## What the operations report -/

/-- The matches of a pattern in a subject: what a search with a new matcher
reports. -/
def Matches (toUpper : CodePoint → CodePoint) (options : FixedSearchOptions)
    (pattern subject : List UInt8) (ranges : List (Nat × Nat)) : Prop :=
  let matcher := canonical toUpper pattern options.overlap options.caseInsensitive subject
  Reports toUpper matcher ranges matcher.exhausted.2 ∧ ranges.length ≤ subject.length

theorem findNext_canonical :
    (canonical toUpper patternBytes options.overlap options.caseInsensitive
        subjectBytes).findNext toUpper =
      (canonical toUpper patternBytes options.overlap options.caseInsensitive
        subjectBytes).findFromPos toUpper 0 := by
  have hfresh : (canonical toUpper patternBytes options.overlap options.caseInsensitive
      subjectBytes).searchPos < 0 := show (-1 : Int) < 0 by decide
  rw [findNext, if_pos hfresh, findFirst_eq (Or.inr rfl)]
  rfl

/-- The matches of either kind of search come from a sweep over its symbols. -/
theorem matches_of_reads {Symbol : Type} {needle text : List Symbol} {place follow : Nat → Nat}
    (hreads : Reads toUpper
      (canonical toUpper patternBytes options.overlap options.caseInsensitive subjectBytes)
      needle text place follow)
    {positions : List Nat} (hsweep : Sweep needle text follow 0 positions) :
    Matches toUpper options patternBytes subjectBytes
      (positions.map fun position => (place position, place (position + needle.length))) := by
  constructor
  · apply hreads.reports hsweep
    rw [hreads.place_zero]
    exact findNext_canonical
  · have hcount := hsweep.length_le hreads.needle_ne hreads.lt_follow
    have hplace : text.length ≤ place text.length := hreads.place_mono.le_apply
    rw [hreads.place_length] at hplace
    rw [List.length_map]
    exact (hcount.trans (Nat.sub_le _ _)).trans hplace

/-- Every subject has its list of matches. -/
theorem exists_matches (options : FixedSearchOptions) (hne : patternBytes ≠ [])
    (subjectBytes : List UInt8) :
    ∃ ranges, Matches toUpper options patternBytes subjectBytes ranges := by
  obtain ⟨caseInsensitive, overlap⟩ := options
  cases caseInsensitive with
  | false =>
      have hreads : Reads toUpper (canonical toUpper patternBytes overlap false subjectBytes)
        _ _ _ _ := reads_bytes hne
      obtain ⟨positions, hsweep⟩ := Occurrence.exists_sweep hne subjectBytes hreads.lt_follow 0
      exact ⟨_, matches_of_reads hreads hsweep⟩
  | true =>
      have hreads : Reads toUpper (canonical toUpper patternBytes overlap true subjectBytes)
        _ _ _ _ := reads_folded hne
      obtain ⟨positions, hsweep⟩ := Occurrence.exists_sweep hreads.needle_ne
        (folded toUpper subjectBytes) hreads.lt_follow 0
      exact ⟨_, matches_of_reads hreads hsweep⟩

/-- A case-sensitive search without overlap reports the leftmost occurrences. -/
theorem matches_of_greedy (hne : patternBytes ≠ []) {positions : List Nat}
    (hgreedy : Greedy patternBytes subjectBytes 0 positions) :
    Matches toUpper ⟨false, false⟩ patternBytes subjectBytes
      (positions.map fun position => (position, position + patternBytes.length)) :=
  matches_of_reads (reads_bytes hne) hgreedy

/-- A matcher reports one list of matches. -/
theorem reports_unique {matcher left right : ByteSearchMatcher} {first second : List (Nat × Nat)}
    (hfirst : Reports toUpper matcher first left)
    (hsecond : Reports toUpper matcher second right) : first = second := by
  induction hfirst generalizing second with
  | done hnext =>
      cases hsecond with
      | done _ => rfl
      | found hother _ _ =>
          rw [hnext] at hother
          exact absurd (Prod.mk.inj hother).1.symm (natCast_ne_notFound _)
  | found hnext hlength _ ih =>
      cases hsecond with
      | done hother =>
          rw [hnext] at hother
          exact absurd (Prod.mk.inj hother).1 (natCast_ne_notFound _)
      | found hother hlength' hrest =>
          rw [hnext] at hother
          obtain ⟨hstart, rfl⟩ := Prod.mk.inj hother
          rw [hlength] at hlength'
          have hstop := Except.ok.inj hlength'
          rw [ih hrest]
          congr 2 <;> omega

/-- A subject has one list of matches. -/
theorem Matches.unique {first second : List (Nat × Nat)}
    (hfirst : Matches toUpper options patternBytes subjectBytes first)
    (hsecond : Matches toUpper options patternBytes subjectBytes second) : first = second :=
  reports_unique hfirst.1 hsecond.1

theorem matches_nil_of_empty {ranges : List (Nat × Nat)}
    (hmatches : Matches toUpper options patternBytes [] ranges) : ranges = [] := by
  have := hmatches.2
  exact List.length_eq_zero_iff.mp (Nat.le_zero.mp this)

/-- A built matcher that has been reset reports the matches. -/
theorem reports_reset {matcher : ByteSearchMatcher} {ranges : List (Nat × Nat)}
    (hbuilt : BuiltFor toUpper patternBytes options.overlap options.caseInsensitive matcher)
    (hmatches : Matches toUpper options patternBytes subjectBytes ranges) :
    Reports toUpper (matcher.reset subjectBytes) ranges
      (canonical toUpper patternBytes options.overlap options.caseInsensitive
        subjectBytes).exhausted.2 := by
  have hsame : (matcher.reset subjectBytes).findNext toUpper = _ := hbuilt.findNext_reset
  rw [← findNext_canonical] at hsame
  obtain ⟨hreports, -⟩ := hmatches
  cases hreports with
  | done hnext => exact .done (hsame.trans hnext)
  | found hnext hlength hrest => exact .found (hsame.trans hnext) hlength hrest

section Answers

variable {ranges : List (Nat × Nat)} (hself : Consistent toUpper self)
  (hsubject : Present subject subjectBytes) (hpattern : Present pattern patternBytes)
  (hne : patternBytes ≠ [])
  (hmatches : Matches toUpper options patternBytes subjectBytes ranges)
include hself hsubject hpattern hne hmatches

/-- An empty subject is not searched; another one is searched by a matcher that was built
for the pattern. -/
theorem resetSubject_built :
    (ranges = [] ∧ self.resetSubject toUpper subject pattern options = .ok (none, self)) ∨
      ∃ matcher self', self.resetSubject toUpper subject pattern options =
          .ok (some (matcher.reset subjectBytes), self') ∧
        BuiltFor toUpper patternBytes options.overlap options.caseInsensitive matcher ∧
        ∀ after, (canonical toUpper patternBytes options.overlap options.caseInsensitive
          subjectBytes).Keeps after → Consistent toUpper (self'.keep after) := by
  by_cases hempty : subjectBytes = []
  · subst hempty
    exact .inl ⟨matches_nil_of_empty hmatches, resetSubject_of_empty hsubject⟩
  · obtain ⟨matcher, self', hreset, hbuilt, hspan, hoptions⟩ :=
      resetSubject_eq options hself hsubject hempty hpattern hne
    exact .inr ⟨matcher, self', hreset, hbuilt, fun after hkeeps =>
      consistent_keep hspan hoptions (builtFor_canonical.of_keeps hkeeps)⟩

/-- The count is the number of matches, and the matcher can be used on. -/
theorem count_eq :
    ∃ self', self.count toUpper subject pattern options = .ok (ranges.length, self') ∧
      Consistent toUpper self' := by
  rcases resetSubject_built hself hsubject hpattern hne hmatches with
    ⟨rfl, hreset⟩ | ⟨matcher, self', hreset, hbuilt, hkeep⟩
  · refine ⟨self, ?_, hself⟩
    unfold count
    rw [hreset]
    rfl
  · have hreports := reports_reset hbuilt hmatches
    have hfuel : ranges.length < (matcher.reset subjectBytes).searchLength + 1 :=
      Nat.lt_succ_of_le hmatches.2
    refine ⟨self'.keep (canonical toUpper patternBytes options.overlap options.caseInsensitive
      subjectBytes).exhausted.2, ?_, hkeep _ keeps_exhausted⟩
    unfold count
    rw [hreset]
    simp only [bind, Except.bind, countLoop_eq hreports hfuel, Nat.zero_add]
    rfl

/-- A subject contains the pattern if it has a match. -/
theorem contains_eq :
    ∃ self', self.contains toUpper subject pattern options = .ok (!ranges.isEmpty, self') ∧
      Consistent toUpper self' := by
  rcases resetSubject_built hself hsubject hpattern hne hmatches with
    ⟨rfl, hreset⟩ | ⟨matcher, self', hreset, hbuilt, hkeep⟩
  · refine ⟨self, ?_, hself⟩
    unfold contains
    rw [hreset]
    rfl
  · refine ⟨self'.keep ((canonical toUpper patternBytes options.overlap options.caseInsensitive
      subjectBytes).findFromPos toUpper 0).2, ?_, hkeep _ (keeps_findFromPos toUpper _ 0)⟩
    unfold contains
    rw [hreset]
    simp only [bind, Except.bind, hbuilt.findFirst_reset, ← findNext_canonical]
    cases hmatches.1 with
    | done hnext => simp [hnext, pure, Except.pure]
    | found hnext _ _ => simp [hnext, natCast_ne_notFound, pure, Except.pure]

/-- The first match is the head of the list. -/
theorem findFirst_eq :
    ∃ self', self.findFirst toUpper subject pattern options =
        .ok (ranges.head?.map toRange, self') ∧
      Consistent toUpper self' := by
  rcases resetSubject_built hself hsubject hpattern hne hmatches with
    ⟨rfl, hreset⟩ | ⟨matcher, self', hreset, hbuilt, hkeep⟩
  · refine ⟨self, ?_, hself⟩
    unfold findFirst
    rw [hreset]
    rfl
  · refine ⟨self'.keep ((canonical toUpper patternBytes options.overlap options.caseInsensitive
      subjectBytes).findFromPos toUpper 0).2, ?_, hkeep _ (keeps_findFromPos toUpper _ 0)⟩
    unfold findFirst
    rw [hreset]
    simp only [bind, Except.bind, hbuilt.findFirst_reset, ← findNext_canonical]
    cases hmatches.1 with
    | done hnext => simp [hnext, pure, Except.pure]
    | @found _ _ _ start stop _ hnext hlength _ =>
        have hrange : (start : Int) + (stop - start) = stop := by omega
        simp [hnext, natCast_ne_notFound, hlength, toRange, pure, Except.pure, hrange]

/-- All matches are the list. -/
theorem findAll_eq :
    ∃ self', self.findAll toUpper subject pattern options = .ok (ranges.map toRange, self') ∧
      Consistent toUpper self' := by
  rcases resetSubject_built hself hsubject hpattern hne hmatches with
    ⟨rfl, hreset⟩ | ⟨matcher, self', hreset, hbuilt, hkeep⟩
  · refine ⟨self, ?_, hself⟩
    unfold findAll
    rw [hreset]
    rfl
  · have hlength : ∀ start, ((canonical toUpper patternBytes options.overlap
        options.caseInsensitive subjectBytes).findFromPos toUpper start).2.searchLength =
          subjectBytes.length := by
      intro start
      obtain ⟨pos, stop, heq⟩ := keeps_findFromPos toUpper
        (canonical toUpper patternBytes options.overlap options.caseInsensitive subjectBytes) start
      rw [heq]
      rfl
    refine ⟨self'.keep (canonical toUpper patternBytes options.overlap options.caseInsensitive
      subjectBytes).exhausted.2, ?_, hkeep _ keeps_exhausted⟩
    unfold findAll
    rw [hreset]
    simp only [bind, Except.bind, hbuilt.findFirst_reset, hlength]
    rw [← findNext_canonical, findAllLoop_eq hmatches.1 (by have := hmatches.2; omega)]
    rfl

end Answers

end Consistent

end FixedMatcher

end Charr.FixedSearch
