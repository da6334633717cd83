import Charr.FixedSearch.ExactBytes
import Charr.FixedSearch.Split

/-!
# Any history of a matcher

A matcher outlives the subjects it is given: it is used for one call after the
other, some of which fail. None of them leaves anything behind that a later call
could notice.
-/

namespace Charr.FixedSearch

open Occurrence (Greedy)
open Utf8 (CodePoint)

namespace FixedMatcher

open ByteSearchMatcher

variable (toUpper : CodePoint → CodePoint)

/-! ## Histories -/

/-- What a matcher is asked for. -/
inductive Operation where
  | count
  | contains
  | findFirst
  | findAll
  | split (n : Int) (omitEmpty tokensOnly : Bool)
  deriving DecidableEq

/-- One use of a matcher. -/
structure Call where
  operation : Operation
  subject : StringView
  pattern : StringView
  options : FixedSearchOptions
  deriving DecidableEq

/-- The matcher an operation leaves behind; a failed one leaves it as it was. -/
def after {Answer : Type} (self : FixedMatcher) :
    Except NativeError (Answer × FixedMatcher) → FixedMatcher
  | .ok (_, used) => used
  | .error _ => self

/-- The matcher that a call leaves behind. -/
def call (self : FixedMatcher) (use : Call) : FixedMatcher :=
  match use.operation with
  | .count => self.after (self.count toUpper use.subject use.pattern use.options)
  | .contains => self.after (self.contains toUpper use.subject use.pattern use.options)
  | .findFirst => self.after (self.findFirst toUpper use.subject use.pattern use.options)
  | .findAll => self.after (self.findAll toUpper use.subject use.pattern use.options)
  | .split n omitEmpty tokensOnly =>
      self.after (self.split toUpper use.subject use.pattern use.options n omitEmpty tokensOnly)

/-- A new matcher after some uses. -/
def used (history : List Call) : FixedMatcher :=
  history.foldl (call toUpper) {}

variable {toUpper} {self : FixedMatcher} {subject pattern : StringView}
  {options : FixedSearchOptions}

/-- A reset fails, has nothing to search in, or has both a subject and a pattern. -/
theorem resetSubject_cases (self : FixedMatcher) (subject pattern : StringView)
    (options : FixedSearchOptions) :
    (∃ error, self.resetSubject toUpper subject pattern options = .error error) ∨
    self.resetSubject toUpper subject pattern options = .ok (none, self) ∨
    ∃ subjectBytes patternBytes, Present subject subjectBytes ∧ subjectBytes ≠ [] ∧
      Present pattern patternBytes ∧ patternBytes ≠ [] := by
  unfold resetSubject
  split
  next => exact .inl ⟨_, rfl⟩
  next hsubject =>
    split
    next => exact .inr (.inl rfl)
    next hlen =>
      cases hdata : pattern.data with
      | null len => exact .inl ⟨requiresPattern, by simp [prepare, hdata, bind, Except.bind]⟩
      | bytes span =>
          by_cases hreject : pattern.isNa = true ∨ span.bytes.length ≤ 0
          · refine .inl ⟨requiresPattern, ?_⟩
            simp only [prepare, hdata, if_pos hreject, bind, Except.bind]
          · obtain ⟨hpresent, hlength⟩ := not_or.mp hreject
            cases hwhole : subject.data with
            | null len =>
                refine absurd (Or.inr (Or.inr ⟨?_, hlen⟩)) hsubject
                simp [StringView.isNull, hwhole]
            | bytes whole =>
                refine .inr (.inr ⟨whole.bytes, span.bytes, ?_, ?_, ?_, ?_⟩)
                · exact ⟨by simpa using fun h => hsubject (.inl h), whole, hwhole, rfl⟩
                · intro hnil
                  apply hlen
                  simp [StringView.len, hwhole, hnil]
                · exact ⟨by simpa using hpresent, span, hdata, rfl⟩
                · intro hnil
                  simp [hnil] at hlength

/-- Every operation resets the matcher and goes on from there, so only a search
that has both a subject and a pattern changes it. -/
theorem consistent_after {Answer : Type}
    {search : Option ByteSearchMatcher × FixedMatcher →
      Except NativeError (Answer × FixedMatcher)}
    (hself : Consistent toUpper self)
    (hempty : ∃ empty, search (none, self) = .ok (empty, self))
    (hsearch : ∀ subjectBytes patternBytes, Present subject subjectBytes → subjectBytes ≠ [] →
      Present pattern patternBytes → patternBytes ≠ [] →
      ∃ answer self', self.resetSubject toUpper subject pattern options >>= search =
        .ok (answer, self') ∧ Consistent toUpper self') :
    Consistent toUpper
      (self.after (self.resetSubject toUpper subject pattern options >>= search)) := by
  rcases resetSubject_cases self subject pattern options with ⟨error, hreset⟩ | hreset |
    ⟨subjectBytes, patternBytes, hsubject, hnonempty, hpattern, hne⟩
  · rw [hreset]
    exact hself
  · rw [hreset]
    change Consistent toUpper (self.after (search (none, self)))
    obtain ⟨empty, heq⟩ := hempty
    rw [heq]
    exact hself
  · obtain ⟨answer, self', heq, hkept⟩ :=
      hsearch subjectBytes patternBytes hsubject hnonempty hpattern hne
    rw [heq]
    exact hkept

theorem consistent_splitByMatcher (hself : Consistent toUpper self) (n : Int)
    (omitEmpty tokensOnly : Bool) :
    Consistent toUpper (self.after
      (self.splitByMatcher toUpper subject pattern options n omitEmpty tokensOnly)) := by
  unfold splitByMatcher
  split
  next => exact hself
  next =>
    split
    next => exact hself
    next =>
      refine consistent_after hself ⟨_, rfl⟩ ?_
      intro subjectBytes patternBytes hsubject hnonempty hpattern hne
      obtain ⟨matcher, self', hreset, hbuilt, hspan, hoptions⟩ :=
        resetSubject_eq options hself hsubject hnonempty hpattern hne
      obtain ⟨ranges, hmatches⟩ := exists_matches options hne subjectBytes
      obtain ⟨last, hloop, hkept⟩ := splitLoop_eq omitEmpty (searchLimit n tokensOnly)
        (hbuilt.reset subjectBytes) (reports_reset hbuilt hmatches)
        (show ranges.length < (matcher.reset subjectBytes).searchLength + 1 from
          Nat.lt_succ_of_le hmatches.2) .initial
      rw [hreset]
      simp only [bind, Except.bind, hloop]
      exact ⟨_, self'.keep last, rfl, consistent_keep hspan hoptions hkept⟩

/-- Splitting leaves a consistent matcher, by whichever way it goes. -/
theorem consistent_split (hself : Consistent toUpper self) (n : Int)
    (omitEmpty tokensOnly : Bool) :
    Consistent toUpper
      (self.after (self.split toUpper subject pattern options n omitEmpty tokensOnly)) := by
  unfold split
  split
  next =>
    -- the inline path does not touch the matcher
    cases splitExactByte subject (pattern.bytes.getD 0 0) n omitEmpty tokensOnly <;> exact hself
  next => exact consistent_splitByMatcher hself n omitEmpty tokensOnly

/-- No use of a matcher breaks it. -/
theorem consistent_call (hself : Consistent toUpper self) (use : Call) :
    Consistent toUpper (self.call toUpper use) := by
  obtain ⟨operation, subject, pattern, options⟩ := use
  have hmatches : ∀ subjectBytes {patternBytes : List UInt8}, patternBytes ≠ [] →
      ∃ ranges, Matches toUpper options patternBytes subjectBytes ranges :=
    fun subjectBytes _ hne => exists_matches options hne subjectBytes
  cases operation with
  | count =>
      simp only [call]
      unfold count
      refine consistent_after hself ⟨_, rfl⟩ ?_
      intro subjectBytes patternBytes hsubject _ hpattern hne
      obtain ⟨ranges, hranges⟩ := hmatches subjectBytes hne
      exact ⟨_, count_eq hself hsubject hpattern hne hranges⟩
  | contains =>
      simp only [call]
      unfold contains
      refine consistent_after hself ⟨_, rfl⟩ ?_
      intro subjectBytes patternBytes hsubject _ hpattern hne
      obtain ⟨ranges, hranges⟩ := hmatches subjectBytes hne
      exact ⟨_, contains_eq hself hsubject hpattern hne hranges⟩
  | findFirst =>
      simp only [call]
      unfold findFirst
      refine consistent_after hself ⟨_, rfl⟩ ?_
      intro subjectBytes patternBytes hsubject _ hpattern hne
      obtain ⟨ranges, hranges⟩ := hmatches subjectBytes hne
      exact ⟨_, findFirst_eq hself hsubject hpattern hne hranges⟩
  | findAll =>
      simp only [call]
      unfold findAll
      refine consistent_after hself ⟨_, rfl⟩ ?_
      intro subjectBytes patternBytes hsubject _ hpattern hne
      obtain ⟨ranges, hranges⟩ := hmatches subjectBytes hne
      exact ⟨_, findAll_eq hself hsubject hpattern hne hranges⟩
  | split n omitEmpty tokensOnly => exact consistent_split hself n omitEmpty tokensOnly

/-- Calls one after another leave a consistent matcher. -/
theorem consistent_foldl (history : List Call) (hself : Consistent toUpper self) :
    Consistent toUpper (history.foldl (call toUpper) self) := by
  induction history generalizing self with
  | nil => exact hself
  | cons use rest ih => exact ih (consistent_call hself use)

/-- A matcher is consistent after any history. -/
theorem consistent_used (toUpper : CodePoint → CodePoint) (history : List Call) :
    Consistent toUpper (used toUpper history) :=
  consistent_foldl history (consistent_default toUpper)

/-! ## One answer for every history -/

/-- What an operation returns, without the matcher. -/
def answer {Answer : Type} (result : Except NativeError (Answer × FixedMatcher)) :
    Except NativeError Answer :=
  result.map Prod.fst

theorem answer_eq {Answer : Type} {result : Except NativeError (Answer × FixedMatcher)}
    {value : Answer}
    (hresult : ∃ self', result = .ok (value, self') ∧ Consistent toUpper self') :
    answer result = .ok value := by
  obtain ⟨self', rfl, -⟩ := hresult
  rfl

/-- Whatever a matcher was used for, all searches report the leftmost occurrences
of the pattern without overlap, and so do the direct byte searches. -/
theorem searches_report_leftmost (toUpper : CodePoint → CodePoint) (history : List Call)
    {subject pattern : StringView} {subjectBytes patternBytes : List UInt8}
    (hsubject : Present subject subjectBytes) (hpattern : Present pattern patternBytes)
    (hne : patternBytes ≠ []) :
    ∃ positions, Greedy patternBytes subjectBytes 0 positions ∧
      let self := used toUpper history
      let ranges : List ByteRange :=
        positions.map fun position : Nat => ⟨position, position + patternBytes.length⟩
      answer (self.findAll toUpper subject pattern ⟨false, false⟩) = .ok ranges ∧
      answer (self.count toUpper subject pattern ⟨false, false⟩) = .ok ranges.length ∧
      answer (self.findFirst toUpper subject pattern ⟨false, false⟩) = .ok ranges.head? ∧
      answer (self.contains toUpper subject pattern ⟨false, false⟩) = .ok (!ranges.isEmpty) ∧
      countExactBytes subjectBytes patternBytes = ranges.length ∧
      findFirstExactBytes subjectBytes patternBytes = positionOrNotFound positions.head? := by
  have hself := consistent_used toUpper history
  have hlength := List.length_pos_of_ne_nil hne
  obtain ⟨positions, hgreedy⟩ := Occurrence.exists_sweep hne subjectBytes
    (show ∀ position, position < position + patternBytes.length by intro; omega) 0
  have hmatches : Matches toUpper ⟨false, false⟩ patternBytes subjectBytes _ :=
    matches_of_greedy hne hgreedy
  refine ⟨positions, hgreedy, ?_, ?_, ?_, ?_, ?_, ?_⟩
  · rw [answer_eq (findAll_eq hself hsubject hpattern hne hmatches), List.map_map]
    rfl
  · rw [answer_eq (count_eq hself hsubject hpattern hne hmatches), List.length_map,
      List.length_map]
  · rw [answer_eq (findFirst_eq hself hsubject hpattern hne hmatches), List.head?_map,
      List.head?_map, Option.map_map]
    rfl
  · rw [answer_eq (contains_eq hself hsubject hpattern hne hmatches), List.isEmpty_map,
      List.isEmpty_map]
  · rw [countExactBytes_eq hne hgreedy, List.length_map]
  · obtain ⟨result, heq, hfinds⟩ := findFirstExactBytes_spec subjectBytes hne
    rw [heq, hgreedy.head_eq hfinds]

/-- A matcher that has searched another subject finds "ab" in "abcab" twice. -/
theorem searches_report_two :
    let pattern : StringView := ⟨.bytes ⟨100, [97, 98], by decide⟩, .ascii⟩
    let earlier : StringView := ⟨.bytes ⟨200, [99, 97, 98], by decide⟩, .ascii⟩
    let subject : StringView := ⟨.bytes ⟨300, [97, 98, 99, 97, 98], by decide⟩, .ascii⟩
    let self := used id [⟨.findFirst, earlier, pattern, ⟨false, false⟩⟩]
    ∃ positions, Greedy pattern.bytes subject.bytes 0 positions ∧
      answer (self.findAll id subject pattern ⟨false, false⟩) =
        .ok (positions.map fun position : Nat => ⟨position, position + 2⟩) ∧
      answer (self.count id subject pattern ⟨false, false⟩) = .ok 2 ∧ positions.length = 2 := by
  intro pattern earlier subject self
  have hpattern : Present pattern [97, 98] := ⟨rfl, _, rfl, rfl⟩
  have hsubject : Present subject [97, 98, 99, 97, 98] := ⟨rfl, _, rfl, rfl⟩
  obtain ⟨positions, hgreedy, hall, hcount, -, -, hdirect, -⟩ := searches_report_leftmost id
    [⟨.findFirst, earlier, pattern, ⟨false, false⟩⟩] hsubject hpattern (by decide)
  have hlength : positions.length = 2 := by
    rw [List.length_map] at hdirect
    exact hdirect.symm
  refine ⟨positions, hgreedy, hall, ?_, hlength⟩
  rw [List.length_map, hlength] at hcount
  exact hcount

end FixedMatcher

end Charr.FixedSearch
