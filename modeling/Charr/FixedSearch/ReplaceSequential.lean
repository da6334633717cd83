import Charr.FixedSearch.FixedMatcher
import Charr.FixedSearch.Replacement
import Charr.Library.Earliest
import Charr.Parallel.Chunks
import Charr.Text.Normalize

/-!
# Replacing by a list of fixed patterns

Every subject goes through all patterns in turn, and what one replacement leaves
is what the next works on. On several workers each claimed chunk of the subjects
goes through the whole list by itself, with the matcher its worker has used for
other chunks and with storage of its own.
-/

namespace Charr.FixedSearch

open Parallel
open Utf8 (CodePoint)

/-! ## One subject -/

/-- How many bytes the ranges cover. -/
def matchedByteCount : Nat → List ByteRange → Except NativeError Nat
  | result, [] => .ok result
  | result, range :: rest =>
      let width := toSize (range.stop - range.start)
      if width > sizeMax - result then .error (.lengthError "fixed matched byte count overflow")
      else matchedByteCount (result + width) rest

/-- The subject with its matches replaced, in new storage. An empty result points
where the replacement does. -/
def spliced (subject : StringView) (ranges : List ByteRange) (replacement : StringView)
    (storage : SliceArena) : Except NativeError (StringView × SliceArena) := do
  let matchedBytes ← matchedByteCount 0 ranges
  let size ← checkedReplacementSize subject matchedBytes ranges replacement
  let ascii ← replacementIsAscii subject ranges replacement
  let (destination, storage) :=
    if size.1 > 0 then
      let (address, storage) := storage.allocate size.1
      (some address, storage)
    else (none, storage)
  let written ← writeReplacement subject ranges replacement destination size.1
  let span : Span :=
    ⟨destination.getD replacement.address, written.1, written.2.symm ▸ size.2⟩
  return (⟨.bytes span, if ascii then .ascii else .utf8⟩, storage)

section Loops

variable (toUpper : CodePoint → CodePoint) (options : FixedSearchOptions)

/-- One pattern in the working value of a subject; the result is in storage of the worker. -/
def replaceWorking (pattern replacement subject : StringView) (matcher : FixedMatcher)
    (storage : SliceArena) : Except NativeError (StringView × FixedMatcher × SliceArena) :=
  if subject.isNa ∨ subject.len ≤ 0 then .ok (subject, matcher, storage)
  else do
    let (ranges, matcher) ← matcher.findAll toUpper subject pattern options
    if ranges.isEmpty then return (subject, matcher, storage)
    else if replacement.isNa then return (.na, matcher, storage)
    else
      let (value, storage) ← spliced subject ranges replacement storage
      return (value, matcher, storage)

/-- One pattern over all working strings. -/
def replaceAllWorking (pattern replacement : StringView) :
    List StringView → FixedMatcher → SliceArena →
      Except NativeError (List StringView × FixedMatcher × SliceArena)
  | [], matcher, storage => .ok ([], matcher, storage)
  | subject :: rest, matcher, storage => do
      let (value, matcher, storage) ←
        replaceWorking toUpper options pattern replacement subject matcher storage
      let (values, matcher, storage) ←
        replaceAllWorking pattern replacement rest matcher storage
      return (value :: values, matcher, storage)

/-- What the loop over the patterns leaves. -/
structure Sequenced where
  working : List StringView
  matcher : FixedMatcher
  allMissing : Bool
  warnings : Nat

/-! ## All patterns -/

variable (replacements : List StringView)

/-- The patterns from `patternIndex` on. A missing or an empty pattern makes
everything missing and ends the loop. -/
def replacePatterns : Nat → List StringView → List StringView → FixedMatcher → SliceArena →
    Except NativeError Sequenced
  | _, [], working, matcher, _ => .ok ⟨working, matcher, false, 0⟩
  | patternIndex, pattern :: rest, working, matcher, storage =>
      if pattern.isNa then .ok ⟨working, matcher, true, 0⟩
      else if pattern.len ≤ 0 then .ok ⟨working, matcher, true, 1⟩
      else do
        let replacement := replacements.getD (patternIndex % replacements.length) .na
        let (working, matcher, storage) ←
          replaceAllWorking toUpper options pattern replacement working matcher storage
        replacePatterns (patternIndex + 1) rest working matcher storage

/-! ## Records -/

/-- The record of a view; nothing for a missing one. -/
def outputRecord (value : StringView) : Except NativeError (Option OutputRecord) :=
  if value.enc = .missing ∨ value.enc = .unknown then .ok none
  else if value.len < 0 then
    .error (.invalidArgument "character output has a negative length")
  else if value.isNull ∧ value.len ≠ 0 then
    .error (.invalidArgument "null character output has nonzero length")
  else .ok (some ⟨value.bytes, resolvedEncoding value.bytes value.enc⟩)

/-- The record of a working value once all patterns were applied. -/
def sequencedRecord (allMissing : Bool) (value : StringView) :
    Except NativeError (Option OutputRecord) :=
  if allMissing ∨ value.isNa then .ok none else outputRecord value

/-- One worker: the records and the warnings of empty patterns. -/
def replaceSequential (subjects patterns : List StringView) (matcher : FixedMatcher)
    (storage : SliceArena) : Except NativeError (List (Option OutputRecord) × Nat) := do
  let done ← replacePatterns toUpper options replacements 0 patterns subjects matcher storage
  let records ← done.working.mapM (sequencedRecord done.allMissing)
  return (records, done.warnings)

/-! ## On workers -/

/-- A worker's matcher and its warning slot. -/
structure SequentialWorker where
  matcher : FixedMatcher := {}
  warningSlot : Nat := 0
  deriving DecidableEq

/-- A claimed chunk. Every chunk applies the same patterns, so its slot is
assigned, not summed. -/
def runSequential (subjects patterns : List StringView) (context : WorkerContext)
    (worker : SequentialWorker) :
    ActionResult SequentialWorker (Option OutputRecord) NativeError :=
  match replacePatterns toUpper options replacements 0 patterns (chunkItems subjects context)
      worker.matcher ⟨0⟩ with
  | .error error => { ending := .throws error, state := worker }
  | .ok done => writeItems (sequencedRecord done.allMissing) ⟨done.matcher, done.warnings⟩
      context.begin done.working

/-- The region: all patterns for the subjects of a chunk. -/
def sequentialBody (subjects patterns : List StringView) :
    ParallelBody SequentialWorker (Option OutputRecord) NativeError :=
  chunkwise (fun _ => {}) (runSequential toUpper options replacements subjects patterns)
    NativeError.text

end Loops

/-- The largest slot. -/
def additionalEmptyWarnings (workers : Nat) (slots : Nat → Nat) : Nat :=
  (List.range workers).foldl
    (fun additional worker => if slots worker > additional then slots worker else additional) 0

/-! ## One subject, whatever the matcher and the place -/

section Alone

open FixedMatcher

variable {toUpper : CodePoint → CodePoint} {options : FixedSearchOptions}
  {subject pattern replacement : StringView}

theorem resetSubject_of_null (self : FixedMatcher) (hnull : subject.isNull = true)
    (hna : subject.isNa = false) (hlen : 0 < subject.len) :
    self.resetSubject toUpper subject pattern options = .error requiresSubject := by
  have hpos : subject.len ≠ 0 := ne_of_gt hlen
  simp [resetSubject, hna, hnull, hpos]

theorem resetSubject_of_null_pattern (self : FixedMatcher) (hnull : subject.isNull = false)
    (hna : subject.isNa = false) (hlen : 0 < subject.len)
    {len : Int} (hpattern : pattern.data = .null len) :
    self.resetSubject toUpper subject pattern options = .error requiresPattern := by
  have hpos : subject.len ≠ 0 := ne_of_gt hlen
  simp [resetSubject, hna, hnull, hpos, not_lt.mpr hlen.le, prepare, hpattern, bind, Except.bind]

theorem present_of_not_null (hnull : subject.isNull = false) (hna : subject.isNa = false) :
    Present subject subject.bytes := by
  refine ⟨hna, ?_⟩
  cases hdata : subject.data with
  | null len => simp [StringView.isNull, hdata] at hnull
  | bytes span => exact ⟨span, rfl, by simp [StringView.bytes, hdata]⟩

variable (toUpper options) in
/-- What a search returns, for the same bytes anywhere and any earlier use. -/
theorem findAll_determined (hna : subject.isNa = false) (hlen : 0 < subject.len)
    (hpattern : pattern.isNa = false) (hpatternLen : 0 < pattern.len) :
    ∃ found : Except NativeError (List ByteRange), ∀ view self,
      view.unplaced = subject.unplaced → Consistent toUpper self →
        (∃ error, found = .error error ∧
          self.findAll toUpper view pattern options = .error error) ∨
        ∃ ranges self', found = .ok ranges ∧
          self.findAll toUpper view pattern options = .ok (ranges, self') ∧
          Consistent toUpper self' := by
  -- the place of the bytes is the only difference
  have hsame : ∀ view : StringView, view.unplaced = subject.unplaced →
      view.isNa = false ∧ 0 < view.len ∧ view.isNull = subject.isNull ∧
        view.bytes = subject.bytes := by
    intro view hview
    rw [← view.unplaced_isNa, ← view.unplaced_len, ← view.unplaced_isNull,
      ← view.unplaced_bytes, hview]
    simp [hna, hlen]
  cases hnull : subject.isNull with
  | true =>
      refine ⟨.error requiresSubject, ?_⟩
      intro view self hview _
      obtain ⟨hviewNa, hviewLen, hviewNull, -⟩ := hsame view hview
      refine .inl ⟨_, rfl, ?_⟩
      rw [findAll, resetSubject_of_null self (hviewNull.trans hnull) hviewNa hviewLen]
      rfl
  | false =>
      cases hdata : pattern.data with
      | null len =>
          refine ⟨.error requiresPattern, ?_⟩
          intro view self hview _
          obtain ⟨hviewNa, hviewLen, hviewNull, -⟩ := hsame view hview
          refine .inl ⟨_, rfl, ?_⟩
          rw [findAll, resetSubject_of_null_pattern self (hviewNull.trans hnull) hviewNa hviewLen
            hdata]
          rfl
      | bytes span =>
          have hne : span.bytes ≠ [] := by
            intro hnil
            simp [StringView.len, hdata, hnil] at hpatternLen
          obtain ⟨ranges, hmatches⟩ := (exists_matches options hne subject.bytes : ∃ ranges,
            Matches toUpper options span.bytes subject.bytes ranges)
          refine ⟨.ok (ranges.map toRange), ?_⟩
          intro view self hview hself
          obtain ⟨hviewNa, -, hviewNull, hbytes⟩ := hsame view hview
          have hpresent := present_of_not_null (hviewNull.trans hnull) hviewNa
          rw [hbytes] at hpresent
          obtain ⟨self', hfound, hkept⟩ :=
            findAll_eq hself hpresent ⟨hpattern, span, hdata, rfl⟩ hne hmatches
          exact .inr ⟨_, self', rfl, hfound, hkept⟩

/-! ## Splicing anywhere -/

theorem writeReplacement_some (ranges : List ByteRange) (first second size : Nat) :
    writeReplacement subject ranges replacement (some first) size =
      writeReplacement subject ranges replacement (some second) size := by
  simp [writeReplacement]

variable (subject replacement) in
/-- The same string is written to any storage. -/
theorem spliced_unplaced (ranges : List ByteRange) (storage : SliceArena) :
    (spliced subject ranges replacement storage).map (fun result => result.1.unplaced) =
      (spliced subject.unplaced ranges replacement ⟨0⟩).map fun result => result.1.unplaced := by
  simp only [spliced, checkedReplacementSize_unplaced, replacementIsAscii_unplaced,
    writeReplacement_unplaced]
  cases matchedByteCount 0 ranges with
  | error error => rfl
  | ok matchedBytes =>
      simp only [bind, Except.bind]
      cases checkedReplacementSize subject matchedBytes ranges replacement with
      | error error => rfl
      | ok size =>
          simp only
          cases replacementIsAscii subject ranges replacement with
          | error error => rfl
          | ok ascii =>
              simp only [SliceArena.allocate]
              by_cases hsize : size.1 > 0
              · simp only [hsize, if_true]
                rw [writeReplacement_some ranges storage.next 0]
                cases writeReplacement subject ranges replacement (some 0) size.1 with
                | error error => rfl
                | ok written => rfl
              · simp only [hsize, if_false]
                cases writeReplacement subject ranges replacement none size.1 with
                | error error => rfl
                | ok written => rfl

/-! ## One subject through the patterns -/

variable (toUpper options)

/-- One pattern on a subject, with nothing used before. -/
def replacedAlone (pattern replacement subject : StringView) : Except NativeError StringView :=
  (replaceWorking toUpper options pattern replacement subject.unplaced {} ⟨0⟩).map
    fun result => result.1.unplaced

/-- The loop over the patterns without the matcher and the storage. -/
def sequenceAlone (replacements : List StringView) :
    Nat → List StringView → List StringView → Except NativeError (List StringView × Bool)
  | _, [], working => .ok (working, false)
  | patternIndex, pattern :: rest, working =>
      if pattern.isNa ∨ pattern.len ≤ 0 then .ok (working, true)
      else do
        let working ← working.mapM (replacedAlone toUpper options pattern
          (replacements.getD (patternIndex % replacements.length) .na))
        sequenceAlone replacements (patternIndex + 1) rest working

/-- The records of some subjects. -/
def recordsAlone (replacements patterns subjects : List StringView) :
    Except NativeError (List (Option OutputRecord)) := do
  let (working, allMissing) ←
    sequenceAlone toUpper options replacements 0 patterns (subjects.map StringView.unplaced)
  working.mapM (sequencedRecord allMissing)

/-- The record of a subject that goes through the patterns alone; nothing when
that fails. -/
def recordAlone (replacements : List StringView) :
    Nat → List StringView → StringView → Option (Option OutputRecord)
  | _, [], subject => (sequencedRecord false subject).toOption
  | patternIndex, pattern :: rest, subject =>
      if pattern.isNa ∨ pattern.len ≤ 0 then some none
      else
        (replacedAlone toUpper options pattern
          (replacements.getD (patternIndex % replacements.length) .na) subject).toOption.bind
            (recordAlone replacements (patternIndex + 1) rest)

/-- The warnings of a list of patterns. -/
def emptyWarnings : List StringView → Nat
  | [] => 0
  | pattern :: rest =>
      if pattern.isNa then 0 else if pattern.len ≤ 0 then 1 else emptyWarnings rest

variable {toUpper options} {replacements : List StringView} {matcher : FixedMatcher}

/-- The record does not depend on where the value is stored. -/
theorem sequencedRecord_comp_unplaced (allMissing : Bool) :
    sequencedRecord allMissing ∘ StringView.unplaced = sequencedRecord allMissing := by
  funext value
  simp [sequencedRecord, outputRecord]

theorem replacedAlone_comp_unplaced :
    replacedAlone toUpper options pattern replacement ∘ StringView.unplaced =
      replacedAlone toUpper options pattern replacement := by
  funext subject
  simp [replacedAlone]

variable (options subject replacement) in
/-- With any consistent matcher and any storage a subject becomes what it becomes
alone. -/
theorem replaceWorking_cases (hmatcher : Consistent toUpper matcher)
    (hpattern : pattern.isNa = false) (hpatternLen : 0 < pattern.len) (storage : SliceArena) :
    (∃ value matcher' storage',
      replaceWorking toUpper options pattern replacement subject matcher storage =
        .ok (value, matcher', storage') ∧
      Consistent toUpper matcher' ∧
      replacedAlone toUpper options pattern replacement subject = .ok value.unplaced) ∨
    ∃ error, replaceWorking toUpper options pattern replacement subject matcher storage =
        .error error ∧
      replacedAlone toUpper options pattern replacement subject = .error error := by
  by_cases hskip : subject.isNa = true ∨ subject.len ≤ 0
  · left
    refine ⟨subject, matcher, storage, by rw [replaceWorking, if_pos hskip], hmatcher, ?_⟩
    rw [replacedAlone, replaceWorking, if_pos (by simpa using hskip)]
    simp [Except.map]
  · have hskip' : ¬ (subject.unplaced.isNa = true ∨ subject.unplaced.len ≤ 0) := by
      simpa using hskip
    simp only [not_or, Bool.not_eq_true, Int.not_le] at hskip
    -- Neither the matcher's past nor the place of the subject changes what is found.
    obtain ⟨found, hfound⟩ := findAll_determined toUpper options hskip.1 hskip.2 hpattern
      hpatternLen
    rw [replacedAlone, replaceWorking, replaceWorking, if_neg hskip', if_neg (by simpa using hskip)]
    rcases hfound subject matcher rfl hmatcher with
      ⟨error, rfl, hhere⟩ | ⟨ranges, matcher', rfl, hhere, hkept⟩
    · rcases hfound subject.unplaced {} (by simp) (consistent_default toUpper) with
        ⟨other, herror, hthere⟩ | ⟨_, _, hok, -⟩
      · obtain rfl := Except.error.inj herror
        rw [hhere, hthere]
        exact .inr ⟨error, rfl, rfl⟩
      · exact absurd hok (by simp)
    · rcases hfound subject.unplaced {} (by simp) (consistent_default toUpper) with
        ⟨_, herror, -⟩ | ⟨others, fresh, hok, hthere, -⟩
      · exact absurd herror (by simp)
      · obtain rfl := Except.ok.inj hok
        rw [hhere, hthere]
        simp only [bind, Except.bind]
        by_cases hempty : ranges.isEmpty = true
        · rw [if_pos hempty, if_pos hempty]
          exact .inl ⟨subject, matcher', storage, rfl, hkept,
            by simp [pure, Except.pure, Except.map]⟩
        · rw [if_neg hempty, if_neg hempty]
          by_cases hna : replacement.isNa = true
          · rw [if_pos hna, if_pos hna]
            exact .inl ⟨.na, matcher', storage, rfl, hkept, rfl⟩
          · rw [if_neg hna, if_neg hna]
            have hsame := spliced_unplaced subject replacement ranges storage
            cases hfirst : spliced subject ranges replacement storage with
            | error error =>
                cases hsecond : spliced subject.unplaced ranges replacement ⟨0⟩ with
                | error other =>
                    rw [hfirst, hsecond] at hsame
                    exact .inr ⟨error, rfl, hsame.symm⟩
                | ok written => simp [hfirst, hsecond, Except.map] at hsame
            | ok written =>
                cases hsecond : spliced subject.unplaced ranges replacement ⟨0⟩ with
                | error other => simp [hfirst, hsecond, Except.map] at hsame
                | ok other =>
                    rw [hfirst, hsecond] at hsame
                    have hvalue : written.1.unplaced = other.1.unplaced := Except.ok.inj hsame
                    exact .inl ⟨written.1, matcher', written.2, rfl, hkept,
                      congrArg Except.ok hvalue.symm⟩

variable (options replacement) in
/-- A pattern goes through all subjects, or fails at the first that fails alone. -/
theorem replaceAllWorking_cases (hmatcher : Consistent toUpper matcher)
    (hpattern : pattern.isNa = false) (hpatternLen : 0 < pattern.len) (storage : SliceArena)
    (subjects : List StringView) :
    (∃ values matcher' storage',
      replaceAllWorking toUpper options pattern replacement subjects matcher storage =
        .ok (values, matcher', storage') ∧
      Consistent toUpper matcher' ∧
      subjects.mapM (replacedAlone toUpper options pattern replacement) =
        .ok (values.map StringView.unplaced)) ∨
    ∃ error, replaceAllWorking toUpper options pattern replacement subjects matcher storage =
        .error error ∧
      subjects.mapM (replacedAlone toUpper options pattern replacement) = .error error := by
  induction subjects generalizing matcher storage with
  | nil => exact .inl ⟨[], matcher, storage, rfl, hmatcher, rfl⟩
  | cons subject rest ih =>
      rw [replaceAllWorking, List.mapM_cons]
      rcases replaceWorking_cases options subject replacement hmatcher hpattern hpatternLen
          storage with
        ⟨value, next, storage', hfirst, hkept, hvalue⟩ | ⟨error, hfirst, hvalue⟩
      · rcases ih hkept storage' with
          ⟨values, last, storage'', hrest, hlast, hvalues⟩ | ⟨error, hrest, hvalues⟩
        · refine .inl ⟨value :: values, last, storage'', ?_, hlast, ?_⟩
          · simp only [bind, Except.bind, hfirst, hrest]
            rfl
          · rw [hvalue, hvalues]
            rfl
        · refine .inr ⟨error, ?_, ?_⟩
          · simp only [bind, Except.bind, hfirst, hrest]
          · rw [hvalue, hvalues]
            rfl
      · refine .inr ⟨error, ?_, ?_⟩
        · simp only [bind, Except.bind, hfirst]
        · rw [hvalue]
          rfl

variable (options replacements) in
/-- The loop over the patterns comes to the same with any consistent matcher. -/
theorem replacePatterns_cases (hmatcher : Consistent toUpper matcher) (patternIndex : Nat)
    (patterns working : List StringView) (storage : SliceArena) :
    (∃ done, replacePatterns toUpper options replacements patternIndex patterns working matcher
        storage = .ok done ∧
      Consistent toUpper done.matcher ∧ done.warnings = emptyWarnings patterns ∧
      sequenceAlone toUpper options replacements patternIndex patterns
        (working.map StringView.unplaced) =
          .ok (done.working.map StringView.unplaced, done.allMissing)) ∨
    ∃ error, replacePatterns toUpper options replacements patternIndex patterns working matcher
        storage = .error error ∧
      sequenceAlone toUpper options replacements patternIndex patterns
        (working.map StringView.unplaced) = .error error := by
  induction patterns generalizing patternIndex working matcher storage with
  | nil => exact .inl ⟨_, rfl, hmatcher, rfl, rfl⟩
  | cons pattern rest ih =>
      rw [replacePatterns, emptyWarnings, sequenceAlone]
      by_cases hna : pattern.isNa = true
      · rw [if_pos hna, if_pos hna, if_pos (.inl hna)]
        exact .inl ⟨_, rfl, hmatcher, rfl, rfl⟩
      · rw [if_neg hna, if_neg hna]
        by_cases hlen : pattern.len ≤ 0
        · rw [if_pos hlen, if_pos hlen, if_pos (.inr hlen)]
          exact .inl ⟨_, rfl, hmatcher, rfl, rfl⟩
        · rw [if_neg hlen, if_neg hlen, if_neg (by simp [hna, hlen]), List.mapM_map,
            replacedAlone_comp_unplaced]
          rcases replaceAllWorking_cases options
              (replacements.getD (patternIndex % replacements.length) .na) hmatcher
              (by simpa using hna) (Int.not_le.mp hlen) storage working with
            ⟨values, next, storage', hfirst, hkept, hvalues⟩ | ⟨error, hfirst, hvalues⟩
          · simp only [bind, Except.bind, hfirst, hvalues]
            exact ih hkept (patternIndex + 1) values storage'
          · refine .inr ⟨error, ?_, ?_⟩
            · simp only [bind, Except.bind, hfirst]
            · simp only [bind, Except.bind, hvalues]

variable (options replacements) in
/-- The records of a loop over the patterns, and its warnings. -/
theorem records_cases (hmatcher : Consistent toUpper matcher) (patterns subjects : List StringView)
    (storage : SliceArena) :
    (∃ done, replacePatterns toUpper options replacements 0 patterns subjects matcher storage =
        .ok done ∧
      Consistent toUpper done.matcher ∧ done.warnings = emptyWarnings patterns ∧
      done.working.mapM (sequencedRecord done.allMissing) =
        recordsAlone toUpper options replacements patterns subjects) ∨
    ∃ error, replacePatterns toUpper options replacements 0 patterns subjects matcher storage =
        .error error ∧
      recordsAlone toUpper options replacements patterns subjects = .error error := by
  unfold recordsAlone
  rcases replacePatterns_cases options replacements hmatcher 0 patterns subjects storage with
    ⟨done, hdone, hkept, hwarnings, hsequence⟩ | ⟨error, herror, hsequence⟩
  · refine .inl ⟨done, hdone, hkept, hwarnings, ?_⟩
    simp only [hsequence, bind, Except.bind, List.mapM_map,
      sequencedRecord_comp_unplaced]
  · refine .inr ⟨error, herror, ?_⟩
    simp only [hsequence, bind, Except.bind]

variable (options replacements) in
/-- The serial operation, whatever the matcher has been used for. -/
theorem replaceSequential_eq (hmatcher : Consistent toUpper matcher)
    (patterns subjects : List StringView) (storage : SliceArena) :
    replaceSequential toUpper options replacements subjects patterns matcher storage =
      (recordsAlone toUpper options replacements patterns subjects).map
        fun records => (records, emptyWarnings patterns) := by
  unfold replaceSequential
  rcases records_cases options replacements hmatcher patterns subjects storage with
    ⟨done, hdone, -, hwarnings, hrecords⟩ | ⟨error, herror, hrecords⟩
  · simp only [hdone, bind, Except.bind, hrecords, hwarnings]
    cases recordsAlone toUpper options replacements patterns subjects with
    | error error => rfl
    | ok records => rfl
  · simp only [herror, bind, Except.bind, hrecords]
    rfl

/-! ## Each subject alone -/

/-- All patterns go through the subjects, or the first failing one fails. -/
theorem sequenceAlone_cases (patternIndex : Nat) (patterns working : List StringView) :
    (∃ values allMissing,
      sequenceAlone toUpper options replacements patternIndex patterns working =
        .ok (values, allMissing) ∧
      working.map (recordAlone toUpper options replacements patternIndex patterns) =
        values.map fun value => (sequencedRecord allMissing value).toOption) ∨
    ∃ error, sequenceAlone toUpper options replacements patternIndex patterns working =
        .error error ∧
      ∃ subject ∈ working,
        recordAlone toUpper options replacements patternIndex patterns subject = none := by
  induction patterns generalizing patternIndex working with
  | nil => exact .inl ⟨working, false, rfl, rfl⟩
  | cons pattern rest ih =>
      rw [sequenceAlone]
      by_cases hends : pattern.isNa = true ∨ pattern.len ≤ 0
      · rw [if_pos hends]
        refine .inl ⟨working, true, rfl, ?_⟩
        apply List.map_congr_left
        intro subject _
        rw [recordAlone, if_pos hends]
        rfl
      · rw [if_neg hends]
        have halone : recordAlone toUpper options replacements patternIndex (pattern :: rest) =
            fun subject => (replacedAlone toUpper options pattern
              (replacements.getD (patternIndex % replacements.length) .na) subject).toOption.bind
                (recordAlone toUpper options replacements (patternIndex + 1) rest) := by
          funext subject
          rw [recordAlone, if_neg hends]
        rw [halone]
        rcases Earliest.mapM_cases (replacedAlone toUpper options pattern
            (replacements.getD (patternIndex % replacements.length) .na)) working with
          ⟨values, hvalues, hmap⟩ | ⟨error, hvalues, failing, hfailing, hnone⟩
        · simp only [hvalues, bind, Except.bind]
          -- One subject after the other, this pattern and then the rest of them.
          have hbound := congrArg (List.map fun value => Option.bind value
            (recordAlone toUpper options replacements (patternIndex + 1) rest)) hmap
          rw [List.map_map, List.map_map] at hbound
          have hcomposed : working.map (fun subject => (replacedAlone toUpper options pattern
              (replacements.getD (patternIndex % replacements.length) .na) subject).toOption.bind
                (recordAlone toUpper options replacements (patternIndex + 1) rest)) =
              values.map (recordAlone toUpper options replacements (patternIndex + 1) rest) :=
            hbound
          rcases ih (patternIndex + 1) values with hdone | ⟨error, herror, failing, hmem, hnone⟩
          · rw [hcomposed]
            exact .inl hdone
          · have hmember : none ∈ working.map (fun subject => (replacedAlone toUpper options
                pattern (replacements.getD (patternIndex % replacements.length) .na)
                  subject).toOption.bind
                    (recordAlone toUpper options replacements (patternIndex + 1) rest)) := by
              rw [hcomposed]
              exact List.mem_map.mpr ⟨failing, hmem, hnone⟩
            obtain ⟨subject, hsubject, hfails⟩ := List.mem_map.mp hmember
            exact .inr ⟨error, herror, subject, hsubject, hfails⟩
        · refine .inr ⟨error, ?_, failing, hfailing, ?_⟩
          · simp only [hvalues, bind, Except.bind]
          · simp only [hnone, Option.bind_none]

theorem recordAlone_comp_unplaced (patternIndex : Nat) (patterns : List StringView) :
    recordAlone toUpper options replacements patternIndex patterns ∘ StringView.unplaced =
      recordAlone toUpper options replacements patternIndex patterns := by
  funext subject
  cases patterns with
  | nil => exact congrArg Except.toOption (congrFun (sequencedRecord_comp_unplaced false) subject)
  | cons pattern rest =>
      rw [Function.comp_apply, recordAlone, recordAlone]
      exact congrArg (fun value => if pattern.isNa = true ∨ pattern.len ≤ 0 then some none
        else (Except.toOption value).bind _) (congrFun replacedAlone_comp_unplaced subject)

variable (toUpper options replacements) in
/-- The records of some subjects are those of each alone. -/
theorem recordsAlone_cases (patterns subjects : List StringView) :
    (∃ records, recordsAlone toUpper options replacements patterns subjects = .ok records ∧
      subjects.map (recordAlone toUpper options replacements 0 patterns) = records.map some) ∨
    ∃ error, recordsAlone toUpper options replacements patterns subjects = .error error ∧
      ∃ subject ∈ subjects,
        recordAlone toUpper options replacements 0 patterns subject = none := by
  have hplaced : (subjects.map StringView.unplaced).map
      (recordAlone toUpper options replacements 0 patterns) =
        subjects.map (recordAlone toUpper options replacements 0 patterns) := by
    rw [List.map_map, recordAlone_comp_unplaced]
  have hfailing : none ∈ subjects.map (recordAlone toUpper options replacements 0 patterns) →
      ∃ subject ∈ subjects,
        recordAlone toUpper options replacements 0 patterns subject = none := by
    intro hmem
    obtain ⟨subject, hsubject, hnone⟩ := List.mem_map.mp hmem
    exact ⟨subject, hsubject, hnone⟩
  unfold recordsAlone
  rcases sequenceAlone_cases 0 patterns (subjects.map StringView.unplaced) with
    ⟨values, allMissing, hsequence, hmap⟩ | ⟨error, hsequence, subject, hsubject, hnone⟩
  · rw [hplaced] at hmap
    simp only [hsequence, bind, Except.bind]
    rcases Earliest.mapM_cases (sequencedRecord allMissing) values with
      ⟨records, hrecords, hvalues⟩ | ⟨error, herror, value, hvalue, hnone⟩
    · exact .inl ⟨records, hrecords, hmap.trans hvalues⟩
    · refine .inr ⟨error, herror, hfailing ?_⟩
      rw [hmap]
      exact List.mem_map.mpr ⟨value, hvalue, hnone⟩
  · simp only [hsequence, bind, Except.bind]
    refine .inr ⟨error, rfl, hfailing ?_⟩
    rw [← hplaced]
    exact List.mem_map.mpr ⟨subject, hsubject, hnone⟩

end Alone

/-! ## The region -/

section Region

open FixedMatcher

variable {toUpper : CodePoint → CodePoint} {options : FixedSearchOptions}
  {replacements patterns subjects : List StringView} {chunk : Nat}

variable (toUpper options replacements patterns) in
/-- The writes of a chunk with these subjects. -/
def writesAlone (begin : Nat) (items : List StringView) : List (Nat × Option OutputRecord) :=
  match sequenceAlone toUpper options replacements 0 patterns (items.map StringView.unplaced) with
  | .error _ => []
  | .ok (values, allMissing) => (writeItems (sequencedRecord allMissing) () begin values).writes

variable (subjects) in
/-- A chunk writes the records of its subjects, or fails as the first of them does. -/
theorem runSequential_spec {worker : SequentialWorker}
    (hworker : Consistent toUpper worker.matcher) (context : WorkerContext) :
    let result := runSequential toUpper options replacements subjects patterns context worker
    let records := recordsAlone toUpper options replacements patterns (chunkItems subjects context)
    result.ending.map NativeError.text = taskEnding (raised records) ∧
      result.writes = writesAlone toUpper options replacements patterns context.begin
        (chunkItems subjects context) ∧
      Consistent toUpper result.state.matcher ∧
      (raised records = none → result.state.warningSlot = emptyWarnings patterns) := by
  intro result records
  rcases replacePatterns_cases options replacements hworker 0 patterns
      (chunkItems subjects context) ⟨0⟩ with
    ⟨done, hdone, hkept, hwarnings, hsequence⟩ | ⟨error, herror, hsequence⟩
  · have hresult : result = writeItems (sequencedRecord done.allMissing)
        ⟨done.matcher, done.warnings⟩ context.begin done.working := by
      simp only [result, runSequential, hdone]
    have hrecords : records = done.working.mapM (sequencedRecord done.allMissing) := by
      simp only [records, recordsAlone, hsequence, bind, Except.bind, List.mapM_map,
        sequencedRecord_comp_unplaced]
    refine ⟨?_, ?_, ?_, ?_⟩
    · rw [hresult, hrecords, writeItems_ending]
      cases done.working.mapM (sequencedRecord done.allMissing) with
      | error error => rfl
      | ok written => rfl
    · rw [hresult, writesAlone, hsequence]
      simp only
      rw [writeItems_map _ _ _ _, sequencedRecord_comp_unplaced]
    · rw [hresult, writeItems_state]
      exact hkept
    · intro _
      rw [hresult, writeItems_state]
      exact hwarnings
  · have hresult : result = { ending := .throws error, state := worker } := by
      simp only [result, runSequential, herror]
    have hrecords : records = .error error := by
      simp only [records, recordsAlone, hsequence, bind, Except.bind]
    rw [hresult, hrecords]
    refine ⟨rfl, ?_, hworker, fun hnone => absurd hnone (by simp [raised])⟩
    rw [writesAlone, hsequence]

variable (toUpper options replacements patterns subjects) in
/-- Every subject comes through the patterns. -/
def AllPass : Prop :=
  ∀ subject ∈ subjects, recordAlone toUpper options replacements 0 patterns subject ≠ none

/-- Where every pattern passes, no record fails. -/
theorem raised_recordsAlone (hpass : AllPass toUpper options replacements patterns subjects)
    {items : List StringView} (hitems : ∀ item ∈ items, item ∈ subjects) :
    raised (recordsAlone toUpper options replacements patterns items) = none := by
  rcases recordsAlone_cases toUpper options replacements patterns items with
    ⟨records, hrecords, -⟩ | ⟨error, -, subject, hsubject, hnone⟩
  · rw [hrecords]
    rfl
  · exact absurd hnone (hpass subject (hitems subject hsubject))

/-- Records for all subjects mean that all of them passed. -/
theorem allPass_of_map {records : List (Option OutputRecord)}
    (hrecords : subjects.map (recordAlone toUpper options replacements 0 patterns) =
      records.map some) : AllPass toUpper options replacements patterns subjects := by
  intro subject hsubject hnone
  have hmem : none ∈ subjects.map (recordAlone toUpper options replacements 0 patterns) :=
    List.mem_map.mpr ⟨subject, hsubject, hnone⟩
  rw [hrecords] at hmem
  simp at hmem

/-- One failing subject among them is enough. -/
theorem raised_of_failing {items : List StringView} {item : StringView} (hitem : item ∈ items)
    (hnone : recordAlone toUpper options replacements 0 patterns item = none) :
    (raised (recordsAlone toUpper options replacements patterns items)).isSome = true := by
  rcases recordsAlone_cases toUpper options replacements patterns items with
    ⟨records, -, hmap⟩ | ⟨error, herror, -⟩
  · exact absurd hnone (allPass_of_map hmap item hitem)
  · rw [herror]
    rfl

theorem mem_of_chunkItems {context : WorkerContext} {item : StringView}
    (hitem : item ∈ chunkItems subjects context) : item ∈ subjects :=
  List.mem_of_mem_drop (List.mem_of_mem_take hitem)

variable (subjects chunk) in
/-- The subjects of a chunk. -/
def subjectsOf (number : Nat) : List StringView :=
  chunkItems subjects (heldContext 1 subjects.length chunk 0 number)

/-- Each subject is among those of its chunk. -/
theorem getElem_mem_subjectsOf (hchunk : 1 ≤ chunk) {index : Nat}
    (hindex : index < subjects.length) :
    subjects[index] ∈ subjectsOf subjects chunk (index / chunk) := by
  have hbegin := (Nat.div_mul_le_self index chunk).trans_lt hindex
  have hitems : subjectsOf subjects chunk (index / chunk) = _ :=
    chunkItems_held subjects .na hbegin 1 0
  rw [hitems]
  refine List.mem_map.mpr ⟨index, (mem_chunkRange hchunk).mpr ⟨hindex, rfl⟩, ?_⟩
  rw [List.getD_eq_getElem?_getD, List.getElem?_eq_getElem hindex]
  rfl

variable (toUpper options replacements patterns subjects) in
/-- What a worker has counted when it has been through its chunks. -/
theorem sequentialSpec (workers : Nat) :
    BodySpec (sequentialBody toUpper options replacements subjects patterns) workers
      subjects.length chunk
      (fun _ mine worker => Consistent toUpper worker.matcher ∧
        (AllPass toUpper options replacements patterns subjects →
          worker.warningSlot = if mine = [] then 0 else emptyWarnings patterns))
      (ChunkPost NativeError.text
        (fun number => taskEnding (raised
          (recordsAlone toUpper options replacements patterns (subjectsOf subjects chunk number))))
        fun number => writesAlone toUpper options replacements patterns (chunkBegin chunk number)
          (subjectsOf subjects chunk number)) := by
  apply chunkwiseSpec
  · intro index _
    exact ⟨consistent_default toUpper, fun _ => rfl⟩
  · rintro index - finished number worker - - ⟨hmatcher, -⟩
    obtain ⟨hending, hwrites, hkept, hslot⟩ := runSequential_spec subjects hmatcher
      (heldContext workers subjects.length chunk index number)
    refine ⟨hending, hwrites, hkept, ?_⟩
    intro hpass
    rw [if_neg (by simp)]
    exact hslot (raised_recordsAlone hpass fun item hitem => mem_of_chunkItems hitem)

/-- The largest of the slots is the count of warnings, where one worker has it. -/
theorem foldl_max_slots {workers : Nat} {slots : Nat → Nat} {warnings : Nat}
    (hslots : ∀ worker < workers, slots worker = 0 ∨ slots worker = warnings)
    (hsome : ∃ worker < workers, slots worker = warnings) :
    additionalEmptyWarnings workers slots = warnings := by
  have hfold : ∀ count ≤ workers, additionalEmptyWarnings count slots ≤ warnings ∧
      ∀ worker < count, slots worker ≤ additionalEmptyWarnings count slots := by
    intro count hcount
    induction count with
    | zero => exact ⟨Nat.zero_le _, fun worker hworker => absurd hworker (Nat.not_lt_zero _)⟩
    | succ count ih =>
        obtain ⟨hle, hall⟩ := ih (by omega)
        have hstep : additionalEmptyWarnings (count + 1) slots =
            if slots count > additionalEmptyWarnings count slots then slots count
            else additionalEmptyWarnings count slots := by
          rw [additionalEmptyWarnings, List.range_succ, List.foldl_append]
          rfl
        have hcurrent := hslots count (by omega)
        rw [hstep]
        constructor
        · split <;> omega
        · intro worker hworker
          rcases Nat.lt_succ_iff_lt_or_eq.mp hworker with hearlier | rfl
          · have := hall worker hearlier
            split <;> omega
          · split <;> omega
  obtain ⟨hle, hall⟩ := hfold workers le_rfl
  obtain ⟨worker, hworker, hslot⟩ := hsome
  have := hall worker hworker
  omega

/-- The value at an index, once all subjects pass. -/
theorem recordAlone_getD {records : List (Option OutputRecord)}
    (hrecords : subjects.map (recordAlone toUpper options replacements 0 patterns) =
      records.map some) {index : Nat} (hindex : index < subjects.length) :
    recordAlone toUpper options replacements 0 patterns (subjects.getD index .na) =
      some (records.getD index none) := by
  have hlength : records.length = subjects.length := by
    have := congrArg List.length hrecords
    simpa using this.symm
  have hget := congrArg (fun list => list[index]?) hrecords
  simp only [List.getElem?_map, List.getElem?_eq_getElem hindex,
    List.getElem?_eq_getElem (hlength ▸ hindex), Option.map_some, Option.some.injEq] at hget
  rw [List.getD_eq_getElem?_getD, List.getElem?_eq_getElem hindex, List.getD_eq_getElem?_getD,
    List.getElem?_eq_getElem (hlength ▸ hindex)]
  exact hget

/-- A chunk of passing subjects writes the records of its tasks. -/
theorem writesAlone_eq {records : List (Option OutputRecord)}
    (hrecords : subjects.map (recordAlone toUpper options replacements 0 patterns) =
      records.map some) {number : Nat} (hnumber : number * chunk < subjects.length) :
    writesAlone toUpper options replacements patterns (chunkBegin chunk number)
        (subjectsOf subjects chunk number) =
      (chunkRange subjects.length chunk number).map fun task =>
        (task, records.getD task none) := by
  have hitems : subjectsOf subjects chunk number = _ := chunkItems_held subjects .na hnumber 1 0
  rcases recordsAlone_cases toUpper options replacements patterns
      (subjectsOf subjects chunk number) with
    ⟨written, hwritten, hmap⟩ | ⟨error, -, subject, hsubject, hnone⟩
  · have hvalues : written = (chunkRange subjects.length chunk number).map fun task =>
        records.getD task none := by
      apply List.map_injective_iff.mpr (Option.some_injective _)
      rw [← hmap, hitems, List.map_map, List.map_map]
      apply List.map_congr_left
      intro task htask
      have hbounds := List.mem_range'_1.mp htask
      have hend := chunkEnd_le_tasks hnumber
      exact recordAlone_getD hrecords (by omega)
    unfold recordsAlone at hwritten
    unfold writesAlone
    cases hsequence : sequenceAlone toUpper options replacements 0 patterns
        ((subjectsOf subjects chunk number).map StringView.unplaced) with
    | error error => simp [hsequence, bind, Except.bind] at hwritten
    | ok values =>
        simp only [hsequence, bind, Except.bind] at hwritten ⊢
        rw [writeItems_writes () hwritten, hvalues, List.length_map, chunkRange,
          List.length_range', List.map_prod_left_eq_zip]
  · exact absurd hnone (allPass_of_map hrecords subject (mem_of_chunkItems hsubject))

end Region

/-- On any plan and for any schedule, replacing by a list of fixed patterns gives the
records of the serial operation and as many warnings, and fails when it fails. -/
theorem runSequential_agrees_with_serial (toUpper : CodePoint → CodePoint)
    (options : FixedSearchOptions) (replacements patterns subjects : List StringView)
    (hsubjects : subjects ≠ []) (plan : ParallelPlan) (hworkers : 1 ≤ plan.workers)
    (schedule : List Nat) :
    let body := sequentialBody toUpper options replacements subjects patterns
    ((∀ index < regionWorkers plan subjects.length,
        scheduleBound plan subjects.length < schedule.count index) →
      (runParallel plan subjects.length body (fun _ => none) schedule).isSome = true) ∧
    ∀ regionEnd, runParallel plan subjects.length body (fun _ => none) schedule =
        some regionEnd →
      match replaceSequential toUpper options replacements subjects patterns {} ⟨0⟩ with
      | .error _ => (regionEnd.outcome.message NativeError.text).isSome = true
      | .ok (records, warnings) =>
          regionEnd.outcome = .returned ∧ records.length = subjects.length ∧
          (∀ index < subjects.length, regionEnd.final.shared.result index = records[index]?) ∧
          additionalEmptyWarnings plan.workers (fun index =>
            (regionEnd.final.worker index).state.warningSlot) = warnings := by
  intro body
  refine ⟨runRegion_isSome_of_fair plan _ _ _ false schedule, ?_⟩
  intro regionEnd hrun
  have hchunk := one_le_regionChunk plan
  have hspec : BodySpec body _ _ (regionChunk plan) _ _ :=
    sequentialSpec toUpper options replacements patterns subjects
      (regionWorkers plan subjects.length)
  obtain ⟨hdone, houtcome, -⟩ :=
    completed_of_runRegion hspec (fun number ending entries hpost => hpost.1) hrun
  rw [replaceSequential_eq options replacements (FixedMatcher.consistent_default toUpper)]
  rcases recordsAlone_cases toUpper options replacements patterns subjects with
    ⟨records, hrecords, hmap⟩ | ⟨error, herror, failing, hfailing, hnone⟩
  · rw [hrecords]
    have hlength : records.length = subjects.length := by
      have := congrArg List.length hmap
      simpa using this.symm
    have hpass := allPass_of_map hmap
    have hall : ∀ number < chunkCount subjects.length (regionChunk plan), taskEnding (raised
        (recordsAlone toUpper options replacements patterns
          (subjectsOf subjects (regionChunk plan) number))) = .next := by
      intro number _
      apply taskEnding_eq_next.mpr
      exact raised_recordsAlone hpass fun item hitem => mem_of_chunkItems hitem
    refine ⟨?_, hlength, ?_, ?_⟩
    · rw [houtcome]
      exact (hdone.conclude_message fun number _ => taskEnding_ne_stopsEarly _).2.mpr hall
    · intro index hindex
      have hresult := hdone.result_of_chunks hall (fun number hnumber =>
        writesAlone_eq hmap ((lt_chunkCount_iff hchunk).mp hnumber)) hindex
      rw [hresult, List.getD_eq_getElem?_getD, List.getElem?_eq_getElem (hlength ▸ hindex)]
      rfl
    · have hslots := fun index => (history_of_plan hdone hrun
        (fun _ => ⟨FixedMatcher.consistent_default toUpper, fun _ => rfl⟩) index).2 hpass
      apply foldl_max_slots
      · intro index _
        rw [hslots index]
        split
        next => exact .inl rfl
        next => exact .inr rfl
      · -- the worker that won the first chunk
        have hfirst := one_le_chunkCount (List.length_pos_of_ne_nil hsubjects) hchunk
        obtain ⟨index, hindex, howned⟩ := hdone.exists_owned hfirst
          fun earlier hearlier => absurd hearlier (Nat.not_lt_zero _)
        refine ⟨index, hindex.trans_le (regionWorkers_le hworkers), ?_⟩
        rw [hslots index, if_neg (List.ne_nil_of_mem howned)]
  · rw [herror]
    obtain ⟨index, hindex, rfl⟩ := List.getElem_of_mem hfailing
    have hmessage := (hdone.conclude_message fun number _ => taskEnding_ne_stopsEarly _).1
    have hbegin := (Nat.div_mul_le_self index (regionChunk plan)).trans_lt hindex
    simp only [houtcome]
    -- The chunk of the failing subject fails, so some chunk is the first to.
    refine (congrArg Option.isSome hmessage).trans ?_
    rw [List.isSome_findSome?, List.any_eq_true]
    refine ⟨index / regionChunk plan,
      List.mem_range.mpr ((lt_chunkCount_iff hchunk).mpr hbegin), ?_⟩
    rw [taskEnding_error]
    exact raised_of_failing (getElem_mem_subjectsOf hchunk hindex) hnone

/-- `"ab"`, a missing string and `"b"`, with `"a"` replaced by `"b"` and then `"b"` by
`"c"`, on two workers. -/
theorem runSequential_replaces_on_two_workers :
    let view : List UInt8 → StringView := fun bytes =>
      ⟨.bytes ⟨100, bytes.take 2, (List.length_take_le 2 bytes).trans (by decide)⟩, .ascii⟩
    let body := sequentialBody id ⟨false, false⟩ [view [98], view [99]]
      [view [97, 98], .na, view [98]] [view [97], view [98]]
    ∃ regionEnd, runParallel ⟨2, 1⟩ 3 body (fun _ => none) ((List.range 60).map (· % 2)) =
        some regionEnd ∧
      (List.range 3).map regionEnd.final.shared.result =
        [some (some ⟨[99, 99], .ascii⟩), some none, some (some ⟨[99], .ascii⟩)] := by
  intro view body
  have hserial : replaceSequential id ⟨false, false⟩ [view [98], view [99]]
      [view [97, 98], .na, view [98]] [view [97], view [98]] {} ⟨0⟩ =
        .ok ([some ⟨[99, 99], .ascii⟩, none, some ⟨[99], .ascii⟩], 0) := by decide +kernel
  obtain ⟨hfair, hresult⟩ := runSequential_agrees_with_serial id ⟨false, false⟩
    [view [98], view [99]] [view [97], view [98]] [view [97, 98], .na, view [98]] (by simp)
    ⟨2, 1⟩ (by decide) ((List.range 60).map (· % 2))
  obtain ⟨regionEnd, hrun⟩ := Option.isSome_iff_exists.mp (hfair (by decide))
  have hsame := hresult regionEnd hrun
  rw [hserial] at hsame
  obtain ⟨-, -, hvalues, -⟩ := hsame
  refine ⟨regionEnd, hrun, ?_⟩
  rw [show List.range 3 = [0, 1, 2] from rfl]
  simp only [List.map_cons, List.map_nil]
  rw [hvalues 0 (by decide), hvalues 1 (by decide), hvalues 2 (by decide)]
  rfl

end Charr.FixedSearch
