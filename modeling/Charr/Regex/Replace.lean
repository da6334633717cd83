import Charr.Library.Earliest
import Charr.Library.Loops
import Charr.Parallel.Chunks
import Charr.Text.StringView

/-!
# Replacing by a list of regular expressions

Every subject goes through all patterns in turn, and what one replacement leaves
is what the next works on. The loop takes one pattern over all subjects before it
comes to the next. On several workers each claimed chunk of the subjects goes
through that loop by itself, so the pairs of patterns and subjects are visited in
another order.

Compiling a pattern, replacing in one subject and writing UTF-8 belong to ICU.
-/

namespace Charr.Regex

open Parallel Earliest Loops

variable {Pattern Text : Type}

/-- A pattern of the list: missing, empty, or something to compile. -/
inductive RegexInput (Pattern : Type) where
  | missing
  | empty
  | text (pattern : Pattern)
  deriving DecidableEq, Repr

/-- The matcher: what compiling a pattern and replacing in one subject return, and
the UTF-8 of a text. Without a replacement a match makes the subject missing. -/
structure RegexMatcher (Pattern Text : Type) where
  bind : Pattern → Except NativeError Unit
  replace : Pattern → Text → Option Text → Except NativeError (Option Text)
  toUtf8 : Text → Except NativeError (List UInt8)

section Loops

variable (matcher : RegexMatcher Pattern Text)

/-- The bound pattern in one subject; a missing one stays as it is. -/
def replaceBound (pattern : Pattern) (replacement : Option Text) :
    Option Text → Except NativeError (Option Text)
  | none => .ok none
  | some subject => matcher.replace pattern subject replacement

variable (replacements : List (Option Text))

/-- The replacement of a pattern, recycled. -/
def replacementAt (patternIndex : Nat) : Option Text :=
  replacements.getD (patternIndex % replacements.length) none

/-- The patterns from `patternIndex` on, with the empty patterns counted. A missing
or an empty pattern makes all subjects missing and ends the loop. -/
def replacePatterns : Nat → List (RegexInput Pattern) → List (Option Text) →
    Except NativeError (List (Option Text) × Nat)
  | _, [], subjects => .ok (subjects, 0)
  | _, .missing :: _, subjects => .ok (subjects.map fun _ => none, 0)
  | _, .empty :: _, subjects => .ok (subjects.map fun _ => none, 1)
  | patternIndex, .text pattern :: rest, subjects => do
      matcher.bind pattern
      let subjects ← subjects.mapM
        (replaceBound matcher pattern (replacementAt replacements patternIndex))
      replacePatterns (patternIndex + 1) rest subjects

/-- All patterns one after another, with the empty ones counted. -/
def replaceSequential (patterns : List (RegexInput Pattern)) (subjects : List (Option Text)) :
    Except NativeError (List (Option Text) × Nat) :=
  replacePatterns matcher replacements 0 patterns subjects

/-- The record written for a value. -/
def outputRecord : Option Text → Except NativeError (Option (List UInt8))
  | none => .ok none
  | some value => (matcher.toUtf8 value).map some

/-- One worker: the loop over all subjects, then their records. -/
def serialSequential (patterns : List (RegexInput Pattern)) (subjects : List (Option Text)) :
    Except NativeError (List (Option (List UInt8)) × Nat) := do
  let (values, warnings) ← replaceSequential matcher replacements patterns subjects
  let records ← values.mapM (outputRecord matcher)
  return (records, warnings)

/-! ## On workers -/

/-- A claimed chunk of `run_sequential`. The worker's own state is its warning
slot, which every chunk assigns. -/
def sequentialChunk (patterns : List (RegexInput Pattern)) (subjects : List (Option Text))
    (context : WorkerContext) (slot : Nat) : ActionResult Nat (Option (List UInt8)) NativeError :=
  match replaceSequential matcher replacements patterns (chunkItems subjects context) with
  | .error error => { ending := .throws error, state := slot }
  | .ok (values, warnings) => writeItems (outputRecord matcher) warnings context.begin values

/-- The region: all patterns for the subjects of a chunk. -/
def runSequential (patterns : List (RegexInput Pattern)) (subjects : List (Option Text)) :
    ParallelBody Nat (Option (List UInt8)) NativeError :=
  chunkwise (fun _ => 0) (sequentialChunk matcher replacements patterns subjects) NativeError.text

end Loops

/-! ## One subject alone -/

section Alone

variable (matcher : RegexMatcher Pattern Text) (replacements : List (Option Text))

/-- Where a subject fails when it goes through the patterns alone: the position of
the pattern, or the end of the list when its record cannot be written. -/
def failsAlone : Nat → List (RegexInput Pattern) → Option Text → Option (Nat × NativeError)
  | patternIndex, [] => stageFailure patternIndex (outputRecord matcher) fun _ => none
  | _, .missing :: _ => fun _ => none
  | _, .empty :: _ => fun _ => none
  | patternIndex, .text pattern :: rest =>
      match matcher.bind pattern with
      | .error error => fun _ => some (patternIndex, error)
      | .ok () => stageFailure patternIndex
          (replaceBound matcher pattern (replacementAt replacements patternIndex))
          (failsAlone (patternIndex + 1) rest)

variable {matcher replacements}

/-- A subject fails at the pattern in hand or later. -/
theorem le_failsAlone {patterns : List (RegexInput Pattern)} {patternIndex : Nat}
    {subject : Option Text} {failure : Nat × NativeError}
    (hfails : failsAlone matcher replacements patternIndex patterns subject = some failure) :
    patternIndex ≤ failure.1 := by
  induction patterns generalizing patternIndex subject failure with
  | nil => exact le_stageFailure (fun _ _ hnone => absurd hnone (by simp)) hfails
  | cons input rest ih =>
      cases input with
      | missing => exact absurd hfails (by simp [failsAlone])
      | empty => exact absurd hfails (by simp [failsAlone])
      | text pattern =>
          rw [failsAlone] at hfails
          cases hbind : matcher.bind pattern with
          | error error =>
              rw [hbind] at hfails
              obtain rfl := Option.some.inj hfails
              exact le_rfl
          | ok _ =>
              rw [hbind] at hfails
              exact le_stageFailure (fun _ _ hlater => ih hlater) hfails

theorem earliest_replicate_none {Item : Type} (items : List Item) :
    earliest (items.map fun _ => (none : Option (Nat × NativeError))) = none := by
  rw [earliest_eq_none]
  intro entry hentry
  exact (List.eq_of_mem_map_const hentry)

/-- Missing subjects are written as they are. -/
theorem mapM_outputRecord_missing (subjects : List (Option Text)) :
    (subjects.map fun _ => none).mapM (outputRecord matcher) =
      .ok (subjects.map fun _ => none) := by
  induction subjects with
  | nil => rfl
  | cons subject rest ih =>
      rw [List.map_cons, List.mapM_cons, ih]
      rfl

/-- The loop raises the failure of the lowest pattern, and of the first subject
among those that fail there. -/
theorem raised_replacePatterns (patterns : List (RegexInput Pattern)) (patternIndex : Nat)
    {subjects : List (Option Text)} (hsubjects : subjects ≠ []) :
    raised (do
        let (values, _) ← replacePatterns matcher replacements patternIndex patterns subjects
        values.mapM (outputRecord matcher)) =
      (earliest (subjects.map (failsAlone matcher replacements patternIndex patterns))).map
        fun failure => failure.2.text := by
  induction patterns generalizing patternIndex subjects with
  | nil =>
      rw [failsAlone, earliest_stage fun _ _ hnone => absurd hnone (by simp)]
      change raised (subjects.mapM (outputRecord matcher)) = _
      cases subjects.mapM (outputRecord matcher) with
      | error error => rfl
      | ok records =>
          simp only [earliest_replicate_none]
          rfl
  | cons input rest ih =>
      cases input with
      | missing =>
          rw [failsAlone, earliest_replicate_none]
          change raised ((subjects.map fun _ => none).mapM (outputRecord matcher)) = _
          rw [mapM_outputRecord_missing]
          rfl
      | empty =>
          rw [failsAlone, earliest_replicate_none]
          change raised ((subjects.map fun _ => none).mapM (outputRecord matcher)) = _
          rw [mapM_outputRecord_missing]
          rfl
      | text pattern =>
          rw [failsAlone, replacePatterns]
          -- a pattern that does not compile fails for the first subject already
          cases hbind : matcher.bind pattern with
          | error error =>
              obtain ⟨subject, others, rfl⟩ := List.exists_cons_of_ne_nil hsubjects
              have hfirst : earliest ((subject :: others).map fun _ =>
                  some (patternIndex, error)) = some (patternIndex, error) := by
                apply earliest_of_first (fun _ hmem => absurd hmem List.not_mem_nil)
                intro other hother
                rw [← Option.some.inj (List.eq_of_mem_map_const hother).symm]
              simp only [hfirst]
              rfl
          | ok _ =>
              simp only
              -- else its own failures come before those of all later patterns
              rw [earliest_stage fun _ _ hlater => le_failsAlone hlater]
              cases hvalues : subjects.mapM
                  (replaceBound matcher pattern (replacementAt replacements patternIndex)) with
              | error error => rfl
              | ok values =>
                  have hne : values ≠ [] := by
                    rw [← List.length_pos_iff_ne_nil, length_of_mapM hvalues]
                    exact List.length_pos_iff_ne_nil.mpr hsubjects
                  exact ih (patternIndex + 1) hne

/-- The serial loop fails with the earliest failure of the subjects. -/
theorem raised_serialSequential (patterns : List (RegexInput Pattern))
    {subjects : List (Option Text)} (hsubjects : subjects ≠ []) :
    raised (serialSequential matcher replacements patterns subjects) =
      (earliest (subjects.map (failsAlone matcher replacements 0 patterns))).map
        fun failure => failure.2.text := by
  rw [← raised_replacePatterns patterns 0 hsubjects, serialSequential, replaceSequential]
  cases replacePatterns matcher replacements 0 patterns subjects with
  | error error => rfl
  | ok result =>
      cases hrecords : result.1.mapM (outputRecord matcher) with
      | error error => simp only [hrecords, bind, Except.bind]; rfl
      | ok records => simp only [hrecords, bind, Except.bind]; rfl

end Alone

/-! ## The region -/

section Region

variable (matcher : RegexMatcher Pattern Text) (replacements : List (Option Text))

/-- A chunk ends as the serial operation on its subjects would. -/
theorem sequentialChunk_ending (patterns : List (RegexInput Pattern))
    (subjects : List (Option Text)) (context : WorkerContext) (slot : Nat) :
    (sequentialChunk matcher replacements patterns subjects context slot).ending.map
        NativeError.text =
      taskEnding (raised
        (serialSequential matcher replacements patterns (chunkItems subjects context))) := by
  rw [sequentialChunk, serialSequential]
  cases replaceSequential matcher replacements patterns (chunkItems subjects context) with
  | error error => rfl
  | ok result =>
      simp only [writeItems_ending]
      cases hrecords : result.1.mapM (outputRecord matcher) with
      | error error => simp only [hrecords, bind, Except.bind]; rfl
      | ok records => simp only [hrecords, bind, Except.bind]; rfl

/-- The failure of the subject at `index`, alone. -/
def failureAt (patterns : List (RegexInput Pattern)) (subjects : List (Option Text))
    (index : Nat) : Option (Nat × NativeError) :=
  failsAlone matcher replacements 0 patterns (subjects.getD index none)

/-- The error of the chunk `number`. -/
def chunkError (failure : Nat → Option (Nat × NativeError)) (tasks chunk number : Nat) :
    Option String :=
  (earliest ((chunkRange tasks chunk number).map failure)).map fun failure => failure.2.text

variable {matcher replacements} {patterns : List (RegexInput Pattern)}
  {subjects : List (Option Text)} {chunk : Nat}

/-- A chunk fails with the earliest failure of its subjects. -/
theorem raised_chunk (hchunk : 1 ≤ chunk) {number : Nat}
    (hnumber : number < chunkCount subjects.length chunk) (workers index : Nat) :
    raised (serialSequential matcher replacements patterns
        (chunkItems subjects (heldContext workers subjects.length chunk index number))) =
      chunkError (failureAt matcher replacements patterns subjects) subjects.length chunk
        number := by
  have hbegin := (lt_chunkCount_iff hchunk).mp hnumber
  have hitems := chunkItems_held subjects none hbegin workers index
  have hne : chunkItems subjects (heldContext workers subjects.length chunk index number) ≠ [] := by
    rw [hitems, ne_eq, List.map_eq_nil_iff, chunkRange, List.range'_eq_nil_iff]
    have := chunkBegin_lt_chunkEnd hchunk hbegin
    unfold chunkBegin
    omega
  rw [raised_serialSequential patterns hne, hitems, List.map_map]
  rfl

/-- What a chunk writes depends on neither the slot nor the worker. -/
theorem sequentialChunk_writes (workers index number slot : Nat) :
    (sequentialChunk matcher replacements patterns subjects
        (heldContext workers subjects.length chunk index number) slot).writes =
      (sequentialChunk matcher replacements patterns subjects
        (heldContext 1 subjects.length chunk 0 number) 0).writes := by
  unfold sequentialChunk chunkItems heldContext
  simp only
  cases replaceSequential matcher replacements patterns ((subjects.drop
      (chunkBegin chunk number)).take (chunkEnd subjects.length chunk number -
      chunkBegin chunk number)) with
  | error error => rfl
  | ok result => rfl

/-- The loop keeps the number of subjects. -/
theorem length_replacePatterns {rest : List (RegexInput Pattern)} {patternIndex : Nat}
    {values result : List (Option Text)} {warnings : Nat}
    (hloop : replacePatterns matcher replacements patternIndex rest values =
      .ok (result, warnings)) : result.length = values.length := by
  induction rest generalizing patternIndex values with
  | nil =>
      obtain ⟨rfl, -⟩ := Prod.mk.inj (Except.ok.inj hloop)
      rfl
  | cons input rest ih =>
      cases input with
      | missing =>
          obtain ⟨rfl, -⟩ := Prod.mk.inj (Except.ok.inj hloop)
          exact List.length_map _
      | empty =>
          obtain ⟨rfl, -⟩ := Prod.mk.inj (Except.ok.inj hloop)
          exact List.length_map _
      | text pattern =>
          obtain ⟨_, -, hbound⟩ := except_bind_ok hloop
          obtain ⟨replaced, hreplaced, hlater⟩ := except_bind_ok hbound
          exact (ih hlater).trans (length_of_mapM hreplaced)

/-- A chunk that runs through writes once for each of its tasks. -/
theorem map_fst_sequentialChunk (hchunk : 1 ≤ chunk) {number : Nat}
    (hnumber : number < chunkCount subjects.length chunk)
    (hends : taskEnding (chunkError (failureAt matcher replacements patterns subjects)
      subjects.length chunk number) = .next) :
    (sequentialChunk matcher replacements patterns subjects
        (heldContext 1 subjects.length chunk 0 number) 0).writes.map Prod.fst =
      chunkRange subjects.length chunk number := by
  have hbegin := (lt_chunkCount_iff hchunk).mp hnumber
  have hending := sequentialChunk_ending matcher replacements patterns subjects
    (heldContext 1 subjects.length chunk 0 number) 0
  rw [raised_chunk hchunk hnumber, hends] at hending
  have hitems := chunkItems_held subjects none hbegin 1 0
  unfold sequentialChunk at hending ⊢
  cases hloop : replaceSequential matcher replacements patterns
      (chunkItems subjects (heldContext 1 subjects.length chunk 0 number)) with
  | error error =>
      rw [hloop] at hending
      exact absurd hending (by simp [Ending.map])
  | ok result =>
      rw [hloop] at hending
      simp only [writeItems_ending] at hending ⊢
      cases hrecords : result.1.mapM (outputRecord matcher) with
      | error error =>
          rw [hrecords] at hending
          exact absurd hending (by simp [Ending.map])
      | ok records =>
          have hlength : records.length = (chunkRange subjects.length chunk number).length := by
            rw [length_of_mapM hrecords, length_replacePatterns hloop, hitems, List.length_map]
          rw [writeItems_writes _ hrecords, List.map_fst_zip (by rw [List.length_range']), hlength,
            chunkRange, List.length_range']
          rfl

/-- The region claims chunks that end and write as the loop does on their subjects. -/
theorem runSequentialSpec (hchunk : 1 ≤ chunk) (workers : Nat) :
    BodySpec (runSequential matcher replacements patterns subjects) workers subjects.length chunk
      (fun _ _ _ => True)
      (ChunkPost NativeError.text
        (fun number => taskEnding (chunkError (failureAt matcher replacements patterns subjects)
          subjects.length chunk number))
        fun number => (sequentialChunk matcher replacements patterns subjects
          (heldContext 1 subjects.length chunk 0 number) 0).writes) := by
  apply chunkwiseSpec
  · intro index _
    trivial
  · intro index _ finished number slot hnumber _ _
    refine ⟨?_, ?_, trivial⟩
    · rw [sequentialChunk_ending, raised_chunk hchunk hnumber]
    · exact sequentialChunk_writes ..

end Region

/-! ## Two orders -/

section Orders

variable {failure : Nat → Option (Nat × NativeError)} {tasks chunk : Nat}

/-- The failure that comes first by pattern is not in the lowest chunk that fails,
and the one that comes first there has another text. -/
def Reordered (failure : Nat → Option (Nat × NativeError)) (tasks chunk : Nat) : Prop :=
  ∃ leader reported lead report,
    Leads failure (· < tasks) leader lead ∧
    Leads failure (fun other => other < tasks ∧ other / chunk = reported / chunk) reported report ∧
    (∀ other < tasks, other / chunk < reported / chunk → failure other = none) ∧
    reported / chunk < leader / chunk ∧ lead.2.text ≠ report.2.text

/-- The earliest failure of all subjects leads. -/
theorem leads_of_earliest_range {lead : Nat × NativeError}
    (hlead : earliest ((List.range tasks).map failure) = some lead) :
    ∃ leader, Leads failure (· < tasks) leader lead := by
  rw [List.range_eq_range'] at hlead
  obtain ⟨leader, hleads⟩ := leads_of_earliest hlead
  refine ⟨leader, ?_⟩
  simpa [Leads] using hleads

/-- The earliest failure of a chunk leads there. -/
theorem leads_of_earliest_chunk (hchunk : 1 ≤ chunk) {number : Nat} {report : Nat × NativeError}
    (hreport : earliest ((chunkRange tasks chunk number).map failure) = some report) :
    ∃ reported, reported / chunk = number ∧
      Leads failure (fun other => other < tasks ∧ other / chunk = reported / chunk) reported
        report := by
  obtain ⟨reported, hmem, hfailure, hfirst⟩ := leads_of_earliest hreport
  obtain ⟨hlt, rfl⟩ := (mem_chunkRange hchunk).mp hmem
  refine ⟨reported, rfl, ⟨hlt, rfl⟩, hfailure, ?_⟩
  intro other later hother
  exact hfirst other later ((mem_chunkRange hchunk).mpr hother)

/-- A chunk goes well if its subjects do. -/
theorem chunkError_eq_none {number : Nat} (hchunk : 1 ≤ chunk) :
    chunkError failure tasks chunk number = none ↔
      ∀ other < tasks, other / chunk = number → failure other = none := by
  rw [chunkError, Option.map_eq_none_iff, earliest_eq_none, List.forall_mem_map]
  constructor
  · intro hnone other hother hnumber
    exact hnone other ((mem_chunkRange hchunk).mpr ⟨hother, hnumber⟩)
  · intro hnone other hother
    obtain ⟨hlt, hnumber⟩ := (mem_chunkRange hchunk).mp hother
    exact hnone other hlt hnumber

/-- The two failures have one text unless they are reordered. -/
theorem text_eq_iff {leader reported : Nat} {lead report : Nat × NativeError}
    (hleader : Leads failure (· < tasks) leader lead)
    (hreported : Leads failure (fun other => other < tasks ∧ other / chunk = reported / chunk)
      reported report)
    (hclean : ∀ other < tasks, other / chunk < reported / chunk → failure other = none) :
    report.2.text = lead.2.text ↔ ¬ Reordered failure tasks chunk := by
  constructor
  · rintro htext ⟨leader', reported', lead', report', hleader', hreported', hclean', -, hdiffers⟩
    obtain ⟨-, rfl⟩ := hleader.eq_of_among hleader' hleader.1 hleader'.1
    -- neither of the two chunks is below the other
    have hsame : reported' / chunk = reported / chunk := by
      apply le_antisymm
      · by_contra hlower
        have hnone := hclean' reported hreported.1.1 (Nat.not_le.mp hlower)
        exact absurd (hreported.2.1.symm.trans hnone) (by simp)
      · by_contra hlower
        have hnone := hclean reported' hreported'.1.1 (Nat.not_le.mp hlower)
        exact absurd (hreported'.2.1.symm.trans hnone) (by simp)
    obtain ⟨-, rfl⟩ := hreported.eq_of_among hreported' ⟨hreported.1.1, hsame.symm⟩
      ⟨hreported'.1.1, hsame⟩
    exact hdiffers htext.symm
  · intro hnot
    rcases Nat.lt_trichotomy (reported / chunk) (leader / chunk) with hlower | hsame | hhigher
    · by_contra hdiffers
      exact hnot ⟨leader, reported, lead, report, hleader, hreported, hclean, hlower,
        fun htext => hdiffers htext.symm⟩
    · obtain ⟨-, rfl⟩ := hleader.eq_of_among hreported ⟨hleader.1, hsame.symm⟩ hreported.1.1
      rfl
    · have hnone := hclean leader hleader.1 hhigher
      exact absurd (hleader.2.1.symm.trans hnone) (by simp)

variable (failure tasks) in
/-- The first failing chunk tells that there is a failure, and which comes first
by pattern unless it is reordered. -/
theorem findSome_chunkError (hchunk : 1 ≤ chunk) :
    let reported := (List.range (chunkCount tasks chunk)).findSome?
      (fun number => (taskEnding (chunkError failure tasks chunk number)).error)
    let serial := (earliest ((List.range tasks).map failure)).map fun failure => failure.2.text
    reported.isSome = serial.isSome ∧ (reported = serial ↔ ¬ Reordered failure tasks chunk) := by
  intro reported serial
  rcases first_throws_cases fun number (_ : number < chunkCount tasks chunk) =>
      taskEnding_ne_stopsEarly (chunkError failure tasks chunk number) with
    hall | ⟨number, message, hnumber, hbelow, hthrows⟩
  · have hnone : ∀ other < tasks, failure other = none := by
      intro other hother
      have hheld := (lt_chunkCount_iff hchunk).mpr
        ((Nat.div_mul_le_self other chunk).trans_lt hother)
      exact (chunkError_eq_none hchunk).mp (taskEnding_eq_next.mp (hall _ hheld)) other hother rfl
    have hserial : serial = none := by
      rw [Option.map_eq_none_iff, earliest_eq_none, List.forall_mem_map]
      intro other hother
      exact hnone other (List.mem_range.mp hother)
    have hreported : reported = none := findSome_error_of_next hall
    rw [hserial, hreported]
    refine ⟨rfl, fun _ => ?_, fun _ => rfl⟩
    rintro ⟨leader, -, lead, -, ⟨hlt, hlead, -⟩, -⟩
    exact absurd (hlead.symm.trans (hnone leader hlt)) (by simp)
  · have hmessage : chunkError failure tasks chunk number = some message := by
      rw [← taskEnding_error (chunkError failure tasks chunk number), hthrows]
      rfl
    obtain ⟨report, hreport, rfl⟩ := Option.map_eq_some_iff.mp hmessage
    obtain ⟨first, rfl, hfirst⟩ := leads_of_earliest_chunk hchunk hreport
    have hclean : ∀ other < tasks, other / chunk < first / chunk → failure other = none := by
      intro other hother hlower
      exact (chunkError_eq_none hchunk).mp (taskEnding_eq_next.mp (hbelow _ hlower)) other hother
        rfl
    have hreported : reported = some report.2.text :=
      findSome_error_of_first hnumber hbelow hthrows
    cases hserial : earliest ((List.range tasks).map failure) with
    | none =>
        have hnone := earliest_eq_none.mp hserial _
          (List.mem_map_of_mem (List.mem_range.mpr hfirst.1.1))
        exact absurd (hfirst.2.1.symm.trans hnone) (by simp)
    | some lead =>
        obtain ⟨leader, hleader⟩ := leads_of_earliest_range hserial
        simp only [serial, hserial, hreported, Option.map_some, Option.isSome_some,
          Option.some.injEq, true_and]
        exact text_eq_iff hleader hfirst hclean

end Orders

section Outcome

variable (matcher : RegexMatcher Pattern Text) (replacements : List (Option Text))
  (patterns : List (RegexInput Pattern)) (subjects : List (Option Text))

variable {matcher} in
/-- Where every record can be written, the serial error is that of the loop. -/
theorem raised_serialSequential_eq (hutf8 : ∀ text, ∃ bytes, matcher.toUtf8 text = .ok bytes) :
    raised (serialSequential matcher replacements patterns subjects) =
      raised (replaceSequential matcher replacements patterns subjects) := by
  have hrecord : ∀ value, ∃ record, outputRecord matcher value = .ok record := by
    intro value
    cases value with
    | none => exact ⟨none, rfl⟩
    | some text =>
        obtain ⟨bytes, hbytes⟩ := hutf8 text
        exact ⟨some bytes, by rw [outputRecord, hbytes]; rfl⟩
  have hrecords : ∀ values : List (Option Text), ∃ records,
      values.mapM (outputRecord matcher) = .ok records := by
    intro values
    induction values with
    | nil => exact ⟨[], rfl⟩
    | cons value rest ih =>
        obtain ⟨record, hvalue⟩ := hrecord value
        obtain ⟨records, hrest⟩ := ih
        exact ⟨record :: records, by rw [List.mapM_cons, hvalue, hrest]; rfl⟩
  rw [serialSequential]
  cases replaceSequential matcher replacements patterns subjects with
  | error error => rfl
  | ok result =>
      obtain ⟨records, hwritten⟩ := hrecords result.1
      simp only [bind, Except.bind, hwritten]
      rfl

/-- The region raises an error exactly when the serial operation does, and it is
the serial error exactly when the first failure by pattern is not reordered. -/
theorem runSequential_message_iff (hsubjects : subjects ≠ []) (plan : ParallelPlan)
    (schedule : List Nat) :
    ((∀ index < regionWorkers plan subjects.length,
        scheduleBound plan subjects.length < schedule.count index) →
      (runParallel plan subjects.length (runSequential matcher replacements patterns subjects)
        (fun _ => none) schedule).isSome = true) ∧
    (∀ regionEnd, runParallel plan subjects.length
        (runSequential matcher replacements patterns subjects) (fun _ => none) schedule =
          some regionEnd →
      let threaded := regionEnd.outcome.message NativeError.text
      let serial := raised (serialSequential matcher replacements patterns subjects)
      threaded.isSome = serial.isSome ∧
        (threaded = serial ↔ ¬ Reordered (failureAt matcher replacements patterns subjects)
          subjects.length (regionChunk plan))) ∧
    ((∀ text, ∃ bytes, matcher.toUtf8 text = .ok bytes) →
      raised (serialSequential matcher replacements patterns subjects) =
        raised (replaceSequential matcher replacements patterns subjects)) := by
  refine ⟨runRegion_isSome_of_fair plan _ _ _ false schedule, ?_,
    raised_serialSequential_eq replacements patterns subjects⟩
  intro regionEnd hrun threaded serial
  obtain ⟨hdone, houtcome, -⟩ := completed_of_runRegion
    (runSequentialSpec (one_le_regionChunk plan) _) (fun number ending entries hpost => hpost.1)
    hrun
  have hthreaded : threaded = _ := (congrArg (Outcome.message NativeError.text) houtcome).trans
    (hdone.conclude_message fun number _ => taskEnding_ne_stopsEarly _).1
  have hserial : serial = _ := raised_serialSequential patterns hsubjects
  have hall : subjects.map (failsAlone matcher replacements 0 patterns) =
      (List.range subjects.length).map (failureAt matcher replacements patterns subjects) := by
    conv_lhs => rw [← map_range_getD subjects none, List.map_map]
    rfl
  rw [hthreaded, hserial, hall]
  exact findSome_chunkError _ _ (one_le_regionChunk plan)

end Outcome

/-! ## One letter as the pattern -/

/-- The error of a reference to a group that the pattern does not have. -/
def indexOutOfBounds : NativeError :=
  .striException "Trying to access the index that is out of bounds. (U_INDEX_OUTOFBOUNDS_ERROR)"

/-- The error of a reference to a name that the pattern does not have. -/
def invalidGroupName : NativeError :=
  .striException "Invalid capture group name. (U_REGEX_INVALID_CAPTURE_GROUP_NAME)"

/-- A pattern of one letter has no groups, so a reference to one fails where the
letter is found. -/
def letterMatcher : RegexMatcher Char (List Char) where
  bind _ := .ok ()
  replace letter subject replacement :=
    if letter ∈ subject then
      match replacement with
      | none => .ok none
      | some ['$', '1'] => .error indexOutOfBounds
      | some ['$', 'x'] => .error invalidGroupName
      | some text => .ok (some (subject.flatMap fun char => if char = letter then text else [char]))
    else .ok (some subject)
  toUtf8 text := .ok (text.map fun char => char.val.toUInt8)

/-- Two workers on two subjects, of which the first fails at the first pattern. -/
theorem runSequential_reports_first_pattern :
    ∃ regionEnd, runParallel ⟨2, 1⟩ 2
        (runSequential letterMatcher [some ['$', '1'], some ['$', 'x']] [.text 'a', .text 'b']
          [some ['a'], some ['b']]) (fun _ => none) ((List.range 40).map (· % 2)) =
        some regionEnd ∧
      regionEnd.outcome.message NativeError.text = some indexOutOfBounds.text := by
  obtain ⟨hfair, hmessage, -⟩ := runSequential_message_iff letterMatcher
    [some ['$', '1'], some ['$', 'x']] [.text 'a', .text 'b'] [some ['a'], some ['b']]
    (by simp) ⟨2, 1⟩ ((List.range 40).map (· % 2))
  obtain ⟨regionEnd, hrun⟩ := Option.isSome_iff_exists.mp (hfair (by decide))
  refine ⟨regionEnd, hrun, ((hmessage regionEnd hrun).2.mpr ?_).trans (by decide)⟩
  rintro ⟨leader, reported, lead, report, hleader, -, -, hlower, -⟩
  have hfirst := hleader.2.2 0 (0, indexOutOfBounds) (by decide) (by decide)
  obtain rfl : leader = 0 := by omega
  exact absurd hlower (by simp)

/-- The first subject fails at the second pattern, the second at the first. -/
theorem runSequential_reports_second_pattern :
    let replacements := [some ['$', '1'], some ['$', 'x']]
    let patterns : List (RegexInput Char) := [.text 'a', .text 'b']
    let subjects := [some ['b'], some ['a']]
    (runParallel ⟨2, 1⟩ 2 (runSequential letterMatcher replacements patterns subjects)
        (fun _ => none) [0, 1, 0, 1, 0, 1, 0, 1, 0, 1, 0, 1]).map
          (fun regionEnd => regionEnd.outcome.message NativeError.text) =
        some (some invalidGroupName.text) ∧
      raised (replaceSequential letterMatcher replacements patterns subjects) =
        some indexOutOfBounds.text ∧
      some invalidGroupName.text ≠ some indexOutOfBounds.text := by
  decide

end Charr.Regex
