import Charr.FixedSearch.Vectorized

/-!
# Counting and detecting fixed patterns

The two operations on vectors, and that neither depends on the thread settings:
the records below the first one that needs the general path get the direct
kernel's values, all others the general kernel's, whoever computes them.
-/

namespace Charr.FixedSearch

open Parallel
open Utf8 (CodePoint)

namespace VectorSearch

variable {Counter Local : Type} {search : VectorSearch Counter Local} {invariant : Local → Prop}
  {direct : UInt8 → StringView → Option Int}
  {general : FixedSearchOptions → StringView → StringView → Int}

/-! ## The result of both phases -/

section Result

variable (direct general) (converter : NativeToUtf8) (subjects patterns : List StringView)
  (options : FixedSearchOptions)

/-- Where the general path starts: at the first record the direct phase cannot
read, or at once without a direct pattern. -/
def generalFrom : Option Nat :=
  match directAsciiPattern patterns options with
  | none => some 0
  | some byte => firstIneligible direct subjects byte

/-- What the direct region writes for an element, if it takes it. -/
def directOutput (index : Nat) : Option Int :=
  (directAsciiPattern patterns options).bind fun byte => directValue direct subjects byte index

/-- What the operation returns, without workers and schedules. -/
def expected : Except String SearchResult :=
  let (vectorizeLength, recyclingWarning) := recyclingLength subjects.length patterns.length
  if vectorizeLength > 0 then
    match generalFrom direct subjects patterns options with
    | none =>
        .ok ⟨vectorizeLength, fun index => if index < vectorizeLength then
          directOutput direct subjects patterns options index else none, recyclingWarning, 0⟩
    | some start =>
        match normalizeViews converter ⟨0⟩ subjects, normalizeViews converter ⟨0⟩ patterns with
        | .error error, _ => .error error.text
        | .ok _, .error error => .error error.text
        | .ok normalized, .ok normalizedPatterns =>
            .ok ⟨vectorizeLength, fun index =>
              if start ≤ index ∧ index < vectorizeLength then
                some (generalValue general options normalized normalizedPatterns index)
              else if index < start then directOutput direct subjects patterns options index
              else none,
              recyclingWarning, countEmptyPatterns normalizedPatterns⟩
  else .ok ⟨vectorizeLength, fun _ => none, recyclingWarning, 0⟩

variable {direct general converter subjects patterns options}

theorem scalar_of_directAsciiPattern {byte : UInt8}
    (hbyte : directAsciiPattern patterns options = some byte) : patterns.length = 1 := by
  unfold directAsciiPattern at hbyte
  split at hbyte
  next => exact absurd hbyte (by simp)
  next hscalar =>
    by_contra hlength
    exact hscalar (.inr (.inr hlength))

/-- A result is as long as the longer vector. -/
theorem recyclingLength_spec {first second vectorizeLength : Nat} {warning : Bool}
    (heq : recyclingLength first second = (vectorizeLength, warning))
    (hpos : vectorizeLength > 0) :
    first ≤ vectorizeLength ∧ 1 ≤ second ∧ second ≤ vectorizeLength ∧
      (second = 1 → vectorizeLength = first) := by
  unfold recyclingLength at heq
  split at heq
  next =>
    obtain ⟨rfl, -⟩ := Prod.mk.inj heq
    omega
  next =>
    obtain ⟨rfl, -⟩ := Prod.mk.inj heq
    split <;> omega

/-- With a single pattern the plan is made for the records the direct region works on. -/
theorem regionWorkers_scalar (settings : Settings) (parallel : Bool)
    {first second vectorizeLength : Nat} (hscalar : second = 1 → vectorizeLength = first)
    (hsingle : second = 1) :
    regionWorkers (parallelPlan settings parallel
        (if second = 1 then vectorizeLength else second)) first =
      (parallelPlan settings parallel
        (if second = 1 then vectorizeLength else second)).workers := by
  rw [if_pos hsingle, hscalar hsingle]
  exact regionWorkers_parallelPlan settings parallel first

/-- Where the direct phase ends, on one worker or on several. -/
structure Reached (search : VectorSearch Counter Local)
    (direct : UInt8 → StringView → Option Int) (subjects patterns : List StringView)
    (options : FixedSearchOptions) (reached : DirectPrefix Counter) : Prop where
  direct_eq : reached.direct = (generalFrom direct subjects patterns options).isNone
  start_eq : reached.generalStart = (generalFrom direct subjects patterns options).getD 0
  counter_eq : reached.counter = search.counter
  below : ∀ index < (generalFrom direct subjects patterns options).getD subjects.length,
    reached.memory index = directOutput direct subjects patterns options index
  above : ∀ index, subjects.length ≤ index → reached.memory index = none

/-- The direct phase stopped at the first record it could not read. -/
theorem reached_of_byte {byte : UInt8} (hbyte : directAsciiPattern patterns options = some byte)
    {memory : Nat → Option Int}
    (hbelow : ∀ index < (firstIneligible direct subjects byte).getD subjects.length,
      memory index = directValue direct subjects byte index)
    (habove : ∀ index, subjects.length ≤ index → memory index = none) :
    Reached search direct subjects patterns options
      ⟨(firstIneligible direct subjects byte).isNone,
        (firstIneligible direct subjects byte).getD 0, search.counter, memory⟩ := by
  have hfrom : generalFrom direct subjects patterns options =
      firstIneligible direct subjects byte := by
    simp only [generalFrom, hbyte]
  refine ⟨by rw [hfrom], by rw [hfrom], rfl, ?_, habove⟩
  intro index hindex
  rw [hfrom] at hindex
  simp only [directOutput, hbyte, Option.bind_some]
  exact hbelow index hindex

/-- Records behind the vector are behind the first one that cannot be read. -/
theorem firstIneligible_getD_le {byte : UInt8} :
    (firstIneligible direct subjects byte).getD subjects.length ≤ subjects.length := by
  cases hstop : firstIneligible direct subjects byte with
  | none => exact le_rfl
  | some first => exact (firstIneligible_eq_some hstop).1.le

/-- The direct phase reaches a prefix, and what it has written there is right. -/
theorem directPhase_spec (hlawful : search.Lawful invariant direct general)
    {plan : ParallelPlan} {schedule : List Nat} {result : Except String (DirectPrefix Counter)}
    (hworkers : patterns.length = 1 → regionWorkers plan subjects.length = plan.workers)
    (hphase : search.directPhase plan subjects patterns options schedule = some result) :
    ∃ reached, result = .ok reached ∧ Reached search direct subjects patterns options reached := by
  unfold directPhase at hphase
  cases hbyte : directAsciiPattern patterns options with
  | none =>
      simp only [hbyte, Option.some.injEq] at hphase
      refine ⟨_, hphase.symm, ?_⟩
      have hfrom : generalFrom direct subjects patterns options = some 0 := by
        simp only [generalFrom, hbyte]
      refine ⟨by rw [hfrom]; rfl, by rw [hfrom]; rfl, rfl, ?_, fun _ _ => rfl⟩
      rw [hfrom]
      intro index hindex
      exact absurd hindex (Nat.not_lt_zero index)
  | some byte =>
      simp only [hbyte] at hphase
      split at hphase
      next =>
        -- the region: its lowest parked index is where a scan would have stopped
        cases hrun : runParallel plan subjects.length (search.directRegion subjects byte)
            (fun _ => none) schedule with
        | none => simp [hrun] at hphase
        | some regionEnd =>
            obtain ⟨hreturned, hlowest, hbelow, habove⟩ := directRegion_spec hlawful hrun
            rw [hworkers (scalar_of_directAsciiPattern hbyte)] at hlowest
            simp only [hrun, Option.bind_eq_bind, Option.bind_some, hreturned, Outcome.message,
              hlowest, pure, Option.some.injEq] at hphase
            have hreached := @reached_of_byte _ _ search direct _ _ _ _ hbyte
              regionEnd.final.shared.result (fun index hindex => (hbelow index hindex).2) habove
            refine ⟨_, hphase.symm, ?_⟩
            cases hfirst : firstIneligible direct subjects byte with
            | none =>
                rw [hfirst] at hreached
                simpa using hreached
            | some first =>
                rw [hfirst] at hreached
                have hne := hlawful.unset_ne (firstIneligible_eq_some hfirst).1
                simpa [hne] using hreached
      next =>
        rw [List.range_eq_range', directScan_eq hlawful, Nat.zero_add] at hphase
        have hfirst : (List.range' 0 subjects.length).find? (rejects direct subjects byte) =
            firstIneligible direct subjects byte := by
          rw [firstIneligible, List.range_eq_range']
        rw [hfirst] at hphase
        have hreached := @reached_of_byte _ _ search direct _ _ _ _ hbyte
          (fun index => if 0 ≤ index ∧ index < (firstIneligible direct subjects byte).getD
            subjects.length then directValue direct subjects byte index else none)
          (fun index hindex => if_pos ⟨Nat.zero_le _, hindex⟩)
          (fun index hindex => if_neg fun hinside =>
            Nat.not_lt.mpr (firstIneligible_getD_le.trans hindex) hinside.2)
        cases hstop : firstIneligible direct subjects byte with
        | none =>
            rw [hstop] at hphase hreached
            exact ⟨_, (Option.some.inj hphase).symm, hreached⟩
        | some first =>
            rw [hstop] at hphase hreached
            exact ⟨_, (Option.some.inj hphase).symm, hreached⟩

/-- The general path after a direct phase. -/
theorem generalPhase_spec (hlawful : search.Lawful invariant direct general)
    {plan : ParallelPlan} {tasks vectorizeLength : Nat} {recyclingWarning : Bool}
    {reached : DirectPrefix Counter} {schedule : List Nat} {start : Nat}
    {result : Except String SearchResult}
    (hreached : Reached search direct subjects patterns options reached)
    (hstart : generalFrom direct subjects patterns options = some start)
    (hlength : subjects.length ≤ vectorizeLength)
    (htasks : if patterns.length = 1 then tasks = vectorizeLength
      else tasks = patterns.length ∧ 1 ≤ patterns.length ∧ patterns.length ≤ vectorizeLength)
    (hphase : search.generalPhase converter plan tasks vectorizeLength recyclingWarning subjects
      patterns options reached schedule = some result) :
    result =
      match normalizeViews converter ⟨0⟩ subjects, normalizeViews converter ⟨0⟩ patterns with
      | .error error, _ => .error error.text
      | .ok _, .error error => .error error.text
      | .ok normalized, .ok normalizedPatterns =>
          .ok ⟨vectorizeLength, fun index =>
            if start ≤ index ∧ index < vectorizeLength then
              some (generalValue general options normalized normalizedPatterns index)
            else if index < start then directOutput direct subjects patterns options index
            else none,
            recyclingWarning, countEmptyPatterns normalizedPatterns⟩ := by
  unfold generalPhase at hphase
  cases hsubjects : normalizeViews converter ⟨0⟩ subjects with
  | error error =>
      simp only [hsubjects, Option.some.injEq] at hphase
      exact hphase.symm
  | ok normalized =>
      cases hpatterns : normalizeViews converter ⟨0⟩ patterns with
      | error error =>
          simp only [hsubjects, hpatterns, Option.some.injEq] at hphase
          exact hphase.symm
      | ok normalizedPatterns =>
          obtain ⟨-, hnormal⟩ := normalizeViews_spec hsubjects
          obtain ⟨hcount, hnormalPatterns⟩ := normalizeViews_spec hpatterns
          have hgeneral : reached.generalStart = start := by
            rw [hreached.start_eq, hstart]
            rfl
          -- Only a scalar pattern has a direct phase to start behind.
          have hscalar : normalizedPatterns.length ≠ 1 → start = 0 := by
            intro hne
            rw [hcount] at hne
            cases hbyte : directAsciiPattern patterns options with
            | some byte => exact absurd (scalar_of_directAsciiPattern hbyte) hne
            | none =>
                simp only [generalFrom, hbyte, Option.some.injEq] at hstart
                exact hstart.symm
          simp only [hsubjects, hpatterns, hgeneral, hreached.counter_eq] at hphase
          cases hrun : runParallel plan tasks (search.generalRegion options normalized
              normalizedPatterns vectorizeLength start search.counter) reached.memory
              schedule with
          | none => simp [hrun] at hphase
          | some regionEnd =>
              obtain ⟨hreturned, houtput⟩ := generalRegion_spec hlawful hnormal hnormalPatterns
                hscalar (hcount ▸ htasks) hrun
              simp only [hrun, Option.bind_eq_bind, Option.bind_some, hreturned,
                Outcome.message, pure, Option.some.injEq] at hphase
              rw [← hphase]
              congr 2
              funext index
              rw [houtput index]
              split
              next => rfl
              next houtside =>
                split
                next hbelow => exact hreached.below index (by rw [hstart]; exact hbelow)
                next => exact hreached.above index (by omega)

/-- The operation returns the same result for all settings and schedules. -/
theorem run_eq (hlawful : search.Lawful invariant direct general) {settings : Settings}
    {directSchedule generalSchedule : List Nat} {result : Except String SearchResult}
    (hrun : search.run converter settings subjects patterns options directSchedule
      generalSchedule = some result) :
    result = expected direct general converter subjects patterns options := by
  unfold run at hrun
  unfold expected
  generalize hrecycled : recyclingLength subjects.length patterns.length = recycled at hrun ⊢
  obtain ⟨vectorizeLength, warning⟩ := recycled
  simp only at hrun ⊢
  split at hrun
  next hpos =>
    obtain ⟨hsubjects, hone, hpatterns, hscalar⟩ := recyclingLength_spec hrecycled hpos
    rw [if_pos hpos]
    have hworkers := regionWorkers_scalar settings search.parallel hscalar
    generalize hplan : parallelPlan settings search.parallel
      (if patterns.length = 1 then vectorizeLength else patterns.length) = plan at hrun hworkers
    cases hphase : search.directPhase plan subjects patterns options directSchedule with
    | none => simp [hphase] at hrun
    | some phase =>
        obtain ⟨reached, rfl, hreached⟩ := directPhase_spec hlawful hworkers hphase
        simp only [hphase, Option.bind_eq_bind, Option.bind_some, hreached.direct_eq] at hrun
        -- the direct kernel took all records, or the general path goes on behind some
        cases hfrom : generalFrom direct subjects patterns options with
        | none =>
            simp only [hfrom, Option.isNone_none, if_true, pure, Option.some.injEq] at hrun
            rw [← hrun]
            have hsingle : patterns.length = 1 := by
              cases hbyte : directAsciiPattern patterns options with
              | none => simp [generalFrom, hbyte] at hfrom
              | some byte => exact scalar_of_directAsciiPattern hbyte
            congr 2
            funext index
            rw [hscalar hsingle]
            split
            next hindex => exact hreached.below index (by rw [hfrom]; exact hindex)
            next hindex => exact hreached.above index (Nat.not_lt.mp hindex)
        | some start =>
            simp only [hfrom, Option.isNone_some, Bool.false_eq_true, if_false] at hrun
            refine generalPhase_spec hlawful hreached hfrom hsubjects ?_ hrun
            split
            next => rfl
            next => exact ⟨rfl, hone, hpatterns⟩
  next hzero =>
    rw [if_neg hzero]
    exact (Option.some.inj hrun).symm

/-- The direct phase has an output for each record it read. -/
theorem directOutput_isSome {index : Nat}
    (hindex : index < (generalFrom direct subjects patterns options).getD subjects.length) :
    (directOutput direct subjects patterns options index).isSome = true := by
  unfold generalFrom at hindex
  unfold directOutput
  cases hbyte : directAsciiPattern patterns options with
  | none =>
      rw [hbyte] at hindex
      exact absurd hindex (Nat.not_lt_zero index)
  | some byte =>
      rw [hbyte] at hindex
      have haccepts := (eligible_below hindex).2 index le_rfl
      simpa [rejects] using haccepts

/-- No slot of the result is left unwritten. -/
theorem expected_written {found : SearchResult}
    (hfound : expected direct general converter subjects patterns options = .ok found) :
    ∀ index < found.length, (found.output index).isSome = true := by
  unfold expected at hfound
  generalize hrecycled : recyclingLength subjects.length patterns.length = recycled at hfound
  obtain ⟨vectorizeLength, warning⟩ := recycled
  simp only at hfound
  split at hfound
  next hpos =>
    obtain ⟨-, -, -, hscalar⟩ := recyclingLength_spec hrecycled hpos
    split at hfound
    next hfrom =>
      obtain rfl := Except.ok.inj hfound
      have hsingle : patterns.length = 1 := by
        cases hbyte : directAsciiPattern patterns options with
        | none => simp [generalFrom, hbyte] at hfrom
        | some byte => exact scalar_of_directAsciiPattern hbyte
      intro index hindex
      simp only at hindex ⊢
      rw [if_pos hindex]
      rw [hscalar hsingle] at hindex
      exact directOutput_isSome (by rw [hfrom]; exact hindex)
    next start hfrom =>
      split at hfound
      next => exact absurd hfound (by simp)
      next => exact absurd hfound (by simp)
      next =>
        obtain rfl := Except.ok.inj hfound
        intro index hindex
        simp only at hindex ⊢
        split
        next => rfl
        next houtside =>
          have hbelow : index < start := by omega
          rw [if_pos hbelow]
          exact directOutput_isSome (by rw [hfrom]; exact hbelow)
  next hzero =>
    obtain rfl := Except.ok.inj hfound
    intro index hindex
    simp only at hindex
    omega

/-- Enough turns for every worker of the operation's regions. -/
def FairFor (search : VectorSearch Counter Local) (settings : Settings)
    (subjects patterns : List StringView) (schedule : List Nat) : Prop :=
  let tasks := if patterns.length = 1 then (recyclingLength subjects.length patterns.length).1
    else patterns.length
  let plan := parallelPlan settings search.parallel tasks
  ∀ index < regionWorkers plan tasks, scheduleBound plan tasks < schedule.count index

/-- The direct phase ends when its region does. -/
theorem directPhase_isSome (search : VectorSearch Counter Local) {plan : ParallelPlan}
    {schedule : List Nat}
    (hfair : patterns.length = 1 → ∀ index < regionWorkers plan subjects.length,
      scheduleBound plan subjects.length < schedule.count index) :
    (search.directPhase plan subjects patterns options schedule).isSome = true := by
  unfold directPhase
  cases hbyte : directAsciiPattern patterns options with
  | none => rfl
  | some byte =>
      simp only
      split
      next =>
        obtain ⟨regionEnd, hrun⟩ := Option.isSome_iff_exists.mp
          (runRegion_isSome_of_fair plan subjects.length (search.directRegion subjects byte)
            (fun _ => none) false schedule (hfair (scalar_of_directAsciiPattern hbyte)))
        rw [runParallel, hrun]
        simp only [Option.bind_eq_bind, Option.bind_some]
        split <;> rfl
      next => split <;> rfl

/-- A fair schedule lets the general phase end. -/
theorem generalPhase_isSome (search : VectorSearch Counter Local) {plan : ParallelPlan}
    {tasks vectorizeLength : Nat} {recyclingWarning : Bool} {reached : DirectPrefix Counter}
    {schedule : List Nat}
    (hfair : ∀ index < regionWorkers plan tasks,
      scheduleBound plan tasks < schedule.count index) :
    (search.generalPhase converter plan tasks vectorizeLength recyclingWarning subjects patterns
      options reached schedule).isSome = true := by
  unfold generalPhase
  split
  next => rfl
  next => rfl
  next normalized normalizedPatterns _ _ =>
    obtain ⟨regionEnd, hrun⟩ := Option.isSome_iff_exists.mp
      (runRegion_isSome_of_fair plan tasks (search.generalRegion options normalized
        normalizedPatterns vectorizeLength reached.generalStart reached.counter)
        reached.memory false schedule hfair)
    rw [runParallel, hrun]
    simp only [Option.bind_eq_bind, Option.bind_some]
    split <;> rfl

/-- Fair schedules let both phases end. -/
theorem run_isSome (search : VectorSearch Counter Local) (converter : NativeToUtf8)
    (options : FixedSearchOptions) {settings : Settings}
    {directSchedule generalSchedule : List Nat}
    (hdirect : search.FairFor settings subjects patterns directSchedule)
    (hgeneral : search.FairFor settings subjects patterns generalSchedule) :
    (search.run converter settings subjects patterns options directSchedule
      generalSchedule).isSome = true := by
  unfold run
  unfold FairFor at hdirect hgeneral
  generalize hrecycled : recyclingLength subjects.length patterns.length = recycled
    at hdirect hgeneral ⊢
  obtain ⟨vectorizeLength, warning⟩ := recycled
  simp only at hdirect hgeneral ⊢
  split
  next hpos =>
    obtain ⟨-, -, -, hscalar⟩ := recyclingLength_spec hrecycled hpos
    generalize htasks : (if patterns.length = 1 then vectorizeLength else patterns.length) = tasks
      at hdirect hgeneral ⊢
    generalize parallelPlan settings search.parallel tasks = plan at hdirect hgeneral ⊢
    -- A scalar pattern has one task for each subject.
    have hsingle : patterns.length = 1 → tasks = subjects.length := by
      intro hone
      rw [← htasks, if_pos hone, hscalar hone]
    have hends : (search.directPhase plan subjects patterns options
        directSchedule).isSome = true :=
      directPhase_isSome search fun hone => hsingle hone ▸ hdirect
    obtain ⟨phase, hphase⟩ := Option.isSome_iff_exists.mp hends
    rw [hphase]
    cases phase with
    | error message => rfl
    | ok reached =>
        simp only [Option.bind_eq_bind, Option.bind_some]
        split
        next => rfl
        next => exact generalPhase_isSome search hgeneral
  next => rfl

end Result

end VectorSearch

/-! ## Counting -/

/-- How often the byte occurs. -/
def countAsciiByte (bytes : List UInt8) (pattern : UInt8) : Nat :=
  bytes.foldl (fun count byte => count + if byte = pattern then 1 else 0) 0

/-- The count of an eligible element, with the flags of its encoding checked. -/
def countAsciiElement (patternByte : UInt8) (value : StringView) : Option Int :=
  if value.isNa then some naInteger
  else if !directAsciiEncoding value.enc ∨ value.len < 0 ∨ (value.isNull ∧ value.len > 0) then
    none
  else some (if value.len = 0 then 0 else countAsciiByte value.bytes patternByte)

section Operations

variable (toUpper : CodePoint → CodePoint)

/-- The general search: nothing is counted for a missing string or an empty pattern. -/
def countOne (options : FixedSearchOptions) (subject pattern : StringView)
    (matcher : FixedMatcher) : Except NativeError (Int × FixedMatcher) :=
  if subject.isNa ∨ pattern.isNa ∨ pattern.len ≤ 0 then .ok (naInteger, matcher)
  else if subject.len ≤ 0 then .ok (0, matcher)
  else do
    let (found, matcher) ← matcher.count toUpper subject pattern options
    return (found, matcher)

/-- The lowest element at which a worker stopped. -/
def lowestParked (fallback : Int) (firstIneligible : List Int) : Int :=
  firstIneligible.foldl (fun result slot => if slot < result then slot else result) fallback

/-- `ci_count_fixed` as a search over a vector. -/
def countFixed : VectorSearch Unit FixedMatcher where
  parallel := true
  counter := ()
  element byte view _ := (countAsciiElement byte view).map fun value => (value, ())
  unset tasks := tasks
  lowestIneligible tasks slots := lowestParked tasks slots
  prefixMessage := "fixed-count direct prefix requires a scalar pattern"
  initial _ := {}
  one := countOne toUpper

/-- The number of occurrences in each string. -/
def ciCountFixed (converter : NativeToUtf8) (settings : Settings)
    (str pattern : List StringView) (options : FixedSearchOptions)
    (directSchedule generalSchedule : List Nat) : Option (Except String SearchResult) :=
  (countFixed toUpper).run converter settings str pattern options directSchedule generalSchedule

/-! ## Detecting -/

/-- Whether the byte occurs. -/
def containsAsciiByte (bytes : List UInt8) (pattern : UInt8) : Bool :=
  bytes.any fun byte => byte = pattern

/-- A logical value as R stores it. -/
def logical (value : Bool) : Int := if value then 1 else 0

/-- One record, with the number of matches still wanted. -/
def detectAsciiOne (negate : Bool) (patternByte : UInt8) (subject : StringView)
    (maxCount : Int) : Option (Int × Int) :=
  if !subject.isNa ∧ (!directAsciiEncoding subject.enc ∨ subject.len < 0 ∨
      (subject.isNull ∧ subject.len > 0)) then none
  else if maxCount = 0 then some (naInteger, maxCount)
  else if subject.isNa then some (naInteger, maxCount)
  else
    let found : Bool := subject.len > 0 ∧ containsAsciiByte subject.bytes patternByte
    let result := if negate then !found else found
    some (logical result, if maxCount > 0 ∧ result then maxCount - 1 else maxCount)

/-- The matches still wanted and the matcher of one worker. -/
structure DetectState where
  maxCount : Int
  matcher : FixedMatcher
  deriving DecidableEq

/-- The general search, which gives up once enough matches were found. -/
def detectOne (negate : Bool) (options : FixedSearchOptions) (subject pattern : StringView)
    (state : DetectState) : Except NativeError (Int × DetectState) := do
  let (result, matcher) ←
    if state.maxCount = 0 then .ok (naInteger, state.matcher)
    else if subject.isNa ∨ pattern.isNa ∨ pattern.len ≤ 0 then .ok (naInteger, state.matcher)
    else if subject.len ≤ 0 then .ok (logical negate, state.matcher)
    else do
      let (found, matcher) ← state.matcher.contains toUpper subject pattern options
      pure (logical (if negate then !found else found), matcher)
  return (result,
    { maxCount := if state.maxCount > 0 ∧ result = 1 then state.maxCount - 1 else state.maxCount
      matcher })

/-- A worker that refused no element reports this. -/
def directAllEligible : Int := -1

/-- The lowest element that was reported, where `directAllEligible` is none. -/
def lowestReport (reports : List Int) : Int :=
  reports.foldl (fun first report =>
    if report ≠ directAllEligible ∧ (first = directAllEligible ∨ report < first) then report
    else first) directAllEligible

/-- `ci_detect_fixed` as a search over a vector. -/
def detectFixed (negate : Bool) (maxCount : Int) : VectorSearch Int DetectState where
  -- a limit on the matches counts them in order, so only an unlimited search is split
  parallel := maxCount < 0
  counter := maxCount
  element := detectAsciiOne negate
  unset _ := directAllEligible
  lowestIneligible _ slots := lowestReport slots
  prefixMessage := "fixed-detect direct prefix requires a scalar pattern"
  initial maxCount := ⟨maxCount, {}⟩
  one := detectOne toUpper negate

/-- Whether the pattern occurs in each string. -/
def ciDetectFixed (negate : Bool) (maxCount : Int) (converter : NativeToUtf8)
    (settings : Settings) (str pattern : List StringView) (options : FixedSearchOptions)
    (directSchedule generalSchedule : List Nat) : Option (Except String SearchResult) :=
  (detectFixed toUpper negate maxCount).run converter settings str pattern options
    directSchedule generalSchedule

end Operations

/-! ## Both are lawful -/

section Lawful

variable {toUpper : CodePoint → CodePoint}

open FixedMatcher (Present Consistent consistent_default count_eq contains_eq)

/-- The lowest of the slots, or the fallback where none is lower. -/
theorem lowestParked_le (fallback : Int) (slots : List Int) :
    lowestParked fallback slots ≤ fallback ∧
      (∀ slot ∈ slots, lowestParked fallback slots ≤ slot) ∧
      (lowestParked fallback slots = fallback ∨ lowestParked fallback slots ∈ slots) := by
  unfold lowestParked
  induction slots generalizing fallback with
  | nil => simp
  | cons slot rest ih =>
      rw [List.foldl_cons]
      obtain ⟨hle, hslots, hmem⟩ := ih (if slot < fallback then slot else fallback)
      have hboth : (if slot < fallback then slot else fallback) ≤ slot ∧
          (if slot < fallback then slot else fallback) ≤ fallback := by
        split <;> omega
      refine ⟨hle.trans hboth.2, ?_, ?_⟩
      · rw [List.forall_mem_cons]
        exact ⟨hle.trans hboth.1, hslots⟩
      · rcases hmem with heq | hmem
        · rw [heq]
          split
          · exact .inr List.mem_cons_self
          · exact .inl rfl
        · exact .inr (List.mem_cons_of_mem _ hmem)

/-- The general kernel's value on a matcher of its own. -/
def countValue (toUpper : CodePoint → CodePoint) (options : FixedSearchOptions)
    (subject pattern : StringView) : Int :=
  match countOne toUpper options subject pattern {} with
  | .ok (value, _) => value
  | .error _ => naInteger

/-- A count does not depend on what the matcher was used for before. -/
theorem countOne_eq (options : FixedSearchOptions) {subject pattern : StringView}
    {matcher : FixedMatcher} (hsubject : Normalized subject) (hpattern : Normalized pattern)
    (hmatcher : Consistent toUpper matcher) :
    ∃ matcher', countOne toUpper options subject pattern matcher =
        .ok (countValue toUpper options subject pattern, matcher') ∧
      Consistent toUpper matcher' := by
  unfold countValue countOne
  split
  next => exact ⟨matcher, rfl, hmatcher⟩
  next hpresent =>
    split
    next => exact ⟨matcher, rfl, hmatcher⟩
    next hlen =>
      obtain ⟨subjectBytes, patternBytes, ranges, hsubject, hpattern, hne, hmatches⟩ :=
        searched_of_normalized toUpper options hsubject hpattern hpresent hlen
      obtain ⟨matcher', hcount, hkept⟩ := count_eq hmatcher hsubject hpattern hne hmatches
      obtain ⟨fresh, hfresh, -⟩ :=
        count_eq (consistent_default toUpper) hsubject hpattern hne hmatches
      rw [hcount, hfresh]
      exact ⟨matcher', rfl, hkept⟩

/-- Counting is a search whose direct and general values are fixed. -/
theorem countFixed_lawful :
    (countFixed toUpper).Lawful (Consistent toUpper) countAsciiElement
      (countValue toUpper) where
  element_eq _ _ := rfl
  unset_ne hindex := by
    simp only [countFixed, ne_eq, Int.ofNat_inj]
    omega
  lowest_none hslots := by
    obtain ⟨-, -, hfrom | hmem⟩ := lowestParked_le _ _
    · exact hfrom
    · exact hslots _ hmem
  lowest_some {tasks first slots} hfirst hmem hslots := by
    obtain ⟨-, hle, hfrom⟩ := lowestParked_le tasks slots
    have hlower := hle _ hmem
    simp only [countFixed] at hslots ⊢
    rcases hfrom with heq | hparked
    · omega
    · rcases hslots _ hparked with heq | ⟨hge, -⟩ <;> omega
  initial := consistent_default toUpper
  one_eq options _ _ _ hsubject hpattern hmatcher :=
    countOne_eq options hsubject hpattern hmatcher

/-- Without a report the whole vector was eligible. -/
theorem lowestReport_none {reports : List Int}
    (hnone : ∀ report ∈ reports, report = directAllEligible) :
    lowestReport reports = directAllEligible := by
  unfold lowestReport
  induction reports with
  | nil => rfl
  | cons report rest ih =>
      obtain ⟨hreport, hrest⟩ := List.forall_mem_cons.mp hnone
      rw [List.foldl_cons, hreport]
      exact ih hrest

/-- The scan keeps the lowest index reported, once there is one. -/
theorem foldl_lowest {reports : List Int} {first : Int} {lowest : Int} (hlowest : 0 ≤ lowest)
    (hfirst : first = directAllEligible ∨ lowest ≤ first)
    (hreports : ∀ report ∈ reports, report = directAllEligible ∨ lowest ≤ report)
    (hmem : first = lowest ∨ lowest ∈ reports) :
    reports.foldl (fun first report =>
      if report ≠ directAllEligible ∧ (first = directAllEligible ∨ report < first) then report
      else first) first = lowest := by
  induction reports generalizing first with
  | nil =>
      rcases hmem with heq | hnil
      · exact heq
      · exact absurd hnil (by simp)
  | cons report rest ih =>
      obtain ⟨hreport, hrest⟩ := List.forall_mem_cons.mp hreports
      rw [List.foldl_cons]
      unfold directAllEligible at *
      split
      next hchosen =>
        apply ih (.inr (hreport.resolve_left hchosen.1)) hrest
        rcases hmem with heq | hin
        · left
          omega
        · rcases List.mem_cons.mp hin with heq | hlater
          · exact .inl heq.symm
          · exact .inr hlater
      next hkept =>
        apply ih hfirst hrest
        rcases hmem with heq | hin
        · exact .inl heq
        · rcases List.mem_cons.mp hin with heq | hlater
          · left
            omega
          · exact .inr hlater

/-- The value of the direct kernel for an unlimited search. -/
def detectDirect (negate : Bool) (maxCount : Int) (byte : UInt8) (subject : StringView) :
    Option Int :=
  (detectAsciiOne negate byte subject maxCount).map Prod.fst

/-- What a search that starts at this element answers. -/
def detectValue (toUpper : CodePoint → CodePoint) (negate : Bool) (maxCount : Int)
    (options : FixedSearchOptions) (subject pattern : StringView) : Int :=
  match detectOne toUpper negate options subject pattern ⟨maxCount, {}⟩ with
  | .ok (value, _) => value
  | .error _ => naInteger

/-- Without a limit the direct search passes the counter on as it is. -/
theorem detectAsciiOne_eq (negate : Bool) {maxCount : Int} (hunlimited : maxCount < 0)
    (byte : UInt8) (subject : StringView) :
    detectAsciiOne negate byte subject maxCount =
      (detectDirect negate maxCount byte subject).map fun value => (value, maxCount) := by
  have hzero : maxCount ≠ 0 := by omega
  have hpos : ¬ maxCount > 0 := by omega
  unfold detectDirect detectAsciiOne
  simp only [hzero, hpos, false_and, if_false]
  split
  · rfl
  · split <;> rfl

/-- Without a limit an answer does not depend on the elements before. -/
theorem detectOne_eq (negate : Bool) {maxCount : Int} (hunlimited : maxCount < 0)
    (options : FixedSearchOptions) {subject pattern : StringView} {state : DetectState}
    (hsubject : Normalized subject) (hpattern : Normalized pattern)
    (hstate : state.maxCount = maxCount ∧ Consistent toUpper state.matcher) :
    ∃ state', detectOne toUpper negate options subject pattern state =
        .ok (detectValue toUpper negate maxCount options subject pattern, state') ∧
      state'.maxCount = maxCount ∧ Consistent toUpper state'.matcher := by
  obtain ⟨count, matcher⟩ := state
  obtain ⟨hcount, hmatcher⟩ := hstate
  simp only at hcount hmatcher
  subst hcount
  have hzero : count ≠ 0 := by omega
  have hpos : ¬ count > 0 := by omega
  unfold detectValue detectOne
  simp only [hzero, hpos, false_and, if_false]
  split
  next => exact ⟨_, rfl, rfl, hmatcher⟩
  next hpresent =>
    split
    next => exact ⟨_, rfl, rfl, hmatcher⟩
    next hlen =>
      obtain ⟨subjectBytes, patternBytes, ranges, hsubject, hpattern, hne, hmatches⟩ :=
        searched_of_normalized toUpper options hsubject hpattern hpresent hlen
      obtain ⟨matcher', hcontains, hkept⟩ := contains_eq hmatcher hsubject hpattern hne hmatches
      obtain ⟨fresh, hfresh, -⟩ :=
        contains_eq (consistent_default toUpper) hsubject hpattern hne hmatches
      rw [hcontains, hfresh]
      exact ⟨_, rfl, rfl, hkept⟩

/-- Without a limit detecting is such a search too. -/
theorem detectFixed_lawful (negate : Bool) {maxCount : Int} (hunlimited : maxCount < 0) :
    (detectFixed toUpper negate maxCount).Lawful
      (fun state => state.maxCount = maxCount ∧ Consistent toUpper state.matcher)
      (detectDirect negate maxCount) (detectValue toUpper negate maxCount) where
  element_eq byte view := detectAsciiOne_eq negate hunlimited byte view
  unset_ne {_ index} _ := by
    simp only [detectFixed, directAllEligible]
    omega
  lowest_none hslots := lowestReport_none hslots
  lowest_some {_ first _} _ hmem hslots :=
    foldl_lowest (Int.natCast_nonneg first) (.inl rfl)
      (fun slot hslot => (hslots slot hslot).imp_right And.left) (.inr hmem)
  initial := ⟨rfl, consistent_default toUpper⟩
  one_eq options _ _ _ hsubject hpattern hstate :=
    detectOne_eq negate hunlimited options hsubject hpattern hstate

end Lawful

/-! ## Independence of the thread settings -/

/-- The first record the direct phase cannot read. -/
def firstIneligibleRecord (subjects : List StringView) : Option Nat :=
  (List.range subjects.length).find? fun index => !eligible (subjects.getD index .na)

section Independence

open VectorSearch

variable {Counter Local : Type}

/-- The direct region, for every plan and schedule: its lowest parked index is the
first ineligible record, and every slot below that holds the kernel's value. -/
def DirectRegionAgrees (search : VectorSearch Counter Local) (byte : UInt8)
    (subjects : List StringView) (kernel : StringView → Option Int) : Prop :=
  ∀ plan schedule,
    ((∀ index < regionWorkers plan subjects.length,
        scheduleBound plan subjects.length < schedule.count index) →
      (runParallel plan subjects.length (search.directRegion subjects byte) (fun _ => none)
        schedule).isSome = true) ∧
    ∀ regionEnd, runParallel plan subjects.length (search.directRegion subjects byte)
        (fun _ => none) schedule = some regionEnd →
      regionEnd.outcome = .returned ∧
      search.lowestIneligible subjects.length
          (reports (regionWorkers plan subjects.length) regionEnd.final) =
        ((firstIneligibleRecord subjects).elim (search.unset subjects.length)
          fun first => (first : Int)) ∧
      ∀ index < (firstIneligibleRecord subjects).getD subjects.length,
        ∃ value, kernel (subjects.getD index .na) = some value ∧
          regionEnd.final.shared.result index = some value

/-- One result for all settings and all schedules, with no slot left unwritten. -/
def ThreadIndependent (fair : Settings → List Nat → Prop)
    (operation : Settings → List Nat → List Nat → Option (Except String SearchResult)) : Prop :=
  ∃ result,
    (∀ settings directSchedule generalSchedule,
      (fair settings directSchedule → fair settings generalSchedule →
        operation settings directSchedule generalSchedule = some result) ∧
      ∀ other, operation settings directSchedule generalSchedule = some other →
        other = result) ∧
    ∀ found, result = .ok found → ∀ index < found.length, (found.output index).isSome = true

/-- The first element that the direct search leaves is the first ineligible record. -/
theorem firstIneligible_eq_record {direct : UInt8 → StringView → Option Int} {byte : UInt8}
    (hdirect : ∀ view, (direct byte view).isNone = !eligible view)
    (subjects : List StringView) :
    firstIneligible direct subjects byte = firstIneligibleRecord subjects := by
  unfold firstIneligible firstIneligibleRecord
  congr 1
  funext index
  exact hdirect _

variable {search : VectorSearch Counter Local} {invariant : Local → Prop}
  {direct : UInt8 → StringView → Option Int}
  {general : FixedSearchOptions → StringView → StringView → Int} {byte : UInt8}
  {subjects patterns : List StringView} {options : FixedSearchOptions}

/-- The direct region stops at the element where the serial loop stops. -/
theorem directRegionAgrees (hlawful : search.Lawful invariant direct general)
    (hdirect : ∀ view, (direct byte view).isNone = !eligible view) :
    DirectRegionAgrees search byte subjects (direct byte) := by
  intro plan schedule
  refine ⟨runRegion_isSome_of_fair plan _ _ _ false schedule, ?_⟩
  intro regionEnd hrun
  obtain ⟨hreturned, hlowest, hbelow, -⟩ := directRegion_spec hlawful hrun
  rw [firstIneligible_eq_record hdirect] at hlowest hbelow
  refine ⟨hreturned, hlowest, ?_⟩
  intro index hindex
  obtain ⟨hsome, hresult⟩ := hbelow index hindex
  obtain ⟨value, hvalue⟩ := Option.isSome_iff_exists.mp hsome
  exact ⟨value, hvalue, hresult.trans hvalue⟩

/-- A lawful search gives one result under all settings and schedules. -/
theorem threadIndependent (hlawful : search.Lawful invariant direct general)
    (converter : NativeToUtf8) (subjects patterns : List StringView)
    (options : FixedSearchOptions) :
    ThreadIndependent (fun settings => search.FairFor settings subjects patterns)
      fun settings => search.run converter settings subjects patterns options := by
  refine ⟨expected direct general converter subjects patterns options, ?_, ?_⟩
  · intro settings directSchedule generalSchedule
    refine ⟨fun hdirect hgeneral => ?_, fun other hother => run_eq hlawful hother⟩
    obtain ⟨result, hresult⟩ := Option.isSome_iff_exists.mp
      (run_isSome search converter options hdirect hgeneral)
    exact hresult.trans (congrArg some (run_eq hlawful hresult))
  · intro found hfound index hindex
    exact expected_written hfound index hindex

end Independence

/-- Counting leaves exactly the ineligible records. -/
theorem countAsciiElement_isNone (byte : UInt8) (view : StringView) :
    (countAsciiElement byte view).isNone = !eligible view := by
  unfold countAsciiElement eligible
  by_cases hna : view.isNa = true
  · simp [hna]
  · rw [if_neg hna]
    split
    next hrefused => simpa [hna] using hrefused
    next haccepted =>
      simp only [not_or] at haccepted
      simp_all

/-- Detecting leaves exactly the ineligible records. -/
theorem detectDirect_isNone (negate : Bool) (maxCount : Int) (byte : UInt8)
    (view : StringView) :
    (detectDirect negate maxCount byte view).isNone = !eligible view := by
  rw [← countAsciiElement_isNone byte view]
  unfold detectDirect detectAsciiOne countAsciiElement
  by_cases hna : view.isNa = true
  · simp only [hna, Bool.not_true, Bool.false_eq_true, false_and, if_false, if_true]
    split <;> rfl
  · simp only [hna, Bool.not_false, true_and]
    split
    next => rfl
    next =>
      split
      next => rfl
      next => rfl

/-- Counting and unlimited detecting: for every direct pattern byte, plan and
schedule the direct region hands over at the first ineligible record, and the
result of the operation is one and the same for all thread settings. -/
theorem ciCountFixed_ciDetectFixed_thread_independent (toUpper : CodePoint → CodePoint)
    (converter : NativeToUtf8) (subjects patterns : List StringView)
    (options : FixedSearchOptions) (byte : UInt8) (negate : Bool) {maxCount : Int}
    (hunlimited : maxCount < 0) :
    DirectRegionAgrees (countFixed toUpper) byte subjects (countAsciiElement byte) ∧
    ThreadIndependent
      (fun settings => (countFixed toUpper).FairFor settings subjects patterns)
      (fun settings => ciCountFixed toUpper converter settings subjects patterns options) ∧
    DirectRegionAgrees (detectFixed toUpper negate maxCount) byte subjects
      (fun view => (detectAsciiOne negate byte view maxCount).map Prod.fst) ∧
    ThreadIndependent
      (fun settings => (detectFixed toUpper negate maxCount).FairFor settings subjects patterns)
      (fun settings => ciDetectFixed toUpper negate maxCount converter settings subjects patterns
        options) :=
  ⟨directRegionAgrees countFixed_lawful (countAsciiElement_isNone byte),
    threadIndependent countFixed_lawful converter subjects patterns options,
    directRegionAgrees (detectFixed_lawful negate hunlimited)
      (detectDirect_isNone negate maxCount byte),
    threadIndependent (detectFixed_lawful negate hunlimited) converter subjects patterns options⟩

/-- A platform whose native encoding is UTF-8, with the Latin-1 conversion. -/
def sampleConverter : NativeToUtf8 where
  native bytes :=
    if hlength : bytes.length ≤ intMax then .ok (.bytes ⟨400, bytes, hlength⟩)
    else .error (.lengthError "converted string exceeds R string size")
  latin1 bytes :=
    let converted : List UInt8 := bytes.flatMap fun (byte : UInt8) =>
      if byte < 0x80 then [byte] else [(byte >>> 6) ||| 0xc0, (byte &&& 0x3f) ||| 0x80]
    if hlength : converted.length ≤ intMax then .ok (.bytes ⟨400, converted, hlength⟩)
    else .error (.lengthError "converted string exceeds R string size")
  nativeIsUtf8 := true

/-- Three records, the second in Latin-1, on three workers and on one. -/
theorem ciCountFixed_three_records :
    let subjects : List StringView := [⟨.bytes ⟨100, [97, 98, 97], by decide⟩, .ascii⟩,
      ⟨.bytes ⟨200, [0xe9, 97], by decide⟩, .latin1⟩, ⟨.bytes ⟨300, [97], by decide⟩, .utf8⟩]
    let patterns : List StringView := [⟨.bytes ⟨500, [97], by decide⟩, .ascii⟩]
    let turns := (List.range 90).map (· % 3)
    ∃ result, firstIneligibleRecord subjects = some 1 ∧
      ciCountFixed id sampleConverter ⟨3, 128, 1⟩ subjects patterns ⟨false, false⟩ turns turns =
        some result ∧
      ciCountFixed id sampleConverter ⟨1, 128, 256⟩ subjects patterns ⟨false, false⟩ turns turns =
        some result := by
  intro subjects patterns turns
  obtain ⟨-, ⟨result, hall, -⟩, -⟩ := ciCountFixed_ciDetectFixed_thread_independent id
    sampleConverter subjects patterns ⟨false, false⟩ 97 false (show (-1 : Int) < 0 by decide)
  refine ⟨result, rfl, (hall ⟨3, 128, 1⟩ turns turns).1 ?_ ?_,
    (hall ⟨1, 128, 256⟩ turns turns).1 ?_ ?_⟩
  all_goals
    unfold VectorSearch.FairFor
    decide

end Charr.FixedSearch
