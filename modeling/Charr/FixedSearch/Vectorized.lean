import Charr.FixedSearch.History
import Charr.Output.Record
import Charr.Parallel.Tasks
import Charr.Text.Normalize

/-!
# Fixed searches over vectors

Counting and detecting work on a vector in two phases. A pattern of one ASCII
byte is searched for directly in the subjects as they are stored, up to the
first record that is not stored as ASCII or UTF-8; the general path normalizes
all views and goes on from there. On several workers the direct phase is a
region of its own: each worker parks the index of the record it could not
handle, and the lowest of them is where the general path resumes.
-/

namespace Charr.FixedSearch

open Parallel

/-- The encodings whose bytes below `0x80` are ASCII characters. -/
def directAsciiEncoding (enc : StringEncoding) : Bool :=
  enc = .ascii ∨ enc = .utf8 ∨ enc = .asciiOrUtf8

/-- The pattern of the direct phase: one pattern of one ASCII byte. -/
def directAsciiPattern (patterns : List StringView) (options : FixedSearchOptions) :
    Option UInt8 :=
  if options.caseInsensitive ∨ options.overlap ∨ patterns.length ≠ 1 then none
  else
    let pattern := patterns.getD 0 .na
    let byte := pattern.bytes.getD 0 0
    if pattern.isNa ∨ !directAsciiEncoding pattern.enc ∨ pattern.isNull ∨ pattern.len ≠ 1 ∨
        byte > 0x7f then none
    else some byte

/-- The direct phase can read this record. -/
def eligible (view : StringView) : Bool :=
  view.isNa ∨
    (directAsciiEncoding view.enc ∧ ¬ view.len < 0 ∧ ¬ (view.isNull ∧ view.len > 0))

/-- How many warnings about empty patterns the call gives. -/
def countEmptyPatterns (patterns : List StringView) : Nat :=
  patterns.countP fun pattern => !pattern.isNa && pattern.len ≤ 0

/-- A view that is not missing and not empty has bytes to search. -/
theorem present_of_normalized {view : StringView} (hnormal : Normalized view)
    (hna : ¬ view.isNa = true) (hlen : ¬ view.len ≤ 0) :
    ∃ bytes, FixedMatcher.Present view bytes ∧ bytes ≠ [] := by
  rcases hnormal with hmissing | ⟨span, hdata⟩
  · exact absurd hmissing hna
  · refine ⟨span.bytes, ⟨by simpa using hna, span, hdata, rfl⟩, ?_⟩
    intro hnil
    apply hlen
    simp [StringView.len, hdata, hnil]

/-- A pattern that is searched for has its matches. -/
theorem searched_of_normalized (toUpper : Utf8.CodePoint → Utf8.CodePoint)
    (options : FixedSearchOptions)
    {subject pattern : StringView} (hsubject : Normalized subject) (hpattern : Normalized pattern)
    (hpresent : ¬ (subject.isNa = true ∨ pattern.isNa = true ∨ pattern.len ≤ 0))
    (hlen : ¬ subject.len ≤ 0) :
    ∃ subjectBytes patternBytes ranges, FixedMatcher.Present subject subjectBytes ∧
      FixedMatcher.Present pattern patternBytes ∧ patternBytes ≠ [] ∧
      FixedMatcher.Matches toUpper options patternBytes subjectBytes ranges := by
  simp only [not_or] at hpresent
  obtain ⟨subjectBytes, hsubject, -⟩ := present_of_normalized hsubject hpresent.1 hlen
  obtain ⟨patternBytes, hpattern, hne⟩ := present_of_normalized hpattern hpresent.2.1 hpresent.2.2
  obtain ⟨ranges, hmatches⟩ := FixedMatcher.exists_matches options hne subjectBytes
  exact ⟨subjectBytes, patternBytes, ranges, hsubject, hpattern, hne, hmatches⟩

/-! ## The direct phase -/

section Direct

variable {Counter : Type}

/-- A worker's counter and its slot of `first_ineligible`. -/
structure DirectState (Counter : Type) where
  counter : Counter
  slot : Int
  deriving DecidableEq

/-- The direct kernel on workers. `element` gives the value of a record, or
nothing for one that needs the general path. -/
def directBody (counter : Counter) (unset : Int)
    (element : Nat → Counter → Option (Int × Counter)) :
    ParallelBody (DirectState Counter) Int NativeError where
  initial _ := ⟨counter, unset⟩
  task _ index state :=
    match element index state.counter with
    | some (value, counter) =>
        { ending := .next, state := { state with counter }, writes := [(index, value)] }
    | none => { ending := .stopsEarly, state := { state with slot := index } }
  describeError := NativeError.text

/-- The serial scan: the index it stopped at, the counter and the output. -/
def directScan (element : Nat → Counter → Option (Int × Counter)) :
    List Nat → Counter → (Nat → Option Int) → Option Nat × Counter × (Nat → Option Int)
  | [], counter, memory => (none, counter, memory)
  | index :: rest, counter, memory =>
      match element index counter with
      | some (value, counter) => directScan element rest counter (store memory (index, value))
      | none => (some index, counter, memory)

end Direct

/-! ## The general phase -/

section General

variable {Local : Type}

/-- The tasks of one pattern: every `step`-th index from its lane on. -/
def laneIndices (step limit : Nat) : Nat → Nat → List Nat
  | 0, _ => []
  | fuel + 1, index =>
      index :: if step ≥ limit - index then [] else laneIndices step limit fuel (index + step)

/-- Search at some indices in turn. -/
def searchIndices (one : Nat → Local → Except NativeError (Int × Local)) :
    List Nat → Local → ActionResult Local Int NativeError
  | [], state => .pass state
  | index :: rest, state =>
      match one index state with
      | .error error => { ending := .throws error, state := state }
      | .ok (value, state) =>
          let tail := searchIndices one rest state
          { tail with writes := (index, value) :: tail.writes }

/-- The general path on workers, from `generalStart` on. A single pattern is
searched for task by task; several patterns are a lane each. -/
def searchBody (prefixMessage : String) (patterns : List StringView)
    (vectorizeLength generalStart : Nat) (initial : Local)
    (one : Nat → StringView → Local → Except NativeError (Int × Local)) :
    ParallelBody Local Int NativeError where
  initial _ := initial
  setup _ state :=
    if generalStart > 0 ∧ patterns.length ≠ 1 then
      { ending := .throws (.logicError prefixMessage), state := state }
    else .pass state
  task _ index state :=
    if patterns.length = 1 then
      if index < generalStart then .pass state
      else searchIndices (fun index => one index (patterns.getD 0 .na)) [index] state
    else
      searchIndices (fun other => one other (patterns.getD index .na))
        (laneIndices patterns.length vectorizeLength vectorizeLength index) state
  describeError := NativeError.text

end General

/-! ## The entry points -/

/-- What counting and detecting do not share. -/
structure VectorSearch (Counter Local : Type) where
  /-- Whether the operation may run on several workers. -/
  parallel : Bool
  counter : Counter
  element : UInt8 → StringView → Counter → Option (Int × Counter)
  /-- What a slot of `first_ineligible` holds before a worker parks an index. -/
  unset : Nat → Int
  lowestIneligible : Nat → List Int → Int
  prefixMessage : String
  initial : Counter → Local
  one : FixedSearchOptions → StringView → StringView → Local → Except NativeError (Int × Local)

/-- What a search over a vector returns, and what it warns of. -/
structure SearchResult where
  length : Nat
  output : Nat → Option Int
  recyclingWarning : Bool
  emptyPatternWarnings : Nat

/-- How far the direct phase came. -/
structure DirectPrefix (Counter : Type) where
  direct : Bool
  generalStart : Nat
  counter : Counter
  memory : Nat → Option Int

namespace VectorSearch

variable {Counter Local : Type} (search : VectorSearch Counter Local)

/-- The direct search in one subject. -/
def directElement (subjects : List StringView) (byte : UInt8) (index : Nat) (counter : Counter) :
    Option (Int × Counter) :=
  search.element byte (subjects.getD index .na) counter

/-- The region of the direct search. -/
def directRegion (subjects : List StringView) (byte : UInt8) :
    ParallelBody (DirectState Counter) Int NativeError :=
  directBody search.counter (search.unset subjects.length) (search.directElement subjects byte)

/-- The slots of `first_ineligible` after the region. -/
def reports (workers : Nat) (final : Region (DirectState Counter) Int NativeError) : List Int :=
  (List.range workers).map fun index => (final.worker index).state.slot

/-- The direct search as far as it gets: serially, or on workers that stop early. -/
def directPhase (plan : ParallelPlan) (subjects patterns : List StringView)
    (options : FixedSearchOptions) (schedule : List Nat) :
    Option (Except String (DirectPrefix Counter)) :=
  match directAsciiPattern patterns options with
  | none => some (.ok ⟨false, 0, search.counter, fun _ => none⟩)
  | some byte =>
      -- a scalar pattern, so there are as many tasks as subjects
      let tasks := subjects.length
      if plan.workers > 1 then do
        let regionEnd ← runParallel plan tasks (search.directRegion subjects byte)
          (fun _ => none) schedule
        match regionEnd.outcome.message NativeError.text with
        | some message => return .error message
        | none =>
            let lowest := search.lowestIneligible tasks (reports plan.workers regionEnd.final)
            let direct : Bool := lowest = search.unset tasks
            return .ok ⟨direct, if direct then 0 else lowest.toNat, search.counter,
              regionEnd.final.shared.result⟩
      else
        match directScan (search.directElement subjects byte) (List.range tasks) search.counter
          fun _ => none with
        | (none, counter, memory) => some (.ok ⟨true, 0, counter, memory⟩)
        | (some index, counter, memory) => some (.ok ⟨false, index, counter, memory⟩)

/-- The region of the general search, from the first element that the direct one left. -/
def generalRegion (options : FixedSearchOptions) (subjects patterns : List StringView)
    (vectorizeLength generalStart : Nat) (counter : Counter) :
    ParallelBody Local Int NativeError :=
  searchBody search.prefixMessage patterns vectorizeLength generalStart (search.initial counter)
    fun index pattern => search.one options (subjects.getD (index % subjects.length) .na) pattern

/-- The general path: normalize both vectors, then run the region over what the
direct phase left. -/
def generalPhase (converter : NativeToUtf8) (plan : ParallelPlan) (tasks vectorizeLength : Nat)
    (recyclingWarning : Bool) (subjects patterns : List StringView)
    (options : FixedSearchOptions) (reached : DirectPrefix Counter) (schedule : List Nat) :
    Option (Except String SearchResult) :=
  match normalizeViews converter ⟨0⟩ subjects, normalizeViews converter ⟨0⟩ patterns with
  | .error error, _ => some (.error error.text)
  | .ok _, .error error => some (.error error.text)
  | .ok subjects, .ok patterns => do
      let regionEnd ← runParallel plan tasks
        (search.generalRegion options subjects patterns vectorizeLength reached.generalStart
          reached.counter)
        reached.memory schedule
      match regionEnd.outcome.message NativeError.text with
      | some message => return .error message
      | none =>
          return .ok ⟨vectorizeLength, regionEnd.final.shared.result, recyclingWarning,
            countEmptyPatterns patterns⟩

/-- The whole operation, under a schedule for each of its two regions. Nothing
while some worker is still running. -/
def run (converter : NativeToUtf8) (settings : Settings) (subjects patterns : List StringView)
    (options : FixedSearchOptions) (directSchedule generalSchedule : List Nat) :
    Option (Except String SearchResult) :=
  let (vectorizeLength, recyclingWarning) := recyclingLength subjects.length patterns.length
  if vectorizeLength > 0 then do
    let tasks := if patterns.length = 1 then vectorizeLength else patterns.length
    let plan := parallelPlan settings search.parallel tasks
    match ← search.directPhase plan subjects patterns options directSchedule with
    | .error message => return .error message
    | .ok reached =>
        if reached.direct then
          return .ok ⟨vectorizeLength, reached.memory, recyclingWarning, 0⟩
        else
          search.generalPhase converter plan tasks vectorizeLength recyclingWarning subjects
            patterns options reached generalSchedule
  else some (.ok ⟨vectorizeLength, fun _ => none, recyclingWarning, 0⟩)

/-! ## The direct region -/

/-- What the operations have in common: the direct kernel depends on the record
alone, the reduction finds the lowest parked index, and the general kernel
depends on the two views alone, whatever the worker searched before. -/
structure Lawful (invariant : Local → Prop) (direct : UInt8 → StringView → Option Int)
    (general : FixedSearchOptions → StringView → StringView → Int) : Prop where
  element_eq : ∀ byte view, search.element byte view search.counter =
    (direct byte view).map fun value => (value, search.counter)
  unset_ne : ∀ {tasks index : Nat}, index < tasks → (index : Int) ≠ search.unset tasks
  lowest_none : ∀ {tasks : Nat} {slots : List Int}, (∀ slot ∈ slots, slot = search.unset tasks) →
    search.lowestIneligible tasks slots = search.unset tasks
  lowest_some : ∀ {tasks first : Nat} {slots : List Int}, first < tasks → (first : Int) ∈ slots →
    (∀ slot ∈ slots, slot = search.unset tasks ∨ ((first : Int) ≤ slot ∧ slot < tasks)) →
    search.lowestIneligible tasks slots = first
  initial : invariant (search.initial search.counter)
  one_eq : ∀ options {subject pattern : StringView} {state : Local}, Normalized subject →
    Normalized pattern → invariant state →
    ∃ state', search.one options subject pattern state =
        .ok (general options subject pattern, state') ∧ invariant state'

variable {search} {invariant : Local → Prop} {direct : UInt8 → StringView → Option Int}
  {general : FixedSearchOptions → StringView → StringView → Int}

section DirectRegion

variable (direct) (subjects : List StringView) (byte : UInt8)

/-- The direct kernel's value for the record at `index`. -/
def directValue (index : Nat) : Option Int := direct byte (subjects.getD index .na)

/-- The direct search leaves the element to the general one. -/
def rejects (index : Nat) : Bool := (directValue direct subjects byte index).isNone

/-- The record a serial scan stops at. -/
def firstIneligible : Option Nat :=
  (List.range subjects.length).find? (rejects direct subjects byte)

/-- How the direct region ends at an element. -/
def directEnds (index : Nat) : Ending String :=
  if rejects direct subjects byte index then .stopsEarly else .next

/-- What the direct region writes there. -/
def directWrites (index : Nat) : List (Nat × Int) :=
  ((directValue direct subjects byte index).map fun value => (index, value)).toList

/-- What a worker that ran the tasks `done` has parked. -/
def parkedSlot (unset : Int) (done : List Nat) : Int :=
  match done.find? (rejects direct subjects byte) with
  | none => unset
  | some index => index

variable {direct subjects byte}

theorem directEnds_eq_next {index : Nat} :
    directEnds direct subjects byte index = .next ↔
      rejects direct subjects byte index = false := by
  unfold directEnds
  split <;> simp_all

/-- What the direct region has written and parked. -/
theorem directSpec (hlawful : search.Lawful invariant direct general) :
    TaskSpec (search.directRegion subjects byte)
      (fun _ done state => state.counter = search.counter ∧
        state.slot = parkedSlot direct subjects byte (search.unset subjects.length) done)
      (directEnds direct subjects byte) (directWrites direct subjects byte)
      subjects.length where
  setup _ _ := ⟨rfl, rfl, rfl, rfl, rfl⟩
  enterChunk _ _ _ _ hkept := ⟨rfl, rfl, hkept⟩
  task context index done task state _ _ hdone hkept := by
    obtain ⟨hcounter, hslot⟩ := hkept
    have hnone : done.find? (rejects direct subjects byte) = none := by
      rw [List.find?_eq_none]
      intro earlier hearlier
      rw [directEnds_eq_next.mp (hdone earlier hearlier)]
      simp
    have helement : search.directElement subjects byte task state.counter =
        (directValue direct subjects byte task).map fun value => (value, search.counter) := by
      rw [hcounter]
      exact hlawful.element_eq byte _
    simp only [directRegion, directBody, helement]
    cases hvalue : directValue direct subjects byte task with
    | none =>
        have hrejects : rejects direct subjects byte task = true := by simp [rejects, hvalue]
        refine ⟨by simp [directEnds, hrejects, Ending.map], by simp [directWrites, hvalue],
          hcounter, ?_⟩
        simp [parkedSlot, List.find?_append, hnone, hrejects]
    | some value =>
        have haccepts : rejects direct subjects byte task = false := by simp [rejects, hvalue]
        refine ⟨by simp [directEnds, haccepts, Ending.map], by simp [directWrites, hvalue],
          rfl, ?_⟩
        rw [hslot, parkedSlot, parkedSlot, List.find?_append, hnone]
        simp [haccepts]
  leaveChunk _ _ _ _ hkept := ⟨rfl, rfl, hkept⟩

/-- In ascending order, a search finds the least element it accepts. -/
theorem find_eq_of_sorted {elements : List Nat} {accept : Nat → Bool} {least : Nat}
    (hsorted : elements.Pairwise (· < ·)) (hmem : least ∈ elements) (haccept : accept least = true)
    (hleast : ∀ element ∈ elements, accept element = true → least ≤ element) :
    elements.find? accept = some least := by
  cases hfound : elements.find? accept with
  | none => exact absurd haccept (List.find?_eq_none.mp hfound least hmem)
  | some found =>
      obtain ⟨hfaccept, before, after, rfl, hbefore⟩ := List.find?_eq_some_iff_append.mp hfound
      have hle : least ≤ found := hleast found (by simp) hfaccept
      rcases List.mem_append.mp hmem with hin | hin
      · have := hbefore least hin
        rw [haccept] at this
        exact absurd this (by simp)
      · rcases List.mem_cons.mp hin with rfl | hafter
        · rfl
        · have hlt := (List.pairwise_cons.mp (List.pairwise_append.mp hsorted).2.1).1 least hafter
          omega

/-- The first ineligible element is rejected, and no earlier one is. -/
theorem firstIneligible_eq_some {first : Nat}
    (hfirst : firstIneligible direct subjects byte = some first) :
    first < subjects.length ∧ rejects direct subjects byte first = true ∧
      ∀ earlier < first, rejects direct subjects byte earlier = false := by
  obtain ⟨hrejects, hlt, hbelow⟩ := List.find?_range_eq_some.mp hfirst
  refine ⟨List.mem_range.mp hlt, hrejects, ?_⟩
  intro earlier hearlier
  simpa using hbelow earlier hearlier

theorem firstIneligible_eq_none (hnone : firstIneligible direct subjects byte = none) :
    ∀ index < subjects.length, rejects direct subjects byte index = false := by
  intro index hindex
  have := List.find?_eq_none.mp hnone index (List.mem_range.mpr hindex)
  simpa using this

variable {plan : ParallelPlan} {memory : Nat → Option Int} {schedule : List Nat}
  {regionEnd : RegionEnd (DirectState Counter) Int NativeError}

/-- Where the first ineligible record is, every record up to another one is eligible. -/
theorem eligible_below {index : Nat}
    (hindex : index < (firstIneligible direct subjects byte).getD subjects.length) :
    index < subjects.length ∧
      ∀ earlier ≤ index, rejects direct subjects byte earlier = false := by
  cases hfirst : firstIneligible direct subjects byte with
  | none =>
      rw [hfirst, Option.getD_none] at hindex
      exact ⟨hindex, fun earlier hle => firstIneligible_eq_none hfirst earlier (by omega)⟩
  | some first =>
      obtain ⟨hlt, -, hbelow⟩ := firstIneligible_eq_some hfirst
      rw [hfirst, Option.getD_some] at hindex
      exact ⟨by omega, fun earlier hle => hbelow earlier (by omega)⟩

/-- The lowest of the workers' reports is the first record a serial scan would stop at. -/
theorem lowestIneligible_reports (hlawful : search.Lawful invariant direct general)
    (hrun : runParallel plan subjects.length (search.directRegion subjects byte) memory
      schedule = some regionEnd) :
    search.lowestIneligible subjects.length
        (reports (regionWorkers plan subjects.length) regionEnd.final) =
      ((firstIneligible direct subjects byte).elim (search.unset subjects.length)
        fun first => (first : Int)) := by
  have hend := loopEnd_of_runRegion (directSpec hlawful) hrun
  have hslots : ∀ slot ∈ reports (regionWorkers plan subjects.length) regionEnd.final,
      ∃ worker < regionWorkers plan subjects.length,
        slot = parkedSlot direct subjects byte (search.unset subjects.length)
          (ranIn (directEnds direct subjects byte) subjects.length (regionChunk plan)
            (owned subjects.length (regionChunk plan) regionEnd.final.claims worker)) := by
    intro slot hslot
    obtain ⟨worker, hworker, rfl⟩ := List.mem_map.mp hslot
    rw [List.mem_range] at hworker
    exact ⟨worker, hworker, (hend.state hworker).2⟩
  cases hfirst : firstIneligible direct subjects byte with
  | none =>
      apply hlawful.lowest_none
      intro slot hslot
      obtain ⟨worker, hworker, rfl⟩ := hslots slot hslot
      have hnone := firstIneligible_eq_none hfirst
      rw [parkedSlot, List.find?_eq_none.mpr]
      intro task htask
      rw [hnone task (hend.lt_tasks_of_ran htask)]
      simp
  | some first =>
      obtain ⟨hlt, hrejects, hbelow⟩ := firstIneligible_eq_some hfirst
      apply hlawful.lowest_some hlt
      · -- the worker that reaches this record parks it
        obtain ⟨worker, hworker, hran⟩ := hend.exists_ran hlt
          fun earlier hearlier => directEnds_eq_next.mpr (hbelow earlier hearlier)
        refine List.mem_map.mpr ⟨worker, List.mem_range.mpr hworker, ?_⟩
        rw [(hend.state hworker).2, parkedSlot, find_eq_of_sorted _ hran hrejects]
        · intro task _ htask
          by_contra hless
          rw [hbelow task (by omega)] at htask
          exact absurd htask (by simp)
        · exact ranIn_sorted (one_le_regionChunk plan) (owned_sorted _ _ _ _)
      · -- what another worker parks is ineligible as well, so it comes later
        intro slot hslot
        obtain ⟨worker, hworker, rfl⟩ := hslots slot hslot
        rw [parkedSlot]
        split
        next => exact .inl rfl
        next task htask =>
          have hran := hend.lt_tasks_of_ran (List.mem_of_find?_eq_some htask)
          have hbad := List.find?_some htask
          refine .inr ⟨?_, by omega⟩
          by_contra hless
          rw [hbelow task (by omega)] at hbad
          exact absurd hbad (by simp)

/-- After the direct region the lowest parked index is the record a serial scan
stops at, and every slot below it holds the direct kernel's value. -/
theorem directRegion_spec (hlawful : search.Lawful invariant direct general)
    (hrun : runParallel plan subjects.length (search.directRegion subjects byte) memory
      schedule = some regionEnd) :
    regionEnd.outcome = .returned ∧
    search.lowestIneligible subjects.length
        (reports (regionWorkers plan subjects.length) regionEnd.final) =
      ((firstIneligible direct subjects byte).elim (search.unset subjects.length)
        fun first => (first : Int)) ∧
    (∀ index < (firstIneligible direct subjects byte).getD subjects.length,
      (directValue direct subjects byte index).isSome = true ∧
        regionEnd.final.shared.result index = directValue direct subjects byte index) ∧
    ∀ index, subjects.length ≤ index → regionEnd.final.shared.result index = memory index := by
  have hend := loopEnd_of_runRegion (directSpec hlawful) hrun
  refine ⟨?_, lowestIneligible_reports hlawful hrun, ?_, ?_⟩
  · apply hend.returned
    intro task _ message hthrows
    unfold directEnds at hthrows
    split at hthrows <;> simp at hthrows
  · intro index hindex
    obtain ⟨hlt, hbelow⟩ := eligible_below hindex
    have haccepts := hbelow index le_rfl
    cases hvalue : directValue direct subjects byte index with
    | none => simp [rejects, hvalue] at haccepts
    | some value =>
        refine ⟨rfl, ?_⟩
        apply hend.result_eq_some hlt
        · intro earlier hearlier
          exact directEnds_eq_next.mpr (hbelow earlier hearlier.le)
        · simp [directWrites, hvalue]
        · -- no other task writes to this record
          rintro other - ⟨slot, written⟩ hwrite rfl
          simp only [directWrites, Option.mem_toList, Option.map_eq_some_iff,
            Prod.mk.injEq] at hwrite
          obtain ⟨_, hother, rfl, rfl⟩ := hwrite
          exact Option.some.inj (hother.symm.trans hvalue)
  · intro index hindex
    apply hend.result_eq_initial
    rintro task htask ⟨slot, written⟩ hwrite rfl
    simp only [directWrites, Option.mem_toList, Option.map_eq_some_iff, Prod.mk.injEq] at hwrite
    obtain ⟨_, -, rfl, -⟩ := hwrite
    omega

/-- The serial scan writes the direct kernel's values up to where it stops. -/
theorem directScan_eq (hlawful : search.Lawful invariant direct general) (count start : Nat)
    (memory : Nat → Option Int) :
    let stop := (List.range' start count).find? (rejects direct subjects byte)
    directScan (search.directElement subjects byte) (List.range' start count) search.counter
        memory =
      (stop, search.counter, fun index =>
        if start ≤ index ∧ index < stop.getD (start + count) then
          directValue direct subjects byte index
        else memory index) := by
  induction count generalizing start memory with
  | zero =>
      simp only [List.range'_zero, directScan, List.find?_nil, Option.getD_none, Nat.add_zero]
      congr 2
      funext index
      rw [if_neg (by omega)]
  | succ count ih =>
      have helement : search.directElement subjects byte start search.counter =
          (directValue direct subjects byte start).map fun value => (value, search.counter) :=
        hlawful.element_eq byte _
      rw [List.range'_succ]
      simp only [directScan, helement, List.find?_cons]
      cases hvalue : directValue direct subjects byte start with
      -- the scan stops here and writes nothing more
      | none =>
          have hrejects : rejects direct subjects byte start = true := by simp [rejects, hvalue]
          simp only [hrejects, Option.map_none, Option.getD_some]
          congr 2
          funext index
          rw [if_neg (by omega)]
      | some value =>
          have haccepts : rejects direct subjects byte start = false := by simp [rejects, hvalue]
          simp only [haccepts, Option.map_some, ih]
          congr 2
          funext index
          have hbehind : start + 1 ≤ ((List.range' (start + 1) count).find?
              (rejects direct subjects byte)).getD (start + 1 + count) := by
            cases hfound : (List.range' (start + 1) count).find?
                (rejects direct subjects byte) with
            | none => simp
            | some found =>
                have := List.mem_of_find?_eq_some hfound
                rw [List.mem_range'_1] at this
                exact this.1
          rw [show start + (count + 1) = start + 1 + count by omega]
          by_cases hhere : index = start
          · subst hhere
            rw [if_neg (by omega), if_pos (by omega), store, Function.update_self, hvalue]
          · rw [store, Function.update_of_ne hhere]
            congr 1
            simp only [eq_iff_iff]
            omega

end DirectRegion

/-! ## The general region -/

/-- A lane has the indices of one pattern. -/
theorem mod_of_mem_laneIndices {step limit : Nat} (fuel : Nat) {start index : Nat}
    (hstart : start < limit) (hmem : index ∈ laneIndices step limit fuel start) :
    index % step = start % step ∧ index < limit := by
  induction fuel generalizing start with
  | zero => simp [laneIndices] at hmem
  | succ fuel ih =>
      rw [laneIndices] at hmem
      rcases List.mem_cons.mp hmem with rfl | hrest
      · exact ⟨rfl, hstart⟩
      · split at hrest
        · simp at hrest
        · obtain ⟨hmod, hlt⟩ := ih (by omega) hrest
          rw [Nat.add_mod_right] at hmod
          exact ⟨hmod, hlt⟩

/-- A lane visits every index of its residue. -/
theorem mem_laneIndices {step limit : Nat} (hstep : 1 ≤ step) (fuel : Nat) {start index : Nat}
    (hfuel : limit < fuel + start + 1) (hstart : start ≤ index) (hindex : index < limit)
    (hmod : index % step = start % step) : index ∈ laneIndices step limit fuel start := by
  induction fuel generalizing start with
  | zero => omega
  | succ fuel ih =>
      rw [laneIndices]
      by_cases heq : index = start
      · exact List.mem_cons.mpr (.inl heq)
      · have hnext : start + step ≤ index := by
          have hdvd : step ∣ index - start :=
            Nat.dvd_of_mod_eq_zero (Nat.sub_mod_eq_zero_of_mod_eq hmod)
          have := Nat.le_of_dvd (by omega) hdvd
          omega
        rw [if_neg (by omega)]
        apply List.mem_cons_of_mem
        exact ih (by omega) hnext (by rw [Nat.add_mod_right]; exact hmod)

/-- Searching elements one after another gives each its own value. -/
theorem searchIndices_eq {one : Nat → Local → Except NativeError (Int × Local)}
    {value : Nat → Int} (indices : List Nat)
    (hone : ∀ index ∈ indices, ∀ state, invariant state →
      ∃ state', one index state = .ok (value index, state') ∧ invariant state')
    {state : Local} (hstate : invariant state) :
    (searchIndices one indices state).ending = .next ∧
      (searchIndices one indices state).writes = indices.map (fun index => (index, value index)) ∧
      invariant (searchIndices one indices state).state := by
  induction indices generalizing state with
  | nil => exact ⟨rfl, rfl, hstate⟩
  | cons index rest ih =>
      obtain ⟨state', heq, hkept⟩ := hone index List.mem_cons_self state hstate
      obtain ⟨hending, hwrites, hlast⟩ :=
        ih (fun other hother => hone other (List.mem_cons_of_mem _ hother)) hkept
      simp only [searchIndices, heq, List.map_cons]
      exact ⟨hending, by rw [hwrites], hlast⟩

section GeneralRegion

variable (general) (options : FixedSearchOptions) (subjects patterns : List StringView)

/-- The general kernel's value at `index`, with both vectors recycled. -/
def generalValue (index : Nat) : Int :=
  general options (subjects.getD (index % subjects.length) .na)
    (patterns.getD (index % patterns.length) .na)

/-- What a task of the general region writes: one element, or the lane of one pattern. -/
def generalWrites (vectorizeLength generalStart index : Nat) : List (Nat × Int) :=
  (if patterns.length = 1 then if index < generalStart then [] else [index]
    else laneIndices patterns.length vectorizeLength vectorizeLength index).map
    fun other => (other, generalValue general options subjects patterns other)

variable {general options subjects patterns}

/-- What the general region writes. -/
theorem generalSpec (hlawful : search.Lawful invariant direct general)
    (hsubjects : ∀ view ∈ subjects, Normalized view)
    (hpatterns : ∀ view ∈ patterns, Normalized view) {vectorizeLength generalStart tasks : Nat}
    (hstart : patterns.length ≠ 1 → generalStart = 0) (htasks : patterns.length ≠ 1 →
      tasks = patterns.length ∧ patterns.length ≤ vectorizeLength) :
    TaskSpec (search.generalRegion options subjects patterns vectorizeLength generalStart
        search.counter) (fun _ _ => invariant) (fun _ => .next)
      (generalWrites general options subjects patterns vectorizeLength generalStart) tasks where
  setup _ _ := by
    simp only [generalRegion, searchBody]
    rw [if_neg fun h => by have := hstart h.2; omega]
    exact ⟨rfl, rfl, rfl, hlawful.initial⟩
  enterChunk _ _ _ _ hkept := ⟨rfl, rfl, hkept⟩
  task context index done task state _ htask _ hkept := by
    have hone : ∀ pattern other state, invariant state →
        ∃ state', search.one options (subjects.getD (other % subjects.length) .na)
          (patterns.getD pattern .na) state =
            .ok (general options (subjects.getD (other % subjects.length) .na)
              (patterns.getD pattern .na), state') ∧ invariant state' :=
      fun pattern other state hstate => hlawful.one_eq options
        (normalized_getD hsubjects _) (normalized_getD hpatterns _) hstate
    simp only [generalRegion, searchBody, generalWrites]
    by_cases hscalar : patterns.length = 1
    · rw [if_pos hscalar, if_pos hscalar]
      split
      next => exact ⟨rfl, rfl, hkept⟩
      next =>
        obtain ⟨hending, hwrites, hlast⟩ := searchIndices_eq [task]
          (fun other _ state hstate => hone 0 other state hstate) hkept
        refine ⟨by rw [hending]; rfl, ?_, hlast⟩
        rw [hwrites]
        simp only [generalValue, hscalar, Nat.mod_one]
    · rw [if_neg hscalar, if_neg hscalar]
      obtain ⟨rfl, hlength⟩ := htasks hscalar
      obtain ⟨hending, hwrites, hlast⟩ := searchIndices_eq
        (laneIndices patterns.length vectorizeLength vectorizeLength task)
        (fun other _ state hstate => hone task other state hstate) hkept
      refine ⟨by rw [hending]; rfl, ?_, hlast⟩
      rw [hwrites]
      apply List.map_congr_left
      intro other hother
      have hmod := (mod_of_mem_laneIndices _ (by omega) hother).1
      rw [generalValue, hmod, Nat.mod_eq_of_lt htask]
  leaveChunk _ _ _ _ hkept := ⟨rfl, rfl, hkept⟩

variable {plan : ParallelPlan} {memory : Nat → Option Int} {schedule : List Nat}
  {regionEnd : RegionEnd Local Int NativeError}

/-- The general region writes every slot from `generalStart` on and leaves those
below it alone. -/
theorem generalRegion_spec (hlawful : search.Lawful invariant direct general)
    (hsubjects : ∀ view ∈ subjects, Normalized view)
    (hpatterns : ∀ view ∈ patterns, Normalized view) {vectorizeLength generalStart tasks : Nat}
    (hstart : patterns.length ≠ 1 → generalStart = 0)
    (htasks : if patterns.length = 1 then tasks = vectorizeLength
      else tasks = patterns.length ∧ 1 ≤ patterns.length ∧ patterns.length ≤ vectorizeLength)
    (hrun : runParallel plan tasks
      (search.generalRegion options subjects patterns vectorizeLength generalStart
        search.counter) memory schedule = some regionEnd) :
    regionEnd.outcome = .returned ∧
      ∀ index, regionEnd.final.shared.result index =
        if generalStart ≤ index ∧ index < vectorizeLength then
          some (generalValue general options subjects patterns index)
        else memory index := by
  have hend := loopEnd_of_runRegion (generalSpec hlawful hsubjects hpatterns hstart
    (fun hscalar => by rw [if_neg hscalar] at htasks; exact ⟨htasks.1, htasks.2.2⟩)) hrun
  have hwrite : ∀ {task : Nat} {write : Nat × Int}, task < tasks →
      write ∈ generalWrites general options subjects patterns vectorizeLength generalStart task →
      generalStart ≤ write.1 ∧ write.1 < vectorizeLength ∧
        write.2 = generalValue general options subjects patterns write.1 := by
    intro task write htask hmem
    obtain ⟨index, hindex, rfl⟩ := List.mem_map.mp hmem
    by_cases hscalar : patterns.length = 1
    · rw [if_pos hscalar] at hindex htasks
      split at hindex
      · simp at hindex
      · obtain rfl := List.mem_singleton.mp hindex
        exact ⟨by omega, by omega, rfl⟩
    · rw [if_neg hscalar] at hindex htasks
      obtain ⟨-, hlt⟩ := mod_of_mem_laneIndices _ (by omega) hindex
      refine ⟨?_, hlt, rfl⟩
      rw [hstart hscalar]
      exact Nat.zero_le _
  refine ⟨hend.returned fun _ _ _ => by simp, ?_⟩
  intro index
  split
  next hinside =>
    -- the task that writes the slot: the index itself, or its lane
    obtain ⟨task, htask, hmem⟩ : ∃ task < tasks,
        (index, generalValue general options subjects patterns index) ∈
          generalWrites general options subjects patterns vectorizeLength generalStart task := by
      by_cases hscalar : patterns.length = 1
      · rw [if_pos hscalar] at htasks
        refine ⟨index, by omega, ?_⟩
        rw [generalWrites, if_pos hscalar, if_neg (by omega)]
        exact List.mem_singleton.mpr rfl
      · rw [if_neg hscalar] at htasks
        obtain ⟨rfl, hpos, hlength⟩ := htasks
        refine ⟨index % patterns.length, Nat.mod_lt _ hpos, ?_⟩
        rw [generalWrites, if_neg hscalar]
        apply List.mem_map_of_mem
        exact mem_laneIndices hpos _ (by omega) (Nat.mod_le _ _) hinside.2
          (Nat.mod_mod _ _).symm
    apply hend.result_eq_some htask (fun _ _ => rfl) hmem
    rintro other hother write hin rfl
    exact (hwrite hother hin).2.2
  next houtside =>
    apply hend.result_eq_initial
    rintro task htask write hin rfl
    obtain ⟨hfrom, hlt, -⟩ := hwrite htask hin
    exact houtside ⟨hfrom, hlt⟩

end GeneralRegion

end VectorSearch

end Charr.FixedSearch
