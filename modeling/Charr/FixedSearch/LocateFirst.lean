import Charr.FixedSearch.Locate
import Charr.Library.Loops
import Charr.Parallel.Items

/-!
# Locating first matches in a vector

The result is a matrix of two columns, and an element writes its two cells. On several
workers the direct phase is a region of its own, which ends at the first record that is
not stored as ASCII or UTF-8; the general path goes on from there. Neither the workers nor
the path that computed a row show in the matrix.
-/

namespace Charr.FixedSearch

open Parallel Loops
open Utf8 (CodePoint)
open FixedMatcher (Consistent)
open VectorSearch (rejects firstIneligible directEnds parkedSlot directEnds_eq_next
  firstIneligible_eq_some firstIneligible_eq_none eligible_below find_eq_of_sorted)

/-! ## The operation -/

/-- The cells of an element in a matrix of two columns. -/
def rowCells (rows index : Nat) (row : ByteRange) : List (Nat × Int) :=
  [(index, row.start), (index + rows, row.stop)]

/-- `DirectFirstBody`: a worker stops at a record that needs the general path and parks it. -/
def directFirstBody (subjects : List StringView) (state : DirectFirstState) :
    ParallelBody Int Int NativeError where
  initial _ := subjects.length
  task _ index slot :=
    match locateFirstDirectElement state (subjects.getD index .na) with
    | some row => { ending := .next, state := slot, writes := rowCells subjects.length index row }
    | none => { ending := .stopsEarly, state := index }
  describeError := NativeError.text

/-- The lowest report, or `none` where there is none. -/
def firstIneligibleIndex (reports : List Int) (none : Int) : Int :=
  reports.foldl (fun first report => if report < first then report else first) none

/-- The serial scan: the index it stopped at, and the matrix. -/
def locateFirstAsciiScalarDirect (subjects : List StringView) (state : DirectFirstState) :
    List Nat → (Nat → Option Int) → Option Nat × (Nat → Option Int)
  | [], memory => (none, memory)
  | index :: rest, memory =>
      match locateFirstDirectElement state (subjects.getD index .na) with
      | some row =>
          locateFirstAsciiScalarDirect subjects state rest
            ((rowCells subjects.length index row).foldl store memory)
      | none => (some index, memory)

/-- Locate at some indices in turn. -/
def locateIndices (rows : Nat)
    (one : Nat → FixedMatcher → Except NativeError (ByteRange × FixedMatcher)) :
    List Nat → FixedMatcher → ActionResult FixedMatcher Int NativeError
  | [], matcher => .pass matcher
  | index :: rest, matcher =>
      match one index matcher with
      | .error error => { ending := .throws error, state := matcher }
      | .ok (row, matcher) =>
          let tail := locateIndices rows one rest matcher
          { tail with writes := rowCells rows index row ++ tail.writes }

section Operation

variable (toUpper : CodePoint → CodePoint) (options : FixedSearchOptions) (returnLength : Bool)

/-- `Body`: a single pattern is searched for task by task; several patterns are a lane each. -/
def locateBody (subjects patterns : List StringView) (vectorizeLength generalStart : Nat) :
    ParallelBody FixedMatcher Int NativeError where
  initial _ := {}
  setup _ matcher :=
    if generalStart > 0 ∧ patterns.length ≠ 1 then
      { ending := .throws (.logicError "fixed-locate direct prefix requires a scalar pattern")
        state := matcher }
    else .pass matcher
  task _ index matcher :=
    let one (pattern : StringView) (other : Nat) :=
      locateOne toUpper options returnLength (subjects.getD (other % subjects.length) .na) pattern
    if patterns.length = 1 then
      if index < generalStart then .pass matcher
      else locateIndices vectorizeLength (one (patterns.getD 0 .na)) [index] matcher
    else
      locateIndices vectorizeLength (one (patterns.getD index .na))
        (laneIndices patterns.length vectorizeLength vectorizeLength index) matcher
  describeError := NativeError.text

/-- How far the direct phase came. -/
structure DirectRows where
  direct : Bool
  generalStart : Nat
  memory : Nat → Option Int

/-- The direct search as far as it gets. -/
def directRows (plan : ParallelPlan) (subjects patterns : List StringView)
    (schedule : List Nat) : Option (Except String DirectRows) :=
  match directFirstEligible patterns options returnLength with
  | none => some (.ok ⟨false, 0, fun _ => none⟩)
  | some state =>
      -- a scalar pattern, so there are as many tasks as subjects
      let tasks := subjects.length
      if plan.workers > 1 then do
        let regionEnd ← runParallel plan tasks (directFirstBody subjects state)
          (fun _ => none) schedule
        match regionEnd.outcome.message NativeError.text with
        | some message => return .error message
        | none =>
            let first := firstIneligibleIndex
              ((List.range plan.workers).map fun worker => (regionEnd.final.worker worker).state)
              tasks
            let direct : Bool := first = tasks
            return .ok ⟨direct, if direct then 0 else first.toNat, regionEnd.final.shared.result⟩
      else
        match locateFirstAsciiScalarDirect subjects state (List.range tasks) fun _ => none with
        | (none, memory) => some (.ok ⟨true, 0, memory⟩)
        | (some index, memory) => some (.ok ⟨false, index, memory⟩)

/-- The matrix of the first matches, a schedule for each of the two regions. -/
def ciLocateFirstFixed (converter : NativeToUtf8) (settings : Settings)
    (subjects patterns : List StringView) (directSchedule generalSchedule : List Nat) :
    Option (Except String SearchResult) :=
  let (vectorizeLength, recyclingWarning) := recyclingLength subjects.length patterns.length
  if vectorizeLength > 0 then do
    let tasks := if patterns.length = 1 then vectorizeLength else patterns.length
    let plan := parallelPlan settings true tasks
    match ← directRows options returnLength plan subjects patterns directSchedule with
    | .error message => return .error message
    | .ok reached =>
        if reached.direct then
          return .ok ⟨vectorizeLength, reached.memory, recyclingWarning, 0⟩
        else
          match normalizeViews converter ⟨0⟩ subjects, normalizeViews converter ⟨0⟩ patterns with
          | .error error, _ => return .error error.text
          | .ok _, .error error => return .error error.text
          | .ok subjects, .ok patterns =>
              let regionEnd ← runParallel plan tasks
                (locateBody toUpper options returnLength subjects patterns vectorizeLength
                  reached.generalStart)
                reached.memory generalSchedule
              match regionEnd.outcome.message NativeError.text with
              | some message => return .error message
              | none =>
                  return .ok ⟨vectorizeLength, regionEnd.final.shared.result, recyclingWarning,
                    countEmptyPatterns patterns⟩
  else some (.ok ⟨vectorizeLength, fun _ => none, recyclingWarning, 0⟩)

end Operation

/-! ## Cells -/

/-- The matrix holds the row of an element. -/
def HoldsRow (memory : Nat → Option Int) (rows index : Nat) (row : ByteRange) : Prop :=
  memory index = some row.start ∧ memory (index + rows) = some row.stop

/-- No two rows share a cell. -/
theorem eq_of_mem_rowCells {rows index other : Nat} {row : ByteRange} {write : Nat × Int}
    (hindex : index < rows) (hother : other < rows) (hwrite : write ∈ rowCells rows other row) :
    (write.1 = index → other = index ∧ write.2 = row.start) ∧
      (write.1 = index + rows → other = index ∧ write.2 = row.stop) := by
  rcases List.mem_cons.mp hwrite with rfl | hlast
  · exact ⟨fun h => ⟨h, rfl⟩, fun h => by dsimp only at h; omega⟩
  · obtain rfl := List.mem_singleton.mp hlast
    exact ⟨fun h => by dsimp only at h; omega, fun h => ⟨by dsimp only at h; omega, rfl⟩⟩

section Cells

variable {Local : Type} {body : ParallelBody Local Int NativeError}
  {invariant : Nat → List Nat → Local → Prop} {ends : Nat → Ending String}
  {group : Nat → List Nat} {row : Nat → ByteRange} {rows workers tasks chunk : Nat}
  {memory : Nat → Option Int} {regionEnd : RegionEnd Local Int NativeError}
  (hend : LoopEnd body invariant ends
    (fun task => (group task).flatMap fun index => rowCells rows index (row index))
    workers tasks chunk memory regionEnd)
  (hgroup : ∀ task < tasks, ∀ index ∈ group task, index < rows)
include hend hgroup

/-- The elements own their cells: whoever writes them, they hold the row of the element. -/
theorem holdsRow_of_ran {task index : Nat} (htask : task < tasks)
    (hbelow : ∀ earlier < task, ends earlier = .next) (hindex : index ∈ group task) :
    HoldsRow regionEnd.final.shared.result rows index (row index) := by
  have hinside := hgroup task htask index hindex
  have hcells : ∀ write ∈ rowCells rows index (row index),
      write ∈ (group task).flatMap fun index => rowCells rows index (row index) :=
    fun write hwrite => List.mem_flatMap.mpr ⟨index, hindex, hwrite⟩
  constructor
  · apply hend.result_eq_some htask hbelow (hcells _ List.mem_cons_self)
    intro other hother write hwrite hslot
    obtain ⟨writer, hwriter, hwrite⟩ := List.mem_flatMap.mp hwrite
    obtain ⟨rfl, hvalue⟩ := (eq_of_mem_rowCells hinside (hgroup other hother writer hwriter)
      hwrite).1 hslot
    exact hvalue
  · apply hend.result_eq_some htask hbelow
      (hcells _ (List.mem_cons_of_mem _ (List.mem_singleton_self _)))
    intro other hother write hwrite hslot
    obtain ⟨writer, hwriter, hwrite⟩ := List.mem_flatMap.mp hwrite
    obtain ⟨rfl, hvalue⟩ := (eq_of_mem_rowCells hinside (hgroup other hother writer hwriter)
      hwrite).2 hslot
    exact hvalue

/-- The cells of an element that no task writes are left as they were. -/
theorem holdsRow_of_kept {index : Nat} (hindex : index < rows)
    (hnot : ∀ task < tasks, index ∉ group task) {held : ByteRange}
    (hheld : HoldsRow memory rows index held) :
    HoldsRow regionEnd.final.shared.result rows index held := by
  have hkept : ∀ slot, slot = index ∨ slot = index + rows →
      regionEnd.final.shared.result slot = memory slot := by
    intro slot hslot
    apply hend.result_eq_initial
    rintro task htask write hwrite rfl
    obtain ⟨writer, hwriter, hwrite⟩ := List.mem_flatMap.mp hwrite
    have hcases := eq_of_mem_rowCells hindex (hgroup task htask writer hwriter) hwrite
    obtain rfl : writer = index := by
      rcases hslot with hslot | hslot
      · exact (hcases.1 hslot).1
      · exact (hcases.2 hslot).1
    exact hnot task htask hwriter
  exact ⟨(hkept index (.inl rfl)).trans hheld.1, (hkept _ (.inr rfl)).trans hheld.2⟩

end Cells

/-! ## The direct phase -/

section Direct

/-- The first cell of the kernel's row. -/
def startCell (state : DirectFirstState) (_ : UInt8) (view : StringView) : Option Int :=
  (locateFirstDirectElement state view).map ByteRange.start

variable {subjects : List StringView} {state : DirectFirstState}

/-- The direct search stops at the element that has no direct row. -/
theorem rejects_startCell {index : Nat} {byte : UInt8} :
    rejects (startCell state) subjects byte index =
      (locateFirstDirectElement state (subjects.getD index .na)).isNone := by
  simp [rejects, VectorSearch.directValue, startCell]

variable (subjects state) in
/-- The rows of the direct kernel, where it has one. -/
def directRow (index : Nat) : ByteRange :=
  (locateFirstDirectElement state (subjects.getD index .na)).getD missingRange

variable (subjects state) in
/-- The element a task of the direct phase writes. -/
def directGroup (index : Nat) : List Nat :=
  if (locateFirstDirectElement state (subjects.getD index .na)).isSome then [index] else []

/-- What the direct region has written and parked. -/
theorem directFirstSpec :
    TaskSpec (directFirstBody subjects state)
      (fun _ done slot => slot = parkedSlot (startCell state) subjects 0 subjects.length done)
      (directEnds (startCell state) subjects 0)
      (fun task => (directGroup subjects state task).flatMap fun index =>
        rowCells subjects.length index (directRow subjects state index))
      subjects.length where
  setup _ _ := ⟨rfl, rfl, rfl, rfl⟩
  enterChunk _ _ _ _ hslot := ⟨rfl, rfl, hslot⟩
  task _ _ done task slot _ _ hdone hslot := by
    have hnone : done.find? (rejects (startCell state) subjects 0) = none := by
      rw [List.find?_eq_none]
      intro earlier hearlier
      rw [directEnds_eq_next.mp (hdone earlier hearlier)]
      exact Bool.false_ne_true
    simp only [directFirstBody]
    cases hrow : locateFirstDirectElement state (subjects.getD task .na) with
    | none =>
        have hrejects : rejects (startCell state) subjects 0 task = true := by
          rw [rejects_startCell, hrow]
          rfl
        refine ⟨by simp [directEnds, hrejects, Ending.map], by rw [directGroup, hrow]; rfl, ?_⟩
        simp [parkedSlot, List.find?_append, hnone, hrejects]
    | some row =>
        have haccepts : rejects (startCell state) subjects 0 task = false := by
          rw [rejects_startCell, hrow]
          rfl
        refine ⟨by simp [directEnds, haccepts, Ending.map], ?_, ?_⟩
        · rw [directGroup, hrow, Option.isSome_some, if_pos rfl, List.flatMap_singleton, directRow,
            hrow]
          rfl
        · rw [hslot, parkedSlot, parkedSlot, List.find?_append, hnone]
          simp [haccepts]
  leaveChunk _ _ _ _ hslot := ⟨rfl, rfl, hslot⟩

theorem firstIneligibleIndex_eq (reports : List Int) (none : Int) :
    firstIneligibleIndex reports none = lowestParked none reports := rfl

/-- The matrix after the direct phase: the rows of the kernel below the first record it cannot
read, and nothing behind the matrix. -/
structure ScannedTo (subjects : List StringView) (state : DirectFirstState) (stop : Nat)
    (memory : Nat → Option Int) : Prop where
  rows : ∀ index < stop, ∃ row,
    locateFirstDirectElement state (subjects.getD index .na) = some row ∧
      HoldsRow memory subjects.length index row

/-- Where the serial scan stops. -/
def scanStop (subjects : List StringView) (state : DirectFirstState) : Option Nat :=
  firstIneligible (startCell state) subjects 0

/-- Below the stop every element has its direct row. -/
theorem exists_row_below {index : Nat}
    (hindex : index < (scanStop subjects state).getD subjects.length) :
    index < subjects.length ∧ (∀ earlier ≤ index,
      rejects (startCell state) subjects 0 earlier = false) ∧
      ∃ row, locateFirstDirectElement state (subjects.getD index .na) = some row := by
  obtain ⟨hlt, hbelow⟩ := eligible_below hindex
  refine ⟨hlt, hbelow, ?_⟩
  have haccepts := hbelow index (Nat.le_refl index)
  rw [rejects_startCell] at haccepts
  exact Option.isSome_iff_exists.mp (by simpa using haccepts)

variable {plan : ParallelPlan} {schedule : List Nat}
  {regionEnd : RegionEnd Int Int NativeError} {memory : Nat → Option Int}

/-- The lowest parked index is where a serial scan would have stopped. -/
theorem directFirstRegion_stop
    (hrun : runParallel plan subjects.length (directFirstBody subjects state) memory schedule =
      some regionEnd) :
    firstIneligibleIndex ((List.range (regionWorkers plan subjects.length)).map fun worker =>
      (regionEnd.final.worker worker).state) subjects.length =
        (scanStop subjects state).elim (subjects.length : Int) (fun stop => (stop : Int)) := by
  have hend := loopEnd_of_runRegion directFirstSpec hrun
  rw [firstIneligibleIndex_eq]
  have hslots : ∀ slot ∈ (List.range (regionWorkers plan subjects.length)).map (fun worker =>
      (regionEnd.final.worker worker).state), ∃ worker < regionWorkers plan subjects.length,
      slot = parkedSlot (startCell state) subjects 0 subjects.length
        (ranIn (directEnds (startCell state) subjects 0) subjects.length (regionChunk plan)
          (owned subjects.length (regionChunk plan) regionEnd.final.claims worker)) := by
    intro slot hslot
    obtain ⟨worker, hworker, rfl⟩ := List.mem_map.mp hslot
    rw [List.mem_range] at hworker
    exact ⟨worker, hworker, hend.state hworker⟩
  have hlawful := @countFixed_lawful id
  cases hstop : scanStop subjects state with
  | none =>
      apply hlawful.lowest_none
      intro slot hslot
      obtain ⟨worker, hworker, rfl⟩ := hslots slot hslot
      rw [parkedSlot, List.find?_eq_none.mpr]
      · rfl
      · intro task htask
        rw [firstIneligible_eq_none hstop task (hend.lt_tasks_of_ran htask)]
        exact Bool.false_ne_true
  | some stop =>
      obtain ⟨hlt, hrejects, hbelow⟩ := firstIneligible_eq_some hstop
      apply hlawful.lowest_some hlt
      · -- the worker that reaches this record parks it
        obtain ⟨worker, hworker, hran⟩ := hend.exists_ran hlt
          fun earlier hearlier => directEnds_eq_next.mpr (hbelow earlier hearlier)
        refine List.mem_map.mpr ⟨worker, List.mem_range.mpr hworker, ?_⟩
        have hslot : (regionEnd.final.worker worker).state = _ := hend.state hworker
        rw [hslot, parkedSlot, find_eq_of_sorted _ hran hrejects]
        · intro task _ htask
          by_contra hless
          rw [hbelow task (by omega)] at htask
          exact Bool.false_ne_true htask
        · exact ranIn_sorted (one_le_regionChunk plan) (owned_sorted _ _ _ _)
      · -- what another worker parks comes later
        intro slot hslot
        obtain ⟨worker, hworker, rfl⟩ := hslots slot hslot
        rw [parkedSlot]
        split
        next => exact .inl rfl
        next task htask =>
          have hran := hend.lt_tasks_of_ran (List.mem_of_find?_eq_some htask)
          have hbad := List.find?_some htask
          refine .inr ⟨?_, by omega⟩
          by_contra hless
          rw [hbelow task (by omega)] at hbad
          exact Bool.false_ne_true hbad

/-- The region returns, tells where a serial scan would have stopped, and has the rows of the
kernel below it. -/
theorem directFirstRegion_spec
    (hrun : runParallel plan subjects.length (directFirstBody subjects state) memory schedule =
      some regionEnd) :
    regionEnd.outcome = .returned ∧
      firstIneligibleIndex ((List.range (regionWorkers plan subjects.length)).map fun worker =>
        (regionEnd.final.worker worker).state) subjects.length =
          (scanStop subjects state).elim (subjects.length : Int) (fun stop => (stop : Int)) ∧
      ScannedTo subjects state ((scanStop subjects state).getD subjects.length)
        regionEnd.final.shared.result := by
  have hend := loopEnd_of_runRegion directFirstSpec hrun
  have hgroup : ∀ task < subjects.length, ∀ index ∈ directGroup subjects state task,
      index < subjects.length := by
    intro task htask index hindex
    unfold directGroup at hindex
    split at hindex
    · rwa [List.mem_singleton.mp hindex]
    · exact absurd hindex (by simp)
  refine ⟨?_, directFirstRegion_stop hrun, ⟨?_⟩⟩
  · apply hend.returned
    intro task _ message hthrows
    unfold directEnds at hthrows
    split at hthrows <;> simp at hthrows
  · intro index hindex
    obtain ⟨hlt, hbelow, row, hrow⟩ := exists_row_below hindex
    refine ⟨row, hrow, ?_⟩
    have hholds := holdsRow_of_ran hend hgroup hlt
      (fun earlier hearlier => directEnds_eq_next.mpr (hbelow earlier hearlier.le))
      (show index ∈ directGroup subjects state index by
        rw [directGroup, hrow]
        exact List.mem_singleton_self index)
    rwa [directRow, hrow] at hholds

end Direct

/-! ## The serial scan -/

section Scan

variable {subjects : List StringView} {state : DirectFirstState} {memory : Nat → Option Int}
  {rows index : Nat} {row : ByteRange}

/-- A row that is stored is held. -/
theorem holdsRow_stored (hrows : 0 < rows) (row : ByteRange) :
    HoldsRow ((rowCells rows index row).foldl store memory) rows index row := by
  simp only [rowCells, List.foldl_cons, List.foldl_nil, store]
  refine ⟨?_, Function.update_self ..⟩
  rw [Function.update_of_ne (by omega), Function.update_self]

/-- Storing another row does not touch it. -/
theorem HoldsRow.stored {other : Nat} {held : ByteRange} (hheld : HoldsRow memory rows other held)
    (hother : other < rows) (hindex : index < rows) (hne : other ≠ index) :
    HoldsRow ((rowCells rows index row).foldl store memory) rows other held := by
  simp only [rowCells, List.foldl_cons, List.foldl_nil, store]
  constructor
  · rw [Function.update_of_ne (by omega), Function.update_of_ne hne]
    exact hheld.1
  · rw [Function.update_of_ne (by omega), Function.update_of_ne (by omega)]
    exact hheld.2

/-- The scan stops where the kernel does not have a row, and leaves the rows below. -/
theorem locateFirstAsciiScalarDirect_spec (count : Nat) {start : Nat}
    (hcount : start + count = subjects.length)
    (hbefore : ScannedTo subjects state start memory) :
    let scan := locateFirstAsciiScalarDirect subjects state (List.range' start count) memory
    scan.1 = (List.range' start count).find? (rejects (startCell state) subjects 0) ∧
      ScannedTo subjects state (scan.1.getD subjects.length) scan.2 := by
  induction count generalizing start memory with
  | zero =>
      obtain rfl : start = subjects.length := by omega
      exact ⟨rfl, hbefore⟩
  | succ count ih =>
      rw [List.range'_succ]
      simp only [locateFirstAsciiScalarDirect, List.find?_cons]
      rw [rejects_startCell]
      cases hrow : locateFirstDirectElement state (subjects.getD start .na) with
      | none => exact ⟨rfl, hbefore⟩
      | some row =>
          have hafter : ScannedTo subjects state (start + 1)
              ((rowCells subjects.length start row).foldl store memory) := by
            refine ⟨fun index hindex => ?_⟩
            obtain hlt | rfl := Nat.lt_or_eq_of_le (Nat.le_of_lt_succ hindex)
            · obtain ⟨other, hother, hheld⟩ := hbefore.rows index hlt
              exact ⟨other, hother, hheld.stored (by omega) (by omega) (by omega)⟩
            · exact ⟨row, hrow, holdsRow_stored (by omega) row⟩
          exact ih (by omega) hafter

end Scan

/-! ## The general region -/

section General

variable {toUpper : CodePoint → CodePoint} {options : FixedSearchOptions} {returnLength : Bool}

variable (toUpper options returnLength) in
/-- The row a new matcher gives. -/
def generalRow (subject pattern : StringView) : ByteRange :=
  match locateOne toUpper options returnLength subject pattern {} with
  | .ok (row, _) => row
  | .error _ => missingRange

/-- Whatever the matcher was used for, the row is that of a new one. -/
theorem locateOne_eq {subject pattern : StringView} {matcher : FixedMatcher}
    (hmatcher : Consistent toUpper matcher) (hsubject : Normalized subject)
    (hpattern : Normalized pattern)
    (hascii : subject.enc = .ascii → ∀ byte ∈ subject.bytes, byte < 0x80) :
    Located toUpper options returnLength subject pattern
        (generalRow toUpper options returnLength subject pattern) ∧
      ∃ matcher', locateOne toUpper options returnLength subject pattern matcher =
          .ok (generalRow toUpper options returnLength subject pattern, matcher') ∧
        Consistent toUpper matcher' := by
  obtain ⟨row, hrow, hall⟩ :=
    @locateOne_located toUpper options returnLength _ _ hsubject hpattern hascii
  obtain ⟨last, hfresh, -⟩ := hall {} (FixedMatcher.consistent_default toUpper)
  have hgeneral : generalRow toUpper options returnLength subject pattern = row := by
    rw [generalRow, hfresh]
  rw [hgeneral]
  exact ⟨hrow, hall matcher hmatcher⟩

/-- Locating elements one after another gives each its own row. -/
theorem locateIndices_eq {rows : Nat} {row : Nat → ByteRange}
    {one : Nat → FixedMatcher → Except NativeError (ByteRange × FixedMatcher)}
    (hone : ∀ index matcher, Consistent toUpper matcher →
      ∃ matcher', one index matcher = .ok (row index, matcher') ∧ Consistent toUpper matcher')
    (indices : List Nat) {matcher : FixedMatcher} (hmatcher : Consistent toUpper matcher) :
    let result := locateIndices rows one indices matcher
    result.ending = .next ∧
      result.writes = (indices.flatMap fun index => rowCells rows index (row index)) ∧
      Consistent toUpper result.state := by
  induction indices generalizing matcher with
  | nil => exact ⟨rfl, rfl, hmatcher⟩
  | cons index rest ih =>
      obtain ⟨matcher', heq, hkept⟩ := hone index matcher hmatcher
      obtain ⟨hending, hwrites, hlast⟩ := ih hkept
      simp only [locateIndices, heq, List.flatMap_cons]
      exact ⟨hending, by rw [hwrites], hlast⟩

variable (subjects patterns : List StringView)

/-- The elements of a task: its own, or those of its lane. -/
def locateGroup (vectorizeLength generalStart task : Nat) : List Nat :=
  if patterns.length = 1 then if task < generalStart then [] else [task]
  else laneIndices patterns.length vectorizeLength vectorizeLength task

variable (toUpper options returnLength) in
/-- The row of an element, with both vectors recycled. -/
def locatedRowAt (index : Nat) : ByteRange :=
  generalRow toUpper options returnLength (subjects.getD (index % subjects.length) .na)
    (patterns.getD (index % patterns.length) .na)

variable {subjects patterns}

theorem ascii_getD (hascii : ∀ view ∈ subjects, view.enc = .ascii →
      ∀ byte ∈ view.bytes, byte < 0x80) (index : Nat) :
    (subjects.getD index .na).enc = .ascii →
      ∀ byte ∈ (subjects.getD index .na).bytes, byte < 0x80 := by
  rw [List.getD_eq_getElem?_getD]
  cases hget : subjects[index]? with
  | none => exact fun _ byte hbyte => absurd hbyte (List.not_mem_nil)
  | some view => exact hascii view (List.mem_of_getElem? hget)

variable (hsubjects : ∀ view ∈ subjects, Normalized view)
  (hpatterns : ∀ view ∈ patterns, Normalized view)
  (hascii : ∀ view ∈ subjects, view.enc = .ascii → ∀ byte ∈ view.bytes, byte < 0x80)
include hsubjects hpatterns hascii

/-- What the general region writes. -/
theorem locateSpec {vectorizeLength generalStart tasks : Nat}
    (hstart : patterns.length ≠ 1 → generalStart = 0) (htasks : patterns.length ≠ 1 →
      tasks = patterns.length ∧ patterns.length ≤ vectorizeLength) :
    TaskSpec (locateBody toUpper options returnLength subjects patterns vectorizeLength
        generalStart) (fun _ _ matcher => Consistent toUpper matcher) (fun _ => .next)
      (fun task => (locateGroup patterns vectorizeLength generalStart task).flatMap fun index =>
        rowCells vectorizeLength index
          (locatedRowAt toUpper options returnLength subjects patterns index)) tasks where
  setup _ _ := by
    simp only [locateBody]
    rw [if_neg fun h => by have := hstart h.2; omega]
    exact ⟨rfl, rfl, rfl, FixedMatcher.consistent_default toUpper⟩
  enterChunk _ _ _ _ hkept := ⟨rfl, rfl, hkept⟩
  task context index done task matcher _ htask _ hkept := by
    have hone : ∀ pattern other matcher, Consistent toUpper matcher →
        ∃ matcher', locateOne toUpper options returnLength
          (subjects.getD (other % subjects.length) .na) (patterns.getD pattern .na) matcher =
            .ok (generalRow toUpper options returnLength
              (subjects.getD (other % subjects.length) .na) (patterns.getD pattern .na),
              matcher') ∧ Consistent toUpper matcher' :=
      fun pattern other matcher hmatcher => (locateOne_eq hmatcher
        (normalized_getD hsubjects _) (normalized_getD hpatterns _) (ascii_getD hascii _)).2
    simp only [locateBody, locateGroup]
    by_cases hscalar : patterns.length = 1
    · rw [if_pos hscalar, if_pos hscalar]
      split
      next => exact ⟨rfl, rfl, hkept⟩
      next =>
        obtain ⟨hending, hwrites, hlast⟩ := @locateIndices_eq toUpper vectorizeLength _ _
          (fun other matcher hmatcher => hone 0 other matcher hmatcher) [task] _ hkept
        refine ⟨by rw [hending]; rfl, ?_, hlast⟩
        rw [hwrites]
        simp only [locatedRowAt, hscalar, Nat.mod_one]
    · rw [if_neg hscalar, if_neg hscalar]
      obtain ⟨rfl, hlength⟩ := htasks hscalar
      obtain ⟨hending, hwrites, hlast⟩ := @locateIndices_eq toUpper vectorizeLength _ _
        (fun other matcher hmatcher => hone task other matcher hmatcher)
        (laneIndices patterns.length vectorizeLength vectorizeLength task) _ hkept
      refine ⟨by rw [hending]; rfl, ?_, hlast⟩
      rw [hwrites, List.flatMap_congr]
      intro other hother
      have hmod := (VectorSearch.mod_of_mem_laneIndices _ (by omega) hother).1
      rw [locatedRowAt, hmod, Nat.mod_eq_of_lt htask]
  leaveChunk _ _ _ _ hkept := ⟨rfl, rfl, hkept⟩

variable {plan : ParallelPlan} {memory : Nat → Option Int} {schedule : List Nat}
  {regionEnd : RegionEnd FixedMatcher Int NativeError}

/-- The general region writes the rows from `generalStart` on and leaves those below alone. -/
theorem locateRegion_spec {vectorizeLength generalStart tasks : Nat}
    (hstart : patterns.length ≠ 1 → generalStart = 0)
    (htasks : if patterns.length = 1 then tasks = vectorizeLength
      else tasks = patterns.length ∧ 1 ≤ patterns.length ∧ patterns.length ≤ vectorizeLength)
    (hrun : runParallel plan tasks (locateBody toUpper options returnLength subjects patterns
      vectorizeLength generalStart) memory schedule = some regionEnd) :
    regionEnd.outcome = .returned ∧
      (∀ index, generalStart ≤ index → index < vectorizeLength →
        HoldsRow regionEnd.final.shared.result vectorizeLength index
          (locatedRowAt toUpper options returnLength subjects patterns index)) ∧
      ∀ index < generalStart, index < vectorizeLength → ∀ held,
        HoldsRow memory vectorizeLength index held →
          HoldsRow regionEnd.final.shared.result vectorizeLength index held := by
  have hend := loopEnd_of_runRegion (locateSpec hsubjects hpatterns hascii hstart
    (fun hscalar => by rw [if_neg hscalar] at htasks; exact ⟨htasks.1, htasks.2.2⟩)) hrun
  have hgroup : ∀ task < tasks, ∀ index ∈ locateGroup patterns vectorizeLength generalStart task,
      index < vectorizeLength ∧ generalStart ≤ index := by
    intro task htask index hindex
    unfold locateGroup at hindex
    by_cases hscalar : patterns.length = 1
    · rw [if_pos hscalar] at hindex htasks
      split at hindex
      · exact absurd hindex (by simp)
      · obtain rfl := List.mem_singleton.mp hindex
        omega
    · rw [if_neg hscalar] at hindex htasks
      obtain ⟨-, hlt⟩ := VectorSearch.mod_of_mem_laneIndices _ (by omega) hindex
      rw [hstart hscalar]
      exact ⟨hlt, Nat.zero_le _⟩
  refine ⟨hend.returned fun _ _ _ => by simp, ?_, ?_⟩
  · intro index hfrom hindex
    -- the task that writes the row: the index itself, or its lane
    obtain ⟨task, htask, hmem⟩ : ∃ task < tasks,
        index ∈ locateGroup patterns vectorizeLength generalStart task := by
      unfold locateGroup
      by_cases hscalar : patterns.length = 1
      · rw [if_pos hscalar] at htasks
        refine ⟨index, by omega, ?_⟩
        rw [if_pos hscalar, if_neg (by omega)]
        exact List.mem_singleton.mpr rfl
      · rw [if_neg hscalar] at htasks
        obtain ⟨rfl, hpos, hlength⟩ := htasks
        refine ⟨index % patterns.length, Nat.mod_lt _ hpos, ?_⟩
        rw [if_neg hscalar]
        exact VectorSearch.mem_laneIndices hpos _ (by omega) (Nat.mod_le _ _) hindex
          (Nat.mod_mod _ _).symm
    exact holdsRow_of_ran hend (fun task htask index hindex => (hgroup task htask index hindex).1)
      htask (fun _ _ => rfl) hmem
  · intro index hbelow hindex held hheld
    exact holdsRow_of_kept hend (fun task htask index hindex => (hgroup task htask index hindex).1)
      hindex (fun task htask hmem => absurd (hgroup task htask index hmem).2
        (Nat.not_le.mpr hbelow)) hheld

end General

/-! ## The matrix -/

section Matrix

variable {toUpper : CodePoint → CodePoint} {converter : NativeToUtf8}
  {options : FixedSearchOptions} {returnLength : Bool} {settings : Settings}
  {subjects patterns : List StringView}

theorem present_congr {view other : StringView} {text : List UInt8}
    (hsame : view.unplaced = other.unplaced) (hview : FixedMatcher.Present view text) :
    FixedMatcher.Present other text := by
  have hna : other.isNa = false := by
    rw [← StringView.unplaced_isNa, ← hsame, StringView.unplaced_isNa]
    exact hview.not_na
  have hnull : other.isNull = false := by
    rw [← StringView.unplaced_isNull, ← hsame, StringView.unplaced_isNull]
    exact hview.not_null
  have hbytes : other.bytes = text := by
    rw [← StringView.unplaced_bytes, ← hsame, StringView.unplaced_bytes]
    exact hview.bytes_eq
  cases hdata : other.data with
  | null len => simp [StringView.isNull, hdata] at hnull
  | bytes span => exact ⟨hna, span, hdata, by simpa [StringView.bytes, hdata] using hbytes⟩

/-- Where the record and the pattern are put does not matter to the row. -/
theorem Located.congr {subject pattern subject' pattern' : StringView} {row : ByteRange}
    (hsubject : subject.unplaced = subject'.unplaced)
    (hpattern : pattern.unplaced = pattern'.unplaced)
    (hrow : Located toUpper options returnLength subject pattern row) :
    Located toUpper options returnLength subject' pattern' row := by
  cases hrow with
  | missing hmissing =>
      apply Located.missing
      rwa [← StringView.unplaced_isNa, ← StringView.unplaced_isNa pattern',
        ← StringView.unplaced_len pattern', ← hsubject, ← hpattern, StringView.unplaced_isNa,
        StringView.unplaced_isNa, StringView.unplaced_len]
  | searched hpresent hneedle hne hmatches =>
      exact .searched (present_congr hsubject hpresent) (present_congr hpattern hneedle) hne
        hmatches

/-- The views of a normalized vector are the normalized records. -/
theorem normalizes_getD {views : List StringView} {storage : SliceArena}
    (hviews : normalizeViews converter storage subjects = .ok views) {index : Nat}
    (hindex : index < subjects.length) :
    Normalizes converter (subjects.getD index .na) (views.getD index .na) := by
  induction subjects generalizing storage views index with
  | nil => exact absurd hindex (Nat.not_lt_zero index)
  | cons source rest ih =>
      rw [normalizeViews] at hviews
      obtain ⟨⟨view, next⟩, hview, hviews⟩ := except_bind_ok hviews
      obtain ⟨others, hothers, hviews⟩ := except_bind_ok hviews
      obtain rfl : view :: others = views := Except.ok.inj hviews
      cases index with
      | zero => exact ⟨storage, next, hview⟩
      | succ index => exact ih hothers (Nat.lt_of_succ_lt_succ hindex)

/-- Normalized records that are marked as ASCII are ASCII, if the records they came from are. -/
theorem ascii_of_normalizeViews {views : List StringView} {storage : SliceArena}
    (hviews : normalizeViews converter storage subjects = .ok views)
    (hascii : ∀ view ∈ subjects, view.enc = .ascii → ∀ byte ∈ view.bytes, byte < 0x80) :
    ∀ view ∈ views, view.enc = .ascii → ∀ byte ∈ view.bytes, byte < 0x80 := by
  intro view hview
  obtain ⟨hcount, -⟩ := normalizeViews_spec hviews
  obtain ⟨index, hindex, rfl⟩ := List.mem_iff_getElem.mp hview
  rw [hcount] at hindex
  have hsame := normalizes_getD hviews hindex
  rw [List.getD_eq_getElem?_getD, List.getD_eq_getElem?_getD,
    List.getElem?_eq_getElem hindex, List.getElem?_eq_getElem (by rwa [hcount])] at hsame
  exact hsame.ascii_of_ascii (hascii _ (List.getElem_mem hindex))

/-- The direct search takes one ASCII byte, and no options. -/
theorem directFirstEligible_eq {state : DirectFirstState}
    (heligible : directFirstEligible patterns options returnLength = some state) :
    patterns.length = 1 ∧ options = ⟨false, false⟩ ∧ state.returnLength = returnLength ∧
      directFixedPattern (patterns.getD 0 .na) = some state.patternByte := by
  unfold directFirstEligible at heligible
  split at heligible
  next => exact absurd heligible (by simp)
  next hoptions =>
    simp only [not_or, not_not] at hoptions
    obtain ⟨byte, hbyte, rfl⟩ := Option.map_eq_some_iff.mp heligible
    obtain ⟨caseInsensitive, overlap⟩ := options
    refine ⟨hoptions.2.2, ?_, rfl, hbyte⟩
    simpa using And.intro hoptions.1 hoptions.2.1

theorem recyclingLength_pos_first {first second : Nat}
    (hpos : 0 < (recyclingLength first second).1) : 0 < first := by
  unfold recyclingLength at hpos
  split at hpos
  next => exact absurd hpos (Nat.lt_irrefl 0)
  next hboth => exact Nat.pos_of_ne_zero fun hzero => hboth (.inl (Nat.le_of_eq hzero))

/-- How far the direct phase came, and the rows it left. -/
structure CameTo (subjects patterns : List StringView) (options : FixedSearchOptions)
    (returnLength : Bool) (reached : DirectRows) : Prop where
  rows : ∀ index < (if reached.direct then subjects.length else reached.generalStart),
    ∃ state row, directFirstEligible patterns options returnLength = some state ∧
      locateFirstDirectElement state (subjects.getD index .na) = some row ∧
      HoldsRow reached.memory subjects.length index row
  scalar : reached.direct = true ∨ reached.generalStart ≠ 0 → patterns.length = 1

/-- The direct search comes to a prefix, and its rows are there. -/
theorem directRows_spec {plan : ParallelPlan} {schedule : List Nat}
    {result : Except String DirectRows}
    (hworkers : patterns.length = 1 → regionWorkers plan subjects.length = plan.workers)
    (hphase : directRows options returnLength plan subjects patterns schedule = some result) :
    ∃ reached, result = .ok reached ∧ CameTo subjects patterns options returnLength reached := by
  unfold directRows at hphase
  cases heligible : directFirstEligible patterns options returnLength with
  | none =>
      simp only [heligible, Option.some.injEq] at hphase
      refine ⟨_, hphase.symm, ⟨fun index hindex => absurd hindex (Nat.not_lt_zero index), ?_⟩⟩
      rintro (hdirect | hstart)
      · exact absurd hdirect Bool.false_ne_true
      · exact absurd rfl hstart
  | some state =>
      obtain ⟨hscalar, -⟩ := directFirstEligible_eq heligible
      simp only [heligible] at hphase
      -- on workers the parked indices give the prefix, on one worker the scan itself
      split at hphase
      next =>
        cases hrun : runParallel plan subjects.length (directFirstBody subjects state)
            (fun _ => none) schedule with
        | none => simp [hrun] at hphase
        | some regionEnd =>
            obtain ⟨hreturned, hfirst, hscanned⟩ := directFirstRegion_spec hrun
            rw [hworkers hscalar] at hfirst
            simp only [hrun, Option.bind_eq_bind, Option.bind_some, hreturned, Outcome.message,
              hfirst, pure, Option.some.injEq] at hphase
            refine ⟨_, hphase.symm, ⟨fun index hindex => ?_, fun _ => hscalar⟩⟩
            cases hstop : scanStop subjects state with
            | none =>
                simp only [hstop, Option.elim_none, decide_true, if_true] at hindex
                rw [hstop] at hscanned
                obtain ⟨row, hrow, hholds⟩ := hscanned.rows index hindex
                exact ⟨state, row, heligible, hrow, hholds⟩
            | some stop =>
                have hlt := (firstIneligible_eq_some hstop).1
                have hne : ¬ (stop : Int) = (subjects.length : Int) := by omega
                simp only [hstop, Option.elim_some, hne, decide_false, Bool.false_eq_true,
                  if_false, Int.toNat_natCast] at hindex
                rw [hstop] at hscanned
                obtain ⟨row, hrow, hholds⟩ := hscanned.rows index hindex
                exact ⟨state, row, heligible, hrow, hholds⟩
      next =>
        obtain ⟨hscan, hscanned⟩ := @locateFirstAsciiScalarDirect_spec subjects state
          (fun _ => none) subjects.length 0 (Nat.zero_add _)
          ⟨fun index hindex => absurd hindex (Nat.not_lt_zero index)⟩
        rw [← List.range_eq_range'] at hscanned hscan
        generalize locateFirstAsciiScalarDirect subjects state (List.range subjects.length)
          (fun _ => none) = scan at hphase hscanned
        obtain ⟨stop, memory⟩ := scan
        cases stop with
        | none =>
            refine ⟨_, (Option.some.inj hphase).symm, ⟨fun index hindex => ?_, fun _ => hscalar⟩⟩
            obtain ⟨row, hrow, hholds⟩ := hscanned.rows index hindex
            exact ⟨state, row, heligible, hrow, hholds⟩
        | some stop =>
            refine ⟨_, (Option.some.inj hphase).symm, ⟨fun index hindex => ?_, fun _ => hscalar⟩⟩
            obtain ⟨row, hrow, hholds⟩ := hscanned.rows index hindex
            exact ⟨state, row, heligible, hrow, hholds⟩

/-- A row the direct phase left is the row of the normalized record. -/
theorem CameTo.located {reached : DirectRows}
    (hreached : CameTo subjects patterns options returnLength reached)
    (hascii : ∀ view ∈ subjects, view.enc = .ascii → ∀ byte ∈ view.bytes, byte < 0x80)
    {index : Nat}
    (hindex : index < (if reached.direct then subjects.length else reached.generalStart))
    {subject pattern : StringView}
    (hsubject : Normalizes converter (subjects.getD index .na) subject)
    (hpattern : Normalizes converter (patterns.getD 0 .na) pattern) :
    ∃ row, HoldsRow reached.memory subjects.length index row ∧
      Located toUpper options returnLength subject pattern row := by
  obtain ⟨state, row, heligible, hrow, hholds⟩ := hreached.rows index hindex
  obtain ⟨-, rfl, rfl, hbyte⟩ := directFirstEligible_eq heligible
  obtain ⟨hlow, hpresent⟩ := present_of_directFixedPattern hbyte hpattern
  exact ⟨row, hholds, located_of_direct hlow hpresent hsubject (ascii_getD hascii index) toUpper
    hrow⟩

end Matrix

/-! ## The entry point -/

section Entry

variable (toUpper : CodePoint → CodePoint) (converter : NativeToUtf8) (settings : Settings)
  (options : FixedSearchOptions) (returnLength : Bool) (subjects patterns : List StringView)

/-- The tasks of the general region, and of the direct one where there is one. -/
def locateTasks : Nat :=
  if patterns.length = 1 then (recyclingLength subjects.length patterns.length).1
  else patterns.length

variable {toUpper converter settings options returnLength subjects patterns}

/-- A fair schedule lets the direct region end. -/
theorem directRows_isSome {tasks : Nat} {schedule : List Nat}
    (hfair : FairFor settings tasks schedule) (htasks : patterns.length = 1 →
      tasks = subjects.length) :
    (directRows options returnLength (parallelPlan settings true tasks) subjects patterns
      schedule).isSome = true := by
  unfold directRows
  cases heligible : directFirstEligible patterns options returnLength with
  | none => rfl
  | some state =>
      obtain rfl := htasks (directFirstEligible_eq heligible).1
      dsimp only
      split
      next =>
        obtain ⟨regionEnd, hrun⟩ := @exists_runParallel_of_fair _ _ _ _ _
          (directFirstBody subjects state) _ hfair (fun _ => none)
        rw [hrun]
        simp only [Option.bind_eq_bind, Option.bind_some]
        split <;> rfl
      next => split <;> rfl

/-- Fair schedules let the call end. -/
theorem ciLocateFirstFixed_isSome {directSchedule generalSchedule : List Nat}
    (hdirect : FairFor settings (locateTasks subjects patterns) directSchedule)
    (hgeneral : FairFor settings (locateTasks subjects patterns) generalSchedule) :
    (ciLocateFirstFixed toUpper options returnLength converter settings subjects patterns
      directSchedule generalSchedule).isSome = true := by
  unfold ciLocateFirstFixed
  unfold locateTasks at hdirect hgeneral
  generalize hrecycled : recyclingLength subjects.length patterns.length = recycled at *
  obtain ⟨vectorizeLength, warning⟩ := recycled
  dsimp only at hdirect hgeneral ⊢
  split
  swap
  next => rfl
  next hpos =>
    obtain ⟨-, -, -, hscalar⟩ := VectorSearch.recyclingLength_spec hrecycled hpos
    obtain ⟨phase, hphase⟩ := Option.isSome_iff_exists.mp
      (@directRows_isSome _ options returnLength subjects patterns _ _ hdirect
        (fun hone => by rw [if_pos hone]; exact hscalar hone))
    rw [hphase]
    simp only [Option.bind_eq_bind, Option.bind_some]
    split
    next => rfl
    next reached =>
      split
      next => rfl
      next =>
        split
        next => rfl
        next => rfl
        next normalized normalizedPatterns _ _ =>
          obtain ⟨regionEnd, hrun⟩ := @exists_runParallel_of_fair _ _ _ _ _
            (locateBody toUpper options returnLength normalized normalizedPatterns
              vectorizeLength reached.generalStart) _ hgeneral reached.memory
          rw [hrun]
          simp only [Option.bind_some]
          split <;> rfl

/-- The rows of the direct phase, at the indices of the result. -/
theorem CameTo.located_recycled {vectorizeLength : Nat} {reached : DirectRows}
    (hreached : CameTo subjects patterns options returnLength reached)
    (hascii : ∀ view ∈ subjects, view.enc = .ascii → ∀ byte ∈ view.bytes, byte < 0x80)
    (hscalar : patterns.length = 1 → vectorizeLength = subjects.length) {index : Nat}
    (hindex : index < (if reached.direct then subjects.length else reached.generalStart))
    (hinside : index < vectorizeLength) {subject pattern : StringView}
    (hsubject : Normalizes converter (subjects.getD (index % subjects.length) .na) subject)
    (hpattern : Normalizes converter (patterns.getD (index % patterns.length) .na) pattern) :
    ∃ row, HoldsRow reached.memory vectorizeLength index row ∧
      Located toUpper options returnLength subject pattern row := by
  have hsingle : patterns.length = 1 := by
    apply hreached.scalar
    by_cases hdirect : reached.direct = true
    · exact .inl hdirect
    · rw [if_neg hdirect] at hindex
      exact .inr (Nat.ne_of_gt (Nat.zero_lt_of_lt hindex))
  rw [hscalar hsingle] at hinside ⊢
  rw [Nat.mod_eq_of_lt hinside] at hsubject
  rw [hsingle, Nat.mod_one] at hpattern
  exact hreached.located hascii hindex hsubject hpattern

/-- The rows of the general path are those of the records. -/
theorem located_locatedRowAt {normalized normalizedPatterns : List StringView}
    (hascii : ∀ view ∈ subjects, view.enc = .ascii → ∀ byte ∈ view.bytes, byte < 0x80)
    (hnormalized : normalizeViews converter ⟨0⟩ subjects = .ok normalized)
    (hnormalizedPatterns : normalizeViews converter ⟨0⟩ patterns = .ok normalizedPatterns)
    (hsource : 0 < subjects.length) (hone : 0 < patterns.length) (index : Nat)
    {subject pattern : StringView}
    (hsubject : Normalizes converter (subjects.getD (index % subjects.length) .na) subject)
    (hpattern : Normalizes converter (patterns.getD (index % patterns.length) .na) pattern) :
    Located toUpper options returnLength subject pattern
      (locatedRowAt toUpper options returnLength normalized normalizedPatterns index) := by
  obtain ⟨hcount, hnormal⟩ := normalizeViews_spec hnormalized
  obtain ⟨hcountPatterns, hnormalPatterns⟩ := normalizeViews_spec hnormalizedPatterns
  have hmarks := ascii_of_normalizeViews hnormalized hascii
  have hview := normalizes_getD hnormalized (Nat.mod_lt index hsource)
  have hviewPattern := normalizes_getD hnormalizedPatterns (Nat.mod_lt index hone)
  rw [locatedRowAt, hcount, hcountPatterns]
  refine Located.congr (hview.unplaced_eq hsubject) (hviewPattern.unplaced_eq hpattern) ?_
  exact (locateOne_eq (FixedMatcher.consistent_default toUpper)
    (normalized_getD hnormal _) (normalized_getD hnormalPatterns _) (ascii_getD hmarks _)).1

section Outcome

variable {α : Type} {fails : String → Prop} {returns : α → Prop}

/-- A call that returns a value only has to answer for that. -/
theorem outcome_ok {value : α} (hvalue : returns value) :
    (∀ message, (.ok value : Except String α) = .error message → fails message) ∧
      ∀ found, (.ok value : Except String α) = .ok found → returns found := by
  refine ⟨fun _ herror => (nomatch herror), ?_⟩
  rintro found ⟨⟩
  exact hvalue

theorem outcome_error {message : String} (hmessage : fails message) :
    (∀ text, (.error message : Except String α) = .error text → fails text) ∧
      ∀ found, (.error message : Except String α) = .ok found → returns found := by
  refine ⟨?_, fun _ hfound => nomatch hfound⟩
  rintro text ⟨⟩
  exact hmessage

end Outcome

/-- A call returns the rows of its first matches, or an error of the conversion. -/
theorem ciLocateFirstFixed_rows {directSchedule generalSchedule : List Nat}
    (hascii : ∀ view ∈ subjects, view.enc = .ascii → ∀ byte ∈ view.bytes, byte < 0x80)
    {result : Except String SearchResult}
    (hresult : ciLocateFirstFixed toUpper options returnLength converter settings subjects
      patterns directSchedule generalSchedule = some result) :
    (∀ message, result = .error message → ∃ error : NativeError, error.text = message ∧
      (normalizeViews converter ⟨0⟩ subjects = .error error ∨
        normalizeViews converter ⟨0⟩ patterns = .error error)) ∧
    ∀ found, result = .ok found →
      found.length = (recyclingLength subjects.length patterns.length).1 ∧
      found.recyclingWarning = (recyclingLength subjects.length patterns.length).2 ∧
      ∀ index < found.length, ∀ subject pattern,
        Normalizes converter (subjects.getD (index % subjects.length) .na) subject →
        Normalizes converter (patterns.getD (index % patterns.length) .na) pattern →
        ∃ row, HoldsRow found.output found.length index row ∧
          Located toUpper options returnLength subject pattern row := by
  unfold ciLocateFirstFixed at hresult
  generalize hrecycled : recyclingLength subjects.length patterns.length = recycled at *
  obtain ⟨vectorizeLength, warning⟩ := recycled
  dsimp only at hresult ⊢
  split at hresult
  swap
  next hzero =>
    obtain rfl := Option.some.inj hresult
    exact outcome_ok ⟨rfl, rfl, fun index hindex => absurd (Nat.zero_lt_of_lt hindex) hzero⟩
  next hpos =>
  obtain ⟨hsubjects, hone, hpatterns, hscalar⟩ :=
    VectorSearch.recyclingLength_spec hrecycled hpos
  -- the direct region, which may have stopped at a record it cannot read
  obtain ⟨phase, hphase, hresult⟩ := Option.bind_eq_some_iff.mp hresult
  obtain ⟨reached, rfl, hreached⟩ := directRows_spec
    (VectorSearch.regionWorkers_scalar settings true hscalar) hphase
  dsimp only at hresult
  split at hresult
  next hdone =>
    obtain rfl := Option.some.inj hresult
    refine outcome_ok ⟨rfl, rfl, ?_⟩
    intro index hindex subject pattern hsubject hpattern
    apply hreached.located_recycled hascii hscalar ?_ hindex hsubject hpattern
    rw [if_pos hdone]
    rwa [← hscalar (hreached.scalar (.inl hdone))]
  next hgoes =>
    split at hresult
    next error hfailed =>
      obtain rfl := Option.some.inj hresult
      exact outcome_error ⟨error, rfl, .inl hfailed⟩
    next error _ hfailed =>
      obtain rfl := Option.some.inj hresult
      exact outcome_error ⟨error, rfl, .inr hfailed⟩
    next normalized normalizedPatterns hnormalized hnormalizedPatterns =>
      obtain ⟨-, hnormal⟩ := normalizeViews_spec hnormalized
      obtain ⟨hcountPatterns, hnormalPatterns⟩ := normalizeViews_spec hnormalizedPatterns
      have hmarks := ascii_of_normalizeViews hnormalized hascii
      obtain ⟨regionEnd, hrun, hresult⟩ := Option.bind_eq_some_iff.mp hresult
      obtain ⟨hreturned, hwritten, hkept⟩ := locateRegion_spec hnormal hnormalPatterns hmarks
        (fun hmany => by
          by_contra hstart
          exact hmany (hcountPatterns.trans (hreached.scalar (.inr hstart))))
        (by
          rw [hcountPatterns]
          split
          next => rfl
          next => exact ⟨rfl, hone, hpatterns⟩) hrun
      rw [hreturned] at hresult
      obtain rfl := Option.some.inj hresult
      refine outcome_ok ⟨rfl, rfl, ?_⟩
      intro index hindex subject pattern hsubject hpattern
      dsimp only at hindex ⊢
      -- in front of the restart the direct rows were kept
      by_cases hbelow : index < reached.generalStart
      · obtain ⟨row, hholds, hrow⟩ := hreached.located_recycled hascii hscalar
          (by rwa [if_neg hgoes]) hindex hsubject hpattern
        exact ⟨row, hkept index hbelow hindex row hholds, hrow⟩
      · refine ⟨_, hwritten index (Nat.not_lt.mp hbelow) hindex, ?_⟩
        exact located_locatedRowAt hascii hnormalized hnormalizedPatterns
          (recyclingLength_pos_first (by rw [hrecycled]; exact hpos)) hone index hsubject hpattern

/-- Neither the thread settings and the schedules nor the path show in the matrix: every row
is that of the first match of its pattern in its record, both normalized. There is no matrix
only if some record cannot be normalized. -/
theorem ciLocateFirstFixed_located (directSchedule generalSchedule : List Nat)
    (hascii : ∀ view ∈ subjects, view.enc = .ascii → ∀ byte ∈ view.bytes, byte < 0x80) :
    (FairFor settings (locateTasks subjects patterns) directSchedule →
      FairFor settings (locateTasks subjects patterns) generalSchedule →
      (ciLocateFirstFixed toUpper options returnLength converter settings subjects patterns
        directSchedule generalSchedule).isSome = true) ∧
    ∀ result, ciLocateFirstFixed toUpper options returnLength converter settings subjects
        patterns directSchedule generalSchedule = some result →
      (∀ message, result = .error message → ∃ error : NativeError, error.text = message ∧
        (normalizeViews converter ⟨0⟩ subjects = .error error ∨
          normalizeViews converter ⟨0⟩ patterns = .error error)) ∧
      ∀ found, result = .ok found →
        found.length = (recyclingLength subjects.length patterns.length).1 ∧
        found.recyclingWarning = (recyclingLength subjects.length patterns.length).2 ∧
        ∀ index < found.length, ∀ subject pattern,
          Normalizes converter (subjects.getD (index % subjects.length) .na) subject →
          Normalizes converter (patterns.getD (index % patterns.length) .na) pattern →
          ∃ row, HoldsRow found.output found.length index row ∧
            Located toUpper options returnLength subject pattern row :=
  ⟨ciLocateFirstFixed_isSome, fun _ hresult => ciLocateFirstFixed_rows hascii hresult⟩

/-- Three records on three workers, the second in Latin-1: the direct phase stops there, and its
row counts in the converted record. -/
theorem ciLocateFirstFixed_three_records :
    let subjects : List StringView := [⟨.bytes ⟨100, [98, 97], by decide⟩, .ascii⟩,
      ⟨.bytes ⟨200, [0xe9, 97], by decide⟩, .latin1⟩, ⟨.bytes ⟨300, [97], by decide⟩, .utf8⟩]
    let patterns : List StringView := [⟨.bytes ⟨500, [97], by decide⟩, .ascii⟩]
    let turns := (List.range 90).map (· % 3)
    ∃ found row, ciLocateFirstFixed id ⟨false, false⟩ false sampleConverter ⟨3, 128, 1⟩ subjects
        patterns turns turns = some (.ok found) ∧
      HoldsRow found.output 3 1 row ∧
      Located id ⟨false, false⟩ false ⟨.bytes ⟨0, [0xc3, 0xa9, 97], by decide⟩, .utf8⟩
        (patterns.getD 0 .na) row := by
  intro subjects patterns turns
  have hascii : ∀ view ∈ subjects, view.enc = .ascii →
      view.bytes.all (fun byte => decide (byte < 0x80)) = true := by decide
  obtain ⟨hfair, hrows⟩ := @ciLocateFirstFixed_located id sampleConverter ⟨3, 128, 1⟩
    ⟨false, false⟩ false subjects patterns turns turns fun view hview hmark byte hbyte =>
      of_decide_eq_true (List.all_eq_true.mp (hascii view hview hmark) byte hbyte)
  obtain ⟨result, hresult⟩ := Option.isSome_iff_exists.mp
    (hfair (by unfold FairFor; decide) (by unfold FairFor; decide))
  obtain ⟨herror, hfound⟩ := hrows result hresult
  cases result with
  | error message =>
      have hsubjects : (normalizeViews sampleConverter ⟨0⟩ subjects).isOk = true := by decide
      have hpatterns : (normalizeViews sampleConverter ⟨0⟩ patterns).isOk = true := by decide
      obtain ⟨error, -, hfailed | hfailed⟩ := herror message rfl
      · rw [hfailed] at hsubjects
        exact absurd hsubjects Bool.false_ne_true
      · rw [hfailed] at hpatterns
        exact absurd hpatterns Bool.false_ne_true
  | ok found =>
      obtain ⟨hlength, -, hlocated⟩ := hfound found rfl
      have hthree : found.length = 3 := hlength
      obtain ⟨row, hholds, hrow⟩ := hlocated 1 (by omega)
        ⟨.bytes ⟨0, [0xc3, 0xa9, 97], by decide⟩, .utf8⟩ (patterns.getD 0 .na)
        ⟨⟨0⟩, ⟨3⟩, by decide⟩ ⟨⟨0⟩, ⟨0⟩, by decide⟩
      rw [hthree] at hholds
      exact ⟨found, row, hresult, hholds, hrow⟩

end Entry

end Charr.FixedSearch
