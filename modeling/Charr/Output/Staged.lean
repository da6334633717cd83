import Charr.Output.ChunkStores
import Charr.Parallel.Chunks

/-!
# Bodies that append to the store of their chunk

Output without a fixed number of records for each task is appended to a builder, and
the builder is released into the worker's row at the end of each chunk. Joining the rows
gives what one worker alone would have appended.
-/

namespace Charr.Output

open Parallel

variable {Local Record Error : Type}

/-- What a worker owns: its engine, its builder and its row. Records carry their bytes,
so a store needs no slices. -/
structure Staged (Local Record : Type) where
  engine : Local
  output : List (Option Record)
  row : List (ChunkEntry Record Empty)

section Body

variable (opened : Except Error Unit) (engine : Local)
  (produce : Nat → Local → Except Error (Local × List (Option Record)))
  (thrown : NativeError → Error) (describe : Error → String)

/-- Tasks append what they produce with the worker's engine. -/
def stagedBody : ParallelBody (Staged Local Record) Unit Error where
  initial _ := ⟨engine, [], []⟩
  setup _ state :=
    match opened with
    | .ok () => .pass state
    | .error error => { ending := .throws error, state }
  enterChunk context state :=
    .pass { state with output := [], row := openChunk state.row context.begin }
  task _ task state :=
    match produce task state.engine with
    | .ok (engine, records) => .pass { state with engine, output := state.output ++ records }
    | .error error => { ending := .throws error, state }
  leaveChunk _ state :=
    match setCurrent state.row ⟨state.output, []⟩ with
    | .ok row => .pass { state with output := [], row }
    | .error error => { ending := .throws (thrown error), state }
  describeError := describe

/-- The rows of the workers, joined; the error of the region comes first. -/
def joinStaged (workers : Nat) (regionEnd : RegionEnd (Staged Local Record) Unit Error) :
    Except String (List (Option Record)) :=
  match regionEnd.outcome.message describe with
  | some message => .error message
  | none =>
      match concatenate ((List.range workers).map fun index =>
        (regionEnd.final.worker index).state.row) with
      | .error error => .error error.text
      | .ok store => .ok store.records

end Body

/-! ## The chunks as pairs -/

section Pairs

variable {tasks chunk : Nat}

/-- A chunk with the task it starts at and the one behind it. -/
def chunkPair (tasks chunk number : Nat) : Nat × Nat :=
  (chunkBegin chunk number, chunkEnd tasks chunk number)

/-- The chunks from one on follow each other. -/
theorem consecutive_from (hchunk : 1 ≤ chunk) (number count : Nat)
    (hcount : number + count = chunkCount tasks chunk) :
    Consecutive tasks (min tasks (chunkBegin chunk number))
      ((List.range' number count).map (chunkPair tasks chunk)) := by
  induction count generalizing number with
  | zero =>
      have hall := (chunkCount_le_iff hchunk).mp hcount.ge
      exact Nat.min_eq_left hall
  | succ count ih =>
      have hstart : chunkBegin chunk number < tasks :=
        (lt_chunkCount_iff hchunk).mp (by omega)
      have hnext : chunkEnd tasks chunk number = min tasks (chunkBegin chunk (number + 1)) := by
        unfold chunkEnd chunkBegin at *
        rw [Nat.add_mul, Nat.one_mul]
        split <;> omega
      rw [List.range'_succ, List.map_cons]
      refine ⟨?_, ?_, ?_⟩
      · exact (Nat.min_eq_right hstart.le).symm
      · show chunkBegin chunk number < chunkEnd tasks chunk number
        rw [hnext]
        unfold chunkBegin at *
        rw [Nat.add_mul, Nat.one_mul]
        omega
      · show Consecutive tasks (chunkEnd tasks chunk number) _
        rw [hnext]
        exact ih (number + 1) (by omega)

/-- All chunks follow each other. -/
theorem consecutive_chunks (hchunk : 1 ≤ chunk) :
    Consecutive tasks 0 ((List.range (chunkCount tasks chunk)).map (chunkPair tasks chunk)) := by
  have hall := @consecutive_from tasks chunk hchunk 0 (chunkCount tasks chunk) (Nat.zero_add _)
  rw [List.range_eq_range']
  simpa [chunkBegin] using hall

end Pairs

/-! ## What the region leaves -/

section Region

variable {opened : Except Error Unit} {engine : Local}
  {produce : Nat → Local → Except Error (Local × List (Option Record))}
  {thrown : NativeError → Error} {describe : Error → String}
  {outcome : Nat → Except Error (List (Option Record))} {tasks : Nat}

/-- The records of a task that does not fail. -/
def produced (outcome : Nat → Except Error (List (Option Record))) (task : Nat) :
    List (Option Record) :=
  match outcome task with
  | .ok records => records
  | .error _ => []

/-- How a task ends. -/
def stagedEnds (outcome : Nat → Except Error (List (Option Record))) (describe : Error → String)
    (task : Nat) : Ending String :=
  taskEnding ((itemFailure outcome task).map describe)

/-- The loop over the tasks of a chunk, and the release of its store. -/
theorem runActions_staged (context : WorkerContext) (range : List Nat)
    (hproduce : ∀ task ∈ range, ∀ engine, (produce task engine).map Prod.snd = outcome task)
    (state : Staged Local Record) {row : List (ChunkEntry Record Empty)} {begin : Nat}
    (hrow : state.row = openChunk row begin) :
    let run := runActions (stagedBody opened engine produce thrown describe) context
      (range.map .task ++ [.leaveChunk]) state
    run.ending.map describe = loopEnding (stagedEnds outcome describe) range ∧
      run.entries.flatMap Entry.writes = [] ∧
      (loopEnding (stagedEnds outcome describe) range = .next →
        run.state.row =
          row ++ [⟨begin, state.output ++ range.flatMap (produced outcome), []⟩]) := by
  induction range generalizing state with
  | nil =>
      have hset : setCurrent state.row ⟨state.output, []⟩ =
          .ok (row ++ [⟨begin, state.output, []⟩]) := by
        simp [setCurrent, hrow, openChunk]
      simp only [List.map_nil, List.nil_append, runActions, ParallelBody.act, stagedBody, hset,
        ActionResult.pass]
      exact ⟨rfl, rfl, fun _ => by simp⟩
  | cons task rest ih =>
      have hhere := hproduce task List.mem_cons_self state.engine
      simp only [List.map_cons, List.cons_append, runActions, ParallelBody.act, loopEnding,
        stagedEnds, itemFailure, List.flatMap_cons, produced]
      cases hresult : produce task state.engine with
      | ok result =>
          obtain ⟨next, records⟩ := result
          rw [hresult] at hhere
          have hrest := ih (fun other hother => hproduce other (List.mem_cons_of_mem _ hother))
            { state with engine := next, output := state.output ++ records } hrow
          simp only [← hhere, stagedBody, hresult, ActionResult.pass, Except.map, Option.map_none,
            taskEnding, List.flatMap_cons, List.nil_append]
          rw [List.append_assoc] at hrest
          exact hrest
      | error error =>
          rw [hresult] at hhere
          simp only [← hhere, stagedBody, hresult, Except.map, Option.map_some, taskEnding]
          exact ⟨rfl, rfl, fun hnext => by cases hnext⟩

/-- The row of a worker whose chunks have all run through. -/
def rowOf (outcome : Nat → Except Error (List (Option Record))) (tasks chunk : Nat)
    (chunks : List Nat) : List (ChunkEntry Record Empty) :=
  (chunks.map (chunkPair tasks chunk)).map (chunkEntry (produced outcome) fun _ => [])

/-- As long as no task failed, the worker holds what its chunks have given. -/
def StagedHistory (outcome : Nat → Except Error (List (Option Record)))
    (describe : Error → String) (tasks chunk : Nat) (finished : List Nat)
    (state : Staged Local Record) : Prop :=
  (∀ number ∈ finished,
    loopEnding (stagedEnds outcome describe) (chunkRange tasks chunk number) = .next) →
    state.row = rowOf outcome tasks chunk finished

/-- What a worker has staged when it has been through its chunks. -/
theorem stagedSpec (hopened : opened = .ok ())
    (hproduce : ∀ task < tasks, ∀ engine, (produce task engine).map Prod.snd = outcome task)
    (workers : Nat) {chunk : Nat} (hchunk : 1 ≤ chunk) :
    BodySpec (stagedBody opened engine produce thrown describe) workers tasks chunk
      (fun _ finished state => StagedHistory outcome describe tasks chunk finished state)
      (fun number ending entries =>
        ending.map describe =
          loopEnding (stagedEnds outcome describe) (chunkRange tasks chunk number) ∧
        entries.flatMap Entry.writes = []) where
  setup index _ := by
    subst hopened
    exact ⟨rfl, rfl, rfl, fun _ => rfl⟩
  chunk index _ finished number state _ _ hposts hhistory := by
    have hrow : state.row = rowOf outcome tasks chunk finished := by
      apply hhistory
      intro earlier hearlier
      obtain ⟨entries, hending, -⟩ := hposts earlier hearlier
      exact hending.symm
    have hrange : ∀ task ∈ chunkRange tasks chunk number, ∀ engine,
        (produce task engine).map Prod.snd = outcome task :=
      fun task htask => hproduce task ((mem_chunkRange hchunk).mp htask).1
    have hactions : chunkActions (chunkBegin chunk number) (chunkEnd tasks chunk number) =
        .enterChunk :: ((chunkRange tasks chunk number).map .task ++ [.leaveChunk]) := rfl
    obtain ⟨hending, hwrites, hreleased⟩ := @runActions_staged _ _ _ opened engine produce thrown
      describe outcome (heldContext workers tasks chunk index number)
        (chunkRange tasks chunk number) hrange
      ⟨state.engine, [], openChunk (rowOf outcome tasks chunk finished) (chunkBegin chunk number)⟩
      _ _ rfl
    rw [hactions]
    simp only [runActions, ParallelBody.act]
    have henter : (stagedBody opened engine produce thrown describe).enterChunk
        (heldContext workers tasks chunk index number) state =
        .pass ⟨state.engine, [], openChunk (rowOf outcome tasks chunk finished)
          (chunkBegin chunk number)⟩ := by
      rw [← hrow]
      rfl
    rw [henter]
    refine ⟨⟨hending, ?_⟩, ?_⟩
    · simp only [ActionResult.pass, List.flatMap_cons, List.nil_append]
      exact hwrites
    · intro hall
      have hlast := hall number (by simp)
      refine (hreleased hlast).trans ?_
      rw [rowOf, rowOf, List.map_append, List.map_append, List.nil_append]
      rfl

/-- The rows are those of all chunks, dealt out to the workers. -/
theorem concatenate_staged {workers chunk : Nat} (hchunk : 1 ≤ chunk) {claims : List Nat}
    (hwinners : ∀ index ∈ claims, index < workers)
    (hclaims : chunkCount tasks chunk ≤ claims.length)
    (hcount : ((List.range tasks).flatMap (produced outcome)).length ≤ sizeMax) :
    concatenate ((List.range workers).map fun index =>
        rowOf outcome tasks chunk (owned tasks chunk claims index)) =
      .ok ⟨(List.range tasks).flatMap (produced outcome), []⟩ := by
  have hdealt : ((List.range workers).map fun index =>
      (owned tasks chunk claims index).map (chunkPair tasks chunk)).flatten.Perm
        ((List.range (chunkCount tasks chunk)).map (chunkPair tasks chunk)) := by
    have howned := @owned_perm workers tasks chunk claims hwinners
    rw [Nat.min_eq_right hclaims] at howned
    have hmapped := howned.map (chunkPair tasks chunk)
    rwa [List.map_flatMap, List.flatMap_def] at hmapped
  have hsorted : ∀ row ∈ (List.range workers).map fun index =>
      (owned tasks chunk claims index).map (chunkPair tasks chunk),
      row.Pairwise fun earlier later => earlier.1 < later.1 := by
    intro row hrow
    obtain ⟨index, -, rfl⟩ := List.mem_map.mp hrow
    rw [List.pairwise_map]
    apply (owned_sorted tasks chunk claims index).imp
    intro earlier later hlt
    exact Nat.mul_lt_mul_of_pos_right hlt hchunk
  have hjoined := concatenate_rows (produced outcome) (fun _ => ([] : List Empty))
    (consecutive_chunks hchunk) hdealt hsorted
  rw [concatStores_eq, records_chunkEntries _ _ (consecutive_chunks hchunk), if_pos hcount]
    at hjoined
  rw [List.map_map] at hjoined
  refine Eq.trans ?_ (hjoined.trans ?_)
  · rfl
  · simp [chunkEntry]

variable {settings : Settings} {schedule : List Nat}
  {regionEnd : RegionEnd (Staged Local Record) Unit Error}

/-- The region reports the first task that fails. -/
theorem stagedRegion_message (hopened : opened = .ok ())
    (hproduce : ∀ task < tasks, ∀ engine, (produce task engine).map Prod.snd = outcome task)
    (hrun : runParallel (parallelPlan settings true tasks) tasks
      (stagedBody opened engine produce thrown describe) (fun _ => none) schedule =
        some regionEnd) :
    regionEnd.outcome.message describe =
      ((List.range tasks).findSome? (itemFailure outcome)).map describe := by
  obtain ⟨hdone, houtcome, -⟩ := completed_of_runRegion
    (stagedSpec hopened hproduce (regionWorkers (parallelPlan settings true tasks) tasks)
      (one_le_regionChunk (parallelPlan settings true tasks)))
    (fun number ending entries hpost => hpost.1) hrun
  have hmessage : regionEnd.outcome.message describe =
      (List.range tasks).findSome? fun task => (stagedEnds outcome describe task).error := by
    rw [houtcome]
    exact hdone.message_of_loops fun task _ => taskEnding_ne_stopsEarly _
  rw [hmessage, List.map_findSome?]
  simp only [stagedEnds, taskEnding_error]
  rfl

/-- The region gives what producing one task after the other gives. -/
theorem stagedRegion_eq (hopened : opened = .ok ())
    (hproduce : ∀ task < tasks, ∀ engine, (produce task engine).map Prod.snd = outcome task)
    (hrun : runParallel (parallelPlan settings true tasks) tasks
      (stagedBody opened engine produce thrown describe) (fun _ => none) schedule =
        some regionEnd)
    (hcount : ((List.range tasks).flatMap (produced outcome)).length ≤ sizeMax) :
    joinStaged describe (parallelPlan settings true tasks).workers regionEnd =
      match (List.range tasks).mapM outcome with
      | .ok values => .ok values.flatten
      | .error error => .error (describe error) := by
  rw [joinStaged, stagedRegion_message hopened hproduce hrun]
  cases hfirst : (List.range tasks).findSome? (itemFailure outcome) with
  | some error =>
      rw [mapM_error outcome hfirst]
      rfl
  | none =>
      obtain ⟨hdone, -, -⟩ := completed_of_runRegion
        (stagedSpec hopened hproduce (regionWorkers (parallelPlan settings true tasks) tasks)
          (one_le_regionChunk (parallelPlan settings true tasks)))
        (fun number ending entries hpost => hpost.1) hrun
      rw [regionWorkers_parallelPlan] at hdone
      obtain ⟨values, hvalues, hall⟩ := mapM_ok outcome hfirst
      -- without a failure every chunk runs to its end
      have hnext : ∀ number, loopEnding (stagedEnds outcome describe)
          (chunkRange tasks (regionChunk (parallelPlan settings true tasks)) number) = .next := by
        intro number
        rw [loopEnding_eq_next]
        intro task htask
        have hlt := ((mem_chunkRange hdone.chunk_pos).mp htask).1
        rw [stagedEnds, List.findSome?_eq_none_iff.mp hfirst task (List.mem_range.mpr hlt)]
        rfl
      -- and what the workers keep are the rows of the chunks they own
      have hrows : ((List.range (parallelPlan settings true tasks).workers).map fun index =>
          (regionEnd.final.worker index).state.row) =
            (List.range (parallelPlan settings true tasks).workers).map fun index =>
              rowOf outcome tasks (regionChunk (parallelPlan settings true tasks))
                (owned tasks (regionChunk (parallelPlan settings true tasks))
                  regionEnd.final.claims index) := by
        apply List.map_congr_left
        intro index hindex
        exact hdone.history_owned (List.mem_range.mp hindex) fun number _ => hnext number
      have hflat : (List.range tasks).flatMap (produced outcome) = values.flatten := by
        rw [List.flatMap_def]
        congr 1
        clear hfirst hvalues hcount hnext hrows hdone
        generalize List.range tasks = range at hall
        induction hall with
        | nil => rfl
        | cons hhead _ ih => rw [List.map_cons, ih, produced, hhead]
      rw [hvalues, hrows, concatenate_staged hdone.chunk_pos hdone.invariant.winners
        (hdone.chunkCount_le_claims fun number _ => hnext number) hcount, hflat]
      rfl

end Region

end Charr.Output
