import Charr.Parallel.Serial

/-!
# Bodies that are loops over their tasks

Most bodies do nothing at the ends of a chunk, and each of their tasks ends and
writes as the task alone decides. What a worker keeps in its own state may still
depend on the tasks it has run. The rule below says what such a region leaves in
the output memory, on every plan and for every schedule.
-/

namespace Charr.Parallel

variable {Local Value Error : Type}

/-! ## A loop over tasks -/

section Loop

variable (ends : Nat → Ending String)

/-- How a loop over the tasks ends. -/
def loopEnding : List Nat → Ending String
  | [] => .next
  | task :: rest =>
      match ends task with
      | .next => loopEnding rest
      | .throws message => .throws message
      | .stopsEarly => .stopsEarly

/-- The tasks a loop runs, up to and including the one it ends in. -/
def executed : List Nat → List Nat
  | [] => []
  | task :: rest =>
      match ends task with
      | .next => task :: executed rest
      | .throws _ => [task]
      | .stopsEarly => [task]

variable {ends}

/-- The loop ends well if every task does. -/
theorem loopEnding_eq_next {tasks : List Nat} :
    loopEnding ends tasks = .next ↔ ∀ task ∈ tasks, ends task = .next := by
  induction tasks with
  | nil => simp [loopEnding]
  | cons task rest ih =>
      rw [loopEnding, List.forall_mem_cons]
      cases ends task with
      | next => simp [ih]
      | throws message => simp
      | stopsEarly => simp

theorem executed_sublist (tasks : List Nat) : (executed ends tasks).Sublist tasks := by
  induction tasks with
  | nil => exact List.Sublist.slnil
  | cons task rest ih =>
      rw [executed]
      cases ends task with
      | next => exact ih.cons_cons task
      | throws message => exact (List.nil_sublist rest).cons_cons task
      | stopsEarly => exact (List.nil_sublist rest).cons_cons task

theorem executed_of_next {tasks : List Nat} (hnext : ∀ task ∈ tasks, ends task = .next) :
    executed ends tasks = tasks := by
  induction tasks with
  | nil => rfl
  | cons task rest ih =>
      rw [executed, hnext task List.mem_cons_self,
        ih fun other hother => hnext other (List.mem_cons_of_mem _ hother)]

/-- Tasks behind others are executed if those end well. -/
theorem executed_append (first second : List Nat) :
    executed ends (first ++ second) =
      if loopEnding ends first = .next then first ++ executed ends second
      else executed ends first := by
  induction first with
  | nil => rfl
  | cons task rest ih =>
      rw [List.cons_append, executed, loopEnding, executed]
      cases ends task with
      | next =>
          simp only [ih]
          split <;> rfl
      | throws message => rfl
      | stopsEarly => rfl

/-- A loop over chunks, each a loop of its own. -/
theorem executed_flatMap (chunks : List Nat) (cut : Nat → List Nat) :
    executed ends (chunks.flatMap cut) =
      (executed (fun chunk => loopEnding ends (cut chunk)) chunks).flatMap
        fun chunk => executed ends (cut chunk) := by
  induction chunks with
  | nil => rfl
  | cons chunk rest ih =>
      rw [List.flatMap_cons, executed_append, ih, executed]
      cases hchunk : loopEnding ends (cut chunk) with
      | next =>
          rw [if_pos rfl, List.flatMap_cons,
            executed_of_next fun task htask => loopEnding_eq_next.mp hchunk task htask]
      | throws message => simp
      | stopsEarly => simp

/-- Up to a task that does not end well, every task is executed. -/
theorem executed_of_first {before after : List Nat} {task : Nat}
    (hbefore : ∀ earlier ∈ before, ends earlier = .next) (htask : ends task ≠ .next) :
    executed ends (before ++ task :: after) = before ++ [task] := by
  rw [executed_append, if_pos (loopEnding_eq_next.mpr hbefore), executed]
  cases hends : ends task with
  | next => exact absurd hends htask
  | throws message => rfl
  | stopsEarly => rfl

/-- The loop reaches every task before which all go on. -/
theorem mem_executed {before after : List Nat} {task : Nat}
    (hbefore : ∀ earlier ∈ before, ends earlier = .next) :
    task ∈ executed ends (before ++ task :: after) := by
  induction before with
  | nil =>
      rw [List.nil_append, executed]
      cases ends task <;> simp
  | cons first rest ih =>
      rw [List.cons_append, executed, hbefore first List.mem_cons_self]
      apply List.mem_cons_of_mem
      exact ih fun earlier hearlier => hbefore earlier (List.mem_cons_of_mem _ hearlier)

/-- A chunk's error is the first in the chunk, when none of its tasks stops. -/
theorem loopEnding_error (tasks : List Nat) (hstops : ∀ task ∈ tasks, ends task ≠ .stopsEarly) :
    (loopEnding ends tasks).error = tasks.findSome? fun task => (ends task).error := by
  induction tasks with
  | nil => rfl
  | cons task rest ih =>
      have hrest := ih fun other hother => hstops other (List.mem_cons_of_mem _ hother)
      have hhere := hstops task List.mem_cons_self
      rw [loopEnding, List.findSome?_cons]
      cases hends : ends task with
      | next => exact hrest
      | throws message => rfl
      | stopsEarly => exact absurd hends hhere

/-- A loop that does not go on ends as one of its tasks does. -/
theorem exists_of_loopEnding {tasks : List Nat} (hnext : loopEnding ends tasks ≠ .next) :
    ∃ task ∈ tasks, ends task = loopEnding ends tasks := by
  induction tasks with
  | nil => exact absurd rfl hnext
  | cons task rest ih =>
      rw [loopEnding] at hnext ⊢
      cases hends : ends task with
      | next =>
          rw [hends] at hnext
          obtain ⟨other, hother, heq⟩ := ih hnext
          exact ⟨other, List.mem_cons_of_mem _ hother, heq⟩
      | throws message => exact ⟨task, List.mem_cons_self, hends⟩
      | stopsEarly => exact ⟨task, List.mem_cons_self, hends⟩

end Loop

/-! ## Specifications task by task -/

/-- Each task ends as `ends` says and writes what `writes` says; `invariant`
relates the tasks a worker has run to its own state. -/
structure TaskSpec (body : ParallelBody Local Value Error)
    (invariant : Nat → List Nat → Local → Prop) (ends : Nat → Ending String)
    (writes : Nat → List (Nat × Value)) (tasks : Nat) : Prop where
  setup : ∀ context index,
    let result := body.setup context (body.initial index)
    result.ending = .next ∧ result.writes = [] ∧ result.warned = 0 ∧
      invariant index [] result.state
  enterChunk : ∀ context index done state, invariant index done state →
    let result := body.enterChunk context state
    result.ending = .next ∧ result.writes = [] ∧ invariant index done result.state
  task : ∀ context index done task state, context.worker = index → task < tasks →
    (∀ earlier ∈ done, ends earlier = .next) → invariant index done state →
    let result := body.task context task state
    result.ending.map body.describeError = ends task ∧ result.writes = writes task ∧
      invariant index (done ++ [task]) result.state
  leaveChunk : ∀ context index done state, invariant index done state →
    let result := body.leaveChunk context state
    result.ending = .next ∧ result.writes = [] ∧ invariant index done result.state

section Spec

variable {body : ParallelBody Local Value Error} {invariant : Nat → List Nat → Local → Prop}
  {ends : Nat → Ending String} {writes : Nat → List (Nat × Value)} {tasks : Nat}

/-- The loop of one chunk. -/
theorem TaskSpec.runActions (hspec : TaskSpec body invariant ends writes tasks)
    (context : WorkerContext) {index : Nat} (hworker : context.worker = index)
    (range : List Nat) (hrange : ∀ task ∈ range, task < tasks) {done : List Nat} {state : Local}
    (hdone : ∀ earlier ∈ done, ends earlier = .next) (hinvariant : invariant index done state) :
    let run := Parallel.runActions body context (range.map .task ++ [.leaveChunk]) state
    run.ending.map body.describeError = loopEnding ends range ∧
      run.entries.flatMap Entry.writes = (executed ends range).flatMap writes ∧
      invariant index (done ++ executed ends range) run.state := by
  induction range generalizing done state with
  | nil =>
      obtain ⟨hending, hwrites, hkept⟩ := hspec.leaveChunk context index done state hinvariant
      simp only [List.map_nil, List.nil_append, Parallel.runActions, ParallelBody.act, hending,
        List.flatMap_cons, List.flatMap_nil, hwrites, executed, List.append_nil]
      exact ⟨rfl, trivial, hkept⟩
  | cons task rest ih =>
      obtain ⟨hending, hwrites, hkept⟩ := hspec.task context index done task state hworker
        (hrange task List.mem_cons_self) hdone hinvariant
      simp only [List.map_cons, List.cons_append, Parallel.runActions, ParallelBody.act,
        loopEnding, executed]
      cases hends : ends task with
      | next =>
          rw [hends] at hending
          simp only [ending_eq_next_of_map hending, List.flatMap_cons, hwrites]
          have hdone' : ∀ earlier ∈ done ++ [task], ends earlier = .next := by
            intro earlier hearlier
            rcases List.mem_append.mp hearlier with hmem | hmem
            · exact hdone earlier hmem
            · rw [List.mem_singleton.mp hmem, hends]
          obtain ⟨hrestending, hrestwrites, hrestkept⟩ :=
            ih (fun other hother => hrange other (List.mem_cons_of_mem _ hother)) hdone' hkept
          refine ⟨hrestending, by rw [hrestwrites], ?_⟩
          rw [List.append_assoc] at hrestkept
          exact hrestkept
      | throws message =>
          rw [hends] at hending
          cases hresult : (body.task context task state).ending with
          | throws error =>
              rw [hresult] at hending
              exact ⟨hending, by simp [hwrites], hkept⟩
          | next => simp [hresult, Ending.map] at hending
          | stopsEarly => simp [hresult, Ending.map] at hending
      | stopsEarly =>
          rw [hends] at hending
          cases hresult : (body.task context task state).ending with
          | stopsEarly => exact ⟨rfl, by simp [hwrites], hkept⟩
          | next => simp [hresult, Ending.map] at hending
          | throws error => simp [hresult, Ending.map] at hending

/-- What a chunk of such tasks leaves. -/
def LoopPost (body : ParallelBody Local Value Error) (ends : Nat → Ending String)
    (writes : Nat → List (Nat × Value)) (tasks chunk number : Nat) (ending : Ending Error)
    (entries : List (Entry Value)) : Prop :=
  ending.map body.describeError = loopEnding ends (chunkRange tasks chunk number) ∧
    entries.flatMap Entry.writes =
      (executed ends (chunkRange tasks chunk number)).flatMap writes

/-- The tasks a worker ran in some chunks. -/
def ranIn (ends : Nat → Ending String) (tasks chunk : Nat) (chunks : List Nat) : List Nat :=
  chunks.flatMap fun number => executed ends (chunkRange tasks chunk number)

/-- A worker runs its tasks in ascending order. -/
theorem ranIn_sorted {chunk : Nat} (hchunk : 1 ≤ chunk) {chunks : List Nat}
    (hsorted : chunks.Pairwise (· < ·)) : (ranIn ends tasks chunk chunks).Pairwise (· < ·) := by
  have hran : (ranIn ends tasks chunk chunks).Sublist (chunks.flatMap (chunkRange tasks chunk)) :=
    List.Sublist.flatMap_right chunks fun number _ => executed_sublist _
  exact List.Pairwise.sublist hran (flatMap_chunkRange_sorted hchunk hsorted)

/-- A body that works task by task, by what one task does. -/
theorem TaskSpec.bodySpec (hspec : TaskSpec body invariant ends writes tasks) (workers : Nat)
    {chunk : Nat} (hchunk : 1 ≤ chunk) :
    BodySpec body workers tasks chunk
      (fun index finished state => invariant index (ranIn ends tasks chunk finished) state)
      (LoopPost body ends writes tasks chunk) where
  setup index _ := hspec.setup _ index
  chunk index _ finished number state hnumber _ hposts hinvariant := by
    have hrange : ∀ task ∈ chunkRange tasks chunk number, task < tasks :=
      fun task htask => ((mem_chunkRange hchunk).mp htask).1
    have hdone : ∀ earlier ∈ ranIn ends tasks chunk finished, ends earlier = .next := by
      intro earlier hearlier
      obtain ⟨other, hother, hmem⟩ := List.mem_flatMap.mp hearlier
      obtain ⟨entries, hending, -⟩ := hposts other hother
      exact loopEnding_eq_next.mp hending.symm earlier ((executed_sublist _).subset hmem)
    obtain ⟨hending, hwrites, hentered⟩ := hspec.enterChunk
      (heldContext workers tasks chunk index number) index _ state hinvariant
    obtain ⟨hloop, hwritten, hkept⟩ := hspec.runActions
      (heldContext workers tasks chunk index number) rfl _ hrange hdone hentered
    have hactions : chunkActions (chunkBegin chunk number) (chunkEnd tasks chunk number) =
        .enterChunk :: ((chunkRange tasks chunk number).map .task ++ [.leaveChunk]) := rfl
    rw [hactions]
    simp only [Parallel.runActions, ParallelBody.act, hending]
    refine ⟨⟨hloop, ?_⟩, ?_⟩
    · rw [List.flatMap_cons, hwrites, List.nil_append]
      exact hwritten
    · rw [ranIn, List.flatMap_append, List.flatMap_singleton]
      exact hkept

end Spec

/-! ## What the region leaves -/

/-- A driver call over such a body. -/
structure LoopEnd (body : ParallelBody Local Value Error)
    (invariant : Nat → List Nat → Local → Prop) (ends : Nat → Ending String)
    (writes : Nat → List (Nat × Value)) (workers tasks chunk : Nat)
    (memory : Nat → Option Value) (regionEnd : RegionEnd Local Value Error) : Prop where
  completed : ∃ warnings, Completed body workers tasks chunk
    (fun index finished state => invariant index (ranIn ends tasks chunk finished) state)
    (LoopPost body ends writes tasks chunk)
    (fun number => loopEnding ends (chunkRange tasks chunk number)) ⟨memory, warnings⟩
    regionEnd.final
  outcome_eq : regionEnd.outcome = regionEnd.final.conclude

/-- How a region ends whose body works task by task. -/
theorem loopEnd_of_runRegion {body : ParallelBody Local Value Error}
    {invariant : Nat → List Nat → Local → Prop} {ends : Nat → Ending String}
    {writes : Nat → List (Nat × Value)} {plan : ParallelPlan} {tasks : Nat}
    (hspec : TaskSpec body invariant ends writes tasks) {memory : Nat → Option Value}
    {warnings : Bool} {schedule : List Nat} {regionEnd : RegionEnd Local Value Error}
    (hrun : runRegion plan tasks body memory warnings schedule = some regionEnd) :
    LoopEnd body invariant ends writes (regionWorkers plan tasks) tasks (regionChunk plan)
      memory regionEnd := by
  obtain ⟨hdone, houtcome, -⟩ := completed_of_runRegion
    (hspec.bodySpec (regionWorkers plan tasks) (one_le_regionChunk plan))
    (fun number ending entries hpost => hpost.1) hrun
  exact ⟨⟨_, hdone⟩, houtcome⟩

/-- Chunks that are loops over their tasks report the first error of a task. -/
theorem Completed.message_of_loops {body : ParallelBody Local Value Error}
    {ends : Nat → Ending String} {workers tasks chunk : Nat}
    {history : Nat → List Nat → Local → Prop}
    {post : Nat → Ending Error → List (Entry Value) → Prop} {before : Shared Value}
    {region : Region Local Value Error}
    (hdone : Completed body workers tasks chunk history post
      (fun number => loopEnding ends (chunkRange tasks chunk number)) before region)
    (hstops : ∀ task < tasks, ends task ≠ .stopsEarly) :
    region.conclude.message body.describeError =
      (List.range tasks).findSome? fun task => (ends task).error := by
  have hrange : ∀ number, ∀ task ∈ chunkRange tasks chunk number, ends task ≠ .stopsEarly :=
    fun number task htask => hstops task ((mem_chunkRange hdone.chunk_pos).mp htask).1
  have hchunks : ∀ number < chunkCount tasks chunk,
      loopEnding ends (chunkRange tasks chunk number) ≠ .stopsEarly := by
    intro number _ hstop
    obtain ⟨task, htask, hends⟩ := exists_of_loopEnding (show _ ≠ _ by rw [hstop]; simp)
    exact hrange number task htask (hends.trans hstop)
  rw [(hdone.conclude_message hchunks).1]
  simp only [loopEnding_error _ (hrange _)]
  have hflat := serialFailure_flatMap (fun task => (ends task).error)
    (List.range (chunkCount tasks chunk)) (chunkRange tasks chunk)
  rw [flatMap_chunkRange tasks hdone.chunk_pos] at hflat
  exact hflat.symm

namespace LoopEnd

variable {body : ParallelBody Local Value Error} {invariant : Nat → List Nat → Local → Prop}
  {ends : Nat → Ending String} {writes : Nat → List (Nat × Value)}
  {workers tasks chunk : Nat} {memory : Nat → Option Value}
  {regionEnd : RegionEnd Local Value Error}

/-- Every task before which all go on lies in a chunk before which all go on. -/
theorem chunks_below {task : Nat} (hchunk : 1 ≤ chunk) (htask : task < tasks)
    (hbelow : ∀ earlier < task, ends earlier = .next) :
    task / chunk < chunkCount tasks chunk ∧
      (∀ earlier < task / chunk, loopEnding ends (chunkRange tasks chunk earlier) = .next) ∧
      task ∈ executed ends (chunkRange tasks chunk (task / chunk)) := by
  have hinside := (mem_chunk_iff hchunk).mpr ⟨htask, rfl⟩
  refine ⟨?_, ?_, ?_⟩
  · exact (lt_chunkCount_iff hchunk).mpr ((Nat.div_mul_le_self task chunk).trans_lt htask)
  · intro earlier hearlier
    rw [loopEnding_eq_next]
    intro other hother
    obtain ⟨-, rfl⟩ := (mem_chunkRange hchunk).mp hother
    exact hbelow other (Nat.lt_of_div_lt_div hearlier)
  · have hsplit : chunkRange tasks chunk (task / chunk) =
        List.range' (chunkBegin chunk (task / chunk)) (task - chunkBegin chunk (task / chunk)) ++
          task :: List.range' (task + 1) (chunkEnd tasks chunk (task / chunk) - (task + 1)) := by
      rw [← List.range'_succ, chunkRange]
      have hjoin := List.range'_append_1 (s := chunkBegin chunk (task / chunk))
        (m := task - chunkBegin chunk (task / chunk))
        (n := chunkEnd tasks chunk (task / chunk) - (task + 1) + 1)
      rw [Nat.add_sub_cancel' hinside.1] at hjoin
      rw [hjoin]
      congr 1
      omega
    rw [hsplit]
    apply mem_executed
    intro earlier hearlier
    rw [List.mem_range'_1] at hearlier
    exact hbelow earlier (by omega)

variable (hend : LoopEnd body invariant ends writes workers tasks chunk memory regionEnd)
include hend

/-- A slot a reached task writes, and no task writes differently. -/
theorem result_eq_some {task slot : Nat} {value : Value} (htask : task < tasks)
    (hbelow : ∀ earlier < task, ends earlier = .next) (hwrites : (slot, value) ∈ writes task)
    (hagree : ∀ other < tasks, ∀ write ∈ writes other, write.1 = slot → write.2 = value) :
    regionEnd.final.shared.result slot = some value := by
  obtain ⟨warnings, hdone⟩ := hend.completed
  obtain ⟨hnumber, hchunks, hreached⟩ := chunks_below hdone.chunk_pos htask hbelow
  apply hdone.result_eq_some hnumber hchunks
  · rintro ending entries ⟨-, hwritten⟩
    have hmem : (slot, value) ∈ entries.flatMap Entry.writes := by
      rw [hwritten]
      exact List.mem_flatMap.mpr ⟨task, hreached, hwrites⟩
    exact List.mem_flatMap.mp hmem
  · rintro other - ending entries ⟨-, hwritten⟩ entry hentry write hwrite hslot
    have hmem : write ∈ entries.flatMap Entry.writes :=
      List.mem_flatMap.mpr ⟨entry, hentry, hwrite⟩
    rw [hwritten] at hmem
    obtain ⟨writer, hwriter, hwrite⟩ := List.mem_flatMap.mp hmem
    have hlt := ((mem_chunkRange hdone.chunk_pos).mp ((executed_sublist _).subset hwriter)).1
    exact hagree writer hlt write hwrite hslot

/-- A slot no task writes keeps what it held. -/
theorem result_eq_initial {slot : Nat}
    (hnot : ∀ task < tasks, ∀ write ∈ writes task, write.1 ≠ slot) :
    regionEnd.final.shared.result slot = memory slot := by
  obtain ⟨warnings, hdone⟩ := hend.completed
  apply hdone.result_eq_initial
  rintro number - ending entries ⟨-, hwritten⟩ entry hentry write hwrite
  have hmem : write ∈ entries.flatMap Entry.writes :=
    List.mem_flatMap.mpr ⟨entry, hentry, hwrite⟩
  rw [hwritten] at hmem
  obtain ⟨writer, hwriter, hwrite⟩ := List.mem_flatMap.mp hmem
  have hlt := ((mem_chunkRange hdone.chunk_pos).mp ((executed_sublist _).subset hwriter)).1
  exact hnot writer hlt write hwrite

/-- The driver returns when no task throws. -/
theorem returned (hquiet : ∀ task < tasks, ∀ message, ends task ≠ .throws message) :
    regionEnd.outcome = .returned := by
  obtain ⟨warnings, hdone⟩ := hend.completed
  rw [hend.outcome_eq]
  apply hdone.conclude_of_no_throws
  intro number hnumber message hthrows
  obtain ⟨task, htask, hends⟩ := exists_of_loopEnding (show _ ≠ _ by rw [hthrows]; simp)
  exact hquiet task ((mem_chunkRange hdone.chunk_pos).mp htask).1 message (hends.trans hthrows)

/-- Where no task stops early, the driver reports the first error in order. -/
theorem message_eq (hstops : ∀ task < tasks, ends task ≠ .stopsEarly) :
    regionEnd.outcome.message body.describeError =
      (List.range tasks).findSome? fun task => (ends task).error := by
  obtain ⟨warnings, hdone⟩ := hend.completed
  rw [hend.outcome_eq]
  exact hdone.message_of_loops hstops

/-- Every task before which all go on was run by some worker. -/
theorem exists_ran {task : Nat} (htask : task < tasks)
    (hbelow : ∀ earlier < task, ends earlier = .next) :
    ∃ index < workers,
      task ∈ ranIn ends tasks chunk (owned tasks chunk regionEnd.final.claims index) := by
  obtain ⟨warnings, hdone⟩ := hend.completed
  obtain ⟨hnumber, hchunks, hreached⟩ := chunks_below hdone.chunk_pos htask hbelow
  obtain ⟨index, hindex, howned⟩ := hdone.exists_owned hnumber hchunks
  exact ⟨index, hindex, List.mem_flatMap.mpr ⟨_, howned, hreached⟩⟩

/-- Only tasks of the range are run. -/
theorem lt_tasks_of_ran {task index : Nat}
    (hran : task ∈ ranIn ends tasks chunk (owned tasks chunk regionEnd.final.claims index)) :
    task < tasks := by
  obtain ⟨warnings, hdone⟩ := hend.completed
  obtain ⟨number, -, hmem⟩ := List.mem_flatMap.mp hran
  exact ((mem_chunkRange hdone.chunk_pos).mp ((executed_sublist _).subset hmem)).1

/-- A worker's own state after the region, with the tasks it ran. -/
theorem state {index : Nat} (hindex : index < workers) :
    invariant index
      (ranIn ends tasks chunk (owned tasks chunk regionEnd.final.claims index))
      (regionEnd.final.worker index).state := by
  obtain ⟨warnings, hdone⟩ := hend.completed
  exact hdone.history_owned hindex

/-- Where every task goes on, the workers run all of them, each once. -/
theorem ran_perm (hnext : ∀ task < tasks, ends task = .next) :
    ((List.range workers).flatMap fun index =>
      ranIn ends tasks chunk (owned tasks chunk regionEnd.final.claims index)).Perm
        (List.range tasks) := by
  obtain ⟨warnings, hdone⟩ := hend.completed
  have hrange : ∀ number, ∀ task ∈ chunkRange tasks chunk number, ends task = .next :=
    fun number task htask => hnext task ((mem_chunkRange hdone.chunk_pos).mp htask).1
  have hclaims := hdone.chunkCount_le_claims fun number _ =>
    loopEnding_eq_next.mpr (hrange number)
  have howned : ((List.range workers).flatMap
      (owned tasks chunk regionEnd.final.claims)).Perm _ := owned_perm hdone.invariant.winners
  have hran : ∀ chunks, ranIn ends tasks chunk chunks = chunks.flatMap (chunkRange tasks chunk) :=
    fun chunks => by simp only [ranIn, executed_of_next (hrange _)]
  simp only [hran]
  rw [Nat.min_eq_right hclaims] at howned
  rw [← List.flatMap_assoc, ← flatMap_chunkRange tasks hdone.chunk_pos]
  exact howned.flatMap_right _

end LoopEnd

/-! ## Tasks that compute one value each -/

section Items

variable (compute : Nat → Except Error Value) (describe : Error → String)

/-- A body whose tasks write what they compute, or throw. -/
def itemBody : ParallelBody Unit Value Error where
  initial _ := ()
  task _ task _ :=
    match compute task with
    | .ok value => { ending := .next, state := (), writes := [(task, value)] }
    | .error error => { ending := .throws error, state := () }
  describeError := describe

/-- The error of a task. -/
def itemFailure (task : Nat) : Option Error :=
  match compute task with
  | .ok _ => none
  | .error error => some error

/-- A task writes its own result. -/
def itemWrites (task : Nat) : List (Nat × Value) :=
  match compute task with
  | .ok value => [(task, value)]
  | .error _ => []

/-- A body that computes a result for every task. -/
theorem itemSpec (tasks : Nat) :
    TaskSpec (itemBody compute describe) (fun _ _ _ => True)
      (fun task => taskEnding ((itemFailure compute task).map describe)) (itemWrites compute)
      tasks where
  setup _ _ := ⟨rfl, rfl, rfl, trivial⟩
  enterChunk _ _ _ _ _ := ⟨rfl, rfl, trivial⟩
  task _ _ _ task _ _ _ _ _ := by
    simp only [itemBody, itemFailure, itemWrites]
    cases compute task with
    | ok value => exact ⟨rfl, rfl, trivial⟩
    | error error => exact ⟨rfl, rfl, trivial⟩
  leaveChunk _ _ _ _ _ := ⟨rfl, rfl, trivial⟩

/-- Computing one value after the other stops at the first error. -/
theorem mapM_error {tasks : List Nat} {error : Error}
    (hfirst : tasks.findSome? (itemFailure compute) = some error) :
    tasks.mapM compute = .error error := by
  induction tasks with
  | nil => cases hfirst
  | cons task tasks ih =>
      rw [List.mapM_cons]
      rw [List.findSome?_cons, itemFailure] at hfirst
      cases hcompute : compute task with
      | error other =>
          rw [hcompute] at hfirst
          cases hfirst
          rfl
      | ok value =>
          rw [hcompute] at hfirst
          rw [ih hfirst]
          rfl

/-- Without a failure every task has its value. -/
theorem mapM_ok {tasks : List Nat} (hnone : tasks.findSome? (itemFailure compute) = none) :
    ∃ values, tasks.mapM compute = .ok values ∧
      List.Forall₂ (fun task value => compute task = .ok value) tasks values := by
  induction tasks with
  | nil => exact ⟨[], rfl, .nil⟩
  | cons task tasks ih =>
      rw [List.findSome?_cons, itemFailure] at hnone
      rw [List.mapM_cons]
      cases hcompute : compute task with
      | error other =>
          rw [hcompute] at hnone
          cases hnone
      | ok value =>
          rw [hcompute] at hnone
          obtain ⟨values, hvalues, hall⟩ := ih hnone
          rw [hvalues]
          exact ⟨value :: values, rfl, .cons hcompute hall⟩

variable {compute describe}

/-- The values a region left, or the text of its error. -/
def regionResult {Local : Type} (describe : Error → String) (tasks : Nat)
    (regionEnd : RegionEnd Local Value Error) : Except String (List (Option Value)) :=
  match regionEnd.outcome.message describe with
  | some message => .error message
  | none => .ok ((List.range tasks).map regionEnd.final.shared.result)

/-- The values a loop over the tasks gave, or the text of its error. -/
def loopResult (describe : Error → String) (values : Except Error (List Value)) :
    Except String (List (Option Value)) :=
  match values with
  | .ok values => .ok (values.map some)
  | .error error => .error (describe error)

/-- Whatever the workers keep, the region gives what computing one value after the other
gives. -/
theorem TaskSpec.regionResult_eq {Local : Type} {body : ParallelBody Local Value Error}
    {invariant : Nat → List Nat → Local → Prop} {plan : ParallelPlan} {tasks : Nat}
    {schedule : List Nat} {regionEnd : RegionEnd Local Value Error}
    (hspec : TaskSpec body invariant
      (fun task => taskEnding ((itemFailure compute task).map body.describeError))
      (itemWrites compute) tasks)
    (hrun : runParallel plan tasks body (fun _ => none) schedule = some regionEnd) :
    regionResult body.describeError tasks regionEnd =
      loopResult body.describeError ((List.range tasks).mapM compute) := by
  have hend := loopEnd_of_runRegion hspec hrun
  have hmessage : regionEnd.outcome.message body.describeError = _ :=
    hend.message_eq fun task _ => taskEnding_ne_stopsEarly _
  simp only [taskEnding_error] at hmessage
  have hscan : (List.range tasks).findSome? (fun task =>
      (itemFailure compute task).map body.describeError) =
        ((List.range tasks).findSome? (itemFailure compute)).map body.describeError := by
    rw [List.map_findSome?]
    rfl
  -- the region reports the first failure of the loop, or it has stored every value
  unfold regionResult loopResult
  rw [hmessage, hscan]
  cases hfirst : (List.range tasks).findSome? (itemFailure compute) with
  | some error =>
      rw [mapM_error compute hfirst]
      rfl
  | none =>
      obtain ⟨values, hvalues, hall⟩ := mapM_ok compute hfirst
      rw [hvalues]
      simp only [Option.map_none]
      congr 1
      have hresult : ∀ task ∈ List.range tasks, ∀ value, compute task = .ok value →
          regionEnd.final.shared.result task = some value := by
        intro task htask value hvalue
        apply hend.result_eq_some (List.mem_range.mp htask)
        · intro earlier hearlier
          have hmem := List.mem_range.mpr (hearlier.trans (List.mem_range.mp htask))
          rw [List.findSome?_eq_none_iff.mp hfirst earlier hmem]
          rfl
        · rw [itemWrites, hvalue]
          exact List.mem_singleton_self _
        · intro other _ write hwrite hslot
          unfold itemWrites at hwrite
          split at hwrite
          next stored hstored =>
            obtain rfl := List.mem_singleton.mp hwrite
            obtain rfl : other = task := hslot
            exact Except.ok.inj (hstored.symm.trans hvalue)
          next => cases hwrite
      -- the stored values in order
      clear hfirst hvalues hscan hmessage
      generalize List.range tasks = range at hall hresult
      induction hall with
      | nil => rfl
      | cons hhead _ ih =>
          rw [List.map_cons, List.map_cons, hresult _ List.mem_cons_self _ hhead,
            ih fun task htask => hresult task (List.mem_cons_of_mem _ htask)]

/-- The region gives what computing one value after the other gives. -/
theorem itemRegion_eq {plan : ParallelPlan} {tasks : Nat} {schedule : List Nat}
    {regionEnd : RegionEnd Unit Value Error}
    (hrun : runParallel plan tasks (itemBody compute describe) (fun _ => none) schedule =
      some regionEnd) :
    (match regionEnd.outcome.message describe with
      | some message => Except.error message
      | none => .ok ((List.range tasks).map regionEnd.final.shared.result)) =
      match (List.range tasks).mapM compute with
      | .ok values => .ok (values.map some)
      | .error error => .error (describe error) :=
  (itemSpec compute describe tasks).regionResult_eq hrun

end Items

end Charr.Parallel
