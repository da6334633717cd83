import Charr.Parallel.Outcome
import Charr.Parallel.Progress

/-!
# A region agrees with the serial run

For a body whose tasks succeed, fail and warn by themselves, the driver reports
what a loop over the tasks `0, 1, 2, …` reports, on every plan and for every
schedule: the message of the first failing task, and the warnings raised up to
and including it.
-/

namespace Charr.Parallel

variable {Local Value Error : Type}

/-! ## The serial run -/

section SerialRun

variable {Task : Type} (fails : Task → Option String) (raises : Task → Nat)

/-- The message a loop over the tasks stops with. -/
def serialFailure (tasks : List Task) : Option String :=
  tasks.findSome? fails

/-- The warnings a loop over the tasks raises before it ends or stops; the
failing task's own warnings count. -/
def serialWarned : List Task → Nat
  | [] => 0
  | task :: rest =>
      match fails task with
      | none => raises task + serialWarned rest
      | some _ => raises task

/-- The first failure of tasks that are cut into chunks. -/
theorem serialFailure_flatMap {Chunk : Type} (chunks : List Chunk) (cut : Chunk → List Task) :
    serialFailure fails (chunks.flatMap cut) =
      serialFailure (fun chunk => serialFailure fails (cut chunk)) chunks := by
  induction chunks with
  | nil => rfl
  | cons chunk rest ih =>
      unfold serialFailure at ih ⊢
      rw [List.flatMap_cons, List.findSome?_append, ih, List.findSome?_cons]
      cases (cut chunk).findSome? fails <;> rfl

/-- Warnings are counted up to the first failure. -/
theorem serialWarned_append (first second : List Task) :
    serialWarned fails raises (first ++ second) =
      serialWarned fails raises first +
        if serialFailure fails first = none then serialWarned fails raises second else 0 := by
  induction first with
  | nil => simp [serialWarned, serialFailure]
  | cons task rest ih =>
      unfold serialFailure at ih ⊢
      rw [List.cons_append, serialWarned, serialWarned, List.findSome?_cons]
      cases fails task with
      | none =>
          simp only [ih]
          omega
      | some message => simp

/-- The warnings of tasks that are cut into chunks. -/
theorem serialWarned_flatMap {Chunk : Type} (chunks : List Chunk) (cut : Chunk → List Task) :
    serialWarned fails raises (chunks.flatMap cut) =
      serialWarned (fun chunk => serialFailure fails (cut chunk))
        (fun chunk => serialWarned fails raises (cut chunk)) chunks := by
  induction chunks with
  | nil => rfl
  | cons chunk rest ih =>
      rw [List.flatMap_cons, serialWarned_append, serialWarned, ih]
      cases serialFailure fails (cut chunk) <;> simp

/-- Without a failure all warnings count. -/
theorem serialWarned_eq_sum (tasks : List Task) (hnone : ∀ task ∈ tasks, fails task = none) :
    serialWarned fails raises tasks = (tasks.map raises).sum := by
  induction tasks with
  | nil => rfl
  | cons task rest ih =>
      rw [serialWarned, hnone task List.mem_cons_self, List.map_cons, List.sum_cons,
        ih fun other hother => hnone other (List.mem_cons_of_mem _ hother)]

/-- With a first failing task, the loop's warnings are those up to it. -/
theorem serialWarned_of_first {fails : Nat → Option String} {raises : Nat → Nat}
    {count number : Nat} {message : String} (hnumber : number < count)
    (hbelow : ∀ earlier < number, fails earlier = none) (hfails : fails number = some message) :
    serialWarned fails raises (List.range count) =
      ((List.range (number + 1)).map raises).sum := by
  have hquiet : ∀ task ∈ List.range number, fails task = none :=
    fun task htask => hbelow task (List.mem_range.mp htask)
  have hnone : serialFailure fails (List.range number) = none :=
    List.findSome?_eq_none_iff.mpr hquiet
  rw [range_split hnumber, serialWarned_append, if_pos hnone, serialWarned, hfails,
    serialWarned_eq_sum fails raises _ hquiet, List.range_succ, List.map_append, List.sum_append]
  simp

end SerialRun

/-! ## Warnings of a completed region -/

section Completed

variable {body : ParallelBody Local Value Error} {workers tasks chunk : Nat}
  {history : Nat → List Nat → Local → Prop}
  {post : Nat → Ending Error → List (Entry Value) → Prop} {initial : Shared Value}
  {region : Region Local Value Error} {ends : Nat → Ending String}

/-- Only chunks that were won left anything behind. -/
theorem Completed.chunkTrace_eq_nil
    (hdone : Completed body workers tasks chunk history post ends initial region) {number : Nat}
    (hnot : ∀ index < workers, number ∉ owned tasks chunk region.claims index) :
    chunkTrace chunk region.trace number = [] := by
  rw [chunkTrace, List.filter_eq_nil_iff]
  intro entry hentry hdecide
  have hposition : entry.context.serialPosition = chunkBegin chunk number :=
    of_decide_eq_true hdecide
  rcases hdone.invariant.positions entry hentry with
    ⟨hholding, -⟩ | ⟨other, index, howned, hcontext, -⟩
  · rw [WorkerContext.serialPosition, hholding] at hposition
    simp at hposition
  · rw [hcontext, heldContext_serialPosition] at hposition
    obtain rfl := chunkBegin_injective hdone.chunk_pos hposition
    exact hnot index (hdone.lt_workers_of_owned howned) howned

/-- A serial run claims nothing past the chunk it failed in. -/
theorem Completed.not_owned_of_serial
    (hdone : Completed body workers tasks chunk history post ends initial region)
    (hserial : workers < 2) {number later : Nat} {message : String}
    (hnumber : number < chunkCount tasks chunk)
    (hbelow : ∀ earlier < number, ends earlier = .next) (hthrows : ends number = .throws message)
    (hlater : number < later) :
    ∀ index < workers, later ∉ owned tasks chunk region.claims index := by
  intro index hindex howned
  obtain ⟨other, hother, hwon⟩ := hdone.exists_owned hnumber hbelow
  obtain rfl : index = 0 := by omega
  obtain rfl : other = 0 := by omega
  obtain ⟨hjoined, -⟩ := hdone.invariant.joined hdone.complete hindex
  obtain ⟨⟨error, -, hphase⟩, -⟩ := hjoined.of_throws hdone.ending hwon hthrows
  have hsorted := owned_sorted tasks chunk region.claims 0
  rw [hphase] at hjoined
  generalize owned tasks chunk region.claims 0 = mine at *
  generalize (region.worker 0).report = report at hjoined
  cases hjoined with
  | @failed finished last _ hfinished hpost =>
      -- The failing chunk is the last one the worker won.
      have hlast : number = last := by
        rcases List.mem_append.mp hwon with hmem | hmem
        · have := hdone.ending _ _ _ (hfinished number hmem)
          rw [hthrows] at this
          exact absurd this (by simp [Ending.map])
        · exact List.mem_singleton.mp hmem
      subst last
      rcases List.mem_append.mp howned with hmem | hmem
      · have := (List.pairwise_append.mp hsorted).2.2 later hmem number (by simp)
        omega
      · have := List.mem_singleton.mp hmem
        omega

/-- Chunks that were won raised what their specification says. -/
theorem Completed.sum_warned
    (hdone : Completed body workers tasks chunk history post ends initial region)
    {counts : Nat → Nat}
    (hcounts : ∀ number ending entries, post number ending entries →
      warned entries = counts number) {count : Nat} (hcount : count ≤ chunkCount tasks chunk)
    (hends : ∀ number < count, ∀ earlier < number, ends earlier = .next) :
    ((List.range count).map fun number => warned (chunkTrace chunk region.trace number)).sum =
      ((List.range count).map counts).sum := by
  congr 1
  apply List.map_congr_left
  intro number hnumber
  rw [List.mem_range] at hnumber
  obtain ⟨index, -, howned⟩ := hdone.exists_owned (hnumber.trans_le hcount) (hends number hnumber)
  obtain ⟨ending, hpost⟩ := hdone.post_of_owned howned
  exact hcounts number ending _ hpost

/-- A serial run raised nothing past the chunk it failed in. -/
theorem Completed.sum_warned_of_serial
    (hdone : Completed body workers tasks chunk history post ends initial region)
    (hserial : workers < 2) {number : Nat} {message : String}
    (hnumber : number < chunkCount tasks chunk)
    (hbelow : ∀ earlier < number, ends earlier = .next)
    (hthrows : ends number = .throws message) :
    ((List.range (chunkCount tasks chunk)).map fun number =>
        warned (chunkTrace chunk region.trace number)).sum =
      ((List.range (number + 1)).map fun number =>
        warned (chunkTrace chunk region.trace number)).sum := by
  have hrest : ((List.range' (number + 1) (chunkCount tasks chunk - (number + 1))).map
      fun number => warned (chunkTrace chunk region.trace number)).sum = 0 := by
    apply List.sum_eq_zero
    intro count hcount
    obtain ⟨later, hlater, rfl⟩ := List.mem_map.mp hcount
    rw [List.mem_range'_1] at hlater
    rw [hdone.chunkTrace_eq_nil
      (hdone.not_owned_of_serial hserial hnumber hbelow hthrows (by omega))]
    rfl
  rw [range_split hnumber, List.range_succ]
  simp only [List.map_append, List.map_cons, List.sum_append, List.sum_cons, hrest]
  simp

/-- The counters report the warnings of a chunk by chunk serial run. -/
theorem Completed.count_finalWarnings
    (hdone : Completed body workers tasks chunk history post ends initial region)
    (hinitial : initial.warnings = some (SerialWarnings.reset workers tasks chunk))
    (hstops : ∀ number < chunkCount tasks chunk, ends number ≠ .stopsEarly)
    {counts : Nat → Nat}
    (hcounts : ∀ number ending entries, post number ending entries →
      warned entries = counts number) :
    region.finalWarnings.map SerialWarnings.count =
      some (serialWarned (fun number => (ends number).error) counts
        (List.range (chunkCount tasks chunk))) := by
  have hshared := hdone.shared_warnings hinitial
  rcases first_throws_cases hstops with hall | ⟨number, message, hnumber, hbelow, hthrows⟩
  · -- Nothing failed, so the counters stay as the workers left them.
    have hfirst : region.firstFailure = none := by
      rw [Region.firstFailure_eq_none, hdone.invariant.workers_eq]
      intro index hindex
      refine (hdone.not_failed_of_no_throws ?_ hindex).1
      intro number hnumber message hthrows
      rw [hall number hnumber] at hthrows
      exact absurd hthrows (by simp)
    have hfinal : region.finalWarnings = region.shared.warnings := by
      unfold Region.finalWarnings
      rw [hfirst]
      split <;> rfl
    have hquiet : ∀ number ∈ List.range (chunkCount tasks chunk),
        (ends number).error = none := by
      intro number hnumber
      rw [hall number (List.mem_range.mp hnumber)]
      rfl
    rw [hfinal, hshared, Option.map_some, count_tallied,
      hdone.sum_warned hcounts le_rfl fun number hnumber earlier hearlier =>
        hall earlier (hearlier.trans hnumber),
      serialWarned_eq_sum _ _ _ hquiet]
  · have hfails : (ends number).error = some message := by
      rw [hthrows]
      rfl
    have hquiet : ∀ earlier < number, (ends earlier).error = none := by
      intro earlier hearlier
      rw [hbelow earlier hearlier]
      rfl
    rw [serialWarned_of_first hnumber hquiet hfails,
      ← hdone.sum_warned hcounts (Nat.succ_le_of_lt hnumber) fun other hother earlier hearlier =>
        hbelow earlier (hearlier.trans_le (Nat.lt_succ_iff.mp hother))]
    unfold Region.finalWarnings
    rw [hdone.firstFailure_of_first_throws hnumber hbelow hthrows, hdone.invariant.workers_eq,
      hshared]
    -- Several workers cut the counters at the failure; one never got past it.
    split
    next hserial =>
      rw [Option.map_some, count_tallied,
        hdone.sum_warned_of_serial hserial hnumber hbelow hthrows]
    next =>
      simp only [Option.map_some]
      rw [count_failAt_tallied workers tasks hdone.chunk_pos _ hnumber]

end Completed

/-! ## Bodies that run their tasks one by one -/

/-- How a task ends that fails with `failure` or succeeds. -/
def taskEnding : Option String → Ending String
  | none => .next
  | some message => .throws message

/-- The set-up and both ends of a chunk neither fail nor warn, and whether a task
fails, and with which message, depends on the task alone. -/
structure FailsAs (body : ParallelBody Local Value Error) (fails : Nat → Option String) :
    Prop where
  setup : ∀ context state, (body.setup context state).ending = .next ∧
    (body.setup context state).writes = [] ∧ (body.setup context state).warned = 0
  enterChunk : ∀ context state, (body.enterChunk context state).ending = .next
  task : ∀ context index state,
    (body.task context index state).ending.map body.describeError = taskEnding (fails index)
  leaveChunk : ∀ context state, (body.leaveChunk context state).ending = .next

/-- Warnings are raised by the tasks, each a number of its own. -/
structure WarnsAs (body : ParallelBody Local Value Error) (raises : Nat → Nat) : Prop where
  enterChunk : ∀ context state, (body.enterChunk context state).warned = 0
  task : ∀ context index state, (body.task context index state).warned = raises index
  leaveChunk : ∀ context state, (body.leaveChunk context state).warned = 0

section Tasks

variable {body : ParallelBody Local Value Error} {fails : Nat → Option String}
  {raises : Nat → Nat}

theorem ending_eq_next_of_map {Message : Type} {describe : Error → Message}
    {ending : Ending Error} (hmap : ending.map describe = .next) : ending = .next := by
  cases ending with
  | next => rfl
  | throws error => simp [Ending.map] at hmap
  | stopsEarly => simp [Ending.map] at hmap

/-- What a worker executed is an initial part of its actions, all of them unless
one did not go on. -/
theorem runActions_actions (body : ParallelBody Local Value Error) (context : WorkerContext)
    (actions : List Action) (state : Local) :
    (runActions body context actions state).entries.map Entry.action <+: actions ∧
      ((runActions body context actions state).ending = .next →
        (runActions body context actions state).entries.map Entry.action = actions) := by
  induction actions generalizing state with
  | nil => simp [runActions]
  | cons action rest ih =>
      simp only [runActions]
      cases (body.act context action state).ending with
      | next =>
          obtain ⟨hfront, hall⟩ := ih (body.act context action state).state
          refine ⟨?_, fun hnext => ?_⟩
          · rw [List.map_cons, List.prefix_cons_inj]
            exact hfront
          · rw [List.map_cons, hall hnext]
      | throws error => simp
      | stopsEarly => simp

/-- The tasks of a chunk end as the serial loop over them does. -/
theorem runActions_tasks (hfails : FailsAs body fails) (context : WorkerContext)
    (tasks : List Nat) (state : Local) :
    (runActions body context (tasks.map .task ++ [.leaveChunk]) state).ending.map
      body.describeError = taskEnding (serialFailure fails tasks) := by
  induction tasks generalizing state with
  | nil =>
      simp only [List.map_nil, List.nil_append, runActions, ParallelBody.act,
        hfails.leaveChunk context state]
      rfl
  | cons task rest ih =>
      have htask := hfails.task context task state
      unfold serialFailure at ih ⊢
      simp only [List.map_cons, List.cons_append, runActions, ParallelBody.act,
        List.findSome?_cons]
      cases hfailure : fails task with
      | none =>
          rw [hfailure] at htask
          simp only [ending_eq_next_of_map htask]
          exact ih _
      | some message =>
          rw [hfailure] at htask
          cases hending : (body.task context task state).ending with
          | throws error =>
              rw [hending] at htask
              exact htask
          | next => simp [hending, Ending.map, taskEnding] at htask
          | stopsEarly => simp [hending, Ending.map, taskEnding] at htask

theorem warned_cons (entry : Entry Value) (rest : List (Entry Value)) :
    warned (entry :: rest) = entry.warned + warned rest := by
  simp [warned]

/-- A chunk counts the warnings that a serial run of it counts. -/
theorem runActions_tasks_warned (hfails : FailsAs body fails) (hwarns : WarnsAs body raises)
    (context : WorkerContext) (tasks : List Nat) (state : Local) :
    warned (runActions body context (tasks.map .task ++ [.leaveChunk]) state).entries =
      serialWarned fails raises tasks := by
  induction tasks generalizing state with
  | nil =>
      simp only [List.map_nil, List.nil_append, runActions, ParallelBody.act,
        hfails.leaveChunk context state, warned_cons, hwarns.leaveChunk]
      rfl
  | cons task rest ih =>
      have htask := hfails.task context task state
      simp only [List.map_cons, List.cons_append, runActions, ParallelBody.act, serialWarned]
      cases hfailure : fails task with
      | none =>
          rw [hfailure] at htask
          simp only [ending_eq_next_of_map htask, warned_cons, hwarns.task, ih]
      | some message =>
          rw [hfailure] at htask
          cases hending : (body.task context task state).ending with
          | throws error => simp [warned, hwarns.task]
          | next => simp [hending, Ending.map, taskEnding] at htask
          | stopsEarly => simp [hending, Ending.map, taskEnding] at htask

/-- What a chunk of such tasks leaves: its ending, and which actions it ran. -/
def TasksPost (body : ParallelBody Local Value Error) (fails : Nat → Option String)
    (tasks chunk number : Nat) (ending : Ending Error) (entries : List (Entry Value)) : Prop :=
  ending.map body.describeError =
      taskEnding (serialFailure fails (chunkRange tasks chunk number)) ∧
    entries.map Entry.action <+:
      chunkActions (chunkBegin chunk number) (chunkEnd tasks chunk number) ∧
    (ending = .next → entries.map Entry.action =
      chunkActions (chunkBegin chunk number) (chunkEnd tasks chunk number))

/-- What a chunk reports, by what its tasks do. -/
theorem tasksSpec (hfails : FailsAs body fails) (workers tasks chunk : Nat) :
    BodySpec body workers tasks chunk (fun _ _ _ => True) (TasksPost body fails tasks chunk) where
  setup index _ :=
    ⟨(hfails.setup _ _).1, (hfails.setup _ _).2.1, (hfails.setup _ _).2.2, trivial⟩
  chunk index _ finished number state _ _ _ _ := by
    have hactions := runActions_actions body (heldContext workers tasks chunk index number)
      (chunkActions (chunkBegin chunk number) (chunkEnd tasks chunk number)) state
    refine ⟨⟨?_, hactions.1, hactions.2⟩, trivial⟩
    simp only [chunkActions, List.cons_append, runActions, ParallelBody.act, hfails.enterChunk]
    exact runActions_tasks hfails _ (chunkRange tasks chunk number) _

/-- The same with the warnings its tasks raised. -/
theorem warnedTasksSpec (hfails : FailsAs body fails) (hwarns : WarnsAs body raises)
    (workers tasks chunk : Nat) :
    BodySpec body workers tasks chunk (fun _ _ _ => True) fun number ending entries =>
      ending.map body.describeError =
          taskEnding (serialFailure fails (chunkRange tasks chunk number)) ∧
        warned entries = serialWarned fails raises (chunkRange tasks chunk number) where
  setup index hindex := (tasksSpec hfails workers tasks chunk).setup index hindex
  chunk index hindex finished number state hnumber hlower _ _ := by
    obtain ⟨⟨hending, -⟩, -⟩ := (tasksSpec hfails workers tasks chunk).chunk index hindex []
      number state hnumber (by simp) (by simp) trivial
    refine ⟨⟨hending, ?_⟩, trivial⟩
    simp only [chunkActions, List.cons_append, runActions, ParallelBody.act, hfails.enterChunk,
      warned_cons, hwarns.enterChunk, Nat.zero_add]
    exact runActions_tasks_warned hfails hwarns _ (chunkRange tasks chunk number) _

theorem taskEnding_error (failure : Option String) : (taskEnding failure).error = failure := by
  cases failure <;> rfl

theorem taskEnding_eq_next {failure : Option String} :
    taskEnding failure = .next ↔ failure = none := by
  cases failure <;> simp [taskEnding]

theorem taskEnding_ne_stopsEarly (failure : Option String) :
    taskEnding failure ≠ .stopsEarly := by
  cases failure <;> simp [taskEnding]

theorem mem_chunkActions_task {begin endTask task : Nat} :
    Action.task task ∈ chunkActions begin endTask ↔ begin ≤ task ∧ task < endTask := by
  simp only [chunkActions, List.cons_append, List.mem_cons, reduceCtorEq, List.mem_append,
    List.mem_map, List.mem_range'_1, Action.task.injEq, exists_eq_right, List.not_mem_nil,
    or_false, false_or]
  omega

theorem count_chunkActions_task {begin endTask task : Nat} (hmem : begin ≤ task ∧ task < endTask) :
    (chunkActions begin endTask).count (.task task) = 1 := by
  have hinjective : Function.Injective Action.task := fun _ _ heq => Action.task.inj heq
  have hone : (List.range' begin (endTask - begin)).count task = 1 := by
    apply List.count_eq_one_of_mem List.nodup_range'
    rw [List.mem_range'_1]
    omega
  simp only [chunkActions, List.cons_append, List.count_cons, List.count_append,
    List.count_map_of_injective _ _ hinjective, hone]
  simp

/-- When every chunk ran through, each task ran once and nothing else did. -/
theorem count_task_of_completed {workers tasks chunk : Nat}
    {history : Nat → List Nat → Local → Prop} {ends : Nat → Ending String}
    {initial : Shared Value} {region : Region Local Value Error}
    (hdone : Completed body workers tasks chunk history (TasksPost body fails tasks chunk) ends
      initial region)
    (hall : ∀ number < chunkCount tasks chunk, ends number = .next) (task : Nat) :
    (region.trace.map Entry.action).count (.task task) = if task < tasks then 1 else 0 := by
  have hchunk := hdone.chunk_pos
  have hplace : ∀ entry ∈ region.trace, entry.action = .task task →
      task < tasks ∧ entry ∈ chunkTrace chunk region.trace (task / chunk) := by
    intro entry hentry haction
    rcases hdone.entry_cases hentry with
      ⟨-, hsetup, -⟩ | ⟨number, hnumber, hin, ending, -, hfront, -⟩
    · rw [haction] at hsetup
      exact absurd hsetup (by simp)
    · have hmem : Action.task task ∈
          chunkActions (chunkBegin chunk number) (chunkEnd tasks chunk number) :=
        hfront.subset (List.mem_map.mpr ⟨entry, hin, haction⟩)
      obtain ⟨hlt, rfl⟩ := (mem_chunk_iff hchunk).mp (mem_chunkActions_task.mp hmem)
      exact ⟨hlt, hin⟩
  split
  next hlt =>
    have hnumber : task / chunk < chunkCount tasks chunk :=
      (lt_chunkCount_iff hchunk).mpr ((Nat.div_mul_le_self task chunk).trans_lt hlt)
    obtain ⟨ending, hpost⟩ := hdone.post_of_below hnumber
      fun earlier hearlier => hall earlier (by omega)
    have hnext : ending = .next :=
      ending_eq_next_of_map ((hdone.ending _ _ _ hpost).trans (hall _ hnumber))
    have hinside := (mem_chunk_iff hchunk).mpr ⟨hlt, rfl⟩
    rw [← count_chunkActions_task hinside, ← hpost.2.2 hnext]
    simp only [List.count, List.countP_map, chunkTrace, List.countP_filter]
    apply List.countP_congr
    intro entry hentry
    have := hplace entry hentry
    simp only [Function.comp_apply, beq_iff_eq, Bool.and_eq_true, decide_eq_true_eq,
      iff_self_and]
    intro haction
    exact of_decide_eq_true (List.mem_filter.mp (this haction).2).2
  next hge =>
    rw [List.count_eq_zero]
    intro hmem
    obtain ⟨entry, hentry, haction⟩ := List.mem_map.mp hmem
    exact hge (hplace entry hentry haction).1

/-- The first chunk that fails has the failure of the serial run. -/
theorem serialFailure_chunks (fails : Nat → Option String) (tasks : Nat) {chunk : Nat}
    (hchunk : 1 ≤ chunk) :
    (List.range (chunkCount tasks chunk)).findSome?
        (fun number => (taskEnding (serialFailure fails (chunkRange tasks chunk number))).error) =
      serialFailure fails (List.range tasks) := by
  simp only [taskEnding_error]
  rw [← flatMap_chunkRange tasks hchunk, serialFailure_flatMap]
  rfl

end Tasks

/-! ## The driver's contract -/

/-- A region throws the message of its lowest failing task, whatever the
schedule; it returns when no task fails, and every task was then run once. A
schedule that gives each worker enough turns completes the region. -/
theorem runParallel_reports_lowest_failure (plan : ParallelPlan) (tasks : Nat)
    (body : ParallelBody Local Value Error) (fails : Nat → Option String)
    (hfails : FailsAs body fails) (result : Nat → Option Value) (schedule : List Nat) :
    ((∀ index < regionWorkers plan tasks, scheduleBound plan tasks < schedule.count index) →
      (runParallel plan tasks body result schedule).isSome = true) ∧
    ∀ regionEnd, runParallel plan tasks body result schedule = some regionEnd →
      regionEnd.outcome.message body.describeError = serialFailure fails (List.range tasks) ∧
      (regionEnd.outcome = .returned ↔ ∀ task < tasks, fails task = none) ∧
      (regionEnd.outcome = .returned → ∀ task,
        (regionEnd.final.trace.map Entry.action).count (.task task) =
          if task < tasks then 1 else 0) := by
  refine ⟨runRegion_isSome_of_fair plan tasks body result false schedule, ?_⟩
  intro regionEnd hrun
  obtain ⟨hdone, houtcome, -⟩ := completed_of_runRegion
    (tasksSpec hfails (regionWorkers plan tasks) tasks (regionChunk plan))
    (fun number ending entries hpost => hpost.1) hrun
  obtain ⟨hmessage, hreturned⟩ := hdone.conclude_message
    fun number _ => taskEnding_ne_stopsEarly _
  rw [serialFailure_chunks fails tasks hdone.chunk_pos] at hmessage
  have hiff : regionEnd.outcome = .returned ↔ ∀ task < tasks, fails task = none := by
    rw [houtcome]
    constructor
    · intro hback task htask
      rw [hback] at hmessage
      exact List.findSome?_eq_none_iff.mp hmessage.symm task (List.mem_range.mpr htask)
    · intro hnone
      rw [hreturned]
      intro number hnumber
      rw [taskEnding_eq_next, serialFailure, List.findSome?_eq_none_iff]
      intro task htask
      exact hnone task ((mem_chunkRange hdone.chunk_pos).mp htask).1
  refine ⟨by rw [houtcome, hmessage], hiff, fun hback task => ?_⟩
  exact count_task_of_completed hdone (hreturned.mp (houtcome ▸ hback)) task

/-- The body of a loop that does nothing but succeed, fail and warn. -/
def taskBody (fails : Nat → Option String) (raises : Nat → Nat) :
    ParallelBody Unit Unit String where
  initial _ := ()
  task _ index _ :=
    { ending := match fails index with
        | none => .next
        | some message => .throws message
      state := ()
      warned := raises index }
  describeError := id

theorem taskBody_failsAs (fails : Nat → Option String) (raises : Nat → Nat) :
    FailsAs (taskBody fails raises) fails where
  setup _ _ := ⟨rfl, rfl, rfl⟩
  enterChunk _ _ := rfl
  task _ index _ := by
    simp only [taskBody]
    cases fails index <;> rfl
  leaveChunk _ _ := rfl

theorem taskBody_warnsAs (fails : Nat → Option String) (raises : Nat → Nat) :
    WarnsAs (taskBody fails raises) raises where
  enterChunk _ _ := rfl
  task _ _ _ := rfl
  leaveChunk _ _ := rfl

/-- Two of five tasks fail, the first with `"second"`. -/
def sampleFails (task : Nat) : Option String :=
  if task = 1 then some "second" else if task = 3 then some "fourth" else none

/-- Three workers take turns, the last of them first. -/
def sampleSchedule : List Nat :=
  (List.range 93).map fun turn => (turn + 2) % 3

/-- Five tasks in chunks of two over three workers. -/
theorem runParallel_reports_second :
    ∃ regionEnd, runParallel ⟨3, 2⟩ 5 (taskBody sampleFails id) (fun _ => none) sampleSchedule =
        some regionEnd ∧ regionEnd.outcome.message id = some "second" := by
  obtain ⟨hfair, hreports⟩ := runParallel_reports_lowest_failure ⟨3, 2⟩ 5
    (taskBody sampleFails id) sampleFails (taskBody_failsAs sampleFails id) (fun _ => none)
    sampleSchedule
  obtain ⟨regionEnd, hrun⟩ := Option.isSome_iff_exists.mp (hfair (by decide))
  exact ⟨regionEnd, hrun, (hreports regionEnd hrun).1.trans (by decide)⟩

/-- After a region the counters report the warnings of the serial run up to and
including its first failing task. -/
theorem runParallelWithWarnings_counts_serial (plan : ParallelPlan) (tasks : Nat)
    (body : ParallelBody Local Value Error) (fails : Nat → Option String) (raises : Nat → Nat)
    (hfails : FailsAs body fails) (hwarns : WarnsAs body raises)
    (result : Nat → Option Value) (schedule : List Nat) :
    ((∀ index < regionWorkers plan tasks, scheduleBound plan tasks < schedule.count index) →
      (runParallelWithWarnings plan tasks body result schedule).isSome = true) ∧
    ∀ regionEnd, runParallelWithWarnings plan tasks body result schedule = some regionEnd →
      regionEnd.warnings.map SerialWarnings.count =
        some (serialWarned fails raises (List.range tasks)) := by
  refine ⟨runRegion_isSome_of_fair plan tasks body result true schedule, ?_⟩
  intro regionEnd hrun
  obtain ⟨hdone, -, hwarnings⟩ := completed_of_runRegion
    (warnedTasksSpec hfails hwarns (regionWorkers plan tasks) tasks (regionChunk plan))
    (fun number ending entries hpost => hpost.1) hrun
  rw [hwarnings, hdone.count_finalWarnings rfl (fun number _ => taskEnding_ne_stopsEarly _)
    (fun number ending entries hpost => hpost.2)]
  simp only [taskEnding_error]
  rw [← flatMap_chunkRange tasks hdone.chunk_pos, serialWarned_flatMap]

/-- Tasks `0` and `1` raise one and two warnings before the failure. -/
theorem runParallelWithWarnings_counts_three :
    ∃ regionEnd, runParallelWithWarnings ⟨3, 2⟩ 5 (taskBody sampleFails (· + 1))
        (fun _ => none) sampleSchedule = some regionEnd ∧
      regionEnd.warnings.map SerialWarnings.count = some 3 := by
  obtain ⟨hfair, hcounts⟩ := runParallelWithWarnings_counts_serial ⟨3, 2⟩ 5
    (taskBody sampleFails (· + 1)) sampleFails (· + 1) (taskBody_failsAs sampleFails _)
    (taskBody_warnsAs sampleFails _) (fun _ => none) sampleSchedule
  obtain ⟨regionEnd, hrun⟩ := Option.isSome_iff_exists.mp (hfair (by decide))
  exact ⟨regionEnd, hrun, (hcounts regionEnd hrun).trans (by decide)⟩

end Charr.Parallel
