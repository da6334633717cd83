import Charr.Parallel.Region

/-!
# Every fair schedule completes a region

Each effective step uses up weight: four for every task still in the queue, and
one for every action a worker has left. A worker scheduled more often than the
initial weight has therefore ended, so every schedule that keeps giving all
workers a turn completes the region.
-/

namespace Charr.Parallel

variable {Local Value Error : Type}

/-- The steps that a worker can still take. -/
def Phase.weight : Phase Error → Nat
  | .running rest => rest.length + 1
  | .returned => 0
  | .threw _ => 0

@[simp] theorem Phase.weight_running (rest : List Action) :
    (Phase.running rest : Phase Error).weight = rest.length + 1 := rfl

namespace Region

/-- The steps that the region can still take. -/
def weight (region : Region Local Value Error) : Nat :=
  4 * (region.queue.tasks - region.queue.next) +
    ∑ index ∈ Finset.range region.workers, (region.worker index).phase.weight

/-- Worker `index` takes no further step. -/
def Halted (index : Nat) (region : Region Local Value Error) : Prop :=
  index < region.workers → (region.worker index).phase.ended = true

/-- A chunk is entered, worked through and left. -/
theorem length_chunkActions (begin endTask : Nat) :
    (chunkActions begin endTask).length = (endTask - begin) + 2 := by
  simp [chunkActions]

/-- After an action the worker has fewer steps ahead. -/
theorem weight_afterAction_le (body : ParallelBody Local Value Error)
    (current : WorkerState Local Error) (rest : List Action)
    (result : ActionResult Local Value Error) :
    (afterAction body current rest result).phase.weight ≤ rest.length + 1 := by
  unfold afterAction
  cases result.ending <;> simp [Phase.weight]

/-- Replacing one worker changes the weight sum by that worker's share. -/
theorem sum_weight_update (workers : Nat) (worker : Nat → WorkerState Local Error)
    {index : Nat} (hindex : index < workers) (replacement : WorkerState Local Error) :
    (∑ other ∈ Finset.range workers,
        (Function.update worker index replacement other).phase.weight) +
        (worker index).phase.weight =
      (∑ other ∈ Finset.range workers, (worker other).phase.weight) +
        replacement.phase.weight := by
  have hmem : index ∈ Finset.range workers := Finset.mem_range.mpr hindex
  rw [← Finset.add_sum_erase _ _ hmem, ← Finset.add_sum_erase _ _ hmem, Function.update_self]
  have hrest : ∑ other ∈ (Finset.range workers).erase index,
      (Function.update worker index replacement other).phase.weight =
        ∑ other ∈ (Finset.range workers).erase index, (worker other).phase.weight := by
    apply Finset.sum_congr rfl
    intro other hother
    rw [Function.update_of_ne (Finset.ne_of_mem_erase hother)]
  rw [hrest]
  omega

/-- Claiming takes from the queue what it adds to the worker. -/
theorem weight_nextChunk_lt (region : Region Local Value Error) {index : Nat}
    (hindex : index < region.workers)
    (hphase : (region.worker index).phase = .running []) :
    (region.nextChunk index).weight < region.weight := by
  have hchunk := region.queue.chunk_pos
  have hsum := sum_weight_update region.workers region.worker hindex
    ((region.nextChunk index).worker index)
  have hupdate : Function.update region.worker index ((region.nextChunk index).worker index) =
      (region.nextChunk index).worker := by
    simp only [nextChunk, Function.update_self]
  rw [hupdate, hphase] at hsum
  by_cases hnext : region.queue.next ≥ region.queue.tasks
  · have hended : ((region.nextChunk index).worker index).phase.weight = 0 := by
      simp [nextChunk, ChunkQueue.claim, hnext, Phase.weight]
    have hqueue : (region.nextChunk index).queue.tasks - (region.nextChunk index).queue.next =
        0 := by
      simp only [nextChunk, ChunkQueue.claim, if_pos hnext]
      omega
    simp only [weight, hqueue]
    rw [hended] at hsum
    rw [Phase.weight_running, List.length_nil] at hsum
    change 4 * 0 + (∑ other ∈ Finset.range region.workers,
      ((region.nextChunk index).worker other).phase.weight) < _
    omega
  · have hlength : ((region.nextChunk index).worker index).phase.weight + 4 *
        ((region.nextChunk index).queue.tasks - (region.nextChunk index).queue.next) ≤
          4 * (region.queue.tasks - region.queue.next) := by
      simp only [nextChunk, ChunkQueue.claim, if_neg hnext, Function.update_self, Phase.weight,
        length_chunkActions]
      split <;> omega
    simp only [weight]
    rw [Phase.weight_running, List.length_nil] at hsum
    change 4 * _ + (∑ other ∈ Finset.range region.workers,
      ((region.nextChunk index).worker other).phase.weight) < _
    omega

/-- Performing an action is a step less for the region. -/
theorem weight_perform_lt (body : ParallelBody Local Value Error)
    (region : Region Local Value Error) {index : Nat} (hindex : index < region.workers)
    {action : Action} {rest : List Action}
    (hphase : (region.worker index).phase = .running (action :: rest)) :
    (region.perform body index action rest).weight < region.weight := by
  have hsum := sum_weight_update region.workers region.worker hindex
    (afterAction body (region.worker index) rest
      (body.act (region.worker index).context action (region.worker index).state))
  have hle := weight_afterAction_le body (region.worker index) rest
    (body.act (region.worker index).context action (region.worker index).state)
  rw [hphase] at hsum
  rw [Phase.weight_running, List.length_cons] at hsum
  simp only [weight, perform]
  omega

/-- A step does nothing to a worker that halted; otherwise it claims or performs. -/
theorem step_cases (body : ParallelBody Local Value Error) (index : Nat)
    (region : Region Local Value Error) :
    (Halted index region ∧ region.step body index = region) ∨
      (index < region.workers ∧
        (((region.worker index).phase = .running [] ∧
            region.step body index = region.nextChunk index) ∨
          ∃ action rest, (region.worker index).phase = .running (action :: rest) ∧
            region.step body index = region.perform body index action rest)) := by
  unfold step
  split
  next hindex =>
    split
    next hphase => exact Or.inr ⟨hindex, Or.inl ⟨hphase, rfl⟩⟩
    next action rest hphase => exact Or.inr ⟨hindex, Or.inr ⟨action, rest, hphase, rfl⟩⟩
    next hphase => exact Or.inl ⟨fun _ => by rw [hphase]; rfl, rfl⟩
    next error hphase => exact Or.inl ⟨fun _ => by rw [hphase]; rfl, rfl⟩
  next hindex => exact Or.inl ⟨fun h => absurd h hindex, rfl⟩

/-- A worker that halted stays so. -/
theorem halted_step (body : ParallelBody Local Value Error) (index other : Nat)
    (region : Region Local Value Error) (hhalted : Halted index region) :
    Halted index (region.step body other) := by
  rcases step_cases body other region with
    ⟨_, heq⟩ | ⟨hother, ⟨hphase, heq⟩ | ⟨action, rest, hphase, heq⟩⟩
  · rw [heq]
    exact hhalted
  · rw [heq]
    intro hindex
    have hne : index ≠ other := by
      rintro rfl
      have := hhalted hother
      simp [hphase, Phase.ended] at this
    simpa [nextChunk, Function.update_of_ne hne] using hhalted hindex
  · rw [heq]
    intro hindex
    have hne : index ≠ other := by
      rintro rfl
      have := hhalted hother
      simp [hphase, Phase.ended] at this
    simpa [perform, Function.update_of_ne hne] using hhalted hindex

/-- Every step of a worker that goes on makes the weight less. -/
theorem halting (body : ParallelBody Local Value Error) :
    Interleaving.Halting (step body) (fun _ => True) Halted weight where
  preserves _ _ _ := trivial
  stays := halted_step body
  bounded index region _ := by
    rcases step_cases body index region with
      ⟨_, heq⟩ | ⟨hindex, ⟨hphase, heq⟩ | ⟨action, rest, hphase, heq⟩⟩
    · rw [heq]
    · rw [heq]
      exact (region.weight_nextChunk_lt hindex hphase).le
    · rw [heq]
      exact (region.weight_perform_lt body hindex hphase).le
  descends index region _ hrunning := by
    rcases step_cases body index region with
      ⟨hhalted, _⟩ | ⟨hindex, ⟨hphase, heq⟩ | ⟨action, rest, hphase, heq⟩⟩
    · exact absurd hhalted hrunning
    · rw [heq]
      exact region.weight_nextChunk_lt hindex hphase
    · rw [heq]
      exact region.weight_perform_lt body hindex hphase

/-- A schedule does not change the number of workers. -/
theorem workers_run (body : ParallelBody Local Value Error) (schedule : List Nat)
    (region : Region Local Value Error) :
    (Interleaving.run (step body) schedule region).workers = region.workers := by
  have hstep : ∀ (index : Nat) (current : Region Local Value Error),
      current.workers = region.workers → (current.step body index).workers = region.workers := by
    intro index current hcurrent
    rw [← hcurrent]
    rcases step_cases body index current with
      ⟨_, heq⟩ | ⟨_, ⟨_, heq⟩ | ⟨_, _, _, heq⟩⟩ <;> rw [heq] <;> rfl
  exact Interleaving.run_invariant hstep schedule rfl

/-- A worker beyond those of the region never moves. -/
theorem worker_run_of_le (body : ParallelBody Local Value Error) (schedule : List Nat)
    (region : Region Local Value Error) {index : Nat} (hindex : region.workers ≤ index) :
    (Interleaving.run (step body) schedule region).worker index = region.worker index := by
  have hstep : ∀ (other : Nat) (current : Region Local Value Error),
      current.workers ≤ index ∧ current.worker index = region.worker index →
      (current.step body other).workers ≤ index ∧
        (current.step body other).worker index = region.worker index := by
    rintro other current ⟨hworkers, hworker⟩
    rcases step_cases body other current with
      ⟨-, heq⟩ | ⟨hother, ⟨-, heq⟩ | ⟨action, rest, -, heq⟩⟩
    · rw [heq]
      exact ⟨hworkers, hworker⟩
    · rw [heq]
      refine ⟨hworkers, ?_⟩
      rw [← hworker]
      exact Function.update_of_ne (by omega) _ _
    · rw [heq]
      refine ⟨hworkers, ?_⟩
      rw [← hworker]
      exact Function.update_of_ne (by omega) _ _
  exact (Interleaving.run_invariant hstep schedule ⟨hindex, rfl⟩).2

end Region

/-- A worker that was not started keeps its initial state. -/
theorem state_of_runRegion_of_le {plan : ParallelPlan} {tasks : Nat}
    {body : ParallelBody Local Value Error} {result : Nat → Option Value} {warnings : Bool}
    {schedule : List Nat} {regionEnd : RegionEnd Local Value Error}
    (hrun : runRegion plan tasks body result warnings schedule = some regionEnd) {index : Nat}
    (hindex : regionWorkers plan tasks ≤ index) :
    (regionEnd.final.worker index).state = body.initial index := by
  simp only [runRegion, Option.ite_none_right_eq_some, Option.some.injEq] at hrun
  obtain ⟨-, rfl⟩ := hrun
  rw [Region.worker_run_of_le body schedule _ hindex]
  rfl

/-- How often a schedule must give each worker a turn. -/
def scheduleBound (plan : ParallelPlan) (tasks : Nat) : Nat :=
  4 * tasks + 2 * regionWorkers plan tasks

/-- A schedule that gives every worker enough turns completes the region. -/
theorem runRegion_isSome_of_fair (plan : ParallelPlan) (tasks : Nat)
    (body : ParallelBody Local Value Error) (result : Nat → Option Value) (warnings : Bool)
    (schedule : List Nat)
    (hfair : ∀ index < regionWorkers plan tasks,
      scheduleBound plan tasks < schedule.count index) :
    (runRegion plan tasks body result warnings schedule).isSome = true := by
  have hweight : (Region.start body (regionWorkers plan tasks) tasks (regionChunk plan)
      result warnings).weight = scheduleBound plan tasks := by
    simp [Region.weight, Region.start, ChunkQueue.create, Phase.weight, scheduleBound,
      Nat.mul_comm]
  have hcomplete : (Interleaving.run (Region.step body) schedule
      (Region.start body (regionWorkers plan tasks) tasks (regionChunk plan)
        result warnings)).complete = true := by
    rw [Region.complete, List.all_eq_true]
    intro index hindex
    rw [List.mem_range] at hindex
    refine (Region.halting body).halted_of_count index schedule trivial ?_ hindex
    rw [Region.workers_run] at hindex
    rw [hweight]
    exact hfair index hindex
  simp only [runRegion, hcomplete, if_true, Option.isSome_some]

end Charr.Parallel
