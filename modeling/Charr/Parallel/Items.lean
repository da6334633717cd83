import Charr.Parallel.Tasks

/-!
# Operations with one value for each task

Many operations compute one value for each index, on the workers of the plan or, when the
plan has one worker, in a loop. What a worker remembers from task to task must not show in
the values.
-/

namespace Charr.Parallel

variable {Local Value Error : Type}

/-- The region of the plan, or the loop. -/
def runItems (settings : Settings) (tasks : Nat) (body : ParallelBody Local Value Error)
    (serial : Except Error (List Value)) (schedule : List Nat) :
    Option (Except String (List (Option Value))) :=
  let plan := parallelPlan settings true tasks
  if plan.workers > 1 then do
    let regionEnd ← runParallel plan tasks body (fun _ => none) schedule
    return regionResult body.describeError tasks regionEnd
  else some (loopResult body.describeError serial)

/-- The schedule gives every worker of the plan enough turns. -/
def FairFor (settings : Settings) (tasks : Nat) (schedule : List Nat) : Prop :=
  ∀ index < (parallelPlan settings true tasks).workers,
    scheduleBound (parallelPlan settings true tasks) tasks < schedule.count index

instance (settings : Settings) (tasks : Nat) (schedule : List Nat) :
    Decidable (FairFor settings tasks schedule) :=
  inferInstanceAs (Decidable (∀ index < (parallelPlan settings true tasks).workers, _))

variable {settings : Settings} {tasks : Nat} {body : ParallelBody Local Value Error}
  {serial : Except Error (List Value)}

/-- A fair schedule lets the region end. -/
theorem exists_runParallel_of_fair {schedule : List Nat}
    (hfair : FairFor settings tasks schedule) (memory : Nat → Option Value) :
    ∃ regionEnd,
      runParallel (parallelPlan settings true tasks) tasks body memory schedule =
        some regionEnd := by
  unfold FairFor at hfair
  rw [← regionWorkers_parallelPlan] at hfair
  exact Option.isSome_iff_exists.mp
    (runRegion_isSome_of_fair _ tasks body memory false schedule hfair)

/-- Every fair schedule ends. -/
theorem runItems_isSome {schedule : List Nat} (hfair : FairFor settings tasks schedule) :
    (runItems settings tasks body serial schedule).isSome = true := by
  unfold runItems
  dsimp only
  split
  next =>
    obtain ⟨regionEnd, hrun⟩ := exists_runParallel_of_fair hfair (fun _ => none)
    rw [hrun]
    rfl
  next => rfl

/-- Every schedule that ends gives what the loop gives, however many workers there are. -/
theorem runItems_eq {invariant : Nat → List Nat → Local → Prop}
    {compute : Nat → Except Error Value}
    (hspec : TaskSpec body invariant
      (fun task => taskEnding ((itemFailure compute task).map body.describeError))
      (itemWrites compute) tasks)
    (hserial : serial = (List.range tasks).mapM compute) {schedule : List Nat}
    {outcome : Except String (List (Option Value))}
    (houtcome : runItems settings tasks body serial schedule = some outcome) :
    outcome = loopResult body.describeError ((List.range tasks).mapM compute) := by
  unfold runItems at houtcome
  dsimp only at houtcome
  split at houtcome
  next =>
    obtain ⟨regionEnd, hrun, hreturn⟩ := Option.bind_eq_some_iff.mp houtcome
    rw [← Option.some.inj hreturn]
    exact hspec.regionResult_eq hrun
  next =>
    rw [← Option.some.inj houtcome, hserial]

/-! ## Tasks that compute several values each -/

/-- Tasks that write the values of the indices in their group leave the value of every index
in a group, whichever of them wrote it. -/
theorem groups_result {invariant : Nat → List Nat → Local → Prop} {group : Nat → List Nat}
    {value : Nat → Value}
    (hspec : TaskSpec body invariant (fun _ => .next)
      (fun task => (group task).map fun index => (index, value index)) tasks)
    {plan : ParallelPlan} {memory : Nat → Option Value} {schedule : List Nat}
    {regionEnd : RegionEnd Local Value Error}
    (hrun : runParallel plan tasks body memory schedule = some regionEnd) :
    regionEnd.outcome = .returned ∧
      ∀ task < tasks, ∀ index ∈ group task,
        regionEnd.final.shared.result index = some (value index) := by
  have hend := loopEnd_of_runRegion hspec hrun
  refine ⟨hend.returned fun _ _ _ => by simp, ?_⟩
  intro task htask index hindex
  apply hend.result_eq_some htask (fun _ _ => rfl) (List.mem_map_of_mem hindex)
  intro other _ write hwrite hslot
  obtain ⟨written, -, rfl⟩ := List.mem_map.mp hwrite
  exact congrArg value hslot

end Charr.Parallel
