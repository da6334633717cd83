import Charr.Library.Interleaving
import Charr.Parallel.Plan
import Mathlib.Algebra.BigOperators.Group.Finset.Basic
import Mathlib.Algebra.GroupWithZero.Nat
import Mathlib.Logic.Function.Basic

/-!
# The parallel region driver

One body serves every worker. A worker runs the body's set-up, then draws
chunks from the shared queue until it is drained, until an action throws, or
until the body stops early. The driver joins the workers, reports the failure
of the lowest chunk, and checks that nothing was left undone.

Workers share only the queue, the output memory and the warning counters, so
one scheduling step is one claim or one action of one worker. A worker whose
thread could not be started runs inline on the main thread after the main
thread's own share: that is one of the schedules.
-/

namespace Charr.Parallel

/-- What a worker is told about the chunk it holds. -/
structure WorkerContext where
  worker : Nat
  workers : Nat
  /-- The chunk the worker holds, `[begin, endTask)`. -/
  begin : Nat
  endTask : Nat
  holding : Bool
  deriving DecidableEq, Repr

/-- The first task of the chunk the worker holds, or `-1` before its first claim. -/
def WorkerContext.serialPosition (context : WorkerContext) : Int :=
  if context.holding then context.begin else -1

/-- A worker's outcome, as the driver reads it after the join. -/
structure WorkerReport where
  failed : Bool := false
  stoppedEarly : Bool := false
  failedAt : Int := 0
  message : String := ""
  deriving DecidableEq, Repr

/-- Warnings counted against the chunk their worker held, or against the worker
while it was still setting up. -/
structure SerialWarnings where
  setup : List Nat
  chunks : List Nat
  chunk : Nat
  counted : Nat
  deriving DecidableEq, Repr

namespace SerialWarnings

/-- No warnings, and all chunks count. -/
def reset (workers tasks chunk : Nat) : SerialWarnings where
  setup := List.replicate workers 0
  chunks := List.replicate (if tasks ≤ 0 then 0 else chunkCount tasks chunk) 0
  chunk := chunk
  counted := if tasks ≤ 0 then 0 else chunkCount tasks chunk

/-- Behind a failure at `position`, chunks no longer count. -/
def failAt (warnings : SerialWarnings) (position : Int) : SerialWarnings :=
  { warnings with
    counted := if position < 0 then 0 else position.toNat / warnings.chunk + 1 }

/-- Warnings count for the chunk they were given in, or for the setup. -/
def add (warnings : SerialWarnings) (context : WorkerContext) (number : Nat) :
    SerialWarnings :=
  let position := context.serialPosition
  if position < 0 then
    { warnings with setup := warnings.setup.modify context.worker (· + number) }
  else
    { warnings with
      chunks := warnings.chunks.modify (position.toNat / warnings.chunk) (· + number) }

/-- The warnings a serial run would have given. -/
def count (warnings : SerialWarnings) : Nat :=
  warnings.setup.sum + (warnings.chunks.take warnings.counted).sum

end SerialWarnings

/-- What a body does on one worker: its set-up, then for each chunk an entry,
the loop over the tasks, and an exit. -/
inductive Action where
  | setup
  | enterChunk
  | task (index : Nat)
  | leaveChunk
  deriving DecidableEq, Repr

/-- How an action ends: the worker goes on, an exception leaves `run`, or the
body calls `stop_early` and returns. -/
inductive Ending (Error : Type) where
  | next
  | throws (error : Error)
  | stopsEarly
  deriving DecidableEq, Repr

/-- The same ending, with its error described. -/
def Ending.map {Error Message : Type} (describe : Error → Message) :
    Ending Error → Ending Message
  | .next => .next
  | .throws error => .throws (describe error)
  | .stopsEarly => .stopsEarly

/-- The error an ending carries. -/
def Ending.error {Error : Type} : Ending Error → Option Error
  | .throws error => some error
  | .next => none
  | .stopsEarly => none

/-- An action's effect: the worker's own state, the output slots it writes and
the warnings it counts at its serial position. -/
structure ActionResult (Local Value Error : Type) where
  ending : Ending Error
  state : Local
  writes : List (Nat × Value) := []
  warned : Nat := 0

/-- An action that only goes on. -/
def ActionResult.pass {Local Value Error : Type} (state : Local) :
    ActionResult Local Value Error where
  ending := .next
  state := state

/-- The kernel of a data-parallel operation. `Local` is the state one worker
owns: the locals of `run` and its own slots of the entry point's vectors. -/
structure ParallelBody (Local Value Error : Type) where
  initial : Nat → Local
  setup : WorkerContext → Local → ActionResult Local Value Error := fun _ => .pass
  enterChunk : WorkerContext → Local → ActionResult Local Value Error := fun _ => .pass
  task : WorkerContext → Nat → Local → ActionResult Local Value Error
  leaveChunk : WorkerContext → Local → ActionResult Local Value Error := fun _ => .pass
  /-- The text `describe_error` leaves in the report's buffer for an exception. -/
  describeError : Error → String

variable {Local Value Error : Type}

/-- One action of a worker. -/
def ParallelBody.act (body : ParallelBody Local Value Error) (context : WorkerContext) :
    Action → Local → ActionResult Local Value Error
  | .setup => body.setup context
  | .enterChunk => body.enterChunk context
  | .task index => body.task context index
  | .leaveChunk => body.leaveChunk context

/-- The actions one chunk consists of, in the order of the body's loop. -/
def chunkActions (begin endTask : Nat) : List Action :=
  .enterChunk :: (List.range' begin (endTask - begin)).map .task ++ [.leaveChunk]

/-- Where a worker is: the actions left before its next claim, or the way its
`run` ended. -/
inductive Phase (Error : Type) where
  | running (rest : List Action)
  | returned
  | threw (error : Error)
  deriving DecidableEq, Repr

/-- Whether the worker has come to its end. -/
def Phase.ended : Phase Error → Bool
  | .running _ => false
  | .returned => true
  | .threw _ => true

/-- A worker of the region. -/
structure WorkerState (Local Error : Type) where
  phase : Phase Error
  context : WorkerContext
  report : WorkerReport
  state : Local

/-- What the workers write in common: the output slots, and the counters when
the region has any. -/
structure Shared (Value : Type) where
  result : Nat → Option Value
  warnings : Option SerialWarnings

/-- One executed action, as the region's history keeps it. -/
structure Entry (Value : Type) where
  context : WorkerContext
  action : Action
  writes : List (Nat × Value)
  warned : Nat

/-- Where a serial run would be at the entry. -/
def Entry.position (entry : Entry Value) : Int :=
  entry.context.serialPosition

/-- Write a value to its place. -/
def store (memory : Nat → Option Value) (write : Nat × Value) : Nat → Option Value :=
  Function.update memory write.1 (some write.2)

/-- What an entry does to the memory the workers share. -/
def Shared.record (shared : Shared Value) (entry : Entry Value) : Shared Value where
  result := entry.writes.foldl store shared.result
  warnings := shared.warnings.map (·.add entry.context entry.warned)

/-- A region in progress. `claims` and `trace` are history: who won each
`fetch_add`, and the actions executed so far. -/
structure Region (Local Value Error : Type) where
  queue : ChunkQueue
  workers : Nat
  worker : Nat → WorkerState Local Error
  shared : Shared Value
  claims : List Nat
  trace : List (Entry Value)

namespace Region

/-- `next_chunk`: claim a chunk, or end once the queue is drained. -/
def nextChunk (region : Region Local Value Error) (index : Nat) : Region Local Value Error :=
  let current := region.worker index
  let worker := match region.queue.claim.1 with
    | none => { current with phase := .returned }
    | some (begin, endTask) =>
        { current with
          phase := .running (chunkActions begin endTask)
          context := { current.context with begin, endTask, holding := true } }
  { region with
    queue := region.queue.claim.2
    worker := Function.update region.worker index worker
    claims := region.claims ++ [index] }

/-- The state of a worker after its action gave `result`. A throw is caught by
`run_guarded`, which records it at the worker's serial position. -/
def afterAction (body : ParallelBody Local Value Error) (current : WorkerState Local Error)
    (rest : List Action) (result : ActionResult Local Value Error) :
    WorkerState Local Error :=
  match result.ending with
  | .next => { current with phase := .running rest, state := result.state }
  | .throws error =>
      { current with
        phase := .threw error
        state := result.state
        report := { current.report with
          failed := true
          failedAt := current.context.serialPosition
          message := body.describeError error } }
  | .stopsEarly =>
      { current with
        phase := .returned
        state := result.state
        report := { current.report with stoppedEarly := true } }

/-- Run the next action of the chunk the worker holds. -/
def perform (body : ParallelBody Local Value Error) (region : Region Local Value Error)
    (index : Nat) (action : Action) (rest : List Action) : Region Local Value Error :=
  let current := region.worker index
  let result := body.act current.context action current.state
  let entry : Entry Value := ⟨current.context, action, result.writes, result.warned⟩
  { region with
    worker := Function.update region.worker index (afterAction body current rest result)
    shared := region.shared.record entry
    trace := region.trace ++ [entry] }

/-- One scheduling step of worker `index`. -/
def step (body : ParallelBody Local Value Error) (index : Nat)
    (region : Region Local Value Error) : Region Local Value Error :=
  if index < region.workers then
    match (region.worker index).phase with
    | .running [] => region.nextChunk index
    | .running (action :: rest) => region.perform body index action rest
    | .returned => region
    | .threw _ => region
  else region

/-- The region before its first step. -/
def start (body : ParallelBody Local Value Error) (workers tasks chunk : Nat)
    (result : Nat → Option Value) (warnings : Bool) : Region Local Value Error where
  queue := ChunkQueue.create tasks chunk
  workers := workers
  worker index :=
    { phase := .running [.setup]
      context := ⟨index, workers, 0, 0, false⟩
      report := {}
      state := body.initial index }
  shared := ⟨result, if warnings then some (.reset workers tasks chunk) else none⟩
  claims := []
  trace := []

/-- Every worker has been joined. -/
def complete (region : Region Local Value Error) : Bool :=
  (List.range region.workers).all fun index => (region.worker index).phase.ended

/-- The failure scan: keep the earlier report unless this one failed lower. -/
def lowerFailure (first : Option WorkerReport) (report : WorkerReport) : Option WorkerReport :=
  match first with
  | none => if report.failed then some report else none
  | some chosen =>
      if report.failed ∧ report.failedAt < chosen.failedAt then some report else some chosen

/-- The failure at the lowest position. -/
def firstFailure (region : Region Local Value Error) : Option WorkerReport :=
  (List.range region.workers).foldl
    (fun first index => lowerFailure first (region.worker index).report) none

/-- Whether a worker left chunks behind. -/
def stoppedEarly (region : Region Local Value Error) : Bool :=
  (List.range region.workers).any fun index => (region.worker index).report.stoppedEarly

end Region

/-- How the driver call ends. A serial plan lets the body's own exception
propagate; a threaded plan raises a new one that carries its message. -/
inductive Outcome (Error : Type) where
  | returned
  | propagated (error : Error)
  | runtimeError (message : String)
  | logicError (message : String)
  deriving DecidableEq, Repr

/-- The text of the exception that leaves the driver, if any. -/
def Outcome.message (describeError : Error → String) : Outcome Error → Option String
  | .returned => none
  | .propagated error => some (describeError error)
  | .runtimeError message => some message
  | .logicError message => some message

/-- The message for chunks that were left behind. -/
def undrainedMessage : String :=
  "parallel body returned before its chunks were drained"

/-- The part of `run_region` after the join. -/
def Region.conclude (region : Region Local Value Error) : Outcome Error :=
  if region.workers < 2 then
    match (region.worker 0).phase with
    | .threw error => .propagated error
    | _ => .returned
  else
    match region.firstFailure with
    | some report => .runtimeError report.message
    | none =>
        if !region.stoppedEarly && !region.queue.drained then .logicError undrainedMessage
        else .returned

/-- The counters after the region: a threaded failure cuts them at its chunk. -/
def Region.finalWarnings (region : Region Local Value Error) : Option SerialWarnings :=
  if region.workers < 2 then region.shared.warnings
  else
    match region.firstFailure with
    | some report => region.shared.warnings.map (·.failAt report.failedAt)
    | none => region.shared.warnings

/-- How a region ends, and what it leaves. -/
structure RegionEnd (Local Value Error : Type) where
  outcome : Outcome Error
  final : Region Local Value Error
  warnings : Option SerialWarnings

/-- The worker count `run_region` uses. -/
def regionWorkers (plan : ParallelPlan) (tasks : Nat) : Nat :=
  if plan.workers < 2 ∨ tasks < 2 then 1 else plan.workers

/-- The chunk size `run_region` uses. -/
def regionChunk (plan : ParallelPlan) : Nat :=
  if plan.chunk < 1 then 1 else plan.chunk

/-- `run_region` under a schedule: nothing while some worker is still running. -/
def runRegion (plan : ParallelPlan) (tasks : Nat) (body : ParallelBody Local Value Error)
    (result : Nat → Option Value) (warnings : Bool) (schedule : List Nat) :
    Option (RegionEnd Local Value Error) :=
  let final := Interleaving.run (Region.step body) schedule
    (Region.start body (regionWorkers plan tasks) tasks (regionChunk plan) result warnings)
  if final.complete then some ⟨final.conclude, final, final.finalWarnings⟩ else none

/-- A region that does not count warnings. -/
def runParallel (plan : ParallelPlan) (tasks : Nat) (body : ParallelBody Local Value Error)
    (result : Nat → Option Value) (schedule : List Nat) :
    Option (RegionEnd Local Value Error) :=
  runRegion plan tasks body result false schedule

/-- A region that counts warnings as a serial run would. -/
def runParallelWithWarnings (plan : ParallelPlan) (tasks : Nat)
    (body : ParallelBody Local Value Error) (result : Nat → Option Value)
    (schedule : List Nat) : Option (RegionEnd Local Value Error) :=
  runRegion plan tasks body result true schedule

end Charr.Parallel
