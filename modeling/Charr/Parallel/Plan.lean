import Mathlib.Data.List.Range
import Mathlib.Data.Nat.Basic

/-!
# Planning a data-parallel region

The worker count and the chunk size of a region, decided once from the three
settings before any worker starts, and the shared cursor the workers draw their
chunks from. Task counts and positions are natural numbers: every caller passes
a vector length.
-/

namespace Charr.Parallel

/-- The most workers a region may have. -/
def workerMaximum : Nat := 256

/-- The live settings: written by the three accessors, read by `parallelPlan`. -/
structure Settings where
  threads : Nat := 1
  chunksPerWorker : Nat := 128
  minimumChunk : Nat := 256
  deriving DecidableEq, Repr

/-- How a range of tasks is cut, and for how many workers. -/
structure ParallelPlan where
  workers : Nat
  /-- Tasks in a chunk. -/
  chunk : Nat
  deriving DecidableEq, Repr

/-- How many chunks of `chunk` tasks the range is cut into. -/
def chunkCount (tasks chunk : Nat) : Nat :=
  tasks / chunk + if tasks % chunk ≠ 0 then 1 else 0

/-- The tasks in a chunk: the range cut into `perWorker` chunks for each worker, but not finer than
`floorTasks`. -/
def chunkTasks (tasks workers perWorker floorTasks : Nat) : Nat :=
  let targets := workers * perWorker
  let even := chunkCount tasks targets
  let chunk := if even > floorTasks then even else floorTasks
  -- The floor may coarsen the cut but not below one chunk for each worker.
  let widest := chunkCount tasks workers
  let chunk := if chunk > widest then widest else chunk
  if chunk < 1 then 1 else chunk

/-- The workers that are used of those asked for. -/
def clampWorkers (tasks requested : Nat) : Nat :=
  if requested < 2 ∨ tasks < 2 then 1
  else
    let limit := tasks
    let limit := if limit > requested then requested else limit
    let limit := if limit > workerMaximum then workerMaximum else limit
    if limit < 2 then 1 else limit

/-- The plan of a call under the settings. -/
def parallelPlan (settings : Settings) (eligible : Bool) (tasks : Nat) : ParallelPlan :=
  -- A serial plan is one chunk that covers everything.
  let serial : ParallelPlan := ⟨1, if tasks > 0 then tasks else 1⟩
  if !eligible then serial
  else
    let workers := clampWorkers tasks settings.threads
    if workers < 2 then { serial with workers := workers }
    else
      let chunk := chunkTasks tasks workers settings.chunksPerWorker settings.minimumChunk
      let chunks := chunkCount tasks chunk
      ⟨if chunks < workers then chunks else workers, chunk⟩

/-- The shared cursor. It only grows, by one chunk for each claim, so it keeps
growing past the end while drained workers ask once more. -/
structure ChunkQueue where
  next : Nat
  tasks : Nat
  chunk : Nat
  chunk_pos : 1 ≤ chunk

namespace ChunkQueue

/-- A queue at its start. -/
def create (tasks chunk : Nat) : ChunkQueue where
  next := 0
  tasks := tasks
  chunk := if chunk < 1 then 1 else chunk
  chunk_pos := by split <;> omega

/-- The atomic `fetch_add`, with the chunk it won or nothing past the end. -/
def claim (queue : ChunkQueue) : Option (Nat × Nat) × ChunkQueue :=
  let first := queue.next
  let queue' := { queue with next := queue.next + queue.chunk }
  if first ≥ queue.tasks then (none, queue')
  else
    (some (first,
      if queue.tasks - first < queue.chunk then queue.tasks else first + queue.chunk), queue')

/-- Every task is claimed. -/
def drained (queue : ChunkQueue) : Bool :=
  queue.next ≥ queue.tasks

end ChunkQueue

/-- The first task of chunk `index`. -/
def chunkBegin (chunk index : Nat) : Nat := index * chunk

/-- One past the last task of chunk `index`. -/
def chunkEnd (tasks chunk index : Nat) : Nat :=
  if tasks - index * chunk < chunk then tasks else index * chunk + chunk

/-- A number is no chunk if it would begin behind the range. -/
theorem chunkCount_le_iff {tasks chunk index : Nat} (hchunk : 1 ≤ chunk) :
    chunkCount tasks chunk ≤ index ↔ tasks ≤ index * chunk := by
  unfold chunkCount
  have hdiv := Nat.div_add_mod tasks chunk
  have hmod := Nat.mod_lt tasks hchunk
  constructor
  · intro hle
    split at hle
    · have hmul : (tasks / chunk + 1) * chunk ≤ index * chunk := Nat.mul_le_mul_right _ hle
      rw [Nat.add_mul, Nat.mul_comm (tasks / chunk)] at hmul
      omega
    · have hmul : tasks / chunk * chunk ≤ index * chunk := Nat.mul_le_mul_right _ hle
      rw [Nat.mul_comm (tasks / chunk)] at hmul
      omega
  · intro hle
    have hquot : tasks / chunk ≤ index := Nat.div_le_of_le_mul (by rwa [Nat.mul_comm])
    split
    next hrest =>
      by_contra hlt
      have heq : tasks / chunk = index := by omega
      rw [heq, Nat.mul_comm] at hdiv
      omega
    next => simpa using hquot

/-- A chunk begins inside the range. -/
theorem lt_chunkCount_iff {tasks chunk index : Nat} (hchunk : 1 ≤ chunk) :
    index < chunkCount tasks chunk ↔ index * chunk < tasks := by
  rw [← not_le, chunkCount_le_iff hchunk, not_le]

/-- A chunk has a task. -/
theorem chunkBegin_lt_chunkEnd {tasks chunk index : Nat} (hchunk : 1 ≤ chunk)
    (hindex : index * chunk < tasks) :
    index * chunk < chunkEnd tasks chunk index := by
  unfold chunkEnd
  split <;> omega

theorem chunkEnd_le_tasks {tasks chunk index : Nat} (hindex : index * chunk < tasks) :
    chunkEnd tasks chunk index ≤ tasks := by
  unfold chunkEnd
  split <;> omega

/-- The tasks of a chunk are those whose quotient is its index. -/
theorem mem_chunk_iff {tasks chunk index task : Nat} (hchunk : 1 ≤ chunk) :
    (chunkBegin chunk index ≤ task ∧ task < chunkEnd tasks chunk index) ↔
      task < tasks ∧ task / chunk = index := by
  unfold chunkBegin chunkEnd
  have hdiv : task / chunk = index ↔ index * chunk ≤ task ∧ task < (index + 1) * chunk := by
    rw [Nat.div_eq_iff (by omega : 0 < chunk)]
    constructor
    · rintro ⟨hlow, hhigh⟩
      rw [Nat.add_mul]
      constructor <;> omega
    · rintro ⟨hlow, hhigh⟩
      rw [Nat.add_mul] at hhigh
      constructor <;> omega
  rw [hdiv, Nat.add_mul]
  split <;> constructor <;> rintro ⟨hleft, hright⟩ <;> refine ⟨?_, ?_⟩ <;> omega

/-- The tasks of chunk `index`, in the order its holder runs them. -/
def chunkRange (tasks chunk index : Nat) : List Nat :=
  List.range' (chunkBegin chunk index) (chunkEnd tasks chunk index - chunkBegin chunk index)

/-- A task belongs to the chunk that its quotient names. -/
theorem mem_chunkRange {tasks chunk index task : Nat} (hchunk : 1 ≤ chunk) :
    task ∈ chunkRange tasks chunk index ↔ task < tasks ∧ task / chunk = index := by
  rw [chunkRange, List.mem_range'_1, ← mem_chunk_iff hchunk]
  omega

/-- The first chunks together are the tasks up to their common end. -/
theorem flatMap_chunkRange_take {tasks chunk : Nat} (hchunk : 1 ≤ chunk) {count : Nat}
    (hcount : count ≤ chunkCount tasks chunk) :
    (List.range count).flatMap (chunkRange tasks chunk) =
      List.range (min (count * chunk) tasks) := by
  induction count with
  | zero => simp
  | succ count ih =>
      have hlt : count * chunk < tasks := (lt_chunkCount_iff hchunk).mp hcount
      have hend : chunkEnd tasks chunk count = min ((count + 1) * chunk) tasks := by
        rw [chunkEnd, Nat.add_mul]
        split <;> omega
      rw [List.range_succ, List.flatMap_append, ih (by omega), List.flatMap_singleton,
        Nat.min_eq_left hlt.le, chunkRange, chunkBegin, hend]
      have hjoin := List.range'_append_1 (s := 0) (m := count * chunk)
        (n := min ((count + 1) * chunk) tasks - count * chunk)
      rw [Nat.zero_add] at hjoin
      rw [List.range_eq_range', hjoin, List.range_eq_range']
      congr 1
      rw [Nat.add_mul]
      omega

/-- The chunks cut the whole range. -/
theorem flatMap_chunkRange (tasks : Nat) {chunk : Nat} (hchunk : 1 ≤ chunk) :
    (List.range (chunkCount tasks chunk)).flatMap (chunkRange tasks chunk) =
      List.range tasks := by
  have hcover : tasks ≤ chunkCount tasks chunk * chunk :=
    (chunkCount_le_iff hchunk).mp le_rfl
  rw [flatMap_chunkRange_take hchunk le_rfl, Nat.min_eq_right hcover]

/-- Chunks in order have their tasks in order. -/
theorem flatMap_chunkRange_sorted {tasks chunk : Nat} (hchunk : 1 ≤ chunk) {numbers : List Nat}
    (hsorted : numbers.Pairwise (· < ·)) :
    (numbers.flatMap (chunkRange tasks chunk)).Pairwise (· < ·) := by
  rw [List.pairwise_flatMap]
  constructor
  · intro number _
    exact List.pairwise_lt_range'
  · apply hsorted.imp
    intro number later hlt task htask other hother
    obtain ⟨-, rfl⟩ := (mem_chunkRange hchunk).mp htask
    obtain ⟨-, rfl⟩ := (mem_chunkRange hchunk).mp hother
    exact Nat.lt_of_div_lt_div hlt

end Charr.Parallel
