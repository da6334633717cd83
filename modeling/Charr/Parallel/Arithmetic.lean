import Charr.Library.MachineInt
import Charr.Parallel.Outcome
import Mathlib.Tactic.NormNum

/-!
# The plan and the queue in machine integers

The planning functions and the shared cursor once more, with every operation checked
against the 64 bits of `R_xlen_t` and every conversion against its target. Within the
limits of the settings and of the length of a vector no check fails, and the results are
those of the functions on natural numbers. The floor of a chunk may still leave a worker
without one.
-/

namespace Charr.Parallel

open MachineInt

/-- `static_cast<R_xlen_t>(count_maximum)`: what a setting and a length stay below. -/
def countMaximum : Nat := 2 ^ 52

/-- The settings as the accessors leave them. -/
structure Settings.Stored (settings : Settings) : Prop where
  one_le_threads : 1 ≤ settings.threads
  threads_le : settings.threads ≤ workerMaximum
  one_le_perWorker : 1 ≤ settings.chunksPerWorker
  perWorker_le : settings.chunksPerWorker ≤ countMaximum
  one_le_minimum : 1 ≤ settings.minimumChunk
  minimum_le : settings.minimumChunk ≤ countMaximum

/-! ## The functions -/

namespace Machine

/-- The quotient rounded up, as both cuts compute it. -/
def chunkCount (tasks chunk : Int) : Option Int := do
  let quotient ← div 64 tasks chunk
  let rest ← rem 64 tasks chunk
  add 64 quotient (if rest ≠ 0 then 1 else 0)

/-- `chunk_tasks` -/
def chunkTasks (tasks workers perWorker floorTasks : Int) : Option Int := do
  let targets ← mul 64 workers perWorker
  let even ← chunkCount tasks targets
  let chunk := if even > floorTasks then even else floorTasks
  let widest ← chunkCount tasks workers
  let chunk := if chunk > widest then widest else chunk
  return if chunk < 1 then 1 else chunk

/-- `clamp_workers` -/
def clampWorkers (tasks requested : Int) : Option Int :=
  if requested < 2 ∨ tasks < 2 then some 1
  else
    let limit := tasks
    let limit := if limit > requested then requested else limit
    let limit := if limit > workerMaximum then (workerMaximum : Int) else limit
    if limit < 2 then some 1 else unsigned 32 limit

/-- The plan as the source stores it. -/
structure Plan where
  workers : Int
  chunk : Int
  deriving DecidableEq, Repr

/-- `parallel_plan` -/
def parallelPlan (settings : Settings) (eligible : Bool) (tasks : Int) : Option Plan :=
  let serial : Plan := ⟨1, if tasks > 0 then tasks else 1⟩
  if !eligible then some serial
  else do
    let workers ← clampWorkers tasks settings.threads
    if workers < 2 then return { serial with workers := workers }
    else
      let chunk ← chunkTasks tasks workers settings.chunksPerWorker settings.minimumChunk
      let chunks ← chunkCount tasks chunk
      let workers ← if chunks < workers then unsigned 32 chunks else some workers
      return ⟨workers, chunk⟩

/-- The queue that workers claim chunks from. -/
structure ChunkQueue where
  next : Int
  tasks : Int
  chunk : Int
  deriving DecidableEq, Repr

/-- A queue at its start; a chunk has a task at least. -/
def ChunkQueue.create (tasks chunk : Int) : ChunkQueue :=
  ⟨0, tasks, if chunk < 1 then 1 else chunk⟩

/-- One claim; the cursor moves on whether or not there is a chunk left. -/
def ChunkQueue.claim (queue : ChunkQueue) : Option (Option (Int × Int) × ChunkQueue) := do
  let first := queue.next
  let next ← add 64 queue.next queue.chunk
  let queue' := { queue with next := next }
  if first ≥ queue.tasks then return (none, queue')
  else
    let left ← sub 64 queue.tasks first
    let stop ← if left < queue.chunk then some queue.tasks else add 64 first queue.chunk
    return (some (first, stop), queue')

/-- The claims in the order in which they reach the cursor. -/
def ChunkQueue.claims : Nat → ChunkQueue → Option (List (Option (Int × Int)) × ChunkQueue)
  | 0, queue => some ([], queue)
  | count + 1, queue => do
      let (claimed, queue) ← queue.claim
      let (later, queue) ← queue.claims count
      return (claimed :: later, queue)

end Machine

/-! ## They compute what the natural numbers compute -/

/-- What stays below this bound is far from the limits of 64 bits. -/
theorem lt_of_le_countMaximum {value factor : Nat} (hvalue : value ≤ countMaximum)
    (hfactor : factor ≤ 2 * workerMaximum) : factor * value < 2 ^ (64 - 1) := by
  calc
    factor * value ≤ 2 * workerMaximum * countMaximum := Nat.mul_le_mul hfactor hvalue
    _ < 2 ^ (64 - 1) := by norm_num [workerMaximum, countMaximum]

theorem lt_of_le_maximum {value : Nat} (hvalue : value ≤ countMaximum) :
    value < 2 ^ (64 - 1) := by
  rw [← Nat.one_mul value]
  exact lt_of_le_countMaximum hvalue (by decide)

theorem natCast_choose (left right first second : Nat) :
    (if (left : Int) < right then (first : Int) else second) =
      ((if left < right then first else second : Nat) : Int) := by
  rw [Nat.cast_ite]
  simp only [Nat.cast_lt]

/-- There are no more chunks than tasks. -/
theorem chunkCount_le (tasks : Nat) {chunk : Nat} (hchunk : 1 ≤ chunk) :
    chunkCount tasks chunk ≤ tasks := by
  apply (chunkCount_le_iff hchunk).mpr
  exact Nat.le_mul_of_pos_right tasks hchunk

theorem Machine.chunkCount_eq {tasks chunk quotient rest : Int}
    (hquotient : div 64 tasks chunk = some quotient) (hrest : rem 64 tasks chunk = some rest) :
    Machine.chunkCount tasks chunk = add 64 quotient (if rest ≠ 0 then 1 else 0) := by
  rw [Machine.chunkCount, hquotient, hrest]
  rfl

/-- Counting chunks does not overflow. -/
theorem Machine.chunkCount_natCast {tasks chunk : Nat} (htasks : tasks ≤ countMaximum)
    (hchunk : 1 ≤ chunk) :
    Machine.chunkCount tasks chunk = some (Parallel.chunkCount tasks chunk : Int) := by
  have hfits : tasks < 2 ^ (64 - 1) := lt_of_le_maximum htasks
  have hcount := lt_of_le_of_lt (chunkCount_le tasks hchunk) hfits
  have hrest : (if ((tasks % chunk : Nat) : Int) ≠ 0 then (1 : Int) else 0) =
      ((if tasks % chunk ≠ 0 then 1 else 0 : Nat) : Int) := by
    simp only [ne_eq, Nat.cast_eq_zero, Nat.cast_ite, Nat.cast_one, Nat.cast_zero]
  rw [Machine.chunkCount_eq (div_natCast hchunk hfits) (rem_natCast hchunk hfits), hrest]
  exact add_natCast hcount

/-- The sizes `chunkTasks` compares are those of the integers. -/
theorem Machine.chunkTasks_natCast {tasks workers perWorker : Nat}
    (htasks : tasks ≤ countMaximum) (hworkers : 1 ≤ workers) (hmaximum : workers ≤ workerMaximum)
    (hper : 1 ≤ perWorker) (hperMaximum : perWorker ≤ countMaximum) (floorTasks : Nat) :
    Machine.chunkTasks tasks workers perWorker floorTasks =
      some (Parallel.chunkTasks tasks workers perWorker floorTasks : Int) := by
  have htargets : workers * perWorker < 2 ^ (64 - 1) :=
    lt_of_le_countMaximum hperMaximum (by omega)
  have hpositive : 1 ≤ workers * perWorker := Nat.mul_pos hworkers hper
  simp only [Machine.chunkTasks, mul_natCast htargets, Machine.chunkCount_natCast htasks hpositive,
    Machine.chunkCount_natCast htasks hworkers, Option.bind_eq_bind, Option.bind_some,
    Option.pure_def, Parallel.chunkTasks, gt_iff_lt, natCast_choose]
  exact congrArg some (natCast_choose _ 1 1 _)

/-- No more workers than were asked for, than the backend has, or than there are tasks. -/
theorem clampWorkers_le (tasks : Nat) {requested : Nat} (hrequested : 1 ≤ requested) :
    clampWorkers tasks requested ≤ min (min requested workerMaximum) (max tasks 1) := by
  unfold clampWorkers workerMaximum
  split
  next => omega
  next => grind

/-- Clamping does not overflow. -/
theorem Machine.clampWorkers_natCast (tasks : Nat) {requested : Nat} (hrequested : 1 ≤ requested) :
    Machine.clampWorkers tasks requested = some (Parallel.clampWorkers tasks requested : Int) := by
  have hfits : Parallel.clampWorkers tasks requested < 2 ^ 32 := by
    apply lt_of_le_of_lt (clampWorkers_le tasks hrequested)
    exact lt_of_le_of_lt (min_le_left _ _) (lt_of_le_of_lt (min_le_right _ _) (by decide))
  have htwo : ∀ value : Nat, (value : Int) < 2 ↔ value < 2 := fun value => by norm_cast
  have hlimit : ∀ limit : Nat, (if limit < 2 then 1 else limit) < 2 ^ 32 →
      (if limit < 2 then some 1 else unsigned 32 limit) =
        some ((if limit < 2 then 1 else limit : Nat) : Int) := by
    intro limit hlimit
    split
    next => rfl
    next hlarge =>
      rw [if_neg hlarge] at hlimit
      exact unsigned_natCast hlimit
  unfold Machine.clampWorkers
  unfold Parallel.clampWorkers at hfits ⊢
  simp only [htwo, gt_iff_lt, natCast_choose]
  split
  next => rfl
  next hmany =>
    rw [if_neg hmany] at hfits
    exact hlimit _ hfits

/-- The plan is serial, or it is what the settings of several workers give. -/
theorem parallelPlan_cases (settings : Settings) (eligible : Bool) (tasks : Nat) :
    (eligible = false ∨ clampWorkers tasks settings.threads < 2) ∧
        parallelPlan settings eligible tasks = ⟨1, max tasks 1⟩ ∨
      eligible = true ∧ 2 ≤ clampWorkers tasks settings.threads ∧
        (parallelPlan settings eligible tasks).chunk =
          chunkTasks tasks (clampWorkers tasks settings.threads) settings.chunksPerWorker
            settings.minimumChunk ∧
        (parallelPlan settings eligible tasks).workers =
          min (chunkCount tasks (parallelPlan settings eligible tasks).chunk)
            (clampWorkers tasks settings.threads) := by
  have hserial : (if tasks > 0 then tasks else 1) = max tasks 1 := by
    split <;> omega
  have hpositive := (clampWorkers_spec tasks settings.threads).1
  have hmin : ∀ chunks workers : Nat,
      (if chunks < workers then chunks else workers) = min chunks workers := by
    intro chunks workers
    split <;> omega
  cases eligible with
  | false => exact .inl ⟨.inl rfl, congrArg _ hserial⟩
  | true =>
      by_cases hfew : clampWorkers tasks settings.threads < 2
      · left
        have hone : clampWorkers tasks settings.threads = 1 := by omega
        exact ⟨.inr hfew, by simp [parallelPlan, hone, hserial]⟩
      · right
        simp only [parallelPlan, Bool.not_true, Bool.false_eq_true, if_false, if_neg hfew]
        exact ⟨trivial, Nat.not_lt.mp hfew, trivial, hmin _ _⟩

/-- A chunk is no longer than the range. -/
theorem chunkTasks_le {tasks workers : Nat} (hworkers : 1 ≤ workers)
    (perWorker floorTasks : Nat) :
    chunkTasks tasks workers perWorker floorTasks ≤ max tasks 1 := by
  have hwidest := chunkCount_le tasks hworkers
  have hcapped : ∀ chunk widest : Nat, widest ≤ tasks →
      (if (if chunk > widest then widest else chunk) < 1 then 1
        else if chunk > widest then widest else chunk) ≤ max tasks 1 := by
    intro chunk widest hle
    split <;> split <;> omega
  exact hcapped _ _ hwidest

section Bounds

variable {settings : Settings} {tasks : Nat}

/-- A chunk has a task at least. -/
theorem parallelPlan_chunk_pos (settings : Settings) (eligible : Bool) (tasks : Nat) :
    1 ≤ (parallelPlan settings eligible tasks).chunk := by
  obtain ⟨-, hserial⟩ | ⟨-, -, hchunk, -⟩ := parallelPlan_cases settings eligible tasks
  · rw [hserial]
    exact le_max_right tasks 1
  · rw [hchunk]
    apply one_le_chunkTasks

theorem parallelPlan_chunk_le (settings : Settings) (eligible : Bool) (tasks : Nat) :
    (parallelPlan settings eligible tasks).chunk ≤ max tasks 1 := by
  obtain ⟨-, hserial⟩ | ⟨-, hworkers, hchunk, -⟩ := parallelPlan_cases settings eligible tasks
  · rw [hserial]
  · rw [hchunk]
    apply chunkTasks_le
    exact Nat.le_of_succ_le hworkers

/-- A plan has no more workers than the settings allow. -/
theorem parallelPlan_workers_le (hthreads : 1 ≤ settings.threads) (eligible : Bool)
    (tasks : Nat) :
    (parallelPlan settings eligible tasks).workers ≤ min settings.threads (max tasks 1) := by
  obtain ⟨-, hserial⟩ | ⟨-, -, -, hworkers⟩ := parallelPlan_cases settings eligible tasks
  · rw [hserial]
    exact le_min hthreads (le_max_right tasks 1)
  · have hclamp := clampWorkers_le tasks hthreads
    omega

/-- Where there is a task, there is a chunk for every worker. -/
theorem parallelPlan_workers_le_chunks (settings : Settings) (eligible : Bool)
    (htasks : 1 ≤ tasks) :
    (parallelPlan settings eligible tasks).workers ≤
      chunkCount tasks (parallelPlan settings eligible tasks).chunk := by
  obtain ⟨-, hserial⟩ | ⟨-, -, -, hworkers⟩ := parallelPlan_cases settings eligible tasks
  · rw [hserial]
    exact one_le_chunkCount htasks (le_max_right tasks 1)
  · rw [hworkers]
    exact min_le_left _ _

/-- The plan computed in machine integers is the plan. -/
theorem Machine.parallelPlan_natCast (hstored : settings.Stored) (eligible : Bool)
    (htasks : tasks ≤ countMaximum) :
    Machine.parallelPlan settings eligible tasks =
      some ⟨(Parallel.parallelPlan settings eligible tasks).workers,
        (Parallel.parallelPlan settings eligible tasks).chunk⟩ := by
  have hserial : (if (tasks : Int) > 0 then (tasks : Int) else 1) =
      ((if tasks > 0 then tasks else 1 : Nat) : Int) := by
    exact_mod_cast natCast_choose 0 tasks tasks 1
  have hclamp := Machine.clampWorkers_natCast tasks hstored.one_le_threads
  have hworkers := clampWorkers_le tasks hstored.one_le_threads
  have hpositive := (clampWorkers_spec tasks settings.threads).1
  unfold Machine.parallelPlan Parallel.parallelPlan
  rw [hserial, hclamp]
  cases eligible with
  | false => rfl
  | true =>
      simp only [Bool.not_true, Bool.false_eq_true, if_false, Option.bind_eq_bind,
        Option.bind_some]
      generalize hcount : Parallel.clampWorkers tasks settings.threads = workers at *
      have hmaximum : workers ≤ workerMaximum := by omega
      by_cases hfew : workers < 2
      · have hfew' : (workers : Int) < 2 := by exact_mod_cast hfew
        rw [if_pos hfew, if_pos hfew']
        rfl
      · have hfew' : ¬ (workers : Int) < 2 := by exact_mod_cast hfew
        have hchunk := Machine.chunkTasks_natCast htasks hpositive hmaximum
          hstored.one_le_perWorker hstored.perWorker_le settings.minimumChunk
        have hchunks := Machine.chunkCount_natCast htasks (one_le_chunkTasks tasks workers
          settings.chunksPerWorker settings.minimumChunk)
        rw [if_neg hfew, if_neg hfew', hchunk, Option.bind_some, hchunks, Option.bind_some]
        simp only [Nat.cast_lt]
        split
        next hmore =>
          have hfits : Parallel.chunkCount tasks (Parallel.chunkTasks tasks workers
              settings.chunksPerWorker settings.minimumChunk) < 2 ^ 32 := by
            apply lt_of_lt_of_le hmore
            exact hmaximum.trans (by decide)
          rw [unsigned_natCast hfits]
          rfl
        next => rfl

end Bounds

/-! ## The claims -/

/-- Intervals that follow each other from `start` to `stop`, none of them empty. -/
def Cuts (start stop : Int) : List (Int × Int) → Prop
  | [] => start = stop
  | (first, last) :: rest => first = start ∧ first < last ∧ Cuts last stop rest

/-- The chunk with this number as the interval of its tasks. -/
def chunkInterval (tasks chunk index : Nat) : Int × Int :=
  (chunkBegin chunk index, chunkEnd tasks chunk index)

/-- What the claim with this number gets. -/
def claimAt (tasks chunk index : Nat) : Option (Int × Int) :=
  if index < chunkCount tasks chunk then some (chunkInterval tasks chunk index) else none

/-- The queue before the claim with this number. -/
def queueAt (tasks chunk index : Nat) : Machine.ChunkQueue :=
  ⟨(index * chunk : Nat), tasks, chunk⟩

section Queue

variable {tasks chunk : Nat}

/-- A new queue stands at the first chunk. -/
theorem Machine.create_natCast (tasks : Nat) (hchunk : 1 ≤ chunk) :
    Machine.ChunkQueue.create tasks chunk = queueAt tasks chunk 0 := by
  have hpositive : ¬ (chunk : Int) < 1 := by exact_mod_cast Nat.not_lt.mpr hchunk
  rw [Machine.ChunkQueue.create, if_neg hpositive, queueAt, Nat.zero_mul]
  rfl

/-- One claim of the queue as the numbers of the chunks have it. -/
theorem Machine.claim_natCast (hchunk : 1 ≤ chunk) {index : Nat}
    (htasks : tasks < 2 ^ (64 - 1)) (hcursor : (index + 1) * chunk < 2 ^ (64 - 1)) :
    (queueAt tasks chunk index).claim =
      some (claimAt tasks chunk index, queueAt tasks chunk (index + 1)) := by
  rw [Nat.add_mul, Nat.one_mul] at hcursor
  have hnext : ((index * chunk + chunk : Nat) : Int) = ((index + 1) * chunk : Nat) := by
    rw [Nat.add_mul, Nat.one_mul]
  unfold Machine.ChunkQueue.claim queueAt claimAt
  simp only [add_natCast hcursor, hnext, ge_iff_le, Nat.cast_le, Option.bind_eq_bind,
    Option.bind_some]
  by_cases hover : tasks ≤ index * chunk
  · have hnone : ¬ index < Parallel.chunkCount tasks chunk := by
      rw [lt_chunkCount_iff hchunk]
      exact Nat.not_lt.mpr hover
    rw [if_pos hover, if_neg hnone]
    rfl
  · have hsome : index < Parallel.chunkCount tasks chunk :=
      (lt_chunkCount_iff hchunk).mpr (Nat.not_le.mp hover)
    rw [if_neg hover, if_pos hsome, sub_natCast (Nat.le_of_not_le hover) htasks,
      Option.bind_some]
    simp only [Nat.cast_lt, chunkInterval, chunkBegin, chunkEnd]
    split
    next => rfl
    next =>
      rw [← hnext]
      rfl

/-- Claims one after another are consecutive chunks, as long as the cursor does not overflow. -/
theorem Machine.claims_natCast (hchunk : 1 ≤ chunk) (htasks : tasks < 2 ^ (64 - 1))
    (count : Nat) {index : Nat} (hcursor : (index + count) * chunk < 2 ^ (64 - 1)) :
    (queueAt tasks chunk index).claims count =
      some ((List.range' index count).map (claimAt tasks chunk),
        queueAt tasks chunk (index + count)) := by
  induction count generalizing index with
  | zero => rfl
  | succ count ih =>
      have hstep : (index + 1) * chunk < 2 ^ (64 - 1) :=
        lt_of_le_of_lt (Nat.mul_le_mul_right chunk (by omega)) hcursor
      have hnumber : index + 1 + count = index + (count + 1) := by omega
      have hrest := ih (show (index + 1 + count) * chunk < 2 ^ (64 - 1) by rwa [hnumber])
      rw [Machine.ChunkQueue.claims, Machine.claim_natCast hchunk htasks hstep]
      simp only [Option.bind_eq_bind, Option.bind_some, hrest, hnumber, List.range'_succ,
        List.map_cons]
      rfl

/-- The chunks from one number on cut what is left of the range. -/
theorem cuts_chunks (hchunk : 1 ≤ chunk) (count : Nat) {index : Nat}
    (hcount : index + count = chunkCount tasks chunk) :
    Cuts (min (index * chunk) tasks : Nat) tasks
      ((List.range' index count).map (chunkInterval tasks chunk)) := by
  induction count generalizing index with
  | zero =>
      have hover : tasks ≤ index * chunk := (chunkCount_le_iff hchunk).mp hcount.ge
      rw [Nat.min_eq_right hover]
      rfl
  | succ count ih =>
      have hfirst : index * chunk < tasks := (lt_chunkCount_iff hchunk).mp (by omega)
      have hlast : chunkEnd tasks chunk index = min ((index + 1) * chunk) tasks := by
        rw [chunkEnd, Nat.add_mul, Nat.one_mul]
        split <;> omega
      have hrest := ih (show index + 1 + count = chunkCount tasks chunk by omega)
      rw [List.range'_succ, List.map_cons, Nat.min_eq_left hfirst.le]
      refine ⟨rfl, ?_, ?_⟩
      · exact_mod_cast chunkBegin_lt_chunkEnd hchunk hfirst
      · rw [← hlast] at hrest
        exact hrest

/-- Behind the last chunk every claim is empty. -/
theorem map_claimAt (tasks chunk drained : Nat) :
    (List.range' 0 (chunkCount tasks chunk + drained)).map (claimAt tasks chunk) =
      ((List.range' 0 (chunkCount tasks chunk)).map (chunkInterval tasks chunk)).map some ++
        List.replicate drained none := by
  have hwon : (List.range' 0 (chunkCount tasks chunk)).map (claimAt tasks chunk) =
      ((List.range' 0 (chunkCount tasks chunk)).map (chunkInterval tasks chunk)).map some := by
    rw [List.map_map]
    apply List.map_congr_left
    intro index hindex
    rw [List.mem_range'_1] at hindex
    exact if_pos (by omega)
  have hdrained : (List.range' (chunkCount tasks chunk) drained).map (claimAt tasks chunk) =
      List.replicate drained none := by
    apply List.eq_replicate_iff.mpr
    refine ⟨by simp, ?_⟩
    intro claimed hclaimed
    obtain ⟨index, hindex, rfl⟩ := List.mem_map.mp hclaimed
    rw [List.mem_range'_1] at hindex
    exact if_neg (by omega)
  rw [← hwon, ← hdrained, ← List.map_append]
  congr 1
  have hjoin := List.range'_append_1 (s := 0) (m := chunkCount tasks chunk) (n := drained)
  rw [Nat.zero_add] at hjoin
  exact hjoin.symm

/-- Together the chunks reach past the range by less than one of them. -/
theorem chunkCount_mul_le (tasks : Nat) (hchunk : 1 ≤ chunk) :
    chunkCount tasks chunk * chunk ≤ tasks + chunk := by
  by_contra hover
  have hlast : (chunkCount tasks chunk - 1) * chunk ≥ tasks := by
    rw [Nat.sub_mul]
    omega
  have hfewer := (chunkCount_le_iff hchunk).mpr hlast
  cases hcount : chunkCount tasks chunk with
  | zero =>
      rw [hcount] at hover
      omega
  | succ count =>
      rw [hcount] at hfewer
      omega

/-- The cursor stays small, also when every worker has found the queue drained. -/
theorem cursor_lt (hchunk : 1 ≤ chunk) (hcap : chunk ≤ countMaximum)
    (htasks : tasks ≤ countMaximum) {drained : Nat} (hdrained : drained ≤ workerMaximum) :
    (0 + (chunkCount tasks chunk + drained)) * chunk < 2 ^ (64 - 1) := by
  calc
    (0 + (chunkCount tasks chunk + drained)) * chunk
        = chunkCount tasks chunk * chunk + drained * chunk := by rw [Nat.zero_add, Nat.add_mul]
    _ ≤ tasks + chunk + workerMaximum * chunk :=
        Nat.add_le_add (chunkCount_mul_le tasks hchunk) (Nat.mul_le_mul_right chunk hdrained)
    _ ≤ 2 * workerMaximum * countMaximum := by
        unfold workerMaximum
        omega
    _ < 2 ^ (64 - 1) := lt_of_le_countMaximum le_rfl le_rfl

/-- The claims of a queue, with drained workers among them. -/
theorem Machine.claims_cut (hchunk : 1 ≤ chunk) (hcap : chunk ≤ countMaximum)
    (htasks : tasks ≤ countMaximum) :
    ∃ intervals, Cuts 0 tasks intervals ∧
      intervals.length = Parallel.chunkCount tasks chunk ∧
      ∀ drained, drained ≤ workerMaximum →
        ∃ queue, (Machine.ChunkQueue.create tasks chunk).claims (intervals.length + drained) =
          some (intervals.map some ++ List.replicate drained none, queue) := by
  have hcuts := cuts_chunks hchunk _ (Nat.zero_add (Parallel.chunkCount tasks chunk))
  rw [Nat.zero_mul, Nat.zero_min] at hcuts
  refine ⟨_, hcuts, by simp, ?_⟩
  intro drained hdrained
  refine ⟨queueAt tasks chunk (0 + (Parallel.chunkCount tasks chunk + drained)), ?_⟩
  rw [List.length_map, List.length_range', ← map_claimAt, Machine.create_natCast tasks hchunk]
  apply Machine.claims_natCast hchunk (lt_of_le_maximum htasks)
  exact cursor_lt hchunk hcap htasks hdrained

end Queue

/-- What a plan for `tasks` tasks and a queue with its chunk do. -/
structure Machine.Plan.Covers (plan : Machine.Plan) (settings : Settings) (tasks : Nat) :
    Prop where
  one_le_chunk : 1 ≤ plan.chunk
  one_le_workers : 1 ≤ plan.workers
  workers_le : plan.workers ≤ min (settings.threads : Int) (max (tasks : Int) 1)
  /-- The claims cut the range, and after them every worker may find it drained. -/
  claims : ∃ intervals, Cuts 0 tasks intervals ∧
    (1 ≤ tasks → plan.workers ≤ intervals.length) ∧
    ∀ drained : Nat, (drained : Int) ≤ plan.workers →
      ∃ queue, (Machine.ChunkQueue.create tasks plan.chunk).claims (intervals.length + drained) =
        some (intervals.map some ++ List.replicate drained none, queue)

/-- The chunk is computed without an overflow, and has a task. -/
theorem Machine.chunkTasks_pos {settings : Settings} (hstored : settings.Stored) {tasks : Nat}
    (htasks : tasks ≤ countMaximum) {workers : Nat} (hworkers : 1 ≤ workers)
    (hmaximum : workers ≤ workerMaximum) :
    ∃ chunk, Machine.chunkTasks tasks workers settings.chunksPerWorker settings.minimumChunk =
      some chunk ∧ 1 ≤ chunk := by
  refine ⟨_, Machine.chunkTasks_natCast htasks hworkers hmaximum hstored.one_le_perWorker
    hstored.perWorker_le _, ?_⟩
  exact_mod_cast one_le_chunkTasks _ _ _ _

/-- Planning never overflows or divides by zero, and neither does the cursor. -/
theorem Machine.parallelPlan_covers {settings : Settings} (hstored : settings.Stored)
    (eligible : Bool) {tasks : Nat} (htasks : tasks ≤ countMaximum) :
    (∀ workers : Nat, 1 ≤ workers → workers ≤ workerMaximum →
      ∃ chunk, Machine.chunkTasks tasks workers settings.chunksPerWorker settings.minimumChunk =
        some chunk ∧ 1 ≤ chunk) ∧
    ∃ plan, Machine.parallelPlan settings eligible tasks = some plan ∧
      plan.Covers settings tasks := by
  have hchunk := parallelPlan_chunk_pos settings eligible tasks
  have hcap := parallelPlan_chunk_le settings eligible tasks
  have hworkers := parallelPlan_workers_le hstored.one_le_threads eligible tasks
  refine ⟨fun workers hone hmaximum => Machine.chunkTasks_pos hstored htasks hone hmaximum,
    _, Machine.parallelPlan_natCast hstored eligible htasks, ?_⟩
  have hmost : (Parallel.parallelPlan settings eligible tasks).workers ≤ workerMaximum :=
    (hworkers.trans (min_le_left _ _)).trans hstored.threads_le
  refine ⟨?_, ?_, ?_, ?_⟩
  · dsimp only
    exact_mod_cast hchunk
  · rw [← regionWorkers_parallelPlan]
    dsimp only
    exact_mod_cast one_le_regionWorkers _ tasks
  · dsimp only
    exact_mod_cast hworkers
  · have hfits := hcap.trans (max_le htasks (by decide))
    obtain ⟨intervals, hcuts, hlength, hclaims⟩ := Machine.claims_cut hchunk hfits htasks
    refine ⟨intervals, hcuts, ?_, ?_⟩
    · intro hsome
      rw [hlength]
      exact Int.ofNat_le.mpr (parallelPlan_workers_le_chunks settings eligible hsome)
    · intro drained hdrained
      exact hclaims drained ((Int.ofNat_le.mp hdrained).trans hmost)

/-- Three threads and ten tasks, with chunks of two. -/
theorem Machine.parallelPlan_covers_ten :
    ∃ plan, Machine.parallelPlan ⟨3, 2, 1⟩ true 10 = some plan ∧ plan.Covers ⟨3, 2, 1⟩ 10 :=
  (@Machine.parallelPlan_covers ⟨3, 2, 1⟩
    ⟨by decide, by decide, by decide, by decide, by decide, by decide⟩ true 10 (by decide)).2

/-- A range without tasks has one worker and no chunk. -/
theorem Machine.parallelPlan_empty :
    ∃ plan chunks, Machine.parallelPlan ⟨3, 2, 1⟩ true 0 = some plan ∧
      Machine.chunkCount 0 plan.chunk = some chunks ∧ ¬ plan.workers ≤ chunks :=
  ⟨⟨1, 1⟩, 0, by decide, by decide, by decide⟩

/-! ## Chunks for all workers -/

section Workers

variable {tasks workers : Nat}

/-- All workers get a chunk where the chunks before the last of them end in the range. -/
theorem le_chunkCount_iff {chunk : Nat} (hchunk : 1 ≤ chunk) (hworkers : 1 ≤ workers) :
    workers ≤ chunkCount tasks chunk ↔ (workers - 1) * chunk < tasks := by
  rw [← lt_chunkCount_iff hchunk]
  omega

/-- The widest cut leaves nobody out if it is exact, or if what rounding it up adds to the
chunks of the others fits into the last one. -/
theorem widest_iff (hworkers : 2 ≤ workers) (htasks : workers ≤ tasks) :
    (workers - 1) * chunkCount tasks workers < tasks ↔
      tasks % workers = 0 ∨ workers ≤ tasks / workers + tasks % workers := by
  have hdiv := Nat.div_add_mod tasks workers
  have hquotient : 1 ≤ tasks / workers := Nat.div_pos htasks (by omega)
  obtain ⟨others, rfl⟩ : ∃ others, workers = others + 1 := ⟨workers - 1, by omega⟩
  unfold chunkCount
  generalize tasks / (others + 1) = quotient at *
  generalize tasks % (others + 1) = rest at *
  rw [Nat.add_mul, Nat.one_mul] at hdiv
  rw [Nat.add_sub_cancel, Nat.mul_add]
  by_cases hexact : rest = 0
  · rw [if_neg (not_not.mpr hexact)]
    omega
  · rw [if_pos hexact, Nat.mul_one]
    omega

/-- Two or more chunks for a worker are so short that all workers get one. -/
theorem even_serves_all {perWorker : Nat} (hworkers : 2 ≤ workers) (htasks : workers ≤ tasks)
    (hper : 2 ≤ perWorker) :
    (workers - 1) * chunkCount tasks (workers * perWorker) < tasks := by
  have htargets : 1 ≤ workers * perWorker := Nat.mul_pos (by omega) (by omega)
  have hlast : ∀ index, index < chunkCount tasks (workers * perWorker) →
      index * (workers * perWorker) < tasks := fun index => (lt_chunkCount_iff htargets).mp
  generalize chunkCount tasks (workers * perWorker) = even at hlast ⊢
  obtain hshort | hlong := Nat.lt_or_ge even 2
  · calc
      (workers - 1) * even ≤ (workers - 1) * 1 := Nat.mul_le_mul_left _ (by omega)
      _ < tasks := by omega
  · calc
      (workers - 1) * even ≤ workers * (2 * (even - 1)) :=
          Nat.mul_le_mul (by omega) (by omega)
      _ = (even - 1) * (workers * 2) := by rw [← Nat.mul_assoc, Nat.mul_comm]
      _ ≤ (even - 1) * (workers * perWorker) :=
          Nat.mul_le_mul_left _ (Nat.mul_le_mul_left _ hper)
      _ < tasks := hlast _ (by omega)

/-- The chunk is the shorter of the widest cut and of what the settings ask for. -/
theorem chunkTasks_eq {perWorker floorTasks : Nat} (hworkers : 1 ≤ workers)
    (htasks : workers ≤ tasks) (hfloor : 1 ≤ floorTasks) :
    chunkTasks tasks workers perWorker floorTasks =
      min (max (chunkCount tasks (workers * perWorker)) floorTasks) (chunkCount tasks workers) := by
  have hwidest := one_le_chunkCount (hworkers.trans htasks) hworkers
  have hchoose : ∀ even widest : Nat, 1 ≤ widest →
      (if (if (if even > floorTasks then even else floorTasks) > widest then widest
          else if even > floorTasks then even else floorTasks) < 1 then 1
        else if (if even > floorTasks then even else floorTasks) > widest then widest
          else if even > floorTasks then even else floorTasks) =
        min (max even floorTasks) widest := by
    intro even widest hone
    have hmax : (if even > floorTasks then even else floorTasks) = max even floorTasks := by
      split <;> omega
    rw [hmax]
    split <;> split <;> omega
  exact hchoose _ _ hwidest

/-- A floor that is met leaves a worker without a chunk unless the chunks of the others are
shorter than the range, for the floor itself or for the widest cut. -/
theorem chunkTasks_serves_all_iff {perWorker floorTasks : Nat} (hworkers : 2 ≤ workers)
    (htasks : workers ≤ tasks) (hper : 1 ≤ perWorker) (hfloor : 1 ≤ floorTasks) :
    workers ≤ chunkCount tasks (chunkTasks tasks workers perWorker floorTasks) ↔
      tasks % workers = 0 ∨ workers ≤ tasks / workers + tasks % workers ∨
        2 ≤ perWorker ∧ floorTasks * (workers - 1) < tasks := by
  rw [le_chunkCount_iff (one_le_chunkTasks _ _ _ _) (by omega),
    chunkTasks_eq (by omega) htasks hfloor, ← or_assoc, ← widest_iff hworkers htasks]
  have hmin : ∀ left right : Nat, (workers - 1) * min left right < tasks ↔
      (workers - 1) * left < tasks ∨ (workers - 1) * right < tasks := by
    intro left right
    rw [← Nat.mul_min_mul_left, min_lt_iff]
  have hmax : ∀ left right : Nat, (workers - 1) * max left right < tasks ↔
      (workers - 1) * left < tasks ∧ (workers - 1) * right < tasks := by
    intro left right
    rw [← Nat.mul_max_mul_left, max_lt_iff]
  rw [hmin, hmax, or_comm, Nat.mul_comm floorTasks]
  obtain rfl | htwo := hper.eq_or_lt
  · rw [Nat.mul_one]
    constructor
    · rintro (hwidest | ⟨heven, -⟩)
      · exact .inl hwidest
      · exact .inl heven
    · rintro (hwidest | ⟨hone, -⟩)
      · exact .inl hwidest
      · omega
  · have heven := even_serves_all hworkers htasks htwo
    constructor
    · rintro (hwidest | ⟨-, hfloors⟩)
      · exact .inl hwidest
      · exact .inr ⟨htwo, hfloors⟩
    · rintro (hwidest | ⟨-, hfloors⟩)
      · exact .inl hwidest
      · exact .inr ⟨heven, hfloors⟩

/-- Ten tasks on four workers, with a floor of three. -/
theorem chunkTasks_serves_all_ten :
    4 ≤ chunkCount 10 (chunkTasks 10 4 128 3) ↔
      10 % 4 = 0 ∨ 4 ≤ 10 / 4 + 10 % 4 ∨ 2 ≤ 128 ∧ 3 * (4 - 1) < 10 :=
  chunkTasks_serves_all_iff (by decide) (by decide) (by decide) (by decide)

/-- Five tasks are cut in three for four workers. -/
theorem chunkTasks_leaves_one_out :
    ¬ 4 ≤ chunkCount 5 (chunkTasks 5 4 128 256) := by decide

/-- The plan has as many workers as the threads and tasks allow exactly when the chunks
serve all of them. -/
theorem parallelPlan_workers_eq_iff {settings : Settings}
    (hthreads : 2 ≤ clampWorkers tasks settings.threads) :
    (parallelPlan settings true tasks).workers = clampWorkers tasks settings.threads ↔
      clampWorkers tasks settings.threads ≤ chunkCount tasks
        (chunkTasks tasks (clampWorkers tasks settings.threads) settings.chunksPerWorker
          settings.minimumChunk) := by
  obtain ⟨hserial, -⟩ | ⟨-, -, hchunk, hworkers⟩ := parallelPlan_cases settings true tasks
  · simp only [Bool.true_eq_false, false_or] at hserial
    omega
  · rw [hworkers, hchunk]
    exact min_eq_right_iff

end Workers

end Charr.Parallel
