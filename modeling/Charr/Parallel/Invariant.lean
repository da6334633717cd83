import Charr.Parallel.Region

/-!
# The proof rule of a parallel region

Which worker draws which chunk depends on timing alone. The rule proved here
takes that away: from a specification of what one chunk does on one worker it
derives what the whole region does, for every schedule. The invariant behind it
ties each worker to the chunks it won, in the order of the shared cursor.
-/

namespace Charr.Parallel

variable {Local Value Error : Type}

/-! ## Running a chunk without interruption -/

/-- What a worker did with a chunk. -/
structure ChunkRun (Local Value Error : Type) where
  ending : Ending Error
  state : Local
  entries : List (Entry Value)

/-- A worker's actions up to the first that does not go on. -/
def runActions (body : ParallelBody Local Value Error) (context : WorkerContext) :
    List Action → Local → ChunkRun Local Value Error
  | [], state => ⟨.next, state, []⟩
  | action :: rest, state =>
      let result := body.act context action state
      let entry : Entry Value := ⟨context, action, result.writes, result.warned⟩
      match result.ending with
      | .next =>
          let tail := runActions body context rest result.state
          ⟨tail.ending, tail.state, entry :: tail.entries⟩
      | .throws error => ⟨.throws error, result.state, [entry]⟩
      | .stopsEarly => ⟨.stopsEarly, result.state, [entry]⟩

/-- Actions behind others that do not fail. -/
theorem runActions_append (body : ParallelBody Local Value Error) (context : WorkerContext)
    (done rest : List Action) (state : Local)
    (hnext : (runActions body context done state).ending = .next) :
    runActions body context (done ++ rest) state =
      let first := runActions body context done state
      let second := runActions body context rest first.state
      ⟨second.ending, second.state, first.entries ++ second.entries⟩ := by
  induction done generalizing state with
  | nil => rfl
  | cons action done ih =>
      simp only [List.cons_append, runActions] at hnext ⊢
      cases hending : (body.act context action state).ending with
      | next =>
          simp only [hending] at hnext ⊢
          rw [ih _ hnext]
          rfl
      | throws error => simp [hending] at hnext
      | stopsEarly => simp [hending] at hnext

/-- A run splits at any of its actions that is reached. -/
theorem runActions_split (body : ParallelBody Local Value Error) (context : WorkerContext)
    (done rest : List Action) (action : Action) (state : Local)
    (hnext : (runActions body context done state).ending = .next) :
    let first := runActions body context done state
    let result := body.act context action first.state
    let entry : Entry Value := ⟨context, action, result.writes, result.warned⟩
    runActions body context (done ++ action :: rest) state =
      match result.ending with
      | .next =>
          let tail := runActions body context rest result.state
          ⟨tail.ending, tail.state, first.entries ++ entry :: tail.entries⟩
      | .throws error => ⟨.throws error, result.state, first.entries ++ [entry]⟩
      | .stopsEarly => ⟨.stopsEarly, result.state, first.entries ++ [entry]⟩ := by
  intro first result entry
  rw [runActions_append body context done (action :: rest) state hnext]
  simp only [runActions]
  cases hending : result.ending <;> simp only [first, result, entry] at hending ⊢

/-! ## The chunks a worker won -/

/-- The context of a worker that has not claimed a chunk. -/
def freshContext (workers index : Nat) : WorkerContext :=
  ⟨index, workers, 0, 0, false⟩

/-- The context of worker `index` while it holds chunk `number`. -/
def heldContext (workers tasks chunk index number : Nat) : WorkerContext :=
  ⟨index, workers, chunkBegin chunk number, chunkEnd tasks chunk number, true⟩

/-- The chunks worker `index` won, when `claims` lists the winners of the
successive `fetch_add`s. A claim past the end wins nothing. -/
def owned (tasks chunk : Nat) (claims : List Nat) (index : Nat) : List Nat :=
  (List.range claims.length).filter
    fun number => number < chunkCount tasks chunk ∧ claims[number]? = some index

/-- A worker owns the chunks it claimed. -/
theorem mem_owned {tasks chunk : Nat} {claims : List Nat} {index number : Nat} :
    number ∈ owned tasks chunk claims index ↔
      number < chunkCount tasks chunk ∧ claims[number]? = some index := by
  simp only [owned, List.mem_filter, List.mem_range, decide_eq_true_eq, and_iff_right_iff_imp]
  rintro ⟨_, hwinner⟩
  exact (List.getElem?_eq_some_iff.mp hwinner).1

/-- One more claim is the winner's. -/
theorem owned_append (tasks chunk : Nat) (claims : List Nat) (winner index : Nat) :
    owned tasks chunk (claims ++ [winner]) index =
      owned tasks chunk claims index ++
        if winner = index ∧ claims.length < chunkCount tasks chunk then [claims.length]
        else [] := by
  simp only [owned, List.length_append, List.length_singleton, List.range_succ,
    List.filter_append]
  congr 1
  · apply List.filter_congr
    intro number hnumber
    rw [List.getElem?_append_left (List.mem_range.mp hnumber)]
  · simp only [List.filter_cons, List.filter_nil, List.getElem?_concat_length,
      Option.some.injEq, decide_eq_true_eq]
    congr 1
    rw [and_comm]

/-- A worker claims its chunks in order. -/
theorem owned_sorted (tasks chunk : Nat) (claims : List Nat) (index : Nat) :
    (owned tasks chunk claims index).Pairwise (· < ·) :=
  List.Pairwise.filter _ List.pairwise_lt_range

/-- No chunk has two owners. -/
theorem owned_unique {tasks chunk : Nat} {claims : List Nat} {left right number : Nat}
    (hleft : number ∈ owned tasks chunk claims left)
    (hright : number ∈ owned tasks chunk claims right) : left = right := by
  rw [mem_owned] at hleft hright
  exact Option.some.inj (hleft.2.symm.trans hright.2)

/-- A chunk without an owner is not claimed yet. -/
theorem length_le_of_not_mem_owned {tasks chunk : Nat} {claims : List Nat} {number : Nat}
    (hnumber : number < chunkCount tasks chunk)
    (hnot : ∀ index ∈ claims, number ∉ owned tasks chunk claims index) :
    claims.length ≤ number := by
  by_contra hlt
  have hget : claims[number]? = some claims[number] := List.getElem?_eq_getElem (by omega)
  exact hnot claims[number] (List.getElem_mem (by omega)) (mem_owned.mpr ⟨hnumber, hget⟩)

/-! ## Specifications of a body -/

/-- What one chunk does on one worker. `history` relates the chunks a worker
has run to its own state, and `post` says how a chunk ends and which entries it
leaves; both are established by running the chunk from any related state. -/
structure BodySpec (body : ParallelBody Local Value Error) (workers tasks chunk : Nat)
    (history : Nat → List Nat → Local → Prop)
    (post : Nat → Ending Error → List (Entry Value) → Prop) : Prop where
  setup : ∀ index < workers,
    let result := body.setup (freshContext workers index) (body.initial index)
    result.ending = .next ∧ result.writes = [] ∧ result.warned = 0 ∧
      history index [] result.state
  chunk : ∀ index < workers, ∀ finished number state,
    number < chunkCount tasks chunk → (∀ earlier ∈ finished, earlier < number) →
    (∀ earlier ∈ finished, ∃ entries, post earlier .next entries) →
    history index finished state →
    let run := runActions body (heldContext workers tasks chunk index number)
      (chunkActions (chunkBegin chunk number) (chunkEnd tasks chunk number)) state
    post number run.ending run.entries ∧ history index (finished ++ [number]) run.state

/-! ## The invariant -/

section Standing

variable (body : ParallelBody Local Value Error) (workers tasks chunk : Nat)
  (history : Nat → List Nat → Local → Prop)
  (post : Nat → Ending Error → List (Entry Value) → Prop)

/-- Where a worker stands with the chunks it won. `trace number` is what chunk
`number` has left in the region's history so far. -/
inductive Standing (trace : Nat → List (Entry Value)) (claimed index : Nat) :
    List Nat → WorkerState Local Error → Prop
  | starting :
      Standing trace claimed index []
        ⟨.running [.setup], freshContext workers index, {}, body.initial index⟩
  | between {finished : List Nat} {context : WorkerContext} {state : Local}
      (hcontext : context.worker = index ∧ context.workers = workers)
      (hhistory : history index finished state)
      (hfinished : ∀ number ∈ finished, post number .next (trace number)) :
      Standing trace claimed index finished ⟨.running [], context, {}, state⟩
  | inside {finished : List Nat} {number : Nat} {before : Local} {done rest : List Action}
      {action : Action} {state : Local}
      (hhistory : history index finished before)
      (hfinished : ∀ number ∈ finished, post number .next (trace number))
      (hactions : chunkActions (chunkBegin chunk number) (chunkEnd tasks chunk number) =
        done ++ action :: rest)
      (hrun : runActions body (heldContext workers tasks chunk index number) done before =
        ⟨.next, state, trace number⟩) :
      Standing trace claimed index (finished ++ [number])
        ⟨.running (action :: rest), heldContext workers tasks chunk index number, {}, state⟩
  | drained {finished : List Nat} {context : WorkerContext} {state : Local}
      (hhistory : history index finished state)
      (hfinished : ∀ number ∈ finished, post number .next (trace number))
      (hclaimed : chunkCount tasks chunk ≤ claimed) :
      Standing trace claimed index finished ⟨.returned, context, {}, state⟩
  | failed {finished : List Nat} {number : Nat} {error : Error} {context : WorkerContext}
      {state : Local}
      (hhistory : history index (finished ++ [number]) state)
      (hfinished : ∀ number ∈ finished, post number .next (trace number))
      (hpost : post number (.throws error) (trace number)) :
      Standing trace claimed index (finished ++ [number])
        ⟨.threw error, context,
          { failed := true, failedAt := chunkBegin chunk number,
            message := body.describeError error }, state⟩
  | stopped {finished : List Nat} {number : Nat} {context : WorkerContext} {state : Local}
      (hhistory : history index (finished ++ [number]) state)
      (hfinished : ∀ number ∈ finished, post number .next (trace number))
      (hpost : post number .stopsEarly (trace number)) :
      Standing trace claimed index (finished ++ [number])
        ⟨.returned, context, { stoppedEarly := true }, state⟩

variable {body workers tasks chunk history post}

/-- A worker's standing only looks at the chunks it won. -/
theorem Standing.congr {trace trace' : Nat → List (Entry Value)} {claimed claimed' index : Nat}
    {mine : List Nat} {worker : WorkerState Local Error}
    (hstanding : Standing body workers tasks chunk history post trace claimed index mine worker)
    (htrace : ∀ number ∈ mine, trace' number = trace number) (hclaimed : claimed ≤ claimed') :
    Standing body workers tasks chunk history post trace' claimed' index mine worker := by
  have hfrom : ∀ {finished : List Nat}, (∀ number ∈ finished, number ∈ mine) →
      (∀ number ∈ finished, post number .next (trace number)) →
      ∀ number ∈ finished, post number .next (trace' number) := by
    intro finished hsub hpost number hnumber
    rw [htrace number (hsub number hnumber)]
    exact hpost number hnumber
  cases hstanding with
  | starting => exact .starting
  | between hcontext hhistory hfinished =>
      exact .between hcontext hhistory (hfrom (fun _ h => h) hfinished)
  | inside hhistory hfinished hactions hrun =>
      refine .inside hhistory (hfrom (fun _ h => List.mem_append_left _ h) hfinished) hactions ?_
      rw [hrun, htrace _ (by simp)]
  | drained hhistory hfinished hcount =>
      exact .drained hhistory (hfrom (fun _ h => h) hfinished) (hcount.trans hclaimed)
  | failed hhistory hfinished hpost =>
      refine .failed hhistory (hfrom (fun _ h => List.mem_append_left _ h) hfinished) ?_
      rw [htrace _ (by simp)]
      exact hpost
  | stopped hhistory hfinished hpost =>
      refine .stopped hhistory (hfrom (fun _ h => List.mem_append_left _ h) hfinished) ?_
      rw [htrace _ (by simp)]
      exact hpost

end Standing

/-- What one chunk has left in the history. -/
def chunkTrace (chunk : Nat) (trace : List (Entry Value)) (number : Nat) : List (Entry Value) :=
  trace.filter fun entry => entry.position = (chunkBegin chunk number : Int)

/-- The region invariant: the cursor counts the claims, every worker stands
with the chunks it won, and the shared state is what the history wrote. -/
structure Invariant (body : ParallelBody Local Value Error) (workers tasks chunk : Nat)
    (history : Nat → List Nat → Local → Prop)
    (post : Nat → Ending Error → List (Entry Value) → Prop) (initial : Shared Value)
    (region : Region Local Value Error) : Prop where
  workers_eq : region.workers = workers
  tasks_eq : region.queue.tasks = tasks
  chunk_eq : region.queue.chunk = chunk
  cursor : region.queue.next = region.claims.length * chunk
  winners : ∀ index ∈ region.claims, index < workers
  standing : ∀ index < workers, Standing body workers tasks chunk history post
    (chunkTrace chunk region.trace) region.claims.length index
    (owned tasks chunk region.claims index) (region.worker index)
  positions : ∀ entry ∈ region.trace,
    (entry.context.holding = false ∧ entry.action = .setup ∧ entry.writes = [] ∧
        entry.warned = 0) ∨
      ∃ number index, number ∈ owned tasks chunk region.claims index ∧
        entry.context = heldContext workers tasks chunk index number ∧ entry.action ≠ .setup
  shared_eq : region.shared = region.trace.foldl Shared.record initial

section Preservation

variable {body : ParallelBody Local Value Error} {workers tasks chunk : Nat}
  {history : Nat → List Nat → Local → Prop}
  {post : Nat → Ending Error → List (Entry Value) → Prop} {initial : Shared Value}
  {region : Region Local Value Error} {index : Nat}

/-- The invariant holds before the first step. -/
theorem invariant_start (body : ParallelBody Local Value Error) (workers tasks : Nat)
    {chunk : Nat} (hchunk : 1 ≤ chunk) (history : Nat → List Nat → Local → Prop)
    (post : Nat → Ending Error → List (Entry Value) → Prop)
    (result : Nat → Option Value) (warnings : Bool) :
    Invariant body workers tasks chunk history post
      (Region.start body workers tasks chunk result warnings).shared
      (Region.start body workers tasks chunk result warnings) where
  workers_eq := rfl
  tasks_eq := rfl
  chunk_eq := by
    simp only [Region.start, ChunkQueue.create]
    split <;> omega
  cursor := by simp [Region.start, ChunkQueue.create]
  winners := by simp [Region.start]
  standing _ _ := .starting
  positions := by simp [Region.start]
  shared_eq := rfl

theorem mem_owned_append {claims : List Nat} {winner number : Nat}
    (hmem : number ∈ owned tasks chunk claims index) :
    number ∈ owned tasks chunk (claims ++ [winner]) index := by
  rw [owned_append]
  exact List.mem_append_left _ hmem

theorem heldContext_serialPosition (number : Nat) :
    (heldContext workers tasks chunk index number).serialPosition =
      (chunkBegin chunk number : Int) := by
  simp [heldContext, WorkerContext.serialPosition]

/-- Chunks begin at different tasks. -/
theorem chunkBegin_injective (hchunk : 1 ≤ chunk) {left right : Nat}
    (heq : (chunkBegin chunk left : Int) = chunkBegin chunk right) : left = right := by
  unfold chunkBegin at heq
  exact Nat.eq_of_mul_eq_mul_right hchunk (by exact_mod_cast heq)

/-- A chunk nobody has won yet has left nothing in the history. -/
theorem Invariant.chunkTrace_eq_nil (hchunk : 1 ≤ chunk)
    (hinv : Invariant body workers tasks chunk history post initial region) {number : Nat}
    (hnumber : region.claims.length ≤ number) : chunkTrace chunk region.trace number = [] := by
  rw [chunkTrace, List.filter_eq_nil_iff]
  intro entry hentry hdecide
  have hposition : entry.context.serialPosition = chunkBegin chunk number :=
    of_decide_eq_true hdecide
  rcases hinv.positions entry hentry with ⟨hholding, _⟩ | ⟨other, index, howned, hcontext, _⟩
  · rw [WorkerContext.serialPosition, hholding] at hposition
    simp at hposition
  · rw [hcontext, heldContext_serialPosition] at hposition
    have hsame := chunkBegin_injective hchunk hposition
    have hlt := (List.getElem?_eq_some_iff.mp (mem_owned.mp howned).2).1
    omega

/-- A worker with no action left stands between two chunks. -/
theorem Standing.of_running_nil {trace : Nat → List (Entry Value)} {claimed : Nat}
    {mine : List Nat} {worker : WorkerState Local Error}
    (hstanding : Standing body workers tasks chunk history post trace claimed index mine worker)
    (hphase : worker.phase = .running []) :
    (worker.context.worker = index ∧ worker.context.workers = workers) ∧ worker.report = {} ∧
      history index mine worker.state ∧ ∀ number ∈ mine, post number .next (trace number) := by
  cases hstanding with
  | between hcontext hhistory hfinished => exact ⟨hcontext, rfl, hhistory, hfinished⟩
  | starting => simp at hphase
  | inside => simp at hphase
  | drained => simp at hphase
  | failed => simp at hphase
  | stopped => simp at hphase

/-- A drained queue has nothing to claim. -/
theorem claim_of_drained {queue : ChunkQueue} (hnext : queue.tasks ≤ queue.next) :
    queue.claim = (none, { queue with next := queue.next + queue.chunk }) := by
  simp [ChunkQueue.claim, hnext]

/-- A queue that is not drained gives its next chunk. -/
theorem claim_of_lt {queue : ChunkQueue} (hnext : queue.next < queue.tasks) :
    queue.claim = (some (queue.next,
      if queue.tasks - queue.next < queue.chunk then queue.tasks
      else queue.next + queue.chunk), { queue with next := queue.next + queue.chunk }) := by
  simp [ChunkQueue.claim, Nat.not_le.mpr hnext]

theorem claim_snd (queue : ChunkQueue) :
    queue.claim.2 = { queue with next := queue.next + queue.chunk } := by
  simp only [ChunkQueue.claim]
  split <;> rfl

/-- A claim keeps the invariant: a won chunk joins the winner's, in order. -/
theorem Invariant.nextChunk (hchunk : 1 ≤ chunk)
    (hinv : Invariant body workers tasks chunk history post initial region)
    (hindex : index < workers) (hphase : (region.worker index).phase = .running []) :
    Invariant body workers tasks chunk history post initial (region.nextChunk index) := by
  obtain ⟨hcontext, hreport, hhistory, hfinished⟩ :=
    (hinv.standing index hindex).of_running_nil hphase
  refine ⟨hinv.workers_eq, ?_, ?_, ?_, ?_, ?_, ?_, hinv.shared_eq⟩
  · simp only [Region.nextChunk, claim_snd]
    exact hinv.tasks_eq
  · simp only [Region.nextChunk, claim_snd]
    exact hinv.chunk_eq
  · simp only [Region.nextChunk, claim_snd, List.length_append, List.length_singleton]
    rw [hinv.cursor, hinv.chunk_eq, Nat.add_mul, Nat.one_mul]
  · intro winner hwinner
    rcases List.mem_append.mp hwinner with hold | hnew
    · exact hinv.winners winner hold
    · rw [List.mem_singleton.mp hnew]
      exact hindex
  -- only the claiming worker's standing changes
  · intro other hother
    simp only [Region.nextChunk, List.length_append, List.length_singleton]
    by_cases hsame : other = index
    · subst other
      rw [Function.update_self, owned_append]
      by_cases hleft : region.claims.length < chunkCount tasks chunk
      · -- The claim wins the chunk the cursor points at.
        have hlt : region.queue.next < region.queue.tasks := by
          rw [hinv.cursor, hinv.tasks_eq]
          exact (lt_chunkCount_iff hchunk).mp hleft
        rw [claim_of_lt hlt]
        simp only [hleft, and_self, if_true]
        obtain ⟨hworker, hworkers⟩ := hcontext
        rw [hworker, hworkers, hreport, hinv.tasks_eq, hinv.chunk_eq, hinv.cursor]
        refine Standing.inside hhistory hfinished
          (show chunkActions _ _ = [] ++ Action.enterChunk :: _ from rfl) ?_
        rw [hinv.chunkTrace_eq_nil hchunk (Nat.le_refl _)]
        rfl
      -- The queue is empty, and the worker stops.
      · have hle : region.queue.tasks ≤ region.queue.next := by
          rw [hinv.cursor, hinv.tasks_eq]
          exact (chunkCount_le_iff hchunk).mp (Nat.not_lt.mp hleft)
        rw [claim_of_drained hle]
        simp only [hleft, and_false, if_false, List.append_nil]
        rw [hreport]
        exact .drained hhistory hfinished (by omega)
    · rw [Function.update_of_ne hsame, owned_append, if_neg (fun h => hsame h.1.symm),
        List.append_nil]
      exact (hinv.standing other hother).congr (fun _ _ => rfl) (Nat.le_succ _)
  · intro entry hentry
    rcases hinv.positions entry hentry with hsetup | ⟨number, owner, howned, hrest⟩
    · exact Or.inl hsetup
    · exact Or.inr ⟨number, owner, mem_owned_append howned, hrest⟩

/-- A worker with an action left is about to set up, or is inside a chunk. -/
theorem Standing.of_running_cons {trace : Nat → List (Entry Value)} {claimed : Nat}
    {mine : List Nat} {worker : WorkerState Local Error} {action : Action} {rest : List Action}
    (hstanding : Standing body workers tasks chunk history post trace claimed index mine worker)
    (hphase : worker.phase = .running (action :: rest)) :
    (mine = [] ∧ action = .setup ∧ rest = [] ∧ worker.context = freshContext workers index ∧
        worker.report = {} ∧ worker.state = body.initial index) ∨
      ∃ finished number before done, mine = finished ++ [number] ∧
        worker.context = heldContext workers tasks chunk index number ∧ worker.report = {} ∧
        history index finished before ∧
        (∀ earlier ∈ finished, post earlier .next (trace earlier)) ∧
        chunkActions (chunkBegin chunk number) (chunkEnd tasks chunk number) =
          done ++ action :: rest ∧
        runActions body (heldContext workers tasks chunk index number) done before =
          ⟨.next, worker.state, trace number⟩ := by
  cases hstanding with
  | starting =>
      simp only [Phase.running.injEq, List.cons.injEq] at hphase
      exact Or.inl ⟨rfl, hphase.1.symm, hphase.2.symm, rfl, rfl, rfl⟩
  | inside hhistory hfinished hactions hrun =>
      simp only [Phase.running.injEq, List.cons.injEq] at hphase
      obtain ⟨rfl, rfl⟩ := hphase
      exact Or.inr ⟨_, _, _, _, rfl, rfl, rfl, hhistory, hfinished, hactions, hrun⟩
  | between => simp at hphase
  | drained => simp at hphase
  | failed => simp at hphase
  | stopped => simp at hphase

theorem chunkTrace_append (chunk : Nat) (trace : List (Entry Value)) (entry : Entry Value)
    (number : Nat) :
    chunkTrace chunk (trace ++ [entry]) number = chunkTrace chunk trace number ++
      if entry.position = chunkBegin chunk number then [entry] else [] := by
  simp only [chunkTrace, List.filter_append, List.filter_cons, List.filter_nil,
    decide_eq_true_eq]

/-- Actions of a chunk never set a worker up. -/
theorem ne_setup_of_mem_chunkActions {begin endTask : Nat} {action : Action}
    (hmem : action ∈ chunkActions begin endTask) : action ≠ .setup := by
  rintro rfl
  simp [chunkActions] at hmem

/-- An action inside a chunk keeps the winner's standing. -/
theorem standing_perform (hspec : BodySpec body workers tasks chunk history post)
    (hindex : index < workers) {finished : List Nat} {number : Nat} {before : Local}
    {done rest : List Action} {action : Action} {worker : WorkerState Local Error}
    {trace trace' : Nat → List (Entry Value)} {claimed : Nat}
    (hnumber : number < chunkCount tasks chunk)
    (hsorted : ∀ earlier ∈ finished, earlier < number)
    (hcontext : worker.context = heldContext workers tasks chunk index number)
    (hreport : worker.report = {}) (hhistory : history index finished before)
    (hfinished : ∀ earlier ∈ finished, post earlier .next (trace earlier))
    (hactions : chunkActions (chunkBegin chunk number) (chunkEnd tasks chunk number) =
      done ++ action :: rest)
    (hrun : runActions body (heldContext workers tasks chunk index number) done before =
      ⟨.next, worker.state, trace number⟩)
    (hother : ∀ earlier ∈ finished, trace' earlier = trace earlier)
    (hself : trace' number = trace number ++ [⟨worker.context, action,
      (body.act worker.context action worker.state).writes,
      (body.act worker.context action worker.state).warned⟩]) :
    Standing body workers tasks chunk history post trace' claimed index (finished ++ [number])
      (Region.afterAction body worker rest
        (body.act worker.context action worker.state)) := by
  have hkept : ∀ earlier ∈ finished, post earlier .next (trace' earlier) := by
    intro earlier hearlier
    rw [hother earlier hearlier]
    exact hfinished earlier hearlier
  have hchunk := hspec.chunk index hindex finished number before hnumber hsorted
    (fun earlier hearlier => ⟨_, hfinished earlier hearlier⟩) hhistory
  have hsplit := runActions_split body (heldContext workers tasks chunk index number)
    done rest action before (by rw [hrun])
  rw [hcontext] at hself ⊢
  simp only [hrun] at hsplit
  rw [hactions, hsplit] at hchunk
  cases hending : (body.act (heldContext workers tasks chunk index number) action
      worker.state).ending with
  | next =>
      simp only [Region.afterAction, hending] at hchunk ⊢
      cases rest with
      | nil =>
          -- The chunk is complete, so its specification applies to the whole of it.
          rw [hcontext, hreport]
          refine .between ⟨rfl, rfl⟩ hchunk.2 ?_
          intro earlier hearlier
          rcases List.mem_append.mp hearlier with hold | hnew
          · exact hkept earlier hold
          · rw [List.mem_singleton.mp hnew, hself]
            exact hchunk.1
      | cons following rest =>
          rw [hcontext, hreport]
          refine .inside hhistory hkept
            (show _ = (done ++ [action]) ++ following :: rest by simp [hactions]) ?_
          rw [runActions_append body _ done [action] before (by rw [hrun])]
          simp only [hrun, runActions, hending, hself]
  | throws error =>
      simp only [Region.afterAction, hending] at hchunk ⊢
      rw [hcontext, heldContext_serialPosition, hreport]
      refine .failed hchunk.2 hkept ?_
      rw [hself]
      exact hchunk.1
  | stopsEarly =>
      simp only [Region.afterAction, hending] at hchunk ⊢
      rw [hreport]
      refine .stopped hchunk.2 hkept ?_
      rw [hself]
      exact hchunk.1

/-- What an action has to show: its worker stands where it should, the chunks of
the other workers keep their history, and the new entry has a place. -/
theorem Invariant.of_action
    (hinv : Invariant body workers tasks chunk history post initial region)
    {action : Action} {rest : List Action} {entry : Entry Value}
    {worker : WorkerState Local Error}
    (hworker : (region.perform body index action rest).worker =
      Function.update region.worker index worker)
    (htrace : (region.perform body index action rest).trace = region.trace ++ [entry])
    (hself : Standing body workers tasks chunk history post
      (chunkTrace chunk (region.trace ++ [entry])) region.claims.length index
      (owned tasks chunk region.claims index) worker)
    (hframe : ∀ other ≠ index, ∀ number ∈ owned tasks chunk region.claims other,
      entry.position ≠ chunkBegin chunk number)
    (hplace : (entry.context.holding = false ∧ entry.action = .setup ∧ entry.writes = [] ∧
        entry.warned = 0) ∨
      ∃ number owner, number ∈ owned tasks chunk region.claims owner ∧
        entry.context = heldContext workers tasks chunk owner number ∧ entry.action ≠ .setup) :
    Invariant body workers tasks chunk history post initial
      (region.perform body index action rest) := by
  refine ⟨hinv.workers_eq, hinv.tasks_eq, hinv.chunk_eq, hinv.cursor, hinv.winners, ?_, ?_, ?_⟩
  · intro other hother
    rw [hworker, htrace]
    by_cases hsame : other = index
    · subst other
      rw [Function.update_self]
      exact hself
    · rw [Function.update_of_ne hsame]
      refine (hinv.standing other hother).congr (fun number hnumber => ?_) (Nat.le_refl _)
      rw [chunkTrace_append, if_neg (hframe other hsame number hnumber), List.append_nil]
  · intro old hold
    rw [htrace] at hold
    rcases List.mem_append.mp hold with hbefore | hnew
    · exact hinv.positions old hbefore
    · rw [List.mem_singleton.mp hnew]
      exact hplace
  · simp only [Region.perform, List.foldl_append, List.foldl_cons, List.foldl_nil]
    rw [← hinv.shared_eq]

/-- An action keeps the invariant: it extends the history of the chunk its
worker holds and of no other chunk. -/
theorem Invariant.perform (hchunk : 1 ≤ chunk)
    (hspec : BodySpec body workers tasks chunk history post)
    (hinv : Invariant body workers tasks chunk history post initial region)
    (hindex : index < workers) {action : Action} {rest : List Action}
    (hphase : (region.worker index).phase = .running (action :: rest)) :
    Invariant body workers tasks chunk history post initial
      (region.perform body index action rest) := by
  rcases (hinv.standing index hindex).of_running_cons hphase with
    ⟨hmine, rfl, rfl, hcontext, hreport, hstate⟩ |
    ⟨finished, number, before, done, hmine, hcontext, hreport, hhistory, hfinished, hactions,
      hrun⟩
  · -- The set-up leaves no trace at any chunk.
    obtain ⟨hending, hwrites, hwarned, hhistory⟩ := hspec.setup index hindex
    apply hinv.of_action rfl rfl
    · simp only [ParallelBody.act, hcontext, hstate, Region.afterAction, hending, hreport, hmine]
      exact .between ⟨rfl, rfl⟩ hhistory (by simp)
    · intro other _ number _
      simp [Entry.position, hcontext, WorkerContext.serialPosition, freshContext]
    · left
      simp only [ParallelBody.act, hcontext, hstate]
      exact ⟨rfl, trivial, hwrites, hwarned⟩
  · have howned : number ∈ owned tasks chunk region.claims index := by
      rw [hmine]
      simp
    have hsorted := owned_sorted tasks chunk region.claims index
    rw [hmine, List.pairwise_append] at hsorted
    have hlower : ∀ earlier ∈ finished, earlier < number :=
      fun earlier hearlier => hsorted.2.2 earlier hearlier number (by simp)
    -- The new entry is placed at the chunk the worker holds.
    have hposition : ∀ other, other ≠ number →
        (Entry.mk (region.worker index).context action
          (body.act (region.worker index).context action (region.worker index).state).writes
          (body.act (region.worker index).context action
            (region.worker index).state).warned).position ≠ chunkBegin chunk other := by
      intro other hne
      simp only [Entry.position, hcontext, heldContext_serialPosition]
      exact fun heq => hne (chunkBegin_injective hchunk heq).symm
    apply hinv.of_action rfl rfl
    · rw [hmine]
      apply standing_perform hspec hindex (mem_owned.mp howned).1 hlower hcontext hreport
        hhistory hfinished hactions hrun
      · intro earlier hearlier
        rw [chunkTrace_append, if_neg (hposition earlier (hlower earlier hearlier).ne),
          List.append_nil]
      · simp only [chunkTrace_append, Entry.position, hcontext, heldContext_serialPosition,
          if_true]
    · intro other hother earlier hearlier
      apply hposition
      rintro rfl
      exact hother (owned_unique hearlier howned)
    · right
      refine ⟨number, index, howned, hcontext, ?_⟩
      apply ne_setup_of_mem_chunkActions
      rw [hactions]
      simp

/-- Every scheduling step keeps the invariant. -/
theorem Invariant.step (hchunk : 1 ≤ chunk)
    (hspec : BodySpec body workers tasks chunk history post) (index : Nat)
    (region : Region Local Value Error)
    (hinv : Invariant body workers tasks chunk history post initial region) :
    Invariant body workers tasks chunk history post initial (region.step body index) := by
  unfold Region.step
  split
  next hindex =>
    rw [hinv.workers_eq] at hindex
    split
    next hphase => exact hinv.nextChunk hchunk hindex hphase
    next action rest hphase => exact hinv.perform hchunk hspec hindex hphase
    next => exact hinv
    next => exact hinv
  next => exact hinv

/-- The invariant holds after every schedule. -/
theorem Invariant.run (hchunk : 1 ≤ chunk)
    (hspec : BodySpec body workers tasks chunk history post) (schedule : List Nat)
    (result : Nat → Option Value) (warnings : Bool) :
    Invariant body workers tasks chunk history post
      (Region.start body workers tasks chunk result warnings).shared
      (Interleaving.run (Region.step body) schedule
        (Region.start body workers tasks chunk result warnings)) :=
  Interleaving.run_invariant (Invariant.step hchunk hspec) schedule
    (invariant_start body workers tasks hchunk history post result warnings)

end Preservation

end Charr.Parallel
