import Charr.Parallel.Tasks

/-!
# Bodies that take a chunk at once

Some bodies hand each claimed chunk to one call, and nothing is left to do task by
task. What a worker has done is then told by the chunks it has won.
-/

namespace Charr.Parallel

variable {Local Value Error : Type}

/-- A body whose loop makes one call for each claimed chunk. -/
def chunkwise (initial : Nat → Local)
    (call : WorkerContext → Local → ActionResult Local Value Error)
    (describeError : Error → String) : ParallelBody Local Value Error where
  initial := initial
  enterChunk := call
  task _ _ state := .pass state
  describeError := describeError

section Calls

variable (initial : Nat → Local)
  (call : WorkerContext → Local → ActionResult Local Value Error)
  (describeError : Error → String)

theorem runActions_pass (context : WorkerContext) (range : List Nat) (state : Local) :
    let run := runActions (chunkwise initial call describeError) context
      (range.map .task ++ [.leaveChunk]) state
    run.ending = .next ∧ run.state = state ∧ run.entries.flatMap Entry.writes = [] := by
  induction range with
  | nil => exact ⟨rfl, rfl, rfl⟩
  | cons task rest ih => exact ih

/-- A chunk of such a body is its call. -/
theorem runActions_chunkwise (context : WorkerContext) (begin endTask : Nat) (state : Local) :
    let run := runActions (chunkwise initial call describeError) context
      (chunkActions begin endTask) state
    run.ending = (call context state).ending ∧ run.state = (call context state).state ∧
      run.entries.flatMap Entry.writes = (call context state).writes := by
  have hactions : chunkActions begin endTask =
      .enterChunk :: ((List.range' begin (endTask - begin)).map .task ++ [.leaveChunk]) := rfl
  have hact : (chunkwise initial call describeError).act context .enterChunk state =
      call context state := rfl
  rw [hactions]
  simp only [runActions, hact]
  cases (call context state).ending with
  | next =>
      obtain ⟨hending, hstate, hwrites⟩ := runActions_pass initial call describeError context
        (List.range' begin (endTask - begin)) (call context state).state
      exact ⟨hending, hstate, by simp [hwrites]⟩
  | throws error => exact ⟨rfl, rfl, by simp⟩
  | stopsEarly => exact ⟨rfl, rfl, by simp⟩

end Calls

/-- How a chunk ends and what it writes, as the chunk alone decides. -/
def ChunkPost (describeError : Error → String) (ends : Nat → Ending String)
    (writes : Nat → List (Nat × Value)) (number : Nat) (ending : Ending Error)
    (entries : List (Entry Value)) : Prop :=
  ending.map describeError = ends number ∧ entries.flatMap Entry.writes = writes number

section Spec

variable {initial : Nat → Local}
  {call : WorkerContext → Local → ActionResult Local Value Error}
  {describeError : Error → String} {workers tasks chunk : Nat}
  {history : Nat → List Nat → Local → Prop} {ends : Nat → Ending String}
  {writes : Nat → List (Nat × Value)}

/-- A body that works chunk by chunk, by what one call does. -/
theorem chunkwiseSpec (hinitial : ∀ index < workers, history index [] (initial index))
    (hcall : ∀ index < workers, ∀ finished number state, number < chunkCount tasks chunk →
      (∀ earlier ∈ finished, earlier < number) → history index finished state →
      let result := call (heldContext workers tasks chunk index number) state
      result.ending.map describeError = ends number ∧ result.writes = writes number ∧
        history index (finished ++ [number]) result.state) :
    BodySpec (chunkwise initial call describeError) workers tasks chunk history
      (ChunkPost describeError ends writes) where
  setup index hindex := ⟨rfl, rfl, rfl, hinitial index hindex⟩
  chunk index hindex finished number state hnumber hearlier _ hhistory := by
    obtain ⟨hending, hwrites, hkept⟩ :=
      hcall index hindex finished number state hnumber hearlier hhistory
    obtain ⟨hrun, hstate, hwritten⟩ := runActions_chunkwise initial call describeError
      (heldContext workers tasks chunk index number) (chunkBegin chunk number)
      (chunkEnd tasks chunk number) state
    refine ⟨⟨?_, hwritten.trans hwrites⟩, ?_⟩
    · rw [hrun]
      exact hending
    · rw [hstate]
      exact hkept

section Completed

variable {region : Region Local Value Error} {before : Shared Value}
  {body : ParallelBody Local Value Error}

/-- Chunks that run through and write a value for each of their tasks leave all
the values. -/
theorem Completed.result_of_chunks
    (hdone : Completed body workers tasks chunk history (ChunkPost describeError ends writes)
      ends before region)
    (hall : ∀ number < chunkCount tasks chunk, ends number = .next) {value : Nat → Value}
    (hwrites : ∀ number < chunkCount tasks chunk,
      writes number = (chunkRange tasks chunk number).map fun task => (task, value task))
    {slot : Nat} (hslot : slot < tasks) : region.shared.result slot = some (value slot) := by
  have hnumber : slot / chunk < chunkCount tasks chunk :=
    (lt_chunkCount_iff hdone.chunk_pos).mpr ((Nat.div_mul_le_self slot chunk).trans_lt hslot)
  apply hdone.result_eq_some hnumber fun earlier hearlier => hall earlier (hearlier.trans hnumber)
  · rintro ending entries ⟨-, hentries⟩
    apply List.mem_flatMap.mp
    rw [hentries, hwrites _ hnumber]
    exact List.mem_map.mpr ⟨slot, (mem_chunkRange hdone.chunk_pos).mpr ⟨hslot, rfl⟩, rfl⟩
  · rintro other hother ending entries ⟨-, hentries⟩ entry hentry write hwrite hplace
    have hmem : write ∈ entries.flatMap Entry.writes := List.mem_flatMap.mpr ⟨entry, hentry, hwrite⟩
    rw [hentries, hwrites _ hother] at hmem
    obtain ⟨task, -, rfl⟩ := List.mem_map.mp hmem
    exact congrArg value hplace

/-- Chunks that run through and write once for each of their tasks leave what they write. -/
theorem Completed.result_of_write
    (hdone : Completed body workers tasks chunk history (ChunkPost describeError ends writes)
      ends before region)
    (hall : ∀ number < chunkCount tasks chunk, ends number = .next)
    (hkeys : ∀ number < chunkCount tasks chunk,
      (writes number).map Prod.fst = chunkRange tasks chunk number)
    {slot : Nat} (hslot : slot < tasks) {value : Value}
    (hwrite : (slot, value) ∈ writes (slot / chunk)) :
    region.shared.result slot = some value := by
  have hnumber : slot / chunk < chunkCount tasks chunk :=
    (lt_chunkCount_iff hdone.chunk_pos).mpr ((Nat.div_mul_le_self slot chunk).trans_lt hslot)
  apply hdone.result_eq_some hnumber fun earlier hearlier => hall earlier (hearlier.trans hnumber)
  · rintro ending entries ⟨-, hentries⟩
    exact List.mem_flatMap.mp (hentries ▸ hwrite)
  · rintro other hother ending entries ⟨-, hentries⟩ entry hentry write hmem rfl
    have hother' : write ∈ writes other := hentries ▸ List.mem_flatMap.mpr ⟨entry, hentry, hmem⟩
    have hkey : write.1 ∈ chunkRange tasks chunk other :=
      hkeys other hother ▸ List.mem_map_of_mem hother'
    obtain ⟨-, rfl⟩ := (mem_chunkRange hdone.chunk_pos).mp hkey
    have hnodup : ((writes (write.1 / chunk)).map Prod.fst).Nodup := by
      rw [hkeys _ hnumber]
      exact List.nodup_range'
    exact congrArg Prod.snd (List.inj_on_of_nodup_map hnodup hother' hwrite rfl)

/-- Two regions of one such sequence of chunks leave the same values. -/
theorem Completed.result_congr {Local' Error' : Type} {body' : ParallelBody Local' Value Error'}
    {describeError' : Error' → String} {workers' : Nat} {history' : Nat → List Nat → Local' → Prop}
    {before' : Shared Value} {region' : Region Local' Value Error'}
    (hdone : Completed body workers tasks chunk history (ChunkPost describeError ends writes)
      ends before region)
    (hdone' : Completed body' workers' tasks chunk history' (ChunkPost describeError' ends writes)
      ends before' region')
    (hall : ∀ number < chunkCount tasks chunk, ends number = .next)
    (hkeys : ∀ number < chunkCount tasks chunk,
      (writes number).map Prod.fst = chunkRange tasks chunk number)
    {slot : Nat} (hslot : slot < tasks) :
    region.shared.result slot = region'.shared.result slot := by
  have hnumber : slot / chunk < chunkCount tasks chunk :=
    (lt_chunkCount_iff hdone.chunk_pos).mpr ((Nat.div_mul_le_self slot chunk).trans_lt hslot)
  have hmem : slot ∈ (writes (slot / chunk)).map Prod.fst := by
    rw [hkeys _ hnumber]
    exact (mem_chunkRange hdone.chunk_pos).mpr ⟨hslot, rfl⟩
  obtain ⟨⟨_, value⟩, hwrite, rfl⟩ := List.mem_map.mp hmem
  rw [hdone.result_of_write hall hkeys hslot hwrite, hdone'.result_of_write hall hkeys hslot hwrite]

end Completed

end Spec

/-! ## Writing one item for each task -/

section Write

variable {Item : Type} (record : Item → Except Error Value) (state : Local)

/-- Write the records of the items from `index` on, up to one that fails. -/
def writeItems : Nat → List Item → ActionResult Local Value Error
  | _, [] => .pass state
  | index, item :: rest =>
      match record item with
      | .error error => { ending := .throws error, state }
      | .ok value =>
          let tail := writeItems (index + 1) rest
          { tail with writes := (index, value) :: tail.writes }

theorem writeItems_state (index : Nat) (items : List Item) :
    (writeItems record state index items).state = state := by
  induction items generalizing index with
  | nil => rfl
  | cons item rest ih =>
      rw [writeItems]
      cases record item with
      | error error => rfl
      | ok value => exact ih (index + 1)

/-- Writing ends with the first record that fails. -/
theorem writeItems_ending (index : Nat) (items : List Item) :
    (writeItems record state index items).ending =
      match items.mapM record with
      | .error error => .throws error
      | .ok _ => .next := by
  induction items generalizing index with
  | nil => rfl
  | cons item rest ih =>
      rw [writeItems, List.mapM_cons]
      cases record item with
      | error error => rfl
      | ok value =>
          refine (ih (index + 1)).trans ?_
          cases rest.mapM record with
          | error error => rfl
          | ok values => rfl

/-- What is written does not depend on how the items are stored. -/
theorem writeItems_map {Source : Type} (view : Source → Item) {Other : Type} (other : Other)
    (index : Nat) (sources : List Source) :
    (writeItems record state index (sources.map view)).writes =
      (writeItems (record ∘ view) other index sources).writes := by
  induction sources generalizing index with
  | nil => rfl
  | cons source rest ih =>
      rw [List.map_cons, writeItems, writeItems, Function.comp_apply]
      cases record (view source) with
      | error error => rfl
      | ok value => exact congrArg ((index, value) :: ·) (ih (index + 1))

variable {record} in
/-- Where no record fails, each is written in its place. -/
theorem writeItems_writes {items : List Item} {values : List Value}
    (hvalues : items.mapM record = .ok values) (index : Nat) :
    (writeItems record state index items).writes =
      (List.range' index values.length).zip values := by
  induction items generalizing index values with
  | nil =>
      obtain rfl := Except.ok.inj hvalues
      rfl
  | cons item rest ih =>
      rw [List.mapM_cons] at hvalues
      rw [writeItems]
      cases hitem : record item with
      | error error => exact absurd hvalues (by simp [hitem, bind, Except.bind])
      | ok value =>
          cases hrest : rest.mapM record with
          | error error => exact absurd hvalues (by simp [hitem, hrest, bind, Except.bind])
          | ok others =>
              rw [hitem, hrest] at hvalues
              obtain rfl := Except.ok.inj hvalues
              simp only [ih hrest (index + 1), List.length_cons, List.range'_succ,
                List.zip_cons_cons]

end Write

/-! ## The tasks of some chunks -/

section Ranges

variable {tasks chunk : Nat} (hchunk : 1 ≤ chunk) {numbers : List Nat}
include hchunk

/-- Different chunks have no more tasks than there are. -/
theorem length_flatMap_chunkRange_le (hsorted : numbers.Pairwise (· < ·)) :
    (numbers.flatMap (chunkRange tasks chunk)).length ≤ tasks := by
  have hnodup : (numbers.flatMap (chunkRange tasks chunk)).Nodup :=
    (flatMap_chunkRange_sorted hchunk hsorted).imp Nat.ne_of_lt
  have hsubset : numbers.flatMap (chunkRange tasks chunk) ⊆ List.range tasks := by
    intro task htask
    obtain ⟨number, -, hmem⟩ := List.mem_flatMap.mp htask
    exact List.mem_range.mpr ((mem_chunkRange hchunk).mp hmem).1
  have hle := (List.subperm_of_subset hnodup hsubset).length_le
  rw [List.length_range] at hle
  exact hle

end Ranges

section Owned

variable {body : ParallelBody Local Value Error} {plan : ParallelPlan} {tasks chunk : Nat}
  {history : Nat → List Nat → Local → Prop}
  {post : Nat → Ending Error → List (Entry Value) → Prop} {ends : Nat → Ending String}
  {before : Shared Value} {result : Nat → Option Value} {warnings : Bool} {schedule : List Nat}
  {regionEnd : RegionEnd Local Value Error}

theorem regionWorkers_le (hworkers : 1 ≤ plan.workers) :
    regionWorkers plan tasks ≤ plan.workers := by
  unfold regionWorkers
  split <;> omega

/-- Every worker of the plan, with or without a thread, has seen the chunks it won. -/
theorem history_of_plan
    (hdone : Completed body (regionWorkers plan tasks) tasks chunk history post ends before
      regionEnd.final)
    (hrun : runRegion plan tasks body result warnings schedule = some regionEnd)
    (hinitial : ∀ index, history index [] (body.initial index)) (index : Nat) :
    history index (owned tasks chunk regionEnd.final.claims index)
      (regionEnd.final.worker index).state := by
  by_cases hindex : index < regionWorkers plan tasks
  · exact hdone.history_owned hindex
  · have hnone : owned tasks chunk regionEnd.final.claims index = [] := by
      apply List.eq_nil_iff_forall_not_mem.mpr
      intro number hnumber
      exact hindex (hdone.lt_workers_of_owned hnumber)
    rw [hnone, state_of_runRegion_of_le hrun (Nat.not_lt.mp hindex)]
    exact hinitial index

end Owned

/-! ## The items of some chunks -/

section Items

variable {Item : Type}

/-- The items of the claimed chunk, in a list with one item for each task. -/
def chunkItems (items : List Item) (context : WorkerContext) : List Item :=
  (items.drop context.begin).take (context.endTask - context.begin)

theorem take_drop_eq_map (items : List Item) (missing : Item) {begin stop : Nat}
    (hstop : stop ≤ items.length) :
    (items.drop begin).take (stop - begin) =
      (List.range' begin (stop - begin)).map fun index => items.getD index missing := by
  apply List.ext_getElem
  · simp only [List.length_take, List.length_drop, List.length_map, List.length_range']
    omega
  · intro offset hleft hright
    rw [List.length_map, List.length_range'] at hright
    have hbound : begin + offset < items.length := by omega
    rw [List.getElem_take, List.getElem_drop, List.getElem_map, List.getElem_range',
      List.getD_eq_getElem?_getD, Nat.one_mul, List.getElem?_eq_getElem hbound, Option.getD_some]

theorem map_range_getD (items : List Item) (missing : Item) :
    (List.range items.length).map (fun index => items.getD index missing) = items := by
  have hall : (items.drop 0).take (items.length - 0) = _ := take_drop_eq_map items missing le_rfl
  rw [Nat.sub_zero, List.drop_zero, List.take_length] at hall
  rw [List.range_eq_range']
  exact hall.symm

variable {chunk number : Nat}

/-- The items of a chunk. -/
theorem chunkItems_held (items : List Item) (missing : Item)
    (hnumber : number * chunk < items.length) (workers index : Nat) :
    chunkItems items (heldContext workers items.length chunk index number) =
      (chunkRange items.length chunk number).map fun task => items.getD task missing :=
  take_drop_eq_map items missing (chunkEnd_le_tasks hnumber)

end Items

end Charr.Parallel
