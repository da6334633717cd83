import Charr.Encoding.Conversion

/-!
# Conversion warnings come in record order

Each row is ascending, but which rows the chunks are in depends on the schedule,
chunks without warnings are in none, and several workers may fail. The merge cut
at the first failure is still what a loop over the records pushes.
-/

namespace Charr.Encoding

open Parallel

variable {Input : Type}

/-! ## One chunk on one worker -/

section Chunk

variable (converters : Converters Input) (records : List (Option Input))

/-- The warnings a record pushes, and its failure. -/
def recordOutcome (record : Option Input) : List String × Option NativeError :=
  match record with
  | none => ([], none)
  | some input =>
      match converters.convertRecord input with
      | (pushed, .ok _) => (pushed, none)
      | (pushed, .error error) => (pushed, some error)

/-- The warnings that a record gives. -/
def pushed (index : Nat) : List String :=
  (recordOutcome converters (records.getD index none)).1

/-- How a record ends. -/
def recordEnds (index : Nat) : Ending String :=
  taskEnding ((recordOutcome converters (records.getD index none)).2.map NativeError.text)

variable {converters records}

theorem close_snd (chunks : List ChunkWarnings) (begin : Nat) (queue : List String) :
    (closeChunkWarnings chunks begin queue).2 = [] := by
  unfold closeChunkWarnings
  split
  next hempty => exact List.length_eq_zero_iff.mp hempty
  next => rfl

/-- A task appends its warnings to the queue; a failing one also closes the chunk. -/
theorem conversionBody_task (converters : Converters Input) (records : List (Option Input))
    (context : WorkerContext) (index : Nat) (state : ConversionState) :
    let result := (conversionBody converters records).task context index state
    let queue := state.queue ++ pushed converters records index
    result.ending.map NativeError.text = recordEnds converters records index ∧
      result.state = if recordEnds converters records index = .next then
        { state with queue }
      else ⟨[], (closeChunkWarnings state.chunks context.begin queue).1,
        ⟨true, context.begin, queue.length⟩⟩ := by
  unfold pushed recordEnds recordOutcome
  simp only [conversionBody]
  cases records.getD index none with
  | none =>
      simp only [List.append_nil, Option.map_none, taskEnding, if_true]
      exact ⟨rfl, trivial⟩
  | some input =>
      simp only
      generalize converters.convertRecord input = converted
      obtain ⟨messages, result⟩ := converted
      cases result with
      | ok data => exact ⟨rfl, rfl⟩
      | error error =>
          simp only [Option.map_some, taskEnding, reduceCtorEq, if_false]
          refine ⟨rfl, ?_⟩
          rw [← close_snd state.chunks context.begin (state.queue ++ messages)]

/-- A record is converted or fails. -/
theorem recordEnds_cases (converters : Converters Input) (records : List (Option Input))
    (index : Nat) :
    recordEnds converters records index = .next ∨
      ∃ message, recordEnds converters records index = .throws message := by
  unfold recordEnds
  cases (recordOutcome converters (records.getD index none)).2 with
  | none => exact .inl rfl
  | some error => exact .inr ⟨error.text, rfl⟩

/-- The loop of one chunk leaves an empty queue and one record, if any. -/
theorem runActions_chunk (converters : Converters Input) (records : List (Option Input))
    (context : WorkerContext) (range : List Nat) (state : ConversionState) :
    let run := runActions (conversionBody converters records) context
      (range.map .task ++ [.leaveChunk]) state
    let queue := state.queue ++
      (executed (recordEnds converters records) range).flatMap (pushed converters records)
    run.ending.map NativeError.text = loopEnding (recordEnds converters records) range ∧
      run.state = ⟨[], (closeChunkWarnings state.chunks context.begin queue).1,
        if loopEnding (recordEnds converters records) range = .next then state.cutoff
        else ⟨true, context.begin, queue.length⟩⟩ := by
  induction range generalizing state with
  | nil =>
      simp only [List.map_nil, List.nil_append, runActions, ParallelBody.act, executed,
        List.flatMap_nil, List.append_nil, loopEnding, if_true]
      refine ⟨rfl, ?_⟩
      rw [← close_snd state.chunks context.begin state.queue]
      rfl
  | cons task rest ih =>
      obtain ⟨hending, hstate⟩ := conversionBody_task converters records context task state
      rcases recordEnds_cases converters records task with hends | ⟨message, hends⟩
      · rw [hends] at hending hstate
        rw [if_pos rfl] at hstate
        have hnext := ending_eq_next_of_map hending
        obtain ⟨hrest, hlast⟩ := ih ((conversionBody converters records).task context task
          state).state
        simp only [List.map_cons, List.cons_append, runActions, ParallelBody.act, loopEnding,
          executed, hends, hnext, List.flatMap_cons]
        refine ⟨hrest, ?_⟩
        rw [hlast, hstate]
        simp only [List.append_assoc]
      · rw [hends] at hending hstate
        rw [if_neg (by simp)] at hstate
        simp only [List.map_cons, List.cons_append, runActions, ParallelBody.act, loopEnding,
          executed, hends, List.flatMap_cons, List.flatMap_nil, List.append_nil, reduceCtorEq,
          if_false]
        cases hresult : ((conversionBody converters records).task context task state).ending with
        | throws error =>
            rw [hresult] at hending
            exact ⟨hending, hstate⟩
        | next => simp [hresult, Ending.map] at hending
        | stopsEarly => simp [hresult, Ending.map] at hending

end Chunk

/-! ## The rows and cutoffs of a region -/

section Rows

variable (converters : Converters Input) (records : List (Option Input)) (tasks chunk : Nat)

/-- How a chunk ends. -/
def chunkEnds (number : Nat) : Ending String :=
  loopEnding (recordEnds converters records) (chunkRange tasks chunk number)

/-- The warnings of a chunk, up to its first failing record. -/
def chunkPushed (number : Nat) : List String :=
  (executed (recordEnds converters records) (chunkRange tasks chunk number)).flatMap
    (pushed converters records)

/-- What is stored of a chunk; one without warnings is not. -/
def chunkRecord (number : Nat) : Option ChunkWarnings :=
  if (chunkPushed converters records tasks chunk number).length = 0 then none
  else some ⟨chunkBegin chunk number, chunkPushed converters records tasks chunk number⟩

/-- The cutoff of a worker that fails in a chunk. -/
def chunkCutoff (number : Nat) : WarningCutoff :=
  ⟨true, chunkBegin chunk number, (chunkPushed converters records tasks chunk number).length⟩

/-- The cutoff of a worker that ran the chunks `mine`. -/
def cutoffAfter (mine : List Nat) : WarningCutoff :=
  mine.foldl (fun cutoff number =>
    if chunkEnds converters records tasks chunk number = .next then cutoff
    else chunkCutoff converters records tasks chunk number) .inactive

/-- What a worker that ran the chunks `mine` has recorded. -/
def Recorded (mine : List Nat) (state : ConversionState) : Prop :=
  state = ⟨[], mine.filterMap (chunkRecord converters records tasks chunk),
    cutoffAfter converters records tasks chunk mine⟩

variable {converters records tasks chunk}

/-- Closing a chunk stores its warnings, if it has any. -/
theorem close_fst (chunks : List ChunkWarnings) (begin : Nat) (queue : List String) :
    (closeChunkWarnings chunks begin queue).1 =
      chunks ++
        (if queue.length = 0 then none else some (ChunkWarnings.mk begin queue)).toList := by
  unfold closeChunkWarnings
  split <;> simp

/-- What a worker has recorded when it has been through its chunks. -/
theorem conversionSpec (hopening : converters.opening = none) (workers : Nat) :
    BodySpec (conversionBody converters records) workers tasks chunk
      (fun _ mine state => Recorded converters records tasks chunk mine state)
      (fun number ending _ =>
        ending.map NativeError.text = chunkEnds converters records tasks chunk number) where
  setup _ _ := by
    simp only [conversionBody, hopening]
    exact ⟨rfl, rfl, rfl, rfl⟩
  chunk index _ finished number state _ _ _ hrecorded := by
    have hactions : chunkActions (chunkBegin chunk number) (chunkEnd tasks chunk number) =
        .enterChunk :: ((chunkRange tasks chunk number).map .task ++ [.leaveChunk]) := rfl
    obtain ⟨hending, hstate⟩ := runActions_chunk converters records
      (heldContext workers tasks chunk index number) (chunkRange tasks chunk number) state
    rw [hactions]
    refine ⟨hending, ?_⟩
    refine hstate.trans ?_
    rw [hrecorded, close_fst]
    simp only [List.nil_append, List.filterMap_append, cutoffAfter, List.foldl_append,
      List.foldl_cons, List.foldl_nil]
    rfl

/-- A worker has a cutoff exactly if a chunk of its own failed. -/
theorem cutoffAfter_cases (mine : List Nat) :
    (cutoffAfter converters records tasks chunk mine = .inactive ∧
      ∀ number ∈ mine, chunkEnds converters records tasks chunk number = .next) ∨
    ∃ number ∈ mine, chunkEnds converters records tasks chunk number ≠ .next ∧
      cutoffAfter converters records tasks chunk mine =
        chunkCutoff converters records tasks chunk number := by
  unfold cutoffAfter
  induction mine using List.reverseRecOn with
  | nil => exact .inl ⟨rfl, by simp⟩
  | append_singleton earlier number ih =>
      rw [List.foldl_append, List.foldl_cons, List.foldl_nil]
      split
      next hnext =>
        rcases ih with ⟨hinactive, hall⟩ | ⟨failed, hmem, hfailed, hcutoff⟩
        · refine .inl ⟨hinactive, ?_⟩
          intro other hother
          rcases List.mem_append.mp hother with hin | hin
          · exact hall other hin
          · rw [List.mem_singleton.mp hin, hnext]
        · exact .inr ⟨failed, List.mem_append_left _ hmem, hfailed, hcutoff⟩
      next hfailed => exact .inr ⟨number, by simp, hfailed, rfl⟩

end Rows

/-! ## The first cutoff -/

/-- Without a failure no warning is cut off. -/
theorem firstWarningCutoff_inactive {cutoffs : List WarningCutoff}
    (hinactive : ∀ cutoff ∈ cutoffs, cutoff = .inactive) :
    firstWarningCutoff cutoffs .inactive = .inactive := by
  unfold firstWarningCutoff
  induction cutoffs with
  | nil => rfl
  | cons cutoff rest ih =>
      obtain ⟨rfl, hrest⟩ := List.forall_mem_cons.mp hinactive
      exact ih hrest

/-- The scan finds a cutoff that lies before all other active ones. -/
theorem firstWarningCutoff_eq {cutoffs : List WarningCutoff} {lowest first : WarningCutoff}
    (hactive : lowest.active = true)
    (hcutoffs : ∀ cutoff ∈ cutoffs, cutoff.active = true →
      cutoff = lowest ∨ lowest.chunkBegin < cutoff.chunkBegin)
    (hfirst : first.active = true → first = lowest ∨ lowest.chunkBegin < first.chunkBegin)
    (hmem : first = lowest ∨ lowest ∈ cutoffs) :
    firstWarningCutoff cutoffs first = lowest := by
  unfold firstWarningCutoff
  -- either the lowest one is kept already, or it is still to come
  induction cutoffs generalizing first with
  | nil =>
      rcases hmem with heq | hnil
      · exact heq
      · exact absurd hnil (by simp)
  | cons cutoff rest ih =>
      obtain ⟨hcutoff, hrest⟩ := List.forall_mem_cons.mp hcutoffs
      rw [List.foldl_cons]
      by_cases hcandidate : cutoff.active = true
      · rw [hcandidate, Bool.not_true, if_neg (by simp)]
        rcases hcutoff hcandidate with rfl | hlater
        · -- the lowest one replaces whatever was kept
          split
          next => exact ih hrest (fun _ => .inl rfl) (.inl rfl)
          next hkept =>
            apply ih hrest hfirst
            left
            simp only [not_or, not_and] at hkept
            have hfirstactive : first.active = true := by simpa using hkept.1
            rcases hfirst hfirstactive with heq | hlt
            · exact heq
            · exact absurd hlt hkept.2.1
        · split
          next hreplaced =>
            apply ih hrest (fun _ => .inr hlater)
            rcases hmem with rfl | hin
            · rcases hreplaced with hnot | hless | ⟨hsame, -⟩
              · simp [hactive] at hnot
              · omega
              · omega
            · rcases List.mem_cons.mp hin with rfl | hin
              · omega
              · exact .inr hin
          next =>
            apply ih hrest hfirst
            rcases hmem with heq | hin
            · exact .inl heq
            · rcases List.mem_cons.mp hin with rfl | hin
              · omega
              · exact .inr hin
      -- an idle cutoff is passed over
      · rw [Bool.not_eq_true] at hcandidate
        rw [hcandidate, Bool.not_false, if_pos rfl]
        apply ih hrest hfirst
        rcases hmem with heq | hin
        · exact .inl heq
        · rcases List.mem_cons.mp hin with rfl | hin
          · rw [hcandidate] at hactive
            exact absurd hactive (by simp)
          · exact .inr hin

/-! ## The merge -/

/-- Emission over the chunks in order. -/
def emitChunks (cutoff : WarningCutoff) : List ChunkWarnings → List String
  | [] => []
  | chunk :: rest =>
      if cutoff.active ∧ chunk.begin ≥ cutoff.chunkBegin then
        if chunk.begin = cutoff.chunkBegin then
          emitPrefix chunk.warnings cutoff.prefixLength
        else []
      else chunk.warnings ++ emitChunks cutoff rest

theorem emitPrefix_length (messages : List String) :
    emitPrefix messages messages.length = messages := by
  simp [emitPrefix]

/-- The merge of the rows emits the chunks in order, whatever rows they are in. -/
theorem emitRows_eq (cutoff : WarningCutoff) {rows : List WorkerChunkWarnings}
    {chunks : List ChunkWarnings}
    (hmerged : RowMerge.Merged ChunkWarnings.begin (rows.map WorkerChunkWarnings.remaining)
      chunks) {fuel : Nat} (hfuel : chunks.length < fuel) :
    emitRows cutoff fuel rows = emitChunks cutoff chunks := by
  induction chunks generalizing rows fuel with
  | nil =>
      obtain ⟨fuel, rfl⟩ : ∃ less, fuel = less + 1 := ⟨fuel - 1, by omega⟩
      rw [emitRows, hmerged.done]
      rfl
  | cons chunk rest ih =>
      obtain ⟨fuel, rfl⟩ : ∃ less, fuel = less + 1 := ⟨fuel - 1, by omega⟩
      obtain ⟨next, tail, hlowest, hget, hnext⟩ := hmerged.next
      rw [emitRows, hlowest, emitChunks]
      simp only
      split
      next => rfl
      next =>
        have hadvance := RowMerge.map_modify_eq_set WorkerChunkWarnings.remaining
          (fun row => { row with emitted := row.emitted + 1 })
          (fun row => (List.tail_drop ..).symm) hget
        rw [← hadvance] at hnext
        rw [List.length_cons] at hfuel
        rw [emit, emitPrefix_length, ih hnext (by omega)]

/-! ## Emission over the chunks of a region -/

section Emission

variable {converters : Converters Input} {records : List (Option Input)} {tasks chunk : Nat}

variable (converters records tasks chunk) in
/-- A chunk is stored unless it has no warnings. -/
theorem chunkRecord_cases (number : Nat) :
    (chunkRecord converters records tasks chunk number = none ∧
      chunkPushed converters records tasks chunk number = []) ∨
    chunkRecord converters records tasks chunk number =
      some ⟨chunkBegin chunk number, chunkPushed converters records tasks chunk number⟩ := by
  unfold chunkRecord
  split
  next hempty => exact .inl ⟨rfl, List.length_eq_zero_iff.mp hempty⟩
  next => exact .inr rfl

theorem begin_of_chunkRecord {number : Nat} {record : ChunkWarnings}
    (hrecord : chunkRecord converters records tasks chunk number = some record) :
    record.begin = chunkBegin chunk number := by
  rcases chunkRecord_cases converters records tasks chunk number with ⟨hnone, -⟩ | hsome
  · rw [hnone] at hrecord
    exact absurd hrecord (by simp)
  · rw [hsome] at hrecord
    obtain rfl := Option.some.inj hrecord
    rfl

/-- Without a cutoff all warnings come out, chunks without any included. -/
theorem emitChunks_inactive (numbers : List Nat) :
    emitChunks .inactive (numbers.filterMap (chunkRecord converters records tasks chunk)) =
      numbers.flatMap (chunkPushed converters records tasks chunk) := by
  induction numbers with
  | nil => rfl
  | cons number rest ih =>
      rw [List.flatMap_cons]
      rcases chunkRecord_cases converters records tasks chunk number with ⟨hnone, hpushed⟩ | hsome
      · rw [List.filterMap_cons_none hnone, ih, hpushed, List.nil_append]
      · rw [List.filterMap_cons_some hsome, emitChunks, if_neg (by simp [WarningCutoff.inactive]),
          ih]

/-- Behind the cutoff no warning is emitted. -/
theorem emitChunks_above {cutoff : WarningCutoff} (hactive : cutoff.active = true)
    {chunks : List ChunkWarnings} (habove : ∀ later ∈ chunks, cutoff.chunkBegin < later.begin) :
    emitChunks cutoff chunks = [] := by
  cases chunks with
  | nil => rfl
  | cons first rest =>
      have hfirst := habove first List.mem_cons_self
      rw [emitChunks, if_pos ⟨hactive, hfirst.le⟩, if_neg hfirst.ne']

/-- Emission stops with the chunk of the cutoff, whether or not that chunk left
a record. -/
theorem emitChunks_cutoff (hchunk : 1 ≤ chunk) {failed : Nat} (before after : List Nat)
    (hbefore : ∀ number ∈ before, number < failed) (hafter : ∀ number ∈ after, failed < number) :
    emitChunks (chunkCutoff converters records tasks chunk failed)
        ((before ++ failed :: after).filterMap (chunkRecord converters records tasks chunk)) =
      (before ++ [failed]).flatMap (chunkPushed converters records tasks chunk) := by
  have hstrict : ∀ {left right : Nat}, left < right →
      chunkBegin chunk left < chunkBegin chunk right :=
    fun hlt => Nat.mul_lt_mul_of_pos_right hlt hchunk
  induction before with
  | nil =>
      have habove : emitChunks (chunkCutoff converters records tasks chunk failed)
          (after.filterMap (chunkRecord converters records tasks chunk)) = [] := by
        apply emitChunks_above rfl
        intro later hlater
        obtain ⟨number, hnumber, hrecord⟩ := List.mem_filterMap.mp hlater
        rw [begin_of_chunkRecord hrecord]
        exact hstrict (hafter number hnumber)
      rw [List.nil_append, List.nil_append, List.flatMap_singleton]
      rcases chunkRecord_cases converters records tasks chunk failed with ⟨hnone, hpushed⟩ | hsome
      · rw [List.filterMap_cons_none hnone, habove, hpushed]
      · rw [List.filterMap_cons_some hsome, emitChunks, if_pos ⟨rfl, le_rfl⟩]
        exact (if_pos rfl).trans (emitPrefix_length _)
  | cons number rest ih =>
      obtain ⟨hnumber, hrest⟩ := List.forall_mem_cons.mp hbefore
      rw [List.cons_append, List.cons_append, List.flatMap_cons]
      rcases chunkRecord_cases converters records tasks chunk number with ⟨hnone, hpushed⟩ | hsome
      · rw [List.filterMap_cons_none hnone, ih hrest, hpushed, List.nil_append]
      · rw [List.filterMap_cons_some hsome, emitChunks, if_neg, ih hrest]
        rintro ⟨-, hreached⟩
        exact absurd (hstrict hnumber) (Nat.not_lt.mpr hreached)

variable (converters records tasks) in
/-- The rows hold the records of all chunks that were won. -/
theorem merged_rows (hchunk : 1 ≤ chunk) {workers : Nat} {claims : List Nat}
    (hwinners : ∀ index ∈ claims, index < workers) :
    RowMerge.Merged ChunkWarnings.begin
      ((List.range workers).map fun index =>
        (owned tasks chunk claims index).filterMap (chunkRecord converters records tasks chunk))
      ((List.range (min claims.length (chunkCount tasks chunk))).filterMap
        (chunkRecord converters records tasks chunk)) := by
  have hsorted : ∀ {numbers : List Nat}, numbers.Pairwise (· < ·) →
      (numbers.filterMap (chunkRecord converters records tasks chunk)).Pairwise
        fun earlier later => earlier.begin < later.begin := by
    intro numbers hnumbers
    rw [List.pairwise_filterMap]
    apply hnumbers.imp
    intro number later hlt record hrecord other hother
    rw [begin_of_chunkRecord hrecord, begin_of_chunkRecord hother]
    exact Nat.mul_lt_mul_of_pos_right hlt hchunk
  refine ⟨?_, hsorted List.pairwise_lt_range, ?_⟩
  · have howned : ((List.range workers).flatMap (owned tasks chunk claims)).Perm _ :=
      owned_perm hwinners
    have hperm := howned.filterMap (chunkRecord converters records tasks chunk)
    rw [List.filterMap_flatMap] at hperm
    exact hperm
  · intro row hrow
    obtain ⟨index, -, rfl⟩ := List.mem_map.mp hrow
    exact hsorted (owned_sorted tasks chunk claims index)

end Emission

/-! ## A completed region -/

/-- No chunk stops early. -/
theorem chunkEnds_ne_stopsEarly (converters : Converters Input) (records : List (Option Input))
    (tasks chunk number : Nat) :
    chunkEnds converters records tasks chunk number ≠ .stopsEarly := by
  intro hstops
  have hne : chunkEnds converters records tasks chunk number ≠ .next := by
    rw [hstops]
    simp
  obtain ⟨task, -, hends⟩ := exists_of_loopEnding hne
  rcases recordEnds_cases converters records task with hnext | ⟨message, hthrows⟩
  · exact hne (hends.symm.trans hnext)
  · rw [hthrows] at hends
    exact absurd (hends.trans hstops) (by simp)

section Completed

variable {converters : Converters Input} {records : List (Option Input)}
  {workers tasks chunk : Nat} {post : Nat → Ending NativeError → List (Entry _) → Prop}
  {initial : Shared (Option (List UInt8))}
  {region : Region ConversionState (Option (List UInt8)) NativeError}
  (hdone : Completed (conversionBody converters records) workers tasks chunk
    (fun _ mine state => Recorded converters records tasks chunk mine state) post
    (chunkEnds converters records tasks chunk) initial region)
include hdone

/-- The worker that won the first failing chunk has its cutoff there. -/
theorem cutoffAfter_owned {index failed : Nat} {message : String} (hindex : index < workers)
    (howned : failed ∈ owned tasks chunk region.claims index)
    (hthrows : chunkEnds converters records tasks chunk failed = .throws message) :
    cutoffAfter converters records tasks chunk (owned tasks chunk region.claims index) =
      chunkCutoff converters records tasks chunk failed := by
  have hjoined := (hdone.invariant.joined hdone.complete hindex).1
  rcases cutoffAfter_cases (owned tasks chunk region.claims index) with
    ⟨-, hall⟩ | ⟨number, hnumber, hne, hcutoff⟩
  · rw [hall failed howned] at hthrows
    exact absurd hthrows (by simp)
  · cases hends : chunkEnds converters records tasks chunk number with
    | next => exact absurd hends hne
    | stopsEarly => exact absurd hends (chunkEnds_ne_stopsEarly _ _ _ _ _)
    | throws other =>
        obtain ⟨-, hreport⟩ := hjoined.of_throws hdone.ending howned hthrows
        obtain ⟨-, hother⟩ := hjoined.of_throws hdone.ending hnumber hends
        have hbegin := congrArg WorkerReport.failedAt (hother.symm.trans hreport)
        rw [hcutoff, chunkBegin_injective hdone.chunk_pos hbegin]

/-- The first cutoff is that of the lowest chunk that failed. -/
theorem firstWarningCutoff_owned {width failed : Nat} {message : String} (hwidth : workers ≤ width)
    (hnumber : failed < chunkCount tasks chunk)
    (hbelow : ∀ earlier < failed, chunkEnds converters records tasks chunk earlier = .next)
    (hthrows : chunkEnds converters records tasks chunk failed = .throws message) :
    firstWarningCutoff ((List.range width).map fun index =>
        cutoffAfter converters records tasks chunk (owned tasks chunk region.claims index))
      .inactive = chunkCutoff converters records tasks chunk failed := by
  apply firstWarningCutoff_eq rfl
  · intro cutoff hcutoff hactive
    obtain ⟨index, -, rfl⟩ := List.mem_map.mp hcutoff
    rcases cutoffAfter_cases (owned tasks chunk region.claims index) with
      ⟨hinactive, -⟩ | ⟨number, -, hne, heq⟩
    · rw [hinactive] at hactive
      exact absurd hactive (by simp [WarningCutoff.inactive])
    · rw [heq]
      have hle : failed ≤ number := by
        by_contra hlt
        exact hne (hbelow number (Nat.not_le.mp hlt))
      rcases Nat.lt_or_eq_of_le hle with hlt | rfl
      · exact .inr (Nat.mul_lt_mul_of_pos_right hlt hdone.chunk_pos)
      · exact .inl rfl
  · intro hactive
    exact absurd hactive (by simp [WarningCutoff.inactive])
  · right
    obtain ⟨index, hindex, howned⟩ := hdone.exists_owned hnumber hbelow
    refine List.mem_map.mpr ⟨index, List.mem_range.mpr (by omega), ?_⟩
    exact cutoffAfter_owned hdone hindex howned hthrows

/-- The merged rows, cut at the first failure, are the warnings of the chunks in
order up to the first that fails. -/
theorem emitChunks_owned {width : Nat} (hwidth : workers ≤ width) :
    emitChunks (firstWarningCutoff ((List.range width).map fun index =>
          cutoffAfter converters records tasks chunk (owned tasks chunk region.claims index))
        .inactive)
        ((List.range (min region.claims.length (chunkCount tasks chunk))).filterMap
          (chunkRecord converters records tasks chunk)) =
      (executed (chunkEnds converters records tasks chunk)
        (List.range (chunkCount tasks chunk))).flatMap
          (chunkPushed converters records tasks chunk) := by
  have hstops : ∀ number < chunkCount tasks chunk,
      chunkEnds converters records tasks chunk number ≠ .stopsEarly :=
    fun number _ => chunkEnds_ne_stopsEarly converters records tasks chunk number
  rcases first_throws_cases hstops with hall | ⟨failed, message, hfailed, hbelow, hthrows⟩
  · have hdrained := Nat.min_eq_right (hdone.chunkCount_le_claims hall)
    rw [hdrained, executed_of_next fun number hnumber => hall number (List.mem_range.mp hnumber),
      firstWarningCutoff_inactive, emitChunks_inactive]
    intro cutoff hcutoff
    obtain ⟨index, -, rfl⟩ := List.mem_map.mp hcutoff
    rcases cutoffAfter_cases (owned tasks chunk region.claims index) with
      ⟨hinactive, -⟩ | ⟨number, hnumber, hne, -⟩
    · exact hinactive
    · exact absurd (hall number (mem_owned.mp hnumber).1) hne
  · have hwon : failed < min region.claims.length (chunkCount tasks chunk) := by
      obtain ⟨index, -, howned⟩ := hdone.exists_owned hfailed hbelow
      exact lt_min (List.getElem?_eq_some_iff.mp (mem_owned.mp howned).2).1 hfailed
    rw [firstWarningCutoff_owned hdone hwidth hfailed hbelow hthrows, range_split hwon,
      emitChunks_cutoff hdone.chunk_pos, range_split hfailed, executed_of_first]
    · exact fun earlier hearlier => hbelow earlier (List.mem_range.mp hearlier)
    · rw [hthrows]
      simp
    · exact fun number hnumber => List.mem_range.mp hnumber
    · intro number hnumber
      have := (List.mem_range'_1.mp hnumber).1
      omega

end Completed

/-- What the workers of a conversion leave, unused ones included. -/
theorem recorded_of_runParallel {converters : Converters Input} {records : List (Option Input)}
    (hopening : converters.opening = none) {plan : ParallelPlan}
    {memory : Nat → Option (Option (List UInt8))} {schedule : List Nat}
    {regionEnd : RegionEnd ConversionState (Option (List UInt8)) NativeError}
    (hrun : runParallel plan records.length (conversionBody converters records) memory schedule =
      some regionEnd) (index : Nat) :
    (regionEnd.final.worker index).state =
      ⟨[], (owned records.length (regionChunk plan) regionEnd.final.claims index).filterMap
          (chunkRecord converters records records.length (regionChunk plan)),
        cutoffAfter converters records records.length (regionChunk plan)
          (owned records.length (regionChunk plan) regionEnd.final.claims index)⟩ := by
  obtain ⟨hdone, -, -⟩ := completed_of_runRegion
    (conversionSpec hopening (regionWorkers plan records.length))
    (fun number ending entries hpost => hpost) hrun
  by_cases hindex : index < regionWorkers plan records.length
  · exact hdone.history_owned hindex
  · have hnone : owned records.length (regionChunk plan) regionEnd.final.claims index = [] := by
      apply List.eq_nil_iff_forall_not_mem.mpr
      intro number hnumber
      exact hindex (hdone.lt_workers_of_owned hnumber)
    rw [state_of_runRegion_of_le hrun (Nat.not_lt.mp hindex), hnone]
    rfl

/-- The emission after a region gives the warnings of the records in order, up to
the first that fails. -/
theorem emitted_of_runParallel {converters : Converters Input} {records : List (Option Input)}
    (hopening : converters.opening = none) {plan : ParallelPlan} (hworkers : 1 ≤ plan.workers)
    {memory : Nat → Option (Option (List UInt8))} {schedule : List Nat}
    {regionEnd : RegionEnd ConversionState (Option (List UInt8)) NativeError}
    (hrun : runParallel plan records.length (conversionBody converters records) memory schedule =
      some regionEnd) :
    emitConversionWarnings []
        ((List.range plan.workers).map fun index =>
          ⟨0, (regionEnd.final.worker index).state.chunks⟩)
        ((List.range plan.workers).map fun index => (regionEnd.final.worker index).state.cutoff)
        .inactive =
      (executed (recordEnds converters records) (List.range records.length)).flatMap
        (pushed converters records) := by
  obtain ⟨hdone, -, -⟩ := completed_of_runRegion
    (conversionSpec hopening (regionWorkers plan records.length))
    (fun number ending entries hpost => hpost) hrun
  have hwidth : regionWorkers plan records.length ≤ plan.workers := by
    unfold regionWorkers
    split <;> omega
  have hwinners : ∀ index ∈ regionEnd.final.claims, index < plan.workers :=
    fun index hindex => (hdone.invariant.winners index hindex).trans_le hwidth
  have hmerged := merged_rows converters records records.length hdone.chunk_pos hwinners
  have hlength := hmerged.perm.length_eq
  rw [← flatMap_chunkRange records.length hdone.chunk_pos, executed_flatMap, List.flatMap_assoc]
  simp only [recorded_of_runParallel hopening hrun, emitConversionWarnings]
  refine Eq.trans ?_ (emitChunks_owned hdone hwidth)
  apply emitRows_eq
  · rw [List.map_map]
    exact hmerged
  · rw [← hlength, List.length_flatten, List.map_map, List.map_map]
    exact Nat.lt_succ_self _

/-! ## The serial loop -/

/-- The warnings a loop over the records pushes. -/
def serialPushed (converters : Converters Input) : List (Option Input) → List String
  | [] => []
  | record :: rest =>
      match recordOutcome converters record with
      | (messages, none) => messages ++ serialPushed converters rest
      | (messages, some _) => messages

/-- The warnings of the tasks up to the first failure are those of the serial loop. -/
theorem executed_pushed (converters : Converters Input) (before rest : List (Option Input)) :
    (executed (recordEnds converters (before ++ rest))
        (List.range' before.length rest.length)).flatMap (pushed converters (before ++ rest)) =
      serialPushed converters rest := by
  induction rest generalizing before with
  | nil => rfl
  | cons record rest ih =>
      have hrecord : (before ++ record :: rest).getD before.length none = record := by
        simp [List.getD_eq_getElem?_getD]
      have hnext := ih (before ++ [record])
      rw [List.append_assoc, List.singleton_append, List.length_append,
        List.length_singleton] at hnext
      rw [List.length_cons, List.range'_succ, executed, serialPushed]
      have hends : recordEnds converters (before ++ record :: rest) before.length =
          taskEnding ((recordOutcome converters record).2.map NativeError.text) := by
        rw [recordEnds, hrecord]
      have hpushed : pushed converters (before ++ record :: rest) before.length =
          (recordOutcome converters record).1 := by
        rw [pushed, hrecord]
      rw [hends]
      rcases houtcome : recordOutcome converters record with ⟨messages, _ | error⟩
      · rw [houtcome] at hpushed
        simp only [Option.map_none, taskEnding, List.flatMap_cons, hpushed, hnext]
      · rw [houtcome] at hpushed
        simp only [Option.map_some, taskEnding, List.flatMap_cons, List.flatMap_nil,
          List.append_nil, hpushed]

/-- The serial loop pushes what the records do that survive the native prepass. -/
theorem serialLoop_warnings (converters : Converters Input) (records : List (Option Input))
    (index : Nat) (warnings : List String) (output : Nat → Option (Option (List UInt8))) :
    (serialLoop converters index records warnings output).warnings =
      warnings ++ serialPushed converters (workRecords converters records).1 := by
  induction records generalizing index warnings output with
  | nil =>
      unfold workRecords
      split <;> simp [serialLoop, preconvertNativeRecords, serialPushed]
  | cons record rest ih =>
      cases record with
      | none =>
          rw [serialLoop, ih]
          unfold workRecords
          split
          next => rfl
          next => rfl
      | some input =>
          unfold workRecords at ih ⊢
          rw [serialLoop]
          split
          next error herror =>
            -- only the native conversion fails here
            split at herror
            next hnative =>
              rw [if_pos hnative, preconvertNativeRecords, herror]
              simp [serialPushed]
            next => exact absurd herror (by simp)
          next converted hconverted =>
            have hfront : (if converters.nativeInput then
                preconvertNativeRecords converters (some input :: rest)
                else (some input :: rest, none)).1 =
              some converted :: (if converters.nativeInput then
                preconvertNativeRecords converters rest else (rest, none)).1 := by
              split at hconverted
              next hnative =>
                rw [if_pos hnative, if_pos hnative, preconvertNativeRecords, hconverted]
              next hnative =>
                rw [if_neg hnative, if_neg hnative, Except.ok.inj hconverted]
            rw [hfront, serialPushed, recordOutcome]
            rcases converters.convertRecord converted with ⟨messages, error | data⟩
            · rfl
            · simp only [ih, List.append_assoc]

/-- The serial loop emits what it warns of. -/
theorem serialLoop_emitted (converters : Converters Input) (records : List (Option Input))
    (index : Nat) (warnings : List String) (output : Nat → Option (Option (List UInt8))) :
    (serialLoop converters index records warnings output).emitted =
      (serialLoop converters index records warnings output).warnings := by
  have hqueue : ∀ messages : List String,
      emitConversionWarnings messages [] [] .inactive = messages := by
    intro messages
    simp [emitConversionWarnings, emit, emitPrefix_length, emitRows, RowMerge.lowestRow,
      RowMerge.scan]
  induction records generalizing index warnings output with
  | nil => exact hqueue warnings
  | cons record rest ih =>
      cases record with
      | none => exact ih _ _ _
      | some input =>
          rw [serialLoop]
          split
          next => exact hqueue warnings
          next converted _ =>
            rcases converters.convertRecord converted with ⟨messages, error | data⟩
            · exact hqueue (warnings ++ messages)
            · exact ih _ _ _

/-- The threaded part is a region over the records of the prepass and the rows
it leaves. -/
theorem transcodeThreaded_cases (converters : Converters Input)
    (planFor : Nat → ParallelPlan) (records : List (Option Input)) (schedule : List Nat) :
    let prepared := (workRecords converters records).1
    let plan := planFor prepared.length
    let region := runParallel plan prepared.length (conversionBody converters prepared)
      (fun _ => none) schedule
    (transcodeThreaded converters planFor records schedule).isSome = region.isSome ∧
      ∀ ended, transcodeThreaded converters planFor records schedule = some ended →
        ∃ regionEnd, region = some regionEnd ∧
          ended.emitted = emitConversionWarnings []
            ((List.range plan.workers).map fun index =>
              ⟨0, (regionEnd.final.worker index).state.chunks⟩)
            ((List.range plan.workers).map fun index =>
              (regionEnd.final.worker index).state.cutoff) .inactive := by
  unfold transcodeThreaded
  rcases workRecords converters records with ⟨prepared, nativeError⟩
  simp only
  cases runParallel (planFor prepared.length) prepared.length
      (conversionBody converters prepared) (fun _ => none) schedule with
  | none => exact ⟨rfl, by simp⟩
  | some regionEnd =>
      refine ⟨rfl, ?_⟩
      rintro ended ⟨⟩
      exact ⟨regionEnd, rfl, rfl⟩

/-- The warnings a conversion emits are those of a loop over its records in
order, stopped in the first one that fails: on every plan with a worker and for
every schedule, and so for all settings. -/
theorem transcode_emits_serial_warnings (converters : Converters Input)
    (hopening : converters.opening = none) (records : List (Option Input))
    (schedule : List Nat) :
    let serial := serialLoop converters 0 records [] fun _ => none
    let tasks := (workRecords converters records).1.length
    (∀ planFor : Nat → ParallelPlan, (∀ tasks, 1 ≤ (planFor tasks).workers) →
      ((∀ index < regionWorkers (planFor tasks) tasks,
          scheduleBound (planFor tasks) tasks < schedule.count index) →
        (transcodeThreaded converters planFor records schedule).isSome = true) ∧
      ∀ ended, transcodeThreaded converters planFor records schedule = some ended →
        ended.emitted = serial.warnings) ∧
    ∀ settings,
      ((∀ index < (parallelPlan settings true tasks).workers,
          scheduleBound (parallelPlan settings true tasks) tasks < schedule.count index) →
        (transcodeRecords converters settings records schedule).isSome = true) ∧
      ∀ ended, transcodeRecords converters settings records schedule = some ended →
        ended.emitted = serial.warnings := by
  intro serial tasks
  have hthreaded : ∀ planFor : Nat → ParallelPlan, (∀ tasks, 1 ≤ (planFor tasks).workers) →
      ((∀ index < regionWorkers (planFor tasks) tasks,
          scheduleBound (planFor tasks) tasks < schedule.count index) →
        (transcodeThreaded converters planFor records schedule).isSome = true) ∧
      ∀ ended, transcodeThreaded converters planFor records schedule = some ended →
        ended.emitted = serial.warnings := by
    intro planFor hworkers
    obtain ⟨hsome, hended⟩ := transcodeThreaded_cases converters planFor records schedule
    -- a fair schedule ends the region
    constructor
    · intro hfair
      rw [hsome]
      exact runRegion_isSome_of_fair _ _ _ _ false schedule hfair
    · intro ended heq
      -- the region emits what its work list pushes in order, and so does the serial loop
      obtain ⟨regionEnd, hrun, hemitted⟩ := hended ended heq
      rw [hemitted, emitted_of_runParallel hopening (hworkers _) hrun,
        serialLoop_warnings converters records 0 [], List.range_eq_range']
      exact executed_pushed converters [] (workRecords converters records).1
  refine ⟨hthreaded, fun settings => ?_⟩
  have hplan : ∀ count, 1 ≤ (parallelPlan settings true count).workers := by
    intro count
    rw [← regionWorkers_parallelPlan]
    exact one_le_regionWorkers _ _
  obtain ⟨hfair, hemitted⟩ := hthreaded (parallelPlan settings true) hplan
  rw [regionWorkers_parallelPlan] at hfair
  -- one worker runs the serial loop itself
  rw [transcodeRecords, hopening]
  simp only
  split
  next =>
    refine ⟨fun _ => rfl, ?_⟩
    rintro ended ⟨⟩
    exact serialLoop_emitted converters records 0 [] _
  next => exact ⟨hfair, hemitted⟩

/-- Converters over four inputs: one converts silently, one warns, one warns
twice and fails, and one is not valid in the native encoding. -/
def sampleConverters : Converters (Fin 4) where
  opening := none
  nativeInput := true
  native input := if input = 3 then .error (.runtimeError "invalid native input") else .ok input
  transcode
    | 0 => ([], .ok [65])
    | 1 => (["lossy conversion"], .ok [26])
    | _ => (["truncated input", "lossy conversion"], .error (.runtimeError "conversion failed"))
  rawOutput := false

/-- Six records in chunks of two over two workers: the prepass stops before the
last, and the second chunk fails. -/
theorem transcode_emits_three_warnings :
    ∃ ended, transcodeThreaded sampleConverters (fun _ => ⟨2, 2⟩)
        [some 1, none, some 0, some 2, some 1, some 3] ((List.range 60).map (· % 2)) =
          some ended ∧
      ended.emitted = ["lossy conversion", "truncated input", "lossy conversion"] := by
  obtain ⟨hplans, -⟩ := transcode_emits_serial_warnings sampleConverters rfl
    [some 1, none, some 0, some 2, some 1, some 3] ((List.range 60).map (· % 2))
  obtain ⟨hfair, hemitted⟩ := hplans (fun _ => ⟨2, 2⟩) (fun _ => by decide)
  obtain ⟨ended, hended⟩ := Option.isSome_iff_exists.mp (hfair (by decide))
  exact ⟨ended, hended, (hemitted ended hended).trans (by decide)⟩

end Charr.Encoding
