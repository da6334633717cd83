import Charr.Library.RowMerge
import Charr.Text.StringView
import Mathlib.Algebra.GroupWithZero.Nat

/-!
# Joining the stores of the chunks

Output whose size is not known for each element is appended, chunk by chunk, to
the row of the worker that holds the chunk. Worker order says nothing about task
order, so every store is kept with the first task of its chunk, and the rows are
merged on that key.
-/

namespace Charr.Output

variable {Record Slice : Type}

/-- Records in order, with the payload they point into. -/
structure OutputStore (Record Slice : Type) where
  records : List (Option Record)
  slices : List Slice
  deriving DecidableEq

/-- A store and the first task of its chunk. -/
structure ChunkEntry (Record Slice : Type) where
  begin : Nat
  store : OutputStore Record Slice
  deriving DecidableEq

/-- `ChunkStores::open`: the row of a worker gets a store for the chunk. -/
def openChunk (row : List (ChunkEntry Record Slice)) (begin : Nat) :
    List (ChunkEntry Record Slice) :=
  row ++ [⟨begin, [], []⟩]

/-- Assign to `ChunkStores::current`. -/
def setCurrent (row : List (ChunkEntry Record Slice)) (store : OutputStore Record Slice) :
    Except NativeError (List (ChunkEntry Record Slice)) :=
  match row.getLast? with
  | none => .error (.logicError "chunk output used before its chunk opened")
  | some entry => .ok (row.dropLast ++ [{ entry with store }])

/-! ## Joining stores in a given order -/

/-- The error of more records than can be counted. -/
def outputTooLong : NativeError := .lengthError "character output is too long"

/-- The number of records of all stores. -/
def totalSize : Nat → List (OutputStore Record Slice) → Except NativeError Nat
  | total, [] => .ok total
  | total, store :: rest =>
      if store.records.length > sizeMax - total then .error outputTooLong
      else totalSize (total + store.records.length) rest

/-- Set the records from `position` on. -/
def setRecords : Nat → List (Option Record) → List (Option Record) → List (Option Record)
  | _, [], output => output
  | position, record :: rest, output => setRecords (position + 1) rest (output.set position record)

/-- Copy the stores one after the other and take over their payload. -/
def appendStores : Nat → List (OutputStore Record Slice) → OutputStore Record Slice →
    OutputStore Record Slice
  | _, [], output => output
  | position, store :: rest, output =>
      appendStores (position + store.records.length) rest
        ⟨setRecords position store.records output.records, store.slices ++ output.slices⟩

/-- The stores one after another, in an output that is reserved first. -/
def concatStores (stores : List (OutputStore Record Slice)) :
    Except NativeError (OutputStore Record Slice) := do
  let total ← totalSize 0 stores
  return appendStores 0 stores ⟨List.replicate total none, []⟩

/-! ## Merging the rows -/

/-- A row and the cursor into it. -/
structure RowCursor (Record Slice : Type) where
  row : List (ChunkEntry Record Slice)
  cursor : Nat

/-- The chunks of a worker that are not visited yet. -/
def RowCursor.remaining (cursor : RowCursor Record Slice) : List (ChunkEntry Record Slice) :=
  cursor.row.drop cursor.cursor

/-- The stores in the order of their keys. -/
def orderedStores : Nat → List (RowCursor Record Slice) → List (OutputStore Record Slice)
  | 0, _ => []
  | fuel + 1, rows =>
      match RowMerge.lowestRow ChunkEntry.begin (rows.map RowCursor.remaining) with
      | none => []
      | some (chosen, entry) =>
          entry.store :: orderedStores fuel
            (rows.modify chosen fun cursor => { cursor with cursor := cursor.cursor + 1 })

/-- The stores of all workers in the order of their chunks. -/
def concatenate (rows : List (List (ChunkEntry Record Slice))) :
    Except NativeError (OutputStore Record Slice) :=
  concatStores (orderedStores ((rows.map List.length).sum + 1) (rows.map fun row => ⟨row, 0⟩))

/-! ## The joined records -/

/-- The records are counted, if they can be. -/
theorem totalSize_eq (stores : List (OutputStore Record Slice)) {total : Nat}
    (htotal : total ≤ sizeMax) :
    totalSize total stores =
      if total + (stores.flatMap OutputStore.records).length ≤ sizeMax then
        .ok (total + (stores.flatMap OutputStore.records).length)
      else .error outputTooLong := by
  induction stores generalizing total with
  | nil => simp [totalSize, htotal]
  | cons store rest ih =>
      rw [totalSize, List.flatMap_cons, List.length_append]
      by_cases hfits : store.records.length > sizeMax - total
      · rw [if_pos hfits, if_neg (by omega)]
      · rw [if_neg hfits, ih (by omega), Nat.add_assoc]

/-- Records are set behind those that are done. -/
theorem setRecords_eq (records : List (Option Record)) (done rest : List (Option Record))
    (hrest : records.length ≤ rest.length) :
    setRecords done.length records (done ++ rest) =
      done ++ records ++ rest.drop records.length := by
  induction records generalizing done rest with
  | nil => simp [setRecords]
  | cons record records ih =>
      cases rest with
      | nil => simp at hrest
      | cons head tail =>
          have hset : (done ++ head :: tail).set done.length record =
              (done ++ [record]) ++ tail := by
            simp
          have hnext := ih (done ++ [record]) tail (by simpa using hrest)
          rw [setRecords, hset]
          simpa [List.append_assoc] using hnext

/-- Records that fill all the slots. -/
theorem setRecords_all (records : List (Option Record)) :
    setRecords 0 records (List.replicate records.length none) = records := by
  have hset := setRecords_eq records [] (List.replicate records.length none) (by simp)
  simpa using hset

/-- The copies stand one after the other, and every payload is kept. -/
theorem appendStores_eq (stores : List (OutputStore Record Slice))
    (done rest : List (Option Record)) (slices : List Slice)
    (hrest : rest.length = (stores.flatMap OutputStore.records).length) :
    appendStores done.length stores ⟨done ++ rest, slices⟩ =
      ⟨done ++ stores.flatMap OutputStore.records,
        stores.reverse.flatMap OutputStore.slices ++ slices⟩ := by
  induction stores generalizing done rest slices with
  | nil =>
      obtain rfl : rest = [] := List.length_eq_zero_iff.mp (by simpa using hrest)
      rfl
  | cons store stores ih =>
      rw [List.flatMap_cons, List.length_append] at hrest
      have hnext := ih (done ++ store.records) (rest.drop store.records.length)
        (store.slices ++ slices) (by rw [List.length_drop]; omega)
      rw [List.length_append] at hnext
      rw [appendStores, setRecords_eq _ _ _ (by omega), hnext]
      simp [List.append_assoc]

/-- The stores one after another, if their records can be counted. -/
theorem concatStores_eq (stores : List (OutputStore Record Slice)) :
    concatStores stores =
      if (stores.flatMap OutputStore.records).length ≤ sizeMax then
        .ok ⟨stores.flatMap OutputStore.records, stores.reverse.flatMap OutputStore.slices⟩
      else .error outputTooLong := by
  rw [concatStores, totalSize_eq stores (Nat.zero_le _), Nat.zero_add]
  by_cases hfits : (stores.flatMap OutputStore.records).length ≤ sizeMax
  · have happend := appendStores_eq stores []
      (List.replicate (stores.flatMap OutputStore.records).length none) []
      List.length_replicate
    rw [if_pos hfits, if_pos hfits]
    simpa [bind, Except.bind, pure, Except.pure] using happend
  · rw [if_neg hfits, if_neg hfits]
    rfl

/-! ## The merge -/

/-- The stores are visited in the order of their chunks. -/
theorem orderedStores_eq {rows : List (RowCursor Record Slice)}
    {entries : List (ChunkEntry Record Slice)}
    (hmerged : RowMerge.Merged ChunkEntry.begin (rows.map RowCursor.remaining) entries)
    {fuel : Nat} (hfuel : entries.length < fuel) :
    orderedStores fuel rows = entries.map ChunkEntry.store := by
  induction entries generalizing rows fuel with
  | nil =>
      obtain ⟨fuel, rfl⟩ : ∃ less, fuel = less + 1 := ⟨fuel - 1, by omega⟩
      rw [orderedStores, hmerged.done]
      rfl
  | cons entry rest ih =>
      obtain ⟨fuel, rfl⟩ : ∃ less, fuel = less + 1 := ⟨fuel - 1, by omega⟩
      obtain ⟨next, tail, hlowest, hget, hnext⟩ := hmerged.next
      rw [List.length_cons] at hfuel
      have hadvance := RowMerge.map_modify_eq_set RowCursor.remaining
        (fun cursor => { cursor with cursor := cursor.cursor + 1 })
        (fun cursor => (List.tail_drop ..).symm) hget
      rw [← hadvance] at hnext
      rw [orderedStores, hlowest]
      simp only [List.map_cons]
      rw [ih hnext (by omega)]

/-! ## Chunks of one range -/

/-- Chunks that follow each other from `start` to `tasks`, none of them empty. -/
def Consecutive (tasks : Nat) : Nat → List (Nat × Nat) → Prop
  | start, [] => start = tasks
  | start, chunk :: rest => chunk.1 = start ∧ chunk.1 < chunk.2 ∧ Consecutive tasks chunk.2 rest

section Chunks

variable {tasks start : Nat} {chunks : List (Nat × Nat)}

theorem Consecutive.start_le (hchunks : Consecutive tasks start chunks) : start ≤ tasks := by
  induction chunks generalizing start with
  | nil => exact hchunks.le
  | cons chunk rest ih =>
      obtain ⟨rfl, hlt, hrest⟩ := hchunks
      exact hlt.le.trans (ih hrest)

theorem Consecutive.le_begin (hchunks : Consecutive tasks start chunks) {chunk : Nat × Nat}
    (hchunk : chunk ∈ chunks) : start ≤ chunk.1 := by
  induction chunks generalizing start with
  | nil => exact absurd hchunk List.not_mem_nil
  | cons first rest ih =>
      obtain ⟨rfl, hlt, hrest⟩ := hchunks
      rcases List.mem_cons.mp hchunk with rfl | hmem
      · exact le_rfl
      · exact hlt.le.trans (ih hrest hmem)

/-- Consecutive chunks are in order. -/
theorem Consecutive.sorted (hchunks : Consecutive tasks start chunks) :
    chunks.Pairwise fun earlier later => earlier.1 < later.1 := by
  induction chunks generalizing start with
  | nil => exact .nil
  | cons chunk rest ih =>
      obtain ⟨rfl, hlt, hrest⟩ := hchunks
      refine .cons ?_ (ih hrest)
      intro later hlater
      exact hlt.trans_le (hrest.le_begin hlater)

/-- The chunks hold every task once, in order. -/
theorem Consecutive.flatMap_range (hchunks : Consecutive tasks start chunks) :
    chunks.flatMap (fun chunk => List.range' chunk.1 (chunk.2 - chunk.1)) =
      List.range' start (tasks - start) := by
  induction chunks generalizing start with
  | nil =>
      obtain rfl := hchunks
      simp
  | cons chunk rest ih =>
      obtain ⟨rfl, hlt, hrest⟩ := hchunks
      have hend := hrest.start_le
      have hjoin := List.range'_append_1 (s := chunk.1) (m := chunk.2 - chunk.1)
        (n := tasks - chunk.2)
      rw [Nat.add_sub_cancel' hlt.le] at hjoin
      rw [List.flatMap_cons, ih hrest, hjoin]
      congr 1
      omega

end Chunks

/-- The entry a worker leaves for a chunk: what its tasks produced, in order. -/
def chunkEntry (produced : Nat → List (Option Record)) (slices : Nat × Nat → List Slice)
    (chunk : Nat × Nat) : ChunkEntry Record Slice :=
  ⟨chunk.1, (List.range' chunk.1 (chunk.2 - chunk.1)).flatMap produced, slices chunk⟩

/-- The stores of consecutive chunks hold what all tasks produced, in task order. -/
theorem records_chunkEntries (produced : Nat → List (Option Record))
    (slices : Nat × Nat → List Slice) {tasks : Nat} {chunks : List (Nat × Nat)}
    (hchunks : Consecutive tasks 0 chunks) :
    (chunks.map fun chunk => (chunkEntry produced slices chunk).store).flatMap
      OutputStore.records = (List.range tasks).flatMap produced := by
  have hrange := hchunks.flatMap_range
  rw [Nat.sub_zero, ← List.range_eq_range'] at hrange
  rw [List.flatMap_map]
  simp only [chunkEntry, ← hrange, List.flatMap_assoc]

/-- The rows are merged into the entries of all chunks, in the order of their keys. -/
theorem concatenate_rows (produced : Nat → List (Option Record))
    (slices : Nat × Nat → List Slice) {tasks : Nat} {chunks : List (Nat × Nat)}
    (hchunks : Consecutive tasks 0 chunks) {rows : List (List (Nat × Nat))}
    (hdealt : rows.flatten.Perm chunks)
    (hrows : ∀ row ∈ rows, row.Pairwise fun earlier later => earlier.1 < later.1) :
    concatenate (rows.map fun row => row.map (chunkEntry produced slices)) =
      concatStores (chunks.map fun chunk => (chunkEntry produced slices chunk).store) := by
  have hremaining : (rows.map fun row => row.map (chunkEntry produced slices)).map
      (fun row => (⟨row, 0⟩ : RowCursor Record Slice).remaining) =
        rows.map fun row => row.map (chunkEntry produced slices) := by
    simp [RowCursor.remaining]
  have hmerged : RowMerge.Merged ChunkEntry.begin
      ((rows.map fun row => row.map (chunkEntry produced slices)).map
        fun row => (⟨row, 0⟩ : RowCursor Record Slice).remaining)
      (chunks.map (chunkEntry produced slices)) := by
    rw [hremaining]
    refine ⟨?_, ?_, ?_⟩
    · rw [← List.map_flatten]
      exact hdealt.map _
    · exact List.pairwise_map.mpr hchunks.sorted
    · intro row hrow
      obtain ⟨source, hsource, rfl⟩ := List.mem_map.mp hrow
      exact List.pairwise_map.mpr (hrows source hsource)
  have hcount : ((rows.map fun row => row.map (chunkEntry produced slices)).map
      List.length).sum = (chunks.map (chunkEntry produced slices)).length := by
    rw [List.length_map, ← hdealt.length_eq, List.length_flatten, List.map_map]
    congr 1
    apply List.map_congr_left
    intro row _
    exact List.length_map _
  have hordered : orderedStores (((rows.map fun row => row.map (chunkEntry produced slices)).map
      List.length).sum + 1) ((rows.map fun row => row.map (chunkEntry produced slices)).map
        fun row => ⟨row, 0⟩) = (chunks.map (chunkEntry produced slices)).map ChunkEntry.store :=
    orderedStores_eq (by rwa [List.map_map]) (Nat.lt_succ_of_le hcount.ge)
  rw [concatenate, hordered, List.map_map]
  rfl

/-- However the chunks are dealt to the workers, joining their stores gives the
records of all tasks in task order, or fails when there are too many to count. -/
theorem concatenate_in_task_order (produced : Nat → List (Option Record))
    (slices : Nat × Nat → List Slice) {tasks : Nat} {chunks : List (Nat × Nat)}
    (hchunks : Consecutive tasks 0 chunks) {rows : List (List (Nat × Nat))}
    (hdealt : rows.flatten.Perm chunks)
    (hrows : ∀ row ∈ rows, row.Pairwise fun earlier later => earlier.1 < later.1) :
    let records := (List.range tasks).flatMap produced
    concatenate (rows.map fun row => row.map (chunkEntry produced slices)) =
      if records.length ≤ sizeMax then .ok ⟨records, chunks.reverse.flatMap slices⟩
      else .error outputTooLong := by
  intro records
  have hslices : (chunks.map fun chunk =>
      (chunkEntry produced slices chunk).store).reverse.flatMap OutputStore.slices =
        chunks.reverse.flatMap slices := by
    rw [← List.map_reverse, List.flatMap_map]
    rfl
  rw [concatenate_rows produced slices hchunks hdealt hrows, concatStores_eq,
    records_chunkEntries produced slices hchunks, hslices]

/-- Two workers, of which the first holds the outer chunks. -/
theorem concatenate_three_chunks :
    (concatenate [[⟨0, [some 10], [1]⟩, ⟨3, [some 13, none], [3]⟩], [], [⟨1, [some 11], [2]⟩]] :
      Except NativeError (OutputStore Nat Nat)) =
      .ok ⟨[some 10, some 11, some 13, none], [3, 2, 1]⟩ := by
  have hchunks : Consecutive 4 0 [(0, 1), (1, 3), (3, 4)] := by simp [Consecutive]
  have hdealt : [[(0, 1), (3, 4)], [], [(1, 3)]].flatten.Perm [(0, 1), (1, 3), (3, 4)] := by decide
  exact concatenate_in_task_order
    (fun task => if task = 3 then [some 13, none] else if task = 2 then [] else [some (10 + task)])
    (fun chunk => if chunk.1 = 0 then [1] else if chunk.1 = 1 then [2] else [3])
    hchunks hdealt (by decide)

end Charr.Output
