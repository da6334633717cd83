import Charr.Text.Normalize
import Mathlib.Algebra.GroupWithZero.Nat
import Mathlib.Data.List.Induction
import Mathlib.Data.List.Nodup
import Mathlib.Data.Set.Function
import Mathlib.Order.Interval.Set.Defs

/-!
# Slices of converted text

The arena that keeps converted strings in place, as it is written: slices that grow with what
is asked for, filled one after the other. What it hands out never overlaps and always fits,
and up to the names of addresses it is the arena that only counts.
-/

namespace Charr.Slices

/-- The size of the first slice. -/
def initialSliceBytes : Nat := 64

/-- The size that slices are doubled up to. -/
def maximumRegularSliceBytes : Nat := 262144

/-- A byte of a slice. -/
structure Address where
  slice : Nat
  offset : Nat
  deriving DecidableEq, Repr

/-- An address further on in the same slice. -/
def Address.move (address : Address) (bytes : Nat) : Address :=
  { address with offset := address.offset + bytes }

/-- The capacities of the slices, and the one that is being filled. -/
structure Arena where
  slices : List Nat
  current : Option Nat
  currentCapacity : Nat
  currentUsed : Nat
  deriving DecidableEq, Repr

namespace Arena

/-- An arena without a slice. -/
def empty : Arena := ⟨[], none, 0, 0⟩

/-- The capacity a slice has when nothing larger is asked for. -/
def regularBytes (arena : Arena) : Nat :=
  if arena.currentCapacity = 0 then initialSliceBytes
  else if arena.currentCapacity ≥ maximumRegularSliceBytes / 2 then maximumRegularSliceBytes
  else arena.currentCapacity * 2

/-- A new slice becomes the current one; it holds the request at least. -/
def startSlice (required : Nat) (arena : Arena) : Arena :=
  let capacity := max required arena.regularBytes
  ⟨arena.slices ++ [capacity], some arena.slices.length, capacity, 0⟩

/-- What is left of the current slice, as a `std::size_t` that would wrap around. -/
def room (arena : Arena) : Nat := toSize ((arena.currentCapacity : Int) - arena.currentUsed)

/-- Behind `current_`, or nowhere. -/
def cursor (arena : Arena) : Address := ⟨arena.current.getD 0, arena.currentUsed⟩

/-- Bytes of the current slice, or of a new one where they do not fit. -/
def allocate (bytes : Nat) (arena : Arena) : Address × Arena :=
  let arena := if arena.current = none ∨ bytes > arena.room then arena.startSlice bytes else arena
  (arena.cursor, { arena with currentUsed := arena.currentUsed + bytes })

/-- What the arena asserts of itself. -/
def valid (arena : Arena) : Bool :=
  arena.currentUsed ≤ arena.currentCapacity &&
    (arena.current = none) == (arena.currentCapacity = 0)

/-- A run of requests. -/
def allocateAll : List Nat → Arena → List Address × Arena
  | [], arena => ([], arena)
  | bytes :: rest, arena =>
      let (address, arena) := arena.allocate bytes
      let (addresses, arena) := allocateAll rest arena
      (address :: addresses, arena)

/-! ## One request -/

/-- What holds after `total` bytes were asked for. -/
structure Filled (arena : Arena) (total : Nat) : Prop where
  current_eq : arena.current = if arena.slices = [] then none else some (arena.slices.length - 1)
  capacity_eq : arena.currentCapacity = arena.slices.getLast?.getD 0
  used_le : arena.currentUsed ≤ arena.currentCapacity
  capacity_pos : ∀ capacity ∈ arena.slices, 0 < capacity
  capacity_le : arena.currentCapacity ≤ sizeMax
  /-- Each slice but the last was left with less room than what came next. -/
  older_le : arena.slices.dropLast.sum + arena.currentUsed ≤ 2 * total
  used_total : arena.currentUsed ≤ total
  last_le : arena.currentCapacity ≤ max initialSliceBytes (2 * total)

theorem filled_empty : Filled empty 0 :=
  ⟨rfl, rfl, Nat.le_refl 0, by simp [empty], Nat.zero_le _, Nat.le_refl 0, Nat.le_refl 0,
    Nat.zero_le _⟩

variable {arena : Arena} {total bytes : Nat}

/-- The room never wraps around. -/
theorem Filled.room_eq (hfilled : arena.Filled total) :
    arena.room = arena.currentCapacity - arena.currentUsed := by
  have hle := hfilled.used_le
  have hmax := hfilled.capacity_le
  rw [room, toSize_eq (by omega) (by omega)]
  omega

/-- An arena that is filled is valid. -/
theorem Filled.valid_eq (hfilled : arena.Filled total) : arena.valid = true := by
  have hsame : arena.current = none ↔ arena.currentCapacity = 0 := by
    rw [hfilled.current_eq, hfilled.capacity_eq]
    cases hslices : arena.slices.getLast? with
    | none =>
        rw [List.getLast?_eq_none_iff] at hslices
        simp [hslices]
    | some capacity =>
        have hmem := List.mem_of_getLast? hslices
        have hpositive := hfilled.capacity_pos capacity hmem
        simp [List.ne_nil_of_mem hmem, hpositive.ne']
  simp [valid, hfilled.used_le, hsame]

theorem regularBytes_pos (arena : Arena) : 0 < arena.regularBytes := by
  unfold regularBytes
  split
  · decide
  · split
    · decide
    · omega

/-- A new slice is at most twice the current one. -/
theorem regularBytes_le (arena : Arena) :
    arena.regularBytes ≤ max initialSliceBytes (2 * arena.currentCapacity) := by
  unfold regularBytes initialSliceBytes maximumRegularSliceBytes
  split
  · omega
  · split <;> omega

theorem regularBytes_le_maximum (arena : Arena) :
    arena.regularBytes ≤ maximumRegularSliceBytes := by
  unfold regularBytes initialSliceBytes maximumRegularSliceBytes
  split
  · omega
  · split <;> omega

/-- The slice a request is served from. -/
def served (bytes : Nat) (arena : Arena) : Arena :=
  if arena.current = none ∨ bytes > arena.room then arena.startSlice bytes else arena

theorem allocate_eq (bytes : Nat) (arena : Arena) :
    arena.allocate bytes = ((served bytes arena).cursor,
      { served bytes arena with currentUsed := (served bytes arena).currentUsed + bytes }) :=
  rfl

theorem sum_le_dropLast (slices : List Nat) :
    slices.sum ≤ slices.dropLast.sum + slices.getLast?.getD 0 := by
  induction slices using List.reverseRecOn with
  | nil => exact Nat.le_refl _
  | append_singleton slices capacity => simp

/-- A new slice keeps the arena filled. -/
theorem Filled.startSlice (hfilled : arena.Filled total) (hbytes : bytes ≤ sizeMax)
    (hopen : arena.current = none ∨ bytes > arena.room) :
    let next := arena.startSlice bytes
    { next with currentUsed := bytes }.Filled (total + bytes) := by
  have hregular := arena.regularBytes_le
  have hpositive := arena.regularBytes_pos
  have hmaximum := arena.regularBytes_le_maximum
  have hsizes : maximumRegularSliceBytes ≤ sizeMax := by decide
  have hused := hfilled.used_total
  -- What is left behind is less than what is asked for.
  have hleft : arena.slices.sum ≤ 2 * total + bytes ∧
      arena.currentCapacity ≤ total + bytes := by
    have holder := hfilled.older_le
    have hless : arena.currentCapacity ≤ arena.currentUsed + bytes := by
      rcases hopen with hnone | hlarge
      · have hempty : arena.currentCapacity = 0 := by
          have hvalid := hfilled.valid_eq
          simp only [valid, Bool.and_eq_true] at hvalid
          simpa [hnone] using hvalid.2
        omega
      · rw [hfilled.room_eq] at hlarge
        omega
    have hsum : arena.slices.sum ≤ arena.slices.dropLast.sum + arena.currentCapacity := by
      rw [hfilled.capacity_eq]
      exact sum_le_dropLast arena.slices
    omega
  constructor
  · simp [Arena.startSlice]
  · simp [Arena.startSlice]
  · exact Nat.le_max_left _ _
  · intro capacity hmem
    rcases List.mem_append.mp hmem with hold | hnew
    · exact hfilled.capacity_pos capacity hold
    · rw [List.mem_singleton.mp hnew]
      exact hpositive.trans_le (Nat.le_max_right _ _)
  · simp only [Arena.startSlice]
    omega
  · simp only [Arena.startSlice, List.dropLast_concat]
    omega
  · exact Nat.le_add_left _ _
  · simp only [Arena.startSlice]
    omega

/-- A request that fits goes into the slice that is being filled. -/
theorem Filled.fits (hfilled : arena.Filled total)
    (hfits : ¬ (arena.current = none ∨ bytes > arena.room)) :
    { arena with currentUsed := arena.currentUsed + bytes }.Filled (total + bytes) := by
  rw [not_or, hfilled.room_eq] at hfits
  have hroom := hfits.2
  have hle := hfilled.used_le
  have holder := hfilled.older_le
  have hlast := hfilled.last_le
  have hused := hfilled.used_total
  exact {
    current_eq := hfilled.current_eq
    capacity_eq := hfilled.capacity_eq
    used_le := by simp only; omega
    capacity_pos := hfilled.capacity_pos
    capacity_le := hfilled.capacity_le
    older_le := by simp only; omega
    used_total := by simp only; omega
    last_le := by simp only; omega }

/-- The bytes that were handed out for a request, and what holds behind it. -/
theorem Filled.allocate (hfilled : arena.Filled total) (hbytes : bytes ≤ sizeMax) :
    (arena.allocate bytes).2.Filled (total + bytes) := by
  rw [Arena.allocate_eq, served]
  split
  next hopen =>
    have hstart := hfilled.startSlice hbytes hopen
    simpa [Arena.startSlice] using hstart
  next hfits => exact hfilled.fits hfits

/-- Where a request is served, in an arena that only grows. -/
structure Served (before : Arena) (bytes : Nat) (address : Address) (after : Arena) : Prop where
  grows : before.slices <+: after.slices
  behind : before.cursor.slice < address.slice ∨
    before.cursor.slice = address.slice ∧ before.cursor.offset ≤ address.offset
  inside : ∃ capacity, after.slices[address.slice]? = some capacity ∧
    address.offset + bytes ≤ capacity
  cursor_eq : after.cursor = address.move bytes

/-- The cursor stands in the current slice. -/
theorem Filled.cursor_inside (hfilled : arena.Filled total) (hsome : arena.current ≠ none) :
    arena.slices[arena.cursor.slice]? = some arena.currentCapacity ∧
      arena.cursor.slice = arena.slices.length - 1 := by
  have hcurrent := hfilled.current_eq
  split at hcurrent
  · exact absurd hcurrent hsome
  next hslices =>
    have hslice : arena.cursor.slice = arena.slices.length - 1 := by
      rw [cursor, hcurrent]
      rfl
    refine ⟨?_, hslice⟩
    rw [hslice, hfilled.capacity_eq, ← List.getLast?_eq_getElem?]
    cases hlast : arena.slices.getLast? with
    | none => exact absurd (List.getLast?_eq_none_iff.mp hlast) hslices
    | some capacity => rfl

/-- A request is served inside a slice, behind those before. -/
theorem Filled.served (hfilled : arena.Filled total) :
    Served arena bytes (arena.allocate bytes).1 (arena.allocate bytes).2 := by
  rw [Arena.allocate_eq, Arena.served]
  split
  next hopen =>
    constructor
    · exact List.prefix_append _ _
    · by_cases hnone : arena.current = none
      · have hslices : arena.slices = [] := by
          have hcurrent := hfilled.current_eq
          split at hcurrent
          · assumption
          · rw [hnone] at hcurrent
            cases hcurrent
        have hcapacity := hfilled.capacity_eq
        have hle := hfilled.used_le
        rw [hslices] at hcapacity
        refine .inr ⟨by simp [cursor, Arena.startSlice, hnone, hslices], ?_⟩
        simp only [cursor, Arena.startSlice]
        simp only [List.getLast?_nil, Option.getD_none] at hcapacity
        omega
      · have hslice := (hfilled.cursor_inside hnone).2
        have hpositive : 0 < arena.slices.length := by
          obtain ⟨hget, -⟩ := hfilled.cursor_inside hnone
          rw [List.getElem?_eq_some_iff] at hget
          obtain ⟨hless, -⟩ := hget
          omega
        refine .inl ?_
        rw [hslice]
        simp only [cursor, Arena.startSlice, Option.getD_some]
        omega
    · refine ⟨max bytes arena.regularBytes, ?_, ?_⟩
      · simp [cursor, Arena.startSlice]
      · simp [cursor, Arena.startSlice]
    · simp [cursor, Arena.startSlice, Address.move]
  next hfits =>
    have hkept := (hfilled.fits hfits).used_le
    rw [not_or] at hfits
    refine ⟨List.prefix_rfl, .inr ⟨rfl, Nat.le_refl _⟩, ?_, rfl⟩
    exact ⟨arena.currentCapacity, (hfilled.cursor_inside hfits.1).1, hkept⟩

/-! ## Runs of requests -/

/-- One range lies in front of the other. -/
def Before (left right : Address × Nat) : Prop :=
  left.1.slice < right.1.slice ∨
    left.1.slice = right.1.slice ∧ left.1.offset + left.2 ≤ right.1.offset

/-- What a run of requests leaves. -/
structure Ran (arena : Arena) (requests : List Nat) (addresses : List Address) (final : Arena) :
    Prop where
  length_eq : addresses.length = requests.length
  grows : arena.slices <+: final.slices
  behind : ∀ range ∈ addresses.zip requests, Before (arena.cursor, 0) range
  ordered : (addresses.zip requests).Pairwise Before
  inside : ∀ range ∈ addresses.zip requests, ∃ capacity,
    final.slices[range.1.slice]? = some capacity ∧ range.1.offset + range.2 ≤ capacity

/-- Requests one after another are served in the slices of the arena. -/
theorem Filled.ran (hfilled : arena.Filled total) {requests : List Nat}
    (hsizes : ∀ bytes ∈ requests, bytes ≤ sizeMax) :
    Ran arena requests (allocateAll requests arena).1 (allocateAll requests arena).2 ∧
      (allocateAll requests arena).2.Filled (total + requests.sum) := by
  induction requests generalizing arena total with
  | nil =>
      refine ⟨⟨rfl, List.prefix_rfl, ?_, ?_, ?_⟩, hfilled⟩
      all_goals simp [allocateAll]
  | cons bytes rest ih =>
      obtain ⟨hbytes, hrest⟩ := List.forall_mem_cons.mp hsizes
      have hserved : Served arena bytes _ _ := hfilled.served
      obtain ⟨hran, hfinal⟩ := ih (hfilled.allocate hbytes) hrest
      have hstep : allocateAll (bytes :: rest) arena =
          ((arena.allocate bytes).1 :: (allocateAll rest (arena.allocate bytes).2).1,
            (allocateAll rest (arena.allocate bytes).2).2) := rfl
      rw [hstep, List.sum_cons, ← Nat.add_assoc]
      refine ⟨?_, hfinal⟩
      -- What comes later lies behind the cursor, which is behind this request.
      have hlater : ∀ range ∈ (allocateAll rest (arena.allocate bytes).2).1.zip rest,
          Before ((arena.allocate bytes).1, bytes) range := by
        intro range hrange
        have hbehind := hran.behind range hrange
        rw [hserved.cursor_eq] at hbehind
        exact hbehind
      constructor
      · simp [hran.length_eq]
      · exact hserved.grows.trans hran.grows
      · rw [List.zip_cons_cons, List.forall_mem_cons]
        refine ⟨hserved.behind, fun range hrange => ?_⟩
        have hfirst := hserved.behind
        have hsecond := hlater range hrange
        simp only [Before] at hfirst hsecond ⊢
        omega
      · rw [List.zip_cons_cons, List.pairwise_cons]
        exact ⟨hlater, hran.ordered⟩
      · rw [List.zip_cons_cons, List.forall_mem_cons]
        refine ⟨?_, hran.inside⟩
        obtain ⟨capacity, hget, hle⟩ := hserved.inside
        obtain ⟨added, hadded⟩ := hran.grows
        refine ⟨capacity, ?_, hle⟩
        rw [← hadded, List.getElem?_append_left (List.getElem?_eq_some_iff.mp hget).1, hget]

/-! ## The arena that only counts -/

/-- The addresses the arena that only counts hands out. -/
def countAll : List Nat → SliceArena → List Nat
  | [], _ => []
  | bytes :: rest, storage =>
      let (address, storage) := storage.allocate bytes
      address :: countAll rest storage

/-- Every byte that was handed out, in order. -/
def handedOut (ranges : List (Address × Nat)) : List Address :=
  ranges.flatMap fun range => (List.range range.2).map range.1.move

/-- Bytes of ranges that lie one in front of the other are all different. -/
theorem nodup_handedOut {ranges : List (Address × Nat)} (hordered : ranges.Pairwise Before) :
    (handedOut ranges).Nodup := by
  rw [handedOut, List.nodup_flatMap]
  constructor
  · intro range _
    refine List.Nodup.map ?_ List.nodup_range
    intro left right hsame
    have hoffset := congrArg Address.offset hsame
    simp only [Address.move] at hoffset
    omega
  · refine hordered.imp ?_
    rintro left right hbefore address hleft hright
    obtain ⟨first, hfirst, rfl⟩ := List.mem_map.mp hleft
    obtain ⟨second, -, hsame⟩ := List.mem_map.mp hright
    have hslice := congrArg Address.slice hsame
    have hoffset := congrArg Address.offset hsame
    rw [List.mem_range] at hfirst
    simp only [Before, Address.move] at hbefore hslice hoffset
    omega

/-- Every byte that was asked for is handed out. -/
theorem length_handedOut {addresses : List Address} {requests : List Nat}
    (hlength : addresses.length = requests.length) :
    (handedOut (addresses.zip requests)).length = requests.sum := by
  unfold handedOut
  rw [List.length_flatMap]
  simp only [List.length_map, List.length_range]
  rw [show (addresses.zip requests).map (fun range => range.2) = requests from
    List.map_snd_zip hlength.ge]

/-- The addresses of the model do not go down. -/
theorem next_le_countAll {requests : List Nat} (storage : SliceArena) {index : Nat}
    (hindex : index < requests.length) :
    storage.next ≤ (countAll requests storage).getD index 0 := by
  induction requests generalizing index storage with
  | nil => exact absurd hindex (Nat.not_lt_zero _)
  | cons bytes rest ih =>
      cases index with
      | zero => exact Nat.le_refl _
      | succ index =>
          have hlater := ih ⟨storage.next + bytes⟩ (Nat.lt_of_succ_lt_succ hindex)
          exact (Nat.le_add_right _ _).trans hlater

/-- The byte the counting arena puts at an address is where the slices have it. -/
theorem getElem?_handedOut {addresses : List Address} {requests : List Nat}
    (hlength : addresses.length = requests.length) {index offset : Nat} (storage : SliceArena)
    (hoffset : offset < requests.getD index 0) :
    (handedOut (addresses.zip requests))[(countAll requests storage).getD index 0 -
        storage.next + offset]? =
      some ((addresses.getD index ⟨0, 0⟩).move offset) := by
  induction requests generalizing addresses index storage with
  | nil => simp at hoffset
  | cons bytes rest ih =>
      obtain ⟨address, addresses, rfl⟩ := List.exists_cons_of_length_eq_add_one hlength
      have hfirst : ((List.range bytes).map address.move).length = bytes := by simp
      have hsplit : handedOut ((address :: addresses).zip (bytes :: rest)) =
          (List.range bytes).map address.move ++ handedOut (addresses.zip rest) := by
        rw [List.zip_cons_cons, handedOut, List.flatMap_cons]
        rfl
      rw [hsplit]
      cases index with
      | zero =>
          have hzero : (countAll (bytes :: rest) storage).getD 0 0 - storage.next + offset =
              offset := by
            simp [countAll, SliceArena.allocate]
          have hless : offset < bytes := hoffset
          rw [hzero, List.getElem?_append_left (by rwa [hfirst]), List.getElem?_map,
            List.getElem?_range hless]
          rfl
      | succ index =>
          have hindex : index < rest.length := by
            by_contra hout
            rw [List.getD_eq_getElem?_getD, List.getElem?_cons_succ,
              List.getElem?_eq_none (Nat.not_lt.mp hout)] at hoffset
            exact absurd hoffset (Nat.not_lt_zero _)
          have hlater := next_le_countAll (⟨storage.next + bytes⟩ : SliceArena) hindex
          have hget : (countAll (bytes :: rest) storage).getD (index + 1) 0 =
              (countAll rest ⟨storage.next + bytes⟩).getD index 0 := rfl
          have hposition : (countAll (bytes :: rest) storage).getD (index + 1) 0 -
              storage.next + offset - bytes =
              (countAll rest ⟨storage.next + bytes⟩).getD index 0 - (storage.next + bytes) +
                offset := by
            rw [hget]
            simp only at hlater
            omega
          rw [List.getElem?_append_right (by rw [hfirst, hget]; simp only at hlater; omega),
            hfirst, hposition]
          exact ih (Nat.succ.inj hlength) ⟨storage.next + bytes⟩ hoffset

theorem mem_zip_getD {addresses : List Address} {requests : List Nat}
    (hlength : addresses.length = requests.length) {index : Nat}
    (hindex : index < requests.length) :
    (addresses.getD index ⟨0, 0⟩, requests.getD index 0) ∈ addresses.zip requests := by
  rw [List.mem_iff_getElem?]
  refine ⟨index, ?_⟩
  rw [List.getElem?_zip_eq_some]
  simp [List.getD_eq_getElem?_getD, hindex, hlength]

end Arena

open Arena

/-- The slices keep every string that was put there, each in room of its own that fits in its
slice, and take at most four times what was asked for. Up to the names of the addresses they
are the arena that only counts. -/
theorem allocateAll_refines {requests : List Nat} (hsizes : ∀ bytes ∈ requests, bytes ≤ sizeMax) :
    let addresses := (allocateAll requests empty).1
    let final := (allocateAll requests empty).2
    final.valid = true ∧ final.slices.sum ≤ 4 * requests.sum + initialSliceBytes ∧
      (∀ index < requests.length, ∃ capacity,
        final.slices[(addresses.getD index ⟨0, 0⟩).slice]? = some capacity ∧
          (addresses.getD index ⟨0, 0⟩).offset + requests.getD index 0 ≤ capacity) ∧
      ∃ place : Nat → Address, Set.InjOn place (Set.Iio requests.sum) ∧
        ∀ index < requests.length, ∀ offset < requests.getD index 0,
          place ((countAll requests ⟨0⟩).getD index 0 + offset) =
            (addresses.getD index ⟨0, 0⟩).move offset := by
  obtain ⟨hran, hfinal⟩ := filled_empty.ran hsizes
  rw [Nat.zero_add] at hfinal
  refine ⟨hfinal.valid_eq, ?_, ?_, ?_⟩
  · have hsum := sum_le_dropLast (allocateAll requests empty).2.slices
    have holder := hfinal.older_le
    have hlast := hfinal.last_le
    rw [← hfinal.capacity_eq] at hsum
    omega
  · intro index hindex
    exact hran.inside _ (mem_zip_getD hran.length_eq hindex)
  · have hlength := length_handedOut hran.length_eq
    refine ⟨fun byte =>
      (handedOut ((allocateAll requests empty).1.zip requests)).getD byte ⟨0, 0⟩, ?_, ?_⟩
    · intro left hleft right hright hsame
      rw [Set.mem_Iio, ← hlength] at hleft hright
      simp only [List.getD_eq_getElem?_getD, List.getElem?_eq_getElem hleft,
        List.getElem?_eq_getElem hright, Option.getD_some] at hsame
      exact (nodup_handedOut hran.ordered).getElem_inj_iff.mp hsame
    · intro index _ offset hoffset
      have hget := getElem?_handedOut hran.length_eq ⟨0⟩ hoffset
      rw [Nat.sub_zero] at hget
      exact (List.getD_eq_getElem?_getD ..).trans (by rw [hget, Option.getD_some])

/-- Two requests in the first slices, one that needs a slice of its own, and one behind it. -/
theorem allocateAll_refines_four :
    let requests := [10, 60, 300000, 5]
    (allocateAll requests empty).2.valid = true ∧
      ∃ place : Nat → Address, Set.InjOn place (Set.Iio requests.sum) ∧
        ∀ index < requests.length, ∀ offset < requests.getD index 0,
          place ((countAll requests ⟨0⟩).getD index 0 + offset) =
            ((allocateAll requests empty).1.getD index ⟨0, 0⟩).move offset := by
  obtain ⟨hvalid, -, -, hplace⟩ := @allocateAll_refines [10, 60, 300000, 5] (by decide)
  exact ⟨hvalid, hplace⟩

end Charr.Slices
