import Charr.Collation.Ordering
import Charr.Library.LinearProbing

/-!
# The hashing pass over duplicates

The elements are walked through a hash table in traversal order. Complete prefixes
are compared exactly; an incomplete element is marked only when an earlier one has
the same bytes, and gives up after a few mismatches.
-/

namespace Charr.Collation

open LinearProbing

/-- An insert-only open-addressing table of element indices. -/
structure IndexHashTable where
  slots : List (Option Nat)
  mask : Nat

namespace IndexHashTable

/-- `max_size()` of a vector of 32-bit integers. -/
def maxSlots : Nat := 2 ^ 61 - 1

/-- Capacities are doubled until they hold twice the insertions. They pass the largest
size before the fuel is spent. -/
def growCapacity (count : Nat) : (fuel capacity : Nat) → Except NativeError Nat
  | 0, _ => .error (.lengthError "index hash table is too large")
  | fuel + 1, capacity =>
      if capacity < 2 * count then
        if maxSlots / 2 < capacity then
          .error (.lengthError "index hash table is too large")
        else growCapacity count fuel (capacity * 2)
      else .ok capacity

/-- An empty table with room for `count` entries at half load. -/
def reset (count : Nat) : Except NativeError IndexHashTable := do
  let capacity ← growCapacity count 64 1
  return ⟨List.replicate capacity none, capacity - 1⟩

variable (table : IndexHashTable)

/-- The slot where probing starts. -/
def firstSlot (hash : UInt64) : Nat := hash.toNat &&& table.mask

/-- The slot behind, around the end of the table. -/
def nextSlot (slot : Nat) : Nat := (slot + 1) &&& table.mask

/-- The table with an index in a slot. -/
def store (slot index : Nat) : IndexHashTable :=
  { table with slots := table.slots.set slot (some index) }

end IndexHashTable

/-- The finalizer of the hash. -/
def mixHash64 (value : UInt64) : UInt64 :=
  let value := value ^^^ (value >>> 30)
  let value := value * 0xbf58476d1ce4e5b9
  let value := value ^^^ (value >>> 27)
  let value := value * 0x94d049bb133111eb
  value ^^^ (value >>> 31)

/-- Bytes copied over a zeroed integer, least significant first. -/
def loadBytes (bytes : List UInt8) : UInt64 :=
  bytes.reverse.foldl packByte 0

/-- The length and the middle and last eight bytes of a string. -/
def sampleBytes (value : StringView) : UInt64 :=
  let size := toSize value.len
  let middle := if 8 ≤ size then loadBytes ((value.bytes.drop ((size - 8) / 2)).take 8) else 0
  let tail :=
    if 8 ≤ size then loadBytes ((value.bytes.drop (size - 8)).take 8)
    else if 0 < size then loadBytes (value.bytes.take size)
    else 0
  mixHash64 (mixHash64 (tail ^^^ UInt64.ofNat size) ^^^ middle)

/-- The first pass's equality: equal complete prefixes, or identical bytes. -/
def sameEntry (values : Inputs) (first second : CollationPrefix) : Bool :=
  if first.packed ≠ second.packed ∨ first.complete ≠ second.complete then false
  else if first.complete then true
  else sameBytes (values.view first.index) (values.view second.index)

/-- Mismatching entries an incomplete element may pass. -/
def probeLimit : Nat := 8

/-- The hash of a value: of its key if that decides, else of some of its bytes too. -/
def entryHash (values : Inputs) (keys : List CollationPrefix) (index : Nat) : UInt64 :=
  let key := keys.getD index default
  if key.complete then mixHash64 key.packed
  else mixHash64 (key.packed ^^^ sampleBytes (values.view index))

/-- The walk an element makes through the table. A walk through more slots than there
are does not end. -/
def probe (values : Inputs) (keys : List CollationPrefix) (table : IndexHashTable)
    (index : Nat) : Option (WalkEnd Nat) :=
  walk table.slots table.nextSlot
    (fun held => sameEntry values (keys.getD held default) (keys.getD index default))
    (if (keys.getD index default).complete then none else some probeLimit)
    table.slots.length (table.firstSlot (entryHash values keys index)) 0

/-- The table, whether a missing value was seen, and the marks so far. -/
structure FirstPass where
  table : IndexHashTable
  missingSeen : Bool
  output : List Int

/-- One element of the first pass; nothing if its walk does not end. -/
def firstPassStep (values : Inputs) (keys : List CollationPrefix) (pass : FirstPass)
    (index : Nat) : Option FirstPass :=
  if values.isNa index then
    some { pass with
      output := pass.output.set index (if pass.missingSeen then 1 else 0)
      missingSeen := true }
  else
    let output := pass.output.set index 0
    (probe values keys pass.table index).map fun walkEnd =>
      match walkEnd with
      | .vacant slot => { pass with table := pass.table.store slot index, output := output }
      | .found _ => { pass with output := output.set index 1 }
      | .stopped => { pass with output := output }

/-- Values are visited forwards, or from the last one back. -/
def traversalIndex (size : Nat) (fromLast : Bool) (step : Nat) : Nat :=
  if fromLast then size - 1 - step else step

/-- The elements in traversal order. -/
def traversal (size : Nat) (fromLast : Bool) : List Nat :=
  (List.range size).map (traversalIndex size fromLast)

/-- `j` comes before `i` in traversal order. -/
def earlier (fromLast : Bool) (j i : Nat) : Bool :=
  if fromLast then i < j else j < i

/-- Two elements collate equal, and missing ones are equal to each other. -/
def collatesEqual (values : Inputs) (collator : Collator) (j i : Nat) : Bool :=
  if values.isNa j || values.isNa i then values.isNa j && values.isNa i
  else collate values collator j i = .eq

/-- Some element earlier in traversal order collates equal. -/
def isDuplicate (values : Inputs) (collator : Collator) (fromLast : Bool) (i : Nat) : Bool :=
  (List.range values.size).any fun j => earlier fromLast j i && collatesEqual values collator j i

section Capacity

namespace IndexHashTable

/-- A table for as many values as R can have is a power of two of slots, twice as many as values. -/
theorem growCapacity_eq {count : Nat} (hcount : count ≤ intMax) (fuel exponent : Nat)
    (hfuel : 2 * count ≤ 2 ^ (exponent + fuel)) :
    ∃ found, growCapacity count (fuel + 1) (2 ^ exponent) = .ok (2 ^ found) ∧
      2 * count ≤ 2 ^ found := by
  induction fuel generalizing exponent with
  | zero =>
      refine ⟨exponent, ?_, hfuel⟩
      rw [growCapacity]
      exact if_neg (Nat.not_lt.mpr hfuel)
  | succ fuel ih =>
      rw [growCapacity]
      split
      next hsmall =>
        have hroom : ¬ maxSlots / 2 < 2 ^ exponent := by
          simp only [intMax, maxSlots] at hcount ⊢
          omega
        rw [if_neg hroom, ← Nat.pow_succ]
        exact ih (exponent + 1) (by rwa [Nat.succ_add_eq_add_succ])
      next hlarge => exact ⟨exponent, rfl, Nat.not_lt.mp hlarge⟩

/-- A fresh table is empty and at least twice as large as needed; masking a slot
number is taking it modulo the capacity. -/
theorem reset_spec {count : Nat} (hcount : count ≤ intMax) :
    ∃ table, reset count = .ok table ∧
      (∃ capacity, table.slots = List.replicate capacity none) ∧
      2 * count ≤ table.slots.length ∧
      ∀ n, n &&& table.mask = n % table.slots.length := by
  obtain ⟨found, hgrow, hlarge⟩ := growCapacity_eq hcount 63 0 (by
    simp only [intMax] at hcount
    omega)
  refine ⟨⟨List.replicate (2 ^ found) none, 2 ^ found - 1⟩, ?_, ?_, ?_, ?_⟩
  · rw [reset, show growCapacity count 64 1 = _ from hgrow]
    rfl
  · exact ⟨2 ^ found, rfl⟩
  · simpa using hlarge
  · intro n
    rw [List.length_replicate]
    exact Nat.and_two_pow_sub_one_eq_mod n found

end IndexHashTable

end Capacity

section Equality

variable {values : Inputs} {collator : Collator} {keys : List CollationPrefix} {i j : Nat}

/-- A duplicate collates equal to a value visited before it. -/
theorem isDuplicate_iff {fromLast : Bool} : isDuplicate values collator fromLast i ↔
    ∃ j < values.size, earlier fromLast j i ∧ collatesEqual values collator j i := by
  simp [isDuplicate]

/-- Values that are there are compared by the collator. -/
theorem collatesEqual_of_present (hj : values.isNa j = false) (hi : values.isNa i = false) :
    collatesEqual values collator j i ↔ collate values collator j i = .eq := by
  simp [collatesEqual, hj, hi]

/-- Missing values are equal to one another only. -/
theorem collatesEqual_of_missing (hi : values.isNa i = true) :
    collatesEqual values collator j i ↔ values.isNa j = true := by
  simp [collatesEqual, hi]

theorem present_of_collatesEqual (hequal : collatesEqual values collator j i)
    (hi : values.isNa i = false) :
    values.isNa j = false ∧ collate values collator j i = .eq := by
  cases hj : values.isNa j with
  | true => simp [collatesEqual, hj, hi] at hequal
  | false => exact ⟨rfl, (collatesEqual_of_present hj hi).mp hequal⟩

variable [Std.TransCmp collator.compare]

/-- What the table takes for the same entry collates equal. -/
theorem EqualityFacts.collate_of_sameEntry (hfacts : EqualityFacts collator values keys)
    (hj : values.isNa j = false) (hi : values.isNa i = false)
    (hsame : sameEntry values (keys.getD j default) (keys.getD i default)) :
    collate values collator j i = .eq := by
  unfold sameEntry at hsame
  split at hsame
  next => exact absurd hsame Bool.false_ne_true
  next hkey =>
    simp only [not_or, not_not] at hkey
    split at hsame
    next hcomplete =>
      exact hfacts.equal j i hj hi hcomplete (hkey.2 ▸ hcomplete) hkey.1
    next =>
      rw [hfacts.index_eq j (Inputs.lt_size hj), hfacts.index_eq i (Inputs.lt_size hi)] at hsame
      rw [collate, Inputs.text, Inputs.text, bytes_eq_of_sameBytes hsame]
      exact Std.ReflCmp.compare_self

omit [Std.TransCmp collator.compare] in
/-- A value that collates equal to a complete key is the same entry. -/
theorem EqualityFacts.sameEntry_of_collate (hfacts : EqualityFacts collator values keys)
    (hj : values.isNa j = false) (hi : values.isNa i = false)
    (hcomplete : (keys.getD i default).complete)
    (hequal : collate values collator j i = .eq) :
    sameEntry values (keys.getD j default) (keys.getD i default) := by
  obtain ⟨hpacked, hsame⟩ := hfacts.same j i hj hi hequal
  rw [sameEntry, if_neg (not_or.mpr ⟨not_not.mpr hpacked, not_not.mpr hsame⟩),
    if_pos (hsame ▸ hcomplete)]

end Equality

section Table

variable {values : Inputs} {collator : Collator} {keys : List CollationPrefix} {seen : List Nat}
  {table : IndexHashTable} {index : Nat}

/-- The slot an element's walk starts at, before it is reduced to the capacity. -/
def home (values : Inputs) (keys : List CollationPrefix) (index : Nat) : Nat :=
  (entryHash values keys index).toNat

/-- The table after the elements of `seen`: each complete one has its equal stored. -/
structure IndexHashTable.Holds (values : Inputs) (keys : List CollationPrefix) (seen : List Nat)
    (table : IndexHashTable) : Prop where
  masked : ∀ n, n &&& table.mask = n % table.slots.length
  capacity_le : values.present.length ≤ table.slots.length
  chained : Chained (home values keys) table.slots
  seen_of_stored : ∀ slot held, table.slots.getD slot none = some held →
    held ∈ seen ∧ values.isNa held = false
  stored_of_complete : ∀ i ∈ seen, values.isNa i = false → (keys.getD i default).complete →
    ∃ slot held, table.slots.getD slot none = some held ∧
      sameEntry values (keys.getD held default) (keys.getD i default)
  occupied_le : occupied table.slots ≤ seen.countP fun i => !values.isNa i

/-- As long as an element is still to come, its walk ends. -/
theorem IndexHashTable.Holds.exists_probe (hholds : table.Holds values keys seen)
    (hroom : seen.countP (fun i => !values.isNa i) < values.present.length) (index : Nat) :
    ∃ walkEnd, probe values keys table index = some walkEnd ∧
      walkEnd.Seen table.slots
        (fun held => sameEntry values (keys.getD held default) (keys.getD index default))
        (if (keys.getD index default).complete then none else some probeLimit)
        (home values keys index) := by
  have hoccupied : occupied table.slots < table.slots.length :=
    calc occupied table.slots
        ≤ seen.countP fun i => !values.isNa i := hholds.occupied_le
      _ < values.present.length := hroom
      _ ≤ table.slots.length := hholds.capacity_le
  have hnext (slot : Nat) : table.nextSlot slot = (slot + 1) % table.slots.length :=
    hholds.masked (slot + 1)
  have hfirst : table.firstSlot (entryHash values keys index) =
      position table.slots (home values keys index) 0 :=
    hholds.masked (home values keys index)
  obtain ⟨walkEnd, hwalk⟩ := exists_walkEnd hnext hoccupied (home values keys index) 0
  rw [← hfirst] at hwalk
  refine ⟨walkEnd, hwalk, ?_⟩
  rw [hfirst] at hwalk
  exact walk_seen hnext hwalk fun step hstep => absurd hstep (Nat.not_lt_zero step)

/-- An element whose equal is stored, or that need not be, leaves the table as it is. -/
theorem IndexHashTable.Holds.pass (hholds : table.Holds values keys seen)
    (hheld : values.isNa index = false → (keys.getD index default).complete →
      ∃ slot held, table.slots.getD slot none = some held ∧
        sameEntry values (keys.getD held default) (keys.getD index default)) :
    table.Holds values keys (seen ++ [index]) where
  masked := hholds.masked
  capacity_le := hholds.capacity_le
  chained := hholds.chained
  seen_of_stored slot held hget :=
    (hholds.seen_of_stored slot held hget).imp_left (List.mem_append_left _)
  stored_of_complete i hi hpresent hcomplete := by
    rcases List.mem_append.mp hi with hseen | hlast
    · exact hholds.stored_of_complete i hseen hpresent hcomplete
    · obtain rfl := List.mem_singleton.mp hlast
      exact hheld hpresent hcomplete
  occupied_le := by
    rw [List.countP_append]
    exact Nat.le_add_right_of_le hholds.occupied_le

theorem sameEntry_self (values : Inputs) (key : CollationPrefix) : sameEntry values key key := by
  rw [sameEntry, if_neg (by simp)]
  split
  next => rfl
  next => exact sameBytes_self _

/-- An element that met an empty slot is stored there. -/
theorem IndexHashTable.Holds.store (hholds : table.Holds values keys seen)
    (hpresent : values.isNa index = false) {slot last : Nat}
    (hempty : table.slots.getD slot none = none) (hslot : slot < table.slots.length)
    (hlast : slot = position table.slots (home values keys index) last)
    (hfull : Full table.slots (home values keys index) last) :
    (table.store slot index).Holds values keys (seen ++ [index]) where
  masked := by
    intro n
    rw [IndexHashTable.store, List.length_set]
    exact hholds.masked n
  capacity_le := by
    rw [IndexHashTable.store, List.length_set]
    exact hholds.capacity_le
  chained := hholds.chained.set hslot hlast hfull
  seen_of_stored other held hget := by
    by_cases hother : other = slot
    · rw [hother, IndexHashTable.store, getD_set_self hslot, Option.some_inj] at hget
      rw [← hget]
      exact ⟨List.mem_append_right _ List.mem_cons_self, hpresent⟩
    · rw [IndexHashTable.store, getD_set_ne hother] at hget
      exact (hholds.seen_of_stored other held hget).imp_left (List.mem_append_left _)
  stored_of_complete i hi hna hcomplete := by
    rcases List.mem_append.mp hi with hseen | hlast
    · obtain ⟨other, held, hget, hsame⟩ := hholds.stored_of_complete i hseen hna hcomplete
      refine ⟨other, held, ?_, hsame⟩
      rw [IndexHashTable.store, getD_set_ne, hget]
      rintro rfl
      exact absurd (hempty.symm.trans hget) (by simp)
    · obtain rfl := List.mem_singleton.mp hlast
      exact ⟨slot, i, getD_set_self hslot, sameEntry_self values _⟩
  occupied_le := by
    rw [IndexHashTable.store, occupied_set hslot hempty, List.countP_append]
    apply Nat.add_le_add hholds.occupied_le
    simp [hpresent]

variable [Std.TransCmp collator.compare]

/-- A complete element that met an empty slot has no equal in the table's history. -/
theorem IndexHashTable.Holds.not_collate (hholds : table.Holds values keys seen)
    (hfacts : EqualityFacts collator values keys) (hpresent : values.isNa index = false)
    (hcomplete : (keys.getD index default).complete) {last : Nat}
    (hempty : table.slots.getD (position table.slots (home values keys index) last) none = none)
    (hpassed : Passed table.slots
      (fun held => sameEntry values (keys.getD held default) (keys.getD index default))
      (home values keys index) last)
    {j : Nat} (hj : j ∈ seen) (hna : values.isNa j = false) :
    collate values collator j index ≠ .eq := by
  intro hequal
  obtain ⟨hpackedJ, hcompleteJ⟩ := hfacts.same j index hna hpresent hequal
  obtain ⟨slot, held, hget, hsame⟩ :=
    hholds.stored_of_complete j hj hna (hcompleteJ ▸ hcomplete)
  have hheld := (hholds.seen_of_stored slot held hget).2
  have hheldEqual : collate values collator held index = .eq :=
    Std.TransCmp.eq_trans (hfacts.collate_of_sameEntry hheld hna hsame) hequal
  obtain ⟨hpacked, hcompleteHeld⟩ := hfacts.same held index hheld hpresent hheldEqual
  -- the hash of a complete entry is that of its prefix
  have hhome : home values keys held = home values keys index := by
    rw [home, home, entryHash, entryHash, hpacked, hcompleteHeld, if_pos hcomplete,
      if_pos hcomplete]
  have hmiss := hholds.chained.miss_of_vacant hempty hpassed hget hhome
  rw [hfacts.sameEntry_of_collate hheld hpresent hcomplete hheldEqual] at hmiss
  exact Bool.noConfusion hmiss

end Table

section Passing

variable {values : Inputs} {collator : Collator} {keys : List CollationPrefix} {seen : List Nat}
  {fromLast : Bool} {index : Nat} {pass : FirstPass}

/-- A mark of the first pass is right, and is not missing where it can be given. -/
structure FirstMark (values : Inputs) (collator : Collator) (keys : List CollationPrefix)
    (fromLast : Bool) (i : Nat) (mark : Int) : Prop where
  bit : mark = 0 ∨ mark = 1
  sound : mark = 1 → isDuplicate values collator fromLast i
  exact_of : values.isNa i ∨ (keys.getD i default).complete →
    isDuplicate values collator fromLast i → mark = 1

/-- What the pass has established of the values it has seen. -/
structure FirstPass.Holds (values : Inputs) (collator : Collator) (keys : List CollationPrefix)
    (fromLast : Bool) (seen : List Nat) (pass : FirstPass) : Prop where
  table_holds : pass.table.Holds values keys seen
  missingSeen_eq : pass.missingSeen = seen.any values.isNa
  length_eq : pass.output.length = values.size
  marks : ∀ i ∈ seen, FirstMark values collator keys fromLast i (pass.output.getD i 0)

theorem FirstMark.zero (hnot : values.isNa index ∨ (keys.getD index default).complete →
    ¬ isDuplicate values collator fromLast index) :
    FirstMark values collator keys fromLast index 0 :=
  ⟨.inl rfl, fun hone => absurd hone (by decide), fun hexact hdup => absurd hdup (hnot hexact)⟩

theorem FirstMark.one (hdup : isDuplicate values collator fromLast index) :
    FirstMark values collator keys fromLast index 1 :=
  ⟨.inr rfl, fun _ => hdup, fun _ _ => rfl⟩

/-- Writing the mark of a new element keeps those of the others. -/
theorem marks_set {output : List Int} (hlength : output.length = values.size)
    (hmarks : ∀ i ∈ seen, FirstMark values collator keys fromLast i (output.getD i 0))
    (hnew : index ∉ seen) (hindex : index < values.size) {mark : Int}
    (hmark : FirstMark values collator keys fromLast index mark) :
    ∀ i ∈ seen ++ [index], FirstMark values collator keys fromLast i
      ((output.set index mark).getD i 0) := by
  intro i hi
  rcases List.mem_append.mp hi with hseen | hlast
  · have hne : index ≠ i := fun heq => hnew (heq ▸ hseen)
    rw [List.getD_eq_getElem?_getD, List.getElem?_set_ne hne, ← List.getD_eq_getElem?_getD]
    exact hmarks i hseen
  · obtain rfl := List.mem_singleton.mp hlast
    rw [List.getD_eq_getElem?_getD, List.getElem?_set_self (hlength ▸ hindex)]
    exact hmark

theorem earlier_irrefl (fromLast : Bool) (i : Nat) : earlier fromLast i i = false := by
  cases fromLast <;> simp [earlier]

/-- An element is a duplicate when one of those seen so far is its equal. -/
theorem isDuplicate_iff_seen
    (hseen : ∀ j, j ∈ seen ↔ j < values.size ∧ earlier fromLast j index) :
    isDuplicate values collator fromLast index ↔
      ∃ j ∈ seen, collatesEqual values collator j index := by
  rw [isDuplicate_iff]
  constructor
  · rintro ⟨j, hj, hearlier, hequal⟩
    exact ⟨j, (hseen j).mpr ⟨hj, hearlier⟩, hequal⟩
  · rintro ⟨j, hj, hequal⟩
    obtain ⟨hsize, hearlier⟩ := (hseen j).mp hj
    exact ⟨j, hsize, hearlier, hequal⟩

/-- The pass goes on over a missing value, which is a duplicate from the second on. -/
theorem FirstPass.Holds.missing_step (hholds : pass.Holds values collator keys fromLast seen)
    (hseen : ∀ j, j ∈ seen ↔ j < values.size ∧ earlier fromLast j index)
    (hindex : index < values.size) (hna : values.isNa index = true) :
    FirstPass.Holds values collator keys fromLast (seen ++ [index])
      { pass with
        output := pass.output.set index (if pass.missingSeen then 1 else 0)
        missingSeen := true } := by
  have hnew : index ∉ seen := fun hmem =>
    absurd ((hseen index).mp hmem).2 (by simp [earlier_irrefl])
  have hdup : isDuplicate values collator fromLast index ↔ pass.missingSeen = true := by
    rw [isDuplicate_iff_seen hseen, hholds.missingSeen_eq, List.any_eq_true]
    exact exists_congr fun j => and_congr_right fun _ => collatesEqual_of_missing hna
  refine ⟨hholds.table_holds.pass fun hpresent => ?_, ?_, ?_, ?_⟩
  · rw [hna] at hpresent
    exact Bool.noConfusion hpresent
  · simp [hna]
  · rw [List.length_set, hholds.length_eq]
  · apply marks_set hholds.length_eq hholds.marks hnew hindex
    split
    next hmissing => exact .one (hdup.mpr hmissing)
    next hmissing => exact .zero fun _ hdup' => hmissing (hdup.mp hdup')

/-- Every value is visited once. -/
theorem traversal_perm (size : Nat) (fromLast : Bool) :
    (traversal size fromLast).Perm (List.range size) := by
  cases fromLast with
  | false =>
      rw [traversal, show traversalIndex size false = id from rfl, List.map_id]
  | true =>
      have hreverse : traversal size true = (List.range size).reverse := by
        rw [List.range_eq_range', List.reverse_range']
        simp [traversal, traversalIndex]
      rw [hreverse]
      exact List.reverse_perm _

/-- Before a step, the elements earlier than its own have been seen. -/
theorem mem_traversed (fromLast : Bool) {size step : Nat} (hstep : step < size) (j : Nat) :
    j ∈ (List.range step).map (traversalIndex size fromLast) ↔
      j < size ∧ earlier fromLast j (traversalIndex size fromLast step) := by
  rw [List.mem_map]
  cases fromLast with
  | false =>
      simp only [traversalIndex, earlier, Bool.false_eq_true, if_false, decide_eq_true_eq,
        List.mem_range, exists_eq_right]
      omega
  | true =>
      simp only [traversalIndex, earlier, if_true, decide_eq_true_eq, List.mem_range]
      constructor
      · rintro ⟨other, hother, rfl⟩
        omega
      · rintro ⟨hj, hlt⟩
        exact ⟨size - 1 - j, by omega, by omega⟩

theorem traversalIndex_lt {size step : Nat} (hstep : step < size) :
    traversalIndex size fromLast step < size := by
  unfold traversalIndex
  split
  next => omega
  next => exact hstep

/-- An element that is not missing leaves room in the table for itself. -/
theorem countP_traversed_lt {step : Nat} (hstep : step < values.size)
    (hpresent : values.isNa (traversalIndex values.size fromLast step) = false) :
    ((List.range step).map (traversalIndex values.size fromLast)).countP
      (fun i => !values.isNa i) < values.present.length := by
  have hsublist : ((List.range (step + 1)).map (traversalIndex values.size fromLast)).Sublist
      (traversal values.size fromLast) := by
    apply List.Sublist.map
    exact List.range_sublist.mpr hstep
  calc ((List.range step).map (traversalIndex values.size fromLast)).countP
        (fun i => !values.isNa i)
      < ((List.range (step + 1)).map (traversalIndex values.size fromLast)).countP
          (fun i => !values.isNa i) := by
        rw [List.range_succ, List.map_append, List.countP_append]
        simp [hpresent]
    _ ≤ (traversal values.size fromLast).countP (fun i => !values.isNa i) :=
        hsublist.countP_le
    _ = values.present.length := by
        rw [(traversal_perm values.size fromLast).countP_eq, List.countP_eq_length_filter,
          Inputs.present]

variable [Std.TransCmp collator.compare]

/-- The pass goes on over a value, for which the table still has room. -/
theorem FirstPass.Holds.present_step (hholds : pass.Holds values collator keys fromLast seen)
    (hfacts : EqualityFacts collator values keys)
    (hseen : ∀ j, j ∈ seen ↔ j < values.size ∧ earlier fromLast j index)
    (hpresent : values.isNa index = false)
    (hroom : seen.countP (fun i => !values.isNa i) < values.present.length) :
    ∃ next, firstPassStep values keys pass index = some next ∧
      next.Holds values collator keys fromLast (seen ++ [index]) := by
  have hnew : index ∉ seen := fun hmem =>
    absurd ((hseen index).mp hmem).2 (by simp [earlier_irrefl])
  have hindex := Inputs.lt_size hpresent
  have hmissing : pass.missingSeen = (seen ++ [index]).any values.isNa := by
    rw [hholds.missingSeen_eq, List.any_append]
    simp [hpresent]
  have hmarks {mark : Int} (hmark : FirstMark values collator keys fromLast index mark) :=
    marks_set hholds.length_eq hholds.marks hnew hindex hmark
  obtain ⟨walkEnd, hprobe, hwalk⟩ := hholds.table_holds.exists_probe hroom index
  rw [firstPassStep, if_neg (by simp [hpresent])]
  simp only [hprobe, Option.map_some]
  -- the walk ends at a vacant slot, at an equal entry, or is given up for an incomplete key
  cases walkEnd with
  | vacant slot =>
      obtain ⟨hempty, last, hlast, hpassed⟩ := hwalk
      have hslots : 0 < pass.table.slots.length :=
        Nat.lt_of_lt_of_le (Nat.zero_lt_of_lt hroom) hholds.table_holds.capacity_le
      have hslot : slot < pass.table.slots.length := hlast ▸ position_lt hslots last
      refine ⟨_, rfl, ?_, hmissing, ?_, ?_⟩
      · apply hholds.table_holds.store hpresent hempty hslot hlast
        exact fun step hstep => (hpassed step hstep).imp fun held => And.left
      · rw [List.length_set, hholds.length_eq]
      · -- An equal value seen before would have been met on the way to the vacant slot.
        refine hmarks (.zero fun hexact hdup => ?_)
        have hcomplete := hexact.resolve_left (by simp [hpresent])
        obtain ⟨j, hj, hequal⟩ := (isDuplicate_iff_seen hseen).mp hdup
        obtain ⟨hna, hcollate⟩ := present_of_collatesEqual hequal hpresent
        exact hholds.table_holds.not_collate hfacts hpresent hcomplete (hlast ▸ hempty) hpassed
          hj hna hcollate
  | found held =>
      obtain ⟨hsame, slot, hget⟩ := hwalk
      refine ⟨_, rfl, ?_, hmissing, ?_, ?_⟩
      · exact hholds.table_holds.pass fun _ _ => ⟨slot, held, hget, hsame⟩
      · rw [List.length_set, List.length_set, hholds.length_eq]
      · obtain ⟨hheld, hna⟩ := hholds.table_holds.seen_of_stored slot held hget
        have hdup : isDuplicate values collator fromLast index :=
          (isDuplicate_iff_seen hseen).mpr ⟨held, hheld, (collatesEqual_of_present hna hpresent).mpr
            (hfacts.collate_of_sameEntry hna hpresent hsame)⟩
        rw [List.set_set]
        exact hmarks (.one hdup)
  | stopped =>
      have hincomplete : ¬ (keys.getD index default).complete := by
        intro hcomplete
        exact hwalk (if_pos hcomplete)
      refine ⟨_, rfl, ?_, hmissing, ?_, ?_⟩
      · exact hholds.table_holds.pass fun _ hcomplete => absurd hcomplete hincomplete
      · rw [List.length_set, hholds.length_eq]
      · refine hmarks (.zero fun hexact => ?_)
        exact absurd (hexact.resolve_left (by simp [hpresent])) hincomplete

/-- Every walk of the first pass ends, and its marks are right. -/
theorem firstPass_holds (hfacts : EqualityFacts collator values keys)
    (hstart : pass.Holds values collator keys fromLast []) {step : Nat}
    (hstep : step ≤ values.size) :
    ∃ last, ((List.range step).map (traversalIndex values.size fromLast)).foldlM
        (firstPassStep values keys) pass = some last ∧
      last.Holds values collator keys fromLast
        ((List.range step).map (traversalIndex values.size fromLast)) := by
  induction step with
  | zero => exact ⟨pass, rfl, hstart⟩
  | succ step ih =>
      obtain ⟨before, hrun, hholds⟩ := ih (Nat.le_of_succ_le hstep)
      rw [List.range_succ, List.map_append, List.foldlM_append, hrun]
      simp only [List.map_cons, List.map_nil, List.foldlM_cons, List.foldlM_nil,
        Option.bind_eq_bind, Option.bind_some, Option.pure_def, Option.bind_fun_some]
      have hseen := mem_traversed fromLast hstep
      cases hna : values.isNa (traversalIndex values.size fromLast step) with
      | true =>
          rw [firstPassStep, if_pos hna]
          exact ⟨_, rfl, hholds.missing_step hseen (traversalIndex_lt hstep) hna⟩
      | false =>
          exact hholds.present_step hfacts hseen hna (countP_traversed_lt hstep hna)

end Passing

end Charr.Collation
