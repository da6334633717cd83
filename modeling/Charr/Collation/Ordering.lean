import Charr.Collation.Prefix
import Charr.Library.SortedRuns

/-!
# Ordering and ranking

The non-missing entries are shifted to the front of the vector, stable-sorted by
collation and then source index, and ranked through the sorted entries.
-/

namespace Charr.Collation

/-- Collation order in the requested direction, then source index ascending. -/
def entryLess (values : Inputs) (collator : Collator) (decreasing : Bool)
    (first second : CollationPrefix) : Bool :=
  let result := compareEntries values collator first second
  if result ≠ .eq then
    if decreasing then result = .gt else result = .lt
  else first.index < second.index

/-- `std::stable_sort` -/
def stableSort {Entry : Type*} (less : Entry → Entry → Bool) (entries : List Entry) :
    List Entry :=
  entries.mergeSort fun first second => !less second first

/-- Entries shifted to the front of their own vector, and how many. -/
structure Compaction where
  keys : List CollationPrefix
  size : Nat

/-- `keys[size++] = keys[i]` -/
def Compaction.keep (compaction : Compaction) (i : Nat) : Compaction :=
  ⟨compaction.keys.set compaction.size (compaction.keys.getD i default), compaction.size + 1⟩

/-- `keys.resize(size)` -/
def Compaction.resized (compaction : Compaction) : List CollationPrefix :=
  compaction.keys.take compaction.size

/-- The keys that are kept and the indices of the missing values. -/
structure Partition where
  kept : Compaction
  missing : List Nat

/-- One value goes to its part. -/
def partitionStep (values : Inputs) (parts : Partition) (i : Nat) : Partition :=
  if values.isNa i then { parts with missing := parts.missing ++ [i] }
  else { parts with kept := parts.kept.keep i }

/-- What `build_collation_order` leaves in the vectors of its caller. -/
structure CollationOrder where
  keys : List CollationPrefix
  order : List Nat
  missing : List Nat
  deriving DecidableEq, Repr

/-- The order of the values: the missing ones apart, the others sorted by their keys. -/
def buildCollationOrder (values : Inputs) (decreasing : Bool) (collator : Collator)
    (keys : List CollationPrefix) : CollationOrder :=
  let parts := (List.range values.size).foldl (partitionStep values) ⟨⟨keys, 0⟩, []⟩
  let sorted := stableSort (entryLess values collator decreasing) parts.kept.resized
  ⟨sorted, sorted.map (·.index), parts.missing⟩

/-- The rank in use and the ranks that are assigned. -/
structure Ranking where
  currentRank : Nat
  output : List Int

/-- An entry that differs from the one before it begins a new rank. -/
def rankStep (values : Inputs) (collator : Collator) (keys : List CollationPrefix)
    (ranking : Ranking) (i : Nat) : Ranking :=
  let previous := keys.getD (i - 1) default
  let entry := keys.getD i default
  let currentRank :=
    if 0 < i ∧ compareEntries values collator previous entry ≠ .eq then i + 1
    else ranking.currentRank
  ⟨currentRank, ranking.output.set entry.index currentRank⟩

/-- Ranks for the sorted entries, the least one for those that are equal. -/
def assignMinCollationRanks (values : Inputs) (collator : Collator)
    (keys : List CollationPrefix) (output : List Int) : List Int :=
  ((List.range keys.length).foldl (rankStep values collator keys) ⟨1, output⟩).output

/-- The elements that are not missing, as they come. -/
def Inputs.present (values : Inputs) : List Nat :=
  (List.range values.size).filter fun i => !values.isNa i

/-- The indices of the missing values. -/
def Inputs.missing (values : Inputs) : List Nat :=
  (List.range values.size).filter values.isNa

/-- How two elements collate. -/
def collate (values : Inputs) (collator : Collator) (i j : Nat) : Ordering :=
  collator.compare (values.text i) (values.text j)

/-- A comparison in the requested direction. -/
def directed (decreasing : Bool) (cmp : Nat → Nat → Ordering) (i j : Nat) : Ordering :=
  if decreasing then (cmp i j).swap else cmp i j

/-- One element comes strictly before another: ties stay in source order. -/
def Before (values : Inputs) (collator : Collator) (decreasing : Bool) (i j : Nat) : Prop :=
  directed decreasing (collate values collator) i j = .lt ∨
    directed decreasing (collate values collator) i j = .eq ∧ i < j

section Compacting

/-- The chosen entries of the first `i` are at the front, the others in place. -/
structure Compaction.Holds (original chosen : List CollationPrefix) (i : Nat)
    (compaction : Compaction) : Prop where
  length_eq : compaction.keys.length = original.length
  size_le : compaction.size ≤ i
  drop_eq : compaction.keys.drop i = original.drop i
  resized_eq : compaction.resized = chosen

variable {original chosen : List CollationPrefix} {i : Nat} {compaction : Compaction}

/-- No key is kept yet. -/
theorem Compaction.holds_start (original : List CollationPrefix) :
    Compaction.Holds original [] 0 ⟨original, 0⟩ :=
  ⟨rfl, Nat.le_refl 0, rfl, rfl⟩

/-- A value that is passed over changes nothing. -/
theorem Compaction.Holds.skip (hholds : compaction.Holds original chosen i) :
    compaction.Holds original chosen (i + 1) where
  length_eq := hholds.length_eq
  size_le := Nat.le_succ_of_le hholds.size_le
  drop_eq := by rw [← List.drop_drop, ← List.drop_drop, hholds.drop_eq]
  resized_eq := hholds.resized_eq

/-- The entry read is still the original one: the writes are behind the reads. -/
theorem Compaction.Holds.getD_eq (hholds : compaction.Holds original chosen i) :
    compaction.keys.getD i default = original.getD i default := by
  have hhead := congrArg (·[0]?) hholds.drop_eq
  simp only [List.getElem?_drop, Nat.add_zero] at hhead
  rw [List.getD_eq_getElem?_getD, hhead, List.getD_eq_getElem?_getD]

/-- A key that is kept moves to the front, behind those kept before. -/
theorem Compaction.Holds.keep (hholds : compaction.Holds original chosen i)
    (hi : i < original.length) :
    (compaction.keep i).Holds original (chosen ++ [original.getD i default]) (i + 1) where
  length_eq := by rw [Compaction.keep, List.length_set, hholds.length_eq]
  size_le := Nat.succ_le_succ hholds.size_le
  drop_eq := by
    rw [Compaction.keep, List.drop_set_of_lt (Nat.lt_succ_of_le hholds.size_le)]
    exact hholds.skip.drop_eq
  resized_eq := by
    have hsize : compaction.size < compaction.keys.length := by
      rw [hholds.length_eq]
      exact Nat.lt_of_le_of_lt hholds.size_le hi
    simp only [Compaction.resized, Compaction.keep, hholds.getD_eq]
    rw [List.take_add_one, List.take_set_of_le (Nat.le_refl _), List.getElem?_set_self hsize]
    rw [show compaction.keys.take compaction.size = chosen from hholds.resized_eq]
    rfl

end Compacting

section Ordering

variable {values : Inputs} {collator : Collator} {keys : List CollationPrefix}

/-- The entry of each of the given elements. -/
def entriesAt (keys : List CollationPrefix) (indices : List Nat) : List CollationPrefix :=
  indices.map fun i => keys.getD i default

/-- The first values are partitioned. -/
theorem partition_holds (hlength : keys.length = values.size) {n : Nat} (hn : n ≤ values.size) :
    let parts := (List.range n).foldl (partitionStep values) ⟨⟨keys, 0⟩, []⟩
    parts.kept.Holds keys
        (entriesAt keys ((List.range n).filter fun i => !values.isNa i)) n ∧
      parts.missing = (List.range n).filter values.isNa := by
  induction n with
  | zero => exact ⟨Compaction.holds_start keys, rfl⟩
  | succ n ih =>
      obtain ⟨hkept, hmissing⟩ := ih (Nat.le_of_succ_le hn)
      simp only [List.range_succ, List.foldl_append, List.foldl_cons, List.foldl_nil,
        List.filter_append, entriesAt, List.map_append]
      cases hna : values.isNa n with
      | true =>
          rw [partitionStep, if_pos hna]
          constructor
          · simpa [hna, entriesAt] using hkept.skip
          · simp [hmissing, hna]
      | false =>
          rw [partitionStep, if_neg (by simp [hna])]
          constructor
          · simpa [hna, entriesAt] using hkept.keep (hlength ▸ hn)
          · simp [hmissing, hna]

/-- The keys of the values that are there come first, and the missing ones are listed. -/
theorem partition_eq (values : Inputs) (hlength : keys.length = values.size) :
    let parts := (List.range values.size).foldl (partitionStep values) ⟨⟨keys, 0⟩, []⟩
    parts.kept.resized = entriesAt keys values.present ∧ parts.missing = values.missing := by
  obtain ⟨hkept, hmissing⟩ := partition_holds hlength (Nat.le_refl values.size)
  exact ⟨hkept.resized_eq, hmissing⟩

theorem mem_present {i : Nat} : i ∈ values.present ↔ values.isNa i = false := by
  rw [Inputs.present, List.mem_filter, List.mem_range, Bool.not_eq_true']
  exact ⟨And.right, fun hna => ⟨Inputs.lt_size hna, hna⟩⟩

theorem nodup_present : values.present.Nodup :=
  List.Pairwise.filter _ List.nodup_range

section Sorting

variable {cmp : Nat → Nat → Ordering} {decreasing : Bool} {indices : List Nat}

/-- The order a sort realises, on element indices. -/
def indexOrder (cmp : Nat → Nat → Ordering) (decreasing : Bool) : Nat → Nat → Ordering :=
  compareLex (directed decreasing cmp) compare

/-- Indices in the order that the comparison asks for, ties by position. -/
def sortedIndices (cmp : Nat → Nat → Ordering) (decreasing : Bool) (indices : List Nat) :
    List Nat :=
  indices.mergeSort fun i j => (indexOrder cmp decreasing i j).isLE

theorem sortedIndices_perm : (sortedIndices cmp decreasing indices).Perm indices :=
  List.mergeSort_perm indices _

/-- The order of indices: by the comparison, and by position where that finds them equal. -/
theorem isLE_indexOrder_iff {i j : Nat} :
    (indexOrder cmp decreasing i j).isLE ↔
      directed decreasing cmp i j = .lt ∨ directed decreasing cmp i j = .eq ∧ i ≤ j := by
  rw [indexOrder, compareLex, Ordering.isLE_then_iff_or, Nat.isLE_compare]

theorem directed_eq_iff {i j : Nat} : directed decreasing cmp i j = .eq ↔ cmp i j = .eq := by
  cases decreasing <;> simp [directed]

variable [Std.TransCmp cmp]

instance : Std.TransCmp (directed decreasing cmp) where
  eq_swap := by
    intro i j
    have hswap : cmp i j = (cmp j i).swap := Std.OrientedCmp.eq_swap
    cases decreasing <;> simp [directed, hswap]
  isLE_trans := by
    intro i j k
    cases decreasing with
    | false =>
        simp only [directed, Bool.false_eq_true, if_false]
        exact Std.TransCmp.isLE_trans
    | true =>
        simp only [directed, if_true, Ordering.isLE_swap]
        exact Std.TransCmp.isGE_trans

instance : Std.TransCmp (indexOrder cmp decreasing) :=
  inferInstanceAs (Std.TransCmp (compareLex _ _))

/-- Sorting entries is sorting their elements. -/
theorem stableSort_entriesAt
    (hcompare : ∀ i ∈ indices, ∀ j ∈ indices,
      compareEntries values collator (keys.getD i default) (keys.getD j default) = cmp i j)
    (hindex : ∀ i ∈ indices, (keys.getD i default).index = i) :
    stableSort (entryLess values collator decreasing) (entriesAt keys indices) =
      entriesAt keys (sortedIndices cmp decreasing indices) := by
  unfold stableSort entriesAt sortedIndices
  rw [List.map_mergeSort]
  intro i hi j hj
  have hswap : cmp i j = (cmp j i).swap := Std.OrientedCmp.eq_swap
  rw [Bool.eq_iff_iff, isLE_indexOrder_iff, entryLess, hcompare j hj i hi, hindex i hi,
    hindex j hj, directed, hswap]
  cases cmp j i <;> cases decreasing <;> simp

/-- Sorted elements are in the requested order, ties in source order. -/
theorem pairwise_sortedIndices (hnodup : indices.Nodup) :
    (sortedIndices cmp decreasing indices).Pairwise fun i j =>
      directed decreasing cmp i j = .lt ∨ directed decreasing cmp i j = .eq ∧ i < j := by
  have hsorted : SortedRuns.Sorted (indexOrder cmp decreasing)
      (sortedIndices cmp decreasing indices) := SortedRuns.sorted_mergeSort indices
  have hdistinct : (sortedIndices cmp decreasing indices).Nodup :=
    sortedIndices_perm.nodup_iff.mpr hnodup
  apply (hsorted.and hdistinct).imp
  rintro i j ⟨hle, hne⟩
  exact (isLE_indexOrder_iff.mp hle).imp_right (And.imp_right fun hij => hij.lt_of_ne hne)

/-- The sorted indices are sorted by the comparison alone. -/
theorem sorted_sortedIndices :
    SortedRuns.Sorted (directed decreasing cmp) (sortedIndices cmp decreasing indices) := by
  have hsorted : SortedRuns.Sorted (indexOrder cmp decreasing)
      (sortedIndices cmp decreasing indices) := SortedRuns.sorted_mergeSort indices
  apply hsorted.imp
  intro i j hle
  rcases isLE_indexOrder_iff.mp hle with hlt | ⟨heq, _⟩
  · rw [hlt]
    rfl
  · rw [heq]
    rfl

end Sorting

section Ranking

variable {decreasing : Bool}

/-- One more than the number of elements that come strictly before `i` in the
requested direction. -/
def minRank (values : Inputs) (collator : Collator) (decreasing : Bool) (i : Nat) : Nat :=
  1 + values.present.countP fun j => directed decreasing (collate values collator) j i = .lt

/-- The elements at the first `n` places have their ranks, the others what they had. -/
structure Ranking.Holds (values : Inputs) (collator : Collator) (decreasing : Bool)
    (order : List Nat) (output : List Int) (n : Nat) (ranking : Ranking) : Prop where
  length_eq : ranking.output.length = output.length
  current : ∀ _ : 0 < n, ranking.currentRank =
    minRank values collator decreasing (order.getD (n - 1) 0)
  written : ∀ i ∈ order.take n,
    ranking.output.getD i 0 = minRank values collator decreasing i
  kept : ∀ i ∉ order.take n, ranking.output.getD i 0 = output.getD i 0

instance [Std.TransCmp collator.compare] : Std.TransCmp (collate values collator) where
  eq_swap := by
    intro i j
    exact (Std.OrientedCmp.eq_swap : collator.compare _ _ = _)
  isLE_trans := by
    intro i j k hij hjk
    exact (Std.TransCmp.isLE_trans hij hjk : (collator.compare _ _).isLE)

theorem getD_entriesAt {order : List Nat} {n : Nat} (hn : n < order.length) :
    (entriesAt keys order).getD n default = keys.getD order[n] default := by
  rw [entriesAt, List.getD_eq_getElem?_getD, List.getElem?_map, List.getElem?_eq_getElem hn]
  rfl

variable {order : List Nat} {output : List Int}

/-- The least rank of a value counts those that are sorted before it. -/
theorem minRank_eq_countP (horder : order.Perm values.present) (i : Nat) :
    minRank values collator decreasing i =
      1 + order.countP fun j => directed decreasing (collate values collator) j i = .lt := by
  rw [minRank, horder.countP_eq]

variable [Std.TransCmp collator.compare]

/-- The rank of the element at place `n`, from that of the place before it. -/
theorem rankStep_currentRank (hfacts : PrefixFacts collator values keys)
    (horder : order.Perm values.present)
    (hsorted : SortedRuns.Sorted (directed decreasing (collate values collator)) order) {n : Nat}
    (hn : n < order.length) {ranking : Ranking} (hfirst : n = 0 → ranking.currentRank = 1)
    (hholds : ranking.Holds values collator decreasing order output n) :
    (rankStep values collator (entriesAt keys order) ranking n).currentRank =
      minRank values collator decreasing order[n] := by
  have hpresent (i : Nat) (hi : i < order.length) : values.isNa order[i] = false :=
    mem_present.mp (horder.mem_iff.mp (List.getElem_mem hi))
  have hcompare (hpos : 0 < n) : compareEntries values collator
      ((entriesAt keys order).getD (n - 1) default) ((entriesAt keys order).getD n default) = .eq ↔
        directed decreasing (collate values collator) order[n - 1] order[n] = .eq := by
    rw [getD_entriesAt (by omega), getD_entriesAt hn,
      hfacts.compareEntries_eq (hpresent (n - 1) (by omega)) (hpresent n hn)]
    exact (directed_eq_iff : _ ↔ collate values collator _ _ = .eq).symm
  rw [minRank_eq_countP horder, rankStep]
  simp only
  split
  next hnew =>
    rw [hsorted.countP_lt hn fun hpos heq => hnew.2 ((hcompare hpos).mpr heq), Nat.add_comm]
  next hsame =>
    rcases Nat.eq_zero_or_pos n with rfl | hpos
    · rw [hsorted.countP_lt hn fun hpos => absurd hpos (Nat.lt_irrefl 0), hfirst rfl]
    · have heq := (hcompare hpos).mp (by simpa [hpos] using hsame)
      rw [hholds.current hpos, minRank_eq_countP horder, List.getD_eq_getElem _ _ (by omega),
        SortedRuns.countP_lt_congr heq]

/-- An entry equal to the one before shares its rank, any other takes its own position. -/
theorem rankStep_holds (hfacts : PrefixFacts collator values keys)
    (horder : order.Perm values.present)
    (hsorted : SortedRuns.Sorted (directed decreasing (collate values collator)) order) {n : Nat}
    (hn : n < order.length) {ranking : Ranking} (hfirst : n = 0 → ranking.currentRank = 1)
    (hlength : output.length = values.size)
    (hholds : ranking.Holds values collator decreasing order output n) :
    (rankStep values collator (entriesAt keys order) ranking n).Holds
      values collator decreasing order output (n + 1) := by
  have hcurrent := rankStep_currentRank hfacts horder hsorted hn hfirst hholds
  have hpresent : values.isNa order[n] = false :=
    mem_present.mp (horder.mem_iff.mp (List.getElem_mem hn))
  have hindex : ((entriesAt keys order).getD n default).index = order[n] := by
    rw [getD_entriesAt hn, hfacts.index_eq _ (Inputs.lt_size hpresent)]
  have houtput : (rankStep values collator (entriesAt keys order) ranking n).output =
      ranking.output.set order[n] (minRank values collator decreasing order[n]) := by
    rw [← hcurrent, ← hindex]
    rfl
  have htake : order.take (n + 1) = order.take n ++ [order[n]] := by
    rw [List.take_add_one, List.getElem?_eq_getElem hn]
    rfl
  constructor
  · rw [houtput, List.length_set, hholds.length_eq]
  · intro _
    rw [hcurrent, Nat.add_sub_cancel, List.getD_eq_getElem _ _ hn]
  · intro i hi
    rw [houtput]
    by_cases hi' : i = order[n]
    · have hlt : order[n] < ranking.output.length := by
        rw [hholds.length_eq, hlength]
        exact Inputs.lt_size hpresent
      rw [hi', List.getD_eq_getElem?_getD, List.getElem?_set_self hlt]
      rfl
    · rw [List.getD_eq_getElem?_getD, List.getElem?_set_ne (Ne.symm hi'),
        ← List.getD_eq_getElem?_getD]
      apply hholds.written
      rw [htake, List.mem_append, List.mem_singleton] at hi
      exact hi.resolve_right hi'
  · intro i hi
    rw [htake, List.mem_append, List.mem_singleton, not_or] at hi
    rw [houtput, List.getD_eq_getElem?_getD, List.getElem?_set_ne (Ne.symm hi.2),
      ← List.getD_eq_getElem?_getD]
    exact hholds.kept i hi.1

/-- The ranks of the first entries are assigned. -/
theorem assignMinCollationRanks_holds (hfacts : PrefixFacts collator values keys)
    (horder : order.Perm values.present)
    (hsorted : SortedRuns.Sorted (directed decreasing (collate values collator)) order)
    (hlength : output.length = values.size) {n : Nat} (hn : n ≤ order.length) :
    ((List.range n).foldl (rankStep values collator (entriesAt keys order)) ⟨1, output⟩).Holds
      values collator decreasing order output n := by
  induction n with
  | zero => exact ⟨rfl, fun hpos => absurd hpos (Nat.lt_irrefl 0), by simp, by simp⟩
  | succ n ih =>
      rw [List.range_succ, List.foldl_append]
      apply rankStep_holds hfacts horder hsorted hn _ hlength (ih (Nat.le_of_succ_le hn))
      rintro rfl
      rfl

/-- Every element in sorted entries gets its rank; no other slot is written. -/
theorem assignMinCollationRanks_eq (hfacts : PrefixFacts collator values keys)
    (horder : order.Perm values.present)
    (hsorted : SortedRuns.Sorted (directed decreasing (collate values collator)) order)
    (hlength : output.length = values.size) (i : Nat) :
    (assignMinCollationRanks values collator (entriesAt keys order) output).getD i 0 =
      if values.isNa i then output.getD i 0 else minRank values collator decreasing i := by
  have hholds := assignMinCollationRanks_holds hfacts horder hsorted hlength (Nat.le_refl _)
  rw [assignMinCollationRanks, show (entriesAt keys order).length = order.length from
    List.length_map _]
  have hmem : i ∈ order.take order.length ↔ values.isNa i = false := by
    rw [List.take_length, horder.mem_iff, mem_present]
  split
  next hna => exact hholds.kept i fun hi => absurd (hmem.mp hi) (by simp [hna])
  next hna => exact hholds.written i (hmem.mpr (by simpa using hna))

end Ranking

section Built

variable [Std.TransCmp collator.compare]

/-- The sort sees the entries of the non-missing elements, and leaves them in the
order of their elements. -/
theorem buildCollationOrder_eq (hfacts : PrefixFacts collator values keys) (decreasing : Bool) :
    buildCollationOrder values decreasing collator keys =
      let order := sortedIndices (collate values collator) decreasing values.present
      ⟨entriesAt keys order, order, values.missing⟩ := by
  obtain ⟨hkept, hmissing⟩ := partition_eq values hfacts.length_eq
  have hindex (i : Nat) (hi : i ∈ values.present) : (keys.getD i default).index = i :=
    hfacts.index_eq i (Inputs.lt_size (mem_present.mp hi))
  have hsort : stableSort (entryLess values collator decreasing)
      (entriesAt keys values.present) =
        entriesAt keys (sortedIndices (collate values collator) decreasing values.present) := by
    apply stableSort_entriesAt _ hindex
    intro i hi j hj
    exact hfacts.compareEntries_eq (mem_present.mp hi) (mem_present.mp hj)
  have horder : (entriesAt keys
      (sortedIndices (collate values collator) decreasing values.present)).map (·.index) =
        sortedIndices (collate values collator) decreasing values.present := by
    rw [entriesAt, List.map_map]
    conv_rhs => rw [← List.map_id (sortedIndices _ _ _)]
    apply List.map_congr_left
    intro i hi
    exact hindex i (sortedIndices_perm.mem_iff.mp hi)
  unfold buildCollationOrder
  simp only [hkept, hmissing, hsort, horder]

/-- The ranks over the built order are the least ranks; those of missing values stay. -/
theorem buildCollationOrder_ranks (hfacts : PrefixFacts collator values keys) (decreasing : Bool)
    {output : List Int} (hlength : output.length = values.size) (i : Nat) :
    (assignMinCollationRanks values collator
        (buildCollationOrder values decreasing collator keys).keys output).getD i 0 =
      if values.isNa i then output.getD i 0 else minRank values collator decreasing i := by
  rw [buildCollationOrder_eq hfacts]
  exact assignMinCollationRanks_eq hfacts sortedIndices_perm sorted_sortedIndices hlength i

/-- The order is the non-missing elements in the requested direction, ties in source
order, and the missing ones apart. The ranks count what comes strictly before. -/
theorem buildCollationOrder_orders_and_ranks (hfacts : PrefixFacts collator values keys)
    (decreasing : Bool) {output : List Int} (hlength : output.length = values.size) :
    let built := buildCollationOrder values decreasing collator keys
    built.order.Perm values.present ∧
      built.order.Pairwise (Before values collator decreasing) ∧
      built.missing = values.missing ∧
      ∀ i, (assignMinCollationRanks values collator built.keys output).getD i 0 =
        if values.isNa i then output.getD i 0 else minRank values collator decreasing i := by
  refine ⟨?_, ?_, ?_, buildCollationOrder_ranks hfacts decreasing hlength⟩
  · rw [buildCollationOrder_eq hfacts]
    exact sortedIndices_perm
  · rw [buildCollationOrder_eq hfacts]
    exact pairwise_sortedIndices nodup_present
  · rw [buildCollationOrder_eq hfacts]

end Built

end Ordering

section Letters

/-- A collator that does not tell the cases of ASCII letters apart and ignores NULs. -/
def primaryCollator : Collator :=
  let fold (byte : UInt8) := if 65 ≤ byte ∧ byte ≤ 90 then byte + 32 else byte
  let sortKey (text : List UInt8) := (text.map fold).filter (· ≠ 0)
  { compare := fun first second => List.compareLex compare (sortKey first) (sortKey second)
    sortKey := sortKey
    caseLevel := false }

instance : Std.TransCmp primaryCollator.compare where
  eq_swap := by
    intro first second
    exact (Std.OrientedCmp.eq_swap : List.compareLex (compare : UInt8 → UInt8 → Ordering) _ _ = _)
  isLE_trans := by
    intro first second third hfirst hsecond
    exact (Std.TransCmp.isLE_trans hfirst hsecond : (List.compareLex _ _ _).isLE)

theorem primaryCollator_orderedKeys : OrderedKeys primaryCollator where
  ordered _ _ _ := rfl
  nonzero text := by simp [primaryCollator]

/-- A view of ASCII bytes. -/
def asciiView (bytes : List UInt8) (hlength : bytes.length ≤ intMax) : StringView :=
  ⟨.bytes ⟨0, bytes, hlength⟩, .ascii⟩

/-- `"b"`, `NA`, `"A"` and `"a"` -/
def letters : Inputs :=
  ⟨[asciiView [98] (by decide), .na, asciiView [65] (by decide), asciiView [97] (by decide)],
    by decide⟩

/-- The prefixes of the sample values. -/
def letterKeys : List CollationPrefix :=
  computeCollationPrefixes letters 0 4 primaryCollator (List.replicate 4 default)

/-- The prefixes of the sample values are prefixes of their keys. -/
theorem letterKeys_facts : PrefixFacts primaryCollator letters letterKeys :=
  PrefixFacts.computed primaryCollator_orderedKeys rfl

/-- Nothing is smaller than `"A"`, which has rank two in the decreasing order. -/
theorem decreasing_rank_counts_greater :
    PrefixFacts primaryCollator letters letterKeys ∧
      (assignMinCollationRanks letters primaryCollator
        (buildCollationOrder letters true primaryCollator letterKeys).keys
          (List.replicate 4 naInteger)).getD 2 0 ≠
        1 + letters.present.countP fun j => collate letters primaryCollator j 2 = .lt := by
  refine ⟨letterKeys_facts, ?_⟩
  rw [buildCollationOrder_ranks letterKeys_facts true rfl 2]
  decide

theorem letters_order_and_ranks :
    let built := buildCollationOrder letters false primaryCollator letterKeys
    built.order.Perm [0, 2, 3] ∧
      built.order.Pairwise (Before letters primaryCollator false) ∧
      built.missing = [1] ∧
      ∀ i, (assignMinCollationRanks letters primaryCollator built.keys
          (List.replicate 4 naInteger)).getD i 0 =
        if letters.isNa i then (List.replicate 4 naInteger).getD i 0
        else minRank letters primaryCollator false i :=
  buildCollationOrder_orders_and_ranks letterKeys_facts false rfl

end Letters

end Charr.Collation
