import Charr.Collation.HashPass
import Mathlib.Data.List.Nodup

/-!
# Finding duplicates

The incomplete elements that the hashing pass left unmarked are sorted, and every run
of equal ones keeps its first in traversal order. Together the passes mark every
element that collates equal to an earlier one.
-/

namespace Charr.Collation

/-- The hashing pass did not decide the element. -/
def isLeft (values : Inputs) (keys : List CollationPrefix) (output : List Int) (i : Nat) : Bool :=
  !values.isNa i && !(keys.getD i default).complete && output.getD i 0 = 0

/-- Keep the key of a value that the first pass left undecided. -/
def leaveStep (values : Inputs) (output : List Int) (kept : Compaction) (i : Nat) : Compaction :=
  if isLeft values kept.keys output i then kept.keep i else kept

/-- The run that is open and the marks so far. -/
structure Marking where
  runBegin : Nat
  output : List Int

/-- The entry at `i` continues the run of the one before it. -/
def joined (values : Inputs) (collator : Collator) (keys : List CollationPrefix) (i : Nat) : Bool :=
  i < keys.length &&
    compareEntries values collator (keys.getD (i - 1) default) (keys.getD i default) = .eq

/-- Mark the run `[runBegin, stop)`, all but one of its elements. -/
def markRun (keys : List CollationPrefix) (runBegin stop kept : Nat) (output : List Int) :
    List Int :=
  (List.range' runBegin (stop - runBegin)).foldl
    (fun output j => output.set (keys.getD j default).index (if j = kept then 0 else 1)) output

/-- An entry that differs from the run marks that run and begins the next. -/
def runStep (values : Inputs) (collator : Collator) (fromLast : Bool)
    (keys : List CollationPrefix) (marking : Marking) (i : Nat) : Marking :=
  if joined values collator keys i then marking
  else
    let kept := if fromLast then i - 1 else marking.runBegin
    ⟨i, markRun keys marking.runBegin i kept marking.output⟩

/-- Mark the runs of equal entries. -/
def markRuns (values : Inputs) (collator : Collator) (fromLast : Bool)
    (keys : List CollationPrefix) (output : List Int) : Marking :=
  (List.range' 1 keys.length).foldl (runStep values collator fromLast keys) ⟨0, output⟩

/-- Sort what the first pass left and mark its runs. -/
def secondPass (values : Inputs) (fromLast : Bool) (collator : Collator)
    (keys : List CollationPrefix) (output : List Int) : List Int :=
  let kept := (List.range values.size).foldl (leaveStep values output) ⟨keys, 0⟩
  let sorted := stableSort (entryLess values collator false) kept.resized
  (markRuns values collator fromLast sorted output).output

/-- The marks by source index; no marks if a walk through the table does not end. -/
def markCollationDuplicates (values : Inputs) (fromLast : Bool) (collator : Collator)
    (keys : List CollationPrefix) (output : List Int) :
    Except NativeError (Option (List Int)) := do
  let presentSize := (List.range values.size).countP fun i => !values.isNa i
  let table ← IndexHashTable.reset presentSize
  let pass := (traversal values.size fromLast).foldlM (firstPassStep values keys)
    ⟨table, false, output⟩
  return pass.map fun pass => secondPass values fromLast collator keys pass.output

/-- The marks of every value by the meaning of a duplicate. -/
def duplicates (values : Inputs) (collator : Collator) (fromLast : Bool) : List Int :=
  (List.range values.size).map fun i => if isDuplicate values collator fromLast i then 1 else 0

section Runs

variable {values : Inputs} {collator : Collator} {fromLast : Bool}
  {entries : List CollationPrefix} {output : List Int} {marking : Marking} {m : Nat}

/-- The mark of the entry at `p`: whether it continues the run before it, or, from the
last, whether the next entry continues its run. -/
def runMark (values : Inputs) (collator : Collator) (fromLast : Bool)
    (entries : List CollationPrefix) (p : Nat) : Int :=
  if fromLast then if joined values collator entries (p + 1) then 1 else 0
  else if 0 < p ∧ joined values collator entries p then 1 else 0

/-- The entries before the open run have their marks, and nothing else is written. -/
structure Marking.Holds (values : Inputs) (collator : Collator) (fromLast : Bool)
    (entries : List CollationPrefix) (output : List Int) (m : Nat) (marking : Marking) :
    Prop where
  begin_le : marking.runBegin ≤ m
  length_eq : marking.output.length = output.length
  joined_of : ∀ p, marking.runBegin < p → p ≤ m → joined values collator entries p
  not_joined : 0 < marking.runBegin → ¬ joined values collator entries marking.runBegin
  written : ∀ p < marking.runBegin, marking.output.getD (entries.getD p default).index 0 =
    runMark values collator fromLast entries p
  kept : ∀ i, (∀ p < marking.runBegin, (entries.getD p default).index ≠ i) →
    marking.output.getD i 0 = output.getD i 0

theorem length_markRun (runBegin stop kept : Nat) (output : List Int) :
    (markRun entries runBegin stop kept output).length = output.length := by
  unfold markRun
  generalize List.range' runBegin (stop - runBegin) = steps
  induction steps generalizing output with
  | nil => rfl
  | cons step rest ih => rw [List.foldl_cons, ih, List.length_set]

/-- The entries name places of the output, each its own. -/
structure Placed (entries : List CollationPrefix) (size : Nat) : Prop where
  distinct : ∀ p < entries.length, ∀ q < entries.length,
    (entries.getD p default).index = (entries.getD q default).index → p = q
  lt_size : ∀ p < entries.length, (entries.getD p default).index < size

/-- Marking a run marks its values, but for the one that is kept. -/
theorem getD_markRun (hplaced : Placed entries output.length) {runBegin stop kept : Nat}
    (hstop : stop ≤ entries.length) {j : Nat} (hbegin : runBegin ≤ j) (hj : j < stop) :
    (markRun entries runBegin stop kept output).getD (entries.getD j default).index 0 =
      if j = kept then 0 else 1 := by
  have hmem (p : Nat) : p ∈ List.range' runBegin (stop - runBegin) → p < entries.length := by
    rw [List.mem_range'_1]
    omega
  apply getD_foldl_set_of_mem (fun p => (entries.getD p default).index)
    (fun p => if p = kept then 0 else 1)
  · apply List.Nodup.map_on _ List.nodup_range'
    intro p hp q hq
    exact hplaced.distinct p (hmem p hp) q (hmem q hq)
  · intro p hp
    exact hplaced.lt_size p (hmem p hp)
  · rw [List.mem_range'_1]
    omega

/-- A value that is not in the run keeps its mark. -/
theorem getD_markRun_of_ne {runBegin stop kept i : Nat}
    (hi : ∀ p, runBegin ≤ p → p < stop → (entries.getD p default).index ≠ i) :
    (markRun entries runBegin stop kept output).getD i 0 = output.getD i 0 := by
  apply getD_foldl_set_of_not_mem (fun p => (entries.getD p default).index)
  intro p hp
  rw [List.mem_range'_1] at hp
  exact hi p hp.1 (by omega)

/-- Where a run ends, its elements get the marks of their places. -/
theorem Marking.Holds.runMark_eq (hholds : marking.Holds values collator fromLast entries output m)
    (hend : ¬ joined values collator entries (m + 1)) {j : Nat} (hbegin : marking.runBegin ≤ j)
    (hj : j ≤ m) :
    (if j = (if fromLast then m else marking.runBegin) then 0 else 1) =
      runMark values collator fromLast entries j := by
  cases fromLast with
  | true =>
      simp only [if_true, runMark]
      rcases hj.lt_or_eq with hlt | rfl
      · rw [if_neg hlt.ne, if_pos (hholds.joined_of (j + 1) (Nat.lt_succ_of_le hbegin) hlt)]
      · rw [if_pos rfl, if_neg hend]
  | false =>
      simp only [Bool.false_eq_true, if_false, runMark]
      rcases hbegin.lt_or_eq with hlt | rfl
      · rw [if_neg hlt.ne', if_pos ⟨Nat.zero_lt_of_lt hlt, hholds.joined_of j hlt hj⟩]
      · rw [if_pos rfl, if_neg fun hpos => hholds.not_joined hpos.1 hpos.2]

/-- One more entry: the run goes on, or it is marked and the next one begins. -/
theorem runStep_holds (hholds : marking.Holds values collator fromLast entries output m)
    (hm : m < entries.length) (hplaced : Placed entries output.length) :
    (runStep values collator fromLast entries marking (m + 1)).Holds values collator fromLast
      entries output (m + 1) := by
  unfold runStep
  split
  next hjoined =>
    refine ⟨Nat.le_succ_of_le hholds.begin_le, hholds.length_eq, ?_, hholds.not_joined,
      hholds.written, hholds.kept⟩
    intro p hbegin hp
    rcases Nat.le_succ_iff.mp hp with hle | rfl
    · exact hholds.joined_of p hbegin hle
    · exact hjoined
  next hend =>
    refine ⟨Nat.le_refl _, ?_, ?_, fun _ => hend, ?_, ?_⟩
    · rw [length_markRun, hholds.length_eq]
    · intro p hbegin hp
      exact absurd hp (Nat.not_le.mpr hbegin)
    · intro p hp
      rcases Nat.lt_or_ge p marking.runBegin with hlt | hge
      · -- a place of an earlier run is not named again
        rw [getD_markRun_of_ne, hholds.written p hlt]
        intro q hbegin hq heq
        have := hplaced.distinct q (by omega) p (by omega) heq
        omega
      · rw [← hholds.length_eq] at hplaced
        rw [getD_markRun hplaced hm hge hp]
        exact hholds.runMark_eq hend hge (Nat.le_of_lt_succ hp)
    · intro i hi
      rw [getD_markRun_of_ne fun p _ hp => hi p hp]
      exact hholds.kept i fun p hp => hi p (Nat.lt_of_lt_of_le hp
        (Nat.le_succ_of_le hholds.begin_le))

/-- The runs of the first entries are marked. -/
theorem runs_hold (hplaced : Placed entries output.length) (hm : m ≤ entries.length) :
    ((List.range' 1 m).foldl (runStep values collator fromLast entries) ⟨0, output⟩).Holds values
      collator fromLast entries output m := by
  induction m with
  | zero =>
      refine ⟨Nat.le_refl 0, rfl, ?_, fun hpos => absurd hpos (Nat.lt_irrefl 0), ?_, fun _ _ => rfl⟩
      · intro p hbegin hp
        exact absurd hp (Nat.not_le.mpr hbegin)
      · intro p hp
        exact absurd hp (Nat.not_lt_zero p)
  | succ m ih =>
      rw [List.range'_concat, List.foldl_append]
      simp only [List.foldl_cons, List.foldl_nil, Nat.one_mul, Nat.add_comm 1 m]
      exact runStep_holds (ih (Nat.le_of_succ_le hm)) hm hplaced

/-- After the last entry every run is closed. -/
theorem markRuns_holds (values : Inputs) (collator : Collator) (fromLast : Bool)
    (hplaced : Placed entries output.length) :
    (markRuns values collator fromLast entries output).Holds values collator fromLast entries
        output entries.length ∧
      (markRuns values collator fromLast entries output).runBegin = entries.length := by
  have hholds : (markRuns values collator fromLast entries output).Holds values collator fromLast
      entries output entries.length := runs_hold hplaced (Nat.le_refl _)
  refine ⟨hholds, ?_⟩
  by_contra hopen
  have hjoined := hholds.joined_of entries.length (hholds.begin_le.lt_of_ne hopen) (Nat.le_refl _)
  simp [joined] at hjoined

end Runs

section Ties

variable {cmp : Nat → Nat → Ordering} [Std.TransCmp cmp] {indices : List Nat}

/-- Equal elements stand in source order. -/
theorem lt_iff_of_tied (hnodup : indices.Nodup) {p q : Nat}
    (hp : p < (sortedIndices cmp false indices).length)
    (hq : q < (sortedIndices cmp false indices).length)
    (htied : cmp (sortedIndices cmp false indices)[p] (sortedIndices cmp false indices)[q] = .eq) :
    p < q ↔ (sortedIndices cmp false indices)[p] < (sortedIndices cmp false indices)[q] := by
  have hordered {p q : Nat} (hq : q < (sortedIndices cmp false indices).length) (hpq : p < q)
      (htied : cmp (sortedIndices cmp false indices)[p]
        (sortedIndices cmp false indices)[q] = .eq) :
      (sortedIndices cmp false indices)[p] < (sortedIndices cmp false indices)[q] := by
    rcases List.pairwise_iff_getElem.mp (pairwise_sortedIndices hnodup) p q (hpq.trans hq) hq hpq
      with hlt | ⟨_, hless⟩
    · rw [show directed false cmp _ _ = .eq from htied] at hlt
      exact Ordering.noConfusion hlt
    · exact hless
  rcases Nat.lt_trichotomy p q with hlt | rfl | hgt
  · exact iff_of_true hlt (hordered hq hlt htied)
  · exact iff_of_false (Nat.lt_irrefl p) (Nat.lt_irrefl _)
  · have hless := hordered hp hgt (Std.OrientedCmp.eq_symm htied)
    exact iff_of_false hgt.not_gt hless.not_gt

end Ties

section Leaving

variable {values : Inputs} {collator : Collator} {fromLast : Bool}
  {keys : List CollationPrefix} {output : List Int}

/-- The elements the second pass sorts. -/
def left (values : Inputs) (keys : List CollationPrefix) (output : List Int) : List Nat :=
  (List.range values.size).filter (isLeft values keys output)

theorem mem_left {i : Nat} : i ∈ left values keys output ↔
    values.isNa i = false ∧ (keys.getD i default).complete = false ∧ output.getD i 0 = 0 := by
  simp only [left, isLeft, List.mem_filter, List.mem_range, Bool.and_eq_true, Bool.not_eq_true',
    decide_eq_true_eq, and_assoc]
  exact ⟨And.right, fun hleft => ⟨Inputs.lt_size hleft.1, hleft⟩⟩

theorem nodup_left : (left values keys output).Nodup :=
  List.Pairwise.filter _ List.nodup_range

theorem leave_holds (hlength : keys.length = values.size) {n : Nat} (hn : n ≤ values.size) :
    ((List.range n).foldl (leaveStep values output) ⟨keys, 0⟩).Holds keys
      (entriesAt keys ((List.range n).filter (isLeft values keys output))) n := by
  induction n with
  | zero => exact Compaction.holds_start keys
  | succ n ih =>
      have hholds := ih (Nat.le_of_succ_le hn)
      rw [List.range_succ, List.foldl_append, List.filter_append, entriesAt, List.map_append]
      simp only [List.foldl_cons, List.foldl_nil]
      rw [leaveStep, isLeft, hholds.getD_eq, ← isLeft]
      split
      next hleft =>
        rw [List.filter_cons_of_pos hleft]
        exact hholds.keep (hlength ▸ hn)
      next hgone =>
        rw [List.filter_cons_of_neg hgone, List.filter_nil, List.map_nil, List.append_nil]
        exact hholds.skip

/-- The second pass sorts the keys of the values left over. -/
theorem leave_eq (output : List Int) (hlength : keys.length = values.size) :
    ((List.range values.size).foldl (leaveStep values output) ⟨keys, 0⟩).resized =
      entriesAt keys (left values keys output) :=
  (leave_holds hlength (Nat.le_refl values.size)).resized_eq

/-- How the entries of incomplete elements compare: by prefix, then as they collate. -/
def prefixOrder (values : Inputs) (collator : Collator) (keys : List CollationPrefix) :
    Nat → Nat → Ordering :=
  compareLex (compareOn fun i => (keys.getD i default).packed) (collate values collator)

/-- Two values are equal by their prefixes exactly if they collate equal. -/
theorem EqualityFacts.prefixOrder_eq_iff (hfacts : EqualityFacts collator values keys) {i j : Nat}
    (hi : values.isNa i = false) (hj : values.isNa j = false) :
    prefixOrder values collator keys i j = .eq ↔ collate values collator i j = .eq := by
  rw [prefixOrder, compareLex, Ordering.then_eq_eq, compareOn]
  constructor
  · exact And.right
  · intro heq
    refine ⟨?_, heq⟩
    rw [(hfacts.same i j hi hj heq).1]
    exact Std.ReflOrd.compare_self

/-- The elements the second pass sorts, sorted. -/
def leftOrder (values : Inputs) (collator : Collator) (keys : List CollationPrefix)
    (output : List Int) : List Nat :=
  sortedIndices (prefixOrder values collator keys) false (left values keys output)

theorem mem_leftOrder {i : Nat} :
    i ∈ leftOrder values collator keys output ↔ i ∈ left values keys output :=
  sortedIndices_perm.mem_iff

theorem getD_index_leftOrder (hfacts : EqualityFacts collator values keys) {p : Nat}
    (hp : p < (leftOrder values collator keys output).length) :
    ((entriesAt keys (leftOrder values collator keys output)).getD p default).index =
      (leftOrder values collator keys output)[p] := by
  rw [getD_entriesAt hp]
  apply hfacts.index_eq
  exact Inputs.lt_size (mem_left.mp (mem_leftOrder.mp (List.getElem_mem hp))).1

theorem length_entriesAt (order : List Nat) : (entriesAt keys order).length = order.length :=
  List.length_map _

/-- The sorted entries belong to different values. -/
theorem placed_leftOrder (hfacts : EqualityFacts collator values keys) (output : List Int) :
    Placed (entriesAt keys (leftOrder values collator keys output)) values.size := by
  have hnodup : (leftOrder values collator keys output).Nodup :=
    sortedIndices_perm.nodup_iff.mpr nodup_left
  constructor
  · intro p hp q hq heq
    rw [length_entriesAt] at hp hq
    rw [getD_index_leftOrder hfacts hp, getD_index_leftOrder hfacts hq] at heq
    exact hnodup.getElem_inj_iff.mp heq
  · intro p hp
    rw [length_entriesAt] at hp
    rw [getD_index_leftOrder hfacts hp]
    exact Inputs.lt_size (mem_left.mp (mem_leftOrder.mp (List.getElem_mem hp))).1

variable [Std.TransCmp collator.compare]

instance : Std.TransCmp (prefixOrder values collator keys) :=
  inferInstanceAs (Std.TransCmp (compareLex _ _))

theorem EqualityFacts.compareEntries_eq (hfacts : EqualityFacts collator values keys) {i j : Nat}
    (hi : i ∈ left values keys output) (hj : j ∈ left values keys output) :
    compareEntries values collator (keys.getD i default) (keys.getD j default) =
      prefixOrder values collator keys i j := by
  obtain ⟨hpresentI, hincomplete, _⟩ := mem_left.mp hi
  obtain ⟨hpresentJ, _, _⟩ := mem_left.mp hj
  unfold compareEntries
  rw [hfacts.index_eq i (Inputs.lt_size hpresentI), hfacts.index_eq j (Inputs.lt_size hpresentJ),
    prefixOrder, compareLex, compareOn]
  split
  next hne =>
    have hcompare : compare (keys.getD i default).packed (keys.getD j default).packed =
        if (keys.getD i default).packed < (keys.getD j default).packed then .lt else .gt := by
      simp only [compare, compareOfLessAndEq, if_neg hne]
    rw [hcompare]
    split <;> rfl
  next heq =>
    rw [not_not.mp heq, Std.ReflOrd.compare_self, Ordering.eq_then, hincomplete, Bool.false_and,
      if_neg Bool.false_ne_true]
    split
    next hsame =>
      rw [collate, Inputs.text, Inputs.text, bytes_eq_of_sameBytes hsame]
      exact Std.ReflCmp.compare_self.symm
    next => rfl

/-- The second pass marks the runs of the sorted entries. -/
theorem secondPass_eq (hfacts : EqualityFacts collator values keys) :
    secondPass values fromLast collator keys output =
      (markRuns values collator fromLast
        (entriesAt keys (leftOrder values collator keys output)) output).output := by
  have hsort : stableSort (entryLess values collator false)
      (entriesAt keys (left values keys output)) =
        entriesAt keys (leftOrder values collator keys output) := by
    apply stableSort_entriesAt fun i hi j hj => hfacts.compareEntries_eq hi hj
    intro i hi
    exact hfacts.index_eq i (Inputs.lt_size (mem_left.mp hi).1)
  unfold secondPass
  simp only [leave_eq output hfacts.length_eq, hsort]

section Sorted

variable {p : Nat}

/-- An entry goes on with a run if it is equal to the one before. -/
theorem joined_iff (hfacts : EqualityFacts collator values keys) (hpos : 0 < p) :
    joined values collator (entriesAt keys (leftOrder values collator keys output)) p ↔
      ∃ _ : p < (leftOrder values collator keys output).length,
        prefixOrder values collator keys (leftOrder values collator keys output)[p - 1]
          (leftOrder values collator keys output)[p] = .eq := by
  simp only [joined, Bool.and_eq_true, decide_eq_true_eq, length_entriesAt]
  rw [← exists_prop]
  apply exists_congr
  intro hp
  rw [getD_entriesAt (by omega), getD_entriesAt hp,
    hfacts.compareEntries_eq (mem_leftOrder.mp (List.getElem_mem _))
      (mem_leftOrder.mp (List.getElem_mem _))]

/-- The values left over are sorted. -/
theorem sorted_leftOrder : SortedRuns.Sorted (prefixOrder values collator keys)
    (leftOrder values collator keys output) := by
  have hsorted : SortedRuns.Sorted (directed false (prefixOrder values collator keys))
      (leftOrder values collator keys output) := sorted_sortedIndices
  exact hsorted

/-- Equal elements are sorted by source index. -/
theorem leftOrder_lt_iff {q : Nat} (hp : p < (leftOrder values collator keys output).length)
    (hq : q < (leftOrder values collator keys output).length)
    (htied : prefixOrder values collator keys (leftOrder values collator keys output)[p]
      (leftOrder values collator keys output)[q] = .eq) :
    p < q ↔ (leftOrder values collator keys output)[p] <
      (leftOrder values collator keys output)[q] :=
  lt_iff_of_tied nodup_left hp hq htied

/-- The first of a run is kept: a value is marked if an equal one is sorted before it. -/
theorem runMark_first_iff (hfacts : EqualityFacts collator values keys)
    (hp : p < (leftOrder values collator keys output).length) :
    runMark values collator false (entriesAt keys (leftOrder values collator keys output)) p = 1 ↔
      ∃ (q : Nat) (_ : q < p), prefixOrder values collator keys
        (leftOrder values collator keys output)[q]
        (leftOrder values collator keys output)[p] = .eq := by
  rw [sorted_leftOrder.exists_before_iff hp]
  simp only [runMark, Bool.false_eq_true, if_false]
  split
  next hjoined =>
    obtain ⟨_, heq⟩ := (joined_iff hfacts hjoined.1).mp hjoined.2
    exact iff_of_true rfl ⟨hjoined.1, heq⟩
  next hapart =>
    refine iff_of_false (by decide) ?_
    rintro ⟨hpos, heq⟩
    exact hapart ⟨hpos, (joined_iff hfacts hpos).mpr ⟨hp, heq⟩⟩

/-- The last of a run is kept: a value is marked if an equal one is sorted behind it. -/
theorem runMark_last_iff (hfacts : EqualityFacts collator values keys)
    (hp : p < (leftOrder values collator keys output).length) :
    runMark values collator true (entriesAt keys (leftOrder values collator keys output)) p = 1 ↔
      ∃ (q : Nat) (_ : p < q) (_ : q < (leftOrder values collator keys output).length),
        prefixOrder values collator keys (leftOrder values collator keys output)[p]
          (leftOrder values collator keys output)[q] = .eq := by
  rw [sorted_leftOrder.exists_after_iff hp]
  simp only [runMark, if_true]
  split
  next hjoined => exact iff_of_true rfl ((joined_iff hfacts (Nat.succ_pos p)).mp hjoined)
  next hapart =>
    exact iff_of_false (by decide) fun hnext =>
      hapart ((joined_iff hfacts (Nat.succ_pos p)).mpr hnext)

/-- A mark of the second pass says that some element it sorts is equal and earlier. -/
theorem runMark_iff (hfacts : EqualityFacts collator values keys)
    (hp : p < (leftOrder values collator keys output).length) :
    runMark values collator fromLast (entriesAt keys (leftOrder values collator keys output)) p =
      1 ↔ ∃ j ∈ left values keys output,
        earlier fromLast j (leftOrder values collator keys output)[p] ∧
          collate values collator j (leftOrder values collator keys output)[p] = .eq := by
  have hequal {i j : Nat} (hi : i ∈ leftOrder values collator keys output)
      (hj : j ∈ leftOrder values collator keys output) :=
    hfacts.prefixOrder_eq_iff (mem_left.mp (mem_leftOrder.mp hi)).1
      (mem_left.mp (mem_leftOrder.mp hj)).1
  have hplace {j : Nat} (hj : j ∈ left values keys output) :
      ∃ (q : Nat) (hq : q < (leftOrder values collator keys output).length),
        (leftOrder values collator keys output)[q] = j :=
    List.getElem_of_mem (mem_leftOrder.mpr hj)
  have hmem := List.getElem_mem hp
  cases fromLast with
  | false =>
      rw [runMark_first_iff hfacts hp]
      simp only [earlier, Bool.false_eq_true, if_false, decide_eq_true_eq]
      constructor
      · rintro ⟨q, hq, htied⟩
        have hqmem := List.getElem_mem (Nat.lt_trans hq hp)
        exact ⟨_, mem_leftOrder.mp hqmem, (leftOrder_lt_iff _ hp htied).mp hq,
          (hequal hqmem hmem).mp htied⟩
      · rintro ⟨j, hj, hlt, heq⟩
        obtain ⟨q, hq, rfl⟩ := hplace hj
        have htied := (hequal (List.getElem_mem hq) hmem).mpr heq
        exact ⟨q, (leftOrder_lt_iff hq hp htied).mpr hlt, htied⟩
  | true =>
      rw [runMark_last_iff hfacts hp]
      simp only [earlier, if_true, decide_eq_true_eq]
      constructor
      · rintro ⟨q, hpq, hq, htied⟩
        have hqmem := List.getElem_mem hq
        exact ⟨_, mem_leftOrder.mp hqmem, (leftOrder_lt_iff hp hq htied).mp hpq,
          Std.OrientedCmp.eq_symm ((hequal hmem hqmem).mp htied)⟩
      · rintro ⟨j, hj, hlt, heq⟩
        obtain ⟨q, hq, rfl⟩ := hplace hj
        have htied := (hequal hmem (List.getElem_mem hq)).mpr (Std.OrientedCmp.eq_symm heq)
        exact ⟨q, (leftOrder_lt_iff hp hq htied).mpr hlt, hq, htied⟩

end Sorted

omit [Std.TransCmp collator.compare] in
theorem runMark_eq_zero {entries : List CollationPrefix} {p : Nat}
    (hmark : runMark values collator fromLast entries p ≠ 1) :
    runMark values collator fromLast entries p = 0 := by
  unfold runMark at *
  grind

theorem earlier_trans {i j k : Nat} (hij : earlier fromLast i j) (hjk : earlier fromLast j k) :
    earlier fromLast i k := by
  cases fromLast with
  | false =>
      simp only [earlier, Bool.false_eq_true, if_false, decide_eq_true_eq] at *
      exact hij.trans hjk
  | true =>
      simp only [earlier, if_true, decide_eq_true_eq] at *
      exact hjk.trans hij

/-- How far an element of the vector is in traversal order. -/
def rank (size : Nat) (fromLast : Bool) (i : Nat) : Nat :=
  if fromLast then size - i else i

theorem rank_lt {size i j : Nat} (hi : i < size) (hearlier : earlier fromLast i j) :
    rank size fromLast i < rank size fromLast j := by
  cases fromLast with
  | false => simpa [rank, earlier] using hearlier
  | true =>
      simp only [rank, earlier, if_true, decide_eq_true_eq] at *
      omega

/-- The first of a class in traversal order is never marked, so one that was left has
an equal before it exactly when one of those left is. -/
theorem isDuplicate_iff_left (hfacts : EqualityFacts collator values keys)
    (hmarks : ∀ i < values.size, FirstMark values collator keys fromLast i (output.getD i 0))
    {i : Nat} (hi : i ∈ left values keys output) :
    isDuplicate values collator fromLast i ↔ ∃ j ∈ left values keys output,
      earlier fromLast j i ∧ collate values collator j i = .eq := by
  obtain ⟨hpresent, hincomplete, _⟩ := mem_left.mp hi
  rw [isDuplicate_iff]
  constructor
  · rintro ⟨j, hj, hearlier, hequal⟩
    -- go back from one marked element of the class to the one that marked it
    induction hrank : rank values.size fromLast j using Nat.strong_induction_on generalizing j with
    | _ n ih =>
        obtain ⟨hna, heq⟩ := present_of_collatesEqual hequal hpresent
        rcases (hmarks j hj).bit with hzero | hone
        · refine ⟨j, mem_left.mpr ⟨hna, ?_, hzero⟩, hearlier, heq⟩
          rw [(hfacts.same j i hna hpresent heq).2, hincomplete]
        · obtain ⟨k, hk, hkj, hkequal⟩ := isDuplicate_iff.mp ((hmarks j hj).sound hone)
          obtain ⟨hkna, hkeq⟩ := present_of_collatesEqual hkequal hna
          have hki : collatesEqual values collator k i :=
            (collatesEqual_of_present hkna hpresent).mpr (Std.TransCmp.eq_trans hkeq heq)
          exact ih _ (hrank ▸ rank_lt hk hkj) k hk (earlier_trans hkj hearlier) hki rfl
  · rintro ⟨j, hj, hearlier, heq⟩
    have hna := (mem_left.mp hj).1
    exact ⟨j, Inputs.lt_size hna, hearlier, (collatesEqual_of_present hna hpresent).mpr heq⟩

/-- The second pass corrects what the first left, and nothing else. -/
theorem getD_secondPass (hfacts : EqualityFacts collator values keys)
    (houtput : output.length = values.size)
    (hmarks : ∀ i < values.size, FirstMark values collator keys fromLast i (output.getD i 0))
    {i : Nat} (hi : i < values.size) :
    (secondPass values fromLast collator keys output).getD i 0 =
      if isDuplicate values collator fromLast i then 1 else 0 := by
  have hplaced := placed_leftOrder hfacts output
  rw [← houtput] at hplaced
  obtain ⟨hholds, hclosed⟩ := markRuns_holds values collator fromLast hplaced
  rw [length_entriesAt] at hclosed
  rw [secondPass_eq hfacts]
  by_cases hleft : i ∈ left values keys output
  · have hmem : i ∈ leftOrder values collator keys output := mem_leftOrder.mpr hleft
    obtain ⟨p, hp, rfl⟩ := List.getElem_of_mem hmem
    have hwritten := hholds.written p (hclosed ▸ hp)
    rw [getD_index_leftOrder hfacts hp] at hwritten
    have hiff := (runMark_iff hfacts hp).trans (isDuplicate_iff_left hfacts hmarks hleft).symm
    rw [hwritten]
    split
    next hdup => exact hiff.mpr hdup
    next hdup => exact runMark_eq_zero fun hone => hdup (hiff.mp hone)
  · rw [hholds.kept i]
    · obtain ⟨hbit, hsound, hexact⟩ := hmarks i hi
      split
      next hdup =>
        apply hbit.resolve_left
        intro hzero
        have hdecided : values.isNa i ∨ (keys.getD i default).complete := by
          by_contra hundecided
          rw [not_or, Bool.not_eq_true, Bool.not_eq_true] at hundecided
          exact hleft (mem_left.mpr ⟨hundecided.1, hundecided.2, hzero⟩)
        rw [hexact hdecided hdup] at hzero
        exact absurd hzero (by decide)
      next hdup => exact hbit.resolve_right fun hone => hdup (hsound hone)
    · intro p hp heq
      rw [hclosed] at hp
      rw [getD_index_leftOrder hfacts hp] at heq
      exact hleft (mem_leftOrder.mp (heq ▸ List.getElem_mem hp))

/-- After the second pass every value has the mark of a duplicate. -/
theorem secondPass_marks (hfacts : EqualityFacts collator values keys)
    (houtput : output.length = values.size)
    (hmarks : ∀ i < values.size, FirstMark values collator keys fromLast i (output.getD i 0)) :
    secondPass values fromLast collator keys output = duplicates values collator fromLast := by
  have hlength : (secondPass values fromLast collator keys output).length = values.size := by
    have hplaced := placed_leftOrder hfacts output
    rw [← houtput] at hplaced
    rw [secondPass_eq hfacts, (markRuns_holds values collator fromLast hplaced).1.length_eq,
      houtput]
  apply List.ext_getElem
  · rw [hlength, duplicates, List.length_map, List.length_range]
  · intro i hi _
    have hget := getD_secondPass hfacts houtput hmarks (hlength ▸ hi)
    rw [List.getD_eq_getElem _ _ hi] at hget
    simpa [duplicates] using hget

end Leaving

section Marked

variable {values : Inputs} {collator : Collator} {keys : List CollationPrefix}

/-- The first pass starts with an empty table that has room for every value. -/
theorem firstPass_start (keys : List CollationPrefix) (fromLast : Bool) {output : List Int}
    (houtput : output.length = values.size) {table : IndexHashTable}
    (hempty : ∃ capacity, table.slots = List.replicate capacity none)
    (hcapacity : 2 * values.present.length ≤ table.slots.length)
    (hmasked : ∀ n, n &&& table.mask = n % table.slots.length) :
    FirstPass.Holds values collator keys fromLast [] ⟨table, false, output⟩ := by
  obtain ⟨capacity, hslots⟩ := hempty
  refine ⟨⟨hmasked, Nat.le_trans (by omega) hcapacity, ?_, ?_, by simp, ?_⟩, rfl, houtput, by simp⟩
  · rw [hslots]
    exact LinearProbing.chained_replicate _ _
  · intro slot held hget
    rw [hslots, List.getD_eq_getElem?_getD, List.getElem?_replicate] at hget
    split at hget <;> simp at hget
  · rw [hslots, LinearProbing.occupied_replicate]
    exact Nat.zero_le _

/-- The vector from its last element to its first. -/
def Inputs.reversed (values : Inputs) : Inputs where
  views := values.views.reverse
  length_le := by
    rw [List.length_reverse]
    exact values.length_le

theorem size_reversed (values : Inputs) : values.reversed.size = values.size :=
  List.length_reverse

theorem view_reversed {i : Nat} (hi : i < values.size) :
    values.reversed.view i = values.view (values.size - 1 - i) := by
  rw [Inputs.view, Inputs.view, Inputs.reversed, List.getD_eq_getElem?_getD,
    List.getElem?_reverse hi, ← List.getD_eq_getElem?_getD]
  rfl

theorem collatesEqual_reversed {i j : Nat} (hi : i < values.size) (hj : j < values.size) :
    collatesEqual values.reversed collator j i =
      collatesEqual values collator (values.size - 1 - j) (values.size - 1 - i) := by
  unfold collatesEqual collate Inputs.isNa Inputs.text
  rw [view_reversed hi, view_reversed hj]

/-- Duplicates from the last on are duplicates from the first on of the reversed values. -/
theorem isDuplicate_reversed {i : Nat} (hi : i < values.size) :
    isDuplicate values.reversed collator false (values.size - 1 - i) =
      isDuplicate values collator true i := by
  rw [Bool.eq_iff_iff, isDuplicate_iff, isDuplicate_iff, size_reversed]
  simp only [earlier, Bool.false_eq_true, if_false, if_true, decide_eq_true_eq]
  have hback : values.size - 1 - (values.size - 1 - i) = i := by omega
  constructor
  · rintro ⟨j, hj, hlt, hequal⟩
    rw [collatesEqual_reversed (by omega) hj, hback] at hequal
    exact ⟨values.size - 1 - j, by omega, by omega, hequal⟩
  · rintro ⟨j, hj, hlt, hequal⟩
    refine ⟨values.size - 1 - j, by omega, by omega, ?_⟩
    rw [collatesEqual_reversed (by omega) (by omega), hback,
      show values.size - 1 - (values.size - 1 - j) = j by omega]
    exact hequal

theorem duplicates_reversed :
    duplicates values.reversed collator false = (duplicates values collator true).reverse := by
  apply List.ext_getElem
  · simp [duplicates, size_reversed]
  · intro i hi _
    have hi' : i < values.size := by simpa [duplicates, size_reversed] using hi
    have hmirror : isDuplicate values.reversed collator false
        (values.size - 1 - (values.size - 1 - i)) =
          isDuplicate values collator true (values.size - 1 - i) :=
      isDuplicate_reversed (by omega)
    rw [show values.size - 1 - (values.size - 1 - i) = i by omega] at hmirror
    simp [duplicates, hmirror]

variable [Std.TransCmp collator.compare]

/-- The marks of a call are those of the duplicates. -/
theorem markCollationDuplicates_eq (hfacts : EqualityFacts collator values keys) (fromLast : Bool)
    {output : List Int} (houtput : output.length = values.size) :
    markCollationDuplicates values fromLast collator keys output =
      .ok (some (duplicates values collator fromLast)) := by
  have hcount : (List.range values.size).countP (fun i => !values.isNa i) =
      values.present.length := by
    rw [List.countP_eq_length_filter, Inputs.present]
  have hsmall : values.present.length ≤ intMax := by
    apply Nat.le_trans _ values.length_le
    rw [← hcount]
    apply Nat.le_trans List.countP_le_length
    rw [List.length_range, Inputs.size]
  obtain ⟨table, hreset, hempty, hcapacity, hmasked⟩ := IndexHashTable.reset_spec hsmall
  have hstart : FirstPass.Holds values collator keys fromLast [] ⟨table, false, output⟩ :=
    firstPass_start keys fromLast houtput hempty hcapacity hmasked
  obtain ⟨last, hrun, hholds⟩ := firstPass_holds hfacts hstart (Nat.le_refl values.size)
  have hmarks (i : Nat) (hi : i < values.size) :
      FirstMark values collator keys fromLast i (last.output.getD i 0) :=
    hholds.marks i ((traversal_perm values.size fromLast).mem_iff.mpr (List.mem_range.mpr hi))
  have hpass : (traversal values.size fromLast).foldlM (firstPassStep values keys)
      ⟨table, false, output⟩ = some last := hrun
  unfold markCollationDuplicates
  simp only [hcount, hreset]
  change Except.ok (((traversal values.size fromLast).foldlM (firstPassStep values keys)
    ⟨table, false, output⟩).map _) = _
  rw [hpass, Option.map_some, secondPass_marks hfacts hholds.length_eq hmarks]

/-- Every walk ends, whatever collides, and the marks are those of the elements that
collate equal to an earlier one; from the last they are the mirror image. -/
theorem markCollationDuplicates_marks_duplicates (hkeys : EqualKeys collator) (values : Inputs)
    (keys : List CollationPrefix) (hlength : keys.length = values.size) (output : List Int)
    (houtput : output.length = values.size) :
    (∀ fromLast, markCollationDuplicates values fromLast collator
        (computeCollationPrefixes values 0 values.size collator keys) output =
      .ok (some (duplicates values collator fromLast))) ∧
    markCollationDuplicates values.reversed false collator
        (computeCollationPrefixes values.reversed 0 values.size collator keys) output =
      .ok (some (duplicates values collator true).reverse) := by
  constructor
  · intro fromLast
    exact markCollationDuplicates_eq (.computed hkeys hlength) fromLast houtput
  · rw [← duplicates_reversed]
    have hfacts : EqualityFacts collator values.reversed
        (computeCollationPrefixes values.reversed 0 values.size collator keys) := by
      rw [← size_reversed values]
      exact .computed hkeys (by rw [hlength, size_reversed])
    exact markCollationDuplicates_eq hfacts false (by rw [houtput, size_reversed])

theorem length_single_le : [(97 : UInt8)].length ≤ intMax := by decide

/-- `"bbbbbbbb"`, `NA`, `"BBBBBBBB"`, `"a"` and `NA` -/
def repeated : Inputs :=
  ⟨[asciiView (List.replicate 8 98) (by decide), .na,
    asciiView (List.replicate 8 66) (by decide), asciiView [97] length_single_le, .na], by decide⟩

theorem repeated_marks :
    (∀ fromLast, markCollationDuplicates repeated fromLast primaryCollator
        (computeCollationPrefixes repeated 0 5 primaryCollator (List.replicate 5 default))
          (List.replicate 5 0) =
      .ok (some (if fromLast then [1, 1, 0, 0, 0] else [0, 0, 1, 0, 1]))) ∧
    markCollationDuplicates repeated.reversed false primaryCollator
        (computeCollationPrefixes repeated.reversed 0 5 primaryCollator (List.replicate 5 default))
          (List.replicate 5 0) =
      .ok (some [0, 0, 0, 1, 1]) := by
  have hmarks := markCollationDuplicates_marks_duplicates primaryCollator_orderedKeys.equalKeys
    repeated (List.replicate 5 default) rfl (List.replicate 5 0) rfl
  constructor
  · intro fromLast
    cases fromLast with
    | false => exact hmarks.1 false
    | true => exact hmarks.1 true
  · exact hmarks.2

end Marked

end Charr.Collation
