import Mathlib.Data.List.Basic
import Mathlib.Order.Nat

/-!
# Runs of a sorted list

A list sorted by a three-way comparison falls into runs of equal entries. Whether
an entry starts or ends its run can be read off its neighbours.
-/

namespace SortedRuns

variable {Entry : Type*} {cmp : Entry → Entry → Ordering} {entries : List Entry}

/-- No entry stands after a greater one. -/
def Sorted (cmp : Entry → Entry → Ordering) (entries : List Entry) : Prop :=
  entries.Pairwise fun first second => (cmp first second).isLE

/-- Sorted entries do not go down. -/
theorem Sorted.isLE (hsorted : Sorted cmp entries) {i j : Nat} (hij : i < j)
    (hj : j < entries.length) : (cmp entries[i] entries[j]).isLE :=
  List.pairwise_iff_getElem.mp hsorted i j (hij.trans hj) hj hij

variable [Std.TransCmp cmp]

theorem Sorted.isLE_of_le (hsorted : Sorted cmp entries) {i j : Nat} (hij : i ≤ j)
    (hj : j < entries.length) : (cmp entries[i] entries[j]).isLE := by
  rcases hij.lt_or_eq with hlt | rfl
  · exact hsorted.isLE hlt hj
  · exact Std.ReflCmp.isLE_rfl

/-- Sorting by a comparison yields a sorted list. -/
theorem sorted_mergeSort (entries : List Entry) :
    Sorted cmp (entries.mergeSort fun first second => (cmp first second).isLE) := by
  apply List.pairwise_mergeSort
  · intro first second third
    exact Std.TransCmp.isLE_trans
  · intro first second
    rw [show cmp second first = _ from Std.OrientedCmp.eq_swap]
    cases cmp first second <;> rfl

/-- What lies between two equal entries equals both. -/
theorem eq_of_between {first second third : Entry} (hfirst : (cmp first second).isLE)
    (hsecond : (cmp second third).isLE) (heq : cmp first third = .eq) :
    cmp first second = .eq ∧ cmp second third = .eq := by
  constructor
  · apply Std.OrientedCmp.isLE_antisymm hfirst
    exact Std.TransCmp.isLE_trans hsecond (by rw [Std.OrientedCmp.eq_symm heq]; rfl)
  · apply Std.OrientedCmp.isLE_antisymm hsecond
    exact Std.TransCmp.isLE_trans (by rw [Std.OrientedCmp.eq_symm heq]; rfl) hfirst

/-- An entry has an equal one before it when its left neighbour is one. -/
theorem Sorted.exists_before_iff (hsorted : Sorted cmp entries) {i : Nat}
    (hi : i < entries.length) :
    (∃ (j : Nat) (_ : j < i), cmp entries[j] entries[i] = .eq) ↔
      ∃ _ : 0 < i, cmp entries[i - 1] entries[i] = .eq := by
  constructor
  · rintro ⟨j, hj, heq⟩
    have hleft := hsorted.isLE_of_le (Nat.le_sub_one_of_lt hj) (by omega)
    have hright := hsorted.isLE_of_le (Nat.sub_le i 1) hi
    exact ⟨Nat.zero_lt_of_lt hj, (eq_of_between hleft hright heq).2⟩
  · rintro ⟨hpos, heq⟩
    exact ⟨i - 1, Nat.sub_one_lt_of_lt hpos, heq⟩

/-- An entry has an equal one after it when its right neighbour is one. -/
theorem Sorted.exists_after_iff (hsorted : Sorted cmp entries) {i : Nat}
    (hi : i < entries.length) :
    (∃ (j : Nat) (_ : i < j) (_ : j < entries.length), cmp entries[i] entries[j] = .eq) ↔
      ∃ _ : i + 1 < entries.length, cmp entries[i] entries[i + 1] = .eq := by
  constructor
  · rintro ⟨j, hij, hj, heq⟩
    have hnext : i + 1 < entries.length := Nat.lt_of_le_of_lt hij hj
    have hleft := hsorted.isLE (Nat.lt_succ_self i) hnext
    have hright := hsorted.isLE_of_le hij hj
    exact ⟨hnext, (eq_of_between hleft hright heq).1⟩
  · rintro ⟨hnext, heq⟩
    exact ⟨i + 1, Nat.lt_succ_self i, hnext, heq⟩

/-- As many entries are strictly less than the first of a run as stand before it. -/
theorem Sorted.countP_lt (hsorted : Sorted cmp entries) {i : Nat} (hi : i < entries.length)
    (hstart : ∀ _ : 0 < i, cmp entries[i - 1] entries[i] ≠ .eq) :
    entries.countP (fun entry => cmp entry entries[i] = .lt) = i := by
  have hbefore : (entries.take i).countP (fun entry => cmp entry entries[i] = .lt) = i := by
    rw [List.countP_eq_length.mpr, List.length_take_of_le hi.le]
    intro entry hentry
    obtain ⟨j, hj, rfl⟩ := List.getElem_of_mem hentry
    have hji : j < i := by
      rw [List.length_take] at hj
      exact (Nat.lt_min.mp hj).1
    have hne : cmp entries[j] entries[i] ≠ .eq := by
      intro heq
      obtain ⟨hpos, hlast⟩ := (hsorted.exists_before_iff hi).mp ⟨j, hji, heq⟩
      exact hstart hpos hlast
    have hle := hsorted.isLE hji hi
    simp only [List.getElem_take, decide_eq_true_eq]
    exact Ordering.isLE_iff_eq_lt_or_eq_eq.mp hle |>.resolve_right hne
  have hafter : (entries.drop i).countP (fun entry => cmp entry entries[i] = .lt) = 0 := by
    rw [List.countP_eq_zero]
    intro entry hentry
    obtain ⟨j, hj, rfl⟩ := List.getElem_of_mem hentry
    rw [List.length_drop] at hj
    have hle := hsorted.isLE_of_le (Nat.le_add_right i j) (by omega)
    simp only [List.getElem_drop, decide_eq_true_eq]
    intro hlt
    exact Std.OrientedCmp.not_isLE_of_lt hlt hle
  calc entries.countP (fun entry => cmp entry entries[i] = .lt)
      = (entries.take i ++ entries.drop i).countP
          (fun entry => cmp entry entries[i] = .lt) := by rw [List.take_append_drop]
    _ = i := by rw [List.countP_append, hbefore, hafter, Nat.add_zero]

/-- Equal entries have the same entries strictly before them. -/
theorem countP_lt_congr {first second : Entry} (heq : cmp first second = .eq) :
    entries.countP (fun entry => cmp entry first = .lt) =
      entries.countP (fun entry => cmp entry second = .lt) := by
  apply List.countP_congr
  intro entry _
  rw [Std.TransCmp.congr_right heq]

end SortedRuns
