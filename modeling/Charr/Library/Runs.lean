import Mathlib.Data.List.Basic
import Mathlib.Order.Nat

/-!
# Maximal runs

The indices with a property fall into runs of neighbours. A loop that meets the indices in
order and extends its last run in place collects the runs that cannot be made longer.
-/

namespace Runs

/-- Neighbours with the property, from the first index up to the second, with none in front
and none behind. -/
structure IsRun (holds : Nat → Prop) (run : Nat × Nat) : Prop where
  lt : run.1 < run.2
  inside : ∀ index, run.1 ≤ index → index < run.2 → holds index
  left : ∀ index, index + 1 = run.1 → ¬ holds index
  right : ¬ holds run.2

/-- Runs with gaps between them that hold all indices with the property. -/
structure Covers (holds : Nat → Prop) (runs : List (Nat × Nat)) : Prop where
  separated : runs.Pairwise fun first second => first.2 < second.1
  nonempty : ∀ run ∈ runs, run.1 < run.2
  holds_iff : ∀ index, holds index ↔ ∃ run ∈ runs, run.1 ≤ index ∧ index < run.2

/-- The last run extended by `index` if it ends there, else a run of its own. -/
def push (runs : List (Nat × Nat)) (index : Nat) : List (Nat × Nat) :=
  match runs.getLast? with
  | none => [(index, index + 1)]
  | some last =>
      if last.2 = index then runs.dropLast ++ [(last.1, index + 1)]
      else runs ++ [(index, index + 1)]

section Covers

variable {holds : Nat → Prop} {runs : List (Nat × Nat)}

theorem covers_nil (hnone : ∀ index, ¬ holds index) : Covers holds [] :=
  ⟨.nil, by simp, fun index => iff_of_false (hnone index) (by simp)⟩

/-- An index lies in one run only, and neither do its neighbours lie in another. -/
theorem Covers.eq_of_near (hcovers : Covers holds runs) {first second : Nat × Nat}
    (hfirst : first ∈ runs) (hsecond : second ∈ runs) (hleft : second.1 ≤ first.2)
    (hright : first.1 ≤ second.2) : first = second := by
  obtain ⟨i, hi, rfl⟩ := List.mem_iff_getElem.mp hfirst
  obtain ⟨j, hj, rfl⟩ := List.mem_iff_getElem.mp hsecond
  have hapart := List.pairwise_iff_getElem.mp hcovers.separated
  rcases Nat.lt_trichotomy i j with hless | rfl | hmore
  · exact absurd (hapart i j hi hj hless) (Nat.not_lt.mpr hleft)
  · rfl
  · exact absurd (hapart j i hj hi hmore) (Nat.not_lt.mpr hright)

/-- The runs are those that cannot be made longer. -/
theorem Covers.mem_iff (hcovers : Covers holds runs) (run : Nat × Nat) :
    run ∈ runs ↔ IsRun holds run := by
  constructor
  · intro hmem
    have hlt := hcovers.nonempty run hmem
    refine ⟨hlt, ?_, ?_, ?_⟩
    · intro index hlow hhigh
      exact (hcovers.holds_iff index).mpr ⟨run, hmem, hlow, hhigh⟩
    · intro index hindex hholds
      obtain ⟨other, hother, hlow, hhigh⟩ := (hcovers.holds_iff index).mp hholds
      have heq := hcovers.eq_of_near hmem hother (by omega) (by omega)
      subst heq
      omega
    · intro hholds
      obtain ⟨other, hother, hlow, hhigh⟩ := (hcovers.holds_iff run.2).mp hholds
      have heq := hcovers.eq_of_near hmem hother (by omega) (by omega)
      subst heq
      omega
  · intro hrun
    obtain ⟨other, hother, hlow, hhigh⟩ :=
      (hcovers.holds_iff run.1).mp (hrun.inside run.1 le_rfl hrun.lt)
    have hstart : other.1 = run.1 := by
      by_contra hne
      apply hrun.left (run.1 - 1) (by omega)
      exact (hcovers.holds_iff _).mpr ⟨other, hother, by omega, by omega⟩
    have hstop : other.2 = run.2 := by
      rcases Nat.lt_trichotomy other.2 run.2 with hless | heq | hmore
      · have hholds := hrun.inside other.2 (by omega) hless
        obtain ⟨third, hthird, hlow', hhigh'⟩ := (hcovers.holds_iff _).mp hholds
        have heq := hcovers.eq_of_near hother hthird (by omega) (by omega)
        subst heq
        omega
      · exact heq
      · have hlt := hrun.lt
        exact absurd ((hcovers.holds_iff run.2).mpr ⟨other, hother, by omega, hmore⟩) hrun.right
    rwa [show run = other from Prod.ext hstart.symm hstop.symm]

/-- A further index behind all others. -/
theorem Covers.push (hcovers : Covers holds runs) {index : Nat}
    (hbehind : ∀ other, holds other → other < index) :
    Covers (fun other => holds other ∨ other = index) (push runs index) := by
  have hend : ∀ run ∈ runs, run.2 ≤ index := by
    intro run hrun
    have hlt := hcovers.nonempty run hrun
    have hlast := hbehind (run.2 - 1)
      ((hcovers.holds_iff _).mpr ⟨run, hrun, by omega, by omega⟩)
    omega
  unfold Runs.push
  -- no run yet, one that ends at the index and is made longer, or a new one behind it
  rcases List.eq_nil_or_concat' runs with rfl | ⟨front, last, rfl⟩
  · refine ⟨by simp, by simp, ?_⟩
    intro other
    -- the new run holds the index only
    have hnone : ¬ holds other := by
      rw [hcovers.holds_iff]
      simp
    simp only [hnone, false_or, List.getLast?_nil, List.mem_singleton, exists_eq_left]
    omega
  · obtain ⟨hfront, -, hgap⟩ := List.pairwise_append.mp hcovers.separated
    have hlast := hcovers.nonempty last (by simp)
    have hlast' := hend last (by simp)
    rw [List.getLast?_concat, List.dropLast_concat]
    simp only
    split
    next hend' =>
      refine ⟨?_, ?_, ?_⟩
      · rw [List.pairwise_append]
        refine ⟨hfront, List.pairwise_singleton _ _, ?_⟩
        intro run hrun other hother
        rw [List.mem_singleton.mp hother]
        exact hgap run hrun last (by simp)
      · intro run hrun
        rcases List.mem_append.mp hrun with hrun | hrun
        · exact hcovers.nonempty run (List.mem_append_left _ hrun)
        · rw [List.mem_singleton.mp hrun]
          dsimp only
          omega
      · intro other
        rw [hcovers.holds_iff]
        simp only [List.mem_append, List.mem_singleton, or_and_right, exists_or, exists_eq_left]
        rw [or_assoc]
        apply or_congr_right
        omega
    next hend' =>
      refine ⟨?_, ?_, ?_⟩
      · rw [List.pairwise_append]
        refine ⟨hcovers.separated, List.pairwise_singleton _ _, ?_⟩
        intro run hrun other hother
        rw [List.mem_singleton.mp hother]
        rcases List.mem_append.mp hrun with hrun | hrun
        · have hless := hgap run hrun last (by simp)
          dsimp only
          omega
        · rw [List.mem_singleton.mp hrun]
          dsimp only
          omega
      · intro run hrun
        rcases List.mem_append.mp hrun with hrun | hrun
        · exact hcovers.nonempty run hrun
        · rw [List.mem_singleton.mp hrun]
          exact Nat.lt_succ_self _
      · intro other
        rw [hcovers.holds_iff]
        simp only [List.mem_append, List.mem_singleton, or_and_right, exists_or, exists_eq_left]
        apply or_congr_right
        omega

end Covers

/-! ## Collecting runs -/

section Collect

variable (holds : Nat → Bool)

/-- What a loop has collected when it has met the first `count` indices. -/
def collect : Nat → List (Nat × Nat)
  | 0 => []
  | count + 1 => if holds count then push (collect count) count else collect count

/-- The same without extending runs. -/
def singles : Nat → List (Nat × Nat)
  | 0 => []
  | count + 1 =>
      if holds count then singles count ++ [(count, count + 1)] else singles count

variable {holds}

/-- The runs cover what holds below the count. -/
theorem covers_collect (count : Nat) :
    Covers (fun index => index < count ∧ holds index) (collect holds count) := by
  induction count with
  | zero => exact covers_nil (by simp)
  | succ count ih =>
      have hiff : ∀ index, (index < count + 1 ∧ holds index) ↔
          (index < count ∧ holds index) ∨ index = count ∧ holds count := by
        intro index
        constructor
        · rintro ⟨hlt, hholds⟩
          rcases Nat.lt_succ_iff_lt_or_eq.mp hlt with hless | rfl
          · exact .inl ⟨hless, hholds⟩
          · exact .inr ⟨rfl, hholds⟩
        · rintro (⟨hlt, hholds⟩ | ⟨rfl, hholds⟩)
          · exact ⟨Nat.lt_succ_of_lt hlt, hholds⟩
          · exact ⟨Nat.lt_succ_self _, hholds⟩
      rw [collect, funext fun index => propext (hiff index)]
      by_cases hholds : holds count
      · simp only [hholds, if_true, and_true]
        apply ih.push
        exact fun index hindex => hindex.1
      · simp only [hholds, if_false, Bool.false_eq_true, and_false, or_false]
        exact ih

/-- The single ranges, one for each index that holds. -/
theorem singles_eq (count : Nat) :
    singles holds count =
      ((List.range count).filter holds).map fun index => (index, index + 1) := by
  induction count with
  | zero => rfl
  | succ count ih =>
      rw [singles, List.range_succ, List.filter_append, List.map_append, ih]
      by_cases hholds : holds count
      · simp [hholds]
      · simp [hholds]

end Collect

end Runs
