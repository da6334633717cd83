import Charr.Wrap.Engine
import Charr.Wrap.Greedy
import Charr.Wrap.Matrices

/-!
# Where words are broken

However the words of a record are put on lines, the breaks come in order, and none is
behind the last word. Again the costs need only compare as not negative.
-/

namespace Charr.Wrap

open Loops

/-- Breaks in order, each before the last of `count` words. -/
structure Breaks (count : Nat) (wrapAfter : List Nat) : Prop where
  sorted : wrapAfter.Pairwise (· < ·)
  before : ∀ cut ∈ wrapAfter, cut + 1 < count

section Matrix

variable {words : List Word} {breaks : List Bool}

/-- No column breaks at its own word or behind it. -/
def Upper (words : List Word) (breaks : List Bool) : Prop :=
  ∀ row column, cell words.length breaks row column = some true → row < column

/-- Without breaks nothing is below the diagonal. -/
theorem upper_replicate : Upper words (List.replicate (words.length * words.length) false) := by
  intro row column hcell
  unfold cell at hcell
  split at hcell
  next =>
    rw [List.getElem?_replicate] at hcell
    split at hcell
    next => exact absurd hcell (by simp)
    next => exact absurd hcell (by simp)
  next => exact absurd hcell (by simp)

/-- A break that is set is above it. -/
theorem Upper.setCell (hupper : Upper words breaks) {i j : Nat} {value : Bool}
    (hvalue : value = true → i < j) {next : List Bool}
    (hnext : setCell words.length breaks i j value = some next) : Upper words next := by
  unfold Wrap.setCell at hnext
  split at hnext
  next hinside =>
    rw [Option.some_inj] at hnext
    subst hnext
    intro row column hcell
    unfold cell at hcell
    split at hcell
    next hat =>
      rw [List.getElem?_set] at hcell
      split at hcell
      next hplace =>
        obtain ⟨rfl, rfl⟩ := (place_inj hinside.2 hat.2).mp hplace
        split at hcell
        next => exact hvalue (Option.some_inj.mp hcell)
        next => exact absurd hcell (by simp)
      next =>
        apply hupper
        rw [cell_eq hat.1 hat.2]
        exact hcell
    next => exact absurd hcell (by simp)
  next => exact absurd hnext (by simp)

theorem Upper.copyBreaks (hupper : Upper words breaks) {i j : Nat} (hij : i < j)
    {next : List Bool} (hnext : copyBreaks words breaks i j = some next) : Upper words next := by
  obtain ⟨copied, hcopied, hset⟩ := Option.bind_eq_some_iff.mp hnext
  have hkept : Upper words copied := by
    refine forRange_keeps (fun _ => Upper words) hupper ?_ hcopied
    intro k breaks next _ hk hupper hstep
    obtain ⟨value, -, hset⟩ := Option.bind_eq_some_iff.mp hstep
    exact hupper.setCell (fun _ => by omega) hset
  exact hkept.setCell (fun _ => hij) hset

/-- The rows of the last column that are marked. -/
theorem collect_breaks (hupper : Upper words breaks) {wrapAfter : List Nat}
    (hcollect : forRange (collectStep words breaks) 0 words.length [] = some wrapAfter) :
    Breaks words.length wrapAfter := by
  have hkept := forRange_keeps
    (fun k wrapAfter => wrapAfter.Pairwise (· < ·) ∧ ∀ cut ∈ wrapAfter, cut < k ∧
      cell words.length breaks cut (words.length - 1) = some true)
    (by simp) (by
      rintro k wrapAfter next - - ⟨hsorted, hmarked⟩ hstep
      obtain ⟨broken, hcell, rfl⟩ := Option.map_eq_some_iff.mp hstep
      cases broken with
      | true =>
          rw [if_pos rfl]
          refine ⟨?_, ?_⟩
          · rw [List.pairwise_append]
            refine ⟨hsorted, by simp, ?_⟩
            intro cut hcut later hlater
            rw [List.mem_singleton.mp hlater]
            exact (hmarked cut hcut).1
          · intro cut hcut
            rcases List.mem_append.mp hcut with hmem | hmem
            · exact ⟨(hmarked cut hmem).1.trans (Nat.lt_succ_self k), (hmarked cut hmem).2⟩
            · rw [List.mem_singleton.mp hmem]
              exact ⟨Nat.lt_succ_self k, hcell⟩
      | false =>
          refine ⟨hsorted, ?_⟩
          intro cut hcut
          exact ⟨(hmarked cut hcut).1.trans (Nat.lt_succ_self k), (hmarked cut hcut).2⟩) hcollect
  refine ⟨hkept.1, ?_⟩
  intro cut hcut
  have hbefore := hupper _ _ (hkept.2 cut hcut).2
  omega

end Matrix

section Dynamic

variable {Cost : Type} [Zero Cost] [Add Cost] [LT Cost] [LE Cost] [DecidableLT Cost]
  [DecidableLE Cost] {words : List Word} {cost : List Cost} {j : Nat}

/-- The break that is chosen is before the last word. -/
theorem chooseBreak_lt (hcosts : CostsAgree words words.length 0 cost cost)
    (hj : j < words.length) (hpositive : 0 < j) {best : List Cost} {chosen : Cost × Nat}
    (hchosen : chooseBreak words cost best j = some chosen) : chosen.2 < j := by
  obtain ⟨i, hi, hscan, -⟩ := scanBreak_agree hcosts hj (Nat.zero_add (j + 1)) hpositive
  rw [chooseBreak, hscan, Option.bind_some] at hchosen
  obtain ⟨before, -, hchosen⟩ := Option.bind_eq_some_iff.mp hchosen
  obtain ⟨value, -, hchosen⟩ := Option.bind_eq_some_iff.mp hchosen
  refine forRange_keeps (fun _ state => state.2 < j) hi ?_ hchosen
  intro k state next _ hk hstate hstep
  obtain ⟨value, -, hstep⟩ := Option.bind_eq_some_iff.mp hstep
  split at hstep
  next =>
    rw [← Option.some_inj.mp hstep]
    exact hstate
  next =>
    obtain ⟨before, -, rfl⟩ := Option.map_eq_some_iff.mp hstep
    split
    next =>
      show k < j
      omega
    next => exact hstate

/-- A step keeps the breaks above the diagonal. -/
theorem bestStep_upper (hcosts : CostsAgree words words.length 0 cost cost)
    (hj : j < words.length) {state next : List Cost × List Bool} (hupper : Upper words state.2)
    (hstep : bestStep words cost state j = some next) : Upper words next.2 := by
  obtain ⟨whole, hwhole, -, hdiagonal⟩ := hcosts.rows 0 (by omega) j hj (Nat.zero_le j)
  rw [bestStep, hwhole, Option.bind_some] at hstep
  split at hstep
  next =>
    obtain ⟨best, -, rfl⟩ := Option.map_eq_some_iff.mp hstep
    exact hupper
  next hnegative =>
    have hpositive : 0 < j := Nat.pos_of_ne_zero fun heq => hnegative (hdiagonal heq.symm)
    obtain ⟨chosen, hchosen, hstep⟩ := Option.bind_eq_some_iff.mp hstep
    obtain ⟨breaks, hbreaks, hstep⟩ := Option.bind_eq_some_iff.mp hstep
    obtain ⟨best, -, rfl⟩ := Option.map_eq_some_iff.mp hstep
    exact hupper.copyBreaks (chooseBreak_lt hcosts hj hpositive hchosen) hbreaks

variable [One Cost] [Neg Cost] {widths : LineWidths} {power : Int → Cost}

/-- The breaks that are found are in order and inside. -/
theorem dynamic_breaks (hlaws : NonNegative power) {matrices left : Matrices Cost}
    {wrapAfter : List Nat}
    (hdynamic : dynamic widths power words matrices = .ok (left, wrapAfter)) :
    Breaks words.length wrapAfter := by
  rw [dynamic_eq] at hdynamic
  split at hdynamic
  next => exact absurd hdynamic (by simp)
  next =>
    split at hdynamic
    next => exact absurd hdynamic (by simp)
    next done hloops =>
      obtain rfl := Except.ok.inj hdynamic
      obtain ⟨cost, hcost, hloops⟩ := Option.bind_eq_some_iff.mp hloops
      obtain ⟨bests, hbests, hloops⟩ := Option.bind_eq_some_iff.mp hloops
      obtain ⟨found, hcollect, hfound⟩ := Option.map_eq_some_iff.mp hloops
      obtain ⟨-, rfl⟩ := Prod.mk.inj hfound
      have hcosts := @costRows_related _ _ _ widths power words _ _ _ _ _ _ hlaws
        (length_resize (words.length * words.length) matrices.cost)
        (length_resize (words.length * words.length) matrices.cost)
      rw [hcost] at hcosts
      cases hcosts with
      | some hcosts =>
          apply collect_breaks _ hcollect
          refine forRange_keeps (fun _ state => Upper words state.2) upper_replicate ?_ hbests
          intro k state next _ hk hupper hstep
          exact bestStep_upper hcosts (by omega) hupper hstep

/-- However the words are put on lines, they are broken in order and before the last. -/
theorem wrapWords_breaks {options : Options Cost} {pow : Int → Cost → Cost}
    (hpow : ¬ options.exponent ≤ 0 → NonNegative fun room => pow room options.exponent)
    (hwords : words ≠ []) {matrices left : Matrices Cost} {wrapAfter : List Nat}
    (hwrap : wrapWords options pow widths words matrices = .ok (left, wrapAfter)) :
    Breaks words.length wrapAfter := by
  unfold wrapWords at hwrap
  split at hwrap
  next =>
    obtain ⟨-, rfl⟩ := Prod.mk.inj (Except.ok.inj hwrap)
    exact ⟨.nil, by simp⟩
  next =>
    split at hwrap
    next =>
      obtain ⟨-, rfl⟩ := Prod.mk.inj (Except.ok.inj hwrap)
      have hlongest := @greedy_longest widths words hwords
      refine ⟨hlongest.sorted, ?_⟩
      intro cut hcut
      have hbefore := (hlongest.bounds cut hcut).2
      omega
    next hexponent => exact dynamic_breaks (hpow hexponent) hwrap

end Dynamic

end Charr.Wrap
