import Charr.Wrap.Optimal

/-!
# What the matrices held before

An engine keeps its matrices from record to record and never clears the costs. Every cell
the dynamic program reads has been written for the same record, so the breaks do not
depend on what was there. For this the costs need not be exact: zero and the power of
any room have to compare as not negative.
-/

namespace Charr.Wrap

open Loops

variable {Cost : Type} [Zero Cost] [LE Cost] {widths : LineWidths} {power : Int → Cost}
  {words : List Word}

/-- No cost of a line that fits compares as negative. -/
structure NonNegative (power : Int → Cost) : Prop where
  zero : (0 : Cost) ≤ 0
  power : ∀ room, 0 ≤ room → 0 ≤ power room

/-- One cell of both matrices, which is not negative on the diagonal. -/
def CellAgrees (words : List Word) (cost cost' : List Cost) (row column : Nat) : Prop :=
  ∃ value, cell words.length cost row column = some value ∧
    cell words.length cost' row column = some value ∧ (row = column → 0 ≤ value)

/-- The cells that have been written, up to row `i` and column `j`, are the same. -/
structure CostsAgree (words : List Word) (i j : Nat) (cost cost' : List Cost) : Prop where
  length_eq : cost.length = words.length * words.length
  length_eq' : cost'.length = words.length * words.length
  rows : ∀ row < i, ∀ column < words.length, row ≤ column → CellAgrees words cost cost' row column
  row : ∀ column < j, i ≤ column → CellAgrees words cost cost' i column

section Costs

variable {cost cost' : List Cost} {i j : Nat}

/-- Both matrices get the same cell. -/
theorem setCell_agree (hi : i ≤ j) (hj : j < words.length)
    (hcosts : CostsAgree words i j cost cost') {value : Cost} (hvalue : j = i → 0 ≤ value) :
    ∃ next next', setCell words.length cost i j value = some next ∧
      setCell words.length cost' i j value = some next' ∧
      CostsAgree words i (j + 1) next next' := by
  obtain ⟨next, hnext, hlength, hcells⟩ :=
    setCell_spec hcosts.length_eq (hi.trans_lt hj) hj value
  obtain ⟨next', hnext', hlength', hcells'⟩ :=
    setCell_spec hcosts.length_eq' (hi.trans_lt hj) hj value
  have hkept : ∀ row column, ¬ (row = i ∧ column = j) → CellAgrees words cost cost' row column →
      CellAgrees words next next' row column := by
    rintro row column hother ⟨held, hheld, hheld', hdiagonal⟩
    refine ⟨held, ?_, ?_, hdiagonal⟩
    · rw [hcells, if_neg hother, hheld]
    · rw [hcells', if_neg hother, hheld']
  refine ⟨next, next', hnext, hnext', hlength, hlength', ?_, ?_⟩
  · intro row hrow column hcolumn hle
    exact hkept row column (by omega) (hcosts.rows row hrow column hcolumn hle)
  · intro column hcolumn hle
    by_cases hsame : column = j
    · subst hsame
      refine ⟨value, ?_, ?_, fun heq => hvalue heq.symm⟩
      · rw [hcells, if_pos ⟨rfl, rfl⟩]
      · rw [hcells', if_pos ⟨rfl, rfl⟩]
    · exact hkept i column (by omega) (hcosts.row column (by omega) hle)

/-- The cost of a word that fits is not negative. -/
theorem lineCost_nonneg [One Cost] [Neg Cost] (hlaws : NonNegative power) (remaining : Int) :
    0 ≤ lineCost power words i i remaining := by
  unfold lineCost
  split
  next =>
    rw [if_pos (.inl rfl)]
    exact hlaws.zero
  next =>
    rw [if_pos rfl]
    split
    next => exact hlaws.zero
    next hroom => exact hlaws.power _ (by omega)

variable [One Cost] [Neg Cost] [LT Cost] [DecidableLT Cost]

/-- A step writes the same cost into both matrices. -/
theorem costStep_related (hlaws : NonNegative power) (hi : i ≤ j) (hj : j < words.length)
    {state state' : List Cost × Int} (hcosts : CostsAgree words i j state.1 state'.1)
    (hsum : state.2 = state'.2) :
    Option.Rel (fun next next' : List Cost × Int =>
        CostsAgree words i (j + 1) next.1 next'.1 ∧ next.2 = next'.2)
      (costStep widths power words i state j) (costStep widths power words i state' j) := by
  obtain ⟨cost, sum⟩ := state
  obtain ⟨cost', sum'⟩ := state'
  obtain rfl : sum = sum' := hsum
  have hlong : alreadyLong words cost i j = alreadyLong words cost' i j := by
    unfold alreadyLong
    split
    next hlt =>
      obtain ⟨value, hvalue, hvalue', -⟩ := hcosts.row (j - 1) (by omega) (by omega)
      rw [hvalue, hvalue']
    next => rfl
  unfold costStep
  simp only [hlong]
  cases hdecided : alreadyLong words cost' i j with
  | none => exact .none
  | some long =>
      simp only [Option.bind_some]
      split
      next htoo =>
        have hne : j ≠ i := by
          rintro rfl
          rw [alreadyLong, if_neg (Nat.lt_irrefl j)] at hdecided
          rw [← Option.some_inj.mp hdecided] at htoo
          exact Bool.noConfusion htoo
        obtain ⟨next, next', hnext, hnext', hkept⟩ :=
          @setCell_agree _ _ _ words cost cost' i j hi hj hcosts (-1) fun heq => absurd heq hne
        rw [hnext, hnext']
        exact .some ⟨hkept, rfl⟩
      next =>
        cases extendSum words i j sum with
        | none => exact .none
        | some total =>
            simp only [Option.bind_some]
            generalize hroom : widths.width - total -
              (if i = 0 then widths.first else widths.later) = room
            obtain ⟨next, next', hnext, hnext', hkept⟩ :=
              @setCell_agree _ _ _ words cost cost' i j hi hj hcosts
                (lineCost power words i j room) (by
                  rintro rfl
                  exact lineCost_nonneg hlaws room)
            rw [hnext, hnext']
            exact .some ⟨hkept, rfl⟩

/-- All rows give the same costs. -/
theorem costRows_related (hlaws : NonNegative power)
    (hlength : cost.length = words.length * words.length)
    (hlength' : cost'.length = words.length * words.length) :
    Option.Rel (CostsAgree words words.length 0)
      (forRange (costRow widths power words) 0 words.length cost)
      (forRange (costRow widths power words) 0 words.length cost') := by
  have hloop := forRange_related (costRow widths power words) (costRow widths power words) 0
    words.length cost cost' (fun i => CostsAgree words i 0) ⟨hlength, hlength', by simp, by simp⟩
  rw [Nat.zero_add] at hloop
  apply hloop
  intro i cost cost' _ hi hcosts
  have hrow := forRange_related (costStep widths power words i) (costStep widths power words i) i
    (words.length - i) (cost, 0) (cost', 0)
    (fun j state state' => CostsAgree words i j state.1 state'.1 ∧ state.2 = state'.2)
    ⟨⟨hcosts.length_eq, hcosts.length_eq', hcosts.rows, by omega⟩, rfl⟩
    (fun j state state' hle hlt hstate =>
      costStep_related hlaws hle (by omega) hstate.1 hstate.2)
  rw [Nat.add_sub_cancel' (by omega)] at hrow
  unfold costRow
  generalize forRange (costStep widths power words i) i (words.length - i) (cost, 0) = left at hrow
  generalize forRange (costStep widths power words i) i (words.length - i) (cost', 0) = right
    at hrow
  cases hrow with
  | none => exact .none
  | some hfilled =>
      refine .some ⟨hfilled.1.length_eq, hfilled.1.length_eq', ?_, by simp⟩
      intro row hrow column hcolumn hle
      rcases Nat.lt_succ_iff_lt_or_eq.mp hrow with hlt | rfl
      · exact hfilled.1.rows row hlt column hcolumn hle
      · exact hfilled.1.row column hcolumn hle

end Costs

section Bests

variable [DecidableLE Cost] {cost cost' : List Cost}

/-- The scan ends at the line of one word at the latest. -/
theorem scanBreak_agree (hcosts : CostsAgree words words.length 0 cost cost')
    (hj : j < words.length) {fuel i : Nat} (hfuel : i + fuel = j + 1) (hi : i < j) :
    ∃ found < j, scanBreak words cost j fuel i = some found ∧
      scanBreak words cost' j fuel i = some found := by
  induction fuel generalizing i with
  | zero => omega
  | succ fuel ih =>
      obtain ⟨value, hvalue, hvalue', hdiagonal⟩ := hcosts.rows (i + 1) (by omega) j hj (by omega)
      rw [scanBreak, scanBreak, hvalue, hvalue', Option.bind_some, Option.bind_some]
      by_cases hnonneg : 0 ≤ value
      · rw [if_pos hnonneg, if_pos hnonneg]
        exact ⟨i, hi, rfl, rfl⟩
      · rw [if_neg hnonneg, if_neg hnonneg]
        have hne : i + 1 ≠ j := fun heq => hnonneg (hdiagonal heq)
        exact ih (by omega) (by omega)

variable [Add Cost] [LT Cost] [DecidableLT Cost]
  (hcosts : CostsAgree words words.length 0 cost cost')
include hcosts

theorem chooseBreak_agree {j : Nat} (hj : j < words.length) (hpositive : 0 < j)
    {best best' : List Cost} (hbest : ∀ k < j, best[k]? = best'[k]?) :
    chooseBreak words cost best j = chooseBreak words cost' best' j := by
  obtain ⟨i, hi, hscan, hscan'⟩ := scanBreak_agree hcosts hj (Nat.zero_add (j + 1)) hpositive
  have hcell : ∀ k < j, cell words.length cost (k + 1) j = cell words.length cost' (k + 1) j := by
    intro k hk
    obtain ⟨value, hvalue, hvalue', -⟩ := hcosts.rows (k + 1) (by omega) j hj (by omega)
    rw [hvalue, hvalue']
  have hloop : ∀ state, forRange (chooseStep words cost best j) (i + 1) (j - (i + 1)) state =
      forRange (chooseStep words cost' best' j) (i + 1) (j - (i + 1)) state := by
    intro state
    have hrelated := forRange_related (chooseStep words cost best j)
      (chooseStep words cost' best' j) (i + 1) (j - (i + 1)) state state (fun _ => Eq) rfl (by
        rintro k state _ hlow hhigh rfl
        rw [chooseStep, chooseStep, hcell k (by omega), hbest k (by omega)]
        generalize Option.bind _ _ = result
        cases result with
        | none => exact .none
        | some value => exact .some rfl)
    revert hrelated
    generalize forRange (chooseStep words cost best j) (i + 1) (j - (i + 1)) state = left
    generalize forRange (chooseStep words cost' best' j) (i + 1) (j - (i + 1)) state = right
    intro hrelated
    cases hrelated with
    | none => rfl
    | some heq => rw [heq]
  simp only [chooseBreak, hscan, hscan', Option.bind_some, hbest i hi, hcell i hi, hloop]

theorem bestStep_related {j : Nat} (hj : j < words.length)
    {state state' : List Cost × List Bool} (hlength : state.1.length = words.length)
    (hlength' : state'.1.length = words.length) (hbest : ∀ k < j, state.1[k]? = state'.1[k]?)
    (hbreaks : state.2 = state'.2) :
    Option.Rel (fun next next' : List Cost × List Bool =>
        next.1.length = words.length ∧ next'.1.length = words.length ∧
        (∀ k < j + 1, next.1[k]? = next'.1[k]?) ∧ next.2 = next'.2)
      (bestStep words cost state j) (bestStep words cost' state' j) := by
  obtain ⟨best, breaks⟩ := state
  obtain ⟨best', breaks'⟩ := state'
  obtain rfl : breaks = breaks' := hbreaks
  -- both vectors get the same value at `j`
  have hset : ∀ value, ∃ next next', setAt best j value = some next ∧
      setAt best' j value = some next' ∧ next.length = words.length ∧
      next'.length = words.length ∧ ∀ k < j + 1, next[k]? = next'[k]? := by
    intro value
    obtain ⟨next, hnext, hnextLength, hvalues⟩ := setAt_spec (hlength.symm ▸ hj) value
    obtain ⟨next', hnext', hnextLength', hvalues'⟩ := setAt_spec (hlength'.symm ▸ hj) value
    refine ⟨next, next', hnext, hnext', hnextLength.trans hlength, hnextLength'.trans hlength', ?_⟩
    intro k hk
    rw [hvalues, hvalues']
    split
    next => rfl
    next hne => exact hbest k (by omega)
  obtain ⟨whole, hwhole, hwhole', hdiagonal⟩ := hcosts.rows 0 (by omega) j hj (Nat.zero_le j)
  rw [bestStep, bestStep, hwhole, hwhole', Option.bind_some, Option.bind_some]
  by_cases hnonneg : 0 ≤ whole
  · obtain ⟨next, next', hnext, hnext', hkept⟩ := hset whole
    rw [if_pos hnonneg, if_pos hnonneg, hnext, hnext']
    exact .some ⟨hkept.1, hkept.2.1, hkept.2.2, rfl⟩
  · have hpositive : 0 < j := Nat.pos_of_ne_zero fun heq => hnonneg (hdiagonal heq.symm)
    rw [if_neg hnonneg, if_neg hnonneg, chooseBreak_agree hcosts hj hpositive hbest]
    cases chooseBreak words cost' best' j with
    | none => exact .none
    | some chosen =>
        simp only [Option.bind_some]
        cases copyBreaks words breaks chosen.2 j with
        | none => exact .none
        | some copied =>
            obtain ⟨next, next', hnext, hnext', hkept⟩ := hset chosen.1
            simp only [Option.bind_some, hnext, hnext']
            exact .some ⟨hkept.1, hkept.2.1, hkept.2.2, rfl⟩

end Bests

variable [DecidableLE Cost] [One Cost] [Neg Cost] [Add Cost] [LT Cost] [DecidableLT Cost]

/-- The breaks do not depend on what the matrices held. -/
theorem dynamicLoops_matrices (hlaws : NonNegative power) (matrices matrices' : Matrices Cost) :
    (dynamicLoops widths power words matrices).map Prod.snd =
      (dynamicLoops widths power words matrices').map Prod.snd := by
  have hcosts : Option.Rel (CostsAgree words words.length 0)
      (forRange (costRow widths power words) 0 words.length
        (resize (words.length * words.length) matrices.cost))
      (forRange (costRow widths power words) 0 words.length
        (resize (words.length * words.length) matrices'.cost)) :=
    costRows_related hlaws (length_resize _ _) (length_resize _ _)
  unfold dynamicLoops
  simp only
  revert hcosts
  generalize forRange (costRow widths power words) 0 words.length
    (resize (words.length * words.length) matrices.cost) = left
  generalize forRange (costRow widths power words) 0 words.length
    (resize (words.length * words.length) matrices'.cost) = right
  intro hcosts
  cases hcosts with
  | none => rfl
  | @some cost cost' hcosts =>
      have hbests := forRange_related (bestStep words cost) (bestStep words cost') 0 words.length
        (resize words.length matrices.best, List.replicate (words.length * words.length) false)
        (resize words.length matrices'.best, List.replicate (words.length * words.length) false)
        (fun j state state' => state.1.length = words.length ∧ state'.1.length = words.length ∧
          (∀ k < j, state.1[k]? = state'.1[k]?) ∧ state.2 = state'.2)
        ⟨length_resize _ _, length_resize _ _, by simp, rfl⟩
        (fun j state state' _ hj hstate => bestStep_related hcosts (by omega) hstate.1 hstate.2.1
          hstate.2.2.1 hstate.2.2.2)
      simp only [Option.bind_some]
      revert hbests
      generalize forRange (bestStep words cost) 0 words.length _ = left
      generalize forRange (bestStep words cost') 0 words.length _ = right
      intro hbests
      cases hbests with
      | none => rfl
      | some hbests =>
          simp only [Option.bind_some, hbests.2.2.2, Option.map_map]
          rfl

/-- The breaks are those of an engine that is new. -/
theorem dynamic_matrices (hlaws : NonNegative power) (matrices matrices' : Matrices Cost) :
    (dynamic widths power words matrices).map Prod.snd =
      (dynamic widths power words matrices').map Prod.snd := by
  have hloops : (dynamicLoops widths power words matrices).map Prod.snd =
      (dynamicLoops widths power words matrices').map Prod.snd :=
    dynamicLoops_matrices hlaws matrices matrices'
  rw [dynamic_eq, dynamic_eq]
  split
  next => rfl
  next =>
    revert hloops
    cases dynamicLoops widths power words matrices with
    | none =>
        cases dynamicLoops widths power words matrices' with
        | none => exact fun _ => rfl
        | some _ => exact fun hloops => by cases hloops
    | some done =>
        cases dynamicLoops widths power words matrices' with
        | none => exact fun hloops => by cases hloops
        | some done' => exact fun hloops => congrArg Except.ok (Option.some_inj.mp hloops)

end Charr.Wrap
