import Charr.Library.MachineInt
import Charr.Substring.Sub

/-!
# The walk over recycled strings in machine integers

`recycled_order_begin` and `recycled_order_next` with every operation checked against the
32 bits of an `int`. The walk they make is the one on natural numbers for all lengths, also
where the strings are more than the positions: it ends, it goes over every position once,
string by string, and no operation of it overflows.
-/

namespace Charr.Substring

open MachineInt Parallel

/-! ## The functions -/

namespace Machine

/-- The first index, as the source computes it. -/
def recycledOrderBegin (sourceLength outputLength : Int) : Int :=
  if sourceLength ≤ 0 then outputLength else 0

/-- The index behind, where no operation overflows. -/
def recycledOrderNext (index sourceLength outputLength : Int) : Option Int :=
  if sourceLength ≤ 0 then some outputLength
  else do
    let beforeEnd ← sub 32 outputLength 1
    let rest ← rem 32 outputLength sourceLength
    let last ← sub 32 beforeEnd rest
    if index = last then return outputLength
    else
      let left ← sub 32 outputLength index
      -- The comparison comes before the sum, which could overflow.
      if sourceLength ≥ left then
        let residue ← rem 32 index sourceLength
        add 32 residue 1
      else add 32 index sourceLength

/-- The positions the loop goes over from `index` on, while there is fuel. -/
def recycledOrder (sourceLength outputLength : Int) : Nat → Int → Option (List Int)
  | 0, _ => none
  | fuel + 1, index =>
      if index < outputLength then do
        let next ← recycledOrderNext index sourceLength outputLength
        let rest ← recycledOrder sourceLength outputLength fuel next
        return index :: rest
      else some []

end Machine

variable {sourceLength outputLength : Nat}

/-! ## More strings than positions -/

/-- The walk goes from each position to the one behind it. -/
theorem recycledOrder_of_lt (hlength : outputLength < sourceLength) (fuel : Nat) {index : Nat}
    (hfuel : outputLength - index < fuel) :
    recycledOrder sourceLength outputLength fuel index =
      some (List.range' index (outputLength - index)) := by
  induction fuel generalizing index with
  | zero => exact absurd hfuel (Nat.not_lt_zero _)
  | succ fuel ih =>
      rw [recycledOrder]
      split
      next hindex =>
        have hnext : recycledOrderNext index sourceLength outputLength = index + 1 := by
          have hpositive : sourceLength ≠ 0 := by omega
          have hlast : ¬ index + 1 + outputLength % sourceLength = outputLength := by
            rw [Nat.mod_eq_of_lt hlength]
            omega
          rw [recycledOrderNext, if_neg hpositive, if_neg hlast, if_pos (by omega),
            Nat.mod_eq_of_lt (hindex.trans hlength)]
        have hcount : outputLength - index = outputLength - (index + 1) + 1 := by omega
        rw [hnext, ih (by omega), hcount, List.range'_succ]
        rfl
      next hindex =>
        rw [Nat.sub_eq_zero_of_le (Nat.not_lt.mp hindex)]
        rfl

/-- The walk over every number of strings. -/
theorem recycledOrder_groups (hsource : 0 < sourceLength) (outputLength : Nat) :
    recycledOrder sourceLength outputLength (outputLength + 1)
      (recycledOrderBegin sourceLength outputLength) =
      some (groupedOrder sourceLength outputLength) := by
  obtain hmany | hfew := Nat.lt_or_ge outputLength sourceLength
  · rw [recycledOrderBegin, if_neg hsource.ne', recycledOrder_of_lt hmany _ (by omega),
      groupedOrder_of_le hmany.le, Nat.sub_zero, List.range_eq_range']
  · exact recycledOrder_all hsource hfew

/-! ## The machine integers -/

section Machine

/-- The next index is computed without an overflow. -/
theorem Machine.recycledOrderNext_natCast (hsource : sourceLength < 2 ^ (32 - 1))
    (houtput : outputLength < 2 ^ (32 - 1)) {index : Nat} (hindex : index < outputLength) :
    Machine.recycledOrderNext index sourceLength outputLength =
      some (Substring.recycledOrderNext index sourceLength outputLength : Int) := by
  unfold Machine.recycledOrderNext Substring.recycledOrderNext
  by_cases hzero : sourceLength = 0
  · rw [if_pos hzero, if_pos (by omega)]
  · have hpositive : 0 < sourceLength := Nat.pos_of_ne_zero hzero
    have hbefore : sub 32 (outputLength : Int) 1 = some ((outputLength - 1 : Nat) : Int) :=
      sub_natCast (show 1 ≤ outputLength by omega) houtput
    have hlast : sub 32 ((outputLength - 1 : Nat) : Int)
        ((outputLength % sourceLength : Nat) : Int) =
        some (((outputLength - 1 : Nat) : Int) - (outputLength % sourceLength : Nat)) := by
      apply checked_eq
      have hrest := Nat.mod_le outputLength sourceLength
      constructor
      all_goals
        norm_num at houtput ⊢
        omega
    have hstop : (index : Int) = ((outputLength - 1 : Nat) : Int) -
        (outputLength % sourceLength : Nat) ↔
        index + 1 + outputLength % sourceLength = outputLength := by
      omega
    rw [if_neg hzero, if_neg (by omega), hbefore, rem_natCast hpositive houtput]
    simp only [Option.bind_eq_bind, Option.bind_some, hlast, hstop,
      sub_natCast hindex.le houtput, ge_iff_le, Nat.cast_le]
    split
    next => rfl
    next =>
      split
      next =>
        have hresidue : index % sourceLength + 1 < 2 ^ (32 - 1) := by
          have hless := Nat.mod_lt index hpositive
          omega
        rw [rem_natCast hpositive (hindex.trans houtput), Option.bind_some]
        exact add_natCast hresidue
      next hmore =>
        apply add_natCast
        omega

/-- The whole order is computed without an overflow. -/
theorem Machine.recycledOrder_natCast (hsource : sourceLength < 2 ^ (32 - 1))
    (houtput : outputLength < 2 ^ (32 - 1)) (fuel index : Nat) :
    Machine.recycledOrder sourceLength outputLength fuel index =
      (Substring.recycledOrder sourceLength outputLength fuel index).map
        (List.map Nat.cast) := by
  induction fuel generalizing index with
  | zero => rfl
  | succ fuel ih =>
      rw [Machine.recycledOrder, Substring.recycledOrder]
      simp only [Nat.cast_lt]
      split
      next hindex =>
        rw [Machine.recycledOrderNext_natCast hsource houtput hindex]
        simp only [Option.bind_eq_bind, Option.bind_some, ih]
        cases Substring.recycledOrder sourceLength outputLength fuel
            (Substring.recycledOrderNext index sourceLength outputLength) <;> rfl
      next => rfl

theorem Machine.recycledOrderBegin_natCast (sourceLength outputLength : Nat) :
    Machine.recycledOrderBegin sourceLength outputLength =
      (Substring.recycledOrderBegin sourceLength outputLength : Int) := by
  unfold Machine.recycledOrderBegin Substring.recycledOrderBegin
  by_cases hzero : sourceLength = 0
  · rw [if_pos hzero, if_pos (by omega)]
  · rw [if_neg hzero, if_neg (by omega)]
    rfl

end Machine

/-! ## The walk -/

/-- The positions of one string, as the loop has to meet them: next to each other, ascending. -/
theorem groupedOrder_residue {residue : Nat} (hresidue : residue < sourceLength) :
    ∃ before after, groupedOrder sourceLength outputLength =
      before ++ ((List.range outputLength).filter fun index => index % sourceLength = residue) ++
        after := by
  rw [groupedOrder, range_split hresidue, List.flatMap_append, List.flatMap_cons]
  exact ⟨_, _, (List.append_assoc _ _ _).symm⟩

/-- For all lengths that fit an `int` the walk ends without an overflow. With no string it
visits nothing; else it visits every position once, and those of one string in a row. -/
theorem Machine.recycledOrder_visits {sourceLength outputLength : Nat}
    (hsource : sourceLength < 2 ^ 31) (houtput : outputLength < 2 ^ 31) :
    ∃ (fuel : Nat) (order : List Nat),
      Machine.recycledOrder sourceLength outputLength fuel
        (Machine.recycledOrderBegin sourceLength outputLength) = some (order.map Nat.cast) ∧
      (sourceLength = 0 → order = []) ∧
      (1 ≤ sourceLength → order.Perm (List.range outputLength)) ∧
      ∀ residue < sourceLength, ∃ before after, order =
        before ++ ((List.range outputLength).filter fun index =>
          index % sourceLength = residue) ++ after := by
  refine ⟨outputLength + 1, groupedOrder sourceLength outputLength, ?_, ?_, ?_, ?_⟩
  · rw [Machine.recycledOrderBegin_natCast, Machine.recycledOrder_natCast hsource houtput]
    obtain rfl | hpositive := Nat.eq_zero_or_pos sourceLength
    · rw [Substring.recycledOrderBegin, if_pos rfl, Substring.recycledOrder,
        if_neg (Nat.lt_irrefl _)]
      rfl
    · rw [recycledOrder_groups hpositive]
      rfl
  · rintro rfl
    rfl
  · exact groupedOrder_perm
  · intro residue
    exact groupedOrder_residue

/-- Three strings and seven positions. -/
theorem Machine.recycledOrder_visits_seven :
    ∃ (fuel : Nat) (order : List Nat),
      Machine.recycledOrder (3 : Nat) (7 : Nat) fuel
        (Machine.recycledOrderBegin (3 : Nat) (7 : Nat)) = some (order.map Nat.cast) ∧
      (3 = 0 → order = []) ∧ (1 ≤ 3 → order.Perm (List.range 7)) ∧
      ∀ residue < 3, ∃ before after, order =
        before ++ ((List.range 7).filter fun index => index % 3 = residue) ++ after :=
  Machine.recycledOrder_visits (by decide) (by decide)

end Charr.Substring
