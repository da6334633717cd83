import Mathlib.Algebra.Order.Ring.Int
import Mathlib.Tactic.Positivity

/-!
# Checked machine arithmetic

A signed machine integer is an integer in a range. Every operation is the one on the
integers, and it has a result only where that result is in the range again and where it
is not a division by zero; a computation that has a result has therefore met neither an
overflow nor a division by zero. On what is not negative, the operations are those of the
natural numbers.
-/

namespace MachineInt

/-- What `width` bits hold, with a sign. -/
def InRange (width : Nat) (value : Int) : Prop :=
  -2 ^ (width - 1) ≤ value ∧ value < 2 ^ (width - 1)

instance (width : Nat) : DecidablePred (InRange width) :=
  fun _ => inferInstanceAs (Decidable (_ ∧ _))

section Operations

variable (width : Nat)

/-- The value, if the type holds it. -/
def checked (value : Int) : Option Int :=
  if InRange width value then some value else none

/-- Addition, undefined where it overflows. -/
def add (left right : Int) : Option Int := checked width (left + right)

/-- Subtraction, undefined where it overflows. -/
def sub (left right : Int) : Option Int := checked width (left - right)

/-- Multiplication, undefined where it overflows. -/
def mul (left right : Int) : Option Int := checked width (left * right)

/-- The quotient, rounded towards zero. -/
def div (left right : Int) : Option Int :=
  if right = 0 then none else checked width (left.tdiv right)

/-- The remainder, which needs its quotient to be in the range. -/
def rem (left right : Int) : Option Int :=
  (div width left right).map fun _ => left.tmod right

/-- The conversion to an unsigned integer, where it keeps the value. -/
def unsigned (value : Int) : Option Int :=
  if 0 ≤ value ∧ value < 2 ^ width then some value else none

end Operations

variable {width : Nat}

theorem inRange_natCast {value : Nat} (hvalue : value < 2 ^ (width - 1)) :
    InRange width value := by
  constructor
  · apply le_trans _ (Int.natCast_nonneg value)
    exact neg_nonpos.mpr (by positivity)
  · exact_mod_cast hvalue

/-- A value in range is not changed. -/
theorem checked_eq {value : Int} (hvalue : InRange width value) :
    checked width value = some value := if_pos hvalue

theorem checked_natCast {value : Nat} (hvalue : value < 2 ^ (width - 1)) :
    checked width value = some (value : Int) := checked_eq (inRange_natCast hvalue)

/-- A conversion of a value in range does not wrap. -/
theorem unsigned_natCast {value : Nat} (hvalue : value < 2 ^ width) :
    unsigned width value = some (value : Int) :=
  if_pos ⟨Int.natCast_nonneg value, by exact_mod_cast hvalue⟩

variable {left right : Nat}

/-- A sum in range is the sum of natural numbers. -/
theorem add_natCast (hsum : left + right < 2 ^ (width - 1)) :
    add width left right = some ((left + right : Nat) : Int) := by
  rw [add, ← Nat.cast_add]
  exact checked_natCast hsum

/-- A product in range is their product. -/
theorem mul_natCast (hproduct : left * right < 2 ^ (width - 1)) :
    mul width left right = some ((left * right : Nat) : Int) := by
  rw [mul, ← Nat.cast_mul]
  exact checked_natCast hproduct

/-- A difference that is not negative is theirs. -/
theorem sub_natCast (hle : right ≤ left) (hleft : left < 2 ^ (width - 1)) :
    sub width left right = some ((left - right : Nat) : Int) := by
  rw [sub, ← Nat.cast_sub hle]
  exact checked_natCast (lt_of_le_of_lt (Nat.sub_le _ _) hleft)

/-- Division of natural numbers does not overflow. -/
theorem div_natCast (hright : 0 < right) (hleft : left < 2 ^ (width - 1)) :
    div width left right = some ((left / right : Nat) : Int) := by
  have hne : (right : Int) ≠ 0 := by exact_mod_cast hright.ne'
  rw [div, if_neg hne, Int.ofNat_tdiv]
  exact checked_natCast (lt_of_le_of_lt (Nat.div_le_self _ _) hleft)

theorem rem_natCast (hright : 0 < right) (hleft : left < 2 ^ (width - 1)) :
    rem width left right = some ((left % right : Nat) : Int) := by
  rw [rem, div_natCast hright hleft, Option.map_some, Int.ofNat_tmod]

end MachineInt
