import Charr.Text.StringView

/-!
# Records of a result

What the operations that give back strings have in common: how long a result is when its
arguments are recycled, and how the bytes of a string are marked.
-/

namespace Charr

/-! ## Strings of a result -/

/-- Whether all bytes are ASCII. -/
def spanIsAscii (bytes : List UInt8) : Bool := bytes.all (· ≤ 0x7f)

/-- A span is ASCII if no byte has its high bit set. -/
theorem spanIsAscii_iff {bytes : List UInt8} :
    spanIsAscii bytes = true ↔ ∀ byte ∈ bytes, byte < 0x80 := by
  have hbyte : ∀ byte : UInt8, byte ≤ 0x7f ↔ byte < 0x80 := by
    intro byte
    rw [UInt8.le_iff_toNat_le, UInt8.lt_iff_toNat_lt]
    exact Nat.lt_succ_iff.symm
  unfold spanIsAscii
  simp only [List.all_eq_true, decide_eq_true_eq, hbyte]

/-- A string of the result. -/
structure OutputRecord where
  bytes : List UInt8
  enc : StringEncoding
  deriving DecidableEq

/-- The mark a string gets: where it may be ASCII or UTF-8, its bytes tell which. -/
def resolvedEncoding (bytes : List UInt8) (enc : StringEncoding) : StringEncoding :=
  match enc with
  | .asciiOrUtf8 => if spanIsAscii bytes then .ascii else .utf8
  | enc => enc

/-! ## Recycling -/

/-- The length of the result of two arguments, and whether recycling is uneven. -/
def recyclingLength (first second : Nat) : Nat × Bool :=
  if first ≤ 0 ∨ second ≤ 0 then (0, false)
  else
    let result := if first > second then first else second
    (result, result % first ≠ 0 ∨ result % second ≠ 0)

end Charr
