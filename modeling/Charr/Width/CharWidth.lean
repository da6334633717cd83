import Charr.Text.StringView
import Charr.Text.Utf8

/-!
# The width of a string

How many columns a string takes: a sum over its code points, where emoji
sequences and flags depend on the code point before. The Unicode properties come
from ICU. A string has a width exactly when its bytes are well-formed UTF-8.
-/

namespace Charr.Width

open Utf8 (CodePoint byteAt)

/-- The general categories the widths depend on. -/
inductive GeneralCategory where
  | nonSpacingMark
  | enclosingMark
  | formatChar
  | controlChar
  | otherSymbol
  | other
  deriving DecidableEq, Repr

/-- `UEastAsianWidth` -/
inductive EastAsianWidth where
  | neutral
  | ambiguous
  | halfwidth
  | fullwidth
  | narrow
  | wide
  deriving DecidableEq, Repr

/-- `UHangulSyllableType` -/
inductive HangulSyllableType where
  | notApplicable
  | leadingJamo
  | vowelJamo
  | trailingJamo
  | lvSyllable
  | lvtSyllable
  deriving DecidableEq, Repr

/-- The Unicode properties of ICU. -/
structure Properties where
  category : CodePoint → GeneralCategory
  eastAsianWidth : CodePoint → EastAsianWidth
  hangulSyllableType : CodePoint → HangulSyllableType
  emojiModifier : CodePoint → Bool
  emojiPresentation : CodePoint → Bool

/-- Control characters have no width. -/
def asciiCharWidth (value : Nat) : Int :=
  if value ≥ 0x20 ∧ value ≠ 0x7f then 1 else 0

/-- The width of ASCII text. -/
def asciiStringWidth (data : List UInt8) : Int :=
  data.foldl (fun width byte => width + asciiCharWidth byte.toNat) 0

section Strings

variable (properties : Properties)

/-- The width of a code point, by its properties. -/
def widthChar (c : CodePoint) : Int :=
  if c ≥ 0 ∧ c ≤ 0x7f then asciiCharWidth c.toNat
  else if c = 0x00ad then 1
  else if c = 0x200b then 0
  else if properties.category c ∈
      [GeneralCategory.nonSpacingMark, .enclosingMark, .formatChar, .controlChar] then 0
  else if properties.hangulSyllableType c = .vowelJamo ∨
      properties.hangulSyllableType c = .trailingJamo then 0
  else if c ≥ 0xfe00 ∧ c ≤ 0xfe0f then 0
  else if properties.emojiModifier c then 0
  else if properties.eastAsianWidth c = .fullwidth ∨ properties.eastAsianWidth c = .wide then 2
  else if properties.category c = .otherSymbol then 2
  else if properties.eastAsianWidth c = .neutral ∧ properties.emojiPresentation c then 2
  else 1

/-- The code points that join into an emoji sequence besides the emoji proper. -/
def joinedSymbols : List CodePoint :=
  [0x2640, 0x2642, 0x26a7, 0x2695, 0x2696, 0x1f5e8, 0x1f32b, 0x2708, 0x2764, 0x2744, 0x2620]

/-- The code points that spell a flag in pairs. -/
def regionalIndicator (c : CodePoint) : Bool := 0x1f1e6 ≤ c ∧ c ≤ 0x1f1ff

/-- The width of `c` after `previous`, and whether the next one starts afresh. -/
def widthCharWithContext (c previous : CodePoint) (reset : Bool) : Int × Bool :=
  let previous := if reset then 0 else previous
  if previous = 0x200d ∧ (properties.emojiModifier c ∨ properties.emojiPresentation c ∨
      c ∈ joinedSymbols) then (0, false)
  else if regionalIndicator previous ∧ regionalIndicator c then (0, true)
  else (widthChar properties c, false)

/-- The loop over the code points from `index` on, which ends at a sequence that is not one
with the error `invalid`. -/
def widthLoop (invalid : NativeError) (text : List UInt8) :
    Nat → Nat → CodePoint → Bool → Int → Except NativeError Int
  | 0, _, _, _, width => .ok width
  | fuel + 1, index, previous, reset, width =>
      if index < text.length then
        let byte := byteAt text index
        if byte < 0x80 then
          widthLoop invalid text fuel (index + 1) byte false (width + asciiCharWidth byte)
        else
          let (c, next) := Utf8.next text index
          if c < 0 then .error invalid
          else
            let (columns, reset) := widthCharWithContext properties c previous reset
            widthLoop invalid text fuel next c reset (width + columns)
      else .ok width

/-- The error of a text that is not UTF-8. -/
def invalidUtf8 : NativeError :=
  .striException "invalid UTF-8 byte sequence detected; try calling ci_enc_toutf8()"

/-- `ci__width_string` without a bound on the width. -/
def widthString (text : List UInt8) : Except NativeError Int :=
  widthLoop properties invalidUtf8 text text.length 0 0 true 0

end Strings

/-! ## Well-formed text -/

/-- Every code point from `index` on reads as one. -/
def wellFormedFrom (text : List UInt8) : Nat → Nat → Bool
  | 0, _ => true
  | fuel + 1, index =>
      if index < text.length then
        0 ≤ (Utf8.next text index).1 && wellFormedFrom text fuel (Utf8.next text index).2
      else true

/-- The bytes are UTF-8. -/
def wellFormed (text : List UInt8) : Bool :=
  wellFormedFrom text text.length 0

theorem next_of_single {text : List UInt8} {index : Nat} (hbyte : byteAt text index < 0x80) :
    Utf8.next text index = ((byteAt text index : Int), index + 1) := by
  have hsingle : Utf8.isSingle (byteAt text index) = true := decide_eq_true hbyte
  simp only [Utf8.next, hsingle, if_true]

/-- A string has a width exactly when it is well formed. -/
theorem widthLoop_eq (properties : Properties) (invalid : NativeError) (text : List UInt8)
    (fuel index : Nat) (previous : CodePoint) (reset : Bool) (width : Int) :
    (wellFormedFrom text fuel index = true → ∃ total,
      widthLoop properties invalid text fuel index previous reset width = .ok total) ∧
    (wellFormedFrom text fuel index = false →
      widthLoop properties invalid text fuel index previous reset width = .error invalid) := by
  induction fuel generalizing index previous reset width with
  | zero => exact ⟨fun _ => ⟨width, rfl⟩, fun hill => absurd hill (by simp [wellFormedFrom])⟩
  | succ fuel ih =>
      rw [wellFormedFrom, widthLoop]
      split
      next hindex =>
        by_cases hbyte : byteAt text index < 0x80
        · have hnonneg : decide ((0 : Int) ≤ byteAt text index) = true :=
            decide_eq_true (Int.natCast_nonneg _)
          simp only [next_of_single hbyte, hbyte, if_true, hnonneg, Bool.true_and]
          exact ih _ _ _ _
        · simp only [hbyte, if_false]
          by_cases hnegative : (Utf8.next text index).1 < 0
          · have hnot : decide ((0 : Int) ≤ (Utf8.next text index).1) = false :=
              decide_eq_false (Int.not_le.mpr hnegative)
            simp only [hnot, Bool.false_and, hnegative, if_true]
            exact ⟨fun hill => absurd hill (by simp), fun _ => trivial⟩
          · have hnonneg : decide ((0 : Int) ≤ (Utf8.next text index).1) = true :=
              decide_eq_true (Int.not_lt.mp hnegative)
            simp only [hnonneg, Bool.true_and, hnegative, if_false]
            exact ih _ _ _ _
      next => exact ⟨fun _ => ⟨width, rfl⟩, fun hill => absurd hill (by simp)⟩

/-- Well-formed text has a width. -/
theorem widthString_of_wellFormed (properties : Properties) {text : List UInt8}
    (hwell : wellFormed text = true) : ∃ width, widthString properties text = .ok width :=
  (widthLoop_eq properties invalidUtf8 text text.length 0 0 true 0).1 hwell

/-- Other text is refused. -/
theorem widthString_of_illFormed (properties : Properties) {text : List UInt8}
    (hill : wellFormed text = false) : widthString properties text = .error invalidUtf8 :=
  (widthLoop_eq properties invalidUtf8 text text.length 0 0 true 0).2 hill

end Charr.Width
