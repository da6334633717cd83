import Mathlib.Data.List.Basic
import Mathlib.Logic.Function.Iterate
import Mathlib.Order.Monotone.Basic
import Mathlib.Order.Nat
import Mathlib.Order.WellFounded

/-!
# Iterating over UTF-8 text

The macros the matchers step through text with. They accept any bytes: an
ill-formed sequence is one step over its longest well-formed part, and reads as
the sentinel. Stepping back undoes stepping forward, on every byte string.
-/

namespace Charr.Utf8

/-- A code point, or the sentinel `-1` for an ill-formed sequence. -/
abbrev CodePoint := Int

/-- What is read of ill-formed bytes. -/
def sentinel : CodePoint := -1

/-- The byte at `index`, as a number. -/
def byteAt (text : List UInt8) (index : Nat) : Nat :=
  (text.getD index 0).toNat

/-- `U8_IS_SINGLE` -/
def isSingle (byte : Nat) : Bool := byte < 0x80

/-- `U8_IS_LEAD` -/
def isLead (byte : Nat) : Bool := 0xc2 ≤ byte && byte ≤ 0xf4

/-- `U8_IS_TRAIL` -/
def isTrail (byte : Nat) : Bool := 0x80 ≤ byte && byte < 0xc0

/-- `U8_LEAD3_T1_BITS` -/
def lead3T1Bits : List Nat :=
  [0x20, 0x30, 0x30, 0x30, 0x30, 0x30, 0x30, 0x30, 0x30, 0x30, 0x30, 0x30, 0x30, 0x10, 0x30,
    0x30]

/-- `U8_IS_VALID_LEAD3_AND_T1` -/
def isValidLead3AndT1 (lead t1 : Nat) : Bool :=
  lead3T1Bits.getD (lead &&& 0xf) 0 &&& (1 <<< (t1 >>> 5)) ≠ 0

/-- `U8_LEAD4_T1_BITS` -/
def lead4T1Bits : List Nat :=
  [0x00, 0x00, 0x00, 0x00, 0x00, 0x00, 0x00, 0x00, 0x1e, 0x0f, 0x0f, 0x0f, 0x00, 0x00, 0x00,
    0x00]

/-- `U8_IS_VALID_LEAD4_AND_T1` -/
def isValidLead4AndT1 (lead t1 : Nat) : Bool :=
  lead4T1Bits.getD (t1 >>> 4) 0 &&& (1 <<< (lead &&& 7)) ≠ 0

/-- `U8_FWD_1`: the position behind the sequence at `index`. -/
def fwd1 (text : List UInt8) (index : Nat) : Nat :=
  let byte := byteAt text index
  let index := index + 1
  if isLead byte && index ≠ text.length then
    let t1 := byteAt text index
    if 0xe0 ≤ byte && byte < 0xf0 then
      if isValidLead3AndT1 byte t1 then
        if index + 1 ≠ text.length && isTrail (byteAt text (index + 1)) then index + 2
        else index + 1
      else index
    else if byte < 0xe0 then
      if isTrail t1 then index + 1 else index
    else
      if isValidLead4AndT1 byte t1 then
        if index + 1 ≠ text.length && isTrail (byteAt text (index + 1)) then
          if index + 2 ≠ text.length && isTrail (byteAt text (index + 2)) then index + 3
          else index + 2
        else index + 1
      else index
  else index

/-- `U8_NEXT`: the code point at `index` and the position behind it. -/
def next (text : List UInt8) (index : Nat) : CodePoint × Nat :=
  let byte := byteAt text index
  let index := index + 1
  if isSingle byte then (byte, index)
  else if index = text.length then (sentinel, index)
  else
    let t1 := byteAt text index
    if 0xe0 ≤ byte then
      if byte < 0xf0 then
        if isValidLead3AndT1 byte t1 then
          if index + 1 ≠ text.length && isTrail (byteAt text (index + 1)) then
            (((byte &&& 0xf) <<< 12 ||| (t1 &&& 0x3f) <<< 6 |||
              (byteAt text (index + 1) - 0x80) : Nat), index + 2)
          else (sentinel, index + 1)
        else (sentinel, index)
      else if byte - 0xf0 ≤ 4 && isValidLead4AndT1 byte t1 then
        if index + 1 ≠ text.length && isTrail (byteAt text (index + 1)) then
          if index + 2 ≠ text.length && isTrail (byteAt text (index + 2)) then
            (((byte - 0xf0) <<< 18 ||| (t1 &&& 0x3f) <<< 12 |||
              (byteAt text (index + 1) - 0x80) <<< 6 |||
              (byteAt text (index + 2) - 0x80) : Nat), index + 3)
          else (sentinel, index + 2)
        else (sentinel, index + 1)
      else (sentinel, index)
    else if 0xc2 ≤ byte && isTrail t1 then
      (((byte &&& 0x1f) <<< 6 ||| (t1 - 0x80) : Nat), index + 1)
    else (sentinel, index)

/-- `utf8_back1SafeBody` from the start of the text, at a trail byte. -/
def back1SafeBody (text : List UInt8) (index : Nat) : Nat :=
  let byte := byteAt text index
  if isTrail byte && 0 < index then
    let b1 := byteAt text (index - 1)
    if isLead b1 then
      if b1 < 0xe0 ||
          (if b1 < 0xf0 then isValidLead3AndT1 b1 byte else isValidLead4AndT1 b1 byte) then
        index - 1
      else index
    else if isTrail b1 && 0 < index - 1 then
      let b2 := byteAt text (index - 2)
      if 0xe0 ≤ b2 && b2 ≤ 0xf4 then
        if (if b2 < 0xf0 then isValidLead3AndT1 b2 b1 else isValidLead4AndT1 b2 b1) then
          index - 2
        else index
      else if isTrail b2 && 0 < index - 2 then
        let b3 := byteAt text (index - 3)
        if 0xf0 ≤ b3 && b3 ≤ 0xf4 && isValidLead4AndT1 b3 b2 then index - 3
        else index
      else index
    else index
  else index

/-- `U8_BACK_1`: the start of the sequence that ends at `index`. -/
def back1 (text : List UInt8) (index : Nat) : Nat :=
  if isTrail (byteAt text (index - 1)) then back1SafeBody text (index - 1) else index - 1

/-- `utf8_prevCharSafeBody` from the start of the text, without strictness: the code
point whose last byte is at `index`, and where it begins. -/
def prevCharSafeBody (text : List UInt8) (index : Nat) : CodePoint × Nat :=
  let byte := byteAt text index
  if isTrail byte && 0 < index then
    let b1 := byteAt text (index - 1)
    if isLead b1 then
      if b1 < 0xe0 then (((b1 - 0xc0) <<< 6 ||| (byte &&& 0x3f) : Nat), index - 1)
      -- a truncated sequence
      else if (if b1 < 0xf0 then isValidLead3AndT1 b1 byte else isValidLead4AndT1 b1 byte) then
        (sentinel, index - 1)
      else (sentinel, index)
    else if isTrail b1 && 0 < index - 1 then
      let b2 := byteAt text (index - 2)
      if 0xe0 ≤ b2 && b2 ≤ 0xf4 then
        if b2 < 0xf0 then
          if isValidLead3AndT1 (b2 &&& 0xf) b1 then
            (((b2 &&& 0xf) <<< 12 ||| (b1 &&& 0x3f) <<< 6 ||| (byte &&& 0x3f) : Nat), index - 2)
          else (sentinel, index)
        else if isValidLead4AndT1 b2 b1 then (sentinel, index - 2)
        else (sentinel, index)
      else if isTrail b2 && 0 < index - 2 then
        let b3 := byteAt text (index - 3)
        if 0xf0 ≤ b3 && b3 ≤ 0xf4 then
          if isValidLead4AndT1 (b3 &&& 7) b2 then
            (((b3 &&& 7) <<< 18 ||| (b2 &&& 0x3f) <<< 12 ||| (b1 &&& 0x3f) <<< 6 |||
              (byte &&& 0x3f) : Nat), index - 3)
          else (sentinel, index)
        else (sentinel, index)
      else (sentinel, index)
    else (sentinel, index)
  else (sentinel, index)

/-- `U8_PREV`: the code point that ends at `index`, and where it begins. -/
def prev (text : List UInt8) (index : Nat) : CodePoint × Nat :=
  let byte := byteAt text (index - 1)
  if isSingle byte then (byte, index - 1) else prevCharSafeBody text (index - 1)

/-! ## One step forward -/

theorem byteAt_lt (text : List UInt8) (index : Nat) : byteAt text index < 256 :=
  UInt8.toNat_lt _

/-- The second of three bytes is a trail byte. -/
theorem isTrail_of_isValidLead3AndT1 {lead t1 : Nat} (ht1 : t1 < 256)
    (hvalid : isValidLead3AndT1 lead t1 = true) : isTrail t1 = true := by
  have htable : ∀ bits ∈ lead3T1Bits, ∀ shift < 8, bits &&& (1 <<< shift) ≠ 0 →
      shift = 4 ∨ shift = 5 := by decide
  unfold isValidLead3AndT1 at hvalid
  have hbits := of_decide_eq_true hvalid
  have hindex : lead &&& 0xf < lead3T1Bits.length := Nat.lt_succ_of_le Nat.and_le_right
  rw [List.getD_eq_getElem?_getD, List.getElem?_eq_getElem hindex, Option.getD_some] at hbits
  have hshift : t1 >>> 5 = 4 ∨ t1 >>> 5 = 5 := by
    refine htable _ (List.getElem_mem hindex) _ ?_ hbits
    rw [Nat.shiftRight_eq_div_pow]
    omega
  rw [Nat.shiftRight_eq_div_pow] at hshift
  simp only [isTrail, Bool.and_eq_true, decide_eq_true_eq]
  omega

theorem isTrail_of_isValidLead4AndT1 {lead t1 : Nat} (ht1 : t1 < 256)
    (hvalid : isValidLead4AndT1 lead t1 = true) : isTrail t1 = true := by
  have htable : ∀ index < 16, lead4T1Bits.getD index 0 ≠ 0 → 8 ≤ index ∧ index ≤ 11 := by
    decide
  unfold isValidLead4AndT1 at hvalid
  have hbits := of_decide_eq_true hvalid
  have hindex : t1 >>> 4 < 16 := by
    rw [Nat.shiftRight_eq_div_pow]
    omega
  have hrange : 8 ≤ t1 >>> 4 ∧ t1 >>> 4 ≤ 11 := by
    apply htable _ hindex
    intro hzero
    rw [hzero, Nat.zero_and] at hbits
    exact hbits rfl
  rw [Nat.shiftRight_eq_div_pow] at hrange
  simp only [isTrail, Bool.and_eq_true, decide_eq_true_eq]
  omega

/-- `lead` and `t1` start a sequence of three or four bytes. -/
def startsLong (lead t1 : Nat) : Bool :=
  if lead < 0xf0 then isValidLead3AndT1 lead t1 else isValidLead4AndT1 lead t1

theorem isTrail_of_startsLong {lead t1 : Nat} (ht1 : t1 < 256)
    (hstarts : startsLong lead t1 = true) : isTrail t1 = true := by
  unfold startsLong at hstarts
  split at hstarts
  · exact isTrail_of_isValidLead3AndT1 ht1 hstarts
  · exact isTrail_of_isValidLead4AndT1 ht1 hstarts

/-- How far a step goes, by what stands at `index`. -/
theorem fwd1_eq (text : List UInt8) (index : Nat) :
    fwd1 text index =
      if ¬ isLead (byteAt text index) ∨ index + 1 = text.length then index + 1
      else if byteAt text index < 0xe0 then
        if isTrail (byteAt text (index + 1)) then index + 2 else index + 1
      else if ¬ startsLong (byteAt text index) (byteAt text (index + 1)) then index + 1
      else if index + 2 = text.length ∨ ¬ isTrail (byteAt text (index + 2)) then index + 2
      else if byteAt text index < 0xf0 ∨ index + 3 = text.length ∨
          ¬ isTrail (byteAt text (index + 3)) then index + 3
      else index + 4 := by
  unfold fwd1 startsLong
  grind

/-- Reading goes as far as skipping. -/
theorem next_snd (text : List UInt8) (index : Nat) : (next text index).2 = fwd1 text index := by
  unfold next fwd1 isSingle isLead
  grind

/-- Skipping goes on. -/
theorem lt_fwd1 (text : List UInt8) (index : Nat) : index < fwd1 text index := by
  rw [fwd1_eq]
  split_ifs <;> omega

theorem fwd1_le (text : List UInt8) {index : Nat} (hindex : index < text.length) :
    fwd1 text index ≤ text.length := by
  rw [fwd1_eq]
  split_ifs <;> omega

/-- A step goes over trail bytes only. -/
theorem isTrail_of_lt_fwd1 (text : List UInt8) {index inner : Nat} (hinner : index < inner)
    (hlt : inner < fwd1 text index) : isTrail (byteAt text inner) = true := by
  have hlong : startsLong (byteAt text index) (byteAt text (index + 1)) = true →
      isTrail (byteAt text (index + 1)) = true :=
    isTrail_of_startsLong (byteAt_lt text (index + 1))
  rw [fwd1_eq] at hlt
  split_ifs at hlt with h1 h2 h3 h4 h5 h6
  all_goals try omega
  · obtain rfl : inner = index + 1 := by omega
    exact h3
  · obtain rfl : inner = index + 1 := by omega
    exact hlong (by simpa using h4)
  · rcases (by omega : inner = index + 1 ∨ inner = index + 2) with rfl | rfl
    · exact hlong (by simpa using h4)
    · simpa using fun h => h5 (Or.inr h)
  · rcases (by omega : inner = index + 1 ∨ inner = index + 2 ∨ inner = index + 3) with
      rfl | rfl | rfl
    · exact hlong (by simpa using h4)
    · simpa using fun h => h5 (Or.inr h)
    · simpa using fun h => h6 (Or.inr (Or.inr h))

/-! ## Boundaries -/

/-- The positions a forward iteration from the start of the text stops at. -/
def boundary (text : List UInt8) (count : Nat) : Nat :=
  (fwd1 text)^[count] 0

theorem boundary_succ (text : List UInt8) (count : Nat) :
    boundary text (count + 1) = fwd1 text (boundary text count) :=
  Function.iterate_succ_apply' _ _ _

/-- Every code point takes some bytes. -/
theorem boundary_strictMono (text : List UInt8) : StrictMono (boundary text) := by
  apply strictMono_nat_of_lt_succ
  intro count
  rw [boundary_succ]
  exact lt_fwd1 text _

/-- A byte that is no trail byte starts a sequence. -/
theorem exists_boundary_of_not_isTrail (text : List UInt8) {count index : Nat}
    (hindex : index < boundary text count) (hbyte : isTrail (byteAt text index) = false) :
    ∃ earlier < count, index = boundary text earlier := by
  induction count with
  | zero => exact absurd hindex (by simp [boundary])
  | succ count ih =>
      rcases Nat.lt_trichotomy index (boundary text count) with hlt | rfl | hgt
      · obtain ⟨earlier, hearlier, heq⟩ := ih hlt
        exact ⟨earlier, by omega, heq⟩
      · exact ⟨count, by omega, rfl⟩
      · rw [boundary_succ] at hindex
        have htrail := isTrail_of_lt_fwd1 text hgt hindex
        rw [hbyte] at htrail
        exact absurd htrail (by simp)

/-- A sequence that starts before a boundary ends there at the latest. -/
theorem fwd1_le_boundary (text : List UInt8) {count index : Nat}
    (hindex : index < boundary text count) (hbyte : isTrail (byteAt text index) = false) :
    fwd1 text index ≤ boundary text count := by
  obtain ⟨earlier, hearlier, rfl⟩ := exists_boundary_of_not_isTrail text hindex hbyte
  rw [← boundary_succ]
  exact (boundary_strictMono text).monotone hearlier

/-! ## Stepping back -/

theorem not_isTrail_of_isLead {byte : Nat} (hlead : isLead byte = true) :
    isTrail byte = false := by
  simp only [isLead, isTrail, Bool.and_eq_true, decide_eq_true_eq, Bool.and_eq_false_iff,
    decide_eq_false_iff_not] at hlead ⊢
  omega

/-- `lead` and `t1` start a sequence of two bytes or more. -/
def startsSequence (lead t1 : Nat) : Bool :=
  isLead lead && (if lead < 0xe0 then isTrail t1 else startsLong lead t1)

/-- Two bytes that begin a sequence are skipped together. -/
theorem add_two_le_fwd1 (text : List UInt8) (index : Nat) (hnext : index + 1 < text.length)
    (hstarts : startsSequence (byteAt text index) (byteAt text (index + 1)) = true) :
    index + 2 ≤ fwd1 text index := by
  rw [fwd1_eq]
  unfold startsSequence at hstarts
  grind

theorem add_three_le_fwd1 (text : List UInt8) (index : Nat) (hnext : index + 2 < text.length)
    (hstarts : startsSequence (byteAt text index) (byteAt text (index + 1)) = true)
    (hlong : 0xe0 ≤ byteAt text index) (htrail : isTrail (byteAt text (index + 2)) = true) :
    index + 3 ≤ fwd1 text index := by
  rw [fwd1_eq]
  unfold startsSequence at hstarts
  grind

theorem add_four_le_fwd1 (text : List UInt8) (index : Nat) (hnext : index + 3 < text.length)
    (hstarts : startsSequence (byteAt text index) (byteAt text (index + 1)) = true)
    (hlong : 0xf0 ≤ byteAt text index) (htrail : isTrail (byteAt text (index + 2)) = true)
    (hlast : isTrail (byteAt text (index + 3)) = true) :
    index + 4 ≤ fwd1 text index := by
  rw [fwd1_eq]
  unfold startsSequence at hstarts
  grind

/-- What `back1SafeBody` looks for: a sequence before `index` that takes in the
byte there. -/
theorem back1SafeBody_eq (text : List UInt8) (index : Nat) :
    back1SafeBody text index =
      if ¬ isTrail (byteAt text index) ∨ index = 0 then index
      else if isLead (byteAt text (index - 1)) then
        if startsSequence (byteAt text (index - 1)) (byteAt text index) then index - 1 else index
      else if ¬ isTrail (byteAt text (index - 1)) ∨ index = 1 then index
      else if 0xe0 ≤ byteAt text (index - 2) ∧ byteAt text (index - 2) ≤ 0xf4 then
        if startsSequence (byteAt text (index - 2)) (byteAt text (index - 1)) then index - 2
        else index
      else if ¬ isTrail (byteAt text (index - 2)) ∨ index = 2 then index
      else if 0xf0 ≤ byteAt text (index - 3) ∧ byteAt text (index - 3) ≤ 0xf4 ∧
          startsSequence (byteAt text (index - 3)) (byteAt text (index - 2)) then index - 3
      else index := by
  unfold back1SafeBody startsSequence startsLong isLead
  grind

/-- At a boundary no earlier sequence takes in the next byte. -/
theorem back1SafeBody_boundary (text : List UInt8) {count : Nat}
    (hlength : boundary text count < text.length) :
    back1SafeBody text (boundary text count) = boundary text count := by
  have hends : ∀ index, index < boundary text count → isLead (byteAt text index) = true →
      fwd1 text index ≤ boundary text count :=
    fun index hindex hlead => fwd1_le_boundary text hindex (not_isTrail_of_isLead hlead)
  generalize boundary text count = stop at *
  rw [back1SafeBody_eq]
  split_ifs with h1 h2 h3 h4 h5 h6 h7 h8
  all_goals try rfl
  · have hstop : stop - 1 + 1 = stop := by omega
    have hle := hends (stop - 1) (by omega) h2
    have hge := add_two_le_fwd1 text (stop - 1) (by omega) (by rwa [hstop])
    omega
  · have hfirst : stop - 2 + 1 = stop - 1 := by omega
    have hsecond : stop - 2 + 2 = stop := by omega
    have hle := hends (stop - 2) (by omega) (by simp [isLead]; omega)
    have hge := add_three_le_fwd1 text (stop - 2) (by omega) (by rwa [hfirst]) h5.1
      (by rw [hsecond]; simpa using fun h => h1 (Or.inl h))
    omega
  · have hfirst : stop - 3 + 1 = stop - 2 := by omega
    have hsecond : stop - 3 + 2 = stop - 1 := by omega
    have hthird : stop - 3 + 3 = stop := by omega
    have hle := hends (stop - 3) (by omega) (by simp [isLead]; omega)
    have hge := add_four_le_fwd1 text (stop - 3) (by omega) (by rw [hfirst]; exact h8.2.2)
      h8.1 (by rw [hsecond]; simpa using fun h => h4 (Or.inl h))
      (by rw [hthird]; simpa using fun h => h1 (Or.inl h))
    omega

section Sequence

variable {text : List UInt8} {start : Nat}
  (hstarts : startsSequence (byteAt text start) (byteAt text (start + 1)) = true)
  (hfirst : isTrail (byteAt text (start + 1)) = true)
include hstarts hfirst

/-- Back over two bytes. -/
theorem back1_add_two : back1 text (start + 2) = start := by
  have hlead : isLead (byteAt text start) = true := by
    simp only [startsSequence, Bool.and_eq_true] at hstarts
    exact hstarts.1
  rw [back1, back1SafeBody_eq]
  simp [hfirst, hlead, hstarts]

/-- Back over three bytes. -/
theorem back1_add_three (hlong : 0xe0 ≤ byteAt text start)
    (hsecond : isTrail (byteAt text (start + 2)) = true) : back1 text (start + 3) = start := by
  rw [back1, back1SafeBody_eq]
  unfold startsSequence isLead isTrail at *
  grind

/-- Back over four bytes. -/
theorem back1_add_four (hlong : 0xf0 ≤ byteAt text start)
    (hsecond : isTrail (byteAt text (start + 2)) = true)
    (hthird : isTrail (byteAt text (start + 3)) = true) : back1 text (start + 4) = start := by
  rw [back1, back1SafeBody_eq]
  unfold startsSequence isLead isTrail at *
  grind

end Sequence

/-- Stepping back from the end of a sequence leads to its start. -/
theorem back1_boundary (text : List UInt8) {count : Nat}
    (hlength : boundary text count < text.length) :
    back1 text (boundary text (count + 1)) = boundary text count := by
  have hstay := back1SafeBody_boundary text hlength
  rw [boundary_succ]
  generalize boundary text count = start at *
  have hone : back1 text (start + 1) = start := by
    unfold back1
    rw [Nat.add_sub_cancel, hstay]
    split <;> rfl
  have htrail : startsLong (byteAt text start) (byteAt text (start + 1)) = true →
      isTrail (byteAt text (start + 1)) = true :=
    isTrail_of_startsLong (byteAt_lt text (start + 1))
  have hstarts : isLead (byteAt text start) = true → ¬ byteAt text start < 0xe0 →
      startsLong (byteAt text start) (byteAt text (start + 1)) = true →
      startsSequence (byteAt text start) (byteAt text (start + 1)) = true := by
    intro hlead hlarge hlong
    simp [startsSequence, hlead, hlarge, hlong]
  -- How far the step forward went says how many trail bytes the step back passes.
  rw [fwd1_eq]
  by_cases hsingle : ¬ isLead (byteAt text start) = true ∨ start + 1 = text.length
  · rw [if_pos hsingle]
    exact hone
  rw [if_neg hsingle]
  have hlead : isLead (byteAt text start) = true := by
    by_contra hnot
    exact hsingle (Or.inl hnot)
  by_cases hsmall : byteAt text start < 0xe0
  · rw [if_pos hsmall]
    split
    next hfirst => exact back1_add_two (by simp [startsSequence, hlead, hsmall, hfirst]) hfirst
    next => exact hone
  rw [if_neg hsmall]
  split
  next => exact hone
  next hlong =>
    rw [not_not] at hlong
    split
    next => exact back1_add_two (hstarts hlead hsmall hlong) (htrail hlong)
    next hsecond =>
      rw [not_or, not_not] at hsecond
      split
      next =>
        exact back1_add_three (hstarts hlead hsmall hlong) (htrail hlong) (by omega) hsecond.2
      next hthird =>
        rw [not_or, not_or, not_not] at hthird
        exact back1_add_four (hstarts hlead hsmall hlong) (htrail hlong) (by omega) hsecond.2
          hthird.2.2

/-- Going back as often as forward comes back. -/
theorem back1_iterate_boundary (text : List UInt8) {start count : Nat}
    (hlength : boundary text (start + count) ≤ text.length) :
    (back1 text)^[count] (boundary text (start + count)) = boundary text start := by
  induction count with
  | zero => rfl
  | succ count ih =>
      have hlt : boundary text (start + count) < text.length :=
        ((boundary_strictMono text) (Nat.lt_succ_self _)).trans_le hlength
      rw [Function.iterate_succ_apply, ← Nat.add_assoc, back1_boundary text hlt]
      exact ih hlt.le

/-- A forward iteration stops exactly at the end of the text. -/
theorem exists_boundary_eq_length (text : List UInt8) :
    ∃ count, boundary text count = text.length := by
  have hreached : ∃ count, text.length ≤ boundary text count :=
    ⟨text.length, (boundary_strictMono text).le_apply⟩
  obtain ⟨hend, hleast⟩ := And.intro (Nat.find_spec hreached)
    (fun earlier => Nat.find_min hreached (m := earlier))
  generalize Nat.find hreached = count at hend hleast
  refine ⟨count, ?_⟩
  cases count with
  | zero => exact Nat.le_antisymm (Nat.zero_le _) hend
  | succ count =>
      have hinside := hleast count (Nat.lt_succ_self _)
      apply Nat.le_antisymm _ hend
      rw [boundary_succ]
      exact fwd1_le text (Nat.not_le.mp hinside)

end Charr.Utf8
