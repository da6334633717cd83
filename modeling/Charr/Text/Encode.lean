import Charr.Text.Backward

/-!
# Code points and their bytes

The bytes of a code point, and the macro that reads one without looking whether the text is
well-formed.
-/

namespace Charr.Utf8

/-! ## Bytes from code points -/

/-- The sequence of a code point. -/
def encode (codePoint : Nat) : List UInt8 :=
  if codePoint < 0x80 then [UInt8.ofNat codePoint]
  else if codePoint < 0x800 then
    [UInt8.ofNat (0xc0 + codePoint / 64), UInt8.ofNat (0x80 + codePoint % 64)]
  else if codePoint < 0x10000 then
    [UInt8.ofNat (0xe0 + codePoint / 4096), UInt8.ofNat (0x80 + codePoint / 64 % 64),
      UInt8.ofNat (0x80 + codePoint % 64)]
  else
    [UInt8.ofNat (0xf0 + codePoint / 262144), UInt8.ofNat (0x80 + codePoint / 4096 % 64),
      UInt8.ofNat (0x80 + codePoint / 64 % 64), UInt8.ofNat (0x80 + codePoint % 64)]

theorem ofNat_eq_of_toNat {value : Nat} {byte : UInt8} (hvalue : value = byte.toNat) :
    UInt8.ofNat value = byte := by
  rw [hvalue, UInt8.ofNat_toNat]

/-- Encoding what was decoded gives the sequence back. -/
theorem encode_decode {bytes : List UInt8} (hsequence : isSequence bytes = true) :
    encode (decode bytes) = bytes := by
  have hrange := decode_range hsequence
  match bytes with
  | [a] =>
      have hlow : decode [a] < 0x80 := of_decide_eq_true hsequence
      rw [encode, if_pos hlow]
      exact congrArg (fun byte => [byte]) (@ofNat_eq_of_toNat _ a rfl)
  | [a, b] =>
      simp only [List.length_cons, List.length_nil] at hrange
      simp only [isSequence, Bool.and_eq_true, decide_eq_true_eq] at hsequence
      obtain ⟨⟨hlow, hhigh⟩, hsecond⟩ := hsequence
      have htrail := range_of_isTrail hsecond
      rw [encode, if_neg (by omega), if_pos (by omega), decode_pair,
        @ofNat_eq_of_toNat _ a (by omega), @ofNat_eq_of_toNat _ b (by omega)]
  | [a, b, c] =>
      simp only [List.length_cons, List.length_nil] at hrange
      simp only [isSequence, Bool.and_eq_true, decide_eq_true_eq] at hsequence
      obtain ⟨⟨⟨⟨hlow, hhigh⟩, hsecond⟩, hsecond'⟩, hthird⟩ := hsequence
      have hbounds := secondRange_bounds a.toNat
      have htrail := range_of_isTrail hthird
      rw [encode, if_neg (by omega), if_neg (by omega), if_pos (by omega), decode_triple,
        @ofNat_eq_of_toNat _ a (by omega), @ofNat_eq_of_toNat _ b (by omega),
        @ofNat_eq_of_toNat _ c (by omega)]
  | [a, b, c, d] =>
      simp only [List.length_cons, List.length_nil] at hrange
      simp only [isSequence, Bool.and_eq_true, decide_eq_true_eq] at hsequence
      obtain ⟨⟨⟨⟨⟨hlow, hhigh⟩, hsecond⟩, hsecond'⟩, hthird⟩, hfourth⟩ := hsequence
      have hbounds := secondRange_bounds a.toNat
      have htrail := range_of_isTrail hthird
      have htrail' := range_of_isTrail hfourth
      rw [encode, if_neg (by omega), if_neg (by omega), if_neg (by omega), decode_quadruple,
        @ofNat_eq_of_toNat _ a (by omega), @ofNat_eq_of_toNat _ b (by omega),
        @ofNat_eq_of_toNat _ c (by omega), @ofNat_eq_of_toNat _ d (by omega)]

/-- No code point lies above `U+10FFFF`. -/
theorem decode_lt {bytes : List UInt8} (hsequence : isSequence bytes = true) :
    decode bytes < 0x110000 := by
  have hrange := decode_range hsequence
  match bytes with
  | [a] | [a, b] | [a, b, c] =>
      simp only [List.length_cons, List.length_nil] at hrange
      omega
  | [a, b, c, d] =>
      simp only [isSequence, Bool.and_eq_true, decide_eq_true_eq] at hsequence
      obtain ⟨⟨⟨⟨⟨hlow, hhigh⟩, hsecond⟩, hsecond'⟩, hthird⟩, hfourth⟩ := hsequence
      have hbounds := secondRange_bounds a.toNat
      have hlast : a.toNat = 0xf4 → (secondRange a.toNat).2 = 0x8f := by
        intro hlast
        rw [hlast]
        rfl
      have htrail := range_of_isTrail hthird
      have htrail' := range_of_isTrail hfourth
      rw [decode_quadruple]
      omega

/-! ## Reading without checks -/

/-- `U8_NEXT_UNSAFE`: the code point at `index` and the position behind it. -/
def nextUnsafe (text : List UInt8) (index : Nat) : CodePoint × Nat :=
  let byte := byteAt text index
  let index := index + 1
  if isSingle byte then (byte, index)
  else if byte < 0xe0 then
    (((byte &&& 0x1f) <<< 6 ||| (byteAt text index &&& 0x3f) : Nat), index + 1)
  else if byte < 0xf0 then
    -- the cast to `UChar` keeps 16 bits
    (((byte <<< 12 ||| (byteAt text index &&& 0x3f) <<< 6 |||
      (byteAt text (index + 1) &&& 0x3f)) % 0x10000 : Nat), index + 2)
  else
    (((byte &&& 7) <<< 18 ||| (byteAt text index &&& 0x3f) <<< 12 |||
      (byteAt text (index + 1) &&& 0x3f) <<< 6 ||| (byteAt text (index + 2) &&& 0x3f) : Nat),
      index + 3)

/-- The unchecked reader goes on too. -/
theorem lt_nextUnsafe (text : List UInt8) (index : Nat) : index < (nextUnsafe text index).2 := by
  unfold nextUnsafe
  dsimp only
  split_ifs <;> dsimp only <;> omega

/-- The upper bits of a lead byte do not fit into 16 bits. -/
theorem triple_mod (lead : Nat) {t1 t2 : Nat} (ht1 : t1 < 0x40) (ht2 : t2 < 0x40) :
    (lead <<< 12 ||| t1 <<< 6 ||| t2) % 0x10000 = (lead &&& 0xf) <<< 12 ||| t1 <<< 6 ||| t2 := by
  have hlead : lead <<< 12 % 2 ^ 16 = (lead &&& 0xf) <<< 12 := by
    rw [show (0xf : Nat) = 2 ^ 4 - 1 by rfl, Nat.and_two_pow_sub_one_eq_mod, Nat.shiftLeft_eq,
      Nat.shiftLeft_eq]
    omega
  have hfirst : t1 <<< 6 % 2 ^ 16 = t1 <<< 6 := by
    rw [Nat.shiftLeft_eq]
    omega
  have hsecond : t2 % 2 ^ 16 = t2 := by omega
  rw [show 0x10000 = 2 ^ 16 by rfl, Nat.or_mod_two_pow, Nat.or_mod_two_pow, hlead, hfirst, hsecond]

/-- Where there is a code point, it is read without checks as well. -/
theorem nextUnsafe_eq {text : List UInt8} {index : Nat} (hindex : index < text.length)
    (hcomplete : (next text index).1 ≠ sentinel) : nextUnsafe text index = next text index := by
  rw [next_eq_drop text hindex] at hcomplete ⊢
  have hbyte : ∀ count, byteAt (text.drop index) count = byteAt text (index + count) :=
    byteAt_drop text index
  by_cases hsingle : byteAt text index < 0x80
  · have hisSingle : isSingle (byteAt text index) = true := decide_eq_true hsingle
    have hnext : next (text.drop index) 0 = (Int.ofNat (byteAt text index), 1) := by
      simp only [next, hbyte, Nat.add_zero, hisSingle, if_true]
      rfl
    simp only [nextUnsafe, hisSingle, if_true]
    rw [hnext]
    rfl
  · have hisSingle : isSingle (byteAt text index) = false := decide_eq_false hsingle
    have hread := next_complete (by rw [hbyte]; exact Nat.not_lt.mp hsingle) hcomplete
    simp only [hbyte, Nat.add_zero] at hread
    rcases hread with ⟨hlow, hhigh, -, hfirst, hnext⟩ | ⟨hlow, hhigh, -, hvalid, hsecond, hnext⟩ |
      ⟨hlow, hhigh, -, hvalid, hsecond, hthird, hnext⟩
    · rw [hnext, ← trail_bits hfirst]
      simp only [nextUnsafe, hisSingle, hhigh, if_true, if_false, Bool.false_eq_true]
      rfl
    · have hfirst := isTrail_of_isValidLead3AndT1 (byteAt_lt text (index + 1)) hvalid
      have hnotShort : ¬ byteAt text index < 0xe0 := Nat.not_lt.mpr hlow
      have hbits : ∀ {byte : Nat}, byte &&& 0x3f < 0x40 := Nat.lt_succ_of_le Nat.and_le_right
      rw [hnext, ← trail_bits hsecond]
      simp only [nextUnsafe, hisSingle, hhigh, hnotShort, if_true, if_false, Bool.false_eq_true]
      rw [triple_mod _ hbits hbits]
      rfl
    · have hnotShort : ¬ byteAt text index < 0xe0 := by omega
      have hnotThree : ¬ byteAt text index < 0xf0 := Nat.not_lt.mpr hlow
      rw [hnext, ← trail_bits hsecond, ← trail_bits hthird, ← lead4_bits ⟨hlow, hhigh⟩]
      simp only [nextUnsafe, hisSingle, hnotThree, hnotShort, if_false, Bool.false_eq_true]
      rfl

end Charr.Utf8
