import Charr.Text.Utf8
import Mathlib.Tactic.Ring

/-!
# Text as a sequence of tokens

What a loop over `U8_NEXT` meets in a byte string: the code points, and the
ill-formed subsequences, each with its bytes. Bytes may be cut off behind a token
and complete sequences may be followed by anything, so tokens can be taken apart
and put together like the bytes themselves.
-/

namespace Charr.Utf8

/-! ## One step on a part of the text -/

theorem byteAt_drop (text : List UInt8) (start index : Nat) :
    byteAt (text.drop start) index = byteAt text (start + index) := by
  simp [byteAt, List.getD_eq_getElem?_getD]

theorem byteAt_append_left {text : List UInt8} (rest : List UInt8) {index : Nat}
    (hindex : index < text.length) : byteAt (text ++ rest) index = byteAt text index := by
  simp [byteAt, List.getD_eq_getElem?_getD, List.getElem?_append_left hindex]

theorem byteAt_take {text : List UInt8} {stop index : Nat} (hindex : index < stop) :
    byteAt (text.take stop) index = byteAt text index := by
  simp [byteAt, List.getD_eq_getElem?_getD, List.getElem?_take_of_lt hindex]

/-- A step depends on the bytes from there on only. -/
theorem next_eq_drop (text : List UInt8) {start : Nat} (hstart : start < text.length) :
    next text start =
      ((next (text.drop start) 0).1, start + (next (text.drop start) 0).2) := by
  unfold next
  simp only [byteAt_drop, List.length_drop]
  grind

/-- A complete sequence is read whatever comes behind it. -/
theorem next_append_of_complete {text : List UInt8} (rest : List UInt8) (hne : text ≠ [])
    (hcomplete : (next text 0).1 ≠ sentinel) : next (text ++ rest) 0 = next text 0 := by
  have hpos : 0 < text.length := List.length_pos_iff.mpr hne
  have hbyte : ∀ index, index < text.length → byteAt (text ++ rest) index = byteAt text index :=
    fun index hindex => byteAt_append_left rest hindex
  revert hcomplete
  unfold next
  grind

/-- No sequence goes on with a byte that is no trail byte. -/
theorem next_append_of_not_isTrail {text rest : List UInt8} (hne : text ≠ [])
    (hrest : ∀ byte ∈ rest.head?, isTrail byte.toNat = false) :
    next (text ++ rest) 0 = next text 0 := by
  cases rest with
  | nil => rw [List.append_nil]
  | cons byte rest =>
      have hpos : 0 < text.length := List.length_pos_iff.mpr hne
      have hbyte : ∀ index, index < text.length →
          byteAt (text ++ byte :: rest) index = byteAt text index :=
        fun index hindex => byteAt_append_left _ hindex
      have hend : ∀ index, index = text.length →
          isTrail (byteAt (text ++ byte :: rest) index) = false := by
        rintro index rfl
        have hhead : byteAt (text ++ byte :: rest) text.length = byte.toNat := by
          simp [byteAt, List.getD_eq_getElem?_getD]
        rw [hhead]
        exact hrest byte rfl
      have hthree : ∀ lead index, index = text.length →
          isValidLead3AndT1 lead (byteAt (text ++ byte :: rest) index) = false := by
        intro lead index hindex
        apply Bool.eq_false_iff.mpr
        intro hvalid
        exact absurd (isTrail_of_isValidLead3AndT1 (byteAt_lt _ _) hvalid)
          (by simp [hend index hindex])
      have hfour : ∀ lead index, index = text.length →
          isValidLead4AndT1 lead (byteAt (text ++ byte :: rest) index) = false := by
        intro lead index hindex
        apply Bool.eq_false_iff.mpr
        intro hvalid
        exact absurd (isTrail_of_isValidLead4AndT1 (byteAt_lt _ _) hvalid)
          (by simp [hend index hindex])
      have hlength : text.length < (text ++ byte :: rest).length := by simp
      clear hrest hne
      generalize text ++ byte :: rest = whole at *
      -- the first byte of the rest can stand at the second, third or fourth place
      have hfirst := hbyte 0 hpos
      rcases (by omega : text.length = 1 ∨ text.length = 2 ∨ text.length = 3 ∨
        3 < text.length) with hone | htwo | hlast | hmore
      · unfold next
        simp [hfirst, hone, hend 1 hone.symm, hthree _ 1 hone.symm, hfour _ 1 hone.symm]
      · have hwhole : 1 ≠ whole.length := by omega
        unfold next
        simp [hfirst, hbyte 1 (by omega), htwo, hend 2 htwo.symm, hwhole]
      · have hwhole : 1 ≠ whole.length ∧ 2 ≠ whole.length := by omega
        unfold next
        simp [hfirst, hbyte 1 (by omega), hbyte 2 (by omega), hlast, hend 3 hlast.symm, hwhole]
      · have hwhole : 1 ≠ whole.length ∧ 2 ≠ whole.length ∧ 3 ≠ whole.length := by omega
        have htext : 1 ≠ text.length ∧ 2 ≠ text.length ∧ 3 ≠ text.length := by omega
        unfold next
        simp [hfirst, hbyte 1 (by omega), hbyte 2 (by omega), hbyte 3 (by omega), hwhole, htext]

/-- Bytes behind a token do not matter to it. -/
theorem next_take {text : List UInt8} {stop : Nat} (hstop : (next text 0).2 ≤ stop) :
    next (text.take stop) 0 = next text 0 := by
  rcases Nat.lt_or_ge stop text.length with hlt | hge
  · have hpos : 0 < stop := by
      have hforward := lt_fwd1 text 0
      rw [← next_snd] at hforward
      omega
    have hbyte : ∀ index, index < stop → byteAt (text.take stop) index = byteAt text index :=
      fun index hindex => byteAt_take hindex
    have hlength : (text.take stop).length = stop := List.length_take_of_le hlt.le
    generalize text.take stop = part at *
    have hfirst := hbyte 0 hpos
    revert hstop
    -- the cut can stand behind the first, the second, the third or a later byte
    rcases (by omega : stop = 1 ∨ stop = 2 ∨ stop = 3 ∨ 3 < stop) with
      rfl | rfl | rfl | hmore
    · unfold next
      grind
    · have hsecond := hbyte 1 (by omega)
      unfold next
      grind
    · have hsecond := hbyte 1 (by omega)
      have hthird := hbyte 2 (by omega)
      unfold next
      grind
    · have htext : 1 ≠ text.length ∧ 2 ≠ text.length ∧ 3 ≠ text.length := by omega
      have hpart : 1 ≠ part.length ∧ 2 ≠ part.length ∧ 3 ≠ part.length := by omega
      intro _
      unfold next
      simp [hfirst, hbyte 1 (by omega), hbyte 2 (by omega), hbyte 3 (by omega), htext, hpart]
  · rw [List.take_of_length_le hge]

/-! ## Well-formed sequences -/

theorem range_of_isTrail {byte : Nat} (htrail : isTrail byte = true) :
    0x80 ≤ byte ∧ byte ≤ 0xbf := by
  simp only [isTrail, Bool.and_eq_true, decide_eq_true_eq] at htrail
  omega

/-- The second bytes of a sequence of three: no overlong form, no surrogate. -/
theorem isValidLead3AndT1_iff {lead t1 : Nat} (hlead : 0xe0 ≤ lead ∧ lead < 0xf0) (ht1 : t1 < 256) :
    isValidLead3AndT1 lead t1 = true ↔
      0x80 ≤ t1 ∧ t1 ≤ 0xbf ∧ (lead = 0xe0 → 0xa0 ≤ t1) ∧ (lead = 0xed → t1 ≤ 0x9f) := by
  have htable : ∀ low < 16, ∀ shift < 8,
      (lead3T1Bits.getD ((0xe0 + low) &&& 0xf) 0 &&& (1 <<< shift) ≠ 0 ↔
      (shift = 4 ∨ shift = 5) ∧ (low = 0 → shift = 5) ∧ (low = 0xd → shift = 4)) := by decide
  have hlow := htable (lead - 0xe0) (by omega) (t1 >>> 5) (by rw [Nat.shiftRight_eq_div_pow]; omega)
  rw [show 0xe0 + (lead - 0xe0) = lead by omega] at hlow
  rw [isValidLead3AndT1, decide_eq_true_eq, hlow, Nat.shiftRight_eq_div_pow]
  omega

theorem isValidLead4AndT1_iff {lead t1 : Nat} (hlead : 0xf0 ≤ lead ∧ lead ≤ 0xf4) (ht1 : t1 < 256) :
    isValidLead4AndT1 lead t1 = true ↔
      0x80 ≤ t1 ∧ t1 ≤ 0xbf ∧ (lead = 0xf0 → 0x90 ≤ t1) ∧ (lead = 0xf4 → t1 ≤ 0x8f) := by
  have htable : ∀ low < 5, ∀ shift < 16,
      (lead4T1Bits.getD shift 0 &&& (1 <<< ((0xf0 + low) &&& 7)) ≠ 0 ↔
      8 ≤ shift ∧ shift ≤ 11 ∧ (low = 0 → 9 ≤ shift) ∧ (low = 4 → shift = 8)) := by decide
  have hlow := htable (lead - 0xf0) (by omega) (t1 >>> 4) (by rw [Nat.shiftRight_eq_div_pow]; omega)
  rw [show 0xf0 + (lead - 0xf0) = lead by omega] at hlow
  rw [isValidLead4AndT1, decide_eq_true_eq, hlow, Nat.shiftRight_eq_div_pow]
  omega

theorem shiftLeft_or_eq {high low width : Nat} (hlow : low < 2 ^ width) :
    high <<< width ||| low = high * 2 ^ width + low := by
  rw [← Nat.shiftLeft_add_eq_or_of_lt hlow, Nat.shiftLeft_eq]

/-- The value of a sequence of two bytes. -/
theorem decode_two {lead t1 : Nat} (hlead : 0xc0 ≤ lead ∧ lead < 0xe0)
    (ht1 : 0x80 ≤ t1 ∧ t1 ≤ 0xbf) :
    (lead &&& 0x1f) <<< 6 ||| (t1 - 0x80) = (lead - 0xc0) * 64 + (t1 - 0x80) := by
  have hbits : lead &&& 0x1f = lead - 0xc0 := by
    rw [show (0x1f : Nat) = 2 ^ 5 - 1 by rfl, Nat.and_two_pow_sub_one_eq_mod]
    omega
  rw [shiftLeft_or_eq (show t1 - 0x80 < 2 ^ 6 by omega), hbits]
  norm_num

/-- The value of one of three bytes. -/
theorem decode_three {lead t1 t2 : Nat} (hlead : 0xe0 ≤ lead ∧ lead < 0xf0)
    (ht1 : 0x80 ≤ t1 ∧ t1 ≤ 0xbf)
    (ht2 : 0x80 ≤ t2 ∧ t2 ≤ 0xbf) :
    (lead &&& 0xf) <<< 12 ||| (t1 &&& 0x3f) <<< 6 ||| (t2 - 0x80) =
      (lead - 0xe0) * 4096 + (t1 - 0x80) * 64 + (t2 - 0x80) := by
  have hbits : lead &&& 0xf = lead - 0xe0 := by
    rw [show (0xf : Nat) = 2 ^ 4 - 1 by rfl, Nat.and_two_pow_sub_one_eq_mod]
    omega
  have htrail : t1 &&& 0x3f = t1 - 0x80 := by
    rw [show (0x3f : Nat) = 2 ^ 6 - 1 by rfl, Nat.and_two_pow_sub_one_eq_mod]
    omega
  rw [Nat.or_assoc, hbits, htrail, shiftLeft_or_eq (show t2 - 0x80 < 2 ^ 6 by omega),
    shiftLeft_or_eq (by omega)]
  omega

/-- The value of one of four bytes. -/
theorem decode_four {lead t1 t2 t3 : Nat} (ht1 : 0x80 ≤ t1 ∧ t1 ≤ 0xbf)
    (ht2 : 0x80 ≤ t2 ∧ t2 ≤ 0xbf) (ht3 : 0x80 ≤ t3 ∧ t3 ≤ 0xbf) :
    (lead - 0xf0) <<< 18 ||| (t1 &&& 0x3f) <<< 12 ||| (t2 - 0x80) <<< 6 ||| (t3 - 0x80) =
      (lead - 0xf0) * 262144 + (t1 - 0x80) * 4096 + (t2 - 0x80) * 64 + (t3 - 0x80) := by
  have htrail : t1 &&& 0x3f = t1 - 0x80 := by
    rw [show (0x3f : Nat) = 2 ^ 6 - 1 by rfl, Nat.and_two_pow_sub_one_eq_mod]
    omega
  rw [Nat.or_assoc, Nat.or_assoc, htrail, shiftLeft_or_eq (show t3 - 0x80 < 2 ^ 6 by omega),
    shiftLeft_or_eq (show _ < 2 ^ 12 by omega), shiftLeft_or_eq (by omega)]
  omega

/-- The second bytes that may follow a lead byte. -/
def secondRange (lead : Nat) : Nat × Nat :=
  if lead = 0xe0 then (0xa0, 0xbf)
  else if lead = 0xed then (0x80, 0x9f)
  else if lead = 0xf0 then (0x90, 0xbf)
  else if lead = 0xf4 then (0x80, 0x8f)
  else (0x80, 0xbf)

/-- The well-formed sequences of the Unicode standard, by their length. -/
def isSequence : List UInt8 → Bool
  | [a] => a.toNat < 0x80
  | [a, b] => 0xc2 ≤ a.toNat && a.toNat ≤ 0xdf && isTrail b.toNat
  | [a, b, c] =>
      0xe0 ≤ a.toNat && a.toNat ≤ 0xef && (secondRange a.toNat).1 ≤ b.toNat &&
        b.toNat ≤ (secondRange a.toNat).2 && isTrail c.toNat
  | [a, b, c, d] =>
      0xf0 ≤ a.toNat && a.toNat ≤ 0xf4 && (secondRange a.toNat).1 ≤ b.toNat &&
        b.toNat ≤ (secondRange a.toNat).2 && isTrail c.toNat && isTrail d.toNat
  | _ => false

/-- The code point of a well-formed sequence. -/
def decode : List UInt8 → Nat
  | [a] => a.toNat
  | [a, b] => (a.toNat - 0xc0) * 64 + (b.toNat - 0x80)
  | [a, b, c] => (a.toNat - 0xe0) * 4096 + (b.toNat - 0x80) * 64 + (c.toNat - 0x80)
  | [a, b, c, d] =>
      (a.toNat - 0xf0) * 262144 + (b.toNat - 0x80) * 4096 + (c.toNat - 0x80) * 64 +
        (d.toNat - 0x80)
  | _ => 0

/-- Text made of well-formed sequences only. -/
def WellFormed (text : List UInt8) : Prop :=
  ∃ sequences : List (List UInt8), sequences.flatten = text ∧ ∀ bytes ∈ sequences, isSequence bytes

theorem not_isTrail_of_isSequence {bytes : List UInt8} (hsequence : isSequence bytes = true) :
    isTrail (byteAt bytes 0) = false := by
  match bytes with
  | [a] | [a, b] | [a, b, c] | [a, b, c, d] =>
      simp only [isSequence, Bool.and_eq_true, decide_eq_true_eq] at hsequence
      simp only [isTrail, byteAt, List.getD_cons_zero, Bool.and_eq_false_iff,
        decide_eq_false_iff_not]
      omega

/-- A well-formed text does not begin inside a code point. -/
theorem WellFormed.not_isTrail {text : List UInt8} (hwell : WellFormed text) (hne : text ≠ []) :
    isTrail (byteAt text 0) = false := by
  obtain ⟨sequences, rfl, hsequences⟩ := hwell
  cases sequences with
  | nil => exact absurd rfl hne
  | cons bytes rest =>
      have hfirst := hsequences bytes List.mem_cons_self
      cases bytes with
      | nil => exact absurd hfirst (by simp [isSequence])
      | cons first others =>
          have hbyte := not_isTrail_of_isSequence hfirst
          exact hbyte

/-- The second byte of three, by a range. -/
theorem secondRange_three {lead t1 : Nat} (hlead : 0xe0 ≤ lead ∧ lead < 0xf0)
    (ht1 : t1 < 256) :
    isValidLead3AndT1 lead t1 = true ↔ (secondRange lead).1 ≤ t1 ∧ t1 ≤ (secondRange lead).2 := by
  rw [isValidLead3AndT1_iff hlead ht1]
  unfold secondRange
  split_ifs <;> simp only <;> omega

/-- The second byte of four, by a range. -/
theorem secondRange_four {lead t1 : Nat} (hlead : 0xf0 ≤ lead ∧ lead ≤ 0xf4)
    (ht1 : t1 < 256) :
    isValidLead4AndT1 lead t1 = true ↔ (secondRange lead).1 ≤ t1 ∧ t1 ≤ (secondRange lead).2 := by
  rw [isValidLead4AndT1_iff hlead ht1]
  unfold secondRange
  split_ifs <;> simp only <;> omega


/-- The three ways to read a code point behind a lead byte. -/
theorem next_complete {text : List UInt8} (hlead : 0x80 ≤ byteAt text 0)
    (hcomplete : (next text 0).1 ≠ sentinel) :
    (0xc2 ≤ byteAt text 0 ∧ byteAt text 0 < 0xe0 ∧ 2 ≤ text.length ∧
      isTrail (byteAt text 1) = true ∧
      next text 0 = (Int.ofNat ((byteAt text 0 &&& 0x1f) <<< 6 ||| (byteAt text 1 - 0x80)), 2)) ∨
    (0xe0 ≤ byteAt text 0 ∧ byteAt text 0 < 0xf0 ∧ 3 ≤ text.length ∧
      isValidLead3AndT1 (byteAt text 0) (byteAt text 1) = true ∧
      isTrail (byteAt text 2) = true ∧
      next text 0 = (Int.ofNat
        ((byteAt text 0 &&& 0xf) <<< 12 ||| (byteAt text 1 &&& 0x3f) <<< 6 |||
        (byteAt text 2 - 0x80)), 3)) ∨
    (0xf0 ≤ byteAt text 0 ∧ byteAt text 0 ≤ 0xf4 ∧ 4 ≤ text.length ∧
      isValidLead4AndT1 (byteAt text 0) (byteAt text 1) = true ∧
      isTrail (byteAt text 2) = true ∧ isTrail (byteAt text 3) = true ∧
      next text 0 = (Int.ofNat
        ((byteAt text 0 - 0xf0) <<< 18 ||| (byteAt text 1 &&& 0x3f) <<< 12 |||
        (byteAt text 2 - 0x80) <<< 6 ||| (byteAt text 3 - 0x80)), 4)) := by
  have hne : text ≠ [] := by
    rintro rfl
    exact absurd hlead (by decide)
  have hpos := List.length_pos_iff.mpr hne
  have hsingle : isSingle (byteAt text 0) = false := by simpa [isSingle] using hlead
  generalize hstep : next text 0 = step at *
  unfold next at hstep
  simp only [hsingle, Bool.false_eq_true, if_false, Nat.zero_add, Nat.reduceAdd] at hstep
  split_ifs at hstep with hend hlong hthree hvalid hlast hfour hthird hlast hsecond
  all_goals subst hstep
  all_goals try exact absurd rfl hcomplete
  · simp at hlast
    refine Or.inr (Or.inl ?_)
    exact ⟨hlong, hthree, by omega, hvalid, hlast.2, rfl⟩
  · simp at hlast hthird hfour
    refine Or.inr (Or.inr ?_)
    exact ⟨by omega, by omega, by omega, hfour.2, hthird.2, hlast.2, rfl⟩
  · simp only [Bool.and_eq_true, decide_eq_true_eq] at hsecond
    refine Or.inl ?_
    exact ⟨hsecond.1, by omega, by omega, hsecond.2, rfl⟩

/-- An ill-formed token has three bytes at most. -/
theorem next_sentinel {text : List UInt8} (hill : (next text 0).1 = sentinel) :
    (next text 0).2 ≤ 3 ∧ 0x80 ≤ byteAt text 0 := by
  revert hill
  unfold next sentinel isSingle
  grind

/-- What is not the sentinel is the code point of a well-formed sequence. -/
theorem isSequence_next {text : List UInt8} (hne : text ≠ [])
    (hcomplete : (next text 0).1 ≠ sentinel) :
    isSequence (text.take (next text 0).2) = true ∧
      (next text 0).1 = decode (text.take (next text 0).2) := by
  obtain ⟨lead, rest, rfl⟩ := List.exists_cons_of_ne_nil hne
  rcases Nat.lt_or_ge (byteAt (lead :: rest) 0) 0x80 with hsingle | hlead
  · have hlt : lead.toNat < 0x80 := hsingle
    have hnext : next (lead :: rest) 0 = ((lead.toNat : CodePoint), 1) := by
      simp [next, byteAt, isSingle, hlt]
    rw [hnext]
    exact ⟨decide_eq_true hlt, rfl⟩
  rcases next_complete hlead hcomplete with ⟨hlow, hhigh, hlength, ht1, hnext⟩ |
    ⟨hlow, hhigh, hlength, hvalid, ht2, hnext⟩ | ⟨hlow, hhigh, hlength, hvalid, ht2, ht3, hnext⟩
  · obtain ⟨t1, rest, rfl⟩ :=
      List.exists_cons_of_length_pos (Nat.le_of_succ_le_succ hlength)
    rw [hnext, decode_two ⟨by omega, hhigh⟩ (range_of_isTrail ht1)]
    change 0xc2 ≤ lead.toNat at hlow
    change lead.toNat < 0xe0 at hhigh
    refine ⟨?_, rfl⟩
    simp only [List.take_succ_cons, List.take_zero, isSequence, Bool.and_eq_true,
      decide_eq_true_eq]
    exact ⟨⟨hlow, by omega⟩, ht1⟩
  · obtain ⟨t1, rest, rfl⟩ :=
      List.exists_cons_of_length_pos (show 0 < rest.length by simp at hlength; omega)
    obtain ⟨t2, rest, rfl⟩ :=
      List.exists_cons_of_length_pos (show 0 < rest.length by simp at hlength; omega)
    have hsecond := (secondRange_three ⟨hlow, hhigh⟩ (byteAt_lt _ 1)).mp hvalid
    have htrail := range_of_isTrail (isTrail_of_isValidLead3AndT1 (byteAt_lt _ _) hvalid)
    rw [hnext, decode_three ⟨hlow, hhigh⟩ htrail (range_of_isTrail ht2)]
    refine ⟨?_, rfl⟩
    simp only [List.take_succ_cons, List.take_zero, isSequence, Bool.and_eq_true,
      decide_eq_true_eq]
    exact ⟨⟨⟨⟨hlow, Nat.le_of_lt_succ hhigh⟩, hsecond.1⟩, hsecond.2⟩, ht2⟩
  · obtain ⟨t1, rest, rfl⟩ :=
      List.exists_cons_of_length_pos (show 0 < rest.length by simp at hlength; omega)
    obtain ⟨t2, rest, rfl⟩ :=
      List.exists_cons_of_length_pos (show 0 < rest.length by simp at hlength; omega)
    obtain ⟨t3, rest, rfl⟩ :=
      List.exists_cons_of_length_pos (show 0 < rest.length by simp at hlength; omega)
    have hsecond := (secondRange_four ⟨hlow, hhigh⟩ (byteAt_lt _ 1)).mp hvalid
    have htrail := range_of_isTrail (isTrail_of_isValidLead4AndT1 (byteAt_lt _ _) hvalid)
    rw [hnext, decode_four htrail (range_of_isTrail ht2) (range_of_isTrail ht3)]
    refine ⟨?_, rfl⟩
    simp only [List.take_succ_cons, List.take_zero, isSequence, Bool.and_eq_true,
      decide_eq_true_eq]
    exact ⟨⟨⟨⟨⟨hlow, hhigh⟩, hsecond.1⟩, hsecond.2⟩, ht2⟩, ht3⟩

section Decode

variable (a b c d : UInt8)

theorem decode_pair : decode [a, b] = (a.toNat - 0xc0) * 64 + (b.toNat - 0x80) := rfl

theorem decode_triple :
    decode [a, b, c] =
      ((a.toNat - 0xe0) * 64 + (b.toNat - 0x80)) * 64 + (c.toNat - 0x80) := by
  change (a.toNat - 0xe0) * 4096 + (b.toNat - 0x80) * 64 + (c.toNat - 0x80) = _
  ring

theorem decode_quadruple :
    decode [a, b, c, d] =
      (((a.toNat - 0xf0) * 64 + (b.toNat - 0x80)) * 64 + (c.toNat - 0x80)) * 64 +
        (d.toNat - 0x80) := by
  change (a.toNat - 0xf0) * 262144 + (b.toNat - 0x80) * 4096 + (c.toNat - 0x80) * 64 +
    (d.toNat - 0x80) = _
  ring

end Decode

theorem secondRange_bounds (lead : Nat) :
    0x80 ≤ (secondRange lead).1 ∧ (secondRange lead).2 ≤ 0xbf ∧
    (lead = 0xe0 → (secondRange lead).1 = 0xa0) ∧ (lead = 0xf0 → (secondRange lead).1 = 0x90) := by
  unfold secondRange
  split_ifs <;> simp_all

/-- The code points of sequences by their lengths. -/
theorem decode_range {bytes : List UInt8} (hsequence : isSequence bytes = true) :
    (bytes.length = 1 ∧ decode bytes < 0x80) ∨
    (bytes.length = 2 ∧ 0x80 ≤ decode bytes ∧ decode bytes < 0x800) ∨
    (bytes.length = 3 ∧ 0x800 ≤ decode bytes ∧ decode bytes < 0x10000) ∨
    (bytes.length = 4 ∧ 0x10000 ≤ decode bytes) := by
  unfold isSequence at hsequence
  split at hsequence
  next a => exact Or.inl ⟨rfl, of_decide_eq_true hsequence⟩
  next a b =>
    simp only [Bool.and_eq_true, decide_eq_true_eq] at hsequence
    have htrail := range_of_isTrail hsequence.2
    refine Or.inr (Or.inl ⟨rfl, ?_⟩)
    rw [decode_pair]
    omega
  next a b c =>
    simp only [Bool.and_eq_true, decide_eq_true_eq] at hsequence
    have htrail := range_of_isTrail hsequence.2
    have hbounds := secondRange_bounds a.toNat
    refine Or.inr (Or.inr (Or.inl ⟨rfl, ?_⟩))
    rw [decode_triple]
    omega
  next a b c d =>
    simp only [Bool.and_eq_true, decide_eq_true_eq] at hsequence
    have hbounds := secondRange_bounds a.toNat
    refine Or.inr (Or.inr (Or.inr ⟨rfl, ?_⟩))
    rw [decode_quadruple]
    omega
  next => exact absurd hsequence (by simp)

/-- The last six bits and those before them. -/
theorem six_bits_inj {high low high' low' : Nat} (hlow : 0x80 ≤ low ∧ low ≤ 0xbf)
    (hlow' : 0x80 ≤ low' ∧ low' ≤ 0xbf)
    (heq : high * 64 + (low - 0x80) = high' * 64 + (low' - 0x80)) : high = high' ∧ low = low' := by
  omega

/-- A code point has one sequence. -/
theorem decode_inj {left right : List UInt8} (hleft : isSequence left = true)
    (hright : isSequence right = true) (heq : decode left = decode right) : left = right := by
  have hlength : left.length = right.length := by
    have hleftRange := decode_range hleft
    have hrightRange := decode_range hright
    omega
  have hsecond : ∀ {lead : UInt8} {byte : Nat}, (secondRange lead.toNat).1 ≤ byte →
      byte ≤ (secondRange lead.toNat).2 → 0x80 ≤ byte ∧ byte ≤ 0xbf := by
    intro lead byte hlow hhigh
    have hbounds := secondRange_bounds lead.toNat
    exact ⟨hbounds.1.trans hlow, hhigh.trans hbounds.2.1⟩
  have hlead : ∀ {base x y : Nat}, base ≤ x → base ≤ y → x - base = y - base → x = y :=
    fun hx hy hsub => by omega
  -- Sequences of one length, compared from the last byte to the lead.
  unfold isSequence at hleft
  split at hleft
  next a =>
    obtain ⟨a', rfl⟩ := List.length_eq_one_iff.mp hlength.symm
    rw [UInt8.toNat_inj.mp (show a.toNat = a'.toNat from heq)]
  next a b =>
    obtain ⟨a', b', rfl⟩ := List.length_eq_two.mp hlength.symm
    simp only [isSequence, Bool.and_eq_true, decide_eq_true_eq] at hleft hright
    rw [decode_pair, decode_pair] at heq
    obtain ⟨ha, hb⟩ := six_bits_inj (range_of_isTrail hleft.2) (range_of_isTrail hright.2) heq
    rw [UInt8.toNat_inj.mp (show a.toNat = a'.toNat by omega), UInt8.toNat_inj.mp hb]
  next a b c =>
    obtain ⟨a', b', c', rfl⟩ := List.length_eq_three.mp hlength.symm
    simp only [isSequence, Bool.and_eq_true, decide_eq_true_eq] at hleft hright
    obtain ⟨⟨⟨⟨hlow, -⟩, hfrom⟩, hto⟩, htrail⟩ := hleft
    obtain ⟨⟨⟨⟨hlow', -⟩, hfrom'⟩, hto'⟩, htrail'⟩ := hright
    rw [decode_triple, decode_triple] at heq
    obtain ⟨hab, hc⟩ := six_bits_inj (range_of_isTrail htrail) (range_of_isTrail htrail') heq
    obtain ⟨ha, hb⟩ := six_bits_inj (hsecond hfrom hto) (hsecond hfrom' hto') hab
    rw [UInt8.toNat_inj.mp (hlead hlow hlow' ha), UInt8.toNat_inj.mp hb, UInt8.toNat_inj.mp hc]
  next a b c d =>
    obtain ⟨a', rest, rfl⟩ := List.exists_cons_of_length_pos
      (show 0 < right.length by rw [← hlength]; exact Nat.succ_pos _)
    obtain ⟨b', c', d', rfl⟩ := List.length_eq_three.mp (Nat.succ.inj hlength).symm
    simp only [isSequence, Bool.and_eq_true, decide_eq_true_eq] at hleft hright
    obtain ⟨⟨⟨⟨⟨hlow, -⟩, hfrom⟩, hto⟩, hthird⟩, htrail⟩ := hleft
    obtain ⟨⟨⟨⟨⟨hlow', -⟩, hfrom'⟩, hto'⟩, hthird'⟩, htrail'⟩ := hright
    rw [decode_quadruple, decode_quadruple] at heq
    obtain ⟨habc, hd⟩ := six_bits_inj (range_of_isTrail htrail) (range_of_isTrail htrail') heq
    obtain ⟨hab, hc⟩ := six_bits_inj (range_of_isTrail hthird) (range_of_isTrail hthird') habc
    obtain ⟨ha, hb⟩ := six_bits_inj (hsecond hfrom hto) (hsecond hfrom' hto') hab
    rw [UInt8.toNat_inj.mp (hlead hlow hlow' ha), UInt8.toNat_inj.mp hb, UInt8.toNat_inj.mp hc,
      UInt8.toNat_inj.mp hd]
  next => exact absurd hleft (by simp)

/-! ## Tokens -/

/-- One step of the iteration: what was read, and its bytes. -/
structure Token where
  codePoint : CodePoint
  bytes : List UInt8
  deriving DecidableEq, Repr

/-- The bytes of tokens in a row. -/
def tokenBytes (tokens : List Token) : List UInt8 := tokens.flatMap Token.bytes

@[simp] theorem tokenBytes_nil : tokenBytes [] = [] := rfl

@[simp] theorem tokenBytes_cons (token : Token) (tokens : List Token) :
    tokenBytes (token :: tokens) = token.bytes ++ tokenBytes tokens := rfl

@[simp] theorem tokenBytes_append (left right : List Token) :
    tokenBytes (left ++ right) = tokenBytes left ++ tokenBytes right :=
  List.flatMap_append

theorem one_le_next_snd (text : List UInt8) : 1 ≤ (next text 0).2 := by
  rw [next_snd]
  exact lt_fwd1 text 0

theorem next_snd_le {text : List UInt8} (hne : text ≠ []) : (next text 0).2 ≤ text.length := by
  rw [next_snd]
  exact fwd1_le text (List.length_pos_iff.mpr hne)

/-- Everything a loop over `U8_NEXT` meets. -/
def tokens : List UInt8 → List Token
  | [] => []
  | byte :: rest =>
      ⟨(next (byte :: rest) 0).1, (byte :: rest).take (next (byte :: rest) 0).2⟩ ::
        tokens ((byte :: rest).drop (next (byte :: rest) 0).2)
termination_by text => text.length
decreasing_by
  have hforward := one_le_next_snd (byte :: rest)
  simp only [List.length_drop, List.length_cons]
  omega

@[simp] theorem tokens_nil : tokens [] = [] := by
  rw [tokens]

/-- The first token is what is read at the start. -/
theorem tokens_eq_cons {text : List UInt8} (hne : text ≠ []) :
    tokens text =
      ⟨(next text 0).1, text.take (next text 0).2⟩ :: tokens (text.drop (next text 0).2) := by
  cases text with
  | nil => exact absurd rfl hne
  | cons byte rest => rw [tokens]

theorem tokens_eq_nil {text : List UInt8} : tokens text = [] ↔ text = [] := by
  constructor
  · intro hnil
    by_contra hne
    rw [tokens_eq_cons hne] at hnil
    exact absurd hnil (by simp)
  · rintro rfl
    exact tokens_nil

/-- The tokens are the text, cut into pieces. -/
@[simp] theorem tokenBytes_tokens (text : List UInt8) : tokenBytes (tokens text) = text := by
  induction text using tokens.induct with
  | case1 => simp
  | case2 byte rest ih =>
      rw [tokens, tokenBytes_cons, ih]
      exact List.take_append_drop _ _

/-- A byte below `0x80` is a token of its own. -/
theorem tokens_single {byte : UInt8} (hsingle : byte.toNat < 0x80) (rest : List UInt8) :
    tokens (byte :: rest) = ⟨byte.toNat, [byte]⟩ :: tokens rest := by
  have hnext : next (byte :: rest) 0 = ((byte.toNat : CodePoint), 1) := by
    simp [next, byteAt, isSingle, hsingle]
  rw [tokens, hnext]
  rfl

/-! ## Putting texts together -/

/-- Texts that are read apart have their tokens apart. -/
theorem tokens_append_of {text rest : List UInt8}
    (hstep : ∀ part, part ≠ [] → part <:+ text → next (part ++ rest) 0 = next part 0) :
    tokens (text ++ rest) = tokens text ++ tokens rest := by
  induction text using tokens.induct with
  | case1 => simp
  | case2 byte more ih =>
      have hne : byte :: more ≠ [] := List.cons_ne_nil _ _
      have hnext := hstep _ hne List.suffix_rfl
      have hle := next_snd_le hne
      rw [tokens_eq_cons (List.append_ne_nil_of_left_ne_nil hne rest), tokens_eq_cons hne, hnext,
        List.take_append_of_le_length hle, List.drop_append_of_le_length hle,
        ih fun part hpart hsuffix => hstep part hpart (hsuffix.trans (List.drop_suffix _ _))]
      rfl

/-- Texts join token by token where the second starts with no trail byte. -/
theorem tokens_append {text rest : List UInt8}
    (hrest : ∀ byte ∈ rest.head?, isTrail byte.toNat = false) :
    tokens (text ++ rest) = tokens text ++ tokens rest :=
  tokens_append_of fun _ hne _ => next_append_of_not_isTrail hne hrest

section Single

variable {token : Token} (htoken : tokens token.bytes = [token])
include htoken

theorem bytes_ne_nil : token.bytes ≠ [] := by
  intro hnil
  rw [hnil, tokens_nil] at htoken
  exact absurd htoken (by simp)

/-- A token is one step over its bytes. -/
theorem next_bytes : next token.bytes 0 = (token.codePoint, token.bytes.length) := by
  have hne := bytes_ne_nil htoken
  rw [tokens_eq_cons hne, List.cons.injEq, tokens_eq_nil, List.drop_eq_nil_iff] at htoken
  have hlength := Nat.le_antisymm (next_snd_le hne) htoken.2
  ext
  · exact congrArg Token.codePoint htoken.1
  · exact hlength

/-- A complete token in front of anything stays one. -/
theorem tokens_append_of_complete (hcomplete : token.codePoint ≠ sentinel) (rest : List UInt8) :
    tokens (token.bytes ++ rest) = token :: tokens rest := by
  have hne := bytes_ne_nil htoken
  have hnext : next (token.bytes ++ rest) 0 = (token.codePoint, token.bytes.length) := by
    rw [next_append_of_complete rest hne (by rw [next_bytes htoken]; exact hcomplete)]
    exact next_bytes htoken
  rw [tokens_eq_cons (List.append_ne_nil_of_left_ne_nil hne rest), hnext, List.take_left,
    List.drop_left]

/-- The bytes of a code point are its well-formed sequence. -/
theorem isSequence_bytes (hcomplete : token.codePoint ≠ sentinel) :
    isSequence token.bytes = true ∧ token.codePoint = decode token.bytes := by
  have hnext := next_bytes htoken
  have hsequence := isSequence_next (bytes_ne_nil htoken) (by rw [hnext]; exact hcomplete)
  rwa [hnext, List.take_length] at hsequence

theorem codePoint_nonneg (hcomplete : token.codePoint ≠ sentinel) : 0 ≤ token.codePoint := by
  rw [(isSequence_bytes htoken hcomplete).2]
  exact Int.natCast_nonneg _

theorem length_bytes_le (hill : token.codePoint = sentinel) :
    token.bytes.length ≤ 3 ∧ 0x80 ≤ byteAt token.bytes 0 := by
  have hnext := next_bytes htoken
  have hsentinel : (next token.bytes 0).1 = sentinel := by
    rw [hnext]
    exact hill
  have hbound := next_sentinel hsentinel
  rwa [hnext] at hbound

/-- The tokens of ASCII bytes are the code points up to `0x7f`. -/
theorem ascii_bytes_iff :
    (token.bytes.all fun byte => byte < 0x80) = true ↔
      0 ≤ token.codePoint ∧ token.codePoint ≤ 0x7f := by
  obtain ⟨first, rest, hbytes⟩ := List.exists_cons_of_ne_nil (bytes_ne_nil htoken)
  by_cases hill : token.codePoint = sentinel
  · have hfirst := (length_bytes_le htoken hill).2
    rw [hbytes] at hfirst
    have hhigh : ¬ first < 0x80 := by
      rw [UInt8.lt_iff_toNat_lt]
      exact Nat.not_lt.mpr hfirst
    simp [hbytes, hhigh, hill, sentinel]
  · obtain ⟨hsequence, hdecode⟩ := isSequence_bytes htoken hill
    rw [hdecode, hbytes]
    rw [hbytes] at hsequence
    cases rest with
    | nil =>
        have hsingle : first.toNat < 0x80 := of_decide_eq_true hsequence
        have hlow : first < 0x80 := UInt8.lt_iff_toNat_lt.mpr hsingle
        have hdecode : decode [first] = first.toNat := rfl
        rw [hdecode]
        simp only [List.all_cons, List.all_nil, hlow, decide_true, Bool.and_true, true_iff]
        exact ⟨Int.natCast_nonneg _, Int.ofNat_le.mpr (Nat.le_of_lt_succ hsingle)⟩
    | cons second rest =>
        have hrange := decode_range hsequence
        have hlead : 0x80 ≤ first.toNat := by
          match rest with
          | [] | [third] | [third, fourth] =>
              simp only [isSequence, Bool.and_eq_true, decide_eq_true_eq] at hsequence
              omega
          | third :: fourth :: fifth :: rest => exact absurd hsequence (by simp [isSequence])
        have hhigh : ¬ first < 0x80 := by
          rw [UInt8.lt_iff_toNat_lt]
          exact Nat.not_lt.mpr hlead
        have hlong : ¬ decode (first :: second :: rest) < 0x80 := by
          simp only [List.length_cons] at hrange
          omega
        simp only [List.all_cons, hhigh, decide_false, Bool.false_and, Bool.false_eq_true,
          false_iff]
        rintro ⟨-, hsmall⟩
        exact hlong (Nat.lt_succ_of_le (Int.ofNat_le.mp hsmall))

end Single

/-- Bytes that are read as a whole are one token. -/
theorem tokens_of_next (token : Token) (hne : token.bytes ≠ [])
    (hnext : next token.bytes 0 = (token.codePoint, token.bytes.length)) :
    tokens token.bytes = [token] := by
  rw [tokens_eq_cons hne, hnext, List.take_length, List.drop_length, tokens_nil]

/-- Complete tokens are known by their code points. -/
theorem eq_of_codePoint {left right : Token} (hleft : tokens left.bytes = [left])
    (hright : tokens right.bytes = [right]) (hcomplete : left.codePoint ≠ sentinel)
    (heq : left.codePoint = right.codePoint) : left = right := by
  obtain ⟨hsequence, hdecode⟩ := isSequence_bytes hleft hcomplete
  obtain ⟨hsequence', hdecode'⟩ := isSequence_bytes hright (heq ▸ hcomplete)
  have hbytes : left.bytes = right.bytes := by
    apply decode_inj hsequence hsequence'
    have hcast := hdecode.symm.trans (heq.trans hdecode')
    exact Int.ofNat_inj.mp hcast
  cases left
  cases right
  simp_all

/-! ## Taking texts apart -/

/-- Tokens in front of others are those of their own bytes. -/
theorem tokens_left {text : List UInt8} {left right : List Token}
    (htokens : tokens text = left ++ right) : tokens (tokenBytes left) = left := by
  induction left generalizing text with
  | nil => simp
  | cons token left ih =>
      have hne : text ≠ [] := by
        rintro rfl
        rw [tokens_nil] at htokens
        exact absurd htokens (by simp)
      have hbytes : text = tokenBytes (token :: left) ++ tokenBytes right := by
        rw [← tokenBytes_append, ← htokens, tokenBytes_tokens]
      have hcons := htokens
      rw [tokens_eq_cons hne, List.cons_append, List.cons.injEq] at hcons
      obtain ⟨hhead, htail⟩ := hcons
      have htoken : token.bytes = text.take (next text 0).2 := congrArg Token.bytes hhead.symm
      have hlength : token.bytes.length = (next text 0).2 := by
        rw [htoken, List.length_take_of_le (next_snd_le hne)]
      have hpart : tokenBytes (token :: left) = text.take (tokenBytes (token :: left)).length := by
        conv_rhs => rw [hbytes]
        exact List.take_left.symm
      have hstop : (next text 0).2 ≤ (tokenBytes (token :: left)).length := by
        rw [← hlength, tokenBytes_cons, List.length_append]
        exact Nat.le_add_right _ _
      have hnext : next (tokenBytes (token :: left)) 0 = next text 0 := by
        rw [hpart]
        exact next_take hstop
      have hpos := one_le_next_snd text
      have hpartNe : tokenBytes (token :: left) ≠ [] := by
        apply List.length_pos_iff.mp
        omega
      rw [tokens_eq_cons hpartNe, hnext, tokenBytes_cons, ← hlength, List.take_left,
        List.drop_left, ih htail, ← hhead]

/-- The tokens of a rest are the rest of the tokens. -/
theorem tokens_right {text : List UInt8} {left right : List Token}
    (htokens : tokens text = left ++ right) : tokens (tokenBytes right) = right := by
  induction left generalizing text with
  | nil =>
      rw [List.nil_append] at htokens
      rw [← htokens, tokenBytes_tokens]
  | cons token left ih =>
      have hne : text ≠ [] := by
        rintro rfl
        rw [tokens_nil] at htokens
        exact absurd htokens (by simp)
      rw [tokens_eq_cons hne, List.cons_append, List.cons.injEq] at htokens
      exact ih htokens.2

/-- Every token is what is read from its bytes alone. -/
theorem tokens_of_mem {text : List UInt8} {token : Token} (hmem : token ∈ tokens text) :
    tokens token.bytes = [token] := by
  obtain ⟨left, right, hsplit⟩ := List.append_of_mem hmem
  have hfront : tokens (tokenBytes (token :: right)) = [token] ++ right := tokens_right hsplit
  have htoken := tokens_left hfront
  rwa [tokenBytes_cons, tokenBytes_nil, List.append_nil] at htoken

/-- What a step at `i` reads is the first token from there on. -/
theorem tokens_drop {text : List UInt8} {i : Nat} (hi : i < text.length) :
    ∃ token, tokens token.bytes = [token] ∧
      tokens (text.drop i) = token :: tokens (text.drop (i + token.bytes.length)) ∧
      next text i = (token.codePoint, i + token.bytes.length) ∧
      i + token.bytes.length ≤ text.length := by
  have hne : text.drop i ≠ [] := by
    rw [ne_eq, List.drop_eq_nil_iff]
    exact Nat.not_le.mpr hi
  have hle := next_snd_le hne
  have hlength : ((text.drop i).take (next (text.drop i) 0).2).length = (next (text.drop i) 0).2 :=
    List.length_take_of_le hle
  have hcons := tokens_eq_cons hne
  refine ⟨⟨(next (text.drop i) 0).1, (text.drop i).take (next (text.drop i) 0).2⟩, ?_, ?_, ?_, ?_⟩
  · apply tokens_of_mem
    rw [hcons]
    exact List.mem_cons_self
  · rw [hlength, ← List.drop_drop]
    exact hcons
  · rw [hlength]
    exact next_eq_drop text hi
  · rw [hlength]
    rw [List.length_drop] at hle
    omega

/-- The code point the rest of a text starts with is read there. -/
theorem next_of_tokens_drop {text : List UInt8} {i : Nat} {token : Token} {rest : List Token}
    (hdrop : tokens (text.drop i) = token :: rest) :
    next text i = (token.codePoint, i + token.bytes.length) := by
  have hlt : i < text.length := by
    apply Nat.not_le.mp
    intro hle
    rw [List.drop_eq_nil_iff.mpr hle, tokens_nil] at hdrop
    exact absurd hdrop (by simp)
  obtain ⟨other, -, hread, hnext, -⟩ := tokens_drop hlt
  rw [hdrop, List.cons.injEq] at hread
  rw [hnext, hread.1]

/-! ## Where the tokens stand -/

/-- How many tokens there are. -/
def codePointCount (text : List UInt8) : Nat := (tokens text).length

/-- The byte the token number `count` starts at; the end of the text behind the last one. -/
def offset (text : List UInt8) (count : Nat) : Nat :=
  (tokenBytes ((tokens text).take count)).length

section Offset

variable (text : List UInt8)

@[simp] theorem offset_zero : offset text 0 = 0 := rfl

/-- Behind the last code point is the end. -/
theorem offset_of_le {count : Nat} (hcount : codePointCount text ≤ count) :
    offset text count = text.length := by
  unfold offset
  rw [List.take_of_length_le hcount, tokenBytes_tokens]

@[simp] theorem offset_codePointCount : offset text (codePointCount text) = text.length :=
  offset_of_le text (Nat.le_refl _)

/-- The first tokens and the others are the text. -/
theorem tokenBytes_take_append_drop (count : Nat) :
    tokenBytes ((tokens text).take count) ++ tokenBytes ((tokens text).drop count) = text := by
  rw [← tokenBytes_append, List.take_append_drop, tokenBytes_tokens]

/-- Behind an offset are the other tokens. -/
theorem drop_offset (count : Nat) :
    text.drop (offset text count) = tokenBytes ((tokens text).drop count) := by
  have hsplit := tokenBytes_take_append_drop text count
  have hdrop : (tokenBytes ((tokens text).take count) ++ tokenBytes ((tokens text).drop count)).drop
      (offset text count) = tokenBytes ((tokens text).drop count) :=
    List.drop_left
  rwa [hsplit] at hdrop

theorem tokens_drop_offset (count : Nat) :
    tokens (text.drop (offset text count)) = (tokens text).drop count := by
  rw [drop_offset]
  exact tokens_right (List.take_append_drop count (tokens text)).symm

theorem offset_le (count : Nat) : offset text count ≤ text.length := by
  have hlength := congrArg List.length (tokenBytes_take_append_drop text count)
  rw [List.length_append] at hlength
  unfold offset
  omega

/-- The next token starts where this one ends. -/
theorem fwd1_offset {count : Nat} (hcount : count < codePointCount text) :
    fwd1 text (offset text count) = offset text (count + 1) ∧
      offset text count < offset text (count + 1) := by
  obtain ⟨token, rest, hrest⟩ := List.exists_cons_of_ne_nil
    (show (tokens text).drop count ≠ [] by
      rw [ne_eq, List.drop_eq_nil_iff]
      exact Nat.not_le.mpr hcount)
  have htake : (tokens text).take (count + 1) = (tokens text).take count ++ [token] := by
    rw [List.take_add, hrest]
    rfl
  have hsucc : offset text (count + 1) = offset text count + token.bytes.length := by
    unfold offset
    rw [htake, tokenBytes_append, List.length_append, tokenBytes_cons, tokenBytes_nil,
      List.append_nil]
  have hahead : tokens (text.drop (offset text count)) = token :: rest := by
    rw [tokens_drop_offset, hrest]
  have htoken : tokens token.bytes = [token] := tokens_of_mem (hahead ▸ List.mem_cons_self)
  have hpos := List.length_pos_iff.mpr (bytes_ne_nil htoken)
  rw [hsucc]
  refine ⟨?_, by omega⟩
  rw [← next_snd, next_of_tokens_drop hahead]

/-- The offsets are the boundaries. -/
theorem offset_eq_boundary {count : Nat} (hcount : count ≤ codePointCount text) :
    offset text count = boundary text count := by
  induction count with
  | zero => rfl
  | succ count ih =>
      rw [boundary_succ, ← ih (by omega)]
      exact (fwd1_offset text hcount).1.symm

/-- A text has no more code points than bytes. -/
theorem codePointCount_le : codePointCount text ≤ text.length := by
  have hend := offset_eq_boundary text (Nat.le_refl (codePointCount text))
  rw [offset_codePointCount] at hend
  rw [hend]
  exact (boundary_strictMono text).le_apply

/-- Going back from an offset leads to the one before. -/
theorem back1_offset {count : Nat} (hcount : count < codePointCount text) :
    back1 text (offset text (count + 1)) = offset text count := by
  have hlt := (fwd1_offset text hcount).2
  have hle := offset_le text (count + 1)
  rw [offset_eq_boundary text hcount, offset_eq_boundary text hcount.le] at *
  exact back1_boundary text (by omega)

/-- Offsets do not go down. -/
theorem offset_mono : Monotone (offset text) := by
  intro first second hle
  rcases Nat.lt_or_ge second (codePointCount text) with hlt | hge
  · rw [offset_eq_boundary text hlt.le, offset_eq_boundary text (hle.trans hlt.le)]
    exact (boundary_strictMono text).monotone hle
  · rw [offset_of_le text hge]
    exact offset_le text first

/-- Inside the text offsets go up. -/
theorem offset_lt_offset {first second : Nat} (hlt : first < second)
    (hsecond : second ≤ codePointCount text) : offset text first < offset text second := by
  rw [offset_eq_boundary text hsecond, offset_eq_boundary text (by omega)]
  exact boundary_strictMono text hlt

/-- ASCII text has a code point for each byte. -/
theorem tokens_ascii {text : List UInt8} (hascii : ∀ byte ∈ text, byte < 0x80) :
    tokens text = text.map fun byte => ⟨byte.toNat, [byte]⟩ := by
  induction text with
  | nil => exact tokens_nil
  | cons byte text ih =>
      have hbyte : byte.toNat < 0x80 := UInt8.lt_iff_toNat_lt.mp (hascii byte List.mem_cons_self)
      rw [tokens_single hbyte, ih fun other hmem => hascii other (List.mem_cons_of_mem _ hmem)]
      rfl

/-- ASCII text has as many code points as bytes. -/
theorem codePointCount_ascii {text : List UInt8} (hascii : ∀ byte ∈ text, byte < 0x80) :
    codePointCount text = text.length := by
  unfold codePointCount
  rw [tokens_ascii hascii, List.length_map]

/-- In ASCII text every byte is an offset. -/
theorem offset_ascii {text : List UInt8} (hascii : ∀ byte ∈ text, byte < 0x80) (count : Nat) :
    offset text count = min count text.length := by
  have hflat : ∀ bytes : List UInt8,
      (tokenBytes (bytes.map fun byte => ⟨byte.toNat, [byte]⟩)).length = bytes.length := by
    intro bytes
    induction bytes with
    | nil => rfl
    | cons byte bytes ih =>
        rw [List.map_cons, tokenBytes_cons, List.length_append, ih]
        simp [Nat.add_comm]
  unfold offset
  rw [tokens_ascii hascii, ← List.map_take, hflat, List.length_take]

end Offset

end Charr.Utf8
