import Charr.Text.CodePoints
import Charr.Text.StringView

/-!
# Reading backwards

`U8_PREV` reads a code point exactly where `U8_NEXT` reads the same one from the other side.
So a text read from its end gives its code points, and fails where reading it from the start
does.
-/

namespace Charr.Utf8

/-- `StriException(MSG__INVALID_UTF8)`. -/
def invalidUtf8Exception : NativeError :=
  .striException "invalid UTF-8 byte sequence detected; try calling ci_enc_toutf8()"

/-! ## The bits of a sequence -/

/-- The payload of a trail byte. -/
theorem trail_bits {byte : Nat} (htrail : isTrail byte = true) : byte &&& 0x3f = byte - 0x80 := by
  have hrange := range_of_isTrail htrail
  rw [show (0x3f : Nat) = 2 ^ 6 - 1 by rfl, Nat.and_two_pow_sub_one_eq_mod]
  omega

theorem lead2_bits {byte : Nat} (hlead : 0xc0 ≤ byte ∧ byte < 0xe0) :
    byte &&& 0x1f = byte - 0xc0 := by
  rw [show (0x1f : Nat) = 2 ^ 5 - 1 by rfl, Nat.and_two_pow_sub_one_eq_mod]
  omega

theorem lead4_bits {byte : Nat} (hlead : 0xf0 ≤ byte ∧ byte ≤ 0xf4) :
    byte &&& 7 = byte - 0xf0 := by
  rw [show (7 : Nat) = 2 ^ 3 - 1 by rfl, Nat.and_two_pow_sub_one_eq_mod]
  omega

theorem isValidLead3AndT1_and (lead t1 : Nat) :
    isValidLead3AndT1 (lead &&& 0xf) t1 = isValidLead3AndT1 lead t1 := by
  rw [isValidLead3AndT1, isValidLead3AndT1, Nat.and_assoc, Nat.and_self]

theorem isValidLead4AndT1_and (lead t1 : Nat) :
    isValidLead4AndT1 (lead &&& 7) t1 = isValidLead4AndT1 lead t1 := by
  rw [isValidLead4AndT1, isValidLead4AndT1, Nat.and_assoc, Nat.and_self]

/-- Going back makes the index less. -/
theorem prev_snd_lt (text : List UInt8) {index : Nat} (hindex : 0 < index) :
    (prev text index).2 < index := by
  unfold prev prevCharSafeBody
  dsimp only
  split_ifs <;> dsimp only <;> omega

/-! ## Back over what was read -/

section Sequence

variable {text : List UInt8} {start : Nat}

/-- Back over a sequence of one byte. -/
theorem prev_single (hsingle : byteAt text start < 0x80) :
    prev text (start + 1) = (Int.ofNat (byteAt text start), start) := by
  have hisSingle : isSingle (byteAt text (start + 1 - 1)) = true := decide_eq_true hsingle
  simp only [prev, hisSingle, if_true]
  rfl

/-- Back over one of two bytes. -/
theorem prev_pair (hlead : 0xc2 ≤ byteAt text start ∧ byteAt text start < 0xe0)
    (hfirst : isTrail (byteAt text (start + 1)) = true) :
    prev text (start + 2) =
      (Int.ofNat ((byteAt text start &&& 0x1f) <<< 6 ||| (byteAt text (start + 1) - 0x80)),
        start) := by
  have hsingle : isSingle (byteAt text (start + 1)) = false :=
    decide_eq_false (Nat.not_lt.mpr (range_of_isTrail hfirst).1)
  have hislead : isLead (byteAt text start) = true := by
    simp only [isLead, Bool.and_eq_true, decide_eq_true_eq]
    omega
  rw [prev, lead2_bits (by omega), ← trail_bits hfirst]
  simp [hsingle, prevCharSafeBody, hfirst, hislead, hlead.2]

/-- Back over one of three bytes. -/
theorem prev_triple (hlead : 0xe0 ≤ byteAt text start ∧ byteAt text start < 0xf0)
    (hvalid : isValidLead3AndT1 (byteAt text start) (byteAt text (start + 1)) = true)
    (hsecond : isTrail (byteAt text (start + 2)) = true) :
    prev text (start + 3) =
      (Int.ofNat ((byteAt text start &&& 0xf) <<< 12 |||
        (byteAt text (start + 1) &&& 0x3f) <<< 6 ||| (byteAt text (start + 2) - 0x80)), start) := by
  have hfirst := isTrail_of_isValidLead3AndT1 (byteAt_lt text (start + 1)) hvalid
  have hnotLead : isLead (byteAt text (start + 1)) = false := by
    have hrange := range_of_isTrail hfirst
    simp only [isLead, Bool.and_eq_false_iff, decide_eq_false_iff_not]
    omega
  have hsingle : isSingle (byteAt text (start + 2)) = false :=
    decide_eq_false (Nat.not_lt.mpr (range_of_isTrail hsecond).1)
  have hthree : byteAt text start ≤ 0xf4 := by omega
  rw [prev, ← trail_bits hsecond]
  simp [hsingle, prevCharSafeBody, hsecond, hnotLead, hfirst, hlead.1, hlead.2, hthree,
    isValidLead3AndT1_and, hvalid]

/-- Back over one of four bytes. -/
theorem prev_quadruple (hlead : 0xf0 ≤ byteAt text start ∧ byteAt text start ≤ 0xf4)
    (hvalid : isValidLead4AndT1 (byteAt text start) (byteAt text (start + 1)) = true)
    (hsecond : isTrail (byteAt text (start + 2)) = true)
    (hthird : isTrail (byteAt text (start + 3)) = true) :
    prev text (start + 4) =
      (Int.ofNat ((byteAt text start - 0xf0) <<< 18 |||
        (byteAt text (start + 1) &&& 0x3f) <<< 12 ||| (byteAt text (start + 2) - 0x80) <<< 6 |||
        (byteAt text (start + 3) - 0x80)), start) := by
  have hfirst := isTrail_of_isValidLead4AndT1 (byteAt_lt text (start + 1)) hvalid
  have hnotLead : ∀ {byte : Nat}, isTrail byte = true → isLead byte = false := by
    intro byte htrail
    have hrange := range_of_isTrail htrail
    simp only [isLead, Bool.and_eq_false_iff, decide_eq_false_iff_not]
    omega
  have hsingle : isSingle (byteAt text (start + 3)) = false :=
    decide_eq_false (Nat.not_lt.mpr (range_of_isTrail hthird).1)
  have hshort : ¬ 0xe0 ≤ byteAt text (start + 1) := by
    have hrange := range_of_isTrail hfirst
    omega
  rw [prev, ← trail_bits hsecond, ← trail_bits hthird, ← lead4_bits hlead]
  simp [hsingle, prevCharSafeBody, hsecond, hthird, hnotLead hsecond, hfirst, hlead.1,
    hlead.2, hshort, isValidLead4AndT1_and, hvalid]

end Sequence

/-- `U8_PREV` goes back over a code point that `U8_NEXT` has read, and reads it too. -/
theorem prev_of_next {text : List UInt8} {index : Nat} (hindex : index < text.length)
    (hcomplete : (next text index).1 ≠ sentinel) :
    prev text (next text index).2 = ((next text index).1, index) := by
  rw [next_eq_drop text hindex] at hcomplete ⊢
  have hbyte : ∀ count, byteAt (text.drop index) count = byteAt text (index + count) :=
    byteAt_drop text index
  by_cases hsingle : byteAt (text.drop index) 0 < 0x80
  · have hisSingle : isSingle (byteAt (text.drop index) 0) = true := decide_eq_true hsingle
    have hnext : next (text.drop index) 0 = (Int.ofNat (byteAt text index), 1) := by
      simp only [next, hisSingle, if_true]
      rw [hbyte]
      rfl
    rw [hbyte] at hsingle
    rw [hnext]
    exact prev_single hsingle
  · have hread := next_complete (Nat.not_lt.mp hsingle) hcomplete
    simp only [hbyte, Nat.add_zero] at hread
    rcases hread with ⟨hlow, hhigh, -, hfirst, hnext⟩ | ⟨hlow, hhigh, -, hvalid, hsecond, hnext⟩ |
      ⟨hlow, hhigh, -, hvalid, hsecond, hthird, hnext⟩
    · rw [hnext]
      exact prev_pair ⟨hlow, hhigh⟩ hfirst
    · rw [hnext]
      exact prev_triple ⟨hlow, hhigh⟩ hvalid hsecond
    · rw [hnext]
      exact prev_quadruple ⟨hlow, hhigh⟩ hvalid hsecond hthird

/-! ## Forward again -/

section Sequence

variable {text : List UInt8} {start : Nat}

/-- Forward over a sequence of one byte. -/
theorem next_single (hsingle : byteAt text start < 0x80) :
    next text start = (Int.ofNat (byteAt text start), start + 1) := by
  have hisSingle : isSingle (byteAt text start) = true := decide_eq_true hsingle
  simp only [next, hisSingle, if_true]
  rfl

/-- Forward over one of two bytes. -/
theorem next_pair (hlength : start + 2 ≤ text.length)
    (hlead : 0xc2 ≤ byteAt text start ∧ byteAt text start < 0xe0)
    (hfirst : isTrail (byteAt text (start + 1)) = true) :
    next text start =
      (Int.ofNat ((byteAt text start &&& 0x1f) <<< 6 ||| (byteAt text (start + 1) - 0x80)),
        start + 2) := by
  have hsingle : isSingle (byteAt text start) = false := decide_eq_false (by omega)
  have hend : ¬ start + 1 = text.length := by omega
  simp [next, hsingle, hend, Nat.not_le.mpr hlead.2, hlead.1, hfirst]

/-- Forward over one of three bytes. -/
theorem next_triple (hlength : start + 3 ≤ text.length)
    (hlead : 0xe0 ≤ byteAt text start ∧ byteAt text start < 0xf0)
    (hvalid : isValidLead3AndT1 (byteAt text start) (byteAt text (start + 1)) = true)
    (hsecond : isTrail (byteAt text (start + 2)) = true) :
    next text start =
      (Int.ofNat ((byteAt text start &&& 0xf) <<< 12 |||
        (byteAt text (start + 1) &&& 0x3f) <<< 6 ||| (byteAt text (start + 2) - 0x80)),
        start + 3) := by
  have hsingle : isSingle (byteAt text start) = false := decide_eq_false (by omega)
  have hend : ¬ start + 1 = text.length := by omega
  have hend' : ¬ start + 2 = text.length := by omega
  simp [next, hsingle, hend, hend', hlead.1, hlead.2, hvalid, hsecond]

/-- Forward over one of four bytes. -/
theorem next_quadruple (hlength : start + 4 ≤ text.length)
    (hlead : 0xf0 ≤ byteAt text start ∧ byteAt text start ≤ 0xf4)
    (hvalid : isValidLead4AndT1 (byteAt text start) (byteAt text (start + 1)) = true)
    (hsecond : isTrail (byteAt text (start + 2)) = true)
    (hthird : isTrail (byteAt text (start + 3)) = true) :
    next text start =
      (Int.ofNat ((byteAt text start - 0xf0) <<< 18 |||
        (byteAt text (start + 1) &&& 0x3f) <<< 12 ||| (byteAt text (start + 2) - 0x80) <<< 6 |||
        (byteAt text (start + 3) - 0x80)),
        start + 4) := by
  have hsingle : isSingle (byteAt text start) = false := decide_eq_false (by omega)
  have hend : ¬ start + 1 = text.length := by omega
  have hend' : ¬ start + 2 = text.length := by omega
  have hend'' : ¬ start + 3 = text.length := by omega
  have hlong : 0xe0 ≤ byteAt text start := by omega
  have hfour : byteAt text start - 0xf0 ≤ 4 := by omega
  simp [next, hsingle, hend, hend', hend'', hlong, Nat.not_lt.mpr hlead.1, hfour, hvalid, hsecond,
    hthird]

end Sequence

/-- The four ways to read a code point backwards. -/
theorem prev_complete {text : List UInt8} {index : Nat} (hpositive : 0 < index)
    (hcomplete : (prev text index).1 ≠ sentinel) :
    ∃ start, (start + 1 = index ∧ byteAt text start < 0x80) ∨
      (start + 2 = index ∧ (0xc2 ≤ byteAt text start ∧ byteAt text start < 0xe0) ∧
        isTrail (byteAt text (start + 1)) = true) ∨
      (start + 3 = index ∧ (0xe0 ≤ byteAt text start ∧ byteAt text start < 0xf0) ∧
        isValidLead3AndT1 (byteAt text start) (byteAt text (start + 1)) = true ∧
        isTrail (byteAt text (start + 2)) = true) ∨
      (start + 4 = index ∧ (0xf0 ≤ byteAt text start ∧ byteAt text start ≤ 0xf4) ∧
        isValidLead4AndT1 (byteAt text start) (byteAt text (start + 1)) = true ∧
        isTrail (byteAt text (start + 2)) = true ∧ isTrail (byteAt text (start + 3)) = true) := by
  obtain ⟨last, rfl⟩ : ∃ last, index = last + 1 := ⟨index - 1, by omega⟩
  revert hcomplete
  unfold prev prevCharSafeBody
  simp only [Nat.add_sub_cancel]
  split_ifs with hsingle hlast hlead hshort htruncated hlong hlong' hsecond hthree hbelow hvalid
    hcut hfirst hfour hvalid
  all_goals intro hcomplete
  all_goals try exact absurd rfl hcomplete
  all_goals try simp only [Bool.and_eq_true, decide_eq_true_eq] at *
  · exact ⟨last, Or.inl ⟨rfl, of_decide_eq_true hsingle⟩⟩
  · obtain ⟨start, rfl⟩ : ∃ start, last = start + 1 := ⟨last - 1, by omega⟩
    rw [Nat.add_sub_cancel] at hlead hshort
    simp only [isLead, Bool.and_eq_true, decide_eq_true_eq] at hlead
    exact ⟨start, Or.inr (Or.inl ⟨rfl, ⟨hlead.1, hshort⟩, hlast.1⟩)⟩
  · obtain ⟨start, rfl⟩ : ∃ start, last = start + 2 := ⟨last - 2, by omega⟩
    rw [Nat.add_sub_cancel] at hthree hbelow
    rw [isValidLead3AndT1_and, Nat.add_sub_cancel] at hvalid
    exact ⟨start, Or.inr (Or.inr (Or.inl ⟨rfl, ⟨hthree.1, hbelow⟩, hvalid, hlast.1⟩))⟩
  · obtain ⟨start, rfl⟩ : ∃ start, last = start + 3 := ⟨last - 3, by omega⟩
    rw [Nat.add_sub_cancel] at hfour
    rw [isValidLead4AndT1_and, Nat.add_sub_cancel] at hvalid
    exact ⟨start, Or.inr (Or.inr (Or.inr ⟨rfl, hfour, hvalid, hsecond.1, hlast.1⟩))⟩

/-- `U8_NEXT` reads the code point that `U8_PREV` has gone back over. -/
theorem next_of_prev {text : List UInt8} {index : Nat} (hpositive : 0 < index)
    (hindex : index ≤ text.length) (hcomplete : (prev text index).1 ≠ sentinel) :
    (prev text index).2 < index ∧
      next text (prev text index).2 = ((prev text index).1, index) := by
  obtain ⟨start, ⟨rfl, hsingle⟩ | ⟨rfl, hlead, hfirst⟩ | ⟨rfl, hlead, hvalid, hsecond⟩ |
    ⟨rfl, hlead, hvalid, hsecond, hthird⟩⟩ := prev_complete hpositive hcomplete
  · rw [prev_single hsingle]
    exact ⟨Nat.lt_add_of_pos_right (by decide), next_single hsingle⟩
  · rw [prev_pair hlead hfirst]
    exact ⟨Nat.lt_add_of_pos_right (by decide), next_pair hindex hlead hfirst⟩
  · rw [prev_triple hlead hvalid hsecond]
    exact ⟨Nat.lt_add_of_pos_right (by decide), next_triple hindex hlead hvalid hsecond⟩
  · rw [prev_quadruple hlead hvalid hsecond hthird]
    exact ⟨Nat.lt_add_of_pos_right (by decide),
      next_quadruple hindex hlead hvalid hsecond hthird⟩

/-! ## The last code point -/

/-- Going back reads nothing behind where it starts. -/
theorem prev_append {front : List UInt8} (hne : front ≠ []) (rest : List UInt8) :
    prev (front ++ rest) front.length = prev front front.length := by
  have hpos := List.length_pos_iff.mpr hne
  have hbyte : ∀ index < front.length, byteAt (front ++ rest) index = byteAt front index :=
    fun _ hindex => byteAt_append_left _ hindex
  have hinside : ∀ back, front.length - 1 - back < front.length := fun back =>
    Nat.lt_of_le_of_lt (Nat.sub_le _ back) (Nat.sub_lt hpos Nat.one_pos)
  unfold prev prevCharSafeBody
  simp only [hbyte _ (Nat.sub_lt hpos Nat.one_pos), hbyte _ (hinside 1), hbyte _ (hinside 2),
    hbyte _ (hinside 3)]

/-- At the end of a text stands the last of its tokens, or nothing that can be read. -/
theorem prev_length {text : List UInt8} (hne : text ≠ []) :
    ((prev text text.length).1 = sentinel ∧ ¬ AreCodePoints (tokens text)) ∨
      ∃ front token, text = front ++ token.bytes ∧ tokens text = tokens front ++ [token] ∧
        tokens token.bytes = [token] ∧ token.codePoint ≠ sentinel ∧
        prev text text.length = (token.codePoint, front.length) := by
  have hpos := List.length_pos_iff.mpr hne
  by_cases hsentinel : (prev text text.length).1 = sentinel
  · apply Or.inl
    refine ⟨hsentinel, fun hcodes => ?_⟩
    -- a complete last token would have been read
    obtain hnil | ⟨front, token, hsplit⟩ := List.eq_nil_or_concat (tokens text)
    · exact hne (tokens_eq_nil.mp hnil)
    rw [List.concat_eq_append] at hsplit
    obtain ⟨htoken, hcomplete⟩ := hcodes token (hsplit ▸ List.mem_append_right _ (by simp))
    have hbytes : text = tokenBytes front ++ token.bytes := by
      rw [← tokenBytes_tokens text, hsplit, tokenBytes_append, tokenBytes_cons, tokenBytes_nil,
        List.append_nil]
    have hdrop : tokens (text.drop (tokenBytes front).length) = [token] := by
      rw [hbytes, List.drop_left, htoken]
    have hnext := next_of_tokens_drop hdrop
    rw [← List.length_append, ← hbytes] at hnext
    have hlt : (tokenBytes front).length < text.length := by
      rw [hbytes, List.length_append]
      exact Nat.lt_add_of_pos_right (List.length_pos_iff.mpr (bytes_ne_nil htoken))
    have hprev := prev_of_next hlt (by rwa [hnext])
    rw [hnext] at hprev
    rw [hprev] at hsentinel
    exact hcomplete hsentinel
  · apply Or.inr
    -- what is read backward is what is read forward from there
    obtain ⟨hlt, hnext⟩ := next_of_prev hpos le_rfl hsentinel
    obtain ⟨token, htoken, hdrop, hread, -⟩ := tokens_drop hlt
    rw [hnext, Prod.mk.injEq] at hread
    rw [← hread.2, List.drop_length, tokens_nil] at hdrop
    have hbytes : text.drop (prev text text.length).2 = token.bytes := by
      rw [← tokenBytes_tokens (text.drop _), hdrop, tokenBytes_cons, tokenBytes_nil,
        List.append_nil]
    have hcomplete : token.codePoint ≠ sentinel := hread.1 ▸ hsentinel
    have hsplit : text = text.take (prev text text.length).2 ++ token.bytes := by
      rw [← hbytes, List.take_append_drop]
    refine ⟨text.take (prev text text.length).2, token, hsplit, ?_, htoken, hcomplete, ?_⟩
    · conv_lhs => rw [hsplit]
      rw [tokens_append, htoken]
      intro byte hbyte
      obtain ⟨first, others, hcons⟩ := List.exists_cons_of_ne_nil (bytes_ne_nil htoken)
      have hfirst := not_isTrail_of_isSequence (isSequence_bytes htoken hcomplete).1
      rw [hcons] at hbyte hfirst
      rw [← Option.mem_some_iff.mp hbyte]
      exact hfirst
    · rw [List.length_take_of_le hlt.le, ← hread.1]

end Charr.Utf8
