import Charr.Text.Normalize
import Charr.Text.Tokens

/-!
# Text as code points

Well-formed text is the same as its code points: they can be put together in any order,
and read back.
-/

namespace Charr.Utf8

/-- Tokens that are code points. -/
def AreCodePoints (list : List Token) : Prop :=
  ∀ token ∈ list, tokens token.bytes = [token] ∧ token.codePoint ≠ sentinel

theorem AreCodePoints.append {front rest : List Token} (hfront : AreCodePoints front)
    (hrest : AreCodePoints rest) : AreCodePoints (front ++ rest) :=
  List.forall_mem_append.mpr ⟨hfront, hrest⟩

/-- They are read back as they were. -/
theorem tokens_append_codePoints {list : List Token} (hlist : AreCodePoints list)
    (rest : List UInt8) : tokens (tokenBytes list ++ rest) = list ++ tokens rest := by
  induction list with
  | nil => rfl
  | cons token list ih =>
      obtain ⟨⟨htoken, hcomplete⟩, hothers⟩ := List.forall_mem_cons.mp hlist
      rw [tokenBytes_cons, List.append_assoc, tokens_append_of_complete htoken hcomplete,
        ih hothers]
      rfl

/-- Code points are read back from their bytes. -/
theorem tokens_tokenBytes {list : List Token} (hlist : AreCodePoints list) :
    tokens (tokenBytes list) = list := by
  have hread := tokens_append_codePoints hlist []
  rwa [List.append_nil, tokens_nil, List.append_nil] at hread

theorem wellFormed_tokenBytes {list : List Token} (hlist : AreCodePoints list) :
    WellFormed (tokenBytes list) := by
  refine ⟨list.map Token.bytes, (List.flatMap_def ..).symm, ?_⟩
  intro bytes hmem
  obtain ⟨token, htoken, rfl⟩ := List.mem_map.mp hmem
  exact (isSequence_bytes (hlist token htoken).1 (hlist token htoken).2).1

/-- A sequence has one to four bytes. -/
theorem length_of_isSequence {bytes : List UInt8} (hsequence : isSequence bytes = true) :
    bytes ≠ [] ∧ bytes.length ≤ 4 := by
  match bytes with
  | [] => exact absurd hsequence (by simp [isSequence])
  | [a] | [a, b] | [a, b, c] | [a, b, c, d] => exact ⟨List.cons_ne_nil _ _, by simp⟩
  | a :: b :: c :: d :: e :: rest => exact absurd hsequence (by simp [isSequence])

/-- A well-formed sequence is read as one code point. -/
theorem next_of_isSequence {bytes : List UInt8} (hsequence : isSequence bytes = true) :
    (next bytes 0).2 = bytes.length ∧ (next bytes 0).1 ≠ sentinel := by
  have hnonneg : ∀ value : Nat, (value : Int) ≠ sentinel := by
    intro value
    unfold sentinel
    omega
  -- one case for each length, with the tests of the reader in its order
  match bytes with
  | [a] =>
      have hsingle : isSingle (byteAt [a] 0) = true := hsequence
      simp only [next, hsingle, if_true]
      exact ⟨rfl, hnonneg _⟩
  | [a, b] =>
      simp only [isSequence, Bool.and_eq_true, decide_eq_true_eq] at hsequence
      obtain ⟨⟨hlow, hhigh⟩, htrail⟩ := hsequence
      have hsingle : isSingle (byteAt [a, b] 0) = false :=
        decide_eq_false (Nat.not_lt.mpr ((by decide : 0x80 ≤ 0xc2).trans hlow))
      have hshort : ¬ 0xe0 ≤ byteAt [a, b] 0 := Nat.not_le.mpr (Nat.lt_succ_of_le hhigh)
      have hpair : (decide (0xc2 ≤ byteAt [a, b] 0) && isTrail (byteAt [a, b] (0 + 1))) = true :=
        Bool.and_eq_true_iff.mpr ⟨decide_eq_true hlow, htrail⟩
      simp only [next, hsingle, hshort, hpair, if_true, if_false, Bool.false_eq_true]
      exact ⟨rfl, hnonneg _⟩
  | [a, b, c] =>
      simp only [isSequence, Bool.and_eq_true, decide_eq_true_eq] at hsequence
      obtain ⟨⟨⟨⟨hlow, hhigh⟩, hsecond⟩, hsecond'⟩, htrail⟩ := hsequence
      have hlead : 0xe0 ≤ a.toNat ∧ a.toNat < 0xf0 := ⟨hlow, Nat.lt_succ_of_le hhigh⟩
      have hvalid : isValidLead3AndT1 (byteAt [a, b, c] 0) (byteAt [a, b, c] (0 + 1)) = true :=
        (secondRange_three hlead b.toNat_lt).mpr ⟨hsecond, hsecond'⟩
      have hsingle : isSingle (byteAt [a, b, c] 0) = false :=
        decide_eq_false (Nat.not_lt.mpr ((by decide : 0x80 ≤ 0xe0).trans hlow))
      have hlong : 0xe0 ≤ byteAt [a, b, c] 0 := hlead.1
      have hthree : byteAt [a, b, c] 0 < 0xf0 := hlead.2
      have hthird : isTrail (byteAt [a, b, c] (0 + 1 + 1)) = true := htrail
      simp only [next, hsingle, hlong, hthree, hvalid, hthird, if_true, if_false,
        Bool.false_eq_true, Bool.and_true]
      exact ⟨rfl, hnonneg _⟩
  | [a, b, c, d] =>
      simp only [isSequence, Bool.and_eq_true, decide_eq_true_eq] at hsequence
      obtain ⟨⟨⟨⟨⟨hlow, hhigh⟩, hsecond⟩, hsecond'⟩, htrail⟩, htrail'⟩ := hsequence
      have hvalid :
          isValidLead4AndT1 (byteAt [a, b, c, d] 0) (byteAt [a, b, c, d] (0 + 1)) = true :=
        (secondRange_four ⟨hlow, hhigh⟩ b.toNat_lt).mpr ⟨hsecond, hsecond'⟩
      have hsingle : isSingle (byteAt [a, b, c, d] 0) = false :=
        decide_eq_false (Nat.not_lt.mpr ((by decide : 0x80 ≤ 0xf0).trans hlow))
      have hlong : 0xe0 ≤ byteAt [a, b, c, d] 0 := (by decide : 0xe0 ≤ 0xf0).trans hlow
      have hfour : ¬ byteAt [a, b, c, d] 0 < 0xf0 := Nat.not_lt.mpr hlow
      have hlead : (decide (byteAt [a, b, c, d] 0 - 0xf0 ≤ 4)) = true :=
        decide_eq_true (Nat.sub_le_sub_right hhigh 0xf0)
      have hthird : isTrail (byteAt [a, b, c, d] (0 + 1 + 1)) = true := htrail
      have hfourth : isTrail (byteAt [a, b, c, d] (0 + 1 + 2)) = true := htrail'
      simp only [next, hsingle, hlong, hfour, hlead, hvalid, hthird, hfourth, if_true, if_false,
        Bool.false_eq_true, Bool.and_true]
      exact ⟨rfl, hnonneg _⟩

theorem WellFormed.areCodePoints {text : List UInt8} (hwell : WellFormed text) :
    AreCodePoints (tokens text) := by
  obtain ⟨sequences, rfl, hsequences⟩ := hwell
  -- each sequence is a code point of its own
  have hcodes : AreCodePoints (sequences.map fun bytes => ⟨(next bytes 0).1, bytes⟩) := by
    intro token htoken
    obtain ⟨bytes, hmem, rfl⟩ := List.mem_map.mp htoken
    obtain ⟨hlength, hcomplete⟩ := next_of_isSequence (hsequences bytes hmem)
    refine ⟨?_, hcomplete⟩
    apply tokens_of_next
    · rintro rfl
      exact absurd (hsequences [] hmem) (by simp [isSequence])
    · rw [← hlength]
  have hbytes : tokenBytes (sequences.map fun bytes => ⟨(next bytes 0).1, bytes⟩) =
      sequences.flatten := by
    rw [tokenBytes, List.flatMap_map]
    exact List.flatMap_id
  rw [← hbytes, tokens_tokenBytes hcodes]
  exact hcodes

/-- Reading a text from its start fails at no place. -/
theorem areCodePoints_tokens {text : List UInt8} :
    AreCodePoints (tokens text) ↔ ∀ token ∈ tokens text, token.codePoint ≠ sentinel :=
  ⟨fun hcodes token hmem => (hcodes token hmem).2,
    fun hcomplete token hmem => ⟨tokens_of_mem hmem, hcomplete token hmem⟩⟩

/-- A text is well formed if its tokens are code points. -/
theorem wellFormed_iff_areCodePoints {text : List UInt8} :
    WellFormed text ↔ AreCodePoints (tokens text) := by
  constructor
  · exact WellFormed.areCodePoints
  · intro hcodes
    have hwell := wellFormed_tokenBytes hcodes
    rwa [tokenBytes_tokens] at hwell

/-- What a step at `cursor` reads where the rest of a text has this token in front. -/
theorem next_drop {text : List UInt8} {cursor : Nat} {token : Token} {rest : List Token}
    (hdrop : tokens (text.drop cursor) = token :: rest) :
    cursor < text.length ∧ next text cursor = (token.codePoint, cursor + token.bytes.length) ∧
      tokens (text.drop (cursor + token.bytes.length)) = rest := by
  have hcursor : cursor < text.length := by
    apply Nat.not_le.mp
    intro hle
    rw [List.drop_eq_nil_iff.mpr hle, tokens_nil] at hdrop
    exact absurd hdrop (by simp)
  obtain ⟨other, -, hcons, hnext, -⟩ := tokens_drop hcursor
  obtain ⟨rfl, rfl⟩ := List.cons.inj (hdrop.symm.trans hcons)
  exact ⟨hcursor, hnext, rfl⟩

/-- The byte order mark is the code point `U+FEFF`. -/
theorem tokens_of_hasBom {text : List UInt8} (hbom : hasBom text = true) :
    tokens text = ⟨0xfeff, [0xef, 0xbb, 0xbf]⟩ :: tokens (text.drop 3) := by
  obtain ⟨-, htake⟩ := of_decide_eq_true hbom
  have hmark := tokens_of_next ⟨0xfeff, [0xef, 0xbb, 0xbf]⟩ (by decide) (by decide)
  conv_lhs => rw [← List.take_append_drop 3 text, htake]
  exact tokens_append_of_complete hmark (by decide) (text.drop 3)

/-- Without its byte order mark a text stays well formed. -/
theorem WellFormed.of_hasBom {text : List UInt8} (hwell : WellFormed text)
    (hbom : hasBom text = true) : WellFormed (text.drop 3) := by
  have hcodes := hwell.areCodePoints
  rw [tokens_of_hasBom hbom] at hcodes
  exact wellFormed_iff_areCodePoints.mpr (List.forall_mem_cons.mp hcodes).2

/-- A code point that is read at any place is one of the text, even if the text is cut
somewhere behind it. -/
theorem mem_tokens_of_next {text : List UInt8} {stop index : Nat}
    (hindex : index < (text.take stop).length)
    (hcomplete : (next (text.take stop) index).1 ≠ sentinel) :
    ∃ token ∈ tokens text, token.codePoint = (next (text.take stop) index).1 := by
  obtain ⟨token, htoken, hdrop, hnext, -⟩ := tokens_drop hindex
  rw [hnext] at hcomplete ⊢
  have hbytes : text.drop index = token.bytes ++
      (tokenBytes (tokens ((text.take stop).drop (index + token.bytes.length))) ++
        text.drop stop) := by
    rw [← List.append_assoc, ← tokenBytes_cons, ← hdrop, tokenBytes_tokens,
      ← List.drop_append_of_le_length hindex.le, List.take_append_drop]
  have hstarts : isTrail (byteAt text index) = false := by
    have hpos := List.length_pos_iff.mpr (bytes_ne_nil htoken)
    have hfirst : byteAt text index = byteAt token.bytes 0 := by
      rw [← Nat.add_zero index, ← byteAt_drop, hbytes, byteAt_append_left _ hpos]
    rw [hfirst]
    exact not_isTrail_of_isSequence (isSequence_bytes htoken hcomplete).1
  have hlength : text.length = boundary text (codePointCount text) := by
    rw [← offset_eq_boundary text le_rfl, offset_codePointCount]
  have hlt : index < boundary text (codePointCount text) := by
    rw [← hlength]
    exact hindex.trans_le (List.length_take_le' stop text)
  obtain ⟨count, hcount, rfl⟩ := exists_boundary_of_not_isTrail text hlt hstarts
  rw [← offset_eq_boundary text hcount.le, drop_offset] at hbytes
  have hrest : tokens (tokenBytes ((tokens text).drop count)) = (tokens text).drop count :=
    tokens_right (List.take_append_drop count (tokens text)).symm
  rw [hbytes, tokens_append_of_complete htoken hcomplete] at hrest
  refine ⟨token, List.mem_of_mem_drop (i := count) ?_, rfl⟩
  rw [← hrest]
  exact List.mem_cons_self

end Charr.Utf8
