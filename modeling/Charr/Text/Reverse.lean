import Charr.Library.Buffer
import Charr.Text.Backward
import Mathlib.Data.List.GetD

/-!
# Reversing a text

The text is read from its end, one code point at a time, and each one is copied to the
front of the output.
-/

namespace Charr.Reverse

open Utf8 Buffers

/-- A prepared record, and whether all of it is ASCII. -/
structure ReverseInput where
  bytes : List UInt8
  ascii : Bool
  deriving DecidableEq, Repr

/-- What writing into a buffer returns. -/
abbrev Result := Except (Buffers.Fault NativeError)

/-- The copy of a code point's `width` bytes, the last one first. -/
def copySequence (text : List UInt8) (source width : Nat) (output : List UInt8) (position : Nat) :
    Result (List UInt8) :=
  let byte offset := text.getD (source + offset) 0
  match width with
  | 4 => do
      let output ← assign output (position + 3) (byte 3)
      let output ← assign output (position + 2) (byte 2)
      let output ← assign output (position + 1) (byte 1)
      assign output position (byte 0)
  | 3 => do
      let output ← assign output (position + 2) (byte 2)
      let output ← assign output (position + 1) (byte 1)
      assign output position (byte 0)
  | 2 => do
      let output ← assign output (position + 1) (byte 1)
      assign output position (byte 0)
  | _ => assign output position (byte 0)

/-- The loop of `reverse_utf8`: what is left of the text, and the output so far. -/
def reverseLoop (text : List UInt8) (source : Nat) (sink : Sink UInt8) : Result (Sink UInt8) :=
  if _ : 0 < source then
    let last := text.getD (source - 1) 0
    if last < 0x80 then (put last sink).bind (reverseLoop text (source - 1))
    else
      let read := prev text source
      if read.1 < 0 then .error (.thrown invalidUtf8Exception)
      else
        let width := source - read.2
        (copySequence text read.2 width sink.cells sink.cursor).bind fun cells =>
          reverseLoop text read.2 ⟨cells, sink.cursor + width⟩
  else .ok sink
termination_by source
decreasing_by
  · exact Nat.sub_lt ‹_› Nat.one_pos
  · exact prev_snd_lt text ‹_›

/-- The code points of the text in reverse. -/
def reverseUtf8 (value : ReverseInput) (output : List UInt8) : Result (List UInt8) :=
  (reverseLoop value.bytes value.bytes.length ⟨output, 0⟩).map Sink.cells

/-- `std::reverse_copy`. -/
def reverseCopy (bytes : List UInt8) (output : List UInt8) : Result (List UInt8) :=
  (copy bytes.reverse ⟨output, 0⟩).map Sink.cells

/-- A text in reverse; ASCII is copied byte by byte. -/
def reverseInput (value : ReverseInput) (output : List UInt8) : Result (List UInt8) :=
  if value.ascii then reverseCopy value.bytes output else reverseUtf8 value output

/-! ## One code point -/

/-- Assigning a cell in the middle. -/
theorem assign_inner (front inner rest : List UInt8) (old value : UInt8) :
    assign (front ++ (inner ++ old :: rest)) (front.length + inner.length) value =
      (.ok (front ++ (inner ++ value :: rest)) : Result (List UInt8)) := by
  rw [← List.length_append, ← List.append_assoc, assign_append, List.append_assoc]

/-- A step that succeeds, and the rest. -/
theorem bind_ok {step : Result (List UInt8)} {rest : List UInt8 → Result (List UInt8)}
    {middle : List UInt8} {result : Result (List UInt8)} (hstep : step = .ok middle)
    (hrest : rest middle = result) : step >>= rest = result := by
  rw [hstep]
  exact hrest

/-- The bytes of a sequence go where there is room for them. -/
theorem copySequence_eq {text bytes hole : List UInt8} {source : Nat} (hne : bytes ≠ [])
    (hshort : bytes.length ≤ 4)
    (hbyte : ∀ offset < bytes.length, text.getD (source + offset) 0 = bytes.getD offset 0)
    (filled rest : List UInt8) (hhole : hole.length = bytes.length) :
    copySequence text source bytes.length (filled ++ (hole ++ rest)) filled.length =
      .ok (filled ++ (bytes ++ rest)) := by
  unfold copySequence
  match bytes, hole with
  | [], _ => exact absurd rfl hne
  | [a], [w] =>
      simp only [hbyte 0 (by simp), List.length_cons, List.length_nil]
      exact assign_inner filled [] rest w a
  | [a, b], [w, x] =>
      simp only [hbyte 0 (by simp), hbyte 1 (by simp), List.length_cons, List.length_nil]
      apply bind_ok (assign_inner filled [w] rest x b)
      exact assign_inner filled [] (b :: rest) w a
  | [a, b, c], [w, x, y] =>
      simp only [hbyte 0 (by simp), hbyte 1 (by simp), hbyte 2 (by simp), List.length_cons,
        List.length_nil]
      apply bind_ok (assign_inner filled [w, x] rest y c)
      apply bind_ok (assign_inner filled [w] (c :: rest) x b)
      exact assign_inner filled [] (b :: c :: rest) w a
  | [a, b, c, d], [w, x, y, z] =>
      simp only [hbyte 0 (by simp), hbyte 1 (by simp), hbyte 2 (by simp), hbyte 3 (by simp),
        List.length_cons, List.length_nil]
      apply bind_ok (assign_inner filled [w, x, y] rest z d)
      apply bind_ok (assign_inner filled [w, x] (d :: rest) y c)
      apply bind_ok (assign_inner filled [w] (c :: d :: rest) x b)
      exact assign_inner filled [] (b :: c :: d :: rest) w a

/-! ## The loop -/

/-- One turn of the loop goes back over the last code point and writes it. -/
theorem reverseLoop_turn {front behind : List UInt8} {token : Token}
    (htoken : tokens token.bytes = [token]) (hcomplete : token.codePoint ≠ sentinel)
    (hprev : prev (front ++ token.bytes) (front ++ token.bytes).length =
      (token.codePoint, front.length)) :
    ∃ writer : Sink UInt8 → Result (Sink UInt8), Writes writer token.bytes ∧
      reverseLoop (front ++ token.bytes ++ behind) (front ++ token.bytes).length =
        andThen writer (reverseLoop (front ++ token.bytes ++ behind) front.length) := by
  obtain ⟨hne, hshort⟩ := length_of_isSequence (isSequence_bytes htoken hcomplete).1
  have hpos := List.length_pos_iff.mpr hne
  have hfrontNe : front ++ token.bytes ≠ [] := List.append_ne_nil_of_right_ne_nil _ hne
  have hsource : 0 < (front ++ token.bytes).length := List.length_pos_iff.mpr hfrontNe
  have hread := prev_append hfrontNe behind
  rw [hprev] at hread
  -- an ASCII byte has a branch of its own
  by_cases hlast :
      (front ++ token.bytes ++ behind).getD ((front ++ token.bytes).length - 1) 0 < 0x80
  · have hsingle : isSingle (byteAt (front ++ token.bytes ++ behind)
        ((front ++ token.bytes).length - 1)) = true :=
      decide_eq_true (UInt8.lt_iff_toNat_lt.mp hlast)
    have hback : (front ++ token.bytes).length - 1 = front.length := by
      simp only [prev, hsingle, if_true] at hread
      exact congrArg Prod.snd hread
    obtain ⟨byte, hbyte⟩ : ∃ byte, token.bytes = [byte] := by
      apply List.length_eq_one_iff.mp
      rw [List.length_append] at hback
      omega
    refine ⟨put byte, hbyte ▸ writes_put byte, ?_⟩
    funext sink
    rw [reverseLoop, dif_pos hsource]
    simp only
    rw [if_pos hlast, hback, hbyte, List.append_assoc, List.getD_append_right _ _ _ _ le_rfl,
      Nat.sub_self]
    rfl
  · refine ⟨fun sink => (copySequence (front ++ token.bytes ++ behind) front.length
      token.bytes.length sink.cells sink.cursor).map fun cells =>
        ⟨cells, sink.cursor + token.bytes.length⟩, ?_, ?_⟩
    · intro filled hole rest hhole
      dsimp only
      rw [copySequence_eq hne hshort _ filled rest hhole]
      · rfl
      · intro offset hoffset
        rw [List.append_assoc, List.getD_append_right _ _ _ _ (Nat.le_add_right _ _),
          Nat.add_sub_cancel_left, List.getD_append _ _ _ _ hoffset]
    · funext sink
      have hnonneg : ¬ token.codePoint < 0 := Int.not_lt.mpr (codePoint_nonneg htoken hcomplete)
      have hwidth : (front ++ token.bytes).length - front.length = token.bytes.length := by
        rw [List.length_append, Nat.add_sub_cancel_left]
      rw [reverseLoop, dif_pos hsource]
      simp only [hread, hwidth]
      rw [if_neg hlast, if_neg hnonneg, andThen]
      cases copySequence (front ++ token.bytes ++ behind) front.length token.bytes.length
        sink.cells sink.cursor <;> rfl

/-- Reversing keeps the size. -/
theorem length_tokenBytes_reverse (text : List UInt8) :
    (tokenBytes (tokens text).reverse).length = text.length := by
  have hperm : (tokenBytes (tokens text).reverse).Perm (tokenBytes (tokens text)) :=
    List.Perm.flatMap_right _ (List.reverse_perm _)
  rw [hperm.length_eq, tokenBytes_tokens]

/-- A text of code points is written in reverse, any other one is refused. -/
theorem reverseLoop_writes (text behind : List UInt8) :
    (AreCodePoints (tokens text) →
      Writes (reverseLoop (text ++ behind) text.length) (tokenBytes (tokens text).reverse)) ∧
    (¬ AreCodePoints (tokens text) →
      Throws (reverseLoop (text ++ behind) text.length) text.length invalidUtf8Exception) := by
  induction hsize : text.length using Nat.strong_induction_on generalizing text behind with
  | _ size ih =>
      subst hsize
      by_cases hne : text = []
      · subst hne
        refine ⟨fun _ => ?_, fun hill => absurd (fun _ hmem => absurd hmem (by simp)) hill⟩
        have hend : reverseLoop ([] ++ behind) 0 = (.ok : Sink UInt8 → Result (Sink UInt8)) := by
          funext sink
          rw [reverseLoop, dif_neg (Nat.lt_irrefl 0)]
        rw [tokens_nil]
        exact hend ▸ writes_nothing
      · have hpos := List.length_pos_iff.mpr hne
        -- the last code point is ill-formed, or it is written and the front is left
        rcases prev_length hne with ⟨hsentinel, hill⟩ | ⟨front, token, rfl, htokens, htoken,
          hcomplete, hprev⟩
        · refine ⟨fun hcodes => absurd hcodes hill, fun _ filled hole rest hhole => ?_⟩
          rw [← prev_append hne behind] at hsentinel
          have hlast : ¬ (text ++ behind).getD (text.length - 1) 0 < 0x80 := by
            intro hlast
            have hsingle : isSingle (byteAt (text ++ behind) (text.length - 1)) = true :=
              decide_eq_true (UInt8.lt_iff_toNat_lt.mp hlast)
            simp only [prev, hsingle, if_true] at hsentinel
            exact absurd hsentinel
              (Int.ne_of_gt (Int.lt_of_lt_of_le (by decide) (Int.natCast_nonneg _)))
          have hnegative : (prev (text ++ behind) text.length).1 < 0 := by
            rw [hsentinel]
            decide
          rw [reverseLoop, dif_pos hpos]
          simp only
          rw [if_neg hlast, if_pos hnegative]
        · obtain ⟨writer, hwriter, hturn⟩ :=
            @reverseLoop_turn front behind token htoken hcomplete hprev
          have hshorter : front.length < (front ++ token.bytes).length := by
            rw [List.length_append]
            exact Nat.lt_add_of_pos_right (List.length_pos_iff.mpr (bytes_ne_nil htoken))
          obtain ⟨hwrites, hthrows⟩ := ih front.length hshorter front (token.bytes ++ behind) rfl
          rw [← List.append_assoc] at hwrites hthrows
          rw [hturn, htokens]
          refine ⟨fun hcodes => ?_, fun hill => ?_⟩
          · rw [List.reverse_concat, tokenBytes_cons]
            apply hwriter.andThen (hwrites fun other hmem => ?_)
            exact hcodes other (List.mem_append_left _ hmem)
          · rw [List.length_append, Nat.add_comm]
            apply hwriter.andThen_throws (hthrows fun hcodes => hill ?_)
            exact hcodes.append fun other hmem =>
              List.mem_singleton.mp hmem ▸ ⟨htoken, hcomplete⟩

/-! ## The whole text -/

section Whole

variable {text output : List UInt8} {ascii : Bool}

/-- A text of code points is reversed. -/
theorem reverseUtf8_of_codePoints (hcodes : AreCodePoints (tokens text))
    (houtput : text.length ≤ output.length) :
    reverseUtf8 ⟨text, ascii⟩ output =
      .ok (tokenBytes (tokens text).reverse ++ output.drop text.length) := by
  have hwrites := (reverseLoop_writes text []).1 hcodes
  have hfilled := hwrites.front output (by rwa [length_tokenBytes_reverse])
  rw [List.append_nil] at hfilled
  rw [reverseUtf8, hfilled, length_tokenBytes_reverse]
  rfl

/-- A text that is not well formed is refused. -/
theorem reverseUtf8_of_illFormed (hill : ¬ AreCodePoints (tokens text))
    (houtput : text.length ≤ output.length) :
    reverseUtf8 ⟨text, ascii⟩ output = .error (.thrown invalidUtf8Exception) := by
  have hthrows := (reverseLoop_writes text []).2 hill [] (output.take text.length)
    (output.drop text.length) (List.length_take_of_le houtput)
  rw [List.append_nil, List.nil_append, List.take_append_drop] at hthrows
  rw [reverseUtf8]
  exact congrArg (Except.map _) hthrows

/-- In ASCII text reversing code points is reversing bytes. -/
theorem tokenBytes_reverse_ascii (hascii : ∀ byte ∈ text, byte < 0x80) :
    tokenBytes (tokens text).reverse = text.reverse := by
  rw [tokens_ascii hascii, ← List.map_reverse, tokenBytes, List.flatMap_map]
  exact List.flatMap_singleton' _

/-- The copy reverses the bytes. -/
theorem reverseCopy_eq (houtput : text.length ≤ output.length) :
    reverseCopy text output = .ok (text.reverse ++ output.drop text.length) := by
  have hcopied := (writes_copy text.reverse).front (ε := NativeError) output
    (by rwa [List.length_reverse])
  rw [reverseCopy, hcopied, List.length_reverse]
  rfl

end Whole

/-- What is asked of reversing a text. -/
structure Reverses (text : List UInt8) : Prop where
  /-- It is refused where reading it from its start fails, which is where it is ill-formed. -/
  refuses : ∀ ascii output, text.length ≤ output.length →
    (reverseUtf8 ⟨text, ascii⟩ output = .error (.thrown invalidUtf8Exception) ↔
      ∃ token ∈ tokens text, token.codePoint = sentinel)
  illFormed : (∃ token ∈ tokens text, token.codePoint = sentinel) ↔ ¬ WellFormed text
  /-- Anything else gives the code points in reverse order, in as many bytes; once more gives
  the text back. -/
  reverses : (∀ token ∈ tokens text, token.codePoint ≠ sentinel) →
    ∃ reversed : List UInt8, reversed.length = text.length ∧ WellFormed reversed ∧
      (tokens reversed).map Token.codePoint = ((tokens text).map Token.codePoint).reverse ∧
      ∀ ascii output, text.length ≤ output.length →
        reverseUtf8 ⟨text, ascii⟩ output = .ok (reversed ++ output.drop text.length) ∧
        reverseUtf8 ⟨reversed, ascii⟩ output = .ok (text ++ output.drop text.length)
  /-- The copy that is made of ASCII text is the same. -/
  copies : (∀ byte ∈ text, byte < 0x80) → ∀ output, text.length ≤ output.length →
    reverseInput ⟨text, true⟩ output = reverseUtf8 ⟨text, true⟩ output ∧
      reverseInput ⟨text, true⟩ output = reverseInput ⟨text, false⟩ output

/-- Any text is either refused for its ill-formed bytes or written with its code points in
reverse order. -/
theorem reverseUtf8_reverses (text : List UInt8) : Reverses text := by
  have hill : (∃ token ∈ tokens text, token.codePoint = sentinel) ↔
      ¬ AreCodePoints (tokens text) := by
    rw [areCodePoints_tokens]
    simp only [not_forall, not_not, exists_prop]
  refine ⟨fun ascii output houtput => ?_, ?_, fun hcomplete => ?_, fun hascii output houtput => ?_⟩
  · rw [hill]
    constructor
    · intro herror hcodes
      rw [reverseUtf8_of_codePoints hcodes houtput] at herror
      exact absurd herror (by simp)
    · exact fun hbad => reverseUtf8_of_illFormed hbad houtput
  · rw [hill, wellFormed_iff_areCodePoints]
  · have hcodes := areCodePoints_tokens.mpr hcomplete
    have hreversed : AreCodePoints (tokens text).reverse :=
      fun token hmem => hcodes token (List.mem_reverse.mp hmem)
    have hread := tokens_tokenBytes hreversed
    refine ⟨tokenBytes (tokens text).reverse, length_tokenBytes_reverse text,
      wellFormed_tokenBytes hreversed, ?_, fun ascii output houtput => ⟨?_, ?_⟩⟩
    · rw [hread, List.map_reverse]
    · exact reverseUtf8_of_codePoints hcodes houtput
    · rw [reverseUtf8_of_codePoints (hread.symm ▸ hreversed), hread, List.reverse_reverse,
        tokenBytes_tokens, length_tokenBytes_reverse]
      rwa [length_tokenBytes_reverse]
  · have hcodes : AreCodePoints (tokens text) := by
      rw [areCodePoints_tokens, tokens_ascii hascii]
      intro token hmem
      obtain ⟨byte, -, rfl⟩ := List.mem_map.mp hmem
      exact Int.ne_of_gt (Int.lt_of_lt_of_le (by decide) (Int.natCast_nonneg _))
    have hcopy : reverseInput ⟨text, true⟩ output = reverseUtf8 ⟨text, true⟩ output := by
      rw [reverseUtf8_of_codePoints hcodes houtput, tokenBytes_reverse_ascii hascii]
      exact reverseCopy_eq houtput
    exact ⟨hcopy, hcopy⟩

end Charr.Reverse
