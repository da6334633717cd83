import Charr.Library.Fields
import Charr.Text.Backward
import Charr.Text.Normalize

/-!
# Trimming the ends of a text

Code points that are not retained are taken off the left end, the right end or both. The
encoding of what is left is found from what was taken off, where that is enough.
-/

namespace Charr.CharacterClass

open Utf8

/-- What is left of a record: from where on, how many bytes, and whether anything but ASCII
was taken off. -/
structure TrimSlice where
  data : List UInt8
  length : Int
  removedNonAscii : Bool
  deriving DecidableEq, Repr

/-- The text that is left. -/
def TrimSlice.bytes (slice : TrimSlice) : List UInt8 := slice.data.take slice.length.toNat

/-- The answers of a set for ASCII. -/
def asciiTable (retained : CodePoint → Bool) : List Bool :=
  (List.range 128).map fun codePoint : Nat => retained codePoint

/-- Whether the code point ends the trimming; for ASCII a table may answer. -/
def retainedContains (retained : CodePoint → Bool) (asciiRetained : Option (List Bool))
    (codePoint : CodePoint) : Bool :=
  match asciiRetained with
  | some table => if codePoint ≤ 0x7f then table.getD codePoint.toNat false else retained codePoint
  | none => retained codePoint

section Loops

variable (retained : CodePoint → Bool) (asciiRetained : Option (List Bool)) (data : List UInt8)

/-- The loop from the left: where the rest begins, and whether anything but ASCII was met. -/
def trimLeft (cursor begin : Nat) (removedNonAscii : Bool) : Except NativeError (Nat × Bool) :=
  if _ : cursor < data.length then
    let read := next data cursor
    if read.1 < 0 then .error invalidUtf8Exception
    else if retainedContains retained asciiRetained read.1 then .ok (begin, removedNonAscii)
    else trimLeft read.2 read.2 (removedNonAscii || read.1 > 0x7f)
  else .ok (begin, removedNonAscii)
termination_by data.length - cursor
decreasing_by exact Nat.sub_lt_sub_left ‹_› (next_snd data cursor ▸ lt_fwd1 data cursor)

/-- The loop from the right: where the rest ends. -/
def trimRight (cursor stop : Nat) (removedNonAscii : Bool) : Except NativeError (Nat × Bool) :=
  if _ : 0 < cursor then
    let read := prev data cursor
    if read.1 < 0 then .error invalidUtf8Exception
    else if retainedContains retained asciiRetained read.1 then .ok (stop, removedNonAscii)
    else trimRight read.2 read.2 (removedNonAscii || read.1 > 0x7f)
  else .ok (stop, removedNonAscii)
termination_by cursor
decreasing_by exact prev_snd_lt data ‹_›

/-- The part of `trim_slice` under `if (Left)`. -/
def trimBegin (left removedNonAscii : Bool) : Except NativeError (Nat × Bool) :=
  if left then trimLeft retained asciiRetained data 0 0 removedNonAscii
  else .ok (0, removedNonAscii)

/-- The part of `trim_slice` under `if (Right && begin < length)`. -/
def trimEnd (right : Bool) (begin : Nat) (removedNonAscii : Bool) :
    Except NativeError (Nat × Bool) :=
  if right && begin < data.length then
    trimRight retained asciiRetained data data.length data.length removedNonAscii
  else .ok (data.length, removedNonAscii)

/-- `trim_slice<Left, Right>`. -/
def trimSlice (left right stripBom : Bool) : Except NativeError TrimSlice :=
  let strip := stripBom && hasBom data
  let data := if strip then data.drop 3 else data
  (trimBegin retained asciiRetained data left strip).bind fun (begin, removedNonAscii) =>
    (trimEnd retained asciiRetained data right begin removedNonAscii).map
      fun (stop, removedNonAscii) => ⟨data.drop begin, (stop : Int) - begin, removedNonAscii⟩

end Loops

/-! ## The mark of what is left -/

/-- Whether a byte order mark is dropped: where the subject had one before it was converted. -/
def stripInputBom (original normalized : StringView) : Bool :=
  if ¬ hasBom normalized.bytes then false
  else if original.enc = .utf8 ∨ original.enc = .asciiOrUtf8 then true
  else original.enc = .native && hasBom original.bytes

/-- How the trimmed text is marked. -/
def trimmedEncoding (original normalized : StringView) (trimmed : TrimSlice) : StringEncoding :=
  if trimmed.length = 0 ∨ original.enc = .ascii then .ascii
  else if original.enc = .utf8 ∧ normalized.enc = .utf8 ∧ ¬ trimmed.removedNonAscii then .utf8
  else if trimmed.bytes.all fun byte => byte < 0x80 then .ascii else .utf8

/-! ## The loops -/

/-- A pattern with one set answers for ASCII from a table. -/
def patternTable (scalar : Bool) (retained : CodePoint → Bool) : Option (List Bool) :=
  if scalar then some (asciiTable retained) else none

/-- What may be taken off. -/
def removable (retained : CodePoint → Bool) (token : Token) : Bool := !retained token.codePoint

/-- The code point is not ASCII. -/
def isNonAscii (token : Token) : Bool := token.codePoint > 0x7f

section Specs

variable {retained : CodePoint → Bool} {scalar : Bool} {data : List UInt8}

/-- The table answers as the set does. -/
theorem retainedContains_eq {codePoint : CodePoint} (hnonneg : 0 ≤ codePoint) :
    retainedContains retained (patternTable scalar retained) codePoint = retained codePoint := by
  unfold retainedContains patternTable
  cases scalar with
  | false => rfl
  | true =>
      simp only [if_true]
      split
      next hlow =>
        have hindex : codePoint.toNat < 128 := Nat.lt_succ_of_le (Int.toNat_le_toNat hlow)
        rw [asciiTable, List.getD_eq_getElem?_getD, List.getElem?_map,
          List.getElem?_range hindex, Option.map_some, Option.getD_some,
          Int.toNat_of_nonneg hnonneg]
      next => rfl

/-- A token is trimmed unless its code point is retained. -/
theorem retainedContains_token {token : Token} (htoken : tokens token.bytes = [token])
    (hcomplete : token.codePoint ≠ sentinel) :
    retainedContains retained (patternTable scalar retained) token.codePoint =
      !removable retained token := by
  rw [retainedContains_eq (codePoint_nonneg htoken hcomplete), removable, Bool.not_not]

theorem removable_iff {token : Token} :
    removable retained token = true ↔ retained token.codePoint = false := by
  simp [removable]

theorem not_removable_iff {token : Token} :
    removable retained token = false ↔ retained token.codePoint = true := by
  simp [removable]

/-- From the left, all that may be taken off in front is. -/
theorem trimLeft_eq {list : List Token} {cursor : Nat}
    (hdrop : tokens (data.drop cursor) = list) (hlist : AreCodePoints list)
    (removedNonAscii : Bool) :
    trimLeft retained (patternTable scalar retained) data cursor cursor removedNonAscii =
      .ok (cursor + (tokenBytes (list.takeWhile (removable retained))).length,
        removedNonAscii || (list.takeWhile (removable retained)).any isNonAscii) := by
  induction list generalizing cursor removedNonAscii with
  | nil =>
      have hend : ¬ cursor < data.length := by
        rw [tokens_eq_nil, List.drop_eq_nil_iff] at hdrop
        exact Nat.not_lt.mpr hdrop
      rw [trimLeft, dif_neg hend]
      simp
  | cons token rest ih =>
      obtain ⟨⟨htoken, hcomplete⟩, hrest⟩ := List.forall_mem_cons.mp hlist
      obtain ⟨hcursor, hnext, hbehind⟩ := next_drop hdrop
      have hnonneg : ¬ token.codePoint < 0 := Int.not_lt.mpr (codePoint_nonneg htoken hcomplete)
      rw [trimLeft, dif_pos hcursor]
      simp only [hnext, hnonneg, if_false, retainedContains_token htoken hcomplete]
      cases hremovable : removable retained token with
      | false => simp [hremovable]
      | true =>
          rw [List.takeWhile_cons_of_pos hremovable, tokenBytes_cons, List.length_append,
            List.any_cons, ← Nat.add_assoc, ← Bool.or_assoc]
          exact ih hbehind hrest _

/-- From the right, all that may be taken off behind is. -/
theorem trimRight_eq {front : List UInt8} (hcodes : AreCodePoints (tokens front))
    (behind : List UInt8) (removedNonAscii : Bool) :
    trimRight retained (patternTable scalar retained) (front ++ behind) front.length front.length
        removedNonAscii =
      .ok ((tokenBytes ((tokens front).rdropWhile (removable retained))).length,
        removedNonAscii || ((tokens front).rtakeWhile (removable retained)).any isNonAscii) := by
  induction hsize : front.length using Nat.strong_induction_on
    generalizing front behind removedNonAscii with
  | _ size ih =>
      subst hsize
      by_cases hne : front = []
      · subst hne
        rw [List.length_nil, trimRight, dif_neg (Nat.lt_irrefl 0), tokens_nil]
        simp
      · have hpos := List.length_pos_iff.mpr hne
        rcases prev_length hne with ⟨-, hill⟩ | ⟨before, token, rfl, htokens, htoken, hcomplete,
          hprev⟩
        · exact absurd hcodes hill
        · have hread := prev_append hne behind
          rw [hprev] at hread
          have hnonneg : ¬ token.codePoint < 0 :=
            Int.not_lt.mpr (codePoint_nonneg htoken hcomplete)
          rw [trimRight, dif_pos hpos]
          simp only [hread, hnonneg, if_false, retainedContains_token htoken hcomplete]
          rw [htokens]
          cases hremovable : removable retained token with
          | false =>
              have hnot : ¬ removable retained token = true := Bool.eq_false_iff.mp hremovable
              rw [List.rdropWhile_concat_neg _ _ _ hnot, List.rtakeWhile_concat_neg _ _ _ hnot,
                ← htokens, tokenBytes_tokens]
              simp
          | true =>
              have hshorter : before.length < (before ++ token.bytes).length := by
                rw [List.length_append]
                exact Nat.lt_add_of_pos_right (List.length_pos_iff.mpr (bytes_ne_nil htoken))
              have hbefore : AreCodePoints (tokens before) := fun other hmem =>
                hcodes other (htokens ▸ List.mem_append_left _ hmem)
              have hloop := ih before.length hshorter hbefore (token.bytes ++ behind)
                (removedNonAscii || isNonAscii token) rfl
              rw [← List.append_assoc] at hloop
              rw [List.rdropWhile_concat_pos _ _ _ hremovable,
                List.rtakeWhile_concat_pos _ _ _ hremovable, List.any_append, List.any_cons,
                List.any_nil, Bool.or_false, Bool.or_comm (List.any _ _), ← Bool.or_assoc]
              exact hloop

/-! ## The slice -/

/-- What is taken off on the left, and what is there behind it. -/
def leftEnd (retained : CodePoint → Bool) (left : Bool) (list : List Token) : List Token :=
  if left then list.takeWhile (removable retained) else []

/-- The tokens that are left of the text by trimming its start. -/
def afterLeft (retained : CodePoint → Bool) (left : Bool) (list : List Token) : List Token :=
  if left then list.dropWhile (removable retained) else list

/-- The tokens that are left. -/
def leftOver (retained : CodePoint → Bool) (left right : Bool) (list : List Token) : List Token :=
  if right then (afterLeft retained left list).rdropWhile (removable retained)
  else afterLeft retained left list

/-- The text behind its byte order mark. -/
def withoutBom (stripBom : Bool) (data : List UInt8) : List UInt8 :=
  if stripBom && hasBom data then data.drop 3 else data

variable {left right stripBom : Bool} {list : List Token}

/-- Trimming the start cuts the tokens in two. -/
theorem leftEnd_append : leftEnd retained left list ++ afterLeft retained left list = list := by
  cases left with
  | false => rfl
  | true => exact List.takeWhile_append_dropWhile

/-- The loop from the right, that goes over the whole text, stops before it meets what was
taken off on the left. -/
theorem rdropWhile_eq (hafter : afterLeft retained left list ≠ []) :
    list.rdropWhile (removable retained) =
      leftEnd retained left list ++
        (afterLeft retained left list).rdropWhile (removable retained) := by
  cases left with
  | false => rfl
  | true =>
      conv_lhs => rw [← @leftEnd_append retained true list]
      apply Fields.rdropWhile_append
      intro hnil
      exact hafter (Fields.dropWhile_eq_nil_of_trim hnil)

/-- A slice between two ends has the bytes of the middle. -/
theorem bytes_slice (front middle back : List UInt8) (removedNonAscii : Bool) :
    (TrimSlice.mk ((front ++ (middle ++ back)).drop front.length)
      (((front ++ middle).length : Int) - (front.length : Int)) removedNonAscii).bytes =
        middle := by
  have hlength :
      ((front ++ middle).length : Int) - (front.length : Int) = (middle.length : Int) := by
    rw [List.length_append, Int.natCast_add, Int.add_comm, Int.add_sub_cancel]
  rw [TrimSlice.bytes, List.drop_left, hlength, Int.toNat_natCast, List.take_left]

/-- What a slice holds. -/
structure Slices (slice : TrimSlice) (stripped : Bool) (list rest : List Token) : Prop where
  bytes : slice.bytes = tokenBytes rest
  length : slice.length = slice.bytes.length
  /-- Nothing is flagged if the mark and everything above ASCII is still there. -/
  removed : slice.removedNonAscii = false → stripped = false ∧
    ∀ token ∈ list, isNonAscii token = true → token ∈ rest

/-- Trimming the start stops behind the tokens of the left end. -/
theorem trimBegin_eq {text : List UInt8} (hcodes : AreCodePoints (tokens text))
    (removedNonAscii : Bool) :
    trimBegin retained (patternTable scalar retained) text left removedNonAscii =
      .ok ((tokenBytes (leftEnd retained left (tokens text))).length,
        removedNonAscii || (leftEnd retained left (tokens text)).any isNonAscii) := by
  have hstart : tokens (text.drop 0) = tokens text := rfl
  unfold trimBegin leftEnd
  cases left with
  | false => simp
  | true => rw [if_pos rfl, if_pos rfl, trimLeft_eq hstart hcodes, Nat.zero_add]

theorem leftOver_isPrefix_afterLeft :
    leftOver retained left right list <+: afterLeft retained left list := by
  cases right with
  | false => exact List.prefix_rfl
  | true => exact List.rdropWhile_prefix _ _

/-- The bytes of the left end and of the tokens behind it are the text. -/
theorem tokenBytes_leftEnd (text : List UInt8) :
    tokenBytes (leftEnd retained left (tokens text)) ++
      tokenBytes (afterLeft retained left (tokens text)) = text := by
  rw [← tokenBytes_append, leftEnd_append, tokenBytes_tokens]

/-- What the loop from the right gives, behind what was taken off on the left. -/
theorem trimEnd_eq {text : List UInt8} (hcodes : AreCodePoints (tokens text))
    (removedNonAscii : Bool) :
    ∃ removed, trimEnd retained (patternTable scalar retained) text right
        (tokenBytes (leftEnd retained left (tokens text))).length removedNonAscii =
      .ok ((tokenBytes (leftEnd retained left (tokens text)) ++
        tokenBytes (leftOver retained left right (tokens text))).length, removed) ∧
      (removed = false → removedNonAscii = false ∧
        ∀ token ∈ afterLeft retained left (tokens text), isNonAscii token = true →
          token ∈ leftOver retained left right (tokens text)) := by
  have hwhole := @tokenBytes_leftEnd retained left text
  cases right with
  | false =>
      refine ⟨removedNonAscii, ?_, fun hremoved => ⟨hremoved, fun token hmem _ => hmem⟩⟩
      rw [show leftOver retained left false (tokens text) =
        afterLeft retained left (tokens text) from rfl, hwhole]
      rfl
  | true =>
      -- the left side may have taken all there is
      by_cases hafter : afterLeft retained left (tokens text) = []
      · refine ⟨removedNonAscii, ?_, fun hremoved => ⟨hremoved, fun token hmem => ?_⟩⟩
        · have hover : leftOver retained left true (tokens text) = [] := by
            rw [leftOver, hafter]
            rfl
          rw [hafter, tokenBytes_nil, List.append_nil] at hwhole
          rw [hover, tokenBytes_nil, List.append_nil, hwhole, trimEnd]
          simp
        · rw [hafter] at hmem
          exact absurd hmem List.not_mem_nil
      · obtain ⟨first, rest, hcons⟩ := List.exists_cons_of_ne_nil hafter
        have hfirst : first ∈ tokens text := by
          rw [← @leftEnd_append retained left (tokens text), hcons]
          exact List.mem_append_right _ List.mem_cons_self
        have hbegin : (tokenBytes (leftEnd retained left (tokens text))).length < text.length := by
          conv_rhs => rw [← hwhole]
          rw [List.length_append, hcons, tokenBytes_cons, List.length_append]
          have hpos := List.length_pos_iff.mpr (bytes_ne_nil (tokens_of_mem hfirst))
          omega
        have hloop := @trimRight_eq retained scalar text hcodes [] removedNonAscii
        rw [List.append_nil, rdropWhile_eq hafter, tokenBytes_append] at hloop
        refine ⟨removedNonAscii ||
          ((tokens text).rtakeWhile (removable retained)).any isNonAscii, ?_, fun hremoved => ?_⟩
        · rw [trimEnd, if_pos (by simpa using hbegin)]
          exact hloop
        · obtain ⟨hbefore, hnone⟩ := Bool.or_eq_false_iff.mp hremoved
          refine ⟨hbefore, fun token hmem hhigh => ?_⟩
          -- what the right side takes off is behind what stays
          have hsplit : (afterLeft retained left (tokens text)).rdropWhile (removable retained) ++
              (tokens text).rtakeWhile (removable retained) =
                afterLeft retained left (tokens text) := by
            refine @List.append_cancel_left _ (leftEnd retained left (tokens text)) _ _ ?_
            rw [← List.append_assoc, ← rdropWhile_eq hafter, List.rdropWhile_append_rtakeWhile,
              leftEnd_append]
          rw [← hsplit] at hmem
          rcases List.mem_append.mp hmem with hkept | htaken
          · exact hkept
          · rw [List.any_eq_false] at hnone
            exact absurd hhigh (hnone token htaken)

/-- The slice of a well-formed text has the tokens that are left over. -/
theorem trimSlice_eq (hwell : WellFormed (withoutBom stripBom data)) :
    ∃ slice, trimSlice retained (patternTable scalar retained) data left right stripBom =
        .ok slice ∧
      Slices slice (stripBom && hasBom data) (tokens (withoutBom stripBom data))
        (leftOver retained left right (tokens (withoutBom stripBom data))) := by
  have hcodes := hwell.areCodePoints
  have hstrip : (if (stripBom && hasBom data) = true then data.drop 3 else data) =
      withoutBom stripBom data := rfl
  generalize hflag : (stripBom && hasBom data) = strip at hstrip ⊢
  generalize withoutBom stripBom data = text at *
  obtain ⟨removed, hend, hremoved⟩ := @trimEnd_eq retained scalar left right text hcodes
    (strip || (leftEnd retained left (tokens text)).any isNonAscii)
  refine ⟨⟨text.drop (tokenBytes (leftEnd retained left (tokens text))).length,
    ((tokenBytes (leftEnd retained left (tokens text)) ++
      tokenBytes (leftOver retained left right (tokens text))).length : Int) -
      ((tokenBytes (leftEnd retained left (tokens text))).length : Int), removed⟩, ?_, ?_⟩
  · unfold trimSlice
    simp only [hflag, hstrip]
    rw [trimBegin_eq hcodes, Except.bind]
    dsimp only
    rw [hend]
    rfl
  · obtain ⟨back, hback⟩ := @leftOver_isPrefix_afterLeft retained left right (tokens text)
    have hwhole : text = tokenBytes (leftEnd retained left (tokens text)) ++
        (tokenBytes (leftOver retained left right (tokens text)) ++ tokenBytes back) := by
      rw [← tokenBytes_append, hback, tokenBytes_leftEnd]
    have hbytes := bytes_slice (tokenBytes (leftEnd retained left (tokens text)))
      (tokenBytes (leftOver retained left right (tokens text))) (tokenBytes back) removed
    rw [← hwhole] at hbytes
    refine ⟨hbytes, ?_, fun hnone => ?_⟩
    · rw [hbytes]
      dsimp only
      rw [List.length_append, Int.natCast_add, Int.add_comm, Int.add_sub_cancel]
    · obtain ⟨hbefore, hkept⟩ := hremoved hnone
      obtain ⟨hnotStripped, hfront⟩ := Bool.or_eq_false_iff.mp hbefore
      refine ⟨hnotStripped, fun token hmem hhigh => ?_⟩
      rw [← @leftEnd_append retained left (tokens text)] at hmem
      rcases List.mem_append.mp hmem with htaken | hafter
      · rw [List.any_eq_false] at hfront
        exact absurd hhigh (hfront token htaken)
      · exact hkept token hafter hhigh

/-- A text is still well formed without its byte order mark. -/
theorem wellFormed_withoutBom (hwell : WellFormed data) (stripBom : Bool) :
    WellFormed (withoutBom stripBom data) := by
  unfold withoutBom
  split
  next hmarked => exact hwell.of_hasBom (Bool.and_eq_true_iff.mp hmarked).2
  next => exact hwell

theorem withoutBom_subset (stripBom : Bool) (data : List UInt8) :
    withoutBom stripBom data ⊆ data := by
  unfold withoutBom
  split
  next => exact List.drop_subset 3 data
  next => exact List.Subset.refl data

theorem mem_of_mem_leftOver {token : Token} (hmem : token ∈ leftOver retained left right list) :
    token ∈ list := by
  have hkept : token ∈ afterLeft retained left list :=
    leftOver_isPrefix_afterLeft.subset hmem
  rw [← @leftEnd_append retained left list]
  exact List.mem_append_right _ hkept

/-- Trimming adds no byte. -/
theorem tokenBytes_leftOver_subset (text : List UInt8) :
    tokenBytes (leftOver retained left right (tokens text)) ⊆ text := by
  conv_rhs => rw [← tokenBytes_tokens text]
  intro byte hbyte
  obtain ⟨token, hmem, hinside⟩ := List.mem_flatMap.mp hbyte
  exact List.mem_flatMap.mpr ⟨token, mem_of_mem_leftOver hmem, hinside⟩

/-! ## Trimming again -/

/-- The bytes that are left of a text, whatever it starts with. -/
def trimmed (retained : CodePoint → Bool) (scalar left right : Bool) (text : List UInt8) :
    Except NativeError (List UInt8) :=
  (trimSlice retained (patternTable scalar retained) text left right false).map TrimSlice.bytes

/-- Trimming a well-formed text succeeds. -/
theorem trimmed_eq {text : List UInt8} (hwell : WellFormed text) :
    trimmed retained scalar left right text =
      .ok (tokenBytes (leftOver retained left right (tokens text))) := by
  obtain ⟨slice, hslice, hspec⟩ := @trimSlice_eq retained scalar text left right false hwell
  rw [trimmed, hslice, Except.map, hspec.bytes]
  rfl

/-- What is left of a text of code points is one, too. -/
theorem tokens_leftOver {text : List UInt8} (hwell : WellFormed text) :
    tokens (tokenBytes (leftOver retained left right (tokens text))) =
        leftOver retained left right (tokens text) ∧
      WellFormed (tokenBytes (leftOver retained left right (tokens text))) := by
  have hcodes : AreCodePoints (leftOver retained left right (tokens text)) := fun token hmem =>
    hwell.areCodePoints token (mem_of_mem_leftOver hmem)
  exact ⟨tokens_tokenBytes hcodes, wellFormed_tokenBytes hcodes⟩

/-- Trimming twice cuts the tokens twice. -/
theorem trimmed_trimmed {text : List UInt8} (hwell : WellFormed text) (left' right' : Bool) :
    (trimmed retained scalar left right text).bind (trimmed retained scalar left' right') =
      .ok (tokenBytes (leftOver retained left' right'
        (leftOver retained left right (tokens text)))) := by
  obtain ⟨hread, hwell'⟩ := @tokens_leftOver retained left right text hwell
  rw [trimmed_eq hwell, Except.bind, trimmed_eq hwell', hread]

/-- There is nothing left to trim after trimming. -/
theorem leftOver_leftOver :
    leftOver retained left right (leftOver retained left right list) =
      leftOver retained left right list := by
  match left, right with
  | false, false => rfl
  | true, false => exact List.dropWhile_idempotent _ _
  | false, true => exact List.rdropWhile_idempotent _ _
  | true, true => exact Fields.trim_self Fields.white_head?_trim Fields.white_getLast?_trim

/-- What is asked of trimming a text. -/
structure Trims (retained : CodePoint → Bool) (scalar : Bool) (text : List UInt8) : Prop where
  /-- On the left goes the longest run of code points that are not retained. -/
  left : ∃ front rest, tokens text = front ++ rest ∧
    (∀ token ∈ front, retained token.codePoint = false) ∧
    (∀ token ∈ rest.head?, retained token.codePoint = true) ∧
    trimmed retained scalar true false text = .ok (tokenBytes rest)
  /-- So it does on the right. -/
  right : ∃ rest back, tokens text = rest ++ back ∧
    (∀ token ∈ back, retained token.codePoint = false) ∧
    (∀ token ∈ rest.getLast?, retained token.codePoint = true) ∧
    trimmed retained scalar false true text = .ok (tokenBytes rest)
  leftThenRight : trimmed retained scalar true true text =
    (trimmed retained scalar true false text).bind (trimmed retained scalar false true)
  rightThenLeft : trimmed retained scalar true true text =
    (trimmed retained scalar false true text).bind (trimmed retained scalar true false)
  /-- A byte order mark that is not wanted is taken off first. -/
  behindBom : ∀ left right,
    (trimSlice retained (patternTable scalar retained) text left right true).map TrimSlice.bytes =
      trimmed retained scalar left right (withoutBom true text)
  again : ∀ left right, ∃ rest, trimmed retained scalar left right text = .ok rest ∧
    trimmed retained scalar left right rest = .ok rest

theorem trims {text : List UInt8} (hwell : WellFormed text) : Trims retained scalar text := by
  refine ⟨?_, ?_, ?_, ?_, fun left right => ?_, fun left right => ?_⟩
  · refine ⟨(tokens text).takeWhile (removable retained),
      (tokens text).dropWhile (removable retained), List.takeWhile_append_dropWhile.symm,
      fun token hmem => ?_, fun token hmem => ?_, trimmed_eq hwell⟩
    · exact removable_iff.mp (List.mem_takeWhile_imp hmem)
    · have hnot := List.head?_dropWhile_not (removable retained) (tokens text)
      rw [hmem] at hnot
      exact not_removable_iff.mp hnot
  · refine ⟨(tokens text).rdropWhile (removable retained),
      (tokens text).rtakeWhile (removable retained),
      (List.rdropWhile_append_rtakeWhile).symm, fun token hmem => ?_, fun token hmem => ?_,
      trimmed_eq hwell⟩
    · exact removable_iff.mp (List.mem_rtakeWhile_imp hmem)
    · exact not_removable_iff.mp (Fields.white_getLast?_rdropWhile token hmem)
  · rw [trimmed_trimmed hwell, trimmed_eq hwell]
    rfl
  · rw [trimmed_trimmed hwell, trimmed_eq hwell]
    congr 2
    exact Fields.dropWhile_rdropWhile.symm
  · have hbehind := wellFormed_withoutBom hwell true
    obtain ⟨slice, hslice, hslices⟩ := @trimSlice_eq retained scalar text left right true hbehind
    rw [hslice, trimmed_eq hbehind, Except.map, hslices.bytes]
  · obtain ⟨hread, hwell'⟩ := @tokens_leftOver retained left right text hwell
    refine ⟨_, trimmed_eq hwell, ?_⟩
    rw [trimmed_eq hwell', hread, leftOver_leftOver]

end Specs

/-! ## The mark -/

/-- The marks of a record say what they promise. -/
structure MarkHolds (original : StringView) : Prop where
  ascii : original.enc = .ascii → ∀ byte ∈ original.bytes, byte < 0x80
  utf8 : original.enc = .utf8 → ∃ byte ∈ original.bytes, ¬ byte < 0x80

section Marks

variable {retained : CodePoint → Bool} {scalar left right : Bool} {original normalized : StringView}
  {converter : NativeToUtf8} {storage storage' : SliceArena}

/-- A record that is marked as ASCII or UTF-8 stays where it is. -/
theorem normalized_eq
    (hnormalized : normalizeUtf8PreserveBom converter storage original = .ok (normalized, storage'))
    (hmark : original.enc = .ascii ∨ original.enc = .utf8) : normalized = original := by
  unfold normalizeUtf8PreserveBom at hnormalized
  split at hnormalized
  next => exact (Prod.mk.inj (Except.ok.inj hnormalized)).1.symm
  next hna =>
    cases hdata : original.data with
    | null len => simp [hdata, normalizeUtf8Slow, hna] at hnormalized
    | bytes span =>
        have hborrowed : original.enc = .ascii ∨ original.enc = .utf8 ∨
            original.enc = .asciiOrUtf8 := hmark.imp_right Or.inl
        simp only [hdata, hborrowed, if_true] at hnormalized
        exact (Prod.mk.inj (Except.ok.inj hnormalized)).1.symm

/-- A byte above ASCII stands in a code point above ASCII. -/
theorem exists_isNonAscii {text : List UInt8} (hwell : WellFormed text)
    (hhigh : ∃ byte ∈ text, ¬ byte < 0x80) :
    ∃ token ∈ tokens text, isNonAscii token = true ∧ ∃ byte ∈ token.bytes, ¬ byte < 0x80 := by
  obtain ⟨byte, hbyte, hnot⟩ := hhigh
  rw [← tokenBytes_tokens text] at hbyte
  obtain ⟨token, hmem, hinside⟩ := List.mem_flatMap.mp hbyte
  obtain ⟨htoken, hcomplete⟩ := hwell.areCodePoints token hmem
  refine ⟨token, hmem, ?_, byte, hinside, hnot⟩
  have hlow : ¬ (token.bytes.all fun byte => byte < 0x80) = true := by
    intro hall
    exact hnot (of_decide_eq_true (List.all_eq_true.mp hall byte hinside))
  rw [ascii_bytes_iff htoken] at hlow
  apply decide_eq_true
  apply Int.not_le.mp
  exact fun hle => hlow ⟨codePoint_nonneg htoken hcomplete, hle⟩

/-- The mark of a slice tells whether it is ASCII. -/
theorem trimmedEncoding_eq {slice : TrimSlice} {list rest : List Token} {stripped : Bool}
    (hnormalized : normalizeUtf8PreserveBom converter storage original = .ok (normalized, storage'))
    (hmark : MarkHolds original) (hslices : Slices slice stripped list rest)
    (hsubset : slice.bytes ⊆ normalized.bytes)
    (hunstripped : stripped = false → list = tokens normalized.bytes)
    (hwell : WellFormed normalized.bytes) :
    (trimmedEncoding original normalized slice = .ascii ∧ ∀ byte ∈ slice.bytes, byte < 0x80) ∨
      (trimmedEncoding original normalized slice = .utf8 ∧
        ∃ byte ∈ slice.bytes, ¬ byte < 0x80) := by
  unfold trimmedEncoding
  split_ifs with hplain hdefinite hscan
  · refine Or.inl ⟨rfl, fun byte hmem => ?_⟩
    rcases hplain with hempty | hascii
    · rw [hslices.length] at hempty
      have hnil : slice.bytes = [] := List.length_eq_zero_iff.mp (Int.ofNat_inj.mp hempty)
      rw [hnil] at hmem
      exact absurd hmem List.not_mem_nil
    · apply hmark.ascii hascii
      rw [← normalized_eq hnormalized (Or.inl hascii)]
      exact hsubset hmem
  · obtain ⟨hutf8, -, hremoved⟩ := hdefinite
    obtain ⟨hnotStripped, hkept⟩ := hslices.removed (Bool.eq_false_iff.mpr hremoved)
    have hhigh := hmark.utf8 hutf8
    rw [← normalized_eq hnormalized (Or.inr hutf8)] at hhigh
    obtain ⟨token, hmem, htokenHigh, byte, hbyte, hnot⟩ := exists_isNonAscii hwell hhigh
    rw [← hunstripped hnotStripped] at hmem
    refine Or.inr ⟨rfl, byte, ?_, hnot⟩
    rw [hslices.bytes]
    exact List.mem_flatMap.mpr ⟨token, hkept token hmem htokenHigh, hbyte⟩
  · refine Or.inl ⟨rfl, fun byte hmem => ?_⟩
    exact of_decide_eq_true (List.all_eq_true.mp hscan byte hmem)
  · refine Or.inr ⟨rfl, ?_⟩
    simpa using hscan

end Marks

/-- What is asked of the mark of a trimmed record. -/
def MarksSlice (retained : CodePoint → Bool) (scalar : Bool) (original normalized : StringView) :
    Prop :=
  ∀ left right, ∃ slice,
    trimSlice retained (patternTable scalar retained) normalized.bytes left right
      (stripInputBom original normalized) = .ok slice ∧
    (trimmedEncoding original normalized slice = .ascii ↔ ∀ byte ∈ slice.bytes, byte < 0x80) ∧
    (trimmedEncoding original normalized slice = .utf8 ↔ ∃ byte ∈ slice.bytes, ¬ byte < 0x80)

/-- Trimming drops the code points before the first and behind the last retained one, and
marks what is left by its bytes. -/
theorem trimSlice_trims (retained : CodePoint → Bool) (scalar : Bool) :
    (∀ text, WellFormed text → Trims retained scalar text) ∧
    ∀ original normalized converter storage storage',
      normalizeUtf8PreserveBom converter storage original = .ok (normalized, storage') →
      WellFormed normalized.bytes → MarkHolds original →
        MarksSlice retained scalar original normalized := by
  refine ⟨fun text hwell => trims hwell, ?_⟩
  intro original normalized converter storage storage' hnormalized hwell hmark left right
  obtain ⟨slice, hslice, hslices⟩ := @trimSlice_eq retained scalar normalized.bytes left right
    (stripInputBom original normalized) (wellFormed_withoutBom hwell _)
  have hsubset : slice.bytes ⊆ normalized.bytes := by
    rw [hslices.bytes]
    exact List.Subset.trans (tokenBytes_leftOver_subset _) (withoutBom_subset _ _)
  have hunstripped : (stripInputBom original normalized && hasBom normalized.bytes) = false →
      tokens (withoutBom (stripInputBom original normalized) normalized.bytes) =
        tokens normalized.bytes := by
    intro hnot
    rw [withoutBom, hnot, if_neg Bool.false_ne_true]
  refine ⟨slice, hslice, ?_⟩
  rcases trimmedEncoding_eq hnormalized hmark hslices hsubset hunstripped hwell with
    ⟨henc, hall⟩ | ⟨henc, byte, hmem, hnot⟩
  · rw [henc]
    refine ⟨⟨fun _ => hall, fun _ => rfl⟩, ⟨fun heq => absurd heq (by decide), ?_⟩⟩
    rintro ⟨byte, hmem, hnot⟩
    exact absurd (hall byte hmem) hnot
  · rw [henc]
    refine ⟨⟨fun heq => absurd heq (by decide), fun hall => ?_⟩,
      ⟨fun _ => ⟨byte, hmem, hnot⟩, fun _ => rfl⟩⟩
    exact absurd (hall byte hmem) hnot

/-- A letter of two bytes between blanks. -/
def blankedText : List UInt8 := [0x20, 0xc3, 0xa9, 0x20]

theorem trimSlice_trims_blanked :
    Trims (· ≠ 0x20) true blankedText ∧
      MarksSlice (· ≠ 0x20) true ⟨.bytes ⟨8, blankedText, by decide⟩, .utf8⟩
        ⟨.bytes ⟨8, blankedText, by decide⟩, .utf8⟩ := by
  have hwell : WellFormed blankedText := ⟨[[0x20], [0xc3, 0xa9], [0x20]], rfl, by simp; decide⟩
  have hmark : MarkHolds ⟨.bytes ⟨8, blankedText, by decide⟩, .utf8⟩ :=
    ⟨fun hascii => absurd hascii (by decide),
      fun _ => ⟨0xc3, List.mem_cons_of_mem _ List.mem_cons_self, by decide⟩⟩
  have hboth := trimSlice_trims (· ≠ 0x20) true
  exact ⟨hboth.1 blankedText hwell,
    hboth.2 _ _ ⟨fun _ => .ok (.null 0), fun _ => .ok (.null 0), true⟩ ⟨0⟩ ⟨0⟩ rfl hwell hmark⟩

end Charr.CharacterClass
