import Charr.Library.Buffer
import Charr.Text.Encode

/-!
# Escaping a text

Each code point becomes an escape of printable ASCII characters. The size of the whole is
computed first, from one classification of the code points, and written after it, from
another.
-/

namespace Charr.Escape

open Utf8 Buffers

/-- What writing into a buffer returns. -/
abbrev Result := Except (Buffers.Fault NativeError)

/-- `R_LEN_T_MAX`. -/
def rLenTMax : Nat := 2 ^ 31 - 1

/-- The error of an escaped text that would not fit in an R string. -/
def tooLong : NativeError := .lengthError "escaped string exceeds R's string length limit"

/-! ## Sizes -/

/-- The code points that have an escape of one letter, with that letter. -/
def shortEscapes : List (CodePoint × UInt8) :=
  [(0x07, 0x61), (0x08, 0x62), (0x09, 0x74), (0x0a, 0x6e), (0x0b, 0x76), (0x0c, 0x66),
    (0x0d, 0x72), (0x22, 0x22), (0x27, 0x27), (0x5c, 0x5c)]

/-- The letter behind the backslash, or `'\0'`. -/
def shortEscape (codePoint : CodePoint) : UInt8 := (shortEscapes.lookup codePoint).getD 0

/-- The bytes that the escape of a code point takes. -/
def escapedWidth (codePoint : CodePoint) : Nat :=
  if shortEscape codePoint ≠ 0 then 2
  else if codePoint ≥ 32 && codePoint ≤ 126 then 1
  else if codePoint ≤ 0xffff then 6 else 10

/-- The code point at `cursor`: a byte of ASCII, or what `step` reads. -/
def readCodePoint (step : List UInt8 → Nat → CodePoint × Nat) (text : List UInt8) (cursor : Nat) :
    CodePoint × Nat :=
  let lead := byteAt text cursor
  if lead ≤ 0x7f then (lead, cursor + 1) else step text cursor

/-- Reading goes on if the step does. -/
theorem lt_readCodePoint {step : List UInt8 → Nat → CodePoint × Nat} {text : List UInt8}
    {cursor : Nat} (hstep : cursor < (step text cursor).2) :
    cursor < (readCodePoint step text cursor).2 := by
  unfold readCodePoint
  dsimp only
  split
  next => exact Nat.lt_add_of_pos_right Nat.one_pos
  next => exact hstep

theorem sub_readCodePoint {step : List UInt8 → Nat → CodePoint × Nat} {text : List UInt8}
    {cursor : Nat} (hstep : cursor < (step text cursor).2) (hcursor : cursor < text.length) :
    text.length - (readCodePoint step text cursor).2 < text.length - cursor :=
  Nat.sub_lt_sub_left hcursor (lt_readCodePoint hstep)

theorem lt_next (text : List UInt8) (cursor : Nat) : cursor < (next text cursor).2 := by
  rw [next_snd]
  exact lt_fwd1 text cursor

/-- The loop of `escaped_size`, from `cursor` on. -/
def escapedSizeLoop (text : List UInt8) (cursor outputSize : Nat) : Except NativeError Nat :=
  if _ : cursor < text.length then
    let read := readCodePoint next text cursor
    if read.1 < 0 then .error invalidUtf8Exception
    else
      let width := escapedWidth read.1
      if outputSize > rLenTMax - width then .error tooLong
      else escapedSizeLoop text read.2 (outputSize + width)
  else .ok outputSize
termination_by text.length - cursor
decreasing_by exact sub_readCodePoint (lt_next text cursor) ‹_›

/-- The size of the escaped text, as it is announced. -/
def escapedSize (text : List UInt8) : Except NativeError Nat := escapedSizeLoop text 0 0

/-! ## Writing -/

/-- The hexadecimal digits. -/
def hex : List UInt8 :=
  [0x30, 0x31, 0x32, 0x33, 0x34, 0x35, 0x36, 0x37, 0x38, 0x39, 0x61, 0x62, 0x63, 0x64, 0x65, 0x66]

/-- The digit of `value` at `shift`; `value` is 32 bits wide. -/
def hexDigit (value : CodePoint) (shift : Nat) : UInt8 :=
  hex.getD ((value % 2 ^ 32).toNat >>> shift &&& 0xf) 0

/-- The loop of `write_hex`, the digit of `digits` first. -/
def writeHex (value : CodePoint) : (digits : Nat) → Sink UInt8 → Result (Sink UInt8)
  | 0 => .ok
  | digits + 1 => andThen (put (hexDigit value (digits * 4))) (writeHex value digits)

/-- What one turn of the loop of `write_escape` writes. -/
def writeCodePoint (codePoint : CodePoint) : Sink UInt8 → Result (Sink UInt8) :=
  let escaped := shortEscape codePoint
  if escaped ≠ 0 then andThen (put 0x5c) (put escaped)
  else if codePoint ≥ 32 && codePoint ≤ 126 then put (UInt8.ofNat codePoint.toNat)
  else if codePoint ≤ 0xffff then
    andThen (put 0x5c) (andThen (put 0x75) (writeHex codePoint 4))
  else andThen (put 0x5c) (andThen (put 0x55) (writeHex codePoint 8))

/-- The loop of `write_escape`, from `cursor` on. -/
def writeLoop (text : List UInt8) (cursor : Nat) (sink : Sink UInt8) : Result (Sink UInt8) :=
  if _ : cursor < text.length then
    let read := readCodePoint nextUnsafe text cursor
    (writeCodePoint read.1 sink).bind (writeLoop text read.2)
  else .ok sink
termination_by text.length - cursor
decreasing_by exact sub_readCodePoint (lt_nextUnsafe text cursor) ‹_›

/-- The escaped text, written from the start of the buffer. -/
def writeEscape (text output : List UInt8) : Result (List UInt8) :=
  (writeLoop text 0 ⟨output, 0⟩).map Sink.cells

/-! ## Reading escapes -/

/-- The digits `0` to `9`, `a` to `f` and `A` to `F`. -/
def hexValue (byte : UInt8) : Option Nat :=
  if 0x30 ≤ byte ∧ byte ≤ 0x39 then some (byte.toNat - 0x30)
  else if 0x61 ≤ byte ∧ byte ≤ 0x66 then some (byte.toNat - 0x61 + 10)
  else if 0x41 ≤ byte ∧ byte ≤ 0x46 then some (byte.toNat - 0x41 + 10)
  else none

/-- The number the first `digits` bytes spell. -/
def readHex : (digits value : Nat) → List UInt8 → Option Nat
  | 0, value, _ => some value
  | _ + 1, _, [] => none
  | digits + 1, value, byte :: rest =>
      (hexValue byte).bind fun digit => readHex digits (value * 16 + digit) rest

/-- The code point of a short escape. -/
def readShort (byte : UInt8) : Option Nat :=
  (shortEscapes.find? fun pair => pair.2 = byte).map fun pair => pair.1.toNat

/-- The code points some escapes stand for. -/
def unescape : List UInt8 → Option (List Nat)
  | [] => some []
  | byte :: rest =>
      if byte ≠ 0x5c then (unescape rest).map (byte.toNat :: ·)
      else match rest with
        | [] => none
        | kind :: rest =>
            if kind = 0x75 then
              (readHex 4 0 rest).bind fun value => (unescape (rest.drop 4)).map (value :: ·)
            else if kind = 0x55 then
              (readHex 8 0 rest).bind fun value => (unescape (rest.drop 8)).map (value :: ·)
            else (readShort kind).bind fun value => (unescape rest).map (value :: ·)
termination_by text => text.length
decreasing_by
  all_goals simp only [List.length_drop, List.length_cons]
  all_goals omega

/-- The text some escapes stand for. -/
def decodeEscapes (text : List UInt8) : Option (List UInt8) :=
  (unescape text).map fun values => values.flatMap encode

/-! ## One code point -/

/-- The last digits of a number, with zeros in front. -/
def hexDigits (value : CodePoint) : (digits : Nat) → List UInt8
  | 0 => []
  | digits + 1 => hexDigit value (digits * 4) :: hexDigits value digits

/-- The escape of a code point. -/
def escapeOf (codePoint : CodePoint) : List UInt8 :=
  if shortEscape codePoint ≠ 0 then [0x5c, shortEscape codePoint]
  else if codePoint ≥ 32 && codePoint ≤ 126 then [UInt8.ofNat codePoint.toNat]
  else if codePoint ≤ 0xffff then 0x5c :: 0x75 :: hexDigits codePoint 4
  else 0x5c :: 0x55 :: hexDigits codePoint 8

/-- A number is written with the digits asked for. -/
theorem length_hexDigits (value : CodePoint) (digits : Nat) :
    (hexDigits value digits).length = digits := by
  induction digits with
  | zero => rfl
  | succ digits ih => rw [hexDigits, List.length_cons, ih]

/-- The width announced is that of the escape. -/
theorem length_escapeOf (codePoint : CodePoint) :
    (escapeOf codePoint).length = escapedWidth codePoint := by
  unfold escapeOf escapedWidth
  split_ifs
  all_goals simp only [List.length_cons, List.length_nil, length_hexDigits]

theorem escapedWidth_le (codePoint : CodePoint) : escapedWidth codePoint ≤ rLenTMax := by
  unfold escapedWidth
  split_ifs <;> decide

/-- Writing a number writes its digits. -/
theorem writes_hex (value : CodePoint) (digits : Nat) :
    Writes (writeHex value digits) (hexDigits value digits) := by
  induction digits with
  | zero => exact writes_nothing
  | succ digits ih => exact (writes_put _).andThen ih

/-- Writing a code point writes its escape. -/
theorem writes_codePoint (codePoint : CodePoint) :
    Writes (writeCodePoint codePoint) (escapeOf codePoint) := by
  unfold writeCodePoint escapeOf
  dsimp only
  split_ifs
  · exact (writes_put _).andThen (writes_put _)
  · exact writes_put _
  · exact (writes_put _).andThen ((writes_put _).andThen (writes_hex codePoint 4))
  · exact (writes_put _).andThen ((writes_put _).andThen (writes_hex codePoint 8))

/-! ## Printable characters -/

/-- The byte is a visible ASCII character or a blank. -/
def isPrintable (byte : UInt8) : Prop := 0x20 ≤ byte ∧ byte ≤ 0x7e

instance (byte : UInt8) : Decidable (isPrintable byte) :=
  inferInstanceAs (Decidable (0x20 ≤ byte ∧ byte ≤ 0x7e))

theorem shortEscape_mem {codePoint : CodePoint} (hshort : shortEscape codePoint ≠ 0) :
    (codePoint, shortEscape codePoint) ∈ shortEscapes := by
  unfold shortEscape at hshort ⊢
  cases hlookup : shortEscapes.lookup codePoint with
  | none =>
      rw [hlookup] at hshort
      exact absurd rfl hshort
  | some name =>
      obtain ⟨front, rest, hsplit, -⟩ := List.lookup_eq_some_iff.mp hlookup
      rw [hsplit]
      exact List.mem_append_right _ List.mem_cons_self

/-- What a short escape looks like, and that it is the only one with its letter. -/
theorem shortEscapes_spec : ∀ pair ∈ shortEscapes,
    isPrintable pair.2 ∧ pair.2 ≠ 0x75 ∧ pair.2 ≠ 0x55 ∧ readShort pair.2 = some pair.1.toNat := by
  decide

theorem hexDigit_bits_lt (value : CodePoint) (shift : Nat) :
    (value % 2 ^ 32).toNat >>> shift &&& 0xf < 16 := Nat.lt_succ_of_le Nat.and_le_right

/-- A digit is printable. -/
theorem isPrintable_hexDigit (value : CodePoint) (shift : Nat) :
    isPrintable (hexDigit value shift) := by
  have hdigits : ∀ digit < 16, isPrintable (hex.getD digit 0) := by decide
  exact hdigits _ (hexDigit_bits_lt value shift)

theorem isPrintable_hexDigits (value : CodePoint) (digits : Nat) :
    ∀ byte ∈ hexDigits value digits, isPrintable byte := by
  induction digits with
  | zero => exact fun _ hmem => absurd hmem (List.not_mem_nil)
  | succ digits ih =>
      exact List.forall_mem_cons.mpr ⟨isPrintable_hexDigit value (digits * 4), ih⟩

/-- A printable code point is a byte of its own. -/
theorem toNat_printable {codePoint : CodePoint}
    (hplain : (codePoint ≥ 32 && codePoint ≤ 126) = true) :
    32 ≤ codePoint.toNat ∧ codePoint.toNat ≤ 126 ∧
      (UInt8.ofNat codePoint.toNat).toNat = codePoint.toNat := by
  simp only [ge_iff_le, Bool.and_eq_true, decide_eq_true_eq] at hplain
  have hlow : 32 ≤ codePoint.toNat := Int.toNat_le_toNat hplain.1
  have hhigh : codePoint.toNat ≤ 126 := Int.toNat_le_toNat hplain.2
  refine ⟨hlow, hhigh, ?_⟩
  rw [UInt8.toNat_ofNat']
  exact Nat.mod_eq_of_lt (Nat.lt_of_le_of_lt hhigh (by decide))

/-- An escape is printable. -/
theorem isPrintable_escapeOf (codePoint : CodePoint) :
    ∀ byte ∈ escapeOf codePoint, isPrintable byte := by
  have hbackslash : isPrintable 0x5c := by decide
  have hshortU : isPrintable 0x75 := by decide
  have hlongU : isPrintable 0x55 := by decide
  unfold escapeOf
  split_ifs with hshort hplain hbmp
  · have hname := (shortEscapes_spec _ (shortEscape_mem hshort)).1
    exact List.forall_mem_cons.mpr ⟨hbackslash, List.forall_mem_singleton.mpr hname⟩
  · obtain ⟨hlow, hhigh, hbyte⟩ := toNat_printable hplain
    intro byte hmem
    rw [List.mem_singleton.mp hmem, isPrintable, UInt8.le_iff_toNat_le, UInt8.le_iff_toNat_le,
      hbyte]
    exact ⟨hlow, hhigh⟩
  · exact List.forall_mem_cons.mpr ⟨hbackslash,
      List.forall_mem_cons.mpr ⟨hshortU, isPrintable_hexDigits codePoint 4⟩⟩
  · exact List.forall_mem_cons.mpr ⟨hbackslash,
      List.forall_mem_cons.mpr ⟨hlongU, isPrintable_hexDigits codePoint 8⟩⟩

/-! ## Reading an escape -/

/-- A digit is read back. -/
theorem hexValue_hexDigit (value : CodePoint) (digits : Nat) :
    hexValue (hexDigit value (digits * 4)) =
      some ((value % 2 ^ 32).toNat / 16 ^ digits % 16) := by
  have hdigits : ∀ digit < 16, hexValue (hex.getD digit 0) = some digit := by decide
  rw [hexDigit, hdigits _ (hexDigit_bits_lt value (digits * 4)),
    show (0xf : Nat) = 2 ^ 4 - 1 by rfl, Nat.and_two_pow_sub_one_eq_mod, Nat.shiftRight_eq_div_pow,
    Nat.mul_comm, Nat.pow_mul]

theorem readHex_hexDigits (value : CodePoint) (digits acc : Nat) (rest : List UInt8) :
    readHex digits acc (hexDigits value digits ++ rest) =
      some (acc * 16 ^ digits + (value % 2 ^ 32).toNat % 16 ^ digits) := by
  induction digits generalizing acc with
  | zero => simp [readHex, Nat.mod_one]
  | succ digits ih =>
      rw [hexDigits, List.cons_append, readHex, hexValue_hexDigit, Option.bind_some, ih,
        Nat.mod_pow_succ]
      ring_nf

/-- Where all digits of a code point are written, the code point is read. -/
theorem readHex_codePoint {codePoint : CodePoint} {digits : Nat} (hnonneg : 0 ≤ codePoint)
    (hlt : codePoint.toNat < 16 ^ digits) (hdigits : digits ≤ 8) (rest : List UInt8) :
    readHex digits 0 (hexDigits codePoint digits ++ rest) = some codePoint.toNat := by
  have hpow : 16 ^ digits ≤ 16 ^ 8 := Nat.pow_le_pow_right (by decide) hdigits
  have hwidth : codePoint % 2 ^ 32 = codePoint := by
    apply Int.emod_eq_of_lt hnonneg
    omega
  rw [readHex_hexDigits, hwidth, Nat.mod_eq_of_lt hlt, Nat.zero_mul, Nat.zero_add]

/-- A byte that is no backslash stands for itself. -/
theorem unescape_plain {byte : UInt8} (hplain : byte ≠ 0x5c) (rest : List UInt8) :
    unescape (byte :: rest) = (unescape rest).map (byte.toNat :: ·) := by
  rw [unescape.eq_def]
  exact if_pos hplain

/-- What stands behind a backslash. -/
theorem unescape_backslash (kind : UInt8) (rest : List UInt8) :
    unescape (0x5c :: kind :: rest) =
      if kind = 0x75 then
        (readHex 4 0 rest).bind fun value => (unescape (rest.drop 4)).map (value :: ·)
      else if kind = 0x55 then
        (readHex 8 0 rest).bind fun value => (unescape (rest.drop 8)).map (value :: ·)
      else (readShort kind).bind fun value => (unescape rest).map (value :: ·) := by
  rw [unescape.eq_def]
  exact if_neg (not_not_intro rfl)

/-- The escape of a code point ends where the next one begins. -/
theorem unescape_escapeOf {codePoint : CodePoint} (hnonneg : 0 ≤ codePoint)
    (hlt : codePoint.toNat < 0x110000) (rest : List UInt8) :
    unescape (escapeOf codePoint ++ rest) = (unescape rest).map (codePoint.toNat :: ·) := by
  have hbehind : ∀ digits, (hexDigits codePoint digits ++ rest).drop digits = rest := by
    intro digits
    exact List.drop_left' (length_hexDigits codePoint digits)
  unfold escapeOf
  split_ifs with hshort hplain hbmp
  · obtain ⟨-, hnotU, hnotLong, hread⟩ := shortEscapes_spec _ (shortEscape_mem hshort)
    simp only at hnotU hnotLong hread
    rw [List.cons_append, List.cons_append, List.nil_append, unescape_backslash, if_neg hnotU,
      if_neg hnotLong, hread, Option.bind_some]
  · obtain ⟨hlow, hhigh, hbyte⟩ := toNat_printable hplain
    have hnotBackslash : UInt8.ofNat codePoint.toNat ≠ 0x5c := by
      intro heq
      rw [heq] at hbyte
      have hcode : codePoint = 0x5c := by
        rw [← Int.toNat_of_nonneg hnonneg, ← hbyte]
        rfl
      rw [hcode] at hshort
      exact hshort (by decide)
    rw [List.singleton_append, unescape_plain hnotBackslash, hbyte]
  · have hsmall : codePoint.toNat < 16 ^ 4 := by
      have hle : codePoint.toNat ≤ 0xffff := Int.toNat_le_toNat hbmp
      exact Nat.lt_succ_of_le hle
    rw [List.cons_append, List.cons_append, unescape_backslash, if_pos rfl,
      readHex_codePoint hnonneg hsmall (by decide), Option.bind_some, hbehind]
  · have hsmall : codePoint.toNat < 16 ^ 8 := hlt.trans (by decide)
    rw [List.cons_append, List.cons_append, unescape_backslash, if_neg (by decide), if_pos rfl,
      readHex_codePoint hnonneg hsmall (by decide), Option.bind_some, hbehind]

/-! ## The loops -/

/-- The escapes of the code points in some tokens. -/
def escapesOf (list : List Token) : List UInt8 := list.flatMap fun token => escapeOf token.codePoint

/-- The escapes of a text. -/
def escapeText (text : List UInt8) : List UInt8 := escapesOf (tokens text)

theorem readCodePoint_next (text : List UInt8) (cursor : Nat) :
    readCodePoint next text cursor = next text cursor := by
  unfold readCodePoint
  dsimp only
  split
  next hlow =>
    have hsingle : isSingle (byteAt text cursor) = true := decide_eq_true (Nat.lt_succ_of_le hlow)
    simp only [next, hsingle, if_true]
  next => rfl

/-- On complete code points the unchecked reader reads the same. -/
theorem readCodePoint_nextUnsafe {text : List UInt8} {cursor : Nat} (hcursor : cursor < text.length)
    (hcomplete : (next text cursor).1 ≠ sentinel) :
    readCodePoint nextUnsafe text cursor = next text cursor := by
  rw [← readCodePoint_next text cursor]
  unfold readCodePoint
  rw [nextUnsafe_eq hcursor hcomplete]

section Loops

variable {text : List UInt8} {list : List Token} {cursor : Nat}

/-- The loop of the sizes adds up, up to the limit. -/
theorem escapedSizeLoop_eq (hdrop : tokens (text.drop cursor) = list) (hlist : AreCodePoints list)
    {outputSize : Nat} (hsize : outputSize ≤ rLenTMax) :
    escapedSizeLoop text cursor outputSize =
      if outputSize + (escapesOf list).length ≤ rLenTMax then
        .ok (outputSize + (escapesOf list).length)
      else .error tooLong := by
  induction list generalizing cursor outputSize with
  | nil =>
      have hend : ¬ cursor < text.length := by
        rw [tokens_eq_nil, List.drop_eq_nil_iff] at hdrop
        exact Nat.not_lt.mpr hdrop
      rw [escapedSizeLoop, dif_neg hend]
      exact (if_pos hsize).symm
  | cons token rest ih =>
      obtain ⟨⟨htoken, hcomplete⟩, hrest⟩ := List.forall_mem_cons.mp hlist
      obtain ⟨hcursor, hnext, hbehind⟩ := next_drop hdrop
      have hnonneg : ¬ token.codePoint < 0 := Int.not_lt.mpr (codePoint_nonneg htoken hcomplete)
      have hlength : (escapesOf (token :: rest)).length =
          escapedWidth token.codePoint + (escapesOf rest).length := by
        rw [escapesOf, List.flatMap_cons, List.length_append, length_escapeOf]
        rfl
      rw [escapedSizeLoop, dif_pos hcursor]
      simp only [readCodePoint_next, hnext, hnonneg, if_false]
      rw [hlength, ← Nat.add_assoc]
      split
      next hover =>
        rw [if_neg]
        omega
      next hroom =>
        have hwidth := escapedWidth_le token.codePoint
        apply ih hbehind hrest
        omega

/-- The loop writes the escapes of the code points. -/
theorem writes_writeLoop (hdrop : tokens (text.drop cursor) = list) (hlist : AreCodePoints list) :
    Writes (writeLoop text cursor) (escapesOf list) := by
  induction list generalizing cursor with
  | nil =>
      have hend : ¬ cursor < text.length := by
        rw [tokens_eq_nil, List.drop_eq_nil_iff] at hdrop
        exact Nat.not_lt.mpr hdrop
      have hloop : writeLoop text cursor = (.ok : Sink UInt8 → Result (Sink UInt8)) := by
        funext sink
        rw [writeLoop, dif_neg hend]
      exact hloop ▸ writes_nothing
  | cons token rest ih =>
      obtain ⟨⟨htoken, hcomplete⟩, hrest⟩ := List.forall_mem_cons.mp hlist
      obtain ⟨hcursor, hnext, hbehind⟩ := next_drop hdrop
      have hloop : writeLoop text cursor = andThen (writeCodePoint token.codePoint)
          (writeLoop text (cursor + token.bytes.length)) := by
        funext sink
        rw [writeLoop, dif_pos hcursor, readCodePoint_nextUnsafe hcursor (by rwa [hnext]), hnext]
        rfl
      rw [hloop]
      exact (writes_codePoint token.codePoint).andThen (ih hbehind hrest)

end Loops

/-- The escapes are read back. -/
theorem unescape_escapesOf {list : List Token} (hlist : AreCodePoints list) :
    unescape (escapesOf list) = some (list.map fun token => token.codePoint.toNat) := by
  induction list with
  | nil => exact unescape.eq_def []
  | cons token rest ih =>
      obtain ⟨⟨htoken, hcomplete⟩, hrest⟩ := List.forall_mem_cons.mp hlist
      obtain ⟨hsequence, hdecode⟩ := isSequence_bytes htoken hcomplete
      have hlt : token.codePoint.toNat < 0x110000 := by
        rw [hdecode]
        exact decode_lt hsequence
      rw [escapesOf, List.flatMap_cons, unescape_escapeOf (codePoint_nonneg htoken hcomplete) hlt]
      rw [← escapesOf, ih hrest]
      rfl

/-- What was escaped is the text that the escapes stand for. -/
theorem decodeEscapes_escapesOf {list : List Token} (hlist : AreCodePoints list) :
    decodeEscapes (escapesOf list) = some (tokenBytes list) := by
  rw [decodeEscapes, unescape_escapesOf hlist, Option.map_some, List.flatMap_map, tokenBytes]
  congr 1
  apply List.flatMap_congr
  intro token hmem
  obtain ⟨hsequence, hdecode⟩ := isSequence_bytes (hlist token hmem).1 (hlist token hmem).2
  rw [hdecode]
  exact encode_decode hsequence

/-! ## The whole text -/

/-- What is asked of escaping a text. -/
structure Escapes (text escaped : List UInt8) : Prop where
  /-- The size is that of the escapes, unless it is too much for a string. -/
  size : escapedSize text =
    if escaped.length ≤ rLenTMax then .ok escaped.length else .error tooLong
  /-- They are written to the start of any buffer that has room for them. -/
  writes : ∀ output : List UInt8, escaped.length ≤ output.length →
    writeEscape text output = .ok (escaped ++ output.drop escaped.length)
  printable : ∀ byte ∈ escaped, isPrintable byte
  decodes : decodeEscapes escaped = some text

/-- A well-formed text is escaped into printable ASCII of the size announced, which reads
back as the text and as no other. -/
theorem writeEscape_escapes (text : List UInt8) (hwell : WellFormed text) :
    Escapes text (escapeText text) ∧
      ∀ other, WellFormed other → escapeText other = escapeText text → other = text := by
  have hdecodes : ∀ text, WellFormed text → decodeEscapes (escapeText text) = some text := by
    intro text hwell
    rw [escapeText, decodeEscapes_escapesOf hwell.areCodePoints, tokenBytes_tokens]
  have hstart : tokens (text.drop 0) = tokens text := rfl
  refine ⟨⟨?_, fun output houtput => ?_, ?_, hdecodes text hwell⟩, fun other hother heq => ?_⟩
  · rw [escapedSize, escapedSizeLoop_eq hstart hwell.areCodePoints (Nat.zero_le _), Nat.zero_add]
    rfl
  · have hwrites : Writes (writeLoop text 0) (escapeText text) :=
      writes_writeLoop hstart hwell.areCodePoints
    rw [writeEscape, hwrites.front output houtput]
    rfl
  · intro byte hmem
    obtain ⟨token, -, hbyte⟩ := List.mem_flatMap.mp hmem
    exact isPrintable_escapeOf token.codePoint byte hbyte
  · have hread := hdecodes other hother
    rw [heq, hdecodes text hwell] at hread
    exact (Option.some.inj hread).symm

/-- A letter, a quote, a line break, and code points of two and of four bytes. -/
def mixedText : List UInt8 := [0x61, 0x27, 0x0a, 0xc3, 0xa9, 0xf0, 0x9f, 0x98, 0x80]

theorem writeEscape_escapes_mixed :
    WellFormed mixedText ∧ (Escapes mixedText (escapeText mixedText) ∧
      ∀ other, WellFormed other → escapeText other = escapeText mixedText → other = mixedText) := by
  have hwell : WellFormed mixedText :=
    ⟨[[0x61], [0x27], [0x0a], [0xc3, 0xa9], [0xf0, 0x9f, 0x98, 0x80]], rfl, by simp; decide⟩
  exact ⟨hwell, writeEscape_escapes mixedText hwell⟩

end Charr.Escape
