import Charr.Text.StringView
import Charr.Text.Tokens

/-!
# Subjects in UTF-16

ICU matches UTF-16 text, and its matches are reported as byte ranges of the UTF-8
subject. The conversion with a table of byte offsets and the one without it yield
the same text.
-/

namespace Charr.RegexSearch

open Utf8

/-- What leaves a call as an exception. -/
inductive Thrown where
  | native (error : NativeError)
  | badAlloc
  deriving DecidableEq, Repr

/-- The status codes of ICU; failures are above zero. -/
abbrev UErrorCode := Int

/-- `U_ZERO_ERROR` -/
def zeroError : UErrorCode := 0
/-- `U_ILLEGAL_ARGUMENT_ERROR` -/
def illegalArgumentError : UErrorCode := 1
/-- `U_MEMORY_ALLOCATION_ERROR` -/
def memoryAllocationError : UErrorCode := 7
/-- `U_INDEX_OUTOFBOUNDS_ERROR` -/
def indexOutOfBoundsError : UErrorCode := 8

/-- `U_FAILURE` -/
def failed (status : UErrorCode) : Bool := 0 < status

/-- The allocator and the ICU conversion. A world is how they behave during one call. -/
structure Platform (World : Type) where
  /-- `getBuffer` returned a buffer of this capacity. -/
  getBuffer : World → Nat → Bool
  /-- The offset table could be resized to this length. -/
  resizeOffsets : World → Nat → Bool
  /-- `u_strFromUTF8WithSub` with U+FFFD -/
  strFromUtf8WithSub : World → List UInt8 → List UInt16 × UErrorCode

/-- `U8_NEXT_OR_FFFD` -/
def orReplacement (codePoint : CodePoint) : Nat :=
  if codePoint < 0 then 0xfffd else codePoint.toNat

/-- A code point as UTF-16: itself, or `U16_LEAD` and `U16_TRAIL`. -/
def codePointUnits (codePoint : Nat) : List UInt16 :=
  if codePoint ≤ 0xffff then [UInt16.ofNat codePoint]
  else [UInt16.ofNat ((codePoint >>> 10) + 0xd7c0), UInt16.ofNat ((codePoint &&& 0x3ff) ||| 0xdc00)]

/-- The cached text of a matcher, its offset table, and whether bytes are units. -/
structure SubjectCache where
  units : List UInt16
  byteOffsets : List Int
  ascii : Bool
  deriving DecidableEq, Repr

/-- What both conversions check of a view. -/
def checkView (source : StringView) : Except Thrown Unit :=
  if source.len < 0 ∨ (source.isNull ∧ source.len ≠ 0) then
    .error (.native (.invalidArgument "invalid regex input string view"))
  else if source.enc ≠ .ascii ∧ source.enc ≠ .utf8 ∧ source.enc ≠ .asciiOrUtf8 then
    .error (.native (.invalidArgument "regex input must be normalized to UTF-8"))
  else .ok ()

/-- Whether every position of the subject is a byte, so that no offsets are kept. -/
def isAscii (source : StringView) : Bool :=
  if source.enc = .ascii then true
  else if source.enc ≠ .asciiOrUtf8 then false
  else source.bytes.all fun byte => byte ≤ 0x7f

/-- Bytes as UTF-16 units. -/
def widen (bytes : List UInt8) : List UInt16 := bytes.map UInt8.toUInt16

section Conversions

variable {World : Type} (platform : Platform World) (world : World)

/-- The text after `set_utf16`, and whether it returned. -/
def setUtf16 (output : List UInt16) (source : StringView) : List UInt16 × Except Thrown Unit :=
  match checkView source with
  | .error error => (output, .error error)
  | .ok () =>
      if source.len = 0 then ([], .ok ())
      else if !platform.getBuffer world source.len.toNat then ([], .error .badAlloc)
      else if source.enc = .ascii then (widen source.bytes, .ok ())
      else
        let converted := platform.strFromUtf8WithSub world source.bytes
        if failed converted.2 then
          (converted.1, .error (.native (.runtimeError "regex UTF-8 conversion failed")))
        else (converted.1, .ok ())

/-- The loop over the code points of a subject. Every one moves at least one byte
forward, so the fuel is its length. -/
def convertLoop (text : List UInt8) :
    (fuel sourceIndex : Nat) → List UInt16 × List Int → List UInt16 × List Int
  | 0, _, converted => converted
  | fuel + 1, sourceIndex, (units, offsets) =>
      if sourceIndex < text.length then
        let (codePoint, sourceNext) := next text sourceIndex
        if orReplacement codePoint ≤ 0xffff then
          convertLoop text fuel sourceNext
            (units ++ codePointUnits (orReplacement codePoint), offsets ++ [(sourceNext : Int)])
        else
          convertLoop text fuel sourceNext
            (units ++ codePointUnits (orReplacement codePoint),
              offsets ++ [(sourceIndex : Int), (sourceNext : Int)])
      else (units, offsets)

/-- The cache after `set_utf16_with_offsets`, and whether it returned. -/
def setUtf16WithOffsets (cache : SubjectCache) (source : StringView) :
    SubjectCache × Except Thrown Unit :=
  match checkView source with
  | .error error => (cache, .error error)
  | .ok () =>
      let size := source.len.toNat
      let cache := { cache with ascii := isAscii source }
      if source.len = 0 then ({ cache with units := [], byteOffsets := [0] }, .ok ())
      else if !cache.ascii && !platform.resizeOffsets world (size + 1) then
        (cache, .error .badAlloc)
      else
        let resized := cache.byteOffsets.take (size + 1) ++
          List.replicate (size + 1 - cache.byteOffsets.length) 0
        let cache := if cache.ascii then cache else { cache with byteOffsets := resized.set 0 0 }
        if !platform.getBuffer world size then ({ cache with units := [] }, .error .badAlloc)
        else if cache.ascii then
          ({ cache with units := widen source.bytes, byteOffsets := [] }, .ok ())
        else
          let converted := convertLoop source.bytes source.bytes.length 0 ([], [0])
          ({ cache with units := converted.1, byteOffsets := converted.2 }, .ok ())

end Conversions

/-! ## What a subject converts to -/

/-- The UTF-16 text of UTF-8 bytes, with U+FFFD for every ill-formed subsequence. -/
def utf16 (text : List UInt8) : List UInt16 :=
  (tokens text).flatMap fun token => codePointUnits (orReplacement token.codePoint)

/-- The byte behind every unit of a token; the first of two units is not behind any. -/
def tokenOffsets (start : Nat) : List Token → List Int
  | [] => []
  | token :: rest =>
      let stop := start + token.bytes.length
      (if orReplacement token.codePoint ≤ 0xffff then [(stop : Int)]
        else [(start : Int), (stop : Int)]) ++
        tokenOffsets stop rest

/-- The subject in UTF-16. -/
def subjectUnits (source : StringView) : List UInt16 :=
  if source.enc = .ascii then widen source.bytes else utf16 source.bytes

/-- The byte where each unit begins, and the end; none for an ASCII subject. -/
def subjectOffsets (source : StringView) : List Int :=
  if source.len = 0 then [0]
  else if isAscii source then []
  else 0 :: tokenOffsets 0 (tokens source.bytes)

section Laws

theorem codePointUnits_ascii {byte : UInt8} (hbyte : byte ≤ 0x7f) :
    codePointUnits (orReplacement (byte.toNat : CodePoint)) = [byte.toUInt16] := by
  have hlt : byte.toNat ≤ 0x7f := UInt8.le_iff_toNat_le.mp hbyte
  have hcode : orReplacement (byte.toNat : CodePoint) = byte.toNat := by
    simp [orReplacement]
  rw [hcode, codePointUnits, if_pos (by omega), UInt16.ofNat_uInt8ToNat]

/-- ASCII text is widened. -/
theorem utf16_ascii {text : List UInt8} (hascii : ∀ byte ∈ text, byte ≤ 0x7f) :
    utf16 text = widen text := by
  have hbelow : ∀ byte ∈ text, byte < 0x80 := by
    intro byte hmem
    have := UInt8.le_iff_toNat_le.mp (hascii byte hmem)
    exact UInt8.lt_iff_toNat_lt.mpr (Nat.lt_succ_of_le this)
  rw [utf16, tokens_ascii hbelow, widen, List.flatMap_map]
  induction text with
  | nil => rfl
  | cons byte rest ih =>
      rw [List.flatMap_cons, List.map_cons,
        codePointUnits_ascii (hascii byte List.mem_cons_self),
        ih (fun other hmem => hascii other (List.mem_cons_of_mem _ hmem))
          (fun other hmem => hbelow other (List.mem_cons_of_mem _ hmem))]
      rfl

/-- ASCII bytes are their own UTF-16 units, whatever the view says of its encoding. -/
theorem subjectUnits_of_isAscii {source : StringView} (hascii : isAscii source) :
    subjectUnits source = widen source.bytes := by
  unfold subjectUnits
  split
  next => rfl
  next henc =>
    apply utf16_ascii
    unfold isAscii at hascii
    rw [if_neg henc] at hascii
    split at hascii
    next => exact absurd hascii Bool.false_ne_true
    next => simpa using hascii

/-- The loop converts what is left of the text, with the offsets of its units. -/
theorem convertLoop_eq (text : List UInt8) {fuel index : Nat} (hfuel : text.length - index ≤ fuel)
    (units : List UInt16) (offsets : List Int) :
    convertLoop text fuel index (units, offsets) =
      (units ++ utf16 (text.drop index),
        offsets ++ tokenOffsets index (tokens (text.drop index))) := by
  induction fuel generalizing index units offsets with
  | zero =>
      rw [List.drop_eq_nil_of_le (by omega)]
      simp [convertLoop, utf16, tokenOffsets]
  | succ fuel ih =>
      rw [convertLoop]
      split
      next hindex =>
        have hne : text.drop index ≠ [] := by
          rw [Ne, List.drop_eq_nil_iff]
          omega
        have hforward := one_le_next_snd (text.drop index)
        have hle := next_snd_le hne
        rw [next_eq_drop text hindex, utf16, tokens_eq_cons hne, List.drop_drop]
        simp only
        have hrest : text.length - (index + (next (text.drop index) 0).2) ≤ fuel := by omega
        have hlength : ((text.drop index).take (next (text.drop index) 0).2).length =
            (next (text.drop index) 0).2 := List.length_take_of_le hle
        split
        next hsmall =>
          rw [ih hrest]
          simp [utf16, tokenOffsets, hsmall, hlength]
        next hlarge =>
          rw [ih hrest]
          simp [utf16, tokenOffsets, hlarge, hlength]
      next hindex =>
        rw [List.drop_eq_nil_of_le (by omega)]
        simp [utf16, tokenOffsets]

variable {World : Type} {platform : Platform World} {world : World}

/-- `u_strFromUTF8WithSub` reads code points as `U8_NEXT` does. -/
def Platform.Converts (platform : Platform World) : Prop :=
  ∀ world text, failed (platform.strFromUtf8WithSub world text).2 = false →
    (platform.strFromUtf8WithSub world text).1 = utf16 text

theorem subjectUnits_of_len_zero {source : StringView} (hlen : source.len = 0) :
    subjectUnits source = [] := by
  rw [subjectUnits, StringView.bytes_of_len_zero hlen, utf16, tokens_nil]
  split <;> rfl

/-- What is set is the subject in UTF-16. -/
theorem setUtf16_ok (hconverts : platform.Converts) {output units : List UInt16}
    {source : StringView} (hset : setUtf16 platform world output source = (units, .ok ())) :
    units = subjectUnits source := by
  unfold setUtf16 at hset
  split at hset
  next => simp at hset
  next =>
    split at hset
    next hlen =>
      obtain ⟨rfl, _⟩ := Prod.mk.inj hset
      exact (subjectUnits_of_len_zero hlen).symm
    next =>
      split at hset
      next => simp at hset
      next =>
        split at hset
        next henc =>
          obtain ⟨rfl, _⟩ := Prod.mk.inj hset
          rw [subjectUnits, if_pos henc]
        next henc =>
          simp only at hset
          split at hset
          next => simp at hset
          next hstatus =>
            obtain ⟨rfl, _⟩ := Prod.mk.inj hset
            rw [subjectUnits, if_neg henc]
            exact hconverts world source.bytes (by simpa using hstatus)

/-- The loop converts the text and notes where each unit begins. -/
theorem convertLoop_text (text : List UInt8) :
    convertLoop text text.length 0 ([], [0]) = (utf16 text, 0 :: tokenOffsets 0 (tokens text)) := by
  rw [convertLoop_eq text (Nat.sub_le text.length 0)]
  rfl

/-- What is set with offsets is the subject with its offsets. -/
theorem setUtf16WithOffsets_ok {cache converted : SubjectCache} {source : StringView}
    (hset : setUtf16WithOffsets platform world cache source = (converted, .ok ())) :
    converted = ⟨subjectUnits source, subjectOffsets source, isAscii source⟩ := by
  unfold setUtf16WithOffsets at hset
  split at hset
  next => simp at hset
  next =>
    simp only at hset
    split at hset
    next hlen =>
      obtain ⟨rfl, _⟩ := Prod.mk.inj hset
      rw [subjectUnits_of_len_zero hlen, subjectOffsets, if_pos hlen]
    next hlen =>
      split at hset
      next => simp at hset
      next =>
        split at hset
        next => simp at hset
        next =>
          cases hascii : isAscii source with
          | true =>
              rw [hascii] at hset
              obtain ⟨rfl, _⟩ := Prod.mk.inj hset
              rw [subjectUnits_of_isAscii hascii, subjectOffsets, if_neg hlen, if_pos hascii]
              rfl
          | false =>
              have henc : source.enc ≠ .ascii := by
                intro henc
                rw [isAscii, if_pos henc] at hascii
                exact Bool.noConfusion hascii
              rw [hascii, convertLoop_text] at hset
              obtain ⟨rfl, _⟩ := Prod.mk.inj hset
              rw [subjectUnits, if_neg henc, subjectOffsets, if_neg hlen, hascii]
              rfl

end Laws

end Charr.RegexSearch
