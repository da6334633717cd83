import Charr.Output.Record
import Charr.Text.StringView

/-!
# Writing replacements

Ranges of a subject are replaced by copies of one string. The size of the result
is checked before it is allocated, the ranges are checked before they are copied
around, and the writer checks once more that it filled what it was given.
-/

namespace Charr.FixedSearch

/-! ## Checks -/

/-- The error of a result that would not fit in an R string. -/
def charsxpLimit : NativeError :=
  .lengthError "Elements of character vectors (CHARSXPs) are limited to 2^31-1 bytes"

/-- The marks that a normalized value can have. -/
def normalizedEncoding (enc : StringEncoding) : Bool :=
  enc = .ascii ∨ enc = .utf8 ∨ enc = .asciiOrUtf8

/-- Both views must be there, and normalized. -/
def validateInputs (subject replacement : StringView) : Except NativeError Unit :=
  if subject.isNa ∨ replacement.isNa then
    .error (.invalidArgument "replacement requires non-missing input")
  else if subject.len < 0 ∨ replacement.len < 0 then
    .error (.invalidArgument "replacement input has negative length")
  else if subject.isNull ∨ replacement.isNull then
    .error (.invalidArgument "replacement input data is null")
  else if !(normalizedEncoding subject.enc && normalizedEncoding replacement.enc) then
    .error (.invalidArgument "replacement requires normalized UTF-8 input")
  else .ok ()

/-- The ranges follow each other within the subject; the bytes they cover. -/
def validateRanges (subjectLength : Int) :
    Int → Nat → List ByteRange → Except NativeError Nat
  | _, matched, [] => .ok matched
  | previous, matched, range :: rest =>
      if range.start < previous ∨ range.start < 0 ∨ range.stop ≤ range.start ∨
          range.stop > subjectLength then
        .error (.outOfRange "replacement range is out of bounds")
      else
        let width := toSize (range.stop - range.start)
        if width > sizeMax - matched then .error (.lengthError "matched byte count overflow")
        else validateRanges subjectLength range.stop (matched + width) rest

/-- The size of the result, which fits an R string. -/
def checkedReplacementSize (subject : StringView) (matchedBytes : Nat) (ranges : List ByteRange)
    (replacement : StringView) : Except NativeError { size : Nat // size ≤ intMax } := do
  validateInputs subject replacement
  let subjectSize := toSize subject.len
  if matchedBytes > subjectSize then
    .error (.invalidArgument "matched byte count exceeds the subject")
  else
    let unmatchedBytes := subjectSize - matchedBytes
    let replacementSize := toSize replacement.len
    if replacementSize > 0 ∧
        ranges.length > (sizeMax - unmatchedBytes) / replacementSize then
      .error charsxpLimit
    else if hsize : unmatchedBytes + ranges.length * replacementSize ≤ intMax then
      .ok ⟨unmatchedBytes + ranges.length * replacementSize, hsize⟩
    else .error charsxpLimit

/-! ## The result -/

/-- The subject from `previous` on, with the ranges replaced. -/
def splice (subject replacement : List UInt8) : Int → List ByteRange → List UInt8
  | previous, [] => subject.drop previous.toNat
  | previous, range :: rest =>
      (subject.drop previous.toNat).take (range.start - previous).toNat ++ replacement ++
        splice subject replacement range.stop rest

/-- The bytes left in the buffer, which are as many as its size. -/
def writeReplacement (subject : StringView) (ranges : List ByteRange) (replacement : StringView)
    (output : Option Nat) (outputSize : Nat) :
    Except NativeError { bytes : List UInt8 // bytes.length = outputSize } := do
  validateInputs subject replacement
  let matchedBytes ← validateRanges subject.len 0 0 ranges
  let expectedSize ← checkedReplacementSize subject matchedBytes ranges replacement
  if outputSize ≠ expectedSize.1 then .error (.lengthError "replacement buffer size mismatch")
  else if outputSize > 0 ∧ output.isNone then
    .error (.invalidArgument "replacement output buffer is null")
  else
    if hused : (splice subject.bytes replacement.bytes 0 ranges).length = outputSize then
      .ok ⟨splice subject.bytes replacement.bytes 0 ranges, hused⟩
    else .error (.logicError "replacement writer size mismatch")

/-- Whether the subject is ASCII outside the ranges, from `previous` on. -/
def gapsAscii (subject : List UInt8) : Int → List ByteRange → Bool
  | previous, [] => spanIsAscii (subject.drop previous.toNat)
  | previous, range :: rest =>
      spanIsAscii ((subject.drop previous.toNat).take (range.start - previous).toNat) &&
        gapsAscii subject range.stop rest

/-- Whether the result is ASCII: the gaps are, and the replacement if it is written. -/
def replacementIsAscii (subject : StringView) (ranges : List ByteRange)
    (replacement : StringView) : Except NativeError Bool := do
  validateInputs subject replacement
  let _ ← validateRanges subject.len 0 0 ranges
  return gapsAscii subject.bytes 0 ranges && (ranges.isEmpty || spanIsAscii replacement.bytes)

/-! ## Independence of the place -/

section Unplaced

variable (subject replacement : StringView) (ranges : List ByteRange)

@[simp] theorem validateInputs_unplaced :
    validateInputs subject.unplaced replacement = validateInputs subject replacement := by
  simp [validateInputs]

@[simp] theorem checkedReplacementSize_unplaced (matchedBytes : Nat) :
    checkedReplacementSize subject.unplaced matchedBytes ranges replacement =
      checkedReplacementSize subject matchedBytes ranges replacement := by
  simp [checkedReplacementSize]

@[simp] theorem replacementIsAscii_unplaced :
    replacementIsAscii subject.unplaced ranges replacement =
      replacementIsAscii subject ranges replacement := by
  simp [replacementIsAscii]

@[simp] theorem writeReplacement_unplaced (output : Option Nat) (outputSize : Nat) :
    writeReplacement subject.unplaced ranges replacement output outputSize =
      writeReplacement subject ranges replacement output outputSize := by
  simp [writeReplacement]

end Unplaced

end Charr.FixedSearch
