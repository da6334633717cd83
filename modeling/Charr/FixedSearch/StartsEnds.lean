import Charr.FixedSearch.CountDetect

/-!
# Prefixes and suffixes

Whether a string starts or ends with a fixed pattern, counted from a code point
of the string. A scalar pattern at the default position has a direct kernel that
reads the records as they are stored; everything else goes through the general
body.
-/

namespace Charr.FixedSearch

open Utf8 (CodePoint)

/-! ## Comparing at a byte -/

section Compare

variable (toUpper : CodePoint → CodePoint)

/-- Compare code point by code point, as far as the pattern goes. -/
def startsWithLoop (subject pattern : List UInt8) : Nat → Nat → Nat → Bool
  | 0, _, _ => true
  | fuel + 1, subjectIndex, patternIndex =>
      if patternIndex < pattern.length then
        if subjectIndex ≥ subject.length then false
        else
          let (subjectCodePoint, subjectIndex) := Utf8.next subject subjectIndex
          let (patternCodePoint, patternIndex) := Utf8.next pattern patternIndex
          if toUpper subjectCodePoint ≠ toUpper patternCodePoint then false
          else startsWithLoop subject pattern fuel subjectIndex patternIndex
      else true

/-- Whether the pattern begins at the byte. -/
def fixedStartsWith (subject : StringView) (byteIndex : Int) (pattern : StringView)
    (caseInsensitive : Bool) : Bool :=
  if byteIndex < 0 ∨ byteIndex > subject.len ∨ pattern.len ≤ 0 ∨ subject.isNull ∨
      pattern.isNull then false
  else if !caseInsensitive then
    pattern.len ≤ subject.len - byteIndex &&
      memequal (subject.bytes.drop byteIndex.toNat) pattern.bytes pattern.len.toNat
  else
    startsWithLoop toUpper subject.bytes pattern.bytes pattern.bytes.length byteIndex.toNat 0

/-- The same from the back of the pattern on. -/
def endsWithLoop (subject pattern : List UInt8) : Nat → Nat → Nat → Bool
  | 0, _, _ => true
  | fuel + 1, subjectIndex, patternIndex =>
      if patternIndex > 0 then
        if subjectIndex ≤ 0 then false
        else
          let (subjectCodePoint, subjectIndex) := Utf8.prev subject subjectIndex
          let (patternCodePoint, patternIndex) := Utf8.prev pattern patternIndex
          if toUpper subjectCodePoint ≠ toUpper patternCodePoint then false
          else endsWithLoop subject pattern fuel subjectIndex patternIndex
      else true

/-- Whether the pattern ends before the byte. -/
def fixedEndsWith (subject : StringView) (byteIndex : Int) (pattern : StringView)
    (caseInsensitive : Bool) : Bool :=
  if byteIndex < 0 ∨ byteIndex > subject.len ∨ pattern.len ≤ 0 ∨ subject.isNull ∨
      pattern.isNull then false
  else if !caseInsensitive then
    pattern.len ≤ byteIndex &&
      memequal (subject.bytes.drop (byteIndex - pattern.len).toNat) pattern.bytes
        pattern.len.toNat
  else
    endsWithLoop toUpper subject.bytes pattern.bytes pattern.bytes.length byteIndex.toNat
      pattern.bytes.length

end Compare

/-! ## Code point positions -/

/-- Step forward while there are code points to skip and bytes left. -/
def indexForwardLoop (text : List UInt8) : Nat → Nat → Nat
  | 0, byteIndex => byteIndex
  | codePoints + 1, byteIndex =>
      if byteIndex < text.length then
        indexForwardLoop text codePoints (Utf8.fwd1 text byteIndex)
      else byteIndex

/-- The byte behind so many code points. -/
def utf8IndexForward (value : StringView) (codePoints : Int) : Int :=
  if codePoints ≤ 0 ∨ value.len ≤ 0 ∨ value.isNull then 0
  else if value.enc = .ascii then if codePoints < value.len then codePoints else value.len
  else indexForwardLoop value.bytes codePoints.toNat 0

/-- Step back while there are code points to skip and bytes left. -/
def indexBackwardLoop (text : List UInt8) : Nat → Nat → Nat
  | 0, byteIndex => byteIndex
  | codePoints + 1, byteIndex =>
      if byteIndex > 0 then indexBackwardLoop text codePoints (Utf8.back1 text byteIndex)
      else byteIndex

/-- The byte before so many code points at the end. -/
def utf8IndexBackward (value : StringView) (codePoints : Int) : Int :=
  if value.len ≤ 0 ∨ value.isNull then 0
  else if codePoints ≤ 0 then value.len
  else if value.enc = .ascii then
    if codePoints < value.len then value.len - codePoints else 0
  else indexBackwardLoop value.bytes codePoints.toNat value.bytes.length

/-! ## The general body -/

/-- What the general body reads beside the pattern. -/
structure StartsEndsBody where
  subjects : List StringView
  positions : List Int
  starts : Bool
  caseInsensitive : Bool
  negate : Bool

namespace StartsEndsBody

variable (toUpper : CodePoint → CodePoint) (body : StartsEndsBody)

/-- The byte a position stands for. -/
def byteIndex (subject : StringView) (position : Int) : Int :=
  if body.starts then
    if position = 1 then 0
    else if position ≥ 0 then utf8IndexForward subject (position - 1)
    else utf8IndexBackward subject (-position)
  else
    if position = -1 then subject.len
    else if position ≥ 0 then utf8IndexForward subject position
    else utf8IndexBackward subject (-position - 1)

/-- The answer for one subject: whether the pattern stands at its position. -/
def matchOne (index : Nat) (pattern : StringView) : Int :=
  let subject := body.subjects.getD (index % body.subjects.length) .na
  if subject.isNa ∨ pattern.isNa ∨ pattern.len ≤ 0 then naInteger
  else if subject.len ≤ 0 then logical body.negate
  else
    let position := body.positions.getD (index % body.positions.length) naInteger
    if position = naInteger then naInteger
    else
      let byteIndex := body.byteIndex subject position
      let found :=
        if body.starts then fixedStartsWith toUpper subject byteIndex pattern body.caseInsensitive
        else fixedEndsWith toUpper subject byteIndex pattern body.caseInsensitive
      logical (found != body.negate)

end StartsEndsBody

/-! ## The direct kernel -/

/-- The bytes of a record behind a byte order mark, where they are stored; nothing
for a record that has to be converted. -/
def directUtf8View (source : StringView) : Option StringView :=
  if source.isNa then none
  else
    match source.data with
    | .null _ => none
    | .bytes span =>
        match source.enc with
        | .ascii => some ⟨.bytes span, .ascii⟩
        | .utf8 =>
            if hasBom span.bytes then some ⟨.bytes (span.slice 3 span.bytes.length), .utf8⟩
            else some ⟨.bytes span, .utf8⟩
        | .asciiOrUtf8 =>
            if hasBom span.bytes then some ⟨.bytes (span.slice 3 span.bytes.length), .utf8⟩
            else some ⟨.bytes span, .asciiOrUtf8⟩
        | _ => none

/-- What does not vary by element. -/
structure DirectScalarState where
  pattern : StringView
  starts : Bool
  negate : Bool

/-- One pattern, at one default position, and no subject used twice. -/
def directScalarEligible (patterns : List StringView) (positions : List Int)
    (subjectLength vectorizeLength : Nat) (options : FixedSearchOptions)
    (starts negate : Bool) : Option DirectScalarState :=
  if subjectLength ≠ vectorizeLength ∨ patterns.length ≠ 1 ∨ positions.length ≠ 1 ∨
      positions.getD 0 naInteger ≠ (if starts then 1 else -1) then none
  else if options.caseInsensitive ∨ options.overlap then none
  else
    match directUtf8View (patterns.getD 0 .na) with
    | none => none
    | some pattern => if pattern.len ≤ 0 then none else some ⟨pattern, starts, negate⟩

/-- One record, or nothing for one that needs the general path. -/
def directScalarOne (toUpper : CodePoint → CodePoint) (state : DirectScalarState)
    (source : StringView) : Option Int :=
  if source.isNa then some naInteger
  else
    match directUtf8View source with
    | none => none
    | some subject =>
        let found :=
          if state.starts then fixedStartsWith toUpper subject 0 state.pattern false
          else fixedEndsWith toUpper subject subject.len state.pattern false
        some (logical (found != state.negate))

end Charr.FixedSearch
