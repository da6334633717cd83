import Charr.Library.Earliest
import Charr.Repeat.Dup
import Charr.Text.CodePoints

/-!
# Padding strings

A string that is too short gets as many pads as it lacks, on one side or on both. The pad
of a call with only one is checked once in the loop, and once by each worker, which
remembers it from chunk to chunk.
-/

namespace Charr.Repeat

open Buffers Loops Parallel
open Width (Properties widthString invalidUtf8 convertedBytes)

/-- A record ready to be padded or to pad with. -/
structure PadInput where
  bytes : List UInt8
  length_le : bytes.length ≤ intMax
  ascii : Bool
  missing : Bool

/-- The input of a missing value, which has no bytes. -/
def missingInput : PadInput := ⟨[], Nat.zero_le _, false, true⟩

/-- The bytes from the fourth on behind a byte order mark. -/
def PadInput.ofSpan (span : Span) (stripBom ascii : Bool) : PadInput where
  bytes := if stripBom then span.bytes.drop 3 else span.bytes
  length_le := by
    have hlength := span.length_le
    split
    · rw [List.length_drop]
      omega
    · exact hlength
  ascii := ascii
  missing := false

/-- What a conversion returned, copied to where it stays. -/
def PadInput.ofConverted (converted : ViewData) (native nativeBom : Bool) :
    Except NativeError PadInput :=
  match converted with
  | .null len =>
      if len < 0 ∨ len > 0 then
        .error (.runtimeError "encoding conversion returned invalid bytes")
      else .ok (.ofSpan emptySpan false false)
  | .bytes span => .ok (.ofSpan span (native && nativeBom && hasBom span.bytes) false)

/-- The input of a value that is not missing, in UTF-8 and without a byte order mark. -/
def normalizeInput (converter : NativeToUtf8) (value : StringView) :
    Except NativeError PadInput :=
  match value.data with
  | .null _ => .error (.runtimeError "Reader returned an invalid string view")
  | .bytes span =>
      match value.enc with
      | .ascii => .ok (.ofSpan span false true)
      | .bytes => .error (.striException "bytes encoding is not supported by this function")
      | .utf8 => .ok (.ofSpan span (hasBom span.bytes) false)
      | .asciiOrUtf8 =>
          .ok (.ofSpan span (hasBom span.bytes)
            (!hasBom span.bytes && spanIsAscii span.bytes))
      | .latin1 => do PadInput.ofConverted (← converter.latin1 span.bytes) false false
      | .native => do
          PadInput.ofConverted (← converter.native span.bytes) true converter.nativeIsUtf8
      | .missing => .error (.runtimeError "non-missing Reader record has NA encoding")
      | .unknown => .error (.runtimeError "Reader returned an unknown string encoding")

/-- The input of a value. -/
def padInput (converter : NativeToUtf8) (value : StringView) : Except NativeError PadInput :=
  if value.isNa then .ok missingInput else normalizeInput converter value

/-- The length of the result, and whether recycling is uneven. -/
def recyclingLength (strLen widthLen padLen : Nat) : Nat × Bool :=
  if strLen ≤ 0 ∨ widthLen ≤ 0 ∨ padLen ≤ 0 then (0, false)
  else
    let result := if widthLen > strLen then widthLen else strLen
    let result := if padLen > result then padLen else result
    (result, result % strLen ≠ 0 ∨ result % widthLen ≠ 0 ∨ result % padLen ≠ 0)

/-! ## Measuring -/

/-- The loop of `ci__length_string` over a whole string. -/
def lengthLoop (text : List UInt8) : Nat → Nat → Nat → Except NativeError Nat
  | 0, _, length => .ok length
  | fuel + 1, index, length =>
      if index < text.length then
        let (c, next) := Utf8.next text index
        if c < 0 then .error invalidUtf8 else lengthLoop text fuel next (length + 1)
      else .ok length

/-- The length of a text in code points. -/
def lengthString (text : List UInt8) : Except NativeError Nat :=
  lengthLoop text text.length 0 0

/-- The loop of `ci__width_string`, with the ASCII widths written out. -/
def padWidthString (properties : Properties) (text : List UInt8) : Except NativeError Int :=
  widthString properties text

/-- The length of an input in code points; ASCII text has it in its bytes. -/
def countCodePoints (value : PadInput) : Except NativeError Nat :=
  if value.ascii then .ok value.bytes.length else lengthString value.bytes

/-- The error of a padding measured in code points. -/
def notOneCodePoint : NativeError :=
  .striException "each string in `pad` should consist of exactly 1 code points"

/-- The error of a padding measured in columns. -/
def notOneColumn : NativeError :=
  .striException "each string in `pad` should consist of code points of total width 1"

/-- A padding must be of length one in the measure in use. -/
def validatePad (properties : Properties) (value : PadInput) (useLength : Bool) :
    Except NativeError Unit :=
  if useLength then
    let (codePoint, cursor) := Utf8.next value.bytes 0
    if codePoint ≤ 0 ∨ cursor < value.bytes.length then .error notOneCodePoint else .ok ()
  else do
    let width ← padWidthString properties value.bytes
    if width ≠ 1 then .error notOneColumn else .ok ()

/-! ## Writing -/

/-- Write the padding `count` times: by bytes if it is one byte, by doubling otherwise. -/
def padRepeat (pattern : List UInt8) (count : Int) (sink : Sink UInt8) :
    Except (Fault NativeError) (Sink UInt8) :=
  if count ≤ 0 ∨ pattern.length = 0 then .ok sink
  else if pattern.length = 1 then
    copy (List.replicate count.toNat (pattern.getD 0 0)) sink
  else seedAndDouble pattern (count.toNat * pattern.length) sink

/-- Both ways of writing pads write the copies. -/
theorem writes_padRepeat (pattern : List UInt8) (count : Int) :
    Writes (padRepeat pattern count) (copies count.toNat pattern) := by
  unfold padRepeat
  by_cases hnothing : count ≤ 0 ∨ pattern.length = 0
  · have hcopies : copies count.toNat pattern = [] := by
      rw [← List.length_eq_zero_iff, length_copies]
      rcases hnothing with hcount | hpattern
      · rw [Int.toNat_of_nonpos hcount, Nat.zero_mul]
      · rw [hpattern, Nat.mul_zero]
    simp only [hnothing, if_true, hcopies]
    exact writes_nothing
  · simp only [hnothing, if_false]
    by_cases hone : pattern.length = 1
    · obtain ⟨byte, rfl⟩ := List.length_eq_one_iff.mp hone
      simp only [List.length_singleton, if_true, List.getD_cons_zero]
      rw [copies_singleton]
      exact writes_copy _
    · simp only [hone, if_false]
      have hpattern : pattern ≠ [] := by
        rintro rfl
        exact hnothing (.inr rfl)
      exact writes_seedAndDouble hpattern (by omega)

/-- The error of a result that would not fit in an R string. -/
def tooLong : NativeError := .lengthError "padded string exceeds R's string length limit"

/-! ## The operation -/

/-- The arguments of a call, prepared. -/
structure PadCall where
  strInputs : List PadInput
  padInputs : List PadInput
  widthValues : List Int
  useLength : Bool
  /-- `0` for the left, `1` for the right and `2` for both. -/
  side : Nat

namespace PadCall

variable (properties : Properties) (call : PadCall)

/-- The subject of a result, recycled. -/
def strCurrent (index : Nat) : PadInput :=
  call.strInputs.getD (index % call.strInputs.length) missingInput

/-- The padding of a result, recycled. -/
def padCurrent (index : Nat) : PadInput :=
  call.padInputs.getD (index % call.padInputs.length) missingInput

/-- The width asked for, recycled. -/
def widthValue (index : Nat) : Int :=
  call.widthValues.getD (index % call.widthValues.length) naInteger

/-- The size of an input in the measure in use. -/
def measure (value : PadInput) : Except NativeError Int :=
  if call.useLength then (countCodePoints value).map Nat.cast
  else padWidthString properties value.bytes

/-- How a result is marked. -/
def mark (ascii : Bool) : StringEncoding := if ascii then .ascii else .utf8

/-- How much of the padding goes to the left: none, half or all of it. -/
def leftCount (padCount : Int) : Int :=
  match call.side with
  | 0 => padCount
  | 2 => padCount / 2
  | _ => 0

/-- The part of an element behind the check of its pad. -/
def padElement (str pad : PadInput) (width : Int) :
    Except (Fault NativeError) (Option OutputRecord) := do
  let strWidth ← (call.measure properties str).mapError .thrown
  if strWidth ≥ width then return some ⟨str.bytes, mark str.ascii⟩
  else
    let padCount := width - strWidth
    let padBytes := pad.bytes.length
    if padBytes > 0 ∧ toSize padCount > (intMax - str.bytes.length) / padBytes then
      .error (.thrown tooLong)
    else
      let outputLength := str.bytes.length + toSize padCount * padBytes
      let left := call.leftCount padCount
      let sink ← andThen (andThen (padRepeat pad.bytes left)
          (if str.bytes.length > 0 then copy str.bytes else .ok))
        (padRepeat pad.bytes (padCount - left)) ⟨List.replicate outputLength 0, 0⟩
      return some ⟨sink.cells, mark (str.ascii && pad.ascii)⟩

/-- Check the pad, unless it is the only one and was checked before. -/
def checkPad (pad : PadInput) (scalarPad validated : Bool) :
    Except (Fault NativeError) Bool :=
  if !scalarPad || !validated then
    ((validatePad properties pad call.useLength).mapError .thrown).map fun _ =>
      if scalarPad then true else validated
  else .ok validated

/-- An element, and whether a pad that is the only one has been checked by now. -/
def element (validated : Bool) (index : Nat) :
    Except (Fault NativeError) (Option OutputRecord × Bool) :=
  let scalarPad : Bool := call.padInputs.length = 1
  let str := call.strCurrent index
  let pad := call.padCurrent index
  let width := call.widthValue index
  if str.missing ∨ pad.missing ∨ width = naInteger then .ok (none, validated)
  else do
    let validated ← checkPad properties call pad scalarPad validated
    let record ← padElement properties call str pad width
    return (record, validated)

/-- The loop on one worker. -/
def serialLoop (validated : Bool) :
    List Nat → Except (Fault NativeError) (List (Option OutputRecord))
  | [] => .ok []
  | index :: rest => do
      let (record, validated) ← element properties call validated index
      let records ← serialLoop validated rest
      return record :: records

/-- What a worker remembers is whether it has checked the only pad. -/
def body : ParallelBody Bool (Option OutputRecord) (Fault NativeError) where
  initial _ := false
  task _ index validated :=
    match element properties call validated index with
    | .ok (record, validated) =>
        { ending := .next, state := validated, writes := [(index, record)] }
    | .error error => { ending := .throws error, state := validated }
  describeError := faultText

end PadCall

/-- The strings are prepared first, then the pads. With nothing to recycle neither is
looked at. -/
def ciPad (properties : Properties) (converter : NativeToUtf8) (settings : Settings)
    (strs pads : List StringView) (widthValues : List Int) (useLength : Bool) (side : Nat)
    (schedule : List Nat) : Option (Except String (List (Option (Option OutputRecord)))) :=
  let vectorizeLength := (recyclingLength strs.length widthValues.length pads.length).1
  if vectorizeLength > 0 then
    match strs.mapM (padInput converter), pads.mapM (padInput converter) with
    | .error error, _ => some (.error error.text)
    | .ok _, .error error => some (.error error.text)
    | .ok strInputs, .ok padInputs =>
        let call : PadCall := ⟨strInputs, padInputs, widthValues, useLength, side⟩
        runItems settings vectorizeLength (call.body properties)
          (call.serialLoop properties false (List.range vectorizeLength)) schedule
  else some (.ok [])

/-! ## Without buffers and without memory -/

namespace PadCall

variable (properties : Properties) (call : PadCall)

/-- A string between its pads. -/
def padded (str pad : PadInput) (width : Int) : Except NativeError (Option OutputRecord) := do
  let strWidth ← call.measure properties str
  if strWidth ≥ width then return some ⟨str.bytes, mark str.ascii⟩
  else
    let padCount := width - strWidth
    let left := call.leftCount padCount
    if str.bytes.length + padCount.toNat * pad.bytes.length > intMax then .error tooLong
    else
      return some ⟨copies left.toNat pad.bytes ++ str.bytes ++
        copies (padCount - left).toNat pad.bytes, mark (str.ascii && pad.ascii)⟩

/-- An element that checks its pad itself. -/
def paddedAt (index : Nat) : Except NativeError (Option OutputRecord) :=
  let str := call.strCurrent index
  let pad := call.padCurrent index
  let width := call.widthValue index
  if str.missing ∨ pad.missing ∨ width = naInteger then .ok none
  else do
    validatePad properties pad call.useLength
    padded properties call str pad width

section Widths

variable {properties call}

/-- No code point has a negative width. -/
theorem widthChar_nonneg (c : Utf8.CodePoint) : 0 ≤ Width.widthChar properties c := by
  unfold Width.widthChar Width.asciiCharWidth
  repeat' split
  all_goals decide

theorem widthCharWithContext_nonneg (c previous : Utf8.CodePoint) (reset : Bool) :
    0 ≤ (Width.widthCharWithContext properties c previous reset).1 := by
  unfold Width.widthCharWithContext
  dsimp only
  generalize (if reset = true then (0 : Utf8.CodePoint) else previous) = before
  split
  next => exact le_rfl
  next =>
    split
    next => exact le_rfl
    next => exact widthChar_nonneg c

theorem widthLoop_nonneg (invalid : NativeError) (text : List UInt8) (fuel index : Nat)
    (previous : Utf8.CodePoint) (reset : Bool) {width total : Int} (hwidth : 0 ≤ width)
    (htotal : Width.widthLoop properties invalid text fuel index previous reset width =
      .ok total) :
    0 ≤ total := by
  induction fuel generalizing index previous reset width with
  | zero =>
      obtain rfl := Except.ok.inj htotal
      exact hwidth
  | succ fuel ih =>
      rw [Width.widthLoop] at htotal
      split at htotal
      next =>
        dsimp only at htotal
        split at htotal
        next =>
          refine ih _ _ _ ?_ htotal
          unfold Width.asciiCharWidth
          split <;> omega
        next =>
          split at htotal
          next => exact absurd htotal (by simp)
          next =>
            exact ih _ _ _ (Int.add_nonneg hwidth (widthCharWithContext_nonneg _ _ _)) htotal
      next =>
        obtain rfl := Except.ok.inj htotal
        exact hwidth

/-- The size of an input is not negative. -/
theorem measure_nonneg {value : PadInput} {width : Int}
    (hmeasure : call.measure properties value = .ok width) : 0 ≤ width := by
  unfold measure at hmeasure
  split at hmeasure
  next =>
    obtain ⟨count, -, rfl⟩ := except_map_ok hmeasure
    exact Int.natCast_nonneg count
  next => exact widthLoop_nonneg _ _ _ _ _ _ le_rfl hmeasure

end Widths

section Elements

variable {properties call}

/-- Each side gets a part of the padding. -/
theorem leftCount_bounds (call : PadCall) {padCount : Int} (hpositive : 0 ≤ padCount) :
    0 ≤ call.leftCount padCount ∧ call.leftCount padCount ≤ padCount := by
  unfold leftCount
  split <;> omega

theorem leftCount_left (hside : call.side = 0) (padCount : Int) :
    call.leftCount padCount = padCount := by
  simp only [leftCount, hside]

theorem leftCount_right (hside : call.side = 1) (padCount : Int) :
    call.leftCount padCount = 0 := by
  simp only [leftCount, hside]

theorem leftCount_both (hside : call.side = 2) (padCount : Int) :
    call.leftCount padCount = padCount / 2 := by
  simp only [leftCount, hside]

/-- What is written fills the buffer that is reserved. -/
theorem padElement_eq (str : PadInput) {pad : PadInput} {width : Int} (hwidth : width ≤ intMax) :
    call.padElement properties str pad width =
      (call.padded properties str pad width).mapError .thrown := by
  unfold padElement padded
  cases hmeasure : call.measure properties str with
  | error error => rfl
  | ok strWidth =>
      have hnonneg := measure_nonneg hmeasure
      simp only [Except.mapError, bind, Except.bind]
      by_cases hlong : strWidth ≥ width
      · simp only [hlong, if_true]
        rfl
      · have hcount : 0 ≤ width - strWidth := by omega
        have hsize : toSize (width - strWidth) = (width - strWidth).toNat :=
          toSize_eq hcount (le_trans (by omega) (by decide : (intMax : Int) ≤ sizeMax))
        have hroom := str.length_le
        -- the guard divides, so that the product cannot overflow
        have hcheck : (pad.bytes.length > 0 ∧ (width - strWidth).toNat >
              (intMax - str.bytes.length) / pad.bytes.length) ↔
            str.bytes.length + (width - strWidth).toNat * pad.bytes.length > intMax := by
          obtain hzero | hpositive := Nat.eq_zero_or_pos pad.bytes.length
          · rw [hzero, Nat.mul_zero]
            omega
          · rw [gt_iff_lt, gt_iff_lt, Nat.div_lt_iff_lt_mul hpositive]
            omega
        simp only [hlong, if_false, hsize, hcheck]
        split
        next => rfl
        next hfits =>
          obtain ⟨hleft, hright⟩ := leftCount_bounds call hcount
          have hcopy : Writes (if str.bytes.length > 0 then copy str.bytes else .ok :
              Sink UInt8 → Except (Fault NativeError) (Sink UInt8)) str.bytes := by
            split
            next => exact writes_copy _
            next hempty =>
              rw [List.length_eq_zero_iff.mp (Nat.eq_zero_of_not_pos hempty)]
              exact writes_nothing
          -- left copies, the string, right copies
          have hwrites := ((writes_padRepeat pad.bytes
            (call.leftCount (width - strWidth))).andThen hcopy).andThen
            (writes_padRepeat pad.bytes (width - strWidth - call.leftCount (width - strWidth)))
          have hlength : (copies (call.leftCount (width - strWidth)).toNat pad.bytes ++ str.bytes ++
              copies (width - strWidth - call.leftCount (width - strWidth)).toNat
                pad.bytes).length =
              str.bytes.length + (width - strWidth).toNat * pad.bytes.length := by
            have hsplit : (width - strWidth).toNat = (call.leftCount (width - strWidth)).toNat +
                (width - strWidth - call.leftCount (width - strWidth)).toNat := by omega
            rw [hsplit, Nat.add_mul, List.length_append, List.length_append, length_copies,
              length_copies]
            omega
          have hfilled := hwrites.front (List.replicate
            (str.bytes.length + (width - strWidth).toNat * pad.bytes.length) 0)
            (by rw [hlength, List.length_replicate])
          rw [hlength, List.drop_eq_nil_of_le List.length_replicate.le, List.append_nil] at hfilled
          rw [hfilled]
          rfl

variable (properties call) in
/-- A worker or loop that says it has checked the only pad has. -/
def Checked (validated : Bool) : Prop :=
  validated = true → call.padInputs.length = 1 ∧
    validatePad properties (call.padInputs.getD 0 missingInput) call.useLength = .ok ()

/-- A padding is validated once, and with the same answer every time. -/
theorem checkPad_cases {validated : Bool} (hchecked : Checked properties call validated)
    (index : Nat) :
    (∃ next, call.checkPad properties (call.padCurrent index) (call.padInputs.length = 1)
        validated = .ok next ∧ Checked properties call next ∧
        validatePad properties (call.padCurrent index) call.useLength = .ok ()) ∨
      ∃ error, call.checkPad properties (call.padCurrent index) (call.padInputs.length = 1)
        validated = .error (.thrown error) ∧
        validatePad properties (call.padCurrent index) call.useLength = .error error := by
  unfold checkPad
  by_cases hscalar : call.padInputs.length = 1
  · have honly : call.padCurrent index = call.padInputs.getD 0 missingInput := by
      rw [padCurrent, hscalar, Nat.mod_one]
    simp only [hscalar, decide_true, Bool.not_true, Bool.false_or, if_true]
    cases hvalidated : validated with
    | true =>
        obtain ⟨-, hpad⟩ := hchecked hvalidated
        rw [honly]
        exact .inl ⟨true, rfl, fun _ => ⟨hscalar, hpad⟩, hpad⟩
    | false =>
        simp only [Bool.not_false, if_true]
        cases hpad : validatePad properties (call.padCurrent index) call.useLength with
        | error error => exact .inr ⟨error, rfl, rfl⟩
        | ok checked =>
            rw [honly] at hpad
            exact .inl ⟨true, rfl, fun _ => ⟨hscalar, hpad⟩, rfl⟩
  · simp only [hscalar, decide_false, Bool.not_false, Bool.true_or, if_true,
      Bool.false_eq_true, if_false]
    cases hpad : validatePad properties (call.padCurrent index) call.useLength with
    | error error => exact .inr ⟨error, rfl, rfl⟩
    | ok checked => exact .inl ⟨validated, rfl, hchecked, rfl⟩

/-- What has been checked before does not show in an element. -/
theorem element_cases (hwidths : ∀ width ∈ call.widthValues, width ≤ intMax)
    {validated : Bool} (hchecked : Checked properties call validated) (index : Nat) :
    (∃ record next, call.element properties validated index = .ok (record, next) ∧
        Checked properties call next ∧ call.paddedAt properties index = .ok record) ∨
      ∃ error, call.element properties validated index = .error (.thrown error) ∧
        call.paddedAt properties index = .error error := by
  have hwidth : call.widthValue index ≤ intMax := by
    rw [widthValue, List.getD_eq_getElem?_getD]
    cases hget : call.widthValues[index % call.widthValues.length]? with
    | none => decide
    | some width => exact hwidths width (List.mem_of_getElem? hget)
  unfold element paddedAt
  dsimp only
  by_cases hmissing : (call.strCurrent index).missing = true ∨
      (call.padCurrent index).missing = true ∨ call.widthValue index = naInteger
  · rw [if_pos hmissing, if_pos hmissing]
    exact .inl ⟨none, validated, rfl, hchecked, rfl⟩
  · rw [if_neg hmissing, if_neg hmissing]
    obtain ⟨next, hcheck, hnext, hpad⟩ | ⟨error, hcheck, hpad⟩ :=
      checkPad_cases hchecked index
    · rw [hcheck, hpad]
      simp only [bind, Except.bind, padElement_eq _ hwidth]
      cases call.padded properties (call.strCurrent index) (call.padCurrent index)
          (call.widthValue index) with
      | error error => exact .inr ⟨error, rfl, rfl⟩
      | ok record => exact .inl ⟨record, next, rfl, hnext, rfl⟩
    · rw [hcheck, hpad]
      exact .inr ⟨error, rfl, rfl⟩

/-- The serial loop pads one string after another, up to the first failure. -/
theorem serialLoop_eq (hwidths : ∀ width ∈ call.widthValues, width ≤ intMax)
    {validated : Bool} (hchecked : Checked properties call validated) (indices : List Nat) :
    call.serialLoop properties validated indices =
      indices.mapM fun index => (call.paddedAt properties index).mapError Fault.thrown := by
  induction indices generalizing validated with
  | nil => rfl
  | cons index rest ih =>
      rw [serialLoop, List.mapM_cons]
      obtain ⟨record, next, helement, hnext, hpadded⟩ | ⟨error, helement, hpadded⟩ :=
        element_cases hwidths hchecked index
      · rw [helement, hpadded]
        simp only [bind, Except.bind, ih hnext]
        rfl
      · rw [helement, hpadded]
        rfl

/-- What a worker has checked is checked, whatever chunks it has run. -/
theorem bodySpec (hwidths : ∀ width ∈ call.widthValues, width ≤ intMax) (tasks : Nat) :
    TaskSpec (call.body properties) (fun _ _ validated => Checked properties call validated)
      (fun task => taskEnding ((itemFailure (fun index =>
        (call.paddedAt properties index).mapError Fault.thrown) task).map faultText))
      (itemWrites fun index => (call.paddedAt properties index).mapError Fault.thrown)
      tasks where
  setup _ _ := ⟨rfl, rfl, rfl, fun hfalse => absurd hfalse Bool.false_ne_true⟩
  enterChunk _ _ _ _ hchecked := ⟨rfl, rfl, hchecked⟩
  task _ _ _ task validated _ _ _ hchecked := by
    simp only [body, itemFailure, itemWrites]
    obtain ⟨record, next, helement, hnext, hpadded⟩ | ⟨error, helement, hpadded⟩ :=
      element_cases hwidths hchecked task
    · rw [helement, hpadded]
      exact ⟨rfl, rfl, hnext⟩
    · rw [helement, hpadded]
      exact ⟨rfl, rfl, hchecked⟩
  leaveChunk _ _ _ _ hchecked := ⟨rfl, rfl, hchecked⟩

end Elements

end PadCall

/-! ## Counting code points -/

section Lengths

open Utf8 (Token tokens tokenBytes codePointCount sentinel AreCodePoints)

/-- A text that is measured is well formed, and its length is its number of tokens. -/
theorem lengthLoop_ok {text : List UInt8} (fuel : Nat) {index length total : Nat}
    (hfuel : text.length - index ≤ fuel)
    (htotal : lengthLoop text fuel index length = .ok total) :
    (∀ token ∈ tokens (text.drop index), token.codePoint ≠ sentinel) ∧
      total = length + (tokens (text.drop index)).length := by
  have hempty : ∀ {index length total : Nat}, text.length ≤ index → total = length →
      (∀ token ∈ tokens (text.drop index), token.codePoint ≠ sentinel) ∧
        total = length + (tokens (text.drop index)).length := by
    intro index length total hend htotal
    rw [List.drop_eq_nil_of_le hend, Utf8.tokens_nil]
    exact ⟨fun token htoken => absurd htoken List.not_mem_nil, htotal⟩
  induction fuel generalizing index length with
  | zero => exact hempty (by omega) (Except.ok.inj htotal).symm
  | succ fuel ih =>
      rw [lengthLoop] at htotal
      split at htotal
      next hindex =>
        obtain ⟨token, htoken, hdrop, hnext, -⟩ := Utf8.tokens_drop hindex
        have hsize : 0 < token.bytes.length :=
          List.length_pos_iff.mpr (Utf8.bytes_ne_nil htoken)
        simp only [hnext] at htotal
        split at htotal
        next => exact absurd htotal (by simp)
        next hnonneg =>
          have hcomplete : token.codePoint ≠ sentinel := by
            intro hill
            rw [hill] at hnonneg
            exact hnonneg (by decide)
          obtain ⟨hall, hcount⟩ := ih (by omega) htotal
          rw [hdrop]
          refine ⟨List.forall_mem_cons.mpr ⟨hcomplete, hall⟩, ?_⟩
          rw [hcount, List.length_cons]
          omega
      next hindex => exact hempty (Nat.not_lt.mp hindex) (Except.ok.inj htotal).symm

/-- A string with a length is code points, as many as that. -/
theorem lengthString_ok {text : List UInt8} {length : Nat}
    (hlength : lengthString text = .ok length) :
    AreCodePoints (tokens text) ∧ length = codePointCount text := by
  obtain ⟨hall, hcount⟩ := lengthLoop_ok text.length (Nat.sub_le _ _) hlength
  rw [List.drop_zero] at hall hcount
  refine ⟨Utf8.areCodePoints_tokens.mpr hall, ?_⟩
  rw [hcount, Nat.zero_add]
  rfl

/-- A pad that passes the check is one code point. -/
theorem validatePad_ok {properties : Properties} {pad : PadInput}
    (hvalid : validatePad properties pad true = .ok ()) :
    ∃ token, tokens pad.bytes = [token] ∧ token.bytes = pad.bytes ∧
      token.codePoint ≠ sentinel := by
  unfold validatePad at hvalid
  simp only [if_true] at hvalid
  split at hvalid
  next => exact absurd hvalid (by simp)
  next hgood =>
    simp only [not_or, Int.not_le, Nat.not_lt] at hgood
    have hne : pad.bytes ≠ [] := by
      intro hempty
      rw [hempty] at hgood
      exact absurd hgood.1 (by decide)
    have hcursor : (Utf8.next pad.bytes 0).2 = pad.bytes.length :=
      Nat.le_antisymm (Utf8.next_snd_le hne) hgood.2
    refine ⟨⟨(Utf8.next pad.bytes 0).1, pad.bytes⟩, ?_, rfl, ?_⟩
    · apply Utf8.tokens_of_next ⟨(Utf8.next pad.bytes 0).1, pad.bytes⟩ hne
      rw [← hcursor]
    · intro hill
      rw [show (Utf8.next pad.bytes 0).1 = sentinel from hill] at hgood
      exact absurd hgood.1 (by decide)

theorem tokenBytes_replicate (count : Nat) (token : Token) :
    tokenBytes (List.replicate count token) = copies count token.bytes := by
  induction count with
  | zero => rfl
  | succ count ih => rw [List.replicate_succ, Utf8.tokenBytes_cons, ih, copies_succ]

/-- ASCII text is code points. -/
theorem areCodePoints_ascii {text : List UInt8} (hascii : ∀ byte ∈ text, byte < 0x80) :
    AreCodePoints (tokens text) := by
  apply Utf8.areCodePoints_tokens.mpr
  rw [Utf8.tokens_ascii hascii]
  intro token htoken
  obtain ⟨byte, -, rfl⟩ := List.mem_map.mp htoken
  show (byte.toNat : Int) ≠ sentinel
  unfold sentinel
  omega

end Lengths

/-! ## What the operation gives -/

section Outcome

/-- The records, each padded on its own: first all strings are prepared, then all pads. -/
def paddedTexts (properties : Properties) (converter : NativeToUtf8)
    (strs pads : List StringView) (widthValues : List Int) (useLength : Bool) (side : Nat) :
    Except NativeError (List (Option OutputRecord)) :=
  if strs = [] ∨ widthValues = [] ∨ pads = [] then .ok []
  else do
    let strInputs ← strs.mapM (padInput converter)
    let padInputs ← pads.mapM (padInput converter)
    let call : PadCall := ⟨strInputs, padInputs, widthValues, useLength, side⟩
    (List.range (recyclingLength strs.length widthValues.length pads.length).1).mapM
      (call.paddedAt properties)

/-- There is a result exactly if no vector is empty. -/
theorem recyclingLength_pos {strLen widthLen padLen : Nat} :
    (recyclingLength strLen widthLen padLen).1 > 0 ↔
      0 < strLen ∧ 0 < widthLen ∧ 0 < padLen := by
  unfold recyclingLength
  split
  next => simp only; omega
  next => dsimp only; split <;> split <;> omega

variable (properties : Properties) (converter : NativeToUtf8) (settings : Settings)
  (strs pads : List StringView) (widthValues : List Int) (useLength : Bool) (side : Nat)
  (schedule : List Nat)

/-- However many workers there are and however they are scheduled, that each remembers
which pad it has checked does not show: the records, or the first error, are those of
padding every record on its own. -/
theorem ciPad_eq (hwidths : ∀ width ∈ widthValues, width ≤ intMax) :
    (FairFor settings (recyclingLength strs.length widthValues.length pads.length).1 schedule →
      (ciPad properties converter settings strs pads widthValues useLength side
        schedule).isSome = true) ∧
    ∀ outcome, ciPad properties converter settings strs pads widthValues useLength side
        schedule = some outcome →
      outcome = loopResult NativeError.text
        (paddedTexts properties converter strs pads widthValues useLength side) := by
  have hempty : (recyclingLength strs.length widthValues.length pads.length).1 > 0 ↔
      ¬ (strs = [] ∨ widthValues = [] ∨ pads = []) := by
    rw [recyclingLength_pos]
    simp [List.length_pos_iff]
  unfold ciPad paddedTexts
  dsimp only
  by_cases hnone : strs = [] ∨ widthValues = [] ∨ pads = []
  · rw [if_neg (by rw [hempty, not_not]; exact hnone), if_pos hnone]
    refine ⟨fun _ => rfl, ?_⟩
    rintro outcome ⟨⟩
    rfl
  rw [if_pos (hempty.mpr hnone), if_neg hnone]
  cases hstrs : strs.mapM (padInput converter) with
  | error error =>
      refine ⟨fun _ => rfl, ?_⟩
      rintro outcome ⟨⟩
      rfl
  | ok strInputs =>
      cases hpads : pads.mapM (padInput converter) with
      | error error =>
          refine ⟨fun _ => rfl, ?_⟩
          rintro outcome ⟨⟩
          rfl
      | ok padInputs =>
          refine ⟨fun hfair => runItems_isSome hfair, fun outcome houtcome => ?_⟩
          have hunchecked : PadCall.Checked properties
              ⟨strInputs, padInputs, widthValues, useLength, side⟩ false :=
            fun hfalse => absurd hfalse Bool.false_ne_true
          rw [runItems_eq (PadCall.bodySpec hwidths _)
            (PadCall.serialLoop_eq hwidths hunchecked _) houtcome, mapM_mapError]
          exact loopResult_mapError _

end Outcome

/-! ## What the records look like -/

section Layout

open Utf8 (Token tokens tokenBytes codePointCount sentinel AreCodePoints)

/-- A text with the pads it lacks, in code points: to the left, to the right, or on both
sides with the odd one to the right. -/
structure IsPadded (side : Nat) (width : Int) (str pad text : List UInt8) : Prop where
  layout : ∃ token left right, tokens pad = [token] ∧
    tokens text = List.replicate left token ++ tokens str ++ List.replicate right token ∧
    (side = 0 → right = 0) ∧ (side = 1 → left = 0) ∧
    (side = 2 → left ≤ right ∧ right ≤ left + 1)
  count : (codePointCount text : Int) = max (codePointCount str : Int) width
  wellFormed : Utf8.WellFormed text

variable {properties : Properties} {call : PadCall} {str pad : PadInput} {width : Int}

/-- Measured in code points, the string is code points. -/
theorem measure_codePoints (hlength : call.useLength = true)
    (hascii : str.ascii = true → ∀ byte ∈ str.bytes, byte < 0x80)
    (hmeasure : call.measure properties str = .ok width) :
    AreCodePoints (tokens str.bytes) ∧ width = codePointCount str.bytes := by
  unfold PadCall.measure countCodePoints at hmeasure
  rw [if_pos hlength] at hmeasure
  obtain ⟨count, hcount, rfl⟩ := except_map_ok hmeasure
  split at hcount
  next hflag =>
    obtain rfl := Except.ok.inj hcount
    exact ⟨areCodePoints_ascii (hascii hflag),
      congrArg Nat.cast (Utf8.codePointCount_ascii (hascii hflag)).symm⟩
  next =>
    obtain ⟨hcodes, rfl⟩ := lengthString_ok hcount
    exact ⟨hcodes, rfl⟩

/-- A string between its pads, read back. -/
theorem isPadded_of_padded (hlength : call.useLength = true)
    (hascii : str.ascii = true → ∀ byte ∈ str.bytes, byte < 0x80)
    (hvalid : validatePad properties pad true = .ok ()) {record : OutputRecord}
    (hpadded : call.padded properties str pad width = .ok (some record)) :
    IsPadded call.side width str.bytes pad.bytes record.bytes := by
  obtain ⟨token, htoken, hbytes, hcomplete⟩ := validatePad_ok hvalid
  unfold PadCall.padded at hpadded
  obtain ⟨strWidth, hmeasure, hpadded⟩ := except_bind_ok hpadded
  obtain ⟨hcodes, rfl⟩ := measure_codePoints hlength hascii hmeasure
  split at hpadded
  next hlong =>
    obtain rfl := Option.some.inj (Except.ok.inj hpadded)
    have hnone : tokens str.bytes = List.replicate 0 token ++ tokens str.bytes ++
        List.replicate 0 token := by simp
    refine ⟨⟨token, 0, 0, htoken, hnone, fun _ => rfl, fun _ => rfl, ?_⟩, ?_, ?_⟩
    · exact fun _ => by omega
    · exact (max_eq_left hlong).symm
    · exact Utf8.wellFormed_iff_areCodePoints.mpr hcodes
  next hshort =>
    dsimp only at hpadded
    split at hpadded
    next => exact absurd hpadded (by simp)
    next =>
      obtain rfl := Option.some.inj (Except.ok.inj hpadded)
      dsimp only
      obtain ⟨hlow, hhigh⟩ := PadCall.leftCount_bounds call
        (show 0 ≤ width - (codePointCount str.bytes : Int) by omega)
      have hpads : ∀ count, AreCodePoints (List.replicate count token) := by
        intro count other hother
        rw [List.eq_of_mem_replicate hother]
        refine ⟨?_, hcomplete⟩
        rwa [hbytes]
      -- copies, string and copies are complete code points, so they are read back as they are
      have hall := ((hpads (call.leftCount (width - (codePointCount str.bytes : Int))).toNat).append
        hcodes).append (hpads (width - (codePointCount str.bytes : Int) -
          call.leftCount (width - (codePointCount str.bytes : Int))).toNat)
      have htext := Utf8.tokens_tokenBytes hall
      have hwell := Utf8.wellFormed_tokenBytes hall
      rw [Utf8.tokenBytes_append, Utf8.tokenBytes_append, tokenBytes_replicate,
        tokenBytes_replicate, hbytes, Utf8.tokenBytes_tokens] at htext hwell
      refine ⟨⟨token, _, _, htoken, htext, ?_, ?_, ?_⟩, ?_, hwell⟩
      · intro hleft
        rw [PadCall.leftCount_left hleft]
        omega
      · intro hright
        rw [PadCall.leftCount_right hright]
        rfl
      · intro hboth
        rw [PadCall.leftCount_both hboth]
        omega
      · unfold codePointCount at *
        rw [htext]
        simp only [List.length_append, List.length_replicate]
        omega

/-- What is converted is not taken to be ASCII. -/
theorem ascii_ofConverted {conversion : Except NativeError ViewData} {native nativeBom : Bool}
    {input : PadInput}
    (hread : (conversion >>= fun converted => PadInput.ofConverted converted native nativeBom) =
      .ok input) : input.ascii = false := by
  obtain ⟨converted, -, hread⟩ := except_bind_ok hread
  cases converted with
  | null len =>
      unfold PadInput.ofConverted at hread
      dsimp only at hread
      split at hread
      next => exact absurd hread (by simp)
      next =>
        obtain rfl := Except.ok.inj hread
        rfl
  | bytes span =>
      obtain rfl := Except.ok.inj hread
      rfl

/-- Records that are taken to be ASCII are, if those marked so by the vector are. -/
theorem ascii_of_padInput {converter : NativeToUtf8} {view : StringView}
    (hmark : view.enc = .ascii → ∀ byte ∈ view.bytes, byte < 0x80) {input : PadInput}
    (hinput : padInput converter view = .ok input) (hflag : input.ascii = true) :
    ∀ byte ∈ input.bytes, byte < 0x80 := by
  -- only two marks let the flag be set
  have hplain : ∀ {span : Span} {stripBom : Bool},
      (Except.ok (PadInput.ofSpan span stripBom false) : Except NativeError PadInput) =
        .ok input → input.ascii = false := by
    intro span stripBom hread
    obtain rfl := Except.ok.inj hread
    rfl
  unfold padInput at hinput
  split at hinput
  next =>
    obtain rfl := Except.ok.inj hinput
    exact absurd hflag Bool.false_ne_true
  next =>
    unfold normalizeInput at hinput
    cases hdata : view.data with
    | null len => simp [hdata] at hinput
    | bytes span =>
        simp only [hdata] at hinput
        cases henc : view.enc with
        | ascii =>
            simp only [henc] at hinput
            obtain rfl := Except.ok.inj hinput
            have hbytes := hmark henc
            rw [StringView.bytes, hdata] at hbytes
            exact hbytes
        | asciiOrUtf8 =>
            simp only [henc] at hinput
            obtain rfl := Except.ok.inj hinput
            obtain ⟨hnobom, hascii⟩ := Bool.and_eq_true_iff.mp hflag
            have hbom : hasBom span.bytes = false := by simpa using hnobom
            intro byte hbyte
            rw [PadInput.ofSpan, hbom] at hbyte
            have hsmall := of_decide_eq_true (List.all_eq_true.mp hascii byte hbyte)
            exact UInt8.lt_iff_toNat_lt.mpr (Nat.lt_succ_of_le (UInt8.le_iff_toNat_le.mp hsmall))
        | utf8 =>
            simp only [henc] at hinput
            exact absurd (hflag.symm.trans (hplain hinput)) Bool.true_eq_false.mp
        | latin1 =>
            simp only [henc] at hinput
            exact absurd (hflag.symm.trans (ascii_ofConverted hinput)) Bool.true_eq_false.mp
        | native =>
            simp only [henc] at hinput
            exact absurd (hflag.symm.trans (ascii_ofConverted hinput)) Bool.true_eq_false.mp
        | bytes => simp [henc] at hinput
        | missing => simp [henc] at hinput
        | unknown => simp [henc] at hinput

theorem getD_of_mapM {Source Value : Type} {compute : Source → Except NativeError Value}
    {sources : List Source} {values : List Value} (hvalues : sources.mapM compute = .ok values)
    {index : Nat} (hindex : index < sources.length) (source : Source) (value : Value) :
    compute (sources.getD index source) = .ok (values.getD index value) := by
  have hget := getElem_of_mapM hvalues index
  rw [List.getElem?_eq_getElem hindex] at hget
  cases hvalue : values[index]? with
  | none => simp [hvalue] at hget
  | some result =>
      rw [hvalue] at hget
      rw [List.getD_eq_getElem?_getD, List.getD_eq_getElem?_getD, hvalue,
        List.getElem?_eq_getElem hindex]
      exact Option.some.inj hget

/-- Where lengths are code points, every string the operation returns, on any number of
workers, is the string it came from with the pads it lacks: it has as many code points as
the longer of the string and the width. -/
theorem ciPad_isPadded (properties : Properties) (converter : NativeToUtf8)
    (settings : Settings) (strs pads : List StringView) (widthValues : List Int) (side : Nat)
    (schedule : List Nat) (hwidths : ∀ width ∈ widthValues, width ≤ intMax)
    (hmarks : ∀ view ∈ strs, view.enc = .ascii → ∀ byte ∈ view.bytes, byte < 0x80)
    {records : List (Option (Option OutputRecord))}
    (hpad : ciPad properties converter settings strs pads widthValues true side schedule =
      some (.ok records)) (index : Nat) {record : OutputRecord}
    (hrecord : records[index]? = some (some (some record))) :
    ∃ str pad, padInput converter (strs.getD (index % strs.length) .na) = .ok str ∧
      padInput converter (pads.getD (index % pads.length) .na) = .ok pad ∧
      IsPadded side (widthValues.getD (index % widthValues.length) naInteger) str.bytes
        pad.bytes record.bytes := by
  -- `ciPad_eq` leaves the serial loop to look at
  have hresult := (ciPad_eq properties converter settings strs pads widthValues true side
    schedule hwidths).2 _ hpad
  unfold loopResult at hresult
  split at hresult
  swap
  next => exact absurd hresult (by simp)
  next values hvalues =>
  obtain rfl := Except.ok.inj hresult
  rw [List.getElem?_map] at hrecord
  have hvalue : values[index]? = some (some record) := by
    cases hget : values[index]? with
    | none => simp [hget] at hrecord
    | some value =>
        rw [hget] at hrecord
        exact congrArg some (Option.some.inj (Option.some.inj hrecord))
  unfold paddedTexts at hvalues
  split at hvalues
  next =>
    obtain rfl := Except.ok.inj hvalues
    simp at hvalue
  next hsome =>
  -- the three stages of the loop: strings, pads, then the records
  obtain ⟨strInputs, hstrs, hvalues⟩ := except_bind_ok hvalues
  obtain ⟨padInputs, hpads, hvalues⟩ := except_bind_ok hvalues
  dsimp only at hvalues
  have hpadded : PadCall.paddedAt properties
      ⟨strInputs, padInputs, widthValues, true, side⟩ index = .ok (some record) := by
    have hget := getElem_of_mapM hvalues index
    rw [hvalue] at hget
    obtain ⟨task, htask, hcompute⟩ := Option.map_eq_some_iff.mp hget
    rw [List.getElem?_eq_some_iff] at htask
    obtain ⟨hbound, rfl⟩ := htask
    rwa [List.getElem_range] at hcompute
  obtain ⟨hstrsNonempty, -, hpadsNonempty⟩ :
      strs ≠ [] ∧ widthValues ≠ [] ∧ pads ≠ [] := by simpa using hsome
  have hstr := getD_of_mapM hstrs
    (Nat.mod_lt index (List.length_pos_iff.mpr hstrsNonempty)) .na missingInput
  have hpadInput := getD_of_mapM hpads
    (Nat.mod_lt index (List.length_pos_iff.mpr hpadsNonempty)) .na missingInput
  refine ⟨_, _, hstr, hpadInput, ?_⟩
  unfold PadCall.paddedAt at hpadded
  dsimp only at hpadded
  split at hpadded
  next => exact absurd hpadded (by simp)
  next =>
    obtain ⟨checked, hvalid, hpadded⟩ := except_bind_ok hpadded
    -- the width in code points is the width the record was padded to
    have hlayout := @isPadded_of_padded properties
      ⟨strInputs, padInputs, widthValues, true, side⟩ _ _ _ rfl ?_ hvalid _ hpadded
    · unfold PadCall.strCurrent PadCall.padCurrent PadCall.widthValue at hlayout
      rw [Earliest.length_of_mapM hstrs, Earliest.length_of_mapM hpads] at hlayout
      exact hlayout
    · unfold PadCall.strCurrent
      rw [Earliest.length_of_mapM hstrs]
      refine ascii_of_padInput (hmarks _ ?_) hstr
      rw [List.getD_eq_getElem?_getD,
        List.getElem?_eq_getElem (Nat.mod_lt index (List.length_pos_iff.mpr hstrsNonempty))]
      exact List.getElem_mem _

end Layout

/-! ## On two workers -/

section Sample

/-- Three strings: ASCII, one code point of two bytes behind a mark, and a missing one. -/
def sampleStrs : List StringView :=
  [⟨.bytes ⟨100, [97, 98], by decide⟩, .ascii⟩,
    ⟨.bytes ⟨200, [0xef, 0xbb, 0xbf, 0xc3, 0xa9], by decide⟩, .utf8⟩, .na]

/-- One pad, which each worker checks for itself. -/
def samplePads : List StringView := [⟨.bytes ⟨300, [0xe2, 0x80, 0xa2], by decide⟩, .utf8⟩]

theorem ciPad_pads_on_two_workers :
    ∃ outcome, ciPad Width.sampleProperties Width.sampleConverter ⟨2, 128, 1⟩ sampleStrs
        samplePads [4, 2, 3, 1] true 2 ((List.range 60).map (· % 2)) = some outcome ∧
      outcome = .ok [some (some ⟨[0xe2, 0x80, 0xa2, 97, 98, 0xe2, 0x80, 0xa2], .utf8⟩),
        some (some ⟨[0xc3, 0xa9, 0xe2, 0x80, 0xa2], .utf8⟩), some none,
        some (some ⟨[97, 98], .ascii⟩)] := by
  obtain ⟨hfair, hpads⟩ := ciPad_eq Width.sampleProperties Width.sampleConverter ⟨2, 128, 1⟩
    sampleStrs samplePads [4, 2, 3, 1] true 2 ((List.range 60).map (· % 2)) (by decide)
  obtain ⟨outcome, houtcome⟩ := Option.isSome_iff_exists.mp (hfair (by decide))
  exact ⟨outcome, houtcome, (hpads outcome houtcome).trans (by decide)⟩

theorem ascii_sampleStrs :
    ∀ view ∈ sampleStrs, view.enc = .ascii → ∀ byte ∈ view.bytes, byte < 0x80 := by
  intro view hview henc
  simp only [sampleStrs, List.mem_cons, List.not_mem_nil, or_false] at hview
  rcases hview with rfl | rfl | rfl
  · simp [StringView.bytes]
  · cases henc
  · cases henc

theorem ciPad_isPadded_one :
    ∃ str pad, padInput Width.sampleConverter (sampleStrs.getD (1 % 3) .na) = .ok str ∧
      padInput Width.sampleConverter (samplePads.getD (1 % 1) .na) = .ok pad ∧
      IsPadded 2 2 str.bytes pad.bytes [0xc3, 0xa9, 0xe2, 0x80, 0xa2] := by
  have hpad : ciPad Width.sampleProperties Width.sampleConverter ⟨1, 128, 256⟩ sampleStrs
      samplePads [4, 2, 3, 1] true 2 [] = some (.ok
        [some (some ⟨[0xe2, 0x80, 0xa2, 97, 98, 0xe2, 0x80, 0xa2], .utf8⟩),
          some (some ⟨[0xc3, 0xa9, 0xe2, 0x80, 0xa2], .utf8⟩), some none,
          some (some ⟨[97, 98], .ascii⟩)]) := by decide
  exact ciPad_isPadded Width.sampleProperties Width.sampleConverter ⟨1, 128, 256⟩ sampleStrs
    samplePads [4, 2, 3, 1] 2 [] (by decide) ascii_sampleStrs hpad 1 rfl

end Sample

end Charr.Repeat
