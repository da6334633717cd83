import Charr.Text.Normalize
import Charr.Width.CharWidth
import Charr.Wrap.Words

/-!
# The wrapping engine

An engine plans one record at a time: the record is prepared, cut into words where ICU
allows a line break, and put on lines. The lines are then read off the plan, each behind
what its line starts with.
-/

namespace Charr.Wrap

open Utf8 Width

/-- The line width, the exponent of the cost, and how words are found and measured. -/
structure Options (Cost : Type) where
  width : Int
  exponent : Cost
  whitespaceOnly : Bool
  useLength : Bool
  normalize : Bool

/-- ICU, with the options' locale. Statuses below one are no failures. -/
structure Icu where
  properties : Properties
  /-- The status of opening the engine. -/
  opened : Int
  /-- `Normalizer2::normalizeUTF8` to NFC -/
  normalizeNfc : List UInt8 → List UInt8 × Int
  /-- The status of setting a text, and the ends of its segments. -/
  boundaries : List UInt8 → Int × List Nat
  /-- The text of an exception for a status. -/
  statusText : Int → String

/-- ICU statuses above zero are failures. -/
def failed (status : Int) : Bool := 0 < status

/-- `[\u000A-\u000D\u0085\u2028\u2029]` -/
def linebreak (codePoint : CodePoint) : Bool :=
  (0x0a ≤ codePoint ∧ codePoint ≤ 0x0d) ∨ codePoint = 0x85 ∨ codePoint = 0x2028 ∨
    codePoint = 0x2029

/-- `\p{White_space}` -/
def whitespace (codePoint : CodePoint) : Bool :=
  (0x09 ≤ codePoint ∧ codePoint ≤ 0x0d) ∨ codePoint = 0x20 ∨ codePoint = 0x85 ∨
    codePoint = 0xa0 ∨ codePoint = 0x1680 ∨ (0x2000 ≤ codePoint ∧ codePoint ≤ 0x200a) ∨
    codePoint = 0x2028 ∨ codePoint = 0x2029 ∨ codePoint = 0x202f ∨ codePoint = 0x205f ∨
    codePoint = 0x3000

/-- Whether the record can be marked ASCII. -/
def isAscii (bytes : List UInt8) : Bool := bytes.all (· < 0x80)

/-! ## What lines start with -/

/-- What a line begins with: a prefix and its indentation, with their size in both measures. -/
structure LineStart where
  bytes : List UInt8
  count : Int
  width : Int
  ascii : Bool
  missing : Bool
  deriving DecidableEq, Repr

/-- What the engine throws where a written string would not fit in an R string. -/
def tooLong : NativeError := .lengthError "wrapped string exceeds R's string length limit"

/-- A sum of sizes, which may not pass the limit of R. -/
def checkedSum (left right : Nat) : Except NativeError Nat :=
  if left > intMax ∨ right > intMax - left then .error tooLong else .ok (left + right)

/-- The error of a text that is not UTF-8. -/
def invalidUtf8 : NativeError :=
  .runtimeError "invalid UTF-8 byte sequence detected; try calling ci_enc_toutf8()"

/-- The loop of `code_point_count` from `cursor` on. -/
def countLoop (text : List UInt8) : (fuel cursor count : Nat) → Except NativeError Nat
  | 0, _, count => .ok count
  | fuel + 1, cursor, count =>
      if cursor < text.length then
        if (next text cursor).1 < 0 then .error invalidUtf8
        else countLoop text fuel (next text cursor).2 (count + 1)
      else .ok count

/-- The length of a text in code points. -/
def codePointCount (text : List UInt8) : Except NativeError Nat :=
  countLoop text text.length 0 0

/-- `string_width`: the loop of `ci__width_string`, with an error of its own. -/
def stringWidth (properties : Properties) (text : List UInt8) : Except NativeError Int :=
  widthLoop properties invalidUtf8 text text.length 0 0 true 0

/-- Whether a view is ASCII, as its mark says or its bytes show. -/
def markedAscii (source : StringView) : Bool :=
  source.enc = .ascii || source.enc = .asciiOrUtf8 && isAscii source.bytes

/-- Whether the bytes are read as UTF-8 without a conversion. -/
def isUtf8 (source : StringView) : Bool :=
  source.enc = .ascii ∨ source.enc = .utf8 ∨ source.enc = .asciiOrUtf8

/-- The prefix with `spaces` blanks behind it, checked and measured. -/
def LineStart.reset (properties : Properties) (source : StringView) (spaces : Int) :
    Except NativeError LineStart :=
  if spaces < 0 then .error (.invalidArgument "negative wrap indentation")
  else if source.isNa then .ok ⟨[], 0, 0, false, true⟩
  else if source.len < 0 ∨ (source.isNull ∧ source.len ≠ 0) then
    .error (.invalidArgument "invalid wrap prefix string view")
  else if !isUtf8 source then .error (.invalidArgument "wrap prefix is not normalized UTF-8")
  else do
    let _ ← checkedSum source.bytes.length spaces.toNat
    let ascii := markedAscii source
    let count ← if ascii then .ok source.bytes.length else codePointCount source.bytes
    let width ← stringWidth properties source.bytes
    return ⟨source.bytes ++ List.replicate spaces.toNat 0x20, count + spaces, width + spaces,
      ascii, false⟩

/-! ## Preparing a record -/

/-- The bytes to be wrapped. -/
structure Record where
  data : List UInt8
  ascii : Bool
  deriving DecidableEq, Repr

/-- Whether the text goes on with a byte order mark. -/
def hasBomAt (text : List UInt8) (cursor : Nat) : Bool := hasBom (text.drop cursor)

/-- Behind the byte order marks at the start, at most three of them. -/
def skipBoms (text : List UInt8) : (stages cursor : Nat) → Nat
  | 0, cursor => cursor
  | stages + 1, cursor =>
      if hasBomAt text cursor then skipBoms text stages (cursor + 3) else cursor

/-- The code points from `cursor` on, with runs of line breaks, blanks and tabs as one
blank. A mark right behind a line break is dropped. -/
def prepareLoop (text : List UInt8) : (fuel cursor : Nat) → (fieldStart inSpaceRun : Bool) →
    (prepared : List UInt8) → Except NativeError (List UInt8)
  | 0, _, _, _, prepared => .ok prepared
  | fuel + 1, cursor, fieldStart, inSpaceRun, prepared =>
      if cursor < text.length then
        if fieldStart && hasBomAt text cursor then
          prepareLoop text fuel (cursor + 3) false inSpaceRun prepared
        else
          let (codePoint, behind) := next text cursor
          if codePoint < 0 then .error invalidUtf8
          else
            let blanked := if inSpaceRun then prepared else prepared ++ [0x20]
            if linebreak codePoint then
              let behind :=
                if codePoint = 0x0d ∧ behind < text.length ∧ byteAt text behind = 0x0a then
                  behind + 1
                else behind
              prepareLoop text fuel behind true true blanked
            else if codePoint = 0x20 ∨ codePoint = 0x09 then
              prepareLoop text fuel behind false true blanked
            else
              prepareLoop text fuel behind false false
                (prepared ++ (text.drop cursor).take (behind - cursor))
      else .ok prepared

/-- Behind the white space from `cursor` on. -/
def trimStart (text : List UInt8) : (fuel cursor : Nat) → Nat
  | 0, cursor => cursor
  | fuel + 1, cursor =>
      if cursor < text.length then
        if whitespace (next text cursor).1 then trimStart text fuel (next text cursor).2
        else cursor
      else cursor

/-- `U8_PREV`: the code point that ends at `index` and where it starts. -/
def prev (text : List UInt8) (index : Nat) : CodePoint × Nat :=
  let start := back1 text index
  let (codePoint, behind) := next (text.take index) start
  (if behind = index then codePoint else sentinel, start)

/-- Before the white space that ends at `stop`. -/
def trimEnd (text : List UInt8) (start : Nat) : (fuel stop : Nat) → Nat
  | 0, stop => stop
  | fuel + 1, stop =>
      if start < stop then
        if whitespace (prev text stop).1 then trimEnd text start fuel (prev text stop).2 else stop
      else stop

/-- The text without white space at its ends. -/
def trim (text : List UInt8) : List UInt8 :=
  let start := trimStart text text.length 0
  let stop := trimEnd text start text.length text.length
  (text.drop start).take (stop - start)

/-- The record that is wrapped. Normalizing drops leading marks, collapses white space, trims, and
puts what is not ASCII into normal form C. -/
def prepareRecord (icu : Icu) (normalize : Bool) (source : StringView) : Except Fault Record :=
  if source.isNa then .error (.thrown (.invalidArgument "cannot wrap a missing string"))
  else if source.len < 0 ∨ (source.isNull ∧ source.len ≠ 0) then
    .error (.thrown (.invalidArgument "invalid wrap input string view"))
  else if !isUtf8 source then
    .error (.thrown (.invalidArgument "wrap input is not normalized UTF-8"))
  else if !normalize then .ok ⟨source.bytes, markedAscii source⟩
  else
    let cursor := skipBoms source.bytes 3 0
    match prepareLoop source.bytes source.bytes.length cursor (cursor = 0) false [] with
    | .error error => .error (.thrown error)
    | .ok prepared =>
        let trimmed := trim prepared
        if isAscii trimmed then .ok ⟨trimmed, true⟩
        else
          let (normalized, status) := icu.normalizeNfc trimmed
          if failed status then .error (.status status)
          else if normalized.length > intMax then
            .error (.thrown (.lengthError "normalized string exceeds R's string length limit"))
          else
            let data := if hasBom normalized then normalized.drop 3 else normalized
            .ok ⟨data, isAscii data⟩

/-! ## Words -/

/-- The error of a record that still has a newline. -/
def newlineFound : NativeError := .runtimeError "newline character found in a string"

/-- What is known of the bytes of an ASCII record so far. -/
structure AsciiScan where
  measured : Int
  lastWidth : Int
  lastWhitespace : Bool
  current : CodePoint
  reset : Bool

section Words

variable {Cost : Type} (icu : Icu) (options : Options Cost)

/-- The width of all bytes; nothing if one of them is not ASCII. -/
def asciiLoop : List UInt8 → AsciiScan → Except NativeError (Option AsciiScan)
  | [], scan => .ok (some scan)
  | byte :: rest, scan =>
      if byte ≥ 0x80 then .ok none
      else if 0x0a ≤ byte ∧ byte ≤ 0x0d then .error newlineFound
      else
        let current : CodePoint := byte.toNat
        let (columns, reset) :=
          if options.useLength then (1, scan.reset)
          else widthCharWithContext icu.properties current scan.current scan.reset
        asciiLoop rest ⟨scan.measured + columns, columns, whitespace current, current, reset⟩

/-- Where an ASCII record that fits on one line ends without its last white space. -/
def asciiFits (record : Record) (firstWidth : Int) : Except NativeError (Option Nat) :=
  if record.data.length ≤ 0 then .ok none
  else do
    let some scan ← asciiLoop icu options record.data ⟨0, 0, false, 0, true⟩ | return none
    let trimmed := scan.measured - if scan.lastWhitespace then scan.lastWidth else 0
    if firstWidth + trimmed ≤ options.width then
      return some (record.data.length - if scan.lastWhitespace then 1 else 0)
    else return none

/-- The widths and counts of a word so far; `trim` is what its last code point would
lose if it is white space. -/
structure WordScan where
  widthOrig : UInt32
  widthTrim : UInt32
  countOrig : UInt32
  countTrim : UInt32
  endTrim : Nat
  current : CodePoint
  reset : Bool

/-- `text` ends with the word. -/
def wordLoop (text : List UInt8) : (fuel cursor : Nat) → WordScan → Except NativeError WordScan
  | 0, _, scan => .ok scan
  | fuel + 1, cursor, scan =>
      if cursor < text.length then
        let (current, behind) := next text cursor
        if current < 0 then .error invalidUtf8
        else if linebreak current then .error newlineFound
        else
          let (columns, reset) :=
            widthCharWithContext icu.properties current scan.current scan.reset
          let counted := { scan with
            widthOrig := scan.widthOrig + UInt32.ofInt columns
            countOrig := scan.countOrig + 1, current, reset }
          if whitespace current then
            -- the white space is measured a second time, with the flag the first one left
            let (columns, reset) := widthCharWithContext icu.properties current scan.current reset
            wordLoop text fuel behind
              { counted with
                widthTrim := UInt32.ofInt columns, countTrim := 1, endTrim := cursor, reset }
          else
            wordLoop text fuel behind
              { counted with widthTrim := 0, countTrim := 0, endTrim := behind }
      else .ok scan

/-- The word between two boundaries, measured with and without its trailing white space. -/
def addWord (data : List UInt8) (start stop : Nat) : Except NativeError Word := do
  let scan ← wordLoop icu (data.take stop) (stop - start) start ⟨0, 0, 0, 0, start, 0, true⟩
  return {
    endOrig := stop
    endTrim := scan.endTrim
    widthOrig := if options.useLength then scan.countOrig else scan.widthOrig
    widthTrim :=
      if options.useLength then scan.countOrig - scan.countTrim
      else scan.widthOrig - scan.widthTrim }

/-- `U8_GET`: the code point the byte at `index` belongs to. -/
def codePointAt (text : List UInt8) (index : Nat) : CodePoint :=
  let start := if isTrail (byteAt text index) then back1SafeBody text index else index
  (next text start).1

/-- Whether a line may be broken at the end of a segment. -/
def accepted (data : List UInt8) (segmentEnd : Nat) : Bool :=
  if options.whitespaceOnly then
    if 0 < segmentEnd ∧ segmentEnd < data.length then whitespace (codePointAt data (segmentEnd - 1))
    else true
  else true

/-- The words up to the ends of the segments. -/
def cutWords (data : List UInt8) : (previousEnd : Nat) → List Nat → Except NativeError (List Word)
  | _, [] => .ok []
  | previousEnd, segmentEnd :: rest =>
      if accepted options data segmentEnd && 0 < segmentEnd then do
        let word ← addWord icu options data previousEnd segmentEnd
        let words ← cutWords data segmentEnd rest
        return word :: words
      else cutWords data previousEnd rest

end Words

/-! ## Plans -/

/-- The lines of a record. -/
inductive Layout where
  | passthrough
  | direct (stop : Nat)
  | broken (words : List Word) (wrapAfter : List Nat)
  deriving DecidableEq, Repr

/-- A record with the layout that was chosen for it. -/
structure Plan where
  record : Record
  layout : Layout
  deriving DecidableEq, Repr

/-- The number of lines the plan writes. -/
def Plan.lineCount (plan : Plan) : Nat :=
  match plan.layout with
  | .passthrough => 1
  | .direct _ => 1
  | .broken _ wrapAfter => wrapAfter.length + 1

section Plans

variable {Cost : Type} [Zero Cost] [One Cost] [Neg Cost] [Add Cost] [LT Cost] [LE Cost]
  [DecidableLT Cost] [DecidableLE Cost] (icu : Icu) (options : Options Cost)
  (pow : Int → Cost → Cost)

/-- Where the lines of some words are broken. -/
def wrapWords (widths : LineWidths) (words : List Word) (matrices : Matrices Cost) :
    Except Fault (Matrices Cost × List Nat) :=
  if fitsOneLine widths words then .ok (matrices, [])
  else if options.exponent ≤ 0 then .ok (matrices, greedy widths words)
  else dynamic widths (fun remaining => pow remaining options.exponent) words matrices

/-- The width of a line, less what the first line and the later ones begin with. -/
def lineWidths (first later : LineStart) : LineWidths where
  width := options.width
  first := if options.useLength then first.count else first.width
  later := if options.useLength then later.count else later.width

/-- Plan a record; the matrices are what the engine keeps from record to record. -/
def plan (source : StringView) (first later : LineStart) (matrices : Matrices Cost) :
    Except Fault (Matrices Cost × Plan) :=
  if first.missing ∨ later.missing then
    .error (.thrown (.invalidArgument "missing wrap line start"))
  else do
    let record ← prepareRecord icu options.normalize source
    let widths := lineWidths options first later
    match asciiFits icu options record widths.first with
    | .error error => .error (.thrown error)
    | .ok (some stop) => .ok (matrices, ⟨record, .direct stop⟩)
    | .ok none =>
        let (status, ends) := icu.boundaries record.data
        if failed status then .error (.status status)
        else
          match cutWords icu options record.data 0 ends with
          | .error error => .error (.thrown error)
          | .ok [] => .ok (matrices, ⟨record, .passthrough⟩)
          | .ok words => do
              let (matrices, wrapAfter) ← wrapWords options pow widths words matrices
              if wrapAfter.length ≥ intMax then
                .error (.thrown (.lengthError "word-wrap result has too many lines"))
              else .ok (matrices, ⟨record, .broken words wrapAfter⟩)

end Plans

/-! ## Lines -/

/-- A line as it is written out. -/
structure Line where
  bytes : List UInt8
  ascii : Bool
  deriving DecidableEq, Repr

/-- The bytes of the record on a line. -/
def lineRange (words : List Word) (wrapAfter : List Nat) (index : Nat) : Option (Nat × Nat) :=
  let start : Option Nat :=
    if index > 0 then
      wrapAfter[index - 1]?.bind fun previous => words[previous]?.map Word.endOrig
    else some 0
  let stop : Option Nat :=
    if index < wrapAfter.length then
      wrapAfter[index]?.bind fun current => words[current]?.map Word.endTrim
    else words.getLast?.map Word.endTrim
  start.bind fun start => stop.map fun stop => (start, stop)

/-- The start of a line and some bytes of the record behind it. -/
def Plan.lineOf (plan : Plan) (start : LineStart) (begin stop : Nat) : Except Fault Line :=
  let body := (plan.record.data.drop begin).take (stop - begin)
  match checkedSum start.bytes.length body.length with
  | .error error => .error (.thrown error)
  | .ok _ => .ok ⟨start.bytes ++ body, start.ascii && (plan.record.ascii || isAscii body)⟩

/-- A line of a plan, classified. -/
def Plan.line (plan : Plan) (first later : LineStart) (index : Nat) : Except Fault Line :=
  if index ≥ plan.lineCount then
    .error (.thrown (.outOfRange "wrapped line index is out of range"))
  else
    let start := if index = 0 then first else later
    match plan.layout with
    | .passthrough => .ok ⟨plan.record.data, plan.record.ascii⟩
    | .direct stop => plan.lineOf start 0 stop
    | .broken words wrapAfter =>
        match lineRange words wrapAfter index with
        | none => .error .outOfBounds
        | some (begin, stop) => plan.lineOf start begin stop

end Charr.Wrap
