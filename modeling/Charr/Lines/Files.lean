import Charr.Library.Loops
import Charr.Lines.Repair
import Charr.Output.Record
import Charr.Text.CodePoints

/-!
# Files of lines

Writing puts every string, brought to UTF-8, and the separator behind it through the buffer of
the file. Reading takes a whole file, cuts off a byte order mark, splits it into lines and
repairs what is ill-formed, with a warning for each place. What was written comes back.
-/

namespace Charr.Lines

open Loops
open Utf8 (sentinel Token tokens tokenBytes)

/-! ## Text that is valid until the converter is used again -/

/-- A conversion to UTF-8 that left bytes which are none. -/
def invalidConversion : NativeError :=
  .runtimeError "encoding conversion returned invalid bytes"

/-- Converted bytes, where the converter put them. -/
def transient (converted : ViewData) : Except NativeError StringView :=
  match converted with
  | .null len =>
      if len < 0 ∨ len > 0 then .error invalidConversion else .ok ⟨.bytes emptySpan, .utf8⟩
  | .bytes span => .ok ⟨.bytes (if span.bytes.length = 0 then emptySpan else span), .utf8⟩

section Transient

variable (converter : NativeToUtf8)

/-- A value in UTF-8: borrowed where it is so already, converted into a buffer that the next one
overwrites otherwise. -/
def normalizeUtf8TransientSlow (source : StringView) : Except NativeError StringView :=
  if source.isNa then .ok source
  else
    match source.data with
    | .null _ => .error (.runtimeError "invalid string view")
    | .bytes span =>
        match source.enc with
        | .bytes => .error (.runtimeError "bytes encoding is not supported by this function")
        | .ascii => .ok source
        | .utf8 => .ok (borrowed (hasBom span.bytes) span .utf8)
        | .asciiOrUtf8 =>
            .ok (borrowed (hasBom span.bytes) span
              (if hasBom span.bytes then .utf8 else .asciiOrUtf8))
        | .latin1 => do transient (← converter.latin1 span.bytes)
        | .native =>
            if converter.nativeIsUtf8 then .ok (borrowed (hasBom span.bytes) span .utf8)
            else do transient (← converter.native span.bytes)
        | .missing => .error (.runtimeError "non-missing string view has NA encoding")
        | .unknown => .error (.runtimeError "unknown string encoding")

/-- ASCII and UTF-8 are borrowed where they are, without a byte order mark. -/
def normalizeUtf8Transient (source : StringView) : Except NativeError StringView :=
  if source.isNa then .ok source
  else
    match source.data with
    | .null _ => normalizeUtf8TransientSlow converter source
    | .bytes span =>
        if source.enc = .ascii then .ok source
        else if source.enc = .utf8 ∨ source.enc = .asciiOrUtf8 then
          if hasBom span.bytes then .ok ⟨.bytes (span.slice 3 span.bytes.length), .utf8⟩
          else .ok source
        else normalizeUtf8TransientSlow converter source

/-- What a string says in UTF-8. -/
def utf8Text (source : StringView) : Except NativeError (List UInt8) :=
  (normalizeUtf8Transient converter source).map StringView.bytes

end Transient

/-! ## Writing -/

/-- What the file system answers: an error number, or nothing when all went well. -/
structure Disk where
  opens : Option Nat
  stream : List UInt8 → List UInt8 → Option Nat
  closing : List UInt8 → Option Nat

/-- `reset`: the file is opened anew, and empty. -/
def FileWriter.reset (disk : Disk) : Except WriteError FileWriter :=
  match disk.opens with
  | some errno => .error (.fileWrite errno)
  | none => .ok ⟨true, [], [], Nat.zero_le _⟩

/-- `close`: what is still staged goes first. -/
def FileWriter.close (disk : Disk) (writer : FileWriter) : Except WriteError FileWriter :=
  if !writer.isOpen then .ok writer
  else do
    let writer ← flush disk.stream writer
    match disk.closing writer.file with
    | some errno => .error (.fileWrite errno)
    | none => .ok { writer with isOpen := false }

/-- `ptr` of a view. -/
def pointer (view : StringView) : Option (List UInt8) :=
  match view.data with
  | .null _ => none
  | .bytes span => some span.bytes

/-- `MSG__BYTESENC`. -/
def bytesEncodingError : NativeError :=
  .striException "bytes encoding is not supported by this function"

/-- Missing strings and bytes are refused before the file is touched. -/
def checkValues : List StringView → Except NativeError Unit
  | [] => .ok ()
  | value :: rest =>
      if value.isNa then .error (.striException "missing strings are not supported")
      else if value.enc = .bytes then .error bytesEncodingError
      else checkValues rest

/-- The separator may neither be missing nor be marked as bytes. -/
def checkSeparator (separator : StringView) : Except NativeError Unit :=
  if separator.isNa then .error (.striException "invalid 'sep' value")
  else if separator.enc = .bytes then .error bytesEncodingError
  else .ok ()

/-- The connection must be named. -/
def checkPath (path : Option String) : Except NativeError Unit :=
  if path.isNone then .error (.striException "invalid 'con' value") else .ok ()

section Write

variable (converter : NativeToUtf8) (disk : Disk)

/-- Each value and the separator behind it, up to the first failure. -/
def writeValues (separator : List UInt8) :
    List StringView → FileWriter → Except WriteError FileWriter
  | [], writer => .ok writer
  | source :: rest, writer => do
      let value ← (normalizeUtf8Transient converter source).mapError .native
      let writer ← writeUtf8 disk.stream (pointer value) value.len writer
      let writer ← writeUtf8 disk.stream (some separator) separator.length writer
      writeValues separator rest writer

/-- What is said about a failure on the disk. -/
def WriteError.report (strerror : Nat → String) (description : String) :
    WriteError → NativeError
  | .native error => error
  | .fileWrite errno =>
      .striException ("cannot write file '" ++ description ++ "': " ++ strerror errno)

/-- `ci_write_lines` without its reports. -/
def writeLines (path : Option String) (separator : StringView) (values : List StringView) :
    Except WriteError FileWriter := do
  (checkPath path).mapError .native
  (checkSeparator separator).mapError .native
  (checkValues values).mapError .native
  let bytes ← (utf8Text converter separator).mapError .native
  let writer ← FileWriter.reset disk
  let writer ← writeValues converter disk bytes values writer
  writer.close disk

/-- `ci_write_lines`. -/
def ciWriteLines (strerror : Nat → String) (path : Option String) (separator : StringView)
    (values : List StringView) : Except NativeError FileWriter :=
  (writeLines converter disk path separator values).mapError
    (WriteError.report strerror (path.getD ""))

end Write

/-! ## Reading -/

/-- Why a file cannot be opened. -/
inductive FileCondition where
  | directory
  | openFailed
  deriving DecidableEq, Repr

/-- What is found under a path. -/
inductive FileSource where
  | condition (condition : FileCondition) (errno : Nat)
  /-- The size cannot be told. -/
  | unsized
  /-- Of so many bytes not all can be read. -/
  | unreadable (size : Nat)
  | contents (bytes : List UInt8)

/-- The error that follows the warnings of a file that cannot be opened. -/
def connectionError : NativeError := .striException "cannot open the connection"

/-- The warnings of an operation, in the order they are raised, and its outcome. -/
structure ReadOutcome where
  warnings : List String
  result : Except NativeError (List OutputRecord)

/-- What is warned of before that error. -/
def fileWarnings (strerror : Nat → String) (description : String) (errno : Nat) :
    FileCondition → List String
  | .directory =>
      ["'raw = FALSE' but '" ++ description ++ "' is not a regular file",
        "cannot open file '" ++ description ++ "': it is a directory"]
  | .openFailed => ["cannot open file '" ++ description ++ "': " ++ strerror errno]

/-- The size of a file has to be an `int`. -/
def checkSize (size : Nat) : Except NativeError Unit :=
  if intMax < size then .error (.lengthError "file is too large") else .ok ()

/-- The bytes of the file, or the error of what could not be opened, measured or read. -/
def FileSource.read : FileSource → Except NativeError (List UInt8)
  | .condition _ _ => .error connectionError
  | .unsized => .error (.runtimeError "cannot determine file size")
  | .unreadable size => do
      checkSize size
      if 0 < size then .error (.runtimeError "cannot read the connection") else .ok []
  | .contents bytes => do
      checkSize bytes.length
      return bytes

/-! ### Warnings about ill-formed text -/

/-- A text in a buffer that has room for `capacity` characters, the last of them a NUL. -/
structure Printed where
  text : List Char
  position : Nat
  deriving DecidableEq

/-- `snprintf` behind what was printed before. -/
def Printed.print (capacity : Nat) (printed : Printed) (text : List Char) : Printed where
  text := printed.text.take printed.position ++ text.take (capacity - printed.position - 1)
  position := min (printed.position + text.length) (capacity - 1)

/-- `\x%02x`. -/
def hexByte (byte : UInt8) : List Char :=
  ['\\', 'x', Nat.digitChar (byte.toNat / 16), Nat.digitChar (byte.toNat % 16)]

/-- Print the bytes in hexadecimal as long as the buffer has room. -/
def printBytes (capacity : Nat) : List UInt8 → Printed → Printed
  | [], printed => printed
  | byte :: rest, printed =>
      if printed.position < capacity - 1 then
        printBytes capacity rest (printed.print capacity (hexByte byte))
      else printed

/-- The size of the buffer of the warning. -/
def invalidWarningSize : Nat := 256

/-- `format_invalid_warning`. -/
def formatInvalidWarning (data : List UInt8) (invalid : InvalidSequence) (capacity : Nat) :
    List Char :=
  if capacity = 0 then []
  else if invalid.length < 1 ∨ invalid.length > 4 then
    (Printed.print capacity ⟨[], 0⟩
      ("some input data in the current source encoding could not be " ++
        "converted to Unicode").toList).text
  else
    let printed := Printed.print capacity ⟨[], 0⟩ "input data ".toList
    let printed := printBytes capacity
      ((data.drop invalid.begin.toNat).take invalid.length.toNat) printed
    (printed.print capacity
      " in the current source encoding could not be converted to Unicode".toList).text

/-- `build_store_records`. -/
def buildStoreRecords (data : List UInt8) (scan : ScanResult) : List OutputRecord :=
  scan.lines.map fun line =>
    ⟨if line.length = 0 then [] else sliceBytes data line, if line.ascii then .ascii else .utf8⟩

/-- The bytes behind a byte order mark. -/
def withoutBom (bytes : List UInt8) : List UInt8 := if hasBom bytes then bytes.drop 3 else bytes

/-- The part of `ci_read_lines` behind the reading itself. -/
def readRecords (source : List UInt8) : Except NativeError (List OutputRecord × ScanResult) := do
  let scan ← scanUtf8 (some source) source.length false false
  if scan.embeddedNul then .error (.striException "embedded nul in string")
  else if scan.invalid = [] then return (buildStoreRecords source scan, scan)
  else do
    let repaired ← repairUtf8 (some source) source.length scan.invalid []
    let again ← scanUtf8 (some repaired) repaired.length false false
    return (buildStoreRecords repaired again, scan)

/-- The lines of a file and the warning about its first ill-formed bytes. -/
def readContents (source : List UInt8) : ReadOutcome :=
  match readRecords source with
  | .error error => ⟨[], .error error⟩
  | .ok (records, scan) =>
      ⟨scan.invalid.map fun invalid =>
        String.ofList (formatInvalidWarning source invalid invalidWarningSize), .ok records⟩

/-- `ci_read_lines`. -/
def ciReadLines (strerror : Nat → String) (path encoding : Option String) (source : FileSource) :
    ReadOutcome :=
  match path, encoding with
  | none, _ => ⟨[], .error (.striException "invalid 'description' argument")⟩
  | some _, none => ⟨[], .error (.striException "invalid 'encoding' value")⟩
  | some description, some _ =>
      match source with
      | .condition condition errno =>
          ⟨fileWarnings strerror description errno condition, .error connectionError⟩
      | source =>
          match source.read with
          | .error error => ⟨[], .error error⟩
          | .ok bytes => readContents (withoutBom bytes)

/-! ## What is written -/

/-- The texts of a file, each with the separator behind it. -/
def joined (separator : List UInt8) (texts : List (List UInt8)) : List UInt8 :=
  texts.flatMap fun text => repairedText text ++ repairedText separator

section Written

variable {converter : NativeToUtf8} {disk : Disk}

theorem span_of_transient {conversion : Except NativeError ViewData} {value : StringView}
    (hvalue : (conversion >>= transient) = .ok value) :
    ∃ span enc, value = ⟨.bytes span, enc⟩ := by
  obtain ⟨converted, -, hvalue⟩ := except_bind_ok hvalue
  cases converted with
  | null len =>
      rw [transient] at hvalue
      split at hvalue
      · cases hvalue
      · exact ⟨_, _, (Except.ok.inj hvalue).symm⟩
  | bytes span => exact ⟨_, _, (Except.ok.inj hvalue).symm⟩

theorem span_of_normalizedSlow {source value : StringView} (hsource : source.isNa = false)
    (hvalue : normalizeUtf8TransientSlow converter source = .ok value) :
    ∃ span enc, value = ⟨.bytes span, enc⟩ := by
  rw [normalizeUtf8TransientSlow, hsource, if_neg Bool.false_ne_true] at hvalue
  cases hdata : source.data with
  | null len => simp [hdata] at hvalue
  | bytes span =>
      simp only [hdata] at hvalue
      cases henc : source.enc with
      | ascii =>
          simp only [henc] at hvalue
          obtain rfl := Except.ok.inj hvalue
          exact ⟨span, .ascii, by rw [← hdata, ← henc]⟩
      | utf8 =>
          simp only [henc] at hvalue
          exact ⟨_, _, (Except.ok.inj hvalue).symm⟩
      | asciiOrUtf8 =>
          simp only [henc] at hvalue
          exact ⟨_, _, (Except.ok.inj hvalue).symm⟩
      | latin1 =>
          simp only [henc] at hvalue
          exact span_of_transient hvalue
      | native =>
          simp only [henc] at hvalue
          split at hvalue
          · exact ⟨_, _, (Except.ok.inj hvalue).symm⟩
          · exact span_of_transient hvalue
      | bytes => simp [henc] at hvalue
      | missing => simp [henc] at hvalue
      | unknown => simp [henc] at hvalue

/-- A string that is present is normalized to bytes. -/
theorem span_of_normalized {source value : StringView} (hsource : source.isNa = false)
    (hvalue : normalizeUtf8Transient converter source = .ok value) :
    ∃ span enc, value = ⟨.bytes span, enc⟩ := by
  rw [normalizeUtf8Transient, hsource, if_neg Bool.false_ne_true] at hvalue
  cases hdata : source.data with
  | null len =>
      simp only [hdata] at hvalue
      exact span_of_normalizedSlow hsource hvalue
  | bytes span =>
      simp only [hdata] at hvalue
      split at hvalue
      · exact ⟨span, source.enc, by rw [← hdata, ← Except.ok.inj hvalue]⟩
      · split at hvalue
        · split at hvalue
          · exact ⟨_, _, (Except.ok.inj hvalue).symm⟩
          · exact ⟨span, source.enc, by rw [← hdata, ← Except.ok.inj hvalue]⟩
        · exact span_of_normalizedSlow hsource hvalue

/-- A normalized value can be read through its pointer. -/
theorem pointer_eq_of_normalized {source value : StringView} (hsource : source.isNa = false)
    (hvalue : normalizeUtf8Transient converter source = .ok value) :
    pointer value = some value.bytes ∧ value.len = value.bytes.length := by
  obtain ⟨span, enc, rfl⟩ := span_of_normalized hsource hvalue
  exact ⟨rfl, rfl⟩

theorem checkValues_ok {values : List StringView} (hvalues : checkValues values = .ok ()) :
    ∀ value ∈ values, value.isNa = false := by
  induction values with
  | nil => simp
  | cons value rest ih =>
      rw [checkValues] at hvalues
      split at hvalues
      · cases hvalues
      · next hna =>
          split at hvalues
          · cases hvalues
          · exact List.forall_mem_cons.mpr ⟨by simpa using hna, ih hvalues⟩

/-- The strings one after the other, unless the stream fails. -/
theorem wrote_writeValues (separator : List UInt8) {values : List StringView}
    (hvalues : ∀ value ∈ values, value.isNa = false) {texts : List (List UInt8)}
    (htexts : values.mapM (utf8Text converter) = .ok texts) {writer : FileWriter}
    (hopen : writer.isOpen = true) :
    Wrote disk.stream writer (joined separator texts)
      (writeValues converter disk separator values writer) := by
  induction values generalizing texts writer with
  | nil =>
      obtain rfl : [] = texts := Except.ok.inj htexts
      exact ⟨hopen, by simp [joined]⟩
  | cons value rest ih =>
      obtain ⟨hvalue, hrest⟩ := List.forall_mem_cons.mp hvalues
      rw [List.mapM_cons] at htexts
      obtain ⟨view, hview⟩ : ∃ view, normalizeUtf8Transient converter value = .ok view := by
        cases hview : normalizeUtf8Transient converter value with
        | error error => simp [utf8Text, hview, Except.map, bind, Except.bind] at htexts
        | ok view => exact ⟨view, rfl⟩
      obtain ⟨others, hothers, rfl⟩ : ∃ others, rest.mapM (utf8Text converter) = .ok others ∧
          view.bytes :: others = texts := by
        cases hothers : rest.mapM (utf8Text converter) with
        | error error =>
            simp [utf8Text, hview, hothers, Except.map, bind, Except.bind] at htexts
        | ok others =>
            refine ⟨others, rfl, ?_⟩
            simpa [utf8Text, hview, hothers, Except.map, bind, Except.bind, pure, Except.pure]
              using htexts
      obtain ⟨hpointer, hlen⟩ := pointer_eq_of_normalized hvalue hview
      have hjoined : joined separator (view.bytes :: others) =
          repairedText view.bytes ++ (repairedText separator ++ joined separator others) := by
        rw [joined, List.flatMap_cons, List.append_assoc]
        rfl
      rw [writeValues, hview, hjoined]
      change Wrote disk.stream writer _
        (writeUtf8 disk.stream (pointer view) view.len writer >>= _)
      rw [hpointer, hlen]
      apply (wrote_writeUtf8 view.bytes hopen).bind
      intro written _ hopen'
      apply (wrote_writeUtf8 separator hopen').bind
      intro written' _ hopen''
      exact ih hrest hothers hopen''

/-- The disk answered this error number while the file was written. -/
def Disk.Answers (disk : Disk) (errno : Nat) : Prop :=
  disk.opens = some errno ∨ (∃ file block, disk.stream file block = some errno) ∨
    ∃ file, disk.closing file = some errno

/-- Flushing moves what is staged into the file. -/
theorem flush_contents {writer flushed : FileWriter}
    (hflush : flush disk.stream writer = .ok flushed) :
    flushed.isOpen = writer.isOpen ∧ flushed.file = writer.contents ∧ flushed.staged = [] := by
  unfold flush at hflush
  split at hflush
  next hempty =>
    obtain rfl := Except.ok.inj hflush
    exact ⟨rfl, by simp [FileWriter.contents, hempty], hempty⟩
  next =>
    split at hflush
    · cases hflush
    · obtain rfl := Except.ok.inj hflush
      exact ⟨rfl, rfl, rfl⟩

/-- A closed file has everything, or the disk has answered an error. -/
theorem close_contents {writer : FileWriter} (hopen : writer.isOpen = true) :
    match writer.close disk with
    | .ok closed => closed.isOpen = false ∧ closed.file = writer.contents ∧ closed.staged = []
    | .error error => ∃ errno, error = .fileWrite errno ∧ disk.Answers errno := by
  unfold FileWriter.close
  simp only [hopen, Bool.not_true, Bool.false_eq_true, if_false]
  cases hflush : flush disk.stream writer with
  | error error =>
      unfold flush at hflush
      split at hflush
      · cases hflush
      · split at hflush
        next errno hstream =>
          obtain rfl := Except.error.inj hflush
          exact ⟨errno, rfl, .inr (.inl ⟨_, _, hstream⟩)⟩
        next => cases hflush
  | ok flushed =>
      obtain ⟨-, hfile, hstaged⟩ := flush_contents hflush
      change match (match disk.closing flushed.file with
        | some errno => Except.error (WriteError.fileWrite errno)
        | none => Except.ok { flushed with isOpen := false }) with
        | .ok closed => closed.isOpen = false ∧ closed.file = writer.contents ∧ closed.staged = []
        | .error error => ∃ errno, error = .fileWrite errno ∧ disk.Answers errno
      cases hclosing : disk.closing flushed.file with
      | some errno => exact ⟨errno, rfl, .inr (.inr ⟨_, hclosing⟩)⟩
      | none => exact ⟨rfl, hfile, hstaged⟩

section WriteLines

variable {path : Option String} {separator : StringView} {values : List StringView}

/-- The outcome when every string can be written: the whole file, or what the disk answered. -/
theorem writeLines_contents (hpath : checkPath path = .ok ())
    (hseparator : checkSeparator separator = .ok ()) (hvalues : checkValues values = .ok ())
    {bytes : List UInt8} (hbytes : utf8Text converter separator = .ok bytes)
    {texts : List (List UInt8)} (htexts : values.mapM (utf8Text converter) = .ok texts) :
    match writeLines converter disk path separator values with
    | .ok file => file.isOpen = false ∧ file.file = joined bytes texts ∧ file.staged = []
    | .error error => ∃ errno, error = .fileWrite errno ∧ disk.Answers errno := by
  unfold writeLines
  rw [hpath, hseparator, hvalues, hbytes]
  change match (FileWriter.reset disk >>= fun writer =>
      writeValues converter disk bytes values writer >>= fun writer => writer.close disk) with
    | .ok file => file.isOpen = false ∧ file.file = joined bytes texts ∧ file.staged = []
    | .error error => ∃ errno, error = .fileWrite errno ∧ disk.Answers errno
  unfold FileWriter.reset
  cases hopens : disk.opens with
  | some errno => exact ⟨errno, rfl, .inl hopens⟩
  | none =>
      have hwrote : Wrote disk.stream ⟨true, [], [], Nat.zero_le _⟩ (joined bytes texts)
          (writeValues converter disk bytes values ⟨true, [], [], Nat.zero_le _⟩) :=
        wrote_writeValues bytes (checkValues_ok hvalues) htexts rfl
      revert hwrote
      change _ → match (writeValues converter disk bytes values ⟨true, [], [], Nat.zero_le _⟩ >>=
          fun writer => writer.close disk) with
        | .ok file => file.isOpen = false ∧ file.file = joined bytes texts ∧ file.staged = []
        | .error error => ∃ errno, error = .fileWrite errno ∧ disk.Answers errno
      cases writeValues converter disk bytes values ⟨true, [], [], Nat.zero_le _⟩ with
      | error error =>
          rintro ⟨errno, file, block, rfl, hstream⟩
          exact ⟨errno, rfl, .inr (.inl ⟨file, block, hstream⟩)⟩
      | ok written =>
          rintro ⟨hopen, hcontents⟩
          have hclose := @close_contents disk written hopen
          rw [hcontents] at hclose
          exact hclose

/-- Values that were written have texts. -/
theorem exists_texts_of_writeValues {bytes : List UInt8} {writer written : FileWriter}
    (hwritten : writeValues converter disk bytes values writer = .ok written) :
    ∃ texts, values.mapM (utf8Text converter) = .ok texts := by
  induction values generalizing writer with
  | nil => exact ⟨[], rfl⟩
  | cons value rest ih =>
      rw [writeValues] at hwritten
      cases hview : normalizeUtf8Transient converter value with
      | error error => simp [hview, Except.mapError, bind, Except.bind] at hwritten
      | ok view =>
          rw [hview] at hwritten
          change (writeUtf8 disk.stream (pointer view) view.len writer >>= fun writer =>
            writeUtf8 disk.stream (some bytes) bytes.length writer >>= fun writer =>
              writeValues converter disk bytes rest writer) = .ok written at hwritten
          obtain ⟨_, _, hwritten⟩ := except_bind_ok hwritten
          obtain ⟨_, _, hwritten⟩ := except_bind_ok hwritten
          obtain ⟨texts, htexts⟩ := ih hwritten
          refine ⟨view.bytes :: texts, ?_⟩
          simp [List.mapM_cons, utf8Text, hview, htexts, Except.map, bind, Except.bind, pure,
            Except.pure]

/-- A file that was written is closed and has all strings. -/
theorem writeLines_ok {file : FileWriter}
    (hwritten : writeLines converter disk path separator values = .ok file) :
    ∃ bytes texts, utf8Text converter separator = .ok bytes ∧
      values.mapM (utf8Text converter) = .ok texts ∧
      file.isOpen = false ∧ file.file = joined bytes texts ∧ file.staged = [] := by
  have hparts := hwritten
  unfold writeLines at hparts
  obtain ⟨⟨⟩, hpath, hparts⟩ := except_bind_ok hparts
  obtain ⟨⟨⟩, hseparator, hparts⟩ := except_bind_ok hparts
  obtain ⟨⟨⟩, hvalues, hparts⟩ := except_bind_ok hparts
  obtain ⟨bytes, hbytes, hparts⟩ := except_bind_ok hparts
  obtain ⟨writer, -, hparts⟩ := except_bind_ok hparts
  obtain ⟨written, hwrote, -⟩ := except_bind_ok hparts
  obtain ⟨texts, htexts⟩ := exists_texts_of_writeValues hwrote
  have hcontents := @writeLines_contents converter disk path separator values
    (except_mapError_ok hpath) (except_mapError_ok hseparator) (except_mapError_ok hvalues)
    bytes (except_mapError_ok hbytes) texts htexts
  rw [hwritten] at hcontents
  exact ⟨bytes, texts, except_mapError_ok hbytes, htexts, hcontents⟩

end WriteLines

end Written

/-! ## What is read -/

/-- A line as it is returned. -/
def lineRecord (line : List UInt8) : OutputRecord := ⟨line, if isAscii line then .ascii else .utf8⟩

/-- The records of a file are its lines, the last one unless it is empty. -/
theorem buildStoreRecords_eq {data : List UInt8} {pieces : List Piece} {last : List UInt8}
    (hsplits : Splits data pieces last) :
    buildStoreRecords data (scanBytes data false false) =
      (pieces.map Prod.fst ++ if data = [] ∨ last ≠ [] then [last] else []).map lineRecord := by
  have hlaw := scanBytes_law hsplits false
  have hlines : (scanBytes data false false).lines.map (sliceBytes data) =
      pieces.map Prod.fst ++ if data = [] ∨ last ≠ [] then [last] else [] := by
    simpa using hlaw.lines
  rw [← hlines, List.map_map, buildStoreRecords]
  apply List.map_congr_left
  intro line hmem
  have hinside := hlaw.inside line hmem
  have hlength : (sliceBytes data line).length = line.length := by
    unfold sliceBytes
    rw [List.length_take, List.length_drop]
    omega
  have hascii : line.ascii = isAscii (sliceBytes data line) := by
    rw [Bool.eq_iff_iff, hlaw.ascii line hmem]
    simp [isAscii]
  rw [Function.comp_apply, lineRecord, hascii]
  split
  next hzero =>
    rw [hzero, List.length_eq_zero_iff] at hlength
    rw [hlength]
  next => rfl

/-- An ill-formed text is read as its repaired form. -/
theorem buildStoreRecords_repaired {data : List UInt8} {pieces : List Piece} {last : List UInt8}
    (hsplits : Splits data pieces last) :
    buildStoreRecords (repairedText data) (scanBytes (repairedText data) false false) =
      (pieces.map Prod.fst ++ if data = [] ∨ last ≠ [] then [last] else []).map
        fun line => lineRecord (repairedText line) := by
  rw [buildStoreRecords_eq hsplits.repaired]
  simp only [ne_eq, repairedText_eq_nil, List.map_append, List.map_map, apply_ite (List.map _),
    List.map_nil, List.map_cons]
  rfl

/-- A token reads as zero exactly if there is a zero byte. -/
theorem nul_mem_iff (text : List UInt8) :
    ((tokens text).any fun token => token.codePoint = 0) = decide (0 ∈ text) := by
  have hnul : tokens [0] = [⟨0, [0]⟩] := by
    rw [@Utf8.tokens_single 0 (by decide) [], Utf8.tokens_nil]
    rfl
  rw [Bool.eq_iff_iff, List.any_eq_true, decide_eq_true_iff]
  constructor
  · rintro ⟨token, hmem, hzero⟩
    have hzero := of_decide_eq_true hzero
    have hsame : token = ⟨0, [0]⟩ :=
      Utf8.eq_of_codePoint (Utf8.tokens_of_mem hmem) hnul (by rw [hzero]; decide) hzero
    rw [← Utf8.tokenBytes_tokens text, Utf8.tokenBytes, List.mem_flatMap]
    exact ⟨token, hmem, by rw [hsame]; exact List.mem_singleton_self _⟩
  · intro hmem
    obtain ⟨front, rest, rfl⟩ := List.append_of_mem hmem
    have hhead : ∀ byte ∈ (0 :: rest).head?, Utf8.isTrail (UInt8.toNat byte) = false := by
      intro byte hbyte
      obtain rfl := Option.some.inj hbyte
      decide
    have hsplit : tokens (0 :: rest) = ⟨0, [0]⟩ :: tokens rest :=
      @Utf8.tokens_single 0 (by decide) rest
    rw [Utf8.tokens_append hhead, hsplit]
    exact ⟨⟨0, [0]⟩, by simp, by decide⟩

/-! ### Warnings -/

/-- The whole text of a warning about these bytes. -/
def invalidWarning (bytes : List UInt8) : List Char :=
  "input data ".toList ++ bytes.flatMap hexByte ++
    " in the current source encoding could not be converted to Unicode".toList

theorem print_fits {capacity : Nat} {printed : Printed}
    (hposition : printed.position = printed.text.length) {text : List Char}
    (hfits : printed.text.length + text.length < capacity) :
    printed.print capacity text =
      ⟨printed.text ++ text, (printed.text ++ text).length⟩ := by
  unfold Printed.print
  have hroom : text.length ≤ capacity - printed.position - 1 := by omega
  have hmin : printed.position + text.length ≤ capacity - 1 := by omega
  rw [List.take_of_length_le hroom, min_eq_left hmin, hposition, List.take_length,
    List.length_append]

/-- Four characters a byte, as long as there is room for them. -/
theorem printBytes_fits {capacity : Nat} {bytes : List UInt8} {printed : Printed}
    (hposition : printed.position = printed.text.length)
    (hfits : printed.text.length + bytes.length * 4 < capacity) :
    printBytes capacity bytes printed =
      ⟨printed.text ++ bytes.flatMap hexByte,
        (printed.text ++ bytes.flatMap hexByte).length⟩ := by
  induction bytes generalizing printed with
  | nil =>
      obtain ⟨text, position⟩ := printed
      obtain rfl : position = text.length := hposition
      simp [printBytes]
  | cons byte rest ih =>
      rw [List.length_cons] at hfits
      have hless : printed.position < capacity - 1 := by omega
      have hhex : (hexByte byte).length = 4 := rfl
      rw [printBytes, if_pos hless, print_fits hposition (by rw [hhex]; omega),
        ih rfl (by rw [List.length_append, hhex]; omega), List.flatMap_cons, List.append_assoc]

/-- The buffer has room for the warning about any ill-formed subsequence. -/
theorem formatInvalidWarning_eq {before bytes behind : List UInt8} (hne : bytes ≠ [])
    (hshort : bytes.length ≤ 4) :
    formatInvalidWarning (before ++ bytes ++ behind) ⟨before.length, bytes.length⟩
        invalidWarningSize =
      invalidWarning bytes := by
  have hpos := List.length_pos_iff.mpr hne
  have hrange : ¬ ((bytes.length : Int) < 1 ∨ (bytes.length : Int) > 4) := by omega
  have hslice : ((before ++ bytes ++ behind).drop before.length).take bytes.length = bytes := by
    rw [List.append_assoc, List.drop_left, List.take_left]
  have hhex : (bytes.flatMap hexByte).length = bytes.length * 4 := by
    rw [List.length_flatMap]
    simp [hexByte]
  have hstart : Printed.print invalidWarningSize ⟨[], 0⟩ "input data ".toList =
      ⟨"input data ".toList, 11⟩ := by
    decide
  unfold formatInvalidWarning invalidWarning
  rw [if_neg (by decide), if_neg hrange]
  simp only [Int.toNat_natCast, hslice, hstart]
  have heleven : "input data ".toList.length = 11 := by decide
  have hend : " in the current source encoding could not be converted to Unicode".toList.length =
      65 := by
    decide
  have hcapacity : invalidWarningSize = 256 := rfl
  rw [printBytes_fits heleven.symm (by rw [heleven]; omega),
    print_fits rfl (by rw [List.length_append, hhex, heleven, hend]; omega)]

/-- The warnings about a text: one for each ill-formed subsequence, in order. -/
def invalidWarnings (source : List UInt8) : List String :=
  ((tokens source).filter fun token => token.codePoint = sentinel).map
    fun token => String.ofList (invalidWarning token.bytes)

/-- There is a warning for every ill-formed token. -/
theorem formatInvalidWarning_illFormed {source before : List UInt8} {list : List Token}
    (hlist : AreTokens list) (hsource : source = before ++ tokenBytes list) :
    (illFormed before.length list).map (fun invalid =>
        String.ofList (formatInvalidWarning source invalid invalidWarningSize)) =
      (list.filter fun token => token.codePoint = sentinel).map
        fun token => String.ofList (invalidWarning token.bytes) := by
  induction list generalizing before with
  | nil => rfl
  | cons token list ih =>
      have hsource' : source = (before ++ token.bytes) ++ tokenBytes list := by
        rw [hsource, Utf8.tokenBytes_cons, List.append_assoc]
      have hrest := ih hlist.tail hsource'
      rw [List.length_append] at hrest
      by_cases hill : token.codePoint = sentinel
      · have hshort : token.bytes.length ≤ 4 :=
          (Utf8.length_bytes_le hlist.head hill).1.trans (by decide)
        have hwarning := @formatInvalidWarning_eq before token.bytes (tokenBytes list)
          (Utf8.bytes_ne_nil hlist.head) hshort
        rw [← hsource'] at hwarning
        rw [illFormed, if_pos hill, List.map_cons, hwarning, hrest,
          List.filter_cons_of_pos (by simpa using hill), List.map_cons]
      · rw [illFormed, if_neg hill, hrest, List.filter_cons_of_neg (by simpa using hill)]

/-- The warnings of a text. -/
theorem map_formatInvalidWarning (source : List UInt8) :
    (illFormed 0 (tokens source)).map (fun invalid =>
        String.ofList (formatInvalidWarning source invalid invalidWarningSize)) =
      invalidWarnings source :=
  @formatInvalidWarning_illFormed source [] _ (areTokens_tokens source)
    (Utf8.tokenBytes_tokens source).symm

/-! ### Any file -/

/-- What reading a text gives, as a whole. -/
def readText (source : List UInt8) (lines : List (List UInt8)) : ReadOutcome :=
  if 0 ∈ source then ⟨[], .error (.striException "embedded nul in string")⟩
  else if intMax < (repairedText source).length then ⟨[], .error stringSizeError⟩
  else ⟨invalidWarnings source, .ok (lines.map fun line => lineRecord (repairedText line))⟩

/-- There is no ill-formed range exactly if every token is complete. -/
theorem illFormed_eq_nil_iff {begin : Nat} {list : List Token} :
    illFormed begin list = [] ↔ ∀ token ∈ list, token.codePoint ≠ sentinel := by
  refine ⟨fun hnil => ?_, illFormed_eq_nil begin⟩
  induction list generalizing begin with
  | nil => simp
  | cons token list ih =>
      rw [illFormed] at hnil
      split at hnil
      · cases hnil
      next hcomplete => exact List.forall_mem_cons.mpr ⟨hcomplete, ih hnil⟩

/-- A complete text needs no repair. -/
theorem repairedText_of_complete {text : List UInt8}
    (hcomplete : ∀ token ∈ tokens text, token.codePoint ≠ sentinel) :
    repairedText text = text := by
  have hmap : (tokens text).map repairToken = (tokens text).map id :=
    List.map_congr_left fun token hmem => repairToken_of_complete (hcomplete token hmem)
  rw [repairedText, repairedBytes, hmap, List.map_id, Utf8.tokenBytes_tokens]

/-- Reading returns the repaired lines, or refuses the file. -/
theorem readContents_eq {source : List UInt8} (hlength : source.length ≤ intMax)
    {pieces : List Piece} {last : List UInt8} (hsplits : Splits source pieces last) :
    readContents source =
      readText source (pieces.map Prod.fst ++ if source = [] ∨ last ≠ [] then [last] else []) := by
  have hscan : scanBytes source false false =
      { scanBytes source false false with
        invalid := illFormed 0 (tokens source), embeddedNul := decide (0 ∈ source) } := by
    rw [← nul_mem_iff, scanBytes_eq hsplits]
  have hnul : (scanBytes source false false).embeddedNul = decide (0 ∈ source) := by rw [hscan]
  have hinvalid : (scanBytes source false false).invalid = illFormed 0 (tokens source) := by
    rw [hscan]
  unfold readContents readRecords readText
  rw [scanUtf8_some]
  by_cases hmem : 0 ∈ source
  · rw [if_pos hmem]
    have hset : (scanBytes source false false).embeddedNul = true := by rw [hnul]; simpa using hmem
    simp [bind, Except.bind, hset]
  · rw [if_neg hmem]
    have hclear : (scanBytes source false false).embeddedNul = false := by
      rw [hnul]
      simpa using hmem
    by_cases hnone : (scanBytes source false false).invalid = []
    · -- A well-formed text is its own repaired form, and no longer than it was.
      have hcomplete := illFormed_eq_nil_iff.mp (hinvalid.symm.trans hnone)
      have hsame := repairedText_of_complete hcomplete
      have hrecords := buildStoreRecords_repaired hsplits
      rw [hsame] at hrecords
      rw [hsame, if_neg (Nat.not_lt.mpr hlength), ← hrecords, ← map_formatInvalidWarning,
        ← hinvalid]
      simp [bind, Except.bind, pure, Except.pure, hclear, hnone]
    · -- The size of the repaired form may be too large.
      have hrepair := repairUtf8_eq hlength []
      rw [← hinvalid] at hrepair
      rw [← buildStoreRecords_repaired hsplits, ← map_formatInvalidWarning, ← hinvalid]
      by_cases hfits : (repairedText source).length ≤ intMax
      · rw [if_pos hfits] at hrepair
        rw [if_neg (Nat.not_lt.mpr hfits)]
        simp [bind, Except.bind, pure, Except.pure, hclear, hnone, hrepair, scanUtf8_some]
      · rw [if_neg hfits] at hrepair
        rw [if_pos (Nat.not_le.mp hfits)]
        simp [bind, Except.bind, hclear, hnone, hrepair]

/-- Reading a file whose text, behind a byte order mark, is split like this. -/
theorem ciReadLines_of_splits (strerror : Nat → String) (description encoding : String)
    {bytes : List UInt8} {pieces : List Piece} {last : List UInt8}
    (hsplits : Splits (withoutBom bytes) pieces last) :
    ciReadLines strerror (some description) (some encoding) (.contents bytes) =
      if intMax < bytes.length then ⟨[], .error (.lengthError "file is too large")⟩
      else readText (withoutBom bytes)
        (pieces.map Prod.fst ++ if withoutBom bytes = [] ∨ last ≠ [] then [last] else []) := by
  by_cases hlarge : intMax < bytes.length
  · rw [if_pos hlarge]
    simp [ciReadLines, FileSource.read, checkSize, hlarge, bind, Except.bind]
  · have hlength : (withoutBom bytes).length ≤ intMax := by
      unfold withoutBom
      split
      · rw [List.length_drop]
        omega
      · omega
    rw [if_neg hlarge, ← readContents_eq hlength hsplits]
    simp [ciReadLines, FileSource.read, checkSize, hlarge, bind, Except.bind, pure, Except.pure]

/-- Reading any file: the lines of its text without the byte order mark, repaired, with a warning
for each place that was; or the first thing that forbids it. -/
theorem ciReadLines_contents (strerror : Nat → String) (description encoding : String)
    (bytes : List UInt8) :
    ∃ pieces last, Splits (withoutBom bytes) pieces last ∧
      ciReadLines strerror (some description) (some encoding) (.contents bytes) =
        if intMax < bytes.length then ⟨[], .error (.lengthError "file is too large")⟩
        else readText (withoutBom bytes)
          (pieces.map Prod.fst ++ if withoutBom bytes = [] ∨ last ≠ [] then [last] else []) := by
  obtain ⟨pieces, last, hsplits⟩ := exists_splits (withoutBom bytes)
  exact ⟨pieces, last, hsplits, ciReadLines_of_splits strerror description encoding hsplits⟩

/-! ### Files that were written -/

theorem repairedText_newline : repairedText [0x0a] = [0x0a] := by
  have hline := @repairedText_line [] [0x0a] (by decide) []
  rwa [repairedText_eq_nil.mpr rfl] at hline

/-- Repairing joined texts is joining repaired ones. -/
theorem repairedText_joined (texts : List (List UInt8)) :
    repairedText (texts.flatMap fun text => text ++ [0x0a]) = joined [0x0a] texts := by
  induction texts with
  | nil => exact repairedText_eq_nil.mpr rfl
  | cons text rest ih =>
      rw [List.flatMap_cons, repairedText_line text (by decide), ih, joined, joined,
        List.flatMap_cons, repairedText_newline]

/-- Repairing neither adds nor removes a zero byte. -/
theorem nul_mem_repairedText (text : List UInt8) : 0 ∈ repairedText text ↔ 0 ∈ text := by
  have htoken : ∀ token : Token, (repairToken token).codePoint = 0 ↔ token.codePoint = 0 := by
    intro token
    by_cases hill : token.codePoint = sentinel
    · rw [repairToken_of_ill hill, hill]
      decide
    · rw [repairToken_of_complete hill]
  have hany : decide (0 ∈ repairedText text) = decide (0 ∈ text) := by
    rw [← nul_mem_iff, ← nul_mem_iff, tokens_repairedText, List.any_map]
    simp only [Function.comp_def, htoken]
  exact decide_eq_decide.mp hany

/-- The byte order mark. -/
def bomToken : Token := ⟨0xfeff, [0xef, 0xbb, 0xbf]⟩

/-- A byte order mark is the first token. -/
theorem hasBom_iff {text : List UInt8} :
    hasBom text = true ↔ (tokens text).head? = some bomToken := by
  constructor
  · intro hbom
    rw [Utf8.tokens_of_hasBom hbom]
    rfl
  · intro hhead
    obtain ⟨rest, htokens⟩ := List.head?_eq_some_iff.mp hhead
    rw [← Utf8.tokenBytes_tokens text, htokens, Utf8.tokenBytes_cons]
    simp [hasBom, bomToken]

/-- A repair makes no byte order mark. -/
theorem hasBom_repairedText (text : List UInt8) : hasBom (repairedText text) = hasBom text := by
  rw [Bool.eq_iff_iff, hasBom_iff, hasBom_iff, tokens_repairedText, List.head?_map]
  cases (tokens text).head? with
  | none => simp
  | some token =>
      rw [Option.map_some, Option.some.injEq, Option.some.injEq]
      by_cases hill : token.codePoint = sentinel
      · rw [repairToken_of_ill hill]
        refine ⟨fun h => absurd h (by decide), ?_⟩
        rintro rfl
        exact absurd hill (by decide)
      · rw [repairToken_of_complete hill]

/-- Only the first line can make a file begin with a byte order mark. -/
theorem hasBom_line (line rest : List UInt8) :
    hasBom (line ++ [0x0a] ++ rest) = hasBom line := by
  obtain ⟨newline, more, hnewline, htokens⟩ := @tokens_line line [0x0a] (by decide) rest
  rw [Bool.eq_iff_iff, hasBom_iff, hasBom_iff, htokens]
  cases htext : tokens line with
  | nil =>
      refine iff_of_false (fun hhead => ?_) (by simp)
      rw [List.nil_append, List.head?_cons, Option.some.injEq] at hhead
      rw [hhead] at hnewline
      exact absurd hnewline (by decide)
  | cons token list => rw [List.cons_append, List.head?_cons, List.head?_cons]

/-- Text that can be one line of a file. -/
def IsLine (text : List UInt8) : Prop := NewlineFree text ∧ 0 ∉ text

/-- A repaired line is a line. -/
theorem IsLine.repaired {text : List UInt8} (hline : IsLine text) : IsLine (repairedText text) :=
  ⟨newlineFree_repairedText hline.1, mt (nul_mem_repairedText text).mp hline.2⟩

/-- Repairing once is enough. -/
theorem repairedText_repairedText (text : List UInt8) :
    repairedText (repairedText text) = repairedText text :=
  repairedText_of_complete (complete_repairedText text)

/-- A file of repaired lines, each with a line feed behind it, is read as these lines. -/
theorem ciReadLines_joined (strerror : Nat → String) (description encoding : String)
    {texts : List (List UInt8)} (hne : texts ≠ []) (hall : ∀ text ∈ texts, IsLine text)
    (hbom : ∀ text ∈ texts.head?, hasBom text = false)
    (hsize : (joined [0x0a] texts).length ≤ intMax) :
    ciReadLines strerror (some description) (some encoding) (.contents (joined [0x0a] texts)) =
      ⟨[], .ok (texts.map fun text => lineRecord (repairedText text))⟩ := by
  have hrepaired := repairedText_joined texts
  generalize hfile : joined [0x0a] texts = file at hrepaired hsize ⊢
  have hlines : file = (texts.map repairedText).flatMap fun line => line ++ [0x0a] := by
    rw [← hfile, joined, List.flatMap_map, repairedText_newline]
  have hnobom : withoutBom file = file := by
    obtain ⟨text, rest, rfl⟩ := List.exists_cons_of_ne_nil hne
    have hfirst : hasBom text = false := hbom text rfl
    have hhead : hasBom file = false := by
      rw [hlines, List.map_cons, List.flatMap_cons, hasBom_line, hasBom_repairedText, hfirst]
    rw [withoutBom, hhead, if_neg Bool.false_ne_true]
  have hnul : ¬ 0 ∈ file := by
    rw [hlines]
    simp only [List.mem_flatMap, List.mem_map, List.mem_append, List.mem_singleton]
    rintro ⟨line, ⟨text, htext, rfl⟩, hmem | hmem⟩
    · exact (hall text htext).repaired.2 hmem
    · exact absurd hmem (by decide)
  have hfree : ∀ line ∈ texts.map repairedText, NewlineFree line := by
    intro line hmem
    obtain ⟨text, htext, rfl⟩ := List.mem_map.mp hmem
    exact (hall text htext).repaired.1
  have hcomplete : ∀ token ∈ tokens file, token.codePoint ≠ sentinel := by
    rw [← hrepaired]
    exact complete_repairedText _
  have hwarnings : invalidWarnings file = [] := by
    rw [← map_formatInvalidWarning, illFormed_eq_nil 0 hcomplete]
    rfl
  obtain ⟨pieces, last, hsplits⟩ := exists_splits (withoutBom file)
  have hread := ciReadLines_of_splits strerror description encoding hsplits
  rw [hnobom] at hsplits hread
  obtain ⟨rfl, rfl⟩ := hsplits.unique (hlines ▸ splits_of_lines hfree)
  have hfilled : file ≠ [] := by
    obtain ⟨text, rest, rfl⟩ := List.exists_cons_of_ne_nil hne
    simp [hlines]
  rw [hread, if_neg (Nat.not_lt.mpr hsize), readText, if_neg hnul,
    repairedText_of_complete hcomplete, if_neg (Nat.not_lt.mpr hsize), hwarnings]
  simp [hfilled, Function.comp_def, repairedText_repairedText]

section RoundTrip

variable {converter : NativeToUtf8} {disk : Disk} {path : Option String} {separator : StringView}
  {values : List StringView}

/-- The lines of a file that was written with line feeds are the strings that were written, each
of them repaired; nothing is left to warn about. -/
theorem ciReadLines_ciWriteLines (strerror : Nat → String) {file : FileWriter}
    (hwritten : ciWriteLines converter disk strerror path separator values = .ok file)
    (hseparator : utf8Text converter separator = .ok [0x0a]) (hne : values ≠ [])
    (hlines : ∀ value ∈ values, ∀ text, utf8Text converter value = .ok text → IsLine text)
    (hbom : ∀ value ∈ values.head?, ∀ text, utf8Text converter value = .ok text →
      hasBom text = false)
    (hsize : file.file.length ≤ intMax) (description encoding : String) :
    ∃ texts, values.mapM (utf8Text converter) = .ok texts ∧
      ciReadLines strerror (some description) (some encoding) (.contents file.file) =
        ⟨[], .ok (texts.map fun text => lineRecord (repairedText text))⟩ := by
  obtain ⟨bytes, texts, hbytes, htexts, -, hfile, -⟩ :=
    writeLines_ok (except_mapError_ok hwritten)
  obtain rfl : [0x0a] = bytes := Except.ok.inj (hseparator.symm.trans hbytes)
  refine ⟨texts, htexts, ?_⟩
  have hall : ∀ text ∈ texts, IsLine text := by
    intro text hmem
    obtain ⟨value, hvalue, htext⟩ := mem_of_mapM htexts text hmem
    exact hlines value hvalue text htext
  rw [hfile] at hsize ⊢
  cases values with
  | nil => exact absurd rfl hne
  | cons value rest =>
      rw [List.mapM_cons] at htexts
      obtain ⟨text, htext, htexts⟩ := except_bind_ok htexts
      obtain ⟨others, -, hreturn⟩ := except_bind_ok htexts
      obtain rfl : text :: others = texts := Except.ok.inj hreturn
      refine ciReadLines_joined strerror description encoding (List.cons_ne_nil _ _) hall ?_ hsize
      intro first hfirst
      obtain rfl := Option.some.inj hfirst
      exact hbom value rfl text htext

end RoundTrip

section Example

/-- Three strings: one with an ill-formed byte, an empty one, and one behind a byte order mark. -/
def sampleValues : List StringView :=
  [⟨.bytes ⟨100, [0x61, 0xff], by decide⟩, .utf8⟩, ⟨.bytes emptySpan, .ascii⟩,
    ⟨.bytes ⟨300, [0xef, 0xbb, 0xbf, 0x62], by decide⟩, .asciiOrUtf8⟩]

/-- A converter that is never asked for anything. -/
def sampleConverter : NativeToUtf8 := ⟨fun _ => .ok (.null 0), fun _ => .ok (.null 0), true⟩

/-- A disk that never fails. -/
def sampleDisk : Disk := ⟨none, fun _ _ => none, fun _ => none⟩

/-- A line feed as separator. -/
def sampleSeparator : StringView := ⟨.bytes ⟨400, [0x0a], by decide⟩, .ascii⟩

theorem isLine_sampleValues : ∀ value ∈ sampleValues, ∀ text,
    utf8Text sampleConverter value = .ok text → IsLine text := by
  have hill : tokens [0xff] = [⟨sentinel, [0xff]⟩] :=
    Utf8.tokens_of_next ⟨sentinel, [0xff]⟩ (by decide) (by decide)
  have hstray : NewlineFree [0x61, 0xff] := by
    unfold NewlineFree
    rw [Utf8.tokens_single (by decide), hill]
    decide
  have hletter : NewlineFree [0x62] := by
    unfold NewlineFree
    rw [Utf8.tokens_single (by decide), Utf8.tokens_nil]
    decide
  have hempty : NewlineFree [] := by simp [NewlineFree]
  intro value hmem text htext
  simp only [sampleValues, List.mem_cons, List.not_mem_nil, or_false] at hmem
  rcases hmem with rfl | rfl | rfl <;> obtain rfl := Except.ok.inj htext
  · exact ⟨hstray, by decide⟩
  · exact ⟨hempty, by decide⟩
  · exact ⟨hletter, by decide⟩

theorem ciReadLines_ciWriteLines_sample :
    ∃ file texts,
      ciWriteLines sampleConverter sampleDisk (fun _ => "") (some "lines.txt") sampleSeparator
        sampleValues = .ok file ∧
      sampleValues.mapM (utf8Text sampleConverter) = .ok texts ∧
      ciReadLines (fun _ => "") (some "lines.txt") (some "UTF-8") (.contents file.file) =
        ⟨[], .ok (texts.map fun text => lineRecord (repairedText text))⟩ := by
  have hwritten : ∃ file, ciWriteLines sampleConverter sampleDisk (fun _ => "") (some "lines.txt")
      sampleSeparator sampleValues = .ok file ∧ file.file.length ≤ intMax := ⟨_, rfl, by decide⟩
  obtain ⟨file, hfile, hsize⟩ := hwritten
  have hbom : ∀ value ∈ sampleValues.head?, ∀ text,
      utf8Text sampleConverter value = .ok text → hasBom text = false := by
    intro value hvalue text htext
    obtain rfl := Option.some.inj hvalue
    obtain rfl := Except.ok.inj htext
    decide
  obtain ⟨texts, htexts, hread⟩ := ciReadLines_ciWriteLines (fun _ => "") hfile rfl (by decide)
    isLine_sampleValues hbom hsize "lines.txt" "UTF-8"
  exact ⟨file, texts, hfile, htexts, hread⟩

end Example

end Charr.Lines
