import Charr.Lines.LineSplit

/-!
# Repairing ill-formed text

Two routines put U+FFFD in the place of every ill-formed subsequence. Reading
lines does it from the list the scan recorded, into a vector whose size it works
out first; writing lines does it on the way through the buffer of a file. Both
agree with the text read token by token.
-/

namespace Charr.Lines

open Utf8 (CodePoint byteAt next sentinel Token tokens tokenBytes)

/-- U+FFFD. -/
def replacementCharacter : List UInt8 := [0xef, 0xbf, 0xbd]

/-! ## Repair from the recorded list -/

/-- The error of ranges that overlap, are out of order or leave the data. -/
def repairRangeError : NativeError := .invalidArgument "invalid UTF-8 repair range"

/-- The error of a repaired text that would not fit in an R string. -/
def stringSizeError : NativeError :=
  .lengthError "converted UTF-8 string exceeds R string size"

/-- The first loop of `repair_utf8`: check the ranges and add up the size. -/
def outputLength (length : Int) :
    List InvalidSequence → Int → Nat → Except NativeError Nat
  | [], _, size => .ok size
  | sequence :: rest, copied, size =>
      if sequence.length ≤ 0 || sequence.begin < copied ||
          sequence.begin > length - sequence.length then
        .error repairRangeError
      else if sequence.length < 3 then
        if size > intMax - (3 - sequence.length).toNat then .error stringSizeError
        else
          outputLength length rest (sequence.begin + sequence.length)
            (size + (3 - sequence.length).toNat)
      else
        outputLength length rest (sequence.begin + sequence.length)
          (size - (sequence.length - 3).toNat)

/-- `memcpy` into a vector. -/
def overwrite (destination : List UInt8) (position : Nat) (bytes : List UInt8) : List UInt8 :=
  destination.take position ++ bytes ++ destination.drop (position + bytes.length)

/-- The bytes from `start` up to `stop`. -/
def bytesBetween (data : List UInt8) (start stop : Int) : List UInt8 :=
  (data.drop start.toNat).take (stop - start).toNat

/-- The vector being filled, with what has been copied and written of it. -/
structure Repair where
  destination : List UInt8
  copied : Int
  written : Nat
  deriving DecidableEq, Repr

/-- Write bytes where the last ones ended. -/
def Repair.append (repair : Repair) (bytes : List UInt8) : Repair :=
  { repair with
    destination := overwrite repair.destination repair.written bytes
    written := repair.written + bytes.length }

/-- The second loop: copy what is between the ranges. -/
def repairLoop (data : List UInt8) : List InvalidSequence → Repair → Repair
  | [], repair => repair
  | sequence :: rest, repair =>
      repairLoop data rest
        { (repair.append (bytesBetween data repair.copied sequence.begin)).append
            replacementCharacter with
          copied := sequence.begin + sequence.length }

/-- The bytes behind the last range. -/
def Repair.finish (data : List UInt8) (repair : Repair) : Repair :=
  repair.append (bytesBetween data repair.copied data.length)

/-- The data with every range replaced, in a buffer that must have room for it. -/
def repairBytes (data : List UInt8) (invalid : List InvalidSequence) (destination : List UInt8) :
    Repair :=
  (repairLoop data invalid ⟨destination, 0, 0⟩).finish data

/-- `std::vector::resize`. -/
def resize (output : List UInt8) (size : Nat) : List UInt8 :=
  output.take size ++ List.replicate (size - output.length) 0

/-- `repair_utf8` into a vector that may hold anything. -/
def repairUtf8 (data : Option (List UInt8)) (length : Int) (invalid : List InvalidSequence)
    (output : List UInt8) : Except NativeError (List UInt8) :=
  if length < 0 || (data.isNone && length ≠ 0) then
    .error (.invalidArgument "invalid UTF-8 byte view")
  else do
    let size ← outputLength length invalid 0 length.toNat
    return (repairBytes ((data.getD []).take length.toNat) invalid (resize output size)).destination

/-! ## Repair on the way to a file -/

/-- Why writing fails: an error of the backend, or one of the file system. -/
inductive WriteError where
  | native (error : NativeError)
  | fileWrite (errno : Nat)
  deriving DecidableEq, Repr

/-- The bytes that are staged before they are written. -/
def bufferSize : Nat := 65536

/-- A file being written: what the stream has taken, and the bytes still staged. -/
structure FileWriter where
  isOpen : Bool
  file : List UInt8
  staged : List UInt8
  staged_le : staged.length ≤ bufferSize
  deriving DecidableEq

/-- Everything that was given to the writer. -/
def FileWriter.contents (writer : FileWriter) : List UInt8 := writer.file ++ writer.staged

section Writer

variable (stream : List UInt8 → List UInt8 → Option Nat)

/-- `flush`, on a stream that answers a block with an error or takes it. -/
def flush (writer : FileWriter) : Except WriteError FileWriter :=
  if writer.staged = [] then .ok writer
  else
    match stream writer.file writer.staged with
    | some errno => .error (.fileWrite errno)
    | none =>
        .ok { writer with
          file := writer.file ++ writer.staged
          staged := []
          staged_le := Nat.zero_le _ }

/-- A full buffer goes to the stream first. -/
def makeRoom (writer : FileWriter) : Except WriteError FileWriter :=
  if writer.staged.length = bufferSize then flush stream writer else .ok writer

/-- Stage as much of `data` as there is room for. -/
def stage (writer : FileWriter) (data : List UInt8) : FileWriter :=
  { writer with
    staged := writer.staged ++ data.take (bufferSize - writer.staged.length)
    staged_le := by
      have hle := writer.staged_le
      rw [List.length_append, List.length_take]
      omega }

/-- Stage the data and flush whenever the buffer is full. -/
def writeLoop : Nat → List UInt8 → FileWriter → Except WriteError FileWriter
  | 0, _, writer => .ok writer
  | fuel + 1, data, writer =>
      if data = [] then .ok writer
      else do
        let writer ← makeRoom stream writer
        writeLoop fuel (data.drop (bufferSize - writer.staged.length)) (stage writer data)

/-- Write a view of bytes, checked first. -/
def write (data : Option (List UInt8)) (length : Int) (writer : FileWriter) :
    Except WriteError FileWriter :=
  if length < 0 || (data.isNone && length ≠ 0) then
    .error (.native (.invalidArgument "invalid output byte view"))
  else if !writer.isOpen then .error (.native (.logicError "file is not open for writing"))
  else writeLoop stream length.toNat ((data.getD []).take length.toNat) writer

/-- The loop of `write_utf8`, which returns where the last run begins. -/
def writeUtf8Loop (data : List UInt8) :
    Nat → Nat → Nat → FileWriter → Except WriteError (Nat × FileWriter)
  | 0, _, runBegin, writer => .ok (runBegin, writer)
  | fuel + 1, i, runBegin, writer =>
      if i < data.length then
        if byteAt data i < 0x80 then writeUtf8Loop data fuel (i + 1) runBegin writer
        else if 0 ≤ (next data i).1 then writeUtf8Loop data fuel (next data i).2 runBegin writer
        else do
          let stop := if (next data i).2 ≤ i then i + 1 else (next data i).2
          let writer ← write stream (some (data.drop runBegin)) (i - runBegin) writer
          let writer ← write stream (some replacementCharacter) 3 writer
          writeUtf8Loop data fuel stop stop writer
      else .ok (runBegin, writer)

/-- Write a view of bytes with its ill-formed sequences repaired on the way. -/
def writeUtf8 (data : Option (List UInt8)) (length : Int) (writer : FileWriter) :
    Except WriteError FileWriter :=
  if length < 0 || (data.isNone && length ≠ 0) then
    .error (.native (.invalidArgument "invalid output byte view"))
  else do
    let (runBegin, writer) ←
      writeUtf8Loop stream ((data.getD []).take length.toNat) length.toNat 0 0 writer
    write stream (data.map fun bytes => bytes.drop runBegin) (length - runBegin) writer

end Writer

/-! ## The repaired text -/

/-- A token after the repair. -/
def repairToken (token : Token) : Token :=
  if token.codePoint = sentinel then ⟨0xfffd, replacementCharacter⟩ else token

/-- The bytes of a text once every ill-formed token is replaced. -/
def repairedBytes (tokens : List Token) : List UInt8 := tokenBytes (tokens.map repairToken)

/-- The text with U+FFFD for every ill-formed subsequence. -/
def repairedText (text : List UInt8) : List UInt8 := repairedBytes (tokens text)

@[simp] theorem repairedBytes_nil : repairedBytes [] = [] := rfl

theorem repairedBytes_cons (token : Token) (rest : List Token) :
    repairedBytes (token :: rest) = (repairToken token).bytes ++ repairedBytes rest := rfl

/-- Repairing goes token by token. -/
theorem repairedBytes_append (front rest : List Token) :
    repairedBytes (front ++ rest) = repairedBytes front ++ repairedBytes rest := by
  unfold repairedBytes
  rw [List.map_append, Utf8.tokenBytes_append]

/-- An ill-formed token becomes the replacement character. -/
theorem repairToken_of_ill {token : Token} (hill : token.codePoint = sentinel) :
    repairToken token = ⟨0xfffd, replacementCharacter⟩ :=
  if_pos hill

/-- A complete token stays. -/
theorem repairToken_of_complete {token : Token} (hcomplete : token.codePoint ≠ sentinel) :
    repairToken token = token :=
  if_neg hcomplete

/-- What has been read one by one: tokens, each of its own bytes. -/
def AreTokens (list : List Token) : Prop := ∀ token ∈ list, tokens token.bytes = [token]

theorem areTokens_tokens (text : List UInt8) : AreTokens (tokens text) :=
  fun _ hmem => Utf8.tokens_of_mem hmem

theorem AreTokens.tail {token : Token} {list : List Token} (hlist : AreTokens (token :: list)) :
    AreTokens list :=
  fun other hmem => hlist other (List.mem_cons_of_mem _ hmem)

theorem AreTokens.head {token : Token} {list : List Token} (hlist : AreTokens (token :: list)) :
    tokens token.bytes = [token] :=
  hlist token List.mem_cons_self

section RepairToken

variable {token : Token} (htoken : tokens token.bytes = [token])
include htoken

/-- A repaired token is one token. -/
theorem tokens_repairToken :
    tokens (repairToken token).bytes = [repairToken token] ∧
      (repairToken token).codePoint ≠ sentinel := by
  by_cases hill : token.codePoint = sentinel
  · rw [repairToken_of_ill hill]
    exact ⟨Utf8.tokens_of_next ⟨0xfffd, replacementCharacter⟩ (by decide) (by decide), by decide⟩
  · rw [repairToken_of_complete hill]
    exact ⟨htoken, hill⟩

/-- A token does not get shorter. -/
theorem length_le_repairToken : token.bytes.length ≤ (repairToken token).bytes.length := by
  by_cases hill : token.codePoint = sentinel
  · rw [repairToken_of_ill hill]
    exact (Utf8.length_bytes_le htoken hill).1
  · rw [repairToken_of_complete hill]

end RepairToken

theorem length_le_repairedBytes {list : List Token} (hlist : AreTokens list) :
    (tokenBytes list).length ≤ (repairedBytes list).length := by
  induction list with
  | nil => exact Nat.le_refl _
  | cons token list ih =>
      have hfirst := length_le_repairToken hlist.head
      have hrest := ih hlist.tail
      rw [Utf8.tokenBytes_cons, repairedBytes_cons, List.length_append, List.length_append]
      omega

/-- The tokens of a repaired text are the repaired tokens. -/
theorem tokens_repairedBytes {list : List Token} (hlist : AreTokens list) :
    tokens (repairedBytes list) = list.map repairToken := by
  induction list with
  | nil => exact Utf8.tokens_nil
  | cons token list ih =>
      obtain ⟨htoken, hcomplete⟩ := tokens_repairToken hlist.head
      rw [repairedBytes_cons, Utf8.tokens_append_of_complete htoken hcomplete, ih hlist.tail,
        List.map_cons]

/-- A repaired text has the repaired tokens. -/
theorem tokens_repairedText (text : List UInt8) :
    tokens (repairedText text) = (tokens text).map repairToken :=
  tokens_repairedBytes (areTokens_tokens text)

/-- Every token of a repaired text is complete. -/
theorem complete_repairedText (text : List UInt8) :
    ∀ token ∈ tokens (repairedText text), token.codePoint ≠ sentinel := by
  intro token hmem
  rw [tokens_repairedText] at hmem
  obtain ⟨original, horiginal, rfl⟩ := List.mem_map.mp hmem
  exact (tokens_repairToken (areTokens_tokens text original horiginal)).2

/-- A repaired text is well formed. -/
theorem wellFormed_repairedText (text : List UInt8) : Utf8.WellFormed (repairedText text) := by
  refine ⟨(tokens (repairedText text)).map Token.bytes, ?_, ?_⟩
  · rw [← List.flatMap_def]
    exact Utf8.tokenBytes_tokens _
  · intro bytes hmem
    obtain ⟨token, htoken, rfl⟩ := List.mem_map.mp hmem
    exact (Utf8.isSequence_bytes (Utf8.tokens_of_mem htoken)
      (complete_repairedText text token htoken)).1

/-! ## The size of the repaired text -/

/-- The size is worked out exactly, or found to be too large. -/
theorem outputLength_eq {length : Int} {list : List Token} (hlist : AreTokens list)
    {begin size : Nat} {copied : Int} (hcopied : copied ≤ begin)
    (hlength : (begin + (tokenBytes list).length : Nat) = length) (hsize : size ≤ intMax) :
    outputLength length (illFormed begin list) copied size =
      if size + (repairedBytes list).length - (tokenBytes list).length ≤ intMax then
        .ok (size + (repairedBytes list).length - (tokenBytes list).length)
      else .error stringSizeError := by
  induction list generalizing begin copied size with
  | nil => simp [illFormed, outputLength, hsize]
  | cons token list ih =>
      have hrest := length_le_repairedBytes hlist.tail
      have htoken := hlist.head
      rw [Utf8.tokenBytes_cons, List.length_append] at hlength ⊢
      rw [repairedBytes_cons, List.length_append]
      by_cases hill : token.codePoint = sentinel
      · have hpos := List.length_pos_iff.mpr (Utf8.bytes_ne_nil htoken)
        have hshort := (Utf8.length_bytes_le htoken hill).1
        have hthree : replacementCharacter.length = 3 := rfl
        have hrange : ¬ (decide ((token.bytes.length : Int) ≤ 0) ||
            decide ((begin : Int) < copied) ||
            decide ((begin : Int) > length - token.bytes.length)) = true := by
          simp only [Bool.or_eq_true, decide_eq_true_eq]
          omega
        have hadded : (3 - (token.bytes.length : Int)).toNat = 3 - token.bytes.length := by omega
        have hremoved : ((token.bytes.length : Int) - 3).toNat = 0 := by omega
        have hnext : (begin : Int) + token.bytes.length = (begin + token.bytes.length : Nat) := by
          omega
        rw [illFormed, if_pos hill, repairToken_of_ill hill, outputLength, if_neg hrange, hadded,
          hremoved, hthree, hnext]
        -- The token may be shorter or longer than its replacement; the sum is the same.
        have hstep : ∀ next ≤ intMax, next + token.bytes.length = size + 3 →
            outputLength length (illFormed (begin + token.bytes.length) list)
              (begin + token.bytes.length : Nat) next =
              if size + (3 + (repairedBytes list).length) -
                  (token.bytes.length + (tokenBytes list).length) ≤ intMax then
                .ok (size + (3 + (repairedBytes list).length) -
                  (token.bytes.length + (tokenBytes list).length))
              else .error stringSizeError := by
          intro next hnext hsum
          rw [ih hlist.tail (Int.le_refl _) (by omega) hnext]
          have hsame : next + (repairedBytes list).length - (tokenBytes list).length =
              size + (3 + (repairedBytes list).length) -
                (token.bytes.length + (tokenBytes list).length) := by
            omega
          rw [hsame]
        have hmax : 3 ≤ intMax := by decide
        split
        next hless =>
          change (token.bytes.length : Int) < 3 at hless
          split
          next hlarge =>
            have hexceeds : ¬ size + (3 + (repairedBytes list).length) -
                (token.bytes.length + (tokenBytes list).length) ≤ intMax := by
              omega
            rw [if_neg hexceeds]
          next hfits => exact hstep _ (by omega) (by omega)
        next hless =>
          change ¬ (token.bytes.length : Int) < 3 at hless
          exact hstep _ (by omega) (by omega)
      · rw [illFormed, if_neg hill, repairToken_of_complete hill,
          ih hlist.tail (by omega) (by omega) hsize]
        have hsame : size + (token.bytes.length + (repairedBytes list).length) -
            (token.bytes.length + (tokenBytes list).length) =
            size + (repairedBytes list).length - (tokenBytes list).length := by
          omega
        rw [hsame]

/-! ## Filling the vector -/

/-- Appending writes behind what is done. -/
theorem Repair.append_eq (done room bytes : List UInt8) (copied : Int) :
    Repair.append ⟨done ++ room, copied, done.length⟩ bytes =
      ⟨(done ++ bytes) ++ room.drop bytes.length, copied, (done ++ bytes).length⟩ := by
  unfold Repair.append overwrite
  rw [List.take_left, ← List.drop_drop, List.drop_left, List.length_append]

theorem bytesBetween_append (before middle behind : List UInt8) :
    bytesBetween (before ++ middle ++ behind) before.length (before ++ middle).length = middle := by
  unfold bytesBetween
  have hlength : (((before ++ middle).length : Int) - before.length).toNat = middle.length := by
    rw [List.length_append]
    omega
  rw [hlength, Int.toNat_natCast, List.append_assoc, List.drop_left, List.take_left]

/-- The loop fills the room it was given: what is pending, then the repaired tokens. -/
theorem repairLoop_eq {data : List UInt8} {list : List Token} {before pending : List UInt8}
    (hdata : data = before ++ pending ++ tokenBytes list) (done : List UInt8) {room : List UInt8}
    (hroom : room.length = (pending ++ repairedBytes list).length) :
    let repair := (repairLoop data (illFormed (before ++ pending).length list)
      ⟨done ++ room, before.length, done.length⟩).finish data
    repair.destination = done ++ pending ++ repairedBytes list ∧
      repair.written = (done ++ pending ++ repairedBytes list).length := by
  induction list generalizing before pending done room with
  | nil =>
      rw [Utf8.tokenBytes_nil] at hdata
      have hbytes := bytesBetween_append before pending []
      rw [← hdata] at hbytes
      have hend : (before ++ pending).length = data.length := by rw [hdata, List.append_nil]
      rw [hend] at hbytes
      rw [repairedBytes_nil, List.append_nil] at hroom
      simp only [illFormed, repairLoop, Repair.finish, hbytes, Repair.append_eq, ← hroom,
        List.drop_length, List.append_nil, repairedBytes_nil, and_self]
  | cons token list ih =>
      rw [Utf8.tokenBytes_cons] at hdata
      by_cases hill : token.codePoint = sentinel
      · -- The bytes since the last repair are copied first, then the replacement.
        have hpending := bytesBetween_append before pending (token.bytes ++ tokenBytes list)
        rw [← hdata] at hpending
        rw [repairedBytes_cons, repairToken_of_ill hill] at hroom ⊢
        have hbegin : (before ++ pending).length + token.bytes.length =
            (before ++ pending ++ token.bytes).length :=
          List.length_append.symm
        have hcopied : ((before ++ pending).length : Int) + token.bytes.length =
            (before ++ pending ++ token.bytes).length := by
          rw [← hbegin, Int.natCast_add]
        have hdata' : data = (before ++ pending ++ token.bytes) ++ [] ++ tokenBytes list := by
          rw [hdata]
          simp
        have hroom' : ((room.drop pending.length).drop replacementCharacter.length).length =
            ([] ++ repairedBytes list).length := by
          rw [List.length_drop, List.length_drop, hroom]
          simp only [List.length_append, List.nil_append]
          omega
        have hnext := ih hdata' (done ++ pending ++ replacementCharacter) hroom'
        rw [List.append_nil] at hnext
        simp only [illFormed, if_pos hill, repairLoop, hpending, Repair.append_eq, hcopied, hbegin]
        simpa only [List.append_nil, List.append_assoc] using hnext
      -- A complete token stays pending.
      · have hbegin : (before ++ pending).length + token.bytes.length =
            (before ++ (pending ++ token.bytes)).length := by
          rw [← List.append_assoc]
          exact List.length_append.symm
        have hdata' : data = before ++ (pending ++ token.bytes) ++ tokenBytes list := by
          rw [hdata]
          simp
        rw [repairedBytes_cons, repairToken_of_complete hill] at hroom ⊢
        rw [← List.append_assoc] at hroom
        have hnext := ih hdata' done hroom
        rw [illFormed, if_neg hill, hbegin]
        simpa only [List.append_assoc] using hnext

theorem length_resize (output : List UInt8) (size : Nat) : (resize output size).length = size := by
  unfold resize
  rw [List.length_append, List.length_take, List.length_replicate]
  omega

/-- Whatever the vector held, it becomes the repaired text, and is filled exactly. -/
theorem repairBytes_eq (text : List UInt8) {destination : List UInt8}
    (hsize : destination.length = (repairedText text).length) :
    let repair := repairBytes text (illFormed 0 (tokens text)) destination
    repair.destination = repairedText text ∧ repair.written = destination.length := by
  have hdata : text = [] ++ [] ++ tokenBytes (tokens text) := by simp
  have hloop := repairLoop_eq hdata [] hsize
  rw [hsize]
  exact hloop

/-- The size is that of the repaired text, if it fits. -/
theorem outputLength_text {text : List UInt8} (hlength : text.length ≤ intMax) :
    outputLength text.length (illFormed 0 (tokens text)) 0 text.length =
      if (repairedText text).length ≤ intMax then .ok (repairedText text).length
      else .error stringSizeError := by
  have hwhole : ((0 + (tokenBytes (tokens text)).length : Nat) : Int) = text.length := by simp
  have hsize := outputLength_eq (areTokens_tokens text) (Int.le_refl (0 : Nat)) hwhole hlength
  rwa [Utf8.tokenBytes_tokens, Nat.add_sub_cancel_left] at hsize

/-- The output is the repaired text, if that fits. -/
theorem repairUtf8_eq {text : List UInt8} (hlength : text.length ≤ intMax)
    (output : List UInt8) :
    repairUtf8 (some text) text.length (illFormed 0 (tokens text)) output =
      if (repairedText text).length ≤ intMax then .ok (repairedText text)
      else .error stringSizeError := by
  have hnonneg : ¬ (text.length : Int) < 0 := by omega
  unfold repairUtf8
  simp only [hnonneg, decide_false, Option.isNone_some, Bool.false_and, Bool.or_self,
    Bool.false_eq_true, if_false, Int.toNat_natCast, Option.getD_some, List.take_length]
  rw [outputLength_text hlength]
  by_cases hfits : (repairedText text).length ≤ intMax
  · rw [if_pos hfits, if_pos hfits]
    have hfill := repairBytes_eq text (length_resize output (repairedText text).length)
    exact congrArg Except.ok hfill.1
  · rw [if_neg hfits, if_neg hfits]
    rfl

/-! ## What reaches the file -/

section Written

variable (stream : List UInt8 → List UInt8 → Option Nat)

/-- An outcome that has the bytes in the file, or a failure of the stream. -/
def Wrote (writer : FileWriter) (bytes : List UInt8) :
    Except WriteError FileWriter → Prop
  | .ok written => written.isOpen = true ∧ written.contents = writer.contents ++ bytes
  | .error error => ∃ errno file block, error = .fileWrite errno ∧ stream file block = some errno

variable {stream}

/-- Bytes written one after the other. -/
theorem Wrote.bind {writer : FileWriter} {first rest : List UInt8}
    {result : Except WriteError FileWriter} {next : FileWriter → Except WriteError FileWriter}
    (hfirst : Wrote stream writer first result)
    (hnext : ∀ written : FileWriter, result = .ok written → written.isOpen = true →
      Wrote stream written rest (next written)) :
    Wrote stream writer (first ++ rest) (result >>= next) := by
  cases result with
  | error error => exact hfirst
  | ok written =>
      obtain ⟨hopen, hcontents⟩ := hfirst
      change Wrote stream writer (first ++ rest) (next written)
      have hwrote := hnext written rfl hopen
      cases hresult : next written with
      | error error =>
          rw [hresult] at hwrote
          exact hwrote
      | ok final =>
          rw [hresult] at hwrote
          refine ⟨hwrote.1, ?_⟩
          rw [hwrote.2, hcontents, List.append_assoc]

/-- Flushing writes nothing new. -/
theorem wrote_flush {writer : FileWriter} (hopen : writer.isOpen = true) :
    Wrote stream writer [] (flush stream writer) := by
  unfold flush
  split
  next => exact ⟨hopen, (List.append_nil _).symm⟩
  next =>
    split
    next errno hfail => exact ⟨errno, _, _, rfl, hfail⟩
    next => exact ⟨hopen, by simp [FileWriter.contents]⟩

/-- Staging takes the front of the data. -/
theorem contents_stage (writer : FileWriter) (data : List UInt8) :
    (stage writer data).contents =
      writer.contents ++ data.take (bufferSize - writer.staged.length) := by
  simp [stage, FileWriter.contents]

theorem flush_staged {writer written : FileWriter} (hfull : writer.staged.length = bufferSize)
    (hflush : flush stream writer = .ok written) : written.staged = [] := by
  unfold flush at hflush
  split at hflush
  next hempty =>
    rw [hempty] at hfull
    exact absurd hfull (by decide)
  next =>
    split at hflush
    next => cases hflush
    next =>
      cases hflush
      rfl

theorem wrote_makeRoom {writer : FileWriter} (hopen : writer.isOpen = true) :
    Wrote stream writer [] (makeRoom stream writer) ∧
      ∀ roomy, makeRoom stream writer = .ok roomy → roomy.staged.length < bufferSize := by
  unfold makeRoom
  split
  next hfull =>
    refine ⟨wrote_flush hopen, ?_⟩
    intro roomy hflush
    rw [flush_staged hfull hflush]
    decide
  next hnot =>
    refine ⟨⟨hopen, (List.append_nil _).symm⟩, ?_⟩
    intro roomy heq
    cases heq
    exact Nat.lt_of_le_of_ne writer.staged_le hnot

/-- The loop writes the data, whatever the buffer holds. -/
theorem wrote_writeLoop (fuel : Nat) {data : List UInt8} {writer : FileWriter}
    (hopen : writer.isOpen = true) (hfuel : data.length ≤ fuel) :
    Wrote stream writer data (writeLoop stream fuel data writer) := by
  induction fuel generalizing data writer with
  | zero =>
      rw [List.length_eq_zero_iff.mp (Nat.le_zero.mp hfuel)]
      exact ⟨hopen, (List.append_nil _).symm⟩
  | succ fuel ih =>
      rw [writeLoop]
      split
      next hempty =>
        rw [hempty]
        exact ⟨hopen, (List.append_nil _).symm⟩
      next hdata =>
        have hpos := List.length_pos_iff.mpr hdata
        have hrest : Wrote stream writer ([] ++ data) (makeRoom stream writer >>= fun writer =>
            writeLoop stream fuel (data.drop (bufferSize - writer.staged.length))
              (stage writer data)) := by
          apply (wrote_makeRoom hopen).1.bind
          intro roomy hroomy hopen'
          have hless := (wrote_makeRoom hopen).2 roomy hroomy
          have hstage : Wrote stream roomy (data.take (bufferSize - roomy.staged.length))
              (.ok (stage roomy data)) :=
            ⟨hopen', contents_stage roomy data⟩
          have hall : Wrote stream roomy (data.take (bufferSize - roomy.staged.length) ++
              data.drop (bufferSize - roomy.staged.length)) (.ok (stage roomy data) >>=
                writeLoop stream fuel (data.drop (bufferSize - roomy.staged.length))) := by
            apply hstage.bind
            intro written _ hopen''
            apply ih hopen''
            rw [List.length_drop]
            omega
          rwa [List.take_append_drop] at hall
        exact hrest

/-- Writing a view writes its bytes. -/
theorem wrote_write {writer : FileWriter} (hopen : writer.isOpen = true) {data : List UInt8}
    {length : Nat} (hlength : length ≤ data.length) :
    Wrote stream writer (data.take length) (write stream (some data) length writer) := by
  have hnonneg : ¬ (length : Int) < 0 := by omega
  unfold write
  simp only [hnonneg, decide_false, Option.isNone_some, Bool.false_and, Bool.or_self,
    Bool.false_eq_true, if_false, hopen, Bool.not_true, Int.toNat_natCast, Option.getD_some]
  exact wrote_writeLoop length hopen (by rw [List.length_take]; omega)

/-- The loop, and the run behind the last ill-formed subsequence. -/
def writeRuns (stream : List UInt8 → List UInt8 → Option Nat) (data : List UInt8)
    (fuel i runBegin : Nat) (writer : FileWriter) : Except WriteError FileWriter := do
  let (runBegin, writer) ← writeUtf8Loop stream data fuel i runBegin writer
  write stream (some (data.drop runBegin)) (data.length - runBegin) writer

/-- One round of the loop, by the token it reads. -/
theorem writeRuns_token {data : List UInt8} {token : Token} {i runBegin : Nat}
    (htoken : tokens token.bytes = [token]) (hi : i < data.length)
    (hnext : next data i = (token.codePoint, i + token.bytes.length)) (fuel : Nat)
    (writer : FileWriter) :
    writeRuns stream data (fuel + 1) i runBegin writer =
      if token.codePoint = sentinel then do
        let writer ← write stream (some (data.drop runBegin)) (i - runBegin) writer
        let writer ← write stream (some replacementCharacter) 3 writer
        writeRuns stream data fuel (i + token.bytes.length) (i + token.bytes.length) writer
      else writeRuns stream data fuel (i + token.bytes.length) runBegin writer := by
  have hpos := List.length_pos_iff.mpr (Utf8.bytes_ne_nil htoken)
  have hforward : ¬ i + token.bytes.length ≤ i := by omega
  unfold writeRuns
  rw [writeUtf8Loop, if_pos hi]
  by_cases hsingle : byteAt data i < 0x80
  · rw [next_of_single hsingle, Prod.mk.injEq] at hnext
    have hcomplete : token.codePoint ≠ sentinel := by
      rw [← hnext.1]
      exact ne_of_gt (Int.lt_of_lt_of_le (by decide : sentinel < 0) (Int.natCast_nonneg _))
    rw [if_pos hsingle, if_neg hcomplete, hnext.2]
  · rw [if_neg hsingle, hnext]
    by_cases hill : token.codePoint = sentinel
    · have hnegative : ¬ 0 ≤ token.codePoint := by
        rw [hill]
        decide
      rw [if_neg hnegative, if_pos hill]
      simp only [hforward, if_false, bind_assoc]
    · rw [if_pos (Utf8.codePoint_nonneg htoken hill), if_neg hill]

/-- The run between two places of the data is written as it stands there. -/
theorem wrote_run {data before pending rest : List UInt8}
    (hdata : data = before ++ pending ++ rest) {writer : FileWriter}
    (hopen : writer.isOpen = true) :
    Wrote stream writer pending (write stream (some (data.drop before.length))
      ((before ++ pending).length - before.length) writer) := by
  have hrun : data.drop before.length = pending ++ rest := by
    rw [hdata, List.append_assoc, List.drop_left]
  have hlength : ((before ++ pending).length : Int) - before.length = pending.length := by
    rw [List.length_append]
    omega
  have hwrote : Wrote stream writer ((pending ++ rest).take pending.length)
      (write stream (some (pending ++ rest)) pending.length writer) := by
    apply wrote_write hopen
    rw [List.length_append]
    exact Nat.le_add_right _ _
  rw [List.take_left] at hwrote
  rwa [hrun, hlength]

/-- What is pending is written, then the repaired tokens. -/
theorem wrote_writeRuns {data : List UInt8} {list : List Token} (hlist : AreTokens list)
    (htokens : tokens (tokenBytes list) = list) {before pending : List UInt8}
    (hdata : data = before ++ pending ++ tokenBytes list) {fuel : Nat}
    (hfuel : (tokenBytes list).length ≤ fuel) {writer : FileWriter}
    (hopen : writer.isOpen = true) :
    Wrote stream writer (pending ++ repairedBytes list)
      (writeRuns stream data fuel (before ++ pending).length before.length writer) := by
  induction list generalizing before pending fuel writer with
  | nil =>
      have hend : data = before ++ pending := by
        rw [hdata, Utf8.tokenBytes_nil, List.append_nil]
      have hloop : writeUtf8Loop stream data fuel (before ++ pending).length before.length writer =
          .ok (before.length, writer) := by
        cases fuel with
        | zero => rfl
        | succ fuel => rw [writeUtf8Loop, if_neg (by rw [hend]; exact Nat.lt_irrefl _)]
      have hwrote := @wrote_run stream _ _ _ _ hdata _ hopen
      unfold writeRuns
      rw [hloop, repairedBytes_nil, List.append_nil]
      rwa [← hend] at hwrote
  | cons token list ih =>
      have htoken := hlist.head
      have hcons : tokens (tokenBytes (token :: list)) = [token] ++ list := htokens
      have hrest : tokens (tokenBytes list) = list := Utf8.tokens_right hcons
      have hpos := List.length_pos_iff.mpr (Utf8.bytes_ne_nil htoken)
      rw [Utf8.tokenBytes_cons] at hdata htokens hfuel
      rw [List.length_append] at hfuel
      obtain ⟨fuel, rfl⟩ : ∃ smaller, fuel = smaller + 1 := ⟨fuel - 1, by omega⟩
      have hi : (before ++ pending).length < data.length := by
        simp only [hdata, List.length_append]
        omega
      have hnext : next data (before ++ pending).length =
          (token.codePoint, (before ++ pending).length + token.bytes.length) := by
        apply Utf8.next_of_tokens_drop
        rw [hdata, List.drop_left, htokens]
      have hless : (tokenBytes list).length ≤ fuel := by omega
      rw [writeRuns_token htoken hi hnext, repairedBytes_cons]
      split
      next hill =>
        -- the run in front of the ill-formed bytes, the replacement for them, the rest
        have hdata' : data = (before ++ pending ++ token.bytes) ++ [] ++ tokenBytes list := by
          rw [hdata]
          simp
        have hbegin : (before ++ pending).length + token.bytes.length =
            (before ++ pending ++ token.bytes).length :=
          List.length_append.symm
        rw [repairToken_of_ill hill]
        apply (wrote_run hdata hopen).bind
        intro written _ hopen'
        have hreplaced : Wrote stream written replacementCharacter
            (write stream (some replacementCharacter) 3 written) :=
          wrote_write hopen' (Nat.le_refl 3)
        apply hreplaced.bind
        intro written' _ hopen''
        have hstep := ih hlist.tail hrest hdata' hless hopen''
        rwa [List.nil_append, List.append_nil, ← hbegin] at hstep
      next hcomplete =>
        -- a complete code point only makes the run longer
        have hdata' : data = before ++ (pending ++ token.bytes) ++ tokenBytes list := by
          rw [hdata]
          simp
        have hbegin : (before ++ pending).length + token.bytes.length =
            (before ++ (pending ++ token.bytes)).length := by
          rw [← List.append_assoc]
          exact List.length_append.symm
        have hstep := ih hlist.tail hrest hdata' hless hopen
        rw [repairToken_of_complete hcomplete, hbegin, ← List.append_assoc]
        exact hstep

/-- Writing UTF-8 writes the repaired text. -/
theorem wrote_writeUtf8 (text : List UInt8) {writer : FileWriter} (hopen : writer.isOpen = true) :
    Wrote stream writer (repairedText text) (writeUtf8 stream (some text) text.length writer) := by
  have hnonneg : ¬ (text.length : Int) < 0 := by omega
  have hbytes : text = [] ++ [] ++ tokenBytes (tokens text) := by simp
  have hsame : tokens (tokenBytes (tokens text)) = tokens text := by rw [Utf8.tokenBytes_tokens]
  have hfuel : (tokenBytes (tokens text)).length ≤ text.length := by rw [Utf8.tokenBytes_tokens]
  have hruns : Wrote stream writer ([] ++ repairedBytes (tokens text))
      (writeRuns stream text text.length ([] ++ []).length [].length writer) :=
    wrote_writeRuns (areTokens_tokens text) hsame hbytes hfuel hopen
  unfold writeUtf8
  simp only [hnonneg, decide_false, Option.isNone_some, Bool.false_and, Bool.or_self,
    Bool.false_eq_true, if_false, Int.toNat_natCast, Option.getD_some, List.take_length,
    Option.map_some]
  exact hruns

end Written

/-! ## The lines of the repaired text -/

/-- Repairing a line does not end it. -/
theorem newlineFree_repairedText {line : List UInt8} (hfree : NewlineFree line) :
    NewlineFree (repairedText line) := by
  intro token hmem
  rw [tokens_repairedText] at hmem
  obtain ⟨original, horiginal, rfl⟩ := List.mem_map.mp hmem
  by_cases hill : original.codePoint = sentinel
  · rw [repairToken_of_ill hill]
    decide
  · rw [repairToken_of_complete hill]
    exact hfree original horiginal

theorem repairedText_eq_nil {text : List UInt8} : repairedText text = [] ↔ text = [] := by
  rw [← Utf8.tokens_eq_nil, tokens_repairedText, List.map_eq_nil_iff, Utf8.tokens_eq_nil]

/-- A line feed stays in front, and nothing else becomes one. -/
theorem head_repairedText (text : List UInt8) :
    (repairedText text).head? = some 0x0a → text.head? = some 0x0a := by
  intro hhead
  have hne : text ≠ [] := by
    rintro rfl
    rw [repairedText_eq_nil.mpr rfl] at hhead
    exact absurd hhead (by simp)
  obtain ⟨token, list, htokens⟩ := List.exists_cons_of_ne_nil (mt Utf8.tokens_eq_nil.mp hne)
  have hmem : token ∈ tokens text := by
    rw [htokens]
    exact List.mem_cons_self
  have htoken := Utf8.tokens_of_mem hmem
  have hbytes : text = token.bytes ++ tokenBytes list := by
    rw [← Utf8.tokenBytes_cons, ← htokens, Utf8.tokenBytes_tokens]
  rw [repairedText, htokens, repairedBytes_cons] at hhead
  by_cases hill : token.codePoint = sentinel
  · rw [repairToken_of_ill hill] at hhead
    exact absurd hhead (by simp [replacementCharacter])
  · rw [repairToken_of_complete hill, List.head?_append_of_ne_nil _ (Utf8.bytes_ne_nil htoken)]
      at hhead
    rwa [hbytes, List.head?_append_of_ne_nil _ (Utf8.bytes_ne_nil htoken)]

/-- A repaired line keeps its terminator. -/
def repairPiece (piece : Piece) : Piece := (repairedText piece.1, piece.2)

/-- Repairing goes line by line. -/
theorem repairedText_line (line : List UInt8) {terminator : List UInt8}
    (hterminator : terminator ∈ terminators) (rest : List UInt8) :
    repairedText (line ++ terminator ++ rest) =
      repairedText line ++ terminator ++ repairedText rest := by
  obtain ⟨newline, more, hmem, hbytes, htokens⟩ := tokens_terminator hterminator
  have hcomplete : ∀ token ∈ newlineTokens, repairToken token = token := by decide
  have hsame : repairedBytes (newline :: more) = terminator := by
    have hmap : (newline :: more).map repairToken = (newline :: more).map id :=
      List.map_congr_left fun token h => hcomplete token (hmem token h)
    rw [repairedBytes, hmap, List.map_id, hbytes]
  have hahead : tokens (line ++ terminator ++ rest) =
      tokens line ++ ((newline :: more) ++ tokens rest) := by
    rw [List.append_assoc, Utf8.tokens_append (not_isTrail_terminator hterminator rest), htokens]
    rfl
  unfold repairedText
  rw [hahead, repairedBytes_append, repairedBytes_append, hsame, List.append_assoc]

/-- Repairing a text repairs its lines and keeps its terminators. -/
theorem Splits.repaired {text : List UInt8} {pieces : List Piece} {last : List UInt8}
    (hsplits : Splits text pieces last) :
    Splits (repairedText text) (pieces.map repairPiece) (repairedText last) := by
  induction hsplits with
  | last hfree => exact Splits.last (newlineFree_repairedText hfree)
  | @line line terminator rest pieces last hfree hterminator hreturn hrest ih =>
      rw [repairedText_line line hterminator rest, List.map_cons]
      exact Splits.line (newlineFree_repairedText hfree) hterminator
        (fun hreturn' => mt (head_repairedText rest) (hreturn hreturn')) ih

/-- The lines found in a text. -/
def scannedLines (data : List UInt8) (omitEmpty keepTrailingEmpty : Bool) : List (List UInt8) :=
  (scanBytes data omitEmpty keepTrailingEmpty).lines.map (sliceBytes data)

/-- The scanned lines are those of the split. -/
theorem scannedLines_eq {data : List UInt8} {pieces : List Piece} {last : List UInt8}
    (hsplits : Splits data pieces last) (omitEmpty keepTrailingEmpty : Bool) :
    scannedLines data omitEmpty keepTrailingEmpty =
      (pieces.map Prod.fst ++
        if data = [] ∨ last ≠ [] ∨ keepTrailingEmpty then [last] else []).filter
          fun line => !omitEmpty || line ≠ [] := by
  have hlaw := scanBytes_law hsplits keepTrailingEmpty
  unfold scannedLines
  rw [← hlaw.lines]
  cases omitEmpty with
  | false => simp
  | true =>
      rw [hlaw.omitted, List.filter_map]
      rfl

/-- The lines of the repaired text are the repaired lines. -/
theorem scannedLines_repairedText (text : List UInt8) (omitEmpty keepTrailingEmpty : Bool) :
    scannedLines (repairedText text) omitEmpty keepTrailingEmpty =
      (scannedLines text omitEmpty keepTrailingEmpty).map repairedText := by
  obtain ⟨pieces, last, hsplits⟩ := exists_splits text
  have hlines : (pieces.map repairPiece).map Prod.fst =
      (pieces.map Prod.fst).map repairedText := by
    rw [List.map_map, List.map_map]
    rfl
  have hlast : (if repairedText text = [] ∨ repairedText last ≠ [] ∨ keepTrailingEmpty then
      [repairedText last] else []) =
      (if text = [] ∨ last ≠ [] ∨ keepTrailingEmpty then [last] else []).map repairedText := by
    simp only [ne_eq, repairedText_eq_nil]
    split <;> rfl
  have hempty : ∀ line : List UInt8, (!omitEmpty || decide (repairedText line ≠ [])) =
      (!omitEmpty || decide (line ≠ [])) := by
    intro line
    simp only [ne_eq, repairedText_eq_nil]
  rw [scannedLines_eq hsplits, scannedLines_eq hsplits.repaired, hlines, hlast, ← List.map_append,
    List.filter_map]
  simp only [Function.comp_def, hempty]

/-! ## Both repairs -/

/-- Everything there is to say about a repaired text. -/
structure RepairLaw (text : List UInt8) (scanned : ScanResult) (omitEmpty keepTrailingEmpty : Bool)
    (output repaired : List UInt8) : Prop where
  result : repairUtf8 (some text) text.length scanned.invalid output = .ok repaired
  wellFormed : Utf8.WellFormed repaired
  /-- The size was worked out before, and every byte of it is written. -/
  reserved : outputLength text.length scanned.invalid 0 text.length = .ok repaired.length
  filled : (repairBytes text scanned.invalid (resize output repaired.length)).written =
    repaired.length
  /-- The other repair writes the same, unless the stream fails. -/
  written : ∀ stream (writer : FileWriter), writer.isOpen = true →
    Wrote stream writer repaired (writeUtf8 stream (some text) text.length writer)
  rescanned : ∃ again, scanUtf8 (some repaired) repaired.length omitEmpty keepTrailingEmpty =
      .ok again ∧ again.invalid = [] ∧ again.lines.length = scanned.lines.length

/-- The scan, the two repairs and the second scan agree on every text whose repaired form is no
longer than a string may be. A longer one is refused. -/
theorem repairUtf8_agrees {text : List UInt8} (hlength : text.length ≤ intMax)
    (omitEmpty keepTrailingEmpty : Bool) (output : List UInt8) :
    ∃ scanned, scanUtf8 (some text) text.length omitEmpty keepTrailingEmpty = .ok scanned ∧
      ((repairedText text).length ≤ intMax →
        ∃ repaired, RepairLaw text scanned omitEmpty keepTrailingEmpty output repaired) ∧
      (intMax < (repairedText text).length →
        repairUtf8 (some text) text.length scanned.invalid output =
          .error (.lengthError "converted UTF-8 string exceeds R string size")) := by
  refine ⟨_, scanUtf8_some text _ _, ?_⟩
  obtain ⟨pieces, last, hsplits⟩ := exists_splits text
  have hinvalid : (scanBytes text omitEmpty keepTrailingEmpty).invalid =
      illFormed 0 (tokens text) := by
    rw [scanBytes_eq hsplits]
  have hrepair := repairUtf8_eq hlength output
  constructor
  · intro hfits
    refine ⟨repairedText text, ?_⟩
    have hlines := congrArg List.length
      (scannedLines_repairedText text omitEmpty keepTrailingEmpty)
    rw [List.length_map, scannedLines, scannedLines, List.length_map, List.length_map] at hlines
    have hagain : (scanBytes (repairedText text) omitEmpty keepTrailingEmpty).invalid = [] := by
      rw [scanBytes_eq hsplits.repaired]
      exact illFormed_eq_nil 0 (complete_repairedText text)
    have hfilled := repairBytes_eq text (length_resize output (repairedText text).length)
    rw [length_resize] at hfilled
    rw [if_pos hfits] at hrepair
    exact {
      result := by rw [hinvalid, hrepair]
      wellFormed := wellFormed_repairedText text
      reserved := by rw [hinvalid, outputLength_text hlength, if_pos hfits]
      filled := by
        rw [hinvalid]
        exact hfilled.2
      written := fun stream writer hopen => wrote_writeUtf8 text hopen
      rescanned := ⟨_, scanUtf8_some _ _ _, hagain, hlines⟩ }
  · intro hexceeds
    rw [if_neg (Nat.not_le.mpr hexceeds)] at hrepair
    rw [hinvalid, hrepair]
    rfl

/-- A text of one letter and one stray byte. -/
theorem repairUtf8_stray_byte :
    ∃ scanned, scanUtf8 (some [0x61, 0xff]) 2 true false = .ok scanned ∧
      ∃ repaired, RepairLaw [0x61, 0xff] scanned true false [] repaired := by
  have hill : tokens [0xff] = [⟨sentinel, [0xff]⟩] :=
    Utf8.tokens_of_next ⟨sentinel, [0xff]⟩ (by decide) (by decide)
  have hrepaired : repairedText [0x61, 0xff] = [0x61, 0xef, 0xbf, 0xbd] := by
    unfold repairedText
    rw [Utf8.tokens_single (by decide), hill]
    decide
  have hlength : [0x61, (0xff : UInt8)].length ≤ intMax := by decide
  obtain ⟨scanned, hscanned, hfits, -⟩ := repairUtf8_agrees hlength true false []
  refine ⟨scanned, hscanned, hfits ?_⟩
  rw [hrepaired]
  decide

theorem tokens_replicate_stray (count : Nat) :
    tokens (List.replicate count 0xff) = List.replicate count ⟨sentinel, [0xff]⟩ := by
  induction count with
  | zero => exact Utf8.tokens_nil
  | succ count ih =>
      have hill : tokens [0xff] = [⟨sentinel, [0xff]⟩] :=
        Utf8.tokens_of_next ⟨sentinel, [0xff]⟩ (by decide) (by decide)
      have hhead : ∀ byte ∈ (List.replicate count (0xff : UInt8)).head?,
          Utf8.isTrail byte.toNat = false := by
        intro byte hbyte
        rw [List.eq_of_mem_replicate (List.mem_of_mem_head? hbyte)]
        decide
      rw [List.replicate_succ, List.replicate_succ, ← List.singleton_append,
        Utf8.tokens_append hhead, hill, ih, List.singleton_append]

/-- Stray bytes grow to three times their size. -/
theorem length_repairedText_stray (count : Nat) :
    (repairedText (List.replicate count 0xff)).length = count * 3 := by
  unfold repairedText
  rw [tokens_replicate_stray]
  induction count with
  | zero => rfl
  | succ count ih =>
      rw [List.replicate_succ, repairedBytes_cons, List.length_append, ih,
        repairToken_of_ill rfl]
      simp only [replacementCharacter, List.length_cons, List.length_nil]
      omega

/-- Stray bytes up to a third of what a string may hold: the repair has no room. -/
theorem repairUtf8_refuses :
    (List.replicate 715827883 (0xff : UInt8)).length ≤ intMax ∧
      ∃ scanned, scanUtf8 (some (List.replicate 715827883 0xff))
          (List.replicate 715827883 (0xff : UInt8)).length false false = .ok scanned ∧
        ¬ ∃ repaired, repairUtf8 (some (List.replicate 715827883 0xff))
          (List.replicate 715827883 (0xff : UInt8)).length scanned.invalid [] = .ok repaired := by
  generalize hcount : 715827883 = count
  have hlength : (List.replicate count (0xff : UInt8)).length ≤ intMax := by
    rw [List.length_replicate, ← hcount]
    decide
  have hexceeds : ¬ (repairedText (List.replicate count 0xff)).length ≤ intMax := by
    rw [length_repairedText_stray, ← hcount]
    decide
  obtain ⟨pieces, last, hsplits⟩ := exists_splits (List.replicate count 0xff)
  refine ⟨hlength, _, scanUtf8_some _ _ _, ?_⟩
  rintro ⟨repaired, hrepaired⟩
  rw [scanBytes_eq hsplits, repairUtf8_eq hlength, if_neg hexceeds] at hrepaired
  cases hrepaired

end Charr.Lines
