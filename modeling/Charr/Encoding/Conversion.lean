import Charr.Library.RowMerge
import Charr.Parallel.Tasks
import Charr.Text.StringView

/-!
# Converting records between encodings

Records are converted one by one. The two converters push warnings while they
work, and a record may fail. On several workers each one queues the warnings of
the chunk it holds and keeps a row of the chunks that raised any; after the join
the rows are merged and cut where the first failure stopped.

The converters themselves belong to the platform. Records come as the reader
hands them out, and this is the path whose output is not converted once more to
the native encoding.
-/

namespace Charr.Encoding

open Parallel

variable {Input : Type}

/-! ## Records -/

/-- The converters of one operation: whether they open, the conversion of native
input that comes before them, and the warnings and the result of a record. -/
structure Converters (Input : Type) where
  opening : Option NativeError
  nativeInput : Bool
  native : Input → Except NativeError Input
  transcode : Input → List String × Except NativeError (List UInt8)
  rawOutput : Bool

/-- The most bytes that a string of R has. -/
def maximumBufferLength : Nat := 2147483647

/-- What is stored for a converted record: text may hold no zero byte. -/
def storeConverted (rawOutput : Bool) (data : List UInt8) : Except NativeError (List UInt8) :=
  if rawOutput then .ok data
  else if data.length > 0 ∧ 0 ∈ data then .error (.runtimeError "embedded nul in string")
  else if data.length > maximumBufferLength then
    .error (.lengthError "character output exceeds R's string length limit")
  else .ok data

namespace Converters

variable (converters : Converters Input)

/-- The warnings of one record and its result. -/
def convertRecord (input : Input) : List String × Except NativeError (List UInt8) :=
  let (pushed, converted) := converters.transcode input
  (pushed, converted >>= storeConverted converters.rawOutput)

/-- A missing record is stored as missing, except among raw results. -/
def missingWrites (index : Nat) : List (Nat × Option (List UInt8)) :=
  if converters.rawOutput then [] else [(index, none)]

end Converters

/-! ## Warnings by chunk -/

/-- The warnings one chunk produced, with its first task. -/
structure ChunkWarnings where
  begin : Nat
  warnings : List String
  deriving DecidableEq

/-- One worker's row, and how much of it has been emitted. -/
structure WorkerChunkWarnings where
  emitted : Nat
  chunks : List ChunkWarnings
  deriving DecidableEq

/-- Where emission stops: the chunk of the failure, and how many of its warnings
come before it. -/
structure WarningCutoff where
  active : Bool
  chunkBegin : Nat
  prefixLength : Nat
  deriving DecidableEq

/-- The cutoff of a worker that does not fail. -/
def WarningCutoff.inactive : WarningCutoff := ⟨false, 0, 0⟩

/-- Move the queue into the row. A chunk without warnings leaves no record. -/
def closeChunkWarnings (chunks : List ChunkWarnings) (begin : Nat) (queue : List String) :
    List ChunkWarnings × List String :=
  if queue.length = 0 then (chunks, queue) else (chunks ++ [⟨begin, queue⟩], [])

/-- The failure a serial run would have reached first. -/
def firstWarningCutoff (workerCutoffs : List WarningCutoff) (outputCutoff : WarningCutoff) :
    WarningCutoff :=
  workerCutoffs.foldl (fun first candidate =>
    if !candidate.active then first
    else if !first.active ∨ candidate.chunkBegin < first.chunkBegin ∨
        (candidate.chunkBegin = first.chunkBegin ∧
          candidate.prefixLength < first.prefixLength) then candidate
    else first) outputCutoff

/-! ## Conversion on workers -/

/-- The queue of the chunk a worker holds, its row and its cutoff. -/
structure ConversionState where
  queue : List String
  chunks : List ChunkWarnings
  cutoff : WarningCutoff
  deriving DecidableEq

/-- The region of the conversion: warnings are kept with their chunk, and a failure cuts them off.
-/
def conversionBody (converters : Converters Input) (records : List (Option Input)) :
    ParallelBody ConversionState (Option (List UInt8)) NativeError where
  initial _ := ⟨[], [], .inactive⟩
  setup _ state :=
    match converters.opening with
    | none => .pass state
    | some error =>
        -- Failing with no chunk held comes before every task.
        { ending := .throws error
          state := { state with
            cutoff := if state.cutoff.active then state.cutoff else ⟨true, 0, 0⟩ } }
  task context index state :=
    match records.getD index none with
    | none =>
        { ending := .next, state := state, writes := converters.missingWrites index }
    | some input =>
        let (pushed, result) := converters.convertRecord input
        let queue := state.queue ++ pushed
        match result with
        | .ok data =>
            { ending := .next, state := { state with queue }, writes := [(index, some data)] }
        | .error error =>
            let cutoff : WarningCutoff := ⟨true, context.begin, queue.length⟩
            let (chunks, queue) := closeChunkWarnings state.chunks context.begin queue
            { ending := .throws error, state := ⟨queue, chunks, cutoff⟩ }
  leaveChunk context state :=
    let (chunks, queue) := closeChunkWarnings state.chunks context.begin state.queue
    .pass { state with queue, chunks }
  describeError := NativeError.text

/-! ## The operation -/

/-- Convert native records to UTF-8 before the region. A failure shortens the
range to the records before it. -/
def preconvertNativeRecords (converters : Converters Input) :
    List (Option Input) → List (Option Input) × Option NativeError
  | [] => ([], none)
  | none :: rest =>
      let (records, error) := preconvertNativeRecords converters rest
      (none :: records, error)
  | some input :: rest =>
      match converters.native input with
      | .error error => ([], some error)
      | .ok converted =>
          let (records, error) := preconvertNativeRecords converters rest
          (some converted :: records, error)

/-- What a conversion leaves behind, also when it fails. -/
structure TranscodeEnd where
  warnings : List String
  workerChunks : List WorkerChunkWarnings
  workerCutoffs : List WarningCutoff
  output : Nat → Option (Option (List UInt8))
  error : Option String

/-- The serial loop, from record `index` on. -/
def serialLoop (converters : Converters Input) :
    Nat → List (Option Input) → List String → (Nat → Option (Option (List UInt8))) → TranscodeEnd
  | _, [], warnings, output => ⟨warnings, [], [], output, none⟩
  | index, none :: rest, warnings, output =>
      serialLoop converters (index + 1) rest warnings
        ((converters.missingWrites index).foldl store output)
  | index, some input :: rest, warnings, output =>
      match if converters.nativeInput then converters.native input else .ok input with
      | .error error => ⟨warnings, [], [], output, some error.text⟩
      | .ok input =>
          let (pushed, result) := converters.convertRecord input
          match result with
          | .error error => ⟨warnings ++ pushed, [], [], output, some error.text⟩
          | .ok data =>
              serialLoop converters (index + 1) rest (warnings ++ pushed)
                (store output (index, some data))

/-- The records that reach the workers, with the failure of the native prepass. -/
def workRecords (converters : Converters Input) (records : List (Option Input)) :
    List (Option Input) × Option NativeError :=
  if converters.nativeInput then preconvertNativeRecords converters records else (records, none)

/-- The threaded part. The prepass can shorten the range, so the plan is made for
the records that are left. -/
def transcodeThreaded (converters : Converters Input) (planFor : Nat → ParallelPlan)
    (records : List (Option Input)) (schedule : List Nat) : Option TranscodeEnd := do
  let (records, nativeError) := workRecords converters records
  let workPlan := planFor records.length
  let regionEnd ← runParallel workPlan records.length (conversionBody converters records)
    (fun _ => none) schedule
  let worker index := (regionEnd.final.worker index).state
  return {
    warnings := []
    workerChunks := (List.range workPlan.workers).map fun index => ⟨0, (worker index).chunks⟩
    workerCutoffs := (List.range workPlan.workers).map fun index => (worker index).cutoff
    output := regionEnd.final.shared.result
    error := match regionEnd.outcome.message NativeError.text with
      | some message => some message
      | none => nativeError.map NativeError.text }

/-- Convert all records, under a schedule for the region. -/
def transcodeRecords (converters : Converters Input) (settings : Settings)
    (records : List (Option Input)) (schedule : List Nat) : Option TranscodeEnd :=
  match converters.opening with
  | some error => some ⟨[], [], [], fun _ => none, some error.text⟩
  | none =>
      if (parallelPlan settings true records.length).workers = 1 then
        some (serialLoop converters 0 records [] fun _ => none)
      else transcodeThreaded converters (parallelPlan settings true) records schedule

/-! ## Emitting the warnings -/

/-- The first `count` messages. -/
def emitPrefix (messages : List String) (count : Nat) : List String :=
  messages.take (if count > messages.length then messages.length else count)

/-- All messages. -/
def emit (messages : List String) : List String :=
  emitPrefix messages messages.length

/-- The chunks of a worker whose warnings are not emitted yet. -/
def WorkerChunkWarnings.remaining (row : WorkerChunkWarnings) : List ChunkWarnings :=
  row.chunks.drop row.emitted

/-- Merge the rows, up to the cutoff. -/
def emitRows (cutoff : WarningCutoff) : Nat → List WorkerChunkWarnings → List String
  | 0, _ => []
  | fuel + 1, rows =>
      match RowMerge.lowestRow ChunkWarnings.begin (rows.map WorkerChunkWarnings.remaining) with
      | none => []
      | some (next, chunk) =>
          let rows := rows.modify next fun row => { row with emitted := row.emitted + 1 }
          if cutoff.active ∧ chunk.begin ≥ cutoff.chunkBegin then
            -- The cutoff's own chunk may have left no record.
            if chunk.begin = cutoff.chunkBegin then
              emitPrefix chunk.warnings cutoff.prefixLength
            else []
          else emit chunk.warnings ++ emitRows cutoff fuel rows

/-- The warnings of a call in the order of a serial run, up to the first failure. -/
def emitConversionWarnings (warnings : List String) (workerChunks : List WorkerChunkWarnings)
    (workerCutoffs : List WarningCutoff) (outputCutoff : WarningCutoff) : List String :=
  emit warnings ++ emitRows (firstWarningCutoff workerCutoffs outputCutoff)
    ((workerChunks.map fun row => row.chunks.length).sum + 1) workerChunks

/-- The warnings the operation emits in the end. -/
def TranscodeEnd.emitted (ended : TranscodeEnd) : List String :=
  emitConversionWarnings ended.warnings ended.workerChunks ended.workerCutoffs .inactive

end Charr.Encoding
