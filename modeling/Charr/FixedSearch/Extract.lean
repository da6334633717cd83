import Charr.FixedSearch.Vectorized
import Charr.Parallel.Chunks

/-!
# Planning the extraction of matches

Extraction first plans its rows: how many matches a row has and where they are.
A search that compares bytes finds copies of the pattern, so its rows point at
the pattern; a case-insensitive one lists the matches. On several workers each
plans the chunks it claims into a plan of its own, and the plans are merged.
-/

namespace Charr.FixedSearch

open Parallel
open Utf8 (CodePoint)

/-- One row: `begin` is an index into the plan's matches, or into the patterns
where the matches are the patterns. -/
structure FixedExtractRow where
  begin : Nat
  count : Int
  forcedNa : Bool
  deriving DecidableEq

/-- The rows that are planned, their matches one after another, and the most there are in a row. -/
structure FixedExtractPlan where
  rows : List FixedExtractRow := []
  matched : List StringView := []
  maxColumns : Int := 0
  matchesArePatterns : Bool := false
  deriving DecidableEq

/-- The error of more matches than R can count. -/
def extractionTooLarge : NativeError := .lengthError "fixed extraction result is too large"

/-! ## Planning rows -/

section Planning

variable (toUpper : CodePoint → CodePoint) (subjects patterns : List StringView)
  (options : FixedSearchOptions) (omitNoMatch : Bool)

/-- A match as a view into its subject. -/
def matchView (subject : StringView) (range : ByteRange) : StringView :=
  let enc : StringEncoding := if subject.enc = .ascii then .ascii else .asciiOrUtf8
  match subject.data with
  | .null _ => ⟨.null (range.stop - range.start), enc⟩
  | .bytes span => ⟨.bytes (span.slice range.start.toNat range.stop.toNat), enc⟩

/-- What the search finds for one row: its count, whether it is missing, and the
matches it lists. -/
structure RowMatches where
  count : Int
  forcedNa : Bool
  found : List StringView
  deriving DecidableEq

/-- The search for one row. -/
def searchRow (subject pattern : StringView) (matcher : FixedMatcher) :
    Except NativeError (RowMatches × FixedMatcher) :=
  if subject.isNa ∨ pattern.isNa ∨ pattern.len ≤ 0 then .ok (⟨0, true, []⟩, matcher)
  else if subject.len ≤ 0 then .ok (⟨0, !omitNoMatch, []⟩, matcher)
  else if !options.caseInsensitive then do
    let (count, matcher) ←
      if options.overlap then matcher.count toUpper subject pattern options
      else pure (countExactBytes subject.bytes pattern.bytes, matcher)
    return (⟨count, count = 0 ∧ !omitNoMatch, []⟩, matcher)
  else do
    let (scratch, matcher) ← matcher.findAll toUpper subject pattern options
    let found := scratch.map (matchView subject)
    if found.length > intMax then throw extractionTooLarge
    return (⟨found.length, found.length = 0 ∧ !omitNoMatch, found⟩, matcher)

/-- Plan row `index` onto the end of the plan. -/
def planRow (index : Nat) (plan : FixedExtractPlan) (matcher : FixedMatcher) :
    Except NativeError (FixedExtractPlan × FixedMatcher) := do
  let patternIndex := index % patterns.length
  let subject := subjects.getD (index % subjects.length) .na
  let pattern := patterns.getD patternIndex .na
  let begin := if plan.matchesArePatterns then patternIndex else plan.matched.length
  let (row, matcher) ← searchRow toUpper options omitNoMatch subject pattern matcher
  let width := if row.forcedNa then 1 else row.count
  return ({ plan with
    rows := plan.rows ++ [⟨begin, row.count, row.forcedNa⟩]
    matched := plan.matched ++ row.found
    maxColumns := if width > plan.maxColumns then width else plan.maxColumns }, matcher)

/-- Rows one after another, on one matcher. -/
def planRows : List Nat → FixedExtractPlan → FixedMatcher →
    Except NativeError (FixedExtractPlan × FixedMatcher)
  | [], plan, matcher => .ok (plan, matcher)
  | index :: rest, plan, matcher => do
      let (plan, matcher) ← planRow toUpper subjects patterns options omitNoMatch index plan matcher
      planRows rest plan matcher

/-- A cleared plan in the mode of the options. -/
def clearedPlan : FixedExtractPlan :=
  { matchesArePatterns := !options.caseInsensitive }

/-- The error of a plan over nothing. -/
def requiresInputs : NativeError :=
  .invalidArgument "fixed extraction requires non-empty inputs"

/-- Plan all rows. -/
def planFixedExtract (outputLength : Int) (matcher : FixedMatcher) :
    Except NativeError (FixedExtractPlan × FixedMatcher) :=
  if outputLength ≤ 0 then .ok (clearedPlan options, matcher)
  else if subjects = [] ∨ patterns = [] then .error requiresInputs
  else planRows toUpper subjects patterns options omitNoMatch (List.range outputLength.toNat)
    (clearedPlan options) matcher

/-- Plan the rows `[begin, endRow)`. -/
def planFixedExtractRange (begin endRow : Int) (matcher : FixedMatcher) :
    Except NativeError (FixedExtractPlan × FixedMatcher) :=
  if begin < 0 ∨ endRow < begin then .error (.invalidArgument "invalid fixed extraction range")
  else if begin = endRow then .ok (clearedPlan options, matcher)
  else if subjects = [] ∨ patterns = [] then .error requiresInputs
  else planRows toUpper subjects patterns options omitNoMatch
    (List.range' begin.toNat (endRow - begin).toNat) (clearedPlan options) matcher

end Planning

/-! ## Planning on workers -/

/-- The rows planned from one claimed chunk: where they belong and how many. -/
structure PlanSegment where
  begin : Int
  count : Int
  deriving DecidableEq

/-- Append a chunk's plan to the worker's. A row's match index moves by what the
worker has accumulated. -/
def appendChunk (chunk plan : FixedExtractPlan) : Except NativeError FixedExtractPlan :=
  let matchOffset := plan.matched.length
  if !chunk.matchesArePatterns ∧ chunk.matched.length > sizeMax - matchOffset then
    .error extractionTooLarge
  else .ok {
    rows := plan.rows ++ chunk.rows.map fun row =>
      if !chunk.matchesArePatterns then { row with begin := row.begin + matchOffset } else row
    matched := if !chunk.matchesArePatterns then plan.matched ++ chunk.matched else plan.matched
    maxColumns := if plan.maxColumns < chunk.maxColumns then chunk.maxColumns else plan.maxColumns
    matchesArePatterns := chunk.matchesArePatterns }

/-- The plan, the segments and the matcher of one worker. -/
structure ExtractState where
  matcher : FixedMatcher := {}
  plan : FixedExtractPlan := {}
  segments : List PlanSegment := []
  deriving DecidableEq

section Workers

variable (toUpper : CodePoint → CodePoint) (subjects patterns : List StringView)
  (options : FixedSearchOptions) (omitNoMatch : Bool)

/-- What a worker does with a claimed chunk. -/
def planChunk (begin endTask : Nat) (state : ExtractState) : Except NativeError ExtractState := do
  let (chunk, matcher) ← planFixedExtractRange toUpper subjects patterns options omitNoMatch
    begin endTask state.matcher
  let plan ← appendChunk chunk state.plan
  return ⟨matcher, plan, state.segments ++ [⟨begin, (endTask : Int) - begin⟩]⟩

/-- The loop of a worker over the chunks it claims. -/
def planChunks (tasks chunk : Nat) : List Nat → ExtractState → Except NativeError ExtractState
  | [], state => .ok state
  | number :: rest, state => do
      let state ← planChunk toUpper subjects patterns options omitNoMatch
        (chunkBegin chunk number) (chunkEnd tasks chunk number) state
      planChunks tasks chunk rest state

/-- The region: a worker plans the rows of its chunks behind each other. -/
def extractBody : ParallelBody ExtractState Unit NativeError :=
  chunkwise (fun _ => {})
    (fun context state =>
      match planChunk toUpper subjects patterns options omitNoMatch context.begin context.endTask
          state with
      | .ok state => .pass state
      | .error error => { ending := .throws error, state := state })
    NativeError.text

end Workers

/-! ## Merging the plans -/

/-- The error of workers that did not plan every row. -/
def incompleteMerge : NativeError := .logicError "incomplete fixed extraction row merge"

/-- The checks on a source's row, and the row as the output has it. -/
def mergeRow (patternCount matchOffset : Nat) (matchesArePatterns : Bool)
    (source : FixedExtractPlan) (row : FixedExtractRow) : Except NativeError FixedExtractRow :=
  if row.count < 0 then .error (.logicError "invalid fixed extraction row count")
  else if matchesArePatterns then
    if row.begin ≥ patternCount then .error (.logicError "invalid fixed extraction pattern row")
    else .ok row
  else if row.begin > source.matched.length ∨
      row.count.toNat > source.matched.length - row.begin then
    .error (.logicError "invalid fixed extraction match row")
  else if row.begin > sizeMax - matchOffset then .error extractionTooLarge
  else .ok { row with begin := row.begin + matchOffset }

section Merge

variable (patternCount expectedRows matchOffset : Nat) (matchesArePatterns : Bool)
  (source : FixedExtractPlan)

/-- Write rows from `index` on. -/
def mergeRows : List FixedExtractRow → Nat → List FixedExtractRow →
    Except NativeError (List FixedExtractRow)
  | [], _, output => .ok output
  | row :: rest, index, output => do
      let row ← mergeRow patternCount matchOffset matchesArePatterns source row
      mergeRows rest (index + 1) (output.set index row)

/-- Walk a source's segments, with the rows consumed and the output's rows. -/
def mergeRuns : List PlanSegment → Nat → List FixedExtractRow →
    Except NativeError (Nat × List FixedExtractRow)
  | [], consumed, output => .ok (consumed, output)
  | segment :: rest, consumed, output =>
      if segment.begin < 0 ∨ segment.count < 0 then
        .error (.logicError "invalid fixed extraction chunk size")
      else
        let rowOffset := segment.begin.toNat
        let rowCount := segment.count.toNat
        if rowOffset > expectedRows ∨ rowCount > expectedRows - rowOffset then
          .error (.lengthError "fixed extraction row merge is too large")
        else if rowCount > source.rows.length - consumed then .error incompleteMerge
        else do
          let output ← mergeRows patternCount matchOffset matchesArePatterns source
            ((source.rows.drop consumed).take rowCount) rowOffset output
          mergeRuns rest (consumed + rowCount) output

end Merge

/-- Merge one worker's plan into the output, with the rows merged so far. -/
def mergeSource (patternCount expectedRows : Nat) (matchesArePatterns : Bool)
    (source : FixedExtractPlan) (runs : List PlanSegment) (output : FixedExtractPlan)
    (mergedRows : Nat) : Except NativeError (FixedExtractPlan × Nat) :=
  -- A worker that never drew a chunk holds a plan nothing wrote to.
  if runs = [] then .ok (output, mergedRows)
  else if source.matchesArePatterns ≠ matchesArePatterns then
    .error (.logicError "inconsistent fixed extraction plan mode")
  else
    let matchOffset := output.matched.length
    if !matchesArePatterns ∧ source.matched.length > sizeMax - matchOffset then
      .error extractionTooLarge
    else do
      let matched := if !matchesArePatterns then output.matched ++ source.matched
        else output.matched
      let (consumed, rows) ← mergeRuns patternCount expectedRows matchOffset matchesArePatterns
        source runs 0 output.rows
      if consumed ≠ source.rows.length then throw incompleteMerge
      return ({ output with
        rows, matched
        maxColumns := if output.maxColumns < source.maxColumns then source.maxColumns
          else output.maxColumns }, mergedRows + consumed)

/-- The plans of all workers, merged into one. -/
def mergeSources (patternCount expectedRows : Nat) (matchesArePatterns : Bool) :
    List (FixedExtractPlan × List PlanSegment) → FixedExtractPlan → Nat →
      Except NativeError (FixedExtractPlan × Nat)
  | [], output, mergedRows => .ok (output, mergedRows)
  | (source, runs) :: rest, output, mergedRows => do
      let (output, mergedRows) ← mergeSource patternCount expectedRows matchesArePatterns source
        runs output mergedRows
      mergeSources patternCount expectedRows matchesArePatterns rest output mergedRows

/-- Merge the workers' plans into one for all rows. -/
def mergePlans (sources : List (FixedExtractPlan × List PlanSegment)) (patternCount : Nat)
    (outputLength : Nat) (matchesArePatterns : Bool) : Except NativeError FixedExtractPlan := do
  let output : FixedExtractPlan :=
    { rows := List.replicate outputLength ⟨0, 0, false⟩, matchesArePatterns }
  let (output, mergedRows) ← mergeSources patternCount outputLength matchesArePatterns sources
    output 0
  if mergedRows ≠ outputLength then throw incompleteMerge
  return output

/-! ## The planned extraction -/

section Operation

variable (toUpper : CodePoint → CodePoint) (subjects patterns : List StringView)
  (options : FixedSearchOptions) (omitNoMatch : Bool)

/-- The plans and segments of all workers, in their order. -/
def workerPlans (workers : Nat) (state : Nat → ExtractState) :
    List (FixedExtractPlan × List PlanSegment) :=
  (List.range workers).map fun index => ((state index).plan, (state index).segments)

/-- The plan of an extraction, on one worker or on several. -/
def extractionPlan (parallelPlan : ParallelPlan) (schedule : List Nat) :
    Option (Except String FixedExtractPlan) :=
  let vectorizeLength := (recyclingLength subjects.length patterns.length).1
  if parallelPlan.workers = 1 then
    match planFixedExtract toUpper subjects patterns options omitNoMatch vectorizeLength {} with
    | .ok (plan, _) => some (.ok plan)
    | .error error => some (.error error.text)
  else do
    let regionEnd ← runParallel parallelPlan vectorizeLength
      (extractBody toUpper subjects patterns options omitNoMatch) (fun _ => none) schedule
    match regionEnd.outcome.message NativeError.text with
    | some message => return .error message
    | none =>
        match mergePlans (workerPlans parallelPlan.workers fun index =>
            (regionEnd.final.worker index).state) patterns.length vectorizeLength
            (!options.caseInsensitive) with
        | .ok plan => return .ok plan
        | .error error => return .error error.text

/-- The strings of a row, as `set_matched_store` builds them; nothing when the
row is missing. -/
def FixedExtractPlan.strings (plan : FixedExtractPlan) (row : FixedExtractRow) :
    Option (List StringView) :=
  if row.forcedNa then none
  else if row.count ≤ 0 then some []
  else if plan.matchesArePatterns then
    some (List.replicate row.count.toNat (patterns.getD row.begin .na))
  else some ((plan.matched.drop row.begin).take row.count.toNat)

end Operation

end Charr.FixedSearch
