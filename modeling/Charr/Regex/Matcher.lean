import Charr.Regex.Subject

/-!
# The regex matcher

A matcher owns one compiled pattern and one converted subject. Identities say whether
the next pattern or subject is the one it already holds. Every failure of ICU closes
the compiled pattern.
-/

namespace Charr.RegexSearch

/-- How patterns are compiled: the flags of ICU, and limits that are set only if positive. -/
structure RegexOptions where
  flags : UInt32
  stackLimit : Int
  timeLimit : Int
  deriving DecidableEq, Repr

/-- A pattern by reference; no identity and no value stand for null pointers. -/
structure RegexInput where
  identity : Option Nat
  value : Option (List UInt16)
  length : Int
  missing : Bool
  deriving DecidableEq, Repr

/-- A range of bytes of a subject. -/
structure RegexRange where
  start : Int
  stop : Int
  deriving DecidableEq, Repr

/-- How splitting ends; the largest limits are refused. -/
inductive RegexSplitResult where
  | ok
  | limitTooLarge
  deriving DecidableEq, Repr

/-- Which matches are replaced. -/
inductive RegexReplaceMode where
  | first
  | all
  deriving DecidableEq, Repr

/-- Whether replacing leaves a text, or a missing string. -/
inductive RegexReplaceResult where
  | value
  | missing
  deriving DecidableEq, Repr

/-- `icu::RegexMatcher`. A status goes in and comes out, and what a failed call returns
besides it is not specified. -/
structure Icu (World Engine : Type) extends Platform World where
  /-- `new icu::RegexMatcher` -/
  compile : World → List UInt16 → UInt32 → Option Engine × UErrorCode
  setStackLimit : World → Engine → Int → UErrorCode → Engine × UErrorCode
  setTimeLimit : World → Engine → Int → UErrorCode → Engine × UErrorCode
  reset : World → Engine → List UInt16 → Engine
  find : World → Engine → UErrorCode → Engine × Bool × UErrorCode
  start : Engine → Nat → UErrorCode → Int × UErrorCode
  stop : Engine → Nat → UErrorCode → Int × UErrorCode
  groupCount : Engine → Nat
  replaceAll : World → Engine → List UInt16 → UErrorCode → Engine × List UInt16 × UErrorCode
  appendReplacement : World → Engine → List UInt16 → List UInt16 → UErrorCode →
    Engine × List UInt16 × UErrorCode
  appendTail : World → Engine → List UInt16 → Engine × List UInt16

/-- The cache holds `subject_`, `byte_offsets_` and `subject_ascii_`. -/
structure RegexMatcher (Engine : Type) where
  matcher : Option Engine
  patternIdentity : Option Nat
  options : RegexOptions
  cache : SubjectCache
  subjectIdentity : Option Nat
  byteOffsetsValid : Bool

/-- How a call ends, if it does. -/
inductive Outcome (Value : Type) where
  | returns (value : Value)
  | throws (error : Thrown)
  | endless
  deriving DecidableEq, Repr

/-- The same ending with another value. -/
def Outcome.map {Value Value' : Type} (convert : Value → Value') : Outcome Value → Outcome Value'
  | .returns value => .returns (convert value)
  | .throws error => .throws error
  | .endless => .endless

/-- What working on a subject leaves: the engine, the value and the status. -/
structure Scan (Engine Value : Type) where
  engine : Engine
  value : Value
  status : UErrorCode
  ended : Bool

namespace RegexMatcher

variable {World Engine : Type}

/-- A new matcher has neither a pattern nor a subject. -/
def create (options : RegexOptions) : RegexMatcher Engine where
  matcher := none
  patternIdentity := none
  options := options
  cache := ⟨[], [], true⟩
  subjectIdentity := none
  byteOffsetsValid := false

/-- Give up the compiled pattern. -/
def close (matcher : RegexMatcher Engine) : RegexMatcher Engine :=
  { matcher with matcher := none, patternIdentity := none }

/-- New options make the pattern and the subject worthless. -/
def resetOptions (options : RegexOptions) (matcher : RegexMatcher Engine) : RegexMatcher Engine :=
  { matcher.close with
    options := options, subjectIdentity := none, byteOffsetsValid := false }

variable (icu : Icu World Engine) (world : World)

/-- A positive stack limit is set, another one is left to ICU. -/
def withStackLimit (options : RegexOptions) (engine : Engine) (status : UErrorCode) :
    Engine × UErrorCode :=
  if 0 < options.stackLimit then icu.setStackLimit world engine options.stackLimit status
  else (engine, status)

/-- A positive time limit is set, another one is left to ICU. -/
def withTimeLimit (options : RegexOptions) (engine : Engine) (status : UErrorCode) :
    Engine × UErrorCode :=
  if 0 < options.timeLimit then icu.setTimeLimit world engine options.timeLimit status
  else (engine, status)

/-- A compiled pattern with its limits; nothing if one could not be set. -/
def limited (options : RegexOptions) (engine : Engine) (status : UErrorCode) :
    Option Engine × UErrorCode :=
  let stacked := withStackLimit icu world options engine status
  if failed stacked.2 then (none, stacked.2)
  else
    let timed := withTimeLimit icu world options stacked.1 stacked.2
    if failed timed.2 then (none, timed.2) else (some timed.1, timed.2)

/-- Whether the pattern is bound, the status, and whether it could not be compiled. -/
def bind (pattern : RegexInput) (matcher : RegexMatcher Engine) :
    (Bool × UErrorCode × Bool) × RegexMatcher Engine :=
  match pattern.identity, pattern.value with
  | some identity, some value =>
      if pattern.missing ∨ pattern.length ≤ 0 then
        ((false, illegalArgumentError, false), matcher)
      else if matcher.matcher.isNone ∨ matcher.patternIdentity ≠ some identity then
        match icu.compile world value matcher.options.flags with
        | (none, status) =>
            ((false, if failed status then status else memoryAllocationError, true), matcher.close)
        | (some engine, status) =>
            if failed status then ((false, status, true), matcher.close)
            else
              match limited icu world matcher.options engine status with
              | (none, status) => ((false, status, false), matcher.close)
              | (some engine, status) =>
                  ((true, status, false),
                    { matcher with matcher := some engine, patternIdentity := some identity })
      else ((true, zeroError, false), matcher)
  | _, _ => ((false, illegalArgumentError, false), matcher)

/-- The subject for operations that need no byte offsets. -/
def convertText (subject : StringView) (identity : Nat) (matcher : RegexMatcher Engine) :
    RegexMatcher Engine × Except Thrown Unit :=
  if matcher.subjectIdentity ≠ some identity then
    let converted := setUtf16 icu.toPlatform world matcher.cache.units subject
    let matcher := { matcher with
      subjectIdentity := none, cache := { matcher.cache with units := converted.1 } }
    match converted.2 with
    | .error error => (matcher, .error error)
    | .ok () =>
        ({ matcher with subjectIdentity := some identity, byteOffsetsValid := false }, .ok ())
  else (matcher, .ok ())

/-- The subject with its byte offsets. -/
def convertOffsets (subject : StringView) (identity : Nat) (matcher : RegexMatcher Engine) :
    RegexMatcher Engine × Except Thrown Unit :=
  if matcher.subjectIdentity ≠ some identity ∨ !matcher.byteOffsetsValid then
    let converted := setUtf16WithOffsets icu.toPlatform world matcher.cache subject
    let matcher := { matcher with
      subjectIdentity := none, byteOffsetsValid := false, cache := converted.1 }
    match converted.2 with
    | .error error => (matcher, .error error)
    | .ok () =>
        ({ matcher with subjectIdentity := some identity, byteOffsetsValid := true }, .ok ())
  else (matcher, .ok ())

/-- A failed status closes the compiled pattern. -/
def settle {Value : Type} (scan : Scan Engine Value) (matcher : RegexMatcher Engine) :
    Outcome (Value × UErrorCode) × RegexMatcher Engine :=
  let matcher := { matcher with matcher := some scan.engine }
  if !scan.ended then (.endless, matcher)
  else (.returns (scan.value, scan.status), if failed scan.status then matcher.close else matcher)

/-- What the operations on a subject share: missing subjects, null identities and
unbound matchers are refused, the subject is converted unless it is cached. -/
def onSubject {Value : Type}
    (convert : StringView → Nat → RegexMatcher Engine → RegexMatcher Engine × Except Thrown Unit)
    (scan : Engine → SubjectCache → Scan Engine Value) (refused : Value) (subject : StringView)
    (identity : Option Nat) (matcher : RegexMatcher Engine) :
    Outcome (Value × UErrorCode) × RegexMatcher Engine :=
  match identity, matcher.matcher with
  | some identity, some engine =>
      if subject.isNa then (.returns (refused, illegalArgumentError), matcher)
      else
        match convert subject identity matcher with
        | (matcher, .error error) => (.throws error, matcher)
        | (matcher, .ok ()) => settle (scan engine matcher.cache) matcher
  | _, _ => (.returns (refused, illegalArgumentError), matcher)

/-! ## Working on the cached subject -/

/-- Whether there is a match. -/
def containsScan (engine : Engine) (cache : SubjectCache) : Scan Engine Bool :=
  let found := icu.find world (icu.reset world engine cache.units) zeroError
  ⟨found.1, found.2.1, found.2.2, true⟩

/-- One match more than an `int` holds is an error. -/
def countLoop : (fuel : Nat) → Engine → (result : Nat) → UErrorCode → Scan Engine Nat
  | 0, engine, result, status => ⟨engine, result, status, false⟩
  | fuel + 1, engine, result, status =>
      let found := icu.find world engine status
      if !found.2.1 || failed found.2.2 then ⟨found.1, result, found.2.2, true⟩
      else if result = intMax then ⟨found.1, result, indexOutOfBoundsError, true⟩
      else countLoop fuel found.1 (result + 1) found.2.2

/-- The number of matches. -/
def countScan (fuel : Nat) (engine : Engine) (cache : SubjectCache) : Scan Engine Nat :=
  countLoop icu world fuel (icu.reset world engine cache.units) 0 zeroError

/-- The byte a UTF-16 position stands at; in ASCII text they are the same. -/
def byteOffset (cache : SubjectCache) (utf16Offset : Int) (status : UErrorCode) :
    Int × UErrorCode :=
  if cache.ascii then (utf16Offset, status)
  else if utf16Offset < 0 ∨ cache.byteOffsets.length ≤ utf16Offset.toNat then
    (0, indexOutOfBoundsError)
  else (cache.byteOffsets.getD utf16Offset.toNat 0, status)

/-- The byte range of the whole match. -/
def matchRange (engine : Engine) (cache : SubjectCache) (status : UErrorCode) :
    RegexRange × UErrorCode :=
  let startUtf16 := icu.start engine 0 status
  if failed startUtf16.2 then (⟨0, 0⟩, startUtf16.2)
  else
    let start := byteOffset cache startUtf16.1 startUtf16.2
    if failed start.2 then (⟨0, 0⟩, start.2)
    else
      let stopUtf16 := icu.stop engine 0 start.2
      if failed stopUtf16.2 then (⟨0, 0⟩, stopUtf16.2)
      else
        let stop := byteOffset cache stopUtf16.1 stopUtf16.2
        (⟨start.1, stop.1⟩, stop.2)

/-- The byte range of a group; a group without part in the match has none. -/
def captureRange (engine : Engine) (cache : SubjectCache) (group : Nat) (status : UErrorCode) :
    RegexRange × UErrorCode :=
  let startUtf16 := icu.start engine (group + 1) status
  if failed startUtf16.2 then (⟨0, 0⟩, startUtf16.2)
  else
    let stopUtf16 := icu.stop engine (group + 1) startUtf16.2
    if failed stopUtf16.2 then (⟨0, 0⟩, stopUtf16.2)
    else if startUtf16.1 < 0 ∨ stopUtf16.1 < 0 then (⟨-1, -1⟩, stopUtf16.2)
    else
      let start := byteOffset cache startUtf16.1 stopUtf16.2
      if failed start.2 then (⟨0, 0⟩, start.2)
      else
        let stop := byteOffset cache stopUtf16.1 start.2
        (⟨start.1, stop.1⟩, stop.2)

/-- The groups of a match in turn, until one fails. -/
def captureLoop {Captures : Type} (write : Nat → RegexRange → Captures → Captures)
    (engine : Engine) (cache : SubjectCache) :
    List Nat → Captures → UErrorCode → Captures × UErrorCode
  | [], captures, status => (captures, status)
  | group :: rest, captures, status =>
      let capture := captureRange icu engine cache group status
      if failed capture.2 then (captures, capture.2)
      else captureLoop write engine cache rest (write group capture.1 captures) capture.2

/-- Nothing is written to the caller's range unless there is a match. -/
def findFirstScan (engine : Engine) (cache : SubjectCache) :
    Scan Engine (Bool × Option RegexRange) :=
  let found := icu.find world (icu.reset world engine cache.units) zeroError
  if !found.2.1 || failed found.2.2 then ⟨found.1, (false, none), found.2.2, true⟩
  else
    let range := matchRange icu found.1 cache found.2.2
    if failed range.2 then ⟨found.1, (false, none), range.2, true⟩
    else ⟨found.1, (true, some range.1), range.2, true⟩

/-- The first match, then the groups of the match the engine is at. -/
def findFirstCapturesScan (engine : Engine) (cache : SubjectCache) :
    Scan Engine (Bool × Option RegexRange × List RegexRange) :=
  let first := findFirstScan icu world engine cache
  if !first.value.1 || failed first.status then
    ⟨first.engine, (false, first.value.2, []), first.status, true⟩
  else
    let count := icu.groupCount first.engine
    let captured := captureLoop icu (fun group range captures => captures.set group range)
      first.engine cache (List.range count) (List.replicate count ⟨0, 0⟩) first.status
    if failed captured.2 then ⟨first.engine, (false, first.value.2, captured.1), captured.2, true⟩
    else ⟨first.engine, (true, first.value.2, captured.1), captured.2, true⟩

/-- Matches in turn, each handed on with the engine at it, as long as `goesOn`. -/
def matchLoop {Result : Type} (cache : SubjectCache) (goesOn : Result → Bool)
    (visit : Engine → Result → RegexRange → UErrorCode → Result × UErrorCode) :
    (fuel : Nat) → Engine → Result → UErrorCode → Scan Engine Result
  | 0, engine, result, status => ⟨engine, result, status, false⟩
  | fuel + 1, engine, result, status =>
      if !goesOn result then ⟨engine, result, status, true⟩
      else
        let found := icu.find world engine status
        if !found.2.1 || failed found.2.2 then ⟨found.1, result, found.2.2, true⟩
        else
          let range := matchRange icu found.1 cache found.2.2
          if failed range.2 then ⟨found.1, result, range.2, true⟩
          else
            let visited := visit found.1 result range.1 range.2
            if failed visited.2 then ⟨found.1, visited.1, visited.2, true⟩
            else matchLoop cache goesOn visit fuel found.1 visited.1 visited.2

/-- The ranges of all matches. -/
def findAllScan (fuel : Nat) (engine : Engine) (cache : SubjectCache) :
    Scan Engine (List RegexRange) :=
  matchLoop icu world cache (fun _ => true)
    (fun _ found range status => (found ++ [range], status))
    fuel (icu.reset world engine cache.units) [] zeroError

/-- The ranges of the matches, and of every group a column of ranges. -/
def findAllCapturesScan (fuel : Nat) (engine : Engine) (cache : SubjectCache) :
    Scan Engine (List RegexRange × List (List RegexRange)) :=
  let count := icu.groupCount engine
  matchLoop icu world cache (fun _ => true)
    (fun engine found range status =>
      let captured := captureLoop icu
        (fun group range columns => columns.modify group (· ++ [range]))
        engine cache (List.range count) found.2 status
      ((found.1 ++ [range], captured.1), captured.2))
    fuel (icu.reset world engine cache.units) ([], List.replicate count []) zeroError

/-- The fields between the matches, and where the open one starts. -/
def splitDefaultScan (fuel : Nat) (len : Int) (engine : Engine) (cache : SubjectCache) :
    Scan Engine (List RegexRange) :=
  let scan := matchLoop icu world cache (fun _ => true)
    (fun _ fields range status =>
      ((fields.1 ++ [(⟨fields.2, range.start⟩ : RegexRange)], range.stop), status))
    fuel (icu.reset world engine cache.units) ([], 0) zeroError
  ⟨scan.engine,
    if failed scan.status then scan.value.1 else scan.value.1 ++ [⟨scan.value.2, len⟩],
    scan.status, scan.ended⟩

/-- The fields so far, the last of them open, and their number as the limit counts it. -/
structure Fields where
  closed : List RegexRange
  current : RegexRange
  count : Int

/-- A match closes the open field and opens the next, behind itself. -/
def splitVisit (omitEmpty : Bool) (fields : Fields) (range : RegexRange) : Fields :=
  if omitEmpty ∧ fields.current.start = range.start then
    { fields with current := { fields.current with start := range.stop } }
  else
    ⟨fields.closed ++ [{ fields.current with stop := range.start }],
      ⟨range.stop, range.stop⟩, fields.count + 1⟩

/-- A negative limit is none. -/
def fieldLimit (n : Int) : Int := if n < 0 then intMax else n

/-- With tokens only, one field more is looked for than is kept. -/
def searchLimit (n : Int) (tokensOnly : Bool) : Int :=
  if tokensOnly ∧ fieldLimit n < intMax then fieldLimit n + 1 else fieldLimit n

/-- The open field ends with the subject, and with tokens only the fields are cut to the limit. -/
def splitFinish (len n : Int) (omitEmpty tokensOnly : Bool) (fields : Fields) : List RegexRange :=
  let last : RegexRange := { fields.current with stop := len }
  let kept :=
    if omitEmpty ∧ last.start = last.stop then fields.closed else fields.closed ++ [last]
  if tokensOnly ∧ fieldLimit n < intMax then kept.take (fieldLimit n).toNat else kept

/-- The fields between the matches, as far as the limit allows. -/
def splitScan (fuel : Nat) (len n : Int) (omitEmpty tokensOnly : Bool) (engine : Engine)
    (cache : SubjectCache) : Scan Engine (List RegexRange) :=
  let scan := matchLoop icu world cache (fun fields => fields.count < searchLimit n tokensOnly)
    (fun _ fields range status => (splitVisit omitEmpty fields range, status))
    fuel (icu.reset world engine cache.units) ⟨[], ⟨0, 0⟩, 1⟩ zeroError
  ⟨scan.engine,
    if failed scan.status then scan.value.closed ++ [scan.value.current]
    else splitFinish len n omitEmpty tokensOnly scan.value,
    scan.status, scan.ended⟩

/-- Nothing is written to the caller's output before it is known what. -/
def replaceScan (replacement : Option (List UInt16)) (mode : RegexReplaceMode) (engine : Engine)
    (subject : List UInt16) : Scan Engine (RegexReplaceResult × Option (List UInt16)) :=
  let engine := icu.reset world engine subject
  match replacement, mode with
  | none, _ =>
      let found := icu.find world engine zeroError
      if failed found.2.2 then ⟨found.1, (.value, none), found.2.2, true⟩
      else if found.2.1 then ⟨found.1, (.missing, none), found.2.2, true⟩
      else ⟨found.1, (.value, some subject), found.2.2, true⟩
  | some replacement, .all =>
      let replaced := icu.replaceAll world engine replacement zeroError
      ⟨replaced.1, (.value, some replaced.2.1), replaced.2.2, true⟩
  | some replacement, .first =>
      let found := icu.find world engine zeroError
      if failed found.2.2 then ⟨found.1, (.value, none), found.2.2, true⟩
      else if !found.2.1 then ⟨found.1, (.value, some subject), found.2.2, true⟩
      else
        let appended := icu.appendReplacement world found.1 [] replacement found.2.2
        if failed appended.2.2 then ⟨appended.1, (.value, some appended.2.1), appended.2.2, true⟩
        else
          let tailed := icu.appendTail world appended.1 appended.2.1
          ⟨tailed.1, (.value, some tailed.2), appended.2.2, true⟩

/-! ## The operations

Each gives its value and the status, and the matcher it leaves. The fuel bounds the
matches a loop asks for. -/

variable (fuel : Nat) (subject : StringView) (identity : Option Nat)

/-- Whether the pattern matches in the subject. -/
def contains : RegexMatcher Engine → Outcome (Bool × UErrorCode) × RegexMatcher Engine :=
  onSubject (convertText icu world) (containsScan icu world) false subject identity

/-- The number of matches in the subject. -/
def count : RegexMatcher Engine → Outcome (Nat × UErrorCode) × RegexMatcher Engine :=
  onSubject (convertText icu world) (countScan icu world fuel) 0 subject identity

/-- The first match in the subject. -/
def findFirst : RegexMatcher Engine →
    Outcome ((Bool × Option RegexRange) × UErrorCode) × RegexMatcher Engine :=
  onSubject (convertOffsets icu world) (findFirstScan icu world) (false, none) subject identity

/-- All matches in the subject. -/
def findAll : RegexMatcher Engine →
    Outcome (List RegexRange × UErrorCode) × RegexMatcher Engine :=
  onSubject (convertOffsets icu world) (findAllScan icu world fuel) [] subject identity

/-- The first match with its groups. -/
def findFirstWithCaptures : RegexMatcher Engine →
    Outcome ((Bool × Option RegexRange × List RegexRange) × UErrorCode) × RegexMatcher Engine :=
  onSubject (convertOffsets icu world) (findFirstCapturesScan icu world) (false, none, [])
    subject identity

/-- All matches with their groups. -/
def findAllWithCaptures : RegexMatcher Engine →
    Outcome ((List RegexRange × List (List RegexRange)) × UErrorCode) × RegexMatcher Engine :=
  onSubject (convertOffsets icu world) (findAllCapturesScan icu world fuel) ([], [])
    subject identity

/-- The subject split at its matches, without limit. -/
def splitDefault : RegexMatcher Engine →
    Outcome (List RegexRange × UErrorCode) × RegexMatcher Engine :=
  onSubject (convertOffsets icu world) (splitDefaultScan icu world fuel subject.len) []
    subject identity

/-- The subject split at its matches; `n` is the limit on the number of fields. -/
def split (n : Int) (omitEmpty tokensOnly : Bool) (matcher : RegexMatcher Engine) :
    Outcome ((RegexSplitResult × List RegexRange) × UErrorCode) × RegexMatcher Engine :=
  if subject.isNa ∨ identity.isNone ∨ matcher.matcher.isNone then
    (.returns ((.ok, []), illegalArgumentError), matcher)
  else if (intMax : Int) - 1 ≤ n then (.returns ((.limitTooLarge, []), zeroError), matcher)
  else if n = 0 then (.returns ((.ok, []), zeroError), matcher)
  else
    let done :=
      if n < 0 ∧ !omitEmpty ∧ !tokensOnly then
        splitDefault icu world fuel subject identity matcher
      else
        onSubject (convertOffsets icu world)
          (splitScan icu world fuel subject.len n omitEmpty tokensOnly) [] subject identity matcher
    (done.1.map fun fields => ((.ok, fields.1), fields.2), done.2)

/-- On a subject that is UTF-16 already. -/
def replaceText (replacement : Option (List UInt16)) (mode : RegexReplaceMode)
    (text : List UInt16) (matcher : RegexMatcher Engine) :
    Outcome ((RegexReplaceResult × Option (List UInt16)) × UErrorCode) × RegexMatcher Engine :=
  match matcher.matcher with
  | none => (.returns ((.value, none), illegalArgumentError), matcher)
  | some engine => settle (replaceScan icu world replacement mode engine text) matcher

/-- The subject is converted before it is known whether a pattern is bound. -/
def replace (replacement : Option (List UInt16)) (mode : RegexReplaceMode)
    (matcher : RegexMatcher Engine) :
    Outcome ((RegexReplaceResult × Option (List UInt16)) × UErrorCode) × RegexMatcher Engine :=
  match identity with
  | none => (.returns ((.value, none), illegalArgumentError), matcher)
  | some identity =>
      if subject.isNa then (.returns ((.value, none), illegalArgumentError), matcher)
      else
        match convertText icu world subject identity matcher with
        | (matcher, .error error) => (.throws error, matcher)
        | (matcher, .ok ()) =>
            replaceText icu world replacement mode matcher.cache.units matcher

end RegexMatcher

end Charr.RegexSearch
