import Charr.Library.Loops
import Charr.Parallel.Chunks
import Charr.Parallel.Tasks
import Charr.Substring.Replacement
import Charr.Substring.Sub
import Charr.Substring.Validation

/-!
# Replacing the ranges of every string of a vector

One worker prepares an element, assembles it, and goes on to the next. Before
several workers start, the calling thread prepares every element and decides its
conditions; what the workers need is appended to vectors that all elements share,
and the plan of an element says where. Either way a call raises the same error,
gives the same warnings and returns the same strings.
-/

namespace Charr.Substring

open Parallel

/-! ## The arguments -/

/-- An error of a call, and whether the warnings that are pending are given before it. -/
structure Failure where
  message : String
  emits : Bool
  deriving DecidableEq, Repr

/-- An element of `from`, `to` or `length`, with its integers or the error R raises for it. -/
structure BoundsArgument where
  values : Except String (List Int) := .ok []
  columns : Option Nat := none
  namedLength : Bool := false
  plain : Option Int := none

/-- An element of `value`. -/
structure StringArgument where
  inputs : Except Failure (List FrameInput)
  plain : Bool
  plain_single : plain = true → ∀ values, inputs = .ok values → values.length = 1

/-- The arguments of a call, as they are before any element is looked at. -/
structure ReplacementCall where
  sources : List FrameInput
  start : List BoundsArgument
  stop : Option (List BoundsArgument)
  lengths : Option (List BoundsArgument)
  value : List StringArgument
  omitNa : Bool
  useMatrix : Bool

/-- The message for a matrix of the wrong shape. -/
def expectedMatrix : String := "argument `from` should be a matrix with 2 columns"

/-- The integers of an argument; R raises its own errors at once. -/
def BoundsArgument.integers (argument : BoundsArgument) : Except Failure (List Int) :=
  argument.values.mapError fun message => ⟨message, false⟩

/-- The ranges of an element, recycled, and whether they do not recycle evenly. -/
def recycledBounds (start : List Int) (stop lengths : Option (List Int)) : Bounds × Bool :=
  let (vectorizeLength, uneven) := recyclingLength
    [start.length, max (stop.getD []).length (lengths.getD []).length]
  (⟨start, stop, lengths, vectorizeLength⟩, uneven)

/-- The bounds of an element: two columns of a matrix, or starts with ends or lengths. -/
def prepareFromToLength (useMatrix : Bool) (start : BoundsArgument)
    (stop lengths : Option BoundsArgument) : Except Failure (Bounds × Bool) :=
  let columns := start.columns.getD 0
  let isMatrix := useMatrix && start.columns.isSome && columns ≠ 1
  if isMatrix && columns > 2 then .error ⟨expectedMatrix, true⟩
  else do
    let values ← start.integers
    if isMatrix then
      let count := values.length / 2
      let second := (values.drop count).take count
      if start.namedLength then return recycledBounds (values.take count) none (some second)
      else return recycledBounds (values.take count) (some second) none
    else
      match lengths with
      | some lengths => do
          let lengths ← lengths.integers
          return recycledBounds values none (some lengths)
      | none => do
          let stop ← (stop.getD {}).integers
          return recycledBounds values (some stop) none

/-- What an element is assembled from. -/
structure Element where
  replacements : List FrameInput
  bounds : Bounds
  uneven : Bool

section Call

variable (call : ReplacementCall)

/-- The recycled source of an element. -/
def ReplacementCall.source (outer : Nat) : FrameInput := recycled call.sources none outer

/-- The bounds and the replacements of an element. -/
def prepareElement (outer : Nat) : Except Failure Element := do
  let replacements ← (recycled call.value ⟨.ok [], false, by simp⟩ outer).inputs
  let (bounds, uneven) ← prepareFromToLength call.useMatrix (recycled call.start {} outer)
    (call.stop.map fun stop => recycled stop {} outer)
    (match call.stop with
      | some _ => none
      | none => call.lengths.map fun lengths => recycled lengths {} outer)
  return ⟨replacements, bounds, uneven⟩

/-- The warnings of an element that are kept for the end of the call. -/
def pushed (warning : ReplacementWarning) : List ReplacementWarning :=
  if warning = .replacementZero ∨ warning = .recycling then [warning] else []

/-- The warning for lengths that do not divide each other. -/
def pushedRule (uneven : Bool) : List ReplacementWarning :=
  if uneven then [.recyclingRule] else []

/-! ## One worker -/

/-- One element, prepared and built at once. -/
def serialElement (outer : Nat) (pending : List ReplacementWarning) :
    List ReplacementWarning × Except Failure (Option OutputText) :=
  match call.source outer with
  | none => (pending, .ok none)
  | some text =>
      match prepareElement call outer with
      | .error failure => (pending, .error failure)
      | .ok element =>
          let pending := pending ++ pushedRule element.uneven
          match build (some text) element.replacements element.bounds call.omitNa with
          | .error error => (pending, .error ⟨error.text, true⟩)
          | .ok result => (pending ++ pushed result.warning, .ok result.value)

/-- Element after element, up to the first that fails. -/
def serialLoop : List Nat → List ReplacementWarning →
    List ReplacementWarning × Except Failure (List (Option OutputText))
  | [], pending => (pending, .ok [])
  | outer :: rest, pending =>
      match serialElement call outer pending with
      | (pending, .error failure) => (pending, .error failure)
      | (pending, .ok output) =>
          let (pending, outputs) := serialLoop rest pending
          (pending, outputs.map (output :: ·))

/-! ## One range for all strings -/

/-- The arguments of the fast path. -/
structure ScalarArguments where
  start : Int
  stop : Int
  value : StringArgument

/-- The lengths that are recycled against each other. -/
def ReplacementCall.outerLengths : List Nat :=
  [call.sources.length, call.start.length, call.value.length] ++
    (match call.stop, call.lengths with
      | some stop, _ => [stop.length]
      | none, some lengths => [lengths.length]
      | none, none => [])

/-- The number of elements. -/
def ReplacementCall.vectorizeLength : Nat := (recyclingLength call.outerLengths).1

/-- The arguments of the short path, if the call may take it. -/
def ReplacementCall.scalar : Option ScalarArguments :=
  match call.start, call.stop, call.lengths, call.value with
  | [start], some [stop], none, [value] =>
      match start.plain, stop.plain with
      | some start, some stop =>
          if call.vectorizeLength > 0 && start > 0 && stop > 0 && value.plain then
            some ⟨start, stop, value⟩
          else none
      | _, _ => none
  | _, _, _, _ => none

/-- The loop that prepares its replacement at the first string it needs it for. -/
def serialScalarLoop (scalar : ScalarArguments) :
    List Nat → Option FrameInput → Except Failure (List (Option OutputText))
  | [], _ => .ok []
  | outer :: rest, ready =>
      match call.source outer with
      | none => (serialScalarLoop scalar rest ready).map (none :: ·)
      | some text => do
          let replacement ← match ready with
            | some replacement => .ok replacement
            | none => scalar.value.inputs.map fun inputs => inputs.getLastD none
          let output ← (replaceOne (some text) replacement scalar.start scalar.stop false
            call.omitNa).mapError fun error => ⟨error.text, true⟩
          let outputs ← serialScalarLoop scalar rest (some replacement)
          return output :: outputs

/-- The warnings a call gives, and what it returns or raises. -/
structure CallEnd where
  emitted : List ReplacementWarning
  outcome : Except String (List (Option OutputText))
  deriving DecidableEq

/-- The end of a call; warnings of a failed one are given only if it got that far. -/
def finish (pending : List ReplacementWarning)
    (result : Except Failure (List (Option OutputText))) : CallEnd :=
  match result with
  | .ok outputs => ⟨pending, .ok outputs⟩
  | .error failure => ⟨if failure.emits then pending else [], .error failure.message⟩

/-- The warnings there are before any element. -/
def ReplacementCall.initialPending : List ReplacementWarning :=
  pushedRule (recyclingLength call.outerLengths).2

/-- The call on one worker. -/
def serialReplacementAll : CallEnd :=
  match call.scalar with
  | some scalar => finish call.initialPending
      (serialScalarLoop call scalar (List.range call.vectorizeLength) none)
  | none =>
      let (pending, outputs) := serialLoop call (List.range call.vectorizeLength)
        call.initialPending
      finish pending outputs

/-! ## Several workers -/

/-- Where an element's arguments are in the shared vectors. -/
structure ReplacementPlan where
  fromOffset : Nat := 0
  fromLength : Nat := 0
  toOffset : Nat := 0
  toLength : Nat := 0
  lengthOffset : Nat := 0
  lengthLength : Nat := 0
  vectorizeLength : Nat := 0
  replacementOffset : Nat := 0
  replacementLength : Nat := 0
  deriving DecidableEq, Repr

/-- The vectors the elements share, and the warnings pending after each element. -/
structure Prepared where
  pending : List ReplacementWarning
  plans : List ReplacementPlan
  replacements : List FrameInput := []
  fromValues : List Int := []
  toValues : List Int := []
  lengthValues : List Int := []
  warningLimits : List Nat

/-- Note how many warnings are pending. -/
def Prepared.markLimit (prepared : Prepared) (outer : Nat) : Prepared :=
  { prepared with warningLimits := prepared.warningLimits.set outer prepared.pending.length }

/-- Append the arguments of an element. -/
def Prepared.append (prepared : Prepared) (outer : Nat) (element : Element)
    (pending : List ReplacementWarning) : Prepared where
  pending := pending
  plans := prepared.plans.set outer {
    fromOffset := prepared.fromValues.length
    fromLength := element.bounds.start.length
    toOffset := prepared.toValues.length
    toLength := (element.bounds.stop.getD []).length
    lengthOffset := prepared.lengthValues.length
    lengthLength := (element.bounds.lengths.getD []).length
    vectorizeLength := element.bounds.vectorizeLength
    replacementOffset := prepared.replacements.length
    replacementLength := element.replacements.length }
  replacements := prepared.replacements ++ element.replacements
  fromValues := prepared.fromValues ++ element.bounds.start
  toValues := prepared.toValues ++ element.bounds.stop.getD []
  lengthValues := prepared.lengthValues ++ element.bounds.lengths.getD []
  warningLimits := prepared.warningLimits.set outer pending.length

/-- One element of the pass in front of the workers. -/
def preparedElement (outer : Nat) (prepared : Prepared) : Prepared × Except Failure Unit :=
  let prepared := prepared.markLimit outer
  match call.source outer with
  | none => (prepared, .ok ())
  | some text =>
      match prepareElement call outer with
      | .error failure => (prepared, .error failure)
      | .ok element =>
          let pending := prepared.pending ++ pushedRule element.uneven
          match validateReplacementAll (some text) element.replacements element.bounds
              call.omitNa with
          | .error error => ({ prepared with pending }, .error ⟨error.text, true⟩)
          | .ok warning => (prepared.append outer element (pending ++ pushed warning), .ok ())

/-- The pass in front of the workers, up to the first element that fails. -/
def preparedLoop : List Nat → Prepared → Prepared × Except Failure Unit
  | [], prepared => (prepared, .ok ())
  | outer :: rest, prepared =>
      match preparedElement call outer prepared with
      | (prepared, .error failure) => (prepared, .error failure)
      | (prepared, .ok ()) => preparedLoop rest prepared

/-- Some values of a table that holds those of all elements. -/
def slice {Value : Type} (values : List Value) (offset length : Nat) : List Value :=
  (values.drop offset).take length

/-- The ranges of a plan; a vector of no elements is a null pointer. -/
def Prepared.bounds (prepared : Prepared) (plan : ReplacementPlan) : Bounds where
  start := slice prepared.fromValues plan.fromOffset plan.fromLength
  stop := if plan.toLength > 0 then some (slice prepared.toValues plan.toOffset plan.toLength)
    else none
  lengths := if plan.lengthLength > 0 then
      some (slice prepared.lengthValues plan.lengthOffset plan.lengthLength)
    else none
  vectorizeLength := plan.vectorizeLength

/-- The string a worker stores for an element, or the text of the error it caught. -/
def stored (prepared : Prepared) (outer : Nat) : Except String (Option OutputText) :=
  match call.source outer with
  | none => .ok none
  | some text =>
      let plan := prepared.plans.getD outer {}
      match build (some text)
          (slice prepared.replacements plan.replacementOffset plan.replacementLength)
          (prepared.bounds plan) call.omitNa with
      | .ok result => .ok result.value
      | .error error => .error error.text

/-- The workers build what has been prepared. -/
def replacementAllBody (prepared : Prepared) :
    ParallelBody Unit (Except String (Option OutputText)) NativeError :=
  itemBody (fun outer => .ok (stored call prepared outer)) NativeError.text

/-- The first error a worker caught, with its element. -/
def firstError : Nat → List (Except String (Option OutputText)) → Option (Nat × String)
  | _, [] => none
  | outer, .error message :: _ => some (outer, message)
  | outer, .ok _ :: rest => firstError (outer + 1) rest

/-- The end of a call whose workers left these stores. -/
def threadedEnd (prepared : Prepared) (stores : List (Except String (Option OutputText))) :
    CallEnd :=
  match firstError 0 stores with
  | some (outer, message) =>
      ⟨prepared.pending.take (prepared.warningLimits.getD outer 0), .error message⟩
  | none => ⟨prepared.pending, .ok (stores.map fun stored => stored.toOption.getD none)⟩

/-- The workers of the short path. -/
def scalarBody (scalar : ScalarArguments) (replacement : FrameInput) :
    ParallelBody Unit (Option OutputText) NativeError :=
  itemBody (fun outer => replaceOne (call.sources.getD outer none) replacement scalar.start
    scalar.stop false call.omitNa) NativeError.text

/-- The replacement of the fast path, if some string needs it. -/
def scalarReplacement (scalar : ScalarArguments) : Except Failure FrameInput :=
  if (List.range call.vectorizeLength).any fun outer => (call.sources.getD outer none).isSome then
    scalar.value.inputs.map fun inputs => inputs.headD none
  else .ok none

/-- The vectors before the first element. -/
def ReplacementCall.unprepared : Prepared :=
  { pending := call.initialPending
    plans := List.replicate call.vectorizeLength {}
    warningLimits := List.replicate call.vectorizeLength call.initialPending.length }

/-- The call on any number of workers. -/
def ciSubReplacementAll (settings : Settings) (schedule : List Nat) : Option CallEnd :=
  let count := call.vectorizeLength
  let plan := parallelPlan settings true count
  if plan.workers = 1 then some (serialReplacementAll call)
  else
    match call.scalar with
    | some scalar =>
        match scalarReplacement call scalar with
        | .error failure => some (finish call.initialPending (.error failure))
        | .ok replacement => do
            let regionEnd ← runParallel plan count (scalarBody call scalar replacement)
              (fun _ => none) schedule
            match regionEnd.outcome.message NativeError.text with
            | some message => return finish call.initialPending (.error ⟨message, true⟩)
            | none => return finish call.initialPending (.ok ((List.range count).map fun outer =>
                (regionEnd.final.shared.result outer).getD none))
    | none =>
        match preparedLoop call (List.range count) call.unprepared with
        | (prepared, .error failure) => some (finish prepared.pending (.error failure))
        | (prepared, .ok ()) => do
            let regionEnd ← runParallel plan count (replacementAllBody call prepared)
              (fun _ => none) schedule
            return threadedEnd prepared ((List.range count).map fun outer =>
              (regionEnd.final.shared.result outer).getD (.ok none))

end Call

/-! ## What a plan reads back -/

section Slices

variable {Value : Type} {values part : List Value} {offset : Nat}

/-- The vector has the part at the offset. -/
def Held (values part : List Value) (offset : Nat) : Prop :=
  ∃ before after, values = before ++ part ++ after ∧ before.length = offset

theorem held_append (values part : List Value) : Held (values ++ part) part values.length :=
  ⟨values, [], (List.append_nil _).symm, rfl⟩

/-- More values behind do not move a part. -/
theorem Held.append (hheld : Held values part offset) (more : List Value) :
    Held (values ++ more) part offset := by
  obtain ⟨before, after, rfl, hlength⟩ := hheld
  exact ⟨before, after ++ more, by rw [List.append_assoc _ after], hlength⟩

/-- The slice at its offset is the part. -/
theorem Held.slice_eq (hheld : Held values part offset) :
    slice values offset part.length = part := by
  obtain ⟨before, after, rfl, rfl⟩ := hheld
  rw [slice, List.append_assoc, List.drop_left, List.take_left]

end Slices

/-- The plan finds the element in the vectors. -/
structure Holds (prepared : Prepared) (plan : ReplacementPlan) (element : Element) : Prop where
  start : Held prepared.fromValues element.bounds.start plan.fromOffset
  stop : Held prepared.toValues (element.bounds.stop.getD []) plan.toOffset
  lengths : Held prepared.lengthValues (element.bounds.lengths.getD []) plan.lengthOffset
  replacements : Held prepared.replacements element.replacements plan.replacementOffset
  fromLength : plan.fromLength = element.bounds.start.length
  toLength : plan.toLength = (element.bounds.stop.getD []).length
  lengthLength : plan.lengthLength = (element.bounds.lengths.getD []).length
  vectorizeLength : plan.vectorizeLength = element.bounds.vectorizeLength
  replacementLength : plan.replacementLength = element.replacements.length

/-- Preparing a further element keeps those that are prepared. -/
theorem Holds.append {prepared : Prepared} {plan : ReplacementPlan} {element : Element}
    (hholds : Holds prepared plan element) (outer : Nat) (other : Element)
    (pending : List ReplacementWarning) :
    Holds (prepared.append outer other pending) plan element where
  start := hholds.start.append _
  stop := hholds.stop.append _
  lengths := hholds.lengths.append _
  replacements := hholds.replacements.append _
  fromLength := hholds.fromLength
  toLength := hholds.toLength
  lengthLength := hholds.lengthLength
  vectorizeLength := hholds.vectorizeLength
  replacementLength := hholds.replacementLength

theorem Holds.markLimit {prepared : Prepared} {plan : ReplacementPlan} {element : Element}
    (hholds : Holds prepared plan element) (outer : Nat) :
    Holds (prepared.markLimit outer) plan element where
  start := hholds.start
  stop := hholds.stop
  lengths := hholds.lengths
  replacements := hholds.replacements
  fromLength := hholds.fromLength
  toLength := hholds.toLength
  lengthLength := hholds.lengthLength
  vectorizeLength := hholds.vectorizeLength
  replacementLength := hholds.replacementLength

/-- An element that is appended is prepared. -/
theorem holds_append {prepared : Prepared} {outer : Nat} (houter : outer < prepared.plans.length)
    (element : Element) (pending : List ReplacementWarning) :
    Holds (prepared.append outer element pending)
      ((prepared.append outer element pending).plans.getD outer {}) element := by
  have hplan : (prepared.append outer element pending).plans.getD outer {} = {
      fromOffset := prepared.fromValues.length
      fromLength := element.bounds.start.length
      toOffset := prepared.toValues.length
      toLength := (element.bounds.stop.getD []).length
      lengthOffset := prepared.lengthValues.length
      lengthLength := (element.bounds.lengths.getD []).length
      vectorizeLength := element.bounds.vectorizeLength
      replacementOffset := prepared.replacements.length
      replacementLength := element.replacements.length } := by
    simp [Prepared.append, houter]
  rw [hplan]
  exact ⟨held_append _ _, held_append _ _, held_append _ _, held_append _ _, rfl, rfl, rfl, rfl,
    rfl⟩

/-- One of `to` and `length` is given, and it is not empty where there are ranges. -/
def OneEnd (bounds : Bounds) : Prop :=
  (∃ stop, bounds.stop = some stop ∧ bounds.lengths = none ∧
      (bounds.vectorizeLength ≠ 0 → stop ≠ [])) ∨
    ∃ lengths, bounds.stop = none ∧ bounds.lengths = some lengths ∧
      (bounds.vectorizeLength ≠ 0 → lengths ≠ [])

theorem oneEnd_recycledBounds (start : List Int) {stop lengths : Option (List Int)}
    (hone : (∃ values, stop = some values ∧ lengths = none) ∨
      ∃ values, stop = none ∧ lengths = some values) :
    OneEnd (recycledBounds start stop lengths).1 := by
  rcases hone with ⟨values, rfl, rfl⟩ | ⟨values, rfl, rfl⟩
  · refine .inl ⟨values, rfl, rfl, ?_⟩
    rintro hcount rfl
    exact hcount (by simp [recycledBounds, recyclingLength])
  · refine .inr ⟨values, rfl, rfl, ?_⟩
    rintro hcount rfl
    exact hcount (by simp [recycledBounds, recyclingLength])

/-- Bounds have an end or a length, not both. -/
theorem oneEnd_of_prepareFromToLength {useMatrix : Bool} {start : BoundsArgument}
    {stop lengths : Option BoundsArgument} {bounds : Bounds × Bool}
    (hprepare : prepareFromToLength useMatrix start stop lengths = .ok bounds) :
    OneEnd bounds.1 := by
  unfold prepareFromToLength at hprepare
  simp only at hprepare
  split at hprepare
  next => cases hprepare
  next =>
    obtain ⟨values, -, hbounds⟩ := Loops.except_bind_ok hprepare
    split at hbounds
    next =>
      split at hbounds
      next =>
        cases hbounds
        exact oneEnd_recycledBounds _ (.inr ⟨_, rfl, rfl⟩)
      next =>
        cases hbounds
        exact oneEnd_recycledBounds _ (.inl ⟨_, rfl, rfl⟩)
    next =>
      split at hbounds
      next =>
        obtain ⟨lengths, -, hreturn⟩ := Loops.except_bind_ok hbounds
        cases hreturn
        exact oneEnd_recycledBounds _ (.inr ⟨_, rfl, rfl⟩)
      next =>
        obtain ⟨stop, -, hreturn⟩ := Loops.except_bind_ok hbounds
        cases hreturn
        exact oneEnd_recycledBounds _ (.inl ⟨_, rfl, rfl⟩)

/-- The bounds of an element are read back. -/
theorem Holds.bounds_eq {prepared : Prepared} {plan : ReplacementPlan} {element : Element}
    (hholds : Holds prepared plan element) (hone : OneEnd element.bounds)
    (hcount : element.bounds.vectorizeLength ≠ 0) : prepared.bounds plan = element.bounds := by
  have hstart := hholds.start.slice_eq
  have hstop := hholds.stop.slice_eq
  have hlengths := hholds.lengths.slice_eq
  have hends : (if (element.bounds.stop.getD []).length > 0 then
        some (element.bounds.stop.getD []) else none) = element.bounds.stop ∧
      (if (element.bounds.lengths.getD []).length > 0 then
        some (element.bounds.lengths.getD []) else none) = element.bounds.lengths := by
    rcases hone with ⟨values, hgiven, hnone, hvalues⟩ | ⟨values, hnone, hgiven, hvalues⟩
    · have hpositive := List.length_pos_of_ne_nil (hvalues hcount)
      simp [hgiven, hnone, hpositive]
    · have hpositive := List.length_pos_of_ne_nil (hvalues hcount)
      simp [hgiven, hnone, hpositive]
  unfold Prepared.bounds
  rw [hholds.fromLength, hholds.toLength, hholds.lengthLength, hholds.vectorizeLength, hstart,
    hstop, hlengths, hends.1, hends.2]

/-- Without ranges the source is returned, whatever the other bounds are. -/
theorem build_no_ranges (text : FrameText) (replacements : List FrameInput) {bounds : Bounds}
    (hcount : bounds.vectorizeLength = 0) (omitNa : Bool) :
    build (some text) replacements bounds omitNa =
      .ok ⟨some ⟨text.bytes, text.isAscii⟩, .none⟩ := by
  simp [build, hcount]

/-- What a prepared element gives is what the element gives. -/
theorem stored_eq {call : ReplacementCall} {prepared : Prepared} {outer : Nat} {text : FrameText}
    {element : Element} (hsource : call.source outer = some text) (hone : OneEnd element.bounds)
    (hholds : Holds prepared (prepared.plans.getD outer {}) element) {result : ReplacementResult}
    (hbuild : build (some text) element.replacements element.bounds call.omitNa = .ok result) :
    stored call prepared outer = .ok result.value := by
  have hsame : build (some text)
      (slice prepared.replacements (prepared.plans.getD outer {}).replacementOffset
        (prepared.plans.getD outer {}).replacementLength)
      (prepared.bounds (prepared.plans.getD outer {})) call.omitNa = .ok result := by
    rw [hholds.replacementLength, hholds.replacements.slice_eq]
    by_cases hcount : element.bounds.vectorizeLength = 0
    · rw [build_no_ranges text _ hcount] at hbuild
      rw [build_no_ranges text _ (hholds.vectorizeLength.trans hcount), hbuild]
    · rw [hholds.bounds_eq hone hcount, hbuild]
  simp only [stored, hsource, hsame]

/-! ## The pass over the elements -/

section Pass

variable {call : ReplacementCall}

theorem oneEnd_of_prepareElement {outer : Nat} {element : Element}
    (hprepare : prepareElement call outer = .ok element) : OneEnd element.bounds := by
  obtain ⟨replacements, -, hrest⟩ := Loops.except_bind_ok hprepare
  obtain ⟨bounds, hbounds, hreturn⟩ := Loops.except_bind_ok hrest
  cases hreturn
  exact oneEnd_of_prepareFromToLength hbounds

/-- What the pass does with an element, beside the element the loop of one worker makes. -/
theorem preparedElement_cases (call : ReplacementCall) (outer : Nat) (prepared : Prepared) :
    (∃ failure pending, serialElement call outer prepared.pending = (pending, .error failure) ∧
      (preparedElement call outer prepared).1.pending = pending ∧
      (preparedElement call outer prepared).2 = .error failure) ∨
    (call.source outer = none ∧
      serialElement call outer prepared.pending = (prepared.pending, .ok none) ∧
      preparedElement call outer prepared = (prepared.markLimit outer, .ok ())) ∨
    ∃ text element result pending, call.source outer = some text ∧
      OneEnd element.bounds ∧
      build (some text) element.replacements element.bounds call.omitNa = .ok result ∧
      serialElement call outer prepared.pending = (pending, .ok result.value) ∧
      preparedElement call outer prepared =
        ((prepared.markLimit outer).append outer element pending, .ok ()) := by
  unfold serialElement preparedElement
  cases hsource : call.source outer with
  | none => exact .inr (.inl ⟨rfl, rfl, rfl⟩)
  | some text =>
      cases hprepare : prepareElement call outer with
      | error failure => exact .inl ⟨failure, _, rfl, rfl, rfl⟩
      | ok element =>
          simp only [validateReplacementAll_eq]
          cases hbuild : build (some text) element.replacements element.bounds call.omitNa with
          | error error => exact .inl ⟨_, _, rfl, rfl, rfl⟩
          | ok result =>
              exact .inr (.inr ⟨text, element, result, _, rfl, oneEnd_of_prepareElement hprepare,
                hbuild, rfl, rfl⟩)

/-- What an element found stays there while the pass goes on. -/
theorem holds_preparedLoop {outers : List Nat} {prepared : Prepared} {outer : Nat}
    {element : Element} (hnot : outer ∉ outers)
    (hok : (preparedLoop call outers prepared).2 = .ok ())
    (hholds : Holds prepared (prepared.plans.getD outer {}) element) :
    Holds (preparedLoop call outers prepared).1
      ((preparedLoop call outers prepared).1.plans.getD outer {}) element := by
  induction outers generalizing prepared with
  | nil => exact hholds
  | cons other outers ih =>
      simp only [List.mem_cons, not_or] at hnot
      obtain ⟨hne, hrest⟩ := hnot
      rw [preparedLoop] at hok ⊢
      rcases preparedElement_cases call other prepared with ⟨failure, pending, -, -, herror⟩ |
        ⟨-, -, hstep⟩ | ⟨text, found, result, pending, -, -, -, -, hstep⟩
      · generalize preparedElement call other prepared = step at hok herror
        obtain ⟨after, outcome⟩ := step
        cases herror
        cases hok
      · rw [hstep] at hok ⊢
        exact ih hrest hok (hholds.markLimit other)
      · rw [hstep] at hok ⊢
        apply ih hrest hok
        have hplan : ((prepared.markLimit other).append other found pending).plans.getD outer {} =
            prepared.plans.getD outer {} := by
          simp [Prepared.append, Prepared.markLimit, List.getElem?_set_ne (Ne.symm hne)]
        rw [hplan]
        exact (hholds.markLimit other).append other found pending

variable (call) in
/-- The pass fails where the loop of one worker fails; where it does not, the workers store what
that loop writes. The warnings pending are the same. -/
theorem preparedLoop_cases {outers : List Nat} (hnodup : outers.Nodup) {prepared : Prepared}
    (hplans : ∀ outer ∈ outers, outer < prepared.plans.length) :
    (∃ failure, (preparedLoop call outers prepared).2 = .error failure ∧
      serialLoop call outers prepared.pending =
        ((preparedLoop call outers prepared).1.pending, .error failure)) ∨
    (preparedLoop call outers prepared).2 = .ok () ∧
      ∃ outputs, serialLoop call outers prepared.pending =
          ((preparedLoop call outers prepared).1.pending, .ok outputs) ∧
        outers.map (stored call (preparedLoop call outers prepared).1) = outputs.map .ok := by
  induction outers generalizing prepared with
  | nil => exact .inr ⟨rfl, [], rfl, rfl⟩
  | cons outer outers ih =>
      obtain ⟨hnot, hrest⟩ := List.nodup_cons.mp hnodup
      obtain ⟨houter, hothers⟩ := List.forall_mem_cons.mp hplans
      rw [preparedLoop, serialLoop]
      -- The element fails, is missing, or appends a plan the later ones leave alone.
      rcases preparedElement_cases call outer prepared with
        ⟨failure, pending, hserial, hpending, herror⟩ | ⟨hsource, hserial, hstep⟩ |
        ⟨text, element, result, pending, hsource, hone, hbuild, hserial, hstep⟩
      · left
        rw [hserial]
        generalize preparedElement call outer prepared = step at hpending herror
        obtain ⟨after, outcome⟩ := step
        subst hpending
        subst herror
        exact ⟨failure, rfl, rfl⟩
      · rw [hserial, hstep]
        have hloop : serialLoop call outers (prepared.markLimit outer).pending =
            serialLoop call outers prepared.pending := rfl
        rcases ih hrest (show ∀ other ∈ outers, other < (prepared.markLimit outer).plans.length
            from hothers) with
          ⟨failure, herror, hfail⟩ | ⟨hok, outputs, hall, hstored⟩
        · rw [hloop] at hfail
          exact .inl ⟨failure, herror, by simp only [hfail]; rfl⟩
        · rw [hloop] at hall
          refine .inr ⟨hok, none :: outputs, by simp only [hall]; rfl, ?_⟩
          have hnone : stored call (preparedLoop call outers (prepared.markLimit outer)).1 outer =
              .ok none := by
            simp only [stored, hsource]
          rw [List.map_cons, List.map_cons, hstored, hnone]
      · rw [hserial, hstep]
        have hplans' : ∀ other ∈ outers,
            other < ((prepared.markLimit outer).append outer element pending).plans.length := by
          intro other hmem
          simpa [Prepared.append, Prepared.markLimit] using hothers other hmem
        have hloop : serialLoop call outers
            ((prepared.markLimit outer).append outer element pending).pending =
            serialLoop call outers pending := rfl
        rcases ih hrest hplans' with ⟨failure, herror, hfail⟩ | ⟨hok, outputs, hall, hstored⟩
        · rw [hloop] at hfail
          exact .inl ⟨failure, herror, by simp only [hfail]; rfl⟩
        · rw [hloop] at hall
          refine .inr ⟨hok, result.value :: outputs, by simp only [hall]; rfl, ?_⟩
          have hinside : outer < (prepared.markLimit outer).plans.length := houter
          have hvalue := stored_eq hsource hone
            (holds_preparedLoop hnot hok (holds_append hinside element pending)) hbuild
          rw [List.map_cons, List.map_cons, hstored, hvalue]

end Pass

/-! ## The fast path -/

section Scalar

variable {call : ReplacementCall} {scalar : ScalarArguments}

/-- There is one string for each element. -/
theorem source_of_scalar (hscalar : call.scalar = some scalar) {outer : Nat}
    (houter : outer < call.vectorizeLength) :
    call.source outer = call.sources.getD outer none := by
  have hlength : call.vectorizeLength ≤ call.sources.length := by
    unfold ReplacementCall.scalar at hscalar
    unfold ReplacementCall.vectorizeLength recyclingLength ReplacementCall.outerLengths
    split at hscalar
    next start stop value hstart hstop hlengths hvalue =>
      simp only [hstart, hstop, hlengths, hvalue]
      split
      next => exact Nat.zero_le _
      next hall =>
        simp only [List.cons_append, List.nil_append, List.any_cons, Bool.or_eq_true,
          decide_eq_true_eq, not_or, List.length_singleton] at hall
        simp only [List.cons_append, List.nil_append, List.foldl_cons, List.foldl_nil,
          List.length_singleton]
        omega
    next => cases hscalar
  rw [ReplacementCall.source, recycled, Nat.mod_eq_of_lt (houter.trans_le hlength)]

/-- The replacement both paths use. -/
theorem inputs_single (argument : StringArgument) (hplain : argument.plain = true) :
    (argument.inputs.map fun inputs => inputs.getLastD none) =
      argument.inputs.map fun inputs => inputs.headD none := by
  cases hinputs : argument.inputs with
  | error failure => rfl
  | ok inputs =>
      obtain ⟨input, rfl⟩ := List.length_eq_one_iff.mp (argument.plain_single hplain inputs hinputs)
      rfl

/-- The loop with the replacement at hand. -/
theorem serialScalarLoop_ready (replacement : FrameInput) (outers : List Nat) :
    serialScalarLoop call scalar outers (some replacement) =
      (outers.mapM fun outer => replaceOne (call.source outer) replacement scalar.start
        scalar.stop false call.omitNa).mapError fun error => ⟨error.text, true⟩ := by
  induction outers with
  | nil => rfl
  | cons outer outers ih =>
      rw [serialScalarLoop, List.mapM_cons, ih]
      cases call.source outer with
      | none =>
          change Except.map _ _ = Except.mapError _ (Except.bind _ _)
          cases outers.mapM fun outer => replaceOne (call.source outer) replacement scalar.start
              scalar.stop false call.omitNa with
          | error error => rfl
          | ok outputs => rfl
      | some text =>
          simp only [bind, Except.bind]
          cases replaceOne (some text) replacement scalar.start scalar.stop false call.omitNa with
          | error error => rfl
          | ok output =>
              simp only [Except.mapError]
              rw [ih]
              cases outers.mapM fun outer => replaceOne (call.source outer) replacement scalar.start
                  scalar.stop false call.omitNa with
              | error error => rfl
              | ok outputs => rfl

/-- The replacement is prepared once, unless every string is missing. -/
theorem serialScalarLoop_eq (outers : List Nat) :
    serialScalarLoop call scalar outers none =
      if outers.any fun outer => (call.source outer).isSome then do
        let replacement ← scalar.value.inputs.map fun inputs => inputs.getLastD none
        serialScalarLoop call scalar outers (some replacement)
      else .ok (outers.map fun _ => none) := by
  induction outers with
  | nil => rfl
  | cons outer outers ih =>
      rw [List.any_cons]
      cases hsource : call.source outer with
      | none =>
          rw [serialScalarLoop, hsource]
          simp only [ih, Option.isSome_none, Bool.false_or]
          split
          next =>
            cases scalar.value.inputs with
            | error failure => rfl
            | ok inputs =>
                simp only [Except.map, bind, Except.bind]
                rw [serialScalarLoop, hsource]
                rfl
          next => rfl
      | some text =>
          rw [Option.isSome_some, Bool.true_or, if_pos rfl, serialScalarLoop, hsource]
          cases scalar.value.inputs with
          | error failure => rfl
          | ok inputs =>
              simp only [Except.map, bind, Except.bind]
              rw [serialScalarLoop, hsource]
              rfl

end Scalar

theorem firstError_ok (outputs : List (Option OutputText)) (outer : Nat) :
    firstError outer (outputs.map .ok) = none := by
  induction outputs generalizing outer with
  | nil => rfl
  | cons output outputs ih => exact ih (outer + 1)

/-- Where nothing fails the outputs are returned. -/
theorem threadedEnd_ok (prepared : Prepared) (outputs : List (Option OutputText)) :
    threadedEnd prepared (outputs.map .ok) = ⟨prepared.pending, .ok outputs⟩ := by
  have hmap : (outputs.map Except.ok).map
      (fun stored : Except String (Option OutputText) => stored.toOption.getD none) = outputs := by
    rw [List.map_map]
    exact List.map_id _
  simp only [threadedEnd, firstError_ok, hmap]

/-! ## One worker or several -/

section Ends

variable (call : ReplacementCall)

theorem plain_of_scalar {scalar : ScalarArguments} (hscalar : call.scalar = some scalar) :
    scalar.value.plain = true := by
  unfold ReplacementCall.scalar at hscalar
  split at hscalar
  next =>
    split at hscalar
    next =>
      split at hscalar
      next hall =>
        cases hscalar
        simp only [Bool.and_eq_true] at hall
        exact hall.2
      next => cases hscalar
    next => cases hscalar
  next => cases hscalar

theorem mapM_congr {Error Value : Type} {compute other : Nat → Except Error Value}
    {tasks : List Nat} (hsame : ∀ task ∈ tasks, compute task = other task) :
    tasks.mapM compute = tasks.mapM other := by
  induction tasks with
  | nil => rfl
  | cons task tasks ih =>
      obtain ⟨hhead, hrest⟩ := List.forall_mem_cons.mp hsame
      rw [List.mapM_cons, List.mapM_cons, hhead, ih hrest]

/-- The loop of the fast path, from the replacement the calling thread prepares. -/
theorem serialScalarLoop_range {scalar : ScalarArguments} (hscalar : call.scalar = some scalar) :
    serialScalarLoop call scalar (List.range call.vectorizeLength) none = (do
      let replacement ← scalarReplacement call scalar
      ((List.range call.vectorizeLength).mapM fun outer =>
        replaceOne (call.sources.getD outer none) replacement scalar.start scalar.stop false
          call.omitNa).mapError fun error => ⟨error.text, true⟩) := by
  have hsource : ∀ outer ∈ List.range call.vectorizeLength,
      call.source outer = call.sources.getD outer none :=
    fun outer hmem => source_of_scalar hscalar (List.mem_range.mp hmem)
  have hany : ((List.range call.vectorizeLength).any fun outer =>
      (call.sources.getD outer none).isSome) =
      (List.range call.vectorizeLength).any fun outer => (call.source outer).isSome := by
    apply Bool.eq_iff_iff.mpr
    simp only [List.any_eq_true]
    constructor
    · rintro ⟨outer, hmem, hsome⟩
      exact ⟨outer, hmem, by rw [hsource outer hmem]; exact hsome⟩
    · rintro ⟨outer, hmem, hsome⟩
      exact ⟨outer, hmem, by rw [← hsource outer hmem]; exact hsome⟩
  rw [serialScalarLoop_eq, scalarReplacement, hany, inputs_single _ (plain_of_scalar call hscalar)]
  split
  next =>
    congr 1
    funext replacement
    rw [serialScalarLoop_ready]
    congr 1
    apply mapM_congr
    intro outer hmem
    rw [hsource outer hmem]
  next hnone =>
    have hmissing : ∀ outer ∈ List.range call.vectorizeLength,
        replaceOne (call.sources.getD outer none) none scalar.start scalar.stop false
          call.omitNa = .ok none := by
      intro outer hmem
      rw [Bool.not_eq_true, List.any_eq_false] at hnone
      have hsome := hnone outer hmem
      rw [hsource outer hmem, Bool.not_eq_true, Option.isSome_eq_false_iff,
        Option.isNone_iff_eq_none] at hsome
      rw [hsome]
      rfl
    change _ = Except.mapError _ _
    rw [mapM_congr hmissing]
    change _ = Except.mapError _ (List.mapM (fun _ => pure none) _)
    rw [List.mapM_pure]
    rfl

/-- The end of a call on several workers that takes the fast path. -/
theorem scalarRegion_eq {scalar : ScalarArguments} (hscalar : call.scalar = some scalar)
    {replacement : FrameInput} (hreplacement : scalarReplacement call scalar = .ok replacement)
    {plan : ParallelPlan} {schedule : List Nat}
    {regionEnd : RegionEnd Unit (Option OutputText) NativeError}
    (hrun : runParallel plan call.vectorizeLength (scalarBody call scalar replacement)
      (fun _ => none) schedule = some regionEnd) :
    (match regionEnd.outcome.message NativeError.text with
      | some message => finish call.initialPending (.error ⟨message, true⟩)
      | none => finish call.initialPending (.ok ((List.range call.vectorizeLength).map fun outer =>
          (regionEnd.final.shared.result outer).getD none))) = serialReplacementAll call := by
  have hregion := itemRegion_eq hrun
  rw [serialReplacementAll, hscalar]
  simp only
  rw [serialScalarLoop_range call hscalar, hreplacement]
  simp only [bind, Except.bind]
  cases hmessage : regionEnd.outcome.message NativeError.text with
  | some message =>
      simp only [hmessage] at hregion
      split at hregion
      next => cases hregion
      next error herror =>
        rw [herror]
        cases hregion
        rfl
  | none =>
      simp only [hmessage] at hregion
      split at hregion
      next values hvalues =>
        rw [hvalues]
        have hresults := Except.ok.inj hregion
        have hoff : ((List.range call.vectorizeLength).map fun outer =>
            (regionEnd.final.shared.result outer).getD none) = values := by
          have hmap := congrArg (List.map fun stored => Option.getD stored none) hresults
          rw [List.map_map, List.map_map] at hmap
          exact hmap.trans (List.map_id _)
        rw [hoff]
        rfl
      next => cases hregion

/-- The region of a call that prepared all its elements. -/
theorem preparedRegion_eq {prepared : Prepared} {outputs : List (Option OutputText)}
    (hstored : (List.range call.vectorizeLength).map (stored call prepared) = outputs.map .ok)
    {plan : ParallelPlan} {schedule : List Nat}
    {regionEnd : RegionEnd Unit (Except String (Option OutputText)) NativeError}
    (hrun : runParallel plan call.vectorizeLength (replacementAllBody call prepared)
      (fun _ => none) schedule = some regionEnd) :
    threadedEnd prepared ((List.range call.vectorizeLength).map fun outer =>
      (regionEnd.final.shared.result outer).getD (.ok none)) =
      ⟨prepared.pending, .ok outputs⟩ := by
  have hend := loopEnd_of_runRegion
    (itemSpec (fun outer => .ok (stored call prepared outer)) NativeError.text
      call.vectorizeLength) hrun
  have hresults : ((List.range call.vectorizeLength).map fun outer =>
      (regionEnd.final.shared.result outer).getD (.ok none)) = outputs.map .ok := by
    rw [← hstored]
    apply List.map_congr_left
    intro outer hmem
    rw [hend.result_eq_some (List.mem_range.mp hmem) (fun _ _ => rfl)
      (List.mem_singleton_self _) ?_]
    · rfl
    · rintro other - write hwrite rfl
      rw [List.mem_singleton.mp hwrite]
  rw [hresults, threadedEnd_ok]

/-- Every call ends as the serial one. -/
theorem ciSubReplacementAll_eq (settings : Settings) {schedule : List Nat} {callEnd : CallEnd}
    (hrun : ciSubReplacementAll call settings schedule = some callEnd) :
    callEnd = serialReplacementAll call := by
  unfold ciSubReplacementAll at hrun
  simp only at hrun
  split at hrun
  next => exact (Option.some.inj hrun).symm
  next =>
    -- a scalar replacement is prepared once, in front of the region
    split at hrun
    next scalar hscalar =>
      split at hrun
      next failure hreplacement =>
        have hloop := serialScalarLoop_range call hscalar
        rw [hreplacement] at hloop
        rw [serialReplacementAll, hscalar, ← Option.some.inj hrun]
        simp only [hloop]
        rfl
      next replacement hreplacement =>
        obtain ⟨regionEnd, hregion, hreturn⟩ := Option.bind_eq_some_iff.mp hrun
        rw [← scalarRegion_eq call hscalar hreplacement hregion]
        split at hreturn
        next => exact (Option.some.inj hreturn).symm
        next => exact (Option.some.inj hreturn).symm
    next hscalar =>
      -- otherwise every replacement is prepared in order
      have hplans : ∀ outer ∈ List.range call.vectorizeLength,
          outer < call.unprepared.plans.length := by
        intro outer hmem
        simpa [ReplacementCall.unprepared] using hmem
      have hcases := preparedLoop_cases call List.nodup_range hplans
      have hserial : serialReplacementAll call =
          finish (serialLoop call (List.range call.vectorizeLength) call.unprepared.pending).1
            (serialLoop call (List.range call.vectorizeLength) call.unprepared.pending).2 := by
        rw [serialReplacementAll, hscalar]
        rfl
      split at hrun
      next prepared failure hloop =>
        rw [hloop] at hcases
        rcases hcases with ⟨other, herror, hfail⟩ | ⟨hok, -⟩
        · cases herror
          rw [hserial, hfail, ← Option.some.inj hrun]
        · cases hok
      next prepared hloop =>
        rw [hloop] at hcases
        rcases hcases with ⟨other, herror, -⟩ | ⟨-, outputs, hall, hstored⟩
        · cases herror
        · obtain ⟨regionEnd, hregion, hreturn⟩ := Option.bind_eq_some_iff.mp hrun
          rw [hserial, hall, ← Option.some.inj hreturn,
            preparedRegion_eq call hstored hregion]
          rfl

/-- A fair schedule lets it end. -/
theorem ciSubReplacementAll_isSome (settings : Settings) {schedule : List Nat}
    (hfair : ∀ index < (parallelPlan settings true call.vectorizeLength).workers,
      scheduleBound (parallelPlan settings true call.vectorizeLength) call.vectorizeLength <
        schedule.count index) :
    (ciSubReplacementAll call settings schedule).isSome = true := by
  rw [← regionWorkers_parallelPlan] at hfair
  unfold ciSubReplacementAll
  simp only
  split
  next => rfl
  next =>
    split
    next scalar hscalar =>
      split
      next => rfl
      next replacement hreplacement =>
        obtain ⟨regionEnd, hregion⟩ := Option.isSome_iff_exists.mp (runRegion_isSome_of_fair _
          call.vectorizeLength (scalarBody call scalar replacement) (fun _ => none) false schedule
          hfair)
        rw [runParallel, hregion]
        simp only [Option.bind_eq_bind, Option.bind_some]
        split
        next => rfl
        next => rfl
    next =>
      split
      next => rfl
      next prepared hloop =>
        obtain ⟨regionEnd, hregion⟩ := Option.isSome_iff_exists.mp (runRegion_isSome_of_fair _
          call.vectorizeLength (replacementAllBody call prepared) (fun _ => none) false schedule
          hfair)
        rw [runParallel, hregion]
        rfl

end Ends

/-- Deciding the conditions fails and warns as assembling does. So a call on several workers
comes to an end, and it raises the error, gives the warnings and returns the strings of a call on
one worker. -/
theorem ciSubReplacementAll_agrees_with_serial :
    (∀ source replacements bounds omitNa,
      validateReplacementAll source replacements bounds omitNa =
        (build source replacements bounds omitNa).map ReplacementResult.warning) ∧
    ∀ (call : ReplacementCall) (settings : Settings) (schedule : List Nat),
      ((∀ index < (parallelPlan settings true call.vectorizeLength).workers,
          scheduleBound (parallelPlan settings true call.vectorizeLength) call.vectorizeLength <
            schedule.count index) →
        (ciSubReplacementAll call settings schedule).isSome = true) ∧
      ∀ callEnd, ciSubReplacementAll call settings schedule = some callEnd →
        callEnd = serialReplacementAll call :=
  ⟨validateReplacementAll_eq, fun call settings _ =>
    ⟨ciSubReplacementAll_isSome call settings,
      fun _ hrun => ciSubReplacementAll_eq call settings hrun⟩⟩

/-- Two strings with a range each; the ranges of a third are not in order. -/
def sampleCall : ReplacementCall where
  sources := [some abcText, none, some abcText]
  start := [{ values := .ok [1, 2] }, { values := .ok [1] }, { values := .ok [3, 1] }]
  stop := some [{ values := .ok [1, 1] }]
  lengths := none
  value := [⟨.ok [some dashText, some dashText, none], false, by simp⟩]
  omitNa := true
  useMatrix := true

theorem ciSubReplacementAll_reports_unsorted :
    ∃ callEnd, ciSubReplacementAll sampleCall ⟨2, 128, 1⟩ ((List.range 60).map (· % 2)) =
        some callEnd ∧
      callEnd = ⟨[.recycling], .error "index ranges must be sorted and mutually disjoint"⟩ := by
  obtain ⟨hfair, hserial⟩ := ciSubReplacementAll_agrees_with_serial.2 sampleCall ⟨2, 128, 1⟩
    ((List.range 60).map (· % 2))
  obtain ⟨callEnd, hcallEnd⟩ := Option.isSome_iff_exists.mp (hfair (by decide))
  exact ⟨callEnd, hcallEnd, (hserial callEnd hcallEnd).trans (by decide)⟩

end Charr.Substring
