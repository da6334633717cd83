import Charr.Library.Earliest
import Charr.Output.Staged
import Charr.Parallel.Progress
import Charr.Wrap.Engine
import Charr.Wrap.Matrices

/-!
# Wrapping a vector into one sequence of lines

On one worker every record is normalized and planned in turn. On several workers all
records are normalized first, up to one that fails, and the workers plan those before it.
Its error counts only if no worker failed.
-/

namespace Charr.Wrap

open Output Parallel

variable {Cost : Type}

/-- The text an error is reported with. An access outside of a vector is none. -/
def Fault.text (statusText : Int → String) : Fault → String
  | .thrown error => error.text
  | .status code => statusText code
  | .outOfBounds => ""

/-- A subject in UTF-8. -/
def normalizeInput (converter : NativeToUtf8) (storage : SliceArena) (source : StringView) :
    Except NativeError (StringView × SliceArena) :=
  if source.enc = .bytes then
    .error (.striException "bytes encoding is not supported by this function")
  else normalizeUtf8 converter storage source

/-- What a call is made with. -/
structure WrapCall (Cost : Type) where
  icu : Icu
  options : Options Cost
  /-- `std::pow` -/
  pow : Int → Cost → Cost
  converter : NativeToUtf8
  inputs : List StringView
  linePrefix : StringView
  initial : StringView
  indent : Int
  exdent : Int

/-- What the lines of a call start with, and the storage their normalization left. -/
structure Starts where
  initialIndent : LineStart
  prefixIndent : LineStart
  prefixExdent : LineStart
  storage : SliceArena
  deriving DecidableEq

/-- One of the prefixes is missing. -/
def Starts.missing (starts : Starts) : Bool :=
  starts.initialIndent.missing || starts.prefixIndent.missing

namespace WrapCall

variable (call : WrapCall Cost)

/-- What both branches do first. -/
def prepare : Except Fault Starts :=
  if failed call.icu.opened then .error (.status call.icu.opened)
  else if call.inputs.length > intMax then
    .error (.thrown (.lengthError "long character vectors are not supported"))
  else
    match (do
      let (prefixValue, storage) ← normalizeInput call.converter ⟨0⟩ call.linePrefix
      let (initialValue, storage) ← normalizeInput call.converter storage call.initial
      let initialIndent ← LineStart.reset call.icu.properties initialValue call.indent
      let prefixIndent ← LineStart.reset call.icu.properties prefixValue call.indent
      let prefixExdent ← LineStart.reset call.icu.properties prefixValue call.exdent
      return (⟨initialIndent, prefixIndent, prefixExdent, storage⟩ : Starts)) with
    | .error error => .error (.thrown error)
    | .ok starts => .ok starts

variable {call} in
theorem prepare_ok {starts : Starts} (hprepare : call.prepare = .ok starts) :
    failed call.icu.opened = false ∧ call.inputs.length ≤ intMax := by
  unfold prepare at hprepare
  split at hprepare
  next => cases hprepare
  next hopened =>
    split at hprepare
    next => cases hprepare
    next hlength => exact ⟨by simpa using hopened, Nat.le_of_not_lt hlength⟩

/-- The pre-pass: the normalized records before the first that fails, and its error. -/
def normalizeInputs : SliceArena → List StringView → List StringView × Option NativeError
  | _, [] => ([], none)
  | storage, source :: rest =>
      match normalizeInput call.converter storage source with
      | .error error => ([], some error)
      | .ok (input, storage) =>
          let others := normalizeInputs storage rest
          (input :: others.1, others.2)

theorem length_normalizeInputs_le (storage : SliceArena) (sources : List StringView) :
    (call.normalizeInputs storage sources).1.length ≤ sources.length := by
  induction sources generalizing storage with
  | nil => exact le_rfl
  | cons source rest ih =>
      rw [normalizeInputs]
      cases normalizeInput call.converter storage source with
      | error error => exact Nat.zero_le _
      | ok normalized => exact Nat.succ_le_succ (ih normalized.2)

variable [Zero Cost] [One Cost] [Neg Cost] [Add Cost] [LT Cost] [LE Cost]
  [DecidableLT Cost] [DecidableLE Cost]

/-- The lines of record `i`. -/
def recordLines (starts : Starts) (i : Nat) (input : StringView) (matrices : Matrices Cost) :
    Except Fault (Matrices Cost × List (Option Line)) :=
  if input.isNa || starts.missing then .ok (matrices, [none])
  else
    let first := if i = 0 then starts.initialIndent else starts.prefixIndent
    match plan call.icu call.options call.pow input first starts.prefixExdent matrices with
    | .error fault => .error fault
    | .ok (matrices, planned) =>
        ((List.range planned.lineCount).mapM (planned.line first starts.prefixExdent)).map
          fun lines => (matrices, lines.map some)

/-- The loop of a serial plan, from record `i` on. -/
def serialLoop (starts : Starts) :
    (i : Nat) → SliceArena → Matrices Cost → List StringView → Except Fault (List (Option Line))
  | _, _, _, [] => .ok []
  | i, storage, matrices, source :: rest =>
      match normalizeInput call.converter storage source with
      | .error error => .error (.thrown error)
      | .ok (input, storage) =>
          match call.recordLines starts i input matrices with
          | .error fault => .error fault
          | .ok (matrices, lines) =>
              (serialLoop starts (i + 1) storage matrices rest).map (lines ++ ·)

/-- The lines of all subjects, one subject after another. -/
def serialFlatten (starts : Starts) : Except String (List (Option Line)) :=
  (call.serialLoop starts 0 starts.storage ⟨[], []⟩ call.inputs).mapError
    (Fault.text call.icu.statusText)

/-- `wrap::Body` for flattened output. -/
def flattenBody (starts : Starts) (inputs : List StringView) :
    ParallelBody (Staged (Matrices Cost) Line) Unit Fault :=
  stagedBody
    (if failed call.icu.opened then .error (.status call.icu.opened) else .ok ())
    ⟨[], []⟩
    (fun i matrices =>
      match inputs[i]? with
      | none => .error .outOfBounds
      | some input => call.recordLines starts i input matrices)
    .thrown (Fault.text call.icu.statusText)

/-- The lines of all subjects on workers, once every subject is normalized. -/
def threadedFlatten (settings : Settings) (schedule : List Nat) (starts : Starts) :
    Option (Except String (List (Option Line))) :=
  let normalized := call.normalizeInputs starts.storage call.inputs
  let workPlan := parallelPlan settings true normalized.1.length
  (runParallel workPlan normalized.1.length (call.flattenBody starts normalized.1)
    (fun _ => none) schedule).map fun regionEnd =>
      match regionEnd.outcome.message (Fault.text call.icu.statusText), normalized.2 with
      | some message, _ => .error message
      | none, some error => .error error.text
      | none, none => joinStaged (Fault.text call.icu.statusText) workPlan.workers regionEnd

/-- `ci_wrap` in flatten mode: the records it returns, or the error it raises. -/
def ciWrapFlatten (settings : Settings) (schedule : List Nat) :
    Option (Except String (List (Option Line))) :=
  match call.prepare with
  | .error fault => some (.error (fault.text call.icu.statusText))
  | .ok starts =>
      if (parallelPlan settings true call.inputs.length).workers = 1 then
        some (call.serialFlatten starts)
      else call.threadedFlatten settings schedule starts

/-- The call on one worker. -/
def ciWrapSerial : Except String (List (Option Line)) :=
  match call.prepare with
  | .error fault => .error (fault.text call.icu.statusText)
  | .ok starts => call.serialFlatten starts

end WrapCall

/-! ## Records -/

section Records

variable [Zero Cost] [One Cost] [Neg Cost] [Add Cost] [LT Cost] [LE Cost]
  [DecidableLT Cost] [DecidableLE Cost] {icu : Icu} {options : Options Cost}
  {pow : Int → Cost → Cost}

/-- What the matrices held before does not matter to the breaks. -/
theorem wrapWords_matrices
    (hpow : ¬ options.exponent ≤ 0 → NonNegative fun room => pow room options.exponent)
    (widths : LineWidths) (words : List Word) (matrices matrices' : Matrices Cost) :
    (wrapWords options pow widths words matrices).map Prod.snd =
      (wrapWords options pow widths words matrices').map Prod.snd := by
  unfold wrapWords
  split
  next => rfl
  next =>
    split
    next => rfl
    next hexponent => exact dynamic_matrices (hpow hexponent) matrices matrices'

/-- A plan is that of an engine that is new. -/
theorem plan_matrices
    (hpow : ¬ options.exponent ≤ 0 → NonNegative fun room => pow room options.exponent)
    (source : StringView) (first later : LineStart) (matrices matrices' : Matrices Cost) :
    (plan icu options pow source first later matrices).map Prod.snd =
      (plan icu options pow source first later matrices').map Prod.snd := by
  unfold plan
  split
  next => rfl
  next =>
    cases prepareRecord icu options.normalize source with
    | error fault => rfl
    | ok record =>
        simp only [bind, Except.bind]
        cases asciiFits icu options record (lineWidths options first later).first with
        | error error => rfl
        | ok fits =>
            cases fits with
            | some stop => rfl
            | none =>
                simp only
                split
                next => rfl
                next =>
                  cases cutWords icu options record.data 0 (icu.boundaries record.data).2 with
                  | error error => rfl
                  | ok words =>
                      cases words with
                      | nil => rfl
                      | cons word rest =>
                          have hwrapped := wrapWords_matrices hpow (lineWidths options first later)
                            (word :: rest) matrices matrices'
                          rcases Loops.except_map_cases hwrapped with
                            ⟨fault, hleft, hright⟩ | ⟨done, done', hleft, hright, heq⟩
                          · simp only [hleft, hright]
                          · simp only [hleft, hright, heq]
                            split <;> rfl

/-- What a plan is made of: an ASCII record on one line, a record without words, or the
words and their breaks. -/
theorem plan_cases {source : StringView} {first later : LineStart} {matrices left : Matrices Cost}
    {planned : Plan}
    (hplan : plan icu options pow source first later matrices = .ok (left, planned)) :
    ∃ record, prepareRecord icu options.normalize source = .ok record ∧
      ((∃ stop, asciiFits icu options record (lineWidths options first later).first =
          .ok (some stop) ∧ planned = ⟨record, .direct stop⟩) ∨
      (cutWords icu options record.data 0 (icu.boundaries record.data).2 = .ok [] ∧
        planned = ⟨record, .passthrough⟩) ∨
      ∃ words wrapAfter, words ≠ [] ∧
        cutWords icu options record.data 0 (icu.boundaries record.data).2 = .ok words ∧
        wrapWords options pow (lineWidths options first later) words matrices =
          .ok (left, wrapAfter) ∧
        wrapAfter.length < intMax ∧ planned = ⟨record, .broken words wrapAfter⟩) := by
  unfold plan at hplan
  split at hplan
  next => cases hplan
  next =>
    cases hrecord : prepareRecord icu options.normalize source with
    | error fault => simp [hrecord, bind, Except.bind] at hplan
    | ok record =>
        refine ⟨record, rfl, ?_⟩
        simp only [hrecord, bind, Except.bind] at hplan
        split at hplan
        next => cases hplan
        next stop hfits =>
          obtain ⟨-, rfl⟩ := Prod.mk.inj (Except.ok.inj hplan)
          exact .inl ⟨stop, hfits, rfl⟩
        next =>
          split at hplan
          next => cases hplan
          next =>
            split at hplan
            next => cases hplan
            next hwords =>
              obtain ⟨-, rfl⟩ := Prod.mk.inj (Except.ok.inj hplan)
              exact .inr (.inl ⟨hwords, rfl⟩)
            next words hne hwords =>
              split at hplan
              next => cases hplan
              next done hwrap =>
                split at hplan
                next => cases hplan
                next hfew =>
                  obtain ⟨rfl, rfl⟩ := Prod.mk.inj (Except.ok.inj hplan)
                  exact .inr (.inr ⟨words, done.2, hne, hwords, hwrap, Nat.lt_of_not_le hfew, rfl⟩)

/-- A plan has as many lines as an `int` can count. -/
theorem plan_lineCount_le {source : StringView} {first later : LineStart}
    {matrices left : Matrices Cost} {planned : Plan}
    (hplan : plan icu options pow source first later matrices = .ok (left, planned)) :
    planned.lineCount ≤ intMax := by
  have hone : 1 ≤ intMax := by decide
  obtain ⟨record, -, ⟨stop, -, rfl⟩ | ⟨-, rfl⟩ | ⟨words, wrapAfter, -, -, -, hfew, rfl⟩⟩ :=
    plan_cases hplan
  · exact hone
  · exact hone
  · exact hfew

end Records

namespace WrapCall

variable [Zero Cost] [One Cost] [Neg Cost] [Add Cost] [LT Cost] [LE Cost]
  [DecidableLT Cost] [DecidableLE Cost]
  {call : WrapCall Cost} {starts : Starts}

/-- The lines of a record, from an engine that is new. -/
def recordOutcome (call : WrapCall Cost) (starts : Starts) (i : Nat) (input : StringView) :
    Except Fault (List (Option Line)) :=
  (call.recordLines starts i input ⟨[], []⟩).map Prod.snd

theorem recordLines_matrices
    (hpow : ¬ call.options.exponent ≤ 0 →
      NonNegative fun room => call.pow room call.options.exponent)
    (i : Nat) (input : StringView) (matrices : Matrices Cost) :
    (call.recordLines starts i input matrices).map Prod.snd =
      call.recordOutcome starts i input := by
  unfold recordOutcome recordLines
  split
  next => rfl
  next =>
    simp only
    generalize (if i = 0 then starts.initialIndent else starts.prefixIndent) = first
    have hplan : (plan call.icu call.options call.pow input first starts.prefixExdent
        matrices).map Prod.snd = (plan call.icu call.options call.pow input first
          starts.prefixExdent ⟨[], []⟩).map Prod.snd :=
      plan_matrices hpow input first starts.prefixExdent matrices ⟨[], []⟩
    rcases Loops.except_map_cases hplan with
      ⟨fault, hleft, hright⟩ | ⟨done, done', hleft, hright, heq⟩
    · rw [hleft, hright]
    · rw [hleft, hright]
      simp only [heq]
      cases (List.range done'.2.lineCount).mapM
        (done'.2.line first starts.prefixExdent) <;> rfl

/-- A record has no more lines than R can count. -/
theorem length_recordOutcome_le {i : Nat} {input : StringView} {lines : List (Option Line)}
    (hlines : call.recordOutcome starts i input = .ok lines) : lines.length ≤ intMax := by
  unfold recordOutcome recordLines at hlines
  split at hlines
  next =>
    obtain rfl := Except.ok.inj hlines
    show 1 ≤ intMax
    decide
  next =>
    simp only at hlines
    generalize (if i = 0 then starts.initialIndent else starts.prefixIndent) = first at hlines
    cases hplan : plan call.icu call.options call.pow input first starts.prefixExdent ⟨[], []⟩ with
    | error fault => simp [hplan, Except.map] at hlines
    | ok done =>
        obtain ⟨left, planned⟩ := done
        simp only [hplan] at hlines
        cases hmapped : (List.range planned.lineCount).mapM
            (planned.line first starts.prefixExdent) with
        | error fault => simp [hmapped, Except.map] at hlines
        | ok written =>
            rw [hmapped] at hlines
            obtain rfl := Except.ok.inj hlines
            have hlength : written.length = planned.lineCount := by
              rw [Earliest.length_of_mapM hmapped, List.length_range]
            rw [List.length_map, hlength]
            exact plan_lineCount_le hplan

/-- The lines of normalized records, from record `i` on. -/
def linesFrom (call : WrapCall Cost) (starts : Starts) :
    (i : Nat) → List StringView → Except Fault (List (Option Line))
  | _, [] => .ok []
  | i, input :: rest =>
      match call.recordOutcome starts i input with
      | .error fault => .error fault
      | .ok lines => (linesFrom call starts (i + 1) rest).map (lines ++ ·)

/-- The error of a record that could not be normalized comes behind those of the records
before it. -/
def withFailure (lines : Except Fault (List (Option Line))) (failure : Option NativeError) :
    Except Fault (List (Option Line)) :=
  match lines, failure with
  | .error fault, _ => .error fault
  | .ok _, some error => .error (.thrown error)
  | .ok lines, none => .ok lines

/-- The serial loop fails where the pre-pass does, unless it has failed before. -/
theorem serialLoop_eq
    (hpow : ¬ call.options.exponent ≤ 0 →
      NonNegative fun room => call.pow room call.options.exponent)
    (i : Nat) (storage : SliceArena) (matrices : Matrices Cost) (sources : List StringView) :
    call.serialLoop starts i storage matrices sources =
      withFailure (call.linesFrom starts i (call.normalizeInputs storage sources).1)
        (call.normalizeInputs storage sources).2 := by
  induction sources generalizing i storage matrices with
  | nil => rfl
  | cons source rest ih =>
      rw [serialLoop, normalizeInputs]
      cases normalizeInput call.converter storage source with
      | error error => rfl
      | ok normalized =>
          obtain ⟨input, storage⟩ := normalized
          simp only [linesFrom]
          have hrecord : (call.recordLines starts i input matrices).map Prod.snd =
              call.recordOutcome starts i input := recordLines_matrices hpow i input matrices
          rw [← hrecord]
          cases call.recordLines starts i input matrices with
          | error fault => rfl
          | ok done =>
              simp only [Except.map]
              rw [ih (i + 1) storage done.1]
              cases call.linesFrom starts (i + 1) (call.normalizeInputs storage rest).1 with
              | error fault => rfl
              | ok lines => cases (call.normalizeInputs storage rest).2 <;> rfl

/-- What the workers make of task `i`. -/
def taskOutcome (call : WrapCall Cost) (starts : Starts) (inputs : List StringView) (i : Nat) :
    Except Fault (List (Option Line)) :=
  match inputs[i]? with
  | none => .error .outOfBounds
  | some input => call.recordOutcome starts i input

/-- The serial loop gives the lines of every record. -/
theorem linesFrom_eq (done inputs : List StringView) :
    call.linesFrom starts done.length inputs =
      ((List.range' done.length inputs.length).mapM
        (call.taskOutcome starts (done ++ inputs))).map List.flatten := by
  induction inputs generalizing done with
  | nil => rfl
  | cons input rest ih =>
      have htask : call.taskOutcome starts (done ++ input :: rest) done.length =
          call.recordOutcome starts done.length input := by
        simp [taskOutcome]
      have hrest := ih (done ++ [input])
      rw [List.length_append, List.length_singleton, List.append_assoc,
        List.singleton_append] at hrest
      rw [linesFrom, List.length_cons, List.range'_succ, List.mapM_cons, htask]
      cases call.recordOutcome starts done.length input with
      | error fault => rfl
      | ok lines =>
          simp only [hrest, bind, Except.bind]
          cases (List.range' (done.length + 1) rest.length).mapM
              (call.taskOutcome starts (done ++ input :: rest)) with
          | error fault => rfl
          | ok others => rfl

/-- There are never more lines than can be counted. -/
theorem length_produced_le (inputs : List StringView) (hinputs : inputs.length ≤ intMax) :
    ((List.range inputs.length).flatMap (produced (call.taskOutcome starts inputs))).length ≤
      sizeMax := by
  have htask : ∀ i, (produced (call.taskOutcome starts inputs) i).length ≤ intMax := by
    intro i
    unfold produced taskOutcome
    cases inputs[i]? with
    | none => exact Nat.zero_le _
    | some input =>
        simp only
        cases hlines : call.recordOutcome starts i input with
        | error fault => exact Nat.zero_le _
        | ok lines => exact length_recordOutcome_le hlines
  have hsum : ∀ tasks : List Nat,
      (tasks.flatMap (produced (call.taskOutcome starts inputs))).length ≤
        tasks.length * intMax := by
    intro tasks
    induction tasks with
    | nil => exact Nat.zero_le _
    | cons task rest ih =>
        rw [List.flatMap_cons, List.length_append, List.length_cons, Nat.add_mul, Nat.one_mul,
          Nat.add_comm]
        exact Nat.add_le_add ih (htask task)
  calc ((List.range inputs.length).flatMap (produced (call.taskOutcome starts inputs))).length
      ≤ (List.range inputs.length).length * intMax := hsum _
    _ ≤ intMax * intMax := by
        rw [List.length_range]
        exact Nat.mul_le_mul_right intMax hinputs
    _ ≤ sizeMax := by decide

/-- The threaded run gives them too. -/
theorem threadedFlatten_eq
    (hpow : ¬ call.options.exponent ≤ 0 →
      NonNegative fun room => call.pow room call.options.exponent)
    (hprepare : call.prepare = .ok starts) {settings : Settings} {schedule : List Nat}
    {result : Except String (List (Option Line))}
    (hrun : call.threadedFlatten settings schedule starts = some result) :
    result = call.serialFlatten starts := by
  obtain ⟨hopened, hlength⟩ := prepare_ok hprepare
  have hinputs := (length_normalizeInputs_le call starts.storage call.inputs).trans
    hlength
  unfold serialFlatten
  rw [serialLoop_eq hpow]
  unfold threadedFlatten at hrun
  simp only at hrun
  generalize hnormalized : call.normalizeInputs starts.storage call.inputs = normalized at *
  obtain ⟨inputs, failure⟩ := normalized
  simp only at hrun hinputs ⊢
  obtain ⟨regionEnd, hregion, rfl⟩ := Option.map_eq_some_iff.mp hrun
  have hproduce : ∀ task < inputs.length, ∀ matrices,
      Except.map Prod.snd (match inputs[task]? with
        | none => .error .outOfBounds
        | some input => call.recordLines starts task input matrices) =
          call.taskOutcome starts inputs task := by
    intro task htask matrices
    rw [taskOutcome, List.getElem?_eq_getElem htask]
    exact recordLines_matrices hpow task _ matrices
  have hjoined := stagedRegion_eq (by rw [hopened]; rfl) hproduce hregion
    (length_produced_le inputs hinputs)
  have hlines := @linesFrom_eq _ _ _ _ _ _ _ _ _ call starts [] inputs
  rw [List.length_nil, List.nil_append, ← List.range_eq_range'] at hlines
  have hmessage := stagedRegion_message (by rw [hopened]; rfl) hproduce hregion
  rw [hlines]
  cases hfirst : (List.range inputs.length).findSome?
      (itemFailure (call.taskOutcome starts inputs)) with
  | some fault =>
      rw [hfirst] at hmessage
      rw [mapM_error _ hfirst, hmessage]
      rfl
  | none =>
      obtain ⟨values, hvalues, -⟩ := mapM_ok _ hfirst
      rw [hfirst] at hmessage
      rw [hvalues] at hjoined
      rw [hvalues, hmessage]
      cases failure with
      | some error => rfl
      | none => exact hjoined

/-- A fair schedule lets it end. -/
theorem threadedFlatten_isSome (settings : Settings) {schedule : List Nat}
    (hfair : ∀ tasks ≤ call.inputs.length, ∀ index < (parallelPlan settings true tasks).workers,
      scheduleBound (parallelPlan settings true tasks) tasks < schedule.count index) :
    (call.threadedFlatten settings schedule starts).isSome = true := by
  unfold threadedFlatten
  simp only [Option.isSome_map]
  apply runRegion_isSome_of_fair
  intro index hindex
  rw [regionWorkers_parallelPlan] at hindex
  exact hfair _ (length_normalizeInputs_le call starts.storage call.inputs) index hindex

end WrapCall

/-- ICU for ASCII text: lines may be broken behind blanks. -/
def asciiIcu : Icu where
  properties := ⟨fun _ => .other, fun _ => .neutral, fun _ => .notApplicable, fun _ => false,
    fun _ => false⟩
  opened := 0
  normalizeNfc text := (text, 0)
  boundaries text := (0, (List.range text.length).filterMap fun index =>
    if index + 1 = text.length ∨ text[index]? = some 0x20 then some (index + 1) else none)
  statusText _ := "ICU error"

/-- `a bc`, then two records that fail: one has a line break, one is of bytes. -/
def failingCall : WrapCall Int where
  icu := asciiIcu
  options := ⟨3, 2, false, false, false⟩
  pow room exponent := room ^ exponent.toNat
  converter := ⟨fun _ => .ok (.null 0), fun _ => .ok (.null 0), true⟩
  inputs := [⟨.bytes ⟨8, [0x61, 0x20, 0x62, 0x63], by decide⟩, .ascii⟩,
    ⟨.bytes ⟨16, [0x64, 0x0a], by decide⟩, .ascii⟩, ⟨.bytes ⟨24, [0x65], by decide⟩, .bytes⟩]
  linePrefix := ⟨.bytes ⟨32, [], by decide⟩, .ascii⟩
  initial := ⟨.bytes ⟨40, [], by decide⟩, .ascii⟩
  indent := 0
  exdent := 0

example : { failingCall with inputs := failingCall.inputs.take 1 }.ciWrapSerial =
    .ok [some ⟨[0x61], true⟩, some ⟨[0x62, 0x63], true⟩] := by decide

end Charr.Wrap
