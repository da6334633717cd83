import Charr.Library.Doubling
import Charr.Library.Loops
import Charr.Output.Record
import Charr.Parallel.Items
import Charr.Width.Preflight

/-!
# Repeating strings

Each string is written as often as its count says. Native and Latin-1 records are converted
before anything is written; what a worker then reads needs no conversion. The size of a
result is checked before the buffer for it is filled by doubling.
-/

namespace Charr.Repeat

open Buffers Loops Parallel
open Width (Converted convertRecord preflightInputs bytesEncoding unknownEncoding)

/-! ## Sizes and bytes -/

/-- The size of a repeated string, or nothing when it is over the limit. -/
def checkedRepeatSize (sourceLength : Nat) (times : Int) (limit : Nat) : Option Nat :=
  if times ≤ 0 ∨ sourceLength = 0 then some 0
  else
    let count := toSize times
    if sourceLength > limit / count then none else some (sourceLength * count)

/-- Fill the output with copies of the source. -/
def repeatBytes (source : List UInt8) (outputLength : Nat) (sink : Sink UInt8) :
    Except (Fault NativeError) (Sink UInt8) :=
  if outputLength = 0 then .ok sink else seedAndDouble source outputLength sink

/-- The size is the product, if it is within the limit. -/
theorem checkedRepeatSize_eq {sourceLength limit : Nat} {times : Int} (hsource : 0 < sourceLength)
    (htimes : 0 < times) (hmax : times ≤ intMax) :
    checkedRepeatSize sourceLength times limit =
      if times.toNat * sourceLength ≤ limit then some (times.toNat * sourceLength) else none := by
  have hsize : toSize times = times.toNat :=
    toSize_eq htimes.le (hmax.trans (by decide))
  have hpositive : 0 < times.toNat := by omega
  have hiff : sourceLength > limit / times.toNat ↔ ¬ times.toNat * sourceLength ≤ limit := by
    rw [gt_iff_lt, Nat.div_lt_iff_lt_mul hpositive, Nat.not_le, Nat.mul_comm sourceLength]
  rw [checkedRepeatSize, if_neg (by omega), hsize]
  by_cases hfits : times.toNat * sourceLength ≤ limit
  · rw [if_pos hfits, if_neg (by rw [hiff, not_not]; exact hfits), Nat.mul_comm]
  · rw [if_neg hfits, if_pos (hiff.mpr hfits)]

/-- A buffer of the checked size is filled with the copies, whatever it held. -/
theorem repeatBytes_copies {source : List UInt8} (hsource : source ≠ []) {count : Nat}
    (hcount : 1 ≤ count) {buffer : List UInt8} (hbuffer : buffer.length = count * source.length) :
    repeatBytes source (count * source.length) ⟨buffer, 0⟩ =
      .ok ⟨copies count source, count * source.length⟩ := by
  have hpositive : 0 < source.length := List.length_pos_iff.mpr hsource
  have hsize : count * source.length ≠ 0 := (Nat.mul_pos hcount hpositive).ne'
  have hfilled := (writes_seedAndDouble (ε := NativeError) hsource hcount).front buffer
    (by rw [length_copies, hbuffer])
  rw [length_copies, List.drop_eq_nil_of_le hbuffer.le, List.append_nil] at hfilled
  rw [repeatBytes, if_neg hsize]
  exact hfilled

/-! ## The operation -/

/-- A record read where it is: without a byte order mark, and marked as what it holds. -/
def directInput (value : StringView) : StringView :=
  if value.isNa then StringView.na
  else
    match value.data with
    | .null len => ⟨.null len, .utf8⟩
    | .bytes span =>
        let span :=
          if (value.enc = .utf8 ∨ value.enc = .asciiOrUtf8) ∧ hasBom span.bytes then
            span.slice 3 span.bytes.length
          else span
        let enc : StringEncoding :=
          if value.enc = .ascii then .ascii
          else if value.enc = .asciiOrUtf8 then
            (if spanIsAscii span.bytes then .ascii else .utf8)
          else .utf8
        ⟨.bytes span, enc⟩

/-- The record as the workers read it. -/
def inputAt (values : List StringView) (converted : Converted) (index : Nat) : StringView :=
  match converted.slots.getD index none with
  | some slot => converted.values.getD slot .na
  | none => directInput (values.getD index .na)

/-- How a result is marked. -/
def outputEncoding (encoding : StringEncoding) : StringEncoding :=
  if encoding = .ascii then .ascii else .utf8

/-- The error of a result that would not fit in an R string. -/
def stringTooLong : NativeError :=
  .striException "Elements of character vectors (CHARSXPs) are limited to 2^31-1 bytes"

section Operation

variable (values : List StringView) (converted : Converted) (times : List Int)

/-- One record of the result. -/
def dupRecord (value : StringView) (current : Int) :
    Except (Fault NativeError) (Option OutputRecord) :=
  if value.isNa ∨ current = naInteger ∨ current < 0 then .ok none
  else
    let length := toSize value.len
    if current = 0 ∨ length = 0 then .ok (some ⟨[], .ascii⟩)
    else
      match checkedRepeatSize length current intMax with
      | none => .error (.thrown stringTooLong)
      | some total => do
          let sink ← repeatBytes value.bytes total ⟨List.replicate total 0, 0⟩
          return some ⟨sink.cells, outputEncoding value.enc⟩

/-- The result of a task, both vectors recycled. -/
def dupTask (index : Nat) : Except (Fault NativeError) (Option OutputRecord) :=
  dupRecord (inputAt values converted (index % values.length))
    (times.getD (index % times.length) naInteger)

/-- The text of an error; a write outside its buffer has none. -/
def faultText : Fault NativeError → String
  | .outside => ""
  | .thrown error => error.text

/-- The region: a task writes its result. -/
def dupBody : ParallelBody Unit (Option OutputRecord) (Fault NativeError) :=
  itemBody (dupTask values converted times) faultText

/-- The records of the result, or the text of the error. -/
def ciDup (converter : NativeToUtf8) (settings : Settings) (schedule : List Nat) :
    Option (Except String (List (Option (Option OutputRecord)))) :=
  let vectorizeLength := (recyclingLength values.length times.length).1
  if vectorizeLength > 0 then
    match preflightInputs converter values.length 0 values ⟨0⟩ {} with
    | .error error => some (.error error.text)
    | .ok converted =>
        runItems settings vectorizeLength (dupBody values converted times)
          ((List.range vectorizeLength).mapM (dupTask values converted times)) schedule
  else some (.ok [])

end Operation

/-! ## What the records hold -/

/-- The text of a record: nothing when it is missing. -/
def textOf (value : StringView) : Option OutputRecord :=
  if value.isNa then none else some ⟨value.bytes, outputEncoding value.enc⟩

section Texts

variable (converter : NativeToUtf8)

/-- The text of a record of the input, as UTF-8 and without a byte order mark. -/
def sourceText (view : StringView) : Except NativeError (Option OutputRecord) :=
  match view.enc with
  | .missing => .ok none
  | .ascii => .ok (textOf (directInput view))
  | .utf8 => .ok (textOf (directInput view))
  | .asciiOrUtf8 => .ok (textOf (directInput view))
  | .latin1 => (normalizeUtf8 converter ⟨0⟩ view).map fun result => textOf result.1
  | .native => (normalizeUtf8 converter ⟨0⟩ view).map fun result => textOf result.1
  | .bytes => .error bytesEncoding
  | .unknown => .error unknownEncoding

variable {converter}

@[simp] theorem textOf_unplaced (value : StringView) : textOf value.unplaced = textOf value := by
  simp [textOf]

/-- Where converted bytes are put does not matter to what they are. -/
theorem normalizeUtf8_text (storage other : SliceArena) (view : StringView) :
    (normalizeUtf8 converter storage view).map (fun result => textOf result.1) =
      (normalizeUtf8 converter other view).map fun result => textOf result.1 := by
  have htext : ∀ result : Except NativeError (StringView × SliceArena),
      result.map (fun result => textOf result.1) =
        (result.map fun result => result.1.unplaced).map textOf := by
    rintro (error | result)
    · rfl
    · exact congrArg Except.ok (textOf_unplaced result.1).symm
  rw [htext, htext, normalizeUtf8_unplaced storage other view]

theorem normalized_directInput {value : StringView} (hnormal : Normalized value) :
    Normalized (directInput value) := by
  unfold directInput
  split
  next => exact .inl rfl
  next hna =>
    obtain ⟨span, hdata⟩ := hnormal.resolve_left hna
    rw [hdata]
    exact .inr ⟨_, rfl⟩

/-! ### The pass before the workers -/

section Preflight

variable (converter) in
/-- The records in front of `count` can be read, and hold what they should. -/
structure Prepared (values : List StringView) (count : Nat) (converted : Converted) : Prop where
  slots : converted.slots = [] ∨ converted.slots.length = values.length
  later : ∀ index, count ≤ index → converted.slots.getD index none = none
  valid : ∀ index slot, converted.slots.getD index none = some slot →
    slot < converted.values.length
  reads : ∀ index < count, Normalized (inputAt values converted index) ∧
    sourceText converter (values.getD index .na) = .ok (textOf (inputAt values converted index))

variable {values : List StringView} {count : Nat} {converted : Converted}

/-- A record that needs no conversion. -/
theorem Prepared.direct (hprepared : Prepared converter values count converted)
    (hnormal : Normalized (values.getD count .na))
    (htext : sourceText converter (values.getD count .na) =
      .ok (textOf (directInput (values.getD count .na)))) :
    Prepared converter values (count + 1) converted where
  slots := hprepared.slots
  later index hindex := hprepared.later index (Nat.le_of_succ_le hindex)
  valid := hprepared.valid
  reads index hindex := by
    obtain hless | rfl := Nat.lt_succ_iff_lt_or_eq.mp hindex
    · exact hprepared.reads index hless
    · rw [inputAt, hprepared.later index le_rfl]
      exact ⟨normalized_directInput hnormal, htext⟩

/-- A record that has been converted takes the next slot. -/
theorem Prepared.convert (hprepared : Prepared converter values count converted)
    (hcount : count < values.length) {value : StringView} (hnormal : Normalized value)
    (htext : sourceText converter (values.getD count .na) = .ok (textOf value)) :
    Prepared converter values (count + 1)
      ⟨(if converted.slots = [] then List.replicate values.length none
        else converted.slots).set count (some converted.values.length),
        converted.values ++ [value]⟩ := by
  have hbefore : ∀ index, (if converted.slots = [] then List.replicate values.length none
      else converted.slots).getD index none = converted.slots.getD index none := by
    intro index
    split
    next hempty =>
      rw [hempty, List.getD_eq_getElem?_getD, List.getD_eq_getElem?_getD,
        List.getElem?_replicate]
      split <;> rfl
    next => rfl
  have hlength : (if converted.slots = [] then List.replicate values.length none
      else converted.slots).length = values.length := by
    split
    next => exact List.length_replicate
    next hfull => exact hprepared.slots.resolve_left hfull
  have hget : ∀ index, ((if converted.slots = [] then List.replicate values.length none
      else converted.slots).set count (some converted.values.length)).getD index none =
      if index = count then some converted.values.length
      else converted.slots.getD index none := by
    intro index
    rw [List.getD_eq_getElem?_getD, List.getElem?_set]
    split
    next heq =>
      rw [if_pos heq.symm, hlength, if_pos hcount]
      rfl
    next hne => rw [if_neg (Ne.symm hne), ← List.getD_eq_getElem?_getD, hbefore]
  constructor
  · right
    rw [List.length_set, hlength]
  · intro index hindex
    rw [hget, if_neg (by omega)]
    exact hprepared.later index (Nat.le_of_succ_le hindex)
  · intro index slot hslot
    rw [hget] at hslot
    rw [List.length_append, List.length_singleton]
    split at hslot
    next =>
      obtain rfl := Option.some.inj hslot
      exact Nat.lt_succ_self _
    next => exact (hprepared.valid index slot hslot).trans (Nat.lt_succ_self _)
  · intro index hindex
    rw [inputAt, hget]
    obtain hless | rfl := Nat.lt_succ_iff_lt_or_eq.mp hindex
    · rw [if_neg hless.ne]
      have hread := hprepared.reads index hless
      rw [inputAt] at hread
      cases hslot : converted.slots.getD index none with
      | none =>
          rw [hslot] at hread
          exact hread
      | some slot =>
          -- Earlier conversions keep their slots.
          have hvalid := hprepared.valid index slot hslot
          rw [hslot] at hread
          simp only [List.getD_eq_getElem?_getD, List.getElem?_append_left hvalid] at hread ⊢
          exact hread
    · rw [if_pos rfl, htext]
      simpa using hnormal

variable (converter) in
/-- What the pass does with a record: it leaves it alone, converts it, or refuses it. -/
inductive PreflightStep (view : StringView) : Prop where
  | direct (text : sourceText converter view = .ok (textOf (directInput view)))
      (pass : ∀ size index rest storage converted,
        preflightInputs converter size index (view :: rest) storage converted =
          preflightInputs converter size (index + 1) rest storage converted)
  | convert (text : ∀ storage, sourceText converter view =
        (normalizeUtf8 converter storage view).map fun result => textOf result.1)
      (pass : ∀ size index rest storage converted,
        preflightInputs converter size index (view :: rest) storage converted =
          (convertRecord converter size index view storage converted).bind fun next =>
            preflightInputs converter size (index + 1) rest next.1 next.2)
  | refuse (error : NativeError) (text : sourceText converter view = .error error)
      (pass : ∀ size index rest storage converted,
        preflightInputs converter size index (view :: rest) storage converted = .error error)

/-- What the preflight does with a value. -/
theorem preflightStep (view : StringView) : PreflightStep converter view := by
  have hpresent : view.enc ≠ .missing → view.isNa = false := fun hne => decide_eq_false hne
  have hdirect : view.enc = .ascii ∨ view.enc = .utf8 ∨ view.enc = .asciiOrUtf8 →
      PreflightStep converter view := by
    intro henc
    have hna := hpresent (by rcases henc with h | h | h <;> rw [h] <;> decide)
    refine .direct ?_ fun size index rest storage converted => ?_
    · rcases henc with henc | henc | henc <;> rw [sourceText, henc]
    · rcases henc with henc | henc | henc <;> simp [preflightInputs, hna, henc]
  have hconvert : view.enc = .latin1 ∨ view.enc = .native → PreflightStep converter view := by
    intro henc
    have hna := hpresent (by rcases henc with h | h <;> rw [h] <;> decide)
    refine .convert (fun storage => ?_) fun size index rest storage converted => ?_
    · rw [normalizeUtf8_text storage ⟨0⟩]
      rcases henc with henc | henc <;> rw [sourceText, henc]
    · rw [preflightInputs, hna, if_neg Bool.false_ne_true]
      rcases henc with henc | henc <;> rw [henc] <;> rfl
  cases henc : view.enc with
  | missing =>
      have hna : view.isNa = true := decide_eq_true henc
      refine .direct ?_ fun size index rest storage converted => ?_
      · rw [sourceText, henc, textOf, directInput, if_pos hna]
        rfl
      · rw [preflightInputs, if_pos hna]
  | ascii => exact hdirect (.inl henc)
  | utf8 => exact hdirect (.inr (.inl henc))
  | asciiOrUtf8 => exact hdirect (.inr (.inr henc))
  | latin1 => exact hconvert (.inl henc)
  | native => exact hconvert (.inr henc)
  | bytes =>
      refine .refuse bytesEncoding (by rw [sourceText, henc]) fun _ _ _ _ _ => ?_
      simp [preflightInputs, hpresent, henc]
  | unknown =>
      refine .refuse unknownEncoding (by rw [sourceText, henc]) fun _ _ _ _ _ => ?_
      simp [preflightInputs, hpresent, henc]

/-- The pass prepares all records, or fails as the first that has no text. -/
theorem preflightInputs_spec (hnormal : ∀ value ∈ values, Normalized value)
    {before rest : List StringView} {storage : SliceArena} (hvalues : values = before ++ rest)
    (hprepared : Prepared converter values before.length converted) :
    (∃ final, preflightInputs converter values.length before.length rest storage converted =
        .ok final ∧ Prepared converter values values.length final) ∨
      ∃ error, preflightInputs converter values.length before.length rest storage converted =
        .error error ∧ rest.mapM (sourceText converter) = .error error := by
  induction rest generalizing before storage converted with
  | nil =>
      left
      refine ⟨converted, rfl, ?_⟩
      rw [List.append_nil] at hvalues
      rwa [hvalues] at hprepared ⊢
  | cons view rest ih =>
      have hview : values.getD before.length .na = view := by simp [hvalues]
      have hsplit : values = (before ++ [view]) ++ rest := by simp [hvalues]
      have hlength : (before ++ [view]).length = before.length + 1 := by simp
      -- What comes of the rest, once this record has its text.
      have hgoes : ∀ {next : Converted} {storage : SliceArena} {text : Option OutputRecord},
          sourceText converter view = .ok text →
          Prepared converter values (before.length + 1) next →
          (∃ final, preflightInputs converter values.length (before.length + 1) rest storage
              next = .ok final ∧ Prepared converter values values.length final) ∨
            ∃ error, preflightInputs converter values.length (before.length + 1) rest storage
              next = .error error ∧
              (view :: rest).mapM (sourceText converter) = .error error := by
        intro next storage text htext hkept
        rw [← hlength] at hkept ⊢
        obtain hdone | ⟨error, hfailed, hrest⟩ := ih hsplit hkept
        · exact .inl hdone
        · refine .inr ⟨error, hfailed, ?_⟩
          rw [List.mapM_cons, htext, hrest]
          rfl
      cases @preflightStep converter view with
      | direct htext hpass =>
          rw [hpass]
          apply hgoes htext
          apply hprepared.direct
          · rw [hview]
            exact hnormal view (by simp [hvalues])
          · rw [hview]
            exact htext
      | convert htext hpass =>
          rw [hpass, convertRecord]
          cases hnormalize : normalizeUtf8 converter storage view with
          | error error =>
              refine .inr ⟨error, rfl, ?_⟩
              rw [List.mapM_cons, htext storage, hnormalize]
              rfl
          | ok result =>
              have hresult : sourceText converter view = .ok (textOf result.1) := by
                rw [htext storage, hnormalize]
                rfl
              apply hgoes hresult
              apply hprepared.convert
              · simp [hvalues]
              · exact normalized_normalizeUtf8 hnormalize
              · rw [hview]
                exact hresult
      | refuse error htext hpass =>
          refine .inr ⟨error, hpass _ _ _ _ _, ?_⟩
          rw [List.mapM_cons, htext]
          rfl

end Preflight

end Texts

/-! ## What the operation gives -/

/-- A text repeated: nothing for a missing text and for a missing or negative count. -/
def repeated (text : Option OutputRecord) (current : Int) :
    Except NativeError (Option OutputRecord) :=
  match text with
  | none => .ok none
  | some record =>
      if current < 0 then .ok none
      else if current.toNat * record.bytes.length > intMax then .error stringTooLong
      else if current.toNat * record.bytes.length = 0 then .ok (some ⟨[], .ascii⟩)
      else .ok (some ⟨copies current.toNat record.bytes, record.enc⟩)

/-- The texts of the strings repeated, in order: first all strings get their texts. -/
def repeatedTexts (converter : NativeToUtf8) (values : List StringView) (times : List Int) :
    Except NativeError (List (Option OutputRecord)) := do
  let texts ← values.mapM (sourceText converter)
  (List.range (recyclingLength values.length times.length).1).mapM fun index =>
    repeated (texts.getD (index % values.length) none)
      (times.getD (index % times.length) naInteger)

/-- Sizing, reserving and doubling make the copies. -/
theorem dupRecord_eq {value : StringView} (hnormal : Normalized value) {current : Int}
    (hmax : current ≤ intMax) :
    dupRecord value current = (repeated (textOf value) current).mapError .thrown := by
  unfold dupRecord textOf
  by_cases hna : value.isNa = true
  · rw [if_pos (.inl hna), if_pos hna]
    rfl
  obtain ⟨span, hdata⟩ := hnormal.resolve_left hna
  have hbytes : value.bytes = span.bytes := by rw [StringView.bytes, hdata]
  have hlength : toSize value.len = span.bytes.length := by
    have hshort := span.length_le
    have hlimit : intMax ≤ sizeMax := by decide
    rw [StringView.len, hdata, toSize_eq (Int.natCast_nonneg _) (by omega)]
    rfl
  rw [if_neg hna, repeated, hbytes]
  by_cases hnegative : current < 0
  · rw [if_pos (.inr (.inr hnegative)), if_pos hnegative]
    rfl
  have hmissing : current ≠ naInteger := by
    unfold naInteger
    omega
  rw [if_neg (by simp [hna, hmissing, hnegative]), if_neg hnegative]
  dsimp only
  rw [hlength]
  by_cases hzero : current = 0 ∨ span.bytes.length = 0
  · have hsize : current.toNat * span.bytes.length = 0 := by
      rcases hzero with rfl | hempty
      · exact Nat.zero_mul _
      · rw [hempty, Nat.mul_zero]
    rw [if_pos hzero, hsize, if_neg (by decide), if_pos rfl]
    rfl
  have hpositive : 0 < current := by omega
  have hsource : 0 < span.bytes.length := by omega
  have hcount : 1 ≤ current.toNat := by omega
  rw [if_neg hzero, checkedRepeatSize_eq hsource hpositive hmax]
  by_cases hfits : current.toNat * span.bytes.length ≤ intMax
  · have hwritten := repeatBytes_copies (List.length_pos_iff.mp hsource) hcount
      (List.length_replicate (n := current.toNat * span.bytes.length) (a := (0 : UInt8)))
    rw [if_pos hfits, if_neg (Nat.not_lt.mpr hfits), if_neg (Nat.mul_pos hcount hsource).ne']
    simp only [hwritten]
    rfl
  · rw [if_neg hfits, if_pos (Nat.not_le.mp hfits)]
    rfl

section Outcome

variable {converter : NativeToUtf8} {values : List StringView} {times : List Int}

/-- One record after the other, on inputs that are prepared. -/
theorem mapM_dupTask {converted : Converted}
    (hprepared : Prepared converter values values.length converted)
    (htimes : ∀ current ∈ times, current ≤ intMax) :
    (List.range (recyclingLength values.length times.length).1).mapM
        (dupTask values converted times) =
      (repeatedTexts converter values times).mapError .thrown := by
  have htexts : values.mapM (sourceText converter) = .ok
      ((List.range values.length).map fun index => textOf (inputAt values converted index)) := by
    conv_lhs => rw [← map_range_getD values .na, List.mapM_map]
    exact mapM_of_ok fun index hindex => (hprepared.reads index (List.mem_range.mp hindex)).2
  rw [repeatedTexts, htexts]
  refine Eq.trans ?_ (mapM_mapError Fault.thrown _ _)
  apply mapM_congr
  intro index hindex
  have hvectorize := List.mem_range.mp hindex
  -- There are records and counts, since there are results.
  have hnonempty : 0 < values.length ∧ 0 < times.length := by
    rw [recyclingLength] at hvectorize
    split at hvectorize
    next => exact absurd hvectorize (Nat.not_lt_zero _)
    next => omega
  have hinside := Nat.mod_lt index hnonempty.1
  have hcount : times.getD (index % times.length) naInteger ≤ intMax := by
    have hmem := List.getElem_mem (Nat.mod_lt index hnonempty.2)
    rw [List.getD_eq_getElem?_getD, List.getElem?_eq_getElem (Nat.mod_lt index hnonempty.2)]
    exact htimes _ hmem
  rw [dupTask, dupRecord_eq (hprepared.reads _ hinside).1 hcount]
  simp [List.getD_eq_getElem?_getD, hinside]

theorem loopResult_mapError {Value : Type} (result : Except NativeError (List Value)) :
    loopResult faultText (result.mapError .thrown) = loopResult NativeError.text result := by
  cases result with
  | error error => rfl
  | ok records => rfl

end Outcome

/-- Whatever the settings and the schedule, the operation repeats every text and raises the
first error there is: conversions come before sizes, and both in order. -/
theorem ciDup_eq (converter : NativeToUtf8) (settings : Settings) (values : List StringView)
    (times : List Int) (schedule : List Nat) (hnormal : ∀ value ∈ values, Normalized value)
    (htimes : ∀ current ∈ times, current ≤ intMax) :
    (FairFor settings (recyclingLength values.length times.length).1 schedule →
      (ciDup values times converter settings schedule).isSome = true) ∧
    ∀ outcome, ciDup values times converter settings schedule = some outcome →
      outcome = loopResult NativeError.text (if values = [] ∨ times = [] then .ok []
        else repeatedTexts converter values times) := by
  have hempty : (recyclingLength values.length times.length).1 > 0 ↔
      ¬ (values = [] ∨ times = []) := by
    rw [recyclingLength]
    split
    next hnone =>
      simp only [gt_iff_lt, Nat.lt_irrefl, false_iff, not_not]
      simpa using hnone
    next hsome =>
      have hlengths : 0 < values.length ∧ 0 < times.length := by omega
      constructor
      · rintro - (rfl | rfl)
        · exact absurd hlengths.1 (Nat.lt_irrefl _)
        · exact absurd hlengths.2 (Nat.lt_irrefl _)
      · intro _
        dsimp only
        split <;> omega
  unfold ciDup
  dsimp only
  by_cases hnone : values = [] ∨ times = []
  · rw [if_neg (by rw [hempty, not_not]; exact hnone), if_pos hnone]
    refine ⟨fun _ => rfl, ?_⟩
    rintro outcome ⟨⟩
    rfl
  rw [if_pos (hempty.mpr hnone), if_neg hnone]
  -- all conversions come first; the region then only repeats
  have hstart : Prepared converter values ([] : List StringView).length {} := by
    refine ⟨.inl rfl, fun index _ => ?_, fun index slot hslot => ?_, fun index hindex => ?_⟩
    · rfl
    · exact absurd hslot (by simp)
    · exact absurd hindex (Nat.not_lt_zero _)
  obtain ⟨converted, hpreflight, hprepared⟩ | ⟨error, hpreflight, hfailed⟩ :=
    @preflightInputs_spec _ _ _ hnormal _ _ _ (List.nil_append values).symm hstart
  · rw [List.length_nil] at hpreflight
    rw [hpreflight]
    refine ⟨fun hfair => runItems_isSome hfair, fun outcome houtcome => ?_⟩
    have hitems := runItems_eq (itemSpec (dupTask values converted times) faultText
      (recyclingLength values.length times.length).1) rfl houtcome
    have hdescribe : (dupBody values converted times).describeError = faultText := rfl
    rw [hitems, mapM_dupTask hprepared htimes]
    exact loopResult_mapError _
  · rw [List.length_nil] at hpreflight
    rw [hpreflight]
    refine ⟨fun _ => rfl, ?_⟩
    rintro outcome ⟨⟩
    rw [repeatedTexts, hfailed]
    rfl

/-- Two strings and four counts on two workers: a mark is cut off, a missing string and a
missing count stay missing. -/
theorem ciDup_repeats_on_two_workers :
    let values : List StringView :=
      [⟨.bytes ⟨100, [0xef, 0xbb, 0xbf, 0xc3, 0xa9], by decide⟩, .utf8⟩, .na]
    ∃ outcome, ciDup values [3, 1, naInteger, 2] Width.sampleConverter ⟨2, 128, 1⟩
        ((List.range 60).map (· % 2)) = some outcome ∧
      outcome = .ok [some (some ⟨[0xc3, 0xa9, 0xc3, 0xa9, 0xc3, 0xa9], .utf8⟩), some none,
        some none, some none] := by
  intro values
  obtain ⟨hfair, hdups⟩ := ciDup_eq Width.sampleConverter ⟨2, 128, 1⟩ values
    [3, 1, naInteger, 2] ((List.range 60).map (· % 2))
    (by
      intro value hvalue
      obtain rfl | hrest := List.mem_cons.mp hvalue
      · exact .inr ⟨_, rfl⟩
      · obtain rfl := List.mem_singleton.mp hrest
        exact .inl rfl)
    (by decide)
  obtain ⟨outcome, houtcome⟩ := Option.isSome_iff_exists.mp (hfair (by decide))
  exact ⟨outcome, houtcome, (hdups outcome houtcome).trans (by decide)⟩

end Charr.Repeat
