import Charr.Parallel.Chunks
import Charr.Text.Normalize
import Charr.Width.CharWidth

/-!
# Widths of the records of a vector

One worker decodes record after record and fails at the first it cannot. On
several workers a pass over the whole vector comes first: it converts Latin-1 and
native records, and it refuses bytes-marked ones, before any record is decoded.
-/

namespace Charr.Width

open Parallel

/-- The error of a string marked as bytes. -/
def bytesEncoding : NativeError :=
  .striException "bytes encoding is not supported by this function"

/-- The error of a mark that the backend does not know. -/
def unknownEncoding : NativeError := .striException "unknown charport string encoding"

/-- The bytes a conversion returned. -/
def convertedBytes : ViewData → List UInt8
  | .null _ => []
  | .bytes span => span.bytes

/-! ## One worker -/

section Serial

variable (properties : Properties) (converter : NativeToUtf8)

/-- The width of a record; `converted` gives the bytes of a record that is neither
ASCII nor UTF-8. -/
def recordWidth (converted : Except NativeError (List UInt8)) (view : StringView) :
    Except NativeError Int :=
  match view.enc with
  | .missing => .ok naInteger
  | .ascii => .ok (asciiStringWidth view.bytes)
  | .bytes => .error bytesEncoding
  | .utf8 => widthString properties view.bytes
  | .asciiOrUtf8 => widthString properties view.bytes
  | .latin1 => converted >>= widthString properties
  | .native => converted >>= widthString properties
  | .unknown => .error unknownEncoding

/-- The inline conversion of the serial loop. -/
def convertInline (view : StringView) : Except NativeError (List UInt8) :=
  (if view.enc = .latin1 then converter.latin1 view.bytes else converter.native view.bytes).map
    convertedBytes

/-- The widths one record after another. -/
def serialWidths : List StringView → Except NativeError (List Int)
  | [] => .ok []
  | view :: rest => do
      let width ← recordWidth properties (convertInline converter view) view
      let widths ← serialWidths rest
      return width :: widths

end Serial

/-! ## Several workers -/

/-- The slot of each record in the converted values; no slots before the first
conversion. -/
structure Converted where
  slots : List (Option Nat) := []
  values : List StringView := []
  deriving DecidableEq

/-- Convert a record and note its slot. -/
def convertRecord (converter : NativeToUtf8) (size index : Nat) (view : StringView)
    (storage : SliceArena) (converted : Converted) :
    Except NativeError (SliceArena × Converted) := do
  let slots := if converted.slots = [] then List.replicate size none else converted.slots
  let slots := slots.set index (some converted.values.length)
  let (value, storage) ← normalizeUtf8 converter storage view
  return (storage, ⟨slots, converted.values ++ [value]⟩)

/-- The pass over the records from `index` on. -/
def preflightInputs (converter : NativeToUtf8) (size : Nat) :
    Nat → List StringView → SliceArena → Converted → Except NativeError Converted
  | _, [], _, converted => .ok converted
  | index, view :: rest, storage, converted =>
      if view.isNa then preflightInputs converter size (index + 1) rest storage converted
      else
        match view.enc with
        | .ascii => preflightInputs converter size (index + 1) rest storage converted
        | .utf8 => preflightInputs converter size (index + 1) rest storage converted
        | .asciiOrUtf8 => preflightInputs converter size (index + 1) rest storage converted
        | .latin1 => do
            let (storage, converted) ← convertRecord converter size index view storage converted
            preflightInputs converter size (index + 1) rest storage converted
        | .native => do
            let (storage, converted) ← convertRecord converter size index view storage converted
            preflightInputs converter size (index + 1) rest storage converted
        | .bytes => .error bytesEncoding
        | .missing => .error unknownEncoding
        | .unknown => .error unknownEncoding

/-- The record as the workers read it. -/
def inputAt (views : List StringView) (converted : Converted) (index : Nat) : StringView :=
  match converted.slots.getD index none with
  | some slot => converted.values.getD slot .na
  | none => views.getD index .na

/-- The region: every record on its own, with the inputs that were converted before. -/
def widthBody (properties : Properties) (views : List StringView) (converted : Converted) :
    ParallelBody Unit Int NativeError where
  initial _ := ()
  task _ index _ :=
    match recordWidth properties (.ok (inputAt views converted index).bytes)
        (views.getD index .na) with
    | .ok width => { ending := .next, state := (), writes := [(index, width)] }
    | .error error => { ending := .throws error, state := () }
  describeError := NativeError.text

/-! ## The operation -/

section Operation

variable (properties : Properties) (converter : NativeToUtf8)

/-- The result vector, or the text of the error. -/
def serialOutcome (views : List StringView) : Except String (List (Option Int)) :=
  match serialWidths properties converter views with
  | .ok widths => .ok (widths.map some)
  | .error error => .error error.text

/-- `ci_width`; with more than one worker the inputs are checked and converted first. -/
def ciWidth (settings : Settings) (views : List StringView) (schedule : List Nat) :
    Option (Except String (List (Option Int))) :=
  if views.length > 0 then
    let plan := parallelPlan settings true views.length
    if plan.workers > 1 then
      match preflightInputs converter views.length 0 views ⟨0⟩ {} with
      | .error error => some (.error error.text)
      | .ok converted => do
          let regionEnd ← runParallel plan views.length (widthBody properties views converted)
            (fun _ => none) schedule
          match regionEnd.outcome.message NativeError.text with
          | some message => return .error message
          | none => return .ok ((List.range views.length).map regionEnd.final.shared.result)
    else some (serialOutcome properties converter views)
  else some (.ok [])

end Operation

/-! ## The kinds of records -/

/-- A missing, ASCII, UTF-8 or bytes-marked record. -/
def ofKind (view : StringView) : Bool :=
  view.enc ∈ [StringEncoding.missing, .ascii, .utf8, .asciiOrUtf8, .bytes]

/-- The record is one that the first walk refuses. -/
def bytesMarked (view : StringView) : Bool := view.enc = .bytes

/-- The record is one that decoding refuses. -/
def illFormed (view : StringView) : Bool :=
  (view.enc = .utf8 || view.enc = .asciiOrUtf8) && !wellFormed view.bytes

/-- The first record that cannot be measured is ill-formed UTF-8, and a
bytes-marked one comes after it. -/
def Overtaken (views : List StringView) : Prop :=
  ∃ before view after, views = before ++ view :: after ∧
    (∀ earlier ∈ before, bytesMarked earlier = false ∧ illFormed earlier = false) ∧
    illFormed view = true ∧ ∃ later ∈ after, bytesMarked later = true

section Kinds

variable {properties : Properties} {converter : NativeToUtf8}

variable (properties) in
/-- Records of these kinds are not converted, and fail as their kind says. -/
theorem recordWidth_cases {view : StringView} (hkind : ofKind view = true) :
    (bytesMarked view = true ∧
      ∀ converted, recordWidth properties converted view = .error bytesEncoding) ∨
    (illFormed view = true ∧ bytesMarked view = false ∧
      ∀ converted, recordWidth properties converted view = .error invalidUtf8) ∨
    (bytesMarked view = false ∧ illFormed view = false ∧
      ∃ width, ∀ converted, recordWidth properties converted view = .ok width) := by
  unfold ofKind at hkind
  unfold bytesMarked illFormed recordWidth
  cases henc : view.enc with
  | missing => simp
  | ascii => simp
  | bytes => simp
  | utf8 =>
      cases hwell : wellFormed view.bytes with
      | true =>
          obtain ⟨width, hwidth⟩ := widthString_of_wellFormed properties hwell
          simp [hwidth]
      | false => simp [widthString_of_illFormed properties hwell]
  | asciiOrUtf8 =>
      cases hwell : wellFormed view.bytes with
      | true =>
          obtain ⟨width, hwidth⟩ := widthString_of_wellFormed properties hwell
          simp [hwidth]
      | false => simp [widthString_of_illFormed properties hwell]
  | latin1 => simp [henc] at hkind
  | native => simp [henc] at hkind
  | unknown => simp [henc] at hkind

variable (properties) in
/-- The failure of a record that is not converted. -/
def failureOf (view : StringView) : Option NativeError :=
  match recordWidth properties (.ok []) view with
  | .ok _ => none
  | .error error => some error

variable (properties) in
/-- The width of a record that is not refused. -/
def widthOf (view : StringView) : Int :=
  match recordWidth properties (.ok []) view with
  | .ok width => width
  | .error _ => naInteger

/-- A record has its width or its failure. -/
theorem recordWidth_eq {view : StringView} (hkind : ofKind view = true)
    (converted : Except NativeError (List UInt8)) :
    recordWidth properties converted view =
      match failureOf properties view with
      | none => .ok (widthOf properties view)
      | some error => .error error := by
  unfold failureOf widthOf
  rcases recordWidth_cases properties hkind with
    ⟨-, hwidth⟩ | ⟨-, -, hwidth⟩ | ⟨-, -, width, hwidth⟩
  · simp only [hwidth]
  · simp only [hwidth]
  · simp only [hwidth]

/-- A record fails for its mark or for its bytes. -/
theorem failureOf_eq {view : StringView} (hkind : ofKind view = true) :
    failureOf properties view =
      if bytesMarked view then some bytesEncoding
      else if illFormed view then some invalidUtf8 else none := by
  unfold failureOf
  rcases recordWidth_cases properties hkind with
    ⟨hbytes, hwidth⟩ | ⟨hill, hbytes, hwidth⟩ | ⟨hbytes, hill, width, hwidth⟩
  · simp only [hwidth, hbytes, if_true]
  · simp only [hwidth, hbytes, hill, if_true, Bool.false_eq_true, if_false]
  · simp only [hwidth, hbytes, hill, Bool.false_eq_true, if_false]

/-! ## Both paths as a scan for the first failure -/

/-- The serial loop gives all widths, or the first failure. -/
theorem serialWidths_eq {views : List StringView} (hkinds : ∀ view ∈ views, ofKind view = true) :
    serialWidths properties converter views =
      match views.findSome? (failureOf properties) with
      | none => .ok (views.map (widthOf properties))
      | some error => .error error := by
  induction views with
  | nil => rfl
  | cons view rest ih =>
      obtain ⟨hview, hrest⟩ := List.forall_mem_cons.mp hkinds
      rw [serialWidths, recordWidth_eq hview, ih hrest, List.findSome?_cons]
      cases failureOf properties view with
      | some error => rfl
      | none =>
          cases rest.findSome? (failureOf properties) with
          | none => rfl
          | some error => rfl

/-- The first walk fails at the first record marked as bytes. -/
theorem preflightInputs_eq {views : List StringView}
    (hkinds : ∀ view ∈ views, ofKind view = true) (size index : Nat) (storage : SliceArena)
    (converted : Converted) :
    preflightInputs converter size index views storage converted =
      if views.any bytesMarked then .error bytesEncoding else .ok converted := by
  induction views generalizing index with
  | nil => rfl
  | cons view rest ih =>
      obtain ⟨hview, hrest⟩ := List.forall_mem_cons.mp hkinds
      rw [preflightInputs, List.any_cons]
      unfold ofKind at hview
      cases henc : view.enc with
      | missing => simp [StringView.isNa, bytesMarked, henc, ih hrest]
      | ascii => simp [StringView.isNa, bytesMarked, henc, ih hrest]
      | utf8 => simp [StringView.isNa, bytesMarked, henc, ih hrest]
      | asciiOrUtf8 => simp [StringView.isNa, bytesMarked, henc, ih hrest]
      | bytes => simp [StringView.isNa, bytesMarked, henc]
      | latin1 => simp [henc] at hview
      | native => simp [henc] at hview
      | unknown => simp [henc] at hview

/-! ## The region -/

theorem ofKind_getD {views : List StringView} (hkinds : ∀ view ∈ views, ofKind view = true)
    (index : Nat) : ofKind (views.getD index .na) = true := by
  rw [List.getD_eq_getElem?_getD]
  cases hget : views[index]? with
  | none => rfl
  | some view => exact hkinds view (List.mem_of_getElem? hget)

variable (properties) in
/-- The region computes a result for every record. -/
theorem widthBody_eq_itemBody (views : List StringView) (converted : Converted) :
    widthBody properties views converted =
      itemBody (fun index => recordWidth properties
        (.ok (inputAt views converted index).bytes) (views.getD index .na)) NativeError.text := by
  unfold widthBody itemBody
  congr 1
  funext worker index state
  simp only
  cases recordWidth properties (.ok (inputAt views converted index).bytes)
      (views.getD index .na) with
  | ok width => rfl
  | error error => rfl

/-- A record that is not converted has one width, whatever the conversion gives. -/
theorem recordWidth_congr {view : StringView} (hkind : ofKind view = true)
    (converted other : Except NativeError (List UInt8)) :
    recordWidth properties converted view = recordWidth properties other view := by
  rw [recordWidth_eq hkind converted, recordWidth_eq hkind other]

variable (properties converter) in
theorem serialWidths_eq_mapM (views : List StringView) :
    serialWidths properties converter views =
      views.mapM fun view => recordWidth properties (convertInline converter view) view := by
  induction views with
  | nil => rfl
  | cons view rest ih => rw [serialWidths, ih, List.mapM_cons]

variable (converter) in
/-- The region gives what the serial loop gives. -/
theorem widthRegion_eq {views : List StringView} (hkinds : ∀ view ∈ views, ofKind view = true)
    {converted : Converted} {plan : ParallelPlan} {schedule : List Nat}
    {regionEnd : RegionEnd Unit Int NativeError}
    (hrun : runParallel plan views.length (widthBody properties views converted)
      (fun _ => none) schedule = some regionEnd) :
    (match regionEnd.outcome.message NativeError.text with
      | some message => Except.error message
      | none => .ok ((List.range views.length).map regionEnd.final.shared.result)) =
      serialOutcome properties converter views := by
  rw [widthBody_eq_itemBody] at hrun
  -- A task reads its record in the vector; the converted slot plays no part.
  have htasks : (List.range views.length).mapM (fun index => recordWidth properties
      (.ok (inputAt views converted index).bytes) (views.getD index .na)) =
        serialWidths properties converter views := by
    conv_rhs => rw [serialWidths_eq_mapM, ← map_range_getD views .na, List.mapM_map]
    congr 1
    funext index
    exact recordWidth_congr (ofKind_getD hkinds index) _ _
  have hregion := itemRegion_eq hrun
  rw [htasks] at hregion
  rw [serialOutcome]
  cases hmessage : regionEnd.outcome.message NativeError.text with
  | some message =>
      rw [hmessage] at hregion
      cases hwidths : serialWidths properties converter views with
      | ok widths =>
          rw [hwidths] at hregion
          cases hregion
      | error error =>
          rw [hwidths] at hregion
          exact hregion
  | none =>
      rw [hmessage] at hregion
      cases hwidths : serialWidths properties converter views with
      | ok widths =>
          rw [hwidths] at hregion
          exact hregion
      | error error =>
          rw [hwidths] at hregion
          cases hregion

end Kinds

/-! ## When the paths agree -/

/-- Where the walks disagree the serial failure is an ill-formed record. -/
theorem findSome_of_overtaken (properties : Properties) {views : List StringView}
    (hkinds : ∀ view ∈ views, ofKind view = true) (hovertaken : Overtaken views) :
    views.findSome? (failureOf properties) = some invalidUtf8 ∧
      views.any bytesMarked = true := by
  obtain ⟨before, view, after, rfl, hbefore, hill, later, hlater, hbytes⟩ := hovertaken
  have hview := hkinds view (by simp)
  have hmarked : bytesMarked view = false := by
    unfold illFormed at hill
    unfold bytesMarked
    cases henc : view.enc <;> simp [henc] at hill ⊢
  have hnone : before.findSome? (failureOf properties) = none := by
    rw [List.findSome?_eq_none_iff]
    intro earlier hearlier
    obtain ⟨hclean, hwell⟩ := hbefore earlier hearlier
    rw [failureOf_eq (hkinds earlier (by simp [hearlier])), hclean, hwell]
    rfl
  constructor
  · rw [List.findSome?_append, hnone, List.findSome?_cons, failureOf_eq hview, hmarked, hill]
    rfl
  · rw [List.any_eq_true]
    exact ⟨later, by simp [hlater], hbytes⟩

/-- A bytes-marked record is reported first unless it is overtaking. -/
theorem findSome_of_bytesMarked (properties : Properties) {views : List StringView}
    (hkinds : ∀ view ∈ views, ofKind view = true) (hbytes : views.any bytesMarked = true)
    (hnot : ¬ Overtaken views) :
    views.findSome? (failureOf properties) = some bytesEncoding := by
  induction views with
  | nil => exact absurd hbytes (by simp)
  | cons view rest ih =>
      obtain ⟨hview, hrest⟩ := List.forall_mem_cons.mp hkinds
      rw [List.findSome?_cons, failureOf_eq hview]
      cases hmarked : bytesMarked view with
      | true => rfl
      | false =>
          rw [List.any_cons, hmarked, Bool.false_or] at hbytes
          cases hill : illFormed view with
          | true =>
              obtain ⟨later, hlater, hlaterBytes⟩ := List.any_eq_true.mp hbytes
              exact absurd ⟨[], view, rest, rfl, by simp, hill, later, hlater, hlaterBytes⟩ hnot
          | false =>
              apply ih hrest hbytes
              rintro ⟨before, first, after, rfl, hbefore, hfirst⟩
              apply hnot
              refine ⟨view :: before, first, after, rfl, ?_, hfirst⟩
              rw [List.forall_mem_cons]
              exact ⟨⟨hmarked, hill⟩, hbefore⟩

/-- The width operation has the serial outcome on the given settings exactly when
it runs on one worker, or no ill-formed record that comes first is overtaken by a
bytes-marked one. -/
theorem ciWidth_serial_iff (properties : Properties) (converter : NativeToUtf8)
    (settings : Settings) (views : List StringView)
    (hkinds : ∀ view ∈ views, ofKind view = true) :
    (∀ schedule,
      ((∀ index < (parallelPlan settings true views.length).workers,
          scheduleBound (parallelPlan settings true views.length) views.length <
            schedule.count index) →
        (ciWidth properties converter settings views schedule).isSome = true) ∧
      ∀ outcome, ciWidth properties converter settings views schedule = some outcome →
        outcome = serialOutcome properties converter views) ↔
    ((parallelPlan settings true views.length).workers ≤ 1 ∨ ¬ Overtaken views) := by
  constructor
  · -- Several workers refuse the bytes-marked record before any is decoded.
    intro hall
    by_contra hcond
    simp only [not_or, not_not, Nat.not_le] at hcond
    obtain ⟨hworkers, hovertaken⟩ := hcond
    obtain ⟨hfirst, hbytes⟩ := findSome_of_overtaken properties hkinds hovertaken
    have hlength : views.length > 0 := by
      obtain ⟨before, view, after, rfl, -⟩ := hovertaken
      exact List.length_pos_of_ne_nil (by simp)
    have hthreaded : ciWidth properties converter settings views [] =
        some (.error bytesEncoding.text) := by
      unfold ciWidth
      rw [if_pos hlength]
      simp only [hworkers, if_true, preflightInputs_eq hkinds, hbytes]
    have hsame := (hall []).2 _ hthreaded
    rw [serialOutcome, serialWidths_eq hkinds, hfirst] at hsame
    exact absurd (Except.error.inj hsame) (by decide)
  -- one worker is the serial run; several read the records only if none is marked bytes
  · intro hcond schedule
    unfold ciWidth
    by_cases hlength : views.length > 0
    swap
    · obtain rfl : views = [] := List.length_eq_zero_iff.mp (by omega)
      rw [if_neg hlength]
      refine ⟨fun _ => rfl, ?_⟩
      rintro outcome ⟨⟩
      rfl
    rw [if_pos hlength]
    by_cases hworkers : (parallelPlan settings true views.length).workers > 1
    swap
    · simp only [hworkers, if_false]
      exact ⟨fun _ => rfl, fun outcome houtcome => (Option.some.inj houtcome).symm⟩
    simp only [hworkers, if_true, preflightInputs_eq hkinds]
    have hnot : ¬ Overtaken views := by
      rcases hcond with hserial | hnot
      · omega
      · exact hnot
    cases hbytes : views.any bytesMarked with
    | true =>
        refine ⟨fun _ => rfl, ?_⟩
        rintro outcome ⟨⟩
        rw [serialOutcome, serialWidths_eq hkinds,
          findSome_of_bytesMarked properties hkinds hbytes hnot]
    | false =>
        simp only [Bool.false_eq_true, if_false]
        constructor
        -- the region decodes the records
        · intro hfair
          rw [← regionWorkers_parallelPlan] at hfair
          obtain ⟨regionEnd, hrun⟩ := Option.isSome_iff_exists.mp (runRegion_isSome_of_fair _
            views.length (widthBody properties views {}) (fun _ => none) false schedule hfair)
          rw [runParallel, hrun]
          simp only [Option.bind_eq_bind, Option.bind_some]
          split <;> rfl
        · intro outcome houtcome
          obtain ⟨regionEnd, hrun, hreturn⟩ := Option.bind_eq_some_iff.mp houtcome
          rw [← widthRegion_eq converter hkinds hrun]
          split at hreturn
          next => exact (Option.some.inj hreturn).symm
          next => exact (Option.some.inj hreturn).symm

/-- Properties of ASCII text only. -/
def sampleProperties : Properties where
  category _ := .other
  eastAsianWidth _ := .narrow
  hangulSyllableType _ := .notApplicable
  emojiModifier _ := false
  emojiPresentation _ := false

/-- Conversions that nothing here needs. -/
def sampleConverter : NativeToUtf8 where
  native _ := .error (.runtimeError "no conversion")
  latin1 _ := .error (.runtimeError "no conversion")
  nativeIsUtf8 := true

/-- Without bytes-marked records two workers report the ill-formed one. -/
theorem ciWidth_reports_ill_formed :
    let views : List StringView := [⟨.bytes ⟨100, [65, 66], by decide⟩, .ascii⟩,
      ⟨.bytes ⟨200, [0xff], by decide⟩, .utf8⟩, .na]
    ∃ outcome, ciWidth sampleProperties sampleConverter ⟨2, 128, 1⟩ views
        ((List.range 40).map (· % 2)) = some outcome ∧
      outcome = .error "invalid UTF-8 byte sequence detected; try calling ci_enc_toutf8()" := by
  intro views
  have hclean : ∀ view ∈ views, bytesMarked view = false := by decide
  obtain ⟨hfair, hserial⟩ := (ciWidth_serial_iff sampleProperties sampleConverter ⟨2, 128, 1⟩
    views (by decide)).mpr (.inr (by
      rintro ⟨before, view, after, heq, -, -, later, hlater, hbytes⟩
      have hmem : later ∈ views := by simp [heq, hlater]
      exact absurd ((hclean later hmem).symm.trans hbytes) (by decide)))
    ((List.range 40).map (· % 2))
  obtain ⟨outcome, houtcome⟩ := Option.isSome_iff_exists.mp (hfair (by decide))
  exact ⟨outcome, houtcome, (hserial outcome houtcome).trans (by decide)⟩

/-- An ill-formed record before a bytes-marked one, on one worker and on two. -/
theorem ciWidth_reports_later_record :
    let views : List StringView := [⟨.bytes ⟨100, [0xff], by decide⟩, .utf8⟩,
      ⟨.bytes ⟨200, [0xff], by decide⟩, .bytes⟩]
    ciWidth sampleProperties sampleConverter ⟨1, 128, 256⟩ views [] =
        some (.error "invalid UTF-8 byte sequence detected; try calling ci_enc_toutf8()") ∧
      ciWidth sampleProperties sampleConverter ⟨2, 128, 1⟩ views [] =
        some (.error "bytes encoding is not supported by this function") ∧
      ciWidth sampleProperties sampleConverter ⟨2, 128, 1⟩ views [] ≠
        some (serialOutcome sampleProperties sampleConverter views) := by
  decide

end Charr.Width
