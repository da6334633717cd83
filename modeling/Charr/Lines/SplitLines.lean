import Charr.Lines.Files
import Charr.Parallel.Items
import Charr.Substring.RecycledOrder

/-!
# Splitting vectors into lines

Every string is split as often as it is recycled. One worker walks over the results source by
source; several workers take a source each, or a result each when there is one source. Both
leave the same lines.
-/

namespace Charr.Lines

open Loops Parallel
open Charr.Substring (recycledOrder recycledOrderBegin recycledOrderNext groupedOrder)

/-! ## The operation -/

/-- The index behind: a source length further, or at the start of the next residue. -/
def vectorizeNext (index sourceLength outputLength : Nat) : Nat :=
  if index + outputLength % sourceLength + 1 = outputLength then outputLength
  -- The comparison comes before the sum, which could overflow.
  else if sourceLength ≥ outputLength - index then index % sourceLength + 1
  else index + sourceLength

/-- `normalize_inputs`: bytes are refused where they stand. -/
def normalizeInputs (converter : NativeToUtf8) :
    SliceArena → List StringView → Except NativeError (List StringView)
  | _, [] => .ok []
  | storage, value :: rest =>
      if value.enc = .bytes then .error bytesEncodingError
      else do
        let (view, storage) ← normalizeUtf8 converter storage value
        let views ← normalizeInputs converter storage rest
        return view :: views

/-- The records of one result; nothing for a missing string. -/
abbrev Store := List (Option OutputRecord)

/-- `line_record`. -/
def sliceRecord (value : StringView) (line : LineSlice) : OutputRecord :=
  ⟨sliceBytes value.bytes line, if line.ascii then .ascii else .utf8⟩

/-- The lines of a string. -/
def buildStore (value : StringView) (omitEmpty keepTrailingEmpty : Bool) :
    Except NativeError Store := do
  let scan ← scanUtf8 (pointer value) value.len omitEmpty keepTrailingEmpty
  return scan.lines.map fun line => some (sliceRecord value line)

/-- `ci_split_lines1`; nothing when the string is returned as it is. -/
def ciSplitLines1 (converter : NativeToUtf8) (value : StringView) :
    Except NativeError (Option Store) := do
  let views ← normalizeInputs converter ⟨0⟩ [value]
  let view := views.getD 0 .na
  if view.isNa then return none else return some (← buildStore view false false)

section Operation

variable (normalized : List StringView) (omitValues : List Int)

/-- Whether empty lines are left out, recycled; what is missing counts as true. -/
def omitAt (index : Nat) : Bool := omitValues.getD (index % omitValues.length) 0 ≠ 0

/-- The lines for one result. -/
def splitOne (index : Nat) (value : StringView) : Except NativeError Store :=
  if value.isNa then .ok [none] else buildStore value (omitAt omitValues index) true

/-- The loop of a source over its results, from `index` on. -/
def strideIndices (sourceLength vectorizeLength : Nat) : Nat → Nat → List Nat
  | 0, _ => []
  | fuel + 1, index =>
      if index < vectorizeLength then
        index :: strideIndices sourceLength vectorizeLength fuel (index + sourceLength)
      else []

/-- One source, result by result: what was stored, and how the loop ended. -/
def splitEach (value : StringView) : List Nat → List (Nat × Store) × Ending NativeError
  | [] => ([], .next)
  | index :: rest =>
      match splitOne omitValues index value with
      | .error error => ([], .throws error)
      | .ok store =>
          let (writes, ending) := splitEach value rest
          ((index, store) :: writes, ending)

/-- The results a task stores. -/
def taskIndices (sourceLength vectorizeLength task : Nat) : List Nat :=
  if sourceLength = 1 then [task]
  else strideIndices sourceLength vectorizeLength (vectorizeLength + 1) task

/-- The region: a task splits a string for every result it is recycled to. -/
def splitBody (sourceLength vectorizeLength : Nat) : ParallelBody Unit Store NativeError where
  initial _ := ()
  task _ task _ :=
    let value := normalized.getD (if sourceLength = 1 then 0 else task) .na
    let (writes, ending) :=
      splitEach omitValues value (taskIndices sourceLength vectorizeLength task)
    { ending := ending, state := (), writes := writes }
  describeError := NativeError.text

/-- The loop of one worker, while there is fuel. -/
def splitWalk (sourceLength vectorizeLength : Nat) :
    Nat → Nat → List Store → Option (Except NativeError (List Store))
  | 0, _, _ => none
  | fuel + 1, index, stores =>
      if index < vectorizeLength then
        match splitOne omitValues index (normalized.getD (index % sourceLength) .na) with
        | .error error => some (.error error)
        | .ok store =>
            splitWalk sourceLength vectorizeLength fuel
              (vectorizeNext index sourceLength vectorizeLength) (stores.set index store)
      else some (.ok stores)

/-- A task for each string, or for each result where there is one string. -/
def splitTasks (sourceLength vectorizeLength : Nat) : Nat :=
  if vectorizeLength = 0 then 0 else if sourceLength = 1 then vectorizeLength else sourceLength

/-- The part of `ci_split_lines` behind the normalization. -/
def splitStores (settings : Settings) (sourceLength vectorizeLength : Nat)
    (schedule : List Nat) : Option (Except String (List (Option Store))) :=
  let tasks := splitTasks sourceLength vectorizeLength
  let plan := parallelPlan settings true tasks
  if plan.workers = 1 then do
    let stores ← splitWalk normalized omitValues sourceLength vectorizeLength
      (vectorizeLength + 1) 0 (List.replicate vectorizeLength [])
    return loopResult NativeError.text stores
  else do
    let regionEnd ← runParallel plan tasks
      (splitBody normalized omitValues sourceLength vectorizeLength)
      (fun index => if index < vectorizeLength then some [] else none) schedule
    return regionResult NativeError.text vectorizeLength regionEnd

end Operation

/-- Whether the recycling rule was warned about, and the result. -/
structure SplitOutcome where
  recyclingWarning : Bool
  result : Except String (List (Option Store))

/-- `ci_split_lines`. -/
def ciSplitLines (converter : NativeToUtf8) (settings : Settings) (values : List StringView)
    (omitEmpty : List Int) (schedule : List Nat) : Option SplitOutcome := do
  let (vectorizeLength, recyclingWarning) := recyclingLength values.length omitEmpty.length
  let normalized :=
    if vectorizeLength > 0 then normalizeInputs converter ⟨0⟩ values else .ok []
  match normalized with
  | .error error => return ⟨recyclingWarning, .error error.text⟩
  | .ok normalized => do
      let result ← splitStores normalized omitEmpty settings values.length vectorizeLength schedule
      return ⟨recyclingWarning, result⟩

/-! ## One result -/

/-- The records of a text: its lines, and what is left behind the last terminator. -/
def IsSplit (value : StringView) (omitEmpty : Bool) (store : Store) : Prop :=
  if value.isNa then store = [none]
  else
    ∃ pieces last, Splits value.bytes pieces last ∧
      store = ((pieces.map Prod.fst ++ [last]).filter fun line => !omitEmpty || line ≠ []).map
        fun line => some (lineRecord line)

/-- What `split_one` stores. -/
def lineStore (value : StringView) (omitEmpty : Bool) : Store :=
  if value.isNa then [none]
  else (scanBytes value.bytes omitEmpty true).lines.map fun line => some (sliceRecord value line)

/-- The record of a slice is that of the line. -/
theorem sliceRecord_eq {value : StringView} {line : LineSlice} {omitEmpty keepTrailingEmpty : Bool}
    (hline : line ∈ (scanBytes value.bytes omitEmpty keepTrailingEmpty).lines) :
    sliceRecord value line = lineRecord (sliceBytes value.bytes line) := by
  obtain ⟨pieces, last, hsplits⟩ := exists_splits value.bytes
  have hlaw := scanBytes_law hsplits keepTrailingEmpty
  have hkept : line ∈ (scanBytes value.bytes false keepTrailingEmpty).lines := by
    cases omitEmpty with
    | false => exact hline
    | true =>
        rw [hlaw.omitted] at hline
        exact (List.mem_filter.mp hline).1
  have hascii : line.ascii = isAscii (sliceBytes value.bytes line) := by
    rw [Bool.eq_iff_iff, hlaw.ascii line hkept]
    simp [isAscii]
  rw [sliceRecord, lineRecord, hascii]

/-- A store of lines is what a split is to give. -/
theorem isSplit_lineStore (value : StringView) (omitEmpty : Bool) :
    IsSplit value omitEmpty (lineStore value omitEmpty) := by
  unfold IsSplit lineStore
  split
  next => rfl
  next =>
    obtain ⟨pieces, last, hsplits⟩ := exists_splits value.bytes
    have hlines := scannedLines_eq hsplits omitEmpty true
    simp only [or_true, if_true] at hlines
    refine ⟨pieces, last, hsplits, ?_⟩
    rw [← hlines, scannedLines, List.map_map]
    exact List.map_congr_left fun line hline => congrArg some (sliceRecord_eq hline)

/-- A normalized string is always split. -/
theorem splitOne_eq {value : StringView} (hvalue : Normalized value) (omitValues : List Int)
    (index : Nat) :
    splitOne omitValues index value = .ok (lineStore value (omitAt omitValues index)) := by
  unfold splitOne lineStore
  split
  next => rfl
  next hpresent =>
    obtain hna | ⟨span, hspan⟩ := hvalue
    · exact absurd hna hpresent
    · have hbytes : value.bytes = span.bytes := by rw [StringView.bytes, hspan]
      have hpointer : pointer value = some value.bytes := by rw [pointer, hspan, hbytes]
      have hlen : value.len = value.bytes.length := by rw [StringView.len, hspan, hbytes]
      rw [buildStore, hpointer, hlen, scanUtf8_some]
      rfl

/-- Every view is normalized. -/
theorem normalizeInputs_spec {converter : NativeToUtf8} {storage : SliceArena}
    {values views : List StringView}
    (hviews : normalizeInputs converter storage values = .ok views) :
    views.length = values.length ∧ ∀ view ∈ views, Normalized view := by
  induction values generalizing storage views with
  | nil =>
      obtain rfl := Except.ok.inj hviews
      simp
  | cons value rest ih =>
      rw [normalizeInputs] at hviews
      split at hviews
      · cases hviews
      · obtain ⟨⟨view, storage⟩, hview, hviews⟩ := except_bind_ok hviews
        obtain ⟨others, hothers, hreturn⟩ := except_bind_ok hviews
        obtain rfl : view :: others = views := Except.ok.inj hreturn
        obtain ⟨hlength, hall⟩ := ih hothers
        rw [List.length_cons, List.length_cons, hlength]
        exact ⟨rfl, List.forall_mem_cons.mpr ⟨normalized_normalizeUtf8 hview, hall⟩⟩

/-! ## One string -/

/-- The marks under which the bytes of a string are its UTF-8, with or without a byte order mark.
Bytes that are marked as ASCII have to be ASCII. -/
def Utf8Marked (converter : NativeToUtf8) (bytes : List UInt8) : StringEncoding → Prop
  | .utf8 => True
  | .asciiOrUtf8 => True
  | .native => converter.nativeIsUtf8 = true
  | .ascii => ∀ byte ∈ bytes, byte < 0x80
  | _ => False

theorem bytes_borrowed_withoutBom (span : Span) (enc : StringEncoding) :
    ∃ text : Span, text.bytes = withoutBom span.bytes ∧
      borrowed (hasBom span.bytes) span enc = ⟨.bytes text, enc⟩ := by
  have hempty : ∀ part : Span,
      (if part.bytes.length = 0 then emptySpan else part).bytes = part.bytes := by
    intro part
    split
    next hzero => exact (List.length_eq_zero_iff.mp hzero).symm
    next => rfl
  refine ⟨_, ?_, rfl⟩
  rw [hempty, withoutBom]
  split
  next =>
    have hrest : (span.bytes.drop 3).length = span.bytes.length - 3 := List.length_drop
    exact List.take_of_length_le hrest.le
  next => rfl

/-- ASCII has no byte order mark. -/
theorem withoutBom_of_ascii {bytes : List UInt8} (hascii : ∀ byte ∈ bytes, byte < 0x80) :
    withoutBom bytes = bytes := by
  unfold withoutBom
  split
  next hbom =>
    simp only [hasBom, decide_eq_true_eq] at hbom
    have hmark : (0xef : UInt8) ∈ bytes :=
      List.mem_of_mem_take (hbom.2.symm ▸ List.mem_cons_self : (0xef : UInt8) ∈ bytes.take 3)
    exact absurd (hascii _ hmark) (by decide)
  next => rfl

/-- A string whose bytes are its UTF-8 loses no more than a byte order mark. -/
theorem normalizeUtf8_marked {converter : NativeToUtf8} {span : Span} {enc : StringEncoding}
    (hmarked : Utf8Marked converter span.bytes enc) (storage : SliceArena) :
    ∃ (text : Span) (mark : StringEncoding), text.bytes = withoutBom span.bytes ∧
      mark ≠ .missing ∧
      normalizeUtf8 converter storage ⟨.bytes span, enc⟩ = .ok (⟨.bytes text, mark⟩, storage) := by
  have hplain : hasBom span.bytes = false → withoutBom span.bytes = span.bytes := by
    intro hbom
    rw [withoutBom, hbom, if_neg Bool.false_ne_true]
  cases enc with
  | utf8 =>
      cases hbom : hasBom span.bytes with
      | false =>
          refine ⟨span, .utf8, (hplain hbom).symm, by decide, ?_⟩
          simp [normalizeUtf8, StringView.isNa, hbom]
      | true =>
          obtain ⟨text, htext, hborrowed⟩ := bytes_borrowed_withoutBom span .utf8
          refine ⟨text, .utf8, htext, by decide, ?_⟩
          rw [← hborrowed]
          simp [normalizeUtf8, normalizeUtf8Slow, StringView.isNa, hbom]
  | asciiOrUtf8 =>
      cases hbom : hasBom span.bytes with
      | false =>
          refine ⟨span, .asciiOrUtf8, (hplain hbom).symm, by decide, ?_⟩
          simp [normalizeUtf8, StringView.isNa, hbom]
      | true =>
          obtain ⟨text, htext, hborrowed⟩ := bytes_borrowed_withoutBom span .utf8
          refine ⟨text, .utf8, htext, by decide, ?_⟩
          rw [← hborrowed]
          simp [normalizeUtf8, normalizeUtf8Slow, StringView.isNa, hbom]
  | native =>
      have hnative : converter.nativeIsUtf8 = true := hmarked
      obtain ⟨text, htext, hborrowed⟩ := bytes_borrowed_withoutBom span .utf8
      refine ⟨text, .utf8, htext, by decide, ?_⟩
      rw [← hborrowed]
      simp [normalizeUtf8, normalizeUtf8Slow, StringView.isNa, hnative]
  | ascii =>
      refine ⟨span, .ascii, (withoutBom_of_ascii hmarked).symm, by decide, ?_⟩
      simp [normalizeUtf8, StringView.isNa]
  | latin1 => exact absurd hmarked id
  | bytes => exact absurd hmarked id
  | missing => exact absurd hmarked id
  | unknown => exact absurd hmarked id

/-- A string whose bytes are its UTF-8 is split where a file with its bytes is; reading the file
repairs the lines. -/
theorem ciSplitLines1_eq {converter : NativeToUtf8} (strerror : Nat → String)
    (description encoding : String) {span : Span} {enc : StringEncoding}
    (hmarked : Utf8Marked converter span.bytes enc) :
    ∃ pieces last, Splits (withoutBom span.bytes) pieces last ∧
      let lines := pieces.map Prod.fst ++
        if withoutBom span.bytes = [] ∨ last ≠ [] then [last] else []
      ciSplitLines1 converter ⟨.bytes span, enc⟩ =
          .ok (some (lines.map fun line => some (lineRecord line))) ∧
        ciReadLines strerror (some description) (some encoding) (.contents span.bytes) =
          readText (withoutBom span.bytes) lines := by
  obtain ⟨pieces, last, hsplits⟩ := exists_splits (withoutBom span.bytes)
  have hread := ciReadLines_of_splits strerror description encoding hsplits
  rw [if_neg (Nat.not_lt.mpr span.length_le)] at hread
  refine ⟨pieces, last, hsplits, ?_, hread⟩
  obtain ⟨text, mark, htext, hmark, hnormal⟩ := normalizeUtf8_marked hmarked ⟨0⟩
  have hbytes : enc ≠ .bytes := by
    rintro rfl
    exact hmarked
  have hviews : normalizeInputs converter ⟨0⟩ [⟨.bytes span, enc⟩] =
      .ok [⟨.bytes text, mark⟩] := by
    rw [normalizeInputs, if_neg hbytes, hnormal]
    rfl
  have hpresent : StringView.isNa ⟨.bytes text, mark⟩ = false := decide_eq_false hmark
  have hstore : buildStore ⟨.bytes text, mark⟩ false false =
      .ok ((scanBytes text.bytes false false).lines.map fun line =>
        some (sliceRecord ⟨.bytes text, mark⟩ line)) := by
    simp only [buildStore, pointer, StringView.len, scanUtf8_some]
    rfl
  have hlines := scannedLines_eq hsplits false false
  rw [← htext] at hlines ⊢
  simp only [Bool.false_eq_true, or_false, Bool.not_false, Bool.true_or, List.filter_true]
    at hlines
  rw [ciSplitLines1, hviews, ← hlines, scannedLines, List.map_map]
  simp only [bind, Except.bind, List.getD_cons_zero, hpresent, Bool.false_eq_true, if_false,
    hstore, pure, Except.pure]
  refine congrArg (fun store => Except.ok (some store)) (List.map_congr_left fun line hline => ?_)
  exact congrArg some (sliceRecord_eq hline)

/-- Two lines behind a byte order mark, in a native string where native text is UTF-8. -/
theorem ciSplitLines1_eq_native :
    let span : Span := ⟨100, [0xef, 0xbb, 0xbf, 0x61, 0x0a, 0x62], by decide⟩
    ∃ lines, ciSplitLines1 sampleConverter ⟨.bytes span, .native⟩ =
        .ok (some (lines.map fun line => some (lineRecord line))) ∧
      ciReadLines (fun _ => "") (some "lines.txt") (some "UTF-8") (.contents span.bytes) =
        readText [0x61, 0x0a, 0x62] lines := by
  intro span
  obtain ⟨pieces, last, -, hsplit, hread⟩ := @ciSplitLines1_eq sampleConverter (fun _ => "")
    "lines.txt" "UTF-8" span .native rfl
  exact ⟨_, hsplit, hread⟩

/-! ## The walk of one worker -/

section Walk

variable {normalized : List StringView} (omitValues : List Int)
  {sourceLength vectorizeLength : Nat}

/-- The store of a result. -/
def storeAt (normalized : List StringView) (omitValues : List Int) (sourceLength index : Nat) :
    Store :=
  lineStore (normalized.getD (index % sourceLength) .na) (omitAt omitValues index)

/-- The walk goes in recycled order. -/
theorem vectorizeNext_eq (hsource : 0 < sourceLength) (index : Nat) :
    vectorizeNext index sourceLength vectorizeLength =
      recycledOrderNext index sourceLength vectorizeLength := by
  have hsame : index + vectorizeLength % sourceLength + 1 = vectorizeLength ↔
      index + 1 + vectorizeLength % sourceLength = vectorizeLength := by
    omega
  rw [vectorizeNext, recycledOrderNext, if_neg hsource.ne']
  simp only [hsame]

/-- Values that are set one after the other. -/
def setAll {Value : Type} (value : Nat → Value) (order : List Nat) (stores : List Value) :
    List Value :=
  order.foldl (fun stores index => stores.set index (value index)) stores

/-- What is set is there, and the rest is as it was. -/
theorem getElem?_setAll {Value : Type} (value : Nat → Value) (order : List Nat)
    (stores : List Value) (index : Nat) :
    (setAll value order stores)[index]? =
      if index ∈ order ∧ index < stores.length then some (value index) else stores[index]? := by
  induction order generalizing stores with
  | nil => simp [setAll]
  | cons first rest ih =>
      have hstep : setAll value (first :: rest) stores =
          setAll value rest (stores.set first (value first)) := rfl
      rw [hstep, ih]
      simp only [List.length_set, List.mem_cons, List.getElem?_set]
      by_cases hfirst : first = index
      · subst hfirst
        by_cases hinside : first < stores.length
        · simp [hinside]
        · simp [hinside]
      · simp [hfirst, Ne.symm hfirst]

/-- An order that goes over all indices leaves all values. -/
theorem setAll_of_perm {Value : Type} (value : Nat → Value) {order : List Nat}
    {stores : List Value} (hperm : order.Perm (List.range stores.length)) :
    setAll value order stores = (List.range stores.length).map value := by
  apply List.ext_getElem?
  intro index
  rw [getElem?_setAll, List.getElem?_map]
  simp only [hperm.mem_iff, List.mem_range, and_self]
  split
  next hinside => rw [List.getElem?_range hinside]; rfl
  next houtside =>
    have hnone := Nat.not_lt.mp houtside
    rw [List.getElem?_eq_none hnone, List.getElem?_eq_none (by simpa using hnone)]
    rfl

variable (hnormal : ∀ index, Normalized (normalized.getD index .na))
include hnormal

/-- The serial walk sets every store. -/
theorem splitWalk_eq (hsource : 0 < sourceLength) (fuel : Nat) {index : Nat} {order : List Nat}
    (horder : recycledOrder sourceLength vectorizeLength fuel index = some order)
    (stores : List Store) :
    splitWalk normalized omitValues sourceLength vectorizeLength fuel index stores =
      some (.ok (setAll (storeAt normalized omitValues sourceLength) order stores)) := by
  induction fuel generalizing index order stores with
  | zero => cases horder
  | succ fuel ih =>
      rw [recycledOrder] at horder
      rw [splitWalk]
      split
      next hindex =>
        rw [if_pos hindex] at horder
        obtain ⟨rest, hrest, hreturn⟩ := Option.bind_eq_some_iff.mp horder
        obtain rfl : index :: rest = order := Option.some.inj hreturn
        rw [splitOne_eq (hnormal _)]
        simp only [vectorizeNext_eq hsource]
        exact ih hrest _
      next hindex =>
        rw [if_neg hindex] at horder
        obtain rfl := Option.some.inj horder
        rfl

/-- The walk leaves every result. -/
theorem splitWalk_all (hsource : 0 < sourceLength) :
    splitWalk normalized omitValues sourceLength vectorizeLength (vectorizeLength + 1) 0
        (List.replicate vectorizeLength []) =
      some (.ok ((List.range vectorizeLength).map
        (storeAt normalized omitValues sourceLength))) := by
  have horder := Substring.recycledOrder_groups hsource vectorizeLength
  rw [recycledOrderBegin, if_neg hsource.ne'] at horder
  have hperm : (groupedOrder sourceLength vectorizeLength).Perm
      (List.range (List.replicate vectorizeLength ([] : Store)).length) := by
    rw [List.length_replicate]
    exact Substring.groupedOrder_perm hsource
  rw [splitWalk_eq omitValues hnormal hsource _ horder, setAll_of_perm _ hperm,
    List.length_replicate]

end Walk

/-! ## Several workers -/

section Workers

variable {normalized : List StringView} (omitValues : List Int)
  {sourceLength vectorizeLength : Nat}

/-- A task has the results that its string is recycled to. -/
theorem mod_of_mem_strideIndices (fuel : Nat) {start index : Nat}
    (hmem : index ∈ strideIndices sourceLength vectorizeLength fuel start) :
    index % sourceLength = start % sourceLength ∧ index < vectorizeLength := by
  induction fuel generalizing start with
  | zero => cases hmem
  | succ fuel ih =>
      rw [strideIndices] at hmem
      split at hmem
      next hstart =>
        obtain rfl | hrest := List.mem_cons.mp hmem
        · exact ⟨rfl, hstart⟩
        · have hlater := ih hrest
          rwa [Nat.add_mod_right] at hlater
      next => cases hmem

/-- A source reaches every result of its residue. -/
theorem mem_strideIndices (hsource : 0 < sourceLength) (fuel : Nat) {start index : Nat}
    (hstart : start ≤ index) (hindex : index < vectorizeLength)
    (hmod : index % sourceLength = start % sourceLength) (hfuel : index - start < fuel) :
    index ∈ strideIndices sourceLength vectorizeLength fuel start := by
  induction fuel generalizing start with
  | zero => exact absurd hfuel (Nat.not_lt_zero _)
  | succ fuel ih =>
      rw [strideIndices, if_pos (hstart.trans_lt hindex)]
      obtain rfl | hless := Nat.eq_or_lt_of_le hstart
      · exact List.mem_cons_self
      · -- The next result of the residue is a whole stride away.
        have hgap : sourceLength ≤ index - start :=
          Nat.le_of_dvd (by omega) (Nat.dvd_of_mod_eq_zero (Nat.sub_mod_eq_zero_of_mod_eq hmod))
        apply List.mem_cons_of_mem
        apply ih (by omega) _ (by omega)
        rw [Nat.add_mod_right, hmod]

/-- A task writes the lines of its string for each of them. -/
theorem splitEach_eq {value : StringView} (hvalue : Normalized value) (indices : List Nat) :
    splitEach omitValues value indices =
      (indices.map fun index => (index, lineStore value (omitAt omitValues index)), .next) := by
  induction indices with
  | nil => rfl
  | cons index rest ih =>
      rw [splitEach, splitOne_eq hvalue, ih]
      rfl

variable (hnormal : ∀ index, Normalized (normalized.getD index .na))
include hnormal

/-- A task stores the results it is for, and never ends early. -/
theorem splitSpec (htasks : sourceLength = 1 ∨ splitTasks sourceLength vectorizeLength ≤
    sourceLength) :
    TaskSpec (splitBody normalized omitValues sourceLength vectorizeLength)
      (fun _ _ _ => True) (fun _ => .next)
      (fun task => (taskIndices sourceLength vectorizeLength task).map fun index =>
        (index, storeAt normalized omitValues sourceLength index))
      (splitTasks sourceLength vectorizeLength) where
  setup _ _ := ⟨rfl, rfl, rfl, trivial⟩
  enterChunk _ _ _ _ _ := ⟨rfl, rfl, trivial⟩
  task _ _ _ task _ _ htask _ _ := by
    have hsame : ∀ index ∈ taskIndices sourceLength vectorizeLength task,
        index % sourceLength = if sourceLength = 1 then 0 else task := by
      intro index hindex
      unfold taskIndices at hindex
      split at hindex
      next hone => rw [if_pos hone, hone, Nat.mod_one]
      next hmany =>
        have hless : task < sourceLength := by omega
        rw [if_neg hmany, (mod_of_mem_strideIndices _ hindex).1, Nat.mod_eq_of_lt hless]
    have hwrites : (taskIndices sourceLength vectorizeLength task).map (fun index =>
          (index, lineStore (normalized.getD (if sourceLength = 1 then 0 else task) .na)
            (omitAt omitValues index))) =
        (taskIndices sourceLength vectorizeLength task).map fun index =>
          (index, storeAt normalized omitValues sourceLength index) := by
      apply List.map_congr_left
      intro index hindex
      rw [storeAt, hsame index hindex]
    simp only [splitBody, splitEach_eq omitValues (hnormal _), hwrites]
    exact ⟨rfl, trivial, trivial⟩
  leaveChunk _ _ _ _ _ := ⟨rfl, rfl, trivial⟩

omit hnormal in
/-- Every result belongs to a task. -/
theorem exists_task (hsource : 0 < sourceLength) {index : Nat} (hindex : index < vectorizeLength)
    (hlength : sourceLength ≤ vectorizeLength) :
    ∃ task < splitTasks sourceLength vectorizeLength,
      index ∈ taskIndices sourceLength vectorizeLength task := by
  have hsome : vectorizeLength ≠ 0 := by omega
  unfold splitTasks taskIndices
  by_cases hone : sourceLength = 1
  · simp only [if_neg hsome, if_pos hone]
    exact ⟨index, hindex, List.mem_singleton_self _⟩
  · simp only [if_neg hsome, if_neg hone]
    exact ⟨index % sourceLength, Nat.mod_lt _ hsource,
      mem_strideIndices hsource _ (Nat.mod_le _ _) hindex (Nat.mod_mod _ _).symm (by omega)⟩

/-- Every schedule that ends leaves every result. -/
theorem splitStores_eq (hsource : 0 < sourceLength) (hlength : sourceLength ≤ vectorizeLength)
    {settings : Settings} {schedule : List Nat} {result : Except String (List (Option Store))}
    (hresult : splitStores normalized omitValues settings sourceLength vectorizeLength schedule =
      some result) :
    result = .ok ((List.range vectorizeLength).map fun index =>
      some (storeAt normalized omitValues sourceLength index)) := by
  unfold splitStores at hresult
  dsimp only at hresult
  split at hresult
  next =>
    rw [splitWalk_all omitValues hnormal hsource] at hresult
    obtain rfl := Option.some.inj hresult
    simp [loopResult]
  next =>
    obtain ⟨regionEnd, hrun, hreturn⟩ := Option.bind_eq_some_iff.mp hresult
    obtain rfl := Option.some.inj hreturn
    have htasks : sourceLength = 1 ∨
        splitTasks sourceLength vectorizeLength ≤ sourceLength := by
      unfold splitTasks
      by_cases hone : sourceLength = 1
      · exact .inl hone
      · rw [if_neg (by omega), if_neg hone]
        exact .inr le_rfl
    obtain ⟨houtcome, hstored⟩ := groups_result (splitSpec omitValues hnormal htasks) hrun
    simp only [regionResult, houtcome, Outcome.message]
    refine congrArg Except.ok (List.map_congr_left ?_)
    intro index hindex
    obtain ⟨task, htask, hmem⟩ :=
      exists_task hsource (List.mem_range.mp hindex) hlength
    exact hstored task htask index hmem

end Workers

/-- A fair schedule lets the split end. -/
theorem splitStores_isSome {views : List StringView} (omitEmpty : List Int) {settings : Settings}
    {sourceLength vectorizeLength : Nat} {schedule : List Nat}
    (hnormal : ∀ index, Normalized (views.getD index .na)) (hsource : 0 < sourceLength)
    (hfair : FairFor settings (splitTasks sourceLength vectorizeLength) schedule) :
    (splitStores views omitEmpty settings sourceLength vectorizeLength schedule).isSome = true := by
  unfold splitStores
  dsimp only
  split
  next =>
    rw [splitWalk_all omitEmpty hnormal hsource]
    rfl
  next =>
    obtain ⟨regionEnd, hrun⟩ := exists_runParallel_of_fair hfair
      fun index => if index < vectorizeLength then some [] else none
    rw [hrun]
    rfl

/-- Something is returned only for a vector with strings, and then for each of them. -/
theorem length_le_recyclingLength {first second vectorizeLength : Nat} {warning : Bool}
    (hlengths : recyclingLength first second = (vectorizeLength, warning))
    (hsome : 0 < vectorizeLength) : 0 < first ∧ first ≤ vectorizeLength := by
  unfold recyclingLength at hlengths
  split at hlengths
  · obtain ⟨rfl, -⟩ := Prod.mk.inj hlengths
    exact absurd hsome (Nat.lt_irrefl 0)
  next hpresent =>
    obtain ⟨rfl, -⟩ := Prod.mk.inj hlengths
    exact ⟨by omega, by split <;> omega⟩

/-- The settings and the schedule do not show: every result has the lines of its string. A string
that cannot be normalized is reported before anything is split. -/
theorem ciSplitLines_eq (converter : NativeToUtf8) (settings : Settings)
    (values : List StringView) (omitEmpty : List Int) (schedule : List Nat) :
    let vectorizeLength := (recyclingLength values.length omitEmpty.length).1
    (FairFor settings (splitTasks values.length vectorizeLength) schedule →
      (ciSplitLines converter settings values omitEmpty schedule).isSome = true) ∧
    ∀ outcome, ciSplitLines converter settings values omitEmpty schedule = some outcome →
      outcome.recyclingWarning = (recyclingLength values.length omitEmpty.length).2 ∧
      match normalizeInputs converter ⟨0⟩ values with
      | .error error =>
          outcome.result = if vectorizeLength = 0 then .ok [] else .error error.text
      | .ok views =>
          ∃ stores : List Store, outcome.result = .ok (stores.map some) ∧
            stores.length = vectorizeLength ∧
            ∀ index < vectorizeLength,
              IsSplit (views.getD (index % values.length) .na) (omitAt omitEmpty index)
                (stores.getD index []) := by
  dsimp only
  generalize hlengths : recyclingLength values.length omitEmpty.length = lengths
  obtain ⟨vectorizeLength, recyclingWarning⟩ := lengths
  unfold ciSplitLines
  rw [hlengths]
  dsimp only
  obtain rfl | hsome := Nat.eq_zero_or_pos vectorizeLength
  · -- Nothing is normalized, and there is no result.
    have hnone : splitStores [] omitEmpty settings values.length 0 schedule = some (.ok []) := by
      have hone : (parallelPlan settings true 0).workers = 1 := by simp [parallelPlan, clampWorkers]
      simp [splitStores, splitTasks, hone, splitWalk, loopResult]
    rw [if_neg (Nat.lt_irrefl 0)]
    simp only [hnone]
    refine ⟨fun _ => rfl, ?_⟩
    rintro outcome ⟨⟩
    refine ⟨rfl, ?_⟩
    cases normalizeInputs converter ⟨0⟩ values with
    | error error => rfl
    | ok views => exact ⟨[], rfl, rfl, fun index hindex => absurd hindex (Nat.not_lt_zero _)⟩
  · rw [if_pos hsome]
    have hsource := length_le_recyclingLength hlengths hsome
    cases hviews : normalizeInputs converter ⟨0⟩ values with
    | error error =>
        refine ⟨fun _ => rfl, ?_⟩
        rintro outcome ⟨⟩
        exact ⟨rfl, (if_neg hsome.ne').symm⟩
    | ok views =>
        obtain ⟨-, hall⟩ := normalizeInputs_spec hviews
        have hnormal : ∀ index, Normalized (views.getD index .na) :=
          fun index => normalized_getD hall index
        constructor
        -- one region splits all strings
        · intro hfair
          obtain ⟨result, hresult⟩ := Option.isSome_iff_exists.mp
            (splitStores_isSome omitEmpty hnormal hsource.1 hfair)
          simp only [hresult]
          rfl
        · intro outcome houtcome
          obtain ⟨result, hresult, hreturn⟩ := Option.bind_eq_some_iff.mp houtcome
          obtain rfl := Option.some.inj hreturn
          rw [splitStores_eq omitEmpty hnormal hsource.1 hsource.2 hresult]
          refine ⟨rfl, (List.range vectorizeLength).map
            (storeAt views omitEmpty values.length), ?_, by simp, ?_⟩
          · rw [List.map_map]
            rfl
          · intro index hindex
            have hstore : ((List.range vectorizeLength).map
                (storeAt views omitEmpty values.length)).getD index [] =
                storeAt views omitEmpty values.length index := by
              simp [List.getD_eq_getElem?_getD, List.getElem?_range hindex]
            rw [hstore]
            exact isSplit_lineStore _ _

end Charr.Lines
