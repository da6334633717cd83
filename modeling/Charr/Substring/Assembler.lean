import Charr.Substring.Indexer
import Mathlib.Data.FinEnum

/-!
# Replacing several ranges of a string

`ReplacementAssembler::build` walks over the ranges of one string, with a code
point cursor and a byte cursor, and puts the output together on the way. What it
returns is what the ranges say, read as stretches of code points.
-/

namespace Charr.Substring

open Utf8 (fwd1 offset codePointCount tokens tokenBytes Token)

/-- A string in UTF-8, as the substring functions hold it. -/
structure FrameText where
  bytes : List UInt8
  isAscii : Bool
  length_le : bytes.length ≤ intMax
  ascii : isAscii = true → ∀ byte ∈ bytes, byte < 0x80

instance : DecidableEq FrameText
  | ⟨leftBytes, leftAscii, _, _⟩, ⟨rightBytes, rightAscii, _, _⟩ =>
      decidable_of_iff (leftBytes = rightBytes ∧ leftAscii = rightAscii) (by simp)

/-- `CiSubFrameInput`: a string, or a missing value. -/
abbrev FrameInput := Option FrameText

/-- What replacing can warn about. -/
inductive ReplacementWarning where
  | none
  | replacementZero
  | recycling
  | recyclingRule
  deriving DecidableEq, Repr

/-- A string as it is returned, and whether it is marked as ASCII. -/
structure OutputText where
  bytes : List UInt8
  ascii : Bool
  deriving DecidableEq, Repr

/-- A string or a missing one, with the warning that goes with it. -/
structure ReplacementResult where
  value : Option OutputText
  warning : ReplacementWarning
  deriving DecidableEq, Repr

/-- The error for sizes that cannot be counted. -/
def sizeOverflow : NativeError := .lengthError "character output size overflow"

/-- The error for a string over the size limit. -/
def outputTooLarge : NativeError := .lengthError "character output is too large"

/-- The error for ranges that overlap or are out of order. -/
def rangesUnsorted : NativeError :=
  .invalidArgument "index ranges must be sorted and mutually disjoint"

/-- The size with some more bytes, unless that is too large. -/
def checkedOutputSize (current additional : Nat) : Except NativeError Nat :=
  if additional > sizeMax - current then .error sizeOverflow
  else if current + additional > intMax then .error outputTooLarge
  else .ok (current + additional)

/-- Copy some bytes; nothing to copy is not checked. -/
def append (bytes data : List UInt8) : Except NativeError (List UInt8) :=
  if data = [] then .ok bytes
  else do
    let _ ← checkedOutputSize bytes.length data.length
    return bytes ++ data

/-! ## Positions -/

/-- The code point a start stands for, counted from zero. -/
def replacementAllFrom (start codepoints : Int) : Int :=
  let position := if start < 0 then codepoints + start + 1 else start
  let position := if position ≤ 0 then 1 else position
  let position := position - 1
  if position ≥ codepoints then codepoints else position

/-- The code point an end or a length stands for. -/
def replacementAllTo (stop : Int) (isLength : Bool) (start codepoints : Int) : Int :=
  let position :=
    if isLength then start + (if stop > 0 then stop else 0)
    else
      let position := if stop < 0 then codepoints + stop + 1 else stop
      if position < start then start else position
  if position ≥ codepoints then codepoints else position

/-! ## The arguments of a call -/

/-- Where the ranges of a string are, recycled to `vectorizeLength` of them. -/
structure Bounds where
  start : List Int
  stop : Option (List Int)
  lengths : Option (List Int)
  vectorizeLength : Nat
  deriving DecidableEq, Repr

/-- An element of a recycled vector. -/
def recycled {Value : Type} (values : List Value) (default : Value) (index : Nat) : Value :=
  values.getD (index % values.length) default

namespace Bounds

variable (bounds : Bounds)

/-- The recycled start. -/
def currentFrom (index : Nat) : Int := recycled bounds.start 0 index

/-- The recycled end, or the length in its place. -/
def currentTo (index : Nat) : Int :=
  match bounds.stop with
  | some stop => recycled stop 0 index
  | none => recycled (bounds.lengths.getD []) 0 index

/-- A range that is left out whatever its replacement is. -/
def skips (index : Nat) : Bool :=
  bounds.currentFrom index = naInteger || bounds.currentTo index = naInteger ||
    (bounds.stop.isNone && bounds.currentTo index < 0)

/-- Whether a bound is missing. -/
def hasNa : Bool :=
  (List.range bounds.vectorizeLength).any fun index =>
    bounds.currentFrom index = naInteger || bounds.currentTo index = naInteger

end Bounds

/-- The replacement of a range. -/
def replacementAt (replacements : List FrameInput) (index : Nat) : FrameInput :=
  recycled replacements none index

/-- Whether a replacement is missing. -/
def hasNaReplacement (replacements : List FrameInput) (vectorizeLength : Nat) : Bool :=
  (List.range vectorizeLength).any fun index => (replacementAt replacements index).isNone

/-! ## Putting the output together -/

/-- The output so far, and the two cursors. -/
structure Assembly where
  bytes : List UInt8
  replaced : Nat
  lastPosition : Int
  bytePosition : Nat
  deriving DecidableEq, Repr

/-- `U8_FWD_1` once for each code point up to `target`. -/
def advance (data : List UInt8) (position target : Int) (byte : Nat) : Nat :=
  (fwd1 data)^[(target - position).toNat] byte

/-- The bytes of a range. -/
def bytesFromTo (data : List UInt8) (start stop : Nat) : List UInt8 :=
  (data.drop start).take (stop - start)

section Build

variable (data : List UInt8) (codepoints : Nat) (replacements : List FrameInput) (bounds : Bounds)

/-- One range: what is in front of it is copied, then its replacement. -/
def buildStep (index : Nat) (assembly : Assembly) : Except NativeError Assembly :=
  match replacementAt replacements index with
  | none => .ok assembly
  | some replacement =>
      if bounds.skips index then .ok assembly
      else
        let currentFrom := replacementAllFrom (bounds.currentFrom index) codepoints
        let currentTo := replacementAllTo (bounds.currentTo index) bounds.lengths.isSome currentFrom
          codepoints
        if assembly.lastPosition > currentFrom then .error rangesUnsorted
        else do
          let beginByte := advance data assembly.lastPosition currentFrom assembly.bytePosition
          let bytes ← append assembly.bytes (bytesFromTo data assembly.bytePosition beginByte)
          let bytes ← append bytes replacement.bytes
          return {
            bytes := bytes
            replaced := assembly.replaced + 1
            lastPosition := max currentFrom currentTo
            bytePosition := advance data currentFrom currentTo beginByte }

/-- Range after range, up to the first that fails. -/
def buildLoop : List Nat → Assembly → Except NativeError Assembly
  | [], assembly => .ok assembly
  | index :: rest, assembly => do
      let assembly ← buildStep data codepoints replacements bounds index assembly
      buildLoop rest assembly

end Build

/-- The warning about replacements that do not recycle evenly. -/
def recyclingWarning (replaced vectorizeLength replacementLength : Nat) : ReplacementWarning :=
  if replaced > 0 && vectorizeLength % replacementLength ≠ 0 then .recycling else .none

/-- The string with its ranges replaced. -/
def build (source : FrameInput) (replacements : List FrameInput) (bounds : Bounds)
    (omitNa : Bool) : Except NativeError ReplacementResult :=
  match source with
  | none => .ok ⟨none, .none⟩
  | some text =>
      if bounds.vectorizeLength = 0 then .ok ⟨some ⟨text.bytes, text.isAscii⟩, .none⟩
      else if replacements.length = 0 then .ok ⟨none, .replacementZero⟩
      else if !omitNa &&
          (bounds.hasNa || hasNaReplacement replacements bounds.vectorizeLength) then
        .ok ⟨none, .none⟩
      else do
        let codepoints :=
          if text.isAscii then text.bytes.length
          else countLoop text.bytes text.bytes.length 0 0
        let assembly ← buildLoop text.bytes codepoints replacements bounds
          (List.range bounds.vectorizeLength) ⟨[], 0, 0, 0⟩
        let bytes ← append assembly.bytes (text.bytes.drop assembly.bytePosition)
        return ⟨some ⟨bytes, bytes.all fun byte => byte ≤ 0x7f⟩,
          recyclingWarning assembly.replaced bounds.vectorizeLength replacements.length⟩

/-! ## Ranges as code points -/

/-- The code points from `first` up to `last`, and what is to stand in their place. -/
structure Range where
  first : Nat
  last : Nat
  text : List UInt8
  deriving DecidableEq, Repr

/-- The range an index stands for, unless it is left out. -/
def rangeAt (codepoints : Nat) (replacements : List FrameInput) (bounds : Bounds) (index : Nat) :
    Option Range :=
  match replacementAt replacements index with
  | none => none
  | some replacement =>
      if bounds.skips index then none
      else
        let currentFrom := replacementAllFrom (bounds.currentFrom index) codepoints
        let currentTo := replacementAllTo (bounds.currentTo index) bounds.lengths.isSome currentFrom
          codepoints
        some ⟨currentFrom.toNat, currentTo.toNat, replacement.bytes⟩

/-- Where a replaced range begins is inside the text. -/
theorem replacementAllFrom_bounds (start : Int) (codepoints : Nat) :
    0 ≤ replacementAllFrom start codepoints ∧ replacementAllFrom start codepoints ≤ codepoints := by
  unfold replacementAllFrom
  simp only
  split_ifs <;> omega

/-- A replaced range ends behind its start, inside the text. -/
theorem replacementAllTo_bounds (stop : Int) (isLength : Bool) {start : Int} {codepoints : Nat}
    (hstart : start ≤ codepoints) :
    start ≤ replacementAllTo stop isLength start codepoints ∧
      replacementAllTo stop isLength start codepoints ≤ codepoints := by
  unfold replacementAllTo
  simp only
  split_ifs <;> omega

/-- The text of the code points from `first` up to `last`. -/
def codePointsBetween (data : List UInt8) (first last : Nat) : List UInt8 :=
  tokenBytes (((tokens data).drop first).take (last - first))

/-- An offset further on is behind the code points between. -/
theorem offset_add (data : List UInt8) (first count : Nat) :
    offset data (first + count) =
      offset data first + (codePointsBetween data first (first + count)).length := by
  unfold offset codePointsBetween
  rw [List.take_add, Utf8.tokenBytes_append, List.length_append, Nat.add_sub_cancel_left]

/-- The bytes between two offsets are those code points. -/
theorem bytesFromTo_offset (data : List UInt8) {first last : Nat} (hle : first ≤ last) :
    bytesFromTo data (offset data first) (offset data last) =
      codePointsBetween data first last := by
  obtain ⟨count, rfl⟩ := Nat.exists_eq_add_of_le hle
  have hsplit : tokenBytes ((tokens data).drop first) =
      codePointsBetween data first (first + count) ++
        tokenBytes (((tokens data).drop first).drop count) := by
    unfold codePointsBetween
    rw [Nat.add_sub_cancel_left, ← Utf8.tokenBytes_append, List.take_append_drop]
  unfold bytesFromTo
  rw [offset_add, Nat.add_sub_cancel_left, Utf8.drop_offset, hsplit, List.take_left]

theorem length_codePointsBetween_le (data : List UInt8) (first last : Nat) :
    (codePointsBetween data first last).length ≤ data.length := by
  rcases Nat.le_total first last with hle | hge
  · rw [← bytesFromTo_offset data hle]
    unfold bytesFromTo
    rw [List.length_take, List.length_drop]
    omega
  · unfold codePointsBetween
    rw [Nat.sub_eq_zero_of_le hge]
    exact Nat.zero_le _

/-- Advancing goes from offset to offset. -/
theorem advance_offset (data : List UInt8) {position target : Nat} (hle : position ≤ target)
    (htarget : target ≤ codePointCount data) :
    advance data position target (offset data position) = offset data target := by
  obtain ⟨count, rfl⟩ := Nat.exists_eq_add_of_le hle
  have hcount : ((position + count : Nat) - (position : Int)).toNat = count := by omega
  unfold advance
  rw [hcount]
  clear hcount hle
  induction count with
  | zero => rfl
  | succ count ih =>
      rw [Function.iterate_succ_apply', ih (by omega)]
      exact (Utf8.fwd1_offset data (by omega)).1

/-! ## The output without the cursors -/

/-- Put the ranges together one after the other, from the code point `last` on. -/
def assemble (data : List UInt8) :
    Nat → List UInt8 → List Range → Except NativeError (Nat × List UInt8)
  | last, bytes, [] => .ok (last, bytes)
  | last, bytes, range :: rest =>
      if range.first < last then .error rangesUnsorted
      else do
        let bytes ← append bytes (codePointsBetween data last range.first)
        let bytes ← append bytes range.text
        assemble data range.last bytes rest

/-- What a range has to be to be cut out. -/
structure Range.Fits (range : Range) (data : List UInt8) : Prop where
  le : range.first ≤ range.last
  inside : range.last ≤ codePointCount data
  small : range.text.length ≤ intMax

/-- A range of the call is a range of the text. -/
theorem rangeAt_fits {data : List UInt8} {replacements : List FrameInput} {bounds : Bounds}
    {index : Nat} {range : Range}
    (hrange : rangeAt (codePointCount data) replacements bounds index = some range) :
    range.Fits data := by
  unfold rangeAt at hrange
  split at hrange
  next => cases hrange
  next replacement hreplacement =>
    split at hrange
    next => cases hrange
    next =>
      cases hrange
      have hfrom := replacementAllFrom_bounds (bounds.currentFrom index) (codePointCount data)
      have hto := replacementAllTo_bounds (bounds.currentTo index) bounds.lengths.isSome hfrom.2
      refine ⟨?_, ?_, replacement.length_le⟩
      · simp only
        omega
      · simp only
        omega

/-- One range of the loop. -/
theorem buildStep_eq {data : List UInt8} {replacements : List FrameInput} {bounds : Bounds}
    {index last : Nat} (bytes : List UInt8) (replaced : Nat) :
    buildStep data (codePointCount data) replacements bounds index
        ⟨bytes, replaced, last, offset data last⟩ =
      match rangeAt (codePointCount data) replacements bounds index with
      | none => .ok ⟨bytes, replaced, last, offset data last⟩
      | some range =>
          if range.first < last then .error rangesUnsorted
          else do
            let bytes ← append bytes (codePointsBetween data last range.first)
            let bytes ← append bytes range.text
            return ⟨bytes, replaced + 1, range.last, offset data range.last⟩ := by
  unfold buildStep rangeAt
  cases replacementAt replacements index with
  | none => rfl
  | some replacement =>
      by_cases hskips : bounds.skips index = true
      · simp only [hskips, if_true]
      · have hfrom := replacementAllFrom_bounds (bounds.currentFrom index) (codePointCount data)
        have hto := replacementAllTo_bounds (bounds.currentTo index) bounds.lengths.isSome hfrom.2
        simp only [hskips]
        generalize replacementAllFrom (bounds.currentFrom index) (codePointCount data) = first at *
        generalize replacementAllTo (bounds.currentTo index) bounds.lengths.isSome first
          (codePointCount data) = stop at *
        obtain ⟨first, rfl⟩ := Int.eq_ofNat_of_zero_le hfrom.1
        obtain ⟨stop, rfl⟩ := Int.eq_ofNat_of_zero_le (hfrom.1.trans hto.1)
        rw [Int.ofNat_le] at hfrom hto
        simp only [Bool.false_eq_true, if_false, Int.toNat_natCast, gt_iff_lt, Int.ofNat_lt]
        by_cases hunsorted : first < last
        · rw [if_pos hunsorted, if_pos hunsorted]
        · have hle : last ≤ first := Nat.not_lt.mp hunsorted
          have hmax : max (first : Int) stop = stop := max_eq_right (Int.ofNat_le.mpr hto.1)
          rw [if_neg hunsorted, if_neg hunsorted, advance_offset data hle (by omega),
            advance_offset data hto.1 (by omega), bytesFromTo_offset data hle, hmax]

/-- The loop assembles the ranges behind each other. -/
theorem buildLoop_eq {data : List UInt8} {replacements : List FrameInput} {bounds : Bounds}
    (indices : List Nat) {last : Nat} (bytes : List UInt8) (replaced : Nat) :
    buildLoop data (codePointCount data) replacements bounds indices
        ⟨bytes, replaced, last, offset data last⟩ =
      (assemble data last bytes
        (indices.filterMap (rangeAt (codePointCount data) replacements bounds))).map
        fun reached => ⟨reached.2, replaced + (indices.filterMap
          (rangeAt (codePointCount data) replacements bounds)).length, reached.1,
          offset data reached.1⟩ := by
  induction indices generalizing last bytes replaced with
  | nil => rfl
  | cons index indices ih =>
      rw [buildLoop, buildStep_eq]
      cases hrange : rangeAt (codePointCount data) replacements bounds index with
      | none =>
          rw [List.filterMap_cons_none hrange]
          exact ih bytes replaced
      | some range =>
          rw [List.filterMap_cons_some hrange, assemble]
          by_cases hunsorted : range.first < last
          · simp only [hunsorted, if_true]
            rfl
          · simp only [hunsorted, if_false]
            cases append bytes (codePointsBetween data last range.first) with
            | error error => rfl
            | ok gap =>
                simp only [bind, Except.bind]
                cases append gap range.text with
                | error error => rfl
                | ok filled =>
                    simp only [pure, Except.pure]
                    rw [ih filled (replaced + 1), List.length_cons, Nat.add_assoc,
                      Nat.add_comm 1]

/-- The size is refused above the limit of R. -/
theorem checkedOutputSize_eq {current additional : Nat} (hcurrent : current ≤ intMax)
    (hadditional : additional ≤ intMax) :
    checkedOutputSize current additional =
      if intMax < current + additional then .error outputTooLarge
      else .ok (current + additional) := by
  have hroom : ¬ additional > sizeMax - current := by
    have hmax : intMax + intMax ≤ sizeMax := by decide
    omega
  unfold checkedOutputSize
  rw [if_neg hroom]

/-- What fits is appended, the rest is refused. -/
theorem append_eq {bytes data : List UInt8} (hbytes : bytes.length ≤ intMax)
    (hdata : data.length ≤ intMax) :
    append bytes data =
      if (bytes ++ data).length ≤ intMax then .ok (bytes ++ data) else .error outputTooLarge := by
  unfold append
  rw [List.length_append, checkedOutputSize_eq hbytes hdata]
  by_cases hempty : data = []
  · subst hempty
    simp [hbytes]
  · rw [if_neg hempty]
    by_cases hfits : bytes.length + data.length ≤ intMax
    · rw [if_neg (Nat.not_lt.mpr hfits), if_pos hfits]
      rfl
    · rw [if_pos (Nat.not_le.mp hfits), if_neg hfits]
      rfl

/-- Two pieces are appended if both fit. -/
theorem append_append_eq {bytes first second : List UInt8} (hbytes : bytes.length ≤ intMax)
    (hfirst : first.length ≤ intMax) (hsecond : second.length ≤ intMax)
    {Result : Type} (next : List UInt8 → Except NativeError Result) :
    (do
      let bytes ← append bytes first
      let bytes ← append bytes second
      next bytes) =
      if (bytes ++ first ++ second).length ≤ intMax then next (bytes ++ first ++ second)
      else .error outputTooLarge := by
  rw [append_eq hbytes hfirst]
  by_cases hgap : (bytes ++ first).length ≤ intMax
  · rw [if_pos hgap]
    change (append (bytes ++ first) second >>= next) = _
    rw [append_eq hgap hsecond]
    split <;> rfl
  · have hall : ¬ (bytes ++ first ++ second).length ≤ intMax := by
      have hlength : (bytes ++ first ++ second).length = (bytes ++ first).length + second.length :=
        List.length_append
      omega
    rw [if_neg hgap, if_neg hall]
    rfl

/-! ## The reference -/

/-- Every range starts where the one before ends, or behind. -/
def SortedFrom : Nat → List Range → Prop
  | _, [] => True
  | last, range :: rest => last ≤ range.first ∧ SortedFrom range.last rest

instance : ∀ last ranges, Decidable (SortedFrom last ranges)
  | _, [] => .isTrue trivial
  | last, range :: rest =>
      have := instDecidableSortedFrom range.last rest
      inferInstanceAs (Decidable (last ≤ range.first ∧ SortedFrom range.last rest))

/-- The ranges in front of the first that starts too early. -/
def sortedFront : Nat → List Range → List Range
  | _, [] => []
  | last, range :: rest => if range.first < last then [] else range :: sortedFront range.last rest

/-- The text up to the end of the last range, with the replacements in place. -/
def replacedFront (data : List UInt8) : Nat → List Range → List UInt8
  | _, [] => []
  | last, range :: rest =>
      codePointsBetween data last range.first ++ range.text ++ replacedFront data range.last rest

/-- Where the last range ends. -/
def endOf : Nat → List Range → Nat
  | last, [] => last
  | _, range :: rest => endOf range.last rest

/-- The source with the text of every range replaced. -/
def replacedText (data : List UInt8) (ranges : List Range) : List UInt8 :=
  replacedFront data 0 ranges ++
    codePointsBetween data (endOf 0 ranges) (codePointCount data)

/-- Sorted ranges are all replaced. -/
theorem sortedFront_eq {last : Nat} {ranges : List Range} (hsorted : SortedFrom last ranges) :
    sortedFront last ranges = ranges := by
  induction ranges generalizing last with
  | nil => rfl
  | cons range ranges ih =>
      rw [sortedFront, if_neg (Nat.not_lt.mpr hsorted.1), ih hsorted.2]

/-- The ranges are put together up to the first failure. -/
theorem assemble_eq {data : List UInt8} (hdata : data.length ≤ intMax) {ranges : List Range}
    (hfits : ∀ range ∈ ranges, range.Fits data) {last : Nat} {bytes : List UInt8}
    (hbytes : bytes.length ≤ intMax) :
    assemble data last bytes ranges =
      if intMax < (bytes ++ replacedFront data last (sortedFront last ranges)).length then
        .error outputTooLarge
      else if SortedFrom last ranges then
        .ok (endOf last ranges, bytes ++ replacedFront data last ranges)
      else .error rangesUnsorted := by
  induction ranges generalizing last bytes with
  | nil =>
      have hsmall : ¬ intMax < (bytes ++ replacedFront data last (sortedFront last [])).length := by
        simpa [sortedFront, replacedFront] using hbytes
      rw [if_neg hsmall, if_pos (show SortedFrom last [] from trivial)]
      simp [assemble, endOf, replacedFront]
  | cons range ranges ih =>
      have hrange := hfits range List.mem_cons_self
      rw [assemble, sortedFront]
      by_cases hunsorted : range.first < last
      · have hnot : ¬ SortedFrom last (range :: ranges) :=
          fun hsorted => absurd hsorted.1 (Nat.not_le.mpr hunsorted)
        have hsmall : ¬ intMax < (bytes ++ replacedFront data last []).length := by
          simpa [replacedFront] using hbytes
        rw [if_pos hunsorted, if_pos hunsorted, if_neg hsmall, if_neg hnot]
      · have hsorted : SortedFrom last (range :: ranges) ↔ SortedFrom range.last ranges :=
          and_iff_right (Nat.not_lt.mp hunsorted)
        have hfront : ∀ rest, bytes ++ replacedFront data last (range :: rest) =
            bytes ++ codePointsBetween data last range.first ++ range.text ++
              replacedFront data range.last rest := by
          intro rest
          simp [replacedFront]
        rw [if_neg hunsorted, if_neg hunsorted, append_append_eq hbytes
          ((length_codePointsBetween_le data _ _).trans hdata) hrange.small, hfront, hfront]
        by_cases hroom : (bytes ++ codePointsBetween data last range.first ++
            range.text).length ≤ intMax
        · rw [if_pos hroom, ih (fun other hmem => hfits other (List.mem_cons_of_mem _ hmem)) hroom]
          simp only [hsorted]
          rfl
        · have hlarge : intMax < (bytes ++ codePointsBetween data last range.first ++ range.text ++
              replacedFront data range.last (sortedFront range.last ranges)).length := by
            rw [List.length_append]
            omega
          rw [if_neg hroom, if_pos hlarge]

/-- The ranges a call replaces. -/
def rangesOf (text : FrameText) (replacements : List FrameInput) (bounds : Bounds) : List Range :=
  (List.range bounds.vectorizeLength).filterMap
    (rangeAt (codePointCount text.bytes) replacements bounds)

/-- What `build` is for: check the arguments, then replace the ranges, if they are in order and
the output is no longer than a string may be. -/
def reference (source : FrameInput) (replacements : List FrameInput) (bounds : Bounds)
    (omitNa : Bool) : Except NativeError ReplacementResult :=
  match source with
  | none => .ok ⟨none, .none⟩
  | some text =>
      if bounds.vectorizeLength = 0 then .ok ⟨some ⟨text.bytes, text.isAscii⟩, .none⟩
      else if replacements.length = 0 then .ok ⟨none, .replacementZero⟩
      else if !omitNa &&
          (bounds.hasNa || hasNaReplacement replacements bounds.vectorizeLength) then
        .ok ⟨none, .none⟩
      else
        let ranges := rangesOf text replacements bounds
        let output := replacedText text.bytes ranges
        if SortedFrom 0 ranges then
          if intMax < output.length then .error outputTooLarge
          else
            .ok ⟨some ⟨output, output.all fun byte => byte ≤ 0x7f⟩,
              recyclingWarning ranges.length bounds.vectorizeLength replacements.length⟩
        else if intMax < (replacedFront text.bytes 0 (sortedFront 0 ranges)).length then
          .error outputTooLarge
        else .error rangesUnsorted

theorem rangesOf_fits {text : FrameText} {replacements : List FrameInput} {bounds : Bounds}
    {range : Range} (hmem : range ∈ rangesOf text replacements bounds) :
    range.Fits text.bytes := by
  obtain ⟨index, -, hrange⟩ := List.mem_filterMap.mp hmem
  exact rangeAt_fits hrange

/-- Either way of counting gives the number of code points. -/
theorem codepoints_eq (text : FrameText) :
    (if text.isAscii then text.bytes.length
      else countLoop text.bytes text.bytes.length 0 0) = codePointCount text.bytes := by
  split
  next hascii => exact (Utf8.codePointCount_ascii (text.ascii hascii)).symm
  next => exact countLoop_all text.bytes

theorem drop_offset_eq (data : List UInt8) (last : Nat) :
    data.drop (offset data last) = codePointsBetween data last (codePointCount data) := by
  unfold codePointsBetween
  rw [Utf8.drop_offset, List.take_of_length_le]
  rw [List.length_drop]
  exact Nat.le_refl _

/-- The walk over the ranges, and what is left behind the last of them. -/
theorem assemble_all (text : FrameText) (replacements : List FrameInput) (bounds : Bounds) :
    (do
      let reached ← assemble text.bytes 0 [] (rangesOf text replacements bounds)
      append reached.2 (text.bytes.drop (offset text.bytes reached.1))) =
      if SortedFrom 0 (rangesOf text replacements bounds) then
        if intMax < (replacedText text.bytes (rangesOf text replacements bounds)).length then
          .error outputTooLarge
        else .ok (replacedText text.bytes (rangesOf text replacements bounds))
      else if intMax < (replacedFront text.bytes 0
          (sortedFront 0 (rangesOf text replacements bounds))).length then
        .error outputTooLarge
      else .error rangesUnsorted := by
  have hfits : ∀ range ∈ rangesOf text replacements bounds, range.Fits text.bytes :=
    fun range hmem => rangesOf_fits hmem
  rw [assemble_eq text.length_le hfits (Nat.zero_le _)]
  generalize rangesOf text replacements bounds = ranges
  simp only [List.nil_append]
  by_cases hsorted : SortedFrom 0 ranges
  · rw [sortedFront_eq hsorted, if_pos hsorted, if_pos hsorted]
    have htext : replacedText text.bytes ranges = replacedFront text.bytes 0 ranges ++
        text.bytes.drop (offset text.bytes (endOf 0 ranges)) := by
      rw [drop_offset_eq]
      rfl
    by_cases hlarge : intMax < (replacedFront text.bytes 0 ranges).length
    · have hall : intMax < (replacedText text.bytes ranges).length := by
        rw [htext, List.length_append]
        omega
      rw [if_pos hlarge, if_pos hall]
      rfl
    · have hrest : (text.bytes.drop (offset text.bytes (endOf 0 ranges))).length ≤ intMax := by
        rw [List.length_drop]
        exact (Nat.sub_le _ _).trans text.length_le
      rw [if_neg hlarge]
      change append (replacedFront text.bytes 0 ranges) _ = _
      rw [append_eq (Nat.not_lt.mp hlarge) hrest, ← htext]
      by_cases hall : (replacedText text.bytes ranges).length ≤ intMax
      · rw [if_pos hall, if_neg (Nat.not_lt.mpr hall)]
      · rw [if_neg hall, if_pos (Nat.not_le.mp hall)]
  · rw [if_neg hsorted, if_neg hsorted]
    split <;> rfl

/-- Assembling is replacing the ranges in the text. -/
theorem build_eq_reference (source : FrameInput) (replacements : List FrameInput)
    (bounds : Bounds) (omitNa : Bool) :
    build source replacements bounds omitNa = reference source replacements bounds omitNa := by
  unfold build reference
  cases source with
  | none => rfl
  | some text =>
      simp only
      split
      next => rfl
      next =>
        split
        next => rfl
        next =>
          split
          next => rfl
          next =>
            have hloop : buildLoop text.bytes (codePointCount text.bytes) replacements bounds
                (List.range bounds.vectorizeLength) ⟨[], 0, 0, 0⟩ =
                (assemble text.bytes 0 [] (rangesOf text replacements bounds)).map fun reached =>
                  ⟨reached.2, 0 + (rangesOf text replacements bounds).length, reached.1,
                    offset text.bytes reached.1⟩ :=
              buildLoop_eq _ _ _
            -- both sides are the outcome of the walk with the marks put on
            have hall := congrArg (Except.map fun bytes =>
              (⟨some ⟨bytes, bytes.all fun byte => byte ≤ 0x7f⟩,
                recyclingWarning (rangesOf text replacements bounds).length
                  bounds.vectorizeLength replacements.length⟩ : ReplacementResult))
              (assemble_all text replacements bounds)
            rw [codepoints_eq, hloop, Nat.zero_add]
            refine Eq.trans ?_ (hall.trans ?_)
            · cases assemble text.bytes 0 [] (rangesOf text replacements bounds) with
              | error error => rfl
              | ok reached =>
                  simp only [Except.map, bind, Except.bind]
                  cases append reached.2 (text.bytes.drop (offset text.bytes reached.1)) with
                  | error error => rfl
                  | ok bytes => rfl
            · split
              next => split <;> rfl
              next => split <;> rfl

end Charr.Substring
