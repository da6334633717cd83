import Charr.Library.Loops
import Charr.Substring.Assembler

/-!
# Deciding the conditions of a replacement

Before a threaded call starts its workers, `ci__sub_validate_replacement_all` goes
over the ranges of a string as the assembler will, but only adds up sizes. It fails
and warns exactly as the assembler does.
-/

namespace Charr.Substring

open Utf8 (offset codePointCount)

/-- The size so far, with the cursors and the indexer. -/
structure Validation where
  outputSize : Nat
  replaced : Nat
  lastPosition : Int
  bytePosition : Nat
  indexer : Utf8Indexer
  deriving DecidableEq, Repr

section Validate

variable (codepoints : Nat) (replacements : List FrameInput) (bounds : Bounds)

/-- A replacement may not begin before the one in front of it ends. -/
def validateStep (index : Nat) (validation : Validation) : Except NativeError Validation :=
  match replacementAt replacements index with
  | none => .ok validation
  | some replacement =>
      if bounds.skips index then .ok validation
      else
        let currentFrom := replacementAllFrom (bounds.currentFrom index) codepoints
        let currentTo := replacementAllTo (bounds.currentTo index) bounds.lengths.isSome currentFrom
          codepoints
        if validation.lastPosition > currentFrom then .error rangesUnsorted
        else do
          let (beginByte, indexer) := validation.indexer.forward currentFrom
          let outputSize ← checkedOutputSize validation.outputSize
            (toSize (beginByte - validation.bytePosition))
          let outputSize ← checkedOutputSize outputSize replacement.bytes.length
          let (bytePosition, indexer) := indexer.forward currentTo
          return {
            outputSize := outputSize
            replaced := validation.replaced + 1
            lastPosition := currentTo
            bytePosition := bytePosition
            indexer := indexer }

/-- Validate the replacements in turn. -/
def validateLoop : List Nat → Validation → Except NativeError Validation
  | [], validation => .ok validation
  | index :: rest, validation => do
      let validation ← validateStep codepoints replacements bounds index validation
      validateLoop rest validation

end Validate

/-- `ci__sub_validate_replacement_all`. -/
def validateReplacementAll (source : FrameInput) (replacements : List FrameInput)
    (bounds : Bounds) (omitNa : Bool) : Except NativeError ReplacementWarning :=
  match source with
  | none => .ok .none
  | some text =>
      if bounds.vectorizeLength = 0 then .ok .none
      else if replacements.length = 0 then .ok .replacementZero
      else if !omitNa &&
          (bounds.hasNa || hasNaReplacement replacements bounds.vectorizeLength) then
        .ok .none
      else do
        let indexer := Utf8Indexer.reset text.bytes text.isAscii
        let validation ← validateLoop indexer.codepointCount replacements bounds
          (List.range bounds.vectorizeLength) ⟨0, 0, 0, 0, indexer⟩
        let _ ← checkedOutputSize validation.outputSize
          (toSize (text.bytes.length - validation.bytePosition))
        return recyclingWarning validation.replaced bounds.vectorizeLength replacements.length

/-! ## The walk without the output -/

/-- Appending bytes and adding their number fail together. -/
theorem append_length {bytes data : List UInt8} (hbytes : bytes.length ≤ intMax)
    (hdata : data.length ≤ intMax) :
    checkedOutputSize bytes.length data.length = (append bytes data).map List.length := by
  rw [append_eq hbytes hdata, checkedOutputSize_eq hbytes hdata, List.length_append]
  by_cases hfits : bytes.length + data.length ≤ intMax
  · rw [if_neg (Nat.not_lt.mpr hfits), if_pos hfits]
    simp [Except.map]
  · rw [if_pos (Nat.not_le.mp hfits), if_neg hfits]
    rfl

/-- What is appended fits in a string. -/
theorem length_of_append {bytes data output : List UInt8} (hbytes : bytes.length ≤ intMax)
    (hdata : data.length ≤ intMax) (happend : append bytes data = .ok output) :
    output.length ≤ intMax := by
  rw [append_eq hbytes hdata] at happend
  split at happend
  next hfits =>
    rw [← Except.ok.inj happend]
    exact hfits
  next => cases happend

/-- One range, with a place the indexer remembers in the end. -/
theorem validateStep_eq {data : List UInt8} (hlength : data.length ≤ intMax)
    (replacements : List FrameInput) (bounds : Bounds) (index last : Nat) {indexer : Utf8Indexer}
    (hconsistent : indexer.Consistent) (hdata : indexer.data = data) (size replaced : Nat) :
    ∃ next : Utf8Indexer, next.Consistent ∧ next.data = data ∧
      validateStep (codePointCount data) replacements bounds index
        ⟨size, replaced, last, offset data last, indexer⟩ =
      match rangeAt (codePointCount data) replacements bounds index with
      | none => .ok ⟨size, replaced, last, offset data last, next⟩
      | some range =>
          if range.first < last then .error rangesUnsorted
          else do
            let size ← checkedOutputSize size (codePointsBetween data last range.first).length
            let size ← checkedOutputSize size range.text.length
            return ⟨size, replaced + 1, range.last, offset data range.last, next⟩ := by
  unfold validateStep rangeAt
  cases replacementAt replacements index with
  | none => exact ⟨indexer, hconsistent, hdata, rfl⟩
  | some replacement =>
      cases hskips : bounds.skips index with
      | true => exact ⟨indexer, hconsistent, hdata, by simp⟩
      | false =>
          have hfrom := replacementAllFrom_bounds (bounds.currentFrom index) (codePointCount data)
          have hto := replacementAllTo_bounds (bounds.currentTo index) bounds.lengths.isSome hfrom.2
          simp only [Bool.false_eq_true, if_false]
          generalize replacementAllFrom (bounds.currentFrom index) (codePointCount data) = first
            at *
          generalize replacementAllTo (bounds.currentTo index) bounds.lengths.isSome first
            (codePointCount data) = stop at *
          obtain ⟨first, rfl⟩ := Int.eq_ofNat_of_zero_le hfrom.1
          obtain ⟨stop, rfl⟩ := Int.eq_ofNat_of_zero_le (hfrom.1.trans hto.1)
          simp only [Int.toNat_natCast, gt_iff_lt, Int.ofNat_lt]
          -- the indexer looks for both ends, the second from what it remembers of the first
          obtain ⟨hbegin, hmiddle, hsame⟩ := Utf8Indexer.forward_eq hconsistent (first : Int)
          obtain ⟨hstop, hnext, hkept⟩ := Utf8Indexer.forward_eq hmiddle (stop : Int)
          refine ⟨_, hnext, hkept.trans (hsame.trans hdata), ?_⟩
          rw [hsame, hdata, Int.toNat_natCast] at hstop
          rw [hdata, Int.toNat_natCast] at hbegin
          by_cases hunsorted : first < last
          · rw [if_pos hunsorted, if_pos hunsorted]
          · have hle : last ≤ first := Nat.not_lt.mp hunsorted
            have hgap : toSize ((offset data first : Int) - offset data last) =
                (codePointsBetween data last first).length := by
              obtain ⟨count, rfl⟩ := Nat.exists_eq_add_of_le hle
              rw [toSize_sub (Utf8.offset_mono data hle)
                ((Utf8.offset_le data _).trans hlength), offset_add, Nat.add_sub_cancel_left]
            rw [if_neg hunsorted, if_neg hunsorted, hbegin, hgap, hstop]

/-- The loop goes where the assembler goes, and holds the size of what that holds. -/
theorem validateLoop_eq {data : List UInt8} (hlength : data.length ≤ intMax)
    {replacements : List FrameInput} {bounds : Bounds} (indices : List Nat) (last : Nat)
    {indexer : Utf8Indexer} (hconsistent : indexer.Consistent) (hdata : indexer.data = data)
    {bytes : List UInt8} (hbytes : bytes.length ≤ intMax) (replaced : Nat) :
    (validateLoop (codePointCount data) replacements bounds indices
        ⟨bytes.length, replaced, last, offset data last, indexer⟩).map
        (fun reached => (reached.outputSize, reached.replaced, reached.bytePosition)) =
      (assemble data last bytes
        (indices.filterMap (rangeAt (codePointCount data) replacements bounds))).map
        fun reached => (reached.2.length, replaced + (indices.filterMap
          (rangeAt (codePointCount data) replacements bounds)).length,
          offset data reached.1) := by
  induction indices generalizing last bytes replaced indexer with
  | nil => rfl
  | cons index indices ih =>
      obtain ⟨next, hnext, hsame, hstep⟩ :=
        validateStep_eq hlength replacements bounds index last hconsistent hdata bytes.length
          replaced
      rw [validateLoop, hstep]
      cases hrange : rangeAt (codePointCount data) replacements bounds index with
      | none =>
          rw [List.filterMap_cons_none hrange]
          exact ih last hnext hsame hbytes replaced
      | some range =>
          have hfits := rangeAt_fits hrange
          have hgap := (length_codePointsBetween_le data last range.first).trans hlength
          rw [List.filterMap_cons_some hrange, assemble]
          by_cases hunsorted : range.first < last
          · simp only [hunsorted, if_true]
            rfl
          · simp only [hunsorted, if_false]
            rw [append_length hbytes hgap]
            cases hfirst : append bytes (codePointsBetween data last range.first) with
            | error error => rfl
            | ok front =>
                have hfront := length_of_append hbytes hgap hfirst
                simp only [bind, Except.bind, Except.map]
                rw [append_length hfront hfits.small]
                cases hsecond : append front range.text with
                | error error => rfl
                | ok filled =>
                    simp only [Except.map, pure, Except.pure]
                    refine (ih range.last hnext hsame (length_of_append hfront hfits.small hsecond)
                      (replaced + 1)).trans ?_
                    rw [List.length_cons, Nat.add_assoc, Nat.add_comm 1]
                    rfl

theorem length_of_assemble {data : List UInt8} (hlength : data.length ≤ intMax)
    {ranges : List Range} (hfits : ∀ range ∈ ranges, range.Fits data) {last : Nat}
    {bytes : List UInt8} (hbytes : bytes.length ≤ intMax) {reached : Nat × List UInt8}
    (hassemble : assemble data last bytes ranges = .ok reached) :
    reached.2.length ≤ intMax := by
  rw [assemble_eq hlength hfits hbytes] at hassemble
  split at hassemble
  next => cases hassemble
  next hsmall =>
    split at hassemble
    next hsorted =>
      rw [sortedFront_eq hsorted] at hsmall
      cases hassemble
      exact Nat.not_lt.mp hsmall
    next => cases hassemble

/-- The two walks and what is left behind the last range. -/
theorem validate_walk (text : FrameText) (replacements : List FrameInput) (bounds : Bounds) :
    (do
      let validation ← validateLoop
        (Utf8Indexer.reset text.bytes text.isAscii).codepointCount replacements bounds
        (List.range bounds.vectorizeLength)
        ⟨0, 0, 0, 0, Utf8Indexer.reset text.bytes text.isAscii⟩
      let _ ← checkedOutputSize validation.outputSize
        (toSize (text.bytes.length - validation.bytePosition))
      return recyclingWarning validation.replaced bounds.vectorizeLength replacements.length) =
    (do
      let assembly ← buildLoop text.bytes
        (if text.isAscii then text.bytes.length
          else countLoop text.bytes text.bytes.length 0 0) replacements bounds
        (List.range bounds.vectorizeLength) ⟨[], 0, 0, 0⟩
      let bytes ← append assembly.bytes (text.bytes.drop assembly.bytePosition)
      return (⟨some ⟨bytes, bytes.all fun byte => byte ≤ 0x7f⟩,
        recyclingWarning assembly.replaced bounds.vectorizeLength replacements.length⟩ :
        ReplacementResult)).map ReplacementResult.warning := by
  have hconsistent : (Utf8Indexer.reset text.bytes text.isAscii).Consistent :=
    Utf8Indexer.consistent_reset text.ascii
  have hcount : (Utf8Indexer.reset text.bytes text.isAscii).codepointCount =
      codePointCount text.bytes := Utf8Indexer.codepointCount_eq hconsistent
  have hbuild : buildLoop text.bytes (codePointCount text.bytes) replacements bounds
      (List.range bounds.vectorizeLength) ⟨[], 0, 0, 0⟩ =
      (assemble text.bytes 0 [] (rangesOf text replacements bounds)).map fun reached =>
        ⟨reached.2, 0 + (rangesOf text replacements bounds).length, reached.1,
          offset text.bytes reached.1⟩ :=
    buildLoop_eq _ _ _
  have hvalidate : (validateLoop (codePointCount text.bytes) replacements bounds
      (List.range bounds.vectorizeLength)
      ⟨0, 0, 0, 0, Utf8Indexer.reset text.bytes text.isAscii⟩).map
      (fun reached => (reached.outputSize, reached.replaced, reached.bytePosition)) =
      (assemble text.bytes 0 [] (rangesOf text replacements bounds)).map fun reached =>
        (reached.2.length, 0 + (rangesOf text replacements bounds).length,
          offset text.bytes reached.1) :=
    validateLoop_eq text.length_le _ 0 hconsistent rfl
      (show ([] : List UInt8).length ≤ intMax from Nat.zero_le _) 0
  -- Both loops follow one assembly, so its outcome decides how each of them ends.
  rw [codepoints_eq, hcount, hbuild]
  cases hassemble : assemble text.bytes 0 [] (rangesOf text replacements bounds) with
  | error error =>
      rw [hassemble] at hvalidate
      rw [Loops.except_map_error hvalidate]
      rfl
  | ok reached =>
      rw [hassemble] at hvalidate
      obtain ⟨validation, hloop, hreached⟩ := Loops.except_map_ok hvalidate
      obtain ⟨hsize, hrest⟩ := Prod.mk.inj hreached
      obtain ⟨hreplaced, hposition⟩ := Prod.mk.inj hrest
      rw [hloop]
      have hsmall := length_of_assemble text.length_le
        (fun range hmem => rangesOf_fits hmem) (Nat.zero_le _) hassemble
      have hrest : (text.bytes.drop (offset text.bytes reached.1)).length ≤ intMax := by
        rw [List.length_drop]
        exact (Nat.sub_le _ _).trans text.length_le
      have hleft : toSize ((text.bytes.length : Int) - offset text.bytes reached.1) =
          (text.bytes.drop (offset text.bytes reached.1)).length := by
        rw [toSize_sub (Utf8.offset_le _ _) text.length_le, List.length_drop]
      simp only [bind, Except.bind, Except.map]
      rw [hsize, hreplaced, hposition, hleft, append_length hsmall hrest]
      cases append reached.2 (text.bytes.drop (offset text.bytes reached.1)) with
      | error error => rfl
      | ok bytes => rfl

/-- Deciding the conditions fails where the assembler fails, and warns of what it warns of. -/
theorem validateReplacementAll_eq (source : FrameInput) (replacements : List FrameInput)
    (bounds : Bounds) (omitNa : Bool) :
    validateReplacementAll source replacements bounds omitNa =
      (build source replacements bounds omitNa).map ReplacementResult.warning := by
  unfold validateReplacementAll build
  cases source with
  | none => rfl
  | some text =>
      simp only
      split
      next => rfl
      next =>
        split
        next => rfl
        next =>
          split
          next => rfl
          next =>
            exact validate_walk text replacements bounds

end Charr.Substring
