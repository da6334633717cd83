import Charr.Substring.Replacement

/-!
# Three ways to replace one range

`ci_sub_replacement` and the fast path of `ci_sub_replacement_all` ask an indexer for
the bytes of a range and put the replacement between what is left. The assembler
counts code points. A range given by its two bounds comes out the same in all three.
-/

namespace Charr.Substring

open Utf8 (offset codePointCount)

/-- The encoding a string is handed to R with. -/
inductive CharMark where
  | native
  | utf8
  deriving DecidableEq, Repr

/-- The bytes of a range, its end raised to its start. -/
def raisedRange (source : FrameText) (start stop : Int) : Nat × Nat :=
  let range := ((Utf8Indexer.reset source.bytes source.isAscii).range start stop).1
  (range.1, if range.2 < range.1 then range.1 else range.2)

/-- Both sizes are checked before anything is copied. -/
def checkedSplice (source replacement : FrameText) (range : Nat × Nat) :
    Except NativeError (List UInt8) := do
  let outputSize ← checkedOutputSize range.1 replacement.bytes.length
  let _ ← checkedOutputSize outputSize (toSize (source.bytes.length - range.2))
  return source.bytes.take range.1 ++ replacement.bytes ++ source.bytes.drop range.2

/-- How a text is marked. -/
def FrameText.mark (text : FrameText) : CharMark := if text.isAscii then .native else .utf8

/-- One element of `ci_sub_replacement` without workers. -/
def replacementElement (source replacement : FrameInput) (currentFrom currentTo : Int)
    (useLength omitNa scalarBounds : Bool) :
    Except NativeError (Option (List UInt8 × CharMark)) :=
  match source with
  | none => .ok none
  | some source =>
      let unchanged := some (source.bytes, source.mark)
      match currentFrom = naInteger || currentTo = naInteger, replacement with
      | true, _ => .ok (if omitNa then unchanged else none)
      | false, none => .ok (if omitNa then unchanged else none)
      | false, some replacement =>
          if useLength && currentTo < 0 then .ok unchanged
          else do
            let currentTo :=
              if useLength then
                if currentTo ≤ 0 then 0 else lengthEndpoint currentFrom currentTo
              else currentTo
            let bytes ← checkedSplice source replacement (raisedRange source currentFrom currentTo)
            return some (bytes,
              if scalarBounds && source.isAscii && replacement.isAscii then .native else .utf8)

/-- One string on the fast path of `ci_sub_replacement_all`, which is there for one
replacement and one range of positive bounds. -/
def scalarElement (source : FrameText) (replacement : FrameInput) (scalarFrom scalarTo : Int)
    (omitNa : Bool) : Except NativeError (Option OutputText) :=
  match replacement with
  | none => .ok (if omitNa then some ⟨source.bytes, source.isAscii⟩ else none)
  | some replacement => do
      let range := raisedRange source scalarFrom scalarTo
      let bytes ← checkedSplice source replacement range
      let isAscii (bytes : List UInt8) := bytes.all fun byte => byte < 0x80
      return some ⟨bytes, (source.isAscii || isAscii (source.bytes.take range.1)) &&
        (replacement.isAscii || isAscii replacement.bytes) &&
        (source.isAscii || isAscii (source.bytes.drop range.2))⟩

/-- One range, by its two bounds. -/
def rangeBounds (start stop : Int) : Bounds := ⟨[start], some [stop], none, 1⟩

/-! ## What is put together -/

section Splice

variable (source replacement : FrameText)

/-- A reversed range is empty, at its first position. -/
theorem raisedRange_eq (start stop : Int) :
    raisedRange source start stop =
      let first := firstPosition (codePointCount source.bytes) start
      (offset source.bytes first,
        offset source.bytes (max first (lastPosition (codePointCount source.bytes) stop))) := by
  unfold raisedRange
  simp only [range_reset, offset_max]

/-- Splicing at offsets replaces what is between. -/
theorem checkedSplice_eq (first last : Nat) :
    checkedSplice source replacement (offset source.bytes first, offset source.bytes last) =
      replacedBetween source replacement first last := by
  have hfirst := (Utf8.offset_le source.bytes first).trans source.length_le
  have hlast := Utf8.offset_le source.bytes last
  have hback : source.bytes.length - offset source.bytes last ≤ intMax :=
    (Nat.sub_le _ _).trans source.length_le
  unfold checkedSplice replacedBetween
  simp only [length_replacedBetween]
  rw [toSize_sub hlast source.length_le]
  exact checkedOutputSize_twice hfirst replacement.length_le hback _

end Splice

/-- A mark that says ASCII is right about every part of its string. -/
theorem all_part_of_mark {text : FrameText} {part : List UInt8} (hpart : part ⊆ text.bytes) :
    (text.isAscii || part.all fun byte => byte < 0x80) = part.all fun byte => byte < 0x80 := by
  cases hmark : text.isAscii with
  | false => rfl
  | true =>
      symm
      rw [Bool.true_or, List.all_eq_true]
      intro byte hbyte
      exact decide_eq_true (text.ascii hmark byte (hpart hbyte))

theorem all_le_eq_all_lt (bytes : List UInt8) :
    (bytes.all fun byte => byte ≤ 0x7f) = bytes.all fun byte => byte < 0x80 := by
  congr 1
  funext byte
  apply decide_eq_decide.mpr
  rw [UInt8.le_iff_toNat_le, UInt8.lt_iff_toNat_lt]
  exact (Nat.lt_succ_iff (n := 0x7f)).symm

/-- The mark of the fast path is what the bytes show. -/
theorem marks_of_parts (source replacement : FrameText) (begin finish : Nat) :
    ((source.isAscii || (source.bytes.take begin).all fun byte => byte < 0x80) &&
        (replacement.isAscii || replacement.bytes.all fun byte => byte < 0x80) &&
        (source.isAscii || (source.bytes.drop finish).all fun byte => byte < 0x80)) =
      (source.bytes.take begin ++ replacement.bytes ++ source.bytes.drop finish).all
        fun byte => byte ≤ 0x7f := by
  rw [all_part_of_mark (List.take_subset _ _), all_part_of_mark (List.drop_subset _ _),
    all_part_of_mark (List.Subset.refl _), all_le_eq_all_lt, List.all_append, List.all_append]

/-! ## The three ways -/

section Ways

variable (source replacement : FrameText) {start stop : Int}

/-- The range as numbers of code points. -/
def replacedRange (source replacement : FrameText) (start stop : Int) :
    Except NativeError (List UInt8) :=
  let first := firstPosition (codePointCount source.bytes) start
  replacedBetween source replacement first
    (max first (lastPosition (codePointCount source.bytes) stop))

/-- Splicing at the raised range replaces the range. -/
theorem checkedSplice_raisedRange (start stop : Int) :
    checkedSplice source replacement (raisedRange source start stop) =
      replacedRange source replacement start stop := by
  rw [raisedRange_eq]
  exact checkedSplice_eq source replacement _ _

/-- The general replacement of one range. -/
theorem replacementElement_bytes (hstart : start ≠ naInteger) (hstop : stop ≠ naInteger)
    (omitNa scalarBounds : Bool) :
    (replacementElement (some source) (some replacement) start stop false omitNa
        scalarBounds).map (fun output => output.map Prod.fst) =
      (replacedRange source replacement start stop).map some := by
  unfold replacementElement
  simp only [hstart, hstop, decide_false, Bool.or_false, Bool.false_and, Bool.false_eq_true,
    if_false, checkedSplice_raisedRange]
  cases replacedRange source replacement start stop with
  | error error => rfl
  | ok bytes => rfl

/-- A splice that succeeds is the three parts one after the other. -/
theorem bytes_of_checkedSplice {range : Nat × Nat} {bytes : List UInt8}
    (hsplice : checkedSplice source replacement range = .ok bytes) :
    bytes = source.bytes.take range.1 ++ replacement.bytes ++ source.bytes.drop range.2 := by
  unfold checkedSplice at hsplice
  simp only [bind, Except.bind] at hsplice
  split at hsplice
  next => cases hsplice
  next =>
    split at hsplice
    next => cases hsplice
    next => exact (Except.ok.inj hsplice).symm

/-- The scalar path replaces the range. -/
theorem scalarElement_eq (start stop : Int) (omitNa : Bool) :
    scalarElement source (some replacement) start stop omitNa =
      (replacedRange source replacement start stop).map fun bytes =>
        some ⟨bytes, bytes.all fun byte => byte ≤ 0x7f⟩ := by
  unfold scalarElement
  simp only [marks_of_parts]
  have hsplice := checkedSplice_raisedRange source replacement start stop
  rw [hsplice]
  cases hreplaced : replacedRange source replacement start stop with
  | error error => rfl
  | ok bytes =>
      rw [← bytes_of_checkedSplice source replacement (hsplice.trans hreplaced)]
      rfl

/-- The general replacement and the scalar path give the same element. -/
theorem replaceOne_eq_scalarElement (hstart : start ≠ naInteger) (hstop : stop ≠ naInteger)
    (omitNa : Bool) :
    replaceOne (some source) (some replacement) start stop false omitNa =
      scalarElement source (some replacement) start stop omitNa := by
  unfold replaceOne scalarElement checkedSplice raisedRange
  simp only [hstart, hstop, decide_false, Bool.or_false, Bool.false_and, Bool.false_eq_true,
    if_false, bind_assoc, pure_bind]

/-- The assembler replaces the range. -/
theorem build_range (hstart : start ≠ naInteger) (hstop : stop ≠ naInteger) (omitNa : Bool) :
    (build (some source) [some replacement] (rangeBounds start stop) omitNa).map
        ReplacementResult.value =
      (replacedRange source replacement start stop).map fun bytes =>
        some ⟨bytes, bytes.all fun byte => byte ≤ 0x7f⟩ := by
  have hskips : (rangeBounds start stop).skips 0 = false := by
    simp [Bounds.skips, Bounds.currentFrom, Bounds.currentTo, recycled, rangeBounds, hstart, hstop]
  have hranges := rangesOf_single source replacement rfl hskips
  change _ = [Range.mk (firstPosition _ start) (replacementAllTo stop false
    (firstPosition _ start) _).toNat _] at hranges
  rw [replacementAllTo_eq, Int.toNat_natCast] at hranges
  exact build_single source replacement rfl
    (show (rangeBounds start stop).currentFrom 0 ≠ naInteger from hstart) hstop hranges omitNa

end Ways

/-- Whatever the bounds of a range are, it is replaced the same through an indexer, in either
backend and on the fast path, and through the assembler; and where the string would be too
long, all of them say so. -/
theorem replaced_range_same (source replacement : FrameText) {start stop : Int}
    (hstart : -intMax ≤ start ∧ start ≤ intMax) (hstop : -intMax ≤ stop ∧ stop ≤ intMax)
    (omitNa scalarBounds : Bool) :
    (replacementElement (some source) (some replacement) start stop false omitNa
        scalarBounds).map (fun output => output.map Prod.fst) =
      (scalarElement source (some replacement) start stop omitNa).map
        (fun output => output.map OutputText.bytes) ∧
    replaceOne (some source) (some replacement) start stop false omitNa =
      scalarElement source (some replacement) start stop omitNa ∧
    scalarElement source (some replacement) start stop omitNa =
      (build (some source) [some replacement] (rangeBounds start stop) omitNa).map
        ReplacementResult.value := by
  have hna : ∀ value : Int, -intMax ≤ value → value ≠ naInteger := by
    rintro value hvalue rfl
    exact absurd hvalue (by decide)
  have hfrom := hna start hstart.1
  have hto := hna stop hstop.1
  refine ⟨?_, replaceOne_eq_scalarElement source replacement hfrom hto omitNa, ?_⟩
  · rw [replacementElement_bytes source replacement hfrom hto, scalarElement_eq]
    cases replacedRange source replacement start stop with
    | error error => rfl
    | ok bytes => rfl
  · rw [scalarElement_eq, build_range source replacement hfrom hto]

/-- A range that ends before it starts, with an end counted from the back. -/
theorem replaced_range_reversed :
    (build (some abcText) [some dashText] (rangeBounds 3 (-3)) false).map
        ReplacementResult.value = .ok (some ⟨[0x61, 0x62, 0x2d, 0x63], true⟩) := by
  rw [← (replaced_range_same abcText dashText (show _ ∧ (3 : Int) ≤ intMax by decide)
    (show -(intMax : Int) ≤ -3 ∧ _ by decide) false false).2.2]
  decide

end Charr.Substring
