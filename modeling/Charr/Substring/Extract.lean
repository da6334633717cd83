import Charr.Substring.Assembler
import Charr.Text.Normalize

/-!
# Taking substrings out

`ci_sub` and `ci_sub_all` cut the code points of a range out of a string. What
they cut out for a list of ranges, put back by the assembler, gives the string
again.
-/

namespace Charr.Substring

open Utf8 (offset codePointCount tokens tokenBytes)

/-- `ci__sub_extract_one_parallel`: the substring, and the count of negative lengths so far. -/
def extractOne (value : FrameInput) (currentFrom currentTo : Int) (useLength : Bool)
    (negativeLengths : Nat) : Option OutputText × Nat :=
  match value with
  | none => (none, negativeLengths)
  | some text =>
      if currentFrom = naInteger || currentTo = naInteger then (none, negativeLengths)
      else if useLength && currentTo = 0 then (some ⟨[], true⟩, negativeLengths)
      else if useLength && currentTo < 0 then (none, negativeLengths + 1)
      else
        let currentTo := if useLength then lengthEndpoint currentFrom currentTo else currentTo
        let range := ((Utf8Indexer.reset text.bytes text.isAscii).range currentFrom currentTo).1
        if range.2 > range.1 then
          (some ⟨bytesFromTo text.bytes range.1 range.2, text.isAscii⟩, negativeLengths)
        else (some ⟨[], true⟩, negativeLengths)

/-- A range that counts as one of negative length. -/
def negativeLength (value : FrameInput) (currentFrom currentTo : Int) (useLength : Bool) : Bool :=
  value.isSome && currentFrom ≠ naInteger && currentTo ≠ naInteger && useLength && currentTo < 0

/-- What `CiSubAllBody` puts into the row of a string. -/
def subAllRow (source : FrameInput) (bounds : Bounds) (ignoreNegativeLength : Bool) :
    List (Option OutputText) :=
  (List.range bounds.vectorizeLength).filterMap fun index =>
    let currentFrom := bounds.currentFrom index
    let currentTo := bounds.currentTo index
    if ignoreNegativeLength &&
        negativeLength source currentFrom currentTo bounds.lengths.isSome then none
    else some (extractOne source currentFrom currentTo bounds.lengths.isSome 0).1

/-! ## Ranges by their ends -/

/-- Both operations begin a range at the same position. -/
theorem replacementAllFrom_eq (count : Nat) (start : Int) :
    replacementAllFrom start count = firstPosition count start := by
  unfold replacementAllFrom firstPosition
  simp only
  split_ifs <;> omega

theorem replacementAllTo_eq (count : Nat) (start stop : Int) :
    replacementAllTo stop false (firstPosition count start) count =
      max (firstPosition count start) (lastPosition count stop) := by
  have hfirst : firstPosition count start ≤ count := by
    unfold firstPosition
    split_ifs <;> omega
  generalize firstPosition count start = first at hfirst
  unfold replacementAllTo lastPosition
  simp only [Bool.false_eq_true, if_false]
  split_ifs <;> omega

/-- A slice between two code points, which is empty when they are the wrong way round. -/
theorem bytesFromTo_max (data : List UInt8) (first last : Nat) :
    (if offset data last > offset data first then
      bytesFromTo data (offset data first) (offset data last) else []) =
      codePointsBetween data first (max first last) := by
  rcases Nat.le_total first last with hle | hge
  · rw [Nat.max_eq_right hle, ← bytesFromTo_offset data hle]
    split
    next => rfl
    next hless =>
      have hempty : offset data last - offset data first = 0 := by omega
      rw [bytesFromTo, hempty, List.take_zero]
  · have hless : ¬ offset data last > offset data first :=
      Nat.not_lt.mpr (Utf8.offset_mono data hge)
    rw [if_neg hless, Nat.max_eq_left hge, codePointsBetween, Nat.sub_self]
    rfl

/-- The bytes that are cut out. -/
def cutBytes (text : FrameText) (start stop : Int) : List UInt8 :=
  let currentFrom := replacementAllFrom start (codePointCount text.bytes)
  codePointsBetween text.bytes currentFrom.toNat
    (replacementAllTo stop false currentFrom (codePointCount text.bytes)).toNat

/-- The range of a new indexer. -/
theorem range_reset (text : FrameText) (start stop : Int) :
    ((Utf8Indexer.reset text.bytes text.isAscii).range start stop).1 =
      (offset text.bytes (firstPosition (codePointCount text.bytes) start),
        offset text.bytes (lastPosition (codePointCount text.bytes) stop)) :=
  Utf8Indexer.range_eq (Utf8Indexer.consistent_reset text.ascii) text.length_le start stop

/-- What is extracted is the text between the bounds. -/
theorem extractOne_bytes (text : FrameText) {start stop : Int} (hstart : start ≠ naInteger)
    (hstop : stop ≠ naInteger) (negativeLengths : Nat) :
    ((extractOne (some text) start stop false negativeLengths).1.map OutputText.bytes) =
      some (cutBytes text start stop) := by
  unfold extractOne cutBytes
  simp only [hstart, hstop, range_reset, replacementAllFrom_eq, Bool.false_and, decide_false,
    Bool.or_false, Bool.false_eq_true, if_false, Int.toNat_natCast]
  rw [replacementAllTo_eq, Int.toNat_natCast, ← bytesFromTo_max]
  split
  next => rfl
  next => rfl

/-! ## Putting the substrings back -/

/-- The code points between, cut in the middle. -/
theorem codePointsBetween_append (data : List UInt8) {first middle last : Nat}
    (hfirst : first ≤ middle) (hmiddle : middle ≤ last) :
    codePointsBetween data first middle ++ codePointsBetween data middle last =
      codePointsBetween data first last := by
  obtain ⟨left, rfl⟩ := Nat.exists_eq_add_of_le hfirst
  obtain ⟨right, rfl⟩ := Nat.exists_eq_add_of_le hmiddle
  have htotal : first + left + right - first = left + right := by omega
  unfold codePointsBetween
  rw [← Utf8.tokenBytes_append, htotal, Nat.add_sub_cancel_left, Nat.add_sub_cancel_left,
    List.take_add, List.drop_drop]

/-- All code points are the text. -/
theorem codePointsBetween_all (data : List UInt8) :
    codePointsBetween data 0 (codePointCount data) = data := by
  unfold codePointsBetween codePointCount
  rw [List.drop_zero, Nat.sub_zero, List.take_length, Utf8.tokenBytes_tokens]

/-- Ranges filled with their own text leave the text as it is. -/
theorem replacedFront_same {data : List UInt8} {ranges : List Range} {last : Nat}
    (hfits : ∀ range ∈ ranges, range.Fits data ∧
      range.text = codePointsBetween data range.first range.last)
    (hsorted : SortedFrom last ranges) (hlast : last ≤ codePointCount data) :
    replacedFront data last ranges ++
        codePointsBetween data (endOf last ranges) (codePointCount data) =
      codePointsBetween data last (codePointCount data) := by
  induction ranges generalizing last with
  | nil => rfl
  | cons range ranges ih =>
      obtain ⟨⟨hrange, htext⟩, hrest⟩ := List.forall_mem_cons.mp hfits
      rw [replacedFront, endOf, List.append_assoc, ih hrest hsorted.2 hrange.inside, htext,
        codePointsBetween_append data hsorted.1 hrange.le,
        codePointsBetween_append data (hsorted.1.trans hrange.le) hrange.inside]

/-- Replacing ranges by what stands there changes nothing. -/
theorem replacedText_same {data : List UInt8} {ranges : List Range}
    (hfits : ∀ range ∈ ranges, range.Fits data ∧
      range.text = codePointsBetween data range.first range.last)
    (hsorted : SortedFrom 0 ranges) : replacedText data ranges = data := by
  unfold replacedText
  rw [replacedFront_same hfits hsorted (Nat.zero_le _), codePointsBetween_all]

/-- The bytes a replacement holds. -/
def replacementBytes (replacements : List FrameInput) : List (Option (List UInt8)) :=
  replacements.map fun replacement => replacement.map FrameText.bytes

/-- The bytes of the substrings of a string. -/
def pieces (text : FrameText) (bounds : Bounds) : List (Option (List UInt8)) :=
  (subAllRow (some text) bounds false).map fun piece => piece.map OutputText.bytes

/-- A substring as `ci__sub_normalize_frame_input` reads it: without a byte order mark. -/
def normalizedPiece (bytes : List UInt8) : List UInt8 :=
  if !bytes.all (fun byte => byte < 0x80) && hasBom bytes then bytes.drop 3 else bytes

/-- The pieces that are extracted for the bounds. -/
theorem pieces_eq (text : FrameText) {bounds : Bounds} {stop : List Int}
    (hstop : bounds.stop = some stop) (hlengths : bounds.lengths = none) :
    pieces text bounds = (List.range bounds.vectorizeLength).map fun index =>
      if bounds.skips index then none
      else some (cutBytes text (bounds.currentFrom index) (bounds.currentTo index)) := by
  unfold pieces subAllRow
  rw [hlengths]
  simp only [Bool.false_and, Bool.false_eq_true, if_false, List.filterMap_eq_map',
    Option.isSome_none, List.map_map]
  apply List.map_congr_left
  intro index _
  have hskips : bounds.skips index = (decide (bounds.currentFrom index = naInteger) ||
      decide (bounds.currentTo index = naInteger)) := by
    simp [Bounds.skips, hstop]
  rw [hskips]
  split
  next hna =>
    simp only [Function.comp_apply, extractOne, hna, if_true, Option.map_none]
  next hna =>
    simp only [Bool.or_eq_true, decide_eq_true_eq, not_or] at hna
    exact extractOne_bytes text hna.1 hna.2 0

section RoundTrip

variable {text : FrameText} {replacements : List FrameInput} {bounds : Bounds} {stop : List Int}
  (hstop : bounds.stop = some stop) (hlengths : bounds.lengths = none)
  (hpieces : replacementBytes replacements = pieces text bounds)
include hstop hlengths hpieces

theorem length_replacements : replacements.length = bounds.vectorizeLength := by
  have hlength := congrArg List.length hpieces
  rw [pieces_eq text hstop hlengths] at hlength
  simpa [replacementBytes] using hlength

/-- The replacement of a range is what was cut out for it. -/
theorem replacementAt_bytes {index : Nat} (hindex : index < bounds.vectorizeLength) :
    (replacementAt replacements index).map FrameText.bytes =
      if bounds.skips index then none
      else some (cutBytes text (bounds.currentFrom index) (bounds.currentTo index)) := by
  have hlength := length_replacements hstop hlengths hpieces
  have hget := congrArg (fun values => values[index]?) hpieces
  rw [pieces_eq text hstop hlengths] at hget
  have hinside : index < replacements.length := hlength ▸ hindex
  simp only [replacementBytes, List.getElem?_map, List.getElem?_range hindex, Option.map_some,
    List.getElem?_eq_getElem hinside, Option.some.injEq] at hget
  rw [replacementAt, recycled, Nat.mod_eq_of_lt hinside, List.getD_eq_getElem?_getD,
    List.getElem?_eq_getElem hinside, Option.getD_some, hget]

/-- Every range gets its own piece back. -/
theorem rangesOf_pieces {range : Range} (hmem : range ∈ rangesOf text replacements bounds) :
    range.text = codePointsBetween text.bytes range.first range.last := by
  obtain ⟨index, hindex, hrange⟩ := List.mem_filterMap.mp hmem
  have hbytes := replacementAt_bytes hstop hlengths hpieces (List.mem_range.mp hindex)
  unfold rangeAt at hrange
  split at hrange
  next => cases hrange
  next replacement hreplacement =>
    split at hrange
    next => cases hrange
    next hskips =>
      cases hrange
      rw [hreplacement, if_neg hskips, Option.map_some, Option.some.injEq] at hbytes
      rw [hbytes, hlengths]
      rfl

/-- A replacement is missing only where a bound is. -/
theorem hasNaReplacement_pieces (hna : bounds.hasNa = false) :
    hasNaReplacement replacements bounds.vectorizeLength = false := by
  rw [hasNaReplacement, List.any_eq_false]
  intro index hindex
  have hbytes := replacementAt_bytes hstop hlengths hpieces (List.mem_range.mp hindex)
  rw [Bounds.hasNa, List.any_eq_false] at hna
  have hskips : bounds.skips index = false := by
    have hfinite := hna index hindex
    simpa [Bounds.skips, hstop] using hfinite
  rw [hskips] at hbytes
  intro hnone
  rw [Option.isNone_iff_eq_none.mp hnone] at hbytes
  cases hbytes

/-- Ranges in order, filled with what was cut out for them, give the source back. -/
theorem build_pieces {omitNa : Bool} (hna : omitNa = true ∨ bounds.hasNa = false)
    (hsorted : SortedFrom 0 (rangesOf text replacements bounds)) :
    build (some text) replacements bounds omitNa =
      .ok ⟨some ⟨text.bytes, if bounds.vectorizeLength = 0 then text.isAscii
        else text.bytes.all fun byte => byte ≤ 0x7f⟩, .none⟩ := by
  have hlength := length_replacements hstop hlengths hpieces
  have hsame : replacedText text.bytes (rangesOf text replacements bounds) = text.bytes :=
    replacedText_same (fun range hmem =>
      ⟨rangesOf_fits hmem, rangesOf_pieces hstop hlengths hpieces hmem⟩) hsorted
  rw [build_eq_reference, reference]
  by_cases hempty : bounds.vectorizeLength = 0
  · simp only [hempty, if_true]
  · have hmissing : (!omitNa && (bounds.hasNa ||
        hasNaReplacement replacements bounds.vectorizeLength)) = false := by
      rcases hna with homit | hfinite
      · simp [homit]
      · simp [hfinite, hasNaReplacement_pieces hstop hlengths hpieces hfinite]
    have hwarning : recyclingWarning (rangesOf text replacements bounds).length
        bounds.vectorizeLength bounds.vectorizeLength = .none := by
      simp [recyclingWarning]
    have hsmall : ¬ intMax < text.bytes.length := Nat.not_lt.mpr text.length_le
    simp only [hlength, hempty, hmissing, hsame, hsmall, if_false, if_pos hsorted,
      Bool.false_eq_true, hwarning]

end RoundTrip

/-- No piece begins with a byte order mark, so that reading the pieces changes none. -/
def NoBom (text : FrameText) (bounds : Bounds) : Prop :=
  ∀ piece ∈ pieces text bounds, ∀ bytes, piece = some bytes → hasBom bytes = false

/-- Without a byte order mark the pieces are not changed on the way. -/
theorem normalizedPieces_eq {text : FrameText} {bounds : Bounds} (hbom : NoBom text bounds) :
    (pieces text bounds).map (Option.map normalizedPiece) = pieces text bounds := by
  rw [List.map_congr_left, List.map_id]
  intro piece hmem
  cases piece with
  | none => rfl
  | some bytes => simp [normalizedPiece, hbom (some bytes) hmem bytes rfl]

/-- `build` replaces the ranges of a call as the reference says, and so it gives the source back
where every range is replaced by what was cut out for it. -/
theorem build_replaces_ranges (source : FrameInput) (replacements : List FrameInput)
    (bounds : Bounds) (omitNa : Bool) :
    build source replacements bounds omitNa = reference source replacements bounds omitNa ∧
    ∀ text stop, source = some text → bounds.stop = some stop → bounds.lengths = none →
      (omitNa = true ∨ bounds.hasNa = false) →
      SortedFrom 0 (rangesOf text replacements bounds) →
      (replacementBytes replacements = pieces text bounds ∨
        replacementBytes replacements = (pieces text bounds).map (Option.map normalizedPiece) ∧
          NoBom text bounds) →
      build source replacements bounds omitNa =
        .ok ⟨some ⟨text.bytes, if bounds.vectorizeLength = 0 then text.isAscii
          else text.bytes.all fun byte => byte ≤ 0x7f⟩, .none⟩ := by
  refine ⟨build_eq_reference source replacements bounds omitNa, ?_⟩
  rintro text stop rfl hstop hlengths hna hsorted hpieces
  apply build_pieces hstop hlengths ?_ hna hsorted
  rcases hpieces with hsame | ⟨hread, hbom⟩
  · exact hsame
  · rw [hread, normalizedPieces_eq hbom]

/-- One letter, again and again. -/
def letters (count : Nat) (hcount : count ≤ intMax) : FrameText where
  bytes := List.replicate count 0x61
  isAscii := true
  length_le := by simpa using hcount
  ascii := by simp

/-- A letter, a byte order mark and another letter. -/
def markedText : FrameText := ⟨[0x61, 0xef, 0xbb, 0xbf, 0x62], false, by decide, by decide⟩

/-- The range of the second code point. -/
def secondBounds : Bounds := ⟨[2], some [2], none, 1⟩

theorem build_gives_back :
    build (some markedText) [some ⟨[0xef, 0xbb, 0xbf], false, by decide, by decide⟩] secondBounds
      false = .ok ⟨some ⟨markedText.bytes, false⟩, .none⟩ := by
  have hcount : codePointCount markedText.bytes = 3 := by
    rw [← countLoop_all]
    decide
  refine ((build_replaces_ranges _ _ secondBounds false).2 markedText [2] rfl rfl rfl
    (.inr (by decide)) ?_ (.inl ?_)).trans ?_
  · unfold rangesOf
    rw [hcount]
    decide
  · decide
  · rfl

/-- In front of the first code point. -/
def frontBounds : Bounds := ⟨[1], some [0], none, 1⟩

theorem rangesOf_front (replacement : FrameText) :
    rangesOf (letters 1 (by decide)) [some replacement] frontBounds =
      [⟨0, 0, replacement.bytes⟩] := by
  have hcount : codePointCount (letters 1 (by decide)).bytes = 1 :=
    Utf8.codePointCount_ascii ((letters 1 (by decide)).ascii rfl)
  unfold rangesOf
  rw [hcount]
  rfl

/-- There is no room for another byte. -/
theorem build_front_full {replacement : FrameText} (hfull : replacement.bytes.length = intMax) :
    build (some (letters 1 (by decide))) [some replacement] frontBounds false =
      .error outputTooLarge := by
  have hlarge : intMax < (replacedText (letters 1 (by decide)).bytes
      [⟨0, 0, replacement.bytes⟩]).length := by
    unfold replacedText
    simp only [replacedFront, endOf, codePointsBetween_all, List.length_append, hfull]
    simp only [letters, List.length_replicate]
    omega
  rw [build_eq_reference, reference]
  simp only [rangesOf_front]
  have hpresent : hasNaReplacement [some replacement] 1 = false := rfl
  have hsorted : SortedFrom 0 [⟨0, 0, replacement.bytes⟩] := ⟨Nat.le_refl _, trivial⟩
  simp [frontBounds, hpresent, hsorted, hlarge, Bounds.hasNa, Bounds.currentFrom,
    Bounds.currentTo, recycled, naInteger]

/-- Ranges in order may still be refused, a mark may be left as it is, and a piece that is read
with its byte order mark does not give the source back. -/
theorem build_refuses :
    (SortedFrom 0 (rangesOf (letters 1 (by decide)) [some (letters intMax (Nat.le_refl _))]
        frontBounds) ∧
      build (some (letters 1 (by decide))) [some (letters intMax (Nat.le_refl _))] frontBounds
        false = .error outputTooLarge) ∧
    build (some ⟨[0x61], false, by decide, by decide⟩) [] ⟨[], some [], none, 0⟩ false =
      .ok ⟨some ⟨[0x61], false⟩, .none⟩ ∧
    (pieces markedText secondBounds = [some [0xef, 0xbb, 0xbf]] ∧
      normalizedPiece [0xef, 0xbb, 0xbf] = [] ∧
      build (some markedText) [some ⟨[], true, by decide, by simp⟩] secondBounds false =
        .ok ⟨some ⟨[0x61, 0x62], true⟩, .none⟩) := by
  refine ⟨⟨?_, ?_⟩, rfl, by decide, by decide, by decide⟩
  · rw [rangesOf_front]
    exact ⟨Nat.le_refl _, trivial⟩
  · apply build_front_full
    simp [letters]

end Charr.Substring
