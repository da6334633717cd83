import Charr.Substring.Extract

/-!
# Replacing one range of a string

`ci_sub_replacement` turns a length into the last position of its range before it
looks at the string, and the assembler behind `ci_sub_replacement_all` adds it to
the position the range starts at in the string. The two agree unless the start lies
in front of the string.
-/

namespace Charr.Substring

open Utf8 (offset codePointCount)

/-- `ci__sub_replace_one_parallel`. -/
def replaceOne (source replacement : FrameInput) (currentFrom currentTo : Int)
    (useLength omitNa : Bool) : Except NativeError (Option OutputText) :=
  match source with
  | none => .ok none
  | some source =>
      let unchanged := some ⟨source.bytes, source.isAscii⟩
      match replacement with
      | none => .ok (if omitNa then unchanged else none)
      | some replacement =>
          if currentFrom = naInteger || currentTo = naInteger then
            .ok (if omitNa then unchanged else none)
          else if useLength && currentTo < 0 then .ok unchanged
          else do
            let currentTo :=
              if useLength then
                if currentTo ≤ 0 then 0 else lengthEndpoint currentFrom currentTo
              else currentTo
            let range := ((Utf8Indexer.reset source.bytes source.isAscii).range currentFrom
              currentTo).1
            let rangeEnd := if range.2 < range.1 then range.1 else range.2
            let front := source.bytes.take range.1
            let back := source.bytes.drop rangeEnd
            let outputSize ← checkedOutputSize range.1 replacement.bytes.length
            let _ ← checkedOutputSize outputSize (toSize (source.bytes.length - rangeEnd))
            let isAscii (bytes : List UInt8) := bytes.all fun byte => byte < 0x80
            return some ⟨front ++ replacement.bytes ++ back,
              (source.isAscii || isAscii front) &&
              (replacement.isAscii || isAscii replacement.bytes) &&
              (source.isAscii || isAscii back)⟩

/-! ## What is written -/

/-- The source with the code points from `first` up to `last` replaced, if there is room. -/
def replacedBetween (source replacement : FrameText) (first last : Nat) :
    Except NativeError (List UInt8) :=
  let output := source.bytes.take (offset source.bytes first) ++ replacement.bytes ++
    source.bytes.drop (offset source.bytes last)
  if intMax < output.length then .error outputTooLarge else .ok output

theorem length_replacedBetween (source replacement : FrameText) (first last : Nat) :
    (source.bytes.take (offset source.bytes first) ++ replacement.bytes ++
      source.bytes.drop (offset source.bytes last)).length =
      offset source.bytes first + replacement.bytes.length +
        (source.bytes.length - offset source.bytes last) := by
  rw [List.length_append, List.length_append, List.length_take, List.length_drop,
    Nat.min_eq_left (Utf8.offset_le source.bytes first)]

theorem offset_max (data : List UInt8) (first last : Nat) :
    (if offset data last < offset data first then offset data first else offset data last) =
      offset data (max first last) := by
  rcases Nat.le_total first last with hle | hge
  · rw [if_neg (Nat.not_lt.mpr (Utf8.offset_mono data hle)), Nat.max_eq_right hle]
  · rw [Nat.max_eq_left hge]
    have hmono := Utf8.offset_mono data hge
    split
    next => rfl
    next hless => omega

/-- Checking the size twice comes down to the size of the whole. -/
theorem checkedOutputSize_twice {Value : Type} {front middle back : Nat} (hfront : front ≤ intMax)
    (hmiddle : middle ≤ intMax) (hback : back ≤ intMax) (value : Value) :
    (do
      let outputSize ← checkedOutputSize front middle
      let _ ← checkedOutputSize outputSize back
      return value : Except NativeError Value) =
      if intMax < front + middle + back then .error outputTooLarge else .ok value := by
  rw [checkedOutputSize_eq hfront hmiddle]
  by_cases hlarge : intMax < front + middle
  · rw [if_pos hlarge, if_pos (Nat.lt_add_right _ hlarge)]
    rfl
  · rw [if_neg hlarge]
    simp only [bind, Except.bind]
    rw [checkedOutputSize_eq (Nat.not_lt.mp hlarge) hback]
    by_cases hall : intMax < front + middle + back
    · rw [if_pos hall, if_pos hall]
    · rw [if_neg hall, if_neg hall]
      rfl

/-- The last position of the range `ci_sub_replacement` replaces. -/
def replacedStop (useLength : Bool) (currentFrom currentTo : Int) : Int :=
  if useLength then if currentTo ≤ 0 then 0 else lengthEndpoint currentFrom currentTo
  else currentTo

/-- The replacement of one range. -/
theorem replaceOne_bytes (source replacement : FrameText) {currentFrom currentTo : Int}
    {useLength : Bool} (hfrom : currentFrom ≠ naInteger) (hto : currentTo ≠ naInteger)
    (hlength : useLength = true → 0 ≤ currentTo) (omitNa : Bool) :
    (replaceOne (some source) (some replacement) currentFrom currentTo useLength omitNa).map
        (fun output => output.map OutputText.bytes) =
      (replacedBetween source replacement
        (firstPosition (codePointCount source.bytes) currentFrom)
        (max (firstPosition (codePointCount source.bytes) currentFrom)
          (lastPosition (codePointCount source.bytes)
            (replacedStop useLength currentFrom currentTo)))).map some := by
  have hnegative : (useLength && decide (currentTo < 0)) = false := by
    cases useLength with
    | false => rfl
    | true => simpa using hlength rfl
  unfold replaceOne
  simp only [hfrom, hto, hnegative, range_reset, offset_max, decide_false, Bool.or_false,
    Bool.false_eq_true, if_false]
  change _ = Except.map some (replacedBetween source replacement _ _)
  rw [← replacedStop]
  generalize firstPosition (codePointCount source.bytes) currentFrom = first
  generalize max first (lastPosition (codePointCount source.bytes)
    (replacedStop useLength currentFrom currentTo)) = last
  have hfirst := (Utf8.offset_le source.bytes first).trans source.length_le
  have hlast := Utf8.offset_le source.bytes last
  have hback : source.bytes.length - offset source.bytes last ≤ intMax :=
    (Nat.sub_le _ _).trans source.length_le
  unfold replacedBetween
  simp only [length_replacedBetween]
  rw [toSize_sub hlast source.length_le, checkedOutputSize_twice hfirst replacement.length_le hback]
  split
  next => rfl
  next => rfl

/-! ## One range through the assembler -/

/-- One range, by its start and its length. -/
def lengthBounds (start length : Int) : Bounds := ⟨[start], none, some [length], 1⟩

/-- The code points up to a position are a prefix. -/
theorem codePointsBetween_front (data : List UInt8) (last : Nat) :
    codePointsBetween data 0 last = data.take (offset data last) := by
  rw [← bytesFromTo_offset data (Nat.zero_le last)]
  rfl

/-- The range of a call with one replacement and one range that is not left out. -/
theorem rangesOf_single (source replacement : FrameText) {bounds : Bounds}
    (hone : bounds.vectorizeLength = 1) (hskips : bounds.skips 0 = false) :
    let first := firstPosition (codePointCount source.bytes) (bounds.currentFrom 0)
    rangesOf source [some replacement] bounds =
      [⟨first, (replacementAllTo (bounds.currentTo 0) bounds.lengths.isSome first
        (codePointCount source.bytes)).toNat, replacement.bytes⟩] := by
  intro first
  have hrange : rangeAt (codePointCount source.bytes) [some replacement] bounds 0 =
      some ⟨first, (replacementAllTo (bounds.currentTo 0) bounds.lengths.isSome first
        (codePointCount source.bytes)).toNat, replacement.bytes⟩ := by
    simp only [rangeAt, replacementAt, recycled, List.getD, hskips, Bool.false_eq_true, if_false]
    change some (Range.mk (replacementAllFrom _ _).toNat
      (replacementAllTo _ _ (replacementAllFrom _ _) _).toNat _) = _
    rw [replacementAllFrom_eq]
    rfl
  unfold rangesOf
  rw [hone, List.range_one]
  exact List.filterMap_cons_some hrange

/-- What the assembler returns for one range. -/
theorem build_single (source replacement : FrameText) {bounds : Bounds}
    (hone : bounds.vectorizeLength = 1) (hfrom : bounds.currentFrom 0 ≠ naInteger)
    (hto : bounds.currentTo 0 ≠ naInteger) {first last : Nat}
    (hranges : rangesOf source [some replacement] bounds = [⟨first, last, replacement.bytes⟩])
    (omitNa : Bool) :
    (build (some source) [some replacement] bounds omitNa).map ReplacementResult.value =
      (replacedBetween source replacement first last).map fun bytes =>
        some ⟨bytes, bytes.all fun byte => byte ≤ 0x7f⟩ := by
  have hmissing : (bounds.hasNa ||
      hasNaReplacement [some replacement] bounds.vectorizeLength) = false := by
    simp [Bounds.hasNa, hasNaReplacement, replacementAt, recycled, hone, hfrom, hto]
  rw [build_eq_reference, reference]
  simp only [hranges, hmissing, Bool.and_false, Bool.false_eq_true, if_false]
  have htext : replacedText source.bytes [⟨first, last, replacement.bytes⟩] =
      source.bytes.take (offset source.bytes first) ++ replacement.bytes ++
        source.bytes.drop (offset source.bytes last) := by
    rw [replacedText, drop_offset_eq]
    simp only [replacedFront, endOf, List.append_nil, codePointsBetween_front]
  have hsorted : SortedFrom 0 [⟨first, last, replacement.bytes⟩] := ⟨Nat.zero_le _, trivial⟩
  rw [if_neg (by simp [hone]), if_neg (by simp), if_pos hsorted, htext, replacedBetween]
  split
  next => rfl
  next => rfl

/-- The bytes of a result, from its value. -/
theorem bytes_of_value {built : Except NativeError ReplacementResult}
    {between : Except NativeError (List UInt8)} {mark : List UInt8 → Bool}
    (hvalue : built.map ReplacementResult.value = between.map fun bytes =>
      some ⟨bytes, mark bytes⟩) :
    built.map (fun result => result.value.map OutputText.bytes) = between.map some := by
  cases built with
  | error error =>
      cases between with
      | error other => exact congrArg Except.error (Except.error.inj hvalue)
      | ok bytes => cases hvalue
  | ok result =>
      cases between with
      | error other => cases hvalue
      | ok bytes => exact congrArg Except.ok (congrArg _ (Except.ok.inj hvalue))

/-- Where the assembler ends the range. -/
def lengthStop (count : Nat) (start length : Int) : Nat :=
  min (firstPosition count start + length.toNat) count

/-- The assembler replaces the range given by its length. -/
theorem build_length_bytes (source replacement : FrameText) {start length : Int}
    (hstart : start ≠ naInteger) (hlength : 0 ≤ length) (omitNa : Bool) :
    (build (some source) [some replacement] (lengthBounds start length) omitNa).map
        (fun result => result.value.map OutputText.bytes) =
      (replacedBetween source replacement
        (firstPosition (codePointCount source.bytes) start)
        (lengthStop (codePointCount source.bytes) start length)).map some := by
  have hna : length ≠ naInteger := by
    rintro rfl
    exact absurd hlength (by decide)
  have hskips : (lengthBounds start length).skips 0 = false := by
    simp [Bounds.skips, Bounds.currentFrom, Bounds.currentTo, recycled, lengthBounds, hstart,
      hna, hlength]
  have hstop : (replacementAllTo length true (firstPosition (codePointCount source.bytes) start)
      (codePointCount source.bytes)).toNat =
      lengthStop (codePointCount source.bytes) start length := by
    unfold replacementAllTo lengthStop
    simp only [if_true]
    split_ifs <;> omega
  have hranges := rangesOf_single source replacement rfl hskips
  change _ = [Range.mk (firstPosition _ start) (replacementAllTo length true
    (firstPosition _ start) _).toNat _] at hranges
  rw [hstop] at hranges
  exact bytes_of_value (build_single source replacement rfl
    (show (lengthBounds start length).currentFrom 0 ≠ naInteger from hstart) hna hranges omitNa)

/-! ## Where the two ends differ -/

/-- The range ends at one place whether its length is counted from its start or from the place
its start has in the string. -/
def SameEnd (count : Nat) (start length : Int) : Prop :=
  length = 0 ∨ 1 ≤ start ∨ (start = 0 ∧ count < length) ∨
    (start < 0 ∧ (-count ≤ start ∨ count = 0 ∨ 0 ≤ start + length))

section Ends

variable {count : Nat} (hcount : count ≤ intMax) {start length : Int}
  (hstart : -intMax ≤ start ∧ start ≤ intMax) (hlength : 0 ≤ length ∧ length ≤ intMax)
include hcount hstart hlength

/-- Where a range given by its length ends. -/
theorem lengthEndpoint_cases (hpositive : 0 < length) :
    (start < 0 ∧ 0 < start + length ∧ lengthEndpoint start length = -1) ∨
    (0 ≤ start ∧ lengthEndpoint start length = min (start + length - 1) intMax) ∨
    (start < 0 ∧ start + length ≤ 0 ∧ lengthEndpoint start length = start + length - 1) := by
  unfold lengthEndpoint
  simp only [Bool.and_eq_true, decide_eq_true_eq]
  split_ifs <;> omega

/-- The end counted in code points of the string is never the earlier one. -/
theorem stop_le_lengthStop :
    max (firstPosition count start) (lastPosition count (replacedStop true start length)) ≤
      lengthStop count start length := by
  unfold replacedStop lengthStop firstPosition lastPosition
  by_cases hpositive : 0 < length
  · rcases lengthEndpoint_cases hcount hstart hlength hpositive with
      ⟨hfront, hover, hend⟩ | ⟨hfront, hend⟩ | ⟨hfront, hover, hend⟩
    all_goals
      simp only [hend, Int.not_le.mpr hpositive, if_true, if_false]
      split_ifs <;> omega
  · obtain rfl : length = 0 := by omega
    simp only [Int.le_refl, if_true]
    split_ifs <;> omega

theorem stop_eq_lengthStop_iff :
    max (firstPosition count start) (lastPosition count (replacedStop true start length)) =
      lengthStop count start length ↔ SameEnd count start length := by
  unfold replacedStop lengthStop firstPosition lastPosition SameEnd
  by_cases hpositive : 0 < length
  · rcases lengthEndpoint_cases hcount hstart hlength hpositive with
      ⟨hfront, hover, hend⟩ | ⟨hfront, hend⟩ | ⟨hfront, hover, hend⟩
    all_goals
      simp only [hend, Int.not_le.mpr hpositive, if_true, if_false]
      split_ifs <;> omega
  · obtain rfl : length = 0 := by omega
    simp only [Int.le_refl, if_true, true_or, iff_true]
    split_ifs <;> omega

omit hcount hstart hlength in
/-- Where the ends differ, the range starts at the front of the string. -/
theorem firstPosition_of_not_sameEnd (hdiffer : ¬ SameEnd count start length) :
    firstPosition count start = 0 := by
  unfold SameEnd at hdiffer
  unfold firstPosition
  split_ifs <;> omega

end Ends

/-- Two ends give one outcome only where there is no room for either. -/
theorem replacedBetween_eq_iff {source replacement : FrameText} {first early late : Nat}
    (hlt : early < late) (hlate : late ≤ codePointCount source.bytes) :
    replacedBetween source replacement first late = replacedBetween source replacement first early ↔
      intMax < offset source.bytes first + replacement.bytes.length +
        (source.bytes.length - offset source.bytes late) := by
  have hless := Utf8.offset_lt_offset source.bytes hlt hlate
  have hbound := Utf8.offset_le source.bytes late
  unfold replacedBetween
  simp only [length_replacedBetween]
  constructor
  · intro hsame
    by_contra hsmall
    rw [if_neg hsmall] at hsame
    split at hsame
    next => cases hsame
    next =>
      have hlength := congrArg List.length (Except.ok.inj hsame)
      rw [length_replacedBetween, length_replacedBetween] at hlength
      omega
  · intro hlarge
    rw [if_pos hlarge, if_pos (by omega)]

/-- Both ways of replacing a range given by its length give the same string exactly where the
range has one end, or where neither string could be held. -/
theorem build_eq_replaceOne_iff (source replacement : FrameText) {start length : Int}
    (hstart : -intMax ≤ start ∧ start ≤ intMax) (hlength : 0 ≤ length ∧ length ≤ intMax)
    (omitNa : Bool) :
    (build (some source) [some replacement] (lengthBounds start length) omitNa).map
        (fun result => result.value.map OutputText.bytes) =
      (replaceOne (some source) (some replacement) start length true omitNa).map
        (fun output => output.map OutputText.bytes) ↔
    SameEnd (codePointCount source.bytes) start length ∨
      intMax < replacement.bytes.length +
        (source.bytes.length - offset source.bytes length.toNat) := by
  have hcount := (Utf8.codePointCount_le source.bytes).trans source.length_le
  have hna : ∀ value : Int, -intMax ≤ value → value ≠ naInteger := by
    rintro value hvalue rfl
    exact absurd hvalue (by decide)
  rw [build_length_bytes source replacement (hna start hstart.1) hlength.1,
    replaceOne_bytes source replacement (hna start hstart.1) (hna length (by omega))
      fun _ => hlength.1]
  have hmap : ∀ left right : Except NativeError (List UInt8),
      left.map some = right.map some ↔ left = right := by
    intro left right
    cases left <;> cases right <;> simp [Except.map]
  rw [hmap]
  by_cases hsame : SameEnd (codePointCount source.bytes) start length
  · simp only [(stop_eq_lengthStop_iff hcount hstart hlength).mpr hsame, hsame, true_or]
  · have hdiffer := mt (stop_eq_lengthStop_iff hcount hstart hlength).mp hsame
    have hlt := Nat.lt_of_le_of_ne (stop_le_lengthStop hcount hstart hlength) hdiffer
    have hfirst := firstPosition_of_not_sameEnd hsame
    have hstop : lengthStop (codePointCount source.bytes) start length =
        min length.toNat (codePointCount source.bytes) := by
      rw [lengthStop, hfirst, Nat.zero_add]
    rw [replacedBetween_eq_iff hlt (Nat.min_le_right _ _), hstop, offset_min, hfirst,
      Utf8.offset_zero, Nat.zero_add]
    simp only [hsame, false_or]

/-- The text `abc`. -/
def abcText : FrameText := ⟨[0x61, 0x62, 0x63], true, by decide, by simp⟩

/-- The text `-`. -/
def dashText : FrameText := ⟨[0x2d], true, by decide, by simp⟩

theorem build_eq_replaceOne_negative :
    (build (some abcText) [some dashText] (lengthBounds (-2) 1) false).map
        (fun result => result.value.map OutputText.bytes) =
      (replaceOne (some abcText) (some dashText) (-2) 1 true false).map
        (fun output => output.map OutputText.bytes) := by
  have hcount : codePointCount abcText.bytes = 3 := Utf8.codePointCount_ascii (abcText.ascii rfl)
  apply (build_eq_replaceOne_iff abcText dashText (by decide) (by decide) false).mpr
  left
  rw [hcount]
  exact .inr (.inr (.inr ⟨by decide, .inl (by decide)⟩))

/-- Two code points from position zero are two for the assembler and one for the other. -/
theorem build_ne_replaceOne :
    (build (some abcText) [some dashText] (lengthBounds 0 2) false).map
        (fun result => result.value.map OutputText.bytes) = .ok (some [0x2d, 0x63]) ∧
      (replaceOne (some abcText) (some dashText) 0 2 true false).map
        (fun output => output.map OutputText.bytes) = .ok (some [0x2d, 0x62, 0x63]) := by
  decide

end Charr.Substring
