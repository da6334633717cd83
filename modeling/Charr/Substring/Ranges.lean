import Charr.Substring.IndexerRuns
import Charr.Substring.Replacement

/-!
# What a range of code points denotes

A range is given by two bounds, each counted from the start or from the end of the
string, or by one bound and a length. Either way it denotes the code points whose
numbers lie between the bounds, however far out these are.
-/

namespace Charr.Substring

open Utf8 (offset codePointCount)

/-! ## Code points by their numbers -/

/-- The number of the code point at `index`, as a bound of this sign counts it: from one
on at the start, up to minus one at the end. -/
def numberFor (bound : Int) (count index : Nat) : Int :=
  if bound ≥ 0 then index + 1 else index - count

/-- The code points from `start` up to `stop`. -/
def requested (count : Nat) (start stop : Int) (index : Nat) : Bool :=
  start ≤ numberFor start count index && numberFor stop count index ≤ stop

/-- The code points that `length` numbers from `start` on stand for. -/
def requestedLength (count : Nat) (start length : Int) (index : Nat) : Bool :=
  start ≤ numberFor start count index && numberFor start count index ≤ start + length - 1

/-- The indices of the code points that are wanted. -/
def chosen (data : List UInt8) (wanted : Nat → Bool) : List Nat :=
  (List.range (codePointCount data)).filter wanted

/-- Two bytes enclose the code points that are wanted and no others. -/
structure Denotes (data : List UInt8) (bytes : Nat × Nat) (wanted : Nat → Bool) : Prop where
  inside : ∀ index < codePointCount data, wanted index = true ↔
    bytes.1 ≤ offset data index ∧ offset data (index + 1) ≤ bytes.2
  text : bytesFromTo data bytes.1 bytes.2 =
    (chosen data wanted).flatMap fun index => codePointsBetween data index (index + 1)

section Interval

variable {data : List UInt8} {wanted : Nat → Bool} {first last : Nat}

theorem filter_range_interval (count first last : Nat) :
    (List.range count).filter (fun index => first ≤ index && index < last) =
      List.range' first (min last count - first) := by
  induction count with
  | zero => simp
  | succ count ih =>
      rw [List.range_succ, List.filter_append, ih]
      by_cases hinside : first ≤ count ∧ count < last
      · have hmore : min last (count + 1) - first = min last count - first + 1 := by omega
        have hplace : first + (min last count - first) = count := by omega
        rw [hmore, List.range'_concat, Nat.one_mul, hplace]
        simp [hinside]
      · have hsame : min last (count + 1) - first = min last count - first := by omega
        rw [hsame]
        simp only [List.filter_cons, List.filter_nil, Bool.and_eq_true, decide_eq_true_eq]
        rw [if_neg hinside, List.append_nil]

/-- Code points next to each other make up the text between them. -/
theorem flatMap_range' (data : List UInt8) (first count : Nat) :
    (List.range' first count).flatMap (fun index => codePointsBetween data index (index + 1)) =
      codePointsBetween data first (first + count) := by
  induction count generalizing first with
  | zero => simp [codePointsBetween, Utf8.tokenBytes]
  | succ count ih =>
      have hnext : first + 1 + count = first + (count + 1) := by omega
      rw [List.range'_succ, List.flatMap_cons, ih, hnext]
      exact codePointsBetween_append data (by omega) (by omega)

/-- Choosing an interval gives its code points. -/
theorem chosen_eq (hwanted : ∀ index < codePointCount data,
      wanted index = (decide (first ≤ index) && decide (index < last)))
    (hlast : last ≤ codePointCount data) :
    chosen data wanted = List.range' first (last - first) := by
  unfold chosen
  rw [List.filter_congr fun index hindex => hwanted index (List.mem_range.mp hindex),
    filter_range_interval, Nat.min_eq_left hlast]

/-- Two boundaries enclose the code points between them. -/
theorem denotes_of_interval (hwanted : ∀ index < codePointCount data,
      wanted index = (decide (first ≤ index) && decide (index < last)))
    (hfirst : first ≤ codePointCount data) (hlast : last ≤ codePointCount data) :
    Denotes data (offset data first, offset data last) wanted := by
  constructor
  · intro index hindex
    rw [hwanted index hindex, Bool.and_eq_true, decide_eq_true_eq, decide_eq_true_eq]
    constructor
    · intro hinside
      exact ⟨Utf8.offset_mono data hinside.1, Utf8.offset_mono data hinside.2⟩
    · rintro ⟨hbegin, hend⟩
      constructor
      · by_contra hbefore
        have := Utf8.offset_lt_offset data (Nat.not_le.mp hbefore) hfirst
        omega
      · by_contra hbehind
        have := Utf8.offset_lt_offset data (show last < index + 1 by omega) hindex
        omega
  · rw [chosen_eq hwanted hlast, flatMap_range']
    rcases Nat.le_total first last with hle | hge
    · rw [bytesFromTo_offset data hle, Nat.add_sub_cancel' hle]
    · have hmono := Utf8.offset_mono data hge
      unfold bytesFromTo codePointsBetween
      rw [Nat.sub_eq_zero_of_le hmono, Nat.sub_eq_zero_of_le hge, Nat.add_zero, Nat.sub_self]
      rfl

end Interval

/-! ## Bounds as positions -/

section Bounds

variable {count index : Nat} {start stop length : Int}

/-- The code points that are asked for are an interval. -/
theorem requested_eq (hindex : index < count) :
    requested count start stop index =
      (decide (firstPosition count start ≤ index) && decide (index < lastPosition count stop)) := by
  unfold requested numberFor firstPosition lastPosition
  congr 1
  · apply decide_eq_decide.mpr
    split <;> omega
  · apply decide_eq_decide.mpr
    split <;> omega

/-- An endpoint that is cut off at the largest integer still lies behind every code
point. -/
theorem requested_lengthEndpoint (hcount : count ≤ intMax)
    (hstart : -intMax ≤ start ∧ start ≤ intMax) (hlength : 0 < length ∧ length ≤ intMax)
    (hindex : index < count) :
    requested count start (lengthEndpoint start length) index =
      requestedLength count start length index := by
  unfold requested requestedLength numberFor
  congr 1
  apply decide_eq_decide.mpr
  rcases lengthEndpoint_cases hcount hstart ⟨hlength.1.le, hlength.2⟩ hlength.1 with
    ⟨hfront, hover, hend⟩ | ⟨hfront, hend⟩ | ⟨hfront, hover, hend⟩
  · rw [hend, if_neg (by decide), if_neg (by omega)]
    omega
  · rw [hend, if_pos (by omega), if_pos hfront]
    omega
  · rw [hend, if_neg (by omega), if_neg (by omega)]

theorem firstPosition_le (count : Nat) (start : Int) : firstPosition count start ≤ count := by
  unfold firstPosition
  split <;> omega

theorem lastPosition_le (count : Nat) (stop : Int) : lastPosition count stop ≤ count := by
  unfold lastPosition
  split <;> omega

end Bounds

/-! ## Ranges of an indexer -/

/-- The value is an `int`. -/
def fitsInt (value : Int) : Prop := -2147483648 ≤ value ∧ value ≤ intMax

/-- The value is an `int64_t`. -/
def fitsInt64 (value : Int) : Prop := -9223372036854775808 ≤ value ∧ value ≤ 9223372036854775807

/-- Everything that is computed for a range, or for the end of one, fits its type. -/
structure NoOverflow (indexer : Utf8Indexer) (start stop length : Int) : Prop where
  wide : ∀ value ∈ [start - 1, -start, -stop, -stop - 1, start + length, start + length - 1],
    fitsInt64 value
  narrowed : ∀ value ∈ [nonnegativeIndex (start - 1), nonnegativeIndex (-start),
    nonnegativeIndex (-stop - 1), lengthEndpoint start length], fitsInt value
  cursors : ∀ value ∈ [indexer.lastForwardCodepoint, indexer.lastForwardByte,
    indexer.lastBackwardCodepoint, indexer.lastBackwardByte, (indexer.range start stop).1.1,
    (indexer.range start stop).1.2], fitsInt value

/-- Cut indices are of type `int`. -/
theorem fitsInt_nonnegativeIndex (value : Int) : fitsInt (nonnegativeIndex value) := by
  unfold fitsInt nonnegativeIndex intMax
  split_ifs <;> omega

theorem fitsInt_lengthEndpoint (start length : Int) : fitsInt (lengthEndpoint start length) := by
  unfold fitsInt lengthEndpoint intMax
  simp only
  split_ifs <;> omega

theorem fitsInt_of_le {value limit : Nat} (hle : value ≤ limit) (hlimit : limit ≤ intMax) :
    fitsInt value := by
  unfold fitsInt
  omega

section Text

variable {text : FrameText} {indexer : Utf8Indexer}
  (htracks : indexer.Tracks text.bytes text.isAscii)
include htracks

/-- The range of an indexer with any history. -/
theorem range_of_tracks (start stop : Int) :
    (indexer.range start stop).1 =
      (offset text.bytes (firstPosition (codePointCount text.bytes) start),
        offset text.bytes (lastPosition (codePointCount text.bytes) stop)) := by
  rw [(htracks.range start stop).1,
    ← ((Utf8Indexer.tracks_reset text.bytes text.isAscii).range start stop).1]
  exact range_reset text start stop

/-- No operation on the way overflows. -/
theorem noOverflow_of_tracks {start stop length : Int}
    (hstart : -intMax ≤ start ∧ start ≤ intMax) (hstop : -intMax ≤ stop ∧ stop ≤ intMax)
    (hlength : 0 < length ∧ length ≤ intMax) : NoOverflow indexer start stop length := by
  have hlimit := text.length_le
  constructor
  · unfold fitsInt64
    unfold intMax at hstart hstop hlength
    simp only [List.forall_mem_cons, List.not_mem_nil, false_imp_iff, implies_true, and_true]
    omega
  · simp only [List.forall_mem_cons, List.not_mem_nil, false_imp_iff, implies_true, and_true]
    exact ⟨fitsInt_nonnegativeIndex _, fitsInt_nonnegativeIndex _, fitsInt_nonnegativeIndex _,
      fitsInt_lengthEndpoint start length⟩
  · obtain ⟨hforward, hforwardByte, hbackward, hbackwardByte⟩ := htracks.bounded
    simp only [range_of_tracks htracks, List.forall_mem_cons, List.not_mem_nil, false_imp_iff,
      implies_true, and_true]
    exact ⟨fitsInt_of_le hforward hlimit, fitsInt_of_le hforwardByte hlimit,
      fitsInt_of_le hbackward hlimit, fitsInt_of_le hbackwardByte hlimit,
      fitsInt_of_le (Utf8.offset_le text.bytes _) hlimit,
      fitsInt_of_le (Utf8.offset_le text.bytes _) hlimit⟩

end Text

/-- A length counts at most as many code points as it says. -/
theorem length_chosen_le (data : List UInt8) {start length : Int} (hlength : 0 < length) :
    ((chosen data (requestedLength (codePointCount data) start length)).length : Int) ≤
      length := by
  generalize hcount : codePointCount data = count
  obtain ⟨last, hlast⟩ : ∃ last, last = min count
      (if start ≥ 0 then start + length - 1 else count + start + length).toNat := ⟨_, rfl⟩
  have hwanted : ∀ index < codePointCount data, requestedLength count start length index =
      (decide (firstPosition count start ≤ index) && decide (index < last)) := by
    rw [hcount]
    intro index hindex
    unfold requestedLength numberFor firstPosition
    subst hlast
    congr 1
    · apply decide_eq_decide.mpr
      split <;> omega
    · apply decide_eq_decide.mpr
      split <;> omega
  rw [chosen_eq hwanted (by omega), List.length_range']
  unfold firstPosition
  split at hlast <;> split <;> omega

/-- Whatever the indexer was asked before, a range encloses exactly the code points
between its bounds, and the range of a length exactly those whose numbers from the
start on it counts, never more than it says. Nothing on the way overflows. -/
theorem range_denotes_requested (text : FrameText) (uses : List IndexerCall)
    {start stop length : Int} (hstart : -intMax ≤ start ∧ start ≤ intMax)
    (hstop : -intMax ≤ stop ∧ stop ≤ intMax) (hlength : 0 < length ∧ length ≤ intMax) :
    let indexer := (Utf8Indexer.reset text.bytes text.isAscii).after uses
    let count := codePointCount text.bytes
    Denotes text.bytes (indexer.range start stop).1 (requested count start stop) ∧
    Denotes text.bytes (indexer.range start (lengthEndpoint start length)).1
      (requestedLength count start length) ∧
    ((chosen text.bytes (requestedLength count start length)).length : Int) ≤ length ∧
    NoOverflow indexer start stop length := by
  intro indexer count
  have htracks : indexer.Tracks text.bytes text.isAscii :=
    (Utf8Indexer.tracks_reset text.bytes text.isAscii).after uses
  have hcount : count ≤ intMax := (Utf8.codePointCount_le text.bytes).trans text.length_le
  refine ⟨?_, ?_, length_chosen_le text.bytes hlength.1,
    noOverflow_of_tracks htracks hstart hstop hlength⟩
  · rw [range_of_tracks htracks]
    apply denotes_of_interval
    · intro index hindex
      exact requested_eq hindex
    · exact firstPosition_le _ _
    · exact lastPosition_le _ _
  · rw [range_of_tracks htracks]
    apply denotes_of_interval
    · intro index hindex
      rw [← requested_lengthEndpoint hcount hstart hlength hindex]
      exact requested_eq hindex
    · exact firstPosition_le _ _
    · exact lastPosition_le _ _

/-- "aéb": from the second to the last character, and two characters that start in front
of the string. -/
theorem range_denotes_sample :
    let text : FrameText := ⟨[0x61, 0xc3, 0xa9, 0x62], false, by decide, by decide⟩
    let indexer := (Utf8Indexer.reset text.bytes text.isAscii).after [.forward 2, .backward 1]
    Denotes text.bytes (indexer.range 2 (-1)).1 (requested (codePointCount text.bytes) 2 (-1)) ∧
      Denotes text.bytes (indexer.range (-4) (lengthEndpoint (-4) 2)).1
        (requestedLength (codePointCount text.bytes) (-4) 2) ∧
      (indexer.range 2 (-1)).1 = (1, 4) ∧
      (indexer.range (-4) (lengthEndpoint (-4) 2)).1 = (0, 1) := by
  intro text indexer
  have hsecond := range_denotes_requested text [.forward 2, .backward 1]
    (show -(intMax : Int) ≤ 2 ∧ (2 : Int) ≤ intMax by decide)
    (show -(intMax : Int) ≤ -1 ∧ (-1 : Int) ≤ intMax by decide)
    (show (0 : Int) < 2 ∧ (2 : Int) ≤ intMax by decide)
  have hfront := range_denotes_requested text [.forward 2, .backward 1]
    (show -(intMax : Int) ≤ -4 ∧ (-4 : Int) ≤ intMax by decide)
    (show -(intMax : Int) ≤ -1 ∧ (-1 : Int) ≤ intMax by decide)
    (show (0 : Int) < 2 ∧ (2 : Int) ≤ intMax by decide)
  exact ⟨hsecond.1, hfront.2.1, by decide, by decide⟩

end Charr.Substring
