import Charr.Regex.Matcher
import Charr.Text.PositionCursor

/-!
# Match ranges as positions

Byte ranges become the positions of R: one-based starts, and ends or lengths in code
points. A column of ranges is converted with one cursor for its starts and one for its
ends, in whatever order they come.
-/

namespace Charr.RegexSearch

/-- The end of a text of `INT_MAX` code points has no position, and stays where it is. -/
def oneBasedPosition (index : Int) : Int := if index < intMax then index + 1 else intMax

/-- A start and an end in code points, as R wants them. -/
def toPositions (first stop : Int) (returnLength : Bool) : RegexRange :=
  ⟨oneBasedPosition first, if returnLength then stop - first else stop⟩

/-- A group without part in the match stays as it is. -/
def regexRangeToPositions (subject : StringView) (returnLength : Bool) (range : RegexRange) :
    RegexRange :=
  if range.start < 0 ∨ range.stop < 0 then range
  else
    let first := (Utf8PositionCursor.create subject).atByte range.start
    let stop := first.2.atByte range.stop
    toPositions first.1 stop.1 returnLength

/-- The ranges in code points; one cursor finds the starts and one the ends. -/
def rangesLoop (returnLength : Bool) :
    Utf8PositionCursor → Utf8PositionCursor → List RegexRange → List RegexRange
  | _, _, [] => []
  | starts, ends, range :: ranges =>
      if range.start < 0 ∨ range.stop < 0 then
        range :: rangesLoop returnLength starts ends ranges
      else
        let first := starts.atByte range.start
        let stop := ends.atByte range.stop
        toPositions first.1 stop.1 returnLength ::
          rangesLoop returnLength first.2 stop.2 ranges

/-- Ranges in bytes as positions or as starts and lengths. -/
def regexRangesToPositions (subject : StringView) (returnLength : Bool)
    (ranges : List RegexRange) : List RegexRange :=
  rangesLoop returnLength (.create subject) (.create subject) ranges

section Ranges

variable {subject : StringView}

/-- A range is converted by counting the code points before its ends. -/
theorem regexRangeToPositions_eq (hsubject : TextView subject) (returnLength : Bool)
    (range : RegexRange) :
    regexRangeToPositions subject returnLength range =
      if range.start < 0 ∨ range.stop < 0 then range
      else toPositions (codePointsBefore subject.bytes range.start)
        (codePointsBefore subject.bytes range.stop) returnLength := by
  obtain ⟨hfirst, hafter⟩ := Utf8PositionCursor.atByte_eq hsubject
    (Utf8PositionCursor.on_create subject) range.start
  obtain ⟨hstop, -⟩ := Utf8PositionCursor.atByte_eq hsubject hafter range.stop
  unfold regexRangeToPositions
  simp only [hfirst, hstop]

/-- Two cursors going along give every range its position. -/
theorem rangesLoop_eq (hsubject : TextView subject) (returnLength : Bool)
    (ranges : List RegexRange) {starts ends : Utf8PositionCursor} (hstarts : starts.On subject)
    (hends : ends.On subject) :
    rangesLoop returnLength starts ends ranges =
      ranges.map (regexRangeToPositions subject returnLength) := by
  induction ranges generalizing starts ends with
  | nil => rfl
  | cons range ranges ih =>
      obtain ⟨hfirst, hstarts'⟩ := Utf8PositionCursor.atByte_eq hsubject hstarts range.start
      obtain ⟨hstop, hends'⟩ := Utf8PositionCursor.atByte_eq hsubject hends range.stop
      rw [rangesLoop, List.map_cons, regexRangeToPositions_eq hsubject]
      split
      next => rw [ih hstarts hends]
      next => simp only [hfirst, hstop, ih hstarts' hends']

end Ranges

/-- A cursor answers every target, in any order, with the number of code points that start
before it, as a new cursor does. So a column of ranges is converted as each of them is. -/
theorem positions_of_any_order {value : StringView} (hvalue : TextView value)
    (subject : CollationInput) (targets : List Int) (ranges : List RegexRange)
    (returnLength : Bool) :
    (Utf8PositionCursor.create value).answers targets =
      targets.map (fun target => (codePointsBefore value.bytes target : Int)) ∧
    (∀ target, ((Utf8PositionCursor.create value).atByte target).1 =
      codePointsBefore value.bytes target) ∧
    (CollationPositionCursor.create subject).answers targets =
      targets.map (fun target => (codePointsBefore16 subject.text target : Int)) ∧
    (∀ target, ((CollationPositionCursor.create subject).atUtf16 target).1 =
      codePointsBefore16 subject.text target) ∧
    regexRangesToPositions value returnLength ranges =
      ranges.map (regexRangeToPositions value returnLength) := by
  have hon := Utf8PositionCursor.on_create value
  have hon' := CollationPositionCursor.on_create subject
  refine ⟨Utf8PositionCursor.answers_eq hvalue hon targets, ?_,
    CollationPositionCursor.answers_eq hon' targets, ?_, ?_⟩
  · intro target
    exact (Utf8PositionCursor.atByte_eq hvalue hon target).1
  · intro target
    exact (CollationPositionCursor.atUtf16_eq hon' target).1
  · exact rangesLoop_eq hvalue returnLength ranges hon hon

/-- `éa`, its end first, then its start and the middle of `é`; U+1F600 and `a` as units. -/
theorem positions_of_accents :
    let value : StringView := ⟨.bytes ⟨16, [0xc3, 0xa9, 0x61], by decide⟩, .utf8⟩
    let subject : CollationInput := ⟨some [0xd83d, 0xde00, 0x61], 3, false, by simp⟩
    (Utf8PositionCursor.create value).answers [3, 0, 1, 2] = [2, 0, 1, 1] ∧
    (CollationPositionCursor.create subject).answers [3, 1, 2, 0] = [2, 1, 1, 0] ∧
    regexRangesToPositions value false [⟨2, 3⟩, ⟨0, 2⟩, ⟨-1, -1⟩, ⟨3, 3⟩] =
      [⟨2, 2⟩, ⟨1, 1⟩, ⟨-1, -1⟩, ⟨3, 2⟩] := by
  intro value subject
  have hvalue : TextView value := ⟨fun h => absurd h (by decide), fun h => absurd h (by decide)⟩
  have hutf8 := positions_of_any_order hvalue subject [3, 0, 1, 2]
    [⟨2, 3⟩, ⟨0, 2⟩, ⟨-1, -1⟩, ⟨3, 3⟩] false
  have hutf16 := positions_of_any_order hvalue subject [3, 1, 2, 0] [] false
  rw [hutf8.1, hutf8.2.2.2.2, hutf16.2.2.1]
  decide +kernel

end Charr.RegexSearch
