import Charr.Substring.Indexer

/-!
# Sequences of calls on an indexer

An indexer answers one call after the other and moves its two cursors as it goes.
Every answer is the one a freshly reset indexer gives: as many steps of the forward
iteration from the start, or of the backward iteration from the end, as were asked
for and as there are code points.
-/

namespace Charr.Substring

open Utf8 (fwd1 back1 boundary offset codePointCount)

/-- What an indexer is asked for. -/
inductive IndexerCall where
  | forward (position : Int)
  | backward (position : Int)
  | range (start stop : Int)
  | codepointCount
  deriving DecidableEq, Repr

/-- What it answers. -/
inductive IndexerAnswer where
  | byte (index : Nat)
  | range (bytes : Nat × Nat)
  | count (codepoints : Nat)
  deriving DecidableEq, Repr

namespace Utf8Indexer

/-- A call: its answer, and the indexer it leaves. -/
def call (indexer : Utf8Indexer) : IndexerCall → IndexerAnswer × Utf8Indexer
  | .forward position =>
      let (byte, indexer) := indexer.forward position
      (.byte byte, indexer)
  | .backward position =>
      let (byte, indexer) := indexer.backward position
      (.byte byte, indexer)
  | .range start stop =>
      let (bytes, indexer) := indexer.range start stop
      (.range bytes, indexer)
  | .codepointCount => (.count indexer.codepointCount, indexer)

/-- The answers to some calls in turn. -/
def answers (indexer : Utf8Indexer) : List IndexerCall → List IndexerAnswer
  | [] => []
  | use :: rest =>
      let (answer, indexer) := indexer.call use
      answer :: indexer.answers rest

/-- The indexer after some calls. -/
def after (indexer : Utf8Indexer) (uses : List IndexerCall) : Utf8Indexer :=
  uses.foldl (fun indexer use => (indexer.call use).2) indexer

/-! ## What stays true between the calls -/

/-- The indexer has been reset to this text, and its cursors stand where they say they do,
or have never been moved. -/
structure Tracks (data : List UInt8) (ascii : Bool) (indexer : Utf8Indexer) : Prop where
  data_eq : indexer.data = data
  ascii_eq : indexer.ascii = ascii
  cursors : ascii = false → indexer.Consistent
  idle : ascii = true → indexer = reset data ascii

variable {data : List UInt8} {ascii : Bool} {indexer : Utf8Indexer}

/-- A new indexer tracks its text. -/
theorem tracks_reset (data : List UInt8) (ascii : Bool) :
    (reset data ascii).Tracks data ascii := by
  refine ⟨rfl, rfl, fun hplain => consistent_reset ?_, fun _ => rfl⟩
  simp [hplain]

/-- ASCII text is indexed without the cursors. -/
theorem forward_ascii (hascii : indexer.ascii = true) (position : Int) :
    indexer.forward position = (min position.toNat indexer.data.length, indexer) := by
  unfold forward
  split
  next hstart => rw [Int.toNat_of_nonpos hstart, Nat.zero_min]
  next => rfl

theorem backward_ascii (hascii : indexer.ascii = true) (position : Int) :
    indexer.backward position = (indexer.data.length - position.toNat, indexer) := by
  unfold backward
  split
  next hstart => rw [Int.toNat_of_nonpos hstart, Nat.sub_zero]
  next => rfl

theorem forward_mark (indexer : Utf8Indexer) (position : Int) :
    (indexer.forward position).2.ascii = indexer.ascii := by
  unfold forward
  split
  next => rfl
  next =>
    split
    next => rfl
    next =>
      simp only
      split <;> rfl

theorem backward_mark (indexer : Utf8Indexer) (position : Int) :
    (indexer.backward position).2.ascii = indexer.ascii := by
  unfold backward
  split
  next => rfl
  next =>
    split
    next => rfl
    next =>
      simp only
      split <;> rfl

/-- The byte `position` units from the start. -/
def forwardByte (data : List UInt8) (ascii : Bool) (position : Int) : Nat :=
  if ascii then min position.toNat data.length else offset data position.toNat

/-- The byte `position` units in front of the end. -/
def backwardByte (data : List UInt8) (ascii : Bool) (position : Int) : Nat :=
  if ascii then data.length - position.toNat else offsetFromEnd data position.toNat

/-- A position from the start is answered by the text alone. -/
theorem Tracks.forward (htracks : indexer.Tracks data ascii) (position : Int) :
    (indexer.forward position).1 = forwardByte data ascii position ∧
      (indexer.forward position).2.Tracks data ascii := by
  have hmark := indexer.forward_mark position
  obtain ⟨rfl, rfl, hcursors, hidle⟩ := htracks
  cases hascii : indexer.ascii with
  | true =>
      rw [forward_ascii hascii]
      exact ⟨rfl, rfl, hascii, fun hplain => absurd hplain (by simp), hascii ▸ hidle⟩
  | false =>
      obtain ⟨hbyte, hconsistent, hdata⟩ := forward_eq (hcursors hascii) position
      exact ⟨hbyte, hdata, hmark.trans hascii, fun _ => hconsistent, by simp⟩

theorem Tracks.backward (htracks : indexer.Tracks data ascii) (position : Int) :
    (indexer.backward position).1 = backwardByte data ascii position ∧
      (indexer.backward position).2.Tracks data ascii := by
  have hmark := indexer.backward_mark position
  obtain ⟨rfl, rfl, hcursors, hidle⟩ := htracks
  cases hascii : indexer.ascii with
  | true =>
      rw [backward_ascii hascii]
      exact ⟨rfl, rfl, hascii, fun hplain => absurd hplain (by simp), hascii ▸ hidle⟩
  | false =>
      obtain ⟨hbyte, hconsistent, hdata⟩ := backward_eq (hcursors hascii) position
      exact ⟨hbyte, hdata, hmark.trans hascii, fun _ => hconsistent, by simp⟩

/-- The two bytes of a range, each counted from its own end. -/
def rangeBytes (data : List UInt8) (ascii : Bool) (start stop : Int) : Nat × Nat :=
  (if start ≥ 0 then forwardByte data ascii (nonnegativeIndex (start - 1))
    else backwardByte data ascii (nonnegativeIndex (-start)),
  if stop ≥ 0 then forwardByte data ascii stop
    else backwardByte data ascii (nonnegativeIndex (-stop - 1)))

theorem Tracks.either (htracks : indexer.Tracks data ascii) (fromStart : Prop)
    [Decidable fromStart] (position fromEnd : Int) :
    (if fromStart then indexer.forward position else indexer.backward fromEnd).1 =
        (if fromStart then forwardByte data ascii position
          else backwardByte data ascii fromEnd) ∧
      (if fromStart then indexer.forward position
        else indexer.backward fromEnd).2.Tracks data ascii := by
  split
  next => exact htracks.forward position
  next => exact htracks.backward fromEnd

theorem Tracks.range (htracks : indexer.Tracks data ascii) (start stop : Int) :
    (indexer.range start stop).1 = rangeBytes data ascii start stop ∧
      (indexer.range start stop).2.Tracks data ascii := by
  -- the second bound is looked up where the first has left the cursors
  obtain ⟨hfirst, hmiddle⟩ := htracks.either (start ≥ 0) (nonnegativeIndex (start - 1))
    (nonnegativeIndex (-start))
  obtain ⟨hlast, hnext⟩ := hmiddle.either (stop ≥ 0) stop (nonnegativeIndex (-stop - 1))
  exact ⟨Prod.ext hfirst hlast, hnext⟩

/-- What a call answers, whatever came before it. -/
def answerTo (data : List UInt8) (ascii : Bool) : IndexerCall → IndexerAnswer
  | .forward position => .byte (forwardByte data ascii position)
  | .backward position => .byte (backwardByte data ascii position)
  | .range start stop => .range (rangeBytes data ascii start stop)
  | .codepointCount => .count (if ascii then data.length else codePointCount data)

/-- Every call is answered by the text alone. -/
theorem Tracks.call (htracks : indexer.Tracks data ascii) (use : IndexerCall) :
    (indexer.call use).1 = answerTo data ascii use ∧
      (indexer.call use).2.Tracks data ascii := by
  cases use with
  | forward position =>
      obtain ⟨hbyte, hnext⟩ := htracks.forward position
      exact ⟨congrArg IndexerAnswer.byte hbyte, hnext⟩
  | backward position =>
      obtain ⟨hbyte, hnext⟩ := htracks.backward position
      exact ⟨congrArg IndexerAnswer.byte hbyte, hnext⟩
  | range start stop =>
      obtain ⟨hbytes, hnext⟩ := htracks.range start stop
      exact ⟨congrArg IndexerAnswer.range hbytes, hnext⟩
  | codepointCount =>
      refine ⟨congrArg IndexerAnswer.count ?_, htracks⟩
      obtain ⟨rfl, rfl, -, -⟩ := htracks
      unfold codepointCount
      rw [countLoop_all]

/-- The answers of any calls. -/
theorem Tracks.answers (htracks : indexer.Tracks data ascii) (uses : List IndexerCall) :
    indexer.answers uses = uses.map (answerTo data ascii) := by
  induction uses generalizing indexer with
  | nil => rfl
  | cons use rest ih =>
      obtain ⟨hanswer, hnext⟩ := htracks.call use
      rw [List.map_cons, ← hanswer, ← ih hnext]
      rfl

/-- After any calls the indexer tracks its text. -/
theorem Tracks.after (htracks : indexer.Tracks data ascii) (uses : List IndexerCall) :
    (indexer.after uses).Tracks data ascii := by
  induction uses generalizing indexer with
  | nil => exact htracks
  | cons use rest ih => exact ih (htracks.call use).2

/-- The cursors stay inside the text. -/
theorem Tracks.bounded (htracks : indexer.Tracks data ascii) :
    indexer.lastForwardCodepoint ≤ data.length ∧ indexer.lastForwardByte ≤ data.length ∧
      indexer.lastBackwardCodepoint ≤ data.length ∧ indexer.lastBackwardByte ≤ data.length := by
  cases ascii with
  | true =>
      rw [htracks.idle rfl]
      exact ⟨Nat.zero_le _, Nat.zero_le _, Nat.zero_le _, Nat.le_refl _⟩
  | false =>
      obtain ⟨-, hforward, hforwardByte, hbackward, hbackwardByte⟩ := htracks.cursors rfl
      rw [htracks.data_eq] at hforward hforwardByte hbackward hbackwardByte
      have hcount := Utf8.codePointCount_le data
      rw [hforwardByte, hbackwardByte]
      exact ⟨hforward.trans hcount, Utf8.offset_le data _, hbackward.trans hcount,
        Utf8.offset_le data _⟩

/-! ## Units from either end -/

/-- Behind the last code point there is nothing to step over. -/
theorem forwardByte_eq (data : List UInt8) (position : Int) :
    forwardByte data false position =
      (fwd1 data)^[min position.toNat (codePointCount data)] 0 := by
  change offset data position.toNat = boundary data _
  rw [← offset_min, Utf8.offset_eq_boundary data (Nat.min_le_right _ _)]

/-- Going back from the end, one code point for each step. -/
theorem backwardByte_eq (data : List UInt8) (position : Int) :
    backwardByte data false position =
      (back1 data)^[min position.toNat (codePointCount data)] data.length := by
  change offset data (codePointCount data - position.toNat) = _
  have hsteps : codePointCount data - position.toNat +
      min position.toNat (codePointCount data) = codePointCount data := by omega
  have hend : boundary data (codePointCount data) = data.length := by
    rw [← Utf8.offset_eq_boundary data (Nat.le_refl _), Utf8.offset_codePointCount]
  have hback := @Utf8.back1_iterate_boundary data (codePointCount data - position.toNat)
    (min position.toNat (codePointCount data)) (by rw [hsteps, hend])
  rw [hsteps, hend] at hback
  rw [hback, Utf8.offset_eq_boundary data (Nat.sub_le _ _)]

/-- Whatever bytes an indexer is reset to and whatever is asked in whatever order, each
call is answered as by a freshly reset indexer. In text of any bytes, a position is as
many steps away from its end of the text as it says, or as there are code points; in
text marked as ASCII the steps are bytes. -/
theorem answers_eq_fresh (data : List UInt8) (ascii : Bool) (uses : List IndexerCall) :
    (reset data ascii).answers uses = uses.map (fun use => ((reset data ascii).call use).1) ∧
    ∀ position : Int,
      ((reset data false).forward position).1 =
        (fwd1 data)^[min position.toNat (reset data false).codepointCount] 0 ∧
      ((reset data false).backward position).1 =
        (back1 data)^[min position.toNat (reset data false).codepointCount] data.length ∧
      ((reset data true).forward position).1 = min position.toNat data.length ∧
      ((reset data true).backward position).1 =
        data.length - min position.toNat data.length := by
  constructor
  · rw [(tracks_reset data ascii).answers uses]
    apply List.map_congr_left
    intro use _
    exact ((tracks_reset data ascii).call use).1.symm
  · intro position
    have hcount : (reset data false).codepointCount = codePointCount data := countLoop_all data
    rw [hcount, ← forwardByte_eq, ← backwardByte_eq]
    refine ⟨((tracks_reset data false).forward position).1,
      ((tracks_reset data false).backward position).1,
      congrArg Prod.fst (forward_ascii rfl position), ?_⟩
    rw [backward_ascii rfl position]
    change data.length - position.toNat = _
    omega

example : (reset [0x61, 0xe2, 0x82, 0xff, 0x62] false).answers
    [.forward 4, .forward 3, .backward 3, .backward 2, .codepointCount] =
    [.byte 5, .byte 4, .byte 1, .byte 3, .count 4] := by
  decide

end Utf8Indexer

end Charr.Substring
