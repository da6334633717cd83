import Charr.Text.StringView
import Charr.Text.Tokens

/-!
# Code point positions

`Utf8Indexer` turns code point positions into byte positions and remembers the
last place it found from either end. Wherever it starts from, it finds the byte
the code point starts at, so what it remembers never shows.
-/

namespace Charr.Substring

open Utf8 (fwd1 back1 offset codePointCount)

/-- A text with the positions that were found last, from either end. -/
structure Utf8Indexer where
  data : List UInt8
  ascii : Bool
  lastForwardCodepoint : Nat
  lastForwardByte : Nat
  lastBackwardCodepoint : Nat
  lastBackwardByte : Nat
  deriving DecidableEq, Repr

/-- The indexer of a text, which knows its two ends. -/
def Utf8Indexer.reset (data : List UInt8) (ascii : Bool) : Utf8Indexer :=
  ⟨data, ascii, 0, 0, 0, data.length⟩

/-- Take steps while the code point is below `position` and there is more to go over. -/
def countUp (step : Nat → Nat) (more : Nat → Bool) (position : Nat) :
    Nat → Nat → Nat → Nat × Nat
  | 0, codepoint, byte => (codepoint, byte)
  | fuel + 1, codepoint, byte =>
      if codepoint < position && more byte then
        countUp step more position fuel (codepoint + 1) (step byte)
      else (codepoint, byte)

/-- The same towards a `position` below. -/
def countDown (step : Nat → Nat) (more : Nat → Bool) (position : Nat) :
    Nat → Nat → Nat → Nat × Nat
  | 0, codepoint, byte => (codepoint, byte)
  | fuel + 1, codepoint, byte =>
      if codepoint > position && more byte then
        countDown step more position fuel (codepoint - 1) (step byte)
      else (codepoint, byte)

namespace Utf8Indexer

variable (indexer : Utf8Indexer)

/-- The byte where a code point begins, counted from the start. -/
def forward (position : Int) : Nat × Utf8Indexer :=
  if position ≤ 0 then (0, indexer)
  else if indexer.ascii then (min position.toNat indexer.data.length, indexer)
  else
    let last := indexer.lastForwardCodepoint
    let position := position.toNat
    if 0 < last && position < last && last - position < position then
      let byte := (countDown (back1 indexer.data) (0 < ·) position last last
        indexer.lastForwardByte).2
      (byte, { indexer with lastForwardCodepoint := position, lastForwardByte := byte })
    else
      let start := if 0 < last && last ≤ position then (last, indexer.lastForwardByte) else (0, 0)
      let reached := countUp (fwd1 indexer.data) (· < indexer.data.length) position position
        start.1 start.2
      (reached.2, { indexer with
        lastForwardCodepoint := reached.1, lastForwardByte := reached.2 })

/-- The byte where a code point begins, counted from the end. -/
def backward (position : Int) : Nat × Utf8Indexer :=
  if position ≤ 0 then (indexer.data.length, indexer)
  else if indexer.ascii then (indexer.data.length - position.toNat, indexer)
  else
    let last := indexer.lastBackwardCodepoint
    let position := position.toNat
    if 0 < last && position < last && last - position < position then
      let byte := (countDown (fwd1 indexer.data) (· < indexer.data.length) position last last
        indexer.lastBackwardByte).2
      (byte, { indexer with lastBackwardCodepoint := position, lastBackwardByte := byte })
    else
      let start := if 0 < last && last ≤ position then (last, indexer.lastBackwardByte)
        else (0, indexer.data.length)
      let reached := countUp (back1 indexer.data) (0 < ·) position position start.1 start.2
      (reached.2, { indexer with
        lastBackwardCodepoint := reached.1, lastBackwardByte := reached.2 })

end Utf8Indexer

/-- The loop over `U8_FWD_1` that counts code points. -/
def countLoop (data : List UInt8) : Nat → Nat → Nat → Nat
  | 0, codepoints, _ => codepoints
  | fuel + 1, codepoints, byte =>
      if byte < data.length then countLoop data fuel (codepoints + 1) (fwd1 data byte)
      else codepoints

/-- The length in code points. -/
def Utf8Indexer.codepointCount (indexer : Utf8Indexer) : Nat :=
  if indexer.ascii then indexer.data.length
  else countLoop indexer.data indexer.data.length 0 0

/-- An index cut to what R counts with. -/
def nonnegativeIndex (value : Int) : Int :=
  if value ≤ 0 then 0 else if value ≥ intMax then intMax else value

/-- The byte range of the code points from `start` up to `stop`, both counted from one, or from
the end when negative. -/
def Utf8Indexer.range (indexer : Utf8Indexer) (start stop : Int) :
    (Nat × Nat) × Utf8Indexer :=
  let (first, indexer) :=
    if start ≥ 0 then indexer.forward (nonnegativeIndex (start - 1))
    else indexer.backward (nonnegativeIndex (-start))
  let (last, indexer) :=
    if stop ≥ 0 then indexer.forward stop
    else indexer.backward (nonnegativeIndex (-stop - 1))
  ((first, last), indexer)

/-- The last code point of a range given by its length; from the end it stays there. -/
def lengthEndpoint (start length : Int) : Int :=
  let endpoint := start + length - 1
  if start < 0 && endpoint ≥ 0 then -1
  else if endpoint ≥ intMax then intMax
  else if endpoint ≤ -intMax then -intMax
  else endpoint

/-! ## What the indexer finds -/

section Walk

variable {step : Nat → Nat} {more : Nat → Bool} {place : Nat → Nat} {count position : Nat}

/-- Counting up reaches the position, or the last place there is. -/
theorem countUp_eq (hstep : ∀ index < count, step (place index) = place (index + 1))
    (hmore : ∀ index ≤ count, more (place index) = decide (index < count)) (fuel : Nat)
    {codepoint : Nat} (hcount : codepoint ≤ count) (hle : codepoint ≤ position)
    (hfuel : position ≤ codepoint + fuel) :
    countUp step more position fuel codepoint (place codepoint) =
      (min position count, place (min position count)) := by
  induction fuel generalizing codepoint with
  | zero =>
      obtain rfl : codepoint = position := by omega
      rw [Nat.min_eq_left hcount]
      rfl
  | succ fuel ih =>
      rw [countUp, hmore codepoint hcount]
      split
      next hboth =>
        simp only [Bool.and_eq_true, decide_eq_true_eq] at hboth
        rw [hstep codepoint hboth.2]
        exact ih hboth.2 hboth.1 (by omega)
      next hstop =>
        simp only [Bool.and_eq_true, decide_eq_true_eq] at hstop
        have hmin : min position count = codepoint := by omega
        rw [hmin]

/-- Going down position by position. -/
theorem countDown_eq (hstep : ∀ index < count, step (place (index + 1)) = place index)
    (hmore : ∀ index < count, more (place (index + 1)) = true) (fuel : Nat)
    {codepoint : Nat} (hcount : codepoint ≤ count) (hle : position ≤ codepoint)
    (hfuel : codepoint ≤ position + fuel) :
    countDown step more position fuel codepoint (place codepoint) = (position, place position) := by
  induction fuel generalizing codepoint with
  | zero =>
      obtain rfl : codepoint = position := by omega
      rfl
  | succ fuel ih =>
      rw [countDown]
      by_cases hreached : codepoint = position
      · subst hreached
        simp
      · obtain ⟨index, rfl⟩ : ∃ index, codepoint = index + 1 := ⟨codepoint - 1, by omega⟩
        have habove : index + 1 > position := by omega
        rw [if_pos (by simp [habove, hmore index (by omega)]), hstep index (by omega),
          Nat.add_sub_cancel]
        exact ih (by omega) (by omega) (by omega)

end Walk

section Places

variable (data : List UInt8)

/-- The byte in front of the last `count` code points. -/
def offsetFromEnd (count : Nat) : Nat := offset data (codePointCount data - count)

theorem lt_length_offset {index : Nat} (hindex : index ≤ codePointCount data) :
    decide (offset data index < data.length) = decide (index < codePointCount data) := by
  apply decide_eq_decide.mpr
  constructor
  · intro hinside
    rcases Nat.lt_or_eq_of_le hindex with hlt | rfl
    · exact hlt
    · rw [Utf8.offset_codePointCount] at hinside
      exact absurd hinside (Nat.lt_irrefl _)
  · intro hlt
    exact (Utf8.fwd1_offset data hlt).2.trans_le (Utf8.offset_le data _)

theorem pos_offset {index : Nat} (hindex : index ≤ codePointCount data) :
    decide (0 < offset data index) = decide (0 < index) := by
  apply decide_eq_decide.mpr
  constructor
  · intro hpos
    apply Nat.pos_of_ne_zero
    rintro rfl
    exact absurd hpos (Nat.lt_irrefl _)
  · intro hpos
    exact Utf8.offset_lt_offset data hpos hindex

/-- Counting up from the start stops at the end of the text. -/
theorem countUp_forward {position codepoint : Nat} (hcount : codepoint ≤ codePointCount data)
    (hle : codepoint ≤ position) {fuel : Nat} (hfuel : position ≤ codepoint + fuel) :
    countUp (fwd1 data) (fun byte => byte < data.length) position fuel codepoint
        (offset data codepoint) =
      (min position (codePointCount data), offset data (min position (codePointCount data))) :=
  countUp_eq (fun _ hindex => (Utf8.fwd1_offset data hindex).1)
    (fun _ hindex => lt_length_offset data hindex) fuel hcount hle hfuel

/-- Counting down goes back to the position. -/
theorem countDown_forward {position codepoint : Nat} (hcount : codepoint ≤ codePointCount data)
    (hle : position ≤ codepoint) {fuel : Nat} (hfuel : codepoint ≤ position + fuel) :
    countDown (back1 data) (fun byte => 0 < byte) position fuel codepoint
        (offset data codepoint) = (position, offset data position) :=
  countDown_eq (fun _ hindex => Utf8.back1_offset data hindex)
    (fun _ hindex => by rw [pos_offset data hindex]; simp) fuel hcount hle hfuel

/-- Counting up from the end stops at the start. -/
theorem countUp_backward {position codepoint : Nat} (hcount : codepoint ≤ codePointCount data)
    (hle : codepoint ≤ position) {fuel : Nat} (hfuel : position ≤ codepoint + fuel) :
    countUp (back1 data) (fun byte => 0 < byte) position fuel codepoint
        (offsetFromEnd data codepoint) =
      (min position (codePointCount data),
        offsetFromEnd data (min position (codePointCount data))) := by
  refine countUp_eq ?_ ?_ fuel hcount hle hfuel
  · intro index hindex
    have hinside : codePointCount data - (index + 1) < codePointCount data := by omega
    unfold offsetFromEnd
    rw [← Utf8.back1_offset data hinside]
    congr 2
    omega
  · intro index hindex
    unfold offsetFromEnd
    rw [pos_offset data (by omega)]
    apply decide_eq_decide.mpr
    omega

/-- Counting down goes back towards the end. -/
theorem countDown_backward {position codepoint : Nat} (hcount : codepoint ≤ codePointCount data)
    (hle : position ≤ codepoint) {fuel : Nat} (hfuel : codepoint ≤ position + fuel) :
    countDown (fwd1 data) (fun byte => byte < data.length) position fuel codepoint
        (offsetFromEnd data codepoint) = (position, offsetFromEnd data position) := by
  refine countDown_eq ?_ ?_ fuel hcount hle hfuel
  · intro index hindex
    have hinside : codePointCount data - (index + 1) < codePointCount data := by omega
    unfold offsetFromEnd
    rw [(Utf8.fwd1_offset data hinside).1]
    congr 1
    omega
  · intro index hindex
    unfold offsetFromEnd
    rw [lt_length_offset data (by omega), decide_eq_true_eq]
    omega

end Places

/-- What an indexer remembers is true, and so is its mark. -/
structure Utf8Indexer.Consistent (indexer : Utf8Indexer) : Prop where
  ascii : indexer.ascii = true → ∀ byte ∈ indexer.data, byte < 0x80
  forward_le : indexer.lastForwardCodepoint ≤ codePointCount indexer.data
  forward : indexer.lastForwardByte = offset indexer.data indexer.lastForwardCodepoint
  backward_le : indexer.lastBackwardCodepoint ≤ codePointCount indexer.data
  backward : indexer.lastBackwardByte = offsetFromEnd indexer.data indexer.lastBackwardCodepoint

namespace Utf8Indexer

/-- A new indexer is consistent. -/
theorem consistent_reset {data : List UInt8} {ascii : Bool}
    (hascii : ascii = true → ∀ byte ∈ data, byte < 0x80) : (reset data ascii).Consistent where
  ascii := hascii
  forward_le := Nat.zero_le _
  forward := rfl
  backward_le := Nat.zero_le _
  backward := (Utf8.offset_codePointCount data).symm

section Positions

variable {indexer : Utf8Indexer} (hconsistent : indexer.Consistent) (position : Int)
include hconsistent

/-- Looking forward finds the code point from the start, and the memory stays true. -/
theorem forward_eq :
    (indexer.forward position).1 = offset indexer.data position.toNat ∧
      (indexer.forward position).2.Consistent ∧
      (indexer.forward position).2.data = indexer.data := by
  unfold forward
  split
  next hstart =>
    rw [Int.toNat_of_nonpos hstart]
    exact ⟨rfl, hconsistent, rfl⟩
  next hpositive =>
    split
    next hascii =>
      rw [Utf8.offset_ascii (hconsistent.ascii hascii)]
      exact ⟨rfl, hconsistent, rfl⟩
    next =>
      simp only
      split
      next hback =>
        simp only [Bool.and_eq_true, decide_eq_true_eq] at hback
        rw [hconsistent.forward, countDown_forward indexer.data hconsistent.forward_le
          (by omega) (by omega)]
        have hinside : position.toNat ≤ codePointCount indexer.data := by
          have hle := hconsistent.forward_le
          omega
        exact ⟨rfl, ⟨hconsistent.ascii, hinside, rfl, hconsistent.backward_le,
          hconsistent.backward⟩, rfl⟩
      next =>
        obtain ⟨start, hle, hposition, hstart⟩ : ∃ start,
            start ≤ codePointCount indexer.data ∧ start ≤ position.toNat ∧
            (if (decide (0 < indexer.lastForwardCodepoint) &&
                decide (indexer.lastForwardCodepoint ≤ position.toNat)) = true then
              (indexer.lastForwardCodepoint, indexer.lastForwardByte) else (0, 0)) =
              (start, offset indexer.data start) := by
          split
          next hlast =>
            simp only [Bool.and_eq_true, decide_eq_true_eq] at hlast
            exact ⟨_, hconsistent.forward_le, hlast.2, by rw [hconsistent.forward]⟩
          next => exact ⟨0, Nat.zero_le _, Nat.zero_le _, rfl⟩
        rw [hstart, countUp_forward indexer.data hle hposition (by omega)]
        refine ⟨?_, ⟨hconsistent.ascii, Nat.min_le_right _ _, rfl, hconsistent.backward_le,
          hconsistent.backward⟩, rfl⟩
        rcases Nat.le_total position.toNat (codePointCount indexer.data) with hless | hmore
        · rw [Nat.min_eq_left hless]
        · rw [Nat.min_eq_right hmore, Utf8.offset_codePointCount, Utf8.offset_of_le _ hmore]

/-- Looking backward finds it from the end. -/
theorem backward_eq :
    (indexer.backward position).1 = offsetFromEnd indexer.data position.toNat ∧
      (indexer.backward position).2.Consistent ∧
      (indexer.backward position).2.data = indexer.data := by
  unfold backward
  split
  next hstart =>
    rw [Int.toNat_of_nonpos hstart]
    exact ⟨(Utf8.offset_codePointCount _).symm, hconsistent, rfl⟩
  next hpositive =>
    split
    next hascii =>
      have hall := hconsistent.ascii hascii
      unfold offsetFromEnd
      rw [Utf8.offset_ascii hall, Utf8.codePointCount_ascii hall,
        Nat.min_eq_left (Nat.sub_le _ _)]
      exact ⟨rfl, hconsistent, rfl⟩
    next =>
      simp only
      split
      -- the remembered place lies further to the left, so the walk goes right from it
      next hback =>
        simp only [Bool.and_eq_true, decide_eq_true_eq] at hback
        rw [hconsistent.backward, countDown_backward indexer.data hconsistent.backward_le
          (by omega) (by omega)]
        have hinside : position.toNat ≤ codePointCount indexer.data := by
          have hle := hconsistent.backward_le
          omega
        exact ⟨rfl, ⟨hconsistent.ascii, hconsistent.forward_le, hconsistent.forward, hinside,
          rfl⟩, rfl⟩
      next =>
        -- the walk begins at the remembered place or at the end
        obtain ⟨start, hle, hposition, hstart⟩ : ∃ start,
            start ≤ codePointCount indexer.data ∧ start ≤ position.toNat ∧
            (if (decide (0 < indexer.lastBackwardCodepoint) &&
                decide (indexer.lastBackwardCodepoint ≤ position.toNat)) = true then
              (indexer.lastBackwardCodepoint, indexer.lastBackwardByte)
              else (0, indexer.data.length)) = (start, offsetFromEnd indexer.data start) := by
          split
          next hlast =>
            simp only [Bool.and_eq_true, decide_eq_true_eq] at hlast
            exact ⟨_, hconsistent.backward_le, hlast.2, by rw [hconsistent.backward]⟩
          next =>
            refine ⟨0, Nat.zero_le _, Nat.zero_le _, ?_⟩
            rw [offsetFromEnd, Nat.sub_zero, Utf8.offset_codePointCount]
        rw [hstart, countUp_backward indexer.data hle hposition (by omega)]
        refine ⟨?_, ⟨hconsistent.ascii, hconsistent.forward_le, hconsistent.forward,
          Nat.min_le_right _ _, rfl⟩, rfl⟩
        have hsame : codePointCount indexer.data - min position.toNat
            (codePointCount indexer.data) = codePointCount indexer.data - position.toNat := by
          omega
        rw [offsetFromEnd, hsame, offsetFromEnd]

end Positions

end Utf8Indexer

/-- The loop counts the code points from an offset on. -/
theorem countLoop_eq (data : List UInt8) (fuel : Nat) {codepoints index : Nat}
    (hindex : index ≤ codePointCount data) (hfuel : data.length ≤ offset data index + fuel) :
    countLoop data fuel codepoints (offset data index) =
      codepoints + (codePointCount data - index) := by
  induction fuel generalizing codepoints index with
  | zero =>
      have hend : ¬ index < codePointCount data := by
        rw [← decide_eq_false_iff_not, ← lt_length_offset data hindex, decide_eq_false_iff_not]
        omega
      rw [countLoop]
      omega
  | succ fuel ih =>
      rw [countLoop]
      by_cases hinside : index < codePointCount data
      · obtain ⟨hforward, hlt⟩ := Utf8.fwd1_offset data hinside
        have hless : offset data index < data.length := hlt.trans_le (Utf8.offset_le data _)
        have hnext : data.length ≤ offset data (index + 1) + fuel := by omega
        rw [if_pos hless, hforward, ih hinside hnext]
        omega
      · have hend : ¬ offset data index < data.length := by
          rw [← decide_eq_false_iff_not, lt_length_offset data hindex, decide_eq_false_iff_not]
          exact hinside
        rw [if_neg hend]
        omega

/-- The loop counts all code points from the start. -/
theorem countLoop_all (data : List UInt8) :
    countLoop data data.length 0 0 = codePointCount data := by
  have hloop : countLoop data data.length 0 (offset data 0) = 0 + (codePointCount data - 0) :=
    countLoop_eq data data.length (Nat.zero_le _) (Nat.le_add_left _ _)
  simpa using hloop

/-- The count is that of the code points. -/
theorem Utf8Indexer.codepointCount_eq {indexer : Utf8Indexer} (hconsistent : indexer.Consistent) :
    indexer.codepointCount = codePointCount indexer.data := by
  unfold codepointCount
  split
  next hascii => exact (Utf8.codePointCount_ascii (hconsistent.ascii hascii)).symm
  next => exact countLoop_all indexer.data

/-! ## Ranges of code points -/

/-- The code point a range starts at, of `count`. -/
def firstPosition (count : Nat) (start : Int) : Nat :=
  if start ≥ 0 then min (start - 1).toNat count else count - (-start).toNat

/-- The code point a range ends in front of. -/
def lastPosition (count : Nat) (stop : Int) : Nat :=
  if stop ≥ 0 then min stop.toNat count else count - (-stop - 1).toNat

theorem offset_min (data : List UInt8) (position : Nat) :
    offset data (min position (codePointCount data)) = offset data position := by
  rcases Nat.le_total position (codePointCount data) with hle | hge
  · rw [Nat.min_eq_left hle]
  · rw [Nat.min_eq_right hge, Utf8.offset_codePointCount, Utf8.offset_of_le data hge]

/-- No text has more code points than an index can reach. -/
theorem min_nonnegativeIndex {count : Nat} (hcount : count ≤ intMax) (value : Int) :
    min (nonnegativeIndex value).toNat count = min value.toNat count := by
  unfold nonnegativeIndex
  split_ifs <;> omega

/-- Cutting an index does not matter within the length of a string. -/
theorem sub_nonnegativeIndex {count : Nat} (hcount : count ≤ intMax) (value : Int) :
    count - (nonnegativeIndex value).toNat = count - value.toNat := by
  unfold nonnegativeIndex
  split_ifs <;> omega

/-- A range goes from its first to its last position. -/
theorem Utf8Indexer.range_eq {indexer : Utf8Indexer} (hconsistent : indexer.Consistent)
    (hlength : indexer.data.length ≤ intMax) (start stop : Int) :
    (indexer.range start stop).1 =
      (offset indexer.data (firstPosition (codePointCount indexer.data) start),
        offset indexer.data (lastPosition (codePointCount indexer.data) stop)) := by
  have hcount := (Utf8.codePointCount_le indexer.data).trans hlength
  obtain ⟨hfirst, hmiddle, hdata⟩ :
      (if start ≥ 0 then indexer.forward (nonnegativeIndex (start - 1))
        else indexer.backward (nonnegativeIndex (-start))).1 =
        offset indexer.data (firstPosition (codePointCount indexer.data) start) ∧
      (if start ≥ 0 then indexer.forward (nonnegativeIndex (start - 1))
        else indexer.backward (nonnegativeIndex (-start))).2.Consistent ∧
      (if start ≥ 0 then indexer.forward (nonnegativeIndex (start - 1))
        else indexer.backward (nonnegativeIndex (-start))).2.data = indexer.data := by
    unfold firstPosition
    split
    next hstart =>
      obtain ⟨hbyte, hnext, hsame⟩ := forward_eq hconsistent (nonnegativeIndex (start - 1))
      refine ⟨?_, hnext, hsame⟩
      rw [hbyte, ← min_nonnegativeIndex hcount, offset_min]
    next hstart =>
      obtain ⟨hbyte, hnext, hsame⟩ := backward_eq hconsistent (nonnegativeIndex (-start))
      refine ⟨?_, hnext, hsame⟩
      rw [hbyte, ← sub_nonnegativeIndex hcount, offsetFromEnd]
  unfold range
  generalize (if start ≥ 0 then indexer.forward (nonnegativeIndex (start - 1))
    else indexer.backward (nonnegativeIndex (-start))) = middle at *
  obtain ⟨first, middle⟩ := middle
  simp only at hfirst hmiddle hdata ⊢
  rw [hfirst]
  congr 1
  unfold lastPosition
  split
  next hstop =>
    rw [(forward_eq hmiddle stop).1, hdata, offset_min]
  next hstop =>
    rw [(backward_eq hmiddle _).1, hdata, ← sub_nonnegativeIndex hcount, offsetFromEnd]

end Charr.Substring
