import Charr.Library.Occurrence
import Charr.Text.StringView

/-!
# Exact byte search

The C library searches the fixed kernels are built on, the loop that verifies
candidates found by their first byte, and the two header functions that search
without a matcher.
-/

namespace Charr.FixedSearch

open Occurrence (At IsFirst Finds Greedy)

/-- `memchr`: the first of `count` bytes that equals `byte`. -/
def memchr (bytes : List UInt8) (byte : UInt8) (count : Nat) : Option Nat :=
  (bytes.take count).findIdx? (· == byte)

/-- `memcmp(...) == 0`: the first `count` bytes agree. -/
def memequal (left right : List UInt8) (count : Nat) : Bool :=
  left.take count == right.take count

/-- Look for `byte` from `current` up to position `last`, until a candidate is
accepted. -/
def candidateLoop (bytes : List UInt8) (byte : UInt8) (last : Nat) (accept : Nat → Bool) :
    Nat → Nat → Option Nat
  | 0, _ => none
  | fuel + 1, current =>
      if current ≤ last then
        match memchr (bytes.drop current) byte (last - current + 1) with
        | none => none
        | some offset =>
            if accept (current + offset) then some (current + offset)
            else candidateLoop bytes byte last accept fuel (current + offset + 1)
      else none

/-- A position as the searches return it. -/
def positionOrNotFound : Option Nat → Int
  | some position => position
  | none => -1

/-- The position of the first occurrence, or `-1`. -/
def findFirstExactBytes (subject pattern : List UInt8) : Int :=
  if subject.length < pattern.length ∨ pattern.length = 0 then -1
  else if pattern.length = 1 then
    positionOrNotFound (memchr subject (pattern.getD 0 0) subject.length)
  else
    positionOrNotFound (candidateLoop subject (pattern.getD 0 0)
      (subject.length - pattern.length)
      (fun current => memequal (subject.drop current) pattern pattern.length)
      (subject.length + 1) 0)

/-- The occurrences from `offset` on, each one behind the one before. -/
def countLoop (subject pattern : List UInt8) : Nat → Nat → Nat → Nat
  | 0, _, count => count
  | fuel + 1, offset, count =>
      if (offset : Int) ≤ subject.length - pattern.length then
        let relative := findFirstExactBytes (subject.drop offset) pattern
        if relative < 0 then count
        else countLoop subject pattern fuel (offset + relative.toNat + pattern.length) (count + 1)
      else count

/-- The number of occurrences found when the search goes on behind each. -/
def countExactBytes (subject pattern : List UInt8) : Nat :=
  if subject.length = 0 ∨ pattern.length = 0 then 0
  else countLoop subject pattern (subject.length + 1) 0 0

/-! ## Correctness -/

/-- What `memchr` finds is the first occurrence of the byte. -/
theorem memchr_eq_some {bytes : List UInt8} {byte : UInt8} {count index : Nat}
    (hfound : memchr bytes byte count = some index) :
    index < count ∧ bytes[index]? = some byte ∧
      ∀ earlier < index, bytes[earlier]? ≠ some byte := by
  obtain ⟨hindex, hbyte, hleast⟩ := List.findIdx?_eq_some_iff_getElem.mp hfound
  rw [List.length_take] at hindex
  have hlt : index < bytes.length := by omega
  refine ⟨by omega, ?_, fun earlier hearlier hequal => ?_⟩
  · rw [List.getElem_take, beq_iff_eq] at hbyte
    rw [List.getElem?_eq_getElem hlt, hbyte]
  · have hnot := hleast earlier hearlier
    rw [List.getElem_take] at hnot
    rw [List.getElem?_eq_getElem (by omega)] at hequal
    simp [Option.some.inj hequal] at hnot

/-- Where it finds nothing there is no occurrence. -/
theorem memchr_eq_none {bytes : List UInt8} {byte : UInt8} {count : Nat}
    (hnone : memchr bytes byte count = none) :
    ∀ index < count, bytes[index]? ≠ some byte := by
  intro index hindex hequal
  obtain ⟨hlt, hbyte⟩ := List.getElem?_eq_some_iff.mp hequal
  have hmem : byte ∈ bytes.take count := by
    rw [List.mem_take_iff_getElem]
    exact ⟨index, by omega, hbyte⟩
  have := List.findIdx?_eq_none_iff.mp hnone byte hmem
  simp at this

section Pattern

variable {text : List UInt8} {head : UInt8} {tail : List UInt8}

/-- A pattern stands where its first byte does, with its tail behind. -/
theorem at_cons_iff {position : Nat} :
    At (head :: tail) text position ↔
      text[position]? = some head ∧ memequal (text.drop (position + 1)) tail tail.length := by
  unfold memequal
  rw [Occurrence.at_iff_take, beq_iff_eq, List.take_length, ← List.tail_drop]
  cases hdrop : text.drop position with
  | nil =>
      have : text[position]? = none := by
        rw [← List.head?_drop, hdrop]
        rfl
      simp [this]
  | cons first rest =>
      have : text[position]? = some first := by
        rw [← List.head?_drop, hdrop]
        rfl
      simp [this]

/-- Comparing the bytes decides whether the pattern stands there. -/
theorem memequal_iff_at {pattern : List UInt8} {position : Nat} :
    memequal (text.drop position) pattern pattern.length = true ↔ At pattern text position := by
  unfold memequal
  rw [Occurrence.at_iff_take, beq_iff_eq, List.take_length]

/-- The candidate loop finds the first occurrence, when it accepts exactly the
occurrences among the positions that hold the first byte. -/
theorem candidateLoop_spec {last : Nat} {accept : Nat → Bool}
    (hlast : ∀ position, At (head :: tail) text position → position ≤ last)
    (haccept : ∀ position, text[position]? = some head →
      (accept position = true ↔ At (head :: tail) text position))
    (fuel : Nat) {current : Nat} (hfuel : last < fuel + current) :
    Finds (head :: tail) text current (candidateLoop text head last accept fuel current) := by
  induction fuel generalizing current with
  | zero =>
      intro position hposition hat
      have := hlast position hat
      omega
  | succ fuel ih =>
      rw [candidateLoop]
      split_ifs with hcurrent
      · cases hfound : memchr (text.drop current) head (last - current + 1) with
        | none =>
            intro position hposition hat
            have hle := hlast position hat
            apply memchr_eq_none hfound (position - current) (by omega)
            rw [List.getElem?_drop, Nat.add_sub_cancel' hposition]
            exact (at_cons_iff.mp hat).1
        | some offset =>
            obtain ⟨-, hbyte, hleast⟩ := memchr_eq_some hfound
            rw [List.getElem?_drop] at hbyte
            -- Positions before the candidate do not even start like the pattern.
            have hskipped : ∀ earlier, current ≤ earlier → earlier < current + offset →
                ¬ At (head :: tail) text earlier := by
              intro earlier hearlier hlt hat
              apply hleast (earlier - current) (by omega)
              rw [List.getElem?_drop, Nat.add_sub_cancel' hearlier]
              exact (at_cons_iff.mp hat).1
            simp only
            split_ifs with haccepted
            · exact ⟨by omega, (haccept _ hbyte).mp haccepted, hskipped⟩
            · have hrest := ih (show last < fuel + (current + offset + 1) by omega)
              have hnot : ¬ At (head :: tail) text (current + offset) :=
                fun hat => haccepted ((haccept _ hbyte).mpr hat)
              have hpassed : ∀ earlier, current ≤ earlier → earlier < current + offset + 1 →
                  ¬ At (head :: tail) text earlier := by
                intro earlier hearlier hlt
                rcases Nat.lt_succ_iff_lt_or_eq.mp hlt with hless | rfl
                · exact hskipped earlier hearlier hless
                · exact hnot
              exact hrest.from_earlier (by omega) hpassed
      · intro position hposition hat
        have := hlast position hat
        omega

/-- Looking for a single byte is a search of its own. -/
theorem memchr_finds (text : List UInt8) (byte : UInt8) (start : Nat) {count : Nat}
    (hcount : text.length ≤ start + count) :
    Finds [byte] text start ((memchr (text.drop start) byte count).map (start + ·)) := by
  cases hfound : memchr (text.drop start) byte count with
  | none =>
      intro position hposition hat
      have hbyte := Occurrence.at_singleton_iff.mp hat
      have hlt := (List.getElem?_eq_some_iff.mp hbyte).1
      apply memchr_eq_none hfound (position - start) (by omega)
      rw [List.getElem?_drop, Nat.add_sub_cancel' hposition]
      exact hbyte
  | some offset =>
      obtain ⟨-, hbyte, hleast⟩ := memchr_eq_some hfound
      rw [List.getElem?_drop] at hbyte
      refine ⟨Nat.le_add_right _ _, Occurrence.at_singleton_iff.mpr hbyte, ?_⟩
      intro earlier hearlier hlt hat
      simp only at hlt
      apply hleast (earlier - start) (by omega)
      rw [List.getElem?_drop, Nat.add_sub_cancel' hearlier]
      exact Occurrence.at_singleton_iff.mp hat

end Pattern

/-- The search finds the first occurrence. -/
theorem findFirstExactBytes_spec (subject : List UInt8) {pattern : List UInt8}
    (hpattern : pattern ≠ []) :
    ∃ result, findFirstExactBytes subject pattern = positionOrNotFound result ∧
      Finds pattern subject 0 result := by
  obtain ⟨head, tail, rfl⟩ := List.exists_cons_of_ne_nil hpattern
  have hlast : ∀ position, At (head :: tail) subject position →
      position ≤ subject.length - (head :: tail).length := by
    intro position hat
    have := hat.add_length_le hpattern
    omega
  unfold findFirstExactBytes
  by_cases hshort : subject.length < (head :: tail).length ∨ (head :: tail).length = 0
  · rw [if_pos hshort]
    refine ⟨none, rfl, fun position _ hat => ?_⟩
    have hend := hat.add_length_le hpattern
    rcases hshort with hlt | hzero
    · omega
    · simp at hzero
  rw [if_neg hshort]
  by_cases hsingle : (head :: tail).length = 1
  · rw [if_pos hsingle]
    obtain rfl : tail = [] := by simpa using hsingle
    have hfinds := memchr_finds subject head 0 (Nat.le_add_left subject.length 0)
    rw [List.drop_zero] at hfinds
    exact ⟨_, rfl, by simpa using hfinds⟩
  · rw [if_neg hsingle]
    refine ⟨_, rfl, ?_⟩
    refine candidateLoop_spec hlast (fun position _ => memequal_iff_at) (subject.length + 1) ?_
    omega

/-- The counting loop counts what the greedy search finds. -/
theorem countLoop_eq {subject pattern : List UInt8} (hpattern : pattern ≠ []) {offset : Nat}
    {positions : List Nat} (hgreedy : Greedy pattern subject offset positions) (fuel count : Nat)
    (hfuel : subject.length < fuel + offset) :
    countLoop subject pattern fuel offset count = count + positions.length := by
  unfold Greedy at hgreedy
  induction hgreedy generalizing fuel count with
  | @done start hnone =>
      cases fuel with
      | zero => rfl
      | succ fuel =>
          rw [countLoop]
          split_ifs with hbound
          · obtain ⟨result, heq, hfinds⟩ :=
              findFirstExactBytes_spec (subject.drop start) hpattern
            have hwhole := hfinds.of_drop
            cases result with
            | none => simp [heq, positionOrNotFound]
            | some position => exact absurd hwhole.occurs (hnone _ hwhole.from_start)
          · rfl
  | @found start position rest hfirst _ ih =>
      have hend := hfirst.occurs.add_length_le hpattern
      have hstart := hfirst.from_start
      have hpos := List.length_pos_of_ne_nil hpattern
      obtain ⟨fuel, rfl⟩ : ∃ less, fuel = less + 1 := ⟨fuel - 1, by omega⟩
      obtain ⟨result, heq, hfinds⟩ :=
        findFirstExactBytes_spec (subject.drop start) hpattern
      have hwhole := hfinds.of_drop
      rw [countLoop, if_pos (by omega)]
      cases result with
      | none => exact absurd hfirst.occurs (hwhole _ hstart)
      | some relative =>
          obtain rfl := hfirst.unique hwhole
          simp only [heq, positionOrNotFound]
          rw [if_neg (by omega), Int.toNat_natCast, ih fuel (count + 1) (by omega),
            List.length_cons]
          omega

/-- The count is that of the greedy occurrences. -/
theorem countExactBytes_eq {subject pattern : List UInt8} (hpattern : pattern ≠ [])
    {positions : List Nat} (hgreedy : Greedy pattern subject 0 positions) :
    countExactBytes subject pattern = positions.length := by
  unfold countExactBytes
  split_ifs with hempty
  · rcases hempty with hsubject | hlength
    · cases hgreedy with
      | done _ => rfl
      | found hfirst _ =>
          have := hfirst.occurs.add_length_le hpattern
          have := List.length_pos_of_ne_nil hpattern
          omega
    · exact absurd (List.length_eq_zero_iff.mp hlength) hpattern
  · rw [countLoop_eq hpattern hgreedy _ _ (by omega), Nat.zero_add]

end Charr.FixedSearch
