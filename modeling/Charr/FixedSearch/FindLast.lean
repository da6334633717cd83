import Charr.FixedSearch.Scans
import Charr.Library.KmpBackward
import Charr.Text.Backward

/-!
# Searches from either end

A matcher also searches from the end of its subject. The two ends need different
failure tables, the one of the pattern and the one of the reversed pattern, and a
matcher has room for one: the first search fills it and every later search uses it,
from whichever end it goes.
-/

namespace Charr.FixedSearch

open Occurrence (At Finds FindsLast)
open Utf8 (CodePoint WellFormed boundary tokens offset codePointCount)

/-- Go down from `count` to the first accepted position below it. -/
def descend (accept : Nat → Bool) : Nat → Option Nat
  | 0 => none
  | position + 1 => if accept position then some position else descend accept position

namespace ByteSearchMatcher

section

variable (matcher : ByteSearchMatcher)

/-- The byte before the position. -/
def readByteBack (current : Nat) : UInt8 × Nat :=
  (matcher.subject.getD (current - 1) 0, current - 1)

/-- Symbol `i` from the end of the pattern is symbol `i` of the reversed pattern. -/
def prepareKmpBackward : ByteSearchMatcher :=
  matcher.fillTable (Kmp.table matcher.pattern.reverse)

/-- Fill the table for the folded pattern read backwards. -/
def prepareFoldedKmpBackward : ByteSearchMatcher :=
  matcher.fillTable (Kmp.table matcher.foldedPattern.reverse)

/-- The scan of `find_last_kmp`, behind its preparation. -/
def findBackKmp : Int × ByteSearchMatcher :=
  -- `current` runs down from the end of the subject
  match Kmp.scanBack matcher.pattern.reverse matcher.kmpNext matcher.readByteBack
      (matcher.searchLength + 1) matcher.searchLength 0 with
  | some current => matcher.matched current (current + matcher.patternLength)
  | none => matcher.exhausted

/-- The last match of a pattern of one byte. -/
def findLastSingleByte : Int × ByteSearchMatcher :=
  if matcher.searchLength < matcher.patternLength then matcher.exhausted
  else
    match descend (fun position => matcher.subject.getD position 0 == matcher.pattern.getD 0 0)
        matcher.searchLength with
    | some position => matcher.matched position (position + 1)
    | none => matcher.exhausted

/-- The first position is `search_length_ - pattern_length_`, if that is not negative. -/
def findLastShort : Int × ByteSearchMatcher :=
  if matcher.patternLength = 0 then matcher.exhausted
  else
    match descend (fun position =>
        memequal (matcher.subject.drop position) matcher.pattern matcher.patternLength)
        (matcher.searchLength + 1 - matcher.patternLength) with
    | some position => matcher.matched position (position + matcher.patternLength)
    | none => matcher.exhausted

end

section CaseFolding

variable (toUpper : CodePoint → CodePoint)

/-- The folded code point before the position. -/
def readFoldedBack (text : List UInt8) (current : Nat) : CodePoint × Nat :=
  (toUpper (Utf8.prev text current).1, (Utf8.prev text current).2)

variable (matcher : ByteSearchMatcher)

/-- The end of the match is found by going forward over as many code points. -/
def findBackKmpCaseInsensitive : Int × ByteSearchMatcher :=
  match Kmp.scanBack matcher.foldedPattern.reverse matcher.kmpNext
      (readFoldedBack toUpper matcher.subject) (matcher.searchLength + 1)
      matcher.searchLength 0 with
  | some current =>
      matcher.matched current
        ((Utf8.fwd1 matcher.subject)^[matcher.foldedPattern.length] current)
  | none => matcher.exhausted

/-- The last match, by the strategy of the matcher. -/
def findLast : Int × ByteSearchMatcher :=
  match matcher.strategy with
  | .kmp => matcher.prepareKmpBackward.findBackKmp
  | .kmpCaseInsensitive => matcher.prepareFoldedKmpBackward.findBackKmpCaseInsensitive toUpper
  | .singleByte => matcher.findLastSingleByte
  | .shortPattern => matcher.findLastShort

end CaseFolding

/-! ## What a search answers -/

/-- The position of an occurrence in the subject, as the searches return it. -/
def answerAt (place : Nat → Nat) : Option Nat → Int
  | some position => place position
  | none => notFound

/-- Going down over the positions finds the last match. -/
theorem descend_findsLast {Symbol : Type} {needle text : List Symbol} {accept : Nat → Bool}
    {count : Nat} (haccept : ∀ position < count, (accept position = true ↔ At needle text position))
    (hcount : ∀ position, At needle text position → position < count) :
    FindsLast needle text (descend accept count) := by
  -- Nothing occurs above the positions that are left.
  have hloop : ∀ left ≤ count, (∀ position, left ≤ position → ¬ At needle text position) →
      FindsLast needle text (descend accept left) := by
    intro left hleft habove
    induction left with
    | zero => exact fun position => habove position (Nat.zero_le _)
    | succ left ih =>
        rw [descend]
        split
        next haccepted =>
          exact ⟨(haccept left hleft).mp haccepted, fun later hlater => habove later hlater⟩
        next hrejected =>
          refine ih (by omega) fun position hposition hat => ?_
          rcases Nat.eq_or_lt_of_le hposition with rfl | hlt
          · exact hrejected ((haccept left hleft).mpr hat)
          · exact habove position hlt hat
  exact hloop count le_rfl fun position hposition hat =>
    absurd (hcount position hat) (Nat.not_lt.mpr hposition)

section Answers

variable {toUpper : CodePoint → CodePoint} {matcher : ByteSearchMatcher}

/-- Bytes are read backwards one by one. -/
theorem readingBack_readByteBack :
    Kmp.ReadingBack matcher.readByteBack matcher.subject id where
  retreats position hposition := Nat.sub_lt hposition Nat.one_pos
  place_zero := rfl
  place_mono := strictMono_id
  symbol index hindex := by
    simp [readByteBack, List.getD_eq_getElem?_getD, List.getElem?_eq_getElem hindex]

/-- Reading at a boundary gives the code point and the boundary behind it. -/
theorem next_boundary_eq {text : List UInt8} {index : Nat} (hindex : index < codePointCount text) :
    Utf8.next text (boundary text index) =
      ((tokens text)[index].codePoint, boundary text (index + 1)) := by
  have hdrop : tokens (text.drop (boundary text index)) = (tokens text).drop index := by
    rw [← Utf8.offset_eq_boundary text hindex.le, Utf8.tokens_drop_offset]
  rw [List.drop_eq_getElem_cons hindex] at hdrop
  apply Prod.ext
  · rw [Utf8.next_of_tokens_drop hdrop]
  · exact next_boundary text index

/-- Going back over well-formed text reads the code points that going forward reads. -/
theorem readingBack_readFoldedBack {text : List UInt8} (hwell : WellFormed text) :
    Kmp.ReadingBack (readFoldedBack toUpper text) (folded toUpper text) (boundary text) where
  retreats position hposition := Utf8.prev_snd_lt text hposition
  place_zero := rfl
  place_mono := Utf8.boundary_strictMono text
  symbol index hindex := by
    have hreading := reading_readFolded toUpper text
    have hcount : index < codePointCount text := by rwa [length_folded] at hindex
    have hcomplete : (Utf8.next text (boundary text index)).1 ≠ Utf8.sentinel := by
      rw [next_boundary_eq hcount]
      exact (hwell.areCodePoints _ (List.getElem_mem hcount)).2
    have hback := Utf8.prev_of_next ((hreading.place_lt index).mpr hindex) hcomplete
    rw [next_boundary] at hback
    rw [readFoldedBack, hback, ← hreading.symbol index hindex]
    rfl

/-- The backward search by the table finds the last match. -/
theorem findBackKmp_answers (hpattern : matcher.pattern ≠ [])
    (hsteers : Kmp.Steers matcher.pattern.reverse matcher.kmpNext) :
    ∃ result, FindsLast matcher.pattern matcher.subject result ∧
      matcher.findBackKmp.1 = answerAt id result := by
  have hback := @readingBack_readByteBack matcher
  obtain ⟨result, hfinds, hscan⟩ := hback.scanBack_finds hpattern
    (show id matcher.subject.length < matcher.searchLength + 1 from Nat.lt_succ_self _)
  have hend : id matcher.subject.length = matcher.searchLength := rfl
  have hreverse : matcher.pattern.reverse ≠ [] := by simpa using hpattern
  refine ⟨result, hfinds, ?_⟩
  rw [hend] at hscan
  unfold findBackKmp
  rw [Kmp.scanBack_of_steers hback.retreats hsteers hreverse, hscan]
  cases result <;> rfl

theorem findBackKmpCaseInsensitive_answers (hpattern : matcher.foldedPattern ≠ [])
    (hwell : WellFormed matcher.subject)
    (hsteers : Kmp.Steers matcher.foldedPattern.reverse matcher.kmpNext) :
    ∃ result, FindsLast matcher.foldedPattern (folded toUpper matcher.subject) result ∧
      (matcher.findBackKmpCaseInsensitive toUpper).1 =
        answerAt (boundary matcher.subject) result := by
  have hback := @readingBack_readFoldedBack toUpper _ hwell
  have hend : boundary matcher.subject (folded toUpper matcher.subject).length =
      matcher.searchLength := boundary_length_folded toUpper matcher.subject
  obtain ⟨result, hfinds, hscan⟩ := hback.scanBack_finds hpattern
    (show _ < matcher.searchLength + 1 from hend ▸ Nat.lt_succ_self _)
  refine ⟨result, hfinds, ?_⟩
  have hreverse : matcher.foldedPattern.reverse ≠ [] := by simpa using hpattern
  rw [hend] at hscan
  unfold findBackKmpCaseInsensitive
  rw [Kmp.scanBack_of_steers hback.retreats hsteers hreverse, hscan]
  cases result <;> rfl

theorem findLastSingleByte_answers (hpattern : matcher.pattern.length = 1) :
    ∃ result, FindsLast matcher.pattern matcher.subject result ∧
      matcher.findLastSingleByte.1 = answerAt id result := by
  obtain ⟨byte, hbyte⟩ := List.length_eq_one_iff.mp hpattern
  have hbound : ∀ position, At [byte] matcher.subject position →
      position < matcher.searchLength := by
    intro position hat
    exact Nat.lt_of_succ_le (hat.add_length_le (by simp))
  have haccept : ∀ position < matcher.searchLength,
      ((matcher.subject.getD position 0 == byte) = true ↔ At [byte] matcher.subject position) := by
    intro position hposition
    rw [Occurrence.at_singleton_iff, List.getD_eq_getElem?_getD,
      List.getElem?_eq_getElem hposition, Option.getD_some, beq_iff_eq, Option.some_inj]
  unfold findLastSingleByte patternLength
  rw [hbyte, List.getD_cons_zero, List.length_singleton]
  split
  next hshort => exact ⟨none, fun position hat => by have := hbound position hat; omega, rfl⟩
  next =>
    refine ⟨_, descend_findsLast haccept hbound, ?_⟩
    cases descend (fun position => matcher.subject.getD position 0 == byte)
      matcher.searchLength <;> rfl

/-- The search for a short pattern finds the last match. -/
theorem findLastShort_answers (hpattern : matcher.pattern ≠ []) :
    ∃ result, FindsLast matcher.pattern matcher.subject result ∧
      matcher.findLastShort.1 = answerAt id result := by
  have hlength := List.length_pos_of_ne_nil hpattern
  have hbound : ∀ position, At matcher.pattern matcher.subject position →
      position < matcher.searchLength + 1 - matcher.pattern.length := by
    intro position hat
    have hend := hat.add_length_le hpattern
    change _ ≤ matcher.searchLength at hend
    omega
  have hfinds := descend_findsLast (fun position _ => @memequal_iff_at matcher.subject
    matcher.pattern position) hbound
  refine ⟨_, hfinds, ?_⟩
  unfold findLastShort patternLength
  rw [if_neg (Nat.ne_of_gt hlength)]
  cases descend (fun position => memequal (matcher.subject.drop position) matcher.pattern
    matcher.pattern.length) (matcher.searchLength + 1 - matcher.pattern.length) <;> rfl

end Answers

end ByteSearchMatcher

end Charr.FixedSearch
