import Charr.FixedSearch.StartsEnds
import Charr.Text.Tokens

/-!
# Searches as scans of the subject

A folding search is a scan from code point to code point that asks at each whether
the subject starts with the pattern there. A search with overlap goes on at the next
code point after a match, not at the next byte; for a pattern that does not begin
inside a code point nothing is lost by that.
-/

namespace Charr.FixedSearch

open Occurrence (At IsFirst Sweep)
open Utf8 (CodePoint codePointCount offset boundary)
open ByteSearchMatcher (folded followFolded followByte reading_readFolded boundary_length_folded
  reads_folded reads_bytes)
open FixedMatcher (Present used consistent_used)

/-! ## Comparing at a code point -/

section Compare

variable (toUpper : CodePoint → CodePoint) {subject pattern : List UInt8}

/-- Folding keeps the number of code points. -/
theorem length_folded (text : List UInt8) :
    (folded toUpper text).length = codePointCount text := by
  apply (Utf8.boundary_strictMono text).injective
  rw [boundary_length_folded, ← Utf8.offset_eq_boundary text (Nat.le_refl _),
    Utf8.offset_codePointCount]

/-- The folded code points from one on, read at its boundary. -/
theorem drop_folded {text : List UInt8} {index : Nat}
    (hinside : boundary text index < text.length) :
    (folded toUpper text).drop index =
      toUpper (Utf8.next text (boundary text index)).1 ::
        (folded toUpper text).drop (index + 1) := by
  have hreading := reading_readFolded toUpper text
  have hindex := (hreading.place_lt index).mp hinside
  rw [List.drop_eq_getElem_cons hindex, ← hreading.symbol index hindex]
  rfl

theorem drop_folded_eq_nil {text : List UInt8} {index : Nat}
    (houtside : ¬ boundary text index < text.length) :
    (folded toUpper text).drop index = [] := by
  rw [List.drop_eq_nil_iff]
  exact Nat.not_lt.mp fun hlt =>
    houtside (((reading_readFolded toUpper text).place_lt index).mpr hlt)

/-- Reading at a boundary goes to the next one. -/
theorem next_boundary (text : List UInt8) (index : Nat) :
    (Utf8.next text (boundary text index)).2 = boundary text (index + 1) := by
  rw [Utf8.next_snd, Utf8.boundary_succ]

/-- The comparison goes through the folded code points of both. -/
theorem startsWithLoop_iff (fuel : Nat) {index done : Nat}
    (hfuel : pattern.length ≤ fuel + boundary pattern done) :
    startsWithLoop toUpper subject pattern fuel (boundary subject index)
        (boundary pattern done) = true ↔
      (folded toUpper pattern).drop done <+: (folded toUpper subject).drop index := by
  induction fuel generalizing index done with
  | zero =>
      rw [drop_folded_eq_nil toUpper (by omega : ¬ boundary pattern done < pattern.length)]
      exact iff_of_true rfl List.nil_prefix
  | succ fuel ih =>
      rw [startsWithLoop]
      split
      next hleft =>
        rw [drop_folded toUpper hleft]
        split
        next hpast =>
          rw [drop_folded_eq_nil toUpper (Nat.not_lt.mpr hpast)]
          simp
        next hinside =>
          have hgrows : boundary pattern done < boundary pattern (done + 1) :=
            Utf8.boundary_strictMono pattern (Nat.lt_succ_self done)
          rw [drop_folded toUpper (Nat.not_le.mp hinside), List.cons_prefix_cons]
          simp only [next_boundary]
          split
          next hother => simp [Ne.symm hother]
          next hsame =>
            rw [ih (by omega), and_iff_right (not_not.mp hsame).symm]
      next hdone =>
        rw [drop_folded_eq_nil toUpper hdone]
        exact iff_of_true rfl List.nil_prefix

end Compare

/-! ## The folding scan -/

section Folding

variable (toUpper : CodePoint → CodePoint) (subject pattern : StringView) (overlap : Bool)

/-- As many code points behind `start` as the pattern has. -/
def foldedStop (start : Nat) : Nat :=
  (Utf8.fwd1 subject.bytes)^[codePointCount pattern.bytes] start

/-- The ranges of a scan from byte `start` on: at each code point it asks whether the
subject starts with the pattern, and goes on behind the match or, with overlap, at the
next code point. -/
inductive FoldedScan : Nat → List ByteRange → Prop
  | done {start : Nat} (hend : subject.bytes.length ≤ start) : FoldedScan start []
  | skip {start : Nat} {ranges : List ByteRange} (hinside : start < subject.bytes.length)
      (hother : fixedStartsWith toUpper subject start pattern true = false)
      (hrest : FoldedScan (Utf8.fwd1 subject.bytes start) ranges) : FoldedScan start ranges
  | found {start : Nat} {ranges : List ByteRange} (hinside : start < subject.bytes.length)
      (hstarts : fixedStartsWith toUpper subject start pattern true = true)
      (hrest : FoldedScan (if overlap then Utf8.fwd1 subject.bytes start
        else foldedStop subject pattern start) ranges) :
      FoldedScan start (⟨start, foldedStop subject pattern start⟩ :: ranges)

variable {toUpper subject pattern overlap} {subjectBytes patternBytes : List UInt8}

/-- A scan has one result. -/
theorem FoldedScan.unique {start : Nat} {left right : List ByteRange}
    (hleft : FoldedScan toUpper subject pattern overlap start left)
    (hright : FoldedScan toUpper subject pattern overlap start right) : left = right := by
  induction hleft generalizing right with
  | done hend =>
      cases hright with
      | done _ => rfl
      | skip hinside _ _ => exact absurd hinside (Nat.not_lt.mpr hend)
      | found hinside _ _ => exact absurd hinside (Nat.not_lt.mpr hend)
  | skip hinside hother _ ih =>
      cases hright with
      | done hend => exact absurd hinside (Nat.not_lt.mpr hend)
      | skip _ _ hrest => exact ih hrest
      | found _ hstarts _ => exact absurd (hother.symm.trans hstarts) Bool.false_ne_true
  | found hinside hstarts _ ih =>
      cases hright with
      | done hend => exact absurd hinside (Nat.not_lt.mpr hend)
      | skip _ hother _ => exact absurd (hother.symm.trans hstarts) Bool.false_ne_true
      | found _ _ hrest => rw [ih hrest]

variable (hsubject : Present subject subjectBytes) (hpattern : Present pattern patternBytes)
include hsubject hpattern

/-- A folded match ends as many code points on as the pattern has. -/
theorem foldedStop_boundary (index : Nat) :
    foldedStop subject pattern (boundary subjectBytes index) =
      boundary subjectBytes (index + (folded toUpper patternBytes).length) := by
  rw [foldedStop, hsubject.bytes_eq, hpattern.bytes_eq, length_folded, boundary, boundary,
    Nat.add_comm, Function.iterate_add_apply]

variable (hne : patternBytes ≠ [])
include hne

/-- The comparison at a code point tells whether the folded pattern occurs there. -/
theorem fixedStartsWith_boundary_iff {index : Nat}
    (hinside : boundary subjectBytes index < subjectBytes.length) :
    fixedStartsWith toUpper subject (boundary subjectBytes index : Nat) pattern true = true ↔
      At (folded toUpper patternBytes) (folded toUpper subjectBytes) index := by
  have hlength := List.length_pos_of_ne_nil hne
  have hloop := @startsWithLoop_iff toUpper subjectBytes patternBytes patternBytes.length index 0
    (Nat.le_add_right _ _)
  have hsize : ¬ (((boundary subjectBytes index : Nat) : Int) < 0 ∨
      ((boundary subjectBytes index : Nat) : Int) > subject.len ∨ pattern.len ≤ 0 ∨
      subject.isNull = true ∨ pattern.isNull = true) := by
    rw [hsubject.len_eq, hpattern.len_eq, hsubject.not_null, hpattern.not_null]
    simp only [Bool.false_eq_true, or_false]
    omega
  rw [fixedStartsWith, if_neg hsize, hsubject.bytes_eq, hpattern.bytes_eq, Int.toNat_natCast]
  exact hloop

/-- From one code point to a later one without an occurrence between them. -/
theorem FoldedScan.of_later {index later : Nat} {ranges : List ByteRange} (hle : index ≤ later)
    (hlater : boundary subjectBytes later ≤ subjectBytes.length)
    (hnone : ∀ between, index ≤ between → between < later →
      ¬ At (folded toUpper patternBytes) (folded toUpper subjectBytes) between)
    (hscan : FoldedScan toUpper subject pattern overlap (boundary subjectBytes later) ranges) :
    FoldedScan toUpper subject pattern overlap (boundary subjectBytes index) ranges := by
  induction hle using Nat.decreasingInduction with
  | self => exact hscan
  | of_succ index hlt ih =>
      have hinside : boundary subjectBytes index < subjectBytes.length :=
        Nat.lt_of_lt_of_le (Utf8.boundary_strictMono subjectBytes hlt) hlater
      have hother := hnone index (Nat.le_refl _) hlt
      rw [← fixedStartsWith_boundary_iff hsubject hpattern hne hinside, Bool.not_eq_true] at hother
      refine .skip (by rwa [hsubject.bytes_eq]) hother ?_
      rw [hsubject.bytes_eq, ← Utf8.boundary_succ]
      exact ih fun between hbetween => hnone between (by omega)

/-- A sweep over the folded code points is a scan. -/
theorem FoldedScan.of_sweep {index : Nat} {positions : List Nat}
    (hindex : index ≤ codePointCount subjectBytes)
    (hsweep : Sweep (folded toUpper patternBytes) (folded toUpper subjectBytes)
      (followFolded overlap (folded toUpper patternBytes)) index positions) :
    FoldedScan toUpper subject pattern overlap (boundary subjectBytes index)
      (positions.map fun position => FixedMatcher.toRange (boundary subjectBytes position,
        boundary subjectBytes (position + (folded toUpper patternBytes).length))) := by
  have hend : boundary subjectBytes (codePointCount subjectBytes) = subjectBytes.length := by
    rw [← length_folded toUpper, boundary_length_folded]
  induction hsweep with
  | @done index hnone =>
      refine FoldedScan.of_later hsubject hpattern hne hindex (Nat.le_of_eq hend)
        (fun between hbetween _ => hnone between hbetween) ?_
      exact .done (by rw [hsubject.bytes_eq, hend])
  | @found index position rest hfirst hrest ih =>
      have hstop := hfirst.occurs.add_length_le (ByteSearchMatcher.folded_ne_nil toUpper hne)
      have hpositive := List.length_pos_of_ne_nil (ByteSearchMatcher.folded_ne_nil toUpper hne)
      rw [length_folded toUpper subjectBytes] at hstop
      have hinside : boundary subjectBytes position < subjectBytes.length := by
        rw [← hend]
        exact Utf8.boundary_strictMono subjectBytes (by omega)
      refine FoldedScan.of_later hsubject hpattern hne hfirst.from_start hinside.le
        hfirst.least ?_
      have hstarts := (fixedStartsWith_boundary_iff hsubject hpattern hne hinside).mpr hfirst.occurs
      have hfollow : (if overlap then Utf8.fwd1 subject.bytes (boundary subjectBytes position)
          else foldedStop subject pattern (boundary subjectBytes position)) =
          boundary subjectBytes (followFolded overlap (folded toUpper patternBytes) position) := by
        rw [@foldedStop_boundary toUpper _ _ _ _ hsubject hpattern, hsubject.bytes_eq,
          ← Utf8.boundary_succ]
        cases overlap <;> rfl
      have hnext := ih (by unfold followFolded; split <;> omega)
      rw [← hfollow] at hnext
      have hfound := FoldedScan.found (by rwa [hsubject.bytes_eq]) hstarts hnext
      rwa [foldedStop_boundary hsubject hpattern] at hfound

end Folding

/-- Whatever a matcher was used for, a folding search reports what the scan does, and
each range covers as many code points of the subject as the pattern has. -/
theorem findAll_folded_eq_scan (toUpper : CodePoint → CodePoint)
    (history : List FixedMatcher.Call) {subject pattern : StringView}
    {subjectBytes patternBytes : List UInt8} (hsubject : Present subject subjectBytes)
    (hpattern : Present pattern patternBytes) (hne : patternBytes ≠ []) (overlap : Bool) :
    ∃ ranges, FixedMatcher.answer
        ((used toUpper history).findAll toUpper subject pattern ⟨true, overlap⟩) = .ok ranges ∧
      (∀ other, FoldedScan toUpper subject pattern overlap 0 other ↔ other = ranges) ∧
      ∀ range ∈ ranges, ∃ index : Nat,
        index + codePointCount patternBytes ≤ codePointCount subjectBytes ∧
        range = ⟨offset subjectBytes index,
          offset subjectBytes (index + codePointCount patternBytes)⟩ := by
  have hreads := @reads_folded toUpper patternBytes subjectBytes overlap hne
  obtain ⟨positions, hsweep⟩ := Occurrence.exists_sweep hreads.needle_ne
    (folded toUpper subjectBytes) hreads.lt_follow 0
  have hmatches : FixedMatcher.Matches toUpper ⟨true, overlap⟩ patternBytes subjectBytes _ :=
    FixedMatcher.matches_of_reads hreads hsweep
  have hscan := FoldedScan.of_sweep hsubject hpattern hne (Nat.zero_le _) hsweep
  refine ⟨_, FixedMatcher.answer_eq (FixedMatcher.findAll_eq (consistent_used toUpper history)
    hsubject hpattern hne hmatches), ?_, ?_⟩
  · intro other
    rw [List.map_map]
    constructor
    · intro hother
      exact hother.unique hscan
    · rintro rfl
      exact hscan
  · intro range hrange
    obtain ⟨pair, hpair, rfl⟩ := List.mem_map.mp hrange
    obtain ⟨position, hposition, rfl⟩ := List.mem_map.mp hpair
    have hstop := (hsweep.occurs _ hposition).add_length_le hreads.needle_ne
    rw [length_folded, length_folded] at hstop
    refine ⟨position, hstop, ?_⟩
    rw [Utf8.offset_eq_boundary _ hstop, Utf8.offset_eq_boundary _ (by omega), length_folded]
    rfl

/-- "ſ" and "s" both fold to "S": "ss" is found in "ſsS" once without overlap and twice
with it, in ranges of three and of two bytes. -/
theorem findAll_folded_sample :
    let fold : CodePoint → CodePoint := fun codePoint =>
      if codePoint = 115 ∨ codePoint = 0x17f then 83 else codePoint
    let pattern : StringView := ⟨.bytes ⟨100, [115, 115], by decide⟩, .ascii⟩
    let subject : StringView := ⟨.bytes ⟨200, [0xc5, 0xbf, 115, 83], by decide⟩, .utf8⟩
    let earlier : StringView := ⟨.bytes ⟨300, [0xc3, 0xa4], by decide⟩, .utf8⟩
    let self := used fold [⟨.findFirst, subject, earlier, ⟨true, false⟩⟩]
    FixedMatcher.answer (self.findAll fold subject pattern ⟨true, false⟩) = .ok [⟨0, 3⟩] ∧
      FixedMatcher.answer (self.findAll fold subject pattern ⟨true, true⟩) =
        .ok [⟨0, 3⟩, ⟨2, 4⟩] ∧
      FoldedScan fold subject pattern true 0 [⟨0, 3⟩, ⟨2, 4⟩] := by
  intro fold pattern subject earlier self
  have hpattern : Present pattern [115, 115] := ⟨rfl, _, rfl, rfl⟩
  have hsubject : Present subject [0xc5, 0xbf, 115, 83] := ⟨rfl, _, rfl, rfl⟩
  obtain ⟨ranges, hall, hscan, -⟩ := findAll_folded_eq_scan fold
    [⟨.findFirst, subject, earlier, ⟨true, false⟩⟩] hsubject hpattern (by simp) true
  have heval : FixedMatcher.answer (self.findAll fold subject pattern ⟨true, true⟩) =
      .ok [⟨0, 3⟩, ⟨2, 4⟩] := by decide
  have hranges : [⟨0, 3⟩, ⟨2, 4⟩] = ranges := Except.ok.inj (heval.symm.trans hall)
  exact ⟨by decide, heval, (hscan _).mpr hranges⟩

/-! ## Every occurrence -/

/-- An occurrence of such a pattern does not start inside a code point. -/
theorem not_at_inside {subject pattern : List UInt8} (hne : pattern ≠ [])
    (hbyte : Utf8.isTrail (Utf8.byteAt pattern 0) = false) {position between : Nat}
    (hafter : position < between) (hinside : between < Utf8.fwd1 subject position) :
    ¬ At pattern subject between := by
  intro hat
  have htrail := Utf8.isTrail_of_lt_fwd1 subject hafter hinside
  obtain ⟨first, rest, rfl⟩ := List.exists_cons_of_ne_nil hne
  obtain ⟨behind, hbehind⟩ := hat
  have hsame : Utf8.byteAt subject between = Utf8.byteAt (first :: rest) 0 := by
    rw [← Nat.add_zero between, ← Utf8.byteAt_drop, ← hbehind]
    rfl
  rw [hsame, hbyte] at htrail
  exact Bool.false_ne_true htrail

/-- With overlap a search for well-formed text reports every place where its bytes
occur, in order, whatever the matcher was used for. -/
theorem findAll_overlap_eq_occurrences (toUpper : CodePoint → CodePoint)
    (history : List FixedMatcher.Call) {subject pattern : StringView}
    {subjectBytes patternBytes : List UInt8} (hsubject : Present subject subjectBytes)
    (hpattern : Present pattern patternBytes) (hne : patternBytes ≠ [])
    (hwell : Utf8.WellFormed patternBytes) :
    ∃ positions : List Nat, FixedMatcher.answer
        ((used toUpper history).findAll toUpper subject pattern ⟨false, true⟩) =
          .ok (positions.map fun position : Nat => ⟨position, position + patternBytes.length⟩) ∧
      positions.Pairwise (· < ·) ∧
      ∀ position, position ∈ positions ↔ At patternBytes subjectBytes position := by
  have hreads := @reads_bytes toUpper patternBytes subjectBytes true hne
  obtain ⟨positions, hsweep⟩ := Occurrence.exists_sweep hne subjectBytes hreads.lt_follow 0
  have hmatches : FixedMatcher.Matches toUpper ⟨false, true⟩ patternBytes subjectBytes _ :=
    FixedMatcher.matches_of_reads hreads hsweep
  refine ⟨positions, ?_, hsweep.pairwise_lt hreads.lt_follow, ?_⟩
  · rw [FixedMatcher.answer_eq (FixedMatcher.findAll_eq (consistent_used toUpper history)
      hsubject hpattern hne hmatches), List.map_map]
    rfl
  · intro position
    rw [hsweep.mem_iff hreads.lt_follow fun position between _ hafter hinside =>
      not_at_inside hne (hwell.not_isTrail hne) hafter hinside]
    exact and_iff_right (Nat.zero_le position)

/-- "éé" occurs in "ééé" twice: at the next code point, not at the next byte. -/
theorem findAll_overlap_sample :
    let pattern : StringView := ⟨.bytes ⟨100, [0xc3, 0xa9, 0xc3, 0xa9], by decide⟩, .utf8⟩
    let subject : StringView :=
      ⟨.bytes ⟨200, [0xc3, 0xa9, 0xc3, 0xa9, 0xc3, 0xa9], by decide⟩, .utf8⟩
    FixedMatcher.answer ((used id []).findAll id subject pattern ⟨false, true⟩) =
        .ok [⟨0, 4⟩, ⟨2, 6⟩] ∧
      ∃ positions : List Nat, [⟨0, 4⟩, ⟨2, 6⟩] =
          positions.map (fun position : Nat => (⟨position, position + 4⟩ : ByteRange)) ∧
        ∀ position, position ∈ positions ↔ At pattern.bytes subject.bytes position := by
  intro pattern subject
  have hpattern : Present pattern [0xc3, 0xa9, 0xc3, 0xa9] := ⟨rfl, _, rfl, rfl⟩
  have hsubject : Present subject [0xc3, 0xa9, 0xc3, 0xa9, 0xc3, 0xa9] := ⟨rfl, _, rfl, rfl⟩
  have hwell : Utf8.WellFormed [0xc3, 0xa9, 0xc3, 0xa9] :=
    ⟨[[0xc3, 0xa9], [0xc3, 0xa9]], rfl, by decide⟩
  obtain ⟨positions, hall, -, hmem⟩ :=
    findAll_overlap_eq_occurrences id [] hsubject hpattern (by simp) hwell
  have heval : FixedMatcher.answer ((used id []).findAll id subject pattern ⟨false, true⟩) =
      .ok [⟨0, 4⟩, ⟨2, 6⟩] := by decide
  exact ⟨heval, positions, Except.ok.inj (heval.symm.trans hall), hmem⟩

end Charr.FixedSearch
