import Charr.FixedSearch.DirectKernels
import Charr.FixedSearch.Scans
import Charr.Library.Loops
import Charr.Text.CodePoints
import Charr.Text.PositionCursor

/-!
# Locating fixed patterns

A match is reported by the code points it starts and ends at, or by the first of
them and their number. A pattern of one ASCII byte is looked for in the records as
they are stored; the general path searches the normalized records and converts what
the matcher reports.
-/

namespace Charr.FixedSearch

open Occurrence (At Greedy Sweep)
open Parallel
open Utf8 (CodePoint fwd1 offset codePointCount)
open FixedMatcher (Present Consistent Matches)

/-! ## The direct kernels -/

/-- A string as the direct search reads it: in UTF-8 and without a byte order mark. -/
structure DirectFixedString where
  data : List UInt8
  isNa : Bool
  isAscii : Bool
  deriving DecidableEq

/-- A record as it is stored, without a byte order mark. -/
def directFixedString (value : StringView) : Option DirectFixedString :=
  if value.isNa then some ⟨[], true, false⟩
  else if !directAsciiEncoding value.enc ∨ value.len < 0 ∨ (value.isNull ∧ value.len > 0) then
    none
  else some ⟨unmarked value.enc value.bytes, false, value.enc = .ascii⟩

/-- The pattern as one ASCII byte, if it is one. -/
def directFixedPattern (pattern : StringView) : Option UInt8 :=
  match directFixedString pattern with
  | none => none
  | some value =>
      if value.isNa ∨ value.data.length ≠ 1 then none
      else
        let patternByte := value.data.getD 0 0
        if patternByte ≤ 0x7f then some patternByte else none

/-- How often the byte occurs. -/
def countFixedByte (data : List UInt8) (patternByte : UInt8) : Nat :=
  countAsciiByte data patternByte

/-- Where the byte occurs first. -/
def firstFixedByte (data : List UInt8) (patternByte : UInt8) : Option Nat :=
  data.findIdx? (· = patternByte)

/-- The loop over `U8_FWD_1` up to a byte. -/
def codepointLoop (data : List UInt8) (bytePosition : Nat) : Nat → Nat → Nat → Nat
  | 0, _, codepoint => codepoint
  | fuel + 1, current, codepoint =>
      if current < bytePosition then
        codepointLoop data bytePosition fuel (fwd1 data current) (codepoint + 1)
      else codepoint

/-- The code point that begins at a byte, counted from one. -/
def fixedCodepointPosition (value : DirectFixedString) (bytePosition : Nat) : Nat :=
  if value.isAscii then bytePosition + 1
  else codepointLoop value.data bytePosition bytePosition 0 1

/-- The rows of an ASCII record, byte by byte. -/
def asciiOccurrences (patternByte : UInt8) (getLength : Bool) :
    List UInt8 → Nat → List ByteRange
  | [], _ => []
  | byte :: rest, index =>
      if byte ≠ patternByte then asciiOccurrences patternByte getLength rest (index + 1)
      else ⟨index + 1, if getLength then 1 else index + 1⟩ ::
        asciiOccurrences patternByte getLength rest (index + 1)

/-- The rows of another record, code point by code point, until there are enough. -/
def codepointOccurrences (data : List UInt8) (patternByte : UInt8) (getLength : Bool) :
    Nat → Nat → Nat → Nat → List ByteRange
  | 0, _, _, _ => []
  | fuel + 1, current, codepoint, left =>
      if current < data.length ∧ 0 < left then
        if data.getD current 0 = patternByte then
          ⟨codepoint, if getLength then 1 else codepoint⟩ ::
            codepointOccurrences data patternByte getLength fuel (fwd1 data current)
              (codepoint + 1) (left - 1)
        else
          codepointOccurrences data patternByte getLength fuel (fwd1 data current)
            (codepoint + 1) left
      else []

/-- `fill_fixed_byte_occurrences`, as the rows it fills. -/
def fixedByteOccurrences (value : DirectFixedString) (patternByte : UInt8)
    (occurrenceCount : Nat) (getLength : Bool) : List ByteRange :=
  if value.isAscii then asciiOccurrences patternByte getLength value.data 0
  else
    codepointOccurrences value.data patternByte getLength value.data.length 0 1 occurrenceCount

/-- What stands for no match. -/
def noMatchRange (returnLength : Bool) : ByteRange :=
  let value := if returnLength then -1 else naInteger
  ⟨value, value⟩

/-- What stands for a missing subject or pattern. -/
def missingRange : ByteRange := ⟨naInteger, naInteger⟩

/-- What the direct region knows of the call. -/
structure DirectFirstState where
  patternByte : UInt8
  returnLength : Bool

/-- Everything that can be decided before looking at a record. -/
def directFirstEligible (patterns : List StringView) (options : FixedSearchOptions)
    (returnLength : Bool) : Option DirectFirstState :=
  if options.caseInsensitive ∨ options.overlap ∨ patterns.length ≠ 1 then none
  else (directFixedPattern (patterns.getD 0 .na)).map fun patternByte =>
    ⟨patternByte, returnLength⟩

/-- The row of one record, or nothing for one that needs the general path. -/
def locateFirstDirectElement (state : DirectFirstState) (subject : StringView) :
    Option ByteRange :=
  (directFixedString subject).map fun value =>
    if value.isNa then missingRange
    else
      match firstFixedByte value.data state.patternByte with
      | none => noMatchRange state.returnLength
      | some bytePosition =>
          let start := fixedCodepointPosition value bytePosition
          ⟨start, if state.returnLength then 1 else start⟩

/-- The rows of one record in a list of matrices. -/
def locateAllDirectElement (patternByte : UInt8) (omitNoMatch returnLength : Bool)
    (subject : StringView) : Option (List ByteRange) :=
  (directFixedString subject).map fun value =>
    if value.isNa then [missingRange]
    else
      let occurrenceCount := countFixedByte value.data patternByte
      if occurrenceCount = 0 then
        if omitNoMatch then [] else [noMatchRange returnLength]
      else fixedByteOccurrences value patternByte occurrenceCount returnLength

/-! ## The general kernels -/

section General

variable (toUpper : CodePoint → CodePoint) (options : FixedSearchOptions) (returnLength : Bool)

/-- `locate_one`: the two cells of one element. -/
def locateOne (subject pattern : StringView) (matcher : FixedMatcher) :
    Except NativeError (ByteRange × FixedMatcher) :=
  if subject.isNa ∨ pattern.isNa ∨ pattern.len ≤ 0 then .ok (missingRange, matcher)
  else if subject.len ≤ 0 then .ok (noMatchRange returnLength, matcher)
  else do
    match ← matcher.findFirst toUpper subject pattern options with
    | (none, matcher) => return (noMatchRange returnLength, matcher)
    | (some found, matcher) =>
        let (start, positions) := (Utf8PositionCursor.create subject).atByte found.start
        let start := start + 1
        let stop := (positions.atByte found.stop).1
        return (⟨start, if returnLength then stop - start + 1 else stop⟩, matcher)

/-- `fill_all_matches`: whether the rows are missing, and the rows. -/
def fillAllMatches (subject pattern : StringView) (matcher : FixedMatcher) :
    Except NativeError ((Bool × List ByteRange) × FixedMatcher) :=
  let missing : Bool := subject.isNa ∨ pattern.isNa ∨ pattern.len ≤ 0
  if missing ∨ subject.len ≤ 0 then .ok ((missing, []), matcher)
  else do
    let (found, matcher) ← matcher.findAll toUpper subject pattern options
    let cursor := Utf8PositionCursor.create subject
    let starts := (cursor.answers (found.map ByteRange.start)).map (· + 1)
    let stops := cursor.answers (found.map ByteRange.stop)
    let rows := starts.zipWith
      (fun start stop => ⟨start, if returnLength then stop - start + 1 else stop⟩) stops
    return ((false, rows), matcher)

/-- The matrix made of the rows: a missing one, and one without a match, are not empty. -/
def matrixRows (omitNoMatch : Bool) (filled : Bool × List ByteRange) : List ByteRange :=
  if filled.1 then [missingRange]
  else if filled.2.length = 0 then if omitNoMatch then [] else [noMatchRange returnLength]
  else filled.2

end General

/-! ## Matches and code points -/

section CodePoints

variable {text pattern : List UInt8}

/-- As many code points begin before an offset as it is the offset of. -/
theorem codePointsBefore_offset (text : List UInt8) {count : Nat}
    (hcount : count ≤ codePointCount text) :
    codePointsBefore text (offset text count) = count := by
  apply Walking.count_of_iff hcount
  intro index _
  rw [Int.ofNat_lt]
  constructor
  · intro hlt
    by_contra hge
    exact absurd hlt (Nat.not_lt.mpr (Utf8.offset_mono text (Nat.not_lt.mp hge)))
  · intro hlt
    exact Utf8.offset_lt_offset text hlt hcount

/-- A byte that is no trail byte starts a code point. -/
theorem exists_offset_of_not_isTrail {index : Nat} (hindex : index < text.length)
    (hbyte : Utf8.isTrail (Utf8.byteAt text index) = false) :
    ∃ count < codePointCount text, index = offset text count := by
  rw [← Utf8.offset_codePointCount text, Utf8.offset_eq_boundary text le_rfl] at hindex
  obtain ⟨count, hcount, rfl⟩ := Utf8.exists_boundary_of_not_isTrail text hindex hbyte
  exact ⟨count, hcount, (Utf8.offset_eq_boundary text hcount.le).symm⟩

theorem byteAt_of_at (hne : pattern ≠ []) {position : Nat} (hat : At pattern text position) :
    Utf8.byteAt text position = Utf8.byteAt pattern 0 := by
  obtain ⟨first, rest, rfl⟩ := List.exists_cons_of_ne_nil hne
  obtain ⟨behind, hbehind⟩ := hat
  rw [← Nat.add_zero position, ← Utf8.byteAt_drop, ← hbehind]
  rfl

/-- Well-formed text occurs as whole code points, in whatever text it occurs. -/
theorem offset_add_of_at (hwell : Utf8.WellFormed pattern) {first : Nat}
    (hat : At pattern text (offset text first)) :
    first + codePointCount pattern ≤ max first (codePointCount text) ∧
      offset text (first + codePointCount pattern) = offset text first + pattern.length := by
  obtain ⟨behind, hbehind⟩ := hat
  have htokens : (Utf8.tokens text).drop first = Utf8.tokens pattern ++ Utf8.tokens behind := by
    have hpattern := Utf8.tokens_append_codePoints hwell.areCodePoints behind
    rw [Utf8.tokenBytes_tokens, hbehind, Utf8.tokens_drop_offset] at hpattern
    exact hpattern
  have hcount : codePointCount text - first = codePointCount pattern + codePointCount behind := by
    have hlength := congrArg List.length htokens
    rw [List.length_drop, List.length_append] at hlength
    exact hlength
  refine ⟨by omega, ?_⟩
  unfold offset
  rw [List.take_add, htokens, codePointCount, List.take_left, Utf8.tokenBytes_append,
    List.length_append, Utf8.tokenBytes_tokens]

variable {toUpper : CodePoint → CodePoint} {options : FixedSearchOptions}
  {ranges : List (Nat × Nat)}

/-- The matches of well-formed text, and those of a search that ignores case, start and end
where code points do. -/
theorem offsets_of_matches (hne : pattern ≠ [])
    (hwell : options.caseInsensitive = true ∨ Utf8.WellFormed pattern)
    (hmatches : Matches toUpper options pattern text ranges) :
    ∀ range ∈ ranges, ∃ first last, first < last ∧ last ≤ codePointCount text ∧
      range = (offset text first, offset text last) := by
  obtain ⟨caseInsensitive, overlap⟩ := options
  cases caseInsensitive with
  | true =>
      have hreads := @ByteSearchMatcher.reads_folded toUpper pattern text overlap hne
      obtain ⟨positions, hsweep⟩ := Occurrence.exists_sweep hreads.needle_ne
        (ByteSearchMatcher.folded toUpper text) hreads.lt_follow 0
      obtain rfl := hmatches.unique (FixedMatcher.matches_of_reads hreads hsweep)
      intro range hrange
      obtain ⟨position, hposition, rfl⟩ := List.mem_map.mp hrange
      have hend := (hsweep.occurs position hposition).add_length_le hreads.needle_ne
      have hpositive := List.length_pos_of_ne_nil hreads.needle_ne
      rw [length_folded toUpper text] at hend
      refine ⟨position, _, Nat.lt_add_of_pos_right hpositive, hend, ?_⟩
      rw [Utf8.offset_eq_boundary text hend, Utf8.offset_eq_boundary text (by omega)]
  | false =>
      have hwell := hwell.resolve_left Bool.false_ne_true
      have hreads := @ByteSearchMatcher.reads_bytes toUpper pattern text overlap hne
      obtain ⟨positions, hsweep⟩ := Occurrence.exists_sweep hne text hreads.lt_follow 0
      obtain rfl := hmatches.unique (FixedMatcher.matches_of_reads hreads hsweep)
      intro range hrange
      obtain ⟨position, hposition, rfl⟩ := List.mem_map.mp hrange
      have hat := hsweep.occurs position hposition
      have hpositive := List.length_pos_of_ne_nil hne
      have hend := hat.add_length_le hne
      have hstart : Utf8.isTrail (Utf8.byteAt text position) = false := by
        rw [byteAt_of_at hne hat]
        exact hwell.not_isTrail hne
      obtain ⟨first, hfirst, rfl⟩ := exists_offset_of_not_isTrail (by omega) hstart
      obtain ⟨hle, hlast⟩ := offset_add_of_at hwell hat
      have hcount : 0 < codePointCount pattern := by
        by_contra hnone
        rw [Nat.eq_zero_of_not_pos hnone, Nat.add_zero] at hlast
        omega
      refine ⟨first, first + codePointCount pattern, by omega, by omega, ?_⟩
      rw [hlast]
      rfl

end CodePoints

/-! ## Rows -/

/-- The row of a match: the code points it starts and ends at, or the first of them and their
number. -/
def matchRow (text : List UInt8) (returnLength : Bool) (found : Nat × Nat) : ByteRange :=
  let start : Int := codePointsBefore text found.1
  let stop : Int := codePointsBefore text found.2
  ⟨start + 1, if returnLength then stop - start else stop⟩

section Rows

variable (toUpper : CodePoint → CodePoint) (options : FixedSearchOptions) (returnLength : Bool)

/-- The row of the first match. -/
inductive Located (subject pattern : StringView) : ByteRange → Prop
  | missing (hmissing : subject.isNa = true ∨ pattern.isNa = true ∨ pattern.len ≤ 0) :
      Located subject pattern missingRange
  | searched {text needle : List UInt8} {ranges : List (Nat × Nat)}
      (hsubject : Present subject text) (hpattern : Present pattern needle) (hne : needle ≠ [])
      (hmatches : Matches toUpper options needle text ranges) :
      Located subject pattern
        ((ranges.head?.map (matchRow text returnLength)).getD (noMatchRange returnLength))

/-- The rows of all matches. -/
inductive AllLocated (omitNoMatch : Bool) (subject pattern : StringView) : List ByteRange → Prop
  | missing (hmissing : subject.isNa = true ∨ pattern.isNa = true ∨ pattern.len ≤ 0) :
      AllLocated omitNoMatch subject pattern [missingRange]
  | searched {text needle : List UInt8} {ranges : List (Nat × Nat)}
      (hsubject : Present subject text) (hpattern : Present pattern needle) (hne : needle ≠ [])
      (hmatches : Matches toUpper options needle text ranges) :
      AllLocated omitNoMatch subject pattern
        (matrixRows returnLength omitNoMatch (false, ranges.map (matchRow text returnLength)))

variable {toUpper options returnLength} {subject pattern : StringView}
  {text needle : List UInt8}

/-- A present view has one text. -/
theorem FixedMatcher.Present.unique {other : List UInt8} (htext : Present subject text)
    (hother : Present subject other) : text = other :=
  htext.bytes_eq.symm.trans hother.bytes_eq

/-- A view of bytes that is not missing, empty or not. -/
theorem exists_present (hnormal : Normalized subject) (hna : ¬ subject.isNa = true) :
    ∃ text, Present subject text := by
  rcases hnormal with hmissing | ⟨span, hdata⟩
  · exact absurd hmissing hna
  · exact ⟨span.bytes, by simpa using hna, span, hdata, rfl⟩

theorem FixedMatcher.Present.ne_nil (hpattern : Present pattern needle) (hlen : ¬ pattern.len ≤ 0) :
    needle ≠ [] := by
  rintro rfl
  exact hlen (by simp [hpattern.len_eq])

theorem FixedMatcher.Present.eq_nil (hsubject : Present subject text) (hlen : subject.len ≤ 0) :
    text = [] := by
  rw [hsubject.len_eq] at hlen
  exact List.length_eq_zero_iff.mp (by omega)

/-- A present view whose mark is truthful is a text. -/
theorem textView_of_present (hsubject : Present subject text)
    (hascii : subject.enc = .ascii → ∀ byte ∈ subject.bytes, byte < 0x80) : TextView subject :=
  ⟨fun hnull => absurd hnull (by simp [hsubject.not_null]), hascii⟩

section Kernels

variable (hsubject : Normalized subject) (hpattern : Normalized pattern)
  (hascii : subject.enc = .ascii → ∀ byte ∈ subject.bytes, byte < 0x80)
include hsubject hpattern hascii

/-- Whatever the matcher was used for, the row is that of the first match. -/
theorem locateOne_located :
    ∃ row, Located toUpper options returnLength subject pattern row ∧
      ∀ matcher, Consistent toUpper matcher → ∃ matcher',
        locateOne toUpper options returnLength subject pattern matcher = .ok (row, matcher') ∧
          Consistent toUpper matcher' := by
  unfold locateOne
  by_cases hmissing : subject.isNa = true ∨ pattern.isNa = true ∨ pattern.len ≤ 0
  · simp only [if_pos hmissing]
    exact ⟨_, .missing hmissing, fun matcher hmatcher => ⟨matcher, rfl, hmatcher⟩⟩
  · simp only [if_neg hmissing]
    simp only [not_or] at hmissing
    obtain ⟨text, htext⟩ := exists_present hsubject hmissing.1
    obtain ⟨needle, hneedle⟩ := exists_present hpattern hmissing.2.1
    have hne := hneedle.ne_nil hmissing.2.2
    obtain ⟨ranges, hmatches⟩ := FixedMatcher.exists_matches options hne text
    refine ⟨_, .searched htext hneedle hne hmatches, fun matcher hmatcher => ?_⟩
    by_cases hempty : subject.len ≤ 0
    · rw [if_pos hempty]
      obtain rfl := htext.eq_nil hempty
      obtain rfl := FixedMatcher.matches_nil_of_empty hmatches
      exact ⟨matcher, rfl, hmatcher⟩
    · rw [if_neg hempty]
      obtain ⟨matcher', hfind, hkept⟩ :=
        FixedMatcher.findFirst_eq hmatcher htext hneedle hne hmatches
      rw [hfind]
      refine ⟨matcher', ?_, hkept⟩
      cases ranges with
      | nil => rfl
      | cons found rest =>
          have hview := textView_of_present htext hascii
          obtain ⟨hstart, hon⟩ := Utf8PositionCursor.atByte_eq hview
            (Utf8PositionCursor.on_create subject) found.1
          obtain ⟨hstop, -⟩ := Utf8PositionCursor.atByte_eq hview hon found.2
          rw [htext.bytes_eq] at hstart hstop
          have hlength : (codePointsBefore text found.2 : Int) -
              ((codePointsBefore text found.1 : Int) + 1) + 1 =
                codePointsBefore text found.2 - codePointsBefore text found.1 := by
            omega
          simp only [List.head?_cons, Option.map_some, bind, Except.bind, pure, Except.pure,
            FixedMatcher.toRange, hstart, hstop, hlength]
          rfl

/-- Whatever the matcher was used for, the rows are those of all matches. -/
theorem fillAllMatches_located (omitNoMatch : Bool) :
    ∃ filled, AllLocated toUpper options returnLength omitNoMatch subject pattern
        (matrixRows returnLength omitNoMatch filled) ∧
      ∀ matcher, Consistent toUpper matcher → ∃ matcher',
        fillAllMatches toUpper options returnLength subject pattern matcher =
          .ok (filled, matcher') ∧ Consistent toUpper matcher' := by
  unfold fillAllMatches
  by_cases hmissing : subject.isNa = true ∨ pattern.isNa = true ∨ pattern.len ≤ 0
  · simp only [hmissing, decide_true, true_or, if_true]
    exact ⟨(true, []), .missing hmissing, fun matcher hmatcher => ⟨matcher, rfl, hmatcher⟩⟩
  · simp only [hmissing, decide_false, Bool.false_eq_true, false_or]
    simp only [not_or] at hmissing
    obtain ⟨text, htext⟩ := exists_present hsubject hmissing.1
    obtain ⟨needle, hneedle⟩ := exists_present hpattern hmissing.2.1
    have hne := hneedle.ne_nil hmissing.2.2
    obtain ⟨ranges, hmatches⟩ := FixedMatcher.exists_matches options hne text
    refine ⟨(false, ranges.map (matchRow text returnLength)),
      .searched htext hneedle hne hmatches, fun matcher hmatcher => ?_⟩
    by_cases hempty : subject.len ≤ 0
    · rw [if_pos hempty]
      obtain rfl := htext.eq_nil hempty
      obtain rfl := FixedMatcher.matches_nil_of_empty hmatches
      exact ⟨matcher, rfl, hmatcher⟩
    · rw [if_neg hempty]
      obtain ⟨matcher', hfind, hkept⟩ :=
        FixedMatcher.findAll_eq hmatcher htext hneedle hne hmatches
      rw [hfind]
      have hview := textView_of_present htext hascii
      have hon := Utf8PositionCursor.on_create subject
      refine ⟨matcher', ?_, hkept⟩
      simp only [bind, Except.bind, pure, Except.pure, Utf8PositionCursor.answers_eq hview hon,
        htext.bytes_eq, List.map_map]
      rw [List.zipWith_map, List.zipWith_self]
      congr 3
      apply List.map_congr_left
      intro found _
      simp only [matchRow, Function.comp, FixedMatcher.toRange]
      congr 1
      split
      · omega
      · rfl

end Kernels

end Rows

/-! ## The direct kernels report the same rows -/

section Direct

variable {text : List UInt8} {byte : UInt8}

theorem wellFormed_single (hbyte : ¬ byte > 0x7f) : Utf8.WellFormed [byte] := by
  have hlow : byte.toNat < 0x80 := by
    rw [gt_iff_lt, UInt8.lt_iff_toNat_lt] at hbyte
    exact Nat.lt_succ_of_le (Nat.not_lt.mp hbyte)
  refine ⟨[[byte]], rfl, ?_⟩
  intro bytes hbytes
  obtain rfl := List.mem_singleton.mp hbytes
  simpa [Utf8.isSequence] using hlow

theorem codePointCount_single (hbyte : ¬ byte > 0x7f) : codePointCount [byte] = 1 := by
  have hlow : byte.toNat < 0x80 := by
    rw [gt_iff_lt, UInt8.lt_iff_toNat_lt] at hbyte
    exact Nat.lt_succ_of_le (Nat.not_lt.mp hbyte)
  rw [codePointCount, Utf8.tokens_single hlow, Utf8.tokens_nil]
  rfl

/-- An ASCII byte is a code point of its own. -/
theorem exists_offset_of_byte (hbyte : ¬ byte > 0x7f) {position : Nat}
    (hat : At [byte] text position) :
    ∃ count < codePointCount text, position = offset text count ∧
      position + 1 = offset text (count + 1) := by
  have hend := hat.add_length_le (List.cons_ne_nil byte [])
  have hstart : Utf8.isTrail (Utf8.byteAt text position) = false := by
    rw [byteAt_of_at (List.cons_ne_nil byte []) hat]
    exact (wellFormed_single hbyte).not_isTrail (List.cons_ne_nil byte [])
  obtain ⟨count, hcount, rfl⟩ := exists_offset_of_not_isTrail (Nat.lt_of_succ_le hend) hstart
  obtain ⟨-, hlast⟩ := offset_add_of_at (wellFormed_single hbyte) hat
  rw [codePointCount_single hbyte] at hlast
  exact ⟨count, hcount, rfl, hlast.symm⟩

/-- The row of a match of one byte: its code point, and one. -/
theorem matchRow_byte (hbyte : ¬ byte > 0x7f) {position : Nat} (hat : At [byte] text position)
    (returnLength : Bool) :
    matchRow text returnLength (position, position + 1) =
      let start : Int := codePointsBefore text position + 1
      ⟨start, if returnLength then 1 else start⟩ := by
  obtain ⟨count, hcount, rfl, hlast⟩ := exists_offset_of_byte hbyte hat
  have hfirst := codePointsBefore_offset text hcount.le
  have hnext := codePointsBefore_offset text hcount
  rw [← hlast] at hnext
  simp only [matchRow, hfirst, hnext]
  congr 1
  split <;> omega

/-- In ASCII text every byte begins a code point. -/
theorem codePointsBefore_ascii (hascii : ∀ byte ∈ text, byte < 0x80) {position : Nat}
    (hposition : position ≤ text.length) : codePointsBefore text position = position := by
  have hcount := codePointsBefore_offset text
    (show position ≤ codePointCount text by rwa [Utf8.codePointCount_ascii hascii])
  rwa [Utf8.offset_ascii hascii, Nat.min_eq_left hposition] at hcount

/-- The loop counts the code points up to the offset. -/
theorem codepointLoop_eq {count : Nat} (hcount : count ≤ codePointCount text) (fuel : Nat)
    {index codepoint : Nat} (hindex : index ≤ count) (hfuel : count ≤ index + fuel) :
    codepointLoop text (offset text count) fuel (offset text index) codepoint =
      codepoint + (count - index) := by
  induction fuel generalizing index codepoint with
  | zero =>
      obtain rfl : index = count := by omega
      rw [codepointLoop, Nat.sub_self, Nat.add_zero]
  | succ fuel ih =>
      rw [codepointLoop]
      obtain hlt | rfl := Nat.lt_or_eq_of_le hindex
      · rw [if_pos (Utf8.offset_lt_offset text hlt hcount),
          (Utf8.fwd1_offset text (hlt.trans_le hcount)).1, ih hlt (by omega)]
        omega
      · rw [if_neg (Nat.lt_irrefl _), Nat.sub_self, Nat.add_zero]

/-- The code point of a byte that is found, however it is counted. -/
theorem fixedCodepointPosition_eq (hbyte : ¬ byte > 0x7f) {ascii : Bool}
    (hascii : ascii = true → ∀ byte ∈ text, byte < 0x80) {position : Nat}
    (hat : At [byte] text position) :
    fixedCodepointPosition ⟨text, false, ascii⟩ position = codePointsBefore text position + 1 := by
  unfold fixedCodepointPosition
  cases ascii with
  | true =>
      have hend := hat.add_length_le (List.cons_ne_nil byte [])
      rw [if_pos rfl, codePointsBefore_ascii (hascii rfl) (Nat.le_of_succ_le hend)]
  | false =>
      obtain ⟨count, hcount, rfl, -⟩ := exists_offset_of_byte hbyte hat
      have hfuel : count ≤ offset text count := by
        rw [Utf8.offset_eq_boundary text hcount.le]
        exact (Utf8.boundary_strictMono text).le_apply
      have hloop := @codepointLoop_eq text count hcount.le (offset text count) 0 1
        (Nat.zero_le count) (by omega)
      rw [Utf8.offset_zero] at hloop
      rw [if_neg Bool.false_ne_true, codePointsBefore_offset text hcount.le, Nat.add_comm,
        hloop, Nat.sub_zero]

/-- The scan finds the first occurrence of the byte. -/
theorem firstFixedByte_finds (text : List UInt8) (byte : UInt8) :
    Occurrence.Finds [byte] text 0 (firstFixedByte text byte) := by
  unfold firstFixedByte
  cases hfound : text.findIdx? (· = byte) with
  | none =>
      intro position _ hat
      have hmem := List.mem_of_getElem? (Occurrence.at_singleton_iff.mp hat)
      have hnone := List.findIdx?_eq_none_iff.mp hfound byte hmem
      simp at hnone
  | some position =>
      obtain ⟨hlt, hthis, hbefore⟩ := List.findIdx?_eq_some_iff_getElem.mp hfound
      refine ⟨Nat.zero_le _, ?_, ?_⟩
      · rw [Occurrence.at_singleton_iff, List.getElem?_eq_getElem hlt]
        simpa using hthis
      · intro earlier _ hearlier hat
        have hget := Occurrence.at_singleton_iff.mp hat
        rw [List.getElem?_eq_getElem (hearlier.trans hlt)] at hget
        have hnot := hbefore earlier hearlier
        simp [Option.some.inj hget] at hnot

/-- The occurrences of a byte that is searched for case-sensitively and without overlap. -/
theorem exists_matches_positions (toUpper : CodePoint → CodePoint) (text : List UInt8)
    (byte : UInt8) :
    ∃ positions, Greedy [byte] text 0 positions ∧
      Matches toUpper ⟨false, false⟩ [byte] text
        (positions.map fun position => (position, position + 1)) := by
  obtain ⟨positions, hgreedy⟩ := Occurrence.exists_sweep (List.cons_ne_nil byte []) text
    (show ∀ position, position < position + [byte].length from
      fun position => Nat.lt_succ_self position) 0
  exact ⟨positions, hgreedy, FixedMatcher.matches_of_greedy (List.cons_ne_nil byte []) hgreedy⟩

/-- The rows of the occurrences of a byte. -/
def byteRows (text : List UInt8) (returnLength : Bool) (positions : List Nat) : List ByteRange :=
  positions.map fun position => matchRow text returnLength (position, position + 1)

/-- In ASCII text the occurrences are the rows of the greedy matches. -/
theorem asciiOccurrences_eq (hascii : ∀ byte ∈ text, byte < 0x80) (hbyte : ¬ byte > 0x7f)
    (returnLength : Bool) {rest : List UInt8} {start : Nat} {positions : List Nat}
    (hrest : rest = text.drop start) (hgreedy : Greedy [byte] text start positions) :
    asciiOccurrences byte returnLength rest start = byteRows text returnLength positions := by
  induction rest generalizing start positions with
  | nil =>
      have hlength := hgreedy.length_singleton
      rw [← hrest, List.count_nil] at hlength
      rw [List.length_eq_zero_iff.mp hlength]
      rfl
  | cons first rest ih =>
      have hlt : start < text.length := by
        by_contra hge
        rw [List.drop_eq_nil_of_le (Nat.not_lt.mp hge)] at hrest
        exact absurd hrest (List.cons_ne_nil first rest)
      rw [List.drop_eq_getElem_cons hlt] at hrest
      obtain ⟨rfl, htail⟩ := List.cons.inj hrest
      rw [asciiOccurrences]
      by_cases hsame : text[start] = byte
      · -- the occurrence at `start` is the first one
        have hat : At [byte] text start := by
          rw [Occurrence.at_singleton_iff, List.getElem?_eq_getElem hlt, hsame]
        have hhere : Occurrence.Finds [byte] text start (some start) :=
          ⟨Nat.le_refl _, hat, fun earlier hfrom hlt => absurd hlt (Nat.not_lt.mpr hfrom)⟩
        rw [if_neg (not_not.mpr hsame)]
        cases hgreedy with
        | done hnone => exact absurd hat (hnone start (Nat.le_refl _))
        | @found _ position positions hfirst hbehind =>
            obtain rfl := hfirst.unique hhere
            rw [ih htail hbehind, byteRows, byteRows, List.map_cons, matchRow_byte hbyte hat,
              codePointsBefore_ascii hascii hlt.le]
      · rw [if_pos hsame]
        apply ih htail
        apply hgreedy.from_later (Nat.le_succ _)
        intro position hfrom hbefore hat
        obtain rfl : position = start := by omega
        rw [Occurrence.at_singleton_iff, List.getElem?_eq_getElem hlt] at hat
        exact hsame (Option.some.inj hat)

/-- In other text the code points are counted along. -/
theorem codepointOccurrences_eq (hbyte : ¬ byte > 0x7f) (returnLength : Bool) (fuel : Nat)
    {index left : Nat} {positions : List Nat} (hindex : index ≤ codePointCount text)
    (hfuel : codePointCount text ≤ index + fuel)
    (hgreedy : Greedy [byte] text (offset text index) positions)
    (hleft : positions.length ≤ left) :
    codepointOccurrences text byte returnLength fuel (offset text index) (index + 1) left =
      byteRows text returnLength positions := by
  -- past the text nothing is left to be found
  have hend : ∀ {start positions}, Greedy [byte] text start positions → text.length ≤ start →
      positions = [] := by
    intro start positions hgreedy hstart
    have hlength := hgreedy.length_singleton
    rw [List.drop_eq_nil_of_le hstart, List.count_nil] at hlength
    exact List.length_eq_zero_iff.mp hlength
  induction fuel generalizing index left positions with
  | zero =>
      obtain rfl : index = codePointCount text := by omega
      rw [hend hgreedy (Utf8.offset_codePointCount text).ge]
      rfl
  | succ fuel ih =>
      rw [codepointOccurrences]
      obtain hlt | rfl := Nat.lt_or_eq_of_le hindex
      · obtain ⟨hnext, hstep⟩ := Utf8.fwd1_offset text hlt
        have hinside := hstep.trans_le (Utf8.offset_le text (index + 1))
        have hget : text.getD (offset text index) 0 = text[offset text index] := by
          rw [List.getD_eq_getElem?_getD, List.getElem?_eq_getElem hinside, Option.getD_some]
        by_cases hnone : left = 0
        · -- there are rows enough, so this was the last occurrence
          rw [if_neg (by omega)]
          rw [hnone] at hleft
          rw [List.length_eq_zero_iff.mp (Nat.le_zero.mp hleft)]
          rfl
        · rw [if_pos ⟨hinside, Nat.pos_of_ne_zero hnone⟩, hnext, hget]
          -- an occurrence gives a row; all else is stepped over, whole code points at a time
          by_cases hsame : text[offset text index] = byte
          · have hat : At [byte] text (offset text index) := by
              rw [Occurrence.at_singleton_iff, List.getElem?_eq_getElem hinside, hsame]
            have hhere : Occurrence.Finds [byte] text (offset text index)
                (some (offset text index)) :=
              ⟨Nat.le_refl _, hat, fun earlier hfrom hlt => absurd hlt (Nat.not_lt.mpr hfrom)⟩
            obtain ⟨-, hlast⟩ := offset_add_of_at (wellFormed_single hbyte) hat
            rw [codePointCount_single hbyte] at hlast
            rw [if_pos hsame]
            cases hgreedy with
            | done hfree => exact absurd hat (hfree _ (Nat.le_refl _))
            | @found _ position positions hfirst hbehind =>
                obtain rfl := hfirst.unique hhere
                rw [← hlast] at hbehind
                rw [List.length_cons] at hleft
                rw [ih hlt (by omega) hbehind (by omega), byteRows, byteRows, List.map_cons,
                  matchRow_byte hbyte hat, codePointsBefore_offset text hlt.le]
                rfl
          · rw [if_neg hsame]
            apply ih hlt (by omega) _ hleft
            apply hgreedy.from_later hstep.le
            intro position hfrom hbefore hat
            obtain rfl | hbehind := Nat.eq_or_lt_of_le hfrom
            · rw [Occurrence.at_singleton_iff, List.getElem?_eq_getElem hinside] at hat
              exact hsame (Option.some.inj hat)
            · -- no occurrence inside of a code point
              rw [← hnext] at hbefore
              exact not_at_inside (List.cons_ne_nil byte [])
                ((wellFormed_single hbyte).not_isTrail (List.cons_ne_nil byte [])) hbehind hbefore
                hat
      · rw [hend hgreedy (Utf8.offset_codePointCount text).ge,
          if_neg (by rw [Utf8.offset_codePointCount]; omega)]
        rfl

end Direct

section Normalizing

variable {converter : NativeToUtf8} {source view : StringView}

/-- Two normalizations of a record differ in where they put it. -/
theorem Normalizes.unplaced_eq {other : StringView} (hview : Normalizes converter source view)
    (hother : Normalizes converter source other) : view.unplaced = other.unplaced := by
  obtain ⟨storage, after, hview⟩ := hview
  obtain ⟨storage', after', hother⟩ := hother
  have hsame := @normalizeUtf8_unplaced converter storage storage' source
  rw [hview, hother] at hsame
  exact Except.ok.inj hsame

theorem enc_of_stable {conversion : Except NativeError ViewData} {storage after : SliceArena}
    (hconverted : conversion >>= stable storage = .ok (view, after)) : view.enc = .utf8 := by
  obtain ⟨converted, -, hconverted⟩ := Loops.except_bind_ok hconverted
  cases converted with
  | null len =>
      simp only [stable] at hconverted
      split at hconverted
      · exact absurd hconverted (by simp)
      · obtain ⟨rfl, -⟩ := Prod.mk.inj (Except.ok.inj hconverted)
        rfl
  | bytes span =>
      simp only [stable] at hconverted
      split at hconverted
      all_goals
        obtain ⟨rfl, -⟩ := Prod.mk.inj (Except.ok.inj hconverted)
        rfl

/-- What is cut or converted is not marked as ASCII. -/
theorem enc_of_normalizeUtf8Slow {storage after : SliceArena} {stripBom : Bool}
    (hplain : source.enc ≠ .ascii) (hna : source.isNa = false)
    (hview : normalizeUtf8Slow converter storage source stripBom = .ok (view, after)) :
    view.enc ≠ .ascii := by
  have hborrowed : ∀ {strip : Bool} {span : Span} {enc : StringEncoding}, enc ≠ .ascii →
      (Except.ok (borrowed strip span enc, storage) :
        Except NativeError (StringView × SliceArena)) = .ok (view, after) → view.enc ≠ .ascii := by
    intro strip span enc hne heq
    obtain ⟨rfl, -⟩ := Prod.mk.inj (Except.ok.inj heq)
    exact hne
  have hstable : ∀ {conversion : Except NativeError ViewData},
      conversion >>= stable storage = .ok (view, after) → view.enc ≠ .ascii := by
    intro conversion hconverted
    rw [enc_of_stable hconverted]
    decide
  cases hdata : source.data with
  | null len => simp [normalizeUtf8Slow, hdata, hna] at hview
  | bytes span =>
      simp only [normalizeUtf8Slow, hna, hdata, Bool.false_eq_true, if_false] at hview
      cases hkind : source.enc with
      | ascii => exact absurd hkind hplain
      | utf8 =>
          rw [hkind] at hview
          exact hborrowed (by decide) hview
      | asciiOrUtf8 =>
          rw [hkind] at hview
          refine hborrowed ?_ hview
          split <;> decide
      | latin1 =>
          rw [hkind] at hview
          exact hstable hview
      | native =>
          rw [hkind] at hview
          dsimp only at hview
          split at hview
          · exact hborrowed (by decide) hview
          · exact hstable hview
      | bytes => simp [hkind] at hview
      | missing => simp [hkind] at hview
      | unknown => simp [hkind] at hview

/-- Only ASCII is marked as ASCII. -/
theorem Normalizes.ascii_of_ascii (hview : Normalizes converter source view)
    (hascii : source.enc = .ascii → ∀ byte ∈ source.bytes, byte < 0x80) :
    view.enc = .ascii → ∀ byte ∈ view.bytes, byte < 0x80 := by
  intro henc
  obtain ⟨storage, after, hview⟩ := hview
  have hsame : view = source := by
    unfold normalizeUtf8 at hview
    split at hview
    next => exact (Prod.mk.inj (Except.ok.inj hview)).1.symm
    next hna =>
      rw [Bool.not_eq_true] at hna
      split at hview
      next len hdata => simp [normalizeUtf8Slow, hdata, hna] at hview
      next =>
        split at hview
        next => exact (Prod.mk.inj (Except.ok.inj hview)).1.symm
        next hplain =>
          split at hview
          next => exact (Prod.mk.inj (Except.ok.inj hview)).1.symm
          next => exact absurd henc (enc_of_normalizeUtf8Slow hplain hna hview)
  rw [hsame] at henc ⊢
  exact hascii henc

end Normalizing

section Agreement

variable {toUpper : CodePoint → CodePoint} {converter : NativeToUtf8}
  {source subject pattern : StringView} {byte : UInt8} {returnLength : Bool}

/-- What the direct search reads is missing, or has the unmarked bytes of the record. -/
theorem directFixedString_cases {value : DirectFixedString}
    (hvalue : directFixedString source = some value)
    (hview : Normalizes converter source subject) :
    (source.isNa = true ∧ value = ⟨[], true, false⟩) ∨
      ∃ bytes, Stored source bytes ∧
        value = ⟨unmarked source.enc bytes, false, source.enc = .ascii⟩ := by
  unfold directFixedString at hvalue
  split at hvalue
  next hna => exact .inl ⟨hna, (Option.some.inj hvalue).symm⟩
  next hna =>
    right
    rw [Bool.not_eq_true] at hna
    split at hvalue
    next => exact absurd hvalue (by simp)
    next haccepted =>
      simp only [not_or] at haccepted
      cases hdata : source.data with
      | null len => exact absurd hview (not_normalizes_null hdata hna)
      | bytes span =>
          have hbytes : source.bytes = span.bytes := by simp [StringView.bytes, hdata]
          rw [hbytes] at hvalue
          exact ⟨span.bytes, ⟨⟨hna, span, hdata, rfl⟩, by simpa using haccepted.1⟩,
            (Option.some.inj hvalue).symm⟩

/-- A direct pattern is one ASCII byte. -/
theorem present_of_directFixedPattern (hbyte : directFixedPattern source = some byte)
    (hview : Normalizes converter source pattern) : ¬ byte > 0x7f ∧ Present pattern [byte] := by
  unfold directFixedPattern at hbyte
  split at hbyte
  next => exact absurd hbyte (by simp)
  next value hvalue =>
    split at hbyte
    next => exact absurd hbyte (by simp)
    next hsingle =>
      dsimp only at hbyte
      split at hbyte
      swap
      next => exact absurd hbyte (by simp)
      next hlow =>
        obtain rfl := Option.some.inj hbyte
        refine ⟨UInt8.not_lt.mpr hlow, ?_⟩
        obtain ⟨-, rfl⟩ | ⟨bytes, hstored, rfl⟩ := directFixedString_cases hvalue hview
        · exact absurd hsingle (by simp)
        · simp only [not_or, not_not] at hsingle
          obtain ⟨only, honly⟩ := List.length_eq_one_iff.mp hsingle.2
          have hpresent := hstored.present_of_normalizes hview
          rw [honly] at hpresent ⊢
          exact hpresent

/-- What the two kernels need of a record: its text, and that it is ASCII if it is marked so. -/
theorem ascii_of_stored {bytes : List UInt8} (hstored : Stored source bytes)
    (hascii : source.enc = .ascii → ∀ byte ∈ source.bytes, byte < 0x80) :
    decide (source.enc = .ascii) = true →
      ∀ byte ∈ unmarked source.enc bytes, byte < 0x80 := by
  intro hmark
  rw [decide_eq_true_eq] at hmark
  rw [unmarked, if_neg (fun h => h.1 hmark), ← hstored.present.bytes_eq]
  exact hascii hmark

variable (hbyte : ¬ byte > 0x7f) (hpattern : Present pattern [byte])
  (hsubject : Normalizes converter source subject)
  (hascii : source.enc = .ascii → ∀ byte ∈ source.bytes, byte < 0x80)
include hbyte hpattern hsubject hascii

/-- The direct kernel for first matches gives what the general path gives. -/
theorem located_of_direct (toUpper : CodePoint → CodePoint) {row : ByteRange}
    (hrow : locateFirstDirectElement ⟨byte, returnLength⟩ source = some row) :
    Located toUpper ⟨false, false⟩ returnLength subject pattern row := by
  obtain ⟨value, hvalue, rfl⟩ := Option.map_eq_some_iff.mp hrow
  obtain ⟨hna, rfl⟩ | ⟨bytes, hstored, rfl⟩ := directFixedString_cases hvalue hsubject
  · exact .missing (.inl (na_of_normalizes hna hsubject))
  · have hview := hstored.present_of_normalizes hsubject
    have hmark := ascii_of_stored hstored hascii
    generalize unmarked source.enc bytes = text at *
    obtain ⟨positions, hgreedy, hmatches⟩ := exists_matches_positions toUpper text byte
    have hsearched : Located toUpper ⟨false, false⟩ returnLength subject pattern _ :=
      .searched hview hpattern (List.cons_ne_nil byte []) hmatches
    have hhead := hgreedy.head_eq (firstFixedByte_finds text byte)
    have hfinds := firstFixedByte_finds text byte
    rw [List.head?_map, hhead] at hsearched
    cases hfirst : firstFixedByte text byte with
    | none =>
        rw [hfirst] at hsearched
        simp only [Bool.false_eq_true, if_false]
        exact hsearched
    | some position =>
        rw [hfirst] at hsearched hfinds
        simp only [Option.map_some, Option.getD_some, matchRow_byte hbyte hfinds.occurs]
          at hsearched
        simp only [Bool.false_eq_true, if_false,
          fixedCodepointPosition_eq hbyte hmark hfinds.occurs, Nat.cast_add, Nat.cast_one]
        exact hsearched

/-- The direct kernel for all matches gives what the general path gives. -/
theorem allLocated_of_direct (toUpper : CodePoint → CodePoint) {omitNoMatch : Bool}
    {rows : List ByteRange}
    (hrows : locateAllDirectElement byte omitNoMatch returnLength source = some rows) :
    AllLocated toUpper ⟨false, false⟩ returnLength omitNoMatch subject pattern rows := by
  obtain ⟨value, hvalue, rfl⟩ := Option.map_eq_some_iff.mp hrows
  obtain ⟨hna, rfl⟩ | ⟨bytes, hstored, rfl⟩ := directFixedString_cases hvalue hsubject
  · exact .missing (.inl (na_of_normalizes hna hsubject))
  · have hview := hstored.present_of_normalizes hsubject
    have hmark := ascii_of_stored hstored hascii
    generalize unmarked source.enc bytes = text at *
    generalize decide (source.enc = .ascii) = ascii at *
    obtain ⟨positions, hgreedy, hmatches⟩ := exists_matches_positions toUpper text byte
    have hsearched : AllLocated toUpper ⟨false, false⟩ returnLength omitNoMatch subject pattern _ :=
      .searched hview hpattern (List.cons_ne_nil byte []) hmatches
    have hlength := hgreedy.length_singleton
    rw [List.drop_zero] at hlength
    have hoccurrences : fixedByteOccurrences ⟨text, false, ascii⟩ byte
        (text.count byte) returnLength = byteRows text returnLength positions := by
      unfold fixedByteOccurrences
      cases ascii with
      | true => exact asciiOccurrences_eq (hmark rfl) hbyte returnLength rfl hgreedy
      | false =>
          exact @codepointOccurrences_eq text byte hbyte returnLength text.length 0 _ positions
            (Nat.zero_le _) (by rw [Nat.zero_add]; exact Utf8.codePointCount_le text) hgreedy
            hlength.le
    simp only [Bool.false_eq_true, if_false, countFixedByte, countAsciiByte_eq, hoccurrences]
    simp only [matrixRows, Bool.false_eq_true, if_false, List.length_map, hlength,
      List.map_map] at hsearched
    exact hsearched

end Agreement

end Charr.FixedSearch
