import Charr.FixedSearch.ExtractMerge
import Charr.FixedSearch.LocateAll
import Charr.Substring.Extract
import Charr.Substring.Frames
import Charr.Substring.ReplacementAll

/-!
# Located matches as substrings

The matrices of located matches are arguments of the substring functions. What the ranges
of a matrix cut out are the matches that extraction lists.
-/

namespace Charr.Substring

open FixedSearch (FixedSearchOptions AllLocated matchRow noMatchRange missingRange
  matrixRows RowMatches rowOf rowAt searchRow matchView FixedExtractPlan FixedExtractRow
  WellCounted extractionPlan)
open Parallel (ParallelPlan)
open FixedSearch.FixedMatcher (Present Matches)
open Occurrence (At)
open Utf8 (CodePoint offset codePointCount)

/-! ## Matches as ranges of code points -/

section Matches

variable {toUpper : CodePoint → CodePoint} {options : FixedSearchOptions}
  {text needle : List UInt8} {ranges : List (Nat × Nat)}

/-- What a search for exact bytes matches are these bytes. -/
theorem bytes_of_matches (hne : needle ≠ []) (hexact : options.caseInsensitive = false)
    (hmatches : Matches toUpper options needle text ranges) :
    ∀ range ∈ ranges, bytesFromTo text range.1 range.2 = needle := by
  obtain ⟨caseInsensitive, overlap⟩ := options
  obtain rfl : caseInsensitive = false := hexact
  have hreads := @FixedSearch.ByteSearchMatcher.reads_bytes toUpper needle text overlap hne
  obtain ⟨positions, hsweep⟩ := Occurrence.exists_sweep hne text hreads.lt_follow 0
  obtain rfl := hmatches.unique (FixedSearch.FixedMatcher.matches_of_reads hreads hsweep)
  intro range hrange
  obtain ⟨position, hposition, rfl⟩ := List.mem_map.mp hrange
  have hat := Occurrence.at_iff_take.mp (hsweep.occurs position hposition)
  rw [bytesFromTo, id_eq, id_eq, Nat.add_sub_cancel_left]
  exact hat

/-- The row of a match that starts and ends where code points do. -/
theorem matchRow_offset {first last : Nat} (hlt : first < last)
    (hlast : last ≤ codePointCount text) (returnLength : Bool) :
    matchRow text returnLength (offset text first, offset text last) =
      ⟨first + 1, if returnLength then (last : Int) - first else last⟩ := by
  unfold matchRow
  rw [FixedSearch.codePointsBefore_offset text (hlt.le.trans hlast),
    FixedSearch.codePointsBefore_offset text hlast]

end Matches

/-! ## The matrix as an argument -/

section Matrix

variable (rows : List ByteRange) (returnLength : Bool)

/-- A matrix of located matches, as an element of `from`. -/
def matrixArgument : BoundsArgument where
  values := .ok (rows.map ByteRange.start ++ rows.map ByteRange.stop)
  columns := some 2
  namedLength := returnLength

/-- The rows of a matrix as the bounds of an extraction. -/
def matrixBounds : Bounds where
  start := rows.map ByteRange.start
  stop := if returnLength then none else some (rows.map ByteRange.stop)
  lengths := if returnLength then some (rows.map ByteRange.stop) else none
  vectorizeLength := rows.length

theorem recyclingLength_same (length : Nat) :
    recyclingLength [length, length] = (length, false) := by
  unfold recyclingLength
  by_cases hzero : length = 0
  · simp [hzero]
  · simp [hzero, Nat.mod_self]

/-- The columns are the starts and the ends, or the starts and the lengths. -/
theorem prepareFromToLength_matrix (stop lengths : Option BoundsArgument) :
    prepareFromToLength true (matrixArgument rows returnLength) stop lengths =
      .ok (matrixBounds rows returnLength, false) := by
  have hcount : (rows.map ByteRange.start ++ rows.map ByteRange.stop).length / 2 =
      (rows.map ByteRange.start).length := by
    rw [List.length_append, List.length_map, List.length_map]
    omega
  have htake : ((rows.map ByteRange.start ++ rows.map ByteRange.stop).drop
      (rows.map ByteRange.start).length).take (rows.map ByteRange.start).length =
      rows.map ByteRange.stop := by
    rw [List.drop_left, List.take_of_length_le (by simp)]
  have hlength : recyclingLength [(rows.map ByteRange.start).length,
      (rows.map ByteRange.stop).length] = (rows.length, false) := by
    rw [List.length_map, List.length_map, recyclingLength_same]
  have hfew : ¬ (2 > 2) := by decide
  simp only [prepareFromToLength, matrixArgument, Option.getD_some, hfew, decide_false,
    Bool.and_false, Bool.false_eq_true, if_false, BoundsArgument.integers, Except.mapError, bind,
    Except.bind, hcount, htake, List.take_left]
  cases returnLength with
  | true =>
      simp only [if_true, recycledBounds, Option.getD_none, Option.getD_some, List.length_nil,
        Nat.zero_max, hlength]
      rfl
  | false =>
      simp only [Bool.false_eq_true, if_false, recycledBounds, Option.getD_none,
        Option.getD_some, List.length_nil, Nat.max_zero, hlength]
      rfl

variable {rows returnLength}

theorem recycled_map (field : ByteRange → Int) {index : Nat} (hindex : index < rows.length) :
    recycled (rows.map field) 0 index = field (rows.getD index missingRange) := by
  have hmod : index % (rows.map field).length = index := by
    rw [List.length_map, Nat.mod_eq_of_lt hindex]
  rw [recycled, hmod, List.getD_eq_getElem?_getD, List.getD_eq_getElem?_getD, List.getElem?_map,
    List.getElem?_eq_getElem hindex]
  rfl

/-- The bounds of a result are those of its row. -/
theorem matrixBounds_at {index : Nat} (hindex : index < rows.length) :
    (matrixBounds rows returnLength).currentFrom index = (rows.getD index missingRange).start ∧
      (matrixBounds rows returnLength).currentTo index = (rows.getD index missingRange).stop := by
  refine ⟨recycled_map ByteRange.start hindex, ?_⟩
  unfold Bounds.currentTo matrixBounds
  cases returnLength <;> exact recycled_map ByteRange.stop hindex

theorem filterMap_range_getD {Value Result : Type} (values : List Value) (default : Value)
    (image : Value → Option Result) :
    ((List.range values.length).filterMap fun index => image (values.getD index default)) =
      values.filterMap image := by
  conv_rhs => rw [← Parallel.map_range_getD values default, List.filterMap_map]
  rfl

end Matrix

/-! ## What the ranges cut out -/

section Cut

variable {source : FrameInput} {rows : List ByteRange} {returnLength : Bool}

/-- No range is left out, unless it is one of negative length. -/
theorem subAllRow_matrix {ignoreNegativeLength : Bool}
    (hkeeps : (ignoreNegativeLength && returnLength) = false) :
    subAllRow source (matrixBounds rows returnLength) ignoreNegativeLength =
      rows.map fun row => (extractOne source row.start row.stop returnLength 0).1 := by
  have hlengths : (matrixBounds rows returnLength).lengths.isSome = returnLength := by
    cases returnLength <;> rfl
  have hkept : ∀ currentFrom currentTo, (ignoreNegativeLength &&
      negativeLength source currentFrom currentTo returnLength) = false := by
    intro currentFrom currentTo
    cases returnLength with
    | true =>
        rw [Bool.and_true] at hkeeps
        rw [hkeeps, Bool.false_and]
    | false => simp [negativeLength]
  have hmap : rows.map (fun row => (extractOne source row.start row.stop returnLength 0).1) =
      rows.filterMap fun row =>
        some (extractOne source row.start row.stop returnLength 0).1 := by
    rw [List.filterMap_eq_map']
  rw [hmap, ← filterMap_range_getD rows missingRange, subAllRow]
  apply List.filterMap_congr
  intro index hindex
  obtain ⟨hfrom, hto⟩ := @matrixBounds_at rows returnLength index (List.mem_range.mp hindex)
  simp only [hlengths, hfrom, hto, hkept, Bool.false_eq_true, if_false]

/-- Nothing is cut out where nothing was found. -/
theorem extractOne_noMatch (returnLength : Bool) :
    (extractOne source (noMatchRange returnLength).start (noMatchRange returnLength).stop
      returnLength 0).1 = none := by
  cases source with
  | none => rfl
  | some text => cases returnLength <;> rfl

/-- A missing row extracts nothing. -/
theorem extractOne_missing (returnLength : Bool) :
    (extractOne source missingRange.start missingRange.stop returnLength 0).1 = none := by
  cases source with
  | none => rfl
  | some text => rfl

/-- The row of a match cuts out the match. -/
theorem extractOne_match (text : FrameText) {first last : Nat} (hlt : first < last)
    (hlast : last ≤ codePointCount text.bytes) (returnLength : Bool) :
    let row := matchRow text.bytes returnLength (offset text.bytes first, offset text.bytes last)
    (extractOne (some text) row.start row.stop returnLength 0).1 =
      some ⟨bytesFromTo text.bytes (offset text.bytes first) (offset text.bytes last),
        text.isAscii⟩ := by
  have hcount := (Utf8.codePointCount_le text.bytes).trans text.length_le
  have hmax : (intMax : Int) = 2147483647 := rfl
  have hna : naInteger = -2147483648 := rfl
  have hbytes := Utf8.offset_lt_offset text.bytes hlt hlast
  have hfirst : firstPosition (codePointCount text.bytes) ((first : Int) + 1) = first := by
    unfold firstPosition
    rw [if_pos (by omega)]
    omega
  have hstop : lastPosition (codePointCount text.bytes) (last : Int) = last := by
    unfold lastPosition
    rw [if_pos (by omega)]
    omega
  have hstart : ((first : Int) + 1 = naInteger) = False := by
    rw [eq_iff_iff, iff_false]
    omega
  dsimp only
  rw [matchRow_offset hlt hlast]
  cases returnLength with
  | false =>
      have hend : ((last : Int) = naInteger) = False := by
        rw [eq_iff_iff, iff_false]
        omega
      simp only [extractOne, hstart, hend, decide_false, Bool.or_false, Bool.false_and,
        Bool.false_eq_true, if_false, range_reset, hfirst, hstop, gt_iff_lt, hbytes, if_true]
  | true =>
      have hend : ((last : Int) - first = naInteger) = False := by
        rw [eq_iff_iff, iff_false]
        omega
      have hzero : ¬ (last : Int) - first = 0 := by omega
      have hnegative : ¬ (last : Int) - first < 0 := by omega
      have hendpoint : lengthEndpoint ((first : Int) + 1) ((last : Int) - first) = last := by
        have hsum : (first : Int) + 1 + ((last : Int) - first) - 1 = last := by omega
        unfold lengthEndpoint
        simp only [hsum]
        rw [if_neg (by simp; omega)]
        split_ifs <;> omega
      simp only [extractOne, hstart, hend, hzero, hnegative, hendpoint, decide_false,
        Bool.or_false, Bool.and_false, Bool.false_eq_true, if_false, if_true, range_reset, hfirst,
        hstop, gt_iff_lt, hbytes]

end Cut

/-! ## The strings of an extraction -/

section Extraction

variable {toUpper : CodePoint → CodePoint} {options : FixedSearchOptions} {omitNoMatch : Bool}
  {subject pattern : StringView} {text needle : List UInt8} {ranges : List (Nat × Nat)}

/-- The strings of the matches of an element; nothing when the element is missing. -/
def matchStrings (options : FixedSearchOptions) (pattern : StringView) (row : RowMatches) :
    Option (List StringView) :=
  if row.forcedNa then none
  else if row.count ≤ 0 then some []
  else if options.caseInsensitive then some row.found
  else some (List.replicate row.count.toNat pattern)

/-- The bytes of an element of the result, which has one missing string where there are none. -/
def resultBytes : Option (List StringView) → List (Option (List UInt8))
  | none => [none]
  | some strings => strings.map fun string => some string.bytes

/-- A row lists as many matches as there are, or as many copies of the pattern. -/
theorem rowOf_searched (hsubject : Present subject text) (hpattern : Present pattern needle)
    (hne : needle ≠ []) (hmatches : Matches toUpper options needle text ranges)
    (hlength : ranges.length ≤ intMax) :
    rowOf toUpper options omitNoMatch subject pattern =
      ⟨ranges.length, ranges.isEmpty && !omitNoMatch,
        if options.caseInsensitive then
          (ranges.map FixedSearch.FixedMatcher.toRange).map (matchView subject)
        else []⟩ := by
  have hpresent : ¬ (subject.isNa = true ∨ pattern.isNa = true ∨ pattern.len ≤ 0) := by
    rintro (hna | hna | hlen)
    · exact absurd (hsubject.not_na.symm.trans hna) Bool.false_ne_true
    · exact absurd (hpattern.not_na.symm.trans hna) Bool.false_ne_true
    · exact hne (hpattern.eq_nil hlen)
  have hempty : decide (ranges.length = 0) = ranges.isEmpty := by
    cases ranges <;> rfl
  unfold rowOf searchRow
  rw [if_neg hpresent]
  by_cases hlen : subject.len ≤ 0
  · obtain rfl := hsubject.eq_nil hlen
    obtain rfl := FixedSearch.FixedMatcher.matches_nil_of_empty hmatches
    rw [if_pos hlen]
    cases options.caseInsensitive <;> rfl
  · rw [if_neg hlen]
    have hfresh := FixedSearch.FixedMatcher.consistent_default toUpper
    have hforced : decide (ranges.length = 0 ∧ (!omitNoMatch) = true) =
        (ranges.isEmpty && !omitNoMatch) := by
      rw [Bool.decide_and, hempty, Bool.decide_eq_true]
    -- three kernels search, each of them counts all the ranges
    by_cases hfolds : options.caseInsensitive = true
    · obtain ⟨matcher, hfind, -⟩ :=
        FixedSearch.FixedMatcher.findAll_eq hfresh hsubject hpattern hne hmatches
      have hfew : ¬ ranges.length > intMax := Nat.not_lt.mpr hlength
      simp only [hfolds, Bool.not_true, Bool.false_eq_true, if_false, hfind, bind, Except.bind,
        hfew, pure, Except.pure, List.length_map, if_true, hforced]
    · have hexact : options.caseInsensitive = false := by simpa using hfolds
      simp only [hexact, Bool.not_false, if_true, Bool.false_eq_true, if_false]
      by_cases hoverlap : options.overlap = true
      · obtain ⟨matcher, hcount, -⟩ :=
          FixedSearch.FixedMatcher.count_eq hfresh hsubject hpattern hne hmatches
        simp only [hoverlap, if_true, hcount, bind, Except.bind, pure, Except.pure, hforced]
      · have hplain : options = ⟨false, false⟩ := by
          obtain ⟨caseInsensitive, overlap⟩ := options
          simpa using And.intro hexact hoverlap
        subst hplain
        obtain ⟨positions, hgreedy⟩ := Occurrence.exists_sweep hne text
          (show ∀ position, position < position + needle.length by
            have := List.length_pos_of_ne_nil hne
            intro; omega) 0
        obtain rfl := hmatches.unique
          (FixedSearch.FixedMatcher.matches_of_greedy hne hgreedy)
        have hcount := FixedSearch.countExactBytes_eq hne hgreedy
        rw [List.length_map] at hforced
        simp only [Bool.false_eq_true, if_false, hsubject.bytes_eq, hpattern.bytes_eq, hcount,
          bind, Except.bind, pure, Except.pure, List.length_map, hforced]

/-- The matches as they are cut out of the text. -/
theorem resultBytes_searched (hsubject : Present subject text) (hpattern : Present pattern needle)
    (hne : needle ≠ []) (hmatches : Matches toUpper options needle text ranges)
    (hlength : ranges.length ≤ intMax) :
    resultBytes (matchStrings options pattern
        (rowOf toUpper options omitNoMatch subject pattern)) =
      if ranges = [] then if omitNoMatch then [] else [none]
      else ranges.map fun range => some (bytesFromTo text range.1 range.2) := by
  rw [rowOf_searched hsubject hpattern hne hmatches hlength]
  cases ranges with
  | nil =>
      cases omitNoMatch with
      | true => rfl
      | false => rfl
  | cons range rest =>
      have hcount : ¬ ((range :: rest).length : Int) ≤ 0 := by
        rw [List.length_cons]
        omega
      simp only [matchStrings, List.isEmpty_cons, Bool.false_and, Bool.false_eq_true, if_false,
        hcount, reduceCtorEq]
      by_cases hfolds : options.caseInsensitive = true
      · obtain ⟨hna, span, hdata, rfl⟩ := hsubject
        simp only [hfolds, if_true, resultBytes, List.map_map]
        apply List.map_congr_left
        intro found _
        simp only [Function.comp, matchView, hdata, FixedSearch.FixedMatcher.toRange]
        rfl
      · have hexact : options.caseInsensitive = false := by simpa using hfolds
        have hbytes := bytes_of_matches hne hexact hmatches
        simp only [hexact, Bool.false_eq_true, if_false, resultBytes, Int.toNat_natCast,
          List.map_replicate, hpattern.bytes_eq]
        symm
        rw [List.eq_replicate_iff]
        refine ⟨by rw [List.length_map], ?_⟩
        intro bytes hmem
        obtain ⟨found, hfound, rfl⟩ := List.mem_map.mp hmem
        rw [hbytes found hfound]

variable {source : FrameInput} {rows : List ByteRange} {returnLength ignoreNegativeLength : Bool}

/-- The ranges of an element's matrix cut out what the extraction lists for it. -/
theorem subAllRow_located (hsame : SameText subject source)
    (hrows : AllLocated toUpper options returnLength omitNoMatch subject pattern rows)
    (hwell : options.caseInsensitive = true ∨ Utf8.WellFormed pattern.bytes)
    (hkeeps : (ignoreNegativeLength && returnLength) = false) :
    (subAllRow source (matrixBounds rows returnLength) ignoreNegativeLength).map
        (Option.map OutputText.bytes) =
      resultBytes (matchStrings options pattern
        (rowOf toUpper options omitNoMatch subject pattern)) := by
  rw [subAllRow_matrix hkeeps, List.map_map]
  cases hrows with
  | missing hmissing =>
      have hrow : rowOf toUpper options omitNoMatch subject pattern = ⟨0, true, []⟩ := by
        unfold rowOf searchRow
        rw [if_pos hmissing]
      rw [hrow, List.map_singleton, Function.comp, extractOne_missing]
      rfl
  | @searched text needle ranges hsubject hpattern hne hmatches =>
      cases hsame with
      | missing hna => exact absurd (hsubject.not_na.symm.trans hna) Bool.false_ne_true
      | @present frame hview =>
          obtain rfl := hsubject.unique hview
          have hlength : ranges.length ≤ intMax := hmatches.2.trans frame.length_le
          rw [resultBytes_searched hsubject hpattern hne hmatches hlength]
          have hoffsets := FixedSearch.offsets_of_matches hne
            (by rwa [hpattern.bytes_eq] at hwell) hmatches
          cases ranges with
          | nil =>
              cases omitNoMatch with
              | true => rfl
              | false =>
                  simp only [matrixRows, List.map_nil, List.length_nil, if_true,
                    Bool.false_eq_true, if_false, List.map_singleton, Function.comp,
                    extractOne_noMatch]
                  rfl
          | cons range rest =>
              have hsome : matrixRows returnLength omitNoMatch
                  (false, (range :: rest).map (matchRow frame.bytes returnLength)) =
                  (range :: rest).map (matchRow frame.bytes returnLength) := by
                simp [matrixRows]
              rw [hsome, if_neg (List.cons_ne_nil range rest), List.map_map]
              apply List.map_congr_left
              intro found hfound
              obtain ⟨first, last, hlt, hlast, rfl⟩ := hoffsets found hfound
              simp only [Function.comp, extractOne_match frame hlt hlast, Option.map_some]

end Extraction

/-! ## All elements -/

section Plans

variable {toUpper : CodePoint → CodePoint} {subjects patterns : List StringView}
  {options : FixedSearchOptions} {omitNoMatch : Bool}

/-- A row of a plan stands for the strings of its element. -/
theorem strings_of_denotes {plan : FixedExtractPlan} {row : FixedExtractRow} {index : Nat}
    (hmode : plan.matchesArePatterns = !options.caseInsensitive)
    (hcounted : WellCounted options (rowAt toUpper subjects patterns options omitNoMatch index))
    (hdenotes : FixedSearch.Denotes (rowAt toUpper subjects patterns options omitNoMatch)
      patterns.length (!options.caseInsensitive) plan.matched index row) :
    plan.strings patterns row = matchStrings options (patterns.getD (index % patterns.length) .na)
      (rowAt toUpper subjects patterns options omitNoMatch index) := by
  unfold FixedExtractPlan.strings matchStrings
  rw [hdenotes.forcedNa_eq, hdenotes.count_eq, hmode]
  by_cases hfolds : options.caseInsensitive = true
  · rw [hfolds] at hdenotes
    simp only [hfolds, Bool.not_true, Bool.false_eq_true, if_false, if_true,
      ← hdenotes.slice_eq (hcounted.listed hfolds), hdenotes.count_eq]
  · have hexact : options.caseInsensitive = false := by simpa using hfolds
    simp only [hexact, Bool.not_false, if_true, Bool.false_eq_true, if_false,
      hdenotes.pattern_eq (by rw [hexact]; rfl)]

/-- Every plan of an extraction, made by one worker or by several, has the strings of every
element. -/
theorem strings_of_extractionPlan (hsubjects : ∀ view ∈ subjects, Normalized view)
    (hpatterns : ∀ view ∈ patterns, Normalized view) (hsubjectCount : subjects.length ≤ intMax)
    (hpatternCount : patterns.length ≤ intMax) {parallelPlan : ParallelPlan}
    (hworkers : 1 ≤ parallelPlan.workers) {schedule : List Nat} {plan : FixedExtractPlan}
    (hplan : extractionPlan toUpper subjects patterns options omitNoMatch parallelPlan schedule =
      some (.ok plan)) {index : Nat}
    (hindex : index < (Charr.recyclingLength subjects.length patterns.length).1) :
    plan.rows[index]?.map (plan.strings patterns) =
      some (matchStrings options (patterns.getD (index % patterns.length) .na)
        (rowAt toUpper subjects patterns options omitNoMatch index)) := by
  have hinputs : 0 < (Charr.recyclingLength subjects.length patterns.length).1 →
      subjects ≠ [] ∧ patterns ≠ [] := FixedSearch.nonempty_of_recyclingLength
  have htasks := FixedSearch.recyclingLength_le hsubjectCount hpatternCount
  have hcounted := FixedSearch.wellCounted_rowAt toUpper options omitNoMatch hsubjects hpatterns
    index
  unfold extractionPlan at hplan
  dsimp only at hplan
  generalize (Charr.recyclingLength subjects.length patterns.length).1 = tasks at *
  split at hplan
  next =>
    obtain ⟨serial, matcher, hserial, hplanned, hmode⟩ := FixedSearch.planFixedExtract_eq options
      omitNoMatch hsubjects hpatterns (FixedSearch.FixedMatcher.consistent_default toUpper) hinputs
    rw [hserial] at hplan
    obtain rfl := Except.ok.inj (Option.some.inj hplan)
    have hlength := hplanned.rows.length_eq
    rw [List.length_range] at hlength
    have hdenotes := (List.forall₂_iff_get.mp hplanned.rows).2 index (by simpa using hindex)
      (hlength ▸ hindex)
    simp only [List.get_eq_getElem, List.getElem_range] at hdenotes
    rw [List.getElem?_eq_getElem (hlength ▸ hindex), Option.map_some,
      strings_of_denotes hmode hcounted hdenotes]
  next =>
    obtain ⟨regionEnd, hrun, hreturn⟩ := Option.bind_eq_some_iff.mp hplan
    obtain ⟨hreturned, merged, done, hmerge, hdone, hmerged⟩ :=
      FixedSearch.extractionRegion_eq hsubjects hpatterns hinputs htasks hworkers hrun
    simp only [hreturned, Parallel.Outcome.message, hmerge] at hreturn
    obtain rfl := Except.ok.inj (Option.some.inj hreturn)
    obtain ⟨row, hget, hdenotes⟩ := hmerged.placed.denotes index
      (hdone.mem_iff.mpr (List.mem_range.mpr hindex))
    rw [hget, Option.map_some, strings_of_denotes hmerged.mode_eq hcounted hdenotes]

end Plans

section Located

variable {toUpper : CodePoint → CodePoint} {converter : NativeToUtf8}
  {settings : Parallel.Settings} {subjects patterns : List StringView}
  {options : FixedSearchOptions} {omitNoMatch returnLength ignoreNegativeLength : Bool}

/-- Cutting out the located matches is extracting the matches. However many workers locate and
extract, the element cut out with the rows of a matrix has the strings of the extraction. -/
theorem subAll_of_locateAll (hkeeps : KeepsText converter)
    (hascii : ∀ view ∈ subjects, view.enc = .ascii → ∀ byte ∈ view.bytes, byte < 0x80)
    (hsubjectCount : subjects.length ≤ intMax) (hpatternCount : patterns.length ≤ intMax)
    (hignored : (ignoreNegativeLength && returnLength) = false) {locateSchedule : List Nat}
    {found : FixedSearch.MatrixList}
    (hfound : FixedSearch.ciLocateAllFixed toUpper options omitNoMatch returnLength converter
      settings subjects patterns locateSchedule = some (.ok found))
    {normalized normalizedPatterns : List StringView}
    (hnormalized : normalizeViews converter ⟨0⟩ subjects = .ok normalized)
    (hnormalizedPatterns : normalizeViews converter ⟨0⟩ patterns = .ok normalizedPatterns)
    (hwell : options.caseInsensitive = true ∨
      ∀ pattern ∈ normalizedPatterns, Utf8.WellFormed pattern.bytes)
    {plan : ParallelPlan} (hworkers : 1 ≤ plan.workers) {extractSchedule : List Nat}
    {extracted : FixedExtractPlan}
    (hextracted : extractionPlan toUpper normalized normalizedPatterns options omitNoMatch plan
      extractSchedule = some (.ok extracted)) :
    ∀ index < found.length, ∃ rows, found.matrices index = some rows ∧
      (∀ stop lengths, prepareFromToLength true (matrixArgument rows returnLength) stop lengths =
        .ok (matrixBounds rows returnLength, false)) ∧
      ∃ row, extracted.rows[index]? = some row ∧
        ∀ frame source, ciSubNormalizeFrameInput converter
            (subjects.getD (index % subjects.length) .na) = .ok frame → frame.Holds source →
          (subAllRow source (matrixBounds rows returnLength) ignoreNegativeLength).map
              (Option.map OutputText.bytes) =
            resultBytes (extracted.strings normalizedPatterns row) := by
  obtain ⟨hcount, hnormal⟩ := normalizeViews_spec hnormalized
  obtain ⟨hcountPatterns, hnormalPatterns⟩ := normalizeViews_spec hnormalizedPatterns
  -- every row of the matrices holds the ranges of all matches
  obtain ⟨-, hlocated⟩ := FixedSearch.ciLocateAllFixed_matrices hascii hfound
  have hmatrices := hlocated found rfl
  intro index hindex
  have htasks : index < (Charr.recyclingLength subjects.length patterns.length).1 :=
    hmatrices.length_eq ▸ hindex
  obtain ⟨hsomeSubjects, hsomePatterns⟩ :=
    FixedSearch.nonempty_of_recyclingLength (Nat.zero_lt_of_lt htasks)
  have hsubject := FixedSearch.normalizes_getD hnormalized
    (Nat.mod_lt index (List.length_pos_of_ne_nil hsomeSubjects))
  have hpattern := FixedSearch.normalizes_getD hnormalizedPatterns
    (Nat.mod_lt index (List.length_pos_of_ne_nil hsomePatterns))
  obtain ⟨rows, hrows, hall⟩ := hmatrices.rows index hindex _ _ hsubject hpattern
  refine ⟨rows, hrows, prepareFromToLength_matrix rows returnLength, ?_⟩
  -- the extraction plans the strings of the same ranges
  have hstrings := strings_of_extractionPlan hnormal hnormalPatterns (hcount ▸ hsubjectCount)
    (hcountPatterns ▸ hpatternCount) hworkers hextracted (by rwa [hcount, hcountPatterns])
  obtain ⟨row, hrow, hstrings⟩ := Option.map_eq_some_iff.mp hstrings
  refine ⟨row, hrow, ?_⟩
  intro frame source hframe hholds
  rw [hstrings, FixedSearch.rowAt, hcount, hcountPatterns]
  refine subAllRow_located (sameText_of_normalizes hkeeps hsubject hframe hholds) hall ?_ hignored
  refine hwell.imp id fun hwell => hwell _ ?_
  have hlane : index % patterns.length < normalizedPatterns.length := by
    rw [hcountPatterns]
    exact Nat.mod_lt index (List.length_pos_of_ne_nil hsomePatterns)
  rw [List.getD_eq_getElem?_getD, List.getElem?_eq_getElem hlane]
  exact List.getElem_mem hlane

/-- An ASCII subject and a Latin-1 one. -/
def sampleSubjects : List StringView :=
  [⟨.bytes ⟨100, [97, 97], by decide⟩, .ascii⟩, ⟨.bytes ⟨200, [0xe9, 97], by decide⟩, .latin1⟩]

theorem samplePattern_fits : [(97 : UInt8)].length ≤ intMax := by decide

/-- The pattern `a`. -/
def samplePatterns : List StringView := [⟨.bytes ⟨500, [97], samplePattern_fits⟩, .ascii⟩]

/-- The converter of the samples gives UTF-8 for UTF-8. -/
theorem keepsText_sampleConverter : KeepsText FixedSearch.sampleConverter := by
  intro bytes output houtput
  rw [if_pos (show FixedSearch.sampleConverter.nativeIsUtf8 = true from rfl)]
  simp only [FixedSearch.sampleConverter] at houtput
  split at houtput
  next =>
    obtain rfl := Except.ok.inj houtput
    rfl
  next => cases houtput

/-- Two records, the second in Latin-1, located by one worker and extracted by two. -/
theorem subAll_of_locateAll_two_records :
    let source : FrameInput := some ⟨[0xc3, 0xa9, 97], false, by decide, by decide⟩
    ∃ found normalized extracted rows row,
      FixedSearch.ciLocateAllFixed id ⟨false, false⟩ true false FixedSearch.sampleConverter
        ⟨1, 128, 1⟩ sampleSubjects samplePatterns [] = some (.ok found) ∧
      extractionPlan id normalized samplePatterns ⟨false, false⟩ true ⟨2, 1⟩
        ((List.range 14).map (· % 2)) = some (.ok extracted) ∧
      found.matrices 1 = some rows ∧ extracted.rows[1]? = some row ∧
      (subAllRow source (matrixBounds rows false) true).map (Option.map OutputText.bytes) =
        resultBytes (extracted.strings samplePatterns row) := by
  intro source
  have hascii : ∀ view ∈ sampleSubjects, view.enc = .ascii →
      view.bytes.all (fun byte => decide (byte < 0x80)) = true := by decide
  obtain ⟨found, hfound, hlength⟩ : ∃ found, FixedSearch.ciLocateAllFixed id ⟨false, false⟩ true
      false FixedSearch.sampleConverter ⟨1, 128, 1⟩ sampleSubjects samplePatterns [] =
        some (.ok found) ∧ found.length = 2 := ⟨_, rfl, rfl⟩
  obtain ⟨normalized, extracted, hnormalized, hextracted⟩ : ∃ normalized extracted,
      normalizeViews FixedSearch.sampleConverter ⟨0⟩ sampleSubjects = .ok normalized ∧
      extractionPlan id normalized samplePatterns ⟨false, false⟩ true ⟨2, 1⟩
        ((List.range 14).map (· % 2)) = some (.ok extracted) := ⟨_, _, rfl, rfl⟩
  have hwell : ∀ pattern ∈ samplePatterns, Utf8.WellFormed pattern.bytes :=
    List.forall_mem_singleton.mpr (FixedSearch.wellFormed_single (by decide))
  obtain ⟨rows, hrows, -, row, hrow, hcut⟩ := @subAll_of_locateAll id FixedSearch.sampleConverter
    ⟨1, 128, 1⟩ sampleSubjects samplePatterns ⟨false, false⟩ true false true
    keepsText_sampleConverter
    (fun view hview hmark byte hbyte =>
      of_decide_eq_true (List.all_eq_true.mp (hascii view hview hmark) byte hbyte))
    (by decide) (by decide) rfl [] found hfound normalized samplePatterns hnormalized rfl
    (.inr hwell) ⟨2, 1⟩ (by decide) _ extracted hextracted 1 (by omega)
  have hframe : ciSubNormalizeFrameInput FixedSearch.sampleConverter
      (sampleSubjects.getD (1 % sampleSubjects.length) .na) =
      .ok ⟨.bytes ⟨400, [0xc3, 0xa9, 97], by decide⟩, false, false, true⟩ := rfl
  exact ⟨found, normalized, extracted, rows, row, hfound, hextracted, hrows, hrow,
    hcut _ source hframe ⟨rfl, rfl, _, rfl, rfl⟩⟩

end Located

end Charr.Substring
