import Charr.FixedSearch.LocateFirst

/-!
# Locating all matches in a vector

The result is a list of matrices. One worker looks for a pattern of one ASCII byte in the
records as they are stored, up to the first that is not stored as ASCII or UTF-8, and sets
the matrices as it goes; several workers fill the rows of all elements before any matrix is
made. The matrices are the same.
-/

namespace Charr.FixedSearch

open Parallel Loops
open Utf8 (CodePoint)
open FixedMatcher (Consistent)

/-! ## The operation -/

/-- Whether an element is missing, and its rows. -/
abbrev FilledRows := Bool × List ByteRange

/-- The loop of `locate_all_ascii_scalar_direct`: the index it stopped at, and the matrices. -/
def locateAllAsciiScalarDirect (patternByte : UInt8) (omitNoMatch returnLength : Bool)
    (subjects : List StringView) :
    List Nat → (Nat → Option (List ByteRange)) → Option Nat × (Nat → Option (List ByteRange))
  | [], matrices => (none, matrices)
  | index :: rest, matrices =>
      match locateAllDirectElement patternByte omitNoMatch returnLength
          (subjects.getD index .na) with
      | some rows =>
          locateAllAsciiScalarDirect patternByte omitNoMatch returnLength subjects rest
            (store matrices (index, rows))
      | none => (some index, matrices)

/-- Fill the rows of some elements in turn. -/
def fillRows (one : Nat → FixedMatcher → Except NativeError (FilledRows × FixedMatcher)) :
    List Nat → FixedMatcher → ActionResult FixedMatcher FilledRows NativeError
  | [], matcher => .pass matcher
  | index :: rest, matcher =>
      match one index matcher with
      | .error error => { ending := .throws error, state := matcher }
      | .ok (filled, matcher) =>
          let tail := fillRows one rest matcher
          { tail with writes := (index, filled) :: tail.writes }

/-- How far the direct phase came. -/
structure DirectMatrices where
  direct : Bool
  generalStart : Nat
  matrices : Nat → Option (List ByteRange)

/-- What `ci_locate_all_fixed` returns, and what it warns of. -/
structure MatrixList where
  length : Nat
  matrices : Nat → Option (List ByteRange)
  recyclingWarning : Bool
  emptyPatternWarnings : Nat

section Operation

variable (toUpper : CodePoint → CodePoint) (options : FixedSearchOptions)
  (omitNoMatch returnLength : Bool)

/-- `locate_all_ascii_scalar_direct`. -/
def directMatrices (subjects patterns : List StringView) (vectorizeLength : Nat) :
    DirectMatrices :=
  if options.caseInsensitive ∨ options.overlap ∨ patterns.length ≠ 1 then
    ⟨false, 0, fun _ => none⟩
  else
    match directFixedPattern (patterns.getD 0 .na) with
    | none => ⟨false, 0, fun _ => none⟩
    | some patternByte =>
        match locateAllAsciiScalarDirect patternByte omitNoMatch returnLength subjects
            (List.range vectorizeLength) fun _ => none with
        | (none, matrices) => ⟨true, 0, matrices⟩
        | (some index, matrices) => ⟨false, index, matrices⟩

/-- The rows of an element, searched for with the pattern of its lane. -/
def fillRow (subjects patterns : List StringView) (lane index : Nat) (matcher : FixedMatcher) :
    Except NativeError (FilledRows × FixedMatcher) :=
  fillAllMatches toUpper options returnLength (subjects.getD (index % subjects.length) .na)
    (patterns.getD lane .na) matcher

/-- One worker, pattern after pattern. -/
def locateLanes (subjects patterns : List StringView) (vectorizeLength generalStart : Nat) :
    List Nat → FixedMatcher → (Nat → Option (List ByteRange)) →
      Except NativeError (Nat → Option (List ByteRange))
  | [], _, matrices => .ok matrices
  | lane :: rest, matcher, matrices =>
      let start := if generalStart > 0 then generalStart else lane
      let result := fillRows (fillRow toUpper options returnLength subjects patterns lane)
        (laneIndices patterns.length vectorizeLength vectorizeLength start) matcher
      match result.ending with
      | .throws error => .error error
      | _ =>
          locateLanes subjects patterns vectorizeLength generalStart rest result.state
            ((result.writes.map fun write =>
              (write.1, matrixRows returnLength omitNoMatch write.2)).foldl store matrices)

/-- The general search on one thread, behind what the direct one reached. -/
def locateSerially (subjects patterns : List StringView) (vectorizeLength : Nat)
    (reached : DirectMatrices) : Except NativeError (Nat → Option (List ByteRange)) :=
  if reached.generalStart > 0 ∧ patterns.length ≠ 1 then
    .error (.logicError "fixed-locate direct prefix requires a scalar pattern")
  else
    locateLanes toUpper options omitNoMatch returnLength subjects patterns vectorizeLength
      reached.generalStart (List.range patterns.length) {} reached.matrices

/-- `AllBody`: a single pattern is searched for task by task; several patterns are a lane each. -/
def locateAllBody (subjects patterns : List StringView) (vectorizeLength : Nat) :
    ParallelBody FixedMatcher FilledRows NativeError where
  initial _ := {}
  task _ index matcher :=
    if patterns.length = 1 then
      fillRows (fillRow toUpper options returnLength subjects patterns 0) [index] matcher
    else
      fillRows (fillRow toUpper options returnLength subjects patterns index)
        (laneIndices patterns.length vectorizeLength vectorizeLength index) matcher
  describeError := NativeError.text

/-- The matrices of the rows several workers left. -/
def filledMatrices (patterns : List StringView) (vectorizeLength : Nat)
    (filled : Nat → Option FilledRows) : Nat → Option (List ByteRange) :=
  let indices := (List.range patterns.length).flatMap fun lane =>
    laneIndices patterns.length vectorizeLength vectorizeLength lane
  (indices.map fun index =>
    (index, matrixRows returnLength omitNoMatch ((filled index).getD (false, [])))).foldl store
      fun _ => none

/-- `ci_locate_all_fixed` -/
def ciLocateAllFixed (converter : NativeToUtf8) (settings : Settings)
    (subjects patterns : List StringView) (schedule : List Nat) :
    Option (Except String MatrixList) :=
  let (vectorizeLength, recyclingWarning) := recyclingLength subjects.length patterns.length
  if vectorizeLength > 0 then
    let tasks := if patterns.length = 1 then vectorizeLength else patterns.length
    let plan := parallelPlan settings true tasks
    let reached :=
      if plan.workers = 1 then
        directMatrices options omitNoMatch returnLength subjects patterns vectorizeLength
      else ⟨false, 0, fun _ => none⟩
    if reached.direct then
      some (.ok ⟨vectorizeLength, reached.matrices, recyclingWarning, 0⟩)
    else
      match normalizeViews converter ⟨0⟩ subjects, normalizeViews converter ⟨0⟩ patterns with
      | .error error, _ => some (.error error.text)
      | .ok _, .error error => some (.error error.text)
      | .ok subjects, .ok patterns =>
          let warnings := countEmptyPatterns patterns
          if plan.workers = 1 then
            match locateSerially toUpper options omitNoMatch returnLength subjects patterns
                vectorizeLength reached with
            | .error error => some (.error error.text)
            | .ok matrices => some (.ok ⟨vectorizeLength, matrices, recyclingWarning, warnings⟩)
          else do
            let regionEnd ← runParallel plan tasks
              (locateAllBody toUpper options returnLength subjects patterns vectorizeLength)
              (fun _ => none) schedule
            match regionEnd.outcome.message NativeError.text with
            | some message => return .error message
            | none =>
                return .ok ⟨vectorizeLength, filledMatrices omitNoMatch returnLength patterns
                  vectorizeLength regionEnd.final.shared.result, recyclingWarning, warnings⟩
  else some (.ok ⟨vectorizeLength, fun _ => none, recyclingWarning, 0⟩)

end Operation

/-! ## Stored matrices -/

/-- What is stored for some elements, each its own value. -/
theorem foldl_store_own {Value : Type} (value : Nat → Value) (indices : List Nat)
    (memory : Nat → Option Value) (index : Nat) :
    (indices.map fun other => (other, value other)).foldl store memory index =
      if index ∈ indices then some (value index) else memory index := by
  split
  next hmem =>
    have hwritten : (index, value index) ∈ indices.map fun other => (other, value other) :=
      List.mem_map.mpr ⟨index, hmem, rfl⟩
    apply foldl_update_of_agree _ _ hwritten
    intro write hwrite hslot
    obtain ⟨other, -, rfl⟩ := List.mem_map.mp hwrite
    exact congrArg value hslot
  next hnot =>
    apply foldl_update_of_not_mem
    rintro write hwrite rfl
    obtain ⟨other, hother, rfl⟩ := List.mem_map.mp hwrite
    exact hnot hother

/-! ## The direct phase -/

section Direct

variable {subjects : List StringView} {patternByte : UInt8} {omitNoMatch returnLength : Bool}

/-- Every element below `stop` has its matrix from the direct kernel. -/
def MatricesTo (subjects : List StringView) (patternByte : UInt8) (omitNoMatch returnLength : Bool)
    (stop : Nat) (matrices : Nat → Option (List ByteRange)) : Prop :=
  ∀ index < stop, ∃ rows, matrices index = some rows ∧
    locateAllDirectElement patternByte omitNoMatch returnLength (subjects.getD index .na) =
      some rows

/-- The scan stops inside the vector or goes through it, and leaves the matrices below. -/
theorem locateAllAsciiScalarDirect_spec (count : Nat) {start limit : Nat}
    {matrices : Nat → Option (List ByteRange)} (hcount : start + count = limit)
    (hbefore : MatricesTo subjects patternByte omitNoMatch returnLength start matrices) :
    let scan := locateAllAsciiScalarDirect patternByte omitNoMatch returnLength subjects
      (List.range' start count) matrices
    (∀ stop, scan.1 = some stop → stop < limit) ∧
      MatricesTo subjects patternByte omitNoMatch returnLength (scan.1.getD limit) scan.2 := by
  induction count generalizing start matrices with
  | zero =>
      obtain rfl : start = limit := by omega
      exact ⟨fun stop hstop => absurd hstop (by simp [locateAllAsciiScalarDirect]), hbefore⟩
  | succ count ih =>
      rw [List.range'_succ]
      simp only [locateAllAsciiScalarDirect]
      cases hrows : locateAllDirectElement patternByte omitNoMatch returnLength
          (subjects.getD start .na) with
      | none =>
          refine ⟨?_, hbefore⟩
          rintro stop ⟨⟩
          omega
      | some rows =>
          have hafter : MatricesTo subjects patternByte omitNoMatch returnLength (start + 1)
              (store matrices (start, rows)) := by
            intro index hindex
            obtain hlt | rfl := Nat.lt_or_eq_of_le (Nat.le_of_lt_succ hindex)
            · obtain ⟨other, hother, hdirect⟩ := hbefore index hlt
              exact ⟨other, by rw [store, Function.update_of_ne (Nat.ne_of_lt hlt), hother],
                hdirect⟩
            · exact ⟨rows, Function.update_self .., hrows⟩
          exact ih (by omega) hafter

end Direct

/-! ## The general path -/

section General

variable {toUpper : CodePoint → CodePoint} {options : FixedSearchOptions}
  {omitNoMatch returnLength : Bool}

variable (toUpper options returnLength) in
/-- The rows a new matcher fills. -/
def generalRows (subject pattern : StringView) : FilledRows :=
  match fillAllMatches toUpper options returnLength subject pattern {} with
  | .ok (filled, _) => filled
  | .error _ => (false, [])

/-- Whatever the matcher was used for, the rows are those a new one fills. -/
theorem fillAllMatches_eq (omitNoMatch : Bool) {subject pattern : StringView}
    (hsubject : Normalized subject) (hpattern : Normalized pattern)
    (hascii : subject.enc = .ascii → ∀ byte ∈ subject.bytes, byte < 0x80) :
    AllLocated toUpper options returnLength omitNoMatch subject pattern
        (matrixRows returnLength omitNoMatch
          (generalRows toUpper options returnLength subject pattern)) ∧
      ∀ matcher, Consistent toUpper matcher → ∃ matcher',
        fillAllMatches toUpper options returnLength subject pattern matcher =
          .ok (generalRows toUpper options returnLength subject pattern, matcher') ∧
        Consistent toUpper matcher' := by
  obtain ⟨filled, hrows, hall⟩ :=
    @fillAllMatches_located toUpper options returnLength _ _ hsubject hpattern hascii omitNoMatch
  obtain ⟨last, hfresh, -⟩ := hall {} (FixedMatcher.consistent_default toUpper)
  have hgeneral : generalRows toUpper options returnLength subject pattern = filled := by
    rw [generalRows, hfresh]
  rw [hgeneral]
  exact ⟨hrows, hall⟩

/-- Filling elements one after another fills each with its own rows. -/
theorem fillRows_eq {filled : Nat → FilledRows}
    {one : Nat → FixedMatcher → Except NativeError (FilledRows × FixedMatcher)}
    (hone : ∀ index matcher, Consistent toUpper matcher →
      ∃ matcher', one index matcher = .ok (filled index, matcher') ∧ Consistent toUpper matcher')
    (indices : List Nat) {matcher : FixedMatcher} (hmatcher : Consistent toUpper matcher) :
    let result := fillRows one indices matcher
    result.ending = .next ∧ result.writes = (indices.map fun index => (index, filled index)) ∧
      Consistent toUpper result.state := by
  induction indices generalizing matcher with
  | nil => exact ⟨rfl, rfl, hmatcher⟩
  | cons index rest ih =>
      obtain ⟨matcher', heq, hkept⟩ := hone index matcher hmatcher
      obtain ⟨hending, hwrites, hlast⟩ := ih hkept
      simp only [fillRows, heq, List.map_cons]
      exact ⟨hending, by rw [hwrites], hlast⟩

variable (subjects patterns : List StringView)

variable (toUpper options returnLength) in
/-- The rows of an element, with both vectors recycled. -/
def filledRowsAt (index : Nat) : FilledRows :=
  generalRows toUpper options returnLength (subjects.getD (index % subjects.length) .na)
    (patterns.getD (index % patterns.length) .na)

variable {subjects patterns}
variable (hsubjects : ∀ view ∈ subjects, Normalized view)
  (hpatterns : ∀ view ∈ patterns, Normalized view)
  (hascii : ∀ view ∈ subjects, view.enc = .ascii → ∀ byte ∈ view.bytes, byte < 0x80)
include hsubjects hpatterns hascii

/-- The rows of an element do not depend on the matcher's history. -/
theorem fillRow_eq (lane index : Nat) {matcher : FixedMatcher}
    (hmatcher : Consistent toUpper matcher) :
    ∃ matcher', fillRow toUpper options returnLength subjects patterns lane index matcher =
        .ok (generalRows toUpper options returnLength
          (subjects.getD (index % subjects.length) .na) (patterns.getD lane .na), matcher') ∧
      Consistent toUpper matcher' :=
  (fillAllMatches_eq false (normalized_getD hsubjects _) (normalized_getD hpatterns _)
    (ascii_getD hascii _)).2 matcher hmatcher

/-- The indices of a lane are filled with the rows of their elements. -/
theorem fillLane_eq {vectorizeLength start lane : Nat}
    (hstart : start % patterns.length = lane) (hlimit : start < vectorizeLength)
    {matcher : FixedMatcher} (hmatcher : Consistent toUpper matcher) :
    let indices := laneIndices patterns.length vectorizeLength vectorizeLength start
    let result := fillRows (fillRow toUpper options returnLength subjects patterns lane) indices
      matcher
    result.ending = .next ∧
      result.writes = (indices.map fun index =>
        (index, filledRowsAt toUpper options returnLength subjects patterns index)) ∧
      Consistent toUpper result.state := by
  obtain ⟨hending, hwrites, hkept⟩ := fillRows_eq (fun index matcher hmatcher =>
    @fillRow_eq toUpper options returnLength _ _ hsubjects hpatterns hascii lane index matcher
      hmatcher) (laneIndices patterns.length vectorizeLength vectorizeLength start) hmatcher
  refine ⟨hending, ?_, hkept⟩
  rw [hwrites]
  apply List.map_congr_left
  intro index hindex
  rw [filledRowsAt, (VectorSearch.mod_of_mem_laneIndices _ hlimit hindex).1, hstart]

/-- Pattern after pattern, every matrix is that of its element. -/
theorem locateLanes_eq (omitNoMatch : Bool) {vectorizeLength generalStart : Nat}
    (hstart : patterns.length ≠ 1 → generalStart = 0) (hlimit : generalStart < vectorizeLength)
    (hlength : patterns.length ≤ vectorizeLength) (lanes : List Nat)
    (hlanes : ∀ lane ∈ lanes, lane < patterns.length) {matcher : FixedMatcher}
    (hmatcher : Consistent toUpper matcher) (matrices : Nat → Option (List ByteRange)) :
    locateLanes toUpper options omitNoMatch returnLength subjects patterns vectorizeLength
        generalStart lanes matcher matrices =
      .ok (((lanes.flatMap fun lane => laneIndices patterns.length vectorizeLength vectorizeLength
        (if generalStart > 0 then generalStart else lane)).map fun index =>
          (index, matrixRows returnLength omitNoMatch
            (filledRowsAt toUpper options returnLength subjects patterns index))).foldl store
              matrices) := by
  induction lanes generalizing matcher matrices with
  | nil => rfl
  | cons lane rest ih =>
      have hlane := hlanes lane List.mem_cons_self
      have hfirst : (if generalStart > 0 then generalStart else lane) % patterns.length = lane ∧
          (if generalStart > 0 then generalStart else lane) < vectorizeLength := by
        by_cases hscalar : patterns.length = 1
        · obtain rfl : lane = 0 := by omega
          rw [hscalar, Nat.mod_one]
          exact ⟨rfl, by split <;> omega⟩
        · rw [if_neg (by have := hstart hscalar; omega), Nat.mod_eq_of_lt hlane]
          exact ⟨rfl, by omega⟩
      obtain ⟨hending, hwrites, hkept⟩ := @fillLane_eq toUpper options returnLength _ _ hsubjects
        hpatterns hascii vectorizeLength _ _ hfirst.1 hfirst.2 _ hmatcher
      simp only [locateLanes, hending, hwrites]
      rw [ih (fun other hother => hlanes other (List.mem_cons_of_mem _ hother)) hkept,
        List.flatMap_cons, List.map_append, List.foldl_append, List.map_map]
      rfl

omit hsubjects hpatterns hascii in
/-- The lanes go through every index from `generalStart` on. -/
theorem mem_lanes {vectorizeLength generalStart index : Nat} (hpos : 1 ≤ patterns.length)
    (hstart : patterns.length ≠ 1 → generalStart = 0) (hfrom : generalStart ≤ index)
    (hindex : index < vectorizeLength) :
    index ∈ (List.range patterns.length).flatMap fun lane =>
      laneIndices patterns.length vectorizeLength vectorizeLength
        (if generalStart > 0 then generalStart else lane) := by
  refine List.mem_flatMap.mpr ⟨index % patterns.length,
    List.mem_range.mpr (Nat.mod_lt _ hpos), ?_⟩
  split
  next hafter =>
    have hscalar : patterns.length = 1 := by
      by_contra hmany
      exact absurd (hstart hmany) (Nat.ne_of_gt hafter)
    rw [hscalar]
    exact VectorSearch.mem_laneIndices le_rfl _ (by omega) hfrom hindex
      (by rw [Nat.mod_one, Nat.mod_one])
  next =>
    exact VectorSearch.mem_laneIndices hpos _ (by omega) (Nat.mod_le _ _) hindex
      (Nat.mod_mod _ _).symm

/-- A worker fills the rows of its elements, whatever it searched for before. -/
theorem locateAllSpec {vectorizeLength tasks : Nat} (htasks : patterns.length ≠ 1 →
      tasks = patterns.length ∧ patterns.length ≤ vectorizeLength) :
    TaskSpec (locateAllBody toUpper options returnLength subjects patterns vectorizeLength)
      (fun _ _ matcher => Consistent toUpper matcher) (fun _ => .next)
      (fun task => (locateGroup patterns vectorizeLength 0 task).map fun index =>
        (index, filledRowsAt toUpper options returnLength subjects patterns index)) tasks where
  setup _ _ := ⟨rfl, rfl, rfl, FixedMatcher.consistent_default toUpper⟩
  enterChunk _ _ _ _ hkept := ⟨rfl, rfl, hkept⟩
  task context index done task matcher _ htask _ hkept := by
    simp only [locateAllBody, locateGroup, Nat.not_lt_zero, if_false]
    by_cases hscalar : patterns.length = 1
    · rw [if_pos hscalar, if_pos hscalar]
      obtain ⟨hending, hwrites, hlast⟩ := fillRows_eq (fun index matcher hmatcher =>
        @fillRow_eq toUpper options returnLength _ _ hsubjects hpatterns hascii 0 index matcher
          hmatcher) [task] hkept
      refine ⟨by rw [hending]; rfl, ?_, hlast⟩
      rw [hwrites]
      simp only [List.map_cons, List.map_nil, filledRowsAt, hscalar, Nat.mod_one]
    · rw [if_neg hscalar, if_neg hscalar]
      obtain ⟨rfl, hlength⟩ := htasks hscalar
      obtain ⟨hending, hwrites, hlast⟩ := @fillLane_eq toUpper options returnLength _ _ hsubjects
        hpatterns hascii vectorizeLength task task (Nat.mod_eq_of_lt htask) (by omega) _ hkept
      exact ⟨by rw [hending]; rfl, hwrites, hlast⟩
  leaveChunk _ _ _ _ hkept := ⟨rfl, rfl, hkept⟩

/-- Several workers leave the rows of every element, and the matrices are made of them. -/
theorem locateAllRegion_spec (omitNoMatch : Bool) {plan : ParallelPlan} {schedule : List Nat}
    {regionEnd : RegionEnd FixedMatcher FilledRows NativeError} {vectorizeLength : Nat}
    (hpos : 1 ≤ patterns.length) (hlength : patterns.length ≤ vectorizeLength)
    (hrun : runParallel plan (if patterns.length = 1 then vectorizeLength else patterns.length)
      (locateAllBody toUpper options returnLength subjects patterns vectorizeLength)
      (fun _ => none) schedule = some regionEnd) :
    regionEnd.outcome = .returned ∧ ∀ index < vectorizeLength,
      filledMatrices omitNoMatch returnLength patterns vectorizeLength
          regionEnd.final.shared.result index =
        some (matrixRows returnLength omitNoMatch
          (filledRowsAt toUpper options returnLength subjects patterns index)) := by
  obtain ⟨houtcome, hfilled⟩ := groups_result (locateAllSpec hsubjects hpatterns hascii
    (fun hmany => ⟨if_neg hmany, hlength⟩)) hrun
  refine ⟨houtcome, fun index hindex => ?_⟩
  have hrows : regionEnd.final.shared.result index =
      some (filledRowsAt toUpper options returnLength subjects patterns index) := by
    by_cases hscalar : patterns.length = 1
    · refine hfilled index (by rwa [if_pos hscalar]) index ?_
      rw [locateGroup, if_pos hscalar, if_neg (Nat.not_lt_zero _)]
      exact List.mem_singleton_self _
    · refine hfilled (index % patterns.length)
        (by rw [if_neg hscalar]; exact Nat.mod_lt _ hpos) index ?_
      rw [locateGroup, if_neg hscalar]
      exact VectorSearch.mem_laneIndices hpos _ (by omega) (Nat.mod_le _ _) hindex
        (Nat.mod_mod _ _).symm
  have hmem := @mem_lanes patterns vectorizeLength 0 index hpos (fun _ => rfl) (Nat.zero_le _)
    hindex
  simp only [gt_iff_lt, Nat.lt_irrefl, if_false] at hmem
  unfold filledMatrices
  rw [foldl_store_own fun index => matrixRows returnLength omitNoMatch
    ((regionEnd.final.shared.result index).getD (false, [])), if_pos hmem, hrows]
  rfl

end General

/-! ## The list of matrices -/

section Matrices

variable {toUpper : CodePoint → CodePoint} {converter : NativeToUtf8}
  {options : FixedSearchOptions} {omitNoMatch returnLength : Bool} {settings : Settings}
  {subjects patterns : List StringView}

/-- Where the record and the pattern are put does not matter to the rows. -/
theorem AllLocated.congr {subject pattern subject' pattern' : StringView} {rows : List ByteRange}
    (hsubject : subject.unplaced = subject'.unplaced)
    (hpattern : pattern.unplaced = pattern'.unplaced)
    (hrows : AllLocated toUpper options returnLength omitNoMatch subject pattern rows) :
    AllLocated toUpper options returnLength omitNoMatch subject' pattern' rows := by
  cases hrows with
  | missing hmissing =>
      apply AllLocated.missing
      rwa [← StringView.unplaced_isNa, ← StringView.unplaced_isNa pattern',
        ← StringView.unplaced_len pattern', ← hsubject, ← hpattern, StringView.unplaced_isNa,
        StringView.unplaced_isNa, StringView.unplaced_len]
  | searched hpresent hneedle hne hmatches =>
      exact .searched (present_congr hsubject hpresent) (present_congr hpattern hneedle) hne
        hmatches

/-- How far the direct phase came, and the matrices it left. -/
structure DirectTo (subjects patterns : List StringView) (options : FixedSearchOptions)
    (omitNoMatch returnLength : Bool) (vectorizeLength : Nat) (reached : DirectMatrices) :
    Prop where
  inside : reached.generalStart < vectorizeLength
  idle : reached.direct = true ∨ reached.generalStart ≠ 0 → patterns.length = 1 ∧
    options = ⟨false, false⟩ ∧ ∃ patternByte,
      directFixedPattern (patterns.getD 0 .na) = some patternByte ∧
      MatricesTo subjects patternByte omitNoMatch returnLength
        (if reached.direct then vectorizeLength else reached.generalStart) reached.matrices

/-- The direct search fills the matrices as far as it comes. -/
theorem directMatrices_spec (omitNoMatch returnLength : Bool) {vectorizeLength : Nat}
    (hpos : 0 < vectorizeLength) :
    DirectTo subjects patterns options omitNoMatch returnLength vectorizeLength
      (directMatrices options omitNoMatch returnLength subjects patterns vectorizeLength) := by
  have hnone : ∀ matrices, DirectTo subjects patterns options omitNoMatch returnLength
      vectorizeLength ⟨false, 0, matrices⟩ := by
    refine fun matrices => ⟨hpos, ?_⟩
    rintro (hdirect | hstart)
    · exact absurd hdirect Bool.false_ne_true
    · exact absurd rfl hstart
  unfold directMatrices
  split
  next => exact hnone _
  next hoptions =>
    simp only [not_or, not_not] at hoptions
    cases hbyte : directFixedPattern (patterns.getD 0 .na) with
    | none => exact hnone _
    | some patternByte =>
        obtain ⟨hinside, hmatrices⟩ := @locateAllAsciiScalarDirect_spec subjects patternByte
          omitNoMatch returnLength vectorizeLength 0 vectorizeLength (fun _ => none)
          (Nat.zero_add _) (fun index hindex => absurd hindex (Nat.not_lt_zero index))
        rw [← List.range_eq_range'] at hinside hmatrices
        have hplain : options = ⟨false, false⟩ := by
          obtain ⟨caseInsensitive, overlap⟩ := options
          simpa using And.intro hoptions.1 hoptions.2.1
        dsimp only
        generalize locateAllAsciiScalarDirect patternByte omitNoMatch returnLength subjects
          (List.range vectorizeLength) (fun _ => none) = scan at hinside hmatrices ⊢
        obtain ⟨stop, matrices⟩ := scan
        cases stop with
        | none => exact ⟨hpos, fun _ => ⟨hoptions.2.2, hplain, patternByte, hbyte, hmatrices⟩⟩
        | some stop =>
            exact ⟨hinside stop rfl,
              fun _ => ⟨hoptions.2.2, hplain, patternByte, hbyte, hmatrices⟩⟩

variable {vectorizeLength : Nat} {reached : DirectMatrices}

/-- The matrices of the direct phase are those of the normalized records. -/
theorem DirectTo.located
    (hreached : DirectTo subjects patterns options omitNoMatch returnLength vectorizeLength
      reached)
    (hascii : ∀ view ∈ subjects, view.enc = .ascii → ∀ byte ∈ view.bytes, byte < 0x80)
    (hlength : patterns.length = 1 → vectorizeLength = subjects.length) {index : Nat}
    (hindex : index < (if reached.direct then vectorizeLength else reached.generalStart))
    (hinside : index < vectorizeLength) {subject pattern : StringView}
    (hsubject : Normalizes converter (subjects.getD (index % subjects.length) .na) subject)
    (hpattern : Normalizes converter (patterns.getD (index % patterns.length) .na) pattern) :
    ∃ rows, reached.matrices index = some rows ∧
      AllLocated toUpper options returnLength omitNoMatch subject pattern rows := by
  obtain ⟨hscalar, rfl, patternByte, hbyte, hmatrices⟩ := hreached.idle (by
    by_cases hdirect : reached.direct = true
    · exact .inl hdirect
    · rw [if_neg hdirect] at hindex
      exact .inr (Nat.ne_of_gt (Nat.zero_lt_of_lt hindex)))
  obtain ⟨rows, hrows, hdirect⟩ := hmatrices index hindex
  rw [hscalar, Nat.mod_one] at hpattern
  rw [Nat.mod_eq_of_lt (by rwa [← hlength hscalar])] at hsubject
  obtain ⟨hlow, hpresent⟩ := present_of_directFixedPattern hbyte hpattern
  exact ⟨rows, hrows, allLocated_of_direct hlow hpresent hsubject (ascii_getD hascii index)
    toUpper hdirect⟩

/-- A pattern of one byte is not empty. -/
theorem countEmptyPatterns_of_direct {normalized : List StringView} {patternByte : UInt8}
    (hscalar : patterns.length = 1)
    (hbyte : directFixedPattern (patterns.getD 0 .na) = some patternByte)
    (hnormalized : normalizeViews converter ⟨0⟩ patterns = .ok normalized) :
    countEmptyPatterns normalized = 0 := by
  obtain ⟨hcount, -⟩ := normalizeViews_spec hnormalized
  obtain ⟨only, rfl⟩ := List.length_eq_one_iff.mp (hcount.trans hscalar)
  obtain ⟨-, hpresent⟩ := present_of_directFixedPattern hbyte
    (normalizes_getD hnormalized (by rw [hscalar]; exact Nat.one_pos))
  have honly : FixedMatcher.Present only [patternByte] := hpresent
  simp [countEmptyPatterns, honly.len_eq]

end Matrices

/-! ## The entry point -/

section Entry

variable {toUpper : CodePoint → CodePoint} {converter : NativeToUtf8} {settings : Settings}
  {options : FixedSearchOptions} {omitNoMatch returnLength : Bool}
  {subjects patterns : List StringView}

/-- A fair schedule lets the call end. -/
theorem ciLocateAllFixed_isSome {schedule : List Nat}
    (hfair : FairFor settings (locateTasks subjects patterns) schedule) :
    (ciLocateAllFixed toUpper options omitNoMatch returnLength converter settings subjects patterns
      schedule).isSome = true := by
  unfold ciLocateAllFixed
  unfold locateTasks at hfair
  generalize recyclingLength subjects.length patterns.length = recycled at *
  obtain ⟨vectorizeLength, warning⟩ := recycled
  dsimp only at hfair ⊢
  generalize (if patterns.length = 1 then vectorizeLength else patterns.length) = tasks at *
  generalize (if (parallelPlan settings true tasks).workers = 1 then
    directMatrices options omitNoMatch returnLength subjects patterns vectorizeLength
    else ⟨false, 0, fun _ => none⟩) = reached
  split
  swap
  next => rfl
  next =>
    split
    next => rfl
    next =>
      split
      next => rfl
      next => rfl
      next normalized normalizedPatterns _ _ =>
        split
        next => split <;> rfl
        next =>
          obtain ⟨regionEnd, hrun⟩ := @exists_runParallel_of_fair _ _ _ _ _
            (locateAllBody toUpper options returnLength normalized normalizedPatterns
              vectorizeLength) _ hfair (fun _ => none)
          rw [hrun]
          simp only [Option.bind_eq_bind, Option.bind_some]
          split <;> rfl

/-- What is known of a list of matrices that the operation returned. -/
structure IsLocated (toUpper : CodePoint → CodePoint) (converter : NativeToUtf8)
    (options : FixedSearchOptions) (omitNoMatch returnLength : Bool)
    (subjects patterns : List StringView) (found : MatrixList) : Prop where
  length_eq : found.length = (recyclingLength subjects.length patterns.length).1
  recyclingWarning_eq :
    found.recyclingWarning = (recyclingLength subjects.length patterns.length).2
  emptyPatternWarnings_eq : 0 < found.length → ∀ normalized,
    normalizeViews converter ⟨0⟩ patterns = .ok normalized →
      found.emptyPatternWarnings = countEmptyPatterns normalized
  rows : ∀ index < found.length, ∀ subject pattern,
    Normalizes converter (subjects.getD (index % subjects.length) .na) subject →
    Normalizes converter (patterns.getD (index % patterns.length) .na) pattern →
    ∃ rows, found.matrices index = some rows ∧
      AllLocated toUpper options returnLength omitNoMatch subject pattern rows

/-- Every matrix is one of the direct prefix, or has the rows the general path fills. -/
def Continues (toUpper : CodePoint → CodePoint) (options : FixedSearchOptions)
    (omitNoMatch returnLength : Bool) (normalized normalizedPatterns : List StringView)
    (vectorizeLength : Nat) (reached : DirectMatrices)
    (matrices : Nat → Option (List ByteRange)) : Prop :=
  ∀ index < vectorizeLength,
    (index < reached.generalStart ∧ matrices index = reached.matrices index) ∨
      matrices index = some (matrixRows returnLength omitNoMatch
        (filledRowsAt toUpper options returnLength normalized normalizedPatterns index))

section Paths

variable {vectorizeLength : Nat} {warning : Bool} {reached : DirectMatrices}
  {normalized normalizedPatterns : List StringView} {plan : ParallelPlan}

/-- Nothing is located in empty vectors. -/
theorem isLocated_of_zero (hzero : ¬ 0 < vectorizeLength)
    (hrecycled : recyclingLength subjects.length patterns.length = (vectorizeLength, warning))
    (emptyPatternWarnings : Nat) (matrices : Nat → Option (List ByteRange)) :
    IsLocated toUpper converter options omitNoMatch returnLength subjects patterns
      ⟨vectorizeLength, matrices, warning, emptyPatternWarnings⟩ where
  length_eq := by rw [hrecycled]
  recyclingWarning_eq := by rw [hrecycled]
  emptyPatternWarnings_eq := fun hpos => absurd hpos hzero
  rows := fun index hindex => absurd (Nat.zero_lt_of_lt hindex) hzero

/-- Only one worker starts with the direct phase. -/
theorem directTo_of_plan (hpos : 0 < vectorizeLength) :
    DirectTo subjects patterns options omitNoMatch returnLength vectorizeLength
      (if plan.workers = 1 then
        directMatrices options omitNoMatch returnLength subjects patterns vectorizeLength
      else ⟨false, 0, fun _ => none⟩) := by
  split
  next => exact directMatrices_spec omitNoMatch returnLength hpos
  next => exact ⟨hpos, fun hmoved => absurd hmoved (by simp)⟩

section Direct

variable
  (hrecycled : recyclingLength subjects.length patterns.length = (vectorizeLength, warning))
  (hreached : DirectTo subjects patterns options omitNoMatch returnLength vectorizeLength reached)
  (hascii : ∀ view ∈ subjects, view.enc = .ascii → ∀ byte ∈ view.bytes, byte < 0x80)
  (hscalar : patterns.length = 1 → vectorizeLength = subjects.length)
include hrecycled hreached hascii hscalar

/-- Where the direct phase did all there is to do, no pattern was empty. -/
theorem isLocated_of_direct (hdone : reached.direct = true) :
    IsLocated toUpper converter options omitNoMatch returnLength subjects patterns
      ⟨vectorizeLength, reached.matrices, warning, 0⟩ := by
  obtain ⟨hsingle, -, patternByte, hbyte, -⟩ := hreached.idle (.inl hdone)
  exact {
    length_eq := by rw [hrecycled]
    recyclingWarning_eq := by rw [hrecycled]
    emptyPatternWarnings_eq := fun _ normalized hnormalized =>
      (countEmptyPatterns_of_direct hsingle hbyte hnormalized).symm
    rows := fun index hindex subject pattern hsubject hpattern =>
      hreached.located hascii hscalar (by rwa [if_pos hdone]) hindex hsubject hpattern }

variable (hnormalized : normalizeViews converter ⟨0⟩ subjects = .ok normalized)
  (hnormalizedPatterns : normalizeViews converter ⟨0⟩ patterns = .ok normalizedPatterns)
include hnormalized hnormalizedPatterns

omit hrecycled hreached hscalar in
/-- The rows of the general path are those of the records. -/
theorem allLocated_filledRowsAt (hsource : 0 < subjects.length) (hone : 0 < patterns.length)
    (index : Nat) {subject pattern : StringView}
    (hsubject : Normalizes converter (subjects.getD (index % subjects.length) .na) subject)
    (hpattern : Normalizes converter (patterns.getD (index % patterns.length) .na) pattern) :
    AllLocated toUpper options returnLength omitNoMatch subject pattern
      (matrixRows returnLength omitNoMatch
        (filledRowsAt toUpper options returnLength normalized normalizedPatterns index)) := by
  obtain ⟨hcount, hnormal⟩ := normalizeViews_spec hnormalized
  obtain ⟨hcountPatterns, hnormalPatterns⟩ := normalizeViews_spec hnormalizedPatterns
  have hmarks := ascii_of_normalizeViews hnormalized hascii
  have hview := normalizes_getD hnormalized (Nat.mod_lt index hsource)
  have hviewPattern := normalizes_getD hnormalizedPatterns (Nat.mod_lt index hone)
  rw [filledRowsAt, hcount, hcountPatterns]
  exact AllLocated.congr (hview.unplaced_eq hsubject) (hviewPattern.unplaced_eq hpattern)
    (fillAllMatches_eq omitNoMatch (normalized_getD hnormal _)
      (normalized_getD hnormalPatterns _) (ascii_getD hmarks _)).1

/-- Where the direct search did not come in, the general one locates everything. -/
theorem Continues.isLocated (hgoes : ¬ reached.direct = true) (hsource : 0 < subjects.length)
    (hone : 0 < patterns.length) {matrices : Nat → Option (List ByteRange)}
    (hmatrices : Continues toUpper options omitNoMatch returnLength normalized normalizedPatterns
      vectorizeLength reached matrices) :
    IsLocated toUpper converter options omitNoMatch returnLength subjects patterns
      ⟨vectorizeLength, matrices, warning, countEmptyPatterns normalizedPatterns⟩ := by
  refine ⟨by rw [hrecycled], by rw [hrecycled], ?_, ?_⟩
  · intro _ views hviews
    rw [Except.ok.inj (hnormalizedPatterns.symm.trans hviews)]
  · intro index hindex subject pattern hsubject hpattern
    dsimp only at hindex ⊢
    rcases hmatrices index hindex with ⟨hbelow, hkept⟩ | hfilled
    · rw [hkept]
      exact hreached.located hascii hscalar (by rwa [if_neg hgoes]) hindex hsubject hpattern
    · exact ⟨_, hfilled, allLocated_filledRowsAt hascii hnormalized hnormalizedPatterns hsource hone
        index hsubject hpattern⟩

end Direct

/-- One worker goes on behind the direct prefix. -/
theorem locateSerially_continues (hnormal : ∀ view ∈ normalized, Normalized view)
    (hnormalPatterns : ∀ view ∈ normalizedPatterns, Normalized view)
    (hmarks : ∀ view ∈ normalized, view.enc = .ascii → ∀ byte ∈ view.bytes, byte < 0x80)
    (hone : 1 ≤ normalizedPatterns.length) (hlength : normalizedPatterns.length ≤ vectorizeLength)
    (hstart : normalizedPatterns.length ≠ 1 → reached.generalStart = 0)
    (hinside : reached.generalStart < vectorizeLength) :
    ∃ matrices, locateSerially toUpper options omitNoMatch returnLength normalized
        normalizedPatterns vectorizeLength reached = .ok matrices ∧
      Continues toUpper options omitNoMatch returnLength normalized normalizedPatterns
        vectorizeLength reached matrices := by
  have hlanes := @locateLanes_eq toUpper options returnLength _ _ hnormal hnormalPatterns
    hmarks omitNoMatch _ _ hstart hinside hlength (List.range normalizedPatterns.length)
    (fun lane hlane => List.mem_range.mp hlane) _ (FixedMatcher.consistent_default toUpper)
    reached.matrices
  rw [locateSerially, if_neg (fun h => Nat.ne_of_gt h.1 (hstart h.2)), hlanes]
  refine ⟨_, rfl, ?_⟩
  intro index hindex
  rw [foldl_store_own fun index => matrixRows returnLength omitNoMatch
    (filledRowsAt toUpper options returnLength normalized normalizedPatterns index)]
  by_cases hmem : index ∈ (List.range normalizedPatterns.length).flatMap fun lane =>
      laneIndices normalizedPatterns.length vectorizeLength vectorizeLength
        (if reached.generalStart > 0 then reached.generalStart else lane)
  · rw [if_pos hmem]
    exact .inr rfl
  · rw [if_neg hmem]
    exact .inl ⟨Nat.not_le.mp fun hfrom => hmem (mem_lanes hone hstart hfrom hindex), rfl⟩

end Paths

/-- A call returns the matrices of its matches, or an error of the conversion. -/
theorem ciLocateAllFixed_matrices {schedule : List Nat}
    (hascii : ∀ view ∈ subjects, view.enc = .ascii → ∀ byte ∈ view.bytes, byte < 0x80)
    {result : Except String MatrixList}
    (hresult : ciLocateAllFixed toUpper options omitNoMatch returnLength converter settings
      subjects patterns schedule = some result) :
    (∀ message, result = .error message → ∃ error : NativeError, error.text = message ∧
      (normalizeViews converter ⟨0⟩ subjects = .error error ∨
        normalizeViews converter ⟨0⟩ patterns = .error error)) ∧
    ∀ found, result = .ok found →
      IsLocated toUpper converter options omitNoMatch returnLength subjects patterns found := by
  unfold ciLocateAllFixed at hresult
  generalize hrecycled : recyclingLength subjects.length patterns.length = recycled at *
  obtain ⟨vectorizeLength, warning⟩ := recycled
  dsimp only at hresult
  split at hresult
  swap
  next hzero =>
    obtain rfl := Option.some.inj hresult
    exact outcome_ok (isLocated_of_zero hzero hrecycled _ _)
  next hpos =>
  obtain ⟨-, hone, hpatterns, hscalar⟩ := VectorSearch.recyclingLength_spec hrecycled hpos
  have hsource : 0 < subjects.length :=
    recyclingLength_pos_first (by rw [hrecycled]; exact hpos)
  generalize hplan : parallelPlan settings true
    (if patterns.length = 1 then vectorizeLength else patterns.length) = plan at hresult
  have hreached := @directTo_of_plan options omitNoMatch returnLength subjects patterns _ plan hpos
  -- only one worker tries the direct path
  generalize (if plan.workers = 1 then
      directMatrices options omitNoMatch returnLength subjects patterns vectorizeLength
    else ⟨false, 0, fun _ => none⟩) = reached at hresult hreached
  split at hresult
  next hdone =>
    obtain rfl := Option.some.inj hresult
    exact outcome_ok (isLocated_of_direct hrecycled hreached hascii hscalar hdone)
  next hgoes =>
    split at hresult
    next error hfailed =>
      obtain rfl := Option.some.inj hresult
      exact outcome_error ⟨error, rfl, .inl hfailed⟩
    next error _ hfailed =>
      obtain rfl := Option.some.inj hresult
      exact outcome_error ⟨error, rfl, .inr hfailed⟩
    next normalized normalizedPatterns hnormalized hnormalizedPatterns =>
      obtain ⟨-, hnormal⟩ := normalizeViews_spec hnormalized
      obtain ⟨hcountPatterns, hnormalPatterns⟩ := normalizeViews_spec hnormalizedPatterns
      have hmarks := ascii_of_normalizeViews hnormalized hascii
      -- both ways on keep the direct matrices and fill in the others
      have hlocated := fun matrices => @Continues.isLocated toUpper converter options omitNoMatch
        returnLength subjects patterns _ _ _ _ _ hrecycled hreached hascii hscalar hnormalized
        hnormalizedPatterns hgoes hsource hone matrices
      split at hresult
      next =>
        obtain ⟨matrices, hserial, hmatrices⟩ := @locateSerially_continues toUpper options
          omitNoMatch returnLength vectorizeLength reached _ _ hnormal hnormalPatterns hmarks
          (by rwa [hcountPatterns]) (by rwa [hcountPatterns]) (fun hmany => by
            by_contra hmoved
            exact hmany (hcountPatterns.trans (hreached.idle (.inr hmoved)).1)) hreached.inside
        rw [hserial] at hresult
        obtain rfl := Option.some.inj hresult
        exact outcome_ok (hlocated _ hmatrices)
      next =>
        obtain ⟨regionEnd, hrun, hresult⟩ := Option.bind_eq_some_iff.mp hresult
        rw [← hcountPatterns] at hrun
        obtain ⟨hreturned, hmatrices⟩ := locateAllRegion_spec hnormal hnormalPatterns hmarks
          omitNoMatch (by rwa [hcountPatterns]) (by rwa [hcountPatterns]) hrun
        rw [hreturned] at hresult
        obtain rfl := Option.some.inj hresult
        exact outcome_ok (hlocated _ fun index hindex => .inr (hmatrices index hindex))

/-- Neither the number of workers nor the schedule nor the path show in the matrices: each has
the rows of all matches of its pattern in its record, both normalized. There are none only if
some record cannot be normalized. -/
theorem ciLocateAllFixed_located (schedule : List Nat)
    (hascii : ∀ view ∈ subjects, view.enc = .ascii → ∀ byte ∈ view.bytes, byte < 0x80) :
    (FairFor settings (locateTasks subjects patterns) schedule →
      (ciLocateAllFixed toUpper options omitNoMatch returnLength converter settings subjects
        patterns schedule).isSome = true) ∧
    ∀ result, ciLocateAllFixed toUpper options omitNoMatch returnLength converter settings
        subjects patterns schedule = some result →
      (∀ message, result = .error message → ∃ error : NativeError, error.text = message ∧
        (normalizeViews converter ⟨0⟩ subjects = .error error ∨
          normalizeViews converter ⟨0⟩ patterns = .error error)) ∧
      ∀ found, result = .ok found →
        IsLocated toUpper converter options omitNoMatch returnLength subjects patterns found :=
  ⟨ciLocateAllFixed_isSome, fun _ hresult => ciLocateAllFixed_matrices hascii hresult⟩

/-- Three records, the second in Latin-1, on one worker and on three. -/
theorem ciLocateAllFixed_three_records :
    let subjects : List StringView := [⟨.bytes ⟨100, [97, 97], by decide⟩, .ascii⟩,
      ⟨.bytes ⟨200, [97, 0xe9, 97], by decide⟩, .latin1⟩, ⟨.bytes ⟨300, [98], by decide⟩, .utf8⟩]
    let patterns : List StringView := [⟨.bytes ⟨500, [97], by decide⟩, .ascii⟩]
    ∀ threads ∈ [1, 3], ∃ found rows,
      ciLocateAllFixed id ⟨false, false⟩ true false sampleConverter ⟨threads, 128, 1⟩ subjects
        patterns ((List.range 90).map (· % 3)) = some (.ok found) ∧
      found.matrices 1 = some rows ∧
      AllLocated id ⟨false, false⟩ false true
        ⟨.bytes ⟨0, [97, 0xc3, 0xa9, 97], by decide⟩, .utf8⟩ (patterns.getD 0 .na) rows := by
  intro subjects patterns threads hthreads
  have hascii : ∀ view ∈ subjects, view.enc = .ascii →
      view.bytes.all (fun byte => decide (byte < 0x80)) = true := by decide
  have hturns : ∀ threads ∈ [1, 3], FairFor ⟨threads, 128, 1⟩ (locateTasks subjects patterns)
      ((List.range 90).map (· % 3)) := by decide
  obtain ⟨hfair, hmatrices⟩ := @ciLocateAllFixed_located id sampleConverter ⟨threads, 128, 1⟩
    ⟨false, false⟩ true false subjects patterns ((List.range 90).map (· % 3))
    fun view hview hmark byte hbyte =>
      of_decide_eq_true (List.all_eq_true.mp (hascii view hview hmark) byte hbyte)
  obtain ⟨result, hresult⟩ := Option.isSome_iff_exists.mp (hfair (hturns threads hthreads))
  obtain ⟨herror, hfound⟩ := hmatrices result hresult
  cases result with
  | error message =>
      have hsubjects : (normalizeViews sampleConverter ⟨0⟩ subjects).isOk = true := by decide
      have hpatterns : (normalizeViews sampleConverter ⟨0⟩ patterns).isOk = true := by decide
      obtain ⟨error, -, hfailed | hfailed⟩ := herror message rfl
      · rw [hfailed] at hsubjects
        exact absurd hsubjects Bool.false_ne_true
      · rw [hfailed] at hpatterns
        exact absurd hpatterns Bool.false_ne_true
  | ok found =>
      have hlocated := hfound found rfl
      have hlength : found.length = 3 := hlocated.length_eq
      obtain ⟨rows, hrows, hall⟩ := hlocated.rows 1 (by omega)
        ⟨.bytes ⟨0, [97, 0xc3, 0xa9, 97], by decide⟩, .utf8⟩ (patterns.getD 0 .na)
        ⟨⟨0⟩, ⟨4⟩, by decide⟩ ⟨⟨0⟩, ⟨0⟩, by decide⟩
      exact ⟨found, rows, hresult, hrows, hall⟩

end Entry

end Charr.FixedSearch
