import Charr.FixedSearch.Extract

/-!
# Merged extraction plans

A row's match index is moved twice, from its chunk into the worker's plan and
from there into the output, while the row itself goes to the place of its task.
What carries through is what a row denotes: the matches of its own task, found at
its index in the plan it is part of.
-/

namespace Charr.FixedSearch

open Parallel FixedMatcher
open Utf8 (CodePoint)

section Rows

variable (toUpper : CodePoint → CodePoint) (subjects patterns : List StringView)
  (options : FixedSearchOptions) (omitNoMatch : Bool)

/-! ## The matches of a task -/

/-- What a new matcher finds for a subject and a pattern. -/
def rowOf (subject pattern : StringView) : RowMatches :=
  match searchRow toUpper options omitNoMatch subject pattern {} with
  | .ok (row, _) => row
  | .error _ => ⟨0, false, []⟩

/-- The row of a task, on a matcher of its own. -/
def rowAt (index : Nat) : RowMatches :=
  rowOf toUpper options omitNoMatch (subjects.getD (index % subjects.length) .na)
    (patterns.getD (index % patterns.length) .na)

/-- The matches are listed where they may differ from the pattern. -/
structure WellCounted (options : FixedSearchOptions) (row : RowMatches) : Prop where
  count_nonneg : 0 ≤ row.count
  listed : options.caseInsensitive = true → row.count = row.found.length
  unlisted : options.caseInsensitive = false → row.found = []
  length_le : row.found.length ≤ intMax

variable {toUpper subjects patterns options omitNoMatch}

variable (options omitNoMatch) in
/-- The search for a row does not depend on what the matcher was used for. -/
theorem searchRow_eq {subject pattern : StringView} {matcher : FixedMatcher}
    (hsubject : Normalized subject) (hpattern : Normalized pattern)
    (hmatcher : Consistent toUpper matcher) :
    ∃ matcher', searchRow toUpper options omitNoMatch subject pattern matcher =
        .ok (rowOf toUpper options omitNoMatch subject pattern, matcher') ∧
      Consistent toUpper matcher' ∧
      WellCounted options (rowOf toUpper options omitNoMatch subject pattern) := by
  have hnone : ∀ missing, WellCounted options ⟨0, missing, []⟩ := fun missing =>
    ⟨le_rfl, fun _ => rfl, fun _ => rfl, Nat.zero_le _⟩
  unfold rowOf searchRow
  split
  next => exact ⟨matcher, rfl, hmatcher, hnone true⟩
  next hpresent =>
    split
    next => exact ⟨matcher, rfl, hmatcher, hnone (!omitNoMatch)⟩
    next hlen =>
      obtain ⟨subjectBytes, patternBytes, ranges, hsubject, hpattern, hne, hmatches⟩ :=
        searched_of_normalized toUpper options hsubject hpattern hpresent hlen
      have hbound : ranges.length ≤ intMax := hmatches.2.trans hsubject.length_le
      split
      next hsensitive =>
        have hfalse : options.caseInsensitive = false := by simpa using hsensitive
        have hcounted : ∀ (count : Nat) missing, WellCounted options ⟨count, missing, []⟩ :=
          fun count missing => ⟨Int.natCast_nonneg count,
            fun htrue => absurd (htrue.symm.trans hfalse) (by simp), fun _ => rfl, Nat.zero_le _⟩
        split
        next =>
          obtain ⟨matcher', hcount, hkept⟩ := count_eq hmatcher hsubject hpattern hne hmatches
          obtain ⟨fresh, hfresh, -⟩ :=
            count_eq (consistent_default toUpper) hsubject hpattern hne hmatches
          rw [hcount, hfresh]
          exact ⟨matcher', rfl, hkept, hcounted _ _⟩
        next => exact ⟨matcher, rfl, hmatcher, hcounted _ _⟩
      next hinsensitive =>
        have htrue : options.caseInsensitive = true := by simpa using hinsensitive
        obtain ⟨matcher', hfind, hkept⟩ := findAll_eq hmatcher hsubject hpattern hne hmatches
        obtain ⟨fresh, hfresh, -⟩ :=
          findAll_eq (consistent_default toUpper) hsubject hpattern hne hmatches
        rw [hfind, hfresh]
        have hsmall : ¬ ((ranges.map toRange).map (matchView subject)).length > intMax := by
          simpa using hbound
        simp only [bind, Except.bind, hsmall, if_false]
        refine ⟨matcher', rfl, hkept, Int.natCast_nonneg _, fun _ => rfl, ?_, Nat.not_lt.mp hsmall⟩
        intro hfalse
        exact absurd (htrue.symm.trans hfalse) (by simp)

end Rows

/-! ## What a row denotes -/

section Denotes

/-- The columns a row needs. -/
def RowMatches.width (row : RowMatches) : Int :=
  if row.forcedNa then 1 else row.count

variable (expected : Nat → RowMatches) (patternCount : Nat) (matchesArePatterns : Bool)

/-- The widest of the rows. -/
def maxWidth (tasks : List Nat) : Int :=
  (tasks.map fun task => (expected task).width).foldl max 0

/-- A row of a plan with the matches `matched` stands for what is expected of its
task. -/
structure Denotes (matched : List StringView) (task : Nat) (row : FixedExtractRow) : Prop where
  count_eq : row.count = (expected task).count
  forcedNa_eq : row.forcedNa = (expected task).forcedNa
  pattern_eq : matchesArePatterns = true → row.begin = task % patternCount
  matches_eq : matchesArePatterns = false →
    ∃ before after, matched = before ++ (expected task).found ++ after ∧
      row.begin = before.length

/-- A plan whose rows are those of some tasks. -/
structure Planned (tasks : List Nat) (plan : FixedExtractPlan) : Prop where
  rows : List.Forall₂ (Denotes expected patternCount matchesArePatterns plan.matched) tasks
    plan.rows
  maxColumns_eq : plan.maxColumns = maxWidth expected tasks
  matched_le : plan.matched.length ≤ tasks.length * intMax

variable {expected patternCount matchesArePatterns} {matched more : List StringView}
  {task : Nat} {row : FixedExtractRow}

variable (expected) in
theorem maxWidth_nonneg (tasks : List Nat) : 0 ≤ maxWidth expected tasks := by
  unfold maxWidth
  have hfold : (tasks.map fun task => (expected task).width).foldl max (max 0 0) = _ :=
    List.foldl_assoc
  rw [max_self] at hfold
  exact hfold ▸ le_max_left _ _

/-- The widest of two lists of rows. -/
theorem maxWidth_append (first second : List Nat) :
    maxWidth expected (first ++ second) =
      max (maxWidth expected first) (maxWidth expected second) := by
  have hfirst := max_eq_left (maxWidth_nonneg expected first)
  unfold maxWidth at hfirst ⊢
  rw [List.map_append, List.foldl_append, ← hfirst, List.foldl_assoc, hfirst]

theorem maxWidth_concat (tasks : List Nat) (task : Nat) :
    maxWidth expected (tasks ++ [task]) = max (maxWidth expected tasks) (expected task).width := by
  simp [maxWidth]

theorem ite_gt_eq_max (width columns : Int) :
    (if width > columns then width else columns) = max width columns := by
  rw [max_def]
  split_ifs <;> omega

/-- The widest row does not depend on the order. -/
theorem maxWidth_perm {first second : List Nat} (hperm : first.Perm second) :
    maxWidth expected first = maxWidth expected second := by
  unfold maxWidth
  exact (hperm.map _).foldl_eq 0

/-- A row still means the same once more matches are added behind. -/
theorem Denotes.append
    (hdenotes : Denotes expected patternCount matchesArePatterns matched task row) :
    Denotes expected patternCount matchesArePatterns (matched ++ more) task row where
  count_eq := hdenotes.count_eq
  forcedNa_eq := hdenotes.forcedNa_eq
  pattern_eq := hdenotes.pattern_eq
  matches_eq hlisted := by
    obtain ⟨before, after, rfl, hbegin⟩ := hdenotes.matches_eq hlisted
    exact ⟨before, after ++ more, by simp, hbegin⟩

/-- A row moves with the matches it points at. -/
theorem Denotes.shift (hlisted : matchesArePatterns = false)
    (hdenotes : Denotes expected patternCount matchesArePatterns matched task row)
    (earlier : List StringView) :
    Denotes expected patternCount matchesArePatterns (earlier ++ matched) task
      { row with begin := row.begin + earlier.length } where
  count_eq := hdenotes.count_eq
  forcedNa_eq := hdenotes.forcedNa_eq
  pattern_eq hpatterns := absurd (hpatterns.symm.trans hlisted) (by simp)
  matches_eq _ := by
    obtain ⟨before, after, rfl, hbegin⟩ := hdenotes.matches_eq hlisted
    refine ⟨earlier ++ before, after, by simp, ?_⟩
    simp [hbegin, Nat.add_comm]

/-- A row that points at a pattern stands for it in every plan. -/
theorem Denotes.of_patterns (hpatterns : matchesArePatterns = true)
    (hdenotes : Denotes expected patternCount matchesArePatterns matched task row) :
    Denotes expected patternCount matchesArePatterns more task row where
  count_eq := hdenotes.count_eq
  forcedNa_eq := hdenotes.forcedNa_eq
  pattern_eq := hdenotes.pattern_eq
  matches_eq hlisted := absurd (hpatterns.symm.trans hlisted) (by simp)

/-! ## Chunks and workers -/

/-- What is added to a plan of few rows stays below the limit of the index type. -/
theorem matched_bound {first second : Nat} {left right : List StringView}
    (hleft : left.length ≤ first * intMax) (hright : right.length ≤ second * intMax)
    (hbound : first + second ≤ intMax) :
    left.length + right.length ≤ (first + second) * intMax ∧
      left.length + right.length ≤ sizeMax := by
  have hsum : left.length + right.length ≤ (first + second) * intMax := by
    rw [Nat.add_mul]
    exact Nat.add_le_add hleft hright
  have hmul : (first + second) * intMax ≤ intMax * intMax := Nat.mul_le_mul_right _ hbound
  have hmax : intMax * intMax ≤ sizeMax := by decide
  exact ⟨hsum, hsum.trans (hmul.trans hmax)⟩

/-- Appending a chunk's plan appends its tasks. -/
theorem appendChunk_eq {tasks others : List Nat} {plan chunk : FixedExtractPlan}
    (hplan : Planned expected patternCount matchesArePatterns tasks plan)
    (hchunk : Planned expected patternCount matchesArePatterns others chunk)
    (hmode : chunk.matchesArePatterns = matchesArePatterns)
    (hbound : (tasks ++ others).length ≤ intMax) :
    ∃ plan', appendChunk chunk plan = .ok plan' ∧
      Planned expected patternCount matchesArePatterns (tasks ++ others) plan' ∧
      plan'.matchesArePatterns = matchesArePatterns := by
  rw [List.length_append] at hbound
  obtain ⟨hlength, hsize⟩ := matched_bound hplan.matched_le hchunk.matched_le hbound
  have hcolumns : (if plan.maxColumns < chunk.maxColumns then chunk.maxColumns
      else plan.maxColumns) = maxWidth expected (tasks ++ others) := by
    rw [maxWidth_append, ← hplan.maxColumns_eq, ← hchunk.maxColumns_eq, max_comm]
    exact ite_gt_eq_max chunk.maxColumns plan.maxColumns
  unfold appendChunk
  rw [hmode]
  cases matchesArePatterns with
  | false =>
      rw [if_neg (by simp only [not_and]; omega)]
      refine ⟨_, rfl, ⟨?_, hcolumns, ?_⟩, rfl⟩
      · simp only [Bool.not_false, if_true]
        apply List.rel_append
        · exact hplan.rows.imp fun _ _ hrow => hrow.append
        · rw [List.forall₂_map_right_iff]
          exact hchunk.rows.imp fun _ _ hrow => hrow.shift rfl plan.matched
      · simp only [Bool.not_false, if_true, List.length_append]
        exact hlength
  | true =>
      rw [if_neg (by simp)]
      refine ⟨_, rfl, ⟨?_, hcolumns, ?_⟩, rfl⟩
      · simp only [Bool.not_true, Bool.false_eq_true, if_false, List.map_id']
        apply List.rel_append hplan.rows
        exact hchunk.rows.imp fun _ _ hrow => hrow.of_patterns rfl
      · simp only [Bool.not_true, Bool.false_eq_true, if_false, List.length_append]
        exact (Nat.le_add_right _ _).trans hlength

end Denotes

/-! ## Planning -/

section Planning

variable {toUpper : CodePoint → CodePoint} {subjects patterns : List StringView}
  {options : FixedSearchOptions} {omitNoMatch : Bool}
  (hsubjects : ∀ view ∈ subjects, Normalized view)
  (hpatterns : ∀ view ∈ patterns, Normalized view)
include hsubjects hpatterns

/-- Planning a row adds it to the rows planned before. -/
theorem planRow_eq {tasks : List Nat} {plan : FixedExtractPlan} {matcher : FixedMatcher}
    (hplan : Planned (rowAt toUpper subjects patterns options omitNoMatch) patterns.length
      (!options.caseInsensitive) tasks plan)
    (hmode : plan.matchesArePatterns = !options.caseInsensitive)
    (hmatcher : Consistent toUpper matcher) (index : Nat) :
    ∃ plan' matcher',
      planRow toUpper subjects patterns options omitNoMatch index plan matcher =
        .ok (plan', matcher') ∧
      Planned (rowAt toUpper subjects patterns options omitNoMatch) patterns.length
        (!options.caseInsensitive) (tasks ++ [index]) plan' ∧
      plan'.matchesArePatterns = !options.caseInsensitive ∧ Consistent toUpper matcher' := by
  obtain ⟨matcher', hsearch, hkept, hcounted⟩ := searchRow_eq options omitNoMatch
    (normalized_getD hsubjects (index % subjects.length))
    (normalized_getD hpatterns (index % patterns.length)) hmatcher
  simp only [planRow, hsearch, bind, Except.bind]
  refine ⟨_, matcher', rfl, ⟨?_, ?_, ?_⟩, hmode, hkept⟩
  · apply List.rel_append
    · exact hplan.rows.imp fun _ _ hrow => hrow.append
    · refine .cons ⟨rfl, rfl, ?_, ?_⟩ .nil
      · intro hpatterns
        rw [hmode, hpatterns, if_pos rfl]
      · intro hlisted
        refine ⟨plan.matched, [], by rw [List.append_nil]; rfl, ?_⟩
        rw [hmode, hlisted]
        rfl
  · rw [maxWidth_concat, ← hplan.maxColumns_eq, max_comm]
    exact ite_gt_eq_max (rowAt toUpper subjects patterns options omitNoMatch index).width _
  · simp only [List.length_append, List.length_singleton, Nat.add_mul, Nat.one_mul]
    exact Nat.add_le_add hplan.matched_le hcounted.length_le

/-- Planning rows adds each of them. -/
theorem planRows_eq (indices : List Nat) {tasks : List Nat} {plan : FixedExtractPlan}
    {matcher : FixedMatcher}
    (hplan : Planned (rowAt toUpper subjects patterns options omitNoMatch) patterns.length
      (!options.caseInsensitive) tasks plan)
    (hmode : plan.matchesArePatterns = !options.caseInsensitive)
    (hmatcher : Consistent toUpper matcher) :
    ∃ plan' matcher',
      planRows toUpper subjects patterns options omitNoMatch indices plan matcher =
        .ok (plan', matcher') ∧
      Planned (rowAt toUpper subjects patterns options omitNoMatch) patterns.length
        (!options.caseInsensitive) (tasks ++ indices) plan' ∧
      plan'.matchesArePatterns = !options.caseInsensitive ∧ Consistent toUpper matcher' := by
  induction indices generalizing tasks plan matcher with
  | nil => exact ⟨plan, matcher, rfl, by rw [List.append_nil]; exact hplan, hmode, hmatcher⟩
  | cons index rest ih =>
      obtain ⟨plan', matcher', hrow, hplan', hmode', hkept⟩ :=
        planRow_eq hsubjects hpatterns hplan hmode hmatcher index
      obtain ⟨last, lastMatcher, hrows, hlast⟩ := ih hplan' hmode' hkept
      rw [List.append_assoc] at hlast
      refine ⟨last, lastMatcher, ?_, hlast⟩
      rw [planRows, hrow]
      exact hrows

omit hsubjects hpatterns in
/-- An empty plan has no rows. -/
theorem planned_cleared :
    Planned (rowAt toUpper subjects patterns options omitNoMatch) patterns.length
      (!options.caseInsensitive) [] (clearedPlan options) :=
  ⟨.nil, rfl, Nat.zero_le _⟩

variable (options omitNoMatch) in
/-- The serial plan has the rows of all tasks. -/
theorem planFixedExtract_eq {matcher : FixedMatcher} (hmatcher : Consistent toUpper matcher)
    {length : Nat} (hinputs : 0 < length → subjects ≠ [] ∧ patterns ≠ []) :
    ∃ plan matcher',
      planFixedExtract toUpper subjects patterns options omitNoMatch length matcher =
        .ok (plan, matcher') ∧
      Planned (rowAt toUpper subjects patterns options omitNoMatch) patterns.length
        (!options.caseInsensitive) (List.range length) plan ∧
      plan.matchesArePatterns = !options.caseInsensitive := by
  unfold planFixedExtract
  split
  next hzero =>
    obtain rfl : length = 0 := by omega
    exact ⟨_, matcher, rfl, planned_cleared, rfl⟩
  next hpos =>
    obtain ⟨hsubject, hpattern⟩ := hinputs (by omega)
    rw [if_neg (by simp [hsubject, hpattern]), Int.toNat_natCast]
    obtain ⟨plan, matcher', hrows, hplan, hmode, -⟩ :=
      planRows_eq hsubjects hpatterns (List.range length) planned_cleared rfl hmatcher
    exact ⟨plan, matcher', hrows, hplan, hmode⟩

variable (options omitNoMatch) in
/-- A range's plan has the rows of its tasks. -/
theorem planFixedExtractRange_eq {matcher : FixedMatcher} (hmatcher : Consistent toUpper matcher)
    {begin endRow : Nat} (hrange : begin ≤ endRow)
    (hinputs : begin < endRow → subjects ≠ [] ∧ patterns ≠ []) :
    ∃ plan matcher',
      planFixedExtractRange toUpper subjects patterns options omitNoMatch begin endRow matcher =
        .ok (plan, matcher') ∧
      Planned (rowAt toUpper subjects patterns options omitNoMatch) patterns.length
        (!options.caseInsensitive) (List.range' begin (endRow - begin)) plan ∧
      plan.matchesArePatterns = !options.caseInsensitive ∧ Consistent toUpper matcher' := by
  unfold planFixedExtractRange
  rw [if_neg (by omega)]
  split
  next hempty =>
    obtain rfl : begin = endRow := by omega
    rw [Nat.sub_self]
    exact ⟨_, matcher, rfl, planned_cleared, rfl, hmatcher⟩
  next hne =>
    obtain ⟨hsubject, hpattern⟩ := hinputs (by omega)
    rw [if_neg (by simp [hsubject, hpattern]), Int.toNat_natCast,
      show ((endRow : Int) - begin).toNat = endRow - begin by omega]
    exact planRows_eq hsubjects hpatterns _ planned_cleared rfl hmatcher

/-! ## A worker -/

/-- What a worker holds after the chunks `mine`. -/
structure Extracted (toUpper : CodePoint → CodePoint) (subjects patterns : List StringView)
    (options : FixedSearchOptions) (omitNoMatch : Bool) (tasks chunk : Nat) (mine : List Nat)
    (state : ExtractState) : Prop where
  planned : Planned (rowAt toUpper subjects patterns options omitNoMatch) patterns.length
    (!options.caseInsensitive) (mine.flatMap (chunkRange tasks chunk)) state.plan
  mode : mine ≠ [] → state.plan.matchesArePatterns = !options.caseInsensitive
  segments_eq : state.segments = mine.map fun number =>
    ⟨chunkBegin chunk number, (chunkEnd tasks chunk number : Int) - chunkBegin chunk number⟩
  matcher : Consistent toUpper state.matcher

/-- A chunk is planned behind the chunks of the worker before it. -/
theorem planChunk_eq {tasks chunk : Nat} (hchunk : 1 ≤ chunk)
    (hinputs : 0 < tasks → subjects ≠ [] ∧ patterns ≠ []) {mine : List Nat} {number : Nat}
    (hnumber : number < chunkCount tasks chunk)
    (hbound : ((mine ++ [number]).flatMap (chunkRange tasks chunk)).length ≤ intMax)
    {state : ExtractState}
    (hstate : Extracted toUpper subjects patterns options omitNoMatch tasks chunk mine state) :
    ∃ state', planChunk toUpper subjects patterns options omitNoMatch (chunkBegin chunk number)
        (chunkEnd tasks chunk number) state = .ok state' ∧
      Extracted toUpper subjects patterns options omitNoMatch tasks chunk (mine ++ [number])
        state' := by
  have hbegin : chunkBegin chunk number < chunkEnd tasks chunk number :=
    chunkBegin_lt_chunkEnd hchunk ((lt_chunkCount_iff hchunk).mp hnumber)
  have hend : chunkEnd tasks chunk number ≤ tasks :=
    chunkEnd_le_tasks ((lt_chunkCount_iff hchunk).mp hnumber)
  obtain ⟨plan, matcher', hrange, hplan, hmode, hkept⟩ := planFixedExtractRange_eq options
    omitNoMatch hsubjects hpatterns hstate.matcher hbegin.le fun _ => hinputs (by omega)
  rw [List.flatMap_append, List.flatMap_singleton] at hbound
  obtain ⟨plan', happend, hplanned, hmode'⟩ := appendChunk_eq hstate.planned hplan hmode hbound
  simp only [planChunk, hrange, happend, bind, Except.bind]
  refine ⟨_, rfl, ?_, fun _ => hmode', ?_, hkept⟩
  · rw [List.flatMap_append, List.flatMap_singleton]
    exact hplanned
  · rw [List.map_append, hstate.segments_eq]
    rfl

/-- The chunks of a worker are planned behind one another. -/
theorem planChunks_eq {tasks chunk : Nat} (hchunk : 1 ≤ chunk)
    (hinputs : 0 < tasks → subjects ≠ [] ∧ patterns ≠ []) (mine : List Nat) {finished : List Nat}
    (hmine : ∀ number ∈ mine, number < chunkCount tasks chunk)
    (hbound : ((finished ++ mine).flatMap (chunkRange tasks chunk)).length ≤ intMax)
    {state : ExtractState}
    (hstate : Extracted toUpper subjects patterns options omitNoMatch tasks chunk finished state) :
    ∃ state', planChunks toUpper subjects patterns options omitNoMatch tasks chunk mine state =
        .ok state' ∧
      Extracted toUpper subjects patterns options omitNoMatch tasks chunk (finished ++ mine)
        state' := by
  induction mine generalizing finished state with
  | nil => exact ⟨state, rfl, by rw [List.append_nil]; exact hstate⟩
  | cons number rest ih =>
      obtain ⟨hnumber, hrest⟩ := List.forall_mem_cons.mp hmine
      rw [List.append_cons] at hbound ⊢
      have hfirst : ((finished ++ [number]).flatMap (chunkRange tasks chunk)).length ≤ intMax := by
        rw [List.flatMap_append, List.length_append] at hbound
        exact (Nat.le_add_right _ _).trans hbound
      obtain ⟨state', hnext, hstate'⟩ :=
        planChunk_eq hsubjects hpatterns hchunk hinputs hnumber hfirst hstate
      obtain ⟨last, hlast, hextracted⟩ := ih hrest hbound hstate'
      refine ⟨last, ?_, hextracted⟩
      rw [planChunks, hnext]
      exact hlast

omit hsubjects hpatterns in
theorem extracted_initial (toUpper : CodePoint → CodePoint) (subjects patterns : List StringView)
    (options : FixedSearchOptions) (omitNoMatch : Bool) (tasks chunk : Nat) :
    Extracted toUpper subjects patterns options omitNoMatch tasks chunk [] {} :=
  ⟨⟨.nil, rfl, Nat.zero_le _⟩, fun hne => absurd rfl hne, rfl, consistent_default toUpper⟩

end Planning

/-! ## Merging -/

section Merging

variable {expected : Nat → RowMatches} {patternCount tasks chunk : Nat}
  {matchesArePatterns : Bool} {source : FixedExtractPlan} {earlier : List StringView}

/-- The rows of the tasks `done` are in their places. -/
structure Placed (expected : Nat → RowMatches) (patternCount : Nat) (matchesArePatterns : Bool)
    (tasks : Nat) (done : List Nat) (matched : List StringView) (rows : List FixedExtractRow) :
    Prop where
  length_eq : rows.length = tasks
  denotes : ∀ task ∈ done, ∃ row, rows[task]? = some row ∧
    Denotes expected patternCount matchesArePatterns matched task row

/-- The output's matches once a source's have been added. -/
def addMatched (matchesArePatterns : Bool) (earlier matched : List StringView) :
    List StringView :=
  if !matchesArePatterns then earlier ++ matched else earlier

/-- What merging relies on: rows have counts, and indices fit their type. -/
structure Mergeable (expected : Nat → RowMatches) (patternCount : Nat)
    (matchesArePatterns : Bool) (earlier matched : List StringView) : Prop where
  count_nonneg : ∀ task, 0 ≤ (expected task).count
  listed : matchesArePatterns = false → ∀ task,
    (expected task).count = (expected task).found.length
  patterns_pos : 0 < patternCount
  size_le : earlier.length + matched.length ≤ sizeMax

variable (hmergeable : Mergeable expected patternCount matchesArePatterns earlier source.matched)
include hmergeable

/-- A merged row finds its matches behind those of the workers before. -/
theorem mergeRow_eq {task : Nat} {row : FixedExtractRow}
    (hdenotes : Denotes expected patternCount matchesArePatterns source.matched task row) :
    ∃ row', mergeRow patternCount earlier.length matchesArePatterns source row = .ok row' ∧
      Denotes expected patternCount matchesArePatterns
        (addMatched matchesArePatterns earlier source.matched) task row' := by
  have hcount : 0 ≤ row.count := hdenotes.count_eq ▸ hmergeable.count_nonneg task
  have hsize := hmergeable.size_le
  unfold mergeRow addMatched
  rw [if_neg (by omega)]
  cases matchesArePatterns with
  | true =>
      have hbegin := Nat.mod_lt task hmergeable.patterns_pos
      rw [← hdenotes.pattern_eq rfl] at hbegin
      rw [if_pos rfl, if_neg (by omega)]
      exact ⟨row, rfl, hdenotes.of_patterns rfl⟩
  | false =>
      obtain ⟨before, after, hmatched, hbegin⟩ := hdenotes.matches_eq rfl
      have hlength := congrArg List.length hmatched
      rw [List.length_append, List.length_append] at hlength
      have hfound := hdenotes.count_eq.trans (hmergeable.listed rfl task)
      rw [if_neg (by simp), if_neg (by omega), if_neg (by omega)]
      exact ⟨_, rfl, hdenotes.shift rfl earlier⟩

/-- Merging a run of rows puts each in its place. -/
theorem mergeRows_eq (part : List FixedExtractRow) {begin : Nat} {done : List Nat}
    {output : List FixedExtractRow}
    (hpart : List.Forall₂ (Denotes expected patternCount matchesArePatterns source.matched)
      (List.range' begin part.length) part)
    (hfits : begin + part.length ≤ tasks)
    (hplaced : Placed expected patternCount matchesArePatterns tasks done
      (addMatched matchesArePatterns earlier source.matched) output) :
    ∃ output', mergeRows patternCount earlier.length matchesArePatterns source part begin output =
        .ok output' ∧
      Placed expected patternCount matchesArePatterns tasks
        (done ++ List.range' begin part.length)
        (addMatched matchesArePatterns earlier source.matched) output' := by
  induction part generalizing begin done output with
  | nil => exact ⟨output, rfl, by simpa using hplaced⟩
  | cons row rest ih =>
      rw [List.length_cons, List.range'_succ] at hpart
      rw [List.length_cons] at hfits
      obtain ⟨hrow, hrest⟩ := List.forall₂_cons.mp hpart
      obtain ⟨row', hmerge, hdenotes⟩ := mergeRow_eq hmergeable hrow
      have hplaced' : Placed expected patternCount matchesArePatterns tasks (done ++ [begin])
          (addMatched matchesArePatterns earlier source.matched) (output.set begin row') := by
        refine ⟨by rw [List.length_set, hplaced.length_eq], ?_⟩
        intro task htask
        -- whatever stood there before, the place of a task gets the task's row
        by_cases hsame : task = begin
        · subst hsame
          refine ⟨row', ?_, hdenotes⟩
          rw [List.getElem?_set_self (by rw [hplaced.length_eq]; omega)]
        · obtain ⟨old, hget, hold⟩ := hplaced.denotes task (by simpa [hsame] using htask)
          exact ⟨old, by rw [List.getElem?_set_ne (Ne.symm hsame), hget], hold⟩
      obtain ⟨output', hrows, hdone⟩ := ih hrest (by omega) hplaced'
      rw [List.append_assoc, List.singleton_append, ← List.range'_succ] at hdone
      refine ⟨output', ?_, hdone⟩
      rw [mergeRows, hmerge]
      exact hrows

/-- Walking a worker's segments places the rows of its chunks. -/
theorem mergeRuns_eq (hchunk : 1 ≤ chunk) (mine : List Nat)
    (hmine : ∀ number ∈ mine, number < chunkCount tasks chunk) {consumed : Nat}
    {done : List Nat} {output : List FixedExtractRow} (hconsumed : consumed ≤ source.rows.length)
    (hrows : List.Forall₂ (Denotes expected patternCount matchesArePatterns source.matched)
      (mine.flatMap (chunkRange tasks chunk)) (source.rows.drop consumed))
    (hplaced : Placed expected patternCount matchesArePatterns tasks done
      (addMatched matchesArePatterns earlier source.matched) output) :
    ∃ output', mergeRuns patternCount tasks earlier.length matchesArePatterns source
        (mine.map fun number => ⟨chunkBegin chunk number,
          (chunkEnd tasks chunk number : Int) - chunkBegin chunk number⟩) consumed output =
        .ok (source.rows.length, output') ∧
      Placed expected patternCount matchesArePatterns tasks
        (done ++ mine.flatMap (chunkRange tasks chunk))
        (addMatched matchesArePatterns earlier source.matched) output' := by
  induction mine generalizing consumed done output with
  | nil =>
      have hnil := List.forall₂_nil_left_iff.mp hrows
      have hall : consumed = source.rows.length :=
        le_antisymm hconsumed (List.drop_eq_nil_iff.mp hnil)
      refine ⟨output, by rw [← hall]; rfl, by simpa using hplaced⟩
  | cons number rest ih =>
      obtain ⟨hnumber, hrest⟩ := List.forall_mem_cons.mp hmine
      have hbegin : chunkBegin chunk number < chunkEnd tasks chunk number :=
        chunkBegin_lt_chunkEnd hchunk ((lt_chunkCount_iff hchunk).mp hnumber)
      have hend : chunkEnd tasks chunk number ≤ tasks :=
        chunkEnd_le_tasks ((lt_chunkCount_iff hchunk).mp hnumber)
      have hcount : (chunkRange tasks chunk number).length =
          chunkEnd tasks chunk number - chunkBegin chunk number := List.length_range'
      have htotal := hrows.length_eq
      rw [List.flatMap_cons, List.length_append, hcount, List.length_drop] at htotal
      have hsegment : ((chunkEnd tasks chunk number : Int) - chunkBegin chunk number).toNat =
          chunkEnd tasks chunk number - chunkBegin chunk number := by omega
      -- this chunk's rows, and those of the chunks after it
      have hhere := List.forall₂_take (chunkRange tasks chunk number).length hrows
      have hlater := List.forall₂_drop (chunkRange tasks chunk number).length hrows
      rw [List.flatMap_cons, List.take_left, hcount, chunkRange] at hhere
      rw [List.flatMap_cons, List.drop_left, hcount, List.drop_drop] at hlater
      generalize hwidth : chunkEnd tasks chunk number - chunkBegin chunk number = width at *
      have hlength : ((source.rows.drop consumed).take width).length = width := by
        rw [List.length_take, List.length_drop]
        omega
      have hpart : List.Forall₂ (Denotes expected patternCount matchesArePatterns source.matched)
          (List.range' (chunkBegin chunk number) ((source.rows.drop consumed).take width).length)
          ((source.rows.drop consumed).take width) := by
        rw [hlength]
        exact hhere
      obtain ⟨output', hmerge, hplaced'⟩ := mergeRows_eq hmergeable _ hpart (by omega) hplaced
      obtain ⟨last, hruns, hdone⟩ := ih hrest (by omega) hlater hplaced'
      rw [hlength, List.append_assoc] at hdone
      refine ⟨last, ?_, ?_⟩
      · rw [List.map_cons, mergeRuns, if_neg (by simp only; omega)]
        simp only [hsegment, Int.toNat_natCast]
        rw [if_neg (by omega), if_neg (by omega), hmerge]
        exact hruns
      · rw [List.flatMap_cons, chunkRange, hwidth]
        exact hdone

omit hmergeable in
/-- Rows keep what they denote when matches are added. -/
theorem Placed.addMatched {done : List Nat} {rows : List FixedExtractRow}
    (hplaced : Placed expected patternCount matchesArePatterns tasks done earlier rows)
    (more : List StringView) :
    Placed expected patternCount matchesArePatterns tasks done
      (FixedSearch.addMatched matchesArePatterns earlier more) rows := by
  refine ⟨hplaced.length_eq, ?_⟩
  intro task htask
  obtain ⟨row, hget, hdenotes⟩ := hplaced.denotes task htask
  refine ⟨row, hget, ?_⟩
  unfold FixedSearch.addMatched
  split
  next => exact hdenotes.append
  next => exact hdenotes

end Merging

/-! ## All workers -/

section Workers

variable {toUpper : CodePoint → CodePoint} {subjects patterns : List StringView}
  {options : FixedSearchOptions} {omitNoMatch : Bool} {tasks chunk : Nat}

/-- The output once the rows of the tasks `done` have been merged. -/
structure MergedPlan (toUpper : CodePoint → CodePoint) (subjects patterns : List StringView)
    (options : FixedSearchOptions) (omitNoMatch : Bool) (tasks : Nat) (done : List Nat)
    (output : FixedExtractPlan) : Prop where
  placed : Placed (rowAt toUpper subjects patterns options omitNoMatch) patterns.length
    (!options.caseInsensitive) tasks done output.matched output.rows
  maxColumns_eq : output.maxColumns =
    maxWidth (rowAt toUpper subjects patterns options omitNoMatch) done
  matched_le : output.matched.length ≤ done.length * intMax
  mode_eq : output.matchesArePatterns = !options.caseInsensitive

variable (hsubjects : ∀ view ∈ subjects, Normalized view)
  (hpatterns : ∀ view ∈ patterns, Normalized view)
include hsubjects hpatterns

variable (toUpper options omitNoMatch) in
/-- A row counts the matches it lists. -/
theorem wellCounted_rowAt (index : Nat) :
    WellCounted options (rowAt toUpper subjects patterns options omitNoMatch index) := by
  obtain ⟨-, -, -, hcounted⟩ := searchRow_eq options omitNoMatch
    (normalized_getD hsubjects (index % subjects.length))
    (normalized_getD hpatterns (index % patterns.length)) (consistent_default toUpper)
  exact hcounted

/-- The rows of a search can be merged while their matches can be counted. -/
theorem mergeable_rowAt (hpos : 0 < patterns.length) {earlier matched : List StringView}
    (hsize : earlier.length + matched.length ≤ sizeMax) :
    Mergeable (rowAt toUpper subjects patterns options omitNoMatch) patterns.length
      (!options.caseInsensitive) earlier matched where
  count_nonneg task := (wellCounted_rowAt _ _ _ hsubjects hpatterns task).count_nonneg
  listed hmode task := (wellCounted_rowAt _ _ _ hsubjects hpatterns task).listed
    (by simpa using hmode)
  patterns_pos := hpos
  size_le := hsize

/-- Merging a worker's plan adds its rows. -/
theorem mergeSource_eq (hchunk : 1 ≤ chunk) (hpos : 0 < tasks → 0 < patterns.length)
    {mine done : List Nat} {state : ExtractState} {output : FixedExtractPlan}
    (hmine : ∀ number ∈ mine, number < chunkCount tasks chunk)
    (hstate : Extracted toUpper subjects patterns options omitNoMatch tasks chunk mine state)
    (houtput : MergedPlan toUpper subjects patterns options omitNoMatch tasks done output)
    (hbound : (done ++ mine.flatMap (chunkRange tasks chunk)).length ≤ intMax) :
    ∃ output', mergeSource patterns.length tasks (!options.caseInsensitive) state.plan
        state.segments output done.length =
        .ok (output', (done ++ mine.flatMap (chunkRange tasks chunk)).length) ∧
      MergedPlan toUpper subjects patterns options omitNoMatch tasks
        (done ++ mine.flatMap (chunkRange tasks chunk)) output' := by
  unfold mergeSource
  rw [hstate.segments_eq]
  cases mine with
  | nil =>
      refine ⟨output, ?_, ?_⟩
      · simp
      · simpa using houtput
  | cons number rest =>
      have hnumber := hmine number List.mem_cons_self
      have htasks : 0 < tasks := by
        have := (lt_chunkCount_iff hchunk).mp hnumber
        omega
      rw [List.length_append] at hbound
      obtain ⟨hlength, hsize⟩ :=
        matched_bound houtput.matched_le hstate.planned.matched_le hbound
      rw [if_neg (by simp), if_neg (by rw [hstate.mode (by simp)]; simp), if_neg (by omega)]
      -- run by run, the worker's rows go to the places of their tasks
      obtain ⟨rows, hruns, hplaced⟩ := mergeRuns_eq
        (mergeable_rowAt hsubjects hpatterns (hpos htasks) hsize) hchunk (number :: rest) hmine
        (Nat.zero_le _) (by rw [List.drop_zero]; exact hstate.planned.rows)
        (houtput.placed.addMatched state.plan.matched)
      simp only [hruns, bind, Except.bind, ne_eq, not_true_eq_false, if_false]
      refine ⟨{ output with
        rows
        matched := addMatched (!options.caseInsensitive) output.matched state.plan.matched
        maxColumns := if output.maxColumns < state.plan.maxColumns then state.plan.maxColumns
          else output.maxColumns }, ?_, hplaced, ?_, ?_, houtput.mode_eq⟩
      · rw [List.length_append, hstate.planned.rows.length_eq]
        rfl
      · rw [maxWidth_append, ← houtput.maxColumns_eq, ← hstate.planned.maxColumns_eq, max_comm]
        exact ite_gt_eq_max state.plan.maxColumns output.maxColumns
      · rw [List.length_append]
        unfold addMatched
        split
        next =>
          rw [List.length_append]
          exact hlength
        next => exact (Nat.le_add_right _ _).trans hlength

/-- Merging the plans of workers adds the rows of all. -/
theorem mergeSources_eq (hchunk : 1 ≤ chunk) (hpos : 0 < tasks → 0 < patterns.length)
    (indices : List Nat) {mine : Nat → List Nat} {state : Nat → ExtractState}
    (hmine : ∀ index ∈ indices, ∀ number ∈ mine index, number < chunkCount tasks chunk)
    (hstate : ∀ index ∈ indices, Extracted toUpper subjects patterns options omitNoMatch tasks
      chunk (mine index) (state index)) {done : List Nat} {output : FixedExtractPlan}
    (houtput : MergedPlan toUpper subjects patterns options omitNoMatch tasks done output)
    (hbound : (done ++ indices.flatMap fun index =>
      (mine index).flatMap (chunkRange tasks chunk)).length ≤ intMax) :
    ∃ output', mergeSources patterns.length tasks (!options.caseInsensitive)
        (indices.map fun index => ((state index).plan, (state index).segments)) output
        done.length =
        .ok (output', (done ++ indices.flatMap fun index =>
          (mine index).flatMap (chunkRange tasks chunk)).length) ∧
      MergedPlan toUpper subjects patterns options omitNoMatch tasks
        (done ++ indices.flatMap fun index => (mine index).flatMap (chunkRange tasks chunk))
        output' := by
  induction indices generalizing done output with
  | nil => exact ⟨output, by simp [mergeSources], by simpa using houtput⟩
  | cons index rest ih =>
      obtain ⟨hmineHere, hmineRest⟩ := List.forall_mem_cons.mp hmine
      obtain ⟨hstateHere, hstateRest⟩ := List.forall_mem_cons.mp hstate
      rw [List.flatMap_cons, ← List.append_assoc] at hbound ⊢
      have hfirst : (done ++ (mine index).flatMap (chunkRange tasks chunk)).length ≤ intMax := by
        rw [List.length_append] at hbound
        exact (Nat.le_add_right _ _).trans hbound
      obtain ⟨output', hsource, houtput'⟩ := mergeSource_eq hsubjects hpatterns hchunk hpos
        hmineHere hstateHere houtput hfirst
      obtain ⟨last, hsources, hlast⟩ := ih hmineRest hstateRest houtput' hbound
      refine ⟨last, ?_, hlast⟩
      rw [List.map_cons, mergeSources, hsource]
      exact hsources

omit hsubjects hpatterns in
/-- The chunks of all workers are the chunks of the range, so their tasks are all
tasks. -/
theorem tasks_perm (hchunk : 1 ≤ chunk) {workers : Nat} {mine : Nat → List Nat}
    (hperm : ((List.range workers).flatMap mine).Perm (List.range (chunkCount tasks chunk))) :
    ((List.range workers).flatMap fun index => (mine index).flatMap (chunkRange tasks chunk)).Perm
      (List.range tasks) := by
  have htasks := hperm.flatMap_right (chunkRange tasks chunk)
  rw [flatMap_chunkRange tasks hchunk, List.flatMap_assoc] at htasks
  exact htasks

/-- However the chunks were dealt, the merged plan has the row of every task. -/
theorem mergePlans_eq (hchunk : 1 ≤ chunk) (hpos : 0 < tasks → 0 < patterns.length)
    (htasks : tasks ≤ intMax) {workers : Nat} {mine : Nat → List Nat}
    {state : Nat → ExtractState}
    (hperm : ((List.range workers).flatMap mine).Perm (List.range (chunkCount tasks chunk)))
    (hstate : ∀ index < workers, Extracted toUpper subjects patterns options omitNoMatch tasks
      chunk (mine index) (state index)) :
    ∃ merged done, mergePlans (workerPlans workers state) patterns.length tasks
        (!options.caseInsensitive) = .ok merged ∧
      done.Perm (List.range tasks) ∧
      MergedPlan toUpper subjects patterns options omitNoMatch tasks done merged := by
  have hdone := tasks_perm hchunk hperm
  have hlength := hdone.length_eq
  rw [List.length_range] at hlength
  have hempty : MergedPlan toUpper subjects patterns options omitNoMatch tasks []
      { rows := List.replicate tasks ⟨0, 0, false⟩,
        matchesArePatterns := !options.caseInsensitive } :=
    ⟨⟨List.length_replicate, by simp⟩, rfl, Nat.zero_le _, rfl⟩
  obtain ⟨merged, hsources, hmerged⟩ := mergeSources_eq hsubjects hpatterns hchunk hpos
    (List.range workers)
    (fun index hindex number hnumber => List.mem_range.mp
      (hperm.subset (List.mem_flatMap.mpr ⟨index, hindex, hnumber⟩)))
    (fun index hindex => hstate index (List.mem_range.mp hindex)) hempty
    (by rw [List.nil_append, hlength]; exact htasks)
  rw [List.nil_append] at hsources hmerged
  refine ⟨merged, _, ?_, hdone, hmerged⟩
  rw [hlength] at hsources
  rw [mergePlans, workerPlans]
  simp only [List.length_nil] at hsources
  simp [hsources, bind, Except.bind, pure, Except.pure]

/-! ## Equal plans -/

omit hsubjects hpatterns in
/-- Two plans with the same rows: where the matches are listed, the slices hold the
same matches. -/
structure SamePlan (left right : FixedExtractPlan) : Prop where
  length_eq : left.rows.length = right.rows.length
  rows : ∀ index < right.rows.length, ∃ row other, left.rows[index]? = some row ∧
    right.rows[index]? = some other ∧ row.count = other.count ∧
    row.forcedNa = other.forcedNa ∧
    if right.matchesArePatterns then row.begin = other.begin
    else (left.matched.drop row.begin).take row.count.toNat =
      (right.matched.drop other.begin).take other.count.toNat
  maxColumns_eq : left.maxColumns = right.maxColumns
  mode_eq : left.matchesArePatterns = right.matchesArePatterns

omit hsubjects hpatterns in
/-- A row cuts its matches out of the list. -/
theorem Denotes.slice_eq {expected : Nat → RowMatches} {patternCount task : Nat}
    {matched : List StringView} {row : FixedExtractRow}
    (hdenotes : Denotes expected patternCount false matched task row)
    (hlisted : (expected task).count = (expected task).found.length) :
    (matched.drop row.begin).take row.count.toNat = (expected task).found := by
  obtain ⟨before, after, rfl, hbegin⟩ := hdenotes.matches_eq rfl
  rw [hdenotes.count_eq, hlisted, Int.toNat_natCast, hbegin, List.append_assoc, List.drop_left,
    List.take_left]

/-- The merged plan has the rows of the serial one. -/
theorem samePlan_of_merged {merged serial : FixedExtractPlan} {done : List Nat}
    (hdone : done.Perm (List.range tasks))
    (hmerged : MergedPlan toUpper subjects patterns options omitNoMatch tasks done merged)
    (hserial : Planned (rowAt toUpper subjects patterns options omitNoMatch) patterns.length
      (!options.caseInsensitive) (List.range tasks) serial)
    (hmode : serial.matchesArePatterns = !options.caseInsensitive) :
    SamePlan merged serial := by
  have hlength := hserial.rows.length_eq
  rw [List.length_range] at hlength
  refine ⟨hmerged.placed.length_eq.trans hlength, ?_, ?_, hmerged.mode_eq.trans hmode.symm⟩
  · intro index hindex
    rw [← hlength] at hindex
    obtain ⟨row, hget, hdenotes⟩ := hmerged.placed.denotes index
      (hdone.mem_iff.mpr (List.mem_range.mpr hindex))
    have hother : serial.rows[index]? = some serial.rows[index] := List.getElem?_eq_getElem _
    have hexpected := List.forall₂_iff_get.mp hserial.rows |>.2 index (by simpa using hindex)
      (hlength ▸ hindex)
    simp only [List.get_eq_getElem, List.getElem_range] at hexpected
    refine ⟨row, serial.rows[index], hget, hother,
      hdenotes.count_eq.trans hexpected.count_eq.symm,
      hdenotes.forcedNa_eq.trans hexpected.forcedNa_eq.symm, ?_⟩
    rw [hmode]
    split
    next hpatterned =>
      exact (hdenotes.pattern_eq hpatterned).trans (hexpected.pattern_eq hpatterned).symm
    next hlisted =>
      rw [Bool.not_eq_true] at hlisted
      have hcounted := (wellCounted_rowAt toUpper options omitNoMatch hsubjects hpatterns
        index).listed (by simpa using hlisted)
      rw [hlisted] at hdenotes hexpected
      rw [hdenotes.slice_eq hcounted, hexpected.slice_eq hcounted]
  · rw [hmerged.maxColumns_eq, hserial.maxColumns_eq, maxWidth_perm hdone]

/-! ## The region -/

/-- What a worker has planned when it has been through its chunks. -/
theorem extractSpec (hchunk : 1 ≤ chunk)
    (hinputs : 0 < tasks → subjects ≠ [] ∧ patterns ≠ []) (htasks : tasks ≤ intMax)
    (workers : Nat) :
    BodySpec (extractBody toUpper subjects patterns options omitNoMatch) workers tasks chunk
      (fun _ mine state => mine.Pairwise (· < ·) ∧
        Extracted toUpper subjects patterns options omitNoMatch tasks chunk mine state)
      (ChunkPost NativeError.text (fun _ => .next) fun _ => []) := by
  apply chunkwiseSpec
  · intro index _
    exact ⟨.nil, extracted_initial toUpper subjects patterns options omitNoMatch tasks chunk⟩
  · rintro index - finished number state hnumber hearlier ⟨hsorted, hstate⟩
    have hsorted' : (finished ++ [number]).Pairwise (· < ·) := by
      rw [List.pairwise_append]
      refine ⟨hsorted, List.pairwise_singleton _ _, ?_⟩
      intro earlier hmem later hlater
      rw [List.mem_singleton.mp hlater]
      exact hearlier earlier hmem
    obtain ⟨state', hplan, hextracted⟩ := planChunk_eq hsubjects hpatterns hchunk hinputs hnumber
      ((length_flatMap_chunkRange_le hchunk hsorted').trans htasks) hstate
    simp only [heldContext, hplan]
    exact ⟨rfl, rfl, hsorted', hextracted⟩

/-- A completed region leaves plans that merge into the serial one. -/
theorem extractionRegion_eq (hinputs : 0 < tasks → subjects ≠ [] ∧ patterns ≠ [])
    (htasks : tasks ≤ intMax) {plan : ParallelPlan} (hworkers : 1 ≤ plan.workers)
    {schedule : List Nat} {regionEnd : RegionEnd ExtractState Unit NativeError}
    (hrun : runParallel plan tasks (extractBody toUpper subjects patterns options omitNoMatch)
      (fun _ => none) schedule = some regionEnd) :
    regionEnd.outcome = .returned ∧
      ∃ merged done, mergePlans (workerPlans plan.workers fun index =>
          (regionEnd.final.worker index).state) patterns.length tasks
          (!options.caseInsensitive) = .ok merged ∧
        done.Perm (List.range tasks) ∧
        MergedPlan toUpper subjects patterns options omitNoMatch tasks done merged := by
  obtain ⟨hdone, houtcome, -⟩ := completed_of_runRegion
    (extractSpec hsubjects hpatterns (one_le_regionChunk plan) hinputs htasks
      (regionWorkers plan tasks)) (fun number ending entries hpost => hpost.1) hrun
  have hwidth : regionWorkers plan tasks ≤ plan.workers := regionWorkers_le hworkers
  have hperm : ((List.range plan.workers).flatMap
      (owned tasks (regionChunk plan) regionEnd.final.claims)).Perm
        (List.range (chunkCount tasks (regionChunk plan))) := by
    have howned : ((List.range plan.workers).flatMap
        (owned tasks (regionChunk plan) regionEnd.final.claims)).Perm _ :=
      owned_perm fun index hindex => (hdone.invariant.winners index hindex).trans_le hwidth
    rw [Nat.min_eq_right (hdone.chunkCount_le_claims fun _ _ => rfl)] at howned
    exact howned
  refine ⟨?_, mergePlans_eq hsubjects hpatterns hdone.chunk_pos ?_ htasks hperm ?_⟩
  · rw [houtcome]
    exact hdone.conclude_of_no_throws fun _ _ _ => by simp
  · intro hpos
    exact List.length_pos_of_ne_nil (hinputs hpos).2
  · intro index _
    refine (history_of_plan hdone hrun ?_ index).2
    intro worker
    exact ⟨.nil, extracted_initial toUpper subjects patterns options omitNoMatch tasks _⟩

end Workers

theorem SamePlan.refl (plan : FixedExtractPlan) : SamePlan plan plan where
  length_eq := rfl
  rows index hindex := by
    refine ⟨plan.rows[index], plan.rows[index], List.getElem?_eq_getElem hindex,
      List.getElem?_eq_getElem hindex, rfl, rfl, ?_⟩
    split <;> rfl
  maxColumns_eq := rfl
  mode_eq := rfl

/-- Equal plans give equal strings. -/
theorem SamePlan.strings_eq {left right : FixedExtractPlan} (hsame : SamePlan left right)
    (patterns : List StringView) (index : Nat) :
    left.rows[index]?.map (left.strings patterns) =
      right.rows[index]?.map (right.strings patterns) := by
  by_cases hindex : index < right.rows.length
  · obtain ⟨row, other, hleft, hright, hcount, hmissing, hcontent⟩ := hsame.rows index hindex
    rw [hleft, hright, Option.map_some, Option.map_some]
    unfold FixedExtractPlan.strings
    rw [hmissing, hcount, hsame.mode_eq]
    split at hcontent
    next hpatterned => simp only [hpatterned, if_true, hcontent]
    next hlisted =>
      rw [hcount] at hcontent
      simp only [hlisted, Bool.false_eq_true, if_false, hcontent]
  · rw [Nat.not_lt] at hindex
    rw [List.getElem?_eq_none hindex, List.getElem?_eq_none (hsame.length_eq ▸ hindex)]
    rfl

theorem nonempty_of_recyclingLength {subjects patterns : List StringView}
    (hpos : 0 < (recyclingLength subjects.length patterns.length).1) :
    subjects ≠ [] ∧ patterns ≠ [] := by
  unfold recyclingLength at hpos
  split at hpos
  next => exact absurd hpos (by simp)
  next hnot =>
    simp only [not_or, Nat.not_le] at hnot
    exact ⟨List.ne_nil_of_length_pos hnot.1, List.ne_nil_of_length_pos hnot.2⟩

theorem recyclingLength_le {first second limit : Nat} (hfirst : first ≤ limit)
    (hsecond : second ≤ limit) : (recyclingLength first second).1 ≤ limit := by
  unfold recyclingLength
  split
  next => exact Nat.zero_le _
  next =>
    simp only
    split
    next => exact hfirst
    next => exact hsecond

section Dealt

variable {toUpper : CodePoint → CodePoint} {subjects patterns : List StringView}
  {options : FixedSearchOptions} {omitNoMatch : Bool} {tasks chunk workers : Nat}
  {mine : Nat → List Nat}

/-- However the chunks are dealt, every worker plans its own. -/
theorem exists_planned (hsubjects : ∀ view ∈ subjects, Normalized view)
    (hpatterns : ∀ view ∈ patterns, Normalized view) (hchunk : 1 ≤ chunk)
    (hinputs : 0 < tasks → subjects ≠ [] ∧ patterns ≠ []) (htasks : tasks ≤ intMax)
    (hperm : ((List.range workers).flatMap mine).Perm (List.range (chunkCount tasks chunk)))
    {index : Nat} (hindex : index < workers) :
    ∃ state, planChunks toUpper subjects patterns options omitNoMatch tasks chunk (mine index)
        {} = .ok state ∧
      Extracted toUpper subjects patterns options omitNoMatch tasks chunk (mine index) state := by
  have hmine : mine index ∈ (List.range workers).map mine :=
    List.mem_map_of_mem (List.mem_range.mpr hindex)
  -- a worker has no more tasks than all of them have together
  have hsublist := (List.sublist_flatten_of_mem hmine).flatMap (chunkRange tasks chunk)
  have hlength : ((mine index).flatMap (chunkRange tasks chunk)).length ≤
      (((List.range workers).flatMap mine).flatMap (chunkRange tasks chunk)).length :=
    hsublist.length_le
  rw [(hperm.flatMap_right (chunkRange tasks chunk)).length_eq,
    flatMap_chunkRange tasks hchunk, List.length_range] at hlength
  apply planChunks_eq hsubjects hpatterns hchunk hinputs (mine index) ?_ (hlength.trans htasks)
    (extracted_initial toUpper subjects patterns options omitNoMatch tasks chunk)
  intro number hnumber
  apply List.mem_range.mp
  apply hperm.subset
  exact List.mem_flatMap.mpr ⟨index, List.mem_range.mpr hindex, hnumber⟩

end Dealt

/-- The chunks of an output can be dealt to workers in any way: planning them,
appending them and merging the workers never fails and gives the serial plan's
rows and width. So does every run of the region. -/
theorem mergePlans_agrees_with_serial (toUpper : CodePoint → CodePoint)
    {subjects patterns : List StringView} (hsubjects : ∀ view ∈ subjects, Normalized view)
    (hpatterns : ∀ view ∈ patterns, Normalized view) (hsubjectCount : subjects.length ≤ intMax)
    (hpatternCount : patterns.length ≤ intMax) (options : FixedSearchOptions)
    (omitNoMatch : Bool) :
    let tasks := (recyclingLength subjects.length patterns.length).1
    ∃ serial matcher, planFixedExtract toUpper subjects patterns options omitNoMatch tasks {} =
        .ok (serial, matcher) ∧
      (∀ workers chunk, 1 ≤ chunk → ∀ mine : Nat → List Nat,
        ((List.range workers).flatMap mine).Perm (List.range (chunkCount tasks chunk)) →
        ∃ (state : Nat → ExtractState) (merged : FixedExtractPlan),
          (∀ index < workers, planChunks toUpper subjects patterns options omitNoMatch tasks chunk
            (mine index) {} = .ok (state index)) ∧
          mergePlans (workerPlans workers state) patterns.length tasks
            (!options.caseInsensitive) = .ok merged ∧
          SamePlan merged serial) ∧
      ∀ (plan : ParallelPlan) (schedule : List Nat), 1 ≤ plan.workers →
        ((∀ index < regionWorkers plan tasks,
            scheduleBound plan tasks < schedule.count index) →
          (extractionPlan toUpper subjects patterns options omitNoMatch plan
            schedule).isSome = true) ∧
        ∀ result, extractionPlan toUpper subjects patterns options omitNoMatch plan schedule =
            some result →
          ∃ merged, result = .ok merged ∧ SamePlan merged serial ∧
            ∀ index : Nat, merged.rows[index]?.map (merged.strings patterns) =
              serial.rows[index]?.map (serial.strings patterns) := by
  intro tasks
  have hinputs : 0 < tasks → subjects ≠ [] ∧ patterns ≠ [] := nonempty_of_recyclingLength
  have htasks : tasks ≤ intMax := recyclingLength_le hsubjectCount hpatternCount
  have hrecycled : (recyclingLength subjects.length patterns.length).1 = tasks := rfl
  clear_value tasks
  have hnonempty : 0 < tasks → 0 < patterns.length :=
    fun hpos => List.length_pos_of_ne_nil (hinputs hpos).2
  obtain ⟨serial, matcher, hserial, hplanned, hmode⟩ := planFixedExtract_eq options omitNoMatch
    hsubjects hpatterns (consistent_default toUpper) hinputs
  refine ⟨serial, matcher, hserial, ?_, ?_⟩
  · intro workers chunk hchunk mine hperm
    have hstate : ∀ index, ∃ state, index < workers →
        planChunks toUpper subjects patterns options omitNoMatch tasks chunk (mine index) {} =
          .ok state ∧
        Extracted toUpper subjects patterns options omitNoMatch tasks chunk (mine index)
          state := by
      intro index
      by_cases hindex : index < workers
      · obtain ⟨state, hplan⟩ :=
          exists_planned hsubjects hpatterns hchunk hinputs htasks hperm hindex
        exact ⟨state, fun _ => hplan⟩
      · exact ⟨{}, fun hless => absurd hless hindex⟩
    choose state hstates using hstate
    obtain ⟨merged, done, hmerge, hdone, hmerged⟩ := mergePlans_eq hsubjects hpatterns hchunk
      hnonempty htasks hperm fun index hindex => (hstates index hindex).2
    exact ⟨state, merged, fun index hindex => (hstates index hindex).1, hmerge,
      samePlan_of_merged hsubjects hpatterns hdone hmerged hplanned hmode⟩
  · intro plan schedule hworkers
    unfold extractionPlan
    simp only [hrecycled]
    split
    next =>
      -- one worker plans everything in order
      rw [hserial]
      refine ⟨fun _ => rfl, ?_⟩
      rintro result ⟨⟩
      exact ⟨serial, rfl, SamePlan.refl serial, fun _ => rfl⟩
    next =>
      constructor
      · intro hfair
        obtain ⟨regionEnd, hrun⟩ := Option.isSome_iff_exists.mp (runRegion_isSome_of_fair plan
          tasks (extractBody toUpper subjects patterns options omitNoMatch) (fun _ => none) false
          schedule hfair)
        rw [runParallel, hrun]
        simp only [Option.bind_eq_bind, Option.bind_some]
        split
        next => rfl
        next => split <;> rfl
      · intro result hresult
        obtain ⟨regionEnd, hrun, hreturn⟩ := Option.bind_eq_some_iff.mp hresult
        obtain ⟨hreturned, merged, done, hmerge, hdone, hmerged⟩ :=
          extractionRegion_eq hsubjects hpatterns hinputs htasks hworkers hrun
        have hsame := samePlan_of_merged hsubjects hpatterns hdone hmerged hplanned hmode
        simp only [hreturned, Outcome.message, hmerge] at hreturn
        obtain rfl := Option.some.inj hreturn
        exact ⟨merged, rfl, hsame, hsame.strings_eq patterns⟩

/-- Three subjects in chunks of one: the second worker plans the outer ones, the
first worker the middle one. -/
theorem mergePlans_agrees_with_two_workers :
    let subjects : List StringView := [⟨.bytes ⟨100, [97, 65, 98], by decide⟩, .ascii⟩,
      ⟨.bytes ⟨200, [98], by decide⟩, .ascii⟩, ⟨.bytes ⟨300, [98, 97], by decide⟩, .ascii⟩]
    let patterns : List StringView := [⟨.bytes ⟨400, [65], by decide⟩, .ascii⟩]
    let mine : Nat → List Nat := fun index => if index = 0 then [1] else [0, 2]
    ∃ serial matcher state merged,
      planFixedExtract asciiToUpper subjects patterns ⟨true, false⟩ false 3 {} =
        .ok (serial, matcher) ∧
      (∀ index < 2, planChunks asciiToUpper subjects patterns ⟨true, false⟩ false 3 1
        (mine index) {} = .ok (state index)) ∧
      mergePlans (workerPlans 2 state) 1 3 false = .ok merged ∧ SamePlan merged serial := by
  intro subjects patterns mine
  have hsubjects : ∀ view ∈ subjects, Normalized view := by
    simp only [subjects, List.forall_mem_cons]
    exact ⟨.inr ⟨_, rfl⟩, .inr ⟨_, rfl⟩, .inr ⟨_, rfl⟩, by simp⟩
  have hpatterns : ∀ view ∈ patterns, Normalized view := by
    simp only [patterns, List.forall_mem_cons]
    exact ⟨.inr ⟨_, rfl⟩, by simp⟩
  obtain ⟨serial, matcher, hserial, hdealt, -⟩ := mergePlans_agrees_with_serial asciiToUpper
    hsubjects hpatterns (by decide) (by decide) ⟨true, false⟩ false
  obtain ⟨state, merged, hplans, hmerge, hsame⟩ := hdealt 2 1 le_rfl mine (by decide)
  exact ⟨serial, matcher, state, merged, hserial, hplans, hmerge, hsame⟩

end Charr.FixedSearch
