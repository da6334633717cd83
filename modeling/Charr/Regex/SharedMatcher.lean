import Charr.Regex.MatcherRuns
import Charr.Regex.Replace

/-!
# One matcher for a list of patterns

A worker keeps its matcher while it takes chunk after chunk through the patterns, and the
matcher does not compile a pattern again that it still holds. Every step on it gives what it
gives on a matcher made for that step, so binding and replacing are functions of the pattern
and the text, as the loop over the patterns takes them to be.
-/

namespace Charr.RegexSearch

open RegexMatcher Parallel

variable {World Engine : Type}

/-! ## The loop -/

section Loop

variable (icu : Icu World Engine) (world : World)
  (report : UErrorCode → Bool → RegexInput → NativeError)

/-- A step on the matcher that another one leaves, unless that one throws. -/
def andThen {Value Value' : Type} (step : Except NativeError Value × RegexMatcher Engine)
    (rest : Value → RegexMatcher Engine → Except NativeError Value' × RegexMatcher Engine) :
    Except NativeError Value' × RegexMatcher Engine :=
  match step with
  | (.error error, matcher) => (.error error, matcher)
  | (.ok value, matcher) => rest value matcher

/-- `bind_pattern`; `report` is `throw_regex_error`. -/
def bindPattern (pattern : RegexInput) (matcher : RegexMatcher Engine) :
    Except NativeError Unit × RegexMatcher Engine :=
  let bound := RegexMatcher.bind icu world pattern matcher
  (if !bound.1.1 || failed bound.1.2.1 then .error (report bound.1.2.1 bound.1.2.2 pattern)
    else .ok (), bound.2)

/-- What replacing all matches in a text returns. -/
def replacedText (replacement : Option (List UInt16)) (text : List UInt16)
    (matcher : RegexMatcher Engine) : (RegexReplaceResult × Option (List UInt16)) × UErrorCode :=
  match matcher.matcher with
  | none => ((.value, none), illegalArgumentError)
  | some engine =>
      let scan := replaceScan icu world replacement .all engine text
      (scan.value, scan.status)

/-- `replace_bound` on a text, with the text that becomes of it; a missing one is none. -/
def replaceBound (pattern : RegexInput) (replacement : Option (List UInt16)) (text : List UInt16)
    (matcher : RegexMatcher Engine) :
    Except NativeError (Option (List UInt16)) × RegexMatcher Engine :=
  let done := replacedText icu world replacement text matcher
  (if failed done.2 then .error (report done.2 false pattern)
    else .ok (if done.1.1 = .missing then none else done.1.2),
    (replaceText icu world replacement .all text matcher).2)

/-- The bound pattern in subject after subject; the missing ones stay as they are. -/
def replaceSubjects (pattern : RegexInput) (replacement : Option (List UInt16)) :
    List (Option (List UInt16)) → RegexMatcher Engine →
      Except NativeError (List (Option (List UInt16))) × RegexMatcher Engine
  | [], matcher => (.ok [], matcher)
  | none :: rest, matcher =>
      andThen (replaceSubjects pattern replacement rest matcher)
        fun values matcher => (.ok (none :: values), matcher)
  | some text :: rest, matcher =>
      andThen (replaceBound icu world report pattern replacement text matcher) fun value matcher =>
        andThen (replaceSubjects pattern replacement rest matcher)
          fun values matcher => (.ok (value :: values), matcher)

variable (replacements : List (Option (List UInt16)))

/-- `replace_sequential` from the pattern at `patternIndex` on, with the empty patterns
counted. -/
def replaceSequential : (patternIndex : Nat) → List RegexInput → List (Option (List UInt16)) →
    RegexMatcher Engine →
      Except NativeError (List (Option (List UInt16)) × Nat) × RegexMatcher Engine
  | _, [], subjects, matcher => (.ok (subjects, 0), matcher)
  | patternIndex, pattern :: rest, subjects, matcher =>
      if pattern.missing then (.ok (subjects.map fun _ => none, 0), matcher)
      else if pattern.length ≤ 0 then (.ok (subjects.map fun _ => none, 1), matcher)
      else
        andThen (bindPattern icu world report pattern matcher) fun _ matcher =>
          andThen (replaceSubjects icu world report pattern
              (Regex.replacementAt replacements patternIndex) subjects matcher)
            fun subjects matcher => replaceSequential (patternIndex + 1) rest subjects matcher

/-! ## On workers -/

/-- What a worker of `run_sequential` keeps from chunk to chunk: its matcher, and the warning
slot it assigns. -/
structure Worker (Engine : Type) where
  matcher : RegexMatcher Engine
  slot : Nat

variable (toUtf8 : List UInt16 → Except NativeError (List UInt8))

/-- `set_output_parallel`: the record of a value. -/
def outputRecord : Option (List UInt16) → Except NativeError (Option (List UInt8))
  | none => .ok none
  | some value => (toUtf8 value).map some

variable (patterns : List RegexInput) (subjects : List (Option (List UInt16)))

/-- A claimed chunk, on the matcher the worker has. -/
def sequentialChunk (context : WorkerContext) (worker : Worker Engine) :
    ActionResult (Worker Engine) (Option (List UInt8)) NativeError :=
  match replaceSequential icu world report replacements 0 patterns (chunkItems subjects context)
    worker.matcher with
  | (.error error, matcher) => { ending := .throws error, state := ⟨matcher, worker.slot⟩ }
  | (.ok (values, warnings), matcher) =>
      writeItems (outputRecord toUtf8) ⟨matcher, warnings⟩ context.begin values

variable (options : RegexOptions)

/-- The region: a worker makes its matcher once, and all its chunks use it. -/
def runSequential : ParallelBody (Worker Engine) (Option (List UInt8)) NativeError :=
  chunkwise (fun _ => ⟨create options, 0⟩)
    (sequentialChunk icu world report replacements toUtf8 patterns subjects) NativeError.text

/-! ## A matcher for every step -/

/-- Binding and replacing as functions: each call is made on a fresh matcher, which is bound
first where it replaces. -/
def freshMatcher : Regex.RegexMatcher RegexInput (List UInt16) where
  bind pattern := (bindPattern icu world report pattern (create options)).1
  replace pattern text replacement :=
    (replaceBound icu world report pattern replacement text
      (bindPattern icu world report pattern (create options)).2).1
  toUtf8 := toUtf8

/-- A pattern as the loop tells it apart. -/
def RegexInput.listed (pattern : RegexInput) : Regex.RegexInput RegexInput :=
  if pattern.missing then .missing else if pattern.length ≤ 0 then .empty else .text pattern

end Loop

section Steps

variable {icu : Icu World Engine} {world : World}
  {report : UErrorCode → Bool → RegexInput → NativeError} {matcher : RegexMatcher Engine}
  {pattern : RegexInput} {replacement : Option (List UInt16)} {text : List UInt16}

/-- Replacing all matches comes to an end. -/
theorem replaceScan_ended (engine : Engine) :
    (replaceScan icu world replacement .all engine text).ended = true := by
  unfold replaceScan
  cases replacement with
  | none =>
      simp only
      split
      next => rfl
      next => split <;> rfl
  | some replacement => rfl

/-- Replacing in a text neither throws nor goes on for ever. -/
theorem replaceText_returns :
    (replaceText icu world replacement .all text matcher).1 =
      .returns (replacedText icu world replacement text matcher) := by
  unfold replaceText replacedText
  cases matcher.matcher with
  | none => rfl
  | some engine =>
      simp only [settle, replaceScan_ended]
      rfl

/-- Either the pattern is still bound, or the matcher answers as a fresh one does; an engine
it has then is one of the pattern. -/
theorem bind_spec (icu : Icu World Engine) (world : World) (pattern : RegexInput)
    (matcher : RegexMatcher Engine) :
    (matcher.matcher ≠ none ∧ matcher.patternIdentity = pattern.identity ∧
        RegexMatcher.bind icu world pattern matcher = ((true, zeroError, false), matcher)) ∨
      (RegexMatcher.bind icu world pattern matcher).1 =
          (RegexMatcher.bind icu world pattern (create matcher.options)).1 ∧
        ((RegexMatcher.bind icu world pattern matcher).1.1 = false ∧
            ((RegexMatcher.bind icu world pattern matcher).2 = matcher ∨
              (RegexMatcher.bind icu world pattern matcher).2 = matcher.close) ∨
          (RegexMatcher.bind icu world pattern matcher).1.1 = true ∧
            failed (RegexMatcher.bind icu world pattern matcher).1.2.1 = false ∧
            ∃ engine, (RegexMatcher.bind icu world pattern matcher).2 =
              { matcher with matcher := some engine, patternIdentity := pattern.identity }) := by
  unfold RegexMatcher.bind
  split
  next id value hid _ =>
    split
    next => exact .inr ⟨rfl, .inl ⟨rfl, .inl rfl⟩⟩
    next =>
      simp only [create, Option.isNone_none, true_or, if_true]
      split
      next =>
        -- an engine is made: a failure to make or to limit it closes the matcher
        refine .inr ?_
        split
        next => exact ⟨rfl, .inl ⟨rfl, .inr rfl⟩⟩
        next engine status _ =>
          split
          next => exact ⟨rfl, .inl ⟨rfl, .inr rfl⟩⟩
          next =>
            split
            next => exact ⟨rfl, .inl ⟨rfl, .inr rfl⟩⟩
            next limitedEngine final hlimited =>
              refine ⟨rfl, .inr ⟨rfl, ?_, limitedEngine, by rw [hid]⟩⟩
              unfold limited at hlimited
              simp only at hlimited
              split at hlimited
              next => exact absurd (Prod.mk.inj hlimited).1 (by simp)
              split at hlimited
              next => exact absurd (Prod.mk.inj hlimited).1 (by simp)
              next hset =>
                rw [← (Prod.mk.inj hlimited).2]
                simpa using hset
      next hheld =>
        -- the pattern is bound already
        obtain ⟨hopen, hsame⟩ := not_or.mp hheld
        refine .inl ⟨by simpa using hopen, ?_, rfl⟩
        rw [hid]
        exact not_ne_iff.mp hsame
  next => exact .inr ⟨rfl, .inl ⟨rfl, .inl rfl⟩⟩

end Steps

/-! ## A matcher between the steps -/

section Shared

variable {icu : Icu World Engine} {program : Engine → Program} {naming : Naming} {world : World}
  {report : UErrorCode → Bool → RegexInput → NativeError} {options : RegexOptions}
  {patterns : List RegexInput} {matcher : RegexMatcher Engine} {pattern : RegexInput}

/-- The matcher holds what its identities denote, and an engine it has is one of a pattern of
the list that can be bound. -/
structure Ready (icu : Icu World Engine) (program : Engine → Program) (naming : Naming)
    (world : World) (report : UErrorCode → Bool → RegexInput → NativeError)
    (options : RegexOptions) (patterns : List RegexInput) (matcher : RegexMatcher Engine) :
    Prop where
  holds : matcher.Holds program naming
  options_eq : matcher.options = options
  bound : matcher.matcher ≠ none → ∃ pattern ∈ patterns,
    matcher.patternIdentity = pattern.identity ∧
      (bindPattern icu world report pattern (create options)).1 = .ok ()

/-- The pattern is the one that is bound. -/
structure BoundTo (pattern : RegexInput) (matcher : RegexMatcher Engine) : Prop where
  opened : matcher.matcher ≠ none
  identity_eq : matcher.patternIdentity = pattern.identity

theorem Ready.close (hready : Ready icu program naming world report options patterns matcher) :
    Ready icu program naming world report options patterns matcher.close :=
  ⟨hready.holds.close, hready.options_eq, fun hopened => absurd rfl hopened⟩

/-- A new matcher is ready. -/
theorem ready_create :
    Ready icu program naming world report options patterns (create options) :=
  ⟨holds_create options, rfl, fun hopened => absurd rfl hopened⟩

/-- Binding a pattern of the list gives what it gives on a fresh matcher. -/
theorem ready_bindPattern (hlaws : icu.Lawful program)
    (hconsistent : (Operation.bind pattern).Consistent naming)
    (hdistinct : ∀ other ∈ patterns, other.identity = pattern.identity → other = pattern)
    (hpattern : pattern ∈ patterns)
    (hready : Ready icu program naming world report options patterns matcher) :
    (bindPattern icu world report pattern matcher).1 =
        (bindPattern icu world report pattern (create options)).1 ∧
      Ready icu program naming world report options patterns
        (bindPattern icu world report pattern matcher).2 ∧
      ((bindPattern icu world report pattern matcher).1 = .ok () →
        BoundTo pattern (bindPattern icu world report pattern matcher).2) := by
  have hholds := bind_holds hlaws world pattern hconsistent hready.holds
  rcases bind_spec icu world pattern matcher with
    ⟨hopened, hidentity, hheld⟩ | ⟨hanswer, ⟨hrefused, hstate⟩ | ⟨hbinds, hclean, engine, hstate⟩⟩
  · obtain ⟨other, hother, hsame, hbinds⟩ := hready.bound hopened
    obtain rfl := hdistinct other hother (hsame.symm.trans hidentity)
    simp only [bindPattern, hheld] at hbinds ⊢
    exact ⟨hbinds.symm, hready, fun _ => ⟨hopened, hidentity⟩⟩
  · rw [hready.options_eq] at hanswer
    refine ⟨?_, ?_, ?_⟩
    · simp only [bindPattern, hanswer]
    · rcases hstate with hsame | hclosed
      · simp only [bindPattern, hsame]
        exact hready
      · simp only [bindPattern, hclosed]
        exact hready.close
    · intro hok
      simp [bindPattern, hrefused] at hok
  · rw [hready.options_eq] at hanswer
    have hok : (bindPattern icu world report pattern matcher).1 = .ok () := by
      simp [bindPattern, hbinds, hclean]
    have hsame : (bindPattern icu world report pattern matcher).1 =
        (bindPattern icu world report pattern (create options)).1 := by
      simp only [bindPattern, hanswer]
    refine ⟨hsame, ⟨hholds, ?_, ?_⟩, fun _ => ?_⟩
    · simp only [bindPattern, hstate, hready.options_eq]
    · intro _
      refine ⟨pattern, hpattern, ?_, hsame.symm.trans hok⟩
      simp only [bindPattern, hstate]
    · simp only [bindPattern, hstate]
      exact ⟨by simp, rfl⟩

/-- Replacing keeps the pattern bound, unless ICU fails, which closes the matcher. -/
theorem replaceText_leaves (icu : Icu World Engine) (world : World)
    (replacement : Option (List UInt16)) (text : List UInt16) (hopened : matcher.matcher ≠ none) :
    let done := replacedText icu world replacement text matcher
    let after := (replaceText icu world replacement .all text matcher).2
    after.options = matcher.options ∧
      (failed done.2 = true ∧ after.matcher = none ∨
        failed done.2 = false ∧ after.matcher ≠ none ∧
          after.patternIdentity = matcher.patternIdentity) := by
  obtain ⟨engine, hengine⟩ := Option.ne_none_iff_exists'.mp hopened
  simp only [replacedText, replaceText, hengine, settle, replaceScan_ended]
  cases failed (replaceScan icu world replacement .all engine text).status with
  | true => exact ⟨rfl, .inl ⟨rfl, rfl⟩⟩
  | false => exact ⟨rfl, .inr ⟨rfl, by simp, rfl⟩⟩

/-- Replacing with the bound pattern gives what it gives on a fresh matcher bound to it. -/
theorem ready_replaceBound (hlaws : icu.Lawful program)
    (hconsistent : (Operation.bind pattern).Consistent naming)
    (hdistinct : ∀ other ∈ patterns, other.identity = pattern.identity → other = pattern)
    (replacement : Option (List UInt16)) (text : List UInt16)
    (hready : Ready icu program naming world report options patterns matcher)
    (hbound : BoundTo pattern matcher) :
    (replaceBound icu world report pattern replacement text matcher).1 =
        (replaceBound icu world report pattern replacement text
          (bindPattern icu world report pattern (create options)).2).1 ∧
      Ready icu program naming world report options patterns
        (replaceBound icu world report pattern replacement text matcher).2 ∧
      ∀ value, (replaceBound icu world report pattern replacement text matcher).1 = .ok value →
        BoundTo pattern (replaceBound icu world report pattern replacement text matcher).2 := by
  obtain ⟨engine, hengine⟩ := Option.ne_none_iff_exists'.mp hbound.opened
  obtain ⟨other, hother, hidentity, hbinds⟩ := hready.bound hbound.opened
  obtain rfl := hdistinct other hother (hidentity.symm.trans hbound.identity_eq)
  have hopens : (RegexMatcher.bind icu world other (create matcher.options)).1.1 = true := by
    rw [hready.options_eq]
    by_contra hrefused
    simp [bindPattern, hrefused] at hbinds
  have hagree := agree_of_bind hlaws world other hconsistent hready.holds hengine
    hbound.identity_eq.symm hopens
  obtain ⟨_, fresh, hsome, hfresh, hprogram⟩ := hagree.engines
  obtain rfl := Option.some_inj.mp (hengine.symm.trans hsome)
  rw [hready.options_eq] at hfresh
  have hanswer : replacedText icu world replacement text matcher =
      replacedText icu world replacement text
        (bindPattern icu world report other (create options)).2 := by
    simp only [replacedText, hengine, bindPattern, hfresh,
      replaceScan_congr hlaws replacement .all text hprogram]
  have hholds := replaceText_holds hlaws world replacement .all text hready.holds
  obtain ⟨hoptions, hleaves⟩ := replaceText_leaves icu world replacement text hbound.opened
  refine ⟨by simp only [replaceBound, hanswer], ⟨hholds, hoptions.trans hready.options_eq, ?_⟩, ?_⟩
  · intro hopened
    rcases hleaves with ⟨-, hclosed⟩ | ⟨-, -, hkept⟩
    · exact absurd hclosed hopened
    · exact ⟨other, hother, hkept.trans hbound.identity_eq, hbinds⟩
  · intro value hvalue
    rcases hleaves with ⟨hfailed, -⟩ | ⟨-, hopened, hkept⟩
    · simp [replaceBound, hfailed] at hvalue
    · exact ⟨hopened, hkept.trans hbound.identity_eq⟩

/-! ## Runs of the loop -/

/-- What one step after another gives, and what it leaves, follows from the two steps. -/
theorem andThen_eq {Value Value' : Type} {Good : RegexMatcher Engine → Prop}
    {step : Except NativeError Value × RegexMatcher Engine}
    {rest : Value → RegexMatcher Engine → Except NativeError Value' × RegexMatcher Engine}
    {first : Except NativeError Value} {later : Value → Except NativeError Value'}
    (hfirst : step.1 = first) (hgood : Good step.2)
    (hlater : ∀ value, step.1 = .ok value →
      (rest value step.2).1 = later value ∧ Good (rest value step.2).2) :
    (andThen step rest).1 = (do later (← first)) ∧ Good (andThen step rest).2 := by
  obtain ⟨answer, matcher⟩ := step
  obtain rfl := hfirst
  cases answer with
  | error error => exact ⟨rfl, hgood⟩
  | ok value => exact hlater value rfl

/-- The patterns are what their identities denote, and no two share one. -/
structure Identified (naming : Naming) (patterns : List RegexInput) : Prop where
  consistent : ∀ pattern ∈ patterns, (Operation.bind pattern).Consistent naming
  distinct : ∀ first ∈ patterns, ∀ second ∈ patterns, first.identity = second.identity →
    first = second

variable (toUtf8 : List UInt16 → Except NativeError (List UInt8))
  (replacements : List (Option (List UInt16)))

/-- Subject after subject, the bound matcher gives what fresh ones give. -/
theorem ready_replaceSubjects (hlaws : icu.Lawful program) (hpatterns : Identified naming patterns)
    (hpattern : pattern ∈ patterns) (replacement : Option (List UInt16))
    (subjects : List (Option (List UInt16)))
    (hready : Ready icu program naming world report options patterns matcher)
    (hbound : BoundTo pattern matcher) :
    (replaceSubjects icu world report pattern replacement subjects matcher).1 =
        subjects.mapM (Regex.replaceBound (freshMatcher icu world report toUtf8 options) pattern
          replacement) ∧
      Ready icu program naming world report options patterns
        (replaceSubjects icu world report pattern replacement subjects matcher).2 := by
  induction subjects generalizing matcher with
  | nil => exact ⟨rfl, hready⟩
  | cons subject rest ih =>
      rw [List.mapM_cons]
      cases subject with
      | none =>
          obtain ⟨hanswer, hkept⟩ := ih hready hbound
          exact andThen_eq hanswer hkept fun values hvalues => ⟨rfl, hkept⟩
      | some text =>
          obtain ⟨hanswer, hkept, hstill⟩ := ready_replaceBound hlaws
            (hpatterns.consistent pattern hpattern)
            (fun other hother => hpatterns.distinct other hother pattern hpattern) replacement text
            hready hbound
          apply andThen_eq hanswer hkept
          intro value hvalue
          obtain ⟨hothers, hlast⟩ := ih hkept (hstill value hvalue)
          exact andThen_eq hothers hlast fun values hvalues => ⟨rfl, hlast⟩

/-- Pattern after pattern, the worker's matcher gives what fresh ones give. -/
theorem ready_replaceSequential (hlaws : icu.Lawful program)
    (hpatterns : Identified naming patterns) {rest : List RegexInput} (hrest : rest ⊆ patterns)
    (patternIndex : Nat) (subjects : List (Option (List UInt16)))
    (hready : Ready icu program naming world report options patterns matcher) :
    (replaceSequential icu world report replacements patternIndex rest subjects matcher).1 =
        Regex.replacePatterns (freshMatcher icu world report toUtf8 options) replacements
          patternIndex (rest.map RegexInput.listed) subjects ∧
      Ready icu program naming world report options patterns
        (replaceSequential icu world report replacements patternIndex rest subjects matcher).2 := by
  induction rest generalizing patternIndex subjects matcher with
  | nil => exact ⟨rfl, hready⟩
  | cons pattern rest ih =>
      have hpattern : pattern ∈ patterns := hrest List.mem_cons_self
      rw [replaceSequential, List.map_cons, RegexInput.listed]
      split
      next => exact ⟨rfl, hready⟩
      split
      next => exact ⟨rfl, hready⟩
      next =>
        obtain ⟨hanswer, hkept, hbound⟩ := ready_bindPattern hlaws
          (hpatterns.consistent pattern hpattern)
          (fun other hother => hpatterns.distinct other hother pattern hpattern) hpattern hready
        apply andThen_eq hanswer hkept
        intro value hvalue
        obtain ⟨hvalues, hlast⟩ := ready_replaceSubjects toUtf8 hlaws hpatterns hpattern
          (Regex.replacementAt replacements patternIndex) subjects hkept (hbound hvalue)
        apply andThen_eq hvalues hlast
        intro values _
        exact ih (fun other hother => hrest (List.mem_cons_of_mem _ hother)) _ _ hlast

/-! ## The region -/

theorem outputRecord_eq (value : Option (List UInt16)) :
    outputRecord toUtf8 value =
      Regex.outputRecord (freshMatcher icu world report toUtf8 options) value := by
  cases value <;> rfl

variable (subjects : List (Option (List UInt16)))

/-- A chunk ends, writes and assigns the slot as if every step had a matcher of its own. -/
theorem sequentialChunk_eq (hlaws : icu.Lawful program) (hpatterns : Identified naming patterns)
    (context : WorkerContext) {worker : Worker Engine}
    (hready : Ready icu program naming world report options patterns worker.matcher) :
    let shared := sequentialChunk icu world report replacements toUtf8 patterns subjects context
      worker
    let alone := Regex.sequentialChunk (freshMatcher icu world report toUtf8 options) replacements
      (patterns.map RegexInput.listed) subjects context worker.slot
    shared.ending = alone.ending ∧ shared.writes = alone.writes ∧
      shared.state.slot = alone.state ∧
      Ready icu program naming world report options patterns shared.state.matcher := by
  obtain ⟨hanswer, hkept⟩ := ready_replaceSequential toUtf8 replacements hlaws hpatterns
    (List.Subset.refl patterns) 0 (chunkItems subjects context) hready
  simp only [sequentialChunk, Regex.sequentialChunk, Regex.replaceSequential, ← hanswer]
  generalize replaceSequential icu world report replacements 0 patterns
    (chunkItems subjects context) worker.matcher = done at hkept ⊢
  obtain ⟨answer, after⟩ := done
  cases answer with
  | error error => exact ⟨rfl, rfl, rfl, hkept⟩
  | ok result =>
      have hrecords : outputRecord toUtf8 =
          Regex.outputRecord (freshMatcher icu world report toUtf8 options) :=
        funext (outputRecord_eq toUtf8)
      simp only [hrecords, writeItems_ending, writeItems_state]
      have hwrites := writeItems_map
        (Regex.outputRecord (freshMatcher icu world report toUtf8 options))
        (⟨after, result.2⟩ : Worker Engine) id result.2 context.begin result.1
      rw [List.map_id, Function.comp_id] at hwrites
      exact ⟨trivial, hwrites, trivial, hkept⟩

variable {chunk : Nat}

/-- Workers that keep their matchers do, chunk by chunk, what workers do that have a matcher
for every step. -/
theorem runSequentialSpec (hlaws : icu.Lawful program) (hpatterns : Identified naming patterns)
    (hchunk : 1 ≤ chunk) (workers : Nat) :
    BodySpec (runSequential icu world report replacements toUtf8 patterns subjects options) workers
      subjects.length chunk
      (fun _ _ worker => Ready icu program naming world report options patterns worker.matcher)
      (ChunkPost NativeError.text
        (fun number => taskEnding (Regex.chunkError
          (Regex.failureAt (freshMatcher icu world report toUtf8 options) replacements
            (patterns.map RegexInput.listed) subjects) subjects.length chunk number))
        fun number => (Regex.sequentialChunk (freshMatcher icu world report toUtf8 options)
          replacements (patterns.map RegexInput.listed) subjects
          (heldContext 1 subjects.length chunk 0 number) 0).writes) := by
  apply chunkwiseSpec
  · intro index _
    exact ready_create
  · intro index _ finished number worker hnumber _ hready
    obtain ⟨hending, hwrites, -, hkept⟩ := sequentialChunk_eq toUtf8 replacements subjects hlaws
      hpatterns (heldContext workers subjects.length chunk index number) hready
    refine ⟨?_, ?_, hkept⟩
    · rw [hending, Regex.sequentialChunk_ending, Regex.raised_chunk hchunk hnumber]
    · rw [hwrites]
      exact Regex.sequentialChunk_writes ..

variable {toUtf8 replacements subjects}

/-- However the chunks are claimed, workers that keep their matchers report the failure, and
write the records, of workers that have a matcher for every step. -/
theorem runSequential_shares_matcher (hlaws : icu.Lawful program)
    (hpatterns : Identified naming patterns) {plan : ParallelPlan} {schedule schedule' : List Nat}
    {shared : RegionEnd (Worker Engine) (Option (List UInt8)) NativeError}
    {alone : RegionEnd Nat (Option (List UInt8)) NativeError}
    (hshared : runParallel plan subjects.length
      (runSequential icu world report replacements toUtf8 patterns subjects options)
      (fun _ => none) schedule = some shared)
    (halone : runParallel plan subjects.length
      (Regex.runSequential (freshMatcher icu world report toUtf8 options) replacements
        (patterns.map RegexInput.listed) subjects) (fun _ => none) schedule' = some alone) :
    shared.outcome.message NativeError.text = alone.outcome.message NativeError.text ∧
      (shared.outcome = .returned → ∀ index < subjects.length,
        shared.final.shared.result index = alone.final.shared.result index) := by
  have hchunk := one_le_regionChunk plan
  obtain ⟨hdone, houtcome, -⟩ := completed_of_runRegion
    (runSequentialSpec toUtf8 replacements subjects hlaws hpatterns hchunk _)
    (fun number ending entries hpost => hpost.1) hshared
  obtain ⟨hdone', houtcome', -⟩ := completed_of_runRegion
    (Regex.runSequentialSpec hchunk _) (fun number ending entries hpost => hpost.1) halone
  obtain ⟨hmessage, hreturned⟩ := hdone.conclude_message
    fun number _ => taskEnding_ne_stopsEarly _
  obtain ⟨hmessage', -⟩ := hdone'.conclude_message fun number _ => taskEnding_ne_stopsEarly _
  refine ⟨?_, ?_⟩
  · rw [houtcome, houtcome']
    exact hmessage.trans hmessage'.symm
  · intro hback index hindex
    have hall := hreturned.mp (houtcome.symm.trans hback)
    exact hdone.result_congr hdone' hall
      (fun number hnumber => Regex.map_fst_sequentialChunk hchunk hnumber (hall number hnumber))
      hindex

end Shared

/-! ## Two literal patterns -/

/-- `b` and `c` -/
def literalPatterns : List RegexInput :=
  [⟨some 7, some [0x62], 1, false⟩, ⟨some 8, some [0x63], 1, false⟩]

/-- Both patterns are replaced by `x`, on matchers that the workers keep. -/
def literalShared : ParallelBody (Worker LiteralEngine) (Option (List UInt8)) NativeError :=
  runSequential literalIcu () (fun _ _ _ => .striException "regex") [some [0x78]]
    (fun text => .ok (text.map UInt16.toUInt8)) literalPatterns
    [some [0x61, 0x62], some [0x63]] ⟨0, 0, 0⟩

/-- The same on a matcher for every step. -/
def literalAlone : ParallelBody Nat (Option (List UInt8)) NativeError :=
  Regex.runSequential
    (freshMatcher literalIcu () (fun _ _ _ => .striException "regex")
      (fun text => .ok (text.map UInt16.toUInt8)) ⟨0, 0, 0⟩)
    [some [0x78]] (literalPatterns.map RegexInput.listed) [some [0x61, 0x62], some [0x63]]

/-- Two workers, each with a subject. -/
theorem runSequential_shares_matcher_literal :
    ∃ shared alone,
      runParallel ⟨2, 1⟩ 2 literalShared (fun _ => none) ((List.range 40).map (· % 2)) =
        some shared ∧
      runParallel ⟨2, 1⟩ 2 literalAlone (fun _ => none) ((List.range 40).map (· % 2)) =
        some alone ∧
      shared.outcome.message NativeError.text = alone.outcome.message NativeError.text := by
  have hpatterns : Identified
      ⟨fun _ => literalSubject, fun id => if id = 7 then [0x62] else [0x63]⟩ literalPatterns :=
    ⟨by simp [literalPatterns, Operation.Consistent], by simp [literalPatterns]⟩
  obtain ⟨shared, hshared⟩ := Option.isSome_iff_exists.mp
    (runRegion_isSome_of_fair ⟨2, 1⟩ 2 literalShared (fun _ => none) false
      ((List.range 40).map (· % 2)) (by decide))
  obtain ⟨alone, halone⟩ := Option.isSome_iff_exists.mp
    (runRegion_isSome_of_fair ⟨2, 1⟩ 2 literalAlone (fun _ => none) false
      ((List.range 40).map (· % 2)) (by decide))
  exact ⟨shared, alone, hshared, halone,
    (runSequential_shares_matcher literalIcu_lawful hpatterns hshared halone).1⟩

end Charr.RegexSearch
