import Charr.Regex.MatcherCalls

/-!
# Runs of a regex matcher

Whatever a matcher has done before, its cached subject is the one its identity denotes,
and an operation on a bound pattern gives what it gives on a fresh matcher.
-/

namespace Charr.RegexSearch

open RegexMatcher Utf8

variable {World Engine : Type}

/-! ## Bound matchers -/

/-- A matcher with a history, and a fresh one bound to its pattern. -/
structure Agree (program : Engine → Program) (matcher fresh : RegexMatcher Engine) : Prop where
  options_eq : matcher.options = fresh.options
  identity_eq : matcher.patternIdentity = fresh.patternIdentity
  forgotten : fresh.subjectIdentity = none
  engines : ∃ engine engine', matcher.matcher = some engine ∧ fresh.matcher = some engine' ∧
    program engine = program engine'

section Steps

variable {icu : Icu World Engine} {program : Engine → Program} {naming : Naming}
  {Value : Type} {Ready : SubjectCache → StringView → Prop}
  {convert : StringView → Nat → RegexMatcher Engine → RegexMatcher Engine × Except Thrown Unit}
  {scan : Engine → SubjectCache → Scan Engine Value} {matcher fresh : RegexMatcher Engine}
  {subject : StringView} {identity : Option Nat}

/-- A closed matcher holds nothing that could be wrong. -/
theorem RegexMatcher.Holds.close (hholds : matcher.Holds program naming) :
    matcher.close.Holds program naming :=
  ⟨hholds.checked, hholds.units_eq, hholds.offsets_eq,
    fun _ hengine => absurd hengine (by simp [RegexMatcher.close])⟩

/-- A scan that keeps the program keeps what the matcher holds. -/
theorem RegexMatcher.Holds.settle (hholds : matcher.Holds program naming) {engine : Engine}
    (hengine : matcher.matcher = some engine) {done : Scan Engine Value}
    (hprogram : program done.engine = program engine) :
    (settle done matcher).2.Holds program naming := by
  have hkept : RegexMatcher.Holds program naming { matcher with matcher := some done.engine } := by
    refine ⟨hholds.checked, hholds.units_eq, hholds.offsets_eq, ?_⟩
    intro other hother
    obtain rfl := Option.some_inj.mp hother
    rw [hprogram]
    exact hholds.bound engine hengine
  unfold RegexMatcher.settle
  simp only
  split
  next => exact hkept
  next =>
    split
    next => exact hkept.close
    next => exact hkept

theorem settle_fst {done done' : Scan Engine Value} (heq : done = done') :
    (settle done matcher).1 = (settle done' fresh).1 := by
  subst heq
  unfold RegexMatcher.settle
  simp only
  split <;> rfl

theorem onSubject_holds (hconversion : Conversion program naming Ready convert)
    (hscanning : Scanning program Ready scan) (refused : Value)
    (hnames : naming.Names identity subject) (hholds : matcher.Holds program naming) :
    (onSubject convert scan refused subject identity matcher).2.Holds program naming := by
  unfold onSubject
  split
  next id engine hengine =>
    split
    next => exact hholds
    next =>
      have hkept := hconversion.holds subject id matcher hnames hholds
      have hmatcher := hconversion.matcher_eq subject id matcher
      split
      next converted error heq =>
        rw [heq] at hkept
        exact hkept
      next converted heq =>
        rw [heq] at hkept hmatcher
        exact hkept.settle (hmatcher.trans hengine) (hscanning.program_eq engine _)
  next => exact hholds

/-- Both matchers fail to convert the subject with the same error, or both have it. -/
theorem Conversion.together (hconversion : Conversion program naming Ready convert) {id : Nat}
    (hnames : naming.Names (some id) subject) (hholds : matcher.Holds program naming)
    (hfresh : fresh.Holds program naming) (hforgotten : fresh.subjectIdentity = none)
    (hresource : ∀ error, (convert subject id fresh).2 = .error error →
      error.isResource = false) :
    (∃ error after after', convert subject id matcher = (after, .error error) ∧
      convert subject id fresh = (after', .error error)) ∨
    ∃ after after', convert subject id matcher = (after, .ok ()) ∧
      convert subject id fresh = (after', .ok ()) ∧ after.matcher = matcher.matcher ∧
      after'.matcher = fresh.matcher ∧ Ready after.cache subject ∧ Ready after'.cache subject := by
  have hsame := hconversion.snd_eq subject id matcher fresh hnames hholds hforgotten hresource
  cases hresult : (convert subject id fresh).2 with
  | error error =>
      exact .inl ⟨error, _, _, Prod.ext rfl (hsame.trans hresult), Prod.ext rfl hresult⟩
  | ok _ =>
      have hconverted := hsame.trans hresult
      exact .inr ⟨_, _, Prod.ext rfl hconverted, Prod.ext rfl hresult,
        hconversion.matcher_eq subject id matcher, hconversion.matcher_eq subject id fresh,
        hconversion.ready subject id matcher hnames hholds hconverted,
        hconversion.ready subject id fresh hnames hfresh hresult⟩

/-- Both matchers convert the subject alike, and work on it alike. -/
theorem onSubject_agree (hconversion : Conversion program naming Ready convert)
    (hscanning : Scanning program Ready scan) (refused : Value)
    (hnames : naming.Names identity subject) (hholds : matcher.Holds program naming)
    (hfresh : fresh.Holds program naming) (hagree : Agree program matcher fresh)
    (hresource : ∀ error, (onSubject convert scan refused subject identity fresh).1 =
      .throws error → error.isResource = false) :
    (onSubject convert scan refused subject identity matcher).1 =
      (onSubject convert scan refused subject identity fresh).1 := by
  obtain ⟨engine, engine', hengine, hengine', hsame⟩ := hagree.engines
  cases identity with
  | none => simp [onSubject]
  | some id =>
      unfold onSubject at hresource ⊢
      rw [hengine'] at hresource ⊢
      rw [hengine]
      simp only at hresource ⊢
      split
      next => rfl
      next hpresent =>
        rw [if_neg hpresent] at hresource
        have hclean : ∀ error, (convert subject id fresh).2 = .error error →
            error.isResource = false := by
          intro error herror
          apply hresource
          rw [show convert subject id fresh = (_, .error error) from Prod.ext rfl herror]
        rcases hconversion.together hnames hholds hfresh hagree.forgotten hclean with
          ⟨error, after, after', hfails, hfails'⟩ |
          ⟨after, after', hconverted, hconverted', -, -, hready, hready'⟩
        · rw [hfails, hfails']
        · rw [hconverted, hconverted']
          apply settle_fst
          exact hscanning.congr engine engine' _ _ subject hsame hready hready'

section Calls

variable {call : Call World}

/-- A positive limit is set, another one is left alone. -/
theorem withStackLimit_program (hlaws : icu.Lawful program) {world : World}
    {options : RegexOptions} {engine : Engine} {status : UErrorCode}
    (hset : failed (withStackLimit icu world options engine status).2 = false) :
    program (withStackLimit icu world options engine status).1 =
      { program engine with
        stackLimit := if 0 < options.stackLimit then some options.stackLimit
          else (program engine).stackLimit } := by
  unfold withStackLimit at hset ⊢
  split
  next hlimit =>
    rw [if_pos hlimit] at hset
    exact hlaws.setStackLimit_program _ _ _ _ hset
  next => rfl

theorem withTimeLimit_program (hlaws : icu.Lawful program) {world : World}
    {options : RegexOptions} {engine : Engine} {status : UErrorCode}
    (hset : failed (withTimeLimit icu world options engine status).2 = false) :
    program (withTimeLimit icu world options engine status).1 =
      { program engine with
        timeLimit := if 0 < options.timeLimit then some options.timeLimit
          else (program engine).timeLimit } := by
  unfold withTimeLimit at hset ⊢
  split
  next hlimit =>
    rw [if_pos hlimit] at hset
    exact hlaws.setTimeLimit_program _ _ _ _ hset
  next => rfl

/-- Limits are set on the program and change nothing else. -/
theorem limited_program (hlaws : icu.Lawful program) {world : World} {options : RegexOptions}
    {engine limitedEngine : Engine} {status final : UErrorCode}
    (hlimited : limited icu world options engine status = (some limitedEngine, final)) :
    program limitedEngine =
      { program engine with
        stackLimit := if 0 < options.stackLimit then some options.stackLimit
          else (program engine).stackLimit
        timeLimit := if 0 < options.timeLimit then some options.timeLimit
          else (program engine).timeLimit } := by
  unfold limited at hlimited
  simp only at hlimited
  split at hlimited
  next => exact absurd (Prod.mk.inj hlimited).1 (by simp)
  next hstacked =>
    split at hlimited
    next => exact absurd (Prod.mk.inj hlimited).1 (by simp)
    next htimed =>
      obtain ⟨hengine, _⟩ := Prod.mk.inj hlimited
      rw [← Option.some_inj.mp hengine, withTimeLimit_program hlaws (by simpa using htimed),
        withStackLimit_program hlaws (by simpa using hstacked)]

/-- A bound matcher runs the program of its pattern; an unbound one is closed. -/
theorem bind_cases (hlaws : icu.Lawful program) (world : World) (pattern : RegexInput)
    (hconsistent : (Operation.bind pattern).Consistent naming) :
    (bind icu world pattern matcher).2 = matcher ∨
      (bind icu world pattern matcher).2 = matcher.close ∨
      ∃ engine id, pattern.identity = some id ∧
        (bind icu world pattern matcher).2 =
          { matcher with matcher := some engine, patternIdentity := some id } ∧
        program engine = boundProgram matcher.options (naming.pattern id) := by
  unfold RegexMatcher.bind
  split
  next id value hid hvalue =>
    split
    next => exact .inl rfl
    next =>
      split
      next =>
        split
        next => exact .inr (.inl rfl)
        next engine status hcompile =>
          split
          next => exact .inr (.inl rfl)
          next hstatus =>
            split
            next => exact .inr (.inl rfl)
            next limitedEngine final hlimited =>
              refine .inr (.inr ⟨limitedEngine, id, hid, rfl, ?_⟩)
              rw [limited_program hlaws hlimited,
                hlaws.compile_program _ _ _ _ _ hcompile (by simpa using hstatus),
                hconsistent id value hid hvalue]
              rfl
      next => exact .inl rfl
  next => exact .inl rfl

/-- After binding, the matcher holds the program of the pattern. -/
theorem bind_holds (hlaws : icu.Lawful program) (world : World) (pattern : RegexInput)
    (hconsistent : (Operation.bind pattern).Consistent naming)
    (hholds : matcher.Holds program naming) :
    (bind icu world pattern matcher).2.Holds program naming := by
  rcases bind_cases hlaws world pattern hconsistent with
    hsame | hclosed | ⟨engine, id, _, hbound, hprogram⟩
  · rw [hsame]
    exact hholds
  · rw [hclosed]
    exact hholds.close
  · rw [hbound]
    refine ⟨hholds.checked, hholds.units_eq, hholds.offsets_eq, ?_⟩
    intro other hother
    obtain rfl := Option.some_inj.mp hother
    exact ⟨id, rfl, hprogram⟩

/-- Replacing in a text keeps what the matcher holds. -/
theorem replaceText_holds (hlaws : icu.Lawful program) (world : World)
    (replacement : Option (List UInt16)) (mode : RegexReplaceMode) (text : List UInt16)
    (hholds : matcher.Holds program naming) :
    (replaceText icu world replacement mode text matcher).2.Holds program naming := by
  unfold RegexMatcher.replaceText
  split
  next => exact hholds
  next engine hengine =>
    exact hholds.settle hengine (replaceScan_program hlaws replacement mode engine text)

theorem replace_holds (hlaws : icu.Lawful program) (world : World)
    (replacement : Option (List UInt16)) (mode : RegexReplaceMode)
    (hnames : naming.Names identity subject) (hholds : matcher.Holds program naming) :
    (replace icu world subject identity replacement mode matcher).2.Holds program naming := by
  unfold RegexMatcher.replace
  split
  next => exact hholds
  next id =>
    split
    next => exact hholds
    next =>
      have hconversion : Conversion program naming HasText (convertText icu world) :=
        convertText_conversion hlaws
      have hkept := hconversion.holds subject id matcher hnames hholds
      split
      next converted error heq =>
        rw [heq] at hkept
        exact hkept
      next converted heq =>
        rw [heq] at hkept
        exact replaceText_holds hlaws world replacement mode _ hkept

theorem split_holds (hlaws : icu.Lawful program) (world : World) (fuel : Nat) (n : Int)
    (omitEmpty tokensOnly : Bool) (hnames : naming.Names identity subject)
    (hholds : matcher.Holds program naming) :
    (split icu world fuel subject identity n omitEmpty tokensOnly matcher).2.Holds program
      naming := by
  unfold RegexMatcher.split
  split
  next => exact hholds
  next =>
    split
    next => exact hholds
    next =>
      split
      next => exact hholds
      next =>
        simp only
        split
        next =>
          exact onSubject_holds convertOffsets_conversion
            (scanning_splitDefault hlaws fuel subject.len) [] hnames hholds
        next =>
          exact onSubject_holds convertOffsets_conversion
            (scanning_split hlaws fuel subject.len n omitEmpty tokensOnly) [] hnames hholds

/-- Every operation keeps the cache and the engine what their identities say. -/
theorem perform_holds (hlaws : icu.Lawful program)
    (hconsistent : call.operation.Consistent naming)
    (hholds : matcher.Holds program naming) :
    (perform icu call matcher).2.Holds program naming := by
  obtain ⟨world, fuel, operation⟩ := call
  cases operation with
  | bind pattern => exact bind_holds hlaws world pattern hconsistent hholds
  | resetOptions options =>
      exact ⟨by simp [perform, resetOptions], by simp [perform, resetOptions],
        by simp [perform, resetOptions], by simp [perform, resetOptions, RegexMatcher.close]⟩
  | contains subject identity =>
      exact onSubject_holds (convertText_conversion hlaws) (scanning_contains hlaws) false
        hconsistent hholds
  | count subject identity =>
      exact onSubject_holds (convertText_conversion hlaws) (scanning_count hlaws fuel) 0
        hconsistent hholds
  | findFirst subject identity =>
      exact onSubject_holds convertOffsets_conversion (scanning_findFirst hlaws) _
        hconsistent hholds
  | findAll subject identity =>
      exact onSubject_holds convertOffsets_conversion (scanning_findAll hlaws fuel) _
        hconsistent hholds
  | findFirstWithCaptures subject identity =>
      exact onSubject_holds convertOffsets_conversion (scanning_findFirstCaptures hlaws) _
        hconsistent hholds
  | findAllWithCaptures subject identity =>
      exact onSubject_holds convertOffsets_conversion (scanning_findAllCaptures hlaws fuel) _
        hconsistent hholds
  | split subject identity n omitEmpty tokensOnly =>
      exact split_holds hlaws world fuel n omitEmpty tokensOnly hconsistent hholds
  | splitDefault subject identity =>
      exact onSubject_holds convertOffsets_conversion
        (scanning_splitDefault hlaws fuel subject.len) _ hconsistent hholds
  | replace subject identity replacement mode =>
      exact replace_holds hlaws world replacement mode hconsistent hholds
  | replaceText text replacement mode =>
      exact replaceText_holds hlaws world replacement mode text hholds

/-- A new matcher holds nothing. -/
theorem holds_create (options : RegexOptions) :
    (create options : RegexMatcher Engine).Holds program naming :=
  ⟨by simp [create], by simp [create], by simp [create], by simp [create]⟩

/-- After any calls the matcher holds what its identities denote. -/
theorem run_holds (hlaws : icu.Lawful program) (calls : List (Call World))
    (hconsistent : ∀ call ∈ calls, call.operation.Consistent naming)
    (hholds : matcher.Holds program naming) : (run icu calls matcher).Holds program naming := by
  induction calls generalizing matcher with
  | nil => exact hholds
  | cons call rest ih =>
      apply ih
      · exact fun other hother => hconsistent other (List.mem_cons_of_mem _ hother)
      · exact perform_holds hlaws (hconsistent call List.mem_cons_self) hholds

/-! ## A fresh matcher -/

theorem Outcome.map_eq_throws {Value' : Type} {convert : Value → Value'} {outcome : Outcome Value}
    {error : Thrown} : outcome.map convert = .throws error ↔ outcome = .throws error := by
  cases outcome <;> simp [Outcome.map]

/-- Answers agree if the outcomes do; what they throw is the same. -/
theorem answered_agree {answer : Value → Answer}
    {done done' : Outcome Value × RegexMatcher Engine}
    (hagree : (∀ error, done'.1 = .throws error → error.isResource = false) → done.1 = done'.1)
    (hresource : ∀ error, (answered answer done').1 = .throws error → error.isResource = false) :
    (answered answer done).1 = (answered answer done').1 := by
  have heq : done.1 = done'.1 := by
    apply hagree
    intro error hthrown
    exact hresource error (Outcome.map_eq_throws.mpr hthrown)
  rw [answered, heq, answered]

/-- Matchers that agree bind alike. -/
theorem bind_agree (world : World) (pattern : RegexInput) (hagree : Agree program matcher fresh) :
    (bind icu world pattern matcher).1 = (bind icu world pattern fresh).1 := by
  obtain ⟨engine, engine', hengine, hengine', _⟩ := hagree.engines
  unfold RegexMatcher.bind
  rw [hengine, hengine', hagree.identity_eq, hagree.options_eq]
  split
  next =>
    split
    next => rfl
    next =>
      simp only [Option.isNone_some]
      split
      next =>
        split
        next => rfl
        next =>
          split
          next => rfl
          next => split <;> rfl
      next => rfl
  next => rfl

/-- Matchers that agree replace alike in a text. -/
theorem replaceText_agree (hlaws : icu.Lawful program) (world : World)
    (replacement : Option (List UInt16)) (mode : RegexReplaceMode) (text : List UInt16)
    {engine engine' : Engine} (hengine : matcher.matcher = some engine)
    (hengine' : fresh.matcher = some engine') (hsame : program engine = program engine') :
    (replaceText icu world replacement mode text matcher).1 =
      (replaceText icu world replacement mode text fresh).1 := by
  unfold RegexMatcher.replaceText
  rw [hengine, hengine']
  exact settle_fst (replaceScan_congr hlaws replacement mode text hsame)

theorem replace_agree (hlaws : icu.Lawful program) (world : World)
    (replacement : Option (List UInt16)) (mode : RegexReplaceMode)
    (hnames : naming.Names identity subject) (hholds : matcher.Holds program naming)
    (hfresh : fresh.Holds program naming) (hagree : Agree program matcher fresh)
    (hresource : ∀ error, (replace icu world subject identity replacement mode fresh).1 =
      .throws error → error.isResource = false) :
    (replace icu world subject identity replacement mode matcher).1 =
      (replace icu world subject identity replacement mode fresh).1 := by
  obtain ⟨engine, engine', hengine, hengine', hsame⟩ := hagree.engines
  have hconversion : Conversion program naming HasText (convertText icu world) :=
    convertText_conversion hlaws
  cases identity with
  | none => rfl
  | some id =>
      unfold RegexMatcher.replace at hresource ⊢
      simp only at hresource ⊢
      split
      next => rfl
      next hpresent =>
        rw [if_neg hpresent] at hresource
        have hclean : ∀ error, (convertText icu world subject id fresh).2 = .error error →
            error.isResource = false := by
          intro error herror
          apply hresource
          rw [show convertText icu world subject id fresh = (_, .error error) from
            Prod.ext rfl herror]
        rcases hconversion.together hnames hholds hfresh hagree.forgotten hclean with
          ⟨error, after, after', hfails, hfails'⟩ |
          ⟨after, after', hconverted, hconverted', hkept, hkept', hready, hready'⟩
        · rw [hfails, hfails']
        · have hunits : after.cache.units = after'.cache.units := hready.trans hready'.symm
          rw [hconverted, hconverted']
          simp only [hunits]
          exact replaceText_agree hlaws world replacement mode _ (hkept.trans hengine)
            (hkept'.trans hengine') hsame

theorem split_agree (hlaws : icu.Lawful program) (world : World) (fuel : Nat) (n : Int)
    (omitEmpty tokensOnly : Bool) (hnames : naming.Names identity subject)
    (hholds : matcher.Holds program naming) (hfresh : fresh.Holds program naming)
    (hagree : Agree program matcher fresh)
    (hresource : ∀ error, (split icu world fuel subject identity n omitEmpty tokensOnly fresh).1 =
      .throws error → error.isResource = false) :
    (split icu world fuel subject identity n omitEmpty tokensOnly matcher).1 =
      (split icu world fuel subject identity n omitEmpty tokensOnly fresh).1 := by
  obtain ⟨engine, engine', hengine, hengine', _⟩ := hagree.engines
  unfold RegexMatcher.split at hresource ⊢
  rw [hengine'] at hresource ⊢
  rw [hengine]
  simp only [Option.isNone_some] at hresource ⊢
  split
  next => rfl
  next hgiven =>
    rw [if_neg hgiven] at hresource
    split
    next => rfl
    next hlimit =>
      rw [if_neg hlimit] at hresource
      split
      next => rfl
      next hsome =>
        rw [if_neg hsome] at hresource
        simp only [Outcome.map_eq_throws] at hresource
        refine congrArg (Outcome.map _) ?_
        split
        next hdefault =>
          rw [if_pos hdefault] at hresource
          exact onSubject_agree convertOffsets_conversion
            (scanning_splitDefault hlaws fuel subject.len) [] hnames hholds hfresh hagree hresource
        next hdefault =>
          rw [if_neg hdefault] at hresource
          exact onSubject_agree convertOffsets_conversion
            (scanning_split hlaws fuel subject.len n omitEmpty tokensOnly) [] hnames hholds hfresh
            hagree hresource

/-- On a fresh matcher every operation gives what it gives on one with a history. -/
theorem perform_agree (hlaws : icu.Lawful program)
    (hconsistent : call.operation.Consistent naming)
    (hholds : matcher.Holds program naming) (hfresh : fresh.Holds program naming)
    (hagree : Agree program matcher fresh)
    (hresource : ∀ error, (perform icu call fresh).1 = .throws error → error.isResource = false) :
    (perform icu call matcher).1 = (perform icu call fresh).1 := by
  obtain ⟨world, fuel, operation⟩ := call
  cases operation with
  | bind pattern => simp only [perform, bind_agree world pattern hagree]
  | resetOptions options => rfl
  | contains subject identity =>
      exact answered_agree (onSubject_agree (convertText_conversion hlaws)
        (scanning_contains hlaws) false hconsistent hholds hfresh hagree) hresource
  | count subject identity =>
      exact answered_agree (onSubject_agree (convertText_conversion hlaws)
        (scanning_count hlaws fuel) 0 hconsistent hholds hfresh hagree) hresource
  | findFirst subject identity =>
      exact answered_agree (onSubject_agree convertOffsets_conversion
        (scanning_findFirst hlaws) _ hconsistent hholds hfresh hagree) hresource
  | findAll subject identity =>
      exact answered_agree (onSubject_agree convertOffsets_conversion
        (scanning_findAll hlaws fuel) _ hconsistent hholds hfresh hagree) hresource
  | findFirstWithCaptures subject identity =>
      exact answered_agree (onSubject_agree convertOffsets_conversion
        (scanning_findFirstCaptures hlaws) _ hconsistent hholds hfresh hagree) hresource
  | findAllWithCaptures subject identity =>
      exact answered_agree (onSubject_agree convertOffsets_conversion
        (scanning_findAllCaptures hlaws fuel) _ hconsistent hholds hfresh hagree) hresource
  | split subject identity n omitEmpty tokensOnly =>
      exact answered_agree (split_agree hlaws world fuel n omitEmpty tokensOnly hconsistent hholds
        hfresh hagree) hresource
  | splitDefault subject identity =>
      exact answered_agree (onSubject_agree convertOffsets_conversion
        (scanning_splitDefault hlaws fuel subject.len) _ hconsistent hholds hfresh hagree) hresource
  | replace subject identity replacement mode =>
      exact answered_agree (replace_agree hlaws world replacement mode hconsistent hholds hfresh
        hagree) hresource
  | replaceText text replacement mode =>
      obtain ⟨engine, engine', hengine, hengine', hsame⟩ := hagree.engines
      exact answered_agree (fun _ => replaceText_agree hlaws world replacement mode text hengine
        hengine' hsame) hresource

/-- A pattern that is bound leaves an engine. -/
theorem bind_matcher_ne_none {world : World} {pattern : RegexInput}
    (hbound : (bind icu world pattern matcher).1.1 = true) :
    (bind icu world pattern matcher).2.matcher ≠ none := by
  unfold RegexMatcher.bind at hbound ⊢
  split
  next id value hid hvalue =>
    rw [hid, hvalue] at hbound
    simp only at hbound
    split
    next hrefused =>
      rw [if_pos hrefused] at hbound
      exact absurd hbound Bool.false_ne_true
    next hrefused =>
      rw [if_neg hrefused] at hbound
      split
      next hstale =>
        rw [if_pos hstale] at hbound
        split
        next status hcompile =>
          rw [hcompile] at hbound
          exact absurd hbound Bool.false_ne_true
        next engine status hcompile =>
          rw [hcompile] at hbound
          simp only at hbound
          split
          next hstatus =>
            rw [if_pos hstatus] at hbound
            exact absurd hbound Bool.false_ne_true
          next hstatus =>
            rw [if_neg hstatus] at hbound
            split
            next final hlimited =>
              rw [hlimited] at hbound
              exact absurd hbound Bool.false_ne_true
            next => simp
      next hstale =>
        obtain ⟨hopen, _⟩ := not_or.mp hstale
        simpa using hopen
  next hgiven =>
    split at hbound
    next id value hid hvalue => exact absurd hvalue (hgiven id value hid)
    next => exact absurd hbound Bool.false_ne_true

/-- A fresh matcher bound to the pattern of another one runs its program. -/
theorem agree_of_bind (hlaws : icu.Lawful program) (world : World) (pattern : RegexInput)
    (hconsistent : (Operation.bind pattern).Consistent naming)
    (hholds : matcher.Holds program naming) {engine : Engine}
    (hengine : matcher.matcher = some engine)
    (hidentity : pattern.identity = matcher.patternIdentity)
    (hbound : (bind icu world pattern (create matcher.options)).1.1 = true) :
    Agree program matcher (bind icu world pattern (create matcher.options)).2 := by
  obtain ⟨id, hid, hprogram⟩ := hholds.bound engine hengine
  have hopen := bind_matcher_ne_none hbound
  have hcases := @bind_cases _ _ icu program naming (create matcher.options) hlaws world pattern
    hconsistent
  rcases hcases with hsame | hclosed | ⟨other, otherId, hotherId, hother, hotherProgram⟩
  · rw [hsame] at hopen
    exact absurd rfl hopen
  · rw [hclosed] at hopen
    exact absurd rfl hopen
  · rw [hother]
    have hsameId : id = otherId := by
      have := hotherId.symm.trans (hidentity.trans hid)
      exact (Option.some_inj.mp this).symm
    subst hsameId
    exact ⟨rfl, hid, rfl, engine, other, hengine, rfl, hprogram.trans hotherProgram.symm⟩

end Calls

end Steps

/-! ## Patterns of literal characters -/

/-- An engine for patterns without metacharacters: where the search goes on, and the
match it is at. -/
structure LiteralEngine where
  program : Program
  subject : List UInt16
  position : Nat
  found : Option Nat
  deriving DecidableEq, Repr

namespace LiteralEngine

/-- The literal stands at the position. -/
def occurs (engine : LiteralEngine) (index : Nat) : Bool :=
  engine.program.pattern.isPrefixOf (engine.subject.drop index)

/-- The first occurrence that is not before the position. -/
def next (engine : LiteralEngine) : Option Nat :=
  (List.range' engine.position (engine.subject.length + 1 - engine.position)).find? engine.occurs

/-- Go to the next occurrence. -/
def find (engine : LiteralEngine) : LiteralEngine :=
  { engine with
    position := (engine.next.map (· + engine.program.pattern.length)).getD engine.position
    found := engine.next }

/-- What is left of the subject with its occurrences replaced. -/
def replaceRest (replacement : List UInt16) : (fuel : Nat) → LiteralEngine → List UInt16
  | 0, engine => engine.subject.drop engine.position
  | fuel + 1, engine =>
      match engine.next with
      | none => engine.subject.drop engine.position
      | some index =>
          (engine.subject.drop engine.position).take (index - engine.position) ++ replacement ++
            replaceRest replacement fuel engine.find

/-- `U_REGEX_INVALID_STATE` -/
def invalidState : UErrorCode := 66306

/-- One end of the match the engine is at. -/
def bound (engine : LiteralEngine) (group : Nat) (status : UErrorCode) (behind : Nat) :
    Int × UErrorCode :=
  if failed status then (-1, status)
  else
    match engine.found, group with
    | none, _ => (-1, invalidState)
    | some index, 0 => (index + behind, status)
    | some _, _ + 1 => (-1, indexOutOfBoundsError)

end LiteralEngine

/-- ICU with room for everything. -/
def literalIcu : Icu Unit LiteralEngine where
  getBuffer _ _ := true
  resizeOffsets _ _ := true
  strFromUtf8WithSub _ text := (utf16 text, zeroError)
  compile _ pattern flags := (some ⟨⟨pattern, flags, none, none⟩, [], 0, none⟩, zeroError)
  setStackLimit _ engine limit status :=
    ({ engine with program := { engine.program with stackLimit := some limit } }, status)
  setTimeLimit _ engine limit status :=
    ({ engine with program := { engine.program with timeLimit := some limit } }, status)
  reset _ engine subject := ⟨engine.program, subject, 0, none⟩
  find _ engine status :=
    if failed status then (engine, false, status) else (engine.find, engine.next.isSome, status)
  start engine group status := engine.bound group status 0
  stop engine group status := engine.bound group status engine.program.pattern.length
  groupCount _ := 0
  replaceAll _ engine replacement status :=
    if failed status then (engine, [], status)
    else (engine, engine.replaceRest replacement engine.subject.length, status)
  appendReplacement _ engine output replacement status :=
    if failed status then (engine, output, status)
    else
      match engine.found with
      | none => (engine, output, LiteralEngine.invalidState)
      | some index => (engine, output ++ engine.subject.take index ++ replacement, status)
  appendTail _ engine output := (engine, output ++ engine.subject.drop engine.position)

/-- An engine for literal patterns keeps the laws. -/
theorem literalIcu_lawful : literalIcu.Lawful LiteralEngine.program where
  converts _ _ _ := rfl
  compile_program _ pattern flags engine status hcompile _ := by
    obtain ⟨hengine, _⟩ := Prod.mk.inj hcompile
    rw [← Option.some_inj.mp hengine]
  setStackLimit_program _ _ _ _ _ := rfl
  setTimeLimit_program _ _ _ _ _ := rfl
  reset_program _ _ _ := rfl
  find_program _ engine status := by
    simp only [literalIcu]
    split <;> rfl
  replaceAll_program _ engine replacement status := by
    simp only [literalIcu]
    split <;> rfl
  appendReplacement_program _ engine output replacement status := by
    simp only [literalIcu]
    split
    next => rfl
    next => split <;> rfl
  appendTail_program _ _ _ := rfl
  reset_congr _ engine engine' subject hsame := by simp only [literalIcu, hsame]
  groupCount_congr _ _ _ := rfl

/-- `abcb` -/
def literalSubject : StringView :=
  ⟨.bytes ⟨16, [0x61, 0x62, 0x63, 0x62], by decide⟩, .ascii⟩

/-- `b` -/
def literalPattern : RegexInput := ⟨some 7, some [0x62], 1, false⟩

/-- A pattern is bound, and counted in a subject. -/
def literalCalls : List (Call Unit) :=
  [⟨(), 8, .bind literalPattern⟩, ⟨(), 8, .count literalSubject (some 3)⟩]

end Charr.RegexSearch
