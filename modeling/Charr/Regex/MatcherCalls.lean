import Charr.Regex.Matcher

/-!
# Calls on a regex matcher

The operations as one type of calls, what is relied on of ICU, and the invariant of a
matcher between calls. Converting a subject keeps it, and working on a converted subject
depends on the pattern and the subject only.
-/

namespace Charr.RegexSearch

open RegexMatcher

variable {World Engine : Type}

/-- A pattern with its flags and limits: what a reset leaves of an engine. -/
structure Program where
  pattern : List UInt16
  flags : UInt32
  stackLimit : Option Int
  timeLimit : Option Int
  deriving DecidableEq, Repr

/-- What is relied on of ICU. A reset engine depends on its program and the subject
only, and nothing but its limits changes a program. -/
structure Icu.Lawful (icu : Icu World Engine) (program : Engine → Program) : Prop where
  converts : icu.toPlatform.Converts
  compile_program : ∀ world pattern flags engine status,
    icu.compile world pattern flags = (some engine, status) → failed status = false →
      program engine = ⟨pattern, flags, none, none⟩
  setStackLimit_program : ∀ world engine limit status,
    failed (icu.setStackLimit world engine limit status).2 = false →
      program (icu.setStackLimit world engine limit status).1 =
        { program engine with stackLimit := some limit }
  setTimeLimit_program : ∀ world engine limit status,
    failed (icu.setTimeLimit world engine limit status).2 = false →
      program (icu.setTimeLimit world engine limit status).1 =
        { program engine with timeLimit := some limit }
  reset_program : ∀ world engine subject,
    program (icu.reset world engine subject) = program engine
  find_program : ∀ world engine status, program (icu.find world engine status).1 = program engine
  replaceAll_program : ∀ world engine replacement status,
    program (icu.replaceAll world engine replacement status).1 = program engine
  appendReplacement_program : ∀ world engine output replacement status,
    program (icu.appendReplacement world engine output replacement status).1 = program engine
  appendTail_program : ∀ world engine output,
    program (icu.appendTail world engine output).1 = program engine
  reset_congr : ∀ world engine engine' subject, program engine = program engine' →
    icu.reset world engine subject = icu.reset world engine' subject
  groupCount_congr : ∀ engine engine', program engine = program engine' →
    icu.groupCount engine = icu.groupCount engine'

/-- The operations of a matcher, with what they are called with. -/
inductive Operation where
  | bind (pattern : RegexInput)
  | resetOptions (options : RegexOptions)
  | contains (subject : StringView) (identity : Option Nat)
  | count (subject : StringView) (identity : Option Nat)
  | findFirst (subject : StringView) (identity : Option Nat)
  | findAll (subject : StringView) (identity : Option Nat)
  | findFirstWithCaptures (subject : StringView) (identity : Option Nat)
  | findAllWithCaptures (subject : StringView) (identity : Option Nat)
  | split (subject : StringView) (identity : Option Nat) (n : Int) (omitEmpty tokensOnly : Bool)
  | splitDefault (subject : StringView) (identity : Option Nat)
  | replace (subject : StringView) (identity : Option Nat) (replacement : Option (List UInt16))
      (mode : RegexReplaceMode)
  | replaceText (subject : List UInt16) (replacement : Option (List UInt16))
      (mode : RegexReplaceMode)

/-- What the operations give back. -/
inductive Answer where
  | bound (value : Bool × UErrorCode × Bool)
  | done
  | contained (value : Bool × UErrorCode)
  | counted (value : Nat × UErrorCode)
  | first (value : (Bool × Option RegexRange) × UErrorCode)
  | ranges (value : List RegexRange × UErrorCode)
  | firstCaptures (value : (Bool × Option RegexRange × List RegexRange) × UErrorCode)
  | allCaptures (value : (List RegexRange × List (List RegexRange)) × UErrorCode)
  | fields (value : (RegexSplitResult × List RegexRange) × UErrorCode)
  | replaced (value : (RegexReplaceResult × Option (List UInt16)) × UErrorCode)
  deriving DecidableEq, Repr

/-- An operation, how ICU and the allocator behave during it, and the fuel it gets. -/
structure Call (World : Type) where
  world : World
  fuel : Nat
  operation : Operation

/-- A call with its answer among the answers of all calls. -/
def answered {Value : Type} (answer : Value → Answer)
    (done : Outcome Value × RegexMatcher Engine) : Outcome Answer × RegexMatcher Engine :=
  (done.1.map answer, done.2)

/-- A call: its answer, and the matcher it leaves. -/
def perform (icu : Icu World Engine) (call : Call World) (matcher : RegexMatcher Engine) :
    Outcome Answer × RegexMatcher Engine :=
  match call.operation with
  | .bind pattern =>
      let bound := bind icu call.world pattern matcher
      (.returns (.bound bound.1), bound.2)
  | .resetOptions options => (.returns .done, matcher.resetOptions options)
  | .contains subject identity =>
      answered .contained (contains icu call.world subject identity matcher)
  | .count subject identity =>
      answered .counted (count icu call.world call.fuel subject identity matcher)
  | .findFirst subject identity =>
      answered .first (findFirst icu call.world subject identity matcher)
  | .findAll subject identity =>
      answered .ranges (findAll icu call.world call.fuel subject identity matcher)
  | .findFirstWithCaptures subject identity =>
      answered .firstCaptures (findFirstWithCaptures icu call.world subject identity matcher)
  | .findAllWithCaptures subject identity =>
      answered .allCaptures
        (findAllWithCaptures icu call.world call.fuel subject identity matcher)
  | .split subject identity n omitEmpty tokensOnly =>
      answered .fields
        (split icu call.world call.fuel subject identity n omitEmpty tokensOnly matcher)
  | .splitDefault subject identity =>
      answered .ranges (splitDefault icu call.world call.fuel subject identity matcher)
  | .replace subject identity replacement mode =>
      answered .replaced (replace icu call.world subject identity replacement mode matcher)
  | .replaceText subject replacement mode =>
      answered .replaced (replaceText icu call.world replacement mode subject matcher)

/-- The matcher that calls leave, one after another. -/
def run (icu : Icu World Engine) (calls : List (Call World)) (matcher : RegexMatcher Engine) :
    RegexMatcher Engine :=
  calls.foldl (fun matcher call => (perform icu call matcher).2) matcher

/-- What identities denote: subjects, wherever their bytes are, and patterns. -/
structure Naming where
  subject : Nat → StringView
  pattern : Nat → List UInt16

/-- An identity stands for one text, wherever that is stored. -/
def Naming.Names (naming : Naming) (identity : Option Nat) (subject : StringView) :
    Prop :=
  ∀ id, identity = some id → (naming.subject id).unplaced = subject.unplaced

/-- The identities that a call passes stand for what it passes with them. -/
def Operation.Consistent (naming : Naming) : Operation → Prop
  | .bind pattern => ∀ id value, pattern.identity = some id → pattern.value = some value →
      value = naming.pattern id
  | .resetOptions _ => True
  | .contains subject identity => naming.Names identity subject
  | .count subject identity => naming.Names identity subject
  | .findFirst subject identity => naming.Names identity subject
  | .findAll subject identity => naming.Names identity subject
  | .findFirstWithCaptures subject identity => naming.Names identity subject
  | .findAllWithCaptures subject identity => naming.Names identity subject
  | .split subject identity _ _ _ => naming.Names identity subject
  | .splitDefault subject identity => naming.Names identity subject
  | .replace subject identity _ _ => naming.Names identity subject
  | .replaceText _ _ _ => True

/-- The program a pattern is bound to. -/
def boundProgram (options : RegexOptions) (pattern : List UInt16) : Program where
  pattern := pattern
  flags := options.flags
  stackLimit := if 0 < options.stackLimit then some options.stackLimit else none
  timeLimit := if 0 < options.timeLimit then some options.timeLimit else none

/-- The cached subject is the one its identity denotes, with its offsets if they are
valid, and the engine is that of the bound pattern. -/
structure RegexMatcher.Holds (program : Engine → Program) (naming : Naming)
    (matcher : RegexMatcher Engine) : Prop where
  checked : ∀ id, matcher.subjectIdentity = some id →
    checkView (naming.subject id) = .ok ()
  units_eq : ∀ id, matcher.subjectIdentity = some id →
    matcher.cache.units = subjectUnits (naming.subject id)
  offsets_eq : ∀ id, matcher.subjectIdentity = some id → matcher.byteOffsetsValid →
    matcher.cache.byteOffsets = subjectOffsets (naming.subject id) ∧
      matcher.cache.ascii = isAscii (naming.subject id)
  bound : ∀ engine, matcher.matcher = some engine → ∃ id, matcher.patternIdentity = some id ∧
    program engine = boundProgram matcher.options (naming.pattern id)

/-- The allocator or the conversion gave up, which nothing about the subject decides. -/
def Thrown.isResource : Thrown → Bool
  | .native (.runtimeError _) => true
  | .native _ => false
  | .badAlloc => true

/-! ## Views that denote the same subject -/

section Views

variable {first second : StringView}

/-- Where a view is stored does not matter to its check. -/
theorem checkView_unplaced (source : StringView) :
    checkView source.unplaced = checkView source := by
  simp [checkView]

theorem isAscii_unplaced (source : StringView) : isAscii source.unplaced = isAscii source := by
  simp [isAscii]

theorem subjectUnits_unplaced (source : StringView) :
    subjectUnits source.unplaced = subjectUnits source := by
  simp [subjectUnits]

theorem subjectOffsets_unplaced (source : StringView) :
    subjectOffsets source.unplaced = subjectOffsets source := by
  simp [subjectOffsets, isAscii_unplaced]

theorem checkView_congr (hsame : first.unplaced = second.unplaced) :
    checkView first = checkView second := by
  rw [← checkView_unplaced, hsame, checkView_unplaced]

theorem isAscii_congr (hsame : first.unplaced = second.unplaced) :
    isAscii first = isAscii second := by
  rw [← isAscii_unplaced, hsame, isAscii_unplaced]

/-- Equal texts have equal units. -/
theorem subjectUnits_congr (hsame : first.unplaced = second.unplaced) :
    subjectUnits first = subjectUnits second := by
  rw [← subjectUnits_unplaced, hsame, subjectUnits_unplaced]

theorem subjectOffsets_congr (hsame : first.unplaced = second.unplaced) :
    subjectOffsets first = subjectOffsets second := by
  rw [← subjectOffsets_unplaced, hsame, subjectOffsets_unplaced]

end Views

/-! ## Converting -/

section Converting

variable {platform : Platform World} {world : World} {source : StringView}

/-- Whether a conversion returns does not depend on what it writes over. -/
theorem setUtf16_snd (output output' : List UInt16) :
    (setUtf16 platform world output source).2 = (setUtf16 platform world output' source).2 := by
  unfold setUtf16
  split
  next => rfl
  next => rfl

/-- Whether a subject can be set does not depend on the cache. -/
theorem setUtf16WithOffsets_snd (cache cache' : SubjectCache) :
    (setUtf16WithOffsets platform world cache source).2 =
      (setUtf16WithOffsets platform world cache' source).2 := by
  unfold setUtf16WithOffsets
  split
  next => rfl
  next =>
    simp only
    split
    next => rfl
    next =>
      split
      next => rfl
      next =>
        split
        next => rfl
        next =>
          cases isAscii source <;> rfl

/-- A checked view is converted, unless the allocator or ICU gives up. -/
theorem setUtf16_cases (output : List UInt16) :
    checkView source = .ok () ∧ (setUtf16 platform world output source).2 = .ok () ∨
      (∃ error, (setUtf16 platform world output source).2 = .error error ∧
        (checkView source = .error error ∨ checkView source = .ok () ∧ error.isResource)) := by
  unfold setUtf16
  split
  next error hcheck => exact .inr ⟨error, rfl, .inl hcheck⟩
  next hcheck =>
    split
    next => exact .inl ⟨hcheck, rfl⟩
    next =>
      split
      next => exact .inr ⟨.badAlloc, rfl, .inr ⟨hcheck, rfl⟩⟩
      next =>
        split
        next => exact .inl ⟨hcheck, rfl⟩
        next =>
          simp only
          split
          next => exact .inr ⟨_, rfl, .inr ⟨hcheck, rfl⟩⟩
          next => exact .inl ⟨hcheck, rfl⟩

/-- A subject is set if it passes the check and memory does not run out. -/
theorem setUtf16WithOffsets_cases (cache : SubjectCache) :
    checkView source = .ok () ∧ (setUtf16WithOffsets platform world cache source).2 = .ok () ∨
      (∃ error, (setUtf16WithOffsets platform world cache source).2 = .error error ∧
        (checkView source = .error error ∨ checkView source = .ok () ∧ error.isResource)) := by
  unfold setUtf16WithOffsets
  split
  next error hcheck => exact .inr ⟨error, rfl, .inl hcheck⟩
  next hcheck =>
    simp only
    split
    next => exact .inl ⟨hcheck, rfl⟩
    next =>
      split
      next => exact .inr ⟨.badAlloc, rfl, .inr ⟨hcheck, rfl⟩⟩
      next =>
        split
        next => exact .inr ⟨.badAlloc, rfl, .inr ⟨hcheck, rfl⟩⟩
        next =>
          split
          next => exact .inl ⟨hcheck, rfl⟩
          next => exact .inl ⟨hcheck, rfl⟩

end Converting

/-- What both ways to convert a subject do to a matcher. `Ready` is what they promise
of the cache when they return. -/
structure Conversion (program : Engine → Program) (naming : Naming)
    (Ready : SubjectCache → StringView → Prop)
    (convert : StringView → Nat → RegexMatcher Engine → RegexMatcher Engine × Except Thrown Unit) :
    Prop where
  matcher_eq : ∀ subject id matcher, (convert subject id matcher).1.matcher = matcher.matcher
  holds : ∀ subject id matcher, naming.Names (some id) subject →
    matcher.Holds program naming → (convert subject id matcher).1.Holds program naming
  ready : ∀ subject id matcher, naming.Names (some id) subject →
    matcher.Holds program naming → (convert subject id matcher).2 = .ok () →
      Ready (convert subject id matcher).1.cache subject
  snd_eq : ∀ subject id matcher matcher', naming.Names (some id) subject →
    matcher.Holds program naming → matcher'.subjectIdentity = none →
      (∀ error, (convert subject id matcher').2 = .error error → error.isResource = false) →
        (convert subject id matcher).2 = (convert subject id matcher').2

/-- The cache holds the text of a subject. -/
def HasText (cache : SubjectCache) (subject : StringView) : Prop :=
  cache.units = subjectUnits subject

/-- It also holds the offsets. -/
def HasOffsets (cache : SubjectCache) (subject : StringView) : Prop :=
  cache = ⟨subjectUnits subject, subjectOffsets subject, isAscii subject⟩

section Conversions

variable {icu : Icu World Engine} {program : Engine → Program} {naming : Naming}
  {world : World}

/-- A subject that is cached is not converted again. -/
theorem convertText_cached {subject : StringView} {id : Nat} {matcher : RegexMatcher Engine}
    (hcached : matcher.subjectIdentity = some id) :
    convertText icu world subject id matcher = (matcher, .ok ()) := by
  rw [convertText, if_neg (not_not.mpr hcached)]

theorem convertText_of_ok {subject : StringView} {id : Nat} {matcher : RegexMatcher Engine}
    (hfresh : matcher.subjectIdentity ≠ some id)
    (hset : (setUtf16 icu.toPlatform world matcher.cache.units subject).2 = .ok ()) :
    convertText icu world subject id matcher =
      ({ matcher with
        cache := { matcher.cache with
          units := (setUtf16 icu.toPlatform world matcher.cache.units subject).1 }
        subjectIdentity := some id, byteOffsetsValid := false }, .ok ()) := by
  rw [convertText, if_pos hfresh]
  simp only [hset]

/-- A conversion that fails gives up the cache. -/
theorem convertText_of_error {subject : StringView} {id : Nat} {matcher : RegexMatcher Engine}
    (hfresh : matcher.subjectIdentity ≠ some id) {error : Thrown}
    (hset : (setUtf16 icu.toPlatform world matcher.cache.units subject).2 = .error error) :
    convertText icu world subject id matcher =
      ({ matcher with
        cache := { matcher.cache with
          units := (setUtf16 icu.toPlatform world matcher.cache.units subject).1 }
        subjectIdentity := none }, .error error) := by
  rw [convertText, if_pos hfresh]
  simp only [hset]

/-- Without an identity nothing is claimed of the cache. -/
theorem RegexMatcher.Holds.forget {matcher matcher' : RegexMatcher Engine}
    (hholds : matcher.Holds program naming) (hforgotten : matcher'.subjectIdentity = none)
    (hmatcher : matcher'.matcher = matcher.matcher)
    (hidentity : matcher'.patternIdentity = matcher.patternIdentity)
    (hoptions : matcher'.options = matcher.options) : matcher'.Holds program naming := by
  constructor
  · intro id hid
    exact absurd (hforgotten.symm.trans hid) (by simp)
  · intro id hid
    exact absurd (hforgotten.symm.trans hid) (by simp)
  · intro id hid
    exact absurd (hforgotten.symm.trans hid) (by simp)
  · rw [hmatcher, hidentity, hoptions]
    exact hholds.bound

/-- A view that a matcher has cached can only fail to be converted for want of room. -/
theorem ok_of_checked {checked : Except Thrown Unit} {result : Except Thrown Unit}
    (hcheck : checked = .ok ())
    (hcases : checked = .ok () ∧ result = .ok () ∨
      ∃ error, result = .error error ∧
        (checked = .error error ∨ checked = .ok () ∧ error.isResource))
    (hresource : ∀ error, result = .error error → error.isResource = false) : result = .ok () := by
  rcases hcases with ⟨_, hok⟩ | ⟨error, herror, hchecked | ⟨_, hroom⟩⟩
  · exact hok
  · exact absurd (hcheck.symm.trans hchecked) (by simp)
  · rw [hresource error herror] at hroom
    exact absurd hroom Bool.false_ne_true

theorem convertText_snd {subject : StringView} {id : Nat} {matcher : RegexMatcher Engine}
    (hfresh : matcher.subjectIdentity ≠ some id) :
    (convertText icu world subject id matcher).2 =
      (setUtf16 icu.toPlatform world [] subject).2 := by
  rw [setUtf16_snd [] matcher.cache.units]
  rcases setUtf16_cases matcher.cache.units with ⟨_, hset⟩ | ⟨error, hset, _⟩
  · rw [convertText_of_ok hfresh hset, hset]
  · rw [convertText_of_error hfresh hset, hset]

/-- Converting keeps what the identities denote. -/
theorem convertText_conversion (hlaws : icu.Lawful program) :
    Conversion program naming HasText (convertText icu world) where
  matcher_eq subject id matcher := by
    by_cases hcached : matcher.subjectIdentity = some id
    · rw [convertText_cached hcached]
    · rcases setUtf16_cases matcher.cache.units with ⟨_, hset⟩ | ⟨error, hset, _⟩
      · rw [convertText_of_ok hcached hset]
      · rw [convertText_of_error hcached hset]
  holds subject id matcher hnames hholds := by
    by_cases hcached : matcher.subjectIdentity = some id
    · rw [convertText_cached hcached]
      exact hholds
    · rcases setUtf16_cases matcher.cache.units with ⟨hcheck, hset⟩ | ⟨error, hset, _⟩
      · rw [convertText_of_ok hcached hset]
        have hunits := setUtf16_ok hlaws.converts (Prod.ext rfl hset)
        refine ⟨?_, ?_, ?_, hholds.bound⟩
        · rintro other hother
          obtain rfl := Option.some_inj.mp hother
          rw [checkView_congr (hnames id rfl), hcheck]
        · rintro other hother
          obtain rfl := Option.some_inj.mp hother
          rw [subjectUnits_congr (hnames id rfl)]
          exact hunits
        · intro _ _ hvalid
          exact absurd hvalid Bool.false_ne_true
      · rw [convertText_of_error hcached hset]
        exact hholds.forget rfl rfl rfl rfl
  ready subject id matcher hnames hholds hok := by
    by_cases hcached : matcher.subjectIdentity = some id
    · rw [convertText_cached hcached, HasText, hholds.units_eq id hcached,
        subjectUnits_congr (hnames id rfl)]
    · rcases setUtf16_cases matcher.cache.units with ⟨_, hset⟩ | ⟨error, hset, _⟩
      · rw [convertText_of_ok hcached hset]
        exact setUtf16_ok hlaws.converts (Prod.ext rfl hset)
      · rw [convertText_of_error hcached hset] at hok
        exact absurd hok (by simp)
  snd_eq subject id matcher matcher' hnames hholds hnone hresource := by
    have hfresh' : matcher'.subjectIdentity ≠ some id := by simp [hnone]
    rw [convertText_snd hfresh'] at hresource ⊢
    by_cases hcached : matcher.subjectIdentity = some id
    · have hcheck : checkView subject = .ok () := by
        rw [← checkView_congr (hnames id rfl), hholds.checked id hcached]
      rw [convertText_cached hcached, ok_of_checked hcheck (setUtf16_cases []) hresource]
    · exact convertText_snd hcached

/-- A subject with its offsets is not converted again. -/
theorem convertOffsets_cached {subject : StringView} {id : Nat} {matcher : RegexMatcher Engine}
    (hcached : matcher.subjectIdentity = some id) (hvalid : matcher.byteOffsetsValid) :
    convertOffsets icu world subject id matcher = (matcher, .ok ()) := by
  rw [convertOffsets, if_neg (by simp [hcached, hvalid])]

theorem convertOffsets_of_ok {subject : StringView} {id : Nat} {matcher : RegexMatcher Engine}
    (hfresh : ¬ (matcher.subjectIdentity = some id ∧ matcher.byteOffsetsValid))
    (hset : (setUtf16WithOffsets icu.toPlatform world matcher.cache subject).2 = .ok ()) :
    convertOffsets icu world subject id matcher =
      ({ matcher with
        cache := (setUtf16WithOffsets icu.toPlatform world matcher.cache subject).1
        subjectIdentity := some id, byteOffsetsValid := true }, .ok ()) := by
  rw [convertOffsets,
    if_pos ((not_and_or.mp hfresh).imp_right fun hinvalid => by simpa using hinvalid)]
  simp only [hset]

/-- A conversion with offsets that fails gives up text and offsets. -/
theorem convertOffsets_of_error {subject : StringView} {id : Nat} {matcher : RegexMatcher Engine}
    (hfresh : ¬ (matcher.subjectIdentity = some id ∧ matcher.byteOffsetsValid)) {error : Thrown}
    (hset : (setUtf16WithOffsets icu.toPlatform world matcher.cache subject).2 = .error error) :
    convertOffsets icu world subject id matcher =
      ({ matcher with
        cache := (setUtf16WithOffsets icu.toPlatform world matcher.cache subject).1
        subjectIdentity := none, byteOffsetsValid := false }, .error error) := by
  rw [convertOffsets,
    if_pos ((not_and_or.mp hfresh).imp_right fun hinvalid => by simpa using hinvalid)]
  simp only [hset]

theorem convertOffsets_snd {subject : StringView} {id : Nat} {matcher : RegexMatcher Engine}
    (hfresh : ¬ (matcher.subjectIdentity = some id ∧ matcher.byteOffsetsValid)) :
    (convertOffsets icu world subject id matcher).2 =
      (setUtf16WithOffsets icu.toPlatform world ⟨[], [], true⟩ subject).2 := by
  rw [setUtf16WithOffsets_snd ⟨[], [], true⟩ matcher.cache]
  rcases setUtf16WithOffsets_cases matcher.cache with ⟨_, hset⟩ | ⟨error, hset, _⟩
  · rw [convertOffsets_of_ok hfresh hset, hset]
  · rw [convertOffsets_of_error hfresh hset, hset]

/-- Converting with offsets keeps what the identities denote. -/
theorem convertOffsets_conversion :
    Conversion program naming HasOffsets (convertOffsets icu world) where
  matcher_eq subject id matcher := by
    by_cases hcached : matcher.subjectIdentity = some id ∧ matcher.byteOffsetsValid
    · rw [convertOffsets_cached hcached.1 hcached.2]
    · rcases setUtf16WithOffsets_cases matcher.cache with ⟨_, hset⟩ | ⟨error, hset, _⟩
      · rw [convertOffsets_of_ok hcached hset]
      · rw [convertOffsets_of_error hcached hset]
  holds subject id matcher hnames hholds := by
    by_cases hcached : matcher.subjectIdentity = some id ∧ matcher.byteOffsetsValid
    · rw [convertOffsets_cached hcached.1 hcached.2]
      exact hholds
    · rcases setUtf16WithOffsets_cases matcher.cache with ⟨hcheck, hset⟩ | ⟨error, hset, _⟩
      · rw [convertOffsets_of_ok hcached hset]
        have hcache := setUtf16WithOffsets_ok (Prod.ext rfl hset)
        refine ⟨?_, ?_, ?_, hholds.bound⟩
        · intro other hother
          obtain rfl := Option.some_inj.mp hother
          rw [checkView_congr (hnames id rfl), hcheck]
        · intro other hother
          obtain rfl := Option.some_inj.mp hother
          rw [subjectUnits_congr (hnames id rfl)]
          exact congrArg SubjectCache.units hcache
        · intro other hother _
          obtain rfl := Option.some_inj.mp hother
          rw [subjectOffsets_congr (hnames id rfl), isAscii_congr (hnames id rfl)]
          exact ⟨congrArg SubjectCache.byteOffsets hcache, congrArg SubjectCache.ascii hcache⟩
      · -- a failed conversion forgets the subject
        rw [convertOffsets_of_error hcached hset]
        exact hholds.forget rfl rfl rfl rfl
  ready subject id matcher hnames hholds hok := by
    by_cases hcached : matcher.subjectIdentity = some id ∧ matcher.byteOffsetsValid
    · rw [convertOffsets_cached hcached.1 hcached.2, HasOffsets,
        ← subjectUnits_congr (hnames id rfl), ← subjectOffsets_congr (hnames id rfl),
        ← isAscii_congr (hnames id rfl), ← hholds.units_eq id hcached.1,
        ← (hholds.offsets_eq id hcached.1 hcached.2).1,
        ← (hholds.offsets_eq id hcached.1 hcached.2).2]
    · rcases setUtf16WithOffsets_cases matcher.cache with ⟨_, hset⟩ | ⟨error, hset, _⟩
      · rw [convertOffsets_of_ok hcached hset]
        exact setUtf16WithOffsets_ok (Prod.ext rfl hset)
      · rw [convertOffsets_of_error hcached hset] at hok
        exact absurd hok (by simp)
  snd_eq subject id matcher matcher' hnames hholds hnone hresource := by
    -- a matcher without a subject converts, one that has it kept the same result
    have hfresh' : ¬ (matcher'.subjectIdentity = some id ∧ matcher'.byteOffsetsValid) := by
      simp [hnone]
    rw [convertOffsets_snd hfresh'] at hresource ⊢
    by_cases hcached : matcher.subjectIdentity = some id ∧ matcher.byteOffsetsValid
    · have hcheck : checkView subject = .ok () := by
        rw [← checkView_congr (hnames id rfl), hholds.checked id hcached.1]
      rw [convertOffsets_cached hcached.1 hcached.2,
        ok_of_checked hcheck (setUtf16WithOffsets_cases _) hresource]
    · exact convertOffsets_snd hcached

end Conversions

/-! ## Working on a subject -/

/-- Work that keeps the program of the engine, and depends on nothing of the engine
but its program and on nothing of the cache but the subject it is ready for. -/
structure Scanning {Value : Type} (program : Engine → Program)
    (Ready : SubjectCache → StringView → Prop)
    (scan : Engine → SubjectCache → Scan Engine Value) : Prop where
  program_eq : ∀ engine cache, program (scan engine cache).engine = program engine
  congr : ∀ engine engine' cache cache' subject, program engine = program engine' →
    Ready cache subject → Ready cache' subject → scan engine cache = scan engine' cache'

section Scanning

variable {icu : Icu World Engine} {program : Engine → Program} {world : World}

theorem countLoop_program (hlaws : icu.Lawful program) (fuel : Nat) (engine : Engine)
    (result : Nat) (status : UErrorCode) :
    program (countLoop icu world fuel engine result status).engine = program engine := by
  induction fuel generalizing engine result status with
  | zero => rfl
  | succ fuel ih =>
      rw [countLoop]
      split
      next => exact hlaws.find_program world engine status
      next =>
        split
        next => exact hlaws.find_program world engine status
        next => rw [ih, hlaws.find_program]

/-- A loop over matches leaves the program of the engine. -/
theorem matchLoop_program {Result : Type} (hlaws : icu.Lawful program) (cache : SubjectCache)
    (goesOn : Result → Bool)
    (visit : Engine → Result → RegexRange → UErrorCode → Result × UErrorCode) (fuel : Nat)
    (engine : Engine) (result : Result) (status : UErrorCode) :
    program (matchLoop icu world cache goesOn visit fuel engine result status).engine =
      program engine := by
  induction fuel generalizing engine result status with
  | zero => rfl
  | succ fuel ih =>
      rw [matchLoop]
      split
      next => rfl
      next =>
        simp only
        split
        next => exact hlaws.find_program world engine status
        next =>
          split
          next => exact hlaws.find_program world engine status
          next =>
            split
            next => exact hlaws.find_program world engine status
            next => rw [ih, hlaws.find_program]

/-- Ready caches with offsets are equal. -/
theorem Scanning.of_engine {Value : Type} {scan : Engine → SubjectCache → Scan Engine Value}
    (hprogram : ∀ engine cache, program (scan engine cache).engine = program engine)
    (hcongr : ∀ engine engine' cache, program engine = program engine' →
      scan engine cache = scan engine' cache) : Scanning program HasOffsets scan where
  program_eq := hprogram
  congr engine engine' cache cache' subject hsame hready hready' := by
    rw [HasOffsets] at hready hready'
    rw [hready, hready']
    exact hcongr engine engine' _ hsame

/-- Containment is read off the program and the text. -/
theorem scanning_contains (hlaws : icu.Lawful program) :
    Scanning program HasText (containsScan icu world) where
  program_eq engine cache := by
    rw [containsScan, hlaws.find_program, hlaws.reset_program]
  congr engine engine' cache cache' subject hsame hready hready' := by
    rw [containsScan, containsScan, hready, hready',
      hlaws.reset_congr world engine engine' _ hsame]

theorem scanning_count (hlaws : icu.Lawful program) (fuel : Nat) :
    Scanning program HasText (countScan icu world fuel) where
  program_eq engine cache := by
    rw [countScan, countLoop_program hlaws, hlaws.reset_program]
  congr engine engine' cache cache' subject hsame hready hready' := by
    rw [countScan, countScan, hready, hready', hlaws.reset_congr world engine engine' _ hsame]

theorem findFirstScan_program (hlaws : icu.Lawful program) (engine : Engine)
    (cache : SubjectCache) : program (findFirstScan icu world engine cache).engine =
      program engine := by
  have hfound : program (icu.find world (icu.reset world engine cache.units) zeroError).1 =
      program engine := by
    rw [hlaws.find_program, hlaws.reset_program]
  unfold findFirstScan
  simp only
  split
  next => exact hfound
  next =>
    split
    next => exact hfound
    next => exact hfound

/-- Engines with one program find one match. -/
theorem findFirstScan_congr (hlaws : icu.Lawful program) {engine engine' : Engine}
    (cache : SubjectCache) (hsame : program engine = program engine') :
    findFirstScan icu world engine cache = findFirstScan icu world engine' cache := by
  unfold findFirstScan
  rw [hlaws.reset_congr world engine engine' _ hsame]

theorem scanning_findFirst (hlaws : icu.Lawful program) :
    Scanning program HasOffsets (findFirstScan icu world) :=
  .of_engine (findFirstScan_program hlaws) fun _ _ cache hsame =>
    findFirstScan_congr hlaws cache hsame

theorem scanning_findFirstCaptures (hlaws : icu.Lawful program) :
    Scanning program HasOffsets (findFirstCapturesScan icu world) := by
  apply Scanning.of_engine
  · intro engine cache
    have hfirst : program (findFirstScan icu world engine cache).engine = program engine :=
      findFirstScan_program hlaws engine cache
    unfold findFirstCapturesScan
    simp only
    split
    next => exact hfirst
    next =>
      split
      next => exact hfirst
      next => exact hfirst
  · intro engine engine' cache hsame
    unfold findFirstCapturesScan
    rw [findFirstScan_congr hlaws cache hsame]

/-- All matches are read off the program and the text. -/
theorem scanning_findAll (hlaws : icu.Lawful program) (fuel : Nat) :
    Scanning program HasOffsets (findAllScan icu world fuel) := by
  apply Scanning.of_engine
  · intro engine cache
    rw [findAllScan, matchLoop_program hlaws, hlaws.reset_program]
  · intro engine engine' cache hsame
    rw [findAllScan, findAllScan, hlaws.reset_congr world engine engine' _ hsame]

/-- The number of groups is read before the engine is reset. -/
theorem scanning_findAllCaptures (hlaws : icu.Lawful program) (fuel : Nat) :
    Scanning program HasOffsets (findAllCapturesScan icu world fuel) := by
  apply Scanning.of_engine
  · intro engine cache
    unfold findAllCapturesScan
    simp only
    rw [matchLoop_program hlaws, hlaws.reset_program]
  · intro engine engine' cache hsame
    unfold findAllCapturesScan
    rw [hlaws.reset_congr world engine engine' _ hsame, hlaws.groupCount_congr engine engine' hsame]

theorem scanning_splitDefault (hlaws : icu.Lawful program) (fuel : Nat) (len : Int) :
    Scanning program HasOffsets (splitDefaultScan icu world fuel len) := by
  apply Scanning.of_engine
  · intro engine cache
    rw [splitDefaultScan, matchLoop_program hlaws, hlaws.reset_program]
  · intro engine engine' cache hsame
    unfold splitDefaultScan
    rw [hlaws.reset_congr world engine engine' _ hsame]

theorem scanning_split (hlaws : icu.Lawful program) (fuel : Nat) (len n : Int)
    (omitEmpty tokensOnly : Bool) :
    Scanning program HasOffsets (splitScan icu world fuel len n omitEmpty tokensOnly) := by
  apply Scanning.of_engine
  · intro engine cache
    rw [splitScan, matchLoop_program hlaws, hlaws.reset_program]
  · intro engine engine' cache hsame
    unfold splitScan
    rw [hlaws.reset_congr world engine engine' _ hsame]

/-- Engines with one program replace alike. -/
theorem replaceScan_congr (hlaws : icu.Lawful program) (replacement : Option (List UInt16))
    (mode : RegexReplaceMode) {engine engine' : Engine} (text : List UInt16)
    (hsame : program engine = program engine') :
    replaceScan icu world replacement mode engine text =
      replaceScan icu world replacement mode engine' text := by
  unfold replaceScan
  rw [hlaws.reset_congr world engine engine' _ hsame]

theorem replaceScan_program (hlaws : icu.Lawful program) (replacement : Option (List UInt16))
    (mode : RegexReplaceMode) (engine : Engine) (text : List UInt16) :
    program (replaceScan icu world replacement mode engine text).engine = program engine := by
  have hfound : program (icu.find world (icu.reset world engine text) zeroError).1 =
      program engine := by
    rw [hlaws.find_program, hlaws.reset_program]
  unfold replaceScan
  simp only
  split
  next =>
    split
    next => exact hfound
    next => split <;> exact hfound
  next => rw [hlaws.replaceAll_program, hlaws.reset_program]
  next =>
    split
    next => exact hfound
    next =>
      split
      next => exact hfound
      next =>
        split
        next => rw [hlaws.appendReplacement_program, hfound]
        next => rw [hlaws.appendTail_program, hlaws.appendReplacement_program, hfound]

end Scanning

end Charr.RegexSearch
