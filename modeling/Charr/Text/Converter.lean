import Charr.Library.Streaming
import Charr.Text.Normalize

/-!
# The platform's conversions, cached

The object every operation converts with: three descriptors that are opened when they are
first needed, a scratch buffer that only grows, and whether the native encoding is UTF-8. What
it remembers never shows: every call gives what a fresh object would.
-/

namespace Charr.Conversion

open Streaming

/-! ## The object -/

/-- What the platform has: descriptors by the names of the target and of the source, the texts
of its errors, and whether R's native encoding is UTF-8. -/
structure Platform (State : Type) where
  iconvOpen : String → String → Except Nat (Converter State UInt8 UInt8 Nat)
  strerror : Nat → String
  nativeIsUtf8 : Bool

/-- The three descriptors. -/
inductive Direction where
  | native
  | latin1
  | utf8ToNative
  deriving DecidableEq, Repr

/-- The encoding that iconv converts to. -/
def Direction.target : Direction → String
  | .native => "UTF-8"
  | .latin1 => "UTF-8"
  | .utf8ToNative => ""

/-- An empty name stands for the active locale. -/
def Direction.source : Direction → String
  | .native => ""
  | .latin1 => "ISO-8859-1"
  | .utf8ToNative => "UTF-8"

/-- The direction as errors name it. -/
def Direction.label : Direction → String
  | .native => "R native encoding to UTF-8"
  | .latin1 => "ISO-8859-1 to UTF-8"
  | .utf8ToNative => "UTF-8 to R native encoding"

/-- `NativeToUtf8`. -/
structure Cache (State : Type) where
  descriptors : Direction → Option (Converter State UInt8 UInt8 Nat)
  scratch : List UInt8
  nativeIsUtf8 : Option Bool

/-- No descriptor is open and nothing is known of the session. -/
def Cache.empty {State : Type} : Cache State := ⟨fun _ => none, [], none⟩

/-- The scratch buffer a first conversion gets. -/
def initialCapacity : Nat := 64

/-- The error of a conversion that would not fit in an R string. -/
def sizeError : NativeError := .lengthError "converted string exceeds R string size"

/-- The doubling of `ensure_capacity`, while there is fuel. -/
def nextCapacity (required : Nat) : Nat → Nat → Nat
  | 0, next => next
  | fuel + 1, next =>
      if next < required then
        if next > intMax / 2 then intMax else nextCapacity required fuel (next * 2)
      else next

/-- `std::vector::resize` to at least the size it has. -/
def grownTo (scratch : List UInt8) (size : Nat) : List UInt8 :=
  scratch ++ List.replicate (size - scratch.length) 0

/-- The scratch buffer, doubled until it holds `required` bytes. -/
def ensureCapacity (required : Nat) (scratch : List UInt8) : Except NativeError (List UInt8) :=
  if required > intMax then .error sizeError
  else if scratch.length ≥ required then .ok scratch
  else
    let next := if scratch = [] then initialCapacity else scratch.length
    .ok (grownTo scratch (nextCapacity required required next))

/-- What the loops do when the room is too small. -/
def growScratch (scratch : List UInt8) : Option (List UInt8) :=
  if scratch.length = intMax then none
  else
    match ensureCapacity (scratch.length + 1) scratch with
    | .ok grown => some grown
    | .error _ => none

/-- The capacity a conversion begins with. -/
def firstCapacity (size : Nat) : Nat :=
  let growth := if size > 24 then size / 2 else 24
  if size > intMax - growth then intMax else size + growth

section Object

variable {State : Type} (platform : Platform State)

/-- The text of a failure, with what the system says of it. -/
def conversionErrorMessage (conversion : String) (errno : Nat) : String :=
  "failed to convert " ++ conversion ++
    if errno ≠ 0 then ": " ++ platform.strerror errno else ""

/-- The error of a conversion that fails. -/
def conversionError (direction : Direction) (errno : Nat) : NativeError :=
  .runtimeError (conversionErrorMessage platform direction.label errno)

/-- `native_descriptor`, `latin1_descriptor` and `utf8_to_native_descriptor`. -/
def descriptor (direction : Direction) (cache : Cache State) :
    Except NativeError (Converter State UInt8 UInt8 Nat) × Cache State :=
  match cache.descriptors direction with
  | some handle => (.ok handle, cache)
  | none =>
      match platform.iconvOpen direction.target direction.source with
      | .error errno => (.error (conversionError platform direction errno), cache)
      | .ok handle =>
          (.ok handle,
            { cache with
              descriptors := fun other =>
                if other = direction then some handle else cache.descriptors other })

/-- What the loops threw. -/
def stopError (direction : Direction) : Stop Nat → NativeError
  | .tooLarge => sizeError
  | .failed errno => conversionError platform direction errno

/-- `convert`, from a descriptor that was reset. -/
def convert (direction : Direction) (handle : Converter State UInt8 UInt8 Nat)
    (data : Option (List UInt8)) (length : Int) (cache : Cache State) :
    Option (Except NativeError (List UInt8) × Cache State) :=
  if length < 0 || (data.isNone && length ≠ 0) then
    some (.error (.invalidArgument "invalid source byte view"), cache)
  else
    let input := (data.getD []).take length.toNat
    match ensureCapacity (firstCapacity length.toNat) cache.scratch with
    | .error error => some (.error error, cache)
    | .ok scratch => do
        match ← run handle growScratch (intMax + 1) input scratch with
        | .ok filling => return (.ok filling.text, { cache with scratch := filling.buffer })
        | .error (stop, buffer) =>
            return (.error (stopError platform direction stop), { cache with scratch := buffer })

/-- `native`, `latin1` and `utf8_to_native`. -/
def convertTo (direction : Direction) (data : Option (List UInt8)) (length : Int)
    (cache : Cache State) : Option (Except NativeError (List UInt8) × Cache State) :=
  match descriptor platform direction cache with
  | (.error error, cache) => some (.error error, cache)
  | (.ok handle, cache) => convert platform direction handle data length cache

/-- Whether the session is UTF-8, asked of the platform once. -/
def nativeIsUtf8 (cache : Cache State) : Bool × Cache State :=
  match cache.nativeIsUtf8 with
  | some resolved => (resolved, cache)
  | none => (platform.nativeIsUtf8, { cache with nativeIsUtf8 := some platform.nativeIsUtf8 })

/-! ## Runs of calls -/

/-- What the callers of a converter ask of it. -/
inductive Call where
  | convert (direction : Direction) (data : Option (List UInt8)) (length : Int)
  | nativeIsUtf8
  | reset

/-- What a call comes back with. -/
inductive Reply where
  | converted (result : Except NativeError (List UInt8))
  | isUtf8 (value : Bool)
  | done

/-- One call on the cache that the calls before it have left. -/
def call (cache : Cache State) : Call → Option (Reply × Cache State)
  | .convert direction data length => do
      let (result, cache) ← convertTo platform direction data length cache
      return (.converted result, cache)
  | .nativeIsUtf8 =>
      let (value, cache) := nativeIsUtf8 platform cache
      some (.isUtf8 value, cache)
  | .reset => some (.done, Cache.empty)

/-- The replies to a run of calls. -/
def callAll : List Call → Cache State → Option (List Reply × Cache State)
  | [], cache => some ([], cache)
  | first :: rest, cache => do
      let (reply, cache) ← call platform cache first
      let (replies, cache) ← callAll rest cache
      return (reply :: replies, cache)

end Object

/-! ## The scratch buffer -/

/-- Doubling reaches what is required and stays within the limit. -/
theorem nextCapacity_bounds {required : Nat} (hrequired : required ≤ intMax) (fuel : Nat)
    {next : Nat} (hpositive : 0 < next) (hnext : next ≤ intMax) (hfuel : required ≤ next + fuel) :
    required ≤ nextCapacity required fuel next ∧ nextCapacity required fuel next ≤ intMax := by
  induction fuel generalizing next with
  | zero => exact ⟨hfuel, hnext⟩
  | succ fuel ih =>
      rw [nextCapacity]
      split
      next hless =>
        split
        next => exact ⟨hrequired, Nat.le_refl _⟩
        next hsmall => exact ih (by omega) (by omega) (by omega)
      next hdone => exact ⟨Nat.not_lt.mp hdone, hnext⟩

/-- The buffer grows, and keeps what it holds. -/
theorem ensureCapacity_spec {required : Nat} (hrequired : required ≤ intMax)
    {scratch : List UInt8} (hscratch : scratch.length ≤ intMax) :
    ∃ grown, ensureCapacity required scratch = .ok grown ∧ scratch <+: grown ∧
      required ≤ grown.length ∧ grown.length ≤ intMax := by
  unfold ensureCapacity
  rw [if_neg (Nat.not_lt.mpr hrequired)]
  split
  next henough => exact ⟨scratch, rfl, List.prefix_rfl, henough, hscratch⟩
  next hsmall =>
    refine ⟨_, rfl, List.prefix_append _ _, ?_⟩
    generalize hnext : (if scratch = [] then initialCapacity else scratch.length) = next
    have hstart : 0 < next ∧ next ≤ intMax := by
      subst hnext
      split
      next => exact ⟨by decide, by decide⟩
      next hne => exact ⟨List.length_pos_iff.mpr hne, hscratch⟩
    obtain ⟨hlow, hhigh⟩ :=
      nextCapacity_bounds hrequired required hstart.1 hstart.2 (Nat.le_add_left _ _)
    rw [grownTo, List.length_append, List.length_replicate]
    omega

theorem firstCapacity_le (size : Nat) : firstCapacity size ≤ intMax := by
  unfold firstCapacity
  dsimp only
  generalize hgrowth : (if size > 24 then size / 2 else 24) = growth
  have hsmall : growth ≤ size ∨ growth ≤ 24 := by
    subst hgrowth
    split <;> omega
  have hmaximum : intMax = 2147483647 := rfl
  split <;> omega

/-- Growing makes the buffer larger up to the limit. -/
theorem grows_growScratch : Grows growScratch intMax where
  larger := by
    intro buffer grown hgrown
    unfold growScratch at hgrown
    split at hgrown
    · cases hgrown
    next hlimit =>
      by_cases hfits : buffer.length + 1 ≤ intMax
      · obtain ⟨larger, hensure, hextends, hlow, hhigh⟩ :=
          ensureCapacity_spec hfits (Nat.le_of_succ_le hfits)
        rw [hensure] at hgrown
        obtain rfl := Option.some.inj hgrown
        exact ⟨hextends, hlow, hhigh⟩
      · rw [ensureCapacity, if_pos (Nat.not_le.mp hfits)] at hgrown
        cases hgrown
  stops := by
    intro buffer hstops
    unfold growScratch at hstops
    split at hstops
    next hlimit => exact Nat.le_of_eq hlimit.symm
    next =>
      by_contra hless
      obtain ⟨larger, hensure, -⟩ := @ensureCapacity_spec (buffer.length + 1)
        (Nat.not_le.mp hless) buffer (Nat.le_of_lt (Nat.not_le.mp hless))
      rw [hensure] at hstops
      cases hstops

/-! ## Nothing that is remembered shows -/

section Fresh

variable {State : Type} (platform : Platform State)
  (rest : Direction → State → List UInt8 → Whole UInt8 Nat)

/-- The conversions of the platform put out what `rest` says. -/
def Platform.Lawful : Prop :=
  ∀ direction handle, platform.iconvOpen direction.target direction.source = .ok handle →
    handle.Lawful (rest direction)

/-- What a fresh object answers. -/
def freshConvert (direction : Direction) (data : Option (List UInt8)) (length : Int) :
    Except NativeError (List UInt8) :=
  match platform.iconvOpen direction.target direction.source with
  | .error errno => .error (conversionError platform direction errno)
  | .ok handle =>
      if length < 0 || (data.isNone && length ≠ 0) then
        .error (.invalidArgument "invalid source byte view")
      else
        (answer intMax (rest direction handle.initial
          ((data.getD []).take length.toNat))).mapError (stopError platform direction)

/-- The reply of a converter that no call came before. -/
def freshReply : Call → Reply
  | .convert direction data length => .converted (freshConvert platform rest direction data length)
  | .nativeIsUtf8 => .isUtf8 platform.nativeIsUtf8
  | .reset => .done

/-- What is remembered is what the platform would answer again. -/
structure Cache.Consistent (cache : Cache State) : Prop where
  descriptors : ∀ direction handle, cache.descriptors direction = some handle →
    platform.iconvOpen direction.target direction.source = .ok handle
  scratch_le : cache.scratch.length ≤ intMax
  nativeIsUtf8 : ∀ value, cache.nativeIsUtf8 = some value → value = platform.nativeIsUtf8

/-- An empty cache has no open descriptor. -/
theorem consistent_empty : (Cache.empty : Cache State).Consistent platform where
  descriptors _ _ hnone := absurd hnone (by simp [Cache.empty])
  scratch_le := Nat.zero_le _
  nativeIsUtf8 _ hnone := absurd hnone (by simp [Cache.empty])

variable {platform rest} {cache : Cache State}

/-- The descriptor is the one the platform opens, opened before or not. -/
theorem descriptor_eq (hcache : cache.Consistent platform) (direction : Direction) :
    (descriptor platform direction cache).1 =
        (platform.iconvOpen direction.target direction.source).mapError
          (conversionError platform direction) ∧
      (descriptor platform direction cache).2.Consistent platform := by
  unfold descriptor
  cases hcached : cache.descriptors direction with
  | some handle =>
      rw [hcache.descriptors direction handle hcached]
      exact ⟨rfl, hcache⟩
  | none =>
      cases hopen : platform.iconvOpen direction.target direction.source with
      | error errno => exact ⟨rfl, hcache⟩
      | ok handle =>
          refine ⟨rfl, ?_, hcache.scratch_le, hcache.nativeIsUtf8⟩
          intro other found hfound
          dsimp only at hfound
          split at hfound
          next hsame =>
            obtain rfl := Option.some.inj hfound
            rw [hsame, hopen]
          next => exact hcache.descriptors other found hfound

/-- A descriptor that is open converts as a new one does. -/
theorem convert_eq (hcache : cache.Consistent platform) (direction : Direction)
    {handle : Converter State UInt8 UInt8 Nat} (hlawful : handle.Lawful (rest direction))
    (data : Option (List UInt8)) (length : Int) :
    ∃ after, convert platform direction handle data length cache =
        some (if length < 0 || (data.isNone && length ≠ 0) then
            .error (.invalidArgument "invalid source byte view")
          else
            (answer intMax (rest direction handle.initial
              ((data.getD []).take length.toNat))).mapError (stopError platform direction),
          after) ∧
      after.Consistent platform := by
  unfold convert
  split
  next => exact ⟨cache, rfl, hcache⟩
  next =>
    obtain ⟨scratch, hensure, -, -, hscratch⟩ :=
      ensureCapacity_spec (firstCapacity_le length.toNat) hcache.scratch_le
    have hmeets : ∃ outcome, run handle growScratch (intMax + 1)
        ((data.getD []).take length.toNat) scratch = some outcome ∧ Meets intMax ⟨scratch, 0⟩
          (rest direction handle.initial ((data.getD []).take length.toNat)) outcome :=
      run_meets hlawful grows_growScratch hscratch (Nat.lt_succ_self intMax)
    obtain ⟨outcome, hrun, hmeets⟩ := hmeets
    rw [hensure]
    simp only [hrun]
    cases outcome with
    | ok final =>
        obtain ⟨hwithin, hanswer⟩ := hmeets
        rw [show answer intMax (rest direction handle.initial _) = .ok final.text from hanswer]
        exact ⟨_, rfl, hcache.descriptors, hwithin.length_le, hcache.nativeIsUtf8⟩
    | error stopped =>
        obtain ⟨hbuffer, hanswer⟩ := hmeets
        rw [show answer intMax (rest direction handle.initial _) = .error stopped.1 from hanswer]
        exact ⟨_, rfl, hcache.descriptors, hbuffer, hcache.nativeIsUtf8⟩

variable (hplatform : platform.Lawful rest)
include hplatform

/-- A conversion through the cache is one on a new descriptor. -/
theorem convertTo_eq (hcache : cache.Consistent platform) (direction : Direction)
    (data : Option (List UInt8)) (length : Int) :
    ∃ after, convertTo platform direction data length cache =
        some (freshConvert platform rest direction data length, after) ∧
      after.Consistent platform := by
  obtain ⟨hdescriptor, hopened⟩ := descriptor_eq hcache direction
  unfold convertTo freshConvert
  generalize descriptor platform direction cache = found at hdescriptor hopened
  obtain ⟨result, after⟩ := found
  dsimp only at hdescriptor
  subst hdescriptor
  cases hopen : platform.iconvOpen direction.target direction.source with
  | error errno => exact ⟨after, rfl, hopened⟩
  | ok handle => exact convert_eq hopened direction (hplatform direction handle hopen) data length

/-- A call replies as on a new converter and leaves the cache consistent. -/
theorem call_eq (hcache : cache.Consistent platform) (request : Call) :
    ∃ after, call platform cache request = some (freshReply platform rest request, after) ∧
      after.Consistent platform := by
  cases request with
  | convert direction data length =>
      obtain ⟨after, hconvert, hafter⟩ := convertTo_eq hplatform hcache direction data length
      refine ⟨after, ?_, hafter⟩
      rw [call, hconvert]
      rfl
  | nativeIsUtf8 =>
      rw [call, nativeIsUtf8]
      cases hresolved : cache.nativeIsUtf8 with
      | some value =>
          rw [hcache.nativeIsUtf8 value hresolved]
          exact ⟨cache, rfl, hcache⟩
      | none =>
          refine ⟨_, rfl, hcache.descriptors, hcache.scratch_le, ?_⟩
          rintro value ⟨⟩
          rfl
  | reset => exact ⟨_, rfl, consistent_empty platform⟩

/-- Every call of a run is answered as by an object that was just made, whatever was converted
before, and however that ended. -/
theorem callAll_eq (hcache : cache.Consistent platform) (requests : List Call) :
    ∃ after, callAll platform requests cache =
        some (requests.map (freshReply platform rest), after) ∧
      after.Consistent platform := by
  induction requests generalizing cache with
  | nil => exact ⟨cache, rfl, hcache⟩
  | cons request others ih =>
      obtain ⟨next, hcall, hnext⟩ := call_eq hplatform hcache request
      obtain ⟨after, hothers, hafter⟩ := ih hnext
      refine ⟨after, ?_, hafter⟩
      rw [callAll, hcall]
      simp only [Option.bind_eq_bind, Option.bind_some, hothers]
      rfl

omit hplatform in
/-- A converted text is never longer than a string may be. -/
theorem length_freshConvert_le {direction : Direction} {data : Option (List UInt8)} {length : Int}
    {bytes : List UInt8}
    (hbytes : freshConvert platform rest direction data length = .ok bytes) :
    bytes.length ≤ intMax := by
  unfold freshConvert answer at hbytes
  split at hbytes
  · cases hbytes
  · split at hbytes
    · cases hbytes
    · split at hbytes
      next hfits =>
        split at hbytes
        · obtain rfl := Except.ok.inj hbytes
          exact hfits
        · cases hbytes
      · cases hbytes

end Fresh

/-! ## The converter of the operations -/

section Refinement

variable {State : Type} (platform : Platform State)
  (rest : Direction → State → List UInt8 → Whole UInt8 Nat)

/-- The view of a converted text, at the address of the scratch buffer. -/
def viewAt (address : Nat) (bytes : List UInt8) : ViewData :=
  if hfits : bytes.length ≤ intMax then .bytes ⟨address, bytes, hfits⟩ else .null 0

/-- The object as the operations see it: functions that remember nothing. -/
def nativeToUtf8 (address : Nat) : NativeToUtf8 where
  native bytes :=
    (freshConvert platform rest .native (some bytes) bytes.length).map (viewAt address)
  latin1 bytes :=
    (freshConvert platform rest .latin1 (some bytes) bytes.length).map (viewAt address)
  nativeIsUtf8 := platform.nativeIsUtf8

variable {platform rest}

/-- After any run of calls the object converts as the operations see it, and what it gives is
the text that was converted; its buffer never gets larger than a string. -/
theorem callAll_refines (hplatform : platform.Lawful rest) (address : Nat) (requests : List Call) :
    ∃ cache, callAll platform requests .empty =
        some (requests.map (freshReply platform rest), cache) ∧
      cache.scratch.length ≤ intMax ∧
      (nativeIsUtf8 platform cache).1 = (nativeToUtf8 platform rest address).nativeIsUtf8 ∧
      ∀ bytes : List UInt8,
        (∃ result after, convertTo platform .native (some bytes) bytes.length cache =
            some (result, after) ∧
          (nativeToUtf8 platform rest address).native bytes = result.map (viewAt address) ∧
          ∀ text, result = .ok text → ∃ span, viewAt address text = .bytes span ∧
            span.bytes = text) ∧
        ∃ result after, convertTo platform .latin1 (some bytes) bytes.length cache =
            some (result, after) ∧
          (nativeToUtf8 platform rest address).latin1 bytes = result.map (viewAt address) ∧
          ∀ text, result = .ok text → ∃ span, viewAt address text = .bytes span ∧
            span.bytes = text := by
  obtain ⟨cache, hrun, hcache⟩ := callAll_eq hplatform (consistent_empty platform) requests
  have hview : ∀ {direction : Direction} {bytes text : List UInt8},
      freshConvert platform rest direction (some bytes) bytes.length = .ok text →
      ∃ span, viewAt address text = .bytes span ∧ span.bytes = text := by
    intro direction bytes text htext
    exact ⟨_, dif_pos (length_freshConvert_le htext), rfl⟩
  refine ⟨cache, hrun, hcache.scratch_le, ?_, fun bytes => ⟨?_, ?_⟩⟩
  · rw [nativeIsUtf8]
    cases hresolved : cache.nativeIsUtf8 with
    | some value => exact hcache.nativeIsUtf8 value hresolved
    | none => rfl
  · obtain ⟨after, hconvert, -⟩ :=
      convertTo_eq hplatform hcache .native (some bytes) bytes.length
    exact ⟨_, after, hconvert, rfl, fun text htext => hview htext⟩
  · obtain ⟨after, hconvert, -⟩ :=
      convertTo_eq hplatform hcache .latin1 (some bytes) bytes.length
    exact ⟨_, after, hconvert, rfl, fun text htext => hview htext⟩

end Refinement

/-! ## A platform with one conversion -/

/-- Latin-1 in UTF-8. -/
def latin1Bytes (byte : UInt8) : List UInt8 :=
  if byte < 0x80 then [byte] else [0xc0 + byte / 64, 0x80 + byte % 64]

/-- As many bytes as there is room for. -/
def latin1Convert : List UInt8 → Nat → Progress Unit UInt8 Nat
  | [], _ => .finished [] ()
  | byte :: rest, room =>
      if (latin1Bytes byte).length ≤ room then
        match latin1Convert rest (room - (latin1Bytes byte).length) with
        | .finished produced state => .finished (latin1Bytes byte ++ produced) state
        | .full consumed produced state =>
            .full (consumed + 1) (latin1Bytes byte ++ produced) state
        | .failed error => .failed error
      else .full 0 [] ()

/-- The conversion from Latin-1, which keeps no shift state. -/
def latin1Converter : Converter Unit UInt8 UInt8 Nat where
  initial := ()
  convert _ := latin1Convert
  flush _ _ := .finished [] ()

/-- A platform without native encoding: `EINVAL`. -/
def samplePlatform : Platform Unit where
  iconvOpen _ source := if source = "ISO-8859-1" then .ok latin1Converter else .error 22
  strerror _ := "Invalid argument"
  nativeIsUtf8 := true

/-- A conversion that takes every text to be Latin-1. -/
def sampleRest (_ : Direction) (_ : Unit) (input : List UInt8) : Whole UInt8 Nat :=
  (input.flatMap latin1Bytes, none)

/-- What a call on Latin-1 does. -/
def Latin1Step (input : List UInt8) (room : Nat) : Progress Unit UInt8 Nat → Prop
  | .finished produced _ => produced.length ≤ room ∧ input.flatMap latin1Bytes = produced
  | .full consumed produced _ => produced.length ≤ room ∧
      input.flatMap latin1Bytes = produced ++ (input.drop consumed).flatMap latin1Bytes ∧
      room < (input.flatMap latin1Bytes).length
  | .failed _ => False

theorem latin1Convert_step (input : List UInt8) (room : Nat) :
    Latin1Step input room (latin1Convert input room) := by
  induction input generalizing room with
  | nil => exact ⟨Nat.zero_le _, rfl⟩
  | cons byte rest ih =>
      rw [latin1Convert]
      by_cases hfits : (latin1Bytes byte).length ≤ room
      · rw [if_pos hfits]
        have hrest := ih (room - (latin1Bytes byte).length)
        cases hconvert : latin1Convert rest (room - (latin1Bytes byte).length) with
        | finished produced state =>
            rw [hconvert] at hrest
            obtain ⟨hlength, hproduced⟩ := hrest
            refine ⟨?_, by rw [List.flatMap_cons, hproduced]⟩
            rw [List.length_append]
            omega
        | full consumed produced state =>
            rw [hconvert] at hrest
            obtain ⟨hlength, hproduced, hroom⟩ := hrest
            refine ⟨?_, ?_, ?_⟩
            · rw [List.length_append]
              omega
            · rw [List.flatMap_cons, hproduced, List.append_assoc]
              rfl
            · rw [List.flatMap_cons, List.length_append]
              omega
        | failed error =>
            rw [hconvert] at hrest
            exact hrest.elim
      · rw [if_neg hfits]
        refine ⟨Nat.zero_le _, rfl, ?_⟩
        rw [List.flatMap_cons, List.length_append]
        omega

/-- The conversion from Latin-1 keeps the laws of iconv. -/
theorem lawful_latin1Converter (direction : Direction) :
    latin1Converter.Lawful (sampleRest direction) where
  finished := by
    intro state input room produced next _ hconvert
    have hspec := latin1Convert_step input room
    rw [show latin1Convert input room = .finished produced next from hconvert] at hspec
    exact ⟨hspec.1, by simp [sampleRest, hspec.2]⟩
  full := by
    intro state input room consumed produced next _ hconvert
    have hspec := latin1Convert_step input room
    rw [show latin1Convert input room = .full consumed produced next from hconvert] at hspec
    exact ⟨⟨hspec.1, by simp [sampleRest, hspec.2.1]⟩, hspec.2.2⟩
  failed := by
    intro state input room error _ hconvert
    have hspec := latin1Convert_step input room
    rw [show latin1Convert input room = .failed error from hconvert] at hspec
    exact hspec.elim
  flush_finished := by
    rintro state room produced next ⟨⟩
    exact ⟨Nat.zero_le _, rfl⟩
  flush_full := by
    rintro state room consumed produced next ⟨⟩
  flush_failed := by
    rintro state room error ⟨⟩

theorem lawful_samplePlatform : samplePlatform.Lawful sampleRest := by
  intro direction handle hopen
  simp only [samplePlatform] at hopen
  split at hopen
  · obtain rfl := Except.ok.inj hopen
    exact lawful_latin1Converter direction
  · cases hopen

/-- Two conversions, one that cannot be opened, and a reset between them. -/
theorem callAll_refines_latin1 :
    ∃ cache, callAll samplePlatform
        [.convert .latin1 (some [0x61, 0xe9]) 2, .convert .native (some [0xe9]) 1, .reset,
          .convert .latin1 (some [0xff]) 1] .empty =
        some ([.convert .latin1 (some [0x61, 0xe9]) 2, .convert .native (some [0xe9]) 1, .reset,
          .convert .latin1 (some [0xff]) 1].map (freshReply samplePlatform sampleRest), cache) ∧
      cache.scratch.length ≤ intMax := by
  obtain ⟨cache, hrun, hscratch, -⟩ := callAll_refines lawful_samplePlatform 0
    [.convert .latin1 (some [0x61, 0xe9]) 2, .convert .native (some [0xe9]) 1, .reset,
      .convert .latin1 (some [0xff]) 1]
  exact ⟨cache, hrun, hscratch⟩

end Charr.Conversion
