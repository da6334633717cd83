import Mathlib.Data.List.Forall2
import Charr.Regex.MatcherRuns

/-!
# From UTF-16 offsets back to bytes

ICU reports matches as offsets of UTF-16 units. The table of a subject sends every
such offset to the byte at which the code point under it starts, so that a match
between code points is one between code points of the bytes.
-/

namespace Charr.RegexSearch

open Utf8

/-! ## Units and bytes of a list of tokens -/

/-- The UTF-16 units of a token. -/
def tokenUnits (token : Token) : List UInt16 :=
  codePointUnits (orReplacement token.codePoint)

/-- Where the token number `count` starts in the UTF-16 text. -/
def unitOffset (text : List UInt8) (count : Nat) : Nat :=
  (((tokens text).take count).flatMap tokenUnits).length

/-- The byte at which the token under a UTF-16 offset starts. -/
def byteOfUnit : List Token → Nat → Nat
  | [], _ => 0
  | token :: rest, index =>
      if index < (tokenUnits token).length then 0
      else token.bytes.length + byteOfUnit rest (index - (tokenUnits token).length)

section Units

/-- A code point takes one unit, or two above the basic plane. -/
theorem tokenUnits_length (token : Token) :
    (tokenUnits token).length = if orReplacement token.codePoint ≤ 0xffff then 1 else 2 := by
  unfold tokenUnits codePointUnits
  split <;> rfl

theorem tokenUnits_length_pos (token : Token) : 0 < (tokenUnits token).length := by
  rw [tokenUnits_length]
  split <;> decide

/-- A code point that takes two units takes four bytes. -/
theorem tokenUnits_length_le {token : Token} (htoken : tokens token.bytes = [token]) :
    (tokenUnits token).length ≤ token.bytes.length := by
  have hpos := List.length_pos_iff.mpr (bytes_ne_nil htoken)
  rw [tokenUnits_length]
  split
  next => exact hpos
  next hlarge =>
    have hcomplete : token.codePoint ≠ sentinel := by
      intro hill
      rw [hill] at hlarge
      exact hlarge (by decide)
    obtain ⟨hsequence, hdecode⟩ := isSequence_bytes htoken hcomplete
    have hcode : orReplacement (decode token.bytes : CodePoint) = decode token.bytes := by
      simp [orReplacement]
    rw [hdecode, hcode] at hlarge
    have hrange := decode_range hsequence
    omega

/-- A text has no more units than bytes. -/
theorem flatMap_tokenUnits_length_le {list : List Token}
    (hlist : ∀ token ∈ list, tokens token.bytes = [token]) :
    (list.flatMap tokenUnits).length ≤ (tokenBytes list).length := by
  induction list with
  | nil => exact Nat.le_refl 0
  | cons token rest ih =>
      rw [List.flatMap_cons, tokenBytes_cons, List.length_append, List.length_append]
      exact Nat.add_le_add (tokenUnits_length_le (hlist token List.mem_cons_self))
        (ih fun other hmem => hlist other (List.mem_cons_of_mem _ hmem))

/-- There are at most as many units as bytes. -/
theorem utf16_length_le (text : List UInt8) : (utf16 text).length ≤ text.length := by
  have hle := flatMap_tokenUnits_length_le fun token (hmem : token ∈ tokens text) =>
    tokens_of_mem hmem
  rwa [tokenBytes_tokens] at hle

/-- A unit of the second part stands behind the bytes of the first. -/
theorem byteOfUnit_append (left right : List Token) (index : Nat) :
    byteOfUnit (left ++ right) ((left.flatMap tokenUnits).length + index) =
      (tokenBytes left).length + byteOfUnit right index := by
  induction left with
  | nil => simp
  | cons token rest ih =>
      rw [List.cons_append, byteOfUnit, List.flatMap_cons, List.length_append, if_neg (by omega),
        Nat.add_assoc, Nat.add_sub_cancel_left, ih, tokenBytes_cons, List.length_append,
        Nat.add_assoc]

theorem byteOfUnit_zero (list : List Token) : byteOfUnit list 0 = 0 := by
  cases list with
  | nil => rfl
  | cons token rest => rw [byteOfUnit, if_pos (tokenUnits_length_pos token)]

/-- Offsets do not go down. -/
theorem byteOfUnit_mono {list : List Token} {first second : Nat} (hle : first ≤ second)
    (hsecond : second ≤ (list.flatMap tokenUnits).length) :
    byteOfUnit list first ≤ byteOfUnit list second := by
  induction list generalizing first second with
  | nil => exact Nat.le_refl 0
  | cons token rest ih =>
      rw [List.flatMap_cons, List.length_append] at hsecond
      rw [byteOfUnit, byteOfUnit]
      split
      next => exact Nat.zero_le _
      next hfirst =>
        rw [if_neg (by omega)]
        exact Nat.add_le_add_left (ih (Nat.sub_le_sub_right hle _) (by omega)) _

/-- The table lists, behind every unit, the byte of the offset there. -/
theorem tokenOffsets_getElem? (list : List Token) {start index : Nat}
    (hindex : index ≤ (list.flatMap tokenUnits).length) :
    ((start : Int) :: tokenOffsets start list)[index]? =
      some ((start + byteOfUnit list index : Nat) : Int) := by
  induction list generalizing start index with
  | nil =>
      obtain rfl : index = 0 := Nat.le_zero.mp hindex
      rfl
  | cons token rest ih =>
      rw [List.flatMap_cons, List.length_append] at hindex
      rw [tokenOffsets, byteOfUnit]
      rw [tokenUnits_length] at hindex ⊢
      split at hindex
      next hsmall =>
        rw [if_pos hsmall, if_pos hsmall]
        cases index with
        | zero => rfl
        | succ index =>
            rw [if_neg (by omega), List.getElem?_cons_succ, List.singleton_append,
              ih (by omega), Nat.add_sub_cancel, Nat.add_assoc]
      next hlarge =>
        rw [if_neg hlarge, if_neg hlarge]
        cases index with
        | zero => rfl
        | succ index =>
            cases index with
            | zero => rfl
            | succ index =>
                rw [if_neg (by omega), List.getElem?_cons_succ, List.cons_append,
                  List.getElem?_cons_succ, List.singleton_append, ih (by omega),
                  show index + 1 + 1 - 2 = index from rfl, Nat.add_assoc]

end Units

/-! ## The map of a text -/

section Map

variable (text : List UInt8)

/-- Behind the last code point all units are passed. -/
theorem unitOffset_codePointCount :
    unitOffset text (codePointCount text) = (utf16 text).length := by
  rw [unitOffset, codePointCount, List.take_length]
  rfl

/-- The next code point begins behind the units of this one. -/
theorem unitOffset_succ {count : Nat} (hcount : count < codePointCount text) :
    ∃ token, (tokens text).drop count = token :: (tokens text).drop (count + 1) ∧
      unitOffset text (count + 1) = unitOffset text count + (tokenUnits token).length := by
  refine ⟨(tokens text)[count], List.drop_eq_getElem_cons hcount, ?_⟩
  rw [unitOffset, unitOffset, List.take_succ_eq_append_getElem hcount, List.flatMap_append,
    List.length_append]
  simp

theorem unitOffset_mono : Monotone (unitOffset text) := by
  intro first second hle
  have htake : (tokens text).take first = ((tokens text).take second).take first := by
    rw [List.take_take, Nat.min_eq_left hle]
  have hsplit := congrArg (fun list => (list.flatMap tokenUnits).length)
    (List.take_append_drop first ((tokens text).take second))
  rw [List.flatMap_append, List.length_append, ← htake] at hsplit
  exact Nat.le.intro hsplit

theorem unitOffset_le {count : Nat} (hcount : count ≤ codePointCount text) :
    unitOffset text count ≤ (utf16 text).length := by
  rw [← unitOffset_codePointCount]
  exact unitOffset_mono text hcount

/-- An offset at which a code point starts is sent to the byte at which it starts. -/
theorem byteOfUnit_unitOffset (count : Nat) :
    byteOfUnit (tokens text) (unitOffset text count) = offset text count := by
  have happend := byteOfUnit_append ((tokens text).take count) ((tokens text).drop count) 0
  rwa [List.take_append_drop, byteOfUnit_zero, Nat.add_zero, Nat.add_zero] at happend

/-- So is the offset between its two surrogates. -/
theorem byteOfUnit_inner {count : Nat} (hcount : count < codePointCount text)
    (hinner : unitOffset text count + 1 < unitOffset text (count + 1)) :
    byteOfUnit (tokens text) (unitOffset text count + 1) = offset text count := by
  obtain ⟨token, hdrop, hsucc⟩ := unitOffset_succ text hcount
  have happend := byteOfUnit_append ((tokens text).take count) ((tokens text).drop count) 1
  rw [List.take_append_drop, hdrop, byteOfUnit, if_pos (by omega)] at happend
  exact happend

/-- The end in units is the end in bytes. -/
theorem byteOfUnit_length : byteOfUnit (tokens text) (utf16 text).length = text.length := by
  rw [← unitOffset_codePointCount, byteOfUnit_unitOffset, offset_codePointCount]

variable {text}

/-- In ASCII text a unit is a byte. -/
theorem byteOfUnit_ascii (hascii : ∀ byte ∈ text, byte ≤ 0x7f) {index : Nat}
    (hindex : index ≤ text.length) : byteOfUnit (tokens text) index = index := by
  have hbelow : ∀ byte ∈ text, byte < 0x80 := by
    intro byte hmem
    have := UInt8.le_iff_toNat_le.mp (hascii byte hmem)
    exact UInt8.lt_iff_toNat_lt.mpr (Nat.lt_succ_of_le this)
  have hunits : unitOffset text index = index := by
    have htake : (utf16 (text.take index)).length = index := by
      rw [utf16_ascii fun byte hmem => hascii byte (List.mem_of_mem_take hmem), widen,
        List.length_map, List.length_take_of_le hindex]
    rw [utf16, tokens_ascii fun byte hmem => hbelow byte (List.mem_of_mem_take hmem)] at htake
    rw [unitOffset, tokens_ascii hbelow, ← List.map_take]
    exact htake
  have hplace := byteOfUnit_unitOffset text index
  rwa [hunits, offset_ascii hbelow, Nat.min_eq_left hindex] at hplace

end Map

/-! ## The table of a subject -/

/-- A subject marked as ASCII is ASCII. -/
def Truthful (source : StringView) : Prop :=
  source.enc = .ascii → ∀ byte ∈ source.bytes, byte ≤ 0x7f

section Table

variable {source : StringView} {cache : SubjectCache}

/-- If the mark is truthful, the units are the text in UTF-16. -/
theorem subjectUnits_of_truthful (htruthful : Truthful source) :
    subjectUnits source = utf16 source.bytes := by
  unfold subjectUnits
  split
  next henc => exact (utf16_ascii (htruthful henc)).symm
  next => rfl

/-- A subject that is taken for ASCII is. -/
theorem ascii_of_isAscii (htruthful : Truthful source) (hascii : isAscii source) :
    ∀ byte ∈ source.bytes, byte ≤ 0x7f := by
  unfold isAscii at hascii
  split at hascii
  next henc => exact htruthful henc
  next =>
    split at hascii
    next => exact absurd hascii Bool.false_ne_true
    next => simpa using hascii

/-- Looking an offset up never fails inside the text and at its end. -/
theorem byteOffset_eq (htruthful : Truthful source) (hcache : HasOffsets cache source)
    {index : Nat} (hindex : index ≤ (utf16 source.bytes).length) (status : UErrorCode) :
    RegexMatcher.byteOffset cache index status =
      ((byteOfUnit (tokens source.bytes) index : Int), status) := by
  rw [hcache, RegexMatcher.byteOffset]
  simp only
  split
  next hascii =>
    have hbytes := ascii_of_isAscii htruthful hascii
    rw [utf16_ascii hbytes, widen, List.length_map] at hindex
    rw [byteOfUnit_ascii hbytes hindex]
  next hascii =>
    -- an empty subject has the table of the tokens too
    have htable : subjectOffsets source = 0 :: tokenOffsets 0 (tokens source.bytes) := by
      unfold subjectOffsets
      split
      next hlen => rw [StringView.bytes_of_len_zero hlen, tokens_nil, tokenOffsets]
      next => rfl
    have hentry : (subjectOffsets source)[index]? =
        some (byteOfUnit (tokens source.bytes) index : Int) := by
      have hget : (((0 : Nat) : Int) :: tokenOffsets 0 (tokens source.bytes))[index]? = _ :=
        tokenOffsets_getElem? (tokens source.bytes) hindex
      rwa [Nat.zero_add, Nat.cast_zero, ← htable] at hget
    obtain ⟨hlength, -⟩ := List.getElem?_eq_some_iff.mp hentry
    rw [if_neg (by rw [Int.toNat_natCast]; omega), Int.toNat_natCast,
      List.getD_eq_getElem?_getD, hentry]
    rfl

end Table

/-! ## Matches in units and in bytes -/

variable {World Engine : Type}

/-- From here on the engine finds these matches, as offsets of units, and then no more. -/
inductive Finds (icu : Icu World Engine) (world : World) :
    Engine → UErrorCode → List (Nat × Nat) → Prop
  | done {engine next : Engine} {status last : UErrorCode}
      (hfind : icu.find world engine status = (next, false, last)) (hlast : failed last = false) :
      Finds icu world engine status []
  | found {engine next : Engine} {status reached started stopped : UErrorCode} {start stop : Nat}
      {rest : List (Nat × Nat)} (hfind : icu.find world engine status = (next, true, reached))
      (hat : failed reached = false) (hstart : icu.start next 0 reached = ((start : Int), started))
      (hstarted : failed started = false)
      (hstop : icu.stop next 0 started = ((stop : Int), stopped))
      (hstopped : failed stopped = false) (hrest : Finds icu world next stopped rest) :
      Finds icu world engine status ((start, stop) :: rest)

/-- A match of the UTF-16 text as a byte range. -/
def toByteRange (source : StringView) (found : Nat × Nat) : RegexRange :=
  ⟨byteOfUnit (tokens source.bytes) found.1, byteOfUnit (tokens source.bytes) found.2⟩

/-- What a loop over the matches has when it stops: `visit` of every range as long as
`goesOn`. -/
def visitWhile {Result : Type} (goesOn : Result → Bool) (visit : Result → RegexRange → Result) :
    List RegexRange → Result → Result
  | [], result => result
  | range :: rest, result =>
      if goesOn result then visitWhile goesOn visit rest (visit result range) else result

section Matches

variable {icu : Icu World Engine} {world : World} {source : StringView} {cache : SubjectCache}

/-- The range of a match in bytes. -/
theorem matchRange_eq (htruthful : Truthful source) (hcache : HasOffsets cache source)
    {engine : Engine} {status started stopped : UErrorCode} {found : Nat × Nat}
    (hstart : icu.start engine 0 status = ((found.1 : Int), started))
    (hstarted : failed started = false)
    (hstop : icu.stop engine 0 started = ((found.2 : Int), stopped))
    (hstopped : failed stopped = false) (hfirst : found.1 ≤ (utf16 source.bytes).length)
    (hsecond : found.2 ≤ (utf16 source.bytes).length) :
    RegexMatcher.matchRange icu engine cache status = (toByteRange source found, stopped) := by
  simp [RegexMatcher.matchRange, hstart, hstarted, hstop, hstopped,
    byteOffset_eq htruthful hcache hfirst, byteOffset_eq htruthful hcache hsecond, toByteRange]

/-- A loop that is asked for more matches than there are visits all of them, unless it
stops itself. -/
theorem matchLoop_finds {Result : Type} (htruthful : Truthful source)
    (hcache : HasOffsets cache source) (goesOn : Result → Bool)
    (visit : Result → RegexRange → Result) {engine : Engine} {status : UErrorCode}
    {found : List (Nat × Nat)} (hfinds : Finds icu world engine status found)
    (hstatus : failed status = false)
    (hinside : ∀ range ∈ found, range.1 ≤ (utf16 source.bytes).length ∧
      range.2 ≤ (utf16 source.bytes).length) {fuel : Nat} (hfuel : found.length < fuel)
    (result : Result) :
    ∃ engine' last, RegexMatcher.matchLoop icu world cache goesOn
        (fun _ result range status => (visit result range, status)) fuel engine result status =
        ⟨engine', visitWhile goesOn visit (found.map (toByteRange source)) result, last, true⟩ ∧
      failed last = false := by
  induction hfinds generalizing fuel result with
  | @done engine next status last hfind hlast =>
      obtain ⟨fuel, rfl⟩ : ∃ less, fuel = less + 1 := ⟨fuel - 1, by omega⟩
      rw [RegexMatcher.matchLoop]
      cases hgoes : goesOn result with
      | false => exact ⟨engine, status, rfl, hstatus⟩
      | true => exact ⟨next, last, by simp [hfind, visitWhile], hlast⟩
  | @found engine next status reached started stopped start stop rest hfind hat hstart hstarted
      hstop hstopped hrest ih =>
      rw [List.length_cons] at hfuel
      obtain ⟨fuel, rfl⟩ : ∃ less, fuel = less + 1 := ⟨fuel - 1, by omega⟩
      rw [RegexMatcher.matchLoop, List.map_cons, visitWhile]
      cases hgoes : goesOn result with
      | false => exact ⟨engine, status, rfl, hstatus⟩
      | true =>
          obtain ⟨hfirst, hsecond⟩ := hinside (start, stop) List.mem_cons_self
          have hrange : RegexMatcher.matchRange icu next cache reached = _ :=
            matchRange_eq htruthful hcache hstart hstarted hstop hstopped hfirst hsecond
          obtain ⟨engine', last, hloop, hlast⟩ := ih hstopped
            (fun range hmem => hinside range (List.mem_cons_of_mem _ hmem))
            (show rest.length < fuel by omega) (visit result (toByteRange source (start, stop)))
          refine ⟨engine', last, ?_, hlast⟩
          simp only [hfind, hat, hrange, hstopped]
          exact hloop

theorem visitWhile_append (ranges output : List RegexRange) :
    visitWhile (fun _ => true) (fun found range => found ++ [range]) ranges output =
      output ++ ranges := by
  induction ranges generalizing output with
  | nil => exact (List.append_nil output).symm
  | cons range rest ih =>
      rw [visitWhile, if_pos rfl, ih, List.append_assoc]
      rfl

end Matches

/-! ## A subject with what it needs -/

/-- The memory and the conversion that a subject asks for are there. -/
structure Platform.Serves (platform : Platform World) (world : World) (source : StringView) :
    Prop where
  buffer : platform.getBuffer world source.len.toNat = true
  offsets : platform.resizeOffsets world (source.len.toNat + 1) = true
  converted : failed (platform.strFromUtf8WithSub world source.bytes).2 = false

/-- The match starts and ends between code points. -/
def AtCodePoints (text : List UInt8) (found : Nat × Nat) : Prop :=
  ∃ first last, first ≤ last ∧ last ≤ codePointCount text ∧
    found = (unitOffset text first, unitOffset text last)

section Serves

variable {platform : Platform World} {world : World} {source : StringView}

/-- If the platform serves, the subject is converted. -/
theorem setUtf16_of_serves (hconverts : platform.Converts) (hchecked : checkView source = .ok ())
    (hserves : platform.Serves world source) (output : List UInt16) :
    setUtf16 platform world output source = (subjectUnits source, .ok ()) := by
  have hok : (setUtf16 platform world output source).2 = .ok () := by
    unfold setUtf16
    rw [hchecked]
    simp only [hserves.buffer, hserves.converted, Bool.not_true, Bool.false_eq_true, if_false]
    split
    · rfl
    · split <;> rfl
  have hset : setUtf16 platform world output source = (_, .ok ()) := Prod.ext rfl hok
  rwa [setUtf16_ok hconverts hset] at hset

theorem setUtf16WithOffsets_of_serves (hchecked : checkView source = .ok ())
    (hserves : platform.Serves world source) (cache : SubjectCache) :
    setUtf16WithOffsets platform world cache source =
      (⟨subjectUnits source, subjectOffsets source, isAscii source⟩, .ok ()) := by
  have hok : (setUtf16WithOffsets platform world cache source).2 = .ok () := by
    unfold setUtf16WithOffsets
    rw [hchecked]
    simp only [hserves.buffer, hserves.offsets, Bool.not_true, Bool.and_false,
      Bool.false_eq_true, if_false]
    split
    · rfl
    · split <;> rfl
  have hset : setUtf16WithOffsets platform world cache source = (_, .ok ()) := Prod.ext rfl hok
  rwa [setUtf16WithOffsets_ok hset] at hset

theorem present_of_checkView (hchecked : checkView source = .ok ()) : source.isNa = false := by
  unfold checkView at hchecked
  split at hchecked
  next => exact absurd hchecked (by simp)
  next =>
    split at hchecked
    next => exact absurd hchecked (by simp)
    next henc =>
      rw [StringView.isNa, decide_eq_false_iff_not]
      intro hmissing
      rw [hmissing] at henc
      exact henc (by decide)

end Serves

section Codes

variable {text : List UInt8} {source : StringView} {found : Nat × Nat}

/-- Ranges at code points are inside the text. -/
theorem AtCodePoints.inside (hat : AtCodePoints text found) :
    found.1 ≤ (utf16 text).length ∧ found.2 ≤ (utf16 text).length := by
  obtain ⟨first, last, hle, hlast, rfl⟩ := hat
  exact ⟨unitOffset_le text (hle.trans hlast), unitOffset_le text hlast⟩

/-- A match between code points, in bytes: between the same code points, and not empty
if it was not. -/
theorem AtCodePoints.toByteRange (hat : AtCodePoints source.bytes found) :
    ∃ first last, first ≤ last ∧ last ≤ codePointCount source.bytes ∧
      found = (unitOffset source.bytes first, unitOffset source.bytes last) ∧
      toByteRange source found = ⟨offset source.bytes first, offset source.bytes last⟩ ∧
      (found.1 < found.2 →
        (toByteRange source found).start < (toByteRange source found).stop) := by
  obtain ⟨first, last, hle, hlast, rfl⟩ := hat
  have hrange : RegexSearch.toByteRange source
      (unitOffset source.bytes first, unitOffset source.bytes last) =
        ⟨offset source.bytes first, offset source.bytes last⟩ := by
    rw [RegexSearch.toByteRange, byteOfUnit_unitOffset, byteOfUnit_unitOffset]
  refine ⟨first, last, hle, hlast, rfl, hrange, ?_⟩
  intro hlt
  rw [hrange]
  have hless : first < last := (unitOffset_mono source.bytes).reflect_lt hlt
  exact Int.ofNat_lt.mpr (offset_lt_offset source.bytes hless hlast)

end Codes

section Bound

variable {icu : Icu World Engine} {world : World} {source : StringView}
  {matcher : RegexMatcher Engine} {engine : Engine} {identity : Nat}

/-- An operation works on the offsets of its subject, whether the matcher holds them
already or not. -/
theorem onSubject_returns {Value : Type} (hchecked : checkView source = .ok ())
    (hserves : icu.Serves world source) (hbound : matcher.matcher = some engine)
    (hcached : matcher.subjectIdentity = some identity → matcher.byteOffsetsValid →
      HasOffsets matcher.cache source)
    {scan : Engine → SubjectCache → Scan Engine Value} {value : Value}
    (hscan : ∀ cache, HasOffsets cache source → ∃ engine' last,
      scan engine cache = ⟨engine', value, last, true⟩ ∧ failed last = false) (refused : Value) :
    ∃ status, (RegexMatcher.onSubject (RegexMatcher.convertOffsets icu world) scan refused source
        (some identity) matcher).1 = .returns (value, status) ∧ failed status = false := by
  obtain ⟨converted, hconverted, hcache⟩ : ∃ converted : RegexMatcher Engine,
      RegexMatcher.convertOffsets icu world source identity matcher = (converted, .ok ()) ∧
        HasOffsets converted.cache source := by
    rw [RegexMatcher.convertOffsets, setUtf16WithOffsets_of_serves hchecked hserves]
    split
    next => exact ⟨_, rfl, rfl⟩
    next hheld =>
      rw [not_or, not_not] at hheld
      exact ⟨matcher, rfl, hcached hheld.1 (by simpa using hheld.2)⟩
  obtain ⟨engine', last, hvalue, hlast⟩ := hscan converted.cache hcache
  refine ⟨last, ?_, hlast⟩
  simp only [RegexMatcher.onSubject, hbound, hconverted, present_of_checkView hchecked, hvalue]
  rfl

/-- What is cached with offsets is the text. -/
theorem units_of_hasOffsets (htruthful : Truthful source) {cache : SubjectCache}
    (hcache : HasOffsets cache source) : cache.units = utf16 source.bytes := by
  rw [hcache]
  exact subjectUnits_of_truthful htruthful

/-- A search reports the matches the engine finds, in bytes. -/
theorem findAll_finds (hchecked : checkView source = .ok ()) (htruthful : Truthful source)
    (hserves : icu.Serves world source) (hbound : matcher.matcher = some engine)
    (hcached : matcher.subjectIdentity = some identity → matcher.byteOffsetsValid →
      HasOffsets matcher.cache source) {found : List (Nat × Nat)}
    (hfinds : Finds icu world (icu.reset world engine (utf16 source.bytes)) zeroError found)
    (hinside : ∀ range ∈ found, range.1 ≤ (utf16 source.bytes).length ∧
      range.2 ≤ (utf16 source.bytes).length) {fuel : Nat} (hfuel : found.length < fuel) :
    ∃ status, (RegexMatcher.findAll icu world fuel source (some identity) matcher).1 =
        .returns (found.map (toByteRange source), status) ∧ failed status = false := by
  apply onSubject_returns hchecked hserves hbound hcached
  intro cache hcache
  obtain ⟨engine', last, hloop, hlast⟩ := matchLoop_finds htruthful hcache (fun _ => true)
    (fun found range => found ++ [range]) hfinds rfl hinside hfuel []
  rw [visitWhile_append] at hloop
  refine ⟨engine', last, ?_, hlast⟩
  rw [RegexMatcher.findAllScan, units_of_hasOffsets htruthful hcache]
  exact hloop

end Bound

/-- Both conversions of a subject give one text, whose offsets the table sends to the
bytes of the code points they lie in. A match between code points is reported between
the same code points of the bytes. -/
theorem offsets_follow_code_points {icu : Icu World Engine} (hconverts : icu.Converts)
    {source : StringView} (hchecked : checkView source = .ok ()) (htruthful : Truthful source)
    {world : World} (hserves : icu.Serves world source) (output : List UInt16)
    (cache : SubjectCache) :
    ∃ (converted : SubjectCache) (byteOf : Nat → Nat),
      setUtf16WithOffsets icu.toPlatform world cache source = (converted, .ok ()) ∧
      setUtf16 icu.toPlatform world output source = (converted.units, .ok ()) ∧
      converted.units = utf16 source.bytes ∧
      (∀ index ≤ converted.units.length, ∀ status,
        RegexMatcher.byteOffset converted index status = ((byteOf index : Int), status)) ∧
      (∀ first second, first ≤ second → second ≤ converted.units.length →
        byteOf first ≤ byteOf second) ∧
      byteOf 0 = 0 ∧ byteOf converted.units.length = source.bytes.length ∧
      (∀ count ≤ codePointCount source.bytes,
        byteOf (unitOffset source.bytes count) = offset source.bytes count) ∧
      (∀ count < codePointCount source.bytes,
        unitOffset source.bytes count + 1 < unitOffset source.bytes (count + 1) →
          byteOf (unitOffset source.bytes count + 1) = offset source.bytes count) ∧
      (∀ matcher engine identity found fuel, matcher.matcher = some engine →
        (matcher.subjectIdentity = some identity → matcher.byteOffsetsValid →
          matcher.cache = converted) →
        Finds icu world (icu.reset world engine converted.units) zeroError found →
        (∀ range ∈ found, AtCodePoints source.bytes range) → found.length < fuel →
        ∃ ranges status,
          (RegexMatcher.findAll icu world fuel source (some identity) matcher).1 =
            .returns (ranges, status) ∧ failed status = false ∧
          List.Forall₂ (fun found range => ∃ first last, first ≤ last ∧
            last ≤ codePointCount source.bytes ∧
            found = (unitOffset source.bytes first, unitOffset source.bytes last) ∧
            range = (⟨offset source.bytes first, offset source.bytes last⟩ : RegexRange) ∧
            (found.1 < found.2 → range.start < range.stop)) found ranges) := by
  have hunits := subjectUnits_of_truthful htruthful
  refine ⟨⟨subjectUnits source, subjectOffsets source, isAscii source⟩,
    byteOfUnit (tokens source.bytes), setUtf16WithOffsets_of_serves hchecked hserves cache,
    setUtf16_of_serves hconverts hchecked hserves output, hunits, ?_, ?_, ?_, ?_, ?_, ?_, ?_⟩
  · intro index hindex status
    rw [hunits] at hindex
    exact byteOffset_eq htruthful rfl hindex status
  · intro first second hle hsecond
    rw [hunits] at hsecond
    exact byteOfUnit_mono hle hsecond
  · exact byteOfUnit_zero _
  · rw [hunits]
    exact byteOfUnit_length source.bytes
  · intro count _
    exact byteOfUnit_unitOffset source.bytes count
  · intro count hcount hinner
    exact byteOfUnit_inner source.bytes hcount hinner
  · intro matcher engine identity found fuel hbound hcached hfinds hat hfuel
    rw [hunits] at hfinds
    obtain ⟨status, hreturns, hstatus⟩ := findAll_finds hchecked htruthful hserves hbound hcached
      hfinds (fun range hmem => (hat range hmem).inside) hfuel
    refine ⟨_, status, hreturns, hstatus, ?_⟩
    apply List.forall₂_map_right_iff.mpr
    apply List.forall₂_same.mpr
    intro range hmem
    exact (hat range hmem).toByteRange

/-- In U+1F600, `b` and the byte `ff`, the unit between the surrogates lies on the byte 0
and `b` on the byte 4. The search for `b` reports one match, which is not empty. -/
theorem offsets_follow_emoji :
    let source : StringView :=
      ⟨.bytes ⟨16, [0xf0, 0x9f, 0x98, 0x80, 0x62, 0xff], by decide⟩, .utf8⟩
    let matcher : RegexMatcher LiteralEngine :=
      ⟨some ⟨⟨[0x62], 0, none, none⟩, [], 0, none⟩, some 7, ⟨0, 0, 0⟩, ⟨[], [], true⟩, none, false⟩
    (∃ converted, setUtf16WithOffsets literalIcu.toPlatform () ⟨[], [], true⟩ source =
        (converted, .ok ()) ∧
      RegexMatcher.byteOffset converted 1 zeroError = (0, zeroError) ∧
      RegexMatcher.byteOffset converted 2 zeroError = (4, zeroError)) ∧
    ∃ range status, (RegexMatcher.findAll literalIcu () 2 source (some 3) matcher).1 =
      .returns ([range], status) ∧ range.start < range.stop := by
  intro source matcher
  have htokens : tokens source.bytes =
      [⟨0x1f600, [0xf0, 0x9f, 0x98, 0x80]⟩, ⟨0x62, [0x62]⟩, ⟨-1, [0xff]⟩] := by decide +kernel
  have hunits : utf16 source.bytes = [0xd83d, 0xde00, 0x62, 0xfffd] := by
    rw [utf16, htokens]
    rfl
  obtain ⟨hzero, hone, htwo⟩ : unitOffset source.bytes 0 = 0 ∧ unitOffset source.bytes 1 = 2 ∧
      unitOffset source.bytes 2 = 3 := by
    simp only [unitOffset, htokens]
    decide
  obtain ⟨hcount, hplace⟩ : codePointCount source.bytes = 3 ∧ offset source.bytes 1 = 4 := by
    simp only [codePointCount, offset, htokens]
    decide
  obtain ⟨converted, byteOf, hset, -, htext, hbyte, -, -, -, hstart, hinner, hmatch⟩ :=
    offsets_follow_code_points (show literalIcu.Converts from fun _ _ _ => rfl)
      (show checkView source = .ok () by decide)
      (show Truthful source from fun henc => absurd henc (by decide))
      (show literalIcu.Serves () source from ⟨rfl, rfl, rfl⟩) [] ⟨[], [], true⟩
  rw [hunits] at htext
  refine ⟨⟨converted, hset, ?_, ?_⟩, ?_⟩
  · have hbetween := hinner 0 (by omega) (by rw [hzero, hone]; decide)
    rw [hzero, offset_zero] at hbetween
    have hlook := hbyte 1 (by rw [htext]; decide) zeroError
    rwa [hbetween] at hlook
  · have hbehind := hstart 1 (by omega)
    rw [hone, hplace] at hbehind
    have hlook := hbyte 2 (by rw [htext]; decide) zeroError
    rwa [hbehind] at hlook
  · have hfinds : Finds literalIcu () (literalIcu.reset ()
        ⟨⟨[0x62], 0, none, none⟩, [], 0, none⟩ converted.units) zeroError [(2, 3)] := by
      rw [htext]
      exact .found rfl rfl rfl rfl rfl rfl (.done rfl rfl)
    have hat : ∀ range ∈ [(2, 3)], AtCodePoints source.bytes range := by
      intro range hmem
      obtain rfl := List.mem_singleton.mp hmem
      exact ⟨1, 2, by decide, by omega, by rw [hone, htwo]⟩
    obtain ⟨ranges, status, hreturns, -, hranges⟩ := hmatch matcher _ 3 [(2, 3)] 2 rfl
      (fun hheld => absurd hheld (by simp [matcher])) hfinds hat (by decide)
    obtain ⟨range, rest, ⟨first, last, -, -, -, -, hnonempty⟩, hrest, rfl⟩ :=
      List.forall₂_cons_left_iff.mp hranges
    obtain rfl := List.forall₂_nil_left_iff.mp hrest
    exact ⟨range, status, hreturns, hnonempty (by decide)⟩

end Charr.RegexSearch
