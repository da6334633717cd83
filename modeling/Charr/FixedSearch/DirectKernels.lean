import Charr.FixedSearch.StartsEnds

/-!
# The direct kernels agree with the general path

The direct kernels read a record as it is stored: they skip the normalization,
the byte order mark and the matcher. On every record they accept they give what
the general path gives once the record is normalized, so that it does not matter
at which record the general path takes over.
-/

namespace Charr.FixedSearch

open Occurrence (Greedy)
open Utf8 (CodePoint)
open FixedMatcher (Present Consistent used consistent_used)

/-! ## Normalizing what is stored as ASCII or UTF-8 -/

/-- The general path reads `source` as `view`, whatever else it has converted. -/
def Normalizes (converter : NativeToUtf8) (source view : StringView) : Prop :=
  ∃ storage storage', normalizeUtf8 converter storage source = .ok (view, storage')

/-- The bytes of a record behind a byte order mark. ASCII has no such mark. -/
def unmarked (enc : StringEncoding) (bytes : List UInt8) : List UInt8 :=
  if enc ≠ .ascii ∧ hasBom bytes then bytes.drop 3 else bytes

/-- A record that points at bytes the direct kernels read. -/
structure Stored (source : StringView) (bytes : List UInt8) : Prop where
  present : Present source bytes
  encoding : directAsciiEncoding source.enc = true

variable {converter : NativeToUtf8} {source view : StringView} {bytes : List UInt8}

theorem bytes_slice_length (span : Span) (start : Nat) :
    (span.slice start span.bytes.length).bytes = span.bytes.drop start :=
  List.take_of_length_le (by simp)

/-- What is borrowed has the bytes it is borrowed from, but for the byte order mark. -/
theorem present_borrowed {span : Span} {enc : StringEncoding} (stripBom : Bool)
    (henc : enc ≠ .missing) :
    Present (borrowed stripBom span enc) (if stripBom then span.bytes.drop 3 else span.bytes) := by
  refine ⟨by simp [borrowed, StringView.isNa, henc], _, rfl, ?_⟩
  cases stripBom with
  | false =>
      simp only [Bool.false_eq_true, if_false]
      split
      next hzero => exact (List.eq_nil_of_length_eq_zero hzero).symm
      next => rfl
  | true =>
      have hslice := bytes_slice_length span 3
      simp only [if_true]
      split
      next hzero =>
        rw [hslice] at hzero
        exact (List.eq_nil_of_length_eq_zero hzero).symm
      next => exact hslice

/-- Normalizing cuts off the mark and leaves the storage alone. -/
theorem Stored.normalizeUtf8_eq (hstored : Stored source bytes) (converter : NativeToUtf8)
    (storage : SliceArena) :
    ∃ view, normalizeUtf8 converter storage source = .ok (view, storage) ∧
      Present view (unmarked source.enc bytes) := by
  obtain ⟨⟨hna, span, hdata, rfl⟩, henc⟩ := hstored
  unfold normalizeUtf8
  simp only [hna, Bool.false_eq_true, if_false, hdata]
  split
  next hascii =>
    refine ⟨source, rfl, hna, span, hdata, ?_⟩
    simp [unmarked, hascii]
  next hascii =>
    split
    next hplain =>
      refine ⟨source, rfl, hna, span, hdata, ?_⟩
      have hbom : hasBom span.bytes = false := by simpa using hplain.2
      simp [unmarked, hbom]
    next hmarked =>
      have hutf8 : source.enc = .utf8 ∨ source.enc = .asciiOrUtf8 := by
        simpa [directAsciiEncoding, hascii] using henc
      have hbom : hasBom span.bytes = true := by
        by_contra hnone
        exact hmarked ⟨hutf8, by simpa using hnone⟩
      have hbytes : unmarked source.enc span.bytes = span.bytes.drop 3 := by
        rw [unmarked, if_pos ⟨hascii, hbom⟩]
      unfold normalizeUtf8Slow
      simp only [hna, Bool.false_eq_true, if_false, hdata, Bool.true_and]
      rcases hutf8 with hutf8 | hutf8 <;> rw [hutf8] at hbytes ⊢
      · refine ⟨_, rfl, ?_⟩
        rw [hbytes, hbom]
        exact present_borrowed true (by decide)
      · refine ⟨_, rfl, ?_⟩
        rw [hbytes, hbom]
        exact present_borrowed true (by decide)

/-- A stored record is normalized to its unmarked bytes. -/
theorem Stored.present_of_normalizes (hstored : Stored source bytes)
    (hview : Normalizes converter source view) : Present view (unmarked source.enc bytes) := by
  obtain ⟨storage, storage', hview⟩ := hview
  obtain ⟨other, hother, hpresent⟩ := hstored.normalizeUtf8_eq converter storage
  rw [hother] at hview
  obtain ⟨rfl, -⟩ := Prod.mk.inj (Except.ok.inj hview)
  exact hpresent

/-- A missing record stays missing. -/
theorem na_of_normalizes (hna : source.isNa = true) (hview : Normalizes converter source view) :
    view.isNa = true := by
  obtain ⟨storage, storage', hview⟩ := hview
  rw [normalizeUtf8, if_pos hna] at hview
  obtain ⟨rfl, -⟩ := Prod.mk.inj (Except.ok.inj hview)
  exact hna

/-- A record without a pointer that is not missing is not normalized at all. -/
theorem not_normalizes_null {len : Int} (hdata : source.data = .null len)
    (hna : source.isNa = false) : ¬ Normalizes converter source view := by
  rintro ⟨storage, storage', hview⟩
  simp [normalizeUtf8, normalizeUtf8Slow, hna, hdata] at hview

/-- An eligible record that is there is in an encoding that is read directly. -/
theorem encoding_of_eligible (haccepted : eligible source = true)
    (hna : source.isNa = false) : directAsciiEncoding source.enc = true := by
  simp only [eligible, hna, Bool.false_eq_true, false_or, decide_eq_true_eq] at haccepted
  exact haccepted.1

/-- What is normalized at all is missing or stored where it points. -/
theorem eligible_cases (haccepted : eligible source = true)
    (hview : Normalizes converter source view) :
    source.isNa = true ∨ ∃ bytes, Stored source bytes := by
  by_cases hna : source.isNa = true
  · exact .inl hna
  · right
    rw [Bool.not_eq_true] at hna
    cases hdata : source.data with
    | null len => exact absurd hview (not_normalizes_null hdata hna)
    | bytes span =>
        exact ⟨span.bytes, ⟨hna, span, hdata, rfl⟩, encoding_of_eligible haccepted hna⟩

/-! ## A byte order mark has no ASCII bytes -/

theorem bytes_of_hasBom (hbom : hasBom bytes = true) :
    bytes = 0xef :: 0xbb :: 0xbf :: bytes.drop 3 := by
  simp only [hasBom, decide_eq_true_eq] at hbom
  conv_lhs => rw [← List.take_append_drop 3 bytes, hbom.2]
  rfl

/-- A byte order mark has no ASCII byte. -/
theorem count_unmarked {byte : UInt8} (hbyte : ¬ byte > 0x7f) (enc : StringEncoding)
    (bytes : List UInt8) : (unmarked enc bytes).count byte = bytes.count byte := by
  unfold unmarked
  split
  next hmarked =>
    have hne : ∀ mark : UInt8, mark > 0x7f → mark ≠ byte := by
      rintro mark hmark rfl
      exact hbyte hmark
    conv_rhs => rw [bytes_of_hasBom hmarked.2]
    rw [List.count_cons_of_ne (hne _ (by decide)), List.count_cons_of_ne (hne _ (by decide)),
      List.count_cons_of_ne (hne _ (by decide))]
  next => rfl

/-- The kernel counts the byte. -/
theorem countAsciiByte_eq (bytes : List UInt8) (byte : UInt8) :
    countAsciiByte bytes byte = bytes.count byte := by
  have hgeneral : ∀ found, bytes.foldl
      (fun count other => count + if other = byte then 1 else 0) found =
        found + bytes.count byte := by
    induction bytes with
    | nil => intro found; rfl
    | cons first rest ih =>
        intro found
        rw [List.foldl_cons, ih, List.count_cons]
        simp only [beq_iff_eq]
        omega
  rw [countAsciiByte, hgeneral, Nat.zero_add]

/-- The kernel looks whether there is the byte. -/
theorem containsAsciiByte_eq (bytes : List UInt8) (byte : UInt8) :
    containsAsciiByte bytes byte = decide (0 < bytes.count byte) := by
  rw [containsAsciiByte, Bool.eq_iff_iff, List.any_eq_true, decide_eq_true_eq,
    List.count_pos_iff]
  simp

/-! ## Counting and detecting -/

section Ascii

variable {toUpper : CodePoint → CodePoint} {patterns : List StringView} {pattern : StringView}
  {options : FixedSearchOptions} {byte : UInt8}

/-- An eligible pattern is one ASCII byte, for the general path as well. -/
theorem present_of_directAsciiPattern (hbyte : directAsciiPattern patterns options = some byte)
    (hpattern : Normalizes converter (patterns.getD 0 .na) pattern) :
    options = ⟨false, false⟩ ∧ ¬ byte > 0x7f ∧ Present pattern [byte] := by
  unfold directAsciiPattern at hbyte
  split at hbyte
  next => exact absurd hbyte (by simp)
  next hoptions =>
    simp only at hbyte
    split at hbyte
    next => exact absurd hbyte (by simp)
    next hsingle =>
      simp only [not_or] at hoptions hsingle
      obtain ⟨hna, henc, hnull, hlen, hascii⟩ := hsingle
      rw [Option.some.inj hbyte] at hascii
      refine ⟨?_, hascii, ?_⟩
      · obtain ⟨caseInsensitive, overlap⟩ := options
        simpa using And.intro hoptions.1 hoptions.2.1
      · generalize patterns.getD 0 .na = source at *
        cases hdata : source.data with
        | null len => simp [StringView.isNull, hdata] at hnull
        | bytes span =>
            have hlength : span.bytes.length = 1 := by
              have hone : ((span.bytes.length : Nat) : Int) = 1 := by
                simpa [StringView.len, hdata] using hlen
              exact_mod_cast hone
            obtain ⟨only, honly⟩ := List.length_eq_one_iff.mp hlength
            have hstored : Stored source [only] :=
              ⟨⟨by simpa using hna, span, hdata, honly⟩, by simpa using henc⟩
            obtain rfl : only = byte := by
              simpa [StringView.bytes, hdata, honly] using hbyte
            have hplain : unmarked source.enc [only] = [only] := by
              simp [unmarked, hasBom]
            rw [← hplain]
            exact hstored.present_of_normalizes hpattern

/-- The general path finds an ASCII byte as often as it is stored. -/
theorem exists_matches_byte (toUpper : CodePoint → CodePoint) (hascii : ¬ byte > 0x7f)
    (enc : StringEncoding) (bytes : List UInt8) :
    ∃ ranges, FixedMatcher.Matches toUpper ⟨false, false⟩ [byte] (unmarked enc bytes) ranges ∧
      ranges.length = bytes.count byte := by
  obtain ⟨positions, hgreedy⟩ := Occurrence.exists_sweep (List.cons_ne_nil byte [])
    (unmarked enc bytes) (show ∀ position, position < position + [byte].length from
      fun position => Nat.lt_succ_self position) 0
  refine ⟨_, FixedMatcher.matches_of_greedy (List.cons_ne_nil byte []) hgreedy, ?_⟩
  rw [List.length_map, Greedy.length_singleton hgreedy, List.drop_zero,
    count_unmarked hascii]

theorem count_of_empty (hascii : ¬ byte > 0x7f) {enc : StringEncoding} {bytes : List UInt8}
    (hempty : unmarked enc bytes = []) : bytes.count byte = 0 := by
  rw [← count_unmarked hascii enc bytes, hempty]
  rfl

/-- The direct count of a stored record, whether it is empty or not. -/
theorem Stored.countAsciiElement_eq (hstored : Stored source bytes) (byte : UInt8) :
    countAsciiElement byte source = some (bytes.count byte : Int) := by
  have hlen := hstored.present.len_eq
  have haccepted : ¬ ((!directAsciiEncoding source.enc) = true ∨ source.len < 0 ∨
      (source.isNull = true ∧ source.len > 0)) := by
    rw [hstored.encoding, hstored.present.not_null, hlen]
    simp
  rw [countAsciiElement, hstored.present.not_na, if_neg (by simp), if_neg haccepted,
    hstored.present.bytes_eq, countAsciiByte_eq, hlen]
  split
  next hzero =>
    obtain rfl : bytes = [] := by simpa using hzero
    rfl
  next => rfl

variable {subject : StringView} {matcher : FixedMatcher}

/-- What the direct kernel counts, the matcher counts in the normalized record. -/
theorem countOne_of_countAsciiElement
    (hbyte : directAsciiPattern patterns options = some byte)
    (hpattern : Normalizes converter (patterns.getD 0 .na) pattern)
    (hsubject : Normalizes converter source subject) (hmatcher : Consistent toUpper matcher)
    {value : Int} (hvalue : countAsciiElement byte source = some value) :
    ∃ matcher', countOne toUpper options subject pattern matcher = .ok (value, matcher') := by
  obtain ⟨rfl, hascii, hpresent⟩ := present_of_directAsciiPattern hbyte hpattern
  have haccepted : eligible source = true := by
    have hnone := countAsciiElement_isNone byte source
    rw [hvalue] at hnone
    simpa using hnone
  unfold countOne
  rcases eligible_cases haccepted hsubject with hna | ⟨bytes, hstored⟩
  · rw [countAsciiElement, if_pos hna] at hvalue
    obtain rfl := Option.some.inj hvalue
    rw [if_pos (.inl (na_of_normalizes hna hsubject))]
    exact ⟨matcher, rfl⟩
  · rw [hstored.countAsciiElement_eq byte] at hvalue
    obtain rfl := Option.some.inj hvalue
    have hview := hstored.present_of_normalizes hsubject
    rw [hview.not_na, hpresent.not_na, hpresent.len_eq, if_neg (by simp), hview.len_eq]
    split
    next hempty =>
      have hnil : unmarked source.enc bytes = [] := by simpa using hempty
      rw [count_of_empty hascii hnil]
      exact ⟨matcher, rfl⟩
    next =>
      obtain ⟨ranges, hmatches, hlength⟩ := exists_matches_byte toUpper hascii source.enc bytes
      obtain ⟨matcher', hcount, -⟩ := FixedMatcher.count_eq hmatcher hview hpresent
        (List.cons_ne_nil byte []) hmatches
      rw [hcount, hlength]
      exact ⟨matcher', rfl⟩

/-- The direct search of a stored record, with what it leaves of the limit. -/
theorem Stored.detectAsciiOne_eq (hstored : Stored source bytes) (negate : Bool) (byte : UInt8)
    {maxCount : Int} (hlimit : maxCount ≠ 0) :
    detectAsciiOne negate byte source maxCount =
      let found : Bool := 0 < bytes.count byte
      let result := if negate then !found else found
      some (logical result, if maxCount > 0 ∧ result then maxCount - 1 else maxCount) := by
  have hlen := hstored.present.len_eq
  have haccepted : ¬ ((!source.isNa) = true ∧ ((!directAsciiEncoding source.enc) = true ∨
      source.len < 0 ∨ (source.isNull = true ∧ source.len > 0))) := by
    rw [hstored.encoding, hstored.present.not_null, hlen]
    simp
  have hfound : decide (source.len > 0 ∧ containsAsciiByte source.bytes byte = true) =
      decide (0 < bytes.count byte) := by
    rw [hlen, hstored.present.bytes_eq, containsAsciiByte_eq]
    cases bytes with
    | nil => rfl
    | cons first rest => simp
  rw [detectAsciiOne, if_neg haccepted, if_neg hlimit, hstored.present.not_na,
    if_neg (by simp), hfound]

theorem logical_eq_one_iff {value : Bool} : logical value = 1 ↔ value = true := by
  cases value <;> decide

/-- What the direct kernel detects, the matcher detects in the normalized record. -/
theorem detectOne_of_detectAsciiOne
    (hbyte : directAsciiPattern patterns options = some byte)
    (hpattern : Normalizes converter (patterns.getD 0 .na) pattern)
    (hsubject : Normalizes converter source subject) (hmatcher : Consistent toUpper matcher)
    {negate : Bool} {maxCount left value : Int}
    (hvalue : detectAsciiOne negate byte source maxCount = some (value, left)) :
    ∃ matcher', detectOne toUpper negate options subject pattern ⟨maxCount, matcher⟩ =
      .ok (value, ⟨left, matcher'⟩) := by
  obtain ⟨rfl, hascii, hpresent⟩ := present_of_directAsciiPattern hbyte hpattern
  have haccepted : eligible source = true := by
    have hnone := detectDirect_isNone negate maxCount byte source
    rw [detectDirect, hvalue] at hnone
    simpa using hnone
  have hunread : naInteger ≠ 1 := by decide
  by_cases hlimit : maxCount = 0
  · -- the limit is used up: neither kernel looks at the record
    have hnone : detectAsciiOne negate byte source maxCount = some (naInteger, maxCount) := by
      unfold detectAsciiOne at hvalue ⊢
      split at hvalue
      next => exact absurd hvalue (by simp)
      next hreadable => rw [if_neg hreadable, if_pos hlimit]
    rw [hnone] at hvalue
    obtain ⟨rfl, rfl⟩ := Prod.mk.inj (Option.some.inj hvalue)
    refine ⟨matcher, ?_⟩
    simp [detectOne, hlimit, bind, Except.bind, pure, Except.pure]
  -- otherwise the record is missing or stored
  · rcases eligible_cases haccepted hsubject with hna | ⟨bytes, hstored⟩
    · have hmissing := na_of_normalizes hna hsubject
      simp only [detectAsciiOne, hna, hlimit, Bool.not_true, Bool.false_eq_true, false_and,
        if_false, if_true, Option.some.injEq, Prod.mk.injEq] at hvalue
      obtain ⟨rfl, rfl⟩ := hvalue
      refine ⟨matcher, ?_⟩
      simp [detectOne, hlimit, hmissing, hunread, bind, Except.bind, pure, Except.pure]
    · rw [hstored.detectAsciiOne_eq negate byte hlimit] at hvalue
      obtain ⟨rfl, rfl⟩ := Prod.mk.inj (Option.some.inj hvalue)
      have hview := hstored.present_of_normalizes hsubject
      obtain ⟨ranges, hmatches, hlength⟩ := exists_matches_byte toUpper hascii source.enc bytes
      obtain ⟨matcher', hcontains, -⟩ := FixedMatcher.contains_eq hmatcher hview hpresent
        (List.cons_ne_nil byte []) hmatches
      have hfound : (!ranges.isEmpty) = decide (0 < bytes.count byte) := by
        rw [← hlength]
        cases ranges <;> simp
      unfold detectOne
      rw [hview.not_na, hpresent.not_na, hpresent.len_eq, if_neg hlimit, if_neg (by simp),
        hview.len_eq, hcontains, hfound]
      split
      next hempty =>
        have hnil : unmarked source.enc bytes = [] := by simpa using hempty
        refine ⟨matcher, ?_⟩
        simp [count_of_empty hascii hnil, logical_eq_one_iff, bind, Except.bind, pure, Except.pure]
      next =>
        refine ⟨matcher', ?_⟩
        simp [logical_eq_one_iff, bind, Except.bind, pure, Except.pure]

end Ascii

/-! ## Prefixes and suffixes -/

section StartsEnds

variable {toUpper : CodePoint → CodePoint} {subject pattern : StringView}
  {subjectBytes patternBytes : List UInt8}

/-- A comparison sees the bytes of the two views and nothing else. -/
theorem fixedStartsWith_congr {subject' pattern' : StringView}
    (hsubject : Present subject subjectBytes) (hsubject' : Present subject' subjectBytes)
    (hpattern : Present pattern patternBytes) (hpattern' : Present pattern' patternBytes)
    (byteIndex : Int) (caseInsensitive : Bool) :
    fixedStartsWith toUpper subject byteIndex pattern caseInsensitive =
      fixedStartsWith toUpper subject' byteIndex pattern' caseInsensitive := by
  unfold fixedStartsWith
  rw [hsubject.len_eq, hsubject'.len_eq, hpattern.len_eq, hpattern'.len_eq, hsubject.bytes_eq,
    hsubject'.bytes_eq, hpattern.bytes_eq, hpattern'.bytes_eq, hsubject.not_null,
    hsubject'.not_null, hpattern.not_null, hpattern'.not_null]

/-- Whether a text ends with a pattern depends on their bytes alone. -/
theorem fixedEndsWith_congr {subject' pattern' : StringView}
    (hsubject : Present subject subjectBytes) (hsubject' : Present subject' subjectBytes)
    (hpattern : Present pattern patternBytes) (hpattern' : Present pattern' patternBytes)
    (byteIndex : Int) (caseInsensitive : Bool) :
    fixedEndsWith toUpper subject byteIndex pattern caseInsensitive =
      fixedEndsWith toUpper subject' byteIndex pattern' caseInsensitive := by
  unfold fixedEndsWith
  rw [hsubject.len_eq, hsubject'.len_eq, hpattern.len_eq, hpattern'.len_eq, hsubject.bytes_eq,
    hsubject'.bytes_eq, hpattern.bytes_eq, hpattern'.bytes_eq, hsubject.not_null,
    hsubject'.not_null, hpattern.not_null, hpattern'.not_null]

/-- An empty string neither starts nor ends with anything. -/
theorem fixedStartsWith_empty (hsubject : Present subject []) :
    fixedStartsWith toUpper subject 0 pattern false = false := by
  unfold fixedStartsWith
  rw [hsubject.len_eq]
  split
  next => rfl
  next hpresent =>
    have hpositive : ¬ pattern.len ≤ 0 := fun hle => hpresent (.inr (.inr (.inl hle)))
    simp [hpositive]

theorem fixedEndsWith_empty (hsubject : Present subject []) :
    fixedEndsWith toUpper subject subject.len pattern false = false := by
  unfold fixedEndsWith
  rw [hsubject.len_eq]
  split
  next => rfl
  next hpresent =>
    have hpositive : ¬ pattern.len ≤ 0 := fun hle => hpresent (.inr (.inr (.inl hle)))
    simp [hpositive]

/-- The direct view has the bytes the general path reads. -/
theorem directUtf8View_eq (hdirect : directUtf8View source = some view) :
    ∃ bytes, Stored source bytes ∧ Present view (unmarked source.enc bytes) := by
  unfold directUtf8View at hdirect
  split at hdirect
  next => exact absurd hdirect (by simp)
  next hna =>
    rw [Bool.not_eq_true] at hna
    cases hdata : source.data with
    | null len => simp [hdata] at hdirect
    | bytes span =>
        have hpresent : Present source span.bytes := ⟨hna, span, hdata, rfl⟩
        have hslice := bytes_slice_length span 3
        simp only [hdata] at hdirect
        have hmarked : ∀ enc, enc ≠ .ascii → enc ≠ .missing →
            (if hasBom span.bytes then some ⟨.bytes (span.slice 3 span.bytes.length), .utf8⟩
            else some ⟨.bytes span, enc⟩) = some view → Present view (unmarked enc span.bytes) := by
          intro enc hascii hmissing hread
          split at hread
          next hbom =>
            obtain rfl := Option.some.inj hread
            exact ⟨rfl, _, rfl, by simp [unmarked, hascii, hbom, hslice]⟩
          next hbom =>
            obtain rfl := Option.some.inj hread
            exact ⟨decide_eq_false hmissing, _, rfl, by simp [unmarked, hbom]⟩
        refine ⟨span.bytes, ?_⟩
        cases henc : source.enc with
        | ascii =>
            simp only [henc, Option.some.injEq] at hdirect
            subst hdirect
            exact ⟨⟨hpresent, by rw [henc]; rfl⟩, rfl, span, rfl, by simp [unmarked]⟩
        | utf8 =>
            simp only [henc] at hdirect
            exact ⟨⟨hpresent, by rw [henc]; rfl⟩, hmarked .utf8 (by simp) (by simp) hdirect⟩
        | asciiOrUtf8 =>
            simp only [henc] at hdirect
            exact ⟨⟨hpresent, by rw [henc]; rfl⟩, hmarked .asciiOrUtf8 (by simp) (by simp) hdirect⟩
        | native => simp [henc] at hdirect
        | latin1 => simp [henc] at hdirect
        | bytes => simp [henc] at hdirect
        | missing => simp [henc] at hdirect
        | unknown => simp [henc] at hdirect

variable {patterns : List StringView} {positions : List Int}
  {subjectLength vectorizeLength : Nat} {options : FixedSearchOptions} {starts negate : Bool}
  {state : DirectScalarState}

/-- Everything eligibility promises. -/
theorem directScalarEligible_eq (heligible : directScalarEligible patterns positions
      subjectLength vectorizeLength options starts negate = some state) :
    (patterns.length = 1 ∧ positions = [if starts then 1 else -1] ∧
      subjectLength = vectorizeLength ∧ options = ⟨false, false⟩) ∧
    directUtf8View (patterns.getD 0 .na) = some state.pattern ∧ 0 < state.pattern.len ∧
    state.starts = starts ∧ state.negate = negate := by
  rw [directScalarEligible, Option.ite_none_left_eq_some, Option.ite_none_left_eq_some]
    at heligible
  obtain ⟨hshape, hoptions, hstate⟩ := heligible
  cases hview : directUtf8View (patterns.getD 0 .na) with
  | none => simp only [hview, reduceCtorEq] at hstate
  | some pattern =>
      simp only [hview] at hstate
      rw [Option.ite_none_left_eq_some] at hstate
      obtain ⟨hlen, hstate⟩ := hstate
      obtain rfl := Option.some.inj hstate
      simp only [not_or, not_not] at hshape hoptions
      obtain ⟨hlength, hpatterns, hpositions, hdefault⟩ := hshape
      obtain ⟨position, rfl⟩ := List.length_eq_one_iff.mp hpositions
      obtain ⟨caseInsensitive, overlap⟩ := options
      refine ⟨⟨hpatterns, ?_, hlength, ?_⟩, rfl, by simpa using hlen, rfl, rfl⟩
      · rw [List.getD_cons_zero] at hdefault
        rw [hdefault]
      · simpa using hoptions

/-- What the direct kernel answers, the general one answers for the normalized record. -/
theorem matchOne_of_directScalarOne {body : StartsEndsBody} {index : Nat} {value : Int}
    (heligible : directScalarEligible patterns positions subjectLength vectorizeLength options
      starts negate = some state)
    (hbody : body.positions = positions ∧ body.starts = starts ∧
      body.caseInsensitive = options.caseInsensitive ∧ body.negate = negate)
    (hindex : index < body.subjects.length)
    (hpattern : Normalizes converter (patterns.getD 0 .na) pattern)
    (hsubject : Normalizes converter source (body.subjects.getD index .na))
    (hvalue : directScalarOne toUpper state source = some value) :
    body.matchOne toUpper index pattern = value := by
  obtain ⟨⟨-, rfl, -, rfl⟩, hdirect, hlen, rfl, rfl⟩ := directScalarEligible_eq heligible
  obtain ⟨hpositions, hstarts, hcase, hnegate⟩ := hbody
  obtain ⟨patternBytes, hstoredPattern, hstate⟩ := directUtf8View_eq hdirect
  have hgeneral := hstoredPattern.present_of_normalizes hpattern
  have hpatternLen : ¬ pattern.len ≤ 0 := by
    rw [hgeneral.len_eq, ← hstate.len_eq]
    omega
  unfold StartsEndsBody.matchOne
  rw [Nat.mod_eq_of_lt hindex]
  generalize body.subjects.getD index .na = subject at *
  unfold directScalarOne at hvalue
  split at hvalue
  next hna =>
    rw [if_pos (.inl (na_of_normalizes hna hsubject))]
    exact Option.some.inj hvalue
  next hna =>
    cases hview : directUtf8View source with
    | none => simp [hview] at hvalue
    | some view =>
        simp only [hview, Option.some.injEq] at hvalue
        obtain ⟨bytes, hstored, hdirectView⟩ := directUtf8View_eq hview
        have hsame := hstored.present_of_normalizes hsubject
        simp only [hsame.not_na, hgeneral.not_na, Bool.false_eq_true, hpatternLen, or_self,
          if_false]
        -- The general path answers for an empty subject before it compares.
        split
        next hempty =>
          have hnil : unmarked source.enc bytes = [] := by
            rw [hsame.len_eq] at hempty
            simpa using hempty
          rw [hnil] at hdirectView
          rw [fixedStartsWith_empty hdirectView, fixedEndsWith_empty hdirectView] at hvalue
          rw [← hvalue, hnegate]
          simp
        next =>
          have hposition : (if state.starts = true then 1 else -1 : Int) ≠ naInteger := by
            split <;> decide
          rw [← hvalue, hpositions, List.length_singleton, Nat.mod_one, List.getD_cons_zero,
            if_neg hposition, hstarts, hcase, hnegate, StartsEndsBody.byteIndex, hstarts]
          cases hwhich : state.starts with
          | true =>
              simp only [if_true]
              rw [fixedStartsWith_congr hsame hdirectView hgeneral hstate]
          | false =>
              simp only [Bool.false_eq_true, if_false, if_true]
              rw [fixedEndsWith_congr hsame hdirectView hgeneral hstate, hsame.len_eq,
                hdirectView.len_eq]

end StartsEnds

/-! ## The three kernels -/

/-- An eligible record is normalized without a conversion. -/
theorem normalizeUtf8_of_eligible (haccepted : eligible source = true)
    (hpoints : source.isNa = true ∨ source.isNull = false) (converter : NativeToUtf8)
    (storage : SliceArena) :
    ∃ view, normalizeUtf8 converter storage source = .ok (view, storage) := by
  by_cases hna : source.isNa = true
  · exact ⟨source, by rw [normalizeUtf8, if_pos hna]⟩
  · cases hdata : source.data with
    | null len => simp [hna, StringView.isNull, hdata] at hpoints
    | bytes span =>
        rw [Bool.not_eq_true] at hna
        have hstored : Stored source span.bytes :=
          ⟨⟨hna, span, hdata, rfl⟩, encoding_of_eligible haccepted hna⟩
        obtain ⟨view, hview, -⟩ := hstored.normalizeUtf8_eq converter storage
        exact ⟨view, hview⟩

end Charr.FixedSearch
