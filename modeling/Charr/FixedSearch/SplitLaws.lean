import Charr.FixedSearch.History

/-!
# The laws of splitting

How the fields of a split depend on its limit and its options. The unlimited
split gives all fields; every other one is read off from it.
-/

namespace Charr.FixedSearch.FixedMatcher

open Utf8 (CodePoint)

/-! ## Fields under a limit -/

section Limits

variable {omitEmpty tokensOnly : Bool} {unlimited n : Int} {subjectLength : Nat}
  {ranges : List (Nat × Nat)}

/-- Without a limit there are all fields. -/
theorem splitFields_unlimited (hunlimited : unlimited < 0) (hlength : subjectLength ≠ 0) :
    splitFields omitEmpty tokensOnly unlimited subjectLength ranges =
      limitedFields omitEmpty subjectLength (intMax - 1) 0 ranges := by
  have hlimit : fieldLimit unlimited = intMax := if_pos hunlimited
  have hnot : ¬ (tokensOnly = true ∧ fieldLimit unlimited < intMax) := by
    rw [hlimit]
    exact fun h => lt_irrefl _ h.2
  rw [splitFields, if_neg hlength, if_neg hnot, searchLimit, if_neg hnot, hlimit]
  rfl

theorem splitFields_empty : splitFields omitEmpty tokensOnly n 0 ranges = [] :=
  if_pos rfl

/-- With few enough matches the limit of an unlimited split is never met. -/
theorem splitFields_all (hunlimited : unlimited < 0) (hlength : subjectLength ≠ 0)
    (hcount : ranges.length < intMax) :
    splitFields omitEmpty tokensOnly unlimited subjectLength ranges =
      fieldsBetween omitEmpty subjectLength 0 ranges := by
  rw [splitFields_unlimited hunlimited hlength]
  exact limitedFields_eq ranges (Nat.le_sub_one_of_lt hcount)

theorem fieldLimit_of_pos (hn : 1 ≤ n) : fieldLimit n = n :=
  if_neg (by omega)

/-- With tokens only, a limit takes the first fields. -/
theorem splitFields_tokens (hunlimited : unlimited < 0) (hn : 1 ≤ n) (hlimit : n < intMax - 1) :
    splitFields omitEmpty true n subjectLength ranges =
      (splitFields omitEmpty tokensOnly unlimited subjectLength ranges).take n.toNat := by
  by_cases hlength : subjectLength = 0
  · subst hlength
    rw [splitFields_empty, splitFields_empty, List.take_nil]
  · have hbudget : (searchLimit n true - 1).toNat = n.toNat := by
      rw [searchLimit, fieldLimit_of_pos hn, if_pos ⟨rfl, by omega⟩, Int.add_sub_cancel]
    have hn' : n.toNat ≤ intMax - 1 := by omega
    rw [splitFields_unlimited hunlimited hlength, take_limitedFields ranges hn',
      splitFields, if_neg hlength, hbudget, fieldLimit_of_pos hn, if_pos ⟨rfl, by omega⟩,
      take_limitedFields ranges le_rfl]

/-- A limited split that keeps everything: its last field takes in the rest. -/
theorem splitFields_rest (hunlimited : unlimited < 0) (hn : 1 ≤ n) (hlimit : n < intMax - 1)
    (hmore : n < (splitFields false tokensOnly unlimited subjectLength ranges).length) :
    ∃ first, (splitFields false tokensOnly unlimited subjectLength ranges)[n.toNat - 1]? =
        some first ∧
      splitFields false false n subjectLength ranges =
        (splitFields false tokensOnly unlimited subjectLength ranges).take (n.toNat - 1) ++
          [(first.1, subjectLength)] := by
  by_cases hlength : subjectLength = 0
  · subst hlength
    rw [splitFields_empty, List.length_nil] at hmore
    omega
  · have hbudget : (searchLimit n false - 1).toNat = n.toNat - 1 := by
      rw [searchLimit, if_neg (by simp), fieldLimit_of_pos hn]
      omega
    have htake : ∀ count, count ≤ intMax - 1 →
        (limitedFields false subjectLength (intMax - 1) 0 ranges).take count =
          (fieldsBetween false subjectLength 0 ranges).take count :=
      fun count hcount => take_limitedFields ranges hcount
    rw [splitFields_unlimited hunlimited hlength] at hmore ⊢
    have hfields : n.toNat - 1 < (fieldsBetween false subjectLength 0 ranges).length := by
      have hlengths := congrArg List.length (htake n.toNat (by omega))
      rw [List.length_take, List.length_take] at hlengths
      omega
    obtain ⟨first, hfirst, heq⟩ := limitedFields_false ranges hfields
    refine ⟨first, ?_, ?_⟩
    · have hsame := congrArg (·[n.toNat - 1]?) (htake n.toNat (by omega))
      simp only [List.getElem?_take, show n.toNat - 1 < n.toNat by omega, if_true] at hsame
      rw [hsame, hfirst]
    · rw [splitFields, if_neg hlength, hbudget, if_neg (by simp), htake _ (by omega), heq]

/-- Leaving empty fields out leaves none of them. -/
theorem splitFields_nonempty (hordered : Ordered subjectLength 0 ranges) :
    ∀ field ∈ splitFields true tokensOnly n subjectLength ranges, field.1 < field.2 := by
  intro field hfield
  unfold splitFields at hfield
  split at hfield
  · simp at hfield
  · apply limitedFields_nonempty ranges hordered
    simp only at hfield
    split at hfield
    · exact List.mem_of_mem_take hfield
    · exact hfield

end Limits

/-! ## The laws -/

/-- The fields a split returns, whatever the matcher was used for. -/
def Splits (toUpper : CodePoint → CodePoint) (subject pattern : StringView)
    (caseInsensitive : Bool) (n : Int) (omitEmpty tokensOnly : Bool)
    (fields : List ByteRange) : Prop :=
  ∀ history, answer ((used toUpper history).split toUpper subject pattern
    ⟨caseInsensitive, false⟩ n omitEmpty tokensOnly) = .ok (.ok, fields)

/-- The bytes a returned range stands for. -/
def rangeBytes (subject : List UInt8) (range : ByteRange) : List UInt8 :=
  slice subject (range.start.toNat, range.stop.toNat)

/-- The field has a byte. -/
def nonempty (range : ByteRange) : Bool := range.start < range.stop

theorem rangeBytes_toRange (subject : List UInt8) :
    rangeBytes subject ∘ toRange = slice subject := by
  funext range
  rfl

theorem nonempty_toRange (range : Nat × Nat) :
    nonempty (toRange range) = decide (range.1 < range.2) := by
  simp [nonempty, toRange]

section Laws

variable {toUpper : CodePoint → CodePoint} {subject pattern : StringView}
  {subjectBytes patternBytes : List UInt8} {caseInsensitive : Bool} {ranges : List (Nat × Nat)}

/-- A split returns its fields, as ranges and as texts. -/
theorem splits (hsubject : Present subject subjectBytes) (hpattern : Present pattern patternBytes)
    (hne : patternBytes ≠ [])
    (hleftmost : Leftmost toUpper caseInsensitive patternBytes subjectBytes ranges) {n : Int}
    (hn : n ≠ 0) (hlimit : n < intMax - 1) (omitEmpty tokensOnly : Bool) :
    Splits toUpper subject pattern caseInsensitive n omitEmpty tokensOnly
      ((splitFields omitEmpty tokensOnly n subjectBytes.length ranges).map toRange) := by
  intro history
  exact answer_eq (split_eq (consistent_used toUpper history) hsubject hpattern hne hleftmost hn
    hlimit omitEmpty tokensOnly)

/-- The fields and the matches make up the subject, an empty one included. -/
theorem weave_splitFields (hordered : Ordered subjectBytes.length 0 ranges)
    (hempty : subjectBytes = [] → ranges = []) {unlimited : Int} (hunlimited : unlimited < 0)
    (tokensOnly : Bool) (hcount : ranges.length < intMax) :
    (weave (((splitFields false tokensOnly unlimited subjectBytes.length ranges).map toRange).map
      (rangeBytes subjectBytes)) (ranges.map (slice subjectBytes))).flatten = subjectBytes := by
  by_cases hlength : subjectBytes.length = 0
  · obtain rfl := List.length_eq_zero_iff.mp hlength
    rw [hempty rfl, List.length_nil, splitFields_empty]
    rfl
  · rw [splitFields_all hunlimited hlength hcount, List.map_map, rangeBytes_toRange,
      weave_fieldsBetween ranges hordered, List.drop_zero]

/-- Leaving empty fields out is the same as dropping them afterwards. -/
theorem filter_splitFields (hordered : Ordered subjectBytes.length 0 ranges) {unlimited : Int}
    (hunlimited : unlimited < 0) (tokensOnly : Bool) (hcount : ranges.length < intMax) :
    (splitFields true tokensOnly unlimited subjectBytes.length ranges).map toRange =
      ((splitFields false tokensOnly unlimited subjectBytes.length ranges).map toRange).filter
        nonempty := by
  by_cases hlength : subjectBytes.length = 0
  · rw [hlength, splitFields_empty, splitFields_empty]
    rfl
  · rw [splitFields_all hunlimited hlength hcount, splitFields_all hunlimited hlength hcount,
      fieldsBetween_true ranges hordered, List.filter_map]
    congr 2
    funext range
    exact (nonempty_toRange range).symm

end Laws

/-- A split without a limit and one with the limit `n`. Without a limit and with
fewer matches than the largest `int`, fields and matches make up the subject and
skipping leaves the fields that are not empty. A tokens-only split keeps the
first fields; another one ends with a field that takes in the rest; and skipping
never leaves an empty field. -/
theorem split_laws (toUpper : CodePoint → CodePoint) {subject pattern : StringView}
    {subjectBytes patternBytes : List UInt8} (hsubject : Present subject subjectBytes)
    (hpattern : Present pattern patternBytes) (hne : patternBytes ≠ []) (caseInsensitive : Bool)
    {unlimited n : Int} (hunlimited : unlimited < 0) (hn : 1 ≤ n) (hlimit : n < intMax - 1) :
    ∃ ranges all kept,
      Leftmost toUpper caseInsensitive patternBytes subjectBytes ranges ∧
      (∀ tokensOnly, Splits toUpper subject pattern caseInsensitive unlimited false tokensOnly
        all) ∧
      (∀ tokensOnly, Splits toUpper subject pattern caseInsensitive unlimited true tokensOnly
        kept) ∧
      (ranges.length < intMax →
        (weave (all.map (rangeBytes subjectBytes)) (ranges.map (slice subjectBytes))).flatten =
          subjectBytes) ∧
      (ranges.length < intMax → kept = all.filter nonempty) ∧
      Splits toUpper subject pattern caseInsensitive n false true (all.take n.toNat) ∧
      Splits toUpper subject pattern caseInsensitive n true true (kept.take n.toNat) ∧
      (n < all.length → ∃ fields first last,
        Splits toUpper subject pattern caseInsensitive n false false fields ∧
        fields.length = n.toNat ∧ fields.take (n.toNat - 1) = all.take (n.toNat - 1) ∧
        all[n.toNat - 1]? = some first ∧ fields.getLast? = some last ∧
        last.start = first.start ∧ last.stop = subjectBytes.length) ∧
      (∀ limit, limit = unlimited ∨ limit = n → ∀ tokensOnly, ∃ fields,
        Splits toUpper subject pattern caseInsensitive limit true tokensOnly fields ∧
        ∀ field ∈ fields, field.start < field.stop) := by
  obtain ⟨ranges, hleftmost⟩ := exists_leftmost toUpper caseInsensitive hne subjectBytes
  have hordered := hleftmost.ordered hne
  have hempty : subjectBytes = [] → ranges = [] := by
    rintro rfl
    exact matches_nil_of_empty (hleftmost.matches hne)
  have hsplits : ∀ {limit : Int}, limit ≠ 0 → limit < intMax - 1 → ∀ omitEmpty tokensOnly,
      Splits toUpper subject pattern caseInsensitive limit omitEmpty tokensOnly
        ((splitFields omitEmpty tokensOnly limit subjectBytes.length ranges).map toRange) :=
    fun hzero hlarge => splits hsubject hpattern hne hleftmost hzero hlarge
  -- Without a limit nothing is left over for the last field, so both modes agree.
  have hall : ∀ omitEmpty tokensOnly,
      Splits toUpper subject pattern caseInsensitive unlimited omitEmpty tokensOnly
        ((splitFields omitEmpty false unlimited subjectBytes.length ranges).map toRange) := by
    intro omitEmpty tokensOnly
    have hsame : splitFields omitEmpty false unlimited subjectBytes.length ranges =
        splitFields omitEmpty tokensOnly unlimited subjectBytes.length ranges := by
      by_cases hlength : subjectBytes.length = 0
      · rw [hlength, splitFields_empty, splitFields_empty]
      · rw [splitFields_unlimited hunlimited hlength, splitFields_unlimited hunlimited hlength]
    rw [hsame]
    exact hsplits hunlimited.ne (by omega) omitEmpty tokensOnly
  have htokens : ∀ omitEmpty, Splits toUpper subject pattern caseInsensitive n omitEmpty true
      (((splitFields omitEmpty false unlimited subjectBytes.length ranges).map toRange).take
        n.toNat) := by
    intro omitEmpty
    rw [← List.map_take, ← splitFields_tokens hunlimited hn hlimit]
    exact hsplits (by omega) hlimit omitEmpty true
  refine ⟨ranges, _, _, hleftmost, hall false, hall true,
    weave_splitFields hordered hempty hunlimited false,
    filter_splitFields hordered hunlimited false, htokens false, htokens true, ?_, ?_⟩
  · intro hmore
    rw [List.length_map] at hmore
    obtain ⟨first, hfirst, heq⟩ := splitFields_rest hunlimited hn hlimit hmore
    refine ⟨_, toRange first, toRange (first.1, subjectBytes.length),
      hsplits (by omega) hlimit false false, ?_, ?_, ?_, ?_, rfl, rfl⟩
    · rw [List.length_map, heq, List.length_append, List.length_take, List.length_singleton]
      omega
    · rw [heq, List.map_append, List.take_left']
      · rw [List.map_take]
      · rw [List.length_map, List.length_take]
        omega
    · rw [List.getElem?_map, hfirst]
      rfl
    · rw [heq, List.map_append, List.map_singleton, List.getLast?_concat]
  · intro limit hcases tokensOnly
    have hzero : limit ≠ 0 := by
      rcases hcases with rfl | rfl <;> omega
    have hlarge : limit < intMax - 1 := by
      rcases hcases with rfl | rfl <;> omega
    refine ⟨_, hsplits hzero hlarge true tokensOnly, ?_⟩
    intro field hfield
    obtain ⟨range, hrange, rfl⟩ := List.mem_map.mp hfield
    exact Int.ofNat_lt.mpr (splitFields_nonempty hordered range hrange)

/-- The laws at ",a,,b", split at "," with the limit 2. -/
theorem split_laws_at_comma :
    let subject : StringView := ⟨.bytes ⟨100, [44, 97, 44, 44, 98], by decide⟩, .ascii⟩
    let pattern : StringView := ⟨.bytes ⟨200, [44], by decide⟩, .ascii⟩
    ∃ all : List ByteRange,
      Splits id subject pattern false (-1) false false all ∧ all.length = 4 ∧
      Splits id subject pattern false 2 false true (all.take 2) := by
  intro subject pattern
  have hsubject : Present subject [44, 97, 44, 44, 98] := ⟨rfl, _, rfl, rfl⟩
  have hpattern : Present pattern [44] := ⟨rfl, _, rfl, rfl⟩
  obtain ⟨ranges, all, kept, -, hall, -, -, -, htokens, -⟩ :=
    split_laws id hsubject hpattern (by decide) false (show (-1 : Int) < 0 by decide)
      (show (1 : Int) ≤ 2 by decide) (by decide)
  refine ⟨all, hall false, ?_, htokens⟩
  have hfields : Except.ok (FixedSplitResult.ok, all) = Except.ok
      (FixedSplitResult.ok, [⟨0, 0⟩, ⟨1, 2⟩, ⟨3, 3⟩, ⟨4, 5⟩]) := (hall false []).symm
  simp only [Except.ok.injEq, Prod.mk.injEq, true_and] at hfields
  rw [hfields]
  rfl

/-- A limit of `intMax - 1` is refused, so a tokens-only split with it does not
return the one field of "a" split at "b". -/
theorem split_refuses_large_limit :
    let subject : StringView := ⟨.bytes ⟨100, [97], by decide⟩, .ascii⟩
    let pattern : StringView := ⟨.bytes ⟨200, [98], by decide⟩, .ascii⟩
    answer (({} : FixedMatcher).split id subject pattern ⟨false, false⟩ (-1) false true) =
      .ok (.ok, [⟨0, 1⟩]) ∧
    answer (({} : FixedMatcher).split id subject pattern ⟨false, false⟩ 2147483646 false true) =
      .ok (.limitTooLarge, []) ∧
    ¬ ∃ status, answer
      (({} : FixedMatcher).split id subject pattern ⟨false, false⟩ 2147483646 false true) =
        .ok (status, [⟨0, 1⟩].take 2147483646) := by
  refine ⟨by decide, by decide, ?_⟩
  rintro ⟨status, hstatus⟩
  change Except.ok (FixedSplitResult.limitTooLarge, []) = _ at hstatus
  simp at hstatus

/-! ## The inline path -/

section Inline

variable {toUpper : CodePoint → CodePoint} {self : FixedMatcher} {subject pattern : StringView}
  {options : FixedSearchOptions}

/-- A subject is refused, has no bytes to search, or is a text of its own. -/
theorem subject_cases (subject : StringView) :
    (subject.isNa ∨ subject.len < 0 ∨ (subject.isNull ∧ subject.len ≠ 0)) ∨
    subject.isNa = false ∧ subject.len = 0 ∨ ∃ subjectBytes, Present subject subjectBytes := by
  by_cases hrefused : subject.isNa ∨ subject.len < 0 ∨ (subject.isNull ∧ subject.len ≠ 0)
  · exact .inl hrefused
  · obtain ⟨hpresent, hrest⟩ := not_or.mp hrefused
    have hna : subject.isNa = false := by simpa using hpresent
    cases hdata : subject.data with
    | bytes span => exact .inr (.inr ⟨span.bytes, hna, span, hdata, rfl⟩)
    | null len =>
        refine .inr (.inl ⟨hna, ?_⟩)
        have hnull : subject.isNull = true := by simp [StringView.isNull, hdata]
        exact not_not.mp fun hlen => hrest (.inr ⟨hnull, hlen⟩)

/-- Views that are not there are refused. -/
theorem resetSubject_of_refused
    (hrefused : subject.isNa ∨ subject.len < 0 ∨ (subject.isNull ∧ subject.len ≠ 0)) :
    self.resetSubject toUpper subject pattern options = .error requiresSubject := by
  rw [resetSubject, if_pos hrefused]

theorem resetSubject_of_len_zero (hna : subject.isNa = false) (hlen : subject.len = 0) :
    self.resetSubject toUpper subject pattern options = .ok (none, self) := by
  rw [resetSubject, if_neg (by simp [hna, hlen]), if_pos hlen]

end Inline

/-- The inline path for a delimiter of one byte and the loop over the matcher
cannot be told apart: they give one answer for every subject, limit and option,
whatever the matcher was used for, and that answer is the split's own. -/
theorem splitExactByte_same (toUpper : CodePoint → CodePoint) (history : List Call)
    (subject : StringView) {pattern : StringView} {delimiter : UInt8}
    (hpattern : Present pattern [delimiter]) (n : Int) (omitEmpty tokensOnly : Bool) :
    let self := used toUpper history
    answer (self.splitByMatcher toUpper subject pattern ⟨false, false⟩ n omitEmpty tokensOnly) =
      splitExactByte subject delimiter n omitEmpty tokensOnly ∧
    answer (self.split toUpper subject pattern ⟨false, false⟩ n omitEmpty tokensOnly) =
      splitExactByte subject delimiter n omitEmpty tokensOnly := by
  intro self
  refine ⟨?_, ?_⟩
  · by_cases hlarge : n ≥ intMax - 1
    · rw [splitByMatcher, if_pos hlarge, splitExactByte, if_pos hlarge]
      rfl
    · by_cases hzero : n = 0
      · rw [splitByMatcher, if_neg hlarge, if_pos hzero, splitExactByte, if_neg hlarge,
          if_pos hzero]
        rfl
      · -- from here on both paths look at the subject first
        rcases subject_cases subject with hrefused | ⟨hna, hlen⟩ | ⟨subjectBytes, hsubject⟩
        · rw [splitByMatcher, if_neg hlarge, if_neg hzero, resetSubject_of_refused hrefused,
            splitExactByte, if_neg hlarge, if_neg hzero, if_pos hrefused]
          rfl
        · rw [splitByMatcher, if_neg hlarge, if_neg hzero, resetSubject_of_len_zero hna hlen,
            splitExactByte, if_neg hlarge, if_neg hzero, if_neg (by simp [hna, hlen]),
            if_pos hlen]
          rfl
        · have hne : [delimiter] ≠ [] := List.cons_ne_nil _ _
          obtain ⟨ranges, hleftmost⟩ := exists_leftmost toUpper false hne subjectBytes
          rw [splitExactByte_eq hsubject hleftmost hzero (not_le.mp hlarge)]
          apply answer_eq
          exact splitByMatcher_eq (consistent_used toUpper history) hsubject hpattern hne
            hleftmost hzero (not_le.mp hlarge) omitEmpty tokensOnly
  · have hexact : !false ∧ !pattern.isNull ∧ pattern.len = 1 :=
      ⟨rfl, by simp [hpattern.not_null], by simp [hpattern.len_eq]⟩
    rw [split, if_pos hexact, hpattern.bytes_eq, List.getD_cons_zero]
    cases splitExactByte subject delimiter n omitEmpty tokensOnly <;> rfl

/-- Both paths on ",a,,b" at ",", without empty fields and two tokens only. -/
theorem splitExactByte_same_at_comma :
    let subject : StringView := ⟨.bytes ⟨100, [44, 97, 44, 44, 98], by decide⟩, .ascii⟩
    let pattern : StringView := ⟨.bytes ⟨200, [44], by decide⟩, .ascii⟩
    answer ((used id []).splitByMatcher id subject pattern ⟨false, false⟩ 2 true true) =
      .ok (.ok, [⟨1, 2⟩, ⟨4, 5⟩]) := by
  intro subject pattern
  have hpattern : Present pattern [44] := ⟨rfl, _, rfl, rfl⟩
  rw [(splitExactByte_same id [] subject hpattern 2 true true).1]
  decide

end Charr.FixedSearch.FixedMatcher
