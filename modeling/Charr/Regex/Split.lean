import Charr.FixedSearch.Split
import Charr.Regex.Offsets

/-!
# Splitting at regex matches

A split without options has a loop of its own, which closes a field at every match. The
general loop skips empty fields in place and stops at a limit. Both are the splitting
loop of the fixed matcher on the byte ranges of the matches, zero-width ones included.
-/

namespace Charr.RegexSearch

open Utf8
open FixedSearch (SplitState advanceAll fieldsBetween limitedFields)

variable {World Engine : Type}

/-- What `split` does unless it is a split without options: the general loop. -/
def RegexMatcher.splitGeneral (icu : Icu World Engine) (world : World) (fuel : Nat)
    (subject : StringView) (identity : Option Nat) (n : Int) (omitEmpty tokensOnly : Bool) :
    RegexMatcher Engine → Outcome (List RegexRange × UErrorCode) × RegexMatcher Engine :=
  onSubject (convertOffsets icu world)
    (splitScan icu world fuel subject.len n omitEmpty tokensOnly) [] subject identity

/-! ## The loops as the loop of the fixed matcher -/

/-- A range of bytes as the regex search has it. -/
def toRegexRange (range : ByteRange) : RegexRange := ⟨range.start, range.stop⟩

/-- A pair of positions as a range. -/
def pairRange (pair : Nat × Nat) : RegexRange := ⟨pair.1, pair.2⟩

/-- The fields of a splitting loop over byte ranges. -/
def fieldsOf (state : SplitState) : RegexMatcher.Fields :=
  ⟨state.done.map toRegexRange, toRegexRange state.current, state.fieldCount⟩

section Loops

variable {omitEmpty tokensOnly : Bool} {n : Int}

@[simp] theorem fieldsOf_count (state : SplitState) :
    (fieldsOf state).count = state.fieldCount := rfl

theorem fieldsOf_initial : fieldsOf .initial = ⟨[], ⟨0, 0⟩, 1⟩ := rfl

/-- A match advances the fields as the fixed search does. -/
theorem splitVisit_fieldsOf (state : SplitState) (pair : Nat × Nat) :
    RegexMatcher.splitVisit omitEmpty (fieldsOf state) (pairRange pair) =
      fieldsOf (state.advance omitEmpty pair.1 pair.2) := by
  unfold RegexMatcher.splitVisit SplitState.advance
  by_cases hskip : omitEmpty = true ∧ state.current.start = pair.1
  · rw [if_pos hskip, if_pos (by exact hskip)]
    rfl
  · rw [if_neg hskip, if_neg (by exact hskip)]
    simp [fieldsOf, toRegexRange, pairRange]

/-- The fields are finished as there. -/
theorem splitFinish_fieldsOf (len : Int) (state : SplitState) :
    RegexMatcher.splitFinish len n omitEmpty tokensOnly (fieldsOf state) =
      (state.finish omitEmpty tokensOnly (FixedSearch.fieldLimit n) len).map toRegexRange := by
  have hclose : (if omitEmpty ∧ state.current.start = len then (fieldsOf state).closed
      else (fieldsOf state).closed ++ [⟨state.current.start, len⟩]) =
        (state.close omitEmpty len).map toRegexRange := by
    unfold SplitState.close
    by_cases hskip : omitEmpty = true ∧ state.current.start = len
    · rw [if_pos hskip, if_pos (by exact hskip), List.dropLast_concat]
      rfl
    · rw [if_neg hskip, if_neg (by exact hskip), List.map_append]
      rfl
  unfold RegexMatcher.splitFinish SplitState.finish
  by_cases hcut : tokensOnly = true ∧ FixedSearch.fieldLimit n < intMax
  · rw [if_pos (by exact hcut), if_pos hcut, List.map_take, ← hclose]
    rfl
  · rw [if_neg (by exact hcut), if_neg hcut, ← hclose]
    rfl

theorem visitWhile_fieldsOf (limit : Int) (pairs : List (Nat × Nat)) (state : SplitState) :
    visitWhile (fun fields => decide (fields.count < limit)) (RegexMatcher.splitVisit omitEmpty)
        (pairs.map pairRange) (fieldsOf state) =
      fieldsOf (advanceAll omitEmpty limit pairs state) := by
  induction pairs generalizing state with
  | nil => rfl
  | cons pair rest ih =>
      rw [List.map_cons, visitWhile, advanceAll, splitVisit_fieldsOf, ih, fieldsOf_count]
      by_cases hless : state.fieldCount < limit
      · rw [if_pos hless, if_pos (decide_eq_true hless)]
      · rw [if_neg hless, if_neg (fun hgoes => hless (of_decide_eq_true hgoes))]

/-- The fields under a limit, of an empty subject too. -/
def limitFields (omitEmpty tokensOnly : Bool) (n : Int) (length : Nat)
    (pairs : List (Nat × Nat)) : List (Nat × Nat) :=
  let fields := limitedFields omitEmpty length
    (FixedSearch.searchLimit n tokensOnly - 1).toNat 0 pairs
  if tokensOnly ∧ FixedSearch.fieldLimit n < intMax then
    fields.take (FixedSearch.fieldLimit n).toNat
  else fields

theorem one_le_searchLimit (hn : n ≠ 0) : 1 ≤ FixedSearch.searchLimit n tokensOnly := by
  unfold FixedSearch.searchLimit FixedSearch.fieldLimit intMax
  split <;> split <;> omega

/-- The fields that a split returns. -/
theorem splitFinish_advanceAll (hn : n ≠ 0) (length : Nat) (pairs : List (Nat × Nat)) :
    RegexMatcher.splitFinish length n omitEmpty tokensOnly
        (fieldsOf (advanceAll omitEmpty (FixedSearch.searchLimit n tokensOnly) pairs .initial)) =
      (limitFields omitEmpty tokensOnly n length pairs).map pairRange := by
  have hrange : toRegexRange ∘ FixedSearch.FixedMatcher.toRange = pairRange := by
    funext pair
    rfl
  have hclose := FixedSearch.close_advanceAll omitEmpty (FixedSearch.searchLimit n tokensOnly)
    length pairs (show SplitState.initial.current.start = (0 : Nat) from rfl)
    (one_le_searchLimit hn)
  rw [splitFinish_fieldsOf, SplitState.finish, hclose, limitFields]
  simp only [SplitState.initial, List.nil_append]
  split
  · rw [← List.map_take, List.map_map, hrange]
  · rw [List.map_map, hrange]

/-- The loop of a split without options closes a field at every match. -/
theorem visitWhile_default (length : Nat) (pairs : List (Nat × Nat)) (output : List RegexRange)
    (start : Nat) :
    let fields := visitWhile (fun _ => true)
      (fun (fields : List RegexRange × Int) range =>
        (fields.1 ++ [⟨fields.2, range.start⟩], range.stop))
      (pairs.map pairRange) (output, (start : Int))
    fields.1 ++ [⟨fields.2, length⟩] =
      output ++ (fieldsBetween false length start pairs).map pairRange := by
  induction pairs generalizing output start with
  | nil => rfl
  | cons pair rest ih =>
      simp only [List.map_cons, visitWhile, if_true, fieldsBetween, Bool.false_eq_true, false_and,
        if_false]
      refine (ih (output ++ [⟨start, pair.1⟩]) pair.2).trans ?_
      rw [List.append_assoc]
      rfl

end Loops

/-! ## Fields under a limit -/

section Limits

variable {omitEmpty tokensOnly : Bool} {n : Int} {length : Nat} {pairs : List (Nat × Nat)}

/-- There is at most one field more than matches. -/
theorem fieldsBetween_length_le (start : Nat) :
    (fieldsBetween omitEmpty length start pairs).length ≤ pairs.length + 1 := by
  induction pairs generalizing start with
  | nil =>
      rw [fieldsBetween]
      split
      · exact Nat.zero_le _
      · exact Nat.le_refl 1
  | cons pair rest ih =>
      rw [fieldsBetween, List.length_cons]
      split
      · exact (ih pair.2).trans (Nat.le_succ _)
      · exact Nat.succ_le_succ (ih pair.2)

/-- An unlimited loop meets no limit when the matches are fewer than an `int` counts. -/
theorem limitFields_unlimited (hunlimited : n < 0) (hcount : pairs.length < intMax) :
    limitFields omitEmpty tokensOnly n length pairs = fieldsBetween omitEmpty length 0 pairs := by
  have hlimit : FixedSearch.fieldLimit n = intMax := if_pos hunlimited
  have hnot : ¬ (tokensOnly = true ∧ FixedSearch.fieldLimit n < intMax) := by
    rw [hlimit]
    exact fun h => lt_irrefl _ h.2
  rw [limitFields, if_neg hnot, FixedSearch.searchLimit, if_neg hnot, hlimit]
  exact FixedSearch.limitedFields_eq pairs (Nat.le_sub_one_of_lt hcount)

/-- With tokens only, a limit takes the first fields. -/
theorem limitFields_tokens (hn : 1 ≤ n) (hint : n ≤ intMax) (hcount : pairs.length < intMax) :
    limitFields omitEmpty true n length pairs =
      (fieldsBetween omitEmpty length 0 pairs).take n.toNat := by
  have hlimit : FixedSearch.fieldLimit n = n := if_neg (by omega)
  by_cases hless : n < intMax
  · -- one field more is looked for than is kept
    rw [limitFields, FixedSearch.searchLimit, hlimit, if_pos ⟨rfl, hless⟩, if_pos ⟨rfl, hless⟩,
      Int.add_sub_cancel]
    exact FixedSearch.take_limitedFields pairs le_rfl
  · have hnot : ¬ (true = true ∧ n < intMax) := fun h => hless h.2
    have hfields := @fieldsBetween_length_le omitEmpty length pairs 0
    rw [limitFields, FixedSearch.searchLimit, hlimit, if_neg hnot, if_neg hnot,
      List.take_of_length_le (by omega)]
    exact FixedSearch.limitedFields_eq pairs (by omega)

/-- Where the rest is kept, it is the last field. -/
theorem limitFields_rest (hn : 1 ≤ n)
    (hmore : n < (fieldsBetween false length 0 pairs).length) :
    ∃ first, (fieldsBetween false length 0 pairs)[n.toNat - 1]? = some first ∧
      limitFields false false n length pairs =
        (fieldsBetween false length 0 pairs).take (n.toNat - 1) ++ [(first.1, length)] := by
  have hlimit : FixedSearch.fieldLimit n = n := if_neg (by omega)
  have hnot : ¬ (false = true ∧ n < intMax) := fun h => Bool.false_ne_true h.1
  rw [limitFields, FixedSearch.searchLimit, hlimit, if_neg hnot, if_neg hnot,
    show (n - 1).toNat = n.toNat - 1 by omega]
  exact FixedSearch.limitedFields_false pairs (by omega)

end Limits

/-! ## Splits of a subject -/

/-- Matches as ICU goes from one to the next: where the last one ended, and one unit
further if that one was empty. -/
def Ascending (length : Nat) : Nat → List (Nat × Nat) → Prop
  | _, [] => True
  | start, found :: rest => start ≤ found.1 ∧ found.1 ≤ found.2 ∧ found.2 ≤ length ∧
      Ascending length (if found.1 = found.2 then found.2 + 1 else found.2) rest

/-- `kMaxCapacity`: no longer buffer is handed out. -/
def maxCapacity : Nat := 0x7ffffff5

/-- No buffer is larger than the platform allows. -/
def Platform.Bounded (platform : Platform World) : Prop :=
  ∀ world size, platform.getBuffer world size = true → size ≤ maxCapacity

section Ascending

variable {length start : Nat} {found : List (Nat × Nat)}

theorem Ascending.inside (hascending : Ascending length start found) :
    ∀ range ∈ found, range.1 ≤ length ∧ range.2 ≤ length := by
  induction found generalizing start with
  | nil => simp
  | cons head rest ih =>
      obtain ⟨-, hordered, hend, hrest⟩ := hascending
      intro range hmem
      rcases List.mem_cons.mp hmem with rfl | hrange
      · exact ⟨hordered.trans hend, hend⟩
      · exact ih hrest range hrange

/-- There is at most one match for each unit, and one at the end. -/
theorem Ascending.length_le (hascending : Ascending length start found) :
    found.length ≤ length + 1 - start := by
  induction found generalizing start with
  | nil => exact Nat.zero_le _
  | cons head rest ih =>
      obtain ⟨hstart, hordered, hend, hrest⟩ := hascending
      have hlater := ih hrest
      rw [List.length_cons]
      split at hlater <;> omega

end Ascending

/-- A matcher with a bound pattern, a subject it can convert or holds already, and what
the engine finds there. -/
structure Meets (icu : Icu World Engine) (world : World) (source : StringView) (identity : Nat)
    (matcher : RegexMatcher Engine) (found : List (Nat × Nat)) : Prop where
  checked : checkView source = .ok ()
  truthful : Truthful source
  serves : icu.Serves world source
  cached : matcher.subjectIdentity = some identity → matcher.byteOffsetsValid →
    HasOffsets matcher.cache source
  bound : ∃ engine, matcher.matcher = some engine ∧
    Finds icu world (icu.reset world engine (utf16 source.bytes)) zeroError found
  ascending : Ascending (utf16 source.bytes).length 0 found

/-- The matches as byte ranges. -/
def bytePairs (source : StringView) (found : List (Nat × Nat)) : List (Nat × Nat) :=
  found.map fun range =>
    (byteOfUnit (tokens source.bytes) range.1, byteOfUnit (tokens source.bytes) range.2)

/-- The call returns these fields, without a failure. -/
def Returns (result : Outcome (List RegexRange × UErrorCode) × RegexMatcher Engine)
    (fields : List RegexRange) : Prop :=
  ∃ status, result.1 = .returns (fields, status) ∧ failed status = false

section Splits

variable {icu : Icu World Engine} {world : World} {source : StringView} {identity : Nat}
  {matcher : RegexMatcher Engine} {found : List (Nat × Nat)} {fuel : Nat}

/-- The matches in bytes. -/
theorem bytePairs_pairRange :
    (bytePairs source found).map pairRange = found.map (toByteRange source) := by
  rw [bytePairs, List.map_map]
  rfl

theorem length_of_checked (hchecked : checkView source = .ok ()) :
    source.len = source.bytes.length := by
  unfold checkView at hchecked
  split at hchecked
  next => exact absurd hchecked (by simp)
  next hview =>
    obtain ⟨data, enc⟩ := source
    cases data with
    | bytes span => rfl
    | null len =>
        rw [not_or, not_and_or] at hview
        rcases hview.2 with hnull | hlen
        · exact absurd rfl hnull
        · exact not_not.mp hlen

/-- There is no room for as many matches as the loops count. -/
theorem Meets.length_lt (hmeets : Meets icu world source identity matcher found)
    (hbounded : icu.Bounded) : found.length < intMax := by
  have hsize := hbounded world _ hmeets.serves.buffer
  have hmatches := hmeets.ascending.length_le
  have hunits := utf16_length_le source.bytes
  rw [length_of_checked hmeets.checked, Int.toNat_natCast] at hsize
  unfold maxCapacity at hsize
  unfold intMax
  omega

/-- Splitting with a limit returns the limited fields. -/
theorem splitGeneral_returns (hmeets : Meets icu world source identity matcher found)
    (hfuel : found.length < fuel) {n : Int} (hn : n ≠ 0) (omitEmpty tokensOnly : Bool) :
    Returns (RegexMatcher.splitGeneral icu world fuel source (some identity) n omitEmpty
        tokensOnly matcher)
      ((limitFields omitEmpty tokensOnly n source.bytes.length (bytePairs source found)).map
        pairRange) := by
  obtain ⟨engine, hbound, hfinds⟩ := hmeets.bound
  apply onSubject_returns hmeets.checked hmeets.serves hbound hmeets.cached
  intro cache hcache
  obtain ⟨engine', last, hloop, hlast⟩ := matchLoop_finds hmeets.truthful hcache
    (fun fields => decide (fields.count < RegexMatcher.searchLimit n tokensOnly))
    (RegexMatcher.splitVisit omitEmpty) hfinds rfl hmeets.ascending.inside hfuel
    (fieldsOf .initial)
  rw [← bytePairs_pairRange, visitWhile_fieldsOf, fieldsOf_initial] at hloop
  refine ⟨engine', last, ?_, hlast⟩
  rw [← splitFinish_advanceAll hn, RegexMatcher.splitScan,
    units_of_hasOffsets hmeets.truthful hcache, length_of_checked hmeets.checked]
  simp only [hloop, hlast]
  rfl

/-- Splitting without one returns all fields. -/
theorem splitDefault_returns (hmeets : Meets icu world source identity matcher found)
    (hfuel : found.length < fuel) :
    Returns (RegexMatcher.splitDefault icu world fuel source (some identity) matcher)
      ((fieldsBetween false source.bytes.length 0 (bytePairs source found)).map pairRange) := by
  obtain ⟨engine, hbound, hfinds⟩ := hmeets.bound
  apply onSubject_returns hmeets.checked hmeets.serves hbound hmeets.cached
  intro cache hcache
  obtain ⟨engine', last, hloop, hlast⟩ := matchLoop_finds hmeets.truthful hcache
    (fun _ => true) (fun (fields : List RegexRange × Int) range =>
      (fields.1 ++ [RegexRange.mk fields.2 range.start], range.stop)) hfinds rfl
    hmeets.ascending.inside hfuel ([], 0)
  rw [← bytePairs_pairRange] at hloop
  have hfields := visitWhile_default source.bytes.length (bytePairs source found) [] 0
  refine ⟨engine', last, ?_, hlast⟩
  rw [RegexMatcher.splitDefaultScan, units_of_hasOffsets hmeets.truthful hcache,
    length_of_checked hmeets.checked]
  simp only [hloop, hlast]
  exact congrArg (Scan.mk engine' · last true) hfields

/-- The operation returns the fields of the general loop, whichever loop it runs. -/
theorem split_returns (hbounded : icu.Bounded)
    (hmeets : Meets icu world source identity matcher found) (hfuel : found.length < fuel)
    {n : Int} (hn : n ≠ 0) (hlimit : n < intMax - 1) (omitEmpty tokensOnly : Bool) :
    ∃ status, (RegexMatcher.split icu world fuel source (some identity) n omitEmpty tokensOnly
        matcher).1 = .returns ((.ok, (limitFields omitEmpty tokensOnly n source.bytes.length
          (bytePairs source found)).map pairRange), status) ∧ failed status = false := by
  obtain ⟨engine, hbound, -⟩ := hmeets.bound
  have hpresent := present_of_checkView hmeets.checked
  unfold RegexMatcher.split
  rw [if_neg (by simp [hpresent, hbound]), if_neg (by omega), if_neg hn]
  simp only
  split
  next hoptions =>
    obtain ⟨hunlimited, hkeep, hwhole⟩ := hoptions
    obtain rfl : omitEmpty = false := by simpa using hkeep
    obtain rfl : tokensOnly = false := by simpa using hwhole
    have hcount : (bytePairs source found).length < intMax := by
      rw [bytePairs, List.length_map]
      exact hmeets.length_lt hbounded
    rw [limitFields_unlimited hunlimited hcount]
    obtain ⟨status, hreturns, hstatus⟩ := splitDefault_returns hmeets hfuel
    exact ⟨status, by rw [hreturns]; rfl, hstatus⟩
  next =>
    obtain ⟨status, hreturns, hstatus⟩ :=
      splitGeneral_returns hmeets hfuel hn omitEmpty tokensOnly
    exact ⟨status, by rw [← RegexMatcher.splitGeneral, hreturns]; rfl, hstatus⟩

end Splits

/-- A split without options returns the fields of the general loop. Under a limit the
general loop keeps the first fields if it is asked for tokens only; otherwise, without
skipping, the last field it keeps runs on to the end of the subject. The operation
returns what the loop does, for every limit it admits. -/
theorem split_default_and_limits {icu : Icu World Engine} (hbounded : icu.Bounded)
    {world : World} {source : StringView} {identity : Nat} {matcher : RegexMatcher Engine}
    {found : List (Nat × Nat)} (hmeets : Meets icu world source identity matcher found)
    {fuel : Nat} (hfuel : found.length < fuel) {unlimited : Int} (hunlimited : unlimited < 0) :
    let general := fun n omitEmpty tokensOnly =>
      RegexMatcher.splitGeneral icu world fuel source (some identity) n omitEmpty tokensOnly matcher
    ∃ all kept,
      Returns (general unlimited false false) all ∧ Returns (general unlimited true false) kept ∧
      Returns (RegexMatcher.splitDefault icu world fuel source (some identity) matcher) all ∧
      ∀ n : Int, 1 ≤ n → n ≤ intMax →
        Returns (general n false true) (all.take n.toNat) ∧
        Returns (general n true true) (kept.take n.toNat) ∧
        (n < all.length → ∃ fields first, Returns (general n false false) fields ∧
          fields.length = n.toNat ∧ fields.take (n.toNat - 1) = all.take (n.toNat - 1) ∧
          all[n.toNat - 1]? = some first ∧
          fields.getLast? = some ⟨first.start, source.bytes.length⟩) ∧
        (n < intMax - 1 → ∀ omitEmpty tokensOnly, ∃ fields status,
          Returns (general n omitEmpty tokensOnly) fields ∧
          (RegexMatcher.split icu world fuel source (some identity) n omitEmpty tokensOnly
            matcher).1 = .returns ((.ok, fields), status) ∧ failed status = false) := by
  intro general
  have hreturns : ∀ {n : Int}, n ≠ 0 → ∀ omitEmpty tokensOnly, Returns (general n omitEmpty
      tokensOnly) ((limitFields omitEmpty tokensOnly n source.bytes.length
        (bytePairs source found)).map pairRange) :=
    fun hn => splitGeneral_returns hmeets hfuel hn
  -- fewer matches than the largest int, which stands for no limit
  have hcount : (bytePairs source found).length < intMax := by
    rw [bytePairs, List.length_map]
    exact hmeets.length_lt hbounded
  refine ⟨_, _, ?_, hreturns hunlimited.ne true false, splitDefault_returns hmeets hfuel, ?_⟩
  · rw [← limitFields_unlimited hunlimited hcount]
    exact hreturns hunlimited.ne false false
  · intro n hn hint
    have hne : n ≠ 0 := by omega
    refine ⟨?_, ?_, ?_, ?_⟩
    · rw [← List.map_take, ← limitFields_tokens hn hint hcount]
      exact hreturns hne false true
    · rw [limitFields_unlimited hunlimited hcount, ← List.map_take,
        ← limitFields_tokens hn hint hcount]
      exact hreturns hne true true
    -- the last field that is kept runs on to the end
    · intro hmore
      rw [List.length_map] at hmore
      obtain ⟨first, hfirst, heq⟩ := limitFields_rest hn hmore
      have hlimited := hreturns hne false false
      have hlength : ((fieldsBetween false source.bytes.length 0 (bytePairs source found)).take
          (n.toNat - 1)).length = n.toNat - 1 := by
        rw [List.length_take]
        omega
      rw [heq, List.map_append] at hlimited
      refine ⟨_, pairRange first, hlimited, ?_, ?_, ?_, ?_⟩
      · rw [List.length_append, List.length_map, hlength]
        simp only [List.length_map, List.length_singleton]
        omega
      · rw [List.take_left' (by rw [List.length_map, hlength]), List.map_take]
      · rw [List.getElem?_map, hfirst]
        rfl
      · rw [List.map_singleton, List.getLast?_concat]
        rfl
    · intro hlimit omitEmpty tokensOnly
      obtain ⟨status, hsplit, hstatus⟩ :=
        split_returns hbounded hmeets hfuel hne hlimit omitEmpty tokensOnly
      exact ⟨_, status, hreturns hne omitEmpty tokensOnly, hsplit, hstatus⟩

/-- ICU for literal patterns, with buffers of at most `maxCapacity` units. -/
def boundedIcu : Icu Unit LiteralEngine :=
  { literalIcu with getBuffer := fun _ size => size ≤ maxCapacity }

/-- `abcb`, split at `b`: `a`, `c` and nothing. Two tokens are the first two fields. -/
theorem split_default_and_limits_literal :
    let matcher : RegexMatcher LiteralEngine :=
      ⟨some ⟨⟨[0x62], 0, none, none⟩, [], 0, none⟩, some 7, ⟨0, 0, 0⟩, ⟨[], [], true⟩, none, false⟩
    ∃ all : List RegexRange, all.length = 3 ∧
      Returns (RegexMatcher.splitGeneral boundedIcu () 4 literalSubject (some 3) (-1) false false
        matcher) all ∧
      Returns (RegexMatcher.splitDefault boundedIcu () 4 literalSubject (some 3) matcher) all ∧
      Returns (RegexMatcher.splitGeneral boundedIcu () 4 literalSubject (some 3) 2 false true
        matcher) (all.take 2) := by
  intro matcher
  have hascii : ∀ byte ∈ literalSubject.bytes, byte ≤ 0x7f := by
    simp [literalSubject, StringView.bytes]
  have hunits : utf16 literalSubject.bytes = [0x61, 0x62, 0x63, 0x62] := utf16_ascii hascii
  have hmeets : Meets boundedIcu () literalSubject 3 matcher [(1, 2), (3, 4)] := by
    refine ⟨by decide, fun _ => hascii, ⟨by decide, rfl, rfl⟩, ?_, ⟨_, rfl, ?_⟩, ?_⟩
    · intro hheld
      exact absurd hheld (by simp [matcher])
    · rw [hunits]
      exact .found rfl rfl rfl rfl rfl rfl (.found rfl rfl rfl rfl rfl rfl (.done rfl rfl))
    · rw [hunits]
      simp [Ascending]
  obtain ⟨all, kept, hall, -, hdefault, hlimits⟩ := split_default_and_limits
    (show boundedIcu.Bounded from fun _ size hsize => of_decide_eq_true hsize) hmeets
    (show [(1, 2), (3, 4)].length < 4 by decide) (show (-1 : Int) < 0 by decide)
  refine ⟨all, ?_, hall, hdefault, (hlimits 2 (by decide) (by decide)).1⟩
  obtain ⟨status, hreturns, -⟩ := hdefault
  have hruns : (RegexMatcher.splitDefault boundedIcu () 4 literalSubject (some 3) matcher).1 =
      .returns ([⟨0, 1⟩, ⟨2, 3⟩, ⟨4, 4⟩], zeroError) := by decide
  have hfields := hreturns.symm.trans hruns
  obtain ⟨rfl, -⟩ := Prod.mk.inj (Outcome.returns.inj hfields)
  rfl

end Charr.RegexSearch
