import Charr.Library.Occurrence
import Mathlib.Data.List.Basic
import Mathlib.Logic.Function.Iterate
import Mathlib.Order.Nat

/-!
# The Knuth–Morris–Pratt search

The failure table of a pattern and the scan that uses it, over any symbols and
any way to read them: `read position` gives the symbol at a position and the
position behind it. Table entry `q` is the length of the longest proper border
of the first `q` symbols, and `-1` for `q = 0`.
-/

namespace Kmp

variable {Symbol : Type*} [DecidableEq Symbol]

/-! ## The algorithm -/

/-- Fall back along the table until `symbol` continues the match or nothing is
left of it. -/
def settle (pattern : List Symbol) (next : List Int) (symbol : Symbol) : Nat → Int → Int
  | 0, position => position
  | fuel + 1, position =>
      if 0 ≤ position ∧ pattern[position.toNat]? ≠ some symbol then
        settle pattern next symbol fuel (next.getD position.toNat (-1))
      else position

/-- The same loop on the border length itself, as the table is built with. -/
def settleBorder (pattern : List Symbol) (next : List Int) (symbol : Symbol) : Nat → Int → Int
  | 0, border => border
  | fuel + 1, border =>
      if 0 < border ∧ pattern[(border - 1).toNat]? ≠ some symbol then
        settleBorder pattern next symbol fuel (next.getD (border - 1).toNat (-1) + 1)
      else border

/-- The table after its first entries: each symbol of `rest` adds one. -/
def extendTable (pattern : List Symbol) : List Symbol → List Int → List Int
  | [], next => next
  | symbol :: rest, next =>
      extendTable pattern rest
        (next ++ [settleBorder pattern next symbol (pattern.length + 1)
          (next.getLastD (-1) + 1)])

/-- The failure table of a pattern, of one entry more than the pattern has symbols. -/
def table (pattern : List Symbol) : List Int :=
  extendTable pattern pattern [-1]

/-- Read symbols from `current` on until the pattern has just been read; the
result is the position behind it. -/
def scan (pattern : List Symbol) (next : List Int) (read : Nat → Symbol × Nat) (limit : Nat) :
    Nat → Nat → Int → Option Nat
  | 0, _, _ => none
  | fuel + 1, current, position =>
      if current < limit then
        let position' := settle pattern next (read current).1 (pattern.length + 1) position + 1
        if position' = pattern.length then some (read current).2
        else scan pattern next read limit fuel (read current).2 position'
      else none

/-! ## Borders -/

/-- The first `length` symbols of the pattern end the first `whole` of them. -/
def Border (pattern : List Symbol) (whole length : Nat) : Prop :=
  length < whole ∧ pattern.take length <:+ pattern.take whole

/-- The largest number with a property, or `-1` when there is none. -/
def Greatest (property : Nat → Prop) (position : Int) : Prop :=
  (∀ length : Nat, property length → (length : Int) ≤ position) ∧
    (position = -1 ∨ ∃ length : Nat, position = length ∧ property length)

omit [DecidableEq Symbol] in
/-- A match grows by one symbol exactly when the next symbol of the pattern is read. -/
theorem take_succ_suffix_concat {pattern text : List Symbol} {symbol : Symbol} {length : Nat}
    (hlength : length < pattern.length) :
    pattern.take (length + 1) <:+ text ++ [symbol] ↔
      pattern.take length <:+ text ∧ pattern[length]? = some symbol := by
  rw [List.take_add_one, List.getElem?_eq_getElem hlength, Option.toList_some,
    List.suffix_concat_iff]
  constructor
  · rintro (hnil | ⟨rest, hrest, hsuffix⟩)
    · simp at hnil
      subst hnil
      simp at hlength
    · obtain ⟨rfl, hlast⟩ := List.append_inj' hrest rfl
      exact ⟨hsuffix, by simpa using hlast⟩
  · rintro ⟨hsuffix, hsymbol⟩
    exact Or.inr ⟨_, by rw [Option.some.inj hsymbol], hsuffix⟩

/-- The loop invariant of `settle`: every candidate above `position` has been
ruled out, and `position` itself is a candidate. -/
theorem settle_spec {pattern : List Symbol} {next : List Int} (symbol : Symbol)
    (candidate : Nat → Prop)
    (hnext : ∀ length, candidate length →
      ∃ entry, next[length]? = some entry ∧ Greatest (Border pattern length) entry)
    (hclosed : ∀ whole length, candidate whole → length < whole →
      (candidate length ↔ pattern.take length <:+ pattern.take whole))
    (fuel : Nat) {position : Int}
    (habove : ∀ length : Nat, candidate length → pattern[length]? = some symbol →
      (length : Int) ≤ position)
    (hposition : position = -1 ∨ ∃ length : Nat, position = length ∧ candidate length)
    (hfuel : position < fuel) :
    Greatest (fun length => candidate length ∧ pattern[length]? = some symbol)
      (settle pattern next symbol fuel position) := by
  induction fuel generalizing position with
  | zero =>
      rcases hposition with rfl | ⟨length, rfl, -⟩
      · exact ⟨fun length hlength => habove length hlength.1 hlength.2, Or.inl rfl⟩
      · omega
  | succ fuel ih =>
      rw [settle]
      split
      next hcontinue =>
        rcases hposition with rfl | ⟨whole, rfl, hwhole⟩
        · omega
        · obtain ⟨entry, hentry, hgreatest, hborder⟩ := hnext whole hwhole
          rw [Int.toNat_natCast] at hcontinue ⊢
          have hget : next.getD whole (-1) = entry := by
            rw [List.getD_eq_getElem?_getD, hentry]
            rfl
          rw [hget]
          apply ih
          -- what lies between the entry and `whole` is no border
          · intro length hlength hsymbol
            have hle := habove length hlength hsymbol
            have hne : length ≠ whole := by
              rintro rfl
              exact hcontinue.2 hsymbol
            have hlt : length < whole := by omega
            exact hgreatest length ⟨hlt, (hclosed whole length hwhole hlt).mp hlength⟩
          · rcases hborder with rfl | ⟨length, rfl, hless, hsuffix⟩
            · exact Or.inl rfl
            · exact Or.inr ⟨length, rfl, (hclosed whole length hwhole hless).mpr hsuffix⟩
          -- the position falls, and with it the fuel that is needed
          · rcases hborder with rfl | ⟨length, rfl, hless, -⟩ <;> omega
      next hstop =>
        refine ⟨fun length hlength => habove length hlength.1 hlength.2, ?_⟩
        rcases hposition with rfl | ⟨length, rfl, hlength⟩
        · exact Or.inl rfl
        · right
          refine ⟨length, rfl, hlength, ?_⟩
          by_contra hne
          rw [Int.toNat_natCast] at hstop
          exact hstop ⟨by omega, hne⟩

omit [DecidableEq Symbol] in
/-- A border one symbol longer. -/
theorem Greatest.succ {smaller larger : Nat → Prop} {position : Int}
    (hgreatest : Greatest smaller position) (hzero : larger 0)
    (hsucc : ∀ length, larger (length + 1) ↔ smaller length) :
    Greatest larger (position + 1) := by
  obtain ⟨habove, hposition⟩ := hgreatest
  constructor
  · intro length hlength
    cases length with
    | zero => rcases hposition with rfl | ⟨length, rfl, -⟩ <;> omega
    | succ length =>
        have := habove length ((hsucc length).mp hlength)
        omega
  · rcases hposition with rfl | ⟨length, rfl, hsmaller⟩
    · exact Or.inr ⟨0, rfl, hzero⟩
    · exact Or.inr ⟨length + 1, by omega, (hsucc length).mpr hsmaller⟩

/-! ## The table -/

/-- The first `count` entries behind entry `0` are those of the full table. -/
structure IsTable (pattern : List Symbol) (count : Nat) (next : List Int) : Prop where
  length_eq : next.length = count + 1
  entry : ∀ length ≤ count,
    ∃ entry, next[length]? = some entry ∧ Greatest (Border pattern length) entry

/-- Settling in the construction is settling in the search, one position later. -/
theorem settleBorder_eq (pattern : List Symbol) (next : List Int) (symbol : Symbol) (fuel : Nat)
    (position : Int) :
    settleBorder pattern next symbol fuel (position + 1) =
      settle pattern next symbol fuel position + 1 := by
  induction fuel generalizing position with
  | zero => rfl
  | succ fuel ih =>
      rw [settleBorder, settle, Int.add_sub_cancel]
      by_cases hcontinue : 0 ≤ position ∧ pattern[position.toNat]? ≠ some symbol
      · rw [if_pos hcontinue, if_pos ⟨by omega, hcontinue.2⟩, ih]
      · rw [if_neg hcontinue, if_neg fun h => hcontinue ⟨by omega, h.2⟩]

omit [DecidableEq Symbol] in
theorem isTable_singleton (pattern : List Symbol) : IsTable pattern 0 [-1] where
  length_eq := rfl
  entry length hlength := by
    obtain rfl : length = 0 := by omega
    refine ⟨-1, rfl, fun border hborder => ?_, Or.inl rfl⟩
    exact absurd hborder.1 (by omega)

/-- One round of the table loop adds the next entry. -/
theorem IsTable.concat {pattern : List Symbol} {count : Nat} {next : List Int} {symbol : Symbol}
    (htable : IsTable pattern count next) (hsymbol : pattern[count]? = some symbol) :
    IsTable pattern (count + 1) (next ++ [settleBorder pattern next symbol (pattern.length + 1)
      (next.getLastD (-1) + 1)]) := by
  obtain ⟨hcount, -⟩ := List.getElem?_eq_some_iff.mp hsymbol
  obtain ⟨last, hlast, hgreatest⟩ := htable.entry count le_rfl
  have hlastD : next.getLastD (-1) = last := by
    rw [List.getLastD_eq_getLast?, List.getLast?_eq_getElem?, htable.length_eq,
      Nat.add_sub_cancel, hlast]
    rfl
  have hbelow : last < (pattern.length + 1 : Nat) := by
    rcases hgreatest.2 with rfl | ⟨length, rfl, hborder⟩
    · omega
    · have := hborder.1
      omega
  have hsettled := settle_spec symbol (Border pattern count)
    (fun length hlength => htable.entry length hlength.1.le)
    (fun whole length hwhole hless =>
      ⟨fun hborder => List.suffix_of_suffix_length_le hborder.2 hwhole.2
        (by simp only [List.length_take]; omega),
      fun hsuffix => ⟨hless.trans hwhole.1, hsuffix.trans hwhole.2⟩⟩)
    (pattern.length + 1) (fun length hlength _ => hgreatest.1 length hlength) hgreatest.2 hbelow
  have hentry : Greatest (Border pattern (count + 1))
      (settle pattern next symbol (pattern.length + 1) last + 1) := by
    refine hsettled.succ ⟨Nat.succ_pos _, by simp⟩ fun length => ?_
    have hwhole : pattern.take (count + 1) = pattern.take count ++ [symbol] := by
      rw [List.take_add_one, hsymbol]
      rfl
    unfold Border
    rw [hwhole]
    constructor
    · rintro ⟨hless, hsuffix⟩
      obtain ⟨hshorter, hcontinues⟩ := (take_succ_suffix_concat (by omega)).mp hsuffix
      exact ⟨⟨by omega, hshorter⟩, hcontinues⟩
    · rintro ⟨⟨hless, hshorter⟩, hcontinues⟩
      exact ⟨by omega, (take_succ_suffix_concat (by omega)).mpr ⟨hshorter, hcontinues⟩⟩
  rw [hlastD, settleBorder_eq]
  constructor
  · rw [List.length_append, htable.length_eq, List.length_singleton]
  · intro length hlength
    rcases Nat.lt_or_eq_of_le hlength with hlt | rfl
    · rw [List.getElem?_append_left (by rw [htable.length_eq]; omega)]
      exact htable.entry length (by omega)
    · refine ⟨_, ?_, hentry⟩
      rw [← htable.length_eq, List.getElem?_concat_length]

/-- The table of a prefix extends to that of the pattern. -/
theorem IsTable.extend {pattern : List Symbol} (rest : List Symbol) {done : List Symbol}
    {next : List Int} (hpattern : pattern = done ++ rest)
    (htable : IsTable pattern done.length next) :
    IsTable pattern pattern.length (extendTable pattern rest next) := by
  induction rest generalizing done next with
  | nil =>
      rw [extendTable]
      rw [List.append_nil] at hpattern
      rwa [hpattern] at htable ⊢
  | cons symbol rest ih =>
      rw [extendTable]
      have hsymbol : pattern[done.length]? = some symbol := by
        rw [hpattern]
        simp
      have hlonger := htable.concat hsymbol
      have hsplit : pattern = (done ++ [symbol]) ++ rest := by
        rw [hpattern]
        simp
      refine ih hsplit ?_
      rw [List.length_append]
      exact hlonger

/-- The table that is built is the failure table. -/
theorem isTable_table (pattern : List Symbol) :
    IsTable pattern pattern.length (table pattern) :=
  IsTable.extend pattern (List.nil_append pattern).symm (isTable_singleton pattern)

/-! ## The scan -/

section Scan

variable (read : Nat → Symbol × Nat)

/-- The position after `count` symbols have been read from `start` on. -/
def reach (start count : Nat) : Nat :=
  (fun position => (read position).2)^[count] start

/-- The first `count` symbols from `start` on. -/
def symbols (start count : Nat) : List Symbol :=
  (List.range count).map fun index => (read (reach read start index)).1

omit [DecidableEq Symbol] in
theorem reach_succ (start count : Nat) :
    reach read start (count + 1) = (read (reach read start count)).2 :=
  Function.iterate_succ_apply' _ _ _

omit [DecidableEq Symbol] in
theorem symbols_succ (start count : Nat) :
    symbols read start (count + 1) =
      symbols read start count ++ [(read (reach read start count)).1] := by
  rw [symbols, List.range_succ, List.map_append]
  rfl

/-- How a scan may end: behind the first place where the text read so far ends
with the pattern, or at the limit without such a place. -/
def ScanResult (pattern : List Symbol) (limit start : Nat) : Option Nat → Prop
  | some stop => ∃ count, stop = reach read start count ∧
      pattern <:+ symbols read start count ∧
      (∀ earlier < count, reach read start earlier < limit ∧
        ¬ pattern <:+ symbols read start earlier)
  | none => ∃ count, limit ≤ reach read start count ∧
      ∀ earlier ≤ count, ¬ pattern <:+ symbols read start earlier

variable {read}

/-- The first `length` symbols of the pattern end the text. -/
def Overlap (pattern text : List Symbol) (length : Nat) : Prop :=
  length ≤ pattern.length ∧ pattern.take length <:+ text

omit [DecidableEq Symbol] in
/-- The longest overlap is the whole pattern exactly when the text ends with it. -/
theorem Greatest.eq_length_iff {pattern text : List Symbol} {position : Int}
    (hgreatest : Greatest (Overlap pattern text) position) :
    position = pattern.length ↔ pattern <:+ text := by
  obtain ⟨habove, hposition⟩ := hgreatest
  constructor
  · rintro rfl
    rcases hposition with hnone | ⟨length, hlength, -, hsuffix⟩
    · omega
    · obtain rfl : length = pattern.length := by omega
      rwa [List.take_length] at hsuffix
  · intro hsuffix
    have hle := habove pattern.length ⟨le_rfl, by rwa [List.take_length]⟩
    rcases hposition with rfl | ⟨length, rfl, hbound, -⟩
    · omega
    · exact congrArg _ (Nat.le_antisymm hbound (Int.ofNat_le.mp hle))

omit [DecidableEq Symbol] in
/-- An overlap that is no match is shorter than the pattern. -/
theorem Overlap.lt_of_not_suffix {pattern text : List Symbol} {length : Nat}
    (hoverlap : Overlap pattern text length) (hnot : ¬ pattern <:+ text) :
    length < pattern.length := by
  obtain ⟨hle, hsuffix⟩ := hoverlap
  rcases Nat.lt_or_eq_of_le hle with hlt | rfl
  · exact hlt
  · rw [List.take_length] at hsuffix
    exact absurd hsuffix hnot

/-- One round of the scan: the longest overlap with one symbol more. -/
theorem Greatest.advance {pattern text : List Symbol} {position : Int}
    (hposition : Greatest (Overlap pattern text) position) (hnot : ¬ pattern <:+ text)
    (symbol : Symbol) :
    Greatest (Overlap pattern (text ++ [symbol]))
      (settle pattern (table pattern) symbol (pattern.length + 1) position + 1) := by
  have hbelow : position < (pattern.length + 1 : Nat) := by
    rcases hposition.2 with rfl | ⟨length, rfl, hlength⟩
    · omega
    · have := hlength.lt_of_not_suffix hnot
      omega
  have hsettled := settle_spec symbol (Overlap pattern text)
    (fun length hlength => (isTable_table pattern).entry length hlength.1)
    (fun whole length hwhole hless =>
      ⟨fun hlength => List.suffix_of_suffix_length_le hlength.2 hwhole.2
        (by simp only [List.length_take]; omega),
      fun hsuffix => ⟨hless.le.trans hwhole.1, hsuffix.trans hwhole.2⟩⟩)
    (pattern.length + 1) (fun length hlength _ => hposition.1 length hlength)
    hposition.2 hbelow
  -- An overlap of `length + 1` is one of `length` that the symbol continues.
  refine hsettled.succ ⟨Nat.zero_le _, by simp⟩ fun length => ?_
  constructor
  · rintro ⟨hle, hsuffix⟩
    obtain ⟨hshorter, hcontinues⟩ := (take_succ_suffix_concat hle).mp hsuffix
    exact ⟨⟨by omega, hshorter⟩, hcontinues⟩
  · rintro ⟨hlength, hcontinues⟩
    have hlt := hlength.lt_of_not_suffix hnot
    exact ⟨hlt, (take_succ_suffix_concat hlt).mpr ⟨hlength.2, hcontinues⟩⟩

/-- The invariant of the scan: `position` is the longest part of the pattern that
ends the text read so far, and the whole pattern has not been read yet. -/
theorem scan_spec_from {pattern : List Symbol} {limit : Nat}
    (hread : ∀ position, position < (read position).2) (start fuel count : Nat)
    (position : Int)
    (hposition : Greatest (Overlap pattern (symbols read start count)) position)
    (hbefore : ∀ earlier < count, reach read start earlier < limit)
    (hnot : ∀ earlier ≤ count, ¬ pattern <:+ symbols read start earlier)
    (hfuel : limit < fuel + reach read start count) :
    ScanResult read pattern limit start
      (scan pattern (table pattern) read limit fuel (reach read start count) position) := by
  induction fuel generalizing count position with
  | zero => exact ⟨count, by omega, hnot⟩
  | succ fuel ih =>
      rw [scan]
      split
      next hcurrent =>
        have hadvanced := hposition.advance (hnot count le_rfl)
          (read (reach read start count)).1
        rw [← symbols_succ] at hadvanced
        have hbefore' : ∀ earlier < count + 1, reach read start earlier < limit := by
          intro earlier hearlier
          rcases Nat.lt_succ_iff_lt_or_eq.mp hearlier with hlt | rfl
          · exact hbefore earlier hlt
          · exact hcurrent
        simp only
        rw [← reach_succ]
        split
        next hfound =>
          exact ⟨count + 1, rfl, hadvanced.eq_length_iff.mp hfound, fun earlier hearlier =>
            ⟨hbefore' earlier hearlier, hnot earlier (Nat.lt_succ_iff.mp hearlier)⟩⟩
        next hmiss =>
          apply ih _ _ hadvanced hbefore'
          · intro earlier hearlier
            rcases Nat.le_succ_iff.mp hearlier with hle | rfl
            · exact hnot earlier hle
            · exact fun hsuffix => hmiss (hadvanced.eq_length_iff.mpr hsuffix)
          · have := hread (reach read start count)
            rw [reach_succ]
            omega
      next hend => exact ⟨count, by omega, hnot⟩

/-- A scan with enough fuel finds the first place where the pattern has been read. -/
theorem scan_spec {pattern : List Symbol} {limit : Nat}
    (hread : ∀ position, position < (read position).2) (hpattern : pattern ≠ []) (start : Nat)
    {fuel : Nat} (hfuel : limit < fuel + start) :
    ScanResult read pattern limit start
      (scan pattern (table pattern) read limit fuel start 0) := by
  refine scan_spec_from hread start fuel 0 0 ?_ (by simp) ?_ hfuel
  · refine ⟨fun length hlength => ?_, Or.inr ⟨0, rfl, Nat.zero_le _, by simp⟩⟩
    have hnil := List.suffix_nil.mp hlength.2
    rcases List.take_eq_nil_iff.mp hnil with rfl | hempty
    · simp
    · exact absurd hempty hpattern
  · intro earlier hearlier hsuffix
    obtain rfl : earlier = 0 := by omega
    exact hpattern (List.suffix_nil.mp hsuffix)

/-! ## Scanning a text

A text of symbols is read through `read` when symbol `index` stands at
`place index` and the places below the limit are those of the text. -/

/-- `read` goes through `text` along the positions `place`. -/
structure Reading (read : Nat → Symbol × Nat) (limit : Nat) (text : List Symbol)
    (place : Nat → Nat) : Prop where
  advances : ∀ position, position < (read position).2
  place_succ : ∀ index, place (index + 1) = (read (place index)).2
  symbol : ∀ index (hindex : index < text.length), (read (place index)).1 = text[index]
  place_lt : ∀ index, place index < limit ↔ index < text.length

section Reading

variable {limit : Nat} {text : List Symbol} {place : Nat → Nat}
  (hreading : Reading read limit text place)
include hreading

omit [DecidableEq Symbol] in
/-- Reading symbols goes from place to place. -/
theorem Reading.reach_eq (start count : Nat) :
    reach read (place start) count = place (start + count) := by
  induction count with
  | zero => rfl
  | succ count ih => rw [reach_succ, ih, ← hreading.place_succ, Nat.add_assoc]

omit [DecidableEq Symbol] in
/-- What is read are the symbols of the text. -/
theorem Reading.symbols_eq {start count : Nat} (hcount : start + count ≤ text.length) :
    symbols read (place start) count = (text.drop start).take count := by
  induction count with
  | zero => simp [symbols]
  | succ count ih =>
      have hlt : start + count < text.length := hcount
      rw [symbols_succ, ih (by omega), hreading.reach_eq, hreading.symbol _ hlt,
        List.take_add_one, List.getElem?_drop, List.getElem?_eq_getElem hlt, Option.toList_some]

/-- The scan finds the first occurrence and stops behind it. -/
theorem Reading.scan_finds {pattern : List Symbol} (hpattern : pattern ≠ []) (start : Nat)
    {fuel : Nat} (hfuel : limit < fuel + place start) :
    ∃ result, Occurrence.Finds pattern text start result ∧
      scan pattern (table pattern) read limit fuel (place start) 0 =
        result.map fun position => place (position + pattern.length) := by
  have hresult := scan_spec hreading.advances hpattern (place start) hfuel
  -- The text read so far ends with the pattern just where an occurrence ends.
  have hends : ∀ position, start ≤ position → position + pattern.length ≤ text.length →
      (Occurrence.At pattern text position ↔
        pattern <:+ symbols read (place start) (position + pattern.length - start)) := by
    intro position hstart hbound
    have hcount : position + pattern.length - start = position - start + pattern.length := by
      omega
    rw [hreading.symbols_eq (by omega), hcount, ← Occurrence.at_iff_suffix_take,
      Occurrence.at_drop_iff, Nat.add_sub_cancel' hstart]
    rw [List.length_drop]
    omega
  cases hscan : scan pattern (table pattern) read limit fuel (place start) 0 with
  | none =>
      rw [hscan] at hresult
      obtain ⟨count, hlimit, hnot⟩ := hresult
      refine ⟨none, fun position hposition hat => ?_, rfl⟩
      have hbound := hat.add_length_le hpattern
      have hcount : text.length ≤ start + count := by
        rw [hreading.reach_eq] at hlimit
        by_contra hlt
        have := (hreading.place_lt (start + count)).mpr (by omega)
        omega
      exact hnot _ (by omega) ((hends position hposition hbound).mp hat)
  | some stop =>
      rw [hscan] at hresult
      obtain ⟨count, rfl, hsuffix, hbefore⟩ := hresult
      have hpos := List.length_pos_of_ne_nil hpattern
      have hlength := hsuffix.length_le
      rw [symbols, List.length_map, List.length_range] at hlength
      have hbound : start + count ≤ text.length := by
        have hinside := (hbefore (count - 1) (by omega)).1
        rw [hreading.reach_eq, hreading.place_lt] at hinside
        omega
      have hback : start + count - pattern.length + pattern.length = start + count := by omega
      refine ⟨some (start + count - pattern.length), ⟨by omega, ?_, ?_⟩, ?_⟩
      · rw [hends _ (by omega) (by omega), hback, Nat.add_sub_cancel_left]
        exact hsuffix
      · intro earlier hearlier hlt hat
        have hend := hat.add_length_le hpattern
        exact (hbefore _ (show earlier + pattern.length - start < count by omega)).2
          ((hends earlier hearlier hend).mp hat)
      · rw [hreading.reach_eq, Option.map_some, hback]

end Reading

end Scan

end Kmp
