import Charr.Library.Kmp
import Mathlib.Order.Monotone.Basic

/-!
# The search from the end, and other tables

The scan of a text from its end with the reversed pattern, and the scan with a
table that may not be the pattern's own: what a table has to do for the result to
be the same.
-/

namespace Kmp

open Occurrence (At Finds FindsLast)

variable {Symbol : Type*} [DecidableEq Symbol]

/-! ## Backwards -/

/-- Read symbols from `current` towards the start until the pattern has just been
read, its last symbol first; the result is the position in front of it. -/
def scanBack (pattern : List Symbol) (next : List Int) (read : Nat → Symbol × Nat) :
    Nat → Nat → Int → Option Nat
  | 0, _, _ => none
  | fuel + 1, current, position =>
      if 0 < current then
        let position' := settle pattern next (read current).1 (pattern.length + 1) position + 1
        if position' = pattern.length then some (read current).2
        else scanBack pattern next read fuel (read current).2 position'
      else none

/-- `read` goes back through `text`, whose symbols stand between the positions `place`. -/
structure ReadingBack (read : Nat → Symbol × Nat) (text : List Symbol) (place : Nat → Nat) :
    Prop where
  retreats : ∀ position, 0 < position → (read position).2 < position
  place_zero : place 0 = 0
  place_mono : StrictMono place
  symbol : ∀ index (hindex : index < text.length),
    read (place (index + 1)) = (text[index], place index)

/-- The same reading from the other end: a position is the distance from the limit. -/
def mirrored (read : Nat → Symbol × Nat) (limit position : Nat) : Symbol × Nat :=
  if position < limit then
    ((read (limit - position)).1, limit - (read (limit - position)).2)
  else ((read 0).1, position + 1)

section Backward

variable {read : Nat → Symbol × Nat} {text : List Symbol} {place : Nat → Nat}

/-- Scanning backwards is scanning forwards what is read in the mirror. -/
theorem scanBack_eq {pattern : List Symbol} {next : List Int} {limit : Nat}
    (hretreats : ∀ position, 0 < position → (read position).2 < position) (fuel : Nat)
    {current : Nat} (hcurrent : current ≤ limit) (position : Int) :
    scanBack pattern next read fuel current position =
      (scan pattern next (mirrored read limit) limit fuel (limit - current) position).map
        (limit - ·) := by
  induction fuel generalizing current position with
  | zero => rfl
  | succ fuel ih =>
      rw [scanBack, scan]
      by_cases hleft : 0 < current
      · have hinside : limit - current < limit := by omega
        have hback := hretreats current hleft
        have hread : mirrored read limit (limit - current) =
            ((read current).1, limit - (read current).2) := by
          rw [mirrored, if_pos hinside, Nat.sub_sub_self hcurrent]
        rw [if_pos hleft, if_pos hinside, hread]
        dsimp only
        split
        next => rw [Option.map_some, Nat.sub_sub_self (by omega)]
        next => exact ih (by omega) _
      · rw [if_neg hleft, if_neg (by omega)]
        rfl

omit [DecidableEq Symbol] in
theorem ReadingBack.place_sub_le (hback : ReadingBack read text place) (index : Nat) :
    place (text.length - index) ≤ place text.length :=
  hback.place_mono.monotone (Nat.sub_le _ _)

omit [DecidableEq Symbol] in
/-- Symbol `index` from the end is read where the symbols before it have left off. -/
theorem ReadingBack.mirrored_eq (hback : ReadingBack read text place) {index : Nat}
    (hindex : index < text.length) :
    mirrored read (place text.length) (place text.length - place (text.length - index)) =
      (text[text.length - (index + 1)],
        place text.length - place (text.length - (index + 1))) := by
  have hinside : text.length - (index + 1) < text.length := by omega
  have hnext : text.length - (index + 1) + 1 = text.length - index := by omega
  have hsymbol := hback.symbol _ hinside
  rw [hnext] at hsymbol
  have hpos := hback.place_mono (Nat.sub_pos_of_lt hindex)
  have hle := hback.place_sub_le index
  have hleft : place text.length - place (text.length - index) < place text.length := by omega
  rw [mirrored, if_pos hleft, Nat.sub_sub_self hle, hsymbol]

omit [DecidableEq Symbol] in
/-- Read from the end, the text is reversed. -/
theorem ReadingBack.reading (hback : ReadingBack read text place) :
    Reading (mirrored read (place text.length)) (place text.length) text.reverse
      (fun index =>
        if index ≤ text.length then place text.length - place (text.length - index)
        else place text.length + (index - text.length)) where
  advances position := by
    rw [mirrored]
    split
    next hinside =>
      have hleft : 0 < place text.length - position := by omega
      have hretreats := hback.retreats _ hleft
      dsimp only
      omega
    next => exact Nat.lt_succ_self _
  place_succ index := by
    rcases Nat.lt_or_ge index text.length with hlt | hge
    · rw [if_pos (Nat.succ_le_of_lt hlt), if_pos hlt.le, hback.mirrored_eq hlt]
    · rw [if_neg (Nat.not_le.mpr (Nat.lt_succ_of_le hge)), mirrored]
      rcases Nat.eq_or_lt_of_le hge with rfl | hgt
      · simp [hback.place_zero]
      · have hpast : ¬ index ≤ text.length := by omega
        simp only [if_neg hpast]
        rw [if_neg (by omega)]
        dsimp only
        omega
  symbol index hindex := by
    rw [List.length_reverse] at hindex
    simp only [if_pos hindex.le, hback.mirrored_eq hindex]
    rw [List.getElem_reverse]
    congr 1
    omega
  place_lt index := by
    rw [List.length_reverse]
    split
    next hle =>
      have hmono := hback.place_mono.lt_iff_lt (a := 0) (b := text.length - index)
      rw [hback.place_zero] at hmono
      have hwhole := hback.place_sub_le index
      omega
    next => omega

/-- The scan from the end finds the last occurrence and stops in front of it. -/
theorem ReadingBack.scanBack_finds (hback : ReadingBack read text place) {pattern : List Symbol}
    (hpattern : pattern ≠ []) {fuel : Nat} (hfuel : place text.length < fuel) :
    ∃ result, FindsLast pattern text result ∧
      scanBack pattern.reverse (table pattern.reverse) read fuel (place text.length) 0 =
        result.map place := by
  have hreverse : pattern.reverse ≠ [] := by simpa using hpattern
  obtain ⟨result, hfinds, hscan⟩ :=
    hback.reading.scan_finds hreverse 0 (show place text.length < fuel + _ by omega)
  rw [if_pos (Nat.zero_le _), Nat.sub_zero, Nat.sub_self] at hscan
  refine ⟨_, hfinds.last_of_reverse hpattern, ?_⟩
  rw [scanBack_eq hback.retreats fuel le_rfl, Nat.sub_self, hscan]
  cases result with
  | none => rfl
  | some position =>
      have hend := hfinds.occurs.add_length_le hreverse
      rw [List.length_reverse, List.length_reverse] at hend
      have hle := hback.place_sub_le (position + pattern.length)
      simp only [Option.map_some, List.length_reverse]
      rw [if_pos hend, Nat.sub_sub_self hle]

end Backward

/-! ## Another table -/

/-- Each entry is shorter than what it falls back from, or nothing. -/
def Falls (count : Nat) (next : List Int) : Prop :=
  ∀ length ≤ count, ∃ entry, next[length]? = some entry ∧
    (entry = -1 ∨ ∃ shorter < length, entry = (shorter : Nat))

/-- The table leads from every part of the pattern and every symbol to where the
pattern's own table leads. -/
def Steers (pattern : List Symbol) (next : List Int) : Prop :=
  ∀ symbol, ∀ length < pattern.length,
    settle pattern next symbol (pattern.length + 1) (length : Nat) =
      settle pattern (table pattern) symbol (pattern.length + 1) (length : Nat)

/-- A pattern's own table steers its search. -/
theorem steers_table (pattern : List Symbol) : Steers pattern (table pattern) :=
  fun _ _ _ => rfl

/-- A failure table falls. -/
theorem falls_table (pattern : List Symbol) : Falls pattern.length (table pattern) := by
  intro length hlength
  obtain ⟨entry, hentry, -, hgreatest⟩ := (isTable_table pattern).entry length hlength
  refine ⟨entry, hentry, ?_⟩
  rcases hgreatest with hnone | ⟨shorter, hshorter, hborder⟩
  · exact .inl hnone
  · exact .inr ⟨shorter, hborder.1, hshorter⟩

/-- Falling back ends at nothing or where the symbol continues. -/
theorem settle_cases {pattern : List Symbol} {next : List Int}
    (hfalls : Falls pattern.length next) (symbol : Symbol) {fuel length : Nat}
    (hlength : length ≤ pattern.length) (hfuel : length < fuel) :
    settle pattern next symbol fuel (length : Nat) = -1 ∨
      ∃ shorter ≤ length, settle pattern next symbol fuel (length : Nat) = (shorter : Nat) ∧
        pattern[shorter]? = some symbol := by
  induction fuel generalizing length with
  | zero => omega
  | succ fuel ih =>
      rw [settle, Int.toNat_natCast]
      by_cases hsymbol : pattern[length]? = some symbol
      · rw [if_neg fun hcontinue => hcontinue.2 hsymbol]
        exact .inr ⟨length, le_rfl, rfl, hsymbol⟩
      · obtain ⟨entry, hentry, hcases⟩ := hfalls length hlength
        have hget : next.getD length (-1) = entry := by
          rw [List.getD_eq_getElem?_getD, hentry]
          rfl
        rw [if_pos ⟨by omega, hsymbol⟩, hget]
        rcases hcases with rfl | ⟨shorter, hshorter, rfl⟩
        · left
          cases fuel with
          | zero => rfl
          | succ fuel => exact if_neg fun hcontinue => absurd hcontinue.1 (by decide)
        · rcases @ih shorter (by omega) (by omega) with hnone | ⟨found, hfound, heq, hat⟩
          · exact .inl hnone
          · exact .inr ⟨found, by omega, heq, hat⟩

/-- One symbol more leaves at most one symbol more matched. -/
theorem exists_longer {pattern : List Symbol} {next : List Int}
    (hfalls : Falls pattern.length next) (symbol : Symbol) {length : Nat}
    (hlength : length < pattern.length) :
    ∃ longer ≤ length + 1, settle pattern next symbol (pattern.length + 1) (length : Nat) + 1 =
      (longer : Nat) ∧ (0 < longer → symbol ∈ pattern) := by
  rcases settle_cases hfalls symbol hlength.le (Nat.lt_succ_of_lt hlength) with
    hnone | ⟨found, hfound, heq, hsymbol⟩
  · exact ⟨0, Nat.zero_le _, by rw [hnone]; rfl, fun hpos => absurd hpos (Nat.lt_irrefl 0)⟩
  · exact ⟨found + 1, by omega, by rw [heq]; rfl, fun _ => List.mem_of_getElem? hsymbol⟩

/-- Any table that steers gives the scan that the pattern's own table gives. -/
theorem scan_of_steers {pattern : List Symbol} {next : List Int} {read : Nat → Symbol × Nat}
    {limit : Nat} (hsteers : Steers pattern next) (fuel current : Nat) {length : Nat}
    (hlength : length < pattern.length) :
    scan pattern next read limit fuel current (length : Nat) =
      scan pattern (table pattern) read limit fuel current (length : Nat) := by
  induction fuel generalizing current length with
  | zero => rfl
  | succ fuel ih =>
      obtain ⟨longer, hlonger, hleads, -⟩ :=
        exists_longer (falls_table pattern) (read current).1 hlength
      rw [scan, scan, hsteers _ length hlength, hleads]
      split
      next =>
        dsimp only
        split
        next => rfl
        next hmiss => exact ih _ (by omega)
      next => rfl

/-- The scan starts with nothing matched. -/
theorem scan_zero_of_steers {pattern : List Symbol} {next : List Int}
    {read : Nat → Symbol × Nat} {limit : Nat} (hsteers : Steers pattern next)
    (hpattern : pattern ≠ []) (fuel current : Nat) :
    scan pattern next read limit fuel current 0 =
      scan pattern (table pattern) read limit fuel current 0 :=
  scan_of_steers hsteers fuel current (List.length_pos_of_ne_nil hpattern)

theorem scanBack_of_steers {pattern : List Symbol} {next : List Int}
    {read : Nat → Symbol × Nat}
    (hretreats : ∀ position, 0 < position → (read position).2 < position)
    (hsteers : Steers pattern next) (hpattern : pattern ≠ []) (fuel limit : Nat) :
    scanBack pattern next read fuel limit 0 =
      scanBack pattern (table pattern) read fuel limit 0 := by
  rw [scanBack_eq hretreats fuel le_rfl, scanBack_eq hretreats fuel le_rfl,
    scan_zero_of_steers hsteers hpattern]

/-! ## A text on which another table fails -/

/-- The scan over a list: how many symbols have been read with the pattern. -/
def scanList (pattern : List Symbol) (next : List Int) : List Symbol → Int → Option Nat
  | [], _ => none
  | symbol :: rest, position =>
      let position' := settle pattern next symbol (pattern.length + 1) position + 1
      if position' = pattern.length then some 1
      else (scanList pattern next rest position').map (· + 1)

/-- A scan of a reader is a scan of the list that it reads. -/
theorem Reading.scan_eq_scanList {read : Nat → Symbol × Nat} {limit : Nat} {text : List Symbol}
    {place : Nat → Nat} (hreading : Reading read limit text place) (pattern : List Symbol)
    (next : List Int) {fuel start : Nat} (hfuel : limit < fuel + place start) (position : Int) :
    scan pattern next read limit fuel (place start) position =
      (scanList pattern next (text.drop start) position).map fun count =>
        place (start + count) := by
  induction fuel generalizing start position with
  | zero =>
      have hpast := mt (hreading.place_lt start).mpr (by omega)
      rw [List.drop_eq_nil_of_le (Nat.not_lt.mp hpast)]
      rfl
  | succ fuel ih =>
      rw [scan]
      by_cases hinside : start < text.length
      · have hsymbol := hreading.symbol start hinside
        have hplace := hreading.place_succ start
        have hadvances := hreading.advances (place start)
        rw [if_pos ((hreading.place_lt start).mpr hinside), List.drop_eq_getElem_cons hinside,
          scanList, hsymbol, ← hplace]
        dsimp only
        split
        next => rfl
        next =>
          rw [ih (by omega), Option.map_map]
          congr 1
          funext count
          rw [Function.comp_apply, Nat.add_right_comm, Nat.add_assoc]
      · rw [if_neg (mt (hreading.place_lt start).mp hinside),
          List.drop_eq_nil_of_le (Nat.not_lt.mp hinside)]
        rfl

section Text

variable {pattern : List Symbol} {next : List Int}

theorem settle_of_match {symbol : Symbol} {length : Nat}
    (hsymbol : pattern[length]? = some symbol) (fuel : Nat) :
    settle pattern next symbol fuel (length : Nat) = (length : Nat) := by
  cases fuel with
  | zero => rfl
  | succ fuel => exact if_neg fun hcontinue => hcontinue.2 hsymbol

/-- While the pattern itself is read, every table follows it. -/
theorem scanList_match {length : Nat} (hlength : length < pattern.length) (rest : List Symbol) :
    scanList pattern next (pattern[length] :: rest) (length : Nat) =
      if length + 1 = pattern.length then some 1
      else (scanList pattern next rest ((length + 1 : Nat) : Int)).map (· + 1) := by
  have hsymbol : pattern[length]? = some pattern[length] := List.getElem?_eq_getElem hlength
  rw [scanList, settle_of_match hsymbol]
  by_cases hwhole : length + 1 = pattern.length
  · rw [if_pos hwhole, if_pos (by omega)]
  · rw [if_neg hwhole, if_neg (by omega)]
    rfl

/-- Along a part of the pattern the scan only advances. -/
theorem scanList_along (count : Nat) {length : Nat} (hlength : length + count < pattern.length)
    (rest : List Symbol) :
    scanList pattern next ((pattern.drop length).take count ++ rest) (length : Nat) =
      (scanList pattern next rest ((length + count : Nat) : Int)).map (· + count) := by
  induction count generalizing length with
  | zero => simp
  | succ count ih =>
      have hinside : length < pattern.length := by omega
      rw [List.drop_eq_getElem_cons hinside, List.take_succ_cons, List.cons_append,
        scanList_match hinside, if_neg (by omega), ih (by omega), Option.map_map,
        Nat.add_right_comm length 1 count]
      rfl

/-- What is left of the pattern completes the match. -/
theorem scanList_finish (count : Nat) {length : Nat}
    (hlength : length + count + 1 = pattern.length) :
    scanList pattern next (pattern.drop length) (length : Nat) = some (count + 1) := by
  have hinside : length < pattern.length := by omega
  rw [List.drop_eq_getElem_cons hinside, scanList_match hinside]
  induction count generalizing length with
  | zero => rw [if_pos hlength]
  | succ count ih =>
      have hnext : length + 1 < pattern.length := by omega
      rw [if_neg (by omega), List.drop_eq_getElem_cons hnext, scanList_match hnext,
        ih (by omega) hnext]
      rfl

/-- A match grows by one symbol at a time. -/
theorem scanList_eq_none (hfalls : Falls pattern.length next) (list : List Symbol) {length : Nat}
    (hlength : length + list.length < pattern.length) :
    scanList pattern next list (length : Nat) = none := by
  induction list generalizing length with
  | nil => rfl
  | cons symbol list ih =>
      rw [List.length_cons] at hlength
      have hinside : length < pattern.length := by omega
      obtain ⟨longer, hlonger, hleads, -⟩ := exists_longer hfalls symbol hinside
      rw [scanList, hleads, if_neg (by omega)]
      exact Option.map_eq_none_iff.mpr (ih (by omega))

/-- The longest part of the pattern that a symbol leaves of a matched part. -/
theorem greatest_settle (symbol : Symbol) {length : Nat} (hlength : length < pattern.length) :
    Greatest (Overlap pattern (pattern.take length ++ [symbol]))
      (settle pattern (table pattern) symbol (pattern.length + 1) (length : Nat) + 1) := by
  have htake : (pattern.take length).length = length := by
    rw [List.length_take]
    omega
  refine Greatest.advance ⟨fun longer hlonger => ?_, .inr ⟨length, rfl, hlength.le, ?_⟩⟩ ?_ symbol
  · have hle := hlonger.2.length_le
    rw [htake, List.length_take] at hle
    have := hlonger.1
    omega
  · exact List.suffix_rfl
  · intro hsuffix
    have hle := hsuffix.length_le
    omega

/-- A matched part and one symbol, then whatever follows. -/
theorem scanList_word {symbol : Symbol} {length longer : Nat} (hlength : length < pattern.length)
    (hlonger : settle pattern next symbol (pattern.length + 1) (length : Nat) + 1 = (longer : Nat))
    (rest : List Symbol) :
    scanList pattern next (pattern.take length ++ [symbol] ++ rest) 0 =
      if longer = pattern.length then some (length + 1)
      else (scanList pattern next rest (longer : Nat)).map (· + (length + 1)) := by
  have halong : scanList pattern next (pattern.take length ++ symbol :: rest) 0 =
      (scanList pattern next (symbol :: rest) (length : Nat)).map (· + length) := by
    have hdrop := @scanList_along _ _ pattern next length 0 (by omega) (symbol :: rest)
    rwa [List.drop_zero, Nat.zero_add] at hdrop
  rw [List.append_assoc, List.singleton_append, halong, scanList, hlonger]
  by_cases hwhole : longer = pattern.length
  · rw [if_pos (congrArg _ hwhole), if_pos hwhole, Option.map_some, Nat.add_comm]
  · rw [if_neg fun heq => hwhole (Int.ofNat_inj.mp heq), if_neg hwhole, Option.map_map]
    congr 1
    funext count
    rw [Function.comp_apply, Nat.add_assoc, Nat.add_comm 1]

omit [DecidableEq Symbol] in
/-- Where the last of the word is the first of the pattern and the rest follows, the
pattern occurs, and only there. -/
theorem at_word_iff {word : List Symbol} {longer : Nat} (hword : longer ≤ word.length)
    (hlonger : longer ≤ pattern.length) :
    At pattern (word ++ pattern.drop longer) (word.length - longer) ↔
      pattern.take longer <:+ word := by
  have htake : (pattern.take longer).length = longer := by
    rw [List.length_take]
    omega
  rw [At, List.drop_append_of_le_length (Nat.sub_le _ _), List.suffix_iff_eq_drop, htake]
  constructor
  · intro hprefix
    have hwhole := hprefix.eq_of_length (by simp only [List.length_append, List.length_drop]; omega)
    conv_lhs => rw [hwhole]
    rw [List.take_append_of_le_length (by rw [List.length_drop]; omega), List.take_of_length_le]
    rw [List.length_drop]
    omega
  · intro heq
    have hwhole : pattern = pattern.take longer ++ pattern.drop longer :=
      (List.take_append_drop longer pattern).symm
    rw [← heq]
    exact hwhole ▸ List.prefix_rfl

/-- A table that leads elsewhere misses an occurrence of some text, or makes one up. -/
theorem exists_text_of_not_steers (hfalls : Falls pattern.length next)
    (hsteers : ¬ Steers pattern next) :
    ∃ text : List Symbol, (∀ symbol ∈ text, symbol ∈ pattern) ∧
      ∀ result, Finds pattern text 0 result →
        scanList pattern next text 0 ≠ result.map (· + pattern.length) := by
  simp only [Steers, not_forall] at hsteers
  obtain ⟨symbol, length, hlength, hdiffers⟩ := hsteers
  obtain ⟨reached, hreached, hleads, hmember⟩ := exists_longer hfalls symbol hlength
  obtain ⟨right, hright, howns, hmember'⟩ := exists_longer (falls_table pattern) symbol hlength
  obtain ⟨hlongest, hoverlap⟩ := greatest_settle symbol hlength
  rw [howns] at hlongest hoverlap
  have hword : (pattern.take length ++ [symbol]).length = length + 1 := by
    rw [List.length_append, List.length_take, List.length_singleton]
    omega
  -- the texts below are made of the pattern's own symbols
  have hmembers : ∀ longer, symbol ∈ pattern →
      ∀ other ∈ pattern.take length ++ [symbol] ++ pattern.drop longer, other ∈ pattern := by
    intro longer hsymbol other hother
    simp only [List.mem_append, List.mem_singleton] at hother
    rcases hother with (hother | rfl) | hother
    · exact List.mem_of_mem_take hother
    · exact hsymbol
    · exact List.mem_of_mem_drop hother
  rcases Nat.lt_trichotomy reached right with hless | rfl | hmore
  · -- Too little is kept of what has been read, and the occurrence is missed.
    refine ⟨_, hmembers right (hmember' (by omega)), fun result hfinds => ?_⟩
    have hright : right ≤ pattern.length := by omega
    have hsuffix : pattern.take right <:+ pattern.take length ++ [symbol] := by
      rcases hoverlap with hnone | ⟨longest, heq, hlongest⟩
      · omega
      · obtain rfl := Int.ofNat_inj.mp heq
        exact hlongest.2
    rw [scanList_word hlength hleads, if_neg (by omega),
      scanList_eq_none hfalls (pattern.drop right) (by rw [List.length_drop]; omega)]
    have hat := (at_word_iff (by omega) hright).mpr hsuffix
    cases result with
    | none => exact absurd hat (hfinds _ (Nat.zero_le _))
    | some position => exact (Option.some_ne_none _).symm
  · exact absurd (Int.add_left_inj 1 |>.mp (hleads.trans howns.symm)) hdiffers
  · -- Too much is kept, and an occurrence is made up.
    refine ⟨_, hmembers reached (hmember (by omega)), fun result hfinds hscan => ?_⟩
    have hreached : reached ≤ pattern.length := by omega
    have hend : scanList pattern next
        (pattern.take length ++ [symbol] ++ pattern.drop reached) 0 =
          some (pattern.length - reached + (length + 1)) := by
      rw [scanList_word hlength hleads]
      split
      next hwhole => rw [hwhole, Nat.sub_self, Nat.zero_add]
      next hpart =>
        rw [scanList_finish (pattern.length - reached - 1) (by omega), Option.map_some,
          Nat.sub_add_cancel (by omega)]
    rw [hend] at hscan
    cases result with
    | none => exact absurd hscan (Option.some_ne_none _)
    | some position =>
        have hposition : position = (pattern.take length ++ [symbol]).length - reached := by
          have hstop : pattern.length - reached + (length + 1) = position + pattern.length :=
            Option.some.inj hscan
          omega
        have hsuffix := (at_word_iff (by omega) hreached).mp (hposition ▸ hfinds.occurs)
        have := hlongest reached ⟨hreached, hsuffix⟩
        omega

/-- A match is not over before the pattern has been read, nor behind the text. -/
theorem scanList_bounds (hfalls : Falls pattern.length next) (list : List Symbol)
    {length count : Nat} (hlength : length < pattern.length)
    (hscan : scanList pattern next list (length : Nat) = some count) :
    pattern.length ≤ length + count ∧ count ≤ list.length := by
  induction list generalizing length count with
  | nil => nomatch hscan
  | cons symbol list ih =>
      obtain ⟨longer, hlonger, hleads, -⟩ := exists_longer hfalls symbol hlength
      rw [scanList, hleads] at hscan
      split at hscan
      next hwhole =>
        obtain rfl := Option.some.inj hscan
        have := Int.ofNat_inj.mp hwhole
        rw [List.length_cons]
        omega
      next hpart =>
        obtain ⟨rest, hrest, rfl⟩ := Option.map_eq_some_iff.mp hscan
        have := ih (by omega) hrest
        rw [List.length_cons]
        omega

/-- The occurrence that a forward scan with such a table reports is not the first. -/
theorem exists_text_not_first (hpattern : pattern ≠ []) (hfalls : Falls pattern.length next)
    (hsteers : ¬ Steers pattern next) :
    ∃ text : List Symbol, (∀ symbol ∈ text, symbol ∈ pattern) ∧
      ¬ Finds pattern text 0 ((scanList pattern next text 0).map (· - pattern.length)) := by
  obtain ⟨text, hsymbols, hfails⟩ := exists_text_of_not_steers hfalls hsteers
  refine ⟨text, hsymbols, fun hfinds => hfails _ hfinds ?_⟩
  cases hscan : scanList pattern next text 0 with
  | none => rfl
  | some count =>
      have hbounds := scanList_bounds hfalls text (List.length_pos_of_ne_nil hpattern) hscan
      rw [Option.map_some, Option.map_some, Nat.sub_add_cancel (by omega)]

/-- From the end likewise. -/
theorem exists_text_not_last (hpattern : pattern ≠ []) (hfalls : Falls pattern.length next)
    (hsteers : ¬ Steers pattern.reverse next) :
    ∃ text : List Symbol, (∀ symbol ∈ text, symbol ∈ pattern) ∧
      ¬ FindsLast pattern text
        ((scanList pattern.reverse next text.reverse 0).map (text.length - ·)) := by
  rw [← List.length_reverse] at hfalls
  have hreverse : pattern.reverse ≠ [] := by simpa using hpattern
  obtain ⟨text, hsymbols, hfails⟩ := exists_text_of_not_steers hfalls hsteers
  obtain ⟨result, hfinds⟩ := Occurrence.exists_finds pattern.reverse text 0
  rw [← text.reverse_reverse] at hfinds
  refine ⟨text.reverse, fun symbol hsymbol => ?_, fun hlast => ?_⟩
  · exact List.mem_reverse.mp (hsymbols symbol (List.mem_reverse.mp hsymbol))
  · -- The last occurrence is the first one in the reversed text, which the scan misses.
    have hsame := hlast.unique (hfinds.last_of_reverse hpattern)
    rw [text.reverse_reverse] at hsame hfinds
    apply hfails result hfinds
    cases hscan : scanList pattern.reverse next text 0 with
    | none =>
        rw [hscan] at hsame
        cases result with
        | none => rfl
        | some position => nomatch hsame
    | some count =>
        have hbounds := scanList_bounds hfalls text (List.length_pos_of_ne_nil hreverse) hscan
        rw [hscan] at hsame
        cases result with
        | none => nomatch hsame
        | some position =>
            have hplace := Option.some.inj hsame
            have hend := hfinds.occurs.add_length_le hreverse
            simp only [List.length_reverse] at hplace hend hbounds ⊢
            rw [Option.map_some, show count = position + pattern.length by omega]

end Text

/-! ## What a scan reports -/

/-- A backward scan is a scan of the reversed list. -/
theorem ReadingBack.scanBack_eq_scanList {read : Nat → Symbol × Nat} {text : List Symbol}
    {place : Nat → Nat} (hback : ReadingBack read text place) {pattern : List Symbol}
    {next : List Int} (hfalls : Falls pattern.length next) (hpattern : pattern ≠ []) {fuel : Nat}
    (hfuel : place text.length < fuel) :
    scanBack pattern next read fuel (place text.length) 0 =
      (scanList pattern next text.reverse 0).map fun count => place (text.length - count) := by
  have hscan := @Reading.scan_eq_scanList _ _ _ _ _ _ hback.reading pattern next fuel 0
    (show place text.length < fuel + _ by omega) 0
  rw [if_pos (Nat.zero_le _), Nat.sub_zero, Nat.sub_self] at hscan
  rw [scanBack_eq hback.retreats fuel le_rfl, Nat.sub_self, hscan, List.drop_zero, Option.map_map]
  apply Option.map_congr
  intro count hcount
  have hbounds := scanList_bounds hfalls _ (List.length_pos_of_ne_nil hpattern) hcount
  rw [List.length_reverse] at hbounds
  have hle := hback.place_sub_le count
  rw [Function.comp_apply, Nat.zero_add, if_pos hbounds.2, Nat.sub_sub_self hle]

end Kmp
