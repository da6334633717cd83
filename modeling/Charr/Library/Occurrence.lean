import Mathlib.Data.List.Basic
import Mathlib.Order.Nat

/-!
# Occurrences of a pattern in a text

Where a pattern occurs, which occurrence is the first from a position on, and
the occurrences a left to right search without overlap finds.
-/

namespace Occurrence

variable {Symbol : Type*}

/-- The pattern occurs in the text at `position`. -/
def At (pattern text : List Symbol) (position : Nat) : Prop :=
  pattern <+: text.drop position

instance [DecidableEq Symbol] (pattern text : List Symbol) (position : Nat) :
    Decidable (At pattern text position) :=
  inferInstanceAs (Decidable (pattern <+: text.drop position))

/-- `position` is the first occurrence at or after `start`. -/
structure IsFirst (pattern text : List Symbol) (start position : Nat) : Prop where
  from_start : start ≤ position
  occurs : At pattern text position
  least : ∀ earlier, start ≤ earlier → earlier < position → ¬ At pattern text earlier

/-- What a search from `start` on reports: the first occurrence, or that there
is none. -/
def Finds (pattern text : List Symbol) (start : Nat) : Option Nat → Prop
  | some position => IsFirst pattern text start position
  | none => ∀ position, start ≤ position → ¬ At pattern text position

/-- The occurrences found from `start` on when the search goes on at `follow
position` after the one at `position`. -/
inductive Sweep (pattern text : List Symbol) (follow : Nat → Nat) : Nat → List Nat → Prop
  | done {start : Nat} (hnone : ∀ position, start ≤ position → ¬ At pattern text position) :
      Sweep pattern text follow start []
  | found {start position : Nat} {rest : List Nat}
      (hfirst : IsFirst pattern text start position)
      (hrest : Sweep pattern text follow (follow position) rest) :
      Sweep pattern text follow start (position :: rest)

/-- The leftmost occurrences without overlap: the search goes on behind each. -/
def Greedy (pattern text : List Symbol) : Nat → List Nat → Prop :=
  Sweep pattern text (· + pattern.length)

variable {pattern text : List Symbol}

/-- An occurrence ends inside the text. -/
theorem At.add_length_le {position : Nat} (hat : At pattern text position)
    (hpattern : pattern ≠ []) : position + pattern.length ≤ text.length := by
  have hle := hat.length_le
  have hpos := List.length_pos_of_ne_nil hpattern
  rw [List.length_drop] at hle
  omega

/-- An occurrence, by the symbols from the position on. -/
theorem at_iff_take {position : Nat} :
    At pattern text position ↔ (text.drop position).take pattern.length = pattern :=
  List.prefix_iff_eq_take.trans eq_comm

/-- An occurrence ends where the text read so far ends with the pattern. -/
theorem at_iff_suffix_take {position : Nat} (hbound : position + pattern.length ≤ text.length) :
    At pattern text position ↔ pattern <:+ text.take (position + pattern.length) := by
  rw [at_iff_take, List.suffix_iff_eq_drop, List.length_take, Nat.min_eq_left hbound,
    Nat.add_sub_cancel, ← List.take_drop, eq_comm]

/-- The text from `position` on, seen from an earlier start. -/
theorem at_drop_iff (start position : Nat) :
    At pattern (text.drop start) position ↔ At pattern text (start + position) := by
  unfold At
  rw [List.drop_drop]

/-- There is one first occurrence. -/
theorem IsFirst.unique {start left right : Nat} (hleft : IsFirst pattern text start left)
    (hright : IsFirst pattern text start right) : left = right := by
  rcases Nat.lt_trichotomy left right with hlt | heq | hgt
  · exact absurd hleft.occurs (hright.least left hleft.from_start hlt)
  · exact heq
  · exact absurd hright.occurs (hleft.least right hright.from_start hgt)

/-- A search may start late when nothing occurs before that. -/
theorem Finds.from_earlier {start later : Nat} {result : Option Nat}
    (hfinds : Finds pattern text later result) (hle : start ≤ later)
    (hnone : ∀ position, start ≤ position → position < later → ¬ At pattern text position) :
    Finds pattern text start result := by
  cases result with
  | none =>
      intro position hposition
      by_cases hbefore : position < later
      · exact hnone position hposition hbefore
      · exact hfinds position (by omega)
  | some found =>
      refine ⟨hle.trans hfinds.from_start, hfinds.occurs, ?_⟩
      intro position hposition hlt
      by_cases hbefore : position < later
      · exact hnone position hposition hbefore
      · exact hfinds.least position (by omega) hlt

/-- A sweep has one result. -/
theorem Sweep.unique {follow : Nat → Nat} {start : Nat} {left right : List Nat}
    (hleft : Sweep pattern text follow start left)
    (hright : Sweep pattern text follow start right) : left = right := by
  induction hleft generalizing right with
  | done hnone =>
      cases hright with
      | done _ => rfl
      | found hfirst _ => exact absurd hfirst.occurs (hnone _ hfirst.from_start)
  | found hfirst _ ih =>
      cases hright with
      | done hnone => exact absurd hfirst.occurs (hnone _ hfirst.from_start)
      | found hother hrest =>
          obtain rfl := hfirst.unique hother
          rw [ih hrest]

/-- A sweep begins with what a search finds. -/
theorem Sweep.head_eq {follow : Nat → Nat} {start : Nat} {positions : List Nat}
    {result : Option Nat} (hsweep : Sweep pattern text follow start positions)
    (hfinds : Finds pattern text start result) : positions.head? = result := by
  cases hsweep with
  | done hnone =>
      cases result with
      | none => rfl
      | some position => exact absurd hfinds.occurs (hnone position hfinds.from_start)
  | found hfirst _ =>
      cases result with
      | none => exact absurd hfirst.occurs (hfinds _ hfirst.from_start)
      | some position => exact congrArg some (hfirst.unique hfinds)

/-- A sweep may start late when nothing occurs before that. -/
theorem Sweep.from_later {follow : Nat → Nat} {start later : Nat} {positions : List Nat}
    (hsweep : Sweep pattern text follow start positions) (hle : start ≤ later)
    (hnone : ∀ position, start ≤ position → position < later → ¬ At pattern text position) :
    Sweep pattern text follow later positions := by
  cases hsweep with
  | done hfree => exact .done fun position hposition => hfree position (hle.trans hposition)
  | @found _ position _ hfirst hrest =>
      have hbehind : later ≤ position := by
        by_contra hbefore
        exact hnone position hfirst.from_start (Nat.not_le.mp hbefore) hfirst.occurs
      refine .found ⟨hbehind, hfirst.occurs, ?_⟩ hrest
      intro earlier hearlier
      exact hfirst.least earlier (hle.trans hearlier)

/-- Every search from `start` on has a result. -/
theorem exists_finds (pattern text : List Symbol) (start : Nat) :
    ∃ result, Finds pattern text start result := by
  classical
  by_cases hsome : ∃ position, start ≤ position ∧ At pattern text position
  · refine ⟨some (Nat.find hsome), (Nat.find_spec hsome).1, (Nat.find_spec hsome).2, ?_⟩
    intro earlier hearlier hlt hat
    exact Nat.find_min hsome hlt ⟨hearlier, hat⟩
  · exact ⟨none, fun position hposition hat => hsome ⟨position, hposition, hat⟩⟩

/-- A sweep that moves on behind every start has a result. -/
theorem exists_sweep (hpattern : pattern ≠ []) (text : List Symbol) {follow : Nat → Nat}
    (hfollow : ∀ position, position < follow position) (start : Nat) :
    ∃ positions, Sweep pattern text follow start positions := by
  induction hleft : text.length + 1 - start using Nat.strong_induction_on generalizing start with
  | h left ih =>
      obtain ⟨result, hfinds⟩ := exists_finds pattern text start
      cases result with
      | none => exact ⟨[], .done hfinds⟩
      | some position =>
          have hend := hfinds.occurs.add_length_le hpattern
          have hstart := hfinds.from_start
          have hpos := List.length_pos_of_ne_nil hpattern
          have hnext := hfollow position
          obtain ⟨positions, hrest⟩ := ih (text.length + 1 - follow position) (by omega)
            (follow position) rfl
          exact ⟨position :: positions, .found hfinds hrest⟩

/-- The positions of a sweep are occurrences. -/
theorem Sweep.occurs {follow : Nat → Nat} {start : Nat} {positions : List Nat}
    (hsweep : Sweep pattern text follow start positions) :
    ∀ position ∈ positions, At pattern text position := by
  induction hsweep with
  | done => simp
  | found hfirst _ ih =>
      intro position hposition
      rcases List.mem_cons.mp hposition with rfl | hmem
      · exact hfirst.occurs
      · exact ih position hmem

/-- A sweep that steps over no occurrence finds every one from `start` on. -/
theorem Sweep.mem_iff {follow : Nat → Nat} (hfollow : ∀ position, position < follow position)
    (hskip : ∀ position between, At pattern text position → position < between →
      between < follow position → ¬ At pattern text between)
    {start : Nat} {positions : List Nat} (hsweep : Sweep pattern text follow start positions)
    (other : Nat) : other ∈ positions ↔ start ≤ other ∧ At pattern text other := by
  induction hsweep with
  | @done start hnone =>
      simp only [List.not_mem_nil, false_iff, not_and]
      exact hnone other
  | @found start position rest hfirst _ ih =>
      have hlater := hfollow position
      have hstart := hfirst.from_start
      rw [List.mem_cons, ih]
      constructor
      · rintro (rfl | ⟨hle, hat⟩)
        · exact ⟨hstart, hfirst.occurs⟩
        · exact ⟨by omega, hat⟩
      · rintro ⟨hle, hat⟩
        rcases Nat.lt_trichotomy other position with hlt | heq | hgt
        · exact absurd hat (hfirst.least other hle hlt)
        · exact .inl heq
        · refine .inr ⟨Nat.not_lt.mp fun hinside => ?_, hat⟩
          exact hskip position other hfirst.occurs hgt hinside hat

theorem Sweep.le_of_mem {follow : Nat → Nat} (hfollow : ∀ position, position < follow position)
    {start : Nat} {positions : List Nat} (hsweep : Sweep pattern text follow start positions) :
    ∀ position ∈ positions, start ≤ position := by
  induction hsweep with
  | done => simp
  | @found start position rest hfirst _ ih =>
      have hlater := hfollow position
      have hstart := hfirst.from_start
      intro other hother
      rcases List.mem_cons.mp hother with rfl | hmem
      · exact hstart
      · have hbehind := ih other hmem
        omega

/-- A sweep goes forward. -/
theorem Sweep.pairwise_lt {follow : Nat → Nat}
    (hfollow : ∀ position, position < follow position) {start : Nat} {positions : List Nat}
    (hsweep : Sweep pattern text follow start positions) : positions.Pairwise (· < ·) := by
  induction hsweep with
  | done => exact .nil
  | @found start position rest _ hrest ih =>
      refine .cons ?_ ih
      intro other hother
      exact Nat.lt_of_lt_of_le (hfollow position) (hrest.le_of_mem hfollow other hother)

/-- A sweep finds at most one occurrence for each position left. -/
theorem Sweep.length_le {follow : Nat → Nat} (hpattern : pattern ≠ [])
    (hfollow : ∀ position, position < follow position) {start : Nat} {positions : List Nat}
    (hsweep : Sweep pattern text follow start positions) :
    positions.length ≤ text.length - start := by
  induction hsweep with
  | done => simp
  | @found start position rest hfirst _ ih =>
      have hend := hfirst.occurs.add_length_le hpattern
      have hstart := hfirst.from_start
      have hpos := List.length_pos_of_ne_nil hpattern
      have hnext := hfollow position
      rw [List.length_cons]
      omega

/-- A search in the rest of a text, seen from the whole of it. -/
theorem Finds.of_drop {offset : Nat} {result : Option Nat}
    (hfinds : Finds pattern (text.drop offset) 0 result) :
    Finds pattern text offset (result.map (offset + ·)) := by
  have hshift : ∀ position, offset ≤ position → At pattern text position →
      At pattern (text.drop offset) (position - offset) := by
    intro position hposition hat
    rw [at_drop_iff, Nat.add_sub_cancel' hposition]
    exact hat
  cases result with
  | none =>
      intro position hposition hat
      exact hfinds (position - offset) (Nat.zero_le _) (hshift position hposition hat)
  | some found =>
      refine ⟨Nat.le_add_right _ _, (at_drop_iff offset found).mp hfinds.occurs, ?_⟩
      intro position hposition hlt hat
      simp only at hlt
      exact hfinds.least (position - offset) (Nat.zero_le _) (by omega)
        (hshift position hposition hat)

/-! ## Single symbols -/

theorem at_singleton_iff {symbol : Symbol} {position : Nat} :
    At [symbol] text position ↔ text[position]? = some symbol := by
  rw [at_iff_take, List.length_singleton, List.take_one, List.head?_drop]
  cases text[position]? <;> simp

/-- The text in front of the first occurrence of a symbol is free of it. -/
theorem IsFirst.drop_eq {symbol : Symbol} {start position : Nat}
    (hfirst : IsFirst [symbol] text start position) :
    symbol ∉ (text.drop start).take (position - start) ∧
      text.drop start =
        (text.drop start).take (position - start) ++ symbol :: text.drop (position + 1) := by
  constructor
  · intro hmem
    obtain ⟨offset, hoffset⟩ := List.mem_iff_getElem?.mp hmem
    rw [List.getElem?_take] at hoffset
    split at hoffset
    next hlt =>
      rw [List.getElem?_drop] at hoffset
      exact hfirst.least (start + offset) (Nat.le_add_right _ _) (by omega)
        (at_singleton_iff.mpr hoffset)
    next => exact absurd hoffset (by simp)
  · obtain ⟨hlt, hget⟩ := List.getElem?_eq_some_iff.mp (at_singleton_iff.mp hfirst.occurs)
    have hsymbol : text.drop position = symbol :: text.drop (position + 1) := by
      rw [List.drop_eq_getElem_cons hlt, hget]
    conv_lhs => rw [← List.take_append_drop (position - start) (text.drop start)]
    rw [List.drop_drop, Nat.add_sub_cancel' hfirst.from_start, hsymbol]

/-- A search for one symbol finds it as often as it stands there. -/
theorem Greedy.length_singleton [DecidableEq Symbol] {symbol : Symbol} {start : Nat}
    {positions : List Nat} (hgreedy : Greedy [symbol] text start positions) :
    positions.length = (text.drop start).count symbol := by
  unfold Greedy at hgreedy
  induction hgreedy with
  | @done start hnone =>
      symm
      apply List.count_eq_zero_of_not_mem
      intro hmem
      obtain ⟨offset, hoffset⟩ := List.mem_iff_getElem?.mp hmem
      rw [List.getElem?_drop] at hoffset
      exact hnone (start + offset) (Nat.le_add_right _ _) (at_singleton_iff.mpr hoffset)
  | @found start position rest hfirst _ ih =>
      obtain ⟨hfree, hsplit⟩ := hfirst.drop_eq
      rw [hsplit, List.count_append, List.count_eq_zero_of_not_mem hfree, List.count_cons_self,
        List.length_cons, ih, List.length_singleton, Nat.zero_add]

/-! ## From the other end -/

/-- `position` is the last occurrence. -/
structure IsLast (pattern text : List Symbol) (position : Nat) : Prop where
  occurs : At pattern text position
  greatest : ∀ later, position < later → ¬ At pattern text later

/-- What a search from the end reports. -/
def FindsLast (pattern text : List Symbol) : Option Nat → Prop
  | some position => IsLast pattern text position
  | none => ∀ position, ¬ At pattern text position

/-- An occurrence in the reversed text, counted from its end. -/
theorem at_reverse_iff {position : Nat} (hbound : position + pattern.length ≤ text.length) :
    At pattern.reverse text.reverse position ↔
      At pattern text (text.length - (position + pattern.length)) := by
  have hend : text.length - (position + pattern.length) + pattern.length =
      text.length - position := by omega
  rw [@at_iff_suffix_take _ pattern text _ (by omega), hend, At, List.drop_reverse,
    List.reverse_prefix]

/-- The first occurrence in the reversed text is the last one. -/
theorem Finds.last_of_reverse (hpattern : pattern ≠ []) {result : Option Nat}
    (hfinds : Finds pattern.reverse text.reverse 0 result) :
    FindsLast pattern text
      (result.map fun position => text.length - (position + pattern.length)) := by
  have hreverse : pattern.reverse ≠ [] := by simpa using hpattern
  -- An occurrence of the text, counted from the other end.
  have hback : ∀ position, At pattern text position →
      At pattern.reverse text.reverse (text.length - (position + pattern.length)) := by
    intro position hat
    have hend := hat.add_length_le hpattern
    rw [at_reverse_iff (by omega)]
    rwa [show text.length - (text.length - (position + pattern.length) + pattern.length) =
      position by omega]
  cases result with
  | none => exact fun position hat => hfinds _ (Nat.zero_le _) (hback position hat)
  | some position =>
      have hend := hfinds.occurs.add_length_le hreverse
      rw [List.length_reverse, List.length_reverse] at hend
      refine ⟨(at_reverse_iff hend).mp hfinds.occurs, fun later hlater hat => ?_⟩
      have hbound := hat.add_length_le hpattern
      change text.length - (position + pattern.length) < later at hlater
      exact hfinds.least _ (Nat.zero_le _) (by omega) (hback later hat)

theorem IsLast.unique {left right : Nat} (hleft : IsLast pattern text left)
    (hright : IsLast pattern text right) : left = right := by
  rcases Nat.lt_trichotomy left right with hlt | heq | hgt
  · exact absurd hright.occurs (hleft.greatest right hlt)
  · exact heq
  · exact absurd hleft.occurs (hright.greatest left hgt)

/-- A search for the last occurrence has one result. -/
theorem FindsLast.unique {left right : Option Nat} (hleft : FindsLast pattern text left)
    (hright : FindsLast pattern text right) : left = right := by
  cases left with
  | none =>
      cases right with
      | none => rfl
      | some position => exact absurd hright.occurs (hleft position)
  | some position =>
      cases right with
      | none => exact absurd hleft.occurs (hright position)
      | some other => rw [IsLast.unique hleft hright]

end Occurrence
