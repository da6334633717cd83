import Charr.Wrap.Optimal

/-!
# Greedy lines

A greedy line takes in words as long as the next one fits without its white space. Its
lines are fewest: no way to break the words gets along with fewer.
-/

namespace Charr.Wrap

open Segmentation

section Widths

variable {widths : LineWidths} {words : List Word}

theorem origAt_nonneg (k : Nat) : 0 ≤ origAt words k := by
  unfold origAt
  exact Int.natCast_nonneg _

/-- The words `start` to `stop - 1` with their white space. -/
def origSum (words : List Word) (start stop : Nat) : Int :=
  ((List.range' start (stop - start)).map (origAt words)).sum

/-- One more word adds its width. -/
theorem origSum_succ {start stop : Nat} (hle : start ≤ stop) :
    origSum words start (stop + 1) = origSum words start stop + origAt words stop := by
  unfold origSum
  rw [Nat.succ_sub hle, List.range'_concat, Nat.one_mul, Nat.add_sub_cancel' hle, List.map_append,
    List.sum_append]
  simp

theorem origSum_self_succ (start : Nat) : origSum words start (start + 1) = origAt words start := by
  rw [origSum_succ le_rfl, origSum, Nat.sub_self]
  simp

theorem lineWidth_eq (start stop : Nat) :
    lineWidth words start stop = origSum words start stop + trimAt words stop := rfl

/-- A word in front adds its own. -/
theorem origSum_cons {start stop : Nat} (hlt : start < stop) :
    origSum words start stop = origAt words start + origSum words (start + 1) stop := by
  have hcount : stop - start = stop - (start + 1) + 1 := by omega
  rw [origSum, hcount, List.range'_succ, List.map_cons, List.sum_cons]
  rfl

/-- A line that starts later is no wider. -/
theorem origSum_antitone {first second stop : Nat} (hle : first ≤ second) (hstop : second ≤ stop) :
    origSum words second stop ≤ origSum words first stop := by
  induction second, hle using Nat.le_induction with
  | base => exact le_rfl
  | succ second hle ih =>
      have hnonneg := @origAt_nonneg words second
      have hearlier := ih (Nat.le_of_succ_le hstop)
      rw [origSum_cons hstop] at hearlier
      omega

/-- A line of several words fits exactly if this much room is left. -/
theorem allowed_iff {start stop : Nat} (hlt : start < stop) :
    Allowed widths words start stop ↔
      (if start = 0 then widths.first else widths.later) + origSum words start stop +
        trimAt words stop ≤ widths.width := by
  unfold Allowed remaining
  rw [lineWidth_eq]
  constructor
  · rintro (heq | hroom)
    · exact absurd heq hlt.ne
    · omega
  · intro hroom
    right
    omega

/-- What may stand on a line may also end earlier. -/
theorem Trimmed.allowed_earlier (htrimmed : Trimmed words) (first stop stop' : Nat)
    (hfirst : first ≤ stop) (hstop : stop ≤ stop') (hallowed : Allowed widths words first stop') :
    Allowed widths words first stop := by
  rcases hallowed with rfl | hroom
  · exact .inl (Nat.le_antisymm hfirst hstop)
  · exact .inr (hroom.trans (htrimmed.remaining_antitone widths hfirst hstop))

/-- And it may start later, unless it is the first line, which starts with other text. -/
theorem allowed_later (first second stop : Nat) (hpos : 0 < first) (hle : first ≤ second)
    (hstop : second ≤ stop) (hallowed : Allowed widths words first stop) :
    Allowed widths words second stop := by
  rcases Nat.eq_or_lt_of_le hstop with rfl | hlt
  · exact .inl rfl
  · have hnarrower := @origSum_antitone words first second stop hle hstop
    rw [allowed_iff (Nat.lt_of_le_of_lt hle hlt), if_neg (by omega)] at hallowed
    rw [allowed_iff hlt, if_neg (by omega)]
    omega

end Widths

/-! ## The loop -/

section Loop

variable {widths : LineWidths} {words : List Word}

/-- The line from `start` holds the words before `i`, and is `current` wide with its white
space. From there on the loop makes every line as long as it may be. -/
theorem greedyLoop_longest (rest : List Word) {i start : Nat} {current : Int}
    (hrest : words.drop i = rest) (hstart : start < i) (hi : i ≤ words.length)
    (hcurrent : current =
      (if start = 0 then widths.first else widths.later) + origSum words start i)
    (hallowed : Allowed widths words start (i - 1)) :
    Longest (Allowed widths words) (words.length - 1) start (greedyLoop widths i rest current) := by
  induction rest generalizing i start current with
  | nil =>
      obtain rfl : i = words.length := Nat.le_antisymm hi (List.drop_eq_nil_iff.mp hrest)
      exact ⟨by omega, hallowed⟩
  | cons word rest ih =>
      have hlt : i < words.length := by
        apply Nat.not_le.mp
        intro hle
        rw [List.drop_eq_nil_iff.mpr hle] at hrest
        exact absurd hrest (by simp)
      rw [List.drop_eq_getElem_cons hlt, List.cons.injEq] at hrest
      obtain ⟨hword, hafter⟩ := hrest
      have hat : words[i]? = some word := by rw [List.getElem?_eq_getElem hlt, hword]
      have hfits := @allowed_iff widths words start i hstart
      rw [trimAt_eq hat, ← hcurrent] at hfits
      rw [greedyLoop]
      split
      next hlong =>
        -- the line ends before this word, which starts the next one
        have hback : i - 1 + 1 = i := by omega
        refine ⟨by omega, by omega, hallowed, ?_, ?_⟩
        · rw [hback, hfits]
          omega
        · rw [hback]
          apply ih hafter (Nat.lt_succ_self i) hlt
          · rw [if_neg (by omega), origSum_self_succ, origAt_eq hat]
          · exact .inl rfl
      next hroom =>
        apply ih hafter (Nat.lt_succ_of_lt hstart) hlt
        · rw [origSum_succ hstart.le, origAt_eq hat, hcurrent]
          omega
        · exact hfits.mpr (by omega)

/-- Every line of the greedy breaks is as long as it can be. -/
theorem greedy_longest (hwords : words ≠ []) :
    Longest (Allowed widths words) (words.length - 1) 0 (greedy widths words) := by
  cases words with
  | nil => exact absurd rfl hwords
  | cons word rest =>
      rw [greedy]
      apply greedyLoop_longest rest rfl Nat.one_pos (by simp)
      · rw [if_pos rfl, origSum_self_succ, origAt_eq (show (word :: rest)[0]? = some word from rfl)]
      · exact .inl rfl

end Loop

/-- Every greedy line fits or holds one word, none could also take in the first word of
the next, and there are no fewer lines in any other way to break the words. -/
theorem greedy_fewest_lines (widths : LineWidths) {words : List Word} (hwords : words ≠ [])
    (htrimmed : Trimmed words) :
    Segmented (Allowed widths words) (words.length - 1) (greedy widths words) ∧
    (∀ line ∈ segments 0 (words.length - 1) (greedy widths words), line.2 < words.length - 1 →
      ¬ Allowed widths words line.1 (line.2 + 1)) ∧
    ∀ others, Segmented (Allowed widths words) (words.length - 1) others →
      (segments 0 (words.length - 1) (greedy widths words)).length ≤
        (segments 0 (words.length - 1) others).length := by
  have hlongest := @greedy_longest widths words hwords
  refine ⟨hlongest.segmented, fun line hline => (hlongest.all_segments line hline).2, ?_⟩
  intro others hothers
  rw [length_segments, length_segments]
  apply Nat.succ_le_succ
  exact hlongest.length_le htrimmed.allowed_earlier allowed_later hothers

/-- `ab cd ef` takes two lines of five columns, and no fewer. -/
theorem greedy_fewest_lines_three_words :
    let widths : LineWidths := ⟨5, 0, 0⟩
    let words : List Word := [⟨3, 2, 3, 2⟩, ⟨6, 5, 3, 2⟩, ⟨8, 8, 2, 2⟩]
    greedy widths words = [1] ∧ ∀ others, Segmented (Allowed widths words) 2 others →
      2 ≤ (segments 0 2 others).length := by
  intro widths words
  have hcuts : greedy widths words = [1] := by decide
  refine ⟨hcuts, ?_⟩
  have hfewest := (greedy_fewest_lines widths (show words ≠ [] by simp [words])
    (show Trimmed words by decide)).2.2
  rw [hcuts] at hfewest
  exact hfewest

end Charr.Wrap
