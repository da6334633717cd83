import Charr.Library.Segmentation
import Charr.Wrap.Words
import Mathlib.Algebra.Order.Ring.Defs
import Mathlib.Algebra.Order.Ring.Int
import Mathlib.Data.List.Sort

/-!
# The dynamic program breaks lines best

Lines that fit, or hold one word, are allowed. The matrix of costs marks exactly the
others, a column of breaks is a best way to break the words before it, and no access
leaves the matrices.
-/

namespace Charr.Wrap

open Loops Segmentation

/-! ## Cells -/

section Cells

variable {Value : Type} {size : Nat} {matrix : List Value} {row column : Nat}

/-- A cell inside the matrix. -/
theorem cell_eq (hrow : row < size) (hcolumn : column < size) :
    cell size matrix row column = matrix[row * size + column]? := by
  rw [cell, if_pos ⟨hrow, hcolumn⟩]

/-- Cells of different rows or columns are different places. -/
theorem place_inj {row' column' : Nat} (hcolumn : column < size) (hcolumn' : column' < size) :
    row * size + column = row' * size + column' ↔ row = row' ∧ column = column' := by
  constructor
  · intro hplace
    have hrow : row = row' := by
      have hdiv := congrArg (· / size) hplace
      simp only [Nat.mul_comm _ size, Nat.mul_add_div (by omega : 0 < size),
        Nat.div_eq_of_lt hcolumn, Nat.div_eq_of_lt hcolumn', Nat.add_zero] at hdiv
      exact hdiv
    subst hrow
    exact ⟨rfl, Nat.add_left_cancel hplace⟩
  · rintro ⟨rfl, rfl⟩
    rfl

theorem place_lt (hrow : row < size) (hcolumn : column < size) :
    row * size + column < size * size := by
  calc row * size + column < row * size + size := by omega
    _ = (row + 1) * size := by rw [Nat.add_mul, Nat.one_mul]
    _ ≤ size * size := Nat.mul_le_mul_right size hrow

/-- A cell that is set, and the cells that are not. -/
theorem setCell_spec (hlength : matrix.length = size * size) (hrow : row < size)
    (hcolumn : column < size) (value : Value) :
    ∃ matrix', setCell size matrix row column value = some matrix' ∧
      matrix'.length = size * size ∧
      ∀ row' column', cell size matrix' row' column' =
        if row' = row ∧ column' = column then some value else cell size matrix row' column' := by
  refine ⟨matrix.set (row * size + column) value, ?_, ?_, ?_⟩
  · rw [setCell, if_pos ⟨hrow, hcolumn⟩]
  · rw [List.length_set, hlength]
  · intro row' column'
    unfold cell
    by_cases hinside : row' < size ∧ column' < size
    · rw [if_pos hinside, if_pos hinside, List.getElem?_set, hlength,
        if_pos (place_lt hrow hcolumn)]
      by_cases hsame : row' = row ∧ column' = column
      · obtain ⟨rfl, rfl⟩ := hsame
        rw [if_pos rfl, if_pos ⟨rfl, rfl⟩]
      · rw [if_neg hsame, if_neg]
        rw [place_inj hcolumn hinside.2]
        rintro ⟨rfl, rfl⟩
        exact hsame ⟨rfl, rfl⟩
    · rw [if_neg hinside, if_neg hinside, if_neg]
      rintro ⟨rfl, rfl⟩
      exact hinside ⟨hrow, hcolumn⟩

theorem length_resize [Zero Value] (length : Nat) (values : List Value) :
    (resize length values).length = length := by
  simp only [resize, List.length_append, List.length_take, List.length_replicate]
  omega

end Cells

/-! ## Lines -/

section Lines

variable (widths : LineWidths) (words : List Word)

/-- The width of a word. -/
def origAt (k : Nat) : Int := ((words[k]?.map (·.widthOrig.toNat)).getD 0 : Nat)

/-- The white space at its end. -/
def trimAt (k : Nat) : Int := ((words[k]?.map (·.widthTrim.toNat)).getD 0 : Nat)

/-- How wide the words `i` to `j` are on one line. -/
def lineWidth (i j : Nat) : Int :=
  ((List.range' i (j - i)).map (origAt words)).sum + trimAt words j

/-- The room that is left on the line of the words `i` to `j`. -/
def remaining (i j : Nat) : Int :=
  widths.width - lineWidth words i j - if i = 0 then widths.first else widths.later

/-- The line fits or holds one word. -/
def Allowed (i j : Nat) : Prop := i = j ∨ 0 ≤ remaining widths words i j

instance (i j : Nat) : Decidable (Allowed widths words i j) :=
  inferInstanceAs (Decidable (i = j ∨ 0 ≤ remaining widths words i j))

section Cost

variable {Cost : Type} [Zero Cost] (power : Int → Cost)

/-- The last line and an overlong word cost nothing. -/
def breakCost (i j : Nat) : Cost :=
  if j = words.length - 1 ∨ remaining widths words i j < 0 then 0
  else power (remaining widths words i j)

/-- What the matrix holds for the line of the words `i` to `j`. -/
def markedCost [One Cost] [Neg Cost] (i j : Nat) : Cost :=
  if Allowed widths words i j then breakCost widths words power i j else -1

end Cost

variable {words}

theorem origAt_eq {k : Nat} {word : Word} (hword : words[k]? = some word) :
    origAt words k = word.widthOrig.toNat := by
  rw [origAt, hword]
  rfl

theorem trimAt_eq {k : Nat} {word : Word} (hword : words[k]? = some word) :
    trimAt words k = word.widthTrim.toNat := by
  rw [trimAt, hword]
  rfl

theorem trimAt_nonneg (k : Nat) : 0 ≤ trimAt words k := by
  unfold trimAt
  exact Int.natCast_nonneg _

@[simp] theorem lineWidth_self (i : Nat) : lineWidth words i i = trimAt words i := by
  simp [lineWidth]

/-- One word more, and the one before it with its white space. -/
theorem lineWidth_succ {i j : Nat} (hle : i ≤ j) :
    lineWidth words i (j + 1) =
      lineWidth words i j - trimAt words j + origAt words j + trimAt words (j + 1) := by
  have hcount : j + 1 - i = j - i + 1 := by omega
  rw [lineWidth, lineWidth, hcount, List.range'_concat, Nat.one_mul, Nat.add_sub_cancel' hle]
  simp only [List.map_append, List.sum_append, List.map_cons, List.map_nil, List.sum_singleton]
  omega

/-- No word is wider without the white space it ends in. -/
def Trimmed (words : List Word) : Prop := ∀ word ∈ words, word.widthTrim ≤ word.widthOrig

instance (words : List Word) : Decidable (Trimmed words) :=
  inferInstanceAs (Decidable (∀ word ∈ words, word.widthTrim ≤ word.widthOrig))

theorem Trimmed.trimAt_le (htrimmed : Trimmed words) (k : Nat) :
    trimAt words k ≤ origAt words k := by
  unfold trimAt origAt
  cases hword : words[k]? with
  | none => exact le_rfl
  | some word =>
      have hle := UInt32.le_iff_toNat_le.mp (htrimmed word (List.mem_of_getElem? hword))
      exact Int.ofNat_le.mpr hle

/-- A longer line is not narrower. -/
theorem Trimmed.lineWidth_mono (htrimmed : Trimmed words) {i j j' : Nat} (hi : i ≤ j)
    (hj : j ≤ j') : lineWidth words i j ≤ lineWidth words i j' := by
  induction j', hj using Nat.le_induction with
  | base => exact le_rfl
  | succ j' hj ih =>
      have hstep := @lineWidth_succ words i j' (hi.trans hj)
      have htrim := htrimmed.trimAt_le j'
      have hnext := @trimAt_nonneg words (j' + 1)
      omega

/-- A longer line leaves no more room. -/
theorem Trimmed.remaining_antitone (htrimmed : Trimmed words) {i j j' : Nat} (hi : i ≤ j)
    (hj : j ≤ j') : remaining widths words i j' ≤ remaining widths words i j := by
  unfold remaining
  have hwidth := htrimmed.lineWidth_mono hi hj
  omega

/-- A line is too long with one more word if it is without. -/
theorem Trimmed.not_allowed_succ (htrimmed : Trimmed words) {i j : Nat} (hi : i ≤ j)
    (hlong : ¬ Allowed widths words i j) : ¬ Allowed widths words i (j + 1) := by
  have hless := htrimmed.remaining_antitone widths hi (Nat.le_add_right j 1)
  unfold Allowed at hlong ⊢
  omega

end Lines

/-! ## The costs -/

section Costs

variable {Cost : Type} [Ring Cost] {widths : LineWidths} {power : Int → Cost} {words : List Word}

/-- A line that fits has its cost. -/
theorem markedCost_of_allowed {i j : Nat} (hallowed : Allowed widths words i j) :
    markedCost widths words power i j = breakCost widths words power i j := by
  rw [markedCost, if_pos hallowed]

/-- The cost that is computed is the cost of the line. -/
theorem lineCost_eq (i j : Nat) :
    lineCost power words i j (remaining widths words i j) =
      markedCost widths words power i j := by
  unfold lineCost markedCost breakCost Allowed
  by_cases hlast : j = words.length - 1
  · simp only [hlast, true_or, if_true, ge_iff_le]
    simp only [eq_comm]
  · by_cases hone : j = i
    · subst hone
      simp [hlast]
    · have hone' : ¬ i = j := fun heq => hone heq.symm
      simp only [hlast, hone, hone', false_or, if_false]
      split
      next hroom => rw [if_neg (by omega)]
      next hroom => rw [if_pos (by omega)]

variable [LinearOrder Cost]

theorem breakCost_nonneg (hpower : ∀ room, 0 ≤ room → 0 ≤ power room) (i j : Nat) :
    0 ≤ breakCost widths words power i j := by
  unfold breakCost
  split
  next => exact le_rfl
  next hroom => exact hpower _ (by omega)

variable [IsStrictOrderedRing Cost]

/-- A cost is negative exactly if the line does not fit. -/
theorem markedCost_nonneg_iff (hpower : ∀ room, 0 ≤ room → 0 ≤ power room) (i j : Nat) :
    0 ≤ markedCost widths words power i j ↔ Allowed widths words i j := by
  unfold markedCost
  by_cases hallowed : Allowed widths words i j
  · rw [if_pos hallowed]
    exact iff_of_true (breakCost_nonneg hpower i j) hallowed
  · rw [if_neg hallowed]
    refine iff_of_false ?_ hallowed
    simp

/-- The sum of the widths so far, unless the line is too long already. -/
def SumHolds (widths : LineWidths) (words : List Word) (i j : Nat) (sum : Int) : Prop :=
  if j = i then sum = 0 else Allowed widths words i (j - 1) → sum = lineWidth words i (j - 1)

/-- Row `i` holds its costs before column `j`, and the rows before it all of theirs. -/
structure CostsHold (widths : LineWidths) (words : List Word) (power : Int → Cost) (i j : Nat)
    (cost : List Cost) : Prop where
  length_eq : cost.length = words.length * words.length
  rows : ∀ row < i, ∀ column < words.length, row ≤ column →
    cell words.length cost row column = some (markedCost widths words power row column)
  row : ∀ column < j, i ≤ column →
    cell words.length cost i column = some (markedCost widths words power i column)

/-- The width of a line is summed along. -/
theorem extendSum_eq {i j : Nat} (hi : i ≤ j) (hj : j < words.length) {sum : Int}
    (hallowed : j = i ∨ Allowed widths words i (j - 1)) (hsum : SumHolds widths words i j sum) :
    extendSum words i j sum = some (lineWidth words i j) := by
  have hword : words[j]? = some words[j] := List.getElem?_eq_getElem hj
  unfold extendSum
  unfold SumHolds at hsum
  rw [hword, Option.bind_some]
  by_cases hone : j = i
  · subst hone
    rw [if_pos rfl] at hsum
    rw [if_neg (Nat.lt_irrefl j), hsum, lineWidth_self, trimAt_eq hword]
    simp
  · obtain ⟨before, rfl⟩ : ∃ before, j = before + 1 := ⟨j - 1, by omega⟩
    rw [if_neg hone] at hsum
    have hbefore : words[before]? = some words[before] := List.getElem?_eq_getElem (by omega)
    rw [if_pos (by omega), hsum (hallowed.resolve_left hone)]
    simp only [Nat.add_sub_cancel]
    rw [hbefore, Option.map_some, lineWidth_succ (by omega), trimAt_eq hbefore, origAt_eq hbefore,
      trimAt_eq hword]

/-- A step writes the cost of the line. -/
theorem costStep_spec (hpower : ∀ room, 0 ≤ room → 0 ≤ power room) (htrimmed : Trimmed words)
    {i j : Nat} (hi : i ≤ j) (hj : j < words.length) {state : List Cost × Int}
    (hcosts : CostsHold widths words power i j state.1)
    (hsum : SumHolds widths words i j state.2) :
    ∃ next, costStep widths power words i state j = some next ∧
      CostsHold widths words power i (j + 1) next.1 ∧ SumHolds widths words i (j + 1) next.2 := by
  obtain ⟨cost, sum⟩ := state
  have hset := setCell_spec hcosts.length_eq (hi.trans_lt hj) hj
  -- whatever the cell is set to, the other cells stay
  have hkept : ∀ cost', cost'.length = words.length * words.length →
      (∀ row column, cell words.length cost' row column =
        if row = i ∧ column = j then some (markedCost widths words power i j)
        else cell words.length cost row column) →
      CostsHold widths words power i (j + 1) cost' := by
    intro cost' hlength hcells
    refine ⟨hlength, ?_, ?_⟩
    · intro row hrow column hcolumn hle
      rw [hcells, if_neg (by omega)]
      exact hcosts.rows row hrow column hcolumn hle
    · intro column hcolumn hle
      rw [hcells]
      by_cases hsame : column = j
      · rw [if_pos ⟨rfl, hsame⟩, hsame]
      · rw [if_neg (by omega)]
        exact hcosts.row column (by omega) hle
  have hlong : alreadyLong words cost i j =
      some (decide (i < j ∧ ¬ Allowed widths words i (j - 1))) := by
    unfold alreadyLong
    by_cases hlt : j > i
    · rw [if_pos hlt, hcosts.row (j - 1) (by omega) (by omega), Option.map_some]
      congr 1
      rw [decide_eq_decide, ← markedCost_nonneg_iff hpower, not_le]
      exact ⟨fun h => ⟨hlt, h⟩, fun h => h.2⟩
    · rw [if_neg hlt]
      simp [hlt]
  unfold costStep
  rw [hlong, Option.bind_some]
  by_cases htoo : i < j ∧ ¬ Allowed widths words i (j - 1)
  · have hnot : ¬ Allowed widths words i j := by
      have hsucc := htrimmed.not_allowed_succ widths (by omega : i ≤ j - 1) htoo.2
      rwa [Nat.sub_add_cancel (by omega)] at hsucc
    obtain ⟨cost', hcost', hlength, hcells⟩ := hset (-1)
    rw [if_pos (decide_eq_true htoo), hcost']
    refine ⟨(cost', sum), rfl, hkept cost' hlength ?_, ?_⟩
    · intro row column
      rw [hcells, markedCost, if_neg hnot]
    · rw [SumHolds, if_neg (by omega), Nat.add_sub_cancel]
      exact fun hallowed => absurd hallowed hnot
  · have hallowed : j = i ∨ Allowed widths words i (j - 1) := by
      by_contra hneither
      rw [not_or] at hneither
      exact htoo ⟨by omega, hneither.2⟩
    obtain ⟨cost', hcost', hlength, hcells⟩ := hset (markedCost widths words power i j)
    rw [if_neg (by simpa using htoo), extendSum_eq hi hj hallowed hsum]
    have hline : lineCost power words i j (widths.width - lineWidth words i j -
        if i = 0 then widths.first else widths.later) = markedCost widths words power i j :=
      lineCost_eq i j
    simp only [Option.bind_some, hline, hcost', Option.map_some]
    refine ⟨(cost', lineWidth words i j), rfl, hkept cost' hlength hcells, ?_⟩
    rw [SumHolds, if_neg (by omega), Nat.add_sub_cancel]
    exact fun _ => rfl

/-- All rows hold the costs of their lines. -/
theorem costRows_spec (hpower : ∀ room, 0 ≤ room → 0 ≤ power room) (htrimmed : Trimmed words)
    {cost : List Cost} (hlength : cost.length = words.length * words.length) :
    ∃ final, forRange (costRow widths power words) 0 words.length cost = some final ∧
      CostsHold widths words power words.length 0 final := by
  have hloop := forRange_invariant (costRow widths power words) 0 words.length cost
    (fun i cost => CostsHold widths words power i 0 cost)
    ⟨hlength, by simp, by simp⟩
  rw [Nat.zero_add] at hloop
  apply hloop
  intro i cost _ hi hcosts
  have hrow := forRange_invariant (costStep widths power words i) i (words.length - i) (cost, 0)
    (fun j state => CostsHold widths words power i j state.1 ∧ SumHolds widths words i j state.2)
    ⟨⟨hcosts.length_eq, hcosts.rows, by omega⟩, by simp [SumHolds]⟩
    (fun j state hle hlt hstate =>
      costStep_spec hpower htrimmed hle (by omega) hstate.1 hstate.2)
  obtain ⟨final, hfinal, hfilled, -⟩ := hrow
  rw [Nat.add_sub_cancel' (by omega)] at hfilled
  refine ⟨final.1, ?_, ⟨hfilled.length_eq, ?_, by simp⟩⟩
  · rw [costRow, hfinal]
    rfl
  · intro row hrow column hcolumn hle
    rcases Nat.lt_succ_iff_lt_or_eq.mp hrow with hlt | rfl
    · exact hfilled.rows row hlt column hcolumn hle
    · exact hfilled.row column hcolumn hle

end Costs

/-! ## The best breaks -/

/-- The breaks of a column, as the rows that are set. -/
def ColumnHolds (size : Nat) (breaks : List Bool) (column : Nat) (cuts : List Nat) : Prop :=
  ∀ row < size, cell size breaks row column = some (decide (row ∈ cuts))

section Columns

variable {words : List Word} {breaks : List Bool} {i j : Nat} {cuts : List Nat}

/-- The rows before `i` are copied from column `i` to column `j`. -/
theorem copyRows_spec (hij : i < j) (hj : j < words.length)
    (hlength : breaks.length = words.length * words.length)
    (hcolumn : ColumnHolds words.length breaks i cuts)
    (hempty : ColumnHolds words.length breaks j []) :
    ∃ copied, forRange (fun breaks k =>
        (cell words.length breaks k i).bind fun value => setCell words.length breaks k j value)
        0 i breaks = some copied ∧
      copied.length = words.length * words.length ∧
      (∀ row < words.length, cell words.length copied row j =
        some (decide (row < i ∧ row ∈ cuts))) ∧
      ∀ row column, column ≠ j →
        cell words.length copied row column = cell words.length breaks row column := by
  -- the rows before `k` are copied, the others are empty
  have hloop := forRange_invariant (fun breaks k =>
      (cell words.length breaks k i).bind fun value => setCell words.length breaks k j value)
    0 i breaks
    (fun k copied => copied.length = words.length * words.length ∧
      (∀ row < words.length, cell words.length copied row j =
        some (decide (row < k ∧ row ∈ cuts))) ∧
      ∀ row column, column ≠ j →
        cell words.length copied row column = cell words.length breaks row column)
    ⟨hlength, by simpa [ColumnHolds] using hempty, fun _ _ _ => rfl⟩
  rw [Nat.zero_add] at hloop
  apply hloop
  intro k copied _ hk ⟨hlength', hcolumn', hothers⟩
  have hcell : cell words.length copied k i = some (decide (k ∈ cuts)) := by
    rw [hothers k i (by omega)]
    exact hcolumn k (by omega)
  obtain ⟨next, hnext, hnextLength, hcells⟩ :=
    setCell_spec hlength' (by omega : k < words.length) hj (decide (k ∈ cuts))
  refine ⟨next, ?_, hnextLength, ?_, ?_⟩
  · rw [hcell, Option.bind_some, hnext]
  · intro row hrow
    rw [hcells]
    by_cases hsame : row = k
    · rw [if_pos ⟨hsame, rfl⟩, hsame]
      simp
    · rw [if_neg (by omega), hcolumn' row hrow]
      congr 1
      rw [decide_eq_decide]
      constructor
      · rintro ⟨hlt, hmem⟩
        exact ⟨by omega, hmem⟩
      · rintro ⟨hlt, hmem⟩
        exact ⟨by omega, hmem⟩
  · intro row column hne
    rw [hcells, if_neg (by omega)]
    exact hothers row column hne

/-- Column `j` takes over the breaks of column `i` and one more. -/
theorem copyBreaks_spec (hij : i < j) (hj : j < words.length)
    (hlength : breaks.length = words.length * words.length) (hcuts : ∀ cut ∈ cuts, cut < i)
    (hcolumn : ColumnHolds words.length breaks i cuts)
    (hempty : ColumnHolds words.length breaks j []) :
    ∃ breaks', copyBreaks words breaks i j = some breaks' ∧
      breaks'.length = words.length * words.length ∧
      ColumnHolds words.length breaks' j (cuts ++ [i]) ∧
      ∀ row column, column ≠ j →
        cell words.length breaks' row column = cell words.length breaks row column := by
  obtain ⟨copied, hcopied, hlength', hcolumn', hothers⟩ :=
    copyRows_spec hij hj hlength hcolumn hempty
  obtain ⟨breaks', hbreaks', hlength'', hcells⟩ :=
    setCell_spec hlength' (hij.trans hj) hj true
  refine ⟨breaks', ?_, hlength'', ?_, ?_⟩
  · rw [copyBreaks, hcopied, Option.bind_some, hbreaks']
  · intro row hrow
    rw [hcells]
    by_cases hsame : row = i
    · rw [if_pos ⟨hsame, rfl⟩, hsame]
      simp
    · rw [if_neg (by omega), hcolumn' row hrow]
      congr 1
      rw [decide_eq_decide, List.mem_append, List.mem_singleton]
      constructor
      · rintro ⟨-, hmem⟩
        exact .inl hmem
      · rintro (hmem | heq)
        · exact ⟨hcuts row hmem, hmem⟩
        · exact absurd heq hsame
  · intro row column hne
    rw [hcells, if_neg (by omega)]
    exact hothers row column hne

theorem setAt_spec {Value : Type} {values : List Value} {index : Nat}
    (hindex : index < values.length) (value : Value) :
    ∃ values', setAt values index value = some values' ∧ values'.length = values.length ∧
      ∀ other, values'[other]? = if other = index then some value else values[other]? := by
  refine ⟨values.set index value, ?_, List.length_set, ?_⟩
  · rw [setAt, if_pos hindex]
  · intro other
    rw [List.getElem?_set]
    by_cases hsame : other = index
    · rw [if_pos hsame.symm, if_pos hindex, if_pos hsame]
    · rw [if_neg (Ne.symm hsame), if_neg hsame]

/-- The breaks are read off the last column. -/
theorem collect_spec (hsorted : cuts.Pairwise (· < ·))
    (hcuts : ∀ cut ∈ cuts, cut < words.length)
    (hcolumn : ColumnHolds words.length breaks (words.length - 1) cuts) :
    forRange (collectStep words breaks) 0 words.length [] = some cuts := by
  have hloop := forRange_invariant (collectStep words breaks) 0 words.length []
    (fun k wrapAfter => wrapAfter = (List.range k).filter (· ∈ cuts)) rfl
  obtain ⟨final, hfinal, rfl⟩ := hloop (by
    rintro k wrapAfter _ hk rfl
    refine ⟨_, ?_, rfl⟩
    rw [collectStep, hcolumn k (by omega), Option.map_some, List.range_succ, List.filter_append]
    by_cases hmem : k ∈ cuts
    · simp [hmem]
    · simp [hmem])
  rw [hfinal]
  congr 1
  apply List.Pairwise.eq_of_mem_iff (r := (· < ·))
  · exact List.Pairwise.filter _ List.pairwise_lt_range
  · exact hsorted
  · intro cut
    simp only [Nat.zero_add, List.mem_filter, List.mem_range, decide_eq_true_eq]
    exact ⟨fun h => h.2, fun h => ⟨hcuts cut h, h⟩⟩

end Columns

section Bests

variable {Cost : Type} [Ring Cost] [LinearOrder Cost] [IsStrictOrderedRing Cost]
  {widths : LineWidths} {power : Int → Cost} {words : List Word} {cost : List Cost}

/-- What breaking after word `k` costs for the words up to `j`. -/
def breakTotal (widths : LineWidths) (words : List Word) (power : Int → Cost)
    (cuts : Nat → List Nat) (j k : Nat) : Cost :=
  total (breakCost widths words power) k (cuts k) + breakCost widths words power (k + 1) j

/-- The scan finds the first line that fits. -/
theorem scanBreak_spec (hpower : ∀ room, 0 ≤ room → 0 ≤ power room)
    (hcosts : CostsHold widths words power words.length 0 cost) {j : Nat} (hj : j < words.length)
    {fuel i : Nat} (hfuel : i + fuel = j + 1) (hi : i < j)
    (hbefore : ∀ k < i, ¬ Allowed widths words (k + 1) j) :
    ∃ found < j, scanBreak words cost j fuel i = some found ∧
      Allowed widths words (found + 1) j ∧ ∀ k < found, ¬ Allowed widths words (k + 1) j := by
  induction fuel generalizing i with
  | zero => omega
  | succ fuel ih =>
      rw [scanBreak, hcosts.rows (i + 1) (by omega) j hj (by omega), Option.bind_some]
      by_cases hallowed : Allowed widths words (i + 1) j
      · rw [if_pos ((markedCost_nonneg_iff hpower _ _).mpr hallowed)]
        exact ⟨i, hi, rfl, hallowed, hbefore⟩
      · rw [if_neg (mt (markedCost_nonneg_iff hpower _ _).mp hallowed)]
        -- the line of word `j` alone is allowed, so the scan ends before it
        have hnext : i + 1 ≠ j := fun heq => hallowed (.inl heq)
        apply ih (by omega) (by omega)
        intro k hk
        rcases Nat.lt_succ_iff_lt_or_eq.mp hk with hlt | rfl
        · exact hbefore k hlt
        · exact hallowed

/-- The break chosen among those before `k`: none of them is cheaper. -/
structure Chosen (widths : LineWidths) (words : List Word) (power : Int → Cost)
    (cuts : Nat → List Nat) (j k : Nat) (state : Cost × Nat) : Prop where
  before : state.2 < j
  value : state.1 = breakTotal widths words power cuts j state.2
  allowed : Allowed widths words (state.2 + 1) j
  least : ∀ other < k, Allowed widths words (other + 1) j →
    state.1 ≤ breakTotal widths words power cuts j other

/-- One round of the loop over the breaks. -/
theorem Chosen.step (hpower : ∀ room, 0 ≤ room → 0 ≤ power room) {j k : Nat} (hk : k < j)
    (hcell : cell words.length cost (k + 1) j = some (markedCost widths words power (k + 1) j))
    {best : List Cost} {cuts : Nat → List Nat}
    (hbest : best[k]? = some (total (breakCost widths words power) k (cuts k)))
    {state : Cost × Nat} (hchosen : Chosen widths words power cuts j k state) :
    ∃ next, chooseStep words cost best j state k = some next ∧
      Chosen widths words power cuts j (k + 1) next := by
  obtain ⟨value, chosen⟩ := state
  obtain ⟨hbefore, hvalue, hlast, hleast⟩ := hchosen
  rw [chooseStep, hcell, Option.bind_some]
  by_cases hallowed : Allowed widths words (k + 1) j
  · have hnonneg := (markedCost_nonneg_iff hpower (k + 1) j).mpr hallowed
    rw [if_neg (not_lt.mpr hnonneg), hbest, Option.map_some, markedCost_of_allowed hallowed]
    by_cases hcheaper : breakTotal widths words power cuts j k < value
    · refine ⟨_, congrArg some (if_pos hcheaper), hk, rfl, hallowed, ?_⟩
      rw [Nat.forall_lt_succ_right]
      exact ⟨fun other hother hallowed' => hcheaper.le.trans (hleast other hother hallowed'),
        fun _ => le_rfl⟩
    · refine ⟨_, congrArg some (if_neg hcheaper), hbefore, hvalue, hlast, ?_⟩
      rw [Nat.forall_lt_succ_right]
      exact ⟨hleast, fun _ => not_lt.mp hcheaper⟩
  · have hnegative := mt (markedCost_nonneg_iff hpower (k + 1) j).mp hallowed
    rw [if_pos (not_le.mp hnegative)]
    refine ⟨_, rfl, hbefore, hvalue, hlast, ?_⟩
    rw [Nat.forall_lt_succ_right]
    exact ⟨hleast, fun hallowed' => absurd hallowed' hallowed⟩

/-- The break that is chosen is the best one. -/
theorem chooseBreak_spec (hpower : ∀ room, 0 ≤ room → 0 ≤ power room)
    (hcosts : CostsHold widths words power words.length 0 cost) {j : Nat} (hj : j < words.length)
    (hlong : ¬ Allowed widths words 0 j) {best : List Cost} {cuts : Nat → List Nat}
    (hbest : ∀ k < j, best[k]? = some (total (breakCost widths words power) k (cuts k))) :
    ∃ chosen < j, chooseBreak words cost best j =
        some (breakTotal widths words power cuts j chosen, chosen) ∧
      Allowed widths words (chosen + 1) j ∧
      ∀ k < j, Allowed widths words (k + 1) j →
        breakTotal widths words power cuts j chosen ≤ breakTotal widths words power cuts j k := by
  have hpositive : 0 < j := by
    rcases Nat.eq_zero_or_pos j with rfl | hpos
    · exact absurd (.inl rfl) hlong
    · exact hpos
  obtain ⟨i, hi, hscan, hallowed, hbefore⟩ :=
    scanBreak_spec hpower hcosts hj (Nat.zero_add (j + 1)) hpositive (by simp)
  have hcell : ∀ k < j, cell words.length cost (k + 1) j =
      some (markedCost widths words power (k + 1) j) :=
    fun k hk => hcosts.rows (k + 1) (by omega) j hj (by omega)
  -- The scan stops at the first allowed break, so it is the least so far.
  have hstart : Chosen widths words power cuts j (i + 1)
      (breakTotal widths words power cuts j i, i) := by
    refine ⟨hi, rfl, hallowed, ?_⟩
    rw [Nat.forall_lt_succ_right]
    exact ⟨fun k hk hk' => absurd hk' (hbefore k hk), fun _ => le_rfl⟩
  have hloop := forRange_invariant (chooseStep words cost best j) (i + 1) (j - (i + 1)) _
    (Chosen widths words power cuts j) hstart
  obtain ⟨⟨value, chosen⟩, hfinal, hchosen⟩ := hloop (by
    intro k state hlow hhigh hstate
    have hk : k < j := by omega
    exact hstate.step hpower hk (hcell k hk) (hbest k hk))
  obtain rfl : value = breakTotal widths words power cuts j chosen := hchosen.value
  refine ⟨chosen, hchosen.before, ?_, hchosen.allowed, ?_⟩
  · rw [chooseBreak, hscan, Option.bind_some, hbest i hi, Option.bind_some, hcell i hi,
      Option.bind_some, markedCost_of_allowed hallowed]
    exact hfinal
  · intro k hk hk'
    exact hchosen.least k (by omega) hk'

/-- The words before `j` have their best breaks, and nothing is broken behind them. -/
structure BestsHold (widths : LineWidths) (words : List Word) (power : Int → Cost) (j : Nat)
    (state : List Cost × List Bool) (cuts : Nat → List Nat) : Prop where
  best_length : state.1.length = words.length
  breaks_length : state.2.length = words.length * words.length
  best : ∀ k < j, state.1[k]? = some (total (breakCost widths words power) k (cuts k))
  optimal : ∀ k < j, Optimal (breakCost widths words power) (Allowed widths words) k (cuts k)
  columns : ∀ k < j, ColumnHolds words.length state.2 k (cuts k)
  unbroken : ∀ k < words.length, j ≤ k → ColumnHolds words.length state.2 k []

/-- One line is best if it fits: a shorter first line leaves more room. -/
theorem optimal_of_fits (hpower : ∀ room, 0 ≤ room → 0 ≤ power room)
    (hmono : ∀ room room', 0 ≤ room → room ≤ room' → power room ≤ power room')
    (htrimmed : Trimmed words) {j : Nat} (hj : j < words.length)
    (hallowed : Allowed widths words 0 j) :
    Optimal (breakCost widths words power) (Allowed widths words) j [] := by
  apply optimal_nil (breakCost_nonneg hpower) hallowed
  intro stop hstop _
  rcases hstop.eq_or_lt with rfl | hlt
  · exact le_rfl
  · have hroom := htrimmed.remaining_antitone widths (Nat.zero_le stop) hstop
    unfold Allowed at hallowed
    unfold breakCost
    rw [if_neg (by omega : ¬ (stop = words.length - 1 ∨ remaining widths words 0 stop < 0))]
    split
    next => exact hpower _ (by omega)
    next => exact hmono _ _ (by omega) hroom

omit [IsStrictOrderedRing Cost] in
/-- The words before `j` stay as they are, and `j` gets its best breaks. -/
theorem BestsHold.extend {j : Nat} {best : List Cost} {breaks : List Bool} {cuts : Nat → List Nat}
    (hbests : BestsHold widths words power j (best, breaks) cuts) (chosen : List Nat)
    {best' : List Cost} {breaks' : List Bool}
    (hchosen : Optimal (breakCost widths words power) (Allowed widths words) j chosen)
    (hlength : best'.length = best.length)
    (hvalues : ∀ k, best'[k]? =
      if k = j then some (total (breakCost widths words power) j chosen) else best[k]?)
    (hlength' : breaks'.length = words.length * words.length)
    (hcolumn : ColumnHolds words.length breaks' j chosen)
    (hothers : ∀ row column, column ≠ j →
      cell words.length breaks' row column = cell words.length breaks row column) :
    BestsHold widths words power (j + 1) (best', breaks') (Function.update cuts j chosen) := by
  have hkept : ∀ k, k ≠ j → ∀ rows, ColumnHolds words.length breaks k rows →
      ColumnHolds words.length breaks' k rows := by
    intro k hk rows hrows row hrow
    rw [hothers row k hk]
    exact hrows row hrow
  refine ⟨hlength.trans hbests.best_length, hlength', ?_, ?_, ?_, ?_⟩
  · intro k hk
    rw [hvalues]
    rcases Nat.lt_succ_iff_lt_or_eq.mp hk with hlt | rfl
    · rw [if_neg hlt.ne, Function.update_of_ne hlt.ne]
      exact hbests.best k hlt
    · rw [if_pos rfl, Function.update_self]
  · intro k hk
    rcases Nat.lt_succ_iff_lt_or_eq.mp hk with hlt | rfl
    · rw [Function.update_of_ne hlt.ne]
      exact hbests.optimal k hlt
    · rw [Function.update_self]
      exact hchosen
  · intro k hk
    rcases Nat.lt_succ_iff_lt_or_eq.mp hk with hlt | rfl
    · rw [Function.update_of_ne hlt.ne]
      exact hkept k hlt.ne _ (hbests.columns k hlt)
    · rw [Function.update_self]
      exact hcolumn
  · intro k hk hle
    exact hkept k (by omega) _ (hbests.unbroken k hk (by omega))

/-- A step finds the best breaks up to its word. -/
theorem bestStep_spec (hpower : ∀ room, 0 ≤ room → 0 ≤ power room)
    (hmono : ∀ room room', 0 ≤ room → room ≤ room' → power room ≤ power room')
    (htrimmed : Trimmed words) (hcosts : CostsHold widths words power words.length 0 cost)
    {j : Nat} (hj : j < words.length) {state : List Cost × List Bool} {cuts : Nat → List Nat}
    (hbests : BestsHold widths words power j state cuts) :
    ∃ next cuts', bestStep words cost state j = some next ∧
      BestsHold widths words power (j + 1) next cuts' := by
  obtain ⟨best, breaks⟩ := state
  have hbestLength : best.length = words.length := hbests.best_length
  rw [bestStep, hcosts.rows 0 (by omega) j hj (Nat.zero_le j), Option.bind_some]
  by_cases hallowed : Allowed widths words 0 j
  · obtain ⟨best', hbest', hlength, hvalues⟩ :=
      setAt_spec (hbestLength.symm ▸ hj) (markedCost widths words power 0 j)
    rw [if_pos ((markedCost_nonneg_iff hpower 0 j).mpr hallowed), hbest']
    refine ⟨_, _, rfl, hbests.extend [] ?_ hlength ?_ hbests.breaks_length ?_ fun _ _ _ => rfl⟩
    · exact optimal_of_fits hpower hmono htrimmed hj hallowed
    · intro k
      rw [hvalues, total_nil, markedCost_of_allowed hallowed]
    · exact hbests.unbroken j hj le_rfl
  · obtain ⟨chosen, hchosen, hchoose, hlast, hleast⟩ :=
      chooseBreak_spec hpower hcosts hj hallowed hbests.best
    obtain ⟨breaks', hbreaks', hlength', hcolumn, hothers⟩ :=
      copyBreaks_spec hchosen hj hbests.breaks_length
        (hbests.optimal chosen hchosen).segmented.lt_last (hbests.columns chosen hchosen)
        (hbests.unbroken j hj le_rfl)
    obtain ⟨best', hbest', hlength, hvalues⟩ :=
      setAt_spec (hbestLength.symm ▸ hj) (breakTotal widths words power cuts j chosen)
    rw [if_neg (mt (markedCost_nonneg_iff hpower 0 j).mp hallowed), hchoose]
    simp only [Option.bind_some, hbreaks', hbest', Option.map_some]
    refine ⟨_, _, rfl, hbests.extend _ ?_ hlength ?_ hlength' hcolumn hothers⟩
    · exact optimal_concat cuts hchosen hbests.optimal hlast hallowed hleast
    · intro k
      rw [hvalues, total_concat]
      rfl

/-- The loops find the best breaks of all words. -/
theorem dynamicLoops_spec (hpower : ∀ room, 0 ≤ room → 0 ≤ power room)
    (hmono : ∀ room room', 0 ≤ room → room ≤ room' → power room ≤ power room')
    (htrimmed : Trimmed words) (matrices : Matrices Cost) :
    ∃ left cuts, dynamicLoops widths power words matrices = some (left, cuts) ∧
      (words = [] → cuts = []) ∧
      (words ≠ [] → Optimal (breakCost widths words power) (Allowed widths words)
        (words.length - 1) cuts) := by
  obtain ⟨cost, hcost, hcosts⟩ := @costRows_spec _ _ widths power words _ _ hpower htrimmed _
    (length_resize (words.length * words.length) matrices.cost)
  have hloop := forRange_invariant (bestStep words cost) 0 words.length
    (resize words.length matrices.best, List.replicate (words.length * words.length) false)
    (fun j state => ∃ cuts, BestsHold widths words power j state cuts)
    (by
      refine ⟨fun _ => [], length_resize _ _, List.length_replicate, by simp, by simp, by simp, ?_⟩
      intro k hk _ row hrow
      rw [cell_eq hrow hk, List.getElem?_replicate, if_pos (place_lt hrow hk)]
      simp)
  obtain ⟨bests, hbests, cuts, hhold⟩ := hloop (by
    intro j state _ hj ⟨cuts, hstate⟩
    obtain ⟨next, cuts', hnext, hkept⟩ :=
      bestStep_spec hpower hmono htrimmed hcosts (by omega) hstate
    exact ⟨next, hnext, cuts', hkept⟩)
  rw [Nat.zero_add] at hhold
  simp only [dynamicLoops, hcost, hbests, Option.bind_some]
  by_cases hempty : words = []
  · subst hempty
    exact ⟨_, [], rfl, fun _ => rfl, fun hne => absurd rfl hne⟩
  · have hlast : words.length - 1 < words.length := by
      have := List.length_pos_iff.mpr hempty
      omega
    have hoptimal := hhold.optimal _ hlast
    have hcollect := collect_spec hoptimal.segmented.sorted
      (fun cut hcut => (hoptimal.segmented.lt_last cut hcut).trans hlast) (hhold.columns _ hlast)
    rw [hcollect]
    exact ⟨_, _, rfl, fun heq => absurd heq hempty, fun _ => hoptimal⟩

/-- The breaks are best among those whose lines fit or hold one word, whatever the
matrices held before. A matrix that is too large is refused. -/
theorem dynamic_breaks_optimally (hpower : ∀ room, 0 ≤ room → 0 ≤ power room)
    (hmono : ∀ room room', 0 ≤ room → room ≤ room' → power room ≤ power room')
    (htrimmed : Trimmed words) (matrices : Matrices Cost) :
    (maxSize 8 < words.length * words.length →
      dynamic widths power words matrices = .error (.thrown matrixTooLarge)) ∧
    (words.length * words.length ≤ maxSize 8 →
      ∃ left cuts, dynamic widths power words matrices = .ok (left, cuts) ∧
        (words = [] → cuts = []) ∧
        (words ≠ [] → Optimal (breakCost widths words power) (Allowed widths words)
          (words.length - 1) cuts)) := by
  obtain ⟨left, cuts, hloops, hcuts⟩ := @dynamicLoops_spec _ _ _ _ widths power words hpower hmono
    htrimmed matrices
  rw [dynamic_eq]
  constructor
  · intro hlarge
    rw [if_pos hlarge]
  · intro hsmall
    rw [if_neg (not_lt.mpr hsmall), hloops]
    exact ⟨left, cuts, rfl, hcuts⟩

end Bests

/-- `aaa bb cc ddddd` -/
def fourWords : List Word := [⟨4, 3, 4, 3⟩, ⟨7, 6, 3, 2⟩, ⟨10, 9, 3, 2⟩, ⟨15, 15, 5, 5⟩]

/-- In six columns `bb` moves to the second line, which the greedy way leaves short. -/
theorem fourWords_break_optimally :
    dynamic ⟨6, 0, 0⟩ (fun room => room * room) fourWords ⟨[], []⟩ =
        .ok (⟨[9, 0, -1, -1, 0, 16, 1, -1, 0, 0, 16, -1, 0, 0, 0, 0], [9, 0, 10, 10]⟩, [0, 2]) ∧
      Optimal (breakCost ⟨6, 0, 0⟩ fourWords fun room => room * room)
        (Allowed ⟨6, 0, 0⟩ fourWords) 3 [0, 2] := by
  have hrun : dynamic ⟨6, 0, 0⟩ (fun room => room * room) fourWords ⟨[], []⟩ =
      .ok (⟨[9, 0, -1, -1, 0, 16, 1, -1, 0, 0, 16, -1, 0, 0, 0, 0], [9, 0, 10, 10]⟩, [0, 2]) := by
    decide
  obtain ⟨left, cuts, hdynamic, -, hoptimal⟩ := (dynamic_breaks_optimally
    (fun room _ => mul_self_nonneg room)
    (fun room room' hroom hle => mul_self_le_mul_self hroom hle)
    (by decide : Trimmed fourWords) ⟨[], []⟩).2 (by decide)
  rw [hrun] at hdynamic
  obtain ⟨-, rfl⟩ := Prod.mk.inj (Except.ok.inj hdynamic)
  exact ⟨hrun, hoptimal (by decide)⟩

example : greedy ⟨6, 0, 0⟩ fourWords = [1, 2] := by decide

end Charr.Wrap
