import Charr.Library.Buffer
import Charr.Text.Normalize
import Mathlib.Data.List.TakeWhile

/-!
# Joining strings

What a join needs is planned first: how many bytes, whether a missing value makes all of it
missing, whether it is too large for a string and whether it is ASCII. The writer goes over
the same values once more and fills a buffer of the planned size.
-/

namespace Charr.Join

open Buffers

/-- What a plan knows of a result: its bytes, how many pieces it has, and whether it is missing, too
large or ASCII. -/
structure FlattenPlan where
  bytes : Nat
  pieces : Nat
  hasNa : Bool
  tooLarge : Bool
  ascii : Bool
  deriving DecidableEq, Repr

/-- A column has values: with an empty one there is nothing to join. -/
structure Column where
  values : List StringView
  nonempty : values ≠ []

/-- The writers raise no errors of their own. -/
abbrev Result := Except (Buffers.Fault Empty)

/-- Nothing is planned yet. -/
def emptyPlan : FlattenPlan := ⟨0, 0, false, false, true⟩

/-- Whether a value is a piece of the result. -/
def included (value : StringView) (naEmpty : Int) (omitEmpty : Bool) : Bool :=
  if value.isNa && naEmpty = naInteger then false
  else if omitEmpty && (value.isNa || value.len = 0) then false
  else true

/-- Whether a value is ASCII, by its mark or by its bytes. -/
def isAscii (value : StringView) : Bool :=
  if value.isNa || value.enc = .ascii then true
  else if value.enc ≠ .asciiOrUtf8 then false
  else value.bytes.all fun byte => byte ≤ 0x7f

/-- Bytes that no longer fit make the plan too large, for good. -/
def addBytes (plan : FlattenPlan) (bytes : Nat) : FlattenPlan :=
  if plan.tooLarge || bytes > intMax - plan.bytes then { plan with tooLarge := true }
  else { plan with bytes := plan.bytes + bytes }

/-- The value of a column in a row; short columns are recycled. -/
def valueAt (column : Column) (row rowCount : Nat) : StringView :=
  if column.values.length = 1 then column.values.getD 0 StringView.na
  else if column.values.length = rowCount then column.values.getD row StringView.na
  else column.values.getD (row % column.values.length) StringView.na

/-- A value with no bytes is not copied. -/
def copyBytes (value : StringView) : Sink UInt8 → Result (Sink UInt8) :=
  if value.len ≤ 0 then .ok else copy value.bytes

/-! ## One list of values -/

section Flatten

variable (separator : Option StringView) (naEmpty : Int) (omitEmpty : Bool)

/-- The loop of `plan_flatten`. -/
def planValues : List StringView → FlattenPlan → FlattenPlan
  | [], plan => plan
  | value :: rest, plan =>
      if value.isNa && naEmpty ≠ naInteger && naEmpty = 0 then
        planValues rest { plan with hasNa := true }
      else if ¬ included value naEmpty omitEmpty then planValues rest plan
      else
        let plan :=
          if ¬ value.isNa then
            let plan := addBytes plan (toSize value.len)
            { plan with ascii := plan.ascii && isAscii value }
          else plan
        planValues rest { plan with pieces := plan.pieces + 1 }

/-- What `plan_flatten` does behind its loop. -/
def planSeparators (plan : FlattenPlan) : FlattenPlan :=
  match separator with
  | none => plan
  | some separator =>
      if plan.pieces ≤ 1 then plan
      else
        let separatorCount := plan.pieces - 1
        let separatorLength := toSize separator.len
        let plan :=
          if separatorLength > 0 &&
              separatorCount > (intMax - plan.bytes) / separatorLength then
            { plan with tooLarge := true }
          else { plan with bytes := plan.bytes + separatorCount * separatorLength }
        { plan with ascii := plan.ascii && isAscii separator }

/-- The plan for flattening a vector. -/
def planFlatten (values : List StringView) : FlattenPlan :=
  planSeparators separator (planValues naEmpty omitEmpty values emptyPlan)

/-- The part of `write_flatten` in front of a piece that is not the first. -/
def writeSeparator : Sink UInt8 → Result (Sink UInt8) :=
  match separator with
  | none => .ok
  | some separator => copyBytes separator

/-- The loop of `write_flatten`; `started` if a piece has been written. -/
def writeFlatten : (started : Bool) → List StringView → Sink UInt8 → Result (Sink UInt8)
  | _, [] => .ok
  | started, value :: rest =>
      if ¬ included value naEmpty omitEmpty then writeFlatten started rest
      else
        andThen
          (andThen (if started then writeSeparator separator else .ok)
            (if ¬ value.isNa then copyBytes value else .ok))
          (writeFlatten true rest)

end Flatten

/-! ## Rows of columns -/

section Rows

variable (separator collapse : StringView) (row rowCount : Nat)

/-- A separator in front of all but the first. -/
def planBetween (between : StringView) (number : Nat) (plan : FlattenPlan) : FlattenPlan :=
  if number > 0 then
    let plan := addBytes plan (toSize between.len)
    { plan with ascii := plan.ascii && isAscii between }
  else plan

/-- The loop over the columns, from number `column` on; it ends at a missing value. -/
def planColumns : (column : Nat) → List Column → FlattenPlan → FlattenPlan
  | _, [], plan => plan
  | column, current :: rest, plan =>
      let value := valueAt current row rowCount
      if value.isNa then { plan with hasNa := true }
      else
        let plan := planBetween separator column plan
        let plan := addBytes plan (toSize value.len)
        planColumns (column + 1) rest
          { plan with ascii := plan.ascii && isAscii value, pieces := plan.pieces + 1 }

/-- The plan for joining the values of a row. -/
def planJoinRow (columns : List Column) : FlattenPlan :=
  planColumns separator row rowCount 0 columns emptyPlan

/-- The loop over the rows, `rows` of them from number `row` on. -/
def planRows (columns : List Column) : (row rows : Nat) → FlattenPlan → FlattenPlan
  | _, 0, plan => plan
  | row, rows + 1, plan =>
      let plan := planColumns separator row rowCount 0 columns (planBetween collapse row plan)
      if plan.hasNa then plan else planRows columns (row + 1) rows plan

/-- The plan for joining the rows as well. -/
def planJoinAll (columns : List Column) : FlattenPlan :=
  planRows separator collapse rowCount columns 0 rowCount emptyPlan

/-- What stands between two pieces is not written in front of the first. -/
def writeBetween (between : StringView) (number : Nat) : Sink UInt8 → Result (Sink UInt8) :=
  if number > 0 then copyBytes between else .ok

/-- The values of a row from `column` on, with the separator between them. -/
def writeColumns : (column : Nat) → List Column → Sink UInt8 → Result (Sink UInt8)
  | _, [] => .ok
  | column, current :: rest =>
      andThen (andThen (writeBetween separator column) (copyBytes (valueAt current row rowCount)))
        (writeColumns (column + 1) rest)

/-- A row as it is written. -/
def writeJoinRow (columns : List Column) : Sink UInt8 → Result (Sink UInt8) :=
  writeColumns separator row rowCount 0 columns

/-- The rows from `row` on, with `collapse` between them. -/
def writeRows (columns : List Column) : (row rows : Nat) → Sink UInt8 → Result (Sink UInt8)
  | _, 0 => .ok
  | row, rows + 1 =>
      andThen (andThen (writeBetween collapse row) (writeColumns separator row rowCount 0 columns))
        (writeRows columns (row + 1) rows)

/-- All rows as they are written. -/
def writeJoinAll (columns : List Column) : Sink UInt8 → Result (Sink UInt8) :=
  writeRows separator collapse rowCount columns 0 rowCount

end Rows

/-! ## Sizes and marks -/

/-- A view that points at bytes. -/
def IsText (value : StringView) : Prop := ∃ span, value.data = .bytes span

/-- The mark of a view says what it promises. -/
def Marked (value : StringView) : Prop := value.enc = .ascii → ∀ byte ∈ value.bytes, byte < 0x80

/-- The plan has counted so many bytes, or there are too many. -/
def Sizes (plan : FlattenPlan) (total : Nat) : Prop :=
  (plan.tooLarge = true ∧ intMax < total) ∨
    (plan.tooLarge = false ∧ plan.bytes = total ∧ total ≤ intMax)

/-- A plan is too large exactly if its total is. -/
theorem Sizes.tooLarge_iff {plan : FlattenPlan} {total : Nat} (hsizes : Sizes plan total) :
    plan.tooLarge = true ↔ intMax < total := by
  rcases hsizes with ⟨hlarge, hover⟩ | ⟨hnot, -, hle⟩
  · exact ⟨fun _ => hover, fun _ => hlarge⟩
  · rw [hnot]
    exact ⟨fun heq => absurd heq Bool.false_ne_true, fun hover => absurd hover (Nat.not_lt.mpr hle)⟩

theorem Sizes.bytes_eq {plan : FlattenPlan} {total : Nat} (hsizes : Sizes plan total)
    (hnot : plan.tooLarge = false) : plan.bytes = total := by
  rcases hsizes with ⟨hlarge, -⟩ | ⟨-, hbytes, -⟩
  · rw [hnot] at hlarge
    exact absurd hlarge Bool.false_ne_true
  · exact hbytes

theorem sizes_emptyPlan : Sizes emptyPlan 0 := Or.inr ⟨rfl, rfl, Nat.zero_le _⟩

/-- Adding bytes adds to the total. -/
theorem Sizes.addBytes {plan : FlattenPlan} {total : Nat} (hsizes : Sizes plan total)
    (bytes : Nat) : Sizes (addBytes plan bytes) (total + bytes) := by
  unfold Join.addBytes
  rcases hsizes with ⟨hlarge, hover⟩ | ⟨hnot, hbytes, hle⟩
  · rw [if_pos (by rw [hlarge]; rfl)]
    exact Or.inl ⟨rfl, Nat.lt_of_lt_of_le hover (Nat.le_add_right _ _)⟩
  · rw [hnot, hbytes, Bool.false_or]
    split
    next hmore =>
      refine Or.inl ⟨rfl, ?_⟩
      have hgt := of_decide_eq_true hmore
      omega
    next hroom =>
      refine Or.inr ⟨rfl, rfl, ?_⟩
      have hle' : ¬ bytes > intMax - total := fun hgt => hroom (decide_eq_true hgt)
      omega

@[simp] theorem addBytes_ascii (plan : FlattenPlan) (bytes : Nat) :
    (addBytes plan bytes).ascii = plan.ascii := by
  unfold addBytes
  split <;> rfl

@[simp] theorem addBytes_hasNa (plan : FlattenPlan) (bytes : Nat) :
    (addBytes plan bytes).hasNa = plan.hasNa := by
  unfold addBytes
  split <;> rfl

@[simp] theorem addBytes_pieces (plan : FlattenPlan) (bytes : Nat) :
    (addBytes plan bytes).pieces = plan.pieces := by
  unfold addBytes
  split <;> rfl

theorem isText_of_normalized {value : StringView} (hnormalized : Normalized value)
    (hna : value.isNa = false) : IsText value := by
  rcases hnormalized with hmissing | htext
  · rw [hna] at hmissing
    exact absurd hmissing Bool.false_ne_true
  · exact htext

theorem IsText.len_eq {value : StringView} (htext : IsText value) :
    value.len = value.bytes.length := by
  obtain ⟨span, hspan⟩ := htext
  rw [StringView.len, StringView.bytes, hspan]

theorem IsText.toSize_len {value : StringView} (htext : IsText value) :
    toSize value.len = value.bytes.length := by
  obtain ⟨span, hspan⟩ := htext
  have hle := span.length_le
  rw [StringView.len, StringView.bytes, hspan]
  dsimp only
  rw [toSize_eq (Int.natCast_nonneg _), Int.toNat_natCast]
  have hmax : intMax ≤ sizeMax := by decide
  exact Int.ofNat_le.mpr (Nat.le_trans hle hmax)

/-- Copying a text writes its bytes. -/
theorem IsText.writes {value : StringView} (htext : IsText value) :
    Writes (copyBytes value) value.bytes := by
  unfold copyBytes
  rw [htext.len_eq]
  by_cases hempty : value.bytes = []
  · have hle : (([] : List UInt8).length : Int) ≤ 0 := Int.le_refl 0
    rw [hempty, if_pos hle]
    exact writes_nothing
  · have hpos : ¬ (value.bytes.length : Int) ≤ 0 := by
      have hlength := List.length_pos_iff.mpr hempty
      omega
    rw [if_neg hpos]
    exact writes_copy value.bytes

/-- What counts as ASCII is, if the marks are right. -/
theorem bytes_of_isAscii {value : StringView} (htext : value.isNa = false)
    (hascii : isAscii value = true) (hmarked : Marked value) :
    ∀ byte ∈ value.bytes, byte < 0x80 := by
  unfold isAscii at hascii
  split at hascii
  next hmark =>
    rw [htext, Bool.false_or] at hmark
    exact hmarked (of_decide_eq_true hmark)
  next =>
    split at hascii
    next => exact absurd hascii Bool.false_ne_true
    next =>
      intro byte hmem
      have hle := of_decide_eq_true (List.all_eq_true.mp hascii byte hmem)
      rw [UInt8.le_iff_toNat_le] at hle
      rw [UInt8.lt_iff_toNat_lt]
      exact Nat.lt_succ_of_le hle

/-! ## Pieces and separators -/

/-- A list of pieces behind others, each with a separator in front. -/
theorem intercalate_cons (separator piece : List UInt8) (rest : List (List UInt8)) :
    separator.intercalate (piece :: rest) =
      piece ++ rest.flatMap fun next => separator ++ next := by
  induction rest generalizing piece with
  | nil => simp
  | cons next rest ih =>
      rw [List.intercalate_cons_cons, ih, List.flatMap_cons, List.append_assoc, List.append_assoc]

/-- The size of a join. -/
theorem length_intercalate (separator : List UInt8) (pieces : List (List UInt8)) :
    (separator.intercalate pieces).length =
      pieces.flatten.length + (pieces.length - 1) * separator.length := by
  cases pieces with
  | nil => simp
  | cons piece rest =>
      rw [intercalate_cons, List.flatten_cons, List.length_append, List.length_append,
        List.length_cons, Nat.add_sub_cancel, Nat.add_assoc]
      congr 1
      induction rest with
      | nil => simp
      | cons next rest ih =>
          rw [List.flatMap_cons, List.length_append, List.length_append, ih, List.flatten_cons,
            List.length_append, List.length_cons, Nat.succ_mul]
          omega

/-- A join of ASCII is ASCII. -/
theorem ascii_intercalate {separator : List UInt8} {pieces : List (List UInt8)}
    (hseparator : 1 < pieces.length → ∀ byte ∈ separator, byte < 0x80)
    (hpieces : ∀ byte ∈ pieces.flatten, byte < 0x80) :
    ∀ byte ∈ separator.intercalate pieces, byte < 0x80 := by
  cases pieces with
  | nil => exact fun byte hmem => absurd hmem (by simp)
  | cons piece rest =>
      rw [intercalate_cons]
      rw [List.flatten_cons] at hpieces
      intro byte hmem
      rcases List.mem_append.mp hmem with hfirst | hlater
      · exact hpieces byte (List.mem_append_left _ hfirst)
      · obtain ⟨next, hnext, hinside⟩ := List.mem_flatMap.mp hlater
        rcases List.mem_append.mp hinside with hbetween | hpiece
        · apply hseparator _ byte hbetween
          have hpos := List.length_pos_of_mem hnext
          rw [List.length_cons]
          exact Nat.lt_add_of_pos_left hpos
        · apply hpieces byte (List.mem_append_right _ _)
          exact List.mem_flatten.mpr ⟨next, hnext, hpiece⟩

/-! ## One list of values -/

section Flatten

variable {separator : Option StringView} {naEmpty : Int} {omitEmpty : Bool}

/-- What a value adds to the join: a missing one counts as empty, or not at all. -/
def pieceOf (naEmpty : Int) (omitEmpty : Bool) (value : StringView) : Option (List UInt8) :=
  if value.isNa then
    if naEmpty = naInteger ∨ naEmpty = 0 ∨ omitEmpty = true then none else some []
  else if omitEmpty && value.bytes.isEmpty then none
  else some value.bytes

/-- The pieces of a flattened vector. -/
def piecesOf (naEmpty : Int) (omitEmpty : Bool) (values : List StringView) : List (List UInt8) :=
  values.filterMap (pieceOf naEmpty omitEmpty)

/-- Without `na_empty`, a missing value makes the result missing. -/
def NaForces (naEmpty : Int) (values : List StringView) : Prop :=
  naEmpty = 0 ∧ ∃ value ∈ values, value.isNa = true

/-- Without a separator nothing stands between the pieces. -/
def separatorBytes (separator : Option StringView) : List UInt8 :=
  (separator.map StringView.bytes).getD []

theorem isEmpty_eq {value : StringView} (htext : IsText value) :
    (decide (value.len = 0)) = value.bytes.isEmpty := by
  rw [htext.len_eq]
  cases value.bytes with
  | nil => rfl
  | cons byte rest => exact decide_eq_false (Int.ofNat_ne_zero.mpr (Nat.succ_ne_zero _))

/-- Planner and writer agree on what is included, but for a value that makes the result
missing. -/
theorem included_eq {value : StringView} (hnormalized : Normalized value)
    (hforces : ¬ (value.isNa = true ∧ naEmpty = 0)) :
    included value naEmpty omitEmpty = (pieceOf naEmpty omitEmpty value).isSome := by
  unfold included pieceOf
  cases hna : value.isNa with
  | false =>
      rw [isEmpty_eq (isText_of_normalized hnormalized hna)]
      simp only [Bool.false_and, Bool.false_or, Bool.false_eq_true, if_false]
      split <;> rfl
  | true =>
      have hnot : naEmpty ≠ 0 := fun heq => hforces ⟨hna, heq⟩
      simp only [Bool.true_and, Bool.true_or, Bool.and_true, if_true, hnot, false_or]
      by_cases hskipped : naEmpty = naInteger
      · simp [hskipped]
      · cases omitEmpty <;> simp [hskipped]

/-- A piece is empty or the bytes of its value. -/
theorem pieceOf_some {value : StringView} {piece : List UInt8}
    (hpiece : pieceOf naEmpty omitEmpty value = some piece) :
    piece = if value.isNa then [] else value.bytes := by
  unfold pieceOf at hpiece
  split_ifs at hpiece ⊢
  all_goals exact (Option.some.inj hpiece).symm

/-- A missing value that is not left out has no piece. -/
theorem pieceOf_forces {value : StringView} (hna : value.isNa = true) (hforces : naEmpty = 0) :
    pieceOf naEmpty omitEmpty value = none := by
  rw [pieceOf, if_pos hna, if_pos (Or.inr (Or.inl hforces))]

/-- What the loop over some values has added to a plan. -/
structure CountsValues (naEmpty : Int) (before after : FlattenPlan) (pieces : List (List UInt8))
    (values : List StringView) : Prop where
  sizes : ∀ total, Sizes before total → Sizes after (total + pieces.flatten.length)
  count : after.pieces = before.pieces + pieces.length
  na : after.hasNa = true ↔ before.hasNa = true ∨ NaForces naEmpty values
  ascii : after.ascii = true → before.ascii = true ∧
    ((∀ value ∈ values, Marked value) → ∀ byte ∈ pieces.flatten, byte < 0x80)

/-- Counting values one list after another. -/
theorem CountsValues.trans {before between after : FlattenPlan} {pieces others : List (List UInt8)}
    {values rest : List StringView} (hfirst : CountsValues naEmpty before between pieces values)
    (hsecond : CountsValues naEmpty between after others rest) :
    CountsValues naEmpty before after (pieces ++ others) (values ++ rest) := by
  refine ⟨fun total hsizes => ?_, ?_, ?_, fun hascii => ?_⟩
  · rw [List.flatten_append, List.length_append, ← Nat.add_assoc]
    exact hsecond.sizes _ (hfirst.sizes total hsizes)
  · rw [hsecond.count, hfirst.count, List.length_append, Nat.add_assoc]
  · rw [hsecond.na, hfirst.na, or_assoc]
    refine or_congr_right ?_
    unfold NaForces
    rw [← and_or_left]
    simp only [List.mem_append, or_and_right, exists_or]
  · obtain ⟨hbetween, hothers⟩ := hsecond.ascii hascii
    obtain ⟨hbefore, hpieces⟩ := hfirst.ascii hbetween
    refine ⟨hbefore, fun hmarked => ?_⟩
    obtain ⟨hvalues, hrest⟩ := List.forall_mem_append.mp hmarked
    rw [List.flatten_append]
    exact List.forall_mem_append.mpr ⟨hpieces hvalues, hothers hrest⟩

/-- One turn of the loop over the values. -/
def planValue (naEmpty : Int) (omitEmpty : Bool) (value : StringView) (plan : FlattenPlan) :
    FlattenPlan :=
  planValues naEmpty omitEmpty [value] plan

theorem planValues_cons (value : StringView) (rest : List StringView) (plan : FlattenPlan) :
    planValues naEmpty omitEmpty (value :: rest) plan =
      planValues naEmpty omitEmpty rest (planValue naEmpty omitEmpty value plan) := by
  unfold planValue
  rw [planValues, planValues]
  dsimp only
  split_ifs <;> rfl

theorem naForces_singleton {value : StringView} :
    NaForces naEmpty [value] ↔ value.isNa = true ∧ naEmpty = 0 := by
  simp [NaForces, and_comm]

/-- A value adds its piece. -/
theorem planValue_counts {value : StringView} (hnormalized : Normalized value)
    (plan : FlattenPlan) :
    CountsValues naEmpty plan (planValue naEmpty omitEmpty value plan)
      (pieceOf naEmpty omitEmpty value).toList [value] := by
  -- the plan of a value that adds no piece
  have hnone : ∀ {after : FlattenPlan}, (∀ total, Sizes plan total → Sizes after total) →
      after.pieces = plan.pieces →
      (after.hasNa = true ↔ plan.hasNa = true ∨ NaForces naEmpty [value]) →
      (after.ascii = true → plan.ascii = true) → CountsValues naEmpty plan after [] [value] := by
    intro after hsizes hcount hna hascii
    refine ⟨hsizes, hcount, hna, fun h => ⟨hascii h, fun _ byte hmem => ?_⟩⟩
    exact absurd hmem (by simp)
  unfold planValue
  rw [planValues, planValues]
  by_cases hforces : value.isNa = true ∧ naEmpty = 0
  · -- a missing value that makes all of it missing
    have hcond : (value.isNa && decide (naEmpty ≠ naInteger) && decide (naEmpty = 0)) = true := by
      rw [hforces.1, hforces.2]
      decide
    rw [pieceOf_forces hforces.1 hforces.2, hcond, if_pos rfl]
    refine hnone (fun _ hsizes => hsizes) rfl ?_ (fun h => h)
    exact ⟨fun _ => Or.inr (naForces_singleton.mpr hforces), fun _ => rfl⟩
  · have hnot : (value.isNa && decide (naEmpty ≠ naInteger) && decide (naEmpty = 0)) = false := by
      apply Bool.eq_false_iff.mpr
      simp only [ne_eq, Bool.and_eq_true, decide_eq_true_eq]
      exact fun h => hforces ⟨h.1.1, h.2⟩
    have hna : ∀ after : FlattenPlan, after.hasNa = plan.hasNa →
        (after.hasNa = true ↔ plan.hasNa = true ∨ NaForces naEmpty [value]) := by
      intro after heq
      rw [heq, naForces_singleton]
      exact ⟨Or.inl, fun h => h.resolve_right hforces⟩
    have hincluded := @included_eq naEmpty omitEmpty value hnormalized hforces
    rw [hnot, if_neg Bool.false_ne_true]
    -- left out, a missing value that counts as an empty piece, or a text
    cases hpiece : pieceOf naEmpty omitEmpty value with
    | none =>
        rw [hpiece] at hincluded
        rw [hincluded, if_pos (by simp)]
        exact hnone (fun _ hsizes => hsizes) rfl (hna _ rfl) (fun h => h)
    | some piece =>
        rw [hpiece] at hincluded
        rw [hincluded, if_neg (by simp)]
        dsimp only [planValues]
        have hbytes := pieceOf_some hpiece
        by_cases hmissing : value.isNa = true
        · rw [if_pos hmissing] at hbytes
          rw [if_neg (not_not_intro hmissing), hbytes]
          refine ⟨fun _ hsizes => hsizes, rfl, hna _ rfl, fun h => ⟨h, fun _ byte hmem => ?_⟩⟩
          exact absurd hmem (by simp)
        · have htext := isText_of_normalized hnormalized (Bool.eq_false_iff.mpr hmissing)
          rw [if_neg hmissing] at hbytes
          rw [if_pos hmissing, htext.toSize_len, hbytes]
          refine ⟨fun total hsizes => ?_, ?_, hna _ ?_, fun hascii => ?_⟩
          · have hgrown := hsizes.addBytes value.bytes.length
            rw [Option.toList_some, List.flatten_singleton]
            exact hgrown
          · simp
          · simp
          · simp only [addBytes_ascii, Bool.and_eq_true] at hascii
            refine ⟨hascii.1, fun hmarked byte hmem => ?_⟩
            have hmem' : byte ∈ value.bytes := by simpa using hmem
            exact bytes_of_isAscii (Bool.eq_false_iff.mpr hmissing) hascii.2
              (hmarked value List.mem_cons_self) byte hmem'

/-- The values add theirs. -/
theorem planValues_counts {values : List StringView}
    (hnormalized : ∀ value ∈ values, Normalized value) (plan : FlattenPlan) :
    CountsValues naEmpty plan (planValues naEmpty omitEmpty values plan)
      (piecesOf naEmpty omitEmpty values) values := by
  induction values generalizing plan with
  | nil =>
      refine ⟨fun total hsizes => hsizes, rfl, ?_, fun hascii => ⟨hascii, fun _ byte hmem => ?_⟩⟩
      · simp [planValues, NaForces]
      · exact absurd hmem (by simp [piecesOf])
  | cons value rest ih =>
      obtain ⟨hvalue, hrest⟩ := List.forall_mem_cons.mp hnormalized
      have hboth := (@planValue_counts naEmpty omitEmpty value hvalue plan).trans
        (ih hrest (planValue naEmpty omitEmpty value plan))
      rw [planValues_cons]
      have hpieces : piecesOf naEmpty omitEmpty (value :: rest) =
          (pieceOf naEmpty omitEmpty value).toList ++ piecesOf naEmpty omitEmpty rest := by
        unfold piecesOf
        rw [List.filterMap_cons]
        cases pieceOf naEmpty omitEmpty value <;> rfl
      rw [hpieces]
      exact hboth

/-- The separators, counted behind the pieces. -/
theorem planSeparators_sizes {plan : FlattenPlan} {pieces : List (List UInt8)}
    (hseparator : ∀ text ∈ separator, IsText text)
    (hsizes : Sizes plan pieces.flatten.length) (hcount : plan.pieces = pieces.length) :
    Sizes (planSeparators separator plan)
      ((separatorBytes separator).intercalate pieces).length := by
  rw [length_intercalate, ← hcount]
  unfold planSeparators separatorBytes
  cases separator with
  | none =>
      rw [Option.map_none, Option.getD_none, List.length_nil, Nat.mul_zero, Nat.add_zero]
      exact hsizes
  | some text =>
      dsimp only [Option.map_some, Option.getD_some]
      rw [(hseparator text rfl).toSize_len]
      split
      next hfew =>
        rw [Nat.sub_eq_zero_of_le hfew, Nat.zero_mul, Nat.add_zero]
        exact hsizes
      next =>
        generalize plan.pieces - 1 = count
        -- what fits behind the pieces is what is left of the limit
        have hfits : plan.bytes ≤ intMax → 0 < text.bytes.length →
            (count > (intMax - plan.bytes) / text.bytes.length ↔
              intMax < plan.bytes + count * text.bytes.length) := by
          intro hle hpos
          rw [gt_iff_lt, Nat.div_lt_iff_lt_mul hpos]
          omega
        rcases hsizes with ⟨hlarge, hover⟩ | ⟨hnot, hbytes, hle⟩
        · apply Or.inl
          refine ⟨?_, Nat.lt_of_lt_of_le hover (Nat.le_add_right _ _)⟩
          split_ifs
          · rfl
          · exact hlarge
        · rw [← hbytes] at hle ⊢
          split_ifs with hcond
          · simp only [Bool.and_eq_true, decide_eq_true_eq] at hcond
            exact Or.inl ⟨rfl, (hfits hle hcond.1).mp hcond.2⟩
          · refine Or.inr ⟨hnot, rfl, ?_⟩
            simp only [Bool.and_eq_true, decide_eq_true_eq, not_and] at hcond
            rcases Nat.eq_zero_or_pos text.bytes.length with hzero | hpos
            · rw [hzero, Nat.mul_zero]
              exact hle
            · exact Nat.not_lt.mp fun hover => hcond hpos ((hfits hle hpos).mpr hover)

/-- A join is marked ASCII only if pieces and separators are. -/
theorem planSeparators_ascii {plan : FlattenPlan} {pieces : List (List UInt8)}
    (hseparator : ∀ text ∈ separator, text.isNa = false)
    (hcount : plan.pieces = pieces.length)
    (hascii : (planSeparators separator plan).ascii = true) :
    plan.ascii = true ∧ ((∀ text ∈ separator, Marked text) → 1 < pieces.length →
      ∀ byte ∈ separatorBytes separator, byte < 0x80) := by
  unfold planSeparators at hascii
  unfold separatorBytes
  cases separator with
  | none => exact ⟨hascii, fun _ _ byte hmem => absurd hmem List.not_mem_nil⟩
  | some text =>
      dsimp only at hascii
      split at hascii
      next hfew =>
        rw [hcount] at hfew
        exact ⟨hascii, fun _ hmany => absurd hmany (Nat.not_lt.mpr hfew)⟩
      next =>
        have hboth : plan.ascii = true ∧ isAscii text = true := by
          split_ifs at hascii
          all_goals exact Bool.and_eq_true_iff.mp hascii
        refine ⟨hboth.1, fun hmarked _ => ?_⟩
        exact bytes_of_isAscii (hseparator text rfl) hboth.2 (hmarked text rfl)

theorem planSeparators_hasNa (plan : FlattenPlan) :
    (planSeparators separator plan).hasNa = plan.hasNa := by
  unfold planSeparators
  split
  next => rfl
  next =>
    dsimp only
    split_ifs <;> rfl

/-- The separator is written. -/
theorem writes_separator (hseparator : ∀ text ∈ separator, IsText text) :
    Writes (writeSeparator separator) (separatorBytes separator) := by
  unfold writeSeparator separatorBytes
  cases separator with
  | none => exact writes_nothing
  | some text => exact (hseparator text rfl).writes

/-- The writer puts the pieces down, with separators between them. -/
theorem writes_flatten {values : List StringView} (hseparator : ∀ text ∈ separator, IsText text)
    (hnormalized : ∀ value ∈ values, Normalized value) (hforces : ¬ NaForces naEmpty values)
    (started : Bool) :
    Writes (writeFlatten separator naEmpty omitEmpty started values)
      (if started then (piecesOf naEmpty omitEmpty values).flatMap
          fun piece => separatorBytes separator ++ piece
        else (separatorBytes separator).intercalate (piecesOf naEmpty omitEmpty values)) := by
  induction values generalizing started with
  | nil => cases started <;> exact writes_nothing
  | cons value rest ih =>
      obtain ⟨hvalue, hrest⟩ := List.forall_mem_cons.mp hnormalized
      have hone : ¬ (value.isNa = true ∧ naEmpty = 0) := fun h =>
        hforces ⟨h.2, value, List.mem_cons_self, h.1⟩
      have hothers : ¬ NaForces naEmpty rest := fun ⟨hzero, other, hmem, hna⟩ =>
        hforces ⟨hzero, other, List.mem_cons_of_mem _ hmem, hna⟩
      have hincluded := @included_eq naEmpty omitEmpty value hvalue hone
      rw [writeFlatten, hincluded]
      unfold piecesOf at ih ⊢
      cases hpiece : pieceOf naEmpty omitEmpty value with
      | none =>
          rw [List.filterMap_cons_none hpiece, if_pos (by simp)]
          exact ih hrest hothers started
      | some piece =>
          rw [List.filterMap_cons_some hpiece, if_neg (by simp)]
          have hbody : Writes (if ¬ value.isNa = true then copyBytes value else .ok :
              Sink UInt8 → Result (Sink UInt8)) piece := by
            rw [pieceOf_some hpiece]
            cases hna : value.isNa with
            | true => exact writes_nothing
            | false => exact (isText_of_normalized hvalue hna).writes
          have hlater := ih hrest hothers true
          rw [if_pos rfl] at hlater
          cases started with
          | true =>
              rw [if_pos rfl, if_pos rfl, List.flatMap_cons]
              exact ((writes_separator hseparator).andThen hbody).andThen hlater
          | false =>
              rw [if_neg Bool.false_ne_true, if_neg Bool.false_ne_true, intercalate_cons]
              exact (writes_nothing.andThen hbody).andThen hlater

end Flatten

/-! ## Rows of columns -/

section Rows

variable {separator collapse : StringView} {columns : List Column} {row rowCount : Nat}

/-- The plan has counted these views, one behind the other. -/
structure Counts (plan : FlattenPlan) (views : List StringView) : Prop where
  sizes : Sizes plan (views.flatMap StringView.bytes).length
  ascii : plan.ascii = views.all isAscii

theorem counts_emptyPlan : Counts emptyPlan [] := ⟨sizes_emptyPlan, rfl⟩

/-- One more text is counted. -/
theorem Counts.add {plan : FlattenPlan} {views : List StringView} (hcounts : Counts plan views)
    {value : StringView} (htext : IsText value) (pieces : Nat) :
    Counts { addBytes plan (toSize value.len) with
      ascii := (addBytes plan (toSize value.len)).ascii && isAscii value, pieces := pieces }
      (views ++ [value]) := by
  refine ⟨?_, ?_⟩
  · have hgrown := hcounts.sizes.addBytes value.bytes.length
    rw [List.flatMap_append, List.length_append, List.flatMap_singleton, htext.toSize_len]
    exact hgrown
  · rw [List.all_append, ← hcounts.ascii]
    simp

/-- Which values stand in a row. -/
def rowValues (columns : List Column) (rowCount row : Nat) : List StringView :=
  columns.map fun column => valueAt column row rowCount

/-- What stands in front of a piece, as a list of views. -/
def betweenViews (between : StringView) (number : Nat) : List StringView :=
  if number > 0 then [between] else []

/-- Values with separators, from number `column` on. -/
def rowViews (separator : StringView) : (column : Nat) → List StringView → List StringView
  | _, [] => []
  | column, value :: rest =>
      betweenViews separator column ++ value :: rowViews separator (column + 1) rest

/-- What is read of a row that may have a missing value. -/
def readValues (values : List StringView) : List StringView :=
  values.takeWhile fun value => !value.isNa

/-- What stands between two texts is counted, but not before the first. -/
theorem planBetween_counts {between : StringView} (htext : IsText between) (number : Nat)
    {plan : FlattenPlan} {views : List StringView} (hcounts : Counts plan views) :
    Counts (planBetween between number plan) (views ++ betweenViews between number) ∧
      (planBetween between number plan).hasNa = plan.hasNa := by
  unfold planBetween betweenViews
  split
  next => exact ⟨hcounts.add htext (addBytes plan (toSize between.len)).pieces, addBytes_hasNa _ _⟩
  next =>
    rw [List.append_nil]
    exact ⟨hcounts, rfl⟩

/-- The columns of a row are counted. -/
theorem planColumns_counts (hseparator : IsText separator)
    (hnormalized : ∀ value ∈ rowValues columns rowCount row, Normalized value) (column : Nat)
    {plan : FlattenPlan} {views : List StringView} (hcounts : Counts plan views)
    (hna : plan.hasNa = false) :
    Counts (planColumns separator row rowCount column columns plan)
        (views ++ rowViews separator column (readValues (rowValues columns rowCount row))) ∧
      (planColumns separator row rowCount column columns plan).hasNa =
        (rowValues columns rowCount row).any StringView.isNa := by
  induction columns generalizing column plan views with
  | nil =>
      rw [show rowViews separator column (readValues (rowValues [] rowCount row)) = [] from rfl,
        List.append_nil]
      exact ⟨hcounts, hna⟩
  | cons current rest ih =>
      have hvalues : rowValues (current :: rest) rowCount row =
          valueAt current row rowCount :: rowValues rest rowCount row := rfl
      rw [hvalues] at hnormalized ⊢
      obtain ⟨hvalue, hrest⟩ := List.forall_mem_cons.mp hnormalized
      rw [planColumns]
      generalize valueAt current row rowCount = value at *
      dsimp only
      cases hmissing : value.isNa with
      | true =>
          rw [if_pos rfl, readValues, List.takeWhile_cons_of_neg (by rw [hmissing]; decide),
            rowViews, List.append_nil, List.any_cons, hmissing]
          exact ⟨⟨hcounts.sizes, hcounts.ascii⟩, rfl⟩
      | false =>
          have htext := isText_of_normalized hvalue hmissing
          obtain ⟨hbetween, hkept⟩ := planBetween_counts hseparator column hcounts
          rw [if_neg Bool.false_ne_true, readValues,
            List.takeWhile_cons_of_pos (by rw [hmissing]; rfl), rowViews, List.any_cons, hmissing,
            Bool.false_or]
          have hadded := hbetween.add htext ((addBytes (planBetween separator column plan)
            (toSize value.len)).pieces + 1)
          have hbehind := ih hrest (column + 1) hadded
            ((addBytes_hasNa _ _).trans (hkept.trans hna))
          rw [List.append_assoc, List.append_assoc, List.singleton_append] at hbehind
          exact hbehind

/-- What stands between two texts is written, but not before the first. -/
theorem writes_between {between : StringView} (htext : IsText between) (number : Nat) :
    Writes (writeBetween between number)
      ((betweenViews between number).flatMap StringView.bytes) := by
  unfold writeBetween betweenViews
  split
  next =>
    rw [List.flatMap_singleton]
    exact htext.writes
  next => exact writes_nothing

/-- The columns of a row are written. -/
theorem writes_columns (hseparator : IsText separator)
    (htexts : ∀ value ∈ rowValues columns rowCount row, IsText value) (column : Nat) :
    Writes (writeColumns separator row rowCount column columns)
      ((rowViews separator column (rowValues columns rowCount row)).flatMap StringView.bytes) := by
  induction columns generalizing column with
  | nil => exact writes_nothing
  | cons current rest ih =>
      have hvalues : rowValues (current :: rest) rowCount row =
          valueAt current row rowCount :: rowValues rest rowCount row := rfl
      rw [hvalues] at htexts ⊢
      obtain ⟨hvalue, hrest⟩ := List.forall_mem_cons.mp htexts
      rw [rowViews, List.flatMap_append, List.flatMap_cons, ← List.append_assoc]
      exact ((writes_between hseparator column).andThen hvalue.writes).andThen
        (ih hrest (column + 1))

/-- The rows, from number `row` on, with `collapse` between them. -/
def rowsViews (separator collapse : StringView) (values : Nat → List StringView) :
    (row rows : Nat) → List StringView
  | _, 0 => []
  | row, rows + 1 =>
      betweenViews collapse row ++ rowViews separator 0 (values row) ++
        rowsViews separator collapse values (row + 1) rows

/-- Whether one of some rows has a missing value. -/
def hasMissing (values : Nat → List StringView) (row rows : Nat) : Bool :=
  (List.range' row rows).any fun row => (values row).any StringView.isNa

/-- What is read of them up to the first missing value. -/
def readRows (separator collapse : StringView) (values : Nat → List StringView) :
    (row rows : Nat) → List StringView
  | _, 0 => []
  | row, rows + 1 =>
      betweenViews collapse row ++ rowViews separator 0 (readValues (values row)) ++
        if (values row).any StringView.isNa then []
        else readRows separator collapse values (row + 1) rows

/-- Where nothing is missing all values are read. -/
theorem readValues_eq {values : List StringView} (hnone : values.any StringView.isNa = false) :
    readValues values = values := by
  apply List.takeWhile_eq_self_iff.mpr
  intro value hmem
  rw [List.any_eq_false] at hnone
  rw [Bool.eq_false_iff.mpr (hnone value hmem)]
  rfl

/-- Where nothing is missing all rows are read. -/
theorem readRows_eq {values : Nat → List StringView} {row rows : Nat}
    (hnone : hasMissing values row rows = false) :
    readRows separator collapse values row rows = rowsViews separator collapse values row rows := by
  induction rows generalizing row with
  | zero => rfl
  | succ rows ih =>
      rw [hasMissing, List.range'_succ, List.any_cons, Bool.or_eq_false_iff] at hnone
      rw [readRows, rowsViews, hnone.1, if_neg Bool.false_ne_true, readValues_eq hnone.1,
        ih hnone.2]

/-- The rows are counted. -/
theorem planRows_counts (hseparator : IsText separator) (hcollapse : IsText collapse)
    (hnormalized : ∀ row < rowCount, ∀ value ∈ rowValues columns rowCount row, Normalized value)
    {row rows : Nat} (hrows : row + rows ≤ rowCount) {plan : FlattenPlan}
    {views : List StringView} (hcounts : Counts plan views) (hna : plan.hasNa = false) :
    Counts (planRows separator collapse rowCount columns row rows plan)
        (views ++ readRows separator collapse (rowValues columns rowCount) row rows) ∧
      (planRows separator collapse rowCount columns row rows plan).hasNa =
        hasMissing (rowValues columns rowCount) row rows := by
  induction rows generalizing row plan views with
  | zero =>
      rw [readRows, List.append_nil]
      exact ⟨hcounts, hna⟩
  | succ rows ih =>
      obtain ⟨hbetween, hkept⟩ := planBetween_counts hcollapse row hcounts
      obtain ⟨hcolumns, hmissing⟩ := planColumns_counts hseparator
        (hnormalized row (by omega)) 0 hbetween (hkept.trans hna)
      rw [planRows, readRows, hasMissing, List.range'_succ, List.any_cons]
      rw [hmissing, ← List.append_assoc, ← List.append_assoc]
      cases hrow : (rowValues columns rowCount row).any StringView.isNa with
      | true =>
          rw [if_pos rfl, if_pos rfl, List.append_nil]
          exact ⟨hcolumns, hmissing.trans hrow⟩
      | false =>
          rw [if_neg Bool.false_ne_true, if_neg Bool.false_ne_true, Bool.false_or]
          exact ih (by omega) hcolumns (hmissing.trans hrow)

/-- The rows are written. -/
theorem writes_rows (hseparator : IsText separator) (hcollapse : IsText collapse)
    (htexts : ∀ row < rowCount, ∀ value ∈ rowValues columns rowCount row, IsText value)
    {row rows : Nat} (hrows : row + rows ≤ rowCount) :
    Writes (writeRows separator collapse rowCount columns row rows)
      ((rowsViews separator collapse (rowValues columns rowCount) row rows).flatMap
        StringView.bytes) := by
  induction rows generalizing row with
  | zero => exact writes_nothing
  | succ rows ih =>
      rw [rowsViews, List.flatMap_append, List.flatMap_append]
      exact ((writes_between hcollapse row).andThen
        (writes_columns hseparator (htexts row (by omega)) 0)).andThen (ih (by omega))

/-! ## What is joined -/

/-- The value of a column in a row, the column repeated as often as it takes. -/
def recycled (column : Column) (row : Nat) : StringView :=
  column.values.getD (row % column.values.length) StringView.na

/-- A column is recycled. -/
theorem valueAt_eq (column : Column) (hrow : row < rowCount) :
    valueAt column row rowCount = recycled column row := by
  unfold valueAt recycled
  split
  next hone => rw [hone, Nat.mod_one]
  next =>
    split
    next hall => rw [hall, Nat.mod_eq_of_lt hrow]
    next => rfl

theorem recycled_mem (column : Column) (row : Nat) : recycled column row ∈ column.values := by
  have hlt : row % column.values.length < column.values.length :=
    Nat.mod_lt _ (List.length_pos_iff.mpr column.nonempty)
  rw [recycled, List.getD_eq_getElem?_getD, List.getElem?_eq_getElem hlt]
  exact List.getElem_mem hlt

/-- The values of a row. -/
def recycledRow (columns : List Column) (row : Nat) : List StringView :=
  columns.map fun column => recycled column row

theorem rowValues_eq (hrow : row < rowCount) :
    rowValues columns rowCount row = recycledRow columns row :=
  List.map_congr_left fun column _ => valueAt_eq column hrow

/-- The texts of a row are its joined values. -/
theorem flatMap_rowViews (separator : StringView) (column : Nat) (values : List StringView) :
    (rowViews separator column values).flatMap StringView.bytes =
      if column = 0 then separator.bytes.intercalate (values.map StringView.bytes)
      else (values.map StringView.bytes).flatMap fun piece => separator.bytes ++ piece := by
  induction values generalizing column with
  | nil => split <;> rfl
  | cons value rest ih =>
      have hlater := ih (column + 1)
      rw [if_neg (Nat.succ_ne_zero column)] at hlater
      rw [rowViews, List.flatMap_append, List.flatMap_cons, hlater, List.map_cons]
      unfold betweenViews
      split
      next hpos =>
        rw [if_neg (Nat.pos_iff_ne_zero.mp hpos), List.flatMap_singleton, List.flatMap_cons,
          List.append_assoc]
      next hzero =>
        rw [if_pos (Nat.eq_zero_of_not_pos hzero), intercalate_cons]
        rfl

/-- The bytes of a row. -/
noncomputable def joinedRow (separator : StringView) (values : List StringView) : List UInt8 :=
  separator.bytes.intercalate (values.map StringView.bytes)

/-- The texts of all rows are the joined rows. -/
theorem flatMap_rowsViews (values : Nat → List StringView) (row rows : Nat) :
    (rowsViews separator collapse values row rows).flatMap StringView.bytes =
      if row = 0 then
        collapse.bytes.intercalate
          ((List.range' row rows).map fun row => joinedRow separator (values row))
      else (List.range' row rows).flatMap fun row =>
        collapse.bytes ++ joinedRow separator (values row) := by
  induction rows generalizing row with
  | zero => split <;> rfl
  | succ rows ih =>
      have hlater := ih (row + 1)
      have hrow := flatMap_rowViews separator 0 (values row)
      rw [if_neg (Nat.succ_ne_zero row)] at hlater
      rw [if_pos rfl] at hrow
      rw [rowsViews, List.flatMap_append, List.flatMap_append, hlater, hrow, List.range'_succ]
      unfold betweenViews
      split
      next hpos =>
        rw [if_neg (Nat.pos_iff_ne_zero.mp hpos), List.flatMap_singleton, List.flatMap_cons]
        rfl
      next hzero =>
        rw [if_pos (Nat.eq_zero_of_not_pos hzero), List.map_cons, intercalate_cons,
          List.flatMap_map]
        rfl

/-- Only the values of the rows matter. -/
theorem readRows_congr {values others : Nat → List StringView} {row rows : Nat}
    (heq : ∀ number, number < row + rows → values number = others number) :
    readRows separator collapse values row rows = readRows separator collapse others row rows ∧
      hasMissing values row rows = hasMissing others row rows := by
  induction rows generalizing row with
  | zero => exact ⟨rfl, rfl⟩
  | succ rows ih =>
      obtain ⟨hread, hmissing⟩ := @ih (row + 1) fun number hlt => heq number (by omega)
      unfold hasMissing at hmissing ⊢
      rw [readRows, readRows, heq row (by omega), hread, List.range'_succ, List.any_cons,
        List.any_cons, hmissing, heq row (by omega)]
      exact ⟨rfl, rfl⟩

/-- Every view of a row is a separator or a value of it. -/
theorem mem_rowViews {value : StringView} {column : Nat} {values : List StringView}
    (hmem : value ∈ rowViews separator column values) : value = separator ∨ value ∈ values := by
  induction values generalizing column with
  | nil => exact absurd hmem List.not_mem_nil
  | cons first rest ih =>
      rw [rowViews] at hmem
      rcases List.mem_append.mp hmem with hbetween | hbehind
      · unfold betweenViews at hbetween
        split at hbetween
        next => exact Or.inl (List.mem_singleton.mp hbetween)
        next => exact absurd hbetween List.not_mem_nil
      · rcases List.mem_cons.mp hbehind with rfl | hlater
        · exact Or.inr List.mem_cons_self
        · exact (ih hlater).imp_right (List.mem_cons_of_mem _)

/-- What is read is a value or stands between values. -/
theorem mem_readRows {value : StringView} {values : Nat → List StringView} {row rows : Nat}
    (hmem : value ∈ readRows separator collapse values row rows) :
    value = collapse ∨ value = separator ∨ ∃ number, value ∈ readValues (values number) := by
  induction rows generalizing row with
  | zero => exact absurd hmem List.not_mem_nil
  | succ rows ih =>
      rw [readRows] at hmem
      rcases List.mem_append.mp hmem with hfront | hbehind
      · rcases List.mem_append.mp hfront with hbetween | hrow
        · unfold betweenViews at hbetween
          split at hbetween
          next => exact Or.inl (List.mem_singleton.mp hbetween)
          next => exact absurd hbetween List.not_mem_nil
        · exact Or.inr ((mem_rowViews hrow).imp_right fun hvalue => ⟨row, hvalue⟩)
      · split at hbehind
        next => exact absurd hbehind List.not_mem_nil
        next => exact ih hbehind

theorem mem_readValues {value : StringView} {values : List StringView}
    (hmem : value ∈ readValues values) : value ∈ values ∧ value.isNa = false := by
  have hkept := List.mem_takeWhile_imp hmem
  exact ⟨(List.takeWhile_sublist _).subset hmem, by simpa using hkept⟩

end Rows

/-! ## The plans -/

/-- What is asked of a plan, and of the writer it is for: `counted` is what the planner has gone
over, `joined` what is to be written. -/
structure Plans (plan : FlattenPlan) (write : Sink UInt8 → Result (Sink UInt8)) (missing : Prop)
    (counted joined : List UInt8) (marked : Prop) : Prop where
  na : plan.hasNa = true ↔ missing
  large : plan.tooLarge = true ↔ intMax < counted.length
  /-- The planner stops early only at a value that makes the result missing. -/
  whole : ¬ missing → counted = joined
  bytes : ¬ missing → plan.tooLarge = false → plan.bytes = joined.length
  writes : ¬ missing → ∀ output : List UInt8, joined.length ≤ output.length →
    write ⟨output, 0⟩ = .ok ⟨joined ++ output.drop joined.length, joined.length⟩
  ascii : marked → plan.ascii = true → ∀ byte ∈ counted, byte < 0x80

/-- A separator is a string. -/
def IsSeparator (text : StringView) : Prop := Normalized text ∧ text.isNa = false

theorem IsSeparator.isText {text : StringView} (hseparator : IsSeparator text) : IsText text :=
  isText_of_normalized hseparator.1 hseparator.2

/-- A flattening is planned as it is written. -/
theorem flatten_plans {separator : Option StringView} {values : List StringView} (naEmpty : Int)
    (omitEmpty : Bool) (hseparator : ∀ text ∈ separator, IsSeparator text)
    (hnormalized : ∀ value ∈ values, Normalized value) :
    Plans (planFlatten separator naEmpty omitEmpty values)
      (writeFlatten separator naEmpty omitEmpty false values) (NaForces naEmpty values)
      ((separatorBytes separator).intercalate (piecesOf naEmpty omitEmpty values))
      ((separatorBytes separator).intercalate (piecesOf naEmpty omitEmpty values))
      ((∀ value ∈ values, Marked value) ∧ ∀ text ∈ separator, Marked text) := by
  have htext : ∀ text ∈ separator, IsText text := fun text hmem => (hseparator text hmem).isText
  have hcounts := @planValues_counts naEmpty omitEmpty values hnormalized emptyPlan
  have hcount := hcounts.count.trans (Nat.zero_add _)
  have hvalues := hcounts.sizes 0 sizes_emptyPlan
  rw [Nat.zero_add] at hvalues
  have hsizes := planSeparators_sizes htext hvalues hcount
  refine ⟨?_, hsizes.tooLarge_iff, fun _ => rfl, fun _ => hsizes.bytes_eq, fun hnone => ?_, ?_⟩
  · rw [planFlatten, planSeparators_hasNa, hcounts.na]
    exact ⟨fun h => h.resolve_left Bool.false_ne_true, Or.inr⟩
  · exact (writes_flatten htext hnormalized hnone false).front
  · rintro ⟨hmarked, hmarkedSeparator⟩ hascii
    obtain ⟨hplan, hbetween⟩ := planSeparators_ascii
      (fun text hmem => (hseparator text hmem).2) hcount hascii
    exact ascii_intercalate (hbetween hmarkedSeparator) ((hcounts.ascii hplan).2 hmarked)

section RowPlans

variable {separator collapse : StringView} {columns : List Column} {row rowCount : Nat}

/-- The values of all columns are strings or missing. -/
def AllNormalized (columns : List Column) : Prop :=
  ∀ column ∈ columns, ∀ value ∈ column.values, Normalized value

/-- The values of all columns are marked truthfully. -/
def AllMarked (columns : List Column) : Prop :=
  ∀ column ∈ columns, ∀ value ∈ column.values, Marked value

theorem mem_recycledRow {value : StringView} {row : Nat} (hmem : value ∈ recycledRow columns row) :
    ∃ column ∈ columns, value ∈ column.values := by
  obtain ⟨column, hcolumn, rfl⟩ := List.mem_map.mp hmem
  exact ⟨column, hcolumn, recycled_mem column row⟩

theorem normalized_recycledRow (hnormalized : AllNormalized columns) (row : Nat) :
    ∀ value ∈ recycledRow columns row, Normalized value := by
  intro value hmem
  obtain ⟨column, hcolumn, hvalue⟩ := mem_recycledRow hmem
  exact hnormalized column hcolumn value hvalue

theorem any_isNa_iff {values : List StringView} :
    values.any StringView.isNa = true ↔ ∃ value ∈ values, value.isNa = true := List.any_eq_true

/-- A plan that has counted marked views, none of them missing, is right about ASCII. -/
theorem Counts.bytes_ascii {plan : FlattenPlan} {views : List StringView}
    (hcounts : Counts plan views) (hviews : ∀ view ∈ views, view.isNa = false ∧ Marked view)
    (hascii : plan.ascii = true) : ∀ byte ∈ views.flatMap StringView.bytes, byte < 0x80 := by
  rw [hcounts.ascii, List.all_eq_true] at hascii
  intro byte hmem
  obtain ⟨view, hview, hbyte⟩ := List.mem_flatMap.mp hmem
  exact bytes_of_isAscii (hviews view hview).1 (hascii view hview) (hviews view hview).2 byte hbyte

/-- Where nothing is missing every value is a text. -/
theorem isText_of_none {values : List StringView} (hnormalized : ∀ value ∈ values, Normalized value)
    (hnone : ¬ ∃ value ∈ values, value.isNa = true) : ∀ value ∈ values, IsText value := by
  intro value hmem
  apply isText_of_normalized (hnormalized value hmem)
  exact Bool.eq_false_iff.mpr fun hna => hnone ⟨value, hmem, hna⟩

/-- The join of a row is planned as it is written. -/
theorem joinRow_plans (hseparator : IsSeparator separator) (hnormalized : AllNormalized columns)
    (hrow : row < rowCount) :
    Plans (planJoinRow separator row rowCount columns)
      (writeJoinRow separator row rowCount columns)
      (∃ value ∈ recycledRow columns row, value.isNa = true)
      (joinedRow separator (readValues (recycledRow columns row)))
      (joinedRow separator (recycledRow columns row))
      (Marked separator ∧ AllMarked columns) := by
  have hvalues := @rowValues_eq columns row rowCount hrow
  have hrowNormalized := normalized_recycledRow hnormalized row
  obtain ⟨hcounts, hna⟩ := planColumns_counts hseparator.isText
    (hvalues ▸ hrowNormalized) 0 counts_emptyPlan rfl
  have hjoined : ∀ values, (rowViews separator 0 values).flatMap StringView.bytes =
      joinedRow separator values := fun values => by
    rw [flatMap_rowViews, if_pos rfl]
    rfl
  rw [hvalues, List.nil_append] at hcounts
  rw [hvalues] at hna
  have hsizes := hcounts.sizes
  rw [hjoined] at hsizes
  have hwhole : ¬ (∃ value ∈ recycledRow columns row, value.isNa = true) →
      readValues (recycledRow columns row) = recycledRow columns row := fun hnone =>
    readValues_eq (Bool.eq_false_iff.mpr fun h => hnone (any_isNa_iff.mp h))
  refine ⟨?_, hsizes.tooLarge_iff, fun hnone => ?_, fun hnone hnot => ?_, fun hnone => ?_, ?_⟩
  · rw [← any_isNa_iff, ← hna]
    rfl
  · rw [hwhole hnone]
  · have hbytes := hsizes.bytes_eq hnot
    rwa [hwhole hnone] at hbytes
  · have hwrites := writes_columns hseparator.isText
      (hvalues ▸ isText_of_none hrowNormalized hnone) 0
    rw [hvalues, hjoined] at hwrites
    exact hwrites.front
  · rintro ⟨hmarkedSeparator, hmarked⟩ hascii
    rw [← hjoined]
    apply hcounts.bytes_ascii _ hascii
    intro view hview
    rcases mem_rowViews hview with rfl | hvalue
    · exact ⟨hseparator.2, hmarkedSeparator⟩
    · obtain ⟨hmem, hnotMissing⟩ := mem_readValues hvalue
      obtain ⟨column, hcolumn, hinside⟩ := mem_recycledRow hmem
      exact ⟨hnotMissing, hmarked column hcolumn view hinside⟩

/-- All rows, with `collapse` between them. -/
noncomputable def joinedRows (separator collapse : StringView) (columns : List Column)
    (rowCount : Nat) : List UInt8 :=
  collapse.bytes.intercalate
    ((List.range rowCount).map fun row => joinedRow separator (recycledRow columns row))

/-- The join of all rows is planned as it is written. -/
theorem joinAll_plans (hseparator : IsSeparator separator) (hcollapse : IsSeparator collapse)
    (hnormalized : AllNormalized columns) :
    Plans (planJoinAll separator collapse rowCount columns)
      (writeJoinAll separator collapse rowCount columns)
      (∃ row < rowCount, ∃ value ∈ recycledRow columns row, value.isNa = true)
      ((readRows separator collapse (recycledRow columns) 0 rowCount).flatMap StringView.bytes)
      (joinedRows separator collapse columns rowCount)
      (Marked separator ∧ Marked collapse ∧ AllMarked columns) := by
  -- the plan reads the columns row by row, as they are recycled
  have hvalues : ∀ row < rowCount, rowValues columns rowCount row = recycledRow columns row :=
    fun row hrow => rowValues_eq hrow
  have hrowNormalized : ∀ row < rowCount, ∀ value ∈ rowValues columns rowCount row,
      Normalized value := fun row hrow =>
    hvalues row hrow ▸ normalized_recycledRow hnormalized row
  have hall : 0 + rowCount ≤ rowCount := Nat.le_of_eq (Nat.zero_add rowCount)
  obtain ⟨hcounts, hna⟩ := planRows_counts hseparator.isText hcollapse.isText hrowNormalized hall
    counts_emptyPlan rfl
  obtain ⟨hread, hmissing⟩ := @readRows_congr separator collapse (rowValues columns rowCount)
    (recycledRow columns) 0 rowCount fun number hlt => hvalues number (hall.trans' hlt)
  rw [List.nil_append, hread] at hcounts
  rw [hmissing] at hna
  have hjoined : (rowsViews separator collapse (recycledRow columns) 0 rowCount).flatMap
      StringView.bytes = joinedRows separator collapse columns rowCount := by
    rw [flatMap_rowsViews, if_pos rfl, ← List.range_eq_range']
    rfl
  have hmissingIff : hasMissing (recycledRow columns) 0 rowCount = true ↔
      ∃ row < rowCount, ∃ value ∈ recycledRow columns row, value.isNa = true := by
    unfold hasMissing
    rw [← List.range_eq_range', List.any_eq_true]
    simp only [List.mem_range, any_isNa_iff]
  -- without a missing value the plan stops nowhere, and reads all that is joined
  have hwhole : ¬ (∃ row < rowCount, ∃ value ∈ recycledRow columns row, value.isNa = true) →
      readRows separator collapse (recycledRow columns) 0 rowCount =
        rowsViews separator collapse (recycledRow columns) 0 rowCount := fun hnone =>
    readRows_eq (Bool.eq_false_iff.mpr fun h => hnone (hmissingIff.mp h))
  have hsizes := hcounts.sizes
  refine ⟨?_, hsizes.tooLarge_iff, fun hnone => ?_, fun hnone hnot => ?_, fun hnone => ?_, ?_⟩
  · rw [← hmissingIff, ← hna]
    rfl
  · rw [hwhole hnone, hjoined]
  · have hbytes := hsizes.bytes_eq hnot
    rwa [hwhole hnone, hjoined] at hbytes
  -- what is written, again row by row
  · have htexts : ∀ row < rowCount, ∀ value ∈ rowValues columns rowCount row, IsText value := by
      intro row hrow
      apply isText_of_none (hrowNormalized row hrow)
      rw [hvalues row hrow]
      exact fun hsome => hnone ⟨row, hrow, hsome⟩
    have hwrites := writes_rows hseparator.isText hcollapse.isText htexts hall
    have hviews : rowsViews separator collapse (rowValues columns rowCount) 0 rowCount =
        rowsViews separator collapse (recycledRow columns) 0 rowCount := by
      rw [← hwhole hnone, ← hread]
      apply (readRows_eq _).symm
      rw [hmissing]
      exact Bool.eq_false_iff.mpr fun h => hnone (hmissingIff.mp h)
    rw [hviews, hjoined] at hwrites
    exact hwrites.front
  -- the mark: every view that is read keeps its own
  · rintro ⟨hmarkedSeparator, hmarkedCollapse, hmarked⟩ hascii
    apply hcounts.bytes_ascii _ hascii
    intro view hview
    rcases mem_readRows hview with rfl | rfl | ⟨number, hvalue⟩
    · exact ⟨hcollapse.2, hmarkedCollapse⟩
    · exact ⟨hseparator.2, hmarkedSeparator⟩
    · obtain ⟨hmem, hnotMissing⟩ := mem_readValues hvalue
      obtain ⟨column, hcolumn, hinside⟩ := mem_recycledRow hmem
      exact ⟨hnotMissing, hmarked column hcolumn view hinside⟩

end RowPlans

/-- Flattening, joining a row and joining all rows are planned as they are written: the plan
says whether the result is missing or too large, counts its bytes exactly, and calls it
ASCII only where it is. -/
theorem join_plans :
    (∀ (separator : Option StringView) (naEmpty : Int) (omitEmpty : Bool)
        (values : List StringView), (∀ text ∈ separator, IsSeparator text) →
      (∀ value ∈ values, Normalized value) →
      Plans (planFlatten separator naEmpty omitEmpty values)
        (writeFlatten separator naEmpty omitEmpty false values) (NaForces naEmpty values)
        ((separatorBytes separator).intercalate (piecesOf naEmpty omitEmpty values))
        ((separatorBytes separator).intercalate (piecesOf naEmpty omitEmpty values))
        ((∀ value ∈ values, Marked value) ∧ ∀ text ∈ separator, Marked text)) ∧
    (∀ (separator : StringView) (columns : List Column) (row rowCount : Nat),
      IsSeparator separator → AllNormalized columns → row < rowCount →
      Plans (planJoinRow separator row rowCount columns)
        (writeJoinRow separator row rowCount columns)
        (∃ value ∈ recycledRow columns row, value.isNa = true)
        (joinedRow separator (readValues (recycledRow columns row)))
        (joinedRow separator (recycledRow columns row))
        (Marked separator ∧ AllMarked columns)) ∧
    ∀ (separator collapse : StringView) (columns : List Column) (rowCount : Nat),
      IsSeparator separator → IsSeparator collapse → AllNormalized columns →
      Plans (planJoinAll separator collapse rowCount columns)
        (writeJoinAll separator collapse rowCount columns)
        (∃ row < rowCount, ∃ value ∈ recycledRow columns row, value.isNa = true)
        ((readRows separator collapse (recycledRow columns) 0 rowCount).flatMap StringView.bytes)
        (joinedRows separator collapse columns rowCount)
        (Marked separator ∧ Marked collapse ∧ AllMarked columns) :=
  ⟨fun _ naEmpty omitEmpty _ hseparator hnormalized =>
      flatten_plans naEmpty omitEmpty hseparator hnormalized,
    fun _ _ _ _ hseparator hnormalized hrow => joinRow_plans hseparator hnormalized hrow,
    fun _ _ _ _ hseparator hcollapse hnormalized =>
      joinAll_plans hseparator hcollapse hnormalized⟩

/-- `,` -/
def comma : StringView := ⟨.bytes ⟨8, [0x2c], by decide⟩, .ascii⟩

theorem length_letter_le : [(0x61 : UInt8)].length ≤ intMax := by decide

/-- `a` -/
def letter : StringView := ⟨.bytes ⟨16, [0x61], length_letter_le⟩, .ascii⟩

/-- A column with a letter and a missing value. -/
def gapped : Column := ⟨[letter, StringView.na], by decide⟩

theorem join_plans_letters :
    IsSeparator comma ∧ AllNormalized [gapped] ∧
    Plans (planFlatten (some comma) 0 false [letter, letter])
      (writeFlatten (some comma) 0 false false [letter, letter]) (NaForces 0 [letter, letter])
      ((separatorBytes (some comma)).intercalate (piecesOf 0 false [letter, letter]))
      ((separatorBytes (some comma)).intercalate (piecesOf 0 false [letter, letter]))
      ((∀ value ∈ [letter, letter], Marked value) ∧ ∀ text ∈ some comma, Marked text) ∧
    Plans (planJoinRow comma 0 2 [gapped]) (writeJoinRow comma 0 2 [gapped])
      (∃ value ∈ recycledRow [gapped] 0, value.isNa = true)
      (joinedRow comma (readValues (recycledRow [gapped] 0)))
      (joinedRow comma (recycledRow [gapped] 0)) (Marked comma ∧ AllMarked [gapped]) ∧
    Plans (planJoinAll comma comma 2 [gapped]) (writeJoinAll comma comma 2 [gapped])
      (∃ row < 2, ∃ value ∈ recycledRow [gapped] row, value.isNa = true)
      ((readRows comma comma (recycledRow [gapped]) 0 2).flatMap StringView.bytes)
      (joinedRows comma comma [gapped] 2) (Marked comma ∧ Marked comma ∧ AllMarked [gapped]) := by
  have hcomma : IsSeparator comma := ⟨Or.inr ⟨_, rfl⟩, rfl⟩
  have hletter : Normalized letter := Or.inr ⟨_, rfl⟩
  have hgapped : AllNormalized [gapped] := by
    intro column hcolumn value hvalue
    rw [List.mem_singleton.mp hcolumn] at hvalue
    rcases List.mem_cons.mp hvalue with rfl | hlater
    · exact hletter
    · rw [List.mem_singleton.mp hlater]
      exact Or.inl rfl
  refine ⟨hcomma, hgapped, join_plans.1 (some comma) 0 false [letter, letter] ?_ ?_,
    join_plans.2.1 comma [gapped] 0 2 hcomma hgapped (by decide),
    join_plans.2.2 comma comma [gapped] 2 hcomma hcomma hgapped⟩
  · intro text htext
    rw [← Option.some_inj.mp htext]
    exact hcomma
  · intro value hvalue
    rcases List.mem_cons.mp hvalue with rfl | hlater
    · exact hletter
    · exact List.mem_singleton.mp hlater ▸ hletter

end Charr.Join
