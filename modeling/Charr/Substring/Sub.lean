import Charr.Output.ChunkStores
import Charr.Parallel.Chunks
import Charr.Parallel.Tasks
import Charr.Substring.Extract

/-!
# Substrings of the elements of a vector

`ci_sub` recycles its arguments and cuts one substring for each position. Positions
of negative length are missing, or left out when `ignore_negative_length` is set;
then the positions that are kept are walked over string by string.
-/

namespace Charr.Substring

open Parallel

/-! ## Recycling -/

/-- The common length of recycled arguments, and whether they do not recycle evenly. -/
def recyclingLength (lengths : List Nat) : Nat × Bool :=
  if lengths.any (· = 0) then (0, false)
  else
    let output := lengths.foldl max 0
    (output, lengths.any fun length => output % length ≠ 0)

/-- The first index in recycled order. -/
def recycledOrderBegin (sourceLength outputLength : Nat) : Nat :=
  if sourceLength = 0 then outputLength else 0

/-- The index behind: a source length further, or at the start of the next residue. -/
def recycledOrderNext (index sourceLength outputLength : Nat) : Nat :=
  if sourceLength = 0 then outputLength
  else if index + 1 + outputLength % sourceLength = outputLength then outputLength
  else if sourceLength ≥ outputLength - index then index % sourceLength + 1
  else index + sourceLength

/-- The positions the loop goes over from `index` on, while there is fuel. -/
def recycledOrder (sourceLength outputLength : Nat) : Nat → Nat → Option (List Nat)
  | 0, _ => none
  | fuel + 1, index =>
      if index < outputLength then do
        let rest ← recycledOrder sourceLength outputLength fuel
          (recycledOrderNext index sourceLength outputLength)
        return index :: rest
      else some []

/-! ## The operation -/

section Operation

variable (values : List FrameInput) (bounds : Bounds)

/-- The subject of a result, recycled. -/
def valueAt (index : Nat) : FrameInput := recycled values none index

/-- Whether the result is one of negative length. -/
def negativeAt (index : Nat) : Bool :=
  negativeLength (valueAt values index) (bounds.currentFrom index) (bounds.currentTo index)
    bounds.lengths.isSome

/-- The result, and how many were of negative length so far. -/
def extractAt (index negativeLengths : Nat) : Option OutputText × Nat :=
  extractOne (valueAt values index) (bounds.currentFrom index) (bounds.currentTo index)
    bounds.lengths.isSome negativeLengths

/-- The loop of one worker. -/
def subLoop : List Nat → Nat → List (Option OutputText) × Nat
  | [], negativeLengths => ([], negativeLengths)
  | index :: rest, negativeLengths =>
      let (output, negativeLengths) := extractAt values bounds index negativeLengths
      let (outputs, negativeLengths) := subLoop rest negativeLengths
      (output :: outputs, negativeLengths)

/-- The region of the extraction; workers count the negative lengths they meet. -/
def subBody : ParallelBody Nat (Option OutputText) NativeError where
  initial _ := 0
  task _ index negativeLengths :=
    let (output, negativeLengths) := extractAt values bounds index negativeLengths
    { ending := .next, state := negativeLengths, writes := [(index, output)] }
  describeError := NativeError.text

/-- Leave the positions of negative length out, if there are any and they are ignored. -/
def compacted (ignoreNegativeLength : Bool) (outputs : List (Option OutputText))
    (negativeLengths : Nat) : Option (List (Option OutputText)) :=
  if negativeLengths > 0 && ignoreNegativeLength then do
    let order ← recycledOrder values.length bounds.vectorizeLength (bounds.vectorizeLength + 1)
      (recycledOrderBegin values.length bounds.vectorizeLength)
    let kept := order.filterMap fun index =>
      if negativeAt values bounds index then none else some (outputs.getD index none)
    return Output.setRecords 0 kept
      (List.replicate (bounds.vectorizeLength - negativeLengths) none)
  else some outputs

/-- The arguments, recycled to the length of the longest. -/
def subBounds (start : List Int) (stop lengths : Option (List Int)) : Bounds where
  start := start
  stop := stop
  lengths := lengths
  vectorizeLength := (recyclingLength [values.length, start.length,
    max (stop.getD []).length (lengths.getD []).length]).1

/-- `ci_sub`; the results of negative length are dropped at the end, if that is asked for. -/
def ciSub (settings : Settings) (start : List Int) (stop lengths : Option (List Int))
    (ignoreNegativeLength : Bool) (schedule : List Nat) : Option (List (Option OutputText)) :=
  let bounds := subBounds values start stop lengths
  let plan := parallelPlan settings true bounds.vectorizeLength
  if plan.workers > 1 then do
    let regionEnd ← runParallel plan bounds.vectorizeLength (subBody values bounds)
      (fun _ => none) schedule
    let negativeLengths := ((List.range plan.workers).map fun worker =>
      (regionEnd.final.worker worker).state).sum
    let outputs := (List.range bounds.vectorizeLength).map fun index =>
      (regionEnd.final.shared.result index).getD none
    compacted values bounds ignoreNegativeLength outputs negativeLengths
  else
    let (outputs, negativeLengths) :=
      subLoop values bounds (List.range bounds.vectorizeLength) 0
    compacted values bounds ignoreNegativeLength outputs negativeLengths

end Operation

/-! ## The order of the walk -/

/-- The positions, those of the first string first. -/
def groupedOrder (sourceLength outputLength : Nat) : List Nat :=
  (List.range sourceLength).flatMap fun residue =>
    (List.range outputLength).filter fun index => index % sourceLength = residue

/-- The rest of the positions of the string at `index`. -/
def sameString (sourceLength outputLength index : Nat) : List Nat :=
  (List.range outputLength).filter fun other =>
    index ≤ other && other % sourceLength = index % sourceLength

/-- The positions of the strings behind it. -/
def laterStrings (sourceLength outputLength residue : Nat) : List Nat :=
  (List.range' (residue + 1) (sourceLength - (residue + 1))).flatMap fun later =>
    (List.range outputLength).filter fun index => index % sourceLength = later

/-- The results of one string from an index on. -/
theorem sameString_cons {sourceLength outputLength index : Nat} (hsource : 0 < sourceLength)
    (hindex : index < outputLength) :
    sameString sourceLength outputLength index =
      index :: (List.range outputLength).filter fun other =>
        index + sourceLength ≤ other && other % sourceLength = index % sourceLength := by
  have hfront : ∀ low, index ≤ low → (List.range index).filter (fun other =>
      low ≤ other && other % sourceLength = index % sourceLength) = [] := by
    intro low hlow
    apply List.filter_eq_nil_iff.mpr
    intro other hother
    have hless := List.mem_range.mp hother
    simp only [Bool.and_eq_true, decide_eq_true_eq, not_and]
    omega
  unfold sameString
  rw [range_split hindex, List.filter_append, List.filter_append, hfront index (Nat.le_refl _),
    hfront (index + sourceLength) (by omega), List.nil_append, List.nil_append,
    List.filter_cons_of_pos (by simp), List.filter_cons_of_neg (by simpa using hsource.ne')]
  congr 1
  apply List.filter_congr
  intro other hother
  have hless := (List.mem_range'_1.mp hother).1
  -- a later position of the same string is a whole number of strings away
  apply Bool.eq_iff_iff.mpr
  simp only [Bool.and_eq_true, decide_eq_true_eq, and_congr_left_iff]
  intro hmod
  constructor
  · intro _
    have hsub : (other - index) % sourceLength = 0 := Nat.sub_mod_eq_zero_of_mod_eq hmod
    have hdvd := Nat.le_of_dvd (by omega) (Nat.dvd_of_mod_eq_zero hsub)
    omega
  · omega

/-- The next of them is a source length further. -/
theorem sameString_add {sourceLength outputLength index : Nat} (hsource : 0 < sourceLength)
    (hindex : index < outputLength) :
    sameString sourceLength outputLength index =
      index :: sameString sourceLength outputLength (index + sourceLength) := by
  rw [sameString_cons hsource hindex, sameString, Nat.add_mod_right]

theorem sameString_of_le {sourceLength outputLength index : Nat} (hindex : outputLength ≤ index) :
    sameString sourceLength outputLength index = [] := by
  apply List.filter_eq_nil_iff.mpr
  intro other hother
  have hless := List.mem_range.mp hother
  simp only [Bool.and_eq_true, decide_eq_true_eq, not_and]
  omega

/-- From a residue on they are all of that residue. -/
theorem sameString_first {sourceLength outputLength residue : Nat}
    (hresidue : residue < sourceLength) :
    sameString sourceLength outputLength residue =
      (List.range outputLength).filter fun index => index % sourceLength = residue := by
  apply List.filter_congr
  intro other _
  rw [Nat.mod_eq_of_lt hresidue]
  apply Bool.eq_iff_iff.mpr
  simp only [Bool.and_eq_true, decide_eq_true_eq, and_iff_right_iff_imp]
  rintro rfl
  exact Nat.mod_le _ _

/-- The results of the strings behind one. -/
theorem laterStrings_cons {sourceLength outputLength residue : Nat}
    (hresidue : residue + 1 < sourceLength) :
    laterStrings sourceLength outputLength residue =
      sameString sourceLength outputLength (residue + 1) ++
        laterStrings sourceLength outputLength (residue + 1) := by
  have hcount : sourceLength - (residue + 1) = sourceLength - (residue + 1 + 1) + 1 := by omega
  unfold laterStrings
  rw [hcount, List.range'_succ, List.flatMap_cons, sameString_first hresidue]

/-- The last position of the last string. -/
theorem last_iff {sourceLength outputLength index : Nat} (hsource : 0 < sourceLength)
    (hlength : sourceLength ≤ outputLength) (hindex : index < outputLength) :
    index + 1 + outputLength % sourceLength = outputLength ↔
      index % sourceLength + 1 = sourceLength ∧ outputLength ≤ index + sourceLength := by
  have hrest := Nat.mod_lt outputLength hsource
  have houtput := Nat.div_add_mod outputLength sourceLength
  constructor
  · intro hlast
    obtain ⟨count, hcount⟩ : ∃ count, outputLength / sourceLength = count + 1 :=
      ⟨outputLength / sourceLength - 1, by have := Nat.div_pos hlength hsource; omega⟩
    rw [hcount, Nat.mul_succ] at houtput
    have hindex' : index = sourceLength * count + (sourceLength - 1) := by omega
    rw [hindex', Nat.mul_add_mod, Nat.mod_eq_of_lt (by omega)]
    omega
  · rintro ⟨hmod, hover⟩
    have hinput := Nat.div_add_mod index sourceLength
    have hquotient : outputLength / sourceLength = index / sourceLength + 1 := by
      apply Nat.div_eq_of_lt_le
      · rw [Nat.mul_comm, Nat.mul_succ]
        omega
      · rw [Nat.mul_comm, Nat.mul_succ, Nat.mul_succ]
        omega
    rw [hquotient, Nat.mul_succ] at houtput
    omega

/-- From every position the walk goes over the rest of its string and then over the others. -/
theorem recycledOrder_eq {sourceLength outputLength : Nat} (hsource : 0 < sourceLength)
    (hlength : sourceLength ≤ outputLength) (fuel : Nat) {index : Nat}
    (hindex : index < outputLength)
    (hfuel : (sameString sourceLength outputLength index ++
      laterStrings sourceLength outputLength (index % sourceLength)).length < fuel) :
    recycledOrder sourceLength outputLength fuel index =
      some (sameString sourceLength outputLength index ++
        laterStrings sourceLength outputLength (index % sourceLength)) := by
  induction fuel generalizing index with
  | zero => exact absurd hfuel (Nat.not_lt_zero _)
  | succ fuel ih =>
      rw [sameString_add hsource hindex, List.cons_append, List.length_cons] at hfuel
      rw [recycledOrder, if_pos hindex, sameString_add hsource hindex, recycledOrderNext,
        if_neg hsource.ne', List.cons_append]
      have hmod := Nat.mod_lt index hsource
      by_cases hover : outputLength ≤ index + sourceLength
      · rw [sameString_of_le hover, List.nil_append] at hfuel ⊢
        by_cases hlast : index % sourceLength + 1 = sourceLength
        · have hend := (last_iff hsource hlength hindex).mpr ⟨hlast, hover⟩
          have hnone : laterStrings sourceLength outputLength (index % sourceLength) = [] := by
            rw [laterStrings, hlast, Nat.sub_self]
            rfl
          rw [if_pos hend, hnone]
          rw [hnone] at hfuel
          cases fuel with
          | zero => exact absurd hfuel (Nat.lt_irrefl _)
          | succ fuel =>
              rw [recycledOrder, if_neg (Nat.lt_irrefl _)]
              rfl
        · have hmore : index % sourceLength + 1 < sourceLength := by omega
          have hend : ¬ index + 1 + outputLength % sourceLength = outputLength :=
            fun heq => hlast ((last_iff hsource hlength hindex).mp heq).1
          have hresidue : (index % sourceLength + 1) % sourceLength = index % sourceLength + 1 :=
            Nat.mod_eq_of_lt hmore
          rw [if_neg hend, if_pos (by omega), laterStrings_cons hmore]
          rw [laterStrings_cons hmore] at hfuel
          have hnext := ih (show index % sourceLength + 1 < outputLength by omega)
            (by rw [hresidue]; omega)
          rw [hnext, hresidue]
          rfl
      · have hend : ¬ index + 1 + outputLength % sourceLength = outputLength :=
          fun heq => hover ((last_iff hsource hlength hindex).mp heq).2
        rw [if_neg hend, if_neg (by omega)]
        have hnext := ih (show index + sourceLength < outputLength by omega)
          (by rw [Nat.add_mod_right]; omega)
        rw [hnext, Nat.add_mod_right]
        rfl

/-- The walk goes over every position once. -/
theorem groupedOrder_perm {sourceLength outputLength : Nat} (hsource : 0 < sourceLength) :
    (groupedOrder sourceLength outputLength).Perm (List.range outputLength) := by
  rw [List.perm_ext_iff_of_nodup]
  · intro index
    simp only [groupedOrder, List.mem_flatMap, List.mem_filter, List.mem_range,
      decide_eq_true_eq]
    constructor
    · rintro ⟨residue, -, hindex, -⟩
      exact hindex
    · intro hindex
      exact ⟨index % sourceLength, Nat.mod_lt index hsource, hindex, rfl⟩
  · rw [groupedOrder, List.nodup_flatMap]
    constructor
    · intro residue _
      exact List.nodup_range.filter _
    · apply List.nodup_range.imp
      intro left right hne index hleft hright
      simp only [List.mem_filter, decide_eq_true_eq] at hleft hright
      exact hne (hleft.2.symm.trans hright.2)
  · exact List.nodup_range

/-- The order visits the results string by string. -/
theorem recycledOrder_all {sourceLength outputLength : Nat} (hsource : 0 < sourceLength)
    (hlength : sourceLength ≤ outputLength) :
    recycledOrder sourceLength outputLength (outputLength + 1)
      (recycledOrderBegin sourceLength outputLength) =
      some (groupedOrder sourceLength outputLength) := by
  have hall : sameString sourceLength outputLength 0 ++
      laterStrings sourceLength outputLength (0 % sourceLength) =
      groupedOrder sourceLength outputLength := by
    rw [sameString_first hsource, Nat.zero_mod, laterStrings, groupedOrder, range_split hsource,
      List.range_zero, List.nil_append, List.flatMap_cons]
  rw [recycledOrderBegin, if_neg hsource.ne', recycledOrder_eq hsource hlength, hall]
  · omega
  · rw [hall, (groupedOrder_perm hsource).length_eq, List.length_range]
    exact Nat.lt_succ_self _

/-! ## What the loops write -/

/-- Counting negative lengths does not touch the text. -/
theorem extractOne_eq (value : FrameInput) (currentFrom currentTo : Int) (useLength : Bool)
    (negativeLengths : Nat) :
    extractOne value currentFrom currentTo useLength negativeLengths =
      ((extractOne value currentFrom currentTo useLength 0).1,
        negativeLengths +
          (if negativeLength value currentFrom currentTo useLength then 1 else 0)) := by
  unfold extractOne negativeLength
  cases value with
  | none => rfl
  | some text =>
      simp only [Option.isSome_some, Bool.true_and]
      by_cases hna : (decide (currentFrom = naInteger) || decide (currentTo = naInteger)) = true
      · have hnot : ¬ (decide (currentFrom ≠ naInteger) && decide (currentTo ≠ naInteger) &&
            useLength && decide (currentTo < 0)) = true := by
          simp only [Bool.or_eq_true, decide_eq_true_eq] at hna
          simp only [Bool.and_eq_true, decide_eq_true_eq]
          tauto
        rw [if_pos hna, if_pos hna, if_neg hnot]
        rfl
      · rw [if_neg hna, if_neg hna]
        simp only [Bool.or_eq_true, decide_eq_true_eq, not_or] at hna
        simp only [hna.1, hna.2, not_false_eq_true, decide_true, Bool.true_and, ne_eq]
        by_cases hzero : (useLength && decide (currentTo = 0)) = true
        · have hnot : ¬ (useLength && decide (currentTo < 0)) = true := by
            simp only [Bool.and_eq_true, decide_eq_true_eq] at hzero ⊢
            omega
          rw [if_pos hzero, if_pos hzero, if_neg hnot]
          rfl
        · rw [if_neg hzero, if_neg hzero]
          by_cases hnegative : (useLength && decide (currentTo < 0)) = true
          · rw [if_pos hnegative, if_pos hnegative, if_pos hnegative]
          · rw [if_neg hnegative, if_neg hnegative, if_neg hnegative]
            generalize ((Utf8Indexer.reset text.bytes text.isAscii).range currentFrom
              (if useLength = true then lengthEndpoint currentFrom currentTo else currentTo)).1 =
              range
            split
            next => rfl
            next => rfl

section Outputs

variable (values : List FrameInput) (bounds : Bounds)

/-- The substring at a position. -/
def outputAt (index : Nat) : Option OutputText := (extractAt values bounds index 0).1

theorem extractAt_eq (index negativeLengths : Nat) :
    extractAt values bounds index negativeLengths =
      (outputAt values bounds index,
        negativeLengths + (if negativeAt values bounds index then 1 else 0)) :=
  extractOne_eq _ _ _ _ negativeLengths

/-- The serial loop extracts every result and counts the negative lengths. -/
theorem subLoop_eq (indices : List Nat) (negativeLengths : Nat) :
    subLoop values bounds indices negativeLengths =
      (indices.map (outputAt values bounds),
        negativeLengths + indices.countP (negativeAt values bounds)) := by
  induction indices generalizing negativeLengths with
  | nil => rfl
  | cons index indices ih =>
      rw [subLoop, extractAt_eq]
      simp only [ih, List.map_cons, List.countP_cons]
      rw [Nat.add_assoc, Nat.add_comm (if negativeAt values bounds index = true then 1 else 0)]

/-- Every task writes its own position, and a worker counts the negative lengths it meets. -/
theorem subSpec (tasks : Nat) :
    TaskSpec (subBody values bounds)
      (fun _ done state => state = done.countP (negativeAt values bounds)) (fun _ => .next)
      (fun index => [(index, outputAt values bounds index)]) tasks where
  setup _ _ := ⟨rfl, rfl, rfl, rfl⟩
  enterChunk _ _ _ _ hstate := ⟨rfl, rfl, hstate⟩
  task _ _ done task state _ _ _ hstate := by
    simp only [subBody, extractAt_eq]
    refine ⟨rfl, trivial, ?_⟩
    rw [List.countP_append, List.countP_singleton, hstate]
  leaveChunk _ _ _ _ hstate := ⟨rfl, rfl, hstate⟩

/-- The region writes what the loop writes and counts what it counts. -/
theorem subRegion_eq {plan : ParallelPlan} (hworkers : 1 ≤ plan.workers) {tasks : Nat}
    {schedule : List Nat} {regionEnd : RegionEnd Nat (Option OutputText) NativeError}
    (hrun : runParallel plan tasks (subBody values bounds) (fun _ => none) schedule =
      some regionEnd) :
    ((List.range tasks).map fun index => (regionEnd.final.shared.result index).getD none) =
        (List.range tasks).map (outputAt values bounds) ∧
      ((List.range plan.workers).map fun worker => (regionEnd.final.worker worker).state).sum =
        (List.range tasks).countP (negativeAt values bounds) := by
  have hend := loopEnd_of_runRegion (subSpec values bounds tasks) hrun
  constructor
  · apply List.map_congr_left
    intro index hindex
    have hresult := hend.result_eq_some (List.mem_range.mp hindex) (fun _ _ => rfl)
      (List.mem_singleton_self _) ?_
    · rw [hresult]
      rfl
    · rintro other - write hwrite rfl
      rw [List.mem_singleton.mp hwrite]
  · -- the workers beyond those of the region never counted anything
    have hsplit : List.range plan.workers = List.range (regionWorkers plan tasks) ++
        List.range' (regionWorkers plan tasks) (plan.workers - regionWorkers plan tasks) := by
      have hjoin := List.range'_append_1 (s := 0) (m := regionWorkers plan tasks)
        (n := plan.workers - regionWorkers plan tasks)
      rw [Nat.zero_add, Nat.add_sub_cancel' (regionWorkers_le hworkers)] at hjoin
      rw [List.range_eq_range', List.range_eq_range', hjoin]
    have hidle : ((List.range' (regionWorkers plan tasks)
        (plan.workers - regionWorkers plan tasks)).map fun worker =>
          (regionEnd.final.worker worker).state).sum = 0 := by
      apply List.sum_eq_zero
      intro count hcount
      obtain ⟨worker, hworker, rfl⟩ := List.mem_map.mp hcount
      exact state_of_runRegion_of_le hrun (List.mem_range'_1.mp hworker).1
    have hran : ((List.range (regionWorkers plan tasks)).map fun worker =>
        (regionEnd.final.worker worker).state) =
        (List.range (regionWorkers plan tasks)).map fun worker =>
          (ranIn (fun _ => .next) tasks (regionChunk plan) (owned tasks (regionChunk plan)
            regionEnd.final.claims worker)).countP (negativeAt values bounds) :=
      List.map_congr_left fun worker hworker => hend.state (List.mem_range.mp hworker)
    rw [hsplit, List.map_append, List.sum_append, hidle, Nat.add_zero, hran,
      ← (hend.ran_perm fun _ _ => rfl).countP_eq, List.countP_flatMap]
    rfl

/-- The positions in the order they come out when those of negative length are ignored. -/
def outputOrder : List Nat :=
  if (List.range bounds.vectorizeLength).any (negativeAt values bounds) then
    groupedOrder values.length bounds.vectorizeLength
  else List.range bounds.vectorizeLength

theorem any_eq_countP (indices : List Nat) :
    indices.any (negativeAt values bounds) =
      decide (indices.countP (negativeAt values bounds) > 0) := by
  apply Bool.eq_iff_iff.mpr
  simp only [List.any_eq_true, decide_eq_true_eq, gt_iff_lt, List.countP_pos_iff]

variable {values bounds} in
/-- What is left of the outputs of all positions. -/
theorem compacted_eq (hvalues : 0 < bounds.vectorizeLength →
      0 < values.length ∧ values.length ≤ bounds.vectorizeLength)
    (ignoreNegativeLength : Bool) :
    compacted values bounds ignoreNegativeLength
        ((List.range bounds.vectorizeLength).map (outputAt values bounds))
        ((List.range bounds.vectorizeLength).countP (negativeAt values bounds)) =
      some (if ignoreNegativeLength then
        ((outputOrder values bounds).filter fun index => !negativeAt values bounds index).map
          (outputAt values bounds)
        else (List.range bounds.vectorizeLength).map (outputAt values bounds)) := by
  unfold compacted outputOrder
  rw [any_eq_countP]
  cases ignoreNegativeLength with
  | false => simp
  | true =>
      by_cases hsome : (List.range bounds.vectorizeLength).countP (negativeAt values bounds) > 0
      · have hpositive : 0 < bounds.vectorizeLength := by
          by_contra hzero
          rw [Nat.eq_zero_of_not_pos hzero] at hsome
          exact absurd hsome (by simp)
        obtain ⟨hsource, hlength⟩ := hvalues hpositive
        have hperm : (groupedOrder values.length bounds.vectorizeLength).Perm _ :=
          groupedOrder_perm hsource
        -- the outputs of the positions kept
        have hkept : (groupedOrder values.length bounds.vectorizeLength).filterMap (fun index =>
            if negativeAt values bounds index = true then none else
              some (((List.range bounds.vectorizeLength).map (outputAt values bounds)).getD index
                none)) =
            ((groupedOrder values.length bounds.vectorizeLength).filter fun index =>
              !negativeAt values bounds index).map (outputAt values bounds) := by
          rw [← List.filterMap_eq_map, List.filterMap_filter]
          apply List.filterMap_congr
          intro index hmem
          have hindex := List.mem_range.mp (hperm.mem_iff.mp hmem)
          cases negativeAt values bounds index with
          | true => rfl
          | false => simp [hindex]
        -- there are as many of them as slots
        have hcount : (((groupedOrder values.length bounds.vectorizeLength).filter fun index =>
            !negativeAt values bounds index).map (outputAt values bounds)).length =
            bounds.vectorizeLength -
              (List.range bounds.vectorizeLength).countP (negativeAt values bounds) := by
          have htotal := List.length_eq_countP_add_countP (negativeAt values bounds)
            (l := List.range bounds.vectorizeLength)
          have hnot : (fun index => decide ¬ negativeAt values bounds index = true) =
              fun index => !negativeAt values bounds index := by
            funext index
            simp
          rw [List.length_range, hnot] at htotal
          rw [List.length_map, (hperm.filter _).length_eq, ← List.countP_eq_length_filter]
          omega
        simp only [hsome, decide_true, Bool.and_true, if_true, recycledOrder_all hsource hlength,
          Option.bind_eq_bind, Option.bind_some, hkept]
        rw [← hcount, Output.setRecords_all]
        rfl
      · have hkept : (List.range bounds.vectorizeLength).filter
            (fun index => !negativeAt values bounds index) =
            List.range bounds.vectorizeLength := by
          rw [List.filter_eq_self]
          intro index hmem
          have hnone := List.countP_eq_zero.mp (Nat.eq_zero_of_not_pos hsome) index hmem
          simpa using hnone
        simp only [hsome, decide_false, Bool.false_and, Bool.false_eq_true, if_false, if_true,
          hkept]

end Outputs

section Call

variable (values : List FrameInput) (start : List Int) (stop lengths : Option (List Int))

/-- A result that is there has a string. -/
theorem values_le_vectorizeLength
    (hpositive : 0 < (subBounds values start stop lengths).vectorizeLength) :
    0 < values.length ∧ values.length ≤ (subBounds values start stop lengths).vectorizeLength := by
  unfold subBounds recyclingLength at hpositive ⊢
  simp only [List.any_cons, Bool.or_eq_true, decide_eq_true_eq, List.foldl_cons] at hpositive ⊢
  split at hpositive
  next => exact absurd hpositive (Nat.lt_irrefl 0)
  next hall =>
    rw [if_neg hall]
    simp only [not_or] at hall
    refine ⟨Nat.pos_of_ne_zero hall.1, ?_⟩
    simp only [List.foldl_nil]
    omega

/-- What a call returns, on one worker or on several. -/
theorem ciSub_eq (settings : Settings) (ignoreNegativeLength : Bool) {schedule : List Nat}
    {outputs : List (Option OutputText)}
    (hrun : ciSub values settings start stop lengths ignoreNegativeLength schedule =
      some outputs) :
    let bounds := subBounds values start stop lengths
    outputs = if ignoreNegativeLength then
        ((outputOrder values bounds).filter fun index => !negativeAt values bounds index).map
          (outputAt values bounds)
        else (List.range bounds.vectorizeLength).map (outputAt values bounds) := by
  intro bounds
  have hcompacted := compacted_eq (values_le_vectorizeLength values start stop lengths)
    ignoreNegativeLength
  unfold ciSub at hrun
  simp only at hrun
  split at hrun
  next hworkers =>
    obtain ⟨regionEnd, hregion, hreturn⟩ := Option.bind_eq_some_iff.mp hrun
    obtain ⟨houtputs, hcount⟩ := subRegion_eq values bounds (Nat.le_of_lt hworkers) hregion
    rw [houtputs, hcount, hcompacted] at hreturn
    exact (Option.some.inj hreturn).symm
  next =>
    rw [subLoop_eq, Nat.zero_add, hcompacted] at hrun
    exact (Option.some.inj hrun).symm

/-- A fair schedule lets the call end. -/
theorem ciSub_isSome (settings : Settings) (ignoreNegativeLength : Bool) {schedule : List Nat}
    (hfair : ∀ index < (parallelPlan settings true
        (subBounds values start stop lengths).vectorizeLength).workers,
      scheduleBound (parallelPlan settings true
        (subBounds values start stop lengths).vectorizeLength)
        (subBounds values start stop lengths).vectorizeLength < schedule.count index) :
    (ciSub values settings start stop lengths ignoreNegativeLength schedule).isSome = true := by
  have hcompacted := compacted_eq (values_le_vectorizeLength values start stop lengths)
    ignoreNegativeLength
  unfold ciSub
  simp only
  split
  next hworkers =>
    rw [← regionWorkers_parallelPlan] at hfair
    obtain ⟨regionEnd, hregion⟩ := Option.isSome_iff_exists.mp (runRegion_isSome_of_fair _
      (subBounds values start stop lengths).vectorizeLength
      (subBody values (subBounds values start stop lengths)) (fun _ => none) false schedule hfair)
    obtain ⟨houtputs, hcount⟩ := subRegion_eq values (subBounds values start stop lengths)
      (Nat.le_of_lt hworkers) hregion
    rw [runParallel, hregion]
    simp only [Option.bind_eq_bind, Option.bind_some]
    rw [houtputs, hcount, hcompacted]
    rfl
  next =>
    rw [subLoop_eq, Nat.zero_add, hcompacted]
    rfl

/-- Strings that are no fewer than the positions have one position each at most. -/
theorem groupedOrder_of_le {sourceLength outputLength : Nat}
    (hlength : outputLength ≤ sourceLength) :
    groupedOrder sourceLength outputLength = List.range outputLength := by
  have hfirst : ∀ residue ∈ List.range outputLength, ((List.range outputLength).filter
      fun index => index % sourceLength = residue) = [residue] := by
    intro residue hresidue
    have hless := List.mem_range.mp hresidue
    have hsource : 0 < sourceLength := by omega
    rw [← sameString_first (hless.trans_le hlength), sameString_add hsource hless,
      sameString_of_le (hlength.trans (Nat.le_add_left _ _))]
  have hlater : ∀ residue ∈ List.range' outputLength (sourceLength - outputLength),
      ((List.range outputLength).filter fun index => index % sourceLength = residue) = [] := by
    intro residue hresidue
    have hover := (List.mem_range'_1.mp hresidue).1
    apply List.filter_eq_nil_iff.mpr
    intro index hindex
    have hless := List.mem_range.mp hindex
    rw [Nat.mod_eq_of_lt (hless.trans_le hlength)]
    simp only [decide_eq_true_eq]
    omega
  have hrange : List.range sourceLength =
      List.range outputLength ++ List.range' outputLength (sourceLength - outputLength) := by
    have hjoin := List.range'_append_1 (s := 0) (m := outputLength)
      (n := sourceLength - outputLength)
    rw [Nat.zero_add, Nat.add_sub_cancel' hlength] at hjoin
    rw [List.range_eq_range', List.range_eq_range', hjoin]
  rw [groupedOrder, hrange, List.flatMap_append, List.flatMap_congr hfirst,
    List.flatMap_congr hlater, List.flatMap_singleton']
  simp

/-- Strings that are all in one group, or each in a group of its own, are not reordered. -/
theorem groupedOrder_eq_range {sourceLength outputLength : Nat}
    (hlength : sourceLength = 1 ∨ sourceLength = outputLength) :
    groupedOrder sourceLength outputLength = List.range outputLength := by
  rcases hlength with rfl | rfl
  · simp [groupedOrder, Nat.mod_one]
  · exact groupedOrder_of_le le_rfl

/-- The order of the outputs leaves no position out. -/
theorem outputOrder_perm : (outputOrder values (subBounds values start stop lengths)).Perm
    (List.range (subBounds values start stop lengths).vectorizeLength) := by
  unfold outputOrder
  split
  next hany =>
    apply groupedOrder_perm
    obtain ⟨index, hmem, -⟩ := List.any_eq_true.mp hany
    exact (values_le_vectorizeLength values start stop lengths
      (Nat.zero_lt_of_lt (List.mem_range.mp hmem))).1
  next => exact List.Perm.refl _

/-- Where nothing is recycled the order is that of the indices. -/
theorem outputOrder_eq_range
    (hlength : values.length = 1 ∨
      values.length = (subBounds values start stop lengths).vectorizeLength) :
    outputOrder values (subBounds values start stop lengths) =
      List.range (subBounds values start stop lengths).vectorizeLength := by
  unfold outputOrder
  split
  next => exact groupedOrder_eq_range hlength
  next => rfl

/-- Every call returns. With `ignore_negative_length` it returns what it returns without, the
positions of negative length left out: string by string if there are any, and so in order when
there is one string, or one for each position. -/
theorem ciSub_ignoring_negative :
    let bounds := subBounds values start stop lengths
    (∀ settings ignoreNegativeLength schedule,
      (∀ index < (parallelPlan settings true bounds.vectorizeLength).workers,
        scheduleBound (parallelPlan settings true bounds.vectorizeLength) bounds.vectorizeLength <
          schedule.count index) →
      (ciSub values settings start stop lengths ignoreNegativeLength schedule).isSome = true) ∧
    ∀ settings settings' schedule schedule' all kept,
      ciSub values settings start stop lengths false schedule = some all →
      ciSub values settings' start stop lengths true schedule' = some kept →
      kept = ((outputOrder values bounds).filter fun index =>
          !negativeAt values bounds index).map (fun index => all.getD index none) ∧
        (values.length = 1 ∨ values.length = bounds.vectorizeLength →
          kept = ((List.range bounds.vectorizeLength).filter fun index =>
            !negativeAt values bounds index).map fun index => all.getD index none) := by
  intro bounds
  refine ⟨fun settings ignoreNegativeLength schedule hfair =>
    ciSub_isSome values start stop lengths settings ignoreNegativeLength hfair, ?_⟩
  intro settings settings' schedule schedule' all kept hall hkept
  obtain rfl := ciSub_eq values start stop lengths settings false hall
  obtain rfl := ciSub_eq values start stop lengths settings' true hkept
  have horder : (outputOrder values bounds).Perm (List.range bounds.vectorizeLength) :=
    outputOrder_perm values start stop lengths
  have hfirst : ((outputOrder values bounds).filter fun index =>
      !negativeAt values bounds index).map (outputAt values bounds) =
      ((outputOrder values bounds).filter fun index => !negativeAt values bounds index).map
        fun index => ((List.range bounds.vectorizeLength).map
          (outputAt values bounds)).getD index none := by
    apply List.map_congr_left
    intro index hmem
    have hindex := List.mem_range.mp (horder.mem_iff.mp (List.mem_of_mem_filter hmem))
    simp [hindex]
  refine ⟨hfirst, ?_⟩
  intro hlength
  have hrange : outputOrder values bounds = List.range bounds.vectorizeLength :=
    outputOrder_eq_range values start stop lengths hlength
  rw [hrange] at hfirst
  refine Eq.trans ?_ hfirst
  change ((outputOrder values bounds).filter _).map _ = _
  rw [hrange]

/-- Two strings and four lengths, the last of them negative. -/
theorem ciSub_ignoring_last :
    let values : List FrameInput := [some ⟨[0x61, 0x62], true, by decide, by simp⟩,
      some ⟨[0x63, 0x64], true, by decide, by simp⟩]
    let bounds := subBounds values [1] none (some [1, 2, 2, -1])
    ∃ all kept, ciSub values ⟨1, 128, 256⟩ [1] none (some [1, 2, 2, -1]) false [] = some all ∧
      ciSub values ⟨1, 128, 256⟩ [1] none (some [1, 2, 2, -1]) true [] = some kept ∧
      kept = ((outputOrder values bounds).filter fun index =>
        !negativeAt values bounds index).map fun index => all.getD index none := by
  intro values bounds
  have hall : ciSub values ⟨1, 128, 256⟩ [1] none (some [1, 2, 2, -1]) false [] = some
      [some ⟨[0x61], true⟩, some ⟨[0x63, 0x64], true⟩, some ⟨[0x61, 0x62], true⟩, none] := by
    decide
  have hkept : ciSub values ⟨1, 128, 256⟩ [1] none (some [1, 2, 2, -1]) true [] = some
      [some ⟨[0x61], true⟩, some ⟨[0x61, 0x62], true⟩, some ⟨[0x63, 0x64], true⟩] := by
    decide
  exact ⟨_, _, hall, hkept, ((ciSub_ignoring_negative values [1] none (some [1, 2, 2, -1])).2
    ⟨1, 128, 256⟩ ⟨1, 128, 256⟩ [] [] _ _ hall hkept).1⟩

/-- They do not come out in the order they came in. -/
theorem ciSub_reorders :
    let values : List FrameInput := [some ⟨[0x61, 0x62], true, by decide, by simp⟩,
      some ⟨[0x63, 0x64], true, by decide, by simp⟩]
    ciSub values ⟨1, 128, 256⟩ [1] none (some [1, 2, 2, -1]) false [] =
        some [some ⟨[0x61], true⟩, some ⟨[0x63, 0x64], true⟩, some ⟨[0x61, 0x62], true⟩, none] ∧
      ciSub values ⟨1, 128, 256⟩ [1] none (some [1, 2, 2, -1]) true [] =
        some [some ⟨[0x61], true⟩, some ⟨[0x61, 0x62], true⟩, some ⟨[0x63, 0x64], true⟩] := by
  decide

end Call

end Charr.Substring
