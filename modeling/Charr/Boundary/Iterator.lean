import Charr.Library.Zipper

/-!
# Text boundaries

`BoundaryIterator` goes over the ranges between the boundaries that ICU finds in a text, and
leaves out those whose rule status its skip rules name. Where the boundaries lie and which
status each has belongs to ICU: here they are any sequence and any function of the boundary.
-/

namespace Charr.Boundary

/-! ## ICU's iterator -/

/-- An open break iterator with a text: its place among the boundaries, and their statuses. -/
structure UBreakIterator where
  place : Zipper Nat
  ruleStatus : Nat → Int

namespace UBreakIterator

/-- To the start of the text. -/
def first (iterator : UBreakIterator) : Nat × UBreakIterator :=
  (iterator.place.first.current, { iterator with place := iterator.place.first })

/-- To the end of the text. -/
def last (iterator : UBreakIterator) : Nat × UBreakIterator :=
  (iterator.place.last.current, { iterator with place := iterator.place.last })

/-- The next boundary; `none` is `UBRK_DONE`, which does not move the iterator. -/
def next (iterator : UBreakIterator) : Option Nat × UBreakIterator :=
  match iterator.place.next with
  | none => (none, iterator)
  | some place => (some place.current, { iterator with place := place })

/-- To the boundary before, if there is one. -/
def previous (iterator : UBreakIterator) : Option Nat × UBreakIterator :=
  match iterator.place.previous with
  | none => (none, iterator)
  | some place => (some place.current, { iterator with place := place })

/-- Going on leaves fewer boundaries ahead. -/
theorem length_ahead_of_next {iterator moved : UBreakIterator} {stop : Nat}
    (hnext : iterator.next = (some stop, moved)) :
    moved.place.ahead.length < iterator.place.ahead.length := by
  obtain ⟨⟨behind, current, ahead⟩, ruleStatus⟩ := iterator
  cases ahead with
  | nil => cases hnext
  | cons item ahead =>
      cases hnext
      exact Nat.lt_succ_self _

/-- Going back leaves fewer boundaries behind. -/
theorem length_behind_of_previous {iterator moved : UBreakIterator} {start : Nat}
    (hprevious : iterator.previous = (some start, moved)) :
    moved.place.behind.length < iterator.place.behind.length := by
  obtain ⟨⟨behind, current, ahead⟩, ruleStatus⟩ := iterator
  cases behind with
  | nil => cases hprevious
  | cons item behind =>
      cases hprevious
      exact Nat.lt_succ_self _

/-- The status of the boundary the iterator stands at. -/
def getRuleStatus (iterator : UBreakIterator) : Int :=
  iterator.ruleStatus iterator.place.current

end UBreakIterator

/-! ## The iterator over ranges -/

/-- The bytes between two boundaries. -/
structure BoundaryRange where
  start : Nat
  stop : Nat
  deriving DecidableEq, Repr

/-- `none` for the handle is the null pointer, and for the position `UBRK_DONE`. -/
structure BoundaryIterator where
  iterator : Option UBreakIterator
  skipRules : List Int
  position : Option Nat

/-- The rules are pairs of bounds, the upper one excluded. -/
def skipsRule (rule : Int) : List Int → Bool
  | low :: high :: rest => (rule ≥ low && rule < high) || skipsRule rule rest
  | _ => false

namespace BoundaryIterator

/-- Whether the status of the boundary is among those to skip. -/
def skip (skipRules : List Int) (iterator : UBreakIterator) : Bool :=
  skipsRule iterator.getRuleStatus skipRules

/-- Start at the first boundary; a missing text has none. -/
def first (boundaries : BoundaryIterator) : BoundaryIterator :=
  match boundaries.iterator with
  | none => { boundaries with position := none }
  | some iterator =>
      let (position, iterator) := iterator.first
      { boundaries with iterator := some iterator, position := some position }

/-- Start at the last boundary. -/
def last (boundaries : BoundaryIterator) : BoundaryIterator :=
  match boundaries.iterator with
  | none => { boundaries with position := none }
  | some iterator =>
      let (_, iterator) := iterator.first
      let (position, iterator) := iterator.last
      { boundaries with iterator := some iterator, position := some position }

/-- What a call of `next` or `previous` leaves: its range, and where it ends. -/
abbrev Found := Option BoundaryRange × Option Nat × UBreakIterator

/-- The loop of `next`: a skipped range moves the start to its end. -/
def nextLoop (skipRules : List Int) (start : Nat) (iterator : UBreakIterator) : Found :=
  match _hnext : iterator.next with
  | (none, iterator) => (none, none, iterator)
  | (some stop, moved) =>
      if skip skipRules moved then nextLoop skipRules stop moved
      else (some ⟨start, stop⟩, some stop, moved)
termination_by iterator.place.ahead.length
decreasing_by exact UBreakIterator.length_ahead_of_next _hnext

/-- The loop of `previous`: it goes back to the end of a range that is not skipped. -/
def previousLoop (skipRules : List Int) (position : Nat) (iterator : UBreakIterator) : Found :=
  if skip skipRules iterator then
    match _hprevious : iterator.previous with
    | (none, iterator) => (none, none, iterator)
    | (some position, moved) => previousLoop skipRules position moved
  else
    match iterator.previous with
    | (none, iterator) => (none, none, iterator)
    | (some start, moved) => (some ⟨start, position⟩, some start, moved)
termination_by iterator.place.behind.length
decreasing_by exact UBreakIterator.length_behind_of_previous _hprevious

/-- A call that finds nothing without a handle or behind the end, else one of the loops. -/
def call (loop : List Int → Nat → UBreakIterator → Found) (boundaries : BoundaryIterator) :
    Option BoundaryRange × BoundaryIterator :=
  match boundaries.iterator, boundaries.position with
  | some iterator, some position =>
      let (range, position, iterator) := loop boundaries.skipRules position iterator
      (range, { boundaries with iterator := some iterator, position := position })
  | _, _ => (none, boundaries)

/-- The next range that is not skipped. -/
def next (boundaries : BoundaryIterator) : Option BoundaryRange × BoundaryIterator :=
  boundaries.call nextLoop

/-- The range before that is not skipped. -/
def previous (boundaries : BoundaryIterator) : Option BoundaryRange × BoundaryIterator :=
  boundaries.call previousLoop

/-- The ranges of the calls until one finds nothing, while there is fuel. -/
def ranges (step : BoundaryIterator → Option BoundaryRange × BoundaryIterator) :
    Nat → BoundaryIterator → Option (List BoundaryRange)
  | 0, _ => none
  | fuel + 1, boundaries =>
      match step boundaries with
      | (none, _) => some []
      | (some range, boundaries) => do
          let rest ← ranges step fuel boundaries
          return range :: rest

end BoundaryIterator

/-! ## What the walks yield -/

section Walks

variable (ruleStatus : Nat → Int) (skipRules : List Int)

/-- The ranges that end at a boundary whose status is not skipped. -/
def keptRanges (steps : List (Nat × Nat)) : List BoundaryRange :=
  (steps.filter fun step => !skipsRule (ruleStatus step.2) skipRules).map fun step =>
    ⟨step.1, step.2⟩

theorem keptRanges_cons (start stop : Nat) (steps : List (Nat × Nat)) :
    keptRanges ruleStatus skipRules ((start, stop) :: steps) =
      if skipsRule (ruleStatus stop) skipRules then keptRanges ruleStatus skipRules steps
      else ⟨start, stop⟩ :: keptRanges ruleStatus skipRules steps := by
  unfold keptRanges
  by_cases hskip : skipsRule (ruleStatus stop) skipRules
  · rw [List.filter_cons_of_neg (by simp [hskip]), if_pos hskip]
  · rw [List.filter_cons_of_pos (by simp [hskip]), if_neg hskip]
    rfl

/-- Which ranges are kept does not depend on the direction. -/
theorem keptRanges_reverse (steps : List (Nat × Nat)) :
    keptRanges ruleStatus skipRules steps.reverse =
      (keptRanges ruleStatus skipRules steps).reverse := by
  rw [keptRanges, List.filter_reverse, List.map_reverse]
  rfl

end Walks

namespace BoundaryIterator

variable {ruleStatus : Nat → Int} {skipRules : List Int}

theorem nextLoop_nil (start : Nat) (behind : List Nat) (current : Nat) :
    nextLoop skipRules start ⟨⟨behind, current, []⟩, ruleStatus⟩ =
      (none, none, ⟨⟨behind, current, []⟩, ruleStatus⟩) := by
  rw [nextLoop]
  rfl

theorem nextLoop_cons (start : Nat) (behind : List Nat) (current stop : Nat) (ahead : List Nat) :
    nextLoop skipRules start ⟨⟨behind, current, stop :: ahead⟩, ruleStatus⟩ =
      if skipsRule (ruleStatus stop) skipRules then
        nextLoop skipRules stop ⟨⟨current :: behind, stop, ahead⟩, ruleStatus⟩
      else (some ⟨start, stop⟩, some stop, ⟨⟨current :: behind, stop, ahead⟩, ruleStatus⟩) := by
  rw [nextLoop]
  rfl

theorem previousLoop_nil (position current : Nat) (ahead : List Nat) :
    previousLoop skipRules position ⟨⟨[], current, ahead⟩, ruleStatus⟩ =
      (none, none, ⟨⟨[], current, ahead⟩, ruleStatus⟩) := by
  rw [previousLoop]
  exact ite_self _

theorem previousLoop_cons (position : Nat) (start : Nat) (behind : List Nat) (current : Nat)
    (ahead : List Nat) :
    previousLoop skipRules position ⟨⟨start :: behind, current, ahead⟩, ruleStatus⟩ =
      if skipsRule (ruleStatus current) skipRules then
        previousLoop skipRules start ⟨⟨behind, start, current :: ahead⟩, ruleStatus⟩
      else (some ⟨start, position⟩, some start,
        ⟨⟨behind, start, current :: ahead⟩, ruleStatus⟩) := by
  rw [previousLoop]
  rfl

/-- The iterator at a place among its boundaries. -/
def standing (ruleStatus : Nat → Int) (skipRules : List Int) (place : Zipper Nat) :
    BoundaryIterator :=
  ⟨some ⟨place, ruleStatus⟩, skipRules, some place.current⟩

/-- One call yields the first of the ranges that are left, or finds that there is none. -/
def Yields (ruleStatus : Nat → Int) (left : Zipper Nat → List BoundaryRange)
    (length : Zipper Nat → Nat) (place : Zipper Nat) (found : Found) : Prop :=
  left place = [] ∧ found.1 = none ∨
    ∃ range moved, left place = range :: left moved ∧ length moved < length place ∧
      found = (some range, some moved.current, ⟨moved, ruleStatus⟩)

/-- The ranges ahead of a place that are not skipped. -/
def rangesAhead (ruleStatus : Nat → Int) (skipRules : List Int) (place : Zipper Nat) :
    List BoundaryRange :=
  keptRanges ruleStatus skipRules place.stepsAhead

/-- The ranges behind a place that are not skipped, the nearest first. -/
def rangesBehind (ruleStatus : Nat → Int) (skipRules : List Int) (place : Zipper Nat) :
    List BoundaryRange :=
  keptRanges ruleStatus skipRules (place.stepsBehind.map Prod.swap)

/-- The forward loop yields the first range ahead that is kept. -/
theorem nextLoop_yields (behind : List Nat) (current : Nat) (ahead : List Nat) :
    Yields ruleStatus (rangesAhead ruleStatus skipRules) (fun place => place.ahead.length)
      ⟨behind, current, ahead⟩ (nextLoop skipRules current ⟨⟨behind, current, ahead⟩, ruleStatus⟩)
      := by
  induction ahead generalizing behind current with
  | nil => exact .inl ⟨rfl, by rw [nextLoop_nil]⟩
  | cons stop ahead ih =>
      have hleft := keptRanges_cons ruleStatus skipRules current stop (Zipper.stepsFrom stop ahead)
      rw [nextLoop_cons]
      by_cases hskip : skipsRule (ruleStatus stop) skipRules
      · rw [if_pos hskip] at hleft ⊢
        obtain ⟨hnone, hfound⟩ | ⟨range, moved, hrange, hless, hfound⟩ :=
          ih (current :: behind) stop
        · exact .inl ⟨hleft.trans hnone, hfound⟩
        · exact .inr ⟨range, moved, hleft.trans hrange,
            Nat.lt_trans hless (Nat.lt_succ_self _), hfound⟩
      · rw [if_neg hskip] at hleft ⊢
        exact .inr ⟨⟨current, stop⟩, ⟨current :: behind, stop, ahead⟩, hleft,
          Nat.lt_succ_self _, rfl⟩

/-- The backward loop yields the first range behind that is kept. -/
theorem previousLoop_yields (behind : List Nat) (current : Nat) (ahead : List Nat) :
    Yields ruleStatus (rangesBehind ruleStatus skipRules)
      (fun place => place.behind.length) ⟨behind, current, ahead⟩
      (previousLoop skipRules current ⟨⟨behind, current, ahead⟩, ruleStatus⟩) := by
  induction behind generalizing current ahead with
  | nil => exact .inl ⟨rfl, by rw [previousLoop_nil]⟩
  | cons start behind ih =>
      have hleft := keptRanges_cons ruleStatus skipRules start current
        ((Zipper.stepsFrom start behind).map Prod.swap)
      rw [previousLoop_cons]
      by_cases hskip : skipsRule (ruleStatus current) skipRules
      · rw [if_pos hskip] at hleft ⊢
        obtain ⟨hnone, hfound⟩ | ⟨range, moved, hrange, hless, hfound⟩ :=
          ih start (current :: ahead)
        · exact .inl ⟨hleft.trans hnone, hfound⟩
        · exact .inr ⟨range, moved, hleft.trans hrange,
            Nat.lt_trans hless (Nat.lt_succ_self _), hfound⟩
      · rw [if_neg hskip] at hleft ⊢
        exact .inr ⟨⟨start, current⟩, ⟨behind, start, current :: ahead⟩, hleft,
          Nat.lt_succ_self _, rfl⟩

/-- A walk of calls that yield yields all that is left. -/
theorem ranges_of_yields {loop : List Int → Nat → UBreakIterator → Found}
    {left : Zipper Nat → List BoundaryRange} {length : Zipper Nat → Nat}
    (hloop : ∀ place, Yields ruleStatus left length place
      (loop skipRules place.current ⟨place, ruleStatus⟩)) (fuel : Nat) (place : Zipper Nat)
    (hfuel : length place < fuel) :
    ranges (call loop) fuel (standing ruleStatus skipRules place) = some (left place) := by
  induction fuel generalizing place with
  | zero => exact absurd hfuel (Nat.not_lt_zero _)
  | succ fuel ih =>
      rw [ranges]
      obtain ⟨hnone, hfound⟩ | ⟨range, moved, hrange, hless, hfound⟩ := hloop place
      · have hcall : (call loop (standing ruleStatus skipRules place)).1 = none := hfound
        rw [hnone]
        cases hnext : call loop (standing ruleStatus skipRules place) with
        | mk range boundaries =>
            rw [hnext] at hcall
            obtain rfl : range = none := hcall
            rfl
      · have hcall : call loop (standing ruleStatus skipRules place) =
            (some range, standing ruleStatus skipRules moved) := by
          simp only [call, standing, hfound]
        rw [hcall, hrange]
        simp only [ih moved (by omega), Option.bind_eq_bind, Option.bind_some]
        rfl

/-- From the first boundary on, the ranges between neighbours that are not skipped. -/
theorem ranges_first (place : Zipper Nat) (position : Option Nat) :
    ∃ fuel, ranges next fuel (first ⟨some ⟨place, ruleStatus⟩, skipRules, position⟩) =
      some (rangesAhead ruleStatus skipRules place.first) :=
  ⟨_, ranges_of_yields (fun place => nextLoop_yields place.behind place.current place.ahead) _
    place.first (Nat.lt_succ_self _)⟩

/-- From the last boundary, `previous` yields all ranges and then stops. -/
theorem ranges_last (place : Zipper Nat) (position : Option Nat) :
    ∃ fuel, ranges previous fuel (last ⟨some ⟨place, ruleStatus⟩, skipRules, position⟩) =
      some (rangesBehind ruleStatus skipRules place.first.last) :=
  ⟨_, ranges_of_yields (fun place => previousLoop_yields place.behind place.current place.ahead) _
    place.first.last (Nat.lt_succ_self _)⟩

/-- Fuel beyond what the ranges need changes nothing. -/
theorem ranges_mono {step : BoundaryIterator → Option BoundaryRange × BoundaryIterator}
    {fuel more : Nat} (hmore : fuel ≤ more) {boundaries : BoundaryIterator}
    {found : List BoundaryRange} (hfound : ranges step fuel boundaries = some found) :
    ranges step more boundaries = some found := by
  induction fuel generalizing more boundaries found with
  | zero => cases hfound
  | succ fuel ih =>
      obtain ⟨more, rfl⟩ : ∃ less, more = less + 1 := ⟨more - 1, by omega⟩
      rw [ranges] at hfound ⊢
      cases hstep : step boundaries with
      | mk range boundaries =>
          cases range with
          | none => simpa only [hstep] using hfound
          | some range =>
              simp only [hstep, Option.bind_eq_bind, Option.bind_eq_some_iff] at hfound ⊢
              obtain ⟨rest, hrest, hfound⟩ := hfound
              exact ⟨rest, ih (by omega) hrest, hfound⟩

/-- The walk back from the last boundary yields what the walk from the first one yields, in the
opposite order. -/
theorem ranges_last_eq_reverse (boundaries : BoundaryIterator) :
    ∃ fuel found, ranges next fuel boundaries.first = some found ∧
      ranges previous fuel boundaries.last = some found.reverse := by
  obtain ⟨iterator, skipRules, position⟩ := boundaries
  cases iterator with
  | none => exact ⟨1, [], rfl, rfl⟩
  | some iterator =>
      obtain ⟨place, ruleStatus⟩ := iterator
      obtain ⟨forth, hforth⟩ := @ranges_first ruleStatus skipRules place position
      obtain ⟨back, hback⟩ := @ranges_last ruleStatus skipRules place position
      have hturned : rangesBehind ruleStatus skipRules place.first.last =
          (rangesAhead ruleStatus skipRules place.first).reverse := by
        rw [rangesBehind, rangesAhead, Zipper.stepsBehind_last, Zipper.first_first,
          Zipper.map_swap_turned, keptRanges_reverse]
      refine ⟨max forth back, _, ranges_mono (Nat.le_max_left _ _) hforth, ?_⟩
      rw [← hturned]
      exact ranges_mono (Nat.le_max_right _ _) hback

end BoundaryIterator

end Charr.Boundary
