import Mathlib.Data.List.Basic

/-!
# Places in a list

A place in a list keeps what is behind it, nearest first, and what is ahead. It moves by one
item either way, or to one of the ends. What a walk from one end to the other passes is what
the walk back passes, in the opposite order.
-/

/-- A list with a place in it; what is behind the place is stored backwards. -/
structure Zipper (Item : Type) where
  behind : List Item
  current : Item
  ahead : List Item

namespace Zipper

variable {Item : Type}

/-- One item on. -/
def next : Zipper Item → Option (Zipper Item)
  | ⟨_, _, []⟩ => none
  | ⟨behind, current, item :: ahead⟩ => some ⟨current :: behind, item, ahead⟩

/-- One item back. -/
def previous : Zipper Item → Option (Zipper Item)
  | ⟨[], _, _⟩ => none
  | ⟨item :: behind, current, ahead⟩ => some ⟨behind, item, current :: ahead⟩

/-- To the end of the items `ahead`. -/
def lastFrom (behind : List Item) (current : Item) : List Item → Zipper Item
  | [] => ⟨behind, current, []⟩
  | item :: ahead => lastFrom (current :: behind) item ahead

/-- To the start of the items `behind`. -/
def firstFrom (current : Item) (ahead : List Item) : List Item → Zipper Item
  | [] => ⟨[], current, ahead⟩
  | item :: behind => firstFrom item (current :: ahead) behind

/-- To the last item. -/
def last (place : Zipper Item) : Zipper Item := lastFrom place.behind place.current place.ahead

/-- To the first item. -/
def first (place : Zipper Item) : Zipper Item := firstFrom place.current place.ahead place.behind

theorem firstFrom_behind (current : Item) (ahead behind : List Item) :
    (firstFrom current ahead behind).behind = [] := by
  induction behind generalizing current ahead with
  | nil => rfl
  | cons item behind ih => exact ih item (current :: ahead)

/-- At the start already. -/
theorem first_first (place : Zipper Item) : place.first.first = place.first := by
  have hbehind := firstFrom_behind place.current place.ahead place.behind
  rw [first, first, hbehind]
  cases hplace : firstFrom place.current place.ahead place.behind with
  | mk behind current ahead =>
      rw [hplace] at hbehind
      obtain rfl : behind = [] := hbehind
      rfl

/-! ## Walks -/

/-- Every item on the way with the one in front of it, from `item` on. -/
def stepsFrom (item : Item) : List Item → List (Item × Item)
  | [] => []
  | next :: rest => (item, next) :: stepsFrom next rest

/-- The steps of a walk to the end. -/
def stepsAhead (place : Zipper Item) : List (Item × Item) :=
  stepsFrom place.current place.ahead

/-- The steps of a walk to the start. -/
def stepsBehind (place : Zipper Item) : List (Item × Item) :=
  stepsFrom place.current place.behind

/-- Steps taken back, the last of them first. -/
def turned (steps : List (Item × Item)) : List (Item × Item) :=
  (steps.map Prod.swap).reverse

@[simp] theorem turned_turned (steps : List (Item × Item)) : turned (turned steps) = steps := by
  simp [turned]

/-- Turning around a walk in two parts. -/
@[simp] theorem turned_append (first second : List (Item × Item)) :
    turned (first ++ second) = turned second ++ turned first := by
  simp [turned]

theorem map_swap_turned (steps : List (Item × Item)) :
    (turned steps).map Prod.swap = steps.reverse := by
  simp [turned]

theorem turned_cons (step : Item × Item) (steps : List (Item × Item)) :
    turned (step :: steps) = turned steps ++ [step.swap] := by
  simp [turned]

/-- Back from the end lie the turned steps. -/
theorem stepsBehind_lastFrom (behind : List Item) (current : Item) (ahead : List Item) :
    (lastFrom behind current ahead).stepsBehind =
      turned (stepsFrom current ahead) ++ stepsFrom current behind := by
  induction ahead generalizing behind current with
  | nil => rfl
  | cons item ahead ih =>
      rw [lastFrom, ih, stepsFrom, stepsFrom, turned_cons, List.append_assoc]
      rfl

/-- Ahead of the start lie the turned steps. -/
theorem stepsAhead_firstFrom (current : Item) (ahead behind : List Item) :
    (firstFrom current ahead behind).stepsAhead =
      turned (stepsFrom current behind) ++ stepsFrom current ahead := by
  induction behind generalizing ahead current with
  | nil => rfl
  | cons item behind ih =>
      rw [firstFrom, ih, stepsFrom, stepsFrom, turned_cons, List.append_assoc]
      rfl

/-- The walk back from the end takes the steps of the walk from the start. -/
theorem stepsBehind_last (place : Zipper Item) :
    place.last.stepsBehind = turned place.first.stepsAhead := by
  rw [last, first, stepsBehind_lastFrom, stepsAhead_firstFrom, turned_append, turned_turned]

end Zipper
