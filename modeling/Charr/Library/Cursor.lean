import Mathlib.Data.Nat.Count
import Mathlib.Order.Monotone.Basic
import Mathlib.Logic.Function.Iterate

/-!
# Cursors that remember where they are

A cursor walks from place to place and counts its steps. Asked for a target it goes on
from where it is, or from the start if the target lies behind it. What it answers does
not depend on what it was asked before: it is the number of places before the target.
-/

namespace Walking

/-- A place and the number of steps that lead there. -/
structure Cursor where
  place : Nat
  steps : Nat
  deriving DecidableEq, Repr

/-- A cursor at the start. -/
def Cursor.fresh : Cursor := ⟨0, 0⟩

section Walks

variable (forward : Nat → Nat)

/-- Steps until the target is reached or passed. -/
def walk (target : Nat) : (fuel : Nat) → Cursor → Cursor
  | 0, cursor => cursor
  | fuel + 1, cursor =>
      if cursor.place < target then walk target fuel ⟨forward cursor.place, cursor.steps + 1⟩
      else cursor

/-- Every step moves forward, so there are at most `target` of them. -/
def seek (target : Nat) (cursor : Cursor) : Cursor :=
  walk forward target target (if target < cursor.place then .fresh else cursor)

/-- The places the walk comes to. -/
def places (steps : Nat) : Nat := forward^[steps] 0

/-- The cursor is where its steps lead. -/
def Cursor.Reached (cursor : Cursor) : Prop := cursor.place = places forward cursor.steps

end Walks

section Laws

variable {forward : Nat → Nat} {target fuel : Nat} {cursor : Cursor}

theorem places_succ (steps : Nat) :
    places forward (steps + 1) = forward (places forward steps) :=
  Function.iterate_succ_apply' _ _ _

/-- Every step goes on. -/
theorem places_strictMono (hforward : ∀ place, place < forward place) :
    StrictMono (places forward) := by
  apply strictMono_nat_of_lt_succ
  intro steps
  rw [places_succ]
  exact hforward _

theorem Cursor.reached_fresh : Cursor.fresh.Reached forward := rfl

/-- A walk keeps the cursor where its steps lead, and stops at the first place that is
not before the target. -/
theorem walk_reached (hforward : ∀ place, place < forward place)
    (hreached : cursor.Reached forward) (hbefore : ∀ k < cursor.steps, places forward k < target)
    (hfuel : target ≤ cursor.place + fuel) :
    (walk forward target fuel cursor).Reached forward ∧
      (∀ k < (walk forward target fuel cursor).steps, places forward k < target) ∧
      target ≤ (walk forward target fuel cursor).place := by
  induction fuel generalizing cursor with
  | zero => exact ⟨hreached, hbefore, hfuel⟩
  | succ fuel ih =>
      rw [walk]
      split
      next hplace =>
        have hmoved := hforward cursor.place
        apply ih
        · change forward cursor.place = places forward (cursor.steps + 1)
          rw [places_succ, ← hreached]
        · intro k hk
          rcases Nat.lt_succ_iff_lt_or_eq.mp hk with hless | rfl
          · exact hbefore k hless
          · rwa [← hreached]
        · change target ≤ forward cursor.place + fuel
          omega
      next hplace => exact ⟨hreached, hbefore, Nat.not_lt.mp hplace⟩

/-- Seeking stops at the first place that is not before the target. -/
theorem seek_reached (hforward : ∀ place, place < forward place)
    (hreached : cursor.Reached forward) (target : Nat) :
    (seek forward target cursor).Reached forward ∧
      (∀ k < (seek forward target cursor).steps, places forward k < target) ∧
      target ≤ (seek forward target cursor).place := by
  rw [seek]
  split
  next =>
    apply walk_reached hforward Cursor.reached_fresh
    · exact fun k hk => absurd hk (Nat.not_lt_zero k)
    · exact Nat.le_add_left target _
  next hbehind =>
    apply walk_reached hforward hreached
    · intro k hk
      have hearlier := places_strictMono hforward hk
      rw [← hreached] at hearlier
      exact hearlier.trans_le (Nat.not_lt.mp hbehind)
    · exact Nat.le_add_left target _

/-- Counting a property that holds up to a place counts up to there. -/
theorem count_of_iff {Holds : Nat → Prop} [DecidablePred Holds] {steps bound : Nat}
    (hle : steps ≤ bound) (hiff : ∀ k < bound, Holds k ↔ k < steps) :
    Nat.count Holds bound = steps := by
  have hfilter : (Finset.range bound).filter Holds = Finset.range steps := by
    ext k
    simp only [Finset.mem_filter, Finset.mem_range]
    constructor
    · rintro ⟨hk, hholds⟩
      exact (hiff k hk).mp hholds
    · intro hk
      have hbound := hk.trans_le hle
      exact ⟨hbound, (hiff k hbound).mpr hk⟩
  rw [Nat.count_eq_card_filter_range, hfilter, Finset.card_range]

/-- The answer is the number of places before the target, whatever the cursor was asked
before. -/
theorem seek_steps (hforward : ∀ place, place < forward place)
    (hreached : cursor.Reached forward) {bound : Nat} (hbound : target ≤ places forward bound)
    {Before : Nat → Prop} [DecidablePred Before]
    (hbefore : ∀ k < bound, Before k ↔ places forward k < target) :
    (seek forward target cursor).steps = Nat.count Before bound := by
  obtain ⟨hplace, hpassed, htarget⟩ := seek_reached hforward hreached target
  symm
  apply count_of_iff
  · apply Nat.not_lt.mp
    intro hlt
    exact absurd (hpassed bound hlt) (Nat.not_lt.mpr hbound)
  · intro k hk
    rw [hbefore k hk]
    refine ⟨fun hless => ?_, hpassed k⟩
    rw [hplace] at htarget
    exact (places_strictMono hforward).lt_iff_lt.mp (hless.trans_le htarget)

end Laws

end Walking
