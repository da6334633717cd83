import Mathlib.Data.List.GetD
import Mathlib.Order.Nat

/-!
# Linear probing

An insert-only table of slots. An entry is looked for from its home slot on, one
slot after the other, and is stored in the first empty one. Every stored entry can
be found again: the slots from its home to its own are full.
-/

namespace LinearProbing

variable {Entry : Type*}

/-- How a walk through the slots ends. -/
inductive WalkEnd (Entry : Type*) where
  | vacant (slot : Nat)
  | found (held : Entry)
  | stopped
  deriving DecidableEq, Repr

/-- Walk until a slot is empty or its entry is a hit, or, where there is a limit,
until that many entries were none. -/
def walk (slots : List (Option Entry)) (next : Nat → Nat) (hit : Entry → Bool)
    (limit : Option Nat) : (fuel slot misses : Nat) → Option (WalkEnd Entry)
  | 0, _, _ => none
  | fuel + 1, slot, misses =>
      match slots.getD slot none with
      | none => some (.vacant slot)
      | some held =>
          if hit held then some (.found held)
          else if limit = some (misses + 1) then some .stopped
          else walk slots next hit limit fuel (next slot) (misses + 1)

/-- The slot `steps` after the home slot. -/
def position (slots : List (Option Entry)) (home steps : Nat) : Nat :=
  (home + steps) % slots.length

/-- The slots of the first `steps` positions are full. -/
def Full (slots : List (Option Entry)) (home steps : Nat) : Prop :=
  ∀ step < steps, ∃ held, slots.getD (position slots home step) none = some held

/-- They hold entries that are no hits. -/
def Passed (slots : List (Option Entry)) (hit : Entry → Bool) (home steps : Nat) : Prop :=
  ∀ step < steps, ∃ held,
    slots.getD (position slots home step) none = some held ∧ hit held = false

/-- What a walk from `home` has seen when it ends. -/
def WalkEnd.Seen (slots : List (Option Entry)) (hit : Entry → Bool) (limit : Option Nat)
    (home : Nat) : WalkEnd Entry → Prop
  | .vacant slot => slots.getD slot none = none ∧
      ∃ last, slot = position slots home last ∧ Passed slots hit home last
  | .found held => hit held ∧ ∃ slot, slots.getD slot none = some held
  | .stopped => limit ≠ none

/-- Every entry can be reached from its home slot. -/
def Chained (home : Entry → Nat) (slots : List (Option Entry)) : Prop :=
  ∀ slot held, slots.getD slot none = some held →
    ∃ steps, slot = position slots (home held) steps ∧ Full slots (home held) steps

/-- The number of slots in use. -/
def occupied (slots : List (Option Entry)) : Nat := slots.countP Option.isSome

section Walk

variable {slots : List (Option Entry)} {next : Nat → Nat} {hit : Entry → Bool}
  {limit : Option Nat} {home : Nat}

theorem position_lt (hslots : 0 < slots.length) (steps : Nat) :
    position slots home steps < slots.length :=
  Nat.mod_lt _ hslots

/-- Probing goes on by one position. -/
theorem next_position (hnext : ∀ slot, next slot = (slot + 1) % slots.length) (steps : Nat) :
    next (position slots home steps) = position slots home (steps + 1) := by
  rw [hnext, position, position, Nat.mod_add_mod, Nat.add_assoc]

/-- A walk ends at a hit, at an empty slot or at its limit. -/
theorem walk_seen (hnext : ∀ slot, next slot = (slot + 1) % slots.length)
    {fuel steps misses : Nat} {walkEnd : WalkEnd Entry}
    (hwalk : walk slots next hit limit fuel (position slots home steps) misses = some walkEnd)
    (hpassed : Passed slots hit home steps) : walkEnd.Seen slots hit limit home := by
  induction fuel generalizing steps misses with
  | zero => exact absurd hwalk (by simp [walk])
  | succ fuel ih =>
      rw [walk] at hwalk
      split at hwalk
      next hempty =>
        obtain rfl := Option.some_inj.mp hwalk
        exact ⟨hempty, steps, rfl, hpassed⟩
      next held hheld =>
        split at hwalk
        next hhit =>
          obtain rfl := Option.some_inj.mp hwalk
          exact ⟨hhit, _, hheld⟩
        next hmiss =>
          split at hwalk
          next hlimit =>
            obtain rfl := Option.some_inj.mp hwalk
            exact hlimit ▸ Option.some_ne_none _
          next =>
            rw [next_position hnext] at hwalk
            apply ih hwalk
            intro step hstep
            rcases Nat.lt_succ_iff_lt_or_eq.mp hstep with hlt | rfl
            · exact hpassed step hlt
            · exact ⟨held, hheld, by simpa using hmiss⟩

/-- A walk that can reach an empty slot ends. -/
theorem walk_isSome (hnext : ∀ slot, next slot = (slot + 1) % slots.length)
    {fuel steps misses last : Nat} (hsteps : steps ≤ last) (hlast : last < steps + fuel)
    (hempty : slots.getD (position slots home last) none = none) :
    (walk slots next hit limit fuel (position slots home steps) misses).isSome := by
  induction fuel generalizing steps misses with
  | zero => omega
  | succ fuel ih =>
      rw [walk]
      split
      next => rfl
      next held hheld =>
        split
        next => rfl
        next =>
          split
          next => rfl
          next =>
            rw [next_position hnext]
            have hne : steps ≠ last := by
              rintro rfl
              exact absurd (hempty.symm.trans hheld) (by simp)
            exact ih (by omega) (by omega)

/-- Fewer entries than slots leave an empty slot on every walk. -/
theorem exists_vacant (hoccupied : occupied slots < slots.length) (home : Nat) :
    ∃ last < slots.length, slots.getD (position slots home last) none = none := by
  have hslots : 0 < slots.length := Nat.zero_lt_of_lt hoccupied
  obtain ⟨slot, hslot, hempty⟩ : ∃ slot < slots.length, slots.getD slot none = none := by
    by_contra hfull
    apply hoccupied.ne
    rw [occupied, List.countP_eq_length]
    intro entry hentry
    obtain ⟨slot, hslot, rfl⟩ := List.getElem_of_mem hentry
    by_contra hnone
    apply hfull
    refine ⟨slot, hslot, ?_⟩
    rw [List.getD_eq_getElem _ _ hslot]
    simpa using hnone
  -- the slot lies this far from home, going round
  refine ⟨(slot + (slots.length - home % slots.length)) % slots.length, Nat.mod_lt _ hslots, ?_⟩
  have hmod : home % slots.length < slots.length := Nat.mod_lt _ hslots
  have hreach : position slots home
      ((slot + (slots.length - home % slots.length)) % slots.length) = slot := by
    calc (home + (slot + (slots.length - home % slots.length)) % slots.length) % slots.length
        = (home % slots.length + (slot + (slots.length - home % slots.length))) %
            slots.length := by rw [Nat.add_mod_mod, Nat.mod_add_mod]
      _ = (slot + slots.length) % slots.length := by congr 1; omega
      _ = slot := by rw [Nat.add_mod_right, Nat.mod_eq_of_lt hslot]
  rw [hreach, hempty]

/-- With as much fuel as there are slots, a walk in a table that is not full ends. -/
theorem exists_walkEnd (hnext : ∀ slot, next slot = (slot + 1) % slots.length)
    (hoccupied : occupied slots < slots.length) (home misses : Nat) :
    ∃ walkEnd, walk slots next hit limit slots.length (position slots home 0) misses =
      some walkEnd := by
  obtain ⟨last, hlast, hempty⟩ := exists_vacant hoccupied home
  exact Option.isSome_iff_exists.mp
    (walk_isSome hnext (Nat.zero_le last) (by omega) hempty)

end Walk

section Chain

variable {slots : List (Option Entry)} {home : Entry → Nat} {slot : Nat} {entry : Entry}

/-- In an empty table every chain is whole. -/
theorem chained_replicate (home : Entry → Nat) (count : Nat) :
    Chained home (List.replicate count none) := by
  intro slot held hheld
  rw [List.getD_eq_getElem?_getD, List.getElem?_replicate] at hheld
  split at hheld <;> simp at hheld

theorem getD_set_self (hslot : slot < slots.length) :
    (slots.set slot (some entry)).getD slot none = some entry := by
  rw [List.getD_eq_getElem?_getD, List.getElem?_set_self hslot]
  rfl

theorem getD_set_ne {other : Nat} (hne : other ≠ slot) :
    (slots.set slot (some entry)).getD other none = slots.getD other none := by
  rw [List.getD_eq_getElem?_getD, List.getElem?_set_ne (Ne.symm hne),
    ← List.getD_eq_getElem?_getD]

theorem position_set (home steps : Nat) :
    position (slots.set slot (some entry)) home steps = position slots home steps := by
  rw [position, List.length_set, position]

/-- Storing in an empty slot empties no slot. -/
theorem Full.set {start steps : Nat} (hfull : Full slots start steps)
    (hslot : slot < slots.length) : Full (slots.set slot (some entry)) start steps := by
  intro step hstep
  rw [position_set]
  by_cases hsame : position slots start step = slot
  · exact ⟨entry, by rw [hsame, getD_set_self hslot]⟩
  · rw [getD_set_ne hsame]
    exact hfull step hstep

/-- Storing an entry where its walk ended keeps every entry in reach. -/
theorem Chained.set (hchained : Chained home slots) (hslot : slot < slots.length)
    {last : Nat} (hlast : slot = position slots (home entry) last)
    (hfull : Full slots (home entry) last) :
    Chained home (slots.set slot (some entry)) := by
  intro other held hheld
  by_cases hsame : other = slot
  · obtain rfl := hsame
    rw [getD_set_self hslot, Option.some_inj] at hheld
    obtain rfl := hheld
    exact ⟨last, by rw [position_set, hlast], hfull.set hslot⟩
  · rw [getD_set_ne hsame] at hheld
    obtain ⟨steps, hsteps, hpath⟩ := hchained other held hheld
    exact ⟨steps, by rw [position_set, hsteps], hpath.set hslot⟩

/-- A walk that ends at an empty slot has met every entry with its home. -/
theorem Chained.miss_of_vacant (hchained : Chained home slots) {hit : Entry → Bool}
    {last start : Nat} (hempty : slots.getD (position slots start last) none = none)
    (hpassed : Passed slots hit start last)
    {held : Entry} {other : Nat} (hheld : slots.getD other none = some held)
    (hhome : home held = start) : hit held = false := by
  obtain ⟨steps, rfl, hfull⟩ := hchained other held hheld
  rw [hhome] at hheld hfull
  rcases Nat.lt_trichotomy steps last with hlt | rfl | hgt
  · obtain ⟨met, hmet, hmiss⟩ := hpassed steps hlt
    rw [hheld, Option.some_inj] at hmet
    rwa [hmet]
  · exact absurd (hempty.symm.trans hheld) (by simp)
  · obtain ⟨met, hmet⟩ := hfull last hgt
    exact absurd (hempty.symm.trans hmet) (by simp)

theorem occupied_replicate (count : Nat) :
    occupied (List.replicate count (none : Option Entry)) = 0 := by
  simp [occupied]

/-- An entry in an empty slot takes one slot more. -/
theorem occupied_set (hslot : slot < slots.length) (hempty : slots.getD slot none = none) :
    occupied (slots.set slot (some entry)) = occupied slots + 1 := by
  rw [List.getD_eq_getElem _ _ hslot] at hempty
  simp [occupied, List.countP_set hslot, hempty]

end Chain

end LinearProbing
