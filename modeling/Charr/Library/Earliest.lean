import Mathlib.Data.List.Basic
import Mathlib.Order.Nat

/-!
# Earliest entries

A list of optional entries, each with a rank. The earliest entry has the lowest
rank, and stands first among those of its rank.
-/

namespace Earliest

variable {Entry : Type*}

/-- The entry of the lowest rank, the leftmost of several. -/
def earliest : List (Option (Nat × Entry)) → Option (Nat × Entry)
  | [] => none
  | none :: rest => earliest rest
  | some first :: rest =>
      match earliest rest with
      | none => some first
      | some later => if later.1 < first.1 then some later else some first

/-- There is no earliest entry exactly if there is none. -/
theorem earliest_eq_none {entries : List (Option (Nat × Entry))} :
    earliest entries = none ↔ ∀ entry ∈ entries, entry = none := by
  induction entries with
  | nil => simp [earliest]
  | cons entry rest ih =>
      cases entry with
      | none => simp [earliest, ih]
      | some first =>
          simp only [earliest, List.forall_mem_cons, reduceCtorEq, false_and, iff_false]
          cases earliest rest with
          | none => simp
          | some later =>
              simp only
              split <;> simp

/-- A first entry that is later than the best one moves its place by one. -/
theorem first_cons {head : Option (Nat × Entry)} {rest : List (Option (Nat × Entry))}
    {best : Nat × Entry} {position : Nat} (hhead : ∀ entry, head = some entry → best.1 < entry.1)
    (hrest : ∀ (other : Nat) entry, rest[other]? = some (some entry) →
      best.1 < entry.1 ∨ (best.1 = entry.1 ∧ position ≤ other)) :
    ∀ (other : Nat) entry, (head :: rest)[other]? = some (some entry) →
      best.1 < entry.1 ∨ (best.1 = entry.1 ∧ position + 1 ≤ other) := by
  intro other entry hother
  cases other with
  | zero => exact .inl (hhead entry (by simpa using hother))
  | succ other => exact (hrest other entry hother).imp_right (And.imp_right Nat.succ_le_succ)

/-- A first entry that no later one beats is the best. -/
theorem first_head {first : Nat × Entry} {rest : List (Option (Nat × Entry))}
    (hrest : ∀ (other : Nat) entry, rest[other]? = some (some entry) → first.1 ≤ entry.1) :
    ∀ (other : Nat) entry, (some first :: rest)[other]? = some (some entry) →
      first.1 < entry.1 ∨ (first.1 = entry.1 ∧ 0 ≤ other) := by
  intro other entry hother
  cases other with
  | zero =>
      obtain rfl : first = entry := by simpa using hother
      exact .inr ⟨rfl, le_rfl⟩
  | succ other =>
      exact (hrest other entry hother).lt_or_eq.imp_right fun heq => ⟨heq, Nat.zero_le _⟩

/-- The earliest entry is in the list, and nothing in it is earlier. -/
theorem earliest_spec {entries : List (Option (Nat × Entry))} {best : Nat × Entry}
    (hbest : earliest entries = some best) :
    ∃ position : Nat, entries[position]? = some (some best) ∧
      ∀ (other : Nat) entry, entries[other]? = some (some entry) →
        best.1 < entry.1 ∨ (best.1 = entry.1 ∧ position ≤ other) := by
  induction entries generalizing best with
  | nil => exact absurd hbest (by simp [earliest])
  | cons head rest ih =>
      cases head with
      | none =>
          obtain ⟨position, hget, hfirst⟩ := ih hbest
          exact ⟨position + 1, hget, first_cons (by simp) hfirst⟩
      | some first =>
          rw [earliest] at hbest
          cases hrest : earliest rest with
          | none =>
              rw [hrest] at hbest
              obtain rfl := Option.some.inj hbest
              refine ⟨0, rfl, first_head fun other entry hother => ?_⟩
              have hnone := earliest_eq_none.mp hrest _ (List.mem_of_getElem? hother)
              exact absurd hnone (by simp)
          | some later =>
              rw [hrest] at hbest
              obtain ⟨position, hget, hlater⟩ := ih hrest
              simp only at hbest
              -- On a tie the first entry stays, so the later one has to be strictly earlier.
              split at hbest
              next hless =>
                obtain rfl := Option.some.inj hbest
                refine ⟨position + 1, hget, first_cons (fun entry hentry => ?_) hlater⟩
                obtain rfl := Option.some.inj hentry
                exact hless
              next hnot =>
                obtain rfl := Option.some.inj hbest
                refine ⟨0, rfl, first_head fun other entry hother => ?_⟩
                have := hlater other entry hother
                omega

/-- An entry with nothing as early before it and nothing earlier behind it. -/
theorem earliest_of_first {before after : List (Option (Nat × Entry))} {rank : Nat} {entry : Entry}
    (hbefore : ∀ other, some other ∈ before → rank < other.1)
    (hafter : ∀ other, some other ∈ after → rank ≤ other.1) :
    earliest (before ++ some (rank, entry) :: after) = some (rank, entry) := by
  induction before with
  | nil =>
      rw [List.nil_append, earliest]
      cases hrest : earliest after with
      | none => rfl
      | some later =>
          obtain ⟨position, hget, -⟩ := earliest_spec hrest
          have hrank := hafter later (List.mem_of_getElem? hget)
          exact if_neg (Nat.not_lt.mpr hrank)
  | cons head rest ih =>
      have hrest := ih fun other hother => hbefore other (List.mem_cons_of_mem _ hother)
      cases head with
      | none => exact hrest
      | some first =>
          have hrank := hbefore first List.mem_cons_self
          rw [List.cons_append, earliest, hrest]
          exact if_pos hrank

/-- What an entry adds is decided by the earliest of the rest. -/
theorem earliest_cons_congr (head : Option (Nat × Entry)) {rest other : List (Option (Nat × Entry))}
    (hrest : earliest rest = earliest other) :
    earliest (head :: rest) = earliest (head :: other) := by
  cases head with
  | none => exact hrest
  | some first => rw [earliest, earliest, hrest]

/-! ## Stages -/

section Stage

variable {Item Value : Type*}

/-- The failure of an item that goes through `step` first: of rank `rank` there,
and else what the value it leaves goes on to. -/
def stageFailure (rank : Nat) (step : Item → Except Entry Value)
    (next : Value → Option (Nat × Entry)) (item : Item) : Option (Nat × Entry) :=
  match step item with
  | .error entry => some (rank, entry)
  | .ok value => next value

variable {rank : Nat} {step : Item → Except Entry Value} {next : Value → Option (Nat × Entry)}

/-- A step fails at its own rank or later. -/
theorem le_stageFailure (hnext : ∀ value later, next value = some later → rank < later.1)
    {item : Item} {failure : Nat × Entry}
    (hfailure : stageFailure rank step next item = some failure) : rank ≤ failure.1 := by
  unfold stageFailure at hfailure
  split at hfailure
  next =>
    obtain rfl := Option.some.inj hfailure
    exact le_rfl
  next value _ => exact (hnext value failure hfailure).le

/-- A loop that takes all items through a stage fails with the earliest failure, if
any has its rank, and leaves the later failures to the values. -/
theorem earliest_stage (hnext : ∀ value later, next value = some later → rank < later.1)
    (items : List Item) :
    earliest (items.map (stageFailure rank step next)) =
      match items.mapM step with
      | .error entry => some (rank, entry)
      | .ok values => earliest (values.map next) := by
  induction items with
  | nil => rfl
  | cons item rest ih =>
      rw [List.mapM_cons, List.map_cons]
      cases hstep : step item with
      | error entry =>
          have hhead : stageFailure rank step next item = some (rank, entry) := by
            rw [stageFailure, hstep]
          have hlater : ∀ other, some other ∈ rest.map (stageFailure rank step next) →
              rank ≤ other.1 := by
            intro other hother
            obtain ⟨later, -, hfailure⟩ := List.mem_map.mp hother
            exact le_stageFailure hnext hfailure
          rw [hhead]
          exact earliest_of_first (fun _ hmem => absurd hmem List.not_mem_nil) hlater
      | ok value =>
          have hhead : stageFailure rank step next item = next value := by
            rw [stageFailure, hstep]
          rw [hhead]
          cases hrest : rest.mapM step with
          | error entry =>
              rw [hrest] at ih
              cases hvalue : next value with
              | none => exact ih
              | some later =>
                  rw [earliest, ih]
                  exact if_pos (hnext value later hvalue)
          | ok values =>
              rw [hrest] at ih
              exact earliest_cons_congr (next value) ih

theorem length_of_mapM {items : List Item} {values : List Value}
    (hvalues : items.mapM step = .ok values) : values.length = items.length := by
  induction items generalizing values with
  | nil =>
      obtain rfl := Except.ok.inj hvalues
      rfl
  | cons item rest ih =>
      rw [List.mapM_cons] at hvalues
      cases hstep : step item with
      | error entry => exact absurd hvalues (by simp [hstep, bind, Except.bind])
      | ok value =>
          cases hrest : rest.mapM step with
          | error entry => exact absurd hvalues (by simp [hstep, hrest, bind, Except.bind])
          | ok tail =>
              rw [hstep, hrest] at hvalues
              obtain rfl := Except.ok.inj hvalues
              rw [List.length_cons, List.length_cons, ih hrest]

variable (step) in
/-- A loop that stops at the first failure leaves every value, or some item fails. -/
theorem mapM_cases (items : List Item) :
    (∃ values, items.mapM step = .ok values ∧
      items.map (fun item => (step item).toOption) = values.map some) ∨
    ∃ entry, items.mapM step = .error entry ∧ ∃ item ∈ items, (step item).toOption = none := by
  induction items with
  | nil => exact .inl ⟨[], rfl, rfl⟩
  | cons item rest ih =>
      rw [List.mapM_cons]
      cases hstep : step item with
      | error entry => exact .inr ⟨entry, rfl, item, List.mem_cons_self, by rw [hstep]; rfl⟩
      | ok value =>
          rcases ih with ⟨values, hrest, hvalues⟩ | ⟨entry, hrest, later, hlater, hnone⟩
          · refine .inl ⟨value :: values, by rw [hrest]; rfl, ?_⟩
            rw [List.map_cons, List.map_cons, hvalues, hstep]
            rfl
          · exact .inr ⟨entry, by rw [hrest]; rfl, later, List.mem_cons_of_mem _ hlater, hnone⟩

end Stage

/-! ## Leaders -/

section Leaders

variable {failure : Nat → Option (Nat × Entry)} {among : Nat → Prop}

/-- The position whose failure comes first: lowest in rank, then in position. -/
def Leads (failure : Nat → Option (Nat × Entry)) (among : Nat → Prop) (position : Nat)
    (first : Nat × Entry) : Prop :=
  among position ∧ failure position = some first ∧
    ∀ other later, among other → failure other = some later →
      first.1 < later.1 ∨ (first.1 = later.1 ∧ position ≤ other)

/-- The leader leads every part it lies in. -/
theorem Leads.eq_of_among {part : Nat → Prop} {position other : Nat} {first later : Nat × Entry}
    (hleads : Leads failure among position first) (hother : Leads failure part other later)
    (hpart : part position) (hamong : among other) : position = other ∧ first = later := by
  obtain ⟨-, hfirst, hall⟩ := hleads
  obtain ⟨-, hlater, hpartAll⟩ := hother
  have hforth := hall other later hamong hlater
  have hback := hpartAll position first hpart hfirst
  obtain rfl : position = other := by omega
  exact ⟨rfl, Option.some.inj (hfirst.symm.trans hlater)⟩

/-- The earliest failure leads all others. -/
theorem leads_of_earliest {start count : Nat} {best : Nat × Entry}
    (hbest : earliest ((List.range' start count).map failure) = some best) :
    ∃ position, Leads failure (· ∈ List.range' start count) position best := by
  obtain ⟨offset, hget, hfirst⟩ := earliest_spec hbest
  obtain ⟨position, hposition, hfailure⟩ := Option.map_eq_some_iff.mp
    ((List.getElem?_map ..).symm.trans hget)
  have hplace : position = start + offset := by
    obtain ⟨hlt, rfl⟩ := List.getElem?_eq_some_iff.mp hposition
    simp
  refine ⟨position, List.mem_of_getElem? hposition, hfailure, ?_⟩
  intro other later hother hlater
  obtain ⟨place, hplaceOther⟩ := List.getElem?_of_mem hother
  have horder := hfirst place later (by
    rw [List.getElem?_map, hplaceOther, Option.map_some, hlater])
  have hotherPlace : other = start + place := by
    obtain ⟨hlt, rfl⟩ := List.getElem?_eq_some_iff.mp hplaceOther
    simp
  omega

end Leaders

end Earliest
