import Mathlib.Data.List.Basic
import Mathlib.Data.List.Perm.Basic
import Mathlib.Order.Nat

/-!
# Merging ordered rows

Several rows of items, each in the order of their keys, are merged by taking the
lowest first item over and over. What comes out is the one ordered list of all
the items.
-/

namespace RowMerge

variable {Item : Type*} (key : Item → Nat)

/-- Keep the best so far unless the candidate's key is lower. -/
def better (best : Option (Nat × Item)) (candidate : Nat × Item) : Nat × Item :=
  match best with
  | none => candidate
  | some kept => if key candidate.2 < key kept.2 then candidate else kept

/-- Scan the rows for the lowest first item. -/
def scan : List (List Item) → Nat → Option (Nat × Item) → Option (Nat × Item)
  | [], _, best => best
  | [] :: rows, index, best => scan rows (index + 1) best
  | (item :: _) :: rows, index, best =>
      scan rows (index + 1) (some (better key best (index, item)))

/-- The row to take from next, and its first item. -/
def lowestRow (rows : List (List Item)) : Option (Nat × Item) :=
  scan key rows 0 none

/-- The ordered list of all items in the rows. -/
structure Merged (rows : List (List Item)) (target : List Item) : Prop where
  perm : rows.flatten.Perm target
  sorted : target.Pairwise fun earlier later => key earlier < key later
  rows_sorted : ∀ row ∈ rows, row.Pairwise fun earlier later => key earlier < key later

variable {key}

/-- The better of two candidates is one of them, and has no larger key than either. -/
theorem better_spec (best : Option (Nat × Item)) (candidate : Nat × Item) :
    (best = some (better key best candidate) ∨ better key best candidate = candidate) ∧
      key (better key best candidate).2 ≤ key candidate.2 ∧
      ∀ kept, best = some kept → key (better key best candidate).2 ≤ key kept.2 := by
  cases best with
  | none => exact ⟨.inr rfl, le_rfl, by simp⟩
  | some kept =>
      simp only [better, Option.some.injEq, forall_eq']
      split
      next hlower => exact ⟨.inr rfl, le_rfl, hlower.le⟩
      next hkept => exact ⟨.inl rfl, Nat.not_lt.mp hkept, le_rfl⟩

/-- In empty rows there is no lowest one. -/
theorem scan_eq_none {rows : List (List Item)} {index : Nat} {best : Option (Nat × Item)}
    (hbest : best = none) (hrows : ∀ row ∈ rows, row = []) : scan key rows index best = none := by
  subst hbest
  induction rows generalizing index with
  | nil => rfl
  | cons row rows ih =>
      obtain ⟨rfl, hrest⟩ := List.forall_mem_cons.mp hrows
      exact ih hrest

/-- A scan returns the best so far or a first item, and the lowest of them. -/
theorem scan_spec (key : Item → Nat) (rows : List (List Item)) (index : Nat)
    (best : Option (Nat × Item)) (hsome : best.isSome = true ∨ ∃ row ∈ rows, row ≠ []) :
    ∃ found item, scan key rows index best = some (found, item) ∧
      (best = some (found, item) ∨
        ∃ offset tail, rows[offset]? = some (item :: tail) ∧ found = index + offset) ∧
      (∀ kept, best = some kept → key item ≤ key kept.2) ∧
      ∀ first tail, first :: tail ∈ rows → key item ≤ key first := by
  induction rows generalizing index best with
  | nil =>
      rcases hsome with hbest | ⟨row, hrow, -⟩
      · obtain ⟨⟨found, item⟩, rfl⟩ := Option.isSome_iff_exists.mp hbest
        exact ⟨found, item, rfl, .inl rfl, by simp, by simp⟩
      · exact absurd hrow (by simp)
  | cons row rows ih =>
      cases row with
      | nil =>
          have hsome' : best.isSome = true ∨ ∃ row ∈ rows, row ≠ [] := by
            rcases hsome with hbest | ⟨row, hrow, hne⟩
            · exact .inl hbest
            · rcases List.mem_cons.mp hrow with rfl | hmem
              · exact absurd rfl hne
              · exact .inr ⟨row, hmem, hne⟩
          obtain ⟨found, item, heq, hfrom, hbest, hfirst⟩ := ih (index + 1) best hsome'
          refine ⟨found, item, heq, ?_, hbest, ?_⟩
          · rcases hfrom with hkept | ⟨offset, tail, hget, rfl⟩
            · exact .inl hkept
            · exact .inr ⟨offset + 1, tail, by simpa using hget, by omega⟩
          · intro first tail hmem
            rcases List.mem_cons.mp hmem with hnil | hin
            · exact absurd hnil (by simp)
            · exact hfirst first tail hin
      | cons head tail =>
          -- The best so far is now at most the head of this row and what was kept.
          obtain ⟨hchoice, hhead, hkept⟩ := better_spec best (index, head)
          obtain ⟨found, item, heq, hfrom, hbest, hfirst⟩ :=
            ih (index + 1) (some (better key best (index, head))) (.inl rfl)
          have hle := hbest _ rfl
          refine ⟨found, item, heq, ?_, ?_, ?_⟩
          · rcases hfrom with hbetter | ⟨offset, rest, hget, rfl⟩
            · rw [Option.some.injEq] at hbetter
              rw [hbetter] at hchoice
              rcases hchoice with hold | hnew
              · exact .inl hold
              · obtain ⟨rfl, rfl⟩ := Prod.mk.inj hnew
                exact .inr ⟨0, tail, rfl, rfl⟩
            · exact .inr ⟨offset + 1, rest, by simpa using hget, by omega⟩
          · intro kept hold
            exact hle.trans (hkept kept hold)
          · intro first rest hmem
            rcases List.mem_cons.mp hmem with hsame | hin
            · obtain ⟨rfl, -⟩ := List.cons.inj hsame
              exact hle.trans hhead
            · exact hfirst first rest hin

/-- When everything is merged, the rows are empty. -/
theorem Merged.done {rows : List (List Item)} (hmerged : Merged key rows []) :
    lowestRow key rows = none := by
  apply scan_eq_none rfl
  have hnil := hmerged.perm.eq_nil
  exact List.flatten_eq_nil_iff.mp hnil

/-- In an ordered list, the items of equal keys are equal. -/
theorem eq_of_key_eq {target : List Item} {left right : Item}
    (hsorted : target.Pairwise fun earlier later => key earlier < key later)
    (hleft : left ∈ target) (hright : right ∈ target) (hkey : key left = key right) :
    left = right := by
  by_contra hne
  have hdisjoint := List.Pairwise.forall_of_forall_of_flip (R := fun a b => a ≠ b → key a ≠ key b)
    (fun item _ hself => absurd rfl hself) (hsorted.imp fun hlt _ => hlt.ne)
    (hsorted.imp fun hlt _ => hlt.ne') hleft hright
  exact hdisjoint hne hkey

/-- The row the scan selects starts with the first item of the merge, and the
rest of the merge is what the rows hold without it. -/
theorem Merged.next {rows : List (List Item)} {item : Item} {rest : List Item}
    (hmerged : Merged key rows (item :: rest)) :
    ∃ index tail, lowestRow key rows = some (index, item) ∧
      rows[index]? = some (item :: tail) ∧ Merged key (rows.set index tail) rest := by
  have hmem : ∀ {row : List Item} {other : Item}, row ∈ rows → other ∈ row →
      other ∈ item :: rest := fun hrow hother =>
    hmerged.perm.subset (List.mem_flatten.mpr ⟨_, hrow, hother⟩)
  have hfirst : ∀ other ∈ item :: rest, key item ≤ key other := by
    intro other hother
    rcases List.mem_cons.mp hother with rfl | hrest
    · exact le_rfl
    · exact ((List.pairwise_cons.mp hmerged.sorted).1 other hrest).le
  obtain ⟨row, hrow, hitem⟩ := List.mem_flatten.mp
    (hmerged.perm.mem_iff.mpr (List.mem_cons_self : item ∈ item :: rest))
  -- the item is the first of its row: what stood before it would have a lower key
  obtain ⟨head, tail, rfl⟩ := List.exists_cons_of_ne_nil (List.ne_nil_of_mem hitem)
  have hhead : head = item := by
    rcases List.mem_cons.mp hitem with rfl | htail
    · rfl
    · have hlt := (List.pairwise_cons.mp (hmerged.rows_sorted _ hrow)).1 item htail
      have hle := hfirst head (hmem hrow List.mem_cons_self)
      omega
  subst hhead
  obtain ⟨index, found, hscan, hfrom, -, hlowest⟩ :=
    scan_spec key rows 0 none (.inr ⟨_, hrow, by simp⟩)
  rcases hfrom with hnone | ⟨offset, others, hget, hindex⟩
  · exact absurd hnone (by simp)
  rw [Nat.zero_add] at hindex
  subst hindex
  have hin : found ∈ head :: rest := hmem (List.mem_of_getElem? hget) List.mem_cons_self
  obtain rfl : found = head := by
    apply eq_of_key_eq hmerged.sorted hin List.mem_cons_self
    exact le_antisymm (hlowest head tail hrow) (hfirst found hin)
  refine ⟨index, others, hscan, hget, ?_, (List.pairwise_cons.mp hmerged.sorted).2, ?_⟩
  · obtain ⟨hlt, hrowat⟩ := List.getElem?_eq_some_iff.mp hget
    have hsplit : rows = rows.take index ++ (found :: others) :: rows.drop (index + 1) := by
      rw [← hrowat, List.getElem_cons_drop, List.take_append_drop]
    have hperm := hmerged.perm
    rw [hsplit] at hperm
    rw [List.set_eq_take_append_cons_drop, if_pos hlt]
    simp only [List.flatten_append, List.flatten_cons, List.cons_append] at hperm ⊢
    exact List.Perm.cons_inv (List.perm_middle.symm.trans hperm)
  · intro other hother
    rcases List.mem_or_eq_of_mem_set hother with hold | rfl
    · exact hmerged.rows_sorted other hold
    · exact (List.pairwise_cons.mp (hmerged.rows_sorted _ (List.mem_of_getElem? hget))).2

/-- Advancing the row of the first item leaves its tail. -/
theorem map_modify_eq_set {Row : Type*} (view : Row → List Item) (advance : Row → Row)
    (hadvance : ∀ row, view (advance row) = (view row).tail) {rows : List Row} {next : Nat}
    {item : Item} {tail : List Item} (hget : (rows.map view)[next]? = some (item :: tail)) :
    (rows.modify next advance).map view = (rows.map view).set next tail := by
  rw [List.getElem?_map, Option.map_eq_some_iff] at hget
  obtain ⟨row, hrow, hview⟩ := hget
  apply List.ext_getElem?
  intro index
  rw [List.getElem?_map, List.getElem?_modify, List.getElem?_set]
  by_cases hindex : next = index
  · subst hindex
    obtain ⟨hlt, rfl⟩ := List.getElem?_eq_some_iff.mp hrow
    simp [hlt, hadvance, hview]
  · simp [hindex, List.getElem?_map]

end RowMerge
