import Mathlib.Data.List.Chain
import Mathlib.Data.List.DropRight

/-!
# Fields between separators

A list is read as fields with runs of separators between them. Collapsing makes one blank
of each run; trimming takes what counts as white from both ends. What is left is the
fields, joined by blanks.
-/

namespace Fields

variable {Item : Type*} (separator white : Item → Bool) (blank : Item)

/-- Every run of separators becomes one blank; `inRun` if one has been written already. -/
def collapse : (inRun : Bool) → List Item → List Item
  | _, [] => []
  | inRun, item :: rest =>
      if separator item then
        if inRun then collapse true rest else blank :: collapse true rest
      else item :: collapse false rest

/-- Without the white items at both ends. -/
def trim (items : List Item) : List Item := (items.dropWhile white).rdropWhile white

/-- A field that has ended, if it has items. -/
def closeField (field : List Item) (others : List (List Item)) : List (List Item) :=
  if field.isEmpty then others else field :: others

/-- The fields of a list that `field` has been read of. -/
def fieldsFrom : (field : List Item) → List Item → List (List Item)
  | field, [] => closeField field []
  | field, item :: rest =>
      if separator item then closeField field (fieldsFrom [] rest)
      else fieldsFrom (field ++ [item]) rest

/-- The longest parts without a separator. -/
def fields (items : List Item) : List (List Item) := fieldsFrom separator [] items

section Collapse

variable {separator white blank}

/-- Whether a blank has been written for the run the items end in. -/
def runAfter (separator : Item → Bool) (inRun : Bool) (items : List Item) : Bool :=
  (items.getLast?.map separator).getD inRun

/-- Collapsing goes on behind a front as the front leaves off. -/
theorem collapse_append (inRun : Bool) (front rest : List Item) :
    collapse separator blank inRun (front ++ rest) =
      collapse separator blank inRun front ++
        collapse separator blank (runAfter separator inRun front) rest := by
  induction front generalizing inRun with
  | nil => rfl
  | cons item front ih =>
      have hafter : runAfter separator inRun (item :: front) =
          runAfter separator (separator item) front := by
        cases front with
        | nil => rfl
        | cons next front =>
            rw [runAfter, runAfter, List.getLast?_cons_cons, List.getLast?_cons]
            rfl
      rw [List.cons_append, collapse, collapse, ih, ih, hafter]
      cases separator item with
      | true =>
          cases inRun with
          | true => rfl
          | false => rfl
      | false => rfl

section Trim

variable (hwhite : ∀ item, separator item = true → white item = true) (hblank : white blank = true)
include hwhite hblank

/-- Trimming the start and collapsing commute. -/
theorem dropWhile_collapse (inRun : Bool) (items : List Item) :
    (collapse separator blank inRun items).dropWhile white =
      collapse separator blank false (items.dropWhile white) := by
  induction items generalizing inRun with
  | nil => rfl
  | cons item rest ih =>
      rw [collapse]
      by_cases hitem : white item = true
      · rw [List.dropWhile_cons_of_pos hitem]
        split
        next =>
          split
          next => exact ih true
          next =>
            rw [List.dropWhile_cons_of_pos hblank]
            exact ih true
        next =>
          rw [List.dropWhile_cons_of_pos hitem]
          exact ih false
      · have hseparator : ¬ separator item = true := fun htrue => hitem (hwhite item htrue)
        rw [if_neg hseparator, List.dropWhile_cons_of_neg hitem, List.dropWhile_cons_of_neg hitem,
          collapse, if_neg hseparator]

theorem rdropWhile_collapse (inRun : Bool) (items : List Item) :
    (collapse separator blank inRun items).rdropWhile white =
      collapse separator blank inRun (items.rdropWhile white) := by
  induction items using List.reverseRecOn with
  | nil => rfl
  | append_singleton front item ih =>
      by_cases hitem : white item = true
      · rw [List.rdropWhile_concat_pos _ _ _ hitem, collapse_append, ← ih, collapse]
        split
        next =>
          split
          next => rw [collapse, List.append_nil]
          next => rw [collapse, List.rdropWhile_concat_pos _ _ _ hblank]
        next => rw [collapse, List.rdropWhile_concat_pos _ _ _ hitem]
      · have hseparator : ¬ separator item = true := fun htrue => hitem (hwhite item htrue)
        rw [List.rdropWhile_concat_neg _ _ _ hitem, collapse_append, collapse, if_neg hseparator,
          collapse, List.rdropWhile_concat_neg _ _ _ hitem]

/-- It does not matter which is done first. -/
theorem trim_collapse (items : List Item) :
    trim white (collapse separator blank false items) =
      collapse separator blank false (trim white items) := by
  rw [trim, trim, dropWhile_collapse hwhite hblank, rdropWhile_collapse hwhite hblank]

end Trim

/-- No two separators stand next to each other. -/
def Single (separator : Item → Bool) (items : List Item) : Prop :=
  items.IsChain fun item next => ¬ (separator item = true ∧ separator next = true)

/-- Nothing changes where the only separators are single blanks. -/
theorem collapse_self {items : List Item}
    (hblanks : ∀ item ∈ items, separator item = true → item = blank)
    (hsingle : Single separator items) {inRun : Bool}
    (hrun : inRun = true → ∀ first ∈ items.head?, separator first = false) :
    collapse separator blank inRun items = items := by
  induction items generalizing inRun with
  | nil => rfl
  | cons item rest ih =>
      rw [List.forall_mem_cons] at hblanks
      obtain ⟨hnext, hrest⟩ := List.isChain_cons.mp hsingle
      rw [collapse]
      split
      next hitem =>
        have hnot : ¬ inRun = true := by
          intro hin
          rw [hrun hin item rfl] at hitem
          exact absurd hitem (by simp)
        rw [if_neg hnot, hblanks.1 hitem, ih hblanks.2 hrest]
        intro _ next hmem
        apply Bool.eq_false_iff.mpr
        intro hseparator
        exact hnext next hmem ⟨hitem, hseparator⟩
      next => rw [ih hblanks.2 hrest (by simp)]

theorem mem_collapse {inRun : Bool} {items : List Item} {item : Item}
    (hitem : item ∈ collapse separator blank inRun items) : item = blank ∨ item ∈ items := by
  induction items generalizing inRun with
  | nil => exact absurd hitem List.not_mem_nil
  | cons next rest ih =>
      have hlater : ∀ run, item ∈ collapse separator blank run rest →
          item = blank ∨ item ∈ next :: rest :=
        fun run hmem => (ih hmem).imp_right (List.mem_cons_of_mem _)
      rw [collapse] at hitem
      split at hitem
      next =>
        split at hitem
        next => exact hlater true hitem
        next =>
          rcases List.mem_cons.mp hitem with heq | hmem
          · exact .inl heq
          · exact hlater true hmem
      next =>
        rcases List.mem_cons.mp hitem with heq | hmem
        · exact .inr (heq ▸ List.mem_cons_self)
        · exact hlater false hmem

end Collapse

/-! ## White ends -/

section Ends

variable {white : Item → Bool} {items : List Item}

theorem white_getLast?_rdropWhile :
    ∀ last ∈ (items.rdropWhile white).getLast?, white last = false := by
  intro last hlast
  have hne : items.rdropWhile white ≠ [] := by
    intro hnil
    rw [hnil] at hlast
    exact absurd hlast (by simp)
  rw [List.getLast?_eq_some_getLast hne] at hlast
  have hnot := List.rdropWhile_last_not _ _ hne
  rw [← Option.some_inj.mp hlast]
  exact Bool.eq_false_iff.mpr hnot

/-- A trimmed list does not end with white space. -/
theorem white_getLast?_trim : ∀ last ∈ (trim white items).getLast?, white last = false :=
  white_getLast?_rdropWhile

theorem white_head?_trim : ∀ first ∈ (trim white items).head?, white first = false := by
  intro first hfirst
  have hwhole := List.rdropWhile_append_rtakeWhile (p := white) (l := items.dropWhile white)
  have hhead : first ∈ (items.dropWhile white).head? := by
    rw [← hwhole]
    exact List.mem_head?_append_of_mem_head? hfirst
  have hnot := List.head?_dropWhile_not white items
  rw [hhead] at hnot
  exact hnot

theorem mem_of_mem_trim {item : Item} (hitem : item ∈ trim white items) : item ∈ items := by
  have hwhole := List.rdropWhile_append_rtakeWhile (p := white) (l := items.dropWhile white)
  apply (List.dropWhile_sublist white).subset
  rw [← hwhole]
  exact List.mem_append_left _ hitem

/-- There is nothing to take away. -/
theorem trim_self (hfirst : ∀ first ∈ items.head?, white first = false)
    (hlast : ∀ last ∈ items.getLast?, white last = false) : trim white items = items := by
  have hdrop : items.dropWhile white = items := by
    cases items with
    | nil => rfl
    | cons first rest =>
        rw [List.dropWhile_cons_of_neg]
        rw [hfirst first rfl]
        simp
  rw [trim, hdrop, List.rdropWhile_eq_self_iff]
  intro hne
  rw [hlast _ (List.getLast?_eq_some_getLast hne)]
  simp

/-- Trimming the end stays within the last part that is not all white. -/
theorem rdropWhile_append {front rest : List Item} (hrest : rest.rdropWhile white ≠ []) :
    (front ++ rest).rdropWhile white = front ++ rest.rdropWhile white := by
  unfold List.rdropWhile at hrest ⊢
  have hne : ¬ (rest.reverse.dropWhile white).isEmpty = true := by
    rw [List.isEmpty_iff]
    exact fun hnil => hrest (by rw [hnil, List.reverse_nil])
  rw [List.reverse_append, List.dropWhile_append, if_neg hne, List.reverse_append,
    List.reverse_reverse]

theorem dropWhile_eq_nil_of_trim (htrim : trim white items = []) : items.dropWhile white = [] := by
  by_contra hne
  have hall := List.rdropWhile_eq_nil_iff.mp htrim
  have hfirst := List.head_dropWhile_not white hne
  rw [hall _ (List.head_mem hne)] at hfirst
  exact Bool.noConfusion hfirst

/-- It does not matter from which end the white items are taken first. -/
theorem dropWhile_rdropWhile : (items.rdropWhile white).dropWhile white = trim white items := by
  have hwhite : ∀ item ∈ items.takeWhile white, white item = true := fun item hitem =>
    List.mem_takeWhile_imp hitem
  by_cases htrim : trim white items = []
  · have hall : ∀ item ∈ items, white item = true :=
      List.dropWhile_eq_nil_iff.mp (dropWhile_eq_nil_of_trim htrim)
    rw [htrim, List.rdropWhile_eq_nil_iff.mpr hall, List.dropWhile_nil]
  · have hsplit : items.rdropWhile white = items.takeWhile white ++ trim white items := by
      conv_lhs => rw [← List.takeWhile_append_dropWhile (p := white) (l := items)]
      exact rdropWhile_append htrim
    have hfirst : (trim white items).dropWhile white = trim white items := by
      obtain ⟨first, rest, hcons⟩ := List.exists_cons_of_ne_nil htrim
      have hnot := @white_head?_trim _ white items first (by rw [hcons]; rfl)
      rw [hcons, List.dropWhile_cons_of_neg]
      rw [hnot]
      exact Bool.false_ne_true
    rw [hsplit, List.dropWhile_append_of_pos hwhite, hfirst]

end Ends

/-! ## The fields -/

section Parts

variable {separator white blank}

@[simp] theorem closeField_nil (others : List (List Item)) : closeField [] others = others := rfl

theorem closeField_of_ne_nil {field : List Item} (hfield : field ≠ []) (others : List (List Item)) :
    closeField field others = field :: others := by
  rw [closeField, if_neg]
  rwa [List.isEmpty_iff]

theorem fieldsFrom_ne_nil {field : List Item} (hfield : field ≠ []) (items : List Item) :
    fieldsFrom separator field items ≠ [] := by
  induction items generalizing field with
  | nil =>
      rw [fieldsFrom, closeField_of_ne_nil hfield]
      exact List.cons_ne_nil _ _
  | cons item rest ih =>
      rw [fieldsFrom]
      split
      next =>
        rw [closeField_of_ne_nil hfield]
        exact List.cons_ne_nil _ _
      next => exact ih (by simp)

/-- Inside a field, and inside a run of separators, if the items end in a field. -/
theorem collapse_fieldsFrom {items : List Item}
    (hlast : ∀ last ∈ items.getLast?, separator last = false) :
    (∀ field ≠ [], field ++ collapse separator blank false items =
      [blank].intercalate (fieldsFrom separator field items)) ∧
    (items ≠ [] → fieldsFrom separator [] items ≠ [] ∧
      collapse separator blank true items =
        [blank].intercalate (fieldsFrom separator [] items)) := by
  induction items with
  | nil =>
      refine ⟨?_, fun hne => absurd rfl hne⟩
      intro field hfield
      rw [collapse, fieldsFrom, closeField_of_ne_nil hfield, List.append_nil,
        List.intercalate_singleton]
  | cons item rest ih =>
      have hbehind : ∀ last ∈ rest.getLast?, separator last = false := by
        intro last hmem
        apply hlast
        rw [List.getLast?_cons, hmem]
        rfl
      obtain ⟨hinside, hbetween⟩ := ih hbehind
      by_cases hitem : separator item = true
      · have hne : rest ≠ [] := by
          rintro rfl
          rw [hlast item rfl] at hitem
          exact absurd hitem (by simp)
        obtain ⟨hfields, hcollapse⟩ := hbetween hne
        constructor
        · intro field hfield
          rw [collapse, if_pos hitem, if_neg (by simp), hcollapse, fieldsFrom, if_pos hitem,
            closeField_of_ne_nil hfield, List.intercalate_cons_of_ne_nil hfields, List.append_assoc]
          rfl
        · intro _
          rw [fieldsFrom, if_pos hitem, collapse, if_pos hitem, if_pos rfl]
          exact ⟨hfields, hcollapse⟩
      · constructor
        · intro field hfield
          rw [collapse, if_neg hitem, fieldsFrom, if_neg hitem, ← hinside _ (by simp),
            List.append_assoc]
          rfl
        · intro _
          rw [fieldsFrom, if_neg hitem, collapse, if_neg hitem, List.nil_append,
            ← hinside [item] (List.cons_ne_nil _ _)]
          exact ⟨fieldsFrom_ne_nil (List.cons_ne_nil _ _) rest, rfl⟩

/-- A list that starts and ends in a field is its fields, with a blank for each run. -/
theorem collapse_eq_intercalate {items : List Item}
    (hfirst : ∀ first ∈ items.head?, separator first = false)
    (hlast : ∀ last ∈ items.getLast?, separator last = false) :
    collapse separator blank false items = [blank].intercalate (fields separator items) := by
  cases items with
  | nil => rfl
  | cons item rest =>
      have hitem : ¬ separator item = true := by
        rw [hfirst item rfl]
        simp
      have hbetween := ((@collapse_fieldsFrom _ separator blank _ hlast).2 (List.cons_ne_nil _ _)).2
      rw [collapse, if_neg hitem] at hbetween
      rw [collapse, if_neg hitem, hbetween]
      rfl

theorem mem_closeField {field part : List Item} {others : List (List Item)}
    (hpart : part ∈ closeField field others) : part = field ∧ field ≠ [] ∨ part ∈ others := by
  unfold closeField at hpart
  split at hpart
  next => exact .inr hpart
  next hempty =>
    rcases List.mem_cons.mp hpart with heq | hmem
    · exact .inl ⟨heq, by rwa [List.isEmpty_iff] at hempty⟩
    · exact .inr hmem

/-- A field has items, and no separators among them. -/
theorem mem_fieldsFrom {field items : List Item} (hfield : ∀ item ∈ field, separator item = false) :
    ∀ part ∈ fieldsFrom separator field items, part ≠ [] ∧
      ∀ item ∈ part, separator item = false ∧ (item ∈ field ∨ item ∈ items) := by
  induction items generalizing field with
  | nil =>
      intro part hpart
      rcases mem_closeField hpart with ⟨rfl, hne⟩ | hmem
      · exact ⟨hne, fun item hitem => ⟨hfield item hitem, .inl hitem⟩⟩
      · exact absurd hmem List.not_mem_nil
  | cons next rest ih =>
      intro part hpart
      rw [fieldsFrom] at hpart
      split at hpart
      next =>
        rcases mem_closeField hpart with ⟨rfl, hne⟩ | hmem
        · exact ⟨hne, fun item hitem => ⟨hfield item hitem, .inl hitem⟩⟩
        · obtain ⟨hne, hitems⟩ := ih (by simp) part hmem
          refine ⟨hne, ?_⟩
          intro item hitem
          obtain ⟨hseparator, hwhere⟩ := hitems item hitem
          exact ⟨hseparator, .inr (List.mem_cons_of_mem _ (hwhere.resolve_left List.not_mem_nil))⟩
      next hnext =>
        have hlonger : ∀ item ∈ field ++ [next], separator item = false := by
          rw [List.forall_mem_append]
          exact ⟨hfield, by simpa using hnext⟩
        obtain ⟨hne, hitems⟩ := ih hlonger part hpart
        refine ⟨hne, ?_⟩
        intro item hitem
        obtain ⟨hseparator, hwhere⟩ := hitems item hitem
        refine ⟨hseparator, ?_⟩
        rw [List.mem_append, List.mem_singleton] at hwhere
        rw [List.mem_cons]
        exact hwhere.elim (fun hmem => hmem.elim .inl fun heq => .inr (.inl heq))
          fun hmem => .inr (.inr hmem)

/-- Fields are not empty and have no separator. -/
theorem mem_fields {items : List Item} {field : List Item}
    (hfield : field ∈ fields separator items) :
    field ≠ [] ∧ ∀ item ∈ field, separator item = false ∧ item ∈ items := by
  obtain ⟨hne, hitems⟩ := mem_fieldsFrom (by simp) field hfield
  refine ⟨hne, ?_⟩
  intro item hitem
  obtain ⟨hseparator, hwhere⟩ := hitems item hitem
  exact ⟨hseparator, hwhere.resolve_left List.not_mem_nil⟩

/-- The first field goes on from what has been read. -/
theorem fieldsFrom_cons (first : Item) (field items : List Item) :
    ∃ more others, fieldsFrom separator (first :: field) items = (first :: more) :: others := by
  induction items generalizing field with
  | nil => exact ⟨field, [], rfl⟩
  | cons item rest ih =>
      rw [fieldsFrom]
      split
      next => exact ⟨field, _, rfl⟩
      next => exact ih (field ++ [item])

/-- The last field ends with the list. -/
theorem fieldsFrom_concat {last : Item} (hlast : separator last = false) (field items : List Item) :
    ∃ others more, fieldsFrom separator field (items ++ [last]) = others ++ [more ++ [last]] := by
  induction items generalizing field with
  | nil =>
      refine ⟨[], field, ?_⟩
      rw [List.nil_append, fieldsFrom, if_neg (by simp [hlast]), fieldsFrom,
        closeField_of_ne_nil (by simp)]
      rfl
  | cons item rest ih =>
      rw [List.cons_append, fieldsFrom]
      split
      next =>
        obtain ⟨others, more, hrest⟩ := ih []
        rw [hrest]
        by_cases hfield : field = []
        · exact ⟨others, more, by rw [hfield, closeField_nil]⟩
        · exact ⟨field :: others, more, by rw [closeField_of_ne_nil hfield]; rfl⟩
      next => exact ih (field ++ [item])

end Parts

/-! ## Joining -/

section Joining

variable {separator} {blank : Item} {parts : List (List Item)}

theorem mem_intercalate {item : Item} (hitem : item ∈ [blank].intercalate parts) :
    item = blank ∨ ∃ part ∈ parts, item ∈ part := by
  induction parts with
  | nil => exact absurd hitem List.not_mem_nil
  | cons part rest ih =>
      cases rest with
      | nil =>
          rw [List.intercalate_singleton] at hitem
          exact .inr ⟨part, List.mem_cons_self, hitem⟩
      | cons next rest =>
          rw [List.intercalate_cons_cons, List.append_assoc, List.mem_append, List.mem_append,
            List.mem_singleton] at hitem
          rcases hitem with hmem | rfl | hmem
          · exact .inr ⟨part, List.mem_cons_self, hmem⟩
          · exact .inl rfl
          · rcases ih hmem with heq | ⟨other, hother, hin⟩
            · exact .inl heq
            · exact .inr ⟨other, List.mem_cons_of_mem _ hother, hin⟩

/-- Joined fields begin as the first one does. -/
theorem head?_intercalate {part : List Item} (hpart : part ≠ []) (rest : List (List Item)) :
    ([blank].intercalate (part :: rest)).head? = part.head? := by
  cases rest with
  | nil => rw [List.intercalate_singleton]
  | cons next rest =>
      rw [List.intercalate_cons_cons, List.append_assoc, List.head?_append_of_ne_nil _ hpart]

theorem getLast?_intercalate {part : List Item} (hpart : part ≠ []) (front : List (List Item)) :
    ([blank].intercalate (front ++ [part])).getLast? = part.getLast? := by
  induction front with
  | nil => rw [List.nil_append, List.intercalate_singleton]
  | cons other front ih =>
      have hlast : [blank].intercalate (front ++ [part]) ≠ [] := by
        intro hnil
        rw [hnil, List.getLast?_nil] at ih
        exact hpart (List.getLast?_eq_none_iff.mp ih.symm)
      rw [List.cons_append, List.intercalate_cons_of_ne_nil (by simp),
        List.getLast?_append_of_ne_nil _ hlast, ih]

theorem single_of_field {part : List Item} (hpart : ∀ item ∈ part, separator item = false) :
    Single separator part := by
  induction part with
  | nil => exact .nil
  | cons item rest ih =>
      rw [List.forall_mem_cons] at hpart
      refine List.isChain_cons.mpr ⟨?_, ih hpart.2⟩
      rintro next - ⟨hitem, -⟩
      rw [hpart.1] at hitem
      exact absurd hitem (by simp)

/-- Between fields that have items there are no two separators in a row. -/
theorem single_intercalate (hparts : ∀ part ∈ parts, part ≠ [] ∧
    ∀ item ∈ part, separator item = false) : Single separator ([blank].intercalate parts) := by
  induction parts with
  | nil => exact .nil
  | cons part rest ih =>
      rw [List.forall_mem_cons] at hparts
      cases rest with
      | nil =>
          rw [List.intercalate_singleton]
          exact single_of_field hparts.1.2
      | cons next rest =>
          rw [List.intercalate_cons_cons, List.append_assoc, List.singleton_append]
          apply List.isChain_append.mpr
          refine ⟨single_of_field hparts.1.2, ?_, ?_⟩
          · refine List.isChain_cons.mpr ⟨?_, ih hparts.2⟩
            rintro first hfirst ⟨-, hseparator⟩
            obtain ⟨hne, hnext⟩ := hparts.2 next List.mem_cons_self
            rw [head?_intercalate hne] at hfirst
            rw [hnext first (List.mem_of_head? hfirst)] at hseparator
            exact absurd hseparator (by simp)
          · rintro last hlast first - ⟨hseparator, -⟩
            rw [hparts.1.2 last (List.mem_of_getLast? hlast)] at hseparator
            exact absurd hseparator (by simp)

end Joining

/-! ## Normal form -/

/-- The only separators are single blanks, and there is no white space at the ends. -/
structure Normal (separator white : Item → Bool) (blank : Item) (items : List Item) : Prop where
  blanks : ∀ item ∈ items, separator item = true → item = blank
  single : Single separator items
  first : ∀ first ∈ items.head?, white first = false
  last : ∀ last ∈ items.getLast?, white last = false

/-- The images of some items have no separators and no white space at the ends that the
items do not have. -/
structure Keeps (separator white : Item → Bool) (items images : List Item) : Prop where
  nonempty : items ≠ [] → images ≠ []
  separators : (∀ item ∈ items, separator item = false) → ∀ image ∈ images, separator image = false
  first : (∀ first ∈ items.head?, white first = false) →
    ∀ first ∈ images.head?, white first = false
  last : (∀ last ∈ items.getLast?, white last = false) →
    ∀ last ∈ images.getLast?, white last = false

section Normal

variable {separator white : Item → Bool} {blank : Item} {items images : List Item}

theorem separator_of_not_white (hwhite : ∀ item, separator item = true → white item = true)
    {item : Item} (hitem : white item = false) : separator item = false := by
  apply Bool.eq_false_iff.mpr
  intro hseparator
  rw [hwhite item hseparator] at hitem
  exact absurd hitem (by simp)

/-- Collapsing and trimming change nothing. -/
theorem Normal.trim_collapse (hnormal : Normal separator white blank items) :
    trim white (collapse separator blank false items) = items := by
  rw [collapse_self hnormal.blanks hnormal.single (by simp), trim_self hnormal.first hnormal.last]

/-- What has no white space is kept in full. -/
theorem keeps_of_content (hwhite : ∀ item, separator item = true → white item = true)
    (hnonempty : items ≠ [] → images ≠ []) (hcontent : ∀ image ∈ images, white image = false) :
    Keeps separator white items images := by
  refine ⟨hnonempty, ?_, ?_, ?_⟩
  · exact fun _ image himage => separator_of_not_white hwhite (hcontent image himage)
  · exact fun _ first hfirst => hcontent first (List.mem_of_head? hfirst)
  · exact fun _ last hlast => hcontent last (List.mem_of_getLast? hlast)

/-- White space between two parts stays white space. -/
theorem Keeps.join {rest restImages : List Item} {space image : Item}
    (hitems : Keeps separator white items images) (hrest : Keeps separator white rest restImages)
    (hspace : white space = true) (himage : separator space = false → separator image = false) :
    Keeps separator white (items ++ space :: rest) (images ++ image :: restImages) := by
  refine ⟨by simp, ?_, ?_, ?_⟩
  · intro hnone
    rw [List.forall_mem_append, List.forall_mem_cons] at hnone ⊢
    exact ⟨hitems.separators hnone.1, himage hnone.2.1, hrest.separators hnone.2.2⟩
  · intro hfirst
    cases items with
    | nil =>
        rw [hfirst space rfl] at hspace
        exact absurd hspace (by simp)
    | cons item items =>
        rw [List.head?_append_of_ne_nil _ (List.cons_ne_nil _ _)] at hfirst
        rw [List.head?_append_of_ne_nil _ (hitems.nonempty (List.cons_ne_nil _ _))]
        exact hitems.first hfirst
  · intro hlast
    cases rest with
    | nil =>
        rw [hlast space (by simp)] at hspace
        exact absurd hspace (by simp)
    | cons item rest =>
        have hlater : ∀ (front : List Item) (space : Item) {others : List Item}, others ≠ [] →
            (front ++ space :: others).getLast? = others.getLast? := by
          intro front space others hothers
          rw [List.append_cons, List.getLast?_append_of_ne_nil _ hothers]
        rw [hlater _ _ (List.cons_ne_nil _ _)] at hlast
        rw [hlater _ _ (hrest.nonempty (List.cons_ne_nil _ _))]
        exact hrest.last hlast

/-- The first field starts with the first item. -/
theorem head?_fields (hfirst : ∀ first ∈ items.head?, separator first = false) {field : List Item}
    {others : List (List Item)} (hfields : fields separator items = field :: others) :
    field.head? = items.head? := by
  cases items with
  | nil => exact absurd hfields (by simp [fields, fieldsFrom])
  | cons first rest =>
      obtain ⟨more, later, hcons⟩ := @fieldsFrom_cons _ separator first [] rest
      rw [fields, fieldsFrom, if_neg (by simp [hfirst first rfl]), List.nil_append, hcons,
        List.cons.injEq] at hfields
      rw [← hfields.1]
      rfl

/-- The last field ends in the last item. -/
theorem getLast?_fields (hlast : ∀ last ∈ items.getLast?, separator last = false)
    {field : List Item} {others : List (List Item)}
    (hfields : fields separator items = others ++ [field]) : field.getLast? = items.getLast? := by
  rcases List.eq_nil_or_concat items with rfl | ⟨front, last, rfl⟩
  · exact absurd hfields (by simp [fields, fieldsFrom])
  · rw [List.concat_eq_append] at hlast hfields ⊢
    obtain ⟨before, more, hconcat⟩ := fieldsFrom_concat (hlast last (by simp)) [] front
    rw [fields, hconcat] at hfields
    rw [← List.singleton_inj.mp (List.append_inj_right' hfields rfl), List.getLast?_concat,
      List.getLast?_concat]

/-- Images of fields, joined by blanks, are in normal form. -/
theorem normal_intercalate (hwhite : ∀ item, separator item = true → white item = true)
    (hfirst : ∀ first ∈ items.head?, white first = false)
    (hlast : ∀ last ∈ items.getLast?, white last = false) {image : List Item → List Item}
    (hkeeps : ∀ field ∈ fields separator items, Keeps separator white field (image field)) :
    Normal separator white blank ([blank].intercalate ((fields separator items).map image)) := by
  have hnot : ∀ item, white item = false → separator item = false :=
    fun _ => separator_of_not_white hwhite
  have hparts : ∀ part ∈ (fields separator items).map image,
      part ≠ [] ∧ ∀ item ∈ part, separator item = false := by
    intro part hpart
    obtain ⟨field, hfield, rfl⟩ := List.mem_map.mp hpart
    obtain ⟨hne, hitems⟩ := mem_fields hfield
    have hfieldKeeps := hkeeps field hfield
    exact ⟨hfieldKeeps.nonempty hne, hfieldKeeps.separators fun item hitem => (hitems item hitem).1⟩
  refine ⟨?_, single_intercalate hparts, ?_, ?_⟩
  · intro item hitem hseparator
    rcases mem_intercalate hitem with rfl | ⟨part, hpart, hin⟩
    · rfl
    · rw [(hparts part hpart).2 item hin] at hseparator
      exact absurd hseparator (by simp)
  · cases hfields : fields separator items with
    | nil => simp
    | cons field others =>
        have hfield : field ∈ fields separator items := hfields ▸ List.mem_cons_self
        rw [List.map_cons,
          head?_intercalate ((hkeeps field hfield).nonempty (mem_fields hfield).1)]
        apply (hkeeps field hfield).first
        rw [head?_fields (fun first hhead => hnot first (hfirst first hhead)) hfields]
        exact hfirst
  · rcases List.eq_nil_or_concat (fields separator items) with hnil | ⟨others, field, hfields⟩
    · simp [hnil]
    · rw [List.concat_eq_append] at hfields
      have hfield : field ∈ fields separator items := by simp [hfields]
      rw [hfields, List.map_append, List.map_singleton,
        getLast?_intercalate ((hkeeps field hfield).nonempty (mem_fields hfield).1)]
      apply (hkeeps field hfield).last
      rw [getLast?_fields (fun last hend => hnot last (hlast last hend)) hfields]
      exact hlast

end Normal

end Fields
