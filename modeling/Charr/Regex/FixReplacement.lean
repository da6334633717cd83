import Charr.Library.Loops
import Charr.Regex.Template
import Mathlib.Data.Char
import Mathlib.Data.List.Chain
import Mathlib.Data.List.Lex

/-!
# Replacements in two notations

`str_replace` refers to a group by a backslash and a digit, ICU by a dollar sign and
a number. The translation goes over the pieces between the character boundaries of
the replacement. A piece is most often one character, but it can hold several, and
it is compared as a whole: with the dollar sign, with the backslash, and in the
order of the locale with the strings `0` and `9`.
-/

namespace Charr.FixReplacement

open Template Regex

/-- The character boundaries: no piece is empty, and together they are the text. -/
structure CharacterBreaks where
  pieces : List Char → List (List Char)
  flatten_pieces : ∀ text, (pieces text).flatten = text
  ne_nil_of_mem : ∀ text, ∀ piece ∈ pieces text, piece ≠ []

/-- Splitting reads past a byte order mark in front. -/
def withoutBom : List Char → List Char
  | [] => []
  | char :: rest => if char = '\uFEFF' then rest else char :: rest

/-- `str_split(x, "")`. -/
def strSplit (breaks : CharacterBreaks) (x : List Char) : List (List Char) :=
  breaks.pieces (withoutBom x)

section Translation

variable (breaks : CharacterBreaks) (collates : List Char → List Char → Bool)

/-- `char >= "0" && char <= "9"`. -/
def sortsAsDigit (char : List Char) : Bool :=
  collates ['0'] char && collates char ['9']

/-- What the loop puts out for each piece. -/
def fixPieces : Bool → List (List Char) → List (List Char)
  | _, [] => []
  | true, char :: chars =>
      -- The backslash was held back until now.
      (if char = ['$'] then ['\\', '\\', '$']
      else if sortsAsDigit collates char then '$' :: char
      else '\\' :: char) :: fixPieces false chars
  | false, char :: chars =>
      if char = ['$'] then ['\\', '$'] :: fixPieces false chars
      else if char = ['\\'] then [] :: fixPieces true chars
      else char :: fixPieces false chars

/-- A missing replacement stays missing. -/
def fixReplacementOne : Option (List Char) → Option (List Char)
  | none => none
  | some x => some (fixPieces collates false (strSplit breaks x)).flatten

end Translation

/-! ## What a replacement means -/

/-- What a replacement asks to insert. -/
inductive Insertion where
  | literal (char : Char)
  | group (number : Nat)
  | backslash
  deriving DecidableEq, Repr

/-- A replacement, read from the left: a backslash stands before a digit or before
another backslash. -/
def meaning : List Char → Option (List Insertion)
  | [] => some []
  | char :: rest =>
      if char = '\\' then
        match rest with
        | [] => none
        | escaped :: rest =>
            if escaped = '\\' then (meaning rest).map (.backslash :: ·)
            else if escaped.isDigit then
              (meaning rest).map (.group (escaped.toNat - '0'.toNat) :: ·)
            else none
      else (meaning rest).map (.literal char :: ·)

/-- The text that is inserted for a match with these groups. -/
def inserted (groups : List (List Char)) : List Insertion → Except NativeError (List Char)
  | [] => .ok []
  | .literal char :: insertions => (inserted groups insertions).map (char :: ·)
  | .backslash :: insertions => (inserted groups insertions).map ('\\' :: ·)
  | .group number :: insertions =>
      (appendGroup groups number).bind fun text => (inserted groups insertions).map (text ++ ·)

/-! ## What the translation keeps -/

/-- Behind a group, a digit that makes no number of another group with it. -/
def Separate (icu : Icu) (numCaptureGroups : Nat) : Insertion → Insertion → Prop
  | .group number, .literal char =>
      ∀ value, icu.charDigitValue char = some value → numCaptureGroups < number * 10 + value
  | _, _ => True

/-- A piece that goes into the template as it is, behind a backslash that is open or
not, and whether one is open at its end. It must not bring in a dollar sign or put
the digit of a reference behind its backslash. -/
def literalPiece : Bool → List Char → Option Bool
  | opened, [] => some opened
  | false, char :: rest => if char = '$' then none else literalPiece (char = '\\') rest
  | true, char :: rest => if char = '\\' then literalPiece false rest else none

/-- How far the template and the replacement are apart between two pieces. -/
inductive Reading where
  /-- They are level. -/
  | plain
  /-- A backslash is held back. -/
  | escape
  /-- A backslash that ends a longer piece is in the template. -/
  | quoting
  /-- After such a one, the second backslash is held back. -/
  | late
  deriving DecidableEq, Repr

section Keeps

variable (collates : List Char → List Char → Bool)

/-- How the reader stands behind literal text. -/
def literalReading (opened : Bool) (piece : List Char) : Option Reading :=
  (literalPiece opened piece).map fun opened => if opened then .quoting else .plain

/-- A piece that keeps its meaning, and the reading after it. -/
def keepsPiece : Reading → List Char → Option Reading
  | .plain, piece =>
      if piece = ['$'] then some .plain
      else if piece = ['\\'] then some .escape
      else literalReading false piece
  | .quoting, piece =>
      if piece = ['\\'] then some .late else literalReading true piece
  | .escape, [] => none
  | .escape, char :: rest =>
      if sortsAsDigit collates (char :: rest) = char.isDigit then literalReading false rest
      else none
  | .late, piece =>
      if piece = ['$'] then some .plain
      else if sortsAsDigit collates piece then none
      else literalReading false piece

/-- All pieces keep their meaning, and nothing is held back in the end. -/
def Keeps : Reading → List (List Char) → Prop
  | reading, [] => reading ≠ .late
  | reading, piece :: pieces =>
      ∃ reading', keepsPiece collates reading piece = some reading' ∧ Keeps reading' pieces

end Keeps

/-! ## Groups of one letter -/

/-- A match whose groups are all the same letter: what the template says can be read
off from it. -/
def letterGroups (numCaptureGroups : Nat) : List (List Char) :=
  List.replicate (numCaptureGroups + 1) ['x']

/-- All references name a group. -/
def Named (numCaptureGroups : Nat) (insertions : List Insertion) : Prop :=
  ∀ number, .group number ∈ insertions → number ≤ numCaptureGroups

section Letters

variable {icu : Icu} {namedCapture : List Char → Nat} {numCaptureGroups : Nat}

theorem Named.tail {insertion : Insertion} {insertions : List Insertion}
    (hnamed : Named numCaptureGroups (insertion :: insertions)) :
    Named numCaptureGroups insertions :=
  fun number hmem => hnamed number (List.mem_cons_of_mem _ hmem)

@[simp] theorem length_letterGroups :
    (letterGroups numCaptureGroups).length = numCaptureGroups + 1 :=
  List.length_replicate

/-- Every group has the text `x`. -/
theorem appendGroup_letterGroups {number : Nat} (hnumber : number ≤ numCaptureGroups) :
    appendGroup (letterGroups numCaptureGroups) number = .ok ['x'] := by
  rw [appendGroup, letterGroups, List.getElem?_replicate_of_lt (Nat.lt_succ_of_le hnumber)]

/-- What is appended for a group is `x`. -/
theorem eq_letter_of_appendGroup {number : Nat} {text : List Char}
    (htext : appendGroup (letterGroups numCaptureGroups) number = .ok text) : text = ['x'] := by
  rw [appendGroup] at htext
  split at htext
  next => cases htext
  next found hfound =>
    obtain rfl := Except.ok.inj htext
    exact List.eq_of_mem_replicate (List.mem_of_getElem? hfound)

/-- What is put in for an insertion then. -/
def Insertion.letter : Insertion → Char
  | .literal char => char
  | .backslash => '\\'
  | .group _ => 'x'

/-- Inserted text begins with the letter of its insertion. -/
theorem head_inserted {insertion : Insertion} {insertions : List Insertion} {text : List Char}
    (htext : inserted (letterGroups numCaptureGroups) (insertion :: insertions) = .ok text) :
    text.head? = some insertion.letter := by
  cases insertion with
  | literal char =>
      obtain ⟨rest, -, rfl⟩ := Loops.except_map_ok htext
      rfl
  | backslash =>
      obtain ⟨rest, -, rfl⟩ := Loops.except_map_ok htext
      rfl
  | group number =>
      obtain ⟨letter, hgroup, hrest⟩ := Loops.except_bind_ok htext
      obtain rfl := eq_letter_of_appendGroup hgroup
      obtain ⟨rest, -, rfl⟩ := Loops.except_map_ok hrest
      rfl

/-- Every insertion puts in one character. -/
theorem inserted_letterGroups {insertions : List Insertion}
    (hnamed : Named numCaptureGroups insertions) :
    ∃ text, inserted (letterGroups numCaptureGroups) insertions = .ok text ∧
      text.length = insertions.length := by
  induction insertions with
  | nil => exact ⟨[], rfl, rfl⟩
  | cons insertion insertions ih =>
      obtain ⟨text, htext, hlength⟩ := ih hnamed.tail
      cases insertion with
      | literal char => exact ⟨char :: text, by rw [inserted, htext]; rfl, by simp [hlength]⟩
      | backslash => exact ⟨'\\' :: text, by rw [inserted, htext]; rfl, by simp [hlength]⟩
      | group number =>
          have hgroup := appendGroup_letterGroups (hnamed number List.mem_cons_self)
          exact ⟨'x' :: text, by rw [inserted, hgroup, htext]; rfl, by simp [hlength]⟩

/-- A group stands for one letter, and the rest of the template for itself. -/
theorem letters_of_dollar {template text : List Char}
    (htext : appendReplacement icu namedCapture (letterGroups numCaptureGroups)
      ('$' :: template) = .ok text) :
    ∃ number rest after,
      groupReference icu namedCapture (letterGroups numCaptureGroups) template =
        .ok (number, rest) ∧
      appendReplacement icu namedCapture (letterGroups numCaptureGroups) rest = .ok after ∧
      text = 'x' :: after := by
  rw [appendReplacement_dollar] at htext
  obtain ⟨⟨number, rest⟩, hreference, htext⟩ := Loops.except_bind_ok htext
  obtain ⟨letter, hgroup, htext⟩ := Loops.except_bind_ok htext
  obtain ⟨after, hafter, rfl⟩ := Loops.except_map_ok htext
  obtain rfl := eq_letter_of_appendGroup hgroup
  exact ⟨number, rest, after, hreference, hafter, rfl⟩

end Letters

/-! ## Template and replacement side by side -/

section Decides

variable {icu : Icu} {namedCapture : List Char → Nat} {numCaptureGroups : Nat}

variable (icu namedCapture numCaptureGroups) in
/-- The template inserts what is asked for exactly when `good` holds. Only matches with
all the groups that are referred to can tell, and one with groups of a letter does. -/
structure Decides (good : Prop) (template : List Char) (insertions : List Insertion) : Prop where
  sufficient : good → ∀ groups, groups.length = numCaptureGroups + 1 →
    appendReplacement icu namedCapture groups template = inserted groups insertions
  necessary : Named numCaptureGroups insertions →
    appendReplacement icu namedCapture (letterGroups numCaptureGroups) template =
      inserted (letterGroups numCaptureGroups) insertions → good
  /-- No template makes more than it should. -/
  shorter : ∀ text,
    appendReplacement icu namedCapture (letterGroups numCaptureGroups) template = .ok text →
      text.length ≤ insertions.length
  /-- A digit in front of the template is one in front of the replacement. -/
  digits : ∀ char, (icu.charDigitValue char).isSome = true →
    (template.head? = some char ↔ insertions.head? = some (.literal char))

variable {good : Prop} {template : List Char} {insertions : List Insertion}

theorem Decides.of_iff {good' : Prop} (hiff : good ↔ good')
    (h : Decides icu namedCapture numCaptureGroups good template insertions) :
    Decides icu namedCapture numCaptureGroups good' template insertions :=
  propext hiff ▸ h

/-- The empty template inserts nothing. -/
theorem Decides.nil : Decides icu namedCapture numCaptureGroups True [] [] where
  sufficient _ _ _ := appendReplacement_nil
  necessary _ _ := trivial
  shorter text htext := by
    obtain rfl := Except.ok.inj (appendReplacement_nil.symm.trans htext)
    exact le_rfl
  digits char _ := by simp

/-- One more character on both sides. -/
theorem Decides.cons {template' : List Char} {insertion : Insertion} {char : Char}
    (htemplate : ∀ groups, appendReplacement icu namedCapture groups template' =
      (appendReplacement icu namedCapture groups template).map (char :: ·))
    (hinserted : ∀ groups, inserted groups (insertion :: insertions) =
      (inserted groups insertions).map (char :: ·))
    (hdigits : ∀ char, (icu.charDigitValue char).isSome = true →
      (template'.head? = some char ↔ insertion = .literal char))
    (h : Decides icu namedCapture numCaptureGroups good template insertions) :
    Decides icu namedCapture numCaptureGroups good template' (insertion :: insertions) where
  sufficient hgood groups hgroups := by
    rw [htemplate, hinserted, h.sufficient hgood groups hgroups]
  necessary hnamed heq := by
    rw [htemplate, hinserted] at heq
    obtain ⟨text, htext, -⟩ := inserted_letterGroups hnamed.tail
    rw [htext] at heq
    obtain ⟨result, hresult, hsame⟩ := Loops.except_map_ok heq
    refine h.necessary hnamed.tail ?_
    rw [htext, hresult, List.tail_eq_of_cons_eq hsame]
  shorter text htext := by
    rw [htemplate] at htext
    obtain ⟨result, hresult, rfl⟩ := Loops.except_map_ok htext
    exact Nat.succ_le_succ (h.shorter result hresult)
  digits char hchar := by simpa using hdigits char hchar

/-- A plain character inserts itself. -/
theorem Decides.literal {char : Char} (hplain : IsPlain char)
    (h : Decides icu namedCapture numCaptureGroups good template insertions) :
    Decides icu namedCapture numCaptureGroups good (char :: template)
      (.literal char :: insertions) :=
  h.cons (fun _ => appendReplacement_plain hplain template) (fun _ => rfl) (by simp)

/-- No digit is in front of either side. -/
theorem digits_of_head {template' : List Char} {insertion : Insertion} {first : Char}
    (hfirst : template'.head? = some first) (hspecial : ¬ IsPlain first)
    (hinsertion : ∀ char, IsPlain char → insertion ≠ .literal char) :
    ∀ char, (icu.charDigitValue char).isSome = true →
      (template'.head? = some char ↔ insertion = .literal char) := by
  intro char hchar
  obtain ⟨value, hvalue⟩ := Option.isSome_iff_exists.mp hchar
  have hplain := isPlain_of_charDigitValue hvalue
  refine iff_of_false ?_ (hinsertion char hplain)
  rw [hfirst]
  exact fun heq => hspecial (Option.some.inj heq ▸ hplain)

theorem not_isPlain_backslash : ¬ IsPlain '\\' := fun hplain => hplain.1 rfl

theorem not_isPlain_dollar : ¬ IsPlain '$' := fun hplain => hplain.2 rfl

/-- An escaped backslash inserts a backslash. -/
theorem Decides.escaped
    (h : Decides icu namedCapture numCaptureGroups good template insertions) :
    Decides icu namedCapture numCaptureGroups good ('\\' :: '\\' :: template)
      (.backslash :: insertions) :=
  h.cons (fun _ => appendReplacement_quoted (by decide) (by decide) template) (fun _ => rfl)
    (digits_of_head rfl not_isPlain_backslash fun _ _ => by simp)

/-- An escaped dollar inserts a dollar. -/
theorem Decides.escapedDollar
    (h : Decides icu namedCapture numCaptureGroups good template insertions) :
    Decides icu namedCapture numCaptureGroups good ('\\' :: '$' :: template)
      (.literal '$' :: insertions) :=
  h.cons (fun _ => appendReplacement_quoted (by decide) (by decide) template) (fun _ => rfl)
    (digits_of_head rfl not_isPlain_backslash fun _ hplain heq =>
      not_isPlain_dollar (Insertion.literal.inj heq ▸ hplain))

/-- The template puts in another character first, and no more than it should. -/
theorem Decides.never {template' : List Char} {insertion : Insertion}
    (hfirst : ∀ text, appendReplacement icu namedCapture (letterGroups numCaptureGroups)
      template' = .ok text → text.head? ≠ some insertion.letter)
    (hshorter : ∀ text, appendReplacement icu namedCapture (letterGroups numCaptureGroups)
      template' = .ok text → text.length ≤ insertions.length + 1)
    (hdigits : ∀ char, (icu.charDigitValue char).isSome = true →
      (template'.head? = some char ↔ insertion = .literal char)) :
    Decides icu namedCapture numCaptureGroups False template' (insertion :: insertions) where
  sufficient hgood := hgood.elim
  necessary hnamed heq := by
    obtain ⟨text, htext, -⟩ := inserted_letterGroups hnamed
    exact hfirst text (heq.trans htext) (head_inserted htext)
  shorter := hshorter
  digits char hchar := by simpa using hdigits char hchar

/-- A character is quoted that is not what is asked for. -/
theorem Decides.misquoted {char : Char} {insertion : Insertion} (hupper : char ≠ 'U')
    (hlower : char ≠ 'u') (hne : char ≠ insertion.letter)
    (hinsertion : ∀ char, IsPlain char → insertion ≠ .literal char)
    (h : Decides icu namedCapture numCaptureGroups good template insertions) :
    Decides icu namedCapture numCaptureGroups False ('\\' :: char :: template)
      (insertion :: insertions) := by
  refine .never (fun text htext => ?_) (fun text htext => ?_)
    (digits_of_head rfl not_isPlain_backslash hinsertion)
  all_goals
    rw [appendReplacement_quoted hupper hlower] at htext
    obtain ⟨rest, hrest, rfl⟩ := Loops.except_map_ok htext
  · exact fun heq => hne (Option.some.inj heq)
  · exact Nat.succ_le_succ (h.shorter rest hrest)

theorem ne_of_isDigit {char other : Char} (hchar : char.isDigit = true)
    (hother : other.isDigit = false) : char ≠ other := by
  rintro rfl
  exact Bool.false_ne_true (hother.symm.trans hchar)

/-- The digit of a reference is quoted. -/
theorem Decides.misquotedDigit {char : Char} {number : Nat} (hchar : char.isDigit = true)
    (h : Decides icu namedCapture numCaptureGroups good template insertions) :
    Decides icu namedCapture numCaptureGroups False ('\\' :: char :: template)
      (.group number :: insertions) :=
  h.misquoted (ne_of_isDigit hchar rfl) (ne_of_isDigit hchar rfl) (ne_of_isDigit hchar rfl)
    fun _ _ => by simp

/-- A dollar sign of the replacement is bare in the template. -/
theorem Decides.bareDollar
    (h : Decides icu namedCapture numCaptureGroups good template insertions) :
    Decides icu namedCapture numCaptureGroups False ('$' :: template)
      (.literal '$' :: insertions) := by
  refine .never (fun text htext => ?_) (fun text htext => ?_)
    (digits_of_head rfl not_isPlain_dollar fun _ hplain heq =>
      not_isPlain_dollar (Insertion.literal.inj heq ▸ hplain))
  all_goals obtain ⟨number, rest, after, hreference, hafter, rfl⟩ := letters_of_dollar htext
  · simp [Insertion.letter]
  · obtain ⟨consumed, rfl, hplain⟩ := groupReference_consumes icu namedCapture _ hreference
    have hwhole := h.shorter (consumed ++ after) (by
      rw [appendReplacement_append hplain, hafter]
      rfl)
    rw [List.length_append] at hwhole
    rw [List.length_cons]
    omega

/-- A dollar sign before a backslash refers to nothing. -/
theorem Decides.strayDollar {insertion : Insertion}
    (hinsertion : ∀ char, IsPlain char → insertion ≠ .literal char) :
    Decides icu namedCapture numCaptureGroups False ('$' :: '\\' :: template)
      (insertion :: insertions) := by
  have hfails : ∀ text, appendReplacement icu namedCapture (letterGroups numCaptureGroups)
      ('$' :: '\\' :: template) ≠ .ok text := by
    intro text htext
    obtain ⟨number, rest, after, hreference, -⟩ := letters_of_dollar htext
    simp [groupReference, Icu.charDigitValue] at hreference
  exact .never (fun text htext => absurd htext (hfails text))
    (fun text htext => absurd htext (hfails text))
    (digits_of_head rfl not_isPlain_dollar hinsertion)

/-- The template ends in a backslash. -/
theorem Decides.unfinished :
    Decides icu namedCapture numCaptureGroups False ['\\'] (.backslash :: insertions) := by
  refine .never (fun text htext => ?_) (fun text htext => ?_)
    (digits_of_head rfl not_isPlain_backslash fun _ _ => by simp)
  all_goals obtain rfl := Except.ok.inj (appendReplacement_open.symm.trans htext)
  · simp
  · exact Nat.zero_le _

/-- A reference begins neither side with a digit. -/
theorem digits_of_reference (digit : Char) (template : List Char) (number : Nat)
    (insertions : List Insertion) (char : Char) (hchar : (icu.charDigitValue char).isSome = true) :
    ('$' :: digit :: template).head? = some char ↔
      (Insertion.group number :: insertions).head? = some (.literal char) := by
  simpa using @digits_of_head icu ('$' :: digit :: template) (.group number) _ rfl
    not_isPlain_dollar (fun _ _ => by simp) char hchar

/-- A reference inserts its group, if no digit behind it would be read along. -/
theorem Decides.reference {digit : Char} {number : Nat}
    (hdigit : icu.charDigitValue digit = some number)
    (hends : Ends icu numCaptureGroups number template)
    (h : Decides icu namedCapture numCaptureGroups good template insertions) :
    Decides icu namedCapture numCaptureGroups good ('$' :: digit :: template)
      (.group number :: insertions) where
  sufficient hgood groups hgroups := by
    rw [appendReplacement_group hgroups hdigit hends, h.sufficient hgood groups hgroups]
    rfl
  necessary hnamed heq := by
    rw [appendReplacement_group length_letterGroups hdigit hends, inserted,
      appendGroup_letterGroups (hnamed number List.mem_cons_self)] at heq
    obtain ⟨text, htext, -⟩ := inserted_letterGroups hnamed.tail
    rw [htext] at heq
    obtain ⟨result, hresult, hsame⟩ := Loops.except_map_ok heq
    refine h.necessary hnamed.tail ?_
    rw [htext, hresult, List.append_cancel_left hsame]
  shorter text htext := by
    rw [appendReplacement_group length_letterGroups hdigit hends] at htext
    obtain ⟨letter, hletter, htext⟩ := Loops.except_bind_ok htext
    obtain ⟨result, hresult, rfl⟩ := Loops.except_map_ok htext
    obtain rfl := eq_letter_of_appendGroup hletter
    exact Nat.succ_le_succ (h.shorter result hresult)
  digits := digits_of_reference digit template number insertions

/-- A digit of the replacement is consumed with the number, so there is too little left
to put in. -/
theorem Decides.swallowed {digit : Char} {number : Nat}
    (hdigit : icu.charDigitValue digit = some number)
    (hends : ¬ Ends icu numCaptureGroups number template)
    (h : Decides icu namedCapture numCaptureGroups good template insertions) :
    Decides icu namedCapture numCaptureGroups False ('$' :: digit :: template)
      (.group number :: insertions) := by
  have hless : ∀ text, appendReplacement icu namedCapture (letterGroups numCaptureGroups)
      ('$' :: digit :: template) = .ok text → text.length ≤ insertions.length := by
    intro text htext
    obtain ⟨group, rest, after, hreference, hafter, rfl⟩ := letters_of_dollar htext
    obtain ⟨next, consumed, rfl, hplain⟩ :=
      groupReference_of_not_ends length_letterGroups hdigit hends hreference
    have hwhole := h.shorter (next :: (consumed ++ after)) (by
      rw [← List.cons_append, appendReplacement_append hplain, hafter]
      rfl)
    rw [List.length_cons, List.length_append] at hwhole
    rw [List.length_cons]
    omega
  refine ⟨False.elim, fun hnamed heq => ?_, fun text htext => Nat.le_succ_of_le (hless text htext),
    digits_of_reference digit template number insertions⟩
  obtain ⟨text, htext, hlength⟩ := inserted_letterGroups hnamed
  have hle := hless text (heq.trans htext)
  rw [hlength] at hle
  exact absurd hle (Nat.not_succ_le_self _)

/-! ## Piece by piece -/

theorem separate_of_ne_group {insertion : Insertion}
    (hinsertion : ∀ number, insertion ≠ .group number) (next : Insertion) :
    Separate icu numCaptureGroups insertion next := by
  cases insertion with
  | literal char => trivial
  | backslash => trivial
  | group number => exact absurd rfl (hinsertion number)

/-- Only references must be kept apart from what follows. -/
theorem isChain_cons_iff {insertion : Insertion}
    (hinsertion : ∀ number, insertion ≠ .group number) :
    (insertion :: insertions).IsChain (Separate icu numCaptureGroups) ↔
      insertions.IsChain (Separate icu numCaptureGroups) := by
  rw [List.isChain_cons]
  exact and_iff_right fun next _ => separate_of_ne_group hinsertion next

/-- Where a number ends can be seen in the replacement. -/
theorem Decides.ends_iff (number : Nat)
    (h : Decides icu namedCapture numCaptureGroups good template insertions) :
    Ends icu numCaptureGroups number template ↔
      ∀ next ∈ insertions.head?, Separate icu numCaptureGroups (.group number) next := by
  constructor
  · intro hends next hnext
    cases next with
    | literal char =>
        intro value hvalue
        have hchar : (icu.charDigitValue char).isSome = true := hvalue ▸ rfl
        exact hends char ((h.digits char hchar).mpr hnext) value hvalue
    | backslash => trivial
    | group number' => trivial
  · intro hseparate char hchar value hvalue
    have hdigit : (icu.charDigitValue char).isSome = true := hvalue ▸ rfl
    exact hseparate _ ((h.digits char hdigit).mp hchar) value hvalue

/-- A reference in the template, with what follows it in the replacement. -/
theorem Decides.group {digit : Char} {number : Nat}
    (hdigit : icu.charDigitValue digit = some number)
    (h : Decides icu namedCapture numCaptureGroups
      (good ∧ insertions.IsChain (Separate icu numCaptureGroups)) template insertions) :
    Decides icu namedCapture numCaptureGroups
      (good ∧ (Insertion.group number :: insertions).IsChain (Separate icu numCaptureGroups))
      ('$' :: digit :: template) (.group number :: insertions) := by
  rw [List.isChain_cons, ← h.ends_iff number]
  by_cases hends : Ends icu numCaptureGroups number template
  · exact (h.reference hdigit hends).of_iff (by simp only [hends, true_and])
  · exact (h.swallowed hdigit hends).of_iff (by simp only [hends, false_and, and_false])

/-- What a plain character means. -/
theorem meaning_plain {char : Char} (hchar : char ≠ '\\') {rest : List Char}
    (hmeaning : meaning (char :: rest) = some insertions) :
    ∃ insertions', insertions = .literal char :: insertions' ∧
      meaning rest = some insertions' := by
  rw [meaning.eq_def] at hmeaning
  dsimp only at hmeaning
  rw [if_neg hchar] at hmeaning
  obtain ⟨insertions', hrest, rfl⟩ := Option.map_eq_some_iff.mp hmeaning
  exact ⟨insertions', rfl, hrest⟩

/-- What a backslash and a character mean. -/
theorem meaning_escaped {char : Char} {rest : List Char}
    (hmeaning : meaning ('\\' :: char :: rest) = some insertions) :
    ∃ insertions', meaning rest = some insertions' ∧
      (char = '\\' ∧ insertions = .backslash :: insertions' ∨
        char.isDigit = true ∧
          insertions = .group (char.toNat - '0'.toNat) :: insertions') := by
  rw [meaning, if_pos rfl] at hmeaning
  split_ifs at hmeaning with hbackslash hdigit
  · obtain ⟨insertions', hrest, rfl⟩ := Option.map_eq_some_iff.mp hmeaning
    exact ⟨insertions', hrest, .inl ⟨hbackslash, rfl⟩⟩
  · obtain ⟨insertions', hrest, rfl⟩ := Option.map_eq_some_iff.mp hmeaning
    exact ⟨insertions', hrest, .inr ⟨hdigit, rfl⟩⟩

/-- The backslash that is open. -/
def openText (opened : Bool) : List Char :=
  if opened then ['\\'] else []

/-- A piece that goes into the template as it is, before two rests that are settled. -/
theorem decides_literalPiece {good : Bool → Prop} {template source : List Char}
    (hrest : ∀ opened insertions, meaning (openText opened ++ source) = some insertions →
      Decides icu namedCapture numCaptureGroups
        (good opened ∧ insertions.IsChain (Separate icu numCaptureGroups))
        (openText opened ++ template) insertions)
    (piece : List Char) (opened : Bool) {insertions : List Insertion}
    (hmeaning : meaning (openText opened ++ (piece ++ source)) = some insertions) :
    Decides icu namedCapture numCaptureGroups
      ((∃ opened', literalPiece opened piece = some opened' ∧ good opened') ∧
        insertions.IsChain (Separate icu numCaptureGroups))
      (openText opened ++ (piece ++ template)) insertions := by
  induction piece generalizing opened insertions with
  | nil =>
      refine (hrest opened insertions hmeaning).of_iff (and_congr_left' ?_)
      simp [literalPiece]
  | cons char piece ih =>
      cases opened with
      | false =>
          by_cases hbackslash : char = '\\'
          · subst hbackslash
            exact ih true hmeaning
          · obtain ⟨insertions', rfl, hmeaning'⟩ := meaning_plain hbackslash hmeaning
            have hih := ih false hmeaning'
            by_cases hdollar : char = '$'
            · subst hdollar
              exact hih.bareDollar.of_iff (by simp [literalPiece])
            · refine (hih.literal ⟨hbackslash, hdollar⟩).of_iff ?_
              rw [isChain_cons_iff (by simp)]
              simp [literalPiece, hbackslash, hdollar]
      | true =>
          obtain ⟨insertions', hmeaning', hcases⟩ := meaning_escaped hmeaning
          have hih := ih false hmeaning'
          rcases hcases with ⟨rfl, rfl⟩ | ⟨hdigit, rfl⟩
          · refine hih.escaped.of_iff ?_
            rw [isChain_cons_iff (by simp)]
            simp [literalPiece]
          · refine (hih.misquotedDigit hdigit).of_iff ?_
            simp [literalPiece, ne_of_isDigit hdigit (show '\\'.isDigit = false from rfl)]

variable (collates : List Char → List Char → Bool)

/-- What is still to come of the template, with the backslash that is open in it. -/
def templateFrom : Reading → List (List Char) → List Char
  | .plain, pieces => (fixPieces collates false pieces).flatten
  | .escape, pieces => (fixPieces collates true pieces).flatten
  | .quoting, pieces => '\\' :: (fixPieces collates false pieces).flatten
  | .late, pieces => '\\' :: (fixPieces collates true pieces).flatten

/-- What is still to come of the replacement. -/
def sourceFrom : Reading → List (List Char) → List Char
  | .plain, pieces => pieces.flatten
  | .escape, pieces => '\\' :: pieces.flatten
  | .quoting, pieces => '\\' :: pieces.flatten
  | .late, pieces => '\\' :: '\\' :: pieces.flatten

variable (icu namedCapture numCaptureGroups) in
/-- The rest of the pieces is settled, in whatever way they are read. -/
def Settled (pieces : List (List Char)) : Prop :=
  ∀ reading insertions, meaning (sourceFrom reading pieces) = some insertions →
    Decides icu namedCapture numCaptureGroups
      (Keeps collates reading pieces ∧ insertions.IsChain (Separate icu numCaptureGroups))
      (templateFrom collates reading pieces) insertions

section Step

variable {collates} {piece : List Char} {pieces : List (List Char)}
  (hsettled : Settled icu namedCapture numCaptureGroups collates pieces)

include hsettled

/-- A piece that is copied. -/
theorem decides_literalReading (opened : Bool) (piece : List Char)
    (hmeaning : meaning (openText opened ++ (piece ++ pieces.flatten)) = some insertions) :
    Decides icu namedCapture numCaptureGroups
      ((∃ reading, literalReading opened piece = some reading ∧ Keeps collates reading pieces) ∧
        insertions.IsChain (Separate icu numCaptureGroups))
      (openText opened ++ (piece ++ (fixPieces collates false pieces).flatten)) insertions := by
  have hrest : ∀ opened insertions, meaning (openText opened ++ pieces.flatten) = some insertions →
      Decides icu namedCapture numCaptureGroups
        (Keeps collates (if opened then .quoting else .plain) pieces ∧
          insertions.IsChain (Separate icu numCaptureGroups))
        (openText opened ++ (fixPieces collates false pieces).flatten) insertions := by
    intro opened insertions hmeaning
    cases opened with
    | false => exact hsettled .plain insertions hmeaning
    | true => exact hsettled .quoting insertions hmeaning
  have hpiece := decides_literalPiece hrest piece opened hmeaning
  refine hpiece.of_iff (and_congr_left' ?_)
  simp only [literalReading, Option.map_eq_some_iff]
  constructor
  · rintro ⟨opened', hopened, hkeeps⟩
    exact ⟨_, ⟨opened', hopened, rfl⟩, hkeeps⟩
  · rintro ⟨_, ⟨opened', hopened, rfl⟩, hkeeps⟩
    exact ⟨opened', hopened, hkeeps⟩

/-- Outside a literal part the template inserts what is meant. -/
theorem decides_plain
    (hmeaning : meaning (sourceFrom .plain (piece :: pieces)) = some insertions) :
    Decides icu namedCapture numCaptureGroups
      (Keeps collates .plain (piece :: pieces) ∧
        insertions.IsChain (Separate icu numCaptureGroups))
      (templateFrom collates .plain (piece :: pieces)) insertions := by
  by_cases hdollar : piece = ['$']
  · subst hdollar
    obtain ⟨insertions', rfl, hmeaning'⟩ := meaning_plain (by decide) hmeaning
    refine (hsettled .plain insertions' hmeaning').escapedDollar.of_iff ?_
    rw [isChain_cons_iff (by simp)]
    simp [Keeps, keepsPiece]
  · simp only [templateFrom, fixPieces, Keeps, keepsPiece, if_neg hdollar]
    by_cases hbackslash : piece = ['\\']
    · subst hbackslash
      exact (hsettled .escape insertions hmeaning).of_iff (by simp)
    · simp only [if_neg hbackslash]
      exact decides_literalReading hsettled false piece hmeaning

theorem decides_quoting
    (hmeaning : meaning (sourceFrom .quoting (piece :: pieces)) = some insertions) :
    Decides icu namedCapture numCaptureGroups
      (Keeps collates .quoting (piece :: pieces) ∧
        insertions.IsChain (Separate icu numCaptureGroups))
      (templateFrom collates .quoting (piece :: pieces)) insertions := by
  by_cases hdollar : piece = ['$']
  · subst hdollar
    obtain ⟨insertions', -, ⟨hchar, -⟩ | ⟨hdigit, -⟩⟩ := meaning_escaped hmeaning
    · exact absurd hchar (by decide)
    · exact absurd hdigit (by decide)
  · simp only [templateFrom, fixPieces, Keeps, keepsPiece, if_neg hdollar]
    by_cases hbackslash : piece = ['\\']
    · subst hbackslash
      exact (hsettled .late insertions hmeaning).of_iff (by simp)
    · simp only [if_neg hbackslash]
      exact decides_literalReading hsettled true piece hmeaning

/-- The held back backslash and the first character of the piece belong together. -/
theorem decides_escape (hpiece : piece ≠ [])
    (hmeaning : meaning (sourceFrom .escape (piece :: pieces)) = some insertions) :
    Decides icu namedCapture numCaptureGroups
      (Keeps collates .escape (piece :: pieces) ∧
        insertions.IsChain (Separate icu numCaptureGroups))
      (templateFrom collates .escape (piece :: pieces)) insertions := by
  cases piece with
  | nil => exact absurd rfl hpiece
  | cons char rest =>
      obtain ⟨insertions', hmeaning', hcases⟩ := meaning_escaped hmeaning
      have hrest := decides_literalReading hsettled false rest hmeaning'
      simp only [templateFrom, fixPieces, Keeps, keepsPiece]
      rcases hcases with ⟨rfl, rfl⟩ | ⟨hdigit, rfl⟩
      · have hdigit : '\\'.isDigit = false := rfl
        have hdollar : '\\' :: rest ≠ ['$'] := by simp
        rw [isChain_cons_iff (by simp), hdigit, if_neg hdollar]
        cases hsorts : sortsAsDigit collates ('\\' :: rest) with
        | false => exact hrest.escaped.of_iff (by simp)
        | true => exact (Decides.strayDollar fun _ _ => by simp).of_iff (by simp)
      · have hdollar : char :: rest ≠ ['$'] := fun heq =>
          ne_of_isDigit hdigit (show '$'.isDigit = false from rfl) (List.head_eq_of_cons_eq heq)
        rw [if_neg hdollar]
        cases hsorts : sortsAsDigit collates (char :: rest) with
        | false => exact (hrest.misquotedDigit hdigit).of_iff (by simp [hdigit])
        | true =>
            refine (hrest.group ?_).of_iff (by simp [hdigit])
            rw [Icu.charDigitValue, if_pos hdigit]

/-- Both backslashes are before the piece, one of them held back. -/
theorem decides_late
    (hmeaning : meaning (sourceFrom .late (piece :: pieces)) = some insertions) :
    Decides icu namedCapture numCaptureGroups
      (Keeps collates .late (piece :: pieces) ∧
        insertions.IsChain (Separate icu numCaptureGroups))
      (templateFrom collates .late (piece :: pieces)) insertions := by
  obtain ⟨insertions', hmeaning', ⟨-, rfl⟩ | ⟨hdigit, -⟩⟩ := meaning_escaped hmeaning
  · simp only [templateFrom, fixPieces, Keeps, keepsPiece]
    rw [isChain_cons_iff (by simp)]
    split
    next hdollar =>
      subst hdollar
      obtain ⟨insertions'', rfl, hmeaning''⟩ := meaning_plain (by decide) hmeaning'
      refine (hsettled .plain insertions'' hmeaning'').escapedDollar.escaped.of_iff ?_
      rw [isChain_cons_iff (by simp)]
      simp
    next =>
      have hrest := decides_literalReading hsettled false piece hmeaning'
      split
      next =>
        have hdollar : '$' ≠ Insertion.backslash.letter := by decide
        have hnever := hrest.misquoted (by decide) (by decide) hdollar fun _ _ => by simp
        exact hnever.of_iff (by simp)
      next => exact hrest.escaped
  · exact absurd hdigit (by decide)

end Step

/-- All pieces, in whatever way the first of them is read. -/
theorem settled (pieces : List (List Char)) (hpieces : ∀ piece ∈ pieces, piece ≠ []) :
    Settled icu namedCapture numCaptureGroups collates pieces := by
  induction pieces with
  | nil =>
      intro reading insertions hmeaning
      cases reading with
      | plain =>
          obtain rfl := Option.some.inj hmeaning
          exact Decides.nil.of_iff (by simp [Keeps])
      | escape => nomatch hmeaning
      | quoting => nomatch hmeaning
      | late =>
          obtain rfl := Option.some.inj hmeaning
          exact Decides.unfinished.of_iff (by simp [Keeps])
  | cons piece pieces ih =>
      obtain ⟨hpiece, hrest⟩ := List.forall_mem_cons.mp hpieces
      intro reading insertions hmeaning
      cases reading with
      | plain => exact decides_plain (ih hrest) hmeaning
      | escape => exact decides_escape (ih hrest) hpiece hmeaning
      | quoting => exact decides_quoting (ih hrest) hmeaning
      | late => exact decides_late (ih hrest) hmeaning

end Decides

/-! ## The whole replacement -/

section Whole

variable (breaks : CharacterBreaks) (collates : List Char → List Char → Bool) (icu : Icu)
  (namedCapture : List Char → Nat) (numCaptureGroups : Nat)

/-- The template inserts what the replacement asks for, whatever the groups have matched. -/
def Inserts (text : List Char) (insertions : List Insertion) : Prop :=
  ∀ groups, groups.length = numCaptureGroups + 1 →
    (fixReplacementOne breaks collates (some text)).map
      (appendReplacement icu namedCapture groups) = some (inserted groups insertions)

/-- The replacements that keep their meaning. -/
structure Translates (text : List Char) (insertions : List Insertion) : Prop where
  unmarked : text.head? ≠ some '\uFEFF'
  keeps : Keeps collates .plain (strSplit breaks text)
  separate : insertions.IsChain (Separate icu numCaptureGroups)

variable {breaks collates icu namedCapture numCaptureGroups}
variable {text : List Char} {insertions : List Insertion}

theorem withoutBom_of_unmarked (hunmarked : text.head? ≠ some '\uFEFF') :
    withoutBom text = text := by
  cases text with
  | nil => rfl
  | cons char rest => exact if_neg fun heq => hunmarked (congrArg some heq)

variable (breaks collates icu namedCapture numCaptureGroups) in
/-- The pieces of a text, without what is cut off in front. -/
theorem decides_template (hmeaning : meaning (withoutBom text) = some insertions) :
    Decides icu namedCapture numCaptureGroups
      (Keeps collates .plain (strSplit breaks text) ∧
        insertions.IsChain (Separate icu numCaptureGroups))
      (fixPieces collates false (strSplit breaks text)).flatten insertions := by
  refine settled collates _ (breaks.ne_nil_of_mem _) .plain insertions ?_
  rw [sourceFrom, breaks.flatten_pieces]
  exact hmeaning

/-- The template inserts what the replacement asks for when the replacement keeps its
meaning, and for the replacements whose references all name a group only then. -/
theorem fixReplacementOne_inserts_iff (hmeaning : meaning text = some insertions) :
    (Translates breaks collates icu numCaptureGroups text insertions →
      Inserts breaks collates icu namedCapture numCaptureGroups text insertions) ∧
    (Named numCaptureGroups insertions →
      Inserts breaks collates icu namedCapture numCaptureGroups text insertions →
      Translates breaks collates icu numCaptureGroups text insertions) := by
  constructor
  · intro htranslates groups hgroups
    have hdecides := decides_template breaks collates icu namedCapture numCaptureGroups
      ((withoutBom_of_unmarked htranslates.unmarked).symm ▸ hmeaning)
    exact congrArg some (hdecides.sufficient ⟨htranslates.keeps, htranslates.separate⟩
      groups hgroups)
  · intro hnamed hinserts
    have hletters := Option.some.inj (hinserts _ length_letterGroups)
    by_cases hmark : text.head? = some '\uFEFF'
    · -- The mark is missing in the template, which makes no more of the rest than it should.
      obtain ⟨rest, rfl⟩ := List.head?_eq_some_iff.mp hmark
      obtain ⟨insertions', rfl, hmeaning'⟩ := meaning_plain (by decide) hmeaning
      have hdecides := @decides_template breaks collates icu namedCapture numCaptureGroups
        ('\uFEFF' :: rest) insertions' hmeaning'
      obtain ⟨result, hresult, hlength⟩ := inserted_letterGroups hnamed
      have hle := hdecides.shorter result (hletters.trans hresult)
      rw [hlength] at hle
      exact absurd hle (Nat.not_succ_le_self _)
    · have hdecides := decides_template breaks collates icu namedCapture numCaptureGroups
        ((withoutBom_of_unmarked hmark).symm ▸ hmeaning)
      obtain ⟨hkeeps, hseparate⟩ := hdecides.necessary hnamed hletters
      exact ⟨hmark, hkeeps, hseparate⟩

/-- With at most nine groups only a reference to the whole match can take in a digit. -/
theorem separate_of_pos (hgroups : numCaptureGroups ≤ 9) {number : Nat} (hnumber : 0 < number)
    (next : Insertion) : Separate icu numCaptureGroups (.group number) next := by
  cases next with
  | literal char =>
      intro value _
      omega
  | backslash => trivial
  | group number' => trivial

/-- Where every piece is one character and the locale has the usual order, every
replacement is read piece by piece as it is meant. -/
theorem keeps_of_characters
    (hdigits : ∀ char : Char, char.isDigit = true → sortsAsDigit collates [char] = true)
    (hbackslash : sortsAsDigit collates ['\\'] = false) :
    (meaning text = some insertions → Keeps collates .plain (text.map fun char => [char])) ∧
      (meaning ('\\' :: text) = some insertions →
        Keeps collates .escape (text.map fun char => [char])) := by
  induction text generalizing insertions with
  | nil => exact ⟨fun _ => by simp [Keeps], fun hmeaning => nomatch hmeaning⟩
  | cons char text ih =>
      constructor
      · intro hmeaning
        by_cases hescape : char = '\\'
        · subst hescape
          exact ⟨.escape, rfl, ih.2 hmeaning⟩
        · obtain ⟨insertions', -, hrest⟩ := meaning_plain hescape hmeaning
          refine ⟨.plain, ?_, ih.1 hrest⟩
          by_cases hdollar : char = '$'
          · simp [keepsPiece, hdollar]
          · simp [keepsPiece, literalReading, literalPiece, hescape, hdollar]
      · intro hmeaning
        obtain ⟨insertions', hrest, hcases⟩ := meaning_escaped hmeaning
        refine ⟨.plain, ?_, ih.1 hrest⟩
        rcases hcases with ⟨rfl, -⟩ | ⟨hdigit, -⟩
        · rw [keepsPiece, hbackslash]
          rfl
        · rw [keepsPiece, hdigits char hdigit, hdigit]
          rfl

end Whole

/-! ## Texts of single characters -/

section Examples

/-- Every character on its own. -/
def oneByOne : CharacterBreaks where
  pieces text := text.map fun char => [char]
  flatten_pieces text := by rw [← List.flatMap_def, List.flatMap_singleton']
  ne_nil_of_mem text := by simp

/-- The order of the C locale. -/
def codePointOrder (left right : List Char) : Bool :=
  left ≤ right

/-- No digits but the ASCII ones, and no escapes. -/
def asciiIcu : Icu where
  digitBeyondAscii _ := none
  unescapeAt _ := (none, 0)

/-- No group has a name. -/
def noNames (_ : List Char) : Nat := 0

/-- A literal digit after a reference, where the number of both is no group. -/
theorem fixReplacementOne_inserts_reference :
    Translates oneByOne codePointOrder asciiIcu 1 ['\\', '1', '$', '\\', '1', '5']
        [.group 1, .literal '$', .group 1, .literal '5'] ∧
      Inserts oneByOne codePointOrder asciiIcu noNames 1 ['\\', '1', '$', '\\', '1', '5']
        [.group 1, .literal '$', .group 1, .literal '5'] := by
  have htranslates : Translates oneByOne codePointOrder asciiIcu 1
      ['\\', '1', '$', '\\', '1', '5']
      [.group 1, .literal '$', .group 1, .literal '5'] := by
    refine ⟨by decide, ?_, ?_⟩
    · exact ⟨.escape, rfl, .plain, rfl, .plain, rfl, .escape, rfl, .plain, rfl, .plain, rfl,
        by simp [Keeps]⟩
    · simp [Separate, Icu.charDigitValue]
  have hnamed : Named 1 [.group 1, .literal '$', .group 1, .literal '5'] := by
    simp [Named]
  have hinserts := (@fixReplacementOne_inserts_iff oneByOne codePointOrder asciiIcu noNames 1
    ['\\', '1', '$', '\\', '1', '5'] _ rfl).1 htranslates
  exact ⟨(fixReplacementOne_inserts_iff rfl).2 hnamed hinserts, hinserts⟩

/-- The zero after a reference to the whole match is taken for a part of its number. -/
theorem fixReplacementOne_swallows_zero :
    meaning ['\\', '0', '0'] = some [.group 0, .literal '0'] ∧
      fixReplacementOne oneByOne codePointOrder (some ['\\', '0', '0']) =
        some ['$', '0', '0'] ∧
      appendReplacement asciiIcu noNames [['b']] ['$', '0', '0'] = .ok ['b'] ∧
      inserted [['b']] [.group 0, .literal '0'] = .ok ['b', '0'] ∧
      ¬ Inserts oneByOne codePointOrder asciiIcu noNames 0 ['\\', '0', '0']
        [.group 0, .literal '0'] := by
  have htemplate : fixReplacementOne oneByOne codePointOrder (some ['\\', '0', '0']) =
      some ['$', '0', '0'] := rfl
  have hreference : groupReference asciiIcu noNames [['b']] ['0', '0'] = .ok (0, []) := rfl
  have hreplaced : appendReplacement asciiIcu noNames [['b']] ['$', '0', '0'] = .ok ['b'] := by
    rw [appendReplacement_dollar, hreference, Except.bind, appendReplacement_nil]
    rfl
  refine ⟨rfl, htemplate, hreplaced, rfl, fun hinserts => ?_⟩
  have hboth := hinserts [['b']] rfl
  rw [htemplate, Option.map_some, hreplaced] at hboth
  exact absurd hboth (by decide)

end Examples

end Charr.FixReplacement
