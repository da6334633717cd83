import Charr.Library.Backtracking
import Mathlib.Data.List.Infix

/-!
# Patterns of SQL

`str_like` turns a pattern of SQL's `LIKE` into a regular expression by two
substitutions in its text: an unescaped `%` becomes `.*`, an unescaped `_` becomes
`.`. Everything else is passed on as it stands.
-/

namespace Charr.Detect

open Backtracking (Expr literal parse isSpecial ends_set ends_seq ends_alt ends_notAhead
  ends_notBehind)

/-! ## The translation -/

section Translation

variable (terminator : Char → Bool)

/-- A backslash of a replacement text quotes the character behind it. -/
def replacementText : List Char → List Char
  | '\\' :: char :: rest => char :: replacementText rest
  | char :: rest => char :: replacementText rest
  | [] => []

/-- `stri_replace_all_regex` for a pattern and a replacement of these forms. -/
def striReplaceAllRegex (text regex replacement : List Char) : Option (List Char) := do
  let expr ← parse terminator regex
  return expr.replaceAll text (replacementText replacement)

/-- `stri_detect_regex` -/
def striDetectRegex (text regex : List Char) : Option Bool := do
  let expr ← parse terminator regex
  return expr.detect text

/-- The regular expression `(?<!\\|\[)w(?!\])`. -/
def unescaped (wildcard : Char) : List Char :=
  ['(', '?', '<', '!', '\\', '\\', '|', '\\', '[', ')', wildcard, '(', '?', '!', '\\', ']', ')']

/-- The regular expression of a LIKE pattern: both wildcards are replaced, anchors put around. -/
def likeToRegex (pattern : List Char) : Option (List Char) := do
  let converted ← striReplaceAllRegex terminator pattern (unescaped '%') ['\\', '.', '\\', '*']
  let converted ← striReplaceAllRegex terminator converted (unescaped '_') ['\\', '.']
  return '^' :: converted ++ ['$']

/-- `str_like` -/
def strLike (string pattern : List Char) : Option Bool := do
  striDetectRegex terminator string (← likeToRegex terminator pattern)

end Translation

/-! ## Patterns -/

/-- The wildcards of LIKE. -/
inductive Wildcard where
  | percent
  | underscore
  deriving DecidableEq

/-- The character of a wildcard. -/
def Wildcard.char : Wildcard → Char
  | percent => '%'
  | underscore => '_'

/-- What a pattern is made of. -/
inductive LikeItem where
  | literal (char : Char)
  | anySequence
  | anySingle
  | escaped (wildcard : Wildcard)
  | bracketed (wildcard : Wildcard)
  deriving DecidableEq

/-- An item as it is written, with the texts of the two wildcards. -/
def LikeItem.render (sequence single : List Char) : LikeItem → List Char
  | literal char => [char]
  | anySequence => sequence
  | anySingle => single
  | escaped wildcard => ['\\', wildcard.char]
  | bracketed wildcard => ['[', wildcard.char, ']']

/-- The pattern as it is written. -/
def patternText (items : List LikeItem) : List Char :=
  items.flatMap (LikeItem.render ['%'] ['_'])

/-- SQL's `LIKE`: the items make up the whole subject. -/
def like : List LikeItem → List Char → Bool
  | [], subject => subject.isEmpty
  | .anySequence :: rest, subject => subject.tails.any (like rest)
  | .anySingle :: rest, _ :: subject => like rest subject
  | .literal char :: rest, first :: subject => first = char && like rest subject
  | .escaped wildcard :: rest, first :: subject => first = wildcard.char && like rest subject
  | .bracketed wildcard :: rest, first :: subject => first = wildcard.char && like rest subject
  | _, [] => false

/-! ## One substitution -/

/-- The expression of `unescaped`. -/
def unescapedExpr (wildcard : Char) : Expr Char :=
  .seq (.notBehind (.alt (.seq (literal '\\') .empty) (.seq (literal '[') .empty)))
    (.seq (literal wildcard) (.seq (.notAhead (.seq (literal ']') .empty)) .empty))

/-- The expression of an unescaped wildcard parses as it is meant. -/
theorem parse_unescaped (terminator : Char → Bool) (wildcard : Wildcard) :
    parse terminator (unescaped wildcard.char) = some (unescapedExpr wildcard.char) := by
  cases wildcard <;> rfl

/-- A character behind which a wildcard stands for itself. -/
def quotes (previous : Option Char) : Bool :=
  previous = some '\\' ∨ previous = some '['

/-- The substitution with what is behind and ahead of each character in view. -/
def convertFrom (wildcard : Char) (replacement : List Char) :
    Option Char → List Char → List Char
  | _, [] => []
  | previous, char :: rest =>
      (if char = wildcard ∧ quotes previous = false ∧ rest.head? ≠ some ']' then replacement
        else [char]) ++ convertFrom wildcard replacement (some char) rest

section Substitution

variable {wildcard : Char}

theorem ends_literal (text : List Char) (char : Char) (start : Nat) :
    (literal char).ends text start = if text[start]? = some char then [start + 1] else [] := by
  unfold literal
  rw [ends_set]
  congr 1
  cases text[start]? <;> simp

/-- A quote is a backslash or an opening bracket. -/
theorem mem_ends_quote_iff {text : List Char} {earlier start : Nat} :
    start ∈ (Expr.alt (.seq (literal '\\') .empty) (.seq (literal '[') .empty)).ends text
        earlier ↔
      start = earlier + 1 ∧ quotes text[earlier]? = true := by
  rw [ends_alt, Backtracking.ends_seq_empty, Backtracking.ends_seq_empty, ends_literal,
    ends_literal, quotes, List.mem_append]
  by_cases hback : text[earlier]? = some '\\'
  · simp [hback]
  · by_cases hbracket : text[earlier]? = some '['
    · simp [hbracket]
    · simp [hback, hbracket]

/-- The assertion fails behind a quote. -/
theorem ends_notBehind_quote (behind rest : List Char) :
    (Expr.notBehind (.alt (.seq (literal '\\') .empty) (.seq (literal '[') .empty))).ends
        (behind ++ rest) behind.length =
      if quotes behind.getLast? then [] else [behind.length] := by
  rw [ends_notBehind]
  congr 1
  rw [eq_iff_iff, List.any_eq_true]
  simp only [decide_eq_true_eq, mem_ends_quote_iff, List.mem_range]
  rcases List.eq_nil_or_concat behind with rfl | ⟨front, last, rfl⟩
  · simp [quotes]
  · rw [List.concat_eq_append, List.getLast?_append, List.length_append, List.length_singleton]
    constructor
    · rintro ⟨earlier, -, hearlier, hquotes⟩
      obtain rfl : earlier = front.length := by omega
      simpa using hquotes
    · intro hquotes
      exact ⟨front.length, by omega, rfl, by simpa using hquotes⟩

/-- A wildcard is found unless it is quoted or a closing bracket follows. -/
theorem ends_unescaped (behind : List Char) (char : Char) (rest : List Char) :
    (unescapedExpr wildcard).ends (behind ++ char :: rest) behind.length =
      if char = wildcard ∧ quotes behind.getLast? = false ∧ rest.head? ≠ some ']' then
        [behind.length + 1]
      else [] := by
  have hchar : (behind ++ char :: rest)[behind.length]? = some char := by simp
  have hahead : (behind ++ char :: rest)[behind.length + 1]? = rest.head? := by
    rw [List.getElem?_append_right (Nat.le_add_right _ 1), Nat.add_sub_cancel_left]
    cases rest <;> rfl
  unfold unescapedExpr
  rw [ends_seq, ends_notBehind_quote]
  cases hquotes : quotes behind.getLast? with
  | true => simp
  | false =>
      simp only [Bool.false_eq_true, if_false, List.flatMap_singleton]
      rw [ends_seq, ends_literal, hchar]
      by_cases hsame : char = wildcard
      · subst hsame
        rw [if_pos rfl, List.flatMap_singleton, Backtracking.ends_seq_empty, ends_notAhead,
          Backtracking.ends_seq_empty, ends_literal, hahead]
        by_cases hbracket : rest.head? = some ']' <;> simp [hbracket]
      · simp [hsame]

/-- Replacing the matches from a position on converts the wildcards there. -/
theorem replaceFrom_unescaped (replacement behind rest : List Char) :
    (unescapedExpr wildcard).replaceFrom (behind ++ rest) replacement (rest.length + 1)
        behind.length =
      convertFrom wildcard replacement behind.getLast? rest := by
  induction rest generalizing behind with
  | nil =>
      have hpast : (behind ++ [])[behind.length]? = none := by simp
      have hnone : (unescapedExpr wildcard).ends (behind ++ []) behind.length = [] := by
        unfold unescapedExpr
        rw [ends_seq, ends_notBehind_quote]
        split
        next => rfl
        next =>
          rw [List.flatMap_singleton, ends_seq, ends_literal, hpast]
          rfl
      rw [List.length_nil, Expr.replaceFrom, hnone, hpast]
      rfl
  | cons char rest ih =>
      have hnext := ih (behind ++ [char])
      have hchar : (behind ++ char :: rest)[behind.length]? = some char := by simp
      rw [List.append_assoc, List.singleton_append, List.length_append, List.length_singleton,
        List.getLast?_append] at hnext
      rw [List.length_cons, Expr.replaceFrom, ends_unescaped, convertFrom]
      by_cases hselected : char = wildcard ∧ quotes behind.getLast? = false ∧
          rest.head? ≠ some ']'
      · rw [if_pos hselected, if_pos hselected]
        simp only [Nat.lt_succ_self, if_true, hnext]
        rfl
      · rw [if_neg hselected, if_neg hselected]
        simp only [hchar, hnext]
        rfl

end Substitution

/-- Replacing all matches converts the wildcards of the pattern. -/
theorem striReplaceAllRegex_unescaped (terminator : Char → Bool) (wildcard : Wildcard)
    (text replacement : List Char) :
    striReplaceAllRegex terminator text (unescaped wildcard.char) replacement =
      some (convertFrom wildcard.char (replacementText replacement) none text) := by
  rw [striReplaceAllRegex, parse_unescaped]
  exact congrArg some (replaceFrom_unescaped (replacementText replacement) [] text)

/-! ## Both substitutions -/

/-- Literals that are not special in a regular expression, and no wildcard directly in
front of a bracket that closes. -/
def readable : List LikeItem → Bool
  | [] => true
  | .literal char :: rest => char ≠ '%' && char ≠ '_' && !isSpecial char && readable rest
  | .anySequence :: rest => rest.head? ≠ some (.literal ']') && readable rest
  | .anySingle :: rest => rest.head? ≠ some (.literal ']') && readable rest
  | .escaped _ :: rest => readable rest
  | .bracketed _ :: rest => readable rest

section Items

variable {items : List LikeItem} {sequence single : List Char}

theorem readable_literal_iff {char : Char} : readable (.literal char :: items) = true ↔
    ((char ≠ '%' ∧ char ≠ '_') ∧ isSpecial char = false) ∧ readable items = true := by
  rw [readable, Bool.and_eq_true, Bool.and_eq_true, Bool.and_eq_true, Bool.not_eq_true',
    decide_eq_true_iff, decide_eq_true_iff]

theorem readable_wildcard_iff :
    (decide (items.head? ≠ some (.literal ']')) && readable items) = true ↔
      items.head? ≠ some (.literal ']') ∧ readable items = true := by
  rw [Bool.and_eq_true, decide_eq_true_iff]

/-- No other item begins with a bracket that closes. -/
theorem head_render_ne (hfirst : items.head? ≠ some (.literal ']'))
    (hsequence : sequence.head? ≠ some ']' ∧ sequence ≠ [])
    (hsingle : single.head? ≠ some ']' ∧ single ≠ []) :
    (items.flatMap (LikeItem.render sequence single)).head? ≠ some ']' := by
  cases items with
  | nil => simp
  | cons item rest =>
      rw [List.flatMap_cons]
      cases item with
      | literal char =>
          intro hhead
          apply hfirst
          simpa [LikeItem.render] using hhead
      | anySequence =>
          rw [LikeItem.render, List.head?_append_of_ne_nil _ hsequence.2]
          exact hsequence.1
      | anySingle =>
          rw [LikeItem.render, List.head?_append_of_ne_nil _ hsingle.2]
          exact hsingle.1
      | escaped wildcard => simp [LikeItem.render]
      | bracketed wildcard => simp [LikeItem.render]

theorem not_quotes_of_not_special {char : Char} (hspecial : isSpecial char = false) :
    quotes (some char) = false := by
  unfold quotes
  rw [decide_eq_false_iff_not]
  rintro (heq | heq) <;> obtain rfl := Option.some.inj heq <;> exact absurd hspecial (by decide)

/-- The substitution turns `before` into `after` where the text goes on with `rest`, and
leaves a character behind that quotes nothing. -/
def Turns (wildcard : Wildcard) (replacement before after rest : List Char) : Prop :=
  ∀ previous, quotes previous = false → ∃ last, quotes (some last) = false ∧
    convertFrom wildcard.char replacement previous (before ++ rest) =
      after ++ convertFrom wildcard.char replacement (some last) rest

variable {wildcard : Wildcard} {replacement rest : List Char}

/-- A literal character stays. -/
theorem turns_literal {char : Char} (hpercent : char ≠ '%') (hunderscore : char ≠ '_')
    (hspecial : isSpecial char = false) : Turns wildcard replacement [char] [char] rest := by
  intro previous _
  have hother : char ≠ wildcard.char := by cases wildcard <;> assumption
  refine ⟨char, not_quotes_of_not_special hspecial, ?_⟩
  rw [List.singleton_append, convertFrom, if_neg fun hselected => hother hselected.1]

/-- An escaped wildcard stays. -/
theorem turns_escaped (other : Wildcard) :
    Turns wildcard replacement ['\\', other.char] ['\\', other.char] rest := by
  intro previous _
  have hback : '\\' ≠ wildcard.char := by cases wildcard <;> decide
  refine ⟨other.char, by cases other <;> decide, ?_⟩
  rw [List.cons_append, List.singleton_append, convertFrom, if_neg fun hself => hback hself.1,
    convertFrom, if_neg fun hself => Bool.noConfusion hself.2.1]
  rfl

/-- A wildcard in brackets stays. -/
theorem turns_bracketed (other : Wildcard) :
    Turns wildcard replacement ['[', other.char, ']'] ['[', other.char, ']'] rest := by
  intro previous _
  have hopen : '[' ≠ wildcard.char := by cases wildcard <;> decide
  have hclose : ']' ≠ wildcard.char := by cases wildcard <;> decide
  refine ⟨']', by decide, ?_⟩
  rw [List.cons_append, List.cons_append, List.singleton_append, convertFrom,
    if_neg fun hself => hopen hself.1, convertFrom,
    if_neg fun hself => Bool.noConfusion hself.2.1, convertFrom,
    if_neg fun hself => hclose hself.1]
  rfl

/-- A wildcard is replaced. -/
theorem turns_wildcard (hrest : rest.head? ≠ some ']') :
    Turns wildcard replacement [wildcard.char] replacement rest := by
  intro previous hprevious
  refine ⟨wildcard.char, by cases wildcard <;> decide, ?_⟩
  rw [List.singleton_append, convertFrom, if_pos ⟨rfl, hprevious, hrest⟩]

/-- One pass over all items, from what it makes of the two wildcards. -/
theorem convertFrom_render {sequence' single' : List Char} (hreadable : readable items = true)
    (hsequence : sequence.head? ≠ some ']' ∧ sequence ≠ [])
    (hsingle : single.head? ≠ some ']' ∧ single ≠ [])
    (hturnsSequence : ∀ rest : List Char, rest.head? ≠ some ']' →
      Turns wildcard replacement sequence sequence' rest)
    (hturnsSingle : ∀ rest : List Char, rest.head? ≠ some ']' →
      Turns wildcard replacement single single' rest)
    {previous : Option Char} (hprevious : quotes previous = false) :
    convertFrom wildcard.char replacement previous
        (items.flatMap (LikeItem.render sequence single)) =
      items.flatMap (LikeItem.render sequence' single') := by
  induction items generalizing previous with
  | nil => rfl
  | cons item rest ih =>
      rw [List.flatMap_cons, List.flatMap_cons]
      have hitem : readable rest = true ∧ Turns wildcard replacement
          (item.render sequence single) (item.render sequence' single')
          (rest.flatMap (LikeItem.render sequence single)) := by
        cases item with
        | literal char =>
            obtain ⟨⟨⟨hpercent, hunderscore⟩, hspecial⟩, hrest⟩ :=
              readable_literal_iff.mp hreadable
            exact ⟨hrest, turns_literal hpercent hunderscore hspecial⟩
        | anySequence =>
            obtain ⟨hhead, hrest⟩ := readable_wildcard_iff.mp hreadable
            exact ⟨hrest, hturnsSequence _ (head_render_ne hhead hsequence hsingle)⟩
        | anySingle =>
            obtain ⟨hhead, hrest⟩ := readable_wildcard_iff.mp hreadable
            exact ⟨hrest, hturnsSingle _ (head_render_ne hhead hsequence hsingle)⟩
        | escaped other => exact ⟨hreadable, turns_escaped other⟩
        | bracketed other => exact ⟨hreadable, turns_bracketed other⟩
      obtain ⟨last, hlast, heq⟩ := hitem.2 previous hprevious
      rw [heq, ih hitem.1 hlast]

/-- Item by item, a readable pattern becomes its regular expression. -/
theorem likeToRegex_eq (terminator : Char → Bool) (hreadable : readable items = true) :
    likeToRegex terminator (patternText items) =
      some ('^' :: items.flatMap (LikeItem.render ['.', '*'] ['.']) ++ ['$']) := by
  have hpercent : convertFrom '%' ['.', '*'] none (patternText items) =
      items.flatMap (LikeItem.render ['.', '*'] ['_']) := by
    refine @convertFrom_render items _ _ .percent _ _ _ hreadable (by decide) (by decide)
      (fun rest hrest => turns_wildcard hrest) (fun rest _ => ?_) none rfl
    intro previous _
    exact ⟨'_', by decide, rfl⟩
  have hunderscore : convertFrom '_' ['.'] none
      (items.flatMap (LikeItem.render ['.', '*'] ['_'])) =
      items.flatMap (LikeItem.render ['.', '*'] ['.']) := by
    refine @convertFrom_render items _ _ .underscore _ _ _ hreadable (by decide) (by decide)
      (fun rest _ => ?_) (fun rest hrest => turns_wildcard hrest) none rfl
    intro previous _
    exact ⟨'*', by decide, rfl⟩
  have hfirst : striReplaceAllRegex terminator (patternText items) (unescaped '%')
      ['\\', '.', '\\', '*'] = some (items.flatMap (LikeItem.render ['.', '*'] ['_'])) :=
    (striReplaceAllRegex_unescaped terminator .percent _ _).trans (congrArg some hpercent)
  have hsecond : striReplaceAllRegex terminator
      (items.flatMap (LikeItem.render ['.', '*'] ['_'])) (unescaped '_') ['\\', '.'] =
        some (items.flatMap (LikeItem.render ['.', '*'] ['.'])) :=
    (striReplaceAllRegex_unescaped terminator .underscore _ _).trans (congrArg some hunderscore)
  rw [likeToRegex, hfirst, Option.bind_eq_bind, Option.bind_some, hsecond]
  rfl

/-! ## The expression -/

variable (terminator : Char → Bool)

/-- What an item becomes in the regular expression. -/
def itemExpr : LikeItem → Expr Char
  | .literal char => literal char
  | .anySequence => .star (.set fun char => !terminator char)
  | .anySingle => .set fun char => !terminator char
  | .escaped wildcard => literal wildcard.char
  | .bracketed wildcard => .set (· ∈ [wildcard.char])

/-- All items, then the end of the subject. -/
def itemsExpr (items : List LikeItem) : Expr Char :=
  items.foldr (fun item others => .seq (itemExpr terminator item) others)
    (.seq (Backtracking.dollar terminator) .empty)

variable {terminator}

/-- No item begins with a quantifier, so the item before it is read alone. -/
theorem head_render_dots (hreadable : readable items = true) {rest : List Char}
    (hrest : Backtracking.quantifies rest.head? = false) :
    Backtracking.quantifies
      (items.flatMap (LikeItem.render ['.', '*'] ['.']) ++ rest).head? = false := by
  cases items with
  | nil => exact hrest
  | cons item others =>
      rw [List.flatMap_cons]
      cases item with
      | literal char =>
          obtain ⟨⟨-, hspecial⟩, -⟩ := readable_literal_iff.mp hreadable
          exact Backtracking.not_quantifies_of_not_special hspecial
      | anySequence => rfl
      | anySingle => rfl
      | escaped wildcard => rfl
      | bracketed wildcard => rfl

/-- An item is read as its expression. -/
theorem parseSequence_item {item : LikeItem} (hreadable : readable [item] = true) (fuel : Nat)
    {rest left : List Char} {others : Expr Char}
    (hrest : Backtracking.quantifies rest.head? = false)
    (hothers : Backtracking.parseSequence terminator (fuel + 1) rest = some (others, left)) :
    Backtracking.parseSequence terminator (fuel + 2)
        (item.render ['.', '*'] ['.'] ++ rest) =
      some (.seq (itemExpr terminator item) others, left) := by
  cases item with
  | literal char =>
      obtain ⟨⟨-, hspecial⟩, -⟩ := readable_literal_iff.mp hreadable
      refine Backtracking.parseSequence_term ?_ (Backtracking.parseTerm_literal hspecial fuel rest)
        (Backtracking.parseQuantifier_none _ hrest) hothers
      constructor <;> rintro rfl <;> exact absurd hspecial (by decide)
  | anySequence =>
      exact Backtracking.parseSequence_term (by decide) rfl
        (Backtracking.parseQuantifier_star _ hrest) hothers
  | anySingle =>
      exact Backtracking.parseSequence_term (by decide) rfl
        (Backtracking.parseQuantifier_none _ hrest) hothers
  | escaped wildcard =>
      refine Backtracking.parseSequence_term (by decide) ?_
        (Backtracking.parseQuantifier_none _ hrest) hothers
      cases wildcard <;> rfl
  | bracketed wildcard =>
      refine Backtracking.parseSequence_term (by decide) ?_
        (Backtracking.parseQuantifier_none _ hrest) hothers
      cases wildcard <;> rfl

theorem readable_cons {item : LikeItem} (hreadable : readable (item :: items) = true) :
    readable [item] = true ∧ readable items = true := by
  cases item <;> simp_all [readable]

/-- The items parse one after another. -/
theorem parseSequence_items (hreadable : readable items = true) {fuel : Nat}
    (hfuel : items.length + 3 ≤ fuel) :
    Backtracking.parseSequence terminator fuel
        (items.flatMap (LikeItem.render ['.', '*'] ['.']) ++ ['$']) =
      some (itemsExpr terminator items, []) := by
  induction items generalizing fuel with
  | nil =>
      obtain ⟨fuel, rfl⟩ := Nat.exists_eq_add_of_le' hfuel
      rfl
  | cons item rest ih =>
      obtain ⟨hitem, hrest⟩ := readable_cons hreadable
      rw [List.length_cons] at hfuel
      obtain ⟨fuel, rfl⟩ : ∃ less, fuel = less + 2 := ⟨fuel - 2, by omega⟩
      rw [List.flatMap_cons, List.append_assoc]
      exact parseSequence_item hitem fuel (head_render_dots hrest (by decide))
        (ih hrest (by omega))

theorem length_le_render (items : List LikeItem) :
    items.length ≤ (items.flatMap (LikeItem.render ['.', '*'] ['.'])).length := by
  induction items with
  | nil => exact Nat.le_refl 0
  | cons item rest ih =>
      have hitem : 1 ≤ (item.render ['.', '*'] ['.']).length := by
        cases item <;> simp [LikeItem.render]
      rw [List.flatMap_cons, List.length_append, List.length_cons]
      omega

/-- The regular expression parses as the items between two anchors. -/
theorem parse_likeToRegex (hreadable : readable items = true) :
    parse terminator ('^' :: items.flatMap (LikeItem.render ['.', '*'] ['.']) ++ ['$']) =
      some (.seq .textStart (itemsExpr terminator items)) := by
  have hlength := length_le_render items
  have hhead : Backtracking.quantifies
      (items.flatMap (LikeItem.render ['.', '*'] ['.']) ++ ['$']).head? = false :=
    head_render_dots hreadable (by decide)
  have hlength' : items.length + 2 ≤
      ('^' :: items.flatMap (LikeItem.render ['.', '*'] ['.']) ++ ['$']).length := by
    rw [List.cons_append, List.length_cons, List.length_append, List.length_singleton]
    omega
  have hsequence : ∀ fuel, items.length + 3 ≤ fuel + 1 →
      Backtracking.parseSequence terminator (fuel + 2)
        ('^' :: items.flatMap (LikeItem.render ['.', '*'] ['.']) ++ ['$']) =
      some (.seq .textStart (itemsExpr terminator items), []) := by
    intro fuel hfuel
    exact Backtracking.parseSequence_term (by decide) rfl
      (Backtracking.parseQuantifier_none _ hhead) (parseSequence_items hreadable hfuel)
  rw [parse, Backtracking.parseAlternatives, hsequence _ (by omega)]
  rfl

end Items

/-! ## What the expression matches -/

section Matching

variable {terminator : Char → Bool} {subject : List Char}
  (hfree : ∀ char ∈ subject, terminator char = false)
include hfree

/-- A dot matches whatever does not end a line. -/
theorem ends_dot (start : Nat) :
    (Expr.set fun char => !terminator char).ends subject start =
      if start < subject.length then [start + 1] else [] := by
  split
  next hlt =>
    rw [Backtracking.ends_set_eq subject (List.getElem?_eq_getElem hlt),
      hfree _ (List.getElem_mem hlt)]
    rfl
  next hge => exact Backtracking.ends_set_past subject (Nat.not_lt.mp hge) _

omit hfree in
/-- An item that stands for one character takes the next one of the subject. -/
theorem exists_ends_set_iff {accepts : Char → Bool} {others : Expr Char} {start : Nat}
    {rest : List LikeItem} (hothers : start + 1 ≤ subject.length →
      (others.ends subject (start + 1) ≠ [] ↔ like rest (subject.drop (start + 1)) = true)) :
    (∃ middle ∈ (Expr.set accepts).ends subject start, others.ends subject middle ≠ []) ↔
      ∃ first tail, subject.drop start = first :: tail ∧ accepts first = true ∧
        like rest tail = true := by
  by_cases hlt : start < subject.length
  · rw [Backtracking.ends_set_eq subject (List.getElem?_eq_getElem hlt),
      List.drop_eq_getElem_cons hlt]
    cases haccepts : accepts subject[start] with
    | true =>
        simp only [if_true, List.mem_singleton, exists_eq_left, hothers hlt]
        constructor
        · intro hlike
          exact ⟨_, _, rfl, haccepts, hlike⟩
        · rintro ⟨first, tail, heq, -, hlike⟩
          obtain ⟨-, rfl⟩ := List.cons.inj heq
          exact hlike
    | false =>
        simp only [Bool.false_eq_true, if_false, List.not_mem_nil, false_and, exists_false,
          false_iff]
        rintro ⟨first, tail, heq, hfirst, -⟩
        obtain ⟨rfl, -⟩ := List.cons.inj heq
        exact Bool.false_ne_true (haccepts.symm.trans hfirst)
  · rw [Backtracking.ends_set_past subject (Nat.not_lt.mp hlt),
      List.drop_eq_nil_of_le (Nat.not_lt.mp hlt)]
    simp

/-- The items match from a position on exactly when they make up the rest. -/
theorem ends_itemsExpr_ne_nil_iff (items : List LikeItem) {start : Nat}
    (hstart : start ≤ subject.length) :
    (itemsExpr terminator items).ends subject start ≠ [] ↔
      like items (subject.drop start) = true := by
  induction items generalizing start with
  | nil =>
      rw [itemsExpr, List.foldr_nil, Backtracking.ends_seq_empty, Backtracking.ends_dollar hfree,
        like, List.isEmpty_iff, List.drop_eq_nil_iff]
      split
      next hlt => simp [hlt]
      next hge => simpa using Nat.not_lt.mp hge
  | cons item rest ih =>
      rw [itemsExpr, List.foldr_cons, ← itemsExpr, Backtracking.ends_seq_ne_nil_iff]
      cases item with
      | literal char =>
          rw [itemExpr, literal, exists_ends_set_iff ih]
          cases subject.drop start <;> simp [like]
      | anySequence =>
          -- The star may stop anywhere, as the pattern's own wildcard may.
          have hmem : ∀ middle, middle ∈ (itemExpr terminator .anySequence).ends subject start ↔
              start ≤ middle ∧ middle ≤ subject.length :=
            Backtracking.mem_starEnds_iff (ends_dot hfree) subject.length hstart
              (Nat.le_add_right _ _)
          simp only [hmem, like, List.any_eq_true, List.mem_tails]
          constructor
          · rintro ⟨middle, ⟨hle, hinside⟩, hothers⟩
            refine ⟨subject.drop middle, ?_, (ih hinside).mp hothers⟩
            rw [← Nat.add_sub_cancel' hle, ← List.drop_drop]
            exact List.drop_suffix _ _
          · rintro ⟨tail, ⟨front, hfront⟩, hlike⟩
            have hlength := congrArg List.length hfront
            rw [List.length_append, List.length_drop] at hlength
            have htail : subject.drop (start + front.length) = tail := by
              rw [← List.drop_drop, ← hfront, List.drop_left]
            have hinside : start + front.length ≤ subject.length := by omega
            exact ⟨_, ⟨Nat.le_add_right _ _, hinside⟩, (ih hinside).mpr (htail ▸ hlike)⟩
      | anySingle =>
          rw [itemExpr, exists_ends_set_iff ih]
          cases hdrop : subject.drop start with
          | nil => simp [like]
          | cons first tail =>
              have hfirst := hfree first (List.mem_of_mem_drop (hdrop ▸ List.mem_cons_self))
              simp [like, hfirst]
      | escaped wildcard =>
          rw [itemExpr, literal, exists_ends_set_iff ih]
          cases subject.drop start <;> simp [like]
      | bracketed wildcard =>
          rw [itemExpr, exists_ends_set_iff ih]
          cases subject.drop start <;> simp [like]

end Matching

/-- For a pattern of ordinary characters, wildcards, and wildcards behind a backslash or
in brackets, the translation finds what `LIKE` does in every subject without line
terminators. -/
theorem strLike_eq_like {terminator : Char → Bool} {items : List LikeItem}
    (hreadable : readable items = true) {subject : List Char}
    (hfree : ∀ char ∈ subject, terminator char = false) :
    strLike terminator subject (patternText items) = some (like items subject) := by
  rw [strLike, likeToRegex_eq terminator hreadable, Option.bind_eq_bind, Option.bind_some,
    striDetectRegex, parse_likeToRegex hreadable]
  refine congrArg some ?_
  rw [Bool.eq_iff_iff, Expr.detect, List.any_eq_true]
  simp only [Bool.not_eq_true', List.isEmpty_eq_false_iff, Backtracking.ends_seq_ne_nil_iff,
    List.mem_range, Nat.lt_succ_iff]
  have hitems := ends_itemsExpr_ne_nil_iff hfree items (Nat.zero_le subject.length)
  rw [List.drop_zero] at hitems
  rw [← hitems]
  constructor
  · rintro ⟨start, hstart, middle, hmiddle, hothers⟩
    rw [Backtracking.ends_textStart subject hstart] at hmiddle
    split at hmiddle
    next hzero =>
      rw [List.mem_singleton.mp hmiddle, hzero] at hothers
      exact hothers
    next => exact absurd hmiddle List.not_mem_nil
  · intro hothers
    refine ⟨0, Nat.zero_le _, 0, ?_, hothers⟩
    rw [Backtracking.ends_textStart subject (Nat.zero_le _)]
    exact List.mem_singleton_self 0

/-- "a_[%]%" matches "ab%" and what goes on behind it. -/
theorem strLike_sample :
    let items : List LikeItem :=
      [.literal 'a', .anySingle, .bracketed .percent, .anySequence]
    let subject := ['a', 'b', '%', 'c', 'd']
    readable items = true ∧ (∀ char ∈ subject, (char == '\n') = false) ∧
      strLike (· == '\n') subject (patternText items) = some (like items subject) ∧
      like items subject = true := by
  intro items subject
  have hreadable : readable items = true := by decide
  have hfree : ∀ char ∈ subject, (char == '\n') = false := by simp [subject]
  exact ⟨hreadable, hfree, strLike_eq_like hreadable hfree, by decide⟩

/-- Brackets and dots are not literal characters: "[%]" does not match "[x]", and "a.c"
matches "abc". -/
theorem strLike_reads_brackets_and_dots :
    let brackets : List LikeItem := [.literal '[', .anySequence, .literal ']']
    let dot : List LikeItem := [.literal 'a', .literal '.', .literal 'c']
    (strLike (· == '\n') ['[', 'x', ']'] (patternText brackets) = some false ∧
      like brackets ['[', 'x', ']'] = true) ∧
    strLike (· == '\n') ['a', 'b', 'c'] (patternText dot) = some true ∧
      like dot ['a', 'b', 'c'] = false := by
  decide

end Charr.Detect
