import Mathlib.Data.List.Basic

/-!
# Regular expressions with look-around

An expression is matched by backtracking: from a position it has a list of ends,
the preferred one first. Look-around asks for matches beside the position and
consumes nothing.
-/

namespace Backtracking

/-- Expressions over a set of symbols, with negative assertions on both sides. -/
inductive Expr (Symbol : Type) where
  | set (accepts : Symbol → Bool)
  | empty
  | seq (first second : Expr Symbol)
  | alt (first second : Expr Symbol)
  | star (body : Expr Symbol)
  | notAhead (body : Expr Symbol)
  | notBehind (body : Expr Symbol)

/-! ## Matching -/

/-- The ends of a greedy repetition; an iteration that consumes nothing ends it. -/
def starEnds (step : Nat → List Nat) : Nat → Nat → List Nat
  | 0, start => [start]
  | fuel + 1, start =>
      ((step start).filter (start < ·)).flatMap (starEnds step fuel) ++ [start]

namespace Expr

variable {Symbol : Type}

/-- Where the matches from `start` on end, in the order they are tried. -/
def ends (text : List Symbol) : Expr Symbol → Nat → List Nat
  | set accepts, start => if text[start]?.any accepts then [start + 1] else []
  | empty, start => [start]
  | seq first second, start => (first.ends text start).flatMap (second.ends text)
  | alt first second, start => first.ends text start ++ second.ends text start
  | star body, start => starEnds (body.ends text) text.length start
  | notAhead body, start => if (body.ends text start).isEmpty then [start] else []
  | notBehind body, start =>
      if (List.range (start + 1)).any fun earlier => start ∈ body.ends text earlier then []
      else [start]

/-- Some part of the text matches. -/
def detect (expr : Expr Symbol) (text : List Symbol) : Bool :=
  (List.range (text.length + 1)).any fun start => !(expr.ends text start).isEmpty

/-- Try each position in turn; go on behind a match. -/
def replaceFrom (expr : Expr Symbol) (text replacement : List Symbol) :
    Nat → Nat → List Symbol
  | 0, _ => []
  | fuel + 1, start =>
      match expr.ends text start with
      | [] => text[start]?.toList ++ replaceFrom expr text replacement fuel (start + 1)
      | stop :: _ =>
          replacement ++ (if start < stop then replaceFrom expr text replacement fuel stop
            else text[start]?.toList ++ replaceFrom expr text replacement fuel (start + 1))

/-- Replace every match, from left to right. -/
def replaceAll (expr : Expr Symbol) (text replacement : List Symbol) : List Symbol :=
  expr.replaceFrom text replacement (text.length + 1) 0

/-- The body matches at the position, and nothing is consumed. -/
def ahead (body : Expr Symbol) : Expr Symbol := notAhead (notAhead body)

/-- One symbol, whichever. -/
def any : Expr Symbol := set fun _ => true

/-- Nothing comes before. -/
def textStart : Expr Symbol := notBehind any

/-- Nothing comes after. -/
def textEnd : Expr Symbol := notAhead any

end Expr

section Ends

variable {Symbol : Type} (text : List Symbol)

theorem ends_set (accepts : Symbol → Bool) (start : Nat) :
    (Expr.set accepts).ends text start =
      if text[start]?.any accepts then [start + 1] else [] :=
  rfl

theorem ends_seq (first second : Expr Symbol) (start : Nat) :
    (Expr.seq first second).ends text start =
      (first.ends text start).flatMap (second.ends text) :=
  rfl

theorem ends_alt (first second : Expr Symbol) (start : Nat) :
    (Expr.alt first second).ends text start = first.ends text start ++ second.ends text start :=
  rfl

theorem ends_notAhead (body : Expr Symbol) (start : Nat) :
    (Expr.notAhead body).ends text start =
      if (body.ends text start).isEmpty then [start] else [] :=
  rfl

theorem ends_notBehind (body : Expr Symbol) (start : Nat) :
    (Expr.notBehind body).ends text start =
      if (List.range (start + 1)).any fun earlier => start ∈ body.ends text earlier then []
      else [start] :=
  rfl

@[simp] theorem ends_seq_empty (expr : Expr Symbol) (start : Nat) :
    (Expr.seq expr .empty).ends text start = expr.ends text start :=
  List.flatMap_singleton' (expr.ends text start)

/-- A set takes one symbol, if that is in it. -/
theorem ends_set_eq {accepts : Symbol → Bool} {start : Nat} {symbol : Symbol}
    (hsymbol : text[start]? = some symbol) :
    (Expr.set accepts).ends text start = if accepts symbol then [start + 1] else [] := by
  rw [ends_set, hsymbol]
  rfl

theorem ends_set_past {start : Nat} (hpast : text.length ≤ start) (accepts : Symbol → Bool) :
    (Expr.set accepts).ends text start = [] := by
  rw [ends_set, List.getElem?_eq_none hpast]
  rfl

theorem mem_ends_set_iff {accepts : Symbol → Bool} {start stop : Nat} :
    stop ∈ (Expr.set accepts).ends text start ↔
      stop = start + 1 ∧ text[start]?.any accepts = true := by
  rw [ends_set]
  split
  next hsome => rw [List.mem_singleton, and_iff_left hsome]
  next hnone => exact iff_of_false List.not_mem_nil fun hmem => hnone hmem.2

/-- A sequence matches if its second part does where the first one ends. -/
theorem ends_seq_ne_nil_iff {first second : Expr Symbol} {start : Nat} :
    (Expr.seq first second).ends text start ≠ [] ↔
      ∃ middle ∈ first.ends text start, second.ends text middle ≠ [] := by
  rw [ends_seq, Ne, List.flatMap_eq_nil_iff]
  push Not
  exact Iff.rfl

/-- The end of the text matches at the end only. -/
theorem ends_textEnd (start : Nat) :
    Expr.textEnd.ends text start = if start < text.length then [] else [start] := by
  unfold Expr.textEnd Expr.any
  rw [ends_notAhead]
  by_cases hlt : start < text.length
  · rw [ends_set_eq text (List.getElem?_eq_getElem hlt), if_pos hlt]
    rfl
  · rw [ends_set_past text (Nat.not_lt.mp hlt), if_neg hlt]
    rfl

/-- Within the text only its first position has nothing behind it. -/
theorem ends_textStart {start : Nat} (hstart : start ≤ text.length) :
    Expr.textStart.ends text start = if start = 0 then [start] else [] := by
  unfold Expr.textStart
  rw [ends_notBehind]
  cases start with
  | zero => simp [Expr.any, mem_ends_set_iff]
  | succ before =>
      rw [if_pos, if_neg (Nat.succ_ne_zero before)]
      rw [List.any_eq_true]
      refine ⟨before, List.mem_range.mpr (by omega), ?_⟩
      rw [decide_eq_true_eq, Expr.any, mem_ends_set_iff, List.getElem?_eq_getElem hstart]
      exact ⟨rfl, rfl⟩

/-- A repetition of single symbols that are all accepted ends anywhere. -/
theorem mem_starEnds_iff {step : Nat → List Nat} {length : Nat}
    (hstep : ∀ start, step start = if start < length then [start + 1] else [])
    (fuel : Nat) {start : Nat} (hstart : start ≤ length) (hfuel : length ≤ fuel + start)
    (stop : Nat) : stop ∈ starEnds step fuel start ↔ start ≤ stop ∧ stop ≤ length := by
  induction fuel generalizing start with
  | zero =>
      simp only [starEnds, List.mem_singleton]
      omega
  | succ fuel ih =>
      rw [starEnds, hstep, List.mem_append, List.mem_singleton]
      split
      next hlt =>
        have hone : [start + 1].filter (start < ·) = [start + 1] := by simp
        rw [hone, List.flatMap_singleton, ih hlt (by omega)]
        omega
      next hge =>
        rw [List.filter_nil, List.flatMap_nil]
        simp only [List.not_mem_nil, false_or]
        omega

end Ends

/-! ## Syntax -/

section Syntax

/-- Everything else stands for itself. -/
def isSpecial (char : Char) : Bool :=
  char ∈ ['*', '?', '+', '[', '(', ')', '{', '}', '^', '$', '|', '\\', '.']

/-- A character that stands for itself. -/
def literal (char : Char) : Expr Char := .set (· = char)

/-- Characters of a set up to the bracket that closes it. Ranges, nested sets and
negated ones are not read. -/
def parseSet : List Char → Option (List Char × List Char)
  | [] => none
  | ']' :: rest => some ([], rest)
  | char :: rest =>
      if char ∈ ['[', '\\', '-', '&', '^', ':'] then none
      else do
        let (chars, rest) ← parseSet rest
        return (char :: chars, rest)

/-- A quantifier behind a term. Those that are not greedy, and intervals, are not read. -/
def parseQuantifier (term : Expr Char) : List Char → Option (Expr Char × List Char)
  | '*' :: '?' :: _ | '*' :: '+' :: _ | '+' :: '?' :: _ | '+' :: '+' :: _ | '?' :: '?' :: _
  | '?' :: '+' :: _ | '{' :: _ => none
  | '*' :: rest => some (.star term, rest)
  | '+' :: rest => some (.seq term (.star term), rest)
  | '?' :: rest => some (.alt term .empty, rest)
  | rest => some (term, rest)

variable (terminator : Char → Bool)

/-- The end of the text, or what is in front of the line terminator that ends it. -/
def dollar : Expr Char := .alt .textEnd (.ahead (.seq (.set terminator) .textEnd))

mutual

/-- A term, and whether a quantifier may follow it. -/
def parseTerm : Nat → List Char → Option (Expr Char × Bool × List Char)
  | 0, _ => none
  | fuel + 1, '(' :: '?' :: '<' :: '!' :: rest => parseGroup fuel .notBehind false rest
  | fuel + 1, '(' :: '?' :: '!' :: rest => parseGroup fuel .notAhead false rest
  | fuel + 1, '(' :: '?' :: '=' :: rest => parseGroup fuel .ahead false rest
  | fuel + 1, '(' :: '?' :: ':' :: rest => parseGroup fuel id true rest
  | _ + 1, '(' :: '?' :: _ => none
  | fuel + 1, '(' :: rest => parseGroup fuel id true rest
  | _ + 1, '[' :: ']' :: _ => none
  | _ + 1, '[' :: rest => do
      let (chars, rest) ← parseSet rest
      return (.set (· ∈ chars), true, rest)
  | _ + 1, '.' :: rest => some (.set fun char => !terminator char, true, rest)
  | _ + 1, '^' :: rest => some (.textStart, true, rest)
  | _ + 1, '$' :: rest => some (dollar terminator, true, rest)
  | _ + 1, '\\' :: char :: rest =>
      if char.isAlphanum then none else some (literal char, true, rest)
  | _ + 1, char :: rest => if isSpecial char then none else some (literal char, true, rest)
  | _ + 1, [] => none

/-- The inside of a group, up to its closing parenthesis. -/
def parseGroup : Nat → (Expr Char → Expr Char) → Bool → List Char →
    Option (Expr Char × Bool × List Char)
  | 0, _, _, _ => none
  | fuel + 1, group, quantifiable, chars => do
      match ← parseAlternatives fuel chars with
      | (body, ')' :: rest) => some (group body, quantifiable, rest)
      | _ => none

/-- Terms one after another, up to a bar, a closing parenthesis or the end. -/
def parseSequence : Nat → List Char → Option (Expr Char × List Char)
  | 0, _ => none
  | _ + 1, [] => some (.empty, [])
  | _ + 1, ')' :: rest => some (.empty, ')' :: rest)
  | _ + 1, '|' :: rest => some (.empty, '|' :: rest)
  | fuel + 1, chars => do
      let (term, quantifiable, rest) ← parseTerm fuel chars
      let (term, rest) ← if quantifiable then parseQuantifier term rest else some (term, rest)
      let (others, rest) ← parseSequence fuel rest
      return (.seq term others, rest)

/-- Sequences with bars between them. -/
def parseAlternatives : Nat → List Char → Option (Expr Char × List Char)
  | 0, _ => none
  | fuel + 1, chars => do
      let (first, rest) ← parseSequence fuel chars
      match rest with
      | '|' :: rest => do
          let (others, rest) ← parseAlternatives fuel rest
          return (.alt first others, rest)
      | rest => return (first, rest)

end

/-- The expression a text denotes, if it is one of those that are read here. -/
def parse (text : List Char) : Option (Expr Char) := do
  match ← parseAlternatives terminator (2 * text.length + 4) text with
  | (expr, []) => some expr
  | _ => none

variable {terminator}

/-- In a text without line terminators `$` is the end. -/
theorem ends_dollar {text : List Char} (hfree : ∀ char ∈ text, terminator char = false)
    (start : Nat) :
    (dollar terminator).ends text start = if start < text.length then [] else [start] := by
  have hnone : (Expr.set terminator).ends text start = [] := by
    rw [ends_set, if_neg]
    rw [Option.any_eq_true]
    rintro ⟨char, hchar, haccepts⟩
    rw [hfree char (List.mem_of_getElem? hchar)] at haccepts
    exact Bool.false_ne_true haccepts
  have hahead : (Expr.ahead (.seq (.set terminator) .textEnd)).ends text start = [] := by
    rw [Expr.ahead, ends_notAhead, ends_notAhead, ends_seq, hnone]
    rfl
  rw [dollar, ends_alt, ends_textEnd, hahead, List.append_nil]

/-- Characters that quantify the term in front of them. -/
def quantifies (char : Option Char) : Bool :=
  char ∈ [some '*', some '+', some '?', some '{']

/-- Without a quantifier the term stays. -/
theorem parseQuantifier_none (term : Expr Char) {rest : List Char}
    (hrest : quantifies rest.head? = false) : parseQuantifier term rest = some (term, rest) := by
  unfold parseQuantifier
  split
  all_goals first | rfl | exact absurd hrest (by simp [quantifies])

/-- A star repeats it. -/
theorem parseQuantifier_star (term : Expr Char) {rest : List Char}
    (hrest : quantifies rest.head? = false) :
    parseQuantifier term ('*' :: rest) = some (.star term, rest) := by
  rw [parseQuantifier]
  · rintro tail rfl
    exact absurd hrest (by simp [quantifies])
  · rintro tail rfl
    exact absurd hrest (by simp [quantifies])

theorem not_quantifies_of_not_special {char : Char} (hspecial : isSpecial char = false) :
    quantifies (some char) = false := by
  simp only [isSpecial, quantifies, List.mem_cons, List.not_mem_nil, or_false,
    Option.some.injEq, decide_eq_false_iff_not, not_or] at hspecial ⊢
  exact ⟨hspecial.1, hspecial.2.2.1, hspecial.2.1, hspecial.2.2.2.2.2.2.1⟩

/-- What is not special is a term of its own. -/
theorem parseTerm_literal {char : Char} (hspecial : isSpecial char = false) (fuel : Nat)
    (rest : List Char) :
    parseTerm terminator (fuel + 1) (char :: rest) = some (literal char, true, rest) := by
  unfold parseTerm
  split
  -- every pattern in front of the last one begins with a special character
  all_goals
    rename_i heq
    cases heq
  all_goals first
    | exact absurd hspecial (by decide)
    | rw [hspecial]
      rfl

/-- A term with its quantifier, then the rest of the sequence. -/
theorem parseSequence_term {fuel : Nat} {char : Char} {chars rest rest' left : List Char}
    {term term' others : Expr Char} (hchar : char ≠ ')' ∧ char ≠ '|')
    (hterm : parseTerm terminator fuel (char :: chars) = some (term, true, rest))
    (hquantifier : parseQuantifier term rest = some (term', rest'))
    (hothers : parseSequence terminator fuel rest' = some (others, left)) :
    parseSequence terminator (fuel + 1) (char :: chars) = some (.seq term' others, left) := by
  rw [parseSequence]
  · rw [hterm]
    simp only [Option.bind_eq_bind, Option.bind_some, if_true, hquantifier, hothers]
    rfl
  · exact List.cons_ne_nil char chars
  · intro rest heq
    exact hchar.1 (List.cons.inj heq).1
  · intro rest heq
    exact hchar.2 (List.cons.inj heq).1

end Syntax

end Backtracking

