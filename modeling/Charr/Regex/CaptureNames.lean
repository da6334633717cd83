import Charr.Regex.Matcher

/-!
# The names of capture groups

ICU knows the number of a named group but does not list the names, so the pattern is
scanned for them. The scanner passes over one character behind the parenthesis of a
plain group. Where that character opens something it is out of step with the pattern,
and a name it meets there is lost.
-/

namespace Charr.RegexSearch

/-! ## The scanner -/

/-- A compiled pattern: what it says of its text and of its groups. -/
structure CompiledPattern where
  patternText : List Char × UErrorCode
  groupCount : Nat
  groupNumberFromName : List Char → Int × UErrorCode

/-- The characters that the scanner takes into a name. -/
def isNameChar (current : Char) : Bool :=
  ('A' ≤ current && current ≤ 'Z') || ('a' ≤ current && current ≤ 'z') ||
    ('0' ≤ current && current ≤ '9')

/-- The text behind the next unescaped closing bracket. -/
def skipSet : List Char → List Char
  | [] => []
  | current :: text =>
      if current = ']' then text
      else if current = '\\' then
        match text with
        | [] => []
        | _ :: text => skipSet text
      else skipSet text

/-- Enter a name at the number of its group, if it is one. -/
def record (pattern : CompiledPattern) (names : List (List Char)) (name : List Char) :
    List (List Char) :=
  let (group, status) := pattern.groupNumberFromName name
  if failed status then names
  else
    let group := group - 1
    if 0 ≤ group ∧ group < pattern.groupCount then names.set group.toNat name else names

/-- The loop over the pattern text, whose first character is the current one. -/
def captureLoop (pattern : CompiledPattern) :
    (fuel : Nat) → (text : List Char) → (names : List (List Char)) → List (List Char)
  | 0, _, names => names
  | _ + 1, [], names => names
  | fuel + 1, current :: text, names =>
      if current = '\\' then captureLoop pattern fuel text.tail names
      else if current = '[' then captureLoop pattern fuel (skipSet text) names
      else if current = '(' then
        if text.head? ≠ some '?' then captureLoop pattern fuel text.tail names
        else if text.tail.head? ≠ some '<' then captureLoop pattern fuel text.tail.tail names
        else
          let name := text.tail.tail.takeWhile isNameChar
          let behind := text.tail.tail.dropWhile isNameChar
          let names := if behind.head? = some '>' then record pattern names name else names
          captureLoop pattern fuel behind.tail names
      else captureLoop pattern fuel text names

/-- The names of all groups, and the status. -/
def captureNames : Option CompiledPattern → List (List Char) × UErrorCode
  | none => ([], illegalArgumentError)
  | some pattern =>
      let names := List.replicate pattern.groupCount []
      if pattern.groupCount ≤ 0 then (names, zeroError)
      else if failed pattern.patternText.2 then (names, pattern.patternText.2)
      else
        (captureLoop pattern pattern.patternText.1.length pattern.patternText.1 names,
          pattern.patternText.2)

/-! ## The scanner, character by character -/

/-- What the scanner takes the next character for. -/
inductive Reader where
  | plain
  | skip
  | set
  | skipInSet
  | opened
  | query
  | name (letters : List Char)
  deriving DecidableEq, Repr

namespace Reader

/-- The state of the reader behind a character. -/
def next : Reader → Char → Reader
  | plain, current =>
      if current = '\\' then skip
      else if current = '[' then set
      else if current = '(' then opened
      else plain
  | skip, _ => plain
  | set, current =>
      if current = ']' then plain else if current = '\\' then skipInSet else set
  | skipInSet, _ => set
  | opened, current => if current = '?' then query else plain
  | query, current => if current = '<' then name [] else plain
  | name letters, current => if isNameChar current then name (letters ++ [current]) else plain

/-- The name that the character completes. -/
def spells : Reader → Char → Option (List Char)
  | name letters, current => if current = '>' then some letters else none
  | _, _ => none

/-- Where the scanner is behind a text. -/
def behind (reader : Reader) (text : List Char) : Reader := text.foldl next reader

/-- The names a text spells. -/
def reads : Reader → List Char → List (List Char)
  | _, [] => []
  | reader, current :: text => (reader.spells current).toList ++ reads (reader.next current) text

@[simp] theorem behind_nil (reader : Reader) : reader.behind [] = reader := rfl

@[simp] theorem behind_cons (reader : Reader) (current : Char) (text : List Char) :
    reader.behind (current :: text) = (reader.next current).behind text := rfl

/-- Reading goes on behind a part of the pattern. -/
theorem behind_append (reader : Reader) (left right : List Char) :
    reader.behind (left ++ right) = (reader.behind left).behind right :=
  List.foldl_append

@[simp] theorem reads_nil (reader : Reader) : reader.reads [] = [] := by
  rw [reads]

/-- The names read in two parts. -/
theorem reads_append (reader : Reader) (left right : List Char) :
    reader.reads (left ++ right) = reader.reads left ++ (reader.behind left).reads right := by
  induction left generalizing reader with
  | nil => rw [reads_nil]; rfl
  | cons current left ih =>
      rw [List.cons_append, reads, reads, ih, List.append_assoc, behind_cons]

/-- One character is passed over. -/
theorem reads_skip (text : List Char) : skip.reads text = plain.reads text.tail := by
  cases text with
  | nil => rw [List.tail_nil, reads_nil, reads_nil]
  | cons current text => rfl

/-- In a set nothing is read up to its end. -/
theorem reads_set (text : List Char) : set.reads text = plain.reads (skipSet text) := by
  fun_induction skipSet text with
  | case1 => rw [reads_nil, reads_nil]
  | case2 => simp [reads, next, spells]
  | case3 => simp [reads, spells]
  | case4 escaped text hclose ih => simpa [reads, next, spells] using ih
  | case5 current text hclose hescape ih => simpa [reads, next, spells, hclose, hescape] using ih

/-- Behind a parenthesis without a question mark one character is passed over. -/
theorem reads_opened {text : List Char} (htext : text.head? ≠ some '?') :
    opened.reads text = plain.reads text.tail := by
  cases text with
  | nil => rw [List.tail_nil, reads_nil, reads_nil]
  | cons current text =>
      have hcurrent : current ≠ '?' := by simpa using htext
      simp [reads, next, spells, hcurrent]

theorem reads_query {text : List Char} (htext : text.head? ≠ some '<') :
    query.reads text = plain.reads text.tail := by
  cases text with
  | nil => rw [List.tail_nil, reads_nil, reads_nil]
  | cons current text =>
      have hcurrent : current ≠ '<' := by simpa using htext
      simp [reads, next, spells, hcurrent]

/-- A name is read to its end, and looked up if that is a closing angle bracket. -/
theorem reads_name (letters text : List Char) :
    (name letters).reads text =
      (if (text.dropWhile isNameChar).head? = some '>' then
        [letters ++ text.takeWhile isNameChar] else []) ++
        plain.reads (text.dropWhile isNameChar).tail := by
  induction text generalizing letters with
  | nil => simp
  | cons current text ih =>
      rw [reads]
      cases hname : isNameChar current with
      | true =>
          have hangle : current ≠ '>' := by
            rintro rfl
            exact absurd hname (by decide)
          simp [next, spells, hname, hangle, ih]
      | false =>
          rw [List.dropWhile_cons_of_neg (by simp [hname]),
            List.takeWhile_cons_of_neg (by simp [hname]), next, hname]
          by_cases hangle : current = '>' <;> simp [spells, hangle]

/-- What stands behind an opening parenthesis: a name if it starts with a query and an
angle bracket, else one or two characters that are passed over. -/
theorem reads_paren (text : List Char) :
    opened.reads text =
      if text.head? ≠ some '?' then plain.reads text.tail
      else if text.tail.head? ≠ some '<' then plain.reads text.tail.tail
      else
        (if (text.tail.tail.dropWhile isNameChar).head? = some '>' then
          [text.tail.tail.takeWhile isNameChar] else []) ++
          plain.reads (text.tail.tail.dropWhile isNameChar).tail := by
  split
  next hquery => exact reads_opened hquery
  next hquery =>
    obtain ⟨rest, rfl⟩ : ∃ rest, text = '?' :: rest := by
      simpa [List.head?_eq_some_iff] using hquery
    split
    next hangle => exact reads_query hangle
    next hangle =>
      obtain ⟨letters, rfl⟩ : ∃ letters, rest = '<' :: letters := by
        simpa [List.head?_eq_some_iff] using hangle
      exact reads_name [] letters

theorem length_skipSet_le (text : List Char) : (skipSet text).length ≤ text.length := by
  fun_induction skipSet text with
  | case1 => exact Nat.le_refl 0
  | case2 => exact Nat.le_succ _
  | case3 => exact Nat.zero_le _
  | case4 escaped text hclose ih => exact ih.trans (Nat.le_add_right _ 2)
  | case5 current text hclose hescape ih => exact ih.trans (Nat.le_succ _)

end Reader

/-- The loop looks up the names the pattern text spells, one after the other. -/
theorem captureLoop_eq (pattern : CompiledPattern) {fuel : Nat} {text : List Char}
    (hfuel : text.length ≤ fuel) (names : List (List Char)) :
    captureLoop pattern fuel text names =
      (Reader.plain.reads text).foldl (record pattern) names := by
  induction fuel generalizing text names with
  | zero =>
      obtain rfl := List.length_eq_zero_iff.mp (Nat.le_zero.mp hfuel)
      rw [captureLoop, Reader.reads_nil, List.foldl_nil]
  | succ fuel ih =>
      cases text with
      | nil => rw [captureLoop, Reader.reads_nil, List.foldl_nil]
      | cons current text =>
          have hrest : text.length ≤ fuel := Nat.le_of_succ_le_succ hfuel
          have htail : ∀ {rest : List Char}, rest.length ≤ fuel → rest.tail.length ≤ fuel :=
            fun hle => (List.tail_sublist _).length_le.trans hle
          have hspells : (Reader.plain.spells current).toList = [] := rfl
          rw [captureLoop, Reader.reads, hspells, List.nil_append, Reader.next]
          split
          next => rw [ih (htail hrest), ← Reader.reads_skip]
          next =>
            split
            next => rw [ih ((Reader.length_skipSet_le text).trans hrest), ← Reader.reads_set]
            next =>
              split
              next =>
                rw [Reader.reads_paren]
                split
                next => rw [ih (htail hrest)]
                next =>
                  split
                  next => rw [ih (htail (htail hrest))]
                  next =>
                    have hdrop :=
                      (List.dropWhile_sublist isNameChar (l := text.tail.tail)).length_le
                    simp only
                    rw [ih (htail (hdrop.trans (htail (htail hrest)))), List.foldl_append]
                    split <;> rfl
              next => exact ih hrest names

/-! ## Patterns -/

/-- The characters with a meaning of their own outside of sets. -/
def ruleChars : List Char := ['*', '?', '+', '[', '(', ')', '{', '}', '^', '$', '|', '\\', '.']

/-- A character that stands for itself. -/
structure Literal where
  char : Char
  literal : char ∉ ruleChars

/-- A name as the scanner reads it: letters and digits, and at least one of them. -/
structure GroupName where
  letters : List Char
  alphanumeric : letters.all isNameChar
  nonempty : letters ≠ []

/-- A member of a set. -/
inductive SetItem where
  | plain (char : Char) (hplain : char ≠ '[' ∧ char ≠ ']' ∧ char ≠ '\\')
  | escaped (char : Char)

/-- A set without sets in it. A closing bracket right behind its opening is a member. -/
structure BracketSet where
  negated : Bool
  bracket : Bool
  items : List SetItem
  nonempty : bracket ∨ items ≠ []

/-- How a group opens. -/
inductive GroupKind where
  | capturing
  | nonCapturing
  | named (name : GroupName)

/-- The syntax of a pattern, as far as groups, sets and escapes tell it. -/
inductive Regex where
  | empty
  | literal (single : Literal)
  | escaped (char : Char)
  | set (members : BracketSet)
  | group (kind : GroupKind) (body : Regex)
  | concat (left right : Regex)

/-- A member of a set as it is written. -/
def SetItem.text : SetItem → List Char
  | .plain char _ => [char]
  | .escaped char => ['\\', char]

/-- A set as it is written. -/
def BracketSet.text (set : BracketSet) : List Char :=
  '[' :: ((if set.negated then ['^'] else []) ++ (if set.bracket then [']'] else []) ++
    set.items.flatMap SetItem.text ++ [']'])

/-- What a group begins with. -/
def GroupKind.opening : GroupKind → List Char
  | .capturing => ['(']
  | .nonCapturing => ['(', '?', ':']
  | .named name => ['(', '?', '<'] ++ name.letters ++ ['>']

/-- The capturing groups that an opening parenthesis opens. -/
def GroupKind.groups : GroupKind → List (Option (List Char))
  | .capturing => [none]
  | .nonCapturing => []
  | .named name => [some name.letters]

namespace Regex

/-- The pattern as it is written. -/
def text : Regex → List Char
  | empty => []
  | literal single => [single.char]
  | escaped char => ['\\', char]
  | set members => members.text
  | group kind body => kind.opening ++ body.text ++ [')']
  | concat left right => left.text ++ right.text

/-- The capture groups in the order of their parentheses, with their names. -/
def groups : Regex → List (Option (List Char))
  | empty | literal _ | escaped _ | set _ => []
  | group kind body => kind.groups ++ body.groups
  | concat left right => left.groups ++ right.groups

end Regex

/-- ICU has compiled the pattern: it numbers the groups from one, in their order, and
knows no other names. -/
structure CompiledPattern.Of (pattern : CompiledPattern) (regex : Regex) : Prop where
  patternText : pattern.patternText = (regex.text, zeroError)
  groupCount : pattern.groupCount = regex.groups.length
  named : ∀ (index : Nat) name, regex.groups[index]? = some (some name) →
    pattern.groupNumberFromName name = ((index : Int) + 1, zeroError)
  unnamed : ∀ name, some name ∉ regex.groups →
    failed (pattern.groupNumberFromName name).2 = true

/-! ## Patterns and the scanner -/

/-- Where the scanner is between the parts of a pattern: in step with it, about to pass
over a character, or looking for the end of a set. -/
inductive Place where
  | step
  | drop
  | set
  deriving DecidableEq, Repr

namespace Place

/-- Behind an escaped character whose backslash was passed over. -/
def bare (char : Char) : Place :=
  if char = '(' ∨ char = '\\' then drop else if char = '[' then set else step

/-- Behind the opening of a group. -/
def opening (kind : GroupKind) : Place → Place
  | step => match kind with
    | .capturing => drop
    | .nonCapturing | .named _ => step
  | drop => step
  | set => set

/-- Behind a closing parenthesis. -/
def closing : Place → Place
  | step => step
  | drop => step
  | set => set

end Place

/-- The names a set spells when its members are read as text. -/
def BracketSet.spelled (set : BracketSet) : List (List Char) :=
  Reader.plain.reads (set.items.flatMap SetItem.text)

/-- The name of a group is read if the scanner is in step where the group opens. -/
def GroupKind.readAt : GroupKind → Place → List (List Char)
  | .named name, .step => [name.letters]
  | _, _ => []

namespace Regex

/-- Where the scanner is behind a pattern. A set always brings it back in step. -/
def behind : Regex → Place → Place
  | empty, place => place
  | literal single, .set => if single.char = ']' then .step else .set
  | literal _, _ => .step
  | escaped _, .step => .step
  | escaped char, .drop => .bare char
  | escaped _, .set => .set
  | set _, _ => .step
  | group kind body, place => (body.behind (place.opening kind)).closing
  | concat left right, place => right.behind (left.behind place)

/-- The names that are looked up. A set whose opening bracket is passed over, or that
starts with a closing one, is read as text. -/
def looked : Regex → Place → List (List Char)
  | empty, _ | literal _, _ | escaped _, _ => []
  | set members, place => if members.bracket ∨ place = .drop then members.spelled else []
  | group kind body, place => kind.readAt place ++ body.looked (place.opening kind)
  | concat left right, place => left.looked place ++ right.looked (left.behind place)

/-- Every named group opens where the scanner is in step, or its name also stands in a
set that is read as text. -/
def NamesMet (regex : Regex) : Prop :=
  ∀ name, some name ∈ regex.groups → name ∈ regex.looked .step

end Regex

/-! ## Reading a pattern part by part -/

/-- How the scanner can be in a place. -/
def Place.Shows : Place → Reader → Prop
  | .step, reader => reader = .plain
  | .drop, reader => reader = .skip ∨ reader = .opened
  | .set, reader => reader = .set

/-- Reading a text from one place leads to the other, and spells these names. -/
def Follows (place : Place) (text : List Char) (place' : Place) (names : List (List Char)) :
    Prop :=
  ∀ reader, place.Shows reader → place'.Shows (reader.behind text) ∧ reader.reads text = names

section Follows

variable {place middle place' : Place} {left right text : List Char}
  {names names' : List (List Char)} {current : Char}

theorem Follows.nil (place : Place) : Follows place [] place [] :=
  fun reader hshows => ⟨hshows, reader.reads_nil⟩

/-- Two parts that follow each other. -/
theorem Follows.append (hleft : Follows place left middle names)
    (hright : Follows middle right place' names') :
    Follows place (left ++ right) place' (names ++ names') := by
  intro reader hshows
  obtain ⟨hmiddle, hnames⟩ := hleft reader hshows
  obtain ⟨hend, hnames'⟩ := hright _ hmiddle
  rw [Reader.behind_append, Reader.reads_append, hnames, hnames']
  exact ⟨hend, rfl⟩

theorem follows_step (hcurrent : current ≠ '\\' ∧ current ≠ '[' ∧ current ≠ '(') :
    Follows .step [current] .step [] := by
  rintro reader rfl
  obtain ⟨hescape, hset, hparen⟩ := hcurrent
  exact ⟨by simp [Place.Shows, Reader.next, hescape, hset, hparen], rfl⟩

theorem follows_drop (hcurrent : current ≠ '?') : Follows .drop [current] .step [] := by
  rintro reader (rfl | rfl)
  · exact ⟨rfl, rfl⟩
  · exact ⟨by simp [Place.Shows, Reader.next, hcurrent], rfl⟩

theorem follows_set (hcurrent : current ≠ ']' ∧ current ≠ '\\') :
    Follows .set [current] .set [] := by
  rintro reader rfl
  exact ⟨by simp [Place.Shows, Reader.next, hcurrent.1, hcurrent.2], rfl⟩

theorem follows_close : Follows .set [']'] .step [] := by
  rintro reader rfl
  exact ⟨rfl, rfl⟩

theorem follows_escape (current : Char) : Follows .step ['\\', current] .step [] := by
  rintro reader rfl
  exact ⟨rfl, rfl⟩

theorem follows_set_escape (current : Char) : Follows .set ['\\', current] .set [] := by
  rintro reader rfl
  exact ⟨rfl, rfl⟩

/-- The backslash is passed over, and the character behind it counts. -/
theorem follows_drop_escape (current : Char) :
    Follows .drop ['\\', current] (.bare current) [] := by
  have hbare : (Place.bare current).Shows (Reader.plain.next current) := by
    rw [Place.bare, Reader.next]
    by_cases hparen : current = '('
    · subst hparen
      exact .inr rfl
    · by_cases hescape : current = '\\'
      · subst hescape
        exact .inl rfl
      · rw [if_neg (by simp [hparen, hescape]), if_neg hescape]
        split <;> rfl
  rintro reader (rfl | rfl) <;> exact ⟨hbare, rfl⟩

/-- Characters without a meaning to the scanner. -/
theorem follows_step_all
    (htext : ∀ current ∈ text, current ≠ '\\' ∧ current ≠ '[' ∧ current ≠ '(') :
    Follows .step text .step [] := by
  induction text with
  | nil => exact .nil _
  | cons current text ih =>
      exact (follows_step (htext current List.mem_cons_self)).append
        (ih fun other hmem => htext other (List.mem_cons_of_mem _ hmem))

/-- The members of a set are passed over. -/
theorem follows_set_all (htext : ∀ current ∈ text, current ≠ ']' ∧ current ≠ '\\') :
    Follows .set text .set [] := by
  induction text with
  | nil => exact .nil _
  | cons current text ih =>
      exact (follows_set (htext current List.mem_cons_self)).append
        (ih fun other hmem => htext other (List.mem_cons_of_mem _ hmem))

end Follows

/-! ## Sets -/

section Sets

theorem SetItem.follows_set (item : SetItem) : Follows .set item.text .set [] := by
  cases item with
  | plain char hplain => exact RegexSearch.follows_set ⟨hplain.2.1, hplain.2.2⟩
  | escaped char => exact follows_set_escape char

theorem follows_items (items : List SetItem) :
    Follows .set (items.flatMap SetItem.text) .set [] := by
  induction items with
  | nil => exact .nil _
  | cons item items ih => exact item.follows_set.append ih

/-- Between the members of a set that is read as text no backslash is pending in a set. -/
theorem SetItem.behind_ne_skipInSet (item : SetItem) {reader : Reader}
    (hreader : reader ≠ .skipInSet) : reader.behind item.text ≠ .skipInSet := by
  have hplain : ∀ char, Reader.plain.next char ≠ .skipInSet := by
    intro char
    rw [Reader.next]
    split_ifs <;> simp
  cases item with
  | plain char hchar =>
      change reader.next char ≠ .skipInSet
      cases reader with
      | plain => exact hplain char
      | skipInSet => exact absurd rfl hreader
      | set => simp [Reader.next, hchar.2.1, hchar.2.2]
      | skip => simp [Reader.next]
      | opened | query | name letters =>
          rw [Reader.next]
          split <;> simp
  | escaped char =>
      change (reader.next '\\').next char ≠ .skipInSet
      cases reader with
      | skipInSet => exact absurd rfl hreader
      | plain => simp [Reader.next]
      | set => simp [Reader.next]
      | skip | opened | query | name letters => exact hplain char

theorem items_behind_ne_skipInSet (items : List SetItem) {reader : Reader}
    (hreader : reader ≠ .skipInSet) :
    reader.behind (items.flatMap SetItem.text) ≠ .skipInSet := by
  induction items generalizing reader with
  | nil => exact hreader
  | cons item items ih =>
      rw [List.flatMap_cons, Reader.behind_append]
      exact ih (item.behind_ne_skipInSet hreader)

/-- So its closing bracket brings the scanner back in step, whatever the members were
taken for. -/
theorem follows_spelled (set : BracketSet) :
    Follows .step (set.items.flatMap SetItem.text ++ [']']) .step set.spelled := by
  rintro reader rfl
  have hreader := items_behind_ne_skipInSet set.items (show Reader.plain ≠ .skipInSet by simp)
  rw [Reader.behind_append, Reader.reads_append]
  have hclose : ∀ reader, reader ≠ Reader.skipInSet →
      reader.behind [']'] = .plain ∧ reader.reads [']'] = [] := by
    intro reader hreader
    cases reader with
    | skipInSet => exact absurd rfl hreader
    | plain | skip | set | opened | query | name letters => exact ⟨rfl, rfl⟩
  obtain ⟨hbehind, hreads⟩ := hclose _ hreader
  exact ⟨hbehind, by rw [hreads, List.append_nil]; rfl⟩

/-- Behind a set the reader stands where it stood, unless it took the bracket for another character.
-/
theorem BracketSet.follows (set : BracketSet) (place : Place) :
    Follows place set.text .step (if set.bracket ∨ place = .drop then set.spelled else []) := by
  -- behind the opening bracket the scanner is in a set, unless it passed the bracket over
  have hopen : Follows place ['['] (if place = .drop then .step else .set) [] := by
    cases place with
    | step =>
        rintro reader rfl
        exact ⟨rfl, rfl⟩
    | drop => exact follows_drop (by decide)
    | set => exact RegexSearch.follows_set (by decide)
  have hcaret : ∀ inside : Place, inside ≠ .drop →
      Follows inside (if set.negated then ['^'] else []) inside [] := by
    intro inside hinside
    split
    next =>
      cases inside with
      | step => exact follows_step (by decide)
      | drop => exact absurd rfl hinside
      | set => exact RegexSearch.follows_set (by decide)
    next => exact .nil _
  have hbracket : ∀ inside : Place, inside ≠ .drop → Follows inside [']'] .step [] := by
    intro inside hinside
    cases inside with
    | step => exact follows_step (by decide)
    | drop => exact absurd rfl hinside
    | set => exact follows_close
  have hinside : (if place = .drop then Place.step else .set) ≠ .drop := by
    split <;> simp
  have hfront := hopen.append (hcaret _ hinside)
  have htext : set.text = ['['] ++ (if set.negated then ['^'] else []) ++
      ((if set.bracket then [']'] else []) ++ (set.items.flatMap SetItem.text ++ [']'])) := by
    simp [BracketSet.text]
  rw [htext]
  cases hmember : set.bracket with
  | true =>
      rw [if_pos rfl, if_pos (Or.inl rfl)]
      exact hfront.append ((hbracket _ hinside).append (follows_spelled set))
  | false =>
      rw [if_neg Bool.false_ne_true]
      by_cases hdrop : place = .drop
      · rw [if_pos hdrop] at hfront
        rw [if_pos (Or.inr hdrop)]
        exact hfront.append ((Follows.nil _).append (follows_spelled set))
      · rw [if_neg hdrop] at hfront
        rw [if_neg (show ¬ (false = true ∨ place = .drop) by simp [hdrop])]
        exact hfront.append ((Follows.nil _).append ((follows_items _).append follows_close))

end Sets

/-! ## Groups -/

section Groups

theorem isNameChar_ne {current other : Char} (hname : isNameChar current = true)
    (hother : isNameChar other = false) : current ≠ other := by
  rintro rfl
  rw [hname] at hother
  exact Bool.noConfusion hother

theorem GroupName.mem_ne (name : GroupName) {current other : Char}
    (hmem : current ∈ name.letters) (hother : isNameChar other = false) : current ≠ other :=
  isNameChar_ne (List.all_eq_true.mp name.alphanumeric current hmem) hother

theorem Reader.name_letters (letters front : List Char) (hletters : letters.all isNameChar) :
    (name front).behind letters = name (front ++ letters) ∧ (name front).reads letters = [] := by
  induction letters generalizing front with
  | nil => exact ⟨by rw [List.append_nil]; rfl, reads_nil _⟩
  | cons letter letters ih =>
      rw [List.all_cons, Bool.and_eq_true] at hletters
      obtain ⟨hbehind, hreads⟩ := ih (front ++ [letter]) hletters.2
      have hnext : (name front).next letter = name (front ++ [letter]) := by
        rw [next, if_pos hletters.1]
      have hangle : letter ≠ '>' := isNameChar_ne hletters.1 (by decide)
      rw [behind_cons, hnext, hbehind, reads, hnext, hreads, List.append_assoc]
      exact ⟨rfl, by simp [spells, hangle]⟩

/-- The name of a group is read. -/
theorem follows_name (name : GroupName) :
    Follows .step (GroupKind.named name).opening .step [name.letters] := by
  rintro reader rfl
  have hopening : (GroupKind.named name).opening =
      '(' :: '?' :: '<' :: (name.letters ++ ['>']) := by
    simp [GroupKind.opening]
  obtain ⟨hbehind, hreads⟩ := Reader.name_letters name.letters [] name.alphanumeric
  have hangle : isNameChar '>' = false := by decide
  rw [hopening]
  refine ⟨?_, ?_⟩
  · change (Reader.name []).behind (name.letters ++ ['>']) = .plain
    rw [Reader.behind_append, hbehind, Reader.behind_cons, Reader.next, hangle]
    rfl
  · change (Reader.name []).reads (name.letters ++ ['>']) = [name.letters]
    rw [Reader.reads_append, hbehind, hreads]
    rfl

/-- What is read where a group opens. -/
theorem follows_opening (kind : GroupKind) (place : Place) :
    Follows place kind.opening (place.opening kind) (kind.readAt place) := by
  obtain ⟨behind, hopening, hplain, hset⟩ : ∃ behind, kind.opening = '(' :: behind ∧
      (∀ current ∈ behind, current ≠ '\\' ∧ current ≠ '[' ∧ current ≠ '(') ∧
      ∀ current ∈ behind, current ≠ ']' ∧ current ≠ '\\' := by
    cases kind with
    | capturing => exact ⟨[], rfl, by simp, by simp⟩
    | nonCapturing => exact ⟨['?', ':'], rfl, by simp, by simp⟩
    | named name =>
        have hletters : ∀ current ∈ '?' :: '<' :: (name.letters ++ ['>']), ∀ other,
            isNameChar other = false → other ∉ ['?', '<', '>'] → current ≠ other := by
          intro current hmem other hother hnot
          simp only [List.mem_cons, List.mem_append, List.not_mem_nil, or_false] at hmem hnot
          rcases hmem with rfl | rfl | hmem | rfl
          · exact fun heq => hnot (.inl heq.symm)
          · exact fun heq => hnot (.inr (.inl heq.symm))
          · exact name.mem_ne hmem hother
          · exact fun heq => hnot (.inr (.inr heq.symm))
        refine ⟨'?' :: '<' :: (name.letters ++ ['>']), by simp [GroupKind.opening], ?_, ?_⟩
        · intro current hmem
          exact ⟨hletters current hmem _ (by decide) (by decide),
            hletters current hmem _ (by decide) (by decide),
            hletters current hmem _ (by decide) (by decide)⟩
        · intro current hmem
          exact ⟨hletters current hmem _ (by decide) (by decide),
            hletters current hmem _ (by decide) (by decide)⟩
  cases place with
  | step =>
      cases kind with
      | capturing =>
          rintro reader rfl
          exact ⟨.inr rfl, rfl⟩
      | nonCapturing =>
          rintro reader rfl
          exact ⟨rfl, rfl⟩
      | named name => exact follows_name name
  | drop =>
      -- the parenthesis is passed over and the rest has no meaning
      have hfollows := (follows_drop (show '(' ≠ '?' by decide)).append (follows_step_all hplain)
      rw [hopening]
      cases kind <;> exact hfollows
  | set =>
      have hfollows := (follows_set (show '(' ≠ ']' ∧ '(' ≠ '\\' by decide)).append
        (follows_set_all hset)
      rw [hopening]
      cases kind <;> exact hfollows

/-- Where a group closes nothing is read. -/
theorem follows_closing (place : Place) : Follows place [')'] place.closing [] := by
  cases place with
  | step => exact follows_step (by decide)
  | drop => exact follows_drop (by decide)
  | set => exact follows_set (by decide)

end Groups

/-- The places and the names of a pattern are those of the scanner on its text. -/
theorem Regex.follows (regex : Regex) (place : Place) :
    Follows place regex.text (regex.behind place) (regex.looked place) := by
  induction regex generalizing place with
  | empty => exact .nil place
  | literal single =>
      have hliteral : ∀ other ∈ ruleChars, single.char ≠ other :=
        fun other hmem heq => single.literal (heq ▸ hmem)
      cases place with
      | step =>
          exact follows_step ⟨hliteral _ (by decide), hliteral _ (by decide),
            hliteral _ (by decide)⟩
      | drop => exact follows_drop (hliteral _ (by decide))
      | set =>
          rw [text, behind]
          split
          next hclose =>
            rw [hclose]
            exact follows_close
          next hclose => exact follows_set ⟨hclose, hliteral _ (by decide)⟩
  | escaped char =>
      cases place with
      | step => exact follows_escape char
      | drop => exact follows_drop_escape char
      | set => exact follows_set_escape char
  | set members => exact members.follows place
  | group kind body ih =>
      have hfollows := ((follows_opening kind place).append (ih _)).append (follows_closing _)
      rwa [List.append_nil] at hfollows
  | concat left right hleft hright => exact (hleft place).append (hright _)

/-! ## The names that are found -/

/-- The names of the groups, as far as they have been looked up. -/
def filled (groups : List (Option (List Char))) (looked : List (List Char)) :
    List (List Char) :=
  groups.map fun group => (group.filter fun name => decide (name ∈ looked)).getD []

/-- What `captureNames` is for: the name of every group, empty for a group without one. -/
def Regex.groupNames (regex : Regex) : List (List Char) :=
  regex.groups.map fun group => group.getD []

section Names

variable {pattern : CompiledPattern} {regex : Regex} {looked : List (List Char)}

theorem filled_nil (groups : List (Option (List Char))) :
    filled groups [] = List.replicate groups.length [] := by
  rw [filled, ← List.map_const]
  apply List.map_congr_left
  intro group _
  cases group with
  | none => rfl
  | some name => simp

/-- A name that no group has changes nothing. -/
theorem filled_of_notMem {groups : List (Option (List Char))} {name : List Char}
    (hname : some name ∉ groups) : filled groups (looked ++ [name]) = filled groups looked := by
  apply List.map_congr_left
  intro group hgroup
  cases group with
  | none => rfl
  | some other =>
      have hother : other ≠ name := fun heq => hname (heq ▸ hgroup)
      simp [Option.filter_some, hother]

/-- A name that only the group at `index` has fills its place. -/
theorem filled_of_mem {groups : List (Option (List Char))} {index : Nat} {name : List Char}
    (hindex : groups[index]? = some (some name))
    (honly : ∀ other, groups[other]? = some (some name) → other = index) :
    filled groups (looked ++ [name]) = (filled groups looked).set index name := by
  apply List.ext_getElem?
  intro other
  rw [List.getElem?_set, filled, filled, List.getElem?_map, List.getElem?_map]
  split
  next hother =>
    subst hother
    obtain ⟨hlength, -⟩ := List.getElem?_eq_some_iff.mp hindex
    rw [List.length_map, if_pos hlength, hindex]
    simp [Option.filter_some]
  next hother =>
    cases hgroup : groups[other]? with
    | none => rfl
    | some group =>
        cases group with
        | none => rfl
        | some name' =>
            have hne : name' ≠ name := by
              rintro rfl
              exact hother (honly other hgroup).symm
            simp [Option.filter_some, hne]

/-- A name is recorded at its group. -/
theorem record_filled (hpattern : pattern.Of regex) (name : List Char) :
    record pattern (filled regex.groups looked) name = filled regex.groups (looked ++ [name]) := by
  by_cases hmem : some name ∈ regex.groups
  · obtain ⟨index, hindex⟩ := List.mem_iff_getElem?.mp hmem
    obtain ⟨hlength, -⟩ := List.getElem?_eq_some_iff.mp hindex
    have honly : ∀ other, regex.groups[other]? = some (some name) → other = index := by
      intro other hother
      have hnumbers := (hpattern.named other name hother).symm.trans
        (hpattern.named index name hindex)
      have hnumber := (Prod.mk.inj hnumbers).1
      omega
    rw [record, hpattern.named index name hindex, filled_of_mem hindex honly]
    simp only [Int.add_sub_cancel, hpattern.groupCount]
    rw [if_neg (by decide), if_pos ⟨Int.natCast_nonneg index, Int.ofNat_lt.mpr hlength⟩,
      Int.toNat_natCast]
  · rw [filled_of_notMem hmem, record]
    simp only [hpattern.unnamed name hmem, if_true]

/-- Names are recorded one after another. -/
theorem foldl_record (hpattern : pattern.Of regex) (names : List (List Char)) :
    names.foldl (record pattern) (filled regex.groups looked) =
      filled regex.groups (looked ++ names) := by
  induction names generalizing looked with
  | nil => rw [List.append_nil, List.foldl_nil]
  | cons name names ih =>
      rw [List.foldl_cons, record_filled hpattern, ih, List.append_assoc]
      rfl

/-- The names of the groups are those that the scanner looked up. -/
theorem captureNames_eq (hpattern : pattern.Of regex) :
    captureNames (some pattern) = (filled regex.groups (regex.looked .step), zeroError) := by
  have hreads : Reader.plain.reads regex.text = regex.looked .step :=
    (regex.follows .step .plain rfl).2
  have hnames := @foldl_record pattern regex [] hpattern (regex.looked .step)
  rw [filled_nil, ← hpattern.groupCount, List.nil_append] at hnames
  rw [captureNames, hpattern.patternText]
  simp only [show failed zeroError = false from rfl, Bool.false_eq_true, if_false]
  rw [captureLoop_eq pattern (Nat.le_refl _), hreads, hnames]
  split
  next hnone =>
    rw [hpattern.groupCount, Nat.le_zero, List.length_eq_zero_iff] at hnone
    rw [hpattern.groupCount, hnone]
    rfl
  next => rfl

/-- The names are complete when every named group has been looked up. -/
theorem filled_eq_iff (hnonempty : ∀ name, some name ∈ regex.groups → name ≠ []) :
    filled regex.groups looked = regex.groupNames ↔
      ∀ name, some name ∈ regex.groups → name ∈ looked := by
  rw [filled, Regex.groupNames, List.map_inj_left]
  constructor
  · intro hsame name hmem
    by_contra hnot
    have hempty := hsame (some name) hmem
    simp only [Option.filter_some, hnot, decide_false, Bool.false_eq_true, if_false,
      Option.getD_none, Option.getD_some] at hempty
    exact hnonempty name hmem hempty.symm
  · intro hlooked group hmem
    cases group with
    | none => rfl
    | some name => simp [Option.filter_some, hlooked name hmem]

/-- No group has an empty name. -/
theorem Regex.name_ne_nil (regex : Regex) : ∀ name, some name ∈ regex.groups → name ≠ [] := by
  induction regex with
  | empty | literal single | escaped char | set members => simp [groups]
  | group kind body ih =>
      intro name hmem
      rw [groups, List.mem_append] at hmem
      rcases hmem with hmem | hmem
      · cases kind with
        | capturing | nonCapturing => simp [GroupKind.groups] at hmem
        | named own =>
            obtain rfl : name = own.letters := by simpa [GroupKind.groups] using hmem
            exact own.nonempty
      · exact ih name hmem
  | concat left right hleft hright =>
      intro name hmem
      rw [groups, List.mem_append] at hmem
      exact hmem.elim (hleft name) (hright name)

end Names

/-- The scanner gives every named group its name, and no other group one, exactly when
every named group opens where the scanner is in step with the pattern, or has its name
spelled in a set that the scanner reads as text. -/
theorem captureNames_iff {pattern : CompiledPattern} {regex : Regex}
    (hpattern : pattern.Of regex) :
    captureNames (some pattern) = (regex.groupNames, zeroError) ↔ regex.NamesMet := by
  rw [captureNames_eq hpattern, Prod.mk.injEq, filled_eq_iff regex.name_ne_nil]
  exact and_iff_left rfl

/-! ## Patterns that lose a name and patterns that keep it -/

/-- `U_REGEX_INVALID_CAPTURE_GROUP_NAME` -/
def invalidCaptureGroupName : UErrorCode := 66325

/-- What ICU makes of a pattern whose names are distinct. -/
def compiled (regex : Regex) : CompiledPattern where
  patternText := (regex.text, zeroError)
  groupCount := regex.groups.length
  groupNumberFromName name :=
    if some name ∈ regex.groups then ((regex.groups.idxOf (some name) : Int) + 1, zeroError)
    else (0, invalidCaptureGroupName)

/-- A pattern compiles to its groups. -/
theorem compiled_of {regex : Regex} (hdistinct : ∀ (index other : Nat) (name : List Char),
    regex.groups[index]? = some (some name) → regex.groups[other]? = some (some name) →
      index = other) : (compiled regex).Of regex where
  patternText := rfl
  groupCount := rfl
  named index name hindex := by
    have hmem : some name ∈ regex.groups := List.mem_of_getElem? hindex
    have hfirst : regex.groups.idxOf (some name) = index :=
      hdistinct _ _ name (List.getElem?_idxOf hmem) hindex
    simp only [compiled, if_pos hmem, hfirst]
  unnamed name hnot := by
    simp only [compiled, if_neg hnot]
    rfl

/-- The pattern `a`. -/
def letterA : Regex := .literal ⟨'a', by decide⟩

/-- `(?<n>a)` -/
def namedA : Regex := .group (.named ⟨['n'], by decide, by decide⟩) letterA

/-- `(a(?<n>a))` and `((?<n>a))` have the groups of one plain and one named pattern. -/
theorem compiled_of_groups {regex : Regex} (hgroups : regex.groups = [none, some ['n']]) :
    (compiled regex).Of regex := by
  apply compiled_of
  rw [hgroups]
  have hsecond : ∀ (index : Nat) (name : List Char),
      [none, some ['n']][index]? = some (some name) → index = 1 := by
    intro index name hindex
    match index with
    | 0 => simp at hindex
    | 1 => rfl
    | index + 2 => simp at hindex
  intro index other name hindex hother
  rw [hsecond index name hindex, hsecond other name hother]

/-- Behind the `a` of `(a(?<n>a))` the scanner is in step again. -/
theorem captureNames_behind_letter :
    let regex : Regex := .group .capturing (.concat letterA namedA)
    captureNames (some (compiled regex)) = ([[], ['n']], zeroError) := by
  intro regex
  have hmet : regex.NamesMet := by
    intro name hmem
    obtain rfl : name = ['n'] := by
      simpa [regex, Regex.groups, GroupKind.groups, letterA, namedA] using hmem
    decide
  have hpattern : (compiled regex).Of regex := compiled_of_groups rfl
  exact (captureNames_iff hpattern).mpr hmet

/-- In `((?<n>a))` the inner parenthesis is passed over and the name is lost. -/
theorem captureNames_loses_nested :
    let regex : Regex := .group .capturing namedA
    (compiled regex).Of regex ∧ regex.groupNames = [[], ['n']] ∧
      captureNames (some (compiled regex)) = ([[], []], zeroError) ∧
      captureNames (some (compiled regex)) ≠ (regex.groupNames, zeroError) := by
  intro regex
  exact ⟨compiled_of_groups rfl, rfl, by decide, by decide⟩

end Charr.RegexSearch
