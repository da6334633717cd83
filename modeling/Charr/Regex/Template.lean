import Charr.Regex.Replace

/-!
# Replacement templates

ICU appends a replacement one character after the other. A backslash takes the
next character as it is, and a dollar sign a group by its name or by as many
digits as still give the number of a group. Which characters beyond ASCII are
digits and what a numeric escape stands for is in tables of ICU.
-/

namespace Charr.Template

open Regex (indexOutOfBounds invalidGroupName)

/-- The tables: the value of a digit beyond ASCII, and the escape that begins with
`u` or `U`, with the number of characters it moves over. -/
structure Icu where
  digitBeyondAscii : Char → Option Nat
  unescapeAt : List Char → Option Char × Nat

/-- `u_isdigit` and `u_charDigitValue`. -/
def Icu.charDigitValue (icu : Icu) (char : Char) : Option Nat :=
  if char.isDigit then some (char.toNat - '0'.toNat)
  else if char.toNat < 128 then none
  else icu.digitBeyondAscii char

/-- Read digits while the number stays a group of the pattern; what is left begins
with the first character that was not consumed. -/
def groupNumber (icu : Icu) (numCaptureGroups : Nat) :
    Nat → Nat → List Char → Except NativeError (Nat × List Char)
  | groupNum, _, [] => .ok (groupNum, [])
  | groupNum, numDigits, nextChar :: rest =>
      match icu.charDigitValue nextChar with
      | none => .ok (groupNum, nextChar :: rest)
      | some nextDigitVal =>
          if groupNum * 10 + nextDigitVal > numCaptureGroups then
            if numDigits = 0 then .error indexOutOfBounds else .ok (groupNum, nextChar :: rest)
          else groupNumber icu numCaptureGroups (groupNum * 10 + nextDigitVal) (numDigits + 1) rest

/-- The characters of a group name in a replacement; the zero is not among them. -/
def isNameChar (char : Char) : Bool :=
  ('A' ≤ char ∧ char ≤ 'Z') ∨ ('a' ≤ char ∧ char ≤ 'z') ∨ ('1' ≤ char ∧ char ≤ '9')

/-- Read the name of a group behind the opening brace. -/
def groupName (name : List Char) : List Char → Except NativeError (List Char × List Char)
  | [] => .error invalidGroupName
  | nextChar :: rest =>
      if isNameChar nextChar then groupName (name ++ [nextChar]) rest
      else if nextChar = '}' then .ok (name, rest)
      else .error invalidGroupName

section Append

variable (icu : Icu) (namedCapture : List Char → Nat) (groups : List (List Char))

/-- What follows a dollar sign: the number of a group, and the rest. The map of the
names gives no group the number zero. -/
def groupReference : List Char → Except NativeError (Nat × List Char)
  | [] => .error invalidGroupName
  | nextChar :: rest =>
      if nextChar = '{' then
        (groupName [] rest).bind fun (name, rest) =>
          if namedCapture name = 0 then .error invalidGroupName
          else .ok (namedCapture name, rest)
      else if (icu.charDigitValue nextChar).isSome then
        groupNumber icu (groups.length - 1) 0 0 (nextChar :: rest)
      else .error invalidGroupName

/-- The text of a group; one that took no part in the match is empty. -/
def appendGroup (groupNum : Nat) : Except NativeError (List Char) :=
  match groups[groupNum]? with
  | none => .error indexOutOfBounds
  | some text => .ok text

end Append

variable {icu : Icu} {namedCapture : List Char → Nat} {groups : List (List Char)}

/-! ## What a reference consumes -/

/-- A character that the loop copies. -/
def IsPlain (char : Char) : Prop :=
  char ≠ '\\' ∧ char ≠ '$'

/-- A digit is a plain character. -/
theorem isPlain_of_charDigitValue {char : Char} {value : Nat}
    (hvalue : icu.charDigitValue char = some value) : IsPlain char := by
  constructor <;> rintro rfl <;> simp [Icu.charDigitValue] at hvalue

theorem isPlain_of_isNameChar {char : Char} (hname : isNameChar char = true) : IsPlain char := by
  constructor <;> rintro rfl <;> revert hname <;> decide

/-- The number of a group takes digits only. -/
theorem groupNumber_consumes {numCaptureGroups groupNum numDigits : Nat} {template : List Char}
    {result : Nat × List Char}
    (hresult : groupNumber icu numCaptureGroups groupNum numDigits template = .ok result) :
    ∃ consumed, template = consumed ++ result.2 ∧ ∀ char ∈ consumed, IsPlain char := by
  induction template generalizing groupNum numDigits with
  | nil =>
      obtain rfl := Except.ok.inj hresult
      exact ⟨[], rfl, by simp⟩
  | cons nextChar rest ih =>
      rw [groupNumber] at hresult
      split at hresult
      next =>
        obtain rfl := Except.ok.inj hresult
        exact ⟨[], rfl, by simp⟩
      next value hvalue =>
        split_ifs at hresult
        · obtain rfl := Except.ok.inj hresult
          exact ⟨[], rfl, by simp⟩
        · obtain ⟨consumed, hrest, hplain⟩ := ih hresult
          refine ⟨nextChar :: consumed, by rw [hrest, List.cons_append], ?_⟩
          exact List.forall_mem_cons.mpr ⟨isPlain_of_charDigitValue hvalue, hplain⟩

/-- Its name takes plain characters only. -/
theorem groupName_consumes {name template : List Char} {result : List Char × List Char}
    (hresult : groupName name template = .ok result) :
    ∃ consumed, template = consumed ++ result.2 ∧ ∀ char ∈ consumed, IsPlain char := by
  induction template generalizing name with
  | nil => nomatch hresult
  | cons nextChar rest ih =>
      rw [groupName] at hresult
      split_ifs at hresult with hname hclosing
      · obtain ⟨consumed, hrest, hplain⟩ := ih hresult
        refine ⟨nextChar :: consumed, by rw [hrest, List.cons_append], ?_⟩
        exact List.forall_mem_cons.mpr ⟨isPlain_of_isNameChar hname, hplain⟩
      · obtain rfl := Except.ok.inj hresult
        refine ⟨[nextChar], rfl, fun char hchar => ?_⟩
        obtain rfl := List.mem_singleton.mp hchar
        subst hclosing
        exact ⟨by decide, by decide⟩

variable (icu namedCapture groups) in
theorem groupReference_consumes {template : List Char} {result : Nat × List Char}
    (hresult : groupReference icu namedCapture groups template = .ok result) :
    ∃ consumed, template = consumed ++ result.2 ∧ ∀ char ∈ consumed, IsPlain char := by
  cases template with
  | nil => nomatch hresult
  | cons nextChar rest =>
      rw [groupReference] at hresult
      split_ifs at hresult with hbrace
      · subst hbrace
        cases hname : groupName [] rest with
        | error error =>
            rw [hname] at hresult
            nomatch hresult
        | ok named =>
            obtain ⟨name, after⟩ := named
            obtain ⟨consumed, hrest, hplain⟩ := groupName_consumes hname
            rw [hname, Except.bind] at hresult
            dsimp only at hresult
            split_ifs at hresult
            obtain rfl := Except.ok.inj hresult
            refine ⟨'{' :: consumed, by rw [hrest, List.cons_append], ?_⟩
            exact List.forall_mem_cons.mpr ⟨⟨by decide, by decide⟩, hplain⟩
      · exact groupNumber_consumes hresult

theorem groupReference_length {template : List Char} {result : Nat × List Char}
    (hresult : groupReference icu namedCapture groups template = .ok result) :
    result.2.length ≤ template.length := by
  obtain ⟨consumed, rfl, -⟩ := groupReference_consumes icu namedCapture groups hresult
  exact List.length_append ▸ Nat.le_add_left _ _

/-! ## The loop -/

variable (icu namedCapture groups) in
/-- What is appended for a replacement. -/
def appendReplacement : List Char → Except NativeError (List Char)
  | [] => .ok []
  | char :: template =>
      if char = '\\' then
        match template with
        | [] => .ok []
        | quoted :: rest =>
            -- A malformed escape appends nothing, wherever its reading stopped.
            if quoted = 'U' ∨ quoted = 'u' then
              (appendReplacement ((quoted :: rest).drop (icu.unescapeAt (quoted :: rest)).2)).map
                ((icu.unescapeAt (quoted :: rest)).1.toList ++ ·)
            else (appendReplacement rest).map (quoted :: ·)
      else if char ≠ '$' then (appendReplacement template).map (char :: ·)
      else
        match _hreference : groupReference icu namedCapture groups template with
        | .error error => .error error
        | .ok (groupNum, rest) =>
            (appendGroup groups groupNum).bind fun text =>
              (appendReplacement rest).map (text ++ ·)
termination_by template => template.length
decreasing_by
  · simp only [List.length_drop, List.length_cons]
    omega
  · simp only [List.length_cons]
    omega
  · exact Nat.lt_succ_self _
  · exact Nat.lt_succ_of_le (groupReference_length _hreference)

@[simp] theorem appendReplacement_nil : appendReplacement icu namedCapture groups [] = .ok [] := by
  rw [appendReplacement.eq_def]

/-- A plain character is copied. -/
theorem appendReplacement_plain {char : Char} (hplain : IsPlain char) (template : List Char) :
    appendReplacement icu namedCapture groups (char :: template) =
      (appendReplacement icu namedCapture groups template).map (char :: ·) := by
  rw [appendReplacement.eq_def]
  dsimp only
  rw [if_neg hplain.1, if_pos hplain.2]

/-- A quoted character is copied. -/
theorem appendReplacement_quoted {char : Char} (hupper : char ≠ 'U') (hlower : char ≠ 'u')
    (template : List Char) :
    appendReplacement icu namedCapture groups ('\\' :: char :: template) =
      (appendReplacement icu namedCapture groups template).map (char :: ·) := by
  rw [appendReplacement, if_pos rfl]
  exact if_neg (not_or.mpr ⟨hupper, hlower⟩)

/-- A backslash at the end is dropped. -/
theorem appendReplacement_open : appendReplacement icu namedCapture groups ['\\'] = .ok [] := by
  rw [appendReplacement.eq_def]
  exact if_pos rfl

/-- A dollar begins a reference. -/
theorem appendReplacement_dollar (template : List Char) :
    appendReplacement icu namedCapture groups ('$' :: template) =
      (groupReference icu namedCapture groups template).bind fun reference =>
        (appendGroup groups reference.1).bind fun text =>
          (appendReplacement icu namedCapture groups reference.2).map (text ++ ·) := by
  rw [appendReplacement.eq_def]
  dsimp only
  rw [if_neg (by decide), if_neg (by decide)]
  split
  next error herror => rw [herror]; rfl
  next groupNum rest hreference => rw [hreference]; rfl

/-- Plain characters are copied one after another. -/
theorem appendReplacement_append {consumed : List Char} (hplain : ∀ char ∈ consumed, IsPlain char)
    (template : List Char) :
    appendReplacement icu namedCapture groups (consumed ++ template) =
      (appendReplacement icu namedCapture groups template).map (consumed ++ ·) := by
  induction consumed with
  | nil =>
      rw [List.nil_append]
      cases appendReplacement icu namedCapture groups template <;> rfl
  | cons char consumed ih =>
      obtain ⟨hchar, hrest⟩ := List.forall_mem_cons.mp hplain
      rw [List.cons_append, appendReplacement_plain hchar, ih hrest]
      cases appendReplacement icu namedCapture groups template <;> rfl

/-! ## One digit -/

/-- The next character is no digit that the number could take. -/
def Ends (icu : Icu) (numCaptureGroups groupNum : Nat) (template : List Char) : Prop :=
  ∀ char ∈ template.head?, ∀ value, icu.charDigitValue char = some value →
    numCaptureGroups < groupNum * 10 + value

/-- Where no digit extends the number, it is complete. -/
theorem groupNumber_of_ends {numCaptureGroups groupNum numDigits : Nat} {template : List Char}
    (hends : Ends icu numCaptureGroups groupNum template) :
    groupNumber icu numCaptureGroups groupNum (numDigits + 1) template =
      .ok (groupNum, template) := by
  cases template with
  | nil => rfl
  | cons nextChar rest =>
      rw [groupNumber]
      split
      next => rfl
      next value hvalue =>
        rw [if_pos (hends nextChar rfl value hvalue), if_neg (Nat.succ_ne_zero _)]

theorem ne_brace_of_charDigitValue {char : Char} {value : Nat}
    (hvalue : icu.charDigitValue char = some value) : char ≠ '{' := by
  rintro rfl
  simp [Icu.charDigitValue] at hvalue

variable {numCaptureGroups : Nat} (hgroups : groups.length = numCaptureGroups + 1)

include hgroups in
/-- A digit begins the number of a group, which must be there. -/
theorem groupReference_number {digit : Char} {value : Nat} {template : List Char}
    (hdigit : icu.charDigitValue digit = some value) :
    groupReference icu namedCapture groups (digit :: template) =
      if value > numCaptureGroups then .error indexOutOfBounds
      else groupNumber icu numCaptureGroups value 1 template := by
  rw [groupReference, if_neg (ne_brace_of_charDigitValue hdigit), hdigit, Option.isSome_some,
    if_pos rfl, groupNumber, hdigit, hgroups, Nat.add_sub_cancel]
  simp only [Nat.zero_mul, Nat.zero_add, if_true]

include hgroups in
/-- A reference to a group, which is all that is consumed. -/
theorem appendReplacement_group {digit : Char} {number : Nat} {template : List Char}
    (hdigit : icu.charDigitValue digit = some number)
    (hends : Ends icu numCaptureGroups number template) :
    appendReplacement icu namedCapture groups ('$' :: digit :: template) =
      (appendGroup groups number).bind fun text =>
        (appendReplacement icu namedCapture groups template).map (text ++ ·) := by
  rw [appendReplacement_dollar, groupReference_number hgroups hdigit]
  split
  next hgt =>
    have hmissing : groups[number]? = none := List.getElem?_eq_none (by omega)
    rw [appendGroup, hmissing]
    rfl
  next =>
    rw [groupNumber_of_ends hends]
    rfl

include hgroups in
/-- A second digit that the number can take is consumed, too. -/
theorem groupReference_of_not_ends {digit : Char} {value : Nat} {template : List Char}
    {result : Nat × List Char} (hdigit : icu.charDigitValue digit = some value)
    (hends : ¬ Ends icu numCaptureGroups value template)
    (hresult : groupReference icu namedCapture groups (digit :: template) = .ok result) :
    ∃ next consumed, template = next :: (consumed ++ result.2) ∧
      ∀ char ∈ next :: consumed, IsPlain char := by
  simp only [Ends, not_forall] at hends
  obtain ⟨next, hnext, number, hnumber, hfits⟩ := hends
  obtain ⟨rest, rfl⟩ : ∃ rest, template = next :: rest := List.head?_eq_some_iff.mp hnext
  rw [groupReference_number hgroups hdigit] at hresult
  split_ifs at hresult
  rw [groupNumber, hnumber] at hresult
  dsimp only at hresult
  rw [if_neg hfits] at hresult
  obtain ⟨consumed, rfl, hplain⟩ := groupNumber_consumes hresult
  have hdigits := List.forall_mem_cons.mpr ⟨isPlain_of_charDigitValue hnumber, hplain⟩
  exact ⟨next, consumed, rfl, hdigits⟩

end Charr.Template
