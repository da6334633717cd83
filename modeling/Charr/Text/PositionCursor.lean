import Charr.Library.Cursor
import Charr.Text.StringView
import Charr.Text.Tokens

/-!
# Positions of code points

Searches report offsets of bytes or of UTF-16 units, while R counts code points. The
cursors convert offsets in any order; only ascending ones are converted in one pass.
-/

namespace Charr

open Utf8
open Walking (Cursor seek places)

/-! ## Bytes -/

/-- `data_`, `length_` and `ascii_`; the cursor holds `byte_` and `position_`. -/
structure Utf8PositionCursor where
  data : List UInt8
  length : Int
  cursor : Cursor
  ascii : Bool
  deriving DecidableEq

/-- A target outside of the text is taken for its nearer end. -/
def clamp (length target : Int) : Int :=
  let target := if length < target then length else target
  if target < 0 then 0 else target

namespace Utf8PositionCursor

/-- A cursor at the start of a string. -/
def create (value : StringView) : Utf8PositionCursor :=
  ⟨value.bytes, value.len, .fresh, value.enc = .ascii⟩

/-- The code points before a byte, counted on from the last answer. -/
def atByte (self : Utf8PositionCursor) (target : Int) : Int × Utf8PositionCursor :=
  if self.ascii then (clamp self.length target, self)
  else
    let cursor := seek (fwd1 self.data) (clamp self.length target).toNat self.cursor
    (cursor.steps, { self with cursor := cursor })

end Utf8PositionCursor

/-- The code points of a text that start before a byte. -/
def codePointsBefore (text : List UInt8) (target : Int) : Nat :=
  Nat.count (fun index => (offset text index : Int) < target) (codePointCount text)

/-- The view of a text, or of none. Marked as ASCII, it is. -/
structure TextView (value : StringView) : Prop where
  len_eq : value.isNull → value.len ≤ 0
  ascii : value.enc = .ascii → ∀ byte ∈ value.bytes, byte < 0x80

section Clamp

variable {length target : Int} {size : Nat}

/-- The target is cut to the text. -/
theorem clamp_toNat (hlength : length = size ∨ size = 0 ∧ length ≤ 0) :
    clamp length target = ((min target.toNat size : Nat) : Int) := by
  unfold clamp
  simp only
  split_ifs <;> omega

theorem lt_clamp_iff {place : Nat} (hplace : place < size) :
    place < min target.toNat size ↔ (place : Int) < target := by
  omega

end Clamp

namespace Utf8PositionCursor

/-- A cursor on the text of a view, wherever it is. -/
structure On (positions : Utf8PositionCursor) (value : StringView) : Prop where
  data_eq : positions.data = value.bytes
  length_eq : positions.length = value.len
  ascii_eq : positions.ascii = decide (value.enc = .ascii)
  reached : positions.cursor.Reached (fwd1 value.bytes)

variable {self : Utf8PositionCursor} {value : StringView}

theorem on_create (value : StringView) : (create value).On value :=
  ⟨rfl, rfl, rfl, Walking.Cursor.reached_fresh⟩

theorem length_bytes (hvalue : TextView value) :
    value.len = value.bytes.length ∨ value.bytes.length = 0 ∧ value.len ≤ 0 := by
  obtain ⟨data, enc⟩ := value
  cases data with
  | null len => exact .inr ⟨rfl, hvalue.len_eq rfl⟩
  | bytes span => exact .inl rfl

/-- Whatever it was asked before, a cursor answers with the number of code points that
start before the target. -/
theorem atByte_eq (hvalue : TextView value) (hon : self.On value) (target : Int) :
    (self.atByte target).1 = codePointsBefore value.bytes target ∧
      (self.atByte target).2.On value := by
  have hclamp : clamp self.length target = ((min target.toNat value.bytes.length : Nat) : Int) := by
    rw [hon.length_eq]
    exact clamp_toNat (length_bytes hvalue)
  -- a code point starts before the clamped target if it starts before the target
  have hbefore : ∀ index < codePointCount value.bytes,
      ((offset value.bytes index : Int) < target ↔
        offset value.bytes index < min target.toNat value.bytes.length) := by
    intro index hindex
    have hlast := offset_lt_offset value.bytes hindex le_rfl
    rw [offset_codePointCount] at hlast
    exact (lt_clamp_iff hlast).symm
  unfold atByte
  split
  next hascii =>
    refine ⟨?_, hon⟩
    have hbytes := hvalue.ascii (by simpa [hon.ascii_eq] using hascii)
    have hall := codePointCount_ascii hbytes
    rw [hclamp, codePointsBefore, Walking.count_of_iff]
    · rw [hall]
      exact Nat.min_le_right _ _
    · intro index hindex
      rw [hbefore index hindex, offset_ascii hbytes]
      rw [hall] at hindex
      rw [Nat.min_eq_left hindex.le]
  next hascii =>
    rw [hclamp, Int.toNat_natCast, hon.data_eq]
    have hplaces : ∀ index ≤ codePointCount value.bytes,
        places (fwd1 value.bytes) index = offset value.bytes index :=
      fun index hindex => (offset_eq_boundary value.bytes hindex).symm
    obtain ⟨hreached, -, -⟩ := Walking.seek_reached (lt_fwd1 value.bytes) hon.reached
      (min target.toNat value.bytes.length)
    refine ⟨?_, rfl, hon.length_eq, hon.ascii_eq, hreached⟩
    apply Int.ofNat_inj.mpr
    apply Walking.seek_steps (lt_fwd1 value.bytes) hon.reached
    · rw [hplaces _ le_rfl, offset_codePointCount]
      exact Nat.min_le_right _ _
    · intro index hindex
      rw [hbefore index hindex, hplaces index hindex.le]

/-- The answers to a sequence of targets. -/
def answers (self : Utf8PositionCursor) : List Int → List Int
  | [] => []
  | target :: targets => (self.atByte target).1 :: answers (self.atByte target).2 targets

/-- Any targets are answered as a new cursor would answer them. -/
theorem answers_eq (hvalue : TextView value) (hon : self.On value) (targets : List Int) :
    self.answers targets =
      targets.map fun target => (codePointsBefore value.bytes target : Int) := by
  induction targets generalizing self with
  | nil => rfl
  | cons target targets ih =>
      obtain ⟨hanswer, hafter⟩ := atByte_eq hvalue hon target
      rw [answers, hanswer, ih hafter, List.map_cons]

end Utf8PositionCursor

/-! ## UTF-16 units -/

/-- `U16_IS_LEAD` -/
def isLeadUnit (unit : UInt16) : Bool := unit &&& 0xfc00 = 0xd800

/-- `U16_IS_TRAIL` -/
def isTrailUnit (unit : UInt16) : Bool := unit &&& 0xfc00 = 0xdc00

/-- `U16_FWD_1` -/
def fwd16 (text : List UInt16) (index : Nat) : Nat :=
  if isLeadUnit (text.getD index 0) && index + 1 ≠ text.length &&
      isTrailUnit (text.getD (index + 1) 0) then index + 2
  else index + 1

/-- The code points of UTF-16 text: pairs of surrogates, and single units. -/
def codePoints16 : List UInt16 → List (List UInt16)
  | [] => []
  | [unit] => [[unit]]
  | first :: second :: text =>
      if isLeadUnit first && isTrailUnit second then [first, second] :: codePoints16 text
      else [first] :: codePoints16 (second :: text)

/-- The unit at which the code point number `count` starts. -/
def offset16 (text : List UInt16) (count : Nat) : Nat :=
  ((codePoints16 text).take count).flatten.length

/-- The code points of a text that start before a unit. -/
def codePointsBefore16 (text : List UInt16) (target : Int) : Nat :=
  Nat.count (fun index => (offset16 text index : Int) < target) (codePoints16 text).length

/-- A record of UTF-16 units; one without data has no length. -/
structure CollationInput where
  data : Option (List UInt16)
  length : Int
  missing : Bool
  length_eq : ∀ text, data = some text → length = text.length
  deriving DecidableEq

/-- The UTF-16 text of an input. -/
def CollationInput.text (subject : CollationInput) : List UInt16 :=
  if subject.missing then [] else subject.data.getD []

/-- `data_` and `length_`; the cursor holds `utf16_` and `position_`. -/
structure CollationPositionCursor where
  data : Option (List UInt16)
  length : Int
  cursor : Cursor
  deriving DecidableEq

namespace CollationPositionCursor

/-- A cursor at the start of an input. -/
def create (subject : CollationInput) : CollationPositionCursor :=
  ⟨if subject.missing then none else subject.data,
    if subject.missing ∨ subject.length < 0 then 0 else subject.length, .fresh⟩

/-- The code points before a unit, counted on from the last answer. -/
def atUtf16 (self : CollationPositionCursor) (target : Int) : Int × CollationPositionCursor :=
  match self.data with
  | none => (0, self)
  | some text =>
      if self.length ≤ 0 then (0, self)
      else
        let cursor := seek (fwd16 text) (clamp self.length target).toNat self.cursor
        (cursor.steps, { self with cursor := cursor })

end CollationPositionCursor

section Units

/-- Every step goes on. -/
theorem lt_fwd16 (text : List UInt16) (index : Nat) : index < fwd16 text index := by
  unfold fwd16
  split <;> omega

/-- A step behind a front. -/
theorem fwd16_append (front text : List UInt16) (index : Nat) :
    fwd16 (front ++ text) (front.length + index) = front.length + fwd16 text index := by
  have hget : ∀ place, (front ++ text).getD (front.length + place) 0 = text.getD place 0 := by
    intro place
    rw [List.getD_eq_getElem?_getD, List.getD_eq_getElem?_getD,
      List.getElem?_append_right (Nat.le_add_right _ _), Nat.add_sub_cancel_left]
  have hend : front.length + index + 1 = (front ++ text).length ↔ index + 1 = text.length := by
    rw [List.length_append]
    omega
  unfold fwd16
  rw [Nat.add_assoc, hget, hget]
  simp only [ne_eq, ← Nat.add_assoc, hend]
  split <;> rfl

@[simp] theorem flatten_codePoints16 (text : List UInt16) : (codePoints16 text).flatten = text := by
  fun_induction codePoints16 text with
  | case1 => rfl
  | case2 unit => rfl
  | case3 first second text hpair ih => simp [ih]
  | case4 first second text hpair ih => simp [ih]

/-- The first code point of a text, and how far a step from its start goes. -/
theorem codePoints16_cons {text : List UInt16} (hne : text ≠ []) :
    ∃ head rest, text = head ++ rest ∧ codePoints16 text = head :: codePoints16 rest ∧
      fwd16 text 0 = head.length := by
  match text with
  | [] => exact absurd rfl hne
  | [unit] => exact ⟨[unit], [], rfl, rfl, by simp [fwd16]⟩
  | first :: second :: rest =>
      rw [codePoints16]
      split
      next hpair =>
        rw [Bool.and_eq_true] at hpair
        exact ⟨[first, second], rest, rfl, rfl, by simp [fwd16, hpair.1, hpair.2]⟩
      next hpair => exact ⟨[first], second :: rest, rfl, rfl, by simp [fwd16, hpair]⟩

/-- A step leads from the start of a code point to the start of the next. -/
theorem fwd16_offset16 {text : List UInt16} {count : Nat}
    (hcount : count < (codePoints16 text).length) :
    fwd16 text (offset16 text count) = offset16 text (count + 1) := by
  induction count generalizing text with
  | zero =>
      have hne : text ≠ [] := by
        rintro rfl
        exact absurd hcount (Nat.not_lt_zero 0)
      obtain ⟨head, rest, -, hpoints, hstep⟩ := codePoints16_cons hne
      rw [offset16, offset16, hpoints]
      simpa using hstep
  | succ count ih =>
      have hne : text ≠ [] := by
        rintro rfl
        exact absurd hcount (Nat.not_lt_zero _)
      obtain ⟨head, rest, htext, hpoints, -⟩ := codePoints16_cons hne
      have hshift : ∀ number, offset16 text (number + 1) = head.length + offset16 rest number := by
        intro number
        rw [offset16, offset16, hpoints, List.take_succ_cons, List.flatten_cons,
          List.length_append]
      rw [hpoints] at hcount
      rw [hshift, hshift, htext, fwd16_append, ih (Nat.lt_of_succ_lt_succ hcount)]

/-- The places of the cursor are the offsets of the code points. -/
theorem places_fwd16 (text : List UInt16) {count : Nat}
    (hcount : count ≤ (codePoints16 text).length) :
    places (fwd16 text) count = offset16 text count := by
  induction count with
  | zero => rfl
  | succ count ih =>
      rw [Walking.places_succ, ih (Nat.le_of_succ_le hcount)]
      exact fwd16_offset16 hcount

theorem offset16_length (text : List UInt16) :
    offset16 text (codePoints16 text).length = text.length := by
  rw [offset16, List.take_length, flatten_codePoints16]

theorem offset16_lt {text : List UInt16} {count : Nat}
    (hcount : count < (codePoints16 text).length) : offset16 text count < text.length := by
  have hstrict := Walking.places_strictMono (lt_fwd16 text) hcount
  rwa [places_fwd16 text hcount.le, places_fwd16 text le_rfl, offset16_length] at hstrict

end Units

namespace CollationPositionCursor

/-- A cursor on the text of a record, wherever it is. -/
structure On (positions : CollationPositionCursor) (subject : CollationInput) : Prop where
  data_eq : positions.data = if subject.missing then none else subject.data
  length_eq : positions.length =
    if subject.missing ∨ subject.length < 0 then 0 else subject.length
  reached : positions.cursor.Reached (fwd16 subject.text)

variable {self : CollationPositionCursor} {subject : CollationInput}

theorem on_create (subject : CollationInput) : (create subject).On subject :=
  ⟨rfl, rfl, Walking.Cursor.reached_fresh⟩

theorem codePointsBefore16_nil (target : Int) : codePointsBefore16 [] target = 0 := rfl

/-- A target is answered with the code points before it. -/
theorem atUtf16_eq (hon : self.On subject) (target : Int) :
    (self.atUtf16 target).1 = codePointsBefore16 subject.text target ∧
      (self.atUtf16 target).2.On subject := by
  unfold atUtf16
  split
  next hdata =>
    refine ⟨?_, hon⟩
    have htext : subject.text = [] := by
      rw [hon.data_eq] at hdata
      unfold CollationInput.text
      split at hdata
      next hmissing => rw [if_pos hmissing]
      next hpresent => rw [if_neg hpresent, hdata]; rfl
    rw [htext, codePointsBefore16_nil]
    rfl
  next text hdata =>
    obtain ⟨hpresent, hsome⟩ : ¬ subject.missing ∧ subject.data = some text := by
      rw [hon.data_eq] at hdata
      split at hdata
      next => exact absurd hdata (by simp)
      next hpresent => exact ⟨hpresent, hdata⟩
    have hlen := subject.length_eq text hsome
    have hlength : self.length = text.length := by
      rw [hon.length_eq, if_neg (by simp [hpresent, hlen]), hlen]
    have htext : subject.text = text := by
      rw [CollationInput.text, if_neg hpresent, hsome]
      rfl
    rw [htext]
    split
    next hempty =>
      refine ⟨?_, hon⟩
      obtain rfl := List.length_eq_zero_iff.mp (show text.length = 0 by omega)
      rw [codePointsBefore16_nil]
      rfl
    next =>
      -- the walk goes from the place reached last, whichever side it is on
      have hreached := hon.reached
      rw [htext] at hreached
      rw [hlength, clamp_toNat (.inl rfl), Int.toNat_natCast]
      obtain ⟨hafter, -, -⟩ := Walking.seek_reached (lt_fwd16 text) hreached
        (min target.toNat text.length)
      refine ⟨?_, hon.data_eq, hlength.symm.trans hon.length_eq, by rw [htext]; exact hafter⟩
      apply Int.ofNat_inj.mpr
      apply Walking.seek_steps (lt_fwd16 text) hreached
      · rw [places_fwd16 text le_rfl, offset16_length]
        exact Nat.min_le_right _ _
      · intro index hindex
        rw [places_fwd16 text hindex.le]
        exact (lt_clamp_iff (offset16_lt hindex)).symm

/-- The answers to a sequence of targets. -/
def answers (self : CollationPositionCursor) : List Int → List Int
  | [] => []
  | target :: targets => (self.atUtf16 target).1 :: answers (self.atUtf16 target).2 targets

theorem answers_eq (hon : self.On subject) (targets : List Int) :
    self.answers targets =
      targets.map fun target => (codePointsBefore16 subject.text target : Int) := by
  induction targets generalizing self with
  | nil => rfl
  | cons target targets ih =>
      obtain ⟨hanswer, hafter⟩ := atUtf16_eq hon target
      rw [answers, hanswer, ih hafter, List.map_cons]

end CollationPositionCursor

end Charr
