import Mathlib.Data.List.Basic

/-!
# String views

The length-delimited, non-owning views the native kernels exchange. A view that
points anywhere points at as many bytes as its length says, and lengths are
32-bit integers.
-/

namespace Charr

/-- The largest `int`. -/
def intMax : Nat := 2147483647

/-- The largest `std::size_t`. -/
def sizeMax : Nat := 18446744073709551615

/-- A `static_cast` to `std::size_t`. -/
def toSize (value : Int) : Nat := (value % (sizeMax + 1)).toNat

/-- A size in range is not wrapped. -/
theorem toSize_eq {value : Int} (hnonneg : 0 ≤ value) (hmax : value ≤ sizeMax) :
    toSize value = value.toNat := by
  unfold toSize
  rw [Int.emod_eq_of_lt hnonneg (by omega)]

theorem toSize_sub {left right : Nat} (hle : right ≤ left) (hleft : left ≤ intMax) :
    toSize ((left : Int) - right) = left - right := by
  have hmax : (intMax : Int) ≤ sizeMax := by decide
  rw [toSize_eq (by omega) (by omega)]
  omega

/-- `NA_INTEGER`, which is also `NA_LOGICAL`. -/
def naInteger : Int := -2147483648

/-- The exceptions of the native kernels, with their texts. -/
inductive NativeError where
  | invalidArgument (text : String)
  | logicError (text : String)
  | lengthError (text : String)
  | outOfRange (text : String)
  | runtimeError (text : String)
  | striException (text : String)
  deriving DecidableEq, Repr

/-- `what()` of the exception. -/
def NativeError.text : NativeError → String
  | .invalidArgument text => text
  | .logicError text => text
  | .lengthError text => text
  | .outOfRange text => text
  | .runtimeError text => text
  | .striException text => text

/-- The text of the error a call raised. -/
def raised {Value : Type} : Except NativeError Value → Option String
  | .ok _ => none
  | .error error => some error.text

/-- Borrowed bytes: a pointer and what it points at. Bytes do not change while
they are borrowed, so two spans at one address and of one length are equal. -/
structure Span where
  address : Nat
  bytes : List UInt8
  length_le : bytes.length ≤ intMax
  deriving DecidableEq

/-- The bytes `[start, stop)` of a span, still in place. -/
def Span.slice (span : Span) (start stop : Nat) : Span where
  address := span.address + start
  bytes := (span.bytes.drop start).take (stop - start)
  length_le := by
    have := span.length_le
    simp only [List.length_take, List.length_drop]
    omega

/-- The marks of strings. -/
inductive StringEncoding where
  | native
  | utf8
  | latin1
  | bytes
  | ascii
  | asciiOrUtf8
  | missing
  | unknown
  deriving DecidableEq, Repr

/-- Pointer and length of a view: a null pointer may come with any length. -/
inductive ViewData where
  | null (len : Int)
  | bytes (span : Span)
  deriving DecidableEq

/-- The bytes of a string with their mark; they may be missing. -/
structure StringView where
  data : ViewData
  enc : StringEncoding
  deriving DecidableEq

namespace StringView

/-- The length of a missing string. -/
def missingLength : Int := -1

/-- The length that the view announces. -/
def len (view : StringView) : Int :=
  match view.data with
  | .null len => len
  | .bytes span => span.bytes.length

/-- The bytes the view denotes. -/
def bytes (view : StringView) : List UInt8 :=
  match view.data with
  | .null _ => []
  | .bytes span => span.bytes

/-- There is no pointer to read from. -/
def isNull (view : StringView) : Bool :=
  match view.data with
  | .null _ => true
  | .bytes _ => false

/-- Where the bytes are; a null pointer is zero. -/
def address (view : StringView) : Nat :=
  match view.data with
  | .null _ => 0
  | .bytes span => span.address

/-- The string is missing. -/
def isNa (view : StringView) : Bool :=
  view.enc = .missing

/-- The view every kernel writes for a missing value. -/
def na : StringView :=
  ⟨.null missingLength, .missing⟩

/-- What a view denotes, wherever its bytes are. -/
def unplaced (view : StringView) : StringView :=
  match view.data with
  | .null _ => view
  | .bytes span => ⟨.bytes { span with address := 0 }, view.enc⟩

/-- A view of length zero has no bytes. -/
theorem bytes_of_len_zero {view : StringView} (hlen : view.len = 0) : view.bytes = [] := by
  obtain ⟨data, enc⟩ := view
  cases data with
  | null len => rfl
  | bytes span =>
      apply List.eq_nil_of_length_eq_zero
      simpa [len, bytes] using hlen

section Unplaced

variable (view : StringView)

@[simp] theorem unplaced_enc : view.unplaced.enc = view.enc := by
  unfold unplaced
  split <;> rfl

@[simp] theorem unplaced_isNa : view.unplaced.isNa = view.isNa := by
  rw [isNa, unplaced_enc, isNa]

@[simp] theorem unplaced_len : view.unplaced.len = view.len := by
  unfold unplaced
  split
  next => rfl
  next span hspan => simp [len, hspan]

@[simp] theorem unplaced_bytes : view.unplaced.bytes = view.bytes := by
  unfold unplaced
  split
  next => rfl
  next span hspan => simp [bytes, hspan]

@[simp] theorem unplaced_isNull : view.unplaced.isNull = view.isNull := by
  unfold unplaced
  split
  next => rfl
  next span hspan => simp [isNull, hspan]

@[simp] theorem unplaced_unplaced : view.unplaced.unplaced = view.unplaced := by
  obtain ⟨data, enc⟩ := view
  cases data with
  | null len => rfl
  | bytes span => rfl

end Unplaced

end StringView

/-- A range of bytes, as the matchers report it. -/
structure ByteRange where
  start : Int
  stop : Int
  deriving DecidableEq, Repr

end Charr
