import Charr.Library.Loops
import Charr.Text.StringView

/-!
# Where lines are broken

A planned record is a list of words, each with its width with and without the white
space it ends in. Words are put on lines greedily, or by a dynamic program over the
costs of all lines.
-/

namespace Charr.Wrap

open Loops

/-- Where a word ends in its record, and how wide it is. -/
structure Word where
  endOrig : Nat
  endTrim : Nat
  widthOrig : UInt32
  widthTrim : UInt32
  deriving DecidableEq, Repr

/-- The width of a line, and the widths of what the first and the later lines start with. -/
structure LineWidths where
  width : Int
  first : Int
  later : Int
  deriving DecidableEq, Repr

/-- What ends a call: an exception, an ICU status the caller throws, or an access outside
of a vector. -/
inductive Fault where
  | thrown (error : NativeError)
  | status (code : Int)
  | outOfBounds
  deriving DecidableEq, Repr

section Lines

variable (widths : LineWidths)

/-- The last word may lose its white space. -/
def fitsOneLine (words : List Word) : Bool :=
  match words.getLast? with
  | none => widths.first ≤ widths.width
  | some last =>
      words.foldl (fun measured word => measured + (word.widthOrig.toNat : Int)) widths.first -
        (last.widthOrig - last.widthTrim).toNat ≤ widths.width

/-- The words from `i` on, when the line so far is `current` wide. -/
def greedyLoop : (i : Nat) → List Word → (current : Int) → List Nat
  | _, [], _ => []
  | i, word :: rest, current =>
      if current + word.widthTrim.toNat > widths.width then
        (i - 1) :: greedyLoop (i + 1) rest (widths.later + word.widthOrig.toNat)
      else greedyLoop (i + 1) rest (current + word.widthOrig.toNat)

/-- The words after which a line is broken. -/
def greedy : List Word → List Nat
  | [] => []
  | word :: rest => greedyLoop widths 1 rest (widths.first + word.widthOrig.toNat)

end Lines

/-! ## The matrices -/

section Matrix

variable {Value : Type} (size : Nat)

/-- A cell of a `size` x `size` matrix, row after row; nothing outside of it. -/
def cell (matrix : List Value) (row column : Nat) : Option Value :=
  if row < size ∧ column < size then matrix[row * size + column]? else none

/-- Write a cell; outside the matrix the source has no behaviour. -/
def setCell (matrix : List Value) (row column : Nat) (value : Value) : Option (List Value) :=
  if row < size ∧ column < size then some (matrix.set (row * size + column) value) else none

/-- `std::vector::resize` -/
def resize [Zero Value] (length : Nat) (values : List Value) : List Value :=
  values.take length ++ List.replicate (length - values.length) 0

/-- Write an entry; outside the list the source has no behaviour. -/
def setAt (values : List Value) (index : Nat) (value : Value) : Option (List Value) :=
  if index < values.length then some (values.set index value) else none

end Matrix

/-! ## The dynamic program -/

section Dynamic

variable {Cost : Type} [Zero Cost] [One Cost] [Neg Cost] [Add Cost] [LT Cost] [LE Cost]
  [DecidableLT Cost] [DecidableLE Cost]
  (widths : LineWidths) (power : Int → Cost) (words : List Word)

/-- The cost of the line of the words `i` to `j`; a negative one marks a line that does
not fit. -/
def lineCost (i j : Nat) (remaining : Int) : Cost :=
  if j = words.length - 1 then if j = i ∨ remaining ≥ 0 then 0 else -1
  else if j = i then if remaining < 0 then 0 else power remaining
  else if remaining < 0 then -1 else power remaining

/-- Whether the line without word `j` does not fit already. -/
def alreadyLong (cost : List Cost) (i j : Nat) : Option Bool :=
  if j > i then (cell words.length cost i (j - 1)).map fun previous => decide (previous < 0)
  else some false

/-- The width of the words up to `j`, given that up to `j - 1`. -/
def extendSum (i j : Nat) (sum : Int) : Option Int :=
  words[j]?.bind fun word =>
    if j > i then
      words[j - 1]?.map fun before =>
        sum - before.widthTrim.toNat + before.widthOrig.toNat + word.widthTrim.toNat
    else some (sum + word.widthTrim.toNat)

/-- One cell of row `i`. -/
def costStep (i : Nat) (state : List Cost × Int) (j : Nat) : Option (List Cost × Int) :=
  (alreadyLong words state.1 i j).bind fun long =>
    if long then (setCell words.length state.1 i j (-1)).map fun cost => (cost, state.2)
    else
      (extendSum words i j state.2).bind fun sum =>
        let remaining := widths.width - sum - if i = 0 then widths.first else widths.later
        (setCell words.length state.1 i j (lineCost power words i j remaining)).map
          fun cost => (cost, sum)

/-- The costs of the lines that begin with word `i`. -/
def costRow (cost : List Cost) (i : Nat) : Option (List Cost) :=
  (forRange (costStep widths power words i) i (words.length - i) (cost, 0)).map Prod.fst

/-- The scan for the first line that may end in word `j`: it starts after word `i`. -/
def scanBreak (cost : List Cost) (j : Nat) : (fuel i : Nat) → Option Nat
  | 0, i => some i
  | fuel + 1, i =>
      (cell words.length cost (i + 1) j).bind fun value =>
        if value ≥ 0 then some i else scanBreak cost j fuel (i + 1)

/-- The cheaper of the break found so far and the one after word `k`. -/
def chooseStep (cost best : List Cost) (j : Nat) (state : Cost × Nat) (k : Nat) :
    Option (Cost × Nat) :=
  (cell words.length cost (k + 1) j).bind fun value =>
    if value < 0 then some state
    else best[k]?.map fun before =>
      if before + value < state.1 then (before + value, k) else state

/-- The cheapest word to break after, if the lines end with word `j`, and what that costs. -/
def chooseBreak (cost best : List Cost) (j : Nat) : Option (Cost × Nat) :=
  (scanBreak words cost j (j + 1) 0).bind fun i =>
    best[i]?.bind fun before =>
      (cell words.length cost (i + 1) j).bind fun value =>
        forRange (chooseStep words cost best j) (i + 1) (j - (i + 1)) (before + value, i)

/-- The breaks of word `i` and the break after it, as the breaks of word `j`. -/
def copyBreaks (breaks : List Bool) (i j : Nat) : Option (List Bool) :=
  (forRange (fun breaks k =>
    (cell words.length breaks k i).bind fun value => setCell words.length breaks k j value)
    0 i breaks).bind fun breaks => setCell words.length breaks i j true

/-- The least cost of the words up to `j`, with the breaks that reach it. -/
def bestStep (cost : List Cost) (state : List Cost × List Bool) (j : Nat) :
    Option (List Cost × List Bool) :=
  (cell words.length cost 0 j).bind fun whole =>
    if whole ≥ 0 then (setAt state.1 j whole).map fun best => (best, state.2)
    else
      (chooseBreak words cost state.1 j).bind fun chosen =>
        (copyBreaks words state.2 chosen.2 j).bind fun breaks =>
          (setAt state.1 j chosen.1).map fun best => (best, breaks)

/-- Note the break, if the last row has it. -/
def collectStep (breaks : List Bool) (wrapAfter : List Nat) (i : Nat) : Option (List Nat) :=
  (cell words.length breaks i (words.length - 1)).map fun broken =>
    if broken then wrapAfter ++ [i] else wrapAfter

/-- What a dynamic program leaves for the next one to write over. -/
structure Matrices (Cost : Type) where
  cost : List Cost
  best : List Cost
  deriving DecidableEq

/-- The loops; nothing if an access leaves a matrix. -/
def dynamicLoops (matrices : Matrices Cost) : Option (Matrices Cost × List Nat) :=
  let cost := resize (words.length * words.length) matrices.cost
  let best := resize words.length matrices.best
  let breaks := List.replicate (words.length * words.length) false
  (forRange (costRow widths power words) 0 words.length cost).bind fun cost =>
    (forRange (bestStep words cost) 0 words.length (best, breaks)).bind fun bests =>
      (forRange (collectStep words bests.2) 0 words.length []).map fun wrapAfter =>
        (⟨cost, bests.1⟩, wrapAfter)

/-- The most bytes a vector may hold. -/
def vectorBytes : Nat := 9223372036854775807

/-- `max_size` for elements of so many bytes. -/
def maxSize (bytes : Nat) : Nat := vectorBytes / bytes

/-- The error of more words than the matrices can have cells for. -/
def matrixTooLarge : NativeError := .lengthError "word-wrap matrix is too large"

/-- `dynamic`: the breaks of least cost, found over the matrices kept between calls. -/
def dynamic (matrices : Matrices Cost) : Except Fault (Matrices Cost × List Nat) :=
  if words.length ≠ 0 ∧ words.length > sizeMax / words.length then .error (.thrown matrixTooLarge)
  else if words.length * words.length > maxSize 8 ∨ words.length * words.length > maxSize 1 then
    .error (.thrown matrixTooLarge)
  else
    match dynamicLoops widths power words matrices with
    | none => .error .outOfBounds
    | some done => .ok done

/-- The guards on the size of the matrix come down to one bound. -/
theorem dynamic_eq (matrices : Matrices Cost) :
    dynamic widths power words matrices =
      if maxSize 8 < words.length * words.length then .error (.thrown matrixTooLarge)
      else
        match dynamicLoops widths power words matrices with
        | none => .error .outOfBounds
        | some done => .ok done := by
  have hbytes : maxSize 8 ≤ maxSize 1 := by decide
  unfold dynamic
  by_cases hsquare : maxSize 8 < words.length * words.length
  · rw [if_pos hsquare]
    split
    next => rfl
    next => rw [if_pos (.inl hsquare)]
  · have hroot : ¬ (words.length ≠ 0 ∧ words.length > sizeMax / words.length) := by
      rintro ⟨hne, hroot⟩
      have hmul := (Nat.div_lt_iff_lt_mul (Nat.pos_of_ne_zero hne)).mp hroot
      have hmax : maxSize 8 ≤ sizeMax := by decide
      omega
    rw [if_neg hsquare, if_neg hroot, if_neg (by omega)]

end Dynamic

end Charr.Wrap
