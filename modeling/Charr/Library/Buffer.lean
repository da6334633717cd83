import Mathlib.Data.List.Basic

/-!
# Writing into a buffer

Code that fills a buffer from a cursor on. What it writes is a list: writers in a row write
one list behind the other, and a buffer of that size is filled exactly.
-/

namespace Charr.Buffers

variable {α ε : Type*}

/-- What ends a writer: a write outside the buffer, or an error of its own. -/
inductive Fault (ε : Type*) where
  | outside
  | thrown (error : ε)
  deriving DecidableEq, Repr

/-- `buffer[position] = value`. -/
def assign (buffer : List α) (position : Nat) (value : α) : Except (Fault ε) (List α) :=
  if position < buffer.length then .ok (buffer.set position value) else .error .outside

/-- A buffer, and where the next write goes. -/
@[ext] structure Sink (α : Type*) where
  cells : List α
  cursor : Nat
  deriving DecidableEq, Repr

/-- `*output++ = value`. -/
def put (value : α) (sink : Sink α) : Except (Fault ε) (Sink α) :=
  (assign sink.cells sink.cursor value).map fun cells => ⟨cells, sink.cursor + 1⟩

/-- `memcpy` to the cursor, which goes behind it. -/
def copy (values : List α) (sink : Sink α) : Except (Fault ε) (Sink α) :=
  if sink.cursor + values.length ≤ sink.cells.length then
    .ok ⟨sink.cells.take sink.cursor ++ values ++ sink.cells.drop (sink.cursor + values.length),
      sink.cursor + values.length⟩
  else .error .outside

/-- One writer behind the other. -/
def andThen (first second : Sink α → Except (Fault ε) (Sink α)) (sink : Sink α) :
    Except (Fault ε) (Sink α) :=
  (first sink).bind second

/-- Assigning behind a front replaces the next cell. -/
theorem assign_append (front rest : List α) (old value : α) :
    assign (front ++ old :: rest) front.length value =
      (.ok (front ++ value :: rest) : Except (Fault ε) (List α)) := by
  have hinside : front.length < (front ++ old :: rest).length := by simp
  rw [assign, if_pos hinside, List.set_append_right _ _ (Nat.le_refl _), Nat.sub_self]
  rfl

/-- Wherever there is room for `values`, the writer puts them there, and nothing else. -/
def Writes (writer : Sink α → Except (Fault ε) (Sink α)) (values : List α) : Prop :=
  ∀ front hole rest : List α, hole.length = values.length →
    writer ⟨front ++ (hole ++ rest), front.length⟩ =
      .ok ⟨front ++ (values ++ rest), front.length + values.length⟩

theorem writes_nothing : Writes (.ok : Sink α → Except (Fault ε) (Sink α)) [] := by
  intro front hole rest hhole
  rw [List.length_eq_zero_iff.mp hhole]
  rfl

/-- Putting writes a value. -/
theorem writes_put (value : α) :
    Writes (put value : Sink α → Except (Fault ε) (Sink α)) [value] := by
  intro front hole rest hhole
  obtain ⟨old, rfl⟩ := List.length_eq_one_iff.mp hhole
  rw [put, List.singleton_append, assign_append]
  rfl

/-- Copying writes the values. -/
theorem writes_copy (values : List α) :
    Writes (copy values : Sink α → Except (Fault ε) (Sink α)) values := by
  intro front hole rest hhole
  have hroom : front.length + values.length ≤ (front ++ (hole ++ rest)).length := by
    rw [List.length_append, List.length_append, hhole]
    exact Nat.add_le_add_left (Nat.le_add_right _ _) _
  have hdrop : (front ++ (hole ++ rest)).drop (front.length + values.length) = rest := by
    rw [← hhole, ← List.append_assoc, ← List.length_append, List.drop_left]
  rw [copy, if_pos hroom, List.take_left, hdrop, List.append_assoc]

/-- Steps write one after another. -/
theorem Writes.andThen {first second : Sink α → Except (Fault ε) (Sink α)} {values others : List α}
    (hfirst : Writes first values) (hsecond : Writes second others) :
    Writes (andThen first second) (values ++ others) := by
  intro front hole rest hhole
  rw [List.length_append] at hhole
  have hleft : (hole.take values.length).length = values.length :=
    List.length_take_of_le (hhole ▸ Nat.le_add_right _ _)
  have hright : (hole.drop values.length).length = others.length := by
    rw [List.length_drop, hhole, Nat.add_sub_cancel_left]
  have hwritten := hfirst front (hole.take values.length) (hole.drop values.length ++ rest) hleft
  rw [← List.append_assoc (hole.take _), List.take_append_drop] at hwritten
  have hthen := hsecond (front ++ values) (hole.drop values.length) rest hright
  rw [List.length_append, List.append_assoc] at hthen
  rw [Buffers.andThen, hwritten, Except.bind, hthen]
  simp only [List.length_append, List.append_assoc, Nat.add_assoc]

/-- The writer throws `error`, though there is room for `size` values. -/
def Throws (writer : Sink α → Except (Fault ε) (Sink α)) (size : Nat) (error : ε) : Prop :=
  ∀ front hole rest : List α, hole.length = size →
    writer ⟨front ++ (hole ++ rest), front.length⟩ = .error (.thrown error)

/-- A step that throws does so behind what was written. -/
theorem Writes.andThen_throws {first second : Sink α → Except (Fault ε) (Sink α)}
    {values : List α} {size : Nat} {error : ε} (hfirst : Writes first values)
    (hsecond : Throws second size error) :
    Throws (Buffers.andThen first second) (values.length + size) error := by
  intro front hole rest hhole
  have hleft : (hole.take values.length).length = values.length :=
    List.length_take_of_le (hhole ▸ Nat.le_add_right _ _)
  have hright : (hole.drop values.length).length = size := by
    rw [List.length_drop, hhole, Nat.add_sub_cancel_left]
  have hwritten := hfirst front (hole.take values.length) (hole.drop values.length ++ rest) hleft
  rw [← List.append_assoc (hole.take _), List.take_append_drop] at hwritten
  have hthrown := hsecond (front ++ values) (hole.drop values.length) rest hright
  rw [List.length_append, List.append_assoc] at hthrown
  rw [Buffers.andThen, hwritten, Except.bind, hthrown]

/-- From the start of a buffer on, what is behind is left alone. -/
theorem Writes.front {writer : Sink α → Except (Fault ε) (Sink α)} {values : List α}
    (hwrites : Writes writer values) (buffer : List α) (hsize : values.length ≤ buffer.length) :
    writer ⟨buffer, 0⟩ = .ok ⟨values ++ buffer.drop values.length, values.length⟩ := by
  have hfront := hwrites [] (buffer.take values.length) (buffer.drop values.length)
    (List.length_take_of_le hsize)
  rw [List.take_append_drop] at hfront
  simpa using hfront

end Charr.Buffers
