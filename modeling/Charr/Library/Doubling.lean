import Charr.Library.Buffer
import Mathlib.Data.List.Basic

/-!
# Filling a buffer by doubling

One copy of a pattern is written first. Then what has been written is copied behind
itself, all of it or as much as is missing. The copies never overlap what they read, and
what they leave is the pattern again and again.
-/

namespace Charr.Buffers

variable {α ε : Type*}

/-- A pattern, `count` times. -/
def copies (count : Nat) (pattern : List α) : List α := (List.replicate count pattern).flatten

section Copies

variable (count more : Nat) (pattern : List α)

@[simp] theorem copies_zero : copies 0 pattern = [] := rfl

@[simp] theorem copies_one : copies 1 pattern = pattern := by
  simp [copies]

/-- Copies behind copies. -/
theorem copies_add :
    copies (count + more) pattern = copies count pattern ++ copies more pattern := by
  rw [copies, List.replicate_add, List.flatten_append]
  rfl

@[simp] theorem length_copies : (copies count pattern).length = count * pattern.length := by
  simp [copies]

theorem copies_succ : copies (count + 1) pattern = pattern ++ copies count pattern := by
  rw [Nat.add_comm, copies_add, copies_one]

/-- The first copies of more. -/
theorem take_copies {less : Nat} (hless : less ≤ count) :
    (copies count pattern).take (less * pattern.length) = copies less pattern := by
  obtain ⟨more, rfl⟩ := Nat.exists_eq_add_of_le hless
  rw [copies_add, ← length_copies, List.take_left]

theorem copies_singleton (value : α) : copies count [value] = List.replicate count value := by
  induction count with
  | zero => rfl
  | succ count ih => rw [copies_succ, ih, List.replicate_succ, List.singleton_append]

end Copies

/-! ## The loop -/

/-- `memcpy` within the buffer, from `source` to the cursor: what it reads lies in front of
the cursor. -/
def copyWithin (source amount : Nat) (sink : Sink α) : Except (Fault ε) (Sink α) :=
  if source + amount ≤ sink.cursor then copy ((sink.cells.drop source).take amount) sink
  else .error .outside

/-- Copy what lies between `start` and the cursor, until the cursor is at `stop`. -/
def doubling (start stop : Nat) : Nat → Sink α → Except (Fault ε) (Sink α)
  | 0, sink => .ok sink
  | fuel + 1, sink =>
      if sink.cursor < stop then
        let remaining := stop - sink.cursor
        let written := sink.cursor - start
        (copyWithin start (if written < remaining then written else remaining) sink).bind
          (doubling start stop fuel)
      else .ok sink

/-- One copy of the pattern, then doubling up to `size` values. -/
def seedAndDouble (pattern : List α) (size : Nat) (sink : Sink α) :
    Except (Fault ε) (Sink α) :=
  (copy pattern sink).bind (doubling sink.cursor (sink.cursor + size) size)

section Loop

variable {pattern : List α}

/-- One round makes more copies of those in front of it. -/
theorem copyWithin_copies (front hole rest : List α) {count more : Nat} (hmore : more ≤ count)
    (hhole : hole.length = more * pattern.length) :
    copyWithin front.length (more * pattern.length)
        ⟨front ++ (copies count pattern ++ (hole ++ rest)),
          front.length + count * pattern.length⟩ =
      (.ok ⟨front ++ (copies (count + more) pattern ++ rest),
        front.length + (count + more) * pattern.length⟩ : Except (Fault ε) (Sink α)) := by
  have hinside : front.length + more * pattern.length ≤
      front.length + count * pattern.length :=
    Nat.add_le_add_left (Nat.mul_le_mul_right _ hmore) _
  have hread : ((front ++ (copies count pattern ++ (hole ++ rest))).drop front.length).take
      (more * pattern.length) = copies more pattern := by
    have hshort : more * pattern.length ≤ (copies count pattern).length := by
      rw [length_copies]
      exact Nat.mul_le_mul_right _ hmore
    rw [List.drop_left, List.take_append_of_le_length hshort, take_copies count pattern hmore]
  rw [copyWithin, if_pos hinside, hread]
  have hwritten := writes_copy (ε := ε) (copies more pattern)
    (front ++ copies count pattern) hole rest (by rw [hhole, length_copies])
  rw [List.length_append, length_copies, length_copies, List.append_assoc,
    List.append_assoc] at hwritten
  rw [hwritten, copies_add, List.append_assoc, Nat.add_mul, Nat.add_assoc]

/-- From at least one copy on, the loop makes `total` of them. -/
theorem doubling_copies (hpattern : pattern ≠ []) (front rest : List α) (total fuel : Nat)
    {count : Nat} {hole : List α} (hcount : 1 ≤ count) (hle : count ≤ total)
    (hhole : hole.length = (total - count) * pattern.length)
    (hfuel : total - count < fuel) :
    doubling front.length (front.length + total * pattern.length) fuel
        ⟨front ++ (copies count pattern ++ (hole ++ rest)),
          front.length + count * pattern.length⟩ =
      (.ok ⟨front ++ (copies total pattern ++ rest),
        front.length + total * pattern.length⟩ : Except (Fault ε) (Sink α)) := by
  have hpositive : 0 < pattern.length := List.length_pos_iff.mpr hpattern
  induction fuel generalizing count hole with
  | zero => exact absurd hfuel (Nat.not_lt_zero _)
  | succ fuel ih =>
      rw [doubling]
      obtain rfl | hless := Nat.eq_or_lt_of_le hle
      · rw [Nat.sub_self, Nat.zero_mul, List.length_eq_zero_iff] at hhole
        rw [if_neg (Nat.lt_irrefl _), hhole, List.nil_append]
      · have hlt : front.length + count * pattern.length <
            front.length + total * pattern.length :=
          Nat.add_lt_add_left (Nat.mul_lt_mul_of_pos_right hless hpositive) _
        -- The amount is a number of whole patterns: all there are, or all that are missing.
        have hamount : (if front.length + count * pattern.length - front.length <
              front.length + total * pattern.length - (front.length + count * pattern.length)
            then front.length + count * pattern.length - front.length
            else front.length + total * pattern.length -
              (front.length + count * pattern.length)) =
            min count (total - count) * pattern.length := by
          rw [Nat.add_sub_add_left, Nat.add_sub_cancel_left, ← Nat.sub_mul,
            ← Nat.mul_min_mul_right]
          split <;> omega
        have hmin : min count (total - count) * pattern.length ≤ hole.length := by
          rw [hhole]
          exact Nat.mul_le_mul_right _ (Nat.min_le_right _ _)
        have hround := copyWithin_copies (ε := ε) front
          (hole.take (min count (total - count) * pattern.length))
          (hole.drop (min count (total - count) * pattern.length) ++ rest)
          (Nat.min_le_left count (total - count)) (List.length_take_of_le hmin)
        rw [← List.append_assoc (hole.take _), List.take_append_drop] at hround
        simp only [hlt, if_true, hamount, hround, Except.bind]
        apply ih
        · omega
        · omega
        · rw [List.length_drop, hhole, ← Nat.sub_mul]
          congr 1
          omega
        · omega

/-- Seeding and doubling writes the copies, into a buffer that holds anything. -/
theorem writes_seedAndDouble (hpattern : pattern ≠ []) {count : Nat} (hcount : 1 ≤ count) :
    Writes (seedAndDouble pattern (count * pattern.length) :
      Sink α → Except (Fault ε) (Sink α)) (copies count pattern) := by
  intro front hole rest hhole
  have hpositive : 0 < pattern.length := List.length_pos_iff.mpr hpattern
  rw [length_copies] at hhole
  have hone : pattern.length ≤ hole.length := by
    rw [hhole]
    exact Nat.le_mul_of_pos_left _ hcount
  have hseed := writes_copy (ε := ε) pattern front (hole.take pattern.length)
    (hole.drop pattern.length ++ rest) (List.length_take_of_le hone)
  rw [← List.append_assoc (hole.take _), List.take_append_drop] at hseed
  rw [seedAndDouble, hseed, Except.bind, length_copies]
  have hloop := @doubling_copies _ ε _ hpattern front rest count
    (count * pattern.length) 1 (hole.drop pattern.length) (Nat.le_refl 1) hcount
    (by rw [List.length_drop, hhole, Nat.sub_mul, Nat.one_mul])
    (by
      have hmul : count ≤ count * pattern.length := Nat.le_mul_of_pos_right _ hpositive
      omega)
  rw [copies_one, Nat.one_mul] at hloop
  exact hloop

end Loop

end Charr.Buffers
