import Charr.FixedSearch.DirectKernels
import Charr.FixedSearch.ReplaceSequential
import Mathlib.Algebra.GroupWithZero.Nat

/-!
# What the replacement writer writes

The size of a result, its bytes and its mark are computed by three separate
passes over the ranges. For ranges that lie behind each other in the subject all
three describe the subject with every range replaced; for any other list of
ranges nothing is written.
-/

namespace Charr.FixedSearch

/-! ## Ranges in their places -/

/-- Where the ranges end, as far as they have come. -/
def previousEnd (ranges : List ByteRange) : Int := (ranges.getLast?.map ByteRange.stop).getD 0

/-- Some range is empty, starts in front of the end of the one before it, or leaves the
subject. -/
def Misplaced (length : Nat) (ranges : List ByteRange) : Prop :=
  ∃ (front : List ByteRange) (range : ByteRange) (back : List ByteRange),
    ranges = front ++ range :: back ∧
    (range.stop ≤ range.start ∨ range.start < previousEnd front ∨ range.start < 0 ∨
      range.stop > length)

/-- The text with every range replaced. The last one comes first, so that the others
are still where they were. -/
def replacedRanges (subject replacement : List UInt8) (ranges : List ByteRange) : List UInt8 :=
  ranges.foldr (fun range text =>
    text.take range.start.toNat ++ replacement ++ text.drop range.stop.toNat) subject

/-- The ranges follow each other from `previous` on. -/
def PlacedFrom (length : Nat) : Nat → List ByteRange → Prop
  | _, [] => True
  | previous, range :: rest =>
      previous ≤ range.start ∧ range.start < range.stop ∧ range.stop ≤ length ∧
        PlacedFrom length range.stop.toNat rest

/-- The bytes that the ranges cover. -/
def totalWidth (ranges : List ByteRange) : Nat :=
  (ranges.map fun range => (range.stop - range.start).toNat).sum

section Places

variable {length previous : Nat} {ranges : List ByteRange}

/-- A list of ranges, seen from the end of what stands in front of it. -/
theorem placedFrom_iff (previous : Nat) :
    PlacedFrom length previous ranges ↔
      ∀ (front : List ByteRange) (range : ByteRange) (back : List ByteRange),
        ranges = front ++ range :: back → ¬ (range.stop ≤ range.start ∨
        range.start < (front.getLast?.map ByteRange.stop).getD previous ∨
        range.start < 0 ∨ range.stop > length) := by
  induction ranges generalizing previous with
  | nil => simp [PlacedFrom]
  | cons first rest ih =>
      rw [PlacedFrom, ih]
      constructor
      · rintro ⟨hstart, hwidth, hstop, hrest⟩ front range back heq
        cases front with
        | nil =>
            obtain ⟨rfl, -⟩ := List.cons.inj heq
            simp only [List.getLast?_nil, Option.map_none, Option.getD_none]
            omega
        | cons head tail =>
            obtain ⟨rfl, htail⟩ := List.cons.inj heq
            have hplaced := hrest tail range back htail
            rw [List.getLast?_cons]
            cases hlast : tail.getLast? with
            | none =>
                simp only [hlast, Option.map_none, Option.getD_none] at hplaced
                simp only [Option.getD_none, Option.map_some, Option.getD_some]
                omega
            | some last =>
                simp only [hlast, Option.map_some, Option.getD_some] at hplaced ⊢
                exact hplaced
      · intro hall
        have hfirst := hall [] first rest rfl
        simp only [List.getLast?_nil, Option.map_none, Option.getD_none] at hfirst
        refine ⟨by omega, by omega, by omega, ?_⟩
        intro front range back heq
        have hplaced := hall (first :: front) range back (by rw [heq]; rfl)
        rw [List.getLast?_cons] at hplaced
        cases hlast : front.getLast? with
        | none =>
            simp only [hlast, Option.getD_none, Option.map_some, Option.getD_some] at hplaced
            simp only [Option.map_none, Option.getD_none]
            omega
        | some last =>
            simp only [hlast, Option.map_some, Option.getD_some] at hplaced ⊢
            exact hplaced

/-- Ranges are refused unless they are in order, apart and inside. -/
theorem misplaced_iff : Misplaced length ranges ↔ ¬ PlacedFrom length 0 ranges := by
  rw [placedFrom_iff]
  simp only [Misplaced, previousEnd, not_forall, not_not, exists_prop, Int.natCast_zero]

/-- Ranges in their places cover no more than there is. -/
theorem totalWidth_le (hplaced : PlacedFrom length previous ranges)
    (hprevious : previous ≤ length) : totalWidth ranges + previous ≤ length := by
  induction ranges generalizing previous with
  | nil => simpa [totalWidth] using hprevious
  | cons range rest ih =>
      obtain ⟨hstart, hwidth, hstop, hrest⟩ := hplaced
      have hle := ih hrest (by omega)
      simp only [totalWidth, List.map_cons, List.sum_cons] at hle ⊢
      omega

end Places

/-! ## The passes over the ranges -/

section Passes

variable {length previous matched : Nat} {ranges : List ByteRange}

theorem toSize_natCast {value : Nat} (hvalue : value ≤ intMax) : toSize value = value := by
  have hmax : (intMax : Int) ≤ sizeMax := by decide
  rw [toSize_eq (Int.natCast_nonneg value) (by omega), Int.toNat_natCast]

/-- Placed ranges pass, and their width is returned. -/
theorem validateRanges_placed (hplaced : PlacedFrom length previous ranges)
    (hprevious : previous ≤ length) (hmatched : matched + (length - previous) ≤ sizeMax) :
    validateRanges length previous matched ranges = .ok (matched + totalWidth ranges) := by
  induction ranges generalizing previous matched with
  | nil => rfl
  | cons range rest ih =>
      obtain ⟨hstart, hwidth, hstop, hrest⟩ := hplaced
      have hsize := toSize_eq (Int.sub_nonneg.mpr hwidth.le)
        (show range.stop - range.start ≤ sizeMax by omega)
      have hnext : ((range.stop.toNat : Nat) : Int) = range.stop := Int.toNat_of_nonneg (by omega)
      rw [validateRanges, if_neg (by omega), hsize]
      simp only
      rw [if_neg (by omega), ← hnext, ih hrest (by omega) (by omega)]
      congr 1
      simp only [totalWidth, List.map_cons, List.sum_cons]
      omega

/-- Ranges out of place do not pass. -/
theorem validateRanges_misplaced (hplaced : ¬ PlacedFrom length previous ranges)
    (hprevious : previous ≤ length) (hmatched : matched + (length - previous) ≤ sizeMax) :
    validateRanges length previous matched ranges =
      .error (.outOfRange "replacement range is out of bounds") := by
  induction ranges generalizing previous matched with
  | nil => exact absurd trivial hplaced
  | cons range rest ih =>
      rw [validateRanges]
      split
      next => rfl
      next hinside =>
        have hwidth : range.start ≤ range.stop := by omega
        have hsize := toSize_eq (Int.sub_nonneg.mpr hwidth)
          (show range.stop - range.start ≤ sizeMax by omega)
        have hnext : ((range.stop.toNat : Nat) : Int) = range.stop :=
          Int.toNat_of_nonneg (by omega)
        have hrest : ¬ PlacedFrom length range.stop.toNat rest := by
          intro hrest
          exact hplaced ⟨by omega, by omega, by omega, hrest⟩
        rw [hsize]
        simp only
        rw [if_neg (by omega), ← hnext]
        exact ih hrest (by omega) (by omega)

/-- The matched bytes are the width of the ranges. -/
theorem matchedByteCount_placed (hplaced : PlacedFrom length previous ranges)
    (hprevious : previous ≤ length) (hmatched : matched + (length - previous) ≤ sizeMax) :
    matchedByteCount matched ranges = .ok (matched + totalWidth ranges) := by
  induction ranges generalizing previous matched with
  | nil => rfl
  | cons range rest ih =>
      obtain ⟨hstart, hwidth, hstop, hrest⟩ := hplaced
      have hsize := toSize_eq (Int.sub_nonneg.mpr hwidth.le)
        (show range.stop - range.start ≤ sizeMax by omega)
      rw [matchedByteCount, hsize, if_neg (by omega), ih hrest (by omega) (by omega)]
      congr 1
      simp only [totalWidth, List.map_cons, List.sum_cons]
      omega

end Passes

/-! ## The result of the writer -/

section Result

variable {subject replacement : List UInt8} {previous : Nat} {ranges : List ByteRange}

/-- The writer goes from the front, the replacements from the back. -/
theorem replacedRanges_eq (hplaced : PlacedFrom subject.length previous ranges) :
    replacedRanges subject replacement ranges =
      subject.take previous ++ splice subject replacement previous ranges := by
  induction ranges generalizing previous with
  | nil => exact (List.take_append_drop previous subject).symm
  | cons range rest ih =>
      obtain ⟨hstart, hwidth, hstop, hrest⟩ := hplaced
      have hnext : ((range.stop.toNat : Nat) : Int) = range.stop := Int.toNat_of_nonneg (by omega)
      have hlength : (subject.take range.stop.toNat).length = range.stop.toNat := by
        rw [List.length_take]
        omega
      have hgap : subject.take range.start.toNat = subject.take previous ++
          (subject.drop previous).take (range.start - previous).toNat := by
        have hsum : previous + (range.start - previous).toNat = range.start.toNat := by omega
        rw [← hsum, List.take_add]
      have hall := ih hrest
      unfold replacedRanges at hall ⊢
      rw [List.foldr_cons, hall, hnext, List.drop_left' hlength,
        List.take_append_of_le_length (by omega), List.take_take, Nat.min_eq_left (by omega),
        hgap, splice, Int.toNat_natCast]
      simp only [List.append_assoc]

/-- A replacement exchanges the width of the ranges for copies of the replacement. -/
theorem length_splice (hplaced : PlacedFrom subject.length previous ranges)
    (hprevious : previous ≤ subject.length) :
    (splice subject replacement previous ranges).length + totalWidth ranges + previous =
      subject.length + ranges.length * replacement.length := by
  induction ranges generalizing previous with
  | nil =>
      simp only [splice, totalWidth, List.length_drop, Int.toNat_natCast, List.map_nil,
        List.sum_nil, List.length_nil, Nat.zero_mul]
      omega
  | cons range rest ih =>
      obtain ⟨hstart, hwidth, hstop, hrest⟩ := hplaced
      have hnext : ((range.stop.toNat : Nat) : Int) = range.stop := Int.toNat_of_nonneg (by omega)
      have hall := ih hrest (by omega)
      rw [hnext] at hall
      rw [splice]
      simp only [totalWidth, List.length_append, List.length_take, List.length_drop,
        List.map_cons, List.sum_cons, List.length_cons, Nat.succ_mul, Int.toNat_natCast]
        at hall ⊢
      omega

/-- The size of a replaced text. -/
theorem length_replacedRanges (hplaced : PlacedFrom subject.length 0 ranges) :
    (replacedRanges subject replacement ranges).length =
      subject.length - totalWidth ranges + ranges.length * replacement.length := by
  have hle := totalWidth_le hplaced (Nat.zero_le _)
  have hlength := @length_splice subject replacement 0 ranges hplaced (Nat.zero_le _)
  rw [replacedRanges_eq hplaced, List.take_zero, List.nil_append]
  omega

/-- The mark is the one of the text that is written. -/
theorem gapsAscii_eq (subject replacement : List UInt8) (previous : Int)
    (ranges : List ByteRange) :
    (gapsAscii subject previous ranges && (ranges.isEmpty || spanIsAscii replacement)) =
      spanIsAscii (splice subject replacement previous ranges) := by
  induction ranges generalizing previous with
  | nil => simp [gapsAscii, splice]
  | cons range rest ih =>
      rw [gapsAscii, splice]
      have hrest := ih range.stop
      unfold spanIsAscii at hrest ⊢
      rw [List.all_append, List.all_append, ← hrest, List.isEmpty_cons, Bool.false_or]
      cases replacement.all (· ≤ 0x7f) <;> simp

end Result

/-! ## Size, text and mark -/

/-- Size the result of the ranges as their callers do, then write it. -/
def sizedWrite (subject : StringView) (ranges : List ByteRange) (replacement : StringView)
    (output : Nat) : Except NativeError (List UInt8) := do
  let matchedBytes ← matchedByteCount 0 ranges
  let size ← checkedReplacementSize subject matchedBytes ranges replacement
  let written ← writeReplacement subject ranges replacement (some output) size.1
  return written.1

section Views

variable {subject replacement : StringView} {subjectBytes replacementBytes : List UInt8}
  {ranges : List ByteRange}

theorem Stored.length_le_sizeMax (hsubject : Stored subject subjectBytes) :
    0 + (subjectBytes.length - 0) ≤ sizeMax := by
  have hle := hsubject.present.length_le
  unfold intMax at hle
  unfold sizeMax
  omega

theorem Stored.validateRanges_placed (hsubject : Stored subject subjectBytes)
    (hplaced : PlacedFrom subjectBytes.length 0 ranges) :
    validateRanges subject.len 0 0 ranges = .ok (totalWidth ranges) := by
  rw [hsubject.present.len_eq, ← Int.natCast_zero,
    FixedSearch.validateRanges_placed hplaced (Nat.zero_le _) hsubject.length_le_sizeMax,
    Nat.zero_add]

theorem Stored.validateRanges_misplaced (hsubject : Stored subject subjectBytes)
    (hplaced : ¬ PlacedFrom subjectBytes.length 0 ranges) :
    validateRanges subject.len 0 0 ranges =
      .error (.outOfRange "replacement range is out of bounds") := by
  rw [hsubject.present.len_eq, ← Int.natCast_zero]
  exact FixedSearch.validateRanges_misplaced hplaced (Nat.zero_le _) hsubject.length_le_sizeMax

variable (hsubject : Stored subject subjectBytes)
  (hreplacement : Stored replacement replacementBytes)
include hsubject hreplacement

/-- Stored views are valid inputs. -/
theorem validateInputs_stored : validateInputs subject replacement = .ok () := by
  have hencodings : (normalizedEncoding subject.enc && normalizedEncoding replacement.enc) =
      true := Bool.and_eq_true_iff.mpr ⟨hsubject.encoding, hreplacement.encoding⟩
  unfold validateInputs
  rw [hsubject.present.not_na, hreplacement.present.not_na, hsubject.present.not_null,
    hreplacement.present.not_null, hsubject.present.len_eq, hreplacement.present.len_eq,
    hencodings]
  simp

/-- The size is that of the replaced text, if it fits. -/
theorem checkedReplacementSize_placed
    (hplaced : PlacedFrom subjectBytes.length 0 ranges) :
    checkedReplacementSize subject (totalWidth ranges) ranges replacement =
      if hsize : (replacedRanges subjectBytes replacementBytes ranges).length ≤ intMax then
        .ok ⟨_, hsize⟩
      else .error charsxpLimit := by
  have hsubjectSize : toSize subject.len = subjectBytes.length := by
    rw [hsubject.present.len_eq, toSize_natCast hsubject.present.length_le]
  have hreplacementSize : toSize replacement.len = replacementBytes.length := by
    rw [hreplacement.present.len_eq, toSize_natCast hreplacement.present.length_le]
  have hwidth := totalWidth_le hplaced (Nat.zero_le _)
  have hlength := @length_replacedRanges subjectBytes replacementBytes ranges hplaced
  unfold checkedReplacementSize
  rw [validateInputs_stored hsubject hreplacement, hsubjectSize, hreplacementSize]
  simp only [bind, Except.bind]
  rw [if_neg (by omega)]
  split
  next hoverflow =>
    -- the product does not even fit a size, so the result does not fit a string
    obtain ⟨hpositive, hmany⟩ := hoverflow
    have hproduct := (Nat.div_lt_iff_lt_mul hpositive).mp hmany
    have hlarge : ¬ (replacedRanges subjectBytes replacementBytes ranges).length ≤ intMax := by
      unfold sizeMax at hproduct
      unfold intMax
      omega
    rw [dif_neg hlarge]
  next =>
    simp only [hlength]

/-- Ranges out of their places stop the writer before anything is copied. -/
theorem writeReplacement_misplaced (hplaced : ¬ PlacedFrom subjectBytes.length 0 ranges)
    (destination : Option Nat) (size : Nat) :
    writeReplacement subject ranges replacement destination size =
      .error (.outOfRange "replacement range is out of bounds") := by
  unfold writeReplacement
  rw [validateInputs_stored hsubject hreplacement, hsubject.validateRanges_misplaced hplaced]
  rfl

/-- The writer in a buffer of any size. -/
theorem writeReplacement_placed (hplaced : PlacedFrom subjectBytes.length 0 ranges)
    (destination : Option Nat) (size : Nat) :
    let result := replacedRanges subjectBytes replacementBytes ranges
    writeReplacement subject ranges replacement destination size =
      if result.length ≤ intMax then
        if hsame : result.length = size then
          if size > 0 ∧ destination.isNone then
            .error (.invalidArgument "replacement output buffer is null")
          else .ok ⟨result, hsame⟩
        else .error (.lengthError "replacement buffer size mismatch")
      else .error charsxpLimit := by
  intro result
  have hsplice : splice subjectBytes replacementBytes 0 ranges = result := by
    have hwhole := @replacedRanges_eq subjectBytes replacementBytes 0 ranges hplaced
    rw [List.take_zero, List.nil_append] at hwhole
    exact hwhole.symm
  unfold writeReplacement
  rw [validateInputs_stored hsubject hreplacement, hsubject.validateRanges_placed hplaced,
    hsubject.present.bytes_eq, hreplacement.present.bytes_eq]
  simp only [bind, Except.bind, checkedReplacementSize_placed hsubject hreplacement hplaced]
  by_cases hsize : result.length ≤ intMax
  · rw [dif_pos hsize, if_pos hsize]
    simp only
    by_cases hsame : result.length = size
    · subst hsame
      rw [if_neg (by simp [result]), dif_pos rfl]
      split
      next => rfl
      next => simp only [hsplice, dite_true]
    · rw [if_pos (fun heq => hsame heq.symm), dif_neg hsame]
  · rw [dif_neg hsize, if_neg hsize]

/-- The mark tells whether the replaced text is ASCII. -/
theorem replacementIsAscii_placed (hplaced : PlacedFrom subjectBytes.length 0 ranges) :
    replacementIsAscii subject ranges replacement =
      .ok (spanIsAscii (replacedRanges subjectBytes replacementBytes ranges)) := by
  have hwhole := @replacedRanges_eq subjectBytes replacementBytes 0 ranges hplaced
  rw [List.take_zero, List.nil_append] at hwhole
  unfold replacementIsAscii
  rw [validateInputs_stored hsubject hreplacement, hsubject.validateRanges_placed hplaced,
    hsubject.present.bytes_eq, hreplacement.present.bytes_eq, hwhole]
  simp only [bind, Except.bind, pure, Except.pure, gapsAscii_eq, Int.natCast_zero]

/-- What is sized and written is the replaced text. -/
theorem sizedWrite_placed (hplaced : PlacedFrom subjectBytes.length 0 ranges) (output : Nat) :
    sizedWrite subject ranges replacement output =
      if (replacedRanges subjectBytes replacementBytes ranges).length ≤ intMax then
        .ok (replacedRanges subjectBytes replacementBytes ranges)
      else .error charsxpLimit := by
  unfold sizedWrite
  rw [matchedByteCount_placed hplaced (Nat.zero_le _) hsubject.length_le_sizeMax, Nat.zero_add]
  simp only [bind, Except.bind, checkedReplacementSize_placed hsubject hreplacement hplaced,
    writeReplacement_placed hsubject hreplacement hplaced]
  by_cases hsize : (replacedRanges subjectBytes replacementBytes ranges).length ≤ intMax
  · rw [dif_pos hsize, if_pos hsize]
    simp [hsize, pure, Except.pure]
  · rw [dif_neg hsize, if_neg hsize]

/-- With ranges out of place nothing is written. -/
theorem sizedWrite_misplaced (hplaced : ¬ PlacedFrom subjectBytes.length 0 ranges)
    (output : Nat) : ∃ error, sizedWrite subject ranges replacement output = .error error := by
  unfold sizedWrite
  cases matchedByteCount 0 ranges with
  | error error => exact ⟨error, rfl⟩
  | ok matchedBytes =>
      simp only [bind, Except.bind]
      cases checkedReplacementSize subject matchedBytes ranges replacement with
      | error error => exact ⟨error, rfl⟩
      | ok size =>
          simp only [writeReplacement_misplaced hsubject hreplacement hplaced]
          exact ⟨_, rfl⟩

end Views

/-- Sizing and writing fail exactly for ranges that are out of their places and for a
result that fits no string. Otherwise what is written is the subject with every range
replaced, in as many bytes as were asked for, and it is marked as ASCII exactly when it
is. No buffer of any size makes the writer fail in the end. -/
theorem writeReplacement_writes_replaced {subject replacement : StringView}
    {subjectBytes replacementBytes : List UInt8} (hsubject : Stored subject subjectBytes)
    (hreplacement : Stored replacement replacementBytes) (ranges : List ByteRange)
    (output : Nat) :
    let result := replacedRanges subjectBytes replacementBytes ranges
    let refused := Misplaced subjectBytes.length ranges ∨ intMax < result.length
    ((∃ error, sizedWrite subject ranges replacement output = .error error) ↔ refused) ∧
    (¬ refused → sizedWrite subject ranges replacement output = .ok result ∧
      (∃ matchedBytes size, matchedByteCount 0 ranges = .ok matchedBytes ∧
        checkedReplacementSize subject matchedBytes ranges replacement = .ok size ∧
        size.1 = result.length) ∧
      ∃ ascii, replacementIsAscii subject ranges replacement = .ok ascii ∧
        (ascii = true ↔ ∀ byte ∈ result, byte < 0x80)) ∧
    (Misplaced subjectBytes.length ranges → ∀ destination size,
      ∃ error, writeReplacement subject ranges replacement destination size = .error error) ∧
    ∀ destination size text, writeReplacement subject ranges replacement destination size ≠
      .error (.logicError text) := by
  intro result refused
  -- in their places, only the size can be refused; misplaced ranges are refused by both passes
  by_cases hplaced : PlacedFrom subjectBytes.length 0 ranges
  · have hnot : ¬ Misplaced subjectBytes.length ranges := by
      rw [misplaced_iff, not_not]
      exact hplaced
    have hwrite := sizedWrite_placed hsubject hreplacement hplaced output
    refine ⟨?_, ?_, fun hmisplaced => absurd hmisplaced hnot, ?_⟩
    · rw [hwrite]
      split
      next hsize =>
        simp only [reduceCtorEq, exists_false, false_iff, refused, hnot, false_or]
        exact Nat.not_lt.mpr hsize
      next hsize =>
        simp only [Except.error.injEq, exists_eq', true_iff]
        exact .inr (Nat.not_le.mp hsize)
    · intro haccepted
      have hsize : result.length ≤ intMax := Nat.not_lt.mp fun hlarge => haccepted (.inr hlarge)
      refine ⟨by rw [hwrite, if_pos hsize], ⟨totalWidth ranges, ⟨result.length, hsize⟩, ?_, ?_,
        rfl⟩, _, replacementIsAscii_placed hsubject hreplacement hplaced, spanIsAscii_iff⟩
      · rw [matchedByteCount_placed hplaced (Nat.zero_le _) hsubject.length_le_sizeMax,
          Nat.zero_add]
      · rw [checkedReplacementSize_placed hsubject hreplacement hplaced, dif_pos hsize]
    · intro destination size text
      rw [writeReplacement_placed hsubject hreplacement hplaced]
      split
      next =>
        split
        next =>
          split
          next => simp
          next => simp
        next => simp
      next => simp [charsxpLimit]
  · have hmisplaced : Misplaced subjectBytes.length ranges := misplaced_iff.mpr hplaced
    refine ⟨iff_of_true (sizedWrite_misplaced hsubject hreplacement hplaced output)
      (.inl hmisplaced), fun haccepted => absurd (.inl hmisplaced) haccepted, ?_, ?_⟩
    · intro _ destination size
      exact ⟨_, writeReplacement_misplaced hsubject hreplacement hplaced destination size⟩
    · intro destination size text
      rw [writeReplacement_misplaced hsubject hreplacement hplaced]
      simp

/-- "abcb" with both "b" replaced by "é", and with two ranges in the wrong order. -/
theorem writeReplacement_writes_two :
    let subject : StringView := ⟨.bytes ⟨100, [97, 98, 99, 98], by decide⟩, .ascii⟩
    let replacement : StringView := ⟨.bytes ⟨200, [0xc3, 0xa9], by decide⟩, .utf8⟩
    sizedWrite subject [⟨1, 2⟩, ⟨3, 4⟩] replacement 300 =
        .ok [97, 0xc3, 0xa9, 99, 0xc3, 0xa9] ∧
      replacementIsAscii subject [⟨1, 2⟩, ⟨3, 4⟩] replacement = .ok false ∧
      ∃ error, sizedWrite subject [⟨3, 4⟩, ⟨1, 2⟩] replacement 300 = .error error := by
  intro subject replacement
  have hsubject : Stored subject [97, 98, 99, 98] := ⟨⟨rfl, _, rfl, rfl⟩, rfl⟩
  have hreplacement : Stored replacement [0xc3, 0xa9] := ⟨⟨rfl, _, rfl, rfl⟩, rfl⟩
  obtain ⟨-, hwrite, -⟩ :=
    writeReplacement_writes_replaced hsubject hreplacement [⟨1, 2⟩, ⟨3, 4⟩] 300
  obtain ⟨hrefused, -⟩ :=
    writeReplacement_writes_replaced hsubject hreplacement [⟨3, 4⟩, ⟨1, 2⟩] 300
  have haccepted : ¬ (Misplaced 4 [⟨1, 2⟩, ⟨3, 4⟩] ∨ intMax <
      (replacedRanges [97, 98, 99, 98] [0xc3, 0xa9] [⟨1, 2⟩, ⟨3, 4⟩]).length) := by
    rw [misplaced_iff, not_or, not_not]
    exact ⟨⟨by decide, by decide, by decide, by decide, by decide, by decide, trivial⟩,
      by decide⟩
  refine ⟨(hwrite haccepted).1, rfl, hrefused.mpr (.inl ?_)⟩
  exact ⟨[⟨3, 4⟩], ⟨1, 2⟩, [], rfl, .inr (.inl (by decide))⟩

end Charr.FixedSearch
