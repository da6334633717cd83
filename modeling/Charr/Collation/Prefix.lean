import Charr.Text.StringView
import Mathlib.Data.List.GetD
import Mathlib.Tactic.Linarith
import Mathlib.Tactic.Ring

/-!
# Abbreviated collation keys

Every string of a vector gets the first eight bytes of its sort key, packed into
one integer. The order of these prefixes is part of the collation order, and where
they decide nothing the collator does.
-/

namespace Charr.Collation

/-- An open collator. -/
structure Collator where
  /-- `ucol_strcollUTF8` -/
  compare : List UInt8 → List UInt8 → Ordering
  /-- What calls of `ucol_nextSortKeyPart` write, one part after the other. -/
  sortKey : List UInt8 → List UInt8
  /-- `UCOL_CASE_LEVEL` is on. -/
  caseLevel : Bool

/-- The elements of a character vector, whose `LENGTH` is an `int`. -/
structure Inputs where
  views : List StringView
  length_le : views.length ≤ intMax

namespace Inputs

variable (values : Inputs)

/-- The number of values. -/
def size : Nat := values.views.length

/-- The value at an index. -/
def view (i : Nat) : StringView := values.views.getD i StringView.na

/-- Whether the value is missing. -/
def isNa (i : Nat) : Bool := (values.view i).isNa

/-- The bytes of the value. -/
def text (i : Nat) : List UInt8 := (values.view i).bytes

theorem lt_size {values : Inputs} {i : Nat} (hpresent : values.isNa i = false) :
    i < values.size := by
  by_contra hsize
  rw [isNa, view, List.getD_eq_default _ _ (Nat.not_lt.mp hsize)] at hpresent
  exact absurd hpresent (by decide)

end Inputs

/-- The first bytes of a sort key in one word, the value it is of, and whether that is the whole
key. -/
structure CollationPrefix where
  packed : UInt64
  index : Nat
  complete : Bool
  deriving DecidableEq, Repr, Inhabited

/-- The bytes that a word holds. -/
def prefixBytes : Nat := 8

/-- The bytes of one call with a zeroed state. -/
def Collator.nextSortKeyPart (collator : Collator) (text : List UInt8) (count : Nat) :
    List UInt8 :=
  (collator.sortKey text).take count

/-- One more byte, behind those packed before. -/
def packByte (packed : UInt64) (byte : UInt8) : UInt64 :=
  packed <<< 8 ||| byte.toUInt64

/-- The bytes in one word, the first one on top. -/
def pack (bytes : List UInt8) : UInt64 :=
  bytes.foldl packByte 0

/-- The entry of one element. A missing one gets an incomplete zero prefix, and so
does every element when the case level is on. -/
def collationPrefix (collator : Collator) (values : Inputs) (i : Nat) : CollationPrefix :=
  if collator.caseLevel || values.isNa i then ⟨0, i, false⟩
  else
    let written := collator.nextSortKeyPart (values.text i) prefixBytes
    let bytes := written ++ List.replicate (prefixBytes - written.length) 0
    ⟨pack bytes, i, written.length < prefixBytes⟩

/-- The entries of `[start, stop)`, each at its own element index. -/
def computeCollationPrefixes (values : Inputs) (start stop : Nat) (collator : Collator)
    (keys : List CollationPrefix) : List CollationPrefix :=
  (List.range' start (stop - start)).foldl
    (fun keys i => keys.set i (collationPrefix collator values i)) keys

/-- The test both passes and the comparison make on the bytes of two views. -/
def sameBytes (first second : StringView) : Bool :=
  first.len = second.len && (first.len = 0 || first.bytes = second.bytes)

/-- Different prefixes decide alone; equal complete prefixes are equal keys. -/
def compareEntries (values : Inputs) (collator : Collator) (first second : CollationPrefix) :
    Ordering :=
  if first.packed ≠ second.packed then
    if first.packed < second.packed then .lt else .gt
  else if first.complete && second.complete then .eq
  else if sameBytes (values.view first.index) (values.view second.index) then .eq
  else collator.compare (values.text first.index) (values.text second.index)

/-- What is relied on of the entries of a vector's elements. -/
structure PrefixFacts (collator : Collator) (values : Inputs) (keys : List CollationPrefix) :
    Prop where
  length_eq : keys.length = values.size
  index_eq : ∀ i < values.size, (keys.getD i default).index = i
  less : ∀ i j, values.isNa i = false → values.isNa j = false →
    (keys.getD i default).packed < (keys.getD j default).packed →
      collator.compare (values.text i) (values.text j) = .lt
  equal : ∀ i j, values.isNa i = false → values.isNa j = false →
    (keys.getD i default).complete → (keys.getD j default).complete →
      (keys.getD i default).packed = (keys.getD j default).packed →
        collator.compare (values.text i) (values.text j) = .eq
  unequal : ∀ i j, values.isNa i = false → values.isNa j = false →
    (keys.getD i default).complete → (keys.getD j default).complete = false →
      collator.compare (values.text i) (values.text j) ≠ .eq

/-- The part of the prefix facts that finding equal strings relies on. -/
structure EqualityFacts (collator : Collator) (values : Inputs) (keys : List CollationPrefix) :
    Prop where
  length_eq : keys.length = values.size
  index_eq : ∀ i < values.size, (keys.getD i default).index = i
  same : ∀ i j, values.isNa i = false → values.isNa j = false →
    collator.compare (values.text i) (values.text j) = .eq →
      (keys.getD i default).packed = (keys.getD j default).packed ∧
        (keys.getD i default).complete = (keys.getD j default).complete
  equal : ∀ i j, values.isNa i = false → values.isNa j = false →
    (keys.getD i default).complete → (keys.getD j default).complete →
      (keys.getD i default).packed = (keys.getD j default).packed →
        collator.compare (values.text i) (values.text j) = .eq

/-- Strings collate equal exactly when they have one sort key, unless the case level
is on, and no byte of a key is zero. -/
structure EqualKeys (collator : Collator) : Prop where
  equal : collator.caseLevel = false → ∀ first second,
    collator.compare first second = .eq ↔ collator.sortKey first = collator.sortKey second
  nonzero : ∀ text, 0 ∉ collator.sortKey text

/-- Sort keys compare as the strings collate, unless the case level is on, and no
byte of a key is zero. -/
structure OrderedKeys (collator : Collator) : Prop where
  ordered : collator.caseLevel = false → ∀ first second,
    List.compareLex compare (collator.sortKey first) (collator.sortKey second) =
      collator.compare first second
  nonzero : ∀ text, 0 ∉ collator.sortKey text

section Comparison

/-- Equal views have equal bytes. -/
theorem bytes_eq_of_sameBytes {first second : StringView} (hsame : sameBytes first second) :
    first.bytes = second.bytes := by
  simp only [sameBytes, Bool.and_eq_true, Bool.or_eq_true, decide_eq_true_eq] at hsame
  obtain ⟨hlen, hzero | hbytes⟩ := hsame
  · rw [StringView.bytes_of_len_zero hzero, StringView.bytes_of_len_zero (hlen ▸ hzero)]
  · exact hbytes

theorem sameBytes_self (view : StringView) : sameBytes view view := by
  simp [sameBytes]

variable {collator : Collator} {values : Inputs} {keys : List CollationPrefix}
  [Std.TransCmp collator.compare]

/-- Comparing two entries is collating their strings. -/
theorem PrefixFacts.compareEntries_eq (hfacts : PrefixFacts collator values keys) {i j : Nat}
    (hi : values.isNa i = false) (hj : values.isNa j = false) :
    compareEntries values collator (keys.getD i default) (keys.getD j default) =
      collator.compare (values.text i) (values.text j) := by
  unfold compareEntries
  rw [hfacts.index_eq i (Inputs.lt_size hi), hfacts.index_eq j (Inputs.lt_size hj)]
  split
  next hne =>
    split
    next hlt => exact (hfacts.less i j hi hj hlt).symm
    next hge =>
      have hgt := hfacts.less j i hj hi
        (UInt64.lt_of_le_of_ne (UInt64.not_lt.mp hge) (Ne.symm hne))
      exact (Std.OrientedCmp.gt_of_lt hgt).symm
  next heq =>
    split
    next hcomplete =>
      simp only [Bool.and_eq_true] at hcomplete
      exact (hfacts.equal i j hi hj hcomplete.1 hcomplete.2 (not_not.mp heq)).symm
    next =>
      split
      next hsame =>
        rw [Inputs.text, Inputs.text, bytes_eq_of_sameBytes hsame]
        exact Std.ReflCmp.compare_self.symm
      next => rfl

end Comparison

section Writes

/-- A loop of writes leaves the places it does not name. -/
theorem getD_foldl_set_of_not_mem {Value : Type*} (place : Nat → Nat) (value : Nat → Value)
    {steps : List Nat} {written : List Value} {fallback : Value} {i : Nat}
    (hi : ∀ step ∈ steps, place step ≠ i) :
    (steps.foldl (fun written step => written.set (place step) (value step)) written).getD i
      fallback = written.getD i fallback := by
  induction steps generalizing written with
  | nil => rfl
  | cons step rest ih =>
      rw [List.foldl_cons, ih fun other hother => hi other (List.mem_cons_of_mem _ hother),
        List.getD_eq_getElem?_getD, List.getElem?_set_ne (hi step List.mem_cons_self),
        ← List.getD_eq_getElem?_getD]

/-- A place that is named once holds what was written there. -/
theorem getD_foldl_set_of_mem {Value : Type*} (place : Nat → Nat) (value : Nat → Value)
    {steps : List Nat} {written : List Value} {fallback : Value}
    (hdistinct : (steps.map place).Nodup) (hlength : ∀ step ∈ steps, place step < written.length)
    {step : Nat} (hstep : step ∈ steps) :
    (steps.foldl (fun written step => written.set (place step) (value step)) written).getD
      (place step) fallback = value step := by
  induction steps generalizing written with
  | nil => exact absurd hstep List.not_mem_nil
  | cons first rest ih =>
      rw [List.map_cons, List.nodup_cons] at hdistinct
      rw [List.foldl_cons]
      rcases List.mem_cons.mp hstep with rfl | hrest
      · rw [getD_foldl_set_of_not_mem, List.getD_eq_getElem?_getD, List.getElem?_set_self
          (hlength step List.mem_cons_self)]
        · rfl
        · intro other hother heq
          exact hdistinct.1 (heq ▸ List.mem_map_of_mem hother)
      · apply ih hdistinct.2 _ hrest
        intro other hother
        rw [List.length_set]
        exact hlength other (List.mem_cons_of_mem _ hother)

end Writes

section SortKeys

/-- The number the first `count` bytes of a key stand for, zero padded. -/
def leadingNat : Nat → List UInt8 → Nat
  | 0, _ => 0
  | _ + 1, [] => 0
  | count + 1, byte :: rest => byte.toNat * 256 ^ count + leadingNat count rest

/-- The leading bytes are below a power of 256. -/
theorem leadingNat_lt (count : Nat) (key : List UInt8) : leadingNat count key < 256 ^ count := by
  induction count generalizing key with
  | zero => simp [leadingNat]
  | succ count ih =>
      cases key with
      | nil => simp [leadingNat]
      | cons byte rest =>
          have hbyte : byte.toNat ≤ 255 := Nat.le_of_lt_succ byte.toNat_lt
          have hrest := ih rest
          calc byte.toNat * 256 ^ count + leadingNat count rest
              < byte.toNat * 256 ^ count + 256 ^ count := by omega
            _ = (byte.toNat + 1) * 256 ^ count := by ring
            _ ≤ 256 * 256 ^ count := Nat.mul_le_mul_right _ (Nat.succ_le_succ hbyte)
            _ = 256 ^ (count + 1) := by ring

@[simp] theorem leadingNat_nil (count : Nat) : leadingNat count [] = 0 := by
  cases count <;> rfl

/-- The first byte decides, whatever follows it. -/
theorem digit_lt {first second base low high : Nat} (hlt : first < second) (hlow : low < base) :
    first * base + low < second * base + high := by
  calc first * base + low
      < (first + 1) * base := by rw [Nat.succ_mul]; omega
    _ ≤ second * base := Nat.mul_le_mul_right base hlt
    _ ≤ second * base + high := Nat.le_add_right _ _

/-- The smaller prefix belongs to the smaller key. -/
theorem compareLex_of_leadingNat_lt {count : Nat} {first second : List UInt8}
    (hlt : leadingNat count first < leadingNat count second) :
    List.compareLex compare first second = .lt := by
  induction count generalizing first second with
  | zero => exact absurd hlt (by simp [leadingNat])
  | succ count ih =>
      cases second with
      | nil => exact absurd hlt (by simp)
      | cons b bs =>
          cases first with
          | nil => rfl
          | cons a as =>
              simp only [leadingNat] at hlt
              rw [List.compareLex_cons_cons]
              rcases lt_trichotomy a.toNat b.toNat with hab | hab | hab
              · have hless : a < b := UInt8.lt_iff_toNat_lt.mpr hab
                simp [compare, compareOfLessAndEq, hless]
              · obtain rfl := UInt8.toNat_inj.mp hab
                have hrest := ih (Nat.lt_of_add_lt_add_left hlt)
                simpa [compare, compareOfLessAndEq] using hrest
              · exact absurd hlt (digit_lt hab (leadingNat_lt count bs)).not_gt

/-- No byte of a key is zero, so the padding is no part of one. -/
theorem eq_of_leadingNat_eq {count : Nat} {first second : List UInt8}
    (hfirst : 0 ∉ first) (hsecond : 0 ∉ second) (hfirstLength : first.length ≤ count)
    (hsecondLength : second.length ≤ count)
    (heq : leadingNat count first = leadingNat count second) : first = second := by
  induction count generalizing first second with
  | zero =>
      rw [List.eq_nil_of_length_eq_zero (Nat.le_zero.mp hfirstLength),
        List.eq_nil_of_length_eq_zero (Nat.le_zero.mp hsecondLength)]
  | succ count ih =>
      have hpositive (byte : UInt8) (rest : List UInt8) (hkey : 0 ∉ byte :: rest) :
          0 < leadingNat (count + 1) (byte :: rest) := by
        have hbyte : byte.toNat ≠ 0 := by
          intro hzero
          apply hkey
          rw [show byte = 0 from UInt8.toNat_inj.mp hzero]
          exact List.mem_cons_self
        exact Nat.add_pos_left (Nat.mul_pos (Nat.pos_of_ne_zero hbyte) (by positivity)) _
      cases first with
      | nil =>
          cases second with
          | nil => rfl
          | cons b bs =>
              have hb := hpositive b bs hsecond
              rw [leadingNat_nil] at heq
              omega
      | cons a as =>
          cases second with
          | nil =>
              have ha := hpositive a as hfirst
              rw [leadingNat_nil] at heq
              omega
          | cons b bs =>
              simp only [leadingNat] at heq
              have hbyte : a.toNat = b.toNat := by
                rcases lt_trichotomy a.toNat b.toNat with hab | hab | hab
                · exact absurd heq (digit_lt hab (leadingNat_lt count as)).ne
                · exact hab
                · exact absurd heq (digit_lt hab (leadingNat_lt count bs)).ne'
              rw [hbyte] at heq
              rw [UInt8.toNat_inj.mp hbyte, ih (fun hmem => hfirst (List.mem_cons_of_mem _ hmem))
                (fun hmem => hsecond (List.mem_cons_of_mem _ hmem))
                (Nat.le_of_succ_le_succ hfirstLength) (Nat.le_of_succ_le_succ hsecondLength)
                (Nat.add_left_cancel heq)]

/-- Packing a byte is a step in base 256. -/
theorem toNat_packByte {packed : UInt64} (byte : UInt8) (hpacked : packed.toNat < 256 ^ 7) :
    (packByte packed byte).toNat = packed.toNat * 256 + byte.toNat := by
  have hbyte : byte.toNat < 2 ^ 8 := byte.toNat_lt
  have hshift : packed.toNat <<< 8 % 2 ^ 64 = packed.toNat <<< 8 := by
    apply Nat.mod_eq_of_lt
    rw [Nat.shiftLeft_eq]
    omega
  rw [packByte, UInt64.toNat_or, UInt64.toNat_shiftLeft, UInt8.toNat_toUInt64]
  change packed.toNat <<< 8 % 2 ^ 64 ||| byte.toNat = _
  rw [hshift, ← Nat.shiftLeft_add_eq_or_of_lt hbyte, Nat.shiftLeft_eq]

/-- Packing bytes spells a number in base 256. -/
theorem toNat_foldl_packByte (bytes : List UInt8) (packed : UInt64) (hlength : bytes.length ≤ 8)
    (hpacked : packed.toNat < 256 ^ (8 - bytes.length)) :
    (bytes.foldl packByte packed).toNat =
      packed.toNat * 256 ^ bytes.length + leadingNat bytes.length bytes := by
  induction bytes generalizing packed with
  | nil => simp
  | cons byte rest ih =>
      have hlength' : rest.length + 1 ≤ 8 := hlength
      have hle : 256 ^ (8 - (rest.length + 1)) ≤ 256 ^ 7 :=
        Nat.pow_le_pow_right (by decide) (by omega)
      have hstep := toNat_packByte byte (Nat.lt_of_lt_of_le hpacked hle)
      have hpow : 256 ^ (8 - rest.length) = 256 ^ (8 - (rest.length + 1)) * 256 := by
        rw [← Nat.pow_succ]
        congr 1
        omega
      rw [List.foldl_cons, ih _ (Nat.le_of_succ_le hlength'), hstep]
      · simp only [List.length_cons, leadingNat]
        ring
      · have hbyte : byte.toNat < 256 := byte.toNat_lt
        rw [hstep, hpow]
        simp only [List.length_cons] at hpacked
        omega

/-- Zeros behind a short key do not change its number. -/
theorem leadingNat_padded (count : Nat) (key : List UInt8) :
    leadingNat count (key.take count ++ List.replicate (count - (key.take count).length) 0) =
      leadingNat count key := by
  induction count generalizing key with
  | zero => rfl
  | succ count ih =>
      cases key with
      | nil =>
          have hnil := ih []
          simp only [List.take_nil, List.nil_append, List.length_nil, Nat.sub_zero,
            leadingNat_nil] at hnil ⊢
          rw [List.replicate_succ, leadingNat, hnil]
          simp
      | cons byte rest =>
          simp only [List.take_succ_cons, List.cons_append, List.length_cons, leadingNat,
            Nat.add_sub_add_right, ih rest]

/-- The packed prefix is the number of the first eight bytes of the key. -/
theorem toNat_packed {collator : Collator} {values : Inputs} {i : Nat}
    (hlevel : collator.caseLevel = false) (hpresent : values.isNa i = false) :
    (collationPrefix collator values i).packed.toNat =
      leadingNat prefixBytes (collator.sortKey (values.text i)) := by
  have hlength : ((collator.sortKey (values.text i)).take prefixBytes ++ List.replicate
      (prefixBytes - ((collator.sortKey (values.text i)).take prefixBytes).length) 0).length =
        prefixBytes := by
    rw [List.length_append, List.length_replicate]
    have := List.length_take_le prefixBytes (collator.sortKey (values.text i))
    omega
  rw [collationPrefix, hlevel, hpresent]
  simp only [Bool.or_self, Bool.false_eq_true, if_false, Collator.nextSortKeyPart, pack]
  rw [toNat_foldl_packByte _ 0 (hlength.le) (by simp), hlength, leadingNat_padded]
  simp

/-- A prefix is complete if the key and its terminator fit. -/
theorem complete_iff {collator : Collator} {values : Inputs} {i : Nat}
    (hlevel : collator.caseLevel = false) (hpresent : values.isNa i = false) :
    (collationPrefix collator values i).complete ↔
      (collator.sortKey (values.text i)).length < prefixBytes := by
  rw [collationPrefix, hlevel, hpresent]
  simp [Collator.nextSortKeyPart]

/-- A range of entries is computed in place, and nothing outside it is written. -/
theorem getD_computeCollationPrefixes (values : Inputs) (start stop : Nat) (collator : Collator)
    {keys : List CollationPrefix} (hstop : stop ≤ keys.length) (i : Nat) :
    (computeCollationPrefixes values start stop collator keys).getD i default =
      if start ≤ i ∧ i < stop then collationPrefix collator values i
      else keys.getD i default := by
  have hmem (j : Nat) : j ∈ List.range' start (stop - start) ↔ start ≤ j ∧ j < stop := by
    rw [List.mem_range'_1]
    omega
  split
  next hi =>
    apply getD_foldl_set_of_mem (fun j => j) (collationPrefix collator values)
    · rw [List.map_id']
      exact List.nodup_range'
    · intro j hj
      exact Nat.lt_of_lt_of_le ((hmem j).mp hj).2 hstop
    · exact (hmem i).mpr hi
  next hi =>
    apply getD_foldl_set_of_not_mem (fun j => j)
    rintro j hj rfl
    exact hi ((hmem j).mp hj)

theorem length_computeCollationPrefixes (values : Inputs) (start stop : Nat)
    (collator : Collator) (keys : List CollationPrefix) :
    (computeCollationPrefixes values start stop collator keys).length = keys.length := by
  unfold computeCollationPrefixes
  generalize stop - start = count
  induction count generalizing start keys with
  | zero => rfl
  | succ count ih =>
      rw [List.range'_succ, List.foldl_cons, ih, List.length_set]

variable {collator : Collator} {values : Inputs} {keys : List CollationPrefix}

/-- Every value has its own prefix. -/
theorem getD_computed (hlength : keys.length = values.size) {i : Nat} (hi : i < values.size) :
    (computeCollationPrefixes values 0 values.size collator keys).getD i default =
      collationPrefix collator values i := by
  rw [getD_computeCollationPrefixes values 0 values.size collator hlength.ge]
  exact if_pos ⟨Nat.zero_le i, hi⟩

theorem collationPrefix_index (i : Nat) : (collationPrefix collator values i).index = i := by
  unfold collationPrefix
  split <;> rfl

/-- With a case level no prefix is used. -/
theorem collationPrefix_caseLevel (hlevel : collator.caseLevel = true) (i : Nat) :
    collationPrefix collator values i = ⟨0, i, false⟩ := by
  rw [collationPrefix, hlevel, Bool.true_or]
  rfl

/-- The computed prefixes tell values apart no finer than the collator does. -/
theorem EqualityFacts.computed (hkeys : EqualKeys collator) (hlength : keys.length = values.size) :
    EqualityFacts collator values
      (computeCollationPrefixes values 0 values.size collator keys) where
  length_eq := by rw [length_computeCollationPrefixes, hlength]
  index_eq i hi := by rw [getD_computed hlength hi, collationPrefix_index]
  same i j hi hj heq := by
    rw [getD_computed hlength (Inputs.lt_size hi), getD_computed hlength (Inputs.lt_size hj)]
    cases hlevel : collator.caseLevel with
    | true => simp [collationPrefix_caseLevel hlevel]
    | false =>
        have hkey := (hkeys.equal hlevel _ _).mp heq
        constructor
        · apply UInt64.toNat_inj.mp
          rw [toNat_packed hlevel hi, toNat_packed hlevel hj, hkey]
        · rw [Bool.eq_iff_iff, complete_iff hlevel hi, complete_iff hlevel hj, hkey]
  equal i j hi hj hcompleteI hcompleteJ hpacked := by
    rw [getD_computed hlength (Inputs.lt_size hi)] at hcompleteI hpacked
    rw [getD_computed hlength (Inputs.lt_size hj)] at hcompleteJ hpacked
    cases hlevel : collator.caseLevel with
    | true => simp [collationPrefix_caseLevel hlevel] at hcompleteI
    | false =>
        rw [complete_iff hlevel hi] at hcompleteI
        rw [complete_iff hlevel hj] at hcompleteJ
        rw [← UInt64.toNat_inj, toNat_packed hlevel hi, toNat_packed hlevel hj] at hpacked
        apply (hkeys.equal hlevel _ _).mpr
        exact eq_of_leadingNat_eq (hkeys.nonzero _) (hkeys.nonzero _) hcompleteI.le
          hcompleteJ.le hpacked

/-- Keys that order as the collator does are equal where it finds equality. -/
theorem OrderedKeys.equalKeys (hkeys : OrderedKeys collator) : EqualKeys collator where
  equal hlevel first second := by
    rw [← hkeys.ordered hlevel]
    exact Std.LawfulEqCmp.compare_eq_iff_eq
  nonzero := hkeys.nonzero

/-- What the header says of prefixes holds of the computed ones. -/
theorem PrefixFacts.computed (hkeys : OrderedKeys collator) (hlength : keys.length = values.size) :
    PrefixFacts collator values
      (computeCollationPrefixes values 0 values.size collator keys) := by
  have hequality := EqualityFacts.computed hkeys.equalKeys hlength
  refine ⟨hequality.length_eq, hequality.index_eq, ?_, hequality.equal, ?_⟩
  · intro i j hi hj hless
    rw [getD_computed hlength (Inputs.lt_size hi), getD_computed hlength (Inputs.lt_size hj)]
      at hless
    cases hlevel : collator.caseLevel with
    | true => simp [collationPrefix_caseLevel hlevel] at hless
    | false =>
        rw [UInt64.lt_iff_toNat_lt, toNat_packed hlevel hi, toNat_packed hlevel hj] at hless
        rw [← hkeys.ordered hlevel]
        exact compareLex_of_leadingNat_lt hless
  · intro i j hi hj hcomplete hincomplete heq
    rw [(hequality.same i j hi hj heq).2, hincomplete] at hcomplete
    exact Bool.false_ne_true hcomplete

end SortKeys

end Charr.Collation
