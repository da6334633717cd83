import Charr.FixedSearch.ReplacementLaws

/-!
# Replacing one byte directly

A scalar pattern of one byte and a scalar replacement have a kernel of their own:
it counts, sizes and copies the bytes of a record as they are stored. The general
path replaces the ranges its matcher reports in the normalized record.
-/

namespace Charr.FixedSearch

open Occurrence (Greedy IsFirst)
open Utf8 (CodePoint)
open FixedMatcher (Present Consistent used consistent_used)

/-! ## The direct kernel -/

/-- A record as the direct kernel reads it, without a byte order mark. -/
structure DirectView where
  bytes : List UInt8
  missing : Bool
  encoding : StringEncoding

/-- The string as the direct kernel reads it, if it can. -/
def directView (value : StringView) : Option DirectView :=
  if value.isNa then some ⟨[], true, .missing⟩
  else if value.len < 0 ∨ (value.isNull ∧ value.len ≠ 0) ∨ !normalizedEncoding value.enc then
    none
  else
    some ⟨if value.enc ≠ .ascii ∧ hasBom value.bytes then value.bytes.drop 3 else value.bytes,
      false, value.enc⟩

/-- The size of the result, which may not pass the limit of R. -/
def checkedDirectSize (subjectLength replacementLength count matchedBytes : Nat) :
    Except NativeError Nat :=
  if matchedBytes > subjectLength then .error charsxpLimit
  else
    let unmatched := subjectLength - matchedBytes
    if replacementLength > 0 ∧ count > (intMax - unmatched) / replacementLength then
      .error charsxpLimit
    else .ok (unmatched + count * replacementLength)

/-- Where the byte occurs first, or `notFound`. -/
def findFirstByte (subject : List UInt8) (pattern : UInt8) : Int :=
  positionOrNotFound (memchr subject pattern subject.length)

/-- How often the byte stands in the subject, and whether the rest of it is ASCII. -/
def scanAllBytes (subject : List UInt8) (pattern : UInt8) (outputAscii : Bool) : Nat × Bool :=
  subject.foldl (fun (count, outputAscii) value =>
    if value = pattern then (count + 1, outputAscii)
    else if value > 0x7f then (count, false)
    else (count, outputAscii)) (0, outputAscii)

/-- The text with the byte at the position replaced. -/
def writeFirstByte (subject : List UInt8) (position : Nat) (replacement : List UInt8) :
    List UInt8 :=
  subject.take position ++ replacement ++ subject.drop (position + 1)

/-- Copy what stands between two matches, and the replacement for each. -/
def writeAllLoop (subject : List UInt8) (pattern : UInt8) (replacement : List UInt8) :
    List UInt8 → Nat → Nat → List UInt8 → List UInt8
  | [], _, previous, output => output ++ subject.drop previous
  | value :: rest, index, previous, output =>
      if value ≠ pattern then
        writeAllLoop subject pattern replacement rest (index + 1) previous output
      else
        writeAllLoop subject pattern replacement rest (index + 1) (index + 1)
          (output ++ (subject.drop previous).take (index - previous) ++ replacement)

/-- The text with every such byte replaced. -/
def writeAllBytes (subject : List UInt8) (pattern : UInt8) (replacement : List UInt8) :
    List UInt8 :=
  -- one byte for one byte is exchanged in place
  if replacement.length = 1 then
    subject.map fun value => if value = pattern then replacement.getD 0 0 else value
  else writeAllLoop subject pattern replacement subject 0 0 []

/-- What the direct region knows of the call. -/
structure ReplaceDirectState where
  replacement : DirectView
  patternByte : UInt8
  replacementAscii : Bool
  replaceAll : Bool

/-- Everything that can be decided before looking at a subject. -/
def replaceDirectEligible (subjects outputLength : Nat) (pattern replacement : StringView)
    (options : FixedSearchOptions) (replaceAll : Bool) : Option ReplaceDirectState :=
  if options.caseInsensitive ∨ options.overlap ∨ subjects ≠ outputLength then none
  else
    match directView pattern with
    | none => none
    | some patternValue =>
        if patternValue.missing ∨ patternValue.bytes.length ≠ 1 then none
        else
          match directView replacement with
          | none => none
          | some replacementValue =>
              some ⟨replacementValue, patternValue.bytes.getD 0 0,
                !replacementValue.missing && spanIsAscii replacementValue.bytes, replaceAll⟩

/-- What a kernel tells the output: a missing value, a copy of stored bytes, or a
buffer of a size with what is then written to it. -/
inductive SinkCall where
  | setNa
  | set (bytes : List UInt8) (encoding : StringEncoding)
  | reserve (size : Nat) (encoding : StringEncoding) (written : List UInt8)
  deriving DecidableEq

/-- The record a call leaves. -/
def SinkCall.record : SinkCall → Option OutputRecord
  | .setNa => none
  | .set bytes encoding => some ⟨bytes, resolvedEncoding bytes encoding⟩
  | .reserve _ encoding written => some ⟨written, encoding⟩

/-- One record, or nothing for one that needs the general path. -/
def replaceDirectOne (state : ReplaceDirectState) (value : StringView) :
    Option (Except NativeError SinkCall) :=
  match directView value with
  | none => none
  | some subject =>
      some <|
        if subject.missing then .ok .setNa
        else if subject.bytes.length ≤ 0 then .ok (.set [] subject.encoding)
        else if !state.replaceAll then
          let position := findFirstByte subject.bytes state.patternByte
          if position < 0 then .ok (.set subject.bytes subject.encoding)
          else if state.replacement.missing then .ok .setNa
          else do
            let position := position.toNat
            let ascii := state.replacementAscii && spanIsAscii (subject.bytes.take position) &&
              spanIsAscii (subject.bytes.drop (position + 1))
            let size ← checkedDirectSize subject.bytes.length state.replacement.bytes.length 1 1
            return .reserve size (if ascii then .ascii else .utf8)
              (writeFirstByte subject.bytes position state.replacement.bytes)
        else
          let (count, ascii) := scanAllBytes subject.bytes state.patternByte state.replacementAscii
          if count = 0 then .ok (.set subject.bytes subject.encoding)
          else if state.replacement.missing then .ok .setNa
          else do
            let size ← checkedDirectSize subject.bytes.length state.replacement.bytes.length count
              count
            return .reserve size (if ascii then .ascii else .utf8)
              (writeAllBytes subject.bytes state.patternByte state.replacement.bytes)

/-! ## The general kernel -/

/-- All ranges to replace, or the first. -/
def rangesToReplace (toUpper : CodePoint → CodePoint) (options : FixedSearchOptions)
    (replaceAll : Bool) (subject pattern : StringView) (matcher : FixedMatcher) :
    Except NativeError (List ByteRange × FixedMatcher) :=
  if replaceAll then matcher.findAll toUpper subject pattern options
  else do
    let (range, matcher) ← matcher.findFirst toUpper subject pattern options
    return (range.toList, matcher)

/-- The general replacement in one subject. -/
def replaceOne (toUpper : CodePoint → CodePoint) (options : FixedSearchOptions)
    (replaceAll : Bool) (subject pattern replacement : StringView) (matcher : FixedMatcher) :
    Except NativeError (Option OutputRecord × FixedMatcher) :=
  if subject.isNa ∨ pattern.isNa ∨ pattern.len ≤ 0 then .ok (none, matcher)
  else if subject.len ≤ 0 then do return (← outputRecord subject, matcher)
  else do
    let (ranges, matcher) ← rangesToReplace toUpper options replaceAll subject pattern matcher
    if ranges.length = 0 then return (← outputRecord subject, matcher)
    else if replacement.isNa then return (none, matcher)
    else
      let matchedBytes ← matchedByteCount 0 ranges
      let size ← checkedReplacementSize subject matchedBytes ranges replacement
      let ascii ← replacementIsAscii subject ranges replacement
      -- the builder hands out a buffer of this size
      let written ← writeReplacement subject ranges replacement (some 0) size.1
      return (some ⟨written.1, if ascii then .ascii else .utf8⟩, matcher)

/-! ## One byte replaced -/

section Substitute

variable {text replacement : List UInt8} {byte : UInt8}

/-- The text with the replacement for every `byte`. -/
def substitute (text : List UInt8) (byte : UInt8) (replacement : List UInt8) : List UInt8 :=
  text.flatMap fun value => if value = byte then replacement else [value]

/-- Without the byte there is nothing to substitute. -/
theorem substitute_of_not_mem (hfree : byte ∉ text) : substitute text byte replacement = text := by
  unfold substitute
  induction text with
  | nil => rfl
  | cons value rest ih =>
      obtain ⟨hvalue, hrest⟩ := List.ne_and_not_mem_of_not_mem_cons hfree
      rw [List.flatMap_cons, if_neg (Ne.symm hvalue), ih hrest]
      rfl

/-- The byte ranges of occurrences of one byte. -/
def byteRanges (positions : List Nat) : List ByteRange :=
  positions.map fun position => FixedMatcher.toRange (position, position + 1)

theorem byteRanges_cons (position : Nat) (rest : List Nat) :
    byteRanges (position :: rest) = ⟨position, (position + 1 : Nat)⟩ :: byteRanges rest := rfl

/-- Ranges of one byte are in order and apart. -/
theorem placedFrom_byteRanges {start : Nat} {positions : List Nat}
    (hgreedy : Greedy [byte] text start positions) :
    PlacedFrom text.length start (byteRanges positions) := by
  unfold Greedy at hgreedy
  induction hgreedy with
  | done _ => trivial
  | @found start position rest hfirst _ ih =>
      have hend := hfirst.occurs.add_length_le (List.cons_ne_nil byte [])
      have hstart := hfirst.from_start
      rw [List.length_singleton] at hend
      rw [byteRanges_cons]
      exact ⟨Int.ofNat_le.mpr hstart, by simp, Int.ofNat_le.mpr hend, ih⟩

/-- Splicing at every occurrence substitutes the byte. -/
theorem splice_byteRanges {start : Nat} {positions : List Nat}
    (hgreedy : Greedy [byte] text start positions) :
    splice text replacement start (byteRanges positions) =
      substitute (text.drop start) byte replacement := by
  unfold Greedy at hgreedy
  induction hgreedy with
  | @done start hnone =>
      rw [substitute_of_not_mem]
      · rfl
      · intro hmem
        obtain ⟨offset, hoffset⟩ := List.mem_iff_getElem?.mp hmem
        rw [List.getElem?_drop] at hoffset
        exact hnone (start + offset) (Nat.le_add_right _ _)
          (Occurrence.at_singleton_iff.mpr hoffset)
  | @found start position rest hfirst _ ih =>
      obtain ⟨hfree, hsplit⟩ := hfirst.drop_eq
      have hgap : ((position : Int) - start).toNat = position - start := by omega
      conv_rhs => rw [hsplit]
      rw [byteRanges_cons, splice, Int.toNat_natCast, hgap]
      unfold substitute at ih ⊢
      rw [List.flatMap_append, List.flatMap_cons, if_pos rfl, ← List.append_assoc]
      congr 1
      congr 1
      exact (substitute_of_not_mem hfree).symm

/-- Replacing all ranges of the byte is substituting it. -/
theorem replacedRanges_byteRanges {positions : List Nat}
    (hgreedy : Greedy [byte] text 0 positions) :
    replacedRanges text replacement (byteRanges positions) = substitute text byte replacement := by
  rw [replacedRanges_eq (placedFrom_byteRanges hgreedy), splice_byteRanges hgreedy]
  rfl

/-- The loop has written everything in front of `previous`, and has passed over what
follows up to `index`. -/
theorem writeAllLoop_eq (rest : List UInt8) {index previous : Nat} (output : List UInt8)
    (hrest : text.drop index = rest) (hprevious : previous ≤ index) :
    writeAllLoop text byte replacement rest index previous output =
      output ++ (text.drop previous).take (index - previous) ++
        substitute rest byte replacement := by
  induction rest generalizing index previous output with
  | nil =>
      have hend : text.length ≤ index := List.drop_eq_nil_iff.mp hrest
      rw [writeAllLoop, List.take_of_length_le (by rw [List.length_drop]; omega)]
      exact (List.append_nil _).symm
  | cons value rest ih =>
      have hlt : index < text.length := by
        by_contra hge
        rw [List.drop_eq_nil_of_le (by omega)] at hrest
        exact absurd hrest (by simp)
      rw [List.drop_eq_getElem_cons hlt] at hrest
      obtain ⟨hvalue, hnext⟩ := List.cons.inj hrest
      rw [writeAllLoop]
      split
      next hother =>
        have hgap : (text.drop previous).take (index + 1 - previous) =
            (text.drop previous).take (index - previous) ++ [value] := by
          have hone : index + 1 - previous = index - previous + 1 := by omega
          have hinside : index - previous < (text.drop previous).length := by
            rw [List.length_drop]
            omega
          rw [hone, List.take_succ_eq_append_getElem hinside, List.getElem_drop]
          simp only [Nat.add_sub_cancel' hprevious, hvalue]
        rw [ih output hnext (by omega), hgap, substitute, substitute, List.flatMap_cons,
          if_neg hother]
        simp only [List.append_assoc]
      next hsame =>
        have hequal : value = byte := not_not.mp hsame
        rw [ih _ hnext (Nat.le_refl _), Nat.sub_self, List.take_zero, List.append_nil,
          substitute, substitute, List.flatMap_cons, if_pos hequal, List.append_assoc]

/-- Writing substitutes the byte. -/
theorem writeAllBytes_eq (text : List UInt8) (byte : UInt8) (replacement : List UInt8) :
    writeAllBytes text byte replacement = substitute text byte replacement := by
  unfold writeAllBytes
  split
  next hsingle =>
    obtain ⟨only, rfl⟩ := List.length_eq_one_iff.mp hsingle
    rw [List.getD_cons_zero, substitute, List.map_eq_flatMap]
    congr 1
    funext value
    split <;> rfl
  next =>
    rw [writeAllLoop_eq text [] rfl (Nat.le_refl 0)]
    rfl

/-- Bytes of the text that are not replaced are ASCII. -/
def restIsAscii (text : List UInt8) (byte : UInt8) : Bool :=
  text.all fun value => value = byte || value ≤ 0x7f

/-- The scan counts the byte and tells whether the rest is ASCII. -/
theorem scanAllBytes_eq (text : List UInt8) (byte : UInt8) (outputAscii : Bool) :
    scanAllBytes text byte outputAscii =
      (text.count byte, outputAscii && restIsAscii text byte) := by
  have hgeneral : ∀ (count : Nat) (ascii : Bool), text.foldl (fun (count, outputAscii) value =>
      if value = byte then (count + 1, outputAscii)
      else if value > 0x7f then (count, false)
      else (count, outputAscii)) (count, ascii) =
        (count + text.count byte, ascii && restIsAscii text byte) := by
    unfold restIsAscii
    induction text with
    | nil => simp
    | cons value rest ih =>
        intro count ascii
        rw [List.foldl_cons, List.count_cons, List.all_cons]
        by_cases hsame : value = byte
        · simp only [hsame, if_true, ih]
          simp
          omega
        · by_cases hlarge : value > 0x7f
          · simp only [hsame, hlarge, if_true, if_false, ih]
            simp [hsame, UInt8.not_le.mpr hlarge]
          · simp only [hsame, hlarge, if_false, ih]
            simp [hsame, UInt8.not_lt.mp hlarge]
  rw [scanAllBytes, hgeneral, Nat.zero_add]

/-- The result is ASCII if the replacement and the rest are. -/
theorem spanIsAscii_substitute (hmem : byte ∈ text) :
    spanIsAscii (substitute text byte replacement) =
      (spanIsAscii replacement && restIsAscii text byte) := by
  have hvalue : ∀ value, (if value = byte then replacement else [value]).all (· ≤ 0x7f) =
      if value = byte then spanIsAscii replacement else decide (value ≤ 0x7f) := by
    intro value
    split
    next => rfl
    next => simp
  unfold substitute
  rw [spanIsAscii, List.all_flatMap]
  simp only [hvalue, restIsAscii]
  cases spanIsAscii replacement with
  | true =>
      rw [Bool.true_and]
      congr 1
      funext value
      split <;> simp_all
  | false =>
      rw [Bool.false_and, List.all_eq_false]
      exact ⟨byte, hmem, by simp⟩

/-- The size of the result, as it is computed before. -/
theorem length_substitute (text replacement : List UInt8) (byte : UInt8) :
    (substitute text byte replacement).length =
      text.length - text.count byte + text.count byte * replacement.length := by
  unfold substitute
  induction text with
  | nil => simp
  | cons value rest ih =>
      have hless : rest.count byte ≤ rest.length := List.count_le_length
      rw [List.flatMap_cons, List.length_append, ih, List.count_cons, List.length_cons]
      by_cases hsame : value = byte
      · simp only [hsame, if_true, beq_self_eq_true, Nat.succ_mul]
        omega
      · simp only [hsame, if_false, beq_iff_eq, List.length_singleton, Nat.add_zero]
        omega

/-- The direct size is the size of the text that is then written. -/
theorem checkedDirectSize_eq {subjectLength count : Nat} (replacementLength : Nat)
    (hcount : count ≤ subjectLength) (hsubject : subjectLength ≤ intMax) :
    checkedDirectSize subjectLength replacementLength count count =
      if subjectLength - count + count * replacementLength ≤ intMax then
        .ok (subjectLength - count + count * replacementLength)
      else .error charsxpLimit := by
  have hlarge : (replacementLength > 0 ∧
      count > (intMax - (subjectLength - count)) / replacementLength) ↔
        ¬ subjectLength - count + count * replacementLength ≤ intMax := by
    by_cases hzero : replacementLength = 0
    · subst hzero
      simp only [Nat.lt_irrefl, false_and, gt_iff_lt, false_iff, not_not, Nat.mul_zero]
      omega
    · have hpositive : replacementLength > 0 := Nat.pos_of_ne_zero hzero
      rw [and_iff_right hpositive, gt_iff_lt, Nat.div_lt_iff_lt_mul hpositive]
      omega
  unfold checkedDirectSize
  rw [if_neg (Nat.not_lt.mpr hcount)]
  simp only [hlarge, ite_not]

end Substitute

/-! ## What both kernels leave -/

/-- The record both kernels leave: the text as it is, if there is nothing to replace,
under the mark its reader gave it. -/
def replacedRecord (encoding : StringEncoding) (text : List UInt8) (ranges : List ByteRange)
    (replacement : Option (List UInt8)) : Except NativeError (Option OutputRecord) :=
  if ranges = [] then .ok (some ⟨text, resolvedEncoding text encoding⟩)
  else
    match replacement with
    | none => .ok none
    | some replacement =>
        let result := replacedRanges text replacement ranges
        if result.length ≤ intMax then
          .ok (some ⟨result, if spanIsAscii result then .ascii else .utf8⟩)
        else .error charsxpLimit

/-- The occurrences that are replaced. -/
def replacedPositions (replaceAll : Bool) (positions : List Nat) : List Nat :=
  if replaceAll then positions else positions.head?.toList

section Kernels

variable {toUpper : CodePoint → CodePoint} {converter : NativeToUtf8}
  {source view subject pattern replacement : StringView} {bytes text : List UInt8}
  {byte : UInt8} {positions : List Nat}

/-- Only a byte order mark changes how a record is marked. -/
theorem Stored.enc_of_normalizes (hstored : Stored source bytes)
    (hview : Normalizes converter source view) :
    view.enc = if source.enc = .asciiOrUtf8 ∧ hasBom bytes = true then .utf8 else source.enc := by
  obtain ⟨storage, storage', hview⟩ := hview
  obtain ⟨⟨hna, span, hdata, rfl⟩, henc⟩ := hstored
  have hkinds : source.enc = .ascii ∨ source.enc = .utf8 ∨ source.enc = .asciiOrUtf8 := by
    simpa [directAsciiEncoding] using henc
  rw [normalizeUtf8, hna, if_neg Bool.false_ne_true, hdata] at hview
  simp only [normalizeUtf8Slow, hna, hdata] at hview
  rcases hkinds with hkind | hkind | hkind <;> cases hbom : hasBom span.bytes <;>
    simp [hkind, hbom, borrowed] at hview ⊢
  all_goals obtain ⟨rfl, -⟩ := hview
  all_goals first | rfl | exact hkind

theorem Stored.of_normalizes (hstored : Stored source bytes)
    (hview : Normalizes converter source view) : Stored view (unmarked source.enc bytes) := by
  refine ⟨hstored.present_of_normalizes hview, ?_⟩
  rw [hstored.enc_of_normalizes hview]
  split
  next => rfl
  next => exact hstored.encoding

/-- A direct view is of a missing record, or has the unmarked bytes of a stored one. -/
theorem directView_cases {direct : DirectView} (hdirect : directView source = some direct)
    (hview : Normalizes converter source view) :
    (source.isNa = true ∧ direct = ⟨[], true, .missing⟩) ∨
    ∃ bytes, Stored source bytes ∧ direct = ⟨unmarked source.enc bytes, false, source.enc⟩ := by
  unfold directView at hdirect
  split at hdirect
  next hna => exact .inl ⟨hna, (Option.some.inj hdirect).symm⟩
  next hna =>
    right
    rw [Bool.not_eq_true] at hna
    split at hdirect
    next => exact absurd hdirect (by simp)
    next haccepted =>
      simp only [not_or] at haccepted
      cases hdata : source.data with
      | null len => exact absurd hview (not_normalizes_null hdata hna)
      | bytes span =>
          have hbytes : source.bytes = span.bytes := by simp [StringView.bytes, hdata]
          have hencoding : normalizedEncoding source.enc = true := by simpa using haccepted.2.2
          rw [hbytes] at hdirect
          exact ⟨span.bytes, ⟨⟨hna, span, hdata, rfl⟩, hencoding⟩, (Option.some.inj hdirect).symm⟩

theorem outputRecord_stored (hsubject : Stored subject text) :
    outputRecord subject = .ok (some ⟨text, resolvedEncoding text subject.enc⟩) := by
  have henc : ¬ (subject.enc = .missing ∨ subject.enc = .unknown) := by
    have hkinds := hsubject.encoding
    rintro (hkind | hkind) <;> rw [hkind] at hkinds <;> exact absurd hkinds (by decide)
  rw [outputRecord, if_neg henc, hsubject.present.len_eq, hsubject.present.not_null,
    hsubject.present.bytes_eq]
  simp

/-- A replacement the kernels read: missing, or stored. -/
def Reads (replacement : StringView) : Option (List UInt8) → Prop
  | none => replacement.isNa = true
  | some bytes => Stored replacement bytes

theorem placed_replacedPositions (hgreedy : Greedy [byte] text 0 positions)
    (replaceAll : Bool) :
    PlacedFrom text.length 0 (byteRanges (replacedPositions replaceAll positions)) := by
  have hplaced := placedFrom_byteRanges hgreedy
  cases replaceAll with
  | true => exact hplaced
  | false =>
      cases positions with
      | nil => trivial
      | cons position rest => exact ⟨hplaced.1, hplaced.2.1, hplaced.2.2.1, trivial⟩

/-- Both searches report the same ranges, the shorter one only the first. -/
theorem rangesToReplace_eq (hsubject : Present subject text) (hpattern : Present pattern [byte])
    (hgreedy : Greedy [byte] text 0 positions) (replaceAll : Bool) {matcher : FixedMatcher}
    (hmatcher : Consistent toUpper matcher) :
    ∃ matcher', rangesToReplace toUpper ⟨false, false⟩ replaceAll subject pattern matcher =
      .ok (byteRanges (replacedPositions replaceAll positions), matcher') := by
  have hmatches := @FixedMatcher.matches_of_greedy toUpper _ _ (List.cons_ne_nil byte []) _ hgreedy
  unfold rangesToReplace
  cases replaceAll with
  | true =>
      obtain ⟨matcher', hall, -⟩ := FixedMatcher.findAll_eq hmatcher hsubject hpattern
        (List.cons_ne_nil byte []) hmatches
      refine ⟨matcher', ?_⟩
      rw [if_pos rfl, hall, List.map_map]
      rfl
  | false =>
      obtain ⟨matcher', hfirst, -⟩ := FixedMatcher.findFirst_eq hmatcher hsubject hpattern
        (List.cons_ne_nil byte []) hmatches
      refine ⟨matcher', ?_⟩
      rw [if_neg Bool.false_ne_true, hfirst]
      cases positions <;> rfl

theorem ranges_of_empty {ranges : List ByteRange} (hplaced : PlacedFrom 0 0 ranges) :
    ranges = [] := by
  cases ranges with
  | nil => rfl
  | cons range rest =>
      obtain ⟨hstart, hwidth, hstop, -⟩ := hplaced
      omega

/-- The kernel, with ranges that are in their places. -/
theorem replaceOne_of_ranges {options : FixedSearchOptions} {needle : List UInt8}
    {ranges : List ByteRange} {replaceAll : Bool} {matcher matcher' : FixedMatcher}
    (hsubject : Stored subject text) (hpattern : Present pattern needle) (hne : needle ≠ [])
    {bytes : Option (List UInt8)} (hreplacement : Reads replacement bytes)
    (hplaced : PlacedFrom text.length 0 ranges)
    (hsearch : rangesToReplace toUpper options replaceAll subject pattern matcher =
      .ok (ranges, matcher')) :
    FixedMatcher.answer
        (replaceOne toUpper options replaceAll subject pattern replacement matcher) =
      replacedRecord subject.enc text ranges bytes := by
  unfold replaceOne replacedRecord
  rw [hsubject.present.not_na, hpattern.not_na, hpattern.len_eq, if_neg (by simp [hne]),
    hsubject.present.len_eq, hsearch]
  split
  next hempty =>
    obtain rfl : text = [] := by simpa using hempty
    rw [outputRecord_stored hsubject, if_pos (ranges_of_empty hplaced)]
    rfl
  next =>
    simp only [bind, Except.bind, pure, Except.pure]
    by_cases hnone : ranges = []
    · subst hnone
      rw [outputRecord_stored hsubject]
      rfl
    · rw [if_neg (by simpa using hnone), if_neg hnone]
      cases bytes with
      | none =>
          have hna : replacement.isNa = true := hreplacement
          rw [if_pos hna]
          rfl
      | some bytes =>
          have hstored : Stored replacement bytes := hreplacement
          rw [hstored.present.not_na, if_neg Bool.false_ne_true,
            matchedByteCount_placed hplaced (Nat.zero_le _) hsubject.length_le_sizeMax,
            Nat.zero_add]
          simp only [checkedReplacementSize_placed hsubject hstored hplaced,
            replacementIsAscii_placed hsubject hstored hplaced,
            writeReplacement_placed hsubject hstored hplaced]
          by_cases hsize : (replacedRanges text bytes ranges).length ≤ intMax
          · simp [hsize, FixedMatcher.answer, Except.map]
          · simp [hsize, FixedMatcher.answer, Except.map]

/-- The general replacement of one byte. -/
theorem replaceOne_eq (hsubject : Stored subject text) (hpattern : Present pattern [byte])
    {bytes : Option (List UInt8)} (hreplacement : Reads replacement bytes)
    (hgreedy : Greedy [byte] text 0 positions) (replaceAll : Bool) {matcher : FixedMatcher}
    (hmatcher : Consistent toUpper matcher) :
    FixedMatcher.answer
        (replaceOne toUpper ⟨false, false⟩ replaceAll subject pattern replacement matcher) =
      replacedRecord subject.enc text (byteRanges (replacedPositions replaceAll positions))
        bytes := by
  obtain ⟨matcher', hsearch⟩ :=
    rangesToReplace_eq hsubject.present hpattern hgreedy replaceAll hmatcher
  exact replaceOne_of_ranges hsubject hpattern (List.cons_ne_nil byte []) hreplacement
    (placed_replacedPositions hgreedy replaceAll) hsearch

/-- A buffer a call asks for is filled to its end. -/
def FillsBuffer (call : Except NativeError SinkCall) : Prop :=
  ∀ size encoding written, call = .ok (.reserve size encoding written) → written.length = size

/-- The result is written if it fits, and refused otherwise. -/
theorem reserve_eq {sized : Except NativeError Nat} {written : List UInt8} (ascii : Bool)
    (hsized : sized =
      if written.length ≤ intMax then .ok written.length else .error charsxpLimit) :
    let call : Except NativeError SinkCall := do
      let size ← sized
      return .reserve size (if ascii then .ascii else .utf8) written
    FillsBuffer call ∧ call.map SinkCall.record =
      if written.length ≤ intMax then .ok (some ⟨written, if ascii then .ascii else .utf8⟩)
      else .error charsxpLimit := by
  subst hsized
  split
  next =>
    refine ⟨?_, rfl⟩
    rintro size encoding other heq
    obtain ⟨rfl, -, rfl⟩ := SinkCall.reserve.inj (Except.ok.inj heq)
    rfl
  next => exact ⟨fun _ _ _ heq => absurd heq (by simp [bind, Except.bind]), rfl⟩

theorem fillsBuffer_set (bytes : List UInt8) (encoding : StringEncoding) :
    FillsBuffer (.ok (.set bytes encoding)) := by
  intro _ _ _ heq
  exact absurd heq (by simp)

theorem fillsBuffer_setNa : FillsBuffer (.ok .setNa) := by
  intro _ _ _ heq
  exact absurd heq (by simp)

/-- The bytes of a view, nothing for a missing one. -/
def DirectView.content (view : DirectView) : Option (List UInt8) :=
  if view.missing then none else some view.bytes

/-- Writing replaces the one range. -/
theorem writeFirstByte_eq {position : Nat} (hplaced : PlacedFrom text.length 0
      (byteRanges [position])) (replacement : List UInt8) :
    writeFirstByte text position replacement =
      replacedRanges text replacement (byteRanges [position]) := by
  rw [replacedRanges_eq hplaced, byteRanges_cons]
  simp [writeFirstByte, byteRanges, splice]

variable {state : ReplaceDirectState} {enc : StringEncoding}

/-- The byte is found where the first match is. -/
theorem findFirstByte_eq (hgreedy : Greedy [byte] text 0 positions) :
    findFirstByte text byte = positionOrNotFound positions.head? := by
  have hfinds := memchr_finds text byte 0 (Nat.le_add_left text.length 0)
  simp only [List.drop_zero, Nat.zero_add, Option.map_id_fun', id_eq] at hfinds
  rw [findFirstByte, hgreedy.head_eq hfinds]

/-- The first byte replaced, in a buffer of the size of the result. -/
theorem replaceFirst_eq {replacement : List UInt8} {position : Nat}
    (hlength : text.length ≤ intMax)
    (hplaced : PlacedFrom text.length 0 (byteRanges [position])) :
    let result := replacedRanges text replacement (byteRanges [position])
    writeFirstByte text position replacement = result ∧
      checkedDirectSize text.length replacement.length 1 1 =
        (if result.length ≤ intMax then .ok result.length else .error charsxpLimit) ∧
      (spanIsAscii replacement && spanIsAscii (text.take position) &&
        spanIsAscii (text.drop (position + 1))) = spanIsAscii result := by
  intro result
  have hresult := writeFirstByte_eq hplaced replacement
  have hinside : 1 ≤ text.length := by
    have hstop : ((position + 1 : Nat) : Int) ≤ text.length := hplaced.2.2.1
    omega
  have hsize : result.length = text.length - 1 + 1 * replacement.length := by
    rw [length_replacedRanges hplaced]
    simp [byteRanges, totalWidth, FixedMatcher.toRange]
  refine ⟨hresult, ?_, ?_⟩
  · rw [checkedDirectSize_eq _ hinside hlength, hsize]
  · rw [← show _ = result from hresult, writeFirstByte]
    unfold spanIsAscii
    rw [List.all_append, List.all_append]
    cases List.all replacement (· ≤ 0x7f) <;> simp

/-- Every such byte replaced, in a buffer of the size of the result. -/
theorem replaceAll_eq {replacement : List UInt8} (hlength : text.length ≤ intMax)
    (hgreedy : Greedy [byte] text 0 positions) (hmem : byte ∈ text) :
    let result := replacedRanges text replacement (byteRanges positions)
    writeAllBytes text byte replacement = result ∧
      checkedDirectSize text.length replacement.length (text.count byte) (text.count byte) =
        (if result.length ≤ intMax then .ok result.length else .error charsxpLimit) ∧
      (spanIsAscii replacement && restIsAscii text byte) = spanIsAscii result := by
  intro result
  have hresult : result = substitute text byte replacement := replacedRanges_byteRanges hgreedy
  rw [hresult]
  refine ⟨writeAllBytes_eq text byte replacement, ?_, (spanIsAscii_substitute hmem).symm⟩
  rw [checkedDirectSize_eq _ List.count_le_length hlength, length_substitute]

/-- The end of both branches: a missing replacement makes the record missing, any other
one is written where the ranges are. -/
theorem reserve_or_na_eq {ranges : List ByteRange} {sized : Except NativeError Nat}
    {written : List UInt8} {rest : Bool}
    (hascii : state.replacementAscii =
      (!state.replacement.missing && spanIsAscii state.replacement.bytes))
    (hwritten : written = replacedRanges text state.replacement.bytes ranges)
    (hsized : sized =
      if written.length ≤ intMax then .ok written.length else .error charsxpLimit)
    (hmark : (spanIsAscii state.replacement.bytes && rest) = spanIsAscii written)
    (hranges : ranges ≠ []) :
    let call : Except NativeError SinkCall :=
      if state.replacement.missing then .ok .setNa
      else do
        let size ← sized
        return .reserve size (if state.replacementAscii && rest then .ascii else .utf8) written
    FillsBuffer call ∧ call.map SinkCall.record =
      replacedRecord enc text ranges state.replacement.content := by
  intro call
  unfold replacedRecord DirectView.content
  rw [if_neg hranges]
  cases hmissing : state.replacement.missing with
  | true =>
      simp only [call, hmissing, if_true]
      exact ⟨fillsBuffer_setNa, rfl⟩
  | false =>
      rw [hmissing, Bool.not_false, Bool.true_and] at hascii
      simp only [call, hmissing, Bool.false_eq_true, if_false, hascii, hmark, ← hwritten]
      exact reserve_eq _ hsized

/-- What the kernel does with a text that is not missing. -/
theorem replaceDirectOne_eq {value : StringView}
    (hview : directView value = some ⟨text, false, enc⟩)
    (hascii : state.replacementAscii =
      (!state.replacement.missing && spanIsAscii state.replacement.bytes))
    (hlength : text.length ≤ intMax) (hgreedy : Greedy [state.patternByte] text 0 positions) :
    ∃ call, replaceDirectOne state value = some call ∧ FillsBuffer call ∧
      call.map SinkCall.record = replacedRecord enc text
        (byteRanges (replacedPositions state.replaceAll positions)) state.replacement.content := by
  have hplaced := placed_replacedPositions hgreedy state.replaceAll
  have hunchanged : FillsBuffer (.ok (.set text enc)) ∧
      Except.map SinkCall.record (.ok (.set text enc)) =
        replacedRecord enc text [] state.replacement.content := ⟨fillsBuffer_set _ _, rfl⟩
  unfold replaceDirectOne
  simp only [hview, Bool.false_eq_true, if_false, Option.some.injEq, exists_eq_left']
  split
  next hempty =>
    obtain rfl : text = [] := by simpa using hempty
    rw [ranges_of_empty hplaced]
    exact hunchanged
  next hnonempty =>
    cases hall : state.replaceAll with
    | false =>
        -- the first byte, if there is one
        rw [hall] at hplaced
        simp only [replacedPositions, Bool.not_false, if_true, Bool.false_eq_true, if_false,
          findFirstByte_eq hgreedy] at hplaced ⊢
        cases positions with
        | nil => exact hunchanged
        | cons position rest =>
            obtain ⟨hwritten, hsized, hmark⟩ :=
              @replaceFirst_eq text state.replacement.bytes position hlength hplaced
            have hfound : ¬ positionOrNotFound (position :: rest).head? < 0 :=
              Int.not_lt.mpr (Int.natCast_nonneg position)
            rw [Bool.and_assoc, ← hwritten] at hmark
            rw [← hwritten] at hsized
            rw [if_neg hfound]
            simp only [Bool.and_assoc]
            exact reserve_or_na_eq hascii hwritten hsized hmark (List.cons_ne_nil _ _)
    | true =>
        -- as many bytes as the search has positions
        simp only [replacedPositions, Bool.not_true, Bool.false_eq_true, if_false, if_true,
          scanAllBytes_eq]
        have hcount := hgreedy.length_singleton
        rw [List.drop_zero] at hcount
        cases positions with
        | nil =>
            have hzero : text.count state.patternByte = 0 := hcount.symm
            rw [if_pos hzero]
            exact hunchanged
        | cons position rest =>
            have hmem : state.patternByte ∈ text := by
              apply List.count_pos_iff.mp
              rw [← hcount]
              exact Nat.succ_pos _
            obtain ⟨hwritten, hsized, hmark⟩ :=
              @replaceAll_eq text _ _ state.replacement.bytes hlength hgreedy hmem
            rw [← hwritten] at hsized hmark
            rw [if_neg (Nat.ne_of_gt (List.count_pos_iff.mpr hmem))]
            exact reserve_or_na_eq hascii hwritten hsized hmark (List.cons_ne_nil _ _)

/-- There is no range exactly if the byte does not occur. -/
theorem byteRanges_eq_nil_iff (hgreedy : Greedy [byte] text 0 positions) (replaceAll : Bool) :
    byteRanges (replacedPositions replaceAll positions) = [] ↔ byte ∉ text := by
  have hcount := hgreedy.length_singleton
  rw [List.drop_zero] at hcount
  rw [← List.count_eq_zero, ← hcount]
  cases replaceAll <;> cases positions <;> simp [replacedPositions, byteRanges]

/-- Two marks of the subject give one record, unless nothing is replaced. -/
theorem replacedRecord_eq_iff {other : StringEncoding} {ranges : List ByteRange}
    {replacement : Option (List UInt8)} :
    replacedRecord enc text ranges replacement = replacedRecord other text ranges replacement ↔
      (ranges = [] → resolvedEncoding text enc = resolvedEncoding text other) := by
  unfold replacedRecord
  by_cases hnone : ranges = []
  · simp [hnone]
  · simp [hnone]

theorem replaceDirectEligible_eq_some {subjects outputLength : Nat}
    {options : FixedSearchOptions} {replaceAll : Bool}
    (heligible : replaceDirectEligible subjects outputLength pattern replacement options
      replaceAll = some state) :
    options = ⟨false, false⟩ ∧ state.replaceAll = replaceAll ∧
      (∃ enc, directView pattern = some ⟨[state.patternByte], false, enc⟩) ∧
      directView replacement = some state.replacement ∧
      state.replacementAscii =
        (!state.replacement.missing && spanIsAscii state.replacement.bytes) := by
  unfold replaceDirectEligible at heligible
  split at heligible
  next => exact absurd heligible (by simp)
  next hoptions =>
    simp only [not_or] at hoptions
    have hplain : options = ⟨false, false⟩ := by
      obtain ⟨caseInsensitive, overlap⟩ := options
      simpa using And.intro hoptions.1 hoptions.2.1
    split at heligible
    next => exact absurd heligible (by simp)
    next patternValue hpattern =>
      split at heligible
      next => exact absurd heligible (by simp)
      next hsingle =>
        simp only [not_or, not_not] at hsingle
        obtain ⟨only, honly⟩ := List.length_eq_one_iff.mp hsingle.2
        split at heligible
        next => exact absurd heligible (by simp)
        next replacementValue hreplacement =>
          obtain rfl := Option.some.inj heligible
          refine ⟨hplain, rfl, ⟨patternValue.encoding, ?_⟩, hreplacement, rfl⟩
          rw [hpattern]
          obtain ⟨bytes, missing, encoding⟩ := patternValue
          simp_all

/-- What a kernel reads of a replacement is what the general path reads. -/
theorem reads_of_directView {direct : DirectView} (hdirect : directView source = some direct)
    (hview : Normalizes converter source view) : Reads view direct.content := by
  rcases directView_cases hdirect hview with ⟨hna, rfl⟩ | ⟨bytes, hstored, rfl⟩
  · exact na_of_normalizes hna hview
  · exact hstored.of_normalizes hview

end Kernels

/-! ## Agreement -/

/-- A record that keeps its open mark in the direct kernel only: nothing is replaced in
it, and behind its byte order mark it is ASCII. -/
def MarksDiffer (value pattern : StringView) : Prop :=
  value.enc = .asciiOrUtf8 ∧ hasBom value.bytes = true ∧
    spanIsAscii (value.bytes.drop 3) = true ∧
    ∀ byte ∈ unmarked pattern.enc pattern.bytes, byte ∉ value.bytes.drop 3

/-- When both marks of an unchanged subject are resolved alike. -/
theorem marks_agree_iff {value pattern : StringView} {bytes : List UInt8} {byte : UInt8}
    (hvalue : value.bytes = bytes) (hpattern : unmarked pattern.enc pattern.bytes = [byte]) :
    (byte ∉ unmarked value.enc bytes →
      resolvedEncoding (unmarked value.enc bytes) value.enc =
        resolvedEncoding (unmarked value.enc bytes)
          (if value.enc = .asciiOrUtf8 ∧ hasBom bytes = true then .utf8 else value.enc)) ↔
    ¬ MarksDiffer value pattern := by
  unfold MarksDiffer
  rw [hvalue, hpattern]
  by_cases hmarked : value.enc = .asciiOrUtf8 ∧ hasBom bytes = true
  · have hrest : unmarked value.enc bytes = bytes.drop 3 := by
      rw [unmarked, if_pos ⟨by rw [hmarked.1]; decide, hmarked.2⟩]
    rw [if_pos hmarked, hrest, hmarked.1]
    cases hascii : spanIsAscii (bytes.drop 3) <;> simp [resolvedEncoding, hascii, hmarked.2]
  · rw [if_neg hmarked]
    exact iff_of_true (fun _ => rfl) fun hdiffer => hmarked ⟨hdiffer.1, hdiffer.2.1⟩

/-- The direct kernel fills the buffer it asks for and leaves the record of the general
path, whatever the matcher was used for, unless the marks differ. -/
theorem replaceDirectOne_agrees_iff {toUpper : CodePoint → CodePoint}
    {converter : NativeToUtf8} {subjects outputLength : Nat} {options : FixedSearchOptions}
    {replaceAll : Bool} {value pattern replacement : StringView}
    {subjectView patternView replacementView : StringView} {state : ReplaceDirectState}
    {call : Except NativeError SinkCall}
    (heligible : replaceDirectEligible subjects outputLength pattern replacement options
      replaceAll = some state)
    (haccepted : replaceDirectOne state value = some call)
    (hsubject : Normalizes converter value subjectView)
    (hpattern : Normalizes converter pattern patternView)
    (hreplacement : Normalizes converter replacement replacementView)
    (history : List FixedMatcher.Call) :
    (FillsBuffer call ∧ call.map SinkCall.record =
      FixedMatcher.answer (replaceOne toUpper options replaceAll subjectView patternView
        replacementView (used toUpper history))) ↔
    ¬ MarksDiffer value pattern := by
  obtain ⟨rfl, hall, ⟨enc, hbyte⟩, hdirect, hascii⟩ := replaceDirectEligible_eq_some heligible
  rcases directView_cases hbyte hpattern with ⟨-, habsurd⟩ | ⟨patternBytes, hstoredPattern, hsame⟩
  · exact absurd habsurd (by simp)
  obtain ⟨hpatternBytes, -, -⟩ := DirectView.mk.inj hsame
  have hpresent := hstoredPattern.present_of_normalizes hpattern
  rw [← hpatternBytes] at hpresent
  cases hview : directView value with
  | none => simp [replaceDirectOne, hview] at haccepted
  | some view =>
      -- missing, or stored bytes
      rcases directView_cases hview hsubject with ⟨hna, rfl⟩ | ⟨bytes, hstored, rfl⟩
      · simp only [replaceDirectOne, hview, if_true, Option.some.injEq] at haccepted
        subst haccepted
        have hkind : value.enc = .missing := by simpa [StringView.isNa] using hna
        have hagree : ¬ MarksDiffer value pattern := by
          rintro ⟨henc, -⟩
          exact absurd (hkind.symm.trans henc) (by decide)
        refine iff_of_true ⟨fillsBuffer_setNa, ?_⟩ hagree
        rw [replaceOne, if_pos (.inl (na_of_normalizes hna hsubject))]
        rfl
      -- both replace the same occurrences; only their marks can differ
      · obtain ⟨positions, hgreedy⟩ := Occurrence.exists_sweep
          (List.cons_ne_nil state.patternByte []) (unmarked value.enc bytes)
          (show ∀ position, position < position + [state.patternByte].length from
            fun position => Nat.lt_succ_self position) 0
        have hlength : (unmarked value.enc bytes).length ≤ intMax :=
          (hstored.present_of_normalizes hsubject).length_le
        obtain ⟨other, hother, hfills, hrecord⟩ :=
          replaceDirectOne_eq hview hascii hlength hgreedy
        rw [haccepted] at hother
        obtain rfl := Option.some.inj hother
        rw [and_iff_right hfills, hrecord, replaceOne_eq (hstored.of_normalizes hsubject)
          hpresent (reads_of_directView hdirect hreplacement) hgreedy replaceAll
          (consistent_used toUpper history), hall, replacedRecord_eq_iff,
          byteRanges_eq_nil_iff hgreedy, hstored.enc_of_normalizes hsubject]
        exact marks_agree_iff hstored.present.bytes_eq (by
          rw [hstoredPattern.present.bytes_eq, ← hpatternBytes])

/-- Both "b" of "<BOM>abcb" are replaced by "é", and the record is marked as UTF-8. -/
theorem replaceDirectOne_agrees_marked :
    let value : StringView :=
      ⟨.bytes ⟨100, [0xef, 0xbb, 0xbf, 97, 98, 99, 98], by decide⟩, .asciiOrUtf8⟩
    let subject : StringView := ⟨.bytes ⟨103, [97, 98, 99, 98], by decide⟩, .utf8⟩
    let pattern : StringView := ⟨.bytes ⟨200, [98], by decide⟩, .ascii⟩
    let replacement : StringView := ⟨.bytes ⟨300, [0xc3, 0xa9], by decide⟩, .utf8⟩
    let record : OutputRecord := ⟨[97, 0xc3, 0xa9, 99, 0xc3, 0xa9], .utf8⟩
    ¬ MarksDiffer value pattern ∧ FixedMatcher.answer
        (replaceOne id ⟨false, false⟩ true subject pattern replacement (used id [])) =
      .ok (some record) := by
  intro value subject pattern replacement record
  have hsame : ¬ MarksDiffer value pattern := by
    rintro ⟨-, -, -, hfree⟩
    exact hfree 98 (by decide) (by decide)
  have heligible : replaceDirectEligible 1 1 pattern replacement ⟨false, false⟩ true =
      some ⟨⟨[0xc3, 0xa9], false, .utf8⟩, 98, false, true⟩ := rfl
  have haccepted : replaceDirectOne ⟨⟨[0xc3, 0xa9], false, .utf8⟩, 98, false, true⟩ value =
      some (.ok (.reserve 6 .utf8 [97, 0xc3, 0xa9, 99, 0xc3, 0xa9])) := by
    decide
  have hsubject : Normalizes sampleConverter value subject := ⟨⟨0⟩, ⟨0⟩, rfl⟩
  have hpattern : Normalizes sampleConverter pattern pattern := ⟨⟨0⟩, ⟨0⟩, rfl⟩
  have hreplacement : Normalizes sampleConverter replacement replacement := ⟨⟨0⟩, ⟨0⟩, rfl⟩
  exact ⟨hsame, ((replaceDirectOne_agrees_iff heligible haccepted hsubject hpattern hreplacement
    []).mpr hsame).2.symm⟩

/-- "<BOM>abc" without an "x": the direct kernel marks "abc" as ASCII, the general path
as UTF-8. -/
theorem replaceDirectOne_marks_unreplaced :
    let value : StringView :=
      ⟨.bytes ⟨100, [0xef, 0xbb, 0xbf, 97, 98, 99], by decide⟩, .asciiOrUtf8⟩
    let subject : StringView := ⟨.bytes ⟨103, [97, 98, 99], by decide⟩, .utf8⟩
    let pattern : StringView := ⟨.bytes ⟨200, [120], by decide⟩, .ascii⟩
    let replacement : StringView := ⟨.bytes ⟨300, [121], by decide⟩, .ascii⟩
    Normalizes sampleConverter value subject ∧ Normalizes sampleConverter pattern pattern ∧
    Normalizes sampleConverter replacement replacement ∧
    ∃ state, replaceDirectEligible 1 1 pattern replacement ⟨false, false⟩ true = some state ∧
      (replaceDirectOne state value).map (Except.map SinkCall.record) =
        some (.ok (some ⟨[97, 98, 99], .ascii⟩)) ∧
      FixedMatcher.answer
        (replaceOne id ⟨false, false⟩ true subject pattern replacement (used id [])) =
          .ok (some ⟨[97, 98, 99], .utf8⟩) :=
  ⟨⟨⟨0⟩, ⟨0⟩, rfl⟩, ⟨⟨0⟩, ⟨0⟩, rfl⟩, ⟨⟨0⟩, ⟨0⟩, rfl⟩, _, rfl, rfl, rfl⟩

end Charr.FixedSearch
