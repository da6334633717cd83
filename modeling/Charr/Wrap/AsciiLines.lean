import Charr.Wrap.Cuts
import Charr.Wrap.Flatten

/-!
# ASCII records on one line

A short ASCII record is measured in one pass, without its words. The words would have come
to the same: their widths add up to that of the record, and only the last one loses its
white space.
-/

namespace Charr.Wrap

open Utf8 Width

/-! ## Bytes -/

section Bytes

variable (useLength : Bool)

/-- How much an ASCII byte adds to a line. -/
def byteColumns (byte : UInt8) : Nat :=
  if useLength then 1 else (asciiCharWidth byte.toNat).toNat

/-- The size of ASCII text in the measure in use. -/
def columns (bytes : List UInt8) : Nat := (bytes.map (byteColumns useLength)).sum

/-- White space, as ICU has it. -/
def blank (byte : UInt8) : Bool := whitespace (byte.toNat : Int)

/-- The bytes that the Unicode property for line breaks holds of. -/
def newline (byte : UInt8) : Bool := 0x0a ≤ byte ∧ byte ≤ 0x0d

/-- Without the white space at the end, if there is one. -/
def trimLast (bytes : List UInt8) : List UInt8 :=
  if bytes.getLast?.any blank then bytes.dropLast else bytes

/-- Sizes add up. -/
theorem columns_append (front rest : List UInt8) :
    columns useLength (front ++ rest) = columns useLength front + columns useLength rest := by
  simp [columns]

theorem columns_singleton (byte : UInt8) :
    columns useLength [byte] = byteColumns useLength byte := by
  simp [columns]

theorem byteColumns_le (byte : UInt8) : byteColumns useLength byte ≤ 1 := by
  unfold byteColumns asciiCharWidth
  split
  next => exact le_rfl
  next => split <;> decide

/-- No byte is wider than one. -/
theorem columns_le_length (bytes : List UInt8) : columns useLength bytes ≤ bytes.length := by
  induction bytes with
  | nil => exact le_rfl
  | cons byte rest ih =>
      have hbyte := byteColumns_le useLength byte
      rw [columns, List.map_cons, List.sum_cons, List.length_cons]
      rw [columns] at ih
      omega

theorem trimLast_concat (bytes : List UInt8) (byte : UInt8) :
    trimLast (bytes ++ [byte]) = if blank byte then bytes else bytes ++ [byte] := by
  simp [trimLast]

/-- Trimming touches the last byte only. -/
theorem trimLast_append (front : List UInt8) {rest : List UInt8} (hne : rest ≠ []) :
    trimLast (front ++ rest) = front ++ trimLast rest := by
  rw [← List.dropLast_append_getLast hne, ← List.append_assoc, trimLast_concat, trimLast_concat]
  split
  next => rfl
  next => rw [List.append_assoc]

theorem columns_trimLast_le (bytes : List UInt8) :
    columns useLength (trimLast bytes) ≤ columns useLength bytes := by
  rcases List.eq_nil_or_concat bytes with rfl | ⟨front, byte, rfl⟩
  · exact le_rfl
  · rw [List.concat_eq_append, trimLast_concat]
    split
    next =>
      rw [columns_append]
      exact Nat.le_add_right _ _
    next => exact le_rfl

end Bytes

/-- Among ASCII code points the width of one does not depend on the one before. -/
theorem widthCharWithContext_ascii (properties : Properties) {byte : UInt8} (hbyte : byte < 0x80)
    {previous : Int} (hprevious : 0 ≤ previous ∧ previous < 0x80) (reset : Bool) :
    widthCharWithContext properties (byte.toNat : Int) previous reset =
      ((byteColumns false byte : Int), false) := by
  have hsmall : byte.toNat < 0x80 := hbyte
  have hrange : (byte.toNat : Int) ≥ 0 ∧ (byte.toNat : Int) ≤ 0x7f := by omega
  have hjoiner : (if reset then 0 else previous) ≠ 0x200d := by
    split <;> omega
  have hregional : regionalIndicator (if reset then 0 else previous) = false := by
    have hbefore : ¬ ((0x1f1e6 : Int) ≤ (if reset then 0 else previous) ∧
        (if reset then 0 else previous) ≤ (0x1f1ff : Int)) := by
      split <;> omega
    exact decide_eq_false hbefore
  have hwidth : widthChar properties (byte.toNat : Int) = (byteColumns false byte : Int) := by
    rw [widthChar, if_pos hrange, byteColumns]
    unfold asciiCharWidth
    simp only [Bool.false_eq_true, if_false, Int.toNat_natCast]
    split <;> rfl
  unfold widthCharWithContext
  rw [hwidth]
  simp [hjoiner, hregional]

/-- Line breaks among the ASCII bytes. -/
theorem linebreak_ascii {byte : UInt8} (hbyte : byte < 0x80) :
    linebreak (byte.toNat : Int) = newline byte := by
  have hall : ∀ value : Nat, value < 0x80 →
      linebreak (value : Int) = decide (0x0a ≤ value ∧ value ≤ 0x0d) := by
    decide
  exact hall byte.toNat hbyte

/-! ## One pass over the record -/

section Record

variable {Cost : Type} (icu : Icu) (options : Options Cost)

/-- What the scan knows of the bytes it has read. -/
structure AsciiScan.Reads (scan : AsciiScan) (useLength : Bool) (done : List UInt8) : Prop where
  measured : scan.measured = columns useLength done
  trimmed : scan.measured - (if scan.lastWhitespace then scan.lastWidth else 0) =
    columns useLength (trimLast done)
  stop : done.length - (if scan.lastWhitespace then 1 else 0) = (trimLast done).length
  current : (0 : Int) ≤ scan.current ∧ scan.current < (0x80 : Int)

/-- A byte that is no newline goes on with the scan. -/
theorem asciiLoop_cons {byte : UInt8} (hbyte : byte < 0x80) (hnewline : newline byte = false)
    (rest : List UInt8) {scan : AsciiScan} {done : List UInt8}
    (hscan : scan.Reads options.useLength done) :
    ∃ scan' : AsciiScan, scan'.Reads options.useLength (done ++ [byte]) ∧
      asciiLoop icu options (byte :: rest) scan = asciiLoop icu options rest scan' := by
  have hcolumns : ∃ reset, (if options.useLength then ((1 : Int), scan.reset)
      else widthCharWithContext icu.properties (byte.toNat : Int) scan.current scan.reset) =
        ((byteColumns options.useLength byte : Int), reset) := by
    cases options.useLength with
    | true => exact ⟨scan.reset, rfl⟩
    | false => exact ⟨false, widthCharWithContext_ascii icu.properties hbyte hscan.current _⟩
  obtain ⟨reset, hcolumns⟩ := hcolumns
  have hhigh : ¬ byte ≥ 0x80 := UInt8.not_le.mpr hbyte
  have hbreak : ¬ (0x0a ≤ byte ∧ byte ≤ 0x0d) := of_decide_eq_false hnewline
  have hsmall : byte.toNat < 0x80 := hbyte
  refine ⟨⟨scan.measured + byteColumns options.useLength byte, byteColumns options.useLength byte,
    blank byte, byte.toNat, reset⟩, ⟨?_, ?_, ?_, ?_⟩, ?_⟩
  · rw [hscan.measured, columns_append, columns_singleton]
    rfl
  · rw [trimLast_concat, hscan.measured]
    cases blank byte with
    | true => simp
    | false => simp [columns_append, columns_singleton]
  · rw [trimLast_concat]
    cases blank byte <;> simp
  · exact ⟨Int.natCast_nonneg _, Int.ofNat_lt.mpr hsmall⟩
  · rw [asciiLoop, if_neg hhigh, if_neg hbreak]
    simp only [hcolumns]
    rfl

/-- A newline is an error. -/
theorem asciiLoop_newline {byte : UInt8} (hbyte : byte < 0x80) (hnewline : newline byte = true)
    (rest : List UInt8) (scan : AsciiScan) :
    asciiLoop icu options (byte :: rest) scan = .error newlineFound := by
  rw [asciiLoop, if_neg (UInt8.not_le.mpr hbyte), if_pos (of_decide_eq_true hnewline)]

/-- The scan reads the whole record, or finds its newline. -/
theorem asciiLoop_ascii {bytes : List UInt8} (hascii : ∀ byte ∈ bytes, byte < 0x80)
    {scan : AsciiScan} {done : List UInt8} (hscan : scan.Reads options.useLength done) :
    (bytes.any newline = true → asciiLoop icu options bytes scan = .error newlineFound) ∧
    (bytes.any newline = false → ∃ scan', asciiLoop icu options bytes scan = .ok (some scan') ∧
      scan'.Reads options.useLength (done ++ bytes)) := by
  induction bytes generalizing scan done with
  | nil =>
      refine ⟨by simp, fun _ => ⟨scan, rfl, ?_⟩⟩
      rw [List.append_nil]
      exact hscan
  | cons byte rest ih =>
      have hbyte := hascii byte List.mem_cons_self
      rw [List.any_cons]
      cases hnewline : newline byte with
      | true =>
          refine ⟨fun _ => asciiLoop_newline icu options hbyte hnewline rest scan, ?_⟩
          intro hnone
          exact absurd hnone (by simp)
      | false =>
          obtain ⟨scan', hscan', hloop⟩ := asciiLoop_cons icu options hbyte hnewline rest hscan
          have hrest := ih (fun later hlater => hascii later (List.mem_cons_of_mem _ hlater)) hscan'
          rw [List.append_assoc] at hrest
          rw [hloop, Bool.false_or]
          exact hrest

/-- The shortcut measures the record without its last white space. -/
theorem asciiFits_ascii {record : Record} (hne : record.data ≠ [])
    (hascii : ∀ byte ∈ record.data, byte < 0x80) (firstWidth : Int) :
    asciiFits icu options record firstWidth =
      if record.data.any newline then .error newlineFound
      else if firstWidth + columns options.useLength (trimLast record.data) ≤ options.width then
        .ok (some (trimLast record.data).length)
      else .ok none := by
  have hstart : AsciiScan.Reads ⟨0, 0, false, 0, true⟩ options.useLength [] :=
    ⟨rfl, rfl, rfl, le_rfl, by decide⟩
  have hnonempty : ¬ record.data.length ≤ 0 := by
    rw [Nat.le_zero, List.length_eq_zero_iff]
    exact hne
  obtain ⟨hfails, hreads⟩ := asciiLoop_ascii icu options hascii hstart
  rw [asciiFits, if_neg hnonempty]
  cases hany : record.data.any newline with
  | true =>
      rw [hfails hany]
      rfl
  | false =>
      obtain ⟨scan, hloop, hscan⟩ := hreads hany
      rw [List.nil_append] at hscan
      rw [hloop]
      simp only [bind, Except.bind, hscan.trimmed, hscan.stop, Bool.false_eq_true, if_false]
      split <;> rfl

/-- Only ASCII records take the shortcut. -/
theorem ascii_of_asciiLoop {bytes : List UInt8} {scan scan' : AsciiScan}
    (hloop : asciiLoop icu options bytes scan = .ok (some scan')) :
    ∀ byte ∈ bytes, byte < 0x80 := by
  induction bytes generalizing scan with
  | nil => simp
  | cons byte rest ih =>
      rw [asciiLoop] at hloop
      split at hloop
      next => exact absurd hloop (by simp)
      next hlow =>
        split at hloop
        next => exact absurd hloop (by simp)
        next => exact List.forall_mem_cons.mpr ⟨UInt8.not_le.mp hlow, ih hloop⟩

/-- A record that fits is ASCII, and ends without its last blank. -/
theorem asciiFits_some {record : Record} {firstWidth : Int} {stop : Nat}
    (hfits : asciiFits icu options record firstWidth = .ok (some stop)) :
    record.data ≠ [] ∧ (∀ byte ∈ record.data, byte < 0x80) ∧
      stop = (trimLast record.data).length := by
  have hne : record.data ≠ [] := by
    intro hempty
    rw [asciiFits, if_pos (by rw [hempty]; exact le_rfl)] at hfits
    exact absurd hfits (by simp)
  have hascii : ∀ byte ∈ record.data, byte < 0x80 := by
    unfold asciiFits at hfits
    split at hfits
    next => exact absurd hfits (by simp)
    next =>
      cases hloop : asciiLoop icu options record.data ⟨0, 0, false, 0, true⟩ with
      | error error =>
          rw [hloop] at hfits
          exact absurd hfits (by simp [bind, Except.bind])
      | ok scan =>
          cases scan with
          | none =>
              rw [hloop] at hfits
              exact absurd hfits (by simp [bind, Except.bind, pure, Except.pure])
          | some scan => exact ascii_of_asciiLoop icu options hloop
  refine ⟨hne, hascii, ?_⟩
  rw [asciiFits_ascii icu options hne hascii] at hfits
  split at hfits
  next => exact absurd hfits (by simp)
  next =>
    split at hfits
    next => exact (Option.some_inj.mp (Except.ok.inj hfits)).symm
    next => exact absurd hfits (by simp)

end Record

/-! ## Word by word -/

section Words

variable {Cost : Type} (icu : Icu) (options : Options Cost)

/-- The word of some ASCII bytes from `start` to `stop`. -/
def asciiWord (useLength : Bool) (start stop : Nat) (bytes : List UInt8) : Word where
  endOrig := stop
  endTrim := start + (trimLast bytes).length
  widthOrig := .ofNat (columns useLength bytes)
  widthTrim := .ofNat (columns useLength (trimLast bytes))

/-- What the scan knows of the bytes of the word it has read. -/
structure WordScan.Reads (scan : WordScan) (start : Nat) (done : List UInt8) : Prop where
  width : scan.widthOrig = .ofNat (columns false done)
  widthTrimmed : scan.widthOrig - scan.widthTrim = .ofNat (columns false (trimLast done))
  count : scan.countOrig = .ofNat (columns true done)
  countTrimmed : scan.countOrig - scan.countTrim = .ofNat (columns true (trimLast done))
  stop : scan.endTrim = start + (trimLast done).length
  current : (0 : Int) ≤ scan.current ∧ scan.current < (0x80 : Int)

theorem ofInt_natCast (value : Nat) : UInt32.ofInt (value : Int) = .ofNat value := by
  apply UInt32.toNat_inj.mp
  rw [UInt32.ofInt, UInt32.toNat_ofNat', UInt32.toNat_ofNat']
  omega

theorem ofNat_columns_concat (useLength : Bool) (done : List UInt8) (byte : UInt8) :
    UInt32.ofNat (columns useLength (done ++ [byte])) =
      .ofNat (columns useLength done) + .ofNat (byteColumns useLength byte) := by
  rw [columns_append, columns_singleton, UInt32.ofNat_add]

/-- What a byte adds is taken away again if it is white space. -/
theorem ofNat_columns_trimLast (useLength : Bool) (done : List UInt8) (byte : UInt8) :
    UInt32.ofNat (columns useLength done) + .ofNat (byteColumns useLength byte) -
        (if blank byte then .ofNat (byteColumns useLength byte) else 0) =
      .ofNat (columns useLength (trimLast (done ++ [byte]))) := by
  rw [trimLast_concat]
  cases blank byte with
  | true => exact UInt32.add_sub_cancel _ _
  | false =>
      simp only [Bool.false_eq_true, if_false, UInt32.sub_zero]
      exact (ofNat_columns_concat useLength done byte).symm

/-- A byte goes on with the word. -/
theorem WordScan.Reads.take {byte : UInt8} (hbyte : byte < 0x80) {scan : WordScan} {start : Nat}
    {done : List UInt8} (hscan : scan.Reads start done) :
    (scan.take icu (byte.toNat : Int) (start + done.length) (start + done.length + 1)).Reads start
      (done ++ [byte]) := by
  have hsmall : byte.toNat < 0x80 := hbyte
  have hwidth := fun reset =>
    widthCharWithContext_ascii icu.properties hbyte hscan.current reset
  have hblank : whitespace (byte.toNat : Int) = blank byte := rfl
  unfold WordScan.take
  simp only [hwidth, hblank, hscan.width, hscan.count, ofInt_natCast]
  refine ⟨?_, ?_, ?_, ?_, ?_, ?_⟩
  · exact (ofNat_columns_concat false done byte).symm
  · exact ofNat_columns_trimLast false done byte
  · exact (ofNat_columns_concat true done byte).symm
  · exact ofNat_columns_trimLast true done byte
  · rw [trimLast_concat]
    cases blank byte with
    | true => rfl
    | false => simp [Nat.add_assoc]
  · exact ⟨Int.natCast_nonneg _, Int.ofNat_lt.mpr hsmall⟩

theorem wordLoop_done {text : List UInt8} (fuel : Nat) {cursor : Nat}
    (hcursor : text.length ≤ cursor) (scan : WordScan) :
    wordLoop icu text fuel cursor scan = .ok scan := by
  cases fuel with
  | zero => rfl
  | succ fuel => rw [wordLoop_succ, if_neg (Nat.not_lt.mpr hcursor)]

/-- The word is measured, or its newline is found. -/
theorem wordLoop_ascii {text rest : List UInt8} (hascii : ∀ byte ∈ rest, byte < 0x80)
    {start fuel cursor : Nat} {done : List UInt8} (hfuel : rest.length ≤ fuel)
    (hcursor : cursor = start + done.length) (hrest : text.drop cursor = rest) {scan : WordScan}
    (hscan : scan.Reads start done) :
    (rest.any newline = true → wordLoop icu text fuel cursor scan = .error newlineFound) ∧
    (rest.any newline = false → ∃ scan', wordLoop icu text fuel cursor scan = .ok scan' ∧
      scan'.Reads start (done ++ rest)) := by
  induction rest generalizing fuel cursor done scan with
  | nil =>
      refine ⟨by simp, fun _ => ⟨scan, ?_, ?_⟩⟩
      · exact wordLoop_done icu fuel (List.drop_eq_nil_iff.mp hrest) scan
      · rw [List.append_nil]
        exact hscan
  | cons byte rest ih =>
      have hbyte := hascii byte List.mem_cons_self
      obtain ⟨fuel, rfl⟩ := Nat.exists_eq_succ_of_ne_zero (Nat.ne_zero_of_lt hfuel)
      have hlt : cursor < text.length := by
        apply Nat.not_le.mp
        intro hle
        rw [List.drop_eq_nil_iff.mpr hle] at hrest
        exact absurd hrest (by simp)
      rw [List.drop_eq_getElem_cons hlt, List.cons.injEq] at hrest
      obtain ⟨hget, hbehind⟩ := hrest
      have hread : byteAt text cursor = byte.toNat := by
        rw [byteAt, List.getD_eq_getElem?_getD, List.getElem?_eq_getElem hlt, hget]
        rfl
      have hnext : next text cursor = ((byte.toNat : Int), cursor + 1) := by
        rw [next_of_single (by rw [hread]; exact hbyte), hread]
      have hnonneg : ¬ ((byte.toNat : Int) < 0) := Int.not_lt.mpr (Int.natCast_nonneg _)
      rw [wordLoop_succ, if_pos hlt, hnext, if_neg hnonneg, linebreak_ascii hbyte, List.any_cons]
      cases hnewline : newline byte with
      | true =>
          refine ⟨fun _ => rfl, ?_⟩
          intro hnone
          exact absurd hnone (by simp)
      | false =>
          subst hcursor
          have hlater := ih (fun later hlater => hascii later (List.mem_cons_of_mem _ hlater))
            (Nat.le_of_succ_le_succ hfuel) (by simp [Nat.add_assoc]) hbehind (hscan.take icu hbyte)
          rw [List.append_assoc] at hlater
          exact hlater

/-- An ASCII word between two boundaries. -/
theorem addWord_ascii {data : List UInt8} (hascii : ∀ byte ∈ data, byte < 0x80)
    (start stop : Nat) :
    addWord icu options data start stop =
      if (slice data start stop).any newline then .error newlineFound
      else .ok (asciiWord options.useLength start stop (slice data start stop)) := by
  have hdrop : (data.take stop).drop start = slice data start stop := List.drop_take
  have hlength : (slice data start stop).length ≤ stop - start := List.length_take_le _ _
  have hinside : ∀ byte ∈ slice data start stop, byte < 0x80 :=
    fun byte hbyte => hascii byte (List.mem_of_mem_drop (List.mem_of_mem_take hbyte))
  have hstart : WordScan.Reads ⟨0, 0, 0, 0, start, 0, true⟩ start [] :=
    ⟨rfl, UInt32.sub_zero 0, rfl, UInt32.sub_zero 0, rfl, le_rfl, (by decide : (0 : Int) < 0x80)⟩
  obtain ⟨hfails, hreads⟩ := wordLoop_ascii icu hinside hlength (Nat.add_zero start).symm hdrop
    hstart
  rw [addWord_eq]
  cases hany : (slice data start stop).any newline with
  | true =>
      rw [hfails hany]
      rfl
  | false =>
      obtain ⟨scan, hloop, hscan⟩ := hreads hany
      rw [List.nil_append] at hscan
      rw [hloop]
      have hdone : scan.word options stop =
          asciiWord options.useLength start stop (slice data start stop) := by
        unfold WordScan.word asciiWord
        rw [← hscan.stop]
        cases options.useLength with
        | true =>
            rw [← hscan.count, ← hscan.countTrimmed]
            rfl
        | false =>
            rw [← hscan.width, ← hscan.widthTrimmed]
            rfl
      rw [← hdone]
      rfl

/-- The words between the cuts. -/
def asciiWords (useLength : Bool) (data : List UInt8) : (start : Nat) → List Nat → List Word
  | _, [] => []
  | start, stop :: rest =>
      asciiWord useLength start stop (slice data start stop) :: asciiWords useLength data stop rest

/-- ASCII words between any boundaries. -/
theorem addWords_ascii {data : List UInt8} (hascii : ∀ byte ∈ data, byte < 0x80) {start : Nat}
    {cuts : List Nat} (hcuts : Cuts data.length start cuts) :
    addWords icu options data start cuts =
      if (data.drop start).any newline then .error newlineFound
      else .ok (asciiWords options.useLength data start cuts) := by
  induction cuts generalizing start with
  | nil =>
      obtain rfl : start = data.length := hcuts
      rw [List.drop_length]
      rfl
  | cons stop rest ih =>
      obtain ⟨hlt, -, hrest⟩ := hcuts
      rw [addWords, addWord_ascii icu options hascii, ih hrest, drop_eq_slice_append hlt.le,
        List.any_append]
      cases (slice data start stop).any newline with
      | true => rfl
      | false =>
          cases (data.drop stop).any newline with
          | true => rfl
          | false => rfl

end Words

/-! ## All words on one line -/

section Fitting

variable (useLength : Bool)

/-- One word fits if its trimmed width does. -/
theorem fitsOneLine_singleton (widths : LineWidths) {word : Word}
    (hword : word.widthTrim ≤ word.widthOrig) :
    fitsOneLine widths [word] = decide (widths.first + word.widthTrim.toNat ≤ widths.width) := by
  have hle : word.widthTrim.toNat ≤ word.widthOrig.toNat := hword
  rw [fitsOneLine, List.getLast?_singleton]
  simp only [List.foldl_cons, List.foldl_nil]
  apply decide_eq_decide.mpr
  rw [UInt32.toNat_sub_of_le _ _ hword]
  omega

/-- A word in front takes its full width. -/
theorem fitsOneLine_cons (widths : LineWidths) (word : Word) {rest : List Word}
    (hrest : rest ≠ []) :
    fitsOneLine widths (word :: rest) =
      fitsOneLine { widths with first := widths.first + word.widthOrig.toNat } rest := by
  have hlast : (word :: rest).getLast? = some (rest.getLast hrest) := by
    rw [List.getLast?_eq_some_getLast (List.cons_ne_nil _ _), List.getLast_cons hrest]
  rw [fitsOneLine, fitsOneLine, hlast, List.getLast?_eq_some_getLast hrest, List.foldl_cons]

/-- No record is long enough for its width to overflow. -/
theorem toNat_columns {bytes : List UInt8} (hlength : bytes.length ≤ intMax) :
    (UInt32.ofNat (columns useLength bytes)).toNat = columns useLength bytes := by
  apply UInt32.toNat_ofNat_of_lt'
  have hcolumns := columns_le_length useLength bytes
  have hmax : intMax < 2 ^ 32 := by decide
  exact (hcolumns.trans hlength).trans_lt hmax

/-- Words before the last keep their white space. -/
theorem fitsOneLine_asciiWords {data : List UInt8} (hlength : data.length ≤ intMax) {start : Nat}
    {cuts : List Nat} (hcuts : Cuts data.length start cuts) (hstart : start < data.length)
    (widths : LineWidths) :
    fitsOneLine widths (asciiWords useLength data start cuts) =
      decide (widths.first + columns useLength (trimLast (data.drop start)) ≤ widths.width) := by
  induction cuts generalizing start widths with
  | nil => exact absurd hcuts hstart.ne
  | cons stop rest ih =>
      obtain ⟨hlt, -, hrest⟩ := hcuts
      have hcolumns := toNat_columns useLength
        ((length_slice_le data start stop).trans hlength)
      cases rest with
      | nil =>
          obtain rfl : stop = data.length := hrest
          rw [slice_to_length] at hcolumns
          have htrimmed := columns_trimLast_le useLength (data.drop start)
          have htoNat : (UInt32.ofNat (columns useLength (trimLast (data.drop start)))).toNat =
              columns useLength (trimLast (data.drop start)) := by
            apply UInt32.toNat_ofNat_of_lt'
            rw [← hcolumns] at htrimmed
            exact htrimmed.trans_lt (UInt32.toNat_lt _)
          rw [asciiWords, asciiWords, slice_to_length, fitsOneLine_singleton]
          · rw [asciiWord, htoNat]
          · apply UInt32.le_iff_toNat_le.mpr
            rw [asciiWord, hcolumns, htoNat]
            exact htrimmed
      | cons cut later =>
          have hne : asciiWords useLength data stop (cut :: later) ≠ [] := List.cons_ne_nil _ _
          have hbehind : stop < data.length := hrest.1.trans_le hrest.2.1
          have hdrop : data.drop stop ≠ [] := by
            rw [Ne, List.drop_eq_nil_iff]
            exact Nat.not_le.mpr hbehind
          rw [asciiWords, fitsOneLine_cons _ _ hne, ih hrest hbehind, drop_eq_slice_append hlt.le,
            trimLast_append _ hdrop, columns_append]
          apply decide_eq_decide.mpr
          rw [asciiWord, hcolumns, Int.natCast_add, Int.add_assoc]

/-- The last word ends where the record does without its last white space. -/
theorem getLast?_asciiWords {data : List UInt8} {start : Nat} {cuts : List Nat}
    (hcuts : Cuts data.length start cuts) (hstart : start < data.length) :
    (asciiWords useLength data start cuts).getLast?.map Word.endTrim =
      some (start + (trimLast (data.drop start)).length) := by
  induction cuts generalizing start with
  | nil => exact absurd hcuts hstart.ne
  | cons stop rest ih =>
      obtain ⟨hlt, -, hrest⟩ := hcuts
      cases rest with
      | nil =>
          obtain rfl : stop = data.length := hrest
          rw [asciiWords, asciiWords, slice_to_length]
          rfl
      | cons cut later =>
          have hbehind : stop < data.length := hrest.1.trans_le hrest.2.1
          have hdrop : data.drop stop ≠ [] := by
            rw [Ne, List.drop_eq_nil_iff]
            exact Nat.not_le.mpr hbehind
          have hslice : (slice data start stop).length = stop - start := by
            rw [slice, List.length_take_of_le]
            rw [List.length_drop]
            omega
          have hlast := ih hrest hbehind
          rw [asciiWords] at hlast ⊢
          rw [asciiWords, List.getLast?_cons_cons, hlast, drop_eq_slice_append hlt.le,
            trimLast_append _ hdrop, List.length_append, hslice]
          congr 1
          omega

end Fitting

/-- The shortcut takes an ASCII record onto one line exactly if its words fit on one, and
up to the same byte; and it finds a line break exactly if they do. -/
theorem asciiFits_agrees_with_words {Cost : Type} (icu : Icu) (options : Options Cost)
    {record : Record} (hne : record.data ≠ []) (hascii : ∀ byte ∈ record.data, byte < 0x80)
    (hlength : record.data.length ≤ intMax) {ends : List Nat}
    (hends : Boundaries record.data ends) (firstWidth laterWidth : Int) :
    (∀ error, asciiFits icu options record firstWidth = .error error ↔
      cutWords icu options record.data 0 ends = .error error) ∧
    (∀ error, cutWords icu options record.data 0 ends = .error error → error = newlineFound) ∧
    ∀ words, cutWords icu options record.data 0 ends = .ok words →
      ((∃ stop, asciiFits icu options record firstWidth = .ok (some stop)) ↔
        fitsOneLine ⟨options.width, firstWidth, laterWidth⟩ words = true) ∧
      ∀ stop, asciiFits icu options record firstWidth = .ok (some stop) →
        lineRange words [] 0 = some (0, stop) ∧
        ∀ first later, Plan.line ⟨record, .direct stop⟩ first later 0 =
          Plan.line ⟨record, .broken words []⟩ first later 0 := by
  have hcuts := hends.cuts options
  have hpos : 0 < record.data.length := List.length_pos_iff.mpr hne
  have hfits := asciiFits_ascii icu options hne hascii firstWidth
  have hwords := addWords_ascii icu options hascii hcuts
  rw [← cutWords_eq, List.drop_zero] at hwords
  rw [hfits, hwords]
  -- a line break is an error on both sides
  cases hany : record.data.any newline with
  | true =>
      refine ⟨by simp, fun error herror => (Except.error.inj herror).symm, ?_⟩
      intro words hok
      exact absurd hok (by simp)
  | false =>
      have hfitting := fitsOneLine_asciiWords options.useLength hlength hcuts hpos
        ⟨options.width, firstWidth, laterWidth⟩
      have hlast := getLast?_asciiWords options.useLength hcuts hpos
      rw [List.drop_zero] at hfitting hlast
      rw [Nat.zero_add] at hlast
      simp only [Bool.false_eq_true, if_false]
      refine ⟨?_, by simp, ?_⟩
      · intro error
        split <;> simp
      · intro words hok
        obtain rfl := Except.ok.inj hok
        rw [hfitting, decide_eq_true_eq]
        split
        next hroom =>
          refine ⟨⟨fun _ => hroom, fun _ => ⟨_, rfl⟩⟩, ?_⟩
          intro stop hstop
          obtain rfl := Option.some.inj (Except.ok.inj hstop)
          have hrange : lineRange (asciiWords options.useLength record.data 0
              (wordEnds options record.data ends)) [] 0 =
              some (0, (trimLast record.data).length) := by
            rw [lineRange, hlast]
            rfl
          refine ⟨hrange, ?_⟩
          intro first later
          simp only [Plan.line, Plan.lineCount, hrange, List.length_nil, Nat.zero_add]
          rfl
        next hlong => exact ⟨by simp [hlong], by simp⟩

/-- `ab cd ` fits in five columns behind nothing; its last blank is not counted. -/
theorem asciiFits_agrees_with_two_words :
    let record : Record := ⟨[0x61, 0x62, 0x20, 0x63, 0x64, 0x20], true⟩
    let options : Options Int := ⟨5, 2, true, false, false⟩
    cutWords asciiIcu options record.data 0 [3, 6] = .ok [⟨3, 2, 3, 2⟩, ⟨6, 5, 3, 2⟩] ∧
      asciiFits asciiIcu options record 0 = .ok (some 5) ∧
      lineRange [⟨3, 2, 3, 2⟩, ⟨6, 5, 3, 2⟩] [] 0 = some (0, 5) := by
  intro record options
  have hwords : cutWords asciiIcu options record.data 0 [3, 6] =
      .ok [⟨3, 2, 3, 2⟩, ⟨6, 5, 3, 2⟩] := by decide
  have hends : Boundaries record.data [3, 6] := ⟨by decide, by decide, fun _ => by decide⟩
  have hagrees := (asciiFits_agrees_with_words asciiIcu options (by decide : record.data ≠ [])
    (by simp [record]) (by decide) hends 0 0).2.2 _ hwords
  have hfits : asciiFits asciiIcu options record 0 = .ok (some 5) := by decide
  exact ⟨hwords, hfits, (hagrees.2 5 hfits).1⟩

end Charr.Wrap
