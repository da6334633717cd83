import Charr.FixedSearch.ReplacementLaws
import Charr.Library.Runs
import Charr.Text.CodePoints

/-!
# Where the characters of a class stand

`find_character_class_ranges` reads a string once and notes the bytes of the code points
that belong to a set, neighbours as one range or each as its own. The ranges go to the
replacement writer, which wants them behind each other and not empty.
-/

namespace Charr.CharacterClass

open Utf8 FixedSearch

/-! ## The search -/

/-- A range of bytes whose code points are in the class. -/
abbrev CharacterClassRange := ByteRange

/-- The error of a subject that is not UTF-8. -/
def invalidBytes : NativeError :=
  .runtimeError "invalid UTF-8 byte sequence detected; try calling ci_enc_toutf8()"

/-- A matching code point: the last range grows if it ends in front of it. -/
def pushRange (merge : Bool) (output : List CharacterClassRange) (start stop : Nat) :
    List CharacterClassRange :=
  match output.getLast? with
  | none => [⟨start, stop⟩]
  | some last =>
      if merge && last.stop = start then output.dropLast ++ [{ last with stop := stop }]
      else output ++ [⟨start, stop⟩]

/-- The ranges from `cursor` on, merged with the one before where they touch. -/
def findLoop (pattern : CodePoint → Bool) (merge : Bool) (text : List UInt8)
    (cursor matchedBytes : Nat) (output : List CharacterClassRange) :
    Except NativeError (Nat × List CharacterClassRange) :=
  if cursor < text.length then
    let step := next text cursor
    if step.1 < 0 then .error invalidBytes
    else if !pattern step.1 then findLoop pattern merge text step.2 matchedBytes output
    else
      let width := step.2 - cursor
      if width > sizeMax - matchedBytes then
        .error (.lengthError "character class matched byte count overflow")
      else
        findLoop pattern merge text step.2 (matchedBytes + width)
          (pushRange merge output cursor step.2)
  else .ok (matchedBytes, output)
termination_by text.length - cursor
decreasing_by
  all_goals
    have hforward : cursor < (next text cursor).2 := by
      rw [next_snd]
      exact lt_fwd1 text cursor
    omega

/-- The ranges of a subject and the bytes they hold, with the view checked first. -/
def findCharacterClassRanges (input : StringView) (pattern : CodePoint → Bool) (merge : Bool) :
    Except NativeError (Nat × List CharacterClassRange) :=
  if input.isNa then
    .error (.invalidArgument "character class search requires non-missing input")
  else if input.len < 0 then
    .error (.invalidArgument "character class search input has negative length")
  else if input.isNull then
    .error (.invalidArgument "character class search input data is null")
  else if !normalizedEncoding input.enc then
    .error (.invalidArgument "character class search requires normalized UTF-8 input")
  else if input.len = 0 then .ok (0, [])
  else findLoop pattern merge input.bytes 0 0 []

/-! ## Places of code points -/

section Places

variable (text : List UInt8)

/-- The code point with this number, if it is one and there are that many. -/
def codePointAt (number : Nat) : CodePoint :=
  ((tokens text)[number]?.map Token.codePoint).getD sentinel

/-- What a step at the start of a code point reads. -/
theorem next_offset {number : Nat} (hnumber : number < codePointCount text) :
    next text (offset text number) = (codePointAt text number, offset text (number + 1)) := by
  have hdrop := tokens_drop_offset text number
  have hcons := List.drop_eq_getElem_cons hnumber
  rw [hcons] at hdrop
  ext
  · rw [next_of_tokens_drop hdrop, codePointAt, List.getElem?_eq_getElem hnumber]
    rfl
  · rw [next_snd]
    exact (fwd1_offset text hnumber).1

/-- Whether the code point with this number belongs to the set. -/
def matchesAt (pattern : CodePoint → Bool) (number : Nat) : Bool :=
  decide (number < codePointCount text) && pattern (codePointAt text number)

/-- The bytes of the code points from one number up to another. -/
def byteRange (run : Nat × Nat) : CharacterClassRange :=
  ⟨offset text run.1, offset text run.2⟩

/-- The code points found among the first `count`, in runs or one by one. -/
def found (pattern : CodePoint → Bool) (merge : Bool) (count : Nat) : List (Nat × Nat) :=
  if merge then Runs.collect (matchesAt text pattern) count
  else Runs.singles (matchesAt text pattern) count

end Places

section Found

variable {text : List UInt8} {pattern : CodePoint → Bool} {merge : Bool} {number count : Nat}

/-- One more code point in the class extends the runs. -/
theorem found_succ_of_matches (hmatches : matchesAt text pattern number = true) :
    found text pattern merge (number + 1) =
      if merge then Runs.push (found text pattern merge number) number
      else found text pattern merge number ++ [(number, number + 1)] := by
  unfold found
  cases merge with
  | true => simp [Runs.collect, hmatches]
  | false => simp [Runs.singles, hmatches]

/-- One more code point outside the class leaves them. -/
theorem found_succ_of_not (hmatches : ¬ matchesAt text pattern number = true) :
    found text pattern merge (number + 1) = found text pattern merge number := by
  unfold found
  cases merge with
  | true => simp [Runs.collect, hmatches]
  | false => simp [Runs.singles, hmatches]

/-- What is found ends no later than the search has come. -/
theorem found_bounds {run : Nat × Nat} (hrun : run ∈ found text pattern merge count) :
    run.1 < run.2 ∧ run.2 ≤ count := by
  unfold found at hrun
  cases merge with
  | true =>
      have hcovers : Runs.Covers (fun index => index < count ∧ matchesAt text pattern index)
          (Runs.collect (matchesAt text pattern) count) := Runs.covers_collect count
      have hlt := hcovers.nonempty run hrun
      have hlast := (hcovers.holds_iff (run.2 - 1)).mpr ⟨run, hrun, by omega, by omega⟩
      omega
  | false =>
      rw [if_neg Bool.false_ne_true, Runs.singles_eq] at hrun
      obtain ⟨index, hindex, rfl⟩ := List.mem_map.mp hrun
      have hlt := List.mem_range.mp (List.mem_filter.mp hindex).1
      exact ⟨Nat.lt_succ_self _, hlt⟩

theorem byteRange_lt {run : Nat × Nat} (hlt : run.1 < run.2)
    (hle : run.2 ≤ codePointCount text) :
    (byteRange text run).start < (byteRange text run).stop := by
  exact Int.ofNat_lt.mpr (offset_lt_offset text hlt hle)

/-- Growing the last range is growing the last run. -/
theorem pushRange_map {runs : List (Nat × Nat)} (hnumber : number < codePointCount text)
    (hends : ∀ run ∈ runs, run.2 ≤ number) :
    pushRange merge (runs.map (byteRange text)) (offset text number) (offset text (number + 1)) =
      (if merge then Runs.push runs number
        else runs ++ [(number, number + 1)]).map (byteRange text) := by
  unfold pushRange Runs.push
  rcases List.eq_nil_or_concat' runs with rfl | ⟨front, last, rfl⟩
  · cases merge <;> rfl
  · have hlast : ((byteRange text last).stop = (offset text number : Nat)) ↔ last.2 = number := by
      constructor
      · intro heq
        by_contra hne
        have hless := hends last (by simp)
        have hoffset := offset_lt_offset text (show last.2 < number by omega) hnumber.le
        have heq' : offset text last.2 = offset text number := Int.ofNat_inj.mp heq
        omega
      · rintro rfl
        rfl
    rw [List.map_append, List.map_singleton, List.getLast?_concat, List.dropLast_concat]
    simp only [hlast, List.getLast?_concat, List.dropLast_concat]
    cases merge with
    | false => simp [byteRange]
    | true =>
        by_cases hnext : last.2 = number
        · simp [hnext, byteRange]
        · simp [hnext, byteRange]

theorem totalWidth_append (first second : List ByteRange) :
    totalWidth (first ++ second) = totalWidth first + totalWidth second := by
  rw [totalWidth, List.map_append, List.sum_append]
  rfl

/-- A range that grows and a range of its own add the same bytes. -/
theorem totalWidth_pushRange {output : List CharacterClassRange} {start stop : Nat}
    (hvalid : ∀ range ∈ output, range.start ≤ range.stop) (hle : start ≤ stop) :
    totalWidth (pushRange merge output start stop) = totalWidth output + (stop - start) := by
  have hsingle : totalWidth [⟨start, stop⟩] = stop - start := by
    simp [totalWidth]
  unfold pushRange
  rcases List.eq_nil_or_concat' output with rfl | ⟨front, last, rfl⟩
  · simp [totalWidth]
  · have hlast := hvalid last (by simp)
    rw [List.getLast?_concat, List.dropLast_concat]
    simp only [Bool.and_eq_true, decide_eq_true_eq]
    split
    next hgrow =>
      rw [totalWidth_append, totalWidth_append, Nat.add_assoc]
      congr 1
      simp [totalWidth]
      omega
    next => rw [totalWidth_append, hsingle]

theorem valid_found (hcount : count ≤ codePointCount text) :
    ∀ range ∈ (found text pattern merge count).map (byteRange text), range.start ≤ range.stop := by
  intro range hrange
  obtain ⟨run, hrun, rfl⟩ := List.mem_map.mp hrange
  obtain ⟨hlt, hle⟩ := found_bounds hrun
  exact (byteRange_lt hlt (hle.trans hcount)).le

/-- The ranges after one more code point. -/
theorem pushRange_found (hnumber : number < codePointCount text)
    (hmatches : matchesAt text pattern number = true) :
    pushRange merge ((found text pattern merge number).map (byteRange text))
        (offset text number) (offset text (number + 1)) =
      (found text pattern merge (number + 1)).map (byteRange text) := by
  rw [found_succ_of_matches hmatches]
  exact pushRange_map hnumber fun run hrun => (found_bounds hrun).2

/-- The runs cover no more than the text they were found in. -/
theorem totalWidth_found_le (hcount : count ≤ codePointCount text) :
    totalWidth ((found text pattern merge count).map (byteRange text)) ≤ offset text count := by
  induction count with
  | zero => cases merge <;> exact Nat.le_refl 0
  | succ count ih =>
      have hle := offset_mono text (Nat.le_add_right count 1)
      by_cases hmatches : matchesAt text pattern count = true
      · rw [← pushRange_found hcount hmatches, totalWidth_pushRange (valid_found (by omega)) hle]
        have hbefore := ih (by omega)
        omega
      · rw [found_succ_of_not hmatches]
        exact (ih (by omega)).trans hle

/-! ## The loop -/

/-- A code point that was read is not negative. -/
theorem codePointAt_nonneg (hcomplete : codePointAt text number ≠ sentinel) :
    0 ≤ codePointAt text number := by
  unfold codePointAt at hcomplete ⊢
  cases htoken : (tokens text)[number]? with
  | none =>
      rw [htoken] at hcomplete
      exact absurd rfl hcomplete
  | some token =>
      rw [htoken] at hcomplete
      exact codePoint_nonneg (tokens_of_mem (List.mem_of_getElem? htoken)) hcomplete

/-- The counter of matched bytes never comes near its limit. -/
theorem width_fits (hlength : text.length ≤ intMax) {matchedBytes : Nat}
    (hmatched : matchedBytes ≤ offset text number) :
    ¬ offset text (number + 1) - offset text number > sizeMax - matchedBytes := by
  have hstart := offset_le text number
  have hstop := offset_le text (number + 1)
  unfold intMax at hlength
  unfold sizeMax
  omega

/-- Over code points the loop finds what there is to find. -/
theorem findLoop_codePoints (hlength : text.length ≤ intMax) {remaining : Nat}
    (hcount : number + remaining = codePointCount text)
    (hcodes : ∀ index, number ≤ index → index < codePointCount text →
      codePointAt text index ≠ sentinel) :
    findLoop pattern merge text (offset text number)
        (totalWidth ((found text pattern merge number).map (byteRange text)))
        ((found text pattern merge number).map (byteRange text)) =
      .ok (totalWidth ((found text pattern merge (codePointCount text)).map (byteRange text)),
        (found text pattern merge (codePointCount text)).map (byteRange text)) := by
  induction remaining generalizing number with
  | zero =>
      obtain rfl : number = codePointCount text := hcount
      rw [findLoop, if_neg (by simp)]
  | succ remaining ih =>
      have hnumber : number < codePointCount text := by omega
      have hcursor : offset text number < text.length := by
        rw [← offset_codePointCount text]
        exact offset_lt_offset text hnumber le_rfl
      have hcomplete := codePointAt_nonneg (hcodes number le_rfl hnumber)
      have hrest := ih (show number + 1 + remaining = codePointCount text by omega)
        fun index hlow => hcodes index (by omega)
      rw [findLoop, if_pos hcursor, next_offset text hnumber]
      simp only [Int.not_lt.mpr hcomplete, if_false]
      by_cases hmatches : matchesAt text pattern number = true
      · have hpattern : pattern (codePointAt text number) = true := by
          simpa [matchesAt, hnumber] using hmatches
        simp only [hpattern, Bool.not_true, Bool.false_eq_true, if_false]
        rw [if_neg (width_fits hlength (totalWidth_found_le hnumber.le)),
          pushRange_found hnumber hmatches, ← hrest, ← pushRange_found hnumber hmatches,
          totalWidth_pushRange (valid_found hnumber.le)
            (offset_mono text (Nat.le_add_right number 1))]
      · have hpattern : pattern (codePointAt text number) = false := by
          simpa [matchesAt, hnumber] using hmatches
        simp only [hpattern, Bool.not_false, if_true]
        rw [← hrest, found_succ_of_not hmatches]

/-- A sequence that is not well-formed ends the loop, whatever was found before. -/
theorem findLoop_sentinel (hlength : text.length ≤ intMax) {remaining matchedBytes : Nat}
    (hcount : number + remaining = codePointCount text)
    (hill : ∃ index, number ≤ index ∧ index < codePointCount text ∧
      codePointAt text index = sentinel)
    (hmatched : matchedBytes ≤ offset text number) (output : List CharacterClassRange) :
    findLoop pattern merge text (offset text number) matchedBytes output =
      .error invalidBytes := by
  induction remaining generalizing number matchedBytes output with
  | zero =>
      obtain ⟨index, hlow, hhigh, -⟩ := hill
      omega
  | succ remaining ih =>
      have hnumber : number < codePointCount text := by omega
      have hcursor : offset text number < text.length := by
        rw [← offset_codePointCount text]
        exact offset_lt_offset text hnumber le_rfl
      have hle := offset_mono text (Nat.le_add_right number 1)
      rw [findLoop, if_pos hcursor, next_offset text hnumber]
      by_cases hcomplete : codePointAt text number = sentinel
      · rw [hcomplete]
        rfl
      · have hlater : ∃ index, number + 1 ≤ index ∧ index < codePointCount text ∧
            codePointAt text index = sentinel := by
          obtain ⟨index, hlow, hhigh, hindex⟩ := hill
          refine ⟨index, ?_, hhigh, hindex⟩
          obtain rfl | hless := hlow.eq_or_lt
          · exact absurd hindex hcomplete
          · exact hless
        simp only [Int.not_lt.mpr (codePointAt_nonneg hcomplete), if_false]
        split
        next =>
          apply ih (by omega) hlater
          exact hmatched.trans hle
        next =>
          rw [if_neg (width_fits hlength hmatched)]
          apply ih (by omega) hlater
          omega

/-- A text is well formed if no code point of it reads as the sentinel. -/
theorem wellFormed_iff_codePoints :
    WellFormed text ↔ ∀ index < codePointCount text, codePointAt text index ≠ sentinel := by
  have hat : ∀ {index : Nat} (hindex : index < codePointCount text),
      codePointAt text index = ((tokens text).get ⟨index, hindex⟩).codePoint := by
    intro index hindex
    rw [codePointAt, List.getElem?_eq_getElem hindex]
    rfl
  constructor
  · intro hwell index hindex
    rw [hat hindex]
    exact (hwell.areCodePoints _ (List.getElem_mem hindex)).2
  · intro hcodes
    rw [← tokenBytes_tokens text]
    apply wellFormed_tokenBytes
    intro token htoken
    refine ⟨tokens_of_mem htoken, ?_⟩
    obtain ⟨⟨index, hindex⟩, rfl⟩ := List.mem_iff_get.mp htoken
    rw [← hat hindex]
    exact hcodes index hindex

/-- On a well-formed string the search gives the ranges of the matching code points. -/
theorem findLoop_wellFormed (hlength : text.length ≤ intMax) (hwell : WellFormed text) :
    findLoop pattern merge text 0 0 [] =
      .ok (totalWidth ((found text pattern merge (codePointCount text)).map (byteRange text)),
        (found text pattern merge (codePointCount text)).map (byteRange text)) := by
  have hloop := @findLoop_codePoints text pattern merge 0 hlength _
    (Nat.zero_add (codePointCount text)) fun index _ => wellFormed_iff_codePoints.mp hwell index
  cases merge <;> exact hloop

/-- An ill-formed text is refused, wherever it is ill-formed. -/
theorem findLoop_illFormed (hlength : text.length ≤ intMax) (hill : ¬ WellFormed text) :
    findLoop pattern merge text 0 0 [] = .error invalidBytes := by
  rw [wellFormed_iff_codePoints] at hill
  simp only [not_forall, not_not] at hill
  obtain ⟨index, hindex, hsentinel⟩ := hill
  exact findLoop_sentinel hlength (Nat.zero_add (codePointCount text))
    ⟨index, Nat.zero_le _, hindex, hsentinel⟩ (Nat.zero_le _) []

/-! ## The ranges -/

/-- Merging changes the ranges but not what they cover. -/
theorem totalWidth_found_merge (hcount : count ≤ codePointCount text) :
    totalWidth ((found text pattern true count).map (byteRange text)) =
      totalWidth ((found text pattern false count).map (byteRange text)) := by
  induction count with
  | zero => rfl
  | succ count ih =>
      have hle := offset_mono text (Nat.le_add_right count 1)
      have hbefore := ih (by omega)
      by_cases hmatches : matchesAt text pattern count = true
      · rw [← pushRange_found hcount hmatches, ← pushRange_found hcount hmatches,
          totalWidth_pushRange (valid_found (by omega)) hle,
          totalWidth_pushRange (valid_found (by omega)) hle, hbefore]
      · rw [found_succ_of_not hmatches, found_succ_of_not hmatches, hbefore]

/-- The runs found stand behind each other. -/
theorem found_ordered : (found text pattern merge count).Pairwise fun first second =>
    first.2 ≤ second.1 := by
  unfold found
  cases merge with
  | true => exact (Runs.covers_collect count).separated.imp Nat.le_of_lt
  | false =>
      rw [if_neg Bool.false_ne_true, Runs.singles_eq, List.pairwise_map]
      exact (List.pairwise_lt_range.filter _).imp fun hlt => hlt

theorem placedFrom_map {runs : List (Nat × Nat)}
    (hordered : runs.Pairwise fun first second => first.2 ≤ second.1)
    (hbounds : ∀ run ∈ runs, run.1 < run.2 ∧ run.2 ≤ codePointCount text) {previous : Nat}
    (hprevious : ∀ run ∈ runs, previous ≤ offset text run.1) :
    PlacedFrom text.length previous (runs.map (byteRange text)) := by
  induction runs generalizing previous with
  | nil => trivial
  | cons run runs ih =>
      obtain ⟨hlater, hothers⟩ := List.pairwise_cons.mp hordered
      obtain ⟨hlt, hle⟩ := hbounds run List.mem_cons_self
      refine ⟨?_, byteRange_lt hlt hle, ?_, ?_⟩
      · exact Int.ofNat_le.mpr (hprevious run List.mem_cons_self)
      · exact Int.ofNat_le.mpr (offset_le text run.2)
      · apply ih hothers fun other hother => hbounds other (List.mem_cons_of_mem _ hother)
        intro other hother
        exact offset_mono text (hlater other hother)

/-- The ranges are in order, apart, and inside the text. -/
theorem placedFrom_found (hcount : count ≤ codePointCount text) :
    PlacedFrom text.length 0 ((found text pattern merge count).map (byteRange text)) := by
  apply placedFrom_map found_ordered
  · intro run hrun
    obtain ⟨hlt, hle⟩ := found_bounds hrun
    exact ⟨hlt, hle.trans hcount⟩
  · exact fun run _ => Nat.zero_le _

/-- A byte between two code points lies in one of those from the one up to the other. -/
theorem exists_codePoint_of_byte {first last byte : Nat} (hfirst : offset text first ≤ byte)
    (hlast : byte < offset text last) :
    ∃ number, first ≤ number ∧ number < last ∧ offset text number ≤ byte ∧
      byte < offset text (number + 1) := by
  induction last with
  | zero => exact absurd hlast (Nat.not_lt_zero _)
  | succ last ih =>
      by_cases hbefore : byte < offset text last
      · obtain ⟨number, hlow, hhigh, hbyte⟩ := ih hbefore
        exact ⟨number, hlow, Nat.lt_succ_of_lt hhigh, hbyte⟩
      · refine ⟨last, ?_, Nat.lt_succ_self _, Nat.not_lt.mp hbefore, hlast⟩
        by_contra hless
        have hmono := offset_mono text (show last + 1 ≤ first by omega)
        omega

/-- Some range of the list holds the byte. -/
def Holds (ranges : List CharacterClassRange) (byte : Nat) : Prop :=
  ∃ range ∈ ranges, range.start ≤ byte ∧ byte < range.stop

/-- In runs or one by one, the ranges hold the bytes of the matching code points. -/
theorem holds_found_iff (byte : Nat) :
    Holds ((found text pattern merge (codePointCount text)).map (byteRange text)) byte ↔
      ∃ number, matchesAt text pattern number = true ∧ offset text number ≤ byte ∧
        byte < offset text (number + 1) := by
  have hlt : ∀ {number : Nat}, matchesAt text pattern number = true →
      number < codePointCount text := by
    intro number hmatches
    exact of_decide_eq_true (Bool.and_eq_true_iff.mp hmatches).1
  unfold Holds
  constructor
  · rintro ⟨range, hrange, hstart, hstop⟩
    obtain ⟨run, hrun, rfl⟩ := List.mem_map.mp hrange
    obtain ⟨number, hlow, hhigh, hbyte⟩ :=
      exists_codePoint_of_byte (Int.ofNat_le.mp hstart) (Int.ofNat_lt.mp hstop)
    refine ⟨number, ?_, hbyte⟩
    cases merge with
    | true =>
        exact (((Runs.covers_collect _).holds_iff number).mpr ⟨run, hrun, hlow, hhigh⟩).2
    | false =>
        rw [found, if_neg Bool.false_ne_true, Runs.singles_eq] at hrun
        obtain ⟨index, hindex, rfl⟩ := List.mem_map.mp hrun
        obtain rfl : number = index := by
          dsimp only at hlow hhigh
          omega
        exact (List.mem_filter.mp hindex).2
  · rintro ⟨number, hmatches, hstart, hstop⟩
    have hrun : ∃ run ∈ found text pattern merge (codePointCount text),
        run.1 ≤ number ∧ number < run.2 := by
      cases merge with
      | true => exact ((Runs.covers_collect _).holds_iff number).mp ⟨hlt hmatches, hmatches⟩
      | false =>
          rw [found, if_neg Bool.false_ne_true, Runs.singles_eq]
          refine ⟨(number, number + 1), List.mem_map_of_mem ?_, le_rfl, Nat.lt_succ_self _⟩
          exact List.mem_filter.mpr ⟨List.mem_range.mpr (hlt hmatches), hmatches⟩
    obtain ⟨run, hmem, hlow, hhigh⟩ := hrun
    refine ⟨byteRange text run, List.mem_map_of_mem hmem, ?_, ?_⟩
    · exact Int.ofNat_le.mpr ((offset_mono text hlow).trans hstart)
    · exact Int.ofNat_lt.mpr (hstop.trans_le (offset_mono text hhigh))

end Found

/-! ## The whole function -/

section Views

variable {input : StringView} {text : List UInt8}

/-- The checks of the view pass for a stored text. -/
theorem findCharacterClassRanges_eq (hinput : Stored input text) (pattern : CodePoint → Bool)
    (merge : Bool) :
    findCharacterClassRanges input pattern merge = findLoop pattern merge text 0 0 [] := by
  have hencoding : normalizedEncoding input.enc = true := hinput.encoding
  unfold findCharacterClassRanges
  rw [hinput.present.not_na, hinput.present.not_null, hinput.present.len_eq,
    hinput.present.bytes_eq, hencoding]
  by_cases hempty : text = []
  · rw [hempty, findLoop]
    rfl
  · have hnonneg : ¬ (text.length : Int) < 0 := Int.not_lt.mpr (Int.natCast_nonneg _)
    simp [hnonneg, hempty]

/-- Ranges in their places are sized and written, if the result fits a string. -/
theorem replacement_of_placed (hinput : Stored input text) {ranges : List CharacterClassRange}
    (hplaced : PlacedFrom text.length 0 ranges) {replacement : StringView}
    {replacementBytes : List UInt8} (hreplacement : Stored replacement replacementBytes) :
    checkedReplacementSize input (totalWidth ranges) ranges replacement = .error charsxpLimit ∨
      ∃ size, checkedReplacementSize input (totalWidth ranges) ranges replacement = .ok size ∧
        ∀ output, ∃ written,
          writeReplacement input ranges replacement (some output) size.1 = .ok written ∧
            written.1 = replacedRanges text replacementBytes ranges := by
  rw [checkedReplacementSize_placed hinput hreplacement hplaced]
  by_cases hsize : (replacedRanges text replacementBytes ranges).length ≤ intMax
  · right
    rw [dif_pos hsize]
    refine ⟨_, rfl, fun output => ?_⟩
    rw [writeReplacement_placed hinput hreplacement hplaced]
    exact ⟨⟨_, rfl⟩, by simp [hsize], rfl⟩
  · left
    rw [dif_neg hsize]

/-- What is found in a string: `matchedBytes` bytes, merged in ranges or one range for each
code point. -/
structure Finding (input : StringView) (text : List UInt8) (pattern : CodePoint → Bool)
    (matchedBytes : Nat) (merged single : List CharacterClassRange) : Prop where
  /-- The merged ranges are the maximal runs of matching code points. -/
  maximal : ∃ runs : List (Nat × Nat), merged = runs.map (byteRange text) ∧
    runs.Pairwise (fun first second => first.2 < second.1) ∧
    ∀ run, run ∈ runs ↔ Runs.IsRun (fun number => matchesAt text pattern number) run
  single_eq : single = ((List.range (codePointCount text)).filter (matchesAt text pattern)).map
    fun number => byteRange text (number, number + 1)
  same : ∀ byte, Holds merged byte ↔ Holds single byte
  merged_bytes : matchedBytes = totalWidth merged
  single_bytes : matchedBytes = totalWidth single
  merged_placed : PlacedFrom text.length 0 merged
  single_placed : PlacedFrom text.length 0 single
  /-- Nothing but the size of the result stops the replacement of either. -/
  replaces : ∀ ranges ∈ [merged, single], ∀ (replacement : StringView)
    (replacementBytes : List UInt8), Stored replacement replacementBytes →
    checkedReplacementSize input matchedBytes ranges replacement = .error charsxpLimit ∨
      ∃ size, checkedReplacementSize input matchedBytes ranges replacement = .ok size ∧
        ∀ output, ∃ written,
          writeReplacement input ranges replacement (some output) size.1 = .ok written ∧
            written.1 = replacedRanges text replacementBytes ranges

/-- All ranges of the matching code points, in one of the modes. -/
def foundRanges (text : List UInt8) (pattern : CodePoint → Bool) (merge : Bool) :
    List CharacterClassRange :=
  (found text pattern merge (codePointCount text)).map (byteRange text)

/-- The runs and the single ranges are what the search is to find. -/
theorem finding_foundRanges (hinput : Stored input text) (pattern : CodePoint → Bool) :
    Finding input text pattern (totalWidth (foundRanges text pattern true))
      (foundRanges text pattern true) (foundRanges text pattern false) := by
  have hbytes : totalWidth (foundRanges text pattern true) =
      totalWidth (foundRanges text pattern false) := totalWidth_found_merge le_rfl
  have hplaced : ∀ merge, PlacedFrom text.length 0 (foundRanges text pattern merge) :=
    fun merge => placedFrom_found le_rfl
  have hcovers : Runs.Covers (fun number => matchesAt text pattern number)
      (found text pattern true (codePointCount text)) := by
    have hall := @Runs.covers_collect (matchesAt text pattern) (codePointCount text)
    have hiff : ∀ number, (number < codePointCount text ∧ matchesAt text pattern number) ↔
        matchesAt text pattern number := by
      intro number
      simp only [matchesAt, Bool.and_eq_true, decide_eq_true_eq]
      exact and_iff_right_of_imp And.left
    rw [funext fun number => propext (hiff number)] at hall
    exact hall
  refine ⟨⟨_, rfl, hcovers.separated, hcovers.mem_iff⟩, ?_, ?_, rfl, hbytes, hplaced true,
    hplaced false, ?_⟩
  · rw [foundRanges, found, if_neg Bool.false_ne_true, Runs.singles_eq, List.map_map]
    rfl
  · intro byte
    exact (holds_found_iff byte).trans (holds_found_iff byte).symm
  · intro ranges hranges replacement replacementBytes hreplacement
    rcases List.mem_pair.mp hranges with rfl | rfl
    · exact replacement_of_placed hinput (hplaced true) hreplacement
    · rw [hbytes]
      exact replacement_of_placed hinput (hplaced false) hreplacement

/-- The search fails on exactly the strings that are not well-formed, and finds the same code
points in both modes. -/
theorem findCharacterClassRanges_finds (hinput : Stored input text)
    (pattern : CodePoint → Bool) :
    (∀ merge, (∃ error, findCharacterClassRanges input pattern merge = .error error) ↔
      ¬ WellFormed text) ∧
    (WellFormed text → ∃ matchedBytes merged single,
      findCharacterClassRanges input pattern true = .ok (matchedBytes, merged) ∧
      findCharacterClassRanges input pattern false = .ok (matchedBytes, single) ∧
      Finding input text pattern matchedBytes merged single) := by
  have hlength := hinput.present.length_le
  constructor
  · intro merge
    rw [findCharacterClassRanges_eq hinput]
    constructor
    · rintro ⟨error, herror⟩ hwell
      rw [findLoop_wellFormed hlength hwell] at herror
      cases herror
    · intro hill
      exact ⟨_, findLoop_illFormed hlength hill⟩
  · intro hwell
    have hfinding := finding_foundRanges hinput pattern
    refine ⟨_, _, _, ?_, ?_, hfinding⟩
    · rw [findCharacterClassRanges_eq hinput]
      exact findLoop_wellFormed hlength hwell
    · rw [findCharacterClassRanges_eq hinput, hfinding.single_bytes]
      exact findLoop_wellFormed hlength hwell

/-- The vowels of "aéb" and the bytes of a cut sequence. -/
theorem findCharacterClassRanges_finds_vowels :
    let input : StringView := ⟨.bytes ⟨100, [97, 0xc3, 0xa9, 98], by decide⟩, .utf8⟩
    let cut : StringView := ⟨.bytes ⟨200, [97, 0xc3], by decide⟩, .utf8⟩
    let vowel : CodePoint → Bool := fun codePoint => codePoint = 97 ∨ codePoint = 233
    (∃ matchedBytes merged single,
      findCharacterClassRanges input vowel true = .ok (matchedBytes, merged) ∧
      findCharacterClassRanges input vowel false = .ok (matchedBytes, single) ∧
      Finding input [97, 0xc3, 0xa9, 98] vowel matchedBytes merged single) ∧
    ((∃ error, findCharacterClassRanges cut vowel true = .error error) ↔
      ¬ WellFormed [97, 0xc3]) := by
  intro input cut vowel
  have hinput : Stored input [97, 0xc3, 0xa9, 98] := ⟨⟨rfl, _, rfl, rfl⟩, rfl⟩
  have hcut : Stored cut [97, 0xc3] := ⟨⟨rfl, _, rfl, rfl⟩, rfl⟩
  refine ⟨(findCharacterClassRanges_finds hinput vowel).2 ?_,
    (findCharacterClassRanges_finds hcut vowel).1 true⟩
  exact ⟨[[97], [0xc3, 0xa9], [98]], rfl, by decide⟩

end Views

end Charr.CharacterClass
