import Charr.Wrap.AsciiLines
import Charr.Wrap.Breaks

/-!
# The lines of a planned record

A line is what it starts with and a part of the record. The parts follow each other, with
at most one white space left out behind each.
-/

namespace Charr.Wrap

open Utf8

/-! ## Lines in memory -/

/-- A line before it is written; its body lies in the record. -/
structure LineParts where
  start : List UInt8
  begin : Nat
  bodySize : Nat
  size : Nat
  ascii : Bool
  deriving DecidableEq, Repr

/-- The number of bytes of all lines, and whether they are ASCII. -/
structure Joined where
  size : Nat
  ascii : Bool
  deriving DecidableEq, Repr

namespace Plan

variable (plan : Plan) (first later : LineStart)

/-- The line between two positions, and its size. -/
def partsOf (start : LineStart) (classifyAscii : Bool) (begin stop : Nat) :
    Except Fault LineParts :=
  let bodySize := toSize ((stop : Int) - begin)
  match checkedSum start.bytes.length bodySize with
  | .error error => .error (.thrown error)
  | .ok size =>
      let bodyAscii := classifyAscii &&
        (plan.record.ascii || isAscii (slice plan.record.data begin stop))
      .ok ⟨start.bytes, begin, bodySize, size, classifyAscii && start.ascii && bodyAscii⟩

/-- The parts of a line. A record without words is one line, and stands alone. -/
def parts (classifyAscii : Bool) (index : Nat) : Except Fault LineParts :=
  if index ≥ plan.lineCount then
    .error (.thrown (.outOfRange "wrapped line index is out of range"))
  else
    let start := if index = 0 then first else later
    match plan.layout with
    | .passthrough =>
        .ok ⟨[], 0, plan.record.data.length, plan.record.data.length,
          classifyAscii && plan.record.ascii⟩
    | .direct stop => plan.partsOf start classifyAscii 0 stop
    | .broken words wrapAfter =>
        match lineRange words wrapAfter index with
        | none => .error .outOfBounds
        | some (begin, stop) => plan.partsOf start classifyAscii begin stop

/-- The lines from `index` on, when those before come to `size` bytes. -/
def joinedLoop (classifyAscii : Bool) :
    (count index size : Nat) → (ascii : Bool) → Except Fault Joined
  | 0, _, size, ascii => .ok ⟨size, ascii⟩
  | count + 1, index, size, ascii => do
      let current ← plan.parts first later classifyAscii index
      match checkedSum size current.size with
      | .error error => .error (.thrown error)
      | .ok size => joinedLoop classifyAscii count (index + 1) size (ascii && current.ascii)

/-- The size of all lines with newlines between them, and whether they are ASCII. -/
def joined (classifyAscii : Bool) : Except Fault Joined :=
  if plan.lineCount = 0 then .error (.thrown (.logicError "wrapped record has not been planned"))
  else plan.joinedLoop first later classifyAscii plan.lineCount 0 (plan.lineCount - 1) true

end Plan

/-- `memcpy` into a buffer; a write may not leave it. -/
def store (destination : List UInt8) (position : Nat) (bytes : List UInt8) :
    Except Fault (List UInt8) :=
  if position + bytes.length ≤ destination.length then
    .ok (destination.take position ++ bytes ++ destination.drop (position + bytes.length))
  else .error .outOfBounds

/-- The bytes `memcpy` reads from a record. -/
def load (data : List UInt8) (begin size : Nat) : Except Fault (List UInt8) :=
  if begin + size ≤ data.length then .ok ((data.drop begin).take size) else .error .outOfBounds

namespace Plan

variable (plan : Plan) (first later : LineStart)

/-- Write what a line begins with, then its body. -/
def writeLine (line : LineParts) (destination : List UInt8) (position : Nat) :
    Except Fault (List UInt8) := do
  let destination ←
    if 0 < line.start.length then store destination position line.start else .ok destination
  if 0 < line.bodySize then do
    let body ← load plan.record.data line.begin line.bodySize
    store destination (position + line.start.length) body
  else .ok destination

/-- The lines from `index` on are written at `position`. -/
def writeLoop : (count index position : Nat) → (destination : List UInt8) →
    Except Fault (List UInt8)
  | 0, _, _, destination => .ok destination
  | count + 1, index, position, destination => do
      let (destination, position) ←
        if 0 < index then do
          let destination ← store destination position [0x0a]
          .ok (destination, position + 1)
        else .ok (destination, position)
      let current ← plan.parts first later false index
      let destination ←
        if 0 < current.size then plan.writeLine current destination position else .ok destination
      writeLoop count (index + 1) (position + current.size) destination

/-- Write all lines with newlines between them. -/
def writeJoined (destination : List UInt8) : Except Fault (List UInt8) :=
  plan.writeLoop first later plan.lineCount 0 0 destination

/-- A line written to a buffer of its own. -/
def writtenLine (index : Nat) : Except Fault (List UInt8) := do
  let line ← plan.parts first later false index
  plan.writeLine line (List.replicate line.size 0) 0

end Plan

/-! ## Spans -/

/-- At most one white space. -/
def OneBlank (gap : List UInt8) : Prop :=
  (tokens gap).length ≤ 1 ∧ ∀ token ∈ tokens gap, whitespace token.codePoint = true

/-- Where the body of a line lies, and where the next line goes on. -/
structure LineSpan where
  begin : Nat
  stop : Nat
  behind : Nat

/-- The spans follow each other from `start` to the end of the record. -/
def Chained (data : List UInt8) : (start : Nat) → List LineSpan → Prop
  | start, [] => start = data.length
  | start, span :: rest =>
      span.begin = start ∧ start ≤ span.stop ∧ span.stop ≤ span.behind ∧
        span.behind ≤ data.length ∧ OneBlank (slice data span.stop span.behind) ∧
        Chained data span.behind rest

/-- The spans of lines that end with the given words. -/
def lineSpans (words : List Word) : (begin : Nat) → List Nat → List LineSpan
  | _, [] => []
  | begin, cut :: rest =>
      match words[cut]? with
      | none => []
      | some word => ⟨begin, word.endTrim, word.endOrig⟩ :: lineSpans words word.endOrig rest

/-- The last word of each line. -/
def lastWords (words : List Word) (wrapAfter : List Nat) : List Nat :=
  wrapAfter ++ [words.length - 1]

/-- Where the lines stand in the record. -/
def Plan.spans (plan : Plan) : List LineSpan :=
  match plan.layout with
  | .passthrough => [⟨0, plan.record.data.length, plan.record.data.length⟩]
  | .direct stop => [⟨0, stop, plan.record.data.length⟩]
  | .broken words wrapAfter => lineSpans words 0 (lastWords words wrapAfter)

theorem oneBlank_nil : OneBlank [] := by
  rw [OneBlank, tokens_eq_nil.mpr rfl]
  simp

/-- What a word loses at its end. -/
theorem oneBlank_of_trimmedAt {data : List UInt8} {endTrim stop : Nat} (hstop : stop ≤ data.length)
    (htrimmed : TrimmedAt (data.take stop) endTrim stop) : OneBlank (slice data endTrim stop) := by
  rcases htrimmed with rfl | ⟨hlt, hbehind, hwhite⟩
  · rw [slice, Nat.sub_self, List.take_zero]
    exact oneBlank_nil
  · have hlength : (data.take stop).length = stop := List.length_take_of_le hstop
    have hslice : (data.take stop).drop endTrim = slice data endTrim stop := List.drop_take
    have hsize : (slice data endTrim stop).length = stop - endTrim := length_slice hstop
    have hread := next_eq_drop (data.take stop) (hlt.trans_eq hlength.symm)
    rw [hslice] at hread
    rw [hread] at hbehind hwhite
    have hwhole : (next (slice data endTrim stop) 0).2 = (slice data endTrim stop).length := by
      simp only at hbehind
      omega
    have hne : slice data endTrim stop ≠ [] := by
      apply List.ne_nil_of_length_pos
      rw [hsize]
      exact Nat.sub_pos_of_lt hlt
    have htokens : tokens (slice data endTrim stop) =
        [⟨(next (slice data endTrim stop) 0).1, slice data endTrim stop⟩] := by
      rw [tokens_eq_cons hne, hwhole, List.take_length, List.drop_length, tokens_nil]
    rw [OneBlank, htokens]
    refine ⟨le_rfl, ?_⟩
    intro token htoken
    rw [List.mem_singleton.mp htoken]
    exact hwhite

/-- Lines that are cut at words follow each other. -/
theorem chained_lineSpans {data : List UInt8} {words : List Word} (hcovers : Covers data words)
    {cuts : List Nat} (hsorted : cuts.Pairwise (· < ·)) (hinside : ∀ cut ∈ cuts, cut < words.length)
    (hlast : ∀ cut, cuts.getLast? = some cut → cut + 1 = words.length) {begin : Nat}
    (hbegin : ∀ cut ∈ cuts, ∀ word, words[cut]? = some word → begin ≤ word.endTrim)
    (hdone : cuts = [] → begin = data.length) :
    Chained data begin (lineSpans words begin cuts) ∧
      (lineSpans words begin cuts).length = cuts.length := by
  induction cuts generalizing begin with
  | nil => exact ⟨hdone rfl, rfl⟩
  | cons cut rest ih =>
      obtain ⟨hlater, hrest⟩ := List.pairwise_cons.mp hsorted
      have hcut := hinside cut List.mem_cons_self
      have hword : words[cut]? = some words[cut] := List.getElem?_eq_getElem hcut
      have hmem : words[cut] ∈ words := List.getElem_mem hcut
      have htrimmed := hcovers.trimmed _ hmem
      have hstop := hcovers.inside _ hmem
      have hnext := @ih hrest (fun later hmem => hinside later (List.mem_cons_of_mem _ hmem)) (by
        intro last heq
        apply hlast
        cases rest with
        | nil => exact absurd heq (by simp)
        | cons next rest => rw [List.getLast?_cons_cons, heq]) words[cut].endOrig (by
        intro later hmem word hat
        obtain ⟨hbound, rfl⟩ := List.getElem?_eq_some_iff.mp hat
        exact List.pairwise_iff_getElem.mp hcovers.ordered _ _ hcut hbound (hlater later hmem)) (by
        rintro rfl
        apply hcovers.complete
        rw [List.getLast?_eq_getElem?, ← hlast cut rfl, Nat.add_sub_cancel, hword])
      simp only [lineSpans, hword, List.length_cons, Nat.succ_inj]
      refine ⟨⟨rfl, ?_, htrimmed.le, hstop, oneBlank_of_trimmedAt hstop htrimmed, hnext.1⟩, hnext.2⟩
      exact hbegin cut List.mem_cons_self _ hword

/-- A line begins behind the break before it. -/
theorem getElem?_lineSpans (words : List Word) {cuts : List Nat}
    (hinside : ∀ cut ∈ cuts, cut < words.length) (begin index : Nat) :
    (lineSpans words begin cuts)[index]?.map (fun span => (span.begin, span.stop)) =
      (if index > 0 then
        cuts[index - 1]?.bind fun previous => words[previous]?.map Word.endOrig
      else some begin).bind fun start =>
        (cuts[index]?.bind fun current => words[current]?.map Word.endTrim).map
          fun stop => (start, stop) := by
  induction cuts generalizing begin index with
  | nil => simp [lineSpans]
  | cons cut rest ih =>
      have hcut := hinside cut List.mem_cons_self
      have hword : words[cut]? = some words[cut] := List.getElem?_eq_getElem hcut
      have hnext := ih (fun later hmem => hinside later (List.mem_cons_of_mem _ hmem))
        words[cut].endOrig
      simp only [lineSpans, hword]
      cases index with
      | zero => simp [hword]
      | succ index =>
          rw [List.getElem?_cons_succ, hnext index]
          cases index with
          | zero => simp [hword]
          | succ index => simp

/-- Lines end at words. -/
theorem Breaks.lastWords_inside {words : List Word} {wrapAfter : List Nat} (hwords : words ≠ [])
    (hbreaks : Breaks words.length wrapAfter) :
    ∀ cut ∈ lastWords words wrapAfter, cut < words.length := by
  intro cut hcut
  rcases List.mem_append.mp hcut with hmem | hmem
  · exact Nat.lt_of_succ_lt (hbreaks.before cut hmem)
  · rw [List.mem_singleton.mp hmem]
    exact Nat.sub_one_lt_of_lt (List.length_pos_iff.mpr hwords)

theorem Breaks.lastWords_sorted {words : List Word} {wrapAfter : List Nat}
    (hbreaks : Breaks words.length wrapAfter) : (lastWords words wrapAfter).Pairwise (· < ·) := by
  rw [lastWords, List.pairwise_append]
  refine ⟨hbreaks.sorted, by simp, ?_⟩
  intro cut hcut last hlast
  rw [List.mem_singleton.mp hlast]
  exact Nat.lt_sub_of_add_lt (hbreaks.before cut hcut)

/-- The words of a line are those between two breaks. -/
theorem lineRange_eq {words : List Word} {wrapAfter : List Nat} (hwords : words ≠ [])
    (hbreaks : Breaks words.length wrapAfter) {index : Nat} (hindex : index ≤ wrapAfter.length) :
    lineRange words wrapAfter index =
      (lineSpans words 0 (lastWords words wrapAfter))[index]?.map
        fun span => (span.begin, span.stop) := by
  have hstart : ∀ index, 0 < index → index ≤ wrapAfter.length →
      (lastWords words wrapAfter)[index - 1]? = wrapAfter[index - 1]? := by
    intro index hpos hle
    exact List.getElem?_append_left (by omega)
  rw [getElem?_lineSpans words (hbreaks.lastWords_inside hwords), lineRange]
  have hstop : (if index < wrapAfter.length then
        wrapAfter[index]?.bind fun current => words[current]?.map Word.endTrim
      else words.getLast?.map Word.endTrim) =
      (lastWords words wrapAfter)[index]?.bind fun current => words[current]?.map Word.endTrim := by
    split
    next hlt => rw [lastWords, List.getElem?_append_left hlt]
    next hge =>
      obtain rfl : index = wrapAfter.length := Nat.le_antisymm hindex (Nat.not_lt.mp hge)
      rw [lastWords, List.getElem?_concat_length, Option.bind_some, List.getLast?_eq_getElem?]
  rw [hstop]
  split
  next hpos => rw [hstart index hpos hindex]
  next => rfl

/-! ## Plans -/

/-- The spans of a plan are those its lines are read off, and cover the record. -/
structure Plan.Sound (plan : Plan) : Prop where
  length_le : plan.record.data.length ≤ intMax
  lineCount_le : plan.lineCount ≤ intMax
  length_spans : plan.spans.length = plan.lineCount
  chained : Chained plan.record.data 0 plan.spans
  ranges : ∀ words wrapAfter, plan.layout = .broken words wrapAfter → ∀ index < plan.lineCount,
    lineRange words wrapAfter index =
      plan.spans[index]?.map fun span => (span.begin, span.stop)

/-- What is trimmed at the end is one blank. -/
theorem oneBlank_trimLast {data : List UInt8} (hascii : ∀ byte ∈ data, byte < 0x80) :
    OneBlank (slice data (trimLast data).length data.length) := by
  rw [slice_to_length]
  rcases List.eq_nil_or_concat data with rfl | ⟨front, byte, rfl⟩
  · exact oneBlank_nil
  · rw [List.concat_eq_append] at hascii ⊢
    rw [trimLast_concat]
    split
    next hblank =>
      have hsingle : byte.toNat < 0x80 := hascii byte (by simp)
      rw [List.drop_left, OneBlank, tokens_single hsingle, tokens_nil]
      refine ⟨le_rfl, ?_⟩
      intro token htoken
      rw [List.mem_singleton.mp htoken]
      exact hblank
    next =>
      rw [List.drop_length]
      exact oneBlank_nil

theorem length_trimLast_le (data : List UInt8) : (trimLast data).length ≤ data.length := by
  unfold trimLast
  split
  next =>
    rw [List.length_dropLast]
    exact Nat.sub_le _ _
  next => exact le_rfl

section Sound

variable {Cost : Type} [Zero Cost] [One Cost] [Neg Cost] [Add Cost] [LT Cost] [LE Cost]
  [DecidableLT Cost] [DecidableLE Cost] {icu : Icu} {options : Options Cost}
  {pow : Int → Cost → Cost}

/-- Every plan that is made is sound. -/
theorem plan_sound
    (hpow : ¬ options.exponent ≤ 0 → NonNegative fun room => pow room options.exponent)
    {source : StringView} {first later : LineStart} {matrices left : Matrices Cost} {planned : Plan}
    (hplan : plan icu options pow source first later matrices = .ok (left, planned))
    (hends : Boundaries planned.record.data (icu.boundaries planned.record.data).2)
    (hlength : planned.record.data.length ≤ intMax) : planned.Sound := by
  have hcount := plan_lineCount_le hplan
  obtain ⟨record, hrecord, hcases⟩ := plan_cases hplan
  rcases hcases with ⟨stop, hfits, rfl⟩ | ⟨hwords, rfl⟩ |
    ⟨words, wrapAfter, hne, hwords, hwrap, -, rfl⟩
  · obtain ⟨-, hascii, rfl⟩ := asciiFits_some icu options hfits
    refine ⟨hlength, hcount, rfl, ⟨rfl, Nat.zero_le _, ?_, le_rfl, ?_, rfl⟩, by simp⟩
    · exact length_trimLast_le record.data
    · exact oneBlank_trimLast hascii
  · refine ⟨hlength, hcount, rfl, ⟨rfl, Nat.zero_le _, le_rfl, le_rfl, ?_, rfl⟩, by simp⟩
    rw [slice_to_length, List.drop_length]
    exact oneBlank_nil
  · have hbreaks := wrapWords_breaks hpow hne hwrap
    rw [cutWords_eq] at hwords
    obtain ⟨hcovers, -, -⟩ := addWords_covers icu (hends.cuts options) hwords
    obtain ⟨hchained, hspans⟩ := @chained_lineSpans _ _ hcovers _ hbreaks.lastWords_sorted
      (hbreaks.lastWords_inside hne) (by
        intro cut hcut
        rw [lastWords, List.getLast?_concat, Option.some_inj] at hcut
        rw [← hcut]
        exact Nat.sub_add_cancel (List.length_pos_iff.mpr hne)) 0
      (fun _ _ _ _ => Nat.zero_le _) (by simp [lastWords])
    refine ⟨hlength, hcount, ?_, hchained, ?_⟩
    · rw [Plan.spans, hspans, lastWords, List.length_append]
      rfl
    · rintro _ _ ⟨⟩ index hindex
      exact lineRange_eq hne hbreaks (Nat.le_of_lt_succ hindex)

end Sound

end Charr.Wrap
