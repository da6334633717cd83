import Charr.Text.Tokens
import Charr.Wrap.Engine

/-!
# The words of a record

ICU says where a record may be cut. The words lie between the ends that are accepted, one
right behind the other, and a word loses at most one white space at its end.
-/

namespace Charr.Wrap

open Utf8 Width

/-! ## Slices -/

/-- The bytes of a record between two places. -/
def slice (data : List UInt8) (start stop : Nat) : List UInt8 :=
  (data.drop start).take (stop - start)

theorem drop_eq_slice_append {data : List UInt8} {start stop : Nat} (hle : start ≤ stop) :
    data.drop start = slice data start stop ++ data.drop stop := by
  have hbehind : (data.drop start).drop (stop - start) = data.drop stop := by
    rw [List.drop_drop, Nat.add_sub_cancel' hle]
  rw [slice, ← hbehind, List.take_append_drop]

theorem length_slice_le (data : List UInt8) (start stop : Nat) :
    (slice data start stop).length ≤ data.length := by
  rw [slice, List.length_take, List.length_drop]
  omega

theorem slice_to_length (data : List UInt8) (start : Nat) :
    slice data start data.length = data.drop start := by
  apply List.take_of_length_le
  rw [List.length_drop]

theorem length_slice {data : List UInt8} {start stop : Nat} (hstop : stop ≤ data.length) :
    (slice data start stop).length = stop - start := by
  rw [slice, List.length_take_of_le]
  rw [List.length_drop]
  exact Nat.sub_le_sub_right hstop start

/-! ## Ends -/

/-- What ICU promises of the ends of a text's segments. -/
structure Boundaries (data : List UInt8) (ends : List Nat) : Prop where
  sorted : ends.Pairwise (· < ·)
  inside : ∀ segmentEnd ∈ ends, segmentEnd ≤ data.length
  complete : data ≠ [] → data.length ∈ ends

/-- The cuts lead from `start` to `stop`. -/
def Cuts (stop : Nat) : (start : Nat) → List Nat → Prop
  | start, [] => start = stop
  | start, cut :: rest => start < cut ∧ cut ≤ stop ∧ Cuts stop cut rest

/-- Boundaries in order cut the record. -/
theorem cuts_of_sorted {stop start : Nat} {cuts : List Nat} (hsorted : cuts.Pairwise (· < ·))
    (hinside : ∀ cut ∈ cuts, start < cut ∧ cut ≤ stop) (hle : start ≤ stop)
    (hcomplete : start < stop → stop ∈ cuts) : Cuts stop start cuts := by
  induction cuts generalizing start with
  | nil =>
      apply Nat.le_antisymm hle
      apply Nat.not_lt.mp
      intro hlt
      exact absurd (hcomplete hlt) List.not_mem_nil
  | cons cut rest ih =>
      obtain ⟨hbehind, hrest⟩ := List.pairwise_cons.mp hsorted
      obtain ⟨hcut, hstop⟩ := hinside cut List.mem_cons_self
      refine ⟨hcut, hstop, ?_⟩
      apply ih hrest _ hstop
      · intro hlt
        rcases List.mem_cons.mp (hcomplete (hcut.trans hlt)) with heq | hmem
        · exact absurd heq.symm hlt.ne
        · exact hmem
      · intro later hlater
        exact ⟨hbehind later hlater, (hinside later (List.mem_cons_of_mem _ hlater)).2⟩

section Ends

variable {Cost : Type} (icu : Icu) (options : Options Cost) (data : List UInt8)

/-- The ends at which a word ends. -/
def wordEnds (ends : List Nat) : List Nat :=
  ends.filter fun segmentEnd => accepted options data segmentEnd && 0 < segmentEnd

/-- A word up to each of the ends. -/
def addWords : (start : Nat) → List Nat → Except NativeError (List Word)
  | _, [] => .ok []
  | start, stop :: rest => do
      let word ← addWord icu options data start stop
      let words ← addWords stop rest
      return word :: words

theorem cutWords_eq (start : Nat) (ends : List Nat) :
    cutWords icu options data start ends =
      addWords icu options data start (wordEnds options data ends) := by
  induction ends generalizing start with
  | nil => rfl
  | cons segmentEnd rest ih =>
      rw [cutWords, wordEnds, List.filter_cons]
      split
      next =>
        rw [addWords]
        simp only [ih]
        rfl
      next => exact ih start

/-- The end of the record is always accepted. -/
theorem Boundaries.cuts {data : List UInt8} {ends : List Nat} (hends : Boundaries data ends) :
    Cuts data.length 0 (wordEnds options data ends) := by
  apply cuts_of_sorted (hends.sorted.filter _) _ (Nat.zero_le _)
  · intro hpos
    apply List.mem_filter.mpr
    refine ⟨hends.complete (List.ne_nil_of_length_pos hpos), ?_⟩
    have haccepted : accepted options data data.length = true := by simp [accepted]
    rw [haccepted, Bool.true_and]
    exact decide_eq_true hpos
  · intro cut hcut
    obtain ⟨hmem, hkept⟩ := List.mem_filter.mp hcut
    exact ⟨of_decide_eq_true (Bool.and_eq_true_iff.mp hkept).2, hends.inside cut hmem⟩

end Ends

/-! ## One code point of a word -/

section Scanning

variable (icu : Icu) {text : List UInt8}

/-- A word with the code point between `cursor` and `behind`. -/
def WordScan.take (current : CodePoint) (cursor behind : Nat) (scan : WordScan) : WordScan :=
  let first := widthCharWithContext icu.properties current scan.current scan.reset
  let second := widthCharWithContext icu.properties current scan.current first.2
  let blank := whitespace current
  { widthOrig := scan.widthOrig + UInt32.ofInt first.1
    widthTrim := if blank then UInt32.ofInt second.1 else 0
    countOrig := scan.countOrig + 1
    countTrim := if blank then 1 else 0
    endTrim := if blank then cursor else behind
    current := current
    reset := if blank then second.2 else first.2 }

theorem wordLoop_succ (fuel cursor : Nat) (scan : WordScan) :
    wordLoop icu text (fuel + 1) cursor scan =
      if cursor < text.length then
        if (next text cursor).1 < 0 then .error invalidUtf8
        else if linebreak (next text cursor).1 then .error newlineFound
        else wordLoop icu text fuel (next text cursor).2
          (scan.take icu (next text cursor).1 cursor (next text cursor).2)
      else .ok scan := by
  rw [wordLoop]
  generalize next text cursor = read
  cases hblank : whitespace read.1 with
  | true => simp only [WordScan.take, hblank, if_true]
  | false => simp only [WordScan.take, hblank, Bool.false_eq_true, if_false]

/-- What every code point keeps holds of the whole word. -/
theorem wordLoop_run {holds : Nat → WordScan → Prop}
    (hstep : ∀ cursor scan, cursor < text.length → holds cursor scan →
      holds (next text cursor).2
        (scan.take icu (next text cursor).1 cursor (next text cursor).2))
    {fuel cursor : Nat} {scan scan' : WordScan} (hfuel : text.length ≤ cursor + fuel)
    (hcursor : cursor ≤ text.length) (hholds : holds cursor scan)
    (hloop : wordLoop icu text fuel cursor scan = .ok scan') : holds text.length scan' := by
  induction fuel generalizing cursor scan with
  | zero =>
      rw [wordLoop, Except.ok.injEq] at hloop
      rw [← Nat.le_antisymm hcursor hfuel, ← hloop]
      exact hholds
  | succ fuel ih =>
      rw [wordLoop_succ] at hloop
      split at hloop
      next hlt =>
        have hbehind := lt_fwd1 text cursor
        have hinside := fwd1_le text hlt
        rw [← next_snd] at hbehind hinside
        split at hloop
        next => exact absurd hloop (by simp)
        next =>
          split at hloop
          next => exact absurd hloop (by simp)
          next => exact ih (by omega) hinside (hstep cursor scan hlt hholds) hloop
      next hge =>
        rw [Except.ok.injEq] at hloop
        rw [← Nat.le_antisymm hcursor (Nat.not_lt.mp hge), ← hloop]
        exact hholds

/-- Behind the word as far as it is read there is nothing, or one white space. -/
def TrimmedAt (text : List UInt8) (endTrim cursor : Nat) : Prop :=
  endTrim = cursor ∨
    endTrim < cursor ∧ (next text endTrim).2 = cursor ∧ whitespace (next text endTrim).1 = true

theorem TrimmedAt.le {endTrim cursor : Nat} (htrimmed : TrimmedAt text endTrim cursor) :
    endTrim ≤ cursor := by
  rcases htrimmed with heq | ⟨hlt, -, -⟩
  · exact heq.le
  · exact hlt.le

/-- A word ends without its white space. -/
theorem trimmedAt_take (scan : WordScan) (cursor : Nat) :
    TrimmedAt text (scan.take icu (next text cursor).1 cursor (next text cursor).2).endTrim
      (next text cursor).2 := by
  unfold WordScan.take
  cases hblank : whitespace (next text cursor).1 with
  | true =>
      right
      refine ⟨?_, rfl, hblank⟩
      rw [next_snd]
      exact lt_fwd1 text cursor
  | false => exact .inl rfl

theorem le_endTrim_take (current : CodePoint) {cursor behind : Nat} (hle : cursor ≤ behind)
    (scan : WordScan) : cursor ≤ (scan.take icu current cursor behind).endTrim := by
  unfold WordScan.take
  simp only
  split
  next => exact le_rfl
  next => exact hle

/-- The loop finds where the word ends. -/
theorem wordLoop_trimmed {fuel start : Nat} {scan scan' : WordScan}
    (hfuel : text.length ≤ start + fuel) (hstart : start ≤ text.length)
    (hscan : scan.endTrim = start) (hloop : wordLoop icu text fuel start scan = .ok scan') :
    start ≤ scan'.endTrim ∧ TrimmedAt text scan'.endTrim text.length := by
  apply @wordLoop_run icu text
    (fun cursor scan => start ≤ scan.endTrim ∧ TrimmedAt text scan.endTrim cursor)
    _ _ _ _ _ hfuel hstart _ hloop
  · rintro cursor scan - ⟨hlow, htrimmed⟩
    refine ⟨?_, trimmedAt_take icu scan cursor⟩
    apply (hlow.trans htrimmed.le).trans
    apply le_endTrim_take
    rw [next_snd]
    exact (lt_fwd1 text cursor).le
  · exact ⟨hscan.ge, .inl hscan⟩

variable {Cost : Type} {options : Options Cost}

/-- The word that ends at `stop`, once it is read. -/
def WordScan.word (options : Options Cost) (stop : Nat) (scan : WordScan) : Word where
  endOrig := stop
  endTrim := scan.endTrim
  widthOrig := if options.useLength then scan.countOrig else scan.widthOrig
  widthTrim :=
    if options.useLength then scan.countOrig - scan.countTrim else scan.widthOrig - scan.widthTrim

/-- A word by its scan. -/
theorem addWord_eq (data : List UInt8) (start stop : Nat) :
    addWord icu options data start stop =
      (wordLoop icu (data.take stop) (stop - start) start ⟨0, 0, 0, 0, start, 0, true⟩).map
        (WordScan.word options stop) := by
  rw [addWord]
  cases wordLoop icu (data.take stop) (stop - start) start ⟨0, 0, 0, 0, start, 0, true⟩ with
  | error error => rfl
  | ok scan => rfl

/-- A word ends where it was cut, but for one white space at most. -/
theorem addWord_trimmed {data : List UInt8} {start stop : Nat} {word : Word}
    (hstart : start ≤ stop) (hstop : stop ≤ data.length)
    (hword : addWord icu options data start stop = .ok word) :
    word.endOrig = stop ∧ start ≤ word.endTrim ∧
      TrimmedAt (data.take stop) word.endTrim stop := by
  have hlength : (data.take stop).length = stop := List.length_take_of_le hstop
  rw [addWord_eq] at hword
  cases hloop : wordLoop icu (data.take stop) (stop - start) start ⟨0, 0, 0, 0, start, 0, true⟩ with
  | error error =>
      rw [hloop] at hword
      exact absurd hword (by simp [Except.map])
  | ok scan =>
      rw [hloop] at hword
      obtain rfl := Except.ok.inj hword
      have hfuel : (data.take stop).length ≤ start + (stop - start) := by omega
      have htrimmed := wordLoop_trimmed icu hfuel (hstart.trans hlength.ge) rfl hloop
      rw [hlength] at htrimmed
      exact ⟨rfl, htrimmed⟩

/-- Words that follow each other up to the end of the record. -/
structure Covers (data : List UInt8) (words : List Word) : Prop where
  inside : ∀ word ∈ words, word.endOrig ≤ data.length
  trimmed : ∀ word ∈ words, TrimmedAt (data.take word.endOrig) word.endTrim word.endOrig
  ordered : words.Pairwise fun word next => word.endOrig ≤ next.endTrim
  complete : ∀ word, words.getLast? = some word → word.endOrig = data.length

/-- The words cover the record. -/
theorem addWords_covers {data : List UInt8} {start : Nat} {cuts : List Nat}
    (hcuts : Cuts data.length start cuts) {words : List Word}
    (hwords : addWords icu options data start cuts = .ok words) :
    Covers data words ∧ (∀ word ∈ words, start ≤ word.endTrim) ∧
      (words = [] → start = data.length) := by
  induction cuts generalizing start words with
  | nil =>
      obtain rfl := Except.ok.inj hwords
      exact ⟨⟨by simp, by simp, .nil, by simp⟩, by simp, fun _ => hcuts⟩
  | cons stop rest ih =>
      obtain ⟨hlt, hstop, hrest⟩ := hcuts
      rw [addWords] at hwords
      cases hword : addWord icu options data start stop with
      | error error =>
          rw [hword] at hwords
          exact absurd hwords (by simp [bind, Except.bind])
      | ok word =>
          cases hlater : addWords icu options data stop rest with
          | error error =>
              rw [hword, hlater] at hwords
              exact absurd hwords (by simp [bind, Except.bind])
          | ok later =>
              rw [hword, hlater] at hwords
              obtain rfl := Except.ok.inj hwords
              obtain ⟨hend, hstart, htrimmed⟩ := addWord_trimmed icu hlt.le hstop hword
              obtain ⟨hcovers, hbehind, hdone⟩ := ih hrest hlater
              rw [← hend] at htrimmed hstop hbehind hdone
              refine ⟨⟨?_, ?_, ?_, ?_⟩, ?_, fun hnil => absurd hnil (List.cons_ne_nil _ _)⟩
              · exact List.forall_mem_cons.mpr ⟨hstop, hcovers.inside⟩
              · exact List.forall_mem_cons.mpr ⟨htrimmed, hcovers.trimmed⟩
              · exact List.pairwise_cons.mpr ⟨hbehind, hcovers.ordered⟩
              · intro last hlast
                cases later with
                | nil =>
                    rw [← Option.some_inj.mp hlast]
                    exact hdone rfl
                | cons next later =>
                    rw [List.getLast?_cons_cons] at hlast
                    exact hcovers.complete last hlast
              · refine List.forall_mem_cons.mpr ⟨hstart, ?_⟩
                intro next hnext
                exact (hlt.le.trans hend.ge).trans (hbehind next hnext)

end Scanning

end Charr.Wrap
