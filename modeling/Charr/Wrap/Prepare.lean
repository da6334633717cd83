import Charr.Library.Fields
import Charr.Text.CodePoints
import Charr.Wrap.Cuts

/-!
# Prepared records

With normalization on, a record becomes its fields, joined by single blanks: line breaks,
blanks and tabs separate fields, white space at both ends is taken away, and the rest is
put into NFC. A prepared record is prepared already, and no word of it holds a line break.
-/

namespace Charr.Wrap

open Utf8 Width Fields

/-! ## Code points -/

/-- The blank. -/
def blankToken : Token := ⟨0x20, [0x20]⟩

/-- Line breaks, blanks and tabs. -/
def separates (token : Token) : Bool :=
  linebreak token.codePoint || token.codePoint = 0x20 || token.codePoint = 0x09

/-- The token is white space. -/
def isWhite (token : Token) : Bool := whitespace token.codePoint

/-- The text does not hold a code point. -/
def Without (codePoint : CodePoint) (text : List UInt8) : Prop :=
  ∀ token ∈ tokens text, token.codePoint ≠ codePoint

theorem isWhite_of_separates (token : Token) (hseparates : separates token = true) :
    isWhite token = true := by
  unfold separates linebreak at hseparates
  unfold isWhite whitespace
  simp only [Bool.or_eq_true, decide_eq_true_eq] at hseparates ⊢
  grind

/-- The mark is the code point `U+FEFF`. -/
theorem not_without_of_hasBom {text : List UInt8} (hbom : hasBom text = true) :
    ¬ Without 0xfeff text := by
  intro hwithout
  rw [Without, tokens_of_hasBom hbom] at hwithout
  exact hwithout ⟨0xfeff, [0xef, 0xbb, 0xbf]⟩ List.mem_cons_self rfl

/-- Text without the mark does not begin with one. -/
theorem Without.hasBom {text : List UInt8} (hwithout : Without 0xfeff text) :
    Charr.hasBom text = false := by
  apply Bool.eq_false_iff.mpr
  intro hbom
  exact not_without_of_hasBom hbom hwithout

/-! ## Runs of separators -/

section Loop

variable {text : List UInt8}

theorem take_of_tokens_drop {cursor : Nat} {token : Token} {rest : List Token}
    (hdrop : tokens (text.drop cursor) = token :: rest) :
    (text.drop cursor).take token.bytes.length = token.bytes := by
  rw [← tokenBytes_tokens (text.drop cursor), hdrop, tokenBytes_cons, List.take_left]

/-- A separator is written as a blank, unless one has been written already. -/
theorem blanked_eq {token : Token} (hseparates : separates token = true) (inRun : Bool)
    (prepared : List UInt8) (rest : List Token) :
    (if inRun then prepared else prepared ++ [0x20]) ++
        tokenBytes (collapse separates blankToken true rest) =
      prepared ++ tokenBytes (collapse separates blankToken inRun (token :: rest)) := by
  rw [collapse, if_pos hseparates]
  cases inRun with
  | true => rfl
  | false =>
      rw [if_neg (by simp), if_neg (by simp), tokenBytes_cons, List.append_assoc]
      rfl

/-- A line feed, by its byte. -/
theorem tokens_drop_feed {cursor : Nat} (hcursor : cursor < text.length)
    (hfeed : byteAt text cursor = 0x0a) :
    ∃ feed, separates feed = true ∧
      tokens (text.drop cursor) = feed :: tokens (text.drop (cursor + 1)) := by
  obtain ⟨feed, -, hdrop, hnext, -⟩ := tokens_drop hcursor
  rw [next_of_single (by rw [hfeed]; decide), hfeed, Prod.mk.injEq,
    Nat.add_left_cancel_iff] at hnext
  refine ⟨feed, ?_, ?_⟩
  · rw [separates, ← hnext.1]
    rfl
  · rw [hdrop, ← hnext.2]

/-- The loop collapses the white space. -/
theorem prepareLoop_eq {fuel cursor : Nat} (hfuel : text.length ≤ cursor + fuel)
    (hcodes : AreCodePoints (tokens (text.drop cursor))) (hmark : Without 0xfeff (text.drop cursor))
    (fieldStart inRun : Bool) (prepared : List UInt8) :
    prepareLoop text fuel cursor fieldStart inRun prepared =
      .ok (prepared ++ tokenBytes
        (collapse separates blankToken inRun (tokens (text.drop cursor)))) := by
  induction fuel generalizing cursor fieldStart inRun prepared with
  | zero =>
      rw [List.drop_eq_nil_iff.mpr (show text.length ≤ cursor from hfuel), tokens_nil, collapse,
        tokenBytes_nil, List.append_nil]
      rfl
  | succ fuel ih =>
      rw [prepareLoop]
      by_cases hlt : cursor < text.length
      · obtain ⟨token, htoken, hdrop, hnext, hinside⟩ := tokens_drop hlt
        have htake := take_of_tokens_drop hdrop
        have hbom : hasBomAt text cursor = false := hmark.hasBom
        rw [Without, hdrop, List.forall_mem_cons] at hmark
        rw [hdrop, AreCodePoints, List.forall_mem_cons] at hcodes
        have hpos := List.length_pos_iff.mpr (bytes_ne_nil htoken)
        have hnonneg := Int.not_lt.mpr (Utf8.codePoint_nonneg htoken hcodes.1.2)
        have hlater := fun fieldStart inRun prepared =>
          @ih (cursor + token.bytes.length) (by omega) hcodes.2 hmark.2 fieldStart inRun prepared
        rw [if_pos hlt, hbom, Bool.and_false, if_neg (by simp), hnext]
        simp only [if_neg hnonneg]
        split
        next hbreak =>
          have hseparates : separates token = true := by simp [separates, hbreak]
          rw [hdrop, ← blanked_eq hseparates]
          split
          next hpair =>
            -- a line feed right behind a carriage return would write no blank of its own
            obtain ⟨-, hbehind, hfeed⟩ := hpair
            obtain ⟨feed, hseparates, hskipped⟩ := tokens_drop_feed hbehind hfeed
            rw [hskipped] at hcodes hmark
            rw [hskipped, collapse, if_pos hseparates, if_pos rfl]
            apply ih (by omega)
            · exact fun token hmem => hcodes.2 token (List.mem_cons_of_mem _ hmem)
            · exact fun token hmem => hmark.2 token (List.mem_cons_of_mem _ hmem)
          next => exact hlater true true _
        next hbreak =>
          split
          next hblank =>
            have hseparates : separates token = true := by
              simpa [separates, or_assoc] using .inr hblank
            rw [hdrop, ← blanked_eq hseparates]
            exact hlater false true _
          next hblank =>
            have hseparates : ¬ separates token = true := by
              simpa [separates, hbreak, or_assoc] using hblank
            rw [Nat.add_sub_cancel_left, htake, hlater, hdrop, collapse, if_neg hseparates,
              tokenBytes_cons, List.append_assoc]
      · rw [if_neg hlt, List.drop_eq_nil_iff.mpr (Nat.not_lt.mp hlt), tokens_nil, collapse,
          tokenBytes_nil, List.append_nil]

end Loop

/-! ## White space at both ends -/

section Trimming

variable {front rest : List Token} {token : Token}

/-- Reading behind a front gives the next token. -/
theorem next_at (hcodes : AreCodePoints (front ++ token :: rest)) :
    next (tokenBytes (front ++ token :: rest)) (tokenBytes front).length =
      (token.codePoint, (tokenBytes (front ++ [token])).length) := by
  obtain ⟨hfront, hothers⟩ := List.forall_mem_append.mp hcodes
  have hbehind : tokens ((tokenBytes (front ++ token :: rest)).drop (tokenBytes front).length) =
      token :: rest := by
    rw [tokenBytes_append, List.drop_left, tokens_tokenBytes hothers]
  rw [next_of_tokens_drop hbehind, tokenBytes_append, List.length_append, tokenBytes_cons,
    tokenBytes_nil, List.append_nil]

/-- Reading back gives the one before. -/
theorem prev_at (hcodes : AreCodePoints (front ++ token :: rest)) :
    prev (tokenBytes (front ++ token :: rest)) (tokenBytes (front ++ [token])).length =
      (token.codePoint, (tokenBytes front).length) := by
  have hsplit : front ++ token :: rest = (front ++ [token]) ++ rest := by simp
  have hread := tokens_tokenBytes hcodes
  have hback : back1 (tokenBytes (front ++ token :: rest)) (tokenBytes (front ++ [token])).length =
      (tokenBytes front).length := by
    have hoffset := @back1_offset (tokenBytes (front ++ token :: rest)) front.length (by
      rw [Utf8.codePointCount, hread, List.length_append, List.length_cons]
      omega)
    have hstart : offset (tokenBytes (front ++ token :: rest)) front.length =
        (tokenBytes front).length := by
      rw [offset, hread, List.take_left]
    have hstop : offset (tokenBytes (front ++ token :: rest)) (front.length + 1) =
        (tokenBytes (front ++ [token])).length := by
      rw [offset, hread, hsplit, List.take_left' (by simp)]
    rwa [hstart, hstop] at hoffset
  have htake : (tokenBytes (front ++ token :: rest)).take (tokenBytes (front ++ [token])).length =
      tokenBytes (front ++ [token]) := by
    rw [hsplit, tokenBytes_append (front ++ [token]), List.take_left]
  have hnext := @next_at front [] token (by
    intro other hmem
    apply hcodes other
    rw [hsplit]
    exact List.mem_append_left _ hmem)
  rw [prev, hback, htake]
  simp only [hnext, if_true]

theorem length_lt_concat (hcodes : AreCodePoints (front ++ token :: rest)) :
    (tokenBytes front).length < (tokenBytes (front ++ [token])).length := by
  have htoken := (hcodes token (by simp)).1
  have hpos := List.length_pos_iff.mpr (bytes_ne_nil htoken)
  rw [tokenBytes_append, List.length_append, tokenBytes_cons, List.length_append]
  omega

theorem length_concat_le :
    (tokenBytes (front ++ [token])).length ≤ (tokenBytes (front ++ token :: rest)).length := by
  have hsplit : front ++ token :: rest = front ++ [token] ++ rest := by simp
  rw [hsplit, tokenBytes_append (front ++ [token]), List.length_append]
  exact Nat.le_add_right _ _

/-- Trimming stops at the first token that is not white. -/
theorem trimStart_eq {fuel : Nat} (hcodes : AreCodePoints (front ++ rest))
    (hfuel : rest.length ≤ fuel) :
    trimStart (tokenBytes (front ++ rest)) fuel (tokenBytes front).length =
      (tokenBytes (front ++ rest.takeWhile isWhite)).length := by
  induction rest generalizing front fuel with
  | nil =>
      rw [List.takeWhile_nil, List.append_nil]
      cases fuel with
      | zero => rfl
      | succ fuel => rw [trimStart, if_neg (Nat.lt_irrefl _)]
  | cons token rest ih =>
      obtain ⟨fuel, rfl⟩ := Nat.exists_eq_succ_of_ne_zero (Nat.ne_zero_of_lt hfuel)
      have hlt := (length_lt_concat hcodes).trans_le (@length_concat_le front rest token)
      have hsplit : ∀ others, front ++ token :: others = front ++ [token] ++ others := by simp
      rw [trimStart, if_pos hlt, next_at hcodes]
      change (if isWhite token = true then _ else _) = _
      by_cases hwhite : isWhite token = true
      · rw [if_pos hwhite, List.takeWhile_cons_of_pos hwhite, hsplit rest,
          hsplit (rest.takeWhile isWhite)]
        rw [hsplit] at hcodes
        exact ih hcodes (Nat.le_of_succ_le_succ hfuel)
      · rw [if_neg hwhite, List.takeWhile_cons_of_neg hwhite, List.append_nil]

/-- Trimming stops behind the last one. -/
theorem trimEnd_eq {middle : List Token} {fuel : Nat}
    (hcodes : AreCodePoints (front ++ middle ++ rest)) (hfuel : middle.length ≤ fuel) :
    trimEnd (tokenBytes (front ++ middle ++ rest)) (tokenBytes front).length fuel
        (tokenBytes (front ++ middle)).length =
      (tokenBytes (front ++ middle.rdropWhile isWhite)).length := by
  induction middle using List.reverseRecOn generalizing rest fuel with
  | nil =>
      rw [List.rdropWhile_nil, List.append_nil]
      cases fuel with
      | zero => rfl
      | succ fuel => rw [trimEnd, if_neg (Nat.lt_irrefl _)]
  | append_singleton middle token ih =>
      rw [List.length_append, List.length_singleton] at hfuel
      obtain ⟨fuel, rfl⟩ := Nat.exists_eq_succ_of_ne_zero (Nat.ne_zero_of_lt hfuel)
      have hsplit : front ++ (middle ++ [token]) ++ rest = front ++ middle ++ token :: rest := by
        simp
      rw [hsplit] at hcodes ⊢
      have hlt : (tokenBytes front).length < (tokenBytes (front ++ middle ++ [token])).length := by
        apply Nat.lt_of_le_of_lt _ (length_lt_concat hcodes)
        rw [tokenBytes_append, List.length_append]
        exact Nat.le_add_right _ _
      rw [← List.append_assoc, trimEnd, if_pos hlt, prev_at hcodes]
      change (if isWhite token = true then _ else _) = _
      by_cases hwhite : isWhite token = true
      · rw [if_pos hwhite, List.rdropWhile_concat_pos _ _ _ hwhite]
        exact ih hcodes (Nat.le_of_succ_le_succ hfuel)
      · rw [if_neg hwhite, List.rdropWhile_concat_neg _ _ _ hwhite, List.append_assoc]

/-- The bytes of the code points that are left. -/
theorem trim_eq {list : List Token} (hcodes : AreCodePoints list) :
    Wrap.trim (tokenBytes list) = tokenBytes (Fields.trim isWhite list) := by
  have hcount : list.length ≤ (tokenBytes list).length := by
    have hle := codePointCount_le (tokenBytes list)
    rwa [Utf8.codePointCount, tokens_tokenBytes hcodes] at hle
  have hwhole := List.takeWhile_append_dropWhile (p := isWhite) (l := list)
  have hmiddle := List.rdropWhile_append_rtakeWhile (p := isWhite) (l := list.dropWhile isWhite)
  have hstart := @trimStart_eq [] list (tokenBytes list).length hcodes hcount
  have hstop := @trimEnd_eq (list.takeWhile isWhite) [] (list.dropWhile isWhite)
    (tokenBytes list).length (by rwa [List.append_nil, hwhole])
    ((List.length_dropWhile_le _ _).trans hcount)
  rw [List.append_nil, hwhole] at hstop
  rw [List.nil_append, List.nil_append, tokenBytes_nil, List.length_nil] at hstart
  have hbytes : tokenBytes list =
      tokenBytes (list.takeWhile isWhite) ++ tokenBytes (list.dropWhile isWhite) := by
    rw [← tokenBytes_append, hwhole]
  have hrest : tokenBytes (list.dropWhile isWhite) =
      tokenBytes ((list.dropWhile isWhite).rdropWhile isWhite) ++
        tokenBytes ((list.dropWhile isWhite).rtakeWhile isWhite) := by
    rw [← tokenBytes_append, hmiddle]
  rw [Wrap.trim, hstart, hstop, Fields.trim, tokenBytes_append, List.length_append,
    Nat.add_sub_cancel_left, hbytes, List.drop_left, hrest, List.take_left]

end Trimming

/-! ## The fields of a record -/

/-- What is left of a text without white space at its ends, cut at the separators. -/
def contentFields (text : List UInt8) : List (List UInt8) :=
  (fields separates (Fields.trim isWhite (tokens text))).map tokenBytes

theorem tokens_blankToken : tokens blankToken.bytes = [blankToken] :=
  tokens_of_next blankToken (by decide) (by decide)

/-- Joined tokens have the joined bytes. -/
theorem tokenBytes_intercalate (parts : List (List Token)) :
    tokenBytes ([blankToken].intercalate parts) = [0x20].intercalate (parts.map tokenBytes) := by
  induction parts with
  | nil => rfl
  | cons part rest ih =>
      cases rest with
      | nil => rw [List.intercalate_singleton, List.map_singleton, List.intercalate_singleton]
      | cons next rest =>
          rw [List.intercalate_cons_cons, tokenBytes_append, tokenBytes_append, ih]
          simp only [List.map_cons, List.intercalate_cons_cons]
          rfl

section Prepared

variable {text : List UInt8}

theorem separates_of_not_white {token : Token} (hwhite : isWhite token = false) :
    separates token = false := separator_of_not_white isWhite_of_separates hwhite

/-- Collapsing leaves code points. -/
theorem areCodePoints_collapse {list : List Token} (hcodes : AreCodePoints list) (inRun : Bool) :
    AreCodePoints (collapse separates blankToken inRun list) := by
  intro token htoken
  rcases mem_collapse htoken with rfl | hmem
  · exact ⟨tokens_blankToken, by decide⟩
  · exact hcodes token hmem

/-- What is left before normalization. -/
theorem trim_prepared (hcodes : AreCodePoints (tokens text)) :
    Wrap.trim (tokenBytes (collapse separates blankToken false (tokens text))) =
      [0x20].intercalate (contentFields text) := by
  rw [trim_eq (areCodePoints_collapse hcodes false), trim_collapse isWhite_of_separates (by decide),
    collapse_eq_intercalate, tokenBytes_intercalate]
  · rfl
  · exact fun first hfirst => separates_of_not_white (white_head?_trim first hfirst)
  · exact fun last hlast => separates_of_not_white (white_getLast?_trim last hlast)

end Prepared

/-! ## The length of a record -/

/-- Preparing does not make a record longer. -/
theorem prepareLoop_length {text : List UInt8} {fuel cursor : Nat} {fieldStart inRun : Bool}
    {prepared out : List UInt8}
    (hloop : prepareLoop text fuel cursor fieldStart inRun prepared = .ok out) :
    out.length ≤ prepared.length + (text.length - cursor) := by
  induction fuel generalizing cursor fieldStart inRun prepared with
  | zero =>
      rw [← Except.ok.inj hloop]
      exact Nat.le_add_right _ _
  | succ fuel ih =>
      rw [prepareLoop] at hloop
      split at hloop
      next hlt =>
        split at hloop
        next =>
          have hlater := ih hloop
          omega
        next =>
          have hbehind := lt_fwd1 text cursor
          have hinside := fwd1_le text hlt
          rw [← next_snd] at hbehind hinside
          have hblanked : (if inRun then prepared else prepared ++ [0x20]).length ≤
              prepared.length + 1 := by
            split <;> simp
          simp only at hloop
          split at hloop
          next => exact absurd hloop (by simp)
          next =>
            split at hloop
            next =>
              have hlater := ih hloop
              have hskip : (next text cursor).2 ≤ (if (next text cursor).1 = 0x0d ∧
                  (next text cursor).2 < text.length ∧ byteAt text (next text cursor).2 = 0x0a then
                    (next text cursor).2 + 1 else (next text cursor).2) := by
                split <;> omega
              omega
            next =>
              split at hloop
              next =>
                have hlater := ih hloop
                omega
              next =>
                have hlater := ih hloop
                rw [List.length_append, List.length_take, List.length_drop] at hlater
                omega
      next =>
        rw [← Except.ok.inj hloop]
        exact Nat.le_add_right _ _

theorem length_bytes_le_intMax (source : StringView) : source.bytes.length ≤ intMax := by
  unfold StringView.bytes
  split
  next => exact Nat.zero_le _
  next span _ => exact span.length_le

/-- A view marked as ASCII holds ASCII bytes. -/
def MarkHolds (source : StringView) : Prop := source.enc = .ascii → isAscii source.bytes = true

/-- A record marked ASCII is ASCII. -/
theorem MarkHolds.markedAscii {source : StringView} (hmark : MarkHolds source)
    (hmarked : markedAscii source = true) : isAscii source.bytes = true := by
  simp only [Wrap.markedAscii, Bool.or_eq_true, Bool.and_eq_true, decide_eq_true_eq] at hmarked
  rcases hmarked with henc | ⟨-, hbytes⟩
  · exact hmark henc
  · exact hbytes

theorem length_trim_le (text : List UInt8) : (Wrap.trim text).length ≤ text.length := by
  rw [Wrap.trim, List.length_take, List.length_drop]
  omega

/-- A record is no longer than a string of R may be, and its mark is right. -/
theorem prepareRecord_sound {icu : Icu} {normalize : Bool} {source : StringView} {record : Record}
    (hrecord : prepareRecord icu normalize source = .ok record) :
    record.data.length ≤ intMax ∧
      (MarkHolds source → record.ascii = true → isAscii record.data = true) := by
  have hlength := length_bytes_le_intMax source
  unfold prepareRecord at hrecord
  split at hrecord
  next => exact absurd hrecord (by simp)
  split at hrecord
  next => exact absurd hrecord (by simp)
  split at hrecord
  next => exact absurd hrecord (by simp)
  split at hrecord
  next =>
    obtain rfl := Except.ok.inj hrecord
    exact ⟨hlength, MarkHolds.markedAscii⟩
  next =>
    simp only at hrecord
    split at hrecord
    next => exact absurd hrecord (by simp)
    next prepared hprepared =>
      have hshort := prepareLoop_length hprepared
      have htrim := length_trim_le prepared
      rw [List.length_nil, Nat.zero_add] at hshort
      split at hrecord
      next hascii =>
        obtain rfl := Except.ok.inj hrecord
        exact ⟨htrim.trans (by omega), fun _ _ => hascii⟩
      next =>
        split at hrecord
        next => exact absurd hrecord (by simp)
        next =>
          split at hrecord
          next => exact absurd hrecord (by simp)
          next hfits =>
            obtain rfl := Except.ok.inj hrecord
            refine ⟨?_, fun _ hascii => hascii⟩
            simp only
            split
            next =>
              rw [List.length_drop]
              omega
            next => exact Nat.not_lt.mp hfits

end Charr.Wrap
