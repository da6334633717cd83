import Charr.Wrap.Flatten
import Charr.Wrap.Prepare

/-!
# Records in normal form

NFC leaves white space where it is. So a record is in normal form once it has been
prepared: preparing it again changes nothing, and none of its words holds a line break.
-/

namespace Charr.Wrap

open Utf8 Width Fields

/-! ## White space under NFC -/

/-- The white space that is told apart when a record is prepared. -/
inductive SpaceKind where
  | space
  | tab
  | linebreak
  | other
  deriving DecidableEq, Repr

/-- What the scanner takes a code point for, if that is white space. -/
def spaceKind (codePoint : CodePoint) : Option SpaceKind :=
  if codePoint = 0x20 then some .space
  else if codePoint = 0x09 then some .tab
  else if linebreak codePoint then some .linebreak
  else if whitespace codePoint then some .other
  else none

namespace Icu

/-- The text `Normalizer2` writes. -/
def nfc (icu : Icu) (text : List UInt8) : List UInt8 := (icu.normalizeNfc text).1

/-- What is known of NFC: it is done once and for all, leaves ASCII text alone, and makes no
byte order marks. White space is a boundary of it, stays white space of its kind, and is
not made of anything else. -/
structure KeepsWhiteSpace (icu : Icu) : Prop where
  works : ∀ text, WellFormed text → failed (icu.normalizeNfc text).2 = false
  wellFormed : ∀ text, WellFormed text → WellFormed (icu.nfc text)
  idempotent : ∀ text, WellFormed text → icu.nfc (icu.nfc text) = icu.nfc text
  ascii : ∀ text, isAscii text = true → icu.nfc text = text
  noMark : ∀ text, WellFormed text → Without 0xfeff text → Without 0xfeff (icu.nfc text)
  space : ∀ front rest (token : Token), WellFormed front → WellFormed rest →
    tokens token.bytes = [token] → whitespace token.codePoint = true →
    ∃ image : Token, tokens image.bytes = [image] ∧
      spaceKind image.codePoint = spaceKind token.codePoint ∧
      icu.nfc (front ++ token.bytes ++ rest) = icu.nfc front ++ image.bytes ++ icu.nfc rest
  content : ∀ text, WellFormed text → text ≠ [] →
    (∀ token ∈ tokens text, whitespace token.codePoint = false) →
    icu.nfc text ≠ [] ∧ ∀ token ∈ tokens (icu.nfc text), whitespace token.codePoint = false

end Icu

/-- What separates fields are spaces, tabs and line breaks. -/
theorem separates_eq (token : Token) :
    separates token =
      decide (spaceKind token.codePoint ≠ none ∧ spaceKind token.codePoint ≠ some .other) := by
  unfold separates spaceKind
  split
  next hspace => simp [hspace]
  split
  next htab => simp [htab]
  split
  next hbreak => simp [hbreak]
  split
  next hspace htab hbreak _ => simp [hspace, htab, hbreak]
  next hspace htab hbreak _ => simp [hspace, htab, hbreak]

theorem spaceKind_eq_none {codePoint : CodePoint} :
    spaceKind codePoint = none ↔ whitespace codePoint = false := by
  unfold spaceKind
  split
  next hspace => simp [hspace, whitespace]
  split
  next htab => simp [htab, whitespace]
  split
  next hbreak =>
    have hwhite : whitespace codePoint = true :=
      isWhite_of_separates ⟨codePoint, []⟩ (by simp [separates, hbreak])
    simp [hwhite]
  split
  next hwhite => simp [hwhite]
  next hwhite => simpa using hwhite

theorem eq_space_of_spaceKind {codePoint : CodePoint} (hkind : spaceKind codePoint = some .space) :
    codePoint = 0x20 := by
  unfold spaceKind at hkind
  split at hkind
  next hspace => exact hspace
  repeat (split at hkind; next => exact absurd hkind (by simp))
  exact absurd hkind (by simp)

theorem areCodePoints_intercalate {parts : List (List Token)}
    (hparts : ∀ part ∈ parts, AreCodePoints part) :
    AreCodePoints ([blankToken].intercalate parts) := by
  intro token htoken
  rcases mem_intercalate htoken with rfl | ⟨part, hpart, hmem⟩
  · exact ⟨tokens_blankToken, by decide⟩
  · exact hparts part hpart token hmem

section Nfc

variable {icu : Icu} (hnfc : icu.KeepsWhiteSpace)
include hnfc

/-- Normal form C is made of code points. -/
theorem areCodePoints_nfc {list : List Token} (hlist : AreCodePoints list) :
    AreCodePoints (tokens (icu.nfc (tokenBytes list))) :=
  (hnfc.wellFormed _ (wellFormed_tokenBytes hlist)).areCodePoints

/-- White space inside of a text divides it. -/
theorem nfc_split {front rest : List Token} {token : Token}
    (hlist : AreCodePoints (front ++ token :: rest)) (hwhite : isWhite token = true) :
    ∃ image : Token, separates image = separates token ∧ (token = blankToken → image = blankToken) ∧
      icu.nfc (tokenBytes (front ++ token :: rest)) =
        icu.nfc (tokenBytes front) ++ image.bytes ++ icu.nfc (tokenBytes rest) ∧
      tokens (icu.nfc (tokenBytes (front ++ token :: rest))) =
        tokens (icu.nfc (tokenBytes front)) ++ image :: tokens (icu.nfc (tokenBytes rest)) := by
  obtain ⟨hfront, hothers⟩ := List.forall_mem_append.mp hlist
  obtain ⟨htoken, hrest⟩ := List.forall_mem_cons.mp hothers
  obtain ⟨image, himage, hkind, hsplit⟩ := hnfc.space (tokenBytes front) (tokenBytes rest) token
    (wellFormed_tokenBytes hfront) (wellFormed_tokenBytes hrest) htoken.1 hwhite
  have hcomplete : image.codePoint ≠ sentinel := by
    intro hill
    rw [hill] at hkind
    rw [isWhite, spaceKind_eq_none.mp (hkind.symm.trans (by decide))] at hwhite
    exact absurd hwhite (by simp)
  have hbytes : tokenBytes (front ++ token :: rest) =
      tokenBytes front ++ token.bytes ++ tokenBytes rest := by
    rw [tokenBytes_append, tokenBytes_cons, List.append_assoc]
  have hread : tokenBytes (tokens (icu.nfc (tokenBytes front))) = icu.nfc (tokenBytes front) :=
    tokenBytes_tokens _
  refine ⟨image, ?_, ?_, ?_, ?_⟩
  · rw [separates_eq, separates_eq, hkind]
  · rintro rfl
    have hspace : image.codePoint = 0x20 := eq_space_of_spaceKind (hkind.trans (by decide))
    exact eq_of_codePoint himage tokens_blankToken hcomplete hspace
  · rw [hbytes, hsplit]
  · rw [hbytes, hsplit, List.append_assoc, ← hread,
      tokens_append_codePoints (areCodePoints_nfc hnfc hfront),
      tokens_append_of_complete himage hcomplete, hread]

/-- Normal form C keeps what is not white space, and no more. -/
theorem keeps_nfc {list : List Token} (hlist : AreCodePoints list) :
    Keeps separates isWhite list (tokens (icu.nfc (tokenBytes list))) := by
  induction hlength : list.length using Nat.strong_induction_on generalizing list with
  | h length ih =>
      by_cases hwhite : ∃ token ∈ list, isWhite token = true
      · obtain ⟨token, hmem, hwhite⟩ := hwhite
        obtain ⟨front, rest, rfl⟩ := List.append_of_mem hmem
        obtain ⟨hfront, hothers⟩ := List.forall_mem_append.mp hlist
        obtain ⟨image, hseparates, -, -, htokens⟩ := nfc_split hnfc hlist hwhite
        rw [List.length_append, List.length_cons] at hlength
        rw [htokens]
        apply Keeps.join _ _ hwhite
        · intro hspace
          rw [hseparates, hspace]
        · exact ih front.length (by omega) hfront rfl
        · exact ih rest.length (by omega) (List.forall_mem_cons.mp hothers).2 rfl
      · have hcontent : ∀ token ∈ list, isWhite token = false :=
          fun token hmem => Bool.eq_false_iff.mpr fun htrue => hwhite ⟨token, hmem, htrue⟩
        cases list with
        | nil =>
            rw [tokenBytes_nil, hnfc.ascii [] rfl, tokens_nil]
            exact keeps_of_content isWhite_of_separates id (by simp)
        | cons first rest =>
            have hread := tokens_tokenBytes hlist
            have hne : tokenBytes (first :: rest) ≠ [] := by
              intro hnil
              rw [hnil, tokens_nil] at hread
              exact absurd hread (by simp)
            obtain ⟨himage, hnone⟩ := hnfc.content _ (wellFormed_tokenBytes hlist) hne (by
              rw [hread]
              exact hcontent)
            apply keeps_of_content isWhite_of_separates _ hnone
            exact fun _ hnil => himage (tokens_eq_nil.mp hnil)

/-- The blanks between some fields stay. -/
theorem nfc_intercalate {parts : List (List Token)} (hparts : ∀ part ∈ parts, AreCodePoints part) :
    icu.nfc (tokenBytes ([blankToken].intercalate parts)) =
      [0x20].intercalate (parts.map fun part => icu.nfc (tokenBytes part)) := by
  induction parts with
  | nil => exact hnfc.ascii [] rfl
  | cons part rest ih =>
      rw [List.forall_mem_cons] at hparts
      cases rest with
      | nil => rw [List.intercalate_singleton, List.map_singleton, List.intercalate_singleton]
      | cons next rest =>
          have hlist : AreCodePoints
              (part ++ blankToken :: [blankToken].intercalate (next :: rest)) := by
            apply hparts.1.append
            rw [AreCodePoints, List.forall_mem_cons]
            exact ⟨⟨tokens_blankToken, by decide⟩, areCodePoints_intercalate hparts.2⟩
          obtain ⟨image, -, himage, hsplit, -⟩ := nfc_split hnfc hlist (by decide)
          rw [List.intercalate_cons_cons, List.append_assoc, List.singleton_append, hsplit,
            himage rfl, ih hparts.2]
          simp only [List.map_cons, List.intercalate_cons_cons]
          rfl

end Nfc

/-! ## Preparing -/

/-- The NFC of the fields of a text, with single blanks between them. -/
def normalized (icu : Icu) (text : List UInt8) : List UInt8 :=
  [0x20].intercalate ((contentFields text).map icu.nfc)

/-- A view of text that may be wrapped. -/
structure Readable (source : StringView) : Prop where
  notNa : source.isNa = false
  valid : ¬ (source.len < 0 ∨ (source.isNull ∧ source.len ≠ 0))
  utf8 : isUtf8 source = true

section Normalized

variable {icu : Icu} (hnfc : icu.KeepsWhiteSpace) {text : List UInt8}

theorem areCodePoints_fields (hcodes : AreCodePoints (tokens text)) :
    ∀ field ∈ fields separates (Fields.trim isWhite (tokens text)), AreCodePoints field := by
  intro field hfield token htoken
  exact hcodes token (mem_of_mem_trim ((mem_fields hfield).2 token htoken).2)

/-- The joined fields are well formed. -/
theorem wellFormed_fields (hcodes : AreCodePoints (tokens text)) :
    WellFormed ([0x20].intercalate (contentFields text)) := by
  rw [contentFields, ← tokenBytes_intercalate]
  exact wellFormed_tokenBytes (areCodePoints_intercalate (areCodePoints_fields hcodes))

theorem tokens_fields (hcodes : AreCodePoints (tokens text)) :
    tokens ([0x20].intercalate (contentFields text)) =
      [blankToken].intercalate (fields separates (Fields.trim isWhite (tokens text))) := by
  rw [contentFields, ← tokenBytes_intercalate]
  exact tokens_tokenBytes (areCodePoints_intercalate (areCodePoints_fields hcodes))

theorem without_fields (hcodes : AreCodePoints (tokens text)) (hmark : Without 0xfeff text) :
    Without 0xfeff ([0x20].intercalate (contentFields text)) := by
  intro token htoken
  rw [tokens_fields hcodes] at htoken
  rcases mem_intercalate htoken with rfl | ⟨field, hfield, hmem⟩
  · decide
  · exact hmark token (mem_of_mem_trim ((mem_fields hfield).2 token hmem).2)

include hnfc

/-- The fields may be normalized one by one. -/
theorem normalized_eq (hcodes : AreCodePoints (tokens text)) :
    normalized icu text = icu.nfc ([0x20].intercalate (contentFields text)) := by
  rw [normalized, contentFields, ← tokenBytes_intercalate,
    nfc_intercalate hnfc (areCodePoints_fields hcodes), List.map_map]
  rfl

/-- The normalized text has the fields in normal form, with blanks between. -/
theorem tokens_normalized (hcodes : AreCodePoints (tokens text)) :
    tokens (normalized icu text) = [blankToken].intercalate
      ((fields separates (Fields.trim isWhite (tokens text))).map
        fun field => tokens (icu.nfc (tokenBytes field))) := by
  have hread : tokenBytes ([blankToken].intercalate
      ((fields separates (Fields.trim isWhite (tokens text))).map
        fun field => tokens (icu.nfc (tokenBytes field)))) = normalized icu text := by
    rw [tokenBytes_intercalate, List.map_map, normalized, contentFields, List.map_map]
    congr 2
    ext1 field
    exact tokenBytes_tokens _
  rw [← hread, tokens_tokenBytes]
  apply areCodePoints_intercalate
  intro part hpart
  obtain ⟨field, hfield, rfl⟩ := List.mem_map.mp hpart
  exact areCodePoints_nfc hnfc (areCodePoints_fields hcodes field hfield)

/-- A prepared record is in normal form. -/
theorem normal_normalized (hcodes : AreCodePoints (tokens text)) :
    Normal separates isWhite blankToken (tokens (normalized icu text)) := by
  rw [tokens_normalized hnfc hcodes]
  apply normal_intercalate isWhite_of_separates white_head?_trim white_getLast?_trim
  intro field hfield
  exact keeps_nfc hnfc (areCodePoints_fields hcodes field hfield)

/-- The normalized text is well formed. -/
theorem wellFormed_normalized (hcodes : AreCodePoints (tokens text)) :
    WellFormed (normalized icu text) := by
  rw [normalized_eq hnfc hcodes]
  exact hnfc.wellFormed _ (wellFormed_fields hcodes)

/-- A normalized text has no byte order mark. -/
theorem without_normalized (hcodes : AreCodePoints (tokens text)) (hmark : Without 0xfeff text) :
    Without 0xfeff (normalized icu text) := by
  rw [normalized_eq hnfc hcodes]
  exact hnfc.noMark _ (wellFormed_fields hcodes) (without_fields hcodes hmark)

/-- Normalizing once is enough. -/
theorem normalized_normalized (hcodes : AreCodePoints (tokens text)) :
    normalized icu (normalized icu text) = normalized icu text := by
  have hnormal := normal_normalized hnfc hcodes
  have hlist := (wellFormed_normalized hnfc hcodes).areCodePoints
  rw [normalized_eq hnfc hlist, ← trim_prepared hlist, trim_eq (areCodePoints_collapse hlist false),
    hnormal.trim_collapse, tokenBytes_tokens, normalized_eq hnfc hcodes,
    hnfc.idempotent _ (wellFormed_fields hcodes)]

/-- The error of a normalized text that would not fit in an R string. -/
def normalizedTooLong : NativeError :=
  .lengthError "normalized string exceeds R's string length limit"

/-- The prepared record is the normalized text, if it fits. -/
theorem prepareRecord_eq {source : StringView} (hsource : Readable source)
    (hwell : WellFormed source.bytes) (hmark : Without 0xfeff source.bytes) :
    prepareRecord icu true source =
      if (normalized icu source.bytes).length ≤ intMax then
        .ok ⟨normalized icu source.bytes, isAscii (normalized icu source.bytes)⟩
      else .error (.thrown normalizedTooLong) := by
  have hcodes := hwell.areCodePoints
  have hstart : skipBoms source.bytes 3 0 = 0 := by
    rw [skipBoms, hasBomAt, List.drop_zero, hmark.hasBom, if_neg (by simp)]
  have hloop := @prepareLoop_eq source.bytes source.bytes.length 0 (by omega)
    hcodes hmark true false []
  rw [List.nil_append, List.drop_zero] at hloop
  have hshort := prepareLoop_length hloop
  have htrim := length_trim_le
    (tokenBytes (collapse separates blankToken false (tokens source.bytes)))
  rw [trim_prepared hcodes] at htrim
  unfold prepareRecord
  rw [if_neg (by simp [hsource.notNa]), if_neg hsource.valid, if_neg (by simp [hsource.utf8]),
    if_neg (by simp)]
  simp only [hstart, decide_true, hloop, trim_prepared hcodes]
  split
  next hascii =>
    -- ASCII text is not looked up, and is in NFC
    have hsame : normalized icu source.bytes = [0x20].intercalate (contentFields source.bytes) := by
      rw [normalized_eq hnfc hcodes, hnfc.ascii _ hascii]
    have hlimit := length_bytes_le_intMax source
    rw [hsame, hascii, if_pos]
    rw [List.length_nil, Nat.zero_add] at hshort
    exact htrim.trans (hshort.trans ((Nat.sub_le _ _).trans hlimit))
  next =>
    have hbom : hasBom (icu.nfc ([0x20].intercalate (contentFields source.bytes))) = false := by
      rw [← normalized_eq hnfc hcodes]
      exact (without_normalized hnfc hcodes hmark).hasBom
    rw [if_neg (by simp [hnfc.works _ (wellFormed_fields hcodes)]), normalized_eq hnfc hcodes]
    change (if (icu.nfc _).length > intMax then _ else _) = _
    by_cases hroom : (icu.nfc ([0x20].intercalate (contentFields source.bytes))).length ≤ intMax
    · rw [if_pos hroom, if_neg (Nat.not_lt.mpr hroom), ← Icu.nfc, hbom, if_neg (by simp)]
    · rw [if_neg hroom, if_pos (Nat.not_le.mp hroom)]
      rfl

end Normalized

/-! ## Line breaks in words -/

section Newlines

variable {Cost : Type} (icu : Icu) (options : Options Cost)

/-- The error is only raised at a line break. -/
theorem wordLoop_newlineFound {text : List UInt8} {fuel cursor : Nat} {scan : WordScan}
    (hloop : wordLoop icu text fuel cursor scan = .error newlineFound) :
    ∃ index < text.length, linebreak (next text index).1 = true := by
  induction fuel generalizing cursor scan with
  | zero => exact absurd hloop (by simp [wordLoop])
  | succ fuel ih =>
      rw [wordLoop] at hloop
      split at hloop
      next hlt =>
        simp only at hloop
        split at hloop
        next => exact absurd hloop (by simp [invalidUtf8, newlineFound])
        split at hloop
        next hbreak => exact ⟨cursor, hlt, hbreak⟩
        split at hloop
        next => exact ih hloop
        next => exact ih hloop
      next => exact absurd hloop (by simp)

/-- A line break that is found in a word is one of the record. -/
theorem addWord_newlineFound {data : List UInt8} {start stop : Nat}
    (hword : addWord icu options data start stop = .error newlineFound) :
    ∃ token ∈ tokens data, linebreak token.codePoint = true := by
  rw [addWord] at hword
  have hloop : wordLoop icu (data.take stop) (stop - start) start ⟨0, 0, 0, 0, start, 0, true⟩ =
      .error newlineFound := by
    cases hscan : wordLoop icu (data.take stop) (stop - start) start
        ⟨0, 0, 0, 0, start, 0, true⟩ with
    | error error =>
        rw [hscan] at hword
        exact congrArg _ (Except.error.inj hword)
    | ok scan =>
        rw [hscan] at hword
        cases hword
  obtain ⟨index, hindex, hbreak⟩ := wordLoop_newlineFound icu hloop
  have hcomplete : (next (data.take stop) index).1 ≠ sentinel := by
    intro hill
    rw [hill] at hbreak
    exact absurd hbreak (by decide)
  obtain ⟨token, hmem, hread⟩ := mem_tokens_of_next hindex hcomplete
  exact ⟨token, hmem, hread ▸ hbreak⟩

end Newlines

/-- With normalization on, a record is the NFC of the fields of its text, joined by single
blanks, unless it would be too long for a string of R. Such a record is prepared already,
and no line break is found in any of its words. -/
theorem prepareRecord_normal_form {icu : Icu} (hnfc : icu.KeepsWhiteSpace) {source : StringView}
    (hsource : Readable source) (hwell : WellFormed source.bytes)
    (hmark : Without 0xfeff source.bytes) :
    (intMax < (normalized icu source.bytes).length →
      prepareRecord icu true source = .error (.thrown normalizedTooLong)) ∧
    ((normalized icu source.bytes).length ≤ intMax →
      ∃ record, prepareRecord icu true source = .ok record ∧
        record.data = normalized icu source.bytes ∧
        (∀ token ∈ tokens record.data,
          linebreak token.codePoint = false ∧ token.codePoint ≠ 0x09) ∧
        (tokens record.data).IsChain (fun token next =>
          ¬ (token.codePoint = 0x20 ∧ next.codePoint = 0x20)) ∧
        (∀ first ∈ (tokens record.data).head?, whitespace first.codePoint = false) ∧
        (∀ last ∈ (tokens record.data).getLast?, whitespace last.codePoint = false) ∧
        (∀ again, Readable again → again.bytes = record.data →
          prepareRecord icu true again = .ok record) ∧
        ∀ (Cost : Type) (options : Options Cost) (start stop : Nat),
          addWord icu options record.data start stop ≠ .error newlineFound) := by
  have hcodes := hwell.areCodePoints
  have hprepared := prepareRecord_eq hnfc hsource hwell hmark
  have hnormal := normal_normalized hnfc hcodes
  refine ⟨fun hlong => hprepared.trans (if_neg (Nat.not_le.mpr hlong)), ?_⟩
  intro hshort
  rw [if_pos hshort] at hprepared
  -- a separator of the normal form is the blank itself
  have hclean : ∀ token ∈ tokens (normalized icu source.bytes),
      linebreak token.codePoint = false ∧ token.codePoint ≠ 0x09 := by
    intro token htoken
    have hblank : separates token = true → token.codePoint = 0x20 :=
      fun hseparates => congrArg Token.codePoint (hnormal.blanks token htoken hseparates)
    constructor
    · apply Bool.eq_false_iff.mpr
      intro hbreak
      rw [hblank (by simp [separates, hbreak])] at hbreak
      exact absurd hbreak (by decide)
    · intro htab
      have hspace := hblank (by simp [separates, htab])
      rw [htab] at hspace
      exact absurd hspace (by decide)
  refine ⟨_, hprepared, rfl, hclean, ?_, hnormal.first, hnormal.last, ?_, ?_⟩
  · apply hnormal.single.imp
    rintro token next hsingle ⟨htoken, hnext⟩
    exact hsingle ⟨by simp [separates, htoken], by simp [separates, hnext]⟩
  -- idempotence
  · intro again hagain hbytes
    have hsame : normalized icu again.bytes = normalized icu source.bytes := by
      rw [hbytes, normalized_normalized hnfc hcodes]
    rw [prepareRecord_eq hnfc hagain, hsame, if_pos hshort]
    · rw [hbytes]
      exact wellFormed_normalized hnfc hcodes
    · rw [hbytes]
      exact without_normalized hnfc hcodes hmark
  · intro Cost options start stop hword
    obtain ⟨token, htoken, hbreak⟩ := addWord_newlineFound icu options hword
    rw [(hclean token htoken).1] at hbreak
    exact absurd hbreak (by simp)

theorem asciiIcu_keepsWhiteSpace : asciiIcu.KeepsWhiteSpace where
  works _ _ := rfl
  wellFormed _ hwell := hwell
  idempotent _ _ := rfl
  ascii _ _ := rfl
  noMark _ _ hmark := hmark
  space _ _ token _ _ htoken _ := ⟨token, htoken, rfl, rfl⟩
  content _ _ hne hcontent := ⟨hne, hcontent⟩

/-- `a`, a blank, a tab, `é` and a line break. -/
def mixedTokens : List Token :=
  [⟨0x61, [0x61]⟩, blankToken, ⟨0x09, [0x09]⟩, ⟨0xe9, [0xc3, 0xa9]⟩, ⟨0x0a, [0x0a]⟩]

theorem areCodePoints_mixedTokens : AreCodePoints mixedTokens := by
  have hnext : ∀ token ∈ mixedTokens, token.bytes ≠ [] ∧
      next token.bytes 0 = (token.codePoint, token.bytes.length) ∧ token.codePoint ≠ sentinel := by
    decide
  intro token htoken
  obtain ⟨hne, hread, hcomplete⟩ := hnext token htoken
  exact ⟨tokens_of_next token hne hread, hcomplete⟩

/-- One blank is left. -/
theorem prepareRecord_normal_form_mixed :
    let source : StringView :=
      ⟨.bytes ⟨8, [0x61, 0x20, 0x09, 0xc3, 0xa9, 0x0a], by decide⟩, .utf8⟩
    prepareRecord asciiIcu true source = .ok ⟨[0x61, 0x20, 0xc3, 0xa9], false⟩ ∧
      normalized asciiIcu source.bytes = [0x61, 0x20, 0xc3, 0xa9] ∧
      ∀ (options : Options Int) (start stop : Nat),
        addWord asciiIcu options [0x61, 0x20, 0xc3, 0xa9] start stop ≠ .error newlineFound := by
  intro source
  have hrecord : prepareRecord asciiIcu true source = .ok ⟨[0x61, 0x20, 0xc3, 0xa9], false⟩ := by
    decide
  have hbytes : source.bytes = tokenBytes mixedTokens := by decide
  have hmark : Without 0xfeff source.bytes := by
    rw [hbytes, Without, tokens_tokenBytes areCodePoints_mixedTokens]
    decide
  obtain ⟨hlong, hshort⟩ := @prepareRecord_normal_form asciiIcu asciiIcu_keepsWhiteSpace source
    ⟨by decide, by decide, by decide⟩
    (hbytes ▸ wellFormed_tokenBytes areCodePoints_mixedTokens) hmark
  rcases Nat.lt_or_ge intMax (normalized asciiIcu source.bytes).length with hlt | hle
  · rw [hlong hlt] at hrecord
    cases hrecord
  · obtain ⟨record, hprepared, hdata, -, -, -, -, -, hwords⟩ := hshort hle
    obtain rfl := Except.ok.inj (hprepared.symm.trans hrecord)
    exact ⟨hrecord, hdata.symm, fun options => hwords Int options⟩

end Charr.Wrap
