import Charr.Text.StringView
import Charr.Text.Tokens

/-!
# Splitting text into lines

`scan_utf8` runs once over a byte string and records the slices between the
newline code points and the ill-formed subsequences. Beside the loop stands what
a text split into lines is: lines without newlines, each with its terminator, and
what is left behind the last one.
-/

namespace Charr.Lines

open Utf8 (CodePoint byteAt next sentinel Token tokens tokenBytes)

/-- A line of the data: where it begins, its length, and whether it is ASCII. -/
structure LineSlice where
  begin : Nat
  length : Nat
  ascii : Bool
  deriving DecidableEq, Repr

/-- A range of the data that is not UTF-8. -/
structure InvalidSequence where
  begin : Int
  length : Int
  deriving DecidableEq, Repr

/-- What a scan finds: the lines, the ill-formed ranges, and whether there is a NUL. -/
structure ScanResult where
  lines : List LineSlice
  invalid : List InvalidSequence
  embeddedNul : Bool
  deriving DecidableEq, Repr

/-! ## The scan -/

/-- The result so far, and the line the scan is in. -/
structure Scan where
  result : ScanResult
  lineBegin : Nat
  lineAscii : Bool
  pendingLine : Bool
  deriving DecidableEq, Repr

/-- A scan at the start of an ASCII line. -/
def Scan.initial : Scan := ⟨⟨[], [], false⟩, 0, true, true⟩

/-- ASCII behind the last ASCII newline. -/
def isPlain (byte : Nat) : Bool := 0x0d < byte && byte < 0x80

/-- The first byte from `i` on that is not plain. -/
def skipPlain (data : List UInt8) : Nat → Nat → Nat
  | 0, i => i
  | fuel + 1, i =>
      if i < data.length && isPlain (byteAt data i) then skipPlain data fuel (i + 1) else i

section Step

variable (data : List UInt8) (omitEmpty : Bool)

/-- Push the line from its begin up to `stop`. -/
def pushLine (stop : Nat) (scan : Scan) : ScanResult :=
  if !omitEmpty || 0 < stop - scan.lineBegin then
    { scan.result with
      lines := scan.result.lines ++
        [⟨scan.lineBegin, stop - scan.lineBegin, scan.lineAscii⟩] }
  else scan.result

/-- A newline at `codepointBegin`, and the scan goes on at `i`. -/
def endLine (codepointBegin i : Nat) (scan : Scan) : Scan where
  result := pushLine omitEmpty codepointBegin scan
  lineBegin := i
  lineAscii := true
  pendingLine := i < data.length

/-- What the scan does with a code point, and where it goes on. -/
def scanCodePoint (codepoint : CodePoint) (codepointBegin i : Nat) (scan : Scan) : Nat × Scan :=
  if codepoint = 0 then (i, { scan with result := { scan.result with embeddedNul := true } })
  else if codepoint = 0x0d then
    let i := if i < data.length && byteAt data i = 0x0a then i + 1 else i
    (i, endLine data omitEmpty codepointBegin i scan)
  else if codepoint = 0x0a || codepoint = 0x0b || codepoint = 0x0c || codepoint = 0x85 ||
      codepoint = 0x2028 || codepoint = 0x2029 then
    (i, endLine data omitEmpty codepointBegin i scan)
  else if codepoint > 0x7f then (i, { scan with lineAscii := false })
  else (i, scan)

/-- Note an ill-formed sequence, of which the scan passes one byte at least. -/
def scanInvalid (codepointBegin i : Nat) (scan : Scan) : Nat × Scan :=
  let stop := if i ≤ codepointBegin then codepointBegin + 1 else i
  (stop, { scan with
    result := { scan.result with
      invalid := scan.result.invalid ++ [⟨codepointBegin, (stop - codepointBegin : Nat)⟩] }
    lineAscii := false })

/-- One round of the loop at `i`. -/
def scanStep (i : Nat) (scan : Scan) : Nat × Scan :=
  let first := byteAt data i
  if isPlain first then (skipPlain data data.length (i + 1), scan)
  else if first < 0x80 then scanCodePoint data omitEmpty first i (i + 1) scan
  else if (next data i).1 < 0 then scanInvalid i (next data i).2 scan
  else scanCodePoint data omitEmpty (next data i).1 i (next data i).2 scan

/-- The steps of the scan up to the end of the data. -/
def scanLoop : Nat → Nat → Scan → Scan
  | 0, _, scan => scan
  | fuel + 1, i, scan =>
      if i < data.length then
        scanLoop fuel (scanStep data omitEmpty i scan).1 (scanStep data omitEmpty i scan).2
      else scan

/-- The scan of the data, with the line that is still open at its end. -/
def scanBytes (keepTrailingEmpty : Bool) : ScanResult :=
  let scan := scanLoop data omitEmpty data.length 0 Scan.initial
  if scan.pendingLine || (keepTrailingEmpty && !omitEmpty) then
    pushLine omitEmpty data.length scan
  else scan.result

end Step

/-- `scan_utf8` on a pointer and the length of the bytes behind it. -/
def scanUtf8 (data : Option (List UInt8)) (length : Int) (omitEmpty keepTrailingEmpty : Bool) :
    Except NativeError ScanResult :=
  if length < 0 || (data.isNone && length ≠ 0) then
    .error (.invalidArgument "invalid UTF-8 byte view")
  else .ok (scanBytes ((data.getD []).take length.toNat) omitEmpty keepTrailingEmpty)

/-! ## Lines and terminators -/

/-- The code points that end a line; a carriage return and the line feed behind it end one line. -/
def isNewline (codePoint : CodePoint) : Bool :=
  codePoint ∈ [0x0a, 0x0b, 0x0c, 0x0d, 0x85, 0x2028, 0x2029]

/-- Text in which a loop over `U8_NEXT` meets no newline. -/
def NewlineFree (text : List UInt8) : Prop :=
  ∀ token ∈ tokens text, isNewline token.codePoint = false

/-- The encodings of the newlines. -/
def terminators : List (List UInt8) :=
  [[0x0a], [0x0b], [0x0c], [0x0d], [0x0d, 0x0a], [0xc2, 0x85], [0xe2, 0x80, 0xa8],
    [0xe2, 0x80, 0xa9]]

/-- A line and its terminator. -/
abbrev Piece := List UInt8 × List UInt8

/-- Text as lines with their terminators, and what follows the last of them. A
carriage return takes a line feed behind it along. -/
inductive Splits : List UInt8 → List Piece → List UInt8 → Prop where
  | last {line : List UInt8} (hfree : NewlineFree line) : Splits line [] line
  | line {line terminator rest : List UInt8} {pieces : List Piece} {last : List UInt8}
      (hfree : NewlineFree line) (hterminator : terminator ∈ terminators)
      (hreturn : terminator = [0x0d] → rest.head? ≠ some 0x0a)
      (hrest : Splits rest pieces last) :
      Splits (line ++ terminator ++ rest) ((line, terminator) :: pieces) last

/-- Whether a line is marked ASCII. -/
def isAscii (line : List UInt8) : Bool := line.all fun byte => byte < 0x80

/-- The slice of a line that starts at `begin`. -/
def sliceOf (begin : Nat) (line : List UInt8) : LineSlice := ⟨begin, line.length, isAscii line⟩

/-- The slices of lines that stand one after another. -/
def slicesFrom : Nat → List Piece → List LineSlice
  | _, [] => []
  | begin, (line, terminator) :: pieces =>
      sliceOf begin line :: slicesFrom (begin + line.length + terminator.length) pieces

/-- The ill-formed subsequences among tokens that start at `begin`. -/
def illFormed : Nat → List Token → List InvalidSequence
  | _, [] => []
  | begin, token :: rest =>
      if token.codePoint = sentinel then
        ⟨begin, token.bytes.length⟩ :: illFormed (begin + token.bytes.length) rest
      else illFormed (begin + token.bytes.length) rest

/-- The bytes of a slice. -/
def sliceBytes (data : List UInt8) (slice : LineSlice) : List UInt8 :=
  (data.drop slice.begin).take slice.length

/-- The ill-formed ranges of a front and of the rest. -/
theorem illFormed_append (begin : Nat) (front rest : List Token) :
    illFormed begin (front ++ rest) =
      illFormed begin front ++ illFormed (begin + (tokenBytes front).length) rest := by
  induction front generalizing begin with
  | nil => rfl
  | cons token front ih =>
      rw [List.cons_append, illFormed, illFormed, ih, Utf8.tokenBytes_cons, List.length_append,
        ← Nat.add_assoc]
      split <;> rfl

theorem illFormed_eq_nil {tokens : List Token} (begin : Nat)
    (hcomplete : ∀ token ∈ tokens, token.codePoint ≠ sentinel) : illFormed begin tokens = [] := by
  induction tokens generalizing begin with
  | nil => rfl
  | cons token tokens ih =>
      rw [illFormed, if_neg (hcomplete token List.mem_cons_self)]
      exact ih _ fun other hmem => hcomplete other (List.mem_cons_of_mem _ hmem)

/-! ### The terminators as tokens -/

/-- The newlines as tokens. -/
def newlineTokens : List Token :=
  [⟨0x0a, [0x0a]⟩, ⟨0x0b, [0x0b]⟩, ⟨0x0c, [0x0c]⟩, ⟨0x0d, [0x0d]⟩, ⟨0x85, [0xc2, 0x85]⟩,
    ⟨0x2028, [0xe2, 0x80, 0xa8]⟩, ⟨0x2029, [0xe2, 0x80, 0xa9]⟩]

/-- A newline is one token. -/
theorem tokens_of_mem_newlineTokens {token : Token} (hmem : token ∈ newlineTokens) :
    tokens token.bytes = [token] := by
  have hnext : ∀ newline ∈ newlineTokens, newline.bytes ≠ [] ∧
      next newline.bytes 0 = (newline.codePoint, newline.bytes.length) := by decide
  exact Utf8.tokens_of_next token (hnext token hmem).1 (hnext token hmem).2

/-- A newline is read from one of its sequences. -/
theorem mem_newlineTokens {token : Token} (htoken : tokens token.bytes = [token])
    (hnewline : isNewline token.codePoint = true) : token ∈ newlineTokens := by
  have hcomplete : token.codePoint ≠ sentinel := by
    intro hill
    rw [hill] at hnewline
    exact absurd hnewline (by decide)
  have hcodePoint : token.codePoint ∈ newlineTokens.map Token.codePoint :=
    of_decide_eq_true hnewline
  obtain ⟨newline, hmem, heq⟩ := List.mem_map.mp hcodePoint
  rwa [Utf8.eq_of_codePoint htoken (tokens_of_mem_newlineTokens hmem) hcomplete heq.symm]

/-- A newline by itself is a terminator. -/
theorem bytes_mem_terminators {token : Token} (hmem : token ∈ newlineTokens) :
    token.bytes ∈ terminators := by
  revert token
  decide

/-- A terminator is read as itself, whatever comes behind it. -/
theorem tokens_terminator {terminator : List UInt8} (hterminator : terminator ∈ terminators) :
    ∃ newline more, (∀ token ∈ newline :: more, token ∈ newlineTokens) ∧
      tokenBytes (newline :: more) = terminator ∧
      ∀ rest, tokens (terminator ++ rest) = newline :: (more ++ tokens rest) := by
  have hone : ∀ newline ∈ newlineTokens, ∀ rest,
      tokens (newline.bytes ++ rest) = newline :: tokens rest := by
    intro newline hmem rest
    have hcomplete : ∀ token ∈ newlineTokens, token.codePoint ≠ sentinel := by decide
    exact Utf8.tokens_append_of_complete (tokens_of_mem_newlineTokens hmem)
      (hcomplete newline hmem) rest
  have hcases : ∀ text ∈ terminators, (∃ newline ∈ newlineTokens, newline.bytes = text) ∨
      text = [0x0d, 0x0a] := by decide
  rcases hcases terminator hterminator with ⟨newline, hmem, rfl⟩ | rfl
  · exact ⟨newline, [], by simpa using hmem, by simp, hone newline hmem⟩
  · refine ⟨⟨0x0d, [0x0d]⟩, [⟨0x0a, [0x0a]⟩], by decide, rfl, ?_⟩
    intro rest
    have hreturn := hone ⟨0x0d, [0x0d]⟩ (by decide) (0x0a :: rest)
    have hfeed := hone ⟨0x0a, [0x0a]⟩ (by decide) rest
    simp only [List.cons_append, List.nil_append] at hreturn hfeed ⊢
    rw [hreturn, hfeed]

theorem not_isTrail_terminator {terminator : List UInt8} (hterminator : terminator ∈ terminators)
    (rest : List UInt8) :
    ∀ byte ∈ (terminator ++ rest).head?, Utf8.isTrail byte.toNat = false := by
  have hhead : ∀ text ∈ terminators, ∃ byte ∈ text.head?, Utf8.isTrail byte.toNat = false := by
    decide
  obtain ⟨byte, hbyte, htrail⟩ := hhead terminator hterminator
  obtain ⟨tail, rfl⟩ : ∃ tail, terminator = byte :: tail := by
    cases terminator with
    | nil => exact absurd hbyte (by simp)
    | cons first tail => exact ⟨tail, by rw [Option.mem_some.mp hbyte]⟩
  intro other hother
  rwa [← Option.mem_some.mp hother]

/-! ### Text splits in one way -/

/-- The lines and their terminators are the text. -/
theorem Splits.rebuild {text : List UInt8} {pieces : List Piece} {last : List UInt8}
    (hsplits : Splits text pieces last) :
    (pieces.flatMap fun piece => piece.1 ++ piece.2) ++ last = text := by
  induction hsplits with
  | last hfree => rfl
  | line hfree hterminator hreturn hrest ih =>
      rw [List.flatMap_cons, List.append_assoc, ih]

/-- No line has a newline. -/
theorem Splits.newlineFree {text : List UInt8} {pieces : List Piece} {last : List UInt8}
    (hsplits : Splits text pieces last) :
    (∀ piece ∈ pieces, NewlineFree piece.1 ∧ piece.2 ∈ terminators) ∧ NewlineFree last := by
  induction hsplits with
  | last hfree => exact ⟨by simp, hfree⟩
  | line hfree hterminator hreturn hrest ih =>
      exact ⟨List.forall_mem_cons.mpr ⟨⟨hfree, hterminator⟩, ih.1⟩, ih.2⟩

/-- A line ends at the first newline. -/
theorem line_unique {line line' tail tail' : List Token} {newline newline' : Token}
    (hfree : ∀ token ∈ line, isNewline token.codePoint = false)
    (hfree' : ∀ token ∈ line', isNewline token.codePoint = false)
    (hnewline : isNewline newline.codePoint = true)
    (hnewline' : isNewline newline'.codePoint = true)
    (heq : line ++ newline :: tail = line' ++ newline' :: tail') : line = line' := by
  induction line generalizing line' with
  | nil =>
      cases line' with
      | nil => rfl
      | cons token line' =>
          rw [List.nil_append, List.cons_append, List.cons.injEq] at heq
          rw [heq.1, hfree' token (by simp)] at hnewline
          exact absurd hnewline (by simp)
  | cons token line ih =>
      cases line' with
      | nil =>
          rw [List.nil_append, List.cons_append, List.cons.injEq] at heq
          rw [← heq.1, hfree token (by simp)] at hnewline'
          exact absurd hnewline' (by simp)
      | cons token' line' =>
          rw [List.cons_append, List.cons_append, List.cons.injEq] at heq
          rw [heq.1, ih (fun x hx => hfree x (by simp [hx])) (fun x hx => hfree' x (by simp [hx]))
            heq.2]

/-- A text begins with one terminator at most, the longest. -/
theorem terminator_unique {terminator terminator' rest rest' : List UInt8}
    (hmem : terminator ∈ terminators) (hmem' : terminator' ∈ terminators)
    (hreturn : terminator = [0x0d] → rest.head? ≠ some 0x0a)
    (hreturn' : terminator' = [0x0d] → rest'.head? ≠ some 0x0a)
    (heq : terminator ++ rest = terminator' ++ rest') : terminator = terminator' := by
  have hpairs : ∀ text ∈ terminators, ∀ text' ∈ terminators, text <+: text' →
      text = text' ∨ (text = [0x0d] ∧ text' = [0x0d, 0x0a]) := by decide
  have hleft : terminator <+: terminator ++ rest := List.prefix_append _ _
  have hright : terminator' <+: terminator ++ rest := heq ▸ List.prefix_append _ _
  rcases List.prefix_or_prefix_of_prefix hleft hright with hshort | hshort
  · rcases hpairs _ hmem _ hmem' hshort with heq' | ⟨rfl, rfl⟩
    · exact heq'
    · obtain rfl : rest = 0x0a :: rest' := by simpa using heq
      exact absurd rfl (hreturn rfl)
  · rcases hpairs _ hmem' _ hmem hshort with heq' | ⟨rfl, rfl⟩
    · exact heq'.symm
    · obtain rfl : rest' = 0x0a :: rest := by simpa using heq.symm
      exact absurd rfl (hreturn' rfl)

/-- The first terminator is the first newline among the tokens. -/
theorem tokens_line (line : List UInt8) {terminator : List UInt8}
    (hterminator : terminator ∈ terminators) (rest : List UInt8) :
    ∃ newline more, isNewline newline.codePoint = true ∧
      tokens (line ++ terminator ++ rest) = tokens line ++ newline :: (more ++ tokens rest) := by
  obtain ⟨newline, more, hmem, -, htokens⟩ := tokens_terminator hterminator
  have hnewline : ∀ token ∈ newlineTokens, isNewline token.codePoint = true := by decide
  refine ⟨newline, more, hnewline newline (hmem newline List.mem_cons_self), ?_⟩
  rw [List.append_assoc, Utf8.tokens_append (not_isTrail_terminator hterminator rest), htokens]

theorem not_newlineFree_line {line terminator rest : List UInt8}
    (hterminator : terminator ∈ terminators) : ¬ NewlineFree (line ++ terminator ++ rest) := by
  intro hfree
  obtain ⟨newline, more, hnewline, htokens⟩ := tokens_line line hterminator rest
  have hnot := hfree newline (by rw [htokens]; simp)
  rw [hnewline] at hnot
  exact absurd hnot (by simp)

/-- A text splits into lines in one way. -/
theorem Splits.unique {text : List UInt8} {pieces pieces' : List Piece} {last last' : List UInt8}
    (hsplits : Splits text pieces last) (hsplits' : Splits text pieces' last') :
    pieces = pieces' ∧ last = last' := by
  induction hsplits generalizing pieces' with
  | last hfree =>
      cases hsplits' with
      | last hfree' => exact ⟨rfl, rfl⟩
      | line _ hterminator' _ _ => exact absurd hfree (not_newlineFree_line hterminator')
  | @line line terminator rest pieces last hfree hterminator hreturn hrest ih =>
      generalize htext : line ++ terminator ++ rest = text at hsplits'
      cases hsplits' with
      | last hfree' =>
          rw [← htext] at hfree'
          exact absurd hfree' (not_newlineFree_line hterminator)
      | @line line' terminator' rest' pieces' _ hfree' hterminator' hreturn' hrest' =>
          obtain ⟨newline, more, hnewline, htokens⟩ := tokens_line line hterminator rest
          obtain ⟨newline', more', hnewline', htokens'⟩ :=
            tokens_line line' hterminator' rest'
          have hline : line = line' := by
            have hunique := line_unique hfree hfree' hnewline hnewline'
              (htokens.symm.trans ((congrArg tokens htext).trans htokens'))
            rw [← Utf8.tokenBytes_tokens line, hunique, Utf8.tokenBytes_tokens]
          subst hline
          rw [List.append_assoc, List.append_assoc, List.append_cancel_left_eq] at htext
          obtain rfl := terminator_unique hterminator hterminator' hreturn hreturn' htext
          rw [List.append_cancel_left_eq] at htext
          subst htext
          obtain ⟨rfl, rfl⟩ := ih hrest'
          exact ⟨rfl, rfl⟩

/-! ## What the loop has read -/

/-- The slices a scan keeps. -/
def keptLines (omitEmpty : Bool) (slices : List LineSlice) : List LineSlice :=
  slices.filter fun slice => !omitEmpty || 0 < slice.length

/-- Leaving out empty lines goes line by line. -/
theorem keptLines_append (omitEmpty : Bool) (left right : List LineSlice) :
    keptLines omitEmpty (left ++ right) = keptLines omitEmpty left ++ keptLines omitEmpty right :=
  List.filter_append left right

theorem pushLine_eq (omitEmpty : Bool) (stop : Nat) (scan : Scan) :
    pushLine omitEmpty stop scan =
      { scan.result with
        lines := scan.result.lines ++ keptLines omitEmpty
          [⟨scan.lineBegin, stop - scan.lineBegin, scan.lineAscii⟩] } := by
  unfold pushLine keptLines
  split
  next hkeep => simp only [List.filter_cons, List.filter_nil, hkeep, if_true]
  next hskip => simp only [List.filter_cons, List.filter_nil, hskip, Bool.false_eq_true,
      if_false, List.append_nil]

section Loop

variable {data : List UInt8} {omitEmpty : Bool}

/-- The scan stands at `i`, in a line of which it has read `line`. -/
structure Reading (data : List UInt8) (i : Nat) (scan : Scan) (line : List Token) : Prop where
  le : i ≤ data.length
  position : i = scan.lineBegin + (tokenBytes line).length
  ahead : tokens (data.drop scan.lineBegin) = line ++ tokens (data.drop i)
  free : ∀ token ∈ line, isNewline token.codePoint = false
  ascii : scan.lineAscii = isAscii (tokenBytes line)

/-- Where the scan ends up from `i`, when the text from the begin of the line on splits into
`pieces` and `last`. -/
def finalScan (data : List UInt8) (omitEmpty : Bool) (i : Nat) (scan : Scan)
    (pieces : List Piece) (last : List UInt8) : Scan where
  result :=
    { lines := scan.result.lines ++ keptLines omitEmpty (slicesFrom scan.lineBegin pieces)
      invalid := scan.result.invalid ++ illFormed i (tokens (data.drop i))
      embeddedNul :=
        scan.result.embeddedNul || (tokens (data.drop i)).any fun token => token.codePoint = 0 }
  lineBegin := data.length - last.length
  lineAscii := isAscii last
  pendingLine := if pieces = [] then scan.pendingLine else last ≠ []

/-- The scan `out` is what `scan` becomes from `i` on. -/
def Scanned (data : List UInt8) (omitEmpty : Bool) (i : Nat) (scan out : Scan) : Prop :=
  ∃ pieces last, Splits (data.drop scan.lineBegin) pieces last ∧
    out = finalScan data omitEmpty i scan pieces last

/-- At the end of the text the line is what is left. -/
theorem Reading.finish {scan : Scan} {line : List Token}
    (hreading : Reading data data.length scan line) :
    Scanned data omitEmpty data.length scan scan := by
  have hahead := hreading.ahead
  rw [List.drop_length, Utf8.tokens_nil, List.append_nil] at hahead
  have hline : data.drop scan.lineBegin = tokenBytes line := by
    rw [← hahead, Utf8.tokenBytes_tokens]
  refine ⟨[], data.drop scan.lineBegin, Splits.last ?_, ?_⟩
  · intro token hmem
    rw [hahead] at hmem
    exact hreading.free token hmem
  · have hbegin : data.length - (data.drop scan.lineBegin).length = scan.lineBegin := by
      have hle := hreading.position
      rw [List.length_drop]
      omega
    unfold finalScan
    rw [hbegin, hline, ← hreading.ascii, List.drop_length, Utf8.tokens_nil]
    simp [slicesFrom, keptLines, illFormed]

/-- What reading a token that is no newline leaves behind. -/
def absorb (i : Nat) (token : Token) (scan : Scan) : Scan :=
  { scan with
    result := { scan.result with
      invalid := scan.result.invalid ++
        (if token.codePoint = sentinel then [⟨i, token.bytes.length⟩] else [])
      embeddedNul := scan.result.embeddedNul || token.codePoint = 0 }
    lineAscii := scan.lineAscii && isAscii token.bytes }

section Token

variable {i : Nat} {token : Token} {scan : Scan} (htoken : tokens token.bytes = [token])
  (hahead : tokens (data.drop i) = token :: tokens (data.drop (i + token.bytes.length)))
  (hle : i + token.bytes.length ≤ data.length)

include hahead hle in
/-- A token that is no newline goes on with the line. -/
theorem Reading.absorb {line : List Token} (hreading : Reading data i scan line)
    (hfree : isNewline token.codePoint = false) :
    Reading data (i + token.bytes.length) (absorb i token scan) (line ++ [token]) where
  le := hle
  position := by
    have hposition := hreading.position
    simp only [Lines.absorb, Utf8.tokenBytes_append, Utf8.tokenBytes_cons, Utf8.tokenBytes_nil,
      List.append_nil, List.length_append]
    omega
  ahead := by
    change tokens (data.drop scan.lineBegin) = _
    rw [hreading.ahead, hahead, List.append_assoc]
    rfl
  free := by
    intro other hmem
    rcases List.mem_append.mp hmem with hline | hlast
    · exact hreading.free other hline
    · rw [List.mem_singleton.mp hlast]
      exact hfree
  ascii := by
    change (scan.lineAscii && isAscii token.bytes) = _
    rw [hreading.ascii]
    simp [isAscii]

include hahead in
/-- The scan goes on behind it. -/
theorem Scanned.absorb {out : Scan}
    (hscanned : Scanned data omitEmpty (i + token.bytes.length) (absorb i token scan) out) :
    Scanned data omitEmpty i scan out := by
  obtain ⟨pieces, last, hsplits, rfl⟩ := hscanned
  refine ⟨pieces, last, hsplits, ?_⟩
  unfold finalScan
  rw [hahead]
  by_cases hill : token.codePoint = sentinel
  · simp [Lines.absorb, illFormed, hill, Bool.or_assoc]
  · simp [Lines.absorb, illFormed, hill, Bool.or_assoc]

include htoken in
/-- ASCII without newlines leaves the scan as it is. -/
theorem absorb_of_plain (hplain : 0x0d < token.codePoint ∧ token.codePoint < 0x80) :
    absorb i token scan = scan := by
  have hnonneg : (0 : CodePoint) ≤ token.codePoint :=
    (by decide : (0 : CodePoint) ≤ 0x0d).trans hplain.1.le
  have hascii : isAscii token.bytes = true :=
    (Utf8.ascii_bytes_iff htoken).mpr ⟨hnonneg, Int.le_of_lt_add_one hplain.2⟩
  have hcomplete : token.codePoint ≠ sentinel := by
    intro hill
    rw [hill] at hnonneg
    exact absurd hnonneg (by decide)
  have hzero : token.codePoint ≠ 0 := by
    intro hzero
    rw [hzero] at hplain
    exact absurd hplain.1 (by decide)
  simp [absorb, hascii, hcomplete, hzero]

include htoken in
/-- An ill-formed token is noted and goes on with the line. -/
theorem scanInvalid_eq (hill : token.codePoint = sentinel) :
    scanInvalid i (i + token.bytes.length) scan =
      (i + token.bytes.length, absorb i token scan) := by
  have hpos := List.length_pos_iff.mpr (Utf8.bytes_ne_nil htoken)
  have hascii : isAscii token.bytes = false := by
    apply Bool.eq_false_iff.mpr
    intro hascii
    have hrange := (Utf8.ascii_bytes_iff htoken).mp hascii
    rw [hill] at hrange
    exact absurd hrange.1 (by decide)
  have hzero : token.codePoint ≠ 0 := by
    rw [hill]
    decide
  have hstop : ¬ i + token.bytes.length ≤ i := by omega
  simp [scanInvalid, absorb, hstop, hill, hascii, sentinel]

include htoken in
/-- A code point that is no newline goes on with the line. -/
theorem scanCodePoint_eq (hcomplete : token.codePoint ≠ sentinel)
    (hfree : isNewline token.codePoint = false) (stop : Nat) :
    scanCodePoint data omitEmpty token.codePoint i stop scan = (stop, absorb i token scan) := by
  have hnonneg := Utf8.codePoint_nonneg htoken hcomplete
  have hascii : isAscii token.bytes = decide (token.codePoint ≤ 0x7f) := by
    rw [Bool.eq_iff_iff, decide_eq_true_eq]
    exact (Utf8.ascii_bytes_iff htoken).trans (and_iff_right hnonneg)
  simp only [isNewline, List.mem_cons, List.not_mem_nil, or_false, decide_eq_false_iff_not,
    not_or] at hfree
  unfold scanCodePoint absorb
  rw [hascii]
  by_cases hzero : token.codePoint = 0
  · simp [hzero, sentinel]
  · by_cases hhigh : token.codePoint > 0x7f
    · simp [hzero, hfree, hhigh, hcomplete]
    · simp [hzero, hfree, hhigh, hcomplete, Int.not_lt.mp hhigh]

end Token

theorem next_of_single {i : Nat} (hsingle : byteAt data i < 0x80) :
    next data i = ((byteAt data i : CodePoint), i + 1) := by
  simp [next, Utf8.isSingle, hsingle]

/-- Every round but one over ASCII reads the token at `i`. -/
theorem scanStep_eq {i : Nat} {token : Token} (scan : Scan)
    (hnext : next data i = (token.codePoint, i + token.bytes.length))
    (hplain : isPlain (byteAt data i) = false) :
    scanStep data omitEmpty i scan =
      if token.codePoint < 0 then scanInvalid i (i + token.bytes.length) scan
      else scanCodePoint data omitEmpty token.codePoint i (i + token.bytes.length) scan := by
  unfold scanStep
  simp only [hplain, hnext, Bool.false_eq_true, if_false]
  by_cases hsingle : byteAt data i < 0x80
  · have hread := next_of_single hsingle
    rw [hnext, Prod.mk.injEq] at hread
    have hnonneg : ¬ token.codePoint < 0 := by
      rw [hread.1]
      exact Int.not_lt.mpr (Int.natCast_nonneg _)
    simp [hsingle, hread.1, hread.2]
  · simp [hsingle]

theorem Reading.plain (omitEmpty : Bool) {i : Nat} {scan : Scan} {line : List Token}
    (hreading : Reading data i scan line) (hi : i < data.length)
    (hplain : isPlain (byteAt data i) = true) :
    ∃ token, Reading data (i + 1) scan (line ++ [token]) ∧
      ∀ out, Scanned data omitEmpty (i + 1) scan out → Scanned data omitEmpty i scan out := by
  simp only [isPlain, Bool.and_eq_true, decide_eq_true_eq] at hplain
  obtain ⟨token, htoken, hahead, hnext, hle⟩ := Utf8.tokens_drop hi
  rw [next_of_single hplain.2, Prod.mk.injEq] at hnext
  obtain ⟨hcodePoint, hlength⟩ := hnext
  have hrange : 0x0d < token.codePoint ∧ token.codePoint < 0x80 := by
    rw [← hcodePoint]
    exact ⟨Int.ofNat_lt.mpr hplain.1, Int.ofNat_lt.mpr hplain.2⟩
  have hsame : Lines.absorb i token scan = scan := absorb_of_plain htoken hrange
  have hfree : isNewline token.codePoint = false := by
    have hrest : ∀ newline ∈ newlineTokens,
        ¬ (0x0d < newline.codePoint ∧ newline.codePoint < 0x80) := by decide
    apply Bool.eq_false_iff.mpr
    intro hnewline
    exact hrest token (mem_newlineTokens htoken hnewline) hrange
  refine ⟨token, ?_, ?_⟩
  · have hnext := hreading.absorb hahead hle hfree
    rwa [hsame, ← hlength] at hnext
  · intro out hscanned
    rw [hlength, ← hsame] at hscanned
    exact hscanned.absorb hahead

/-- Skipping ASCII reads one token for each byte. -/
theorem Reading.skipPlain (omitEmpty : Bool) (fuel : Nat) {i : Nat} {scan : Scan}
    {line : List Token} (hreading : Reading data i scan line) :
    ∃ line', Reading data (skipPlain data fuel i) scan line' ∧ i ≤ Lines.skipPlain data fuel i ∧
      ∀ out, Scanned data omitEmpty (Lines.skipPlain data fuel i) scan out →
        Scanned data omitEmpty i scan out := by
  induction fuel generalizing i line with
  | zero => exact ⟨line, hreading, Nat.le_refl _, fun _ => id⟩
  | succ fuel ih =>
      rw [Lines.skipPlain]
      split
      next hplain =>
        rw [Bool.and_eq_true, decide_eq_true_eq] at hplain
        obtain ⟨token, hnext, hback⟩ := hreading.plain omitEmpty hplain.1 hplain.2
        obtain ⟨line', hreading', hle, hout⟩ := ih hnext
        exact ⟨line', hreading', by omega, fun out hscanned => hback out (hout out hscanned)⟩
      next => exact ⟨line, hreading, Nat.le_refl _, fun _ => id⟩

/-- Whether a line feed follows. -/
theorem lookAhead_eq (data : List UInt8) (i : Nat) :
    (decide (i < data.length) && decide (byteAt data i = 0x0a)) =
      decide ((data.drop i).head? = some 0x0a) := by
  rw [List.head?_drop, Bool.eq_iff_iff, Bool.and_eq_true, decide_eq_true_eq, decide_eq_true_eq,
    decide_eq_true_eq]
  rcases Nat.lt_or_ge i data.length with hlt | hge
  · rw [List.getElem?_eq_getElem hlt, Option.some.injEq, ← UInt8.toNat_inj]
    simp [byteAt, List.getD_eq_getElem?_getD, hlt]
  · simp [Nat.not_lt.mpr hge]

/-- At a newline the scan goes on behind its terminator. -/
theorem scanCodePoint_newline (omitEmpty : Bool) {i : Nat} {token : Token} (scan : Scan)
    (htoken : tokens token.bytes = [token]) (hnewline : isNewline token.codePoint = true)
    (hbytes : data.drop i = token.bytes ++ data.drop (i + token.bytes.length)) :
    ∃ terminator ∈ terminators, 0 < terminator.length ∧
      data.drop i = terminator ++ data.drop (i + terminator.length) ∧
      (terminator = [0x0d] → (data.drop (i + terminator.length)).head? ≠ some 0x0a) ∧
      scanCodePoint data omitEmpty token.codePoint i (i + token.bytes.length) scan =
        (i + terminator.length, endLine data omitEmpty i (i + terminator.length) scan) := by
  have hmem := mem_newlineTokens htoken hnewline
  have hpos := List.length_pos_iff.mpr (Utf8.bytes_ne_nil htoken)
  by_cases hreturn : token.codePoint = 0x0d
  · obtain rfl : token = ⟨0x0d, [0x0d]⟩ :=
      Utf8.eq_of_codePoint htoken (tokens_of_mem_newlineTokens (by decide))
        (by rw [hreturn]; decide)
        hreturn
    change data.drop i = [0x0d] ++ data.drop (i + 1) at hbytes
    have hlook : (decide (i + 1 < data.length) && decide (byteAt data (i + 1) = 0x0a)) =
        decide ((data.drop (i + 1)).head? = some 0x0a) :=
      lookAhead_eq data (i + 1)
    by_cases hfeed : (data.drop (i + 1)).head? = some 0x0a
    · refine ⟨[0x0d, 0x0a], by decide, by decide, ?_, by simp, ?_⟩
      · obtain ⟨rest, hrest⟩ := List.head?_eq_some_iff.mp hfeed
        have hdrop : data.drop (i + 2) = rest := by
          rw [show i + 2 = i + 1 + 1 from rfl, ← List.drop_drop, hrest]
          rfl
        rw [hbytes, hrest, ← hdrop]
        rfl
      · rw [decide_eq_true hfeed] at hlook
        simp [scanCodePoint, hlook]
    · refine ⟨[0x0d], by decide, by decide, hbytes, fun _ => hfeed, ?_⟩
      rw [decide_eq_false hfeed] at hlook
      simp [scanCodePoint, hlook]
  · refine ⟨token.bytes, bytes_mem_terminators hmem, hpos, hbytes, ?_, ?_⟩
    · intro heq
      have hothers : ∀ newline ∈ newlineTokens, newline.bytes = [0x0d] →
          newline.codePoint = 0x0d := by decide
      exact absurd (hothers token hmem heq) hreturn
    · have hzero : token.codePoint ≠ 0 := by
        intro hzero
        rw [hzero] at hnewline
        exact absurd hnewline (by decide)
      unfold scanCodePoint
      rw [if_neg hzero, if_neg hreturn, if_pos]
      simp only [isNewline, List.mem_cons, List.not_mem_nil, or_false, decide_eq_true_eq,
        hreturn, false_or] at hnewline
      simpa only [Bool.or_eq_true, decide_eq_true_eq, or_assoc] using hnewline

section Newline

variable {i : Nat} {scan : Scan} {line : List Token} {terminator : List UInt8}
  (hreading : Reading data i scan line) (hi : i < data.length)
  (hterminator : terminator ∈ terminators)
  (hbytes : data.drop i = terminator ++ data.drop (i + terminator.length))

include hi hbytes in
theorem stop_le : i + terminator.length ≤ data.length := by
  have hlength := congrArg List.length hbytes
  rw [List.length_append, List.length_drop, List.length_drop] at hlength
  omega

include hi hbytes in
/-- A newline begins the next line. -/
theorem Reading.endLine (omitEmpty : Bool) :
    Reading data (i + terminator.length)
      (endLine data omitEmpty i (i + terminator.length) scan) [] where
  le := stop_le hi hbytes
  position := rfl
  ahead := rfl
  free := by simp
  ascii := rfl

include hreading in
theorem Reading.line_bytes :
    NewlineFree (tokenBytes line) ∧
      data.drop scan.lineBegin = tokenBytes line ++ data.drop i := by
  constructor
  · intro token hmem
    rw [Utf8.tokens_left hreading.ahead] at hmem
    exact hreading.free token hmem
  · rw [← Utf8.tokenBytes_tokens (data.drop scan.lineBegin), hreading.ahead,
      Utf8.tokenBytes_append, Utf8.tokenBytes_tokens]

include hterminator hbytes in
/-- A terminator holds nothing ill-formed and no NUL. -/
theorem behind_terminator :
    illFormed i (tokens (data.drop i)) =
        illFormed (i + terminator.length) (tokens (data.drop (i + terminator.length))) ∧
      ((tokens (data.drop i)).any fun token => token.codePoint = 0) =
        (tokens (data.drop (i + terminator.length))).any fun token => token.codePoint = 0 := by
  obtain ⟨newline, more, hmem, htext, htokens⟩ := tokens_terminator hterminator
  have hall : ∀ token ∈ newlineTokens, token.codePoint ≠ sentinel ∧ token.codePoint ≠ 0 := by
    decide
  have hahead : tokens (data.drop i) =
      (newline :: more) ++ tokens (data.drop (i + terminator.length)) := by
    rw [hbytes, htokens]
    rfl
  rw [hahead]
  constructor
  · rw [illFormed_append, htext, illFormed_eq_nil i fun token h => (hall token (hmem token h)).1,
      List.nil_append]
  · have hnone : ((newline :: more).any fun token => decide (token.codePoint = 0)) = false := by
      rw [List.any_eq_false]
      intro token h
      rw [decide_eq_true_eq]
      exact (hall token (hmem token h)).2
    rw [List.any_append, hnone, Bool.false_or]

include hreading hterminator hbytes in
/-- The scan goes on behind the terminator. -/
theorem Scanned.endLine {out : Scan}
    (hreturn : terminator = [0x0d] → (data.drop (i + terminator.length)).head? ≠ some 0x0a)
    (hscanned : Scanned data omitEmpty (i + terminator.length)
      (endLine data omitEmpty i (i + terminator.length) scan) out) :
    Scanned data omitEmpty i scan out := by
  obtain ⟨pieces, last, hsplits, rfl⟩ := hscanned
  change Splits (data.drop (i + terminator.length)) pieces last at hsplits
  obtain ⟨hfree, hline⟩ := hreading.line_bytes
  obtain ⟨hill, hnul⟩ := behind_terminator hterminator hbytes
  refine ⟨(tokenBytes line, terminator) :: pieces, last, ?_, ?_⟩
  · rw [hline, hbytes, ← List.append_assoc]
    exact Splits.line hfree hterminator hreturn hsplits
  · have hposition := hreading.position
    have hslice : i - scan.lineBegin = (tokenBytes line).length := by omega
    have hlines : (pushLine omitEmpty i scan).lines ++
          keptLines omitEmpty (slicesFrom (i + terminator.length) pieces) =
        scan.result.lines ++ keptLines omitEmpty
          (slicesFrom scan.lineBegin ((tokenBytes line, terminator) :: pieces)) := by
      rw [pushLine_eq, slicesFrom, ← hposition, hslice, hreading.ascii, List.append_assoc,
        ← keptLines_append]
      rfl
    have hpending : (if pieces = [] then decide (i + terminator.length < data.length)
        else decide (last ≠ [])) = decide (last ≠ []) := by
      split
      next hnil =>
        subst hnil
        obtain rfl : data.drop (i + terminator.length) = last := hsplits.rebuild.symm
        simp
      next => rfl
    have hothers : (pushLine omitEmpty i scan).invalid = scan.result.invalid ∧
        (pushLine omitEmpty i scan).embeddedNul = scan.result.embeddedNul := by
      rw [pushLine_eq]
      exact ⟨rfl, rfl⟩
    simp only [finalScan, Lines.endLine, hlines, hpending, hothers, hill, hnul,
      List.cons_ne_nil, if_false]

end Newline

/-- From any place in the text, the loop reads on to its end. -/
theorem scanLoop_scanned (omitEmpty : Bool) (fuel : Nat) {i : Nat} {scan : Scan} {line : List Token}
    (hreading : Reading data i scan line) (hfuel : data.length ≤ i + fuel) :
    Scanned data omitEmpty i scan (scanLoop data omitEmpty fuel i scan) := by
  induction fuel generalizing i scan line with
  | zero =>
      obtain rfl : i = data.length := Nat.le_antisymm hreading.le hfuel
      exact hreading.finish
  | succ fuel ih =>
      rw [scanLoop]
      split
      next hi =>
        by_cases hplain : isPlain (byteAt data i) = true
        · -- a run of ASCII
          obtain ⟨token, hfirst, hback⟩ := hreading.plain omitEmpty hi hplain
          obtain ⟨line', hrun, hle, hout⟩ := hfirst.skipPlain omitEmpty data.length
          have hstep : scanStep data omitEmpty i scan =
              (skipPlain data data.length (i + 1), scan) := by
            simp [scanStep, hplain]
          rw [hstep]
          exact hback _ (hout _ (ih hrun (by omega)))
        · obtain ⟨token, htoken, hahead, hnext, hle⟩ := Utf8.tokens_drop hi
          have hpos := List.length_pos_iff.mpr (Utf8.bytes_ne_nil htoken)
          rw [scanStep_eq scan hnext (by simpa using hplain)]
          -- ill-formed bytes, a terminator, or any other code point
          by_cases hill : token.codePoint = sentinel
          · have hnegative : token.codePoint < 0 := by
              rw [hill]
              decide
            rw [if_pos hnegative, scanInvalid_eq htoken hill]
            have hfree : isNewline token.codePoint = false := by
              rw [hill]
              decide
            exact (ih (hreading.absorb hahead hle hfree) (by omega)).absorb hahead
          · have hnonneg : ¬ token.codePoint < 0 :=
              Int.not_lt.mpr (Utf8.codePoint_nonneg htoken hill)
            rw [if_neg hnonneg]
            by_cases hnewline : isNewline token.codePoint = true
            · have hbytes : data.drop i = token.bytes ++ data.drop (i + token.bytes.length) := by
                rw [← Utf8.tokenBytes_tokens (data.drop i), hahead, Utf8.tokenBytes_cons,
                  Utf8.tokenBytes_tokens]
              obtain ⟨terminator, hterminator, hlength, hdrop, hreturn, hstep⟩ :=
                scanCodePoint_newline omitEmpty scan htoken hnewline hbytes
              rw [hstep]
              exact Scanned.endLine hreading hterminator hdrop hreturn
                (ih (Reading.endLine hi hdrop omitEmpty) (by omega))
            · rw [Bool.not_eq_true] at hnewline
              rw [scanCodePoint_eq htoken hill hnewline]
              exact (ih (hreading.absorb hahead hle hnewline) (by omega)).absorb hahead
      next hi =>
        obtain rfl : i = data.length := Nat.le_antisymm hreading.le (Nat.not_lt.mp hi)
        exact hreading.finish

end Loop

/-! ## The result of the scan -/

/-- The slices of a text that splits into `pieces` and `last`. The last one is there when the
text is empty or does not end in a terminator, or when it is asked for. -/
def lineSlices (data : List UInt8) (keepTrailingEmpty : Bool) (pieces : List Piece)
    (last : List UInt8) : List LineSlice :=
  slicesFrom 0 pieces ++
    if data = [] ∨ last ≠ [] ∨ keepTrailingEmpty then [sliceOf (data.length - last.length) last]
    else []

theorem Splits.length_le {text : List UInt8} {pieces : List Piece} {last : List UInt8}
    (hsplits : Splits text pieces last) : last.length ≤ text.length := by
  rw [← hsplits.rebuild, List.length_append]
  exact Nat.le_add_left _ _

/-- Only an empty text has neither a terminator nor anything else. -/
theorem Splits.pieces_eq_nil {text : List UInt8} {pieces : List Piece}
    (hsplits : Splits text pieces []) : pieces = [] ↔ text = [] := by
  constructor
  · rintro rfl
    exact hsplits.rebuild.symm
  · rintro rfl
    have hempty : Splits [] [] [] := Splits.last (by simp [NewlineFree])
    exact (hsplits.unique hempty).1

/-- Every text splits into lines. -/
theorem exists_splits (data : List UInt8) : ∃ pieces last, Splits data pieces last := by
  have hreading : Reading data 0 Scan.initial [] := ⟨Nat.zero_le _, rfl, rfl, by simp, rfl⟩
  obtain ⟨pieces, last, hsplits, -⟩ :=
    scanLoop_scanned false data.length hreading (by omega)
  exact ⟨pieces, last, hsplits⟩

/-- The scan finds the lines of the split. -/
theorem scanBytes_eq {data : List UInt8} {pieces : List Piece} {last : List UInt8}
    (hsplits : Splits data pieces last) (omitEmpty keepTrailingEmpty : Bool) :
    scanBytes data omitEmpty keepTrailingEmpty =
      { lines := keptLines omitEmpty (lineSlices data keepTrailingEmpty pieces last)
        invalid := illFormed 0 (tokens data)
        embeddedNul := (tokens data).any fun token => token.codePoint = 0 } := by
  have hreading : Reading data 0 Scan.initial [] := ⟨Nat.zero_le _, rfl, rfl, by simp, rfl⟩
  obtain ⟨pieces', last', hsplits', hloop⟩ :=
    scanLoop_scanned omitEmpty data.length hreading (by omega)
  obtain ⟨rfl, rfl⟩ := hsplits.unique hsplits'
  have hslice : data.length - (data.length - last.length) = last.length :=
    Nat.sub_sub_self hsplits.length_le
  have hlast : keptLines omitEmpty (lineSlices data keepTrailingEmpty pieces last) =
      keptLines omitEmpty (slicesFrom 0 pieces) ++
        if data = [] ∨ last ≠ [] ∨ (keepTrailingEmpty && !omitEmpty) = true then
          keptLines omitEmpty [sliceOf (data.length - last.length) last] else [] := by
    unfold lineSlices
    rw [keptLines_append]
    congr 1
    cases omitEmpty with
    | false => split <;> simp_all [keptLines]
    | true =>
        by_cases hempty : last = []
        · simp [keptLines, sliceOf, hempty]
        · simp [hempty]
  have hpending : (if pieces = [] then Scan.initial.pendingLine else decide (last ≠ [])) =
      decide (data = [] ∨ last ≠ []) := by
    by_cases hempty : last = []
    · subst hempty
      by_cases hnil : pieces = []
      · simp [hnil, hsplits.pieces_eq_nil.mp hnil, Scan.initial]
      · have hdata : data ≠ [] := fun h => hnil (hsplits.pieces_eq_nil.mpr h)
        simp [hnil, hdata]
    · simp [hempty, Scan.initial]
  unfold scanBytes
  rw [hloop, hlast]
  simp only [finalScan, pushLine_eq, hpending, hslice]
  split
  next hpush =>
    rw [if_pos (by simpa [or_assoc] using hpush)]
    simp [Scan.initial, sliceOf]
  next hskip =>
    rw [if_neg (by simpa [or_assoc] using hskip)]
    simp [Scan.initial]

/-! ### Order and contents of the slices -/

/-- The lines and terminators, put together again. -/
def rebuilt (pieces : List Piece) : List UInt8 :=
  pieces.flatMap fun piece => piece.1 ++ piece.2

/-- The slice of a line has its bytes. -/
theorem sliceBytes_sliceOf (front line rest : List UInt8) :
    sliceBytes (front ++ line ++ rest) (sliceOf front.length line) = line := by
  unfold sliceBytes sliceOf
  rw [List.append_assoc, List.drop_left, List.take_left]

theorem sliceBytes_slicesFrom (front : List UInt8) (pieces : List Piece) (rest : List UInt8) :
    (slicesFrom front.length pieces).map (sliceBytes (front ++ rebuilt pieces ++ rest)) =
      pieces.map Prod.fst := by
  induction pieces generalizing front with
  | nil => rfl
  | cons piece pieces ih =>
      obtain ⟨line, terminator⟩ := piece
      have hfront : front ++ rebuilt ((line, terminator) :: pieces) ++ rest =
          front ++ line ++ (terminator ++ rebuilt pieces ++ rest) := by
        simp [rebuilt]
      have htail : front ++ rebuilt ((line, terminator) :: pieces) ++ rest =
          (front ++ line ++ terminator) ++ rebuilt pieces ++ rest := by
        simp [rebuilt]
      rw [slicesFrom, List.map_cons, List.map_cons]
      congr 1
      · rw [hfront, sliceBytes_sliceOf]
      · have hlength : front.length + line.length + terminator.length =
            (front ++ line ++ terminator).length := by
          simp [Nat.add_assoc]
        rw [htail, hlength]
        exact ih (front ++ line ++ terminator)

/-- Every slice is that of the line it stands for. -/
theorem mem_slicesFrom (front : List UInt8) {pieces : List Piece} (rest : List UInt8)
    {slice : LineSlice} (hmem : slice ∈ slicesFrom front.length pieces) :
    ∃ before line behind, front ++ rebuilt pieces ++ rest = before ++ line ++ behind ∧
      slice = sliceOf before.length line := by
  induction pieces generalizing front with
  | nil => exact absurd hmem (by simp [slicesFrom])
  | cons piece pieces ih =>
      obtain ⟨line, terminator⟩ := piece
      rw [slicesFrom] at hmem
      rcases List.mem_cons.mp hmem with hfirst | hmem
      · exact ⟨front, line, terminator ++ rebuilt pieces ++ rest, by simp [rebuilt], hfirst⟩
      · have hlength : front.length + line.length + terminator.length =
            (front ++ line ++ terminator).length := by
          simp [Nat.add_assoc]
        rw [hlength] at hmem
        obtain ⟨before, other, behind, heq, hslice⟩ := ih _ hmem
        refine ⟨before, other, behind, ?_, hslice⟩
        rw [← heq]
        simp [rebuilt]

/-- Every slice ends in front of its terminator. -/
theorem slicesFrom_bounds {pieces : List Piece}
    (hterminators : ∀ piece ∈ pieces, piece.2 ∈ terminators) (begin : Nat) :
    ∀ slice ∈ slicesFrom begin pieces,
      begin ≤ slice.begin ∧ slice.begin + slice.length < begin + (rebuilt pieces).length := by
  have hpos : ∀ terminator ∈ terminators, 0 < terminator.length := by decide
  induction pieces generalizing begin with
  | nil => simp [slicesFrom]
  | cons piece pieces ih =>
      obtain ⟨line, terminator⟩ := piece
      have hfirst := hpos terminator (hterminators (line, terminator) List.mem_cons_self)
      have hlength : (rebuilt ((line, terminator) :: pieces)).length =
          line.length + terminator.length + (rebuilt pieces).length := by
        simp [rebuilt, Nat.add_assoc]
      intro slice hmem
      rw [slicesFrom] at hmem
      rcases List.mem_cons.mp hmem with rfl | hmem
      · simp only [sliceOf]
        omega
      · have hrest := ih (fun other h => hterminators other (List.mem_cons_of_mem _ h)) _ slice hmem
        omega

/-- A line ends before another one begins. -/
def Before (left right : LineSlice) : Prop := left.begin + left.length < right.begin

/-- Slices are in order, with a terminator between them. -/
theorem slicesFrom_pairwise {pieces : List Piece}
    (hterminators : ∀ piece ∈ pieces, piece.2 ∈ terminators) (begin : Nat) :
    (slicesFrom begin pieces).Pairwise Before := by
  have hpos : ∀ terminator ∈ terminators, 0 < terminator.length := by decide
  induction pieces generalizing begin with
  | nil => exact List.Pairwise.nil
  | cons piece pieces ih =>
      obtain ⟨line, terminator⟩ := piece
      have hfirst := hpos terminator (hterminators (line, terminator) List.mem_cons_self)
      have hrest : ∀ other ∈ pieces, other.2 ∈ terminators :=
        fun other h => hterminators other (List.mem_cons_of_mem _ h)
      rw [slicesFrom, List.pairwise_cons]
      refine ⟨?_, ih hrest _⟩
      intro slice hmem
      have hbounds := slicesFrom_bounds hrest _ slice hmem
      unfold Before sliceOf
      simp only
      omega

section Slices

variable {data : List UInt8} {pieces : List Piece} {last : List UInt8}
  (hsplits : Splits data pieces last) (keepTrailingEmpty : Bool)
include hsplits

theorem Splits.begin_last : data.length - last.length = (rebuilt pieces).length := by
  have hlength := congrArg List.length hsplits.rebuild
  rw [List.length_append] at hlength
  unfold rebuilt
  omega

/-- The bytes of the slices, with the last line if it is kept. -/
theorem lineSlices_bytes :
    (lineSlices data keepTrailingEmpty pieces last).map (sliceBytes data) =
      pieces.map Prod.fst ++ if data = [] ∨ last ≠ [] ∨ keepTrailingEmpty then [last] else [] := by
  have hdata : data = [] ++ rebuilt pieces ++ last := hsplits.rebuild.symm
  have hpieces := sliceBytes_slicesFrom [] pieces last
  have hlast := sliceBytes_sliceOf (rebuilt pieces) last []
  rw [← hdata] at hpieces
  rw [List.append_nil, show rebuilt pieces ++ last = data from hsplits.rebuild] at hlast
  unfold lineSlices
  rw [List.map_append, ← hpieces, hsplits.begin_last, apply_ite (List.map (sliceBytes data)),
    List.map_singleton, hlast]
  rfl

/-- The slices are in order. -/
theorem lineSlices_pairwise : (lineSlices data keepTrailingEmpty pieces last).Pairwise Before := by
  have hterminators : ∀ piece ∈ pieces, piece.2 ∈ terminators :=
    fun piece hmem => (hsplits.newlineFree.1 piece hmem).2
  unfold lineSlices
  rw [List.pairwise_append]
  refine ⟨slicesFrom_pairwise hterminators 0, by split <;> simp, ?_⟩
  intro slice hmem other hother
  split at hother
  · have hbounds := slicesFrom_bounds hterminators 0 slice hmem
    rw [List.mem_singleton.mp hother, hsplits.begin_last]
    unfold Before sliceOf
    simp only
    omega
  · exact absurd hother (by simp)

/-- A slice lies in the text, and its flag is about its own bytes. -/
theorem lineSlices_ascii {slice : LineSlice}
    (hmem : slice ∈ lineSlices data keepTrailingEmpty pieces last) :
    slice.begin + slice.length ≤ data.length ∧ slice.ascii = isAscii (sliceBytes data slice) := by
  have hdata : [] ++ rebuilt pieces ++ last = data := hsplits.rebuild
  obtain ⟨before, line, behind, heq, rfl⟩ : ∃ before line behind,
      data = before ++ line ++ behind ∧ slice = sliceOf before.length line := by
    rcases List.mem_append.mp hmem with hslice | hslice
    · obtain ⟨before, line, behind, heq, hslice⟩ := mem_slicesFrom [] last hslice
      exact ⟨before, line, behind, hdata.symm.trans heq, hslice⟩
    · split at hslice
      · rw [List.mem_singleton, hsplits.begin_last] at hslice
        exact ⟨rebuilt pieces, last, [], by simpa using hdata.symm, hslice⟩
      · exact absurd hslice (by simp)
  rw [heq, sliceBytes_sliceOf]
  refine ⟨?_, rfl⟩
  simp [sliceOf]

end Slices

/-- What a scan without `omit_empty` returns, and how `omit_empty` changes it. -/
structure ScanLaw (data : List UInt8) (keepTrailingEmpty : Bool) (pieces : List Piece)
    (last : List UInt8) (kept omitted : ScanResult) : Prop where
  /-- The text is the lines with their terminators, and the rest, and splits in no other way. -/
  splits : Splits data pieces last
  rebuild : (pieces.flatMap fun piece => piece.1 ++ piece.2) ++ last = data
  free : (∀ piece ∈ pieces, NewlineFree piece.1 ∧ piece.2 ∈ terminators) ∧ NewlineFree last
  unique : ∀ pieces' last', Splits data pieces' last' → pieces' = pieces ∧ last' = last
  /-- One slice for each line, and the last one by the rule for it. -/
  lines : kept.lines.map (sliceBytes data) =
    pieces.map Prod.fst ++ if data = [] ∨ last ≠ [] ∨ keepTrailingEmpty then [last] else []
  begins : kept.lines = lineSlices data keepTrailingEmpty pieces last
  ordered : kept.lines.Pairwise Before
  inside : ∀ slice ∈ kept.lines, slice.begin + slice.length ≤ data.length
  ascii : ∀ slice ∈ kept.lines,
    (slice.ascii = true ↔ ∀ byte ∈ sliceBytes data slice, byte < 0x80)
  invalid : kept.invalid = illFormed 0 (tokens data)
  omitted : omitted =
    { kept with lines := kept.lines.filter fun slice => sliceBytes data slice ≠ [] }

/-- The checks of the view pass. -/
theorem scanUtf8_some (data : List UInt8) (omitEmpty keepTrailingEmpty : Bool) :
    scanUtf8 (some data) data.length omitEmpty keepTrailingEmpty =
      .ok (scanBytes data omitEmpty keepTrailingEmpty) := by
  have hnonneg : ¬ (data.length : Int) < 0 := by omega
  simp [scanUtf8, hnonneg]

/-- The scan with empty lines and the one without them agree with the split. -/
theorem scanBytes_law {data : List UInt8} {pieces : List Piece} {last : List UInt8}
    (hsplits : Splits data pieces last) (keepTrailingEmpty : Bool) :
    ScanLaw data keepTrailingEmpty pieces last (scanBytes data false keepTrailingEmpty)
      (scanBytes data true keepTrailingEmpty) := by
  have hkept : ∀ slices, keptLines false slices = slices := fun slices => by simp [keptLines]
  rw [scanBytes_eq hsplits, scanBytes_eq hsplits, hkept]
  refine ⟨hsplits, hsplits.rebuild, hsplits.newlineFree, ?_, lineSlices_bytes hsplits _, rfl,
    lineSlices_pairwise hsplits _, fun slice hmem => (lineSlices_ascii hsplits _ hmem).1, ?_, rfl,
    ?_⟩
  · intro pieces' last' hsplits'
    exact hsplits'.unique hsplits
  · intro slice hmem
    rw [(lineSlices_ascii hsplits _ hmem).2]
    simp [isAscii]
  · have hfilter : keptLines true (lineSlices data keepTrailingEmpty pieces last) =
        (lineSlices data keepTrailingEmpty pieces last).filter fun slice =>
          sliceBytes data slice ≠ [] := by
      apply List.filter_congr
      intro slice hmem
      have hinside := (lineSlices_ascii hsplits _ hmem).1
      have hlength : (sliceBytes data slice).length = slice.length := by
        unfold sliceBytes
        rw [List.length_take, List.length_drop]
        omega
      rw [← hlength]
      simp [List.length_pos_iff]
    rw [hfilter]

/-- The lines of a text made of lines. -/
theorem splits_of_lines {lines : List (List UInt8)} (hfree : ∀ line ∈ lines, NewlineFree line) :
    Splits (lines.flatMap fun line => line ++ [0x0a])
      (lines.map fun line => (line, [0x0a])) [] := by
  induction lines with
  | nil => exact Splits.last (by simp [NewlineFree])
  | cons line lines ih =>
      rw [List.flatMap_cons, List.map_cons]
      exact Splits.line (hfree line List.mem_cons_self) (by decide)
        (fun hreturn => by cases hreturn)
        (ih fun other hmem => hfree other (List.mem_cons_of_mem _ hmem))

/-- Scanning splits a text into its lines, and lines that were joined come back. -/
theorem scanUtf8_lines :
    (∀ (data : List UInt8) (keepTrailingEmpty : Bool), ∃ pieces last kept omitted,
      scanUtf8 (some data) data.length false keepTrailingEmpty = .ok kept ∧
      scanUtf8 (some data) data.length true keepTrailingEmpty = .ok omitted ∧
      ScanLaw data keepTrailingEmpty pieces last kept omitted) ∧
    ∀ lines : List (List UInt8), lines ≠ [] → (∀ line ∈ lines, NewlineFree line) →
      let data := lines.flatMap fun line => line ++ [0x0a]
      ∃ result, scanUtf8 (some data) data.length false false = .ok result ∧
        result.lines.map (sliceBytes data) = lines := by
  constructor
  · intro data keepTrailingEmpty
    obtain ⟨pieces, last, hsplits⟩ := exists_splits data
    exact ⟨pieces, last, _, _, scanUtf8_some data _ _, scanUtf8_some data _ _,
      scanBytes_law hsplits keepTrailingEmpty⟩
  · intro lines hne hfree data
    have hlaw := scanBytes_law (splits_of_lines hfree) false
    refine ⟨_, scanUtf8_some data _ _, ?_⟩
    have hdata : data ≠ [] := by
      obtain ⟨line, lines, rfl⟩ := List.exists_cons_of_ne_nil hne
      simp [data]
    rw [hlaw.lines, if_neg (by simpa [data] using hdata)]
    simp [Function.comp_def]

/-- A truncated sequence at the end of a line, and an empty line. -/
theorem scanUtf8_truncated_line :
    ∃ result, scanUtf8 (some [0x61, 0xe2, 0x80, 0x0a, 0x0a]) 5 false false = .ok result ∧
      result.lines.map (sliceBytes [0x61, 0xe2, 0x80, 0x0a, 0x0a]) = [[0x61, 0xe2, 0x80], []] := by
  have hill : tokens [0xe2, 0x80] = [⟨sentinel, [0xe2, 0x80]⟩] :=
    Utf8.tokens_of_next ⟨sentinel, [0xe2, 0x80]⟩ (by decide) (by decide)
  have htokens : tokens [0x61, 0xe2, 0x80] = [⟨0x61, [0x61]⟩, ⟨sentinel, [0xe2, 0x80]⟩] := by
    rw [Utf8.tokens_single (by decide), hill]
    rfl
  have hfree : ∀ line ∈ [[0x61, 0xe2, 0x80], []], NewlineFree line := by
    intro line hmem
    simp only [List.mem_cons, List.not_mem_nil, or_false] at hmem
    rcases hmem with rfl | rfl
    · unfold NewlineFree
      rw [htokens]
      decide
    · simp [NewlineFree]
  exact scanUtf8_lines.2 [[0x61, 0xe2, 0x80], []] (by decide) hfree

end Charr.Lines
