import Charr.FixedSearch.ExactBytes
import Charr.Library.Kmp
import Charr.Text.Utf8

/-!
# The byte search matcher

A matcher keeps one pattern and the place of its last match in the current
subject. Which of the four searches it runs is fixed when it is built. The
failure table is filled by the first search and kept from then on, across
subjects.
-/

namespace Charr.FixedSearch

open Utf8 (CodePoint)

/-- How a pattern is searched for. -/
inductive Strategy where
  | kmp
  | kmpCaseInsensitive
  | singleByte
  | shortPattern
  deriving DecidableEq, Repr

/-- What a search returns where there is no match. -/
def notFound : Int := -1

/-- A matcher between calls: the match it is at, the subject, the pattern and its table. -/
structure ByteSearchMatcher where
  strategy : Strategy
  overlap : Bool
  searchPos : Int
  searchEnd : Int
  /-- The subject; a null pointer before the first `reset`. -/
  search : Option (List UInt8)
  pattern : List UInt8
  /-- Entry `0` is `-100` until the table has been filled. -/
  kmpNext : List Int
  foldedPattern : List CodePoint
  deriving DecidableEq

namespace ByteSearchMatcher

section

variable (matcher : ByteSearchMatcher)

/-- The subject; nothing before the first `reset`. -/
def subject : List UInt8 := matcher.search.getD []

/-- The length of the subject. -/
def searchLength : Nat := matcher.subject.length

/-- The length of the pattern. -/
def patternLength : Nat := matcher.pattern.length

/-- The place every failed search leaves the matcher at. -/
def exhausted : Int × ByteSearchMatcher :=
  (notFound, { matcher with
    searchPos := matcher.searchLength
    searchEnd := matcher.searchLength })

/-- A match that starts at `start` and ends at `stop`. -/
def matched (start stop : Nat) : Int × ByteSearchMatcher :=
  (start, { matcher with searchPos := start, searchEnd := stop })

/-- The next symbol of a subject, as a search for bytes reads it. -/
def readByte (index : Nat) : UInt8 × Nat :=
  (matcher.subject.getD index 0, index + 1)

/-- The first match from `start` on by the table of failures. -/
def findFromPosKmp (start : Nat) : Int × ByteSearchMatcher :=
  match Kmp.scan matcher.pattern matcher.kmpNext matcher.readByte matcher.searchLength
      (matcher.searchLength + 1) start 0 with
  | some stop => matcher.matched (stop - matcher.patternLength) stop
  | none => matcher.exhausted

/-- The first byte from `start` on that is the pattern. -/
def findFromPosSingleByte (start : Nat) : Int × ByteSearchMatcher :=
  if (start : Int) > matcher.searchLength - matcher.patternLength then matcher.exhausted
  else
    match memchr (matcher.subject.drop start) (matcher.pattern.getD 0 0)
        (matcher.searchLength - start) with
    | none => matcher.exhausted
    | some offset => matcher.matched (start + offset) (start + offset + 1)

/-- The first match from `start` on, tried at every occurrence of the first byte. -/
def findFromPosShort (start : Nat) : Int × ByteSearchMatcher :=
  if matcher.patternLength = 0 ∨
      (start : Int) > matcher.searchLength - matcher.patternLength then matcher.exhausted
  else
    match candidateLoop matcher.subject (matcher.pattern.getD 0 0)
        (matcher.searchLength - matcher.patternLength)
        (fun candidate => memequal (matcher.subject.drop (candidate + 1)) (matcher.pattern.drop 1)
          (matcher.patternLength - 1))
        (matcher.searchLength + 1) start with
    | none => matcher.exhausted
    | some candidate => matcher.matched candidate (candidate + matcher.patternLength)

/-- Fill the table unless a search has done so before. -/
def fillTable (table : List Int) : ByteSearchMatcher :=
  if matcher.kmpNext.getD 0 0 > -100 then matcher
  else { matcher with kmpNext := table }

/-- The table for a search from the front. -/
def prepareKmpForward : ByteSearchMatcher :=
  matcher.fillTable (Kmp.table matcher.pattern)

/-- Fill the table for the folded pattern. -/
def prepareFoldedKmpForward : ByteSearchMatcher :=
  matcher.fillTable (Kmp.table matcher.foldedPattern)

end

section CaseFolding

-- `u_toupper`, the simple upper case mapping of the character database.
variable (toUpper : CodePoint → CodePoint)

/-- The next symbol, as a search without case reads it. -/
def readFolded (text : List UInt8) (index : Nat) : CodePoint × Nat :=
  (toUpper (Utf8.next text index).1, (Utf8.next text index).2)

variable (matcher : ByteSearchMatcher)

/-- A match without case: where it starts is counted back from its end. -/
def findFromPosKmpCaseInsensitive (start : Nat) : Int × ByteSearchMatcher :=
  match Kmp.scan matcher.foldedPattern matcher.kmpNext (readFolded toUpper matcher.subject)
      matcher.searchLength (matcher.searchLength + 1) start 0 with
  | some stop =>
      matcher.matched ((Utf8.back1 matcher.subject)^[matcher.foldedPattern.length] stop) stop
  | none => matcher.exhausted

/-- The first match from `start` on. -/
def findFromPos (start : Nat) : Int × ByteSearchMatcher :=
  match matcher.strategy with
  | .kmp => matcher.findFromPosKmp start
  | .kmpCaseInsensitive => matcher.findFromPosKmpCaseInsensitive toUpper start
  | .singleByte => matcher.findFromPosSingleByte start
  | .shortPattern => matcher.findFromPosShort start

/-- The first match; the table is filled in before. -/
def findFirst : Int × ByteSearchMatcher :=
  match matcher.strategy with
  | .kmp => matcher.prepareKmpForward.findFromPosKmp 0
  | .kmpCaseInsensitive =>
      matcher.prepareFoldedKmpForward.findFromPosKmpCaseInsensitive toUpper 0
  | .singleByte => matcher.findFromPosSingleByte 0
  | .shortPattern => matcher.findFromPosShort 0

/-- The match behind the one the matcher is at, or inside it where matches may overlap. -/
def findNext : Int × ByteSearchMatcher :=
  if matcher.searchPos < 0 then matcher.findFirst toUpper
  else if !matcher.overlap then matcher.findFromPos toUpper matcher.searchEnd.toNat
  else matcher.findFromPos toUpper (Utf8.fwd1 matcher.subject matcher.searchPos.toNat)

/-- The code points of the pattern, folded one by one. -/
def foldLoop (pattern : List UInt8) : Nat → Nat → List CodePoint
  | 0, _ => []
  | fuel + 1, position =>
      if position < pattern.length then
        (readFolded toUpper pattern position).1 ::
          foldLoop pattern fuel (readFolded toUpper pattern position).2
      else []

/-- The constructor, for a pattern that is not null. -/
def create (pattern : List UInt8) (overlap caseInsensitive : Bool) : ByteSearchMatcher where
  strategy :=
    if caseInsensitive then .kmpCaseInsensitive
    else if pattern.length = 1 then .singleByte
    else if pattern.length < 16 then .shortPattern
    else .kmp
  overlap := overlap
  searchPos := -1
  searchEnd := -1
  search := none
  pattern := pattern
  kmpNext := [-100]
  foldedPattern :=
    if caseInsensitive then foldLoop toUpper pattern pattern.length 0 else []

end CaseFolding

variable (matcher : ByteSearchMatcher)

/-- A new subject forgets the match. -/
def reset (search : List UInt8) : ByteSearchMatcher :=
  { matcher with search := some search, searchPos := -1, searchEnd := -1 }

/-- Where the match starts, if there is one. -/
def matchedStart : Except NativeError Int :=
  if matcher.search.isNone then
    .error (.logicError "ByteSearchMatcher: reset() has not been called")
  else if matcher.searchPos < 0 ∨ matcher.searchEnd ≤ matcher.searchPos ∨
      matcher.searchPos ≥ matcher.searchLength ∨ matcher.searchEnd > matcher.searchLength then
    .error (.logicError "ByteSearchMatcher: no match at the current position")
  else .ok matcher.searchPos

/-- The length of the match, if there is one. -/
def matchedLength : Except NativeError Int := do
  let _ ← matcher.matchedStart
  return matcher.searchEnd - matcher.searchPos

end ByteSearchMatcher

/-- Upper case within ASCII. -/
def asciiToUpper (codePoint : CodePoint) : CodePoint :=
  if 97 ≤ codePoint ∧ codePoint ≤ 122 then codePoint - 32 else codePoint

end Charr.FixedSearch
