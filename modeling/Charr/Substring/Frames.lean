import Charr.FixedSearch.DirectKernels
import Charr.FixedSearch.Replacement
import Charr.Library.Loops
import Charr.Substring.Assembler

/-!
# The strings of the substring functions

The substring functions normalize their strings by a function of their own. What it gives
is the text that the other functions search: positions found there are positions here.
-/

namespace Charr.Substring

open FixedSearch (Normalizes Stored unmarked present_borrowed bytes_slice_length
  na_of_normalizes)
open FixedSearch.FixedMatcher (Present)
open Loops

/-- `CiSubFrameInput`, before the conversion is copied to where it stays. -/
structure CiSubFrameInput where
  data : ViewData
  isNa : Bool
  isAscii : Bool
  converted : Bool
  deriving DecidableEq

/-- The bytes behind a byte order mark, if the text is not ASCII. -/
def behindBom (span : Span) (ascii : Bool) : Span :=
  if !ascii && hasBom span.bytes then span.slice 3 span.bytes.length else span

/-- What a conversion returned. -/
def convertedInput (output : ViewData) : CiSubFrameInput :=
  match output with
  | .null len => ⟨if len = 0 then .bytes emptySpan else .null len, false, false, true⟩
  | .bytes span =>
      ⟨.bytes (if span.bytes.length = 0 then emptySpan else span), false, false, true⟩

/-- A native string keeps no byte order mark that its conversion also has. -/
def convertedNative (bytes : List UInt8) (output : ViewData) : CiSubFrameInput :=
  match output with
  | .null _ => convertedInput output
  | .bytes span =>
      if hasBom bytes ∧ hasBom span.bytes then
        ⟨.bytes (span.slice 3 span.bytes.length), false, false, true⟩
      else convertedInput output

/-- `ci__sub_normalize_frame_input`. -/
def ciSubNormalizeFrameInput (converter : NativeToUtf8) (value : StringView) :
    Except NativeError CiSubFrameInput :=
  if value.isNa then .ok ⟨.null 0, true, false, false⟩
  else
    match value.data with
    | .null _ => .error (.runtimeError "Reader returned an invalid string view")
    | .bytes span =>
        match value.enc with
        | .ascii => .ok ⟨.bytes span, false, true, false⟩
        | .bytes => .error (.striException "bytes encoding is not supported by this function")
        | .utf8 => .ok ⟨.bytes (behindBom span false), false, false, false⟩
        | .asciiOrUtf8 =>
            let ascii := spanIsAscii span.bytes
            .ok ⟨.bytes (behindBom span ascii), false, ascii, false⟩
        | .latin1 => do return convertedInput (← converter.latin1 span.bytes)
        | .native => do return convertedNative span.bytes (← converter.native span.bytes)
        | .missing => .error (.runtimeError "Reader returned an unknown string encoding")
        | .unknown => .error (.runtimeError "Reader returned an unknown string encoding")

/-- The string or missing value that a frame is. -/
def CiSubFrameInput.Holds (frame : CiSubFrameInput) : FrameInput → Prop
  | none => frame.isNa = true
  | some text => frame.isNa = false ∧ frame.isAscii = text.isAscii ∧
      ∃ span, frame.data = .bytes span ∧ span.bytes = text.bytes

/-- The conversion from the native encoding leaves UTF-8 as it is, and makes no byte order mark
out of the bytes of one in another encoding. -/
def KeepsText (converter : NativeToUtf8) : Prop :=
  ∀ bytes output, converter.native bytes = .ok output →
    if converter.nativeIsUtf8 then StringView.bytes ⟨output, .utf8⟩ = bytes
    else hasBom bytes = true → hasBom (StringView.bytes ⟨output, .utf8⟩) = false

/-- The text a view and a string of the substring functions have in common. -/
inductive SameText : StringView → FrameInput → Prop
  | missing {view : StringView} (hna : view.isNa = true) : SameText view none
  | present {view : StringView} {text : FrameText} (hview : Present view text.bytes) :
      SameText view (some text)

section Agreement

variable {converter : NativeToUtf8} {source view : StringView}

/-- What is held is held of a present record, with its bytes. -/
theorem sameText_of_holds {frame : CiSubFrameInput} {input : FrameInput}
    (hinput : frame.Holds input) (hna : frame.isNa = false) {span : Span}
    (hdata : frame.data = .bytes span) (hview : Present view span.bytes) :
    SameText view input := by
  cases input with
  | none => exact absurd (hna.symm.trans hinput) Bool.false_ne_true
  | some text =>
      obtain ⟨-, -, held, hheld, hbytes⟩ := hinput
      obtain rfl : span = held := ViewData.bytes.inj (hdata.symm.trans hheld)
      exact .present (hbytes ▸ hview)

/-- A converted string is copied as it is. -/
theorem present_of_stable {storage after : SliceArena} {output : ViewData}
    (hstable : stable storage output = .ok (view, after)) :
    ∃ span, (convertedInput output).data = .bytes span ∧ Present view span.bytes := by
  cases output with
  | null len =>
      simp only [stable] at hstable
      split at hstable
      next => cases hstable
      next hlen =>
        obtain ⟨rfl, -⟩ := Prod.mk.inj (Except.ok.inj hstable)
        have hzero : len = 0 := by omega
        exact ⟨emptySpan, by rw [convertedInput, if_pos hzero], rfl, emptySpan, rfl, rfl⟩
  | bytes span =>
      simp only [stable] at hstable
      split at hstable
      next hempty =>
        obtain ⟨rfl, -⟩ := Prod.mk.inj (Except.ok.inj hstable)
        exact ⟨emptySpan, by rw [convertedInput, if_pos hempty], rfl, emptySpan, rfl, rfl⟩
      next hsome =>
        obtain ⟨rfl, -⟩ := Prod.mk.inj (Except.ok.inj hstable)
        exact ⟨span, by rw [convertedInput, if_neg hsome], rfl, _, rfl, rfl⟩

theorem isNa_convertedNative (bytes : List UInt8) (output : ViewData) :
    (convertedNative bytes output).isNa = false := by
  cases output with
  | null len => rfl
  | bytes span =>
      simp only [convertedNative]
      split <;> rfl

/-- Without two marks nothing is cut off. -/
theorem convertedNative_eq {bytes : List UInt8} {output : ViewData}
    (hmarks : hasBom bytes = true → hasBom (StringView.bytes ⟨output, .utf8⟩) = false) :
    convertedNative bytes output = convertedInput output := by
  cases output with
  | null len => rfl
  | bytes span =>
      simp only [convertedNative]
      rw [if_neg]
      rintro ⟨hbytes, hspan⟩
      exact absurd ((hmarks hbytes).symm.trans hspan) Bool.false_ne_true

/-- UTF-8 converted to UTF-8 loses its mark only. -/
theorem bytes_convertedNative {bytes : List UInt8} {output : ViewData} {input : FrameInput}
    (hinput : (convertedNative bytes output).Holds input)
    (hsame : StringView.bytes ⟨output, .utf8⟩ = bytes) :
    ∃ span, (convertedNative bytes output).data = .bytes span ∧
      span.bytes = if hasBom bytes then bytes.drop 3 else bytes := by
  cases input with
  | none => exact absurd ((isNa_convertedNative _ _).symm.trans hinput) Bool.false_ne_true
  | some text =>
      obtain ⟨-, -, span, hdata, -⟩ := hinput
      refine ⟨span, hdata, ?_⟩
      cases output with
      | null len =>
          obtain rfl : [] = bytes := hsame
          simp only [convertedNative, convertedInput] at hdata
          split at hdata
          next => exact congrArg Span.bytes (ViewData.bytes.inj hdata).symm
          next => cases hdata
      | bytes held =>
          obtain rfl : held.bytes = bytes := hsame
          simp only [convertedNative, and_self] at hdata
          split at hdata
          next hbom =>
            obtain rfl := ViewData.bytes.inj hdata
            rw [if_pos hbom]
            exact bytes_slice_length held 3
          next hbom =>
            obtain rfl := ViewData.bytes.inj hdata
            rw [if_neg hbom]
            split
            next hempty => exact (List.eq_nil_of_length_eq_zero hempty).symm
            next => rfl

/-- The bytes behind the mark are those the other functions read. -/
theorem bytes_behindBom {span : Span} {ascii : Bool}
    (hascii : ascii = true → spanIsAscii span.bytes = true) {enc : StringEncoding}
    (henc : enc ≠ .ascii) : (behindBom span ascii).bytes = unmarked enc span.bytes := by
  have hmark : hasBom span.bytes = true → ascii = false := by
    intro hbom
    by_contra hmarked
    have hall := hascii (by simpa using hmarked)
    rw [spanIsAscii, List.all_eq_true] at hall
    cases hbytes : span.bytes with
    | nil => simp [hbytes, hasBom] at hbom
    | cons first rest =>
        have hfirst : first = 0xef := by
          rw [hbytes] at hbom
          simp only [hasBom, decide_eq_true_eq] at hbom
          exact (List.cons.inj hbom.2).1
        rw [hbytes, hfirst] at hall
        exact absurd (hall 0xef List.mem_cons_self) (by decide)
  unfold behindBom unmarked
  by_cases hbom : hasBom span.bytes = true
  · rw [if_pos (by simp [hmark hbom, hbom]), if_pos ⟨henc, hbom⟩]
    exact bytes_slice_length span 3
  · rw [if_neg (by simp [hbom]), if_neg (fun h => hbom h.2)]

/-- A native record that both read: borrowed where native text is UTF-8, converted elsewhere. -/
theorem sameText_of_native (hkeeps : KeepsText converter) {span : Span} {output : ViewData}
    (houtput : converter.native span.bytes = .ok output) {storage after : SliceArena}
    (hview : (if converter.nativeIsUtf8 then
        Except.ok (borrowed (hasBom span.bytes) span .utf8, storage)
      else stable storage output) = Except.ok (view, after)) {input : FrameInput}
    (hinput : (convertedNative span.bytes output).Holds input) : SameText view input := by
  have hkept := hkeeps span.bytes output houtput
  split at hview
  next hutf8 =>
    rw [if_pos hutf8] at hkept
    obtain ⟨rfl, -⟩ := Prod.mk.inj (Except.ok.inj hview)
    have hplain := @present_borrowed span .utf8 (hasBom span.bytes) (by decide)
    obtain ⟨held, hheld, hbytes⟩ :=
      bytes_convertedNative hinput (by cases output <;> exact hkept)
    refine sameText_of_holds hinput (isNa_convertedNative ..) hheld ?_
    rwa [hbytes]
  next hother =>
    rw [if_neg hother] at hkept
    obtain ⟨held, hheld, hheldView⟩ := present_of_stable hview
    rw [convertedNative_eq hkept] at hinput
    exact sameText_of_holds hinput (by cases output <;> rfl) hheld hheldView

/-- The two normalizations read the same text. -/
theorem sameText_of_normalizes (hkeeps : KeepsText converter)
    (hview : Normalizes converter source view) {frame : CiSubFrameInput}
    (hframe : ciSubNormalizeFrameInput converter source = .ok frame) {input : FrameInput}
    (hinput : frame.Holds input) : SameText view input := by
  unfold ciSubNormalizeFrameInput at hframe
  split at hframe
  next hna =>
    obtain rfl := Except.ok.inj hframe
    cases input with
    | none => exact .missing (na_of_normalizes hna hview)
    | some text => exact absurd hinput.1 (by simp)
  next hna =>
  have hpresent : source.isNa = false := by simpa using hna
  cases hdata : source.data with
  | null len => simp [hdata] at hframe
  | bytes span =>
      simp only [hdata] at hframe
      -- the records that are borrowed
      have hborrowed : FixedSearch.directAsciiEncoding source.enc = true →
          Present view (unmarked source.enc span.bytes) := fun henc =>
        Stored.present_of_normalizes ⟨⟨hpresent, span, hdata, rfl⟩, henc⟩ hview
      cases henc : source.enc with
      | ascii =>
          simp only [henc, Except.ok.injEq] at hframe
          subst hframe
          have hplain := hborrowed (by rw [henc]; rfl)
          rw [henc, unmarked, if_neg (fun h => h.1 rfl)] at hplain
          exact sameText_of_holds hinput rfl rfl hplain
      | utf8 =>
          simp only [henc, Except.ok.injEq] at hframe
          subst hframe
          have hplain := hborrowed (by rw [henc]; rfl)
          rw [henc] at hplain
          rw [← bytes_behindBom (fun h => absurd h Bool.false_ne_true) (by decide)] at hplain
          exact sameText_of_holds hinput rfl rfl hplain
      | asciiOrUtf8 =>
          simp only [henc, Except.ok.injEq] at hframe
          subst hframe
          have hplain := hborrowed (by rw [henc]; rfl)
          rw [henc] at hplain
          rw [← bytes_behindBom (fun h => h) (by decide)] at hplain
          exact sameText_of_holds hinput rfl rfl hplain
      | bytes => simp [henc] at hframe
      | missing => simp [henc] at hframe
      | unknown => simp [henc] at hframe
      | latin1 =>
          simp only [henc] at hframe
          obtain ⟨output, houtput, hframe⟩ := except_bind_ok hframe
          obtain rfl := Except.ok.inj hframe
          obtain ⟨storage, after, hview⟩ := hview
          simp only [normalizeUtf8, normalizeUtf8Slow, hna, hdata, henc, houtput, bind, Except.bind,
            reduceCtorEq, or_self, false_and, if_false, Bool.false_eq_true] at hview
          obtain ⟨held, hheld, hheldView⟩ := present_of_stable hview
          exact sameText_of_holds hinput (by cases output <;> rfl) hheld hheldView
      | native =>
          simp only [henc] at hframe
          obtain ⟨output, houtput, hframe⟩ := except_bind_ok hframe
          obtain rfl := Except.ok.inj hframe
          obtain ⟨storage, after, hview⟩ := hview
          simp only [normalizeUtf8, normalizeUtf8Slow, hna, hdata, henc, houtput, bind, Except.bind,
            reduceCtorEq, or_self, false_and, if_false, Bool.false_eq_true, Bool.true_and] at hview
          exact sameText_of_native hkeeps houtput hview hinput

end Agreement

end Charr.Substring
