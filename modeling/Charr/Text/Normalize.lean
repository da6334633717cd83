import Charr.Text.StringView

/-!
# Normalizing views to UTF-8

Before a general search every view is brought to UTF-8. ASCII and UTF-8 are
borrowed where they are, a byte order mark is cut off, and native and Latin-1
text is converted into storage of its own. The conversions themselves belong to
the platform.
-/

namespace Charr

/-- The platform's conversions to UTF-8. -/
structure NativeToUtf8 where
  native : List UInt8 → Except NativeError ViewData
  latin1 : List UInt8 → Except NativeError ViewData
  nativeIsUtf8 : Bool

/-- Storage for converted strings: what has been handed out stays where it is. -/
structure SliceArena where
  next : Nat
  deriving DecidableEq

/-- Storage that nothing else has. -/
def SliceArena.allocate (storage : SliceArena) (bytes : Nat) : Nat × SliceArena :=
  (storage.next, ⟨storage.next + bytes⟩)

/-- The bytes begin with a byte order mark. -/
def hasBom (bytes : List UInt8) : Bool :=
  bytes.length ≥ 3 ∧ bytes.take 3 = [0xef, 0xbb, 0xbf]

/-- The static empty string. -/
def emptySpan : Span := ⟨0, [], Nat.zero_le _⟩

/-- Cut off a byte order mark; an empty rest is the static empty string. -/
def borrowed (stripBom : Bool) (span : Span) (enc : StringEncoding) : StringView :=
  let span := if stripBom then span.slice 3 span.bytes.length else span
  ⟨.bytes (if span.bytes.length = 0 then emptySpan else span), enc⟩

/-- Copy converted bytes into the storage. -/
def stable (storage : SliceArena) (converted : ViewData) :
    Except NativeError (StringView × SliceArena) :=
  let invalid : NativeError := .runtimeError "encoding conversion returned invalid bytes"
  match converted with
  | .null len =>
      if len < 0 ∨ len > 0 then .error invalid
      else .ok (⟨.bytes emptySpan, .utf8⟩, storage)
  | .bytes span =>
      if span.bytes.length = 0 then .ok (⟨.bytes emptySpan, .utf8⟩, storage)
      else
        let (address, storage) := storage.allocate span.bytes.length
        .ok (⟨.bytes { span with address }, .utf8⟩, storage)

/-- A view in UTF-8: borrowed where it is so already, converted into the storage otherwise. -/
def normalizeUtf8Slow (converter : NativeToUtf8) (storage : SliceArena) (source : StringView)
    (stripBomPolicy : Bool) : Except NativeError (StringView × SliceArena) :=
  if source.isNa then .ok (StringView.na, storage)
  else
    match source.data with
    | .null _ => .error (.runtimeError "invalid string view")
    | .bytes span =>
        let stripBom := stripBomPolicy && hasBom span.bytes
        match source.enc with
        | .bytes => .error (.runtimeError "bytes encoding is not supported by this function")
        | .ascii => .ok (borrowed false span .ascii, storage)
        | .utf8 => .ok (borrowed stripBom span .utf8, storage)
        | .asciiOrUtf8 =>
            .ok (borrowed stripBom span (if stripBom then .utf8 else .asciiOrUtf8), storage)
        | .latin1 => do stable storage (← converter.latin1 span.bytes)
        | .native =>
            if converter.nativeIsUtf8 then .ok (borrowed stripBom span .utf8, storage)
            else do stable storage (← converter.native span.bytes)
        | .missing => .error (.runtimeError "non-missing string view has NA encoding")
        | .unknown => .error (.runtimeError "unknown string encoding")

/-- ASCII, and UTF-8 without a byte order mark, are borrowed as they are. -/
def normalizeUtf8 (converter : NativeToUtf8) (storage : SliceArena) (source : StringView) :
    Except NativeError (StringView × SliceArena) :=
  if source.isNa then .ok (source, storage)
  else
    match source.data with
    | .null _ => normalizeUtf8Slow converter storage source true
    | .bytes span =>
        if source.enc = .ascii then .ok (source, storage)
        else if (source.enc = .utf8 ∨ source.enc = .asciiOrUtf8) ∧ !hasBom span.bytes then
          .ok (source, storage)
        else normalizeUtf8Slow converter storage source true

/-- The same, except that a byte order mark stays. -/
def normalizeUtf8PreserveBom (converter : NativeToUtf8) (storage : SliceArena)
    (source : StringView) : Except NativeError (StringView × SliceArena) :=
  if source.isNa then .ok (source, storage)
  else
    match source.data with
    | .null _ => normalizeUtf8Slow converter storage source false
    | .bytes _ =>
        if source.enc = .ascii ∨ source.enc = .utf8 ∨ source.enc = .asciiOrUtf8 then
          .ok (source, storage)
        else normalizeUtf8Slow converter storage source false

/-- Normalize a whole vector, in order. -/
def normalizeViews (converter : NativeToUtf8) :
    SliceArena → List StringView → Except NativeError (List StringView)
  | _, [] => .ok []
  | storage, source :: rest => do
      let (view, storage) ← normalizeUtf8 converter storage source
      let views ← normalizeViews converter storage rest
      return view :: views

/-! ## Where converted text is put -/

section Storage

variable {converter : NativeToUtf8}

/-- Where a conversion is stored does not matter to what it holds. -/
theorem stable_unplaced (storage other : SliceArena) (converted : ViewData) :
    (stable storage converted).map (fun result => result.1.unplaced) =
      (stable other converted).map fun result => result.1.unplaced := by
  cases converted with
  | null len =>
      simp only [stable]
      split <;> rfl
  | bytes span =>
      simp only [stable]
      split <;> rfl

/-- Where converted bytes are put does not matter to what they are. -/
theorem normalizeUtf8_unplaced (storage other : SliceArena) (view : StringView) :
    (normalizeUtf8 converter storage view).map (fun result => result.1.unplaced) =
      (normalizeUtf8 converter other view).map fun result => result.1.unplaced := by
  have hslow : ∀ policy,
      (normalizeUtf8Slow converter storage view policy).map (fun result => result.1.unplaced) =
        (normalizeUtf8Slow converter other view policy).map fun result => result.1.unplaced := by
    intro policy
    have hbind : ∀ conversion : Except NativeError ViewData,
        (conversion >>= stable storage).map (fun result => result.1.unplaced) =
          (conversion >>= stable other).map fun result => result.1.unplaced := by
      intro conversion
      cases conversion with
      | error error => rfl
      | ok data => exact stable_unplaced storage other data
    unfold normalizeUtf8Slow
    split
    next => rfl
    next =>
      split
      next => rfl
      next =>
        dsimp only
        split
        next => rfl
        next => rfl
        next => rfl
        next => rfl
        next => exact hbind _
        next =>
          split
          next => rfl
          next => exact hbind _
        next => rfl
        next => rfl
  unfold normalizeUtf8
  split
  next => rfl
  next =>
    split
    next => exact hslow true
    next =>
      split
      next => rfl
      next =>
        split
        next => rfl
        next => exact hslow true

end Storage

/-! ## Normalized views -/

/-- A normalized view is missing or points at bytes. -/
def Normalized (view : StringView) : Prop :=
  view.isNa = true ∨ ∃ span, view.data = .bytes span

theorem normalized_getD {views : List StringView} (hviews : ∀ view ∈ views, Normalized view)
    (index : Nat) : Normalized (views.getD index .na) := by
  rw [List.getD_eq_getElem?_getD]
  cases hget : views[index]? with
  | none => exact .inl rfl
  | some view => exact hviews view (List.mem_of_getElem? hget)

variable {converter : NativeToUtf8} {storage storage' : SliceArena} {source view : StringView}

/-- What a conversion stores is normalized. -/
theorem normalized_stable {converted : ViewData}
    (hview : stable storage converted = .ok (view, storage')) : Normalized view := by
  cases converted with
  | null len =>
      simp only [stable] at hview
      split at hview
      · exact absurd hview (by simp)
      · obtain ⟨rfl, -⟩ := Prod.mk.inj (Except.ok.inj hview)
        exact .inr ⟨_, rfl⟩
  | bytes span =>
      simp only [stable] at hview
      split at hview
      · obtain ⟨rfl, -⟩ := Prod.mk.inj (Except.ok.inj hview)
        exact .inr ⟨_, rfl⟩
      · obtain ⟨rfl, -⟩ := Prod.mk.inj (Except.ok.inj hview)
        exact .inr ⟨_, rfl⟩

theorem normalized_bind_stable {conversion : Except NativeError ViewData}
    (hview : conversion >>= stable storage = .ok (view, storage')) : Normalized view := by
  cases conversion with
  | error error => exact absurd hview (by simp [bind, Except.bind])
  | ok converted => exact normalized_stable hview

theorem normalized_slow {stripBomPolicy : Bool}
    (hview : normalizeUtf8Slow converter storage source stripBomPolicy = .ok (view, storage')) :
    Normalized view := by
  have hborrowed : ∀ {stripBom : Bool} {span : Span} {enc : StringEncoding},
      (Except.ok (borrowed stripBom span enc, storage) :
        Except NativeError (StringView × SliceArena)) = .ok (view, storage') →
      Normalized view := by
    intro stripBom span enc heq
    obtain ⟨rfl, -⟩ := Prod.mk.inj (Except.ok.inj heq)
    exact .inr ⟨_, rfl⟩
  unfold normalizeUtf8Slow at hview
  split at hview
  next =>
    obtain ⟨rfl, -⟩ := Prod.mk.inj (Except.ok.inj hview)
    exact .inl rfl
  next =>
    cases hdata : source.data with
    | null len => simp [hdata] at hview
    | bytes span =>
        simp only [hdata] at hview
        cases henc : source.enc with
        | bytes => simp [henc] at hview
        | ascii =>
            simp only [henc] at hview
            exact hborrowed hview
        | utf8 =>
            simp only [henc] at hview
            exact hborrowed hview
        | asciiOrUtf8 =>
            simp only [henc] at hview
            exact hborrowed hview
        | latin1 =>
            simp only [henc] at hview
            exact normalized_bind_stable hview
        | native =>
            simp only [henc] at hview
            split at hview
            · exact hborrowed hview
            · exact normalized_bind_stable hview
        | missing => simp [henc] at hview
        | unknown => simp [henc] at hview

/-- Every value that is normalized without an error is normalized. -/
theorem normalized_normalizeUtf8
    (hview : normalizeUtf8 converter storage source = .ok (view, storage')) :
    Normalized view := by
  unfold normalizeUtf8 at hview
  split at hview
  next hna =>
    obtain ⟨rfl, -⟩ := Prod.mk.inj (Except.ok.inj hview)
    exact .inl hna
  next =>
    cases hdata : source.data with
    | null len =>
        simp only [hdata] at hview
        exact normalized_slow hview
    | bytes span =>
        simp only [hdata] at hview
        split at hview
        · obtain ⟨rfl, -⟩ := Prod.mk.inj (Except.ok.inj hview)
          exact .inr ⟨span, hdata⟩
        · split at hview
          · obtain ⟨rfl, -⟩ := Prod.mk.inj (Except.ok.inj hview)
            exact .inr ⟨span, hdata⟩
          · exact normalized_slow hview

/-- Normalizing a vector gives as many views, all of them normalized. -/
theorem normalizeViews_spec {source views : List StringView}
    (hviews : normalizeViews converter storage source = .ok views) :
    views.length = source.length ∧ ∀ view ∈ views, Normalized view := by
  induction source generalizing storage views with
  | nil =>
      obtain rfl := Except.ok.inj hviews
      simp
  | cons first rest ih =>
      rw [normalizeViews] at hviews
      cases hfirst : normalizeUtf8 converter storage first with
      | error error => simp [hfirst, bind, Except.bind] at hviews
      | ok normalized =>
          obtain ⟨view, storage⟩ := normalized
          cases hrest : normalizeViews converter storage rest with
          | error error => simp [hfirst, hrest, bind, Except.bind] at hviews
          | ok others =>
              simp only [hfirst, hrest, bind, Except.bind, pure, Except.pure,
                Except.ok.injEq] at hviews
              obtain ⟨hlength, hall⟩ := ih hrest
              subst hviews
              refine ⟨by rw [List.length_cons, List.length_cons, hlength], ?_⟩
              rw [List.forall_mem_cons]
              exact ⟨normalized_normalizeUtf8 hfirst, hall⟩

end Charr
