import Mathlib.Data.List.Basic

/-!
# Converting a stream into a buffer that grows

A converter takes some input and has some room, and stops when either ends. It is called
again with more room until all input is taken, and then until it has put out what it still
holds. What ends up in the buffer is what converting everything at once gives, however the
buffer grew.
-/

namespace Streaming

variable {State α β ε : Type}

/-- How one call ends: the input is taken, the room is too small, or the input is not valid. -/
inductive Progress (State β ε : Type) where
  | finished (produced : List β) (state : State)
  | full (consumed : Nat) (produced : List β) (state : State)
  | failed (error : ε)

/-- A conversion with a shift state, which is told how much room it has. -/
structure Converter (State α β ε : Type) where
  initial : State
  convert : State → List α → Nat → Progress State β ε
  flush : State → Nat → Progress State β ε

/-- Everything a conversion puts out, and the error it ends with, if it does. -/
abbrev Whole (β ε : Type) : Type := List β × Option ε

/-- What a call did, when `whole` is everything that was to come and `left` is what still is. -/
structure Stepped (room : Nat) (produced : List β) (whole left : Whole β ε) : Prop where
  fits : produced.length ≤ room
  split : whole = (produced ++ left.1, left.2)

/-- The converter puts out what `rest` says is still to come. It asks for more room only when
it does not have enough, and meets an error only after what comes before it. -/
structure Converter.Lawful (converter : Converter State α β ε)
    (rest : State → List α → Whole β ε) : Prop where
  finished : ∀ {state input room produced next}, input ≠ [] →
    converter.convert state input room = .finished produced next →
    Stepped room produced (rest state input) (rest next [])
  full : ∀ {state input room consumed produced next}, input ≠ [] →
    converter.convert state input room = .full consumed produced next →
    Stepped room produced (rest state input) (rest next (input.drop consumed)) ∧
      room < (rest state input).1.length
  failed : ∀ {state input room error}, input ≠ [] →
    converter.convert state input room = .failed error →
    (rest state input).2 = some error ∧ (rest state input).1.length ≤ room
  flush_finished : ∀ {state room produced next},
    converter.flush state room = .finished produced next →
    Stepped room produced (rest state []) ([], none)
  flush_full : ∀ {state room consumed produced next},
    converter.flush state room = .full consumed produced next →
    Stepped room produced (rest state []) (rest next []) ∧ room < (rest state []).1.length
  flush_failed : ∀ {state room error},
    converter.flush state room = .failed error →
    (rest state []).2 = some error ∧ (rest state []).1.length ≤ room

/-! ## The buffer -/

/-- A buffer whose first part is filled. -/
structure Filling (β : Type) where
  buffer : List β
  used : Nat
  deriving DecidableEq

namespace Filling

variable (filling : Filling β)

/-- The bytes of the buffer that are free. -/
def room : Nat := filling.buffer.length - filling.used

/-- The bytes that are written. -/
def text : List β := filling.buffer.take filling.used

/-- The buffer with more bytes written behind. -/
def accept (produced : List β) : Filling β where
  buffer := filling.buffer.take filling.used ++ produced ++
    filling.buffer.drop (filling.used + produced.length)
  used := filling.used + produced.length

variable {filling} {produced : List β}

/-- Bytes that fit leave the buffer as long as it is. -/
theorem length_accept (hused : filling.used ≤ filling.buffer.length)
    (hfits : produced.length ≤ filling.room) :
    (filling.accept produced).buffer.length = filling.buffer.length ∧
      (filling.accept produced).used ≤ filling.buffer.length := by
  unfold room at hfits
  simp only [accept, List.length_append, List.length_take, List.length_drop]
  omega

/-- Accepted bytes stand behind what was written before. -/
theorem text_accept (hused : filling.used ≤ filling.buffer.length) :
    (filling.accept produced).text = filling.text ++ produced := by
  have hlength : (filling.buffer.take filling.used ++ produced).length =
      filling.used + produced.length := by
    rw [List.length_append, List.length_take_of_le hused]
  rw [text, accept, ← hlength, List.take_left]
  rfl

theorem length_text (hused : filling.used ≤ filling.buffer.length) :
    filling.text.length = filling.used :=
  List.length_take_of_le hused

end Filling

/-! ## The loops -/

/-- Why a conversion gives nothing. -/
inductive Stop (ε : Type) where
  | tooLarge
  | failed (error : ε)
  deriving DecidableEq

/-- A way to make a buffer larger, up to `maximum`. -/
structure Grows (grow : List β → Option (List β)) (maximum : Nat) : Prop where
  larger : ∀ {buffer grown}, grow buffer = some grown →
    buffer <+: grown ∧ buffer.length < grown.length ∧ grown.length ≤ maximum
  stops : ∀ {buffer}, grow buffer = none → maximum ≤ buffer.length

section Loops

variable (converter : Converter State α β ε) (grow : List β → Option (List β))

/-- Take all the input, while there is fuel. -/
def convertLoop : Nat → State → List α → Filling β →
    Option (Except (Stop ε × List β) (State × Filling β))
  | 0, _, _, _ => none
  | fuel + 1, state, input, filling =>
      if input = [] then some (.ok (state, filling))
      else
        match converter.convert state input filling.room with
        | .finished produced next => some (.ok (next, filling.accept produced))
        | .failed error => some (.error (.failed error, filling.buffer))
        | .full consumed produced next =>
            let filling := filling.accept produced
            match grow filling.buffer with
            | none => some (.error (.tooLarge, filling.buffer))
            | some grown =>
                convertLoop fuel next (input.drop consumed) ⟨grown, filling.used⟩

/-- Put out what the converter holds, while there is fuel. -/
def flushLoop : Nat → State → Filling β → Option (Except (Stop ε × List β) (Filling β))
  | 0, _, _ => none
  | fuel + 1, state, filling =>
      match converter.flush state filling.room with
      | .finished produced _ => some (.ok (filling.accept produced))
      | .failed error => some (.error (.failed error, filling.buffer))
      | .full _ produced next =>
          let filling := filling.accept produced
          match grow filling.buffer with
          | none => some (.error (.tooLarge, filling.buffer))
          | some grown => flushLoop fuel next ⟨grown, filling.used⟩

/-- The whole conversion, into a buffer that may hold anything. -/
def run (fuel : Nat) (input : List α) (buffer : List β) :
    Option (Except (Stop ε × List β) (Filling β)) := do
  match ← convertLoop converter grow fuel converter.initial input ⟨buffer, 0⟩ with
  | .error stop => return .error stop
  | .ok (state, filling) => flushLoop converter grow fuel state filling

end Loops

/-! ## What the loops give -/

/-- A buffer that is filled as far as it says, and not too large. -/
structure Filling.Within (filling : Filling β) (maximum : Nat) : Prop where
  used_le : filling.used ≤ filling.buffer.length
  length_le : filling.buffer.length ≤ maximum

/-- What a conversion gives when `maximum` is the most it may put out. -/
def answer (maximum : Nat) (whole : Whole β ε) : Except (Stop ε) (List β) :=
  if whole.1.length ≤ maximum then
    match whole.2 with
    | none => .ok whole.1
    | some error => .error (.failed error)
  else .error .tooLarge

/-- The outcome is the answer to what was there and what was still to come, and the buffer is
not too large. -/
def Meets (maximum : Nat) (filling : Filling β) (left : Whole β ε)
    (outcome : Except (Stop ε × List β) (Filling β)) : Prop :=
  match outcome with
  | .ok final =>
      final.Within maximum ∧ answer maximum (filling.text ++ left.1, left.2) = .ok final.text
  | .error (stop, buffer) =>
      buffer.length ≤ maximum ∧
        answer maximum (filling.text ++ left.1, left.2) = .error stop

/-- What is still to come before a step, from what is behind it. -/
theorem Meets.absorb {maximum : Nat} {filling later : Filling β} {produced : List β}
    {whole left : Whole β ε} {outcome : Except (Stop ε × List β) (Filling β)}
    (htext : later.text = filling.text ++ produced)
    (hwhole : whole = (produced ++ left.1, left.2))
    (hmeets : Meets maximum later left outcome) : Meets maximum filling whole outcome := by
  subst hwhole
  have hsame : (later.text ++ left.1, left.2) =
      (filling.text ++ (produced ++ left.1), left.2) := by
    rw [htext, List.append_assoc]
  unfold Meets at hmeets ⊢
  rwa [hsame] at hmeets

section Loops

variable {converter : Converter State α β ε} {rest : State → List α → Whole β ε}
  {grow : List β → Option (List β)} {maximum : Nat}

/-- The room a step leaves, after the buffer grew. -/
theorem Filling.Within.grown {filling : Filling β} {produced grown : List β}
    (hwithin : filling.Within maximum) (hfits : produced.length ≤ filling.room)
    (hgrows : Grows grow maximum) (hgrown : grow (filling.accept produced).buffer = some grown) :
    let later : Filling β := ⟨grown, (filling.accept produced).used⟩
    later.Within maximum ∧ filling.buffer.length < grown.length ∧
      later.text = filling.text ++ produced := by
  obtain ⟨hlength, hused⟩ := Filling.length_accept hwithin.used_le hfits
  obtain ⟨⟨added, rfl⟩, hlarger, hmaximum⟩ := hgrows.larger hgrown
  rw [hlength] at hlarger
  refine ⟨⟨Nat.le_trans hused (Nat.le_of_lt hlarger), hmaximum⟩, hlarger, ?_⟩
  rw [← Filling.text_accept hwithin.used_le]
  exact List.take_append_of_le_length (hlength ▸ hused)

theorem Filling.Within.accept {filling : Filling β} {produced : List β}
    (hwithin : filling.Within maximum) (hfits : produced.length ≤ filling.room) :
    (filling.accept produced).Within maximum := by
  obtain ⟨hlength, hused⟩ := Filling.length_accept hwithin.used_le hfits
  exact ⟨hlength.symm ▸ hused, hlength.symm ▸ hwithin.length_le⟩

/-- A buffer that cannot grow is too small for what is still to come. -/
theorem meets_tooLarge {filling : Filling β} {produced : List β} {whole : Whole β ε}
    (hwithin : filling.Within maximum) (hfits : produced.length ≤ filling.room)
    (hgrows : Grows grow maximum) (hstops : grow (filling.accept produced).buffer = none)
    (hmore : filling.room < whole.1.length) :
    Meets maximum filling whole (.error (.tooLarge, (filling.accept produced).buffer)) := by
  have hlength := (Filling.length_accept hwithin.used_le hfits).1
  have hmaximum := hgrows.stops hstops
  have hused := hwithin.used_le
  refine ⟨hlength.symm ▸ hwithin.length_le, if_neg ?_⟩
  unfold Filling.room at hmore
  rw [List.length_append, Filling.length_text hused]
  omega

/-- An error that is met has room for all that comes before it. -/
theorem meets_failed {filling : Filling β} {whole : Whole β ε} {error : ε}
    (hwithin : filling.Within maximum) (herror : whole.2 = some error)
    (hfits : whole.1.length ≤ filling.room) :
    Meets maximum filling whole (.error (.failed error, filling.buffer)) := by
  have hused := hwithin.used_le
  have hmaximum := hwithin.length_le
  refine ⟨hmaximum, ?_⟩
  unfold Filling.room at hfits
  have hall : (filling.text ++ whole.1).length ≤ maximum := by
    rw [List.length_append, Filling.length_text hused]
    omega
  rw [answer, if_pos hall, herror]

variable (hlawful : converter.Lawful rest) (hgrows : Grows grow maximum)
include hlawful hgrows

/-- Flushing meets the end of the conversion, with as much room as it takes. -/
theorem flushLoop_meets (fuel : Nat) {state : State} {filling : Filling β}
    (hwithin : filling.Within maximum) (hfuel : maximum - filling.buffer.length < fuel) :
    ∃ outcome, flushLoop converter grow fuel state filling = some outcome ∧
      Meets maximum filling (rest state []) outcome := by
  induction fuel generalizing state filling with
  | zero => exact absurd hfuel (Nat.not_lt_zero _)
  | succ fuel ih =>
      rw [flushLoop]
      cases hflush : converter.flush state filling.room with
      | finished produced next =>
          obtain ⟨hfits, hwhole⟩ := hlawful.flush_finished hflush
          have hfinal := hwithin.accept hfits
          have htext := @Filling.text_accept _ _ produced hwithin.used_le
          have hall : (filling.accept produced).text.length ≤ maximum := by
            rw [Filling.length_text hfinal.used_le]
            exact Nat.le_trans hfinal.used_le hfinal.length_le
          refine ⟨_, rfl, hfinal, ?_⟩
          rw [hwhole, List.append_nil, ← htext]
          exact if_pos hall
      | failed error =>
          obtain ⟨herror, hfits⟩ := hlawful.flush_failed hflush
          exact ⟨_, rfl, meets_failed hwithin herror hfits⟩
      | full consumed produced next =>
          obtain ⟨⟨hfits, hwhole⟩, hmore⟩ := hlawful.flush_full hflush
          dsimp only
          cases hgrown : grow (filling.accept produced).buffer with
          | none => exact ⟨_, rfl, meets_tooLarge hwithin hfits hgrows hgrown hmore⟩
          | some grown =>
              obtain ⟨hlater, hlarger, htext⟩ := hwithin.grown hfits hgrows hgrown
              have hmaximum := hlater.length_le
              obtain ⟨outcome, houtcome, hmeets⟩ :=
                @ih next ⟨grown, (filling.accept produced).used⟩ hlater (by
                  simp only at hmaximum ⊢
                  omega)
              exact ⟨outcome, houtcome, hmeets.absorb htext hwhole⟩

/-- All the input is taken, or there is the error the whole conversion meets. -/
theorem convertLoop_takes (fuel : Nat) {state : State} {input : List α} {filling : Filling β}
    (hwithin : filling.Within maximum) (hfuel : maximum - filling.buffer.length < fuel) :
    ∃ outcome, convertLoop converter grow fuel state input filling = some outcome ∧
      match outcome with
      | .ok (next, final) =>
          final.Within maximum ∧ ∃ produced, final.text = filling.text ++ produced ∧
            rest state input = (produced ++ (rest next []).1, (rest next []).2)
      | .error stop => Meets maximum filling (rest state input) (.error stop) := by
  induction fuel generalizing state input filling with
  | zero => exact absurd hfuel (Nat.not_lt_zero _)
  | succ fuel ih =>
      rw [convertLoop]
      split
      next hempty =>
        subst hempty
        exact ⟨_, rfl, hwithin, [], (List.append_nil _).symm, rfl⟩
      next hsome =>
        cases hconvert : converter.convert state input filling.room with
        | finished produced next =>
            obtain ⟨hfits, hwhole⟩ := hlawful.finished hsome hconvert
            exact ⟨_, rfl, hwithin.accept hfits, produced,
              Filling.text_accept hwithin.used_le, hwhole⟩
        | failed error =>
            obtain ⟨herror, hfits⟩ := hlawful.failed hsome hconvert
            exact ⟨_, rfl, meets_failed hwithin herror hfits⟩
        | full consumed produced next =>
            obtain ⟨⟨hfits, hwhole⟩, hmore⟩ := hlawful.full hsome hconvert
            dsimp only
            cases hgrown : grow (filling.accept produced).buffer with
            | none => exact ⟨_, rfl, meets_tooLarge hwithin hfits hgrows hgrown hmore⟩
            | some grown =>
                obtain ⟨hlater, hlarger, htext⟩ := hwithin.grown hfits hgrows hgrown
                have hmaximum := hlater.length_le
                obtain ⟨outcome, houtcome, htakes⟩ :=
                  @ih next (input.drop consumed) ⟨grown, (filling.accept produced).used⟩ hlater (by
                    simp only at hmaximum ⊢
                    omega)
                refine ⟨outcome, houtcome, ?_⟩
                cases outcome with
                | error stop => exact Meets.absorb htext hwhole htakes
                | ok taken =>
                    obtain ⟨final, more, hfinal, hleft⟩ := htakes
                    refine ⟨final, produced ++ more, ?_, ?_⟩
                    · rw [hfinal, htext, List.append_assoc]
                    · rw [hwhole, hleft, List.append_assoc]

/-- Whatever the buffer held, the conversion gives the answer to what the input is in whole. -/
theorem run_meets {input : List α} {buffer : List β} (hbuffer : buffer.length ≤ maximum)
    {fuel : Nat} (hfuel : maximum < fuel) :
    ∃ outcome, run converter grow fuel input buffer = some outcome ∧
      Meets maximum ⟨buffer, 0⟩ (rest converter.initial input) outcome := by
  have hwithin : Filling.Within ⟨buffer, 0⟩ maximum := ⟨Nat.zero_le _, hbuffer⟩
  obtain ⟨taken, hconvert, htakes⟩ := convertLoop_takes hlawful hgrows fuel hwithin
    (Nat.lt_of_le_of_lt (Nat.sub_le _ _) hfuel)
  rw [run, hconvert]
  cases taken with
  | error stop => exact ⟨_, rfl, htakes⟩
  | ok taken =>
      obtain ⟨hfinal, produced, htext, hwhole⟩ := htakes
      obtain ⟨outcome, houtcome, hmeets⟩ := flushLoop_meets hlawful hgrows fuel hfinal
        (Nat.lt_of_le_of_lt (Nat.sub_le _ _) hfuel)
      exact ⟨outcome, houtcome, hmeets.absorb htext hwhole⟩

end Loops

end Streaming
