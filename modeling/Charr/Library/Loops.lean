import Mathlib.Data.List.Range

/-!
# Counting loops that may fail

What is known of the parts of a computation that succeeds. A loop goes over a range of
indices, in a state, and its steps may fail; what every step keeps when it succeeds, and
that it succeeds, is known of the whole loop.
-/

namespace Loops

/-- Both parts of a sequence that succeeds do. -/
theorem except_bind_ok {Error Value Result : Type} {first : Except Error Value}
    {next : Value → Except Error Result} {result : Result}
    (hbind : (first >>= next) = .ok result) :
    ∃ value, first = .ok value ∧ next value = .ok result := by
  cases first with
  | error error => cases hbind
  | ok value => exact ⟨value, rfl, hbind⟩

theorem except_map_ok {Error Value Result : Type} {first : Except Error Value}
    {image : Value → Result} {result : Result} (hmap : first.map image = .ok result) :
    ∃ value, first = .ok value ∧ image value = result := by
  cases first with
  | error error => cases hmap
  | ok value => exact ⟨value, rfl, Except.ok.inj hmap⟩

theorem except_map_error {Error Value Result : Type} {first : Except Error Value}
    {image : Value → Result} {error : Error} (hmap : first.map image = .error error) :
    first = .error error := by
  cases first with
  | error other => exact congrArg _ (Except.error.inj hmap)
  | ok value => cases hmap

theorem except_mapError_ok {Error Raised Value : Type} {first : Except Error Value}
    {raise : Error → Raised} {value : Value} (hmap : first.mapError raise = .ok value) :
    first = .ok value := by
  cases first with
  | error error => cases hmap
  | ok other => exact congrArg _ (Except.ok.inj hmap)

/-- Two computations that agree after a map fail alike or succeed alike. -/
theorem except_map_cases {Error Value Result : Type} {left right : Except Error Value}
    {image : Value → Result} (hmap : left.map image = right.map image) :
    (∃ error, left = .error error ∧ right = .error error) ∨
      ∃ value value', left = .ok value ∧ right = .ok value' ∧ image value = image value' := by
  cases right with
  | error error => exact .inl ⟨error, except_map_error hmap, rfl⟩
  | ok value' =>
      obtain ⟨value, hleft, himage⟩ := except_map_ok hmap
      exact .inr ⟨value, value', hleft, rfl, himage⟩

section Traversals

variable {Error Source Value : Type}

/-- A traversal all of whose steps succeed. -/
theorem mapM_of_ok {compute : Source → Except Error Value} {value : Source → Value}
    {sources : List Source} (hall : ∀ source ∈ sources, compute source = .ok (value source)) :
    sources.mapM compute = .ok (sources.map value) := by
  induction sources with
  | nil => rfl
  | cons source rest ih =>
      obtain ⟨hsource, hrest⟩ := List.forall_mem_cons.mp hall
      rw [List.mapM_cons, hsource, ih hrest]
      rfl

/-- Equal steps give equal results. -/
theorem mapM_congr {compute other : Source → Except Error Value} {sources : List Source}
    (hall : ∀ source ∈ sources, compute source = other source) :
    sources.mapM compute = sources.mapM other := by
  induction sources with
  | nil => rfl
  | cons source rest ih =>
      obtain ⟨hsource, hrest⟩ := List.forall_mem_cons.mp hall
      rw [List.mapM_cons, List.mapM_cons, hsource, ih hrest]

/-- What a traversal returns are the results of its steps, in order. -/
theorem getElem_of_mapM {compute : Source → Except Error Value} {sources : List Source}
    {values : List Value} (hvalues : sources.mapM compute = .ok values) (index : Nat) :
    sources[index]?.map compute = values[index]?.map Except.ok := by
  induction sources generalizing values index with
  | nil =>
      obtain rfl := Except.ok.inj hvalues
      rfl
  | cons source rest ih =>
      rw [List.mapM_cons] at hvalues
      obtain ⟨value, hvalue, hvalues⟩ := except_bind_ok hvalues
      obtain ⟨others, hothers, hreturn⟩ := except_bind_ok hvalues
      obtain rfl := Except.ok.inj hreturn
      cases index with
      | zero => exact congrArg some hvalue
      | succ index => exact ih hothers index

/-- Every value comes from a source. -/
theorem mem_of_mapM {compute : Source → Except Error Value} {sources : List Source}
    {values : List Value} (hvalues : sources.mapM compute = .ok values) :
    ∀ value ∈ values, ∃ source ∈ sources, compute source = .ok value := by
  intro value hmem
  obtain ⟨index, hindex⟩ := List.mem_iff_getElem?.mp hmem
  have hsource := getElem_of_mapM hvalues index
  rw [hindex, Option.map_some, Option.map_eq_some_iff] at hsource
  obtain ⟨source, hget, hcompute⟩ := hsource
  exact ⟨source, List.mem_of_getElem? hget, hcompute⟩

/-- Errors may be raised as others at each step, or at the end. -/
theorem mapM_mapError {Raised : Type} (raise : Error → Raised)
    (compute : Source → Except Error Value) (sources : List Source) :
    sources.mapM (fun source => (compute source).mapError raise) =
      (sources.mapM compute).mapError raise := by
  induction sources with
  | nil => rfl
  | cons source rest ih =>
      rw [List.mapM_cons, List.mapM_cons, ih]
      cases compute source with
      | error error => rfl
      | ok value =>
          cases rest.mapM compute with
          | error error => rfl
          | ok values => rfl

end Traversals

variable {State : Type}

/-- The steps of the indices from `start` on, `count` of them. -/
def forRange (step : State → Nat → Option State) (start count : Nat) (state : State) :
    Option State :=
  (List.range' start count).foldlM step state

variable {step : State → Nat → Option State} {start count : Nat} {state : State}

@[simp] theorem forRange_zero : forRange step start 0 state = some state := rfl

theorem forRange_succ :
    forRange step start (count + 1) state =
      (step state start).bind fun state => forRange step (start + 1) count state := by
  rw [forRange, List.range'_succ, List.foldlM_cons]
  rfl

variable (step start count state) in
/-- A loop all of whose steps succeed and keep the invariant. -/
theorem forRange_invariant (invariant : Nat → State → Prop) (hstart : invariant start state)
    (hstep : ∀ index state, start ≤ index → index < start + count → invariant index state →
      ∃ next, step state index = some next ∧ invariant (index + 1) next) :
    ∃ final, forRange step start count state = some final ∧ invariant (start + count) final := by
  induction count generalizing start state with
  | zero => exact ⟨state, rfl, hstart⟩
  | succ count ih =>
      obtain ⟨next, hnext, hkept⟩ := hstep start state le_rfl (by omega) hstart
      have hrest : ∀ index state, start + 1 ≤ index → index < start + 1 + count →
          invariant index state → ∃ next, step state index = some next ∧
            invariant (index + 1) next :=
        fun index state hlow hhigh => hstep index state (by omega) (by omega)
      obtain ⟨final, hfinal, hinvariant⟩ := ih (start + 1) next hkept hrest
      refine ⟨final, ?_, ?_⟩
      · rw [forRange_succ, hnext]
        exact hfinal
      · have hcount : start + (count + 1) = start + 1 + count := by omega
        rw [hcount]
        exact hinvariant

/-- What steps keep that succeed holds at the end of a loop that does. -/
theorem forRange_keeps (invariant : Nat → State → Prop) (hstart : invariant start state)
    (hstep : ∀ index state next, start ≤ index → index < start + count → invariant index state →
      step state index = some next → invariant (index + 1) next) {final : State}
    (hfinal : forRange step start count state = some final) : invariant (start + count) final := by
  induction count generalizing start state with
  | zero =>
      rw [forRange_zero, Option.some_inj] at hfinal
      rw [← hfinal]
      exact hstart
  | succ count ih =>
      rw [forRange_succ] at hfinal
      obtain ⟨next, hnext, hrest⟩ := Option.bind_eq_some_iff.mp hfinal
      have hcount : start + (count + 1) = start + 1 + count := by omega
      rw [hcount]
      apply ih _ _ hrest
      · exact hstep start state next le_rfl (by omega) hstart hnext
      · intro index state next hlow hhigh
        exact hstep index state next (by omega) (by omega)

variable (step step' : State → Nat → Option State) (start count : Nat) (state state' : State) in
/-- Two loops whose steps are related end alike, in related states. -/
theorem forRange_related (related : Nat → State → State → Prop)
    (hstart : related start state state')
    (hstep : ∀ index state state', start ≤ index → index < start + count →
      related index state state' →
      Option.Rel (related (index + 1)) (step state index) (step' state' index)) :
    Option.Rel (related (start + count)) (forRange step start count state)
      (forRange step' start count state') := by
  induction count generalizing start state state' with
  | zero => exact .some hstart
  | succ count ih =>
      rw [forRange_succ, forRange_succ]
      have hfirst := hstep start state state' le_rfl (by omega) hstart
      revert hfirst
      cases step state start with
      | none =>
          cases step' state' start with
          | none => exact fun _ => .none
          | some _ => exact fun hfirst => by cases hfirst
      | some next =>
          cases step' state' start with
          | none => exact fun hfirst => by cases hfirst
          | some next' =>
              intro hfirst
              have hcount : start + (count + 1) = start + 1 + count := by omega
              rw [hcount]
              apply ih (start + 1) next next'
              · cases hfirst
                assumption
              · intro index state state' hlow hhigh
                exact hstep index state state' (by omega) (by omega)

end Loops
