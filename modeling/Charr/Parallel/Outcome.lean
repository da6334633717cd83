import Charr.Parallel.Invariant

/-!
# What a completed region did

Once every worker has been joined, the invariant fixes what can be observed: the
chunks that ran, the outcome the driver reports, the output slots and the
warning counters. None of it mentions the schedule.
-/

namespace Charr.Parallel

variable {Local Value Error : Type}

/-! ## The failure scan -/

namespace Region

/-- The lower failure is one of the two, and none is below it. -/
theorem lowerFailure_eq_some {first : Option WorkerReport} {report chosen : WorkerReport}
    (heq : lowerFailure first report = some chosen) :
    (first = some chosen ∨ (chosen = report ∧ report.failed = true)) ∧
      (∀ earlier, first = some earlier → chosen.failedAt ≤ earlier.failedAt) ∧
      (report.failed = true → chosen.failedAt ≤ report.failedAt) := by
  unfold lowerFailure at heq
  cases first with
  | none =>
      simp only [Option.ite_none_right_eq_some, Option.some.injEq] at heq
      obtain ⟨hfailed, rfl⟩ := heq
      exact ⟨Or.inr ⟨rfl, hfailed⟩, by simp, fun _ => le_rfl⟩
  | some earlier =>
      simp only at heq
      split at heq
      next hlower =>
        obtain rfl := Option.some.inj heq
        refine ⟨Or.inr ⟨rfl, hlower.1⟩, ?_, fun _ => le_rfl⟩
        rintro _ ⟨⟩
        exact hlower.2.le
      next hnot =>
        obtain rfl := Option.some.inj heq
        refine ⟨Or.inl rfl, by simp, fun hfailed => ?_⟩
        by_contra hlt
        exact hnot ⟨hfailed, not_le.mp hlt⟩

theorem lowerFailure_eq_none {first : Option WorkerReport} {report : WorkerReport} :
    lowerFailure first report = none ↔ first = none ∧ report.failed = false := by
  unfold lowerFailure
  cases first with
  | none => simp
  | some chosen =>
      simp only [reduceCtorEq, false_and, iff_false]
      split <;> simp

/-- No failure is found exactly if no worker failed. -/
theorem foldl_lowerFailure_eq_none (reports : Nat → WorkerReport) (count : Nat) :
    (List.range count).foldl (fun first index => lowerFailure first (reports index)) none =
        none ↔ ∀ index < count, (reports index).failed = false := by
  induction count with
  | zero => simp
  | succ count ih =>
      rw [List.range_succ, List.foldl_append, List.foldl_cons, List.foldl_nil,
        lowerFailure_eq_none, ih]
      constructor
      · rintro ⟨hbefore, hlast⟩ index hindex
        rcases Nat.lt_succ_iff_lt_or_eq.mp hindex with hlt | rfl
        · exact hbefore index hlt
        · exact hlast
      · intro hall
        exact ⟨fun index hindex => hall index (by omega), hall count (by omega)⟩

/-- The failure that is found is a worker's, and the lowest. -/
theorem foldl_lowerFailure_eq_some (reports : Nat → WorkerReport) (count : Nat)
    {chosen : WorkerReport}
    (heq : (List.range count).foldl (fun first index => lowerFailure first (reports index))
      none = some chosen) :
    (∃ index < count, reports index = chosen ∧ chosen.failed = true) ∧
      ∀ index < count, (reports index).failed = true →
        chosen.failedAt ≤ (reports index).failedAt := by
  induction count generalizing chosen with
  | zero => simp at heq
  | succ count ih =>
      rw [List.range_succ, List.foldl_append, List.foldl_cons, List.foldl_nil] at heq
      obtain ⟨hfrom, hearlier, hlast⟩ := lowerFailure_eq_some heq
      constructor
      · rcases hfrom with hfirst | ⟨rfl, hfailed⟩
        · obtain ⟨index, hindex, hreport⟩ := (ih hfirst).1
          exact ⟨index, by omega, hreport⟩
        · exact ⟨count, by omega, rfl, hfailed⟩
      · intro index hindex hfailed
        rcases Nat.lt_succ_iff_lt_or_eq.mp hindex with hlt | rfl
        · cases hfirst : (List.range count).foldl
              (fun first index => lowerFailure first (reports index)) none with
          | none =>
              have hnone := (foldl_lowerFailure_eq_none reports count).mp hfirst index hlt
              rw [hfailed] at hnone
              exact absurd hnone (by simp)
          | some earlier =>
              exact (hearlier earlier hfirst).trans ((ih hfirst).2 index hlt hfailed)
        · exact hlast hfailed

/-- The scan over the joined workers finds a failure at the lowest position. -/
theorem firstFailure_eq_some {region : Region Local Value Error} {chosen : WorkerReport}
    (heq : region.firstFailure = some chosen) :
    (∃ index < region.workers, (region.worker index).report = chosen ∧
        chosen.failed = true) ∧
      ∀ index < region.workers, (region.worker index).report.failed = true →
        chosen.failedAt ≤ (region.worker index).report.failedAt :=
  foldl_lowerFailure_eq_some (fun index => (region.worker index).report) region.workers heq

/-- A region has no failure exactly if no worker of it failed. -/
theorem firstFailure_eq_none {region : Region Local Value Error} :
    region.firstFailure = none ↔
      ∀ index < region.workers, (region.worker index).report.failed = false :=
  foldl_lowerFailure_eq_none (fun index => (region.worker index).report) region.workers

end Region

/-! ## Joined workers -/

/-- How the driver reports `error`: a serial run lets it propagate. -/
def failureOutcome (workers : Nat) (describeError : Error → String) (error : Error) :
    Outcome Error :=
  if workers < 2 then .propagated error else .runtimeError (describeError error)

@[simp] theorem failureOutcome_message (workers : Nat) (describeError : Error → String)
    (error : Error) :
    (failureOutcome workers describeError error).message describeError =
      some (describeError error) := by
  unfold failureOutcome
  split <;> rfl

/-- Either every chunk runs through, or a first one throws and all below it run
through. -/
theorem first_throws_cases {ends : Nat → Ending String} {count : Nat}
    (hstops : ∀ number < count, ends number ≠ .stopsEarly) :
    (∀ number < count, ends number = .next) ∨
      ∃ number message, number < count ∧ (∀ earlier < number, ends earlier = .next) ∧
        ends number = .throws message := by
  induction count with
  | zero => exact Or.inl fun number hnumber => absurd hnumber (by omega)
  | succ count ih =>
      rcases ih fun number hnumber => hstops number (by omega) with
        hall | ⟨number, message, hnumber, hrest⟩
      · cases hend : ends count with
        | next =>
            left
            intro number hnumber
            rcases Nat.lt_succ_iff_lt_or_eq.mp hnumber with hlt | rfl
            · exact hall number hlt
            · exact hend
        | throws message => exact Or.inr ⟨count, message, by omega, hall, hend⟩
        | stopsEarly => exact absurd hend (hstops count (by omega))
      · exact Or.inr ⟨number, message, by omega, hrest⟩

/-- Where every chunk ends well there is no error. -/
theorem findSome_error_of_next {ends : Nat → Ending String} {count : Nat}
    (hall : ∀ number < count, ends number = .next) :
    (List.range count).findSome? (fun number => (ends number).error) = none := by
  rw [List.findSome?_eq_none_iff]
  intro number hnumber
  rw [hall number (List.mem_range.mp hnumber)]
  rfl

theorem range_split {count number : Nat} (hnumber : number < count) :
    List.range count =
      List.range number ++ number :: List.range' (number + 1) (count - (number + 1)) := by
  have hjoin := List.range'_append_1 (s := 0) (m := number) (n := count - number)
  rw [Nat.zero_add, Nat.add_sub_cancel' hnumber.le] at hjoin
  rw [List.range_eq_range', ← hjoin, List.range_eq_range',
    show count - number = count - (number + 1) + 1 by omega, List.range'_succ]

/-- Where chunks end well up to one that throws, its message is the first. -/
theorem findSome_error_of_first {ends : Nat → Ending String} {count number : Nat}
    {message : String} (hnumber : number < count)
    (hbelow : ∀ earlier < number, ends earlier = .next) (hthrows : ends number = .throws message) :
    (List.range count).findSome? (fun number => (ends number).error) = some message := by
  rw [range_split hnumber, List.findSome?_append, findSome_error_of_next hbelow,
    List.findSome?_cons, hthrows]
  rfl

section Completed

variable {body : ParallelBody Local Value Error} {workers tasks chunk : Nat}
  {history : Nat → List Nat → Local → Prop}
  {post : Nat → Ending Error → List (Entry Value) → Prop} {initial : Shared Value}
  {region : Region Local Value Error} {index : Nat}

/-- A joined worker left every chunk it won, and only the last of them can have
ended it. -/
inductive Joined (body : ParallelBody Local Value Error) (tasks chunk : Nat)
    (post : Nat → Ending Error → List (Entry Value) → Prop)
    (trace : Nat → List (Entry Value)) (claimed : Nat) :
    List Nat → Phase Error → WorkerReport → Prop
  | drained {mine : List Nat}
      (hfinished : ∀ number ∈ mine, post number .next (trace number))
      (hclaimed : chunkCount tasks chunk ≤ claimed) :
      Joined body tasks chunk post trace claimed mine .returned {}
  | failed {finished : List Nat} {number : Nat} {error : Error}
      (hfinished : ∀ number ∈ finished, post number .next (trace number))
      (hpost : post number (.throws error) (trace number)) :
      Joined body tasks chunk post trace claimed (finished ++ [number]) (.threw error)
        { failed := true, failedAt := chunkBegin chunk number,
          message := body.describeError error }
  | stopped {finished : List Nat} {number : Nat}
      (hfinished : ∀ number ∈ finished, post number .next (trace number))
      (hpost : post number .stopsEarly (trace number)) :
      Joined body tasks chunk post trace claimed (finished ++ [number]) .returned
        { stoppedEarly := true }

/-- In a complete region every worker has ended. -/
theorem ended_of_complete (hcomplete : region.complete = true) (hindex : index < region.workers) :
    (region.worker index).phase.ended = true :=
  List.all_eq_true.mp hcomplete index (List.mem_range.mpr hindex)

/-- What the invariant says of a worker that has ended. -/
theorem Invariant.joined
    (hinv : Invariant body workers tasks chunk history post initial region)
    (hcomplete : region.complete = true) (hindex : index < workers) :
    Joined body tasks chunk post (chunkTrace chunk region.trace) region.claims.length
        (owned tasks chunk region.claims index) (region.worker index).phase
        (region.worker index).report ∧
      history index (owned tasks chunk region.claims index) (region.worker index).state := by
  have hended := ended_of_complete hcomplete (hinv.workers_eq ▸ hindex)
  have hstanding := hinv.standing index hindex
  generalize owned tasks chunk region.claims index = mine at hstanding ⊢
  generalize region.worker index = worker at hended hstanding ⊢
  cases hstanding with
  | starting => simp [Phase.ended] at hended
  | between => simp [Phase.ended] at hended
  | inside => simp [Phase.ended] at hended
  | drained hhistory hfinished hclaimed => exact ⟨.drained hfinished hclaimed, hhistory⟩
  | failed hhistory hfinished hpost => exact ⟨.failed hfinished hpost, hhistory⟩
  | stopped hhistory hfinished hpost => exact ⟨.stopped hfinished hpost, hhistory⟩

variable {ends : Nat → Ending String}

/-- Every chunk a worker holds has been through its actions. -/
theorem Joined.post_of_mem {trace : Nat → List (Entry Value)} {claimed : Nat} {mine : List Nat}
    {phase : Phase Error} {report : WorkerReport}
    (hjoined : Joined body tasks chunk post trace claimed mine phase report)
    {number : Nat} (hnumber : number ∈ mine) : ∃ ending, post number ending (trace number) := by
  cases hjoined with
  | drained hfinished _ => exact ⟨_, hfinished number hnumber⟩
  | failed hfinished hpost =>
      rcases List.mem_append.mp hnumber with hmem | hlast
      · exact ⟨_, hfinished number hmem⟩
      · obtain rfl := List.mem_singleton.mp hlast
        exact ⟨_, hpost⟩
  | stopped hfinished hpost =>
      rcases List.mem_append.mp hnumber with hmem | hlast
      · exact ⟨_, hfinished number hmem⟩
      · obtain rfl := List.mem_singleton.mp hlast
        exact ⟨_, hpost⟩

/-- A worker that won a throwing chunk threw there. -/
theorem Joined.of_throws {trace : Nat → List (Entry Value)} {claimed : Nat} {mine : List Nat}
    {phase : Phase Error} {report : WorkerReport}
    (hends : ∀ number ending entries, post number ending entries →
      ending.map body.describeError = ends number)
    (hjoined : Joined body tasks chunk post trace claimed mine phase report)
    {number : Nat} {message : String} (hnumber : number ∈ mine)
    (hthrows : ends number = .throws message) :
    (∃ error, body.describeError error = message ∧ phase = .threw error) ∧
      report = { failed := true, failedAt := chunkBegin chunk number, message } := by
  have hnext : ∀ {finished : List Nat},
      (∀ number ∈ finished, post number .next (trace number)) → number ∉ finished := by
    intro finished hfinished hmem
    have := hends number _ _ (hfinished number hmem)
    rw [hthrows] at this
    exact absurd this (by simp [Ending.map])
  cases hjoined with
  | drained hfinished _ => exact absurd hnumber (hnext hfinished)
  | failed hfinished hpost =>
      rcases List.mem_append.mp hnumber with hmem | hlast
      · exact absurd hmem (hnext hfinished)
      · obtain rfl := List.mem_singleton.mp hlast
        have heq := (hends number _ _ hpost).trans hthrows
        obtain rfl := Ending.throws.inj heq
        exact ⟨⟨_, rfl, rfl⟩, rfl⟩
  | stopped hfinished hpost =>
      rcases List.mem_append.mp hnumber with hmem | hlast
      · exact absurd hmem (hnext hfinished)
      · obtain rfl := List.mem_singleton.mp hlast
        have heq := (hends number _ _ hpost).trans hthrows
        exact absurd heq (by simp [Ending.map])

/-- A worker that failed won the chunk it reports. -/
theorem Joined.of_failed {trace : Nat → List (Entry Value)} {claimed : Nat} {mine : List Nat}
    {phase : Phase Error} {report : WorkerReport}
    (hends : ∀ number ending entries, post number ending entries →
      ending.map body.describeError = ends number)
    (hjoined : Joined body tasks chunk post trace claimed mine phase report)
    (hfailed : report.failed = true ∨ ∃ error, phase = .threw error) :
    ∃ number ∈ mine, ∃ message, ends number = .throws message := by
  cases hjoined with
  | drained hfinished _ => simp at hfailed
  | failed hfinished hpost => exact ⟨_, by simp, _, (hends _ _ _ hpost).symm⟩
  | stopped hfinished hpost => simp at hfailed

/-- A region that ran to its end under a specification whose chunks end as
`ends` says. -/
structure Completed (body : ParallelBody Local Value Error) (workers tasks chunk : Nat)
    (history : Nat → List Nat → Local → Prop)
    (post : Nat → Ending Error → List (Entry Value) → Prop) (ends : Nat → Ending String)
    (initial : Shared Value) (region : Region Local Value Error) : Prop where
  invariant : Invariant body workers tasks chunk history post initial region
  complete : region.complete = true
  workers_pos : 1 ≤ workers
  chunk_pos : 1 ≤ chunk
  ending : ∀ number ending entries, post number ending entries →
    ending.map body.describeError = ends number

variable (hdone : Completed body workers tasks chunk history post ends initial region)
include hdone

namespace Completed

/-- Every chunk below which all chunks run through has been won: otherwise the
first worker would have ended before the queue was drained. -/
theorem exists_owned {number : Nat} (hnumber : number < chunkCount tasks chunk)
    (hbelow : ∀ earlier < number, ends earlier = .next) :
    ∃ index < workers, number ∈ owned tasks chunk region.claims index := by
  by_contra hnone
  have hclaims : region.claims.length ≤ number := by
    apply length_le_of_not_mem_owned hnumber
    intro index hindex howned
    exact hnone ⟨index, hdone.invariant.winners index hindex, howned⟩
  obtain ⟨hjoined, -⟩ := hdone.invariant.joined hdone.complete hdone.workers_pos
  have hlast : ∀ {finished : List Nat} {last : Nat},
      owned tasks chunk region.claims 0 = finished ++ [last] → ends last = .next := by
    intro finished last hmine
    have hmem : last ∈ owned tasks chunk region.claims 0 := by
      rw [hmine]
      simp
    apply hbelow
    have := (List.getElem?_eq_some_iff.mp (mem_owned.mp hmem).2).1
    omega
  generalize hmine : owned tasks chunk region.claims 0 = mine at hjoined
  generalize (region.worker 0).phase = phase at hjoined
  generalize (region.worker 0).report = report at hjoined
  cases hjoined with
  | drained hfinished hclaimed => omega
  | failed hfinished hpost =>
      have := hdone.ending _ _ _ hpost
      rw [hlast hmine] at this
      exact absurd this (by simp [Ending.map])
  | stopped hfinished hpost =>
      have := hdone.ending _ _ _ hpost
      rw [hlast hmine] at this
      exact absurd this (by simp [Ending.map])

/-- The claims cover the chunks when all of them run through. -/
theorem chunkCount_le_claims (hall : ∀ number < chunkCount tasks chunk, ends number = .next) :
    chunkCount tasks chunk ≤ region.claims.length := by
  by_contra hless
  have hnumber := Nat.not_le.mp hless
  obtain ⟨index, -, howned⟩ := hdone.exists_owned hnumber fun earlier hearlier =>
    hall earlier (hearlier.trans hnumber)
  exact absurd (List.getElem?_eq_some_iff.mp (mem_owned.mp howned).2).1 (lt_irrefl _)

theorem lt_workers_of_owned {number : Nat}
    (howned : number ∈ owned tasks chunk region.claims index) : index < workers :=
  hdone.invariant.winners index (List.mem_of_getElem? (mem_owned.mp howned).2)

theorem post_of_owned {number : Nat} (howned : number ∈ owned tasks chunk region.claims index) :
    ∃ ending, post number ending (chunkTrace chunk region.trace number) :=
  (hdone.invariant.joined hdone.complete (hdone.lt_workers_of_owned howned)).1.post_of_mem
    howned

/-- A chunk below which all chunks run through was run as specified. -/
theorem post_of_below {number : Nat} (hnumber : number < chunkCount tasks chunk)
    (hbelow : ∀ earlier < number, ends earlier = .next) :
    ∃ ending, post number ending (chunkTrace chunk region.trace number) := by
  obtain ⟨index, -, howned⟩ := hdone.exists_owned hnumber hbelow
  exact hdone.post_of_owned howned

/-- The local state of a joined worker has seen exactly the chunks it won. -/
theorem history_owned (hindex : index < workers) :
    history index (owned tasks chunk region.claims index) (region.worker index).state :=
  (hdone.invariant.joined hdone.complete hindex).2

/-- Entries outside the set-up belong to a chunk that was run as specified. -/
theorem entry_cases {entry : Entry Value} (hentry : entry ∈ region.trace) :
    (entry.context.holding = false ∧ entry.action = .setup ∧ entry.writes = [] ∧
        entry.warned = 0) ∨
      ∃ number < chunkCount tasks chunk, entry ∈ chunkTrace chunk region.trace number ∧
        ∃ ending, post number ending (chunkTrace chunk region.trace number) := by
  rcases hdone.invariant.positions entry hentry with
    hsetup | ⟨number, index, howned, hcontext, -⟩
  · exact Or.inl hsetup
  · refine Or.inr ⟨number, (mem_owned.mp howned).1, ?_, hdone.post_of_owned howned⟩
    rw [chunkTrace, List.mem_filter, decide_eq_true_eq]
    refine ⟨hentry, ?_⟩
    rw [Entry.position, hcontext, heldContext_serialPosition]

/-! ## The outcome -/

/-- Where no chunk throws no worker fails. -/
theorem not_failed_of_no_throws (hnone : ∀ number < chunkCount tasks chunk, ∀ message,
      ends number ≠ .throws message) (hindex : index < workers) :
    (region.worker index).report.failed = false ∧
      ∀ error, (region.worker index).phase ≠ .threw error := by
  obtain ⟨hjoined, -⟩ := hdone.invariant.joined hdone.complete hindex
  have habsurd : ¬ ((region.worker index).report.failed = true ∨
      ∃ error, (region.worker index).phase = .threw error) := by
    intro hfailed
    obtain ⟨number, hmem, message, hthrows⟩ := hjoined.of_failed hdone.ending hfailed
    exact hnone number (mem_owned.mp hmem).1 message hthrows
  constructor
  · exact Bool.eq_false_iff.mpr fun hfailed => habsurd (Or.inl hfailed)
  · intro error hphase
    exact habsurd (Or.inr ⟨error, hphase⟩)

/-- Without a throwing chunk the driver returns: the queue is drained unless a
body stopped early. -/
theorem conclude_of_no_throws (hnone : ∀ number < chunkCount tasks chunk, ∀ message,
      ends number ≠ .throws message) : region.conclude = .returned := by
  have hquiet := fun index (hindex : index < workers) =>
    hdone.not_failed_of_no_throws hnone hindex
  have hfirst : region.firstFailure = none := by
    rw [Region.firstFailure_eq_none, hdone.invariant.workers_eq]
    exact fun index hindex => (hquiet index hindex).1
  unfold Region.conclude
  rw [hfirst]
  split
  · split
    next error hphase => exact absurd hphase ((hquiet 0 hdone.workers_pos).2 error)
    next => rfl
  · have hleft : (!region.stoppedEarly && !region.queue.drained) = false := by
      rw [Bool.and_eq_false_iff, Bool.not_eq_false', Bool.not_eq_false']
      obtain ⟨hjoined, -⟩ := hdone.invariant.joined hdone.complete hdone.workers_pos
      have hphase := (hquiet 0 hdone.workers_pos).2
      generalize hreport : (region.worker 0).report = report at hjoined
      generalize (region.worker 0).phase = phase at hjoined hphase
      generalize owned tasks chunk region.claims 0 = mine at hjoined
      cases hjoined with
      | drained _ hclaimed =>
          right
          rw [ChunkQueue.drained, decide_eq_true_eq, hdone.invariant.cursor,
            hdone.invariant.tasks_eq]
          exact (chunkCount_le_iff hdone.chunk_pos).mp hclaimed
      | failed _ _ => exact absurd rfl (hphase _)
      | stopped _ _ =>
          left
          rw [Region.stoppedEarly, List.any_eq_true]
          refine ⟨0, List.mem_range.mpr ?_, by rw [hreport]⟩
          rw [hdone.invariant.workers_eq]
          exact hdone.workers_pos
    simp only [hleft, Bool.false_eq_true, if_false]

/-- When the first chunk that does not run through throws, the scan finds it. -/
theorem firstFailure_of_first_throws {number : Nat} {message : String}
    (hnumber : number < chunkCount tasks chunk)
    (hbelow : ∀ earlier < number, ends earlier = .next) (hthrows : ends number = .throws message) :
    region.firstFailure = some
      { failed := true, failedAt := chunkBegin chunk number, message } := by
  obtain ⟨index, hindex, howned⟩ := hdone.exists_owned hnumber hbelow
  obtain ⟨-, hreport⟩ := (hdone.invariant.joined hdone.complete hindex).1.of_throws
    hdone.ending howned hthrows
  have hworkers := hdone.invariant.workers_eq
  cases hfirst : region.firstFailure with
  | none =>
      have := Region.firstFailure_eq_none.mp hfirst index (by omega)
      rw [hreport] at this
      exact absurd this (by simp)
  | some chosen =>
      obtain ⟨⟨winner, hwinner, hchosen, hfailed⟩, hleast⟩ := Region.firstFailure_eq_some hfirst
      rw [hworkers] at hwinner
      have hjoined := (hdone.invariant.joined hdone.complete hwinner).1
      obtain ⟨other, hother, failure, hfailure⟩ := hjoined.of_failed hdone.ending
        (Or.inl (by rw [hchosen, hfailed]))
      obtain ⟨-, hwon⟩ := hjoined.of_throws hdone.ending hother hfailure
      have hle := hleast index (by omega) (by rw [hreport])
      rw [hreport, ← hchosen, hwon] at hle
      -- The chosen chunk cannot lie below `number`, where every chunk runs through.
      have hsame : other = number := by
        have hmul : other * chunk ≤ number * chunk := by
          simp only [chunkBegin] at hle
          exact_mod_cast hle
        have hle : other ≤ number := Nat.le_of_mul_le_mul_right hmul hdone.chunk_pos
        rcases Nat.lt_or_eq_of_le hle with hlt | heq
        · rw [hbelow other hlt] at hfailure
          exact absurd hfailure (by simp)
        · exact heq
      subst other
      rw [hthrows] at hfailure
      obtain rfl := Ending.throws.inj hfailure
      rw [← hchosen, hwon]

/-- The region ends with the error of the lowest chunk that throws. -/
theorem conclude_of_first_throws {number : Nat} {message : String}
    (hnumber : number < chunkCount tasks chunk)
    (hbelow : ∀ earlier < number, ends earlier = .next) (hthrows : ends number = .throws message) :
    ∃ error, body.describeError error = message ∧
      region.conclude = failureOutcome workers body.describeError error := by
  unfold Region.conclude failureOutcome
  rw [hdone.invariant.workers_eq, hdone.firstFailure_of_first_throws hnumber hbelow hthrows]
  split
  next hserial =>
    obtain ⟨index, hindex, howned⟩ := hdone.exists_owned hnumber hbelow
    obtain rfl : index = 0 := by omega
    obtain ⟨⟨error, rfl, hphase⟩, -⟩ := (hdone.invariant.joined hdone.complete hindex).1.of_throws
      hdone.ending howned hthrows
    exact ⟨error, rfl, by rw [hphase]⟩
  next =>
    obtain ⟨index, hindex, howned⟩ := hdone.exists_owned hnumber hbelow
    obtain ⟨⟨error, rfl, -⟩, -⟩ := (hdone.invariant.joined hdone.complete hindex).1.of_throws
      hdone.ending howned hthrows
    exact ⟨error, rfl, rfl⟩

/-- Where no body stops early, the driver reports the first failing chunk in
order, and returns when there is none. -/
theorem conclude_message (hstops : ∀ number < chunkCount tasks chunk, ends number ≠ .stopsEarly) :
    region.conclude.message body.describeError =
        (List.range (chunkCount tasks chunk)).findSome? (fun number => (ends number).error) ∧
      (region.conclude = .returned ↔
        ∀ number < chunkCount tasks chunk, ends number = .next) := by
  rcases first_throws_cases hstops with hall | ⟨number, message, hnumber, hbelow, hthrows⟩
  · rw [findSome_error_of_next hall, hdone.conclude_of_no_throws]
    · exact ⟨rfl, fun _ => hall, fun _ => rfl⟩
    · intro number hnumber message hthrows
      rw [hall number hnumber] at hthrows
      exact absurd hthrows (by simp)
  · rw [findSome_error_of_first hnumber hbelow hthrows]
    obtain ⟨error, rfl, hconclude⟩ := hdone.conclude_of_first_throws hnumber hbelow hthrows
    rw [hconclude]
    refine ⟨failureOutcome_message _ _ _, ?_, fun hall => ?_⟩
    · unfold failureOutcome
      split <;> simp
    · rw [hall number hnumber] at hthrows
      exact absurd hthrows (by simp)

end Completed

end Completed

/-! ## Output memory -/

/-- The results are the writes in the order they were made. -/
theorem foldl_record_result (trace : List (Entry Value)) (shared : Shared Value) :
    (trace.foldl Shared.record shared).result =
      (trace.flatMap Entry.writes).foldl store shared.result := by
  induction trace generalizing shared with
  | nil => rfl
  | cons entry rest ih =>
      rw [List.foldl_cons, ih, List.flatMap_cons, List.foldl_append]
      rfl

/-- A slot that nothing writes keeps its value. -/
theorem foldl_update_of_not_mem (writes : List (Nat × Value)) (memory : Nat → Option Value)
    {slot : Nat} (hnot : ∀ write ∈ writes, write.1 ≠ slot) :
    writes.foldl store memory slot = memory slot := by
  induction writes generalizing memory with
  | nil => rfl
  | cons write rest ih =>
      rw [List.foldl_cons, ih _ fun other hother => hnot other (List.mem_cons_of_mem _ hother),
        store, Function.update_of_ne (hnot write List.mem_cons_self).symm]

/-- Writes that agree on a slot leave their value there, in whatever order. -/
theorem foldl_update_of_agree (writes : List (Nat × Value)) (memory : Nat → Option Value)
    {slot : Nat} {value : Value} (hmem : (slot, value) ∈ writes)
    (hagree : ∀ write ∈ writes, write.1 = slot → write.2 = value) :
    writes.foldl store memory slot = some value := by
  induction writes generalizing memory with
  | nil => simp at hmem
  | cons write rest ih =>
      have hrest : ∀ other ∈ rest, other.1 = slot → other.2 = value :=
        fun other hother => hagree other (List.mem_cons_of_mem _ hother)
      rw [List.foldl_cons]
      by_cases hlater : ∃ other ∈ rest, other.1 = slot
      · obtain ⟨⟨other, written⟩, hother, rfl⟩ := hlater
        obtain rfl : written = value := hrest _ hother rfl
        exact ih _ hother hrest
      · have hnot : ∀ other ∈ rest, other.1 ≠ slot :=
          fun other hother heq => hlater ⟨other, hother, heq⟩
        rw [foldl_update_of_not_mem rest _ hnot]
        rcases List.mem_cons.mp hmem with rfl | hinrest
        · exact Function.update_self ..
        · exact absurd rfl (hnot _ hinrest)

section Completed

variable {body : ParallelBody Local Value Error} {workers tasks chunk : Nat}
  {history : Nat → List Nat → Local → Prop}
  {post : Nat → Ending Error → List (Entry Value) → Prop} {initial : Shared Value}
  {region : Region Local Value Error} {ends : Nat → Ending String}

/-- A slot that some chunk below the first stop writes, and that no chunk writes
differently, holds that value. -/
theorem Completed.result_eq_some
    (hdone : Completed body workers tasks chunk history post ends initial region)
    {slot : Nat} {value : Value} {number : Nat} (hnumber : number < chunkCount tasks chunk)
    (hbelow : ∀ earlier < number, ends earlier = .next)
    (hwritten : ∀ ending entries, post number ending entries →
      ∃ entry ∈ entries, (slot, value) ∈ entry.writes)
    (hagree : ∀ other < chunkCount tasks chunk, ∀ ending entries, post other ending entries →
      ∀ entry ∈ entries, ∀ write ∈ entry.writes, write.1 = slot → write.2 = value) :
    region.shared.result slot = some value := by
  rw [hdone.invariant.shared_eq, foldl_record_result]
  apply foldl_update_of_agree
  · obtain ⟨ending, hpost⟩ := hdone.post_of_below hnumber hbelow
    obtain ⟨entry, hentry, hwrite⟩ := hwritten _ _ hpost
    rw [List.mem_flatMap]
    exact ⟨entry, List.mem_of_mem_filter hentry, hwrite⟩
  · intro write hwrite
    obtain ⟨entry, hentry, hmem⟩ := List.mem_flatMap.mp hwrite
    rcases hdone.entry_cases hentry with ⟨-, -, hnone, -⟩ | ⟨other, hother, hin, ending, hpost⟩
    · rw [hnone] at hmem
      simp at hmem
    · exact hagree other hother _ _ hpost entry hin write hmem

/-- A slot no chunk writes keeps what it held before the region. -/
theorem Completed.result_eq_initial
    (hdone : Completed body workers tasks chunk history post ends initial region) {slot : Nat}
    (hnot : ∀ number < chunkCount tasks chunk, ∀ ending entries, post number ending entries →
      ∀ entry ∈ entries, ∀ write ∈ entry.writes, write.1 ≠ slot) :
    region.shared.result slot = initial.result slot := by
  rw [hdone.invariant.shared_eq, foldl_record_result]
  apply foldl_update_of_not_mem
  intro write hwrite
  obtain ⟨entry, hentry, hmem⟩ := List.mem_flatMap.mp hwrite
  rcases hdone.entry_cases hentry with ⟨-, -, hnone, -⟩ | ⟨other, hother, hin, ending, hpost⟩
  · rw [hnone] at hmem
    simp at hmem
  · exact hnot other hother _ _ hpost entry hin write hmem

end Completed

/-! ## Warning counters -/

/-- The warnings a list of entries raised. -/
def warned (entries : List (Entry Value)) : Nat := (entries.map Entry.warned).sum

/-- The warnings are added in the order they were raised. -/
theorem foldl_record_warnings (trace : List (Entry Value)) (shared : Shared Value) :
    (trace.foldl Shared.record shared).warnings = shared.warnings.map fun warnings =>
      trace.foldl (fun warnings entry => warnings.add entry.context entry.warned) warnings := by
  induction trace generalizing shared with
  | nil => simp
  | cons entry rest ih =>
      rw [List.foldl_cons, ih, Shared.record, Option.map_map]
      rfl

/-- The counters whose chunks hold `counts`, none of them cut. -/
def tallied (workers tasks chunk : Nat) (counts : Nat → Nat) : SerialWarnings where
  setup := List.replicate workers 0
  chunks := (List.range (chunkCount tasks chunk)).map counts
  chunk := chunk
  counted := chunkCount tasks chunk

/-- At the start nothing is counted. -/
theorem reset_eq_tallied (workers tasks chunk : Nat) :
    SerialWarnings.reset workers tasks chunk = tallied workers tasks chunk fun _ => 0 := by
  have hcount : (if tasks ≤ 0 then 0 else chunkCount tasks chunk) = chunkCount tasks chunk := by
    split
    next hzero =>
      obtain rfl : tasks = 0 := by omega
      simp [chunkCount]
    next => rfl
  rw [SerialWarnings.reset, hcount, tallied, List.map_const', List.length_range]

/-- Setting up counts for no chunk. -/
theorem add_tallied_setup (workers tasks chunk : Nat) (counts : Nat → Nat)
    {context : WorkerContext} (hholding : context.holding = false) :
    (tallied workers tasks chunk counts).add context 0 = tallied workers tasks chunk counts := by
  have hsame : (List.replicate workers 0).modify context.worker (· + 0) =
      List.replicate workers 0 := List.modify_id _ _
  simp only [SerialWarnings.add, WorkerContext.serialPosition, hholding, Bool.false_eq_true,
    if_false, tallied, Int.reduceNeg, Int.reduceLT, if_true, hsame]

/-- What is raised in a chunk counts for it. -/
theorem add_tallied_held (workers tasks : Nat) {chunk : Nat} (hchunk : 1 ≤ chunk)
    (counts : Nat → Nat) (index number added : Nat) :
    (tallied workers tasks chunk counts).add
        (heldContext workers tasks chunk index number) added =
      tallied workers tasks chunk fun other =>
        counts other + if other = number then added else 0 := by
  have hdiv : (chunkBegin chunk number : Int).toNat / chunk = number := by
    rw [Int.toNat_natCast, chunkBegin, Nat.mul_div_cancel _ hchunk]
  simp only [SerialWarnings.add, heldContext_serialPosition, tallied]
  rw [if_neg (by simp), hdiv]
  congr 1
  apply List.ext_getElem
  · simp
  · intro other hleft hright
    simp only [List.getElem_modify, List.getElem_map, List.getElem_range]
    by_cases heq : number = other
    · simp [heq]
    · simp [heq, Ne.symm heq]

/-- A history whose entries are set-ups or belong to chunks is tallied chunk by
chunk. -/
theorem foldl_add_reset {workers tasks chunk : Nat} (hchunk : 1 ≤ chunk)
    (trace : List (Entry Value))
    (hpositions : ∀ entry ∈ trace, (entry.context.holding = false ∧ entry.warned = 0) ∨
      ∃ index number, entry.context = heldContext workers tasks chunk index number) :
    trace.foldl (fun warnings entry => warnings.add entry.context entry.warned)
        (SerialWarnings.reset workers tasks chunk) =
      tallied workers tasks chunk fun number => warned (chunkTrace chunk trace number) := by
  induction trace using List.reverseRecOn with
  | nil => exact reset_eq_tallied workers tasks chunk
  | append_singleton trace entry ih =>
      rw [List.foldl_append, List.foldl_cons, List.foldl_nil,
        ih fun other hother => hpositions other (List.mem_append_left _ hother)]
      rcases hpositions entry (by simp) with ⟨hholding, hnone⟩ | ⟨index, number, hcontext⟩
      · rw [hnone, add_tallied_setup _ _ _ _ hholding]
        congr 1
        funext number
        rw [chunkTrace_append, if_neg, List.append_nil]
        simp [Entry.position, WorkerContext.serialPosition, hholding]
      · rw [hcontext, add_tallied_held workers tasks hchunk]
        congr 1
        funext other
        rw [chunkTrace_append, Entry.position, hcontext, heldContext_serialPosition]
        by_cases heq : other = number
        · simp [heq, warned]
        · rw [if_neg heq, if_neg fun h => heq (chunkBegin_injective hchunk h).symm]
          simp

section Completed

variable {body : ParallelBody Local Value Error} {workers tasks chunk : Nat}
  {history : Nat → List Nat → Local → Prop}
  {post : Nat → Ending Error → List (Entry Value) → Prop} {initial : Shared Value}
  {region : Region Local Value Error} {ends : Nat → Ending String}

/-- After the region every chunk has what it has raised. -/
theorem Completed.shared_warnings
    (hdone : Completed body workers tasks chunk history post ends initial region)
    (hinitial : initial.warnings = some (SerialWarnings.reset workers tasks chunk)) :
    region.shared.warnings = some (tallied workers tasks chunk fun number =>
      warned (chunkTrace chunk region.trace number)) := by
  rw [hdone.invariant.shared_eq, foldl_record_warnings, hinitial, Option.map_some,
    foldl_add_reset hdone.chunk_pos]
  intro entry hentry
  rcases hdone.invariant.positions entry hentry with
    ⟨hholding, -, -, hnone⟩ | ⟨number, index, -, hcontext, -⟩
  · exact Or.inl ⟨hholding, hnone⟩
  · exact Or.inr ⟨index, number, hcontext⟩

/-- Without a failure all chunks count. -/
theorem count_tallied (workers tasks chunk : Nat) (counts : Nat → Nat) :
    (tallied workers tasks chunk counts).count =
      ((List.range (chunkCount tasks chunk)).map counts).sum := by
  simp only [SerialWarnings.count, tallied]
  rw [List.take_of_length_le (by simp), List.sum_replicate]
  simp

/-- With a failure the chunks up to it count. -/
theorem count_failAt_tallied (workers tasks : Nat) {chunk : Nat} (hchunk : 1 ≤ chunk)
    (counts : Nat → Nat) {number : Nat} (hnumber : number < chunkCount tasks chunk) :
    ((tallied workers tasks chunk counts).failAt (chunkBegin chunk number)).count =
      ((List.range (number + 1)).map counts).sum := by
  have hdiv : chunkBegin chunk number / chunk = number := Nat.mul_div_cancel _ hchunk
  simp only [SerialWarnings.count, SerialWarnings.failAt, tallied]
  rw [if_neg (by simp), Int.toNat_natCast, hdiv, ← List.map_take, List.take_range,
    Nat.min_eq_left hnumber, List.sum_replicate]
  simp

end Completed

/-! ## Who won which chunk -/

/-- Together the workers won the chunks the cursor passed, each once. -/
theorem owned_perm {workers tasks chunk : Nat} {claims : List Nat}
    (hwinners : ∀ index ∈ claims, index < workers) :
    ((List.range workers).flatMap (owned tasks chunk claims)).Perm
      (List.range (min claims.length (chunkCount tasks chunk))) := by
  rw [List.perm_ext_iff_of_nodup]
  · intro number
    simp only [List.mem_flatMap, List.mem_range, mem_owned, lt_min_iff]
    constructor
    · rintro ⟨index, -, hnumber, hwinner⟩
      exact ⟨(List.getElem?_eq_some_iff.mp hwinner).1, hnumber⟩
    · rintro ⟨hclaimed, hnumber⟩
      have hwinner : claims[number]? = some claims[number] := List.getElem?_eq_getElem hclaimed
      exact ⟨claims[number], hwinners _ (List.getElem_mem hclaimed), hnumber, hwinner⟩
  · rw [List.nodup_flatMap]
    constructor
    · intro index _
      exact (owned_sorted tasks chunk claims index).imp Nat.ne_of_lt
    · apply List.nodup_range.imp
      intro left right hne number hleft hright
      exact hne (owned_unique hleft hright)
  · exact List.nodup_range

/-! ## Driver calls -/

theorem one_le_regionChunk (plan : ParallelPlan) : 1 ≤ regionChunk plan := by
  unfold regionChunk
  split <;> omega

theorem one_le_regionWorkers (plan : ParallelPlan) (tasks : Nat) :
    1 ≤ regionWorkers plan tasks := by
  unfold regionWorkers
  split <;> omega

/-- There is one worker at least, and more only for two tasks or more. -/
theorem clampWorkers_spec (tasks requested : Nat) :
    1 ≤ clampWorkers tasks requested ∧ (2 ≤ clampWorkers tasks requested → 2 ≤ tasks) := by
  unfold clampWorkers
  split
  next => omega
  next hmany =>
    have hlimit : ∀ limit : Nat, 1 ≤ if limit < 2 then 1 else limit := by
      intro limit
      split <;> omega
    exact ⟨hlimit _, fun _ => by omega⟩

theorem one_le_chunkTasks (tasks workers perWorker floorTasks : Nat) :
    1 ≤ chunkTasks tasks workers perWorker floorTasks := by
  have hfloor : ∀ chunk : Nat, 1 ≤ if chunk < 1 then 1 else chunk := by
    intro chunk
    split <;> omega
  exact hfloor _

theorem one_le_chunkCount {tasks chunk : Nat} (htasks : 1 ≤ tasks) (hchunk : 1 ≤ chunk) :
    1 ≤ chunkCount tasks chunk := by
  by_contra hnone
  have hall := (chunkCount_le_iff hchunk).mp (Nat.le_of_lt_succ (Nat.not_le.mp hnone))
  omega

/-- A planned region has as many workers as its plan. -/
theorem regionWorkers_parallelPlan (settings : Settings) (eligible : Bool) (tasks : Nat) :
    regionWorkers (parallelPlan settings eligible tasks) tasks =
      (parallelPlan settings eligible tasks).workers := by
  have hregion : ∀ plan : ParallelPlan, 1 ≤ plan.workers → (2 ≤ plan.workers → 2 ≤ tasks) →
      regionWorkers plan tasks = plan.workers := by
    intro plan hone hmany
    unfold regionWorkers
    split <;> omega
  obtain ⟨hpos, hmany⟩ := clampWorkers_spec tasks settings.threads
  apply hregion
  all_goals
    unfold parallelPlan
    cases eligible with
    | false => simp
    | true =>
        simp only [Bool.not_true, Bool.false_eq_true, if_false]
        split
        next => omega
        next hthreaded =>
          have htasks := hmany (Nat.not_lt.mp hthreaded)
          have hchunks := one_le_chunkCount (show 1 ≤ tasks by omega)
            (one_le_chunkTasks tasks (clampWorkers tasks settings.threads)
              settings.chunksPerWorker settings.minimumChunk)
          simp only
          split <;> omega

/-- A driver call that ended left a completed region behind. -/
theorem completed_of_runRegion {plan : ParallelPlan} {tasks : Nat}
    {body : ParallelBody Local Value Error} {result : Nat → Option Value} {warnings : Bool}
    {schedule : List Nat} {regionEnd : RegionEnd Local Value Error}
    {history : Nat → List Nat → Local → Prop}
    {post : Nat → Ending Error → List (Entry Value) → Prop} {ends : Nat → Ending String}
    (hspec : BodySpec body (regionWorkers plan tasks) tasks (regionChunk plan) history post)
    (hends : ∀ number ending entries, post number ending entries →
      ending.map body.describeError = ends number)
    (hrun : runRegion plan tasks body result warnings schedule = some regionEnd) :
    Completed body (regionWorkers plan tasks) tasks (regionChunk plan) history post ends
        ⟨result, if warnings then
          some (.reset (regionWorkers plan tasks) tasks (regionChunk plan)) else none⟩
        regionEnd.final ∧
      regionEnd.outcome = regionEnd.final.conclude ∧
      regionEnd.warnings = regionEnd.final.finalWarnings := by
  simp only [runRegion, Option.ite_none_right_eq_some, Option.some.injEq] at hrun
  obtain ⟨hcomplete, rfl⟩ := hrun
  refine ⟨⟨?_, hcomplete, one_le_regionWorkers plan tasks, one_le_regionChunk plan, hends⟩,
    rfl, rfl⟩
  exact Invariant.run (one_le_regionChunk plan) hspec schedule result warnings

end Charr.Parallel
