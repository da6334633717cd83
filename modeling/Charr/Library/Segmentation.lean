import Mathlib.Algebra.BigOperators.Group.List.Basic
import Mathlib.Algebra.Order.BigOperators.Group.List
import Mathlib.Algebra.Order.Monoid.Defs

/-!
# Cutting a sequence into segments

The items `0, …, last` are cut after some of them. Every segment has to be allowed
and has a cost. A cut whose last segment is chosen best, over best cuts of what is
before it, is best. Segments that are each as long as they may be are fewest.
-/

namespace Segmentation

/-- The segments of the items from `start` to `last`, each with its ends. -/
def segments (start last : Nat) : List Nat → List (Nat × Nat)
  | [] => [(start, last)]
  | cut :: rest => (start, cut) :: segments (cut + 1) last rest

/-- One more cut divides the last segment. -/
theorem segments_concat (start last : Nat) (cuts : List Nat) (cut : Nat) :
    segments start last (cuts ++ [cut]) = segments start cut cuts ++ [(cut + 1, last)] := by
  induction cuts generalizing start with
  | nil => rfl
  | cons first rest ih => exact congrArg ((start, first) :: ·) (ih (first + 1))

/-- There is one segment more than cuts. -/
theorem length_segments (start last : Nat) (cuts : List Nat) :
    (segments start last cuts).length = cuts.length + 1 := by
  induction cuts generalizing start with
  | nil => rfl
  | cons cut rest ih => rw [segments, List.length_cons, List.length_cons, ih]

/-- Cuts in order, before the last item, with allowed segments. -/
structure Segmented (allowed : Nat → Nat → Prop) (last : Nat) (cuts : List Nat) : Prop where
  sorted : cuts.Pairwise (· < ·)
  lt_last : ∀ cut ∈ cuts, cut < last
  all_allowed : ∀ segment ∈ segments 0 last cuts, allowed segment.1 segment.2

section Segmented

variable {allowed : Nat → Nat → Prop} {last cut : Nat} {cuts : List Nat}

theorem segmented_nil : Segmented allowed last [] ↔ allowed 0 last := by
  constructor
  · intro hcuts
    exact hcuts.all_allowed (0, last) List.mem_cons_self
  · intro hallowed
    refine ⟨.nil, by simp, ?_⟩
    intro segment hsegment
    rw [List.mem_singleton.mp hsegment]
    exact hallowed

/-- The last cut and the cuts before it. -/
theorem segmented_concat :
    Segmented allowed last (cuts ++ [cut]) ↔
      Segmented allowed cut cuts ∧ cut < last ∧ allowed (cut + 1) last := by
  constructor
  · rintro ⟨hsorted, hlast, hallowed⟩
    rw [List.pairwise_append] at hsorted
    rw [segments_concat, List.forall_mem_append] at hallowed
    refine ⟨⟨hsorted.1, ?_, hallowed.1⟩, ?_, ?_⟩
    · intro earlier hearlier
      exact hsorted.2.2 earlier hearlier cut List.mem_cons_self
    · exact hlast cut (by simp)
    · exact hallowed.2 (cut + 1, last) List.mem_cons_self
  · rintro ⟨⟨hsorted, hcut, hallowed⟩, hlt, hlast⟩
    refine ⟨?_, ?_, ?_⟩
    · rw [List.pairwise_append]
      refine ⟨hsorted, by simp, ?_⟩
      intro earlier hearlier later hlater
      rw [List.mem_singleton.mp hlater]
      exact hcut earlier hearlier
    · intro earlier hearlier
      rcases List.mem_append.mp hearlier with hmem | hmem
      · exact (hcut earlier hmem).trans hlt
      · rw [List.mem_singleton.mp hmem]
        exact hlt
    · rw [segments_concat, List.forall_mem_append]
      refine ⟨hallowed, ?_⟩
      intro segment hsegment
      rw [List.mem_singleton.mp hsegment]
      exact hlast

end Segmented

section Cost

variable {Cost : Type} [AddCommMonoid Cost] (cost : Nat → Nat → Cost)

/-- What all the segments cost. -/
def total (last : Nat) (cuts : List Nat) : Cost :=
  ((segments 0 last cuts).map fun segment => cost segment.1 segment.2).sum

@[simp] theorem total_nil (last : Nat) : total cost last [] = cost 0 last := by
  simp [total, segments]

/-- One more cut adds the cost of its segment. -/
theorem total_concat (last cut : Nat) (cuts : List Nat) :
    total cost last (cuts ++ [cut]) = total cost cut cuts + cost (cut + 1) last := by
  simp [total, segments_concat]

variable [LinearOrder Cost]

/-- Allowed cuts that cost no more than any others. -/
structure Optimal (allowed : Nat → Nat → Prop) (last : Nat) (cuts : List Nat) : Prop where
  segmented : Segmented allowed last cuts
  minimal : ∀ others, Segmented allowed last others → total cost last cuts ≤ total cost last others

variable [IsOrderedAddMonoid Cost] {cost} {allowed : Nat → Nat → Prop} {last : Nat}

/-- The first segment alone costs no more than all of them. -/
theorem exists_first_le_total (hnonneg : ∀ first last, 0 ≤ cost first last) {cuts : List Nat}
    (hcuts : Segmented allowed last cuts) :
    ∃ stop ≤ last, allowed 0 stop ∧ cost 0 stop ≤ total cost last cuts := by
  cases cuts with
  | nil => exact ⟨last, le_rfl, segmented_nil.mp hcuts, by rw [total_nil]⟩
  | cons cut rest =>
      refine ⟨cut, (hcuts.lt_last cut List.mem_cons_self).le, ?_, ?_⟩
      · exact hcuts.all_allowed (0, cut) List.mem_cons_self
      · rw [total, segments, List.map_cons, List.sum_cons]
        apply le_add_of_nonneg_right
        apply List.sum_nonneg
        intro value hvalue
        obtain ⟨segment, -, rfl⟩ := List.mem_map.mp hvalue
        exact hnonneg segment.1 segment.2

/-- One segment is best if no shorter first one is cheaper. -/
theorem optimal_nil (hnonneg : ∀ first last, 0 ≤ cost first last) (hallowed : allowed 0 last)
    (hleast : ∀ stop ≤ last, allowed 0 stop → cost 0 last ≤ cost 0 stop) :
    Optimal cost allowed last [] := by
  refine ⟨segmented_nil.mpr hallowed, ?_⟩
  intro others hothers
  obtain ⟨stop, hstop, hfirst, hle⟩ := exists_first_le_total hnonneg hothers
  rw [total_nil]
  exact (hleast stop hstop hfirst).trans hle

/-- The last cut is best if no other one is cheaper over best cuts before it. -/
theorem optimal_concat (best : Nat → List Nat) {cut : Nat} (hcut : cut < last)
    (hbest : ∀ earlier < last, Optimal cost allowed earlier (best earlier))
    (hallowed : allowed (cut + 1) last) (hlonger : ¬ allowed 0 last)
    (hleast : ∀ other < last, allowed (other + 1) last →
      total cost cut (best cut) + cost (cut + 1) last ≤
        total cost other (best other) + cost (other + 1) last) :
    Optimal cost allowed last (best cut ++ [cut]) := by
  refine ⟨segmented_concat.mpr ⟨(hbest cut hcut).segmented, hcut, hallowed⟩, ?_⟩
  intro others hothers
  rcases List.eq_nil_or_concat others with rfl | ⟨front, other, rfl⟩
  · exact absurd (segmented_nil.mp hothers) hlonger
  · rw [List.concat_eq_append] at hothers ⊢
    obtain ⟨hfront, hother, hlast⟩ := segmented_concat.mp hothers
    rw [total_concat, total_concat]
    calc total cost cut (best cut) + cost (cut + 1) last
        ≤ total cost other (best other) + cost (other + 1) last := hleast other hother hlast
      _ ≤ total cost other front + cost (other + 1) last := by
          gcongr
          exact (hbest other hother).minimal front hfront

end Cost

section Longest

/-- Cuts from `start` on, all segments allowed and none of them allowed to take in one
more item. -/
def Longest (allowed : Nat → Nat → Prop) (last : Nat) : Nat → List Nat → Prop
  | start, [] => start ≤ last ∧ allowed start last
  | start, cut :: rest =>
      start ≤ cut ∧ cut < last ∧ allowed start cut ∧ ¬ allowed start (cut + 1) ∧
        Longest allowed last (cut + 1) rest

variable {allowed : Nat → Nat → Prop} {last start : Nat} {cuts : List Nat}

theorem Longest.bounds (hcuts : Longest allowed last start cuts) :
    ∀ cut ∈ cuts, start ≤ cut ∧ cut < last := by
  induction cuts generalizing start with
  | nil => simp
  | cons cut rest ih =>
      obtain ⟨hstart, hlast, -, -, hrest⟩ := hcuts
      intro other hother
      rcases List.mem_cons.mp hother with rfl | hmem
      · exact ⟨hstart, hlast⟩
      · obtain ⟨hlater, hbefore⟩ := ih hrest other hmem
        exact ⟨hstart.trans ((Nat.le_succ cut).trans hlater), hbefore⟩

theorem Longest.sorted (hcuts : Longest allowed last start cuts) : cuts.Pairwise (· < ·) := by
  induction cuts generalizing start with
  | nil => exact .nil
  | cons cut rest ih =>
      obtain ⟨-, -, -, -, hrest⟩ := hcuts
      refine List.pairwise_cons.mpr ⟨?_, ih hrest⟩
      intro other hother
      exact (hrest.bounds other hother).1

/-- Every segment is allowed, and none could be longer. -/
theorem Longest.all_segments (hcuts : Longest allowed last start cuts) :
    ∀ segment ∈ segments start last cuts, allowed segment.1 segment.2 ∧
      (segment.2 < last → ¬ allowed segment.1 (segment.2 + 1)) := by
  induction cuts generalizing start with
  | nil =>
      intro segment hsegment
      rw [List.mem_singleton.mp hsegment]
      exact ⟨hcuts.2, fun hlast => absurd hlast (lt_irrefl last)⟩
  | cons cut rest ih =>
      obtain ⟨-, -, hallowed, hlonger, hrest⟩ := hcuts
      intro segment hsegment
      rcases List.mem_cons.mp hsegment with rfl | hmem
      · exact ⟨hallowed, fun _ => hlonger⟩
      · exact ih hrest segment hmem

theorem Longest.segmented (hcuts : Longest allowed last 0 cuts) : Segmented allowed last cuts where
  sorted := hcuts.sorted
  lt_last cut hcut := (hcuts.bounds cut hcut).2
  all_allowed segment hsegment := (hcuts.all_segments segment hsegment).1

/-- Segments that end as late as they may are fewest, if what is allowed may also end
earlier, and start later unless it is the first. -/
theorem Longest.length_le_of (hcuts : Longest allowed last start cuts)
    (hearlier : ∀ first stop stop', first ≤ stop → stop ≤ stop' → allowed first stop' →
      allowed first stop)
    (hlater : ∀ first second stop, 0 < first → first ≤ second → second ≤ stop →
      allowed first stop → allowed second stop) {first : Nat} {others : List Nat}
    (hfirst : first = start ∨ 0 < first ∧ first ≤ start) (hbefore : ∀ cut ∈ others, cut < last)
    (hallowed : ∀ segment ∈ segments first last others, allowed segment.1 segment.2) :
    cuts.length ≤ others.length := by
  induction cuts generalizing start first others with
  | nil => exact Nat.zero_le _
  | cons cut rest ih =>
      obtain ⟨hstart, hlast, -, hlonger, hrest⟩ := hcuts
      -- a segment of the others that starts no later than this one ends no later
      have hends : ∀ stop, allowed first stop → stop ≤ cut := by
        intro stop hstop
        by_contra hpast
        have hstop' : cut + 1 ≤ stop := Nat.not_le.mp hpast
        apply hlonger
        apply hearlier start (cut + 1) stop (Nat.le_succ_of_le hstart) hstop'
        rcases hfirst with rfl | ⟨hpos, hle⟩
        · exact hstop
        · exact hlater first start stop hpos hle (by omega) hstop
      cases others with
      | nil =>
          have hwhole := hends last (hallowed (first, last) List.mem_cons_self)
          exact absurd hlast (Nat.not_lt.mpr hwhole)
      | cons other others =>
          have hother := hends other (hallowed (first, other) List.mem_cons_self)
          apply Nat.succ_le_succ
          apply ih hrest (.inr ⟨Nat.succ_pos other, Nat.succ_le_succ hother⟩)
          · exact fun later hmem => hbefore later (List.mem_cons_of_mem _ hmem)
          · exact fun segment hmem => hallowed segment (List.mem_cons_of_mem _ hmem)

/-- No segmentation has fewer cuts. -/
theorem Longest.length_le (hcuts : Longest allowed last 0 cuts)
    (hearlier : ∀ first stop stop', first ≤ stop → stop ≤ stop' → allowed first stop' →
      allowed first stop)
    (hlater : ∀ first second stop, 0 < first → first ≤ second → second ≤ stop →
      allowed first stop → allowed second stop) {others : List Nat}
    (hothers : Segmented allowed last others) : cuts.length ≤ others.length :=
  hcuts.length_le_of hearlier hlater (.inl rfl) hothers.lt_last hothers.all_allowed

end Longest

end Segmentation
