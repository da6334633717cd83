import Charr.Wrap.Lines
import Charr.Wrap.Prepare

/-!
# Joined lines

The size of all lines of a record, joined by line breaks, is known before they are
written. The bodies of the lines, with what is left out between them, are the record.
-/

namespace Charr.Wrap

open Loops Utf8

/-! ## Writing -/

section Storing

variable {destination : List UInt8} {position : Nat}

theorem store_nil (hposition : position ≤ destination.length) :
    store destination position [] = .ok destination := by
  rw [store, if_pos (by simpa using hposition), List.length_nil, Nat.add_zero, List.append_nil,
    List.take_append_drop]

/-- Storing keeps the size, and what is stored fits. -/
theorem length_store {bytes stored : List UInt8}
    (hstore : store destination position bytes = .ok stored) :
    stored.length = destination.length ∧ position + bytes.length ≤ destination.length := by
  unfold store at hstore
  split at hstore
  next hinside =>
    rw [← Except.ok.inj hstore]
    refine ⟨?_, hinside⟩
    rw [List.length_append, List.length_append, List.length_drop, List.length_take_of_le]
    all_goals omega
  next => exact absurd hstore (by simp)

/-- Two writes, one behind the other, are one. -/
theorem store_append (front rest : List UInt8) :
    ((store destination position front).bind fun stored =>
      store stored (position + front.length) rest) =
      store destination position (front ++ rest) := by
  unfold store
  by_cases hfront : position + front.length ≤ destination.length
  · have hprefix : (destination.take position ++ front).length = position + front.length := by
      rw [List.length_append, List.length_take_of_le (by omega)]
    have hlength : (destination.take position ++ front ++
        destination.drop (position + front.length)).length = destination.length := by
      rw [List.length_append, hprefix, List.length_drop, Nat.add_sub_cancel' hfront]
    have htake : (destination.take position ++ front ++
        destination.drop (position + front.length)).take (position + front.length) =
          destination.take position ++ front := List.take_left' hprefix
    have hdrop : (destination.take position ++ front ++
        destination.drop (position + front.length)).drop (position + front.length + rest.length) =
          destination.drop (position + front.length + rest.length) := by
      rw [← hprefix, List.drop_length_add_append, hprefix, List.drop_drop]
    rw [if_pos hfront, Except.bind]
    simp only [hlength, htake, hdrop]
    rw [List.length_append, ← Nat.add_assoc]
    simp only [List.append_assoc]
  · rw [if_neg hfront, if_neg]
    · rfl
    · rw [List.length_append]
      omega

/-- What is loaded is the slice. -/
theorem load_slice {data : List UInt8} {begin stop : Nat} (hle : begin ≤ stop)
    (hstop : stop ≤ data.length) :
    load data begin (slice data begin stop).length = .ok (slice data begin stop) := by
  rw [length_slice hstop, load, if_pos (by omega)]
  rfl

end Storing

section Texts

variable {plan : Plan} (first later : LineStart)

/-- What a line starts with; a record without words stands alone. -/
def Plan.startOf (plan : Plan) (index : Nat) : LineStart :=
  match plan.layout with
  | .passthrough => ⟨[], 0, 0, true, false⟩
  | _ => if index = 0 then first else later

/-- A line with what it begins with. -/
def Plan.textOf (plan : Plan) (index : Nat) (span : LineSpan) : List UInt8 :=
  (plan.startOf first later index).bytes ++ slice plan.record.data span.begin span.stop

/-- The lines of some spans, from `index` on. -/
def Plan.textsFrom (plan : Plan) : (index : Nat) → List LineSpan → List (List UInt8)
  | _, [] => []
  | index, span :: rest =>
      plan.textOf first later index span :: plan.textsFrom (index + 1) rest

/-- The marks of a record and of what its lines start with are right. -/
structure MarksHold (plan : Plan) (first later : LineStart) : Prop where
  record : plan.record.ascii = true → isAscii plan.record.data = true
  first : first.ascii = true → isAscii first.bytes = true
  later : later.ascii = true → isAscii later.bytes = true

/-- A text is ASCII if its parts are. -/
theorem isAscii_append (front rest : List UInt8) :
    isAscii (front ++ rest) = (isAscii front && isAscii rest) := List.all_append

theorem isAscii_slice {data : List UInt8} (hascii : isAscii data = true) (start stop : Nat) :
    isAscii (slice data start stop) = true := by
  unfold isAscii at hascii ⊢
  rw [List.all_eq_true] at hascii ⊢
  intro byte hbyte
  exact hascii byte (List.mem_of_mem_drop (List.mem_of_mem_take hbyte))

variable {first later}

/-- A line begins with a text whose mark is truthful. -/
theorem MarksHold.startOf (hmarks : MarksHold plan first later) (index : Nat) :
    (plan.startOf first later index).ascii = true →
      isAscii (plan.startOf first later index).bytes = true := by
  unfold Plan.startOf
  split
  next => exact fun _ => rfl
  next =>
    split
    next => exact hmarks.first
    next => exact hmarks.later

theorem checkedSum_of_le {left right : Nat} (hroom : left + right ≤ intMax) :
    checkedSum left right = .ok (left + right) := if_neg (by omega)

theorem checkedSum_of_not_le {left right : Nat} (hroom : ¬ left + right ≤ intMax) :
    checkedSum left right = .error tooLong := if_pos (by omega)

/-- The parts of a line, if it is not too long. -/
theorem partsOf_eq {start : LineStart} {begin stop : Nat} (classifyAscii : Bool)
    (hlength : plan.record.data.length ≤ intMax) (hle : begin ≤ stop)
    (hstop : stop ≤ plan.record.data.length) :
    plan.partsOf start classifyAscii begin stop =
      if start.bytes.length + (slice plan.record.data begin stop).length ≤ intMax then
        .ok ⟨start.bytes, begin, (slice plan.record.data begin stop).length,
          start.bytes.length + (slice plan.record.data begin stop).length,
          classifyAscii && start.ascii &&
            (classifyAscii && (plan.record.ascii || isAscii (slice plan.record.data begin stop)))⟩
      else .error (.thrown tooLong) := by
  rw [Plan.partsOf, toSize_sub hle (hstop.trans hlength), length_slice hstop]
  by_cases hroom : start.bytes.length + (stop - begin) ≤ intMax
  · rw [if_pos hroom, checkedSum_of_le hroom]
  · rw [if_neg hroom, checkedSum_of_not_le hroom]

/-- Lines are inside the record. -/
theorem Chained.inside {data : List UInt8} {start : Nat} {spans : List LineSpan}
    (hchained : Chained data start spans) :
    ∀ span ∈ spans, span.begin ≤ span.stop ∧ span.stop ≤ data.length := by
  induction spans generalizing start with
  | nil => simp
  | cons span rest ih =>
      obtain ⟨rfl, hstop, hbehind, hinside, -, hrest⟩ := hchained
      exact List.forall_mem_cons.mpr ⟨⟨hstop, hbehind.trans hinside⟩, ih hrest⟩

/-- The line at `index` is the body `span` behind what it starts with. It is refused if it
is too long, and marked ASCII only if it is. -/
def Plan.ReadsOff (plan : Plan) (first later : LineStart) (classifyAscii : Bool) (index : Nat)
    (span : LineSpan) : Prop :=
  ∃ ascii, plan.parts first later classifyAscii index =
      (if (plan.textOf first later index span).length ≤ intMax then
        .ok ⟨(plan.startOf first later index).bytes, span.begin,
          (slice plan.record.data span.begin span.stop).length,
          (plan.textOf first later index span).length, ascii⟩
      else .error (.thrown tooLong)) ∧
    (ascii = true → MarksHold plan first later →
      isAscii (plan.textOf first later index span) = true)

/-- A line is read off the record. -/
theorem readsOff_of_partsOf {classifyAscii : Bool} {index : Nat} {span : LineSpan}
    (hlength : plan.record.data.length ≤ intMax) (hle : span.begin ≤ span.stop)
    (hstop : span.stop ≤ plan.record.data.length)
    (hparts : plan.parts first later classifyAscii index =
      plan.partsOf (plan.startOf first later index) classifyAscii span.begin span.stop) :
    plan.ReadsOff first later classifyAscii index span := by
  rw [Plan.ReadsOff, hparts, partsOf_eq classifyAscii hlength hle hstop, Plan.textOf,
    List.length_append]
  refine ⟨_, rfl, ?_⟩
  intro hascii hmarks
  simp only [Bool.and_eq_true, Bool.or_eq_true] at hascii
  rw [isAscii_append, hmarks.startOf index hascii.1.2, Bool.true_and]
  rcases hascii.2.2 with hrecord | hbody
  · exact isAscii_slice (hmarks.record hrecord) _ _
  · exact hbody

/-- Every line of a sound plan is. -/
theorem Plan.Sound.readsOff (hsound : plan.Sound) (classifyAscii : Bool) {index : Nat}
    {span : LineSpan} (hspan : plan.spans[index]? = some span) :
    plan.ReadsOff first later classifyAscii index span := by
  obtain ⟨hbound, hmem⟩ := List.getElem?_eq_some_iff.mp hspan
  have hindex : ¬ index ≥ plan.lineCount := by
    rw [hsound.length_spans] at hbound
    exact Nat.not_le.mpr hbound
  obtain ⟨hle, hstop⟩ := hsound.chained.inside span (hmem ▸ List.getElem_mem hbound)
  have hspans := hspan
  unfold Plan.spans at hspans
  cases hlayout : plan.layout with
  | passthrough =>
      rw [hlayout, List.getElem?_singleton] at hspans
      split at hspans
      next hzero =>
        subst hzero
        obtain rfl := Option.some_inj.mp hspans
        have htext : plan.textOf first later 0
            ⟨0, plan.record.data.length, plan.record.data.length⟩ = plan.record.data := by
          rw [Plan.textOf, Plan.startOf, hlayout, slice_to_length]
          rfl
        refine ⟨classifyAscii && plan.record.ascii, ?_, ?_⟩
        · rw [htext, if_pos hsound.length_le, slice_to_length, List.drop_zero, Plan.parts,
            if_neg hindex, Plan.startOf]
          simp only [hlayout]
        · intro hascii hmarks
          rw [htext]
          exact hmarks.record (Bool.and_eq_true_iff.mp hascii).2
      next => exact absurd hspans (by simp)
  | direct stop =>
      rw [hlayout, List.getElem?_singleton] at hspans
      split at hspans
      next hzero =>
        subst hzero
        obtain rfl := Option.some_inj.mp hspans
        apply readsOff_of_partsOf hsound.length_le hle hstop
        rw [Plan.parts, if_neg hindex, Plan.startOf]
        simp only [hlayout]
      next => exact absurd hspans (by simp)
  | broken words wrapAfter =>
      have hrange := hsound.ranges words wrapAfter hlayout index (Nat.not_le.mp hindex)
      rw [hspan, Option.map_some] at hrange
      apply readsOff_of_partsOf hsound.length_le hle hstop
      rw [Plan.parts, if_neg hindex, Plan.startOf]
      simp only [hlayout, hrange]

theorem getElem?_of_drop {Item : Type} {items rest : List Item} {index : Nat} {item : Item}
    (hdrop : items.drop index = item :: rest) :
    items[index]? = some item ∧ items.drop (index + 1) = rest := by
  constructor
  · rw [← Nat.add_zero index, ← List.getElem?_drop, hdrop]
    rfl
  · rw [← List.tail_drop, hdrop]
    rfl

/-- The size of the joined lines, if it fits. -/
theorem joinedLoop_eq (hsound : plan.Sound) (classifyAscii : Bool) {rest : List LineSpan}
    {index size : Nat} (hrest : plan.spans.drop index = rest) (hsize : size ≤ intMax)
    (ascii : Bool) :
    ∃ flag, plan.joinedLoop first later classifyAscii rest.length index size ascii =
        (if size + ((plan.textsFrom first later index rest).map List.length).sum ≤ intMax then
          .ok ⟨size + ((plan.textsFrom first later index rest).map List.length).sum, flag⟩
        else .error (.thrown tooLong)) ∧
      (flag = true → ascii = true ∧ (MarksHold plan first later →
        ∀ text ∈ plan.textsFrom first later index rest, isAscii text = true)) := by
  induction rest generalizing index size ascii with
  | nil =>
      refine ⟨ascii, ?_, fun hascii => ⟨hascii, by simp [Plan.textsFrom]⟩⟩
      simp [Plan.joinedLoop, Plan.textsFrom, hsize]
  | cons span rest ih =>
      obtain ⟨hspan, hlater⟩ := getElem?_of_drop hrest
      obtain ⟨lineAscii, hparts, hline⟩ :=
        @Plan.Sound.readsOff plan first later hsound classifyAscii index span hspan
      rw [List.length_cons, Plan.joinedLoop, hparts, Plan.textsFrom, List.map_cons, List.sum_cons,
        ← Nat.add_assoc]
      by_cases hshort : size + (plan.textOf first later index span).length ≤ intMax
      · obtain ⟨flag, hloop, hflag⟩ := ih hlater hshort (ascii && lineAscii)
        refine ⟨flag, ?_, ?_⟩
        · rw [if_pos (by omega), ← hloop]
          simp only [bind, Except.bind, checkedSum_of_le hshort]
        · intro htrue
          obtain ⟨hboth, hothers⟩ := hflag htrue
          obtain ⟨hbefore, hhere⟩ := Bool.and_eq_true_iff.mp hboth
          refine ⟨hbefore, ?_⟩
          intro hmarks
          exact List.forall_mem_cons.mpr ⟨hline hhere hmarks, hothers hmarks⟩
      · refine ⟨false, ?_, by simp⟩
        have hlong : ¬ size + (plan.textOf first later index span).length +
            ((plan.textsFrom first later (index + 1) rest).map List.length).sum ≤ intMax := by omega
        rw [if_neg hlong]
        split
        next => simp only [bind, Except.bind, checkedSum_of_not_le hshort]
        next => rfl

/-- Lines behind each other, with line breaks between them. -/
def joinFrom : (index : Nat) → List (List UInt8) → List UInt8
  | _, [] => []
  | index, text :: rest => (if 0 < index then [0x0a] else []) ++ (text ++ joinFrom (index + 1) rest)

/-- Writing a line stores its text. -/
theorem writeLine_eq {start : List UInt8} {begin stop size position : Nat} {ascii : Bool}
    {destination : List UInt8} (hle : begin ≤ stop) (hstop : stop ≤ plan.record.data.length)
    (hposition : position ≤ destination.length) :
    plan.writeLine ⟨start, begin, (slice plan.record.data begin stop).length, size, ascii⟩
        destination position =
      store destination position (start ++ slice plan.record.data begin stop) := by
  rw [← store_append, Plan.writeLine]
  simp only [load_slice hle hstop, bind]
  -- an empty part is not copied at all
  have hbody : ∀ stored : List UInt8, position + start.length ≤ stored.length →
      (if 0 < (slice plan.record.data begin stop).length then
        (Except.ok (slice plan.record.data begin stop)).bind fun body =>
          store stored (position + start.length) body
      else .ok stored) =
        store stored (position + start.length) (slice plan.record.data begin stop) := by
    intro stored hinside
    split
    next => rfl
    next hempty =>
      rw [List.eq_nil_of_length_eq_zero (Nat.eq_zero_of_not_pos hempty), store_nil hinside]
  split
  next =>
    cases hstored : store destination position start with
    | error fault => rfl
    | ok stored =>
        obtain ⟨hlength, hinside⟩ := length_store hstored
        exact hbody stored (hinside.trans hlength.ge)
  next hempty =>
    obtain rfl := List.eq_nil_of_length_eq_zero (Nat.eq_zero_of_not_pos hempty)
    rw [store_nil hposition]
    exact hbody destination hposition

/-- A line that is not refused is written as its text. -/
theorem Plan.Sound.writeLine_parts (hsound : plan.Sound) {index : Nat} {span : LineSpan}
    (hspan : plan.spans[index]? = some span)
    (hshort : (plan.textOf first later index span).length ≤ intMax) :
    ∃ line, plan.parts first later false index = .ok line ∧
      line.size = (plan.textOf first later index span).length ∧
      ∀ destination position, position ≤ destination.length →
        plan.writeLine line destination position =
          store destination position (plan.textOf first later index span) := by
  obtain ⟨hbound, hmem⟩ := List.getElem?_eq_some_iff.mp hspan
  obtain ⟨hle, hstop⟩ := hsound.chained.inside span (hmem ▸ List.getElem_mem hbound)
  obtain ⟨ascii, hparts, -⟩ := @Plan.Sound.readsOff plan first later hsound false index span hspan
  rw [if_pos hshort] at hparts
  refine ⟨_, hparts, rfl, ?_⟩
  intro destination position hposition
  exact writeLine_eq hle hstop hposition

/-- A line that is not too long is written. -/
theorem Plan.Sound.writtenLine_eq (hsound : plan.Sound) {index : Nat} {span : LineSpan}
    (hspan : plan.spans[index]? = some span)
    (hshort : (plan.textOf first later index span).length ≤ intMax) :
    plan.writtenLine first later index = .ok (plan.textOf first later index span) := by
  obtain ⟨line, hparts, hsize, hwrite⟩ := hsound.writeLine_parts hspan hshort
  rw [Plan.writtenLine, hparts]
  simp only [bind, Except.bind]
  rw [hwrite _ 0 (Nat.zero_le _), store, if_pos (by rw [hsize]; simp), hsize]
  simp

/-- The lines are written with newlines between them. -/
theorem writeLoop_eq (hsound : plan.Sound) {rest : List LineSpan} {index position : Nat}
    (hrest : plan.spans.drop index = rest) {destination : List UInt8}
    (hposition : position ≤ destination.length)
    (hshort : ∀ text ∈ plan.textsFrom first later index rest, text.length ≤ intMax) :
    plan.writeLoop first later rest.length index position destination =
      store destination position (joinFrom index (plan.textsFrom first later index rest)) := by
  induction rest generalizing index position destination with
  | nil => exact (store_nil hposition).symm
  | cons span rest ih =>
      obtain ⟨hspan, hlater⟩ := getElem?_of_drop hrest
      rw [Plan.textsFrom, List.forall_mem_cons] at hshort
      obtain ⟨line, hparts, hsize, hwrite⟩ := hsound.writeLine_parts hspan hshort.1
      -- the line itself, and the lines behind it
      have hlines : ∀ stored : List UInt8, ∀ position ≤ stored.length,
          (if 0 < line.size then
            (plan.writeLine line stored position).bind fun stored =>
              plan.writeLoop first later rest.length (index + 1) (position + line.size) stored
          else (Except.ok stored).bind fun stored =>
            plan.writeLoop first later rest.length (index + 1) (position + line.size) stored) =
          store stored position (plan.textOf first later index span ++
            joinFrom (index + 1) (plan.textsFrom first later (index + 1) rest)) := by
        intro stored position hinside
        rw [← store_append]
        split
        next =>
          rw [hwrite stored position hinside]
          cases hstored : store stored position (plan.textOf first later index span) with
          | error fault => rfl
          | ok written =>
              obtain ⟨hlength, hroom⟩ := length_store hstored
              rw [Except.bind, Except.bind, hsize]
              exact ih hlater (hroom.trans hlength.ge) hshort.2
        next hempty =>
          rw [hsize] at hempty ⊢
          rw [List.eq_nil_of_length_eq_zero (Nat.eq_zero_of_not_pos hempty), store_nil hinside]
          exact ih hlater hinside hshort.2
      rw [List.length_cons, Plan.writeLoop, Plan.textsFrom, joinFrom]
      simp only [bind, hparts]
      split
      next =>
        rw [← store_append]
        cases hstored : store destination position [0x0a] with
        | error fault => rfl
        | ok stored =>
            obtain ⟨hlength, hroom⟩ := length_store hstored
            exact hlines stored (position + 1) (hroom.trans hlength.ge)
      next => exact hlines destination position hposition

/-! ## All lines -/

theorem joinFrom_succ (index : Nat) (texts : List (List UInt8)) :
    joinFrom (index + 1) texts = texts.flatMap fun text => 0x0a :: text := by
  induction texts generalizing index with
  | nil => rfl
  | cons text rest ih =>
      rw [joinFrom, ih, if_pos (Nat.succ_pos index), List.flatMap_cons]
      rfl

theorem joinFrom_zero (texts : List (List UInt8)) :
    joinFrom 0 texts = [0x0a].intercalate texts := by
  cases texts with
  | nil => rfl
  | cons text rest =>
      rw [joinFrom, joinFrom_succ, if_neg (Nat.lt_irrefl 0), List.nil_append]
      induction rest generalizing text with
      | nil => rw [List.flatMap_nil, List.append_nil, List.intercalate_singleton]
      | cons next rest ih =>
          rw [List.intercalate_cons_cons, ← ih next, List.flatMap_cons, List.append_assoc]
          rfl

/-- The size of a join. -/
theorem length_joinFrom (texts : List (List UInt8)) :
    (joinFrom 0 texts).length = texts.length - 1 + (texts.map List.length).sum := by
  cases texts with
  | nil => rfl
  | cons text rest =>
      rw [joinFrom, joinFrom_succ, if_neg (Nat.lt_irrefl 0), List.nil_append, List.length_append,
        List.length_cons, List.map_cons, List.sum_cons, Nat.add_sub_cancel]
      induction rest with
      | nil => simp
      | cons next rest ih =>
          rw [List.flatMap_cons, List.length_append, List.length_cons, List.length_cons,
            List.map_cons, List.sum_cons]
          omega

/-- A join is ASCII if its lines are. -/
theorem isAscii_joinFrom {texts : List (List UInt8)}
    (hascii : ∀ text ∈ texts, isAscii text = true) (index : Nat) :
    isAscii (joinFrom index texts) = true := by
  induction texts generalizing index with
  | nil => rfl
  | cons text rest ih =>
      rw [List.forall_mem_cons] at hascii
      rw [joinFrom, isAscii_append, isAscii_append, hascii.1, ih hascii.2]
      split <;> rfl

theorem length_textsFrom (index : Nat) (spans : List LineSpan) :
    (plan.textsFrom first later index spans).length = spans.length := by
  induction spans generalizing index with
  | nil => rfl
  | cons span rest ih => rw [Plan.textsFrom, List.length_cons, List.length_cons, ih]

/-- The text of a line by its number. -/
theorem getElem?_textsFrom (index start : Nat) (spans : List LineSpan) :
    (plan.textsFrom first later start spans)[index]? =
      spans[index]?.map (plan.textOf first later (start + index)) := by
  induction spans generalizing index start with
  | nil => rfl
  | cons span rest ih =>
      rw [Plan.textsFrom]
      cases index with
      | zero => rfl
      | succ index =>
          rw [List.getElem?_cons_succ, List.getElem?_cons_succ, ih, Nat.add_assoc, Nat.add_comm 1]

theorem length_le_sum {texts : List (List UInt8)} {text : List UInt8} (hmem : text ∈ texts) :
    text.length ≤ (texts.map List.length).sum :=
  List.single_le_sum (by simp) _ (List.mem_map_of_mem hmem)

/-- All lines of a plan. -/
def Plan.texts (plan : Plan) (first later : LineStart) : List (List UInt8) :=
  plan.textsFrom first later 0 plan.spans

/-- The size that is announced is that of the lines with line breaks between them, and so
much is written. -/
theorem Plan.Sound.join (hsound : plan.Sound) (classifyAscii : Bool) :
    let text := [0x0a].intercalate (plan.texts first later)
    (intMax < text.length →
      plan.joined first later classifyAscii = .error (.thrown tooLong)) ∧
    (text.length ≤ intMax →
      (∃ ascii, plan.joined first later classifyAscii = .ok ⟨text.length, ascii⟩ ∧
        (ascii = true → MarksHold plan first later → isAscii text = true)) ∧
      ∀ destination, plan.writeJoined first later destination = store destination 0 text) := by
  intro text
  have htext : text = joinFrom 0 (plan.texts first later) := (joinFrom_zero _).symm
  have hlength : text.length =
      plan.lineCount - 1 + ((plan.texts first later).map List.length).sum := by
    rw [htext, length_joinFrom, Plan.texts, length_textsFrom, hsound.length_spans]
  have hcount : plan.lineCount ≠ 0 := by
    unfold Plan.lineCount
    split <;> simp
  obtain ⟨flag, hjoined, hflag⟩ := @joinedLoop_eq plan first later hsound classifyAscii plan.spans 0
    (plan.lineCount - 1) List.drop_zero ((Nat.sub_le _ _).trans hsound.lineCount_le) true
  rw [hsound.length_spans, ← Plan.texts, ← hlength] at hjoined
  rw [Plan.joined, if_neg hcount, hjoined]
  refine ⟨fun hlong => if_neg (Nat.not_le.mpr hlong), ?_⟩
  intro hroom
  have hshort : ∀ line ∈ plan.texts first later, line.length ≤ intMax := by
    intro line hline
    have hle := length_le_sum hline
    omega
  refine ⟨⟨flag, if_pos hroom, ?_⟩, ?_⟩
  · intro htrue hmarks
    rw [htext]
    exact isAscii_joinFrom ((hflag htrue).2 hmarks) 0
  · intro destination
    have hwrite := @writeLoop_eq plan first later hsound plan.spans 0 0 List.drop_zero destination
      (Nat.zero_le _) hshort
    rw [hsound.length_spans] at hwrite
    rw [htext]
    exact hwrite

end Texts

/-! ## The pieces of a record -/

/-- The body of a line, and what is left out behind it. -/
structure Piece where
  body : List UInt8
  gap : List UInt8
  deriving DecidableEq, Repr

/-- A body and the gap behind it. -/
def Piece.bytes (piece : Piece) : List UInt8 := piece.body ++ piece.gap

/-- A line of the record, with what is left out behind it. -/
def LineSpan.piece (data : List UInt8) (span : LineSpan) : Piece where
  body := slice data span.begin span.stop
  gap := slice data span.stop span.behind

section Pieces

variable {data : List UInt8} {start : Nat} {spans : List LineSpan}

/-- A piece has its body and the gap behind. -/
theorem bytes_piece {span : LineSpan} (hstop : span.begin ≤ span.stop)
    (hbehind : span.stop ≤ span.behind) :
    data.drop span.begin = (span.piece data).bytes ++ data.drop span.behind := by
  rw [drop_eq_slice_append hstop, drop_eq_slice_append hbehind, ← List.append_assoc]
  rfl

/-- Spans that follow each other leave nothing out. -/
theorem Chained.rebuild (hchained : Chained data start spans) :
    (spans.map (LineSpan.piece data)).flatMap Piece.bytes = data.drop start := by
  induction spans generalizing start with
  | nil =>
      rw [show start = data.length from hchained, List.drop_length]
      rfl
  | cons span rest ih =>
      obtain ⟨rfl, hstop, hbehind, -, -, hrest⟩ := hchained
      rw [List.map_cons, List.flatMap_cons, ih hrest, bytes_piece hstop hbehind]

/-- A body lies behind the pieces of the lines before it. -/
theorem Chained.begin_eq (hchained : Chained data start spans) {index : Nat} {span : LineSpan}
    (hspan : spans[index]? = some span) :
    span.begin =
      start + (((spans.map (LineSpan.piece data)).take index).flatMap Piece.bytes).length := by
  induction spans generalizing start index with
  | nil => exact absurd hspan (by simp)
  | cons first rest ih =>
      obtain ⟨rfl, hstop, hbehind, hinside, -, hrest⟩ := hchained
      cases index with
      | zero =>
          obtain rfl := Option.some_inj.mp hspan
          rfl
      | succ index =>
          have hsize : first.begin + (first.piece data).bytes.length = first.behind := by
            rw [Piece.bytes, List.length_append, LineSpan.piece, length_slice hinside,
              length_slice (hbehind.trans hinside)]
            omega
          rw [ih hrest hspan, List.map_cons, List.take_succ_cons, List.flatMap_cons,
            List.length_append, ← Nat.add_assoc, hsize]

/-- Between two lines is one run of white space at most. -/
theorem Chained.gaps (hchained : Chained data start spans) :
    ∀ piece ∈ spans.map (LineSpan.piece data), OneBlank piece.gap := by
  induction spans generalizing start with
  | nil => simp
  | cons span rest ih =>
      obtain ⟨-, -, -, -, hgap, hrest⟩ := hchained
      exact List.forall_mem_cons.mpr ⟨hgap, ih hrest⟩

end Pieces

/-! ## What lines start with -/

/-- A line start marked as ASCII is. -/
def LineStart.MarkHolds (start : LineStart) : Prop :=
  start.ascii = true → isAscii start.bytes = true

/-- The mark of a prefix is truthful if that of its source is. -/
theorem LineStart.reset_markHolds {properties : Width.Properties} {source : StringView}
    {spaces : Int} {start : LineStart}
    (hreset : LineStart.reset properties source spaces = .ok start)
    (hmark : Wrap.MarkHolds source) : start.MarkHolds := by
  unfold LineStart.reset at hreset
  split at hreset
  next => exact absurd hreset (by simp)
  split at hreset
  next =>
    obtain rfl := Except.ok.inj hreset
    exact fun hascii => absurd hascii (by simp)
  split at hreset
  next => exact absurd hreset (by simp)
  split at hreset
  next => exact absurd hreset (by simp)
  next =>
    obtain ⟨-, -, hcount⟩ := except_bind_ok hreset
    have hwidth : ∃ count : Nat, (do
        let width ← stringWidth properties source.bytes
        return ⟨source.bytes ++ List.replicate spaces.toNat 0x20, count + spaces, width + spaces,
          markedAscii source, false⟩) = Except.ok start := by
      simp only at hcount
      split at hcount
      next => exact ⟨_, hcount⟩
      next =>
        obtain ⟨count, -, hwidth⟩ := except_bind_ok hcount
        exact ⟨count, hwidth⟩
    obtain ⟨count, hwidth⟩ := hwidth
    obtain ⟨width, -, hreturn⟩ := except_bind_ok hwidth
    obtain rfl := Except.ok.inj hreturn
    intro hascii
    rw [isAscii_append, hmark.markedAscii hascii, Bool.true_and]
    apply List.all_eq_true.mpr
    intro byte hbyte
    rw [List.eq_of_mem_replicate hbyte]
    rfl

/-! ## Planned records -/

/-- The lines of the record. -/
def Plan.pieces (plan : Plan) : List Piece := plan.spans.map (LineSpan.piece plan.record.data)

/-- The parts of a line, put together. -/
def Plan.assemble (plan : Plan) (line : LineParts) : Line where
  bytes := line.start ++ (plan.record.data.drop line.begin).take line.bodySize
  ascii := line.ascii

/-- A line by its parts. -/
theorem Plan.lineOf_eq {plan : Plan} (hlength : plan.record.data.length ≤ intMax)
    (start : LineStart) {begin stop : Nat} (hle : begin ≤ stop)
    (hstop : stop ≤ plan.record.data.length) :
    plan.lineOf start begin stop = (plan.partsOf start true begin stop).map plan.assemble := by
  have hbody : (plan.record.data.drop begin).take (stop - begin) =
      slice plan.record.data begin stop := rfl
  rw [partsOf_eq true hlength hle hstop]
  simp only [Plan.lineOf, hbody]
  by_cases hroom : start.bytes.length + (slice plan.record.data begin stop).length ≤ intMax
  · rw [if_pos hroom, checkedSum_of_le hroom]
    simp [Except.map, Plan.assemble, slice]
  · rw [if_neg hroom, checkedSum_of_not_le hroom]
    rfl

/-- The lines that are returned are those that are written. -/
theorem Plan.Sound.line_eq {plan : Plan} (hsound : plan.Sound) (first later : LineStart)
    (index : Nat) :
    plan.line first later index = (plan.parts first later true index).map plan.assemble := by
  rw [Plan.line, Plan.parts]
  split
  next => rfl
  next hindex =>
    have hbound : index < plan.spans.length := hsound.length_spans ▸ Nat.not_le.mp hindex
    obtain ⟨hle, hstop⟩ := hsound.chained.inside _ (List.getElem_mem hbound)
    cases hlayout : plan.layout with
    | passthrough =>
        simp only [Except.map, Plan.assemble]
        rw [List.nil_append, List.drop_zero, List.take_length, Bool.true_and]
    | direct stop =>
        have hspans : plan.spans = [⟨0, stop, plan.record.data.length⟩] := by
          rw [Plan.spans, hlayout]
        apply Plan.lineOf_eq hsound.length_le _ (Nat.zero_le stop)
        exact (hsound.chained.inside ⟨0, stop, _⟩ (hspans ▸ List.mem_singleton_self _)).2
    | broken words wrapAfter =>
        have hrange := hsound.ranges words wrapAfter hlayout index (Nat.not_le.mp hindex)
        rw [List.getElem?_eq_getElem hbound, Option.map_some] at hrange
        simp only [hrange]
        exact Plan.lineOf_eq hsound.length_le _ hle hstop

/-- A line that is not refused is read off as the body of its piece. -/
theorem Plan.Sound.parts_piece {plan : Plan} {first later : LineStart} (hsound : plan.Sound)
    (classifyAscii : Bool) {index : Nat} {span : LineSpan} (hspan : plan.spans[index]? = some span)
    (hshort : (plan.textOf first later index span).length ≤ intMax) :
    ∃ line, plan.parts first later classifyAscii index = .ok line ∧
      line.begin = ((plan.pieces.take index).flatMap Piece.bytes).length ∧
      load plan.record.data line.begin line.bodySize = .ok (span.piece plan.record.data).body := by
  obtain ⟨hbound, hmem⟩ := List.getElem?_eq_some_iff.mp hspan
  obtain ⟨hle, hstop⟩ := hsound.chained.inside span (hmem ▸ List.getElem_mem hbound)
  obtain ⟨ascii, hparts, -⟩ :=
    @Plan.Sound.readsOff plan first later hsound classifyAscii index span hspan
  rw [if_pos hshort] at hparts
  refine ⟨_, hparts, ?_, load_slice hle hstop⟩
  exact (hsound.chained.begin_eq hspan).trans (Nat.zero_add _)

theorem Plan.Sound.parts_long {plan : Plan} {first later : LineStart} (hsound : plan.Sound)
    (classifyAscii : Bool) {index : Nat} {span : LineSpan} (hspan : plan.spans[index]? = some span)
    (hlong : intMax < (plan.textOf first later index span).length) :
    plan.parts first later classifyAscii index = .error (.thrown tooLong) := by
  obtain ⟨ascii, hparts, -⟩ :=
    @Plan.Sound.readsOff plan first later hsound classifyAscii index span hspan
  rw [hparts, if_neg (Nat.not_le.mpr hlong)]

theorem Plan.Sound.line_long {plan : Plan} {first later : LineStart} (hsound : plan.Sound)
    {index : Nat} {span : LineSpan} (hspan : plan.spans[index]? = some span)
    (hlong : intMax < (plan.textOf first later index span).length) :
    plan.line first later index = .error (.thrown tooLong) := by
  rw [hsound.line_eq, hsound.parts_long true hspan hlong]
  rfl

/-- A line that is returned is the text of its span, and marked as ASCII only if it is. -/
theorem Plan.Sound.line_text {plan : Plan} {first later : LineStart} (hsound : plan.Sound)
    {index : Nat} {span : LineSpan} (hspan : plan.spans[index]? = some span)
    (hshort : (plan.textOf first later index span).length ≤ intMax) :
    ∃ ascii, plan.line first later index = .ok ⟨plan.textOf first later index span, ascii⟩ ∧
      (ascii = true → MarksHold plan first later →
        isAscii (plan.textOf first later index span) = true) := by
  obtain ⟨ascii, hparts, hascii⟩ :=
    @Plan.Sound.readsOff plan first later hsound true index span hspan
  rw [if_pos hshort] at hparts
  refine ⟨ascii, ?_, hascii⟩
  obtain ⟨hbound, hmem⟩ := List.getElem?_eq_some_iff.mp hspan
  obtain ⟨-, hstop⟩ := hsound.chained.inside span (hmem ▸ List.getElem_mem hbound)
  rw [hsound.line_eq, hparts, Except.map, Plan.assemble, length_slice hstop]
  rfl

section Planned

variable {Cost : Type} [Zero Cost] [One Cost] [Neg Cost] [Add Cost] [LT Cost] [LE Cost]
  [DecidableLT Cost] [DecidableLE Cost] {icu : Icu} {options : Options Cost}
  {pow : Int → Cost → Cost}

/-- The record of a plan is the prepared source. -/
theorem plan_record {source : StringView} {first later : LineStart} {matrices left : Matrices Cost}
    {planned : Plan}
    (hplan : plan icu options pow source first later matrices = .ok (left, planned)) :
    prepareRecord icu options.normalize source = .ok planned.record := by
  obtain ⟨record, hrecord, ⟨stop, -, rfl⟩ | ⟨-, rfl⟩ | ⟨words, wrapAfter, -, -, -, -, rfl⟩⟩ :=
    plan_cases hplan
  · exact hrecord
  · exact hrecord
  · exact hrecord

/-- A plan cuts its record into pieces. The body of a piece is on a line, and what is left
out behind it is at most one white space. Lines are refused only if they are too long, and
those that are returned are those that are written. What is announced of all lines, joined
by line breaks, is right of what is written. -/
theorem plan_lines_rebuild_and_join
    (hpow : ¬ options.exponent ≤ 0 → NonNegative fun room => pow room options.exponent)
    {source : StringView} {first later : LineStart} {matrices left : Matrices Cost} {planned : Plan}
    (hplan : plan icu options pow source first later matrices = .ok (left, planned))
    (hends : Boundaries planned.record.data (icu.boundaries planned.record.data).2) :
    ∃ pieces : List Piece, pieces.length = planned.lineCount ∧
      pieces.flatMap Piece.bytes = planned.record.data ∧ (∀ piece ∈ pieces, OneBlank piece.gap) ∧
      ∀ opening following : LineStart, ∃ lines : List (List UInt8),
        lines.length = planned.lineCount ∧
        (∀ index piece line, pieces[index]? = some piece → lines[index]? = some line →
          line = (planned.startOf opening following index).bytes ++ piece.body ∧
          (intMax < line.length →
            planned.line opening following index = .error (.thrown tooLong) ∧
            ∀ classifyAscii,
              planned.parts opening following classifyAscii index = .error (.thrown tooLong)) ∧
          (line.length ≤ intMax →
            (∃ ascii, planned.line opening following index = .ok ⟨line, ascii⟩ ∧
              (ascii = true → MarkHolds source → opening.MarkHolds → following.MarkHolds →
                isAscii line = true)) ∧
            planned.writtenLine opening following index = .ok line ∧
            ∀ classifyAscii, ∃ parts,
              planned.parts opening following classifyAscii index = .ok parts ∧
              parts.begin = ((pieces.take index).flatMap Piece.bytes).length ∧
              load planned.record.data parts.begin parts.bodySize = .ok piece.body)) ∧
        ∀ classifyAscii,
          (intMax < ([0x0a].intercalate lines).length →
            planned.joined opening following classifyAscii = .error (.thrown tooLong)) ∧
          (([0x0a].intercalate lines).length ≤ intMax →
            (∀ destination, planned.writeJoined opening following destination =
              store destination 0 ([0x0a].intercalate lines)) ∧
            ∃ ascii, planned.joined opening following classifyAscii =
                .ok ⟨([0x0a].intercalate lines).length, ascii⟩ ∧
              (ascii = true → MarkHolds source → opening.MarkHolds → following.MarkHolds →
                isAscii ([0x0a].intercalate lines) = true)) := by
  -- everything below reads the plan's own invariant
  obtain ⟨hlength, hmark⟩ := prepareRecord_sound (plan_record hplan)
  have hsound := plan_sound hpow hplan hends hlength
  refine ⟨planned.pieces, ?_, ?_, hsound.chained.gaps, ?_⟩
  · rw [Plan.pieces, List.length_map, hsound.length_spans]
  · exact hsound.chained.rebuild
  intro opening following
  refine ⟨planned.texts opening following, ?_, ?_, ?_⟩
  · rw [Plan.texts, length_textsFrom, hsound.length_spans]
  -- one line, by itself
  · intro index piece line hpiece hline
    rw [Plan.pieces, List.getElem?_map, Option.map_eq_some_iff] at hpiece
    obtain ⟨span, hspan, rfl⟩ := hpiece
    rw [Plan.texts, getElem?_textsFrom, hspan, Nat.zero_add, Option.map_some,
      Option.some_inj] at hline
    obtain rfl := hline
    refine ⟨rfl, ?_, ?_⟩
    · intro hlong
      refine ⟨hsound.line_long hspan hlong, ?_⟩
      intro classifyAscii
      exact hsound.parts_long classifyAscii hspan hlong
    · intro hshort
      obtain ⟨ascii, hline, hascii⟩ := hsound.line_text hspan hshort
      refine ⟨⟨ascii, hline, ?_⟩, hsound.writtenLine_eq hspan hshort, ?_⟩
      · intro htrue hsource hopening hfollowing
        exact hascii htrue ⟨hmark hsource, hopening, hfollowing⟩
      intro classifyAscii
      exact hsound.parts_piece classifyAscii hspan hshort
  -- all lines, joined by line breaks
  · intro classifyAscii
    obtain ⟨hlong, hshort⟩ := @Plan.Sound.join planned opening following hsound classifyAscii
    refine ⟨hlong, ?_⟩
    intro hroom
    obtain ⟨⟨ascii, hjoined, hascii⟩, hwritten⟩ := hshort hroom
    refine ⟨hwritten, ascii, hjoined, ?_⟩
    intro htrue hsource hopening hfollowing
    exact hascii htrue ⟨hmark hsource, hopening, hfollowing⟩

end Planned

/-- Two lines, each behind a dash; the blank between them is on none. -/
theorem plan_lines_rebuild_and_join_dashed :
    let source : StringView := ⟨.bytes ⟨8, [0x61, 0x20, 0x62, 0x63], by decide⟩, .ascii⟩
    let dash : LineStart := ⟨[0x2d], 1, 1, true, false⟩
    let planned : Plan :=
      ⟨⟨[0x61, 0x20, 0x62, 0x63], true⟩, .broken [⟨2, 1, 2, 1⟩, ⟨4, 4, 2, 2⟩] [0]⟩
    plan asciiIcu (⟨4, 2, false, false, false⟩ : Options Int)
        (fun room exponent => room ^ exponent.toNat) source dash dash ⟨[], []⟩ =
      .ok (⟨[4, -1, 0, 0], [4, 4]⟩, planned) ∧
    planned.joined dash dash true = .ok ⟨6, true⟩ ∧
    ∃ pieces : List Piece, pieces.length = 2 ∧
      pieces.flatMap Piece.bytes = [0x61, 0x20, 0x62, 0x63] ∧
      ∀ piece ∈ pieces, OneBlank piece.gap := by
  intro source dash planned
  have hplan : plan asciiIcu (⟨4, 2, false, false, false⟩ : Options Int)
      (fun room exponent => room ^ exponent.toNat) source dash dash ⟨[], []⟩ =
        .ok (⟨[4, -1, 0, 0], [4, 4]⟩, planned) := by decide
  obtain ⟨pieces, hcount, hbytes, hgaps, -⟩ :=
    plan_lines_rebuild_and_join (fun _ => ⟨le_rfl, fun room hroom => pow_nonneg hroom _⟩) hplan
      ⟨by decide, by decide, by decide⟩
  exact ⟨hplan, by decide, pieces, hcount, hbytes, hgaps⟩

end Charr.Wrap
