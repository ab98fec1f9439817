import MeePdn.DataLayer.Pod.MembershipView.Checks
import MeePdn.DataLayer.Pod.Testing

/-!
# An evaluation, turn by turn

The turns the loop of `evaluate` makes: which sequences they open and close, and which candidates
they decide.

## Main definitions

* `Evaluation.turns` — the states the loop makes a turn in, up to its end.

## Main results

* `Evaluation.Inv.turns` — from any state of the loop on, the sequences left are opened and closed
  in order, and the candidates left are decided once.
* `evaluate_once` — **an evaluation ends with every sequence opened and closed once, in order, and
  every candidate decided once**.
-/

namespace MeePdn

namespace Evaluation

/-- The states the loop makes a turn in, each with the number of its turn. -/
def turns (parsed : Parsed) (list : List Event) (setAside : Finset ℕ) (order : HashOrder) :
    ℕ → Evaluation → List (ℕ × Evaluation)
  | 0, _ => []
  | fuel + 1, e =>
    match e.turn parsed list setAside order fuel with
    | none => []
    | some e' => (fuel, e) :: turns parsed list setAside order fuel e'

/-- The sequences of one chain among some points. -/
def sequencesOf (member : PdnId) (points : List Point) : List ℕ :=
  (points.filter fun point => point.1 = member).map Prod.snd

variable {parsed : Parsed} {candidates : Candidates parsed} {setAside : Finset ℕ}
  {verdicts : List Verdict} {e : Evaluation} {decided : Finset ℕ} {waiting : List ℕ}
  {opened : PdnId → ℕ} {round : ℕ} {order : HashOrder}

/-- A mark that moves, and the sequences it moves over afterwards, make up a run of sequences. -/
lemma Moves.range {point : Option Point} {marks marks' last : PdnId → ℕ}
    (h : Moves point marks marks') (hle : ∀ member, marks' member ≤ last member)
    (points : List Point) (member : PdnId) (hrest : sequencesOf member points =
      List.range' (marks' member + 1) (last member - marks' member)) :
    marks member ≤ last member ∧ sequencesOf member (point.toList ++ points) =
      List.range' (marks member + 1) (last member - marks member) := by
  have hle := hle member
  rcases point with _ | ⟨x, seq⟩
  · obtain rfl : marks' = marks := h
    exact ⟨hle, hrest⟩
  · obtain ⟨rfl, rfl⟩ := h
    rcases eq_or_ne x member with rfl | hx
    · rw [Function.update_self] at hle hrest
      refine ⟨by omega, ?_⟩
      rw [show last x - marks x = last x - (marks x + 1) + 1 by omega, List.range'_succ, ← hrest]
      simp [sequencesOf]
    · rw [Function.update_of_ne hx.symm] at hle hrest
      refine ⟨hle, ?_⟩
      rw [← hrest]
      simp [sequencesOf, hx]

variable (candidates setAside order) in
/-- What the turns from a state on do, with `opened`, `settled` and `decided` done before. -/
structure Traced (turns : List (ℕ × Evaluation)) (opened settled : PdnId → ℕ) (decided : Finset ℕ) :
    Prop where
  opened_le : ∀ member, opened member ≤ parsed.run member
  opens : ∀ member, sequencesOf member (turns.flatMap fun t => t.2.opens.toList) =
    List.range' (opened member + 1) (parsed.run member - opened member)
  settled_le : ∀ member, settled member ≤ parsed.run member
  closes : ∀ member, sequencesOf member (turns.flatMap fun t => t.2.closes.toList) =
    List.range' (settled member + 1) (parsed.run member - settled member)
  nodup : (turns.flatMap fun t => t.2.decides candidates.list order t.1).Nodup
  mem : ∀ index, index ∈ (turns.flatMap fun t => t.2.decides candidates.list order t.1) ↔
    index < candidates.list.length ∧ index ∉ decided
  broke : ∀ t ∈ turns, t.2.opens = none → t.2.closes = none → t.2.rounds < loopRounds →
    ∃ index ∈ t.2.decides candidates.list order t.1, index ∈ t.2.awaited.map Prod.fst
  writes : ∀ t ∈ turns, ∃ e' verdict,
    t.2.turn parsed candidates.list setAside order t.1 = some e' ∧ e'.verdicts =
      (t.2.decides candidates.list order t.1).foldl (write candidates.list verdict) t.2.verdicts

/-- Where no turn is left, every sequence is opened and closed and every candidate decided. -/
lemma Inv.traced_nil (h : Inv candidates setAside verdicts e round opened decided waiting)
    {number : ℕ} (hnone : e.turn parsed candidates.list setAside order number = none) :
    Traced candidates setAside order [] opened e.settled decided := by
  obtain ⟨hwaiting, -, -, hsettled⟩ := h.finished hnone
  have hopened : ∀ member, opened member = parsed.run member := fun member =>
    le_antisymm (h.mid.opened.le_run member) (hsettled member ▸ h.mid.opened.settled_le member)
  refine ⟨h.mid.opened.le_run, fun member => by simp [sequencesOf, hopened member],
    h.mid.core.settled_le, fun member => by simp [sequencesOf, hsettled member], by simp,
    fun index => ?_, by simp, by simp⟩
  simp only [List.flatMap_nil, List.not_mem_nil, false_iff, not_and, not_not]
  intro hlt
  have hevent := List.getElem?_eq_getElem hlt
  refine ((h.mid.opened.iff index _ hevent).mpr ?_).resolve_right (by simp [hwaiting])
  exact (candidates.seq_le_run _ (List.mem_of_getElem? hevent)).trans (hopened _).ge

/-- **The turns of the loop**, from any of its states on. -/
lemma Inv.turns (fuel : ℕ) : ∀ {e : Evaluation} {round : ℕ} {opened : PdnId → ℕ}
    {decided : Finset ℕ} {waiting : List ℕ},
    Inv candidates setAside verdicts e round opened decided waiting →
    left parsed candidates.list e decided < fuel →
    Traced candidates setAside order (e.turns parsed candidates.list setAside order fuel) opened
      e.settled decided := by
  induction fuel with
  | zero => exact fun _ hlt => absurd hlt (Nat.not_lt_zero _)
  | succ fuel ih =>
    intro e round opened decided waiting h hlt
    unfold Evaluation.turns
    split
    · next hnone => exact h.traced_nil hnone
    · next e' hturn =>
      obtain ⟨round', opened', decided', waiting', hinv, hturned, hless⟩ := h.turn hturn
      have hrest := ih hinv (by omega)
      refine ⟨h.mid.opened.le_run, fun member => ?_, h.mid.core.settled_le, fun member => ?_, ?_,
        fun index => ?_, ?_, ?_⟩
      · exact (hturned.opens.range hrest.opened_le _ member (hrest.opens member)).2
      · exact (hturned.closes.range hrest.settled_le _ member (hrest.closes member)).2
      · rw [List.flatMap_cons, List.nodup_append]
        refine ⟨hturned.nodup, hrest.nodup, fun i hi j hj hij => ?_⟩
        have hnot := ((hrest.mem j).mp hj).2
        rw [hturned.decides] at hnot
        exact hnot (Finset.mem_union_right _ (List.mem_toFinset.mpr (hij ▸ hi)))
      · have hlen := hinv.mid.core.decided_lt index
        have hnew := hturned.fresh index
        rw [hturned.decides, Finset.mem_union, List.mem_toFinset] at hlen
        rw [List.flatMap_cons, List.mem_append, hrest.mem, hturned.decides, Finset.mem_union,
          List.mem_toFinset]
        tauto
      · rw [List.forall_mem_cons]
        exact ⟨hturned.broke, hrest.broke⟩
      · rw [List.forall_mem_cons]
        obtain ⟨verdict, hwrites⟩ := verdicts_turn hturn
        exact ⟨⟨e', verdict, hturn, hwrites⟩, hrest.writes⟩

end Evaluation

open Evaluation in
/-- **An evaluation ends, and does everything once.** Whatever the candidates and the order of
iteration, the loop ends where no turn is left and nothing waits; the sequences of each chain were
opened, and closed, each once and in order; each candidate was decided once, every round of breaking
loops deciding one that waited; and a turn writes one verdict for each candidate it decides.

**Proof sketch.** Every turn keeps the invariant and leaves less to do, so the loop ends. A turn
moves a mark of a chain to the next sequence and decides candidates that were not decided, so the
turns from a state on go through what that state has left, by induction from the end. -/
theorem evaluate_once {parsed : Parsed} (candidates : Candidates parsed) (setAside : Finset ℕ)
    (order : HashOrder) {verdicts : List Verdict}
    (hentry : ∀ event ∈ candidates.list, event.entry < verdicts.length) :
    let first := start parsed candidates.list order verdicts
    let last := loop parsed candidates.list setAside order (fuel parsed) first
    let turns := first.turns parsed candidates.list setAside order (fuel parsed)
    (∀ number, last.turn parsed candidates.list setAside order number = none) ∧
      last.awaited = [] ∧ (∀ point, last.waiting point = []) ∧
      (∀ member, sequencesOf member (turns.flatMap fun t => t.2.opens.toList) =
        List.range' 1 (parsed.run member)) ∧
      (∀ member, sequencesOf member (turns.flatMap fun t => t.2.closes.toList) =
        List.range' 1 (parsed.run member)) ∧
      (turns.flatMap fun t => t.2.decides candidates.list order t.1).Perm
        (List.range candidates.list.length) ∧
      (∀ t ∈ turns, t.2.opens = none → t.2.closes = none → t.2.rounds < loopRounds →
        ∃ index ∈ t.2.decides candidates.list order t.1, index ∈ t.2.awaited.map Prod.fst) ∧
      ∀ t ∈ turns, ∃ e' verdict,
        t.2.turn parsed candidates.list setAside order t.1 = some e' ∧ e'.verdicts =
          (t.2.decides candidates.list order t.1).foldl (write candidates.list verdict)
            t.2.verdicts := by
  intro first last turns
  obtain ⟨round, opened, decided, waiting, number, hinv, hnone⟩ :=
    loop_finished setAside order hentry
  obtain ⟨rfl, hclose, hopen, -⟩ := hinv.finished hnone
  have hawaited : last.awaited = [] :=
    List.map_eq_nil_iff.mp (List.eq_nil_iff_forall_not_mem.mpr fun index hin => by
      simpa using (hinv.mem_awaited index).mp hin)
  have htraced : Traced candidates setAside order turns (fun _ => 0) first.settled ∅ :=
    (Inv.start hentry).turns (fuel parsed) (left_start_lt candidates verdicts order)
  refine ⟨fun number => ?_, hawaited, fun point => ?_, htraced.opens, htraced.closes, ?_,
    htraced.broke, htraced.writes⟩
  · have hclose : last.toClose = [] := hclose
    have hopen : last.toOpen = [] := hopen
    simp [Evaluation.turn, hclose, hopen, hawaited]
  · exact List.eq_nil_iff_forall_not_mem.mpr fun index hin => by
      simpa using ((hinv.queues.waiting point index).mp hin).1
  · refine (List.perm_ext_iff_of_nodup htraced.nodup List.nodup_range).mpr fun index => ?_
    simp [htraced.mem]

/-- The evaluation of a pod of two: both chains run to their first sequence. -/
theorem evaluate_once_family :
    let family := (Testing.Store.createdBy Testing.alice).invite Testing.alice 1 Testing.bob
    let candidates := candidatesOf Testing.transparent family.pod family.namespaceId family.entries
    ∀ number, ((Evaluation.start (Parsed.of family.entries) candidates.list default
      (Alone.of Testing.transparent family.pod family.namespaceId family.entries
        (Parsed.of family.entries)).verdicts).loop (Parsed.of family.entries) candidates.list ∅
        default (Evaluation.fuel (Parsed.of family.entries))).turn (Parsed.of family.entries)
        candidates.list ∅ default number = none := by
  intro family candidates
  refine (evaluate_once candidates ∅ default fun event hevent => ?_).1
  rw [(Alone.of_checked _ _ _ _).length]
  exact candidatesOf_entry_lt hevent

end MeePdn
