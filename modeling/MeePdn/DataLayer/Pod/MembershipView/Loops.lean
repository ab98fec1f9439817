import MeePdn.DataLayer.Pod.MembershipView.Turns

/-!
# Breaking loops and giving up

With no sequence to close or to open, the evaluation knows all its log does, and the candidates
that wait are those that wait in the log. A round of breaking then sets down exactly the ones on a
loop of waits: the components of the graph of waits are the classes of mutual waits, and a looped
one is a class of loops. Past the rounds the evaluation sets down every candidate that waits.

## Main results

* `Evaluation.looped_iff` — a component is looped when its nodes lie on loops.
* `Evaluation.Inv.known_eq`, `Evaluation.Inv.waits_iff` — the evaluation is stuck where its log is.
* `Evaluation.Inv.breakLoops`, `Evaluation.Inv.giveUp` — the two turns keep the invariant.
-/

namespace MeePdn

open Settling Classical Relation

namespace Evaluation

/-! ## Looped components -/

/-- **A component is looped** exactly when its nodes lie on loops. -/
lemma looped_iff {adjacency : List (List ℕ)}
    (hgraph : ∀ u v, Tarjan.Edge adjacency u v → v < adjacency.length) {component : List ℕ}
    (hcomponent : component ∈ components adjacency) {node : ℕ} (hnode : node ∈ component) :
    looped adjacency component = true ↔ TransGen (Tarjan.Edge adjacency) node node := by
  have hmutual := components_mutual_iff hgraph hcomponent hnode
  have hnodup : component.Nodup :=
    (List.nodup_flatten.mp (components_nodup hgraph)).1 component hcomponent
  by_cases hsingle : component = [node]
  · subst hsingle
    show decide (node ∈ adjacency.getD node []) = true ↔ _
    rw [decide_eq_true_eq]
    refine ⟨fun hedge => TransGen.single hedge, fun hloop => ?_⟩
    -- the first step of the loop stays in the component, so it leads to the node itself
    obtain ⟨next, hedge, hback⟩ := TransGen.head'_iff.mp hloop
    have hin := (hmutual next).mpr ⟨ReflTransGen.single hedge, hback⟩
    rw [List.mem_singleton.mp hin] at hedge
    exact hedge
  · have hlooped : looped adjacency component = true := by
      unfold looped
      split
      · next single => exact absurd (by rw [List.mem_singleton.mp hnode]) hsingle
      · rfl
    refine ⟨fun _ => ?_, fun _ => hlooped⟩
    obtain ⟨other, hother, hne⟩ : ∃ other ∈ component, other ≠ node := by
      by_contra hno
      push Not at hno
      refine hsingle ?_
      rcases component with _ | ⟨first, rest⟩
      · simp at hnode
      · rcases rest with _ | ⟨second, rest⟩
        · rw [hno first List.mem_cons_self]
        · have hsecond := hno second (by simp)
          have hfirst := hno first (by simp)
          simp [hfirst, hsecond] at hnodup
    obtain ⟨hto, hback⟩ := (hmutual other).mp hother
    exact ((reflTransGen_iff_eq_or_transGen.mp hto).resolve_left hne).trans_left hback

/-! ## The graph of waits -/

variable {parsed : Parsed} {candidates : Candidates parsed} {setAside : Finset ℕ}
  {verdicts : List Verdict} {e : Evaluation} {decided : Finset ℕ} {waiting : List ℕ}
  {opened : PdnId → ℕ} {round : ℕ}

lemma lookup_eq_some {α β : Type} [DecidableEq α] {l : List (α × β)}
    (hnodup : (l.map Prod.fst).Nodup) {a : α} {b : β} (hmem : (a, b) ∈ l) :
    l.lookup a = some b := by
  induction l with
  | nil => simp at hmem
  | cons p l ih => grind

lemma mem_waitsOn {nodes : List ℕ} (hnodup : nodes.Nodup) {point : Point} {node : ℕ} :
    node ∈ waitsOn candidates.list nodes point ↔
      ∃ index event, nodes[node]? = some index ∧ candidates.list[index]? = some event ∧
        event.point = point := by
  simp only [waitsOn, List.mem_map, List.mem_filter, decide_eq_true_eq, Option.map_eq_some_iff]
  constructor
  · rintro ⟨index, ⟨hmem, event, hevent, hpoint⟩, rfl⟩
    exact ⟨index, event, List.getElem?_idxOf hmem, hevent, hpoint⟩
  · grind

/-! ## Where the evaluation is stuck -/

section Stuck

variable (h : Inv candidates setAside verdicts e round opened decided waiting)
  (hclose : e.toClose = []) (hopen : e.toOpen = [])

include h hclose hopen

/-- With nothing to close or open, every unfinished chain has a candidate that waits at its first
unsettled sequence. -/
lemma Inv.exists_waiting {x : PdnId} (hrun : e.settled x < parsed.run x) :
    opened x = e.settled x + 1 ∧ ∃ index ∈ waiting, ∃ event,
      candidates.list[index]? = some event ∧ event.point = (x, e.settled x + 1) := by
  have hopened : opened x = e.settled x + 1 := by
    have hle := h.mid.opened.settled_le x
    have hsucc := h.mid.opened.le_succ x
    rcases Nat.lt_or_eq_of_le hsucc with hlt | heq
    · have hin : (x, opened x + 1) ∈ e.toOpen :=
        (h.toOpen.iff x _).mpr ⟨by omega, rfl, by omega⟩
      simp [hopen] at hin
    · exact heq
  refine ⟨hopened, ?_⟩
  by_contra hno
  push Not at hno
  have hzero : countAt candidates waiting (x, e.settled x + 1) = 0 := by
    refine List.countP_eq_zero.mpr fun index hmem hpoint => ?_
    obtain ⟨event, hevent, hp⟩ := Option.map_eq_some_iff.mp (of_decide_eq_true hpoint)
    exact hno index hmem event hevent hp
  have hin : (x, e.settled x + 1) ∈ e.toClose :=
    (h.mid.schedule.toClose_iff x _).mpr ⟨hopened.symm, rfl, hzero⟩
  simp [hclose] at hin

/-- **With nothing to close or open, the evaluation knows all its log does.** -/
lemma Inv.known_eq : e.known =
    (candidates.log setAside).known membershipRules (cycs candidates setAside round) := by
  refine Known.Le.antisymm h.mid.core.sound (Log.known_le (fun x => by simp [known]; rfl) ?_)
  intro x s before hrun hbefore hready
  have hs := h.mid.core.le_settled hbefore
  rcases Nat.lt_or_eq_of_le hs with hlt | rfl
  · have hknown := h.mid.core.known_eq (show s + 1 ≤ e.settled x from hlt)
    obtain ⟨-, -, b, hb, hafter⟩ := Log.known_succ_iff.mp (h.mid.core.sound _ _ _ hknown)
    obtain rfl := Option.some.inj ((h.mid.core.sound _ _ _ hbefore).symm.trans hb)
    rw [hknown, hafter, Log.countedKinds_mono h.mid.core.sound hready]
  · -- the next sequence holds a candidate that waits, so it is not ready
    obtain ⟨-, index, hmem, event, hevent, hpoint⟩ := h.exists_waiting hclose hopen hrun
    obtain ⟨hsubject, hseq⟩ := Prod.mk.inj hpoint
    have := hready event ⟨List.mem_of_getElem? hevent, hsubject, hseq⟩
    simp [h.rest index hmem event hevent] at this

/-- **The candidates that wait are those that wait in the log.** -/
lemma Inv.waits_iff {index : ℕ} {event : Event} (hevent : candidates.list[index]? = some event) :
    (candidates.log setAside).Waits membershipRules (cycs candidates setAside round) event ↔
      index ∈ waiting := by
  have hknown := h.known_eq hclose hopen
  constructor
  · rintro ⟨hmem, hbefore, hnone⟩
    rw [← hknown] at hbefore hnone
    obtain ⟨before, hbefore⟩ := Option.isSome_iff_exists.mp hbefore
    have hle : event.seq - 1 ≤ e.settled event.subject := h.mid.core.le_settled hbefore
    have hpos := candidates.seq_pos event hmem
    have hrun := candidates.seq_le_run event hmem
    have hopened : event.seq ≤ opened event.subject := by
      rcases Nat.lt_or_ge (e.settled event.subject) event.seq with hlt | hge
      · have := (h.exists_waiting hclose hopen (x := event.subject) (by omega)).1
        omega
      · exact hge.trans (h.mid.opened.settled_le _)
    refine ((h.mid.opened.iff index event hevent).mpr hopened).resolve_left fun hdecided => ?_
    obtain ⟨o, ho, -⟩ := h.mid.core.outcome index hdecided event hevent
    rw [ho] at hnone
    simp at hnone
  · intro hmem
    obtain ⟨before, hbefore, -⟩ := h.waits hevent hmem
    refine ⟨List.mem_of_getElem? hevent, ?_, ?_⟩
    · rw [← hknown]
      exact Option.isSome_iff_exists.mpr ⟨before, hbefore⟩
    · rw [← hknown]
      exact h.rest index hmem event hevent

lemma Inv.linked_iff {i j : ℕ} {a b : Event} (ha : candidates.list[i]? = some a)
    (hb : candidates.list[j]? = some b) :
    (candidates.log setAside).Linked membershipRules (cycs candidates setAside round) a b ↔
      i ∈ waiting ∧ j ∈ waiting ∧ b.point = (a.actor, e.settled a.actor + 1) := by
  rw [Log.Linked, h.waits_iff hclose hopen ha, h.waits_iff hclose hopen hb]
  refine and_congr_right fun _ => and_congr_right fun hj => ?_
  obtain ⟨-, hseq⟩ := h.mid.seq_eq hb hj
  constructor
  · intro hsubject
    exact Prod.ext hsubject (hseq.trans (congrArg (e.settled · + 1) hsubject))
  · exact fun hpoint => (Prod.mk.inj hpoint).1

end Stuck

/-- What a step that sets candidates down does to what holds between turns: with nothing to close or
open, resolving the candidates the next round sets down gives the invariant of that round. -/
lemma Inv.setDown (h : Inv candidates setAside verdicts e round opened decided waiting)
    (hclose : e.toClose = []) (hopen : e.toOpen = []) {step : Evaluation → ℕ → Evaluation}
    (hstep : Resolves candidates (fun _ => .countedForNothing .cyclic) step) (e₀ : Evaluation)
    (he₀ : e₀ = { e with awaited := e₀.awaited, waiting := e₀.waiting, rounds := e₀.rounds })
    (hrounds : e₀.rounds = min (round + 1) loopRounds) {indices : List ℕ} (hnodup : indices.Nodup)
    (hsub : ∀ index ∈ indices, index ∈ waiting)
    (hcyc : ∀ index ∈ waiting, ∀ event, candidates.list[index]? = some event →
      (event ∈ cycs candidates setAside (round + 1) ↔ index ∈ indices))
    (hqueues : Queues candidates (indices.foldl step e₀) (waiting.diff indices)) :
    Inv candidates setAside verdicts (indices.foldl step e₀) (round + 1) opened
        (decided ∪ indices.toFinset) (waiting.diff indices) ∧
      (indices.foldl step e₀).settled = e.settled ∧
      (indices.foldl step e₀).toOpen = e.toOpen := by
  have hknown := h.known_eq hclose hopen
  have hfields : e₀.states = e.states ∧ e₀.settled = e.settled ∧ e₀.verdicts = e.verdicts ∧
      e₀.winners = e.winners ∧ e₀.here = e.here ∧ e₀.pending = e.pending ∧
      e₀.toClose = e.toClose ∧ e₀.toOpen = e.toOpen := by
    rw [he₀]
    exact ⟨rfl, rfl, rfl, rfl, rfl, rfl, rfl, rfl⟩
  obtain ⟨hstates, hsettled, hverdicts, hwinners, hhere, hpending, hclose₀, hopen₀⟩ := hfields
  have hknown₀ : e₀.known = e.known := by
    funext x s
    simp [known, hstates]
  -- a candidate set down is one that waits
  have hnew : ∀ event ∈ cycs candidates setAside (round + 1),
      event ∉ cycs candidates setAside round → (candidates.log setAside).Waits membershipRules
        (cycs candidates setAside round) event := fun event hin hold => Log.cycs_succ_new hin hold
  have hmid : Mid candidates setAside verdicts e₀ (cycs candidates setAside (round + 1)) opened
      decided waiting := by
    refine ⟨Core.congr (e := e) ?_ hstates hsettled hverdicts hwinners hhere,
      h.mid.schedule.congr hpending hclose₀ hsettled, ?_⟩
    · exact
        { h.mid.core with
          sound := fun x s a ha => Log.known_cycs_le (Nat.le_succ round) x s a
            (h.mid.core.sound x s a ha)
          outcome := fun index hdecided event hevent => by
            obtain ⟨o, ho, hverdict⟩ := h.mid.core.outcome index hdecided event hevent
            have hiff : event ∈ cycs candidates setAside round ↔
                event ∈ cycs candidates setAside (round + 1) := by
              refine ⟨fun hin => Or.inl hin, fun hin => by_contra fun hold => ?_⟩
              have hnone := (hnew event hin hold).2.2
              rw [← hknown, ho] at hnone
              simp at hnone
            exact ⟨o, Log.outcome_congr_cyc hiff ▸ ho, hverdict⟩ }
    · refine ⟨?_, ?_, h.mid.opened.le_run, h.mid.opened.iff⟩
      · simpa only [hsettled] using h.mid.opened.settled_le
      · simpa only [hsettled] using h.mid.opened.le_succ
  obtain ⟨hmid', hstates', hsettled', hopen', hrounds'⟩ :=
    hmid.foldl hstep indices hnodup hsub fun index hmem event hevent => by
      obtain ⟨before, hbefore, hallows, -⟩ := h.waits hevent (hsub index hmem)
      refine ⟨.looped, ?_, rfl⟩
      rw [hknown₀]
      exact Log.outcome_eq_looped hbefore hallows
        ((hcyc index (hsub index hmem) event hevent).mpr hmem)
  have hknown' : (indices.foldl step e₀).known = e.known := by
    funext x s
    simp [known, hstates', hstates]
  refine ⟨⟨hmid', hqueues, ?_, fun index hmem event hevent => ?_, fun event hin => ?_, ?_⟩,
    hsettled'.trans hsettled, hopen'.trans hopen₀⟩
  · refine ⟨fun x s => ?_, ?_⟩
    · rw [hopen', hopen₀, hsettled', hsettled]
      exact h.toOpen.iff x s
    · rw [hopen', hopen₀]
      exact h.toOpen.nodup
  · obtain ⟨hwait, hnot⟩ := (h.mid.core.waiting_nodup.mem_sdiff_iff).mp hmem
    obtain ⟨before, hbefore, hallows, -, hreads, hnone⟩ := h.waits hevent hwait
    rw [hknown']
    refine Log.outcome_eq_none_iff.mpr fun b hb => ?_
    obtain rfl := Option.some.inj (hbefore.symm.trans hb)
    exact ⟨hallows, fun hin => hnot ((hcyc index hwait event hevent).mp hin), hreads, hnone⟩
  · by_cases hold : event ∈ cycs candidates setAside round
    · obtain ⟨index, hdecided, hevent⟩ := h.cyc_decided event hold
      exact ⟨index, Finset.mem_union_left _ hdecided, hevent⟩
    · have hwaits := hnew event hin hold
      obtain ⟨index, hevent⟩ := List.getElem?_of_mem hwaits.1
      have hwait := (h.waits_iff hclose hopen hevent).mp hwaits
      refine ⟨index, Finset.mem_union_right _ ?_, hevent⟩
      exact List.mem_toFinset.mpr ((hcyc index hwait event hevent).mp hin)
  · rw [hrounds', hrounds]

/-! ## Giving up -/

variable {order : HashOrder} {turn : ℕ}

lemma Queues.mem_awaited (h : Queues candidates e waiting)
    (hevents : ∀ index ∈ waiting, ∃ event, candidates.list[index]? = some event) (order : HashOrder)
    (turn index : ℕ) : index ∈ (order.awaited turn e.awaited).map Prod.fst ↔ index ∈ waiting := by
  rw [((order.awaited_perm turn e.awaited).map Prod.fst).mem_iff, List.mem_map]
  constructor
  · rintro ⟨a, ha, rfl⟩
    exact ((h.awaited a.1 a.2).mp ha).1
  · intro hmem
    obtain ⟨event, hevent⟩ := hevents index hmem
    exact ⟨(index, event.actorPoint), (h.awaited _ _).mpr ⟨hmem, by simp [hevent]⟩, rfl⟩

lemma Queues.nodup_awaited (h : Queues candidates e waiting) (order : HashOrder) (turn : ℕ) :
    ((order.awaited turn e.awaited).map Prod.fst).Nodup :=
  ((order.awaited_perm turn e.awaited).map Prod.fst).nodup_iff.mpr h.awaited_nodup

lemma Inv.exists_event (h : Inv candidates setAside verdicts e round opened decided waiting) :
    ∀ index ∈ waiting, ∃ event, candidates.list[index]? = some event := by
  intro index hmem
  obtain ⟨event, hevent, -⟩ := h.mid.core.waits index hmem
  exact ⟨event, hevent⟩

lemma resolves_giveUpEvent : Resolves candidates (fun _ => .countedForNothing .cyclic)
    (giveUpEvent candidates.list) := fun e index event hevent =>
  ⟨e.awaited, e.waiting, by simp only [giveUpEvent, hevent]⟩

variable (candidates) in
lemma queues_giveUpEvent (indices : List ℕ) (e : Evaluation) :
    (indices.foldl (giveUpEvent candidates.list) e).awaited = e.awaited ∧
      (indices.foldl (giveUpEvent candidates.list) e).waiting = e.waiting := by
  induction indices generalizing e with
  | nil => exact ⟨rfl, rfl⟩
  | cons index indices ih => grind [giveUpEvent, resolve_queues]

variable (order turn) in
/-- **Giving up** keeps what holds between turns. -/
lemma Inv.giveUp (h : Inv candidates setAside verdicts e round opened decided waiting)
    (hclose : e.toClose = []) (hopen : e.toOpen = []) (hround : ¬ e.rounds < loopRounds) :
    Inv candidates setAside verdicts (e.giveUp candidates.list order turn) (round + 1) opened
        (decided ∪ ((order.awaited turn e.awaited).map Prod.fst).toFinset)
        (waiting.diff ((order.awaited turn e.awaited).map Prod.fst)) ∧
      (e.giveUp candidates.list order turn).settled = e.settled ∧
      (e.giveUp candidates.list order turn).toOpen = e.toOpen := by
  have hpast : loopRounds ≤ round := by
    have := h.rounds
    omega
  set indices := (order.awaited turn e.awaited).map Prod.fst with hindices
  have hmem := h.queues.mem_awaited h.exists_event order turn
  have hcyc : ∀ index ∈ waiting, ∀ event, candidates.list[index]? = some event →
      (event ∈ cycs candidates setAside (round + 1) ↔ index ∈ indices) := by
    intro index hwait event hevent
    have hwaits := (h.waits_iff hclose hopen hevent).mpr hwait
    refine ⟨fun _ => (hmem index).mpr hwait, fun _ => Or.inr ⟨hwaits, fun hlt => ?_⟩⟩
    exact absurd hlt (by omega)
  have hnone : ∀ index, index ∉ waiting.diff indices := fun index hin => by
    obtain ⟨hwait, hnot⟩ := (h.mid.core.waiting_nodup.mem_sdiff_iff).mp hin
    exact hnot ((hmem index).mpr hwait)
  have hqueues : Queues candidates (indices.foldl (giveUpEvent candidates.list)
      { e with waiting := fun _ => [], awaited := [] }) (waiting.diff indices) := by
    obtain ⟨hawaited, hwaiting⟩ := queues_giveUpEvent candidates indices
      { e with waiting := fun _ => [], awaited := [] }
    refine ⟨fun index point => ?_, ?_, fun point index => ?_, fun point => ?_⟩
    · simp [hawaited, hnone index]
    · simp [hawaited]
    · simp [hwaiting, hnone index]
    · simp [hwaiting]
  exact h.setDown hclose hopen resolves_giveUpEvent
    { e with waiting := fun _ => [], awaited := [] } rfl
    (show e.rounds = _ by have := h.rounds; omega) (h.queues.nodup_awaited order turn)
    (fun index hin => (hmem index).mp hin) hcyc hqueues

/-! ## Breaking loops -/

/-- The nested loops of `break_loops` go through the candidates of the nodes of all loops. -/
lemma breakLoops_eq (e : Evaluation) :
    e.breakLoops candidates.list order turn =
      (((components (e.adjacency candidates.list
        ((order.awaited turn e.awaited).map Prod.fst))).filter
        (looped (e.adjacency candidates.list
          ((order.awaited turn e.awaited).map Prod.fst)))).flatten.filterMap
          fun node => ((order.awaited turn e.awaited).map Prod.fst)[node]?).foldl
        (breakIndex candidates.list) e := by
  unfold breakLoops
  dsimp only
  rw [List.foldl_filterMap, List.foldl_flatten]
  congr 1
  funext e₁ component
  congr 1
  funext e₂ node
  rcases hnode : ((order.awaited turn e.awaited).map Prod.fst)[node]? with _ | index <;>
    simp only [breakNode, hnode]

lemma resolves_breakIndex : Resolves candidates (fun _ => .countedForNothing .cyclic)
    (breakIndex candidates.list) := by
  intro e index event hevent
  rcases hlookup : e.awaited.lookup index with _ | point
  · exact ⟨e.awaited, e.waiting, by simp only [breakIndex, hevent, hlookup]⟩
  · exact ⟨_, _, by simp only [breakIndex, hevent, hlookup]; rfl⟩

/-- The loop over candidates set down takes them off the queues. -/
lemma queues_breakIndex (indices : List ℕ) : ∀ {e : Evaluation} {waiting : List ℕ},
    Queues candidates e waiting → waiting.Nodup → indices.Nodup →
    (∀ index ∈ indices, index ∈ waiting ∧ ∃ event, candidates.list[index]? = some event) →
    Queues candidates (indices.foldl (breakIndex candidates.list) e) (waiting.diff indices) := by
  induction indices with
  | nil => exact fun h _ _ _ => h
  | cons index indices ih =>
    intro e waiting h hnodup hindices hall
    obtain ⟨hnot, hindices⟩ := List.nodup_cons.mp hindices
    obtain ⟨hmem, event, hevent⟩ := hall index List.mem_cons_self
    have hlookup : e.awaited.lookup index = some event.actorPoint :=
      lookup_eq_some h.awaited_nodup ((h.awaited _ _).mpr ⟨hmem, by simp [hevent]⟩)
    have hstep : Queues candidates (breakIndex candidates.list e index) (waiting.diff [index]) := by
      refine h.diff hnodup ?_ fun point => ?_
      · grind [breakIndex, resolve_queues]
      · simp only [breakIndex, hevent, hlookup]
        rw [(resolve_queues _ _ _).2]
        rcases eq_or_ne point event.actorPoint with rfl | hne
        · simp
        · have hout : index ∉ e.waiting point := fun hin => by
            have := ((h.waiting point index).mp hin).2
            rw [hevent] at this
            exact hne (Option.some.inj this).symm
          simp only [Function.update_of_ne hne, List.mem_singleton]
          exact (List.filter_eq_self.mpr fun i hi => by
            simpa using fun heq : i = index => hout (heq ▸ hi)).symm
    rw [List.foldl_cons, List.diff_cons]
    rw [List.diff_cons, List.diff_nil] at hstep
    refine ih hstep (hnodup.erase index) hindices fun i hi => ?_
    obtain ⟨hwait, hev⟩ := hall i (List.mem_cons_of_mem _ hi)
    exact ⟨hnodup.mem_erase_iff.mpr ⟨fun heq => hnot (heq ▸ hi), hwait⟩, hev⟩

/-- The edges of the graph of waits. -/
lemma edge_iff (h : Inv candidates setAside verdicts e round opened decided waiting)
    {nodes : List ℕ} (hnodup : nodes.Nodup) (hnodes : ∀ index, index ∈ nodes ↔ index ∈ waiting)
    {u v : ℕ} : Tarjan.Edge (e.adjacency candidates.list nodes) u v ↔
      ∃ i a j b, nodes[u]? = some i ∧ candidates.list[i]? = some a ∧ nodes[v]? = some j ∧
        candidates.list[j]? = some b ∧ b.point = (a.actor, e.settled a.actor + 1) := by
  unfold Tarjan.Edge Tarjan.succs adjacency
  rw [List.getD_eq_getElem?_getD, List.getElem?_map]
  rcases hu : nodes[u]? with _ | i
  · simp
  · obtain ⟨a, ha⟩ := h.exists_event i ((hnodes i).mp (List.mem_of_getElem? hu))
    have hlookup : e.awaited.lookup i = some a.actorPoint :=
      lookup_eq_some h.queues.awaited_nodup
        ((h.queues.awaited _ _).mpr ⟨(hnodes i).mp (List.mem_of_getElem? hu), by simp [ha]⟩)
    simp only [Option.map_some, Option.getD_some, hlookup]
    rw [show a.actorPoint = (a.actor, a.actorSeq) from rfl]
    dsimp only
    rw [mem_waitsOn hnodup]
    constructor
    · rintro ⟨j, b, hj, hb, hpoint⟩
      exact ⟨i, a, j, b, rfl, ha, hj, hb, hpoint⟩
    · grind

/-- **A node lies on a loop** of the graph exactly when its candidate does in the log. -/
lemma loop_iff (h : Inv candidates setAside verdicts e round opened decided waiting)
    (hclose : e.toClose = []) (hopen : e.toOpen = []) {nodes : List ℕ} (hnodup : nodes.Nodup)
    (hnodes : ∀ index, index ∈ nodes ↔ index ∈ waiting) {u i : ℕ} {a : Event}
    (hu : nodes[u]? = some i) (ha : candidates.list[i]? = some a) :
    TransGen (Tarjan.Edge (e.adjacency candidates.list nodes)) u u ↔
      (candidates.log setAside).OnLoop membershipRules (cycs candidates setAside round) a := by
  have hedge := fun {u v : ℕ} => edge_iff h hnodup hnodes (u := u) (v := v)
  constructor
  · intro hloop
    -- a path of the graph is one of the log, from candidate to candidate
    have hpath : ∀ {v w}, TransGen (Tarjan.Edge (e.adjacency candidates.list nodes)) v w →
        ∀ {j b}, nodes[v]? = some j → candidates.list[j]? = some b →
        ∀ {k c}, nodes[w]? = some k → candidates.list[k]? = some c →
        TransGen ((candidates.log setAside).Linked membershipRules
          (cycs candidates setAside round)) b c := by
      intro v w hvw
      have hstep : ∀ {v w}, Tarjan.Edge (e.adjacency candidates.list nodes) v w →
          ∀ {j b}, nodes[v]? = some j → candidates.list[j]? = some b →
          ∀ {k c}, nodes[w]? = some k → candidates.list[k]? = some c →
          (candidates.log setAside).Linked membershipRules
            (cycs candidates setAside round) b c := by
        intro v w hvw j b hj hb k c hk hc
        obtain ⟨j', b', k', c', hj', hb', hk', hc', hpoint⟩ := hedge.mp hvw
        obtain rfl := Option.some.inj (hj.symm.trans hj')
        obtain rfl := Option.some.inj (hk.symm.trans hk')
        obtain rfl := Option.some.inj (hb.symm.trans hb')
        obtain rfl := Option.some.inj (hc.symm.trans hc')
        exact (h.linked_iff hclose hopen hb hc).mpr
          ⟨(hnodes j).mp (List.mem_of_getElem? hj), (hnodes k).mp (List.mem_of_getElem? hk), hpoint⟩
      induction hvw with
      | single hvw => exact fun hj hb _ _ hk hc => .single (hstep hvw hj hb hk hc)
      | tail _ hlast ih =>
        intro j b hj hb k c hk hc
        obtain ⟨m, d, -, -, hm, hd, -⟩ := hedge.mp hlast
        exact (ih hj hb hm hd).tail (hstep hlast hm hd hk hc)
    exact hpath hloop hu ha hu ha
  · intro hloop
    -- and back: every candidate on the path waits, so it has a node
    have hpath : ∀ {c}, TransGen ((candidates.log setAside).Linked membershipRules
        (cycs candidates setAside round)) a c → ∃ w k, nodes[w]? = some k ∧
        candidates.list[k]? = some c ∧
        TransGen (Tarjan.Edge (e.adjacency candidates.list nodes)) u w := by
      have hstep : ∀ {b c : Event} {v j : ℕ}, nodes[v]? = some j → candidates.list[j]? = some b →
          (candidates.log setAside).Linked membershipRules (cycs candidates setAside round) b c →
          ∃ w k, nodes[w]? = some k ∧ candidates.list[k]? = some c ∧
            Tarjan.Edge (e.adjacency candidates.list nodes) v w := by
        intro b c v j hj hb hlink
        obtain ⟨k, hc⟩ := List.getElem?_of_mem hlink.2.1.1
        obtain ⟨-, hk, hpoint⟩ := (h.linked_iff hclose hopen hb hc).mp hlink
        obtain ⟨w, hw⟩ := List.getElem?_of_mem ((hnodes k).mpr hk)
        exact ⟨w, k, hw, hc, hedge.mpr ⟨j, b, k, c, hj, hb, hw, hc, hpoint⟩⟩
      intro c hac
      induction hac with
      | single hlink =>
        obtain ⟨w, k, hw, hc, hvw⟩ := hstep hu ha hlink
        exact ⟨w, k, hw, hc, .single hvw⟩
      | tail _ hlink ih => grind
    obtain ⟨w, k, hw, hc, hpath⟩ := hpath hloop
    have hik : i = k := candidates.index_eq ha hc rfl
    subst hik
    have hlt : u < nodes.length := (List.getElem?_eq_some_iff.mp hu).1
    have huw : u = w := (List.getElem?_inj hlt hnodup).mp (hu.trans hw.symm)
    subst huw
    exact hpath

/-- The candidates of the nodes of all loops. -/
def loopedIndices (candidates : List Event) (e : Evaluation) (nodes : List ℕ) : List ℕ :=
  ((components (e.adjacency candidates nodes)).filter
    (looped (e.adjacency candidates nodes))).flatten.filterMap fun node => nodes[node]?

lemma edge_lt (h : Inv candidates setAside verdicts e round opened decided waiting)
    {nodes : List ℕ} (hnodup : nodes.Nodup) (hnodes : ∀ index, index ∈ nodes ↔ index ∈ waiting)
    (u v : ℕ) (hedge : Tarjan.Edge (e.adjacency candidates.list nodes) u v) :
    v < (e.adjacency candidates.list nodes).length := by
  obtain ⟨-, -, j, -, -, -, hj, -⟩ := (edge_iff h hnodup hnodes).mp hedge
  simpa [adjacency] using (List.getElem?_eq_some_iff.mp hj).1

/-- **The candidates on loops are those of the looped components.** -/
lemma mem_loopedIndices (h : Inv candidates setAside verdicts e round opened decided waiting)
    (hclose : e.toClose = []) (hopen : e.toOpen = []) {nodes : List ℕ} (hnodup : nodes.Nodup)
    (hnodes : ∀ index, index ∈ nodes ↔ index ∈ waiting) {index : ℕ} {event : Event}
    (hwait : index ∈ waiting) (hevent : candidates.list[index]? = some event) :
    index ∈ loopedIndices candidates.list e nodes ↔
      (candidates.log setAside).OnLoop membershipRules (cycs candidates setAside round) event := by
  have hgraph := edge_lt h hnodup hnodes
  obtain ⟨u, hu⟩ := List.getElem?_of_mem ((hnodes index).mpr hwait)
  have hlt : u < nodes.length := (List.getElem?_eq_some_iff.mp hu).1
  rw [← loop_iff h hclose hopen hnodup hnodes hu hevent]
  simp only [loopedIndices, List.mem_filterMap, List.mem_flatten, List.mem_filter]
  constructor
  · rintro ⟨v, ⟨component, ⟨hcomponent, hlooped⟩, hv⟩, hindex⟩
    obtain rfl : u = v := (List.getElem?_inj hlt hnodup).mp (hu.trans hindex.symm)
    exact (looped_iff hgraph hcomponent hv).mp hlooped
  · grind [adjacency, mem_components, looped_iff]

variable (order turn) in
/-- **A round of breaking loops** keeps what holds between turns, and decides the candidates on
loops, of which there is one. -/
lemma Inv.breakLoops (h : Inv candidates setAside verdicts e round opened decided waiting)
    (hclose : e.toClose = []) (hopen : e.toOpen = []) (hround : e.rounds < loopRounds)
    (hwaiting : waiting ≠ []) :
    let indices :=
      loopedIndices candidates.list e ((order.awaited turn e.awaited).map Prod.fst)
    Inv candidates setAside verdicts
        ({ e with rounds := e.rounds + 1 }.breakLoops candidates.list order turn) (round + 1) opened
        (decided ∪ indices.toFinset) (waiting.diff indices) ∧
      indices.Nodup ∧ (∀ index ∈ indices, index ∈ waiting) ∧ (∃ index, index ∈ indices) ∧
      ({ e with rounds := e.rounds + 1 }.breakLoops candidates.list order turn).settled =
        e.settled ∧
      ({ e with rounds := e.rounds + 1 }.breakLoops candidates.list order turn).toOpen =
        e.toOpen := by
  intro indices
  have hlt : round < loopRounds := by
    have := h.rounds
    omega
  set nodes := (order.awaited turn e.awaited).map Prod.fst with hnodes'
  have hnodup := h.queues.nodup_awaited order turn
  have hnodes := h.queues.mem_awaited h.exists_event order turn
  have hmem : ∀ index ∈ waiting, ∀ event, candidates.list[index]? = some event →
      (index ∈ indices ↔ (candidates.log setAside).OnLoop membershipRules
        (cycs candidates setAside round) event) := fun index hwait event hevent =>
    mem_loopedIndices h hclose hopen hnodup hnodes hwait hevent
  have hsub : ∀ index ∈ indices, index ∈ waiting := by
    intro index hin
    obtain ⟨node, -, hnode⟩ := List.mem_filterMap.mp hin
    exact (hnodes index).mp (List.mem_of_getElem? hnode)
  have hnodupIx : indices.Nodup := by
    have hflat := components_nodup (edge_lt h hnodup hnodes)
    refine List.Nodup.filterMap ?_ (hflat.sublist (List.filter_sublist.flatten))
    intro u v index hu hv
    exact (List.getElem?_inj (List.getElem?_eq_some_iff.mp hu).1 hnodup).mp
      ((Option.mem_def.mp hu).trans (Option.mem_def.mp hv).symm)
  have hcyc : ∀ index ∈ waiting, ∀ event, candidates.list[index]? = some event →
      (event ∈ cycs candidates setAside (round + 1) ↔ index ∈ indices) := by
    intro index hwait event hevent
    have hwaits := (h.waits_iff hclose hopen hevent).mpr hwait
    rw [hmem index hwait event hevent]
    refine ⟨fun hin => ?_, fun hloop => Or.inr ⟨hwaits, fun _ => hloop⟩⟩
    exact (hin.resolve_left hwaits.notMem).2 hlt
  have hqueues : Queues candidates (indices.foldl (breakIndex candidates.list)
      { e with rounds := e.rounds + 1 }) (waiting.diff indices) := by
    refine queues_breakIndex indices
      ⟨h.queues.awaited, h.queues.awaited_nodup, h.queues.waiting, h.queues.waiting_nodup⟩
      h.mid.core.waiting_nodup hnodupIx fun index hin => ?_
    exact ⟨hsub index hin, h.exists_event index (hsub index hin)⟩
  obtain ⟨hinv, hsettled, hopen'⟩ := h.setDown hclose hopen resolves_breakIndex
    { e with rounds := e.rounds + 1 } rfl
    (show e.rounds + 1 = _ by have := h.rounds; omega) hnodupIx hsub hcyc hqueues
  have heq : { e with rounds := e.rounds + 1 }.breakLoops candidates.list order turn =
      indices.foldl (breakIndex candidates.list) { e with rounds := e.rounds + 1 } :=
    breakLoops_eq _
  rw [heq]
  refine ⟨hinv, hnodupIx, hsub, ?_, hsettled, hopen'⟩
  -- some candidate waits, so some waits on a loop
  obtain ⟨index, hwait⟩ := List.exists_mem_of_ne_nil _ hwaiting
  obtain ⟨event, hevent⟩ := h.exists_event index hwait
  obtain ⟨f, hloop⟩ := Log.exists_onLoop ((h.waits_iff hclose hopen hevent).mpr hwait)
  obtain ⟨g, hlink, -⟩ := TransGen.head'_iff.mp hloop
  obtain ⟨j, hf⟩ := List.getElem?_of_mem hlink.1.1
  have hj := (h.waits_iff hclose hopen hf).mp hlink.1
  exact ⟨j, (hmem j hj f hf).mpr hloop⟩

end Evaluation

end MeePdn
