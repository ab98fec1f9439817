import MeePdn.DataLayer.Pod.MembershipView.Evaluate

/-!
# The turns of the evaluation

Each turn of the loop of `evaluate` — closing a sequence, opening one, breaking loops, giving up —
keeps the invariant between turns, against the log the candidates form.

## Main definitions

* `Evaluation.Inv` — what holds between turns.

## Main results

* `Evaluation.Inv.close`, `Evaluation.Inv.open`, `Evaluation.Inv.breakLoops`,
  `Evaluation.Inv.giveUp` — each kind of turn keeps it.
-/

namespace MeePdn

open Settling Classical

namespace Evaluation

variable {parsed : Parsed} (candidates : Candidates parsed) (setAside : Finset ℕ)

/-- The candidates set down as cyclic after so many rounds. -/
def cycs (round : ℕ) : Set Event :=
  (candidates.log setAside).cycs membershipRules loopRounds round

/-- What holds between turns, `round` rounds of breaking and giving up into the evaluation. -/
structure Inv (verdicts : List Verdict) (e : Evaluation) (round : ℕ) (opened : PdnId → ℕ)
    (decided : Finset ℕ) (waiting : List ℕ) : Prop where
  mid : Mid candidates setAside verdicts e (cycs candidates setAside round) opened decided waiting
  queues : Queues candidates e waiting
  toOpen : ToOpen parsed e opened
  rest : ∀ index ∈ waiting, ∀ event, candidates.list[index]? = some event →
    (candidates.log setAside).outcome membershipRules (cycs candidates setAside round) e.known
      event = none
  cyc_decided : ∀ event ∈ cycs candidates setAside round,
    ∃ index ∈ decided, candidates.list[index]? = some event
  rounds : e.rounds = min round loopRounds

variable {candidates setAside} {verdicts : List Verdict} {e : Evaluation} {cyc : Set Event}
  {decided : Finset ℕ} {waiting : List ℕ} {opened : PdnId → ℕ} {round : ℕ} {member : PdnId}
  {seq : ℕ}

/-! ## Closing a sequence -/

lemma Core.known_eq (h : Core candidates setAside verdicts e cyc decided waiting)
    (hle : seq ≤ e.settled member) : e.known member seq = some (e.state member seq) := by
  unfold known Pass.state
  split_ifs with hzero
  · rfl
  · have hsome := (h.states_isSome member seq).mpr ⟨by omega, hle⟩
    obtain ⟨a, ha⟩ := Option.isSome_iff_exists.mp hsome
    simp [ha]

lemma Core.le_settled (h : Core candidates setAside verdicts e cyc decided waiting)
    {a : MemberState} (hknown : e.known member seq = some a) : seq ≤ e.settled member := by
  unfold known at hknown
  split_ifs at hknown with hzero
  · omega
  · exact ((h.states_isSome member seq).mp (by simp [hknown])).2

/-- The state a sequence to close leaves. -/
def closing (e : Evaluation) (member : PdnId) (seq : ℕ) : MemberState :=
  ((e.winners (member, seq)).map fun winner => apply winner.kind).getD (e.state member (seq - 1))

lemma Mid.decided_of_toClose (h : Mid candidates setAside verdicts e cyc opened decided waiting)
    (hclose : (member, seq) ∈ e.toClose) {index : ℕ} {event : Event}
    (hevent : candidates.list[index]? = some event) (hpoint : event.point = (member, seq)) :
    index ∈ decided := by
  obtain ⟨hopened, -, hzero⟩ := (h.schedule.toClose_iff member seq).mp hclose
  obtain ⟨rfl, rfl⟩ := Prod.mk.inj hpoint
  refine ((h.opened.iff index event hevent).mpr hopened.le).resolve_right fun hwait => ?_
  exact (countAt_pos hevent hwait).ne' hzero

/-- **The state a sequence to close leaves is the one the log settles in.** -/
lemma Mid.closing_settles (h : Mid candidates setAside verdicts e cyc opened decided waiting)
    (hclose : (member, seq) ∈ e.toClose) :
    (candidates.log setAside).known membershipRules cyc member seq =
      some (e.closing member seq) := by
  obtain ⟨hopened, hseq, -⟩ := (h.schedule.toClose_iff member seq).mp hclose
  obtain ⟨s, rfl⟩ : ∃ s, seq = s + 1 := ⟨e.settled member, hseq⟩
  have hready : (candidates.log setAside).Ready membershipRules cyc e.known member (s + 1) := by
    rintro event ⟨hmem, hsubject, hseq'⟩
    obtain ⟨index, hevent⟩ := List.getElem?_of_mem hmem
    have hdecided := h.decided_of_toClose hclose hevent (Prod.ext hsubject hseq')
    obtain ⟨o, ho, -⟩ := h.core.outcome index hdecided event hevent
    simp [ho]
  have hkinds : (candidates.log setAside).countedKinds membershipRules cyc e.known member (s + 1) =
      Event.kind '' e.countedAt candidates decided (member, s + 1) := by
    ext kind
    constructor
    · rintro ⟨event, ⟨hmem, hsubject, hseq'⟩, rfl, o, ho, hcounts⟩
      obtain ⟨index, hevent⟩ := List.getElem?_of_mem hmem
      have hpoint : event.point = (member, s + 1) := Prod.ext hsubject hseq'
      have hdecided := h.decided_of_toClose hclose hevent hpoint
      obtain ⟨o', ho', hverdict⟩ := h.core.outcome index hdecided event hevent
      obtain rfl := Option.some.inj (ho.symm.trans ho')
      exact ⟨event, ⟨index, hdecided, hevent, hpoint, by rw [hverdict, counts_iff.mp hcounts]⟩, rfl⟩
    · rintro ⟨event, ⟨index, hdecided, hevent, hpoint, hcounted⟩, rfl⟩
      obtain ⟨o, ho, hverdict⟩ := h.core.outcome index hdecided event hevent
      obtain ⟨hsubject, hseq'⟩ := Prod.mk.inj hpoint
      refine ⟨event, ⟨List.mem_of_getElem? hevent, hsubject, hseq'⟩, rfl, o, ho, ?_⟩
      exact counts_iff.mpr (Option.some.inj (hverdict.symm.trans hcounted))
  have hbefore : e.known member s = some (e.state member s) := h.core.known_eq (by omega)
  refine Log.known_succ_iff.mpr ⟨?_, hready.mono h.core.sound, e.state member s,
    h.core.sound _ _ _ hbefore, ?_⟩
  · have := h.opened.le_run member
    show s < parsed.run member
    omega
  · rw [Log.countedKinds_mono h.core.sound hready, hkinds, ← (h.core.winner _).after]
    rfl

/-- An evaluation once a sequence is settled. -/
def settle (e : Evaluation) (member : PdnId) (seq : ℕ) (after : MemberState)
    (toClose : List Point) : Evaluation :=
  { e with
    toClose := toClose
    states := Function.update e.states (member, seq) (some after)
    settled := Function.update e.settled member seq }

lemma known_settle (e : Evaluation) (member : PdnId) (hseq : seq ≠ 0) (after : MemberState)
    (toClose : List Point) (x : PdnId) (s : ℕ) :
    (e.settle member seq after toClose).known x s =
      if x = member ∧ s = seq then some after else e.known x s := by
  unfold known settle
  by_cases hpoint : x = member ∧ s = seq
  · obtain ⟨rfl, rfl⟩ := hpoint
    simp [hseq]
  · have hne : (x, s) ≠ (member, seq) := fun heq => hpoint (Prod.mk.inj heq)
    simp [hpoint, hne]

/-- **Settling the sequence on top of `close`** keeps what holds inside a turn. -/
lemma Mid.settle (h : Mid candidates setAside verdicts e cyc opened decided waiting)
    {toClose : List Point} (hclose : e.toClose = (member, seq) :: toClose) :
    Mid candidates setAside verdicts (e.settle member seq (e.closing member seq) toClose) cyc
      opened decided waiting := by
  have hin : (member, seq) ∈ e.toClose := hclose ▸ List.mem_cons_self
  obtain ⟨hopened, hseq, hzero⟩ := (h.schedule.toClose_iff member seq).mp hin
  have hne0 : seq ≠ 0 := by omega
  set e' := e.settle member seq (e.closing member seq) toClose with he'
  have hknown := fun x s => known_settle e member hne0 (e.closing member seq)
    toClose x s
  have hle : e.known.Le e'.known := by
    intro x s a ha
    have hpoint : ¬ (x = member ∧ s = seq) := by
      rintro ⟨rfl, rfl⟩
      have := h.core.le_settled ha
      omega
    rw [hknown, if_neg hpoint]
    exact ha
  have hsettled : ∀ x, e'.settled x = if x = member then seq else e.settled x := fun x => by
    simp [he', Evaluation.settle, Function.update_apply]
  -- a waiting candidate lies at another point, so its chain is not the one that settles here
  have hother : ∀ index ∈ waiting, ∀ event, candidates.list[index]? = some event →
      event.subject ≠ member := by
    intro index hmem event hevent heq
    have hseq' := (h.seq_eq hevent hmem).1
    have hpoint : event.point = (member, seq) := Prod.ext heq (by
      rw [show event.point.2 = event.seq from rfl, hseq', heq, ← hopened])
    exact (countAt_pos hevent hmem).ne' (hpoint ▸ hzero)
  refine ⟨?_, ?_, ?_⟩
  · exact
      { h.core with
        states_isSome := fun x s => by
          rw [hsettled]
          have hstates : e'.states = Function.update e.states (member, seq)
            (some (e.closing member seq)) := rfl
          rcases eq_or_ne (x, s) (member, seq) with heq | hne
          · obtain ⟨rfl, rfl⟩ := Prod.mk.inj heq
            simp [hstates]
            omega
          · rw [hstates, Function.update_of_ne hne, h.core.states_isSome]
            split_ifs with hx
            · subst hx
              have : s ≠ seq := fun heq => hne (by rw [heq])
              omega
            · rfl
        settled_le := fun x => by
          rw [hsettled]
          split_ifs with hx
          · rw [hopened, hx]
            exact h.opened.le_run member
          · exact h.core.settled_le x
        sound := fun x s a ha => by
          rw [hknown] at ha
          split_ifs at ha with hpoint
          · obtain ⟨rfl, rfl⟩ := hpoint
            rw [← ha]
            exact h.closing_settles hin
          · exact h.core.sound x s a ha
        waits := fun index hmem => by
          obtain ⟨event, hevent, hseq', before, hbefore, hallows⟩ := h.core.waits index hmem
          refine ⟨event, hevent, ?_, before, hle _ _ _ hbefore, hallows⟩
          rw [hsettled, if_neg (hother index hmem event hevent)]
          exact hseq'
        outcome := fun index hmem event hevent => by
          obtain ⟨o, ho, hverdict⟩ := h.core.outcome index hmem event hevent
          exact ⟨o, Log.outcome_mono hle ho, hverdict⟩ }
  · have hnodup := h.schedule.toClose_nodup
    rw [hclose, List.nodup_cons] at hnodup
    refine ⟨h.schedule.pending, fun x s => ?_, hnodup.2⟩
    rw [hsettled]
    split_ifs with hx
    · subst hx
      constructor
      · intro hmem
        have hold : (x, s) ∈ e.toClose := hclose ▸ List.mem_cons_of_mem _ hmem
        obtain ⟨hs, -⟩ := (h.schedule.toClose_iff x s).mp hold
        rw [← hopened] at hs
        exact absurd (hs ▸ hmem) hnodup.1
      · rintro ⟨hs, hs', -⟩
        omega
    · rw [← h.schedule.toClose_iff, hclose, List.mem_cons]
      simp [he', Evaluation.settle, hx]
  · refine ⟨fun x => ?_, fun x => ?_, h.opened.le_run, h.opened.iff⟩
    · rw [hsettled]
      split_ifs with hx
      · rw [hopened, hx]
      · exact h.opened.settled_le x
    · rw [hsettled]
      split_ifs with hx
      · rw [hx, ← hopened]
        omega
      · exact h.opened.le_succ x

lemma resolves_closeEvent (after : MemberState) :
    Resolves candidates (fun event => Pass.judge setAside event after)
      (closeEvent candidates.list setAside after) := by
  intro e index event hevent
  refine ⟨e.awaited.filter fun a => a.1 ≠ index, e.waiting, ?_⟩
  simp only [closeEvent, hevent]

variable (candidates setAside) in
/-- The loop of `close_sequence` takes the queue off the awaited candidates. -/
lemma queues_closeEvent (after : MemberState) (queue : List ℕ) (e : Evaluation) :
    (queue.foldl (closeEvent candidates.list setAside after) e).awaited =
        e.awaited.filter (fun a => a.1 ∉ queue) ∧
      (queue.foldl (closeEvent candidates.list setAside after) e).waiting = e.waiting := by
  induction queue generalizing e with
  | nil => simp
  | cons index queue ih =>
    have hstep : (closeEvent candidates.list setAside after e index).awaited =
          e.awaited.filter (fun a => a.1 ≠ index) ∧
        (closeEvent candidates.list setAside after e index).waiting = e.waiting := by
      grind [closeEvent, resolve_queues]
    rw [List.foldl_cons, (ih _).1, (ih _).2, hstep.1, hstep.2, List.filter_filter]
    refine ⟨List.filter_congr fun a _ => ?_, rfl⟩
    simp [Bool.and_comm]

lemma Inv.waits (h : Inv candidates setAside verdicts e round opened decided waiting)
    {index : ℕ} {event : Event} (hevent : candidates.list[index]? = some event)
    (hmem : index ∈ waiting) :
    ∃ before, e.known event.subject (event.seq - 1) = some before ∧
      membershipRules.allows before event.kind ∧ event ∉ cycs candidates setAside round ∧
        membershipRules.reads event.kind ∧ e.known event.actor event.actorSeq = none := by
  obtain ⟨event', hevent', -, before, hbefore, -⟩ := h.mid.core.waits index hmem
  obtain rfl := Option.some.inj (hevent.symm.trans hevent')
  exact ⟨before, hbefore,
    Log.outcome_eq_none_iff.mp (h.rest index hmem event hevent) before hbefore⟩

/-- The queues once the candidates of a list are taken off. -/
lemma Queues.diff (h : Queues candidates e waiting) (hnodup : waiting.Nodup) {e' : Evaluation}
    {indices : List ℕ} (hawaited : e'.awaited = e.awaited.filter fun a => a.1 ∉ indices)
    (hwaiting : ∀ point, e'.waiting point = (e.waiting point).filter fun i => i ∉ indices) :
    Queues candidates e' (waiting.diff indices) where
  awaited := fun index point => by
    rw [hawaited, List.mem_filter, h.awaited, hnodup.mem_sdiff_iff]
    simp only [decide_not, Bool.not_eq_true', decide_eq_false_iff_not]
    tauto
  awaited_nodup := by
    rw [hawaited]
    exact h.awaited_nodup.sublist (List.filter_sublist.map _)
  waiting := fun point index => by
    rw [hwaiting, List.mem_filter, h.waiting, hnodup.mem_sdiff_iff]
    simp only [decide_not, Bool.not_eq_true', decide_eq_false_iff_not]
    tauto
  waiting_nodup := fun point => by
    rw [hwaiting]
    exact (h.waiting_nodup point).filter _

/-- **Closing a sequence** keeps what holds between turns. -/
lemma Inv.close (h : Inv candidates setAside verdicts e round opened decided waiting)
    {toClose : List Point} (hclose : e.toClose = (member, seq) :: toClose) :
    Inv candidates setAside verdicts
      ({ e with toClose := toClose }.closeSequence parsed candidates.list setAside member seq)
        round opened (decided ∪ (e.waiting (member, seq)).toFinset)
        (waiting.diff (e.waiting (member, seq))) ∧
      ({ e with toClose := toClose }.closeSequence parsed candidates.list setAside member
        seq).settled = Function.update e.settled member seq ∧
      ({ e with toClose := toClose }.closeSequence parsed candidates.list setAside member
        seq).toOpen.length ≤ e.toOpen.length + 1 := by
  have hin : (member, seq) ∈ e.toClose := hclose ▸ List.mem_cons_self
  obtain ⟨hopened, hseq, -⟩ := (h.mid.schedule.toClose_iff member seq).mp hin
  have hne0 : seq ≠ 0 := by omega
  set queue := e.waiting (member, seq) with hqueue
  set after := e.closing member seq with hafter
  let queues := Function.update e.waiting (member, seq) []
  set e₁ : Evaluation :=
    { e.settle member seq after toClose with waiting := queues } with he₁
  have hmid₁ : Mid candidates setAside verdicts e₁ (cycs candidates setAside round) opened decided
      waiting := (h.mid.settle hclose).queues e.awaited queues
  have hknown₁ : ∀ x s, e₁.known x s =
      if x = member ∧ s = seq then some after else e.known x s :=
    known_settle e member hne0 after toClose
  have hle : e.known.Le e₁.known := by
    intro x s a ha
    rw [hknown₁, if_neg ?_]
    · exact ha
    · rintro ⟨rfl, rfl⟩
      have := h.mid.core.le_settled ha
      omega
  have hpoint : ∀ index event, candidates.list[index]? = some event →
      (index ∈ queue ↔ index ∈ waiting ∧ event.actor = member ∧ event.actorSeq = seq) := by
    intro index event hevent
    rw [h.queues.waiting, hevent, Option.map_some, Option.some_inj, Event.actorPoint,
      Prod.mk.injEq]
  -- the queue is resolved by the state that settled
  obtain ⟨hmid₂, hstates, hsettled, hopen, hrounds⟩ :=
    hmid₁.foldl (resolves_closeEvent after) queue (h.queues.waiting_nodup _)
      (fun index hmem => ((h.queues.waiting _ _).mp hmem).1)
      (fun index hmem event hevent => by
        obtain ⟨hwait, hactor, hactorSeq⟩ := (hpoint index event hevent).mp hmem
        obtain ⟨before, hbefore, hallows, hcyc, hreads, -⟩ := h.waits hevent hwait
        refine ⟨.judged after, ?_, rfl⟩
        refine Log.outcome_eq_judged (hle _ _ _ hbefore) hallows hcyc hreads ?_
        show e₁.known event.actor event.actorSeq = some after
        rw [hknown₁, if_pos ⟨hactor, hactorSeq⟩])
  obtain ⟨hawaited, hwaiting⟩ := queues_closeEvent candidates setAside after queue e₁
  set e₂ := queue.foldl (closeEvent candidates.list setAside after) e₁ with he₂
  have hknown₂ : e₂.known = e₁.known := by
    funext x s
    simp [known, hstates]
  have hresult : { e with toClose := toClose }.closeSequence parsed candidates.list setAside member
      seq = if seq < parsed.run member then { e₂ with toOpen := (member, seq + 1) :: e₂.toOpen }
        else e₂ := rfl
  -- the fields but `open` do not depend on whether the chain goes on
  have hframe : ∃ stack, { e with toClose := toClose }.closeSequence parsed candidates.list setAside
      member seq = { e₂ with toOpen := stack } ∧
        stack = if seq < parsed.run member then (member, seq + 1) :: e.toOpen else e.toOpen := by
    rw [hresult]
    split_ifs
    · exact ⟨_, rfl, congrArg _ hopen⟩
    · exact ⟨e₂.toOpen, rfl, hopen⟩
  obtain ⟨stack, heq, hstack⟩ := hframe
  rw [heq]
  refine ⟨?_, hsettled, ?_⟩
  swap
  · show stack.length ≤ _
    rw [hstack]
    split_ifs <;> simp
  refine ⟨⟨?_, ?_, ?_⟩, ?_, ?_, fun index hmem event hevent => ?_, fun event hmem => ?_,
    hrounds.trans h.rounds⟩
  · exact hmid₂.core.congr rfl rfl rfl rfl rfl
  · exact hmid₂.schedule.congr rfl rfl rfl
  · exact ⟨hmid₂.opened.settled_le, hmid₂.opened.le_succ, hmid₂.opened.le_run, hmid₂.opened.iff⟩
  · refine h.queues.diff h.mid.core.waiting_nodup hawaited fun point => ?_
    show e₂.waiting point = _
    rw [hwaiting]
    rcases eq_or_ne point (member, seq) with rfl | hne
    · simp [he₁, queues, hqueue]
    · have hrest : ∀ i ∈ e.waiting point, i ∉ queue := by
        intro i hi hi'
        have h₁ := ((h.queues.waiting _ _).mp hi).2
        have h₂ := ((h.queues.waiting _ _).mp hi').2
        exact hne (Option.some.inj (h₁.symm.trans h₂))
      rw [List.filter_eq_self.mpr fun i hi => by simpa using hrest i hi]
      simp [he₁, queues, hne]
  · have hset : ∀ x, e₂.settled x = if x = member then seq else e.settled x := fun x => by
      rw [hsettled]
      simp [he₁, settle, Function.update_apply]
    refine ⟨fun x s => ?_, ?_⟩
    · show (x, s) ∈ stack ↔ opened x = e₂.settled x ∧ _
      rw [hset, hstack]
      rcases eq_or_ne x member with rfl | hx
      · have hno : (x, s) ∉ e.toOpen := fun hmem => by
          have := ((h.toOpen.iff x s).mp hmem).1
          omega
        rw [if_pos rfl]
        split_ifs with hlt
        · simp only [List.mem_cons, Prod.mk.injEq, true_and, hno, or_false, ← hopened]
          exact ⟨fun hs => ⟨hs, by omega⟩, fun hs => hs.1⟩
        · simp only [hno, ← hopened, true_and, false_iff, not_and]
          omega
      · rw [if_neg hx, ← h.toOpen.iff x s]
        split_ifs <;> simp [hx]
    · show stack.Nodup
      rw [hstack]
      split_ifs
      · refine List.nodup_cons.mpr ⟨fun hmem => ?_, h.toOpen.nodup⟩
        have := ((h.toOpen.iff _ _).mp hmem).1
        omega
      · exact h.toOpen.nodup
  · obtain ⟨hwait, hnot⟩ := (h.mid.core.waiting_nodup.mem_sdiff_iff).mp hmem
    obtain ⟨before, hbefore, hallows, hcyc, hreads, hnone⟩ := h.waits hevent hwait
    have hkn : ({ e₂ with toOpen := stack } : Evaluation).known = e₁.known := hknown₂
    rw [hkn]
    refine Log.outcome_eq_none_iff.mpr fun b hb => ?_
    obtain rfl := Option.some.inj ((hle _ _ _ hbefore).symm.trans hb)
    refine ⟨hallows, hcyc, hreads, ?_⟩
    show e₁.known event.actor event.actorSeq = none
    rw [hknown₁, if_neg fun hp => hnot ((hpoint index event hevent).mpr ⟨hwait, hp.1, hp.2⟩)]
    exact hnone

  · obtain ⟨index, hdecided, hevent⟩ := h.cyc_decided event hmem
    exact ⟨index, Finset.mem_union_left _ hdecided, hevent⟩

/-! ## Opening a sequence -/

/-- A candidate that has to wait joins the waiting ones. -/
lemma Core.await (h : Core candidates setAside verdicts e cyc decided waiting) {index : ℕ}
    {event : Event} {before : MemberState} (hevent : candidates.list[index]? = some event)
    (hdecided : index ∉ decided) (hwaiting : index ∉ waiting)
    (hseq : event.seq = e.settled event.subject + 1)
    (hbefore : e.known event.subject (event.seq - 1) = some before)
    (hallows : allows before event.kind = true) :
    Core candidates setAside verdicts e cyc decided (index :: waiting) :=
  { h with
    waiting_nodup := List.nodup_cons.mpr ⟨hwaiting, h.waiting_nodup⟩
    disjoint := fun i hi => by
      rcases List.mem_cons.mp hi with rfl | hi
      · exact hdecided
      · exact h.disjoint i hi
    waits := fun i hi => by
      rcases List.mem_cons.mp hi with rfl | hi
      · exact ⟨event, hevent, hseq, before, hbefore, hallows⟩
      · exact h.waits i hi }

/-- A candidate that has to wait is queued for its actor's point. -/
lemma Queues.await (h : Queues candidates e waiting) {index : ℕ} {event : Event}
    (hevent : candidates.list[index]? = some event) (hnew : index ∉ waiting) :
    Queues candidates
      { e with
        waiting := Function.update e.waiting event.actorPoint
          (e.waiting event.actorPoint ++ [index])
        awaited := (index, event.actorPoint) :: e.awaited.filter fun a => a.1 ≠ index }
      (index :: waiting) := by
  have hfilter : (e.awaited.filter fun a => a.1 ≠ index) = e.awaited := by
    refine List.filter_eq_self.mpr fun a ha => ?_
    have hin := ((h.awaited a.1 a.2).mp ha).1
    simpa using fun heq : a.1 = index => hnew (heq ▸ hin)
  rw [hfilter]
  refine ⟨fun i point => ?_, ?_, fun point i => ?_, fun point => ?_⟩
  · grind [h.awaited]
  · grind [h.awaited_nodup, h.awaited]
  · grind [h.waiting]
  · grind [h.waiting_nodup, h.waiting]

lemma actorState_eq (e : Evaluation) (event : Event) :
    (candidates.log setAside).actorState membershipRules e.known event = e.actorState event := by
  unfold Log.actorState Pass.actorState
  show (if membershipRules.reads event.kind then e.known event.actor event.actorSeq
    else some default) = _
  cases hkind : event.kind <;> simp [reads_iff, known, Event.actorPoint]

/-- What opening some candidates of one point makes of an evaluation: each is decided or waits, and
`left` of them wait. -/
structure OpenedBy (candidates : Candidates parsed) (setAside : Finset ℕ) (verdicts : List Verdict)
    (e e' : Evaluation) (cyc : Set Event) (point : Point) (indices : List ℕ)
    (decided decided' : Finset ℕ) (waiting waiting' : List ℕ) (left : ℕ) : Prop where
  core : Core candidates setAside verdicts e' cyc decided' waiting'
  queues : Queues candidates e' waiting'
  mem : ∀ index, index ∈ decided' ∨ index ∈ waiting' ↔
    index ∈ decided ∨ index ∈ waiting ∨ index ∈ indices
  subset : decided ⊆ decided'
  count : ∀ p, countAt candidates waiting' p =
    countAt candidates waiting p + if p = point then left else 0
  rest : ∀ index ∈ waiting', index ∈ waiting ∨ ∀ event, candidates.list[index]? = some event →
    (candidates.log setAside).outcome membershipRules cyc e'.known event = none
  frame : e' =
    { e with
      verdicts := e'.verdicts, winners := e'.winners, awaited := e'.awaited, waiting := e'.waiting }

/-- **Opening one candidate**: it is decided by its outcome or, having none, waits. -/
lemma OpenedBy.single (h : Core candidates setAside verdicts e cyc decided waiting)
    (hqueues : Queues candidates e waiting) {index : ℕ} {event : Event} {before : MemberState}
    (hevent : candidates.list[index]? = some event) (hdecided : index ∉ decided)
    (hwaiting : index ∉ waiting) (hcyc : event ∉ cyc)
    (hseq : event.seq = e.settled event.subject + 1)
    (hbefore : e.known event.subject (event.seq - 1) = some before) (n : ℕ) :
    ∃ e' decided' waiting' left,
      openEvent candidates.list setAside before (e, n) index = (e', n + left) ∧
        OpenedBy candidates setAside verdicts e e' cyc event.point [index] decided decided' waiting
          waiting' left := by
  have herase : waiting.erase index = waiting := List.erase_of_not_mem hwaiting
  -- a candidate with an outcome is decided by it
  have hdecide : ∀ o, (candidates.log setAside).outcome membershipRules cyc e.known event = some o →
      OpenedBy candidates setAside verdicts e (e.decideEvent event (verdictOf setAside event o)) cyc
        event.point [index] decided (insert index decided) waiting waiting 0 := by
    intro o ho
    have hcore := h.decideEvent hevent hdecided ho
    rw [herase] at hcore
    refine ⟨hcore, ?_, fun i => ?_, Finset.subset_insert _ _, fun p => by simp,
      fun i hi => Or.inl hi, by rw [decideEvent_eq]⟩
    · rw [decideEvent_eq]
      exact ⟨hqueues.awaited, hqueues.awaited_nodup, hqueues.waiting, hqueues.waiting_nodup⟩
    · simp only [Finset.mem_insert, List.mem_singleton]
      tauto
  have hout : ∀ o, (candidates.log setAside).outcome membershipRules cyc e.known event = o ↔
      (if allows before event.kind = true then (e.actorState event).map Outcome.judged
        else some .barred) = o := by
    intro o
    have hb : e.known ((candidates.log setAside).subject event)
        ((candidates.log setAside).seq event - 1) = some before := hbefore
    unfold Log.outcome
    rw [hb, actorState_eq]
    dsimp only
    rw [if_neg hcyc]
    simp only [show membershipRules.allows before ((candidates.log setAside).kind event) =
      (allows before event.kind = true) from rfl]
  unfold openEvent
  simp only [hevent]
  by_cases hallows : allows before event.kind = true
  · simp only [hallows, not_true_eq_false, if_false]
    rcases hactor : e.actorState event with _ | actor
    · refine ⟨_, decided, index :: waiting, 1, rfl, ?_⟩
      have hcore := h.await hevent hdecided hwaiting hseq hbefore hallows
      refine ⟨hcore.congr rfl rfl rfl rfl rfl, hqueues.await hevent hwaiting, fun i => ?_,
        subset_rfl, fun p => ?_, fun i hi => ?_, rfl⟩
      · simp only [List.mem_cons, List.not_mem_nil, or_false]
        tauto
      · simp [countAt, List.countP_cons, hevent, eq_comm]
      · rcases List.mem_cons.mp hi with rfl | hi
        · refine Or.inr fun f hf => ?_
          obtain rfl := Option.some.inj (hevent.symm.trans hf)
          exact (hout none).mpr (by simp [hallows, hactor])
        · exact Or.inl hi
    · exact ⟨_, insert index decided, waiting, 0, rfl,
        hdecide (.judged actor) ((hout _).mpr (by simp [hallows, hactor]))⟩
  · rw [if_pos hallows]
    exact ⟨_, insert index decided, waiting, 0, rfl,
      hdecide .barred ((hout _).mpr (by simp [hallows]))⟩

/-- Opening some candidates and then more. -/
lemma OpenedBy.trans {e₁ e₂ : Evaluation} {point : Point} {indices indices' : List ℕ}
    {decided₁ decided₂ : Finset ℕ} {waiting₁ waiting₂ : List ℕ} {left left' : ℕ}
    (h : OpenedBy candidates setAside verdicts e e₁ cyc point indices decided decided₁ waiting
      waiting₁ left)
    (h' : OpenedBy candidates setAside verdicts e₁ e₂ cyc point indices' decided₁ decided₂ waiting₁
      waiting₂ left') :
    OpenedBy candidates setAside verdicts e e₂ cyc point (indices ++ indices') decided decided₂
      waiting waiting₂ (left + left') where
  core := h'.core
  queues := h'.queues
  mem := fun index => by
    rw [h'.mem, ← or_assoc, h.mem, List.mem_append]
    tauto
  subset := h.subset.trans h'.subset
  count := fun p => by
    rw [h'.count, h.count]
    split_ifs <;> omega
  rest := fun index hindex => by
    rcases h'.rest index hindex with hold | hnew
    · refine (h.rest index hold).imp_right fun hnone event hevent => ?_
      have hknown : e₂.known = e₁.known := by rw [h'.frame]; rfl
      rw [hknown]
      exact hnone event hevent
    · exact Or.inr hnew
  frame := by
    rw [h'.frame, h.frame]

/-- **Opening the candidates of a point**, one after the other. -/
lemma openedBy_foldl (before : MemberState) (indices : List ℕ) :
    ∀ {e : Evaluation} {decided : Finset ℕ} {waiting : List ℕ} (n : ℕ),
      Core candidates setAside verdicts e cyc decided waiting → Queues candidates e waiting →
      indices.Nodup →
      (∀ index ∈ indices, index ∉ decided ∧ index ∉ waiting ∧
        ∃ event, candidates.list[index]? = some event ∧ event.point = (member, seq) ∧
          event ∉ cyc) →
      seq = e.settled member + 1 → e.known member (seq - 1) = some before →
      ∃ e' decided' waiting' left,
        indices.foldl (openEvent candidates.list setAside before) (e, n) = (e', n + left) ∧
          OpenedBy candidates setAside verdicts e e' cyc (member, seq) indices decided decided'
            waiting waiting' left := by
  induction indices with
  | nil =>
    intro e decided waiting n h hqueues _ _ _ _
    exact ⟨e, decided, waiting, 0, rfl, h, hqueues, by simp, subset_rfl, by simp,
      fun i hi => Or.inl hi, rfl⟩
  | cons index indices ih =>
    intro e decided waiting n h hqueues hnodup hall hseq hbefore
    obtain ⟨hnot, hnodup⟩ := List.nodup_cons.mp hnodup
    obtain ⟨hdecided, hwaiting, event, hevent, hpoint, hcyc⟩ := hall index List.mem_cons_self
    obtain ⟨hsubject, hseq'⟩ := Prod.mk.inj hpoint
    obtain ⟨e₁, decided₁, waiting₁, left, heq, hfirst⟩ :=
      OpenedBy.single h hqueues hevent hdecided hwaiting hcyc
        (by rw [hsubject, hseq']; exact hseq) (by rw [hsubject, hseq']; exact hbefore) n
    rw [hpoint] at hfirst
    have hsame : e₁.settled = e.settled ∧ e₁.known = e.known := by
      rw [hfirst.frame]
      exact ⟨rfl, rfl⟩
    obtain ⟨e₂, decided₂, waiting₂, left', heq', hrest⟩ :=
      ih (n + left) hfirst.core hfirst.queues hnodup
        (fun i hi => by
          obtain ⟨hd, hw, hev⟩ := hall i (List.mem_cons_of_mem _ hi)
          have hold : ¬ (i ∈ decided₁ ∨ i ∈ waiting₁) := by grind [hfirst.mem]
          exact ⟨fun hin => hold (Or.inl hin), fun hin => hold (Or.inr hin), hev⟩)
        (by rw [hsame.1]; exact hseq) (by rw [hsame.2]; exact hbefore)
    refine ⟨e₂, decided₂, waiting₂, left + left', ?_, hfirst.trans hrest⟩
    rw [List.foldl_cons, heq, heq', add_assoc]

/-- **Opening a sequence** keeps what holds between turns. -/
lemma Inv.open (h : Inv candidates setAside verdicts e round opened decided waiting)
    {toOpen : List Point} (hopen : e.toOpen = (member, seq) :: toOpen) :
    ∃ decided' waiting',
      Inv candidates setAside verdicts
        ({ e with toOpen := toOpen }.openSequence candidates.list setAside member seq) round
        (Function.update opened member seq) decided' waiting' ∧ decided ⊆ decided' ∧
      ({ e with toOpen := toOpen }.openSequence candidates.list setAside member seq).toOpen =
        toOpen ∧
      ({ e with toOpen := toOpen }.openSequence candidates.list setAside member seq).settled =
        e.settled := by
  have hin : (member, seq) ∈ e.toOpen := hopen ▸ List.mem_cons_self
  obtain ⟨hsettled, hseq, hrun⟩ := (h.toOpen.iff member seq).mp hin
  set e₀ : Evaluation := { e with toOpen := toOpen } with he₀
  have hcore₀ : Core candidates setAside verdicts e₀ (cycs candidates setAside round) decided
      waiting := h.mid.core.congr rfl rfl rfl rfl rfl
  have hqueues₀ : Queues candidates e₀ waiting :=
    ⟨h.queues.awaited, h.queues.awaited_nodup, h.queues.waiting, h.queues.waiting_nodup⟩
  have hhere : ∀ index, index ∈ e₀.here (member, seq) ↔
      ∃ event, candidates.list[index]? = some event ∧ event.point = (member, seq) := by
    grind [hcore₀.here, hcore₀.here]
  have hnodup : (e₀.here (member, seq)).Nodup := by
    rw [hcore₀.here]
    exact List.nodup_range.filter _
  have hfresh : ∀ index ∈ e₀.here (member, seq), index ∉ decided ∧ index ∉ waiting ∧
      ∃ event, candidates.list[index]? = some event ∧ event.point = (member, seq) ∧
        event ∉ cycs candidates setAside round := by
    intro index hmem
    obtain ⟨event, hevent, hpoint⟩ := (hhere index).mp hmem
    obtain ⟨hsubject, hseq'⟩ := Prod.mk.inj hpoint
    have hnot : ¬ (index ∈ decided ∨ index ∈ waiting) := by
      rw [h.mid.opened.iff index event hevent, hsubject, hseq']
      omega
    refine ⟨fun hd => hnot (Or.inl hd), fun hw => hnot (Or.inr hw), event, hevent, hpoint, ?_⟩
    intro hcyc
    obtain ⟨index', hdecided, hevent'⟩ := h.cyc_decided event hcyc
    rw [candidates.index_eq hevent' hevent rfl] at hdecided
    exact hnot (Or.inl hdecided)
  have hbefore : e₀.known member (seq - 1) = some (e₀.state member (seq - 1)) :=
    hcore₀.known_eq (show seq - 1 ≤ e.settled member by omega)
  obtain ⟨e₁, decided₁, waiting₁, left, heq, hopened⟩ :=
    openedBy_foldl (e₀.state member (seq - 1)) (e₀.here (member, seq)) 0 hcore₀ hqueues₀ hnodup
      hfresh (show seq = e.settled member + 1 by omega) hbefore
  -- the counted candidates decide whether the sequence closes at once or pends
  set opened' := Function.update opened member seq with hopened'
  have hself : opened' member = seq := Function.update_self ..
  have hothers : ∀ x, x ≠ member → opened' x = opened x := fun x hx => Function.update_of_ne hx ..
  have hframe : e₁.states = e.states ∧ e₁.settled = e.settled ∧ e₁.pending = e.pending ∧
      e₁.toOpen = toOpen ∧ e₁.toClose = e.toClose ∧ e₁.rounds = e.rounds := by
    rw [hopened.frame]
    exact ⟨rfl, rfl, rfl, rfl, rfl, rfl⟩
  obtain ⟨hstates₁, hsettled₁, hpending₁, hopen₁, hclose₁, hrounds₁⟩ := hframe
  have hknown₁ : e₁.known = e.known := by
    funext x s
    simp [known, hstates₁]
  have hzero : countAt candidates waiting (member, seq) = 0 := by
    refine List.countP_eq_zero.mpr fun index hmem => ?_
    obtain ⟨event, hevent, -⟩ := h.mid.core.waits index hmem
    have hseq' := (h.mid.seq_eq hevent hmem).1
    intro hpoint
    have hpoint' : event.point = (member, seq) := by simpa [hevent] using hpoint
    obtain ⟨hsubject, hs⟩ := Prod.mk.inj hpoint'
    rw [hsubject] at hseq'
    omega
  have hcount : ∀ p, countAt candidates waiting₁ p =
      if p = (member, seq) then left else countAt candidates waiting p := by
    intro p
    rw [hopened.count]
    split_ifs with hp
    · rw [hp, hzero, zero_add]
    · rfl
  have hresult : ∃ pending close, e₀.openSequence candidates.list setAside member seq =
      { e₁ with pending := pending, toClose := close } ∧
        (pending = if left = 0 then e.pending
          else Function.update e.pending (member, seq) (some left)) ∧
        close = if left = 0 then (member, seq) :: e.toClose else e.toClose := by
    unfold openSequence
    dsimp only
    rw [heq, zero_add]
    split_ifs
    · exact ⟨e₁.pending, _, rfl, hpending₁, by rw [hclose₁]⟩
    · exact ⟨_, e₁.toClose, rfl, by rw [hpending₁], hclose₁⟩
  obtain ⟨pending, close, hres, hpending, hclose'⟩ := hresult
  have hschedule : Schedule candidates { e₁ with pending := pending, toClose := close } opened'
      waiting₁ :=
    { pending := by
        intro p
        show pending p = _
        rw [hcount, hpending]
        rcases eq_or_ne p (member, seq) with rfl | hp
        · have hnone : e.pending (member, seq) = none := by
            rw [h.mid.schedule.pending, if_pos hzero]
          by_cases hleft : left = 0 <;> simp [hleft, hnone]
        · rw [if_neg hp, ← h.mid.schedule.pending]
          by_cases hleft : left = 0 <;> simp [hleft, hp]
      toClose_iff := by
        intro x s
        show (x, s) ∈ close ↔ s = opened' x ∧ s = e₁.settled x + 1 ∧ _
        rw [hcount, hsettled₁, hclose']
        rcases eq_or_ne x member with rfl | hx
        · have hno : (x, s) ∉ e.toClose := fun hmem => by
            obtain ⟨h₁, h₂, -⟩ := (h.mid.schedule.toClose_iff x s).mp hmem
            omega
          rw [hself]
          by_cases hleft : left = 0
          · grind
          · grind
        · have hp : (x, s) ≠ (member, seq) := fun hp => hx (Prod.mk.inj hp).1
          rw [hothers x hx, if_neg hp, ← h.mid.schedule.toClose_iff]
          by_cases hleft : left = 0 <;> simp [hleft, hx]
      toClose_nodup := by
        show close.Nodup
        rw [hclose']
        split_ifs
        · refine List.nodup_cons.mpr ⟨fun hmem => ?_, h.mid.schedule.toClose_nodup⟩
          obtain ⟨h₁, h₂, -⟩ := (h.mid.schedule.toClose_iff _ _).mp hmem
          omega
        · exact h.mid.schedule.toClose_nodup }
  have hbounds : ∀ x, e₁.settled x ≤ opened' x ∧ opened' x ≤ e₁.settled x + 1 ∧
      opened' x ≤ parsed.run x := by
    intro x
    rw [hsettled₁]
    rcases eq_or_ne x member with rfl | hx
    · rw [hself]
      omega
    · rw [hothers x hx]
      exact ⟨h.mid.opened.settled_le x, h.mid.opened.le_succ x, h.mid.opened.le_run x⟩
  have hall : Opened candidates e₁ opened' decided₁ waiting₁ :=
    { settled_le := fun x => (hbounds x).1
      le_succ := fun x => (hbounds x).2.1
      le_run := fun x => (hbounds x).2.2
      iff := by
        intro index event hevent
        rw [hopened.mem, ← or_assoc, h.mid.opened.iff index event hevent, hhere]
        have hpoint : (∃ event', candidates.list[index]? = some event' ∧
            event'.point = (member, seq)) ↔ event.subject = member ∧ event.seq = seq := by
          simp [hevent, Event.point]
        rw [hpoint]
        rcases eq_or_ne event.subject member with hx | hx
        · rw [hx, hself]
          simp only [true_and]
          omega
        · rw [hothers _ hx]
          simp [hx] }
  have hnodup' := h.toOpen.nodup
  rw [hopen, List.nodup_cons] at hnodup'
  have htoOpen : ToOpen parsed e₁ opened' :=
    { iff := by
        intro x s
        have hold := h.toOpen.iff x s
        rw [hopen, List.mem_cons] at hold
        rw [hopen₁, hsettled₁]
        rcases eq_or_ne x member with rfl | hx
        · grind
        · rw [hothers x hx, ← hold]
          simp [hx]
      nodup := hopen₁ ▸ hnodup'.2 }
  rw [hres]
  refine ⟨decided₁, waiting₁, ?_, hopened.subset, hopen₁, hsettled₁⟩
  exact
    { mid :=
        { core := hopened.core.congr rfl rfl rfl rfl rfl
          schedule := hschedule
          opened := ⟨hall.settled_le, hall.le_succ, hall.le_run, hall.iff⟩ }
      queues := ⟨hopened.queues.awaited, hopened.queues.awaited_nodup, hopened.queues.waiting,
        hopened.queues.waiting_nodup⟩
      toOpen := ⟨htoOpen.iff, htoOpen.nodup⟩
      rest := by
        intro index hmem event hevent
        rcases hopened.rest index hmem with hold | hnew
        · have hnone := h.rest index hold event hevent
          rw [← hknown₁] at hnone
          exact hnone
        · exact hnew event hevent
      cyc_decided := by
        intro event hcyc
        obtain ⟨index, hdecided, hevent⟩ := h.cyc_decided event hcyc
        exact ⟨index, hopened.subset hdecided, hevent⟩
      rounds := hrounds₁.trans h.rounds }

end Evaluation

end MeePdn
