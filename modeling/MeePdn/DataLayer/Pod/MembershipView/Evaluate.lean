import MeePdn.DataLayer.Pod.MembershipView.Semantics

/-!
# Following the evaluation

What holds between two steps of `Evaluation`, against the log the candidates form. The states known
so far are states the log settles in; each candidate is decided, waits, or lies at a sequence not
yet opened; a decided one has the verdict of its outcome, and the winners recorded so far stand for
those that count.

The invariant comes in parts, since the steps inside a turn break some of them: `Core` says what is
decided and holds between any two steps, `Schedule` ties `pending` and `close` to the waiting
candidates, `Queues` ties `awaited` and `waiting` to them, and `Opened` says which candidates are
opened. Between turns all of them hold, which is `Inv`.

## Main definitions

* `Evaluation.Core`, `Evaluation.Schedule`, `Evaluation.Queues`, `Evaluation.Opened`,
  `Evaluation.Inv` — the parts and the whole of the invariant.

## Main results

* `Evaluation.Core.decideEvent` — deciding an event by its outcome.
* `Evaluation.Schedule.oneLessPending` — taking a waiting candidate off its sequence.
* `Evaluation.Mid.foldl` — resolving a list of waiting candidates.
-/

namespace MeePdn

open Settling Classical

namespace Evaluation

variable {parsed : Parsed} (candidates : Candidates parsed) (setAside : Finset ℕ)

/-- The states known so far. -/
def known (e : Evaluation) : Known PdnId MemberState := fun member seq =>
  if seq = 0 then some default else e.states (member, seq)

/-- The candidates of a list that lie at a point. -/
def countAt (waiting : List ℕ) (point : Point) : ℕ :=
  waiting.countP fun index => candidates.list[index]?.map Event.point = some point

/-- The candidates among some indices that count at a point, by the verdicts so far. -/
def countedAt (e : Evaluation) (decided : Finset ℕ) (point : Point) : Set Event :=
  {event | ∃ index ∈ decided, candidates.list[index]? = some event ∧ event.point = point ∧
    e.verdicts[event.entry]? = some .counted}

/-- What is decided so far: `cyc` are the candidates set down as cyclic, `decided` and `waiting`
the indices of the decided and of the waiting ones. -/
structure Core (verdicts : List Verdict) (e : Evaluation) (cyc : Set Event) (decided : Finset ℕ)
    (waiting : List ℕ) : Prop where
  states_isSome : ∀ member seq,
    (e.states (member, seq)).isSome ↔ 1 ≤ seq ∧ seq ≤ e.settled member
  settled_le : ∀ member, e.settled member ≤ parsed.run member
  sound : e.known.Le ((candidates.log setAside).known membershipRules cyc)
  waiting_nodup : waiting.Nodup
  disjoint : ∀ index ∈ waiting, index ∉ decided
  decided_lt : ∀ index ∈ decided, index < candidates.list.length
  waits : ∀ index ∈ waiting, ∃ event, candidates.list[index]? = some event ∧
    event.seq = e.settled event.subject + 1 ∧
    ∃ before, e.known event.subject (event.seq - 1) = some before ∧
      allows before event.kind = true
  outcome : ∀ index ∈ decided, ∀ event, candidates.list[index]? = some event →
    ∃ o, (candidates.log setAside).outcome membershipRules cyc e.known event = some o ∧
      e.verdicts[event.entry]? = some (verdictOf setAside event o)
  others : ∀ entry, (∀ index ∈ decided, ∀ event, candidates.list[index]? = some event →
    event.entry ≠ entry) → e.verdicts[entry]? = verdicts[entry]?
  length : e.verdicts.length = verdicts.length
  entry_lt : ∀ event ∈ candidates.list, event.entry < verdicts.length
  winner : ∀ point, WinnerOf (e.countedAt candidates decided point) (e.winners point)
  here : ∀ point, e.here point = (List.range candidates.list.length).filter fun index =>
    candidates.list[index]?.map Event.point = some point

/-- The two ways a sequence that is open waits: `pending` counts its waiting candidates, and `close`
lists it once there are none. -/
structure Schedule (e : Evaluation) (opened : PdnId → ℕ) (waiting : List ℕ) : Prop where
  pending : ∀ point, e.pending point =
    if countAt candidates waiting point = 0 then none
    else some (countAt candidates waiting point)
  toClose_iff : ∀ member seq, (member, seq) ∈ e.toClose ↔
    seq = opened member ∧ seq = e.settled member + 1 ∧
      countAt candidates waiting (member, seq) = 0
  toClose_nodup : e.toClose.Nodup

/-- The queues hold the waiting candidates, by the points they wait for. -/
structure Queues (e : Evaluation) (waiting : List ℕ) : Prop where
  awaited : ∀ index point, (index, point) ∈ e.awaited ↔
    index ∈ waiting ∧ candidates.list[index]?.map Event.actorPoint = some point
  awaited_nodup : (e.awaited.map Prod.fst).Nodup
  waiting : ∀ point index, index ∈ e.waiting point ↔
    index ∈ waiting ∧ candidates.list[index]?.map Event.actorPoint = some point
  waiting_nodup : ∀ point, (e.waiting point).Nodup

/-- The candidates decided or waiting are those at sequences opened. -/
structure Opened (e : Evaluation) (opened : PdnId → ℕ) (decided : Finset ℕ) (waiting : List ℕ) :
    Prop where
  settled_le : ∀ member, e.settled member ≤ opened member
  le_succ : ∀ member, opened member ≤ e.settled member + 1
  le_run : ∀ member, opened member ≤ parsed.run member
  iff : ∀ index event, candidates.list[index]? = some event →
    (index ∈ decided ∨ index ∈ waiting ↔ event.seq ≤ opened event.subject)

/-- What holds between the steps of a turn that resolve waiting candidates. -/
structure Mid (verdicts : List Verdict) (e : Evaluation) (cyc : Set Event) (opened : PdnId → ℕ)
    (decided : Finset ℕ) (waiting : List ℕ) : Prop where
  core : Core candidates setAside verdicts e cyc decided waiting
  schedule : Schedule candidates e opened waiting
  opened : Opened candidates e opened decided waiting

/-- `open` lists the first sequence of each chain that is not opened yet, once the one before it is
settled. -/
structure ToOpen (parsed : Parsed) (e : Evaluation) (opened : PdnId → ℕ) : Prop where
  iff : ∀ member seq, (member, seq) ∈ e.toOpen ↔
    opened member = e.settled member ∧ seq = opened member + 1 ∧ seq ≤ parsed.run member
  nodup : e.toOpen.Nodup

variable {candidates setAside} {verdicts : List Verdict} {e : Evaluation} {cyc : Set Event}
  {decided : Finset ℕ} {waiting : List ℕ} {opened : PdnId → ℕ} {index : ℕ} {event : Event}

/-! ## Deciding an event -/

lemma decideEvent_eq (e : Evaluation) (event : Event) (verdict : Verdict) :
    e.decideEvent event verdict =
      { e with
        verdicts := e.verdicts.set event.entry verdict
        winners :=
          if verdict = .counted then Function.update e.winners event.point
            (some (Pass.Winner.record event (e.winners event.point)))
          else e.winners } := by
  unfold decideEvent recordWinner
  split <;> rfl

/-- What is decided does not depend on the queues and the stacks. -/
lemma Core.congr (h : Core candidates setAside verdicts e cyc decided waiting) {e' : Evaluation}
    (hstates : e'.states = e.states) (hsettled : e'.settled = e.settled)
    (hverdicts : e'.verdicts = e.verdicts) (hwinners : e'.winners = e.winners)
    (hhere : e'.here = e.here) : Core candidates setAside verdicts e' cyc decided waiting := by
  have hknown : e'.known = e.known := by
    funext member seq
    simp [known, hstates]
  constructor
  · simpa only [hstates, hsettled] using h.states_isSome
  · simpa only [hsettled] using h.settled_le
  · simpa only [hknown] using h.sound
  · exact h.waiting_nodup
  · exact h.disjoint
  · exact h.decided_lt
  · simpa only [hknown, hsettled] using h.waits
  · simpa only [hknown, hverdicts] using h.outcome
  · simpa only [hverdicts] using h.others
  · simpa only [hverdicts] using h.length
  · exact h.entry_lt
  · intro point
    simpa only [countedAt, hverdicts, hwinners] using h.winner point
  · simpa only [hhere] using h.here

/-- **Deciding an event by its outcome** keeps what is decided. -/
lemma Core.decideEvent (h : Core candidates setAside verdicts e cyc decided waiting)
    {o : Outcome MemberState} (hevent : candidates.list[index]? = some event)
    (hnew : index ∉ decided)
    (ho : (candidates.log setAside).outcome membershipRules cyc e.known event = some o) :
    Core candidates setAside verdicts (e.decideEvent event (verdictOf setAside event o)) cyc
      (insert index decided) (waiting.erase index) := by
  rw [decideEvent_eq]
  set verdict := verdictOf setAside event o with hverdict
  have hlt : event.entry < e.verdicts.length := by
    rw [h.length]
    exact h.entry_lt event (List.mem_of_getElem? hevent)
  have hself : (e.verdicts.set event.entry verdict)[event.entry]? = some verdict := by
    simp [hlt]
  have hother : ∀ i ∈ decided, ∀ f, candidates.list[i]? = some f →
      (e.verdicts.set event.entry verdict)[f.entry]? = e.verdicts[f.entry]? := by
    grind [candidates.index_eq]
  have herase : ∀ i ∈ waiting.erase index, i ∈ waiting ∧ i ≠ index := fun i hi => by
    rw [h.waiting_nodup.mem_erase_iff] at hi
    exact ⟨hi.2, hi.1⟩
  exact
    { states_isSome := h.states_isSome
      settled_le := h.settled_le
      sound := h.sound
      waiting_nodup := h.waiting_nodup.erase index
      disjoint := fun i hi => by
        obtain ⟨hi, hne⟩ := herase i hi
        simp [hne, h.disjoint i hi]
      decided_lt := fun i hi => by
        rcases Finset.mem_insert.mp hi with rfl | hi
        · exact (List.getElem?_eq_some_iff.mp hevent).1
        · exact h.decided_lt i hi
      waits := fun i hi => h.waits i (herase i hi).1
      outcome := fun i hi f hf => by
        rcases Finset.mem_insert.mp hi with rfl | hi
        · obtain rfl := Option.some.inj (hevent.symm.trans hf)
          exact ⟨o, ho, hself⟩
        · obtain ⟨o', ho', hv⟩ := h.outcome i hi f hf
          exact ⟨o', ho', (hother i hi f hf).trans hv⟩
      others := fun entry hentry => by
        have hne : event.entry ≠ entry := hentry index (Finset.mem_insert_self _ _) event hevent
        show (e.verdicts.set event.entry verdict)[entry]? = _
        rw [List.getElem?_set_ne hne]
        exact h.others entry fun i hi => hentry i (Finset.mem_insert_of_mem hi)
      length := by simpa using h.length
      entry_lt := h.entry_lt
      winner := fun point => by
        -- the events that counted before still do, and this one if its verdict says so
        have hcounted : ∀ f, f ∈ countedAt candidates
            { e with
              verdicts := e.verdicts.set event.entry verdict
              winners :=
                if verdict = .counted then Function.update e.winners event.point
                  (some (Pass.Winner.record event (e.winners event.point)))
                else e.winners } (insert index decided) point ↔
            f ∈ e.countedAt candidates decided point ∨
              f = event ∧ event.point = point ∧ verdict = .counted := by
          intro f
          constructor
          · rintro ⟨i, hi, hf, hpoint, hv⟩
            rcases Finset.mem_insert.mp hi with rfl | hi
            · obtain rfl := Option.some.inj (hevent.symm.trans hf)
              exact Or.inr ⟨rfl, hpoint, Option.some.inj (hself.symm.trans hv)⟩
            · exact Or.inl ⟨i, hi, hf, hpoint, (hother i hi f hf).symm.trans hv⟩
          · rintro (⟨i, hi, hf, hpoint, hv⟩ | ⟨rfl, hpoint, hv⟩)
            · exact ⟨i, Finset.mem_insert_of_mem hi, hf, hpoint, (hother i hi f hf).trans hv⟩
            · exact ⟨index, Finset.mem_insert_self _ _, hevent, hpoint, by rw [← hv]; exact hself⟩
        by_cases hcount : event.point = point ∧ verdict = .counted
        · obtain ⟨rfl, hv⟩ := hcount
          have hset := Set.ext fun f => (hcounted f).trans
            (show _ ↔ f ∈ insert event (e.countedAt candidates decided event.point) by
              simp [hv, or_comm])
          rw [hset]
          simpa [hv] using (h.winner event.point).record event
        · have hset := Set.ext fun f => (hcounted f).trans
            (show _ ↔ f ∈ e.countedAt candidates decided point by simp [hcount])
          rw [hset]
          by_cases hv : verdict = .counted
          · have hne : point ≠ event.point := fun heq => hcount ⟨heq.symm, hv⟩
            simpa [hv, hne] using h.winner point
          · simpa [hv] using h.winner point
      here := h.here }

/-! ## Taking a waiting candidate off its sequence -/

lemma countAt_erase (hevent : candidates.list[index]? = some event)
    (hmem : index ∈ waiting) (point : Point) :
    countAt candidates (waiting.erase index) point =
      countAt candidates waiting point - if event.point = point then 1 else 0 := by
  simp [countAt, List.countP_erase, hevent, hmem]

lemma countAt_pos (hevent : candidates.list[index]? = some event)
    (hmem : index ∈ waiting) : 0 < countAt candidates waiting event.point :=
  List.countP_pos_iff.mpr ⟨index, hmem, by simp [hevent]⟩

lemma Schedule.congr (h : Schedule candidates e opened waiting) {e' : Evaluation}
    (hpending : e'.pending = e.pending) (hclose : e'.toClose = e.toClose)
    (hsettled : e'.settled = e.settled) : Schedule candidates e' opened waiting where
  pending := by simpa only [hpending] using h.pending
  toClose_iff := by simpa only [hclose, hsettled] using h.toClose_iff
  toClose_nodup := by simpa only [hclose] using h.toClose_nodup

/-- **Taking a waiting candidate off its sequence** closes the sequence when it is the last. -/
lemma Schedule.oneLessPending (h : Schedule candidates e opened waiting)
    (hevent : candidates.list[index]? = some event) (hmem : index ∈ waiting)
    (hopened : event.seq = opened event.subject)
    (hsettled : event.seq = e.settled event.subject + 1) :
    Schedule candidates (e.oneLessPending event.point) opened (waiting.erase index) := by
  have hpos := countAt_pos hevent hmem
  have hpending : e.pending event.point = some (countAt candidates waiting event.point) := by
    rw [h.pending, if_neg hpos.ne']
  have herase := countAt_erase hevent hmem
  have hself : countAt candidates (waiting.erase index) event.point =
      countAt candidates waiting event.point - 1 := by simp [herase]
  have hother : ∀ point, point ≠ event.point →
      countAt candidates (waiting.erase index) point = countAt candidates waiting point :=
    fun point hne => by simp [herase, Ne.symm hne]
  unfold Evaluation.oneLessPending
  rw [hpending]
  dsimp only
  by_cases hlast : countAt candidates waiting event.point - 1 = 0
  · rw [if_pos hlast]
    refine ⟨fun point => ?_, fun member seq => ?_, ?_⟩
    · grind [h.pending]
    · rw [List.mem_cons]
      rcases eq_or_ne (member, seq) event.point with heq | hne
      · obtain ⟨rfl, rfl⟩ := Prod.mk.inj heq
        have hzero : countAt candidates (waiting.erase index) (event.subject, event.seq) = 0 :=
          hself.trans hlast
        simp only [hzero, and_true]
        exact ⟨fun _ => ⟨hopened, hsettled⟩, fun _ => Or.inl rfl⟩
      · rw [hother _ hne, ← h.toClose_iff]
        simp [hne]
    · grind [h.toClose_nodup, h.toClose_iff, hpos.ne']
  · rw [if_neg hlast]
    refine ⟨fun point => ?_, fun member seq => ?_, h.toClose_nodup⟩
    · grind [h.pending]
    · grind [h.toClose_iff, hpos.ne']

/-! ## Resolving waiting candidates -/

lemma oneLessPending_eq (e : Evaluation) (point : Point) :
    e.oneLessPending point =
    { e with
      pending := (e.oneLessPending point).pending
      toClose := (e.oneLessPending point).toClose } := by
  unfold oneLessPending
  split
  · rfl
  · split <;> rfl

lemma Mid.seq_eq (h : Mid candidates setAside verdicts e cyc opened decided waiting)
    (hevent : candidates.list[index]? = some event) (hmem : index ∈ waiting) :
    event.seq = opened event.subject ∧ event.seq = e.settled event.subject + 1 := by
  obtain ⟨event', hevent', hseq, -⟩ := h.core.waits index hmem
  obtain rfl := Option.some.inj (hevent.symm.trans hevent')
  have hle := (h.opened.iff index event hevent).mp (Or.inr hmem)
  have := h.opened.le_succ event.subject
  exact ⟨by omega, hseq⟩

lemma Mid.queues (h : Mid candidates setAside verdicts e cyc opened decided waiting)
    (awaited : List (ℕ × Point)) (queues : Point → List ℕ) :
    Mid candidates setAside verdicts { e with awaited := awaited, waiting := queues } cyc opened
      decided waiting where
  core := h.core.congr rfl rfl rfl rfl rfl
  schedule := h.schedule.congr rfl rfl rfl
  opened := ⟨h.opened.settled_le, h.opened.le_succ, h.opened.le_run, h.opened.iff⟩

/-- **Resolving a waiting candidate** by its outcome. -/
lemma Mid.resolve (h : Mid candidates setAside verdicts e cyc opened decided waiting)
    {o : Outcome MemberState} (hevent : candidates.list[index]? = some event)
    (hmem : index ∈ waiting)
    (ho : (candidates.log setAside).outcome membershipRules cyc e.known event = some o) :
    Mid candidates setAside verdicts (e.resolve event (verdictOf setAside event o)) cyc opened
      (insert index decided) (waiting.erase index) := by
  obtain ⟨hseq, hsettled⟩ := h.seq_eq hevent hmem
  have hcore := h.core.decideEvent hevent (h.core.disjoint index hmem) ho
  have hframe := oneLessPending_eq (e.decideEvent event (verdictOf setAside event o)) event.point
  have hsame : (e.resolve event (verdictOf setAside event o)).settled = e.settled := by
    rw [Evaluation.resolve, hframe, decideEvent_eq]
  refine ⟨?_, ?_, ?_⟩
  · refine hcore.congr ?_ ?_ ?_ ?_ ?_ <;> rw [Evaluation.resolve, hframe]
  · refine Schedule.oneLessPending (e := e.decideEvent event _) ?_ hevent hmem hseq ?_
    · exact h.schedule.congr (by rw [decideEvent_eq]) (by rw [decideEvent_eq])
        (by rw [decideEvent_eq])
    · rw [decideEvent_eq]
      exact hsettled
  · refine ⟨?_, ?_, h.opened.le_run, fun i f hf => ?_⟩
    · simpa only [hsame] using h.opened.settled_le
    · simpa only [hsame] using h.opened.le_succ
    · rw [← h.opened.iff i f hf, h.core.waiting_nodup.mem_erase_iff, Finset.mem_insert]
      rcases eq_or_ne i index with rfl | hne
      · simp [hmem]
      · simp [hne]

lemma resolve_queues (e : Evaluation) (event : Event) (verdict : Verdict) :
    (e.resolve event verdict).awaited = e.awaited ∧
      (e.resolve event verdict).waiting = e.waiting := by
  rw [resolve, oneLessPending_eq, decideEvent_eq]
  exact ⟨rfl, rfl⟩

/-- A step of a loop that resolves the candidate of an index, whatever it does to the queues. -/
def Resolves (candidates : Candidates parsed) (verdict : Event → Verdict)
    (step : Evaluation → ℕ → Evaluation) : Prop :=
  ∀ (e : Evaluation) (index : ℕ) (event : Event), candidates.list[index]? = some event →
    ∃ awaited queues, step e index =
      ({ e with awaited := awaited, waiting := queues } : Evaluation).resolve event (verdict event)

/-- **Resolving a list of waiting candidates**, each by its outcome. The states known, the sequences
to open and the rounds stay as they are. -/
lemma Mid.foldl {verdict : Event → Verdict} {step : Evaluation → ℕ → Evaluation}
    (hstep : Resolves candidates verdict step) (indices : List ℕ) :
    ∀ {e : Evaluation} {decided : Finset ℕ} {waiting : List ℕ},
      Mid candidates setAside verdicts e cyc opened decided waiting → indices.Nodup →
      (∀ index ∈ indices, index ∈ waiting) →
      (∀ index ∈ indices, ∀ event, candidates.list[index]? = some event →
        ∃ o, (candidates.log setAside).outcome membershipRules cyc e.known event = some o ∧
          verdict event = verdictOf setAside event o) →
      Mid candidates setAside verdicts (indices.foldl step e) cyc opened
          (decided ∪ indices.toFinset) (waiting.diff indices) ∧
        (indices.foldl step e).states = e.states ∧ (indices.foldl step e).settled = e.settled ∧
        (indices.foldl step e).toOpen = e.toOpen ∧ (indices.foldl step e).rounds = e.rounds := by
  induction indices with
  | nil =>
    intro e decided waiting h _ _ _
    simpa using h
  | cons index indices ih =>
    intro e decided waiting h hnodup hsub hout
    obtain ⟨hnot, hnodup⟩ := List.nodup_cons.mp hnodup
    have hmem := hsub index List.mem_cons_self
    obtain ⟨event, hevent, -⟩ := h.core.waits index hmem
    obtain ⟨o, ho, hverdict⟩ := hout index List.mem_cons_self event hevent
    obtain ⟨awaited, queues, heq⟩ := hstep e index event hevent
    have hstep' : Mid candidates setAside verdicts (step e index) cyc opened
        (insert index decided) (waiting.erase index) := by
      rw [heq, hverdict]
      exact (h.queues awaited queues).resolve hevent hmem ho
    have hframe : (step e index).states = e.states ∧ (step e index).settled = e.settled ∧
        (step e index).toOpen = e.toOpen ∧ (step e index).rounds = e.rounds := by
      rw [heq, Evaluation.resolve, oneLessPending_eq, decideEvent_eq]
      exact ⟨rfl, rfl, rfl, rfl⟩
    have hknown : (step e index).known = e.known := by
      funext member seq
      simp [Evaluation.known, hframe.1]
    have hrest := ih hstep' hnodup
      (fun i hi => (h.core.waiting_nodup.mem_erase_iff).mpr
        ⟨fun heq => hnot (heq ▸ hi), hsub i (List.mem_cons_of_mem _ hi)⟩)
      (fun i hi f hf => by
        rw [hknown]
        exact hout i (List.mem_cons_of_mem _ hi) f hf)
    rw [hframe.1, hframe.2.1, hframe.2.2.1, hframe.2.2.2] at hrest
    have hdecided : decided ∪ (index :: indices).toFinset =
        insert index decided ∪ indices.toFinset := by
      ext i
      simp
    rw [hdecided, List.diff_cons]
    exact hrest

end Evaluation

end MeePdn
