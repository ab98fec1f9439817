import MeePdn.DataLayer.Pod.MembershipView.Loops

/-!
# What an evaluation returns

The loop of `evaluate` ends within its fuel, and what it returns is what the log of the candidates
settles in: no order of iteration shows in it.

## Main definitions

* `Evaluation.left` — what an evaluation has left to do, which every turn lowers.
* `Evaluation.opens`, `Evaluation.closes`, `Evaluation.decides` — what a turn opens, closes and
  decides; `Evaluation.Turned` relates them to what is opened, settled and decided.
* `Pass.Solves` — a pass shows the final states and outcomes of a log.

## Main results

* `Evaluation.Inv.start`, `Evaluation.Inv.turn` — the invariant holds at first, and every turn
  keeps it and does what it says it does.
* `Evaluation.verdicts_turn` — a turn writes one verdict for each candidate it decides.
* `Evaluation.loop_finished` — the loop ends within the fuel.
* `Pass.run_solves` — **the evaluation computes what its log settles in**.
-/

namespace MeePdn

open Settling Classical

/-! ## What a pass shows -/

/-- A pass shows what the log of its candidates settles in, over the verdicts `Alone` gave. -/
structure Pass.Solves {parsed : Parsed} (candidates : Candidates parsed) (setAside : Finset ℕ)
    (verdicts : List Verdict) (pass : Pass) : Prop where
  state : ∀ member seq, seq ≤ parsed.run member →
    pass.state member seq = (candidates.log setAside).final membershipRules loopRounds member seq
  verdict : ∀ event ∈ candidates.list, pass.verdicts[event.entry]? =
    some (verdictOf setAside event
      ((candidates.log setAside).result membershipRules loopRounds event))
  others : ∀ entry, (∀ event ∈ candidates.list, event.entry ≠ entry) →
    pass.verdicts[entry]? = verdicts[entry]?
  length : pass.verdicts.length = verdicts.length
  winner : ∀ point, WinnerOf
    {event | event ∈ candidates.list ∧ event.point = point ∧
      verdictOf setAside event ((candidates.log setAside).result membershipRules loopRounds event) =
        .counted} (pass.winners point)

namespace Evaluation

variable {parsed : Parsed} {candidates : Candidates parsed} {setAside : Finset ℕ}
  {verdicts : List Verdict} {e : Evaluation} {decided : Finset ℕ} {waiting : List ℕ}
  {opened : PdnId → ℕ} {round : ℕ} {order : HashOrder}

/-! ## The start -/

/-- **The state before the first turn** meets the invariant. -/
lemma Inv.start (hentry : ∀ event ∈ candidates.list, event.entry < verdicts.length) :
    Inv candidates setAside verdicts (Evaluation.start parsed candidates.list order verdicts) 0
      (fun _ => 0) ∅ [] where
  mid :=
    { core :=
        { states_isSome := fun x s => by
            simp only [Evaluation.start, Option.isSome_none, Bool.false_eq_true, false_iff]
            omega
          settled_le := fun x => Nat.zero_le _
          sound := fun x s a ha => by
            unfold known at ha
            split_ifs at ha with hzero
            · rw [hzero, Log.known_zero]
              exact ha
            · simp [Evaluation.start] at ha
          waiting_nodup := List.nodup_nil
          disjoint := by simp
          decided_lt := by simp
          waits := by simp
          outcome := by simp
          others := fun _ _ => rfl
          length := rfl
          entry_lt := hentry
          winner := fun point => by simp [Evaluation.start, WinnerOf, countedAt]
          here := fun point => rfl }
      schedule :=
        { pending := fun point => by simp [Evaluation.start, countAt]
          toClose_iff := fun x s => by
            simp only [Evaluation.start, List.not_mem_nil, false_iff]
            omega
          toClose_nodup := List.nodup_nil }
      opened :=
        { settled_le := fun x => le_rfl
          le_succ := fun x => Nat.zero_le _
          le_run := fun x => Nat.zero_le _
          iff := fun index event hevent => by
            have := candidates.seq_pos event (List.mem_of_getElem? hevent)
            simp only [Finset.notMem_empty, List.not_mem_nil, or_self, false_iff]
            omega } }
  queues := ⟨by simp [Evaluation.start], by simp [Evaluation.start], by simp [Evaluation.start],
    by simp [Evaluation.start]⟩
  toOpen := by
    have hperm := order.chains_perm parsed.chains
    refine ⟨fun x s => ?_, ?_⟩
    · simp only [Evaluation.start, List.mem_reverse, List.mem_map, List.mem_filter,
        decide_eq_true_eq, Prod.mk.injEq, hperm.mem_iff, true_and, zero_add]
      constructor
      · rintro ⟨y, ⟨-, hrun⟩, rfl, rfl⟩
        exact ⟨rfl, hrun⟩
      · rintro ⟨rfl, hrun⟩
        exact ⟨x, ⟨candidates.mem_chains x hrun, hrun⟩, rfl, rfl⟩
    · refine List.nodup_reverse.mpr (List.Nodup.map ?_ ?_)
      · exact fun a b hab => (Prod.mk.inj hab).1
      · exact ((hperm.nodup_iff.mpr candidates.chains_nodup).filter _)
  rest := by simp
  cyc_decided := fun event hin => hin.elim
  rounds := rfl

/-! ## What a turn does -/

/-- The sequence a turn closes. -/
def closes (e : Evaluation) : Option Point := e.toClose.head?

/-- The sequence a turn opens. -/
def opens (e : Evaluation) : Option Point :=
  match e.toClose with
  | [] => e.toOpen.head?
  | _ :: _ => none

/-- Whether `open_sequence` decides a candidate at once; it leaves the others waiting. -/
def decidesAtOnce (list : List Event) (before : MemberState) (e : Evaluation) (index : ℕ) : Bool :=
  list[index]?.any fun event => !allows before event.kind || (e.actorState event).isSome

/-- The candidates a turn decides, in the order of its calls of `decide`: those that waited for the
sequence it closes, those it need not leave waiting at the sequence it opens, those on loops, or,
out of rounds, all that wait. -/
def decides (list : List Event) (order : HashOrder) (number : ℕ) (e : Evaluation) : List ℕ :=
  match e.toClose with
  | point :: _ => e.waiting point
  | [] =>
    match e.toOpen with
    | (member, seq) :: _ =>
      (e.here (member, seq)).filter (e.decidesAtOnce list (e.state member (seq - 1)))
    | [] =>
      let waiting := (order.awaited number e.awaited).map Prod.fst
      if e.rounds < loopRounds then loopedIndices list e waiting else waiting

lemma decides_close {point : Point} {toClose : List Point} (hclose : e.toClose = point :: toClose)
    (list : List Event) (order : HashOrder) (number : ℕ) :
    e.decides list order number = e.waiting point := by
  simp [decides, hclose]

lemma decides_open {member : PdnId} {seq : ℕ} {toOpen : List Point} (hclose : e.toClose = [])
    (hopen : e.toOpen = (member, seq) :: toOpen) (list : List Event) (order : HashOrder)
    (number : ℕ) : e.decides list order number =
      (e.here (member, seq)).filter (e.decidesAtOnce list (e.state member (seq - 1))) := by
  simp [decides, hclose, hopen]

lemma decides_rest (hclose : e.toClose = []) (hopen : e.toOpen = []) (list : List Event)
    (order : HashOrder) (number : ℕ) : e.decides list order number =
      if e.rounds < loopRounds then
        loopedIndices list e ((order.awaited number e.awaited).map Prod.fst)
      else (order.awaited number e.awaited).map Prod.fst := by
  simp [decides, hclose, hopen]

/-- One write of a verdict. -/
def write (list : List Event) (verdict : Event → Verdict) (verdicts : List Verdict) (index : ℕ) :
    List Verdict :=
  list[index]?.elim verdicts fun event => verdicts.set event.entry (verdict event)

lemma Resolves.foldl_write {verdict : Event → Verdict} {step : Evaluation → ℕ → Evaluation}
    (hstep : Resolves candidates verdict step)
    (hnone : ∀ e index, candidates.list[index]? = none → (step e index).verdicts = e.verdicts)
    (indices : List ℕ) (e : Evaluation) :
    (indices.foldl step e).verdicts = indices.foldl (write candidates.list verdict) e.verdicts := by
  refine (List.foldl_hom (fun e : Evaluation => e.verdicts) fun e index => ?_).symm
  rcases hevent : candidates.list[index]? with _ | event
  · simp [write, hevent, hnone e index hevent]
  · obtain ⟨awaited, queues, heq⟩ := hstep e index event hevent
    rw [heq, resolve, oneLessPending_eq, decideEvent_eq]
    simp [write, hevent]

/-- The verdict `open_sequence` writes. -/
def openVerdict (setAside : Finset ℕ) (before : MemberState) (e : Evaluation) (event : Event) :
    Verdict :=
  if ¬ allows before event.kind then .countedForNothing .transitionNotAllowed
  else Pass.judge setAside event ((e.actorState event).getD default)

/-- A turn of the loop of `open_sequence` writes a verdict or leaves its candidate awaited. -/
lemma openEvent_cases (list : List Event) (setAside : Finset ℕ) (before : MemberState)
    {e : Evaluation} {acc : Evaluation × ℕ} (hstates : acc.1.states = e.states) (i : ℕ) :
    (openEvent list setAside before acc i).1.states = e.states ∧
      (openEvent list setAside before acc i).1.verdicts =
        (if e.decidesAtOnce list before i then
          write list (openVerdict setAside before e) acc.1.verdicts i else acc.1.verdicts) ∧
      ∀ index, index ∈ (openEvent list setAside before acc i).1.awaited.map Prod.fst ↔
        index ∈ acc.1.awaited.map Prod.fst ∨
          index = i ∧ i < list.length ∧ e.decidesAtOnce list before i = false := by
  have hactor : ∀ event, acc.1.actorState event = e.actorState event := fun event => by
    simp [Pass.actorState, hstates]
  unfold openEvent decidesAtOnce write openVerdict
  rcases hevent : list[i]? with _ | event
  · have hlt := List.getElem?_eq_none_iff.mp hevent
    simp only [Option.any_none, hstates]
    grind
  · have hlt : i < list.length := (List.getElem?_eq_some_iff.mp hevent).1
    by_cases hallows : allows before event.kind = true
    · rcases hstate : e.actorState event with _ | actor
      · simp only [hallows, hactor, hstate, Option.any_some]
        refine ⟨by simp [hstates], by simp, fun index => ?_⟩
        by_cases hindex : index = i
        · simp [hindex, hlt]
        · simp [hindex]
      · simp [hallows, hactor, hstate, hstates, decideEvent_eq]
    · simp [hallows, hstates, decideEvent_eq]

/-- **The loop of `open_sequence`** writes a verdict for the candidates it decides and leaves the
others awaited. -/
lemma foldl_openEvent (list : List Event) (setAside : Finset ℕ) (before : MemberState)
    {e : Evaluation} (indices : List ℕ) : ∀ acc : Evaluation × ℕ, acc.1.states = e.states →
    (indices.foldl (openEvent list setAside before) acc).1.verdicts =
        (indices.filter (e.decidesAtOnce list before)).foldl
          (write list (openVerdict setAside before e)) acc.1.verdicts ∧
      ∀ index, index ∈ (indices.foldl (openEvent list setAside before) acc).1.awaited.map Prod.fst ↔
        index ∈ acc.1.awaited.map Prod.fst ∨
          index ∈ indices ∧ index < list.length ∧ e.decidesAtOnce list before index = false := by
  induction indices with
  | nil => simp
  | cons i indices ih =>
    intro acc hstates
    obtain ⟨hs, hv, ha⟩ := openEvent_cases list setAside before hstates i
    obtain ⟨hv', ha'⟩ := ih _ hs
    rw [List.foldl_cons, hv', hv]
    refine ⟨?_, fun index => ?_⟩
    · by_cases hdecides : e.decidesAtOnce list before i = true <;> simp [hdecides]
    · rw [ha', ha]
      grind

variable (e) in
/-- What `open_sequence` leaves is what its loop leaves, but for the counts and the stacks. -/
lemma openSequence_loop (list : List Event) (setAside : Finset ℕ) (member : PdnId) (seq : ℕ) :
    (e.openSequence list setAside member seq).verdicts =
        ((e.here (member, seq)).filter
          (e.decidesAtOnce list (e.state member (seq - 1)))).foldl
          (write list (openVerdict setAside (e.state member (seq - 1)) e)) e.verdicts ∧
      ∀ index, index ∈ (e.openSequence list setAside member seq).awaited.map Prod.fst ↔
        index ∈ e.awaited.map Prod.fst ∨ index ∈ e.here (member, seq) ∧ index < list.length ∧
          e.decidesAtOnce list (e.state member (seq - 1)) index = false := by
  have hloop := foldl_openEvent list setAside (e.state member (seq - 1)) (e.here (member, seq))
    (e, 0) (rfl : _ = e.states)
  unfold openSequence
  dsimp only
  split
  · exact hloop
  · exact hloop

/-- **A turn writes one verdict for each candidate it decides.** -/
lemma verdicts_turn {number : ℕ} {e' : Evaluation}
    (hturn : e.turn parsed candidates.list setAside order number = some e') :
    ∃ verdict, e'.verdicts =
      (e.decides candidates.list order number).foldl (write candidates.list verdict)
        e.verdicts := by
  unfold Evaluation.turn at hturn
  split at hturn
  · next member seq toClose hclose =>
    obtain rfl := Option.some.inj hturn
    rw [decides_close hclose]
    refine ⟨fun event => Pass.judge setAside event (e.closing member seq), ?_⟩
    have hresolves : Resolves candidates
        (fun event => Pass.judge setAside event (e.closing member seq))
        (closeEvent candidates.list setAside (e.closing member seq)) := resolves_closeEvent _
    have hloop := hresolves.foldl_write (fun e index hevent => by simp [closeEvent, hevent])
      (e.waiting (member, seq)) ({ e.settle member seq (e.closing member seq) toClose with
        waiting := Function.update e.waiting (member, seq) [] })
    unfold closeSequence
    dsimp only
    split
    · exact hloop
    · exact hloop
  · next hclose =>
    split at hturn
    · next member seq toOpen hopen =>
      obtain rfl := Option.some.inj hturn
      rw [decides_open hclose hopen]
      exact ⟨_, (openSequence_loop { e with toOpen := toOpen } candidates.list setAside member
        seq).1⟩
    · next hopen =>
      rw [decides_rest hclose hopen]
      refine ⟨fun _ => .countedForNothing .cyclic, ?_⟩
      split at hturn
      · simp at hturn
      · split at hturn
        · next hround =>
          obtain rfl := Option.some.inj hturn
          rw [if_pos hround, breakLoops_eq]
          exact resolves_breakIndex.foldl_write (fun e index hevent => by simp [breakIndex, hevent])
            _ _
        · next hround =>
          obtain rfl := Option.some.inj hturn
          rw [if_neg hround]
          exact resolves_giveUpEvent.foldl_write
            (fun e index hevent => by simp [giveUpEvent, hevent]) _ _

/-! ## Every turn -/

/-- What an evaluation has left to do: sequences to settle, each twice, sequences to open, and
candidates to decide. -/
def left (parsed : Parsed) (list : List Event) (e : Evaluation) (decided : Finset ℕ) : ℕ :=
  2 * ∑ x ∈ parsed.chains.toFinset, (parsed.run x - e.settled x) + e.toOpen.length +
    (list.length - decided.card)

lemma left_decided_le {decided' : Finset ℕ} (list : List Event) (hsub : decided ⊆ decided') :
    list.length - decided'.card ≤ list.length - decided.card := by
  have := Finset.card_le_card hsub
  omega

lemma Core.card_le {cyc : Set Event}
    (h : Core candidates setAside verdicts e cyc decided waiting) :
    decided.card ≤ candidates.list.length := by
  have hsub : decided ⊆ Finset.range candidates.list.length := fun i hi =>
    Finset.mem_range.mpr (h.decided_lt i hi)
  simpa using Finset.card_le_card hsub

lemma Core.ssubset_union {cyc : Set Event}
    (h : Core candidates setAside verdicts e cyc decided waiting) {indices : List ℕ} {index : ℕ}
    (hsub : ∀ i ∈ indices, i ∈ waiting) (hin : index ∈ indices) :
    decided ⊂ decided ∪ indices.toFinset := by
  refine ⟨Finset.subset_union_left, fun hback => h.disjoint index (hsub index hin) ?_⟩
  exact hback (Finset.mem_union_right _ (List.mem_toFinset.mpr hin))

lemma sum_settled {f g : PdnId → ℕ} {member : PdnId} (hmem : member ∈ parsed.chains)
    (hlt : g member < parsed.run member) (hf : f = Function.update g member (g member + 1)) :
    ∑ x ∈ parsed.chains.toFinset, (parsed.run x - f x) + 1 =
      ∑ x ∈ parsed.chains.toFinset, (parsed.run x - g x) := by
  have hin : member ∈ parsed.chains.toFinset := List.mem_toFinset.mpr hmem
  rw [← Finset.add_sum_erase _ _ hin, ← Finset.add_sum_erase _ (fun x => parsed.run x - g x) hin]
  have hrest : ∑ x ∈ parsed.chains.toFinset.erase member, (parsed.run x - f x) =
      ∑ x ∈ parsed.chains.toFinset.erase member, (parsed.run x - g x) := by
    refine Finset.sum_congr rfl fun x hx => ?_
    rw [hf, Function.update_of_ne (Finset.ne_of_mem_erase hx)]
  rw [hrest, hf, Function.update_self]
  omega

/-- A turn moves the mark of a chain to its next sequence. -/
def Moves (point : Option Point) (marks marks' : PdnId → ℕ) : Prop :=
  match point with
  | none => marks' = marks
  | some (member, seq) => seq = marks member + 1 ∧ marks' = Function.update marks member seq

variable (candidates) in
/-- What a turn opens, settles and decides. -/
structure Turned (order : HashOrder) (number : ℕ) (e e' : Evaluation)
    (opened opened' : PdnId → ℕ) (decided decided' : Finset ℕ) : Prop where
  opens : Moves e.opens opened opened'
  closes : Moves e.closes e.settled e'.settled
  decides : decided' = decided ∪ (e.decides candidates.list order number).toFinset
  nodup : (e.decides candidates.list order number).Nodup
  fresh : ∀ index ∈ e.decides candidates.list order number, index ∉ decided
  broke : e.opens = none → e.closes = none → e.rounds < loopRounds →
    ∃ index ∈ e.decides candidates.list order number, index ∈ e.awaited.map Prod.fst

lemma Inv.mem_awaited (h : Inv candidates setAside verdicts e round opened decided waiting)
    (index : ℕ) : index ∈ e.awaited.map Prod.fst ↔ index ∈ waiting :=
  h.queues.mem_awaited h.exists_event default 0 index

/-- **The candidates decided once a sequence is open**: those before, and those `open_sequence`
need not leave waiting. -/
lemma Inv.decided_open (h : Inv candidates setAside verdicts e round opened decided waiting)
    {member : PdnId} {seq : ℕ} {toOpen : List Point} (hopen : e.toOpen = (member, seq) :: toOpen)
    {decided' : Finset ℕ} {waiting' : List ℕ}
    (h' : Inv candidates setAside verdicts
      ({ e with toOpen := toOpen }.openSequence candidates.list setAside member seq) round
      (Function.update opened member seq) decided' waiting') (hsub : decided ⊆ decided') :
    (∀ index ∈ e.here (member, seq), index ∉ decided) ∧ decided' = decided ∪
      ((e.here (member, seq)).filter
        (e.decidesAtOnce candidates.list (e.state member (seq - 1)))).toFinset := by
  obtain ⟨-, hseq, -⟩ := (h.toOpen.iff member seq).mp (hopen ▸ List.mem_cons_self)
  have hhere : ∀ index, index ∈ e.here (member, seq) ↔
      ∃ event, candidates.list[index]? = some event ∧ event.subject = member ∧ event.seq = seq := by
    intro index
    rw [h.mid.core.here, List.mem_filter, List.mem_range, decide_eq_true_eq, Option.map_eq_some_iff]
    simp only [Event.point, Prod.mk.injEq]
    exact ⟨And.right, fun hin => ⟨(List.getElem?_eq_some_iff.mp hin.choose_spec.1).1, hin⟩⟩
  -- what waits afterwards is what waited before and what the loop left waiting
  have hwaits : ∀ index, index ∈ waiting' ↔ index ∈ waiting ∨ index ∈ e.here (member, seq) ∧
      index < candidates.list.length ∧
        e.decidesAtOnce candidates.list (e.state member (seq - 1)) index = false := by
    intro index
    rw [← h'.mem_awaited, ← h.mem_awaited]
    exact
      (openSequence_loop { e with toOpen := toOpen } candidates.list setAside member seq).2 index
  have hfresh : ∀ index ∈ e.here (member, seq), index ∉ decided ∧ index ∉ waiting := by
    intro index hin
    obtain ⟨event, hev, rfl, rfl⟩ := (hhere index).mp hin
    rw [← not_or, h.mid.opened.iff index event hev]
    omega
  refine ⟨fun index hin => (hfresh index hin).1, ?_⟩
  ext index
  rw [Finset.mem_union, List.mem_toFinset, List.mem_filter]
  by_cases hlt : index < candidates.list.length
  · obtain ⟨event, hev⟩ : ∃ event, candidates.list[index]? = some event :=
      ⟨_, List.getElem?_eq_getElem hlt⟩
    have hold := h.mid.opened.iff index event hev
    have hnew := h'.mid.opened.iff index event hev
    have hapart := h'.mid.core.disjoint index
    by_cases hin : index ∈ e.here (member, seq)
    · obtain ⟨event', hev', rfl, rfl⟩ := (hhere index).mp hin
      obtain rfl := Option.some.inj (hev.symm.trans hev')
      rw [Function.update_self] at hnew
      grind
    · have hne : event.subject = member → event.seq ≠ seq := fun hsubject hs =>
        hin ((hhere index).mpr ⟨event, hev, hsubject, hs⟩)
      have hsame : event.seq ≤ Function.update opened member seq event.subject ↔
          event.seq ≤ opened event.subject := by
        rcases eq_or_ne event.subject member with hsubject | hsubject
        · rw [hsubject, Function.update_self]
          have := hne hsubject
          omega
        · rw [Function.update_of_ne hsubject]
      have := h.mid.core.disjoint index
      grind
  · have := h.mid.core.decided_lt index
    have := h'.mid.core.decided_lt index
    grind

/-- **Every turn keeps the invariant, does what it says and leaves less to do.** -/
lemma Inv.turn (h : Inv candidates setAside verdicts e round opened decided waiting) {number : ℕ}
    {e' : Evaluation}
    (hturn : e.turn parsed candidates.list setAside order number = some e') :
    ∃ round' opened' decided' waiting',
      Inv candidates setAside verdicts e' round' opened' decided' waiting' ∧
        Turned candidates order number e e' opened opened' decided decided' ∧
        left parsed candidates.list e' decided' < left parsed candidates.list e decided := by
  unfold Evaluation.turn at hturn
  split at hturn
  · next member seq toClose hclose =>
    obtain rfl := Option.some.inj hturn
    have hin : (member, seq) ∈ e.toClose := hclose ▸ List.mem_cons_self
    obtain ⟨hopened, hseq, -⟩ := (h.mid.schedule.toClose_iff member seq).mp hin
    have hrun := h.mid.opened.le_run member
    obtain ⟨hinv, hsettled, hlength⟩ := h.close hclose
    have hdecides := decides_close hclose candidates.list order number
    refine ⟨_, _, _, _, hinv, ⟨by simp [opens, hclose, Moves],
      by rw [closes, hclose]; exact ⟨hseq, hsettled⟩, by rw [hdecides],
      hdecides ▸ h.queues.waiting_nodup _, fun index hindex => ?_, by simp [closes, hclose]⟩, ?_⟩
    · rw [hdecides, h.queues.waiting] at hindex
      exact h.mid.core.disjoint index hindex.1
    have hsum := sum_settled (candidates.mem_chains member (by omega)) (by omega)
      (hsettled.trans (congrArg (Function.update e.settled member) hseq))
    have hsub : decided ⊆ decided ∪ (e.waiting (member, seq)).toFinset := Finset.subset_union_left
    have hdecided := left_decided_le candidates.list hsub
    unfold left
    omega
  · next hclose =>
    split at hturn
    · next member seq toOpen hopen =>
      obtain rfl := Option.some.inj hturn
      obtain ⟨decided', waiting', hinv, hsub, hopen', hsettled⟩ := h.open hopen
      obtain ⟨hfresh, hdecided'⟩ := h.decided_open hopen hinv hsub
      obtain ⟨hopened, hseq, -⟩ := (h.toOpen.iff member seq).mp (hopen ▸ List.mem_cons_self)
      have hdecides := decides_open hclose hopen candidates.list order number
      have hcloses : e.closes = none := by rw [closes, hclose, List.head?_nil]
      refine ⟨_, _, _, _, hinv, ⟨by rw [opens, hclose, hopen]; exact ⟨hseq, rfl⟩,
        by rw [hcloses]; exact hsettled, by rw [hdecides]; exact hdecided', ?_,
        fun index hindex => ?_, by simp [opens, hclose, hopen]⟩, ?_⟩
      · rw [hdecides, h.mid.core.here]
        exact (List.nodup_range.filter _).filter _
      · rw [hdecides] at hindex
        exact hfresh index (List.mem_of_mem_filter hindex)
      have hdecided := left_decided_le candidates.list hsub
      unfold left
      rw [hsettled, hopen', hopen, List.length_cons]
      omega
    · next hopen =>
      split at hturn
      · simp at hturn
      · next hempty =>
        have hwaiting : waiting ≠ [] := by
          rintro rfl
          refine hempty (List.isEmpty_iff.mpr (List.eq_nil_iff_forall_not_mem.mpr fun a ha => ?_))
          simpa using ((h.queues.awaited a.1 a.2).mp ha).1
        -- either way candidates that wait are decided, one at least
        have hdone : ∀ {e' : Evaluation} {waiting' : List ℕ},
            e'.settled = e.settled → e'.toOpen = e.toOpen →
            Inv candidates setAside verdicts e' (round + 1) opened
              (decided ∪ (e.decides candidates.list order number).toFinset) waiting' →
            (e.decides candidates.list order number).Nodup →
            (∀ index ∈ e.decides candidates.list order number, index ∈ waiting) →
            (∃ index, index ∈ e.decides candidates.list order number) →
            ∃ round' opened' decided' waiting',
              Inv candidates setAside verdicts e' round' opened' decided' waiting' ∧
                Turned candidates order number e e' opened opened' decided decided' ∧
                left parsed candidates.list e' decided' <
                  left parsed candidates.list e decided := by
          intro e' waiting' hsettled hopen' hinv hnodup hsub hsome
          obtain ⟨index, hin⟩ := hsome
          refine ⟨_, _, _, _, hinv, ⟨by simp [opens, hclose, hopen, Moves],
            by simp [closes, hclose, Moves, hsettled], rfl, hnodup,
            fun i hi => h.mid.core.disjoint i (hsub i hi),
            fun _ _ _ => ⟨index, hin, (h.mem_awaited index).mpr (hsub index hin)⟩⟩, ?_⟩
          have hcard := Finset.card_lt_card (h.mid.core.ssubset_union hsub hin)
          have hle := hinv.mid.core.card_le
          unfold left
          rw [hsettled, hopen']
          omega
        have hdecides := decides_rest hclose hopen candidates.list order number
        split at hturn
        · next hround =>
          obtain rfl := Option.some.inj hturn
          obtain ⟨hinv, hnodup, hsub, hsome, hsettled, hopen'⟩ :=
            h.breakLoops order number hclose hopen hround hwaiting
          rw [if_pos hround] at hdecides
          rw [← hdecides] at hinv hnodup hsub hsome
          exact hdone hsettled hopen' hinv hnodup hsub hsome
        · next hround =>
          obtain rfl := Option.some.inj hturn
          obtain ⟨hinv, hsettled, hopen'⟩ := h.giveUp order number hclose hopen hround
          have hmem := h.queues.mem_awaited h.exists_event order number
          have hnodup := h.queues.nodup_awaited order number
          rw [if_neg hround] at hdecides
          rw [← hdecides] at hinv hmem hnodup
          obtain ⟨index, hwait⟩ := List.exists_mem_of_ne_nil _ hwaiting
          exact hdone hsettled hopen' hinv hnodup (fun i hi => (hmem i).mp hi)
            ⟨index, (hmem index).mpr hwait⟩

/-- **The loop ends**: with more turns than there is left to do, it ends where no turn is left, and
the invariant holds there. -/
lemma Inv.loop (fuel : ℕ) : ∀ {e : Evaluation} {round : ℕ} {opened : PdnId → ℕ}
    {decided : Finset ℕ} {waiting : List ℕ},
    Inv candidates setAside verdicts e round opened decided waiting →
    left parsed candidates.list e decided < fuel →
    ∃ round' opened' decided' waiting' number,
      Inv candidates setAside verdicts
        (e.loop parsed candidates.list setAside order fuel) round' opened' decided' waiting' ∧
      (e.loop parsed candidates.list setAside order fuel).turn parsed candidates.list setAside order
        number = none := by
  induction fuel with
  | zero => exact fun _ hlt => absurd hlt (Nat.not_lt_zero _)
  | succ fuel ih =>
    intro e round opened decided waiting h hlt
    unfold Evaluation.loop
    split
    · next hnone => exact ⟨round, opened, decided, waiting, fuel, h, hnone⟩
    · grind [h.turn]

variable (candidates verdicts order) in
/-- The fuel is more than an evaluation has to do. -/
lemma left_start_lt : left parsed candidates.list
    (start parsed candidates.list order verdicts) ∅ < fuel parsed := by
  have hsum : ∑ x ∈ parsed.chains.toFinset, parsed.run x = (parsed.chains.map parsed.run).sum :=
    List.sum_toFinset _ candidates.chains_nodup
  have hruns := candidates.runs_le
  have hlength := candidates.length_le
  have hopen : (start parsed candidates.list order verdicts).toOpen.length ≤
      (parsed.chains.map parsed.run).sum := by
    simp only [start, List.length_reverse, List.length_map]
    rw [((order.chains_perm parsed.chains).filter _).length_eq]
    have hcount : ∀ l : List PdnId, (l.filter fun x => decide (1 ≤ parsed.run x)).length ≤
        (l.map parsed.run).sum := by
      intro l
      induction l with
      | nil => simp
      | cons x l ih => grind
    exact hcount parsed.chains
  unfold left fuel
  simp only [start, Finset.card_empty, Nat.sub_zero] at hopen ⊢
  omega

variable (setAside order) in
/-- **The fuel is enough**: the evaluation ends where no turn is left. -/
lemma loop_finished (hentry : ∀ event ∈ candidates.list, event.entry < verdicts.length) :
    ∃ round opened decided waiting number,
      Inv candidates setAside verdicts
        (loop parsed candidates.list setAside order (fuel parsed)
          (start parsed candidates.list order verdicts)) round opened decided waiting ∧
      (loop parsed candidates.list setAside order (fuel parsed)
        (start parsed candidates.list order verdicts)).turn parsed candidates.list setAside order
          number = none :=
  (Inv.start hentry).loop (fuel parsed) (left_start_lt candidates verdicts order)

/-- Where no turn is left, nothing waits and every chain is settled. -/
lemma Inv.finished (h : Inv candidates setAside verdicts e round opened decided waiting)
    {number : ℕ} (hnone : e.turn parsed candidates.list setAside order number = none) :
    waiting = [] ∧ e.toClose = [] ∧ e.toOpen = [] ∧
      ∀ member, e.settled member = parsed.run member := by
  unfold Evaluation.turn at hnone
  split at hnone
  · simp at hnone
  · next hclose =>
    split at hnone
    · simp at hnone
    · next hopen =>
      split at hnone
      · next hempty =>
        have hwaiting : waiting = [] := by
          refine List.eq_nil_iff_forall_not_mem.mpr fun index hmem => ?_
          obtain ⟨event, hevent⟩ := h.exists_event index hmem
          have hin := (h.queues.awaited index event.actorPoint).mpr ⟨hmem, by simp [hevent]⟩
          rw [List.isEmpty_iff.mp hempty] at hin
          simp at hin
        refine ⟨hwaiting, hclose, hopen, fun member => ?_⟩
        refine le_antisymm (h.mid.core.settled_le member) (not_lt.mp fun hlt => ?_)
        obtain ⟨-, index, hmem, -⟩ := h.exists_waiting hclose hopen hlt
        simp [hwaiting] at hmem
      · split at hnone <;> simp at hnone

/-- What a finished evaluation shows is what its log settles in. -/
lemma Inv.solves (h : Inv candidates setAside verdicts e round opened decided waiting)
    {number : ℕ} (hnone : e.turn parsed candidates.list setAside order number = none) :
    e.toPass.Solves candidates setAside verdicts := by
  obtain ⟨hwaiting, hclose, hopen, hsettled⟩ := h.finished hnone
  have hcyc : (candidates.log setAside).cyclic membershipRules loopRounds =
      cycs candidates setAside round := by
    refine Log.cyclic_eq fun event hwaits => ?_
    obtain ⟨index, hevent⟩ := List.getElem?_of_mem hwaits.1
    have := (h.waits_iff hclose hopen hevent).mp hwaits
    simp [hwaiting] at this
  have hknown := h.known_eq hclose hopen
  rw [← hcyc] at hknown
  have hdecided : ∀ index event, candidates.list[index]? = some event → index ∈ decided := by
    intro index event hevent
    have hmem := List.mem_of_getElem? hevent
    have hle : event.seq ≤ opened event.subject :=
      (candidates.seq_le_run event hmem).trans
        ((hsettled event.subject).symm.le.trans (h.mid.opened.settled_le _))
    exact ((h.mid.opened.iff index event hevent).mpr hle).resolve_right (by simp [hwaiting])
  have hverdict : ∀ event ∈ candidates.list, e.verdicts[event.entry]? =
      some (verdictOf setAside event
        ((candidates.log setAside).result membershipRules loopRounds event)) := by
    intro event hmem
    obtain ⟨index, hevent⟩ := List.getElem?_of_mem hmem
    obtain ⟨o, ho, hv⟩ := h.mid.core.outcome index (hdecided index event hevent) event hevent
    rw [← hcyc, hknown, Log.outcome_cyclic hmem] at ho
    rw [hv, Option.some.inj ho]
  refine ⟨fun member seq hle => ?_, hverdict, fun entry hentry => ?_, h.mid.core.length,
    fun point => ?_⟩
  · have hstate := h.mid.core.known_eq ((hsettled member).symm ▸ hle)
    rw [hknown, Log.known_cyclic hle] at hstate
    exact (Option.some.inj hstate).symm
  · exact h.mid.core.others entry fun index _ event hevent =>
      hentry event (List.mem_of_getElem? hevent)
  · have hset : e.countedAt candidates decided point =
        {event | event ∈ candidates.list ∧ event.point = point ∧
          verdictOf setAside event
            ((candidates.log setAside).result membershipRules loopRounds event) = .counted} := by
      ext event
      constructor
      · rintro ⟨index, -, hevent, hpoint, hv⟩
        have hmem := List.mem_of_getElem? hevent
        rw [hverdict event hmem] at hv
        exact ⟨hmem, hpoint, Option.some.inj hv⟩
      · rintro ⟨hmem, hpoint, hv⟩
        obtain ⟨index, hevent⟩ := List.getElem?_of_mem hmem
        exact ⟨index, hdecided index event hevent, hevent, hpoint, by rw [hverdict event hmem, hv]⟩
    rw [← hset]
    exact h.mid.core.winner point

end Evaluation

/-- **The evaluation computes what its log settles in**, whatever order it iterates in.

**Proof sketch.** The invariant holds before the first turn and is kept by every turn, so it holds
where the loop ends. There nothing waits and every chain is settled; the states known are then all
that the log knows, and each candidate has the verdict of its outcome by them. -/
lemma Pass.run_solves {parsed : Parsed} (candidates : Candidates parsed) {alone : Alone}
    (hlist : alone.candidates = candidates.list)
    (hentry : ∀ event ∈ candidates.list, event.entry < alone.verdicts.length) (order : HashOrder)
    (setAside : Finset ℕ) :
    (Pass.run parsed alone order setAside).Solves candidates setAside alone.verdicts := by
  obtain ⟨round, opened, decided, waiting, number, hinv, hnone⟩ :=
    Evaluation.loop_finished setAside order hentry
  unfold Pass.run
  rw [hlist]
  exact hinv.solves hnone

end MeePdn
