import Mathlib.Data.Set.Finite.Lemmas
import MeePdn.DataLayer.Pod.MembershipView.View

/-!
# The view solves its rules

The rules of the membership view, stated of the view alone: which verdict a candidate gets by the
states the view shows, and which state a chain is in by the verdicts it gives. The evaluation
finds its answer point by point; what it returns meets these rules as a whole.

## Main definitions

* `IsCandidate` — an event that passes every check that reads no member's state.
* `DependsOn` — the points an event's verdict may rest on.
* `SolvesRules` — a view meets the rules.

## Main results

* `finalVerdict_eq` — the verdict of a candidate by the states the view shows.
* `finalState_succ` — the state after a sequence by the events that count there.
* `new_solvesRules` — **the view meets its rules**.
-/

namespace MeePdn

open Settling Classical Relation

/-! ## The rules -/

section

variable (prims : Primitives) (pod : PodId) (store : NamespaceId) (entries : List HeldEntry)

/-- An event that passes every check of `Alone::alone`. -/
def IsCandidate (event : Event) : Prop :=
  event ∈ (Parsed.of entries).events ∧
    Alone.alone prims pod store entries (Parsed.of entries)
      (Alone.of prims pod store entries (Parsed.of entries)).authors event = .ok ()

/-- An event depends on the candidates before it in its chain and on those of its actor's chain up
to the point it names. -/
def DependsOn (event other : Event) : Prop :=
  IsCandidate prims pod store entries other ∧
    (other.subject = event.subject ∧ other.seq < event.seq ∨
      other.subject = event.actor ∧ other.seq ≤ event.actorSeq)

/-- No candidate depends on itself. -/
def Acyclic : Prop :=
  ∀ event, IsCandidate prims pod store entries event →
    ¬ TransGen (DependsOn prims pod store entries) event event

/-- A held event lies at a sequence of a chain and counts. -/
def CountedAt (view : MembershipView) (member : PdnId) (seq : ℕ) (event : Event) : Prop :=
  event ∈ (Parsed.of entries).events ∧ event.point = (member, seq) ∧
    view.verdicts[event.entry]? = some .counted

/-- A view of some entries meets the rules of the membership view. -/
structure SolvesRules (view : MembershipView) : Prop where
  /-- Every candidate gets one of five verdicts. -/
  verdict : ∀ event, IsCandidate prims pod store entries event →
    ∃ verdict, view.verdicts[event.entry]? = some verdict ∧
      verdict ∈ [.counted, .countedForNothing .transitionNotAllowed,
        .countedForNothing .actorLacksState, .countedForNothing .lastOwnerKept,
        .countedForNothing .cyclic]
  /-- A transition is not allowed exactly when the state before does not allow it. -/
  transition : ∀ event, IsCandidate prims pod store entries event →
    (view.verdicts[event.entry]? = some (.countedForNothing .transitionNotAllowed) ↔
      ∃ before, view.stateAt event.subject (event.seq - 1) = some before ∧
        allows before event.kind = false)
  /-- What is allowed and not cyclic is judged on the actor's state at the point named. -/
  actor : ∀ event, IsCandidate prims pod store entries event →
    view.verdicts[event.entry]? ≠ some (.countedForNothing .transitionNotAllowed) →
    view.verdicts[event.entry]? ≠ some (.countedForNothing .cyclic) →
    (view.verdicts[event.entry]? = some (.countedForNothing .actorLacksState) ↔
      ∃ actor, view.stateAt event.actor event.actorSeq = some actor ∧
        Pass.needed event.kind actor = false)
  /-- Only a demotion keeps the last owner. -/
  kept : ∀ event ∈ (Parsed.of entries).events,
    view.verdicts[event.entry]? = some (.countedForNothing .lastOwnerKept) →
      event.kind = .demoted
  /-- The states shown are those of the runs. -/
  shown : ∀ member seq, (view.stateAt member seq).isSome ↔ seq ≤ (Parsed.of entries).run member
  /-- The state before a chain is the default one. -/
  start : ∀ member, view.stateAt member 0 = some default
  /-- The highest kind that counts at a sequence leaves its state. -/
  state : ∀ member seq, seq < (Parsed.of entries).run member → ∀ event,
    CountedAt entries view member (seq + 1) event →
    (∀ other, CountedAt entries view member (seq + 1) other → rank other.kind ≤ rank event.kind) →
      view.stateAt member (seq + 1) = some (apply event.kind)
  /-- Where nothing counts the state stays. -/
  unchanged : ∀ member seq, seq < (Parsed.of entries).run member →
    (∀ event, ¬ CountedAt entries view member (seq + 1) event) →
      view.stateAt member (seq + 1) = view.stateAt member seq
  /-- Without a loop of dependencies nothing is cyclic. -/
  acyclic : Acyclic prims pod store entries →
    ∀ i : ℕ, view.verdicts[i]? ≠ some (.countedForNothing .cyclic)

end

/-! ## Verdicts of the checks and of the passes -/

/-- The verdicts a pass gives. -/
def Verdict.ofPass (verdict : Verdict) : Prop :=
  verdict ∈ [.counted, .countedForNothing .transitionNotAllowed,
    .countedForNothing .actorLacksState, .countedForNothing .lastOwnerKept,
    .countedForNothing .cyclic]

instance : DecidablePred Verdict.ofPass := fun verdict =>
  inferInstanceAs (Decidable (verdict ∈ [_, _, _, _, _]))

variable {prims : Primitives} {pod : PodId} {store : NamespaceId} {entries : List HeldEntry}
  {orders : ℕ → HashOrder} {event : Event} {member : PdnId} {seq : ℕ}

lemma ofPass_finalVerdict {parsed : Parsed} (candidates : Candidates parsed)
    (setAside : Finset ℕ) (event : Event) : (candidates.finalVerdict setAside event).ofPass := by
  unfold Candidates.finalVerdict verdictOf Pass.judge
  split
  · exact (by decide : (Verdict.countedForNothing .transitionNotAllowed).ofPass)
  · exact (by decide : (Verdict.countedForNothing .cyclic).ofPass)
  · split_ifs <;> decide

/-- A check fails with no verdict of a pass. -/
def Clean {α : Type} (check : Except Verdict α) : Prop :=
  ∀ verdict, check = .error verdict → ¬ verdict.ofPass

lemma clean_ok {α : Type} (a : α) : Clean (.ok a : Except Verdict α) := by
  rintro _ ⟨⟩

lemma clean_error {α : Type} {verdict : Verdict} (h : ¬ verdict.ofPass) :
    Clean (.error verdict : Except Verdict α) := by
  rintro _ ⟨⟩
  exact h

lemma Clean.bind {α β : Type} {check : Except Verdict α} {rest : α → Except Verdict β}
    (h : Clean check) (hrest : ∀ a, Clean (rest a)) : Clean (check >>= rest) := by
  cases check with
  | error verdict => exact clean_error (h verdict rfl)
  | ok a => exact hrest a

lemma clean_payload (i : ℕ) : Clean (Alone.payload entries i) := by
  unfold Alone.payload
  split
  · exact clean_ok _
  all_goals exact clean_error (by decide)

lemma clean_creationAlone : Clean (Alone.creationAlone prims pod store entries event) := by
  unfold Alone.creationAlone
  dsimp only
  split_ifs
  · exact clean_error (by decide)
  · refine (clean_payload _).bind fun bytes => ?_
    split
    · exact clean_error (by decide)
    · split_ifs <;> first | exact clean_ok _ | exact clean_error (by decide)

lemma clean_joiningAlone : Clean (Alone.joiningAlone prims pod entries event) := by
  unfold Alone.joiningAlone
  dsimp only
  split_ifs
  · exact clean_error (by decide)
  · refine (clean_payload _).bind fun bytes => ?_
    split
    · exact clean_error (by decide)
    · split_ifs <;> first | exact clean_ok _ | exact clean_error (by decide)

lemma clean_kindAlone : Clean (Alone.kindAlone prims pod store entries event) := by
  unfold Alone.kindAlone
  split
  · exact clean_creationAlone
  · exact clean_joiningAlone
  all_goals first
    | exact clean_ok _
    | (split_ifs <;> first | exact clean_ok _ | exact clean_error (by decide))

/-- **The checks on one event fail with no verdict of a pass.** -/
lemma clean_alone {authors : PdnId → Finset AuthorId} :
    Clean (Alone.alone prims pod store entries (Parsed.of entries) authors event) := by
  unfold Alone.alone
  split
  · exact clean_error (by decide)
  · refine clean_kindAlone.bind fun _ => ?_
    dsimp only
    split_ifs <;> first | exact clean_ok _ | exact clean_error (by decide)

lemma statementVerdict_counted_or (keys : PdnId → Option (Bytes 32)) (statement : Statement) :
    Alone.statementVerdict prims pod entries keys statement = .counted ∨
      ¬ (Alone.statementVerdict prims pod entries keys statement).ofPass := by
  unfold Alone.statementVerdict
  split
  · next verdict hpayload => exact Or.inr (clean_payload _ verdict hpayload)
  · split
    · exact Or.inr (by decide)
    · split
      · exact Or.inr (by decide)
      · split_ifs
        · exact Or.inl rfl
        · exact Or.inr (by decide)

/-! ## Candidates -/

lemma isCandidate_iff :
    IsCandidate prims pod store entries event ↔
    event ∈ (candidatesOf prims pod store entries).list := by
  grind [mem_candidatesOf, IsCandidate, Alone.refusal]

lemma isCandidate_of_ofPass {verdict : Verdict} (hevent : event ∈ (Parsed.of entries).events)
    (h : (MembershipView.new prims orders pod store entries).verdicts[event.entry]? = some verdict)
    (hpass : verdict.ofPass) : event ∈ (candidatesOf prims pod store entries).list := by
  rcases hrefused : Alone.refusal prims pod store entries (Parsed.of entries)
    (checksOf prims pod store entries).authors event with _ | refused
  · exact mem_candidatesOf.mpr ⟨hevent, hrefused⟩
  · rw [verdict_new_refused hevent hrefused] at h
    obtain rfl := Option.some.inj h
    unfold Alone.refusal at hrefused
    split at hrefused
    · simp at hrefused
    · next heq => exact absurd (Option.some.inj hrefused ▸ hpass) (clean_alone _ heq)

/-- **A verdict of a pass, but that it counts, is that of a candidate.** -/
lemma exists_candidate_of_ofPass {i : ℕ} {verdict : Verdict}
    (h : (MembershipView.new prims orders pod store entries).verdicts[i]? = some verdict)
    (hpass : verdict.ofPass) (hne : verdict ≠ .counted) :
    ∃ event ∈ (candidatesOf prims pod store entries).list, event.entry = i := by
  by_cases hevent : ∃ event ∈ (Parsed.of entries).events, event.entry = i
  · obtain ⟨event, hevent, rfl⟩ := hevent
    exact ⟨event, isCandidate_of_ofPass hevent h hpass, rfl⟩
  by_cases hstatement : ∃ statement ∈ (Parsed.of entries).statements, statement.entry = i
  · grind [verdict_new_statement, statementVerdict_counted_or]
  · have hlen : (MembershipView.new prims orders pod store entries).verdicts.length =
        entries.length := length_verdicts_new
    have hlt : i < entries.length := hlen ▸ (List.getElem?_eq_some_iff.mp h).1
    rw [verdict_new_outside hlt (fun event hmem heq => hevent ⟨event, hmem, heq⟩)
      fun statement hmem heq => hstatement ⟨statement, hmem, heq⟩] at h
    rw [← Option.some.inj h] at hpass
    exact absurd hpass (by decide)

/-! ## The log's outcomes as verdicts and states -/

section Outcomes

variable {parsed : Parsed} {candidates : Candidates parsed} {setAside : Finset ℕ}

lemma finalVerdict_eq (hevent : event ∈ candidates.list) :
    candidates.finalVerdict setAside event = verdictOf setAside event (if membershipRules.allows
          (candidates.finalState setAside event.subject (event.seq - 1)) event.kind then
        if event ∈ (candidates.log setAside).cyclic membershipRules loopRounds then .looped
        else .judged (if membershipRules.reads event.kind then
          candidates.finalState setAside event.actor event.actorSeq else default)
      else .barred) := by
  unfold Candidates.finalVerdict
  rw [Log.result_eq hevent]
  rfl

lemma judge_ne (actor : MemberState) :
    Pass.judge setAside event actor ≠ .countedForNothing .transitionNotAllowed ∧
      Pass.judge setAside event actor ≠ .countedForNothing .cyclic := by
  unfold Pass.judge
  split_ifs <;> simp

/-- **A transition is not allowed** exactly when the state before does not allow it. -/
lemma finalVerdict_eq_transition_iff (hevent : event ∈ candidates.list) :
    candidates.finalVerdict setAside event = .countedForNothing .transitionNotAllowed ↔
      allows (candidates.finalState setAside event.subject (event.seq - 1)) event.kind = false := by
  rw [finalVerdict_eq hevent, ← Bool.not_eq_true]
  split_ifs with hallows hcyclic
  · exact ⟨fun h => by simp [verdictOf] at h, fun h => absurd hallows h⟩
  · exact ⟨fun h => absurd h (judge_ne _).1, fun h => absurd hallows h⟩
  · exact ⟨fun h => absurd h (judge_ne _).1, fun h => absurd hallows h⟩
  · exact ⟨fun _ => hallows, fun _ => rfl⟩

/-- **A candidate that is allowed** is cyclic, or judged on its actor's state. -/
lemma finalVerdict_of_allows (hevent : event ∈ candidates.list)
    (hallows : allows (candidates.finalState setAside event.subject (event.seq - 1)) event.kind =
      true) :
    candidates.finalVerdict setAside event =
      if event ∈ (candidates.log setAside).cyclic membershipRules loopRounds then
        .countedForNothing .cyclic
      else Pass.judge setAside event (if membershipRules.reads event.kind then
        candidates.finalState setAside event.actor event.actorSeq else default) := by
  have hallows' : membershipRules.allows (candidates.finalState setAside event.subject
    (event.seq - 1)) event.kind := hallows
  rw [finalVerdict_eq hevent, if_pos hallows']
  split_ifs <;> rfl

lemma finalVerdict_eq_cyclic_iff (hevent : event ∈ candidates.list) :
    candidates.finalVerdict setAside event = .countedForNothing .cyclic ↔
      event ∈ (candidates.log setAside).cyclic membershipRules loopRounds := by
  constructor
  · grind [finalVerdict_eq, verdictOf, judge_ne]
  · intro h
    unfold Candidates.finalVerdict
    rw [Log.result_of_mem_cyclic h]
    rfl

lemma mem_setAside_of_kept (hevent : event ∈ candidates.list)
    (h : candidates.finalVerdict setAside event = .countedForNothing .lastOwnerKept) :
    event.entry ∈ setAside := by
  have hjudge : ∀ actor, Pass.judge setAside event actor = .countedForNothing .lastOwnerKept →
      event.entry ∈ setAside := by grind [Pass.judge]
  rw [finalVerdict_eq hevent] at h
  split_ifs at h
  · simp [verdictOf] at h
  · exact hjudge _ h
  · exact hjudge _ h
  · simp [verdictOf] at h

lemma needed_actorState :
    Pass.needed event.kind (if membershipRules.reads event.kind then
      candidates.finalState setAside event.actor event.actorSeq else default) =
    Pass.needed event.kind (candidates.finalState setAside event.actor event.actorSeq) := by
  grind [reads_iff, Pass.needed]

/-- **The state after a sequence**, by the candidates that count there in the end. -/
lemma finalState_succ (hrun : seq < parsed.run member) :
    candidates.finalState setAside member (seq + 1) =
      membershipRules.after (candidates.finalState setAside member seq)
        (Event.kind '' {event | candidates.Counted setAside event ∧
          event.point = (member, seq + 1)}) := by
  unfold Candidates.finalState
  rw [Log.final_succ hrun]
  congr 1
  ext kind
  simp only [Set.mem_ofPred_eq, Set.mem_image, counts_iff]
  constructor
  · rintro ⟨e, ⟨he, hsubject, hseq⟩, hkind, hcounts⟩
    exact ⟨e, ⟨⟨he, hcounts⟩, Prod.ext hsubject hseq⟩, hkind⟩
  · rintro ⟨e, ⟨⟨he, hcounts⟩, hpoint⟩, hkind⟩
    exact ⟨e, ⟨he, (Prod.mk.inj hpoint).1, (Prod.mk.inj hpoint).2⟩, hkind, hcounts⟩

/-- **The highest kind that counts at a sequence leaves its state.** -/
lemma finalState_succ_eq_apply (hrun : seq < parsed.run member)
    (hcounted : candidates.Counted setAside event) (hpoint : event.point = (member, seq + 1))
    (hmax : ∀ e, candidates.Counted setAside e → e.point = (member, seq + 1) →
      rank e.kind ≤ rank event.kind) :
    candidates.finalState setAside member (seq + 1) = apply event.kind := by
  grind [finalState_succ, after_eq_apply]

lemma exists_highest (hrun : seq < parsed.run member)
    (hcounted : candidates.Counted setAside event) (hpoint : event.point = (member, seq + 1)) :
    ∃ top, candidates.Counted setAside top ∧ top.point = (member, seq + 1) ∧
      (∀ e, candidates.Counted setAside e → e.point = (member, seq + 1) →
        rank e.kind ≤ rank top.kind) ∧
      candidates.finalState setAside member (seq + 1) = apply top.kind := by
  obtain ⟨top, ⟨htop, htoppoint⟩, hmax⟩ := Set.exists_max_image
    {e | candidates.Counted setAside e ∧ e.point = (member, seq + 1)} (fun e => rank e.kind)
    (candidates.list.finite_toSet.subset fun e he => he.1.1) ⟨event, hcounted, hpoint⟩
  have hmax' : ∀ e, candidates.Counted setAside e → e.point = (member, seq + 1) →
      rank e.kind ≤ rank top.kind := fun e he hepoint => hmax e ⟨he, hepoint⟩
  exact ⟨top, htop, htoppoint, hmax', finalState_succ_eq_apply hrun htop htoppoint hmax'⟩

/-- **Where nothing counts at a sequence the state stays.** -/
lemma finalState_succ_eq_self (hrun : seq < parsed.run member)
    (hnone : ∀ e, candidates.Counted setAside e → e.point ≠ (member, seq + 1)) :
    candidates.finalState setAside member (seq + 1) =
      candidates.finalState setAside member seq := by grind [finalState_succ, after_eq_before]

lemma allows_of_counted (h : candidates.Counted setAside event) :
    allows (candidates.finalState setAside event.subject (event.seq - 1)) event.kind = true := by
  rw [← Bool.not_eq_false, ← finalVerdict_eq_transition_iff h.1, h.2]
  simp

/-- A candidate that counts is not cyclic, has an actor in the state its kind needs, and is not set
aside. -/
lemma judged_of_counted (h : candidates.Counted setAside event) :
    event ∉ (candidates.log setAside).cyclic membershipRules loopRounds ∧
      Pass.needed event.kind (candidates.finalState setAside event.actor event.actorSeq) = true ∧
      event.entry ∉ setAside := by
  have hverdict := h.2
  have hacyclic : event ∉ (candidates.log setAside).cyclic membershipRules loopRounds := by
    rw [← finalVerdict_eq_cyclic_iff h.1, hverdict]
    simp
  rw [finalVerdict_of_allows h.1 (allows_of_counted h), if_neg hacyclic, Pass.judge,
    needed_actorState] at hverdict
  refine ⟨hacyclic, ?_⟩
  split_ifs at hverdict with hneeded haside
  exact ⟨by simpa using hneeded, haside⟩

/-- **A candidate counts** when it is allowed, not cyclic, has an actor in the state its kind needs,
and is not set aside. -/
lemma counted_of (hevent : event ∈ candidates.list)
    (hallows : allows (candidates.finalState setAside event.subject (event.seq - 1)) event.kind =
      true) (hacyclic : event ∉ (candidates.log setAside).cyclic membershipRules loopRounds)
    (hneeded : Pass.needed event.kind (candidates.finalState setAside event.actor event.actorSeq) =
      true) (haside : event.entry ∉ setAside) : candidates.Counted setAside event := by
  refine ⟨hevent, ?_⟩
  rw [finalVerdict_of_allows hevent hallows, if_neg hacyclic, Pass.judge, needed_actorState,
    if_neg (by simp [hneeded]), if_neg haside]

end Outcomes

/-! ## The view -/

lemma countedAt_iff :
    CountedAt entries (MembershipView.new prims orders pod store entries) member seq event ↔
      (candidatesOf prims pod store entries).Counted (finalSet prims pod store entries) event ∧
        event.point = (member, seq) := by
  constructor
  · rintro ⟨hmem, hpoint, hcounted⟩
    have hcandidate := isCandidate_of_ofPass hmem hcounted (by decide)
    rw [verdict_new hcandidate] at hcounted
    exact ⟨⟨hcandidate, Option.some.inj hcounted⟩, hpoint⟩
  · rintro ⟨⟨hcandidate, hcounted⟩, hpoint⟩
    exact ⟨(mem_candidatesOf.mp hcandidate).1, hpoint, by rw [verdict_new hcandidate, hcounted]⟩

lemma exists_demoted_of_mem_guardSet {passes i : ℕ}
    (h : i ∈ guardSet prims pod store entries passes) :
    ∃ event ∈ (candidatesOf prims pod store entries).list, event.entry = i ∧
      event.kind = .demoted := by
  induction passes with
  | zero => simp [guardSet] at h
  | succ passes ih =>
    rcases mem_guardSet_succ.mp h with h | ⟨event, ⟨-, -, -, -, -, -, hcounted, -, hkind⟩, rfl⟩
    · exact ih h
    · exact ⟨event, hcounted.1, rfl, hkind⟩

lemma kind_of_mem_guardSet {passes : ℕ}
    (hevent : event ∈ (candidatesOf prims pod store entries).list)
    (h : event.entry ∈ guardSet prims pod store entries passes) : event.kind = .demoted := by
  obtain ⟨other, hother, hentry, hkind⟩ := exists_demoted_of_mem_guardSet h
  rwa [Parsed.eq_of_entry (mem_candidatesOf.mp hevent).1 (mem_candidatesOf.mp hother).1
    hentry.symm]

lemma dependsOn_log {setAside : Finset ℕ} :
    ((candidatesOf prims pod store entries).log setAside).DependsOn =
      DependsOn prims pod store entries := by
  funext event other
  rw [DependsOn, isCandidate_iff]
  rfl

lemma cyclic_eq_empty_of_acyclic (h : Acyclic prims pod store entries) (setAside : Finset ℕ) :
    ((candidatesOf prims pod store entries).log setAside).cyclic membershipRules loopRounds
      = ∅ := by
  refine Log.cyclic_eq_empty fun event hevent => ?_
  rw [dependsOn_log]
  exact h event (isCandidate_iff.mpr hevent)

variable (prims orders pod store entries) in
/-- **The view is a solution of its own rules.** -/
theorem new_solvesRules :
    SolvesRules prims pod store entries (MembershipView.new prims orders pod store entries) where
  verdict := fun event hevent => by
    rw [isCandidate_iff] at hevent
    refine ⟨_, verdict_new hevent, ?_⟩
    unfold Candidates.finalVerdict verdictOf Pass.judge
    split
    · simp
    · simp
    · split_ifs <;> simp
  transition := fun event hevent => by
    rw [isCandidate_iff] at hevent
    have hseq := (candidatesOf prims pod store entries).seq_le_run event hevent
    have hrun : event.seq - 1 ≤ (Parsed.of entries).run event.subject := by omega
    rw [verdict_new hevent, Option.some_inj, finalVerdict_eq_transition_iff hevent, stateAt_new,
      if_pos hrun]
    simp
  actor := fun event hevent hallowed hacyclic => by
    rw [isCandidate_iff] at hevent
    rw [verdict_new hevent, Ne, Option.some_inj] at hallowed hacyclic
    rw [finalVerdict_eq_transition_iff hevent, Bool.not_eq_false] at hallowed
    rw [finalVerdict_eq_cyclic_iff hevent] at hacyclic
    rw [verdict_new hevent, Option.some_inj, finalVerdict_of_allows hevent hallowed,
      if_neg hacyclic, stateAt_new,
      if_pos ((candidatesOf prims pod store entries).actorSeq_le_run event hevent), Pass.judge,
      needed_actorState]
    split_ifs with hneeded haside
    · simpa using hneeded
    · simpa using hneeded
    · simpa using hneeded
  kept := fun event hevent hkept => by
    have hcandidate := isCandidate_of_ofPass hevent hkept (by decide)
    rw [verdict_new hcandidate, Option.some_inj] at hkept
    exact kind_of_mem_guardSet hcandidate (mem_setAside_of_kept hcandidate hkept)
  shown := fun member seq => by
    rw [stateAt_new]
    split_ifs with hrun <;> simp [hrun]
  start := fun member => by
    rw [stateAt_new, if_pos (Nat.zero_le _), Candidates.finalState, Log.final_zero]
    rfl
  state := fun member seq hrun event hcounted hmax => by
    obtain ⟨hcounted, hpoint⟩ := countedAt_iff.mp hcounted
    rw [stateAt_new, if_pos (Nat.succ_le_of_lt hrun),
      finalState_succ_eq_apply hrun hcounted hpoint fun other hother hopoint =>
        hmax other (countedAt_iff.mpr ⟨hother, hopoint⟩)]
  unchanged := fun member seq hrun hnone => by
    rw [stateAt_new, stateAt_new, if_pos (Nat.succ_le_of_lt hrun), if_pos hrun.le,
      finalState_succ_eq_self hrun fun event hevent hpoint =>
        hnone event (countedAt_iff.mpr ⟨hevent, hpoint⟩)]
  acyclic := fun hacyclic i hi => by
    obtain ⟨event, hevent, rfl⟩ := exists_candidate_of_ofPass hi (by decide) (by decide)
    rw [verdict_new hevent, Option.some_inj, finalVerdict_eq_cyclic_iff hevent,
      cyclic_eq_empty_of_acyclic hacyclic] at hi
    exact hi

end MeePdn
