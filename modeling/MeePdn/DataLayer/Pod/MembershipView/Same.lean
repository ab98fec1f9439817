import MeePdn.DataLayer.Pod.Testing
import MeePdn.DataLayer.Pod.MembershipView.Growth

/-!
# Views over the same entries

Two lists of entries, compared event by event: where their candidates correspond in a region of
points that is closed under what they read, the views agree there. Lists that hold the same
entries, in whatever order and however often, make the same view.

## Main definitions

* `Corresponds` — candidates of two lists that are one event.
* `SetAsideIff` — the same entries are set aside of two lists.

## Main results

* `simulates_of_corresponds` — candidates that correspond in a closed region simulate each other.
* `Agrees.finalState_eq`, `Agrees.finalVerdict_eq` — the views agree there.
* `shownMember_eq`, `verdict_eq` — **lists that hold the same entries make the same view**.
* `new_perm` — the view does not depend on the order of the entries.
-/

namespace MeePdn

open Settling Classical

section

variable (prims : Primitives) (pod : PodId) (store : NamespaceId)

/-- Two candidates, one of each list, are one event. -/
def Corresponds (entries entries' : List HeldEntry) (event event' : Event) : Prop :=
  event ∈ (candidatesOf prims pod store entries).list ∧
    event' ∈ (candidatesOf prims pod store entries').list ∧ Moved entries entries' event event'

/-- The same entries are set aside of both lists. -/
def SetAsideIff (entries entries' : List HeldEntry) (setAside setAside' : Finset ℕ) : Prop :=
  ∀ i i', SameEntry entries entries' i i' → (i ∈ setAside ↔ i' ∈ setAside')

/-- The logs of two lists of entries, some demotions set aside, hold the same events in a region. -/
abbrev Agrees (entries entries' : List HeldEntry) (setAside setAside' : Finset ℕ)
    (R : PdnId → ℕ → Prop) : Prop :=
  Simulates membershipRules ((candidatesOf prims pod store entries).log setAside)
    ((candidatesOf prims pod store entries').log setAside') R
    (Corresponds prims pod store entries entries')

end

variable {prims : Primitives} {pod : PodId} {store : NamespaceId}
  {entries entries' : List HeldEntry} {setAside setAside' : Finset ℕ} {R : PdnId → ℕ → Prop}
  {event event' : Event}

/-! ## Candidates that correspond -/

lemma Moved.judge_eq (h : Moved entries entries' event event')
    (hiff : event.entry ∈ setAside ↔ event'.entry ∈ setAside') (actor : MemberState) :
    Pass.judge setAside' event' actor = Pass.judge setAside event actor := by
  unfold Pass.judge
  rw [h.kind]
  simp only [hiff]

/-- **Candidates that correspond in a closed region simulate each other there.** -/
lemma simulates_of_corresponds (hdown : ∀ x s, R x (s + 1) → R x s)
    (hrun : ∀ x s, R x (s + 1) →
      (s < (Parsed.of entries).run x ↔ s < (Parsed.of entries').run x))
    (haside : ∀ e e', Corresponds prims pod store entries entries' e e' → R e.subject e.seq →
      (e.entry ∈ setAside ↔ e'.entry ∈ setAside'))
    (hleft : ∀ e ∈ (candidatesOf prims pod store entries).list, R e.subject e.seq →
      ∃ e', Corresponds prims pod store entries entries' e e')
    (hright : ∀ e' ∈ (candidatesOf prims pod store entries').list, R e'.subject e'.seq →
      ∃ e, Corresponds prims pod store entries entries' e e')
    (hclosed : ∀ e ∈ (candidatesOf prims pod store entries).list, R e.subject e.seq →
      membershipRules.reads e.kind → R e.actor e.actorSeq) :
    Agrees prims pod store entries entries' setAside setAside' R where
  down := hdown
  run_iff := hrun
  event := fun _ _ h => h.1
  event' := fun _ _ h => h.2.1
  subject := fun _ _ h => h.2.2.subject.symm
  seq := fun _ _ h => h.2.2.seq.symm
  kind := fun _ _ h => h.2.2.kind.symm
  actor := fun _ _ h => h.2.2.actor.symm
  actorSeq := fun _ _ h => h.2.2.actorSeq.symm
  counts := fun e e' h hR actor => by
    show Pass.judge setAside e actor = .counted ↔ Pass.judge setAside' e' actor = .counted
    rw [h.2.2.judge_eq (haside e e' h hR)]
  left := hleft
  right := hright
  closed := fun e e' h => hclosed e h.1

namespace Agrees

lemma finalState_eq (h : Agrees prims pod store entries entries' setAside setAside' R)
    (member : PdnId) (seq : ℕ) (hR : R member seq) :
    (candidatesOf prims pod store entries).finalState setAside member seq =
      (candidatesOf prims pod store entries').finalState setAside' member seq :=
  h.final_eq hR

lemma finalVerdict_eq_next (h : Agrees prims pod store entries entries' setAside setAside' R)
    (hcorr : Corresponds prims pod store entries entries' event event')
    (hnext : Simulates.NextTo membershipRules ((candidatesOf prims pod store entries).log setAside)
      R event) (haside : event.entry ∈ setAside ↔ event'.entry ∈ setAside') :
    (candidatesOf prims pod store entries).finalVerdict setAside event =
      (candidatesOf prims pod store entries').finalVerdict setAside' event' := by
  unfold Candidates.finalVerdict
  rw [h.result_eq_next hcorr hnext]
  unfold verdictOf
  split
  · rfl
  · rfl
  · exact (hcorr.2.2.judge_eq haside _).symm

lemma finalVerdict_eq (h : Agrees prims pod store entries entries' setAside setAside' R)
    (hcorr : Corresponds prims pod store entries entries' event event')
    (hR : R event.subject event.seq) (haside : event.entry ∈ setAside ↔ event'.entry ∈ setAside') :
    (candidatesOf prims pod store entries).finalVerdict setAside event =
      (candidatesOf prims pod store entries').finalVerdict setAside' event' :=
  h.finalVerdict_eq_next hcorr (h.nextTo hcorr hR) haside

end Agrees

/-! ## Lists that hold the same entries -/

section Same

variable (hinj : prims.Injective) (hsub : entries ⊆ entries') (hsup : entries' ⊆ entries)

include hsub hsup in
lemma run_eq (member : PdnId) :
    (Parsed.of entries').run member = (Parsed.of entries).run member :=
  le_antisymm (run_mono hsup member) (run_mono hsub member)

include hinj hsub hsup in
lemma keys_eq : (checksOf prims pod store entries').keys =
    (checksOf prims pod store entries).keys := by
  funext member
  exact Option.ext fun key => ⟨keys_mono hinj (holdsEvents_of_subset hsup),
    keys_mono hinj (holdsEvents_of_subset hsub)⟩

include hinj hsub hsup in
lemma devices_eq : (checksOf prims pod store entries').devices =
    (checksOf prims pod store entries).devices :=
  funext fun member => (devices_mono hinj hsup member).antisymm (devices_mono hinj hsub member)

include hinj hsub hsup in
lemma authors_eq : (checksOf prims pod store entries').authors =
    (checksOf prims pod store entries).authors :=
  funext fun member => (authors_mono hinj hsup member).antisymm (authors_mono hinj hsub member)

include hinj hsub hsup in
lemma statementVersions_eq : (checksOf prims pod store entries').statementVersions =
    (checksOf prims pod store entries).statementVersions :=
  funext fun member =>
    (statementVersions_mono hinj hsup member).antisymm (statementVersions_mono hinj hsub member)

include hinj hsub hsup in
/-- **The logs agree everywhere**, the same entries set aside. -/
lemma agrees_same (haside : SetAsideIff entries entries' setAside setAside') :
    Agrees prims pod store entries entries' setAside setAside' fun _ _ => True := by
  refine simulates_of_corresponds (fun _ _ h => h) (fun x s _ => ?_) (fun e e' h _ => ?_)
    (fun e he _ => ?_) (fun e' he' _ => ?_) fun _ _ _ _ => trivial
  · rw [run_eq hsub hsup]
  · exact haside _ _ h.2.2.1
  · obtain ⟨e', -, hmoved⟩ := Moved.exists_of_subset hsub (mem_candidatesOf.mp he).1
    exact ⟨e', he, hmoved.candidate_mono hinj hsub he, hmoved⟩
  · obtain ⟨e, -, hmoved⟩ := Moved.exists_of_subset hsup (mem_candidatesOf.mp he').1
    exact ⟨e, hmoved.candidate_mono hinj hsup he', he', hmoved.symm⟩

/-! ### The guard -/

lemma SetAsideIff.symm (h : SetAsideIff entries entries' setAside setAside') :
    SetAsideIff entries' entries setAside' setAside := fun i' i hsame => (h i i' hsame.symm).symm

include hinj hsub hsup in
lemma Moved.counted (haside : SetAsideIff entries entries' setAside setAside')
    (hmoved : Moved entries entries' event event')
    (h : (candidatesOf prims pod store entries).Counted setAside event) :
    (candidatesOf prims pod store entries').Counted setAside' event' := by
  have hcorr : Corresponds prims pod store entries entries' event event' :=
    ⟨h.1, hmoved.candidate_mono hinj hsub h.1, hmoved⟩
  refine ⟨hcorr.2.1, ?_⟩
  rw [← (agrees_same hinj hsub hsup haside).finalVerdict_eq hcorr trivial (haside _ _ hmoved.1)]
  exact h.2

include hinj hsub hsup in
lemma exists_counted (haside : SetAsideIff entries entries' setAside setAside')
    (h : (candidatesOf prims pod store entries).Counted setAside event) :
    ∃ event', (candidatesOf prims pod store entries').Counted setAside' event' ∧
      Moved entries entries' event event' := by
  obtain ⟨event', -, hmoved⟩ := Moved.exists_of_subset hsub (mem_candidatesOf.mp h.1).1
  exact ⟨event', hmoved.counted hinj hsub hsup haside h, hmoved⟩

include hinj hsub hsup in
lemma hasOwner_same (haside : SetAsideIff entries entries' setAside setAside')
    (h : (candidatesOf prims pod store entries).HasOwner setAside) :
    (candidatesOf prims pod store entries').HasOwner setAside' := by
  obtain ⟨member, howner⟩ := h
  refine ⟨member, ?_⟩
  rw [run_eq hsub hsup,
    ← (agrees_same hinj hsub hsup haside).finalState_eq member _ trivial]
  exact howner

lemma Moved.point_eq (h : Moved entries entries' event event') : event'.point = event.point := by
  rw [Event.point, Event.point, h.subject, h.seq]

include hinj hsub hsup in
/-- An ownership ended by one list did by the other. -/
lemma ended_same (haside : SetAsideIff entries entries' setAside setAside')
    {member actor : PdnId} {seq : ℕ}
    (h : (candidatesOf prims pod store entries).Ended setAside member seq actor) :
    (candidatesOf prims pod store entries').Ended setAside' member seq actor where
  remains := by
    rw [run_eq hsub hsup,
      ← (agrees_same hinj hsub hsup haside).finalState_eq member _ trivial]
    exact h.remains
  latest := fun event' hcounted hsubject => by
    obtain ⟨event, hcounted', hmoved⟩ := exists_counted hinj hsup hsub haside.symm hcounted
    rw [← hmoved.seq]
    exact h.latest event hcounted' (hmoved.subject.trans hsubject)
  demoted := fun event' hcounted hpoint => by
    obtain ⟨event, hcounted', hmoved⟩ := exists_counted hinj hsup hsub haside.symm hcounted
    rw [← hmoved.kind]
    exact h.demoted event hcounted' (hmoved.point_eq.trans hpoint)
  lowest := by
    obtain ⟨⟨event, hcounted, hpoint, hkind, hactor⟩, hlowest⟩ := h.lowest
    refine ⟨?_, ?_⟩
    · obtain ⟨event', hcounted', hmoved⟩ := exists_counted hinj hsub hsup haside hcounted
      exact ⟨event', hcounted', hmoved.point_eq.trans hpoint, hmoved.kind.trans hkind,
        hmoved.actor.trans hactor⟩
    · rintro _ ⟨event', hcounted', hpoint', hkind', rfl⟩
      obtain ⟨event, hcounted, hmoved⟩ := exists_counted hinj hsup hsub haside.symm hcounted'
      rw [← hmoved.actor]
      exact hlowest ⟨event, hcounted, hmoved.point_eq.trans hpoint', hmoved.kind.trans hkind', rfl⟩

include hinj hsub hsup in
lemma Moved.spared (haside : SetAsideIff entries entries' setAside setAside')
    (hmoved : Moved entries entries' event event')
    (h : (candidatesOf prims pod store entries).Spared setAside event) :
    (candidatesOf prims pod store entries').Spared setAside' event' := by
  obtain ⟨hnone, member, seq, actor, hended, hmax, hcounted, hpoint, hkind⟩ := h
  refine ⟨fun howner => hnone (hasOwner_same hinj hsup hsub haside.symm howner), member, seq, actor,
    ended_same hinj hsub hsup haside hended, fun m s a hended' => ?_,
    hmoved.counted hinj hsub hsup haside hcounted, hmoved.point_eq.trans hpoint,
    hmoved.kind.trans hkind⟩
  exact hmax m s a (ended_same hinj hsup hsub haside.symm hended')

include hinj hsub hsup in
/-- **Pass by pass the guard sets the same entries aside.** -/
lemma guardSet_same (passes : ℕ) :
    SetAsideIff entries entries' (guardSet prims pod store entries passes)
      (guardSet prims pod store entries' passes) := by
  induction passes with
  | zero => exact fun i i' _ => by simp [guardSet]
  | succ passes ih =>
    intro i i' hsame
    rw [mem_guardSet_succ, mem_guardSet_succ]
    refine or_congr (ih i i' hsame) ⟨?_, ?_⟩
    · rintro ⟨event, hspared, rfl⟩
      have hmoved : Moved entries entries' event { event with entry := i' } := ⟨hsame, rfl⟩
      exact ⟨_, hmoved.spared hinj hsub hsup ih hspared, rfl⟩
    · rintro ⟨event', hspared, rfl⟩
      have hmoved : Moved entries' entries event' { event' with entry := i } := ⟨hsame.symm, rfl⟩
      exact ⟨_, hmoved.spared hinj hsup hsub ih.symm hspared, rfl⟩

/-! ### The views -/

include hinj hsub hsup in
lemma agrees_finalSet :
    Agrees prims pod store entries entries' (finalSet prims pod store entries)
      (finalSet prims pod store entries') fun _ _ => True :=
  agrees_same hinj hsub hsup (guardSet_same hinj hsub hsup _)

include hinj hsub hsup in
/-- **What the view shows of an identity** is the same. -/
lemma shownMember_eq (member : PdnId) :
    shownMember prims pod store entries' member = shownMember prims pod store entries member := by
  have hstate : ∀ seq, (candidatesOf prims pod store entries').finalState
      (finalSet prims pod store entries') member seq =
        (candidatesOf prims pod store entries).finalState (finalSet prims pod store entries) member
          seq := fun seq => ((agrees_finalSet hinj hsub hsup).finalState_eq member seq trivial).symm
  unfold shownMember
  simp only [hstate, run_eq hsub hsup, keys_eq hinj hsub hsup, devices_eq hinj hsub hsup,
    statementVersions_eq hinj hsub hsup]

include hsub hsup in
/-- The identities the store names are the same. -/
lemma identities_eq :
    Pass.identities (Parsed.of entries') = Pass.identities (Parsed.of entries) := by
  have hmono : ∀ {l l' : List HeldEntry}, l ⊆ l' → ∀ {member : PdnId},
      member ∈ Pass.identities (Parsed.of l) → member ∈ Pass.identities (Parsed.of l') := by
    intro l l' hl member hmember
    refine mem_identities.mpr ((mem_identities.mp hmember).imp (fun hchain => ?_) ?_)
    · obtain ⟨event, hevent, hsubject⟩ := Parsed.mem_chains.mp hchain
      obtain ⟨event', hevent', hmoved⟩ := Moved.exists_of_subset hl hevent
      exact Parsed.mem_chains.mpr ⟨event', hevent', hmoved.subject.trans hsubject⟩
    · grind [exists_statement_of_subset]
  have hsorted : ∀ l : List HeldEntry, (Pass.identities (Parsed.of l)).Pairwise (· ≤ ·) :=
    fun l => List.pairwise_insertionSort _ _
  have hnodup : ∀ l : List HeldEntry, (Pass.identities (Parsed.of l)).Nodup :=
    fun l => Pass.identities_nodup _
  refine List.Perm.eq_of_pairwise' (hsorted entries') (hsorted entries) ?_
  exact (List.perm_ext_iff_of_nodup (hnodup entries') (hnodup entries)).mpr fun member =>
    ⟨hmono hsup, hmono hsub⟩

include hinj hsub hsup in
/-- **The members shown** are the same. -/
lemma members_eq (orders orders' : ℕ → HashOrder) :
    (MembershipView.new prims orders' pod store entries').members =
      (MembershipView.new prims orders pod store entries).members := by
  rw [members_new, members_new, identities_eq hsub hsup]
  exact List.map_congr_left fun member _ => by rw [shownMember_eq hinj hsub hsup]

include hinj hsub hsup in
/-- **An entry gets one verdict**, wherever it lies.

**Proof sketch.** A candidate gets the verdict of the log's outcome; any other event, and any
statement, the one of its own checks, which read the same keys, authors and runs. -/
lemma verdict_eq (orders orders' : ℕ → HashOrder) {i i' : ℕ}
    (hsame : SameEntry entries entries' i i') :
    (MembershipView.new prims orders' pod store entries').verdicts[i']? =
      (MembershipView.new prims orders pod store entries).verdicts[i]? := by
  obtain ⟨held, hi, hi'⟩ := hsame
  rcases hevent : Parsed.eventAt (held, i) with _ | event
  · have hevents : ∀ {l : List HeldEntry} {j : ℕ}, l[j]? = some held →
        ∀ event ∈ (Parsed.of l).events, event.entry ≠ j := by
      rintro l j hj event hmem rfl
      obtain ⟨held', hheld', hat⟩ := Parsed.mem_events.mp hmem
      obtain rfl := Option.some.inj (hj.symm.trans hheld')
      simpa [hevent] using Parsed.eventAt_moved hat i
    rcases hstatement : Parsed.statementAt (held, i) with _ | statement
    · have hstatements : ∀ {l : List HeldEntry} {j : ℕ}, l[j]? = some held →
          ∀ statement ∈ (Parsed.of l).statements, statement.entry ≠ j := by
        rintro l j hj statement hmem rfl
        obtain ⟨held', hheld', hat⟩ := Parsed.mem_statements.mp hmem
        obtain rfl := Option.some.inj (hj.symm.trans hheld')
        simpa [hstatement] using Parsed.statementAt_moved hat i
      rw [verdict_new_outside (List.getElem?_eq_some_iff.mp hi).1 (hevents hi) (hstatements hi),
        verdict_new_outside (List.getElem?_eq_some_iff.mp hi').1 (hevents hi') (hstatements hi')]
    · obtain rfl := Parsed.entry_statementAt hstatement
      have hmem : statement ∈ (Parsed.of entries).statements :=
        Parsed.mem_statements.mpr ⟨held, hi, hstatement⟩
      have hmem' : { statement with entry := i' } ∈ (Parsed.of entries').statements :=
        Parsed.mem_statements.mpr ⟨held, hi', Parsed.statementAt_moved hstatement i'⟩
      have hsame : SameEntry entries entries' statement.entry i' := ⟨held, hi, hi'⟩
      rw [verdict_new_statement hmem, verdict_new_statement hmem',
        hsame.statementVerdict_eq (by rw [keys_eq hinj hsub hsup])]
  · obtain rfl := Parsed.entry_eventAt hevent
    have hmem : event ∈ (Parsed.of entries).events := Parsed.mem_events.mpr ⟨held, hi, hevent⟩
    have hmoved : Moved entries entries' event { event with entry := i' } := ⟨⟨held, hi, hi'⟩, rfl⟩
    have hrefusal : Alone.refusal prims pod store entries' (Parsed.of entries')
        (checksOf prims pod store entries').authors { event with entry := i' } = Alone.refusal
          prims pod store entries (Parsed.of entries) (checksOf prims pod store entries).authors
          event :=
      hmoved.refusal_eq (by rw [authors_eq hinj hsub hsup]) (run_eq hsub hsup _)
        (run_eq hsub hsup _)
    rcases hrefused : Alone.refusal prims pod store entries (Parsed.of entries)
      (checksOf prims pod store entries).authors event with _ | verdict
    · have hcandidate := mem_candidatesOf.mpr ⟨hmem, hrefused⟩
      have hcandidate' := hmoved.candidate_mono hinj hsub hcandidate
      have hverdict := (agrees_finalSet hinj hsub hsup).finalVerdict_eq
        ⟨hcandidate, hcandidate', hmoved⟩ trivial (guardSet_same hinj hsub hsup _ _ _ hmoved.1)
      rw [verdict_new hcandidate, hverdict, ← verdict_new hcandidate']
    · rw [verdict_new_refused hmem hrefused,
        verdict_new_refused (hmoved.mem_events hmem) (hrefusal.trans hrefused)]

end Same

/-- **The view does not depend on the order of the entries**, nor on that of the hash maps: the
same entries in another order make the same members, and each entry gets the verdict it got. -/
theorem new_perm (hinj : prims.Injective) (orders orders' : ℕ → HashOrder) (pod : PodId)
    (store : NamespaceId) (entries entries' : List HeldEntry)
    (σ : Fin entries'.length ≃ Fin entries.length) (hσ : ∀ i, entries'.get i = entries.get (σ i)) :
    (MembershipView.new prims orders' pod store entries').members =
        (MembershipView.new prims orders pod store entries).members ∧
      ∀ i, ∃ verdict,
        (MembershipView.new prims orders' pod store entries').verdicts[i.val]? = some verdict ∧
        (MembershipView.new prims orders pod store entries).verdicts[(σ i).val]? =
          some verdict := by
  have hsub : entries ⊆ entries' := by
    intro held hheld
    obtain ⟨j, rfl⟩ := List.get_of_mem hheld
    rw [← σ.apply_symm_apply j, ← hσ]
    exact List.get_mem _ _
  have hsup : entries' ⊆ entries := by
    intro held hheld
    obtain ⟨i, rfl⟩ := List.get_of_mem hheld
    rw [hσ]
    exact List.get_mem _ _
  refine ⟨members_eq hinj hsub hsup orders orders', fun i => ?_⟩
  have hsame : SameEntry entries entries' (σ i) i :=
    ⟨entries.get (σ i), by simp, by rw [← hσ]; simp⟩
  have hlt : (σ i).val <
      (MembershipView.new prims orders pod store entries).verdicts.length := by
    rw [length_verdicts_new]
    exact (σ i).isLt
  refine ⟨_, ?_, List.getElem?_eq_getElem hlt⟩
  rw [verdict_eq hinj hsub hsup orders orders' hsame, List.getElem?_eq_getElem hlt]

/-- A pod with one member beside its creator, its entries in reverse. -/
theorem new_perm_reverse :
    let family := (Testing.Store.createdBy Testing.alice).invite Testing.alice 1 Testing.bob
    (MembershipView.new Testing.transparent (fun _ => default) family.pod family.namespaceId
        family.entries.reverse).members = family.membershipView.members ∧
      ∀ i : Fin 3, ∃ verdict,
        (MembershipView.new Testing.transparent (fun _ => default) family.pod family.namespaceId
          family.entries.reverse).verdicts[i.val]? = some verdict ∧
        family.membershipView.verdicts[(Fin.revPerm i).val]? = some verdict :=
  new_perm Testing.transparent_injective (fun _ => default) (fun _ => default) _ _
    ((Testing.Store.createdBy Testing.alice).invite Testing.alice 1 Testing.bob).entries
    ((Testing.Store.createdBy Testing.alice).invite Testing.alice 1 Testing.bob).entries.reverse
    (Fin.revPerm : Equiv.Perm (Fin 3)) (by decide +kernel)

end MeePdn
