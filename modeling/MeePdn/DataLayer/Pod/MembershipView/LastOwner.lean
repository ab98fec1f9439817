import MeePdn.DataLayer.Pod.MembershipView.Rooted
import MeePdn.DataLayer.Pod.Testing

/-!
# When the guard acts, and that it works

The guard sets demotions aside only after a pass that leaves nobody owning the pod. Those it sets
aside lie at one sequence, so the next pass meets them in the states they met before: each now
keeps the last owner. And where nothing that counts again can undo it, the pass after shows an
owner.

## Main definitions

* `LatestDemotion` — a member's latest counted event is a demotion.

## Main results

* `Candidates.Spared.finalVerdict_eq` — what is set aside after a pass keeps the last owner in the
  next.
* `finalSet_eq_empty` — where no verdict says the last owner was kept, nothing is set aside.
* `guard_spec` — **the guard acts only when needed, and works when it acts**.
-/

namespace MeePdn

open Settling Classical Relation

/-! ## One step of the guard -/

section Step

variable {parsed : Parsed} {candidates : Candidates parsed} {setAside setAside' : Finset ℕ}
  {event : Event}

/-- Logs that differ in what is set aside at one sequence. -/
lemma sameBut_log {member : PdnId} {seq : ℕ}
    (h : ∀ e ∈ candidates.list, e.point ≠ (member, seq) →
      (e.entry ∈ setAside ↔ e.entry ∈ setAside')) :
    SameBut (candidates.log setAside) (candidates.log setAside') member seq where
  events := rfl
  subject := rfl
  seq := rfl
  kind := rfl
  actor := rfl
  actorSeq := rfl
  run := rfl
  counts := fun e he hat => by
    have hne : e.point ≠ (member, seq) := fun hpoint =>
      hat ⟨he, (Prod.mk.inj hpoint).1, (Prod.mk.inj hpoint).2⟩
    funext actor
    show (Pass.judge setAside e actor = .counted) = (Pass.judge setAside' e actor = .counted)
    unfold Pass.judge
    simp only [h e he hne]

lemma Candidates.Spared.point_eq {event' : Event} (h : candidates.Spared setAside event)
    (h' : candidates.Spared setAside event') : event.point = event'.point := by
  obtain ⟨-, member, seq, actor, hended, hmax, -, hpoint, -⟩ := h
  obtain ⟨-, member', seq', actor', hended', hmax', -, hpoint', -⟩ := h'
  obtain ⟨rfl, rfl⟩ := hended.eq_of_last hmax hended' hmax'
  rw [hpoint, hpoint']

/-- `setAside'` is what is set aside after the pass with `setAside`. -/
def Candidates.Next (candidates : Candidates parsed) (setAside setAside' : Finset ℕ) : Prop :=
  ∀ e ∈ candidates.list, e.entry ∈ setAside' ↔ e.entry ∈ setAside ∨ candidates.Spared setAside e

lemma Candidates.Spared.sameBut (h : candidates.Spared setAside event)
    (hnext : candidates.Next setAside setAside') :
    SameBut (candidates.log setAside) (candidates.log setAside') event.subject event.seq := by
  refine sameBut_log fun e he hne => ?_
  rw [hnext e he]
  refine ⟨Or.inl, fun hor => hor.resolve_right fun hspared => hne ?_⟩
  exact hspared.point_eq h

/-- **What is set aside after a pass keeps the last owner in the next.** -/
lemma Candidates.Spared.finalVerdict_eq (h : candidates.Spared setAside event)
    (hnext : candidates.Next setAside setAside') :
    candidates.finalVerdict setAside' event = .countedForNothing .lastOwnerKept := by
  obtain ⟨-, -, -, -, -, -, ⟨hevent, hcounted⟩, -⟩ := id h
  unfold Candidates.finalVerdict at hcounted ⊢
  rw [(h.sameBut hnext).result_eq ⟨hevent, rfl, rfl⟩] at hcounted
  cases hresult : (candidates.log setAside').result membershipRules loopRounds event with
  | barred => simp [hresult, verdictOf] at hcounted
  | looped => simp [hresult, verdictOf] at hcounted
  | judged actor =>
    have haside : event.entry ∈ setAside' := (hnext event hevent).mpr (Or.inr h)
    simp only [hresult, verdictOf, Pass.judge] at hcounted ⊢
    split_ifs at hcounted with hneeded
    rw [if_neg (not_not.mpr hneeded), if_pos haside]

/-- An event of the sequence that counts after the step did before, and was not set aside by it. -/
lemma Candidates.Spared.counted_of_next {other : Event} (h : candidates.Spared setAside event)
    (hnext : candidates.Next setAside setAside') (hpoint : other.point = event.point)
    (hcounted : candidates.Counted setAside' other) :
    candidates.Counted setAside other ∧ ¬ candidates.Spared setAside other := by
  have haside := (judged_of_counted hcounted).2.2
  obtain ⟨hother, hverdict⟩ := hcounted
  rw [hnext other hother, not_or] at haside
  refine ⟨⟨hother, ?_⟩, haside.2⟩
  unfold Candidates.finalVerdict at hverdict ⊢
  rw [(h.sameBut hnext).result_eq ⟨hother, (Prod.mk.inj hpoint).1, (Prod.mk.inj hpoint).2⟩]
  cases hresult : (candidates.log setAside').result membershipRules loopRounds other with
  | barred => simp [hresult, verdictOf] at hverdict
  | looped => simp [hresult, verdictOf] at hverdict
  | judged actor => grind [verdictOf, Pass.judge]

end Step

/-! ## The guard's passes -/

variable {prims : Primitives} {pod : PodId} {store : NamespaceId} {entries : List HeldEntry}
  {orders : ℕ → HashOrder} {event : Event}

variable (prims pod store entries) in
lemma next_guardSet (passes : ℕ) :
    (candidatesOf prims pod store entries).Next (guardSet prims pod store entries passes)
      (guardSet prims pod store entries (passes + 1)) := by
  intro e he
  rw [mem_guardSet_succ]
  refine or_congr_right ⟨?_, fun h => ⟨e, h, rfl⟩⟩
  rintro ⟨event, hspared, hentry⟩
  obtain ⟨-, -, -, -, -, -, hcounted, -⟩ := id hspared
  rwa [← Parsed.eq_of_entry (mem_candidatesOf.mp hcounted.1).1 (mem_candidatesOf.mp he).1 hentry]

lemma guardSet_add_eq {passes : ℕ}
    (h : ∀ event, ¬ (candidatesOf prims pod store entries).Spared
      (guardSet prims pod store entries passes) event) (more : ℕ) :
    guardSet prims pod store entries (passes + more) = guardSet prims pod store entries passes := by
  induction more with
  | zero => rfl
  | succ more ih => grind [mem_guardSet_succ]

lemma guardSet_add_eq_of_hasOwner {passes : ℕ}
    (h : (candidatesOf prims pod store entries).HasOwner
      (guardSet prims pod store entries passes)) (more : ℕ) :
    guardSet prims pod store entries (passes + more) = guardSet prims pod store entries passes :=
  guardSet_add_eq (fun _ hspared => hspared.1 h) more

lemma finalSet_eq_empty_of_hasOwner (h : (candidatesOf prims pod store entries).HasOwner ∅) :
    finalSet prims pod store entries = ∅ := by
  have hsome : (candidatesOf prims pod store entries).HasOwner
      (guardSet prims pod store entries 0) := h
  have hstays := guardSet_add_eq_of_hasOwner hsome (guardPasses - 1)
  rwa [Nat.zero_add] at hstays

/-- **Where demotions are set aside, one keeps the last owner.** -/
lemma exists_kept {passes : ℕ} (h : guardSet prims pod store entries passes ≠ ∅) :
    ∃ event ∈ (candidatesOf prims pod store entries).list,
      (candidatesOf prims pod store entries).finalVerdict
        (guardSet prims pod store entries passes) event = .countedForNothing .lastOwnerKept := by
  induction passes with
  | zero => exact absurd rfl h
  | succ passes ih =>
    by_cases hspared : ∃ event, (candidatesOf prims pod store entries).Spared
      (guardSet prims pod store entries passes) event
    · obtain ⟨event, hspared⟩ := hspared
      obtain ⟨-, -, -, -, -, -, hcounted, -⟩ := id hspared
      exact ⟨event, hcounted.1,
        hspared.finalVerdict_eq (next_guardSet prims pod store entries passes)⟩
    · grind [guardSet_add_eq]

/-- **Where no verdict says the last owner was kept, nothing is set aside.** -/
lemma finalSet_eq_empty
    (h : ∀ i : ℕ, (MembershipView.new prims orders pod store entries).verdicts[i]? ≠
      some (.countedForNothing .lastOwnerKept)) : finalSet prims pod store entries = ∅ := by
  by_contra hne
  obtain ⟨event, hevent, hkept⟩ := exists_kept hne
  exact h event.entry (by rw [verdict_new hevent]; exact congrArg some hkept)

lemma not_kept_of_finalSet (h : finalSet prims pod store entries = ∅) (i : ℕ) :
    (MembershipView.new prims orders pod store entries).verdicts[i]? ≠
      some (.countedForNothing .lastOwnerKept) := by
  intro hkept
  obtain ⟨event, hevent, rfl⟩ := exists_candidate_of_ofPass hkept (by decide) (by decide)
  rw [verdict_new hevent, Option.some_inj] at hkept
  have := mem_setAside_of_kept hevent hkept
  simp [h] at this

/-! ## That it works -/

section Works

variable {parsed : Parsed} {candidates : Candidates parsed} {setAside setAside' : Finset ℕ}

/-- Two lists of candidates, some demotions set aside, agree on a region that holds with a point all
before it and with an event all it reads, when they share the candidates there and set the same of
them aside. -/
lemma simulates_region {parsed' : Parsed} {candidates' : Candidates parsed'}
    {R : PdnId → ℕ → Prop} (hdown : ∀ x s, R x (s + 1) → R x s)
    (hrun : ∀ x s, R x (s + 1) → (s < parsed.run x ↔ s < parsed'.run x))
    (hmem : ∀ e : Event, R e.subject e.seq → (e ∈ candidates.list ↔ e ∈ candidates'.list))
    (haside : ∀ e ∈ candidates.list, R e.subject e.seq →
      (e.entry ∈ setAside ↔ e.entry ∈ setAside'))
    (hclosed : ∀ e ∈ candidates.list, R e.subject e.seq → membershipRules.reads e.kind →
      R e.actor e.actorSeq) :
    Simulates membershipRules (candidates.log setAside) (candidates'.log setAside') R
      fun e e' => e' = e ∧ e ∈ candidates.list ∧ e ∈ candidates'.list where
  down := hdown
  run_iff := hrun
  event := fun e e' h => h.2.1
  event' := fun e e' h => h.1 ▸ h.2.2
  subject := fun e e' h => by rw [h.1]; rfl
  seq := fun e e' h => by rw [h.1]; rfl
  kind := fun e e' h => by rw [h.1]; rfl
  actor := fun e e' h => by rw [h.1]; rfl
  actorSeq := fun e e' h => by rw [h.1]; rfl
  counts := fun e e' h hR actor => by
    obtain ⟨rfl, he, -⟩ := h
    show Pass.judge setAside e' actor = .counted ↔ Pass.judge setAside' e' actor = .counted
    unfold Pass.judge
    simp only [haside e' he hR]
  left := fun e he hR => ⟨e, rfl, he, (hmem e hR).mp he⟩
  right := fun e he hR => ⟨e, rfl, (hmem e hR).mpr he, he⟩
  closed := fun e e' h => hclosed e h.2.1

/-- Past the latest event that counts a chain stays in its state. -/
lemma finalState_eq_of_latest {member : PdnId} {seq upto : ℕ}
    (hlatest : ∀ e, candidates.Counted setAside e → e.subject = member → e.seq ≤ seq)
    (hle : seq ≤ upto) (hrun : upto ≤ parsed.run member) :
    candidates.finalState setAside member upto = candidates.finalState setAside member seq := by
  induction upto with
  | zero =>
    obtain rfl : seq = 0 := by omega
    rfl
  | succ upto ih =>
    rcases Nat.lt_or_eq_of_le hle with hlt | rfl
    · rw [finalState_succ_eq_self hrun, ih (by omega) (by omega)]
      intro e hcounted hpoint
      have hle := hlatest e hcounted (Prod.mk.inj hpoint).1
      rw [(Prod.mk.inj hpoint).2] at hle
      omega
    · rfl

end Works

/-! ### What does not rest on a point -/

section Apart

variable (prims pod store entries) in
/-- No candidate up to a sequence of a chain leads to a point by its dependencies. -/
def Apart (point : Point) (member : PdnId) (seq : ℕ) : Prop :=
  ∀ e ∈ (candidatesOf prims pod store entries).list, e.subject = member → e.seq ≤ seq →
    ∀ f ∈ (candidatesOf prims pod store entries).list, f.point = point →
      ¬ ReflTransGen (DependsOn prims pod store entries) e f

variable {point : Point} {member : PdnId} {seq : ℕ}

lemma Apart.down (h : Apart prims pod store entries point member (seq + 1)) :
    Apart prims pod store entries point member seq :=
  fun e he hsubject hseq => h e he hsubject (by omega)

lemma Apart.closed (h : Apart prims pod store entries point event.subject event.seq)
    (hevent : event ∈ (candidatesOf prims pod store entries).list) :
    Apart prims pod store entries point event.actor event.actorSeq := by
  intro e he hsubject hseq f hf hpoint hpath
  refine h event hevent rfl le_rfl f hf hpoint (ReflTransGen.head ?_ hpath)
  exact ⟨isCandidate_iff.mpr he, Or.inr ⟨hsubject, hseq⟩⟩

lemma Apart.point_ne (h : Apart prims pod store entries point event.subject event.seq)
    (hevent : event ∈ (candidatesOf prims pod store entries).list) : event.point ≠ point :=
  fun hpoint => h event hevent rfl le_rfl event hevent hpoint .refl

lemma dependsOn_self {other : Event}
    (hevent : event ∈ (candidatesOf prims pod store entries).list)
    (hpath : TransGen (DependsOn prims pod store entries) event other)
    (hpoint : other.point = event.point) :
    TransGen (DependsOn prims pod store entries) event event := by
  obtain ⟨hsubject, hseq⟩ := Prod.mk.inj hpoint
  -- what depends on the one depends on the other
  obtain ⟨last, hpath, hlast⟩ := TransGen.tail'_iff.mp hpath
  refine TransGen.tail'_iff.mpr ⟨last, hpath, isCandidate_iff.mpr hevent, ?_⟩
  rw [← hsubject, ← hseq]
  exact hlast.2

lemma apart_of_dependsOn (hself : ¬ TransGen (DependsOn prims pod store entries) event event)
    (hevent : event ∈ (candidatesOf prims pod store entries).list)
    (hdepends : ∀ e ∈ (candidatesOf prims pod store entries).list, e.subject = member →
      e.seq ≤ seq → DependsOn prims pod store entries event e) :
    Apart prims pod store entries event.point member seq := by
  intro e he hsubject hseq f hf hpoint hpath
  exact hself (dependsOn_self hevent (TransGen.head' (hdepends e he hsubject hseq) hpath) hpoint)

lemma apart_before (hself : ¬ TransGen (DependsOn prims pod store entries) event event)
    (hevent : event ∈ (candidatesOf prims pod store entries).list) :
    Apart prims pod store entries event.point event.subject (event.seq - 1) := by
  have hpos := (candidatesOf prims pod store entries).seq_pos event hevent
  refine apart_of_dependsOn hself hevent fun e he hsubject hseq => ?_
  exact ⟨isCandidate_iff.mpr he, Or.inl ⟨hsubject, by omega⟩⟩

lemma apart_actor (hself : ¬ TransGen (DependsOn prims pod store entries) event event)
    (hevent : event ∈ (candidatesOf prims pod store entries).list) :
    Apart prims pod store entries event.point event.actor event.actorSeq :=
  apart_of_dependsOn hself hevent fun _ he hsubject hseq =>
    ⟨isCandidate_iff.mpr he, Or.inr ⟨hsubject, hseq⟩⟩

lemma simulates_apart {setAside setAside' : Finset ℕ}
    (haside : ∀ e ∈ (candidatesOf prims pod store entries).list, e.point ≠ point →
      (e.entry ∈ setAside ↔ e.entry ∈ setAside')) :
    Simulates membershipRules ((candidatesOf prims pod store entries).log setAside)
      ((candidatesOf prims pod store entries).log setAside') (Apart prims pod store entries point)
      fun e e' => e' = e ∧ e ∈ (candidatesOf prims pod store entries).list ∧
        e ∈ (candidatesOf prims pod store entries).list :=
  simulates_region (fun _ _ h => h.down) (fun _ _ _ => Iff.rfl) (fun _ _ => Iff.rfl)
    (fun e he h => haside e he (h.point_ne he)) fun _ he h _ => h.closed he

end Apart

/-- **A demotion set aside leaves the owner it would have demoted.**

**Proof sketch.** Without loops nothing before the demotion rests on it, so its subject is the
owner before it still. The events of its sequence meet the states they met; those that counted and
were no demotions can only promote. -/
lemma Candidates.Spared.owner {setAside setAside' : Finset ℕ}
    (hacyclic : Acyclic prims pod store entries)
    (h : (candidatesOf prims pod store entries).Spared setAside event)
    (hnext : (candidatesOf prims pod store entries).Next setAside setAside') :
    ((candidatesOf prims pod store entries).finalState setAside' event.subject event.seq).owner =
      true := by
  obtain ⟨-, member, seq, actor, hended, hmax, hcounted, hpoint, hkind⟩ := id h
  obtain ⟨before, hseq⟩ : ∃ before, event.seq = before + 1 := Nat.exists_eq_succ_of_ne_zero
    ((candidatesOf prims pod store entries).seq_pos event hcounted.1).ne'
  have hrun : before < (Parsed.of entries).run event.subject := by
    have := (candidatesOf prims pod store entries).seq_le_run event hcounted.1
    omega
  have happart := apart_before (hacyclic event (isCandidate_iff.mpr hcounted.1)) hcounted.1
  rw [hseq, Nat.add_sub_cancel] at happart
  -- the state before is the owner's, as it was
  have hbefore : ((candidatesOf prims pod store entries).finalState setAside' event.subject
      before).owner = true := by
    have hsim := simulates_apart fun e he hne =>
      (hnext e he).trans (or_iff_left fun hspared => hne (hspared.point_eq h)) |>.symm
    have hallows := allows_of_counted hcounted
    rw [hkind, hseq, Nat.add_sub_cancel] at hallows
    rw [Candidates.finalState, ← hsim.final_eq happart]
    exact hallows
  -- what counts at the sequence now did before, and is no demotion
  have hpromoted : ∀ e, (candidatesOf prims pod store entries).Counted setAside' e →
      e.point = (event.subject, before + 1) → e.kind = .promoted := by
    intro e he hepoint
    rw [← hseq] at hepoint
    obtain ⟨hwas, hnot⟩ := h.counted_of_next hnext hepoint he
    have hrank := hended.demoted e hwas (hepoint.trans hpoint)
    have hne : e.kind ≠ .demoted := fun hdemoted =>
      hnot ⟨h.1, member, seq, actor, hended, hmax, hwas, hepoint.trans hpoint, hdemoted⟩
    have hallows := allows_of_counted he
    rw [(Prod.mk.inj hepoint).1, (Prod.mk.inj hepoint).2, hseq, Nat.add_sub_cancel] at hallows
    have hmember := member_of_owner hrun.le hbefore
    cases hek : e.kind <;> simp_all [allows, rank]
  rw [hseq]
  by_cases hsome : ∃ e, (candidatesOf prims pod store entries).Counted setAside' e ∧
    e.point = (event.subject, before + 1)
  · obtain ⟨e, he, hepoint⟩ := hsome
    rw [finalState_succ_eq_apply hrun he hepoint fun f hf hfpoint => by
      rw [hpromoted f hf hfpoint, hpromoted e he hepoint], hpromoted e he hepoint]
    rfl
  · rw [finalState_succ_eq_self hrun fun e he hepoint => hsome ⟨e, he, hepoint⟩]
    exact hbefore

/-! ## The evaluation with nothing set aside -/

/-- An event counts in a pass exactly when it is a candidate that does in the end. -/
lemma Pass.Solves.counted_iff {setAside : Finset ℕ} {pass : Pass}
    (h : pass.Solves (candidatesOf prims pod store entries) setAside
      (checksOf prims pod store entries).verdicts)
    (hevent : event ∈ (Parsed.of entries).events) :
    pass.verdicts[event.entry]? = some .counted ↔
      (candidatesOf prims pod store entries).Counted setAside event := by
  by_cases hcandidate : event ∈ (candidatesOf prims pod store entries).list
  · rw [h.verdict event hcandidate, Option.some_inj]
    exact ⟨fun hcounted => ⟨hcandidate, hcounted⟩, fun hcounted => hcounted.2⟩
  · refine ⟨fun hcounted => absurd hcounted ?_, fun hcounted => absurd hcounted.1 hcandidate⟩
    rcases hrefused : Alone.refusal prims pod store entries (Parsed.of entries)
      (checksOf prims pod store entries).authors event with _ | verdict
    · exact absurd (mem_candidatesOf.mpr ⟨hevent, hrefused⟩) hcandidate
    · rw [h.others event.entry fun e he hentry => hcandidate (Parsed.eq_of_entry
          (mem_candidatesOf.mp he).1 hevent hentry ▸ he),
        (Alone.of_checked prims pod store entries).verdict_event event hevent verdict hrefused]
      unfold Alone.refusal at hrefused
      split at hrefused
      · simp at hrefused
      · next refused heq =>
        obtain rfl := Option.some.inj hrefused
        intro hcounted
        rw [Option.some.inj hcounted] at heq
        exact clean_alone _ heq (by decide)

/-- Passes that show the same make one view. -/
lemma Pass.Solves.intoView_eq {setAside : Finset ℕ} {pass pass' : Pass}
    (h : pass.Solves (candidatesOf prims pod store entries) setAside
      (checksOf prims pod store entries).verdicts)
    (h' : pass'.Solves (candidatesOf prims pod store entries) setAside
      (checksOf prims pod store entries).verdicts) :
    pass.intoView (Parsed.of entries) (checksOf prims pod store entries) =
      pass'.intoView (Parsed.of entries) (checksOf prims pod store entries) := by
  have hstate : ∀ member seq, seq ≤ (Parsed.of entries).run member →
      pass.state member seq = pass'.state member seq := fun member seq hrun => by
    rw [h.state member seq hrun, h'.state member seq hrun]
  have hverdicts : pass.verdicts = pass'.verdicts := by
    refine List.ext_getElem? fun i => ?_
    by_cases hcandidate : ∃ e ∈ (candidatesOf prims pod store entries).list, e.entry = i
    · obtain ⟨e, he, rfl⟩ := hcandidate
      rw [h.verdict e he, h'.verdict e he]
    · grind [h.others, h'.others]
  unfold Pass.intoView
  rw [hverdicts]
  congr 1
  refine List.map_congr_left fun member _ => ?_
  rw [hstate member _ le_rfl]
  congr 2
  refine List.map_congr_left fun seq hseq => ?_
  rw [List.mem_range'_1] at hseq
  rw [hstate member seq (by omega)]

variable (prims orders pod store entries) in
/-- **The view is that of any pass with `finalSet` set aside.** -/
lemma new_eq_intoView (order : HashOrder) : MembershipView.new prims orders pod store entries =
    (Pass.run (Parsed.of entries) (checksOf prims pod store entries) order
      (finalSet prims pod store entries)).intoView (Parsed.of entries)
      (checksOf prims pod store entries) := by
  obtain ⟨order', hnew⟩ := new_eq prims pod store entries orders
  rw [hnew]
  exact (run_candidatesOf prims pod store entries order' _).intoView_eq
    (run_candidatesOf prims pod store entries order _)

/-- The event is a counted demotion in a pass, and no event of its chain counts later. -/
def LatestDemotion (parsed : Parsed) (pass : Pass) (event : Event) : Prop :=
  event ∈ parsed.events ∧ event.kind = .demoted ∧ pass.verdicts[event.entry]? = some .counted ∧
    ∀ other ∈ parsed.events, other.subject = event.subject →
      pass.verdicts[other.entry]? = some .counted → other.seq ≤ event.seq

/-- **A member whose latest counted event is a demotion** is one whose ownership it ended. -/
lemma LatestDemotion.ended {setAside : Finset ℕ} {pass : Pass}
    (h : pass.Solves (candidatesOf prims pod store entries) setAside
      (checksOf prims pod store entries).verdicts)
    (hlatest : LatestDemotion (Parsed.of entries) pass event)
    (hmember : ((candidatesOf prims pod store entries).finalState setAside event.subject
      ((Parsed.of entries).run event.subject)).member = true) :
    ∃ actor, (candidatesOf prims pod store entries).Ended setAside event.subject event.seq
      actor := by
  obtain ⟨hevent, hkind, hverdict, hlast⟩ := hlatest
  have hcounted := (h.counted_iff hevent).mp hverdict
  have hlast' : ∀ e, (candidatesOf prims pod store entries).Counted setAside e →
      e.subject = event.subject → e.seq ≤ event.seq := fun e he hsubject =>
    hlast e (mem_candidatesOf.mp he.1).1 hsubject
      ((h.counted_iff (mem_candidatesOf.mp he.1).1).mpr he)
  obtain ⟨before, hseq⟩ : ∃ before, event.seq = before + 1 := Nat.exists_eq_succ_of_ne_zero
    ((candidatesOf prims pod store entries).seq_pos event hcounted.1).ne'
  have hle := (candidatesOf prims pod store entries).seq_le_run event hcounted.1
  rw [finalState_eq_of_latest hlast' hle le_rfl] at hmember
  -- a departure counted beside it would have taken the member out
  have hdemoted : ∀ e, (candidatesOf prims pod store entries).Counted setAside e →
      e.point = (event.subject, event.seq) → rank e.kind ≤ rank .demoted := by
    intro e he hepoint
    rw [hseq] at hepoint hmember
    obtain ⟨top, -, -, hmax, hstate⟩ := exists_highest (by omega) he hepoint
    rw [hstate] at hmember
    refine (hmax e he hepoint).trans ?_
    cases htop : top.kind <;> simp [htop, apply, rank] at hmember ⊢
  obtain ⟨low, ⟨hlow, hlowpoint, hlowkind⟩, hmin⟩ := Set.exists_min_image
    {e | (candidatesOf prims pod store entries).Counted setAside e ∧
      e.point = (event.subject, event.seq) ∧ e.kind = .demoted} Event.actor
    ((candidatesOf prims pod store entries).list.finite_toSet.subset fun e he => he.1.1)
    ⟨event, hcounted, rfl, hkind⟩
  refine ⟨low.actor, ?_, hlast', hdemoted, ⟨low, hlow, hlowpoint, hlowkind, rfl⟩, ?_⟩
  · rw [finalState_eq_of_latest hlast' hle le_rfl]
    exact hmember
  · rintro _ ⟨e, he, hepoint, hekind, rfl⟩
    exact hmin e ⟨he, hepoint, hekind⟩

lemma demotionsToSetAside_first (order : HashOrder) :
    (Pass.run (Parsed.of entries) (checksOf prims pod store entries) order
      ∅).demotionsToSetAside (Parsed.of entries) = guardSet prims pod store entries 1 := by
  rw [guardSet, guardSet, Finset.empty_union, demotionsToSetAside_run order default]

/-- **After the first step of the guard there is an owner**, if demotions that lie at the end of
their chains left the pod without one. -/
lemma hasOwner_guardSet_one {pass : Pass} (hacyclic : Acyclic prims pod store entries)
    (hsolves : pass.Solves (candidatesOf prims pod store entries) ∅
      (checksOf prims pod store entries).verdicts)
    (hnone : ¬ (candidatesOf prims pod store entries).HasOwner ∅)
    (hlatest : LatestDemotion (Parsed.of entries) pass event)
    (hmember : ((candidatesOf prims pod store entries).finalState ∅ event.subject
      ((Parsed.of entries).run event.subject)).member = true)
    (hend : ∀ e, LatestDemotion (Parsed.of entries) pass e →
      ((candidatesOf prims pod store entries).finalState ∅ e.subject
        ((Parsed.of entries).run e.subject)).member = true →
        e.seq = (Parsed.of entries).run e.subject) :
    (candidatesOf prims pod store entries).HasOwner (guardSet prims pod store entries 1) := by
  obtain ⟨actor, hended⟩ := hlatest.ended hsolves hmember
  obtain ⟨member, seq, actor, hended, hmax⟩ := hsolves.exists_last_ended hended
  obtain ⟨⟨low, hcounted, hpoint, hkind, -⟩, -⟩ := hended.lowest
  have hspared : (candidatesOf prims pod store entries).Spared ∅ low :=
    ⟨hnone, member, seq, actor, hended, hmax, hcounted, hpoint, hkind⟩
  have howner := hspared.owner hacyclic (next_guardSet prims pod store entries 0)
  obtain ⟨rfl, rfl⟩ := Prod.mk.inj hpoint
  have hlow : LatestDemotion (Parsed.of entries) pass low := by
    have hevent := (mem_candidatesOf.mp hcounted.1).1
    refine ⟨hevent, hkind, (hsolves.counted_iff hevent).mpr hcounted,
      fun other hother hsubject h => ?_⟩
    exact hended.latest other ((hsolves.counted_iff hother).mp h) hsubject
  refine ⟨low.subject, ?_⟩
  rw [← hend low hlow hended.remains]
  exact howner

variable (prims orders pod store entries) in
/-- **The guard over the last owner acts only when needed, and works when it acts.** Where the
evaluation with nothing set aside shows an owner, it is the view, and no verdict says the last owner
was kept. Where it shows none, the candidates depend on no loop, and the members whose latest
counted event is a demotion, of whom there are some, were demoted at the end of their runs, the
second of the guard's passes shows an owner and is the view. -/
theorem guard_spec (order : HashOrder) :
    let parsed := Parsed.of entries
    let alone := Alone.of prims pod store entries parsed
    let view := MembershipView.new prims orders pod store entries
    let first := Pass.run parsed alone order ∅
    let second := Pass.run parsed alone order (first.demotionsToSetAside parsed)
    ((∃ member, (first.state member (parsed.run member)).owner = true) →
      (∀ i : ℕ, view.verdicts[i]? ≠ some (.countedForNothing .lastOwnerKept)) ∧
        view = first.intoView parsed alone) ∧
    (Acyclic prims pod store entries →
      (∀ member, (first.state member (parsed.run member)).owner = false) →
      (∃ event, LatestDemotion parsed first event ∧
        (first.state event.subject (parsed.run event.subject)).member = true) →
      (∀ event, LatestDemotion parsed first event →
        (first.state event.subject (parsed.run event.subject)).member = true →
          event.seq = parsed.run event.subject) →
      (∃ member shown, view.member member = some shown ∧ shown.state.owner = true) ∧
        view = second.intoView parsed alone ∧ second.demotionsToSetAside parsed = ∅ ∧
          2 ≤ guardPasses) := by
  intro parsed alone view first second
  have hfirst := run_candidatesOf prims pod store entries order ∅
  have hstate : ∀ member, first.state member (parsed.run member) =
      (candidatesOf prims pod store entries).finalState ∅ member (parsed.run member) :=
    fun member => hfirst.state member _ le_rfl
  constructor
  · rintro ⟨member, howner⟩
    rw [hstate] at howner
    have hempty : finalSet prims pod store entries = ∅ := by
      have hkeep : guardSet prims pod store entries (0 + (guardPasses - 1)) = _ :=
        guardSet_add_eq_of_hasOwner ⟨member, howner⟩ (guardPasses - 1)
      rwa [Nat.zero_add] at hkeep
    refine ⟨not_kept_of_finalSet hempty, ?_⟩
    rw [show view = _ from new_eq_intoView prims pod store entries orders order, hempty]
  · rintro hacyclic hnone ⟨event, hlatest, hmember⟩ hend
    simp only [hstate] at hnone hmember hend
    have howner := hasOwner_guardSet_one hacyclic hfirst
      (fun ⟨member, howner⟩ => Bool.noConfusion ((hnone member).symm.trans howner)) hlatest
        hmember hend
    have haside : first.demotionsToSetAside parsed = guardSet prims pod store entries 1 :=
      demotionsToSetAside_first order
    have hfinal : finalSet prims pod store entries = guardSet prims pod store entries 1 :=
      guardSet_add_eq_of_hasOwner howner 2
    have hsecond := run_candidatesOf prims pod store entries order
      (first.demotionsToSetAside parsed)
    refine ⟨?_, ?_, ?_, by decide⟩
    · obtain ⟨member, hmember⟩ := howner
      have hrun : 0 < parsed.run member := Nat.pos_of_ne_zero fun hzero => by
        rw [show (Parsed.of entries).run member = 0 from hzero, Candidates.finalState,
          Log.final_zero] at hmember
        exact absurd hmember (by decide)
      refine ⟨member, shownMember prims pod store entries member, ?_, ?_⟩
      · exact member_new.trans
          (if_pos (mem_identities.mpr (Or.inl (Parsed.mem_chains_of_run hrun))))
      · rw [shownMember, hfinal]
        exact hmember
    · rw [show view = _ from new_eq_intoView prims pod store entries orders order, hfinal, ← haside]
    · refine Finset.eq_empty_of_forall_notMem fun i hi => ?_
      obtain ⟨e, hspared, -⟩ := (Pass.mem_demotionsToSetAside hsecond).mp hi
      rw [haside] at hspared
      exact hspared.1 howner

/-! ## Two owners who demote each other -/

namespace Testing

/-- Two owners demote each other. -/
def crossed : Store :=
  ((((Store.createdBy alice).invite alice 1 bob).act .promoted bob 2 alice 1).act .demoted bob 3
    alice 1).act .demoted alice 2 bob 2

/-- What a pass with nothing set aside makes of it. -/
def crossedFirst : Pass :=
  .run (.of crossed.entries)
    (.of transparent crossed.pod crossed.namespaceId crossed.entries (.of crossed.entries))
    default ∅

lemma acyclic_crossed : Acyclic transparent crossed.pod crossed.namespaceId crossed.entries := by
  have hrank : ∀ e ∈ (Parsed.of crossed.entries).events, ∀ f ∈ (Parsed.of crossed.entries).events,
      f.subject = e.subject ∧ f.seq < e.seq ∨ f.subject = e.actor ∧ f.seq ≤ e.actorSeq →
        f.entry < e.entry := by decide +kernel
  intro event hcandidate hself
  have hdown : ∀ {other}, TransGen (DependsOn transparent crossed.pod crossed.namespaceId
      crossed.entries) event other →
        other ∈ (Parsed.of crossed.entries).events ∧ other.entry < event.entry := by
    intro other hpath
    induction hpath with
    | single hstep => exact ⟨hstep.1.1, hrank _ hcandidate.1 _ hstep.1.1 hstep.2⟩
    | tail _ hstep ih => exact ⟨hstep.1.1, (hrank _ ih.1 _ hstep.1.1 hstep.2).trans ih.2⟩
  exact lt_irrefl _ (hdown hself).2

lemma no_owner_crossed (member : PdnId) :
    (crossedFirst.state member ((Parsed.of crossed.entries).run member)).owner = false := by
  have hchains : ∀ member ∈ (Parsed.of crossed.entries).chains,
      (crossedFirst.state member ((Parsed.of crossed.entries).run member)).owner = false := by
    decide +kernel
  rcases Nat.eq_zero_or_pos ((Parsed.of crossed.entries).run member) with hzero | hpos
  · rw [hzero]
    rfl
  · exact hchains member (Parsed.mem_chains_of_run hpos)

end Testing

open Testing

/-- **The guard acts where two owners demote each other**, and one of them stays an owner. -/
theorem guard_spec_crossed :
    (∀ member, (crossedFirst.state member ((Parsed.of crossed.entries).run member)).owner = false) ∧
      ∃ member shown, crossed.membershipView.member member = some shown ∧
        shown.state.owner = true := by
  have hdemoted : ∃ event ∈ (Parsed.of crossed.entries).events,
      LatestDemotion (Parsed.of crossed.entries) crossedFirst event ∧
        (crossedFirst.state event.subject
          ((Parsed.of crossed.entries).run event.subject)).member = true := by
    unfold LatestDemotion
    decide +kernel
  have hend : ∀ event ∈ (Parsed.of crossed.entries).events,
      event.kind = .demoted → event.seq = (Parsed.of crossed.entries).run event.subject := by
    decide +kernel
  obtain ⟨event, -, hlatest⟩ := hdemoted
  have hacts := (guard_spec transparent crossed.pod crossed.namespaceId
    crossed.entries (fun _ => default) default).2 acyclic_crossed no_owner_crossed ⟨event, hlatest⟩
      fun event hlatest _ => hend event hlatest.1 hlatest.2.1
  exact ⟨no_owner_crossed, hacts.1⟩

end MeePdn
