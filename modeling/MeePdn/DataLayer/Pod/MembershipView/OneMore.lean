import MeePdn.DataLayer.Pod.MembershipView.Appended

/-!
# What one new candidate changes

The view of a store with one new candidate, at the first sequence its chain held none. Nothing of
before rests on it, so every state and verdict of before stays in each pass. The guard's steps
are the harder part: they read the ends of the chains, and the added event may be such an end.

## Main results

* `AddsOne.finalState_eq`, `AddsOne.counted_iff` — a pass leaves what it left before.
* `AddsOne.counted_new` — when the added event counts in a pass.
* `AddsOne.finalSet_eq_of_owner`, `AddsOne.finalSet_eq_of_joined` — **the guard sets aside what it
  did before**, when an owner acts or a member invites.
-/

namespace MeePdn

open Settling Classical Relation

/-! ## Apart from the added event -/

namespace Adds

variable {prims : Primitives} {pod : PodId} {store : NamespaceId} {entries : List HeldEntry}
  {held : HeldEntry} {new event : Event} {setAside setAside' : Finset ℕ}

/-- The candidates of before. -/
abbrev old (_ : Adds prims pod store entries held new) : Candidates (Parsed.of entries) :=
  candidatesOf prims pod store entries

/-- The candidates with the added event. -/
abbrev all (_ : Adds prims pod store entries held new) :
    Candidates (Parsed.of (entries ++ [held])) :=
  candidatesOf prims pod store (entries ++ [held])

/-- What the guard sets aside of those of before. -/
abbrev oldSet (_ : Adds prims pod store entries held new) : Finset ℕ :=
  finalSet prims pod store entries

/-- What the guard sets aside with the added event. -/
abbrev allSet (_ : Adds prims pod store entries held new) : Finset ℕ :=
  finalSet prims pod store (entries ++ [held])

/-- The state at the end of a chain of before. -/
noncomputable abbrev last (h : Adds prims pod store entries held new) (setAside : Finset ℕ)
    (member : PdnId) : MemberState :=
  h.old.finalState setAside member ((Parsed.of entries).run member)

/-- In a pass of before the actor's chain is behind the subject's. -/
abbrev Behind (h : Adds prims pod store entries held new) (setAside : Finset ℕ) : Prop :=
  (h.old.log setAside).HeldUp membershipRules loopRounds new.subject
    ((Parsed.of entries).run new.subject) new.actor new.actorSeq

variable (h : Adds prims pod store entries held new)

include h

lemma entry : new.entry = entries.length :=
  Parsed.entry_eventAt h.event

lemma run_of_ne {member : PdnId} (hne : member ≠ new.subject) :
    (Parsed.of (entries ++ [held])).run member = (Parsed.of entries).run member := by
  grind [run_append_of_ne, h.event]

lemma seq_le_run : new.seq ≤ (Parsed.of (entries ++ [held])).run new.subject := by
  have := lt_run_append h.event h.seq
  have := h.seq
  omega

lemma eq_new_of_point (hevent : event ∈ h.all.list)
    (hpoint : event.point = new.point) : event = new := by
  obtain ⟨hsubject, hseq⟩ := Prod.mk.inj hpoint
  rcases mem_events_append.mp (mem_candidatesOf.mp hevent).1 with hmem | hmem
  · grind [Parsed.seq_le_run, h.seq]
  · exact Option.some.inj (hmem.symm.trans h.event)

/-- Apart from the added event a pass goes through the states it did before. -/
lemma simulates (haside : ∀ e ∈ h.old.list, (e.entry ∈ setAside ↔ e.entry ∈ setAside')) :
    Simulates membershipRules (h.old.log setAside) (h.all.log setAside')
      (Apart prims pod store (entries ++ [held]) new.point) fun e e' => e' = e ∧ e ∈ h.old.list ∧
        e ∈ h.all.list := by
  refine simulates_region (fun _ _ hR => hR.down) (fun x s hR => ?_) (fun e hR => ?_)
    (fun e he _ => haside e he) fun e he hR _ => hR.closed (h.mem e he)
  · by_cases hx : x = new.subject
    · -- a region that reached the added event would not be apart from it
      have hlt : s + 1 < new.seq := by
        by_contra hge
        exact hR new h.new_mem hx.symm (by omega) new h.new_mem rfl .refl
      have hrun := run_mono (List.subset_append_left entries [held]) x
      have hseq := h.seq
      rw [← hx] at hseq
      omega
    · rw [h.run_of_ne hx]
  · refine ⟨h.mem e, fun he => by_contra fun hbefore => ?_⟩
    have hne : e ≠ new := fun heq => hR.point_ne he (heq ▸ rfl)
    exact hR e he rfl le_rfl new h.new_mem rfl (.single (h.before e he hne hbefore))

lemma apart :
    Apart prims pod store (entries ++ [held]) new.point new.subject (new.seq - 1) ∧
      Apart prims pod store (entries ++ [held]) new.point new.actor new.actorSeq :=
  ⟨apart_before h.self h.new_mem, apart_actor h.self h.new_mem⟩

lemma finalState_before (haside : ∀ e ∈ h.old.list, (e.entry ∈ setAside ↔ e.entry ∈ setAside')) :
    h.all.finalState setAside' new.subject ((Parsed.of entries).run new.subject) =
      h.last setAside new.subject := by
  have hapart := h.apart.1
  rw [h.seq, Nat.add_sub_cancel] at hapart
  exact ((h.simulates haside).final_eq hapart).symm

lemma finalState_actor (haside : ∀ e ∈ h.old.list, (e.entry ∈ setAside ↔ e.entry ∈ setAside')) :
    h.all.finalState setAside' new.actor new.actorSeq =
      h.old.finalState setAside new.actor new.actorSeq :=
  ((h.simulates haside).final_eq h.apart.2).symm

lemma new_notMem_cyclic (haside : ∀ e ∈ h.old.list, (e.entry ∈ setAside ↔ e.entry ∈ setAside'))
    (hheld : ¬ h.Behind setAside) :
    new ∉ (h.all.log setAside').cyclic membershipRules loopRounds := by
  refine Log.notMem_cyclic (dependsOn_log ▸ h.self) fun hheld' => hheld ?_
  rw [Behind, ← Nat.add_sub_cancel (Parsed.run _ _) 1, ← h.seq]
  exact ((h.simulates haside).heldUp_iff h.apart.1 h.apart.2).mpr hheld'

/-- **When the added event counts in a pass**: its subject's last state allows it, its actor's
state has what it needs, and its actor's chain is not behind. -/
lemma counted_new (haside : ∀ e ∈ h.old.list, (e.entry ∈ setAside ↔ e.entry ∈ setAside'))
    (hallows : allows (h.last setAside new.subject) new.kind = true)
    (hneeded : Pass.needed new.kind (h.old.finalState setAside new.actor new.actorSeq) = true)
    (hheld : ¬ h.Behind setAside) (hnew : new.entry ∉ setAside') : h.all.Counted setAside' new := by
  refine counted_of h.new_mem ?_ (h.new_notMem_cyclic haside hheld) ?_ hnew
  · rw [h.seq, Nat.add_sub_cancel, h.finalState_before haside]
    exact hallows
  · rw [h.finalState_actor haside]
    exact hneeded

lemma finalState_new (hcounted : h.all.Counted setAside new) :
    h.all.finalState setAside new.subject new.seq = apply new.kind := by
  have hrun := h.seq_le_run
  have hpoint : new.point = (new.subject, (Parsed.of entries).run new.subject + 1) := by
    rw [← h.seq]
    rfl
  rw [h.seq] at hrun ⊢
  refine finalState_succ_eq_apply hrun hcounted hpoint fun e he hepoint => ?_
  rw [h.eq_new_of_point he.1 (hepoint.trans hpoint.symm)]

lemma entry_notMem_finalSet : new.entry ∉ h.oldSet := by
  intro hmem
  obtain ⟨e, he, hentry, -⟩ := exists_demoted_of_mem_guardSet hmem
  have := candidatesOf_entry_lt he
  rw [h.entry] at hentry
  omega

/-- Where the guard sets nothing aside and the chain of an owner is apart from the added event, it
sets nothing aside. -/
lemma finalSet_eq_empty (hempty : h.oldSet = ∅) {owner : PdnId} (hne : owner ≠ new.subject)
    (hapart : Apart prims pod store (entries ++ [held]) new.point owner
      ((Parsed.of entries).run owner)) (howner : (h.last h.oldSet owner).owner = true) :
    h.allSet = ∅ := by
  refine finalSet_eq_empty_of_hasOwner ⟨owner, ?_⟩
  rw [h.run_of_ne hne]
  rw [hempty] at howner
  exact (congrArg MemberState.owner
    ((h.simulates fun _ _ => Iff.rfl).final_eq hapart).symm).trans howner

/-- **The view shows an added event that counts**: the guard setting aside what it did before, the
checks on the view of before are those the event is judged by. -/
lemma shown (orders : ℕ → HashOrder) (hset : h.allSet = h.oldSet)
    (hallows : allows (h.last h.oldSet new.subject) new.kind = true)
    (hneeded : Pass.needed new.kind (h.old.finalState h.oldSet new.actor new.actorSeq) = true)
    (hheld : ¬ h.Behind h.oldSet) : h.all.Counted h.allSet new ∧
      (MembershipView.new prims orders pod store (entries ++ [held])).verdicts[entries.length]? =
        some .counted ∧
      (MembershipView.new prims orders pod store (entries ++ [held])).stateAt new.subject new.seq =
        some (apply new.kind) := by
  have hcounted : h.all.Counted h.allSet new :=
    h.counted_new (fun _ _ => by rw [hset]) hallows hneeded hheld
      (hset ▸ h.entry_notMem_finalSet)
  refine ⟨hcounted, ?_, ?_⟩
  · rw [← h.entry, verdict_new h.new_mem, hcounted.2]
  · rw [stateAt_new, if_pos h.seq_le_run, h.finalState_new hcounted]

/-- **Who joins is a member at the end of its chain**, one it was before or one the event makes it,
when the event is the chain's last. -/
lemma member_of_joined (hkind : new.kind = .joined) (hset : h.allSet = h.oldSet)
    (hlast : (Parsed.of (entries ++ [held])).run new.subject = new.seq)
    (hactor : (h.old.finalState h.oldSet new.actor new.actorSeq).member = true)
    (hheld : ¬ h.Behind h.oldSet) : (h.all.finalState h.allSet new.subject
      ((Parsed.of (entries ++ [held])).run new.subject)).member = true := by
  have haside : ∀ e ∈ h.old.list,
      (e.entry ∈ h.oldSet ↔
        e.entry ∈ h.allSet) := fun _ _ => by rw [hset]
  rw [hlast]
  by_cases hcounted : h.all.Counted h.allSet new
  · rw [h.finalState_new hcounted, hkind]
    rfl
  -- an event that does not count met a member
  have hbefore : (h.last h.oldSet new.subject).member = true := by
    by_contra hnot
    refine hcounted (h.counted_new haside ?_ ?_ hheld (hset ▸ h.entry_notMem_finalSet))
    · rw [hkind]
      simpa [allows] using hnot
    · rw [hkind]
      exact hactor
  have hrun := h.seq_le_run
  rw [h.seq] at hrun ⊢
  have hnone : ∀ e, h.all.Counted h.allSet e →
      e.point ≠ (new.subject, (Parsed.of entries).run new.subject + 1) := fun e he hpoint =>
    hcounted (h.eq_new_of_point he.1 (hpoint.trans (by rw [← h.seq]; rfl)) ▸ he)
  rw [finalState_succ_eq_self hrun hnone, h.finalState_before haside]
  exact hbefore

end Adds

/-! ## The guard -/

section Guard

variable {parsed parsed' : Parsed} {candidates : Candidates parsed}
  {candidates' : Candidates parsed'} {setAside : Finset ℕ} {event : Event}

/-- What a pass makes of a chain that ends as before, the same of it counted. -/
lemma ended_iff {member actor : PdnId} {seq : ℕ}
    (hend : (candidates'.finalState setAside member (parsed'.run member)).member =
      (candidates.finalState setAside member (parsed.run member)).member)
    (hcounted : ∀ e : Event, e.subject = member →
      (candidates'.Counted setAside e ↔ candidates.Counted setAside e)) :
    candidates'.Ended setAside member seq actor ↔ candidates.Ended setAside member seq actor := by
  have hlowest : {a | ∃ e, candidates'.Counted setAside e ∧
        e.point = (member, seq) ∧ e.kind = .demoted ∧ e.actor = a} =
      {a | ∃ e, candidates.Counted setAside e ∧
        e.point = (member, seq) ∧ e.kind = .demoted ∧ e.actor = a} := by
    ext a
    refine exists_congr fun e => and_congr_left fun hrest => hcounted e (Prod.mk.inj hrest.1).1
  constructor
  · intro h
    exact ⟨hend.symm.trans h.remains, fun e he hsubject => h.latest e ((hcounted e hsubject).mpr he)
        hsubject,
      fun e he hpoint => h.demoted e ((hcounted e (Prod.mk.inj hpoint).1).mpr he) hpoint,
      hlowest ▸ h.lowest⟩
  · intro h
    exact ⟨hend.trans h.remains, fun e he hsubject => h.latest e ((hcounted e hsubject).mp he)
        hsubject,
      fun e he hpoint => h.demoted e ((hcounted e (Prod.mk.inj hpoint).1).mp he) hpoint,
      hlowest.symm ▸ h.lowest⟩

/-- The guard spares what it did before, when it finds an owner as before, and the same chains ended
by the same demotions. -/
lemma spared_iff (howner : candidates'.HasOwner setAside ↔ candidates.HasOwner setAside)
    (hended : ∀ member seq actor,
      candidates'.Ended setAside member seq actor ↔ candidates.Ended setAside member seq actor)
    (hcounted : ∀ e : Event, e.kind = .demoted →
      (candidates'.Counted setAside e ↔ candidates.Counted setAside e) ∨
      ∀ actor, ¬ candidates.Ended setAside e.subject e.seq actor) :
    candidates'.Spared setAside event ↔ candidates.Spared setAside event := by
  unfold Candidates.Spared
  simp only [hended, howner]
  refine and_congr_right fun _ => exists_congr fun member => exists_congr fun seq =>
    exists_congr fun actor => and_congr_right fun hend => and_congr_right fun _ => ?_
  refine and_congr_left fun hrest => ?_
  refine (hcounted event hrest.2).resolve_right fun hnone => hnone actor ?_
  obtain ⟨rfl, rfl⟩ := Prod.mk.inj hrest.1
  exact hend

end Guard

namespace AddsOne

variable {prims : Primitives} {pod : PodId} {store : NamespaceId} {entries : List HeldEntry}
  {held : HeldEntry} {new event : Event} {setAside : Finset ℕ}

lemma guardSet_eq {passes : ℕ}
    (hspared : ∀ k < passes, ∀ e, (candidatesOf prims pod store (entries ++ [held])).Spared
          (guardSet prims pod store entries k) e ↔
        (candidatesOf prims pod store entries).Spared (guardSet prims pod store entries k) e) :
    ∀ k ≤ passes, guardSet prims pod store (entries ++ [held]) k =
      guardSet prims pod store entries k := by
  intro k
  induction k with
  | zero => exact fun _ => rfl
  | succ k ih => grind [mem_guardSet_succ]

lemma exists_spared {member actor : PdnId} {seq : ℕ}
    (hnone : ¬ (candidatesOf prims pod store entries).HasOwner setAside)
    (h : (candidatesOf prims pod store entries).Ended setAside member seq actor) :
    ∃ e, (candidatesOf prims pod store entries).Spared setAside e := by
  obtain ⟨member, seq, actor, hended, hlast⟩ :=
    (run_candidatesOf prims pod store entries default setAside).exists_last_ended h
  obtain ⟨e, he, hpoint, hkind, -⟩ := hended.lowest.1
  exact ⟨e, hnone, member, seq, actor, hended, hlast, he, hpoint, hkind⟩

lemma not_spared_of_finalSet (hempty : finalSet prims pod store entries = ∅) (e : Event) :
    ¬ (candidatesOf prims pod store entries).Spared ∅ e := by
  intro hspared
  have hone : e.entry ∈ guardSet prims pod store entries 1 :=
    mem_guardSet_succ.mpr (Or.inr ⟨e, hspared, rfl⟩)
  have hfinal : e.entry ∈ finalSet prims pod store entries :=
    mem_guardSet_succ.mpr (Or.inl (mem_guardSet_succ.mpr (Or.inl hone)))
  rw [hempty] at hfinal
  cases hfinal

/-- The candidates of before. -/
abbrev old (_ : AddsOne prims pod store entries held new) : Candidates (Parsed.of entries) :=
  candidatesOf prims pod store entries

/-- The candidates with the added event. -/
abbrev all (_ : AddsOne prims pod store entries held new) :
    Candidates (Parsed.of (entries ++ [held])) :=
  candidatesOf prims pod store (entries ++ [held])

/-- What the guard sets aside of those of before. -/
abbrev oldSet (_ : AddsOne prims pod store entries held new) : Finset ℕ :=
  finalSet prims pod store entries

/-- What the guard sets aside with the added event. -/
abbrev allSet (_ : AddsOne prims pod store entries held new) : Finset ℕ :=
  finalSet prims pod store (entries ++ [held])

/-- The state at the end of a chain of before. -/
noncomputable abbrev last (h : AddsOne prims pod store entries held new) (setAside : Finset ℕ)
    (member : PdnId) : MemberState :=
  h.old.finalState setAside member ((Parsed.of entries).run member)

variable (h : AddsOne prims pod store entries held new)

include h

/-! ## One pass -/

/-- Nothing depends on the added event. -/
lemma not_dependsOn (hevent : event ∈ h.all.list) :
    ¬ DependsOn prims pod store (entries ++ [held]) event new := by
  rintro ⟨-, hon⟩
  have hseq := h.seq
  have hactorSeq := h.actorSeq
  rcases (h.candidates event).mp hevent with he | rfl
  · have hle := h.old.seq_le_run event he
    have hactor := h.old.actorSeq_le_run event he
    rcases hon with ⟨hsubject, hlt⟩ | ⟨hsubject, hlt⟩
    · rw [← hsubject] at hle
      omega
    · rw [← hsubject] at hactor
      omega
  · grind

lemma eq_of_dependsOn (hevent : event ∈ h.all.list)
    (hpath : ReflTransGen (DependsOn prims pod store (entries ++ [held])) event new) :
    event = new := by
  rcases ReflTransGen.cases_tail hpath with heq | ⟨d, hto, hd⟩
  · exact heq.symm
  · rcases ReflTransGen.cases_tail hto with rfl | ⟨c, -, hc⟩
    · exact absurd hd (h.not_dependsOn hevent)
    · exact absurd hd (h.not_dependsOn (isCandidate_iff.mp hc.1))

lemma new_mem : new ∈ h.all.list :=
  (h.candidates new).mpr (Or.inr rfl)

lemma adds : Adds prims pod store entries held new where
  event := h.event
  seq := h.seq
  actorSeq := h.actorSeq
  new_mem := h.new_mem
  mem := fun e he => (h.candidates e).mpr (Or.inl he)
  self := fun hpath => by
    obtain ⟨e, hfirst, hrest⟩ := TransGen.head'_iff.mp hpath
    have he := h.eq_of_dependsOn (isCandidate_iff.mp hfirst.1) hrest
    exact h.not_dependsOn h.new_mem (he ▸ hfirst)
  before := fun e he hne hbefore => absurd ((h.candidates e).mp he) (not_or.mpr ⟨hbefore, hne⟩)

lemma apart {member : PdnId} {seq : ℕ} (hseq : seq ≤ (Parsed.of entries).run member) :
    Apart prims pod store (entries ++ [held]) new.point member seq := by
  intro e he hsubject hle f hf hpoint hpath
  rw [h.adds.eq_new_of_point hf hpoint] at hpath
  obtain rfl := h.eq_of_dependsOn he hpath
  have := h.seq
  rw [hsubject] at this
  omega

/-- **A pass leaves the states it left before.** -/
lemma finalState_eq {member : PdnId} {seq : ℕ} (hseq : seq ≤ (Parsed.of entries).run member) :
    h.all.finalState setAside member seq = h.old.finalState setAside member seq :=
  ((h.adds.simulates fun _ _ => Iff.rfl).final_eq (h.apart hseq)).symm

lemma finalVerdict_eq (hevent : event ∈ h.old.list) :
    h.all.finalVerdict setAside event =
      h.old.finalVerdict setAside event :=
  (congrArg (verdictOf setAside event) ((h.adds.simulates fun _ _ => Iff.rfl).result_eq
    ⟨rfl, hevent, h.adds.mem event hevent⟩
    (h.apart (h.old.seq_le_run event hevent)))).symm

lemma counted_of_before (hevent : h.old.Counted setAside event) : h.all.Counted setAside event :=
  ⟨h.adds.mem event hevent.1, (h.finalVerdict_eq hevent.1).trans hevent.2⟩

lemma counted_cases (hevent : h.all.Counted setAside event) :
    h.old.Counted setAside event ∨ event = new :=
  ((h.candidates event).mp hevent.1).imp_left fun hbefore =>
    ⟨hbefore, (h.finalVerdict_eq hbefore).symm.trans hevent.2⟩

lemma needed_of_counted (hcounted : h.all.Counted setAside new) :
    allows (h.last setAside new.subject) new.kind = true ∧
      Pass.needed new.kind (h.old.finalState setAside new.actor new.actorSeq) = true := by
  have hallows := allows_of_counted hcounted
  have hneeded := (judged_of_counted hcounted).2.1
  rw [h.seq, Nat.add_sub_cancel, h.finalState_eq le_rfl] at hallows
  rw [h.finalState_eq h.actorSeq] at hneeded
  exact ⟨hallows, hneeded⟩

/-! ## The ends of the chains -/

lemma finalState_end_of_ne {member : PdnId} (hne : member ≠ new.subject) :
    h.all.finalState setAside member ((Parsed.of (entries ++ [held])).run member) =
      h.last setAside member := by
  rw [h.adds.run_of_ne hne]
  exact h.finalState_eq le_rfl

lemma seq_le_of_counted (hevent : h.all.Counted setAside event)
    (hsubject : event.subject = new.subject) : event.seq ≤ new.seq := by
  rcases h.counted_cases hevent with hbefore | rfl
  · have hle := h.old.seq_le_run event hbefore.1
    rw [hsubject] at hle
    have := h.seq
    omega
  · exact le_rfl

lemma finalState_end (hcounted : h.all.Counted setAside new) :
    h.all.finalState setAside new.subject
      ((Parsed.of (entries ++ [held])).run new.subject) = apply new.kind := by
  rw [finalState_eq_of_latest (fun e he hsubject => h.seq_le_of_counted he hsubject)
    h.adds.seq_le_run le_rfl]
  exact h.adds.finalState_new hcounted

/-- **The view shows what an added event leaves**: the guard setting aside what it did before, the
checks on the view of before are those the event is judged by, and its state ends its chain. -/
lemma shown_end (orders : ℕ → HashOrder) (hset : h.allSet = h.oldSet)
    (hallows : allows (h.last h.oldSet new.subject) new.kind = true)
    (hneeded : Pass.needed new.kind (h.old.finalState h.oldSet new.actor new.actorSeq) = true)
    (hheld : ¬ h.adds.Behind h.oldSet) :
    (MembershipView.new prims orders pod store (entries ++ [held])).verdicts[entries.length]? =
        some .counted ∧
      ((MembershipView.new prims orders pod store (entries ++ [held])).member new.subject).map
        Member.state = some (apply new.kind) := by
  obtain ⟨hcounted, hverdict, -⟩ := h.adds.shown orders hset hallows hneeded hheld
  have hpos : 0 < (Parsed.of (entries ++ [held])).run new.subject := by
    have := h.adds.seq_le_run
    have := h.seq
    omega
  refine ⟨hverdict, ?_⟩
  rw [member_new, if_pos (mem_identities.mpr (Or.inl (Parsed.mem_chains_of_run hpos))),
    Option.map_some]
  exact congrArg some (h.finalState_end hcounted)

lemma finalState_end_of_not (hnot : ¬ h.all.Counted setAside new) (member : PdnId) :
    h.all.finalState setAside member ((Parsed.of (entries ++ [held])).run member) =
      h.last setAside member := by
  have hlatest : ∀ e, h.all.Counted setAside e →
      e.subject = member → e.seq ≤ (Parsed.of entries).run member := by
    intro e he hsubject
    rcases h.counted_cases he with hbefore | rfl
    · exact hsubject ▸ h.old.seq_le_run e hbefore.1
    · exact absurd he hnot
  rw [finalState_eq_of_latest hlatest (run_mono (List.subset_append_left _ _) member) le_rfl]
  exact h.finalState_eq le_rfl

/-! ## What the guard sets aside -/

lemma spared_iff_of_not (hnot : ¬ h.all.Counted setAside new) :
    h.all.Spared setAside event ↔
      h.old.Spared setAside event := by
  have hcounted : ∀ e, h.all.Counted setAside e ↔
      h.old.Counted setAside e := fun e =>
    ⟨fun he => (h.counted_cases he).resolve_right fun heq => hnot (heq ▸ he), h.counted_of_before⟩
  refine spared_iff (exists_congr fun member => ?_) (fun member seq actor => ?_)
    fun e _ => Or.inl (hcounted e)
  · rw [h.finalState_end_of_not hnot member]
  · exact ended_iff (by rw [h.finalState_end_of_not hnot member]) fun e _ => hcounted e

/-- **A joined event changes nothing the guard reads**: who joins ends as a plain member after an
event that is no demotion. -/
lemma spared_iff_of_joined (hkind : new.kind = .joined) :
    h.all.Spared setAside event ↔
      h.old.Spared setAside event := by
  by_cases hnew : h.all.Counted setAside new
  swap
  · exact h.spared_iff_of_not hnew
  have hafter := h.finalState_end hnew
  rw [hkind] at hafter
  have hbefore : (h.last setAside new.subject).member = false := by
    have hallows := (h.needed_of_counted hnew).1
    rw [hkind] at hallows
    simpa [allows] using hallows
  have hcounted : ∀ e : Event, e.subject ≠ new.subject →
      (h.all.Counted setAside e ↔
        h.old.Counted setAside e) := fun e hne =>
    ⟨fun he => (h.counted_cases he).resolve_right fun heq => hne (heq ▸ rfl), h.counted_of_before⟩
  refine spared_iff (exists_congr fun member => ?_) (fun member seq actor => ?_)
    fun e hdemoted => ?_
  · by_cases hne : member = new.subject
    · subst hne
      rw [hafter]
      refine iff_of_false (by decide) fun howner => ?_
      rw [member_of_owner le_rfl howner] at hbefore
      cases hbefore
    · rw [h.finalState_end_of_ne hne]
  · by_cases hne : member = new.subject
    · subst hne
      refine iff_of_false (fun hended => ?_) fun hended => ?_
      · -- the event that ends the chain is the joined one
        obtain ⟨e, he, hpoint, hdemoted, -⟩ := hended.lowest.1
        have hle := hended.latest new hnew rfl
        have hge := h.seq_le_of_counted he (Prod.mk.inj hpoint).1
        have hseq := (Prod.mk.inj hpoint).2
        have heq := h.adds.eq_new_of_point he.1 (Prod.ext (Prod.mk.inj hpoint).1 (by
          show e.seq = new.seq
          omega))
        rw [heq, hkind] at hdemoted
        cases hdemoted
      · rw [hended.remains] at hbefore
        cases hbefore
    · exact ended_iff (by rw [h.finalState_end_of_ne hne]) fun e hsubject =>
        hcounted e (hsubject ▸ hne)
  · by_cases hne : e.subject = new.subject
    · refine Or.inr fun actor hended => ?_
      rw [hne] at hended
      rw [hended.remains] at hbefore
      cases hbefore
    · exact Or.inl (hcounted e hne)

/-- **Who joins changes nothing the guard sets aside.** -/
lemma finalSet_eq_of_joined (hkind : new.kind = .joined) : h.allSet = h.oldSet :=
  guardSet_eq (fun _ _ _ => h.spared_iff_of_joined hkind) _ le_rfl

/-- **An act of an owner changes nothing the guard sets aside.**

**Proof sketch.** The guard acts in a pass that shows no owner. In such a pass of before the actor
was none, so the act does not count and the guard reads what it did. Once a pass shows an owner
the guard stops; that is the pass the view shows, and there the actor is an owner, before the act
and after it. -/
lemma finalSet_eq_of_owner (hactorSeq : new.actorSeq = (Parsed.of entries).run new.actor)
    (hneeds : ∀ state, Pass.needed new.kind state = true → state.owner = true)
    (hself : new.actor = new.subject → (apply new.kind).owner = true)
    (howner : (h.last h.oldSet new.actor).owner = true) : h.allSet = h.oldSet := by
  refine guardSet_eq (fun k hk e => ?_) _ le_rfl
  by_cases hsome : h.old.HasOwner
    (guardSet prims pod store entries k)
  · have hfinal : h.oldSet = guardSet prims pod store entries k := by
      rw [oldSet, finalSet, ← guardSet_add_eq_of_hasOwner hsome (guardPasses - 1 - k)]
      congr 1
      omega
    rw [hfinal] at howner
    have hsome' : h.all.HasOwner
        (guardSet prims pod store entries k) := by
      refine ⟨new.actor, ?_⟩
      by_cases hcounted : h.all.Counted
        (guardSet prims pod store entries k) new
      · by_cases heq : new.actor = new.subject
        · rw [heq, h.finalState_end hcounted]
          exact hself heq
        · rw [h.finalState_end_of_ne heq]
          exact howner
      · rw [h.finalState_end_of_not hcounted]
        exact howner
    exact iff_of_false (fun hspared => hspared.1 hsome') fun hspared => hspared.1 hsome
  · refine h.spared_iff_of_not fun hcounted => hsome ⟨new.actor, hneeds _ ?_⟩
    rw [← hactorSeq]
    exact (h.needed_of_counted hcounted).2

/-- **A departure the guard need not answer**: another owner stays, no other member does, or there
was no owner for it to keep. -/
lemma finalSet_eq_of_left (hkind : new.kind = .left) (hempty : h.oldSet = ∅)
    (hcounted : h.all.Counted ∅ new)
    (hlast : (∃ member ≠ new.subject, (h.last ∅ member).owner = true) ∨
      (∀ member ≠ new.subject, (h.last ∅ member).member = false) ∨ ¬ h.old.HasOwner ∅) :
    h.allSet = ∅ := by
  have hnone : ∀ e, ¬ h.all.Spared
      (guardSet prims pod store (entries ++ [held]) 0) e := by
    rintro e ⟨hnone, member, seq, actor, hended, -⟩
    -- who left is no member any more, so the chain that ended is another's
    have hne : member ≠ new.subject := by
      rintro rfl
      have hremains := hended.remains
      rw [show guardSet prims pod store (entries ++ [held]) 0 = ∅ from rfl,
        h.finalState_end hcounted, hkind] at hremains
      cases hremains
    have hbefore : h.old.Ended ∅ member seq actor := by
      refine (ended_iff (by rw [h.finalState_end_of_ne hne]) fun e hsubject => ?_).mp hended
      exact ⟨fun he => (h.counted_cases he).resolve_right fun heq => hne (hsubject ▸ heq ▸ rfl),
        h.counted_of_before⟩
    rcases hlast with ⟨other, hother, howner⟩ | hgone | hno
    · refine hnone ⟨other, ?_⟩
      rw [h.adds.run_of_ne hother]
      exact (congrArg MemberState.owner (h.finalState_eq le_rfl)).trans howner
    · have hremains := hbefore.remains
      rw [hgone member hne] at hremains
      cases hremains
    · obtain ⟨e, hspared⟩ := exists_spared hno hbefore
      exact not_spared_of_finalSet hempty e hspared
  have hstays := guardSet_add_eq hnone (guardPasses - 1)
  rwa [Nat.zero_add] at hstays

end AddsOne

end MeePdn
