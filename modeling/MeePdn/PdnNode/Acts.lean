import MeePdn.DataLayer.Pod.MembershipView.OneMore
import MeePdn.DataLayer.Pod.Testing
import MeePdn.PdnNode.Pods

/-!
# The acts of a member

An act is checked on one membership view and judged by another, that of the store with the act's
event. This module relates the two: what the checks make sure of is what the event is judged on,
as long as nothing the store holds was waiting for the act.

## Main definitions

* `GivenUpOn` — the evaluation gives up on waiting events with the actor's chain behind.
* `DependsOnItself`, `ChainDependsOn` — an event on a loop of dependencies, a chain with one that
  depends on another.

## Main results

* `actKey_eq_ok` — what an act's key is, and what its checks make sure of.
* `remove_counted` — **an owner's removal counts**, whatever else the store holds.
* `remove_withstood` — but not where the subject wrote an event that waits for its own removal.
-/

namespace MeePdn.Pods

open Settling Classical Relation

variable {prims : Primitives} {orders orders' : ℕ → HashOrder} {pod : PodId} {store : NamespaceId}
  {entries : List HeldEntry} {held : HeldEntry} {new : Event}

/-! ## The key of an act -/

lemma run_lt (member : PdnId) : (Parsed.of entries).run member < 2 ^ 64 := by
  rcases Nat.eq_zero_or_pos ((Parsed.of entries).run member) with hzero | hpos
  · rw [hzero]
    decide
  · obtain ⟨event, hevent, -, hseq⟩ :=
      Parsed.mem_present.mp (Parsed.le_run_iff.mp le_rfl _ hpos le_rfl)
    obtain ⟨held, -, hat⟩ := Parsed.mem_events.mp hevent
    rw [← hseq]
    unfold Parsed.eventAt at hat
    split at hat
    · rw [← Option.some.inj hat]
      exact Seq.toNat_lt _
    · cases hat

variable (prims orders pod store entries) in
lemma run_member_new (member : PdnId) :
    (((MembershipView.new prims orders pod store entries).member member).map Member.run).getD 0 =
      (Parsed.of entries).run member := by
  rw [member_new]
  split
  · exact run_shownMember member
  · next hnot =>
    rcases Nat.eq_zero_or_pos ((Parsed.of entries).run member) with hzero | hpos
    · exact hzero.symm
    · exact absurd (mem_identities.mpr (Or.inl (Parsed.mem_chains_of_run hpos))) hnot

lemma eq_shownMember {member : PdnId} {shown : Member}
    (h : (MembershipView.new prims orders pod store entries).member member = some shown) :
    shown = shownMember prims pod store entries member := by
  rw [member_new] at h
  split at h
  · exact (Option.some.inj h).symm
  · cases h

/-- **The key of an act**: its checks pass, and it lies right after its subject's run, naming its
actor's. -/
lemma actKey_eq_ok {view : MembershipView} {identity : PdnId} {act : PodAct}
    {key : MembershipKey} (h : actKey view identity pod act = .ok key) :
    ∃ actor subject kind, view.member identity = some actor ∧ actor.state.member = true ∧
      actEvent view identity actor act = .ok (subject, kind) ∧
      ((view.member subject).map Member.run).getD 0 + 1 ≤ maxU64 ∧
      key = .event subject (Seq.new (((view.member subject).map Member.run).getD 0 + 1)) kind
        identity (Seq.new actor.run) := by
  unfold actKey requireMember at h
  rcases hactor : (view.member identity).filter (fun member => member.state.member) with _ | actor
  · rw [hactor] at h
    cases h
  obtain ⟨hshown, hmember⟩ := Option.filter_eq_some_iff.mp hactor
  rw [hactor] at h
  rcases hact : actEvent view identity actor act with _ | ⟨subject, kind⟩
  · simp only [bind, Except.bind, hact] at h
    cases h
  simp only [bind, Except.bind, hact] at h
  split at h
  · cases h
  · next hle => exact ⟨actor, subject, kind, hshown, hmember, hact, not_lt.mp hle, by cases h; rfl⟩

/-- What the checks on an owner's act make sure of. -/
lemma ownerEvent_eq_ok {view : MembershipView} {identity subject : PdnId} {actor : Member}
    {kind : EventKind} {result : PdnId × EventKind}
    (h : ownerEvent view identity actor subject kind = .ok result) :
    result = (subject, kind) ∧ actor.state.owner = true ∧
      (subject = identity → kind = .promoted) ∧
      ∃ target, view.member subject = some target ∧ target.state.member = true ∧
        (kind = .demoted → target.state.owner = true) := by
  unfold ownerEvent at h
  split at h
  · cases h
  next howner =>
  split at h
  · cases h
  next hself =>
  split at h
  · cases h
  next target htarget =>
  split at h
  · cases h
  next hdemoted =>
  obtain ⟨hshown, hmember⟩ := Option.filter_eq_some_iff.mp htarget
  refine ⟨by cases h; rfl, by simpa using howner, fun heq => ?_, target, hshown, hmember,
    fun hkind => ?_⟩
  · exact not_not.mp fun hne => hself ⟨heq, hne⟩
  · exact by_contra fun hnot => hdemoted ⟨hkind, hnot⟩

/-- The event an entry adds right after its subject's run. -/
def addedEvent (entries : List HeldEntry) (subject : PdnId) (kind : EventKind) (actor : PdnId)
    (actorSeq : ℕ) : Event :=
  ⟨entries.length, subject, (Parsed.of entries).run subject + 1, kind, actor, actorSeq⟩

lemma eventAt_added {subject actor : PdnId} {kind : EventKind} {actorSeq : ℕ}
    (hseq : (Parsed.of entries).run subject + 1 ≤ maxU64) (hactorSeq : actorSeq < 2 ^ 64)
    (hkey : held.key = (MembershipKey.event subject (Seq.new ((Parsed.of entries).run subject + 1))
      kind actor (Seq.new actorSeq)).toBytes) :
    Parsed.eventAt (held, entries.length) =
      some (addedEvent entries subject kind actor actorSeq) := by
  unfold Parsed.eventAt
  simp only [hkey, MembershipKey.parse_toBytes]
  rw [Seq.toNat_new (by simp only [maxU64] at hseq; omega), Seq.toNat_new hactorSeq]
  rfl

/-- **The event of an act**: its checks pass, and the entry under its key, whoever writes it, is an
event right after its subject's run that names its actor's. -/
lemma actKey_new {identity : PdnId} {act : PodAct} {key : MembershipKey}
    (h : actKey (MembershipView.new prims orders pod store entries) identity pod act = .ok key) :
    ∃ actor subject kind,
      (MembershipView.new prims orders pod store entries).member identity = some actor ∧
      actor.state.member = true ∧
      actEvent (MembershipView.new prims orders pod store entries) identity actor act =
        .ok (subject, kind) ∧
      ∀ author payload, Parsed.eventAt (⟨key.toBytes, author, payload⟩, entries.length) =
        some (addedEvent entries subject kind identity ((Parsed.of entries).run identity)) := by
  grind [eq_shownMember, run_shownMember, run_member_new, actKey_eq_ok, eventAt_added, run_lt]

/-! ## The candidate an act is -/

section Added

variable {subject actor : PdnId} {kind : EventKind} (hact : kind.isAct = true)
  (hnew : Parsed.eventAt (held, entries.length) =
    some (addedEvent entries subject kind actor ((Parsed.of entries).run actor)))

include hact hnew

variable (prims pod store) in
lemma authors_act : (checksOf prims pod store (entries ++ [held])).authors =
    (checksOf prims pod store entries).authors := by
  have hkind : ∀ new, Parsed.eventAt (held, entries.length) = some new → new.kind.isAct = true := by
    intro new h
    rw [← Option.some.inj (hnew.symm.trans h)]
    exact hact
  funext member
  exact authors_append (fun new h _ => carriedKey_of_isAct (hkind new h))
    (fun _ h => (Parsed.eventAt_statementAt hnew h).elim)
    fun new h _ => joiningDevice_of_isAct (hkind new h)

variable (hleft : kind = .left → actor = subject)
  (hother : kind = .removed ∨ kind = .demoted → actor ≠ subject)
  (hauthor : held.author ∈ (checksOf prims pod store entries).authors actor)

omit hnew in
include hleft hother in
lemma kindAlone_act : Alone.kindAlone prims pod store (entries ++ [held])
    (addedEvent entries subject kind actor ((Parsed.of entries).run actor)) = .ok () := by
  unfold Alone.kindAlone addedEvent
  cases kind with
  | created => cases hact
  | joined => cases hact
  | left => simp [hleft rfl]
  | removed => simp [hother (Or.inl rfl)]
  | promoted => rfl
  | demoted => simp [hother (Or.inr rfl)]

include hleft hother hauthor

lemma passes_act : Passes prims pod store entries held
    (addedEvent entries subject kind actor ((Parsed.of entries).run actor)) := by
  have hauthors := authors_act prims pod store hact hnew
  exact ⟨hnew, rfl, le_rfl, kindAlone_act hact hleft hother, hauthors ▸ hauthor,
    fun _ => hauthors ▸ subset_rfl, fun _ _ _ _ h => hauthors ▸ h⟩

end Added

/-! ## Removal -/

/-- In the pass the view shows, a step that gives up on all waiting events finds the subject's chain
settled as far as it runs, and the actor's not. -/
def GivenUpOn (prims : Primitives) (pod : PodId) (store : NamespaceId) (entries : List HeldEntry)
    (actor subject : PdnId) : Prop :=
  ((candidatesOf prims pod store entries).log (finalSet prims pod store entries)).HeldUp
    membershipRules loopRounds subject ((Parsed.of entries).run subject) actor
    ((Parsed.of entries).run actor)

/-- The event of an entry depends on itself. -/
def DependsOnItself (prims : Primitives) (pod : PodId) (store : NamespaceId)
    (entries : List HeldEntry) (entry : ℕ) : Prop :=
  ∃ event ∈ (Parsed.of entries).events, event.entry = entry ∧
    TransGen (DependsOn prims pod store entries) event event

/-- An event of a chain depends on the one of an entry. -/
def ChainDependsOn (prims : Primitives) (pod : PodId) (store : NamespaceId)
    (entries : List HeldEntry) (chain : PdnId) (entry : ℕ) : Prop :=
  ∃ event ∈ (Parsed.of entries).events, event.subject = chain ∧
    ∃ other ∈ (Parsed.of entries).events, other.entry = entry ∧
      TransGen (DependsOn prims pod store entries) event other

lemma apart_of_not_chainDependsOn {new : Event} (h : Adds prims pod store entries held new)
    {chain : PdnId} {seq : ℕ} (hne : chain ≠ new.subject)
    (hchain : ¬ ChainDependsOn prims pod store (entries ++ [held]) chain entries.length) :
    Apart prims pod store (entries ++ [held]) new.point chain seq := by
  intro e he hsubject _ f hf hpoint hpath
  obtain rfl := h.eq_new_of_point hf hpoint
  rcases reflTransGen_iff_eq_or_transGen.mp hpath with rfl | hpath
  · exact hne hsubject.symm
  · exact hchain ⟨e, (mem_candidatesOf.mp he).1, hsubject, f, (mem_candidatesOf.mp hf).1, h.entry,
      hpath⟩

variable (orders) in
lemma exists_cyclic_of_heldUp {actor subject : PdnId} {seq actorSeq : ℕ}
    (hactorSeq : actorSeq ≤ (Parsed.of entries).run actor)
    (h : ((candidatesOf prims pod store entries).log (finalSet prims pod store entries)).HeldUp
      membershipRules loopRounds subject seq actor actorSeq) :
    ∃ event ∈ (Parsed.of entries).events, event.subject = actor ∧
      (MembershipView.new prims orders pod store entries).verdicts[event.entry]? =
        some (.countedForNothing .cyclic) := by
  obtain ⟨f, hcyclic, hf, hsubject⟩ := h.exists_cyclic hactorSeq
  refine ⟨f, (mem_candidatesOf.mp hf).1, hsubject, ?_⟩
  rw [verdict_new hf, (finalVerdict_eq_cyclic_iff hf).mpr hcyclic]

lemma mem_authors {member : PdnId} {shown : Member} {author : AuthorId}
    (h : (MembershipView.new prims orders pod store entries).member member = some shown)
    (hauthor : author ∈ shown.devices.image MemberDevice.author) :
    author ∈ (checksOf prims pod store entries).authors member := by
  rw [eq_shownMember h] at hauthor
  rw [(Alone.of_checked prims pod store entries).authors]
  exact hauthor

/-- **An owner's removal of another member counts**, whatever the store holds, unless the evaluation
gave up on the owner's chain, when

* nothing that waits for a chain lies past the subject's run or names a point past it, or
* the guard sets nothing aside and the removal does not depend on itself.

**Proof sketch.** What the removal makes a candidate depends on it, so in every pass the states it
is judged on are those of the view before. In the first case nothing else changes, and the guard's
steps are the same: while they find no owner the removal does not count. In the second the owner
keeps the guard from acting. -/
theorem remove_counted (orders orders' : ℕ → HashOrder) (payload : HeldPayload)
    {owner subject : PdnId} {actor target : Member} {author : AuthorId} {key : MembershipKey}
    (hactor : (MembershipView.new prims orders pod store entries).member owner = some actor)
    (howner : actor.state.owner = true)
    (htarget : (MembershipView.new prims orders pod store entries).member subject = some target)
    (hmember : target.state.member = true) (hne : subject ≠ owner)
    (hauthor : author ∈ actor.devices.image MemberDevice.author)
    (hkey : actKey (MembershipView.new prims orders pod store entries) owner pod
      (.remove subject) = .ok key)
    (hsettled : ¬ GivenUpOn prims pod store entries owner subject)
    (hquiet : ¬ WaitsPast entries (MembershipView.new prims orders pod store entries) subject ∨
      (∀ i : ℕ, (MembershipView.new prims orders pod store entries).verdicts[i]? ≠
        some (.countedForNothing .lastOwnerKept)) ∧
      ¬ DependsOnItself prims pod store (entries ++ [⟨key.toBytes, author, payload⟩])
        entries.length) :
    (MembershipView.new prims orders' pod store
        (entries ++ [⟨key.toBytes, author, payload⟩])).verdicts[entries.length]? = some .counted ∧
      ∃ after, (MembershipView.new prims orders' pod store
          (entries ++ [⟨key.toBytes, author, payload⟩])).stateAt subject (target.run + 1) =
        some after ∧ after.member = false := by
  obtain ⟨actor', subject', kind, -, -, hevent, hadded⟩ := actKey_new hkey
  obtain ⟨heq, -⟩ := ownerEvent_eq_ok hevent
  obtain ⟨rfl, rfl⟩ := Prod.mk.inj heq
  have hnew := hadded author payload
  have hwrites := mem_authors hactor hauthor
  have hrun : target.run = (Parsed.of entries).run subject' := by
    rw [eq_shownMember htarget, run_shownMember]
  rw [eq_shownMember hactor] at howner
  rw [eq_shownMember htarget] at hmember
  have hpasses : Passes prims pod store entries _ _ :=
    passes_act rfl hnew (by simp) (fun _ => hne.symm) hwrites
  -- either way the event is apart from what it is judged on, and the guard does the same
  obtain ⟨hadds, hset⟩ : Adds prims pod store entries ⟨key.toBytes, author, payload⟩
        (addedEvent entries subject' .removed owner ((Parsed.of entries).run owner)) ∧
      finalSet prims pod store (entries ++ [⟨key.toBytes, author, payload⟩]) =
        finalSet prims pod store entries := by
    rcases hquiet with hquiet | ⟨hkept, hself⟩
    · have hone := hpasses.addsOne hquiet
      exact ⟨hone.adds, hone.finalSet_eq_of_owner rfl (fun _ h => h)
        (fun h => absurd h.symm hne) howner⟩
    · have hadds := hpasses.adds fun hpath =>
        hself ⟨_, mem_events_append.mpr (Or.inr hnew), rfl, hpath⟩
      have hempty := finalSet_eq_empty hkept
      exact ⟨hadds, (hadds.finalSet_eq_empty hempty hne.symm hadds.apart.2 howner).trans
        hempty.symm⟩
  obtain ⟨-, hverdict, hstate⟩ := hadds.shown orders' hset hmember howner hsettled
  exact ⟨hverdict, default, hrun ▸ hstate, rfl⟩

open Testing in
set_option maxRecDepth 100000 in
/-- Alice removes Bob. -/
theorem remove_counted_bob :
    let family := (Store.createdBy alice).invite alice 1 bob
    let held : HeldEntry := ⟨(event bob.id 2 .removed alice.id 1).toBytes, alice.author, .unread⟩
    ∃ target, family.membershipView.member bob.id = some target ∧
      (MembershipView.new transparent (fun _ => default) family.pod family.namespaceId
        (family.entries ++ [held])).verdicts[family.entries.length]? = some .counted ∧
      ∃ after, (MembershipView.new transparent (fun _ => default) family.pod family.namespaceId
          (family.entries ++ [held])).stateAt bob.id (target.run + 1) = some after ∧
        after.member = false := by
  intro family held
  obtain ⟨actor, hactor, howner⟩ := (Option.any_eq_true _ _).mp (show
    ((family.membershipView.member alice.id).any fun actor => actor.state.owner &&
      decide (alice.author ∈ actor.devices.image MemberDevice.author)) = true by decide +kernel)
  obtain ⟨target, htarget, hmember⟩ := (Option.any_eq_true _ _).mp (show
    ((family.membershipView.member bob.id).any fun target => target.state.member) = true by
      decide +kernel)
  rw [Bool.and_eq_true, decide_eq_true_eq] at howner
  refine ⟨target, htarget, remove_counted _ _ .unread hactor howner.1 htarget hmember (by decide)
    howner.2 (by decide +kernel) (fun hgiven => ?_) (Or.inl ?_)⟩
  · obtain ⟨event, hevent, -, hcyclic⟩ :=
      exists_cyclic_of_heldUp (fun _ => default) le_rfl hgiven
    revert event
    decide +kernel
  · unfold WaitsPast
    decide +kernel

/-- An owner's removal of a member, from the owner's own device, that does not count and leaves the
member one. -/
def Withstands (family : Testing.Store) (owner subject : Testing.Person) (seq actorSeq : UInt64) :
    Prop :=
  let key := Testing.event subject.id seq .removed owner.id actorSeq
  let view := family.membershipView
  let after := (family.write key owner.author [0]).membershipView
  ((view.member owner.id).any fun actor => actor.state.owner &&
      decide (owner.author ∈ actor.devices.image MemberDevice.author)) = true ∧
    ((view.member subject.id).any fun target => target.state.member) = true ∧
    (actKey view owner.id family.pod (.remove subject.id)).toOption = some key ∧
    after.verdicts[family.entries.length]? ≠ some .counted ∧
    ((after.stateAt subject.id seq.toNat).any fun state => state.member) = true

instance (family : Testing.Store) (owner subject : Testing.Person) (seq actorSeq : UInt64) :
    Decidable (Withstands family owner subject seq actorSeq) :=
  inferInstanceAs (Decidable (_ ∧ _ ∧ _ ∧ _ ∧ _))

open Testing in
set_option maxRecDepth 100000 in
/-- A removal may not count: where the subject wrote an act on the owner that names the sequence of
its own removal, the two wait for each other; where a member's acts on itself keep the evaluation
busy past its rounds, it gives up on the owner's chain; and where the guard restored the owner, an
act past the removal may bring up another owner instead. -/
theorem remove_withstood :
    let family := ((Store.createdBy alice).invite alice 1 bob).invite alice 1 carol
    let owners := family.act .promoted bob 2 alice 1
    Withstands (owners.act .promoted bob 2 carol 2) bob carol 2 2 ∧
    Withstands ((((((family.act .promoted bob 2 bob 2).act .promoted bob 3 bob 3).act .promoted
      bob 4 bob 4).act .promoted bob 5 bob 5).act .promoted bob 6 bob 6).act .promoted alice 2
      bob 6) alice carol 2 2 ∧
    Withstands (((owners.act .demoted bob 3 alice 1).act .demoted alice 2 bob 2).act .promoted carol
      3 bob 2) alice carol 2 2 := by
  decide +kernel

end MeePdn.Pods
