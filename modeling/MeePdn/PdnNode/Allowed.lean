import MeePdn.PdnNode.Joins

/-!
# What a device lets a user do counts

The checks of `act_event` and `serve_join` read one membership view; what they let through is judged
by the view of the larger store. Where nothing waits and nothing is cyclic the two agree.

## Main results

* `leave_last` — who may leave as an owner leaves another owner, or no member.
* `allowed_counted` — **an act the checks allow, and the joined event of an invite, count**.
* `joined_uncounted` — but an event the joiner's device wrote before it was listed may be in the
  way.
-/

namespace MeePdn.Pods

open Settling Classical Relation

variable {prims : Primitives} {orders orders' : ℕ → HashOrder} {pod : PodId} {store : NamespaceId}
  {entries : List HeldEntry} {held : HeldEntry} {identity : PdnId} {actor : Member}

/-! ## Leaving -/

lemma one_lt_length_of_ne {α : Type} {l : List α} {a b : α} (ha : a ∈ l) (hb : b ∈ l)
    (hne : a ≠ b) : 1 < l.length := by
  rcases l with _ | ⟨c, _ | ⟨d, l⟩⟩
  · cases ha
  · exact absurd ((List.mem_singleton.mp ha).trans (List.mem_singleton.mp hb).symm) hne
  · simp

/-- **Who may leave**: another owner stays, no other member does, or there is no owner at all. -/
lemma leave_last {result : PdnId × EventKind}
    (hactor : (MembershipView.new prims orders pod store entries).member identity = some actor)
    (hmember : actor.state.member = true)
    (h : actEvent (MembershipView.new prims orders pod store entries) identity actor .leave =
      .ok result) :
    (∃ member ≠ identity, (shownMember prims pod store entries member).state.owner = true) ∨
      (∀ member ≠ identity, (shownMember prims pod store entries member).state.member = false) ∨
      ∀ member, (shownMember prims pod store entries member).state.owner = false := by
  have hself := eq_shownMember hactor
  have hlisted : identity ∈ Pass.identities (Parsed.of entries) := by
    by_contra hnot
    rw [member_new, if_neg hnot] at hactor
    cases hactor
  by_contra hcon
  simp only [not_or, not_exists, not_and, not_forall, Bool.not_eq_false, Bool.not_eq_true] at hcon
  obtain ⟨hno, ⟨other, hother, hmem⟩, owner, howner⟩ := hcon
  have hsole : owner = identity := by
    by_contra hne
    rw [hno owner hne] at howner
    cases howner
  rw [hsole] at howner
  simp only [actEvent] at h
  split at h
  · cases h
  next hguard =>
  refine hguard ⟨hself ▸ howner, ?_, ?_⟩
  · -- the one owner counts once
    have hcount : (Pass.identities (Parsed.of entries)).countP (fun member =>
        (shownMember prims pod store entries member).state.owner &&
          (shownMember prims pod store entries member).state.member) = 1 := by
      rw [← List.count_eq_one_of_mem (Pass.identities_nodup (Parsed.of entries)) hlisted]
      refine List.countP_congr fun member _ => ?_
      by_cases hne : member = identity
      · subst hne
        simp [howner, hself ▸ hmember]
      · simp [hno member hne, hne]
    rw [MembershipView.identities, members_new, List.filter_filter, ← List.countP_eq_length_filter,
      List.countP_map]
    exact hcount
  · have hshown : ∀ member ∈ Pass.identities (Parsed.of entries),
        (shownMember prims pod store entries member).state.member = true →
        (member, shownMember prims pod store entries member) ∈
          (MembershipView.new prims orders pod store entries).identities.filter
            fun shown => shown.2.state.member := by
      intro member hmember hstate
      rw [MembershipView.identities, members_new]
      exact List.mem_filter.mpr ⟨List.mem_map_of_mem hmember, hstate⟩
    have hotherListed : other ∈ Pass.identities (Parsed.of entries) := by
      have hshows : ShowsMember (MembershipView.new prims orders pod store entries) other :=
        showsMember_iff.mpr hmem
      obtain ⟨shown, hshown, -⟩ := hshows
      by_contra hnot
      rw [member_new, if_neg hnot] at hshown
      cases hshown
    exact one_lt_length_of_ne (hshown identity hlisted (hself ▸ hmember))
      (hshown other hotherListed hmem) fun heq => hother (Prod.mk.inj heq).1.symm

/-! ## What is allowed counts -/

section Allowed

variable
  (hyet : ∀ (i : ℕ) (awaiting : Awaiting),
    (MembershipView.new prims orders pod store entries).verdicts[i]? ≠ some (.notYet awaiting))
  (hcyclic : ∀ i : ℕ, (MembershipView.new prims orders pod store entries).verdicts[i]? ≠
    some (.countedForNothing .cyclic))

include hyet in
lemma not_waitsPast (chain : PdnId) :
    ¬ WaitsPast entries (MembershipView.new prims orders pod store entries) chain := by
  rintro ⟨event, -, -, h | h⟩
  · exact hyet event.entry _ h
  · exact hyet event.entry _ h

include hcyclic in
lemma not_heldUp {subject actor : PdnId} {seq actorSeq : ℕ}
    (hactorSeq : actorSeq ≤ (Parsed.of entries).run actor) :
    ¬ ((candidatesOf prims pod store entries).log (finalSet prims pod store entries)).HeldUp
      membershipRules loopRounds subject seq actor actorSeq := by
  intro hheld
  obtain ⟨event, -, -, hverdict⟩ := exists_cyclic_of_heldUp orders hactorSeq hheld
  exact hcyclic event.entry hverdict

include hyet hcyclic

variable (hactor : (MembershipView.new prims orders pod store entries).member identity = some actor)
  (hwrites : held.author ∈ (checksOf prims pod store entries).authors identity)

include hactor hwrites

/-- An owner's act that the checks allow counts. -/
lemma ownerEvent_counted (orders' : ℕ → HashOrder) {subject : PdnId} {kind : EventKind}
    {result : PdnId × EventKind}
    (hkind : kind = .promoted ∨ kind = .demoted ∨ kind = .removed)
    (hevent : ownerEvent (MembershipView.new prims orders pod store entries) identity actor subject
      kind = .ok result)
    (hnew : Parsed.eventAt (held, entries.length) =
      some (addedEvent entries subject kind identity ((Parsed.of entries).run identity))) :
    (MembershipView.new prims orders' pod store (entries ++ [held])).verdicts[entries.length]? =
        some .counted ∧
      ((MembershipView.new prims orders' pod store (entries ++ [held])).member subject).map
        Member.state = some (apply kind) := by
  obtain ⟨-, howner, hself, target, htarget, hmember, hdemoted⟩ := ownerEvent_eq_ok hevent
  rw [eq_shownMember hactor] at howner
  rw [eq_shownMember htarget] at hmember hdemoted
  have hone : AddsOne prims pod store entries held
      (addedEvent entries subject kind identity ((Parsed.of entries).run identity)) := by
    refine (passes_act ?_ hnew ?_ ?_ hwrites).addsOne (not_waitsPast hyet subject)
    · rcases hkind with rfl | rfl | rfl <;> rfl
    · rcases hkind with rfl | rfl | rfl <;> simp
    · rintro hkind' rfl
      rw [hself rfl] at hkind'
      rcases hkind' with h | h <;> cases h
  have hneeds : ∀ state, Pass.needed kind state = true ↔ state.owner = true := by
    rcases hkind with rfl | rfl | rfl <;> exact fun _ => Iff.rfl
  refine hone.shown_end orders' ?_ ?_ ((hneeds _).mpr howner) (not_heldUp hcyclic le_rfl)
  · refine hone.finalSet_eq_of_owner rfl (fun state => (hneeds state).mp) (fun heq => ?_) howner
    rw [show (addedEvent entries subject kind identity _).kind = kind from rfl, hself heq.symm]
    rfl
  · rcases hkind with rfl | rfl | rfl
    · exact hmember
    · exact hdemoted rfl
    · exact hmember

/-- A departure that the checks allow counts, where the guard sets nothing aside. -/
lemma leave_counted (orders' : ℕ → HashOrder) {result : PdnId × EventKind}
    (hmember : actor.state.member = true)
    (hkept : ∀ i : ℕ, (MembershipView.new prims orders pod store entries).verdicts[i]? ≠
      some (.countedForNothing .lastOwnerKept))
    (hevent : actEvent (MembershipView.new prims orders pod store entries) identity actor .leave =
      .ok result)
    (hnew : Parsed.eventAt (held, entries.length) =
      some (addedEvent entries identity .left identity ((Parsed.of entries).run identity))) :
    (MembershipView.new prims orders' pod store (entries ++ [held])).verdicts[entries.length]? =
        some .counted ∧
      ((MembershipView.new prims orders' pod store (entries ++ [held])).member identity).map
        Member.state = some (apply .left) := by
  have hlast := leave_last hactor hmember hevent
  have hempty := finalSet_eq_empty hkept
  rw [eq_shownMember hactor] at hmember
  have hone : AddsOne prims pod store entries held
      (addedEvent entries identity .left identity ((Parsed.of entries).run identity)) :=
    (passes_act rfl hnew (fun _ => rfl) (by simp) hwrites).addsOne (not_waitsPast hyet identity)
  have hheld : ¬ hone.adds.Behind hone.oldSet := not_heldUp hcyclic le_rfl
  have hcounted := hone.adds.counted_new (fun _ _ => by rw [hempty]) hmember rfl hheld
    (Finset.notMem_empty _)
  refine hone.shown_end orders' ?_ hmember rfl hheld
  refine (hone.finalSet_eq_of_left rfl hempty hcounted ?_).trans hempty.symm
  rw [← hempty]
  refine hlast.imp id (Or.imp id fun hno => ?_)
  rintro ⟨member, howner⟩
  exact Bool.noConfusion ((hno member).symm.trans howner)

end Allowed

/-- A joiner that is no member is offered the first sequence its chain holds none at. -/
lemma offer_of_not_member {joiner : PdnId} {joinerRun : ℕ}
    (hout : ¬ ShowsMember (MembershipView.new prims orders pod store entries) joiner)
    (hrun : joinerRun ≤ (Parsed.of entries).run joiner)
    (hmax : (Parsed.of entries).run joiner < maxU64) :
    offer (MembershipView.new prims orders pod store entries) joiner joinerRun =
      ((Parsed.of entries).run joiner + 1, true) := by
  have hnone : ((MembershipView.new prims orders pod store entries).member joiner).bind
      Member.joinedAt = none := by
    rcases hshown : (MembershipView.new prims orders pod store entries).member joiner with _ | shown
    · rfl
    · have hstate : shown.state.member = false := by
        by_contra hmember
        exact hout ⟨shown, hshown, by simpa using hmember⟩
      simp [Member.joinedAt, hstate]
  unfold offer offeredSeq
  rw [hnone, run_member_new, max_eq_left hrun, min_eq_left (by omega)]

/-- **What a device lets a user do counts**, where nothing waits and nothing is cyclic: an act the
checks allow leaves its kind's state, a departure where the guard set nothing aside; and the joined
event of an invite makes the joiner a plain member, unless it lists a device that wrote as the
joiner before.

**Proof sketch.** The event is the one new candidate, judged on the states the checks read. An
owner's act and an invite leave the guard what it was; a departure leaves an owner, or nobody for
the guard to restore. -/
theorem allowed_counted (hinj : prims.Injective) (orders orders' : ℕ → HashOrder) (pod : PodId)
    (store : NamespaceId) (entries : List HeldEntry) (hlength : entries.length < 2 ^ 63)
    (hyet : ∀ (i : ℕ) (awaiting : Awaiting),
      (MembershipView.new prims orders pod store entries).verdicts[i]? ≠ some (.notYet awaiting))
    (hcyclic : ∀ i : ℕ, (MembershipView.new prims orders pod store entries).verdicts[i]? ≠
      some (.countedForNothing .cyclic))
    (identity : PdnId) (actor : Member) (author : AuthorId)
    (hactor : (MembershipView.new prims orders pod store entries).member identity = some actor)
    (hmember : actor.state.member = true)
    (hauthor : author ∈ actor.devices.image MemberDevice.author) :
    (∀ act subject kind key payload,
      (act = .leave → ∀ i : ℕ, (MembershipView.new prims orders pod store entries).verdicts[i]? ≠
        some (.countedForNothing .lastOwnerKept)) →
      actEvent (MembershipView.new prims orders pod store entries) identity actor act =
        .ok (subject, kind) →
      actKey (MembershipView.new prims orders pod store entries) identity pod act = .ok key →
      (MembershipView.new prims orders' pod store
          (entries ++ [⟨key.toBytes, author, payload⟩])).verdicts[entries.length]? =
        some .counted ∧
      ((MembershipView.new prims orders' pod store
          (entries ++ [⟨key.toBytes, author, payload⟩])).member subject).map Member.state =
        some (apply kind)) ∧
    ∀ request creation made acceptance key payload,
      ¬ ShowsMember (MembershipView.new prims orders pod store entries) request.joiner →
      request.run ≤ (Parsed.of entries).run request.joiner →
      serveOffer prims (MembershipView.new prims orders pod store entries) identity request
        creation = some made →
      serveWrite prims pod (MembershipView.new prims orders pod store entries) identity request
        made acceptance = some (some (key, payload)) →
      ¬ NewlyListed entries (MembershipView.new prims orders pod store entries)
        (MembershipView.new prims orders' pod store
          (entries ++ [.arrived key.toBytes author payload])) request.joiner →
      (MembershipView.new prims orders' pod store
          (entries ++ [.arrived key.toBytes author payload])).verdicts[entries.length]? =
        some .counted ∧
      ((MembershipView.new prims orders' pod store
          (entries ++ [.arrived key.toBytes author payload])).member request.joiner).map
        Member.state = some ⟨true, false⟩ := by
  have hwrites := mem_authors hactor hauthor
  refine ⟨fun act subject kind key payload hleave hevent hkey => ?_, ?_⟩
  · obtain ⟨actor', subject', kind', hactor', -, hevent', hnew⟩ := actKey_new hkey
    obtain rfl := Option.some.inj (hactor.symm.trans hactor')
    obtain ⟨rfl, rfl⟩ := Prod.mk.inj (Except.ok.inj (hevent.symm.trans hevent'))
    cases act with
    | leave => grind [actEvent, leave_counted]
    | promote other =>
      obtain ⟨rfl, rfl⟩ := Prod.mk.inj (ownerEvent_eq_ok hevent).1
      exact ownerEvent_counted hyet hcyclic hactor hwrites orders' (by simp) hevent
        (hnew author payload)
    | demote other =>
      obtain ⟨rfl, rfl⟩ := Prod.mk.inj (ownerEvent_eq_ok hevent).1
      exact ownerEvent_counted hyet hcyclic hactor hwrites orders' (by simp) hevent
        (hnew author payload)
    | remove other =>
      obtain ⟨rfl, rfl⟩ := Prod.mk.inj (ownerEvent_eq_ok hevent).1
      exact ownerEvent_counted hyet hcyclic hactor hwrites orders' (by simp) hevent
        (hnew author payload)
  · intro request creation made acceptance key payload hout hrun hoffer hwrite hlisted
    have hmax : (Parsed.of entries).run request.joiner < maxU64 :=
      (Parsed.run_le_length _).trans_lt (hlength.trans (by decide))
    obtain ⟨hidentity, -, hmade⟩ := serveOffer_eq_some hoffer
    rw [offer_of_not_member hout hrun hmax] at hmade
    obtain ⟨hseq, hfresh⟩ := Prod.mk.inj hmade
    obtain ⟨inviter, statement, hinviter, rfl, rfl, hkey, hverifies⟩ :=
      serveWrite_joined hfresh hwrite
    obtain rfl := Option.some.inj (hactor.symm.trans hinviter)
    have hinviterRun : actor.run = (Parsed.of entries).run identity := by
      rw [eq_shownMember hactor, run_shownMember]
    have hne : identity ≠ request.joiner := by
      rintro rfl
      exact hout ⟨actor, hactor, hmember⟩
    have hnew : Parsed.eventAt (HeldEntry.arrived (MembershipKey.event request.joiner
          (Seq.new made.seq) .joined identity (Seq.new actor.run)).toBytes author
          statement.encode, entries.length) =
        some (addedEvent entries request.joiner .joined identity
          ((Parsed.of entries).run identity)) :=
      eventAt_added (by omega) (run_lt identity) (by rw [hseq, hinviterRun]; rfl)
    rw [eq_shownMember hactor] at hmember
    rw [hseq] at hverifies
    have hone := (passes_joined hnew hinj (payload_joined statement) hne (hkey ▸ hidentity)
      hverifies le_rfl hwrites hlisted).addsOne (not_waitsPast hyet request.joiner)
    refine hone.shown_end orders' (hone.finalSet_eq_of_joined rfl) ?_ hmember
      (not_heldUp hcyclic le_rfl)
    have hstate := fun h => hout (showsMember_iff.mpr h)
    simpa [allows, addedEvent] using hstate

open Testing in
set_option maxRecDepth 100000 in
/-- Alice promotes Bob, and invites Carol. -/
theorem allowed_counted_alice :
    let family := (Store.createdBy alice).invite alice 1 bob
    let promotion : HeldEntry :=
      ⟨(event bob.id 2 .promoted alice.id 1).toBytes, alice.author, .unread⟩
    let joined : HeldEntry := .arrived (event carol.id 1 .joined alice.id 1).toBytes alice.author
      (carol.keys.joinStatement transparent family.pod ⟨1⟩ carol.device).encode
    ((MembershipView.new transparent (fun _ => default) family.pod family.namespaceId
        (family.entries ++ [promotion])).verdicts[family.entries.length]? = some .counted ∧
      ((MembershipView.new transparent (fun _ => default) family.pod family.namespaceId
        (family.entries ++ [promotion])).member bob.id).map Member.state = some ⟨true, true⟩) ∧
    (MembershipView.new transparent (fun _ => default) family.pod family.namespaceId
        (family.entries ++ [joined])).verdicts[family.entries.length]? = some .counted ∧
      ((MembershipView.new transparent (fun _ => default) family.pod family.namespaceId
        (family.entries ++ [joined])).member carol.id).map Member.state = some ⟨true, false⟩ := by
  intro family promotion joined
  obtain ⟨actor, hactor, hmember⟩ := (Option.any_eq_true _ _).mp (show
    ((family.membershipView.member alice.id).any fun actor => actor.state.member &&
      decide (alice.author ∈ actor.devices.image MemberDevice.author) &&
      decide ((actEvent family.membershipView alice.id actor (.promote bob.id)).toOption =
        some (bob.id, .promoted))) = true by decide +kernel)
  simp only [Bool.and_eq_true, decide_eq_true_eq] at hmember
  have hallowed := allowed_counted transparent_injective (fun _ => default) (fun _ => default)
    family.pod family.namespaceId family.entries (by decide +kernel)
    (fun i awaiting h => absurd (List.mem_of_getElem? h) (by cases awaiting <;> decide +kernel))
    (fun i h => absurd (List.mem_of_getElem? h) (by decide +kernel)) alice.id actor alice.author
    hactor hmember.1.1 hmember.1.2
  refine ⟨hallowed.1 (.promote bob.id) bob.id .promoted
    (event bob.id 2 .promoted alice.id 1) .unread
    (by simp) ?_ (by decide +kernel), hallowed.2 ⟨carol.id, carol.keys.publicKey transparent, 0⟩ []
    ⟨1, true, []⟩ ⟨some (carol.keys.joinStatement transparent family.pod ⟨1⟩ carol.device).encode,
    none⟩ (event carol.id 1 .joined alice.id 1) _ ?_ (by decide +kernel) (by decide +kernel)
    (by decide +kernel) ?_⟩
  · rcases hevent : actEvent family.membershipView alice.id actor (.promote bob.id) with _ | result
    · rw [hevent] at hmember
      cases hmember.2
    · rw [hevent] at hmember
      exact hevent.trans (congrArg Except.ok (Option.some.inj hmember.2))
  · rintro ⟨shown, hshown, -⟩
    have hnone : family.membershipView.member carol.id = none := by decide +kernel
    cases hnone.symm.trans hshown
  · rintro ⟨event, hevent, hactor, -⟩
    revert event
    decide +kernel

open Testing in
set_option maxRecDepth 100000 in
/-- An invite's joined event may not count where nothing waits: an event the joiner's device wrote
before anybody listed it names the sequence the joined event takes, and the two wait for each
other. -/
theorem joined_uncounted :
    let family := (Store.createdBy alice).act .promoted alice 2 bob 1
    let view := family.membershipView
    let request : JoinRequest := ⟨bob.id, bob.keys.publicKey transparent, 0⟩
    let made : JoinOffer := ⟨1, true, []⟩
    let statement := (bob.keys.joinStatement transparent family.pod ⟨1⟩ bob.device).encode
    let key := event bob.id 1 .joined alice.id 2
    let after := (family.write key alice.author statement).membershipView
    view.verdicts = [.counted, .counted, .countedForNothing .authorNotActorDevice] ∧
      ((view.member alice.id).any fun actor => actor.state.member &&
        decide (alice.author ∈ actor.devices.image MemberDevice.author)) = true ∧
      view.member bob.id = none ∧ request.run ≤ (Parsed.of family.entries).run bob.id ∧
      serveOffer transparent view alice.id request [] = some made ∧
      serveWrite transparent family.pod view alice.id request made ⟨some statement, none⟩ =
        some (some (key, statement)) ∧
      after.verdicts[family.entries.length]? = some (.countedForNothing .cyclic) ∧
      ((after.member bob.id).any fun member => member.state.member) = false := by
  decide +kernel

end MeePdn.Pods
