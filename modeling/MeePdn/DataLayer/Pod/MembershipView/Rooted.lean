import MeePdn.DataLayer.Pod.MembershipView.Rules

/-!
# Membership is rooted and consented

Whoever the view shows as a member entered the pod by an event that counts, and that event names a
member as its actor, who entered the same way, back to the creator. Each entry carries the
signature of the one who enters. Nothing a loop of events settles in can stand in for that, since
a point settles only on points that have.

## Main definitions

* `SignedCreation`, `SignedJoin` — what the payload of an entering event carries.
* `LatestEntry` — where an identity last became a member.
* `Rooted` — a chain of counted events back to the creation.
* `Empowered` — a chain of counted promotions back to the creation, each by an owner.

## Main results

* `exists_entering` — who becomes a member at a sequence does so by an event of theirs.
* `new_rooted` — **every member is rooted in the creation, and entered by its own signature**.
* `new_empowered` — **every owner was made one by an owner**, back to the creator.
-/

namespace MeePdn

open Settling Classical

section

variable (prims : Primitives) (pod : PodId) (store : NamespaceId) (entries : List HeldEntry)

/-- The payload of the created event derives this pod, names this store, and is signed by a key
that derives the event's subject. -/
def SignedCreation (event : Event) : Prop :=
  ∃ held bytes creation, entries[event.entry]? = some held ∧ held.payload = .read bytes ∧
    CreatedPayload.decode bytes = some creation ∧
    podIdOf prims event.subject creation.identityKey creation.nonce = pod ∧
    creation.membershipStore = store ∧ pdnIdOf prims creation.identityKey = event.subject ∧
    prims.verify creation.identityKey (creationMessage event.subject creation)
      creation.signature = true

/-- The payload of the joined event is signed by a key that derives the event's subject, over this
pod and the event's sequence. -/
def SignedJoin (event : Event) : Prop :=
  ∃ held bytes statement, entries[event.entry]? = some held ∧ held.payload = .read bytes ∧
    JoinedPayload.decode bytes = some statement ∧
    pdnIdOf prims statement.identityKey = event.subject ∧
    prims.verify statement.identityKey
      (joinMessage event.subject statement.identityKey pod (Seq.new event.seq) statement.device)
      statement.signature = true

/-- Up to sequence `upto` the identity last became a member at `seq`: it is no member right before
and a member from there on. -/
def LatestEntry (view : MembershipView) (member : PdnId) (seq upto : ℕ) : Prop :=
  1 ≤ seq ∧ seq ≤ upto ∧
    (∃ before, view.stateAt member (seq - 1) = some before ∧ before.member = false) ∧
    ∀ s, seq ≤ s → s ≤ upto → ∃ state, view.stateAt member s = some state ∧ state.member = true

/-- A chain of counted events, each naming as its actor the subject of the next, who is a member at
the point named and entered by the next event, back to a created event of this pod. -/
inductive Rooted (view : MembershipView) : Event → Prop
  | created (event : Event) (hcounted : CountedAt entries view event.subject event.seq event)
      (hkind : event.kind = .created) (hfirst : event.seq = 1)
      (hsigned : SignedCreation prims pod store entries event) : Rooted view event
  | joined (event next : Event) (hcounted : CountedAt entries view event.subject event.seq event)
      (hkind : event.kind = .joined) (hsigned : SignedJoin prims pod entries event)
      (hactor : next.subject = event.actor)
      (hentry : LatestEntry view event.actor next.seq event.actorSeq)
      (hnext : Rooted view next) : Rooted view event

/-- The identity is an owner from sequence `seq` up to `upto`. -/
def OwnerSince (view : MembershipView) (member : PdnId) (seq upto : ℕ) : Prop :=
  seq ≤ upto ∧ ∀ s, seq ≤ s → s ≤ upto → (view.stateAt member s).any MemberState.owner = true

/-- A chain of counted events, each promoting its subject and naming as its actor the subject of the
next, an owner from there up to the point named, back to a created event of this pod. -/
inductive Empowered (view : MembershipView) : Event → Prop
  | created (event : Event) (hcounted : CountedAt entries view event.subject event.seq event)
      (hkind : event.kind = .created) (hsigned : SignedCreation prims pod store entries event) :
      Empowered view event
  | promoted (event next : Event) (hcounted : CountedAt entries view event.subject event.seq event)
      (hkind : event.kind = .promoted) (hactor : next.subject = event.actor)
      (howner : OwnerSince view event.actor next.seq event.actorSeq)
      (hnext : Empowered view next) : Empowered view event

end

variable {prims : Primitives} {pod : PodId} {store : NamespaceId} {entries : List HeldEntry}
  {orders : ℕ → HashOrder} {event : Event}

/-! ## What the checks make sure of -/

lemma payload_eq_ok {i : ℕ} {bytes : List UInt8} (h : Alone.payload entries i = .ok bytes) :
    ∃ held, entries[i]? = some held ∧ held.payload = .read bytes := by grind [Alone.payload]

/-- A created event that passes lies first and is signed. -/
lemma signedCreation_of_alone
    (h : Alone.creationAlone prims pod store entries event = .ok ()) :
    event.seq = 1 ∧ SignedCreation prims pod store entries event := by
  unfold Alone.creationAlone at h
  dsimp only at h
  split_ifs at h with hplace
  rcases hpayload : Alone.payload entries event.entry with verdict | bytes
  · simp [hpayload, bind, Except.bind] at h
  simp only [hpayload, bind, Except.bind] at h
  split at h
  · simp at h
  next creation hdecode =>
  split_ifs at h with hpod hstore hkey hverify
  push Not at hplace hpod hstore hkey
  obtain ⟨held, hheld, hread⟩ := payload_eq_ok hpayload
  exact ⟨hplace.1, held, bytes, creation, hheld, hread, hdecode, hpod, hstore, hkey,
    by simpa [creationVerifies] using hverify⟩

/-- A joined event that passes is signed. -/
lemma signedJoin_of_alone (h : Alone.joiningAlone prims pod entries event = .ok ()) :
    SignedJoin prims pod entries event := by
  unfold Alone.joiningAlone at h
  dsimp only at h
  split_ifs at h with hactor
  rcases hpayload : Alone.payload entries event.entry with verdict | bytes
  · simp [hpayload, bind, Except.bind] at h
  simp only [hpayload, bind, Except.bind] at h
  split at h
  · simp at h
  next statement hdecode =>
  split_ifs at h with hkey hverify
  push Not at hkey
  obtain ⟨held, hheld, hread⟩ := payload_eq_ok hpayload
  exact ⟨held, bytes, statement, hheld, hread, hdecode, hkey,
    by simpa [joinVerifies] using hverify⟩

/-- **An entering candidate is signed** by the one who enters. -/
lemma signed_of_candidate (hevent : event ∈ (candidatesOf prims pod store entries).list) :
    (event.kind = .created → event.seq = 1 ∧ SignedCreation prims pod store entries event) ∧
      (event.kind = .joined → SignedJoin prims pod entries event) := by
  obtain ⟨-, hkind, -⟩ := Alone.refusal_eq_none_iff.mp (mem_candidatesOf.mp hevent).2
  constructor
  · intro hcreated
    simp only [Alone.kindAlone, hcreated] at hkind
    exact signedCreation_of_alone hkind
  · intro hjoined
    simp only [Alone.kindAlone, hjoined] at hkind
    exact signedJoin_of_alone hkind

lemma payload_of_read {i : ℕ} {held : HeldEntry} {bytes : List UInt8}
    (h : entries[i]? = some held)
    (hread : held.payload = .read bytes) : Alone.payload entries i = .ok bytes := by
  simp [Alone.payload, h, hread]

/-- An event that lets an identity in carries a key that derives it. -/
lemma carriedKey_of_entering
    (hevent : event ∈ (candidatesOf prims pod store entries).list)
    (hkind : event.kind = .created ∨ event.kind = .joined) :
    ∃ key, Alone.carriedKey entries event = some key ∧ pdnIdOf prims key = event.subject := by
  obtain ⟨hcreated, hjoined⟩ := signed_of_candidate hevent
  rcases hkind with hkind | hkind
  · obtain ⟨-, held, bytes, creation, hheld, hread, hdecode, -, -, hkey, -⟩ := hcreated hkind
    refine ⟨creation.identityKey, ?_, hkey⟩
    unfold Alone.carriedKey
    rw [payload_of_read hheld hread, hkind]
    simp [hdecode]
  · obtain ⟨held, bytes, statement, hheld, hread, hdecode, hkey, -⟩ := hjoined hkind
    refine ⟨statement.identityKey, ?_, hkey⟩
    unfold Alone.carriedKey
    rw [payload_of_read hheld hread, hkind]
    simp [hdecode]

/-! ## Becoming a member -/

section Entering

variable {parsed : Parsed} {candidates : Candidates parsed} {setAside : Finset ℕ} {member : PdnId}
  {seq : ℕ}

lemma after_cases (before : MemberState) (kinds : Set EventKind) :
    membershipRules.after before kinds = before ∨
      ∃ kind, membershipRules.after before kinds = apply kind := by
  unfold membershipRules
  dsimp only
  rcases kindsByRank.find? fun kind => kind ∈ kinds with _ | kind
  · exact Or.inl rfl
  · exact Or.inr ⟨kind, rfl⟩

/-- An owner is a member. -/
lemma member_of_owner (hrun : seq ≤ parsed.run member)
    (h : (candidates.finalState setAside member seq).owner = true) :
    (candidates.finalState setAside member seq).member = true := by
  induction seq with
  | zero =>
    rw [Candidates.finalState, Log.final_zero] at h
    exact absurd h (by decide)
  | succ seq ih =>
    rw [finalState_succ hrun] at h ⊢
    rcases after_cases (candidates.finalState setAside member seq) (Event.kind ''
      {event | candidates.Counted setAside event ∧ event.point = (member, seq + 1)}) with
      hafter | ⟨kind, hafter⟩
    · rw [hafter] at h ⊢
      exact ih (Nat.le_of_succ_le hrun) h
    · rw [hafter] at h ⊢
      cases kind <;> first | rfl | exact absurd h (by decide)

/-- **Who becomes a member at a sequence** does so by a created or a joined event there. -/
lemma exists_entering (hrun : seq < parsed.run member)
    (hbefore : (candidates.finalState setAside member seq).member = false)
    (hafter : (candidates.finalState setAside member (seq + 1)).member = true) :
    ∃ event, candidates.Counted setAside event ∧ event.point = (member, seq + 1) ∧
      (event.kind = .created ∨ event.kind = .joined) := by
  have hsome : ∃ event, candidates.Counted setAside event ∧ event.point = (member, seq + 1) := by
    grind [finalState_succ_eq_self]
  obtain ⟨event, hcounted, hpoint⟩ := hsome
  refine ⟨event, hcounted, hpoint, ?_⟩
  obtain ⟨hsubject, hseq⟩ := Prod.mk.inj hpoint
  have hallows := allows_of_counted hcounted
  rw [hsubject, hseq, Nat.add_sub_cancel] at hallows
  have howner : (candidates.finalState setAside member seq).owner = false := by
    grind [member_of_owner]
  -- nothing else is allowed for who is no member
  cases hkind : event.kind <;> simp [hkind, allows, hbefore, howner] at hallows ⊢

lemma finalState_of_settles {state : MemberState}
    (h : (candidates.log setAside).Settles membershipRules
      ((candidates.log setAside).cyclic membershipRules loopRounds) member seq state) :
    seq ≤ parsed.run member ∧ candidates.finalState setAside member seq = state := by
  have hknown := Log.known_eq_some_iff.mpr h
  exact ⟨Log.le_run_of_known hknown, by rw [Candidates.finalState, Log.final, hknown]; rfl⟩

end Entering

section

variable {parsed : Parsed} {candidates : Candidates parsed} {setAside : Finset ℕ}

/-- A joined event that counts was judged on an actor that settled as a member. -/
lemma exists_actor_of_joined {K : Known PdnId MemberState}
    (hK : ∀ y k a, K y k = some a → (candidates.log setAside).Settles membershipRules
      ((candidates.log setAside).cyclic membershipRules loopRounds) y k a)
    (hcounted : candidates.Counted setAside event) (hkind : event.kind = .joined)
    (hready : ((candidates.log setAside).outcome membershipRules
      ((candidates.log setAside).cyclic membershipRules loopRounds) K event).isSome) :
    ∃ actor, K event.actor event.actorSeq = some actor ∧ actor.member = true := by
  obtain ⟨outcome, houtcome⟩ := Option.isSome_iff_exists.mp hready
  have hle : K.Le ((candidates.log setAside).known membershipRules
      ((candidates.log setAside).cyclic membershipRules loopRounds)) :=
    fun y k a h => Log.known_eq_some_iff.mpr (hK y k a h)
  have hverdict := hcounted.2
  rw [Candidates.finalVerdict, Log.result, Log.outcome_mono hle houtcome] at hverdict
  cases outcome with
  | barred => simp [verdictOf] at hverdict
  | looped => simp [verdictOf] at hverdict
  | judged actor =>
    have hreads : membershipRules.reads event.kind := by simp [reads_iff, hkind]
    refine ⟨actor, Log.known_of_outcome_judged houtcome hreads, ?_⟩
    simp only [Option.getD_some, verdictOf, Pass.judge] at hverdict
    split_ifs at hverdict with hneeded
    simpa [Pass.needed, hkind] using hneeded

end

/-! ## The chain back to the creation -/

lemma LatestEntry.succ {view : MembershipView} {member : PdnId} {seq upto : ℕ}
    (h : LatestEntry view member seq upto)
    (hnext : ∃ state, view.stateAt member (upto + 1) = some state ∧ state.member = true) :
    LatestEntry view member seq (upto + 1) := by
  obtain ⟨hpos, hle, hbefore, hmember⟩ := h
  refine ⟨hpos, by omega, hbefore, fun s hs hupto => ?_⟩
  rcases Nat.lt_or_eq_of_le hupto with hlt | rfl
  · exact hmember s hs (by omega)
  · exact hnext

lemma latestEntry_self {view : MembershipView} {member : PdnId} {seq : ℕ}
    (hbefore : ∃ before, view.stateAt member seq = some before ∧ before.member = false)
    (hafter : ∃ state, view.stateAt member (seq + 1) = some state ∧ state.member = true) :
    LatestEntry view member (seq + 1) (seq + 1) := by
  refine ⟨by omega, le_rfl, hbefore, fun s hs hle => ?_⟩
  obtain rfl : s = seq + 1 := by omega
  exact hafter

/-- **Whoever settles as a member is rooted.**

**Proof sketch.** By induction on how the state settles. A member that was one before entered
where it had. A member that was none enters by a created event, the root, or by a joined event,
and that one is judged on a state of its actor that settled before. -/
lemma rooted_of_settles {member : PdnId} {seq : ℕ} {state : MemberState}
    (h : ((candidatesOf prims pod store entries).log (finalSet prims pod store entries)).Settles
      membershipRules (((candidatesOf prims pod store entries).log
        (finalSet prims pod store entries)).cyclic membershipRules loopRounds) member seq state)
    (hmember : state.member = true) :
    ∃ event, event.subject = member ∧
      LatestEntry (MembershipView.new prims orders pod store entries) member event.seq seq ∧
      Rooted prims pod store entries (MembershipView.new prims orders pod store entries) event := by
  have hshown : ∀ {y k a}, ((candidatesOf prims pod store entries).log
      (finalSet prims pod store entries)).Settles membershipRules
        (((candidatesOf prims pod store entries).log (finalSet prims pod store entries)).cyclic
          membershipRules loopRounds) y k a →
      (MembershipView.new prims orders pod store entries).stateAt y k = some a := by
    intro y k a hsettles
    obtain ⟨hrun, hfinal⟩ := finalState_of_settles hsettles
    rw [stateAt_new, if_pos hrun, hfinal]
  induction h with
  | zero member => exact absurd hmember (by decide)
  | succ x s K before hK hbefore hrun hready ih =>
    have hnext := hshown (.succ x s K before hK hbefore hrun hready)
    rcases hwas : before.member with _ | _
    · obtain ⟨-, hstate⟩ := finalState_of_settles (hK x s before hbefore)
      obtain ⟨-, hstate'⟩ := finalState_of_settles (.succ x s K before hK hbefore hrun hready)
      obtain ⟨event, hcounted, hpoint, hkind⟩ := exists_entering hrun
        (by rw [hstate]; exact hwas) (by rw [hstate']; exact hmember)
      obtain ⟨rfl, hseq⟩ := Prod.mk.inj hpoint
      have hcountedAt : CountedAt entries (MembershipView.new prims orders pod store entries)
          event.subject event.seq event := countedAt_iff.mpr ⟨hcounted, rfl⟩
      have hentry : LatestEntry (MembershipView.new prims orders pod store entries) event.subject
          event.seq (s + 1) := by
        rw [hseq]
        exact latestEntry_self ⟨before, hshown (hK _ _ _ hbefore), hwas⟩ ⟨_, hnext, hmember⟩
      refine ⟨event, rfl, hentry, ?_⟩
      obtain ⟨hcreated, hjoined⟩ := signed_of_candidate hcounted.1
      rcases hkind with hkind | hkind
      · exact .created event hcountedAt hkind (hcreated hkind).1 (hcreated hkind).2
      · -- the state it is judged on is one that settled before
        obtain ⟨actor, hactor, hactorMember⟩ := exists_actor_of_joined hK hcounted hkind
          (hready event ⟨hcounted.1, rfl, hseq⟩)
        obtain ⟨next, hsubject, hentry', hrooted⟩ := ih _ _ _ hactor hactorMember
        exact .joined event next hcountedAt hkind (hjoined hkind) hsubject hentry' hrooted
    · obtain ⟨event, hsubject, hentry, hrooted⟩ := ih x s before hbefore hwas
      exact ⟨event, hsubject, hentry.succ ⟨_, hnext, hmember⟩, hrooted⟩

lemma Rooted.exists_created
    (h : Rooted prims pod store entries (MembershipView.new prims orders pod store entries) event) :
    ∃ root, IsCandidate prims pod store entries root ∧ root.kind = .created := by
  induction h with
  | created event hcounted hkind =>
    exact ⟨event, isCandidate_iff.mpr (countedAt_iff.mp hcounted).1.1, hkind⟩
  | joined event next _ _ _ _ _ _ ih => exact ih

variable (prims orders pod store entries) in
/-- **Membership is rooted and consented.** Whoever the view shows as a member entered by an event
from which a chain of counted events leads back to this pod's creation. Whoever becomes a member at
a sequence does so by a counted event there that carries their own signature. So nobody is a member
when no created event passes its checks. -/
theorem new_rooted :
    (∀ member seq state,
      (MembershipView.new prims orders pod store entries).stateAt member seq = some state →
      state.member = true → ∃ event, event.subject = member ∧
        LatestEntry (MembershipView.new prims orders pod store entries) member event.seq seq ∧
        Rooted prims pod store entries (MembershipView.new prims orders pod store entries) event) ∧
    (∀ member seq before after,
      (MembershipView.new prims orders pod store entries).stateAt member seq = some before →
      before.member = false →
      (MembershipView.new prims orders pod store entries).stateAt member (seq + 1) = some after →
      after.member = true →
      ∃ event, CountedAt entries (MembershipView.new prims orders pod store entries) member
          (seq + 1) event ∧
        (event.kind = .created ∧ seq + 1 = 1 ∧ SignedCreation prims pod store entries event ∨
          event.kind = .joined ∧ SignedJoin prims pod entries event)) ∧
    ((∀ event, IsCandidate prims pod store entries event → event.kind ≠ .created) →
      ∀ member seq state,
        (MembershipView.new prims orders pod store entries).stateAt member seq = some state →
          state.member = false) := by
  have hrooted : ∀ member seq state,
      (MembershipView.new prims orders pod store entries).stateAt member seq = some state →
      state.member = true → ∃ event, event.subject = member ∧
        LatestEntry (MembershipView.new prims orders pod store entries) member event.seq seq ∧
        Rooted prims pod store entries (MembershipView.new prims orders pod store entries)
          event := by
    intro member seq state hstate hmember
    rw [stateAt_new] at hstate
    split_ifs at hstate with hrun
    obtain rfl := Option.some.inj hstate
    exact rooted_of_settles (Log.known_eq_some_iff.mp (Log.known_cyclic hrun)) hmember
  refine ⟨hrooted, fun member seq before after hbefore hwas hafter his => ?_,
    fun hnone member seq state hstate => ?_⟩
  · rw [stateAt_new] at hbefore hafter
    split_ifs at hbefore hafter with hrun hrun'
    obtain rfl := Option.some.inj hbefore
    obtain rfl := Option.some.inj hafter
    obtain ⟨event, hcounted, hpoint, hkind⟩ := exists_entering hrun' hwas his
    obtain ⟨hcreated, hjoined⟩ := signed_of_candidate hcounted.1
    refine ⟨event, countedAt_iff.mpr ⟨hcounted, hpoint⟩,
      hkind.imp (fun hkind => ?_) fun hkind => ?_⟩
    · exact ⟨hkind, (Prod.mk.inj hpoint).2 ▸ (hcreated hkind).1, (hcreated hkind).2⟩
    · exact ⟨hkind, hjoined hkind⟩
  · rw [← Bool.not_eq_true]
    intro hmember
    obtain ⟨event, -, -, hrooted⟩ := hrooted member seq state hstate hmember
    obtain ⟨root, hroot, hkind⟩ := hrooted.exists_created
    exact hnone root hroot hkind

/-! ## Ownership -/

/-- **Whoever settles as an owner is empowered.**

**Proof sketch.** By induction on how the state settles. What counts highest where something does is
the creation or a promotion, and that one is judged on a state of its actor that settled before. -/
lemma empowered_of_settles {view : MembershipView}
    (hview : view = MembershipView.new prims orders pod store entries) {member : PdnId} {seq : ℕ}
    {state : MemberState}
    (h : ((candidatesOf prims pod store entries).log (finalSet prims pod store entries)).Settles
      membershipRules (((candidatesOf prims pod store entries).log
        (finalSet prims pod store entries)).cyclic membershipRules loopRounds) member seq state)
    (howner : state.owner = true) :
    ∃ event, event.subject = member ∧ OwnerSince view member event.seq seq ∧
      Empowered prims pod store entries view event := by
  induction h with
  | zero member => exact absurd howner (by decide)
  | succ x s K before hK hbefore hrun hready ih =>
    obtain ⟨hrun', hstate⟩ := finalState_of_settles (.succ x s K before hK hbefore hrun hready)
    have hnext : (view.stateAt x (s + 1)).any MemberState.owner = true := by
      rwa [hview, stateAt_new, if_pos hrun', hstate]
    by_cases hsome : ∃ event, (candidatesOf prims pod store entries).Counted
        (finalSet prims pod store entries) event ∧ event.point = (x, s + 1)
    · obtain ⟨event, hcounted, hpoint⟩ := hsome
      obtain ⟨top, hcounted, hpoint, -, hleft⟩ := exists_highest hrun hcounted hpoint
      rw [← hstate, hleft] at howner
      obtain ⟨rfl, hseq⟩ := Prod.mk.inj hpoint
      have hcountedAt : CountedAt entries view top.subject top.seq top :=
        hview ▸ countedAt_iff.mpr ⟨hcounted, rfl⟩
      refine ⟨top, rfl, ⟨hseq.le, fun t ht hle => ?_⟩, ?_⟩
      · rwa [show t = s + 1 by omega]
      cases hkind : top.kind <;> simp only [hkind, apply] at howner <;> try cases howner
      · exact .created top hcountedAt hkind ((signed_of_candidate hcounted.1).1 hkind).2
      · obtain ⟨hacyclic, hneeded, -⟩ := judged_of_counted hcounted
        -- it is allowed and not cyclic, so it has its outcome by a state of its actor
        have hknown : K top.actor top.actorSeq ≠ none := by
          intro hnone
          have houtcome := hready top ⟨hcounted.1, rfl, hseq⟩
          rw [Log.outcome_eq_none_iff.mpr fun was hwas =>
            ⟨(finalState_of_settles (hK _ _ _ hwas)).2 ▸ allows_of_counted hcounted, hacyclic,
              reads_iff.mpr (by simp [Candidates.log, hkind]), hnone⟩] at houtcome
          cases houtcome
        obtain ⟨actor, hactor⟩ := Option.ne_none_iff_exists'.mp hknown
        rw [(finalState_of_settles (hK _ _ _ hactor)).2, hkind] at hneeded
        obtain ⟨next, hsubject, hsince, hempowered⟩ := ih _ _ _ hactor hneeded
        exact .promoted top next hcountedAt hkind hsubject hsince hempowered
    · have hsame := finalState_succ_eq_self hrun fun e he hpoint => hsome ⟨e, he, hpoint⟩
      rw [← hstate, hsame, (finalState_of_settles (hK x s before hbefore)).2] at howner
      obtain ⟨event, hsubject, ⟨hle, hsince⟩, hempowered⟩ := ih x s before hbefore howner
      refine ⟨event, hsubject, ⟨by omega, fun t ht hle => ?_⟩, hempowered⟩
      rcases Nat.lt_or_eq_of_le hle with hlt | rfl
      · exact hsince t ht (by omega)
      · exact hnext

variable (prims orders pod store entries) in
/-- **Ownership is handed on by owners.** Whoever the view shows as an owner is a member, and was
made an owner by an event from which a chain of counted promotions, each by an owner, leads back to
this pod's creation. -/
theorem new_empowered :
    let view := MembershipView.new prims orders pod store entries
    (∀ member seq state, view.stateAt member seq = some state → state.owner = true →
      state.member = true) ∧
    (∀ member seq state, view.stateAt member seq = some state → state.owner = true →
      ∃ event, event.subject = member ∧ OwnerSince view member event.seq seq ∧
        Empowered prims pod store entries view event) := by
  refine ⟨fun member seq state hstate howner => ?_, fun member seq state hstate howner => ?_⟩
  all_goals
    rw [stateAt_new] at hstate
    split_ifs at hstate with hrun
    obtain rfl := Option.some.inj hstate
  · exact member_of_owner hrun howner
  · exact empowered_of_settles rfl (Log.known_eq_some_iff.mp (Log.known_cyclic hrun)) howner

end MeePdn
