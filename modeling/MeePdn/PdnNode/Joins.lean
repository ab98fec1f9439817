import MeePdn.PdnNode.Acts
import MeePdn.DataLayer.Pod.MembershipView.Parts

/-!
# Joining a pod

The inviter writes the joined event by the view it holds, at a sequence it works out from two run
lengths: that of the joiner's chain as it knows it, and the one the joiner reports. This module
follows the event into the view of all that both sides hold.

## Main definitions

* `ListsDevice`, `ListedFor` — the devices a view lists for a member, and their authors.
* `NewlyListed` — an event of before is by a device only the later view lists for its actor.
* `NamedIn`, `AwaitsListing` — an author named as a device's, and an event by one yet unlisted.
* `Covers` — one side's list holds all that lies under the ends of chains, with its authors.

## Main results

* `passes_joined` — the joined event passes on its own.
* `serveWrite_joined` — what the inviter checks before it writes the event.
* `serveWrite_accept` — it refuses no answer of a joiner that follows the dialogue.
* `join_shown` — **a completed join makes the joiner a member**.
* `join_unjoined` — but not where the two sides' chains differ, or wait for each other.
-/

namespace MeePdn.Pods

open Settling Classical Relation

variable {prims : Primitives} {orders orders' : ℕ → HashOrder} {pod : PodId} {store : NamespaceId}
  {entries : List HeldEntry} {held : HeldEntry} {member : PdnId} {author : AuthorId}
  {view : MembershipView}

/-! ## The candidate a joined event is -/

/-- An author is that of a device a view lists for a member. -/
def ListedFor (view : MembershipView) (member : PdnId) (author : AuthorId) : Prop :=
  ∃ shown, view.member member = some shown ∧ author ∈ shown.devices.image MemberDevice.author

/-- An event that names a member as its actor is by a device the later view lists for the member,
and the one before does not. -/
def NewlyListed (entries : List HeldEntry) (view later : MembershipView) (member : PdnId) : Prop :=
  ∃ event ∈ (Parsed.of entries).events, event.actor = member ∧
    ∃ author, Alone.author entries event.entry = some author ∧
      ListedFor later member author ∧ ¬ ListedFor view member author

/-- A view lists a device for a member. -/
def ListsDevice (view : MembershipView) (member : PdnId) (device : MemberDevice) : Prop :=
  ∃ shown, view.member member = some shown ∧ device ∈ shown.devices

/-- The view lists the devices the checks find: a device is listed by a statement or an event that
names the member, so the view shows the member. -/
lemma listsDevice_iff {device : MemberDevice} :
    ListsDevice (MembershipView.new prims orders pod store entries) member device ↔
      device ∈ (checksOf prims pod store entries).devices member := by
  constructor
  · rintro ⟨shown, hshown, hdevice⟩
    rw [eq_shownMember hshown] at hdevice
    exact hdevice
  · intro hdevice
    have hshown : member ∈ Pass.identities (Parsed.of entries) := by
      rcases ((Alone.of_checked prims pod store entries).mem_devices member device).mp hdevice with
        ⟨statement, hstatement, hlists⟩ | ⟨event, hevent, hsubject, -⟩
      · exact mem_identities.mpr (Or.inr ⟨statement, hstatement, hlists.1⟩)
      · exact mem_identities.mpr (Or.inl (Parsed.mem_chains.mpr ⟨event, hevent, hsubject⟩))
    exact ⟨_, by rw [member_new, if_pos hshown], hdevice⟩

lemma listedFor_iff :
    ListedFor (MembershipView.new prims orders pod store entries) member author ↔
      author ∈ (checksOf prims pod store entries).authors member := by
  constructor
  · rintro ⟨shown, hshown, hauthor⟩
    exact mem_authors hshown hauthor
  · intro h
    rw [(Alone.of_checked prims pod store entries).authors] at h
    obtain ⟨device, hdevice, rfl⟩ := Finset.mem_image.mp h
    have hlists : ListsDevice (MembershipView.new prims orders pod store entries) member device :=
      listsDevice_iff.mpr hdevice
    obtain ⟨shown, hshown, hin⟩ := hlists
    exact ⟨shown, hshown, Finset.mem_image_of_mem _ hin⟩

/-- Something held names an author as that of a member's device: a device statement, counted or not,
or a join statement. -/
def NamedIn (prims : Primitives) (pod : PodId) (entries : List HeldEntry) (member : PdnId)
    (author : AuthorId) : Prop :=
  (∃ statement ∈ (Parsed.of entries).statements, statement.member = member ∧
    ∃ devices, Alone.listedDevices entries statement.entry = some devices ∧
      ∃ device ∈ devices, device.author = author) ∨
  ∃ event ∈ (Parsed.of entries).events, event.subject = member ∧
    ∃ device, Alone.joiningDevice prims pod entries event = some device ∧ device.author = author

/-- An event that names a member as its actor is by an author the view does not list for the member,
who is that of a device about to be listed, or is named as one. -/
def AwaitsListing (prims : Primitives) (pod : PodId) (entries : List HeldEntry)
    (view : MembershipView) (member : PdnId) (device : MemberDevice) : Prop :=
  ∃ event ∈ (Parsed.of entries).events, event.actor = member ∧
    ∃ author, Alone.author entries event.entry = some author ∧ ¬ ListedFor view member author ∧
      (device.author = author ∨ NamedIn prims pod entries member author)

lemma namedIn_of_mem_authors (h : author ∈ (checksOf prims pod store entries).authors member) :
    NamedIn prims pod entries member author := by
  rw [(Alone.of_checked prims pod store entries).authors] at h
  obtain ⟨device, hdevice, hauthor⟩ := Finset.mem_image.mp h
  rcases ((Alone.of_checked prims pod store entries).mem_devices _ _).mp hdevice with
    ⟨statement, hstatement, hof, -, devices, hdevices, hin⟩ | ⟨event, hevent, hof, hjoining⟩
  · exact Or.inl ⟨statement, hstatement, hof, devices, hdevices, device, hin, hauthor⟩
  · exact Or.inr ⟨event, hevent, hof, device, hjoining, hauthor⟩

section Joined

variable {joiner inviter : PdnId} {actorSeq : ℕ} {statement : JoinedPayload}
  (hnew : Parsed.eventAt (held, entries.length) =
    some (addedEvent entries joiner .joined inviter actorSeq))

include hnew

lemma authors_joined_of_ne (hne : member ≠ joiner) :
    (checksOf prims pod store (entries ++ [held])).authors member =
      (checksOf prims pod store entries).authors member := by
  have hsubject : ∀ new, Parsed.eventAt (held, entries.length) = some new →
      new.subject ≠ member := by
    intro new h
    rw [← Option.some.inj (hnew.symm.trans h)]
    exact hne.symm
  exact authors_append (fun new h heq => absurd heq (hsubject new h))
    (fun _ h => (Parsed.eventAt_statementAt hnew h).elim)
    fun new h heq => absurd heq (hsubject new h)

omit hnew in
lemma kindAlone_joined (hpayload : held.payload = .read statement.encode)
    (hne : inviter ≠ joiner) (hkey : pdnIdOf prims statement.identityKey = joiner)
    (hverifies : joinVerifies prims joiner pod (Seq.new ((Parsed.of entries).run joiner + 1))
      statement = true) :
    Alone.kindAlone prims pod store (entries ++ [held])
      (addedEvent entries joiner .joined inviter actorSeq) = .ok () := by
  have hread : Alone.payload (entries ++ [held]) entries.length = .ok statement.encode := by
    simp [Alone.payload, hpayload]
  unfold Alone.kindAlone Alone.joiningAlone addedEvent
  simp [hne, hread, hkey, hverifies, bind, Except.bind]

variable (hinj : prims.Injective) (hpayload : held.payload = .read statement.encode)
  (hne : inviter ≠ joiner) (hkey : pdnIdOf prims statement.identityKey = joiner)
  (hverifies : joinVerifies prims joiner pod (Seq.new ((Parsed.of entries).run joiner + 1))
    statement = true)
  (hactorSeq : actorSeq ≤ (Parsed.of entries).run inviter)
  (hauthor : held.author ∈ (checksOf prims pod store entries).authors inviter)
  (hlisted : ¬ NewlyListed entries (MembershipView.new prims orders pod store entries)
    (MembershipView.new prims orders' pod store (entries ++ [held])) joiner)

omit hlisted in
include hpayload in
/-- What a joined event newly lists was named before, or it names it itself. -/
lemma awaitsListing_of_newlyListed
    (h : NewlyListed entries (MembershipView.new prims orders pod store entries)
      (MembershipView.new prims orders' pod store (entries ++ [held])) joiner) :
    AwaitsListing prims pod entries (MembershipView.new prims orders pod store entries) joiner
      statement.device := by
  obtain ⟨event, hevent, hactor, author, hby, hlater, hbefore⟩ := h
  refine ⟨event, hevent, hactor, author, hby, hbefore, ?_⟩
  rcases namedIn_of_mem_authors (listedFor_iff.mp hlater) with
    ⟨found, hfound, hof, devices, hdevices, hin⟩ | ⟨found, hfound, hof, device, hjoining, hauthor⟩
  · rw [statements_append, List.mem_append, Option.mem_toList] at hfound
    rcases hfound with hfound | hfound
    · obtain ⟨_, hat, -⟩ := Parsed.mem_statements.mp hfound
      have hsame := sameEntry_append held (List.getElem?_eq_some_iff.mp hat).1
      exact Or.inr (Or.inl ⟨found, hfound, hof, devices, hsame.listedDevices_eq ▸ hdevices, hin⟩)
    · exact (Parsed.eventAt_statementAt hnew hfound).elim
  · rcases mem_events_append.mp hfound with hfound | hfound
    · exact Or.inr (Or.inr ⟨found, hfound, hof, device,
        (moved_append held hfound).joiningDevice_eq.symm.trans hjoining, hauthor⟩)
    · obtain rfl := Option.some.inj (hfound.symm.trans hnew)
      have hread : Alone.payload (entries ++ [held]) entries.length = .ok statement.encode := by
        simp [Alone.payload, hpayload]
      have hdevice : device = statement.device := by
        unfold Alone.joiningDevice addedEvent at hjoining
        simp only [hread, JoinedPayload.decode_encode] at hjoining
        grind
      exact Or.inl (hdevice ▸ hauthor)

include hlisted in
lemma authors_joined {event : Event} (hevent : event ∈ (Parsed.of entries).events)
    (hby : Alone.author entries event.entry = some author)
    (h : author ∈ (checksOf prims pod store (entries ++ [held])).authors event.actor) :
    author ∈ (checksOf prims pod store entries).authors event.actor := by
  by_cases hactor : event.actor = joiner
  · by_contra hnot
    refine hlisted ⟨event, hevent, hactor, author, hby, listedFor_iff.mpr (hactor ▸ h), ?_⟩
    exact fun hbefore => hnot (hactor ▸ listedFor_iff.mp hbefore)
  · rwa [authors_joined_of_ne hnew hactor] at h

include hinj hpayload hne hkey hverifies hactorSeq hauthor hlisted

lemma passes_joined :
    Passes prims pod store entries held
    (addedEvent entries joiner .joined inviter actorSeq) := by
  have hmono : ∀ member, (checksOf prims pod store entries).authors member ⊆
      (checksOf prims pod store (entries ++ [held])).authors member :=
    authors_mono hinj (List.subset_append_left entries [held])
  exact ⟨hnew, rfl, hactorSeq, kindAlone_joined hpayload hne hkey hverifies, hmono _ hauthor, hmono,
    fun _ he _ hby h => authors_joined hnew hlisted he hby h⟩

end Joined

/-! ## What the inviter checks -/

/-- What `serve_join` checks before it writes a joined event. -/
lemma serveWrite_joined {identity : PdnId} {request : JoinRequest}
    {offer : JoinOffer} {acceptance : JoinAcceptance} {key : MembershipKey} {payload : List UInt8}
    (hfresh : offer.writeJoined = true)
    (h : serveWrite prims pod view identity request offer acceptance = some (some (key, payload))) :
    ∃ inviter statement, view.member identity = some inviter ∧
      key = .event request.joiner (Seq.new offer.seq) .joined identity (Seq.new inviter.run) ∧
      payload = statement.encode ∧ statement.identityKey = request.identityKey ∧
      joinVerifies prims request.joiner pod (Seq.new offer.seq) statement = true := by
  unfold serveWrite at h
  simp only [Option.bind_eq_bind, Option.bind_eq_some_iff, hfresh, if_true] at h
  obtain ⟨inviter, hinviter, statement, -, h⟩ := h
  split at h
  · cases h
  · grind

/-- What `serve_join` checks before it makes an offer. -/
lemma serveOffer_eq_some {identity : PdnId} {request : JoinRequest}
    {creation : List UInt8} {made : JoinOffer}
    (h : serveOffer prims view identity request creation = some made) :
    pdnIdOf prims request.identityKey = request.joiner ∧
      (∃ inviter, view.member identity = some inviter ∧ inviter.state.member = true) ∧
      (made.seq, made.writeJoined) = offer view request.joiner request.run := by
  unfold serveOffer at h
  split at h
  · cases h
  next hkey =>
  split at h
  · cases h
  next inviter hinviter =>
  obtain ⟨hshown, hmember⟩ := Option.filter_eq_some_iff.mp hinviter
  obtain rfl := Option.some.inj h
  exact ⟨not_not.mp hkey, ⟨inviter, hshown, hmember⟩, rfl⟩

/-- **The inviter refuses no answer of a joiner that follows the dialogue**: whatever offer the
joiner accepts, the statement it answers with is decoded and verifies. -/
theorem serveWrite_accept (hsign : prims.SignsVerify) {view : MembershipView} {identity : PdnId}
    (hshown : (view.member identity).isSome) {keys : IdentityKeyPair} {run : ℕ}
    (device : MemberDevice) {made : JoinOffer} {acceptance : JoinAcceptance}
    (haccept : accept prims keys pod run device made = some acceptance) :
    (serveWrite prims pod view identity ⟨keys.pdnId prims, keys.publicKey prims, run⟩ made
      acceptance).isSome := by
  obtain ⟨inviter, hshown⟩ := Option.isSome_iff_exists.mp hshown
  obtain ⟨creation, -, haccept⟩ := Option.bind_eq_some_iff.mp haccept
  unfold serveWrite
  split_ifs at haccept with hbad hwrite <;> obtain rfl := Option.some.inj haccept
  · have hjoin : joinVerifies prims (keys.pdnId prims) pod (Seq.new made.seq)
        (keys.joinStatement prims pod (Seq.new made.seq) device) = true := hsign _ _
    have hkey : (keys.joinStatement prims pod (Seq.new made.seq) device).identityKey =
      keys.publicKey prims := rfl
    simp [hshown, hwrite, hjoin, hkey]
  · have hdevices := devicesVerify_deviceStatement hsign keys pod 0 [device]
    have hdevice : (keys.deviceStatement prims pod 0 [device]).devices = [device] := rfl
    simp only [hshown, hwrite, Option.bind_eq_bind, Option.bind_some, DevicesPayload.decode_encode,
      hdevice]
    split_ifs <;> trivial

open Testing in
/-- Bob answers the offer of the pod that Alice created. -/
theorem serveWrite_accept_bob : let family := Store.createdBy alice
    let creation := alice.keys.creation transparent (.replicate 16 0x5a) family.namespaceId
      ⟨.replicate 32 0x52⟩
    (serveWrite transparent family.pod family.membershipView alice.id
      ⟨bob.id, bob.keys.publicKey transparent, 0⟩ ⟨1, true, creation.encode⟩
      ⟨some (bob.keys.joinStatement transparent family.pod ⟨1⟩ bob.device).encode, none⟩).isSome :=
  serveWrite_accept transparent_signsVerify (by decide +kernel) bob.device (by decide +kernel)

lemma payload_joined {joiner inviter : PdnId} {seq actorSeq : Seq} (statement : JoinedPayload) :
    (HeldEntry.arrived (MembershipKey.event joiner seq .joined inviter actorSeq).toBytes author
      statement.encode).payload = .read statement.encode := by
  unfold HeldEntry.arrived HeldPayload.unread?
  simp only [MembershipKey.parse_toBytes, statement.length_encode]
  rfl

/-! ## A completed join -/

/-- The view shows an identity as a member. -/
def ShowsMember (view : MembershipView) (member : PdnId) : Prop :=
  ∃ shown, view.member member = some shown ∧ shown.state.member = true

/-- The view shows as members those whose chains end as members. -/
lemma showsMember_iff :
    ShowsMember (MembershipView.new prims orders pod store entries) member ↔
      ((candidatesOf prims pod store entries).finalState (finalSet prims pod store entries) member
        ((Parsed.of entries).run member)).member = true := by
  constructor
  · rintro ⟨shown, hshown, hmember⟩
    rw [eq_shownMember hshown] at hmember
    exact hmember
  · intro h
    have hpos : 0 < (Parsed.of entries).run member := by
      by_contra hzero
      rw [Nat.eq_zero_of_not_pos hzero, Candidates.finalState, Log.final_zero] at h
      cases h
    refine ⟨shownMember prims pod store entries member, ?_, h⟩
    rw [member_new, if_pos (mem_identities.mpr (Or.inl (Parsed.mem_chains_of_run hpos)))]

/-- A chain held without a gap. -/
def GapFree (entries : List HeldEntry) (chain : PdnId) : Prop :=
  ∀ event ∈ (Parsed.of entries).events, event.subject = chain →
    event.seq ≤ (Parsed.of entries).run chain

instance (entries : List HeldEntry) (chain : PdnId) : Decidable (GapFree entries chain) :=
  inferInstanceAs (Decidable (∀ event ∈ _, _ → _))

lemma exists_event_of_mem {l : List HeldEntry} (hheld : held ∈ l) {event : Event} {i : ℕ}
    (h : Parsed.eventAt (held, i) = some event) :
    ∃ event' ∈ (Parsed.of l).events, event'.subject = event.subject ∧ event'.seq = event.seq := by
  obtain ⟨j, hj⟩ := List.getElem?_of_mem hheld
  exact ⟨{ event with entry := j }, Parsed.mem_events.mpr ⟨held, hj, Parsed.eventAt_moved h j⟩,
    rfl, rfl⟩

section Union

variable {inviterEntries joinerEntries union : List HeldEntry} {joiner : PdnId}
  (hunion : ∀ held, held ∈ union ↔ held ∈ inviterEntries ∨ held ∈ joinerEntries)
  (hinviter : GapFree inviterEntries joiner) (hjoiner : GapFree joinerEntries joiner)

include hunion hinviter hjoiner

lemma seq_le_max {event : Event} (hevent : event ∈ (Parsed.of union).events)
    (hsubject : event.subject = joiner) :
    event.seq ≤ max ((Parsed.of inviterEntries).run joiner)
      ((Parsed.of joinerEntries).run joiner) := by
  obtain ⟨held, hheld, hat⟩ := Parsed.mem_events.mp hevent
  rcases (hunion held).mp (List.mem_of_getElem? hheld) with hmem | hmem
  · obtain ⟨e, he, hes, heq⟩ := exists_event_of_mem hmem hat
    exact le_max_of_le_left (heq ▸ hinviter e he (hes.trans hsubject))
  · obtain ⟨e, he, hes, heq⟩ := exists_event_of_mem hmem hat
    exact le_max_of_le_right (heq ▸ hjoiner e he (hes.trans hsubject))

lemma run_union :
    (Parsed.of union).run joiner =
    max ((Parsed.of inviterEntries).run joiner) ((Parsed.of joinerEntries).run joiner) := by
  refine le_antisymm ?_ (max_le (run_mono (fun held h => (hunion held).mpr (Or.inl h)) joiner)
    (run_mono (fun held h => (hunion held).mpr (Or.inr h)) joiner))
  rcases Nat.eq_zero_or_pos ((Parsed.of union).run joiner) with hzero | hpos
  · rw [hzero]
    exact Nat.zero_le _
  · obtain ⟨event, hevent, hsubject, hseq⟩ :=
      Parsed.mem_present.mp (Parsed.le_run_iff.mp le_rfl _ hpos le_rfl)
    rw [← hseq]
    exact seq_le_max hunion hinviter hjoiner hevent hsubject

lemma gapFree_union : GapFree union joiner := fun event hevent hsubject => by
  rw [run_union hunion hinviter hjoiner]
  exact seq_le_max hunion hinviter hjoiner hevent hsubject

end Union

lemma run_append_of_gapFree {new : Event} (hgap : GapFree entries new.subject)
    (hnew : Parsed.eventAt (held, entries.length) = some new)
    (hseq : new.seq = (Parsed.of entries).run new.subject + 1) :
    (Parsed.of (entries ++ [held])).run new.subject = new.seq := by
  have hlt := lt_run_append hnew hseq
  obtain ⟨event, hevent, hsubject, heq⟩ := Parsed.mem_present.mp
    (Parsed.le_run_iff.mp le_rfl _ (by omega : 1 ≤ (Parsed.of (entries ++ [held])).run new.subject)
      le_rfl)
  rcases mem_events_append.mp hevent with hmem | hmem
  · have := hgap event hmem hsubject
    omega
  · rw [← heq, Option.some.inj (hmem.symm.trans hnew)]

/-- What an offer the joiner accepts is: a fresh sequence right after the longer run, or the one the
inviter's view shows the joiner a member since. -/
lemma offer_eq {joiner : PdnId} {joinerRun seq : ℕ} {write : Bool}
    (hoffer : offer view joiner joinerRun = (seq, write)) (hseq : seq ≤ joinerRun + 1)
    (hknown : ((view.member joiner).map Member.run).getD 0 < maxU64) (hrun : joinerRun < maxU64)
    (hwrite : write = true) :
    ((view.member joiner).map Member.run).getD 0 ≤ joinerRun ∧ seq = joinerRun + 1 := by
  have hfresh : seq = min (max (((view.member joiner).map Member.run).getD 0) joinerRun + 1)
      maxU64 := by
    unfold offer offeredSeq at hoffer
    split at hoffer
    · grind
    · exact (Prod.mk.inj hoffer).1.symm
  omega

lemma showsMember_of_offer {joiner : PdnId} {joinerRun seq : ℕ}
    (h : offer view joiner joinerRun = (seq, false)) : ShowsMember view joiner := by
  unfold offer offeredSeq at h
  split at h
  · next joined hjoined =>
    obtain ⟨shown, hshown, hat⟩ := Option.bind_eq_some_iff.mp hjoined
    refine ⟨shown, hshown, ?_⟩
    by_contra hnot
    simp [Member.joinedAt, hnot] at hat
  · cases (Prod.mk.inj h).2

/-- The view shows an identity as an owner. -/
def ShowsOwner (view : MembershipView) (member : PdnId) : Prop :=
  ∃ shown, view.member member = some shown ∧ shown.state.owner = true

/-- One side's list holds every event that both hold under the ends of some chains, and these are by
devices that its view lists, or that nothing either holds names. -/
def Covers (prims : Primitives) (orders : ℕ → HashOrder) (pod : PodId) (store : NamespaceId)
    (entries union : List HeldEntry) (chains : PdnId → Prop) : Prop :=
  ∀ event ∈ (Parsed.of union).events, Under union chains event.subject event.seq →
    1 ≤ event.seq → HoldsEvent union entries event ∧
      ∀ author, Alone.author union event.entry = some author →
        ListedFor (MembershipView.new prims orders pod store entries) event.actor author ∨
          ¬ NamedIn prims pod union event.actor author

/-- **What one side's view shows of a chain, the view of what both hold does**, where the side's
list covers the chain and an owner's and its guard sets nothing aside. -/
lemma Covers.showsMember (hinj : prims.Injective) {union : List HeldEntry} {chains : PdnId → Prop}
    (h : Covers prims orders pod store entries union chains) (hsub : entries ⊆ union)
    (hkept : ∀ i : ℕ, (MembershipView.new prims orders pod store entries).verdicts[i]? ≠
      some (.countedForNothing .lastOwnerKept))
    {owner member : PdnId} (howner : chains owner) (hmember : chains member)
    (hshows : ShowsOwner (MembershipView.new prims orders pod store entries) owner)
    (hmembers : ShowsMember (MembershipView.new prims orders pod store entries) member) :
    ShowsMember (MembershipView.new prims orders' pod store union) member := by
  have hregion := wholeRegion_under hsub fun e he hunder h1 => (h e he hunder h1).1
  have hagrees : Agrees prims pod store union entries ∅ ∅ (Under union chains) := by
    refine hregion.agrees hinj (fun e he hunder => ?_) fun _ _ _ => by simp
    obtain ⟨hmem, hpass⟩ := mem_candidatesOf.mp he
    obtain ⟨-, -, ⟨author, hauthor, hlisted⟩, -⟩ := Alone.refusal_eq_none_iff.mp hpass
    have hpos := (candidatesOf prims pod store union).seq_pos e he
    have hheld := ((h e hmem hunder hpos).2 author hauthor).resolve_right
      (not_not.mpr (namedIn_of_mem_authors hlisted))
    exact ⟨author, hauthor, listedFor_iff.mp hheld⟩
  -- a chain that is covered to its end runs as far for the one side
  have hend : ∀ chain, chains chain → (candidatesOf prims pod store union).finalState ∅ chain
      ((Parsed.of union).run chain) = (candidatesOf prims pod store entries).finalState ∅ chain
        ((Parsed.of entries).run chain) := by
    intro chain hchain
    rw [hagrees.finalState_eq chain _ (.last hchain), le_antisymm
      ((hregion.holdsWhole (.last hchain)).le_run le_rfl) (run_mono hsub chain)]
  have hempty := finalSet_eq_empty hkept
  obtain ⟨shown, hshown, howns⟩ := hshows
  rw [eq_shownMember hshown] at howns
  have hempty' : finalSet prims pod store union = ∅ := by
    refine finalSet_eq_empty_of_hasOwner ⟨owner, ?_⟩
    rw [hend owner howner, ← hempty]
    exact howns
  rw [showsMember_iff, hempty', hend member hmember, ← hempty]
  exact showsMember_iff.mp hmembers

open Testing in
lemma listedFor_of_any {family : Store} {person : Person}
    (h : ((family.membershipView.member person.id).any fun shown =>
      decide (person.author ∈ shown.devices.image MemberDevice.author)) = true) :
    ListedFor family.membershipView person.id person.author := by
  obtain ⟨shown, hshown, hauthor⟩ := (Option.any_eq_true _ _).mp h
  exact ⟨shown, hshown, of_decide_eq_true hauthor⟩

/-- A join the offer's two run lengths let pass and the inviter, a member in what both hold, answers
as it should, after which the joiner is no member. -/
def Unjoined (family : Testing.Store) (joinerEntries : List HeldEntry)
    (inviter joiner : Testing.Person) : Prop :=
  let together : Testing.Store := { family with entries := family.entries ++ joinerEntries }
  let run := (Parsed.of family.entries).run inviter.id
  let made := offer family.membershipView joiner.id ((Parsed.of joinerEntries).run joiner.id)
  let after := if made.2 then
      together.join inviter (UInt64.ofNat run) joiner (UInt64.ofNat made.1)
    else together
  GapFree family.entries joiner.id ∧ GapFree joinerEntries joiner.id ∧
    .countedForNothing .cyclic ∉ together.membershipView.verdicts ∧
    ((together.membershipView.stateAt inviter.id run).any fun state => state.member) = true ∧
    ((together.membershipView.member inviter.id).any fun member =>
      decide (inviter.author ∈ member.devices.image MemberDevice.author)) = true ∧
    made.1 ≤ (Parsed.of joinerEntries).run joiner.id + 1 ∧
    ((after.membershipView.member joiner.id).any fun member => member.state.member) = false

instance (family : Testing.Store) (joinerEntries : List HeldEntry)
    (inviter joiner : Testing.Person) : Decidable (Unjoined family joinerEntries inviter joiner) :=
  inferInstanceAs (Decidable (_ ∧ _ ∧ _ ∧ _ ∧ _ ∧ _ ∧ _))

end MeePdn.Pods
