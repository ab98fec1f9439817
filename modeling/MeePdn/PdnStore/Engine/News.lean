import MeePdn.PdnStore.Engine.Held

/-!
# News that arrives during an exchange

A dial that news asks for while an exchange with the counterpart runs is not started, but noted in
the counterpart's slot. The note stays through whatever takes the slot over, and the end that frees
the slot asks for the dial again.

## Main definitions

* `PeerState.Call` — the calls of a slot.
* `PeerState.Busy` — calls that all leave the slot taken.

## Main results

* `PeerState.resyncRequested_call` — the note stays as long as the slot is taken.
* `Exchanges.state_syncWithIdentity_of_free`, `Exchanges.held_syncWithIdentity_of_follows` — a dial
  that is asked for starts, or is held.
* `LiveActor.news_dialed` — the end that frees the slot asks for the dial.
* `Testing.news_not_dialed` — it need not start one.
-/

namespace MeePdn.PdnStore.Engine

variable {origin : Origin}

namespace PeerState

/-! ## The calls of a slot -/

/-- `start_connect`, `accept_request` and `finish`. -/
inductive Call where
  | startConnect (reason : SyncReason) (now exchange : ℕ)
  | acceptRequest (here there : Counterpart) (refusedOurs : Bool) (now exchange : ℕ)
  | finish (origin : Origin)
deriving DecidableEq

/-- The slot after a call. -/
def call (peer : PeerState) : Call → PeerState
  | .startConnect reason now exchange => (peer.startConnect reason now exchange).2
  | .acceptRequest here there refusedOurs now exchange =>
    (peer.acceptRequest here there refusedOurs now exchange).2
  | .finish origin => (peer.finish origin).2

/-- Every one of a list of calls leaves the slot taken. -/
def Busy : PeerState → List Call → Prop
  | _, [] => True
  | peer, call :: calls => (peer.call call).isRunning = true ∧ Busy (peer.call call) calls

variable {peer : PeerState}

lemma isRunning_iff_exists :
    peer.isRunning = true ↔
      ∃ start origin exchange, peer.state = .running start origin exchange := by
  unfold isRunning
  cases peer.state <;> simp

/-- **The note stays as long as the slot is taken**, whatever takes it. -/
lemma resyncRequested_call (hrunning : peer.isRunning = true) (hnoted : peer.resyncRequested = true)
    {call : Call} (hbusy : (peer.call call).isRunning = true) :
    (peer.call call).resyncRequested = true := by
  obtain ⟨start, origin, exchange, hstate⟩ := isRunning_iff_exists.mp hrunning
  cases call with
  | startConnect reason now exchange =>
    unfold PeerState.call startConnect
    simp only [hstate]
    split_ifs
    · rfl
    · exact hnoted
  | acceptRequest here there refusedOurs now exchange => grind [PeerState.call, acceptRequest]
  | finish ended => grind [PeerState.call, finish]

lemma resyncRequested_foldl_call {calls : List Call} (hrunning : peer.isRunning = true)
    (hnoted : peer.resyncRequested = true) (hbusy : peer.Busy calls) :
    (calls.foldl call peer).isRunning = true ∧ (calls.foldl call peer).resyncRequested = true := by
  induction calls generalizing peer with
  | nil => exact ⟨hrunning, hnoted⟩
  | cons call calls ih => exact ih hbusy.1 (resyncRequested_call hrunning hnoted hbusy.1) hbusy.2

lemma finish_of_frees (hrunning : peer.isRunning = true)
    (hfrees : (peer.finish origin).2.isRunning = false) :
    ∃ started, (peer.finish origin).1 = some (started, peer.resyncRequested) := by grind [finish]

end PeerState

namespace Exchanges

variable {e : Exchanges} {key : Key} {reason : SyncReason} {pending : Bool}

/-! ## A dial that is asked for -/

/-- Whether an end that is of a slot's direction finds an exchange asked for meanwhile. -/
def requeued (e : Exchanges) (key : Key) (origin : Origin) : Bool :=
  (e.slot key).any fun peer => peer.resyncRequested &&
    match peer.state with
    | .running _ running _ => running.isAccept == origin.isAccept
    | .idle => false

lemma any_finish (origin : Origin) :
    (e.states.finish key.ns key.counterpart origin).1.any Prod.snd = e.requeued key origin := by
  have hanswer := @NamespaceStates.fst_act e.states _ key.ns key.counterpart none fun peer =>
    peer.finish origin
  change (e.states.finish key.ns key.counterpart origin).1 =
    ((e.slot key).map fun peer => (peer.finish origin).1).getD none at hanswer
  rw [hanswer]
  unfold requeued PeerState.finish
  cases e.slot key with
  | none => rfl
  | some peer => grind

lemma isRunning_freed_of_requeued (h : e.requeued key origin = true) :
    (e.freed key origin).isRunning key = false := by
  by_contra hrunning
  obtain ⟨start, running, exchange, hstate⟩ := isRunning_iff.mp (Bool.not_eq_false _ ▸ hrunning)
  obtain ⟨hbefore, hother⟩ := state_freed_iff.mp hstate
  obtain ⟨peer, hpeer, hpeerState⟩ := Option.map_eq_some_iff.mp hbefore
  simp only [requeued, hpeer, Option.any_some, hpeerState, Bool.and_eq_true, beq_iff_eq] at h
  exact hother rfl h.2

/-- The slots when an exchange ended that was asked for meanwhile, before it is dialed again. -/
def readied (e : Exchanges) (key : Key) (origin : Origin) (pending : Bool) : Exchanges :=
  { e.freed key origin with
    states := (e.freed key origin).states.setMayEmitReady key.ns pending }

/-- **An exchange that ended and was asked for meanwhile** is dialed again, and releases nothing. -/
lemma finished_of_requeued (h : e.requeued key origin = true) :
    e.finished key origin pending =
      (e.readied key origin pending).syncWithIdentity key .resync := by
  have hany := (@any_finish e key origin).trans h
  unfold finished readied freed
  generalize e.states.finish key.ns key.counterpart origin = called at hany ⊢
  obtain ⟨finished, states⟩ := called
  cases finished with
  | none => cases hany
  | some answer =>
    obtain ⟨started, resync⟩ := answer
    have hresync : resync = true := hany
    subst hresync
    rfl

lemma isSyncing_readied (ns : NamespaceId) :
    (e.readied key origin pending).states.isSyncing ns = e.states.isSyncing ns := by
  have hready := @Grows.of_entry (e.freed key origin)
    ((e.freed key origin).states.setMayEmitReady key.ns pending)
    fun ns counterpart => entry_setMayEmitReady ..
  exact (hready.syncing ns).trans (NamespaceStates.isSyncing_act _ _ _ _ _)

lemma isRunning_readied (k : Key) :
    (e.readied key origin pending).isRunning k = (e.freed key origin).isRunning k := by
  unfold readied isRunning NamespaceStates.isRunning
  rw [entry_setMayEmitReady]

lemma within_self : key.within key.ns = key := rfl

lemma dial_of_not_syncing (h : e.states.isSyncing key.ns = false) : e.dial key reason = e := by
  have hentry : e.states.entry key.ns key.counterpart = none := by
    rwa [isSyncing_eq_isSome_entry _ _ key.counterpart, Option.isSome_eq_false_iff,
      Option.isNone_iff_eq_none] at h
  unfold dial NamespaceStates.startConnect NamespaceStates.act
  simp [hentry]

/-- A dial that does not have to follow another exchange starts. -/
lemma state_syncWithIdentity_of_free (hpeer : key.peer ≠ e.me) (hidle : e.state key = some .idle)
    (hfree : ∀ first, e.prerequisites key.ns = some first → first ≠ key.ns →
      e.states.isSyncing first = false) :
    (e.syncWithIdentity key reason).state key =
        some (.running e.now (.connect reason) e.nextExchange) ∧
      ⟨e.nextExchange, key, reason⟩ ∈ (e.syncWithIdentity key reason).connects := by
  have hdial : (e.dial key reason).state key =
        some (.running e.now (.connect reason) e.nextExchange) ∧
      ⟨e.nextExchange, key, reason⟩ ∈ (e.dial key reason).connects := by
    refine ⟨by simp [state_dial, hidle], ?_⟩
    rw [dial_eq]
    simp [hidle]
  have hnone : e.isRunning key = false := by
    by_contra hrunning
    obtain ⟨start, origin, exchange, hstate⟩ := isRunning_iff.mp (Bool.not_eq_false _ ▸ hrunning)
    rw [hidle] at hstate
    cases hstate
  have hsyncs : e.states.isSyncing key.ns = true := by
    rw [← isSome_state, hidle]
    rfl
  unfold syncWithIdentity
  rw [if_neg hpeer]
  cases hfirst : e.prerequisites key.ns with
  | none => exact hdial
  | some first =>
    dsimp only
    by_cases hself : first = key.ns
    · -- A namespace that follows itself is dialed, and held behind its own exchange.
      rw [hself, within_self, hnone, if_neg Bool.false_ne_true, isRunning_dial,
        decide_eq_true rfl, hsyncs]
      simp only [Bool.and_self, Bool.or_true, if_true]
      exact hdial
    · have hfirsts := hfree first hfirst hself
      have hother : e.isRunning (key.within first) = false := by
        by_contra hrunning
        have hsyncs := isSyncing_of_isRunning (Bool.not_eq_false _ ▸ hrunning)
        rw [show (key.within first).ns = first from rfl, hfirsts] at hsyncs
        cases hsyncs
      rw [hother, if_neg Bool.false_ne_true, dial_of_not_syncing hfirsts, hother,
        if_neg Bool.false_ne_true]
      exact hdial

/-- One that has to is held behind it. -/
lemma held_syncWithIdentity_of_follows (hpeer : key.peer ≠ e.me) {first : NamespaceId}
    (hfirst : e.prerequisites key.ns = some first) (hsyncs : e.states.isSyncing first = true) :
    (e.syncWithIdentity key reason).isRunning (key.within first) = true ∧
      (key.within first, .network key.ns reason) ∈ (e.syncWithIdentity key reason).held := by
  unfold syncWithIdentity
  rw [if_neg hpeer, hfirst]
  dsimp only
  cases hrunning : e.isRunning (key.within first) with
  | true =>
    rw [if_pos rfl, hrunning, if_pos rfl]
    exact ⟨hrunning, List.mem_append_right _ (List.mem_singleton_self _)⟩
  | false =>
    have hdialed : (e.dial (key.within first) reason).isRunning (key.within first) = true := by
      rw [isRunning_dial, decide_eq_true rfl]
      simp [Key.within, hsyncs]
    rw [if_neg Bool.false_ne_true, hdialed, if_pos rfl]
    exact ⟨hdialed, List.mem_append_right _ (List.mem_singleton_self _)⟩

/-- An end that finds an exchange asked for leaves the slot idle. -/
lemma state_readied_of_requeued
    (h : e.requeued key origin = true) : (e.readied key origin pending).state key = some .idle := by
  have hnone : (e.readied key origin pending).isRunning key = false :=
    (isRunning_readied key).trans (isRunning_freed_of_requeued h)
  have hsome : ((e.readied key origin pending).state key).isSome = true := by
    rw [isSome_state, isSyncing_readied, ← isSome_state]
    unfold requeued at h
    unfold state
    cases hslot : e.slot key with
    | none => simp [hslot] at h
    | some peer => rfl
  obtain ⟨state, hstate⟩ := Option.isSome_iff_exists.mp hsome
  cases state with
  | idle => exact hstate
  | running start running exchange =>
    rw [isRunning_iff.mpr ⟨start, running, exchange, hstate⟩] at hnone
    cases hnone

/-- What is released asks nothing of the node. -/
lemma asks_releaseHeld :
    (e.releaseHeld key).asked = e.asked ∧ (e.releaseHeld key).requests = e.requests := by
  have hdial : ∀ (e : Exchanges) (k : Key) (reason : SyncReason),
      (e.dial k reason).asked = e.asked ∧ (e.dial k reason).requests = e.requests :=
    fun e k reason => by rw [dial_eq]; exact ⟨rfl, rfl⟩
  unfold releaseHeld
  dsimp only
  refine List.foldlRecOn (motive := fun e' : Exchanges =>
    e'.asked = e.asked ∧ e'.requests = e.requests) _ _ ⟨rfl, rfl⟩ ?_
  intro e' h dial _
  cases dial with
  | network ns reason => exact ⟨(hdial ..).1.trans h.1, (hdial ..).2.trans h.2⟩
  | inProcess ns =>
    unfold runHeld syncInProcess
    dsimp only
    split
    · split_ifs
      · exact h
      · exact ⟨(hdial ..).1.trans h.1, (hdial ..).2.trans h.2⟩
    · exact ⟨(hdial ..).1.trans h.1, (hdial ..).2.trans h.2⟩

/-- **A counterpart on this node is asked for through the node**, which queues the request or drops
it. -/
lemma asks_syncWithIdentity (hpeer : key.peer = e.me) :
    (e.syncWithIdentity key reason).asked = e.asked.tail ∧
      (e.syncWithIdentity key reason).requests = e.requests ++
        if e.asked.head? = some true then [.dial key.ns e.identity key.identity] else [] := by
  have hasks : (e.askCoLocated (.dial key.ns e.identity key.identity)).2.asked = e.asked.tail ∧
      (e.askCoLocated (.dial key.ns e.identity key.identity)).2.requests = e.requests ++
        if e.asked.head? = some true then [.dial key.ns e.identity key.identity] else [] := by
    unfold askCoLocated
    cases hasked : e.asked with
    | nil => simp [hasked]
    | cons queued rest => simp
  unfold syncWithIdentity releaseUnless
  rw [if_pos hpeer]
  dsimp only
  generalize e.askCoLocated (.dial key.ns e.identity key.identity) = answer at hasks ⊢
  by_cases hdropped : (!answer.1 && !answer.2.isRunning key) = true
  · rw [if_pos hdropped, asks_releaseHeld.1, asks_releaseHeld.2]
    exact hasks
  · rw [if_neg hdropped]
    exact hasks

end Exchanges

namespace LiveActor

/-- **News that arrives during an exchange is not forgotten.** After a dial that news asked for was
refused because an exchange ran, whatever calls of the slot follow that leave it taken, the next end
that frees it answers that an exchange was asked for. Handling that end asks for a dial of the
counterpart: on another node it starts, or it is held behind an exchange of the namespace it has to
follow; on this node it is asked for through the node, under the namespace and the two identities,
and queued unless the node drops it.

**Proof sketch.** A takeover carries the note of the slot over, an end of the other direction leaves
the slot, and only a free slot is taken without the note. -/
theorem news_dialed (peer : PeerState) (hrunning : peer.isRunning = true) (reason : SyncReason)
    (hqueues : reason = .directJoin ∨ reason = .syncReport ∨ reason = .announced ∨
      reason = .newNeighbor) (now exchange : ℕ) (calls : List PeerState.Call)
    (hbusy : (peer.startConnect reason now exchange).2.Busy calls) (origin : Origin) :
    let slot := calls.foldl PeerState.call (peer.startConnect reason now exchange).2
    (peer.startConnect reason now exchange).1 = false ∧
    ((slot.finish origin).2.isRunning = false →
      (∃ started, (slot.finish origin).1 = some (started, true)) ∧
      ∀ (live : LiveActor) (key : Key), live.slot key = some slot →
        ∀ (orders : LiveOrders) (succeeded : Bool),
        let live' := live.onSyncFinished orders key origin succeeded
        (key.peer ≠ live.me →
          (∀ first, live.prerequisites key.ns = some first → first ≠ key.ns →
            live.states.isSyncing first = false) →
          live'.state key = some (.running live.now (.connect .resync) live.nextExchange) ∧
            ⟨live.nextExchange, key, .resync⟩ ∈ live'.connects) ∧
        (key.peer ≠ live.me →
          ∀ first, live.prerequisites key.ns = some first → live.states.isSyncing first = true →
            live'.isRunning (key.within first) = true ∧
              (key.within first, .network key.ns .resync) ∈ live'.held) ∧
        (key.peer = live.me → live'.asked = live.asked.tail ∧ live'.requests = live.requests ++
          if live.asked.head? = some true then
            [.dial key.ns live.identity key.identity] else [])) := by
  intro slot
  obtain ⟨start, running, holder, hstate⟩ := PeerState.isRunning_iff_exists.mp hrunning
  have hrefused : peer.startConnect reason now exchange =
      (false, { peer with resyncRequested := true }) := by
    have hqueues' : reason.queues = true := by
      rcases hqueues with rfl | rfl | rfl | rfl <;> rfl
    unfold PeerState.startConnect
    simp only [hstate, hqueues', if_true]
  have hslot : slot.isRunning = true ∧ slot.resyncRequested = true := by
    refine PeerState.resyncRequested_foldl_call ?_ ?_ hbusy
    · rw [hrefused]
      exact hrunning
    · rw [hrefused]
  refine ⟨congrArg Prod.fst hrefused, fun hfrees => ?_⟩
  obtain ⟨started, hfinish⟩ := PeerState.finish_of_frees hslot.1 hfrees
  rw [hslot.2] at hfinish
  refine ⟨⟨started, hfinish⟩, fun live key hkey orders succeeded => ?_⟩
  have hrequeued : live.requeued key origin = true := by
    rw [← Exchanges.any_finish]
    unfold NamespaceStates.finish
    rw [NamespaceStates.fst_act]
    change Option.any Prod.snd
      (((live.slot key).map fun peer => (peer.finish origin).1).getD none) = _
    rw [hkey, Option.map_some, Option.getD_some, hfinish]
    rfl
  obtain ⟨pending, events, heq⟩ := @onSyncFinished_eq orders live key origin succeeded
  have hends : (live.onSyncFinished orders key origin succeeded).toExchanges =
      (live.toExchanges.readied key origin pending).syncWithIdentity key .resync := by
    rw [heq]
    exact Exchanges.finished_of_requeued hrequeued
  intro live'
  refine ⟨fun hpeer hfirst => ?_, fun hpeer first hfirst hfirsts => ?_, fun hpeer => ?_⟩
  · rw [hends]
    exact Exchanges.state_syncWithIdentity_of_free
      (e := live.toExchanges.readied key origin pending)
      hpeer (Exchanges.state_readied_of_requeued hrequeued)
      fun first hfollows hother => (Exchanges.isSyncing_readied first).trans
        (hfirst first hfollows hother)
  · rw [hends]
    exact Exchanges.held_syncWithIdentity_of_follows
      (e := live.toExchanges.readied key origin pending) hpeer hfirst
      ((Exchanges.isSyncing_readied first).trans hfirsts)
  · rw [hends]
    exact Exchanges.asks_syncWithIdentity (e := live.toExchanges.readied key origin pending) hpeer

end LiveActor

namespace Testing

/-- A dial takes the slot, news arrives, and a session of the other side takes the slot over. -/
noncomputable def takenOver : List LiveActor.Turn :=
  [starting notes, taking (.message (.neighborUp notes holder true)),
    taking (.message (.incomingSyncReport holder notes owner true)),
    taking (.message (.handleSession meeting)), taking (.message (.acceptSyncRequest (arrival 1)))]

/-- The end of the session dials again. -/
theorem news_dialed_takeover : let live := (LiveActor.new here owner 1).after takenOver
    let live' := live.onSyncFinished inOrder meeting .accept true
    live.slot meeting = some ⟨.running 0 .accept 1, true⟩ ∧
      live'.state meeting = some (.running live.now (.connect .resync) live.nextExchange) ∧
      ⟨live.nextExchange, meeting, .resync⟩ ∈ live'.connects := by
  intro live live'
  have hslot : live.slot meeting = some ⟨.running 0 .accept 1, true⟩ := by decide +kernel
  have hfirst : live.prerequisites meeting.ns = none := by decide +kernel
  refine ⟨hslot, (((LiveActor.news_dialed ⟨.running 0 (.connect .newNeighbor) 0, false⟩ rfl
    .syncReport (by decide) 0 1 [.acceptRequest (here, owner) (holder, owner) false 0 1]
    ⟨rfl, trivial⟩ .accept).2 rfl).2 live meeting hslot inOrder true).1 (by decide +kernel) ?_⟩
  intro first hfollows
  rw [hfirst] at hfollows
  cases hfollows

/-- An identity of this node. -/
def coLocated : Key := ⟨notes, here, owner⟩

/-- **The end that frees the slot need not start a dial.** In the first run letters comes to follow
notes while it is dialed and news of it arrives: the dial that is asked for again is held. In the
second run two identities of one node exchange notes and news arrives: the node drops the request,
and nothing is dialed. -/
theorem news_not_dialed : let live := LiveActor.new here owner 1
    let following := [starting letters, taking (.message (.neighborUp letters holder true)),
      taking (.message (.neighborUp letters holder true)), starting notes,
      taking (.message (.orderAfter letters (some notes))),
      taking (.connectEnded ⟨0, ⟨letters, holder, owner⟩, .newNeighbor⟩ (.ok ()))]
    let asking := [starting notes, taking (.message (.syncInProcess coLocated)),
      taking (.message (.syncInProcess coLocated)),
      taking (.connectEnded ⟨0, coLocated, .announced⟩ (.ok ()))]
    (live.Valid following ∧
      ((live.after (following.take 5)).slot ⟨letters, holder, owner⟩).map
        PeerState.resyncRequested = some true ∧
      (live.after following).state ⟨letters, holder, owner⟩ = some .idle ∧
      (live.after following).held = [(meeting, .network letters .resync)]) ∧
    live.Valid asking ∧
      ((live.after (asking.take 3)).slot coLocated).map PeerState.resyncRequested = some true ∧
      (live.after asking).state coLocated = some .idle ∧ (live.after asking).connects = [] ∧
      (live.after asking).held = [] ∧ (live.after asking).redials = [] := by
  decide +kernel

end Testing

end MeePdn.PdnStore.Engine
