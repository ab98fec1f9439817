import MeePdn.PdnStore.Engine.Live

/-!
# What a turn does to the exchanges

A turn of the live actor touches the exchanges in few ways. Most of what it takes only starts or
holds dials; what it parks and what it tells its subscribers leaves the slots alone.

## Main definitions

* `LiveActor.Quiet` — only dials are started or held.
* `LiveActor.Action.quiet` — what is taken without more than that.
* `Exchanges.finished` — what the end of an exchange does to the exchanges.

## Main results

* `LiveActor.quiet_onAction`, `Quiet.parkUnrouted` — nothing else comes of most turns.
* `LiveActor.onSyncFinished_eq`, `LiveActor.emitPendingContentReady_eq` — what the end of an
  exchange changes, and what telling the subscribers changes.
-/

namespace MeePdn.PdnStore.Engine

namespace Exchanges

variable {e e' : Exchanges} {key k : Key}

lemma entry_setMayEmitReady (states : NamespaceStates) (ns ns' : NamespaceId) (value : Bool)
    (counterpart : Counterpart) :
    (states.setMayEmitReady ns value).entry ns' counterpart = states.entry ns' counterpart := by
  unfold NamespaceStates.setMayEmitReady NamespaceStates.entry
  by_cases hns : ns' = ns
  · cases hstate : states ns with
    | none => simp [hns, hstate]
    | some state => simp [hns, hstate]
  · simp [hns]

lemma isSyncing_eq_isSome_entry (states : NamespaceStates) (ns : NamespaceId)
    (counterpart : Counterpart) : states.isSyncing ns = (states.entry ns counterpart).isSome := by
  simp [NamespaceStates.isSyncing, NamespaceStates.entry]

lemma Grows.of_entry {states : NamespaceStates}
    (hentry : ∀ ns counterpart, states.entry ns counterpart = e.states.entry ns counterpart) :
    Grows e { e with states := states } := by
  refine { Grows.refl e with
    syncing := fun ns => ?_
    held := fun _ hmem => .inl hmem
    released := fun _ hmem => .inl hmem
    served := fun _ hmem => .inl hmem
    states := fun key => .inl (congrArg _ (hentry key.ns key.counterpart)) }
  let counterpart : Counterpart := (e.me, ⟨e.me.bytes⟩)
  rw [isSyncing_eq_isSome_entry _ ns counterpart, hentry, ← isSyncing_eq_isSome_entry]

/-- `on_sync_finished`, as far as the exchanges go. -/
def finished (e : Exchanges) (key : Key) (origin : Origin) (pending : Bool) : Exchanges :=
  let (finished, states) := e.states.finish key.ns key.counterpart origin
  let e : Exchanges := { e with states := states }
  let e := e.releaseUnless (finished.any Prod.snd) key
  match finished with
  | none => e
  | some (_, resync) =>
    let e : Exchanges := { e with states := e.states.setMayEmitReady key.ns pending }
    if resync then e.syncWithIdentity key .resync else e

/-- `finish` of a slot. -/
def freed (e : Exchanges) (key : Key) (origin : Origin) : Exchanges :=
  { e with states := (e.states.finish key.ns key.counterpart origin).2 }

/-- **What the end of an exchange does** after its slot is free, if it is: dials are started or
held. -/
lemma grows_finished (e : Exchanges) (key : Key) (origin : Origin) (pending : Bool) :
    Grows (e.freed key origin) (e.finished key origin pending) := by
  unfold finished freed
  generalize e.states.finish key.ns key.counterpart origin = called
  obtain ⟨finished, states⟩ := called
  dsimp only
  have hreleased := @Grows.releaseUnless { e with states := states } key (finished.any Prod.snd)
  cases finished with
  | none => exact hreleased
  | some answer =>
    obtain ⟨started, resync⟩ := answer
    have hready := hreleased.trans (Grows.of_entry fun ns counterpart =>
      entry_setMayEmitReady _ key.ns ns pending counterpart)
    cases resync with
    | true => exact hready.trans .syncWithIdentity
    | false => exact hready

lemma slot_freed (e : Exchanges) (k key : Key) (origin : Origin) : (e.freed k origin).slot key =
    if key = k then (e.slot k).map fun peer => (peer.finish origin).2 else e.slot key :=
  slot_act e k key none fun peer => peer.finish origin

/-- **What an end leaves running** is everything but what runs in its slot in its direction. -/
lemma state_freed_iff {origin running : Origin} {start exchange : ℕ} :
    (e.freed k origin).state key = some (.running start running exchange) ↔
      e.state key = some (.running start running exchange) ∧
        (key = k → running.isAccept ≠ origin.isAccept) := by
  unfold state
  rw [slot_freed]
  by_cases hkey : key = k
  · subst hkey
    cases hpeer : e.slot key with
    | none => simp
    | some peer => simpa using PeerState.state_finish_iff
  · simp [hkey]

/-- `abort_connect`, as far as the exchanges go. -/
def aborted (e : Exchanges) (key : Key) (reason : SyncReason) : Exchanges :=
  { e with states := (e.states.abortConnect key.ns key.counterpart reason).2 }

lemma slot_aborted (e : Exchanges) (k key : Key) (reason : SyncReason) :
    (e.aborted k reason).slot key =
      if key = k then (e.slot k).map fun peer => (peer.abortConnect reason).2 else e.slot key :=
  slot_act e k key false fun peer => peer.abortConnect reason

/-- **What an abort leaves running** is everything but a dial of its reason in its slot. -/
lemma state_aborted_iff {reason : SyncReason} {running : Origin} {start exchange : ℕ} :
    (e.aborted k reason).state key = some (.running start running exchange) ↔
      e.state key = some (.running start running exchange) ∧
        (key = k → running ≠ .connect reason) := by
  unfold state
  rw [slot_aborted]
  by_cases hkey : key = k
  · subst hkey
    cases hpeer : e.slot key with
    | none => simp
    | some peer => simpa using PeerState.state_abortConnect_iff
  · simp [hkey]

/-- **What `accept_request` does**: a session that is allowed has the slot, and one that is refused
leaves every slot. -/
lemma state_acceptRequest (e : Exchanges) (me : NodeId) (identity : Identity) (k : Key)
    (refused : Bool) (now exchange : ℕ) :
    let called := e.states.acceptRequest me identity k.ns k.counterpart refused now exchange
    called.1 = .allow ∧ (∀ key, { e with states := called.2 }.state key =
        if key = k then some (.running now .accept exchange) else e.state key) ∨
      called.1 ≠ .allow ∧ ∀ key, { e with states := called.2 }.state key = e.state key := by
  intro called
  have hslot : ∀ key, { e with states := called.2 }.slot key = if key = k then
      (e.slot k).map fun peer => (peer.acceptRequest (me, identity) k.counterpart refused now
        exchange).2
      else e.slot key :=
    fun key => slot_act e k key _ fun peer =>
      peer.acceptRequest (me, identity) k.counterpart refused now exchange
  have hanswer : called.1 = ((e.slot k).map fun peer => (peer.acceptRequest (me, identity)
      k.counterpart refused now exchange).1).getD (.reject .notFound) :=
    NamespaceStates.fst_act _ _ _ _
  unfold state
  simp only [hslot, hanswer]
  cases hpeer : e.slot k with
  | none =>
    refine .inr ⟨by simp, fun key => ?_⟩
    split_ifs with hkey
    · simp [hkey, hpeer]
    · rfl
  | some peer => grind [PeerState.acceptRequest, PeerState.setSyncRunning]

/-- A dial that ended is neither running nor served. -/
def endDial (e : Exchanges) (dial : Dial) : Exchanges :=
  { e with
    connects := e.connects.erase dial
    served := e.served.filter fun pair => pair ≠ (dial.key, dial.exchange) }

/-- A session that ended is not served. -/
def endServed (e : Exchanges) (key : Key) (exchange : ℕ) : Exchanges :=
  { e with served := e.served.filter fun pair => pair ≠ (key, exchange) }

@[simp] lemma state_endDial (dial : Dial) : (e.endDial dial).state key = e.state key := rfl

@[simp] lemma state_endServed (exchange : ℕ) :
    (e.endServed k exchange).state key = e.state key := rfl

end Exchanges

namespace LiveActor

variable {orders : LiveOrders} {live live' live'' : LiveActor}

/-! ## The ends of exchanges -/

/-- Telling the subscribers of namespaces changes no slot. -/
lemma emitPendingContentReady_eq (live : LiveActor) (namespaces : List NamespaceId) :
    ∃ states events,
      live.emitPendingContentReady namespaces =
        { live with states := states, events := live.events ++ events } ∧
      (∀ ns counterpart, states.entry ns counterpart = live.states.entry ns counterpart) ∧
      ∀ event ∈ events, event.2 = .pendingContentReady := by
  unfold emitPendingContentReady
  induction namespaces generalizing live with
  | nil => exact ⟨live.states, [], by simp, fun _ _ => rfl, by simp⟩
  | cons ns namespaces ih =>
    rw [List.foldl_cons]
    dsimp only
    split_ifs
    · obtain ⟨states, events, heq, hentry, hevents⟩ :=
        ih ((live.onExchanges fun exchanges =>
          { exchanges with states := (live.states.mayEmitReady ns).2 }).emit ns
            .pendingContentReady)
      refine ⟨states, (ns, .pendingContentReady) :: events, ?_, fun ns' counterpart => ?_, ?_⟩
      · rw [heq]
        simp [emit, onExchanges]
      · exact (hentry ns' counterpart).trans (Exchanges.entry_setMayEmitReady ..)
      · simpa using hevents
    · obtain ⟨states, events, heq, hentry, hevents⟩ :=
        ih (live.onExchanges fun exchanges =>
          { exchanges with states := (live.states.mayEmitReady ns).2 })
      refine ⟨states, events, heq, fun ns' counterpart => ?_, hevents⟩
      exact (hentry ns' counterpart).trans (Exchanges.entry_setMayEmitReady ..)

/-- **Parking changes no slot.** -/
lemma parkUnrouted_eq (live : LiveActor) :
    ∃ states events,
      live.parkUnrouted orders =
        { live with
          states := states
          toPayloads := (live.toPayloads.parkUnrouted orders.toOrders fun ns =>
            live.states.isSyncing ns).2
          events := live.events ++ events } ∧
      (∀ ns counterpart, states.entry ns counterpart = live.states.entry ns counterpart) ∧
      ∀ event ∈ events, event.2 = .pendingContentReady :=
  emitPendingContentReady_eq (live.onPayloads fun _ =>
    (live.toPayloads.parkUnrouted orders.toOrders fun ns => live.states.isSyncing ns).2) _

/-- What is told of an exchange that ended changes no slot. -/
lemma announceFinished_eq (live : LiveActor) (key : Key) (origin : Origin) (succeeded : Bool)
    (started : ℕ) :
    ∃ events, live.announceFinished key origin succeeded started =
      { live with
        states := live.states.setMayEmitReady key.ns (live.queuedHashes.containsNamespace key.ns)
        events := live.events ++ events } := by
  unfold announceFinished
  have hpending : (live.emit key.ns (.syncFinished key.counterpart origin succeeded started
      live.now)).queuedHashes.containsNamespace key.ns =
        live.queuedHashes.containsNamespace key.ns := rfl
  simp only [hpending]
  split_ifs
  · exact ⟨_, rfl⟩
  · exact ⟨_, by simp [emit, onExchanges]; rfl⟩

/-- **What the end of an exchange changes.** -/
lemma onSyncFinished_eq (live : LiveActor) (key : Key) (origin : Origin) (succeeded : Bool) :
    ∃ pending events, live.onSyncFinished orders key origin succeeded =
      { (if succeeded then live.onSucceeded orders key else live) with
        toExchanges := live.toExchanges.finished key origin pending
        events := live.events ++ events } := by
  have hsucceeded : (if succeeded then live.onSucceeded orders key else live).toExchanges =
      live.toExchanges ∧
      (if succeeded then live.onSucceeded orders key else live).events = live.events := by
    split_ifs <;> exact ⟨rfl, rfl⟩
  unfold onSyncFinished
  obtain ⟨hexchanges, hevents⟩ := hsucceeded
  generalize (if succeeded then live.onSucceeded orders key else live) = live'
    at hexchanges hevents ⊢
  rw [← hexchanges, ← hevents]
  clear hexchanges hevents
  unfold Exchanges.finished
  dsimp only
  generalize live'.states.finish key.ns key.counterpart origin = called
  obtain ⟨finished, states⟩ := called
  dsimp only
  cases finished with
  | none => exact ⟨false, [], by simp [onExchanges]⟩
  | some answer =>
    obtain ⟨started, resync⟩ := answer
    obtain ⟨events, heq⟩ := announceFinished_eq ((live'.onExchanges fun exchanges =>
      { exchanges with states := states }).onExchanges fun exchanges =>
        exchanges.releaseUnless ((some (started, resync)).any Prod.snd) key) key origin
          succeeded started
    refine ⟨live'.queuedHashes.containsNamespace key.ns, events, ?_⟩
    simp only [heq]
    cases resync
    · rfl
    · rfl

/-- What an exchange that ended does to the payloads: nothing, or, when it went through, its peer
may hold what is waited for. -/
def Synced (orders : LiveOrders) (live : LiveActor) (key : Key) (went : Prop) (live' : LiveActor) :
    Prop :=
  live'.toPayloads = live.toPayloads ∨
    went ∧ live'.toPayloads = live.toPayloads.onSynced orders.toOrders key.ns key.peer

/-- Whether the end of a session names its namespace to the actor, and is no refusal. -/
def Incoming.names (session : Incoming) (script : Script) : Bool :=
  let bob : BobState := ⟨session.key.peer, session.key.ns⟩
  if script.ranOut bob (Incoming.outcome session) then !session.inProcess
  else Incoming.outcome session = .allow ∨ script.refusalSent = false

/-- How a session ends, as far as the actor tells one end from another. -/
lemma Incoming.result_cases (session : Incoming) (script : Script) :
    Incoming.names session script = true ∧
      (Incoming.result session script = .ok session.key.ns ∨
        Incoming.result session script = .error (.sync session.key.peer (some session.key.ns))) ∨
    Incoming.names session script = false ∧
      ((∃ reason, Incoming.result session script =
          .error (.abort session.key.peer session.key.ns reason)) ∨
        Incoming.result session script = .error (.sync session.key.peer none)) := by
  unfold Incoming.names Incoming.result handleSession handleInProcessSession Script.ranOut
  generalize Incoming.outcome session = outcome
  dsimp only
  cases htimes : script.timesOut with
  | true => cases hprocess : session.inProcess <;> simp
  | false =>
    cases hrounds : BobState.runRounds ⟨session.key.peer, session.key.ns⟩ script outcome with
    | none => cases hprocess : session.inProcess <;> simp
    | some result =>
      cases outcome with
      | allow =>
        rcases BobState.runRounds_allow_cases hrounds with rfl | rfl
        · cases hprocess : session.inProcess <;> simp
        · cases hprocess : session.inProcess <;> simp [BobState.fail]
      | reject reason =>
        have hsent : result = .error (BobState.reject ⟨session.key.peer, session.key.ns⟩
          script.refusalSent reason) := (Option.some.inj hrounds).symm
        cases hrefusal : script.refusalSent with
        | true => cases hprocess : session.inProcess <;> simp [hsent, hrefusal, BobState.reject]
        | false =>
          cases hprocess : session.inProcess <;>
            simp [hsent, hrefusal, BobState.reject, BobState.fail]

/-- **The end of an incoming session** is the end of an exchange when it names its namespace, and
nothing otherwise. -/
lemma onAcceptEnded_eq (live : LiveActor) (session : Incoming) (script : Script) :
    (∃ pending, (live.onAcceptEnded orders session script).toExchanges =
        if Incoming.names session script then
          (live.toExchanges.endServed session.key session.exchange).finished session.key
            .accept pending
        else live.toExchanges.endServed session.key session.exchange) ∧
      (live.onAcceptEnded orders session script).accepts = live.accepts.erase session ∧
      (live.onAcceptEnded orders session script).inSession = live.inSession.erase session.key ∧
      (live.onAcceptEnded orders session script).redials = live.redials ∧
      Synced orders live session.key (Incoming.result session script = .ok session.key.ns)
        (live.onAcceptEnded orders session script) := by
  have hfinished : ∀ {went : Prop} (live : LiveActor) (succeeded : Bool),
      (succeeded = true → went) →
      (∃ pending, (live.onSyncFinished orders session.key .accept succeeded).toExchanges =
        live.toExchanges.finished session.key .accept pending) ∧
      (live.onSyncFinished orders session.key .accept succeeded).accepts = live.accepts ∧
      (live.onSyncFinished orders session.key .accept succeeded).inSession = live.inSession ∧
      (live.onSyncFinished orders session.key .accept succeeded).redials = live.redials ∧
      Synced orders live session.key went
        (live.onSyncFinished orders session.key .accept succeeded) := by
    intro went live succeeded hwent
    obtain ⟨pending, events, heq⟩ := @onSyncFinished_eq orders live session.key .accept succeeded
    rw [heq]
    cases succeeded
    · exact ⟨⟨pending, rfl⟩, rfl, rfl, rfl, .inl rfl⟩
    · exact ⟨⟨pending, rfl⟩, rfl, rfl, rfl, .inr ⟨hwent rfl, rfl⟩⟩
  unfold onAcceptEnded
  rcases Incoming.result_cases session script with ⟨hnames, hresult⟩ | ⟨hnames, hresult⟩
  · rw [hnames]
    rcases hresult with hresult | hresult
    · rw [hresult]
      exact hfinished _ true fun _ => rfl
    · rw [hresult]
      exact hfinished _ false (by simp)
  · rw [hnames]
    rcases hresult with ⟨reason, hresult⟩ | hresult
    · rw [hresult]
      exact ⟨⟨false, rfl⟩, rfl, rfl, rfl, .inl rfl⟩
    · rw [hresult]
      exact ⟨⟨false, rfl⟩, rfl, rfl, rfl, .inl rfl⟩

/-- Whether a dial that ended is dialed again: it did not reach a gossip neighbor, and the tries
toward that neighbor are neither under way nor over. -/
def retries (live : LiveActor) (key : Key) (result : Except ConnectError Unit) : Bool :=
  let fresh : RetrySeries := ⟨live.nextRetrySeries, live.now, unreachedRetryFirst, false, false⟩
  result = .error .connect && live.isNeighbor key.peer &&
    (((live.unreachedDials key).getD fresh).arm live.now).1.isSome

/-- A dial that was not reached may be dialed again. -/
lemma retryUnreachedDial_eq (live : LiveActor) (key : Key) (reason : SyncReason) :
    ∃ unreached next more, live.retryUnreachedDial key reason =
      { live with
        unreachedDials := unreached
        nextRetrySeries := next
        redials := live.redials ++ more } ∧
      (∀ redial ∈ more, redial.key = key) ∧
      (more ≠ [] ↔ live.retries key (.error .connect) = true) := by
  unfold retryUnreachedDial retries
  cases hneighbor : live.isNeighbor key.peer with
  | false =>
    exact ⟨Function.update live.unreachedDials key none, live.nextRetrySeries, [], by simp, by simp,
      by simp⟩
  | true =>
    dsimp only
    generalize ((live.unreachedDials key).getD ⟨live.nextRetrySeries, live.now, unreachedRetryFirst,
      false, false⟩).arm live.now = armed
    obtain ⟨delay, series⟩ := armed
    cases delay with
    | none =>
      exact ⟨Function.update live.unreachedDials key (some series), live.nextRetrySeries + 1, [],
        by simp, by simp, by simp⟩
    | some delay =>
      exact ⟨Function.update live.unreachedDials key (some series), live.nextRetrySeries + 1,
        [⟨key, reason, delay, some series.id⟩], rfl, by simp, by simp⟩

/-- A dial whose end is the end of an exchange. -/
lemma onSyncViaConnectFinished_eq (live : LiveActor) (key : Key) (reason : SyncReason)
    {result : Except ConnectError Unit} (h : result ≠ .error (.remoteAbort .alreadySyncing)) :
    (∃ pending, (live.onSyncViaConnectFinished orders key reason result).toExchanges =
      live.toExchanges.finished key (.connect reason) pending) ∧
    (live.onSyncViaConnectFinished orders key reason result).accepts = live.accepts ∧
    (live.onSyncViaConnectFinished orders key reason result).inSession = live.inSession ∧
    Synced orders live key (result = .ok ())
      (live.onSyncViaConnectFinished orders key reason result) ∧
    ∃ more, (live.onSyncViaConnectFinished orders key reason result).redials =
        live.redials ++ more ∧
      (∀ redial ∈ more, redial.key = key) ∧ (more ≠ [] ↔ live.retries key result = true) := by
  by_cases hconnect : result = .error .connect
  · subst hconnect
    obtain ⟨pending, events, heq⟩ := @onSyncFinished_eq orders live key (.connect reason) false
    obtain ⟨unreached, next, more, hretried, hkeys, hmore⟩ := retryUnreachedDial_eq
      (live.onSyncFinished orders key (.connect reason) false) key reason
    have hended : live.onSyncViaConnectFinished orders key reason (.error .connect) =
        (live.onSyncFinished orders key (.connect reason) false).retryUnreachedDial key reason :=
        rfl
    have hretries : (live.onSyncFinished orders key (.connect reason) false).retries key
        (.error .connect) = live.retries key (.error .connect) := by
      have hnow := (live.toExchanges.grows_finished key (.connect reason) pending).now
      rw [heq]
      unfold retries isNeighbor
      exact congrArg (fun now => _ && (((live.unreachedDials key).getD
        ⟨live.nextRetrySeries, now, unreachedRetryFirst, false, false⟩).arm now).1.isSome) hnow
    rw [hended, hretried, heq]
    exact ⟨⟨pending, rfl⟩, rfl, rfl, .inl rfl, more, rfl, hkeys, hmore.trans (by rw [hretries])⟩
  · -- Whatever the two sets of dials come to, what follows is the end of the exchange.
    have hended : ∃ refused unreached,
        live.onSyncViaConnectFinished orders key reason result =
          { live with refusedDials := refused, unreachedDials := unreached }.onSyncFinished orders
            key (.connect reason) (result = Except.ok ()) := by
      unfold onSyncViaConnectFinished
      split
      · exact absurd rfl h
      · simp only [hconnect, decide_false, Bool.false_eq_true, if_false]
        split_ifs
        · exact ⟨_, _, rfl⟩
        · exact ⟨live.refusedDials, _, rfl⟩
    obtain ⟨refused, unreached, hended⟩ := hended
    obtain ⟨pending, events, heq⟩ := @onSyncFinished_eq orders
      { live with refusedDials := refused, unreachedDials := unreached } key (.connect reason)
      (result = .ok ())
    have hnone : ([] : List Redial) ≠ [] ↔ live.retries key result = true := by
      simp [retries, hconnect]
    rw [hended, heq]
    by_cases hok : result = .ok ()
    · rw [decide_eq_true hok]
      exact ⟨⟨pending, rfl⟩, rfl, rfl, .inr ⟨hok, rfl⟩, [], (List.append_nil _).symm, by simp,
        hnone⟩
    · rw [decide_eq_false hok]
      exact ⟨⟨pending, rfl⟩, rfl, rfl, .inl rfl, [], (List.append_nil _).symm, by simp, hnone⟩

/-- **The end of a dial** that the other side refused as already syncing clears a dial of its
reason, and either is dialed again or releases what is held on it. Any other end of a dial is the
end of an exchange. -/
lemma onConnectEnded_cases (live : LiveActor) (dial : Dial) (result : Except ConnectError Unit) :
    (live.onConnectEnded orders dial result).accepts = live.accepts ∧
    (live.onConnectEnded orders dial result).inSession = live.inSession ∧
    Synced orders live dial.key (result = .ok ()) (live.onConnectEnded orders dial result) ∧
    ∃ more, (live.onConnectEnded orders dial result).redials = live.redials ++ more ∧
      (∀ redial ∈ more, redial.key = dial.key) ∧
      (result = .error (.remoteAbort .alreadySyncing) ∧
        ((live.onConnectEnded orders dial result).toExchanges =
            ((live.toExchanges.endDial dial).aborted dial.key dial.reason).releaseUnless false
              dial.key ∨
          (live.onConnectEnded orders dial result).toExchanges =
            (live.toExchanges.endDial dial).aborted dial.key dial.reason ∧ more ≠ []) ∨
      result ≠ .error (.remoteAbort .alreadySyncing) ∧
        (more ≠ [] ↔ live.retries dial.key result = true) ∧
        ∃ pending, (live.onConnectEnded orders dial result).toExchanges =
          (live.toExchanges.endDial dial).finished dial.key (.connect dial.reason) pending) := by
  by_cases hresult : result = .error (.remoteAbort .alreadySyncing)
  · subst hresult
    unfold onConnectEnded onSyncViaConnectFinished
    dsimp only
    split_ifs
    · exact ⟨rfl, rfl, .inl rfl, [], (List.append_nil _).symm, by simp, .inl ⟨rfl, .inl rfl⟩⟩
    · refine ⟨rfl, rfl, .inl rfl, _, rfl, ?_, .inl ⟨rfl, .inr ⟨rfl, List.cons_ne_nil _ _⟩⟩⟩
      simp
  · obtain ⟨hfinished, haccepts, hsessions, hsynced, more, hredials, hkeys, hmore⟩ :=
      @onSyncViaConnectFinished_eq orders { live with
        connects := live.connects.erase dial
        served := live.served.filter fun pair => pair ≠ (dial.key, dial.exchange) }
        dial.key dial.reason _ hresult
    exact ⟨haccepts, hsessions, hsynced, more, hredials, hkeys, .inr ⟨hresult, hmore, hfinished⟩⟩

/-! ## What an end frees -/

/-- The slots when a dial ended, before other dials are started. -/
def connectEnds (live : LiveActor) (dial : Dial) (result : Except ConnectError Unit) : Exchanges :=
  if result = .error (.remoteAbort .alreadySyncing) then
    (live.toExchanges.endDial dial).aborted dial.key dial.reason
  else (live.toExchanges.endDial dial).freed dial.key (.connect dial.reason)

/-- The slots when an incoming session ended, before dials are started. -/
def acceptEnds (live : LiveActor) (session : Incoming) (script : Script) : Exchanges :=
  if Incoming.names session script then
    (live.toExchanges.endServed session.key session.exchange).freed session.key .accept
  else live.toExchanges.endServed session.key session.exchange

lemma grows_onConnectEnded (live : LiveActor) (dial : Dial) (result : Except ConnectError Unit) :
    Exchanges.Grows (live.connectEnds dial result)
      (live.onConnectEnded orders dial result).toExchanges := by
  obtain ⟨-, -, -, _, -, -, ⟨hresult, hends⟩ | ⟨hresult, -, pending, hends⟩⟩ :=
    @onConnectEnded_cases orders live dial result
  · rw [connectEnds, if_pos hresult]
    rcases hends with hends | ⟨hends, -⟩
    · rw [hends]
      exact .releaseUnless false
    · rw [hends]
      exact .refl _
  · rw [connectEnds, if_neg hresult, hends]
    exact Exchanges.grows_finished ..

lemma grows_onAcceptEnded (live : LiveActor) (session : Incoming) (script : Script) :
    Exchanges.Grows (live.acceptEnds session script)
      (live.onAcceptEnded orders session script).toExchanges := by
  obtain ⟨⟨pending, hends⟩, -⟩ := @onAcceptEnded_eq orders live session script
  rw [hends, acceptEnds]
  split_ifs
  · exact Exchanges.grows_finished ..
  · exact .refl _

/-- The end of a dial leaves what runs in other slots, and in its own what runs in the other
direction; one that was refused as already syncing leaves all but a dial of its reason. -/
lemma state_connectEnds_iff {dial : Dial} {result : Except ConnectError Unit} {key : Key}
    {origin : Origin} {start exchange : ℕ} :
    (live.connectEnds dial result).state key = some (.running start origin exchange) ↔
      live.state key = some (.running start origin exchange) ∧ (key = dial.key →
        if result = .error (.remoteAbort .alreadySyncing) then origin ≠ .connect dial.reason
        else origin.isAccept = true) := by
  unfold connectEnds
  split_ifs
  · exact Exchanges.state_aborted_iff
  · refine Exchanges.state_freed_iff.trans ?_
    simp

lemma state_acceptEnds_iff {session : Incoming} {script : Script} {key : Key} {origin : Origin}
    {start exchange : ℕ} :
    (live.acceptEnds session script).state key = some (.running start origin exchange) ↔
      live.state key = some (.running start origin exchange) ∧
        (key = session.key → Incoming.names session script = true → origin.isAccept = false) := by
  unfold acceptEnds
  split_ifs with hnames
  · refine Exchanges.state_freed_iff.trans ?_
    simp [hnames]
  · simp [hnames]

/-! ## What most turns do -/

/-- **Only dials are started or held**: what is accepted and what is dialed again stays. -/
structure Quiet (live live' : LiveActor) : Prop where
  grows : Exchanges.Grows live.toExchanges live'.toExchanges
  accepts : live'.accepts = live.accepts
  redials : live'.redials = live.redials
  inSession : live'.inSession = live.inSession

namespace Quiet

lemma refl (live : LiveActor) : Quiet live live := ⟨.refl _, rfl, rfl, rfl⟩

lemma trans (h : Quiet live live') (h' : Quiet live' live'') : Quiet live live'' :=
  ⟨h.grows.trans h'.grows, h'.accepts.trans h.accepts, h'.redials.trans h.redials,
    h'.inSession.trans h.inSession⟩

lemma of_eq (h : Quiet live' live'') (hexchanges : live'.toExchanges = live.toExchanges)
    (haccepts : live'.accepts = live.accepts) (hredials : live'.redials = live.redials)
    (hsessions : live'.inSession = live.inSession) : Quiet live live'' :=
  ⟨hexchanges ▸ h.grows, h.accepts.trans haccepts, h.redials.trans hredials,
    h.inSession.trans hsessions⟩

lemma onExchanges {change : Exchanges → Exchanges}
    (h : Exchanges.Grows live.toExchanges (change live.toExchanges)) :
    Quiet live (live.onExchanges change) :=
  ⟨h, rfl, rfl, rfl⟩

lemma onPayloads (live : LiveActor) (change : Payloads → Payloads) :
    Quiet live (live.onPayloads change) :=
  ⟨.refl _, rfl, rfl, rfl⟩

lemma syncWithAll (ns : NamespaceId) (peer : NodeId) (callees : List Identity)
    (reason : SyncReason) : Quiet live (live.syncWithAll ns peer callees reason) := by
  refine onExchanges ?_
  generalize live.toExchanges = e
  induction callees generalizing e with
  | nil => exact .refl e
  | cons callee callees ih => exact Exchanges.Grows.syncWithIdentity.trans (ih _)

lemma syncWithReporter (ns : NamespaceId) (peer : NodeId) (reporter : Identity) :
    Quiet live (live.syncWithReporter orders ns peer reporter) := syncWithAll ..

lemma joinPeers (ns : NamespaceId) (contacts : List Counterpart) (recorded : List NodeId)
    (joins : Bool) : Quiet live (live.joinPeers orders ns contacts recorded joins) := by
  have hall : ∀ (peers : List NodeId) (live : LiveActor),
      Quiet live (peers.foldl (fun live peer => live.syncWithPeer orders ns peer .directJoin)
        live) := by
    intro peers
    induction peers with
    | nil => exact refl
    | cons peer peers ih => exact fun live => (syncWithAll ns peer _ _).trans (ih _)
  have hstated : ∀ stated, Quiet live { live with stated := stated } :=
    fun _ => ⟨.refl _, rfl, rfl, rfl⟩
  unfold LiveActor.joinPeers
  dsimp only
  split_ifs
  · exact (hstated _).trans (hall _ _)
  · exact hstated _

lemma forgetNeighbor (ns : NamespaceId) (peer : NodeId) :
    Quiet live (live.forgetNeighbor orders ns peer) := by
  unfold LiveActor.forgetNeighbor
  dsimp only
  split_ifs <;> exact ⟨.refl _, rfl, rfl, rfl⟩

lemma forgetTopicNeighbors (ns : NamespaceId) :
    Quiet live (live.forgetTopicNeighbors orders ns) := by
  unfold LiveActor.forgetTopicNeighbors
  generalize orders.providers.toList _ = peers
  induction peers generalizing live with
  | nil => exact refl live
  | cons peer peers ih => exact (forgetNeighbor ns peer).trans ih

lemma emitPendingContentReady (namespaces : List NamespaceId) :
    Quiet live (live.emitPendingContentReady namespaces) := by
  obtain ⟨states, events, heq, hentry, -⟩ := emitPendingContentReady_eq live namespaces
  rw [heq]
  exact ⟨.of_entry hentry, rfl, rfl, rfl⟩

lemma parkUnrouted (live : LiveActor) : Quiet live (live.parkUnrouted orders) :=
  (onPayloads live _).trans (emitPendingContentReady _)

lemma onFetchFinished (provider : NodeId) (hash : Hash) (outcome : Outcome) :
    Quiet live (live.onFetchFinished orders provider hash outcome) := by
  have hemits : ∀ (live : LiveActor) (events : List (NamespaceId × LiveEvent)),
      Quiet live (live.emitAll events) := fun _ _ => ⟨.refl _, rfl, rfl, rfl⟩
  unfold LiveActor.onFetchFinished
  refine trans ?_ (onPayloads _ _)
  split
  · exact (onPayloads _ _).trans ((hemits _ _).trans (emitPendingContentReady _))
  · exact (onPayloads _ _).trans (emitPendingContentReady _)
  · exact refl _

/-- A namespace comes to sync, if it does not and its replica opens. -/
lemma startSync (ns : NamespaceId) (contacts : List Counterpart) (recorded : List NodeId)
    (defaultIdentity : Option Identity) (opens joins : Bool) :
    Quiet (if !live.states.isSyncing ns && opens then
        { live with states := live.states.insert ns } else live)
      (live.startSync orders ns contacts recorded defaultIdentity opens joins) := by
  unfold LiveActor.startSync
  dsimp only
  cases hsyncs : live.states.isSyncing ns with
  | true =>
    simp only [Bool.not_true, Bool.false_and, Bool.false_eq_true, if_false, if_true]
    exact of_eq (joinPeers ns contacts recorded joins) rfl rfl rfl rfl
  | false =>
    cases opens with
    | true =>
      simp only [Bool.not_false, Bool.and_self, Bool.false_eq_true, if_false, if_true]
      exact of_eq (joinPeers ns contacts recorded joins) rfl rfl rfl rfl
    | false =>
      simp only [Bool.and_false, Bool.false_eq_true, if_false]
      exact ⟨.refl _, rfl, rfl, rfl⟩

lemma leave (ns : NamespaceId) : Quiet (live.part orders ns) (live.leave orders ns) := by
  unfold LiveActor.leave
  dsimp only
  refine trans ?_ (onExchanges (.foldl_releaseHeld _))
  split_ifs
  · exact forgetTopicNeighbors ns
  · exact refl _

end Quiet

/-- What is taken with no more than that. -/
def Action.quiet : Action → Bool
  | .message (.startSync _ _ _ _ _ _) | .message (.dropReplica _) | .message (.handleSession _)
  | .message (.acceptInProcess _) | .message (.redial _) | .message (.orderAfter _ _)
  | .message (.acceptSyncRequest _) | .connectEnded _ _ | .acceptEnded _ _ => false
  | _ => true

/-- What the messages that are taken so come to. -/
lemma quiet_onActorMessage {message : Message} (h : Action.quiet (.message message) = true) :
    Quiet live (live.onActorMessage orders message) := by
  cases message with
  | incomingSyncReport sender ns reporter news =>
    unfold onActorMessage
    dsimp only
    split_ifs
    · exact Quiet.syncWithReporter ns sender reporter
    · exact Quiet.refl live
  | neighborUp ns peer current =>
    unfold onActorMessage
    dsimp only
    split_ifs
    · have hdials := @Quiet.syncWithAll
        { live with neighbors := insert (peer, ns) live.neighbors } ns
        peer (LiveActor.identitiesOfPeer orders
          { live with neighbors := insert (peer, ns) live.neighbors } ns peer) .newNeighbor
      exact ⟨hdials.grows, hdials.accepts, hdials.redials, hdials.inSession⟩
    · exact Quiet.refl live
  | neighborDown ns peer current =>
    unfold onActorMessage
    dsimp only
    split_ifs
    · have hforgets := @Quiet.forgetNeighbor orders live ns peer
      exact ⟨hforgets.grows, hforgets.accepts, hforgets.redials, hforgets.inSession⟩
    · exact Quiet.refl live
  | leaveGossip ns => exact Quiet.forgetTopicNeighbors ns
  | contentScanned ns missing => exact ⟨.refl _, rfl, rfl, rfl⟩
  | resumeFetches provider series => exact ⟨.refl _, rfl, rfl, rfl⟩
  | stateContacts ns contacts => exact ⟨.refl _, rfl, rfl, rfl⟩
  | syncInProcess key => exact ⟨.syncInProcess, rfl, rfl, rfl⟩
  | neighborContentReady ns node hash => exact ⟨.refl _, rfl, rfl, rfl⟩
  | startSync | dropReplica | handleSession | acceptInProcess | redial | orderAfter
  | acceptSyncRequest => simp [Action.quiet] at h

/-- **Nothing else comes of most turns.** -/
lemma quiet_onAction {action : Action} (h : Action.quiet action = true) :
    Quiet live (live.onAction orders action) := by
  cases action with
  | fetchEnded provider hash outcome =>
    exact (Quiet.onPayloads live _).trans (Quiet.onFetchFinished provider hash outcome)
  | gossipEnded ns => exact Quiet.forgetTopicNeighbors ns
  | replicaEvent event =>
    cases event with
    | localInsert ns => exact ⟨.askCoLocated _, rfl, rfl, rfl⟩
    | remoteInsert ns hash sender complete =>
      cases sender with
      | some sender => exact ⟨.refl _, rfl, rfl, rfl⟩
      | none =>
        unfold onAction onReplicaEvent
        dsimp only
        split_ifs
        · exact Quiet.refl live
        · exact Quiet.onPayloads live _
  | message message => exact quiet_onActorMessage h
  | connectEnded dial result => simp [Action.quiet] at h
  | acceptEnded session script => simp [Action.quiet] at h

/-! ## The numbers of exchanges -/

/-- The exchanges that run have numbers of their own. -/
structure Numbered (live : LiveActor) : Prop where
  nodup : (live.accepts.map Incoming.exchange).Nodup
  accepts : ∀ exchange ∈ live.accepts.map Incoming.exchange, exchange < live.nextExchange
  states : ∀ {key start origin exchange},
    live.state key = some (.running start origin exchange) → exchange < live.nextExchange

namespace Numbered

lemma mono (h : live.Numbered) (hnext : live.nextExchange ≤ live'.nextExchange)
    (haccepts : (live'.accepts.map Incoming.exchange).Sublist (live.accepts.map Incoming.exchange))
    (hstates : ∀ key start origin exchange,
      live'.state key = some (.running start origin exchange) →
        live.state key = some (.running start origin exchange) ∨ exchange < live'.nextExchange) :
    live'.Numbered where
  nodup := h.nodup.sublist haccepts
  accepts exchange hmem := (h.accepts exchange (haccepts.subset hmem)).trans_le hnext
  states hstate := by
    rcases hstates _ _ _ _ hstate with hbefore | hlt
    · exact (h.states hbefore).trans_le hnext
    · exact hlt

lemma grows (h : live.Numbered) (hgrows : Exchanges.Grows live.toExchanges live'.toExchanges)
    (haccepts : (live'.accepts.map Incoming.exchange).Sublist
      (live.accepts.map Incoming.exchange)) :
    live'.Numbered := by grind [h.mono, hgrows.next, hgrows.states]

lemma quiet (h : live.Numbered) (hquiet : Quiet live live') : live'.Numbered := by
  refine h.grows hquiet.grows ?_
  rw [hquiet.accepts]

/-- A session that is spawned has the next number. -/
lemma spawnIncoming (h : live.Numbered) (key : Key) (inProcess : Bool) :
    (live.spawnIncoming key inProcess).Numbered where
  nodup := by
    simp only [LiveActor.spawnIncoming, List.map_append, List.map_singleton]
    refine h.nodup.append (List.nodup_singleton _) ?_
    simpa using fun session hmem heq => absurd (h.accepts session.exchange
      (List.mem_map_of_mem hmem)) (by omega)
  accepts exchange hmem := by
    simp only [LiveActor.spawnIncoming, List.map_append, List.map_singleton, List.mem_append,
      List.mem_singleton] at hmem ⊢
    rcases hmem with hmem | rfl
    · have := h.accepts exchange hmem
      omega
    · omega
  states hstate := (h.states hstate).trans (Nat.lt_succ_self _)

end Numbered

lemma state_insert_iff {e : Exchanges} {ns : NamespaceId} {key : Key} {start exchange : ℕ}
    {origin : Origin} :
    { e with states := e.states.insert ns }.state key = some (.running start origin exchange) ↔
      e.state key = some (.running start origin exchange) := by
  unfold Exchanges.state Exchanges.slot NamespaceStates.entry NamespaceStates.insert
  by_cases hns : key.ns = ns
  · cases hstate : e.states ns with
    | none => simp [hns, hstate]
    | some state => simp [hns, hstate]
  · simp [hns]

/-- A namespace that is left has no slots. -/
lemma state_part (ns : NamespaceId) (key : Key) :
    (live.part orders ns).state key = if key.ns = ns then none else live.state key := by
  have hremoved : (live.part orders ns).state key =
      { live.toExchanges with states := (live.states.remove ns).2 }.state key := by
    unfold part
    dsimp only
    split_ifs
    · rfl
    · rfl
  rw [hremoved]
  unfold Exchanges.state Exchanges.slot NamespaceStates.entry NamespaceStates.remove
  split_ifs with hns
  · simp [hns]
  · simp [hns]

lemma quiet_redial (redial : Redial) :
    Quiet { live with redials := live.redials.erase redial }
      (live.onActorMessage orders (.redial redial)) := by
  unfold onActorMessage fireRetry
  dsimp only
  split
  · exact ⟨.syncWithIdentity, rfl, rfl, rfl⟩
  · exact ⟨.syncWithIdentity, rfl, rfl, rfl⟩

/-- **A session that is allowed takes the slot**, and one that is refused changes none. -/
lemma onAcceptSyncRequest_cases (live : LiveActor) (session : Incoming) :
    ∃ outcome states served,
      (live.onAcceptSyncRequest session).toExchanges =
        { live.toExchanges with states := states, served := served } ∧
      (live.onAcceptSyncRequest session).accepts = live.accepts.map (fun other =>
        if other = session then { session with phase := .answered outcome } else other) ∧
      (live.onAcceptSyncRequest session).inSession = session.key ::ₘ live.inSession ∧
      (live.onAcceptSyncRequest session).redials = live.redials ∧
      (∀ ns, states.isSyncing ns = live.states.isSyncing ns) ∧
      (outcome = .allow ∧
        served = live.servedWithout session.key ++ [(session.key, session.exchange)] ∧
          (∀ key, { live.toExchanges with states := states }.state key =
            if key = session.key then some (.running live.now .accept session.exchange)
            else live.state key) ∨
        outcome ≠ .allow ∧ served = live.served ∧
          ∀ key, { live.toExchanges with states := states }.state key = live.state key) := by
  have hstates := live.toExchanges.state_acceptRequest live.me live.identity session.key
    (decide (session.key ∈ live.refusedDials)) live.now session.exchange
  unfold onAcceptSyncRequest acceptSyncRequest
  dsimp only at hstates ⊢
  have hsyncs : ∀ ns, (live.states.acceptRequest live.me live.identity session.key.ns
      session.key.counterpart (decide (session.key ∈ live.refusedDials)) live.now
        session.exchange).2.isSyncing ns = live.states.isSyncing ns :=
    fun ns => NamespaceStates.isSyncing_act _ _ _ _ _
  refine ⟨_, _, _, rfl, rfl, rfl, rfl, hsyncs, ?_⟩
  refine hstates.imp (fun ⟨hallow, hstate⟩ => ⟨hallow, ?_, hstate⟩) fun ⟨hreject, hstate⟩ =>
    ⟨hreject, ?_, hstate⟩
  · exact if_pos hallow
  · exact if_neg hreject

lemma numbered_onAction (h : live.Numbered) (action : Action) (henabled : live.Enabled action) :
    (live.onAction orders action).Numbered := by
  cases action with
  | connectEnded dial result =>
    obtain ⟨haccepts, -⟩ := @onConnectEnded_cases orders live dial result
    have hends : Numbered { live with toExchanges := live.connectEnds dial result } := by
      refine h.mono ?_ (List.Sublist.refl _) fun key start origin exchange hstate =>
        .inl (state_connectEnds_iff.mp hstate).1
      unfold connectEnds
      split_ifs <;> exact le_rfl
    refine hends.grows (grows_onConnectEnded live dial result) ?_
    exact haccepts ▸ List.Sublist.refl _
  | acceptEnded session script =>
    obtain ⟨-, haccepts, -⟩ := @onAcceptEnded_eq orders live session script
    have hends : Numbered { live with toExchanges := live.acceptEnds session script } := by
      refine h.mono ?_ (List.Sublist.refl _) fun key start origin exchange hstate =>
        .inl (state_acceptEnds_iff.mp hstate).1
      unfold acceptEnds
      split_ifs <;> exact le_rfl
    refine hends.grows (grows_onAcceptEnded live session script) ?_
    change ((live.onAcceptEnded orders session script).accepts.map _).Sublist _
    rw [haccepts]
    exact List.erase_sublist.map _
  | message message =>
    cases message with
    | startSync ns contacts recorded defaultIdentity opens joins =>
      refine Numbered.quiet ?_ (Quiet.startSync ns contacts recorded defaultIdentity opens joins)
      split_ifs
      · exact h.mono le_rfl (List.Sublist.refl _) fun key start origin exchange hstate =>
          .inl (state_insert_iff.mp hstate)
      · exact h
    | dropReplica ns =>
      refine Numbered.quiet ?_ (Quiet.leave ns)
      have hparted : (live.part orders ns).nextExchange = live.nextExchange ∧
          (live.part orders ns).accepts = live.accepts := by
        unfold part
        dsimp only
        split_ifs <;> exact ⟨rfl, rfl⟩
      refine h.mono hparted.1.ge (hparted.2 ▸ List.Sublist.refl _)
        fun key start origin exchange hstate =>
        .inl ?_
      rw [state_part] at hstate
      split_ifs at hstate
      exact hstate
    | handleSession key => exact h.spawnIncoming key false
    | acceptInProcess key => exact h.spawnIncoming key true
    | redial redial =>
      have herased : Numbered { live with redials := live.redials.erase redial } :=
        ⟨h.nodup, h.accepts, h.states⟩
      exact herased.quiet (@quiet_redial orders live redial)
    | orderAfter ns first => exact ⟨h.nodup, h.accepts, h.states⟩
    | acceptSyncRequest session =>
      obtain ⟨outcome, states, served, hexchanges, haccepts, -, -, -, hcases⟩ :=
        live.onAcceptSyncRequest_cases session
      have hnumbers : (live.accepts.map (fun other => if other = session then
          { session with phase := .answered outcome } else other)).map Incoming.exchange =
          live.accepts.map Incoming.exchange := by
        rw [List.map_map]
        refine List.map_congr_left fun other _ => ?_
        by_cases hsame : other = session
        · simp [hsame]
        · simp [hsame]
      have hnext : (live.onAcceptSyncRequest session).nextExchange = live.nextExchange := by
        rw [hexchanges]
      refine h.mono hnext.ge ?_ fun key start origin exchange hstate => ?_
      · change ((live.onAcceptSyncRequest session).accepts.map _).Sublist _
        rw [haccepts, hnumbers]
      · change (live.onAcceptSyncRequest session).toExchanges.state key = _ at hstate
        rw [hexchanges] at hstate
        rcases hcases with ⟨-, -, hstates⟩ | ⟨-, -, hstates⟩
        · have hslot := (hstates key).symm.trans hstate
          split_ifs at hslot
          · cases hslot
            refine .inr (lt_of_lt_of_eq (h.accepts _ ?_) hnext.symm)
            exact List.mem_map_of_mem henabled.1
          · exact .inl hslot
        · exact .inl ((hstates key).symm.trans hstate)
    | _ => exact h.quiet (quiet_onAction rfl)
  | _ => exact h.quiet (quiet_onAction rfl)

lemma numbered_step (h : live.Numbered) {turn : Turn} (henabled : live.Enabled turn.action) :
    (live.step turn).Numbered := by
  have hbegun : (live.begin turn).Numbered := ⟨h.nodup, h.accepts, h.states⟩
  exact (numbered_onAction hbegun turn.action henabled).quiet (Quiet.parkUnrouted _)

lemma numbered_new (me : NodeId) (identity : Identity) (fetchesPerProvider : ℕ) :
    (new me identity fetchesPerProvider).Numbered where
  nodup := List.nodup_nil
  accepts _ hmem := by simp [new] at hmem
  states hstate := by
    simp [new, Exchanges.state, Exchanges.slot, NamespaceStates.entry] at hstate

lemma after_of_always {inv : LiveActor → Prop} {turns : List Turn} (h : inv live)
    (hall : live.Always (fun live turn => inv (live.step turn)) turns) :
    inv (live.after turns) := by
  induction turns generalizing live with
  | nil => exact h
  | cons turn turns ih => exact ih hall.1 hall.2

lemma after_of_step {P : LiveActor → Turn → Prop} {inv : LiveActor → Prop}
    (hstep : ∀ live turn, inv live → live.Enabled turn.action → P live turn → inv (live.step turn))
    {turns : List Turn} (hvalid : live.Valid turns) (hall : live.Always P turns) (h : inv live) :
    inv (live.after turns) := by
  induction turns generalizing live with
  | nil => exact h
  | cons turn turns ih => exact ih hvalid.2 hall.2 (hstep live turn h hvalid.1 hall.1)

/-- **Two things that hold of the same turns** while an invariant does, and one of which keeps it,
hold at every turn of the same runs. -/
lemma always_iff {P Q : LiveActor → Turn → Prop} {stays : Turn → Prop} (inv : LiveActor → Prop)
    (hstep : ∀ live turn, inv live → live.Enabled turn.action → stays turn →
      (P live turn ↔ Q live turn) ∧ (P live turn → inv (live.step turn)))
    {turns : List Turn} (hvalid : live.Valid turns) (hstays : ∀ turn ∈ turns, stays turn)
    (h : inv live) : live.Always P turns ↔ live.Always Q turns := by
  induction turns generalizing live with
  | nil => exact Iff.rfl
  | cons turn turns ih =>
    obtain ⟨hsame, hkeeps⟩ := hstep live turn h hvalid.1 (hstays turn List.mem_cons_self)
    have hlater := fun hinv => ih hvalid.2
      (fun later hmem => hstays later (List.mem_cons_of_mem _ hmem)) hinv
    constructor
    · intro hall
      exact ⟨hsame.mp hall.1, (hlater (hkeeps hall.1)).mp hall.2⟩
    · intro hall
      have hfirst := hsame.mpr hall.1
      exact ⟨hfirst, (hlater (hkeeps hfirst)).mpr hall.2⟩

end LiveActor

namespace Testing

/-- The actor's own node. -/
def here : NodeId := ⟨.replicate 32 5⟩

/-- An identity. -/
def owner : Identity := ⟨.replicate 32 6⟩

/-- A namespace. -/
def notes : NamespaceId := ⟨.replicate 32 7⟩

/-- Another namespace. -/
def letters : NamespaceId := ⟨.replicate 32 8⟩

/-- The orders the sets of these are visited in. -/
noncomputable def inOrder : LiveOrders where
  toVisits := inTurn
  namespaces := orderOf [notes, letters] (by decide)
  identities := orderOf [owner] (by decide)
  keys := orderOf [⟨notes, holder, owner⟩, ⟨letters, holder, owner⟩] (by decide)

/-- A turn that takes something. -/
noncomputable def taking (action : LiveActor.Action) : LiveActor.Turn := ⟨inOrder, 0, [], action⟩

/-- A namespace starts to sync with nobody. -/
noncomputable def starting (ns : NamespaceId) : LiveActor.Turn :=
  taking (.message (.startSync ns [] [] none true true))

/-- A session of a peer with an identity. -/
def meeting : Key := ⟨notes, holder, owner⟩

/-- The session when it was spawned as the exchange of a number. -/
def arrival (exchange : ℕ) : Incoming := ⟨exchange, meeting, false, .opened⟩

/-- A session that is allowed the slot. -/
noncomputable def arriving : List LiveActor.Turn :=
  [starting notes, taking (.message (.handleSession meeting)),
    taking (.message (.acceptSyncRequest (arrival 0)))]

end Testing

end MeePdn.PdnStore.Engine
