import Mathlib.Data.Multiset.Filter
import MeePdn.PdnStore.Engine.Exchanges
import MeePdn.PdnStore.Engine.Payloads
import MeePdn.PdnStore.Net

/-!
# The live actor

`pdn-store/src/engine/live.rs`: the actor that dials and accepts sync sessions and fetches payloads.
It takes one thing at a time: a message, a replica event, the end of a dial, of a session or of a
fetch.

## Main definitions

* `LiveActor` — the actor, with what it has started and not seen the end of.
* `LiveActor.onSyncFinished`, `LiveActor.onSyncViaConnectFinished`,
  `LiveActor.onSyncViaAcceptFinished` — the ends of exchanges.
* `LiveActor.onFetchFinished`, `LiveActor.onActorMessage` — the end of a fetch, and the messages.
* `LiveActor.step` — one turn of the loop, and `LiveActor.Enabled`, which turns there are.

## Implementation notes

Maps are functions, and a map whose entries are visited is a set of its pairs. The identities
learned from sessions are a multiset, which counts. What the sync actor, gossip and the access
provider answer is given with the turn. The messages that only ask, what is broadcast, the table of
useful peers and the tags of payloads are left out.

The select of the loop is biased to the inbox, so a session's request is handled before its end;
asking is therefore one turn, and a session whose request is never handled was refused by the access
provider or timed out before it asked.
-/

namespace MeePdn.PdnStore.Engine

/-! ## The actor -/

/-- `Event`, as far as the live actor emits them. -/
inductive LiveEvent where
  | contentReady (hash : Hash)
  | neighborUp (peer : NodeId)
  | neighborDown (peer : NodeId)
  | syncFinished (counterpart : Counterpart) (origin : Origin) (succeeded : Bool)
      (started finished : ℕ)
  | pendingContentReady
deriving DecidableEq

/-- `RetrySeries`: the tries of a dial toward a gossip neighbor. -/
structure RetrySeries where
  id : UInt64
  since : ℕ
  wait : ℕ
  armed : Bool := false
  exhausted : Bool := false
deriving DecidableEq

namespace RetrySeries

variable (series : RetrySeries)

/-- `arm`: the wait before the next try. -/
def arm (now : ℕ) : Option ℕ × RetrySeries :=
  if series.armed || series.exhausted then (none, series)
  else if now - series.since ≥ unreachedRetryFor then (none, { series with exhausted := true })
  else
    (some series.wait,
      { series with wait := min (series.wait * 2) unreachedRetryMax, armed := true })

/-- `fired`. -/
def fired (id : UInt64) : RetrySeries :=
  if series.id = id then { series with armed := false } else series

end RetrySeries

/-- `Redial`: a dial asked for again after a delay. -/
structure Redial where
  key : Key
  reason : SyncReason
  delay : ℕ
  retry : Option UInt64
deriving DecidableEq

/-- How far an incoming session has come: the actor has not been asked, or has answered. -/
inductive SessionPhase where
  | opened
  | answered (outcome : AcceptOutcome)
deriving DecidableEq

/-- An incoming session that runs. -/
structure Incoming where
  exchange : ℕ
  key : Key
  inProcess : Bool
  phase : SessionPhase
deriving DecidableEq

/-- `LiveActor`. -/
structure LiveActor extends Exchanges, Payloads where
  /-- The identities contacts name a peer of a replica as. -/
  stated : Finset Key
  /-- The identities running sessions named. -/
  inSession : Multiset Key
  defaultIdentities : NamespaceId → Option Identity
  /-- Aborts as already syncing in a row. -/
  redialStreaks : Key → ℕ
  /-- Dials that failed to connect to a gossip neighbor. -/
  unreachedDials : Key → Option RetrySeries
  /-- Pairs whose last dial the remote refused. -/
  refusedDials : Finset Key
  nextRetrySeries : UInt64
  /-- The topics each peer is a gossip neighbor in. -/
  neighbors : Finset (NodeId × NamespaceId)
  /-- `running_sync_accept`. -/
  accepts : List Incoming
  /-- Redials waiting out their delay or in the inbox. -/
  redials : List Redial
  /-- Content scans that run. -/
  scanning : List NamespaceId
  /-- What is emitted in this turn. -/
  events : List (NamespaceId × LiveEvent)

/-- The orders in which a turn visits its sets. -/
structure LiveOrders extends Orders where
  identities : SetOrder Identity
  keys : SetOrder Key

/-- `REDIAL_AFTER_ABORT`, in milliseconds. -/
def redialAfterAbort : ℕ := 500

/-- `MAX_REDIALS`. -/
def maxRedials : ℕ := 3

namespace LiveActor

variable (orders : LiveOrders) (live : LiveActor)

/-- Another state of the exchanges. -/
def onExchanges (change : Exchanges → Exchanges) : LiveActor :=
  { live with toExchanges := change live.toExchanges }

/-- Another state of the payloads. -/
def onPayloads (change : Payloads → Payloads) : LiveActor :=
  { live with toPayloads := change live.toPayloads }

/-- An event for the subscribers of a namespace. -/
def emit (ns : NamespaceId) (event : LiveEvent) : LiveActor :=
  { live with events := live.events ++ [(ns, event)] }

/-- Events for the subscribers of namespaces. -/
def emitAll (events : List (NamespaceId × LiveEvent)) : LiveActor :=
  { live with events := live.events ++ events }

/-- `is_neighbor`. -/
def isNeighbor (peer : NodeId) : Bool := peer ∈ live.neighbors.image Prod.fst

/-! ### Whom a peer is dialed as -/

/-- `learned_identities`. -/
def learnedIdentities (ns : NamespaceId) (peer : NodeId) : List Identity :=
  let names : Finset Key := live.stated ∪ live.inSession.toFinset
  orders.identities.toList
    ((names.filter fun key => key.ns = ns ∧ key.peer = peer).image Key.identity)

/-- `identities_of_peer`. -/
def identitiesOfPeer (ns : NamespaceId) (peer : NodeId) : List Identity :=
  let learned := live.learnedIdentities orders ns peer
  if learned ≠ [] then learned else [(live.defaultIdentities ns).getD live.identity]

/-- `consumer_names`. -/
def consumerNames (ns : NamespaceId) (identity : Identity) : Bool :=
  live.defaultIdentities ns = some identity ∨
    ∃ key ∈ live.stated, key.ns = ns ∧ key.identity = identity

/-- A dial of every one of a list of identities. -/
def syncWithAll (ns : NamespaceId) (peer : NodeId) (callees : List Identity) (reason : SyncReason) :
    LiveActor :=
  live.onExchanges fun exchanges =>
    callees.foldl (fun exchanges callee => exchanges.syncWithIdentity ⟨ns, peer, callee⟩ reason)
      exchanges

/-- `sync_with_peer`. -/
def syncWithPeer (ns : NamespaceId) (peer : NodeId) (reason : SyncReason) : LiveActor :=
  live.syncWithAll ns peer (live.identitiesOfPeer orders ns peer) reason

/-- `sync_with_reporter`. -/
def syncWithReporter (ns : NamespaceId) (peer : NodeId) (reporter : Identity) : LiveActor :=
  let learned := live.learnedIdentities orders ns peer
  let callees :=
    if learned ≠ [] then learned
    else if live.consumerNames ns reporter then [reporter]
    else live.identitiesOfPeer orders ns peer
  live.syncWithAll ns peer callees .syncReport

/-! ### Redials -/

/-- `redial_after`. -/
def redialAfter (key : Key) (reason : SyncReason) (delay : ℕ) (retry : Option UInt64) : LiveActor :=
  { live with redials := live.redials ++ [⟨key, reason, delay, retry⟩] }

/-- `retry_unreached_dial`. -/
def retryUnreachedDial (key : Key) (reason : SyncReason) : LiveActor :=
  if !live.isNeighbor key.peer then
    { live with unreachedDials := Function.update live.unreachedDials key none }
  else
    let fresh : RetrySeries := ⟨live.nextRetrySeries, live.now, unreachedRetryFirst, false, false⟩
    let series := (live.unreachedDials key).getD fresh
    let (delay, series) := series.arm live.now
    let live :=
      { live with
        nextRetrySeries := live.nextRetrySeries + 1
        unreachedDials := Function.update live.unreachedDials key (some series) }
    match delay with
    | none => live
    | some delay => live.redialAfter key reason delay (some series.id)

/-- `end_retries_toward`. -/
def endRetriesToward (peer : NodeId) : LiveActor :=
  { live with
    unreachedDials := fun key =>
      if key.peer = peer then none else live.unreachedDials key }.onPayloads
      fun payloads => payloads.applyFetches (payloads.fetches.neighborGone orders.toVisits peer)

/-- `forget_neighbor`. -/
def forgetNeighbor (ns : NamespaceId) (peer : NodeId) : LiveActor :=
  if live.isNeighbor peer then
    let live := { live with neighbors := live.neighbors.erase (peer, ns) }
    if live.isNeighbor peer then live else live.endRetriesToward orders peer
  else live

/-- `forget_topic_neighbors`. -/
def forgetTopicNeighbors (ns : NamespaceId) : LiveActor :=
  (orders.providers.toList (live.neighbors.image Prod.fst)).foldl
    (fun live peer => live.forgetNeighbor orders ns peer) live

/-! ### The ends of exchanges -/

/-- `emit_pending_content_ready`. -/
def emitPendingContentReady (namespaces : List NamespaceId) : LiveActor :=
  namespaces.foldl
    (fun live ns =>
      let (ready, states) := live.states.mayEmitReady ns
      let live := live.onExchanges fun exchanges => { exchanges with states := states }
      if ready = some true then live.emit ns .pendingContentReady else live)
    live

/-- What an exchange that went through comes to. -/
def onSucceeded (key : Key) : LiveActor :=
  { live with
    refusedDials := live.refusedDials.erase key
    redialStreaks := Function.update live.redialStreaks key 0
    unreachedDials := Function.update live.unreachedDials key none }.onPayloads
      fun payloads => payloads.onSynced orders.toOrders key.ns key.peer

/-- What is told of an exchange that ended, and whether more is to come. -/
def announceFinished (key : Key) (origin : Origin) (succeeded : Bool) (started : ℕ) : LiveActor :=
  let live := live.emit key.ns (.syncFinished key.counterpart origin succeeded started live.now)
  let pending := live.queuedHashes.containsNamespace key.ns
  let live := if pending then live else live.emit key.ns .pendingContentReady
  live.onExchanges fun exchanges =>
    { exchanges with states := exchanges.states.setMayEmitReady key.ns pending }

/-- `on_sync_finished`. -/
def onSyncFinished (key : Key) (origin : Origin) (succeeded : Bool) : LiveActor :=
  let live := if succeeded then live.onSucceeded orders key else live
  let (finished, states) := live.states.finish key.ns key.counterpart origin
  let live := live.onExchanges fun exchanges => { exchanges with states := states }
  let resyncQueued := finished.any Prod.snd
  let live := live.onExchanges fun exchanges => exchanges.releaseUnless resyncQueued key
  match finished with
  | none => live
  | some (started, resync) =>
    let live := live.announceFinished key origin succeeded started
    if resync then live.onExchanges fun exchanges => exchanges.syncWithIdentity key .resync
    else live

/-- `on_sync_via_connect_finished`. -/
def onSyncViaConnectFinished (key : Key) (reason : SyncReason) (result : Except ConnectError Unit) :
    LiveActor :=
  match result with
  | .error (.remoteAbort .alreadySyncing) =>
    let streak := min (live.redialStreaks key + 1) (2 ^ 32 - 1)
    let live :=
      { live with
        unreachedDials := Function.update live.unreachedDials key none
        redialStreaks := Function.update live.redialStreaks key streak }.onExchanges
          fun exchanges =>
            { exchanges with
              states := (exchanges.states.abortConnect key.ns key.counterpart reason).2 }
    if streak > maxRedials then
      live.onExchanges fun exchanges => exchanges.releaseUnless false key
    else live.redialAfter key reason (redialAfterAbort * 2 ^ (streak - 1)) none
  | result =>
    let live :=
      if result = .error (.remoteAbort .notFound) then
        { live with refusedDials := insert key live.refusedDials }
      else live
    let unreached := decide (result = .error .connect)
    let live :=
      if unreached then live
      else { live with unreachedDials := Function.update live.unreachedDials key none }
    let live := live.onSyncFinished orders key (.connect reason) (result = .ok ())
    if unreached then live.retryUnreachedDial key reason else live

/-- `on_sync_via_accept_finished`. -/
def onSyncViaAcceptFinished (caller : Identity) (peer : NodeId)
    (result : Except AcceptError NamespaceId) : LiveActor :=
  match result with
  | .ok ns => live.onSyncFinished orders ⟨ns, peer, caller⟩ .accept true
  | .error (.abort _ _ _) => live
  | .error error =>
    match error.peer, error.ns with
    | some peer, some ns =>
      let key : Key := ⟨ns, peer, caller⟩
      { live with
        unreachedDials := Function.update live.unreachedDials key none }.onSyncFinished orders key
          .accept false
    | _, _ => live

/-! ### Fetches and replica events -/

/-- `on_fetch_finished`. -/
def onFetchFinished (provider : NodeId) (hash : Hash) (outcome : Outcome) : LiveActor :=
  let work := live.fetches.finished orders.toVisits provider hash outcome (live.isNeighbor provider)
    live.now
  let (wanting, emptied, _) := live.queuedHashes.takeHash hash orders.namespaces
  let live :=
    match outcome with
    | .fetched =>
      let live := live.onPayloads fun payloads => payloads.dequeue hash
      let ready := wanting.map fun ns => (ns, LiveEvent.contentReady hash)
      (live.emitAll ready).emitPendingContentReady emptied
    | .held =>
      (live.onPayloads fun payloads => payloads.dequeue hash).emitPendingContentReady emptied
    | _ => live
  live.onPayloads fun payloads => payloads.applyFetches work

/-- The replica events the actor takes. -/
inductive ReplicaEvent where
  | localInsert (ns : NamespaceId)
  /-- `from` is none for a peer id that is no key. -/
  | remoteInsert (ns : NamespaceId) (hash : Hash) (sender : Option NodeId) (complete : Bool)
deriving DecidableEq

/-- `on_replica_event`. -/
def onReplicaEvent : ReplicaEvent → LiveActor
  | .localInsert ns => live.onExchanges fun exchanges =>
    (exchanges.askCoLocated (.announce ns exchanges.identity)).2
  | .remoteInsert ns hash (some sender) complete =>
    live.onPayloads fun payloads => payloads.onRemoteInsert orders.toOrders ns hash sender complete
  | .remoteInsert ns hash none complete =>
    if complete then live else live.onPayloads fun payloads => payloads.enqueueOrPark ns hash

/-! ### Starting and leaving a namespace -/

/-- `join_peers`; `joins` says whether joining the swarm succeeds. -/
def joinPeers (ns : NamespaceId) (contacts : List Counterpart) (recorded : List NodeId)
    (joins : Bool) : LiveActor :=
  let live :=
    { live with
      stated := live.stated ∪ (contacts.map fun contact => ⟨ns, contact.1, contact.2⟩).toFinset }
  let peers := recorded.foldl (fun peers peer => if peer ∈ peers then peers else peers ++ [peer])
    (contacts.map Prod.fst)
  if joins then peers.foldl (fun live peer => live.syncWithPeer orders ns peer .directJoin) live
  else live

/-- `start_sync`; `opens` says whether the replica opens. -/
def startSync (ns : NamespaceId) (contacts : List Counterpart) (recorded : List NodeId)
    (defaultIdentity : Option Identity) (opens joins : Bool) : LiveActor :=
  let identity := defaultIdentity.getD ((live.defaultIdentities ns).getD live.identity)
  let live :=
    { live with defaultIdentities := Function.update live.defaultIdentities ns (some identity) }
  if live.states.isSyncing ns then live.joinPeers orders ns contacts recorded joins
  else if opens then
    let live := live.onExchanges fun exchanges =>
      { exchanges with states := exchanges.states.insert ns }
    { live with
      contentScans := Function.update live.contentScans ns (some none)
      scanning := live.scanning ++ [ns] }.joinPeers orders ns contacts recorded joins
  else live

/-- What `leave` forgets of a namespace that syncs. -/
def forget (ns : NamespaceId) : LiveActor :=
  { live with
    stated := live.stated.filter fun key => key.ns ≠ ns
    inSession := live.inSession.filter fun key => key.ns ≠ ns
    redialStreaks := fun key => if key.ns = ns then 0 else live.redialStreaks key
    unreachedDials := fun key => if key.ns = ns then none else live.unreachedDials key
    refusedDials := live.refusedDials.filter fun key => key.ns ≠ ns
    served := live.served.filter fun pair => pair.1.ns ≠ ns }.onPayloads fun payloads =>
      payloads.leave orders.toOrders ns

/-- What `leave` does first. -/
def part (ns : NamespaceId) : LiveActor :=
  let wasSyncing := live.states.isSyncing ns
  let live := live.onExchanges fun exchanges =>
    { exchanges with
      prerequisites := Function.update exchanges.prerequisites ns none
      held := exchanges.held.filter fun held => held.2.ns ≠ ns
      states := (exchanges.states.remove ns).2 }
  if wasSyncing then live.forget orders ns else live

/-- `leave`. The sync actor fails a call only for a replica that is not open, and one that syncs
is. -/
def leave (ns : NamespaceId) : LiveActor :=
  let heldOnIt := orders.keys.toList
    ((live.held.map Prod.fst).toFinset.filter fun key => key.ns = ns)
  let wasSyncing := live.states.isSyncing ns
  let live := live.part orders ns
  let live := if wasSyncing then live.forgetTopicNeighbors orders ns else live
  live.onExchanges fun exchanges =>
    heldOnIt.foldl (fun exchanges key => exchanges.releaseHeld key) exchanges

/-- `state_contacts`. -/
def stateContacts (ns : NamespaceId) (contacts : List Counterpart) : LiveActor :=
  { live with
    stated := (live.stated.filter fun key => key.ns ≠ ns) ∪
      (contacts.map fun contact => ⟨ns, contact.1, contact.2⟩).toFinset }

/-! ### Incoming sessions -/

/-- A session is spawned: `handle_session`, or `accept_in_process`. -/
def spawnIncoming (key : Key) (inProcess : Bool) : LiveActor :=
  { live with
    accepts := live.accepts ++ [⟨live.nextExchange, key, inProcess, .opened⟩]
    nextExchange := live.nextExchange + 1 }

/-- The exchanges that are served without the one that has a slot. -/
def servedWithout (key : Key) : List (Key × ℕ) :=
  live.served.filter fun pair =>
    match live.state key with
    | some (.running _ _ exchange) => pair ≠ (key, exchange)
    | _ => true

/-- `accept_sync_request`. A session that is allowed supersedes the exchange that has the slot. -/
def acceptSyncRequest (session : Incoming) : AcceptOutcome × LiveActor :=
  let key := session.key
  let (outcome, states) := live.states.acceptRequest live.me live.identity key.ns key.counterpart
    (key ∈ live.refusedDials) live.now session.exchange
  let served :=
    if outcome = .allow then live.servedWithout key ++ [(key, session.exchange)] else live.served
  (outcome, live.onExchanges fun exchanges => { exchanges with states := states, served := served })

/-- `AcceptSyncRequest`: the access provider admitted the caller, so its identity is learned. -/
def onAcceptSyncRequest (session : Incoming) : LiveActor :=
  let live := { live with inSession := session.key ::ₘ live.inSession }
  let (outcome, live) := live.acceptSyncRequest session
  { live with
    accepts := live.accepts.map fun other =>
      if other = session then { session with phase := .answered outcome } else other }

/-- What the actor answered a session, and `NotFound` where the access provider denied it. -/
def Incoming.outcome (session : Incoming) : AcceptOutcome :=
  match session.phase with
  | .opened => .reject .notFound
  | .answered outcome => outcome

/-- How a session ends. -/
def Incoming.result (session : Incoming) (script : Script) : Except AcceptError NamespaceId :=
  let bob : BobState := ⟨session.key.peer, session.key.ns⟩
  if session.inProcess then handleInProcessSession bob script (Incoming.outcome session)
  else handleSession bob script (Incoming.outcome session)

/-- The end of a session, whose identity is given back on every path. -/
def onAcceptEnded (session : Incoming) (script : Script) : LiveActor :=
  { live with
    accepts := live.accepts.erase session
    served := live.served.filter fun pair => pair ≠ (session.key, session.exchange)
    inSession := live.inSession.erase session.key }.onSyncViaAcceptFinished orders
      session.key.identity session.key.peer (Incoming.result session script)

/-- The end of a dial. -/
def onConnectEnded (dial : Dial) (result : Except ConnectError Unit) : LiveActor :=
  { live with
    connects := live.connects.erase dial
    served := live.served.filter fun pair =>
      pair ≠ (dial.key, dial.exchange) }.onSyncViaConnectFinished orders dial.key
      dial.reason result

/-! ## The loop -/

/-- `ToLiveActor`, with what the calls the message leads to come to. -/
inductive Message where
  /-- `news`: the heads decode and are news for the replica. -/
  | incomingSyncReport (sender : NodeId) (ns : NamespaceId) (reporter : Identity) (news : Bool)
  /-- `current`: the subscription that saw it is the topic's current one. -/
  | neighborUp (ns : NamespaceId) (peer : NodeId) (current : Bool)
  | neighborDown (ns : NamespaceId) (peer : NodeId) (current : Bool)
  | startSync (ns : NamespaceId) (contacts : List Counterpart) (recorded : List NodeId)
      (defaultIdentity : Option Identity) (opens joins : Bool)
  | leaveGossip (ns : NamespaceId)
  | dropReplica (ns : NamespaceId)
  | handleSession (key : Key)
  | acceptInProcess (key : Key)
  | contentScanned (ns : NamespaceId) (missing : List Hash)
  | redial (redial : Redial)
  | resumeFetches (provider : NodeId) (series : UInt64)
  | stateContacts (ns : NamespaceId) (contacts : List Counterpart)
  | orderAfter (ns : NamespaceId) (first : Option NamespaceId)
  | syncInProcess (key : Key)
  | acceptSyncRequest (session : Incoming)
  | neighborContentReady (ns : NamespaceId) (node : NodeId) (hash : Hash)

/-- The armed try of a redial's series has fired. -/
def fireRetry (redial : Redial) : LiveActor :=
  match redial.retry with
  | none => live
  | some id =>
    { live with
      unreachedDials := Function.update live.unreachedDials redial.key
        ((live.unreachedDials redial.key).map fun series => series.fired id) }

/-- `on_actor_message`. -/
def onActorMessage : Message → LiveActor
  | .incomingSyncReport sender ns reporter news =>
    if live.states.isSyncing ns && news then live.syncWithReporter orders ns sender reporter
    else live
  | .neighborUp ns peer current =>
    if current then
      ({ live with neighbors := insert (peer, ns) live.neighbors }.syncWithPeer orders ns peer
        .newNeighbor).emit ns (.neighborUp peer)
    else live
  | .neighborDown ns peer current =>
    if current then (live.forgetNeighbor orders ns peer).emit ns (.neighborDown peer) else live
  | .startSync ns contacts recorded defaultIdentity opens joins =>
    live.startSync orders ns contacts recorded defaultIdentity opens joins
  | .leaveGossip ns => live.forgetTopicNeighbors orders ns
  | .dropReplica ns => live.leave orders ns
  | .handleSession key => live.spawnIncoming key false
  | .acceptInProcess key => live.spawnIncoming key true
  | .contentScanned ns missing =>
    { live with scanning := live.scanning.erase ns }.onPayloads fun payloads =>
      payloads.onContentScanned orders.toOrders (live.states.isSyncing ns) ns missing
  | .redial redial =>
    ({ live with redials := live.redials.erase redial }.fireRetry redial).onExchanges
      fun exchanges => exchanges.syncWithIdentity redial.key redial.reason
  | .resumeFetches provider series =>
    live.onPayloads fun payloads =>
      { payloads with resumes := payloads.resumes.erase (provider, series) }.applyFetches
        (payloads.fetches.resume provider series)
  | .stateContacts ns contacts => live.stateContacts ns contacts
  | .orderAfter ns first =>
    live.onExchanges fun exchanges =>
      { exchanges with prerequisites := Function.update exchanges.prerequisites ns first }
  | .syncInProcess key => live.onExchanges fun exchanges => exchanges.syncInProcess key
  | .acceptSyncRequest session => live.onAcceptSyncRequest session
  | .neighborContentReady ns node hash =>
    live.onPayloads fun payloads => payloads.registerProvider orders.toOrders ns hash node

/-- What a turn of the loop takes. -/
inductive Action where
  | fetchEnded (provider : NodeId) (hash : Hash) (outcome : Outcome)
  | message (message : Message)
  | replicaEvent (event : ReplicaEvent)
  | connectEnded (dial : Dial) (result : Except ConnectError Unit)
  | acceptEnded (session : Incoming) (script : Script)
  | gossipEnded (ns : NamespaceId)

/-- What a turn does, before what it left with no provider is parked. -/
def onAction : Action → LiveActor
  | .fetchEnded provider hash outcome =>
    (live.onPayloads fun payloads =>
      { payloads with downloads := payloads.downloads.erase (provider, hash) }).onFetchFinished
        orders provider hash outcome
  | .message message => live.onActorMessage orders message
  | .replicaEvent event => live.onReplicaEvent orders event
  | .connectEnded dial result => live.onConnectEnded orders dial result
  | .acceptEnded session script => live.onAcceptEnded orders session script
  | .gossipEnded ns => live.forgetTopicNeighbors orders ns

/-- `park_unrouted`. -/
def parkUnrouted : LiveActor :=
  let (emptied, payloads) := live.toPayloads.parkUnrouted orders.toOrders fun ns =>
    live.states.isSyncing ns
  (live.onPayloads fun _ => payloads).emitPendingContentReady emptied

/-- A turn of the loop: its time, what the requests to the node's other identities come to in it,
and what it takes. -/
structure Turn where
  orders : LiveOrders
  now : ℕ
  asked : List Bool
  action : Action

/-- The actor as a turn begins. -/
def begin (turn : Turn) : LiveActor :=
  { live with now := turn.now, asked := turn.asked, requests := [], events := [] }

/-- One turn of the loop. -/
def step (turn : Turn) : LiveActor :=
  ((live.begin turn).onAction turn.orders turn.action).parkUnrouted turn.orders

/-- What ends was started, and what comes after a delay was asked for; any other message comes at
any time. -/
def Enabled : Action → Prop
  | .fetchEnded provider hash _ => (provider, hash) ∈ live.downloads
  | .message (.contentScanned ns _) => ns ∈ live.scanning
  | .message (.redial redial) => redial ∈ live.redials
  | .message (.resumeFetches provider series) => (provider, series) ∈ live.resumes
  | .message (.acceptSyncRequest session) => session ∈ live.accepts ∧ session.phase = .opened
  | .connectEnded dial _ => dial ∈ live.connects
  | .acceptEnded session _ => session ∈ live.accepts
  | _ => True

instance (action : Action) : Decidable (live.Enabled action) := by
  unfold Enabled
  split <;> infer_instance

/-- What holds at every turn of a run. -/
def Always (P : LiveActor → Turn → Prop) : LiveActor → List Turn → Prop
  | _, [] => True
  | live, turn :: turns => P live turn ∧ Always P (live.step turn) turns

instance decidableAlways (P : LiveActor → Turn → Prop) [∀ live turn, Decidable (P live turn)] :
    (live : LiveActor) → (turns : List Turn) → Decidable (live.Always P turns)
  | _, [] => isTrue trivial
  | live, turn :: turns =>
    have := decidableAlways P (live.step turn) turns
    inferInstanceAs (Decidable (P live turn ∧ Always P (live.step turn) turns))

/-- The actor after a list of turns. -/
def after (turns : List Turn) : LiveActor := turns.foldl step live

/-- Every turn is enabled when it is taken. -/
def Valid (turns : List Turn) : Prop :=
  live.Always (fun live turn => live.Enabled turn.action) turns

instance (turns : List Turn) : Decidable (live.Valid turns) := by
  unfold Valid
  infer_instance

/-- `LiveActor::new`. -/
def new (me : NodeId) (identity : Identity) (fetchesPerProvider : ℕ) : LiveActor where
  me := me
  identity := identity
  now := 0
  states _ := none
  prerequisites _ := none
  held := []
  connects := []
  asked := []
  requests := []
  nextExchange := 0
  served := []
  fetches := .new fetchesPerProvider
  unrouted := []
  missingHashes := ∅
  contentScans _ := none
  queuedHashes := {}
  downloads := []
  resumes := []
  stated := ∅
  inSession := 0
  defaultIdentities _ := none
  redialStreaks _ := 0
  unreachedDials _ := none
  refusedDials := ∅
  nextRetrySeries := 0
  neighbors := ∅
  accepts := []
  redials := []
  scanning := []
  events := []

end LiveActor

end MeePdn.PdnStore.Engine
