import MeePdn.PdnStore.Engine.Turns

/-!
# A payload that lands

What is queued is what the fetch scheduler wants, after every turn of the live actor. A payload that
lands is announced to the namespaces that have it queued. A namespace that parked it, while another
one came to queue it, is not told and keeps waiting for it. That takes a provider registered for a
payload while another namespace has it parked: without one, everyone is told.

## Main results

* `LiveActor.Keeps.onAction` — a property of the payloads that what a turn takes keeps.
* `LiveActor.tracked_after` — after every turn, what is queued is what is wanted.
* `LiveActor.cleared_after` — what is wanted is parked by nobody, while no provider is registered
  for a payload that another namespace has parked.
* `LiveActor.events_fetched`, `LiveActor.pending_fetched` — what a fetch that went through
  announces, and what is still waited for.
* `LiveActor.payload_announced` — every namespace that waits for a payload is told, exactly when
  none has parked it.
* `LiveActor.landings_announced` — in every run that registers no such provider, they are told.
* `Testing.parked_not_announced` — a namespace that is not told.
-/

namespace MeePdn.PdnStore.Engine

namespace LiveActor

variable {orders : LiveOrders} {live : LiveActor}

/-! ## What a turn does to the payloads -/

lemma toPayloads_emitPendingContentReady (namespaces : List NamespaceId) :
    (live.emitPendingContentReady namespaces).toPayloads = live.toPayloads := by
  obtain ⟨states, events, heq, -, -⟩ := emitPendingContentReady_eq live namespaces
  rw [heq]

lemma toPayloads_joinPeers (ns : NamespaceId) (contacts : List Counterpart)
    (recorded : List NodeId) (joins : Bool) :
    (live.joinPeers orders ns contacts recorded joins).toPayloads = live.toPayloads := by
  have hall : ∀ (peers : List NodeId) (live : LiveActor),
      (peers.foldl (fun live peer => live.syncWithPeer orders ns peer .directJoin) live).toPayloads
        = live.toPayloads := by
    intro peers
    induction peers with
    | nil => exact fun _ => rfl
    | cons peer peers ih => exact fun _ => ih _
  unfold joinPeers
  dsimp only
  split_ifs
  · exact hall _ _
  · rfl

lemma toPayloads_startSync (ns : NamespaceId) (contacts : List Counterpart)
    (recorded : List NodeId) (defaultIdentity : Option Identity) (opens joins : Bool) :
    ∃ scans, (live.startSync orders ns contacts recorded defaultIdentity opens joins).toPayloads =
      { live.toPayloads with contentScans := scans } := by
  unfold startSync
  dsimp only
  split_ifs
  · exact ⟨live.contentScans, toPayloads_joinPeers ..⟩
  · exact ⟨_, toPayloads_joinPeers ..⟩
  · exact ⟨live.contentScans, rfl⟩

/-- The exchange of a session that went through ends in this turn. -/
def Syncs (key : Key) : Action → Prop
  | .connectEnded dial result => dial.key = key ∧ result = .ok ()
  | .acceptEnded session script => session.key = key ∧
      Incoming.result session script = .ok session.key.ns
  | _ => False

/-- **What keeps a property of the payloads through a turn**: every call of the scheduler keeps it,
and so does what the turn takes, where that may want, queue or park a payload. -/
structure Keeps (orders : LiveOrders) (live : LiveActor) (action : Action) (P : Payloads → Prop) :
    Prop where
  aside : ∀ {payloads} scans downloads resumes, P payloads →
    P { payloads with contentScans := scans, downloads := downloads, resumes := resumes }
  applyFetches : ∀ {payloads : Payloads} {work}, P payloads →
    Unroutes payloads.fetches.begin work → P (payloads.applyFetches work)
  finished : ∀ {payloads : Payloads} provider hash outcome neighbor now, P payloads →
    P ((if outcome = .fetched ∨ outcome = .held then payloads.dequeue hash
      else payloads).applyFetches
        (payloads.fetches.finished orders.toVisits provider hash outcome neighbor now))
  leave : ∀ {payloads : Payloads} ns, P payloads → P (payloads.leave orders.toOrders ns)
  contentScanned : ∀ syncing ns missing, action = .message (.contentScanned ns missing) →
    P (live.toPayloads.onContentScanned orders.toOrders syncing ns missing)
  contentReady : ∀ ns node hash, action = .message (.neighborContentReady ns node hash) →
    P (live.toPayloads.registerProvider orders.toOrders ns hash node)
  inserted : ∀ ns hash sender, action = .replicaEvent (.remoteInsert ns hash (some sender) true) →
    P (live.toPayloads.onRemoteInsert orders.toOrders ns hash sender true)
  enqueueOrPark : ∀ ns hash, P (live.toPayloads.enqueueOrPark ns hash)
  synced : ∀ key, Syncs key action →
    P (live.toPayloads.onSynced orders.toOrders key.ns key.peer)

namespace Keeps

variable {action : Action} {P : Payloads → Prop} {live' : LiveActor}
  (hkeeps : Keeps orders live action P)

include hkeeps

lemma forgetNeighbor (h : P live'.toPayloads)
    (ns : NamespaceId) (peer : NodeId) : P (live'.forgetNeighbor orders ns peer).toPayloads := by
  unfold LiveActor.forgetNeighbor
  dsimp only
  split_ifs
  · exact h
  · exact hkeeps.applyFetches h (Acts.neighborGone orders.toVisits _ peer).unroutes
  · exact h

lemma forgetTopicNeighbors (h : P live'.toPayloads)
    (ns : NamespaceId) : P (live'.forgetTopicNeighbors orders ns).toPayloads := by
  have hall : ∀ (peers : List NodeId) (live : LiveActor), P live.toPayloads →
      P (peers.foldl (fun live peer => live.forgetNeighbor orders ns peer) live).toPayloads := by
    intro peers
    induction peers with
    | nil => exact fun _ h => h
    | cons peer peers ih => exact fun _ h => ih _ (hkeeps.forgetNeighbor h ns peer)
  exact hall _ _ h

lemma leaves (h : P live'.toPayloads) (ns : NamespaceId) :
    P (live'.leave orders ns).toPayloads := by
  have hpart : P (live'.part orders ns).toPayloads := by
    unfold part
    dsimp only
    split_ifs
    · exact hkeeps.leave ns h
    · exact h
  unfold LiveActor.leave
  dsimp only
  split_ifs
  · exact hkeeps.forgetTopicNeighbors hpart ns
  · exact hpart

lemma onFetchFinished (h : P live'.toPayloads)
    (provider : NodeId) (hash : Hash) (outcome : Outcome) :
    P (live'.onFetchFinished orders provider hash outcome).toPayloads := by
  have hfinished := hkeeps.finished provider hash outcome (live'.isNeighbor provider) live'.now h
  unfold LiveActor.onFetchFinished
  cases outcome with
  | fetched =>
    simp only [onPayloads, toPayloads_emitPendingContentReady]
    exact hfinished
  | held =>
    simp only [onPayloads, toPayloads_emitPendingContentReady]
    exact hfinished
  | localFailure | stalled | lacks | connectFailed | failed => exact hfinished

lemma of_synced (h : P live.toPayloads) {key : Key}
    {went : Prop} (hwent : went → Syncs key action) (hsynced : Synced orders live key went live') :
    P live'.toPayloads := by
  rcases hsynced with heq | ⟨hended, heq⟩
  · rw [heq]
    exact h
  · rw [heq]
    exact hkeeps.synced key (hwent hended)

omit hkeeps in
lemma onActorMessage {message : Message} (hkeeps : Keeps orders live (.message message) P)
    (h : P live.toPayloads) : P (live.onActorMessage orders message).toPayloads := by
  cases message with
  | incomingSyncReport sender ns reporter news =>
    unfold LiveActor.onActorMessage
    dsimp only
    split_ifs
    · exact h
    · exact h
  | neighborUp ns peer current =>
    unfold LiveActor.onActorMessage
    dsimp only
    split_ifs
    · exact h
    · exact h
  | neighborDown ns peer current =>
    unfold LiveActor.onActorMessage
    dsimp only
    split_ifs
    · exact hkeeps.forgetNeighbor h ns peer
    · exact h
  | startSync ns contacts recorded defaultIdentity opens joins =>
    obtain ⟨scans, heq⟩ := @toPayloads_startSync orders live ns contacts recorded
      defaultIdentity opens joins
    change P (live.startSync orders ns contacts recorded defaultIdentity opens joins).toPayloads
    rw [heq]
    exact hkeeps.aside scans _ _ h
  | leaveGossip ns => exact hkeeps.forgetTopicNeighbors h ns
  | dropReplica ns => exact hkeeps.leaves h ns
  | contentScanned ns missing => exact hkeeps.contentScanned _ ns missing rfl
  | resumeFetches provider series =>
    exact hkeeps.applyFetches (hkeeps.aside _ _ (live.resumes.erase (provider, series)) h)
      (unroutes_resume provider series)
  | neighborContentReady ns node hash => exact hkeeps.contentReady ns node hash rfl
  | handleSession | acceptInProcess | stateContacts | orderAfter | syncInProcess => exact h
  | acceptSyncRequest => exact h
  | redial redial =>
    unfold LiveActor.onActorMessage fireRetry
    dsimp only
    split
    · exact h
    · exact h

/-- **What a turn takes keeps the property.** -/
lemma onAction (h : P live.toPayloads) : P (live.onAction orders action).toPayloads := by
  cases action with
  | fetchEnded provider hash outcome =>
    have hlanded : P (live.onPayloads fun payloads =>
        { payloads with downloads := payloads.downloads.erase (provider, hash) }).toPayloads :=
      hkeeps.aside _ (live.downloads.erase (provider, hash)) _ h
    exact hkeeps.onFetchFinished hlanded provider hash outcome
  | message message => exact hkeeps.onActorMessage h
  | replicaEvent event =>
    cases event with
    | localInsert ns => exact h
    | remoteInsert ns hash sender complete =>
      cases complete with
      | true =>
        cases sender with
        | some sender => exact hkeeps.inserted ns hash sender rfl
        | none => exact h
      | false => cases sender <;> exact hkeeps.enqueueOrPark ns hash
  | connectEnded dial result =>
    obtain ⟨-, -, hsynced, -⟩ := @onConnectEnded_cases orders live dial result
    exact hkeeps.of_synced h (fun hok => ⟨rfl, hok⟩) hsynced
  | acceptEnded session script =>
    obtain ⟨-, -, -, -, hsynced⟩ := @onAcceptEnded_eq orders live session script
    exact hkeeps.of_synced h (fun hok => ⟨rfl, hok⟩) hsynced
  | gossipEnded ns => exact hkeeps.forgetTopicNeighbors h ns

end Keeps

/-! ## What is queued is what is wanted -/

/-- While a turn lasts, what is queued is wanted or is still to be parked. -/
abbrev Queues (live : LiveActor) : Prop := live.toPayloads.InTurn

lemma queues_onAction (h : live.Queues) (action : Action) : (live.onAction orders action).Queues :=
  Keeps.onAction (P := Payloads.InTurn)
    { aside := fun _ _ _ h => ⟨h.queued, h.wanted⟩
      applyFetches := fun h => h.applyFetches
      finished := fun provider _ outcome neighbor now h => h.finished provider outcome neighbor now
      leave := fun _ h => h.leave
      contentScanned := fun syncing _ missing _ => h.onContentScanned syncing missing
      contentReady := fun _ node _ _ => h.registerProvider node
      inserted := fun _ _ sender _ => h.onRemoteInsert sender true
      enqueueOrPark := fun _ _ => h.enqueueOrPark
      synced := fun key _ => h.onSynced key.peer } h

lemma toPayloads_parkUnrouted (live : LiveActor) :
    (live.parkUnrouted orders).toPayloads =
      (live.toPayloads.parkUnrouted orders.toOrders fun ns => live.states.isSyncing ns).2 := by
  obtain ⟨states, more, heq, -, -⟩ := @parkUnrouted_eq orders live
  rw [heq]

lemma unrouted_step (turn : Turn) : (live.step turn).unrouted = [] := by
  unfold step
  rw [toPayloads_parkUnrouted]
  exact Payloads.unrouted_parkAll _ _ _

lemma queues_step (h : live.Queues) (turn : Turn) : (live.step turn).Queues := by
  have hbegun : (live.begin turn).Queues := h
  rw [Queues, Payloads.InTurn, unrouted_step]
  unfold step
  rw [toPayloads_parkUnrouted]
  exact (queues_onAction hbegun turn.action).parkUnrouted _

lemma queues_new (me : NodeId) (identity : Identity) (fetchesPerProvider : ℕ) :
    (new me identity fetchesPerProvider).Queues :=
  ⟨by simp [new, Fetches.new], by simp [new]⟩

/-- **After every turn, what is queued is what is wanted.** -/
lemma tracked_after (me : NodeId) (identity : Identity) (fetchesPerProvider : ℕ)
    (turns : List Turn) :
    ((new me identity fetchesPerProvider).after turns).Queues ∧
      ((new me identity fetchesPerProvider).after turns).unrouted = [] := by
  have hnew := queues_new me identity fetchesPerProvider
  have hnone : (new me identity fetchesPerProvider).unrouted = [] := rfl
  unfold after
  generalize new me identity fetchesPerProvider = live at hnew hnone
  induction turns generalizing live with
  | nil => exact ⟨hnew, hnone⟩
  | cons turn turns ih => exact ih _ (queues_step hnew turn) (unrouted_step turn)

/-! ## What is wanted is parked by nobody -/

/-- The payloads a turn registers a provider for, each with the namespace it is registered for. -/
def registers (live : LiveActor) : Action → Finset (NamespaceId × Hash)
  | .message (.contentScanned ns missing) =>
    if (live.contentScans ns).join.isSome then (missing.map fun hash => (ns, hash)).toFinset else ∅
  | .message (.neighborContentReady ns _ hash) => {(ns, hash)}
  | .replicaEvent (.remoteInsert ns hash (some _) true) => {(ns, hash)}
  | .connectEnded dial result =>
    if result = .ok () then live.missingHashes.filter fun missing => missing.1 = dial.key.ns else ∅
  | .acceptEnded session script =>
    if Incoming.result session script = .ok session.key.ns then
      live.missingHashes.filter fun missing => missing.1 = session.key.ns
    else ∅
  | _ => ∅

/-- No provider is registered for a payload while another namespace has it parked. -/
def RegistersAlone (live : LiveActor) (action : Action) : Prop :=
  ∀ served ∈ live.registers action, ∀ missing ∈ live.missingHashes,
    missing.2 = served.2 → missing.1 = served.1

instance (action : Action) : Decidable (live.RegistersAlone action) := by
  unfold RegistersAlone
  infer_instance

lemma RegistersAlone.serving {action : Action} (h : live.RegistersAlone action)
    (hcleared : live.toPayloads.Cleared) (ns : NamespaceId) :
    live.toPayloads.Serving ns { hash | (ns, hash) ∈ live.registers action } :=
  ⟨hcleared, fun hash hmem other hin => h (ns, hash) hmem (other, hash) hin rfl⟩

lemma cleared_onAction (hcleared : live.toPayloads.Cleared) (hqueues : live.Queues)
    (hnone : live.unrouted = []) {action : Action} (halone : live.RegistersAlone action) :
    (live.onAction orders action).toPayloads.Cleared := by
  have hserving := halone.serving hcleared
  refine Keeps.onAction
    { aside := fun _ _ _ h => h
      applyFetches := fun h => h.applyFetches
      finished := fun provider _ outcome neighbor now h => h.finished provider outcome neighbor now
      leave := fun ns h => h.leave ns
      contentScanned := ?_
      contentReady := ?_
      inserted := ?_
      enqueueOrPark := fun ns _ => ((hserving ns).enqueueOrPark hqueues).cleared
      synced := ?_ } hcleared
  · rintro syncing ns missing rfl
    refine ((hserving ns).onContentScanned hqueues syncing missing fun hmet hash hmem => ?_).cleared
    simpa [registers, hmet] using hmem
  · rintro ns node hash rfl
    exact ((hserving ns).registerProvider (by simp [registers]) node).cleared
  · rintro ns hash sender rfl
    exact (((hserving ns).register sender).want_erase (by simp [registers])).cleared
  · intro key hsyncs
    refine Payloads.Serving.onSynced hcleared (hnone ▸ hqueues) (fun hash hmem => ?_) key.peer
    refine (hserving key.ns).sole hash ?_
    cases action with
    | connectEnded dial result =>
      obtain ⟨rfl, hok⟩ := hsyncs
      simpa [registers, hok] using hmem
    | acceptEnded session script =>
      obtain ⟨rfl, hok⟩ := hsyncs
      simpa [registers, hok] using hmem
    | fetchEnded | message | replicaEvent | gossipEnded => exact hsyncs.elim

/-- **While no provider is registered for a payload that another namespace has parked, nobody has
parked what is queued.** -/
lemma cleared_after {me : NodeId} {identity : Identity} {fetchesPerProvider : ℕ}
    {turns : List Turn} (halone : (new me identity fetchesPerProvider).Always
      (fun live turn => live.RegistersAlone turn.action) turns) :
    ((new me identity fetchesPerProvider).after turns).toPayloads.Cleared := by
  have hqueues := queues_new me identity fetchesPerProvider
  have hnone : (new me identity fetchesPerProvider).unrouted = [] := rfl
  have hcleared : (new me identity fetchesPerProvider).toPayloads.Cleared := by
    simp [new, Payloads.Cleared]
  unfold after
  generalize new me identity fetchesPerProvider = live at hqueues hnone hcleared halone
  induction turns generalizing live with
  | nil => exact hcleared
  | cons turn turns ih =>
    refine ih _ (queues_step hqueues turn) (unrouted_step turn) ?_ halone.2
    unfold step
    rw [toPayloads_parkUnrouted]
    exact (@cleared_onAction _ (live.begin turn) hcleared hqueues hnone _ halone.1).parkUnrouted _

/-! ## A payload that comes -/

section Fetched

variable (orders) (now : ℕ) (asked : List Bool) (provider : NodeId) (hash : Hash)

/-- A turn in which a fetch goes through. -/
def fetched : Turn := ⟨orders, now, asked, .fetchEnded provider hash .fetched⟩

/-- The actor when the fetch is taken off. -/
def takenOff (live : LiveActor) : LiveActor :=
  (live.begin (fetched orders now asked provider hash)).onPayloads fun payloads =>
    { payloads with downloads := payloads.downloads.erase (provider, hash) }

lemma events_parkUnrouted (live : LiveActor) :
    ∃ more, (live.parkUnrouted orders).events = live.events ++ more ∧
      ∀ event ∈ more, event.2 = .pendingContentReady := by
  obtain ⟨states, more, heq, -, hmore⟩ := @parkUnrouted_eq orders live
  exact ⟨more, by rw [heq], hmore⟩

/-- What the fetch does to the payloads, and what it emits. -/
lemma onFetchFinished_fetched (live : LiveActor) :
    (live.onFetchFinished orders provider hash .fetched).toPayloads =
        (live.toPayloads.dequeue hash).applyFetches (live.fetches.finished orders.toVisits provider
          hash .fetched (live.isNeighbor provider) live.now) ∧
      ∃ more, (live.onFetchFinished orders provider hash .fetched).events =
          live.events ++ (orders.namespaces.toList (live.queuedHashes.byHash hash)).map
            (fun ns => (ns, LiveEvent.contentReady hash)) ++ more ∧
        ∀ event ∈ more, event.2 = .pendingContentReady := by
  unfold onFetchFinished
  dsimp only [QueuedHashes.takeHash]
  generalize live.queuedHashes.emptied hash orders.namespaces = emptied
  generalize orders.namespaces.toList (live.queuedHashes.byHash hash) = wanting
  obtain ⟨states, more, heq, -, hmore⟩ := emitPendingContentReady_eq
    ((live.onPayloads fun payloads => payloads.dequeue hash).emitAll
      (wanting.map fun ns => (ns, .contentReady hash))) emptied
  rw [heq]
  exact ⟨rfl, more, rfl, hmore⟩

lemma events_fetched :
    ∃ more, (live.step (fetched orders now asked provider hash)).events =
        (orders.namespaces.toList (live.queuedHashes.byHash hash)).map
          (fun ns => (ns, LiveEvent.contentReady hash)) ++ more ∧
      ∀ event ∈ more, event.2 = .pendingContentReady := by
  obtain ⟨-, more, hevents, hmore⟩ := onFetchFinished_fetched orders provider hash
    (takenOff orders now asked provider hash live)
  obtain ⟨more', hparked, hmore'⟩ := events_parkUnrouted orders
    ((takenOff orders now asked provider hash live).onFetchFinished orders provider hash .fetched)
  refine ⟨more ++ more', ?_, ?_⟩
  · rw [hevents] at hparked
    exact hparked.trans (List.append_assoc _ _ _)
  · grind

lemma unrouted_finished_fetched (visits : Visits) (fetches : Fetches) (neighbor : Bool) :
    hash ∉ (fetches.finished visits provider hash .fetched neighbor now).unrouted := by
  obtain ⟨hsettled, hnone⟩ :=
    @wanted_settled visits fetches provider hash .fetched neighbor now (.inl rfl)
  have hrest := (Acts.finished visits fetches provider hash .fetched neighbor now).unroutes hash
  rw [← List.count_eq_zero]
  rw [hsettled, if_pos rfl, hnone] at hrest
  rcases hrest with ⟨-, hcount⟩ | ⟨hsome, -, -⟩
  · simpa using hcount
  · simp at hsome

/-- Nobody has the payload queued any more, and who parked it still does. -/
lemma pending_fetched (hnone : live.unrouted = []) :
    (live.step (fetched orders now asked provider hash)).queuedHashes.byHash hash = ∅ ∧
      ∀ ns, (ns, hash) ∈ (live.step (fetched orders now asked provider hash)).missingHashes ↔
        (ns, hash) ∈ live.missingHashes := by
  obtain ⟨hpayloads, -⟩ := onFetchFinished_fetched orders provider hash
    (takenOff orders now asked provider hash live)
  have hparked := @toPayloads_parkUnrouted orders
    ((takenOff orders now asked provider hash live).onFetchFinished orders provider hash .fetched)
  change (live.step (fetched orders now asked provider hash)).toPayloads = _ at hparked
  have hout : hash ∉ ((takenOff orders now asked provider hash live).onFetchFinished orders provider
      hash .fetched).unrouted := by
    rw [hpayloads]
    intro hmem
    rcases List.mem_append.mp hmem with hmem | hmem
    · change hash ∈ live.unrouted at hmem
      simp [hnone] at hmem
    · exact unrouted_finished_fetched _ _ _ _ _ _ hmem
  obtain ⟨hqueued, hmissing⟩ := @Payloads.parkUnrouted_other orders.toOrders _ (fun ns =>
    ((takenOff orders now asked provider hash live).onFetchFinished orders provider hash
      .fetched).states.isSyncing ns) hash hout
  rw [hparked]
  refine ⟨hqueued.trans ?_, fun ns => (hmissing ns).trans ?_⟩
  · rw [hpayloads]
    exact Function.update_self ..
  · rw [hpayloads]
    rfl

/-- Everyone who waits for the payload is told and nobody waits for it any more, exactly when
nobody has parked it. -/
lemma announced_iff (hnone : live.unrouted = []) :
    ((∀ ns, live.states.isSyncing ns = true →
        ns ∈ live.queuedHashes.byHash hash ∨ (ns, hash) ∈ live.missingHashes →
        (live.step (fetched orders now asked provider hash)).events.count
          (ns, .contentReady hash) = 1) ∧
      ∀ ns, ns ∉ (live.step (fetched orders now asked provider hash)).queuedHashes.byHash hash ∧
        (ns, hash) ∉ (live.step (fetched orders now asked provider hash)).missingHashes) ↔
    ∀ ns, (ns, hash) ∉ live.missingHashes := by
  obtain ⟨more, hevents, hmore⟩ := @events_fetched orders live now asked provider hash
  obtain ⟨hempty, hparked⟩ := pending_fetched orders now asked provider hash hnone
  refine ⟨fun hall ns hmem => (hall.2 ns).2 ((hparked ns).mpr hmem), fun hclear => ⟨?_, ?_⟩⟩
  · intro ns _ hpending
    have hmem : ns ∈ orders.namespaces.toList (live.queuedHashes.byHash hash) :=
      (orders.namespaces.mem_toList _ _).mpr (hpending.resolve_right (hclear ns))
    have hrest : more.count (ns, .contentReady hash) = 0 := by
      rw [List.count_eq_zero]
      intro hin
      simpa using hmore _ hin
    rw [hevents, List.count_append, hrest, Nat.add_zero]
    have htold : Function.Injective fun ns : NamespaceId => (ns, LiveEvent.contentReady hash) :=
      fun a b hab => (Prod.mk.inj hab).1
    refine (List.count_map_of_injective _ _ htold ns).trans ?_
    exact List.count_eq_one_of_mem (orders.namespaces.nodup_toList _) hmem
  · intro ns
    refine ⟨fun hin => ?_, fun hin => hclear ns ((hparked ns).mp hin)⟩
    simp [hempty] at hin

end Fetched

/-- **A payload that lands is announced to everyone who waits for it exactly when nobody parked
it.** In every run, what is queued is what the scheduler wants. When a fetch goes through, every
syncing namespace that waits for the payload is told once and nobody waits for it any more, if no
namespace has it parked, and only then.

**Proof sketch.** The namespaces that have it queued are told, and the queue is emptied; who parked
it is neither told nor taken out. -/
theorem payload_announced (me : NodeId) (identity : Identity) (fetchesPerProvider : ℕ)
    (turns : List Turn) : let live := (new me identity fetchesPerProvider).after turns
    (∀ hash, live.queuedHashes.byHash hash ≠ ∅ ↔ (live.fetches.wanted hash).isSome) ∧
    ∀ orders now asked provider hash,
      let live' := live.step ⟨orders, now, asked, .fetchEnded provider hash .fetched⟩
      ((∀ ns, live.states.isSyncing ns = true →
          ns ∈ live.queuedHashes.byHash hash ∨ (ns, hash) ∈ live.missingHashes →
          live'.events.count (ns, .contentReady hash) = 1) ∧
        ∀ ns, ns ∉ live'.queuedHashes.byHash hash ∧ (ns, hash) ∉ live'.missingHashes) ↔
      ∀ ns, (ns, hash) ∉ live.missingHashes := by
  intro live
  obtain ⟨hqueues, hnone⟩ := tracked_after me identity fetchesPerProvider turns
  refine ⟨fun hash => ⟨fun hqueued => ?_, hqueues.queued hash⟩, ?_⟩
  · have hwanted := hqueues.wanted hash hqueued
    rw [hnone] at hwanted
    simpa using hwanted
  · exact fun orders now asked provider hash => announced_iff orders now asked provider hash hnone

/-- **While no provider is registered for a payload that another namespace has parked, every
payload that is queued when it lands is announced to everyone who waits for it**, each once, and
nobody waits for it any more.

**Proof sketch.** What is queued is wanted, and what is wanted is parked by nobody: a payload comes
to be wanted when a provider of it is registered, and is parked when it is not wanted. -/
theorem landings_announced (me : NodeId) (identity : Identity) (fetchesPerProvider : ℕ)
    (turns : List Turn) (halone : (new me identity fetchesPerProvider).Always
      (fun live turn => live.RegistersAlone turn.action) turns) :
    let live := (new me identity fetchesPerProvider).after turns
    ∀ orders now asked provider hash, live.queuedHashes.byHash hash ≠ ∅ →
      let live' := live.step ⟨orders, now, asked, .fetchEnded provider hash .fetched⟩
      (∀ ns, live.states.isSyncing ns = true →
          ns ∈ live.queuedHashes.byHash hash ∨ (ns, hash) ∈ live.missingHashes →
          live'.events.count (ns, .contentReady hash) = 1) ∧
        ∀ ns, ns ∉ live'.queuedHashes.byHash hash ∧ (ns, hash) ∉ live'.missingHashes := by
  intro live orders now asked provider hash hqueued
  obtain ⟨hqueues, hnone⟩ := tracked_after me identity fetchesPerProvider turns
  have hwanted := hqueues.wanted hash hqueued
  rw [hnone] at hwanted
  refine (announced_iff orders now asked provider hash hnone).mpr ?_
  exact cleared_after halone hash (by simpa using hwanted)

end LiveActor

namespace Testing

/-- An entry of one namespace names a payload its peer does not hold, and an entry of another one
names it with a peer that does. -/
noncomputable def parking : List LiveActor.Turn :=
  [starting notes, starting letters,
    taking (.replicaEvent (.remoteInsert letters photo (some holder) false)),
    taking (.replicaEvent (.remoteInsert notes photo (some holder) true))]

/-- The payload lands, and the namespace that parked it is not told and keeps waiting for it. -/
theorem parked_not_announced : let live := (LiveActor.new here owner 1).after parking
    let live' := live.step (taking (.fetchEnded holder photo .fetched))
    (LiveActor.new here owner 1).Valid (parking ++ [taking (.fetchEnded holder photo .fetched)]) ∧
      live.states.isSyncing letters = true ∧ (letters, photo) ∈ live.missingHashes ∧
      live'.events.count (letters, .contentReady photo) = 0 ∧
        (letters, photo) ∈ live'.missingHashes := by
  decide +kernel

/-- An entry of a namespace names a payload its peer does not hold, a provider of it is met, and
then another namespace comes to wait for it too. -/
noncomputable def sharing : List LiveActor.Turn :=
  [starting notes, starting letters,
    taking (.replicaEvent (.remoteInsert letters photo (some holder) false)),
    taking (.message (.neighborContentReady letters holder photo)),
    taking (.replicaEvent (.remoteInsert notes photo (some holder) true))]

/-- Both are told. -/
theorem landings_announced_sharing : let live := (LiveActor.new here owner 1).after sharing
    let live' := live.step (taking (.fetchEnded holder photo .fetched))
    (LiveActor.new here owner 1).Valid (sharing ++ [taking (.fetchEnded holder photo .fetched)]) ∧
      live'.events.count (letters, .contentReady photo) = 1 ∧
      live'.events.count (notes, .contentReady photo) = 1 := by
  have hlanded := LiveActor.landings_announced here owner 1 sharing (by decide +kernel)
    inOrder 0 [] holder photo (by decide +kernel)
  refine ⟨by decide +kernel, ?_, ?_⟩
  · exact hlanded.1 letters (by decide +kernel) (.inl (by decide +kernel))
  · exact hlanded.1 notes (by decide +kernel) (.inl (by decide +kernel))

end Testing

end MeePdn.PdnStore.Engine
