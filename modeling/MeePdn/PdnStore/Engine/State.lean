import Mathlib.Data.Prod.Lex
import MeePdn.PdnStore.Filter

/-!
# Who is exchanging with whom

`pdn-store/src/engine/state.rs`: of every namespace that syncs and every counterpart, whether an
exchange with it is running.

## Main definitions

* `PeerState` — one counterpart's slot, with `PeerState.startConnect`, `PeerState.acceptRequest`,
  `PeerState.abortConnect` and `PeerState.finish`.
* `NamespaceStates` — the slots of all counterparts of all namespaces that sync.
* `expectedSyncDirection` — which of two mutual dials survives.

## Main results

* `expectedSyncDirection_swap` — the two sides of a mutual dial decide it alike.
* `PeerState.state_finish_iff`, `PeerState.state_abortConnect_iff` — what an end leaves running.
* `NamespaceStates.entry_act` — a call of one slot leaves the others.

## Implementation notes

A slot that is taken names the exchange that took it, which the source does not: what is proved of
it is that no function looks at it. A map of slots is a function, and a counterpart without an entry
has the default one, as `entry(..).or_default()` gives it. The filters an outcome carries are those
of the session, which the access provider decides, and are left out.
-/

namespace MeePdn.PdnStore.Engine

/-! ## Ids and their order -/

/-- A counterpart: a node and the identity across the session. -/
abbrev Counterpart := NodeId × Identity

/-- The numbers the bytes of a node id and of an identity spell, in the order they are compared. -/
def ordinals (counterpart : Counterpart) : List ℕ ×ₗ List ℕ :=
  toLex (counterpart.1.bytes.toList.map UInt8.toNat, counterpart.2.bytes.toList.map UInt8.toNat)

lemma ordinals_injective : Function.Injective ordinals := by
  have hbytes : ∀ a b : Bytes 32, a.toList.map UInt8.toNat = b.toList.map UInt8.toNat → a = b :=
    fun a b h => Bytes.ext (List.map_injective_iff.mpr (fun _ _ h => UInt8.toNat_inj.mp h) h)
  rintro ⟨⟨a⟩, ⟨b⟩⟩ ⟨⟨c⟩, ⟨d⟩⟩ h
  obtain ⟨hac, hbd⟩ := Prod.mk.inj (toLex.injective h)
  rw [hbytes a c hac, hbytes b d hbd]

/-- `SyncDirection`. -/
inductive SyncDirection where
  | accept
  | connect
deriving DecidableEq

/-- `expected_sync_direction`: which of two mutual dials survives. Node ids settle it between two
nodes, and identities between two identities of one node. -/
def expectedSyncDirection (here there : Counterpart) : SyncDirection :=
  if ordinals there < ordinals here then .accept else .connect

/-- **The two sides of a mutual dial decide it alike**: one accepts and the other connects. -/
lemma expectedSyncDirection_swap {here there : Counterpart} (hne : here ≠ there) :
    expectedSyncDirection here there = .accept ↔ expectedSyncDirection there here = .connect := by
  grind [expectedSyncDirection, ordinals_injective]

/-! ## One counterpart -/

/-- `SyncReason`: why a sync request was started. -/
inductive SyncReason where
  | directJoin
  | newNeighbor
  | syncReport
  | resync
  | announced
deriving DecidableEq

/-- The reasons of a dial that news or the consumer asked for: one that finds an exchange running is
run again after it. -/
def SyncReason.queues : SyncReason → Bool
  | .directJoin | .syncReport | .announced | .newNeighbor => true
  | .resync => false

/-- `Origin`: who began an exchange. -/
inductive Origin where
  | connect (reason : SyncReason)
  | accept
deriving DecidableEq

/-- Whether an exchange was accepted. -/
def Origin.isAccept : Origin → Bool
  | .accept => true
  | .connect _ => false

@[simp] lemma Origin.isAccept_connect (reason : SyncReason) :
    (Origin.connect reason).isAccept = false := rfl

@[simp] lemma Origin.isAccept_accept : Origin.accept.isAccept = true := rfl

/-- `AbortReason`. -/
inductive AbortReason where
  | notFound
  | alreadySyncing
  | internalServerError
deriving DecidableEq

/-- `AcceptOutcome`, without the filters. -/
inductive AcceptOutcome where
  | allow
  | reject (reason : AbortReason)
deriving DecidableEq

/-- `SyncState`. -/
inductive SyncState where
  | idle
  /-- `exchange` is the exchange that took the slot. -/
  | running (start : ℕ) (origin : Origin) (exchange : ℕ)
deriving DecidableEq

/-- `PeerState`. -/
structure PeerState where
  state : SyncState := .idle
  resyncRequested : Bool := false
deriving DecidableEq

namespace PeerState

variable (peer : PeerState)

/-- Whether an exchange is running. -/
def isRunning : Bool :=
  match peer.state with
  | .running _ _ _ => true
  | .idle => false

/-- `set_sync_running`. -/
def setSyncRunning (start : ℕ) (origin : Origin) (exchange : ℕ) : PeerState :=
  ⟨.running start origin exchange, false⟩

/-- `finish`: when the exchange that ended is the one running, as far as its direction tells, the
slot becomes idle; the answer is when it started and whether another one should follow. -/
def finish (origin : Origin) : Option (ℕ × Bool) × PeerState :=
  match peer.state with
  | .running start running _ =>
    if running.isAccept ≠ origin.isAccept then (none, peer)
    else (some (start, peer.resyncRequested), { peer with state := .idle })
  | .idle => (none, peer)

/-- `start_connect`: whether a dial takes the slot. -/
def startConnect (reason : SyncReason) (now exchange : ℕ) : Bool × PeerState :=
  match peer.state with
  | .running _ _ _ =>
    (false, if reason.queues then { peer with resyncRequested := true } else peer)
  | .idle => (true, setSyncRunning now (.connect reason) exchange)

/-- `abort_connect`: whether a running dial of this reason was cleared. -/
def abortConnect (reason : SyncReason) : Bool × PeerState :=
  match peer.state with
  | .running _ (.connect running) _ =>
    if running = reason then (true, { peer with state := .idle }) else (false, peer)
  | _ => (false, peer)

/-- The decision of `accept_request`. -/
def acceptOutcome (here there : Counterpart) (refusedOurs : Bool) : AcceptOutcome :=
  match peer.state with
  | .idle => .allow
  | .running _ .accept _ => .reject .alreadySyncing
  | .running _ (.connect _) _ =>
    if refusedOurs then .allow
    else
      match expectedSyncDirection here there with
      | .accept => .allow
      | .connect => .reject .alreadySyncing

/-- `accept_request`: a session that is allowed takes the slot, and keeps the resync queued on the
dial it supersedes. -/
def acceptRequest (here there : Counterpart) (refusedOurs : Bool) (now exchange : ℕ) :
    AcceptOutcome × PeerState :=
  match peer.acceptOutcome here there refusedOurs with
  | .allow =>
    (.allow, { setSyncRunning now .accept exchange with
      resyncRequested := peer.isRunning && peer.resyncRequested })
  | .reject reason => (.reject reason, peer)

variable {peer}

/-- **What an end leaves running** is what was running in the other direction. -/
lemma state_finish_iff {origin running : Origin} {start exchange : ℕ} :
    (peer.finish origin).2.state = .running start running exchange ↔
      peer.state = .running start running exchange ∧ running.isAccept ≠ origin.isAccept := by
  unfold finish
  cases hstate : peer.state with
  | idle => simp [hstate]
  | running start' running' exchange' => grind

lemma resync_of_finish {origin : Origin} {answer : ℕ × Bool}
    (h : (peer.finish origin).1 = some answer) : answer.2 = peer.resyncRequested := by
  grind [finish]

/-- **What an abort leaves running** is anything but a dial of its reason. -/
lemma state_abortConnect_iff {reason : SyncReason} {running : Origin} {start exchange : ℕ} :
    (peer.abortConnect reason).2.state = .running start running exchange ↔
      peer.state = .running start running exchange ∧ running ≠ .connect reason := by
  unfold abortConnect
  cases hstate : peer.state with
  | idle => simp [hstate]
  | running start' running' exchange' => grind

end PeerState

/-! ## All counterparts -/

/-- `NamespaceState`. -/
structure NamespaceState where
  nodes : Counterpart → PeerState := fun _ => {}
  mayEmitReady : Bool := false

/-- `NamespaceStates`. -/
abbrev NamespaceStates := NamespaceId → Option NamespaceState

namespace NamespaceStates

variable (states : NamespaceStates)

/-- `is_syncing`. -/
def isSyncing (ns : NamespaceId) : Bool := (states ns).isSome

/-- `entry`, which is none when the namespace does not sync. -/
def entry (ns : NamespaceId) (counterpart : Counterpart) : Option PeerState :=
  (states ns).map fun state => state.nodes counterpart

/-- Another slot for a counterpart of a namespace that syncs. -/
def setEntry (ns : NamespaceId) (counterpart : Counterpart) (peer : PeerState) : NamespaceStates :=
  Function.update states ns ((states ns).map fun state =>
    { state with nodes := Function.update state.nodes counterpart peer })

/-- `is_running`. -/
def isRunning (ns : NamespaceId) (counterpart : Counterpart) : Bool :=
  (states.entry ns counterpart).any PeerState.isRunning

/-- `insert`. -/
def insert (ns : NamespaceId) : NamespaceStates :=
  Function.update states ns (some ((states ns).getD {}))

/-- A call of a counterpart's slot, and what it answers when the namespace does not sync. -/
def act {α : Type} (ns : NamespaceId) (counterpart : Counterpart) (absent : α)
    (call : PeerState → α × PeerState) : α × NamespaceStates :=
  match states.entry ns counterpart with
  | none => (absent, states)
  | some peer => ((call peer).1, states.setEntry ns counterpart (call peer).2)

/-- `start_connect`. -/
def startConnect (ns : NamespaceId) (counterpart : Counterpart) (reason : SyncReason)
    (now exchange : ℕ) : Bool × NamespaceStates :=
  states.act ns counterpart false fun peer => peer.startConnect reason now exchange

/-- `abort_connect`. -/
def abortConnect (ns : NamespaceId) (counterpart : Counterpart) (reason : SyncReason) :
    Bool × NamespaceStates :=
  states.act ns counterpart false fun peer => peer.abortConnect reason

/-- `accept_request`. -/
def acceptRequest (me : NodeId) (ownIdentity : Identity) (ns : NamespaceId)
    (counterpart : Counterpart) (refusedOurs : Bool) (now exchange : ℕ) :
    AcceptOutcome × NamespaceStates :=
  states.act ns counterpart (.reject .notFound) fun peer =>
    peer.acceptRequest (me, ownIdentity) counterpart refusedOurs now exchange

/-- `finish`. -/
def finish (ns : NamespaceId) (counterpart : Counterpart) (origin : Origin) :
    Option (ℕ × Bool) × NamespaceStates :=
  states.act ns counterpart none fun peer => peer.finish origin

/-- `set_may_emit_ready`. -/
def setMayEmitReady (ns : NamespaceId) (value : Bool) : NamespaceStates :=
  Function.update states ns ((states ns).map fun state => { state with mayEmitReady := value })

/-- `may_emit_ready`: whether the event is due, which is then not due any more. -/
def mayEmitReady (ns : NamespaceId) : Option Bool × NamespaceStates :=
  ((states ns).map NamespaceState.mayEmitReady, states.setMayEmitReady ns false)

/-- `remove`. -/
def remove (ns : NamespaceId) : Bool × NamespaceStates :=
  (states.isSyncing ns, Function.update states ns none)

variable {states}

lemma entry_setEntry (ns ns' : NamespaceId) (counterpart counterpart' : Counterpart)
    (peer : PeerState) :
    (states.setEntry ns counterpart peer).entry ns' counterpart' =
      if ns' = ns ∧ counterpart' = counterpart then (states.entry ns counterpart).map fun _ => peer
      else states.entry ns' counterpart' := by
  unfold setEntry entry
  by_cases hns : ns' = ns
  · subst hns
    cases hstate : states ns' with
    | none => simp
    | some state => grind
  · simp [hns]

/-- **The slots after a call of one of them.** -/
lemma entry_act {α : Type} (ns ns' : NamespaceId) (counterpart counterpart' : Counterpart)
    (absent : α) (call : PeerState → α × PeerState) :
    (states.act ns counterpart absent call).2.entry ns' counterpart' =
      if ns' = ns ∧ counterpart' = counterpart then
        (states.entry ns counterpart).map fun peer => (call peer).2
      else states.entry ns' counterpart' := by grind [entry_setEntry, act]

lemma fst_act {α : Type} (ns : NamespaceId) (counterpart : Counterpart) (absent : α)
    (call : PeerState → α × PeerState) :
    (states.act ns counterpart absent call).1 =
      ((states.entry ns counterpart).map fun peer => (call peer).1).getD absent := by
  unfold act
  cases states.entry ns counterpart <;> rfl

lemma isSyncing_act {α : Type} (ns ns' : NamespaceId) (counterpart : Counterpart) (absent : α)
    (call : PeerState → α × PeerState) :
    (states.act ns counterpart absent call).2.isSyncing ns' = states.isSyncing ns' := by
  unfold act isSyncing setEntry
  cases states.entry ns counterpart with
  | none => rfl
  | some peer =>
    by_cases hns : ns' = ns
    · simp [hns]
    · simp [hns]

end NamespaceStates

end MeePdn.PdnStore.Engine
