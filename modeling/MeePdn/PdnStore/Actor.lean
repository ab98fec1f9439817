import MeePdn.PdnStore.Fs.Operations
import MeePdn.PdnStore.Session

/-!
# The actor that owns a store

`pdn-store/src/actor.rs`: one thread owns the store and works through the actions it is sent, one
after the other, and through a timer. It keeps the replicas that are open and the snapshots of
running sync sessions.

## Main definitions

* `Actor`, `ActorM` — the actor, and what an action does to it.
* `Replica.insert`, `Replica.delete`, `Replica.syncProcessMessage` — writes of `sync.rs`.
* `Action`, `ReplicaAction`, `Actor.onAction` — the actions and what becomes of them.
* `Turn`, `Actor.turn` — one turn of the actor's loop.

## Implementation notes

Subscribers, the events they are sent and metrics are left out. `ReplicaInfo::closed` is never set.
A handle that is gone, which the weak reference of a snapshot shows, is part of a turn. An actor
that has shut down answers nothing.
-/

namespace MeePdn.PdnStore

open Effects Fs

/-! ## Writes to a replica -/

namespace Replica

variable (prims : Primitives) (blake3 : List UInt8 → Bytes 32) (capability : Capability)

/-- `insert_entry` of a local entry. -/
def insertEntry (e : SignedEntry) : StoreM prims ℕ := do
  let s ← get
  match validateEntry prims blake3 (s.env.micros 1) (capability.id prims) e .here none with
  | .error _ => throw "validation failure"
  | .ok () =>
    let outcome ← tryCatch (Fs.StoreInstance.put (capability.id prims) e) fun _ =>
      throw "storage error"
    match outcome with
    | .notInserted => throw "A newer entry exists at this entry's key."
    | .inserted removed => return removed

/-- A record of the present time, signed. -/
def signCurrent (author : Author) (key : List UInt8) (hash : Hash) (len : UInt64)
    (micros : UInt64) : SignedEntry :=
  Entry.sign prims ⟨⟨capability.id prims, author.id prims, key⟩, ⟨len, hash, micros⟩⟩
    capability.secretKey author

/-- `insert`: a new record at a key. -/
def insert (author : Author) (key : List UInt8) (hash : Hash) (len : UInt64) : StoreM prims ℕ := do
  if len = 0 ∨ hash = Hash.empty blake3 then throw "Attempted to insert an empty entry"
  else
    let s ← get
    insertEntry prims blake3 capability
      (signCurrent prims capability author key hash len (s.env.micros 0))

/-- `delete`: an empty entry at a key. -/
def delete (author : Author) (key : List UInt8) : StoreM prims ℕ := do
  let s ← get
  insertEntry prims blake3 capability
    (signCurrent prims capability author key (Hash.empty blake3) 0 (s.env.micros 0))

end Replica

namespace Session

variable (prims : Primitives) (blake3 : List UInt8 → Bytes 32) (session : Session)

/-- What a session reads, whatever the live store holds. -/
def reads : Ranger.Reads SignedEntry RecordIdentifier :=
  (session.store blake3).reads session.snapshot

/-- The incoming values, each stored or dropped as validation decides. -/
def storeValues (now : UInt64) : List (SignedEntry × ContentStatus) → StoreM prims Unit
  | [] => return ()
  | (e, status) :: rest =>
    match session.validate prims blake3 now e status with
    | .drop => storeValues now rest
    | .accept => do
      let _ ← Fs.StoreInstance.put session.ns e
      storeValues now rest

/-- The items of a message, one after the other. -/
def processItems (now : UInt64) (status : SignedEntry → ContentStatus) :
    List (Ranger.RangeItem SignedEntry RecordIdentifier) →
      StoreM prims (List (Ranger.MessagePart SignedEntry RecordIdentifier))
  | [] => return []
  | item :: rest => do
    let parts ← MonadExcept.ofExcept
      ((session.reads blake3).replyItem (SignedEntry.rangeEntry blake3) status item)
    session.storeValues prims blake3 now item.values
    let more ← processItems now status rest
    return parts ++ more

/-- `sync_process_message` on the store: what is read comes from the session's snapshot, what is
written goes to the live store. -/
def processMessage (status : SignedEntry → ContentStatus) (incoming : ProtocolMessage) :
    StoreM prims (Option ProtocolMessage) := do
  let now := (← get).env.micros 0
  let parts ← session.processItems prims blake3 now status incoming.items
  let fingerprints ← MonadExcept.ofExcept (incoming.fingerprints.mapM
    ((session.reads blake3).replyFingerprint blake3
      (SignedEntry.rangeEntry blake3) .default status))
  return Ranger.Reads.message (parts ++ fingerprints.flatten)

end Session

/-! ## The actor -/

/-- `OpenReplica`. -/
structure OpenReplica where
  capability : Capability
  sync : Bool
  handles : ℕ

/-- The namespace an open replica is of. -/
def OpenReplica.id (prims : Primitives) (state : OpenReplica) : NamespaceId :=
  state.capability.id prims

/-- `SyncSessionId`: the actor that issued it and a position in its counting. -/
structure SyncSessionId where
  actor : ℕ
  seq : ℕ
deriving DecidableEq

/-- `SessionSnapshot`. -/
structure SessionSnapshot (prims : Primitives) where
  ns : NamespaceId
  tables : Tables prims

/-- `OpenedSession`. -/
structure OpenedSession where
  id : SyncSessionId
  /-- Every replica the request named still had the write count it named. -/
  unwritten : Bool
  writes : ℕ
deriving DecidableEq

/-- `Actor`. -/
structure Actor (prims : Primitives) where
  actorId : ℕ
  store : Store prims
  /-- The replicas that are open. -/
  states : Keyed.Table (OpenReplica.id prims)
  /-- The snapshots of running sync sessions. -/
  sessions : List (SyncSessionId × SessionSnapshot prims)
  nextSessionId : ℕ
  lastSessionSweep : ℕ
  /-- A commit the timer ran and saw fail, held for the next write or flush to answer with. -/
  failedCommit : Option String
  /-- The loop has been left. -/
  stopped : Bool

/-- What an action does to the actor. -/
abbrev ActorM (prims : Primitives) := EStateM String (Actor prims)

namespace Actor

variable {prims : Primitives}

/-- `Actor::new`. -/
def new (actorId : ℕ) (store : Store prims) (lastSessionSweep : ℕ) : Actor prims :=
  ⟨actorId, store, .empty, [], 0, lastSessionSweep, none, false⟩

/-- A method of the store the actor owns. -/
def onStore {α : Type} (m : StoreM prims α) : ActorM prims α := fun actor =>
  match m actor.store with
  | .ok a store => .ok a { actor with store := store }
  | .error err store => .error err { actor with store := store }

/-- `reclaim_abandoned_sessions`: drops the snapshots of sessions whose handle is gone, no more
often than every `maxCommitDelay`. -/
def reclaimAbandonedSessions (gone : SyncSessionId → Bool) : ActorM prims Unit := do
  let actor ← get
  if actor.sessions.isEmpty then return ()
  else
    let elapsed ← onStore (Store.elapsed actor.lastSessionSweep)
    if elapsed < maxCommitDelay then return ()
    else
      let instant ← onStore Store.now
      set { (← get) with
        lastSessionSweep := instant
        sessions := actor.sessions.filter fun session => !gone session.1 }

/-- `commit_on_timer`: the store's own commit, a failure kept for the next write or flush. -/
def commitOnTimer (gone : SyncSessionId → Bool) : ActorM prims Unit := do
  reclaimAbandonedSessions gone
  tryCatch (onStore Store.flush) fun cause => do
    set { (← get) with
      failedCommit :=
        some ("a commit of this store failed, and the writes it held are lost: " ++ cause) }

/-- `OpenReplicas::get_mut`. -/
def getState (ns : NamespaceId) : ActorM prims OpenReplica := do
  match (← get).states.get ns with
  | none => throw "replica not open"
  | some state => return state

/-- `ensure_syncing`, with the replica it finds. -/
def ensureSyncing (ns : NamespaceId) : ActorM prims OpenReplica := do
  let state ← getState ns
  if state.sync then return state else throw "sync is not enabled for replica"

/-- `get_author`. -/
def getAuthor (author : AuthorId) : ActorM prims Author := do
  match ← onStore (Store.getAuthor author) with
  | none => throw "author not found"
  | some author => return author

/-- `failed_commit.take`, and its error if there is one. -/
def answerFailedCommit : ActorM prims Unit := do
  let actor ← get
  set { actor with failedCommit := none }
  match actor.failedCommit with
  | some failed => throw failed
  | none => return ()

/-! ## Actions -/

/-- A local write: a commit the timer saw fail is answered first. -/
def writeLocal (ns : NamespaceId) (author : AuthorId)
    (write : Capability → Author → StoreM prims ℕ) : ActorM prims ℕ := do
  answerFailedCommit
  let author ← getAuthor author
  let state ← getState ns
  onStore (write state.capability author)

/-- `ReplicaAction::InsertLocal`. -/
def insertLocal (blake3 : List UInt8 → Bytes 32) (ns : NamespaceId) (author : AuthorId)
    (key : List UInt8) (hash : Hash) (len : UInt64) : ActorM prims Unit := do
  let _ ← writeLocal ns author fun capability author =>
    Replica.insert prims blake3 capability author key hash len

/-- `ReplicaAction::Delete`. -/
def delete (blake3 : List UInt8 → Bytes 32) (ns : NamespaceId) (author : AuthorId)
    (key : List UInt8) : ActorM prims ℕ :=
  writeLocal ns author fun capability author => Replica.delete prims blake3 capability author key

/-- `Action::FlushStore`. -/
def flushStore : ActorM prims Unit := do
  answerFailedCommit
  onStore Store.flush

/-- `open`. -/
def openReplica (ns : NamespaceId) (sync : Bool) : ActorM prims Unit := do
  match (← get).states.get ns with
  | some state =>
    let actor ← get
    set { actor with
      states := actor.states.insert
        { state with handles := state.handles + 1, sync := state.sync || sync } }
  | none =>
    let capability ← onStore (Store.loadReplicaInfo ns)
    let actor ← get
    set { actor with states := actor.states.insert ⟨capability, sync, 1⟩ }

/-- What closing the last handle of a replica leaves: no sessions of it, and the store no longer
holds it open. -/
def forgetReplica (ns : NamespaceId) : ActorM prims Unit := do
  let actor ← get
  set { actor with sessions := actor.sessions.filter fun session => session.2.ns ≠ ns }
  onStore (Store.closeReplica ns)

/-- `close`: whether the replica is closed now. -/
def close (ns : NamespaceId) : ActorM prims Bool := do
  let actor ← get
  match actor.states.get ns with
  | none =>
    forgetReplica ns
    return true
  | some state =>
    if state.handles = 1 then
      set { actor with states := actor.states.filter fun state => state.id prims ≠ ns }
      forgetReplica ns
      return true
    else
      set { actor with states := actor.states.insert { state with handles := state.handles - 1 } }
      return false

/-- `close_every_handle`. -/
def closeEveryHandle (ns : NamespaceId) : ActorM prims Unit := do
  let actor ← get
  if (actor.states.get ns).isSome then
    set { actor with states := actor.states.filter fun state => state.id prims ≠ ns }
    forgetReplica ns

/-- `close_replica` of every open replica. -/
def closeReplicas : List NamespaceId → ActorM prims Unit
  | [] => return ()
  | ns :: rest => do
    onStore (Store.closeReplica ns)
    closeReplicas rest

/-- `close_all`. -/
def closeAll : ActorM prims Unit := do
  let actor ← get
  set { actor with states := .empty, sessions := [] }
  closeReplicas (actor.states.rows.map (OpenReplica.id prims))

/-- `Action::Shutdown`, as `run_async` handles it. -/
def shutdown : ActorM prims Unit := do
  tryCatch (onStore Store.flush) fun _ => return ()
  closeAll
  set { (← get) with stopped := true }

/-- `ReplicaAction::SyncSessionStart`. Committing the pending write batch is part of the contract.
-/
def syncSessionStart (ns : NamespaceId) (read : List (NamespaceId × ℕ)) :
    ActorM prims OpenedSession := do
  let _ ← ensureSyncing ns
  let tables ← onStore Store.snapshotOwned
  let actor ← get
  let id : SyncSessionId := ⟨actor.actorId, actor.nextSessionId⟩
  set { actor with
    nextSessionId := actor.nextSessionId + 1
    sessions := (id, ⟨ns, tables⟩) :: actor.sessions }
  let unwritten := read.all fun (ns, writes) => actor.store.writes ns = writes
  let writes ← onStore (Store.writesOf ns)
  return ⟨id, unwritten, writes⟩

/-- `session_snapshot`: a session id names a registered session of its namespace and its actor. -/
def sessionSnapshot (session : SyncSessionId) (ns : NamespaceId) : ActorM prims (Tables prims) := do
  let actor ← get
  if session.actor ≠ actor.actorId then throw "sync session was issued by another actor"
  else
    match actor.sessions.lookup session with
    | none => throw "sync session not registered"
    | some snapshot =>
      if snapshot.ns ≠ ns then throw "sync session belongs to another namespace"
      else return snapshot.tables

/-- `session_replica`: what one side of a session is set up with. -/
def sessionReplica (ns : NamespaceId) (session : SyncSessionId) (filter : Option EntryFilter)
    (ingest : Option SessionIngest) (peer : PeerIdBytes) : ActorM prims Session := do
  let snapshot ← sessionSnapshot session ns
  let state ← ensureSyncing ns
  return ⟨state.id prims, snapshot.records, filter, ingest, peer⟩

/-- `ReplicaAction::SyncInitialMessage`. -/
def syncInitialMessage (blake3 : List UInt8 → Bytes 32) (ns : NamespaceId) (session : SyncSessionId)
    (filter : Option EntryFilter) : ActorM prims ProtocolMessage := do
  let session ← sessionReplica ns session filter none (.replicate 32 0)
  MonadExcept.ofExcept (session.initialMessage blake3 session.snapshot)

/-- `ReplicaAction::SyncProcessMessage`. -/
def syncProcessMessage (blake3 : List UInt8 → Bytes 32) (ns : NamespaceId) (session : SyncSessionId)
    (filter : Option EntryFilter) (ingest : Option SessionIngest) (peer : PeerIdBytes)
    (status : SignedEntry → ContentStatus) (message : ProtocolMessage) :
    ActorM prims (Option ProtocolMessage) := do
  let session ← sessionReplica ns session filter ingest peer
  onStore (session.processMessage prims blake3 status message)

/-- `ReplicaAction::SetSync`. -/
def setSync (ns : NamespaceId) (sync : Bool) : ActorM prims Unit := do
  let state ← getState ns
  let actor ← get
  set { actor with states := actor.states.insert { state with sync := sync } }

/-- `ReplicaAction::DropReplica`: every handle at once, so that an open another caller holds does
not fail the removal. -/
def dropReplica (ns : NamespaceId) : ActorM prims Unit := do
  closeEveryHandle ns
  onStore (Store.removeReplica ns)

end Actor

/-- `ReplicaAction`. -/
inductive ReplicaAction where
  | open (sync : Bool)
  | close
  | setSync (sync : Bool)
  | subscribe
  | unsubscribe
  | insertLocal (author : AuthorId) (key : List UInt8) (hash : Hash) (len : UInt64)
  | delete (author : AuthorId) (key : List UInt8)
  | syncSessionStart (read : List (NamespaceId × ℕ))
  | syncInitialMessage (session : SyncSessionId) (filter : Option EntryFilter)
  | syncProcessMessage (message : ProtocolMessage) (peer : PeerIdBytes) (session : SyncSessionId)
      (filter : Option EntryFilter) (ingest : Option SessionIngest)
  | getSyncPeers
  | registerUsefulPeer (peer : PeerIdBytes)
  | getMany (query : Fs.Query)
  | dropReplica
  | exportSecretKey
  | hasNewsForUs (heads : AuthorHeads)
  | writes

/-- `Action`. -/
inductive Action where
  | importAuthor (author : Author)
  | exportAuthor (author : AuthorId)
  | importNamespace (capability : Capability)
  | listReplicas
  | contentHashes
  | flushStore
  | replica (ns : NamespaceId) (action : ReplicaAction)
  | syncSessionEnd (session : SyncSessionId)
  | shutdown

/-- What an action is answered. -/
inductive Answer where
  | done
  | author (id : AuthorId)
  | exported (author : Option Author)
  | ns (id : NamespaceId)
  | replicas (list : List (NamespaceId × CapabilityKind))
  | hashes (list : List Hash)
  | closed (closed : Bool)
  | deleted (removed : ℕ)
  | opened (session : OpenedSession)
  | message (message : ProtocolMessage)
  | processed (reply : Option ProtocolMessage)
  | peers (peers : Option (List PeerIdBytes))
  | entries (iter : Fs.QueryIterator)
  | secret (secret : NamespaceSecret)
  | news (updates : Option ℕ)
  | writes (count : ℕ)

namespace Actor

variable {prims : Primitives} (blake3 : List UInt8 → Bytes 32)
  (status : SignedEntry → ContentStatus)

/-- `on_replica_action`. -/
def onReplicaAction (ns : NamespaceId) : ReplicaAction → ActorM prims Answer
  | .open sync => do
    openReplica ns sync
    return .done
  | .close => return .closed (← close ns)
  | .setSync sync => do
    setSync ns sync
    return .done
  | .subscribe | .unsubscribe => do
    let _ ← getState ns
    return .done
  | .insertLocal author key hash len => do
    insertLocal blake3 ns author key hash len
    return .done
  | .delete author key => return .deleted (← delete blake3 ns author key)
  | .syncSessionStart read => return .opened (← syncSessionStart ns read)
  | .syncInitialMessage session filter =>
    return .message (← syncInitialMessage blake3 ns session filter)
  | .syncProcessMessage message peer session filter ingest =>
    return .processed (← syncProcessMessage blake3 ns session filter ingest peer status message)
  | .getSyncPeers => do
    let _ ← getState ns
    return .peers (← onStore (Store.getSyncPeers ns))
  | .registerUsefulPeer peer => do
    onStore (Store.registerUsefulPeer ns peer)
    return .done
  | .getMany query => do
    let _ ← getState ns
    return .entries (← onStore (Store.getMany ns query))
  | .dropReplica => do
    dropReplica ns
    return .done
  | .exportSecretKey => return .secret (← getState ns).capability.secretKey
  | .hasNewsForUs heads => return .news (← onStore (Store.hasNewsForUs ns heads))
  | .writes => return .writes (← onStore (Store.writesOf ns))

/-- `on_action`. -/
def onAction : Action → ActorM prims Answer
  | .importAuthor author => do
    onStore (Store.importAuthor author)
    return .author (author.id prims)
  | .exportAuthor author => return .exported (← onStore (Store.getAuthor author))
  | .importNamespace capability => do
    let _ ← onStore (Store.importNamespace capability)
    return .ns (capability.id prims)
  | .listReplicas => return .replicas (← onStore Store.listNamespaces)
  | .contentHashes => return .hashes (← onStore Store.contentHashes)
  | .flushStore => do
    flushStore
    return .done
  | .syncSessionEnd session => do
    let actor ← get
    set { actor with sessions := actor.sessions.filter fun entry => entry.1 ≠ session }
    return .done
  | .replica ns action => onReplicaAction blake3 status ns action
  | .shutdown => do
    shutdown
    return .done

end Actor

/-! ## The loop -/

/-- One turn of the actor's loop: the timer, or an action, and what is met in it. -/
structure Turn where
  /-- The action, or `none` for the timer. -/
  action : Option Action
  env : Environment
  /-- Whose handles are gone. -/
  gone : SyncSessionId → Bool
  /-- The content status of entries sent. -/
  status : SignedEntry → ContentStatus

namespace Actor

variable {prims : Primitives} (blake3 : List UInt8 → Bytes 32)

/-- What is done in a turn. -/
def work (turn : Turn) : ActorM prims Answer := do
  match turn.action with
  | none =>
    commitOnTimer turn.gone
    return .done
  | some action =>
    reclaimAbandonedSessions turn.gone
    onAction blake3 turn.status action

/-- The actor in a turn's environment. -/
def under (actor : Actor prims) (env : Environment) : Actor prims :=
  { actor with store := actor.store.under env }

/-- `run_async`, one turn of it: what the turn is answered and the actor after it. -/
def turn (actor : Actor prims) (turn : Turn) : Except String Answer × Actor prims :=
  if actor.stopped then (.error "sending to pdn-store actor failed", actor)
  else
    match work blake3 turn (actor.under turn.env) with
    | .ok answer actor => (.ok answer, actor)
    | .error err actor => (.error err, actor)

end Actor

end MeePdn.PdnStore
