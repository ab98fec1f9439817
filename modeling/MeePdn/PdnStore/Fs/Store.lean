import MeePdn.Effects
import MeePdn.PdnStore.Fs.Iterator
import MeePdn.PdnStore.Heads

/-!
# The store and its transactions

`Store` of `pdn-store/src/store/fs.rs`. Writes are batched in one open transaction that any method
may come to commit: a reader that needs a snapshot, a method that finds the transaction too old, a
flush. A commit that fails loses the writes its transaction held.

## Main definitions

* `Environment` — what a store meets: the clocks, and which calls of `redb` fail.
* `Store`, `StoreM` — the store, and what a method does to it.
* `Store.finishWrite`, `Store.flush`, `Store.snapshotOwned`, `Store.tables`, `Store.modify` — the
  methods that end and begin transactions.
* `StoreInstance.put` — an entry put into a replica.

## Implementation notes

An error is its text. `redb` may refuse to begin a transaction and may fail to commit one; reads and
writes within a transaction do not fail. The environment and the numbers of calls made under it
stand in the state, so that a run may meet another one at every step. Instants are milliseconds.
-/

namespace MeePdn.PdnStore.Fs

/-- `MAX_COMMIT_DELAY`, in milliseconds. -/
def maxCommitDelay : ℕ := 500

/-- What a store meets while it works. Calls are numbered from 0. -/
structure Environment where
  /-- Whether a commit fails. -/
  commitFails : ℕ → Bool
  /-- Whether a transaction fails to begin. -/
  beginFails : ℕ → Bool
  /-- What `Instant::now` answers. -/
  instant : ℕ → ℕ
  /-- What `system_time_now` answers. -/
  micros : ℕ → UInt64
  /-- The nanoseconds since the Unix epoch. -/
  nanos : UInt64

/-! ## Transactions -/

/-- `TransactionAndTables`: a write transaction, with the writes made through it. -/
structure TransactionAndTables where
  since : ℕ
  dirty : Bool
  writes : List Mutation
  /-- Mutable access is the only way to write. -/
  clean : dirty = false → writes = []

/-- `CurrentTransaction`. -/
inductive CurrentTransaction (prims : Primitives) where
  | none
  | read (tables : Tables prims)
  | write (w : TransactionAndTables)

/-- The writes of the transaction held. -/
def CurrentTransaction.writes {prims : Primitives} : CurrentTransaction prims → List Mutation
  | .write w => w.writes
  | _ => []

/-- `TransactionAndTables::new`. -/
def TransactionAndTables.new (since : ℕ) : TransactionAndTables := ⟨since, false, [], fun _ => rfl⟩

/-- `with_tables_mut`: mutable access makes a transaction dirty, whatever is written. -/
def TransactionAndTables.write (w : TransactionAndTables) (writes : List Mutation) :
    TransactionAndTables :=
  ⟨w.since, true, w.writes ++ writes, fun h => Bool.noConfusion h⟩

/-! ## The store -/

/-- `Store`, in an environment. -/
structure Store (prims : Primitives) where
  db : Database prims
  transaction : CurrentTransaction prims
  openReplicas : Finset NamespaceId
  /-- How many times each namespace was written. -/
  writes : NamespaceId → ℕ
  /-- When the oldest transaction committed without a sync began, or when a flush last failed to
  sync it. -/
  unsyncedSince : Option ℕ
  env : Environment
  /-- How many commits were tried in this environment. -/
  commits : ℕ
  /-- How many transactions were begun in it. -/
  begins : ℕ
  /-- How often the clock was read in it. -/
  readings : ℕ

/-- A method of the store. -/
abbrev StoreM (prims : Primitives) := EStateM String (Store prims)

namespace Store

variable {prims : Primitives}

/-- `new_impl`. -/
def opened (base : Tables prims) (env : Environment) : Store prims :=
  ⟨.opened base, .none, ∅, fun _ => 0, none, env, 0, 0, 0⟩

/-- The store as it meets an environment. -/
def under (s : Store prims) (env : Environment) : Store prims :=
  { s with env := env, commits := 0, begins := 0, readings := 0 }

/-- `Instant::now`. -/
def now : StoreM prims ℕ := do
  let s ← get
  set { s with readings := s.readings + 1 }
  return s.env.instant s.readings

/-- `Instant::elapsed`. -/
def elapsed (since : ℕ) : StoreM prims ℕ := do
  let instant ← now
  return instant - since

/-- `begin_write` and `begin_read`. -/
def beginTransaction : StoreM prims Unit := do
  let s ← get
  set { s with begins := s.begins + 1 }
  if s.env.beginFails s.begins then throw "the transaction did not begin"

/-- `WriteTransaction::commit`. -/
def commit (writes : List Mutation) (synced : Bool) : StoreM prims Unit := do
  let s ← get
  if s.env.commitFails s.commits then
    set { s with commits := s.commits + 1 }
    throw "the commit failed"
  else set { s with commits := s.commits + 1, db := s.db.commit writes synced }

/-- `std::mem::take` on the transaction. -/
def takeTransaction : StoreM prims (CurrentTransaction prims) :=
  modifyGet fun s => (s.transaction, { s with transaction := .none })

/-- Whether a commit syncs the file: when it is to, or when an unsynced commit is already due. -/
def isSynced (synced : Bool) (began : ℕ) : StoreM prims Bool :=
  if synced then return true
  else do
    let elapsed ← elapsed began
    return maxCommitDelay ≤ elapsed

/-- `finish_write`: commits a write transaction, or drops it when nothing was written through it. -/
def finishWrite (w : TransactionAndTables) (synced : Bool) : StoreM prims Unit := do
  if w.dirty then
    let began := (← get).unsyncedSince.elim w.since fun unsynced => min unsynced w.since
    let synced ← isSynced synced began
    commit w.writes synced
    set { (← get) with unsyncedSince := if synced then none else some began }

/-- The second half of `commit_and_sync`: an empty synced commit takes the unsynced ones before it
to disk. -/
def syncCommits : StoreM prims Unit := do
  if (← get).unsyncedSince.isSome then
    beginTransaction
    commit [] true
    set { (← get) with unsyncedSince := none }

/-- `commit_and_sync`. -/
def commitAndSync : StoreM prims Unit := do
  match ← takeTransaction with
  | .write w =>
    finishWrite w true
    syncCommits
  | _ => syncCommits

/-- The time an unsynced commit is due again after a flush that failed: a settle window later, not
at once. -/
def postpone : StoreM prims Unit := do
  if (← get).unsyncedSince.isSome then
    let instant ← now
    set { (← get) with unsyncedSince := some instant }

/-- `flush`: commits the transaction, if any, and syncs every commit so far to the file. -/
def flush : StoreM prims Unit :=
  tryCatch commitAndSync fun err => do
    postpone
    throw err

/-- A read transaction. -/
def readTables : StoreM prims (Tables prims) := do
  beginTransaction
  return (← get).db.tables []

/-- What a snapshot is read of: the read transaction held, or a new one. -/
def snapshotOf : CurrentTransaction prims → StoreM prims (Tables prims)
  | .none => readTables
  | .write w => do
    finishWrite w false
    readTables
  | .read tables => return tables

/-- `snapshot`: a read-only view, which stays the transaction held. An open write transaction is
committed, unsynced. -/
def snapshot : StoreM prims (Tables prims) := do
  let transaction ← takeTransaction
  let tables ← snapshotOf transaction
  set { (← get) with transaction := .read tables }
  return tables

/-- `snapshot_owned`: a read-only view of its own. An open write transaction is committed,
unsynced. -/
def snapshotOwned : StoreM prims (Tables prims) := do
  match ← takeTransaction with
  | .write w =>
    finishWrite w false
    readTables
  | _ => readTables

/-- A new write transaction. -/
def newTransaction : StoreM prims TransactionAndTables := do
  beginTransaction
  let since ← now
  return .new since

/-- `current_write_transaction`: the open one while it is young enough, a fresh one otherwise. -/
def currentWriteTransaction : StoreM prims TransactionAndTables := do
  match ← takeTransaction with
  | .write w =>
    let age ← elapsed w.since
    if age ≤ maxCommitDelay then return w
    else
      finishWrite w true
      newTransaction
  | _ => newTransaction

/-- `tables`: the tables to read from, as the open transaction sees them. -/
def tables : StoreM prims (Tables prims) := do
  let w ← currentWriteTransaction
  let s ← get
  set { s with transaction := .write w }
  return s.db.tables w.writes

/-- `modify`: exclusive write access in the open transaction. -/
def modify {α : Type} (f : Tables prims → Except String (α × List Mutation)) : StoreM prims α := do
  let w ← currentWriteTransaction
  let s ← get
  match f (s.db.tables w.writes) with
  | .ok (a, writes) =>
    set { s with transaction := .write (w.write writes) }
    return a
  | .error err =>
    set { s with transaction := .write (w.write []) }
    throw err

/-! ## Methods -/

/-- `load_replica_info`. -/
def loadReplicaInfo (ns : NamespaceId) : StoreM prims Capability := do
  let tables ← tables
  match tables.namespaces.get ns with
  | none => throw "Replica not found"
  | some capability =>
    let s ← get
    set { s with openReplicas := insert (capability.id prims) s.openReplicas }
    return capability

/-- `close_replica`. -/
def closeReplica (ns : NamespaceId) : StoreM prims Unit := do
  let s ← get
  set { s with openReplicas := s.openReplicas.erase ns }

/-- `list_namespaces`. -/
def listNamespaces : StoreM prims (List (NamespaceId × CapabilityKind)) := do
  let snapshot ← snapshot
  return snapshot.namespaces.rows.map fun capability => (capability.id prims, capability.kind)

/-- `get_author`. -/
def getAuthor (author : AuthorId) : StoreM prims (Option Author) := do
  let tables ← tables
  return tables.authors.get author

/-- `import_author`. -/
def importAuthor (author : Author) : StoreM prims Unit :=
  modify fun _ => return ((), [.author author])

/-- `ImportNamespaceOutcome`. -/
inductive ImportNamespaceOutcome where
  | inserted
  | noChange
deriving DecidableEq

/-- `import_namespace`. -/
def importNamespace (capability : Capability) : StoreM prims ImportNamespaceOutcome :=
  modify fun tables =>
    if (tables.namespaces.get (capability.id prims)).isSome then return (.noChange, [])
    else return (.inserted, [.imported capability])

/-- `wrote`: counts one write of a namespace. -/
def wrote (ns : NamespaceId) : StoreM prims Unit := do
  let s ← get
  set { s with writes := fun n => if n = ns then s.writes n + 1 else s.writes n }

/-- `writes_of`: how many writes a replica has taken since the store opened. -/
def writesOf (ns : NamespaceId) : StoreM prims ℕ := return (← get).writes ns

/-- `remove_replica`. A removal is a mutation like any write. -/
def removeReplica (ns : NamespaceId) : StoreM prims Unit := do
  if ns ∈ (← get).openReplicas then throw "replica is not closed"
  else
    modify fun _ => return ((), [.removed ns])
    wrote ns

/-- `get_many`. -/
def getMany (ns : NamespaceId) (query : Query) : StoreM prims QueryIterator := do
  let tables ← snapshotOwned
  return .new tables.records tables.recordsByKey ns query

/-- `get_exact`, empty entries included. -/
def getExact (id : RecordIdentifier) : StoreM prims (Option SignedEntry) := do
  let tables ← tables
  return tables.records.get id

/-- `content_hashes`. -/
def contentHashes : StoreM prims (List Hash) := do
  let tables ← snapshotOwned
  return tables.records.rows.map SignedEntry.contentHash

/-- `get_latest_for_each_author`. -/
def getLatestForEachAuthor (ns : NamespaceId) : StoreM prims (List Latest) := do
  let tables ← tables
  return tables.latestPerAuthor.rows.filter fun latest => latest.ns = ns

/-- `has_news_for_us`. -/
def hasNewsForUs (ns : NamespaceId) (heads : AuthorHeads) : StoreM prims (Option ℕ) := do
  let latest ← getLatestForEachAuthor ns
  let ourHeads := AuthorHeads.ofItems (latest.map fun row => (row.timestamp, row.author))
  return heads.hasNewsFor ourHeads

/-- `register_useful_peer`. -/
def registerUsefulPeer (ns : NamespaceId) (peer : PeerIdBytes) : StoreM prims Unit := do
  let nanos := (← get).env.nanos
  modify fun tables =>
    if (tables.namespaces.get ns).isSome then return ((), [.useful ⟨ns, nanos, peer⟩])
    else throw "document not created"

/-- `get_sync_peers`: the newest first. -/
def getSyncPeers (ns : NamespaceId) : StoreM prims (Option (List PeerIdBytes)) := do
  let tables ← tables
  let peers :=
    (tables.namespacePeers.rows.filter fun row => row.ns = ns).reverse.map UsefulPeer.peer
  return if peers.isEmpty then none else some peers

end Store

/-! ## A replica in the store -/

namespace StoreInstance

variable {prims : Primitives} (ns : NamespaceId)

/-- `entry_get`: read from the live store even inside a session. -/
def entryGet (id : RecordIdentifier) : StoreM prims (Option SignedEntry) := do
  MonadExcept.ofExcept (PdnStore.StoreInstance.ensureOwnNamespace ns id)
  Store.getExact id

/-- `entry_put`: counted where the write is applied. -/
def entryPut (e : SignedEntry) : StoreM prims Unit := do
  MonadExcept.ofExcept (PdnStore.StoreInstance.ensureOwnNamespace ns e.id)
  Store.wrote e.ns
  Store.modify fun _ => return ((), [.put e])

/-- `Store::put` of `ranger.rs`: the entry is stored if it compares strictly greater than the one at
its key. -/
def put (e : SignedEntry) : StoreM prims Ranger.InsertOutcome := do
  let previous ← entryGet ns e.id
  if previous.any fun previous => e.stamp ≤ previous.stamp then return .notInserted
  else
    entryPut ns e
    return .inserted (if previous.isSome then 1 else 0)

end StoreInstance

end MeePdn.PdnStore.Fs

/-! ## Environments of the tests -/

namespace MeePdn.Testing

open PdnStore.Fs

/-- An environment in which nothing fails and no time passes. -/
def calm : Environment := ⟨fun _ => false, fun _ => false, fun _ => 0, fun _ => 7, 0⟩

/-- A disk that is full: no commit succeeds. -/
def full : Environment := { calm with commitFails := fun _ => true }

end MeePdn.Testing
