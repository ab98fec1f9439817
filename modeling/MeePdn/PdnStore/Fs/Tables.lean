import Mathlib.Data.Finset.Basic
import MeePdn.PdnStore.Fs.Bounds

/-!
# The tables of a store

`pdn-store/src/store/fs/tables.rs` and the writes `store/fs.rs` makes to the tables: authors,
namespaces, records and their index by key, each author's latest timestamp and the peers that were
useful.

## Main definitions

* `Tables` — the tables.
* `Mutation`, `Tables.apply` — a write to them, and what it leaves.
* `Tables.replay` — what a list of writes leaves.
* `Database` — what `redb` holds: the writes on disk and those committed without a sync.

## Main results

* `Tables.held_of_guarded` — a record put stays, or a newer one does, until its replica is removed,
  where every put is of a record newer than the one held.

## Implementation notes

`redb` is third-party code. It is modelled by what it promises: a commit takes the writes of its
transaction as a whole or, failing, none of them; a synced commit takes itself and every commit
before it to disk. The tables a transaction sees are the tables the writes before it leave.
-/

namespace MeePdn.PdnStore

/-! ## Keys -/

/-- `Author`, by its secret key. -/
structure Author where
  signingKey : Bytes 32
deriving DecidableEq

/-- `NamespaceSecret`, by its secret key. -/
structure NamespaceSecret where
  signingKey : Bytes 32
deriving DecidableEq

/-- `CapabilityKind`. -/
inductive CapabilityKind where
  /-- A writable replica. -/
  | write
deriving DecidableEq

/-- `Capability`. -/
inductive Capability where
  /-- Write access to the namespace. -/
  | write (secret : NamespaceSecret)
deriving DecidableEq

/-- `PeerIdBytes`. -/
abbrev PeerIdBytes := Bytes 32

section Keys

variable (prims : Primitives)

/-- `Author::id`. -/
def Author.id (author : Author) : AuthorId := ⟨prims.publicKey author.signingKey⟩

/-- `NamespaceSecret::id`. -/
def NamespaceSecret.id (secret : NamespaceSecret) : NamespaceId :=
  ⟨prims.publicKey secret.signingKey⟩

/-- `Capability::secret_key`. -/
def Capability.secretKey : Capability → NamespaceSecret
  | .write secret => secret

/-- `Capability::id`. -/
def Capability.id (capability : Capability) : NamespaceId := capability.secretKey.id prims

/-- `Capability::kind`. -/
def Capability.kind : Capability → CapabilityKind
  | .write _ => .write

/-- `Entry::sign`. -/
def Entry.sign (entry : Entry) (secret : NamespaceSecret) (author : Author) : SignedEntry :=
  ⟨⟨prims.sign author.signingKey entry.toVec, prims.sign secret.signingKey entry.toVec⟩, entry⟩

end Keys

namespace Fs

/-- The order of the namespaces table. -/
scoped instance : LinearOrder NamespaceId :=
  LinearOrder.lift' (fun ns => numbers ns.bytes.toList) fun _ _ h =>
    RecordIdentifier.ns_eq_iff.mpr ⟨Eq.not_lt h, Eq.not_gt h⟩

/-- The order of the authors table. -/
scoped instance : LinearOrder AuthorId :=
  LinearOrder.lift' (fun author => numbers author.bytes.toList) fun author author' h => by
    cases author
    cases author'
    cases Bytes.ext (List.map_injective_iff.mpr (fun _ _ h => UInt8.toNat_inj.mp h) h)
    rfl

/-! ## The tables -/

/-- A row of `latest_per_author`. -/
structure Latest where
  ns : NamespaceId
  author : AuthorId
  timestamp : UInt64
  key : List UInt8

/-- What `latest_per_author` is keyed by. -/
def Latest.id (latest : Latest) : NamespaceId ×ₗ AuthorId := toLex (latest.ns, latest.author)

/-- A row of `namespace_peers`: when a peer was last useful to a replica. -/
structure UsefulPeer where
  ns : NamespaceId
  nanos : UInt64
  peer : PeerIdBytes
deriving DecidableEq

/-- The order of `namespace_peers`: of one namespace, the oldest first. -/
def UsefulPeer.ordinals (row : UsefulPeer) : NamespaceId ×ₗ List ℕ :=
  toLex (row.ns, row.nanos.toNat :: numbers row.peer.toList)

/-- `records_by_key`. A row is its key. -/
abbrev RecordsByKey := Keyed.Table (id : ByKeyId → ByKeyId)

/-- The row of a record. -/
def byKeyId (id : RecordIdentifier) : ByKeyId := ⟨id.ns, id.key, id.author⟩

/-- `Tables`. The rows of `namespaces` and `authors` are named by their own keys. -/
structure Tables (prims : Primitives) where
  records : Records
  recordsByKey : RecordsByKey
  namespaces : Keyed.Table (Capability.id prims)
  latestPerAuthor : Keyed.Table Latest.id
  namespacePeers : Keyed.Table UsefulPeer.ordinals
  authors : Keyed.Table (Author.id prims)

/-- `PEERS_PER_DOC_CACHE_SIZE`. -/
def peersPerDocCacheSize : ℕ := 5

/-- A write to the tables. -/
inductive Mutation where
  /-- `import_author`. -/
  | author (author : Author)
  /-- `import_namespace`. -/
  | imported (capability : Capability)
  /-- `entry_put`. -/
  | put (e : SignedEntry)
  /-- `remove_replica`. -/
  | removed (ns : NamespaceId)
  /-- `register_useful_peer`. -/
  | useful (row : UsefulPeer)
deriving DecidableEq

namespace Tables

variable {prims : Primitives} (tables : Tables prims)

/-- Tables without rows. -/
def empty : Tables prims := ⟨.empty, .empty, .empty, .empty, .empty, .empty⟩

/-- The author's greatest timestamp in a namespace, 0 when it has none. -/
def latest (ns : NamespaceId) (author : AuthorId) : UInt64 :=
  ((tables.latestPerAuthor.get (toLex (ns, author))).map Latest.timestamp).getD 0

/-- `latest_per_author` keeps the author's greatest timestamp, not the one written last: entries
arrive out of order. -/
def putLatest (e : SignedEntry) : Keyed.Table Latest.id :=
  if tables.latest e.ns e.author ≤ e.timestamp then
    tables.latestPerAuthor.insert ⟨e.ns, e.author, e.timestamp, e.key⟩
  else tables.latestPerAuthor

/-- The peers of a namespace with one more: a peer has one row, and of more than
`peersPerDocCacheSize` the oldest goes. -/
def putPeer (row : UsefulPeer) : Keyed.Table UsefulPeer.ordinals :=
  let peers := tables.namespacePeers
  match peers.rows.filter fun r => r.ns = row.ns with
  | [] => peers.insert row
  | oldest :: rest =>
    if oldest.peer = row.peer then (peers.filter (· ≠ oldest)).insert row
    else
      match rest.find? fun r => r.peer = row.peer with
      | some previous => (peers.filter (· ≠ previous)).insert row
      | none =>
        if peersPerDocCacheSize < rest.length + 2 then (peers.insert row).filter (· ≠ oldest)
        else peers.insert row

/-- What a write leaves. -/
def apply : Mutation → Tables prims
  | .author author => { tables with authors := tables.authors.insert author }
  | .imported capability => { tables with namespaces := tables.namespaces.insert capability }
  | .put e =>
    { tables with
      records := tables.records.insert e
      recordsByKey := tables.recordsByKey.insert (byKeyId e.id)
      latestPerAuthor := tables.putLatest e }
  | .removed ns =>
    { tables with
      records := tables.records.filter fun e => ¬ (RecordsBounds.ofNamespace ns).Contains e.id
      recordsByKey :=
        tables.recordsByKey.filter fun row => ¬ (ByKeyBounds.ofNamespace ns).Contains row
      namespaces := tables.namespaces.filter fun capability => capability.id prims ≠ ns
      namespacePeers := tables.namespacePeers.filter fun row => row.ns ≠ ns }
  | .useful row => { tables with namespacePeers := tables.putPeer row }

/-- What a list of writes leaves. -/
def replay (writes : List Mutation) : Tables prims := writes.foldl apply tables

lemma replay_append (writes writes' : List Mutation) :
    tables.replay (writes ++ writes') = (tables.replay writes).replay writes' :=
  List.foldl_append

end Tables

/-! ## Records that stay -/

section Guarded

variable {prims : Primitives}

/-- Every put is of a record newer than the one held at its key. -/
def Guarded (tables : Tables prims) (writes : List Mutation) : Prop :=
  ∀ before e after, writes = before ++ .put e :: after →
    ∀ old, (tables.replay before).records.get e.id = some old → old.stamp < e.stamp

/-- A record or a newer one at its key. -/
def Holds (records : Records) (e : SignedEntry) : Prop :=
  ∃ e', records.get e.id = some e' ∧ (e' = e ∨ e.stamp < e'.stamp)

variable {tables : Tables prims} {writes : List Mutation}

lemma guarded_nil (tables : Tables prims) : Guarded tables [] := by
  intro before e after h
  simp at h

lemma Guarded.of_prefix {more : List Mutation} (h : Guarded tables (writes ++ more)) :
    Guarded tables writes := by
  intro before e after hw
  exact h before e (after ++ more) (by simp [hw])

lemma Guarded.concat (h : Guarded tables writes) {m : Mutation}
    (hm : ∀ e, m = .put e → ∀ old, (tables.replay writes).records.get e.id = some old →
      old.stamp < e.stamp) :
    Guarded tables (writes ++ [m]) := by
  intro before e after hw
  rcases List.eq_nil_or_concat after with rfl | ⟨after, m', rfl⟩
  · obtain ⟨rfl, hput⟩ := List.append_inj' hw rfl
    exact hm e (List.singleton_inj.mp hput)
  · rw [List.concat_eq_append, ← List.cons_append, ← List.append_assoc] at hw
    exact h before e after (List.append_inj' hw rfl).1

/-- A put of a newer record, or a write to anything else, leaves a record or a newer one at its
key. -/
lemma Holds.apply {e : SignedEntry} {m : Mutation} (h : Holds tables.records e)
    (hput : ∀ e', m = .put e' → ∀ old, tables.records.get e'.id = some old → old.stamp < e'.stamp)
    (hstay : m ≠ .removed e.ns) : Holds (tables.apply m).records e := by
  obtain ⟨old, hold, hle⟩ := h
  cases m with
  | author author => exact ⟨old, hold, hle⟩
  | imported capability => exact ⟨old, hold, hle⟩
  | useful row => exact ⟨old, hold, hle⟩
  | put e' =>
    by_cases hid : e'.id = e.id
    · have hlt := hput e' rfl old (hid ▸ hold)
      have hnewer : e.stamp < e'.stamp := by
        rcases hle with rfl | hle
        · exact hlt
        · exact hle.trans hlt
      exact ⟨e', by simp [Tables.apply, Keyed.Table.get_insert, hid], .inr hnewer⟩
    · exact ⟨old, by simp [Tables.apply, Keyed.Table.get_insert, hid, hold], hle⟩
  | removed ns =>
    have hns : old.id.ns ≠ ns := by
      have hid := (Keyed.Table.get_eq_some.mp hold).2
      intro h
      apply hstay
      rw [← h, hid]
      rfl
    refine ⟨old, ?_, hle⟩
    simp [Tables.apply, Keyed.Table.get_filter, hold, RecordsBounds.contains_ofNamespace, hns]

/-- **A record put stays, or a newer one does**, until its replica is removed, where every put is of
a record newer than the one held.

**Proof sketch.** By induction on the writes after the put, from the last one. -/
lemma Tables.held_of_guarded {before after : List Mutation} {e : SignedEntry}
    (h : Guarded tables (before ++ .put e :: after)) (hstay : .removed e.ns ∉ after) :
    Holds (tables.replay (before ++ .put e :: after)).records e := by
  induction after using List.reverseRecOn with
  | nil =>
    rw [replay_append]
    exact ⟨e, by simp [replay, apply, Keyed.Table.get_insert], .inl rfl⟩
  | append_singleton after m ih =>
    have hsplit : before ++ .put e :: (after ++ [m]) = (before ++ .put e :: after) ++ [m] := by simp
    have hrest := ih (Guarded.of_prefix (hsplit ▸ h)) fun hmem => hstay (by simp [hmem])
    rw [hsplit, replay_append]
    apply hrest.apply
    · rintro e' rfl
      exact h (before ++ .put e :: after) e' [] hsplit
    · rintro rfl
      exact hstay (by simp)

end Guarded

/-! ## The database -/

/-- What `redb` holds: the tables as the database was opened, and the writes committed since, on
disk or not. -/
structure Database (prims : Primitives) where
  base : Tables prims
  /-- What is on disk, oldest first. -/
  synced : List Mutation
  /-- What was committed after that without a sync. -/
  unsynced : List Mutation

namespace Database

variable {prims : Primitives} (db : Database prims)

/-- A database as it is opened. -/
def opened (base : Tables prims) : Database prims := ⟨base, [], []⟩

/-- Every write committed, on disk or not. -/
def committed : List Mutation := db.synced ++ db.unsynced

/-- What a transaction with these writes sees; with none, what a reader sees. -/
def tables (writes : List Mutation) : Tables prims := db.base.replay (db.committed ++ writes)

/-- A commit that does not fail. -/
def commit (writes : List Mutation) (synced : Bool) : Database prims :=
  if synced then { db with synced := db.committed ++ writes, unsynced := [] }
  else { db with unsynced := db.unsynced ++ writes }

@[simp] lemma base_commit (writes : List Mutation) (synced : Bool) :
    (db.commit writes synced).base = db.base := by
  unfold commit
  split_ifs <;> rfl

@[simp] lemma committed_commit (writes : List Mutation) (synced : Bool) :
    (db.commit writes synced).committed = db.committed ++ writes := by
  unfold commit committed
  split_ifs <;> simp

@[simp] lemma synced_commit_true (writes : List Mutation) :
    (db.commit writes true).synced = db.committed ++ writes := rfl

@[simp] lemma unsynced_commit_true (writes : List Mutation) :
    (db.commit writes true).unsynced = [] := rfl

end Database

end Fs

end MeePdn.PdnStore
