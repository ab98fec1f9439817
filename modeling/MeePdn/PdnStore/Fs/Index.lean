import MeePdn.PdnStore.Fs.Operations
import MeePdn.PdnStore.Testing

/-!
# The index of records by key

`records_by_key` has one row per record, ordered by key before author. `entry_put` writes it with
the record and `remove_replica` removes a namespace's rows from both tables, each by the bounds of
the namespace in the order of that table.

## Main definitions

* `Indexed` — the index has a row exactly for every record.

## Main results

* `Indexed.replay` — every list of writes keeps index and records together.
* `namespaces_isolated` — a range reads the records of its own namespace and a removal removes them
  and their rows, whatever bytes the namespace, the authors and the keys are made of.
-/

namespace MeePdn.PdnStore.Fs

open Effects

/-- The index has a row exactly for every record. -/
def Indexed (records : Records) (index : RecordsByKey) : Prop :=
  ∀ ns key author, (⟨ns, key, author⟩ : ByKeyId) ∈ index.rows ↔
    ∃ e ∈ records.rows, e.id = ⟨ns, author, key⟩

variable {prims : Primitives}

lemma records_removed (tables : Tables prims) (ns : NamespaceId) :
    (tables.apply (.removed ns)).records.rows = tables.records.rows.filter fun e => e.ns ≠ ns := by
  apply List.filter_congr
  intro e _
  rw [decide_eq_decide, RecordsBounds.contains_ofNamespace]
  rfl

lemma recordsByKey_removed (tables : Tables prims) (ns : NamespaceId) :
    (tables.apply (.removed ns)).recordsByKey.rows =
      tables.recordsByKey.rows.filter fun row => row.ns ≠ ns := by
  apply List.filter_congr
  intro row _
  rw [decide_eq_decide, ByKeyBounds.contains_ofNamespace]

/-- **A write keeps index and records together.** -/
lemma Indexed.apply {tables : Tables prims} (h : Indexed tables.records tables.recordsByKey)
    (m : Mutation) : Indexed (tables.apply m).records (tables.apply m).recordsByKey := by
  intro ns key author
  cases m with
  | author _ => exact h ns key author
  | imported _ => exact h ns key author
  | useful _ => exact h ns key author
  | put e =>
    have hrow : (⟨ns, key, author⟩ : ByKeyId) = byKeyId e.id ↔ e.id = ⟨ns, author, key⟩ := by
      unfold byKeyId
      rw [ByKeyId.mk.injEq]
      constructor
      · rintro ⟨rfl, rfl, rfl⟩
        rfl
      · intro hid
        rw [hid]
        exact ⟨rfl, rfl, rfl⟩
    have hrows : (⟨ns, key, author⟩ : ByKeyId) ∈ (tables.apply (.put e)).recordsByKey.rows ↔
        (⟨ns, key, author⟩ : ByKeyId) = byKeyId e.id ∨
          (⟨ns, key, author⟩ : ByKeyId) ∈ tables.recordsByKey.rows ∧
            (⟨ns, key, author⟩ : ByKeyId) ≠ byKeyId e.id :=
      Keyed.mem_insertRow tables.recordsByKey.sorted
    have hrecords : ∀ {e' : SignedEntry}, e' ∈ (tables.apply (.put e)).records.rows ↔
        e' = e ∨ e' ∈ tables.records.rows ∧ e'.id ≠ e.id :=
      Keyed.mem_insertRow tables.records.sorted
    rw [hrows, h ns key author, ne_eq, hrow]
    simp only [hrecords]
    constructor
    · grind
    · grind
  | removed gone =>
    rw [recordsByKey_removed, records_removed, List.mem_filter, h ns key author]
    simp only [List.mem_filter, ne_eq, decide_not, Bool.not_eq_true', decide_eq_false_iff_not]
    constructor
    · rintro ⟨⟨e, he, hid⟩, hne⟩
      exact ⟨e, ⟨he, fun hns => hne ((congrArg RecordIdentifier.ns hid).symm.trans hns)⟩, hid⟩
    · rintro ⟨e, ⟨he, hne⟩, hid⟩
      exact ⟨⟨e, he, hid⟩, fun hns => hne ((congrArg RecordIdentifier.ns hid).trans hns)⟩

/-- **Every list of writes keeps index and records together.** -/
lemma Indexed.replay {tables : Tables prims} (h : Indexed tables.records tables.recordsByKey)
    (writes : List Mutation) :
    Indexed (tables.replay writes).records (tables.replay writes).recordsByKey := by
  induction writes generalizing tables with
  | nil => exact h
  | cons m writes ih => exact ih (h.apply m)

/-- **Namespaces that share the tables are isolated.** Of every table, a range of a namespace with a
boundary in another one is refused, and any other range reads each record of the namespace in it
once and no other record. In every run a removal that goes through removes the records and the rows
of its namespace and leaves the others as they are, and the index has a row exactly for every
record.

**Proof sketch.** The bounds of a namespace hold its records and no others in both orders. The index
is written with the records, and a write keeps them together. -/
theorem namespaces_isolated (base : Tables prims) (h : Indexed base.records base.recordsByKey)
    (env : Environment) (events : List Event) :
    (∀ (records : Records) (ns : NamespaceId) (wanted : Ranger.Range RecordIdentifier),
      (wanted.x ≠ wanted.y → wanted.x.ns ≠ ns ∨ wanted.y.ns ≠ ns →
        ∃ err, PdnStore.StoreInstance.getRange ns records wanted = .error err) ∧
      (wanted.x = wanted.y ∨ wanted.x.ns = ns ∧ wanted.y.ns = ns →
        ∃ rows, PdnStore.StoreInstance.getRange ns records wanted = .ok rows ∧ rows.Nodup ∧
          ∀ e, e ∈ rows ↔ e ∈ records.rows ∧ e.ns = ns ∧ wanted.Contains e.id)) ∧
    let s := (Store.opened base env).after events
    (∀ (op : Operation) ns, op.Removes s ns →
      (final op.run s).live.records.rows = (s.live.records.rows.filter fun e => e.ns ≠ ns) ∧
        (final op.run s).live.recordsByKey.rows =
          s.live.recordsByKey.rows.filter fun row => row.ns ≠ ns) ∧
      Indexed s.live.records s.live.recordsByKey := by
  refine ⟨fun records ns wanted => ⟨fun hne hother => ?_, fun hread => ?_⟩, ?_, ?_⟩
  · refine ⟨_, PdnStore.StoreInstance.getRange_of_not_readable ?_⟩
    rintro (heq | ⟨hx, hy⟩)
    · exact hne heq
    · exact hother.elim (fun hx' => hx' hx) fun hy' => hy' hy
  · refine ⟨_, PdnStore.StoreInstance.getRange_of_readable hread, ?_, fun e => ?_⟩
    · exact (records.nodup_rows.filter _).filter _
    · simp [PdnStore.StoreInstance.ofNamespace, and_comm]
  · intro op ns hremoves
    rw [Store.live_of_removes hremoves]
    exact ⟨records_removed _ ns, recordsByKey_removed _ ns⟩
  · have hbase : ((Store.opened base env).after events).db.base = base := Store.base_after events
    rw [Store.live, hbase]
    exact h.replay _

end MeePdn.PdnStore.Fs

/-! ## A namespace of bytes 255 -/

namespace MeePdn.Testing

open PdnStore Fs

/-- The record at the last key of the last author in the last namespace there is. -/
def lastRecord : SignedEntry := signed (replica 255) ⟨.replicate 32 255⟩ [255] (record 4 9 7)

/-- A record of the namespace before it. -/
def neighbour : SignedEntry := signed (replica 254) ⟨.replicate 32 255⟩ [255, 255] (record 4 9 7)

/-- Both are put, and the last namespace is removed. -/
def lastRemoved : List Fs.Event :=
  [.does (.put (replica 255) lastRecord), .does (.put (replica 254) neighbour),
    .does (.removeReplica (replica 255))]

/-- The removal of the last namespace leaves the record and the row of the one before it. -/
theorem namespaces_isolated_lastRemoved :
    let s := (Fs.Store.opened .empty calm : Fs.Store transparent).after lastRemoved
    s.live.records.rows = [neighbour] ∧ Indexed s.live.records s.live.recordsByKey := by
  intro s
  have hempty : Indexed (Tables.empty : Tables transparent).records .empty := by
    intro ns key author
    simp [Tables.empty, Keyed.Table.empty]
  exact ⟨rfl, (namespaces_isolated Tables.empty hempty calm lastRemoved).2.2⟩

end MeePdn.Testing
