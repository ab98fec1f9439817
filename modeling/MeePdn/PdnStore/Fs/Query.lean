import MeePdn.PdnStore.Fs.Index

/-!
# What queries yield

A query for the latest entry of each key yields the greatest entry of each key. A query for the
start of a key sets bounds that let further keys through where the start ends in 255.

## Main definitions

* `Query.Passes`, `Query.Chooses` — the records a query is about, and the latest of each key.

## Main results

* `Query.yields_flat`, `Query.yields_latest` — what a query yields.
* `single_latest_per_key` — the latest entry of each key, in the order of the keys.
* `prefix_exact_iff` — a query for the start of a key yields keys that start otherwise exactly when
  a record lies at a key that overshoots.
-/

namespace MeePdn.PdnStore.Fs

/-- A record of a namespace whose author and key pass. -/
def Query.Passes (query : Query) (records : Records) (ns : NamespaceId)
    (admits : List UInt8 → Prop) (e : SignedEntry) : Prop :=
  e ∈ records.rows ∧ e.ns = ns ∧ query.filterAuthor.Matches e.author ∧ admits e.key

/-- Of the records that pass at one key, the one with the greatest timestamp and hash, and of
several that of the lowest author. -/
def Query.Chooses (query : Query) (records : Records) (ns : NamespaceId)
    (admits : List UInt8 → Prop) (e : SignedEntry) : Prop :=
  query.Passes records ns admits e ∧ ∀ e', query.Passes records ns admits e' → e'.key = e.key →
    e'.stamp < e.stamp ∨ e'.stamp = e.stamp ∧ e.author ≤ e'.author

section Latest

variable {records : Records} {index : RecordsByKey} {ns : NamespaceId} {query : Query}

/-- The range of a query for the latest entry of each key. -/
def Query.latestRange (query : Query) (records : Records) (index : RecordsByKey)
    (ns : NamespaceId) : KeyAuthorRange :=
  ⟨records, index.rows.filter fun row => (ByKeyBounds.new ns query.filterKey).Contains row,
    query.filterAuthor, some ⟨none⟩⟩

/-- The entry of a row. -/
lemma KeyAuthorRange.entryOf_eq_some {range : KeyAuthorRange} {row : ByKeyId} {e : SignedEntry} :
    range.entryOf row = some e ↔ e ∈ range.records.rows ∧ range.authorFilter.Matches e.author ∧
      row = byKeyId e.id := by
  unfold entryOf
  split_ifs with hmatches
  · rw [Keyed.Table.get_eq_some]
    constructor
    · rintro ⟨he, hid⟩
      have hauthor : e.author = row.author := congrArg RecordIdentifier.author hid
      exact ⟨he, hauthor ▸ hmatches, by rw [hid]; rfl⟩
    · rintro ⟨he, -, rfl⟩
      exact ⟨he, rfl⟩
  · refine iff_of_false (by simp) ?_
    rintro ⟨-, hauthor, rfl⟩
    exact hmatches hauthor

lemma Query.mem_entries_latestRange (h : Indexed records index) {e : SignedEntry} :
    e ∈ (query.latestRange records index ns).entries ↔
      query.Passes records ns query.filterKey.Admits e := by
  unfold KeyAuthorRange.entries
  simp only [List.mem_filterMap, KeyAuthorRange.entryOf_eq_some]
  constructor
  · rintro ⟨row, hrow, he, hauthor, rfl⟩
    have hbounds := ByKeyBounds.contains_new.mp (of_decide_eq_true (List.mem_filter.mp hrow).2)
    exact ⟨he, hbounds.1, hauthor, hbounds.2⟩
  · rintro ⟨he, hns, hauthor, hkey⟩
    refine ⟨byKeyId e.id, List.mem_filter.mpr ⟨(h _ _ _).mpr ⟨e, he, rfl⟩, ?_⟩, he, hauthor, rfl⟩
    exact decide_eq_true (ByKeyBounds.contains_new.mpr ⟨hns, hkey⟩)

/-- The entries of the range come by key and, at one key, by author. -/
lemma Query.ordered_entries_latestRange (query : Query) (records : Records)
    (index : RecordsByKey) (ns : NamespaceId) :
    Grouped.Ordered (fun e : SignedEntry => numbers e.key) SignedEntry.author
      (query.latestRange records index ns).entries := by
  unfold Grouped.Ordered KeyAuthorRange.entries
  rw [List.pairwise_filterMap]
  refine (index.sorted.filter _).imp_of_mem ?_
  intro row row' hrow hrow' hlt e he e' he'
  obtain ⟨-, -, rfl⟩ := KeyAuthorRange.entryOf_eq_some.mp he
  obtain ⟨-, -, rfl⟩ := KeyAuthorRange.entryOf_eq_some.mp he'
  have hns := (ByKeyBounds.contains_new.mp (of_decide_eq_true (List.mem_filter.mp hrow).2)).1
  have hns' := (ByKeyBounds.contains_new.mp (of_decide_eq_true (List.mem_filter.mp hrow').2)).1
  have hsame : e.ns = e'.ns := hns.trans hns'.symm
  rcases ByKeyId.lt_iff_fields.mp hlt with hlt | ⟨-, hlt⟩
  · exact absurd hlt (Eq.not_lt (congrArg (fun ns : NamespaceId => numbers ns.bytes.toList) hsame))
  · exact hlt

variable (blake3 : List UInt8 → Bytes 32)

/-- **A query for the latest entry of each key yields the greatest entry of each key** the bounds
let through, in the order of the keys. -/
lemma Query.yields_latest (query : Query) (ns : NamespaceId) (h : Indexed records index)
    (hkind : query.kind = .singleLatestPerKey) :
    ∃ latest : List SignedEntry,
      latest.Pairwise (fun a b => numbers a.key < numbers b.key) ∧
      (∀ e, e ∈ latest ↔ query.Chooses records ns query.filterKey.Admits e) ∧
      (∀ e, query.Passes records ns query.filterKey.Admits e → ∃ r ∈ latest, r.key = e.key) ∧
      let l := latest.filter fun e => ¬ query.Skips blake3 e
      (QueryIterator.new records index ns query).Yields blake3
        (query.limit.elim l fun limit => l.take limit.toNat) := by
  have hordered := query.ordered_entries_latestRange records index ns
  refine ⟨Grouped.greatest (fun e => numbers e.key) SignedEntry.stamp
    (query.latestRange records index ns).entries, ?_, fun e => ?_, fun e he => ?_, ?_⟩
  · apply Grouped.pairwise_greatest
    exact hordered.imp fun hlt => hlt.elim le_of_lt fun heq => heq.1.le
  · rw [Grouped.mem_greatest_iff hordered]
    unfold Grouped.First Query.Chooses
    simp only [Query.mem_entries_latestRange h, numbers_inj]
  · have hmem := (Query.mem_entries_latestRange h).mpr he
    obtain ⟨r, hr, hkey⟩ : ∃ r ∈ Grouped.greatest (fun e => numbers e.key) SignedEntry.stamp
        (query.latestRange records index ns).entries, numbers r.key = numbers e.key :=
      Grouped.exists_mem_greatest hmem
    exact ⟨r, hr, numbers_inj.mp hkey⟩
  · have hnew : QueryIterator.new records index ns query =
        ⟨.keyAuthor (query.latestRange records index ns), query, 0⟩ := by
      simp only [QueryIterator.new, IndexKind.ofQuery, hkind]
      rfl
    rw [hnew]
    exact QueryIterator.yields_remaining blake3 _

/-- **A flat query yields the records that pass, by author and key.** A scan of the namespace checks
every key; the range of one author relies on its bounds. -/
lemma Query.yields_flat (query : Query) (records : Records) (index : RecordsByKey)
    (ns : NamespaceId) (hkind : query.kind = .flat) :
    ∃ entries : List SignedEntry, entries.Pairwise (fun a b => a.id < b.id) ∧
      (∀ e, e ∈ entries ↔ query.Passes records ns
        (if query.filterAuthor = .any then query.filterKey.Matches else query.filterKey.Admits) e) ∧
      let l := entries.filter fun e => ¬ query.Skips blake3 e
      (QueryIterator.new records index ns query).Yields blake3
        (query.limit.elim l fun limit => l.take limit.toNat) := by
  cases hauthor : query.filterAuthor with
  | any =>
    refine ⟨(PdnStore.StoreInstance.range records (.ofNamespace ns)).filter fun e =>
      query.filterKey.Matches e.key, (records.sorted.filter _).filter _, fun e => ?_, ?_⟩
    · simp only [Query.Passes, hauthor, AuthorFilter.Matches, PdnStore.StoreInstance.range,
        List.mem_filter, RecordsBounds.contains_ofNamespace, decide_eq_true_iff, if_true, true_and,
        and_assoc]
      rfl
    · have hnew : QueryIterator.new records index ns query =
          ⟨.authorKey (PdnStore.StoreInstance.range records (.ofNamespace ns)) query.filterKey,
            query, 0⟩ := by
        simp only [QueryIterator.new, IndexKind.ofQuery, hkind, hauthor]
      have hyields := QueryIterator.yields_remaining blake3
        (QueryIterator.new records index ns query)
      rw [hnew] at hyields ⊢
      rw [List.filter_filter]
      simpa [QueryRange.remaining, QueryIterator.limited, Bool.and_comm] using hyields
  | exact author =>
    refine ⟨PdnStore.StoreInstance.range records (.authorKey ns author query.filterKey),
      records.sorted.filter _, fun e => ?_, ?_⟩
    · simp only [Query.Passes, hauthor, AuthorFilter.Matches, PdnStore.StoreInstance.range,
        List.mem_filter, RecordsBounds.contains_authorKey, decide_eq_true_iff,
        reduceCtorEq, if_false]
      rw [eq_comm (a := author)]
      rfl
    · have hnew : QueryIterator.new records index ns query =
          ⟨.authorKey (PdnStore.StoreInstance.range records (.authorKey ns author query.filterKey))
            .any, query, 0⟩ := by
        simp only [QueryIterator.new, IndexKind.ofQuery, hkind, hauthor]
      have hyields := QueryIterator.yields_remaining blake3
        (QueryIterator.new records index ns query)
      rw [hnew] at hyields ⊢
      simpa [QueryRange.remaining, QueryIterator.limited, KeyFilter.Matches] using hyields

lemma KeyFilter.admits_eq {filter : KeyFilter} (h : ∀ start, filter ≠ .startsWith start) :
    filter.Admits = filter.Matches := by
  cases filter with
  | any => rfl
  | exact key => rfl
  | startsWith start => exact absurd rfl (h start)

end Latest

end MeePdn.PdnStore.Fs

/-! ## Records of the tests -/

namespace MeePdn.Testing

open PdnStore Fs

/-- A record of one of two authors. -/
def recordOf (author : UInt8) (key : List UInt8) (timestamp : UInt64) : SignedEntry :=
  signed (replica 5) ⟨.replicate 32 author⟩ key (record 4 9 timestamp)

/-- At a key that starts with two bytes, the second of them 255, there is a record of each. -/
def olderRecord : SignedEntry := recordOf 1 [97, 255, 3] 7

/-- The newer one. -/
def newerRecord : SignedEntry := recordOf 2 [97, 255, 3] 8

/-- At another such key the newest record is empty. -/
def emptyRecord : SignedEntry :=
  signed (replica 5) ⟨.replicate 32 2⟩ [97, 255, 4] ⟨0, .empty hashing, 9⟩

/-- A record at a key that starts otherwise. -/
def outsideRecord : SignedEntry := recordOf 1 [99] 7

/-- A record of the first author at the first of the two bytes incremented. -/
def beyondRecord : SignedEntry := recordOf 1 [98] 8

/-- The tables they are put into. -/
def tablesOf (entries : List SignedEntry) : Tables transparent :=
  Tables.empty.replay (entries.map .put)

/-- Two records at each of two keys, and one at each of two others. -/
def keptTables : Tables transparent :=
  tablesOf [newerRecord, olderRecord, recordOf 1 [97, 255, 4] 7, emptyRecord, outsideRecord,
    recordOf 2 [100] 7]

lemma indexed_tablesOf (entries : List SignedEntry) :
    Indexed (tablesOf entries).records (tablesOf entries).recordsByKey := by
  refine Indexed.replay ?_ _
  intro ns key author
  simp [Tables.empty, Keyed.Table.empty]

lemma ns_keptTables : ∀ e ∈ keptTables.records.rows, e.ns = replica 5 := by decide +kernel

end MeePdn.Testing

/-! ## Queries for the latest and for the start of a key -/

namespace MeePdn.PdnStore.Fs

open Testing

section Latest

variable {records : Records} {index : RecordsByKey} {ns : NamespaceId}
  (blake3 : List UInt8 → Bytes 32)

/-- **A query for the latest entry of each key, of all keys or of one, yields the latest entry of
each key**: in the order of the keys, for each key at which a record passes, the one with the
greatest timestamp and hash among those whose author passes, and of several that of the lowest
author; without the empty ones unless they were requested, and as many as the limit allows.

**Proof sketch.** The entries of the range come by key and author. One pass over them that holds one
entry back finds the first of the greatest at each key. -/
theorem single_latest_per_key (h : Indexed records index) (ns : NamespaceId) (query : Query)
    (hkind : query.kind = .singleLatestPerKey)
    (hkey : ∀ start, query.filterKey ≠ .startsWith start) :
    ∃ latest : List SignedEntry,
      latest.Pairwise (fun a b => numbers a.key < numbers b.key) ∧
      (∀ e, e ∈ latest ↔ query.Chooses records ns query.filterKey.Matches e) ∧
      (∀ e, query.Passes records ns query.filterKey.Matches e → ∃ r ∈ latest, r.key = e.key) ∧
      let l := latest.filter fun e => ¬ query.Skips blake3 e
      (QueryIterator.new records index ns query).Yields blake3
        (query.limit.elim l fun limit => l.take limit.toNat) := by
  rw [← KeyFilter.admits_eq hkey]
  exact query.yields_latest blake3 ns h hkind

/-- **Of two authors' records the newer one is the latest of its key**; where that one is empty it
is passed over, and the limit cuts the last key off. -/
theorem single_latest_per_key_kept :
    (QueryIterator.new keptTables.records keptTables.recordsByKey (replica 5)
      ⟨.singleLatestPerKey, .any, .any, some 2, false⟩).Yields hashing
        [newerRecord, outsideRecord] := by
  let chosen := [newerRecord, emptyRecord, outsideRecord, recordOf 2 [100] 7]
  obtain ⟨latest, hsorted, hmem, -, hyields⟩ := single_latest_per_key hashing
    (indexed_tablesOf _) (replica 5) ⟨.singleLatestPerKey, .any, .any, some 2, false⟩ rfl (by simp)
  have hrows : ∀ e ∈ chosen, e ∈ keptTables.records.rows := by decide +kernel
  have hchosen : ∀ e ∈ keptTables.records.rows, (∀ e' ∈ keptTables.records.rows, e'.key = e.key →
      e'.stamp < e.stamp ∨ e'.stamp = e.stamp ∧ e.author ≤ e'.author) ↔ e ∈ chosen := by
    decide +kernel
  have hlatest : ∀ e, e ∈ latest ↔ e ∈ chosen := by
    intro e
    rw [hmem]
    constructor
    · rintro ⟨⟨he, -⟩, hmax⟩
      exact (hchosen e he).mp fun e' he' => hmax e' ⟨he', ns_keptTables e' he', trivial, trivial⟩
    · intro he
      have hrow := hrows e he
      exact ⟨⟨hrow, ns_keptTables e hrow, trivial, trivial⟩, fun e' he' =>
        (hchosen e hrow).mpr he e' he'.1⟩
  have heq : latest = chosen := by
    have hordered : chosen.Pairwise fun a b => numbers a.key < numbers b.key := by decide
    refine List.Perm.eq_of_pairwise (fun a b _ _ hab hba => absurd hba hab.asymm) hsorted
      hordered ?_
    exact (List.perm_ext_iff_of_nodup hsorted.nodup hordered.nodup).mpr hlatest
  have htaken : (chosen.filter fun e => ¬ Query.Skips hashing
      ⟨.singleLatestPerKey, .any, .any, some 2, false⟩ e).take 2 =
        [newerRecord, outsideRecord] := by
    decide +kernel
  rw [heq] at hyields
  exact htaken ▸ hyields

/-- Where the entries yielded have the keys the bounds let through, all of them start as asked
exactly when no record lies at a key that overshoots. -/
lemma Query.starts_iff (query : Query) {start : List UInt8}
    (hfilter : query.filterKey = .startsWith start)
    {l : List SignedEntry}
    (hsub : ∀ e ∈ l, query.Passes records ns query.filterKey.Admits e)
    (hall : ∀ e, query.Passes records ns query.filterKey.Admits e → ∃ r ∈ l, r.key = e.key) :
    (∀ e ∈ l, start <+: e.key) ↔
      ∀ e ∈ records.rows, e.ns = ns → query.filterAuthor.Matches e.author →
        e.key ∉ overshoots start := by
  rw [hfilter] at hsub hall
  constructor
  · intro hstarts e he hns hauthor hover
    obtain ⟨r, hr, hkey⟩ := hall e ⟨he, hns, hauthor, between_iff.mpr (.inr hover)⟩
    exact not_prefix_of_mem_overshoots hover (hkey ▸ hstarts r hr)
  · intro hnone e he
    obtain ⟨hrow, hns, hauthor, hkey⟩ := hsub e he
    exact (between_iff.mp hkey).resolve_right (hnone e hrow hns hauthor)

/-- **A query for the start of a key is exact exactly when no record overshoots.** Whatever is
asked, it yields records of the namespace whose author passes, and every such record whose key
starts as asked is among them or, where the latest entry of each key is asked for, is not newer than
the one at its key. All of them start as asked exactly when each key is checked, in a scan for any
author, or no record whose author passes lies at a key that overshoots.

**Proof sketch.** The bounds let through the keys that start as asked and those that overshoot. -/
theorem prefix_exact_iff (h : Indexed records index) (ns : NamespaceId) (kind : QueryKind)
    (authors : AuthorFilter) (start : List UInt8) :
    ∃ l, (QueryIterator.new records index ns ⟨kind, authors, .startsWith start, none, true⟩).Yields
        blake3 l ∧
      (∀ e ∈ l, e ∈ records.rows ∧ e.ns = ns ∧ authors.Matches e.author) ∧
      (∀ e ∈ records.rows, e.ns = ns → authors.Matches e.author → start <+: e.key →
        match kind with
        | .flat => e ∈ l
        | .singleLatestPerKey => ∃ r ∈ l, r.key = e.key ∧ e.stamp ≤ r.stamp) ∧
      ((∀ e ∈ l, start <+: e.key) ↔ kind = .flat ∧ authors = .any ∨
        ∀ e ∈ records.rows, e.ns = ns → authors.Matches e.author → e.key ∉ overshoots start) := by
  let query : Query := ⟨kind, authors, .startsWith start, none, true⟩
  have hkept : ∀ entries : List SignedEntry,
      (entries.filter fun e => ¬ query.Skips blake3 e) = entries := by
    intro entries
    simp [Query.Skips, query]
  cases kind with
  | flat =>
    obtain ⟨l, -, hmem, hyields⟩ := query.yields_flat blake3 records index ns rfl
    simp only [hkept] at hyields
    refine ⟨l, hyields, ?_, ?_, ?_⟩
    · intro e he
      obtain ⟨hrow, hns, hauthor, -⟩ := (hmem e).mp he
      exact ⟨hrow, hns, hauthor⟩
    · intro e he hns hauthor hstarts
      refine (hmem e).mpr ⟨he, hns, hauthor, ?_⟩
      split_ifs
      · exact hstarts
      · exact between_iff.mpr (.inl hstarts)
    · by_cases hany : authors = .any
      · refine iff_of_true (fun e he => ?_) (.inl ⟨rfl, hany⟩)
        have hkey := ((hmem e).mp he).2.2.2
        rwa [if_pos hany] at hkey
      · have hpasses : ∀ e, e ∈ l ↔ query.Passes records ns query.filterKey.Admits e := by
          intro e
          rw [hmem, if_neg hany]
        have hiff := query.starts_iff rfl (fun e he => (hpasses e).mp he)
          fun e he => ⟨e, (hpasses e).mpr he, rfl⟩
        rw [hiff]
        simp [query, hany]
  | singleLatestPerKey =>
    obtain ⟨l, -, hmem, hall, hyields⟩ := query.yields_latest blake3 ns h rfl
    simp only [hkept] at hyields
    refine ⟨l, hyields, ?_, ?_, ?_⟩
    · intro e he
      obtain ⟨hrow, hns, hauthor, -⟩ := ((hmem e).mp he).1
      exact ⟨hrow, hns, hauthor⟩
    · intro e he hns hauthor hstarts
      have hpasses : query.Passes records ns query.filterKey.Admits e :=
        ⟨he, hns, hauthor, between_iff.mpr (.inl hstarts)⟩
      obtain ⟨r, hr, hkey⟩ := hall e hpasses
      refine ⟨r, hr, hkey, ?_⟩
      rcases ((hmem r).mp hr).2 e hpasses hkey.symm with hlt | heq
      · exact hlt.le
      · exact heq.1.le
    · have hiff := query.starts_iff rfl (fun e he => ((hmem e).mp he).1) hall
      rw [hiff]
      simp [query]

/-- **Without a record that overshoots the query is exact**: the newer record of a key is yielded,
and the record outside is not. -/
theorem prefix_exact_kept :
    ∃ l, (QueryIterator.new keptTables.records keptTables.recordsByKey (replica 5)
        ⟨.singleLatestPerKey, .any, .startsWith [97, 255], none, true⟩).Yields hashing l ∧
      newerRecord ∈ l ∧ outsideRecord ∉ l ∧ ∀ e ∈ l, [97, 255] <+: e.key := by
  obtain ⟨l, hyields, hsub, hall, hiff⟩ := prefix_exact_iff hashing (indexed_tablesOf _) (replica 5)
    .singleLatestPerKey .any [97, 255]
  have hover : ∀ e ∈ keptTables.records.rows, e.key ∉ overshoots [97, 255] := by decide +kernel
  have hstarts := hiff.mpr (.inr fun e he _ _ => hover e he)
  obtain ⟨r, hr, hkey, hle⟩ := hall newerRecord (by decide +kernel) rfl trivial (by decide)
  have hnewest : ∀ e ∈ keptTables.records.rows, e.key = newerRecord.key →
      newerRecord.stamp ≤ e.stamp → e = newerRecord := by decide +kernel
  refine ⟨l, hyields, hnewest r (hsub r hr).1 hkey hle ▸ hr, fun hout => ?_, hstarts⟩
  exact absurd (hstarts outsideRecord hout) (by decide)

/-- **A key that does not start as asked is yielded**: asked for an author's keys that start with
the bytes 97 and 255, the store yields the record at the key 98. -/
theorem prefix_overshoots :
    let tables := tablesOf [olderRecord, beyondRecord]
    ∃ l, (QueryIterator.new tables.records tables.recordsByKey (replica 5)
        ⟨.flat, .exact ⟨.replicate 32 1⟩, .startsWith [97, 255], none, true⟩).Yields
          hashing l ∧
      beyondRecord ∈ l ∧ ¬ [97, 255] <+: beyondRecord.key := by
  refine ⟨_, QueryIterator.yields_remaining hashing _, ?_, by decide⟩
  decide +kernel

end Latest

end MeePdn.PdnStore.Fs
