import MeePdn.PdnStore.Fs.Operations
import MeePdn.PdnStore.Testing

/-!
# The latest entry of each author

`latest_per_author` says of every author in every namespace the greatest timestamp held. `entry_put`
keeps it beside the records; `remove_replica` removes the records and not their rows in it. A report
of a peer's heads is compared with the table, so a row that outlives its records hides news.

## Main definitions

* `Tables.timestamps` — the timestamps of an author's records in a namespace.
* `Tables.Headed` — the rows of `latest_per_author` are those of the records held.
* `Tables.news` — how many of a peer's heads are newer than every record held.
* `Environment.Sound` — nothing fails.
* `Operation.RemovesEmpty` — a removal that goes through finds no record of its namespace.

## Main results

* `Tables.Headed.put` — a put of a newer record keeps the heads.
* `Tables.headed_removed_iff` — a removal keeps them exactly when there was nothing to remove.
* `heads_held` — in every run the heads describe what is held exactly when no removal finds a
  record, and then a report is news exactly for the heads newer than every record held.
* `Testing.head_outlives_record` — after a removal and a new import, a head that is not held any
  more is no news.
-/

namespace MeePdn.PdnStore.Fs

open Effects

variable {prims : Primitives}

/-! ## Heads and records -/

namespace Tables

/-- The timestamps of an author's records in a namespace. -/
def timestamps (tables : Tables prims) (ns : NamespaceId) (author : AuthorId) : Set UInt64 :=
  {timestamp | ∃ e ∈ tables.records.rows, e.ns = ns ∧ e.author = author ∧ e.timestamp = timestamp}

/-- The rows of `latest_per_author` are those of the records held: an author has one in a namespace
exactly when a record of it is held there, and its timestamp is the greatest of theirs. -/
structure Headed (tables : Tables prims) : Prop where
  row : ∀ ns author, (tables.latestPerAuthor.get (toLex (ns, author))).isSome = true ↔
    (tables.timestamps ns author).Nonempty
  greatest : ∀ ns author latest, tables.latestPerAuthor.get (toLex (ns, author)) = some latest →
    IsGreatest (tables.timestamps ns author) latest.timestamp

/-- How many of a peer's heads are newer than every record held. -/
def news (tables : Tables prims) (ns : NamespaceId) (heads : AuthorHeads) : ℕ :=
  heads.rows.countP fun head =>
    ∀ e ∈ tables.records.rows, e.ns = ns → e.author = head.1 → e.timestamp < head.2

lemma headed_empty : (empty : Tables prims).Headed where
  row ns author := by
    refine iff_of_false (by simp [empty]) ?_
    rintro ⟨_, e, he, -⟩
    cases he
  greatest ns author latest h := by simp [empty] at h

variable {tables : Tables prims}

lemma timestamp_le_of_stamp_lt {e e' : SignedEntry} (h : e.stamp < e'.stamp) :
    e.timestamp ≤ e'.timestamp := by
  rcases Prod.Lex.toLex_lt_toLex.mp h with hlt | ⟨heq, -⟩
  · exact UInt64.le_iff_toNat_le.mpr hlt.le
  · exact UInt64.le_iff_toNat_le.mpr heq.le

lemma mem_timestamps_put {e : SignedEntry} {ns : NamespaceId} {author : AuthorId}
    {timestamp : UInt64} :
    timestamp ∈ (tables.apply (.put e)).timestamps ns author ↔
      e.ns = ns ∧ e.author = author ∧ e.timestamp = timestamp ∨
        ∃ e' ∈ tables.records.rows, e'.id ≠ e.id ∧
          e'.ns = ns ∧ e'.author = author ∧ e'.timestamp = timestamp := by
  have hmem : ∀ {e' : SignedEntry}, e' ∈ (tables.apply (.put e)).records.rows ↔
      e' = e ∨ e' ∈ tables.records.rows ∧ e'.id ≠ e.id :=
    Keyed.mem_insertRow tables.records.sorted
  unfold timestamps
  simp only [hmem, Set.mem_ofPred_eq, or_and_right, exists_or, exists_eq_left, and_assoc]

lemma timestamps_put_of_ne {e : SignedEntry} {ns : NamespaceId} {author : AuthorId}
    (h : (e.ns, e.author) ≠ (ns, author)) :
    (tables.apply (.put e)).timestamps ns author = tables.timestamps ns author := by
  ext timestamp
  rw [mem_timestamps_put]
  constructor
  · rintro (⟨rfl, rfl, -⟩ | ⟨e', he', -, hrest⟩)
    · exact absurd rfl h
    · exact ⟨e', he', hrest⟩
  · rintro ⟨e', he', rfl, rfl, htime⟩
    refine .inr ⟨e', he', fun hid => h ?_, rfl, rfl, htime⟩
    exact Prod.ext (congrArg RecordIdentifier.ns hid.symm)
      (congrArg RecordIdentifier.author hid.symm)

lemma get_latestPerAuthor_put (e : SignedEntry) (ns : NamespaceId) (author : AuthorId) :
    (tables.apply (.put e)).latestPerAuthor.get (toLex (ns, author)) =
      if (e.ns, e.author) = (ns, author) ∧ tables.latest ns author ≤ e.timestamp then
        some ⟨e.ns, e.author, e.timestamp, e.key⟩
      else tables.latestPerAuthor.get (toLex (ns, author)) := by
  simp only [apply, putLatest]
  by_cases hkey : (e.ns, e.author) = (ns, author)
  · obtain ⟨rfl, rfl⟩ := Prod.mk.inj hkey
    split_ifs <;> simp_all [Keyed.Table.get_insert, Latest.id]
  · have hid : toLex (e.ns, e.author) ≠ toLex (ns, author) := hkey
    split_ifs <;> simp_all [Keyed.Table.get_insert, Latest.id]

/-- **A put of a newer record keeps the heads.**

**Proof sketch.** Of the author put, the row moves to the new timestamp unless it is greater. In
that case the record that has it is not the one replaced, which has no greater timestamp than the
new one. -/
lemma Headed.put (h : tables.Headed) {e : SignedEntry}
    (hnewer : ∀ old, tables.records.get e.id = some old → old.stamp < e.stamp) :
    (tables.apply (.put e)).Headed := by
  have hreplaced : ∀ e' ∈ tables.records.rows, e'.id = e.id → e'.timestamp ≤ e.timestamp := by
    intro e' he' hid
    exact timestamp_le_of_stamp_lt (hnewer e' (Keyed.Table.get_eq_some.mpr ⟨he', hid⟩))
  have hnew : e.timestamp ∈ (tables.apply (.put e)).timestamps e.ns e.author :=
    mem_timestamps_put.mpr (.inl ⟨rfl, rfl, rfl⟩)
  -- every timestamp there was is no greater than the latest
  have hbound : ∀ timestamp ∈ tables.timestamps e.ns e.author,
      timestamp ≤ tables.latest e.ns e.author := by
    intro timestamp ht
    obtain ⟨latest, hlatest⟩ := Option.isSome_iff_exists.mp ((h.row e.ns e.author).mpr ⟨_, ht⟩)
    simpa [Tables.latest, hlatest] using (h.greatest _ _ latest hlatest).2 ht
  constructor
  · intro ns author
    rw [get_latestPerAuthor_put]
    by_cases hkey : (e.ns, e.author) = (ns, author)
    · obtain ⟨rfl, rfl⟩ := Prod.mk.inj hkey
      refine iff_of_true ?_ ⟨_, hnew⟩
      split_ifs with hle
      · rfl
      · -- a latest timestamp above that of an entry is one of a row
        by_contra hnone
        have hzero : tables.latest e.ns e.author = 0 := by
          rw [latest, Option.not_isSome_iff_eq_none.mp hnone]
          rfl
        exact hle ⟨rfl, hzero ▸ UInt64.zero_le⟩
    · rw [if_neg fun hboth => hkey hboth.1, timestamps_put_of_ne hkey]
      exact h.row ns author
  · intro ns author latest hlatest
    rw [get_latestPerAuthor_put] at hlatest
    by_cases hkey : (e.ns, e.author) = (ns, author)
    · obtain ⟨rfl, rfl⟩ := Prod.mk.inj hkey
      split_ifs at hlatest with hle
      · cases hlatest
        refine ⟨hnew, fun timestamp ht => ?_⟩
        rcases mem_timestamps_put.mp ht with ⟨-, -, rfl⟩ | ⟨e', he', -, hrest⟩
        · exact UInt64.le_refl _
        · exact UInt64.le_trans (hbound timestamp ⟨e', he', hrest⟩) hle.2
      · have hold := h.greatest _ _ latest hlatest
        have hval : tables.latest e.ns e.author = latest.timestamp := by
          simp [Tables.latest, hlatest]
        have hlt : e.timestamp < latest.timestamp := by
          rw [← hval]
          exact UInt64.not_le.mp fun hge => hle ⟨rfl, hge⟩
        constructor
        · obtain ⟨e', he', hrest⟩ := hold.1
          refine mem_timestamps_put.mpr (.inr ⟨e', he', fun hid => ?_, hrest⟩)
          exact absurd (hrest.2.2 ▸ hreplaced e' he' hid) (UInt64.not_le.mpr hlt)
        · intro timestamp ht
          rcases mem_timestamps_put.mp ht with ⟨-, -, rfl⟩ | ⟨e', he', -, hrest⟩
          · exact UInt64.le_of_lt hlt
          · exact hold.2 ⟨e', he', hrest⟩
    · grind [timestamps_put_of_ne, h.greatest]

lemma Headed.apply (h : tables.Headed) {m : Mutation}
    (hput : ∀ e, m = .put e → ∀ old, tables.records.get e.id = some old → old.stamp < e.stamp)
    (hremoved : ∀ ns, m ≠ .removed ns) : (tables.apply m).Headed := by
  cases m with
  | author author => exact ⟨h.row, h.greatest⟩
  | imported capability => exact ⟨h.row, h.greatest⟩
  | useful row => exact ⟨h.row, h.greatest⟩
  | put e => exact h.put (hput e rfl)
  | removed ns => exact absurd rfl (hremoved ns)

/-- **A removal keeps the heads exactly when there was nothing to remove**: the rows of the records
removed stay. -/
lemma headed_removed_iff (h : tables.Headed) (ns : NamespaceId) :
    (tables.apply (.removed ns)).Headed ↔ ∀ e ∈ tables.records.rows, e.ns ≠ ns := by
  have hmem : ∀ {e : SignedEntry}, e ∈ (tables.apply (.removed ns)).records.rows ↔
      e ∈ tables.records.rows ∧ e.ns ≠ ns := by
    intro e
    simp [Tables.apply, Keyed.Table.filter, RecordsBounds.contains_ofNamespace, SignedEntry.ns]
  constructor
  · intro hafter e he hns
    have hrow : (tables.latestPerAuthor.get (toLex (ns, e.author))).isSome = true :=
      (h.row ns e.author).mpr ⟨_, e, he, hns, rfl, rfl⟩
    obtain ⟨_, e', he', hns', -⟩ := (hafter.row ns e.author).mp hrow
    exact (hmem.mp he').2 hns'
  · intro hnone
    have hsame : ∀ ns' author,
        (tables.apply (.removed ns)).timestamps ns' author = tables.timestamps ns' author := by
      grind [timestamps]
    constructor
    · intro ns' author
      rw [hsame]
      exact h.row ns' author
    · intro ns' author latest hlatest
      rw [hsame]
      exact h.greatest ns' author latest hlatest

/-- The heads of a namespace, as `has_news_for_us` collects them. -/
def heads (tables : Tables prims) (ns : NamespaceId) : AuthorHeads :=
  .ofItems ((tables.latestPerAuthor.rows.filter fun latest => latest.ns = ns).map fun latest =>
    (latest.timestamp, latest.author))

/-- The head of an author is that of its row in the table. -/
lemma get_heads (tables : Tables prims) (ns : NamespaceId) (author : AuthorId) :
    (tables.heads ns).get author = (tables.latestPerAuthor.get (toLex (ns, author))).map
      fun latest => (latest.author, latest.timestamp) := by
  have hid : ∀ latest : Latest, latest.id = toLex (ns, author) ↔
      latest.ns = ns ∧ latest.author = author := by
    intro latest
    rw [Latest.id, EmbeddingLike.apply_eq_iff_eq, Prod.mk.injEq]
  -- one namespace has one row of an author
  have hnodup : (((tables.latestPerAuthor.rows.filter fun latest => latest.ns = ns).map
      fun latest => (latest.timestamp, latest.author)).map Prod.snd).Nodup := by
    rw [List.map_map]
    refine List.Nodup.map_on (fun a ha b hb heq => ?_) (tables.latestPerAuthor.nodup_rows.filter _)
    simp only [List.mem_filter, decide_eq_true_eq] at ha hb
    refine tables.latestPerAuthor.eq_of_key_eq ha.1 hb.1 (congrArg toLex (Prod.ext ?_ heq))
    exact ha.2.trans hb.2.symm
  ext head
  simp only [Keyed.Table.get_eq_some, heads, AuthorHeads.mem_ofItems hnodup, List.mem_map,
    List.mem_filter, decide_eq_true_eq, Option.map_eq_some_iff, hid]
  constructor
  · rintro ⟨⟨latest, ⟨hmem, hns⟩, heq⟩, rfl⟩
    have hhead : (latest.author, latest.timestamp) = head := congrArg Prod.swap heq
    exact ⟨latest, ⟨hmem, hns, congrArg Prod.fst hhead⟩, hhead⟩
  · rintro ⟨latest, ⟨hmem, hns, hauthor⟩, rfl⟩
    exact ⟨⟨latest, ⟨hmem, hns⟩, rfl⟩, hauthor⟩

/-- **A head is news exactly when it is newer than every record held.** -/
lemma Headed.hasNewsFor (h : tables.Headed) (ns : NamespaceId) (heads : AuthorHeads) :
    heads.hasNewsFor (tables.heads ns) =
      if tables.news ns heads = 0 then none else some (tables.news ns heads) := by
  have hhead : ∀ head ∈ heads.rows,
      ((tables.heads ns).get head.1).all (fun theirs => theirs.2 < head.2) =
        decide (∀ e ∈ tables.records.rows, e.ns = ns → e.author = head.1 →
          e.timestamp < head.2) := by
    intro head _
    rw [get_heads, Bool.eq_iff_iff, decide_eq_true_iff]
    cases hget : tables.latestPerAuthor.get (toLex (ns, head.1)) with
    | none =>
      refine iff_of_true rfl fun e he hns hauthor => ?_
      have hrow := (h.row ns head.1).mpr ⟨_, e, he, hns, hauthor, rfl⟩
      simp [hget] at hrow
    | some latest =>
      obtain ⟨⟨e, he, hns, hauthor, htime⟩, hmax⟩ := h.greatest ns head.1 latest hget
      simp only [Option.map_some, Option.all_some, decide_eq_true_iff]
      constructor
      · intro hlt e' he' hns' hauthor'
        exact UInt64.lt_of_le_of_lt (hmax ⟨e', he', hns', hauthor', rfl⟩) hlt
      · intro hall
        exact htime ▸ hall e he hns hauthor
  unfold AuthorHeads.hasNewsFor news
  rw [List.countP_congr fun head hmem => by rw [hhead head hmem]]

end Tables

/-! ## Runs in which nothing fails -/

/-- No commit fails and every transaction begins. -/
def Environment.Sound (env : Environment) : Prop :=
  ∀ n, env.commitFails n = false ∧ env.beginFails n = false

/-- A removal that goes through finds no record of its namespace. -/
def Operation.RemovesEmpty (op : Operation) (s : Store prims) : Prop :=
  ∀ ns, op.Removes s ns → ∀ e ∈ s.live.records.rows, e.ns ≠ ns

namespace Store

variable {s : Store prims}

/-- Where nothing fails, there is a transaction to write in. -/
lemma exists_currentWriteTransaction (h : s.env.Sound) :
    ∃ w s', currentWriteTransaction s = .ok w s' := by
  have hcurrent : Ensures currentWriteTransaction s (fun _ _ => True) fun _ _ => False := by
    unfold currentWriteTransaction takeTransaction
    rw [ensures_bind, ensures_modifyGet]
    cases s.transaction with
    | none => simp [newTransaction, beginTransaction, now, (h _).2, ensures_ite]
    | read tables => simp [newTransaction, beginTransaction, now, (h _).2, ensures_ite]
    | write w =>
      simp only
      rw [ensures_bind]
      refine (ensures_elapsed w.since _).mono ?_ fun _ _ => False.elim
      rintro age _ rfl
      rw [ensures_ite]
      refine ⟨fun _ => trivial, fun _ => ?_⟩
      rw [ensures_bind]
      refine (ensures_finishWrite w true _).mono ?_ ?_
      · intro _ s' hs'
        have hbegins : s'.env.beginFails s'.begins = false := by
          rw [hs'.env]
          exact (h _).2
        simp [newTransaction, beginTransaction, now, hbegins, ensures_ite]
      · intro _ s' hs'
        have hfails : s.env.commitFails s.commits = true := hs'.next
        simp [(h _).1] at hfails
  cases hrun : currentWriteTransaction s with
  | ok w s' => exact ⟨w, s', rfl⟩
  | error err s' => exact (hcurrent.of_error hrun).elim

lemma exists_tables (h : s.env.Sound) : ∃ t s', tables s = .ok t s' := by
  obtain ⟨w, s', hrun⟩ := exists_currentWriteTransaction h
  refine ⟨s'.db.tables w.writes, { s' with transaction := .write w }, ?_⟩
  simp only [tables, bind, EStateM.bind, hrun]
  rfl

/-- A method keeps the heads exactly when it removes no record. -/
lemma headed_run_iff (op : Operation) (hnext : s.nextFails = false) (h : s.live.Headed) :
    (final op.run s).live.Headed ↔ op.RemovesEmpty s := by
  by_cases hremoves : ∃ ns, op.Removes s ns
  · obtain ⟨ns, hns⟩ := hremoves
    rw [live_of_removes hns, Tables.headed_removed_iff h]
    constructor
    · rintro hnone ns' ⟨hop, -⟩
      obtain rfl : ns = ns' := Operation.removeReplica.inj (hns.1.symm.trans hop)
      exact hnone
    · exact fun hempty => hempty ns hns
  · refine iff_of_true ?_ fun ns hns => absurd ⟨ns, hns⟩ hremoves
    rcases live_run op hnext with hsame | ⟨m, happly, hm⟩
    · rwa [hsame]
    · rw [happly]
      apply h.apply
      · rintro e rfl
        exact hm
      · rintro ns rfl
        exact hremoves ⟨ns, hm⟩

lemma headed_along_iff (ops : List Operation) (hsound : s.env.Sound) (h : s.live.Headed) :
    Along (fun s event => (s.step event).live.Headed) s (ops.map .does) ↔
      Along (fun s event => ∀ op, event = .does op → op.RemovesEmpty s) s (ops.map .does) := by
  induction ops generalizing s with
  | nil => rfl
  | cons op ops ih =>
    have hstep := headed_run_iff op (hsound _).1 h
    have henv : (final op.run s).env = s.env := (op.adds s).follows.env
    have hevent : (∀ op', Event.does op = .does op' → op'.RemovesEmpty s) ↔ op.RemovesEmpty s :=
      ⟨fun h => h op rfl, fun h op' heq => Event.does.inj heq ▸ h⟩
    simp only [List.map_cons, Along, hevent]
    rw [step, hstep]
    exact and_congr_right fun hempty => ih (henv ▸ hsound) (hstep.mpr hempty)

lemma headed_after (ops : List Operation) (h : s.live.Headed)
    (halong : Along (fun s event => (s.step event).live.Headed) s (ops.map .does)) :
    (s.after (ops.map .does)).live.Headed := by
  induction ops generalizing s with
  | nil => exact h
  | cons op ops ih => exact ih halong.1 halong.2

/-- Where nothing fails and the heads are those of the records held, a report is news for the heads
newer than every record held. -/
lemma hasNewsForUs_of_headed (hsound : s.env.Sound) (h : s.live.Headed) (ns : NamespaceId)
    (heads : AuthorHeads) :
    ∃ s', hasNewsForUs ns heads s =
      .ok (if s.live.news ns heads = 0 then none else some (s.live.news ns heads)) s' := by
  obtain ⟨t, s', hrun⟩ := exists_tables hsound
  obtain ⟨rfl, -⟩ := (ensures_tables s).of_ok hrun
  refine ⟨s', ?_⟩
  rw [← h.hasNewsFor ns heads]
  simp only [hasNewsForUs, getLatestForEachAuthor, bind, EStateM.bind, hrun]
  rfl

end Store

/-- **The heads describe what is held, in every run in which no removal finds a record**, and in no
other: after every step an author has a row exactly when a record of it is held, with the greatest
of their timestamps. A report of a peer's heads is then news exactly for the heads newer than every
record held.

**Proof sketch.** One step: a method applies one write or none, a put is of a newer record, and a
removal leaves the rows of the records it removes. -/
theorem heads_held (base : Tables prims) (env : Environment) (hbase : base.Headed)
    (hsound : env.Sound) (ops : List Operation) :
    let s := Store.opened base env
    let run := ops.map Event.does
    (Store.Along (fun s event => (s.step event).live.Headed) s run ↔
        Store.Along (fun s event => ∀ op, event = .does op → op.RemovesEmpty s) s run) ∧
      (Store.Along (fun s event => ∀ op, event = .does op → op.RemovesEmpty s) s run →
        ∀ ns heads, ∃ s', Store.hasNewsForUs ns heads (s.after run) =
          .ok (if (s.after run).live.news ns heads = 0 then none
            else some ((s.after run).live.news ns heads)) s') := by
  intro s run
  have hiff := Store.headed_along_iff (s := s) ops hsound hbase
  refine ⟨hiff, fun hempty ns heads => ?_⟩
  apply Store.hasNewsForUs_of_headed
  · rw [Store.env_after]
    exact hsound
  · exact Store.headed_after ops hbase (hiff.mpr hempty)

end MeePdn.PdnStore.Fs

/-! ## A replica removed and imported again -/

namespace MeePdn.Testing

open PdnStore Fs

/-- The record of an author. -/
def authored : SignedEntry := signed (replica 5) ⟨.replicate 32 1⟩ [1] (record 4 9 7)

/-- The replica is imported and the record put. -/
def imports : List Operation :=
  [.importNamespace (.write ⟨.replicate 32 5⟩), .put (replica 5) authored]

/-- The replica is removed and imported again. -/
def reimports : List Operation :=
  imports ++ [.removeReplica (replica 5), .importNamespace (.write ⟨.replicate 32 5⟩)]

/-- The store after a list of methods. -/
def storeAfter (ops : List Operation) : Fs.Store transparent :=
  (Fs.Store.opened .empty calm).after (ops.map .does)

/-- One head of its author. -/
def headAt (timestamp : UInt64) : AuthorHeads :=
  AuthorHeads.insert .empty ⟨.replicate 32 1⟩ timestamp

/-- The head of a record put is no news, and a newer one is. -/
theorem heads_held_imports :
    (∃ s', Fs.Store.hasNewsForUs (replica 5) (headAt 7) (storeAfter imports) =
        .ok none s') ∧
      ∃ s', Fs.Store.hasNewsForUs (replica 5) (headAt 8) (storeAfter imports) =
        .ok (some 1) s' := by
  have hrun := heads_held (Tables.empty : Tables transparent) calm Tables.headed_empty
    (fun _ => ⟨rfl, rfl⟩) imports
  have halong : Fs.Store.Along (fun s event => ∀ op, event = .does op → op.RemovesEmpty s)
      (Fs.Store.opened Tables.empty calm : Fs.Store transparent) (imports.map .does) := by
    refine ⟨?_, ?_, trivial⟩
    · rintro op ⟨⟩ ns ⟨hremoves, -⟩
      cases hremoves
    · rintro op ⟨⟩ ns ⟨hremoves, -⟩
      cases hremoves
  exact ⟨hrun.2 halong (replica 5) (headAt 7),
    hrun.2 halong (replica 5) (headAt 8)⟩

/-- **A head outlives its record**: after the replica was removed and imported again nothing is
held, and the head of the record that was is no news. -/
theorem head_outlives_record :
    (storeAfter reimports).live.records.rows = [] ∧ ¬ (storeAfter reimports).live.Headed ∧
      (storeAfter reimports).live.news (replica 5) (headAt 7) = 1 ∧
      ∃ s', Fs.Store.hasNewsForUs (replica 5) (headAt 7) (storeAfter reimports) =
        .ok none s' := by
  have hrows : (storeAfter reimports).live.records.rows = [] := rfl
  have hrow : ((storeAfter reimports).live.latestPerAuthor.get
      (toLex (replica 5, ⟨.replicate 32 1⟩))).isSome = true := rfl
  refine ⟨hrows, fun hheaded => ?_, rfl, _, rfl⟩
  obtain ⟨_, e, he, -⟩ := (hheaded.row _ _).mp hrow
  rw [hrows] at he
  cases he

end MeePdn.Testing
