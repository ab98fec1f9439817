import MeePdn.Grouped
import MeePdn.PdnStore.Fs.Tables

/-!
# The iterator over a query's entries

`Query` of `store.rs`, and the iterator over its entries in `store/fs/query.rs`, with the helpers of
`store/fs/ranges.rs` and `store/util.rs`. A flat query reads the records table; a query for the
latest entry of each key reads the index, looks each row up among the records and holds back one
entry until the key changes.

## Main definitions

* `Query` — a query.
* `LatestPerKeySelector.push` — the entry held back, and what comes of one more.
* `KeyAuthorRange.turn`, `KeyAuthorRange.next` — one turn of the loop over the index, and the loop.
* `QueryIterator` — the iterator; `QueryIterator.Yields` — the entries it yields before it ends.

## Main results

* `KeyAuthorRange.remaining_turn` — a turn of the loop takes nothing but the entry it breaks with
  from the entries to come.
* `QueryIterator.yields_remaining` — an iterator yields the entries to come, up to its limit.
-/

namespace MeePdn.PdnStore.Fs

/-! ## Queries -/

/-- `AuthorFilter`. -/
inductive AuthorFilter where
  /-- Matches any author. -/
  | any
  /-- Matches exactly the provided author. -/
  | exact (author : AuthorId)
deriving DecidableEq

/-- `AuthorFilter::matches`. -/
def AuthorFilter.Matches : AuthorFilter → AuthorId → Prop
  | .any, _ => True
  | .exact a, author => a = author

instance : ∀ (filter : AuthorFilter) (author : AuthorId), Decidable (filter.Matches author)
  | .any, _ => inferInstanceAs (Decidable True)
  | .exact a, author => inferInstanceAs (Decidable (a = author))

/-- `QueryKind`. -/
inductive QueryKind where
  /-- All entries, ordered by author, then key. -/
  | flat
  /-- The latest entry for a key which has entries from multiple authors, ordered by key. -/
  | singleLatestPerKey
deriving DecidableEq

/-- `Query`. -/
structure Query where
  kind : QueryKind
  filterAuthor : AuthorFilter
  filterKey : KeyFilter
  limit : Option UInt64
  includeEmpty : Bool

/-- `Query::all`. -/
def Query.all : Query := ⟨.flat, .any, .any, none, false⟩

/-- `IndexKind`. -/
inductive IndexKind where
  | authorKey (range : AuthorFilter) (keyFilter : KeyFilter)
  | keyAuthor (range : KeyFilter) (authorFilter : AuthorFilter) (latestPerKey : Bool)

/-- `From<&Query> for IndexKind`. -/
def IndexKind.ofQuery (query : Query) : IndexKind :=
  match query.kind with
  | .flat => .authorKey query.filterAuthor query.filterKey
  | .singleLatestPerKey => .keyAuthor query.filterKey query.filterAuthor true

/-! ## Ranges -/

/-- `RecordsRange::next_filtered`, on the entries of the range that are left. -/
def nextFiltered (filter : SignedEntry → Bool) :
    List SignedEntry → Option SignedEntry × List SignedEntry
  | [] => (none, [])
  | e :: range => if filter e then (some e, range) else nextFiltered filter range

/-- `RecordsByKeyRange::next_filtered`, on the rows of the range that are left: a row without a
record is passed over. -/
def nextByKey (records : Records) (filter : ByKeyId → Bool) :
    List ByKeyId → Option SignedEntry × List ByKeyId
  | [] => (none, [])
  | row :: range =>
    if filter row then
      match records.get ⟨row.ns, row.author, row.key⟩ with
      | some e => (some e, range)
      | none => nextByKey records filter range
    else nextByKey records filter range

/-! ## The selector -/

/-- `LatestPerKeySelector`: the entry held back. -/
structure LatestPerKeySelector where
  pending : Option SignedEntry

/-- `SelectorRes`. -/
inductive SelectorRes where
  /-- The iterator is finished. -/
  | finished
  /-- The selection is not yet finished, keep pushing more items. -/
  | continues
  /-- The selection yielded an entry. -/
  | some (e : SignedEntry)

/-- `LatestPerKeySelector::push`. -/
def LatestPerKeySelector.push (selector : LatestPerKeySelector) :
    Option SignedEntry → SelectorRes × LatestPerKeySelector
  | none =>
    match selector.pending with
    | some e => (.some e, ⟨none⟩)
    | none => (.finished, ⟨none⟩)
  | some e =>
    match selector.pending with
    | none => (.continues, ⟨some e⟩)
    | some last =>
      if last.key = e.key then
        (.continues, ⟨some (if last.stamp < e.stamp then e else last)⟩)
      else (.some last, ⟨some e⟩)

/-! ## The iterator -/

section Iterator

variable (blake3 : List UInt8 → Bytes 32)

/-- `Record::is_empty`, `value_is_empty`. -/
def IsEmpty (e : SignedEntry) : Prop := e.contentHash = Hash.empty blake3

instance (e : SignedEntry) : Decidable (IsEmpty blake3 e) :=
  inferInstanceAs (Decidable (e.contentHash = Hash.empty blake3))

/-- Whether an entry is skipped: it is empty and no empty entries were requested. -/
def Query.Skips (query : Query) (e : SignedEntry) : Prop :=
  query.includeEmpty = false ∧ IsEmpty blake3 e

instance (query : Query) (e : SignedEntry) : Decidable (query.Skips blake3 e) :=
  inferInstanceAs (Decidable (_ ∧ _))

/-- `QueryRange::KeyAuthor`. -/
structure KeyAuthorRange where
  records : Records
  /-- The rows of the index that are left. -/
  rows : List ByKeyId
  authorFilter : AuthorFilter
  selector : Option LatestPerKeySelector

namespace KeyAuthorRange

/-- One turn of the loop in `QueryIterator::next`: the range after it and, if it breaks, what it
breaks with. -/
def turn (query : Query) (range : KeyAuthorRange) :
    Option (Option SignedEntry) × KeyAuthorRange :=
  let (next, rows) := nextByKey range.records (fun row => range.authorFilter.Matches row.author)
    range.rows
  match range.selector with
  | none =>
    let range := { range with rows := rows }
    if ∃ e ∈ next, query.Skips blake3 e then (none, range) else (some next, range)
  | some selector =>
    let (res, selector) := selector.push next
    let range := { range with rows := rows, selector := some selector }
    match res with
    | .continues => (none, range)
    | .finished => (some none, range)
    | .some e => if query.Skips blake3 e then (none, range) else (some (some e), range)

/-- How many turns the loop may still make. -/
def size (range : KeyAuthorRange) : ℕ :=
  2 * range.rows.length + if (range.selector.bind LatestPerKeySelector.pending).isSome then 1 else 0

/-- The entry of a row of the index whose author passes the filter. -/
def entryOf (range : KeyAuthorRange) (row : ByKeyId) : Option SignedEntry :=
  if range.authorFilter.Matches row.author then range.records.get ⟨row.ns, row.author, row.key⟩
  else none

/-- The entries of the rows that are left. -/
def entries (range : KeyAuthorRange) : List SignedEntry := range.rows.filterMap range.entryOf

lemma nextByKey_cases (range : KeyAuthorRange) :
    nextByKey range.records (fun row => range.authorFilter.Matches row.author) range.rows =
        (none, []) ∧ range.entries = [] ∨
      ∃ e rows, nextByKey range.records (fun row => range.authorFilter.Matches row.author)
          range.rows = (some e, rows) ∧
        range.entries = e :: rows.filterMap range.entryOf ∧ rows.length < range.rows.length := by
  unfold entries
  induction range.rows with
  | nil => exact .inl ⟨rfl, rfl⟩
  | cons row rows ih => grind [nextByKey, entryOf]

/-- What a selector leaves of the entries to come. -/
def selected : Option LatestPerKeySelector → List SignedEntry → List SignedEntry
  | none, l => l
  | some ⟨none⟩, l => Grouped.greatest (fun e => numbers e.key) SignedEntry.stamp l
  | some ⟨some last⟩, l => Grouped.greatestFrom (fun e => numbers e.key) SignedEntry.stamp last l

/-- The entries still to be yielded. -/
def remaining (query : Query) (range : KeyAuthorRange) : List SignedEntry :=
  (selected range.selector range.entries).filter fun e => ¬ query.Skips blake3 e

/-- **A turn of the loop takes nothing but the entry it breaks with from the entries to come**, and
where it does not break the loop comes closer to its end.

**Proof sketch.** By the row that is next. Where there is none, the entry held back is the last one
to come. Where there is one, an entry with the key of the one held back changes which of the two is
held back, and an entry with another key lets it go. -/
lemma remaining_turn (query : Query) (range : KeyAuthorRange) :
    (∃ range', range.turn blake3 query = (none, range') ∧
        range'.remaining blake3 query = range.remaining blake3 query ∧ range'.size < range.size) ∨
      (∃ range', range.turn blake3 query = (some none, range') ∧
        range.remaining blake3 query = []) ∨
      ∃ e range', range.turn blake3 query = (some (some e), range') ∧
        range.remaining blake3 query = e :: range'.remaining blake3 query := by
  have hkey : ∀ {a b : SignedEntry}, numbers a.key = numbers b.key ↔ a.key = b.key := numbers_inj
  obtain ⟨records, rows, authorFilter, selector⟩ := range
  rcases nextByKey_cases ⟨records, rows, authorFilter, selector⟩ with
    ⟨hnext, hentries⟩ | ⟨e, rest, hnext, hentries, hlt⟩
  · unfold turn remaining
    rw [hnext, hentries]
    rcases selector with _ | ⟨_ | last⟩
    · exact .inr (.inl ⟨⟨records, [], authorFilter, none⟩, by simp, rfl⟩)
    · exact .inr (.inl ⟨⟨records, [], authorFilter, some ⟨none⟩⟩, rfl, rfl⟩)
    · by_cases hskips : query.Skips blake3 last
      · refine .inl ⟨⟨records, [], authorFilter, some ⟨none⟩⟩, ?_, ?_, ?_⟩
        · simp [LatestPerKeySelector.push, hskips]
        · simp [selected, entries, Grouped.greatest, Grouped.greatestFrom, hskips]
        · simp [size]
      · refine .inr (.inr ⟨last, ⟨records, [], authorFilter, some ⟨none⟩⟩, ?_, ?_⟩)
        · simp [LatestPerKeySelector.push, hskips]
        · simp [selected, entries, Grouped.greatest, Grouped.greatestFrom, hskips]
  · unfold turn remaining
    rw [hnext, hentries]
    have hlt : rest.length < rows.length := hlt
    rcases selector with _ | ⟨_ | last⟩
    · by_cases hskips : query.Skips blake3 e
      · refine .inl ⟨⟨records, rest, authorFilter, none⟩, by simp [hskips], ?_, by simp [size, hlt]⟩
        rw [selected, selected, List.filter_cons_of_neg (by simpa using hskips)]
        rfl
      · refine .inr (.inr ⟨e, ⟨records, rest, authorFilter, none⟩, by simp [hskips], ?_⟩)
        rw [selected, selected, List.filter_cons_of_pos (by simpa using hskips)]
        rfl
    · refine .inl ⟨⟨records, rest, authorFilter, some ⟨some e⟩⟩, rfl, rfl, ?_⟩
      simp only [size, Option.bind_some, Option.isSome_some, Option.isSome_none, if_true]
      simp
      omega
    · by_cases hsame : last.key = e.key
      · -- the two have one key, and one of them is held back
        refine .inl ⟨⟨records, rest, authorFilter,
          some ⟨some (if last.stamp < e.stamp then e else last)⟩⟩, ?_, ?_, ?_⟩
        · simp [LatestPerKeySelector.push, hsame]
        · rw [selected, selected, Grouped.greatestFrom, if_pos (hkey.mpr hsame)]
          rfl
        · simp [size]
          omega
      · have hne : numbers last.key ≠ numbers e.key := fun h => hsame (hkey.mp h)
        by_cases hskips : query.Skips blake3 last
        · refine .inl ⟨⟨records, rest, authorFilter, some ⟨some e⟩⟩, ?_, ?_, ?_⟩
          · simp [LatestPerKeySelector.push, hsame, hskips]
          · rw [selected, selected, Grouped.greatestFrom, if_neg hne,
              List.filter_cons_of_neg (by simpa using hskips)]
            rfl
          · simp [size]
            omega
        · refine .inr (.inr ⟨last, ⟨records, rest, authorFilter, some ⟨some e⟩⟩, ?_, ?_⟩)
          · simp [LatestPerKeySelector.push, hsame, hskips]
          · rw [selected, selected, Grouped.greatestFrom, if_neg hne,
              List.filter_cons_of_pos (by simpa using hskips)]
            rfl

lemma size_turn {query : Query} {range range' : KeyAuthorRange}
    (h : range.turn blake3 query = (none, range')) : range'.size < range.size := by
  rcases remaining_turn blake3 query range with
    ⟨_, hturn, -, hlt⟩ | ⟨_, hturn, -⟩ | ⟨_, _, hturn, -⟩
  · cases h.symm.trans hturn
    exact hlt
  · cases h.symm.trans hturn
  · cases h.symm.trans hturn

/-- The loop in `QueryIterator::next`. -/
def next (query : Query) (range : KeyAuthorRange) : Option SignedEntry × KeyAuthorRange :=
  match h : range.turn blake3 query with
  | (some next, range') => (next, range')
  | (none, range') =>
    have := size_turn blake3 h
    next query range'
termination_by range.size

lemma next_of_break {query : Query} {range range' : KeyAuthorRange} {e : Option SignedEntry}
    (h : range.turn blake3 query = (some e, range')) : range.next blake3 query = (e, range') := by
  rw [next]
  split
  · next h' =>
    cases h.symm.trans h'
    rfl
  · next h' => cases h.symm.trans h'

lemma next_of_continue {query : Query} {range range' : KeyAuthorRange}
    (h : range.turn blake3 query = (none, range')) :
    range.next blake3 query = range'.next blake3 query := by
  rw [next]
  split
  · next h' => cases h.symm.trans h'
  · next h' =>
    cases h.symm.trans h'
    rfl

lemma remaining_next (query : Query) (range : KeyAuthorRange) :
    (∃ range', range.next blake3 query = (none, range') ∧ range.remaining blake3 query = []) ∨
      ∃ e range', range.next blake3 query = (some e, range') ∧
        range.remaining blake3 query = e :: range'.remaining blake3 query := by
  induction hn : range.size using Nat.strong_induction_on generalizing range with
  | _ n ih =>
    rcases remaining_turn blake3 query range with
      ⟨range', hturn, hsame, hlt⟩ | ⟨range', hturn, hnone⟩ | ⟨e, range', hturn, hmore⟩
    · rw [next_of_continue blake3 hturn, ← hsame]
      exact ih _ (hn ▸ hlt) range' rfl
    · exact .inl ⟨range', next_of_break blake3 hturn, hnone⟩
    · exact .inr ⟨e, range', next_of_break blake3 hturn, hmore⟩

end KeyAuthorRange

/-- `QueryRange`. -/
inductive QueryRange where
  | authorKey (range : List SignedEntry) (keyFilter : KeyFilter)
  | keyAuthor (range : KeyAuthorRange)

namespace QueryRange

/-- The entries of a range as `QueryIterator::next` takes them. -/
def next (query : Query) : QueryRange → Option SignedEntry × QueryRange
  | .authorKey range keyFilter =>
    let (next, range) :=
      nextFiltered (fun e => keyFilter.Matches e.key ∧ ¬ query.Skips blake3 e) range
    (next, .authorKey range keyFilter)
  | .keyAuthor range =>
    let (next, range) := range.next blake3 query
    (next, .keyAuthor range)

/-- The entries still to be yielded. -/
def remaining (query : Query) : QueryRange → List SignedEntry
  | .authorKey range keyFilter =>
    range.filter fun e => keyFilter.Matches e.key ∧ ¬ query.Skips blake3 e
  | .keyAuthor range => range.remaining blake3 query

lemma nextFiltered_cases (filter : SignedEntry → Bool) (range : List SignedEntry) :
    nextFiltered filter range = (none, []) ∧ range.filter filter = [] ∨
      ∃ e rest, nextFiltered filter range = (some e, rest) ∧
        range.filter filter = e :: rest.filter filter := by
  induction range with
  | nil => exact .inl ⟨rfl, rfl⟩
  | cons e range ih => grind [nextFiltered]

/-- A range yields the first of the entries to come. -/
lemma remaining_next (query : Query) (range : QueryRange) :
    (∃ range', range.next blake3 query = (none, range') ∧ range.remaining blake3 query = []) ∨
      ∃ e range', range.next blake3 query = (some e, range') ∧
        range.remaining blake3 query = e :: range'.remaining blake3 query := by
  cases range with
  | authorKey range keyFilter =>
    rcases nextFiltered_cases (fun e => keyFilter.Matches e.key ∧ ¬ query.Skips blake3 e) range with
      ⟨hnext, hnone⟩ | ⟨e, rest, hnext, hmore⟩
    · exact .inl ⟨.authorKey [] keyFilter, by simp only [next, hnext], hnone⟩
    · exact .inr ⟨e, .authorKey rest keyFilter, by simp only [next, hnext], hmore⟩
  | keyAuthor range =>
    rcases KeyAuthorRange.remaining_next blake3 query range with
      ⟨range', hnext, hnone⟩ | ⟨e, range', hnext, hmore⟩
    · exact .inl ⟨.keyAuthor range', by simp only [next, hnext], hnone⟩
    · exact .inr ⟨e, .keyAuthor range', by simp only [next, hnext], hmore⟩

end QueryRange

/-- `QueryIterator`. -/
structure QueryIterator where
  range : QueryRange
  query : Query
  count : UInt64

namespace QueryIterator

/-- `QueryIterator::new`. -/
def new (records : Records) (index : RecordsByKey) (ns : NamespaceId) (query : Query) :
    QueryIterator :=
  let range :=
    match IndexKind.ofQuery query with
    | .authorKey range keyFilter =>
      match range with
      -- single author: both author and key are selected via the range
      | .exact author =>
        .authorKey (PdnStore.StoreInstance.range records (.authorKey ns author keyFilter)) .any
      -- no author set: full table scan with the provided key filter
      | .any => .authorKey (PdnStore.StoreInstance.range records (.ofNamespace ns)) keyFilter
    | .keyAuthor range authorFilter latestPerKey =>
      .keyAuthor ⟨records, index.rows.filter fun row => (ByKeyBounds.new ns range).Contains row,
        authorFilter, if latestPerKey then some ⟨none⟩ else none⟩
  ⟨range, query, 0⟩

/-- `QueryIterator::next`. -/
def next (it : QueryIterator) : Option SignedEntry × QueryIterator :=
  if ∃ limit ∈ it.query.limit, limit ≤ it.count then (none, it)
  else
    let (next, range) := it.range.next blake3 it.query
    (next, { it with range := range, count := it.count + 1 })

lemma next_of_below {it : QueryIterator} {range' : QueryRange} {e : Option SignedEntry}
    (hlimit : ¬ ∃ limit ∈ it.query.limit, limit ≤ it.count)
    (hnext : it.range.next blake3 it.query = (e, range')) :
    it.next blake3 = (e, { it with range := range', count := it.count + 1 }) := by
  rw [next, if_neg hlimit, hnext]

/-- The entries an iterator yields before it ends. -/
inductive Yields : QueryIterator → List SignedEntry → Prop
  | done {it it' : QueryIterator} (h : it.next blake3 = (none, it')) : Yields it []
  | more {it it' : QueryIterator} {e : SignedEntry} {l : List SignedEntry}
    (h : it.next blake3 = (some e, it')) (hrest : Yields it' l) : Yields it (e :: l)

/-- What the limit leaves of the entries to come. -/
def limited (it : QueryIterator) (l : List SignedEntry) : List SignedEntry :=
  it.query.limit.elim l fun limit => l.take (limit.toNat - it.count.toNat)

/-- **An iterator yields the entries to come, up to its limit.**

**Proof sketch.** By induction on the entries to come. At the limit no more are taken; below it the
first one is, and the count does not overflow. -/
lemma yields_remaining (it : QueryIterator) :
    it.Yields blake3 (it.limited (it.range.remaining blake3 it.query)) := by
  induction hl : it.range.remaining blake3 it.query generalizing it with
  | nil =>
    have hnil : it.limited [] = [] := by
      unfold limited
      cases it.query.limit <;> simp
    rw [hnil]
    by_cases hlimit : ∃ limit ∈ it.query.limit, limit ≤ it.count
    · exact .done (if_pos hlimit)
    · rcases it.range.remaining_next blake3 it.query with ⟨range', hnext, -⟩ | ⟨e, range', -, hmore⟩
      · exact .done (next_of_below blake3 hlimit hnext)
      · simp [hl] at hmore
  | cons e l ih =>
    by_cases hlimit : ∃ limit ∈ it.query.limit, limit ≤ it.count
    · obtain ⟨limit, hsome, hle⟩ := hlimit
      have hzero : limit.toNat - it.count.toNat = 0 := by
        have := UInt64.le_iff_toNat_le.mp hle
        omega
      rw [limited, hsome, Option.elim_some, hzero]
      exact .done (if_pos ⟨limit, hsome, hle⟩)
    · rcases it.range.remaining_next blake3 it.query with
        ⟨range', -, hnone⟩ | ⟨e', range', hnext, hmore⟩
      · simp [hl] at hnone
      · obtain ⟨rfl, hrest⟩ := List.cons.inj (hl.symm.trans hmore)
        let it' : QueryIterator := { it with range := range', count := it.count + 1 }
        have hstep : it.limited (e :: l) = e :: it'.limited l := by
          unfold limited
          cases hsome : it.query.limit with
          | none => rfl
          | some limit =>
            have hlt : it.count < limit :=
              UInt64.not_le.mp fun hle => hlimit ⟨limit, by simp [hsome], hle⟩
            have hcount : (it.count + 1).toNat = it.count.toNat + 1 := by
              have h := UInt64.lt_iff_toNat_lt.mp hlt
              have hmax := limit.toNat_lt
              rw [UInt64.toNat_add, UInt64.toNat_one, Nat.mod_eq_of_lt (by omega)]
            have hsucc : limit.toNat - it.count.toNat =
                limit.toNat - (it.count + 1).toNat + 1 := by
              have h := UInt64.lt_iff_toNat_lt.mp hlt
              omega
            rw [Option.elim_some, Option.elim_some, hsucc, List.take_succ_cons]
        rw [hstep]
        exact .more (next_of_below blake3 hlimit hnext) (ih it' hrest.symm)

end QueryIterator

end Iterator

end MeePdn.PdnStore.Fs
