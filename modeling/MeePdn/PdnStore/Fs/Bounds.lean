import MeePdn.PdnStore.Fs

/-!
# Bounds by author and key

`store/fs/bounds.rs`: the bounds a query sets on the records table, ordered by namespace, author and
key, and on the index `records_by_key`, ordered by namespace, key and author. A key that is to start
with given bytes is bounded by the bytes themselves and by the bytes incremented. The increment
keeps the length, so where the bytes end in 255 some keys below it do not start with them.

## Main definitions

* `KeyFilter` — which keys are wanted.
* `RecordsBounds.authorKey` — the bounds of an author's keys in the records table.
* `ByKeyId`, `ByKeyBounds` — the keys of the index and bounds on them.
* `overshoots` — the keys a bound on the start of a key lets through that do not start so.

## Main results

* `between_iff` — the keys between given bytes and the bytes incremented.
* `RecordsBounds.contains_authorKey`, `ByKeyBounds.contains_new` — what the bounds hold.
-/

namespace MeePdn.PdnStore

/-! ## Keys that start with given bytes -/

/-- `KeyFilter`. -/
inductive KeyFilter where
  /-- Matches any key. -/
  | any
  /-- Only keys that are exactly the provided value. -/
  | exact (key : List UInt8)
  /-- All keys that start with the provided value. -/
  | startsWith (start : List UInt8)
deriving DecidableEq

/-- `KeyFilter::matches`. -/
def KeyFilter.Matches : KeyFilter → List UInt8 → Prop
  | .any, _ => True
  | .exact k, key => k = key
  | .startsWith p, key => p <+: key

instance : ∀ (filter : KeyFilter) (key : List UInt8), Decidable (filter.Matches key)
  | .any, _ => inferInstanceAs (Decidable True)
  | .exact k, key => inferInstanceAs (Decidable (k = key))
  | .startsWith p, key => inferInstanceAs (Decidable (p <+: key))

/-- The keys from given bytes up to the bytes incremented, or without end if they are all 255. -/
def Between (start key : List UInt8) : Prop :=
  ¬ numbers key < numbers start ∧
    ((incrementByOne start).1 = true → numbers key < numbers (incrementByOne start).2)

/-- The keys between given bytes and the bytes incremented that do not start with the bytes: those
made of the incremented bytes without some of the zeros they end in. -/
def overshoots : List UInt8 → List (List UInt8)
  | [] => []
  | b :: l =>
    if (incrementByOne l).1 then (overshoots l).map (b :: ·)
    else if b ≠ 255 then (List.range l.length).map fun n => (b + 1) :: List.replicate n 0
    else []

/-- A list lies before zeros exactly when it is fewer of them. -/
lemma lt_replicate_zero_iff {n : ℕ} {l : List ℕ} :
    l < List.replicate n 0 ↔ ∃ m < n, l = List.replicate m 0 := by
  induction n generalizing l with
  | zero => simp
  | succ n ih =>
    cases l with
    | nil => exact iff_of_true (by simp [List.replicate_succ]) ⟨0, Nat.succ_pos n, rfl⟩
    | cons x l =>
      rw [List.replicate_succ, List.cons_lt_cons_iff, ih]
      constructor
      · rintro (hx | ⟨rfl, m, hm, rfl⟩)
        · exact absurd hx (Nat.not_lt_zero x)
        · exact ⟨m + 1, Nat.succ_lt_succ hm, rfl⟩
      · rintro ⟨m, hm, hl⟩
        cases m with
        | zero => cases hl
        | succ m =>
          obtain ⟨rfl, rfl⟩ := List.cons.inj hl
          exact .inr ⟨rfl, m, Nat.lt_of_succ_lt_succ hm, rfl⟩

lemma incrementByOne_eq_false_iff {l : List UInt8} :
    (incrementByOne l).1 = false ↔ ∀ b ∈ l, b = 255 := by
  induction l with
  | nil => simp [incrementByOne]
  | cons b l ih =>
    rw [incrementByOne, List.forall_mem_cons, ← ih]
    cases hl : incrementByOne l with
    | mk carried l' =>
      cases carried with
      | true => simp
      | false => by_cases hb : b = 255 <;> simp [hb]

lemma overshoots_of_eq_false {l : List UInt8} (h : (incrementByOne l).1 = false) :
    overshoots l = [] := by
  cases l with
  | nil => rfl
  | cons b l =>
    have hall := List.forall_mem_cons.mp (incrementByOne_eq_false_iff.mp h)
    have hl : (incrementByOne l).1 = false := incrementByOne_eq_false_iff.mpr hall.2
    simp [overshoots, hl, hall.1]

lemma numbers_inj {a b : List UInt8} : numbers a = numbers b ↔ a = b :=
  (List.map_injective_iff.mpr fun _ _ h => UInt8.toNat_inj.mp h).eq_iff

lemma toNat_add_one {b : UInt8} (h : b ≠ 255) : (b + 1).toNat = b.toNat + 1 := by
  have hb : b.toNat ≠ 255 := fun heq => h (UInt8.toNat_inj.mp heq)
  have hlt := b.toNat_lt
  rw [UInt8.toNat_add]
  simp
  omega

/-- **The keys between given bytes and the bytes incremented** are those that start with the bytes
and those that overshoot.

**Proof sketch.** By induction on the bytes. Where those after the first can be incremented, the
first byte of the key is the first byte. Where they cannot, the first byte of the key is that byte,
or it is the next one and fewer zeros follow it than bytes follow the first. -/
lemma between_iff {start key : List UInt8} :
    Between start key ↔ start <+: key ∨ key ∈ overshoots start := by
  induction start generalizing key with
  | nil => exact iff_of_true (by simp [Between, incrementByOne]) (.inl List.nil_prefix)
  | cons b start ih =>
    cases key with
    | nil =>
      refine iff_of_false (fun h => by simp [Between] at h) ?_
      rintro (h | h)
      · simp at h
      · rw [overshoots] at h
        split_ifs at h <;> simp at h
    | cons c key =>
      have hbc : c.toNat = b.toNat ↔ b = c := by rw [UInt8.toNat_inj, eq_comm]
      have hle : ¬ numbers (c :: key) < numbers (b :: start) ↔
          b.toNat < c.toNat ∨ b = c ∧ ¬ numbers key < numbers start := by
        simp only [numbers, List.map_cons, List.cons_lt_cons_iff, hbc]
        grind
      have ih := @ih key
      unfold Between at ih ⊢
      rw [hle, List.cons_prefix_cons, incrementByOne, overshoots]
      cases hinc : incrementByOne start with
      | mk carried next =>
        rw [hinc] at ih
        cases carried with
        | true =>
          simp only [forall_const, if_true, numbers, List.map_cons, List.cons_lt_cons_iff,
            List.mem_map, List.cons.injEq] at ih ⊢
          grind
        | false =>
          have hnone : overshoots start = [] := overshoots_of_eq_false (by rw [hinc])
          have hnext : next = List.replicate start.length 0 := by grind [incrementByOne_spec]
          have hstart : ¬ numbers key < numbers start ↔ start <+: key := by
            simpa [hnone] using ih
          by_cases hb : b = 255
          · have hc := c.toNat_lt
            simp only [hb, hstart]
            simp
            omega
          · have hzeros : numbers key < numbers next ↔
                ∃ n < start.length, key = List.replicate n 0 := by
              rw [hnext, numbers, numbers, List.map_replicate, UInt8.toNat_zero,
                lt_replicate_zero_iff]
              refine exists_congr fun n => and_congr_right fun _ => ?_
              rw [← numbers_inj (b := List.replicate n 0), numbers, numbers, List.map_replicate,
                UInt8.toNat_zero]
            have hcb : c.toNat = b.toNat + 1 ↔ b + 1 = c := by
              rw [← toNat_add_one hb, eq_comm, UInt8.toNat_inj]
            simp only [ne_eq, hb, not_false_eq_true, if_true, forall_const, numbers, List.map_cons,
              List.cons_lt_cons_iff, toNat_add_one hb, hstart, hzeros, hcb]
            grind

lemma not_prefix_of_mem_overshoots {start key : List UInt8} (h : key ∈ overshoots start) :
    ¬ start <+: key := by
  induction start generalizing key with
  | nil => cases h
  | cons b start ih => grind [overshoots, toNat_add_one]

/-- The bytes a filter names. -/
def KeyFilter.bytes : KeyFilter → List UInt8
  | .any => []
  | .exact key => key
  | .startsWith start => start

/-- The keys the bounds of a filter let through. -/
def KeyFilter.Admits : KeyFilter → List UInt8 → Prop
  | .any, _ => True
  | .exact k, key => k = key
  | .startsWith start, key => Between start key

/-! ## Bytes of a fixed length -/

section Bytes

variable {n : ℕ} {bytes : Bytes n}

/-- Bytes of a fixed length, incremented. -/
def incremented (bytes : Bytes n) : Bytes n :=
  ⟨(incrementByOne bytes.toList).2, by rw [length_incrementByOne, bytes.length_toList]⟩

lemma bytes_eq_iff {bytes' : Bytes n} :
    bytes = bytes' ↔ numbers bytes.toList = numbers bytes'.toList := by
  rw [numbers_inj]
  exact ⟨congrArg Bytes.toList, Bytes.ext⟩

lemma lt_incremented_iff (h : (incrementByOne bytes.toList).1 = true) (bytes' : Bytes n) :
    numbers bytes'.toList < numbers (incremented bytes).toList ↔
      ¬ numbers bytes.toList < numbers bytes'.toList :=
  (incrementByOne_spec (bytes.length_toList.trans bytes'.length_toList.symm)).1 h

lemma not_lt_of_not_incremented (h : (incrementByOne bytes.toList).1 = false) (bytes' : Bytes n) :
    ¬ numbers bytes.toList < numbers bytes'.toList :=
  ((incrementByOne_spec (bytes.length_toList.trans bytes'.length_toList.symm)).2 h).1

lemma not_lt_zeros : ¬ numbers bytes.toList < numbers (Bytes.replicate n 0).toList := by
  have hlt := not_lt_replicate_zero (n := n) (l := numbers bytes.toList)
    (by simp [bytes.length_toList])
  simpa [Bytes.replicate] using hlt

end Bytes

lemma NamespaceId.eq_iff_numbers {ns ns' : NamespaceId} :
    ns = ns' ↔ numbers ns.bytes.toList = numbers ns'.bytes.toList := by
  obtain ⟨bytes⟩ := ns
  obtain ⟨bytes'⟩ := ns'
  rw [NamespaceId.mk.injEq, bytes_eq_iff]

lemma AuthorId.eq_iff_numbers {author author' : AuthorId} :
    author = author' ↔ numbers author.bytes.toList = numbers author'.bytes.toList := by
  obtain ⟨bytes⟩ := author
  obtain ⟨bytes'⟩ := author'
  rw [AuthorId.mk.injEq, bytes_eq_iff]

/-! ## Bounds on the records table -/

lemma RecordIdentifier.lt_iff_fields {id id' : RecordIdentifier} :
    id < id' ↔ numbers id.ns.bytes.toList < numbers id'.ns.bytes.toList ∨
      numbers id.ns.bytes.toList = numbers id'.ns.bytes.toList ∧
        (numbers id.author.bytes.toList < numbers id'.author.bytes.toList ∨
          numbers id.author.bytes.toList = numbers id'.author.bytes.toList ∧
            numbers id.key < numbers id'.key) := by
  rw [lt_iff]
  simp only [numbers, List.map_append]
  rw [append_lt_append_iff
    (by simp [id.author.bytes.length_toList, id'.author.bytes.length_toList])]

variable {ns : NamespaceId}

namespace RecordsBounds

/-- `RecordsBounds::author_key`. -/
def authorKey (ns : NamespaceId) (author : AuthorId) (filter : KeyFilter) : RecordsBounds :=
  let start : RecordIdentifier := ⟨ns, author, filter.bytes⟩
  let stop : Bound RecordIdentifier :=
    match filter with
    | .exact _ => .included start
    | _ =>
      if (incrementByOne filter.bytes).1 then
        .excluded ⟨ns, author, (incrementByOne filter.bytes).2⟩
      else if (incrementByOne author.bytes.toList).1 then
        .excluded ⟨ns, ⟨incremented author.bytes⟩, []⟩
      else namespaceEnd ns
  ⟨.included start, stop⟩

/-- The bounds of the keys from given bytes on hold the author's keys between the bytes and the
bytes incremented.

**Proof sketch.** Whichever of the key, the author and the namespace is incremented, the records
before the end that are not before the start are of the author, and their keys are before the key
incremented where that is the end. -/
lemma contains_startsWith {author : AuthorId} {start : List UInt8}
    {id : RecordIdentifier} :
    (authorKey ns author (.startsWith start)).Contains id ↔
      id.ns = ns ∧ id.author = author ∧ Between start id.key := by
  have hstart : (⟨ns, author, start⟩ : RecordIdentifier) ≤ id ↔ ¬ id < ⟨ns, author, start⟩ :=
    not_lt.symm
  rw [NamespaceId.eq_iff_numbers, AuthorId.eq_iff_numbers]
  unfold Between
  by_cases hkey : (incrementByOne start).1 = true
  · grind [authorKey, KeyFilter.bytes, Contains, RecordIdentifier.lt_iff_fields]
  · by_cases hnext : (incrementByOne author.bytes.toList).1 = true
    · have hcontains : (authorKey ns author (.startsWith start)).Contains id ↔
          (⟨ns, author, start⟩ : RecordIdentifier) ≤ id ∧
            id < ⟨ns, ⟨incremented author.bytes⟩, []⟩ := by
        simp only [authorKey, KeyFilter.bytes, Contains, hkey, hnext, if_true]
        rfl
      have hlt := lt_incremented_iff hnext id.author.bytes
      have hnil : ¬ numbers id.key < numbers [] := List.not_lt_nil _
      rw [hcontains, hstart, RecordIdentifier.lt_iff_fields, RecordIdentifier.lt_iff_fields]
      simp only [hkey, hlt, hnil]
      grind
    · have hcontains : (authorKey ns author (.startsWith start)).Contains id ↔
          (toEnd ns (.included ⟨ns, author, start⟩)).Contains id := by
        simp only [authorKey, KeyFilter.bytes, Contains, hkey, hnext, toEnd]
        rfl
      have hlast := not_lt_of_not_incremented (Bool.eq_false_of_not_eq_true hnext)
        id.author.bytes
      rw [hcontains, contains_toEnd, hstart, RecordIdentifier.lt_iff_fields]
      simp only [hkey]
      grind

/-- **The bounds of an author's keys hold what the filter's bounds let through.** -/
lemma contains_authorKey {author : AuthorId} {filter : KeyFilter}
    {id : RecordIdentifier} :
    (authorKey ns author filter).Contains id ↔
      id.ns = ns ∧ id.author = author ∧ filter.Admits id.key := by
  cases filter with
  | startsWith start => exact contains_startsWith
  | any =>
    have hsame : authorKey ns author .any = authorKey ns author (.startsWith []) := rfl
    have hall : Between [] id.key := between_iff.mpr (.inl List.nil_prefix)
    rw [hsame, contains_startsWith]
    simp [KeyFilter.Admits, hall]
  | exact key =>
    have hcontains : (authorKey ns author (.exact key)).Contains id ↔
        (⟨ns, author, key⟩ : RecordIdentifier) ≤ id ∧ id ≤ ⟨ns, author, key⟩ := Iff.rfl
    rw [hcontains, KeyFilter.Admits]
    constructor
    · rintro ⟨hle, hge⟩
      cases le_antisymm hle hge
      exact ⟨rfl, rfl, rfl⟩
    · rintro ⟨rfl, rfl, rfl⟩
      exact ⟨le_rfl, le_rfl⟩

end RecordsBounds

/-! ## Bounds on the index -/

/-- `RecordsByKeyId`: what `records_by_key` is keyed by. -/
structure ByKeyId where
  ns : NamespaceId
  key : List UInt8
  author : AuthorId
deriving DecidableEq

namespace ByKeyId

/-- What `redb` compares, field by field. -/
def ordinals (id : ByKeyId) : List ℕ ×ₗ List ℕ ×ₗ List ℕ :=
  toLex (numbers id.ns.bytes.toList, toLex (numbers id.key, numbers id.author.bytes.toList))

lemma ordinals_injective : Function.Injective ordinals := by
  rintro ⟨ns, key, author⟩ ⟨ns', key', author'⟩ h
  obtain ⟨hns, hrest⟩ := Prod.mk.inj (toLex_inj.mp h)
  obtain ⟨hkey, hauthor⟩ := Prod.mk.inj (toLex_inj.mp hrest)
  cases NamespaceId.eq_iff_numbers.mpr hns
  cases numbers_inj.mp hkey
  cases AuthorId.eq_iff_numbers.mpr hauthor
  rfl

instance : LinearOrder ByKeyId := LinearOrder.lift' ordinals ordinals_injective

lemma lt_iff_fields {id id' : ByKeyId} :
    id < id' ↔ numbers id.ns.bytes.toList < numbers id'.ns.bytes.toList ∨
      numbers id.ns.bytes.toList = numbers id'.ns.bytes.toList ∧
        (numbers id.key < numbers id'.key ∨ numbers id.key = numbers id'.key ∧
          numbers id.author.bytes.toList < numbers id'.author.bytes.toList) := by
  have hlt : id < id' ↔ id.ordinals < id'.ordinals := Iff.rfl
  rw [hlt, ordinals, ordinals, Prod.Lex.toLex_lt_toLex, Prod.Lex.toLex_lt_toLex]

end ByKeyId

section Bound

variable {α : Type} [LinearOrder α]

/-- What lies at or after a bound. -/
def Bound.Starts : Bound α → α → Prop
  | .included a, b => a ≤ b
  | .excluded a, b => a < b
  | .unbounded, _ => True

/-- What lies at or before a bound. -/
def Bound.Stops : Bound α → α → Prop
  | .included a, b => b ≤ a
  | .excluded a, b => b < a
  | .unbounded, _ => True

instance : ∀ (bound : Bound α) (a : α), Decidable (bound.Starts a)
  | .included a, b => inferInstanceAs (Decidable (a ≤ b))
  | .excluded a, b => inferInstanceAs (Decidable (a < b))
  | .unbounded, _ => inferInstanceAs (Decidable True)

instance : ∀ (bound : Bound α) (a : α), Decidable (bound.Stops a)
  | .included a, b => inferInstanceAs (Decidable (b ≤ a))
  | .excluded a, b => inferInstanceAs (Decidable (b < a))
  | .unbounded, _ => inferInstanceAs (Decidable True)

end Bound

/-- Bounds on the index. -/
structure ByKeyBounds where
  start : Bound ByKeyId
  stop : Bound ByKeyId

namespace ByKeyBounds

/-- Whether a row lies within the bounds. -/
def Contains (bounds : ByKeyBounds) (id : ByKeyId) : Prop :=
  bounds.start.Starts id ∧ bounds.stop.Stops id

instance (bounds : ByKeyBounds) (id : ByKeyId) : Decidable (bounds.Contains id) :=
  inferInstanceAs (Decidable (_ ∧ _))

/-- The start of the next namespace, if there is one. -/
def namespaceEnd (ns : NamespaceId) : Bound ByKeyId :=
  if (incrementByOne ns.bytes.toList).1 then
    .excluded ⟨⟨incremented ns.bytes⟩, [], ⟨.replicate 32 0⟩⟩
  else .unbounded

/-- `ByKeyBounds::namespace`. -/
def ofNamespace (ns : NamespaceId) : ByKeyBounds :=
  ⟨.included ⟨ns, [], ⟨.replicate 32 0⟩⟩, namespaceEnd ns⟩

/-- `ByKeyBounds::new`. -/
def new (ns : NamespaceId) : KeyFilter → ByKeyBounds
  | .any => ofNamespace ns
  | .exact key =>
    ⟨.included ⟨ns, key, ⟨.replicate 32 0⟩⟩, .included ⟨ns, key, ⟨.replicate 32 255⟩⟩⟩
  | .startsWith start =>
    ⟨.included ⟨ns, start, ⟨.replicate 32 0⟩⟩,
      if (incrementByOne start).1 then .excluded ⟨ns, (incrementByOne start).2, ⟨.replicate 32 0⟩⟩
      else namespaceEnd ns⟩

variable {id : ByKeyId}

lemma start_le_iff {key : List UInt8} :
    (⟨ns, key, ⟨.replicate 32 0⟩⟩ : ByKeyId) ≤ id ↔
      ¬ (numbers id.ns.bytes.toList < numbers ns.bytes.toList ∨
        numbers id.ns.bytes.toList = numbers ns.bytes.toList ∧ numbers id.key < numbers key) := by
  rw [← not_lt, ByKeyId.lt_iff_fields]
  simp only [not_lt_zeros, and_false, or_false]

lemma stops_namespaceEnd :
    (namespaceEnd ns).Stops id ↔ ¬ numbers ns.bytes.toList < numbers id.ns.bytes.toList := by
  unfold namespaceEnd
  split_ifs with h
  · have hnil : ¬ numbers id.key < numbers [] := List.not_lt_nil _
    have hlt := lt_incremented_iff h id.ns.bytes
    rw [Bound.Stops, ByKeyId.lt_iff_fields]
    simp only [hlt, hnil, not_lt_zeros, and_false, or_false]
  · exact iff_of_true trivial (not_lt_of_not_incremented (Bool.eq_false_of_not_eq_true h) _)

/-- The bounds of the keys from given bytes on hold the rows of the keys between the bytes and the
bytes incremented. -/
lemma contains_startsWith {start : List UInt8} :
    (new ns (.startsWith start)).Contains id ↔ id.ns = ns ∧ Between start id.key := by
  rw [NamespaceId.eq_iff_numbers]
  simp only [new, Contains, Between]
  rw [Bound.Starts, start_le_iff]
  by_cases hkey : (incrementByOne start).1 = true
  · grind [Bound.Stops, ByKeyId.lt_iff_fields, not_lt_zeros]
  · rw [if_neg hkey, stops_namespaceEnd]
    simp only [hkey]
    grind

/-- **The bounds on the index hold the rows of the keys the filter's bounds let through.** -/
lemma contains_new {filter : KeyFilter} :
    (new ns filter).Contains id ↔ id.ns = ns ∧ filter.Admits id.key := by
  cases filter with
  | startsWith start => exact contains_startsWith
  | any =>
    have hsame : (new ns .any).Contains id ↔ (new ns (.startsWith [])).Contains id := Iff.rfl
    have hall : Between [] id.key := between_iff.mpr (.inl List.nil_prefix)
    rw [hsame, contains_startsWith]
    simp [KeyFilter.Admits, hall]
  | exact key =>
    have hlast : ¬ numbers (Bytes.replicate 32 255).toList < numbers id.author.bytes.toList := by
      apply not_lt_of_not_incremented
      rw [incrementByOne_eq_false_iff]
      simp [Bytes.replicate]
    have hcontains : (new ns (.exact key)).Contains id ↔
        (⟨ns, key, ⟨.replicate 32 0⟩⟩ : ByKeyId) ≤ id ∧
          id ≤ ⟨ns, key, ⟨.replicate 32 255⟩⟩ := Iff.rfl
    have hkey : key = id.key ↔ numbers id.key = numbers key := by rw [numbers_inj, eq_comm]
    rw [hcontains, start_le_iff, ← not_lt, ByKeyId.lt_iff_fields, NamespaceId.eq_iff_numbers,
      KeyFilter.Admits, hkey]
    simp only [hlast, and_false, or_false]
    grind

lemma contains_ofNamespace : (ofNamespace ns).Contains id ↔ id.ns = ns := by
  have hnew : (ofNamespace ns).Contains id ↔ (new ns .any).Contains id := Iff.rfl
  rw [hnew, contains_new]
  simp [KeyFilter.Admits]

end ByKeyBounds

end MeePdn.PdnStore
