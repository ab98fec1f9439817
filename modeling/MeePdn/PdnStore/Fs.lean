import MeePdn.Keyed
import MeePdn.PdnStore.Ranger

/-!
# A replica's records

`pdn-store/src/store/fs.rs` and `store/fs/bounds.rs`: the records of every namespace share one
table, and a replica reads its own part of it. A session reads a snapshot of the table and writes to
the live one.

## Main definitions

* `Records` — the records table.
* `RecordsBounds` — bounds on it, with those of one namespace.
* `StoreInstance.getRange` — the entries of a replica in a range.
* `StoreInstance.store` — what the reconciliation reads and writes of a replica.

## Main results

* `RecordsBounds.contains_ofNamespace` — the bounds of a namespace hold its records and no others.
* `StoreInstance.getRange_of_readable` — a range whose boundaries are of the namespace, or that is
  the whole set, reads the entries of the namespace in the range; any other range is refused.
* `StoreInstance.put_eq` — a put of an entry of the namespace keeps the greater entry at its key.
-/

namespace MeePdn.PdnStore

open Ranger (Range Reads Store)

/-- The records table, by namespace, author and key. -/
abbrev Records := Keyed.Table SignedEntry.id

/-! ## Bounds -/

/-- `std::ops::Bound`. -/
inductive Bound (α : Type) where
  | included (a : α)
  | excluded (a : α)
  | unbounded

/-- Bounds on the records table. -/
structure RecordsBounds where
  start : Bound RecordIdentifier
  stop : Bound RecordIdentifier

/-- `increment_by_one`: the last byte that is not 255 by one, the bytes after it to 0; false if all
bytes are 255. -/
def incrementByOne : List UInt8 → Bool × List UInt8
  | [] => (false, [])
  | b :: l =>
    match incrementByOne l with
    | (true, l') => (true, b :: l')
    | (false, l') => if b ≠ 255 then (true, (b + 1) :: l') else (false, 0 :: l')

@[simp] lemma length_incrementByOne (l : List UInt8) :
    (incrementByOne l).2.length = l.length := by
  induction l with
  | nil => rfl
  | cons b l ih => grind [incrementByOne]

namespace RecordsBounds

/-- Whether a record lies within the bounds. -/
def Contains (bounds : RecordsBounds) (id : RecordIdentifier) : Prop :=
  (match bounds.start with
    | .included a => a ≤ id
    | .excluded a => a < id
    | .unbounded => True) ∧
  (match bounds.stop with
    | .included a => id ≤ a
    | .excluded a => id < a
    | .unbounded => True)

instance (bounds : RecordsBounds) (id : RecordIdentifier) : Decidable (bounds.Contains id) := by
  obtain ⟨start, stop⟩ := bounds
  cases start <;> cases stop <;> unfold Contains <;> infer_instance

/-- `namespace_start`. -/
def namespaceStart (ns : NamespaceId) : Bound RecordIdentifier :=
  .included ⟨ns, ⟨.replicate 32 0⟩, []⟩

/-- `namespace_end`: the start of the next namespace, if there is one. -/
def namespaceEnd (ns : NamespaceId) : Bound RecordIdentifier :=
  if (incrementByOne ns.bytes.toList).1 then
    .excluded ⟨⟨⟨(incrementByOne ns.bytes.toList).2, by
      rw [length_incrementByOne, ns.bytes.length_toList]⟩⟩, ⟨.replicate 32 0⟩, []⟩
  else .unbounded

/-- `RecordsBounds::namespace`. -/
def ofNamespace (ns : NamespaceId) : RecordsBounds := ⟨namespaceStart ns, namespaceEnd ns⟩

/-- `from_start`. -/
def fromStart (ns : NamespaceId) (stop : Bound RecordIdentifier) : RecordsBounds :=
  ⟨namespaceStart ns, stop⟩

/-- `to_end`. -/
def toEnd (ns : NamespaceId) (start : Bound RecordIdentifier) : RecordsBounds :=
  ⟨start, namespaceEnd ns⟩

end RecordsBounds

/-! ## The order of identifiers -/

lemma append_lt_append_iff {a b c d : List ℕ} (h : a.length = b.length) :
    a ++ c < b ++ d ↔ a < b ∨ a = b ∧ c < d := by
  induction a generalizing b with
  | nil =>
    cases List.length_eq_zero_iff.mp h.symm
    simp
  | cons x a ih =>
    cases b with
    | nil => simp at h
    | cons y b =>
      simp only [List.cons_append, List.cons_lt_cons_iff, ih (Nat.succ.inj h), List.cons.injEq]
      tauto

lemma not_lt_replicate_zero {n : ℕ} {l : List ℕ} (h : n ≤ l.length) :
    ¬ l < List.replicate n 0 := by
  induction n generalizing l with
  | zero => simp
  | succ n ih =>
    cases l with
    | nil => simp at h
    | cons x l =>
      rw [List.replicate_succ, List.cons_lt_cons_iff]
      rintro (hx | ⟨-, hl⟩)
      · exact absurd hx (Nat.not_lt_zero x)
      · exact ih (by simpa using h) hl

/-- The numbers a list of bytes spells. -/
abbrev numbers (l : List UInt8) : List ℕ := l.map UInt8.toNat

/-- An increment is the next list of its length, or there is none. -/
lemma incrementByOne_spec {a b : List UInt8} (h : a.length = b.length) :
    ((incrementByOne a).1 = true → (numbers b < numbers (incrementByOne a).2 ↔
      ¬ numbers a < numbers b)) ∧
    ((incrementByOne a).1 = false → ¬ numbers a < numbers b ∧
      (incrementByOne a).2 = List.replicate a.length 0) := by
  induction a generalizing b with
  | nil =>
    cases List.length_eq_zero_iff.mp h.symm
    simp [incrementByOne]
  | cons x a ih =>
    cases b with
    | nil => simp at h
    | cons y b =>
      obtain ⟨hnext, hlast⟩ := ih (b := b) (Nat.succ.inj h)
      have hxy : x.toNat = y.toNat ↔ x = y := UInt8.toNat_inj
      simp only [incrementByOne, numbers, List.map_cons, List.cons_lt_cons_iff, List.length_cons]
      cases hc : incrementByOne a with
      | mk carried a' =>
        rw [hc] at hnext hlast
        cases carried with
        | true =>
          have hab := hnext rfl
          simp only [numbers] at hab
          refine ⟨fun _ => ?_, by simp⟩
          simp only [List.map_cons, List.cons_lt_cons_iff, hab]
          grind
        | false =>
          obtain ⟨hmax, rfl⟩ := hlast rfl
          simp only [numbers] at hmax
          have hzero := not_lt_replicate_zero (n := a.length) (l := b.map UInt8.toNat)
            (by simp [Nat.succ.inj h])
          by_cases hx : x = 255
          · simp only [hx, ne_eq, not_true_eq_false, if_false]
            refine ⟨by simp, fun _ => ⟨?_, by simp [List.replicate_succ]⟩⟩
            have := y.toNat_lt
            simp only [hmax, and_false, or_false]
            simp
            omega
          · simp only [ne_eq, hx, not_false_eq_true, if_true]
            have hx' : x.toNat < 255 := by
              have := x.toNat_lt
              have : x.toNat ≠ 255 := fun h => hx (UInt8.toNat_inj.mp h)
              omega
            have hsucc : (x + 1).toNat = x.toNat + 1 := by
              rw [UInt8.toNat_add]
              simp
              omega
            refine ⟨fun _ => ?_, by simp⟩
            simp only [List.map_cons, List.cons_lt_cons_iff, List.map_replicate, UInt8.toNat_zero,
              hzero, hmax, and_false, or_false, hsucc]
            omega

namespace RecordIdentifier

lemma ordinals_eq (id : RecordIdentifier) :
    id.ordinals = numbers id.ns.bytes.toList ++ numbers (id.author.bytes.toList ++ id.key) := by
  simp [ordinals, asBytes]

lemma lt_iff {id id' : RecordIdentifier} :
    id < id' ↔ numbers id.ns.bytes.toList < numbers id'.ns.bytes.toList ∨
      numbers id.ns.bytes.toList = numbers id'.ns.bytes.toList ∧
        numbers (id.author.bytes.toList ++ id.key) <
          numbers (id'.author.bytes.toList ++ id'.key) := by
  have hlt : id < id' ↔ id.ordinals < id'.ordinals := Iff.rfl
  rw [hlt, ordinals_eq, ordinals_eq, append_lt_append_iff
    (by simp [id.ns.bytes.length_toList, id'.ns.bytes.length_toList])]

lemma lt_start_iff {ns : NamespaceId} {id : RecordIdentifier} :
    id < ⟨ns, ⟨.replicate 32 0⟩, []⟩ ↔ numbers id.ns.bytes.toList < numbers ns.bytes.toList := by
  have hzero : ¬ numbers (id.author.bytes.toList ++ id.key) <
      numbers ((Bytes.replicate 32 0).toList ++ []) :=
    not_lt_replicate_zero (n := 32) (l := numbers (id.author.bytes.toList ++ id.key))
      (by simp [id.author.bytes.length_toList])
  rw [lt_iff]
  constructor
  · rintro (h | ⟨-, h⟩)
    · exact h
    · exact absurd h hzero
  · exact .inl

lemma ns_eq_iff {ns ns' : NamespaceId} :
    ns = ns' ↔ ¬ numbers ns.bytes.toList < numbers ns'.bytes.toList ∧
      ¬ numbers ns'.bytes.toList < numbers ns.bytes.toList := by
  constructor
  · rintro rfl
    simp
  · rintro ⟨h, h'⟩
    have heq : numbers ns.bytes.toList = numbers ns'.bytes.toList :=
      le_antisymm (not_lt.mp h') (not_lt.mp h)
    obtain ⟨bytes⟩ := ns
    obtain ⟨bytes'⟩ := ns'
    cases Bytes.ext (List.map_injective_iff.mpr (fun _ _ h => UInt8.toNat_inj.mp h) heq)
    rfl

lemma ns_of_between {x y id : RecordIdentifier} (hns : x.ns = y.ns) (hx : x ≤ id) (hy : id < y) :
    id.ns = x.ns := by
  have hle := mt lt_iff.mpr (not_lt.mpr hx)
  have hlt := lt_iff.mp hy
  rw [← hns] at hlt
  apply ns_eq_iff.mpr
  constructor
  · exact fun h => hle (.inl h)
  · intro h
    rcases hlt with h' | ⟨h', -⟩
    · exact lt_asymm h h'
    · exact absurd h' h.ne'

end RecordIdentifier

namespace RecordsBounds

lemma start_le_iff {ns : NamespaceId} {id : RecordIdentifier} :
    (⟨ns, ⟨.replicate 32 0⟩, []⟩ : RecordIdentifier) ≤ id ↔
      ¬ numbers id.ns.bytes.toList < numbers ns.bytes.toList := by
  rw [← not_lt, RecordIdentifier.lt_start_iff]

/-- A record lies before the end of a namespace when its own is not after it. -/
lemma contains_toEnd {ns : NamespaceId} {start id : RecordIdentifier} :
    (toEnd ns (.included start)).Contains id ↔
      start ≤ id ∧ ¬ numbers ns.bytes.toList < numbers id.ns.bytes.toList := by
  obtain ⟨hnext, hlast⟩ := incrementByOne_spec
    (a := ns.bytes.toList) (b := id.ns.bytes.toList)
    (by rw [ns.bytes.length_toList, id.ns.bytes.length_toList])
  unfold toEnd namespaceEnd Contains
  apply and_congr_right
  intro _
  split_ifs with h
  · simp only
    rw [RecordIdentifier.lt_start_iff]
    exact hnext h
  · simpa using (hlast (by simpa using h)).1

/-- A record lies after the start of a namespace and before one of its identifiers when it is of the
namespace and before that identifier. -/
lemma contains_fromStart {ns : NamespaceId} {stop id : RecordIdentifier} (hns : stop.ns = ns) :
    (fromStart ns (.excluded stop)).Contains id ↔ id.ns = ns ∧ id < stop := by
  have hc : (fromStart ns (.excluded stop)).Contains id ↔
      (⟨ns, ⟨.replicate 32 0⟩, []⟩ : RecordIdentifier) ≤ id ∧ id < stop := Iff.rfl
  rw [hc, start_le_iff, RecordIdentifier.ns_eq_iff]
  constructor
  · rintro ⟨hle, hlt⟩
    refine ⟨⟨hle, fun h => ?_⟩, hlt⟩
    rcases RecordIdentifier.lt_iff.mp hlt with h' | ⟨h', -⟩
    · exact lt_asymm h (hns ▸ h')
    · exact absurd (hns ▸ h') h.ne'
  · exact fun h => ⟨h.1.1, h.2⟩

/-- A record lies at or after an identifier of a namespace and before its end when it is of the
namespace and not before that identifier. -/
lemma contains_toEnd_iff {ns : NamespaceId} {start id : RecordIdentifier} (hns : start.ns = ns) :
    (toEnd ns (.included start)).Contains id ↔ id.ns = ns ∧ start ≤ id := by
  rw [contains_toEnd, RecordIdentifier.ns_eq_iff]
  constructor
  · rintro ⟨hle, hlt⟩
    refine ⟨⟨fun h => ?_, hlt⟩, hle⟩
    exact absurd (RecordIdentifier.lt_iff.mpr (.inl (hns.symm ▸ h))) hle.not_gt
  · exact fun h => ⟨h.2, h.1.2⟩

/-- **The bounds of a namespace hold its records and no others.** -/
lemma contains_ofNamespace {ns : NamespaceId} {id : RecordIdentifier} :
    (ofNamespace ns).Contains id ↔ id.ns = ns := by
  have h : (ofNamespace ns).Contains id ↔
      (toEnd ns (.included ⟨ns, ⟨.replicate 32 0⟩, []⟩)).Contains id := Iff.rfl
  rw [h, contains_toEnd, start_le_iff, RecordIdentifier.ns_eq_iff]

end RecordsBounds

/-! ## A replica's part of the table -/

/-- The rows of a sorted list that meet one condition and then those that meet another, when the
first all lie before the second. -/
lemma filter_append_filter {rows : List SignedEntry}
    (hsorted : rows.Pairwise fun a b => a.id < b.id) {p q : SignedEntry → Bool}
    (hpq : ∀ a b, p a → q b → a.id < b.id) :
    rows.filter p ++ rows.filter q = rows.filter fun a => p a || q a := by
  induction rows with
  | nil => rfl
  | cons a rows ih =>
    obtain ⟨ha, hrows⟩ := List.pairwise_cons.mp hsorted
    have hp : q a → rows.filter p = [] := by
      intro hq
      apply List.filter_eq_nil_iff.mpr
      intro b hb hpb
      exact lt_asymm (ha b hb) (hpq b a hpb hq)
    have hnot : p a → ¬ q a := fun hpa hqa => lt_irrefl a.id (hpq a a hpa hqa)
    cases hqa : q a with
    | true => grind
    | false =>
      cases hpa : p a <;> simp [hpa, hqa, ih hrows]

namespace StoreInstance

/-- The entries of a table within bounds. -/
def range (records : Records) (bounds : RecordsBounds) : List SignedEntry :=
  records.rows.filter fun e => bounds.Contains e.id

/-- `get_range` on a table: boundaries arrive from the peer, and one that names another namespace is
refused. The range from an identifier up to itself carries no boundary. -/
def getRange (ns : NamespaceId) (records : Records) (wanted : Range RecordIdentifier) :
    Except String (List SignedEntry) :=
  if wanted.x ≠ wanted.y ∧ ¬ (wanted.x.ns = ns ∧ wanted.y.ns = ns) then
    throw "sync range boundary names another namespace"
  else if wanted.x = wanted.y then return range records (.ofNamespace ns)
  else if wanted.x < wanted.y then
    return range records ⟨.included wanted.x, .excluded wanted.y⟩
  else
    return range records (.fromStart ns (.excluded wanted.y)) ++
      range records (.toEnd ns (.included wanted.x))

/-- `get_first` on a table. -/
def getFirst (ns : NamespaceId) (records : Records) : RecordIdentifier :=
  ((range records (.ofNamespace ns)).head?.map SignedEntry.id).getD .default

/-- The entries of a namespace. -/
def ofNamespace (ns : NamespaceId) (records : Records) : List SignedEntry :=
  records.rows.filter fun e => e.ns = ns

lemma range_ofNamespace (ns : NamespaceId) (records : Records) :
    range records (.ofNamespace ns) = ofNamespace ns records := by
  simp only [range, ofNamespace, RecordsBounds.contains_ofNamespace]
  rfl

/-- The ranges a replica reads: those between two of its own identifiers, and the whole set. -/
def Readable (ns : NamespaceId) (wanted : Range RecordIdentifier) : Prop :=
  wanted.x = wanted.y ∨ wanted.x.ns = ns ∧ wanted.y.ns = ns

instance (ns : NamespaceId) (wanted : Range RecordIdentifier) : Decidable (Readable ns wanted) :=
  inferInstanceAs (Decidable (_ ∨ _))

lemma getRange_of_not_readable {ns : NamespaceId} {records : Records}
    {wanted : Range RecordIdentifier} (h : ¬ Readable ns wanted) :
    getRange ns records wanted = .error "sync range boundary names another namespace" :=
  if_pos (not_or.mp h)

/-- **A readable range reads the entries of the namespace in the range**, in the order of their
identifiers.

**Proof sketch.** What lies between two identifiers of a namespace is of that namespace. A range
that wraps around is read from the start of the namespace up to `y`, then from `x` to its end; the
first part lies before the second. -/
lemma getRange_of_readable {ns : NamespaceId} {records : Records}
    {wanted : Range RecordIdentifier} (h : Readable ns wanted) :
    getRange ns records wanted =
      .ok ((ofNamespace ns records).filter fun e => wanted.Contains e.id) := by
  obtain ⟨x, y⟩ := wanted
  have hread : ¬ (x ≠ y ∧ ¬ (x.ns = ns ∧ y.ns = ns)) := by
    rcases h with h | h
    · exact fun hne => hne.1 h
    · exact fun hne => hne.2 h
  unfold getRange
  rw [if_neg hread]
  rcases lt_trichotomy x y with hlt | rfl | hgt
  · -- between two identifiers of the namespace
    obtain ⟨hx, hy⟩ := h.resolve_left hlt.ne
    rw [if_neg hlt.ne, if_pos hlt]
    refine congrArg Except.ok ?_
    unfold range ofNamespace
    rw [List.filter_filter]
    apply List.filter_congr
    intro e _
    rw [← Bool.decide_and, decide_eq_decide]
    simp only [Range.Contains, Wrapping.within_of_lt hlt, RecordsBounds.Contains]
    constructor
    · exact fun he => ⟨he, (RecordIdentifier.ns_of_between (hx.trans hy.symm) he.1 he.2).trans hx⟩
    · exact And.left
  · -- the whole set
    rw [if_pos rfl, range_ofNamespace]
    refine congrArg Except.ok ?_
    symm
    apply List.filter_eq_self.mpr
    intro e _
    exact decide_eq_true Wrapping.within_self
  · -- around the end
    obtain ⟨hx, hy⟩ := h.resolve_left hgt.ne'
    rw [if_neg hgt.ne', if_neg hgt.not_gt]
    refine congrArg Except.ok ?_
    unfold range ofNamespace
    rw [filter_append_filter records.sorted, List.filter_filter]
    · grind [Range.Contains, Wrapping.within_of_gt, RecordsBounds.contains_fromStart,
        RecordsBounds.contains_toEnd_iff, SignedEntry.ns]
    · grind [RecordsBounds.contains_fromStart, RecordsBounds.contains_toEnd_iff]

lemma getRange_self (ns : NamespaceId) (records : Records) (x : RecordIdentifier) :
    getRange ns records ⟨x, x⟩ = .ok (ofNamespace ns records) := by
  rw [getRange_of_readable (.inl rfl)]
  simp

end StoreInstance

/-! ## Reads and writes of a replica -/

/-- What the engine sees of a signed entry. -/
def SignedEntry.rangeEntry (blake3 : List UInt8 → Bytes 32) :
    Ranger.RangeEntry SignedEntry RecordIdentifier (ℕ ×ₗ List ℕ) :=
  ⟨id, stamp, asFingerprint blake3⟩

namespace StoreInstance

variable (blake3 : List UInt8 → Bytes 32) (ns : NamespaceId)

/-- What a replica reads of a table. -/
def reads (records : Records) : Reads SignedEntry RecordIdentifier where
  getFirst := return getFirst ns records
  getRange := getRange ns records
  getFingerprint wanted := do
    let entries ← getRange ns records wanted
    return Ranger.fingerprintOf blake3 (SignedEntry.rangeEntry blake3) entries

/-- `ensure_own_namespace`: an identifier naming another namespace would read or overwrite that
namespace's rows. -/
def ensureOwnNamespace (id : RecordIdentifier) : Except String Unit :=
  if id.ns = ns then return () else throw "record identifier names another namespace"

/-- What a replica reads and writes: reads that serve a peer come from the session's snapshot when
there is one, and the rest is live. -/
def store (sessionSnapshot : Option Records) : Store Records SignedEntry RecordIdentifier where
  reads live := reads blake3 ns (sessionSnapshot.getD live)
  entryGet live id := do
    ensureOwnNamespace ns id
    return live.get id
  entryPut live e := do
    ensureOwnNamespace ns e.id
    return live.insert e

variable {ns}

/-- **A put of an entry of the namespace keeps the greater entry at its key.** -/
lemma put_eq (sessionSnapshot : Option Records) (live : Records) {e : SignedEntry}
    (h : e.ns = ns) :
    ∃ outcome, (store blake3 ns sessionSnapshot).put (SignedEntry.rangeEntry blake3) live e =
      .ok (outcome, live.put SignedEntry.stamp e) := by
  have hown : ensureOwnNamespace ns e.id = .ok () := if_pos h
  unfold Store.put Keyed.Table.put
  simp only [store, SignedEntry.rangeEntry, hown]
  cases hget : live.get e.id with
  | none => exact ⟨.inserted 0, rfl⟩
  | some old =>
    by_cases hle : e.stamp ≤ old.stamp
    · exact ⟨.notInserted, by simp [hle]⟩
    · exact ⟨.inserted 1, by simp [hle]⟩

end StoreInstance

end MeePdn.PdnStore
