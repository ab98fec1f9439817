import MeePdn.PdnStore.Fs

/-!
# A session's view of a replica

`pdn-store/src/filter.rs`: the reconciliation of a session reads a replica through a filter, so that
its fingerprints, boundaries and items are those of the admitted entries alone.

## Main definitions

* `SessionAccess` — what one session may see of a replica and what it may put into it.
* `SessionStore.reads`, `SessionStore.store` — a store narrowed to one session's view.
* `SessionStore.view` — the admitted entries of a replica.
* `Reads.ofView` — what is read of a list of entries and nothing else.

## Main results

* `SessionStore.reads_eq` — everything a session reads of a replica is read of its view.
-/

namespace MeePdn.PdnStore

open Ranger (Range Reads Store)

/-- `EntryFilter`: whether an entry is admitted into the peer's view. -/
abbrev EntryFilter := SignedEntry → Bool

/-- `SessionIngest`: what becomes of an entry the peer offers. -/
abbrev SessionIngest := SignedEntry → ValidateOutcome

/-- `admit_all`: every entry is taken. -/
def admitAll : SessionIngest := fun _ => .accept

/-- `RestsOn`: what a session decision was read from. -/
inductive RestsOn where
  /-- Nothing a write moves. -/
  | nothing
  /-- These replicas at these write counts. -/
  | writes (read : List (NamespaceId × ℕ))
  /-- Something no write count shows. -/
  | unknown
deriving DecidableEq

/-- `SessionAccess`: what one session may see of a replica and what it may put into it. -/
inductive SessionAccess where
  | allow (egress : Option EntryFilter) (ingest : SessionIngest) (restsOn : RestsOn)
  | deny

/-- `SessionAccess::whole`. -/
def SessionAccess.whole : SessionAccess := .allow none admitAll .nothing

/-- `SessionRole`: which end of the session this node is on. -/
inductive SessionRole where
  | accept
  | dial
deriving DecidableEq

/-- `Identity`: whom a session names, in 32 bytes that are compared and never interpreted. -/
structure Identity where
  bytes : Bytes 32
deriving DecidableEq

variable (blake3 : List UInt8 → Bytes 32)

namespace SessionStore

/-- Whether an entry passes the session's filter; no filter admits all. -/
def admitted (filter : Option EntryFilter) (e : SignedEntry) : Bool :=
  match filter with
  | none => true
  | some f => f e

/-- `get_first`: the first admitted key, or the default when nothing is admitted. -/
def getFirst (inner : Reads SignedEntry RecordIdentifier) (filter : Option EntryFilter) :
    Except String RecordIdentifier :=
  match filter with
  | none => inner.getFirst
  | some f => do
    let all ← inner.getRange ⟨.default, .default⟩
    return ((all.find? f).map SignedEntry.id).getD .default

/-- `get_range`: the admitted entries. -/
def getRange (inner : Reads SignedEntry RecordIdentifier) (filter : Option EntryFilter)
    (wanted : Range RecordIdentifier) : Except String (List SignedEntry) := do
  let entries ← inner.getRange wanted
  return entries.filter (admitted filter)

/-- `get_fingerprint`: with a filter, recomputed over the admitted entries. -/
def getFingerprint (inner : Reads SignedEntry RecordIdentifier) (filter : Option EntryFilter)
    (wanted : Range RecordIdentifier) : Except String Fingerprint :=
  match filter with
  | none => inner.getFingerprint wanted
  | some _ => do
    let entries ← getRange inner filter wanted
    return Ranger.fingerprintOf blake3 (SignedEntry.rangeEntry blake3) entries

/-- What is read through a session's filter. -/
def reads (inner : Reads SignedEntry RecordIdentifier) (filter : Option EntryFilter) :
    Reads SignedEntry RecordIdentifier :=
  ⟨getFirst inner filter, getRange inner filter, getFingerprint blake3 inner filter⟩

/-- A store narrowed to one session's view: reads are filtered, `entry_get` and `entry_put` are
not. -/
def store {σ : Type} (inner : Store σ SignedEntry RecordIdentifier)
    (filter : Option EntryFilter) : Store σ SignedEntry RecordIdentifier :=
  { inner with reads := fun s => reads blake3 (inner.reads s) filter }

/-- The admitted entries of a replica. -/
def view (ns : NamespaceId) (records : Records) (filter : Option EntryFilter) :
    List SignedEntry :=
  (StoreInstance.ofNamespace ns records).filter (admitted filter)

end SessionStore

/-- What is read of the entries of a replica and of nothing else. -/
def Ranger.Reads.ofView (ns : NamespaceId) (view : List SignedEntry) :
    Reads SignedEntry RecordIdentifier where
  getFirst := return (view.head?.map SignedEntry.id).getD .default
  getRange wanted :=
    if StoreInstance.Readable ns wanted then return view.filter fun e => wanted.Contains e.id
    else throw "sync range boundary names another namespace"
  getFingerprint wanted :=
    if StoreInstance.Readable ns wanted then
      return Ranger.fingerprintOf blake3 (SignedEntry.rangeEntry blake3)
        (view.filter fun e => wanted.Contains e.id)
    else throw "sync range boundary names another namespace"

namespace SessionStore

lemma getRange_eq (ns : NamespaceId) (records : Records) (filter : Option EntryFilter)
    (wanted : Range RecordIdentifier) :
    getRange (StoreInstance.reads blake3 ns records) filter wanted =
      (Reads.ofView blake3 ns (view ns records filter)).getRange wanted := by
  simp only [getRange, StoreInstance.reads, Reads.ofView]
  by_cases h : StoreInstance.Readable ns wanted
  · rw [StoreInstance.getRange_of_readable h, if_pos h]
    simp only [ok_bind, pure_eq_ok, view, List.filter_filter, Bool.and_comm]
  · rw [StoreInstance.getRange_of_not_readable h, if_neg h]
    rfl

/-- Whatever is admitted, the fingerprint of a range is that of the entries read in it. -/
lemma getFingerprint_eq_bind (ns : NamespaceId) (records : Records)
    (filter : Option EntryFilter) (wanted : Range RecordIdentifier) :
    getFingerprint blake3 (StoreInstance.reads blake3 ns records) filter wanted = (do
      let entries ← getRange (StoreInstance.reads blake3 ns records) filter wanted
      return Ranger.fingerprintOf blake3 (SignedEntry.rangeEntry blake3) entries) := by
  cases filter with
  | some f => rfl
  | none =>
    have hall : ∀ entries : List SignedEntry, entries.filter (admitted none) = entries :=
      fun entries => List.filter_eq_self.mpr fun e _ => rfl
    simp only [getFingerprint, getRange, StoreInstance.reads]
    cases StoreInstance.getRange ns records wanted with
    | error err => rfl
    | ok entries => simp only [ok_bind, pure_eq_ok, hall]

lemma getFirst_eq (ns : NamespaceId) (records : Records) (filter : Option EntryFilter) :
    getFirst (StoreInstance.reads blake3 ns records) filter =
      (Reads.ofView blake3 ns (view ns records filter)).getFirst := by
  cases filter with
  | none =>
    have hall : view ns records none = StoreInstance.ofNamespace ns records :=
      List.filter_eq_self.mpr fun e _ => rfl
    simp only [getFirst, StoreInstance.reads, Reads.ofView, StoreInstance.getFirst, hall,
      StoreInstance.range_ofNamespace]
  | some f =>
    simp only [getFirst, StoreInstance.reads, Reads.ofView, StoreInstance.getRange_self, ok_bind,
      view, List.head?_filter]
    rfl

/-- **Everything a session reads of a replica is read of its view.**

**Proof sketch.** A range is the replica's range with the other entries left out, the first key is
the first admitted one, and a fingerprint is computed from the range. -/
lemma reads_eq (ns : NamespaceId) (records : Records) (filter : Option EntryFilter) :
    reads blake3 (StoreInstance.reads blake3 ns records) filter =
      Reads.ofView blake3 ns (view ns records filter) := by
  unfold reads
  rw [getFirst_eq]
  have hrange := funext (getRange_eq blake3 ns records filter)
  have hfinger : getFingerprint blake3 (StoreInstance.reads blake3 ns records) filter =
      (Reads.ofView blake3 ns (view ns records filter)).getFingerprint := by
    funext wanted
    rw [getFingerprint_eq_bind, hrange]
    simp only [Reads.ofView]
    split_ifs <;> rfl
  rw [hrange, hfinger]

end SessionStore

end MeePdn.PdnStore
