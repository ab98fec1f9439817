import Mathlib.Order.Lex
import Mathlib.Data.Prod.Lex
import Mathlib.Data.List.Lex
import MeePdn.DataLayer.IdentityKey

/-!
# Entries of a replica

`pdn-store/src/sync.rs`: what a replica holds. An entry is named by a namespace, an author and a
key; its record is the hash, the length and the timestamp of its content. The author and the holder
of the namespace's secret sign the whole of it.

## Main definitions

* `RecordIdentifier`, `Record`, `Entry`, `SignedEntry` — the parts of an entry.
* `Record.stamp` — what `Ord for Record` compares: the timestamp, then the hash.
* `SignedEntry.asFingerprint` — the hash a reconciliation tells entries apart by.
* `validateEntry` — what an entry must meet to be stored.

## Main results

* `SignedEntry.fingerprinted_eq_iff` — the bytes hashed spell the identifier, the timestamp and the
  hash, and nothing else.
* `validateEntry_sync` — a session's verdict is the last word on an entry that is otherwise fit.

## Implementation notes

`blake3` is third-party code and a parameter, as the signatures of `Primitives` are. The bytes of an
identifier are kept in the three parts its accessors slice them into; its order is the order of the
bytes together. The order of the records table, by namespace, author and key, is the same, the first
two being of fixed length.
-/

namespace MeePdn.PdnStore

/-- A content hash. -/
@[ext] structure Hash where
  bytes : Bytes 32
deriving DecidableEq

/-! ## Identifiers -/

/-- The identifier of a record. -/
structure RecordIdentifier where
  ns : NamespaceId
  author : AuthorId
  key : List UInt8
deriving DecidableEq

namespace RecordIdentifier

/-- The identifier's bytes: the namespace, the author and the key. -/
def asBytes (id : RecordIdentifier) : List UInt8 :=
  id.ns.bytes.toList ++ id.author.bytes.toList ++ id.key

/-- The numbers the bytes spell, what the order of identifiers compares. -/
def ordinals (id : RecordIdentifier) : List ℕ := id.asBytes.map UInt8.toNat

lemma asBytes_injective : Function.Injective asBytes := by
  rintro ⟨⟨n⟩, ⟨a⟩, k⟩ ⟨⟨n'⟩, ⟨a'⟩, k'⟩ h
  have hlen : (n.toList ++ a.toList).length = (n'.toList ++ a'.toList).length := by
    simp [n.length_toList, n'.length_toList, a.length_toList, a'.length_toList]
  obtain ⟨hna, hk⟩ := List.append_inj h hlen
  obtain ⟨hn, ha⟩ := List.append_inj hna (by rw [n.length_toList, n'.length_toList])
  cases Bytes.ext hn
  cases Bytes.ext ha
  cases hk
  rfl

lemma ordinals_injective : Function.Injective ordinals := by
  intro id id' h
  exact asBytes_injective (List.map_injective_iff.mpr (fun _ _ h => UInt8.toNat_inj.mp h) h)

/-- The derived `Ord`: byte order. -/
instance : LinearOrder RecordIdentifier := LinearOrder.lift' ordinals ordinals_injective

/-- `RecordIdentifier::default`: zero ids and no key. -/
def default : RecordIdentifier := ⟨⟨.replicate 32 0⟩, ⟨.replicate 32 0⟩, []⟩

end RecordIdentifier

/-! ## Records and entries -/

/-- The data part of an entry. -/
structure Record where
  /-- Length of the data referenced by `hash`. -/
  len : UInt64
  /-- Hash of the content data. -/
  hash : Hash
  /-- Creation time in microseconds since the Unix epoch. -/
  timestamp : UInt64
deriving DecidableEq

/-- What `Ord for Record` compares: first the timestamp, then the content hash. -/
def Record.stamp (record : Record) : ℕ ×ₗ List ℕ :=
  toLex (record.timestamp.toNat, record.hash.bytes.toList.map UInt8.toNat)

lemma Record.stamp_eq_iff {r r' : Record} :
    r.stamp = r'.stamp ↔ r.timestamp = r'.timestamp ∧ r.hash = r'.hash := by
  have hmap : ∀ h h' : Hash, h.bytes.toList.map UInt8.toNat = h'.bytes.toList.map UInt8.toNat →
      h = h' := by
    intro h h' heq
    exact Hash.ext (Bytes.ext (List.map_injective_iff.mpr (fun _ _ h => UInt8.toNat_inj.mp h) heq))
  constructor
  · intro h
    obtain ⟨ht, hh⟩ := Prod.mk.inj (toLex.injective h)
    exact ⟨UInt64.toNat_inj.mp ht, hmap _ _ hh⟩
  · rintro ⟨ht, hh⟩
    rw [stamp, stamp, ht, hh]

/-- `Record::encode`. -/
def Record.encode (record : Record) : List UInt8 :=
  toBeBytes record.len ++ record.hash.bytes.toList ++ toBeBytes record.timestamp

/-- A single entry of a replica. -/
structure Entry where
  id : RecordIdentifier
  record : Record
deriving DecidableEq

/-- `Entry::to_vec`: the bytes that are signed. -/
def Entry.toVec (entry : Entry) : List UInt8 := entry.id.asBytes ++ entry.record.encode

/-- Signature over an entry. -/
structure EntrySignature where
  authorSignature : Bytes 64
  namespaceSignature : Bytes 64
deriving DecidableEq

/-- A signed entry. -/
structure SignedEntry where
  signature : EntrySignature
  entry : Entry
deriving DecidableEq

namespace SignedEntry

variable (e : SignedEntry)

/-- The identifier. -/
def id : RecordIdentifier := e.entry.id

/-- The namespace. -/
def ns : NamespaceId := e.id.ns

/-- The author. -/
def author : AuthorId := e.id.author

/-- The key. -/
def key : List UInt8 := e.id.key

/-- The timestamp. -/
def timestamp : UInt64 := e.entry.record.timestamp

/-- `content_hash`. -/
def contentHash : Hash := e.entry.record.hash

/-- `content_len`. -/
def contentLen : UInt64 := e.entry.record.len

/-- `RangeEntry::value`, as its order compares it. -/
def stamp : ℕ ×ₗ List ℕ := e.entry.record.stamp

end SignedEntry

/-! ## Fingerprints -/

/-- A fingerprint of a set of entries. -/
structure Fingerprint where
  bytes : Bytes 32
deriving DecidableEq

/-- `BitXorAssign for Fingerprint`. -/
def Fingerprint.xor (a b : Fingerprint) : Fingerprint :=
  ⟨⟨List.zipWith (· ^^^ ·) a.bytes.toList b.bytes.toList, by
    simp [a.bytes.length_toList, b.bytes.length_toList]⟩⟩

section Hashing

variable (blake3 : List UInt8 → Bytes 32)

/-- `Fingerprint::empty`: the fingerprint of the empty set. -/
def Fingerprint.empty : Fingerprint := ⟨blake3 []⟩

/-- `Hash::EMPTY`. -/
def Hash.empty : Hash := ⟨blake3 []⟩

end Hashing

namespace SignedEntry

/-- The bytes `as_fingerprint` hashes. -/
def fingerprinted (e : SignedEntry) : List UInt8 :=
  e.ns.bytes.toList ++ e.author.bytes.toList ++ e.key ++ toBeBytes e.timestamp ++
    e.contentHash.bytes.toList

/-- `as_fingerprint`. -/
def asFingerprint (blake3 : List UInt8 → Bytes 32) (e : SignedEntry) : Fingerprint :=
  ⟨blake3 e.fingerprinted⟩

end SignedEntry

lemma toBeBytes_injective : Function.Injective toBeBytes := by
  intro a b h
  have hbyte : ∀ shift ∈ [56, 48, 40, 32, 24, 16, 8, 0],
      a.toNat >>> shift % 256 = b.toNat >>> shift % 256 := by
    intro shift hs
    have := List.map_inj_left.mp h shift hs
    simpa using congrArg UInt8.toNat this
  simp only [List.mem_cons, List.not_mem_nil, or_false, forall_eq_or_imp, forall_eq,
    Nat.shiftRight_eq_div_pow] at hbyte
  have ha := a.toNat_lt
  have hb := b.toNat_lt
  apply UInt64.toNat_inj.mp
  omega

/-- **The bytes hashed spell the identifier, the timestamp and the hash**, and not the length.

**Proof sketch.** The last forty bytes are the timestamp and the hash, whatever the length of the
key before them. -/
lemma SignedEntry.fingerprinted_eq_iff {e e' : SignedEntry} :
    e.fingerprinted = e'.fingerprinted ↔
      e.id = e'.id ∧ e.timestamp = e'.timestamp ∧ e.contentHash = e'.contentHash := by
  constructor
  · intro h
    obtain ⟨hfront, hhash⟩ := List.append_inj' h (by
      rw [e.contentHash.bytes.length_toList, e'.contentHash.bytes.length_toList])
    obtain ⟨hid, htime⟩ := List.append_inj' hfront rfl
    exact ⟨RecordIdentifier.asBytes_injective hid, toBeBytes_injective htime,
      Hash.ext (Bytes.ext hhash)⟩
  · rintro ⟨hid, htime, hhash⟩
    simp only [fingerprinted, ns, author, key, hid, htime, hhash]

/-! ## Validation -/

/-- Whether the content of an entry is available on a node. -/
inductive ContentStatus where
  | complete
  | incomplete
  | missing
deriving DecidableEq

/-- What the ingest predicate decides for one incoming entry. -/
inductive ValidateOutcome where
  /-- Store the entry. -/
  | accept
  /-- Keep the entry out in silence. -/
  | drop
deriving DecidableEq

/-- Whether an entry is inserted locally or comes from a peer. -/
inductive InsertOrigin where
  | here
  | sync (peer : Bytes 32) (remoteContentStatus : ContentStatus)
deriving DecidableEq

/-- Why an entry is not fit to be inserted. -/
inductive ValidationFailure where
  | invalidNamespace
  | badSignature
  | tooFarInTheFuture
  | keyTooLong
  | invalidEmptyEntry
  | notAdmitted
deriving DecidableEq

/-- `MAX_TIMESTAMP_FUTURE_SHIFT`: ten minutes in microseconds. -/
def maxTimestampFutureShift : UInt64 := 10 * 60 * 1000000

/-- `MAX_KEY_BYTES`. -/
def maxKeyBytes : ℕ := 8 * 1024

section Validate

variable (prims : Primitives) (blake3 : List UInt8 → Bytes 32)

/-- `EntrySignature::verify`, under the keys the namespace and the author are. -/
def SignedEntry.verify (e : SignedEntry) : Bool :=
  prims.verify e.ns.bytes e.entry.toVec e.signature.namespaceSignature &&
    prims.verify e.author.bytes e.entry.toVec e.signature.authorSignature

/-- `validate_empty`: the empty hash and length 0 come together. -/
def SignedEntry.validateEmpty (e : SignedEntry) : Bool :=
  (e.contentHash = Hash.empty blake3) == (e.contentLen = 0)

/-- `validate_entry`. A remote entry's signatures are verified and the session's verdict is asked;
a local insert takes neither. -/
def validateEntry (now : UInt64) (expected : NamespaceId) (e : SignedEntry)
    (origin : InsertOrigin) (ingest : Option (SignedEntry → ValidateOutcome)) :
    Except ValidationFailure Unit :=
  if e.ns ≠ expected then .error .invalidNamespace
  else if maxKeyBytes < e.key.length then .error .keyTooLong
  else if ¬ e.validateEmpty blake3 then .error .invalidEmptyEntry
  else if origin ≠ .here ∧ ¬ e.verify prims then .error .badSignature
  else if now + maxTimestampFutureShift < e.timestamp then .error .tooFarInTheFuture
  else
    match origin, ingest with
    | .sync _ _, some ingest => if ingest e = .drop then .error .notAdmitted else .ok ()
    | _, _ => .ok ()

variable {prims blake3} {now : UInt64} {expected : NamespaceId} {e : SignedEntry}
  {origin : InsertOrigin} {ingest : Option (SignedEntry → ValidateOutcome)}

lemma ns_of_validateEntry (h : validateEntry prims blake3 now expected e origin ingest = .ok ()) :
    e.ns = expected := by
  by_contra hne
  simp [validateEntry, hne] at h

lemma validateEntry_sync {peer : Bytes 32} {status : ContentStatus}
    (h : validateEntry prims blake3 now expected e (.sync peer status) none = .ok ())
    (verdict : SignedEntry → ValidateOutcome) :
    validateEntry prims blake3 now expected e (.sync peer status) (some verdict) = .ok () ↔
      verdict e = .accept := by
  unfold validateEntry at h ⊢
  split_ifs at h ⊢
  cases hv : verdict e <;> simp [hv]

end Validate

end MeePdn.PdnStore
