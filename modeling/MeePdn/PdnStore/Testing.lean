import MeePdn.PdnStore.Fs
import MeePdn.DataLayer.Pod.Testing

/-!
# Entries of the tests

Signed entries and tables of them, over primitives simple enough to evaluate. Concrete replicas of
this development are written with these calls.

## Main definitions

* `hashing` — a hash that evaluates.
* `signed` — an entry with both signatures.
* `table` — a table that took a list of entries.
-/

namespace MeePdn.Testing

open PdnStore

/-- A hash that evaluates: the number the bytes spell, to 32 bytes. -/
def hashing (bytes : List UInt8) : Bytes 32 :=
  let number := bytes.foldl (fun acc byte => (acc * 257 + byte.toNat + 1) % 2 ^ 256) 0
  ⟨(List.range 32).map fun i => UInt8.ofNat (number / 256 ^ i), by simp⟩

/-- The namespace of a seed. Its secret is its public key, as everybody's is here. -/
def replica (seed : UInt8) : NamespaceId := ⟨.replicate 32 seed⟩

/-- An entry with both signatures. -/
def signed (ns : NamespaceId) (author : AuthorId) (key : List UInt8) (record : Record) :
    SignedEntry :=
  let entry : Entry := ⟨⟨ns, author, key⟩, record⟩
  ⟨⟨transparent.sign author.bytes entry.toVec, transparent.sign ns.bytes entry.toVec⟩, entry⟩

/-- A record with the hash of a seed. -/
def record (len : UInt64) (seed : UInt8) (timestamp : UInt64) : Record :=
  ⟨len, ⟨.replicate 32 seed⟩, timestamp⟩

/-- A table that took a list of entries. -/
def table (entries : List SignedEntry) : Records :=
  entries.foldl (Keyed.Table.put SignedEntry.stamp) .empty

end MeePdn.Testing
