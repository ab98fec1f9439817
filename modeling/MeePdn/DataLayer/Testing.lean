import MeePdn.DataLayer.Access
import MeePdn.PdnStore.Testing

/-!
# Worlds of the tests

A pod Alice created and invited Bob to, as Alice's access book reads it.

## Main definitions

* `Written` — an entry of the membership store, with its payload.
* `having`, `lacking` — a world in which an entry is written, with its payload and before the
  payload arrives.
* `aliceBook`, `bobAsks` — Alice's access book, and a session it decides on.
-/

namespace MeePdn.Testing

open PdnStore

/-- The pod's stores. -/
def familyMembers : NamespaceId := ⟨.replicate 32 0x4d⟩

@[inherit_doc familyMembers]
def familyRecords : NamespaceId := ⟨.replicate 32 0x52⟩

/-- What Alice's created event holds. -/
def familyCreation : CreatedPayload :=
  alice.keys.creation transparent (.replicate 16 0x5a) familyMembers familyRecords

/-- The pod. -/
def family : PodId := podIdOf transparent alice.id familyCreation.identityKey familyCreation.nonce

/-- An entry Alice writes to the membership store, with its payload. -/
structure Written where
  key : MembershipKey
  payload : List UInt8

namespace Written

/-- The created event. -/
def created : Written := ⟨.created alice.id, familyCreation.encode⟩

/-- Bob's joined event. -/
def joined (seq : UInt64) : Written :=
  ⟨event bob.id seq .joined alice.id 1,
    (bob.keys.joinStatement transparent family ⟨seq⟩ bob.device).encode⟩

/-- Alice's removal of Bob. -/
def removed (seq : UInt64) : Written := ⟨event bob.id seq .removed alice.id 1, [0]⟩

/-- Alice's device statement. -/
def listed : Written :=
  ⟨.devices alice.id 1,
    (alice.keys.deviceStatement transparent family 1 [alice.device]).encode⟩

/-- The hash of the payload. -/
def hash (written : Written) : PdnStore.Hash := ⟨hashing written.payload⟩

/-- The entry. -/
def entry (written : Written) : SignedEntry :=
  signed familyMembers alice.author written.key.toBytes
    ⟨UInt64.ofNat written.payload.length, written.hash, 1⟩

end Written

/-- A world in which nothing is written. -/
def nothing : World := ⟨.empty, fun _ => 0, fun _ => none, fun _ => none⟩

/-- An entry is written and its payload not yet here. -/
def lacking (world : World) (written : Written) : World := world.put written.entry

/-- An entry is written, its payload with it. -/
def having (world : World) (written : Written) : World :=
  (lacking world written).arrive written.hash written.payload

/-- The pod with Bob in it. -/
def joinedFamily : World :=
  [Written.created, .listed, .joined 1].foldl having nothing

/-- Alice's access book. -/
def aliceBook : AccessBook where
  identity := alice.id
  pms := none
  blobs := true
  sync := true
  polls := 1
  registry := ⟨[(family, ⟨familyMembers, some familyRecords⟩)]⟩

/-- A session Bob's device asks Alice's for, on the record store. -/
def bobAsks : Asks SessionAccess :=
  aliceBook.classify transparent (fun _ => default) familyRecords ⟨alice.id.bytes⟩ ⟨bob.id.bytes⟩
    bob.device.node .accept

/-- The access that lets everything out and rests on so many writes to the membership store. -/
def isOpen (count : ℕ) : SessionAccess → Bool
  | .allow none _ (.writes read) => read = [(familyMembers, count)]
  | _ => false

lemma exists_of_isOpen {count : ℕ} {access : SessionAccess} (h : isOpen count access = true) :
    ∃ taken, access = .allow none taken (.writes [(familyMembers, count)]) := by
  match access with
  | .allow none taken (.writes read) =>
    obtain rfl := of_decide_eq_true h
    exact ⟨taken, rfl⟩

end MeePdn.Testing
