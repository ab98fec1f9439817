import MeePdn.DataLayer.Pod.MembershipView.Pass

/-!
# The cast and the membership store of the tests

`pod/testing.rs`: the people and the store the unit tests of the pod modules write entry by entry.
Concrete stores of this development are written with the same calls, over primitives simple enough
to evaluate.

## Main definitions

* `transparent` — primitives that meet what the development assumes of them.
* `Person`, `Store` — the cast, and a membership store as one device holds it.
* `Store.createdBy`, `Store.statement`, `Store.join`, `Store.act` — its entries.

## Main results

* `transparent_injective`, `transparent_signsVerify` — the assumptions are met together.
-/

namespace MeePdn.Testing

/-! ## Primitives that evaluate -/

/-- A digest of a message in one byte. -/
def digest (message : List UInt8) : UInt8 := message.foldl (fun acc byte => acc * 31 + byte) 7

/-- Primitives that evaluate: a key is derived by keeping the first bytes of the material, and a
signature is the key and a digest. They hide nothing, but an identity key derives one `PdnId`, and
a key verifies what it signs. -/
def transparent : Primitives where
  deriveKey := fun _ material =>
    ⟨material.take 32 ++ List.replicate (32 - (material.take 32).length) 0, by
      simp [List.length_take]⟩
  publicKey := id
  sign := fun secret message =>
    ⟨secret.toList ++ List.replicate 32 (digest message), by simp [secret.length_toList]⟩
  verify := fun key message signature =>
    signature.toList = key.toList ++ List.replicate 32 (digest message)

lemma pdnIdOf_transparent (key : Bytes 32) : pdnIdOf transparent key = ⟨key⟩ := by
  unfold pdnIdOf transparent
  congr 1
  apply Bytes.ext
  simp [List.take_of_length_le, key.length_toList]

lemma transparent_injective : transparent.Injective := by
  intro key key' h
  rw [pdnIdOf_transparent, pdnIdOf_transparent] at h
  exact PdnId.mk.inj h

lemma transparent_signsVerify : transparent.SignsVerify := by
  intro secret message
  simp [transparent]

/-! ## The cast -/

/-- `device`. -/
def device (seed : UInt8) : MemberDevice := ⟨⟨.replicate 32 seed⟩, ⟨.replicate 32 seed⟩⟩

/-- A person with an identity key pair and one device. -/
structure Person where
  keys : IdentityKeyPair
  device : MemberDevice

namespace Person

/-- `Person::new`. -/
def new (seed : UInt8) : Person := ⟨⟨.replicate 32 seed⟩, Testing.device seed⟩

/-- `Person::id`. -/
def id (person : Person) : PdnId := person.keys.pdnId transparent

/-- `Person::author`. -/
def author (person : Person) : AuthorId := person.device.author

end Person

/-- Alice, who creates the pod. -/
def alice : Person := Person.new 0x33

/-- Bob. -/
def bob : Person := Person.new 0xb0

/-- Carol. -/
def carol : Person := Person.new 0xc0

/-- Dave. -/
def dave : Person := Person.new 0xd0

/-! ## The store -/

/-- `event`. -/
def event (subject : PdnId) (seq : UInt64) (kind : EventKind) (actor : PdnId) (actorSeq : UInt64) :
    MembershipKey :=
  .event subject ⟨seq⟩ kind actor ⟨actorSeq⟩

/-- A pod's membership store as one device holds it, written entry by entry. -/
structure Store where
  pod : PodId
  /-- The membership store's namespace, which the created event names. -/
  namespaceId : NamespaceId
  entries : List HeldEntry

namespace Store

/-- `Store::write`. -/
def write (store : Store) (key : MembershipKey) (author : AuthorId) (payload : List UInt8) :
    Store :=
  { store with entries := store.entries ++ [.arrived key.toBytes author payload] }

/-- `Store::statement`. -/
def statement (store : Store) (member : Person) (version : UInt64) (devices : List MemberDevice)
    (author : AuthorId) : Store :=
  store.write (.devices member.id version) author
    (member.keys.deviceStatement transparent store.pod version devices).encode

/-- `Store::created_by`: the created event, the creator's first device statement beside it. -/
def createdBy (creator : Person) : Store :=
  let membership : NamespaceId := ⟨.replicate 32 0x4d⟩
  let creation := creator.keys.creation transparent (.replicate 16 0x5a) membership
    ⟨.replicate 32 0x52⟩
  let store : Store :=
    { pod := podIdOf transparent creator.id creation.identityKey creation.nonce
      namespaceId := membership
      entries := [] }
  (store.write (.created creator.id) creator.author creation.encode).statement creator 1
    [creator.device] creator.author

/-- `Store::join`: `actor`'s invite act at the newcomer's `seq`, the newcomer's join statement from
its device inside. -/
def join (store : Store) (actor : Person) (actorSeq : UInt64) (newcomer : Person) (seq : UInt64) :
    Store :=
  store.write (event newcomer.id seq .joined actor.id actorSeq) actor.author
    (newcomer.keys.joinStatement transparent store.pod ⟨seq⟩ newcomer.device).encode

/-- `Store::invite`: a first join, as the join dialogue writes it. -/
def invite (store : Store) (actor : Person) (actorSeq : UInt64) (newcomer : Person) : Store :=
  store.join actor actorSeq newcomer 1

/-- `Store::act`. -/
def act (store : Store) (kind : EventKind) (subject : Person) (seq : UInt64) (actor : Person)
    (actorSeq : UInt64) : Store :=
  store.write (event subject.id seq kind actor.id actorSeq) actor.author [0]

/-- `Store::membership_view`, the hash maps iterated in the order they list their keys. -/
def membershipView (store : Store) : MembershipView :=
  .new transparent (fun _ => default) store.pod store.namespaceId store.entries

end Store

end MeePdn.Testing
