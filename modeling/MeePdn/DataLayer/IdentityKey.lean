import MeePdn.DataLayer.Pod.Keys
import MeePdn.DataLayer.Pod.Payloads

/-!
# The identity key pair

`identity_key.rs`: what is derived from an identity's key pair or signed by it, each under a
context string of its own. The hash and the signature scheme are third-party code and parameters
here.

## Main definitions

* `Primitives` — key derivation (`blake3`) and signatures (`iroh`'s ed25519 keys).
* `pdnIdOf`, `podIdOf` — the ids a public key and a created event's fields derive.
* `creationVerifies`, `joinVerifies`, `devicesVerify` — the three signature checks.
* `IdentityKeyPair` — a secret key, with the statements it signs.
* `Primitives.Injective`, `Primitives.SignsVerify` — what the development assumes of the
  primitives, named where it is used.

## Implementation notes

Nothing about the primitives is assumed by their definition: a signature check is a pure function
of its arguments and no more.
-/

namespace MeePdn

/-- The third-party functions identity keys rest on. -/
structure Primitives where
  /-- `blake3::derive_key` of a context and a material. -/
  deriveKey : List UInt8 → List UInt8 → Bytes 32
  /-- The public key of a secret key. -/
  publicKey : Bytes 32 → Bytes 32
  /-- The signature of a message under a secret key. -/
  sign : Bytes 32 → List UInt8 → Bytes 64
  /-- `PublicKey::from_bytes` and `verify`: a key that is no curve point verifies nothing. -/
  verify : Bytes 32 → List UInt8 → Bytes 64 → Bool

/-- `u64::to_be_bytes`. -/
def toBeBytes (n : UInt64) : List UInt8 :=
  [56, 48, 40, 32, 24, 16, 8, 0].map fun shift => UInt8.ofNat (n.toNat >>> shift)

variable (prims : Primitives)

/-- The `PdnId` a public identity key derives. -/
def pdnIdOf (identityKey : Bytes 32) : PdnId :=
  ⟨prims.deriveKey (ascii "pdn/pdn-id/v1") identityKey.toList⟩

/-- The pod id a created event's fields derive: the first 16 bytes of the hash. -/
def podIdOf (creator : PdnId) (identityKey : Bytes 32) (nonce : Bytes 16) : PodId :=
  let hash := prims.deriveKey (ascii "pdn/pod-id/v1")
    (creator.bytes.toList ++ identityKey.toList ++ nonce.toList)
  ⟨⟨hash.toList.take 16, by simp [hash.length_toList]⟩⟩

/-! ## What is signed -/

/-- `creation_message`. -/
def creationMessage (creator : PdnId) (payload : CreatedPayload) : List UInt8 :=
  ascii "pdn/pod-creation/v1" ++ creator.bytes.toList ++ payload.identityKey.toList ++
    payload.nonce.toList ++ payload.membershipStore.bytes.toList ++
    payload.recordStore.bytes.toList

/-- `join_message`. -/
def joinMessage (subject : PdnId) (identityKey : Bytes 32) (pod : PodId) (subjectSeq : Seq)
    (device : MemberDevice) : List UInt8 :=
  ascii "pdn/pod-join/v1" ++ subject.bytes.toList ++ identityKey.toList ++ pod.bytes.toList ++
    toBeBytes subjectSeq.get ++ encodeDevices [device]

/-- `devices_message`. -/
def devicesMessage (pod : PodId) (member : PdnId) (version : UInt64)
    (devices : List MemberDevice) : List UInt8 :=
  ascii "pdn/pod-devices/v1" ++ pod.bytes.toList ++ member.bytes.toList ++ toBeBytes version ++
    encodeDevices devices

/-! ## The signature checks -/

/-- Whether the signature verifies for a created event in `creator`'s chain. -/
def creationVerifies (creator : PdnId) (payload : CreatedPayload) : Bool :=
  prims.verify payload.identityKey (creationMessage creator payload) payload.signature

/-- Whether the signature verifies for a joined event at `subjectSeq` of `subject`'s chain in
`pod`. -/
def joinVerifies (subject : PdnId) (pod : PodId) (subjectSeq : Seq) (payload : JoinedPayload) :
    Bool :=
  prims.verify payload.identityKey
    (joinMessage subject payload.identityKey pod subjectSeq payload.device) payload.signature

/-- Whether the signature verifies under `identityKey` for `member`'s statement in `pod` at
`version`. -/
def devicesVerify (identityKey : Bytes 32) (pod : PodId) (member : PdnId) (version : UInt64)
    (payload : DevicesPayload) : Bool :=
  prims.verify identityKey (devicesMessage pod member version payload.devices) payload.signature

/-! ## The key pair -/

/-- The identity key pair, by its secret key. -/
structure IdentityKeyPair where
  secret : Bytes 32

namespace IdentityKeyPair

variable (keys : IdentityKeyPair)

/-- `IdentityKeyPair::public_key`. -/
def publicKey : Bytes 32 := prims.publicKey keys.secret

/-- `IdentityKeyPair::pdn_id`. -/
def pdnId : PdnId := pdnIdOf prims (keys.publicKey prims)

/-- `IdentityKeyPair::creation`: the created event's payload, signed. The message leaves the
signature's own field out. -/
def creation (nonce : Bytes 16) (membershipStore recordStore : NamespaceId) : CreatedPayload :=
  let payload : CreatedPayload :=
    { nonce := nonce
      identityKey := keys.publicKey prims
      membershipStore := membershipStore
      recordStore := recordStore
      signature := ⟨List.replicate 64 0, List.length_replicate⟩ }
  { payload with
    signature := prims.sign keys.secret (creationMessage (keys.pdnId prims) payload) }

/-- `IdentityKeyPair::join_statement`. -/
def joinStatement (pod : PodId) (subjectSeq : Seq) (device : MemberDevice) : JoinedPayload where
  identityKey := keys.publicKey prims
  device := device
  signature := prims.sign keys.secret
    (joinMessage (keys.pdnId prims) (keys.publicKey prims) pod subjectSeq device)

/-- `IdentityKeyPair::device_statement`. -/
def deviceStatement (pod : PodId) (version : UInt64) (devices : List MemberDevice) :
    DevicesPayload where
  devices := devices
  signature := prims.sign keys.secret (devicesMessage pod (keys.pdnId prims) version devices)

end IdentityKeyPair

namespace Primitives

/-- No two identity keys derive one `PdnId`: `blake3` does not collide on them. -/
def Injective : Prop := Function.Injective (pdnIdOf prims)

/-- A signature verifies under the public key of the secret key that made it. -/
def SignsVerify : Prop :=
  ∀ secret message, prims.verify (prims.publicKey secret) message (prims.sign secret message) = true

end Primitives

lemma devicesVerify_deviceStatement {prims : Primitives} (hsign : prims.SignsVerify)
    (keys : IdentityKeyPair) (pod : PodId) (version : UInt64) (devices : List MemberDevice) :
    devicesVerify prims (keys.publicKey prims) pod (keys.pdnId prims) version
      (keys.deviceStatement prims pod version devices) = true :=
  hsign _ _

end MeePdn
