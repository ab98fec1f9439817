import MeePdn.Types

/-!
# The membership payloads

`pod/payloads.rs`: the payloads the membership view reads, each a run of fixed-size fields in a
fixed order, decoded only at its exact length.

## Main definitions

* `MemberDevice` — a device of a member: its node and the author the member writes with there.
* `CreatedPayload`, `JoinedPayload`, `DevicesPayload` — the three payloads, each with its `encode`
  and `decode`.
* `createdLen`, `joinedLen`, `statementMaxLen` — the lengths the membership view reads them at.

## Main results

* `CreatedPayload.decode_iff`, `JoinedPayload.decode_iff`, `DevicesPayload.decode_iff` — the bytes
  that decode to a payload are exactly its encoding.
-/

namespace MeePdn

/-- A device of a member. -/
structure MemberDevice where
  node : NodeId
  author : AuthorId
deriving DecidableEq

/-- The bytes of a device: its node's and then its author's. -/
def MemberDevice.ordinals (device : MemberDevice) : List ℕ :=
  device.node.bytes.toList.map UInt8.toNat ++ device.author.bytes.toList.map UInt8.toNat

lemma MemberDevice.ordinals_injective : Function.Injective MemberDevice.ordinals := by
  rintro ⟨⟨node⟩, ⟨author⟩⟩ ⟨⟨node'⟩, ⟨author'⟩⟩ h
  have hlen : (node.toList.map UInt8.toNat).length = (node'.toList.map UInt8.toNat).length := by
    simp [Bytes.length_toList]
  have hmap : Function.Injective (List.map UInt8.toNat) :=
    List.map_injective_iff.mpr fun _ _ => UInt8.toNat_inj.mp
  obtain ⟨hnode, hauthor⟩ := List.append_inj h hlen
  obtain rfl : node = node' := Bytes.ext (hmap hnode)
  obtain rfl : author = author' := Bytes.ext (hmap hauthor)
  rfl

/-- Devices in the order `derive(Ord)` gives them: by the node, then by the author. -/
instance : LinearOrder MemberDevice :=
  LinearOrder.lift' MemberDevice.ordinals MemberDevice.ordinals_injective

/-- The created event's payload. -/
structure CreatedPayload where
  nonce : Bytes 16
  identityKey : Bytes 32
  membershipStore : NamespaceId
  recordStore : NamespaceId
  signature : Bytes 64
deriving DecidableEq

/-- A joined event's payload, the newcomer's join statement. -/
structure JoinedPayload where
  identityKey : Bytes 32
  device : MemberDevice
  signature : Bytes 64
deriving DecidableEq

/-- A device-list statement's payload. -/
structure DevicesPayload where
  devices : List MemberDevice
  signature : Bytes 64
deriving DecidableEq

/-- `CREATED_LEN`. -/
def createdLen : ℕ := 16 + 32 + 32 + 32 + 64

/-- `JOINED_LEN`. -/
def joinedLen : ℕ := 32 + 32 + 32 + 64

/-- `STATEMENT_MAX_LEN`: 1,023 devices and the signature. -/
def statementMaxLen : ℕ := 65536

/-- `take::<N>`: the first `n` bytes and the rest. -/
def take (n : ℕ) (bytes : List UInt8) : Option (Bytes n × List UInt8) :=
  (Bytes.ofList? n (bytes.take n)).map fun head => (head, bytes.drop n)

@[simp] lemma take_append {n : ℕ} (a : Bytes n) (rest : List UInt8) :
    take n (a.toList ++ rest) = some (a, rest) := by
  have htake : (a.toList ++ rest).take n = a.toList := by
    rw [List.take_append_of_le_length (by simp [a.length_toList]),
      List.take_of_length_le (by simp [a.length_toList])]
  have hdrop : (a.toList ++ rest).drop n = rest := by
    rw [List.drop_append_of_le_length (by simp [a.length_toList]),
      List.drop_of_length_le (by simp [a.length_toList]), List.nil_append]
  simp [take, htake, hdrop]

@[simp] lemma take_toList {n : ℕ} (a : Bytes n) : take n a.toList = some (a, []) := by
  simpa using take_append a []

lemma eq_of_take {n : ℕ} {bytes rest : List UInt8} {a : Bytes n}
    (h : take n bytes = some (a, rest)) : bytes = a.toList ++ rest := by
  unfold take Bytes.ofList? at h
  split at h
  · obtain ⟨rfl, rfl⟩ := Prod.mk.inj (Option.some.inj h)
    exact (List.take_append_drop n bytes).symm
  · cases h

/-! ## Device lists -/

/-- `encode_devices`: `(node ‖ author)…`. -/
def encodeDevices (devices : List MemberDevice) : List UInt8 :=
  devices.flatMap fun device => device.node.bytes.toList ++ device.author.bytes.toList

/-- One device off the front of a device list. -/
def takeDevice (bytes : List UInt8) : Option (MemberDevice × List UInt8) := do
  let (node, rest) ← take 32 bytes
  let (author, rest) ← take 32 rest
  return (⟨⟨node⟩, ⟨author⟩⟩, rest)

/-- The loop of `DevicesPayload::decode` over what is still listed. Each turn takes 64 bytes, so
the number of bytes bounds the turns. -/
def decodeDevices : ℕ → List UInt8 → Option (List MemberDevice)
  | _, [] => some []
  | 0, _ :: _ => none
  | fuel + 1, listed => do
    let (device, rest) ← takeDevice listed
    let devices ← decodeDevices fuel rest
    return device :: devices

@[simp] lemma length_encodeDevices (devices : List MemberDevice) :
    (encodeDevices devices).length = 64 * devices.length := by
  induction devices with
  | nil => rfl
  | cons device devices ih =>
    simp only [encodeDevices, List.flatMap_cons, List.length_append, Bytes.length_toList,
      List.length_cons] at ih ⊢
    omega

lemma takeDevice_encode (device : MemberDevice) (rest : List UInt8) :
    takeDevice (device.node.bytes.toList ++ device.author.bytes.toList ++ rest) =
      some (device, rest) := by
  rw [takeDevice, List.append_assoc, take_append]
  simp

/-- An encoded device list decodes to it, given a turn for each device. -/
lemma decodeDevices_encode (devices : List MemberDevice) (fuel : ℕ)
    (hfuel : devices.length ≤ fuel) :
    decodeDevices fuel (encodeDevices devices) = some devices := by
  induction devices generalizing fuel with
  | nil => cases fuel <;> rfl
  | cons device devices ih =>
    obtain ⟨fuel, rfl⟩ : ∃ f, fuel = f + 1 := ⟨fuel - 1, by simp at hfuel; omega⟩
    have hcons : encodeDevices (device :: devices) =
        device.node.bytes.toList ++ device.author.bytes.toList ++ encodeDevices devices := rfl
    have hne : encodeDevices (device :: devices) ≠ [] := by
      rw [← List.length_pos_iff, length_encodeDevices]
      simp
    have hrest := ih fuel (by simp at hfuel; omega)
    cases hl : encodeDevices (device :: devices) with
    | nil => exact absurd hl hne
    | cons b l =>
      rw [decodeDevices, ← hl, hcons, takeDevice_encode]
      · simp [hrest]
      · simp

/-- Bytes that decode as a device list encode it. -/
lemma eq_of_decodeDevices {fuel : ℕ} : ∀ {listed : List UInt8} {devices : List MemberDevice},
    decodeDevices fuel listed = some devices → listed = encodeDevices devices := by
  induction fuel with
  | zero =>
    intro listed devices h
    cases listed with
    | nil => exact Option.some.inj h ▸ rfl
    | cons b listed => cases h
  | succ fuel ih =>
    intro listed devices h
    cases listed with
    | nil => exact Option.some.inj h ▸ rfl
    | cons b listed =>
      obtain ⟨⟨device, rest⟩, hdevice, h⟩ := Option.bind_eq_some_iff.mp h
      obtain ⟨more, hmore, h⟩ := Option.bind_eq_some_iff.mp h
      obtain rfl := Option.some.inj h
      obtain ⟨⟨node, after⟩, hnode, hdevice⟩ := Option.bind_eq_some_iff.mp hdevice
      obtain ⟨⟨author, last⟩, hauthor, hdevice⟩ := Option.bind_eq_some_iff.mp hdevice
      obtain ⟨rfl, rfl⟩ := Prod.mk.inj (Option.some.inj hdevice)
      rw [eq_of_take hnode, eq_of_take hauthor, ih hmore]
      simp [encodeDevices]

/-! ## The payloads -/

namespace CreatedPayload

/-- `CreatedPayload::encode`. -/
def encode (p : CreatedPayload) : List UInt8 :=
  p.nonce.toList ++ (p.identityKey.toList ++ (p.membershipStore.bytes.toList ++
    (p.recordStore.bytes.toList ++ p.signature.toList)))

/-- `CreatedPayload::decode`. -/
def decode (bytes : List UInt8) : Option CreatedPayload := do
  let (nonce, bytes) ← take 16 bytes
  let (identityKey, bytes) ← take 32 bytes
  let (membershipStore, bytes) ← take 32 bytes
  let (recordStore, bytes) ← take 32 bytes
  let (signature, bytes) ← take 64 bytes
  if bytes.isEmpty then some ⟨nonce, identityKey, ⟨membershipStore⟩, ⟨recordStore⟩, signature⟩
  else none

@[simp] lemma decode_encode (p : CreatedPayload) : decode p.encode = some p := by
  simp [decode, encode]

/-- **The bytes that decode to a created payload are its encoding.** -/
lemma decode_iff {bytes : List UInt8} {p : CreatedPayload} :
    decode bytes = some p ↔ bytes = p.encode := by
  refine ⟨fun h => ?_, fun h => h ▸ p.decode_encode⟩
  obtain ⟨⟨nonce, b₁⟩, h₁, h⟩ := Option.bind_eq_some_iff.mp h
  obtain ⟨⟨identityKey, b₂⟩, h₂, h⟩ := Option.bind_eq_some_iff.mp h
  obtain ⟨⟨membershipStore, b₃⟩, h₃, h⟩ := Option.bind_eq_some_iff.mp h
  obtain ⟨⟨recordStore, b₄⟩, h₄, h⟩ := Option.bind_eq_some_iff.mp h
  obtain ⟨⟨signature, b₅⟩, h₅, h⟩ := Option.bind_eq_some_iff.mp h
  dsimp only at h₁ h₂ h₃ h₄ h₅ h
  split at h
  · next hempty =>
    obtain rfl := Option.some.inj h
    rw [eq_of_take h₁, eq_of_take h₂, eq_of_take h₃, eq_of_take h₄, eq_of_take h₅,
      List.isEmpty_iff.mp hempty, List.append_nil]
    rfl
  · cases h

lemma length_encode (p : CreatedPayload) : p.encode.length = createdLen := by
  simp [encode, createdLen, Bytes.length_toList]

end CreatedPayload

namespace JoinedPayload

/-- `JoinedPayload::encode`. -/
def encode (p : JoinedPayload) : List UInt8 :=
  p.identityKey.toList ++ (encodeDevices [p.device] ++ p.signature.toList)

/-- `JoinedPayload::decode`. -/
def decode (bytes : List UInt8) : Option JoinedPayload := do
  let (identityKey, bytes) ← take 32 bytes
  let (node, bytes) ← take 32 bytes
  let (author, bytes) ← take 32 bytes
  let (signature, bytes) ← take 64 bytes
  if bytes.isEmpty then some ⟨identityKey, ⟨⟨node⟩, ⟨author⟩⟩, signature⟩ else none

lemma length_encode (p : JoinedPayload) : p.encode.length = joinedLen := by
  simp [encode, joinedLen, p.identityKey.length_toList, p.signature.length_toList]

@[simp] lemma decode_encode (p : JoinedPayload) : decode p.encode = some p := by
  simp [decode, encode, encodeDevices]

/-- **The bytes that decode to a join statement are its encoding.** -/
lemma decode_iff {bytes : List UInt8} {p : JoinedPayload} :
    decode bytes = some p ↔ bytes = p.encode := by
  refine ⟨fun h => ?_, fun h => h ▸ p.decode_encode⟩
  obtain ⟨⟨identityKey, b₁⟩, h₁, h⟩ := Option.bind_eq_some_iff.mp h
  obtain ⟨⟨node, b₂⟩, h₂, h⟩ := Option.bind_eq_some_iff.mp h
  obtain ⟨⟨author, b₃⟩, h₃, h⟩ := Option.bind_eq_some_iff.mp h
  obtain ⟨⟨signature, b₄⟩, h₄, h⟩ := Option.bind_eq_some_iff.mp h
  dsimp only at h₁ h₂ h₃ h₄ h
  split at h
  · next hempty =>
    obtain rfl := Option.some.inj h
    rw [eq_of_take h₁, eq_of_take h₂, eq_of_take h₃, eq_of_take h₄, List.isEmpty_iff.mp hempty]
    simp [encode, encodeDevices]
  · cases h

end JoinedPayload

namespace DevicesPayload

/-- `DevicesPayload::encode`. -/
def encode (p : DevicesPayload) : List UInt8 := encodeDevices p.devices ++ p.signature.toList

/-- `DevicesPayload::decode`: the last 64 bytes are the signature, the rest the devices. -/
def decode (bytes : List UInt8) : Option DevicesPayload :=
  if bytes.length < 64 then none
  else do
    let listed := bytes.take (bytes.length - 64)
    let signature ← Bytes.ofList? 64 (bytes.drop (bytes.length - 64))
    let devices ← decodeDevices listed.length listed
    return ⟨devices, signature⟩

lemma length_encode (p : DevicesPayload) : p.encode.length = 64 * p.devices.length + 64 := by
  simp [encode, p.signature.length_toList]

/-- An encoded device statement decodes to it.

**Proof sketch.** The signature is the last 64 bytes (`length_encode`), so what is listed is the
encoded device list, which `decodeDevices_encode` reads back. -/
@[simp] lemma decode_encode (p : DevicesPayload) : decode p.encode = some p := by
  have hlen := p.length_encode
  have hpos : p.encode.length - 64 = (encodeDevices p.devices).length := by simp [hlen]
  have hlisted : p.encode.take (p.encode.length - 64) = encodeDevices p.devices := by
    rw [hpos, encode, List.take_append_of_le_length le_rfl, List.take_length]
  have hsig : p.encode.drop (p.encode.length - 64) = p.signature.toList := by
    rw [hpos, encode, List.drop_append_of_le_length le_rfl, List.drop_length, List.nil_append]
  have hdev : decodeDevices (encodeDevices p.devices).length (encodeDevices p.devices) =
      some p.devices :=
    decodeDevices_encode p.devices _ (by simp; omega)
  unfold decode
  rw [if_neg (by omega)]
  simp only [hlisted, hsig, hdev, Bytes.ofList?_toList]
  rfl

/-- **The bytes that decode to a device statement are its encoding.** -/
lemma decode_iff {bytes : List UInt8} {p : DevicesPayload} :
    decode bytes = some p ↔ bytes = p.encode := by
  refine ⟨fun h => ?_, fun h => h ▸ p.decode_encode⟩
  unfold decode at h
  split at h
  · cases h
  obtain ⟨signature, hsignature, h⟩ := Option.bind_eq_some_iff.mp h
  obtain ⟨devices, hdevices, h⟩ := Option.bind_eq_some_iff.mp h
  obtain rfl := Option.some.inj h
  unfold Bytes.ofList? at hsignature
  split at hsignature
  · obtain rfl := Option.some.inj hsignature
    rw [encode, ← eq_of_decodeDevices hdevices, List.take_append_drop]
  · cases hsignature

end DevicesPayload

end MeePdn
