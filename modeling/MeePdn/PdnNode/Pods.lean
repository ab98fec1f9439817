import Mathlib.Data.Finset.Sort
import MeePdn.DataLayer.Pod.MembershipView.Pass

/-!
# What a device writes into a membership store

`pods.rs` of the node: the acts of a member, the join dialogue from both sides, and the device
statements a device writes. Each decision is a function of the membership view the device reads and
of the messages it gets; what it decides to write is a key and a payload.

## Main definitions

* `PodAct`, `ownerEvent`, `actEvent`, `actKey` — a membership act, its checks, and the key of its
  event.
* `offeredSeq`, `serveOffer`, `serveWrite` — the inviter's half of the join dialogue.
* `accept` — the joiner's answer to an offer.
* `registerDevice` — a device's own statement.
* `put` — a write into the store.

## Implementation notes

The dialogue's transport, its secrets and the tickets it hands over are left out, and so are the
waits of the runtime: a function here starts from the view the source reads at that point. A `u64`
addition is written out where the source checks or saturates it.
-/

namespace MeePdn.Pods

/-! ## Acts -/

/-- A membership act. -/
inductive PodAct where
  | promote (subject : PdnId)
  | demote (subject : PdnId)
  | remove (subject : PdnId)
  | leave
deriving DecidableEq

/-- Why an act is refused. -/
inductive ActRefusal where
  | notAnOwner
  | onItself
  | subjectNotMember
  | subjectNotOwner
  | soleOwner
deriving DecidableEq

/-- What a write fails with before anything is written. -/
inductive Failure where
  /-- `UnknownPod`. -/
  | unknownPod (pod : PodId)
  /-- `ActRefused`. -/
  | actRefused (act : PodAct) (reason : ActRefusal)
  /-- "membership sequence exhausted". -/
  | sequenceExhausted
  /-- "device statement version exhausted". -/
  | versionExhausted
deriving DecidableEq

/-- `u64::MAX`. -/
def maxU64 : ℕ := 2 ^ 64 - 1

/-- `require_member`. -/
def requireMember (membership : MembershipView) (identity : PdnId) (pod : PodId) :
    Except Failure Member :=
  match (membership.member identity).filter fun member => member.state.member with
  | some member => .ok member
  | none => .error (.unknownPod pod)

/-- The checks of `act_event` on an act that only an owner takes. -/
def ownerEvent (membership : MembershipView) (identity : PdnId) (actor : Member) (subject : PdnId)
    (kind : EventKind) : Except ActRefusal (PdnId × EventKind) :=
  if ¬ actor.state.owner then .error .notAnOwner
  else if subject = identity ∧ kind ≠ .promoted then .error .onItself
  else
    match (membership.member subject).filter fun member => member.state.member with
    | none => .error .subjectNotMember
    | some target =>
      if kind = .demoted ∧ ¬ target.state.owner then .error .subjectNotOwner
      else .ok (subject, kind)

/-- `act_event`: the event an act writes as `identity`, by the checks the membership view applies to
it and the guard on the one owner's leave. -/
def actEvent (membership : MembershipView) (identity : PdnId) (actor : Member) (act : PodAct) :
    Except ActRefusal (PdnId × EventKind) :=
  match act with
  | .leave =>
    let current := membership.identities.filter fun shown => shown.2.state.member
    let owners := (current.filter fun shown => shown.2.state.owner).length
    if actor.state.owner ∧ owners = 1 ∧ current.length > 1 then .error .soleOwner
    else .ok (identity, .left)
  | .promote subject => ownerEvent membership identity actor subject .promoted
  | .demote subject => ownerEvent membership identity actor subject .demoted
  | .remove subject => ownerEvent membership identity actor subject .removed

/-- `act_key`: the key of the event an act writes as `identity`, at the first sequence of its
subject's chain the replica holds no entry at, naming the actor's last. -/
def actKey (membership : MembershipView) (identity : PdnId) (pod : PodId) (act : PodAct) :
    Except Failure MembershipKey := do
  let actor ← requireMember membership identity pod
  match actEvent membership identity actor act with
  | .error reason => .error (.actRefused act reason)
  | .ok (subject, kind) =>
    let run := ((membership.member subject).map Member.run).getD 0
    if maxU64 < run + 1 then .error .sequenceExhausted
    else .ok (.event subject (Seq.new (run + 1)) kind identity (Seq.new actor.run))

/-! ## The join dialogue -/

/-- What the joiner asks with. -/
structure JoinRequest where
  joiner : PdnId
  identityKey : Bytes 32
  /-- The highest sequence of the joiner's own chain its replica holds or its own store records. -/
  run : ℕ
deriving DecidableEq

/-- What the inviter offers: the sequence the joiner's membership sits at, a fresh one when
`writeJoined`, and the pod's encoded created event. -/
structure JoinOffer where
  seq : ℕ
  writeJoined : Bool
  creation : List UInt8
deriving DecidableEq

/-- What the joiner answers: its join statement, or, when the offer writes no joined event, its
statement at version 0 naming the joining device alone. -/
structure JoinAcceptance where
  joinStatement : Option (List UInt8)
  deviceStatement : Option (List UInt8)
deriving DecidableEq

/-- `offered_seq`: the sequence the inviter offers and whether it writes a joined event there. -/
def offeredSeq (joinedAt : Option ℕ) (knownRun joinerRun : ℕ) : ℕ × Bool :=
  let fresh := (min (max knownRun joinerRun + 1) maxU64, true)
  match joinedAt with
  | some joined => if joinerRun ≤ knownRun then (joined, false) else fresh
  | none => fresh

/-- The sequence `serve_join` offers a joiner by the view it reads. -/
def offer (membership : MembershipView) (joiner : PdnId) (joinerRun : ℕ) : ℕ × Bool :=
  offeredSeq ((membership.member joiner).bind Member.joinedAt)
    (((membership.member joiner).map Member.run).getD 0) joinerRun

/-- The offer of `serve_join`; `none` when it refuses. -/
def serveOffer (prims : Primitives) (membership : MembershipView) (identity : PdnId)
    (request : JoinRequest) (creation : List UInt8) : Option JoinOffer :=
  if pdnIdOf prims request.identityKey ≠ request.joiner then none
  else
    match (membership.member identity).filter fun member => member.state.member with
    | none => none
    | some _ =>
      let (seq, writeJoined) := offer membership request.joiner request.run
      some { seq := seq, writeJoined := writeJoined, creation := creation }

/-- What `serve_join` writes upon the joiner's answer: `none` when it refuses, and an entry's key
and payload, or nothing for a member whose device is listed already. -/
def serveWrite (prims : Primitives) (pod : PodId) (membership : MembershipView) (identity : PdnId)
    (request : JoinRequest) (offer : JoinOffer) (acceptance : JoinAcceptance) :
    Option (Option (MembershipKey × List UInt8)) := do
  let inviter ← membership.member identity
  if offer.writeJoined then
    let joined ← acceptance.joinStatement.bind JoinedPayload.decode
    if joined.identityKey ≠ request.identityKey ∨
        ¬ joinVerifies prims request.joiner pod (Seq.new offer.seq) joined then none
    else
      return some (.event request.joiner (Seq.new offer.seq) .joined identity
        (Seq.new inviter.run), joined.encode)
  else
    let statement ← acceptance.deviceStatement.bind DevicesPayload.decode
    match statement.devices with
    | [device] =>
      if ¬ devicesVerify prims request.identityKey pod request.joiner 0 statement then none
      else if (membership.member request.joiner).any fun known => device ∈ known.devices then
        return none
      else return some (.devices request.joiner 0, statement.encode)
    | _ => none

/-- `creates`: whether the payload is the pod's created event. -/
def creates (prims : Primitives) (pod : PodId) (payload : CreatedPayload) : Bool :=
  let creator := pdnIdOf prims payload.identityKey
  podIdOf prims creator payload.identityKey payload.nonce = pod &&
    creationVerifies prims creator payload

/-- `accept`: the joiner's answer to an offer, with the run it asked with and the device it joins
from; `none` for an offer past its own history. -/
def accept (prims : Primitives) (keys : IdentityKeyPair) (pod : PodId) (run : ℕ)
    (device : MemberDevice) (offer : JoinOffer) : Option JoinAcceptance := do
  let creation ← CreatedPayload.decode offer.creation
  if ¬ creates prims pod creation ∨ offer.seq = 0 ∨ min (run + 1) maxU64 < offer.seq then none
  else if offer.writeJoined then
    return {
      joinStatement := some (keys.joinStatement prims pod (Seq.new offer.seq) device).encode
      deviceStatement := none }
  else
    return {
      joinStatement := none
      deviceStatement := some (keys.deviceStatement prims pod 0 [device]).encode }

/-! ## Device statements -/

/-- `register_device`: the statement a device writes to list itself; nothing when it is listed. -/
def registerDevice (prims : Primitives) (keys : IdentityKeyPair) (membership : MembershipView)
    (identity : PdnId) (pod : PodId) (device : MemberDevice) :
    Except Failure (Option (MembershipKey × List UInt8)) := do
  let statement (version : ℕ) (devices : List MemberDevice) : MembershipKey × List UInt8 :=
    (.devices identity (UInt64.ofNat version),
      (keys.deviceStatement prims pod (UInt64.ofNat version) (devices ++ [device])).encode)
  if membership.identities.isEmpty then return some (statement 1 [])
  else
    let member ← requireMember membership identity pod
    if device ∈ member.devices then return none
    else if maxU64 < member.statementVersion + 1 then .error .versionExhausted
    else return some (statement (member.statementVersion + 1) (member.devices.sort (· ≤ ·)))

/-! ## Writing -/

/-- `put`: a newer entry replaces the one at the same key and author. -/
def put (entries : List HeldEntry) (entry : HeldEntry) : List HeldEntry :=
  (entries.filter fun held => ¬ (held.key = entry.key ∧ held.author = entry.author)) ++ [entry]

end MeePdn.Pods
