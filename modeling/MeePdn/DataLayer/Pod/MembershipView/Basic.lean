import MeePdn.DataLayer.IdentityKey

/-!
# The membership view: its data

`pod/membership_view.rs`: what a device holds of a membership store, what the view says of each
entry and of each identity, and the three tables every evaluation reads — which transition a state
allows, which event outranks which at one sequence, and the state an allowed transition leaves.

## Main definitions

* `HeldEntry`, `HeldPayload` — one entry of a membership store as a device holds it.
* `Verdict`, `ForNothing`, `Awaiting` — what one held entry counts for.
* `MemberState`, `Member`, `MembershipView` — what the view shows.
* `Event` — an event entry by its key.
* `allows`, `rank`, `apply` — the tables.

## Main results

* `payloads_decode_exactly` — **the membership payloads decode exactly what was encoded**, and the
  lengths the view reads an event at are those some payload has.

## Implementation notes

A `BTreeMap` is the list of its pairs in ascending order of the keys. Sequences inside the view
are natural numbers: they come from keys, so they are below `2 ^ 64`, and no sequence the view
computes passes the number of entries, which a slice bounds below `2 ^ 63`.
-/

namespace MeePdn

/-! ## Held entries -/

/-- An entry's payload as the membership view takes it. -/
inductive HeldPayload where
  /-- The bytes of a created or joined event or a device statement. -/
  | read (bytes : List UInt8)
  /-- Such an entry's bytes have not arrived. -/
  | awaited
  /-- No verdict rests on its bytes, so they are not read. -/
  | unread
  /-- A length its kind cannot have: never read, and counted for nothing. -/
  | outOfBounds
deriving DecidableEq

/-- One entry of a membership store as a device holds it. -/
structure HeldEntry where
  key : List UInt8
  author : AuthorId
  payload : HeldPayload
deriving DecidableEq

namespace HeldPayload

/-- What the view takes of a payload without reading it; `none` when it reads the bytes. -/
def unread? (key : List UInt8) (len : ℕ) : Option HeldPayload :=
  let bounded (fits : Bool) : Option HeldPayload := if fits then none else some outOfBounds
  match MembershipKey.parse key with
  | some (.event _ _ .created _ _) => bounded (len == createdLen)
  | some (.event _ _ .joined _ _) => bounded (len == joinedLen)
  | some (.devices _ _) => bounded (len ≤ statementMaxLen)
  | some (.event _ _ _ _ _) | none => some unread

/-- The bytes of a payload that is read. -/
def bytes : HeldPayload → Option (List UInt8)
  | read bytes => some bytes
  | awaited | unread | outOfBounds => none

end HeldPayload

lemma ne_len_iff {α : Type} {decode : List UInt8 → Option α} {encode : α → List UInt8} {n : ℕ}
    (hdecode : ∀ bytes p, decode bytes = some p ↔ bytes = encode p)
    (hlength : ∀ p, (encode p).length = n) (some : α) (len : ℕ) :
    len ≠ n ↔ ∀ bytes, bytes.length = len → decode bytes = none := by
  constructor
  · intro hne bytes hlen
    refine Option.eq_none_iff_forall_ne_some.mpr fun p hp => hne ?_
    rw [← hlen, (hdecode bytes p).mp hp, hlength p]
  · rintro hnone rfl
    have hnot := hnone (encode some) (hlength some)
    rw [(hdecode _ some).mpr rfl] at hnot
    cases hnot

/-- **The membership payloads decode exactly what was encoded.** The bytes that decode to a payload
are its encoding; a device list of any length is read back in order; and `unread` finds a created or
joined event out of bounds exactly at the lengths no payload has.

**Proof sketch.** A decoder takes each field off the front, so what it read, put together again, is
what it was given. All encodings of a created or joined payload have the one length `unread` asks
for, and there is one. -/
theorem payloads_decode_exactly :
    (∀ bytes (p : CreatedPayload), CreatedPayload.decode bytes = some p ↔ bytes = p.encode) ∧
    (∀ bytes (p : JoinedPayload), JoinedPayload.decode bytes = some p ↔ bytes = p.encode) ∧
    (∀ bytes (p : DevicesPayload), DevicesPayload.decode bytes = some p ↔ bytes = p.encode) ∧
    (∀ devices (signature : Bytes 64),
      (DevicesPayload.decode (encodeDevices devices ++ signature.toList)).map
        DevicesPayload.devices = some devices) ∧
    ∀ key len subject seq actor actorSeq,
      (MembershipKey.parse key = some (.event subject seq .created actor actorSeq) →
        (HeldPayload.unread? key len = some .outOfBounds ↔
          ∀ bytes, bytes.length = len → CreatedPayload.decode bytes = none)) ∧
      (MembershipKey.parse key = some (.event subject seq .joined actor actorSeq) →
        (HeldPayload.unread? key len = some .outOfBounds ↔
          ∀ bytes, bytes.length = len → JoinedPayload.decode bytes = none)) := by
  refine ⟨fun _ _ => CreatedPayload.decode_iff, fun _ _ => JoinedPayload.decode_iff,
    fun _ _ => DevicesPayload.decode_iff, fun devices signature => ?_,
    fun key len subject seq actor actorSeq => ⟨fun hkey => ?_, fun hkey => ?_⟩⟩
  · rw [← DevicesPayload.encode.eq_def ⟨devices, signature⟩, DevicesPayload.decode_encode,
      Option.map_some]
  · rw [← ne_len_iff (fun _ _ => CreatedPayload.decode_iff) CreatedPayload.length_encode
      ⟨.replicate 16 0, .replicate 32 0, ⟨.replicate 32 0⟩, ⟨.replicate 32 0⟩, .replicate 64 0⟩]
    simp [HeldPayload.unread?, hkey]
  · rw [← ne_len_iff (fun _ _ => JoinedPayload.decode_iff) JoinedPayload.length_encode
      ⟨.replicate 32 0, ⟨⟨.replicate 32 0⟩, ⟨.replicate 32 0⟩⟩, .replicate 64 0⟩]
    simp [HeldPayload.unread?, hkey]

/-- `held_entries`, of one entry whose bytes have arrived. -/
def HeldEntry.arrived (key : List UInt8) (author : AuthorId) (payload : List UInt8) :
    HeldEntry where
  key := key
  author := author
  payload := (HeldPayload.unread? key payload.length).getD (.read payload)

/-! ## Verdicts -/

/-- Why an entry counts for nothing. -/
inductive ForNothing where
  | malformed
  | misplaced
  | otherPod
  | otherStore
  | keyOfAnother
  | badSignature
  | wrongActor
  | authorNotActorDevice
  | authorNotNamed
  | actorLacksState
  | transitionNotAllowed
  | cyclic
  | lastOwnerKept
deriving DecidableEq

/-- What an entry waits for. -/
inductive Awaiting where
  | payload
  | actorChain
  | subjectChain
  | identityKey
deriving DecidableEq

/-- What one held entry counts for, over everything the device holds. -/
inductive Verdict where
  | counted
  | countedForNothing (why : ForNothing)
  | notYet (awaiting : Awaiting)
  | outsideLayout
deriving DecidableEq

/-! ## Members -/

/-- Whether an identity is a member at a point of its chain, and whether an owner. -/
structure MemberState where
  member : Bool
  owner : Bool
deriving DecidableEq

/-- `MemberState::default`: no member. -/
instance : Inhabited MemberState := ⟨⟨false, false⟩⟩

/-- An identity the membership store names, as the membership view shows it. -/
structure Member where
  /-- After its chain as far as the first sequence holding no entry. -/
  state : MemberState
  identityKey : Option (Bytes 32)
  devices : Finset MemberDevice
  /-- The highest version among its counted device statements; `0` for none. -/
  statementVersion : ℕ
  /-- The state after each sequence of that run, from 1. -/
  chain : List (ℕ × MemberState)

namespace Member

/-- The last sequence of the member's chain before the first one the device holds no entry at. -/
def run (m : Member) : ℕ := (m.chain.getLast?.map Prod.fst).getD 0

/-- `None` past the run of sequences the device holds. -/
def stateAt (m : Member) (seq : ℕ) : Option MemberState :=
  if seq = 0 then some default else m.chain.lookup seq

/-- The sequence at which the member last became one, while it is a member. -/
def joinedAt (m : Member) : Option ℕ :=
  if !m.state.member then none
  else (List.range' 1 m.run).reverse.find? fun seq =>
    !((m.stateAt (seq - 1)).any fun before => before.member)

/-- The sequence of the departure that ended the member's latest membership, while it is no
member. -/
def departedAt (m : Member) : Option ℕ :=
  if m.state.member then none
  else (List.range' 1 m.run).reverse.find? fun seq =>
    ((m.stateAt (seq - 1)).any fun before => before.member) &&
      (m.stateAt seq).any fun after => !after.member

end Member

/-- What a device's entries make of a pod's members, and each entry's verdict in the order the
entries were given. -/
structure MembershipView where
  members : List (PdnId × Member)
  verdicts : List Verdict

namespace MembershipView

/-- `MembershipView::member`. -/
def member (view : MembershipView) (id : PdnId) : Option Member := view.members.lookup id

/-- `MembershipView::identities`: every identity the store names, member or not. -/
def identities (view : MembershipView) : List (PdnId × Member) := view.members

/-- The view's state of an identity at a sequence of its chain; sequence 0 is the default state. -/
def stateAt (view : MembershipView) (id : PdnId) (seq : ℕ) : Option MemberState :=
  if seq = 0 then some default else (view.member id).bind fun m => m.stateAt seq

end MembershipView

/-! ## Events and the tables -/

/-- An event entry by its key. -/
structure Event where
  entry : ℕ
  subject : PdnId
  seq : ℕ
  kind : EventKind
  actor : PdnId
  actorSeq : ℕ
deriving DecidableEq

/-- A device statement by its key. -/
structure Statement where
  entry : ℕ
  member : PdnId
  version : UInt64
deriving DecidableEq

/-- A sequence of a chain. -/
abbrev Point := PdnId × ℕ

/-- The point an event lies at. -/
def Event.point (event : Event) : Point := (event.subject, event.seq)

/-- The point of its actor's chain an event names. -/
def Event.actorPoint (event : Event) : Point := (event.actor, event.actorSeq)

/-- Whether the state before a sequence allows the event's transition. -/
def allows (before : MemberState) : EventKind → Bool
  | .created | .joined => !before.member
  | .left | .removed | .promoted => before.member
  | .demoted => before.owner

/-- Precedence at one sequence, the narrowest state first. -/
def rank : EventKind → ℕ
  | .removed => 6
  | .left => 5
  | .demoted => 4
  | .promoted => 3
  | .created => 2
  | .joined => 1

/-- The state an allowed transition leaves. -/
def apply : EventKind → MemberState
  | .created | .promoted => ⟨true, true⟩
  | .joined | .demoted => ⟨true, false⟩
  | .left | .removed => default

lemma rank_injective : Function.Injective rank := by
  intro a b h
  cases a <;> cases b <;> first | rfl | (simp [rank] at h)

end MeePdn
