import MeePdn.DataLayer.Pod.MembershipView.Basic

/-!
# The checks that read no member's state

`Parsed` and `Alone` of `pod/membership_view.rs`: the entries by their keys and which sequences of
each chain hold one, then every check made once per membership view — the identity keys, the
counted statements and the devices they list, the verdicts these decide, and the candidates, the
events that pass them all.

## Main definitions

* `Parsed`, `Parsed.of` — the entries by their keys, and each chain's run.
* `Alone`, `Alone.of` — the checks on each entry alone.
* `Alone.alone` — the checks on one event, in the order the source makes them.

## Implementation notes

A hash map no loop iterates is the function that looks a key up. The one the evaluation does
iterate, `runs`, keeps the list of its keys.
-/

namespace MeePdn

/-! ## Parsed -/

/-- The entries by their keys, and which sequences of each chain hold one. -/
structure Parsed where
  events : List Event
  statements : List Statement
  /-- The keys of `present` and `runs`. -/
  chains : List PdnId
  present : PdnId → Finset ℕ
  /-- Per chain, the last sequence before the first one holding no entry. -/
  runs : PdnId → ℕ

namespace Parsed

/-- The event an entry's key names. -/
def eventAt (held : HeldEntry × ℕ) : Option Event :=
  match MembershipKey.parse held.1.key with
  | some (.event subject seq kind actor actorSeq) =>
    some ⟨held.2, subject, seq.toNat, kind, actor, actorSeq.toNat⟩
  | _ => none

/-- The statement an entry's key names. -/
def statementAt (held : HeldEntry × ℕ) : Option Statement :=
  match MembershipKey.parse held.1.key with
  | some (.devices member version) => some ⟨held.2, member, version⟩
  | _ => none

/-- `while held.contains(&(run + 1)) { run += 1 }`; each turn meets another sequence that is held,
so their number bounds the turns. -/
def countRun (held : Finset ℕ) : ℕ → ℕ → ℕ
  | 0, run => run
  | fuel + 1, run => if run + 1 ∈ held then countRun held fuel (run + 1) else run

/-- `Parsed::of`. -/
def of (entries : List HeldEntry) : Parsed :=
  let events := entries.zipIdx.filterMap eventAt
  let present (member : PdnId) : Finset ℕ :=
    ((events.filter fun event => event.subject = member).map Event.seq).toFinset
  { events := events
    statements := entries.zipIdx.filterMap statementAt
    chains := (events.map Event.subject).dedup
    present := present
    runs := fun member => countRun (present member) (present member).card 0 }

/-- `Parsed::run`. -/
def run (parsed : Parsed) (member : PdnId) : ℕ := parsed.runs member

/-- Whether every sequence from 1 to `upto` of `member`'s chain holds an entry. -/
def holds (parsed : Parsed) (member : PdnId) (upto : ℕ) : Bool := upto ≤ parsed.run member

end Parsed

/-! ## Alone -/

/-- Every check that reads no member's state, once per membership view. -/
structure Alone where
  keys : PdnId → Option (Bytes 32)
  devices : PdnId → Finset MemberDevice
  statementVersions : PdnId → ℕ
  authors : PdnId → Finset AuthorId
  verdicts : List Verdict
  candidates : List Event

namespace Alone

variable (prims : Primitives) (pod : PodId) (store : NamespaceId) (entries : List HeldEntry)
  (parsed : Parsed)

/-- An entry's bytes, or the verdict their absence gives it. -/
def payload (entry : ℕ) : Except Verdict (List UInt8) :=
  match entries[entry]?.map HeldEntry.payload with
  | some (.read bytes) => .ok bytes
  | some .awaited => .error (.notYet .payload)
  | some .unread | some .outOfBounds | none => .error (.countedForNothing .malformed)

/-- `Alone::author`. -/
def author (entry : ℕ) : Option AuthorId := entries[entry]?.map HeldEntry.author

/-- The identity key an event's payload carries. -/
def carriedKey (event : Event) : Option (Bytes 32) :=
  match payload entries event.entry with
  | .error _ => none
  | .ok bytes =>
    match event.kind with
    | .created => (CreatedPayload.decode bytes).map CreatedPayload.identityKey
    | .joined => (JoinedPayload.decode bytes).map JoinedPayload.identityKey
    | _ => none

/-- One turn of `find_keys`. -/
def findKey (keys : PdnId → Option (Bytes 32)) (event : Event) : PdnId → Option (Bytes 32) :=
  match (carriedKey entries event).filter fun key => pdnIdOf prims key = event.subject with
  | some key => Function.update keys event.subject (some key)
  | none => keys

/-- `find_keys`: a member's identity key is the one any held created or joined event in its chain
carries that derives the member's `PdnId`. -/
def findKeys : PdnId → Option (Bytes 32) :=
  parsed.events.foldl (findKey prims entries) fun _ => none

/-- `statement_verdict`, given the identity keys. -/
def statementVerdict (keys : PdnId → Option (Bytes 32)) (statement : Statement) : Verdict :=
  match payload entries statement.entry with
  | .error verdict => verdict
  | .ok bytes =>
    match DevicesPayload.decode bytes with
    | none => .countedForNothing .malformed
    | some payload =>
      match keys statement.member with
      | none => .notYet .identityKey
      | some key =>
        if devicesVerify prims key pod statement.member statement.version payload then .counted
        else .countedForNothing .badSignature

/-- The devices a statement's payload lists. -/
def listedDevices (entry : ℕ) : Option (List MemberDevice) :=
  match payload entries entry with
  | .error _ => none
  | .ok bytes => (DevicesPayload.decode bytes).map DevicesPayload.devices

/-- One turn of `count_statements`. -/
def countStatement (alone : Alone) (statement : Statement) : Alone :=
  let verdict := statementVerdict prims pod entries alone.keys statement
  let m := statement.member
  let alone :=
    if verdict = .counted then
      match listedDevices entries statement.entry with
      | some devices =>
        { alone with
          authors := Function.update alone.authors m
            (alone.authors m ∪ (devices.map MemberDevice.author).toFinset)
          devices := Function.update alone.devices m (alone.devices m ∪ devices.toFinset)
          statementVersions := Function.update alone.statementVersions m
            (max (alone.statementVersions m) statement.version.toNat) }
      | none => alone
    else alone
  { alone with verdicts := alone.verdicts.set statement.entry verdict }

/-- The device a verified join statement names. -/
def joiningDevice (event : Event) : Option MemberDevice :=
  if event.kind ≠ .joined then none
  else
    match payload entries event.entry with
    | .error _ => none
    | .ok bytes =>
      match JoinedPayload.decode bytes with
      | none => none
      | some statement =>
        if pdnIdOf prims statement.identityKey ≠ event.subject ∨
            ¬ joinVerifies prims event.subject pod (Seq.new event.seq) statement then none
        else some statement.device

/-- One turn of `count_joining_devices`. -/
def countJoiningDevice (alone : Alone) (event : Event) : Alone :=
  match joiningDevice prims pod entries event with
  | none => alone
  | some device =>
    { alone with
      authors := Function.update alone.authors event.subject
        (insert device.author (alone.authors event.subject))
      devices := Function.update alone.devices event.subject
        (insert device (alone.devices event.subject)) }

/-- `creation_alone`. -/
def creationAlone (event : Event) : Except Verdict Unit := do
  let nothing (why : ForNothing) : Except Verdict Unit := .error (.countedForNothing why)
  if event.seq ≠ 1 ∨ event.actor ≠ event.subject ∨ event.actorSeq ≠ 0 then
    nothing .misplaced
  else
    let bytes ← payload entries event.entry
    match CreatedPayload.decode bytes with
    | none => nothing .malformed
    | some creation =>
      if podIdOf prims event.subject creation.identityKey creation.nonce ≠ pod then
        nothing .otherPod
      else if creation.membershipStore ≠ store then nothing .otherStore
      else if pdnIdOf prims creation.identityKey ≠ event.subject then nothing .keyOfAnother
      else if ¬ creationVerifies prims event.subject creation then nothing .badSignature
      else .ok ()

/-- `joining_alone`. -/
def joiningAlone (event : Event) : Except Verdict Unit := do
  let nothing (why : ForNothing) : Except Verdict Unit := .error (.countedForNothing why)
  if event.actor = event.subject then nothing .wrongActor
  else
    let bytes ← payload entries event.entry
    match JoinedPayload.decode bytes with
    | none => nothing .malformed
    | some statement =>
      if pdnIdOf prims statement.identityKey ≠ event.subject then nothing .keyOfAnother
      else if ¬ joinVerifies prims event.subject pod (Seq.new event.seq) statement then
        nothing .badSignature
      else .ok ()

/-- The checks of `alone` that depend on the event's kind. -/
def kindAlone (event : Event) : Except Verdict Unit :=
  match event.kind with
  | .created => creationAlone prims pod store entries event
  | .joined => joiningAlone prims pod entries event
  | .left =>
    if event.actor ≠ event.subject then .error (.countedForNothing .wrongActor) else .ok ()
  | .removed | .demoted =>
    if event.actor = event.subject then .error (.countedForNothing .wrongActor) else .ok ()
  | .promoted => .ok ()

/-- `alone`: every check on one event that reads no member's state. -/
def alone (authors : PdnId → Finset AuthorId) (event : Event) : Except Verdict Unit := do
  if event.seq = 0 then .error (.countedForNothing .misplaced)
  else
    kindAlone prims pod store entries event
    let authored := (author entries event.entry).any fun author => author ∈ authors event.actor
    if ¬ authored then .error (.countedForNothing .authorNotActorDevice)
    else if ¬ parsed.holds event.actor event.actorSeq then .error (.notYet .actorChain)
    else if ¬ parsed.holds event.subject (event.seq - 1) then .error (.notYet .subjectChain)
    else .ok ()

/-- One turn of `check_alone`. -/
def checkAlone (acc : Alone) (event : Event) : Alone :=
  match alone prims pod store entries parsed acc.authors event with
  | .ok () => { acc with candidates := acc.candidates ++ [event] }
  | .error verdict => { acc with verdicts := acc.verdicts.set event.entry verdict }

/-- `Alone::of`. -/
def of : Alone :=
  let start : Alone :=
    { keys := findKeys prims entries parsed
      devices := fun _ => ∅
      statementVersions := fun _ => 0
      authors := fun _ => ∅
      verdicts := List.replicate entries.length .outsideLayout
      candidates := [] }
  let counted := parsed.statements.foldl (countStatement prims pod entries) start
  let joined := parsed.events.foldl (countJoiningDevice prims pod entries) counted
  parsed.events.foldl (checkAlone prims pod store entries parsed) joined

end Alone

end MeePdn
