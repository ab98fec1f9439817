import MeePdn.Asking
import MeePdn.DataLayer.Pod.Past
import MeePdn.PdnStore.Filter

/-!
# Who is served what

`data-layer/src/access.rs` and what it reads: a hosted identity's access book decides, for each
session, what the other side may see of a replica and what is taken from it. The decision asks the
registry, the identity's PMS, the pod's membership store and the payloads at hand one after the
other, while all of these may be written to.

## Main definitions

* `World` — what a decision reads: the records, the write counts, the payloads that have arrived and
  the views kept.
* `Question`, `World.answer` — what is asked, and how a world answers it.
* `AccessBook.serve`, `unserved`, `refused` — the decision on a membership view.
* `AccessBook.classify` — the decision, question by question.

## Implementation notes

This is the build without the test features. A lock that is poisoned and a store that fails are the
same error. A kept view is stored by whichever session built it; `Interleaving` in `KeptViews` says
which views a book can have kept. The hash maps of a membership view are iterated in one order
throughout, which a view does not depend on. The wait for a caller's payloads ends after `polls`
looks at them, however many the deadline allows.
-/

namespace MeePdn

open PdnStore Asking

/-! ## The registry -/

/-- `PodStore`: which of a pod's two stores. -/
inductive PodStore where
  | membership
  | records
deriving DecidableEq

/-- `PodBinding`: a pod's stores; no record store once the identity departed. -/
structure PodBinding where
  membership : NamespaceId
  records : Option NamespaceId
deriving DecidableEq

/-- `PodBinding::store_of`. -/
def PodBinding.storeOf (binding : PodBinding) (ns : NamespaceId) : Option PodStore :=
  if binding.membership = ns then some .membership
  else if binding.records = some ns then some .records
  else none

/-- `Registry`: the pods an identity holds. -/
structure Registry where
  pods : List (PodId × PodBinding)

/-- `Registry::pod`. -/
def Registry.pod (registry : Registry) (pod : PodId) : Option PodBinding := registry.pods.lookup pod

/-- `Registry::pod_of`: the pod a namespace is a store of, and which. -/
def Registry.podOf (registry : Registry) (ns : NamespaceId) : Option (PodId × PodStore) :=
  registry.pods.findSome? fun held => (held.2.storeOf ns).map fun store => (held.1, store)

/-! ## What is read -/

/-- `Read`: a membership store as one decision read it. -/
structure Read where
  view : MembershipView
  entries : List HeldEntry

/-- `KeptView`: a view with the write count its store had before its entries were read. -/
structure KeptView where
  store : NamespaceId
  writes : ℕ
  read : Read

/-- What a decision reads, as it stands at one moment. -/
structure World where
  records : Records
  /-- How many writes each replica has taken. -/
  writes : NamespaceId → ℕ
  /-- The payloads that have arrived. -/
  blobs : PdnStore.Hash → Option (List UInt8)
  /-- The views the book keeps. -/
  views : PodId → Option KeptView

/-- What is asked. -/
inductive Question where
  | podOf (ns : NamespaceId)
  | pod (pod : PodId)
  | ownPms
  /-- `SyncHandle::writes`. -/
  | writes (ns : NamespaceId)
  /-- `Doc::get_many`, of the keys that start so. -/
  | getMany (ns : NamespaceId) (start : List UInt8)
  /-- `device_listed`. -/
  | deviceListed (pms : NamespaceId) (key : List UInt8)
  /-- `blobs.has`. -/
  | has (hash : PdnStore.Hash)
  /-- `blobs.get_bytes`. -/
  | getBytes (hash : PdnStore.Hash)
  | keptView (pod : PodId)

/-- What it is answered. -/
abbrev Question.Answer : Question → Type
  | .podOf _ => Option (PodId × PodStore)
  | .pod _ => Option PodBinding
  | .ownPms => Option NamespaceId
  | .writes _ => ℕ
  | .getMany _ _ => List SignedEntry
  | .deviceListed _ _ => Bool
  | .has _ => Bool
  | .getBytes _ => List UInt8
  | .keptView _ => Option KeptView

/-- A program that asks these questions. -/
abbrev Asks (α : Type) := Prog Question.Answer α

/-- A question asked, by its name. -/
def askPodOf (ns : NamespaceId) : Asks (Option (PodId × PodStore)) := query (Question.podOf ns)

@[inherit_doc askPodOf]
def askPod (pod : PodId) : Asks (Option PodBinding) := query (Question.pod pod)

@[inherit_doc askPodOf]
def askOwnPms : Asks (Option NamespaceId) := query Question.ownPms

@[inherit_doc askPodOf]
def askWrites (ns : NamespaceId) : Asks ℕ := query (Question.writes ns)

@[inherit_doc askPodOf]
def askGetMany (ns : NamespaceId) (start : List UInt8) : Asks (List SignedEntry) :=
  query (Question.getMany ns start)

@[inherit_doc askPodOf]
def askDeviceListed (pms : NamespaceId) (key : List UInt8) : Asks Bool :=
  query (Question.deviceListed pms key)

@[inherit_doc askPodOf]
def askHas (hash : PdnStore.Hash) : Asks Bool := query (Question.has hash)

@[inherit_doc askPodOf]
def askGetBytes (hash : PdnStore.Hash) : Asks (List UInt8) := query (Question.getBytes hash)

@[inherit_doc askPodOf]
def askKeptView (pod : PodId) : Asks (Option KeptView) := query (Question.keptView pod)

/-- `AccessBook`: the material one hosted identity's decisions are made of, and whom it judges
for. -/
structure AccessBook where
  identity : PdnId
  /-- The PMS, once armed. -/
  pms : Option NamespaceId
  /-- Whether the payload store and the engine are attached. -/
  blobs : Bool
  sync : Bool
  /-- How many looks at a caller's payloads the wait for them allows. -/
  polls : ℕ
  registry : Registry

section World

variable (blake3 : List UInt8 → Bytes 32)

/-- Whether an entry is empty, as a deletion marker is. -/
def PdnStore.SignedEntry.isEmpty (e : SignedEntry) : Bool := e.contentHash = Hash.empty blake3

namespace World

/-- The entries of a replica a query over keys selects, in the order of author and key. -/
def getMany (world : World) (ns : NamespaceId) (start : List UInt8) : List SignedEntry :=
  (StoreInstance.ofNamespace ns world.records).filter fun e =>
    start.isPrefixOf e.key && !e.isEmpty blake3

/-- Whether the latest entry at a key, of whichever author, is there and not empty. -/
def deviceListed (world : World) (pms : NamespaceId) (key : List UInt8) : Bool :=
  (((StoreInstance.ofNamespace pms world.records).filter fun e => e.key = key).foldl
    (Keyed.newer SignedEntry.stamp) none).any fun e => !e.isEmpty blake3

/-- An entry put into a replica, which its write count shows. -/
def put (world : World) (e : SignedEntry) : World :=
  { world with
    records := world.records.insert e
    writes := fun ns => if ns = e.ns then world.writes ns + 1 else world.writes ns }

/-- A payload that arrives, which no count shows. -/
def arrive (world : World) (hash : PdnStore.Hash) (bytes : List UInt8) : World :=
  { world with blobs := fun asked => if asked = hash then some bytes else world.blobs asked }

/-- How a world answers. -/
def answer (book : AccessBook) (world : World) : (q : Question) → q.Answer
  | .podOf ns => book.registry.podOf ns
  | .pod pod => book.registry.pod pod
  | .ownPms => book.pms
  | .writes ns => world.writes ns
  | .getMany ns start => world.getMany blake3 ns start
  | .deviceListed pms key => world.deviceListed blake3 pms key
  | .has hash => (world.blobs hash).isSome
  | .getBytes hash => (world.blobs hash).getD []
  | .keptView pod => world.views pod

end World

end World

/-! ## What is taken -/

/-- `WriteAdmission`: the write-side half of a decision. -/
inductive WriteAdmission where
  | whole
  | past (entries : Finset PastEntry)
  | rests (taken : Rests)
  | signed (authors : Finset AuthorId) (statementsOf : Option PdnId)

/-- Whether a key is a device statement of a member. -/
def isStatementOf (member : PdnId) (key : List UInt8) : Bool :=
  match MembershipKey.parse key with
  | some (.devices of _) => of = member
  | _ => false

/-- Whether an admission takes an entry. -/
def WriteAdmission.admits (e : SignedEntry) : WriteAdmission → Bool
  | .whole => true
  | .past entries => (e.key, e.author) ∈ entries
  | .rests taken => taken.admits e.key
  | .signed authors statementsOf =>
    (statementsOf.any fun named => isStatementOf named e.key) || decide (e.author ∈ authors)

/-- `AccessBook::ingest`. -/
def ingest (admission : WriteAdmission) : SessionIngest :=
  fun e => if admission.admits e then .accept else .drop

lemma ingest_eq_accept {admission : WriteAdmission} {e : SignedEntry} :
    ingest admission e = .accept ↔ admission.admits e = true := by
  unfold ingest
  split_ifs with h <;> simp [h]

/-- `closed_egress`. -/
def closedEgress : EntryFilter := fun _ => false

/-- `resting_on`: an access resting on what was read, unless it rests on something no write count
shows. -/
def restingOn (access : SessionAccess) (read : RestsOn) : SessionAccess :=
  match access with
  | .allow egress ingest restsOn =>
    .allow egress ingest (if restsOn = .unknown then restsOn else read)
  | .deny => .deny

/-- `Unserved`: what a dial still takes from a callee it serves nothing. -/
inductive Unserved where
  | unresolved
  | members (authors : Finset AuthorId) (statementsOf : Option PdnId)
  | nothing

namespace AccessBook

variable (book : AccessBook)

/-- `AccessBook::whole`. -/
def whole : SessionAccess := .allow none (ingest .whole) .nothing

/-- `own_statements`. -/
def ownStatements : EntryFilter := fun e => isStatementOf book.identity e.key

/-! ## Decisions on what was read -/

/-- Whether the view shows a departure of an identity. -/
def departed (read : Read) (identity : PdnId) : Bool :=
  ((read.view.member identity).bind Member.departedAt).isSome

/-- Whether the view shows an identity as a current member. -/
def isMember (read : Read) (identity : PdnId) : Bool :=
  (read.view.member identity).any fun member => member.state.member

/-- `unserved`. -/
def unserved (read : Read) (caller : PdnId) : Unserved :=
  if departed read book.identity then .nothing
  else
    let current := read.view.identities.filter fun shown => shown.2.state.member
    let named := (read.view.member caller).filter fun member => member.state.member
    if current = [] ∨ ∃ member ∈ named, member.devices = ∅ then .unresolved
    else
      let authors := current.foldr (fun shown authors =>
        shown.2.devices.image MemberDevice.author ∪ authors) ∅
      .members authors (named.map fun _ => caller)

/-- `refused`: a session served nothing. -/
def refused (role : SessionRole) (unserved : Unserved) : SessionAccess :=
  match role with
  | .accept => .deny
  | .dial =>
    match unserved with
    | .unresolved => .allow (some book.ownStatements) (ingest .whole) .nothing
    | .members authors statementsOf =>
      .allow (some closedEgress) (ingest (.signed authors statementsOf)) .nothing
    | .nothing => .allow (some closedEgress) (ingest (.signed ∅ none)) .nothing

/-- `takes_statements_of`. -/
def takesStatementsOf (store : PodStore) (read : Read) (caller : PdnId) : Bool :=
  decide (store = .membership) && !departed read book.identity && isMember read caller

/-- What an accept takes from a node no statement of the current member it names lists. -/
def statementsAlone (caller : PdnId) : SessionAccess :=
  .allow (some closedEgress) (ingest (.signed ∅ (some caller))) .nothing

/-- Whether an entry that was read lacks its payload. -/
def unread (entries : List HeldEntry) : Bool := entries.any fun entry => entry.payload = .awaited

/-- An access that rests on payloads still on their way rests on something no write count shows. -/
def rested (entries : List HeldEntry) (access : SessionAccess) : SessionAccess :=
  if unread entries then restingOn access .unknown else access

lemma rested_allow (entries : List HeldEntry) (egress : Option EntryFilter)
    (ingest : SessionIngest) : rested entries (.allow egress ingest .nothing) =
      .allow egress ingest (if unread entries then .unknown else .nothing) := by
  unfold rested
  split_ifs <;> rfl

/-- Whether the view lists a node among a member's devices. -/
def lists (read : Read) (caller : PdnId) (peer : NodeId) : Bool :=
  (read.view.member caller).any fun member =>
    decide (∃ device ∈ member.devices, device.node = peer)

/-- A past both ways, which only the membership store has. -/
def overPast (store : PodStore) (entries : List HeldEntry) (past : Finset PastEntry)
    (admission : WriteAdmission) : Option SessionAccess :=
  match store with
  | .records => none
  | .membership => some (rested entries
      (.allow (some fun e => decide ((e.key, e.author) ∈ past)) (ingest admission) .nothing))

/-- `serve_pod`, once the membership store is read: how a session is served, `none` when it is
refused. -/
def serve (store : PodStore) (read : Read) (caller : PdnId) (peer : NodeId) :
    Option SessionAccess :=
  if lists read caller peer then
    if isMember read caller then
      match departurePast read.view read.entries book.identity with
      | none => some (rested read.entries whole)
      | some own =>
        overPast store read.entries own (.rests (Rests.of read.entries book.identity))
    else
      match departurePast read.view read.entries caller with
      | none => none
      | some theirs => overPast store read.entries theirs (.past theirs)
  else none

/-! ## The reads -/

variable (prims : Primitives) (orders : ℕ → HashOrder)

/-- `held_entries`, of one entry. -/
def heldEntry (e : SignedEntry) : Asks HeldEntry :=
  match HeldPayload.unread? e.key e.contentLen.toNat with
  | some payload => return ⟨e.key, e.author, payload⟩
  | none => do
    if ← askHas e.contentHash then
      return ⟨e.key, e.author, .read (← askGetBytes e.contentHash)⟩
    else return ⟨e.key, e.author, .awaited⟩

/-- `held_entries`. -/
def heldEntries (membership : NamespaceId) : Asks (List HeldEntry) := do
  let entries ← askGetMany membership []
  entries.mapM heldEntry

/-- The entries a view is built from; none before the payload store is attached. -/
def readEntries (membership : NamespaceId) : Asks (List HeldEntry) :=
  if book.blobs then heldEntries membership else return []

/-- `writes`: `none` where they cannot be read. -/
def writesOf (store : NamespaceId) : Asks (Option ℕ) :=
  if book.sync then (askWrites store).attempt else return none

/-- `kept_view`; none where the write count cannot be read. -/
def keptView (pod : PodId) (store : NamespaceId) : Option ℕ → Asks (Option Read)
  | none => return none
  | some writes => do
    let kept ← (askKeptView pod).attempt
    return kept.join.bind fun kept =>
      if kept.store = store ∧ kept.writes = writes then some kept.read else none

/-- The view over what was read of a membership store. -/
def readOf (pod : PodId) (membership : NamespaceId) (entries : List HeldEntry) : Read :=
  ⟨.new prims orders pod membership entries, entries⟩

@[simp] lemma entries_readOf (pod : PodId) (membership : NamespaceId)
    (entries : List HeldEntry) : (readOf prims orders pod membership entries).entries = entries :=
  rfl

/-- `membership_view_and_entries`. -/
def membershipViewAndEntries (pod : PodId) (membership : NamespaceId) : Asks Read := do
  let writes ← book.writesOf membership
  match ← keptView pod membership writes with
  | some read => return read
  | none => return readOf prims orders pod membership (← book.readEntries membership)

/-- `serve_pod`: how a session is served, or what was read to refuse it. -/
def servePod (pod : PodId) (store : PodStore) (membership : NamespaceId) (caller : PdnId)
    (peer : NodeId) : Asks (SessionAccess ⊕ Read) := do
  let read ← book.membershipViewAndEntries prims orders pod membership
  match book.serve store read caller peer with
  | some access => return .inl access
  | none => return .inr read

/-- The start of the keys of a member's own chain and statements. -/
def memberKeys (member : PdnId) : List UInt8 :=
  ascii "member/" ++ hexText member.bytes.toList ++ [slash]

/-- Looks at the payloads that are lacking, until they have all arrived. -/
def poll : ℕ → List PdnStore.Hash → Asks Unit
  | 0, _ => return ()
  | polls + 1, lacking => do
    let arrived ← lacking.mapM fun hash => askHas hash
    if arrived.all id then return () else poll polls lacking

/-- `await_payloads_of`. -/
def awaitPayloadsOf (membership : NamespaceId) (member : PdnId) : Asks Bool :=
  if book.blobs then do
    let entries ← askGetMany membership (memberKeys member)
    let looked ← entries.mapM fun e => do return (e.contentHash, ← askHas e.contentHash)
    let lacking := (looked.filter fun look => !look.2).map Prod.fst
    if lacking.isEmpty then return !entries.isEmpty
    else do
      poll book.polls lacking
      return true
  else return false

/-- `device_key`. -/
def deviceKey (device : NodeId) : List UInt8 := ascii "devices/" ++ hexText device.bytes.toList

/-- `peer_is_own_device`. -/
def peerIsOwnDevice (peer : NodeId) : Asks Bool := do
  match ← askOwnPms with
  | none => return false
  | some pms => askDeviceListed pms (deviceKey peer)

/-! ## Classification -/

/-- The second look of `classify_pod`, once the caller's payloads have arrived. -/
def serveAgain (pod : PodId) (store : PodStore) (membership : NamespaceId) (caller : PdnId)
    (peer : NodeId) (read : Read) : Asks (SessionAccess ⊕ Read) := do
  if ← book.awaitPayloadsOf membership caller then
    book.servePod prims orders pod store membership caller peer
  else return .inr read

/-- `classify_pod`, for another identity than this one. -/
def classifyOther (pod : PodId) (store : PodStore) (membership : NamespaceId) (caller : PdnId)
    (peer : NodeId) (role : SessionRole) : Asks SessionAccess := do
  match ← book.servePod prims orders pod store membership caller peer with
  | .inl access => return access
  | .inr read =>
    match ← book.serveAgain prims orders pod store membership caller peer read with
    | .inl access => return access
    | .inr read =>
      if role = .accept ∧ book.takesStatementsOf store read caller then
        return statementsAlone caller
      else return book.refused role (book.unserved read caller)

/-- `classify_pod`, for this identity. -/
def classifySibling (pod : PodId) (membership : NamespaceId) (peer : NodeId) (role : SessionRole) :
    Asks SessionAccess := do
  if ← peerIsOwnDevice peer then return whole
  else match role with
    | .accept => return .deny
    | .dial =>
      let read ← book.membershipViewAndEntries prims orders pod membership
      return book.refused role (book.unserved read book.identity)

/-- `classify_pod`. -/
def classifyPod (pod : PodId) (store : PodStore) (remote : Identity) (peer : NodeId)
    (role : SessionRole) : Asks SessionAccess := do
  match ← askPod pod with
  | none => return book.refused role .nothing
  | some held =>
    let caller : PdnId := ⟨remote.bytes⟩
    if caller = book.identity then
      book.classifySibling prims orders pod held.membership peer role
    else book.classifyOther prims orders pod store held.membership caller peer role

/-- `pms_is`. -/
def pmsIs (ns : NamespaceId) : Asks Bool := do
  let pms ← askOwnPms
  return pms = some ns

/-- `try_classify`. -/
def tryClassify (ns : NamespaceId) (remote : Identity) (peer : NodeId) (role : SessionRole) :
    Asks SessionAccess := do
  match ← askPodOf ns with
  | some (pod, store) => book.classifyPod prims orders pod store remote peer role
  | none => if ← pmsIs ns then return .whole else return .deny

/-- `decision_replicas`: the PMS and a pod's membership store. -/
def decisionReplicas (ns : NamespaceId) : Asks (List NamespaceId) := do
  match ← askPodOf ns with
  | none => return []
  | some (pod, _) =>
    let pms ← askOwnPms
    let held ← askPod pod
    return pms.toList ++ (held.map PodBinding.membership).toList

/-- `decision_reads`: the write counts of the replicas a decision reads. -/
def decisionReads (ns : NamespaceId) : Asks RestsOn := do
  let replicas ← (decisionReplicas ns).attempt
  match replicas, book.sync with
  | some replicas, true =>
    let read ← (replicas.mapM fun replica => do
      return (replica, ← askWrites replica)).attempt
    return (read.map RestsOn.writes).getD .unknown
  | _, _ => return .unknown

/-- `classify`: the decision on a session. -/
def classify (ns : NamespaceId) (addressed acting : Identity) (peer : NodeId)
    (role : SessionRole) : Asks SessionAccess :=
  match role with
  | .accept => do
    let read ← book.decisionReads ns
    let access ← (book.tryClassify prims orders ns acting peer .accept).attempt
    return restingOn (access.getD .deny) read
  | .dial => do
    let access ← (book.tryClassify prims orders ns addressed peer .dial).attempt
    return access.getD .deny

end AccessBook

end MeePdn
