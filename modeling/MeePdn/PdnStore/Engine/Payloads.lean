import MeePdn.PdnStore.Engine.Scheduled

/-!
# The payloads that namespaces wait for

`pdn-store/src/engine/live.rs`: the part of the live actor that fetches payloads. A payload is
wanted by the namespaces whose entries name it. It is queued while some provider is registered for
it, in flight or waiting its turn in the fetch scheduler, and parked while none is.

## Main definitions

* `QueuedHashes` — which namespaces wait for which queued payloads, kept both ways.
* `Payloads` — the fetch scheduler with what is queued, what is parked, and what is under way.
* `Payloads.registerProvider`, `Payloads.want`, `Payloads.parkUnrouted` — what moves a payload from
  one to the other.

## Main results

* `Payloads.Tracked` — while a turn lasts: what the scheduler wants is queued, and what is queued is
  wanted or waits to be parked.
* `Payloads.Tracked.registerProvider`, `Payloads.Tracked.want`, `Payloads.Tracked.parkUnrouted` —
  they keep it, and the end of the turn leaves nothing to park.
* `Payloads.Cleared`, `Payloads.Serving` — what is wanted is parked by nobody, also while providers
  are registered for payloads that no other namespace has parked.

## Implementation notes

A set is visited in an order of its own. The tags that keep a payload from being collected are left
out.
-/

namespace MeePdn.PdnStore.Engine

/-- The orders in which a turn visits its sets. -/
structure Orders extends Visits where
  namespaces : SetOrder NamespaceId

/-! ## What is queued -/

/-- `QueuedHashes`: the two maps say the same. -/
structure QueuedHashes where
  byHash : Hash → Finset NamespaceId := fun _ => ∅
  byNamespace : NamespaceId → Finset Hash := fun _ => ∅
  mirrored : ∀ hash ns, ns ∈ byHash hash ↔ hash ∈ byNamespace ns := by simp

namespace QueuedHashes

variable (queued : QueuedHashes)

/-- `insert`. -/
def insert (hash : Hash) (ns : NamespaceId) : QueuedHashes where
  byHash := Function.update queued.byHash hash (Insert.insert ns (queued.byHash hash))
  byNamespace := Function.update queued.byNamespace ns (Insert.insert hash (queued.byNamespace ns))
  mirrored hash' ns' := by
    have hsame := queued.mirrored hash' ns'
    by_cases hhash : hash' = hash <;> by_cases hns : ns' = ns <;>
      simp_all [Function.update_of_ne]

/-- `remove_hash`: the namespaces that have nothing queued any more. -/
def emptied (hash : Hash) (order : SetOrder NamespaceId) : List NamespaceId :=
  (order.toList (queued.byHash hash)).filter fun ns => (queued.byNamespace ns).erase hash = ∅

/-- The queue without a payload. -/
def removeHash (hash : Hash) : QueuedHashes where
  byHash := Function.update queued.byHash hash ∅
  byNamespace ns := (queued.byNamespace ns).erase hash
  mirrored hash' ns := by
    have hsame := queued.mirrored hash' ns
    by_cases hhash : hash' = hash
    · simp [hhash]
    · simp [hhash, hsame]

/-- `take_hash`: the namespaces that wanted a payload, those of them that now want nothing, and the
queue without it. -/
def takeHash (hash : Hash) (order : SetOrder NamespaceId) :
    List NamespaceId × List NamespaceId × QueuedHashes :=
  (order.toList (queued.byHash hash), queued.emptied hash order, queued.removeHash hash)

/-- `remove_namespace`: the payloads no other namespace wants, and the queue without the namespace.
-/
def removeNamespace (ns : NamespaceId) (order : SetOrder Hash) : List Hash × QueuedHashes where
  fst := (order.toList (queued.byNamespace ns)).filter fun hash => (queued.byHash hash).erase ns = ∅
  snd :=
    { byHash := fun hash => (queued.byHash hash).erase ns
      byNamespace := Function.update queued.byNamespace ns ∅
      mirrored := by
        intro hash ns'
        have hsame := queued.mirrored hash ns'
        by_cases hns : ns' = ns
        · simp [hns]
        · simp [hns, hsame] }

/-- `contains_hash`. -/
def containsHash (hash : Hash) : Bool := queued.byHash hash ≠ ∅

/-- `contains_namespace`. -/
def containsNamespace (ns : NamespaceId) : Bool := queued.byNamespace ns ≠ ∅

end QueuedHashes

/-! ## What is queued, parked and under way -/

/-- The part of the live actor that fetches payloads. -/
structure Payloads where
  fetches : Fetches
  /-- Payloads the scheduler left with no provider in this turn. -/
  unrouted : List Hash
  /-- Wanted payloads no provider is registered for, by namespace. -/
  missingHashes : Finset (NamespaceId × Hash)
  /-- Per namespace whose content is scanned, the peer of the last session that went through. -/
  contentScans : NamespaceId → Option (Option NodeId)
  queuedHashes : QueuedHashes
  /-- `download_tasks`. -/
  downloads : List (NodeId × Hash)
  /-- The resumes that are still to come. -/
  resumes : List (NodeId × UInt64)

namespace Payloads

variable (orders : Orders) (payloads : Payloads)

/-- `apply_fetches`: what a call of the scheduler asks for. -/
def applyFetches (work : Working) : Payloads :=
  { payloads with
    fetches := work.toFetches
    downloads := payloads.downloads ++ work.toSteps.flights
    resumes := payloads.resumes ++ work.toSteps.armed
    unrouted := payloads.unrouted ++ work.unrouted }

/-- A payload is parked. -/
def park (ns : NamespaceId) (hash : Hash) : Payloads :=
  { payloads with missingHashes := insert (ns, hash) payloads.missingHashes }

/-- A payload is queued. -/
def enqueue (ns : NamespaceId) (hash : Hash) : Payloads :=
  { payloads with queuedHashes := payloads.queuedHashes.insert hash ns }

/-- `want`: fetched from the providers registered for it, or parked while there is none. -/
def want (ns : NamespaceId) (hash : Hash) : Payloads :=
  if (payloads.fetches.wanted hash).isSome then payloads.enqueue ns hash
  else
    let (routed, work) := payloads.fetches.want orders.toVisits hash
    (if routed then payloads.enqueue ns hash else payloads.park ns hash).applyFetches work

/-- A provider holds a payload. -/
def register (hash : Hash) (provider : NodeId) : Payloads :=
  payloads.applyFetches (payloads.fetches.register hash provider)

/-- `register_provider`: a payload the namespace parked is wanted again. -/
def registerProvider (ns : NamespaceId) (hash : Hash) (provider : NodeId) : Payloads :=
  let payloads := payloads.register hash provider
  if (ns, hash) ∈ payloads.missingHashes then
    { payloads with missingHashes := payloads.missingHashes.erase (ns, hash) }.want orders ns hash
  else payloads

/-- `register_provider` of one payload after the other. -/
def registerAll (ns : NamespaceId) (hashes : List Hash) (provider : NodeId) : Payloads :=
  hashes.foldl (fun payloads hash => payloads.registerProvider orders ns hash provider) payloads

/-- An entry whose payload the peer does not hold, or that was found to be missing. -/
def enqueueOrPark (ns : NamespaceId) (hash : Hash) : Payloads :=
  if payloads.queuedHashes.containsHash hash then payloads.enqueue ns hash
  else payloads.park ns hash

/-- What a remote insert does, when the peer holds the payload and when it does not. -/
def onRemoteInsert (ns : NamespaceId) (hash : Hash) (provider : NodeId) (complete : Bool) :
    Payloads :=
  if complete then
    let payloads := payloads.register hash provider
    { payloads with missingHashes := payloads.missingHashes.erase (ns, hash) }.want orders ns hash
  else payloads.enqueueOrPark ns hash

/-- What a scan of a namespace's content finds missing. -/
def onMissing (ns : NamespaceId) (met : Option NodeId) (hash : Hash) : Payloads :=
  let payloads := payloads.enqueueOrPark ns hash
  match met with
  | some peer => payloads.registerProvider orders ns hash peer
  | none => payloads

/-- `on_content_scanned`. -/
def onContentScanned (syncing : Bool) (ns : NamespaceId) (missing : List Hash) : Payloads :=
  let met := (payloads.contentScans ns).join
  let payloads :=
    { payloads with contentScans := Function.update payloads.contentScans ns none }
  if syncing then
    missing.foldl (fun payloads hash => payloads.onMissing orders ns met hash) payloads
  else payloads

/-- What a session that went through registers: its peer may hold every payload the namespace waits
for. -/
def onSynced (ns : NamespaceId) (peer : NodeId) : Payloads :=
  let queued := orders.hashes.toList (payloads.queuedHashes.byNamespace ns)
  let parked := orders.hashes.toList
    ((payloads.missingHashes.filter fun missing => missing.1 = ns).image Prod.snd)
  let payloads := payloads.registerAll orders ns parked peer
  let payloads :=
    { payloads with
      contentScans := Function.update payloads.contentScans ns
        ((payloads.contentScans ns).map fun _ => some peer) }
  payloads.registerAll orders ns queued peer

/-- The queue without a payload. -/
def dequeue (hash : Hash) : Payloads :=
  { payloads with queuedHashes := payloads.queuedHashes.removeHash hash }

/-- One payload's turn in `park_unrouted`. -/
def parkHash (syncing : NamespaceId → Bool) (hash : Hash) : List NamespaceId × Payloads :=
  if (payloads.fetches.wanted hash).isSome then ([], payloads)
  else
    let (wanting, done, queued) := payloads.queuedHashes.takeHash hash orders.namespaces
    (done, (wanting.filter syncing).foldl (fun payloads ns => payloads.park ns hash)
      { payloads with queuedHashes := queued })

/-- One payload's turn after the other, with the namespaces that have nothing queued any more. -/
def parkAll (syncing : NamespaceId → Bool) (hashes : List Hash)
    (parked : List NamespaceId × Payloads) : List NamespaceId × Payloads :=
  hashes.foldl
    (fun parked hash =>
      let (done, payloads) := parked.2.parkHash orders syncing hash
      (parked.1 ++ done, payloads))
    parked

/-- `park_unrouted`: the namespaces that have nothing queued any more. -/
def parkUnrouted (syncing : NamespaceId → Bool) : List NamespaceId × Payloads :=
  parkAll orders syncing payloads.unrouted ([], { payloads with unrouted := [] })

/-- What a namespace that is left does not want any more. -/
def leave (ns : NamespaceId) : Payloads :=
  let (unwanted, queued) := payloads.queuedHashes.removeNamespace ns orders.hashes
  { payloads with
    queuedHashes := queued
    fetches := unwanted.foldl
      (fun fetches hash => (fetches.unwant orders.toVisits hash).toFetches) payloads.fetches
    missingHashes := payloads.missingHashes.filter fun missing => missing.1 ≠ ns }

/-! ## What is queued is what is wanted -/

/-- **While a turn lasts**: what the scheduler wants is queued, and what is queued is wanted or is
still to be parked. -/
structure Tracked (rest : List Hash) : Prop where
  queued : ∀ hash, (payloads.fetches.wanted hash).isSome → payloads.queuedHashes.byHash hash ≠ ∅
  wanted : ∀ hash, payloads.queuedHashes.byHash hash ≠ ∅ →
    (payloads.fetches.wanted hash).isSome ∨ hash ∈ rest

/-- All that the turn left with no provider is still to be parked. -/
abbrev InTurn : Prop := payloads.Tracked payloads.unrouted

variable {orders payloads}

lemma byHash_insert (queued : QueuedHashes) (hash : Hash) (ns : NamespaceId) (other : Hash) :
    (queued.insert hash ns).byHash other ≠ ∅ ↔ other = hash ∨ queued.byHash other ≠ ∅ := by
  by_cases hne : other = hash
  · simp [QueuedHashes.insert, hne]
  · simp [QueuedHashes.insert, hne]

lemma QueuedHashes.mem_removeNamespace (queued : QueuedHashes) (ns : NamespaceId)
    (order : SetOrder Hash) (hash : Hash) :
    hash ∈ (queued.removeNamespace ns order).1 ↔
      ns ∈ queued.byHash hash ∧ (queued.byHash hash).erase ns = ∅ := by
  simp [QueuedHashes.removeNamespace, order.mem_toList, queued.mirrored]

lemma wanted_leave (ns : NamespaceId) (hash : Hash) :
    (payloads.leave orders ns).fetches.wanted hash =
      if hash ∈ (payloads.queuedHashes.removeNamespace ns orders.hashes).1 then none
      else payloads.fetches.wanted hash := by
  have hall : ∀ (hashes : List Hash) (fetches : Fetches),
      (hashes.foldl (fun fetches hash =>
        (fetches.unwant orders.toVisits hash).toFetches) fetches).wanted hash =
      if hash ∈ hashes then none else fetches.wanted hash := by
    intro hashes
    induction hashes with
    | nil => exact fun _ => rfl
    | cons other hashes ih => grind [Fetches.unwant, Working.wanted_unwant, Fetches.begin]
  exact hall _ _

lemma foldl_park (hash : Hash) (namespaces : List NamespaceId) :
    namespaces.foldl (fun payloads ns => payloads.park ns hash) payloads =
      { payloads with
        missingHashes := payloads.missingHashes ∪
          (namespaces.map fun ns => (ns, hash)).toFinset } := by
  induction namespaces generalizing payloads with
  | nil => simp
  | cons ns namespaces ih =>
    rw [List.foldl_cons, ih]
    simp [Payloads.park, Finset.insert_union, Finset.union_insert]

lemma unrouted_parkAll (syncing : NamespaceId → Bool) (hashes : List Hash)
    (parked : List NamespaceId × Payloads) :
    (parkAll orders syncing hashes parked).2.unrouted = parked.2.unrouted := by
  have hone : ∀ (payloads : Payloads) (hash : Hash),
      (payloads.parkHash orders syncing hash).2.unrouted = payloads.unrouted := by
    intro payloads hash
    unfold Payloads.parkHash
    split_ifs
    · rfl
    · simp only [foldl_park]
  induction hashes generalizing parked with
  | nil => rfl
  | cons hash hashes ih => exact (ih _).trans (hone _ hash)

lemma parkHash_other (syncing : NamespaceId → Bool) {hash other : Hash} (hne : other ≠ hash) :
    (payloads.parkHash orders syncing hash).2.queuedHashes.byHash other =
        payloads.queuedHashes.byHash other ∧
      ∀ ns, (ns, other) ∈ (payloads.parkHash orders syncing hash).2.missingHashes ↔
        (ns, other) ∈ payloads.missingHashes := by
  unfold Payloads.parkHash
  split_ifs
  · exact ⟨rfl, fun _ => Iff.rfl⟩
  · simp [QueuedHashes.takeHash, foldl_park, QueuedHashes.removeHash, hne, Ne.symm hne]

/-- What is not to be parked stays as it is. -/
lemma parkAll_other (syncing : NamespaceId → Bool) {other : Hash} (hashes : List Hash)
    (hother : other ∉ hashes) (parked : List NamespaceId × Payloads) :
    (parkAll orders syncing hashes parked).2.queuedHashes.byHash other =
        parked.2.queuedHashes.byHash other ∧
      ∀ ns, (ns, other) ∈ (parkAll orders syncing hashes parked).2.missingHashes ↔
        (ns, other) ∈ parked.2.missingHashes := by
  induction hashes generalizing parked with
  | nil => exact ⟨rfl, fun _ => Iff.rfl⟩
  | cons hash hashes ih =>
    rw [List.mem_cons, not_or] at hother
    obtain ⟨hqueued, hmissing⟩ := @parkHash_other orders parked.2 syncing hash other hother.1
    obtain ⟨hqueued', hmissing'⟩ :=
      ih hother.2 (parked.1 ++ (parked.2.parkHash orders syncing hash).1,
        (parked.2.parkHash orders syncing hash).2)
    exact ⟨hqueued'.trans hqueued, fun ns => (hmissing' ns).trans (hmissing ns)⟩

lemma parkUnrouted_other (syncing : NamespaceId → Bool) {other : Hash}
    (hother : other ∉ payloads.unrouted) :
    (payloads.parkUnrouted orders syncing).2.queuedHashes.byHash other =
        payloads.queuedHashes.byHash other ∧
      ∀ ns, (ns, other) ∈ (payloads.parkUnrouted orders syncing).2.missingHashes ↔
        (ns, other) ∈ payloads.missingHashes :=
  parkAll_other syncing _ hother _

namespace Tracked

variable {rest : List Hash} {hash : Hash} {ns : NamespaceId}

/-- What a call of the scheduler does not want any more, it reports. -/
lemma applyFetches (h : payloads.Tracked rest) {work : Working}
    (hwork : Unroutes payloads.fetches.begin work) :
    (payloads.applyFetches work).Tracked (rest ++ work.unrouted) where
  queued hash hsome := by
    refine h.queued hash ?_
    rcases hwork hash with ⟨hsame, -⟩ | ⟨hbefore, -, -⟩
    · exact hsame.symm.trans hsome
    · exact hbefore
  wanted hash hqueued := by
    rw [List.mem_append]
    rcases h.wanted hash hqueued with hsome | hrest
    · rcases hwork hash with ⟨hsame, -⟩ | ⟨-, -, hcount⟩
      · exact .inl (hsame.trans hsome)
      · refine .inr (.inr (List.count_pos_iff.mp ?_))
        omega
    · exact .inr (.inl hrest)

/-- A payload is queued with what makes it wanted. -/
lemma enqueue (h : payloads.Tracked rest) {fetches : Fetches}
    (hwanted : ∀ other, (fetches.wanted other).isSome =
      ((payloads.fetches.wanted other).isSome || decide (other = hash))) :
    { payloads.enqueue ns hash with fetches := fetches }.Tracked rest where
  queued other hsome := by
    refine (byHash_insert _ _ _ _).mpr ?_
    rw [hwanted, Bool.or_eq_true, decide_eq_true_eq] at hsome
    exact hsome.symm.imp_right (h.queued other)
  wanted other hqueued := by
    change (fetches.wanted other).isSome ∨ other ∈ rest
    rw [hwanted, Bool.or_eq_true, decide_eq_true_eq]
    rcases (byHash_insert _ _ _ _).mp hqueued with heq | hbefore
    · exact .inl (.inr heq)
    · exact (h.wanted other hbefore).imp_left .inl

lemma want (h : payloads.InTurn) : (payloads.want orders ns hash).InTurn := by
  unfold Payloads.want
  split_ifs with hsome
  · refine @enqueue payloads _ hash ns h payloads.fetches fun other => ?_
    by_cases hne : other = hash
    · simp [hne, hsome]
    · simp [hne]
  · obtain ⟨hwanted, hnone⟩ := @wanted_want orders.toVisits payloads.fetches hash
    generalize payloads.fetches.want orders.toVisits hash = called at hwanted hnone
    obtain ⟨routed, work⟩ := called
    simp only at hwanted hnone ⊢
    cases routed with
    | true =>
      have hrouted := @enqueue payloads _ hash ns h work.toFetches fun other => by
        simpa using hwanted other
      exact ⟨hrouted.queued, fun other hqueued => (hrouted.wanted other hqueued).imp_right
        (List.mem_append_left _)⟩
    | false =>
      have hsteady : Steady payloads.fetches.begin work :=
        ⟨fun other => by simpa [Fetches.begin] using hwanted other, hnone⟩
      have hcalled := h.applyFetches hsteady.unroutes
      exact ⟨hcalled.queued, hcalled.wanted⟩

lemma register (h : payloads.InTurn) (provider : NodeId) :
    (payloads.register hash provider).InTurn :=
  h.applyFetches (Acts.register _ hash provider).unroutes

lemma registerProvider (h : payloads.InTurn) (provider : NodeId) :
    (payloads.registerProvider orders ns hash provider).InTurn := by
  have hregistered := @register payloads hash h provider
  unfold Payloads.registerProvider
  simp only
  split_ifs
  · exact want ⟨hregistered.queued, hregistered.wanted⟩
  · exact hregistered

lemma registerAll (hashes : List Hash) (provider : NodeId) (h : payloads.InTurn) :
    (payloads.registerAll orders ns hashes provider).InTurn := by
  unfold Payloads.registerAll
  induction hashes generalizing payloads with
  | nil => exact h
  | cons hash hashes ih => exact ih (h.registerProvider provider)

lemma enqueueOrPark (h : payloads.InTurn) : (payloads.enqueueOrPark ns hash).InTurn := by
  unfold Payloads.enqueueOrPark
  split_ifs with hcontains
  · have hqueued : payloads.queuedHashes.byHash hash ≠ ∅ := by
      simpa [QueuedHashes.containsHash] using hcontains
    have hsame : ∀ other, (payloads.enqueue ns hash).queuedHashes.byHash other ≠ ∅ →
        payloads.queuedHashes.byHash other ≠ ∅ := by
      intro other hother
      rcases (byHash_insert _ _ _ _).mp hother with rfl | hbefore
      · exact hqueued
      · exact hbefore
    exact ⟨fun other hsome => (byHash_insert _ _ _ _).mpr (.inr (h.queued other hsome)),
      fun other hother => h.wanted other (hsame other hother)⟩
  · exact ⟨h.queued, h.wanted⟩

lemma onRemoteInsert (h : payloads.InTurn) (provider : NodeId)
    (complete : Bool) : (payloads.onRemoteInsert orders ns hash provider complete).InTurn := by
  have hregistered := @register payloads hash h provider
  unfold Payloads.onRemoteInsert
  split_ifs
  · exact want ⟨hregistered.queued, hregistered.wanted⟩
  · exact h.enqueueOrPark

lemma onMissing (h : payloads.InTurn) (met : Option NodeId) :
    (payloads.onMissing orders ns met hash).InTurn := by
  cases met with
  | none => exact h.enqueueOrPark
  | some peer => exact h.enqueueOrPark.registerProvider peer

lemma onContentScanned (h : payloads.InTurn) (syncing : Bool) (missing : List Hash) :
    (payloads.onContentScanned orders syncing ns missing).InTurn := by
  have hall : ∀ (met : Option NodeId) (missing : List Hash) (payloads : Payloads),
      payloads.InTurn → (missing.foldl
        (fun payloads hash => payloads.onMissing orders ns met hash) payloads).InTurn := by
    intro met missing
    induction missing with
    | nil => exact fun _ h => h
    | cons hash missing ih => exact fun _ h => ih _ (h.onMissing met)
  unfold Payloads.onContentScanned
  simp only
  split_ifs
  · exact hall _ missing _ ⟨h.queued, h.wanted⟩
  · exact ⟨h.queued, h.wanted⟩

lemma onSynced (h : payloads.InTurn) (peer : NodeId) :
    (payloads.onSynced orders ns peer).InTurn := by
  have hparked := @registerAll orders payloads ns (orders.hashes.toList
    ((payloads.missingHashes.filter fun missing => missing.1 = ns).image Prod.snd)) peer h
  exact registerAll _ peer ⟨hparked.queued, hparked.wanted⟩

/-- A payload that came is queued no more, and one that did not is asked for elsewhere or reported.
-/
lemma finished (h : payloads.InTurn) (p : NodeId) (outcome : Outcome) (neighbor : Bool) (now : ℕ) :
    ((if outcome = .fetched ∨ outcome = .held then payloads.dequeue hash else payloads).applyFetches
      (payloads.fetches.finished orders.toVisits p hash outcome neighbor now)).InTurn := by
  have hrest :=
    (Acts.finished orders.toVisits payloads.fetches p hash outcome neighbor now).unroutes
  split_ifs with hcame
  · obtain ⟨hsettled, hnone⟩ :=
      @wanted_settled orders.toVisits payloads.fetches p hash _ neighbor now hcame
    -- The queue without the payload goes with the settled scheduler; then it goes on as any call.
    have hmid : { payloads.dequeue hash with
        fetches := (payloads.fetches.settled orders.toVisits p hash outcome neighbor now).toFetches
      }.Tracked payloads.unrouted := by
      have hsome : ∀ other, other ≠ hash →
          ((payloads.fetches.settled orders.toVisits p hash outcome neighbor now).wanted
            other).isSome = (payloads.fetches.wanted other).isSome := by
        intro other hne
        rw [hsettled, if_neg hne, (Steady.landed payloads.fetches).wanted]
        rfl
      constructor
      · intro other hwanted
        have hne : other ≠ hash := by
          rintro rfl
          simp [hsettled] at hwanted
        simpa [Payloads.dequeue, QueuedHashes.removeHash, hne] using
          h.queued other ((hsome other hne).symm.trans hwanted)
      · intro other hqueued
        have hne : other ≠ hash := by
          rintro rfl
          simp [Payloads.dequeue, QueuedHashes.removeHash] at hqueued
        refine (h.wanted other ?_).imp_left (hsome other hne).trans
        simpa [Payloads.dequeue, QueuedHashes.removeHash, hne] using hqueued
    have hcalled := hmid.applyFetches fun other => by simpa [hnone, Fetches.begin] using hrest other
    exact ⟨hcalled.queued, hcalled.wanted⟩
  · exact h.applyFetches ((unroutes_settled _ p hash neighbor now hcame).trans hrest)

/-- What a namespace that is left alone wanted is given up. -/
lemma leave (h : payloads.InTurn) : (payloads.leave orders ns).InTurn := by
  have hgiven := QueuedHashes.mem_removeNamespace payloads.queuedHashes ns orders.hashes
  constructor
  · intro other hsome hnone
    change (payloads.queuedHashes.byHash other).erase ns = ∅ at hnone
    have hmem : other ∉ (payloads.queuedHashes.removeNamespace ns orders.hashes).1 := by
      intro hmem
      simp [wanted_leave, hmem] at hsome
    rw [wanted_leave, if_neg hmem] at hsome
    have hin : ns ∈ payloads.queuedHashes.byHash other := by grind [h.queued]
    exact hmem ((hgiven other).mpr ⟨hin, hnone⟩)
  · intro other hqueued
    change (payloads.queuedHashes.byHash other).erase ns ≠ ∅ at hqueued
    have hmem : other ∉ (payloads.queuedHashes.removeNamespace ns orders.hashes).1 :=
      fun hmem => hqueued ((hgiven other).mp hmem).2
    rw [wanted_leave, if_neg hmem]
    exact h.wanted other fun hnone => hqueued (by simp [hnone])

/-- The turn of a payload that is to be parked. -/
lemma parkHash (syncing : NamespaceId → Bool) (h : payloads.Tracked (hash :: rest)) :
    (payloads.parkHash orders syncing hash).2.Tracked rest := by
  unfold Payloads.parkHash
  split_ifs with hsome
  · refine ⟨h.queued, fun other hqueued => ?_⟩
    rcases h.wanted other hqueued with hwanted | hmem
    · exact .inl hwanted
    · rcases List.mem_cons.mp hmem with rfl | hrest
      · exact .inl hsome
      · exact .inr hrest
  · simp only [QueuedHashes.takeHash, foldl_park]
    constructor
    · intro other hwanted
      have hne : other ≠ hash := by
        rintro rfl
        exact hsome hwanted
      simpa [QueuedHashes.removeHash, hne] using h.queued other hwanted
    · intro other hqueued
      have hne : other ≠ hash := by
        rintro rfl
        simp [QueuedHashes.removeHash] at hqueued
      have hbefore := h.wanted other (by simpa [QueuedHashes.removeHash, hne] using hqueued)
      simpa [hne] using hbefore

/-- **The end of a turn** leaves nothing to park: what is queued is what is wanted. -/
lemma parkUnrouted (syncing : NamespaceId → Bool) (h : payloads.InTurn) :
    (payloads.parkUnrouted orders syncing).2.Tracked [] := by
  have hall : ∀ (rest : List Hash) (emptied : List NamespaceId) (payloads : Payloads),
      payloads.Tracked rest → (parkAll orders syncing rest (emptied, payloads)).2.Tracked [] := by
    intro rest
    induction rest with
    | nil => exact fun _ _ h => h
    | cons hash rest ih => exact fun _ _ h => ih _ _ (h.parkHash syncing)
  exact hall _ _ _ ⟨h.queued, h.wanted⟩

end Tracked

/-! ## What is wanted is parked by nobody -/

/-- No namespace has parked a payload the scheduler wants. -/
def Cleared (payloads : Payloads) : Prop :=
  ∀ hash, (payloads.fetches.wanted hash).isSome → ∀ ns, (ns, hash) ∉ payloads.missingHashes

/-- While providers of some payloads are registered for a namespace: what is wanted is parked by
nobody, and no other namespace has parked any of those payloads. -/
structure Serving (ns : NamespaceId) (hashes : Set Hash) (payloads : Payloads) : Prop where
  cleared : payloads.Cleared
  sole : ∀ hash ∈ hashes, ∀ other, (other, hash) ∈ payloads.missingHashes → other = ns

lemma Cleared.mono (h : payloads.Cleared) {payloads' : Payloads}
    (hwanted : ∀ hash, (payloads'.fetches.wanted hash).isSome →
      (payloads.fetches.wanted hash).isSome)
    (hmissing : payloads'.missingHashes ⊆ payloads.missingHashes) : payloads'.Cleared :=
  fun hash hsome ns hmem => h hash (hwanted hash hsome) ns (hmissing hmem)

lemma Cleared.applyFetches (h : payloads.Cleared) {work : Working}
    (hwork : Unroutes payloads.fetches.begin work) : (payloads.applyFetches work).Cleared := by
  refine h.mono (fun hash hsome => ?_) (Finset.Subset.refl _)
  rcases hwork hash with ⟨hsame, -⟩ | ⟨hbefore, -, -⟩
  · exact hsame.symm.trans hsome
  · exact hbefore

lemma Cleared.finished {hash : Hash} (h : payloads.Cleared) (p : NodeId) (outcome : Outcome)
    (neighbor : Bool) (now : ℕ) :
    ((if outcome = .fetched ∨ outcome = .held then payloads.dequeue hash else payloads).applyFetches
      (payloads.fetches.finished orders.toVisits p hash outcome neighbor now)).Cleared := by
  have hrest :=
    (Acts.finished orders.toVisits payloads.fetches p hash outcome neighbor now).unroutes
  split_ifs with hcame
  · obtain ⟨hsettled, -⟩ :=
      @wanted_settled orders.toVisits payloads.fetches p hash _ neighbor now hcame
    refine h.mono (fun other hsome => ?_) (Finset.Subset.refl _)
    have hbefore : ((payloads.fetches.settled orders.toVisits p hash outcome neighbor now).wanted
        other).isSome := by
      rcases hrest other with ⟨hsame, -⟩ | ⟨hbefore, -, -⟩
      · exact hsame.symm.trans hsome
      · exact hbefore
    rw [hsettled] at hbefore
    split_ifs at hbefore
    · simp at hbefore
    · rwa [(Steady.landed payloads.fetches).wanted] at hbefore
  · exact h.applyFetches ((unroutes_settled _ p hash neighbor now hcame).trans hrest)

lemma Cleared.leave (h : payloads.Cleared) (ns : NamespaceId) :
    (payloads.leave orders ns).Cleared := by
  refine h.mono (fun hash hsome => ?_) (Finset.filter_subset _ _)
  rw [wanted_leave] at hsome
  split_ifs at hsome
  · simp at hsome
  · exact hsome

/-- Only what is not wanted is parked when a turn is over. -/
lemma Cleared.parkUnrouted (h : payloads.Cleared) (syncing : NamespaceId → Bool) :
    (payloads.parkUnrouted orders syncing).2.Cleared := by
  have hone : ∀ (payloads : Payloads) (hash : Hash), payloads.Cleared →
      (payloads.parkHash orders syncing hash).2.Cleared := by
    intro payloads hash h
    unfold Payloads.parkHash
    split_ifs with hsome
    · exact h
    · simp only [QueuedHashes.takeHash, foldl_park]
      intro other hwanted ns hmem
      rcases Finset.mem_union.mp hmem with hmem | hmem
      · exact h other hwanted ns hmem
      · obtain ⟨_, -, heq⟩ := List.mem_map.mp (List.mem_toFinset.mp hmem)
        obtain rfl : hash = other := (Prod.mk.inj heq).2
        exact hsome hwanted
  have hall : ∀ (hashes : List Hash) (parked : List NamespaceId × Payloads), parked.2.Cleared →
      (parkAll orders syncing hashes parked).2.Cleared := by
    intro hashes
    induction hashes with
    | nil => exact fun _ h => h
    | cons hash hashes ih => exact fun parked h => ih _ (hone parked.2 hash h)
  exact hall _ _ h

namespace Serving

variable {ns : NamespaceId} {hashes : Set Hash} {hash : Hash}

/-- A payload nobody has parked is queued, or parked when no provider takes it. -/
lemma want (h : payloads.Serving ns hashes)
    (hnone : ∀ other, (other, hash) ∉ payloads.missingHashes) :
    (payloads.want orders ns hash).Serving ns hashes := by
  unfold Payloads.want
  split_ifs with hsome
  · exact ⟨h.cleared, h.sole⟩
  · obtain ⟨hwanted, -⟩ := @wanted_want orders.toVisits payloads.fetches hash
    generalize payloads.fetches.want orders.toVisits hash = called at hwanted
    obtain ⟨routed, work⟩ := called
    simp only at hwanted ⊢
    cases routed with
    | true =>
      refine ⟨fun other hother => ?_, h.sole⟩
      have hbefore : (payloads.fetches.wanted other).isSome ∨ other = hash := by
        simpa using (hwanted other).symm.trans hother
      rcases hbefore with hbefore | rfl
      · exact h.cleared other hbefore
      · exact hnone
    | false =>
      constructor
      · intro other hother ns' hmem
        have hbefore : (payloads.fetches.wanted other).isSome := by
          simpa using (hwanted other).symm.trans hother
        rcases Finset.mem_insert.mp hmem with heq | hmem
        · obtain ⟨-, rfl⟩ := Prod.mk.inj heq
          exact hsome hbefore
        · exact h.cleared other hbefore ns' hmem
      · intro other hother ns' hmem
        rcases Finset.mem_insert.mp hmem with heq | hmem
        · exact (Prod.mk.inj heq).1
        · exact h.sole other hother ns' hmem

lemma register (h : payloads.Serving ns hashes) (provider : NodeId) :
    (payloads.register hash provider).Serving ns hashes :=
  ⟨h.cleared.applyFetches (Acts.register _ hash provider).unroutes, h.sole⟩

lemma want_erase (h : payloads.Serving ns hashes) (hmem : hash ∈ hashes) :
    ({ payloads with missingHashes := payloads.missingHashes.erase (ns, hash) }.want orders ns
      hash).Serving ns hashes := by
  have herased : { payloads with
      missingHashes := payloads.missingHashes.erase (ns, hash) }.Serving ns hashes :=
    ⟨h.cleared.mono (fun _ => id) (Finset.erase_subset _ _),
      fun other hother ns' hin => h.sole other hother ns' (Finset.mem_of_mem_erase hin)⟩
  refine herased.want fun other hin => ?_
  obtain ⟨hne, hin⟩ := Finset.mem_erase.mp hin
  exact hne (by rw [h.sole hash hmem other hin])

lemma registerProvider (h : payloads.Serving ns hashes) (hmem : hash ∈ hashes) (provider : NodeId) :
    (payloads.registerProvider orders ns hash provider).Serving ns hashes := by
  unfold Payloads.registerProvider
  simp only
  split_ifs
  · exact (h.register provider).want_erase hmem
  · exact h.register provider

lemma registerAll (list : List Hash) (hall : ∀ hash ∈ list, hash ∈ hashes) (provider : NodeId)
    (h : payloads.Serving ns hashes) :
    (payloads.registerAll orders ns list provider).Serving ns hashes := by
  unfold Payloads.registerAll
  induction list generalizing payloads with
  | nil => exact h
  | cons hash list ih =>
    rw [List.forall_mem_cons] at hall
    exact ih hall.2 (h.registerProvider hall.1 provider)

/-- A payload that is not queued is not wanted, and may be parked. -/
lemma enqueueOrPark (h : payloads.Serving ns hashes) (htracked : payloads.InTurn) :
    (payloads.enqueueOrPark ns hash).Serving ns hashes := by
  unfold Payloads.enqueueOrPark
  split_ifs with hcontains
  · exact ⟨h.cleared, h.sole⟩
  · constructor
    · intro other hsome ns' hmem
      rcases Finset.mem_insert.mp hmem with heq | hmem
      · obtain ⟨-, rfl⟩ := Prod.mk.inj heq
        exact hcontains (by simpa [QueuedHashes.containsHash] using htracked.queued other hsome)
      · exact h.cleared other hsome ns' hmem
    · intro other hother ns' hmem
      rcases Finset.mem_insert.mp hmem with heq | hmem
      · exact (Prod.mk.inj heq).1
      · exact h.sole other hother ns' hmem

lemma onContentScanned (h : payloads.Serving ns hashes)
    (htracked : payloads.InTurn) (syncing : Bool) (missing : List Hash)
    (hall : (payloads.contentScans ns).join.isSome → ∀ hash ∈ missing, hash ∈ hashes) :
    (payloads.onContentScanned orders syncing ns missing).Serving ns hashes := by
  have hfold : ∀ (met : Option NodeId) (missing : List Hash) (payloads : Payloads),
      (met.isSome → ∀ hash ∈ missing, hash ∈ hashes) → payloads.Serving ns hashes →
      payloads.InTurn →
      (missing.foldl (fun payloads hash => payloads.onMissing orders ns met hash) payloads).Serving
        ns hashes := by
    intro met missing
    induction missing with
    | nil => exact fun _ _ h _ => h
    | cons hash missing ih =>
      intro payloads hall h htracked
      simp only [List.forall_mem_cons] at hall
      refine ih _ (fun hmet => (hall hmet).2) ?_ (htracked.onMissing met)
      cases met with
      | none => exact h.enqueueOrPark htracked
      | some peer => exact (h.enqueueOrPark htracked).registerProvider (hall rfl).1 peer
  unfold Payloads.onContentScanned
  simp only
  split_ifs
  · exact hfold _ missing _ hall ⟨h.cleared, h.sole⟩ ⟨htracked.queued, htracked.wanted⟩
  · exact ⟨h.cleared, h.sole⟩

/-- The peer of a session is registered for what the namespace has queued, which nobody parked, and
for what it has parked. -/
lemma onSynced (hcleared : payloads.Cleared) (htracked : payloads.Tracked [])
    (hsole : ∀ hash, (ns, hash) ∈ payloads.missingHashes →
      ∀ other, (other, hash) ∈ payloads.missingHashes → other = ns) (peer : NodeId) :
    (payloads.onSynced orders ns peer).Cleared := by
  have hserving : payloads.Serving ns
      { hash | ns ∈ payloads.queuedHashes.byHash hash ∨ (ns, hash) ∈ payloads.missingHashes } := by
    refine ⟨hcleared, ?_⟩
    rintro hash (hqueued | hparked) other hmem
    · have hwanted := htracked.wanted hash (Finset.ne_empty_of_mem hqueued)
      simp only [List.not_mem_nil, or_false] at hwanted
      exact absurd hmem (hcleared hash hwanted other)
    · exact hsole hash hparked other hmem
  have hparked := @registerAll orders payloads ns _ (orders.hashes.toList
    ((payloads.missingHashes.filter fun missing => missing.1 = ns).image Prod.snd))
    (by simp +contextual [orders.hashes.mem_toList]) peer hserving
  have hqueued : (payloads.onSynced orders ns peer).Serving ns _ :=
    registerAll _ (by simp +contextual [orders.hashes.mem_toList, payloads.queuedHashes.mirrored])
      peer ⟨hparked.cleared, hparked.sole⟩
  exact hqueued.cleared

end Serving

end Payloads

end MeePdn.PdnStore.Engine
