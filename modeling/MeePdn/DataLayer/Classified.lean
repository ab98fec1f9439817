import MeePdn.DataLayer.KeptViews
import MeePdn.DataLayer.Pod.Standings

/-!
# What a decision lets out and takes in

A decision is made while the stores it reads are written to. Whatever happens in between, each of
its outcomes comes from one branch of the source and from reads made in the course of it, and these
bound what the other side is shown and what is taken from it.

## Main definitions

* `History` — the worlds a book reads while it decides, as every `Interleaving` gives them.
* `History.Reads` — a membership store as a stretch of a history reads it.
* `History.Shows` — the view over what the store held at one moment of a stretch.
* `Classified` — the outcomes of a decision, branch by branch.
* `SeesWhole`, `MaySee`, `MayPut` — what the other side of a pod session may see and put.

## Main results

* `tryClassify_cases` — every decision is one of `Classified`.
* `classify_bounded` — a pod session reveals only what its party may see, and takes only what it may
  put.
-/

namespace MeePdn

open PdnStore Asking

variable (blake3 : List UInt8 → Bytes 32) (prims : Primitives) (orders : ℕ → HashOrder)
  (book : AccessBook)

/-- The worlds a book reads one after the other: what has arrived stays, and so do the entries of a
replica whose count stands; and a view that is kept was built by the book. -/
structure History where
  world : ℕ → World
  lasting : Lasting world
  built : Built blake3 prims orders book world

variable {blake3 prims orders book}

/-- **Every run of a book is a history**, whatever is written, removed or imported, arrives or is
kept in it. -/
def Interleaving.history (run : Interleaving blake3 prims orders book) :
    History blake3 prims orders book := ⟨run.world, run.lasting, run.built⟩

variable (history : History blake3 prims orders book) {membership : NamespaceId} {read : Read}

namespace History

/-- A program that runs over the history. -/
abbrev Runs {α : Type} (p : Asks α) (t : ℕ) (result : Option α) (t' : ℕ) : Prop :=
  Asking.Runs (World.answer blake3 book) history.world p t result t'

/-- A membership store as read, or taken from a kept view, in the course of a stretch of the
history. -/
def Reads (pod : PodId) (membership : NamespaceId) (t t' : ℕ) (read : Read) : Prop :=
  ∃ s s', t ≤ s ∧ s' ≤ t' ∧
    history.Runs (book.membershipViewAndEntries prims orders pod membership) s (some read) s'

/-- The view over what a membership store held at one moment of a stretch of the history, with
payloads of that moment or later. -/
def Shows (pod : PodId) (membership : NamespaceId) (t t' : ℕ) (read : Read) : Prop :=
  read = AccessBook.readOf prims orders pod membership read.entries ∧
    ∃ s, t ≤ s ∧ s ≤ t' ∧ Looked blake3 book history.world membership s t' read.entries

variable {history}

lemma Reads.mono {pod : PodId} {t t' s s' : ℕ}
    (h : history.Reads pod membership t t' read) (hs : s ≤ t) (hs' : t' ≤ s') :
    history.Reads pod membership s s' read := by
  obtain ⟨r, r', hr, hr', hrun⟩ := h
  exact ⟨r, r', hs.trans hr, hr'.trans hs', hrun⟩

/-- **What a decision reads of a membership store was there at a single moment of it**, with
payloads of that moment or later. -/
lemma Reads.shows {pod : PodId} {membership : NamespaceId} {t t' : ℕ} {read : Read}
    (h : history.Reads pod membership t t' read) : history.Shows pod membership t t' read := by
  obtain ⟨s, s', hs, hs', hrun⟩ := h
  obtain ⟨hread, m, hm, hm', hlooked⟩ := looked_of_runs history.lasting history.built hrun
  exact ⟨hread, m, hs.trans hm, hm'.trans hs', hlooked.mono hs'⟩

end History

/-! ## The branches of a decision -/

/-- The armed PMS, which no pod has as its store. -/
def IsPms (book : AccessBook) (ns : NamespaceId) : Prop :=
  book.registry.podOf ns = none ∧ book.pms = some ns

/-- The session's other side is this identity, on a device its PMS lists at some moment of a stretch
of the history. -/
def IsSibling (caller : PdnId) (peer : NodeId) (t t' : ℕ) : Prop :=
  caller = book.identity ∧ ∃ pms s, book.pms = some pms ∧ t ≤ s ∧ s ≤ t' ∧
    (history.world s).deviceListed blake3 pms (AccessBook.deviceKey peer) = true

/-- The outcomes of a decision on a pod's store, branch by branch. -/
inductive ClassifiedPod (pod : PodId) (store : PodStore) (membership : NamespaceId) (caller : PdnId)
    (peer : NodeId) (role : SessionRole) (t t' : ℕ) : SessionAccess → Prop
  | sibling (h : IsSibling history caller peer t t') :
      ClassifiedPod pod store membership caller peer
      role t t' AccessBook.whole
  | noSibling (hcaller : caller = book.identity) (hrole : role = .accept) :
      ClassifiedPod pod store membership caller peer role t t' .deny
  | served {read : Read} {access : SessionAccess} (hread : history.Reads pod membership t t' read)
      (hcaller : caller ≠ book.identity) (h : book.serve store read caller peer = some access) :
      ClassifiedPod pod store membership caller peer role t t' access
  | statements {read : Read} (hread : history.Reads pod membership t t' read)
      (hcaller : caller ≠ book.identity) (hrole : role = .accept)
      (h : book.takesStatementsOf store read caller = true) :
      ClassifiedPod pod store membership caller peer role t t' (AccessBook.statementsAlone caller)
  | refused {read : Read} (hread : history.Reads pod membership t t' read) :
      ClassifiedPod pod store membership caller peer role t t'
        (book.refused role (book.unserved read caller))

/-- The outcomes of a decision, branch by branch. -/
inductive Classified (ns : NamespaceId) (remote : Identity) (peer : NodeId) (role : SessionRole)
    (t t' : ℕ) : SessionAccess → Prop
  | pms (h : IsPms book ns) : Classified ns remote peer role t t' .whole
  | stranger (h : book.registry.podOf ns = none) : Classified ns remote peer role t t' .deny
  | notHeld {pod : PodId} {store : PodStore} (h : book.registry.podOf ns = some (pod, store))
      (hpod : book.registry.pod pod = none) :
      Classified ns remote peer role t t' (book.refused role .nothing)
  | pod {pod : PodId} {store : PodStore} {binding : PodBinding} {access : SessionAccess}
      (h : book.registry.podOf ns = some (pod, store))
      (hpod : book.registry.pod pod = some binding)
      (hclassified : ClassifiedPod history pod store binding.membership
        ⟨remote.bytes⟩ peer role t t' access) :
      Classified ns remote peer role t t' access

section Cases

variable {history} {pod : PodId} {store : PodStore} {membership : NamespaceId} {caller : PdnId}
  {peer : NodeId} {role : SessionRole} {t t' : ℕ} {access : SessionAccess}
  {egress : Option EntryFilter} {ingest : SessionIngest}

lemma ClassifiedPod.mono {s : ℕ} (hle : s ≤ t)
    (h : ClassifiedPod history pod store membership caller peer role t t' access) :
    ClassifiedPod history pod store membership caller peer role s t' access := by
  cases h with
  | sibling h =>
    obtain ⟨hcaller, pms, r, hpms, hr, hr', hlisted⟩ := h
    exact .sibling ⟨hcaller, pms, r, hpms, hle.trans hr, hr', hlisted⟩
  | noSibling hcaller hrole => exact .noSibling hcaller hrole
  | served hread hcaller h => exact .served (hread.mono hle le_rfl) hcaller h
  | statements hread hcaller hrole h =>
    exact .statements (hread.mono hle le_rfl) hcaller hrole h
  | refused hread => exact .refused (hread.mono hle le_rfl)

/-- `serve_pod` decides on what it reads. -/
lemma runs_servePod {result : SessionAccess ⊕ Read}
    (h : history.Runs (book.servePod prims orders pod store membership caller peer) t
      (some result) t') :
    ∃ read, history.Reads pod membership t t' read ∧
      ((∃ access, result = .inl access ∧ book.serve store read caller peer = some access) ∨
        result = .inr read) := by
  unfold AccessBook.servePod at h
  obtain ⟨read, s, hread, h⟩ := runs_bind.mp h
  have hreads : history.Reads pod membership t t' read := ⟨t, s, le_rfl, h.le, hread⟩
  cases hserve : book.serve store read caller peer with
  | none =>
    rw [hserve] at h
    obtain ⟨hresult, -⟩ := runs_pure.mp h
    exact ⟨read, hreads, .inr (Option.some.inj hresult)⟩
  | some access =>
    rw [hserve] at h
    obtain ⟨hresult, -⟩ := runs_pure.mp h
    exact ⟨read, hreads, .inl ⟨access, Option.some.inj hresult, hserve⟩⟩

lemma runs_serveAgain {result : SessionAccess ⊕ Read}
    (h : history.Runs (book.serveAgain prims orders pod store membership caller peer read) t
      (some result) t') :
    result = .inr read ∨ ∃ read', history.Reads pod membership t t' read' ∧
      ((∃ access, result = .inl access ∧ book.serve store read' caller peer = some access) ∨
        result = .inr read') := by
  unfold AccessBook.serveAgain at h
  obtain ⟨held, s, hheld, h⟩ := runs_bind.mp h
  split_ifs at h
  · obtain ⟨read', hread', hresult⟩ := runs_servePod h
    exact .inr ⟨read', hread'.mono hheld.le le_rfl, hresult⟩
  · obtain ⟨hresult, -⟩ := runs_pure.mp h
    exact .inl (Option.some.inj hresult)

/-- A decision on another identity. -/
lemma runs_classifyOther (hcaller : caller ≠ book.identity)
    (h : history.Runs (book.classifyOther prims orders pod store membership caller peer role) t
      (some access) t') :
    ClassifiedPod history pod store membership caller peer role t t' access := by
  unfold AccessBook.classifyOther at h
  obtain ⟨first, s, hfirst, h⟩ := runs_bind.mp h
  obtain ⟨read, hread, hresult⟩ := runs_servePod hfirst
  have hread := hread.mono le_rfl h.le
  rcases hresult with ⟨served, rfl, hserve⟩ | rfl
  · obtain ⟨haccess, -⟩ := runs_pure.mp h
    cases haccess
    exact .served hread hcaller hserve
  · obtain ⟨again, s', hagain, h⟩ := runs_bind.mp h
    have hlast : (∃ served, again = .inl served ∧ ∃ read', history.Reads pod membership t t' read' ∧
        book.serve store read' caller peer = some served) ∨
        ∃ read', again = .inr read' ∧ history.Reads pod membership t t' read' := by
      rcases runs_serveAgain hagain with rfl | ⟨read', hread', ⟨served, rfl, hserve⟩ | rfl⟩
      · exact .inr ⟨read, rfl, hread⟩
      · exact .inl ⟨served, rfl, read', hread'.mono hfirst.le h.le, hserve⟩
      · exact .inr ⟨read', rfl, hread'.mono hfirst.le h.le⟩
    rcases hlast with ⟨served, rfl, read', hread', hserve⟩ | ⟨read', rfl, hread'⟩
    · obtain ⟨haccess, -⟩ := runs_pure.mp h
      cases haccess
      exact .served hread' hcaller hserve
    · dsimp only at h
      split_ifs at h with htakes
      · obtain ⟨haccess, -⟩ := runs_pure.mp h
        cases haccess
        exact .statements hread' hcaller htakes.1 htakes.2
      · obtain ⟨haccess, -⟩ := runs_pure.mp h
        cases haccess
        exact .refused hread'

/-- A decision on this identity. -/
lemma runs_classifySibling (hcaller : caller = book.identity)
    (h : history.Runs (book.classifySibling prims orders pod membership peer role) t
      (some access) t') :
    ClassifiedPod history pod store membership caller peer role t t' access := by
  unfold AccessBook.classifySibling at h
  obtain ⟨own, s, hown, h⟩ := runs_bind.mp h
  split_ifs at h with hlisted
  · obtain ⟨haccess, rfl⟩ := runs_pure.mp h
    cases haccess
    unfold AccessBook.peerIsOwnDevice at hown
    obtain ⟨pms, s, hpms, hown⟩ := runs_bind.mp hown
    obtain ⟨hle, rfl⟩ := runs_query hpms
    cases hbook : book.pms with
    | none =>
      simp only [World.answer, hbook] at hown
      obtain ⟨hfalse, -⟩ := runs_pure.mp hown
      cases hfalse
      cases hlisted
    | some pms =>
      simp only [World.answer, hbook] at hown
      obtain ⟨hle', heq⟩ := runs_query hown
      exact .sibling ⟨hcaller, pms, _, hbook, hle.trans hle', le_rfl, heq.symm.trans hlisted⟩
  · cases role with
    | accept =>
      obtain ⟨haccess, -⟩ := runs_pure.mp h
      cases haccess
      exact .noSibling hcaller rfl
    | dial =>
      obtain ⟨read, s', hread, h⟩ := runs_bind.mp h
      obtain ⟨haccess, rfl⟩ := runs_pure.mp h
      cases haccess
      subst hcaller
      exact .refused ⟨s, _, hown.le, le_rfl, hread⟩

/-- **Every decision is one of the branches**, on reads made in the course of it.

**Proof sketch.** The program is followed question by question. -/
lemma tryClassify_cases {ns : NamespaceId} {remote : Identity}
    (h : history.Runs (book.tryClassify prims orders ns remote peer role) t (some access) t') :
    Classified history ns remote peer role t t' access := by
  unfold AccessBook.tryClassify at h
  obtain ⟨found, s, hfound, h⟩ := runs_bind.mp h
  obtain ⟨hle, rfl⟩ := runs_query hfound
  cases hpod : book.registry.podOf ns with
  | none =>
    simp only [World.answer, hpod] at h
    obtain ⟨armed, s', harmed, h⟩ := runs_bind.mp h
    unfold AccessBook.pmsIs at harmed
    obtain ⟨pms, s'', hpms, harmed⟩ := runs_bind.mp harmed
    obtain ⟨-, rfl⟩ := runs_query hpms
    obtain ⟨heq, -⟩ := runs_pure.mp harmed
    cases heq
    split_ifs at h with hpms
    · obtain ⟨haccess, -⟩ := runs_pure.mp h
      cases haccess
      exact .pms ⟨hpod, of_decide_eq_true hpms⟩
    · obtain ⟨haccess, -⟩ := runs_pure.mp h
      cases haccess
      exact .stranger hpod
  | some found =>
    obtain ⟨pod, store⟩ := found
    simp only [World.answer, hpod] at h
    unfold AccessBook.classifyPod at h
    obtain ⟨held, s', hheld, h⟩ := runs_bind.mp h
    obtain ⟨hle', rfl⟩ := runs_query hheld
    cases hbinding : book.registry.pod pod with
    | none =>
      simp only [World.answer, hbinding] at h
      obtain ⟨haccess, -⟩ := runs_pure.mp h
      cases haccess
      exact .notHeld hpod hbinding
    | some binding =>
      simp only [World.answer, hbinding] at h
      refine .pod hpod hbinding (ClassifiedPod.mono (hle.trans hle') ?_)
      split_ifs at h with hcaller
      · exact runs_classifySibling hcaller h
      · exact runs_classifyOther hcaller h

/-- Whom a session is with: the caller where it is accepted, the callee where it is dialed. -/
def remoteOf (role : SessionRole) (addressed acting : Identity) : Identity :=
  match role with
  | .accept => acting
  | .dial => addressed

lemma runs_classify_accept {ns : NamespaceId} {addressed acting : Identity}
    (h : history.Runs (book.classify prims orders ns addressed acting peer .accept) t
      (some access) t') :
    ∃ read s decided, history.Runs (book.decisionReads ns) t (some read) s ∧
      history.Runs (book.tryClassify prims orders ns acting peer .accept) s decided t' ∧
      access = restingOn (decided.getD .deny) read := by
  obtain ⟨read, s, hread, h⟩ := runs_bind.mp h
  obtain ⟨decided, s', hdecided, h⟩ := runs_bind.mp h
  obtain ⟨haccess, rfl⟩ := runs_pure.mp h
  obtain ⟨caught, hcaught, hrun⟩ := runs_attempt.mp hdecided
  cases hcaught
  exact ⟨read, s, decided, hread, hrun, Option.some.inj haccess⟩

lemma eq_some_of_getD {decided : Option SessionAccess} {restsOn : RestsOn}
    (h : decided.getD .deny = .allow egress ingest restsOn) :
    decided = some (.allow egress ingest restsOn) := by
  cases decided with
  | none => cases h
  | some access => exact congrArg some h

lemma restingOn_eq_allow {read restsOn : RestsOn}
    (h : restingOn access read = .allow egress ingest restsOn) :
    ∃ own, access = .allow egress ingest own ∧ restsOn = if own = .unknown then own else read := by
  cases access with
  | deny => cases h
  | allow egress' ingest' own =>
    cases h
    exact ⟨own, rfl, rfl⟩

/-- What allows a session is a decision made in the course of it. -/
lemma classify_cases {ns : NamespaceId} {addressed acting : Identity} {restsOn : RestsOn}
    (h : history.Runs (book.classify prims orders ns addressed acting peer role) t
      (some (.allow egress ingest restsOn)) t') :
    ∃ own s, t ≤ s ∧ Classified history ns (remoteOf role addressed acting) peer role s t'
      (.allow egress ingest own) := by
  cases role with
  | accept =>
    obtain ⟨read, s, decided, hread, hrun, haccess⟩ := runs_classify_accept h
    obtain ⟨own, hown, -⟩ := restingOn_eq_allow haccess.symm
    rw [eq_some_of_getD hown] at hrun
    exact ⟨own, s, hread.le, tryClassify_cases hrun⟩
  | dial =>
    obtain ⟨decided, s, hdecided, h⟩ := runs_bind.mp h
    obtain ⟨haccess, rfl⟩ := runs_pure.mp h
    obtain ⟨caught, hcaught, hrun⟩ := runs_attempt.mp hdecided
    cases hcaught
    rw [eq_some_of_getD (Option.some.inj haccess).symm] at hrun
    exact ⟨restsOn, t, le_rfl, tryClassify_cases hrun⟩

end Cases

/-! ## Departures -/

/-- A departure a view shows has a past. -/
lemma departed_iff {pod : PodId} {entries : List HeldEntry}
    {identity : PdnId} :
    AccessBook.departed (AccessBook.readOf prims orders pod membership entries) identity = true ↔
      (departurePast (AccessBook.readOf prims orders pod membership entries).view entries
        identity).isSome = true := by
  unfold AccessBook.departed AccessBook.readOf
  rw [isSome_departurePast]
  constructor
  · intro h
    obtain ⟨departed, hbind⟩ := Option.isSome_iff_exists.mp h
    obtain ⟨m, hm, hdeparted⟩ := Option.bind_eq_some_iff.mp hbind
    refine ⟨m, hm, ?_⟩
    rw [member_new] at hm
    split_ifs at hm
    obtain rfl := Option.some.inj hm
    exact hasDeparted_shownMember hdeparted
  · rintro ⟨m, hm, -, departed, hdeparted, -⟩
    rw [hm, Option.bind_some, hdeparted]
    rfl

variable {history} in
lemma History.Shows.departed {pod : PodId} {membership : NamespaceId} {t t' : ℕ} {read : Read}
    {identity : PdnId} {past : Finset PastEntry} (h : history.Shows pod membership t t' read)
    (hpast : departurePast read.view read.entries identity = some past) :
    AccessBook.departed read identity = true := by
  rw [h.1] at hpast ⊢
  exact departed_iff.mpr (Option.isSome_iff_exists.mpr ⟨past, hpast⟩)

/-- How a session is served, case by case. -/
lemma serve_cases {pod : PodId} {store : PodStore}
    {caller : PdnId} {peer : NodeId} {access : SessionAccess}
    (hread : read = AccessBook.readOf prims orders pod membership read.entries)
    (h : book.serve store read caller peer = some access) :
    AccessBook.lists read caller peer = true ∧
    (AccessBook.isMember read caller = true ∧ AccessBook.departed read book.identity = false ∧
        access = AccessBook.rested read.entries AccessBook.whole ∨
      store = .membership ∧ ∃ past admission, access = AccessBook.rested read.entries
          (.allow (some fun e => decide ((e.key, e.author) ∈ past)) (ingest admission) .nothing) ∧
        (AccessBook.isMember read caller = true ∧
            departurePast read.view read.entries book.identity = some past ∧
            admission = .rests (Rests.of read.entries book.identity) ∨
          AccessBook.isMember read caller = false ∧
            departurePast read.view read.entries caller = some past ∧ admission = .past past)) := by
  have hdeparted : ∀ identity, AccessBook.departed read identity = true ↔
      (departurePast read.view read.entries identity).isSome = true := by
    intro identity
    rw [hread]
    exact departed_iff
  unfold AccessBook.serve at h
  split_ifs at h with hlists hmember
  · refine ⟨hlists, ?_⟩
    cases hpast : departurePast read.view read.entries book.identity with
    | none => grind
    | some past =>
      simp only [hpast] at h
      cases store with
      | records => cases h
      | membership =>
        exact .inr ⟨rfl, past, _, (Option.some.inj h).symm, .inl ⟨hmember, rfl, rfl⟩⟩
  · refine ⟨hlists, ?_⟩
    cases hpast : departurePast read.view read.entries caller with
    | none => simp [hpast] at h
    | some past =>
      simp only [hpast] at h
      cases store with
      | records => cases h
      | membership =>
        exact .inr ⟨rfl, past, _, (Option.some.inj h).symm, .inr ⟨by simpa using hmember, rfl, rfl⟩⟩

/-! ## What the other side may see and put -/

section Bounds

variable (pod : PodId) (store : PodStore) (membership : NamespaceId) (caller : PdnId)
  (peer : NodeId) (role : SessionRole) (t t' : ℕ)

/-- Who is shown a pod's store whole and may put anything: a device of this identity, by its PMS;
and a device of a current member, by the membership store, while this identity has not departed. -/
inductive SeesWhole : Prop
  | sibling (h : IsSibling history caller peer t t')
  | member {read : Read} (hshown : history.Shows pod membership t t' read)
      (hlists : AccessBook.lists read caller peer = true)
      (hmember : AccessBook.isMember read caller = true)
      (hown : AccessBook.departed read book.identity = false)

/-- What the other side of a pod session may see. -/
inductive MaySee (e : SignedEntry) : Prop
  | whole (h : SeesWhole history pod membership caller peer t t')
  /-- A member, of a replica whose own identity departed: that departure's past. -/
  | ownPast {read : Read} {past : Finset PastEntry} (hstore : store = .membership)
      (hshown : history.Shows pod membership t t' read)
      (hlists : AccessBook.lists read caller peer = true)
      (hmember : AccessBook.isMember read caller = true)
      (hpast : departurePast read.view read.entries book.identity = some past)
      (he : (e.key, e.author) ∈ past)
  /-- A former member: its departure's past. -/
  | theirPast {read : Read} {past : Finset PastEntry} (hstore : store = .membership)
      (hshown : history.Shows pod membership t t' read)
      (hlists : AccessBook.lists read caller peer = true)
      (hgone : AccessBook.departed read caller = true)
      (hpast : departurePast read.view read.entries caller = some past)
      (he : (e.key, e.author) ∈ past)
  /-- Whoever is dialed, by an identity that has not departed: its own device statements. -/
  | ownStatement {read : Read} (hrole : role = .dial)
      (hshown : history.Shows pod membership t t' read)
      (hown : AccessBook.departed read book.identity = false)
      (he : isStatementOf book.identity e.key = true)

/-- What the other side of an accepted pod session may put that may not put everything. -/
inductive MayPut (e : SignedEntry) : Prop
  /-- A former member: its departure's past. -/
  | theirPast {read : Read} {past : Finset PastEntry}
      (hshown : history.Shows pod membership t t' read)
      (hlists : AccessBook.lists read caller peer = true)
      (hgone : AccessBook.departed read caller = true)
      (hpast : departurePast read.view read.entries caller = some past)
      (he : (e.key, e.author) ∈ past)
  /-- A member, into a replica whose own identity departed: what its `Rests` admit. -/
  | rests {read : Read} (hshown : history.Shows pod membership t t' read)
      (hlists : AccessBook.lists read caller peer = true)
      (hmember : AccessBook.isMember read caller = true)
      (hown : AccessBook.departed read book.identity = true)
      (he : (Rests.of read.entries book.identity).admits e.key = true)
  /-- A member: its own device statements. -/
  | statement (he : isStatementOf caller e.key = true)

end Bounds

section Bounded

variable {history} {pod : PodId} {store : PodStore} {membership : NamespaceId} {caller : PdnId}
  {peer : NodeId} {role : SessionRole} {t t' : ℕ} {egress : Option EntryFilter}
  {taken : SessionIngest} {restsOn : RestsOn}

lemma not_departed_of_unresolved (h : book.unserved read caller = .unresolved) :
    AccessBook.departed read book.identity = false := by
  by_contra hdeparted
  rw [AccessBook.unserved, if_pos (by simpa using hdeparted)] at h
  cases h

/-- A refused session reveals nothing but this identity's own statements, and only when it is
dialed. -/
lemma refused_bounded {e : SignedEntry}
    (h : book.refused role (book.unserved read caller) = .allow egress taken restsOn)
    (he : SessionStore.admitted egress e = true) :
    role = .dial ∧ AccessBook.departed read book.identity = false ∧
      isStatementOf book.identity e.key = true := by
  cases role with
  | accept => cases h
  | dial =>
    cases hunserved : book.unserved read caller with
    | unresolved =>
      rw [hunserved] at h
      cases h
      exact ⟨rfl, not_departed_of_unresolved hunserved, he⟩
    | members authors statementsOf =>
      rw [hunserved] at h
      cases h
      cases he
    | nothing =>
      rw [hunserved] at h
      cases h
      cases he

/-- What a decision on a pod's store lets out. -/
lemma ClassifiedPod.maySee {e : SignedEntry}
    (h : ClassifiedPod history pod store membership caller peer role t t'
      (.allow egress taken restsOn)) (he : SessionStore.admitted egress e = true) :
    MaySee history pod store membership caller peer role t t' e := by
  generalize haccess : SessionAccess.allow egress taken restsOn = access at h
  cases h with
  | sibling h => exact .whole (.sibling h)
  | noSibling => cases haccess
  | statements =>
    cases haccess
    cases he
  | refused hread =>
    obtain ⟨hrole, hown, hstatement⟩ := refused_bounded haccess.symm he
    exact .ownStatement hrole hread.shows hown hstatement
  | served hread hcaller h =>
    subst haccess
    have hshown := hread.shows
    obtain ⟨hlists, hcases⟩ := serve_cases hshown.1 h
    rcases hcases with ⟨hmember, hown, -⟩ | ⟨hstore, past, admission, heq, hcases⟩
    · exact .whole (.member hshown hlists hmember hown)
    · rw [AccessBook.rested_allow] at heq
      cases heq
      have hmem := of_decide_eq_true he
      rcases hcases with ⟨hmember, hpast, -⟩ | ⟨-, hpast, -⟩
      · exact .ownPast hstore hshown hlists hmember hpast hmem
      · exact .theirPast hstore hshown hlists (hshown.departed hpast) hpast hmem

/-- What an accepted session on a pod's store takes. -/
lemma ClassifiedPod.mayPut (h : ClassifiedPod history pod store membership caller peer .accept t t'
      (.allow egress taken restsOn)) :
    SeesWhole history pod membership caller peer t t' ∨
      ∀ e, taken e = .accept → MayPut history pod membership caller peer t t' e := by
  generalize haccess : SessionAccess.allow egress taken restsOn = access at h
  cases h with
  | sibling h => exact .inl (.sibling h)
  | noSibling => cases haccess
  | refused => cases haccess
  | statements =>
    cases haccess
    right
    intro e he
    have hadmits := ingest_eq_accept.mp he
    exact .statement (by simpa [WriteAdmission.admits] using hadmits)
  | served hread hcaller h =>
    subst haccess
    have hshown := hread.shows
    obtain ⟨hlists, hcases⟩ := serve_cases hshown.1 h
    rcases hcases with ⟨hmember, hown, -⟩ | ⟨hstore, past, admission, heq, hcases⟩
    · exact .inl (.member hshown hlists hmember hown)
    · rw [AccessBook.rested_allow] at heq
      cases heq
      right
      intro e he
      have hadmits := ingest_eq_accept.mp he
      rcases hcases with ⟨hmember, hpast, rfl⟩ | ⟨-, hpast, rfl⟩
      · exact .rests hshown hlists hmember (hshown.departed hpast) hadmits
      · exact .theirPast hshown hlists (hshown.departed hpast) hpast (of_decide_eq_true hadmits)

end Bounded

/-- **A pod session reveals only what its party may see, and takes only what it may put.** Whatever
happens to the stores while a session is decided on: if what the decision allows lets an entry out,
the namespace is the armed PMS, or it is a store of a held pod and the other side may see the entry
(`MaySee`); and an accepted session takes every entry only where the namespace is the armed PMS or
the other side is shown the store whole (`SeesWhole`), and otherwise only entries it may put
(`MayPut`).

**Proof sketch.** A decision is one of the branches of the source (`tryClassify_cases`), on views
over what the membership store held at a moment of the decision (`History.Reads.shows`). A view
shows a departure exactly when there is a past of it. -/
theorem classify_bounded (history : History blake3 prims orders book) {ns : NamespaceId}
    {addressed acting : Identity} {peer : NodeId} {role : SessionRole} {t t' : ℕ}
    {egress : Option EntryFilter} {taken : SessionIngest} {restsOn : RestsOn}
    (h : history.Runs (book.classify prims orders ns addressed acting peer role) t
      (some (.allow egress taken restsOn)) t') :
    (∀ e, SessionStore.admitted egress e = true → IsPms book ns ∨
      ∃ pod store binding, book.registry.podOf ns = some (pod, store) ∧
        book.registry.pod pod = some binding ∧
        MaySee history pod store binding.membership ⟨(remoteOf role addressed acting).bytes⟩ peer
          role t t' e) ∧ (role = .accept →
      (IsPms book ns ∨ ∃ pod store binding, book.registry.podOf ns = some (pod, store) ∧
        book.registry.pod pod = some binding ∧
        SeesWhole history pod binding.membership ⟨acting.bytes⟩ peer t t') ∨
      ∀ e, taken e = .accept → ∃ pod store binding, book.registry.podOf ns = some (pod, store) ∧
        book.registry.pod pod = some binding ∧
        MayPut history pod binding.membership ⟨acting.bytes⟩ peer t t' e) := by
  obtain ⟨own, s, hle, hclassified⟩ := classify_cases h
  generalize haccess : SessionAccess.allow egress taken own = access at hclassified
  cases hclassified with
  | pms hpms => exact ⟨fun e _ => .inl hpms, fun _ => .inl (.inl hpms)⟩
  | stranger => cases haccess
  | notHeld =>
    cases role with
    | accept => cases haccess
    | dial =>
      cases haccess
      exact ⟨fun e he => (by cases he), fun hrole => (by cases hrole)⟩
  | @pod pod store binding _ hof hpod hclassified =>
    subst haccess
    have hclassified := hclassified.mono hle
    constructor
    · intro e he
      exact .inr ⟨pod, store, binding, hof, hpod, hclassified.maySee he⟩
    · rintro rfl
      rcases hclassified.mayPut with hwhole | hput
      · exact .inl (.inr ⟨pod, store, binding, hof, hpod, hwhole⟩)
      · exact .inr fun e he => ⟨pod, store, binding, hof, hpod, hput e he⟩

/-- A run in which nothing happens. -/
def Interleaving.still (world : World) (h : ∀ pod, world.views pod = none) :
    Interleaving blake3 prims orders book where
  world := fun _ => world
  opened := h
  happens := fun _ => .imported rfl

open Testing in
/-- Bob, whom the membership store shows as a member with his device, asks for the record store. -/
theorem classify_bounded_bob :
    let history : History hashing transparent (fun _ => default) aliceBook :=
      (Interleaving.still joinedFamily fun _ => rfl).history
    ∃ taken restsOn, history.Runs bobAsks 0 (some (.allow none taken restsOn)) 0 ∧
      ∀ e, IsPms aliceBook familyRecords ∨ ∃ pod store binding,
        aliceBook.registry.podOf familyRecords = some (pod, store) ∧
        aliceBook.registry.pod pod = some binding ∧
        MaySee history pod store binding.membership bob.id bob.device.node .accept 0 0 e := by
  intro history
  obtain ⟨access, hopen, hrun⟩ := @Runs.exists_of_exec _ _ _ _ (World.answer hashing aliceBook)
    (fun _ => joinedFamily) bobAsks 0 0 (List.replicate 30 0) (isOpen 3) (by decide +kernel)
  obtain ⟨taken, rfl⟩ := exists_of_isOpen hopen
  exact ⟨taken, _, hrun, fun e => (classify_bounded history hrun).1 e rfl⟩

end MeePdn
