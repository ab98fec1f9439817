import MeePdn.DataLayer.Classified

/-!
# How current a decision is

An accepting node decides, opens its snapshot, and asks again when what the decision was read from
changed in between (`BobState::run_rounds` of `pdn-store/src/net/codec.rs`). The entries of a
membership store are read at one moment and their payloads are looked at one after the other, so a
decision is one on the entries of a single moment, with each payload as it stood then or later.

## Main definitions

* `AccessBook.decided` — the decision on an accepted session, of what was read.
* `InForce` — the egress filter in force for an accepted session's rounds.

## Main results

* `eval_classify` — what the access rules decide on the contents of one moment.
* `served_on_current` — an accepted session is served on a decision of a moment not before its
  snapshot was opened.
-/

namespace MeePdn

open PdnStore Asking

variable {blake3 : List UInt8 → Bytes 32} {prims : Primitives} {orders : ℕ → HashOrder}
  {book : AccessBook}

/-! ## The decision on what was read -/

/-- Whether an access lets an entry out. -/
def PdnStore.SessionAccess.letsOut (access : SessionAccess) (e : SignedEntry) : Bool :=
  match access with
  | .allow egress _ _ => SessionStore.admitted egress e
  | .deny => false

namespace AccessBook

variable (book) (blake3)

/-- Whether the PMS lists a node at a moment. -/
def listedBy (world : World) (peer : NodeId) : Bool :=
  book.pms.any fun pms => world.deviceListed blake3 pms (deviceKey peer)

/-- The decision on an accepted session, of what was read. -/
def decided (listed : Bool) (store : PodStore) (read : Read) (caller : PdnId) (peer : NodeId) :
    SessionAccess :=
  if caller = book.identity then if listed then whole else .deny
  else (book.serve store read caller peer).getD
    (if book.takesStatementsOf store read caller then statementsAlone caller else .deny)

end AccessBook

section Current

variable {history : History blake3 prims orders book} {pod : PodId} {store : PodStore}
  {membership : NamespaceId} {caller : PdnId} {peer : NodeId} {t t' : ℕ}
  {egress : Option EntryFilter} {taken : SessionIngest} {restsOn : RestsOn}

lemma letsOut_sibling {world : World} {read : Read} {pms : NamespaceId} (e : SignedEntry)
    (hcaller : caller = book.identity) (hpms : book.pms = some pms)
    (hlisted : world.deviceListed blake3 pms (AccessBook.deviceKey peer) = true) :
    (book.decided (book.listedBy blake3 world peer) store read caller peer).letsOut e = true := by
  rw [AccessBook.decided, if_pos hcaller, AccessBook.listedBy, hpms, Option.any_some, hlisted]
  rfl

lemma letsOut_served {listed : Bool} {read : Read} {e : SignedEntry}
    (hcaller : caller ≠ book.identity)
    (h : book.serve store read caller peer = some (.allow egress taken restsOn))
    (he : SessionStore.admitted egress e = true) :
    (book.decided listed store read caller peer).letsOut e = true := by
  rw [AccessBook.decided, if_neg hcaller, h]
  exact he

lemma serve_restsOn {read : Read}
    (hread : read = AccessBook.readOf prims orders pod membership read.entries)
    (h : book.serve store read caller peer = some (.allow egress taken restsOn)) :
    restsOn = if AccessBook.unread read.entries then .unknown else .nothing := by
  obtain ⟨-, ⟨-, -, heq⟩ | ⟨-, past, admission, heq, -⟩⟩ := serve_cases hread h
  · rw [AccessBook.whole, AccessBook.rested_allow] at heq
    exact (SessionAccess.allow.inj heq).2.2
  · rw [AccessBook.rested_allow] at heq
    exact (SessionAccess.allow.inj heq).2.2

/-- **An accepted session is decided on the entries of a single moment** in the course of the
decision, with payloads of that moment or later. -/
lemma ClassifiedPod.current (hle : t ≤ t')
    (h : ClassifiedPod history pod store membership caller peer .accept t t'
      (.allow egress taken restsOn)) :
    ∃ s entries, t ≤ s ∧ s ≤ t' ∧ Looked blake3 book history.world membership s t' entries ∧
      ∀ e, SessionStore.admitted egress e = true →
        (book.decided (book.listedBy blake3 (history.world s) peer) store
          (AccessBook.readOf prims orders pod membership entries) caller peer).letsOut e
          = true := by
  generalize haccess : SessionAccess.allow egress taken restsOn = access at h
  cases h with
  | sibling h =>
    obtain ⟨hcaller, pms, s, hpms, hs, hs', hlisted⟩ := h
    exact ⟨s, _, hs, hs', looked_contents hs',
      fun e _ => letsOut_sibling e hcaller hpms hlisted⟩
  | noSibling => cases haccess
  | refused => cases haccess
  | statements =>
    cases haccess
    exact ⟨t, _, le_rfl, hle, looked_contents hle, fun e he => (by cases he)⟩
  | served hread hcaller h =>
    subst haccess
    obtain ⟨s, hs, hs', hseen⟩ := hread.shows.2
    rw [hread.shows.1] at h
    exact ⟨s, _, hs, hs', hseen, fun e he => letsOut_served hcaller h he⟩

/-- A decision on a pod's store that allows a session. -/
lemma Classified.ofPod {ns : NamespaceId} {remote : Identity} {binding : PodBinding}
    (hof : book.registry.podOf ns = some (pod, store))
    (hpod : book.registry.pod pod = some binding)
    (h : Classified history ns remote peer .accept t t' (.allow egress taken restsOn)) :
    ClassifiedPod history pod store binding.membership ⟨remote.bytes⟩ peer .accept t t'
      (.allow egress taken restsOn) := by
  generalize haccess : SessionAccess.allow egress taken restsOn = access at h
  cases h with
  | pms hpms =>
    rw [hpms.1] at hof
    cases hof
  | stranger => cases haccess
  | notHeld => cases haccess
  | pod hof' hpod' h =>
    rw [hof] at hof'
    cases hof'
    rw [hpod] at hpod'
    cases hpod'
    exact h

/-- **A decision that rests on counts that stand** is the decision on the contents of the moment
they stand at. -/
lemma ClassifiedPod.stands {opened : ℕ} (hopened : t' ≤ opened)
    (h : ClassifiedPod history pod store membership caller peer .accept t t'
      (.allow egress taken restsOn))
    (hrests : restsOn ≠ .unknown)
    (hstand : ∀ replica, book.pms = some replica ∨ replica = membership →
      ∀ s, t ≤ s → s ≤ opened →
        StoreInstance.ofNamespace replica (history.world opened).records =
          StoreInstance.ofNamespace replica (history.world s).records) :
    ∀ e, SessionStore.admitted egress e = true →
      (book.decided (book.listedBy blake3 (history.world opened) peer) store
        (AccessBook.readOf prims orders pod membership
          (book.contents blake3 (history.world opened) membership)) caller peer).letsOut e =
        true := by
  intro e he
  generalize haccess : SessionAccess.allow egress taken restsOn = access at h
  cases h with
  | sibling h =>
    obtain ⟨hcaller, pms, s, hpms, hs, hs', hlisted⟩ := h
    apply letsOut_sibling e hcaller hpms
    unfold World.deviceListed at hlisted ⊢
    rw [hstand pms (.inl hpms) s hs (hs'.trans hopened)]
    exact hlisted
  | noSibling => cases haccess
  | refused => cases haccess
  | statements =>
    cases haccess
    cases he
  | @served read _ hread hcaller h =>
    subst haccess
    obtain ⟨s, hs, hs', hseen⟩ := hread.shows.2
    have hread' : AccessBook.unread read.entries = false := by
      by_contra hunread
      rw [serve_restsOn hread.shows.1 h, if_pos (by simpa using hunread)] at hrests
      exact hrests rfl
    have hentries := Looked.eq_contents hseen history.lasting hread' hopened
      (hstand membership (.inr rfl) s hs (hs'.trans hopened))
    rw [← hentries, ← hread.shows.1]
    exact letsOut_served hcaller h he

end Current

/-! ## What the rules decide on the contents of one moment -/

section Eval

variable (blake3 prims orders book) (world : World)

/-- A world as the stores hold it, no view kept. -/
def World.forgotten : World := { world with views := fun _ => none }

variable {book world} {pod : PodId} {store : PodStore} {membership : NamespaceId} {caller : PdnId}
  {peer : NodeId}

lemma eval_heldEntry (e : SignedEntry) :
    (AccessBook.heldEntry e).eval (World.answer blake3 book world.forgotten) =
      some (world.held e) := by
  unfold AccessBook.heldEntry World.held
  cases hunread : HeldPayload.unread? e.key e.contentLen.toNat with
  | some payload => rfl
  | none =>
    have hhas : (askHas e.contentHash).eval (World.answer blake3 book world.forgotten) =
        some (world.blobs e.contentHash).isSome := rfl
    have hget : (askGetBytes e.contentHash).eval (World.answer blake3 book world.forgotten) =
        some ((world.blobs e.contentHash).getD []) := rfl
    cases hblob : world.blobs e.contentHash <;>
      simp [hhas, hget, hblob]

lemma eval_readEntries :
    (book.readEntries membership).eval (World.answer blake3 book world.forgotten) =
      some (book.contents blake3 world membership) := by
  unfold AccessBook.readEntries AccessBook.contents
  split_ifs
  · have hmany : (askGetMany membership []).eval (World.answer blake3 book world.forgotten) =
        some (world.getMany blake3 membership []) := rfl
    rw [AccessBook.heldEntries, eval_bind, hmany, Option.bind_some]
    exact eval_mapM _ fun e _ => eval_heldEntry blake3 e
  · rfl

/-- The view is the one over the contents. -/
lemma eval_membershipViewAndEntries :
    (book.membershipViewAndEntries prims orders pod membership).eval
        (World.answer blake3 book world.forgotten) =
      some (AccessBook.readOf prims orders pod membership
        (book.contents blake3 world membership)) := by
  have hkept : ∀ writes, (AccessBook.keptView pod membership writes).eval
      (World.answer blake3 book world.forgotten) = some none := by
    intro writes
    cases writes <;> rfl
  obtain ⟨writes, hwrites⟩ : ∃ writes, (book.writesOf membership).eval
      (World.answer blake3 book world.forgotten) = some writes := by
    unfold AccessBook.writesOf
    split_ifs
    · exact ⟨_, eval_attempt _⟩
    · exact ⟨none, rfl⟩
  simp only [AccessBook.membershipViewAndEntries, eval_bind, hwrites, Option.bind_some, hkept,
    eval_readEntries, eval_pure]

lemma eval_servePod :
    (book.servePod prims orders pod store membership caller peer).eval
        (World.answer blake3 book world.forgotten) =
      some ((book.serve store (AccessBook.readOf prims orders pod membership
          (book.contents blake3 world membership)) caller peer).elim
        (.inr (AccessBook.readOf prims orders pod membership
          (book.contents blake3 world membership))) .inl) := by
  rw [AccessBook.servePod, eval_bind, eval_membershipViewAndEntries, Option.bind_some]
  cases book.serve store _ caller peer <;> rfl

lemma exists_eval_poll (polls : ℕ) (lacking : List PdnStore.Hash) :
    ∃ u, (AccessBook.poll polls lacking).eval (World.answer blake3 book world.forgotten) =
      some u := by
  induction polls with
  | zero => exact ⟨(), rfl⟩
  | succ polls ih =>
    have hall : (lacking.mapM askHas).eval (World.answer blake3 book world.forgotten) =
        some (lacking.map fun hash => (world.blobs hash).isSome) := eval_mapM _ fun _ _ => rfl
    rw [AccessBook.poll, eval_bind, hall, Option.bind_some]
    split_ifs
    · exact ⟨(), rfl⟩
    · exact ih

/-- The wait for payloads ends. -/
lemma exists_eval_awaitPayloadsOf (member : PdnId) :
    ∃ held, (book.awaitPayloadsOf membership member).eval
      (World.answer blake3 book world.forgotten) = some held := by
  unfold AccessBook.awaitPayloadsOf
  split_ifs
  · have hmany : (askGetMany membership (AccessBook.memberKeys member)).eval
        (World.answer blake3 book world.forgotten) =
        some (world.getMany blake3 membership (AccessBook.memberKeys member)) := rfl
    rw [eval_bind, hmany, Option.bind_some, eval_bind,
      @eval_mapM _ _ _ _ _ _ (fun e : SignedEntry => (e.contentHash,
        (world.blobs e.contentHash).isSome)) _ fun e _ => rfl, Option.bind_some]
    dsimp only
    split_ifs
    · exact ⟨_, rfl⟩
    · obtain ⟨u, hpoll⟩ := exists_eval_poll blake3 book.polls _
      rw [eval_bind, hpoll]
      exact ⟨true, rfl⟩
  · exact ⟨false, rfl⟩

/-- What is decided on another identity. -/
lemma eval_classifyOther (hcaller : caller ≠ book.identity) (listed : Bool) :
    (book.classifyOther prims orders pod store membership caller peer .accept).eval
        (World.answer blake3 book world.forgotten) =
      some (book.decided listed store (AccessBook.readOf prims orders pod membership
        (book.contents blake3 world membership)) caller peer) := by
  rw [AccessBook.classifyOther, eval_bind, eval_servePod, Option.bind_some, AccessBook.decided,
    if_neg hcaller]
  cases hserve : book.serve store (AccessBook.readOf prims orders pod membership
    (book.contents blake3 world membership)) caller peer with
  | some access => rfl
  | none =>
    -- the second look reads the same
    have hagain : (book.serveAgain prims orders pod store membership caller peer
        (AccessBook.readOf prims orders pod membership
          (book.contents blake3 world membership))).eval
        (World.answer blake3 book world.forgotten) =
        some (.inr (AccessBook.readOf prims orders pod membership
          (book.contents blake3 world membership))) := by
      obtain ⟨held, hheld⟩ := exists_eval_awaitPayloadsOf blake3 caller
      rw [AccessBook.serveAgain, eval_bind, hheld, Option.bind_some]
      split_ifs
      · rw [eval_servePod, hserve]
        rfl
      · rfl
    simp only [Option.elim_none, eval_bind, hagain, Option.bind_some, true_and, Option.getD_none]
    split_ifs <;> rfl

lemma eval_classifySibling (hcaller : caller = book.identity) (read : Read) :
    (book.classifySibling prims orders pod membership peer .accept).eval
        (World.answer blake3 book world.forgotten) =
      some (book.decided (book.listedBy blake3 world peer) store read caller peer) := by
  have hlisted : (AccessBook.peerIsOwnDevice peer).eval
      (World.answer blake3 book world.forgotten) = some (book.listedBy blake3 world peer) := by
    have hpms : askOwnPms.eval (World.answer blake3 book world.forgotten) = some book.pms := rfl
    rw [AccessBook.peerIsOwnDevice, eval_bind, hpms, Option.bind_some, AccessBook.listedBy]
    cases book.pms <;> rfl
  rw [AccessBook.classifySibling, eval_bind, hlisted, Option.bind_some, AccessBook.decided,
    if_pos hcaller]
  split_ifs <;> rfl

/-- **What the access rules decide on the contents of one moment.** -/
lemma eval_tryClassify {ns : NamespaceId} {remote : Identity} {binding : PodBinding}
    (hof : book.registry.podOf ns = some (pod, store))
    (hpod : book.registry.pod pod = some binding) :
    (book.tryClassify prims orders ns remote peer .accept).eval
        (World.answer blake3 book world.forgotten) =
      some (book.decided (book.listedBy blake3 world peer) store
        (AccessBook.readOf prims orders pod binding.membership
          (book.contents blake3 world binding.membership)) ⟨remote.bytes⟩ peer) := by
  have hfound : (askPodOf ns).eval (World.answer blake3 book world.forgotten) =
      some (some (pod, store)) := congrArg some hof
  have hheld : (askPod pod).eval (World.answer blake3 book world.forgotten) =
      some (some binding) := congrArg some hpod
  rw [AccessBook.tryClassify, eval_bind, hfound, Option.bind_some]
  simp only [AccessBook.classifyPod, eval_bind, hheld, Option.bind_some]
  split_ifs with hcaller
  · exact eval_classifySibling blake3 prims orders hcaller _
  · exact eval_classifyOther blake3 prims orders hcaller _

/-- An accepted session's decision on the contents of one moment lets out what `decided` does. -/
lemma eval_classify {ns : NamespaceId} (addressed : Identity) {acting : Identity}
    {binding : PodBinding} (hof : book.registry.podOf ns = some (pod, store))
    (hpod : book.registry.pod pod = some binding) :
    ∃ access, (book.classify prims orders ns addressed acting peer .accept).eval
        (World.answer blake3 book world.forgotten) = some access ∧
      ∀ e, access.letsOut e = (book.decided (book.listedBy blake3 world peer) store
        (AccessBook.readOf prims orders pod binding.membership
          (book.contents blake3 world binding.membership)) ⟨acting.bytes⟩ peer).letsOut e := by
  obtain ⟨read, hread⟩ : ∃ read, (book.decisionReads ns).eval
      (World.answer blake3 book world.forgotten) = some read := by
    unfold AccessBook.decisionReads
    rw [eval_bind, eval_attempt, Option.bind_some]
    cases (AccessBook.decisionReplicas ns).eval (World.answer blake3 book world.forgotten) with
    | none => exact ⟨_, rfl⟩
    | some replicas =>
      cases book.sync with
      | false => exact ⟨_, rfl⟩
      | true => exact ⟨_, by rw [eval_bind, eval_attempt, Option.bind_some, eval_pure]⟩
  have hdecided := @eval_tryClassify blake3 prims orders book world pod store peer ns acting binding
    hof hpod
  generalize book.decided _ _ _ _ _ = access at hdecided ⊢
  refine ⟨restingOn access read, ?_, fun e => (by cases access <;> rfl)⟩
  simp only [AccessBook.classify, eval_bind, hread, Option.bind_some, eval_attempt, hdecided,
    eval_pure, Option.getD_some]

end Eval

/-! ## Sessions -/

/-- Whether what a decision rests on still stands. -/
def World.Holds (world : World) : RestsOn → Prop
  | .nothing => True
  | .writes read => ∀ replica ∈ read, world.writes replica.1 = replica.2
  | .unknown => False

lemma World.holds_singleton {world : World} {replica : NamespaceId} {count : ℕ} :
    world.Holds (.writes [(replica, count)]) ↔ world.writes replica = count := by
  simp [Holds]

/-- The counts a decision on a pod's store rests on are those of the PMS and of the membership
store, each read before the decision. -/
lemma runs_decisionReads {history : History blake3 prims orders book} {ns : NamespaceId}
    {pod : PodId} {store : PodStore} {binding : PodBinding} {t t' : ℕ} {restsOn : RestsOn}
    (hof : book.registry.podOf ns = some (pod, store))
    (hpod : book.registry.pod pod = some binding)
    (h : history.Runs (book.decisionReads ns) t (some restsOn) t') :
    restsOn = .unknown ∨ ∃ read, restsOn = .writes read ∧
      ∀ replica, book.pms = some replica ∨ replica = binding.membership →
        ∃ s, t ≤ s ∧ s ≤ t' ∧ (replica, (history.world s).writes replica) ∈ read := by
  unfold AccessBook.decisionReads at h
  obtain ⟨replicas, s, hreplicas, h⟩ := runs_bind.mp h
  obtain ⟨caught, hcaught, hreplicas⟩ := runs_attempt.mp hreplicas
  cases hcaught
  cases replicas with
  | none =>
    obtain ⟨hrests, -⟩ := runs_pure.mp h
    exact .inl (Option.some.inj hrests)
  | some replicas =>
    cases hsync : book.sync with
    | false =>
      rw [hsync] at h
      obtain ⟨hrests, -⟩ := runs_pure.mp h
      exact .inl (Option.some.inj hrests)
    | true =>
      rw [hsync] at h
      obtain ⟨read, s', hread, h⟩ := runs_bind.mp h
      obtain ⟨hrests, rfl⟩ := runs_pure.mp h
      obtain ⟨caught, hcaught, hread⟩ := runs_attempt.mp hread
      cases hcaught
      cases read with
      | none => exact .inl (Option.some.inj hrests)
      | some read =>
        refine .inr ⟨read, Option.some.inj hrests, fun replica hreplica => ?_⟩
        have hmem : replica ∈ replicas := by
          unfold AccessBook.decisionReplicas at hreplicas
          obtain ⟨found, r, hfound, hreplicas⟩ := runs_bind.mp hreplicas
          obtain ⟨-, rfl⟩ := runs_query hfound
          simp only [World.answer, hof] at hreplicas
          obtain ⟨pms, r', hpms, hreplicas⟩ := runs_bind.mp hreplicas
          obtain ⟨-, rfl⟩ := runs_query hpms
          obtain ⟨held, r'', hheld, hreplicas⟩ := runs_bind.mp hreplicas
          obtain ⟨-, rfl⟩ := runs_query hheld
          obtain ⟨heq, -⟩ := runs_pure.mp hreplicas
          cases heq
          simp only [World.answer, hpod, Option.map_some, Option.toList_some, List.mem_append,
            Option.mem_toList, List.mem_singleton]
          exact hreplica
        obtain ⟨counted, hcounted, r, r', hr, hr', hrun⟩ :=
          exists_mem_of_forall₂ (runs_mapM hread) hmem
        obtain ⟨count, r'', hcount, hend⟩ := runs_bind.mp hrun
        obtain ⟨heq, rfl⟩ := runs_pure.mp hend
        cases heq
        obtain ⟨hle, rfl⟩ := runs_query hcount
        exact ⟨r', hreplicas.le.trans (hr.trans hle), hr', hcounted⟩

/-- The egress filter in force for the rounds of an accepted session whose snapshot was opened at
one moment, and whose rounds begin at another: that of the first decision where what it rests on
stands as the snapshot is opened, and otherwise that of the decision asked for again. -/
inductive InForce (history : History blake3 prims orders book) (ns : NamespaceId)
    (addressed acting : Identity) (peer : NodeId) (opened : ℕ) :
    ℕ → Bool → Option EntryFilter → Prop
  | stands {t t' : ℕ} {egress : Option EntryFilter} {taken : SessionIngest} {restsOn : RestsOn}
      (hfirst : history.Runs (book.classify prims orders ns addressed acting peer .accept) t
        (some (.allow egress taken restsOn)) t')
      (hopened : t' ≤ opened) (hholds : (history.world opened).Holds restsOn) :
      InForce history ns addressed acting peer opened opened false egress
  | again {t t' ended : ℕ} {egress egress' : Option EntryFilter} {taken taken' : SessionIngest}
      {restsOn restsOn' : RestsOn}
      (hfirst : history.Runs (book.classify prims orders ns addressed acting peer .accept) t
        (some (.allow egress taken restsOn)) t')
      (hopened : t' ≤ opened) (hmoved : ¬ (history.world opened).Holds restsOn)
      (hagain : history.Runs (book.classify prims orders ns addressed acting peer .accept) opened
        (some (.allow egress' taken' restsOn')) ended) :
      InForce history ns addressed acting peer opened ended true egress'

/-- A decision that stands rests on counts of the PMS and of the membership store that are the same
at every moment since they were read. -/
lemma stand_of_holds {history : History blake3 prims orders book} {ns : NamespaceId}
    {pod : PodId} {store : PodStore} {binding : PodBinding} {t t' opened : ℕ} {read : RestsOn}
    (hof : book.registry.podOf ns = some (pod, store))
    (hpod : book.registry.pod pod = some binding)
    (hread : history.Runs (book.decisionReads ns) t (some read) t')
    (hholds : (history.world opened).Holds read) :
    ∀ replica, book.pms = some replica ∨ replica = binding.membership →
      ∀ s, t' ≤ s → s ≤ opened →
        StoreInstance.ofNamespace replica (history.world opened).records =
          StoreInstance.ofNamespace replica (history.world s).records := by
  intro replica hreplica s hs hs'
  rcases runs_decisionReads hof hpod hread with rfl | ⟨counts, rfl, hcounts⟩
  · exact hholds.elim
  · obtain ⟨r, -, hr, hmem⟩ := hcounts replica hreplica
    exact history.lasting.rows_of_between (hr.trans hs) hs' (hholds _ hmem)

/-- **An accepted session is served on a decision that is not outdated.** In every history of
writes, payload arrivals and kept views, the egress filter in force for the rounds of an accepted
session on a pod's store lets out only what the access rules let out on the entries of the PMS and
the membership store at a single moment between the opening of the session's snapshot and its
rounds, the payload of each entry taken as it stood at that moment or later. Where the first
decision stands, or no payload of those entries arrives between that moment and the rounds, it lets
out only what the access rules let out on the contents of that moment, payloads included.

**Proof sketch.** A first decision that stands rests on counts that have not moved and on payloads
that were all there, so what it read are the contents at the opening (`ClassifiedPod.stands`). A
decision asked for again reads the entries at one moment after the opening, and the payloads after
that (`ClassifiedPod.current`). -/
theorem served_on_current (history : History blake3 prims orders book) {ns : NamespaceId}
    {addressed acting : Identity} {peer : NodeId} {pod : PodId} {store : PodStore}
    {binding : PodBinding} (hof : book.registry.podOf ns = some (pod, store))
    (hpod : book.registry.pod pod = some binding) {opened ended : ℕ} {again : Bool}
    {egress : Option EntryFilter}
    (h : InForce history ns addressed acting peer opened ended again egress) :
    ∃ moment entries, opened ≤ moment ∧ moment ≤ ended ∧
      Looked blake3 book history.world binding.membership moment ended entries ∧
      (∀ e, SessionStore.admitted egress e = true →
        (book.decided (book.listedBy blake3 (history.world moment) peer) store
          (AccessBook.readOf prims orders pod binding.membership entries) ⟨acting.bytes⟩
          peer).letsOut e = true) ∧
      ((again = false ∨ ∀ e ∈ (history.world moment).getMany blake3 binding.membership [],
          (history.world ended).held e = (history.world moment).held e) →
        ∃ access, (book.classify prims orders ns addressed acting peer .accept).eval
            (World.answer blake3 book (history.world moment).forgotten) = some access ∧
          ∀ e, SessionStore.admitted egress e = true → access.letsOut e = true) := by
  -- it is enough to find a moment whose contents are what was seen
  have hfinish : ∀ {moment : ℕ} {entries : List HeldEntry},
      (∀ e, SessionStore.admitted egress e = true →
        (book.decided (book.listedBy blake3 (history.world moment) peer) store
          (AccessBook.readOf prims orders pod binding.membership entries) ⟨acting.bytes⟩
          peer).letsOut e = true) →
      entries = book.contents blake3 (history.world moment) binding.membership →
      ∃ access, (book.classify prims orders ns addressed acting peer .accept).eval
          (World.answer blake3 book (history.world moment).forgotten) = some access ∧
        ∀ e, SessionStore.admitted egress e = true → access.letsOut e = true := by
    rintro moment entries hlets rfl
    obtain ⟨access, heval, hsame⟩ := @eval_classify blake3 prims orders book
      (history.world moment) pod store peer ns addressed acting binding hof hpod
    exact ⟨access, heval, fun e he => (hsame e).trans (hlets e he)⟩
  cases h with
  | stands hfirst hopened hholds =>
    obtain ⟨read, s, decided, hread, hrun, haccess⟩ := runs_classify_accept hfirst
    obtain ⟨own, hown, hrests⟩ := restingOn_eq_allow haccess.symm
    rw [eq_some_of_getD hown] at hrun
    have hknown : own ≠ .unknown := by
      intro hunknown
      rw [hrests, if_pos hunknown, hunknown] at hholds
      exact hholds
    rw [hrests, if_neg hknown] at hholds
    have hstand := stand_of_holds hof hpod hread hholds
    have hlets := ((tryClassify_cases hrun).ofPod hof hpod).stands hopened hknown hstand
    exact ⟨opened, _, le_rfl, le_rfl, looked_contents le_rfl, hlets,
      fun _ => hfinish hlets rfl⟩
  | again hfirst hopened hmoved hagain =>
    obtain ⟨read, s, decided, hread, hrun, haccess⟩ := runs_classify_accept hagain
    obtain ⟨own, hown, -⟩ := restingOn_eq_allow haccess.symm
    rw [eq_some_of_getD hown] at hrun
    obtain ⟨moment, entries, hmoment, hended, hseen, hlets⟩ :=
      ((tryClassify_cases hrun).ofPod hof hpod).current hrun.le
    refine ⟨moment, entries, hread.le.trans hmoment, hended, hseen, hlets, fun hquiet => ?_⟩
    exact hfinish hlets (Looked.eq_contents_of_quiet hseen history.lasting
      (hquiet.resolve_left (by simp)))

namespace Testing

/-- Bob is invited once more between the counts and the opening. -/
def invitations : ℕ → World
  | 0 => joinedFamily
  | 1 => lacking joinedFamily (.joined 2)
  | _ => having joinedFamily (.joined 2)

/-- The entry is written, its payload arrives, and nothing changes from then on. -/
lemma happens_invitations (t : ℕ) :
    Happens hashing transparent (fun _ => default) aliceBook invitations t := by
  rcases t with _ | _ | t
  · exact .write (Written.joined 2).entry rfl
  · exact .arrive _ _ (by decide +kernel) rfl
  · exact .imported rfl

/-- The run in which this happens. -/
def invitedAgain : Interleaving hashing transparent (fun _ => default) aliceBook where
  world := invitations
  opened _ := rfl
  happens := happens_invitations

/-- Bob's session is decided on again at the opening, and is served on the contents of that moment.
-/
theorem served_on_current_bob :
    InForce invitedAgain.history familyRecords ⟨alice.id.bytes⟩ ⟨bob.id.bytes⟩ bob.device.node 2 2
        true none ∧
      ∃ access, bobAsks.eval (World.answer hashing aliceBook
          (having joinedFamily (.joined 2)).forgotten) = some access ∧
        ∀ e, access.letsOut e = true := by
  obtain ⟨first, hfirst, hrun⟩ := @Runs.exists_of_exec _ _ _ _ (World.answer hashing aliceBook)
    invitedAgain.world bobAsks 0 0 (List.replicate 30 0) (isOpen 3) (by decide +kernel)
  obtain ⟨taken, rfl⟩ := exists_of_isOpen hfirst
  obtain ⟨second, hsecond, hagain⟩ := @Runs.exists_of_exec _ _ _ _ (World.answer hashing aliceBook)
    invitedAgain.world bobAsks 2 2 (List.replicate 30 2) (isOpen 4) (by decide +kernel)
  obtain ⟨taken', rfl⟩ := exists_of_isOpen hsecond
  have hmoved : (invitedAgain.world 2).writes familyMembers ≠ 3 := by decide +kernel
  have hforce : InForce invitedAgain.history familyRecords ⟨alice.id.bytes⟩ ⟨bob.id.bytes⟩
      bob.device.node 2 2 true none :=
    .again hrun (by omega) (World.holds_singleton.not.mpr hmoved) hagain
  obtain ⟨moment, entries, hopened, hended, -, -, hlets⟩ := served_on_current invitedAgain.history
    (show aliceBook.registry.podOf familyRecords = some (family, .records) by decide +kernel)
    (show aliceBook.registry.pod family = some ⟨familyMembers, some familyRecords⟩ by
      decide +kernel) hforce
  obtain rfl : moment = 2 := by omega
  obtain ⟨access, heval, hall⟩ := hlets (.inr fun _ _ => rfl)
  exact ⟨hforce, access, heval, fun e => hall e rfl⟩

end Testing

/-! ## A read between two writes -/

namespace Testing

/-- Bob is removed and invited again, the payload of the second joined event on its way; while his
device's session is decided on again, he is removed once more, and the payload arrives. -/
def tornFamily : ℕ → World
  | 0 => joinedFamily
  | 1 => lacking joinedFamily (.removed 2)
  | 2 => lacking (lacking joinedFamily (.removed 2)) (.joined 3)
  | 3 => lacking (lacking (lacking joinedFamily (.removed 2)) (.joined 3)) (.removed 4)
  | _ => (lacking (lacking (lacking joinedFamily (.removed 2)) (.joined 3)) (.removed 4)).arrive
      (Written.joined 3).hash (Written.joined 3).payload

/-- What happens to the pod meanwhile. -/
def torn : Interleaving hashing transparent (fun _ => default) aliceBook where
  world := tornFamily
  opened _ := rfl
  happens
    | 0 => .write (Written.removed 2).entry rfl
    | 1 => .write (Written.joined 3).entry rfl
    | 2 => .write (Written.removed 4).entry rfl
    | 3 => .arrive _ _ (by decide +kernel) rfl
    | _ + 4 => .imported rfl

/-- An access that lets nothing out. -/
def isShut : SessionAccess → Bool
  | .deny => true
  | .allow _ _ _ => false

lemma torn_shut : ∀ moment ∈ [2, 3, 4],
    (bobAsks.eval (World.answer hashing aliceBook (tornFamily moment).forgotten)).any isShut =
      true := by
  decide +kernel

/-- **A decision on no single moment.** The entries are read before Bob is removed again and the
payload of his joined event is looked at after it has arrived: his device is served the record store
whole, though from the opening of the snapshot on there is no moment at which the rules let anything
out. -/
theorem torn_decision_served :
    InForce torn.history familyRecords ⟨alice.id.bytes⟩ ⟨bob.id.bytes⟩ bob.device.node 2 4 true
        none ∧
      ∀ moment, 2 ≤ moment → ∃ access,
        bobAsks.eval (World.answer hashing aliceBook (torn.world moment).forgotten) = some access ∧
        ∀ e, access.letsOut e = false := by
  constructor
  · obtain ⟨first, hfirst, hrun⟩ := @Runs.exists_of_exec _ _ _ _ (World.answer hashing aliceBook)
      tornFamily bobAsks 0 0 (List.replicate 30 0) (isOpen 3) (by decide +kernel)
    obtain ⟨taken, rfl⟩ := exists_of_isOpen hfirst
    -- the entries are read at moment 2, the last payload is looked at at moment 4
    obtain ⟨second, hsecond, hagain⟩ := @Runs.exists_of_exec _ _ _ _
      (World.answer hashing aliceBook) tornFamily bobAsks 2 4 (List.replicate 15 2 ++ [4, 4])
      (isOpen 5) (by decide +kernel)
    obtain ⟨taken', rfl⟩ := exists_of_isOpen hsecond
    have hmoved : (tornFamily 2).writes familyMembers ≠ 3 := by decide +kernel
    exact .again hrun (by omega) (World.holds_singleton.not.mpr hmoved) hagain
  · intro moment hmoment
    have hlate : ∃ shown ∈ [2, 3, 4], torn.world moment = tornFamily shown := by
      match moment with
      | 2 => exact ⟨2, by simp, rfl⟩
      | 3 => exact ⟨3, by simp, rfl⟩
      | n + 4 => exact ⟨4, by simp, rfl⟩
    obtain ⟨shown, hshown, hworld⟩ := hlate
    obtain ⟨access, heval, hshut⟩ := (Option.any_eq_true _ _).mp (torn_shut shown hshown)
    refine ⟨access, by rw [hworld, heval], fun e => ?_⟩
    cases access with
    | deny => rfl
    | allow egress taken restsOn => cases hshut

end Testing

end MeePdn
