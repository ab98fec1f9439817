import MeePdn.PdnStore.Actor

/-!
# What an actor does to its store

Whatever an actor does in a turn, it does to its store by methods of the store, and a commit the
timer saw fail is answered by the next local write or flush and by nothing else.

## Main definitions

* `Actor.Works` — methods of the store are called, and the failed commit is left as it is.

## Main results

* `Actor.works_onAction` — every action but a local write and a flush works like this.
* `Actor.storePath_work` — whatever the turn, the store is moved by its methods.
* `Session.processMessage_refines` — an answered message is answered as the engine does.
-/

namespace MeePdn.PdnStore

open Effects Fs

variable {prims : Primitives}

namespace Actor

variable {α β : Type}

/-- Methods of the store are called, and the failed commit is left as it is. -/
structure Works (actor actor' : Actor prims) : Prop where
  path : actor.store.Path actor'.store
  failed : actor'.failedCommit = actor.failedCommit

lemma Works.refl (actor : Actor prims) : Works actor actor := ⟨.refl _, rfl⟩

lemma Works.trans {a a' a'' : Actor prims} (h : Works a a') (h' : Works a' a'') : Works a a'' :=
  ⟨h.path.trans h'.path, h'.failed.trans h.failed⟩

lemma Works.of_eq {a a' : Actor prims} (hstore : a'.store = a.store)
    (hfailed : a'.failedCommit = a.failedCommit) : Works a a' :=
  ⟨hstore ▸ .refl _, hfailed⟩

lemma Works.bind {m : ActorM prims α} {f : α → ActorM prims β} (hm : MovesBy Works m)
    (hf : ∀ a, MovesBy Works (f a)) : MovesBy Works (m >>= f) :=
  MovesBy.bind (R := Works) (fun _ _ _ => Works.trans) hm hf

lemma Works.pure (a : α) : MovesBy Works (Pure.pure a : ActorM prims α) := Works.refl

lemma Works.throw (err : String) : MovesBy Works (throw err : ActorM prims α) := Works.refl

lemma Works.ofExcept (result : Except String α) :
    MovesBy Works (MonadExcept.ofExcept result : ActorM prims α) := by
  cases result with
  | ok a => exact Works.pure a
  | error err => exact Works.throw err

lemma Works.of_get {f : Actor prims → ActorM prims α}
    (h : ∀ a, Works a (final (f a) a)) : MovesBy Works (get >>= f) := h

lemma Works.set_bind {a a' : Actor prims} {m : ActorM prims α} (ha : Works a a')
    (hm : MovesBy Works m) : Works a (final (set a' >>= fun _ => m) a) := ha.trans (hm a')

lemma works_onStore {m : StoreM prims α} (h : MovesBy Store.Path m) :
    MovesBy Works (onStore m) := by
  intro a
  have hpath := h a.store
  unfold final at hpath ⊢
  unfold onStore
  cases hm : m a.store with
  | ok x s =>
    rw [hm] at hpath
    exact ⟨hpath, rfl⟩
  | error err s =>
    rw [hm] at hpath
    exact ⟨hpath, rfl⟩

/-! ## The parts of actions -/

lemma works_reclaimAbandonedSessions (gone : SyncSessionId → Bool) :
    MovesBy Works (reclaimAbandonedSessions gone : ActorM prims Unit) := by
  apply Works.of_get
  intro actor
  split_ifs
  · exact .refl actor
  · refine Works.bind (works_onStore (Store.path_elapsed _)) (fun elapsed => ?_) actor
    split_ifs
    · exact Works.pure _
    · refine Works.bind (works_onStore (Store.path_of_run .now rfl)) fun instant => ?_
      apply Works.of_get
      exact fun a => .of_eq rfl rfl

lemma works_getState (ns : NamespaceId) :
    MovesBy Works (getState ns : ActorM prims OpenReplica) := by
  apply Works.of_get
  intro a
  cases a.states.get ns with
  | none => exact .refl a
  | some state => exact .refl a

lemma works_ensureSyncing (ns : NamespaceId) :
    MovesBy Works (ensureSyncing ns : ActorM prims OpenReplica) := by
  apply Works.bind (works_getState ns)
  intro state
  split_ifs
  · exact Works.pure _
  · exact Works.throw _

/-- An author. -/
lemma works_getAuthor (author : AuthorId) :
    MovesBy Works (getAuthor author : ActorM prims Author) := by
  apply Works.bind (works_onStore (Store.path_of_run (.getAuthor author) rfl))
  intro found
  cases found with
  | none => exact Works.throw _
  | some author => exact Works.pure _

lemma works_forgetReplica (ns : NamespaceId) :
    MovesBy Works (forgetReplica ns : ActorM prims Unit) := by
  apply Works.of_get
  intro a
  exact Works.set_bind (.of_eq rfl rfl) (works_onStore (Store.path_run (.closeReplica ns)))

lemma works_openReplica (ns : NamespaceId) (sync : Bool) :
    MovesBy Works (openReplica ns sync : ActorM prims Unit) := by
  apply Works.of_get
  intro a
  cases a.states.get ns with
  | some state => exact .of_eq rfl rfl
  | none =>
    refine Works.bind (works_onStore (Store.path_of_run (.loadReplicaInfo ns) rfl))
      (fun capability => ?_) a
    apply Works.of_get
    exact fun a => .of_eq rfl rfl

lemma works_close (ns : NamespaceId) : MovesBy Works (close ns : ActorM prims Bool) := by
  have hforget : MovesBy Works (do forgetReplica ns; return true : ActorM prims Bool) :=
    Works.bind (works_forgetReplica ns) fun _ => Works.pure _
  apply Works.of_get
  intro a
  cases a.states.get ns with
  | none => exact hforget a
  | some state =>
    simp only
    split_ifs
    · exact Works.set_bind (.of_eq rfl rfl) hforget
    · exact Works.set_bind (.of_eq rfl rfl) (Works.pure _)

lemma works_closeEveryHandle (ns : NamespaceId) :
    MovesBy Works (closeEveryHandle ns : ActorM prims Unit) := by
  apply Works.of_get
  intro a
  split_ifs
  · exact Works.set_bind (.of_eq rfl rfl) (works_forgetReplica ns)
  · exact .refl a

lemma works_closeReplicas (replicas : List NamespaceId) :
    MovesBy Works (closeReplicas replicas : ActorM prims Unit) := by
  induction replicas with
  | nil => exact Works.pure _
  | cons ns rest ih =>
    exact Works.bind (works_onStore (Store.path_run (.closeReplica ns))) fun _ => ih

lemma works_closeAll : MovesBy Works (closeAll : ActorM prims Unit) := by
  apply Works.of_get
  intro a
  exact Works.set_bind (.of_eq rfl rfl) (works_closeReplicas _)

lemma works_syncSessionStart (ns : NamespaceId) (read : List (NamespaceId × ℕ)) :
    MovesBy Works (syncSessionStart ns read : ActorM prims OpenedSession) := by
  refine Works.bind (works_ensureSyncing ns) fun _ => ?_
  refine Works.bind (works_onStore (Store.path_of_run .snapshotOwned rfl)) fun tables => ?_
  apply Works.of_get
  intro a
  refine Works.set_bind (.of_eq rfl rfl) ?_
  exact Works.bind (works_onStore (Store.path_of_run (.writesOf ns) rfl)) fun _ => Works.pure _

lemma works_sessionSnapshot (session : SyncSessionId) (ns : NamespaceId) :
    MovesBy Works (sessionSnapshot session ns : ActorM prims (Tables prims)) := by
  apply Works.of_get
  intro a
  split_ifs
  · exact .refl a
  · cases a.sessions.lookup session with
    | none => exact .refl a
    | some snapshot =>
      simp only
      split_ifs
      · exact .refl a
      · exact .refl a

lemma works_sessionReplica (ns : NamespaceId) (session : SyncSessionId)
    (filter : Option EntryFilter) (ingest : Option SessionIngest) (peer : PeerIdBytes) :
    MovesBy Works (sessionReplica ns session filter ingest peer : ActorM prims Session) :=
  Works.bind (works_sessionSnapshot session ns) fun _ =>
    Works.bind (works_ensureSyncing ns) fun _ => Works.pure _

lemma works_setSync (ns : NamespaceId) (sync : Bool) :
    MovesBy Works (setSync ns sync : ActorM prims Unit) := by
  refine Works.bind (works_getState ns) fun state => ?_
  apply Works.of_get
  exact fun a => .of_eq rfl rfl

lemma works_dropReplica (ns : NamespaceId) : MovesBy Works (dropReplica ns : ActorM prims Unit) :=
  Works.bind (works_closeEveryHandle ns) fun _ => works_onStore (Store.path_run (.removeReplica ns))

end Actor

/-! ## Writes -/

namespace Session

variable (blake3 : List UInt8 → Bytes 32) (session : Session)

lemma path_storeValues (now : UInt64) (values : List (SignedEntry × ContentStatus)) :
    MovesBy Store.Path (session.storeValues prims blake3 now values) := by
  induction values with
  | nil => exact Store.Path.pure _
  | cons value rest ih =>
    obtain ⟨e, status⟩ := value
    unfold storeValues
    split
    · exact ih
    · exact Store.Path.bind (Store.path_put session.ns e) fun _ => ih

lemma path_processItems (now : UInt64) (status : SignedEntry → ContentStatus)
    (items : List (Ranger.RangeItem SignedEntry RecordIdentifier)) :
    MovesBy Store.Path (session.processItems prims blake3 now status items) := by
  induction items with
  | nil => exact Store.Path.pure _
  | cons item rest ih =>
    refine Store.Path.bind (Store.Path.ofExcept _) fun parts => ?_
    refine Store.Path.bind (session.path_storeValues blake3 now item.values) fun _ => ?_
    exact Store.Path.bind ih fun _ => Store.Path.pure _

lemma path_processMessage (status : SignedEntry → ContentStatus) (incoming : ProtocolMessage) :
    MovesBy Store.Path (session.processMessage prims blake3 status incoming) := by
  refine Store.Path.bind Store.Path.get fun s => ?_
  refine Store.Path.bind (session.path_processItems blake3 _ status _) fun parts => ?_
  exact Store.Path.bind (Store.Path.ofExcept _) fun _ => Store.Path.pure _

lemma ensures_ofExcept {α : Type} {result : Except String α} {s : Store prims}
    {ok : α → Store prims → Prop} (h : ∀ a, result = .ok a → ok a s) :
    Ensures (MonadExcept.ofExcept result : StoreM prims α) s ok fun _ _ => True := by
  cases result with
  | error err => trivial
  | ok a => exact h a rfl

/-- Values stored are stored as the engine stores them in the live records. -/
lemma storeValues_refines (now : UInt64) (values : List (SignedEntry × ContentStatus))
    (s : Store prims) :
    Ensures (session.storeValues prims blake3 now values) s
      (fun _ s' => (session.store blake3).storeValues (SignedEntry.rangeEntry blake3)
        (session.validate prims blake3 now) values s.live.records = (.ok (), s'.live.records))
      fun _ _ => True := by
  induction values generalizing s with
  | nil => rfl
  | cons value rest ih =>
    obtain ⟨e, status⟩ := value
    unfold storeValues Ranger.Store.storeValues
    cases session.validate prims blake3 now e status with
    | drop => exact ih s
    | accept =>
      simp only [ensures_bind]
      refine (StoreInstance.put_refines session.ns blake3 (some session.snapshot) e s).mono ?_
        fun _ _ _ => trivial
      intro outcome s' hput
      have hsame : (session.store blake3).put (SignedEntry.rangeEntry blake3) s.live.records e =
          .ok (outcome, s'.live.records) := hput
      rw [hsame]
      exact ih s'

/-- So are the items of a message processed. -/
lemma processItems_refines (now : UInt64) (status : SignedEntry → ContentStatus)
    (items : List (Ranger.RangeItem SignedEntry RecordIdentifier)) (s : Store prims) :
    Ensures (session.processItems prims blake3 now status items) s
      (fun parts s' => (session.store blake3).processItems (SignedEntry.rangeEntry blake3)
        (session.validate prims blake3 now) status items s.live.records =
          (.ok parts, s'.live.records))
      fun _ _ => True := by
  induction items generalizing s with
  | nil => rfl
  | cons item rest ih =>
    unfold processItems Ranger.Store.processItems
    simp only [ensures_bind, ensures_pure]
    refine ensures_ofExcept fun parts hparts => ?_
    have hread : ((session.store blake3).reads s.live.records).replyItem
        (SignedEntry.rangeEntry blake3) status item = .ok parts := hparts
    refine (session.storeValues_refines blake3 now item.values s).mono ?_ fun _ _ _ => trivial
    intro _ s' hstored
    refine (ih s').mono ?_ fun _ _ _ => trivial
    intro more s'' hmore
    simp only [hread, hstored, hmore]

/-- **A message that is answered is answered as the engine answers it**: the actor's answer and the
records it leaves are those of `Session.process` on the live records. -/
lemma processMessage_refines {status : SignedEntry → ContentStatus} {incoming : ProtocolMessage}
    {s s' : Store prims} {reply : Option ProtocolMessage}
    (h : session.processMessage prims blake3 status incoming s = .ok reply s') :
    session.process prims blake3 (s.env.micros 0) status incoming s.live.records =
      (.ok reply, s'.live.records) := by
  have hrefines : Ensures (session.processMessage prims blake3 status incoming) s
      (fun reply s' => session.process prims blake3 (s.env.micros 0) status incoming
        s.live.records = (.ok reply, s'.live.records)) fun _ _ => True := by
    unfold processMessage process Ranger.Store.processMessage
    simp only [ensures_bind, ensures_get, ensures_pure]
    refine (session.processItems_refines blake3 _ status incoming.items s).mono ?_
      fun _ _ _ => trivial
    intro parts s' hparts
    refine ensures_ofExcept fun fingerprints hfingerprints => ?_
    have hread : incoming.fingerprints.mapM (((session.store blake3).reads
        s'.live.records).replyFingerprint blake3 (SignedEntry.rangeEntry blake3) .default status) =
          .ok fingerprints := hfingerprints
    rw [hparts]
    simp only [hread]
    rfl
  exact hrefines.of_ok h

end Session

namespace Replica

variable (blake3 : List UInt8 → Bytes 32) (capability : Capability) (author : Author)
  (key : List UInt8)

lemma path_insertEntry (e : SignedEntry) :
    MovesBy Store.Path (insertEntry prims blake3 capability e) := by
  refine Store.Path.bind Store.Path.get fun s => ?_
  split
  · exact Store.Path.throw _
  · refine Store.Path.bind ?_ fun outcome => ?_
    · exact MovesBy.tryCatch (R := Store.Path) (fun _ _ _ => Store.Path.trans) (Store.path_put _ e)
        fun _ => Store.Path.throw _
    · cases outcome with
      | notInserted => exact Store.Path.throw _
      | inserted removed => exact Store.Path.pure _

lemma path_insert (hash : Hash) (len : UInt64) :
    MovesBy Store.Path (insert prims blake3 capability author key hash len) := by
  unfold insert
  split_ifs
  · exact Store.Path.throw _
  · exact Store.Path.bind Store.Path.get fun _ => path_insertEntry blake3 capability _

lemma path_delete : MovesBy Store.Path (delete prims blake3 capability author key) :=
  Store.Path.bind Store.Path.get fun _ => path_insertEntry blake3 capability _

end Replica

/-! ## Actions -/

/-- The actions a commit that failed is answered by: local writes and flushes. -/
def Action.Answers : Action → Prop
  | .flushStore => True
  | .replica _ (.insertLocal ..) => True
  | .replica _ (.delete ..) => True
  | _ => False

namespace Actor

variable (blake3 : List UInt8 → Bytes 32) (status : SignedEntry → ContentStatus)

lemma works_onReplicaAction {ns : NamespaceId} {action : ReplicaAction}
    (h : ¬ (Action.replica ns action).Answers) :
    MovesBy Works (onReplicaAction blake3 status ns action : ActorM prims Answer) := by
  have honStore : ∀ {α : Type} {m : StoreM prims α} (answer : α → Answer), MovesBy Store.Path m →
      MovesBy Works (do return answer (← onStore m)) :=
    fun _ hm => Works.bind (works_onStore hm) fun _ => Works.pure _
  cases action with
  | insertLocal author key hash len => exact absurd trivial h
  | delete author key => exact absurd trivial h
  | «open» sync => exact Works.bind (works_openReplica ns sync) fun _ => Works.pure _
  | close => exact Works.bind (works_close ns) fun _ => Works.pure _
  | setSync sync => exact Works.bind (works_setSync ns sync) fun _ => Works.pure _
  | subscribe => exact Works.bind (works_getState ns) fun _ => Works.pure _
  | unsubscribe => exact Works.bind (works_getState ns) fun _ => Works.pure _
  | syncSessionStart read => exact Works.bind (works_syncSessionStart ns read) fun _ => Works.pure _
  | syncInitialMessage session filter =>
    refine Works.bind ?_ fun _ => Works.pure _
    exact Works.bind (works_sessionReplica ns session filter none _) fun _ => Works.ofExcept _
  | syncProcessMessage message peer session filter ingest =>
    refine Works.bind ?_ fun _ => Works.pure _
    exact Works.bind (works_sessionReplica ns session filter ingest peer) fun session =>
      works_onStore (session.path_processMessage blake3 status message)
  | getSyncPeers =>
    exact Works.bind (works_getState ns) fun _ =>
      honStore _ (Store.path_of_run (.getSyncPeers ns) rfl)
  | registerUsefulPeer peer =>
    exact Works.bind (works_onStore (Store.path_run (.registerUsefulPeer ns peer))) fun _ =>
      Works.pure _
  | getMany query =>
    exact Works.bind (works_getState ns) fun _ =>
      honStore _ (Store.path_of_run (.getMany ns query) rfl)
  | dropReplica => exact Works.bind (works_dropReplica ns) fun _ => Works.pure _
  | exportSecretKey => exact Works.bind (works_getState ns) fun _ => Works.pure _
  | hasNewsForUs heads => exact honStore _ (Store.path_of_run (.hasNewsForUs ns heads) rfl)
  | writes => exact honStore _ (Store.path_of_run (.writesOf ns) rfl)

lemma works_shutdown : MovesBy Works (shutdown : ActorM prims Unit) := by
  refine Works.bind ?_ fun _ => Works.bind works_closeAll fun _ => ?_
  · exact MovesBy.tryCatch (R := Works) (fun _ _ _ => Works.trans)
      (works_onStore (Store.path_run .flush)) fun _ => Works.pure _
  · apply Works.of_get
    exact fun a => .of_eq rfl rfl

/-- **Every action but a local write and a flush calls methods of the store and leaves a failed
commit to be answered.** -/
lemma works_onAction {action : Action} (h : ¬ action.Answers) :
    MovesBy Works (onAction blake3 status action : ActorM prims Answer) := by
  cases action with
  | flushStore => exact absurd trivial h
  | replica ns action => exact works_onReplicaAction blake3 status h
  | importAuthor author =>
    exact Works.bind (works_onStore (Store.path_run (.importAuthor author))) fun _ => Works.pure _
  | exportAuthor author =>
    exact Works.bind (works_onStore (Store.path_of_run (.getAuthor author) rfl)) fun _ =>
      Works.pure _
  | importNamespace capability =>
    exact Works.bind (works_onStore (Store.path_of_run (.importNamespace capability) rfl)) fun _ =>
      Works.pure _
  | listReplicas =>
    exact Works.bind (works_onStore (Store.path_of_run .listNamespaces rfl)) fun _ => Works.pure _
  | contentHashes =>
    exact Works.bind (works_onStore (Store.path_of_run .contentHashes rfl)) fun _ => Works.pure _
  | syncSessionEnd session =>
    apply Works.of_get
    exact fun a => .of_eq rfl rfl
  | shutdown => exact Works.bind works_shutdown fun _ => Works.pure _

/-! ## Turns -/

section Turns

variable {α β : Type}

/-- The store is moved by its methods, and nothing is said of the rest. -/
def StorePath (actor actor' : Actor prims) : Prop := actor.store.Path actor'.store

lemma StorePath.bind {m : ActorM prims α} {f : α → ActorM prims β} (hm : MovesBy StorePath m)
    (hf : ∀ a, MovesBy StorePath (f a)) : MovesBy StorePath (m >>= f) :=
  MovesBy.bind (R := StorePath) (fun _ _ _ => Store.Path.trans) hm hf

lemma storePath_of_works {m : ActorM prims α} (h : MovesBy Works m) : MovesBy StorePath m :=
  h.mono fun _ _ => Works.path

lemma storePath_answerFailedCommit :
    MovesBy StorePath (answerFailedCommit : ActorM prims Unit) := by
  intro a
  unfold answerFailedCommit final
  simp only [bind, EStateM.bind, get, getThe, MonadStateOf.get, EStateM.get, set, EStateM.set]
  cases a.failedCommit <;> exact Store.Path.refl _

lemma storePath_writeLocal {ns : NamespaceId} {author : AuthorId}
    {write : Capability → Author → StoreM prims ℕ}
    (h : ∀ capability author, MovesBy Store.Path (write capability author)) :
    MovesBy StorePath (writeLocal ns author write) := by
  refine StorePath.bind storePath_answerFailedCommit fun _ => storePath_of_works ?_
  refine Works.bind (works_getAuthor author) fun author => ?_
  exact Works.bind (works_getState ns) fun state => works_onStore (h state.capability author)

lemma storePath_commitOnTimer (gone : SyncSessionId → Bool) :
    MovesBy StorePath (commitOnTimer gone : ActorM prims Unit) := by
  refine StorePath.bind (storePath_of_works (works_reclaimAbandonedSessions gone)) fun _ => ?_
  exact MovesBy.tryCatch (R := StorePath) (fun _ _ _ => Store.Path.trans)
    (storePath_of_works (works_onStore (Store.path_run .flush))) fun _ _ => Store.Path.refl _

/-- **Whatever an actor does in a turn, it does to its store by methods of the store.** -/
lemma storePath_work (turn : Turn) :
    MovesBy StorePath (work blake3 turn : ActorM prims Answer) := by
  have hdone : MovesBy StorePath (return .done : ActorM prims Answer) := fun _ => Store.Path.refl _
  unfold work
  cases turn.action with
  | none => exact StorePath.bind (storePath_commitOnTimer turn.gone) fun _ => hdone
  | some action =>
    refine StorePath.bind (storePath_of_works (works_reclaimAbandonedSessions turn.gone))
      fun _ => ?_
    by_cases h : action.Answers
    · match action, h with
      | .flushStore, _ =>
        refine StorePath.bind ?_ fun _ => hdone
        exact StorePath.bind storePath_answerFailedCommit fun _ =>
          storePath_of_works (works_onStore (Store.path_run .flush))
      | .replica ns (.insertLocal author key hash len), _ =>
        refine StorePath.bind ?_ fun _ => hdone
        refine StorePath.bind (storePath_writeLocal ?_) fun _ => fun _ => Store.Path.refl _
        exact fun capability author => Replica.path_insert blake3 capability author key hash len
      | .replica ns (.delete author key), _ =>
        refine StorePath.bind (storePath_writeLocal ?_) fun _ => fun _ => Store.Path.refl _
        exact fun capability author => Replica.path_delete blake3 capability author key
    · exact storePath_of_works (works_onAction blake3 turn.status h)

end Turns

end Actor

end MeePdn.PdnStore
