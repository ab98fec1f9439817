import MeePdn.PdnStore.Testing
import MeePdn.PdnStore.Works

/-!
# What a flush makes durable

A local write that is answered is in the actor's open transaction, and any action may come to commit
that transaction for its own reasons. This file follows a write from its answer to the answer of a
flush.

## Main definitions

* `Action.Writes` — the entry a local write asks for.
* `Turn.IsQuiet`, `Turn.Spares` — a turn that reports no failure to a writer, and one that does not
  lose a write to a commit only its own caller hears of.

## Main results

* `flush_durable` — a write answered before a flush is on disk when the flush is answered, provided
  no action other than a local write, a flush or the timer loses it.
* `Testing.read_loses_write` — a read whose commit fails loses a write that was answered, and the
  next flush is answered all the same.
-/

namespace MeePdn.PdnStore

open Effects Fs

variable {prims : Primitives} (blake3 : List UInt8 → Bytes 32)

/-! ## A local write -/

/-- The local writes. -/
def Action.IsWrite : Action → Prop
  | .replica _ (.insertLocal ..) => True
  | .replica _ (.delete ..) => True
  | _ => False

/-- The entry a local write asks for. -/
def Action.Writes (blake3 : List UInt8 → Bytes 32) : Action → SignedEntry → Prop
  | .replica ns (.insertLocal author key hash len), e =>
    e.id = ⟨ns, author, key⟩ ∧ e.contentHash = hash ∧ e.contentLen = len
  | .replica ns (.delete author key), e =>
    e.id = ⟨ns, author, key⟩ ∧ e.contentHash = Hash.empty blake3 ∧ e.contentLen = 0
  | _, _ => False

namespace Replica

variable (capability : Capability) (author : Author) (key : List UInt8)

lemma ensures_insertEntry (e : SignedEntry) (s : Store prims) :
    Ensures (insertEntry prims blake3 capability e) s
      (fun _ s' => s.Follows s' ∧ s'.written = s.written ++ [.put e]) fun _ _ => True := by
  unfold insertEntry
  rw [ensures_bind, ensures_get]
  split
  · trivial
  · rw [ensures_bind, ensures_tryCatch]
    refine (Fs.StoreInstance.ensures_put _ e s).mono ?_ fun _ _ _ => trivial
    rintro outcome s' ⟨hs', ⟨rfl, -⟩ | ⟨⟨n, rfl⟩, -, hadd, -, -⟩⟩
    · trivial
    · exact ⟨hs', hadd⟩

lemma ensures_insert (hash : Hash) (len : UInt64) (s : Store prims) :
    Ensures (insert prims blake3 capability author key hash len) s
      (fun _ s' => s.Follows s' ∧ ∃ micros, s'.written =
        s.written ++ [.put (signCurrent prims capability author key hash len micros)])
      fun _ _ => True := by
  unfold insert
  rw [ensures_ite]
  refine ⟨fun _ => trivial, fun _ => ?_⟩
  rw [ensures_bind, ensures_get]
  refine (ensures_insertEntry blake3 capability _ s).mono ?_ fun _ _ => id
  exact fun _ s' h => ⟨h.1, _, h.2⟩

lemma ensures_delete (s : Store prims) :
    Ensures (delete prims blake3 capability author key) s
      (fun _ s' => s.Follows s' ∧ ∃ micros, s'.written =
        s.written ++ [.put (signCurrent prims capability author key (Hash.empty blake3) 0 micros)])
      fun _ _ => True := by
  unfold delete
  rw [ensures_bind, ensures_get]
  refine (ensures_insertEntry blake3 capability _ s).mono ?_ fun _ _ => id
  exact fun _ s' h => ⟨h.1, _, h.2⟩

end Replica

namespace Actor

variable {α : Type}

@[simp] lemma ensures_onStore {m : StoreM prims α} {a : Actor prims}
    {ok : α → Actor prims → Prop} {err : String → Actor prims → Prop} :
    Ensures (onStore m) a ok err ↔
      Ensures m a.store (fun x s => ok x { a with store := s })
        fun e s => err e { a with store := s } := by
  unfold Ensures onStore
  cases m a.store <;> rfl

lemma ensures_reclaimAbandonedSessions (gone : SyncSessionId → Bool) (a : Actor prims) :
    Ensures (reclaimAbandonedSessions gone) a
      (fun _ a' => a.store.Keeps a'.store ∧ a'.states = a.states ∧
        a'.failedCommit = a.failedCommit) fun _ _ => False := by
  unfold reclaimAbandonedSessions
  simp only [ensures_bind, ensures_get, ensures_ite, ensures_pure, ensures_onStore, Store.elapsed,
    Store.now, ensures_set]
  refine ⟨fun _ => ⟨.refl _, trivial, trivial⟩, fun _ => ⟨fun _ => ?_, fun _ => ?_⟩⟩
  · exact ⟨.of_eq rfl rfl (fun _ => le_rfl) rfl id rfl, trivial, trivial⟩
  · exact ⟨.of_eq rfl rfl (fun _ => le_rfl) rfl id rfl, trivial, trivial⟩

lemma ensures_answerFailedCommit (a : Actor prims) :
    Ensures answerFailedCommit a (fun _ a' => a.failedCommit = none ∧ a' = a)
      fun _ a' => a'.store = a.store := by
  unfold answerFailedCommit
  simp only [ensures_bind, ensures_get, ensures_set]
  cases h : a.failedCommit with
  | none =>
    refine ⟨rfl, ?_⟩
    rw [← h]
  | some failed => trivial

lemma ensures_getAuthor (author : AuthorId) (a : Actor prims) :
    Ensures (getAuthor author) a
      (fun found a' => found.id prims = author ∧ a.store.Keeps a'.store ∧ a'.states = a.states ∧
        a'.failedCommit = a.failedCommit) fun _ _ => True := by
  unfold getAuthor Store.getAuthor
  simp only [ensures_bind, ensures_onStore, ensures_pure]
  refine (Store.ensures_tables a.store).mono ?_ fun _ _ _ => trivial
  rintro t s ⟨rfl, hs⟩
  cases hfound : a.store.live.authors.get author with
  | none => trivial
  | some found => exact ⟨(Keyed.Table.get_eq_some.mp hfound).2, hs, rfl, rfl⟩

lemma ensures_getState (ns : NamespaceId) (a : Actor prims) :
    Ensures (getState ns) a (fun state a' => state.capability.id prims = ns ∧ a' = a)
      fun _ _ => True := by
  unfold getState
  simp only [ensures_bind, ensures_get]
  cases hfound : a.states.get ns with
  | none => trivial
  | some state => exact ⟨(Keyed.Table.get_eq_some.mp hfound).2, rfl⟩

/-- A local write that is answered is made with the replica's and the author's own keys, and no
failed commit is left unanswered. -/
lemma ensures_writeLocal {ns : NamespaceId} {author : AuthorId}
    {write : Capability → Author → StoreM prims ℕ} {P : Store prims → Store prims → Prop}
    (hwrite : ∀ capability found s, capability.id prims = ns → found.id prims = author →
      Ensures (write capability found) s (fun _ => P s) fun _ _ => True) (a : Actor prims) :
    Ensures (writeLocal ns author write) a
      (fun _ a' => a.failedCommit = none ∧ a'.failedCommit = none ∧
        ∃ s, a.store.Keeps s ∧ P s a'.store) fun _ _ => True := by
  unfold writeLocal
  rw [ensures_bind]
  refine (ensures_answerFailedCommit a).mono ?_ fun _ _ _ => trivial
  rintro _ _ ⟨hnone, rfl⟩
  rw [ensures_bind]
  refine (ensures_getAuthor author _).mono ?_ fun _ _ => id
  rintro found a' ⟨hfound, hkeeps, hstates, hfailed⟩
  rw [ensures_bind]
  refine (ensures_getState ns a').mono ?_ fun _ _ => id
  rintro state _ ⟨hns, rfl⟩
  rw [ensures_onStore]
  refine (hwrite state.capability found _ hns hfound).mono ?_ fun _ _ => id
  exact fun _ s hs => ⟨hnone, hfailed.trans hnone, _, hkeeps, hs⟩

/-- **A local write that is answered adds the entry asked for to the writes**, and no failed commit
is left unanswered. -/
lemma ensures_onAction_write {action : Action} (hwrite : action.IsWrite)
    (status : SignedEntry → ContentStatus) (a : Actor prims) :
    Ensures (onAction blake3 status action) a
      (fun _ a' => a.failedCommit = none ∧ a'.failedCommit = none ∧
        ∃ e, action.Writes blake3 e ∧ a'.store.written = a.store.written ++ [.put e])
      fun _ _ => True := by
  have hlocal : ∀ {ns : NamespaceId} {author : AuthorId}
      {write : Capability → Author → StoreM prims ℕ},
      (∀ capability found s, capability.id prims = ns → found.id prims = author →
        Ensures (write capability found) s
          (fun _ s' => ∃ e, action.Writes blake3 e ∧ s'.written = s.written ++ [.put e])
          fun _ _ => True) →
      Ensures (writeLocal ns author write) a
        (fun _ a' => a.failedCommit = none ∧ a'.failedCommit = none ∧
          ∃ e, action.Writes blake3 e ∧ a'.store.written = a.store.written ++ [.put e])
        fun _ _ => True := by
    intro ns author write h
    refine (ensures_writeLocal h a).mono ?_ fun _ _ => id
    rintro _ a' ⟨hnone, hnone', s, hs, e, he, hadd⟩
    exact ⟨hnone, hnone', e, he, by rw [hadd, hs.written]⟩
  match action, hwrite with
  | .replica ns (.insertLocal author key hash len), _ =>
    simp only [onAction, onReplicaAction, insertLocal, ensures_bind, ensures_pure]
    apply hlocal
    rintro capability found s rfl rfl
    refine (Replica.ensures_insert blake3 capability found key hash len s).mono ?_ fun _ _ => id
    rintro _ s' ⟨-, micros, hadd⟩
    exact ⟨_, ⟨rfl, rfl, rfl⟩, hadd⟩
  | .replica ns (.delete author key), _ =>
    simp only [onAction, onReplicaAction, delete, ensures_bind, ensures_pure]
    apply hlocal
    rintro capability found s rfl rfl
    refine (Replica.ensures_delete blake3 capability found key s).mono ?_ fun _ _ => id
    rintro _ s' ⟨-, micros, hadd⟩
    exact ⟨_, ⟨rfl, rfl, rfl⟩, hadd⟩

/-- **A flush that is answered takes every write to disk**, and no failed commit is left
unanswered. -/
lemma ensures_flushStore (a : Actor prims) :
    Ensures flushStore a
      (fun _ a' => a.failedCommit = none ∧ a'.failedCommit = none ∧ a.store.Keeps a'.store ∧
        (a.store.Tracked → a'.store.db.synced = a'.store.written)) fun _ _ => True := by
  unfold flushStore
  rw [ensures_bind]
  refine (ensures_answerFailedCommit a).mono ?_ fun _ _ _ => trivial
  rintro _ _ ⟨hnone, rfl⟩
  rw [ensures_onStore]
  refine (Store.ensures_flush _).mono ?_ fun _ _ _ => trivial
  exact fun _ s hs => ⟨hnone, hnone, hs⟩

/-- **The timer keeps every write or keeps its failure to be answered.** -/
lemma ensures_commitOnTimer (gone : SyncSessionId → Bool) (a : Actor prims) :
    Ensures (commitOnTimer gone) a
      (fun _ a' => a'.failedCommit.isSome ∨
        a'.failedCommit = a.failedCommit ∧ a.store.Keeps a'.store) fun _ _ => False := by
  unfold commitOnTimer
  rw [ensures_bind]
  refine (ensures_reclaimAbandonedSessions gone a).mono ?_ fun _ _ => id
  rintro _ a' ⟨hkeeps, -, hfailed⟩
  rw [ensures_tryCatch, ensures_onStore]
  refine (Store.ensures_flush a'.store).mono ?_ ?_
  · exact fun _ s hs => .inr ⟨hfailed, hkeeps.trans hs.1⟩
  · intro cause s _
    simp only [ensures_bind, ensures_get, ensures_set]
    exact .inl rfl

/-! ## Turns -/

/-- What a turn is answered. -/
def answer (a : Actor prims) (t : Turn) : Except String Answer := (a.turn blake3 t).1

/-- The actor after a turn. -/
def next (a : Actor prims) (t : Turn) : Actor prims := (a.turn blake3 t).2

/-- The actor after a list of turns. -/
def after (a : Actor prims) (turns : List Turn) : Actor prims := turns.foldl (next blake3) a

/-- Something holds of every turn of a run, at the actor that takes it. -/
def Along (P : Actor prims → Turn → Prop) : Actor prims → List Turn → Prop
  | _, [] => True
  | a, t :: turns => P a t ∧ Along P (a.next blake3 t) turns

variable {blake3} {a : Actor prims} {t : Turn}

lemma work_of_answer {answer : Answer} (h : a.answer blake3 t = .ok answer) :
    work blake3 t (a.under t.env) = .ok answer (a.next blake3 t) := by
  unfold Actor.answer turn at h
  unfold next turn
  split_ifs at h ⊢
  cases hw : work blake3 t (a.under t.env) with
  | ok result a' =>
    rw [hw] at h
    cases h
    rfl
  | error err a' =>
    rw [hw] at h
    cases h

lemma next_of_stopped (h : a.stopped = true) : a.next blake3 t = a := by
  unfold next turn
  rw [if_pos h]

lemma next_of_ensures {P : Actor prims → Prop}
    (h : Ensures (work blake3 t) (a.under t.env) (fun _ => P) fun _ => P) :
    a.stopped = true ∧ a.next blake3 t = a ∨ P (a.next blake3 t) := by grind [next, turn, Ensures]

/-- What follows the sweep of sessions finds every write. -/
lemma ensures_work {action : Action} (haction : t.action = some action)
    {P : Actor prims → Actor prims → Prop}
    (h : ∀ a', Ensures (onAction blake3 t.status action) a' (fun _ => P a') fun _ _ => True) :
    Ensures (work blake3 t) (a.under t.env)
      (fun _ a'' => ∃ a' : Actor prims, a.store.written = a'.store.written ∧
        a'.failedCommit = a.failedCommit ∧ (a.store.Tracked → a'.store.Tracked) ∧ P a' a'')
      fun _ _ => True := by
  unfold work
  rw [haction]
  simp only [ensures_bind]
  refine (ensures_reclaimAbandonedSessions t.gone _).mono ?_ fun _ _ => False.elim
  rintro _ a' ⟨hkeeps, -, hfailed⟩
  refine (h a').mono ?_ fun _ _ => id
  exact fun _ a'' h => ⟨a', hkeeps.written.symm, hfailed, hkeeps.follows.tracked, h⟩

lemma next_of_write {action : Action} {answer : Answer} (haction : t.action = some action)
    (hwrite : action.IsWrite) (h : a.answer blake3 t = .ok answer) :
    a.failedCommit = none ∧ (a.next blake3 t).failedCommit = none ∧
      ∃ e, action.Writes blake3 e ∧
        (a.next blake3 t).store.written = a.store.written ++ [.put e] := by
  obtain ⟨a', hwritten, hfailed, -, hnone, hnone', e, he, hadd⟩ :=
    (ensures_work haction (ensures_onAction_write blake3 hwrite t.status)).of_ok
      (work_of_answer h)
  exact ⟨hfailed ▸ hnone, hnone', e, he, by rw [hadd, hwritten]⟩

/-- A flush that is answered. -/
lemma next_of_flush {answer : Answer} (haction : t.action = some .flushStore)
    (h : a.answer blake3 t = .ok answer) :
    a.failedCommit = none ∧ (a.next blake3 t).failedCommit = none ∧
      (a.next blake3 t).store.written = a.store.written ∧
      (a.store.Tracked → (a.next blake3 t).store.db.synced = a.store.written) := by
  have hflush : ∀ a' : Actor prims, Ensures (onAction blake3 t.status .flushStore) a'
      (fun _ a'' => a'.failedCommit = none ∧ a''.failedCommit = none ∧ a'.store.Keeps a''.store ∧
        (a'.store.Tracked → a''.store.db.synced = a''.store.written)) fun _ _ => True := by
    intro a'
    simp only [onAction, ensures_bind, ensures_pure]
    exact ensures_flushStore a'
  obtain ⟨a', hwritten, hfailed, htracked, hnone, hnone', hkeeps, hdisk⟩ :=
    (ensures_work haction hflush).of_ok (work_of_answer h)
  have hall : (a.next blake3 t).store.written = a.store.written := by rw [hkeeps.written, hwritten]
  exact ⟨hfailed ▸ hnone, hnone', hall, fun ht => by rw [hdisk (htracked ht), hall]⟩

lemma next_of_timer (haction : t.action = none) :
    a.stopped = true ∧ a.next blake3 t = a ∨ (a.next blake3 t).failedCommit.isSome ∨
      (a.next blake3 t).failedCommit = a.failedCommit ∧
        (a.next blake3 t).store.written = a.store.written := by
  refine next_of_ensures (P := fun a' => a'.failedCommit.isSome ∨
    a'.failedCommit = a.failedCommit ∧ a'.store.written = a.store.written) ?_
  unfold work
  rw [haction]
  simp only [ensures_bind, ensures_pure]
  refine (ensures_commitOnTimer t.gone _).mono (fun _ a' h => ?_) fun _ _ => False.elim
  exact h.imp_right fun h => ⟨h.1, h.2.written⟩

lemma next_of_answers {action : Action} {answer : Answer} (haction : t.action = some action)
    (hanswers : action.Answers) (h : a.answer blake3 t = .ok answer) :
    a.failedCommit = none ∧ a.store.written <+: (a.next blake3 t).store.written := by
  by_cases hwrite : action.IsWrite
  · obtain ⟨hnone, -, e, -, hadd⟩ := next_of_write haction hwrite h
    exact ⟨hnone, hadd ▸ List.prefix_append _ _⟩
  · obtain rfl : action = .flushStore := by
      match action, hanswers with
      | .flushStore, _ => rfl
      | .replica _ (.insertLocal ..), _ => exact absurd trivial hwrite
      | .replica _ (.delete ..), _ => exact absurd trivial hwrite
    obtain ⟨hnone, -, hsame, -⟩ := next_of_flush haction h
    exact ⟨hnone, hsame ▸ List.prefix_rfl⟩

/-- Any other action leaves a failed commit to be answered, and loses a write only with the first
commit it tries. -/
lemma next_of_other {action : Action} (haction : t.action = some action)
    (hother : ¬ action.Answers) :
    a.stopped = true ∧ a.next blake3 t = a ∨
      (a.store.under t.env).Follows (a.next blake3 t).store ∧
        (a.next blake3 t).failedCommit = a.failedCommit := by
  have hworks : MovesBy Works (work blake3 t : ActorM prims Answer) := by
    unfold work
    rw [haction]
    exact Works.bind (works_reclaimAbandonedSessions t.gone) fun _ =>
      works_onAction blake3 t.status hother
  rcases next_of_ensures (movesBy_iff.mp hworks (a.under t.env)) with h | h
  · exact .inl h
  · exact .inr ⟨h.path.follows, h.failed⟩

lemma ensures_closeReplicas (replicas : List NamespaceId) (a : Actor prims) :
    Ensures (closeReplicas replicas) a (fun _ _ => True) fun _ _ => False := by
  induction replicas generalizing a with
  | nil => trivial
  | cons ns rest ih =>
    unfold closeReplicas
    simp only [ensures_bind, ensures_onStore, Store.closeReplica]
    exact ih _

/-- An actor that shuts down answers nothing more. -/
lemma next_of_shutdown (haction : t.action = some .shutdown) :
    (a.next blake3 t).stopped = true := by
  have hclose : ∀ a' : Actor prims, Ensures (closeAll >>= fun _ => do
      set { (← get) with stopped := true }) a' (fun _ a'' => a''.stopped = true)
      fun _ a'' => a''.stopped = true := by
    intro a'
    simp only [closeAll, ensures_bind, ensures_get, ensures_set]
    exact (ensures_closeReplicas _ _).mono (fun _ _ _ => trivial) fun _ _ => False.elim
  have hstop : Ensures (work blake3 t) (a.under t.env) (fun _ a' => a'.stopped = true)
      fun _ a' => a'.stopped = true := by
    unfold work
    rw [haction]
    simp only [onAction, shutdown, ensures_bind, ensures_tryCatch, ensures_onStore, ensures_pure]
    refine (ensures_reclaimAbandonedSessions t.gone _).mono ?_ fun _ _ => False.elim
    rintro _ a' -
    refine (Store.ensures_flush a'.store).mono (fun _ s _ => ?_) fun _ s _ => ?_
    · simpa using hclose { a' with store := s }
    · simpa using hclose { a' with store := s }
  rcases next_of_ensures hstop with ⟨hstopped, hsame⟩ | h
  · rw [hsame, hstopped]
  · exact h

/-- **A commit that is not on disk is known not to be**, at whatever turn. -/
lemma tracked_next (h : a.store.Tracked) : (a.next blake3 t).store.Tracked := by
  rcases next_of_ensures (movesBy_iff.mp (storePath_work blake3 t) (a.under t.env)) with
    ⟨-, hsame⟩ | hpath
  · rwa [hsame]
  · exact hpath.follows.tracked h

/-- **A commit that is not on disk is known not to be**, in every run. -/
lemma tracked_after (turns : List Turn) (h : a.store.Tracked) :
    (a.after blake3 turns).store.Tracked := by
  induction turns generalizing a with
  | nil => exact h
  | cons t turns ih => exact ih (tracked_next h)

end Actor

/-! ## From a write to a flush -/

section Spared

variable (e : SignedEntry) (a : Actor prims) (t : Turn)

/-- No writer is answered an error in the turn: a local write or a flush is answered. -/
def Turn.IsQuiet : Prop :=
  ∀ action, t.action = some action → action.Answers → ∃ answer, a.answer blake3 t = .ok answer

/-- The turn does not lose a write to a commit only its own caller hears of: where an action that is
neither a local write nor a flush finds the write in the open transaction, it tries no commit or the
first one does not fail. -/
def Turn.Spares : Prop :=
  ∀ action, t.action = some action → ¬ action.Answers → action ≠ .shutdown →
    .put e ∈ a.store.transaction.writes →
      (a.next blake3 t).store.commits = 0 ∨ t.env.commitFails 0 = false

end Spared

/-- A list that ends in an element is in the first part of another one, or the element is in its
second part. -/
lemma prefix_or_mem {α : Type} {first : List α} {x : α} {left right : List α}
    (h : first ++ [x] <+: left ++ right) : first ++ [x] <+: left ∨ x ∈ right := by
  obtain ⟨rest, hrest⟩ := h
  rcases List.append_eq_append_iff.mp hrest with ⟨more, hmore, -⟩ | ⟨more, hmore, hright⟩
  · exact .inl ⟨more, hmore.symm⟩
  · rcases more.eq_nil_or_concat with rfl | ⟨init, last, rfl⟩
    · rw [List.append_nil] at hmore
      exact .inl (hmore ▸ List.prefix_rfl)
    · have hlast : x = last := by simpa using congrArg List.getLast? hmore
      exact .inr (by simp [hright, hlast])

namespace Actor

variable {blake3} {a : Actor prims} {t : Turn} {e : SignedEntry} {first : List Mutation}

/-- The writes up to one of them are all there, or their loss is still to be answered. -/
def Accounts (first : List Mutation) (a : Actor prims) : Prop :=
  a.stopped = true ∨ a.failedCommit.isSome ∨ first <+: a.store.written

/-- **A quiet turn that spares the last of the writes accounts for all of them.**

**Proof sketch.** The timer records its own failure. A write or a flush that is answered loses
nothing. Any other action loses at most what the open transaction holds; either the last of the
writes is not in it, and then all of them are committed, or it is, and then no commit fails before
it is committed. -/
lemma accounts_next (hquiet : t.IsQuiet blake3 a) (hspares : t.Spares blake3 e a)
    (h : Accounts (first ++ [.put e]) a) : Accounts (first ++ [.put e]) (a.next blake3 t) := by
  rcases h with hstopped | hrest
  · exact .inl (by rwa [next_of_stopped hstopped])
  by_cases hshutdown : t.action = some .shutdown
  · exact .inl (next_of_shutdown hshutdown)
  right
  cases haction : t.action with
  | none =>
    rcases next_of_timer haction with ⟨-, hsame⟩ | hfailed | ⟨hfailed, hwritten⟩
    · rwa [hsame]
    · exact .inl hfailed
    · rwa [hfailed, hwritten]
  | some action =>
    by_cases hanswers : action.Answers
    · obtain ⟨answer, hanswer⟩ := hquiet action haction hanswers
      obtain ⟨hnone, hwritten⟩ := next_of_answers haction hanswers hanswer
      have hfirst : first ++ [.put e] <+: a.store.written := by simpa [hnone] using hrest
      exact .inr (hfirst.trans hwritten)
    · rcases next_of_other haction hanswers with ⟨-, hsame⟩ | ⟨hfollows, hfailed⟩
      · rwa [hsame]
      · rw [hfailed]
        refine hrest.imp_right fun hfirst => ?_
        rcases prefix_or_mem hfirst with hcommitted | hmem
        · exact (hcommitted.trans hfollows.committed).trans (Store.committed_prefix_written _)
        · have hnext := hspares action haction hanswers (fun heq => hshutdown (heq ▸ haction)) hmem
          exact hfirst.trans (hfollows.kept hnext)

/-- **A quiet run that spares the last of the writes accounts for all of them.** -/
lemma accounts_after (turns : List Turn)
    (hquiet : Along blake3 (fun a t => t.IsQuiet blake3 a) a turns)
    (hspares : Along blake3 (fun a t => t.Spares blake3 e a) a turns)
    (h : Accounts (first ++ [.put e]) a) : Accounts (first ++ [.put e]) (a.after blake3 turns) := by
  induction turns generalizing a with
  | nil => exact h
  | cons t turns ih => exact ih hquiet.2 hspares.2 (accounts_next hquiet.1 hspares.1 h)

end Actor

/-- **A flush that is answered has every write on disk that was answered before it**, for every run
of the actor over any disk: a local write is answered; no local write and no flush is answered an
error after it; no other action loses the write to a commit of its own; then the writes up to that
one are on disk when a flush is answered.

**Proof sketch.** The write is the last one when it is answered, and no failed commit is open then.
By `Actor.accounts_after` the writes up to it are all there, or a failure is still to be answered,
when the flush starts; a flush that is answered finds no such failure and takes every write to disk.
-/
theorem flush_durable (actorId sweep : ℕ) (base : Tables prims) (env : Environment)
    (before : List Turn) (write : Turn) (action : Action) (answer : Answer)
    (haction : write.action = some action) (hwrite : action.IsWrite)
    (h : ((Actor.new actorId (.opened base env) sweep).after blake3 before).answer blake3 write =
      .ok answer) :
    let start := (Actor.new actorId (.opened base env) sweep).after blake3 before
    let a := start.next blake3 write
    ∃ e, action.Writes blake3 e ∧ a.store.written = start.store.written ++ [.put e] ∧
      ∀ (between : List Turn) (flush : Turn) (answer : Answer), flush.action = some .flushStore →
        a.Along blake3 (fun a t => t.IsQuiet blake3 a) between →
        a.Along blake3 (fun a t => t.Spares blake3 e a) between →
        (a.after blake3 between).answer blake3 flush = .ok answer →
        a.store.written <+: ((a.after blake3 between).next blake3 flush).store.db.synced := by
  intro start a
  obtain ⟨-, -, e, he, hadd⟩ := Actor.next_of_write haction hwrite h
  refine ⟨e, he, hadd, ?_⟩
  intro between flush answer' hflush hquiet hspares hanswer
  have htracked : a.store.Tracked :=
    Actor.tracked_next (Actor.tracked_after before fun _ => rfl)
  have haccounts : (a.after blake3 between).Accounts a.store.written := by
    have hlast : a.Accounts (start.store.written ++ [.put e]) :=
      .inr (.inr (hadd ▸ List.prefix_rfl))
    exact hadd ▸ Actor.accounts_after between hquiet hspares hlast
  obtain ⟨hnone, -, -, hdisk⟩ := Actor.next_of_flush hflush hanswer
  rw [hdisk (Actor.tracked_after between htracked)]
  rcases haccounts with hstopped | hfailed | hall
  · simp [Actor.answer, Actor.turn, hstopped] at hanswer
  · simp [hnone] at hfailed
  · exact hall

end MeePdn.PdnStore

/-! ## A run of two turns -/

namespace MeePdn.Testing

open PdnStore Fs

/-- A turn in which every session handle is held. -/
def turnIn (env : Environment) (action : Action) : Turn :=
  ⟨some action, env, fun _ => false, fun _ => .complete⟩

/-- An actor over an empty disk that was given an author and a replica, and opened the replica. -/
def opened : Actor transparent :=
  (Actor.new 0 (.opened .empty calm) 0).after hashing
    [turnIn calm (.importAuthor ⟨.replicate 32 1⟩),
      turnIn calm (.importNamespace (.write ⟨.replicate 32 5⟩)),
      turnIn calm (.replica (replica 5) (.open true))]

/-- A local write to it. -/
def note : Action := .replica (replica 5) (.insertLocal ⟨.replicate 32 1⟩ [1] ⟨.replicate 32 9⟩ 4)

/-- A read of it. -/
def readAll : Action := .replica (replica 5) (.getMany .all)

lemma isQuiet_readAll (env : Environment) (a : Actor transparent) :
    (turnIn env readAll).IsQuiet hashing a := by
  intro action haction hanswers
  cases haction
  exact hanswers.elim

/-- The write is on disk after a read whose commit does not fail. -/
theorem flush_durable_note :
    let a := opened.next hashing (turnIn calm note)
    let read := turnIn calm readAll
    let flush := turnIn calm .flushStore
    opened.answer hashing (turnIn calm note) = .ok .done ∧
      (a.next hashing read).answer hashing flush = .ok .done ∧
      ∃ e, note.Writes hashing e ∧ a.store.written = opened.store.written ++ [.put e] ∧
        a.store.written <+: ((a.next hashing read).next hashing flush).store.db.synced := by
  intro a read flush
  have hwrite : opened.answer hashing (turnIn calm note) = .ok .done := rfl
  have hflush : (a.next hashing read).answer hashing flush = .ok .done := rfl
  obtain ⟨e, he, hadd, hdurable⟩ :=
    flush_durable hashing 0 0 .empty calm _ (turnIn calm note) note .done rfl trivial hwrite
  refine ⟨hwrite, hflush, e, he, hadd, ?_⟩
  exact hdurable [read] flush .done rfl ⟨isQuiet_readAll calm a, trivial⟩
    ⟨fun _ _ _ _ _ => .inr rfl, trivial⟩ hflush

/-- **A read can lose a write that was answered, and the next flush is answered all the same**: the
read commits the open transaction, the commit fails, and only the reader hears of it. -/
theorem read_loses_write :
    let a := opened.next hashing (turnIn calm note)
    let read := turnIn full readAll
    let flush := turnIn calm .flushStore
    opened.answer hashing (turnIn calm note) = .ok .done ∧
      (∃ e, note.Writes hashing e ∧ a.store.written = opened.store.written ++ [.put e]) ∧
      a.Along hashing (fun a t => t.IsQuiet hashing a) [read] ∧
      (a.next hashing read).answer hashing flush = .ok .done ∧
      ((a.next hashing read).next hashing flush).store.db.synced = [] := by
  intro a read flush
  have hwrite : opened.answer hashing (turnIn calm note) = .ok .done := rfl
  have haction : (turnIn calm note).action = some note := rfl
  obtain ⟨-, -, hadded⟩ := Actor.next_of_write haction trivial hwrite
  exact ⟨hwrite, hadded, ⟨isQuiet_readAll full a, trivial⟩, rfl, rfl⟩

end MeePdn.Testing
