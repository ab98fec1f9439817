import MeePdn.PdnStore.Fs.Store

/-!
# What a method does to the writes

Whatever a method of the store does, what was committed stays committed. The writes of the open
transaction are lost only with a commit that fails, and that is the first commit the method tries.

## Main definitions

* `Store.written`, `Store.live` — every write the store shows, and the tables they leave.
* `Store.Follows` — what every method keeps, whatever its outcome.
* `Store.Reads` — a method that writes nothing: nothing is added, and a failed commit is the one way
  to lose anything.

## Main results

* `Store.ensures_tables`, `Store.ensures_modify`, `Store.ensures_snapshotOwned`,
  `Store.ensures_flush` — what the methods that end and begin transactions do to the writes.
-/

namespace MeePdn.PdnStore.Fs

open Effects

namespace Store

variable {prims : Primitives}

/-! ## The writes of a store -/

/-- Every write the store shows: those committed and those of the open transaction. -/
def written (s : Store prims) : List Mutation := s.db.committed ++ s.transaction.writes

/-- The tables as the open transaction sees them. -/
def live (s : Store prims) : Tables prims := s.db.base.replay s.written

/-- A commit that is not on disk is known not to be. -/
def Tracked (s : Store prims) : Prop := s.unsyncedSince = none → s.db.unsynced = []

/-- Whether the next commit fails. -/
def nextFails (s : Store prims) : Bool := s.env.commitFails s.commits

/-- What every method keeps, whatever its outcome. -/
structure Follows (s s' : Store prims) : Prop where
  base : s'.db.base = s.db.base
  env : s'.env = s.env
  /-- Counts only grow. -/
  counts : ∀ ns, s.writes ns ≤ s'.writes ns
  tracked : s.Tracked → s'.Tracked
  /-- What is committed stays committed. -/
  committed : s.db.committed <+: s'.db.committed
  commits : s.commits ≤ s'.commits
  /-- Without a commit that fails, no write is lost. -/
  kept : s'.commits = s.commits ∨ s.nextFails = false → s.written <+: s'.written
  /-- A first commit that does not fail commits every write. -/
  settled : s.commits < s'.commits → s.nextFails = false → s.written <+: s'.db.committed

lemma committed_prefix_written (s : Store prims) : s.db.committed <+: s.written :=
  List.prefix_append _ _

lemma Follows.refl (s : Store prims) : Follows s s :=
  ⟨rfl, rfl, fun _ => le_rfl, id, List.prefix_rfl, le_rfl, fun _ => List.prefix_rfl,
    fun h => absurd h (lt_irrefl _)⟩

/-- One method after the other.

**Proof sketch.** If the first one tries a commit, and it does not fail, every write is committed
before the second one starts. Otherwise the second one tries the first commit, if any. -/
lemma Follows.trans {s s' s'' : Store prims} (h : Follows s s') (h' : Follows s' s'') :
    Follows s s'' where
  base := h'.base.trans h.base
  env := h'.env.trans h.env
  counts ns := (h.counts ns).trans (h'.counts ns)
  tracked := h'.tracked ∘ h.tracked
  committed := h.committed.trans h'.committed
  commits := h.commits.trans h'.commits
  kept := by
    have hsame : s'.commits = s.commits → s'.nextFails = s.nextFails := by
      intro heq
      simp only [nextFails, h.env, heq]
    rintro (heq | hnext)
    · have h1 := h.commits
      have h2 := h'.commits
      exact (h.kept (.inl (by omega))).trans (h'.kept (.inl (by omega)))
    · rcases h.commits.eq_or_lt with heq | hlt
      · exact (h.kept (.inr hnext)).trans (h'.kept (.inr ((hsame heq.symm).trans hnext)))
      · have hall := h.settled hlt hnext
        exact (hall.trans h'.committed).trans s''.committed_prefix_written
  settled := by
    intro hlt hnext
    rcases h.commits.eq_or_lt with heq | hfirst
    · have hsame : s'.nextFails = s.nextFails := by simp only [nextFails, h.env, heq]
      exact (h.kept (.inr hnext)).trans (h'.settled (heq ▸ hlt) (hsame.trans hnext))
    · exact (h.settled hfirst hnext).trans h'.committed

/-- A method that writes nothing: nothing is added to the writes. -/
structure Reads (s s' : Store prims) : Prop where
  follows : Follows s s'
  written : s'.written <+: s.written

lemma Reads.refl (s : Store prims) : Reads s s := ⟨.refl s, List.prefix_rfl⟩

lemma Reads.trans {s s' s'' : Store prims} (h : Reads s s') (h' : Reads s' s'') : Reads s s'' :=
  ⟨h.follows.trans h'.follows, h'.written.trans h.written⟩

/-- A method that writes nothing and loses nothing. -/
structure Keeps (s s' : Store prims) : Prop where
  follows : Follows s s'
  written : s'.written = s.written

lemma Keeps.refl (s : Store prims) : Keeps s s := ⟨.refl s, rfl⟩

lemma Keeps.trans {s s' s'' : Store prims} (h : Keeps s s') (h' : Keeps s' s'') : Keeps s s'' :=
  ⟨h.follows.trans h'.follows, h'.written.trans h.written⟩

lemma Keeps.reads {s s' : Store prims} (h : Keeps s s') : Reads s s' :=
  ⟨h.follows, h.written ▸ List.prefix_rfl⟩

lemma Keeps.live {s s' : Store prims} (h : Keeps s s') : s'.live = s.live := by
  unfold Store.live
  rw [h.follows.base, h.written]

lemma Follows.of_eq {s s' : Store prims} (hdb : s'.db = s.db) (henv : s'.env = s.env)
    (hcounts : ∀ ns, s.writes ns ≤ s'.writes ns) (hcommits : s'.commits = s.commits)
    (hunsynced : s'.unsyncedSince = none → s.unsyncedSince = none)
    (hwritten : s.written <+: s'.written) : Follows s s' := by
  refine ⟨by rw [hdb], henv, hcounts, ?_, by rw [hdb], hcommits.ge, fun _ => hwritten, ?_⟩
  · intro h hnone
    rw [hdb]
    exact h (hunsynced hnone)
  · intro hlt
    omega

lemma Keeps.of_eq {s s' : Store prims} (hdb : s'.db = s.db) (henv : s'.env = s.env)
    (hcounts : ∀ ns, s.writes ns ≤ s'.writes ns) (hcommits : s'.commits = s.commits)
    (hunsynced : s'.unsyncedSince = none → s.unsyncedSince = none)
    (hwrites : s'.transaction.writes = s.transaction.writes) : Keeps s s' := by
  have hwritten : s'.written = s.written := by simp only [Store.written, hdb, hwrites]
  exact ⟨.of_eq hdb henv hcounts hcommits hunsynced (hwritten ▸ List.prefix_rfl), hwritten⟩

/-! ## The end of a transaction -/

/-- A transaction that is finished: its writes are committed, or there are none. -/
structure Finished (s : Store prims) (w : TransactionAndTables) (s' : Store prims) : Prop where
  base : s'.db.base = s.db.base
  env : s'.env = s.env
  counts : s'.writes = s.writes
  transaction : s'.transaction = s.transaction
  tracked : s.Tracked → s'.Tracked
  committed : s'.db.committed = s.db.committed ++ w.writes
  commits : s'.commits = s.commits ∨ s.commits < s'.commits ∧ s.nextFails = false

/-- A transaction whose commit failed. -/
structure Failed (s s' : Store prims) : Prop where
  db : s'.db = s.db
  env : s'.env = s.env
  counts : s'.writes = s.writes
  transaction : s'.transaction = s.transaction
  unsynced : s'.unsyncedSince = s.unsyncedSince
  commits : s.commits < s'.commits
  next : s.nextFails = true

lemma ensures_elapsed (since : ℕ) (s : Store prims) :
    Ensures (elapsed since) s (fun _ s' => s' = { s with readings := s.readings + 1 })
      fun _ _ => False := by
  simp [elapsed, now]

lemma ensures_isSynced (synced : Bool) (began : ℕ) (s : Store prims) :
    Ensures (isSynced synced began) s (fun _ s' => ∃ n, s' = { s with readings := n })
      fun _ _ => False := by
  unfold isSynced
  rw [ensures_ite]
  refine ⟨fun _ => ⟨s.readings, rfl⟩, fun _ => ?_⟩
  rw [ensures_bind]
  exact (ensures_elapsed began s).mono (fun _ s' h => ⟨_, h⟩) fun _ _ => False.elim

/-- **A transaction is finished or lost**: its writes are committed, or the commit fails. -/
lemma ensures_finishWrite (w : TransactionAndTables) (synced : Bool) (s : Store prims) :
    Ensures (finishWrite w synced) s (fun _ => Finished s w) fun _ => Failed s := by
  unfold finishWrite
  rw [ensures_ite]
  constructor
  · intro hdirty
    rw [ensures_bind, ensures_get, ensures_bind]
    refine (ensures_isSynced synced _ s).mono ?_ fun _ _ => False.elim
    rintro synced _ ⟨n, rfl⟩
    rw [ensures_bind]
    unfold commit
    rw [ensures_bind, ensures_get, ensures_ite]
    constructor
    · intro hfails
      exact ⟨rfl, rfl, rfl, rfl, rfl, Nat.lt_succ_self _, hfails⟩
    · intro hfails
      simp only [ensures_set, ensures_bind, ensures_get]
      refine ⟨by simp, rfl, rfl, rfl, ?_, by simp, .inr ⟨Nat.lt_succ_self _, ?_⟩⟩
      · -- a commit without a sync is remembered
        intro _ hnone
        cases synced with
        | true => simp
        | false => simp at hnone
      · exact Bool.eq_false_of_not_eq_true hfails
  · intro hdirty
    have hclean := w.clean (by simpa using hdirty)
    exact ⟨rfl, rfl, rfl, rfl, id, by simp [hclean], .inl rfl⟩

/-- The open transaction finished keeps every write. -/
lemma Finished.keeps {s s' : Store prims} {w : TransactionAndTables}
    (hw : s.transaction = .write w) (h : Finished { s with transaction := .none } w s') :
    Keeps s s' := by
  have hcommitted : s'.db.committed = s.written := by
    rw [h.committed, written, hw]
    rfl
  have hwritten : s'.written = s.written := by
    rw [written, h.transaction, hcommitted]
    exact List.append_nil _
  refine ⟨⟨h.base, h.env, fun ns => (congrFun h.counts ns).ge, h.tracked, ?_, ?_, ?_, ?_⟩, hwritten⟩
  · rw [hcommitted]
    exact s.committed_prefix_written
  · rcases h.commits with heq | ⟨hlt, -⟩
    · exact heq.ge
    · exact hlt.le
  · intro _
    rw [hwritten]
  · intro _ _
    rw [hcommitted]

/-- The open transaction lost keeps what is committed. -/
lemma Failed.reads {s s' : Store prims} (h : Failed { s with transaction := .none } s') :
    Reads s s' := by
  have hwritten : s'.written = s.db.committed := by
    rw [written, h.transaction, h.db]
    exact List.append_nil _
  have hnext : s.nextFails = true := h.next
  refine ⟨⟨by rw [h.db], h.env, fun ns => (congrFun h.counts ns).ge, ?_, by rw [h.db], h.commits.le,
    ?_, ?_⟩, hwritten ▸ s.committed_prefix_written⟩
  · intro htracked hnone
    rw [h.db]
    exact htracked (h.unsynced ▸ hnone)
  · grind [h.commits]
  · intro _ hno
    exact absurd hno (by simp [hnext])

/-! ## The methods on transactions -/

lemma ensures_beginTransaction (s : Store prims) :
    Ensures beginTransaction s (fun _ s' => s' = { s with begins := s.begins + 1 })
      fun _ s' => s' = { s with begins := s.begins + 1 } := by
  simp [beginTransaction, ensures_ite]

section NoTransaction

variable {s : Store prims} (hnone : s.transaction.writes = [])

include hnone

lemma keeps_dropped (begins readings : ℕ) :
    Keeps s { s with transaction := .none, begins := begins, readings := readings } :=
  .of_eq rfl rfl (fun _ => le_rfl) rfl id hnone.symm

lemma ensures_readTables :
    Ensures readTables { s with transaction := .none }
      (fun t s' => t = s.live ∧ Keeps s s' ∧ s'.transaction = .none) fun _ => Reads s := by
  unfold readTables
  rw [ensures_bind]
  refine (ensures_beginTransaction _).mono ?_ ?_
  · grind [ensures_get, ensures_bind, ensures_pure, Database.tables, live, written, keeps_dropped]
  · rintro _ _ rfl
    exact (keeps_dropped hnone _ _).reads

lemma ensures_newTransaction :
    Ensures newTransaction { s with transaction := .none }
      (fun w s' => s'.transaction = .none ∧ Keeps s { s' with transaction := .write w })
      fun _ => Reads s := by
  unfold newTransaction
  rw [ensures_bind]
  refine (ensures_beginTransaction _).mono ?_ ?_
  · rintro _ _ rfl
    simp only [now, ensures_bind, ensures_get, ensures_set, ensures_pure]
    exact ⟨trivial, .of_eq rfl rfl (fun _ => le_rfl) rfl id hnone.symm⟩
  · rintro _ _ rfl
    exact (keeps_dropped hnone _ _).reads

end NoTransaction

/-- What follows the end of the open transaction starts with every write committed, or does not
start. -/
lemma ensures_finishWrite_bind {α : Type} {s : Store prims} {w : TransactionAndTables}
    (hw : s.transaction = .write w) (synced : Bool) {next : StoreM prims α} {readings : ℕ}
    {ok : α → Store prims → Prop}
    (hnext : ∀ s', s'.transaction.writes = [] → Keeps s s' →
      Ensures next { s' with transaction := .none } ok fun _ => Reads s) :
    Ensures (finishWrite w synced >>= fun _ => next)
      { s with transaction := .none, readings := readings } ok fun _ => Reads s := by
  have hread : Keeps s { s with readings := readings } :=
    .of_eq rfl rfl (fun _ => le_rfl) rfl id rfl
  rw [ensures_bind]
  refine (ensures_finishWrite w synced _).mono ?_ ?_
  · intro _ s' hs'
    have hnone : s'.transaction = .none := hs'.transaction
    have hself : { s' with transaction := .none } = s' := by rw [← hnone]
    rw [← hself]
    exact hnext s' (by rw [hnone]; rfl)
      (hread.trans (hs'.keeps (s := { s with readings := readings }) hw))
  · intro _ s' hs'
    exact hread.reads.trans (hs'.reads (s := { s with readings := readings }))

/-- **A snapshot of its own shows every write**; failing to commit them, there is none. -/
lemma ensures_snapshotOwned (s : Store prims) :
    Ensures snapshotOwned s
      (fun t s' => t = s.live ∧ Keeps s s' ∧ s'.transaction = .none) fun _ => Reads s := by
  unfold snapshotOwned takeTransaction
  rw [ensures_bind, ensures_modifyGet]
  cases hw : s.transaction with
  | none => exact ensures_readTables (by rw [hw]; rfl)
  | read tables => exact ensures_readTables (by rw [hw]; rfl)
  | write w =>
    apply ensures_finishWrite_bind hw
    intro s' hnone hkeeps
    refine (ensures_readTables hnone).mono ?_ fun _ _ h => hkeeps.reads.trans h
    rintro t s'' ⟨rfl, hs'', hnone'⟩
    exact ⟨hkeeps.live, hkeeps.trans hs'', hnone'⟩

/-- A snapshot keeps every write; failing to commit them, there is none. -/
lemma ensures_snapshot (s : Store prims) :
    Ensures snapshot s (fun _ => Keeps s) fun _ => Reads s := by
  have hheld : ∀ {s' : Store prims} {t : Tables prims}, s'.transaction = .none →
      Keeps s' { s' with transaction := .read t } := by
    intro s' t h
    exact .of_eq rfl rfl (fun _ => le_rfl) rfl id (by rw [h]; rfl)
  unfold snapshot takeTransaction
  simp only [ensures_bind, ensures_modifyGet]
  cases hw : s.transaction with
  | none =>
    refine (ensures_readTables (by rw [hw]; rfl)).mono ?_ fun _ _ => id
    rintro t s' ⟨-, hs', hnone⟩
    simp only [ensures_get, ensures_set, ensures_pure]
    exact hs'.trans (hheld hnone)
  | read tables =>
    simp only [snapshotOf, ensures_get, ensures_set, ensures_pure]
    exact .of_eq rfl rfl (fun _ => le_rfl) rfl id (by rw [hw])
  | write w =>
    apply ensures_finishWrite_bind hw
    intro s' hnone hkeeps
    refine (ensures_readTables hnone).mono ?_ fun _ _ h => hkeeps.reads.trans h
    rintro t s'' ⟨-, hs'', hnone'⟩
    simp only [ensures_get, ensures_set, ensures_pure]
    exact (hkeeps.trans hs'').trans (hheld hnone')

/-- The write transaction to work in holds the writes of the open one, or they are committed. -/
lemma ensures_currentWriteTransaction (s : Store prims) :
    Ensures currentWriteTransaction s
      (fun w s' => s'.transaction = .none ∧ Keeps s { s' with transaction := .write w })
      fun _ => Reads s := by
  unfold currentWriteTransaction takeTransaction
  rw [ensures_bind, ensures_modifyGet]
  cases hw : s.transaction with
  | none => exact ensures_newTransaction (by rw [hw]; rfl)
  | read tables => exact ensures_newTransaction (by rw [hw]; rfl)
  | write w =>
    simp only
    rw [ensures_bind]
    refine (ensures_elapsed w.since _).mono ?_ fun _ _ => False.elim
    rintro age _ rfl
    rw [ensures_ite]
    refine ⟨fun _ => ⟨rfl, .of_eq rfl rfl (fun _ => le_rfl) rfl id (by rw [hw])⟩, fun _ => ?_⟩
    apply ensures_finishWrite_bind hw
    intro s' hnone hkeeps
    refine (ensures_newTransaction hnone).mono ?_ fun _ _ h => hkeeps.reads.trans h
    rintro w' s'' ⟨hnone', hs''⟩
    exact ⟨hnone', hkeeps.trans hs''⟩

/-- **The tables show every write.** -/
lemma ensures_tables (s : Store prims) :
    Ensures tables s (fun t s' => t = s.live ∧ Keeps s s') fun _ => Reads s := by
  unfold tables
  rw [ensures_bind]
  refine (ensures_currentWriteTransaction s).mono ?_ fun _ _ => id
  rintro w s' ⟨-, hs'⟩
  simp only [ensures_bind, ensures_get, ensures_set, ensures_pure]
  exact ⟨hs'.live, hs'⟩

/-- **A modification adds its writes to those the store shows**, and an error adds nothing. -/
lemma ensures_modify {α : Type} (f : Tables prims → Except String (α × List Mutation))
    (s : Store prims) :
    Ensures (modify f) s
      (fun a s' => ∃ writes, f s.live = .ok (a, writes) ∧ Follows s s' ∧
        s'.written = s.written ++ writes)
      fun _ => Reads s := by
  unfold modify
  rw [ensures_bind]
  refine (ensures_currentWriteTransaction s).mono ?_ fun _ _ => id
  rintro w s' ⟨-, hs'⟩
  have hadd : ∀ writes, { s' with transaction := .write (w.write writes) }.written =
      s.written ++ writes := by
    intro writes
    rw [← hs'.written]
    exact (List.append_assoc _ _ _).symm
  have hlive : s'.db.tables w.writes = s.live := hs'.live
  have hfollows : ∀ writes, Follows s { s' with transaction := .write (w.write writes) } := by
    intro writes
    refine hs'.follows.trans (.of_eq rfl rfl (fun _ => le_rfl) rfl id ?_)
    rw [hs'.written, hadd]
    exact List.prefix_append _ _
  rw [ensures_bind, ensures_get, hlive]
  cases hf : f s.live with
  | ok result =>
    simp only [ensures_bind, ensures_set, ensures_pure]
    exact ⟨result.2, rfl, hfollows _, hadd _⟩
  | error err =>
    simp only [ensures_bind, ensures_set, ensures_throw]
    refine ⟨hfollows _, ?_⟩
    rw [hadd, List.append_nil]

/-- The commits off the disk are taken to it. A failure loses nothing. -/
lemma ensures_syncCommits {s : Store prims} (hnone : s.transaction.writes = []) :
    Ensures syncCommits { s with transaction := .none }
      (fun _ s' => Keeps s s' ∧ (s.Tracked → s'.db.synced = s'.written)) fun _ => Keeps s := by
  have hwritten : s.written = s.db.committed := by rw [written, hnone, List.append_nil]
  unfold syncCommits
  rw [ensures_bind, ensures_get, ensures_ite]
  constructor
  · intro hsome
    rw [ensures_bind]
    refine (ensures_beginTransaction _).mono ?_ ?_
    · rintro _ _ rfl
      unfold commit
      simp only [ensures_bind, ensures_get, ensures_ite, ensures_set, ensures_throw]
      constructor
      · intro hfails
        have hnext : s.nextFails = true := hfails
        refine ⟨⟨rfl, rfl, fun _ => le_rfl, id, List.prefix_rfl, Nat.le_succ _, ?_, ?_⟩, ?_⟩
        · grind
        · intro _ hno
          exact absurd hno (by simp [hnext])
        · exact (List.append_nil _).trans hwritten.symm
      · intro _
        have hall : (s.db.commit [] true).committed = s.written := by simp [hwritten]
        refine ⟨⟨⟨by simp, rfl, fun _ => le_rfl, fun _ _ => rfl, ?_, Nat.le_succ _, ?_, ?_⟩, ?_⟩,
          ?_⟩
        · simp
        · intro _
          rw [← hall]
          exact List.prefix_append _ _
        · intro _ _
          rw [← hall]
        · rw [← hall]
          exact List.append_nil _
        · intro _
          simp [written, CurrentTransaction.writes]
    · rintro _ _ rfl
      exact keeps_dropped hnone _ _
  · intro hsome
    refine ⟨keeps_dropped hnone _ _, fun htracked => ?_⟩
    have hsynced : s.db.unsynced = [] := htracked (by simpa using hsome)
    simp [written, CurrentTransaction.writes, Database.committed, hsynced]

/-- **A flush takes every write to disk**; failing, it keeps what is committed. -/
lemma ensures_flush (s : Store prims) :
    Ensures flush s (fun _ s' => Keeps s s' ∧ (s.Tracked → s'.db.synced = s'.written))
      fun _ => Reads s := by
  have hcommit : Ensures commitAndSync s
      (fun _ s' => Keeps s s' ∧ (s.Tracked → s'.db.synced = s'.written)) fun _ => Reads s := by
    unfold commitAndSync takeTransaction
    rw [ensures_bind, ensures_modifyGet]
    cases hw : s.transaction with
    | none =>
      exact (ensures_syncCommits (by rw [hw]; rfl)).mono (fun _ _ => id) fun _ _ => Keeps.reads
    | read tables =>
      exact (ensures_syncCommits (by rw [hw]; rfl)).mono (fun _ _ => id) fun _ _ => Keeps.reads
    | write w =>
      apply ensures_finishWrite_bind hw
      intro s' hnone hkeeps
      refine (ensures_syncCommits hnone).mono ?_ fun _ _ h => (hkeeps.trans h).reads
      rintro _ s'' ⟨hs'', hdisk⟩
      exact ⟨hkeeps.trans hs'', hdisk ∘ hkeeps.follows.tracked⟩
  unfold flush
  rw [ensures_tryCatch]
  refine hcommit.mono (fun _ _ => id) fun err s' hs' => ?_
  simp only [postpone, now, ensures_bind, ensures_get, ensures_ite, ensures_set, ensures_pure,
    ensures_throw]
  refine ⟨fun hsome => hs'.trans (Keeps.reads ?_), fun _ => hs'⟩
  exact .of_eq rfl rfl (fun _ => le_rfl) rfl (by simp) rfl

end Store

end MeePdn.PdnStore.Fs
