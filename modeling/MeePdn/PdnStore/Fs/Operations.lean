import MeePdn.PdnStore.Fs.Follows

/-!
# Runs of a store

The methods of the store one after the other, in whichever environment each of them meets.

## Main definitions

* `Operation` — a method of the store, with its arguments.
* `Event`, `Store.after` — what happens to a store, and the store after a list of events.
* `Operation.Adds` — what a method may add to the writes.
* `Store.Path` — what methods of the store, one after the other, lead to.

## Main results

* `StoreInstance.ensures_put` — an entry is put where it is newer than the one held, and counted.
* `Operation.ensures_run` — a method adds at most one write, a put being of a newer entry and a
  removal being a removal that was asked for and answered.
* `Store.live_run` — where no commit fails, a method applies one write to the tables or none.
* `Store.guarded_after` — in every run, every put is of a record newer than the one held.
-/

namespace MeePdn.PdnStore.Fs

open Effects

variable {prims : Primitives}

/-! ## Puts and removals -/

namespace Store

lemma ensures_wrote (ns : NamespaceId) (s : Store prims) :
    Ensures (wrote ns) s (fun _ s' => Keeps s s' ∧ s.writes ns < s'.writes ns)
      fun _ _ => False := by
  simp only [wrote, ensures_bind, ensures_get, ensures_set]
  refine ⟨.of_eq rfl rfl (fun n => ?_) rfl id rfl, by simp⟩
  simp only
  split_ifs <;> omega

/-- **A removal adds itself to the writes**, and an error adds nothing. -/
lemma ensures_removeReplica (ns : NamespaceId) (s : Store prims) :
    Ensures (removeReplica ns) s
      (fun _ s' => Follows s s' ∧ s'.written = s.written ++ [.removed ns]) fun _ => Reads s := by
  unfold removeReplica
  rw [ensures_bind, ensures_get, ensures_ite]
  refine ⟨fun _ => .refl s, fun _ => ?_⟩
  rw [ensures_bind]
  refine (ensures_modify _ s).mono ?_ fun _ _ => id
  rintro _ s' ⟨writes, hf, hs', hadd⟩
  cases hf
  refine (ensures_wrote ns s').mono ?_ fun _ _ => False.elim
  rintro _ s'' ⟨hs'', -⟩
  exact ⟨hs'.trans hs''.follows, hs''.written.trans hadd⟩

end Store

namespace StoreInstance

variable (ns : NamespaceId)

lemma ensures_ensureOwnNamespace (id : RecordIdentifier) (s : Store prims) :
    Ensures (MonadExcept.ofExcept (PdnStore.StoreInstance.ensureOwnNamespace ns id) :
      StoreM prims Unit) s (fun _ s' => id.ns = ns ∧ s' = s) fun _ s' => s' = s := by
  unfold PdnStore.StoreInstance.ensureOwnNamespace
  split_ifs with h
  · exact ⟨h, rfl⟩
  · exact rfl

lemma ensures_entryGet (id : RecordIdentifier) (s : Store prims) :
    Ensures (entryGet ns id) s
      (fun previous s' => id.ns = ns ∧ previous = s.live.records.get id ∧ s.Keeps s')
      fun _ => s.Reads := by
  unfold entryGet Store.getExact
  simp only [ensures_bind, ensures_pure]
  refine (ensures_ensureOwnNamespace ns id s).mono ?_ ?_
  · rintro _ _ ⟨hns, rfl⟩
    refine (Store.ensures_tables _).mono ?_ fun _ _ h => h
    rintro t s' ⟨rfl, hs'⟩
    exact ⟨hns, rfl, hs'⟩
  · rintro _ _ rfl
    exact .refl _

/-- An entry of the namespace is added to the writes and counted. -/
lemma ensures_entryPut (e : SignedEntry) (s : Store prims) :
    Ensures (entryPut ns e) s
      (fun _ s' => e.ns = ns ∧ s.Follows s' ∧ s'.written = s.written ++ [.put e] ∧
        s.writes e.ns < s'.writes e.ns) fun _ => s.Reads := by
  unfold entryPut
  rw [ensures_bind]
  refine (ensures_ensureOwnNamespace ns e.id s).mono ?_ ?_
  · rintro _ _ ⟨hns, rfl⟩
    rw [ensures_bind]
    refine (Store.ensures_wrote e.ns _).mono ?_ fun _ _ => False.elim
    rintro _ s' ⟨hs', hcount⟩
    refine (Store.ensures_modify _ s').mono ?_ fun _ _ h => hs'.reads.trans h
    rintro _ s'' ⟨writes, hf, hs'', hadd⟩
    cases hf
    exact ⟨hns, hs'.follows.trans hs'', by rw [hadd, hs'.written],
      hcount.trans_le (hs''.counts e.ns)⟩
  · rintro _ _ rfl
    exact .refl _

/-- **An entry is put where it is newer than the one held**, and counted; otherwise nothing is
written. -/
lemma ensures_put (e : SignedEntry) (s : Store prims) :
    Ensures (put ns e) s
      (fun outcome s' => s.Follows s' ∧
        (outcome = .notInserted ∧ s'.written = s.written ∨
          (∃ n, outcome = .inserted n) ∧ e.ns = ns ∧ s'.written = s.written ++ [.put e] ∧
            s.writes e.ns < s'.writes e.ns ∧
            ∀ old, s.live.records.get e.id = some old → old.stamp < e.stamp))
      fun _ => s.Reads := by
  unfold put
  rw [ensures_bind]
  refine (ensures_entryGet ns e.id s).mono ?_ fun _ _ => id
  rintro _ s' ⟨-, rfl, hs'⟩
  rw [ensures_ite]
  refine ⟨fun _ => ⟨hs'.follows, .inl ⟨rfl, hs'.written⟩⟩, fun hnewer => ?_⟩
  rw [ensures_bind]
  refine (ensures_entryPut ns e s').mono ?_ fun _ _ h => hs'.reads.trans h
  rintro _ s'' ⟨hns, hs'', hadd, hcount⟩
  refine ⟨hs'.follows.trans hs'', .inr ⟨⟨_, rfl⟩, hns, by rw [hadd, hs'.written],
    (hs'.follows.counts e.ns).trans_lt hcount, ?_⟩⟩
  intro old hold
  simpa [hold] using hnewer

/-- **A put that is answered is the put of the engine on the live records.** -/
lemma put_refines (blake3 : List UInt8 → Bytes 32) (snapshot : Option Records) (e : SignedEntry)
    (s : Store prims) :
    Ensures (put ns e) s
      (fun outcome s' => (PdnStore.StoreInstance.store blake3 ns snapshot).put
        (SignedEntry.rangeEntry blake3) s.live.records e = .ok (outcome, s'.live.records))
      fun _ _ => True := by
  unfold put
  rw [ensures_bind]
  refine (ensures_entryGet ns e.id s).mono ?_ fun _ _ _ => trivial
  rintro _ s' ⟨hns, rfl, hs'⟩
  have hown : PdnStore.StoreInstance.ensureOwnNamespace ns e.id = .ok () := if_pos hns
  have hlive : s'.live = s.live := by rw [Store.live, Store.live, hs'.follows.base, hs'.written]
  rw [ensures_ite]
  refine ⟨fun holder => ?_, fun hnewer => ?_⟩
  · rw [ensures_pure, hlive]
    simp only [Ranger.Store.put, PdnStore.StoreInstance.store, SignedEntry.rangeEntry, hown]
    exact if_pos holder
  · rw [ensures_bind]
    refine (ensures_entryPut ns e s').mono ?_ fun _ _ _ => trivial
    rintro _ s'' ⟨-, hs'', hadd, -⟩
    have hput : s''.live.records = s.live.records.insert e := by
      rw [Store.live, hs''.base, hadd, Tables.replay_append, ← Store.live, hlive]
      rfl
    rw [ensures_pure, hput]
    simp only [Ranger.Store.put, PdnStore.StoreInstance.store, SignedEntry.rangeEntry, hown]
    exact if_neg hnewer

end StoreInstance

/-! ## Methods that write nothing -/

namespace Store

variable {α β : Type}

lemma Reads.bind {m : StoreM prims α} {f : α → StoreM prims β} (hm : MovesBy Reads m)
    (hf : ∀ a, MovesBy Reads (f a)) : MovesBy Reads (m >>= f) :=
  MovesBy.bind (R := Reads) (fun _ _ _ => Reads.trans) hm hf

lemma Reads.pure (a : α) : MovesBy Reads (Pure.pure a : StoreM prims α) := Reads.refl

lemma Reads.throw (err : String) : MovesBy Reads (throw err : StoreM prims α) := Reads.refl

lemma Reads.of_ensures {m : StoreM prims α} {ok : Store prims → α → Store prims → Prop}
    (h : ∀ s, Ensures m s (ok s) fun _ => Reads s) (hok : ∀ s a s', ok s a s' → Keeps s s') :
    MovesBy Reads m :=
  movesBy_iff.mpr fun s => (h s).mono (fun a s' h => (hok s a s' h).reads) fun _ _ => id

lemma Reads.discard {m : StoreM prims α} (h : MovesBy Reads m) : MovesBy Reads (do let _ ← m) :=
  Reads.bind h fun _ => Reads.pure _

lemma reads_tables : MovesBy Reads (tables : StoreM prims _) :=
  .of_ensures ensures_tables fun _ _ _ h => h.2

lemma reads_snapshot : MovesBy Reads (snapshot : StoreM prims _) :=
  .of_ensures ensures_snapshot fun _ _ _ h => h

lemma reads_snapshotOwned : MovesBy Reads (snapshotOwned : StoreM prims _) :=
  .of_ensures ensures_snapshotOwned fun _ _ _ h => h.2.1

lemma reads_flush : MovesBy Reads (flush : StoreM prims _) :=
  .of_ensures ensures_flush fun _ _ _ h => h.1

lemma reads_now : MovesBy Reads (now : StoreM prims _) := by
  intro s
  exact Keeps.reads (.of_eq rfl rfl (fun _ => le_rfl) rfl id rfl)

lemma reads_loadReplicaInfo (ns : NamespaceId) :
    MovesBy Reads (loadReplicaInfo ns : StoreM prims _) := by
  apply Reads.bind reads_tables
  intro t
  cases t.namespaces.get ns with
  | none => exact Reads.throw _
  | some capability =>
    intro s
    exact Keeps.reads (.of_eq rfl rfl (fun _ => le_rfl) rfl id rfl)

lemma reads_closeReplica (ns : NamespaceId) :
    MovesBy Reads (closeReplica ns : StoreM prims _) := by
  intro s
  exact Keeps.reads (.of_eq rfl rfl (fun _ => le_rfl) rfl id rfl)

lemma reads_listNamespaces : MovesBy Reads (listNamespaces : StoreM prims _) :=
  Reads.bind reads_snapshot fun _ => Reads.pure _

lemma reads_getAuthor (author : AuthorId) : MovesBy Reads (getAuthor author : StoreM prims _) :=
  Reads.bind reads_tables fun _ => Reads.pure _

lemma reads_writesOf (ns : NamespaceId) : MovesBy Reads (writesOf ns : StoreM prims _) :=
  Reads.refl

lemma reads_getMany (ns : NamespaceId) (query : Query) :
    MovesBy Reads (getMany ns query : StoreM prims _) :=
  Reads.bind reads_snapshotOwned fun _ => Reads.pure _

lemma reads_contentHashes : MovesBy Reads (contentHashes : StoreM prims _) :=
  Reads.bind reads_snapshotOwned fun _ => Reads.pure _

lemma reads_hasNewsForUs (ns : NamespaceId) (heads : AuthorHeads) :
    MovesBy Reads (hasNewsForUs ns heads : StoreM prims _) :=
  Reads.bind (Reads.bind reads_tables fun _ => Reads.pure _) fun _ => Reads.pure _

lemma reads_getSyncPeers (ns : NamespaceId) : MovesBy Reads (getSyncPeers ns : StoreM prims _) :=
  Reads.bind reads_tables fun _ => Reads.pure _

end Store

/-! ## Operations -/

/-- A method of the store, with its arguments. -/
inductive Operation where
  | loadReplicaInfo (ns : NamespaceId)
  | closeReplica (ns : NamespaceId)
  | listNamespaces
  | getAuthor (author : AuthorId)
  | importAuthor (author : Author)
  | importNamespace (capability : Capability)
  | writesOf (ns : NamespaceId)
  | removeReplica (ns : NamespaceId)
  | getMany (ns : NamespaceId) (query : Query)
  | contentHashes
  | hasNewsForUs (ns : NamespaceId) (heads : AuthorHeads)
  | registerUsefulPeer (ns : NamespaceId) (peer : PeerIdBytes)
  | getSyncPeers (ns : NamespaceId)
  | put (ns : NamespaceId) (e : SignedEntry)
  | snapshotOwned
  | flush
  /-- The clock is read, and nothing else is done. -/
  | now

/-- What an operation does to the store. -/
def Operation.run : Operation → StoreM prims Unit
  | .loadReplicaInfo ns => do let _ ← Store.loadReplicaInfo ns
  | .closeReplica ns => Store.closeReplica ns
  | .listNamespaces => do let _ ← Store.listNamespaces
  | .getAuthor author => do let _ ← Store.getAuthor author
  | .importAuthor author => Store.importAuthor author
  | .importNamespace capability => do let _ ← Store.importNamespace capability
  | .writesOf ns => do let _ ← Store.writesOf ns
  | .removeReplica ns => Store.removeReplica ns
  | .getMany ns query => do let _ ← Store.getMany ns query
  | .contentHashes => do let _ ← Store.contentHashes
  | .hasNewsForUs ns heads => do let _ ← Store.hasNewsForUs ns heads
  | .registerUsefulPeer ns peer => Store.registerUsefulPeer ns peer
  | .getSyncPeers ns => do let _ ← Store.getSyncPeers ns
  | .put ns e => do let _ ← StoreInstance.put ns e
  | .snapshotOwned => do let _ ← Store.snapshotOwned
  | .flush => Store.flush
  | .now => do let _ ← Store.now

/-- The methods that may write. -/
def Operation.Writes : Operation → Prop
  | .importAuthor _ | .importNamespace _ | .removeReplica _ | .registerUsefulPeer _ _
  | .put _ _ => True
  | _ => False

/-- The other methods write nothing. -/
lemma Operation.reads_run {op : Operation} (h : ¬ op.Writes) :
    MovesBy Store.Reads (op.run : StoreM prims Unit) := by
  cases op with
  | importAuthor | importNamespace | removeReplica | registerUsefulPeer | put =>
    exact absurd trivial h
  | loadReplicaInfo ns => exact Store.Reads.discard (Store.reads_loadReplicaInfo ns)
  | closeReplica ns => exact Store.reads_closeReplica ns
  | listNamespaces => exact Store.Reads.discard Store.reads_listNamespaces
  | getAuthor author => exact Store.Reads.discard (Store.reads_getAuthor author)
  | writesOf ns => exact Store.Reads.discard (Store.reads_writesOf ns)
  | getMany ns query => exact Store.Reads.discard (Store.reads_getMany ns query)
  | contentHashes => exact Store.Reads.discard Store.reads_contentHashes
  | hasNewsForUs ns heads => exact Store.Reads.discard (Store.reads_hasNewsForUs ns heads)
  | getSyncPeers ns => exact Store.Reads.discard (Store.reads_getSyncPeers ns)
  | snapshotOwned => exact Store.Reads.discard Store.reads_snapshotOwned
  | flush => exact Store.reads_flush
  | now => exact Store.Reads.discard Store.reads_now

/-- An operation that removes a replica, and is not refused. -/
def Operation.Removes (op : Operation) (s : Store prims) (ns : NamespaceId) : Prop :=
  op = .removeReplica ns ∧ ∃ s', op.run s = .ok () s'

/-- What a method may add to the writes: a put is of an entry newer than the one held, and a removal
is the one asked for. -/
def Operation.MayAdd (op : Operation) (s : Store prims) : Mutation → Prop
  | .put e => ∀ old, s.live.records.get e.id = some old → old.stamp < e.stamp
  | .removed ns => op.Removes s ns
  | _ => True

/-- A method that adds at most one write, and that one as it may. -/
structure Operation.Adds (op : Operation) (s s' : Store prims) : Prop where
  follows : s.Follows s'
  written : s'.written <+: s.written ∨ ∃ m, s'.written = s.written ++ [m] ∧ op.MayAdd s m

namespace Operation

variable {op : Operation} {s s' : Store prims}

lemma Adds.of_reads (h : s.Reads s') : op.Adds s s' := ⟨h.follows, .inl h.written⟩

lemma Adds.of_keeps (h : s.Keeps s') : op.Adds s s' := .of_reads h.reads

lemma ensures_of_modify {α : Type} {f : Tables prims → Except String (α × List Mutation)}
    (hf : ∀ t a writes, f t = .ok (a, writes) → writes = [] ∨ ∃ m, writes = [m] ∧ op.MayAdd s m) :
    Ensures (Store.modify f) s (fun _ => op.Adds s) fun _ => op.Adds s := by
  refine (Store.ensures_modify f s).mono ?_ fun _ _ => .of_reads
  rintro a s' ⟨writes, hwrites, hs', hadd⟩
  rcases hf _ a writes hwrites with rfl | ⟨m, rfl, hm⟩
  · exact .of_keeps ⟨hs', by rw [hadd, List.append_nil]⟩
  · exact ⟨hs', .inr ⟨m, hadd, hm⟩⟩

lemma ensures_of_reads {α : Type} {m : StoreM prims α} (h : MovesBy Store.Reads m) :
    Ensures m s (fun _ => op.Adds s) fun _ => op.Adds s :=
  (movesBy_iff.mp h s).mono (fun _ _ => .of_reads) fun _ _ => .of_reads

/-- **A method adds at most one write**, a put being of a newer entry and a removal being a removal
that was asked for and answered. -/
lemma ensures_run (op : Operation) (s : Store prims) :
    Ensures op.run s (fun _ => op.Adds s) fun _ => op.Adds s := by
  cases op with
  | importAuthor author =>
    simp only [run, Store.importAuthor]
    apply ensures_of_modify
    rintro t _ _ ⟨⟩
    exact .inr ⟨_, rfl, trivial⟩
  | importNamespace capability =>
    simp only [run, ensures_bind, ensures_pure]
    apply ensures_of_modify
    intro t outcome writes h
    split_ifs at h <;> cases h
    · exact .inl rfl
    · exact .inr ⟨_, rfl, trivial⟩
  | registerUsefulPeer ns peer =>
    simp only [run, Store.registerUsefulPeer, ensures_bind, ensures_get]
    apply ensures_of_modify
    intro t _ writes h
    split_ifs at h
    cases h
    exact .inr ⟨_, rfl, trivial⟩
  | removeReplica ns =>
    unfold Ensures
    have hspec := Store.ensures_removeReplica ns s
    cases hrun : (Operation.removeReplica ns).run s with
    | ok a s' =>
      obtain ⟨hs', hadd⟩ := hspec.of_ok hrun
      exact ⟨hs', .inr ⟨_, hadd, rfl, s', hrun⟩⟩
    | error err s' => exact .of_reads (hspec.of_error hrun)
  | put ns e =>
    simp only [run, ensures_bind, ensures_pure]
    refine (StoreInstance.ensures_put ns e s).mono ?_ fun _ _ => .of_reads
    rintro outcome s' ⟨hs', ⟨-, hsame⟩ | ⟨-, -, hadd, -, hnewer⟩⟩
    · exact .of_keeps ⟨hs', hsame⟩
    · exact ⟨hs', .inr ⟨_, hadd, hnewer⟩⟩
  | loadReplicaInfo | closeReplica | listNamespaces | getAuthor | writesOf | getMany | contentHashes
    | hasNewsForUs | getSyncPeers | snapshotOwned | flush | now =>
      exact ensures_of_reads (reads_run id)

lemma adds (op : Operation) (s : Store prims) : op.Adds s (final op.run s) :=
  (movesBy_iff (R := fun s s' => op.Adds s s')).mpr (fun s => ensures_run op s) s

end Operation

/-! ## Runs -/

/-- What happens to a store: it meets an environment, or a method is called. -/
inductive Event where
  | meets (env : Environment)
  | does (op : Operation)

namespace Store

variable (s : Store prims)

/-- The store after an event. -/
def step : Event → Store prims
  | .meets env => s.under env
  | .does op => final op.run s

/-- The store after a list of events. -/
def after (events : List Event) : Store prims := events.foldl step s

@[simp] lemma after_cons (event : Event) (events : List Event) :
    s.after (event :: events) = (s.step event).after events := rfl

lemma after_append (events events' : List Event) :
    s.after (events ++ events') = (s.after events).after events' :=
  List.foldl_append

/-- Something holds of every event of a run, at the store it happens to. -/
def Along (P : Store prims → Event → Prop) : Store prims → List Event → Prop
  | _, [] => True
  | s, event :: events => P s event ∧ Along P (s.step event) events

variable {s}

lemma base_step (event : Event) : (s.step event).db.base = s.db.base := by
  cases event with
  | meets env => rfl
  | does op => exact (op.adds s).follows.base

lemma base_after (events : List Event) : (s.after events).db.base = s.db.base := by
  induction events generalizing s with
  | nil => rfl
  | cons event events ih => exact ih.trans (base_step event)

lemma counts_step (event : Event) (ns : NamespaceId) :
    s.writes ns ≤ (s.step event).writes ns := by
  cases event with
  | meets env => exact le_rfl
  | does op => exact (op.adds s).follows.counts ns

lemma counts_after (events : List Event) (ns : NamespaceId) :
    s.writes ns ≤ (s.after events).writes ns := by
  induction events generalizing s with
  | nil => exact le_rfl
  | cons event events ih => exact (counts_step event ns).trans ih

/-- **A method applies one write it may make to the tables, or none**, where no commit fails. -/
lemma live_run (op : Operation) (h : s.nextFails = false) :
    (final op.run s).live = s.live ∨
      ∃ m, (final op.run s).live = s.live.apply m ∧ op.MayAdd s m := by
  obtain ⟨hfollows, hwritten⟩ := op.adds s
  have hkept := hfollows.kept (.inr h)
  unfold live
  rw [hfollows.base]
  rcases hwritten with hless | ⟨m, hadd, hm⟩
  · rw [hless.eq_of_length (le_antisymm hless.length_le hkept.length_le)]
    exact .inl rfl
  · refine .inr ⟨m, ?_, hm⟩
    rw [hadd, Tables.replay_append]
    rfl

lemma live_of_removes {op : Operation} {ns : NamespaceId} (h : op.Removes s ns) :
    (final op.run s).live = s.live.apply (.removed ns) := by
  obtain ⟨rfl, s', hrun⟩ := h
  obtain ⟨hfollows, hadd⟩ := (ensures_removeReplica ns s).of_ok hrun
  have hfinal : final (Operation.removeReplica ns).run s = s' := by rw [final, hrun]
  unfold live
  rw [hfinal, hfollows.base, hadd, Tables.replay_append]
  rfl

lemma env_after (ops : List Operation) : (s.after (ops.map .does)).env = s.env := by
  induction ops generalizing s with
  | nil => rfl
  | cons op ops ih => exact ih.trans (op.adds s).follows.env

lemma guarded_step (h : Guarded s.db.base s.written) (event : Event) :
    Guarded (s.step event).db.base (s.step event).written := by
  rw [base_step]
  cases event with
  | meets env => exact h
  | does op =>
    rcases (op.adds s).written with ⟨lost, hlost⟩ | ⟨m, hadd, hm⟩
    · exact Guarded.of_prefix (hlost ▸ h)
    · have hs : (s.step (.does op)).written = s.written ++ [m] := hadd
      rw [hs]
      apply h.concat
      rintro e rfl
      exact hm

/-- **In every run, every put is of a record newer than the one held.** -/
lemma guarded_after (base : Tables prims) (env : Environment) (events : List Event) :
    Guarded ((opened base env).after events).db.base ((opened base env).after events).written := by
  induction events using List.reverseRecOn with
  | nil => exact guarded_nil base
  | append_singleton events event ih =>
    rw [after_append]
    exact guarded_step ih event

/-! ## Paths -/

/-- What methods of the store, one after the other, lead to. -/
def Path (s s' : Store prims) : Prop := ∃ ops : List Operation, s' = s.after (ops.map .does)

lemma Path.refl (s : Store prims) : Path s s := ⟨[], rfl⟩

lemma Path.trans {s s' s'' : Store prims} (h : Path s s') (h' : Path s' s'') : Path s s'' := by
  obtain ⟨ops, rfl⟩ := h
  obtain ⟨ops', rfl⟩ := h'
  exact ⟨ops ++ ops', by rw [List.map_append, after_append]⟩

lemma Path.follows {s s' : Store prims} (h : Path s s') : Follows s s' := by
  obtain ⟨ops, rfl⟩ := h
  induction ops generalizing s with
  | nil => exact .refl s
  | cons op ops ih => exact (op.adds s).follows.trans ih

lemma path_run (op : Operation) : MovesBy Path (op.run : StoreM prims Unit) :=
  fun _ => ⟨[op], rfl⟩

lemma path_of_run {α : Type} {m : StoreM prims α} (op : Operation)
    (h : op.run = do let _ ← m) : MovesBy Path m := by
  intro s
  rw [← final_bind_pure (b := ()), ← h]
  exact path_run op s

section Compositions

variable {α β : Type}

lemma Path.bind {m : StoreM prims α} {f : α → StoreM prims β} (hm : MovesBy Path m)
    (hf : ∀ a, MovesBy Path (f a)) : MovesBy Path (m >>= f) :=
  MovesBy.bind (R := Path) (fun _ _ _ => Path.trans) hm hf

lemma Path.pure (a : α) : MovesBy Path (Pure.pure a : StoreM prims α) := Path.refl

lemma Path.throw (err : String) : MovesBy Path (throw err : StoreM prims α) := Path.refl

lemma Path.get : MovesBy Path (get : StoreM prims (Store prims)) := Path.refl

lemma Path.ofExcept (result : Except String α) :
    MovesBy Path (MonadExcept.ofExcept result : StoreM prims α) := by
  cases result with
  | ok a => exact Path.pure a
  | error err => exact Path.throw err

lemma path_elapsed (since : ℕ) : MovesBy Path (elapsed since : StoreM prims ℕ) :=
  Path.bind (path_of_run .now rfl) fun _ => Path.pure _

lemma path_put (ns : NamespaceId) (e : SignedEntry) :
    MovesBy Path (StoreInstance.put ns e : StoreM prims _) :=
  path_of_run (.put ns e) rfl

end Compositions

end Store

end MeePdn.PdnStore.Fs
