import MeePdn.PdnStore.Durable

/-!
# What a session's snapshot holds

A session is opened over a snapshot of the tables, and is told how often its replica was written to.
Whoever caches what the snapshot answered keeps it under that count. This file relates the two:
which of the counted writes a snapshot holds.

## Main definitions

* `Event.Spares` — an event that does not lose a write to a failed commit.
* `Event.Stays` — an event that does not remove a replica.

## Main results

* `snapshot_covers` — a session's snapshot holds every entry that was put and counted, or a newer
  one, unless a commit that failed had lost it.
* `Testing.count_outlives_write` — a count covers a write that a failed commit has lost.
-/

namespace MeePdn.PdnStore

open Effects Fs

variable {prims : Primitives}

/-! ## From a put to a session -/

section Events

variable (s : Store prims) (event : Fs.Event)

/-- The event does not lose a write: where a method finds the write in the open transaction, it
tries no commit or the first one does not fail. -/
def Fs.Event.Spares (e : SignedEntry) : Prop :=
  ∀ op, event = .does op → .put e ∈ s.transaction.writes →
    (s.step event).commits = s.commits ∨ s.nextFails = false

/-- The event does not remove the replica. -/
def Fs.Event.Stays (ns : NamespaceId) : Prop := ∀ op, event = .does op → ¬ op.Removes s ns

end Events

namespace Fs.Store

variable {s : Store prims} {event : Event} {e : SignedEntry} {ns : NamespaceId}
  {first : List Mutation}

/-- The writes up to one of them are all there, and the replica was not removed after it. -/
def Retains (first : List Mutation) (ns : NamespaceId) (s : Store prims) : Prop :=
  ∃ more, s.written = first ++ more ∧ .removed ns ∉ more

/-- **An event that spares the last of the writes and does not remove the replica retains them.**

**Proof sketch.** A method that adds nothing leaves some of the writes, and among them the first
ones: they are committed, or no commit loses them. A method that adds a write adds it at the
end, and it is not the removal. -/
lemma retains_step (hspares : event.Spares s e) (hstays : event.Stays s ns)
    (h : Retains (first ++ [.put e]) ns s) : Retains (first ++ [.put e]) ns (s.step event) := by
  obtain ⟨more, hmore, hremoved⟩ := h
  cases event with
  | meets env => exact ⟨more, hmore, hremoved⟩
  | does op =>
    have hfirst : first ++ [.put e] <+: s.written := ⟨more, hmore.symm⟩
    have hadds := op.adds s
    rcases hadds.written with hlost | ⟨m, hadd, hm⟩
    · have hkept : first ++ [.put e] <+: (s.step (.does op)).written := by
        rcases prefix_or_mem hfirst with hcommitted | hmem
        · exact (hcommitted.trans hadds.follows.committed).trans (committed_prefix_written _)
        · exact hfirst.trans (hadds.follows.kept (hspares op rfl hmem))
      obtain ⟨less, hless⟩ := hkept
      refine ⟨less, hless.symm, fun hmem => hremoved ?_⟩
      have hshort : less <+: more := by
        rw [← List.prefix_append_right_inj (first ++ [.put e]), hless, ← hmore]
        exact hlost
      exact hshort.subset hmem
    · refine ⟨more ++ [m], ?_, ?_⟩
      · calc (s.step (.does op)).written = s.written ++ [m] := hadd
          _ = first ++ [.put e] ++ (more ++ [m]) := by rw [hmore, List.append_assoc]
      · intro hmem
        rcases List.mem_append.mp hmem with hmem | hmem
        · exact hremoved hmem
        · rw [← List.mem_singleton.mp hmem] at hm
          exact hstays op rfl hm

/-- **A run that spares the last of the writes and does not remove the replica retains them.** -/
lemma retains_after (events : List Event)
    (hspares : s.Along (fun s event => event.Spares s e) events)
    (hstays : s.Along (fun s event => event.Stays s ns) events)
    (h : Retains (first ++ [.put e]) ns s) :
    Retains (first ++ [.put e]) ns (s.after events) := by
  induction events generalizing s with
  | nil => exact h
  | cons event events ih => exact ih hspares.2 hstays.2 (retains_step hspares.1 hstays.1 h)

lemma Retains.holds (h : Retains (first ++ [.put e]) e.ns s)
    (hguarded : Guarded s.db.base s.written) : Holds s.live.records e := by
  obtain ⟨more, hmore, hremoved⟩ := h
  have hsplit : s.written = first ++ .put e :: more := by simp [hmore]
  rw [hsplit] at hguarded
  unfold live
  rw [hsplit]
  exact Tables.held_of_guarded hguarded hremoved

end Fs.Store

namespace Actor

lemma ensures_ensureSyncing (ns : NamespaceId) (a : Actor prims) :
    Ensures (ensureSyncing ns) a (fun _ a' => a' = a) fun _ _ => True := by
  unfold ensureSyncing
  rw [ensures_bind]
  refine (ensures_getState ns a).mono ?_ fun _ _ => id
  rintro state _ ⟨-, rfl⟩
  split_ifs <;> trivial

lemma ensures_syncSessionStart (ns : NamespaceId) (read : List (NamespaceId × ℕ))
    (a : Actor prims) :
    Ensures (syncSessionStart ns read) a
      (fun opened a' => a.store.writes ns ≤ opened.writes ∧
        a'.sessions.lookup opened.id = some ⟨ns, a.store.live⟩) fun _ _ => True := by
  unfold syncSessionStart
  rw [ensures_bind]
  refine (ensures_ensureSyncing ns a).mono ?_ fun _ _ _ => trivial
  rintro _ _ rfl
  simp only [ensures_bind, ensures_onStore, ensures_get, ensures_set, ensures_pure, Store.writesOf]
  refine (Store.ensures_snapshotOwned _).mono ?_ fun _ _ _ => trivial
  rintro _ s ⟨rfl, hkeeps, -⟩
  exact ⟨hkeeps.follows.counts ns, List.lookup_cons_self⟩

end Actor

/-- **A session's snapshot holds every write its count covers**, for every run of the store over any
disk: an entry is put and counted; no method loses it to a commit that fails, and the replica is not
removed; then a session opened on the store is told a count that covers the put, and its snapshot
holds the entry or a newer one. -/
theorem snapshot_covers (base : Tables prims) (env : Environment) (before between : List Fs.Event)
    (ns : NamespaceId) (e : SignedEntry) (removed : ℕ) (s : Store prims)
    (hput : StoreInstance.put ns e ((Store.opened base env).after before) =
      .ok (.inserted removed) s)
    (hspares : s.Along (fun s event => event.Spares s e) between)
    (hstays : s.Along (fun s event => event.Stays s ns) between)
    (a a' : Actor prims) (hstore : a.store = s.after between) (read : List (NamespaceId × ℕ))
    (opened : OpenedSession) (hopened : Actor.syncSessionStart ns read a = .ok opened a') :
    s.writes ns ≤ opened.writes ∧
      ∃ tables, a'.sessions.lookup opened.id = some ⟨ns, tables⟩ ∧ Holds tables.records e := by
  obtain ⟨-, ⟨hnot, -⟩ | ⟨-, hns, hadd, -, -⟩⟩ := (StoreInstance.ensures_put ns e _).of_ok hput
  · cases hnot
  subst hns
  obtain ⟨hcount, hlookup⟩ := (Actor.ensures_syncSessionStart e.ns read a).of_ok hopened
  have hwrites : s.writes e.ns ≤ a.store.writes e.ns := hstore ▸ Store.counts_after between e.ns
  refine ⟨hwrites.trans hcount, _, hlookup, ?_⟩
  -- The store is one run from the disk: the events before, the put and the events between.
  have hrun : s.after between =
      (Store.opened base env).after (before ++ .does (.put e.ns e) :: between) := by
    have hstep : s = ((Store.opened base env).after before).step (.does (.put e.ns e)) := by
      have hfinal : s = final (StoreInstance.put e.ns e)
          ((Store.opened base env).after before) := by
        rw [final, hput]
      exact hfinal.trans final_bind_pure.symm
    rw [Store.after_append, Store.after_cons, ← hstep]
  have hretains := Store.retains_after between hspares hstays
    ⟨[], by rw [hadd, List.append_nil], List.not_mem_nil⟩
  rw [hstore]
  apply hretains.holds
  rw [hrun]
  exact Store.guarded_after base env _

end MeePdn.PdnStore

/-! ## A session after a read -/

namespace MeePdn.Testing

open PdnStore Fs Effects

/-- The entry put. -/
def noted : SignedEntry := signed (replica 5) ⟨.replicate 32 1⟩ [1] (record 4 9 7)

/-- The store it was put in. -/
def notedStore : Fs.Store transparent :=
  final (StoreInstance.put (replica 5) noted) (.opened .empty calm)

/-- An actor that opened the replica, after a read. -/
def noting : Actor transparent :=
  { Actor.new 0 (notedStore.after [.does (.getMany (replica 5) .all)]) 0 with
    states := Keyed.Table.empty.insert ⟨.write ⟨.replicate 32 5⟩, true, 1⟩ }

/-- A session opened after a read whose commit does not fail holds the entry. -/
theorem snapshot_covers_noted :
    ∃ opened actor, Actor.syncSessionStart (replica 5) [] noting = .ok opened actor ∧
      notedStore.writes (replica 5) ≤ opened.writes ∧
      ∃ tables, actor.sessions.lookup opened.id = some ⟨replica 5, tables⟩ ∧
        Holds tables.records noted := by
  have hput : StoreInstance.put (replica 5) noted (.opened .empty calm) =
      .ok (.inserted 0) notedStore := rfl
  refine ⟨⟨⟨0, 0⟩, true, 1⟩, final (Actor.syncSessionStart (replica 5) []) noting, rfl, ?_⟩
  refine snapshot_covers .empty calm [] [.does (.getMany (replica 5) .all)] (replica 5) noted 0
    notedStore hput ⟨fun _ _ _ => .inr rfl, trivial⟩ ⟨?_, trivial⟩ noting _ rfl [] _ rfl
  rintro op ⟨⟩ ⟨hremoves, -⟩
  cases hremoves

/-- **A count can cover a write that is lost**: a local write is answered and counted, a read loses
it with a commit that fails, and a session opened then is told a count that covers the write while
its snapshot does not hold it. -/
theorem count_outlives_write :
    let a := opened.next hashing (turnIn calm note)
    let read := turnIn full readAll
    let start := turnIn calm (.replica (replica 5) (.syncSessionStart []))
    opened.answer hashing (turnIn calm note) = .ok .done ∧
      (∃ e, note.Writes hashing e ∧ a.store.written = opened.store.written ++ [.put e]) ∧
      a.store.writes (replica 5) = 1 ∧
      (a.next hashing read).answer hashing start = .ok (.opened ⟨⟨0, 0⟩, true, 1⟩) ∧
      ∃ tables, ((a.next hashing read).next hashing start).sessions.lookup ⟨0, 0⟩ =
        some ⟨replica 5, tables⟩ ∧
        tables.records.get ⟨replica 5, ⟨.replicate 32 1⟩, [1]⟩ = none := by
  intro a read start
  have hwrite : opened.answer hashing (turnIn calm note) = .ok .done := rfl
  have haction : (turnIn calm note).action = some note := rfl
  obtain ⟨-, -, hadded⟩ := Actor.next_of_write haction trivial hwrite
  exact ⟨hwrite, hadded, rfl, rfl, _, rfl, rfl⟩

end MeePdn.Testing
