import MeePdn.DataLayer.Moments
import MeePdn.DataLayer.Testing

/-!
# The views an access book keeps

Calls of `membership_view_and_entries` run beside each other and beside the writes to the stores
they read. Each may keep the view it built, with the write count it asked for before it read, and
each may return a view another one kept. A view is returned only where its count stands, so that an
outdated one is never returned, whichever call kept it last.

## Main definitions

* `AccessBook.lookOrBuild` — a call up to the point where it keeps what it built.
* `World.keepView`, `World.remove` — a view that is kept, and a replica that is removed.
* `Interleaving` — calls beside each other, writes, removals and arrivals.

## Main results

* `Interleaving.lasting`, `Interleaving.built` — what such a run keeps, and which views it keeps.
* `kept_view_current` — a call returns a view over the entries of a moment of the call.
* `Testing.torn_view` — the payloads may be of a later moment than the entries.

## Implementation notes

How many views a book keeps is left open: one more may always find the book full, which drops the
others.
-/

namespace MeePdn

open PdnStore Asking

namespace World

/-- `remove_replica`, which is counted as a write. -/
def remove (world : World) (ns : NamespaceId) : World :=
  { world with
    records := world.records.filter fun e => ¬ (RecordsBounds.ofNamespace ns).Contains e.id
    writes := fun other => if other = ns then world.writes other + 1 else world.writes other }

/-- `keep_view`; where the book is full the other views are dropped. -/
def keepView (world : World) (full : Bool) (pod : PodId) (kept : KeptView) : World :=
  { world with
    views := Function.update (if full then fun _ => none else world.views) pod (some kept) }

lemma ofNamespace_remove {world : World} {ns ns' : NamespaceId} (h : ns' ≠ ns) :
    StoreInstance.ofNamespace ns' (world.remove ns).records =
      StoreInstance.ofNamespace ns' world.records := by
  unfold StoreInstance.ofNamespace remove Keyed.Table.filter
  rw [List.filter_filter]
  apply List.filter_congr
  intro e _
  have hother : e.ns = ns' → e.id.ns ≠ ns := fun hns heq => h (hns.symm.trans heq)
  by_cases hns : e.ns = ns'
  · simp [hns, RecordsBounds.contains_ofNamespace, hother hns]
  · simp [hns]

end World

/-- `membership_view_and_entries` up to `keep_view`: what it returns, and the count to keep it with,
if it is to be kept. -/
def AccessBook.lookOrBuild (book : AccessBook) (prims : Primitives) (orders : ℕ → HashOrder)
    (pod : PodId) (membership : NamespaceId) : Asks (Read × Option ℕ) := do
  let writes ← book.writesOf membership
  match ← keptView pod membership writes with
  | some read => return (read, none)
  | none =>
    let entries ← book.readEntries membership
    return (readOf prims orders pod membership entries, if unread entries then none else writes)

variable (blake3 : List UInt8 → Bytes 32) (prims : Primitives) (orders : ℕ → HashOrder)
  (book : AccessBook)

/-- What happens at a moment: an entry is put into a replica, a replica is removed, one is imported,
a payload arrives, or a call that has built a view keeps it. -/
inductive Happens (world : ℕ → World) (t : ℕ) : Prop
  | write (e : SignedEntry) (h : world (t + 1) = (world t).put e)
  | remove (ns : NamespaceId) (h : world (t + 1) = (world t).remove ns)
  /-- An import changes no record and is not counted. -/
  | imported (h : world (t + 1) = world t)
  | arrive (hash : PdnStore.Hash) (bytes : List UInt8) (hnone : (world t).blobs hash = none)
      (h : world (t + 1) = (world t).arrive hash bytes)
  | keep (full : Bool) (pod : PodId) (membership : NamespaceId) (read : Read)
      (writes start stop : ℕ)
      (hrun : Runs (World.answer blake3 book) world (book.lookOrBuild prims orders pod membership)
        start (some (read, some writes)) stop)
      (hstop : stop ≤ t)
      (h : world (t + 1) = (world t).keepView full pod ⟨membership, writes, read⟩)

/-- A run of a book that has kept nothing yet. -/
structure Interleaving where
  world : ℕ → World
  opened : ∀ pod, (world 0).views pod = none
  happens : ∀ t, Happens blake3 prims orders book world t

namespace Interleaving

variable {blake3 prims orders book} (run : Interleaving blake3 prims orders book)

lemma lasting : Lasting run.world := by
  refine .of_step (fun t hash bytes h => ?_) (fun t ns => ?_) fun t ns h => ?_
  · cases run.happens t with
    | write e hnext | remove ns hnext | imported hnext | keep _ _ _ _ _ _ _ _ _ hnext =>
      rw [hnext]
      exact h
    | arrive hash' bytes' hnone hnext => grind [World.arrive]
  · cases run.happens t with
    | imported hnext => rw [hnext]
    | arrive hash bytes hnone hnext | keep _ _ _ _ _ _ _ _ _ hnext =>
      rw [hnext]
      exact le_rfl
    | write e hnext =>
      rw [hnext]
      simp only [World.put]
      split_ifs <;> omega
    | remove ns' hnext =>
      rw [hnext]
      simp only [World.remove]
      split_ifs <;> omega
  · cases run.happens t with
    | imported hnext => rw [hnext]
    | arrive hash bytes hnone hnext | keep _ _ _ _ _ _ _ _ _ hnext =>
      rw [hnext]
      rfl
    | write e hnext => grind [World.put, StoreInstance.ofNamespace_insert]
    | remove ns' hnext => grind [World.remove, World.ofNamespace_remove]

/-- What a call keeps it has built, over entries read after the count. -/
lemma runs_lookOrBuild {world : ℕ → World} {pod : PodId} {membership : NamespaceId} {read : Read}
    {writes t t' : ℕ}
    (h : Runs (World.answer blake3 book) world (book.lookOrBuild prims orders pod membership) t
      (some (read, some writes)) t') :
    ∃ before start, before ≤ start ∧ (world before).writes membership = writes ∧
      Runs (World.answer blake3 book) world (book.readEntries membership) start
        (some read.entries) t' ∧
      read = AccessBook.readOf prims orders pod membership read.entries ∧
      AccessBook.unread read.entries = false := by
  unfold AccessBook.lookOrBuild at h
  obtain ⟨asked, s, hasked, h⟩ := runs_bind.mp h
  obtain ⟨kept, s', hkept, h⟩ := runs_bind.mp h
  cases kept with
  | some found =>
    obtain ⟨hread, -⟩ := runs_pure.mp h
    cases hread
  | none =>
    obtain ⟨entries, s'', hentries, h⟩ := runs_bind.mp h
    obtain ⟨hread, rfl⟩ := runs_pure.mp h
    obtain ⟨hread, hwrites⟩ := Prod.mk.inj (Option.some.inj hread)
    subst hread
    split_ifs at hwrites with hunread
    subst hwrites
    exact ⟨s, s', hkept.le, (runs_writesOf hasked).2, hentries, rfl, by simpa using hunread⟩

/-- **Every view that is kept was built**, whichever call kept it last. -/
lemma built : Built blake3 prims orders book run.world := by
  intro t
  induction t with
  | zero =>
    intro pod kept hkept
    rw [run.opened] at hkept
    cases hkept
  | succ t ih =>
    intro pod kept hkept
    have hbefore : (run.world t).views pod = some kept → ∃ before start stop, before ≤ start ∧
        stop ≤ t + 1 ∧ (run.world before).writes kept.store = kept.writes ∧
        Runs (World.answer blake3 book) run.world (book.readEntries kept.store) start
          (some kept.read.entries) stop ∧
        kept.read = AccessBook.readOf prims orders pod kept.store kept.read.entries ∧
        AccessBook.unread kept.read.entries = false := by
      intro hkept
      obtain ⟨before, start, stop, hle, hstop, hbuilt⟩ := ih pod kept hkept
      exact ⟨before, start, stop, hle, hstop.trans (Nat.le_succ t), hbuilt⟩
    cases run.happens t with
    | write e hnext | remove ns hnext | imported hnext | arrive hash bytes hnone hnext =>
      rw [hnext] at hkept
      exact hbefore hkept
    | keep full pod' membership read writes start stop hrun hstop hnext =>
      rw [hnext] at hkept
      simp only [World.keepView, Function.update_apply] at hkept
      split_ifs at hkept with hpod hfull
      · cases hkept
        subst hpod
        obtain ⟨before, start, hle, hbuilt⟩ := runs_lookOrBuild hrun
        exact ⟨before, start, stop, hle, hstop.trans (Nat.le_succ t), hbuilt⟩
      · exact hbefore hkept

end Interleaving

variable {blake3 prims orders book}

/-- **A call returns a view over the entries of a moment of the call.** Whatever calls run beside
each other and beside writes, removals and re-imports of the stores and arrivals of payloads, the
view is the one over the entries returned with it; the entries are what the store held at some
moment between the call's start and its return, each with its payload as it stood at that moment or
later, up to the return. Where none of their payloads arrives in between, all of it is what was held
at that moment.

**Proof sketch.** A call that finds a kept view asked for the count before, and the view's count was
asked for before its entries were read. If these were read before this call asked, nothing was
written in between, so they are the entries of the moment at which it asked; otherwise they were
read in the course of this call. -/
theorem kept_view_current (run : Interleaving blake3 prims orders book) {pod : PodId}
    {membership : NamespaceId} {t t' : ℕ} {read : Read}
    (h : Runs (World.answer blake3 book) run.world
      (book.membershipViewAndEntries prims orders pod membership) t (some read) t') :
    read.view = MembershipView.new prims orders pod membership read.entries ∧
    ∃ moment, t ≤ moment ∧ moment ≤ t' ∧
      Looked blake3 book run.world membership moment t' read.entries ∧
      ((∀ e ∈ (run.world moment).getMany blake3 membership [],
          (run.world t').held e = (run.world moment).held e) →
        read.entries = book.contents blake3 (run.world moment) membership) := by
  obtain ⟨hread, moment, hstart, hstop, hlooked⟩ := looked_of_runs run.lasting run.built h
  refine ⟨congrArg Read.view hread, moment, hstart, hstop, hlooked, fun hquiet => ?_⟩
  exact hlooked.eq_contents_of_quiet run.lasting hquiet

namespace Testing

/-- Bob is invited again, the payload of the joined event on its way. -/
def awaiting : World := lacking joinedFamily (.joined 3)

/-- He is removed once more, and then the payload arrives. -/
def arrivals : ℕ → World
  | 0 => awaiting
  | 1 => lacking awaiting (.removed 4)
  | _ => (lacking awaiting (.removed 4)).arrive (Written.joined 3).hash (Written.joined 3).payload

/-- The run in which this happens. -/
def arriving : Interleaving hashing transparent (fun _ => default) aliceBook where
  world := arrivals
  opened _ := rfl
  happens
    | 0 => .write (Written.removed 4).entry rfl
    | 1 => .arrive _ _ (by decide +kernel) rfl
    | _ + 2 => .imported rfl

/-- A call of Alice's book. -/
def aliceLooks : Asks Read :=
  aliceBook.membershipViewAndEntries transparent (fun _ => default) family familyMembers

/-- A call while the payload is on its way. -/
theorem kept_view_current_awaiting :
    ∃ read, Runs (World.answer hashing aliceBook) arrivals aliceLooks 0 (some read) 0 ∧
      read.entries = aliceBook.contents hashing awaiting familyMembers := by
  obtain ⟨read, -, hrun⟩ := @Runs.exists_of_exec _ _ _ _ (World.answer hashing aliceBook)
    arrivals aliceLooks 0 0 (List.replicate 10 0) (fun _ => true) (by decide +kernel)
  obtain ⟨-, moment, hstart, hstop, -, hcontents⟩ := kept_view_current arriving hrun
  obtain rfl : moment = 0 := by omega
  exact ⟨read, hrun, hcontents fun e _ => rfl⟩

/-- **Entries and payloads of no single moment.** The entries are read before Bob is removed again,
and the payload of his joined event after it has arrived: at no moment did the stores hold both. -/
theorem torn_view :
    ∃ read, Runs (World.answer hashing aliceBook) arrivals aliceLooks 0 (some read) 2 ∧
      ∀ moment, read.entries ≠ aliceBook.contents hashing (arrivals moment) familyMembers := by
  obtain ⟨read, htorn, hrun⟩ := @Runs.exists_of_exec _ _ _ _ (World.answer hashing aliceBook)
    arrivals aliceLooks 0 2 (List.replicate 9 0 ++ [2, 2])
    (fun read => [0, 1, 2].all fun moment => decide (read.entries ≠
      aliceBook.contents hashing (arrivals moment) familyMembers)) (by decide +kernel)
  refine ⟨read, hrun, fun moment => ?_⟩
  have hall := List.all_eq_true.mp htorn
  match moment with
  | 0 => exact of_decide_eq_true (hall 0 (by simp))
  | 1 => exact of_decide_eq_true (hall 1 (by simp))
  | n + 2 => exact of_decide_eq_true (hall 2 (by simp))

end Testing

end MeePdn
