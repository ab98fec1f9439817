import MeePdn.DataLayer.Pod.MembershipView.Same
import MeePdn.DataLayer.Pod.MembershipView.LastOwner

/-!
# Views over a part of a store

A device often holds only a part of what others do. Where the part holds all there is at some
points, these are closed under what their events name, and the part lists the authors of these
events, the view over it shows the same states there as the view over the whole store. The guard
reads the ends of all chains; it has nothing to do where the part shows an owner.

## Main definitions

* `HoldsWhole` — a part holds a chain whole, up to a sequence.
* `WholeRegion` — points a part holds whole, closed under what their events name.
* `ResolvesAuthor` — a part lists an event's author for its actor.
* `Under` — the points that the ends of chains rest on.

## Main results

* `WholeRegion.agrees` — **both views agree where a part holds chains whole**.
-/

namespace MeePdn

open Settling

variable {prims : Primitives} {pod : PodId} {store : NamespaceId}
  {entries part : List HeldEntry} {event event' : Event} {member : PdnId} {seq : ℕ}
  {setAside setAside' : Finset ℕ} {R : PdnId → ℕ → Prop}

/-- A part of a store holds an event of the store. -/
def HoldsEvent (entries part : List HeldEntry) (event : Event) : Prop :=
  ∃ held, entries[event.entry]? = some held ∧ held ∈ part

/-- A part of a store holds a chain whole, up to a sequence. -/
def HoldsWhole (entries part : List HeldEntry) (member : PdnId) (seq : ℕ) : Prop :=
  ∀ e ∈ (Parsed.of entries).events, e.subject = member → 1 ≤ e.seq → e.seq ≤ seq →
    HoldsEvent entries part e

/-- Points at which a part holds all that the store does, closed under what the events there
name. -/
structure WholeRegion (entries part : List HeldEntry) (R : PdnId → ℕ → Prop) : Prop where
  subset : part ⊆ entries
  down : ∀ x s, R x (s + 1) → R x s
  holds : ∀ e ∈ (Parsed.of entries).events, R e.subject e.seq → 1 ≤ e.seq →
    HoldsEvent entries part e
  actor : ∀ e ∈ (Parsed.of entries).events, R e.subject e.seq → 1 ≤ e.seq → R e.actor e.actorSeq

/-- A part lists the author of an event of the store for the event's actor. -/
def ResolvesAuthor (prims : Primitives) (pod : PodId) (store : NamespaceId)
    (entries part : List HeldEntry) (event : Event) : Prop :=
  ∃ a, Alone.author entries event.entry = some a ∧
    a ∈ (checksOf prims pod store part).authors event.actor

lemma HoldsEvent.exists_moved (h : HoldsEvent entries part event)
    (hevent : event ∈ (Parsed.of entries).events) :
    ∃ event' ∈ (Parsed.of part).events, Moved entries part event event' := by
  obtain ⟨held, hat, hheld⟩ := h
  exact Moved.exists_of_mem hevent hat hheld

lemma Moved.holdsEvent (h : Moved entries part event event') : HoldsEvent entries part event := by
  obtain ⟨⟨held, hat, hat'⟩, -⟩ := h
  exact ⟨held, hat, List.mem_of_getElem? hat'⟩

lemma HoldsWhole.le_run (h : HoldsWhole entries part member seq)
    (hrun : seq ≤ (Parsed.of entries).run member) : seq ≤ (Parsed.of part).run member := by
  refine Parsed.le_run_iff.mpr fun s h1 hs => ?_
  obtain ⟨e, he, hsubject, hseq⟩ := Parsed.mem_present.mp (Parsed.le_run_iff.mp hrun s h1 hs)
  obtain ⟨e', he', hmoved⟩ :=
    (h e he hsubject (hseq.symm ▸ h1) (hseq.symm ▸ hs)).exists_moved he
  exact Parsed.mem_present.mpr ⟨e', he', hmoved.subject.trans hsubject, hmoved.seq.trans hseq⟩

/-- **A candidate stays one** over a part that holds its chain before it and its actor's up to the
point it names, and lists its author. -/
lemma Moved.corresponds (hmoved : Moved entries part event event')
    (hevent : event ∈ (candidatesOf prims pod store entries).list)
    (hbefore : HoldsWhole entries part event.subject (event.seq - 1))
    (hactor : HoldsWhole entries part event.actor event.actorSeq)
    (hauthor : ResolvesAuthor prims pod store entries part event) :
    Corresponds prims pod store entries part event event' := by
  obtain ⟨hmem, hpass⟩ := mem_candidatesOf.mp hevent
  obtain ⟨hseq, hkind, -, hactorRun, hsubjectRun⟩ := Alone.refusal_eq_none_iff.mp hpass
  refine ⟨hevent, mem_candidatesOf.mpr ⟨hmoved.mem_events hmem, Alone.refusal_eq_none_iff.mpr
    ⟨by rwa [hmoved.seq], hmoved.kindAlone_eq.trans hkind, ?_, ?_, ?_⟩⟩, hmoved⟩
  · obtain ⟨a, ha, hlisted⟩ := hauthor
    exact ⟨a, hmoved.1.author_eq.trans ha, by rwa [hmoved.actor]⟩
  · rw [hmoved.actorSeq, hmoved.actor]
    exact hactor.le_run hactorRun
  · rw [hmoved.seq, hmoved.subject]
    exact hbefore.le_run hsubjectRun

namespace WholeRegion

variable (h : WholeRegion entries part R)
include h

lemma down_le (hR : R member seq) {s : ℕ} (hle : s ≤ seq) : R member s := by
  induction seq with
  | zero => rwa [Nat.le_zero.mp hle]
  | succ seq ih =>
    rcases Nat.le_succ_iff.mp hle with hle | rfl
    · exact ih (h.down member seq hR) hle
    · exact hR

lemma holdsWhole (hR : R member seq) : HoldsWhole entries part member seq :=
  fun e he hsubject h1 hle => h.holds e he (hsubject ▸ h.down_le hR hle) h1

/-- **Where a part of a store holds chains whole, its view agrees with that of the store.** -/
lemma agrees (hinj : prims.Injective)
    (hauthors : ∀ e ∈ (candidatesOf prims pod store entries).list, R e.subject e.seq →
      ResolvesAuthor prims pod store entries part e)
    (haside : SetAsideIff entries part setAside setAside') :
    Agrees prims pod store entries part setAside setAside' R := by
  refine simulates_of_corresponds h.down (fun x s hR => ⟨fun hlt => (h.holdsWhole hR).le_run hlt,
    fun hlt => lt_of_lt_of_le hlt (run_mono h.subset x)⟩)
    (fun e e' hcorr _ => haside _ _ hcorr.2.2.1) (fun e he hR => ?_) (fun e' he' _ => ?_)
    fun e he hR _ => ?_
  · have hmem := (mem_candidatesOf.mp he).1
    have hpos := (candidatesOf prims pod store entries).seq_pos e he
    obtain ⟨e', -, hmoved⟩ := (h.holds e hmem hR hpos).exists_moved hmem
    exact ⟨e', hmoved.corresponds he (h.holdsWhole (h.down_le hR (Nat.sub_le _ 1)))
      (h.holdsWhole (h.actor e hmem hR hpos)) (hauthors e he hR)⟩
  · obtain ⟨e, -, hmoved⟩ := Moved.exists_of_subset h.subset (mem_candidatesOf.mp he').1
    exact ⟨e, hmoved.candidate_mono hinj h.subset he', he', hmoved.symm⟩
  · exact h.actor e (mem_candidatesOf.mp he).1 hR
      ((candidatesOf prims pod store entries).seq_pos e he)

end WholeRegion

/-- The points that the ends of some chains rest on: with a sequence those before it in its chain,
and the points its events name. -/
inductive Under (entries : List HeldEntry) (chains : PdnId → Prop) : PdnId → ℕ → Prop
  | last {chain : PdnId} (h : chains chain) :
      Under entries chains chain ((Parsed.of entries).run chain)
  | down {chain : PdnId} {seq : ℕ} (h : Under entries chains chain (seq + 1)) :
      Under entries chains chain seq
  | actor {event : Event} (hevent : event ∈ (Parsed.of entries).events)
      (h : Under entries chains event.subject event.seq) (h1 : 1 ≤ event.seq) :
      Under entries chains event.actor event.actorSeq

lemma wholeRegion_under {chains : PdnId → Prop} (hsub : part ⊆ entries)
    (hholds : ∀ e ∈ (Parsed.of entries).events, Under entries chains e.subject e.seq → 1 ≤ e.seq →
      HoldsEvent entries part e) : WholeRegion entries part (Under entries chains) where
  subset := hsub
  down := fun _ _ hunder => hunder.down
  holds := hholds
  actor := fun _ he hunder h1 => .actor he hunder h1

end MeePdn
