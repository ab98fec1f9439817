import MeePdn.DataLayer.Pod.Departures
import MeePdn.DataLayer.Pod.MembershipView.Parts

/-!
# A departure's past suffices

A former member is served the past of its departure and nothing else, and is to see the departure
from it. The view over the past is compared with the view over the whole store: the chains that the
past holds whole, as far as it holds them, settle by themselves, so that both views show the same
states there, and the departing event next to them has the same verdict.

Two things reach beyond the past. The last-owner guard looks at every identity of the store; and a
device may be listed by nothing but a join statement of another sequence, which the past leaves out.
An author that a device statement lists is resolved: the past holds such a statement, and the event
with the member's identity key.

## Main definitions

* `SelfContained` — a part of a store that holds what its events name.
* `pastEntries` — the entries of a store that a past selects.
* `InReach` — what lists an author is in reach of a past.
* `KeepsOwner` — as far as a part holds its chain, somebody owns the pod.

## Main results

* `SelfContained.departedAt` — a part that holds what a departure rests on shows the departure.
* `resolvesAuthor_past` — the past resolves the authors in reach of it.
* `past_shows_departure` — **the view over the past shows the departure**.
-/

namespace MeePdn

open Settling

variable {prims : Primitives} {orders orders' : ℕ → HashOrder} {pod : PodId} {store : NamespaceId}
  {entries part : List HeldEntry} {event event' : Event} {member : PdnId} {seq : ℕ}

/-! ## Parts that hold what their events name -/

/-- A part of a store that holds, with each event, its chain before it and its actor's up to the
point it names. -/
structure SelfContained (entries part : List HeldEntry) : Prop where
  subset : part ⊆ entries
  before : ∀ e ∈ (Parsed.of entries).events, HoldsEvent entries part e →
    HoldsWhole entries part e.subject (e.seq - 1)
  actor : ∀ e ∈ (Parsed.of entries).events, HoldsEvent entries part e →
    HoldsWhole entries part e.actor e.actorSeq

/-- As far as a part holds its chain, and it holds it whole so far, somebody owns the pod by the
view over the store. -/
def KeepsOwner (view : MembershipView) (entries part : List HeldEntry) : Prop :=
  ∃ owner, HoldsWhole entries part owner ((Parsed.of part).run owner) ∧
    ∃ state, view.stateAt owner ((Parsed.of part).run owner) = some state ∧ state.owner = true

namespace SelfContained

variable (hinj : prims.Injective) (h : SelfContained entries part)
  (hauthors : ∀ e ∈ (candidatesOf prims pod store entries).list, HoldsEvent entries part e →
    ResolvesAuthor prims pod store entries part e)

include h in
lemma wholeRegion : WholeRegion entries part (HoldsWhole entries part) where
  subset := h.subset
  down := fun _ _ hwhole e he hsubject h1 hle => hwhole e he hsubject h1 (by omega)
  holds := fun e he hwhole h1 => hwhole e he rfl h1 le_rfl
  actor := fun e he hwhole h1 => h.actor e he (hwhole e he rfl h1 le_rfl)

include hinj h hauthors

lemma agrees {setAside setAside' : Finset ℕ}
    (haside : SetAsideIff entries part setAside setAside') :
    Agrees prims pod store entries part setAside setAside' (HoldsWhole entries part) :=
  h.wholeRegion.agrees hinj (fun e he hwhole => hauthors e he
    (hwhole e (mem_candidatesOf.mp he).1 rfl
      ((candidatesOf prims pod store entries).seq_pos e he) le_rfl)) haside

/-- **The guard sets nothing aside over a part that keeps an owner**, nor anything of the part over
the store. -/
lemma setAsideIff (orders : ℕ → HashOrder)
    (hspared : ∀ i ∈ finalSet prims pod store entries, ∀ held, entries[i]? = some held →
      held ∉ part)
    (howner : KeepsOwner (MembershipView.new prims orders pod store entries) entries part) :
    SetAsideIff entries part (finalSet prims pod store entries)
      (finalSet prims pod store part) := by
  have hnone : SetAsideIff entries part (finalSet prims pod store entries) ∅ := by
    rintro i i' ⟨held, hi, hi'⟩
    exact ⟨fun hmem => absurd (List.mem_of_getElem? hi') (hspared i hmem held hi),
      fun hmem => absurd hmem (Finset.notMem_empty _)⟩
  obtain ⟨owner, hwhole, state, hstate, howns⟩ := howner
  rw [stateAt_new, if_pos (run_mono h.subset owner)] at hstate
  rw [← Option.some.inj hstate,
    (h.agrees hinj hauthors hnone).finalState_eq owner _ hwhole] at howns
  rwa [finalSet_eq_empty_of_hasOwner ⟨owner, howns⟩]

omit hinj h hauthors in
lemma not_member_of_rank {kind : EventKind} (h : rank .left ≤ rank kind) :
    (apply kind).member = false := by
  cases kind <;> first | rfl | exact absurd h (by decide)

/-- **A part that holds what a departure rests on shows the departure**: the event that ends the
membership, and past it no sequence of the chain but with all before it. -/
lemma departedAt (haside : SetAsideIff entries part (finalSet prims pod store entries)
      (finalSet prims pod store part)) {departed : ℕ}
    (hdeparted : (shownMember prims pod store entries member).departedAt = some departed)
    (hcounted : CountedAt entries (MembershipView.new prims orders pod store entries) member
      departed event) (hkind : event.kind = .removed ∨ event.kind = .left)
    (hholds : HoldsEvent entries part event)
    (hpast : ∀ f ∈ (Parsed.of entries).events, HoldsEvent entries part f → f.subject = member →
      departed < f.seq → HoldsWhole entries part member f.seq) :
    (shownMember prims pod store part member).departedAt = some departed := by
  have hagrees := h.agrees hinj hauthors haside
  obtain ⟨hmember, h1, hle, hbefore, hsince⟩ :=
    (follows_shownMember prims pod store entries member).departedAt_eq_some.mp hdeparted
  rw [run_shownMember] at hle hsince
  obtain ⟨hcounts, hpoint⟩ := countedAt_iff.mp hcounted
  obtain ⟨hsubject, hseq⟩ := Prod.mk.inj hpoint
  have hevent := hcounted.1
  have hwhole : HoldsWhole entries part member (departed - 1) := by
    rw [← hsubject, ← hseq]
    exact h.before event hevent hholds
  -- the departing event has its verdict over the part too
  obtain ⟨event', hevent', hmoved⟩ := hholds.exists_moved hevent
  have hcorr := hmoved.corresponds hcounts.1 (h.before event hevent hholds)
    (h.actor event hevent hholds) (hauthors event hcounts.1 hholds)
  have hcounts' : (candidatesOf prims pod store part).Counted (finalSet prims pod store part)
      event' := by
    refine ⟨hcorr.2.1, ?_⟩
    rw [← hagrees.finalVerdict_eq_next hcorr ⟨?_, ?_⟩ (haside _ _ hmoved.1)]
    · exact hcounts.2
    · change HoldsWhole entries part event.subject (event.seq - 1)
      rwa [hsubject, hseq]
    · exact fun _ => h.actor event hevent hholds
  have hrun : departed ≤ (Parsed.of part).run member := by
    have hle' := (candidatesOf prims pod store part).seq_le_run event' hcorr.2.1
    rwa [hmoved.seq, hseq, hmoved.subject, hsubject] at hle'
  -- what ends a membership outranks the rest
  have hended : ((candidatesOf prims pod store part).finalState (finalSet prims pod store part)
      member departed).member = false := by
    obtain ⟨before, rfl⟩ := Nat.exists_eq_add_of_le' h1
    obtain ⟨top, -, -, hmax, hstate⟩ := exists_highest hrun hcounts'
      (Prod.ext (hmoved.subject.trans hsubject) (hmoved.seq.trans hseq))
    have hrank := hmax event' hcounts' (Prod.ext (hmoved.subject.trans hsubject)
      (hmoved.seq.trans hseq))
    rw [hstate]
    refine not_member_of_rank (le_trans ?_ hrank)
    rw [hmoved.kind]
    rcases hkind with hkind | hkind <;> rw [hkind]
    exact (by decide : rank .left ≤ rank .removed)
  have hlater : ∀ seq, departed ≤ seq → seq ≤ (Parsed.of part).run member →
      ((candidatesOf prims pod store part).finalState (finalSet prims pod store part)
        member seq).member = false := by
    intro seq hseq' hrun'
    rcases Nat.lt_or_eq_of_le hseq' with hlt | rfl
    · have hpresent := Parsed.le_run_iff.mp hrun' seq (by omega) le_rfl
      obtain ⟨f', hf', hfsubject, hfseq⟩ := Parsed.mem_present.mp hpresent
      obtain ⟨f, hf, hfmoved⟩ := Moved.exists_of_subset h.subset hf'
      have hwhole' := hpast f hf hfmoved.symm.holdsEvent (hfmoved.subject.trans hfsubject)
        (by rw [hfmoved.seq, hfseq]; exact hlt)
      rw [hfmoved.seq, hfseq] at hwhole'
      rw [← hagrees.finalState_eq member seq hwhole']
      exact hsince seq hseq' (hrun'.trans (run_mono h.subset member))
    · exact hended
  have hfollows := follows_shownMember prims pod store part member
  refine hfollows.departedAt_eq_some.mpr ⟨?_, h1, by rwa [run_shownMember], ?_, ?_⟩
  · rw [hfollows.state, run_shownMember]
    exact hlater _ hrun le_rfl
  · rw [← hagrees.finalState_eq member (departed - 1) hwhole]
    exact hbefore
  · rwa [run_shownMember]

end SelfContained

/-! ## The past as a part -/

/-- The entries of a store that a past selects. -/
def pastEntries (entries : List HeldEntry) (past : Finset PastEntry) : List HeldEntry :=
  entries.filter fun held => (held.key, held.author) ∈ past

section Past

variable {past : Finset PastEntry} {departed : ℕ} {kind : EventKind}
  (hmem : ∀ entry, entry ∈ past ↔
    ∃ i ∈ (Past.Index.of (MembershipView.new prims orders pod store entries) entries).past
      (member, departed) kind,
      ∃ held, entries[i]? = some held ∧ (held.key, held.author) = entry)
include hmem

/-- An event of the past, as one of the entries that the departing events reach. -/
lemma exists_reached (hevent : event ∈ (Parsed.of entries).events)
    (hholds : HoldsEvent entries (pastEntries entries past) event) :
    ∃ i ∈ (Past.Index.of (MembershipView.new prims orders pod store entries) entries).past
      (member, departed) kind, { event with entry := i } ∈ (Parsed.of entries).events ∧
        Alone.author entries i = Alone.author entries event.entry := by
  obtain ⟨held, hat, hpast⟩ := hholds
  obtain ⟨i, hi, found, hfound, hsame⟩ :=
    (hmem _).mp (of_decide_eq_true (List.mem_filter.mp hpast).2)
  obtain ⟨held', hat', hparsed⟩ := Parsed.mem_events.mp hevent
  obtain rfl := Option.some.inj (hat.symm.trans hat')
  refine ⟨i, hi, Parsed.mem_events.mpr ⟨found, hfound, ?_⟩, by
    simp [Alone.author, hat, hfound, (Prod.mk.inj hsame).2]⟩
  have hmoved := Parsed.eventAt_moved hparsed i
  simp only [Parsed.eventAt] at hmoved ⊢
  rwa [(Prod.mk.inj hsame).1]

lemma mem_pastEntries {i : ℕ} {held : HeldEntry} (hat : entries[i]? = some held)
    (hi : i ∈ (Past.Index.of (MembershipView.new prims orders pod store entries) entries).past
      (member, departed) kind) : held ∈ pastEntries entries past :=
  List.mem_filter.mpr ⟨List.mem_of_getElem? hat,
    decide_eq_true ((hmem _).mpr ⟨i, hi, held, hat, rfl⟩)⟩

lemma holdsEvent_of_reached (hevent : event ∈ (Parsed.of entries).events)
    (hreached : event.entry ∈ (Past.Index.of (MembershipView.new prims orders pod store entries)
      entries).past (member, departed) kind) :
    HoldsEvent entries (pastEntries entries past) event := by
  obtain ⟨held, hat, -⟩ := Parsed.mem_events.mp hevent
  exact ⟨held, hat, mem_pastEntries hmem hat hreached⟩

omit hmem in
lemma mem_past_of_dependsOn {membership : MembershipView} {point : Point} {i j : ℕ}
    (hi : i ∈ (Past.Index.of membership entries).past point kind)
    (hj : j ∈ (Past.Index.of membership entries).dependsOn i) :
    j ∈ (Past.Index.of membership entries).past point kind := by
  obtain ⟨root, hroot, hpoint, hkind, hcounted, hpath⟩ := Past.Index.mem_past.mp hi
  exact Past.Index.mem_past.mpr ⟨root, hroot, hpoint, hkind, hcounted, hpath.tail hj⟩

/-- The past holds what its events name. -/
lemma selfContained_past : SelfContained entries (pastEntries entries past) where
  subset := List.filter_subset_self _
  before := by
    intro e he hholds f hf hsubject h1 hle
    obtain ⟨i, hi, htwin, -⟩ := exists_reached hmem he hholds
    obtain ⟨held, hat, -⟩ := Parsed.mem_events.mp htwin
    exact holdsEvent_of_reached hmem hf (mem_past_of_dependsOn hi
      ((Past.Index.mem_dependsOn_event htwin hat).mpr
        (Or.inl (Past.Index.mem_chainUpto.mpr ⟨f, hf, rfl, hsubject, h1, hle⟩))))
  actor := by
    intro e he hholds f hf hsubject h1 hle
    obtain ⟨i, hi, htwin, -⟩ := exists_reached hmem he hholds
    obtain ⟨held, hat, -⟩ := Parsed.mem_events.mp htwin
    exact holdsEvent_of_reached hmem hf (mem_past_of_dependsOn hi
      ((Past.Index.mem_dependsOn_event htwin hat).mpr
        (Or.inr (Or.inl (Past.Index.mem_chainUpto.mpr ⟨f, hf, rfl, hsubject, h1, hle⟩)))))

/-- An event of the past lies where the membership ended; or its chain is in the past whole up to
it; or it is the event with its subject's key. -/
lemma past_cases (hevent : event ∈ (Parsed.of entries).events)
    (hholds : HoldsEvent entries (pastEntries entries past) event) :
    event.point = (member, departed) ∨
      HoldsWhole entries (pastEntries entries past) event.subject event.seq ∨
      ∃ i, (Past.Index.of (MembershipView.new prims orders pod store entries) entries).keyEvent
        event.subject = some i ∧ { event with entry := i } ∈ (Parsed.of entries).events := by
  have hpart := selfContained_past hmem
  obtain ⟨i, hi, htwin, -⟩ := exists_reached hmem hevent hholds
  obtain ⟨root, hroot, hpoint, hkind, hcounted, hpath⟩ := Past.Index.mem_past.mp hi
  -- by the last step on the way to the event
  rcases hpath.cases_tail with rfl | ⟨b, hpath, hstep⟩
  · have hsame := Parsed.eq_of_entry hroot htwin rfl
    exact Or.inl ((congrArg Event.point hsame).symm.trans hpoint)
  have hb := Past.Index.mem_past.mpr ⟨root, hroot, hpoint, hkind, hcounted, hpath⟩
  have hcarrier : ∀ chain, (Past.Index.of (MembershipView.new prims orders pod store entries)
      entries).keyEvent chain = some i → event.subject = chain := by
    grind [Parsed.eq_of_entry, Past.Index.keyEvent_eq_some]
  rcases Past.Index.exists_of_dependsOn hstep with ⟨g, hg, rfl⟩ | ⟨statement, hstatement, rfl⟩
  · obtain ⟨held, hat, -⟩ := Parsed.mem_events.mp hg
    have hgholds := holdsEvent_of_reached hmem hg hb
    rcases (Past.Index.mem_dependsOn_event hg hat).mp hstep with hbefore | hactor | hlisting | hkey
    · obtain ⟨f, hf, hentry, hsubject, -, hle⟩ := Past.Index.mem_chainUpto.mp hbefore
      obtain rfl := Parsed.eq_of_entry hf htwin hentry
      refine Or.inr (Or.inl fun e he hes h1 hes' => ?_)
      exact hpart.before g hg hgholds e he (hes.trans hsubject) h1 (hes'.trans hle)
    · obtain ⟨f, hf, hentry, hsubject, -, hle⟩ := Past.Index.mem_chainUpto.mp hactor
      obtain rfl := Parsed.eq_of_entry hf htwin hentry
      refine Or.inr (Or.inl fun e he hes h1 hes' => ?_)
      exact hpart.actor g hg hgholds e he (hes.trans hsubject) h1 (hes'.trans hle)
    · obtain ⟨statement, hstatement, hentry, -⟩ := Past.Index.mem_statementsListing hlisting
      exact absurd hentry.symm (Parsed.entry_ne htwin hstatement)
    · exact Or.inr (Or.inr ⟨i, hcarrier _ hkey ▸ hkey, htwin⟩)
  · have hkey := (Past.Index.mem_dependsOn_statement hstatement).mp hstep
    exact Or.inr (Or.inr ⟨i, hcarrier _ hkey ▸ hkey, htwin⟩)

/-- Past where the membership ended, the past holds a sequence of the chain only with all before it:
the event with the member's key lies before. -/
lemma holdsWhole_of_later
    (hdeparted : (shownMember prims pod store entries member).departedAt = some departed)
    (hevent : event ∈ (Parsed.of entries).events)
    (hholds : HoldsEvent entries (pastEntries entries past) event)
    (hsubject : event.subject = member) (hlater : departed < event.seq) :
    HoldsWhole entries (pastEntries entries past) member event.seq := by
  rcases past_cases hmem hevent hholds with hpoint | hwhole | ⟨i, hkey, htwin⟩
  · exact absurd (Prod.mk.inj hpoint).2 (by omega)
  · rwa [hsubject] at hwhole
  · obtain ⟨-, h1, hle, hbefore, -⟩ :=
      (follows_shownMember prims pod store entries member).departedAt_eq_some.mp hdeparted
    rw [run_shownMember] at hle
    obtain ⟨entering, hentering, henterer, henter1, hentered, hkind⟩ :=
      exists_entered (by omega : departed - 1 ≤ (Parsed.of entries).run member) hbefore
    obtain ⟨henters, -, hverdict⟩ : CountedAt entries
        (MembershipView.new prims orders pod store entries) entering.subject entering.seq
          entering :=
      countedAt_iff.mpr ⟨hentering, rfl⟩
    obtain ⟨carrier, hcarrier, hentry, -, -, -, -, hlowest⟩ := Past.Index.keyEvent_eq_some hkey
    have hfirst := hlowest entering henters (henterer.trans hsubject.symm) henter1 hverdict hkind
    rw [Parsed.eq_of_entry hcarrier htwin hentry] at hfirst
    exact absurd hfirst (by simp only; omega)

end Past

/-! ## The authors of the past's events -/

section Authors

variable (prims orders pod store entries part)

/-- A member's identity key is in reach of a part: a created or joined event of its chain counts
over the store, or the part holds an event that carries the key. -/
def KeyInReach (member : PdnId) : Prop :=
  (∃ event, CountedAt entries (MembershipView.new prims orders pod store entries) member event.seq
    event ∧ (event.kind = .created ∨ event.kind = .joined)) ∨
  ∃ event ∈ (Parsed.of entries).events, HoldsEvent entries part event ∧ event.subject = member ∧
    ∃ key, Alone.carriedKey entries event = some key ∧ pdnIdOf prims key = member

/-- What lists an author for a member is in reach of a part: a join statement that the part holds,
or a device statement, whether the part holds it or not, of a member whose key is in reach. -/
def InReach (member : PdnId) (author : AuthorId) : Prop :=
  (∃ event ∈ (Parsed.of entries).events, HoldsEvent entries part event ∧ event.subject = member ∧
    ∃ device, Alone.joiningDevice prims pod entries event = some device ∧
      device.author = author) ∨
  (∃ statement ∈ (Parsed.of entries).statements, ∃ device,
    Alone.Lists prims pod entries (checksOf prims pod store entries).keys statement member device ∧
      device.author = author) ∧ KeyInReach prims orders pod store entries part member

end Authors

section Past

variable {past : Finset PastEntry} {departed : ℕ} {kind : EventKind}
  (hmem : ∀ entry, entry ∈ past ↔
    ∃ i ∈ (Past.Index.of (MembershipView.new prims orders pod store entries) entries).past
      (member, departed) kind,
      ∃ held, entries[i]? = some held ∧ (held.key, held.author) = entry)
include hmem

/-- The past finds the identity key of an event's actor, where it is in reach: the event depends on
the one that carries it. -/
lemma exists_key_past (hinj : prims.Injective) (hevent : event ∈ (Parsed.of entries).events)
    (hholds : HoldsEvent entries (pastEntries entries past) event)
    (hkey : KeyInReach prims orders pod store entries (pastEntries entries past) event.actor) :
    (checksOf prims pod store (pastEntries entries past)).keys event.actor =
      (checksOf prims pod store entries).keys event.actor := by
  have hsub : pastEntries entries past ⊆ entries := List.filter_subset_self _
  obtain ⟨f, hf, hfholds, hsubject, key, hcarried, hderives⟩ : ∃ f ∈ (Parsed.of entries).events,
      HoldsEvent entries (pastEntries entries past) f ∧ f.subject = event.actor ∧
      ∃ key, Alone.carriedKey entries f = some key ∧ pdnIdOf prims key = event.actor := by
    rcases hkey with ⟨entering, hentering, hkind⟩ | hheld
    · obtain ⟨hcounts, -⟩ := countedAt_iff.mp hentering
      obtain ⟨hentered, hpoint, hverdict⟩ := hentering
      have hsubject : entering.subject = event.actor := (Prod.mk.inj hpoint).1
      obtain ⟨j, hj⟩ := Past.Index.exists_keyEvent hentered
        ((candidatesOf prims pod store entries).seq_pos entering hcounts.1)
        ((candidatesOf prims pod store entries).seq_le_run entering hcounts.1) hverdict hkind
      rw [hsubject] at hj
      obtain ⟨carrier, hcarrier, rfl, hof, -, hcounted, hcarries, -⟩ :=
        Past.Index.keyEvent_eq_some hj
      obtain ⟨i, hi, htwin, -⟩ := exists_reached hmem hevent hholds
      obtain ⟨held, hat, -⟩ := Parsed.mem_events.mp htwin
      obtain ⟨⟨hcandidate, -⟩, -⟩ := countedAt_iff.mp
        (⟨hcarrier, rfl, hcounted⟩ : CountedAt entries _ carrier.subject carrier.seq carrier)
      obtain ⟨key, hkey, hderives⟩ := carriedKey_of_entering hcandidate hcarries
      exact ⟨carrier, hcarrier, holdsEvent_of_reached hmem hcarrier (mem_past_of_dependsOn hi
        ((Past.Index.mem_dependsOn_event htwin hat).mpr (Or.inr (Or.inr (Or.inr hj))))), hof, key,
        hkey, hderives.trans hof⟩
    · exact hheld
  obtain ⟨f', hf', hmoved⟩ := hfholds.exists_moved hf
  obtain ⟨found, hfound, -⟩ := exists_key hf' (hmoved.carriedKey_eq.trans hcarried)
    (hderives.trans (hsubject.symm.trans hmoved.subject.symm))
  rw [hmoved.subject, hsubject] at hfound
  rw [hfound, keys_mono hinj (holdsEvents_of_subset hsub) hfound]

/-- **The past resolves the authors in reach of it.** A statement that lists an event's author is in
the past with the event, if there is one at all, and counts there by the key the past finds. -/
lemma resolvesAuthor_past (hinj : prims.Injective) {author : AuthorId}
    (hevent : event ∈ (Parsed.of entries).events)
    (hholds : HoldsEvent entries (pastEntries entries past) event)
    (hauthor : Alone.author entries event.entry = some author)
    (hreach : InReach prims orders pod store entries (pastEntries entries past) event.actor
      author) :
    ResolvesAuthor prims pod store entries (pastEntries entries past) event := by
  refine ⟨author, hauthor, ?_⟩
  rw [(Alone.of_checked prims pod store _).authors]
  rcases hreach with ⟨f, hf, hfholds, hsubject, device, hjoining, rfl⟩ |
    ⟨⟨statement, hstatement, device, ⟨hof, hcounted, devices, hdevices, hin⟩, rfl⟩, hkey⟩
  · obtain ⟨f', hf', hmoved⟩ := hfholds.exists_moved hf
    exact Finset.mem_image_of_mem _ (((Alone.of_checked prims pod store _).mem_devices _ _).mpr
      (Or.inr ⟨f', hf', hmoved.subject.trans hsubject, hmoved.joiningDevice_eq.trans hjoining⟩))
  · obtain ⟨i, hi, htwin, htwinAuthor⟩ := exists_reached hmem hevent hholds
    obtain ⟨held, hat, -⟩ := Parsed.mem_events.mp htwin
    have hby : held.author = device.author := by
      rw [hauthor] at htwinAuthor
      simpa [Alone.author, show entries[i]? = some held from hat] using htwinAuthor
    -- the statement of the lowest version that lists the author is in the past
    have hcounts : (MembershipView.new prims orders pod store entries).verdicts[statement.entry]? =
        some .counted := by rw [verdict_new_statement hstatement, hcounted]
    obtain ⟨j, hj⟩ := Past.Index.exists_mem_statementsListing hstatement hcounts
      (Past.Index.lists_iff.mpr ⟨devices, hdevices, device, hin, rfl⟩)
    obtain ⟨listing, hlisting, rfl, hmember, hverdict, hlists⟩ :=
      Past.Index.mem_statementsListing hj
    rw [hof] at hmember
    have hreached := mem_past_of_dependsOn hi ((Past.Index.mem_dependsOn_event htwin hat).mpr
      (Or.inr (Or.inr (Or.inl (by rw [hby, ← hof]; exact hj)))))
    obtain ⟨found, hfound, -⟩ := Parsed.mem_statements.mp hlisting
    obtain ⟨i', hsame, hmem'⟩ :=
      exists_statement_of_mem hlisting hfound (mem_pastEntries hmem hfound hreached)
    obtain ⟨listed, hlisted, other, hother, hauthor'⟩ := Past.Index.lists_iff.mp hlists
    rw [verdict_new_statement hlisting, Option.some.injEq] at hverdict
    refine Finset.mem_image.mpr ⟨other, ((Alone.of_checked prims pod store _).mem_devices _ _).mpr
      (Or.inl ⟨_, hmem', hmember, ?_, listed, hsame.listedDevices_eq.trans hlisted, hother⟩),
      hauthor'⟩
    rw [hsame.statementVerdict_eq, hverdict]
    rw [hmember]
    exact exists_key_past hmem hinj hevent hholds hkey

end Past

end MeePdn
