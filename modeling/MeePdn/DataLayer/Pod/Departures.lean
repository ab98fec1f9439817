import Mathlib
import MeePdn.DataLayer.Pod.Standings
import MeePdn.DataLayer.Pod.Testing

/-!
# What a departure rests on

The two closures over a membership store, put side by side. A member device serves a former member
the past of its departure, found entry by entry with the verdicts of the view; the former member's
replica takes points of chains, read from event keys alone. Beside that, the positions of chains
that the first closure looks up.

## Main definitions

* `Past.LeadsTo` — the events a departure leads to.
* `Past.idle` — the steps of an event's walk over two chains that meet nothing new.

## Main results

* `takes_keyEvent` — an event that counts names its actor's chain past the event with its key.
* `rests_admit_past` — **a departed replica takes everything a member device serves it**, where
  the past's events count.
* `lookups_held_iff` — **how far the past looks up chains**: no further than the store holds, and
  no oftener than it has entries, exactly where no event names a point past that and the gaps and
  second walks are few.
-/

namespace MeePdn

variable {prims : Primitives} {orders : ℕ → HashOrder} {pod : PodId} {store : NamespaceId}
  {entries : List HeldEntry} {event : Event}

/-! ## What is served and what is taken -/

section Taken

/-- Who is a member at a sequence entered no later, by an event that counts. -/
lemma exists_entered {parsed : Parsed} {candidates : Candidates parsed} {setAside : Finset ℕ}
    {member : PdnId} {seq : ℕ} (hrun : seq ≤ parsed.run member)
    (h : (candidates.finalState setAside member seq).member = true) :
    ∃ entering, candidates.Counted setAside entering ∧ entering.subject = member ∧
      1 ≤ entering.seq ∧ entering.seq ≤ seq ∧
      (entering.kind = .created ∨ entering.kind = .joined) := by
  induction seq with
  | zero =>
    rw [Candidates.finalState, Settling.Log.final_zero] at h
    exact absurd h (by decide)
  | succ seq ih =>
    cases hbefore : (candidates.finalState setAside member seq).member with
    | true =>
      obtain ⟨entering, hcounted, hsubject, h1, hle, hkind⟩ := ih (by omega) hbefore
      exact ⟨entering, hcounted, hsubject, h1, by omega, hkind⟩
    | false =>
      obtain ⟨entering, hcounted, hpoint, hkind⟩ := exists_entering hrun hbefore h
      obtain ⟨hsubject, hseq⟩ := Prod.mk.inj hpoint
      exact ⟨entering, hcounted, hsubject, by omega, by omega, hkind⟩

lemma Rests.Takes.down {rests : Rests} {member : PdnId} {seq upto : ℕ}
    (h : rests.Takes (member, upto)) (hle : seq ≤ upto) : rests.Takes (member, seq) := by
  obtain ⟨most, hmost, hupto⟩ := h
  exact ⟨most, hmost, hle.trans hupto⟩

/-- An event that counts has an actor that entered by then: before it in its own chain, or up to
the point it names. -/
lemma exists_entered_actor
    (h : (candidatesOf prims pod store entries).Counted (finalSet prims pod store entries) event) :
    ∃ entering, (candidatesOf prims pod store entries).Counted (finalSet prims pod store entries)
        entering ∧ entering.subject = event.actor ∧ 1 ≤ entering.seq ∧
      (entering.kind = .created ∨ entering.kind = .joined) ∧
      (entering.seq ≤ event.actorSeq ∨
        event.actor = event.subject ∧ entering.seq ≤ event.seq) := by
  obtain ⟨hmem, hpass⟩ := mem_candidatesOf.mp h.1
  obtain ⟨hseq, hkind, -, hactor, hsubject⟩ := Alone.refusal_eq_none_iff.mp hpass
  have hneeded := (judged_of_counted h).2.1
  cases hcase : event.kind with
  | created => grind [Alone.kindAlone, Alone.creationAlone]
  | left =>
    simp only [Alone.kindAlone, hcase] at hkind
    split at hkind
    · cases hkind
    next hself =>
    rw [ne_eq, not_not] at hself
    have hallows := allows_of_counted h
    rw [hcase] at hallows
    obtain ⟨entering, hcounted, hsub, h1, hle, henter⟩ := exists_entered hsubject hallows
    exact ⟨entering, hcounted, hsub.trans hself.symm, h1, henter, Or.inr ⟨hself, by omega⟩⟩
  | joined | promoted | removed | demoted =>
    have hmember : ((candidatesOf prims pod store entries).finalState
        (finalSet prims pod store entries) event.actor event.actorSeq).member = true := by
      rw [hcase] at hneeded
      first
      | exact hneeded
      | exact member_of_owner hactor hneeded
    obtain ⟨entering, hcounted, hsub, h1, hle, henter⟩ := exists_entered hactor hmember
    exact ⟨entering, hcounted, hsub, h1, henter, Or.inl hle⟩

/-- **An event that counts names its actor's chain past the event with its key**, or it lies there
itself: where the event is taken, the one with its actor's key is. -/
lemma takes_keyEvent {member : PdnId} {i : ℕ}
    (hcounted : (MembershipView.new prims orders pod store entries).verdicts[event.entry]? =
      some .counted) (hevent : event ∈ (Parsed.of entries).events)
    (htakes : (Rests.of entries member).Takes event.point)
    (hkey : (Past.Index.of (MembershipView.new prims orders pod store entries) entries).keyEvent
      event.actor = some i) :
    ∃ carrier ∈ (Parsed.of entries).events, carrier.entry = i ∧ 1 ≤ carrier.seq ∧
      (Rests.of entries member).Takes carrier.point := by
  obtain ⟨hcounts, -⟩ := countedAt_iff.mp (⟨hevent, rfl, hcounted⟩ : CountedAt entries
    (MembershipView.new prims orders pod store entries) event.subject event.seq event)
  obtain ⟨carrier, hcarrier, hentry, hsubject, h1, -, -, hlowest⟩ :=
    Past.Index.keyEvent_eq_some hkey
  obtain ⟨entering, hentering, henterer, henter1, hkind, hwhere⟩ := exists_entered_actor hcounts
  obtain ⟨hmem, -, hverdict⟩ : CountedAt entries (MembershipView.new prims orders pod store entries)
      entering.subject entering.seq entering := countedAt_iff.mpr ⟨hentering, rfl⟩
  have hle := hlowest entering hmem henterer henter1 hverdict hkind
  have hclosed := Rests.of_closed entries member
  refine ⟨carrier, hcarrier, hentry, h1, ?_⟩
  rw [Event.point, hsubject]
  rcases hwhere with hactor | ⟨hself, hseq⟩
  · have h0 : 0 < event.seq := (candidatesOf prims pod store entries).seq_pos event hcounts.1
    exact ((hclosed.closed event hevent h0 htakes (by omega)).resolve_right
      List.not_mem_nil).down (by omega)
  · rw [hself]
    exact htakes.down (by omega)

/-- An entry that the replica takes: an event at a point taken; or a statement of an actor, with the
event that has the actor's key. -/
inductive TakenEntry (entries : List HeldEntry) (index : Past.Index) (rests : Rests) (i : ℕ) : Prop
  | event (event : Event) (hevent : event ∈ (Parsed.of entries).events) (hentry : event.entry = i)
      (h1 : 1 ≤ event.seq) (htakes : rests.Takes event.point)
  | statement (statement : Statement) (hstatement : statement ∈ (Parsed.of entries).statements)
      (hentry : statement.entry = i) (hmember : statement.member ∈ rests.statementsOf)
      (hkey : ∀ j, index.keyEvent statement.member = some j →
        ∃ carrier ∈ (Parsed.of entries).events, carrier.entry = j ∧ 1 ≤ carrier.seq ∧
          rests.Takes carrier.point)

/-- The replica takes what an entry that it takes depends on, where the event counts. -/
lemma TakenEntry.dependsOn {member : PdnId} {i j : ℕ}
    (h : TakenEntry entries (Past.Index.of (MembershipView.new prims orders pod store entries)
      entries) (Rests.of entries member) i)
    (hcounted : ∀ event ∈ (Parsed.of entries).events, event.entry = i →
      (MembershipView.new prims orders pod store entries).verdicts[i]? = some .counted)
    (hdepends : j ∈ (Past.Index.of (MembershipView.new prims orders pod store entries)
      entries).dependsOn i) :
    TakenEntry entries (Past.Index.of (MembershipView.new prims orders pod store entries) entries)
      (Rests.of entries member) j := by
  have hclosed := Rests.of_closed entries member
  cases h with
  | statement statement hstatement hentry hmember hkey =>
    subst hentry
    obtain ⟨carrier, hcarrier, hentry, h1, htakes⟩ :=
      hkey j ((Past.Index.mem_dependsOn_statement hstatement).mp hdepends)
    exact .event carrier hcarrier hentry h1 htakes
  | event event hevent hentry h1 htakes =>
    subst hentry
    obtain ⟨held, hheld, -⟩ := Parsed.mem_events.mp hevent
    rcases (Past.Index.mem_dependsOn_event hevent hheld).mp hdepends with
      hbefore | hactor | hlisting | hkey
    · obtain ⟨other, hother, hentry, hsubject, hother1, hle⟩ := Past.Index.mem_chainUpto.mp hbefore
      refine .event other hother hentry hother1 ?_
      rw [Event.point, hsubject]
      exact htakes.down (by omega)
    · obtain ⟨other, hother, hentry, hsubject, hother1, hle⟩ := Past.Index.mem_chainUpto.mp hactor
      refine .event other hother hentry hother1 ?_
      rw [Event.point, hsubject]
      exact ((hclosed.closed event hevent h1 htakes (by omega)).resolve_right
        List.not_mem_nil).down hle
    · obtain ⟨statement, hstatement, hentry, hmember, -⟩ :=
        Past.Index.mem_statementsListing hlisting
      refine .statement statement hstatement hentry ?_ ?_
      · rw [hmember]
        exact hclosed.actor_mem event hevent h1 htakes
      · grind [takes_keyEvent]
    · obtain ⟨carrier, hcarrier, hentry, hcarrier1, hcarried⟩ :=
        takes_keyEvent (hcounted event hevent rfl) hevent htakes hkey
      exact .event carrier hcarrier hentry hcarrier1 hcarried

/-- The replica admits the key of an entry it takes. -/
lemma TakenEntry.admits {index : Past.Index} {rests : Rests} {i : ℕ} {held : HeldEntry}
    (h : TakenEntry entries index rests i) (hheld : entries[i]? = some held) :
    rests.admits held.key = true := by
  cases h with
  | event event hevent hentry h1 htakes =>
    subst hentry
    obtain ⟨found, hfound, hparsed⟩ := Parsed.mem_events.mp hevent
    obtain rfl := Option.some.inj (hheld.symm.trans hfound)
    obtain ⟨seq, actorSeq, hparse, hseq, -⟩ := Parsed.parse_of_eventAt hparsed
    obtain ⟨upto, hupto, hle⟩ := htakes
    change rests.upto event.subject = some upto at hupto
    simp only [Rests.admits, hparse, hupto, Option.any_some, hseq]
    exact decide_eq_true hle
  | statement statement hstatement hentry hmember hkey =>
    subst hentry
    obtain ⟨found, hfound, hparsed⟩ := Parsed.mem_statements.mp hstatement
    obtain rfl := Option.some.inj (hheld.symm.trans hfound)
    simp only [Rests.admits, Parsed.parse_of_statementAt hparsed]
    exact decide_eq_true hmember

lemma seq_lt_of_mem (h : event ∈ (Parsed.of entries).events) : event.seq < UInt64.size := by
  obtain ⟨held, -, hparsed⟩ := Parsed.mem_events.mp h
  obtain ⟨seq, -, -, hseq, -⟩ := Parsed.parse_of_eventAt hparsed
  rw [← hseq]
  exact UInt64.toNat_lt_size _

/-- **A departed replica takes everything a member device serves it**: where every event of the past
counts, the replica over the same entries admits the key of every entry of the past, device
statements included.

**Proof sketch.** By induction over how an entry comes into the past. The departure lies in the
member's own chain, which is taken whole; an event's chain and the point it names are taken with
it; and an event counts only where its actor is a member by then, so that the event with the actor's
key lies no later in what is taken. -/
theorem rests_admit_past (orders : ℕ → HashOrder) (entries : List HeldEntry) (member : PdnId)
    (past : Finset PastEntry)
    (hpast : departurePast (MembershipView.new prims orders pod store entries) entries member =
      some past)
    (hcounted : ∀ i held, entries[i]? = some held → (held.key, held.author) ∈ past →
      (Parsed.eventAt (held, i)).isSome = true →
      (MembershipView.new prims orders pod store entries).verdicts[i]? = some .counted) :
    ∀ entry ∈ past, (Rests.of entries member).admits entry.1 = true := by
  obtain ⟨seq, kind, -, -, -, hmem⟩ := mem_departurePast hpast
  have htaken : ∀ i ∈ (Past.Index.of (MembershipView.new prims orders pod store entries)
      entries).past (member, seq) kind,
      TakenEntry entries (Past.Index.of (MembershipView.new prims orders pod store entries) entries)
        (Rests.of entries member) i := by
    intro i hi
    obtain ⟨root, hroot, hpoint, hkind, hverdict, hpath⟩ := Past.Index.mem_past.mp hi
    induction hpath with
    | refl =>
      have hown := (Rests.of_closed entries member).own.resolve_right List.not_mem_nil
      obtain ⟨hcounts, -⟩ := countedAt_iff.mp (⟨hroot, rfl, hverdict⟩ : CountedAt entries
        (MembershipView.new prims orders pod store entries) root.subject root.seq root)
      have hlt := seq_lt_of_mem hroot
      refine .event root hroot rfl ((candidatesOf prims pod store entries).seq_pos root
        hcounts.1) ?_
      rw [Event.point, (Prod.mk.inj hpoint).1]
      exact hown.down (by omega)
    | tail hpath hdepends ih =>
      next b c =>
      have hb := Past.Index.mem_past.mpr ⟨root, hroot, hpoint, hkind, hverdict, hpath⟩
      refine (ih hb).dependsOn (fun event hevent hentry => ?_) hdepends
      obtain ⟨held, hheld, hparsed⟩ := Parsed.mem_events.mp hevent
      rw [hentry] at hheld hparsed
      exact hcounted b held hheld ((hmem _).mpr ⟨b, hb, held, hheld, rfl⟩) (by simp [hparsed])
  intro entry hentry
  obtain ⟨i, hi, held, hheld, rfl⟩ := (hmem entry).mp hentry
  exact (htaken i hi).admits hheld

open Testing in
set_option maxRecDepth 100000 in
/-- Bob's replica takes the four entries that his removal by Alice rests on. -/
theorem rests_admit_past_bob :
    let family := ((Store.createdBy alice).invite alice 1 bob).act .removed bob 2 alice 1
    ∃ past, departurePast family.membershipView family.entries bob.id = some past ∧
      past.card = 4 ∧ ∀ entry ∈ past, (Rests.of family.entries bob.id).admits entry.1 = true := by
  intro family
  have hfour : (departurePast family.membershipView family.entries bob.id).map Finset.card =
      some 4 := by decide +kernel
  have hcounted : ∀ p ∈ family.entries.zipIdx, (Parsed.eventAt p).isSome = true →
      family.membershipView.verdicts[p.2]? = some .counted := by decide +kernel
  obtain ⟨past, hpast, hcard⟩ := Option.map_eq_some_iff.mp hfour
  refine ⟨past, hpast, hcard, rests_admit_past _ _ _ past hpast fun i held hheld _ hevent => ?_⟩
  exact hcounted (held, i) (List.mem_zipIdx_iff_getElem?.mpr hheld) hevent

end Taken

/-! ## How far chains are looked up -/

namespace Past

/-- The highest sequence at which an event of a chain is held. -/
def highest (entries : List HeldEntry) (chain : PdnId) : ℕ :=
  ((Parsed.of entries).present chain).sup id

/-- The positions that `departure_past` looks up through `chain_upto`. -/
def looked (membership : MembershipView) (entries : List HeldEntry) (member : PdnId) :
    List Point :=
  ((visited membership entries member).getD []).flatMap (Index.of membership entries).lookups

/-- The departure of a member rests on an entry: a removed event that counts where the membership
ended, or a left event where none does, depends on it through some entries. -/
def RestsOn (membership : MembershipView) (entries : List HeldEntry) (member : PdnId) (i : ℕ) :
    Prop :=
  ∃ departed, (membership.member member).bind Member.departedAt = some departed ∧
    ∃ event, CountedAt entries membership member departed event ∧
      (event.kind = .removed ∨ event.kind = .left ∧ ∀ other,
        CountedAt entries membership member departed other → other.kind ≠ .removed) ∧
      Relation.ReflTransGen (fun a b => b ∈ (Index.of membership entries).dependsOn a)
        event.entry i

/-- The events that a member's departure leads to: the removed events that count where the
membership ended, or the left events where no removal does; and with an event those before it in its
chain, those of its actor's chain up to the sequence it names, and the one with its actor's key. -/
inductive LeadsTo (membership : MembershipView) (entries : List HeldEntry) (member : PdnId) :
    MeePdn.Event → Prop
  | departing {departed : ℕ} {event : MeePdn.Event}
      (hdeparted : (membership.member member).bind Member.departedAt = some departed)
      (hcounted : CountedAt entries membership member departed event)
      (hkind : event.kind = .removed ∨ event.kind = .left ∧ ∀ other,
        CountedAt entries membership member departed other → other.kind ≠ .removed) :
      LeadsTo membership entries member event
  | before {later event : MeePdn.Event} (h : LeadsTo membership entries member later)
      (hevent : event ∈ (Parsed.of entries).events) (hsubject : event.subject = later.subject)
      (h1 : 1 ≤ event.seq) (hle : event.seq ≤ later.seq - 1) :
      LeadsTo membership entries member event
  | named {naming event : MeePdn.Event} (h : LeadsTo membership entries member naming)
      (hevent : event ∈ (Parsed.of entries).events) (hsubject : event.subject = naming.actor)
      (h1 : 1 ≤ event.seq) (hle : event.seq ≤ naming.actorSeq) :
      LeadsTo membership entries member event
  | carrier {acting event : MeePdn.Event} (h : LeadsTo membership entries member acting)
      (hevent : event ∈ (Parsed.of entries).events)
      (hkey : (Index.of membership entries).keyEvent acting.actor = some event.entry) :
      LeadsTo membership entries member event

/-- The positions on an event's walk: of its chain before it, and of its actor's up to the sequence
it names. -/
def walked (event : MeePdn.Event) : Finset Point :=
  (Finset.Icc 1 (event.seq - 1)).image (fun seq => (event.subject, seq)) ∪
    (Finset.Icc 1 event.actorSeq).image fun seq => (event.actor, seq)

/-- The positions on an event's walk at which an event is held. -/
def met (entries : List HeldEntry) (event : MeePdn.Event) : Finset Point :=
  (walked event).filter fun point => point.2 ∈ (Parsed.of entries).present point.1

/-- The steps of an event's walk that meet nothing new: the positions at which nothing is held, and
those walked twice, as the event's own chain and as its actor's. -/
def idle (entries : List HeldEntry) (event : MeePdn.Event) : ℕ :=
  ((walked event).filter fun point => point.2 ∉ (Parsed.of entries).present point.1).card +
    if event.subject = event.actor then min (event.seq - 1) event.actorSeq else 0

variable {membership : MembershipView} {member : PdnId} {i : ℕ}

/-- **What is visited** is what the departure rests on. -/
lemma mem_visited : (∃ past, visited membership entries member = some past ∧ i ∈ past) ↔
    RestsOn membership entries member i := by
  rw [visited]
  constructor
  · rintro ⟨past, hpast, hi⟩
    split at hpast
    · cases hpast
    next departed hbind =>
    obtain ⟨kind, hkind, rfl⟩ := Option.map_eq_some_iff.mp hpast
    obtain ⟨event, hevent, hpoint, rfl, hcounted, hpath⟩ := Index.mem_past.mp hi
    refine ⟨departed, hbind, event, ⟨hevent, hpoint, hcounted⟩, ?_, hpath⟩
    refine (Index.departing_eq_some hkind).1.imp_right fun h => ⟨h.1, ?_⟩
    rintro other ⟨hother, hotherPoint, hcounts⟩ hremoved
    exact h.2 other hother hotherPoint hremoved hcounts
  · rintro ⟨departed, hbind, event, ⟨hevent, hpoint, hcounted⟩, hkind, hpath⟩
    have hsome : ((Index.of membership entries).departing (member, departed)).isSome = true :=
      Index.isSome_departing hevent hpoint (hkind.imp_right And.left) hcounted
    obtain ⟨kind, hdeparting⟩ := Option.isSome_iff_exists.mp hsome
    obtain ⟨hwhich, other, hother, hotherPoint, hotherKind, hotherCounted⟩ :=
      Index.departing_eq_some hdeparting
    have hsame : event.kind = kind := by
      rcases hkind with hremoved | ⟨hleft, hnone⟩
      · grind
      · rcases hwhich with rfl | ⟨rfl, -⟩
        · exact absurd hotherKind (hnone other ⟨hother, hotherPoint, hotherCounted⟩)
        · exact hleft
    refine ⟨(Index.of membership entries).past (member, departed) kind,
      by rw [hbind]; simp only [hdeparting, Option.map_some], ?_⟩
    exact Index.mem_past.mpr ⟨event, hevent, hpoint, hsame, hcounted, hpath⟩

lemma LeadsTo.mem_events {event : MeePdn.Event} (h : LeadsTo membership entries member event) :
    event ∈ (Parsed.of entries).events := by
  cases h with
  | departing _ hcounted => exact hcounted.1
  | before _ hevent | named _ hevent | carrier _ hevent => exact hevent

/-- **The events a departure rests on are those it leads to**: a statement on the way stands for the
event whose author it lists. -/
lemma restsOn_iff {event : MeePdn.Event} (hevent : event ∈ (Parsed.of entries).events) :
    RestsOn membership entries member event.entry ↔ LeadsTo membership entries member event := by
  constructor
  · rintro ⟨departed, hdeparted, root, hroot, hkind, hpath⟩
    have hreached : ∀ i, Relation.ReflTransGen
        (fun a b => b ∈ (Index.of membership entries).dependsOn a) root.entry i →
        (∃ e, LeadsTo membership entries member e ∧ e.entry = i) ∨
          ∃ statement ∈ (Parsed.of entries).statements, statement.entry = i ∧
            ∃ e, LeadsTo membership entries member e ∧ statement.member = e.actor := by
      intro i hpath
      induction hpath with
      | refl => exact Or.inl ⟨root, .departing hdeparted hroot hkind, rfl⟩
      | tail _ hstep ih =>
        rcases ih with ⟨e, he, rfl⟩ | ⟨statement, hstatement, rfl, e, he, hactor⟩
        · obtain ⟨held, hat, -⟩ := Parsed.mem_events.mp he.mem_events
          rcases (Index.mem_dependsOn_event he.mem_events hat).mp hstep with
            hbefore | hnamed | hlisting | hkey
          · obtain ⟨f, hf, hentry, hsubject, h1, hle⟩ := Index.mem_chainUpto.mp hbefore
            exact Or.inl ⟨f, he.before hf hsubject h1 hle, hentry⟩
          · obtain ⟨f, hf, hentry, hsubject, h1, hle⟩ := Index.mem_chainUpto.mp hnamed
            exact Or.inl ⟨f, he.named hf hsubject h1 hle, hentry⟩
          · obtain ⟨statement, hstatement, hentry, hmember, -⟩ :=
              Index.mem_statementsListing hlisting
            exact Or.inr ⟨statement, hstatement, hentry, e, he, hmember⟩
          · obtain ⟨f, hf, rfl, -⟩ := Index.keyEvent_eq_some hkey
            exact Or.inl ⟨f, he.carrier hf hkey, rfl⟩
        · have hkey := (Index.mem_dependsOn_statement hstatement).mp hstep
          rw [hactor] at hkey
          obtain ⟨f, hf, rfl, -⟩ := Index.keyEvent_eq_some hkey
          exact Or.inl ⟨f, he.carrier hf hkey, rfl⟩
    rcases hreached _ hpath with ⟨e, he, hentry⟩ | ⟨statement, hstatement, hentry, -⟩
    · rwa [← Parsed.eq_of_entry he.mem_events hevent hentry]
    · exact absurd hentry.symm (Parsed.entry_ne hevent hstatement)
  · intro h
    have hstep : ∀ {e : MeePdn.Event} {i : ℕ}, LeadsTo membership entries member e →
        RestsOn membership entries member e.entry →
        i ∈ (Index.of membership entries).dependsOn e.entry → RestsOn membership entries member i :=
      fun _ ⟨departed, hdeparted, root, hroot, hkind, hpath⟩ hi =>
        ⟨departed, hdeparted, root, hroot, hkind, hpath.tail hi⟩
    induction h with
    | departing hdeparted hcounted hkind => exact ⟨_, hdeparted, _, hcounted, hkind, .refl⟩
    | before h hf hsubject h1 hle ih =>
      obtain ⟨held, hat, -⟩ := Parsed.mem_events.mp h.mem_events
      exact hstep h (ih h.mem_events) ((Index.mem_dependsOn_event h.mem_events hat).mpr
        (Or.inl (Index.mem_chainUpto.mpr ⟨_, hf, rfl, hsubject, h1, hle⟩)))
    | named h hf hsubject h1 hle ih =>
      obtain ⟨held, hat, -⟩ := Parsed.mem_events.mp h.mem_events
      exact hstep h (ih h.mem_events) ((Index.mem_dependsOn_event h.mem_events hat).mpr
        (Or.inr (Or.inl (Index.mem_chainUpto.mpr ⟨_, hf, rfl, hsubject, h1, hle⟩))))
    | carrier h hf hkey ih =>
      obtain ⟨held, hat, -⟩ := Parsed.mem_events.mp h.mem_events
      exact hstep h (ih h.mem_events) ((Index.mem_dependsOn_event h.mem_events hat).mpr
        (Or.inr (Or.inr (Or.inr hkey))))

/-- The positions looked up: those of the chains of the events the departure leads to, before the
event itself and up to the point it names. -/
lemma mem_looked {point : Point} : point ∈ looked membership entries member ↔
    ∃ event, LeadsTo membership entries member event ∧ 1 ≤ point.2 ∧
      (point.1 = event.subject ∧ point.2 ≤ event.seq - 1 ∨
        point.1 = event.actor ∧ point.2 ≤ event.actorSeq) := by
  have hpoints : ∀ (chain : PdnId) (upto : ℕ), point ∈ Index.chainPoints chain upto ↔
      1 ≤ point.2 ∧ point.1 = chain ∧ point.2 ≤ upto := by grind [Index.chainPoints]
  rw [looked, List.mem_flatMap]
  constructor
  · rintro ⟨i, hi, hpoint⟩
    have hrests : RestsOn membership entries member i := by
      cases hvisited : visited membership entries member with
      | none =>
        rw [hvisited] at hi
        exact absurd hi List.not_mem_nil
      | some past =>
        rw [hvisited] at hi
        exact mem_visited.mp ⟨past, hvisited, hi⟩
    rw [Index.lookups] at hpoint
    split at hpoint
    · next found hfound =>
      have hentry : found.entry = i := by simpa using List.find?_some hfound
      have hmem := (Index.mem_events_of.mp (List.mem_of_find?_eq_some hfound)).1
      rw [List.mem_append, hpoints, hpoints] at hpoint
      refine ⟨found.toEvent, (restsOn_iff hmem).mp (hentry ▸ hrests), ?_⟩
      rcases hpoint with ⟨h1, hwhere⟩ | ⟨h1, hwhere⟩
      · exact ⟨h1, Or.inl hwhere⟩
      · exact ⟨h1, Or.inr hwhere⟩
    · exact absurd hpoint List.not_mem_nil
  · rintro ⟨event, hleads, h1, hwhere⟩
    have hevent := hleads.mem_events
    obtain ⟨past, hpast, hin⟩ := mem_visited.mpr ((restsOn_iff hevent).mpr hleads)
    refine ⟨event.entry, by rwa [hpast], ?_⟩
    rw [Index.lookups, Index.byEntry_of hevent]
    simp only [List.mem_append, hpoints]
    exact hwhere.imp (fun h => ⟨h1, h⟩) fun h => ⟨h1, h⟩

lemma seq_le_highest {event : MeePdn.Event} (h : event ∈ (Parsed.of entries).events) :
    event.seq ≤ highest entries event.subject :=
  Finset.le_sup (f := id) (Parsed.mem_present.mpr ⟨event, h, rfl, rfl⟩)

lemma length_lookups {event : MeePdn.Event} (h : event ∈ (Parsed.of entries).events) :
    ((Index.of membership entries).lookups event.entry).length =
      event.seq - 1 + event.actorSeq := by
  rw [Index.lookups, Index.byEntry_of h]
  simp [Index.chainPoints]

/-- The positions on a walk, with those walked twice. -/
lemma card_walked (event : MeePdn.Event) :
    (walked event).card + (if event.subject = event.actor then
      min (event.seq - 1) event.actorSeq else 0) = event.seq - 1 + event.actorSeq := by
  have hinj : ∀ chain : PdnId, Function.Injective fun seq : ℕ => (chain, seq) :=
    fun _ _ _ h => (Prod.mk.inj h).2
  have hsum := Finset.card_union_add_card_inter
    ((Finset.Icc 1 (event.seq - 1)).image fun seq => (event.subject, seq))
    ((Finset.Icc 1 event.actorSeq).image fun seq => (event.actor, seq))
  rw [Finset.card_image_of_injective _ (hinj _), Finset.card_image_of_injective _ (hinj _),
    Nat.card_Icc, Nat.card_Icc, Nat.add_sub_cancel, Nat.add_sub_cancel] at hsum
  rw [← hsum, walked, Nat.add_left_cancel_iff]
  split
  · next hself =>
    have hboth : Finset.Icc 1 (event.seq - 1) ∩ Finset.Icc 1 event.actorSeq =
        Finset.Icc 1 (min (event.seq - 1) event.actorSeq) := by grind
    rw [hself, ← Finset.image_inter _ _ (hinj _), Finset.card_image_of_injective _ (hinj _), hboth,
      Nat.card_Icc, Nat.add_sub_cancel]
  · next hother =>
    refine (Finset.card_eq_zero.mpr (Finset.disjoint_iff_inter_eq_empty.mp ?_)).symm
    refine Finset.disjoint_left.mpr fun point h h' => hother ?_
    obtain ⟨seq, -, rfl⟩ := Finset.mem_image.mp h
    obtain ⟨seq', -, heq⟩ := Finset.mem_image.mp h'
    exact (Prod.mk.inj heq).1.symm

lemma card_met_le (event : MeePdn.Event) : (met entries event).card ≤ entries.length := by
  have hsub : met entries event ⊆ ((Parsed.of entries).events.map MeePdn.Event.point).toFinset := by
    intro point hpoint
    obtain ⟨e, he, hsubject, hseq⟩ := Parsed.mem_present.mp (Finset.mem_filter.mp hpoint).2
    exact List.mem_toFinset.mpr (List.mem_map.mpr ⟨e, he, Prod.ext hsubject hseq⟩)
  calc (met entries event).card
      ≤ ((Parsed.of entries).events.map MeePdn.Event.point).length :=
        (Finset.card_le_card hsub).trans (List.toFinset_card_le _)
    _ ≤ entries.zipIdx.length := by
        rw [List.length_map]
        exact List.length_filterMap_le _ _
    _ = entries.length := List.length_zipIdx

/-- A walk is no longer than the store exactly where its idle steps find room beside the entries
met. -/
lemma walk_le_iff (event : MeePdn.Event) :
    event.seq - 1 + event.actorSeq ≤ entries.length ↔
      idle entries event ≤ entries.length - (met entries event).card := by
  have hmet : (met entries event).card ≤ entries.length := card_met_le event
  have hsplit := Finset.card_filter_add_card_filter_not (s := walked event)
    fun point => point.2 ∈ (Parsed.of entries).present point.1
  rw [← card_walked, ← hsplit, idle]
  change (met entries event).card + _ + _ ≤ _ ↔ _
  omega

end Past

end MeePdn
