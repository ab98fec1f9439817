import MeePdn.DataLayer.Pod.MembershipView.View

/-!
# The checks over more entries

What the checks find of an entry rests on the entry and on what other entries give: keys, devices
and runs. All of these only grow with the entries held, so that a candidate stays one; and lists
that hold the same entries give the same.

## Main definitions

* `SameEntry`, `Moved` — an entry at its place in another list, and the event it is there.

## Main results

* `run_mono`, `keys_mono`, `devices_mono` — what more entries can only add to.
* `Moved.refusal_eq` — an event meets the same checks where authors and runs are the same.
* `Moved.candidate_mono` — **a candidate stays one** over more entries.
-/

namespace MeePdn

/-! ## The same entry in two lists -/

/-- One entry is held at a place of one list and at a place of another. -/
def SameEntry (entries entries' : List HeldEntry) (i i' : ℕ) : Prop :=
  ∃ held, entries[i]? = some held ∧ entries'[i']? = some held

/-- One event, each time with the place its entry has in a list. -/
def Moved (entries entries' : List HeldEntry) (event event' : Event) : Prop :=
  SameEntry entries entries' event.entry event'.entry ∧
    event' = { event with entry := event'.entry }

variable {entries entries' : List HeldEntry}

lemma SameEntry.exists_of_mem {i : ℕ} {held : HeldEntry}
    (h : entries[i]? = some held) (hheld : held ∈ entries') :
    ∃ i', SameEntry entries entries' i i' := by
  obtain ⟨i', hi'⟩ := List.getElem?_of_mem hheld
  exact ⟨i', held, h, hi'⟩

lemma SameEntry.symm {i i' : ℕ}
    (h : SameEntry entries entries' i i') : SameEntry entries' entries i' i := by
  obtain ⟨held, hi, hi'⟩ := h
  exact ⟨held, hi', hi⟩

lemma SameEntry.getElem?_eq {i i' : ℕ}
    (h : SameEntry entries entries' i i') : entries[i]? = entries'[i']? := by
  obtain ⟨held, hi, hi'⟩ := h
  rw [hi, hi']

namespace Moved

variable {entries entries' : List HeldEntry} {event event' : Event}

lemma symm (h : Moved entries entries' event event') : Moved entries' entries event' event := by
  obtain ⟨hsame, heq⟩ := h
  refine ⟨hsame.symm, ?_⟩
  rw [heq]

lemma subject (h : Moved entries entries' event event') : event'.subject = event.subject := by
  rw [h.2]

lemma seq (h : Moved entries entries' event event') : event'.seq = event.seq := by rw [h.2]

lemma kind (h : Moved entries entries' event event') : event'.kind = event.kind := by rw [h.2]

lemma actor (h : Moved entries entries' event event') : event'.actor = event.actor := by rw [h.2]

lemma actorSeq (h : Moved entries entries' event event') : event'.actorSeq = event.actorSeq := by
  rw [h.2]

lemma mem_events (h : Moved entries entries' event event')
    (hevent : event ∈ (Parsed.of entries).events) : event' ∈ (Parsed.of entries').events := by
  obtain ⟨held, hheld, hat⟩ := Parsed.mem_events.mp hevent
  obtain ⟨held', hi, hi'⟩ := h.1
  obtain rfl := Option.some.inj (hheld.symm.trans hi)
  refine Parsed.mem_events.mpr ⟨held, hi', ?_⟩
  rw [h.2]
  exact Parsed.eventAt_moved hat _

lemma exists_of_mem {held : HeldEntry} (hevent : event ∈ (Parsed.of entries).events)
    (hat : entries[event.entry]? = some held) (hheld : held ∈ entries') :
    ∃ event' ∈ (Parsed.of entries').events, Moved entries entries' event event' := by
  obtain ⟨i', hsame⟩ := SameEntry.exists_of_mem hat hheld
  have hmoved : Moved entries entries' event { event with entry := i' } := ⟨hsame, rfl⟩
  exact ⟨_, hmoved.mem_events hevent, hmoved⟩

lemma exists_of_subset (hsub : entries ⊆ entries') (hevent : event ∈ (Parsed.of entries).events) :
    ∃ event' ∈ (Parsed.of entries').events, Moved entries entries' event event' := by
  obtain ⟨held, hheld, -⟩ := Parsed.mem_events.mp hevent
  exact exists_of_mem hevent hheld (hsub (List.mem_of_getElem? hheld))

end Moved

/-! ## The checks on one entry -/

section OneEntry

variable {prims : Primitives} {pod : PodId} {store : NamespaceId}
  {entries entries' : List HeldEntry} {event event' : Event} {i i' : ℕ}

lemma SameEntry.payload_eq (h : SameEntry entries entries' i i') :
    Alone.payload entries' i' = Alone.payload entries i := by
  rw [Alone.payload, Alone.payload, h.getElem?_eq]

lemma SameEntry.author_eq (h : SameEntry entries entries' i i') :
    Alone.author entries' i' = Alone.author entries i := by
  rw [Alone.author, Alone.author, h.getElem?_eq]

lemma SameEntry.listedDevices_eq (h : SameEntry entries entries' i i') :
    Alone.listedDevices entries' i' = Alone.listedDevices entries i := by
  rw [Alone.listedDevices, Alone.listedDevices, h.payload_eq]

lemma Moved.carriedKey_eq (h : Moved entries entries' event event') :
    Alone.carriedKey entries' event' = Alone.carriedKey entries event := by
  rw [Alone.carriedKey, Alone.carriedKey, h.1.payload_eq, h.kind]

lemma Moved.joiningDevice_eq (h : Moved entries entries' event event') :
    Alone.joiningDevice prims pod entries' event' =
      Alone.joiningDevice prims pod entries event := by
  rw [Alone.joiningDevice, Alone.joiningDevice, h.1.payload_eq, h.kind, h.subject, h.seq]

lemma Moved.kindAlone_eq (h : Moved entries entries' event event') :
    Alone.kindAlone prims pod store entries' event' =
      Alone.kindAlone prims pod store entries event := by
  unfold Alone.kindAlone Alone.creationAlone Alone.joiningAlone
  simp only [h.1.payload_eq, h.kind, h.subject, h.seq, h.actor, h.actorSeq]

/-- **A moved event meets the same checks** where its actor's authors and the runs are the same. -/
lemma Moved.refusal_eq {authors authors' : PdnId → Finset AuthorId}
    (h : Moved entries entries' event event')
    (hauthors : authors' event.actor = authors event.actor)
    (hactor : (Parsed.of entries').run event.actor = (Parsed.of entries).run event.actor)
    (hsubject : (Parsed.of entries').run event.subject = (Parsed.of entries).run event.subject) :
    Alone.refusal prims pod store entries' (Parsed.of entries') authors' event' =
      Alone.refusal prims pod store entries (Parsed.of entries) authors event := by
  have halone : Alone.alone prims pod store entries' (Parsed.of entries') authors' event' =
      Alone.alone prims pod store entries (Parsed.of entries) authors event := by
    unfold Alone.alone
    rw [h.kindAlone_eq, h.1.author_eq, h.subject, h.seq, h.actor, h.actorSeq, hauthors,
      Parsed.holds, Parsed.holds, Parsed.holds, Parsed.holds, hactor, hsubject]
  rw [Alone.refusal, halone, Alone.refusal]

end OneEntry

/-! ## What more entries add to -/

section Growth

variable {prims : Primitives} {pod : PodId} {store : NamespaceId}
  {entries entries' : List HeldEntry} {event event' : Event} {statement : Statement}

lemma present_mono (hsub : entries ⊆ entries') {member : PdnId} {seq : ℕ}
    (h : seq ∈ (Parsed.of entries).present member) : seq ∈ (Parsed.of entries').present member := by
  obtain ⟨event, hevent, hsubject, hseq⟩ := Parsed.mem_present.mp h
  obtain ⟨event', hevent', hmoved⟩ := Moved.exists_of_subset hsub hevent
  exact Parsed.mem_present.mpr
    ⟨event', hevent', hmoved.subject.trans hsubject, hmoved.seq.trans hseq⟩

/-- **Runs only grow.** -/
lemma run_mono (hsub : entries ⊆ entries') (member : PdnId) :
    (Parsed.of entries).run member ≤ (Parsed.of entries').run member :=
  Parsed.le_run_iff.mpr fun s h1 hs => present_mono hsub (Parsed.le_run_iff.mp le_rfl s h1 hs)

/-- Every event of a list is in another. -/
def HoldsEvents (entries entries' : List HeldEntry) : Prop :=
  ∀ event ∈ (Parsed.of entries).events, ∃ event' ∈ (Parsed.of entries').events,
    Moved entries entries' event event'

lemma holdsEvents_of_subset (hsub : entries ⊆ entries') : HoldsEvents entries entries' :=
  fun _ hevent => Moved.exists_of_subset hsub hevent

lemma exists_key (hevent : event ∈ (Parsed.of entries).events) {key : Bytes 32}
    (hcarried : Alone.carriedKey entries event = some key)
    (hkey : pdnIdOf prims key = event.subject) :
    ∃ found, (checksOf prims pod store entries).keys event.subject = some found ∧
      pdnIdOf prims found = event.subject := by
  rw [(Alone.of_checked prims pod store entries).keys]
  obtain ⟨hfrom, hto⟩ := Alone.findKeys_spec event.subject
  obtain ⟨found, hfound⟩ := Option.isSome_iff_exists.mp (hto event hevent rfl key hcarried hkey)
  exact ⟨found, hfound, (hfrom found hfound).1⟩

/-- **An identity key found stays found** where the events are held: only one key derives an
identity. -/
lemma keys_mono (hinj : prims.Injective) (hevents : HoldsEvents entries entries')
    {member : PdnId} {key : Bytes 32}
    (h : (checksOf prims pod store entries).keys member = some key) :
    (checksOf prims pod store entries').keys member = some key := by
  rw [(Alone.of_checked prims pod store entries).keys] at h
  obtain ⟨hid, event, hevent, rfl, hcarried⟩ := (Alone.findKeys_spec member).1 key h
  obtain ⟨event', hevent', hmoved⟩ := hevents event hevent
  obtain ⟨found, hfound, hderives⟩ := exists_key hevent' (hmoved.carriedKey_eq.trans hcarried)
    (hid.trans hmoved.subject.symm)
  rw [hmoved.subject] at hfound hderives
  rw [hfound, hinj (hderives.trans hid.symm)]

lemma exists_statement_of_mem {held : HeldEntry} (h : statement ∈ (Parsed.of entries).statements)
    (hat : entries[statement.entry]? = some held) (hheld : held ∈ entries') :
    ∃ i', SameEntry entries entries' statement.entry i' ∧
      { statement with entry := i' } ∈ (Parsed.of entries').statements := by
  obtain ⟨held', hat', hstatement⟩ := Parsed.mem_statements.mp h
  obtain rfl := Option.some.inj (hat.symm.trans hat')
  obtain ⟨i', hi'⟩ := List.getElem?_of_mem hheld
  exact ⟨i', ⟨held, hat, hi'⟩,
    Parsed.mem_statements.mpr ⟨held, hi', Parsed.statementAt_moved hstatement i'⟩⟩

lemma exists_statement_of_subset (hsub : entries ⊆ entries')
    (h : statement ∈ (Parsed.of entries).statements) :
    ∃ i', SameEntry entries entries' statement.entry i' ∧
      { statement with entry := i' } ∈ (Parsed.of entries').statements := by
  obtain ⟨held, hheld, -⟩ := Parsed.mem_statements.mp h
  exact exists_statement_of_mem h hheld (hsub (List.mem_of_getElem? hheld))

lemma SameEntry.statementVerdict_eq {keys keys' : PdnId → Option (Bytes 32)} {i' : ℕ}
    (h : SameEntry entries entries' statement.entry i')
    (hkeys : keys' statement.member = keys statement.member) :
    Alone.statementVerdict prims pod entries' keys' { statement with entry := i' } =
      Alone.statementVerdict prims pod entries keys statement := by
  unfold Alone.statementVerdict
  dsimp only
  rw [h.payload_eq, hkeys]

lemma exists_key_of_counted {keys : PdnId → Option (Bytes 32)}
    (h : Alone.statementVerdict prims pod entries keys statement = .counted) :
    ∃ key, keys statement.member = some key := by
  obtain ⟨devices, hdevices⟩ := Alone.listedDevices_isSome h
  unfold Alone.statementVerdict at h
  unfold Alone.listedDevices at hdevices
  split at h
  · next hpayload => simp [hpayload] at hdevices
  · grind

/-- **A statement that counts keeps counting.** -/
lemma counted_mono (hinj : prims.Injective) (hevents : HoldsEvents entries entries') {i' : ℕ}
    (h : SameEntry entries entries' statement.entry i')
    (hcounted : Alone.statementVerdict prims pod entries (checksOf prims pod store entries).keys
      statement = .counted) :
    Alone.statementVerdict prims pod entries' (checksOf prims pod store entries').keys
      { statement with entry := i' } = .counted := by
  grind [exists_key_of_counted, keys_mono, h.statementVerdict_eq]

/-- **A device listed stays listed** where the events are held, and the statements that list it. -/
lemma mem_devices_mono (hinj : prims.Injective) (hevents : HoldsEvents entries entries')
    {member : PdnId} {device : MemberDevice}
    (hstatements : ∀ statement ∈ (Parsed.of entries).statements,
      Alone.Lists prims pod entries (checksOf prims pod store entries).keys statement member
        device → ∃ i', SameEntry entries entries' statement.entry i' ∧
        { statement with entry := i' } ∈ (Parsed.of entries').statements)
    (hdevice : device ∈ (checksOf prims pod store entries).devices member) :
    device ∈ (checksOf prims pod store entries').devices member := by
  rw [(Alone.of_checked prims pod store entries).mem_devices] at hdevice
  rw [(Alone.of_checked prims pod store entries').mem_devices]
  rcases hdevice with ⟨statement, hstatement, hlists⟩ | ⟨event, hevent, hsubject, hjoining⟩
  · obtain ⟨i', hsame, hmem⟩ := hstatements statement hstatement hlists
    obtain ⟨hmember, hcounted, devices, hlisted, hin⟩ := hlists
    exact Or.inl ⟨_, hmem, hmember, counted_mono hinj hevents hsame hcounted, devices,
      hsame.listedDevices_eq.trans hlisted, hin⟩
  · obtain ⟨event', hevent', hmoved⟩ := hevents event hevent
    exact Or.inr ⟨event', hevent', hmoved.subject.trans hsubject,
      hmoved.joiningDevice_eq.trans hjoining⟩

lemma devices_mono (hinj : prims.Injective) (hsub : entries ⊆ entries') (member : PdnId) :
    (checksOf prims pod store entries).devices member ⊆
      (checksOf prims pod store entries').devices member :=
  fun _ hdevice => mem_devices_mono hinj (holdsEvents_of_subset hsub)
    (fun _ hstatement _ => exists_statement_of_subset hsub hstatement) hdevice

lemma authors_mono (hinj : prims.Injective) (hsub : entries ⊆ entries') (member : PdnId) :
    (checksOf prims pod store entries).authors member ⊆
      (checksOf prims pod store entries').authors member := by
  rw [(Alone.of_checked prims pod store entries).authors,
    (Alone.of_checked prims pod store entries').authors]
  exact Finset.image_subset_image (devices_mono hinj hsub member)

lemma statementVersions_mono (hinj : prims.Injective) (hsub : entries ⊆ entries')
    (member : PdnId) : (checksOf prims pod store entries).statementVersions member ≤
      (checksOf prims pod store entries').statementVersions member := by
  rw [(Alone.of_checked prims pod store entries).versions_le]
  intro statement hstatement hmember hcounted
  obtain ⟨i', hsame, hmem⟩ := exists_statement_of_subset hsub hstatement
  exact ((Alone.of_checked prims pod store entries').versions_le member _).mp le_rfl
    { statement with entry := i' } hmem hmember
    (counted_mono hinj (holdsEvents_of_subset hsub) hsame hcounted)

/-- **A candidate stays one** over more entries. -/
lemma Moved.candidate_mono (hinj : prims.Injective) (hsub : entries ⊆ entries')
    (h : Moved entries entries' event event')
    (hevent : event ∈ (candidatesOf prims pod store entries).list) :
    event' ∈ (candidatesOf prims pod store entries').list := by
  obtain ⟨hmem, hpass⟩ := mem_candidatesOf.mp hevent
  refine mem_candidatesOf.mpr ⟨h.mem_events hmem, ?_⟩
  obtain ⟨hseq, hkind, ⟨author, hauthor, hlisted⟩, hactor, hsubject⟩ :=
    Alone.refusal_eq_none_iff.mp hpass
  refine Alone.refusal_eq_none_iff.mpr ⟨by rwa [h.seq], h.kindAlone_eq.trans hkind,
    ⟨author, h.1.author_eq.trans hauthor, ?_⟩, ?_, ?_⟩
  · rw [h.actor]
    exact authors_mono hinj hsub _ hlisted
  · rw [h.actorSeq, h.actor]
    exact hactor.trans (run_mono hsub _)
  · rw [h.seq, h.subject]
    exact hsubject.trans (run_mono hsub _)

end Growth

end MeePdn
