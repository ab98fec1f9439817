import MeePdn.Worklist
import MeePdn.DataLayer.Pod.MembershipView.View

/-!
# A departure's past

The entries of a membership store that a former member's departure depends on, which is all a
member device serves it and takes from it; and the points of the chains that the departure rests
on, at which the former member's own replica takes every event. The module models
`data-layer/src/pod/past.rs`.

## Main definitions

* `Past.Index` — the store's entries by what each depends on.
* `departurePast` — the past of a member's departure.
* `Rests` — what a replica whose own identity departed takes from a member device.

## Main results

* `Past.mem_dependsOn_event`, `Past.mem_dependsOn_statement` — what an entry depends on.
* `mem_departurePast` — the past is what the departing events reach.
* `Rests.of_closed` — the points taken are closed under what their events name.
* `rests_least` — **the marks of `Rests::of` are the least that are**.
-/

namespace MeePdn

/-- An entry of the past, as a session's filters name it. -/
abbrev PastEntry := List UInt8 × AuthorId

namespace Past

/-- An event, and whether the view counts it. -/
structure Event extends MeePdn.Event where
  counted : Bool
deriving DecidableEq

/-- The store's entries by what each depends on. -/
structure Index where
  entries : List HeldEntry
  /-- Every event entry, whatever it counts for: a sequence is held once any entry sits at it. -/
  events : List Event
  /-- The counted statements. -/
  statements : List Statement

namespace Index

/-- `Index::of`. -/
def of (membership : MembershipView) (entries : List HeldEntry) : Index where
  entries := entries
  events := (entries.zipIdx.filterMap Parsed.eventAt).map fun event =>
    { event with counted := membership.verdicts[event.entry]? = some .counted }
  statements := (entries.zipIdx.filterMap Parsed.statementAt).filter fun statement =>
    membership.verdicts[statement.entry]? = some .counted

variable (index : Index)

/-- The events at a sequence of a chain. -/
def eventsAt (point : Point) : List Event :=
  index.events.filter fun event => event.point = point

/-- The event an entry is. -/
def byEntry (entry : ℕ) : Option Event := index.events.find? fun event => event.entry = entry

/-- `Index::run`: the last sequence before the first one holding no entry. -/
def run (member : PdnId) : ℕ :=
  let held := ((index.events.filter fun event => event.subject = member).map
    fun event => event.seq).toFinset
  Parsed.countRun held held.card 0

/-- The positions `chain_upto` looks up. -/
def chainPoints (member : PdnId) (upto : ℕ) : List Point :=
  (List.range' 1 upto).map fun seq => (member, seq)

/-- `Index::chain_upto`: the entries held at each sequence from 1. -/
def chainUpto (member : PdnId) (upto : ℕ) : List ℕ :=
  (chainPoints member upto).flatMap fun point =>
    (index.eventsAt point).map fun event => event.entry

/-- `Index::key_event`: the event of the member's chain carrying its identity key, its counted
created or joined event of the lowest sequence. -/
def keyEvent (member : PdnId) : Option ℕ :=
  (List.range' 1 (index.run member)).findSome? fun seq =>
    (index.eventsAt (member, seq)).findSome? fun event =>
      if event.counted ∧ (event.kind = .created ∨ event.kind = .joined) then some event.entry
      else none

/-- The versions of a member's counted statements, from the lowest. -/
def versions (member : PdnId) : List UInt64 :=
  ((index.statements.filter fun statement => statement.member = member).map
    Statement.version).dedup.insertionSort (· ≤ ·)

/-- Whether an entry's bytes read as a statement that lists the author. -/
def lists (author : AuthorId) (entry : ℕ) : Bool :=
  ((index.entries[entry]?.bind fun held => held.payload.bytes).bind DevicesPayload.decode).any
    fun payload => payload.devices.any fun device => device.author = author

/-- `Index::statements_listing`: the member's counted statements of the lowest version listing the
author. -/
def statementsListing (member : PdnId) (author : AuthorId) : List ℕ :=
  ((index.versions member).findSome? fun version =>
    let listing := ((index.statements.filter fun statement =>
      statement.member = member ∧ statement.version = version).map Statement.entry).filter
        (index.lists author)
    if listing = [] then none else some listing).getD []

/-- `Index::depends_on`. -/
def dependsOn (entry : ℕ) : List ℕ :=
  match index.entries[entry]? with
  | none => []
  | some held =>
    match index.byEntry entry with
    | some event =>
      index.chainUpto event.subject (event.seq - 1) ++
        index.chainUpto event.actor event.actorSeq ++
        index.statementsListing event.actor held.author ++ (index.keyEvent event.actor).toList
    | none =>
      match MembershipKey.parse held.key with
      | some (.devices member _) => (index.keyEvent member).toList
      | _ => []

/-- The positions looked up on the way to what an entry depends on. -/
def lookups (entry : ℕ) : List Point :=
  match index.byEntry entry with
  | some event =>
    chainPoints event.subject (event.seq - 1) ++ chainPoints event.actor event.actorSeq
  | none => []

lemma dependsOn_outside (entry : ℕ) (h : entry ∉ List.range index.entries.length) :
    index.dependsOn entry = [] := by grind [dependsOn]

/-- The kind that ends a membership at a point: removed, where a removal counts there. -/
def departing (point : Point) : Option EventKind :=
  [EventKind.removed, EventKind.left].find? fun kind =>
    (index.eventsAt point).any fun event => event.kind = kind ∧ event.counted

/-- The entries that the events of a kind which count at a point depend on, with these. -/
def past (point : Point) (kind : EventKind) : List ℕ :=
  Worklist.search (List.range index.entries.length) index.dependsOn index.dependsOn_outside
    (((index.eventsAt point).filter fun event => event.kind = kind ∧ event.counted).map
      fun event => event.entry)

end Index

/-- The entries `departure_past` visits. -/
def visited (membership : MembershipView) (entries : List HeldEntry) (member : PdnId) :
    Option (List ℕ) :=
  match (membership.member member).bind Member.departedAt with
  | none => none
  | some seq =>
    let index := Index.of membership entries
    (index.departing (member, seq)).map fun kind => index.past (member, seq) kind

end Past

/-- `departure_past`: the past of a member's departure over the entries the view was built from;
nothing while the view shows no departure, whatever the member's chain holds after one. -/
def departurePast (membership : MembershipView) (entries : List HeldEntry) (member : PdnId) :
    Option (Finset PastEntry) :=
  (Past.visited membership entries member).map fun past =>
    ((past.filterMap fun entry => entries[entry]?).map fun held => (held.key, held.author)).toFinset

/-- What a replica whose own identity departed takes from a member device. -/
structure Rests where
  /-- Per chain, the highest sequence taken, with every one below it. -/
  upto : PdnId → Option ℕ
  statementsOf : Finset PdnId

variable {point : Point} {statement : Statement}

namespace Rests

/-- The events of a chain past one sequence up to another, in order. -/
def between (events : List Event) (chain : PdnId) (start upto : ℕ) : List Event :=
  (events.filter fun event =>
    event.subject = chain ∧ start < event.seq ∧ event.seq ≤ upto).insertionSort
      fun a b => a.seq ≤ b.seq

/-- One turn of the loop in `Rests::of`: a chain is taken further, up to the point named. -/
def take (events : List Event) (rests : Rests) (point : Point) : Option (Rests × List Point) :=
  let start := (rests.upto point.1).getD 0
  if point.2 ≤ start then none
  else
    let reached := between events point.1 start point.2
    some (⟨Function.update rests.upto point.1 (some point.2),
      rests.statementsOf ∪ (reached.map Event.actor).toFinset⟩, reached.map Event.actorPoint)

/-- The events not taken. -/
def left (events : List Event) (rests : Rests) : ℕ :=
  (events.filter fun event => (rests.upto event.subject).getD 0 < event.seq).length

/-- Every event pushes the point it names once, when it is taken. -/
lemma left_take {events : List Event} {rests next : Rests}
    {pushed : List Point} (h : take events rests point = some (next, pushed)) :
    left events next + pushed.length ≤ left events rests := by
  simp only [take] at h
  split at h
  · cases h
  next hmore =>
  obtain ⟨rfl, rfl⟩ := Prod.mk.inj (Option.some.inj h)
  -- what was not taken before is reached now, or still is not
  have hsplit := List.length_eq_length_filter_add
    (l := events.filter fun event => (rests.upto event.subject).getD 0 < event.seq)
    (fun event => decide (event.subject = point.1 ∧ event.seq ≤ point.2))
  rw [left, left, hsplit, List.length_map, between, List.length_insertionSort, List.filter_filter,
    List.filter_filter, add_comm]
  refine le_of_eq (congrArg₂ (· + ·) (congrArg List.length (List.filter_congr ?_))
    (congrArg List.length (List.filter_congr ?_)))
  · grind
  · grind

lemma isSome_of (events : List Event) (rests : Rests) (work : List Point) :
    (Worklist.run (take events) (left events rests + work.length) rests work).isSome = true :=
  Worklist.isSome_run (left events) (fun _ _ _ _ => left_take) _ _ _ le_rfl

/-- `Rests::of`, over the entries the replica holds, the member being its identity. -/
def of (entries : List HeldEntry) (member : PdnId) : Rests :=
  (Worklist.run (take (entries.zipIdx.filterMap Parsed.eventAt)) _ ⟨fun _ => none, {member}⟩
    [(member, UInt64.size - 1)]).get (isSome_of _ _ _)

/-- `Rests::admits`. -/
def admits (rests : Rests) (key : List UInt8) : Bool :=
  match MembershipKey.parse key with
  | some (.event subject seq _ _ _) => (rests.upto subject).any fun upto => seq.toNat ≤ upto
  | some (.devices member _) => member ∈ rests.statementsOf
  | none => false

end Rests

/-! ## What an entry depends on -/

lemma Parsed.parse_of_eventAt {held : HeldEntry} {i : ℕ} {event : Event}
    (h : eventAt (held, i) = some event) :
    ∃ seq actorSeq, MembershipKey.parse held.key =
        some (.event event.subject seq event.kind event.actor actorSeq) ∧
      seq.toNat = event.seq ∧ actorSeq.toNat = event.actorSeq := by grind [eventAt]

lemma Parsed.parse_of_statementAt {held : HeldEntry} {i : ℕ}
    (h : statementAt (held, i) = some statement) :
    MembershipKey.parse held.key = some (.devices statement.member statement.version) := by
  grind [statementAt]

namespace Past.Index

variable {membership : MembershipView} {entries : List HeldEntry} {member : PdnId} {i : ℕ}
  {event : MeePdn.Event}

lemma mem_events_of {event : Event} :
    event ∈ (of membership entries).events ↔
    event.toEvent ∈ (Parsed.of entries).events ∧
      event.counted = decide (membership.verdicts[event.entry]? = some .counted) := by
  rw [of]
  simp only [List.mem_map]
  constructor
  · rintro ⟨found, hfound, rfl⟩
    exact ⟨hfound, rfl⟩
  · rintro ⟨hfound, hcounted⟩
    exact ⟨event.toEvent, hfound, by rw [← hcounted]⟩

lemma mem_of_parsed (h : event ∈ (Parsed.of entries).events) :
    ⟨event, membership.verdicts[event.entry]? = some .counted⟩ ∈ (of membership entries).events :=
  mem_events_of.mpr ⟨h, rfl⟩

lemma mem_chainUpto {upto : ℕ} :
    i ∈ (of membership entries).chainUpto member upto ↔
    ∃ event ∈ (Parsed.of entries).events, event.entry = i ∧ event.subject = member ∧
      1 ≤ event.seq ∧ event.seq ≤ upto := by
  simp only [chainUpto, chainPoints, List.mem_flatMap, List.mem_map, List.mem_range'_1, eventsAt,
    List.mem_filter, decide_eq_true_eq]
  constructor
  · rintro ⟨_, ⟨seq, ⟨h1, hlt⟩, rfl⟩, event, ⟨hevent, hpoint⟩, rfl⟩
    obtain ⟨hsubject, hseq⟩ := Prod.mk.inj hpoint
    exact ⟨event.toEvent, (mem_events_of.mp hevent).1, rfl, hsubject, by omega, by omega⟩
  · rintro ⟨event, hevent, rfl, rfl, h1, hle⟩
    exact ⟨_, ⟨event.seq, ⟨h1, by omega⟩, rfl⟩, _, ⟨mem_of_parsed hevent, rfl⟩, rfl⟩

lemma byEntry_of (h : event ∈ (Parsed.of entries).events) :
    (of membership entries).byEntry event.entry =
      some ⟨event, membership.verdicts[event.entry]? = some .counted⟩ := by
  rw [byEntry]
  have hsome : ((of membership entries).events.find? fun found =>
      found.entry = event.entry).isSome = true :=
    List.find?_isSome.mpr ⟨_, mem_of_parsed h, decide_eq_true rfl⟩
  obtain ⟨found, hfound⟩ := Option.isSome_iff_exists.mp hsome
  obtain ⟨hmem, hcounted⟩ := mem_events_of.mp (List.mem_of_find?_eq_some hfound)
  have hentry : found.entry = event.entry := by simpa using List.find?_some hfound
  obtain rfl := Parsed.eq_of_entry hmem h hentry
  rw [hfound, ← hcounted]

lemma byEntry_of_statement (h : statement ∈ (Parsed.of entries).statements) :
    (of membership entries).byEntry statement.entry = none :=
  List.find?_eq_none.mpr fun _ hevent hentry =>
    Parsed.entry_ne (mem_events_of.mp hevent).1 h (of_decide_eq_true hentry)

/-- The event that carries a key: it counts, and none that counts lies before it. -/
lemma keyEvent_eq_some (h : (of membership entries).keyEvent member = some i) :
    ∃ event ∈ (Parsed.of entries).events, event.entry = i ∧ event.subject = member ∧
      1 ≤ event.seq ∧ membership.verdicts[event.entry]? = some .counted ∧
      (event.kind = .created ∨ event.kind = .joined) ∧
      ∀ other ∈ (Parsed.of entries).events, other.subject = member → 1 ≤ other.seq →
        membership.verdicts[other.entry]? = some .counted →
        (other.kind = .created ∨ other.kind = .joined) → event.seq ≤ other.seq := by
  rw [keyEvent, List.findSome?_eq_some_iff] at h
  obtain ⟨before, seq, after, hsplit, hat, hnone⟩ := h
  obtain ⟨event, hevent, hsome⟩ := List.exists_of_findSome?_eq_some hat
  split at hsome
  · next hkind =>
    obtain ⟨hmem, hpoint⟩ := List.mem_filter.mp hevent
    obtain ⟨hsubject, hseq⟩ := Prod.mk.inj (of_decide_eq_true hpoint)
    obtain ⟨hparsed, hcounted⟩ := mem_events_of.mp hmem
    have hrange : ∀ s, s ∈ List.range' 1 ((of membership entries).run member) → s < seq →
        s ∈ before := by grind
    have hin : seq ∈ List.range' 1 ((of membership entries).run member) := by
      rw [hsplit]
      exact List.mem_append_right _ List.mem_cons_self
    rw [List.mem_range'_1] at hin
    refine ⟨event.toEvent, hparsed, Option.some.inj hsome, hsubject, by omega, ?_, hkind.2, ?_⟩
    · rw [hkind.1] at hcounted
      exact of_decide_eq_true hcounted.symm
    · intro other hother hother' h1 hcounts hentering
      by_contra hlt
      have hbefore := hrange other.seq (List.mem_range'_1.mpr ⟨h1, by omega⟩) (by omega)
      have hnot := List.findSome?_eq_none_iff.mp (hnone other.seq hbefore) _
        (List.mem_filter.mpr ⟨mem_of_parsed hother, decide_eq_true (Prod.ext hother' rfl)⟩)
      simp [hcounts, hentering] at hnot
  · cases hsome

/-- Once a created or joined event of a chain counts, one carries the key. -/
lemma exists_keyEvent (hevent : event ∈ (Parsed.of entries).events)
    (h1 : 1 ≤ event.seq) (hrun : event.seq ≤ (Parsed.of entries).run event.subject)
    (hcounted : membership.verdicts[event.entry]? = some .counted)
    (hkind : event.kind = .created ∨ event.kind = .joined) :
    ∃ i, (of membership entries).keyEvent event.subject = some i := by
  have hsame :
      (of membership entries).run event.subject = (Parsed.of entries).run event.subject := by
    have hheld : (((of membership entries).events.filter fun e =>
        e.subject = event.subject).map fun e => e.seq).toFinset =
          (Parsed.of entries).present event.subject := by
      ext seq
      rw [Parsed.mem_present]
      simp only [List.mem_toFinset, List.mem_map, List.mem_filter, decide_eq_true_eq]
      exact ⟨fun ⟨e, ⟨he, hsubject⟩, hseq⟩ => ⟨e.toEvent, (mem_events_of.mp he).1, hsubject, hseq⟩,
        fun ⟨e, he, hsubject, hseq⟩ => ⟨_, ⟨mem_of_parsed he, hsubject⟩, hseq⟩⟩
    rw [run, hheld]
    rfl
  refine Option.isSome_iff_exists.mp (List.findSome?_isSome_iff.mpr ⟨event.seq,
    List.mem_range'_1.mpr ⟨h1, by omega⟩, List.findSome?_isSome_iff.mpr ⟨_, List.mem_filter.mpr
      ⟨mem_of_parsed hevent, decide_eq_true rfl⟩, ?_⟩⟩)
  simp [hcounted, hkind]

lemma lists_iff {author : AuthorId} :
    (of membership entries).lists author i = true ↔
    ∃ devices, Alone.listedDevices entries i = some devices ∧
      ∃ device ∈ devices, device.author = author := by
  have hentries : (of membership entries).entries[i]? = entries[i]? := rfl
  unfold lists Alone.listedDevices Alone.payload
  rw [hentries]
  rcases entries[i]? with _ | ⟨key, author, payload⟩
  · simp
  · cases payload <;> simp [HeldPayload.bytes, Option.any_eq_true]

/-- The statements that list an author are counted statements of the member. -/
lemma mem_statementsListing {author : AuthorId}
    (h : i ∈ (of membership entries).statementsListing member author) :
    ∃ statement ∈ (Parsed.of entries).statements, statement.entry = i ∧
      statement.member = member ∧ membership.verdicts[statement.entry]? = some .counted ∧
      (of membership entries).lists author i = true := by
  rw [statementsListing] at h
  cases hfound : ((of membership entries).versions member).findSome? fun version =>
      let listing := (((of membership entries).statements.filter fun statement =>
        statement.member = member ∧ statement.version = version).map Statement.entry).filter
          ((of membership entries).lists author)
      if listing = [] then none else some listing with
  | none =>
    rw [hfound] at h
    exact absurd h List.not_mem_nil
  | some listing =>
    rw [hfound] at h
    obtain ⟨version, -, hsome⟩ := List.exists_of_findSome?_eq_some hfound
    dsimp only at hsome
    split at hsome
    · cases hsome
    · obtain rfl := Option.some.inj hsome
      obtain ⟨hmap, hlists⟩ := List.mem_filter.mp h
      obtain ⟨statement, hstatement, rfl⟩ := List.mem_map.mp hmap
      obtain ⟨hmem, hmember⟩ := List.mem_filter.mp hstatement
      obtain ⟨hparsed, hcounted⟩ := List.mem_filter.mp hmem
      exact ⟨statement, hparsed, rfl, (of_decide_eq_true hmember).1, of_decide_eq_true hcounted,
        hlists⟩

/-- **An author that a counted statement lists has one in the list.** -/
lemma exists_mem_statementsListing {author : AuthorId}
    (hstatement : statement ∈ (Parsed.of entries).statements)
    (hcounted : membership.verdicts[statement.entry]? = some .counted)
    (hlists : (of membership entries).lists author statement.entry = true) :
    ∃ j, j ∈ (of membership entries).statementsListing statement.member author := by
  have hmem : statement ∈ (of membership entries).statements :=
    List.mem_filter.mpr ⟨hstatement, decide_eq_true hcounted⟩
  have hversion : statement.version ∈ (of membership entries).versions statement.member := by
    rw [versions, List.mem_insertionSort, List.mem_dedup]
    exact List.mem_map.mpr ⟨statement, List.mem_filter.mpr ⟨hmem, decide_eq_true rfl⟩, rfl⟩
  have hentry : statement.entry ∈ (((of membership entries).statements.filter fun other =>
      other.member = statement.member ∧ other.version = statement.version).map
        Statement.entry).filter ((of membership entries).lists author) :=
    List.mem_filter.mpr ⟨List.mem_map.mpr ⟨statement, List.mem_filter.mpr
      ⟨hmem, decide_eq_true ⟨rfl, rfl⟩⟩, rfl⟩, hlists⟩
  rw [statementsListing]
  cases hfound : ((of membership entries).versions statement.member).findSome? fun version =>
      let listing := (((of membership entries).statements.filter fun other =>
        other.member = statement.member ∧ other.version = version).map Statement.entry).filter
          ((of membership entries).lists author)
      if listing = [] then none else some listing with
  | none =>
    have hempty := List.findSome?_eq_none_iff.mp hfound _ hversion
    dsimp only at hempty
    rw [if_neg (List.ne_nil_of_mem hentry)] at hempty
    cases hempty
  | some listing =>
    obtain ⟨version, -, hsome⟩ := List.exists_of_findSome?_eq_some hfound
    dsimp only at hsome
    split at hsome
    · cases hsome
    · next hne =>
      obtain rfl := Option.some.inj hsome
      exact List.exists_mem_of_ne_nil _ hne

/-- **What an event depends on**: its own chain before it and its actor's up to the point it names,
statements that list its author, and the event that carries its actor's key. -/
lemma mem_dependsOn_event {held : HeldEntry}
    (h : event ∈ (Parsed.of entries).events) (hheld : entries[event.entry]? = some held) :
    i ∈ (of membership entries).dependsOn event.entry ↔
      i ∈ (of membership entries).chainUpto event.subject (event.seq - 1) ∨
      i ∈ (of membership entries).chainUpto event.actor event.actorSeq ∨
      i ∈ (of membership entries).statementsListing event.actor held.author ∨
      (of membership entries).keyEvent event.actor = some i := by
  have hentries : (of membership entries).entries[event.entry]? = some held := hheld
  simp only [dependsOn, hentries, byEntry_of h, List.mem_append, Option.mem_toList,
    or_assoc]

/-- **What a statement depends on**: the event that carries its member's key. -/
lemma mem_dependsOn_statement (h : statement ∈ (Parsed.of entries).statements) :
    i ∈ (of membership entries).dependsOn statement.entry ↔
      (of membership entries).keyEvent statement.member = some i := by
  obtain ⟨held, hheld, hstatement⟩ := Parsed.mem_statements.mp h
  have hentries : (of membership entries).entries[statement.entry]? = some held := hheld
  have hparse := Parsed.parse_of_statementAt hstatement
  simp only [dependsOn, hentries, byEntry_of_statement h, hparse, Option.mem_toList]

/-- Only events and statements depend on others. -/
lemma exists_of_dependsOn {j : ℕ} (h : j ∈ (of membership entries).dependsOn i) :
    (∃ event ∈ (Parsed.of entries).events, event.entry = i) ∨
      ∃ statement ∈ (Parsed.of entries).statements, statement.entry = i := by
  cases hat : entries[i]? with
  | none =>
    have hentries : (of membership entries).entries[i]? = none := hat
    simp only [dependsOn, hentries, List.not_mem_nil] at h
  | some held =>
    have hentries : (of membership entries).entries[i]? = some held := hat
    simp only [dependsOn, hentries] at h
    split at h
    · next event hevent =>
      have hentry : event.entry = i := by simpa using List.find?_some hevent
      exact Or.inl ⟨event.toEvent, (mem_events_of.mp (List.mem_of_find?_eq_some hevent)).1, hentry⟩
    · split at h
      · next member version hparse =>
        refine Or.inr ⟨⟨i, member, version⟩, Parsed.mem_statements.mpr ⟨held, hat, ?_⟩, rfl⟩
        simp only [Parsed.statementAt, hparse]
      · exact absurd h List.not_mem_nil

/-- An event of a kind counts at a point. -/
lemma any_eventsAt {kind : EventKind} :
    (((of membership entries).eventsAt point).any fun event =>
      event.kind = kind ∧ event.counted) = true ↔
      ∃ event ∈ (Parsed.of entries).events, event.point = point ∧ event.kind = kind ∧
        membership.verdicts[event.entry]? = some .counted := by
  rw [List.any_eq_true]
  constructor
  · rintro ⟨event, hevent, hkind⟩
    obtain ⟨hmem, hpoint⟩ := List.mem_filter.mp hevent
    obtain ⟨hkind, hcounted⟩ := of_decide_eq_true hkind
    obtain ⟨hparsed, hmark⟩ := mem_events_of.mp hmem
    exact ⟨event.toEvent, hparsed, of_decide_eq_true hpoint, hkind,
      of_decide_eq_true (hmark.symm.trans hcounted)⟩
  · rintro ⟨event, hevent, hpoint, hkind, hcounted⟩
    exact ⟨_, List.mem_filter.mpr ⟨mem_of_parsed hevent, decide_eq_true hpoint⟩,
      by simp [hkind, hcounted]⟩

/-- The kind by which a membership ends at a point counts there, and no removal does where it is
another. -/
lemma departing_eq_some {kind : EventKind}
    (h : (of membership entries).departing point = some kind) :
    (kind = .removed ∨ kind = .left ∧ ∀ event ∈ (Parsed.of entries).events, event.point = point →
      event.kind = .removed → membership.verdicts[event.entry]? ≠ some .counted) ∧
    ∃ event ∈ (Parsed.of entries).events, event.point = point ∧ event.kind = kind ∧
      membership.verdicts[event.entry]? = some .counted := by
  refine ⟨?_, any_eventsAt.mp (by simpa using List.find?_some h)⟩
  rw [departing, List.find?_cons] at h
  split at h
  · exact Or.inl (Option.some.inj h).symm
  · next hnone =>
    obtain rfl : EventKind.left = kind :=
      List.mem_singleton.mp (List.mem_of_find?_eq_some h) |>.symm
    refine Or.inr ⟨rfl, fun event hevent hpoint hkind hcounted => ?_⟩
    rw [any_eventsAt.mpr ⟨event, hevent, hpoint, hkind, hcounted⟩] at hnone
    cases hnone

lemma isSome_departing (hevent : event ∈ (Parsed.of entries).events) (hpoint : event.point = point)
    (hkind : event.kind = .removed ∨ event.kind = .left)
    (hcounted : membership.verdicts[event.entry]? = some .counted) :
    ((of membership entries).departing point).isSome = true :=
  List.find?_isSome.mpr ⟨event.kind, by rcases hkind with h | h <;> simp [h],
    any_eventsAt.mpr ⟨event, hevent, hpoint, rfl, hcounted⟩⟩

/-- The roots of a past, and all they reach. -/
lemma mem_past {kind : EventKind} :
    i ∈ (of membership entries).past point kind ↔
      ∃ event ∈ (Parsed.of entries).events, event.point = point ∧ event.kind = kind ∧
        membership.verdicts[event.entry]? = some .counted ∧
        Relation.ReflTransGen (fun a b => b ∈ (of membership entries).dependsOn a) event.entry
          i := by
  rw [past, Worklist.mem_search]
  constructor
  · rintro ⟨_, hroot, hpath⟩
    obtain ⟨event, hevent, rfl⟩ := List.mem_map.mp hroot
    obtain ⟨hat, hkind⟩ := List.mem_filter.mp hevent
    obtain ⟨hmem, hpoint⟩ := List.mem_filter.mp hat
    obtain ⟨hkind, hcounted⟩ := of_decide_eq_true hkind
    obtain ⟨hparsed, hmark⟩ := mem_events_of.mp hmem
    exact ⟨event.toEvent, hparsed, of_decide_eq_true hpoint, hkind,
      of_decide_eq_true (hmark.symm.trans hcounted), hpath⟩
  · rintro ⟨event, hevent, hpoint, hkind, hcounted, hpath⟩
    refine ⟨event.entry, List.mem_map.mpr ⟨_, List.mem_filter.mpr ⟨List.mem_filter.mpr
      ⟨mem_of_parsed hevent, decide_eq_true hpoint⟩, ?_⟩, rfl⟩, hpath⟩
    simp [hkind, hcounted]

end Past.Index

/-- **The past is what the departing events reach**, as keys and authors. -/
lemma mem_departurePast {membership : MembershipView} {entries : List HeldEntry} {member : PdnId}
    {past : Finset PastEntry} (h : departurePast membership entries member = some past) :
    ∃ seq kind, (membership.member member).bind Member.departedAt = some seq ∧
      (Past.Index.of membership entries).departing (member, seq) = some kind ∧
      Past.visited membership entries member =
        some ((Past.Index.of membership entries).past (member, seq) kind) ∧
      ∀ entry, entry ∈ past ↔ ∃ i ∈ (Past.Index.of membership entries).past (member, seq) kind,
        ∃ held, entries[i]? = some held ∧ (held.key, held.author) = entry := by
  obtain ⟨visited, hvisited, rfl⟩ := Option.map_eq_some_iff.mp h
  have hvisits := hvisited
  rw [Past.visited] at hvisited
  split at hvisited
  · cases hvisited
  next seq hseq =>
  obtain ⟨kind, hkind, rfl⟩ := Option.map_eq_some_iff.mp hvisited
  refine ⟨seq, kind, hseq, hkind, hvisits, fun entry => ?_⟩
  simp only [List.mem_toFinset, List.mem_map, List.mem_filterMap]
  constructor
  · rintro ⟨held, ⟨i, hi, hheld⟩, rfl⟩
    exact ⟨i, hi, held, hheld, rfl⟩
  · rintro ⟨i, hi, held, hheld, rfl⟩
    exact ⟨held, ⟨i, hi, hheld⟩, rfl⟩

/-! ## What is taken from a member device -/

namespace Rests

variable {events : List Event} {rests : Rests} {work : List Point}

/-- A point of a chain is taken. -/
def Takes (rests : Rests) (point : Point) : Prop :=
  ∃ upto, rests.upto point.1 = some upto ∧ point.2 ≤ upto

/-- What the loop has taken and what it has yet to take: the member's own chain whole, and for
each event taken its actor's statements and the point it names. -/
structure Taking (events : List Event) (member : PdnId) (rests : Rests) (work : List Point) :
    Prop where
  own : rests.Takes (member, UInt64.size - 1) ∨ (member, UInt64.size - 1) ∈ work
  member_mem : member ∈ rests.statementsOf
  actor_mem : ∀ event ∈ events, 0 < event.seq → rests.Takes event.point →
    event.actor ∈ rests.statementsOf
  closed : ∀ event ∈ events, 0 < event.seq → rests.Takes event.point → 0 < event.actorSeq →
    rests.Takes event.actorPoint ∨ event.actorPoint ∈ work

lemma takes_of_take_none (h : take events rests point = none) (h0 : 0 < point.2) :
    rests.Takes point := by
  simp only [take] at h
  split at h
  · next hle =>
    cases hupto : rests.upto point.1 with
    | none =>
      rw [hupto] at hle
      exact absurd h0 (not_lt.mpr hle)
    | some upto =>
      rw [hupto] at hle
      exact ⟨upto, hupto, hle⟩
  · cases h

/-- What a turn takes: its chain up to the point, with what the events new to it name. -/
lemma take_eq_some {next : Rests} {pushed : List Point}
    (h : take events rests point = some (next, pushed)) :
    (∀ other, next.Takes other ↔ rests.Takes other ∨ other.1 = point.1 ∧ other.2 ≤ point.2) ∧
    rests.statementsOf ⊆ next.statementsOf ∧
    ∀ event ∈ events, 0 < event.seq → ¬ rests.Takes event.point → event.subject = point.1 →
      event.seq ≤ point.2 → event.actor ∈ next.statementsOf ∧ event.actorPoint ∈ pushed := by
  simp only [take] at h
  split at h
  · cases h
  next hmore =>
  obtain ⟨rfl, rfl⟩ := Prod.mk.inj (Option.some.inj h)
  refine ⟨fun other => ?_, Finset.subset_union_left, fun event hevent h0 hnew hsubject hseq => ?_⟩
  · grind [Takes]
  · have hreached : event ∈ between events point.1 ((rests.upto point.1).getD 0) point.2 := by
      rw [between, List.mem_insertionSort]
      refine List.mem_filter.mpr ⟨hevent, decide_eq_true ⟨hsubject, ?_, hseq⟩⟩
      by_contra hle
      cases hupto : rests.upto point.1 with
      | none =>
        rw [hupto] at hle
        exact hle h0
      | some upto =>
        rw [hupto, Option.getD_some, not_lt] at hle
        exact hnew ⟨upto, (congrArg rests.upto hsubject).trans hupto, hle⟩
    exact ⟨Finset.mem_union_right _ (List.mem_toFinset.mpr (List.mem_map_of_mem hreached)),
      List.mem_map_of_mem hreached⟩

/-- The loop keeps this. -/
lemma Taking.run {member : PdnId} {turns : ℕ} {result : Rests}
    (h : Taking events member rests work) (hrun : Worklist.run (take events) turns rests work =
      some result) : Taking events member result [] := by
  refine Worklist.run_invariant (motive := Taking events member) ?_ ?_ turns rests work
    result h hrun
  · intro rests point rest htaking htake
    have hdrop : ∀ other : Point, 0 < other.2 → rests.Takes other ∨ other ∈ point :: rest →
        rests.Takes other ∨ other ∈ rest := by grind [takes_of_take_none]
    exact
      { own := hdrop _ (Nat.sub_pos_of_lt (by decide)) htaking.own
        member_mem := htaking.member_mem
        actor_mem := htaking.actor_mem
        closed := fun event hevent h0 htakes hactor =>
          hdrop event.actorPoint hactor (htaking.closed event hevent h0 htakes hactor) }
  · intro rests point rest next pushed htaking htake
    obtain ⟨htakes_iff, hsub, hnew⟩ := take_eq_some htake
    have hkeep : ∀ other : Point, rests.Takes other ∨ other ∈ point :: rest →
        next.Takes other ∨ other ∈ pushed.reverse ++ rest := by grind
    refine ⟨hkeep _ htaking.own, hsub htaking.member_mem, ?_, ?_⟩
    · intro event hevent h0 htakes
      by_cases hold : rests.Takes event.point
      · exact hsub (htaking.actor_mem event hevent h0 hold)
      · obtain ⟨hsubject, hseq⟩ := ((htakes_iff _).mp htakes).resolve_left hold
        exact (hnew event hevent h0 hold hsubject hseq).1
    · intro event hevent h0 htakes hactor
      by_cases hold : rests.Takes event.point
      · exact hkeep _ (htaking.closed event hevent h0 hold hactor)
      · obtain ⟨hsubject, hseq⟩ := ((htakes_iff _).mp htakes).resolve_left hold
        exact Or.inr (List.mem_append_left _
          (List.mem_reverse.mpr (hnew event hevent h0 hold hsubject hseq).2))

/-- **What a departed replica takes**: its own chain whole, and with each event it takes its
actor's statements and the point the event names. -/
lemma of_closed (entries : List HeldEntry) (member : PdnId) :
    Taking (Parsed.of entries).events member (of entries member) [] := by
  have hstart : Taking (Parsed.of entries).events member ⟨fun _ => none, {member}⟩
      [(member, UInt64.size - 1)] := by
    refine ⟨Or.inr List.mem_cons_self, Finset.mem_singleton_self member, ?_, ?_⟩
    · rintro event - - ⟨upto, hupto, -⟩
      cases hupto
    · rintro event - - ⟨upto, hupto, -⟩
      cases hupto
  exact hstart.run (Option.some_get (isSome_of _ _ _)).symm

/-! ### Nothing more is taken -/

/-- The highest sequence of a chain that is taken. -/
def mark (rests : Rests) (chain : PdnId) : ℕ := (rests.upto chain).getD 0

lemma takes_iff (point : Point) (h0 : 0 < point.2) :
    rests.Takes point ↔ point.2 ≤ rests.mark point.1 := by
  unfold Takes mark
  cases rests.upto point.1 with
  | none => simpa using Nat.ne_of_gt h0
  | some upto => simp

/-- Marks that give `member` the maximal one and are closed under what the events at or below them
name. -/
structure Closed (events : List Event) (member : PdnId) (marks : PdnId → ℕ) : Prop where
  own : marks member = UInt64.size - 1
  closed : ∀ event ∈ events, 1 ≤ event.seq → event.seq ≤ marks event.subject →
    event.actorSeq ≤ marks event.actor

/-- What the loop has taken and has yet to take lies at or below `marks`, and the statements taken
are those of `member` and of actors of events taken. -/
structure Below (events : List Event) (member : PdnId) (marks : PdnId → ℕ) (rests : Rests)
    (work : List Point) : Prop where
  upto : ∀ chain, rests.mark chain ≤ marks chain
  work : ∀ point ∈ work, point.2 ≤ marks point.1
  statements : ∀ id ∈ rests.statementsOf, id = member ∨
    ∃ event ∈ events, 1 ≤ event.seq ∧ event.seq ≤ rests.mark event.subject ∧ event.actor = id

/-- The loop keeps this, below any marks that are closed. -/
lemma Below.run {member : PdnId} {marks : PdnId → ℕ} {turns : ℕ} {result : Rests}
    (hmarks : Closed events member marks) (h : Below events member marks rests work)
    (hrun : Worklist.run (take events) turns rests work = some result) :
    Below events member marks result [] := by
  refine Worklist.run_invariant (motive := Below events member marks) ?_ ?_ turns rests work
    result h hrun
  · intro rests point rest h _
    exact ⟨h.upto, fun other hother => h.work other (List.mem_cons_of_mem _ hother), h.statements⟩
  · intro rests point rest next pushed h htake
    simp only [take] at htake
    split at htake
    · cases htake
    next hmore =>
    obtain ⟨rfl, rfl⟩ := Prod.mk.inj (Option.some.inj htake)
    have hpoint := h.work point List.mem_cons_self
    have hmark : ∀ statements chain, mark ⟨Function.update rests.upto point.1 (some point.2),
        statements⟩ chain = if chain = point.1 then point.2 else rests.mark chain := by
      grind [mark]
    have hreached : ∀ event ∈ between events point.1 ((rests.upto point.1).getD 0) point.2,
        event ∈ events ∧ event.subject = point.1 ∧ 1 ≤ event.seq ∧ event.seq ≤ point.2 := by
      intro event hevent
      rw [between, List.mem_insertionSort, List.mem_filter, decide_eq_true_eq] at hevent
      exact ⟨hevent.1, hevent.2.1, by omega, hevent.2.2.2⟩
    refine ⟨fun chain => ?_, fun other hother => ?_, fun id hid => ?_⟩
    · rw [hmark]
      split_ifs with hchain
      · exact hchain ▸ hpoint
      · exact h.upto chain
    · rcases List.mem_append.mp hother with hnew | hold
      · obtain ⟨event, hevent, rfl⟩ := List.mem_map.mp (List.mem_reverse.mp hnew)
        obtain ⟨hmem, hsubject, hpos, hle⟩ := hreached event hevent
        exact hmarks.closed event hmem hpos (hsubject ▸ hle.trans hpoint)
      · exact h.work other (List.mem_cons_of_mem _ hold)
    · simp only [hmark]
      rcases Finset.mem_union.mp hid with hold | hnew
      · refine (h.statements id hold).imp_right ?_
        rintro ⟨event, hevent, hpos, hle, rfl⟩
        refine ⟨event, hevent, hpos, ?_, rfl⟩
        split_ifs with hchain
        · exact (hchain ▸ hle).trans (not_le.mp hmore).le
        · exact hle
      · obtain ⟨event, hevent, rfl⟩ := List.mem_map.mp (List.mem_toFinset.mp hnew)
        obtain ⟨hmem, hsubject, hpos, hle⟩ := hreached event hevent
        exact Or.inr ⟨event, hmem, hpos, by rwa [if_pos hsubject], rfl⟩

lemma of_below (entries : List HeldEntry) {member : PdnId} {marks : PdnId → ℕ}
    (hmarks : Closed (Parsed.of entries).events member marks) :
    Below (Parsed.of entries).events member marks (of entries member) [] := by
  refine Below.run hmarks ⟨fun _ => Nat.zero_le _, ?_, ?_⟩ (Option.some_get (isSome_of _ _ _)).symm
  · simp [hmarks.own]
  · simp

end Rests

open Rests in
/-- **The loop of `Rests::of` ends, and its marks are the least closed ones.** The statements taken
are those of the member and of the actors of the events at or below the marks.

**Proof sketch.** The marks are closed, since every event that a mark newly covers pushes the point
it names. They are the least, since the loop never takes, nor plans to take, anything past marks
that are closed; the map that is maximal everywhere is one of these. -/
theorem rests_least (entries : List HeldEntry) (member : PdnId) :
    Worklist.run (Rests.take (Parsed.of entries).events)
        (Rests.left (Parsed.of entries).events ⟨fun _ => none, {member}⟩ + 1)
        ⟨fun _ => none, {member}⟩ [(member, UInt64.size - 1)] = some (Rests.of entries member) ∧
      IsLeast {marks | Closed (Parsed.of entries).events member marks}
        (Rests.of entries member).mark ∧
      ∀ id, id ∈ (Rests.of entries member).statementsOf ↔ id = member ∨
        ∃ event ∈ (Parsed.of entries).events, 1 ≤ event.seq ∧
          event.seq ≤ (Rests.of entries member).mark event.subject ∧ event.actor = id := by
  have htaking := of_closed entries member
  have htop : Closed (Parsed.of entries).events member fun _ => UInt64.size - 1 := by
    refine ⟨rfl, fun event hevent _ _ => ?_⟩
    obtain ⟨held, -, hat⟩ := Parsed.mem_events.mp hevent
    obtain ⟨-, actorSeq, -, -, hactor⟩ := Parsed.parse_of_eventAt hat
    exact hactor ▸ Nat.le_sub_one_of_lt actorSeq.toNat_lt
  have hown := (takes_iff _ (Nat.sub_pos_of_lt (by decide))).mp
    (htaking.own.resolve_right List.not_mem_nil)
  refine ⟨(Option.some_get (isSome_of (Parsed.of entries).events ⟨fun _ => none, {member}⟩
    [(member, UInt64.size - 1)])).symm, ⟨⟨?_, fun event hevent hpos hle => ?_⟩,
    fun marks hmarks => (of_below entries hmarks).upto⟩, fun id => ⟨?_, ?_⟩⟩
  · exact le_antisymm ((of_below entries htop).upto member) hown
  · rcases Nat.eq_zero_or_pos event.actorSeq with hzero | hactor
    · omega
    · have htakes := htaking.closed event hevent hpos ((takes_iff event.point hpos).mpr hle) hactor
      exact (takes_iff event.actorPoint hactor).mp (htakes.resolve_right List.not_mem_nil)
  · exact (of_below entries htop).statements id
  · rintro (rfl | ⟨event, hevent, hpos, hle, rfl⟩)
    · exact htaking.member_mem
    · exact htaking.actor_mem event hevent hpos ((takes_iff event.point hpos).mpr hle)

end MeePdn
