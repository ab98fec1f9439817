import MeePdn.DataLayer.Pod.MembershipView.Growth
import MeePdn.DataLayer.Pod.MembershipView.LastOwner

/-!
# One more entry

What the checks make of a store with one more entry at its end. The entries before keep their
places, so their events are the same; what an added event can change is the run of its chain, and,
if it carries a key or a device, whose writes pass.

## Main definitions

* `Passes` — the added event passes on its own, right after its chain's run.
* `AddsOne` — the added event is the one new candidate, at the first sequence its chain held none.

## Main results

* `mem_events_append`, `run_append_of_ne` — the events and runs with one more entry.
* `keys_append`, `authors_append` — an entry changes no key and no device but its own member's.
* `Passes.addsOne` — **when the added event is the one new candidate**.
-/

namespace MeePdn

open Settling Classical Relation

variable {prims : Primitives} {pod : PodId} {store : NamespaceId} {entries : List HeldEntry}
  {held : HeldEntry} {new event : Event}

/-! ## Events and runs -/

lemma events_append : (Parsed.of (entries ++ [held])).events =
    (Parsed.of entries).events ++ (Parsed.eventAt (held, entries.length)).toList := by
  show (entries ++ [held]).zipIdx.filterMap Parsed.eventAt = _
  rw [List.zipIdx_append, List.filterMap_append, List.zipIdx_singleton, Nat.zero_add]
  rfl

lemma statements_append : (Parsed.of (entries ++ [held])).statements =
    (Parsed.of entries).statements ++ (Parsed.statementAt (held, entries.length)).toList := by
  show (entries ++ [held]).zipIdx.filterMap Parsed.statementAt = _
  rw [List.zipIdx_append, List.filterMap_append, List.zipIdx_singleton, Nat.zero_add]
  rfl

lemma mem_events_append : event ∈ (Parsed.of (entries ++ [held])).events ↔
    event ∈ (Parsed.of entries).events ∨ Parsed.eventAt (held, entries.length) = some event := by
  rw [events_append, List.mem_append, Option.mem_toList]

variable (held) in
lemma sameEntry_append {i : ℕ} (hi : i < entries.length) :
    SameEntry entries (entries ++ [held]) i i :=
  ⟨entries[i], List.getElem?_eq_getElem hi, by
    rw [List.getElem?_append_left hi, List.getElem?_eq_getElem hi]⟩

lemma entry_lt_of_mem (hevent : event ∈ (Parsed.of entries).events) :
    event.entry < entries.length := by
  obtain ⟨_, hheld, -⟩ := Parsed.mem_events.mp hevent
  exact (List.getElem?_eq_some_iff.mp hheld).1

variable (held) in
lemma moved_append (hevent : event ∈ (Parsed.of entries).events) :
    Moved entries (entries ++ [held]) event event :=
  ⟨sameEntry_append held (entry_lt_of_mem hevent), rfl⟩

lemma run_append_of_ne {member : PdnId}
    (h : ∀ new, Parsed.eventAt (held, entries.length) = some new → new.subject ≠ member) :
    (Parsed.of (entries ++ [held])).run member = (Parsed.of entries).run member := by
  refine le_antisymm (Parsed.le_run_iff.mpr fun s h1 hs => ?_)
    (run_mono (List.subset_append_left _ _) member)
  obtain ⟨event, hevent, hsubject, hseq⟩ :=
    Parsed.mem_present.mp (Parsed.le_run_iff.mp le_rfl s h1 hs)
  rcases mem_events_append.mp hevent with hevent | hnew
  · exact Parsed.mem_present.mpr ⟨event, hevent, hsubject, hseq⟩
  · exact absurd hsubject (h event hnew)

lemma lt_run_append (hnew : Parsed.eventAt (held, entries.length) = some new)
    (hseq : new.seq = (Parsed.of entries).run new.subject + 1) :
    (Parsed.of entries).run new.subject < (Parsed.of (entries ++ [held])).run new.subject := by
  refine Parsed.le_run_iff.mpr fun s h1 hs => ?_
  rcases Nat.lt_or_eq_of_le hs with hlt | heq
  · exact present_mono (List.subset_append_left _ _)
      (Parsed.le_run_iff.mp le_rfl s h1 (by omega))
  · exact Parsed.mem_present.mpr ⟨new, mem_events_append.mpr (Or.inr hnew), rfl, by omega⟩

/-! ## Keys and devices -/

/-- An event that brings neither an identity key nor a device. -/
def EventKind.isAct : EventKind → Bool
  | .created | .joined => false
  | .left | .removed | .promoted | .demoted => true

lemma carriedKey_of_isAct (h : new.kind.isAct = true) : Alone.carriedKey entries new = none := by
  grind [EventKind.isAct, Alone.carriedKey]

lemma joiningDevice_of_isAct (h : new.kind.isAct = true) :
    Alone.joiningDevice prims pod entries new = none := by
  grind [EventKind.isAct, Alone.joiningDevice]

lemma findKey_of_subject {keys : PdnId → Option (Bytes 32)} {member : PdnId}
    (h : event.subject = member → Alone.carriedKey entries event = none) :
    Alone.findKey prims entries keys event member = keys member := by
  unfold Alone.findKey
  rcases hkey : (Alone.carriedKey entries event).filter
    (fun key => pdnIdOf prims key = event.subject) with _ | key
  · rfl
  · refine Function.update_of_ne (fun heq => ?_) _ _
    rw [h heq.symm] at hkey
    cases hkey

/-- An entry that carries no key of a member's leaves the member's key. -/
lemma keys_append {member : PdnId}
    (hkey : ∀ new, Parsed.eventAt (held, entries.length) = some new → new.subject = member →
      Alone.carriedKey (entries ++ [held]) new = none) :
    (checksOf prims pod store (entries ++ [held])).keys member =
      (checksOf prims pod store entries).keys member := by
  rw [(Alone.of_checked prims pod store (entries ++ [held])).keys,
    (Alone.of_checked prims pod store entries).keys]
  unfold Alone.findKeys
  rw [events_append, List.foldl_append]
  have hold : (Parsed.of entries).events.foldl (Alone.findKey prims (entries ++ [held]))
      (fun _ => none) =
      (Parsed.of entries).events.foldl (Alone.findKey prims entries) fun _ => none := by
    refine List.foldl_ext _ _ _ fun keys event hevent => ?_
    unfold Alone.findKey
    rw [(moved_append held hevent).carriedKey_eq]
  rw [hold]
  rcases hnew : Parsed.eventAt (held, entries.length) with _ | new
  · rfl
  · exact findKey_of_subject (hkey new hnew)

section Devices

variable {member : PdnId}
  (hkey : ∀ new, Parsed.eventAt (held, entries.length) = some new → new.subject = member →
    Alone.carriedKey (entries ++ [held]) new = none)
  (hstatement : ∀ statement, Parsed.statementAt (held, entries.length) = some statement →
    statement.member ≠ member)
  (hjoin : ∀ new, Parsed.eventAt (held, entries.length) = some new → new.subject = member →
    Alone.joiningDevice prims pod (entries ++ [held]) new = none)

include hkey

/-- A statement of a member whose key stays lists what it did. -/
lemma lists_append {statement : Statement} {device : MemberDevice}
    (hmem : statement ∈ (Parsed.of entries).statements) :
    Alone.Lists prims pod (entries ++ [held])
        (checksOf prims pod store (entries ++ [held])).keys statement member device ↔
      Alone.Lists prims pod entries (checksOf prims pod store entries).keys statement member
        device := by
  obtain ⟨_, hheld, -⟩ := Parsed.mem_statements.mp hmem
  have hsame := sameEntry_append held (List.getElem?_eq_some_iff.mp hheld).1
  refine and_congr_right fun hof => ?_
  have hverdict : Alone.statementVerdict prims pod (entries ++ [held])
        (checksOf prims pod store (entries ++ [held])).keys statement =
      Alone.statementVerdict prims pod entries (checksOf prims pod store entries).keys statement :=
    hsame.statementVerdict_eq (by rw [hof]; exact keys_append hkey)
  rw [hverdict, hsame.listedDevices_eq]

include hstatement hjoin

/-- An entry that names no device of a member's leaves the member's devices. -/
lemma devices_append : (checksOf prims pod store (entries ++ [held])).devices member =
    (checksOf prims pod store entries).devices member := by
  ext device
  rw [(Alone.of_checked prims pod store (entries ++ [held])).mem_devices,
    (Alone.of_checked prims pod store entries).mem_devices, statements_append]
  refine or_congr ?_ ?_
  · constructor
    · rintro ⟨statement, hmem, hlists⟩
      rcases List.mem_append.mp hmem with hmem | hmem
      · exact ⟨statement, hmem, (lists_append hkey hmem).mp hlists⟩
      · exact absurd hlists.1 (hstatement statement (Option.mem_toList.mp hmem))
    · rintro ⟨statement, hmem, hlists⟩
      exact ⟨statement, List.mem_append_left _ hmem, (lists_append hkey hmem).mpr hlists⟩
  · constructor
    · rintro ⟨event, hevent, hsubject, hdevice⟩
      rcases mem_events_append.mp hevent with hevent | hnew
      · exact ⟨event, hevent, hsubject,
          (moved_append held hevent).joiningDevice_eq.symm.trans hdevice⟩
      · rw [hjoin event hnew hsubject] at hdevice
        cases hdevice
    · rintro ⟨event, hevent, hsubject, hdevice⟩
      exact ⟨event, mem_events_append.mpr (Or.inl hevent), hsubject,
        (moved_append held hevent).joiningDevice_eq.trans hdevice⟩

lemma authors_append : (checksOf prims pod store (entries ++ [held])).authors member =
    (checksOf prims pod store entries).authors member := by
  rw [(Alone.of_checked prims pod store (entries ++ [held])).authors,
    (Alone.of_checked prims pod store entries).authors, devices_append hkey hstatement hjoin]

end Devices

/-! ## The one new candidate -/

/-- An event past a chain's run, or naming a point past it, waits for a chain. -/
def WaitsPast (entries : List HeldEntry) (view : MembershipView) (chain : PdnId) : Prop :=
  ∃ event ∈ (Parsed.of entries).events,
    (event.subject = chain ∧ (Parsed.of entries).run chain < event.seq ∨
      event.actor = chain ∧ (Parsed.of entries).run chain < event.actorSeq) ∧
    (view.verdicts[event.entry]? = some (.notYet .actorChain) ∨
      view.verdicts[event.entry]? = some (.notYet .subjectChain))

/-- The added event is the one new candidate, at the first sequence its chain held none. -/
structure AddsOne (prims : Primitives) (pod : PodId) (store : NamespaceId)
    (entries : List HeldEntry) (held : HeldEntry) (new : Event) : Prop where
  event : Parsed.eventAt (held, entries.length) = some new
  seq : new.seq = (Parsed.of entries).run new.subject + 1
  actorSeq : new.actorSeq ≤ (Parsed.of entries).run new.actor
  candidates : ∀ e, e ∈ (candidatesOf prims pod store (entries ++ [held])).list ↔
    e ∈ (candidatesOf prims pod store entries).list ∨ e = new

/-- The added event is a candidate that does not depend on itself, at the first sequence its chain
held none, and every other new candidate depends on it. -/
structure Adds (prims : Primitives) (pod : PodId) (store : NamespaceId)
    (entries : List HeldEntry) (held : HeldEntry) (new : Event) : Prop where
  event : Parsed.eventAt (held, entries.length) = some new
  seq : new.seq = (Parsed.of entries).run new.subject + 1
  actorSeq : new.actorSeq ≤ (Parsed.of entries).run new.actor
  new_mem : new ∈ (candidatesOf prims pod store (entries ++ [held])).list
  mem : ∀ e ∈ (candidatesOf prims pod store entries).list,
    e ∈ (candidatesOf prims pod store (entries ++ [held])).list
  self : ¬ TransGen (DependsOn prims pod store (entries ++ [held])) new new
  before : ∀ e ∈ (candidatesOf prims pod store (entries ++ [held])).list, e ≠ new →
    e ∉ (candidatesOf prims pod store entries).list →
      DependsOn prims pod store (entries ++ [held]) e new

/-- An event whose kind and author pass is refused for a chain that is not held far enough. -/
lemma refusal_of_author {authors : PdnId → Finset AuthorId} {a : AuthorId}
    (hseq : event.seq ≠ 0) (hkind : Alone.kindAlone prims pod store entries event = .ok ())
    (hauthor : Alone.author entries event.entry = some a) (hlisted : a ∈ authors event.actor) :
    Alone.refusal prims pod store entries (Parsed.of entries) authors event =
      if event.actorSeq ≤ (Parsed.of entries).run event.actor then
        if event.seq - 1 ≤ (Parsed.of entries).run event.subject then none
        else some (.notYet .subjectChain)
      else some (.notYet .actorChain) := by
  unfold Alone.refusal Alone.alone
  simp only [hseq, hkind, hauthor, if_false, Option.any_some, hlisted, Parsed.holds, bind,
    Except.bind]
  by_cases hactor : event.actorSeq ≤ (Parsed.of entries).run event.actor <;>
    by_cases hsubject : event.seq - 1 ≤ (Parsed.of entries).run event.subject <;>
    simp [hactor, hsubject]

/-- The added event passes on its own, right after its chain's run, no device is lost, and none is
listed that an event of before waits for. -/
structure Passes (prims : Primitives) (pod : PodId) (store : NamespaceId)
    (entries : List HeldEntry) (held : HeldEntry) (new : Event) : Prop where
  event : Parsed.eventAt (held, entries.length) = some new
  seq : new.seq = (Parsed.of entries).run new.subject + 1
  actorSeq : new.actorSeq ≤ (Parsed.of entries).run new.actor
  kind : Alone.kindAlone prims pod store (entries ++ [held]) new = .ok ()
  author : held.author ∈ (checksOf prims pod store (entries ++ [held])).authors new.actor
  mono : ∀ member, (checksOf prims pod store entries).authors member ⊆
    (checksOf prims pod store (entries ++ [held])).authors member
  same : ∀ event ∈ (Parsed.of entries).events, ∀ a, Alone.author entries event.entry = some a →
    a ∈ (checksOf prims pod store (entries ++ [held])).authors event.actor →
    a ∈ (checksOf prims pod store entries).authors event.actor

namespace Passes

variable (h : Passes prims pod store entries held new)

include h

lemma mem_of_mem (hevent : event ∈ (candidatesOf prims pod store entries).list) :
    event ∈ (candidatesOf prims pod store (entries ++ [held])).list := by
  obtain ⟨hmem, hpass⟩ := mem_candidatesOf.mp hevent
  obtain ⟨hseq, hkind, ⟨a, hauthor, hlisted⟩, hactor, hsubject⟩ :=
    Alone.refusal_eq_none_iff.mp hpass
  have hmoved := moved_append held hmem
  have hrun := run_mono (List.subset_append_left entries [held])
  exact mem_candidatesOf.mpr ⟨mem_events_append.mpr (Or.inl hmem), Alone.refusal_eq_none_iff.mpr
    ⟨hseq, hmoved.kindAlone_eq.trans hkind, ⟨a, hmoved.1.author_eq.trans hauthor, h.mono _ hlisted⟩,
      hactor.trans (hrun _), hsubject.trans (hrun _)⟩⟩

/-- An event of before that the added one makes a candidate has waited for the added one's chain to
reach the added one. -/
lemma waited (hmem : event ∈ (Parsed.of entries).events)
    (hevent : event ∈ (candidatesOf prims pod store (entries ++ [held])).list)
    (hbefore : event ∉ (candidatesOf prims pod store entries).list) :
    event.actor = new.subject ∧ (Parsed.of entries).run new.subject < event.actorSeq ∧
        Alone.refusal prims pod store entries (Parsed.of entries)
          (checksOf prims pod store entries).authors event = some (.notYet .actorChain) ∨
      event.subject = new.subject ∧ (Parsed.of entries).run new.subject < event.seq - 1 ∧
        Alone.refusal prims pod store entries (Parsed.of entries)
          (checksOf prims pod store entries).authors event = some (.notYet .subjectChain) := by
  obtain ⟨-, hpass⟩ := mem_candidatesOf.mp hevent
  obtain ⟨hseq, hkind, ⟨a, hauthor, hlisted⟩, hactor, hsubject⟩ :=
    Alone.refusal_eq_none_iff.mp hpass
  have hmoved := moved_append held hmem
  rw [hmoved.1.author_eq] at hauthor
  have hrefusal := refusal_of_author hseq
    (hmoved.kindAlone_eq.symm.trans hkind) hauthor (h.same event hmem a hauthor hlisted)
  -- A run that is longer than before is the added event's.
  have hchain : ∀ {member : PdnId} {seq : ℕ}, ¬ seq ≤ (Parsed.of entries).run member →
      seq ≤ (Parsed.of (entries ++ [held])).run member → member = new.subject := by
    grind [run_append_of_ne, h.event]
  by_cases hactor' : event.actorSeq ≤ (Parsed.of entries).run event.actor
  · by_cases hsubject' : event.seq - 1 ≤ (Parsed.of entries).run event.subject
    · rw [if_pos hactor', if_pos hsubject'] at hrefusal
      exact absurd (mem_candidatesOf.mpr ⟨hmem, hrefusal⟩) hbefore
    · grind
  · grind

lemma new_mem : new ∈ (candidatesOf prims pod store (entries ++ [held])).list := by
  have hrun := run_mono (List.subset_append_left entries [held])
  have hentry : Alone.author (entries ++ [held]) new.entry = some held.author := by
    rw [Parsed.entry_eventAt h.event]
    simp [Alone.author]
  have hseq := h.seq
  refine mem_candidatesOf.mpr ⟨mem_events_append.mpr (Or.inr h.event),
    Alone.refusal_eq_none_iff.mpr ⟨by omega, h.kind, ⟨_, hentry, h.author⟩,
      h.actorSeq.trans (hrun _), ?_⟩⟩
  have := hrun new.subject
  omega

/-- **The added event is the one new candidate** when nothing waits past its chain's run. -/
lemma addsOne {orders : ℕ → HashOrder} (hquiet : ¬ WaitsPast entries
      (MembershipView.new prims orders pod store entries) new.subject) :
    AddsOne prims pod store entries held new where
  event := h.event
  seq := h.seq
  actorSeq := h.actorSeq
  candidates := by
    intro event
    constructor
    · intro hevent
      rcases mem_events_append.mp (mem_candidatesOf.mp hevent).1 with hmem | hmem
      · refine Or.inl (by_contra fun hbefore => hquiet ⟨event, hmem, ?_⟩)
        rcases h.waited hmem hevent hbefore with ⟨hactor, hlt, hrefusal⟩ | ⟨hsubject, hlt, hrefusal⟩
        · exact ⟨Or.inr ⟨hactor, hlt⟩, Or.inl (verdict_new_refused hmem hrefusal)⟩
        · exact ⟨Or.inl ⟨hsubject, by omega⟩, Or.inr (verdict_new_refused hmem hrefusal)⟩
      · exact Or.inr (Option.some.inj (hmem.symm.trans h.event))
    · grind [h.mem_of_mem, h.new_mem]

/-- **What else becomes a candidate depends on the added event**. -/
lemma adds (hself : ¬ TransGen (DependsOn prims pod store (entries ++ [held])) new new) :
    Adds prims pod store entries held new where
  event := h.event
  seq := h.seq
  actorSeq := h.actorSeq
  new_mem := h.new_mem
  mem := fun _ => h.mem_of_mem
  self := hself
  before := by
    intro e he hne hbefore
    refine ⟨isCandidate_iff.mpr h.new_mem, ?_⟩
    have hseq := h.seq
    rcases mem_events_append.mp (mem_candidatesOf.mp he).1 with hmem | hmem
    · rcases h.waited hmem he hbefore with ⟨hactor, hlt, -⟩ | ⟨hsubject, hlt, -⟩
      · exact Or.inr ⟨hactor.symm, by omega⟩
      · exact Or.inl ⟨hsubject.symm, by omega⟩
    · exact absurd (Option.some.inj (hmem.symm.trans h.event)) hne

end Passes

end MeePdn
