import MeePdn.DataLayer.Pod.MembershipView.Growth
import MeePdn.DataLayer.Pod.MembershipView.Rooted
import MeePdn.DataLayer.Pod.Testing

/-!
# What only grows

A replica's entries grow in two ways: entries come in, and payloads that were awaited arrive. Over
the larger store the view knows every device, statement version and sequence that it knew, and what
it found wrong with an entry by itself stays wrong.

## Main definitions

* `HeldEntry.Arrives`, `Grows` — an entry whose payload may have arrived, and a store that grew.
* `ForNothing.IsPermanent` — the reasons that no further entry takes back.

## Main results

* `Grows.keys`, `Grows.counted`, `Grows.devices` — keys, counted statements and devices stay.
* `Grows.refusal_eq` — so does what is wrong with an event.
* `knowledge_grows` — **knowledge only grows**.
-/

namespace MeePdn

/-! ## Stores that grow -/

/-- The same payload, or one that was awaited and has been read. -/
def HeldPayload.Arrives (payload payload' : HeldPayload) : Prop :=
  payload' = payload ∨ payload = .awaited ∧ ∃ bytes, payload' = .read bytes

/-- The same entry, but for a payload that may have arrived. -/
structure HeldEntry.Arrives (held held' : HeldEntry) : Prop where
  key : held'.key = held.key
  author : held'.author = held.author
  payload : held.payload.Arrives held'.payload

/-- A store holds each entry of another at some place, with whatever payloads have arrived and
whatever other entries. -/
def Grows (entries entries' : List HeldEntry) (place : ℕ → ℕ) : Prop :=
  ∀ (i : ℕ) held, entries[i]? = some held →
    ∃ held', entries'[place i]? = some held' ∧ held.Arrives held'

/-- What is wrong with an entry by itself. -/
def ForNothing.IsPermanent (why : ForNothing) : Prop :=
  why ∈ [.malformed, .misplaced, .otherPod, .otherStore, .keyOfAnother, .wrongActor, .badSignature]

/-- An event, with the place its entry has in the larger store. -/
def Event.moved (event : Event) (place : ℕ → ℕ) : Event := { event with entry := place event.entry }

/-- A statement, with the place its entry has in the larger store. -/
def Statement.moved (statement : Statement) (place : ℕ → ℕ) : Statement :=
  { statement with entry := place statement.entry }

namespace Grows

variable {prims : Primitives} {pod : PodId} {store : NamespaceId}
  {entries entries' : List HeldEntry}
  {place : ℕ → ℕ} {event : Event} {statement : Statement} {i : ℕ}

section One

variable (h : Grows entries entries' place)
include h

lemma event_mem (hevent : event ∈ (Parsed.of entries).events) :
    event.moved place ∈ (Parsed.of entries').events := by
  obtain ⟨held, hat, hparsed⟩ := Parsed.mem_events.mp hevent
  obtain ⟨held', hat', harrives⟩ := h _ held hat
  refine Parsed.mem_events.mpr ⟨held', hat', ?_⟩
  have hmoved := Parsed.eventAt_moved hparsed (place event.entry)
  simp only [Parsed.eventAt, harrives.key] at hmoved ⊢
  exact hmoved

lemma statement_mem (hstatement : statement ∈ (Parsed.of entries).statements) :
    statement.moved place ∈ (Parsed.of entries').statements := by
  obtain ⟨held, hat, hparsed⟩ := Parsed.mem_statements.mp hstatement
  obtain ⟨held', hat', harrives⟩ := h _ held hat
  refine Parsed.mem_statements.mpr ⟨held', hat', ?_⟩
  have hmoved := Parsed.statementAt_moved hparsed (place statement.entry)
  simp only [Parsed.statementAt, harrives.key] at hmoved ⊢
  exact hmoved

/-- **Runs only grow.** -/
lemma run_le (member : PdnId) :
    (Parsed.of entries).run member ≤ (Parsed.of entries').run member := by
  refine Parsed.le_run_iff.mpr fun s h1 hs => ?_
  obtain ⟨event, hevent, hsubject, hseq⟩ :=
    Parsed.mem_present.mp (Parsed.le_run_iff.mp le_rfl s h1 hs)
  exact Parsed.mem_present.mpr ⟨event.moved place, h.event_mem hevent, hsubject, hseq⟩

lemma payload_eq {held : HeldEntry} (hat : entries[i]? = some held)
    (hpayload : held.payload ≠ .awaited) :
    Alone.payload entries' (place i) = Alone.payload entries i := by
  obtain ⟨held', hat', harrives⟩ := h i held hat
  unfold Alone.payload
  rw [hat, hat', Option.map_some, Option.map_some,
    harrives.payload.resolve_right fun hawaited => hpayload hawaited.1]

lemma payload_eq_of_ne (hi : i < entries.length)
    (hpayload : Alone.payload entries i ≠ .error (.notYet .payload)) :
    Alone.payload entries' (place i) = Alone.payload entries i := by
  have hat := List.getElem?_eq_getElem hi
  refine h.payload_eq hat fun hawaited => hpayload ?_
  simp only [Alone.payload, hat, Option.map_some, hawaited]

lemma payload_ok {bytes : List UInt8} (hok : Alone.payload entries i = .ok bytes) :
    Alone.payload entries' (place i) = .ok bytes := by
  obtain ⟨held, hat, hread⟩ := payload_eq_ok hok
  exact (h.payload_eq hat (by simp [hread])).trans hok

lemma carriedKey {key : Bytes 32} (hcarried : Alone.carriedKey entries event = some key) :
    Alone.carriedKey entries' (event.moved place) = some key := by
  unfold Alone.carriedKey at hcarried
  split at hcarried
  · cases hcarried
  · next bytes hok =>
    unfold Alone.carriedKey
    rw [show (event.moved place).entry = place event.entry from rfl, h.payload_ok hok]
    exact hcarried

/-- A device that joined has joined. -/
lemma joiningDevice {device : MemberDevice}
    (hjoining : Alone.joiningDevice prims pod entries event = some device) :
    Alone.joiningDevice prims pod entries' (event.moved place) = some device := by
  unfold Alone.joiningDevice at hjoining
  split at hjoining
  · cases hjoining
  next hkind =>
  split at hjoining
  · cases hjoining
  next bytes hok =>
  unfold Alone.joiningDevice
  rw [show (event.moved place).entry = place event.entry from rfl, h.payload_ok hok]
  simp only [show (event.moved place).kind = event.kind from rfl, hkind, if_false]
  exact hjoining

lemma listedDevices {devices : List MemberDevice}
    (hlisted : Alone.listedDevices entries i = some devices) :
    Alone.listedDevices entries' (place i) = some devices := by
  unfold Alone.listedDevices at hlisted
  split at hlisted
  · cases hlisted
  · next bytes hok =>
    unfold Alone.listedDevices
    rw [h.payload_ok hok]
    exact hlisted

/-- **An identity key found stays found.** -/
lemma keys (hinj : prims.Injective) {member : PdnId} {key : Bytes 32}
    (hkey : (checksOf prims pod store entries).keys member = some key) :
    (checksOf prims pod store entries').keys member = some key := by
  rw [(Alone.of_checked prims pod store entries).keys] at hkey
  obtain ⟨hid, event, hevent, rfl, hcarried⟩ := (Alone.findKeys_spec member).1 key hkey
  obtain ⟨found, hfound, hderives⟩ := exists_key (h.event_mem hevent) (h.carriedKey hcarried) hid
  rw [show event.subject = (event.moved place).subject from rfl, hfound,
    hinj (hderives.trans hid.symm)]

/-- **A statement's verdict stays** unless it waits for its payload or its member's key. -/
lemma statementVerdict_eq (hinj : prims.Injective)
    (hstatement : statement ∈ (Parsed.of entries).statements)
    (hpayload : Alone.statementVerdict prims pod entries (checksOf prims pod store entries).keys
      statement ≠ .notYet .payload)
    (hkey : Alone.statementVerdict prims pod entries (checksOf prims pod store entries).keys
      statement ≠ .notYet .identityKey) :
    Alone.statementVerdict prims pod entries' (checksOf prims pod store entries').keys
        (statement.moved place) =
      Alone.statementVerdict prims pod entries (checksOf prims pod store entries).keys
        statement := by
  obtain ⟨held, hat, -⟩ := Parsed.mem_statements.mp hstatement
  have hsame : Alone.payload entries' (statement.moved place).entry =
      Alone.payload entries statement.entry := by
    refine h.payload_eq_of_ne (List.getElem?_eq_some_iff.mp hat).1 fun hawaited => hpayload ?_
    simp only [Alone.statementVerdict, hawaited]
  unfold Alone.statementVerdict at hkey ⊢
  rw [hsame]
  split
  · rfl
  · next bytes hok =>
    split
    · rfl
    · next payload hdecode =>
      simp only [hok, hdecode] at hkey
      cases hknown : (checksOf prims pod store entries).keys statement.member with
      | none => simp [hknown] at hkey
      | some key =>
        rw [show (statement.moved place).member = statement.member from rfl, h.keys hinj hknown]
        rfl

/-- **A statement that counts keeps counting.** -/
lemma counted (hinj : prims.Injective) (hstatement : statement ∈ (Parsed.of entries).statements)
    (hcounted : Alone.statementVerdict prims pod entries (checksOf prims pod store entries).keys
      statement = .counted) :
    Alone.statementVerdict prims pod entries' (checksOf prims pod store entries').keys
      (statement.moved place) = .counted :=
  (h.statementVerdict_eq hinj hstatement (by simp [hcounted]) (by simp [hcounted])).trans hcounted

/-- **A device listed stays listed.** -/
lemma devices (hinj : prims.Injective) (member : PdnId) :
    (checksOf prims pod store entries).devices member ⊆
      (checksOf prims pod store entries').devices member := by
  intro device hdevice
  rw [(Alone.of_checked prims pod store entries).mem_devices] at hdevice
  rw [(Alone.of_checked prims pod store entries').mem_devices]
  rcases hdevice with ⟨statement, hstatement, hmember, hcounted, listed, hlisted, hin⟩ |
    ⟨event, hevent, hsubject, hjoining⟩
  · exact Or.inl ⟨statement.moved place, h.statement_mem hstatement, hmember,
      h.counted hinj hstatement hcounted, listed, h.listedDevices hlisted, hin⟩
  · exact Or.inr ⟨event.moved place, h.event_mem hevent, hsubject, h.joiningDevice hjoining⟩

lemma statementVersions (hinj : prims.Injective) (member : PdnId) :
    (checksOf prims pod store entries).statementVersions member ≤
      (checksOf prims pod store entries').statementVersions member := by
  rw [(Alone.of_checked prims pod store entries).versions_le]
  intro statement hstatement hmember hcounted
  exact ((Alone.of_checked prims pod store entries').versions_le member _).mp le_rfl
    (statement.moved place) (h.statement_mem hstatement) hmember
    (h.counted hinj hstatement hcounted)

/-- **What is wrong with an event of its kind stays wrong** unless it waits for its payload. -/
lemma kindAlone_eq (hevent : event ∈ (Parsed.of entries).events)
    (hpayload : Alone.kindAlone prims pod store entries event ≠ .error (.notYet .payload)) :
    Alone.kindAlone prims pod store entries' (event.moved place) =
      Alone.kindAlone prims pod store entries event := by
  obtain ⟨held, hat, -⟩ := Parsed.mem_events.mp hevent
  have hlt := (List.getElem?_eq_some_iff.mp hat).1
  have hsame (hread : Alone.payload entries event.entry ≠ .error (.notYet .payload)) :
      Alone.payload entries' (event.moved place).entry = Alone.payload entries event.entry :=
    h.payload_eq_of_ne hlt hread
  unfold Alone.kindAlone at hpayload ⊢
  rw [show (event.moved place).kind = event.kind from rfl]
  cases hkind : event.kind with
  | created =>
    simp only [hkind, Alone.creationAlone] at hpayload ⊢
    have hmoved : ((event.moved place).seq ≠ 1 ∨ (event.moved place).actor ≠
        (event.moved place).subject ∨ (event.moved place).actorSeq ≠ 0) ↔
        (event.seq ≠ 1 ∨ event.actor ≠ event.subject ∨ event.actorSeq ≠ 0) := Iff.rfl
    by_cases hplace : event.seq ≠ 1 ∨ event.actor ≠ event.subject ∨ event.actorSeq ≠ 0
    · rw [if_pos hplace, if_pos (hmoved.mpr hplace)]
    · rw [if_neg hplace] at hpayload ⊢
      rw [if_neg (hmoved.not.mpr hplace), hsame fun hawaited => hpayload (by rw [hawaited]; rfl)]
      rfl
  | joined =>
    simp only [hkind, Alone.joiningAlone] at hpayload ⊢
    have hmoved : (event.moved place).actor = (event.moved place).subject ↔
        event.actor = event.subject := Iff.rfl
    by_cases hself : event.actor = event.subject
    · rw [if_pos hself, if_pos (hmoved.mpr hself)]
    · rw [if_neg hself] at hpayload ⊢
      rw [if_neg (hmoved.not.mpr hself), hsame fun hawaited => hpayload (by rw [hawaited]; rfl)]
      rfl
  | left | removed | demoted | promoted => rfl

/-- **What is wrong with an event by itself stays wrong.** -/
lemma refusal_eq (hevent : event ∈ (Parsed.of entries).events) {why : ForNothing}
    (hwhy : why.IsPermanent) {authors authors' : PdnId → Finset AuthorId}
    (hrefused : Alone.refusal prims pod store entries (Parsed.of entries) authors event =
      some (.countedForNothing why)) :
    Alone.refusal prims pod store entries' (Parsed.of entries') authors' (event.moved place) =
      some (.countedForNothing why) := by
  unfold Alone.refusal Alone.alone at hrefused ⊢
  rw [show (event.moved place).seq = event.seq from rfl]
  by_cases hseq : event.seq = 0
  · rw [if_pos hseq] at hrefused ⊢
    exact hrefused
  rw [if_neg hseq] at hrefused ⊢
  cases hkind : Alone.kindAlone prims pod store entries event with
  | error verdict =>
    rw [hkind] at hrefused
    obtain rfl : verdict = .countedForNothing why := Option.some.inj hrefused
    rw [h.kindAlone_eq hevent (by simp [hkind]), hkind]
    rfl
  | ok _ =>
    -- what else refuses it is no fault of its own
    rw [hkind] at hrefused
    simp only [bind, Except.bind] at hrefused
    split_ifs at hrefused
    all_goals simp only [Option.some.injEq, Verdict.countedForNothing.injEq, reduceCtorEq]
      at hrefused
    subst hrefused
    exact absurd hwhy (by simp [ForNothing.IsPermanent])

end One

/-- **Every identity keeps what is known of it**: devices, statement version and run. -/
lemma member (hinj : prims.Injective) (orders orders' : ℕ → HashOrder)
    (h : Grows entries entries' place) {id : PdnId} {m : Member}
    (hm : (MembershipView.new prims orders pod store entries).member id = some m) :
    ∃ m', (MembershipView.new prims orders' pod store entries').member id = some m' ∧
      m.devices ⊆ m'.devices ∧ m.statementVersion ≤ m'.statementVersion ∧ m.run ≤ m'.run := by
  rw [member_new] at hm
  split at hm
  case isFalse => cases hm
  next hidentity =>
  obtain rfl := Option.some.inj hm
  have hidentity' : id ∈ Pass.identities (Parsed.of entries') := by
    rcases mem_identities.mp hidentity with hchain | ⟨statement, hstatement, hmember⟩
    · obtain ⟨event, hevent, hsubject⟩ := Parsed.mem_chains.mp hchain
      exact mem_identities.mpr (Or.inl (Parsed.mem_chains.mpr
        ⟨event.moved place, h.event_mem hevent, hsubject⟩))
    · exact mem_identities.mpr (Or.inr
        ⟨statement.moved place, h.statement_mem hstatement, hmember⟩)
  refine ⟨shownMember prims pod store entries' id, ?_, h.devices hinj id,
    h.statementVersions hinj id, ?_⟩
  · rw [member_new, if_pos hidentity']
  · rw [run_shownMember, run_shownMember]
    exact h.run_le id

/-- **What is wrong with an entry by itself stays wrong.** -/
lemma permanent (hinj : prims.Injective) (orders orders' : ℕ → HashOrder)
    (h : Grows entries entries' place) {why : ForNothing} (hwhy : why.IsPermanent)
    (hverdict : (MembershipView.new prims orders pod store entries).verdicts[i]? =
      some (.countedForNothing why)) :
    (MembershipView.new prims orders' pod store entries').verdicts[place i]? =
      some (.countedForNothing why) := by
  by_cases hevent : ∃ event ∈ (Parsed.of entries).events, event.entry = i
  · obtain ⟨event, hevent, rfl⟩ := hevent
    cases hrefused : Alone.refusal prims pod store entries (Parsed.of entries)
        (checksOf prims pod store entries).authors event with
    | none =>
      rw [verdict_new (mem_candidatesOf.mpr ⟨hevent, hrefused⟩), Option.some.injEq] at hverdict
      have hpass := ofPass_finalVerdict (candidatesOf prims pod store entries)
        (finalSet prims pod store entries) event
      rw [hverdict] at hpass
      cases why <;> simp [ForNothing.IsPermanent, Verdict.ofPass] at hwhy hpass
    | some verdict =>
      rw [verdict_new_refused hevent hrefused, Option.some.injEq] at hverdict
      subst hverdict
      exact verdict_new_refused (h.event_mem hevent) (h.refusal_eq hevent hwhy hrefused)
  by_cases hstatement : ∃ statement ∈ (Parsed.of entries).statements, statement.entry = i
  · obtain ⟨statement, hstatement, rfl⟩ := hstatement
    rw [verdict_new_statement hstatement, Option.some.injEq] at hverdict
    rw [← hverdict]
    exact (verdict_new_statement (h.statement_mem hstatement)).trans (congrArg some
      (h.statementVerdict_eq hinj hstatement (by simp [hverdict]) (by simp [hverdict])))
  · grind [verdict_new_outside, length_verdicts_new]

end Grows

/-- **Knowledge only grows.** Where entries come in and payloads arrive, every identity keeps its
devices, its statement version and its run or has more, a device statement that counts keeps
counting, and what is wrong with an entry by itself stays wrong.

**Proof sketch.** Only one key derives an identity, so that a key once found is the key; and every
check on an entry by itself reads the key and the payload alone, which change no more once the
payload has been read. -/
theorem knowledge_grows {prims : Primitives} (hinj : prims.Injective)
    (orders orders' : ℕ → HashOrder)
    (pod : PodId) (store : NamespaceId) (entries entries' : List HeldEntry) (place : ℕ → ℕ)
    (h : Grows entries entries' place) :
    let view := MembershipView.new prims orders pod store entries
    let view' := MembershipView.new prims orders' pod store entries'
    (∀ member m, view.member member = some m → ∃ m', view'.member member = some m' ∧
      m.devices ⊆ m'.devices ∧ m.statementVersion ≤ m'.statementVersion ∧ m.run ≤ m'.run) ∧
    (∀ (i : ℕ) held, entries[i]? = some held → (Parsed.statementAt (held, i)).isSome = true →
      view.verdicts[i]? = some .counted → view'.verdicts[place i]? = some .counted) ∧
    ∀ (i : ℕ) (why : ForNothing), why.IsPermanent →
      view.verdicts[i]? = some (.countedForNothing why) →
      view'.verdicts[place i]? = some (.countedForNothing why) := by
  intro view view'
  refine ⟨fun id m hm => h.member hinj orders orders' hm, ?_,
    fun i why hwhy hverdict => h.permanent hinj orders orders' hwhy hverdict⟩
  intro i held hat hstatement hcounted
  obtain ⟨statement, hparsed⟩ := Option.isSome_iff_exists.mp hstatement
  obtain rfl := Parsed.entry_statementAt hparsed
  have hmem := Parsed.mem_statements.mpr ⟨held, hat, hparsed⟩
  rw [verdict_new_statement hmem, Option.some.injEq] at hcounted
  exact (verdict_new_statement (h.statement_mem hmem)).trans
    (congrArg some (h.counted hinj hmem hcounted))

open Testing in
set_option maxRecDepth 100000 in
/-- Bob's join statement arrives at a replica that holds a removal of his by himself, and a
promotion comes in: the removal stays for nothing, and Alice's device stays listed. -/
theorem knowledge_grows_alice :
    let family := ((Store.createdBy alice).invite alice 1 bob).act .removed bob 2 bob 1
    let awaiting := family.entries.modify 2 fun held => { held with payload := .awaited }
    let grown := (family.act .promoted bob 2 alice 1).entries
    let view := MembershipView.new transparent (fun _ => default) family.pod family.namespaceId
    (view awaiting).verdicts[2]? = some (.notYet .payload) ∧
      (view awaiting).verdicts[3]? = some (.countedForNothing .wrongActor) ∧
      (view grown).verdicts[3]? = some (.countedForNothing .wrongActor) := by
  intro family awaiting grown view
  have hwrong : (view awaiting).verdicts[3]? = some (.countedForNothing .wrongActor) := by
    decide +kernel
  have hread : (family.entries[2]?).any (fun held => held.payload.bytes.isSome) = true := by
    decide +kernel
  have hgrows : Grows awaiting grown id := by
    intro i held hat
    obtain ⟨found, hfound, rfl⟩ : ∃ found, family.entries[i]? = some found ∧
        (if 2 = i then { found with payload := .awaited } else found) = held := by
      simpa only [awaiting, List.getElem?_modify, Option.map_eq_map,
        Option.map_eq_some_iff] using hat
    refine ⟨found, ?_, ?_⟩
    · exact (List.getElem?_append_left (List.getElem?_eq_some_iff.mp hfound).1).trans hfound
    · split
      · next htwo =>
        rw [htwo, hfound, Option.any_some] at hread
        cases hpayload : found.payload with
        | read bytes => exact ⟨rfl, rfl, Or.inr ⟨rfl, bytes, hpayload⟩⟩
        | awaited | unread | outOfBounds => simp [hpayload, HeldPayload.bytes] at hread
      · exact ⟨rfl, rfl, Or.inl rfl⟩
  exact ⟨by decide +kernel, hwrong, (knowledge_grows transparent_injective (fun _ => default)
    (fun _ => default) family.pod family.namespaceId awaiting grown id hgrows).2.2 3 .wrongActor
    (by simp [ForNothing.IsPermanent]) hwrong⟩

end MeePdn
