import MeePdn.DataLayer.Pod.MembershipView.Run

/-!
# What the checks on each entry find

`Parsed::of` and `Alone::of` are loops over the entries; this module says what they leave. An event
is read off the entry it lies in, a chain's run is the sequences held without a gap, a member's
devices are those its counted statements and verified join statements name, and the candidates are
the events that pass every check.

## Main results

* `Parsed.mem_events`, `Parsed.le_run_iff` — the events, and the runs they make.
* `Alone.of_checked` — what the checks leave.
* `Alone.refusal_eq_none_iff` — what an event has to meet to be a candidate.
* `candidatesOf`, `run_candidatesOf` — the candidates with all that the evaluation rests on, and
  what every pass over them shows.
-/

namespace MeePdn

/-! ## Parsed -/

variable {event : Event} {statement : Statement}

namespace Parsed

variable {entries : List HeldEntry} {held : HeldEntry} {member : PdnId}

lemma entry_eventAt {i : ℕ} (h : eventAt (held, i) = some event) : event.entry = i := by
  unfold eventAt at h
  split at h
  · rw [← Option.some.inj h]
  · simp at h

lemma eventAt_moved {i : ℕ} (h : eventAt (held, i) = some event) (j : ℕ) :
    eventAt (held, j) = some { event with entry := j } := by grind [eventAt]

/-- **The events are read off the entries.** -/
lemma mem_events :
    event ∈ (of entries).events ↔
    ∃ held, entries[event.entry]? = some held ∧ eventAt (held, event.entry) = some event := by
  show event ∈ entries.zipIdx.filterMap eventAt ↔ _
  rw [List.mem_filterMap]
  constructor
  · grind [entry_eventAt]
  · rintro ⟨held, hheld, hevent⟩
    exact ⟨(held, event.entry), List.mem_zipIdx_iff_getElem?.mpr hheld, hevent⟩

lemma entry_statementAt {i : ℕ}
    (h : statementAt (held, i) = some statement) : statement.entry = i := by
  unfold statementAt at h
  split at h
  · rw [← Option.some.inj h]
  · simp at h

lemma statementAt_moved {i : ℕ} (h : statementAt (held, i) = some statement) (j : ℕ) :
    statementAt (held, j) = some { statement with entry := j } := by grind [statementAt]

lemma mem_statements :
    statement ∈ (of entries).statements ↔
    ∃ held, entries[statement.entry]? = some held ∧
      statementAt (held, statement.entry) = some statement := by
  show statement ∈ entries.zipIdx.filterMap statementAt ↔ _
  rw [List.mem_filterMap]
  constructor
  · grind [entry_statementAt]
  · rintro ⟨held, hheld, hstatement⟩
    exact ⟨(held, statement.entry), List.mem_zipIdx_iff_getElem?.mpr hheld, hstatement⟩

lemma eventAt_statementAt {i : ℕ}
    (h : eventAt (held, i) = some event) (h' : statementAt (held, i) = some statement) : False := by
  grind [eventAt, statementAt]

lemma nodup_filterMap {α : Type} {f : HeldEntry × ℕ → Option α} {index : α → ℕ}
    (h : ∀ p a, f p = some a → index a = p.2) : ((entries.zipIdx.filterMap f).map index).Nodup := by
  have hsub : ((entries.zipIdx.filterMap f).map index).Sublist (entries.zipIdx.map Prod.snd) := by
    induction entries.zipIdx with
    | nil => simp
    | cons p l ih => grind
  refine hsub.nodup ?_
  rw [List.zipIdx_map_snd]
  exact List.nodup_range'

lemma events_nodup : ((of entries).events.map Event.entry).Nodup :=
  nodup_filterMap fun _ _ => entry_eventAt

lemma statements_nodup : ((of entries).statements.map Statement.entry).Nodup :=
  nodup_filterMap fun _ _ => entry_statementAt

lemma eq_of_entry {event event' : Event} (h : event ∈ (of entries).events)
    (h' : event' ∈ (of entries).events) (hentry : event.entry = event'.entry) : event = event' :=
  List.inj_on_of_nodup_map events_nodup h h' hentry

lemma entry_ne (h : event ∈ (of entries).events)
    (h' : statement ∈ (of entries).statements) : event.entry ≠ statement.entry := by
  intro heq
  obtain ⟨held, hheld, hat⟩ := mem_events.mp h
  obtain ⟨held', hheld', hat'⟩ := mem_statements.mp h'
  rw [heq] at hheld hat
  obtain rfl := Option.some.inj (hheld.symm.trans hheld')
  exact eventAt_statementAt hat hat'

/-! ### Runs -/

lemma mem_present {seq : ℕ} :
    seq ∈ (of entries).present member ↔
    ∃ event ∈ (of entries).events, event.subject = member ∧ event.seq = seq := by
  show seq ∈ (((of entries).events.filter fun event => event.subject = member).map
    Event.seq).toFinset ↔ _
  simp only [List.mem_toFinset, List.mem_map, List.mem_filter, decide_eq_true_eq]
  constructor
  · rintro ⟨event, ⟨hmem, hsubject⟩, hseq⟩
    exact ⟨event, hmem, hsubject, hseq⟩
  · rintro ⟨event, hmem, hsubject, hseq⟩
    exact ⟨event, ⟨hmem, hsubject⟩, hseq⟩

lemma countRun_mem (held : Finset ℕ) (fuel : ℕ) :
    ∀ run, (∀ s, 1 ≤ s → s ≤ run → s ∈ held) →
    run ≤ countRun held fuel run ∧ ∀ s, 1 ≤ s → s ≤ countRun held fuel run → s ∈ held := by
  induction fuel with
  | zero => exact fun run h => ⟨le_rfl, h⟩
  | succ fuel ih => grind [countRun]

/-- Counting a run stops at a sequence that is not held, given a turn for each held one. -/
lemma countRun_stop (held : Finset ℕ) (fuel : ℕ) :
    ∀ run,
    (∀ s, 1 ≤ s → s ≤ run → s ∈ held) → held.card ≤ run + fuel →
    countRun held fuel run + 1 ∉ held := by
  induction fuel with
  | zero =>
    intro run h hcard hnext
    -- then the held sequences would be more than there are
    have hsub : Finset.Icc 1 (run + 1) ⊆ held := by
      intro s hs
      obtain ⟨h1, hs⟩ := Finset.mem_Icc.mp hs
      rcases Nat.lt_or_eq_of_le hs with hlt | rfl
      · exact h s h1 (by omega)
      · exact hnext
    have := Finset.card_le_card hsub
    simp at this
    omega
  | succ fuel ih => grind [countRun]

/-- **A run reaches a sequence** exactly when the chain holds every sequence up to it. -/
lemma le_run_iff {seq : ℕ} :
    seq ≤ (of entries).run member ↔
    ∀ s, 1 ≤ s → s ≤ seq → s ∈ (of entries).present member := by
  have hrun : (of entries).run member =
      countRun ((of entries).present member) ((of entries).present member).card 0 := rfl
  obtain ⟨-, hall⟩ := countRun_mem ((of entries).present member)
    ((of entries).present member).card 0 (by omega)
  have hstop := countRun_stop ((of entries).present member)
    ((of entries).present member).card 0 (by omega) (by omega)
  rw [← hrun] at hall hstop
  constructor
  · exact fun hle s h1 hs => hall s h1 (hs.trans hle)
  · intro h
    by_contra hlt
    exact hstop (h _ (by omega) (by omega))

lemma mem_chains :
    member ∈ (of entries).chains ↔
    ∃ event ∈ (of entries).events, event.subject = member := by
  show member ∈ ((of entries).events.map Event.subject).dedup ↔ _
  rw [List.mem_dedup, List.mem_map]

lemma mem_chains_of_run (hrun : 0 < (of entries).run member) : member ∈ (of entries).chains := by
  obtain ⟨event, hmem, hsubject, -⟩ := mem_present.mp (le_run_iff.mp hrun 1 le_rfl le_rfl)
  exact mem_chains.mpr ⟨event, hmem, hsubject⟩

/-- A run is no longer than its chain's entries. -/
lemma run_le_count (member : PdnId) :
    (of entries).run member ≤
    ((of entries).events.map Event.subject).count member := by
  have hsub : Finset.Icc 1 ((of entries).run member) ⊆ (of entries).present member := by
    intro s hs
    obtain ⟨h1, hs⟩ := Finset.mem_Icc.mp hs
    exact le_run_iff.mp le_rfl s h1 hs
  calc (of entries).run member
      = (Finset.Icc 1 ((of entries).run member)).card := by simp
    _ ≤ ((of entries).present member).card := Finset.card_le_card hsub
    _ ≤ (((of entries).events.filter fun event => event.subject = member).map Event.seq).length :=
        List.toFinset_card_le _
    _ = ((of entries).events.map Event.subject).count member := by
        rw [List.length_map, List.count, List.countP_map, List.countP_eq_length_filter]
        congr 1

lemma run_le_length (member : PdnId) : (of entries).run member ≤ entries.length := by
  have hcount := (run_le_count member : (of entries).run member ≤ _).trans List.count_le_length
  have hevents : (of entries).events.length ≤ entries.zipIdx.length :=
    List.length_filterMap_le eventAt _
  rw [List.length_map] at hcount
  rw [List.length_zipIdx] at hevents
  omega

lemma runs_le : ((of entries).chains.map (of entries).run).sum ≤ (of entries).events.length := by
  calc ((of entries).chains.map (of entries).run).sum
      ≤ ((of entries).chains.map
          fun member => ((of entries).events.map Event.subject).count member).sum :=
        List.sum_le_sum fun member _ => run_le_count member
    _ = ((of entries).events.map Event.subject).length := List.sum_map_count_dedup_eq_length _
    _ = (of entries).events.length := List.length_map _

lemma seq_le_run (hmem : event ∈ (of entries).events)
    (hbefore : event.seq - 1 ≤ (of entries).run event.subject) :
    event.seq ≤ (of entries).run event.subject := by
  refine le_run_iff.mpr fun s h1 hs => ?_
  rcases Nat.lt_or_eq_of_le hs with hlt | rfl
  · exact le_run_iff.mp hbefore s h1 (by omega)
  · exact mem_present.mpr ⟨event, hmem, rfl, rfl⟩

end Parsed

/-! ## Alone -/

namespace Alone

variable {prims : Primitives} {pod : PodId} {store : NamespaceId} {entries : List HeldEntry}
  {parsed : Parsed}

/-! ### The loops -/

lemma length_foldl_set {α : Type} (index : α → ℕ) (f : α → Option Verdict) (l : List α)
    (verdicts : List Verdict) :
    (l.foldl (fun vs a => match f a with
        | some v => vs.set (index a) v
        | none => vs) verdicts).length = verdicts.length := by
  induction l generalizing verdicts with
  | nil => rfl
  | cons a l ih =>
    rw [List.foldl_cons, ih]
    rcases f a with _ | v
    · rfl
    · exact List.length_set

lemma getElem?_foldl_set {α : Type} (index : α → ℕ) (f : α → Option Verdict) (l : List α)
    (hnodup : (l.map index).Nodup) (verdicts : List Verdict) (place : ℕ) :
    (l.foldl (fun vs a => match f a with
        | some v => vs.set (index a) v
        | none => vs) verdicts)[place]? = if place < verdicts.length then
        ((l.find? fun a => index a = place).bind f).or verdicts[place]? else none := by
  induction l generalizing verdicts with
  | nil => grind
  | cons a l ih => grind

/-- A counted statement of a member lists a device. -/
def Lists (prims : Primitives) (pod : PodId) (entries : List HeldEntry)
    (keys : PdnId → Option (Bytes 32)) (statement : Statement) (member : PdnId)
    (device : MemberDevice) : Prop :=
  statement.member = member ∧ statementVerdict prims pod entries keys statement = .counted ∧
    ∃ devices, listedDevices entries statement.entry = some devices ∧ device ∈ devices

lemma listedDevices_isSome {keys : PdnId → Option (Bytes 32)}
    (h : statementVerdict prims pod entries keys statement = .counted) :
    ∃ devices, listedDevices entries statement.entry = some devices := by
  unfold statementVerdict at h
  unfold listedDevices
  split at h
  · grind [payload]
  · next bytes hpayload =>
    split at h
    · simp at h
    · next payload hdecode => exact ⟨payload.devices, by simp [hdecode]⟩

/-- What `count_statements` makes of some statements. -/
structure StatementsCounted (prims : Primitives) (pod : PodId) (entries : List HeldEntry)
    (l : List Statement) (acc acc' : Alone) : Prop where
  keys : acc'.keys = acc.keys
  candidates : acc'.candidates = acc.candidates
  verdicts : acc'.verdicts =
    l.foldl (fun vs st => match some (statementVerdict prims pod entries acc.keys st) with
      | some v => vs.set st.entry v
      | none => vs) acc.verdicts
  mem_devices : ∀ member device, device ∈ acc'.devices member ↔ device ∈ acc.devices member ∨
    ∃ statement ∈ l, Lists prims pod entries acc.keys statement member device
  authors : (∀ member, acc.authors member = (acc.devices member).image MemberDevice.author) →
    ∀ member, acc'.authors member = (acc'.devices member).image MemberDevice.author
  versions_le : ∀ member version, acc'.statementVersions member ≤ version ↔
    acc.statementVersions member ≤ version ∧ ∀ statement ∈ l, statement.member = member →
      statementVerdict prims pod entries acc.keys statement = .counted →
        statement.version.toNat ≤ version

/-- One turn of `count_statements`. -/
lemma StatementsCounted.single (acc : Alone) (statement : Statement) :
    StatementsCounted prims pod entries [statement] acc
      (countStatement prims pod entries acc statement) := by
  unfold countStatement
  dsimp only
  by_cases hcounted : statementVerdict prims pod entries acc.keys statement = .counted
  · obtain ⟨devices, hdevices⟩ := listedDevices_isSome hcounted
    simp only [hcounted, if_true, hdevices]
    refine ⟨rfl, rfl, by simp [hcounted], fun member device => ?_, fun hauthors member => ?_,
      fun member version => ?_⟩
    · rcases eq_or_ne statement.member member with rfl | hne
      · simp [Lists, hcounted, hdevices]
      · simp [Lists, hne, Ne.symm hne]
    · rcases eq_or_ne statement.member member with rfl | hne
      · simp only [Function.update_self, hauthors, Finset.image_union]
        congr 1
        ext author
        simp
      · simp [Ne.symm hne, hauthors]
    · grind
  · simp only [hcounted, if_false]
    refine ⟨rfl, rfl, by simp, fun member device => ?_, fun hauthors member => hauthors member,
      fun member version => ?_⟩
    · simp [Lists, hcounted]
    · simp [hcounted]

/-- Counting some statements and then more. -/
lemma StatementsCounted.trans {l l' : List Statement} {acc₁ acc₂ acc₃ : Alone}
    (h : StatementsCounted prims pod entries l acc₁ acc₂)
    (h' : StatementsCounted prims pod entries l' acc₂ acc₃) :
    StatementsCounted prims pod entries (l ++ l') acc₁ acc₃ where
  keys := h'.keys.trans h.keys
  candidates := h'.candidates.trans h.candidates
  verdicts := by rw [h'.verdicts, h.verdicts, h.keys, List.foldl_append]
  mem_devices := fun member device => by
    rw [h'.mem_devices, h.mem_devices, h.keys]
    simp [or_and_right, exists_or, or_assoc]
  authors := fun hauthors => h'.authors (h.authors hauthors)
  versions_le := fun member version => by
    rw [h'.versions_le, h.versions_le, h.keys]
    simp [or_imp, forall_and, and_assoc]

/-- **What the loop of `count_statements` leaves.** -/
lemma statementsCounted_foldl (l : List Statement) (acc : Alone) :
    StatementsCounted prims pod entries l acc (l.foldl (countStatement prims pod entries) acc) := by
  induction l generalizing acc with
  | nil => exact ⟨rfl, rfl, rfl, by simp, fun h => h, by simp⟩
  | cons statement l ih => exact (StatementsCounted.single acc statement).trans (ih _)

variable (prims pod entries) in
/-- **What the loop of `count_joining_devices` leaves.** -/
lemma foldl_countJoiningDevice (l : List Event) (acc : Alone) :
    (l.foldl (countJoiningDevice prims pod entries) acc).keys = acc.keys ∧
    (l.foldl (countJoiningDevice prims pod entries) acc).candidates = acc.candidates ∧
    (l.foldl (countJoiningDevice prims pod entries) acc).verdicts = acc.verdicts ∧
    (l.foldl (countJoiningDevice prims pod entries) acc).statementVersions = acc.statementVersions ∧
    (∀ member device, device ∈ (l.foldl (countJoiningDevice prims pod entries) acc).devices member ↔
        device ∈ acc.devices member ∨ ∃ event ∈ l, event.subject = member ∧
          joiningDevice prims pod entries event = some device) ∧
    ((∀ member, acc.authors member = (acc.devices member).image MemberDevice.author) →
      ∀ member, (l.foldl (countJoiningDevice prims pod entries) acc).authors member =
        ((l.foldl (countJoiningDevice prims pod entries) acc).devices member).image
          MemberDevice.author) := by
  induction l generalizing acc with
  | nil => simp
  | cons event l ih =>
    rw [List.foldl_cons]
    obtain ⟨ihkeys, ihcandidates, ihverdicts, ihversions, ihdevices, ihauthors⟩ :=
      ih (countJoiningDevice prims pod entries acc event)
    rcases hjoining : joiningDevice prims pod entries event with _ | device
    · grind [countJoiningDevice]
    · have hstep : countJoiningDevice prims pod entries acc event =
          { acc with
            authors := Function.update acc.authors event.subject
              (insert device.author (acc.authors event.subject))
            devices := Function.update acc.devices event.subject
              (insert device (acc.devices event.subject)) } := by
        simp [countJoiningDevice, hjoining]
      rw [hstep] at ihkeys ihcandidates ihverdicts ihversions ihdevices ihauthors ⊢
      refine ⟨ihkeys, ihcandidates, ihverdicts, ihversions, fun member d => ?_, fun hauthors => ?_⟩
      · grind
      · grind

/-- The verdict `check_alone` writes for an event; `none` for one that passes. -/
def refusal (prims : Primitives) (pod : PodId) (store : NamespaceId) (entries : List HeldEntry)
    (parsed : Parsed) (authors : PdnId → Finset AuthorId) (event : Event) : Option Verdict :=
  match alone prims pod store entries parsed authors event with
  | .ok () => none
  | .error verdict => some verdict

variable (prims pod store entries parsed) in
/-- **What the loop of `check_alone` leaves.** -/
lemma foldl_checkAlone (l : List Event) (acc : Alone) :
    (l.foldl (checkAlone prims pod store entries parsed) acc).keys = acc.keys ∧
    (l.foldl (checkAlone prims pod store entries parsed) acc).devices = acc.devices ∧
    (l.foldl (checkAlone prims pod store entries parsed) acc).authors = acc.authors ∧
    (l.foldl (checkAlone prims pod store entries parsed) acc).statementVersions =
      acc.statementVersions ∧
    (l.foldl (checkAlone prims pod store entries parsed) acc).candidates = acc.candidates ++
      l.filter (fun event => refusal prims pod store entries parsed acc.authors event = none) ∧
    (l.foldl (checkAlone prims pod store entries parsed) acc).verdicts =
      l.foldl (fun vs event => match refusal prims pod store entries parsed acc.authors event with
        | some v => vs.set event.entry v
        | none => vs) acc.verdicts := by
  induction l generalizing acc with
  | nil => simp
  | cons event l ih => grind [refusal, checkAlone]

/-- **A key found is one an event of the chain carries**, and derives the member. -/
lemma findKeys_spec (member : PdnId) :
    (∀ key, findKeys prims entries parsed member = some key → pdnIdOf prims key = member ∧
      ∃ event ∈ parsed.events, event.subject = member ∧ carriedKey entries event = some key) ∧
    (∀ event ∈ parsed.events, event.subject = member → ∀ key,
      carriedKey entries event = some key → pdnIdOf prims key = member →
        (findKeys prims entries parsed member).isSome) := by
  have hfold : ∀ (l : List Event) (keys : PdnId → Option (Bytes 32)),
      (∀ key, l.foldl (findKey prims entries) keys member = some key →
        keys member = some key ∨ pdnIdOf prims key = member ∧
          ∃ event ∈ l, event.subject = member ∧ carriedKey entries event = some key) ∧
      ((keys member).isSome ∨ (∃ event ∈ l, event.subject = member ∧ ∃ key,
        carriedKey entries event = some key ∧ pdnIdOf prims key = member) →
          (l.foldl (findKey prims entries) keys member).isSome) := by
    intro l
    induction l with
    | nil => simp
    | cons event l ih =>
      intro keys
      rw [List.foldl_cons]
      rcases hkey : (carriedKey entries event).filter
        fun key => pdnIdOf prims key = event.subject with _ | key
      · have hturn : findKey prims entries keys event = keys := by simp only [findKey, hkey]
        obtain ⟨hsound, hcomplete⟩ := ih keys
        rw [hturn]
        refine ⟨fun key hfound => ?_, fun h => hcomplete (h.imp_right ?_)⟩
        · refine (hsound key hfound).imp_right fun ⟨hid, f, hf, hrest⟩ => ?_
          exact ⟨hid, f, List.mem_cons_of_mem _ hf, hrest⟩
        · grind
      · have hturn : findKey prims entries keys event =
            Function.update keys event.subject (some key) := by simp only [findKey, hkey]
        obtain ⟨hcarried, hid⟩ := Option.filter_eq_some_iff.mp hkey
        obtain ⟨hsound, hcomplete⟩ := ih (Function.update keys event.subject (some key))
        rw [hturn]
        refine ⟨fun k hfound => ?_, fun h => hcomplete ?_⟩
        · grind
        · grind
  obtain ⟨hsound, hcomplete⟩ := hfold parsed.events fun _ => none
  refine ⟨fun key hfound => (hsound key hfound).resolve_left (by simp), ?_⟩
  exact fun event hmem hsubject key hcarried hid =>
    hcomplete (Or.inr ⟨event, hmem, hsubject, key, hcarried, hid⟩)

/-! ### What the checks leave -/

/-- What the checks of a list of entries leave. -/
structure Checked (prims : Primitives) (pod : PodId) (store : NamespaceId)
    (entries : List HeldEntry) (alone : Alone) : Prop where
  keys : alone.keys = findKeys prims entries (Parsed.of entries)
  mem_devices : ∀ member device, device ∈ alone.devices member ↔
    (∃ statement ∈ (Parsed.of entries).statements,
      Lists prims pod entries alone.keys statement member device) ∨
    ∃ event ∈ (Parsed.of entries).events, event.subject = member ∧
      joiningDevice prims pod entries event = some device
  authors : ∀ member, alone.authors member = (alone.devices member).image MemberDevice.author
  versions_le : ∀ member version, alone.statementVersions member ≤ version ↔
    ∀ statement ∈ (Parsed.of entries).statements, statement.member = member →
      statementVerdict prims pod entries alone.keys statement = .counted →
        statement.version.toNat ≤ version
  sublist : alone.candidates.Sublist (Parsed.of entries).events
  mem_candidates : ∀ event, event ∈ alone.candidates ↔ event ∈ (Parsed.of entries).events ∧
    refusal prims pod store entries (Parsed.of entries) alone.authors event = none
  length : alone.verdicts.length = entries.length
  verdict_event : ∀ event ∈ (Parsed.of entries).events, ∀ verdict,
    refusal prims pod store entries (Parsed.of entries) alone.authors event = some verdict →
      alone.verdicts[event.entry]? = some verdict
  verdict_statement : ∀ statement ∈ (Parsed.of entries).statements,
    alone.verdicts[statement.entry]? =
      some (statementVerdict prims pod entries alone.keys statement)
  verdict_outside : ∀ entry < entries.length,
    (∀ event ∈ (Parsed.of entries).events, event.entry ≠ entry) →
    (∀ statement ∈ (Parsed.of entries).statements, statement.entry ≠ entry) →
      alone.verdicts[entry]? = some .outsideLayout

lemma find?_index {α : Type} {index : α → ℕ} {l : List α} (hnodup : (l.map index).Nodup) {a : α}
    (ha : a ∈ l) : (l.find? fun b => index b = index a) = some a := by
  rcases hfind : l.find? fun b => index b = index a with _ | b
  · exact absurd (List.find?_eq_none.mp hfind a ha) (by simp)
  · have hb : index b = index a := by simpa using List.find?_some hfind
    exact congrArg some (List.inj_on_of_nodup_map hnodup (List.mem_of_find?_eq_some hfind) ha hb)

variable (prims pod store entries) in
/-- **What `Alone::of` leaves.** -/
lemma of_checked :
    Checked prims pod store entries (of prims pod store entries (Parsed.of entries)) := by
  set start : Alone :=
    { keys := findKeys prims entries (Parsed.of entries)
      devices := fun _ => ∅
      statementVersions := fun _ => 0
      authors := fun _ => ∅
      verdicts := List.replicate entries.length .outsideLayout
      candidates := [] } with hstart
  set counted := (Parsed.of entries).statements.foldl (countStatement prims pod entries) start
    with hcounted
  set joined := (Parsed.of entries).events.foldl (countJoiningDevice prims pod entries) counted
    with hjoined
  have hof : of prims pod store entries (Parsed.of entries) =
    (Parsed.of entries).events.foldl (checkAlone prims pod store entries (Parsed.of entries))
      joined := rfl
  have hstatements : StatementsCounted prims pod entries _ start counted :=
    statementsCounted_foldl _ start
  obtain ⟨hkeys, hcandidates, hverdicts, hversions, hdevices, hauthors⟩ :=
    foldl_countJoiningDevice prims pod entries (Parsed.of entries).events counted
  rw [← hjoined] at hkeys hcandidates hverdicts hversions hdevices hauthors
  obtain ⟨ckeys, cdevices, cauthors, cversions, ccandidates, cverdicts⟩ :=
    foldl_checkAlone prims pod store entries (Parsed.of entries) (Parsed.of entries).events joined
  rw [← hof] at ckeys cdevices cauthors cversions ccandidates cverdicts
  replace ccandidates := ccandidates.trans (by
    rw [hcandidates, hstatements.candidates, List.nil_append])
  rw [← cauthors] at ccandidates cverdicts
  have hkeys' : (of prims pod store entries (Parsed.of entries)).keys =
      findKeys prims entries (Parsed.of entries) := by rw [ckeys, hkeys, hstatements.keys]
  rw [hverdicts, hstatements.verdicts] at cverdicts
  -- the verdict of a place is that of the event there, else of the statement, else what it was
  have hplace : ∀ place, (of prims pod store entries (Parsed.of entries)).verdicts[place]? =
      if place < entries.length then
        (((Parsed.of entries).events.find? fun event => event.entry = place).bind
          (refusal prims pod store entries (Parsed.of entries)
            (of prims pod store entries (Parsed.of entries)).authors)).or
        (if place < entries.length then
          (((Parsed.of entries).statements.find? fun statement => statement.entry = place).bind
            fun statement => some (statementVerdict prims pod entries start.keys statement)).or
          (if place < entries.length then some .outsideLayout else none)
        else none)
      else none := by
    intro place
    rw [cverdicts, getElem?_foldl_set Event.entry _ _ Parsed.events_nodup,
      length_foldl_set Statement.entry
        fun statement => some (statementVerdict prims pod entries start.keys statement),
      getElem?_foldl_set Statement.entry
        (fun statement => some (statementVerdict prims pod entries start.keys statement)) _
        Parsed.statements_nodup]
    simp only [hstart, List.length_replicate, List.getElem?_replicate]
  have hlt : ∀ place, ∀ held, entries[place]? = some held → place < entries.length :=
    fun place held h => (List.getElem?_eq_some_iff.mp h).1
  refine ⟨hkeys', fun member device => ?_, fun member => ?_, fun member version => ?_, ?_,
    fun event => ?_, ?_, fun event hevent verdict hrefused => ?_, fun statement hstatement => ?_,
    fun entry hentry hevents hstatements => ?_⟩
  · rw [cdevices, hdevices, hstatements.mem_devices, hkeys']
    simp [hstart]
  · rw [cauthors, cdevices]
    exact hauthors (hstatements.authors fun _ => by simp [hstart]) member
  · rw [cversions, hversions, hstatements.versions_le, hkeys']
    simp [hstart]
  · rw [ccandidates]
    exact List.filter_sublist
  · rw [ccandidates, List.mem_filter]
    simp
  · rw [cverdicts, length_foldl_set Event.entry, length_foldl_set Statement.entry
      fun statement => some (statementVerdict prims pod entries start.keys statement)]
    simp [hstart]
  · obtain ⟨held, hheld, -⟩ := Parsed.mem_events.mp hevent
    rw [hplace, if_pos (hlt _ _ hheld), find?_index Parsed.events_nodup hevent, Option.bind_some,
      hrefused, Option.some_or]
  · obtain ⟨held, hheld, -⟩ := Parsed.mem_statements.mp hstatement
    have hnone : ((Parsed.of entries).events.find? fun event => event.entry = statement.entry) =
        none := by
      refine List.find?_eq_none.mpr fun event hevent => ?_
      simpa using Parsed.entry_ne hevent hstatement
    rw [hplace, if_pos (hlt _ _ hheld), if_pos (hlt _ _ hheld), hnone,
      find?_index Parsed.statements_nodup hstatement, hkeys']
    simp [hstart]
  · grind

/-- **An event passes every check** when it lies past sequence 0, its kind's checks pass, its
author is one of its actor's, and the runs reach the point it names and the one before its own. -/
lemma refusal_eq_none_iff {authors : PdnId → Finset AuthorId} :
    refusal prims pod store entries parsed authors event = none ↔
      event.seq ≠ 0 ∧ kindAlone prims pod store entries event = .ok () ∧
      (∃ a, author entries event.entry = some a ∧ a ∈ authors event.actor) ∧
      event.actorSeq ≤ parsed.run event.actor ∧ event.seq - 1 ≤ parsed.run event.subject := by
  unfold refusal alone
  by_cases hseq : event.seq = 0
  · simp [hseq]
  rcases kindAlone prims pod store entries event with verdict | ⟨⟩
  · simp [hseq, bind, Except.bind]
  · by_cases hauthor : ∃ a, author entries event.entry = some a ∧ a ∈ authors event.actor
    · have hany : ((author entries event.entry).any fun a => a ∈ authors event.actor) = true := by
        simpa [Option.any_eq_true] using hauthor
      by_cases hactor : event.actorSeq ≤ parsed.run event.actor
      · by_cases hsubject : event.seq - 1 ≤ parsed.run event.subject <;>
          simp [hseq, hauthor, hany, hactor, hsubject, Parsed.holds, bind, Except.bind]
      · simp [hseq, hany, hactor, Parsed.holds, bind, Except.bind]
    · have hany : ((author entries event.entry).any fun a => a ∈ authors event.actor) = false := by
        rw [Bool.eq_false_iff, Ne, Option.any_eq_true]
        simpa using hauthor
      simp [hseq, hauthor, hany, bind, Except.bind]

end Alone

/-! ## The candidates -/

/-- The candidates of a list of entries, with what the evaluation rests on. -/
def candidatesOf (prims : Primitives) (pod : PodId) (store : NamespaceId)
    (entries : List HeldEntry) : Candidates (Parsed.of entries) where
  list := (Alone.of prims pod store entries (Parsed.of entries)).candidates
  entry_nodup := ((Alone.of_checked prims pod store entries).sublist.map Event.entry).nodup
    Parsed.events_nodup
  seq_pos := fun event hevent => by
    obtain ⟨-, hpass⟩ := ((Alone.of_checked prims pod store entries).mem_candidates event).mp hevent
    exact Nat.pos_of_ne_zero (Alone.refusal_eq_none_iff.mp hpass).1
  seq_le_run := fun event hevent => by
    obtain ⟨hmem, hpass⟩ :=
      ((Alone.of_checked prims pod store entries).mem_candidates event).mp hevent
    exact Parsed.seq_le_run hmem (Alone.refusal_eq_none_iff.mp hpass).2.2.2.2
  actorSeq_le_run := fun event hevent => by
    obtain ⟨-, hpass⟩ := ((Alone.of_checked prims pod store entries).mem_candidates event).mp hevent
    exact (Alone.refusal_eq_none_iff.mp hpass).2.2.2.1
  chains_nodup := List.nodup_dedup _
  mem_chains := fun _ => Parsed.mem_chains_of_run
  length_le := (Alone.of_checked prims pod store entries).sublist.length_le
  runs_le := Parsed.runs_le

section CandidatesOf

variable {prims : Primitives} {pod : PodId} {store : NamespaceId} {entries : List HeldEntry}

/-- **The candidates** are the events that pass every check. -/
lemma mem_candidatesOf :
    event ∈ (candidatesOf prims pod store entries).list ↔ event ∈ (Parsed.of entries).events ∧
      Alone.refusal prims pod store entries (Parsed.of entries)
        (Alone.of prims pod store entries (Parsed.of entries)).authors event = none :=
  (Alone.of_checked prims pod store entries).mem_candidates event

lemma candidatesOf_entry_lt (hevent : event ∈ (candidatesOf prims pod store entries).list) :
    event.entry < entries.length := by
  obtain ⟨held, hheld, -⟩ := Parsed.mem_events.mp (mem_candidatesOf.mp hevent).1
  exact (List.getElem?_eq_some_iff.mp hheld).1

variable (prims pod store entries) in
/-- **Every pass over the entries** shows what the log of their candidates settles in. -/
lemma run_candidatesOf (order : HashOrder) (setAside : Finset ℕ) :
    Pass.Solves (candidatesOf prims pod store entries) setAside
      (Alone.of prims pod store entries (Parsed.of entries)).verdicts
      (Pass.run (Parsed.of entries) (Alone.of prims pod store entries (Parsed.of entries)) order
        setAside) := by
  refine Pass.run_solves (candidatesOf prims pod store entries) rfl (fun event hevent => ?_) order
    setAside
  rw [(Alone.of_checked prims pod store entries).length]
  exact candidatesOf_entry_lt hevent

end CandidatesOf

end MeePdn
