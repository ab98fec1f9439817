import MeePdn.PdnStore.Engine.Scheduled

/-!
# The capacity and the pauses of a provider

A provider has at most the limit of fetches in flight, one while it is probed, and none while it
pauses; and the resume that ends its pause is asked for once. A series of pauses is known to its
resume by a `u64` that wraps, so that the last of these has a condition.

## Main definitions

* `Fits` — every fetch starts where there is room.
* `Paces` — what a call as a whole does to the pauses.
* `Scheduler.Fresh` — no series starts under a number that a resume to come still carries.

## Main results

* `FetchCall.paces` — every call is one of three kinds.
* `Scheduler.orderly_run` — every fetch a call starts fits.
* `capacity_kept` — in every run the capacity and the pauses of every provider are kept.
* `Testing.number_comes_again` — after `2 ^ 64` series a resume of an old one ends the pause of a
  new one.
-/

namespace MeePdn.PdnStore.Engine

/-! ## Every fetch fits -/

/-- A provider that one more fetch may start toward: one with fewer than the limit in flight, or one
that is probed and has none in flight. -/
def Provider.Admits (entry : Provider) (limit : ℕ) : Prop :=
  match entry.series with
  | none => entry.inFlight < limit
  | some series => series.probing = true ∧ entry.inFlight = 0

lemma Provider.admits_iff {entry : Provider} {limit : ℕ} :
    entry.Admits limit ↔ entry.inFlight < entry.room limit := by
  grind [Provider.Admits, Provider.room]

/-- Every fetch of a list starts where there is room, with these in flight before the first. -/
def Fits (limit : ℕ) : List (NodeId × Hash) → List Start → Prop
  | _, [] => True
  | fly, start :: rest =>
    start.found.inFlight = (fly.countP fun flight => flight.1 = start.provider) ∧
      start.found.Admits limit ∧ Fits limit (fly ++ [(start.provider, start.hash)]) rest

lemma fits_concat {limit : ℕ} {fly : List (NodeId × Hash)} {starts : List Start} {start : Start} :
    Fits limit fly (starts ++ [start]) ↔ Fits limit fly starts ∧
      start.found.inFlight = ((fly ++ starts.map fun start => (start.provider, start.hash)).countP
        fun flight => flight.1 = start.provider) ∧ start.found.Admits limit := by
  induction starts generalizing fly with
  | nil => simp [Fits]
  | cons first starts ih => simp [Fits, ih, and_assoc]

/-- The fetches a call started fit, and the providers' counts are those of the fetches in flight. -/
structure Orderly (limit : ℕ) (fly : List (NodeId × Hash)) (work : Working) : Prop where
  limit_eq : work.limit = limit
  count : ∀ p, (work.providers p).inFlight =
    (fly ++ work.toSteps.flights).countP fun flight => flight.1 = p
  fits : Fits limit fly work.start

namespace Orderly

variable {limit : ℕ} {fly : List (NodeId × Hash)} {work work' : Working}

lemma same (h : Orderly limit fly work)
    (hflight : ∀ p, (work'.providers p).inFlight = (work.providers p).inFlight)
    (hlimit : work'.limit = work.limit) (hstart : work'.start = work.start) :
    Orderly limit fly work' := by
  refine ⟨hlimit.trans h.limit_eq, fun p => ?_, ?_⟩
  · rw [hflight, h.count, Steps.flights, Steps.flights, hstart]
  · rw [hstart]
    exact h.fits

lemma act (h : Orderly limit fly work) (hact : Act True True work work') :
    Orderly limit fly work' := by
  cases hact with
  | still hproviders hlimit _ hsteps _ =>
    exact h.same (fun p => (hproviders p).1) hlimit (congrArg Steps.start hsteps)
  | report | want => exact h.same (fun _ => rfl) rfl rfl
  | launch p hash wanted hroom _ =>
    rw [h.limit_eq] at hroom
    refine ⟨h.limit_eq, fun q => ?_,
      fits_concat.mpr ⟨h.fits, h.count p, Provider.admits_iff.mpr hroom⟩⟩
    have hq := h.count q
    simp only [Steps.flights] at hq
    simp only [Working.launch, Working.providers_alter, Working.setWanted, Steps.flights,
      List.map_append, List.map_cons, List.map_nil, List.countP_append, List.countP_cons,
      List.countP_nil] at hq ⊢
    by_cases hqp : q = p
    · subst hqp
      simp only [↓reduceIte, hq, decide_true]
      omega
    · simp [hqp, Ne.symm hqp, hq]
  | ends p =>
    refine h.same (fun q => ?_) rfl rfl
    rw [Working.providers_alter]
    split_ifs <;> rfl

lemma acts (h : Orderly limit fly work) (hacts : Acts True True work work') :
    Orderly limit fly work' := by
  induction hacts with
  | refl => exact h
  | tail _ hact ih => exact ih.act hact

lemma alter (h : Orderly limit fly work) (p : NodeId) (series : Option Series) :
    Orderly limit fly (work.alter p fun entry => { entry with series := series }) := by
  refine h.same (fun q => ?_) rfl rfl
  rw [Working.providers_alter]
  split_ifs <;> rfl

lemma pauseProvider (h : Orderly limit fly work) (p : NodeId) (now : ℕ) (order : SetOrder Hash) :
    Orderly limit fly (work.pauseProvider p now order) := by
  have harm : ∀ {work : Working} (series : Series), Orderly limit fly work →
      Orderly limit fly (work.armPause p series now order) := by
    intro work series h
    unfold Working.armPause
    split_ifs
    · exact (h.alter p _).acts (Acts.dropProvider _ _)
    · exact (h.alter p _).same (fun _ => rfl) rfl rfl
  unfold Working.pauseProvider
  split
  · split_ifs
    · exact harm _ h
    · exact h
  · exact harm _ (h.same (fun _ => rfl) rfl rfl)

end Orderly

variable {s : Scheduler}

/-- **Every fetch a call starts fits.** -/
lemma Scheduler.orderly_run (h : Sound s.flying s.resumes ∅ ∅ ∅ s.fetches.begin)
    (visits : Visits) {call : FetchCall} (henabled : s.Enabled call) :
    Orderly s.fetches.limit (s.flyingAt call) (call.run visits s.fetches) := by
  have hbegin : Orderly s.fetches.limit s.flying s.fetches.begin := ⟨rfl, h.count, trivial⟩
  cases call with
  | register hash p => exact hbegin.acts (Acts.register _ hash p)
  | want hash => exact hbegin.acts (Acts.want visits _ hash trivial)
  | unwant hash => exact hbegin.acts (Acts.unwant _ _ trivial)
  | finished p hash outcome neighbor now =>
    have hlanded : Orderly s.fetches.limit (s.flying.erase (p, hash))
      (s.fetches.landed p hash) := by
      refine ⟨Sound.steps_landed.2, (h.landed henabled).count, ?_⟩
      rw [Sound.steps_landed.1]
      trivial
    have hrest : Acts True True _ _ := Acts.finished visits s.fetches p hash outcome neighbor now
    rcases Acts.settled visits s.fetches p hash neighbor now fun _ => trivial with hacts | hacts
    · exact hlanded.acts (hacts.trans hrest)
    · exact (hlanded.pauseProvider p now _).acts (hacts.trans hrest)
  | resume p id =>
    rcases Acts.resume s.fetches p id with ⟨hsame, -⟩ | ⟨series, -, -, -, hacts⟩
    · rw [FetchCall.run, hsame]
      exact hbegin
    · exact (hbegin.alter p _).acts hacts
  | neighborGone p => exact hbegin.acts (Acts.neighborGone visits _ p)

/-! ## What a call does to the pauses -/

/-- No pause is asked for and none starts: a series stays as it is or ends. -/
structure Calm (work work' : Working) : Prop where
  series : ∀ q series, (work'.providers q).series = some series →
    (work.providers q).series = some series
  pause : work'.pause = work.pause
  next : work'.nextSeries = work.nextSeries

namespace Calm

variable {work work' work'' : Working}

lemma refl (work : Working) : Calm work work := ⟨fun _ _ => id, rfl, rfl⟩

lemma trans (h : Calm work work') (h' : Calm work' work'') : Calm work work'' :=
  ⟨fun q series hsome => h.series q series (h'.series q series hsome), h'.pause.trans h.pause,
    h'.next.trans h.next⟩

lemma act (hact : Act True True work work') : Calm work work' := by
  cases hact with
  | still hproviders _ hnext hsteps _ =>
    exact ⟨fun q series hsome => (hproviders q).2 ▸ hsome, congrArg Steps.pause hsteps, hnext⟩
  | report | want => exact ⟨fun _ _ => id, rfl, rfl⟩
  | launch p hash wanted _ _ =>
    refine ⟨fun q series hsome => ?_, rfl, rfl⟩
    simp only [Working.launch, Working.providers_alter, Working.setWanted] at hsome
    split_ifs at hsome <;> exact hsome
  | ends p =>
    refine ⟨fun q series hsome => ?_, rfl, rfl⟩
    rw [Working.providers_alter] at hsome
    split_ifs at hsome
    exact hsome

lemma acts (hacts : Acts True True work work') : Calm work work' := by
  induction hacts with
  | refl => exact refl work
  | tail _ hact ih => exact ih.trans (act hact)

end Calm

/-- A pause is asked for: that of a series whose probe failed, or the first of a new series. -/
structure Pauses (p : NodeId) (id : UInt64) (work work' : Working) : Prop where
  series : ∀ q series, (work'.providers q).series = some series →
    if q = p then series.id = id ∧ series.probing = false
    else (work.providers q).series = some series
  pause : ∃ wait, work'.pause = some (p, id, wait)
  next : (∃ series, (work.providers p).series = some series ∧ series.id = id ∧
      series.probing = true ∧ work'.nextSeries = work.nextSeries) ∨
    (work.providers p).series = none ∧ id = work.nextSeries ∧
      work'.nextSeries = work.nextSeries + 1

lemma Pauses.trans {p : NodeId} {id : UInt64} {work work' work'' : Working}
    (h : Pauses p id work work') (h' : Calm work' work'') : Pauses p id work work'' := by
  refine ⟨fun q series hsome => h.series q series (h'.series q series hsome), ?_, ?_⟩
  · rw [h'.pause]
    exact h.pause
  · rw [h'.next]
    exact h.next

/-- The parts of a pause that is due. -/
lemma armPause_cases (work : Working) (p : NodeId) (series : Series) (now : ℕ)
    (order : SetOrder Hash) (hprobing : series.probing = false) :
    (unreachedRetryFor ≤ now - series.since ∧ Calm work (work.armPause p series now order)) ∨
    (∀ q other, ((work.armPause p series now order).providers q).series = some other →
      if q = p then other.id = series.id ∧ other.probing = false
      else (work.providers q).series = some other) ∧
    (∃ wait, (work.armPause p series now order).pause = some (p, series.id, wait)) ∧
    (work.armPause p series now order).nextSeries = work.nextSeries := by
  unfold Working.armPause
  split_ifs with hover
  · refine .inl ⟨hover, fun q other hsome => ?_, ?_, ?_⟩
    all_goals
      simp only [Working.dropProvider, Working.excludeAll_eq _ (order.nodup_toList _)] at *
    · simp only [Working.providers_alter] at hsome
      split_ifs at hsome
      exact hsome
    · rfl
    · rfl
  · refine .inr ⟨fun q other hsome => ?_, ⟨_, rfl⟩, rfl⟩
    simp only [Working.providers_alter] at hsome
    split_ifs at hsome ⊢ with hqp
    · cases hsome
      exact ⟨rfl, hprobing⟩
    · exact hsome

/-- **What a stalled or failed fetch does to the pauses.** -/
lemma pauseProvider_cases (work : Working) (p : NodeId) (now : ℕ) (order : SetOrder Hash) :
    Calm work (work.pauseProvider p now order) ∨
      ∃ id, Pauses p id work (work.pauseProvider p now order) := by
  unfold Working.pauseProvider
  cases hseries : (work.providers p).series with
  | none =>
    rcases armPause_cases { work with nextSeries := work.nextSeries + 1 } p
      ⟨work.nextSeries, now, unreachedRetryFirst, false⟩ now order rfl with
      hover | ⟨hall, hpause, hnext⟩
    · simp [unreachedRetryFor] at hover
    · exact .inr ⟨_, hall, hpause, .inr ⟨hseries, rfl, hnext⟩⟩
  | some series =>
    simp only
    split_ifs with hprobing
    · rcases armPause_cases work p { series with probing := false } now order rfl with
        ⟨-, hcalm⟩ | ⟨hall, hpause, hnext⟩
      · exact .inl hcalm
      · exact .inr ⟨_, hall, hpause, .inl ⟨series, hseries, rfl, hprobing, hnext⟩⟩
    · exact .inl (Calm.refl work)

/-- **What a call does to the pauses**: a pause is asked for when a fetch ends, a resume that names
the pause begins the probe, and any other call starts nothing. -/
inductive Paces (fetches : Fetches) (call : FetchCall) (work : Working) : Prop
  | calm (hcall : ∀ p id, call = .resume p id → ∀ series,
        (fetches.providers p).series = some series → series.id ≠ id ∨ series.probing = true)
      (h : Calm fetches.begin work)
  | pauses (p : NodeId) (id : UInt64) (hcall : ∀ p id, call ≠ .resume p id)
      (h : Pauses p id fetches.begin work)
  | probes (p : NodeId) (id : UInt64) (series : Series) (hcall : call = .resume p id)
      (hseries : (fetches.providers p).series = some series) (hid : series.id = id)
      (hprobing : series.probing = false)
      (h : Calm (fetches.begin.alter p fun entry =>
        { entry with series := some { series with probing := true } }) work)

lemma paces_landed (fetches : Fetches) (p : NodeId) (hash : Hash) :
    (∀ q, ((fetches.landed p hash).providers q).series = (fetches.providers q).series) ∧
      (fetches.landed p hash).pause = none ∧
      (fetches.landed p hash).nextSeries = fetches.nextSeries := by
  refine ⟨fun q => ?_, by rw [Sound.steps_landed.1], ?_⟩
  · rw [Sound.providers_landed]
    split_ifs <;> rfl
  · unfold Fetches.landed
    simp only
    split
    · rfl
    · split_ifs <;> rfl

/-- **Every call is one of the three kinds.** -/
lemma FetchCall.paces (visits : Visits) (fetches : Fetches) (call : FetchCall) :
    Paces fetches call (call.run visits fetches) := by
  cases call with
  | register hash p => exact .calm (by simp) (Calm.acts (Acts.register _ hash p))
  | want hash => exact .calm (by simp) (Calm.acts (Acts.want visits _ hash trivial))
  | unwant hash => exact .calm (by simp) (Calm.acts (Acts.unwant _ _ trivial))
  | finished p hash outcome neighbor now =>
    obtain ⟨hseries, hpause, hnext⟩ := paces_landed fetches p hash
    have hlanded : Calm fetches.begin (fetches.landed p hash) :=
      ⟨fun q series hsome => hseries q ▸ hsome, hpause, hnext⟩
    have hrest : Acts True True _ _ := Acts.finished visits fetches p hash outcome neighbor now
    rcases Acts.settled visits fetches p hash neighbor now fun _ => trivial with hacts | hacts
    · exact .calm (by simp) (hlanded.trans (Calm.acts (hacts.trans hrest)))
    · rcases pauseProvider_cases (fetches.landed p hash) p now visits.hashes with
        hcalm | ⟨id, hpauses⟩
      · exact .calm (by simp) ((hlanded.trans hcalm).trans (Calm.acts (hacts.trans hrest)))
      · refine .pauses p id (by simp) (Pauses.trans ?_ (Calm.acts (hacts.trans hrest)))
        exact ⟨by simpa only [hseries, Fetches.begin] using hpauses.series, hpauses.pause,
          by simpa only [hseries, hnext, Fetches.begin] using hpauses.next⟩
  | resume p id =>
    rcases Acts.resume fetches p id with ⟨hsame, hstale⟩ | ⟨series, hseries, hid, hprobing, hacts⟩
    · rw [run, hsame]
      refine .calm (fun q other hcall => ?_) (Calm.refl _)
      cases hcall
      exact hstale
    · exact .probes p id series rfl hseries hid hprobing (Calm.acts hacts)
  | neighborGone p => exact .calm (by simp) (Calm.acts (Acts.neighborGone visits _ p))

/-! ## One resume for a pause -/

/-- A pause has one resume to come, and a series that is probed has none. -/
def Timely (res : List (NodeId × UInt64)) (work : Working) : Prop :=
  ∀ p series, (work.providers p).series = some series →
    (res ++ work.toSteps.armed).count (p, series.id) = if series.probing then 0 else 1

/-- No series starts under a number that a resume to come still carries. -/
def Scheduler.Fresh (s : Scheduler) (visits : Visits) (call : FetchCall) : Prop :=
  (call.run visits s.fetches).nextSeries ≠ s.fetches.nextSeries →
    ∀ pause ∈ (call.run visits s.fetches).pause, (pause.1, pause.2.1) ∉ s.resumes

/-- **A call keeps one resume for a pause.** -/
lemma Scheduler.timely_run {visits : Visits} {call : FetchCall}
    (h : Timely s.resumes s.fetches.begin) (henabled : s.Enabled call)
    (hfresh : s.Fresh visits call) : Timely (s.resumesAt call) (call.run visits s.fetches) := by
  have hbegin : ∀ p series, (s.fetches.providers p).series = some series →
      s.resumes.count (p, series.id) = if series.probing then 0 else 1 := by
    intro p series hsome
    simpa [Fetches.begin, Steps.armed] using h p series hsome
  cases FetchCall.paces visits s.fetches call with
  | calm hstale hcalm =>
    intro p series hsome
    have hcount := hbegin p series (hcalm.series p series hsome)
    have hsame : (s.resumesAt call).count (p, series.id) = s.resumes.count (p, series.id) := by
      unfold Scheduler.resumesAt
      split
      · rename_i q id
        refine List.count_erase_of_ne fun heq => ?_
        -- A resume that came in vain and names the series finds it probed, with none to come.
        cases heq
        have hprobing :=
          (hstale _ _ rfl series (hcalm.series _ series hsome)).resolve_left (by simp)
        rw [if_pos hprobing, List.count_eq_zero] at hcount
        exact hcount henabled
      · rfl
    simpa [Steps.armed, hcalm.pause, Fetches.begin, hsame] using hcount
  | pauses p id hcall hpauses =>
    have hsame : s.resumesAt call = s.resumes := by
      cases call with
      | resume q other => exact absurd rfl (hcall q other)
      | _ => rfl
    obtain ⟨wait, hpause⟩ := hpauses.pause
    have hnone : s.resumes.count (p, id) = 0 := by
      rcases hpauses.next with ⟨series, hseries, hid, hprobing, -⟩ | ⟨-, hid, hnext⟩
      · rw [← hid, hbegin p series hseries, if_pos hprobing]
      · refine List.count_eq_zero.mpr (hfresh ?_ (p, id, wait) (by simp [hpause]))
        rw [hnext]
        simp [Fetches.begin]
    intro q series hsome
    have hq := hpauses.series q series hsome
    simp only [hsame, Steps.armed, hpause, Option.toList_some, List.map_cons, List.map_nil,
      List.count_append]
    split_ifs at hq with hqp
    · simp [hqp, hq.1, hq.2, hnone]
    · rw [hbegin q series hq, List.count_eq_zero.mpr (by simp [hqp]), add_zero]
  | probes p id series hcall hseries hid hprobing hcalm =>
    subst hcall hid
    have hone : s.resumes.count (p, series.id) = 1 := by
      simpa [hprobing] using hbegin p series hseries
    have hpause : (FetchCall.run visits s.fetches (.resume p series.id)).pause = none := hcalm.pause
    intro q other hsome
    have hq := hcalm.series q other hsome
    simp only [Steps.armed, hpause, Option.toList_none, List.map_nil, List.append_nil,
      Scheduler.resumesAt]
    rw [Working.providers_alter] at hq
    split_ifs at hq with hqp
    · cases hq
      simp [hqp, hone]
    · rw [List.count_erase_of_ne (by simp [hqp]), hbegin q other hq]

/-- Series are numbered in turn: those that have started have the numbers before the next one's. -/
structure Numbered (n : ℕ) (s : Scheduler) : Prop where
  next : s.fetches.nextSeries = UInt64.ofNat n
  resumes : ∀ resume ∈ s.resumes, resume.2.toNat < n
  series : ∀ p series, (s.fetches.providers p).series = some series → series.id.toNat < n

namespace Numbered

variable {n : ℕ} {s : Scheduler} {visits : Visits} {call : FetchCall}

lemma fresh (h : Numbered n s) (hn : n < 2 ^ 64) : s.Fresh visits call := by
  intro hnext pause hpause hmem
  cases FetchCall.paces visits s.fetches call with
  | calm _ hcalm => exact hnext hcalm.next
  | pauses p id _ hpauses =>
    rcases hpauses.next with ⟨_, _, _, _, hsame⟩ | ⟨-, hid, -⟩
    · exact hnext hsame
    · obtain ⟨wait, hwait⟩ := hpauses.pause
      cases hwait.symm.trans hpause
      have hlt := h.resumes _ hmem
      have hid : id = UInt64.ofNat n := hid.trans h.next
      simp only [hid, UInt64.toNat_ofNat', Nat.mod_eq_of_lt hn, lt_irrefl] at hlt
  | probes p id series _ _ _ _ hcalm => exact hnext hcalm.next

/-- A call starts one series at most. -/
lemma step (h : Numbered n s) (hn : n < 2 ^ 64) : ∃ m ≤ n + 1, Numbered m (s.step visits call) := by
  have hkept : ∀ resume ∈ s.resumesAt call, resume.2.toNat < n := by
    intro resume hmem
    unfold Scheduler.resumesAt at hmem
    split at hmem
    · exact h.resumes resume (List.mem_of_mem_erase hmem)
    · exact h.resumes resume hmem
  cases FetchCall.paces visits s.fetches call with
  | calm _ hcalm =>
    refine ⟨n, by omega, hcalm.next.trans h.next, ?_, ?_⟩
    · simpa [Scheduler.step, Steps.armed, hcalm.pause, Fetches.begin] using hkept
    · exact fun p series hsome => h.series p series (hcalm.series p series hsome)
  | pauses p id _ hpauses =>
    obtain ⟨wait, hpause⟩ := hpauses.pause
    -- The number of the pause is below `m`, whether the series is a new one or not.
    have hall : ∀ m, n ≤ m → id.toNat < m →
        (call.run visits s.fetches).nextSeries = UInt64.ofNat m →
          Numbered m (s.step visits call) := by
      intro m hnm hid hnext
      refine ⟨hnext, ?_, fun q series hsome => ?_⟩
      · grind [Scheduler.step, Steps.armed]
      · have hq := hpauses.series q series hsome
        split_ifs at hq
        · rw [hq.1]
          exact hid
        · exact (h.series q series hq).trans_le hnm
    rcases hpauses.next with ⟨series, hseries, hid, -, hnext⟩ | ⟨-, hid, hnext⟩
    · exact ⟨n, by omega, hall n le_rfl (hid ▸ h.series p series hseries) (hnext.trans h.next)⟩
    · have hid : id = UInt64.ofNat n := hid.trans h.next
      refine ⟨n + 1, le_rfl, hall (n + 1) (by omega) ?_ ?_⟩
      · simp only [hid, UInt64.toNat_ofNat', Nat.mod_eq_of_lt hn]
        omega
      · rw [hnext]
        simp [Fetches.begin, h.next, UInt64.ofNat_add]
  | probes p id series hcall hseries hid _ hcalm =>
    refine ⟨n, by omega, hcalm.next.trans h.next, ?_, fun q other hsome => ?_⟩
    · have hpause : (call.run visits s.fetches).pause = none := hcalm.pause
      simpa [Scheduler.step, Steps.armed, hpause] using hkept
    · have hq := hcalm.series q other hsome
      rw [Working.providers_alter] at hq
      split_ifs at hq with hqp
      · cases hq
        exact h.series p series hseries
      · exact h.series q other hq

end Numbered

/-! ## Every run -/

namespace Scheduler

lemma after_append (s : Scheduler) (calls calls' : List (Visits × FetchCall)) :
    s.after (calls ++ calls') = (s.after calls).after calls' :=
  List.foldl_append

lemma valid_append {calls calls' : List (Visits × FetchCall)} :
    s.Valid (calls ++ calls') ↔ s.Valid calls ∧ (s.after calls).Valid calls' := by
  induction calls generalizing s with
  | nil => simp [Valid, after]
  | cons call calls ih => simp [Valid, ih, after, and_assoc]

/-- No call starts a series under a number that a resume to come still carries. -/
def Renews : Scheduler → List (Visits × FetchCall) → Prop
  | _, [] => True
  | s, call :: calls => s.Fresh call.1 call.2 ∧ Renews (s.step call.1 call.2) calls

/-- Whether a resume to come ends the pause it was asked for, and is not stale. -/
def live (s : Scheduler) (resume : NodeId × UInt64) : Bool :=
  (s.fetches.providers resume.1).series.any fun series => series.id = resume.2 ∧ !series.probing

lemma renews_of_numbered {n : ℕ} (h : Numbered n s)
    (calls : List (Visits × FetchCall)) (hcalls : n + calls.length ≤ 2 ^ 64) : s.Renews calls := by
  induction calls generalizing s n with
  | nil => trivial
  | cons call calls ih =>
    rw [List.length_cons] at hcalls
    have hn : n < 2 ^ 64 := by omega
    obtain ⟨m, hm, hnumbered⟩ := h.step hn
    exact ⟨h.fresh hn, ih hnumbered (by omega)⟩

/-- **In a run whose numbers are new, a pause has one resume to come.** -/
lemma timely_after (h : Timely s.resumes s.fetches.begin)
    {calls : List (Visits × FetchCall)} (hvalid : s.Valid calls) (hrenews : s.Renews calls) :
    Timely (s.after calls).resumes (s.after calls).fetches.begin := by
  induction calls generalizing s with
  | nil => exact h
  | cons call calls ih =>
    refine ih ?_ hvalid.2 hrenews.2
    have hrun := timely_run h hvalid.1 hrenews.1
    intro p series hsome
    simpa [Fetches.begin, Steps.armed, step] using hrun p series hsome

lemma limit_after (h : Sound s.flying s.resumes ∅ ∅ ∅ s.fetches.begin)
    {calls : List (Visits × FetchCall)} (hvalid : s.Valid calls) :
    (s.after calls).fetches.limit = s.fetches.limit := by
  induction calls generalizing s with
  | nil => rfl
  | cons call calls ih =>
    exact (ih (sound_step call.1 hvalid.1 h) hvalid.2).trans
      (orderly_run h call.1 hvalid.1).limit_eq

/-- At most one resume that is not stale is to come for a provider. -/
lemma live_le_one (h : Timely s.resumes s.fetches.begin) (p : NodeId) :
    (s.resumes.countP fun resume => decide (resume.1 = p) && s.live resume) ≤ 1 := by
  cases hseries : (s.fetches.providers p).series with
  | none =>
    refine (List.countP_eq_zero.mpr fun resume _ => ?_).le.trans zero_le_one
    simp only [live, Bool.and_eq_true, decide_eq_true_eq, not_and]
    rintro rfl
    simp [hseries]
  | some series =>
    have hcount := h p series hseries
    simp only [Fetches.begin, Steps.armed, Option.toList_none, List.map_nil, List.append_nil]
      at hcount
    have hle : (s.resumes.countP fun resume => decide (resume.1 = p) && s.live resume) ≤
        s.resumes.count (p, series.id) := by
      refine List.countP_mono_left fun resume _ hlive => ?_
      simp only [live, Bool.and_eq_true, decide_eq_true_eq] at hlive
      obtain ⟨rfl, hlive⟩ := hlive
      simp only [hseries, Option.any_some, decide_eq_true_eq] at hlive
      simp [hlive.1]
    refine hle.trans ?_
    rw [hcount]
    split_ifs <;> omega

end Scheduler

/-- **The fetch scheduler respects each provider's capacity and pauses.** In every run the count of
a provider is the number of the fetches toward it that are out, and within the limit; every fetch
starts toward a provider that has fewer than the limit in flight, or is probed and has none in
flight, so that none starts toward one that pauses; and no two resumes to come would end a
provider's pause, unless a series started under a number that a resume to come still carried, which
takes more than `2 ^ 64` calls.

**Proof sketch.** The counts are those of `Sound`, and with them every fetch is started by a turn of
the loop that found room (`Scheduler.orderly_run`). For the resumes every call is one of three kinds
(`FetchCall.paces`): one that starts no pause, one that asks for a resume of a series that has none
to come, and the resume of a pause. -/
theorem capacity_kept (limit : ℕ) (calls : List (Visits × FetchCall))
    (hvalid : (Scheduler.new limit).Valid calls) :
    (∀ p, (((Scheduler.new limit).after calls).fetches.providers p).inFlight =
        (((Scheduler.new limit).after calls).flying.countP fun flight => flight.1 = p) ∧
      (((Scheduler.new limit).after calls).fetches.providers p).inFlight ≤ limit) ∧
    (∀ visits call, ((Scheduler.new limit).after calls).Enabled call →
      Fits limit (((Scheduler.new limit).after calls).flyingAt call)
        (call.run visits ((Scheduler.new limit).after calls).fetches).start) ∧
    ((Scheduler.new limit).Renews calls → ∀ p,
      (((Scheduler.new limit).after calls).resumes.countP fun resume =>
        decide (resume.1 = p) && ((Scheduler.new limit).after calls).live resume) ≤ 1) ∧
    (calls.length ≤ 2 ^ 64 → (Scheduler.new limit).Renews calls) := by
  have hnew := Scheduler.sound_after limit [] trivial
  have hsound := Scheduler.sound_after limit calls hvalid
  have hlimit : ((Scheduler.new limit).after calls).fetches.limit = limit :=
    Scheduler.limit_after hnew hvalid
  refine ⟨fun p => ⟨?_, ?_⟩, fun visits call henabled => ?_, fun hrenews p => ?_, fun hcalls => ?_⟩
  · simpa [Fetches.begin, Steps.flights] using hsound.count p
  · exact (hsound.within p).trans hlimit.le
  · have hfits := (Scheduler.orderly_run hsound visits henabled).fits
    rwa [hlimit] at hfits
  · refine Scheduler.live_le_one (Scheduler.timely_after ?_ hvalid hrenews) p
    intro q series hsome
    simp [Scheduler.new, Fetches.new, Fetches.begin] at hsome
  · refine Scheduler.renews_of_numbered (n := 0) ⟨rfl, ?_, ?_⟩ calls (by omega) <;>
      simp [Scheduler.new, Fetches.new]

namespace Testing

/-- The run in which a provider stalls and is asked again keeps its capacity. -/
theorem capacity_kept_stalling :
    (((Scheduler.new 1).after stalling).fetches.providers holder).inFlight = 1 ∧
      (((Scheduler.new 1).after stalling).fetches.providers holder).inFlight ≤ 1 :=
  ⟨by decide +kernel, ((capacity_kept 1 stalling valid_stalling).1 holder).2⟩

/-- What a scheduler with a limit of two has of one provider and its two payloads. -/
structure Shows (first second : Option Wanted) (entry : Provider) (next : UInt64)
    (flying : List (NodeId × Hash)) (s : Scheduler) : Prop where
  limit : s.fetches.limit = 2
  holders : s.fetches.holders album = {holder}
  first : s.fetches.wanted photo = first
  second : s.fetches.wanted album = second
  entry : s.fetches.providers holder = entry
  next : s.fetches.nextSeries = next
  flying : s.flying = flying

/-- Both payloads are being fetched. -/
abbrev Loaded (next : UInt64) : Scheduler → Prop :=
  Shows (some ⟨{holder}, some holder⟩) (some ⟨{holder}, some holder⟩) ⟨[], {album, photo}, 2, none⟩
    next [(holder, photo), (holder, album)]

/-- One fetch stalls, the other succeeds, and its payload is wanted again. -/
noncomputable def falter : List (Visits × FetchCall) :=
  [(inTurn, .finished holder photo .stalled true 0),
    (inTurn, .finished holder album .fetched true 0),
    (inTurn, .want album)]

lemma toList_holder : inTurn.providers.toList {holder} = [holder] := by decide +kernel

lemma photo_ne_album : photo ≠ album := by decide +kernel

/-- A fetch stalls, and the provider pauses. -/
lemma shows_stalled {k : UInt64} (h : Loaded k s) :
    Shows (some ⟨{holder}, none⟩) (some ⟨{holder}, some holder⟩)
        ⟨[photo], {album, photo}, 1, some ⟨k, 0, 2000, false⟩⟩ (k + 1) [(holder, album)]
        (s.step inTurn (.finished holder photo .stalled true 0)) ∧
      (s.step inTurn (.finished holder photo .stalled true 0)).resumes =
        s.resumes ++ [(holder, k)] := by
  obtain ⟨hlimit, hholders, hfirst, hsecond, hentry, hnext, hflying⟩ := h
  have hne := photo_ne_album.symm
  refine ⟨⟨?_, ?_, ?_, ?_, ?_, ?_, ?_⟩, ?_⟩ <;>
    simp [Scheduler.step, Scheduler.flyingAt, Scheduler.resumesAt, Steps.flights, Steps.armed,
      FetchCall.run, Fetches.finished, Fetches.settled, Fetches.landed, Fetches.begin,
      Working.alter,
      Working.setWanted, Working.pauseProvider, Working.armPause, Working.requeue, Working.alterAll,
      Working.dispatchAll, Working.dispatch, Working.dispatchLoop, Working.endProbe,
      Working.unrouteIfStranded, Provider.room, Provider.enqueue, unreachedRetryFor,
      unreachedRetryFirst, unreachedRetryMax, toList_holder, hlimit, hholders, hfirst, hsecond,
      hentry, hnext, hflying, hne]

/-- The other fetch brings its payload, which ends the series: the first payload is asked for again.
-/
lemma shows_fetched {k next : UInt64}
    (h : Shows (some ⟨{holder}, none⟩) (some ⟨{holder}, some holder⟩)
      ⟨[photo], {album, photo}, 1, some ⟨k, 0, 2000, false⟩⟩ next [(holder, album)] s) :
    Shows (some ⟨{holder}, some holder⟩) none ⟨[], {photo}, 1, none⟩ next [(holder, photo)]
        (s.step inTurn (.finished holder album .fetched true 0)) ∧
      (s.step inTurn (.finished holder album .fetched true 0)).resumes = s.resumes := by
  obtain ⟨hlimit, hholders, hfirst, hsecond, hentry, hnext, hflying⟩ := h
  have hne := photo_ne_album
  have herase : ({album, photo} : Finset Hash).erase album = {photo} := by decide +kernel
  refine ⟨⟨?_, ?_, ?_, ?_, ?_, ?_, ?_⟩, ?_⟩ <;>
    simp [Scheduler.step, Scheduler.flyingAt, Scheduler.resumesAt, Steps.flights, Steps.armed,
      FetchCall.run, Fetches.finished, Fetches.settled, Fetches.landed, Fetches.begin,
      Working.alter,
      Working.setWanted, Working.unwant, Working.alterAll, Working.dispatch, Working.dispatchLoop,
      Working.launch, Working.endProbe, Working.unrouteIfStranded, Provider.room, Provider.release,
      toList_holder, hlimit, hholders, hfirst, hsecond, hentry, hnext, hflying, hne,
      hne.symm, herase]

/-- Its payload is wanted again. -/
lemma shows_wanted {next : UInt64}
    (h : Shows (some ⟨{holder}, some holder⟩) none ⟨[], {photo}, 1, none⟩ next
      [(holder, photo)] s) :
    Loaded next (s.step inTurn (.want album)) ∧
      (s.step inTurn (.want album)).resumes = s.resumes := by
  obtain ⟨hlimit, hholders, hfirst, hsecond, hentry, hnext, hflying⟩ := h
  have hne := photo_ne_album
  refine ⟨⟨?_, ?_, ?_, ?_, ?_, ?_, ?_⟩, ?_⟩ <;>
    simp [Scheduler.step, Scheduler.flyingAt, Scheduler.resumesAt, Steps.flights, Steps.armed,
      FetchCall.run, Fetches.want, Fetches.begin, Working.alter, Working.setWanted,
      Working.alterAll,
      Working.dispatchAll, Working.dispatch, Working.dispatchLoop, Working.launch, Working.endProbe,
      Provider.room, Provider.take, toList_holder, hlimit, hholders, hfirst, hsecond, hentry, hnext,
      hflying, hne]

lemma loaded_falter {k : UInt64} (h : Loaded k s) :
    s.Valid falter ∧ Loaded (k + 1) (s.after falter) ∧
      (s.after falter).resumes = s.resumes ++ [(holder, k)] := by
  obtain ⟨hstalled, hresumes⟩ := shows_stalled h
  obtain ⟨hfetched, hresumes'⟩ := shows_fetched hstalled
  obtain ⟨hwanted, hresumes''⟩ := shows_wanted hfetched
  refine ⟨⟨?_, ?_, trivial, trivial⟩, hwanted, ?_⟩
  · rw [Scheduler.Enabled, h.flying]
    exact List.mem_cons_self
  · rw [Scheduler.Enabled, hstalled.flying]
    exact List.mem_cons_self
  · exact (hresumes''.trans hresumes').trans hresumes

/-- However often the fetches falter, the resumes that were to come still are. -/
lemma loaded_faltering (n : ℕ) {k : UInt64} (h : Loaded k s) :
    ∃ calls, s.Valid calls ∧ Loaded (k + UInt64.ofNat n) (s.after calls) ∧
      s.resumes <+: (s.after calls).resumes := by
  induction n generalizing k s with
  | zero => exact ⟨[], trivial, by simpa [Scheduler.after] using h, List.prefix_rfl⟩
  | succ n ih =>
    obtain ⟨hvalid, hloaded, hresumes⟩ := loaded_falter h
    obtain ⟨calls, hcalls, hloaded', hresumes'⟩ := ih hloaded
    refine ⟨falter ++ calls, Scheduler.valid_append.mpr ⟨hvalid, hcalls⟩, ?_, ?_⟩
    · rw [Scheduler.after_append]
      have hsum : k + 1 + UInt64.ofNat n = k + UInt64.ofNat (n + 1) := by
        rw [UInt64.ofNat_add, UInt64.add_assoc, UInt64.add_comm 1]
        rfl
      exact hsum ▸ hloaded'
    · rw [Scheduler.after_append]
      exact (hresumes ▸ List.prefix_append _ _).trans hresumes'

/-- Both payloads are wanted of their one provider. -/
noncomputable def loading : List (Visits × FetchCall) :=
  [(inTurn, .register photo holder), (inTurn, .register album holder), (inTurn, .want photo),
    (inTurn, .want album)]

lemma loaded_loading : Loaded 0 ((Scheduler.new 2).after loading) := by
  refine ⟨?_, ?_, ?_, ?_, ?_, ?_, ?_⟩ <;> decide +kernel

/-- **The number of a series comes again**: a fetch stalls `2 ^ 64` times while another one
succeeds, and then once more. The resumes of the first series and of the last one have the same
number, and either would end the pause. -/
theorem number_comes_again :
    ∃ calls, (Scheduler.new 2).Valid calls ∧
    2 ≤ (((Scheduler.new 2).after calls).resumes.countP fun resume =>
      decide (resume.1 = holder) && ((Scheduler.new 2).after calls).live resume) := by
  obtain ⟨hvalid, hloaded, hresumes⟩ := loaded_falter loaded_loading
  obtain ⟨calls, hcalls, hagain, hkept⟩ := loaded_faltering (2 ^ 64 - 1) hloaded
  have hzero : (0 : UInt64) + 1 + UInt64.ofNat (2 ^ 64 - 1) = 0 := by decide
  rw [hzero] at hagain
  obtain ⟨hstalled, hresumes'⟩ := shows_stalled hagain
  have hfirst : 1 ≤ ((((Scheduler.new 2).after loading).after falter).after calls).resumes.count
      (holder, 0) := by grind
  refine ⟨loading ++
    (falter ++ (calls ++ [(inTurn, .finished holder photo .stalled true 0)])), ?_, ?_⟩
  · simp only [Scheduler.valid_append]
    refine ⟨by decide +kernel, hvalid, hcalls, ?_, trivial⟩
    rw [Scheduler.Enabled, hagain.flying]
    exact List.mem_cons_self
  · simp only [Scheduler.after_append]
    have hcount : ∀ s : Scheduler, Shows (some ⟨{holder}, none⟩) (some ⟨{holder}, some holder⟩)
        ⟨[photo], {album, photo}, 1, some ⟨0, 0, 2000, false⟩⟩ (0 + 1) [(holder, album)] s →
        s.resumes.count (holder, 0) ≤
          s.resumes.countP fun resume => decide (resume.1 = holder) && s.live resume := by
      intro s hshows
      refine List.countP_mono_left fun resume _ heq => ?_
      rw [beq_iff_eq] at heq
      simp [heq, Scheduler.live, hshows.entry]
    refine le_trans ?_ (hcount _ hstalled)
    simp only [Scheduler.after, List.foldl_cons, List.foldl_nil] at hresumes' hfirst ⊢
    rw [hresumes', List.count_append]
    simpa using hfirst

end Testing

end MeePdn.PdnStore.Engine
