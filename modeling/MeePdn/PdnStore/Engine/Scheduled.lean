import Mathlib.Logic.Relation
import MeePdn.PdnStore.Engine.Fetches

/-!
# What the fetch scheduler keeps

Queues hold stale and repeated payloads, fetches outlive the want that started them, and a provider
is paused, probed, dropped and named again while fetches toward it are out. This file has the
invariant all of that keeps.

## Main definitions

* `Working.Pick` — one turn of the loop that starts fetches.
* `Sound` — the invariant, up to the payloads and providers a call has still to see to.
* `Act`, `Acts` — what the parts of a call do to fetches, pauses and wants.
* `Unroutes` — payloads stop being wanted by being reported, and each once.

## Main results

* `Sound.dispatch`, `Sound.requeue`, `Sound.dropProvider`, `Sound.pauseProvider` — what the parts of
  a call see to.
* `Scheduler.sound_step` — every call keeps the invariant.
* `fetches_scheduled` — in every run no wanted payload is lost and no usable slot is idle.
-/

namespace MeePdn.PdnStore.Engine

/-! ## The parts of a call -/

namespace Working

variable {work : Working} {p q : NodeId} {hash : Hash}

lemma providers_alter (change : Provider → Provider) :
    (work.alter p change).providers q =
      if q = p then change (work.providers q) else work.providers q := by
  by_cases h : q = p
  · subst h
    simp [alter]
  · simp [alter, h]

/-- The entries after a list of them changed, and nothing else. -/
lemma alterAll_eq (ps : List NodeId) (hps : ps.Nodup) (change : Provider → Provider) :
    work.alterAll ps change =
      { work with providers := fun q =>
          if q ∈ ps then change (work.providers q) else work.providers q } := by
  induction ps generalizing work with
  | nil => simp [alterAll]
  | cons p ps ih =>
    have hp := List.nodup_cons.mp hps
    have hrest : work.alterAll (p :: ps) change = (work.alter p change).alterAll ps change := rfl
    rw [hrest, ih hp.2]
    simp only [alter, Working.mk.injEq, Fetches.mk.injEq, true_and, and_true]
    funext q
    by_cases hq : q = p
    · subst hq
      simp [hp.1]
    · simp [hq]

lemma wanted_unwant (order : SetOrder NodeId) (other : Hash) :
    (work.unwant hash order).wanted other = if other = hash then none else work.wanted other := by
  unfold unwant
  cases hw : work.wanted hash with
  | none =>
    split_ifs with hne
    · rw [hne, hw]
    · rfl
  | some wanted =>
    simp only [alterAll_eq _ (order.nodup_toList _), setWanted, Function.update_apply]

lemma unrouted_unwant (order : SetOrder NodeId) :
    (work.unwant hash order).unrouted = work.unrouted := by
  unfold unwant
  split
  · rfl
  · simp only [alterAll_eq _ (order.nodup_toList _), setWanted]

/-- What is left of a want when a provider is no longer eligible. -/
def without (p : NodeId) (wanted : Wanted) : Wanted :=
  { wanted with eligible := wanted.eligible.erase p }

/-- The payloads a provider alone could be fetched from. -/
def strands (work : Working) (p : NodeId) (hash : Hash) : Bool :=
  (work.wanted hash).any fun wanted =>
    decide ((without p wanted).eligible = ∅ ∧ wanted.fetching = none)

/-- One payload's turn when a provider is dropped. -/
lemma exclude_unroute_eq :
    (work.exclude hash p).unrouteIfStranded hash =
      { work with
        wanted := Function.update work.wanted hash
          (if work.strands p hash then none else (work.wanted hash).map (without p))
        unrouted := work.unrouted ++ if work.strands p hash then [hash] else [] } := by
  cases hw : work.wanted hash with
  | none =>
    have hsame : Function.update work.wanted hash none = work.wanted := by
      rw [← hw, Function.update_eq_self]
    simp [exclude, unrouteIfStranded, strands, hw, hsame]
  | some wanted =>
    by_cases hstrands : wanted.eligible.erase p = ∅ ∧ wanted.fetching = none
    · simp [exclude, unrouteIfStranded, strands, setWanted, without, hw, hstrands]
    · simp [exclude, unrouteIfStranded, strands, setWanted, without, hw, hstrands]

/-- What is wanted after a provider was excluded, and what is reported. -/
lemma excludeAll_eq (hashes : List Hash) (hhashes : hashes.Nodup) :
    work.excludeAll p hashes =
      { work with
        wanted := fun hash =>
          if hash ∈ hashes then
            if work.strands p hash then none else (work.wanted hash).map (without p)
          else work.wanted hash
        unrouted := work.unrouted ++ hashes.filter (work.strands p) } := by
  induction hashes generalizing work with
  | nil => simp [excludeAll]
  | cons hash hashes ih =>
    have hhash := List.nodup_cons.mp hhashes
    have hrest : work.excludeAll p (hash :: hashes) =
        ((work.exclude hash p).unrouteIfStranded hash).excludeAll p hashes := rfl
    -- What another payload strands on is untouched by this one's turn.
    have hother : ∀ other, other ≠ hash →
        ((work.exclude hash p).unrouteIfStranded hash).strands p other = work.strands p other := by
      intro other hne
      rw [exclude_unroute_eq]
      simp [strands, hne]
    rw [hrest, ih hhash.2]
    have hfilter : hashes.filter (((work.exclude hash p).unrouteIfStranded hash).strands p) =
        hashes.filter (work.strands p) :=
      List.filter_congr fun other hmem => hother other (by rintro rfl; exact hhash.1 hmem)
    rw [hfilter, exclude_unroute_eq]
    simp only [Working.mk.injEq, Fetches.mk.injEq, Steps.mk.injEq, true_and, and_true]
    refine ⟨funext fun other => ?_, ?_⟩
    · by_cases hne : other = hash
      · subst hne
        simp [hhash.1]
      · simp [hne, strands]
    · by_cases hstrands : work.strands p hash
      · simp [hstrands]
      · simp [hstrands]

/-- One turn of the loop that starts fetches: the payload in turn is passed over, or fetched. -/
inductive Pick (p : NodeId) (work : Working) : Working → Prop
  | skip {hash : Hash} {rest : List Hash} (hqueue : (work.providers p).queue = hash :: rest)
      (hroom : (work.providers p).inFlight < (work.providers p).room work.limit)
      (hnot : ∀ wanted, work.wanted hash = some wanted →
        wanted.fetching ≠ none ∨ p ∉ wanted.eligible) :
      Pick p work (work.alter p fun entry => { entry with queue := rest })
  | launch {hash : Hash} {rest : List Hash} {wanted : Wanted}
      (hqueue : (work.providers p).queue = hash :: rest)
      (hroom : (work.providers p).inFlight < (work.providers p).room work.limit)
      (hwanted : work.wanted hash = some wanted) (hfree : wanted.fetching = none)
      (heligible : p ∈ wanted.eligible) :
      Pick p work ((work.alter p fun entry => { entry with queue := rest }).launch p hash wanted)

lemma Pick.room {work' : Working} (h : Pick p work work') :
    (work'.providers p).room work'.limit = (work.providers p).room work.limit := by
  cases h <;> simp [Provider.room, alter, Working.launch, setWanted]

lemma Pick.queue {work' : Working} (h : Pick p work work') {hash : Hash} {rest : List Hash}
    (hqueue : (work.providers p).queue = hash :: rest) : (work'.providers p).queue = rest := by
  cases h with
  | skip hqueue' =>
    simp only [hqueue, List.cons.injEq] at hqueue'
    simp [alter, hqueue'.2]
  | launch hqueue' =>
    simp only [hqueue, List.cons.injEq] at hqueue'
    simp [alter, Working.launch, setWanted, hqueue'.2]

/-- The loop takes turns until the queue is empty or there is no room.

**Proof sketch.** By induction on the queue. -/
lemma dispatchLoop_picks (queue : List Hash) (hqueue : (work.providers p).queue = queue) :
    let work' := dispatchLoop p ((work.providers p).room work.limit) queue work
    Relation.ReflTransGen (Pick p) work work' ∧
      ((work'.providers p).queue = [] ∨
        (work'.providers p).room work'.limit ≤ (work'.providers p).inFlight) := by
  induction queue generalizing work with
  | nil => exact ⟨.refl, .inl hqueue⟩
  | cons hash rest ih =>
    intro work'
    by_cases hroom : (work.providers p).inFlight < (work.providers p).room work.limit
    · -- Whichever turn it is, the rest of the loop starts where it ends.
      have hturn : ∀ next, Pick p work next →
          work' = dispatchLoop p ((next.providers p).room next.limit) rest next →
          Relation.ReflTransGen (Pick p) work work' ∧
            ((work'.providers p).queue = [] ∨
              (work'.providers p).room work'.limit ≤ (work'.providers p).inFlight) := by
        intro next hpick hloop
        obtain ⟨hpath, hend⟩ := ih (hpick.queue hqueue)
        rw [hloop]
        exact ⟨.head hpick hpath, hend⟩
      cases hw : work.wanted hash with
      | none =>
        have hpick := Pick.skip hqueue hroom fun wanted h => by simp [hw] at h
        refine hturn _ hpick ?_
        rw [hpick.room]
        simp [work', dispatchLoop, hroom, alter, hw]
      | some wanted =>
        by_cases hnot : wanted.fetching.isSome ∨ p ∉ wanted.eligible
        · have hpick := Pick.skip hqueue hroom fun other h => by
            rw [hw, Option.some.injEq] at h
            subst h
            exact hnot.imp_left Option.isSome_iff_ne_none.mp
          refine hturn _ hpick ?_
          rw [hpick.room]
          simp [work', dispatchLoop, hroom, alter, hw, hnot]
        · have hboth := not_or.mp hnot
          have hpick := Pick.launch hqueue hroom hw (by simpa using hboth.1)
            (by simpa using hboth.2)
          refine hturn _ hpick ?_
          rw [hpick.room]
          simp [work', dispatchLoop, hroom, alter, hw, hnot]
    · have hsame : work' = work := by simp [work', dispatchLoop, hroom]
      rw [hsame]
      exact ⟨.refl, .inr (not_lt.mp hroom)⟩

end Working

/-! ## The invariant -/

/-- The invariant of the scheduler, while a call is at work. `fly` and `res` are the fetches in
flight and the resumes to come when the call began; the call has still to see to the providers in
`late`, which may have room while something is queued, to the payloads in `unqueued`, which need not
be queued, and to those in `stranded`, which need not have a provider. -/
structure Sound (fly : List (NodeId × Hash)) (res : List (NodeId × UInt64)) (late : Set NodeId)
    (unqueued stranded : Set Hash) (work : Working) : Prop where
  /-- A provider holds what it is eligible for. -/
  holds : ∀ hash p, hash ∈ (work.providers p).holds ↔
    ∃ wanted, work.wanted hash = some wanted ∧ p ∈ wanted.eligible
  /-- A payload nobody fetches is in the queue of every eligible provider. -/
  queued : ∀ hash wanted, hash ∉ unqueued → work.wanted hash = some wanted →
    wanted.fetching = none → ∀ p ∈ wanted.eligible, hash ∈ (work.providers p).queue
  /-- A provider with something queued has no room. -/
  busy : ∀ p, p ∉ late → (work.providers p).queue ≠ [] →
    (work.providers p).room work.limit ≤ (work.providers p).inFlight
  /-- A payload has a provider or is fetched. -/
  routed : ∀ hash wanted, hash ∉ stranded → work.wanted hash = some wanted →
    wanted.eligible.Nonempty ∨ wanted.fetching ≠ none
  /-- A payload that is fetched is in flight. -/
  fetching : ∀ hash wanted p, work.wanted hash = some wanted → wanted.fetching = some p →
    (p, hash) ∈ fly ++ work.toSteps.flights
  /-- A pause has its resume to come. -/
  paused : ∀ p series, (work.providers p).series = some series → series.probing = false →
    (p, series.id) ∈ res ++ work.toSteps.armed
  /-- What is in flight is counted. -/
  count : ∀ p, (work.providers p).inFlight =
    (fly ++ work.toSteps.flights).countP fun flight => flight.1 = p
  within : ∀ p, (work.providers p).inFlight ≤ work.limit
  /-- A provider is paused only after a fetch toward it. -/
  tried : ∀ p series, (work.providers p).series = some series → 1 ≤ work.limit

namespace Sound

variable {fly : List (NodeId × Hash)} {res : List (NodeId × UInt64)} {late late' : Set NodeId}
  {unqueued unqueued' stranded stranded' : Set Hash} {work work' : Working} {p : NodeId}
  {hash : Hash} (h : Sound fly res late unqueued stranded work)

include h

lemma mono (hlate : late ⊆ late')
    (hunqueued : unqueued ⊆ unqueued') (hstranded : stranded ⊆ stranded') :
    Sound fly res late' unqueued' stranded' work :=
  { h with
    queued := fun hash wanted hnot => h.queued hash wanted fun hmem => hnot (hunqueued hmem)
    busy := fun p hnot => h.busy p fun hmem => hnot (hlate hmem)
    routed := fun hash wanted hnot => h.routed hash wanted fun hmem => hnot (hstranded hmem) }

/-- Another queue or another series for a provider. -/
lemma alter {change : Provider → Provider}
    (hholds : (change (work.providers p)).holds = (work.providers p).holds)
    (hflight : (change (work.providers p)).inFlight = (work.providers p).inFlight)
    (hqueue : ∀ hash wanted, hash ∉ unqueued → work.wanted hash = some wanted →
      wanted.fetching = none → p ∈ wanted.eligible → hash ∈ (change (work.providers p)).queue)
    (hlate : ∀ q, q ≠ p → q ∈ late → q ∈ late')
    (hbusy : p ∉ late' → (change (work.providers p)).queue ≠ [] →
      (change (work.providers p)).room work.limit ≤ (work.providers p).inFlight)
    (hseries : ∀ series, (change (work.providers p)).series = some series →
      (series.probing = false → (p, series.id) ∈ res ++ work.toSteps.armed) ∧ 1 ≤ work.limit) :
    Sound fly res late' unqueued stranded (work.alter p change) where
  holds hash q := by
    rw [Working.providers_alter]
    split_ifs with hq
    · subst hq
      rw [hholds]
      exact h.holds hash q
    · exact h.holds hash q
  queued hash wanted hnot hwanted hfree q hq := by
    rw [Working.providers_alter]
    split_ifs with hqp
    · subst hqp
      exact hqueue hash wanted hnot hwanted hfree hq
    · exact h.queued hash wanted hnot hwanted hfree q hq
  busy q hnot hne := by
    rw [Working.providers_alter] at hne ⊢
    split_ifs at hne ⊢ with hqp
    · subst hqp
      rw [hflight]
      exact hbusy hnot hne
    · exact h.busy q (fun hmem => hnot (hlate q hqp hmem)) hne
  routed := h.routed
  fetching := h.fetching
  paused q series hsome := by
    rw [Working.providers_alter] at hsome
    split_ifs at hsome with hqp
    · subst hqp
      exact (hseries series hsome).1
    · exact h.paused q series hsome
  count q := by
    rw [Working.providers_alter]
    split_ifs with hqp
    · subst hqp
      rw [hflight]
      exact h.count q
    · exact h.count q
  within q := by
    rw [Working.providers_alter]
    split_ifs with hqp
    · subst hqp
      rw [hflight]
      exact h.within q
    · exact h.within q
  tried q series hsome := by
    rw [Working.providers_alter] at hsome
    split_ifs at hsome with hqp
    · exact (hseries series (hqp ▸ hsome)).2
    · exact h.tried q series hsome

lemma lt_limit (hroom : (work.providers p).inFlight < (work.providers p).room work.limit) :
    (work.providers p).inFlight < work.limit := by grind [Provider.room, h.tried]

/-- A fetch starts. -/
lemma launch {rest : List Hash} {wanted : Wanted}
    (hp : p ∈ late) (hqueue : (work.providers p).queue = hash :: rest)
    (hroom : (work.providers p).inFlight < (work.providers p).room work.limit)
    (hwanted : work.wanted hash = some wanted) :
    Sound fly res late unqueued stranded
      ((work.alter p fun entry => { entry with queue := rest }).launch p hash wanted) := by
  set work' :=
    (work.alter p fun entry => { entry with queue := rest }).launch p hash wanted with hdef
  have hproviders : ∀ q, work'.providers q = if q = p then
      { work.providers p with queue := rest, inFlight := (work.providers p).inFlight + 1 }
      else work.providers q := by
    intro q
    by_cases hq : q = p
    · subst hq
      simp [hdef, Working.launch, Working.alter, Working.setWanted]
    · simp [hdef, Working.launch, Working.alter, Working.setWanted, hq]
  have hother : ∀ other, other ≠ hash → work'.wanted other = work.wanted other := by
    intro other hne
    simp [hdef, Working.launch, Working.alter, Working.setWanted, hne]
  have hself : work'.wanted hash = some { wanted with fetching := some p } := by
    simp [hdef, Working.launch, Working.alter, Working.setWanted]
  have hflights : work'.toSteps.flights = work.toSteps.flights ++ [(p, hash)] := by
    simp [hdef, Working.launch, Working.alter, Working.setWanted, Steps.flights]
  have hholds : ∀ q, (work'.providers q).holds = (work.providers q).holds := by
    intro q
    rw [hproviders]
    split_ifs with hq <;> simp [hq]
  have hseries : ∀ q, (work'.providers q).series = (work.providers q).series := by
    intro q
    rw [hproviders]
    split_ifs with hq <;> simp [hq]
  constructor
  case holds => grind [h.holds]
  case queued => grind [h.queued]
  case busy =>
    intro q hnot hne
    have hqp : q ≠ p := by
      rintro rfl
      exact hnot hp
    rw [hproviders, if_neg hqp] at hne ⊢
    exact h.busy q hnot hne
  case routed => grind [h.routed]
  case fetching => grind [h.fetching]
  case paused =>
    intro q series hsome
    exact h.paused q series (hseries q ▸ hsome)
  case count => grind [h.count]
  case within =>
    intro q
    rw [hproviders]
    split_ifs with hqp
    · exact h.lt_limit hroom
    · exact h.within q
  case tried =>
    intro q series hsome
    exact h.tried q series (hseries q ▸ hsome)

lemma pick (hp : p ∈ late)
    (hpick : Working.Pick p work work') : Sound fly res late unqueued stranded work' := by
  cases hpick with
  | @skip hash rest hqueue hroom hnot =>
    refine h.alter rfl rfl ?_ (fun q _ => id) (absurd hp) fun series hsome => ?_
    · grind [h.queued]
    · exact ⟨h.paused p series hsome, h.tried p series hsome⟩
  | launch hqueue hroom hwanted _ _ => exact h.launch hp hqueue hroom hwanted

lemma picks (hp : p ∈ late) (hpath : Relation.ReflTransGen (Working.Pick p) work work') :
    Sound fly res late unqueued stranded work' := by
  induction hpath with
  | refl => exact h
  | tail _ hpick ih => exact ih.pick hp hpick

/-- **A provider that is dispatched is seen to**: it has no room, or nothing is queued.

**Proof sketch.** Every turn of the loop keeps the invariant, and the loop ends without room or with
nothing queued. A probe that ends the series found nothing queued, for there was room for it. -/
lemma dispatch : Sound fly res (late \ {p}) unqueued stranded (work.dispatch p) := by
  have hlate : Sound fly res (insert p late) unqueued stranded work :=
    h.mono (Set.subset_insert p late) subset_rfl subset_rfl
  obtain ⟨hpath, hend⟩ := @Working.dispatchLoop_picks work p _ rfl
  set next := Working.dispatchLoop p ((work.providers p).room work.limit)
    (work.providers p).queue work
  have hloop := hlate.picks (Set.mem_insert p late) hpath
  have hothers : ∀ q, q ≠ p → q ∈ insert p late → q ∈ late \ {p} :=
    fun q hqp hq => ⟨(Set.mem_insert_iff.mp hq).resolve_left hqp, hqp⟩
  have hdispatch : work.dispatch p = next.endProbe p := rfl
  rw [hdispatch]
  unfold Working.endProbe
  split_ifs with hprobe
  · grind [Provider.room, hloop.alter, hloop.queued]
  · have hsame : next = next.alter p id := by simp [Working.alter]
    rw [hsame]
    refine hloop.alter rfl rfl ?_ hothers (fun _ hne => hend.resolve_left hne)
      fun series hsome => ?_
    · exact fun other wanted hnot hwanted hfree => hloop.queued other wanted hnot hwanted hfree p
    · exact ⟨hloop.paused p series hsome, hloop.tried p series hsome⟩

lemma dispatchAll (ps : List NodeId) :
    Sound fly res (late \ {q | q ∈ ps}) unqueued stranded (work.dispatchAll ps) := by
  induction ps generalizing work late with
  | nil => exact h.mono (by simp) subset_rfl subset_rfl
  | cons p ps ih =>
    refine (ih h.dispatch).mono ?_ subset_rfl subset_rfl
    rintro q ⟨⟨hq, hqp⟩, hqps⟩
    exact ⟨hq, fun hmem => (List.mem_cons.mp hmem).elim hqp hqps⟩

/-- Less is wanted, and of fewer providers. -/
lemma narrowed (hqueue : ∀ q, (work'.providers q).queue = (work.providers q).queue)
    (hflight : ∀ q, (work'.providers q).inFlight = (work.providers q).inFlight)
    (hseries : ∀ q, (work'.providers q).series = (work.providers q).series)
    (hlimit : work'.limit = work.limit) (hflights : work'.toSteps.flights = work.toSteps.flights)
    (harmed : work'.toSteps.armed = work.toSteps.armed)
    (hwanted : ∀ hash wanted', work'.wanted hash = some wanted' → ∃ wanted,
      work.wanted hash = some wanted ∧ wanted'.fetching = wanted.fetching ∧
        wanted'.eligible ⊆ wanted.eligible) (hholds : ∀ hash q, hash ∈ (work'.providers q).holds ↔
      ∃ wanted', work'.wanted hash = some wanted' ∧ q ∈ wanted'.eligible)
    (hunqueued : ∀ hash ∈ unqueued, hash ∈ unqueued' ∨ work'.wanted hash = none)
    (hrouted : ∀ hash wanted', hash ∉ stranded' → work'.wanted hash = some wanted' →
      wanted'.eligible.Nonempty ∨ wanted'.fetching ≠ none) :
    Sound fly res late unqueued' stranded' work' where
  holds := hholds
  queued hash wanted' hnot hwanted' hfree q hq := by grind [h.queued]
  busy q hnot hne := by
    have hroom : (work'.providers q).room work'.limit = (work.providers q).room work.limit := by
      rw [Provider.room, Provider.room, hseries, hlimit]
    rw [hroom, hflight]
    exact h.busy q hnot (hqueue q ▸ hne)
  routed := hrouted
  fetching hash wanted' q hwanted' hfetching' := by grind [h.fetching]
  paused q series hsome := by
    rw [harmed]
    exact h.paused q series (hseries q ▸ hsome)
  count q := by
    rw [hflight, hflights]
    exact h.count q
  within q := by
    rw [hflight, hlimit]
    exact h.within q
  tried q series hsome := by
    rw [hlimit]
    exact h.tried q series (hseries q ▸ hsome)

/-- A payload that is not wanted any more is held by nobody. -/
lemma unwant_eq (order : SetOrder NodeId) :
    work.unwant hash order =
      { work with
        wanted := Function.update work.wanted hash none
        providers := fun q => (work.providers q).release hash } := by
  -- Who is not eligible does not hold it.
  have hrelease : ∀ q, hash ∉ (work.providers q).holds →
      (work.providers q).release hash = work.providers q := by
    intro q hnot
    simp [Provider.release, Finset.erase_eq_of_notMem hnot]
  unfold Working.unwant
  cases hw : work.wanted hash with
  | none =>
    have hwanted : Function.update work.wanted hash none = work.wanted := by
      rw [← hw, Function.update_eq_self]
    have hproviders : (fun q => (work.providers q).release hash) = work.providers :=
      funext fun q => hrelease q (by simp [h.holds, hw])
    simp only [hwanted, hproviders]
  | some wanted =>
    simp only [Working.alterAll_eq _ (order.nodup_toList _), Working.setWanted, Working.mk.injEq,
      Fetches.mk.injEq, true_and, and_true, order.mem_toList]
    funext q
    split_ifs with hq
    · rfl
    · exact (hrelease q (by simp [h.holds, hw, hq])).symm

/-- **A payload that is not wanted any more needs nothing.** -/
lemma unwant (order : SetOrder NodeId) :
    Sound fly res late (unqueued \ {hash}) (stranded \ {hash}) (work.unwant hash order) := by
  rw [h.unwant_eq]
  refine h.narrowed (fun _ => rfl) (fun _ => rfl) (fun _ => rfl) rfl rfl rfl ?_ ?_ ?_ ?_
  · grind
  · grind [Provider.release, h.holds]
  · grind
  · grind [h.routed]

/-- **A payload that is reported needs nothing.** -/
lemma unrouteIfStranded :
    Sound fly res late unqueued (stranded \ {hash}) (work.unrouteIfStranded hash) := by
  unfold Working.unrouteIfStranded
  cases hw : work.wanted hash with
  | none =>
    refine h.narrowed (fun _ => rfl) (fun _ => rfl) (fun _ => rfl) rfl rfl rfl ?_ h.holds
      (fun _ => .inl) ?_
    · exact fun other wanted hwanted => ⟨wanted, hwanted, rfl, subset_rfl⟩
    · grind [h.routed]
  | some wanted =>
    simp only
    split_ifs with hstranded
    · refine h.narrowed (fun _ => rfl) (fun _ => rfl) (fun _ => rfl) rfl rfl rfl ?_ ?_
        (fun _ => .inl) ?_
      · intro other wanted' hwanted'
        simp only [Working.setWanted, Function.update_apply] at hwanted'
        split_ifs at hwanted' with hne
        exact ⟨wanted', hwanted', rfl, subset_rfl⟩
      · intro other q
        have hholds := h.holds other q
        by_cases hne : other = hash
        · simpa [Working.setWanted, hne, hw, hstranded.1] using hholds
        · simpa [Working.setWanted, hne] using hholds
      · intro other wanted' hnot hwanted'
        simp only [Working.setWanted, Function.update_apply] at hwanted'
        split_ifs at hwanted' with hne
        exact h.routed other wanted' (fun hmem => hnot ⟨hmem, hne⟩) hwanted'
    · refine h.narrowed (fun _ => rfl) (fun _ => rfl) (fun _ => rfl) rfl rfl rfl ?_ h.holds
        (fun _ => .inl) ?_
      · exact fun other wanted hwanted => ⟨wanted, hwanted, rfl, subset_rfl⟩
      · grind [h.routed]

/-- **A provider that is dropped is seen to**, and so is what it alone held.

**Proof sketch.** It holds what it is eligible for, so that afterwards it is eligible for nothing;
what it alone could be fetched from is reported. -/
lemma dropProvider (order : SetOrder Hash) :
    Sound fly res (late \ {p}) unqueued stranded (work.dropProvider p order) := by
  set hashes := order.toList (work.providers p).holds with hhashes
  let bare : Working :=
    { work with
      wanted := fun hash =>
        if hash ∈ hashes then
          if work.strands p hash then none else (work.wanted hash).map (Working.without p)
        else work.wanted hash
      providers := Function.update work.providers p { work.providers p with holds := ∅ }
      unrouted := work.unrouted ++ hashes.filter (work.strands p) }
  have hdrop : work.dropProvider p order =
      bare.alter p fun entry => { entry with queue := [], series := none } := by
    rw [Working.dropProvider, Working.excludeAll_eq _ (order.nodup_toList _)]
    simp only [Working.alter, bare, Function.update_self, Function.update_idem]
    rfl
  have hmem : ∀ hash, hash ∈ hashes ↔
      ∃ wanted, work.wanted hash = some wanted ∧ p ∈ wanted.eligible := by
    intro hash
    rw [hhashes, order.mem_toList, h.holds]
  have hnone : ∀ hash, work.wanted hash = none → bare.wanted hash = none := by
    intro hash hw
    simp [bare, Working.strands, hw]
  have hsome : ∀ hash wanted, work.wanted hash = some wanted → bare.wanted hash =
      if hash ∈ hashes ∧ (Working.without p wanted).eligible = ∅ ∧ wanted.fetching = none then none
      else some (Working.without p wanted) := by
    intro hash wanted hw
    by_cases hin : hash ∈ hashes
    · simp [bare, Working.strands, hw, hin]
    · have hp : p ∉ wanted.eligible := fun hp => hin ((hmem hash).mpr ⟨wanted, hw, hp⟩)
      simp [bare, hw, hin, Working.without, Finset.erase_eq_of_notMem hp]
  have hfrom : ∀ hash wanted', bare.wanted hash = some wanted' → ∃ wanted,
      work.wanted hash = some wanted ∧ wanted' = Working.without p wanted ∧
        ¬ (hash ∈ hashes ∧ (Working.without p wanted).eligible = ∅ ∧ wanted.fetching = none) := by
    intro hash wanted' hw'
    cases hw : work.wanted hash with
    | none => simp [hnone hash hw] at hw'
    | some wanted => grind
  have hbare : Sound fly res late unqueued stranded bare := by
    have hentry : ∀ q, bare.providers q =
        if q = p then { work.providers q with holds := ∅ } else work.providers q := by
      intro q
      by_cases hqp : q = p
      · subst hqp
        simp [bare]
      · simp [bare, hqp]
    refine h.narrowed ?_ ?_ ?_ rfl rfl rfl ?_ ?_ (fun _ => .inl) ?_
    · intro q
      rw [hentry]
      split_ifs <;> rfl
    · intro q
      rw [hentry]
      split_ifs <;> rfl
    · intro q
      rw [hentry]
      split_ifs <;> rfl
    · intro hash wanted' hw'
      obtain ⟨wanted, hw, rfl, -⟩ := hfrom hash wanted' hw'
      exact ⟨wanted, hw, rfl, Finset.erase_subset _ _⟩
    · intro hash q
      rw [hentry]
      constructor
      · intro hin
        split_ifs at hin with hqp
        · simp at hin
        · obtain ⟨wanted, hw, hq⟩ := (h.holds hash q).mp hin
          have hq' : q ∈ (Working.without p wanted).eligible := Finset.mem_erase.mpr ⟨hqp, hq⟩
          refine ⟨_, ?_, hq'⟩
          rw [hsome hash wanted hw, if_neg]
          rintro ⟨-, hempty, -⟩
          simp [hempty] at hq'
      · rintro ⟨wanted', hw', hq⟩
        obtain ⟨wanted, hw, rfl, -⟩ := hfrom hash wanted' hw'
        obtain ⟨hqp, hq⟩ := Finset.mem_erase.mp hq
        rw [if_neg hqp]
        exact (h.holds hash q).mpr ⟨wanted, hw, hq⟩
    · grind [Working.without, h.routed]
  rw [hdrop]
  refine hbare.alter rfl rfl ?_ (fun q hqp hq => ⟨hq, hqp⟩) ?_ ?_
  · intro other wanted hnot hwanted hfree heligible
    have hin := (hbare.holds other p).mpr ⟨wanted, hwanted, heligible⟩
    simp [bare] at hin
  · exact fun _ hne => absurd rfl hne
  · exact fun series hsome => by cases hsome

/-- A provider is no longer eligible for a payload. -/
lemma dropPair : Sound fly res late unqueued (insert hash stranded) (work.dropPair hash p) := by
  have hentry : ∀ q, (work.dropPair hash p).providers q =
      if q = p then (work.providers q).release hash else work.providers q := by
    intro q
    unfold Working.dropPair Working.exclude
    rw [Working.providers_alter]
    cases work.wanted hash <;> rfl
  have hself : (work.dropPair hash p).wanted hash = (work.wanted hash).map (Working.without p) := by
    unfold Working.dropPair Working.exclude
    cases hw : work.wanted hash with
    | none => simpa [Working.alter] using hw
    | some wanted => simp [Working.alter, Working.setWanted, Working.without]
  have hother : ∀ other, other ≠ hash →
      (work.dropPair hash p).wanted other = work.wanted other := by
    intro other hne
    unfold Working.dropPair Working.exclude
    cases hw : work.wanted hash with
    | none => simp [Working.alter]
    | some wanted => simp [Working.alter, Working.setWanted, hne]
  have hsteps : (work.dropPair hash p).toSteps = work.toSteps ∧
      (work.dropPair hash p).limit = work.limit := by
    unfold Working.dropPair Working.exclude
    cases work.wanted hash <;> exact ⟨rfl, rfl⟩
  refine h.narrowed ?_ ?_ ?_ hsteps.2 (by rw [hsteps.1]) (by rw [hsteps.1]) ?_ ?_ (fun _ => .inl) ?_
  · intro q
    rw [hentry]
    split_ifs <;> rfl
  · intro q
    rw [hentry]
    split_ifs <;> rfl
  · intro q
    rw [hentry]
    split_ifs <;> rfl
  · intro other wanted' hw'
    by_cases hne : other = hash
    · subst hne
      rw [hself, Option.map_eq_some_iff] at hw'
      obtain ⟨wanted, hw, rfl⟩ := hw'
      exact ⟨wanted, hw, rfl, Finset.erase_subset _ _⟩
    · exact ⟨wanted', hother other hne ▸ hw', rfl, subset_rfl⟩
  · intro other q
    have hholds := h.holds other q
    rw [hentry]
    by_cases hne : other = hash
    · subst hne
      rw [hself]
      by_cases hqp : q = p
      · simp [hqp, Provider.release, Working.without]
      · simp [hqp, hholds, Working.without]
    · rw [hother other hne, ← hholds]
      split_ifs <;> simp [Provider.release, hne]
  · grind [h.routed]

/-- **A payload is queued at some of the providers it may be fetched from**, which have then to be
seen to; at the others it was queued before. -/
lemma takeUp {wanted : Wanted}
    {added : Finset NodeId} (hadded : added ⊆ wanted.eligible)
    (hnone : work.wanted hash = none → wanted.eligible ⊆ added ∧ wanted.fetching = none)
    (hsome : ∀ old, work.wanted hash = some old → old.eligible ⊆ wanted.eligible ∧
      wanted.fetching = old.fetching ∧
        ∀ q ∈ wanted.eligible, q ∈ added ∨ q ∈ old.eligible ∧ hash ∉ unqueued)
    (hrouted : hash ∉ stranded → wanted.eligible.Nonempty ∨ wanted.fetching ≠ none)
    (hentry : ∀ q, work'.providers q =
      if q ∈ added then (work.providers q).take hash else work.providers q)
    (hself : work'.wanted hash = some wanted)
    (hother : ∀ other, other ≠ hash → work'.wanted other = work.wanted other)
    (hlimit : work'.limit = work.limit) (hsteps : work'.toSteps = work.toSteps) :
    Sound fly res (late ∪ added) (unqueued \ {hash}) stranded work' := by
  have hflight : ∀ q, (work'.providers q).inFlight = (work.providers q).inFlight := by
    intro q
    rw [hentry]
    split_ifs <;> rfl
  have hseries : ∀ q, (work'.providers q).series = (work.providers q).series := by
    intro q
    rw [hentry]
    split_ifs <;> rfl
  have hfetching : ∀ p, wanted.fetching = some p →
      ∃ old, work.wanted hash = some old ∧ old.fetching = some p := by
    intro p hp
    cases hw : work.wanted hash with
    | none => simp [(hnone hw).2] at hp
    | some old => exact ⟨old, rfl, (hsome old hw).2.1 ▸ hp⟩
  constructor
  case holds =>
    intro other q
    rw [hentry]
    by_cases hne : other = hash
    · subst hne
      simp only [hself, Option.some.injEq, exists_eq_left']
      split_ifs with hq
      · simpa [Provider.take] using hadded hq
      · rw [h.holds]
        constructor
        · rintro ⟨old, hold, hmem⟩
          exact (hsome old hold).1 hmem
        · intro hmem
          cases hw : work.wanted other with
          | none => exact absurd ((hnone hw).1 hmem) hq
          | some old => exact ⟨old, rfl, (((hsome old hw).2.2 q hmem).resolve_left hq).1⟩
    · rw [hother other hne, ← h.holds]
      split_ifs <;> simp [Provider.take, hne]
  case queued =>
    intro other wanted' hnot hwanted' hfree q hq
    rw [hentry]
    by_cases hne : other = hash
    · subst hne
      rw [hself, Option.some.injEq] at hwanted'
      subst hwanted'
      split_ifs with hin
      · simp [Provider.take]
      · cases hw : work.wanted other with
        | none => exact absurd ((hnone hw).1 hq) hin
        | some old =>
          obtain ⟨hold, hqueued⟩ := ((hsome old hw).2.2 q hq).resolve_left hin
          exact h.queued other old hqueued hw ((hsome old hw).2.1 ▸ hfree) q hold
    · rw [hother other hne] at hwanted'
      have hin := h.queued other wanted' (fun hmem => hnot ⟨hmem, hne⟩) hwanted' hfree q hq
      split_ifs
      · exact List.mem_append_left _ hin
      · exact hin
  case busy =>
    intro q hnot hne
    have hq : q ∉ added := fun hq => hnot (.inr hq)
    rw [hentry, if_neg hq] at hne ⊢
    rw [hlimit]
    exact h.busy q (fun hmem => hnot (.inl hmem)) hne
  case routed => grind [h.routed]
  case fetching => grind [h.fetching]
  case paused =>
    intro q series hq
    rw [hsteps]
    exact h.paused q series (hseries q ▸ hq)
  case count =>
    intro q
    rw [hflight, hsteps]
    exact h.count q
  case within =>
    intro q
    rw [hflight, hlimit]
    exact h.within q
  case tried =>
    intro q series hq
    rw [hlimit]
    exact h.tried q series (hseries q ▸ hq)

omit h in
lemma dispatched {ps : Finset NodeId} (order : SetOrder NodeId)
    (h : Sound fly res (late ∪ ps) unqueued stranded work) :
    Sound fly res late unqueued stranded (work.dispatchAll (order.toList ps)) := by
  refine (h.dispatchAll (order.toList ps)).mono ?_ subset_rfl subset_rfl
  rintro q ⟨hq | hq, hnot⟩
  · exact hq
  · exact absurd ((order.mem_toList _ q).mpr hq) hnot

/-- **A payload that is queued again is seen to**, if it has a provider. -/
lemma requeue (order : SetOrder NodeId) :
    Sound fly res late (unqueued \ {hash}) stranded (work.requeue hash order) := by
  unfold Working.requeue
  cases hw : work.wanted hash with
  | none =>
    refine h.narrowed (fun _ => rfl) (fun _ => rfl) (fun _ => rfl) rfl rfl rfl ?_ h.holds ?_
      h.routed
    · exact fun other wanted hwanted => ⟨wanted, hwanted, rfl, subset_rfl⟩
    · grind
  | some wanted =>
    simp only [Working.alterAll_eq _ (order.nodup_toList _), order.mem_toList]
    refine dispatched order (h.takeUp (subset_refl wanted.eligible) (by simp [hw]) ?_ ?_ ?_ hw
      (fun _ _ => rfl) rfl rfl)
    · grind
    · exact fun hnot => h.routed hash wanted hnot hw
    · grind [Provider.enqueue, Provider.take, h.holds]

/-- A provider whose fetch failed pauses, or is dropped. -/
lemma armPause (series : Series) (now : ℕ) (order : SetOrder Hash) (hlimit : 1 ≤ work.limit)
    (hpause : work.pause = none) (hprobing : series.probing = false) :
    Sound fly res late unqueued stranded (work.armPause p series now order) := by
  unfold Working.armPause
  split_ifs with hover
  · have hdrop :
        (work.alter p fun entry => { entry with series := some series }).dropProvider p order =
        work.dropProvider p order := by
      simp [Working.dropProvider, Working.alter]
    rw [hdrop]
    exact (h.dropProvider order).mono Set.sdiff_subset subset_rfl subset_rfl
  · have harmed : Sound fly res late unqueued stranded
        { work with pause := some (p, series.id, series.nextWait) } := by
      refine { h with paused := ?_ }
      intro q series' hsome hpaused
      have hres := h.paused q series' hsome hpaused
      simp only [Steps.armed, hpause, Option.toList_none, List.map_nil, List.append_nil] at hres
      exact List.mem_append_left _ hres
    let series' := { series with nextWait := min (series.nextWait * 2) unreachedRetryMax }
    change Sound fly res late unqueued stranded
      (Working.alter { work with pause := some (p, series.id, series.nextWait) } p fun entry =>
        { entry with series := some series' })
    refine harmed.alter rfl rfl ?_ (fun _ _ => id) ?_ ?_
    · exact fun other wanted hnot hwanted hfree => h.queued other wanted hnot hwanted hfree p
    · intro hnot hne
      simp [Provider.room, series', hprobing]
    · intro other hsome
      cases hsome
      exact ⟨fun _ => by simp [Steps.armed, series'], hlimit⟩

lemma pauseProvider (now : ℕ) (order : SetOrder Hash) (hlimit : 1 ≤ work.limit)
    (hpause : work.pause = none) :
    Sound fly res late unqueued stranded (work.pauseProvider p now order) := by
  unfold Working.pauseProvider
  cases hseries : (work.providers p).series with
  | none =>
    have hnext : Sound fly res late unqueued stranded
        { work with nextSeries := work.nextSeries + 1 } :=
      { h with }
    exact hnext.armPause _ now order hlimit hpause rfl
  | some series => grind [h.armPause]

lemma begin {fetches : Fetches} (hwork : work.toFetches = fetches) :
    Sound (fly ++ work.toSteps.flights) (res ++ work.toSteps.armed) late unqueued stranded
      fetches.begin := by
  subst hwork
  refine ⟨h.holds, h.queued, h.busy, h.routed, ?_, ?_, ?_, h.within, h.tried⟩
  · intro hash wanted p hwanted hp
    exact List.mem_append_left _ (h.fetching hash wanted p hwanted hp)
  · intro p series hsome hpaused
    exact List.mem_append_left _ (h.paused p series hsome hpaused)
  · intro p
    have hnil : (work.toFetches.begin).toSteps.flights = [] := rfl
    rw [hnil, List.append_nil]
    exact h.count p

end Sound

/-! ## The calls -/

namespace Sound

variable {fly : List (NodeId × Hash)} {res : List (NodeId × UInt64)} {fetches : Fetches}
  {p : NodeId} {hash : Hash} (visits : Visits)

/-- A provider is registered. -/
lemma register (h : Sound fly res ∅ ∅ ∅ fetches.begin) :
    Sound fly res ∅ ∅ ∅ (fetches.register hash p) := by
  set work : Working :=
    { fetches.begin with
      holders := Function.update fetches.holders hash (insert p (fetches.holders hash)) } with hwork
  have hholders : Sound fly res ∅ ∅ ∅ work :=
    { h with }
  unfold Fetches.register
  rw [← hwork]
  cases hw : work.wanted hash with
  | none => simpa [hw] using hholders
  | some wanted =>
    simp only [hw]
    split_ifs with hp
    · exact hholders
    · set next := (work.setWanted hash (some { wanted with
        eligible := insert p wanted.eligible })).alter p (Provider.take hash) with hnext
      have hself : next.wanted hash =
          some { wanted with eligible := insert p wanted.eligible } := by
        simp [hnext, Working.alter, Working.setWanted]
      have hadmit : Sound fly res (∅ ∪ (({p} : Finset NodeId) : Set NodeId))
          (∅ \ {hash}) ∅ next := by
        refine hholders.takeUp (by simp) (by simp [hw]) ?_ (by simp) ?_ hself ?_ rfl rfl
        · grind
        · intro q
          rw [hnext, Working.providers_alter]
          simp [Working.setWanted]
        · intro other hne
          simp [hnext, Working.alter, Working.setWanted, hne]
      exact hadmit.dispatch.mono (by simp) (by simp) subset_rfl

/-- A payload is wanted. -/
lemma want (h : Sound fly res ∅ ∅ ∅ fetches.begin) :
    Sound fly res ∅ ∅ ∅ (fetches.want visits hash).2 := by
  unfold Fetches.want
  cases hw : fetches.wanted hash with
  | some wanted => exact h
  | none =>
    simp only
    split_ifs with hempty
    · exact h
    · set next := (fetches.begin.alterAll (visits.providers.toList (fetches.holders hash))
        (Provider.take hash)).setWanted hash (some ⟨fetches.holders hash, none⟩) with hnext
      rw [Working.alterAll_eq _ (visits.providers.nodup_toList _)] at hnext
      have hself : next.wanted hash = some ⟨fetches.holders hash, none⟩ := by
        simp [hnext, Working.setWanted]
      have hadmit : Sound fly res (∅ ∪ (fetches.holders hash : Set NodeId))
          (∅ \ {hash}) ∅ next := by
        refine h.takeUp subset_rfl (fun _ => ⟨subset_rfl, rfl⟩) ?_ ?_ ?_ hself ?_ ?_ ?_
        · intro old hold
          simp [Fetches.begin, hw] at hold
        · exact fun _ => .inl (Finset.nonempty_iff_ne_empty.mpr hempty)
        · intro q
          simp [hnext, Working.setWanted, visits.providers.mem_toList]
        · intro other hne
          simp [hnext, Working.setWanted, hne]
        · simp [hnext, Working.setWanted]
        · simp [hnext, Working.setWanted]
      exact (dispatched visits.providers hadmit).mono subset_rfl (by simp) subset_rfl

/-- What is wanted when a fetch has ended: nobody fetches the payload, unless another fetch of it
was started since. -/
lemma wanted_landed (other : Hash) :
    (fetches.landed p hash).wanted other =
    if other = hash then (fetches.wanted hash).map fun wanted =>
      if wanted.fetching = some p then { wanted with fetching := none } else wanted
    else fetches.wanted other := by
  unfold Fetches.landed
  simp only [Working.alter, Fetches.begin]
  cases hw : fetches.wanted hash with
  | none =>
    split_ifs with hne
    · simpa [hne] using hw
    · rfl
  | some wanted =>
    by_cases hp : wanted.fetching = some p
    · simp [hp, Working.setWanted, Function.update_apply]
    · by_cases hne : other = hash
      · simp [hp, hne, hw]
      · simp [hp, hne]

/-- The entries when a fetch has ended. -/
lemma providers_landed (q : NodeId) :
    (fetches.landed p hash).providers q =
    if q = p then { fetches.providers q with inFlight := (fetches.providers q).inFlight - 1 }
    else fetches.providers q := by
  have halter := @Working.providers_alter fetches.begin p q fun entry =>
    { entry with inFlight := entry.inFlight - 1 }
  unfold Fetches.landed
  simp only
  split
  · exact halter
  · rename_i wanted _
    by_cases hp : wanted.fetching = some p
    · rw [if_pos hp]
      exact halter
    · rw [if_neg hp]
      exact halter

lemma steps_landed :
    (fetches.landed p hash).toSteps = {} ∧
    (fetches.landed p hash).limit = fetches.limit := by
  unfold Fetches.landed
  simp only
  split
  · exact ⟨rfl, rfl⟩
  · split_ifs <;> exact ⟨rfl, rfl⟩

/-- **A fetch has ended**: the provider has to be seen to, and so has the payload. -/
lemma landed (h : Sound fly res ∅ ∅ ∅ fetches.begin) (hflying : (p, hash) ∈ fly) :
    Sound (fly.erase (p, hash)) res {p} {hash} {hash} (fetches.landed p hash) := by
  have hfrom : ∀ other wanted', (fetches.landed p hash).wanted other = some wanted' → ∃ wanted,
      fetches.wanted other = some wanted ∧ wanted'.eligible = wanted.eligible ∧
        (other ≠ hash → wanted' = wanted) ∧
        (∀ q, wanted'.fetching = some q → wanted.fetching = some q ∧ (q, other) ≠ (p, hash)) := by
    intro other wanted' hw'
    rw [wanted_landed] at hw'
    split_ifs at hw' with hne
    · obtain ⟨wanted, hw, rfl⟩ := Option.map_eq_some_iff.mp hw'
      refine ⟨wanted, hne ▸ hw, ?_, fun hno => absurd hne hno, ?_⟩
      · split_ifs <;> rfl
      · grind
    · exact ⟨wanted', hw', rfl, fun _ => rfl,
        fun q hq => ⟨hq, fun heq => hne (Prod.mk.inj heq).2⟩⟩
  have hto : ∀ other wanted, fetches.wanted other = some wanted → ∃ wanted',
      (fetches.landed p hash).wanted other = some wanted' ∧
        wanted'.eligible = wanted.eligible := by
    intro other wanted hw
    rw [wanted_landed]
    split_ifs with hne
    · subst hne
      rw [hw]
      refine ⟨_, rfl, ?_⟩
      dsimp only
      split_ifs <;> rfl
    · exact ⟨wanted, hw, rfl⟩
  have hsame : ∀ q, ((fetches.landed p hash).providers q).queue = (fetches.providers q).queue ∧
      ((fetches.landed p hash).providers q).holds = (fetches.providers q).holds ∧
      ((fetches.landed p hash).providers q).series = (fetches.providers q).series := by
    intro q
    rw [providers_landed]
    split_ifs <;> exact ⟨rfl, rfl, rfl⟩
  have hflights : fly ++ fetches.begin.toSteps.flights = fly := List.append_nil fly
  have hresumes : res ++ fetches.begin.toSteps.armed = res := List.append_nil res
  have hcount := h.count
  rw [hflights] at hcount
  constructor
  case holds =>
    intro other q
    rw [(hsame q).2.1, show (fetches.providers q) = fetches.begin.providers q from rfl, h.holds]
    constructor
    · rintro ⟨wanted, hw, hq⟩
      obtain ⟨wanted', hw', heligible⟩ := hto other wanted hw
      exact ⟨wanted', hw', heligible ▸ hq⟩
    · rintro ⟨wanted', hw', hq⟩
      obtain ⟨wanted, hw, heligible, -⟩ := hfrom other wanted' hw'
      exact ⟨wanted, hw, heligible ▸ hq⟩
  case queued =>
    intro other wanted' hne hw' hfree q hq
    obtain ⟨wanted, hw, -, hkeep, -⟩ := hfrom other wanted' hw'
    rw [(hsame q).1]
    rw [hkeep hne] at hfree hq
    exact h.queued other wanted (Set.notMem_empty _) hw hfree q hq
  case busy =>
    intro q hnot hqueue
    have hne : q ≠ p := hnot
    rw [providers_landed, if_neg hne] at hqueue ⊢
    rw [steps_landed.2]
    exact h.busy q (Set.notMem_empty _) hqueue
  case routed =>
    intro other wanted' hne hw'
    obtain ⟨wanted, hw, -, hkeep, -⟩ := hfrom other wanted' hw'
    rw [hkeep hne]
    exact h.routed other wanted (Set.notMem_empty _) hw
  case fetching =>
    intro other wanted' q hw' hq
    obtain ⟨wanted, hw, -, -, hfetching⟩ := hfrom other wanted' hw'
    obtain ⟨hq', hpair⟩ := hfetching q hq
    have hin := h.fetching other wanted q hw hq'
    rw [hflights] at hin
    exact List.mem_append_left _ ((List.mem_erase_of_ne hpair).mpr hin)
  case paused =>
    intro q series hsome hpaused
    have hin := h.paused q series ((hsame q).2.2 ▸ hsome) hpaused
    rw [hresumes] at hin
    exact List.mem_append_left _ hin
  case count =>
    intro q
    have hnil : fly.erase (p, hash) ++ ({} : Steps).flights = fly.erase (p, hash) :=
      List.append_nil _
    rw [providers_landed, steps_landed.1, hnil, List.countP_erase, ← hcount]
    by_cases hqp : q = p
    · simp [hqp, hflying, Fetches.begin]
    · simp [hqp, Ne.symm hqp, Fetches.begin]
  case within =>
    intro q
    have hwithin := h.within q
    rw [providers_landed, steps_landed.2]
    split_ifs
    · exact (Nat.sub_le _ _).trans hwithin
    · exact hwithin
  case tried =>
    intro q series hsome
    rw [steps_landed.2]
    exact h.tried q series ((hsame q).2.2 ▸ hsome)

/-- **The outcome of a fetch sees to the payload**, if it has a provider. -/
lemma settled (h : Sound fly res ∅ ∅ ∅ fetches.begin) (hflying : (p, hash) ∈ fly)
    (outcome : Outcome) (neighbor : Bool) (now : ℕ) :
    Sound (fly.erase (p, hash)) res {p} ∅ {hash}
      (fetches.settled visits p hash outcome neighbor now) := by
  have hlanded := h.landed hflying
  have hlimit : 1 ≤ (fetches.landed p hash).limit := by
    have hcount : 0 < (fetches.begin.providers p).inFlight := by
      rw [h.count, List.countP_pos_iff]
      exact ⟨(p, hash), List.mem_append_left _ hflying, by simp⟩
    rw [steps_landed.2]
    exact hcount.trans_le (h.within p)
  have hdone : ({hash} : Set Hash) \ {hash} ⊆ ∅ := by simp
  have hunwant : Sound (fly.erase (p, hash)) res {p} ∅ {hash}
      ((fetches.landed p hash).unwant hash visits.providers) :=
    (hlanded.unwant visits.providers).mono subset_rfl hdone Set.sdiff_subset
  have hpaused : Sound (fly.erase (p, hash)) res {p} ∅ {hash}
      (((fetches.landed p hash).pauseProvider p now visits.hashes).requeue hash
        visits.providers) := by
    have hpause := hlanded.pauseProvider (p := p) now visits.hashes hlimit (by rw [steps_landed.1])
    exact (hpause.requeue visits.providers).mono subset_rfl hdone subset_rfl
  have hparted : Sound (fly.erase (p, hash)) res {p} ∅ {hash}
      (((fetches.landed p hash).dropPair hash p).requeue hash visits.providers) :=
    (hlanded.dropPair.requeue visits.providers).mono subset_rfl hdone (by simp)
  unfold Fetches.settled
  cases outcome with
  | fetched =>
    refine hunwant.alter rfl rfl ?_ (fun _ _ => id) (fun hnot => absurd rfl hnot) ?_
    · exact fun other wanted hnot hwanted hfree => hunwant.queued other wanted hnot hwanted hfree p
    · exact fun series hsome => by cases hsome
  | held => exact hunwant
  | localFailure =>
    simp only
    cases hw : (fetches.landed p hash).wanted hash with
    | none =>
      refine hlanded.narrowed (fun _ => rfl) (fun _ => rfl) (fun _ => rfl) rfl rfl rfl ?_
        hlanded.holds (fun other hother => .inr (hother ▸ hw)) hlanded.routed
      exact fun other wanted hwanted => ⟨wanted, hwanted, rfl, subset_rfl⟩
    | some wanted =>
      exact { hunwant with }
  | stalled => exact hpaused
  | lacks => exact hparted
  | connectFailed =>
    simp only
    split_ifs
    · exact hpaused
    · exact ((hlanded.dropProvider visits.hashes).requeue visits.providers).mono Set.sdiff_subset
        hdone subset_rfl
  | failed =>
    simp only
    split_ifs
    · exact hpaused
    · exact hparted

lemma finished (h : Sound fly res ∅ ∅ ∅ fetches.begin) (hflying : (p, hash) ∈ fly)
    (outcome : Outcome) (neighbor : Bool) (now : ℕ) :
    Sound (fly.erase (p, hash)) res ∅ ∅ ∅ (fetches.finished visits p hash outcome neighbor now) :=
  (h.settled visits hflying outcome neighbor now).dispatch.unrouteIfStranded.mono
    (by simp) subset_rfl (by simp)

/-- A pause is over. -/
lemma resume (h : Sound fly res ∅ ∅ ∅ fetches.begin) (id : UInt64) :
    Sound fly (res.erase (p, id)) ∅ ∅ ∅ (fetches.resume p id) := by
  have hpaused : ∀ q series, (fetches.providers q).series = some series → series.probing = false →
      (q, series.id) ∈ res := by
    intro q series hsome hprobing
    simpa [Fetches.begin, Steps.armed] using h.paused q series hsome hprobing
  -- A pause keeps its resume, unless it is the one that came.
  have hkeep : (∀ series, (fetches.providers p).series = some series → series.probing = false →
      series.id ≠ id) → Sound fly (res.erase (p, id)) ∅ ∅ ∅ fetches.begin := by
    intro hne
    refine { h with paused := ?_ }
    intro q series hsome hprobing
    refine List.mem_append_left _ ((List.mem_erase_of_ne ?_).mpr (hpaused q series hsome hprobing))
    intro heq
    obtain ⟨rfl, hid⟩ := Prod.mk.inj heq
    exact hne series hsome hprobing hid
  unfold Fetches.resume
  cases hseries : (fetches.providers p).series with
  | none => exact hkeep fun series hsome => by simp [hseries] at hsome
  | some series =>
    simp only
    split_ifs with hstale
    · grind
    · have hprobed : Sound fly res {p} ∅ ∅ (fetches.begin.alter p fun entry =>
          { entry with series := some { series with probing := true } }) := by
        refine h.alter rfl rfl ?_ (fun _ _ => False.elim) (fun hnot => absurd rfl hnot) ?_
        · exact fun other wanted hnot hwanted hfree => h.queued other wanted hnot hwanted hfree p
        · intro other hsome
          cases hsome
          exact ⟨fun hprobing => by simp at hprobing, h.tried p series hseries⟩
      have hcame : Sound fly (res.erase (p, id)) {p} ∅ ∅ (fetches.begin.alter p fun entry =>
          { entry with series := some { series with probing := true } }) := by
        refine { hprobed with paused := ?_ }
        intro q other hsome hprobing
        rw [Working.providers_alter] at hsome
        split_ifs at hsome with hqp
        · simp only [Option.some.injEq] at hsome
          subst hsome
          simp at hprobing
        · refine List.mem_append_left _
            ((List.mem_erase_of_ne ?_).mpr (hpaused q other hsome hprobing))
          exact fun heq => hqp (Prod.mk.inj heq).1
      exact hcame.dispatch.mono (by simp) subset_rfl subset_rfl

lemma neighborGone (h : Sound fly res ∅ ∅ ∅ fetches.begin) :
    Sound fly res ∅ ∅ ∅ (fetches.neighborGone visits p) := by
  unfold Fetches.neighborGone
  split
  · exact h
  · exact (h.dropProvider visits.hashes).mono (by simp) subset_rfl subset_rfl

end Sound

/-- **A call keeps the invariant.** -/
lemma Scheduler.sound_step {s : Scheduler} (visits : Visits) {call : FetchCall}
    (henabled : s.Enabled call) (h : Sound s.flying s.resumes ∅ ∅ ∅ s.fetches.begin) :
    Sound (s.step visits call).flying (s.step visits call).resumes ∅ ∅ ∅
      (s.step visits call).fetches.begin := by
  have hrun : Sound (s.flyingAt call) (s.resumesAt call) ∅ ∅ ∅ (call.run visits s.fetches) := by
    cases call with
    | register hash p => exact h.register
    | want hash => exact h.want visits
    | unwant hash => exact (h.unwant visits.providers).mono subset_rfl (by simp) (by simp)
    | finished p hash outcome neighbor now => exact h.finished visits henabled outcome neighbor now
    | resume p id => exact h.resume id
    | neighborGone p => exact h.neighborGone visits
  exact hrun.begin rfl

/-- **Every run keeps the invariant.** -/
lemma Scheduler.sound_after (limit : ℕ) (calls : List (Visits × FetchCall))
    (hvalid : (Scheduler.new limit).Valid calls) :
    Sound ((Scheduler.new limit).after calls).flying ((Scheduler.new limit).after calls).resumes
      ∅ ∅ ∅ ((Scheduler.new limit).after calls).fetches.begin := by
  have hnew : Sound (Scheduler.new limit).flying (Scheduler.new limit).resumes ∅ ∅ ∅
      (Scheduler.new limit).fetches.begin := by
    refine ⟨?_, ?_, ?_, ?_, ?_, ?_, ?_, ?_, ?_⟩ <;>
      simp [Scheduler.new, Fetches.new, Fetches.begin, Steps.flights]
  generalize Scheduler.new limit = s at hvalid hnew
  induction calls generalizing s with
  | nil => exact hnew
  | cons call calls ih => exact ih _ hvalid.2 (Scheduler.sound_step call.1 hvalid.1 hnew)

/-! ## What the parts of a call do -/

/-- What the parts of a call do: queues change, or what is known of a payload that is wanted; a
fetch starts where there is room; a series ends; a payload is reported, if `reports`; or a want
begins or ends, if `wants`. -/
inductive Act (wants reports : Prop) (work : Working) : Working → Prop
  | still {work' : Working}
      (hproviders : ∀ p, (work'.providers p).inFlight = (work.providers p).inFlight ∧
        (work'.providers p).series = (work.providers p).series)
      (hlimit : work'.limit = work.limit) (hnext : work'.nextSeries = work.nextSeries)
      (hsteps : work'.toSteps = work.toSteps)
      (hwanted : ∀ hash, (work'.wanted hash).isSome = (work.wanted hash).isSome) :
      Act wants reports work work'
  | launch (p : NodeId) (hash : Hash) (wanted : Wanted)
      (hroom : (work.providers p).inFlight < (work.providers p).room work.limit)
      (hwanted : work.wanted hash = some wanted) :
      Act wants reports work (work.launch p hash wanted)
  | ends (p : NodeId) :
      Act wants reports work (work.alter p fun entry => { entry with series := none })
  | report (hash : Hash) (hwanted : (work.wanted hash).isSome) (h : reports) :
      Act wants reports work
        { work.setWanted hash none with unrouted := work.unrouted ++ [hash] }
  | want (hash : Hash) (wanted : Option Wanted) (h : wants) :
      Act wants reports work (work.setWanted hash wanted)

/-- One part after the other. -/
abbrev Acts (wants reports : Prop) : Working → Working → Prop :=
  Relation.ReflTransGen (Act wants reports)

namespace Acts

variable {P R : Prop} {work : Working} {p : NodeId} {hash : Hash}

lemma alter {change : Provider → Provider}
    (hflight : ∀ entry, (change entry).inFlight = entry.inFlight)
    (hseries : ∀ entry, (change entry).series = entry.series) :
    Act P R work (work.alter p change) := by
  refine .still (fun q => ?_) rfl rfl rfl fun _ => rfl
  rw [Working.providers_alter]
  split_ifs
  · exact ⟨hflight _, hseries _⟩
  · exact ⟨rfl, rfl⟩

lemma alterAll {change : Provider → Provider} (ps : List NodeId)
    (hflight : ∀ entry, (change entry).inFlight = entry.inFlight)
    (hseries : ∀ entry, (change entry).series = entry.series) :
    Acts P R work (work.alterAll ps change) := by
  induction ps generalizing work with
  | nil => exact .refl
  | cons p ps ih => exact .head (alter hflight hseries) ih

lemma setWanted {wanted : Wanted} (wanted' : Wanted) (h : work.wanted hash = some wanted) :
    Act P R work (work.setWanted hash (some wanted')) := by
  refine .still (fun _ => ⟨rfl, rfl⟩) rfl rfl rfl fun other => ?_
  by_cases hne : other = hash
  · simp [Working.setWanted, hne, h]
  · simp [Working.setWanted, hne]

lemma picks {work' : Working} (h : Relation.ReflTransGen (Working.Pick p) work work') :
    Acts P R work work' := by
  induction h with
  | refl => exact .refl
  | tail _ hpick ih =>
    refine ih.trans ?_
    cases hpick with
    | skip => exact .single (alter (fun _ => rfl) fun _ => rfl)
    | launch _ hroom hwanted _ _ =>
      refine .tail (.single ?_) (.launch p _ _ ?_ hwanted)
      · exact alter (fun _ => rfl) fun _ => rfl
      · simpa [Working.alter, Provider.room] using hroom

lemma dispatch (work : Working) (p : NodeId) : Acts P R work (work.dispatch p) := by
  have hloop := picks (P := P) (R := R) (@Working.dispatchLoop_picks work p _ rfl).1
  unfold Working.dispatch Working.endProbe
  simp only
  split_ifs
  · exact hloop.tail (.ends p)
  · exact hloop

lemma dispatchAll (work : Working) (ps : List NodeId) : Acts P R work (work.dispatchAll ps) := by
  induction ps generalizing work with
  | nil => exact .refl
  | cons p ps ih => exact (dispatch work p).trans (ih _)

lemma requeue (work : Working) (order : SetOrder NodeId) :
    Acts P R work (work.requeue hash order) := by
  unfold Working.requeue
  split
  · exact .refl
  · refine .trans ?_ (dispatchAll _ _)
    exact alterAll _ (fun _ => rfl) fun _ => rfl

lemma unrouteIfStranded (work : Working) : Acts P True work (work.unrouteIfStranded hash) := by
  unfold Working.unrouteIfStranded
  split
  · exact .refl
  · next hw =>
    split_ifs
    · exact .single (.report hash (by simp [hw]) trivial)
    · exact .refl

lemma exclude (work : Working) : Acts P R work (work.exclude hash p) := by
  unfold Working.exclude
  split
  · exact .refl
  · next hw => exact .single (setWanted _ hw)

lemma excludeAll (work : Working) (hashes : List Hash) :
    Acts P True work (work.excludeAll p hashes) := by
  induction hashes generalizing work with
  | nil => exact .refl
  | cons hash hashes ih => exact ((exclude work).trans (unrouteIfStranded _)).trans (ih _)

lemma dropProvider (work : Working) (order : SetOrder Hash) :
    Acts P True work (work.dropProvider p order) := by
  unfold Working.dropProvider
  refine .trans ?_ (excludeAll _ _)
  refine .head (.ends p) (.single (.still (fun q => ?_) rfl rfl rfl fun _ => rfl))
  simp only [Working.providers_alter]
  split_ifs <;> exact ⟨rfl, rfl⟩

lemma unwant (work : Working) (order : SetOrder NodeId) (hP : P) :
    Acts P R work (work.unwant hash order) := by
  unfold Working.unwant
  split
  · exact .refl
  · exact .head (.want hash none hP) (alterAll _ (fun _ => rfl) fun _ => rfl)

lemma dropPair (work : Working) : Acts P R work (work.dropPair hash p) :=
  (exclude work).tail (alter (fun _ => rfl) fun _ => rfl)

/-! The calls, as far as they are made of these parts. -/

variable (visits : Visits) (fetches : Fetches)

lemma register (hash : Hash) (p : NodeId) : Acts P R fetches.begin (fetches.register hash p) := by
  unfold Fetches.register
  simp only
  have hholders : Act P R fetches.begin { fetches.begin with
      holders := Function.update fetches.holders hash (insert p (fetches.holders hash)) } :=
    .still (fun _ => ⟨rfl, rfl⟩) rfl rfl rfl fun _ => rfl
  split
  · exact .single hholders
  · next wanted hw =>
    split_ifs
    · exact .single hholders
    · refine .trans ?_ (dispatch _ p)
      exact .tail (.tail (.single hholders) (setWanted _ hw)) (alter (fun _ => rfl) fun _ => rfl)

lemma want (hash : Hash) (hP : P) : Acts P R fetches.begin (fetches.want visits hash).2 := by
  unfold Fetches.want
  split
  · exact .refl
  · split_ifs
    · exact .refl
    · refine .trans (.tail ?_ (.want hash _ hP)) (dispatchAll _ _)
      exact alterAll _ (fun _ => rfl) fun _ => rfl

lemma neighborGone (p : NodeId) : Acts P True fetches.begin (fetches.neighborGone visits p) := by
  unfold Fetches.neighborGone
  split
  · exact .refl
  · exact dropProvider _ _

/-- What the outcome of a fetch comes to, whether the provider pauses first or does not. -/
lemma settled (p : NodeId) (hash : Hash) {outcome : Outcome} (neighbor : Bool) (now : ℕ)
    (hP : outcome = .fetched ∨ outcome = .held → P) :
    Acts P True (fetches.landed p hash) (fetches.settled visits p hash outcome neighbor now) ∨
      Acts P True ((fetches.landed p hash).pauseProvider p now visits.hashes)
        (fetches.settled visits p hash outcome neighbor now) := by
  have hparted : Acts P True (fetches.landed p hash)
      (((fetches.landed p hash).dropPair hash p).requeue hash visits.providers) :=
    (dropPair _).trans (requeue _ _)
  unfold Fetches.settled
  cases outcome with
  | fetched => exact .inl ((unwant _ _ (hP (.inl rfl))).tail (.ends p))
  | held => exact .inl (unwant _ _ (hP (.inr rfl)))
  | localFailure =>
    refine .inl ?_
    cases hw : (fetches.landed p hash).wanted hash with
    | none => simpa only [hw] using .refl
    | some wanted =>
      refine .head (.report hash (by simp [hw]) trivial) ?_
      have hreleased : Acts P True
          { (fetches.landed p hash).setWanted hash none with
            unrouted := (fetches.landed p hash).unrouted ++ [hash] }
          (Working.alterAll _ (visits.providers.toList wanted.eligible) (Provider.release hash)) :=
        alterAll _ (fun _ => rfl) fun _ => rfl
      simpa only [hw, Working.unwant,
        Working.alterAll_eq _ (visits.providers.nodup_toList _)] using hreleased
  | stalled => exact .inr (requeue _ _)
  | lacks => exact .inl hparted
  | connectFailed =>
    cases neighbor with
    | true => exact .inr (requeue _ _)
    | false => exact .inl ((dropProvider _ _).trans (requeue _ _))
  | failed =>
    cases neighbor with
    | true => exact .inr (requeue _ _)
    | false => exact .inl hparted

lemma finished (p : NodeId) (hash : Hash) (outcome : Outcome) (neighbor : Bool) (now : ℕ) :
    Acts P True (fetches.settled visits p hash outcome neighbor now)
      (fetches.finished visits p hash outcome neighbor now) :=
  (dispatch _ p).trans (unrouteIfStranded _)

/-- A resume that names the pause begins the probe, and any other does nothing. -/
lemma resume (p : NodeId) (id : UInt64) :
    (fetches.resume p id = fetches.begin ∧ ∀ series, (fetches.providers p).series = some series →
      series.id ≠ id ∨ series.probing = true) ∨
      ∃ series, (fetches.providers p).series = some series ∧ series.id = id ∧
        series.probing = false ∧ Acts P R (fetches.begin.alter p fun entry =>
          { entry with series := some { series with probing := true } }) (fetches.resume p id) := by
  unfold Fetches.resume
  cases hseries : (fetches.providers p).series with
  | none => exact .inl ⟨rfl, by simp⟩
  | some series =>
    simp only
    split_ifs with hstale
    · exact .inl ⟨rfl, by simpa using hstale⟩
    · have hboth := not_or.mp hstale
      exact .inr ⟨series, rfl, not_not.mp hboth.1, by simpa using hboth.2, dispatch _ p⟩

end Acts

/-! ## What stops being wanted -/

/-- As many payloads are wanted as before, and none is reported. -/
structure Steady (work work' : Working) : Prop where
  wanted : ∀ hash, (work'.wanted hash).isSome = (work.wanted hash).isSome
  unrouted : work'.unrouted = work.unrouted

/-- **Payloads stop being wanted by being reported**, and each once. -/
def Unroutes (work work' : Working) : Prop :=
  ∀ hash, (work'.wanted hash).isSome = (work.wanted hash).isSome ∧
      work'.unrouted.count hash = work.unrouted.count hash ∨
    (work.wanted hash).isSome ∧ (work'.wanted hash).isSome = false ∧
      work'.unrouted.count hash = work.unrouted.count hash + 1

section

variable {R : Prop} {work work' work'' : Working} {p : NodeId} {hash : Hash}

lemma Steady.unroutes (h : Steady work work') : Unroutes work work' :=
  fun hash => .inl ⟨h.wanted hash, by rw [h.unrouted]⟩

lemma Unroutes.trans (h : Unroutes work work') (h' : Unroutes work' work'') :
    Unroutes work work'' := by
  intro hash
  have h1 := h hash
  have h2 := h' hash
  grind

/-- A part that begins and ends no want reports one payload at most. -/
lemma Act.steady (h : Act False R work work') :
    Steady work work' ∨ R ∧ ∃ hash,
    (work.wanted hash).isSome ∧
      work' = { work.setWanted hash none with unrouted := work.unrouted ++ [hash] } := by
  cases h with
  | still _ _ _ hsteps hwanted => exact .inl ⟨hwanted, congrArg Steps.unrouted hsteps⟩
  | launch p hash wanted _ hwanted =>
    refine .inl ⟨fun other => ?_, rfl⟩
    by_cases hne : other = hash
    · simp [Working.launch, Working.alter, Working.setWanted, hne, hwanted]
    · simp [Working.launch, Working.alter, Working.setWanted, hne]
  | ends p => exact .inl ⟨fun _ => rfl, rfl⟩
  | report hash hwanted h => exact .inr ⟨h, hash, hwanted, rfl⟩
  | want _ _ h => exact h.elim

lemma Acts.steady (h : Acts False False work work') : Steady work work' := by
  induction h with
  | refl => exact ⟨fun _ => rfl, rfl⟩
  | tail _ hact ih =>
    have hone := hact.steady.resolve_right fun h => h.1
    exact ⟨fun hash => (hone.wanted hash).trans (ih.wanted hash), hone.unrouted.trans ih.unrouted⟩

lemma Acts.unroutes (h : Acts False True work work') : Unroutes work work' := by
  induction h with
  | refl => exact fun _ => .inl ⟨rfl, rfl⟩
  | tail _ hact ih =>
    refine ih.trans ?_
    rcases hact.steady with hone | ⟨-, hash, hwanted, rfl⟩
    · exact hone.unroutes
    · intro other
      by_cases hne : other = hash
      · exact .inr (by simpa [Working.setWanted, hne] using hwanted)
      · exact .inl (by simp [Working.setWanted, hne, Ne.symm hne])

lemma Steady.landed (fetches : Fetches) : Steady fetches.begin (fetches.landed p hash) := by
  refine ⟨fun other => ?_, by rw [Sound.steps_landed.1]; rfl⟩
  rw [Sound.wanted_landed]
  split_ifs with hne
  · simp [hne, Fetches.begin]
  · rfl

/-- What a provider alone held that is tried no more is reported. -/
lemma Unroutes.pauseProvider (work : Working) (now : ℕ) (order : SetOrder Hash) :
    Unroutes work (work.pauseProvider p now order) := by
  have harm : ∀ (work : Working) (series : Series),
      Unroutes work (work.armPause p series now order) := by
    intro work series
    unfold Working.armPause
    split_ifs
    · exact Steady.unroutes ⟨fun _ => rfl, rfl⟩ |>.trans (Acts.dropProvider _ order).unroutes
    · exact Steady.unroutes ⟨fun _ => rfl, rfl⟩
  unfold Working.pauseProvider
  split
  · split_ifs
    · exact harm _ _
    · exact Steady.unroutes ⟨fun _ => rfl, rfl⟩
  · exact Steady.unroutes ⟨fun _ => rfl, rfl⟩ |>.trans (harm _ _)

end

/-- The calls that end a want: it is given up, or the payload is there. -/
def FetchCall.Ends : FetchCall → Hash → Prop
  | .unwant other, hash => other = hash
  | .finished _ other outcome _ _, hash => other = hash ∧ (outcome = .fetched ∨ outcome = .held)
  | _, _ => False

section Wants

variable (visits : Visits) {fetches : Fetches} {work : Working} {hash : Hash}

/-- What a call reports, once, and nothing else is given up. -/
def Reports (fetches : Fetches) (work : Working) (ends : Hash → Prop) : Prop :=
  ∀ hash, ((fetches.wanted hash).isSome → work.wanted hash = none →
      ends hash ∨ work.unrouted.count hash = 1) ∧
    (hash ∈ work.unrouted →
      work.unrouted.count hash = 1 ∧ (fetches.wanted hash).isSome ∧ work.wanted hash = none)

/-- What is given up first, and then what stops being wanted by being reported. -/
lemma Unroutes.reports {before : Working} {ends : Hash → Prop} (h : Unroutes before work)
    (hnone : before.unrouted = [])
    (hwanted : ∀ hash, (before.wanted hash).isSome = (fetches.wanted hash).isSome ∨
      ends hash ∧ before.wanted hash = none) : Reports fetches work ends := by
  intro hash
  have hpos := @List.count_pos_iff _ _ _ hash work.unrouted
  have hhash := h hash
  rw [hnone, List.count_nil] at hhash
  rcases hhash with ⟨hsame, hcount⟩ | ⟨hsome, hno, hcount⟩
  · grind
  · refine ⟨fun _ _ => .inr (by omega), fun _ => ⟨by omega, ?_, by simpa using hno⟩⟩
    rcases hwanted hash with heq | ⟨-, hgone⟩
    · rw [← heq, hsome]
    · simp [hgone] at hsome

lemma unroutes_resume (p : NodeId) (id : UInt64) :
    Unroutes fetches.begin (fetches.resume p id) := by
  rcases Acts.resume fetches p id with ⟨hsame, -⟩ | ⟨series, -, -, -, hacts⟩
  · rw [hsame]
    exact Steady.unroutes ⟨fun _ => rfl, rfl⟩
  · exact Steady.unroutes ⟨fun _ => rfl, rfl⟩ |>.trans hacts.unroutes

/-- A payload is wanted besides those that are, when a provider is registered for it, and nothing is
reported. -/
lemma wanted_want (hash : Hash) :
    (∀ other, ((fetches.want visits hash).2.wanted other).isSome =
      ((fetches.wanted other).isSome || decide (other = hash) && (fetches.want visits hash).1)) ∧
    (fetches.want visits hash).2.unrouted = [] := by
  unfold Fetches.want
  cases hw : fetches.wanted hash with
  | some wanted => grind [Fetches.begin]
  | none =>
    simp only
    split_ifs
    · exact ⟨fun other => by simp [Fetches.begin], rfl⟩
    · rw [Working.alterAll_eq _ (visits.providers.nodup_toList _)]
      have hsteady := Acts.steady <| Acts.dispatchAll (Working.setWanted { fetches.begin with
        providers := fun q => if q ∈ visits.providers.toList (fetches.holders hash) then
          Provider.take hash (fetches.begin.providers q) else fetches.begin.providers q } hash
        (some ⟨fetches.holders hash, none⟩)) (visits.providers.toList (fetches.holders hash))
      refine ⟨fun other => (hsteady.wanted other).trans ?_, hsteady.unrouted⟩
      by_cases hne : other = hash
      · simp [hne, Working.setWanted]
      · simp [hne, Working.setWanted, Fetches.begin]

lemma unroutes_settled (p : NodeId) (hash : Hash) {outcome : Outcome} (neighbor : Bool) (now : ℕ)
    (houtcome : ¬ (outcome = .fetched ∨ outcome = .held)) :
    Unroutes fetches.begin (fetches.settled visits p hash outcome neighbor now) := by
  have hlanded : Steady fetches.begin (fetches.landed p hash) := Steady.landed fetches
  refine hlanded.unroutes.trans ?_
  rcases Acts.settled visits fetches p hash neighbor now houtcome with hacts | hacts
  · exact hacts.unroutes
  · exact (Unroutes.pauseProvider _ now _).trans hacts.unroutes

lemma wanted_settled (p : NodeId) (hash : Hash) {outcome : Outcome} (neighbor : Bool) (now : ℕ)
    (hcame : outcome = .fetched ∨ outcome = .held) :
    (∀ other, (fetches.settled visits p hash outcome neighbor now).wanted other =
      if other = hash then none else (fetches.landed p hash).wanted other) ∧
    (fetches.settled visits p hash outcome neighbor now).unrouted = [] := by
  have hnone : ((fetches.landed p hash).unwant hash visits.providers).unrouted = [] := by
    rw [Working.unrouted_unwant, (Steady.landed fetches).unrouted]
    rfl
  rcases hcame with rfl | rfl
  · exact ⟨Working.wanted_unwant _, hnone⟩
  · exact ⟨Working.wanted_unwant _, hnone⟩

/-- **A want ends by being given up, by the payload being there, or by being reported**, and then
once. -/
lemma FetchCall.reports (call : FetchCall) :
    Reports fetches (call.run visits fetches) call.Ends := by
  cases call with
  | register hash p => exact (Acts.register fetches hash p).unroutes.reports rfl fun _ => .inl rfl
  | want hash =>
    obtain ⟨hwanted, hnone⟩ := @wanted_want visits fetches hash
    intro other
    refine ⟨fun hsome hgone => ?_, fun hmem => ?_⟩
    · have hother := hwanted other
      rw [run] at hgone
      simp [hgone, hsome] at hother
    · simp [run, hnone] at hmem
  | unwant hash =>
    refine Unroutes.reports (Steady.unroutes ⟨fun _ => rfl, rfl⟩) (Working.unrouted_unwant _)
      fun other => ?_
    rw [run, Fetches.unwant, Working.wanted_unwant]
    split_ifs with hne
    · exact .inr ⟨hne.symm, rfl⟩
    · exact .inl rfl
  | finished p hash outcome neighbor now =>
    have hrest := (Acts.finished visits fetches p hash outcome neighbor now).unroutes
    by_cases hcame : outcome = .fetched ∨ outcome = .held
    · obtain ⟨hsettled, hnone⟩ := @wanted_settled visits fetches p hash _ neighbor now hcame
      refine hrest.reports hnone fun other => ?_
      rw [hsettled]
      split_ifs with hne
      · exact .inr ⟨⟨hne.symm, hcame⟩, rfl⟩
      · exact .inl ((Steady.landed fetches).wanted other)
    · have hall := (unroutes_settled visits p hash neighbor now hcame).trans hrest
      exact hall.reports rfl fun _ => .inl rfl
  | resume p id => exact (unroutes_resume p id).reports rfl fun _ => .inl rfl
  | neighborGone p =>
    exact (Acts.neighborGone visits fetches p).unroutes.reports rfl fun _ => .inl rfl

end Wants

/-! ## Every run -/

/-- No slot of a provider is free: it has its limit in flight, a fetch that probes it is out, or it
pauses and the resume is to come. -/
def Scheduler.Taken (s : Scheduler) (p : NodeId) : Prop :=
  match (s.fetches.providers p).series with
  | none => (s.fetches.providers p).inFlight = s.fetches.limit
  | some series =>
    if series.probing then 1 ≤ (s.fetches.providers p).inFlight else (p, series.id) ∈ s.resumes

lemma Scheduler.taken_of_queue {s : Scheduler} {p : NodeId} {hash : Hash}
    (h : Sound s.flying s.resumes ∅ ∅ ∅ s.fetches.begin)
    (hqueue : hash ∈ (s.fetches.providers p).queue) : s.Taken p := by
  have hroom := h.busy p (by simp) (List.ne_nil_of_mem hqueue)
  have hpaused := h.paused p
  have hwithin := h.within p
  simp only [Fetches.begin, Provider.room] at hroom hpaused hwithin
  unfold Scheduler.Taken
  cases hseries : (s.fetches.providers p).series with
  | none =>
    simp only [hseries] at hroom ⊢
    omega
  | some series => grind [Steps.armed]

/-- **The fetch scheduler loses no wanted payload and leaves no usable slot idle.** After every call
of a run, with the fetches that are out ending in any way and the resumes coming late or not at all,
a provider holds what it is eligible for; a wanted payload is being fetched, or it is queued at
every provider eligible for it, none of which has a slot free; and it has a provider or a fetch in
flight. Whatever the next call is, a payload it stops wanting is there, was given up, or is
reported, and what is reported is reported once.

**Proof sketch.** The parts of the statement about one state are parts of the invariant `Sound`,
which the empty scheduler has and every call keeps (`Scheduler.sound_after`). What the next call may
give up is read off the call (`FetchCall.reports`). -/
theorem fetches_scheduled (limit : ℕ) (calls : List (Visits × FetchCall))
    (hvalid : (Scheduler.new limit).Valid calls) :
    (∀ hash wanted, ((Scheduler.new limit).after calls).fetches.wanted hash = some wanted →
      (∀ p, hash ∈ (((Scheduler.new limit).after calls).fetches.providers p).holds ↔
        p ∈ wanted.eligible) ∧
      ((∃ p, wanted.fetching = some p ∧ (p, hash) ∈ ((Scheduler.new limit).after calls).flying) ∨
        ∀ p ∈ wanted.eligible,
          hash ∈ (((Scheduler.new limit).after calls).fetches.providers p).queue ∧
            ((Scheduler.new limit).after calls).Taken p) ∧
      (wanted.eligible.Nonempty ∨ ∃ p, (p, hash) ∈ ((Scheduler.new limit).after calls).flying)) ∧
    ∀ visits call, ((Scheduler.new limit).after calls).Enabled call →
      Reports ((Scheduler.new limit).after calls).fetches
        (call.run visits ((Scheduler.new limit).after calls).fetches) call.Ends := by
  have hsound := Scheduler.sound_after limit calls hvalid
  generalize (Scheduler.new limit).after calls = s at hsound
  refine ⟨fun hash wanted hwanted => ?_, fun visits call _ => FetchCall.reports visits call⟩
  have hflying : ∀ p, wanted.fetching = some p → (p, hash) ∈ s.flying := by
    intro p hp
    simpa [Fetches.begin, Steps.flights] using hsound.fetching hash wanted p hwanted hp
  have hqueued := hsound.queued hash wanted (by simp) hwanted
  refine ⟨fun p => ?_, ?_, ?_⟩
  · refine (hsound.holds hash p).trans ⟨fun ⟨_, hother, hp⟩ => ?_, fun hp => ⟨wanted, hwanted, hp⟩⟩
    cases hwanted.symm.trans hother
    exact hp
  · cases hfetching : wanted.fetching with
    | some p => exact .inl ⟨p, rfl, hflying p hfetching⟩
    | none =>
      exact .inr fun p hp =>
        ⟨hqueued hfetching p hp, Scheduler.taken_of_queue hsound (hqueued hfetching p hp)⟩
  · refine (hsound.routed hash wanted (Set.notMem_empty _) hwanted).imp id fun hsome => ?_
    obtain ⟨p, hp⟩ := Option.ne_none_iff_exists'.mp hsome
    exact ⟨p, hflying p hp⟩

namespace Testing

/-- Sets in the order of a list, as far as it names their elements. -/
noncomputable def orderOf {α : Type} [DecidableEq α] (all : List α) (hall : all.Nodup) :
    SetOrder α where
  toList s := if s ⊆ all.toFinset then all.filter (· ∈ s) else s.toList
  mem_toList s a := by
    split_ifs with hsub
    · have hmem : a ∈ s → a ∈ all := fun ha => List.mem_toFinset.mp (hsub ha)
      simpa using hmem
    · exact Finset.mem_toList
  nodup_toList s := by
    split_ifs
    · exact hall.filter _
    · exact s.nodup_toList

/-- A provider. -/
def holder : NodeId := ⟨.replicate 32 1⟩

/-- A payload. -/
def photo : Hash := ⟨.replicate 32 2⟩

/-- Another payload. -/
def album : Hash := ⟨.replicate 32 3⟩

/-- The orders the sets of these are visited in. -/
noncomputable def inTurn : Visits :=
  ⟨orderOf [holder] (by decide), orderOf [photo, album] (by decide)⟩

/-- A payload is wanted of its one provider, which stalls and is asked again. -/
noncomputable def stalling : List (Visits × FetchCall) :=
  [(inTurn, .register photo holder), (inTurn, .want photo),
    (inTurn, .finished holder photo .stalled true 0), (inTurn, .resume holder 0)]

lemma valid_stalling : (Scheduler.new 1).Valid stalling := by decide +kernel

/-- The payload is wanted again and in flight. -/
theorem fetches_scheduled_stalling :
    ((Scheduler.new 1).after stalling).flying = [(holder, photo)] ∧
      ∃ wanted, ((Scheduler.new 1).after stalling).fetches.wanted photo = some wanted ∧
        (wanted.eligible.Nonempty ∨
          ∃ p, (p, photo) ∈ ((Scheduler.new 1).after stalling).flying) := by
  have hwanted : ((Scheduler.new 1).after stalling).fetches.wanted photo =
      some ⟨{holder}, some holder⟩ := by decide +kernel
  exact ⟨by decide +kernel, _, hwanted,
    ((fetches_scheduled 1 stalling valid_stalling).1 photo _ hwanted).2.2⟩

end Testing

end MeePdn.PdnStore.Engine
