import MeePdn.Settling.Rounds

/-!
# Logs that settle alike

Two ways in which a change to a log leaves what settles as it was.

A region of points that is closed under what its events read settles by itself: two logs that hold
the same events there agree there, round by round, whatever else they hold. And where two logs
differ only in which events of one point count, the events of that point meet the same states: a
state the difference shows in settles after the point.

## Main definitions

* `Simulates` — two logs with the same events in a closed region.
* `SameBut` — two logs of one set of events that differ in what counts at one point.

## Main results

* `Simulates.cycs_iff`, `Simulates.final_eq`, `Simulates.result_eq` — they agree in the region.
* `Simulates.result_eq_next` — and on events that rest on nothing outside it.
* `SameBut.result_eq` — the events of the point have the same outcome.
-/

namespace MeePdn.Settling

open Classical Relation

variable {ι κ σ ε ε' : Type*}

/-! ## A closed region -/

/-- In a region of points closed under what its events read, two logs hold the same events, one
for one or one for several. -/
structure Simulates (rules : Rules κ σ) (L : Log ι κ σ ε) (L' : Log ι κ σ ε')
    (R : ι → ℕ → Prop) (ρ : ε → ε' → Prop) : Prop where
  down : ∀ x s, R x (s + 1) → R x s
  run_iff : ∀ x s, R x (s + 1) → (s < L.run x ↔ s < L'.run x)
  event : ∀ e e', ρ e e' → e ∈ L.events
  event' : ∀ e e', ρ e e' → e' ∈ L'.events
  subject : ∀ e e', ρ e e' → L.subject e = L'.subject e'
  seq : ∀ e e', ρ e e' → L.seq e = L'.seq e'
  kind : ∀ e e', ρ e e' → L.kind e = L'.kind e'
  actor : ∀ e e', ρ e e' → L.actor e = L'.actor e'
  actorSeq : ∀ e e', ρ e e' → L.actorSeq e = L'.actorSeq e'
  counts : ∀ e e', ρ e e' → R (L.subject e) (L.seq e) → ∀ a, L.counts e a ↔ L'.counts e' a
  left : ∀ e ∈ L.events, R (L.subject e) (L.seq e) → ∃ e', ρ e e'
  right : ∀ e' ∈ L'.events, R (L'.subject e') (L'.seq e') → ∃ e, ρ e e'
  closed : ∀ e e', ρ e e' → R (L.subject e) (L.seq e) → rules.reads (L.kind e) →
    R (L.actor e) (L.actorSeq e)

namespace Simulates

variable {rules : Rules κ σ} {L : Log ι κ σ ε} {L' : Log ι κ σ ε'} {R : ι → ℕ → Prop}
  {ρ : ε → ε' → Prop} {x : ι} {s : ℕ} {a : σ} {e : ε} {e' : ε'}

lemma down_le (h : Simulates rules L L' R ρ) {t : ℕ} (hs : R x s) (hts : t ≤ s) : R x t := by
  induction s with
  | zero =>
    obtain rfl := Nat.le_zero.mp hts
    exact hs
  | succ s ih =>
    rcases Nat.le_succ_iff.mp hts with hts | rfl
    · exact ih (h.down x s hs) hts
    · exact hs

/-- The relation the other way round. -/
lemma symm (h : Simulates rules L L' R ρ) : Simulates rules L' L R fun e' e => ρ e e' where
  down := h.down
  run_iff := fun x s hs => (h.run_iff x s hs).symm
  event := fun e' e => h.event' e e'
  event' := fun e' e => h.event e e'
  subject := fun e' e he => (h.subject e e' he).symm
  seq := fun e' e he => (h.seq e e' he).symm
  kind := fun e' e he => (h.kind e e' he).symm
  actor := fun e' e he => (h.actor e e' he).symm
  actorSeq := fun e' e he => (h.actorSeq e e' he).symm
  counts := fun e' e he hR a => by
    rw [← h.subject e e' he, ← h.seq e e' he] at hR
    exact (h.counts e e' he hR a).symm
  left := h.right
  right := h.left
  closed := fun e' e he hR hreads => by
    rw [← h.subject e e' he, ← h.seq e e' he] at hR
    rw [← h.kind e e' he] at hreads
    rw [← h.actor e e' he, ← h.actorSeq e e' he]
    exact h.closed e e' he hR hreads

/-- All that an event rests on lies in the region, though its own point may not. -/
def NextTo (rules : Rules κ σ) (L : Log ι κ σ ε) (R : ι → ℕ → Prop) (e : ε) : Prop :=
  R (L.subject e) (L.seq e - 1) ∧ (rules.reads (L.kind e) → R (L.actor e) (L.actorSeq e))

lemma nextTo (h : Simulates rules L L' R ρ) (he : ρ e e') (hR : R (L.subject e) (L.seq e)) :
    NextTo rules L R e :=
  ⟨h.down_le hR (Nat.sub_le _ 1), h.closed e e' he hR⟩

lemma outcome_eq_next (h : Simulates rules L L' R ρ) {cyc : Set ε} {cyc' : Set ε'}
    {K K' : Known ι σ} (hK : ∀ y k, R y k → K y k = K' y k) (he : ρ e e')
    (hnext : NextTo rules L R e) (hcyc : e ∈ cyc ↔ e' ∈ cyc') :
    L.outcome rules cyc K e = L'.outcome rules cyc' K' e' := by
  have hactor : L.actorState rules K e = L'.actorState rules K' e' := by
    unfold Log.actorState
    rw [← h.kind e e' he, ← h.actor e e' he, ← h.actorSeq e e' he]
    split
    · next hreads => exact hK _ _ (hnext.2 hreads)
    · rfl
  unfold Log.outcome
  rw [← h.subject e e' he, ← h.seq e e' he, ← h.kind e e' he, hactor, ← hK _ _ hnext.1]
  simp only [hcyc]

lemma outcome_eq (h : Simulates rules L L' R ρ) {cyc : Set ε} {cyc' : Set ε'} {K K' : Known ι σ}
    (hK : ∀ y k, R y k → K y k = K' y k) (he : ρ e e') (hR : R (L.subject e) (L.seq e))
    (hcyc : e ∈ cyc ↔ e' ∈ cyc') : L.outcome rules cyc K e = L'.outcome rules cyc' K' e' :=
  h.outcome_eq_next hK he (h.nextTo he hR) hcyc

/-- The events set down as cyclic correspond in the region. -/
def CycIff (L : Log ι κ σ ε) (R : ι → ℕ → Prop) (ρ : ε → ε' → Prop) (cyc : Set ε)
    (cyc' : Set ε') : Prop :=
  ∀ e e', ρ e e' → R (L.subject e) (L.seq e) → (e ∈ cyc ↔ e' ∈ cyc')

/-- What settles in the region by one log does by the other. -/
lemma settles (h : Simulates rules L L' R ρ) {cyc : Set ε} {cyc' : Set ε'}
    (hcyc : CycIff L R ρ cyc cyc') (hs : L.Settles rules cyc x s a) (hR : R x s) :
    L'.Settles rules cyc' x s a := by
  induction hs with
  | zero x => exact .zero x
  | succ x s K before hK hbefore hrun hready ih =>
    -- the second log knows what the first does in the region
    let K' : Known ι σ := fun y k => if R y k then K y k else none
    have hKK' : ∀ y k, R y k → K y k = K' y k := fun y k hyk => by simp [K', hyk]
    have hout : ∀ e e', ρ e e' → L.At x (s + 1) e →
        L.outcome rules cyc K e = L'.outcome rules cyc' K' e' := by
      rintro e e' he ⟨-, hx, hseq⟩
      have hRe : R (L.subject e) (L.seq e) := by rw [hx, hseq]; exact hR
      exact h.outcome_eq hKK' he hRe (hcyc e e' he hRe)
    have hat : ∀ e e', ρ e e' → (L.At x (s + 1) e ↔ L'.At x (s + 1) e') := by
      intro e e' he
      simp only [Log.At, h.event e e' he, h.event' e e' he, h.subject e e' he, h.seq e e' he]
    have hready' : L'.Ready rules cyc' K' x (s + 1) := by
      intro e' he'
      obtain ⟨e, he⟩ := h.right e' he'.1 (by rw [he'.2.1, he'.2.2]; exact hR)
      rw [← hout e e' he ((hat e e' he).mpr he')]
      exact hready e ((hat e e' he).mpr he')
    have hcounts : ∀ e e' o, ρ e e' → L.At x (s + 1) e → (L.Counts e o ↔ L'.Counts e' o) := by
      rintro e e' o he ⟨-, hx, hseq⟩
      have hRe : R (L.subject e) (L.seq e) := by rw [hx, hseq]; exact hR
      simp only [Log.Counts, h.counts e e' he hRe]
    have hkinds : L.countedKinds rules cyc K x (s + 1) =
        L'.countedKinds rules cyc' K' x (s + 1) := by
      ext k
      constructor
      · rintro ⟨e, hate, hk, o, ho, hc⟩
        obtain ⟨e', he⟩ := h.left e hate.1 (by rw [hate.2.1, hate.2.2]; exact hR)
        exact ⟨e', (hat e e' he).mp hate, (h.kind e e' he).symm.trans hk, o,
          (hout e e' he hate).symm.trans ho, (hcounts e e' o he hate).mp hc⟩
      · rintro ⟨e', hate', hk, o, ho, hc⟩
        obtain ⟨e, he⟩ := h.right e' hate'.1 (by rw [hate'.2.1, hate'.2.2]; exact hR)
        have hate := (hat e e' he).mpr hate'
        exact ⟨e, hate, (h.kind e e' he).trans hk, o, (hout e e' he hate).trans ho,
          (hcounts e e' o he hate).mpr hc⟩
    rw [hkinds]
    refine .succ x s K' before (fun y k a hy => ?_) ?_ ((h.run_iff x s hR).mp hrun) hready'
    · grind
    · rw [← hKK' x s (h.down x s hR)]
      exact hbefore

lemma known_eq (h : Simulates rules L L' R ρ) {cyc : Set ε} {cyc' : Set ε'}
    (hcyc : CycIff L R ρ cyc cyc') (hR : R x s) :
    L.known rules cyc x s = L'.known rules cyc' x s := by
  have hcyc' : CycIff L' R (fun e' e => ρ e e') cyc' cyc := fun e' e he hR' => by
    rw [← h.subject e e' he, ← h.seq e e' he] at hR'
    exact (hcyc e e' he hR').symm
  refine Option.ext fun a => ?_
  rw [Log.known_eq_some_iff, Log.known_eq_some_iff]
  exact ⟨fun hs => h.settles hcyc hs hR, fun hs => h.symm.settles hcyc' hs hR⟩

/-! ### Round by round -/

section Rounds

variable {cyc : Set ε} {cyc' : Set ε'}

lemma waits_iff_next (h : Simulates rules L L' R ρ) (hcyc : CycIff L R ρ cyc cyc') (he : ρ e e')
    (hnext : NextTo rules L R e) (hmem : e ∈ cyc ↔ e' ∈ cyc') :
    L.Waits rules cyc e ↔ L'.Waits rules cyc' e' := by
  have hbefore : L.known rules cyc (L.subject e) (L.seq e - 1) =
      L'.known rules cyc' (L'.subject e') (L'.seq e' - 1) := by
    rw [← h.subject e e' he, ← h.seq e e' he]
    exact h.known_eq hcyc hnext.1
  have hout : L.outcome rules cyc (L.known rules cyc) e =
      L'.outcome rules cyc' (L'.known rules cyc') e' :=
    h.outcome_eq_next (fun _ _ hyk => h.known_eq hcyc hyk) he hnext hmem
  simp only [Log.Waits, h.event e e' he, h.event' e e' he, hbefore, hout]

lemma waits_iff (h : Simulates rules L L' R ρ) (hcyc : CycIff L R ρ cyc cyc') (he : ρ e e')
    (hR : R (L.subject e) (L.seq e)) : L.Waits rules cyc e ↔ L'.Waits rules cyc' e' :=
  h.waits_iff_next hcyc he (h.nextTo he hR) (hcyc e e' he hR)

lemma linked_mem (h : Simulates rules L L' R ρ) {f : ε} (he : ρ e e')
    (hR : R (L.subject e) (L.seq e)) (hlink : L.Linked rules cyc e f) :
    R (L.subject f) (L.seq f) := by
  have hreads := hlink.1.reads
  rw [hlink.2.2]
  exact h.down_le (h.closed e e' he hR hreads) hlink.seq_le

/-- A path of waits in the region is one of the other log. -/
lemma linked_lift (h : Simulates rules L L' R ρ) (hcyc : CycIff L R ρ cyc cyc') {f : ε}
    (he : ρ e e') (hR : R (L.subject e) (L.seq e)) (hpath : TransGen (L.Linked rules cyc) e f) :
    ∃ f', ρ f f' ∧ R (L.subject f) (L.seq f) ∧ TransGen (L'.Linked rules cyc') e' f' := by
  have hstep : ∀ {g k : ε} {g' : ε'}, ρ g g' → R (L.subject g) (L.seq g) →
      L.Linked rules cyc g k →
      ∃ k', ρ k k' ∧ R (L.subject k) (L.seq k) ∧ L'.Linked rules cyc' g' k' := by
    intro g k g' hg hRg hlink
    have hRk := h.linked_mem hg hRg hlink
    obtain ⟨k', hk⟩ := h.left k hlink.2.1.1 hRk
    refine ⟨k', hk, hRk, (h.waits_iff hcyc hg hRg).mp hlink.1,
      (h.waits_iff hcyc hk hRk).mp hlink.2.1, ?_⟩
    rw [← h.subject k k' hk, ← h.actor g g' hg]
    exact hlink.2.2
  induction hpath with
  | single hlink =>
    obtain ⟨k', hk, hRk, hlink'⟩ := hstep he hR hlink
    exact ⟨k', hk, hRk, .single hlink'⟩
  | tail _ hlink ih => grind

lemma onLoop (h : Simulates rules L L' R ρ) (hcyc : CycIff L R ρ cyc cyc') (he : ρ e e')
    (hR : R (L.subject e) (L.seq e)) (hloop : L.OnLoop rules cyc e) :
    L'.OnLoop rules cyc' e' := by
  obtain ⟨e'', he'', -, hpath⟩ := h.linked_lift hcyc he hR hloop
  obtain ⟨g', hg', hlast⟩ := TransGen.tail'_iff.mp hpath
  obtain ⟨g, hg, -⟩ := TransGen.head'_iff.mp hloop
  -- the path may end in another event that stands for `e`, but waits are for a chain
  refine TransGen.tail'_iff.mpr ⟨g', hg', hlast.1, (h.waits_iff hcyc he hR).mp hg.1, ?_⟩
  rw [← h.subject e e' he, h.subject e e'' he'']
  exact hlast.2.2

lemma onLoop_iff (h : Simulates rules L L' R ρ) (hcyc : CycIff L R ρ cyc cyc') (he : ρ e e')
    (hR : R (L.subject e) (L.seq e)) : L.OnLoop rules cyc e ↔ L'.OnLoop rules cyc' e' := by
  refine ⟨h.onLoop hcyc he hR, fun hloop => ?_⟩
  have hcyc' : CycIff L' R (fun e' e => ρ e e') cyc' cyc := fun f' f hf hR' => by
    rw [← h.subject f f' hf, ← h.seq f f' hf] at hR'
    exact (hcyc f f' hf hR').symm
  have hR' : R (L'.subject e') (L'.seq e') := by
    rw [← h.subject e e' he, ← h.seq e e' he]
    exact hR
  exact h.symm.onLoop hcyc' he hR' hloop

end Rounds

variable {rounds : ℕ}

/-- **Round by round** the same events of the region are set down as cyclic. -/
lemma cycs_iff (h : Simulates rules L L' R ρ) (i : ℕ) :
    CycIff L R ρ (L.cycs rules rounds i) (L'.cycs rules rounds i) := by
  induction i with
  | zero => exact fun e e' _ _ => Iff.rfl
  | succ i ih =>
    intro e e' he hR
    exact or_congr (ih e e' he hR)
      (and_congr (h.waits_iff ih he hR) (imp_congr Iff.rfl (h.onLoop_iff ih he hR)))

lemma cyclic_iff (h : Simulates rules L L' R ρ) :
    CycIff L R ρ (L.cyclic rules rounds) (L'.cyclic rules rounds) := by
  intro e e' he hR
  simp only [Log.cyclic, Set.mem_iUnion]
  exact exists_congr fun i => h.cycs_iff i e e' he hR

lemma heldUp_iff (h : Simulates rules L L' R ρ) {y : ι} {k : ℕ} (hx : R x s) (hy : R y k) :
    L.HeldUp rules rounds x s y k ↔ L'.HeldUp rules rounds x s y k := by
  unfold Log.HeldUp
  refine exists_congr fun i => and_congr_right fun _ => ?_
  rw [h.known_eq (h.cycs_iff i) hx, h.known_eq (h.cycs_iff i) hy]

/-- **The final states agree in the region.** -/
lemma final_eq (h : Simulates rules L L' R ρ) (hR : R x s) :
    L.final rules rounds x s = L'.final rules rounds x s := by
  unfold Log.final
  rw [h.known_eq h.cyclic_iff hR]

/-- **Corresponding events of the region have one outcome in the end.** -/
lemma result_eq (h : Simulates rules L L' R ρ) (he : ρ e e') (hR : R (L.subject e) (L.seq e)) :
    L.result rules rounds e = L'.result rules rounds e' := by
  unfold Log.result
  rw [h.outcome_eq (fun _ _ hyk => h.known_eq h.cyclic_iff hyk) he hR (h.cyclic_iff e e' he hR)]

/-! ### Events next to the region -/

section Next

lemma nextTo_iff (h : Simulates rules L L' R ρ) (he : ρ e e') :
    NextTo rules L R e ↔ NextTo rules L' R e' := by
  rw [NextTo, NextTo, h.subject e e' he, h.seq e e' he, h.kind e e' he, h.actor e e' he,
    h.actorSeq e e' he]

lemma mem_of_linked (h : Simulates rules L L' R ρ) {cyc : Set ε} {f : ε}
    (hnext : NextTo rules L R e) (hpath : TransGen (L.Linked rules cyc) e f) :
    R (L.subject f) (L.seq f) := by
  induction hpath with
  | single hlink =>
    rw [hlink.2.2]
    exact h.down_le (hnext.2 hlink.1.reads) hlink.seq_le
  | tail _ hlink ih =>
    obtain ⟨g', hg⟩ := h.left _ hlink.1.1 ih
    exact h.linked_mem hg ih hlink

/-- **Round by round** an event next to the region is set down as cyclic in both logs or in none:
a loop that it lies on lies in the region. -/
lemma cycs_iff_next (h : Simulates rules L L' R ρ) (he : ρ e e') (hnext : NextTo rules L R e)
    (i : ℕ) : e ∈ L.cycs rules rounds i ↔ e' ∈ L'.cycs rules rounds i := by
  induction i with
  | zero => exact Iff.rfl
  | succ i ih =>
    have hwaits := h.waits_iff_next (h.cycs_iff i) he hnext ih
    refine or_congr ih (and_congr hwaits (imp_congr Iff.rfl ⟨fun hloop => ?_, fun hloop => ?_⟩))
    · exact (h.onLoop_iff (h.cycs_iff i) he (h.mem_of_linked hnext hloop)).mp hloop
    · have hR := h.symm.mem_of_linked ((h.nextTo_iff he).mp hnext) hloop
      rw [← h.subject e e' he, ← h.seq e e' he] at hR
      exact (h.onLoop_iff (h.cycs_iff i) he hR).mpr hloop

/-- **Corresponding events next to the region have one outcome in the end.** -/
lemma result_eq_next (h : Simulates rules L L' R ρ) (he : ρ e e') (hnext : NextTo rules L R e) :
    L.result rules rounds e = L'.result rules rounds e' := by
  have hcyc : e ∈ L.cyclic rules rounds ↔ e' ∈ L'.cyclic rules rounds := by
    simp only [Log.cyclic, Set.mem_iUnion]
    exact exists_congr fun i => h.cycs_iff_next he hnext i
  unfold Log.result
  rw [h.outcome_eq_next (fun _ _ hyk => h.known_eq h.cyclic_iff hyk) he hnext hcyc]

end Next

end Simulates

/-! ## One point -/

/-- Two logs of one set of events that differ only in which events of one point count. -/
structure SameBut (L L' : Log ι κ σ ε) (x : ι) (s : ℕ) : Prop where
  events : L.events = L'.events
  subject : L.subject = L'.subject
  seq : L.seq = L'.seq
  kind : L.kind = L'.kind
  actor : L.actor = L'.actor
  actorSeq : L.actorSeq = L'.actorSeq
  run : L.run = L'.run
  counts : ∀ e ∈ L.events, ¬ L.At x s e → L.counts e = L'.counts e

namespace SameBut

variable {rules : Rules κ σ} {L L' : Log ι κ σ ε} {p : ι} {t : ℕ} {x : ι} {s : ℕ} {a : σ} {e : ε}
  {cyc : Set ε} {K : Known ι σ}

lemma at_iff (h : SameBut L L' p t) : L.At x s e ↔ L'.At x s e := by
  simp only [Log.At, h.events, h.subject, h.seq]

lemma symm (h : SameBut L L' p t) : SameBut L' L p t where
  events := h.events.symm
  subject := h.subject.symm
  seq := h.seq.symm
  kind := h.kind.symm
  actor := h.actor.symm
  actorSeq := h.actorSeq.symm
  run := h.run.symm
  counts := fun e he hat =>
    (h.counts e (h.events.symm ▸ he) fun hat' => hat (h.at_iff.mp hat')).symm

lemma outcome_eq (h : SameBut L L' p t) : L.outcome rules cyc K e = L'.outcome rules cyc K e := by
  simp only [Log.outcome, Log.actorState, h.subject, h.seq, h.kind, h.actor, h.actorSeq]

/-- The events of the point have outcomes, the same ones, by what the two logs know. -/
def Decided (rules : Rules κ σ) (L L' : Log ι κ σ ε) (p : ι) (t : ℕ) (cyc cyc' : Set ε) : Prop :=
  ∀ e, L.At p t e → ∃ o, L.outcome rules cyc (L.known rules cyc) e = some o ∧
    L'.outcome rules cyc' (L'.known rules cyc') e = some o

/-- **A state the difference shows in settles after the point**: what settles by one log does by
the other, unless the events of the point are decided by both.

**Proof sketch.** By induction on how the state settles. If all it reads settles by the other log
too, its events have the same outcomes there; so it settles as it did, or it is the state of the
point itself, and then the events of the point are decided. -/
lemma settles_or_decided (h : SameBut L L' p t) (hs : L.Settles rules cyc x s a) :
    L'.Settles rules cyc x s a ∨ Decided rules L L' p t cyc cyc := by
  induction hs with
  | zero x => exact Or.inl (.zero x)
  | succ x s K before hK hbefore hrun hready ih =>
    by_cases hdec : Decided rules L L' p t cyc cyc
    · exact Or.inr hdec
    have hK' : ∀ y k a, K y k = some a → L'.Settles rules cyc y k a := fun y k a hy =>
      (ih y k a hy).resolve_right hdec
    have hle : K.Le (L.known rules cyc) := fun y k a hy =>
      Log.known_eq_some_iff.mpr (hK y k a hy)
    have hle' : K.Le (L'.known rules cyc) := fun y k a hy =>
      Log.known_eq_some_iff.mpr (hK' y k a hy)
    by_cases hpoint : x = p ∧ s + 1 = t
    · obtain ⟨rfl, rfl⟩ := hpoint
      refine Or.inr fun e he => ?_
      obtain ⟨o, ho⟩ := Option.isSome_iff_exists.mp (hready e he)
      exact ⟨o, Log.outcome_mono hle ho, Log.outcome_mono hle' (h.outcome_eq ▸ ho)⟩
    · have hready' : L'.Ready rules cyc K x (s + 1) := fun e he => by
        rw [← h.outcome_eq]
        exact hready e (h.at_iff.mpr he)
      have hcounts : ∀ e, L.At x (s + 1) e → L.counts e = L'.counts e := by
        intro e he
        refine h.counts e he.1 fun hat => hpoint ⟨?_, ?_⟩
        · exact he.2.1.symm.trans hat.2.1
        · exact he.2.2.symm.trans hat.2.2
      have hkinds : L.countedKinds rules cyc K x (s + 1) =
          L'.countedKinds rules cyc K x (s + 1) := by
        ext k
        constructor
        · rintro ⟨e, he, hk, o, ho, b, hb, hc⟩
          exact ⟨e, h.at_iff.mp he, by rw [← h.kind]; exact hk, o, h.outcome_eq ▸ ho, b, hb,
            hcounts e he ▸ hc⟩
        · rintro ⟨e, he, hk, o, ho, b, hb, hc⟩
          have he' := h.at_iff.mpr he
          exact ⟨e, he', by rw [h.kind]; exact hk, o, h.outcome_eq ▸ ho, b, hb,
            (hcounts e he').symm ▸ hc⟩
      rw [hkinds]
      exact Or.inl (.succ x s K before hK' hbefore (h.run ▸ hrun) hready')

variable (rules) in
lemma known_eq_or_decided (h : SameBut L L' p t) (cyc : Set ε) :
    L.known rules cyc = L'.known rules cyc ∨ Decided rules L L' p t cyc cyc := by
  by_cases hdec : Decided rules L L' p t cyc cyc
  · exact Or.inr hdec
  have hdec' : ¬ Decided rules L' L p t cyc cyc := fun hd => hdec fun e he => by
    obtain ⟨o, ho', ho⟩ := hd e (h.at_iff.mp he)
    exact ⟨o, ho, ho'⟩
  refine Or.inl (Known.Le.antisymm (fun x s a hk => ?_) fun x s a hk => ?_)
  · exact Log.known_eq_some_iff.mpr
      ((h.settles_or_decided (Log.known_eq_some_iff.mp hk)).resolve_right hdec)
  · exact Log.known_eq_some_iff.mpr
      ((h.symm.settles_or_decided (Log.known_eq_some_iff.mp hk)).resolve_right hdec')

lemma linked_eq (h : SameBut L L' p t) (hknown : L.known rules cyc = L'.known rules cyc) :
    L.Waits rules cyc = L'.Waits rules cyc ∧ L.Linked rules cyc = L'.Linked rules cyc := by
  have hwaits : L.Waits rules cyc = L'.Waits rules cyc := by
    funext e
    simp only [Log.Waits, hknown, h.events, h.subject, h.seq, h.outcome_eq]
  refine ⟨hwaits, ?_⟩
  funext e f
  simp only [Log.Linked, hwaits, h.subject, h.actor]

variable {rounds : ℕ}

/-- Round by round the same events are set down, unless the events of the point are decided. -/
lemma cycs_eq_or_decided (h : SameBut L L' p t) (i : ℕ) :
    L.cycs rules rounds i = L'.cycs rules rounds i ∨
      Decided rules L L' p t (L.cycs rules rounds i) (L'.cycs rules rounds i) := by
  induction i with
  | zero => exact Or.inl rfl
  | succ i ih =>
    have hkeep : Decided rules L L' p t (L.cycs rules rounds i) (L'.cycs rules rounds i) →
        Decided rules L L' p t (L.cycs rules rounds (i + 1)) (L'.cycs rules rounds (i + 1)) := by
      intro hd e he
      obtain ⟨o, ho, ho'⟩ := hd e he
      exact ⟨o, Log.outcome_cycs_succ ho, Log.outcome_cycs_succ ho'⟩
    rcases ih with hcyc | hdec
    · rcases h.known_eq_or_decided rules (L.cycs rules rounds i) with hknown | hdec
      · obtain ⟨hwaits, hlinked⟩ := h.linked_eq hknown
        left
        simp only [Log.cycs, Log.OnLoop, ← hcyc, hwaits, hlinked]
      · exact Or.inr (hkeep (hcyc ▸ hdec))
    · exact Or.inr (hkeep hdec)

/-- **The events of the point have one outcome** in the end, whatever of them counts. -/
lemma result_eq (h : SameBut L L' p t) (he : L.At p t e) :
    L.result rules rounds e = L'.result rules rounds e := by
  obtain ⟨i, hi⟩ := Log.exists_no_waits rules L rounds
  obtain ⟨j, hj⟩ := Log.exists_no_waits rules L' rounds
  have hL : L.cyclic rules rounds = L.cycs rules rounds (max i j) :=
    Log.cyclic_eq (Log.not_waits_of_le hi (le_max_left i j))
  have hL' : L'.cyclic rules rounds = L'.cycs rules rounds (max i j) :=
    Log.cyclic_eq (Log.not_waits_of_le hj (le_max_right i j))
  have hdecided : Decided rules L L' p t (L.cyclic rules rounds) (L'.cyclic rules rounds) →
      L.result rules rounds e = L'.result rules rounds e := by
    intro hd
    obtain ⟨o, ho, ho'⟩ := hd e he
    simp [Log.result, ho, ho']
  have hcycs : L.cyclic rules rounds = L'.cyclic rules rounds ∨
      Decided rules L L' p t (L.cyclic rules rounds) (L'.cyclic rules rounds) := by
    rw [hL, hL']
    exact h.cycs_eq_or_decided (max i j)
  rcases hcycs with hcyc | hdec
  · grind [Log.result, h.known_eq_or_decided, h.outcome_eq]
  · exact hdecided hdec

end SameBut

end MeePdn.Settling
