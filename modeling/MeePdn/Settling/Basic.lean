import Mathlib.Data.Set.Finite.Basic
import Mathlib.Logic.Relation

/-!
# Chains of events that settle by what they read

A log keeps one chain of sequences for every identity. At each sequence lie events; the state after
a sequence is made of the state before it and of the events that count there. Whether an event
counts is judged on two states: the one before its own sequence, which has to allow its kind, and
the one of another chain, its actor's, at a point the event names. So states settle in an order
that the log itself decides, and some may never settle.

This module says what is *known*: the least assignment of states to points that is closed under
the rules, given the set of events already set down as cyclic.

## Main definitions

* `Rules`, `Log` — the tables, and the events with the points they lie at and name.
* `Outcome`, `Log.outcome` — what becomes of an event, as far as some known states decide it.
* `Log.Settles`, `Log.known` — the states that settle.

## Main results

* `Log.known_succ_iff` — `known` is closed under the rules, and holds nothing else.
* `Log.known_le` — `known` is the least such assignment.
* `Log.known_le_known` — setting events down as cyclic that have no outcome yet loses nothing known.
-/

namespace MeePdn.Settling

open Classical

/-- The tables: the state of an identity before its chain, the kinds a state allows, the kinds
that read their actor's state, and the state the kinds counted at one sequence leave. -/
structure Rules (κ σ : Type*) where
  start : σ
  allows : σ → κ → Prop
  reads : κ → Prop
  after : σ → Set κ → σ

/-- The events of all chains, each at a sequence its chain's run reaches and naming a point its
actor's run reaches. -/
structure Log (ι κ σ ε : Type*) where
  events : Set ε
  finite : events.Finite
  subject : ε → ι
  seq : ε → ℕ
  kind : ε → κ
  actor : ε → ι
  actorSeq : ε → ℕ
  /-- Whether an event counts, its actor being in a state. -/
  counts : ε → σ → Prop
  run : ι → ℕ
  seq_pos : ∀ e ∈ events, 0 < seq e
  seq_le_run : ∀ e ∈ events, seq e ≤ run (subject e)
  actorSeq_le_run : ∀ e ∈ events, actorSeq e ≤ run (actor e)

/-- What becomes of an event: its transition is not allowed, it is set down as cyclic, or it is
judged on its actor's state. -/
inductive Outcome (σ : Type*) where
  | barred
  | looped
  | judged (actor : σ)

/-- States of points, as far as they are known. -/
abbrev Known (ι σ : Type*) := ι → ℕ → Option σ

/-- The second assignment knows what the first does. -/
def Known.Le {ι σ : Type*} (K K' : Known ι σ) : Prop :=
  ∀ x s a, K x s = some a → K' x s = some a

lemma Known.Le.antisymm {ι σ : Type*} {K K' : Known ι σ} (h : K.Le K') (h' : K'.Le K) :
    K = K' := by
  funext x s
  exact Option.ext fun a => ⟨h x s a, h' x s a⟩

variable {ι κ σ ε : Type*} (rules : Rules κ σ) (L : Log ι κ σ ε)

namespace Log

/-- The event lies at a point. -/
def At (x : ι) (s : ℕ) (e : ε) : Prop := e ∈ L.events ∧ L.subject e = x ∧ L.seq e = s

/-- The state an event is judged on. -/
noncomputable def actorState (K : Known ι σ) (e : ε) : Option σ :=
  if rules.reads (L.kind e) then K (L.actor e) (L.actorSeq e) else some rules.start

/-- What becomes of an event, as far as `K` decides it; `cyc` are the events set down as cyclic. -/
noncomputable def outcome (cyc : Set ε) (K : Known ι σ) (e : ε) : Option (Outcome σ) :=
  match K (L.subject e) (L.seq e - 1) with
  | none => none
  | some before =>
    if rules.allows before (L.kind e) then
      if e ∈ cyc then some .looped else (L.actorState rules K e).map .judged
    else some .barred

/-- An event counts by an outcome. -/
def Counts (e : ε) (o : Outcome σ) : Prop := ∃ a, o = .judged a ∧ L.counts e a

/-- The kinds counted at a point. -/
def countedKinds (cyc : Set ε) (K : Known ι σ) (x : ι) (s : ℕ) : Set κ :=
  {k | ∃ e, L.At x s e ∧ L.kind e = k ∧ ∃ o, L.outcome rules cyc K e = some o ∧ L.Counts e o}

/-- Every event at a point has an outcome. -/
def Ready (cyc : Set ε) (K : Known ι σ) (x : ι) (s : ℕ) : Prop :=
  ∀ e, L.At x s e → (L.outcome rules cyc K e).isSome

/-- A state settles at a point once it has at the sequence before and all events at the point have
outcomes by states that settle. -/
inductive Settles (cyc : Set ε) : ι → ℕ → σ → Prop
  | zero (x : ι) : Settles cyc x 0 rules.start
  | succ (x : ι) (s : ℕ) (K : Known ι σ) (before : σ)
      (hK : ∀ y k a, K y k = some a → Settles cyc y k a) (hbefore : K x s = some before)
      (hrun : s < L.run x) (hready : L.Ready rules cyc K x (s + 1)) :
      Settles cyc x (s + 1) (rules.after before (L.countedKinds rules cyc K x (s + 1)))

/-- The states that settle. -/
noncomputable def known (cyc : Set ε) : Known ι σ := fun x s =>
  if h : ∃ a, L.Settles rules cyc x s a then some h.choose else none

variable {rules L} {cyc cyc' : Set ε} {K K' : Known ι σ} {x : ι} {s : ℕ} {a b : σ} {e f : ε}
  {o o' : Outcome σ}

/-! ## Outcomes -/

/-- An outcome by what is known is kept when more is known. -/
lemma outcome_mono (hle : K.Le K') (ho : L.outcome rules cyc K e = some o) :
    L.outcome rules cyc K' e = some o := by
  unfold outcome at ho ⊢
  split at ho
  · simp at ho
  · next before hbefore =>
    rw [hle _ _ _ hbefore]
    dsimp only
    split_ifs at ho ⊢
    · exact ho
    · obtain ⟨a, ha, rfl⟩ := Option.map_eq_some_iff.mp ho
      refine Option.map_eq_some_iff.mpr ⟨a, ?_, rfl⟩
      unfold actorState at ha ⊢
      split_ifs at ha ⊢
      · exact hle _ _ _ ha
      · exact ha
    · exact ho

lemma outcome_agree
    (hagree : ∀ y k a b, K y k = some a → K' y k = some b → a = b)
    (ho : L.outcome rules cyc K e = some o) (ho' : L.outcome rules cyc K' e = some o') :
    o = o' := by
  -- both are decided by what the two assignments know together
  let J : Known ι σ := fun y k => (K y k).orElse fun _ => K' y k
  have hK : K.Le J := fun y k a h => by simp [J, h]
  have hK' : K'.Le J := by
    intro y k b h
    rcases hk : K y k with _ | a
    · simp [J, hk, h]
    · simp [J, hk, hagree y k a b hk h]
  exact Option.some.inj ((outcome_mono hK ho).symm.trans (outcome_mono hK' ho'))

lemma outcome_congr_cyc (hcyc : e ∈ cyc ↔ e ∈ cyc') :
    L.outcome rules cyc K e = L.outcome rules cyc' K e := by
  simp only [outcome, hcyc]

/-- An event has no outcome while the state before it is unknown, or it is allowed, not set down as
cyclic, and reads a state that is unknown. -/
lemma outcome_eq_none_iff : L.outcome rules cyc K e = none ↔
    ∀ before, K (L.subject e) (L.seq e - 1) = some before →
      rules.allows before (L.kind e) ∧ e ∉ cyc ∧ rules.reads (L.kind e) ∧
        K (L.actor e) (L.actorSeq e) = none := by
  unfold outcome
  split
  · next h => simp [h]
  · next before h =>
    simp only [h, Option.some.injEq, forall_eq']
    by_cases hallow : rules.allows before (L.kind e)
    · by_cases hcyc : e ∈ cyc
      · simp [hallow, hcyc]
      · by_cases hreads : rules.reads (L.kind e) <;> simp [hallow, hcyc, hreads, actorState]
    · simp [hallow]

lemma outcome_eq_judged {before : σ} (hbefore : K (L.subject e) (L.seq e - 1) = some before)
    (hallows : rules.allows before (L.kind e)) (hcyc : e ∉ cyc) (hreads : rules.reads (L.kind e))
    (hactor : K (L.actor e) (L.actorSeq e) = some a) :
    L.outcome rules cyc K e = some (.judged a) := by
  simp [outcome, hbefore, hallows, hcyc, actorState, hreads, hactor]

lemma known_of_outcome_judged (ho : L.outcome rules cyc K e = some (.judged a))
    (hreads : rules.reads (L.kind e)) : K (L.actor e) (L.actorSeq e) = some a := by
  unfold outcome at ho
  split at ho
  · simp at ho
  · split_ifs at ho
    · simp at ho
    · simpa [actorState, hreads] using ho
    · simp at ho

lemma outcome_eq_looped {before : σ} (hbefore : K (L.subject e) (L.seq e - 1) = some before)
    (hallows : rules.allows before (L.kind e)) (hcyc : e ∈ cyc) :
    L.outcome rules cyc K e = some .looped := by
  simp [outcome, hbefore, hallows, hcyc]

lemma countedKinds_mono (hle : K.Le K') (hready : L.Ready rules cyc K x s) :
    L.countedKinds rules cyc K' x s = L.countedKinds rules cyc K x s := by
  ext k
  constructor
  · rintro ⟨e, he, hk, o, ho, hcounts⟩
    obtain ⟨o', ho'⟩ := Option.isSome_iff_exists.mp (hready e he)
    obtain rfl := Option.some.inj (ho.symm.trans (outcome_mono hle ho'))
    exact ⟨e, he, hk, o, ho', hcounts⟩
  · rintro ⟨e, he, hk, o, ho, hcounts⟩
    exact ⟨e, he, hk, o, outcome_mono hle ho, hcounts⟩

lemma Ready.mono (hle : K.Le K') (hready : L.Ready rules cyc K x s) :
    L.Ready rules cyc K' x s := by
  intro e he
  obtain ⟨o, ho⟩ := Option.isSome_iff_exists.mp (hready e he)
  rw [outcome_mono hle ho]
  rfl

/-! ## The states that settle -/

/-- **No point settles in two states.**

**Proof sketch.** By induction on how the first state settles: what it reads settles in one state
only, so a second way to settle decides every event at the point alike. -/
lemma Settles.unique (h : L.Settles rules cyc x s a) :
    ∀ {b}, L.Settles rules cyc x s b → a = b := by
  induction h with
  | zero x =>
    intro b h'
    cases h'
    rfl
  | succ x s K before hK hbefore hrun hready ih =>
    intro b h'
    cases h' with
    | succ _ _ K' before' hK' hbefore' _ hready' =>
      obtain rfl := ih x s before hbefore (hK' x s before' hbefore')
      have hagree : ∀ y k a b, K y k = some a → K' y k = some b → a = b :=
        fun y k a b ha hb => ih y k a ha (hK' y k b hb)
      congr 1
      ext k
      constructor
      · rintro ⟨e, he, hk, o, ho, hcounts⟩
        obtain ⟨o', ho'⟩ := Option.isSome_iff_exists.mp (hready' e he)
        obtain rfl := outcome_agree hagree ho ho'
        exact ⟨e, he, hk, o, ho', hcounts⟩
      · rintro ⟨e, he, hk, o', ho', hcounts⟩
        obtain ⟨o, ho⟩ := Option.isSome_iff_exists.mp (hready e he)
        obtain rfl := outcome_agree hagree ho ho'
        exact ⟨e, he, hk, o, ho, hcounts⟩

lemma known_eq_some_iff : L.known rules cyc x s = some a ↔ L.Settles rules cyc x s a := by
  unfold known
  split
  · next h =>
    rw [Option.some_inj]
    exact ⟨fun heq => heq ▸ h.choose_spec, fun h' => h.choose_spec.unique h'⟩
  · next h => simpa using fun h' => h ⟨a, h'⟩

@[simp] lemma known_zero : L.known rules cyc x 0 = some rules.start :=
  known_eq_some_iff.mpr (.zero x)

/-- **What is known is closed under the rules, and holds nothing else**: a state is known at a
sequence exactly when it is at the one before and every event there has its outcome. -/
lemma known_succ_iff : L.known rules cyc x (s + 1) = some a ↔
    s < L.run x ∧ L.Ready rules cyc (L.known rules cyc) x (s + 1) ∧
      ∃ before, L.known rules cyc x s = some before ∧
        a = rules.after before (L.countedKinds rules cyc (L.known rules cyc) x (s + 1)) := by
  constructor
  · intro h
    cases known_eq_some_iff.mp h with
    | succ _ _ K before hK hbefore hrun hready =>
      have hle : K.Le (L.known rules cyc) := fun y k a h => known_eq_some_iff.mpr (hK y k a h)
      exact ⟨hrun, hready.mono hle, before, hle _ _ _ hbefore,
        by rw [countedKinds_mono hle hready]⟩
  · rintro ⟨hrun, hready, before, hbefore, rfl⟩
    exact known_eq_some_iff.mpr
      (.succ x s _ before (fun _ _ _ h => known_eq_some_iff.mp h) hbefore hrun hready)

lemma le_run_of_known (h : L.known rules cyc x s = some a) : s ≤ L.run x := by
  cases s with
  | zero => exact Nat.zero_le _
  | succ s => exact (known_succ_iff.mp h).1

lemma isSome_known_of_le {t : ℕ} (hts : t ≤ s) (h : (L.known rules cyc x s).isSome) :
    (L.known rules cyc x t).isSome := by
  induction s with
  | zero =>
    obtain rfl := Nat.le_zero.mp hts
    exact h
  | succ s ih =>
    rcases Nat.le_succ_iff.mp hts with hts | rfl
    · obtain ⟨a, ha⟩ := Option.isSome_iff_exists.mp h
      obtain ⟨-, -, before, hbefore, -⟩ := known_succ_iff.mp ha
      exact ih hts (by simp [hbefore])
    · exact h

/-- **What is known is the least assignment closed under the rules.** -/
lemma known_le (hzero : ∀ x, K x 0 = some rules.start)
    (hsucc : ∀ x s before, s < L.run x → K x s = some before → L.Ready rules cyc K x (s + 1) →
      K x (s + 1) = some (rules.after before (L.countedKinds rules cyc K x (s + 1)))) :
    (L.known rules cyc).Le K := by
  intro x s a h
  replace h := known_eq_some_iff.mp h
  induction h with
  | zero x => exact hzero x
  | succ x s J before hJ hbefore hrun hready ih =>
    rw [hsucc x s before hrun (ih x s before hbefore) (hready.mono ih), countedKinds_mono ih hready]

/-- **Setting events down as cyclic that have no outcome loses nothing known.** -/
lemma known_le_known (hsub : cyc ⊆ cyc')
    (hnew : ∀ e ∈ cyc', e ∉ cyc → L.outcome rules cyc (L.known rules cyc) e = none) :
    (L.known rules cyc).Le (L.known rules cyc') := by
  intro x s a h
  replace h := known_eq_some_iff.mp h
  induction h with
  | zero x => exact known_zero
  | succ x s J before hJ hbefore hrun hready ih =>
    have hle : J.Le (L.known rules cyc) := fun y k a h => known_eq_some_iff.mpr (hJ y k a h)
    -- an event with an outcome is none of the new ones
    have hsame : ∀ e, L.At x (s + 1) e →
        L.outcome rules cyc J e = L.outcome rules cyc' J e := by
      intro e he
      refine outcome_congr_cyc ⟨fun h => hsub h, fun h' => by_contra fun hc => ?_⟩
      obtain ⟨o, ho⟩ := Option.isSome_iff_exists.mp (hready e he)
      have hsome := outcome_mono hle ho
      simp [hnew e h' hc] at hsome
    have hready' : L.Ready rules cyc' J x (s + 1) := fun e he => hsame e he ▸ hready e he
    have hkinds : L.countedKinds rules cyc J x (s + 1) = L.countedKinds rules cyc' J x (s + 1) := by
      ext k
      constructor <;> rintro ⟨e, he, hk, o, ho, hcounts⟩
      · exact ⟨e, he, hk, o, hsame e he ▸ ho, hcounts⟩
      · exact ⟨e, he, hk, o, (hsame e he).symm ▸ ho, hcounts⟩
    refine known_succ_iff.mpr ⟨hrun, hready'.mono ih, before, ih x s before hbefore, ?_⟩
    rw [countedKinds_mono ih hready', hkinds]

end Log

end MeePdn.Settling
