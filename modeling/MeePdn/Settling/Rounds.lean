import Mathlib.Data.Set.Card
import Mathlib.Data.Fintype.Order
import Mathlib.Order.WellFounded
import MeePdn.Settling.Basic

/-!
# Rounds of breaking loops

What the rules of `Log` leave unsettled waits: an event whose transition is allowed waits for its
actor's state, and that one for the events at the first unsettled sequence of the actor's chain.
Rounds of breaking set events down as cyclic until nothing waits: in the first `rounds` of them the
events on a loop of waits, after that every event that waits.

## Main definitions

* `Log.Waits`, `Log.Linked`, `Log.OnLoop` — waiting events, the waits between them, their loops.
* `Log.cycs`, `Log.cyclic` — the events set down as cyclic after so many rounds, and in the end.
* `Log.final`, `Log.result` — the state of every point and the outcome of every event in the end.
* `Log.HeldUp` — one chain is behind another when waiting events are set down past the rounds.
* `Log.DependsOn` — the dependencies an event's two points spell out, whatever is allowed.

## Main results

* `Log.exists_onLoop` — where events wait, some wait in a loop, so every round sets some down.
* `Log.known_cyclic` — in the end every point a run reaches is known, and every event decided.
* `Log.final_succ`, `Log.result_eq` — the final states and outcomes solve the rules.
* `Log.notMem_cyclic`, `Log.cyclic_eq_empty` — what does not depend on itself is not cyclic, short
  of a chain that is behind.
-/

namespace MeePdn.Settling

open Classical Relation

namespace Log

variable {ι κ σ ε : Type*} (rules : Rules κ σ) (L : Log ι κ σ ε)

/-- An event waits once the state before it is known and while it has no outcome. -/
def Waits (cyc : Set ε) (e : ε) : Prop :=
  e ∈ L.events ∧ (L.known rules cyc (L.subject e) (L.seq e - 1)).isSome ∧
    L.outcome rules cyc (L.known rules cyc) e = none

/-- A waiting event waits on those that wait in its actor's chain. -/
def Linked (cyc : Set ε) (e f : ε) : Prop :=
  L.Waits rules cyc e ∧ L.Waits rules cyc f ∧ L.subject f = L.actor e

/-- What the event waits on leads back to it. -/
def OnLoop (cyc : Set ε) (e : ε) : Prop := TransGen (L.Linked rules cyc) e e

/-- The events set down as cyclic after so many rounds. -/
def cycs (rounds : ℕ) : ℕ → Set ε
  | 0 => ∅
  | i + 1 =>
    cycs rounds i ∪
      {e | L.Waits rules (cycs rounds i) e ∧ (i < rounds → L.OnLoop rules (cycs rounds i) e)}

/-- The events set down as cyclic in the end. -/
def cyclic (rounds : ℕ) : Set ε := ⋃ i, L.cycs rules rounds i

/-- The state of a point in the end. -/
noncomputable def final (rounds : ℕ) (x : ι) (s : ℕ) : σ :=
  (L.known rules (L.cyclic rules rounds) x s).getD rules.start

/-- The outcome of an event in the end. -/
noncomputable def result (rounds : ℕ) (e : ε) : Outcome σ :=
  (L.outcome rules (L.cyclic rules rounds) (L.known rules (L.cyclic rules rounds)) e).getD .looped

/-- A step past the rounds, one that sets every waiting event down, finds one chain settled to a
point and another not. -/
def HeldUp (rounds : ℕ) (x : ι) (s : ℕ) (y : ι) (k : ℕ) : Prop :=
  ∃ i ≥ rounds, (L.known rules (L.cycs rules rounds i) x s).isSome ∧
    L.known rules (L.cycs rules rounds i) y k = none

/-- An event depends on every event before it in its chain and on every event of its actor's chain
up to the point it names. -/
def DependsOn (e f : ε) : Prop :=
  f ∈ L.events ∧ (L.subject f = L.subject e ∧ L.seq f < L.seq e ∨
    L.subject f = L.actor e ∧ L.seq f ≤ L.actorSeq e)

/-- No event depends on itself. -/
def Acyclic : Prop := ∀ e ∈ L.events, ¬ TransGen L.DependsOn e e

variable {rules L} {cyc : Set ε} {e f : ε} {x : ι} {s : ℕ}

/-! ## Waiting events -/

lemma waits_iff : L.Waits rules cyc e ↔ e ∈ L.events ∧
    ∃ before, L.known rules cyc (L.subject e) (L.seq e - 1) = some before ∧
      rules.allows before (L.kind e) ∧ e ∉ cyc ∧ rules.reads (L.kind e) ∧
        L.known rules cyc (L.actor e) (L.actorSeq e) = none := by
  simp only [Waits, outcome_eq_none_iff, Option.isSome_iff_exists]
  constructor
  · rintro ⟨he, ⟨before, hbefore⟩, hnone⟩
    exact ⟨he, before, hbefore, hnone before hbefore⟩
  · grind

lemma Waits.notMem (h : L.Waits rules cyc e) : e ∉ cyc := by
  obtain ⟨-, -, -, -, hcyc, -⟩ := waits_iff.mp h
  exact hcyc

lemma Waits.known_actor (h : L.Waits rules cyc e) :
    L.known rules cyc (L.actor e) (L.actorSeq e) = none := by
  obtain ⟨-, -, -, -, -, -, hnone⟩ := waits_iff.mp h
  exact hnone

lemma Waits.reads (h : L.Waits rules cyc e) : rules.reads (L.kind e) := by
  obtain ⟨-, -, -, -, -, hreads, -⟩ := waits_iff.mp h
  exact hreads

/-- The events of one chain that wait lie at one sequence, so a wait leads to a sequence up to the
point the waiting event names. -/
lemma Linked.seq_le (h : L.Linked rules cyc e f) : L.seq f ≤ L.actorSeq e := by
  obtain ⟨he, hf, hsub⟩ := h
  by_contra hlt
  have hle : L.actorSeq e ≤ L.seq f - 1 := by omega
  have := isSome_known_of_le hle hf.2.1
  rw [hsub, he.known_actor] at this
  simp at this

lemma Linked.dependsOn (h : L.Linked rules cyc e f) : L.DependsOn e f :=
  ⟨h.2.1.1, Or.inr ⟨h.2.2, h.seq_le⟩⟩

lemma exists_waits (hrun : s < L.run x) (hs : (L.known rules cyc x s).isSome)
    (hnone : L.known rules cyc x (s + 1) = none) :
    ∃ f, L.At x (s + 1) f ∧ L.Waits rules cyc f := by
  obtain ⟨before, hbefore⟩ := Option.isSome_iff_exists.mp hs
  by_contra hno
  push Not at hno
  have hready : L.Ready rules cyc (L.known rules cyc) x (s + 1) := by
    intro f hf
    by_contra hout
    refine hno f hf ⟨hf.1, ?_, by simpa using hout⟩
    rw [hf.2.1, hf.2.2]
    exact hs
  have := known_succ_iff.mpr ⟨hrun, hready, before, hbefore, rfl⟩
  simp [hnone] at this

lemma exists_waits_le (hrun : s ≤ L.run x) (hnone : L.known rules cyc x s = none) :
    ∃ f, L.subject f = x ∧ L.seq f ≤ s ∧ L.Waits rules cyc f := by
  induction s with
  | zero => simp at hnone
  | succ s ih =>
    by_cases hs : (L.known rules cyc x s).isSome
    · obtain ⟨f, hf, hwaits⟩ := exists_waits (by omega) hs hnone
      exact ⟨f, hf.2.1, hf.2.2.le, hwaits⟩
    · obtain ⟨f, hx, hle, hwaits⟩ := ih (by omega) (by simpa using hs)
      exact ⟨f, hx, by omega, hwaits⟩

lemma Waits.exists_linked (h : L.Waits rules cyc e) : ∃ f, L.Linked rules cyc e f := by
  obtain ⟨f, hx, -, hf⟩ := exists_waits_le (L.actorSeq_le_run e h.1) h.known_actor
  exact ⟨f, h, hf, hx⟩

/-- **Where events wait, some wait in a loop.**

**Proof sketch.** Every waiting event waits on another; with no loop the waits would be well
founded on the finitely many events, and the last of them would wait on none. -/
lemma exists_onLoop (h : L.Waits rules cyc e) : ∃ f, L.OnLoop rules cyc f := by
  by_contra hno
  push Not at hno
  have : Finite L.events := L.finite.to_subtype
  let r : L.events → L.events → Prop := fun f g => TransGen (L.Linked rules cyc) g f
  have : Std.Irrefl r := ⟨fun f hf => hno f hf⟩
  have : IsTrans L.events r := ⟨fun _ _ _ hab hbc => TransGen.trans hbc hab⟩
  have hwf : WellFounded r := Finite.wellFounded_of_trans_of_irrefl r
  obtain ⟨m, hm, hmin⟩ := hwf.has_min {f | L.Waits rules cyc f} ⟨⟨e, h.1⟩, h⟩
  obtain ⟨f, hf⟩ := Waits.exists_linked hm
  exact hmin ⟨f, hf.2.1.1⟩ hf.2.1 (TransGen.single hf)

lemma isSome_known (hno : ∀ e, ¬ L.Waits rules cyc e) (hrun : s ≤ L.run x) :
    (L.known rules cyc x s).isSome := by
  by_contra hnone
  obtain ⟨f, -, -, hf⟩ := exists_waits_le hrun (by simpa using hnone)
  exact hno f hf

/-! ## The rounds -/

variable {rounds i j : ℕ}

lemma cycs_succ_new (he : e ∈ L.cycs rules rounds (i + 1)) (hn : e ∉ L.cycs rules rounds i) :
    L.Waits rules (L.cycs rules rounds i) e :=
  (he.resolve_left hn).1

lemma cycs_mono (hij : i ≤ j) : L.cycs rules rounds i ⊆ L.cycs rules rounds j := by
  induction hij with
  | refl => exact subset_rfl
  | step _ ih => exact ih.trans Set.subset_union_left

lemma cycs_subset_events : L.cycs rules rounds i ⊆ L.events := by
  induction i with
  | zero => exact Set.empty_subset _
  | succ i ih => exact Set.union_subset ih fun e he => he.1.1

lemma known_cycs_le (hij : i ≤ j) :
    (L.known rules (L.cycs rules rounds i)).Le (L.known rules (L.cycs rules rounds j)) := by
  induction hij with
  | refl => exact fun _ _ _ h => h
  | @step j _ ih =>
    have hstep : (L.known rules (L.cycs rules rounds j)).Le
        (L.known rules (L.cycs rules rounds (j + 1))) :=
      known_le_known Set.subset_union_left fun e he hn => (cycs_succ_new he hn).2.2
    exact fun x s a h => hstep x s a (ih x s a h)

lemma outcome_cycs_succ {o : Outcome σ}
    (ho : L.outcome rules (L.cycs rules rounds i) (L.known rules (L.cycs rules rounds i)) e =
      some o) :
    L.outcome rules (L.cycs rules rounds (i + 1)) (L.known rules (L.cycs rules rounds (i + 1))) e =
      some o := by
  have hcyc : e ∈ L.cycs rules rounds i ↔ e ∈ L.cycs rules rounds (i + 1) := by
    refine ⟨fun h => Or.inl h, fun h => by_contra fun hn => ?_⟩
    simp [(cycs_succ_new h hn).2.2] at ho
  rw [← outcome_congr_cyc hcyc]
  exact outcome_mono (known_cycs_le (Nat.le_succ i)) ho

lemma exists_new_cycs (h : L.Waits rules (L.cycs rules rounds i) e) :
    ∃ f ∈ L.cycs rules rounds (i + 1), f ∉ L.cycs rules rounds i := by
  obtain ⟨f, hf⟩ := exists_onLoop h
  have hwaits : L.Waits rules (L.cycs rules rounds i) f := by
    obtain ⟨g, hg, -⟩ := TransGen.head'_iff.mp hf
    exact hg.1
  exact ⟨f, Or.inr ⟨hwaits, fun _ => hf⟩, hwaits.notMem⟩

variable (rules L rounds) in
/-- After finitely many rounds nothing waits. -/
lemma exists_no_waits : ∃ i, ∀ e, ¬ L.Waits rules (L.cycs rules rounds i) e := by
  by_contra hall
  push Not at hall
  have hfinite : ∀ i, (L.cycs rules rounds i).Finite := fun i =>
    L.finite.subset cycs_subset_events
  have hcard : ∀ i, i ≤ (L.cycs rules rounds i).ncard := by
    intro i
    induction i with
    | zero => exact Nat.zero_le _
    | succ i ih =>
      obtain ⟨e, he⟩ := hall i
      obtain ⟨f, hf, hn⟩ := exists_new_cycs he
      have hsub : L.cycs rules rounds i ⊂ L.cycs rules rounds (i + 1) :=
        ⟨cycs_mono (Nat.le_succ i), fun h => hn (h hf)⟩
      have hlt := Set.ncard_lt_ncard hsub (hfinite (i + 1))
      omega
  have hsub : L.cycs rules rounds (L.events.ncard + 1) ⊆ L.events := cycs_subset_events
  have hle := Set.ncard_le_ncard hsub L.finite
  have hmany := hcard (L.events.ncard + 1)
  omega

lemma not_waits_of_le (hno : ∀ e, ¬ L.Waits rules (L.cycs rules rounds i) e) (hij : i ≤ j) :
    ∀ e, ¬ L.Waits rules (L.cycs rules rounds j) e := by
  induction hij with
  | refl => exact hno
  | @step j _ ih =>
    have hsame : L.cycs rules rounds (j + 1) = L.cycs rules rounds j :=
      subset_antisymm (fun e he => by_contra fun hn => ih e (cycs_succ_new he hn))
        (cycs_mono (Nat.le_succ j))
    rw [hsame]
    exact ih

lemma cyclic_eq (hno : ∀ e, ¬ L.Waits rules (L.cycs rules rounds i) e) :
    L.cyclic rules rounds = L.cycs rules rounds i := by
  refine subset_antisymm (Set.iUnion_subset fun j => ?_) (Set.subset_iUnion _ i)
  induction j with
  | zero => exact Set.empty_subset _
  | succ j ih =>
    rcases le_total i j with hij | hij
    · exact fun e he => by_contra fun hn =>
        not_waits_of_le hno hij e (cycs_succ_new he fun h => hn (ih h))
    · rcases Nat.lt_or_eq_of_le hij with hlt | rfl
      · exact cycs_mono hlt
      · exact fun e he => by_contra fun hn => hno e (cycs_succ_new he hn)

lemma not_waits_cyclic (e : ε) : ¬ L.Waits rules (L.cyclic rules rounds) e := by
  obtain ⟨i, hi⟩ := exists_no_waits rules L rounds
  rw [cyclic_eq hi]
  exact hi e

lemma known_cycs_le_cyclic :
    (L.known rules (L.cycs rules rounds i)).Le (L.known rules (L.cyclic rules rounds)) := by
  obtain ⟨j, hj⟩ := exists_no_waits rules L rounds
  rw [cyclic_eq (not_waits_of_le hj (le_max_right i j))]
  exact known_cycs_le (le_max_left i j)

/-! ## The end -/

/-- **In the end every point a run reaches is known.** -/
lemma known_cyclic (hrun : s ≤ L.run x) :
    L.known rules (L.cyclic rules rounds) x s = some (L.final rules rounds x s) := by
  have hsome : (L.known rules (L.cyclic rules rounds) x s).isSome :=
    isSome_known not_waits_cyclic hrun
  obtain ⟨a, ha⟩ := Option.isSome_iff_exists.mp hsome
  simp [final, ha]

lemma outcome_cyclic (he : e ∈ L.events) :
    L.outcome rules (L.cyclic rules rounds) (L.known rules (L.cyclic rules rounds)) e =
      some (L.result rules rounds e) := by
  have hbefore : (L.known rules (L.cyclic rules rounds) (L.subject e) (L.seq e - 1)).isSome := by
    rw [known_cyclic (by have := L.seq_le_run e he; omega)]
    rfl
  have hsome : L.outcome rules (L.cyclic rules rounds) (L.known rules (L.cyclic rules rounds)) e ≠
      none := fun hnone => not_waits_cyclic e ⟨he, hbefore, hnone⟩
  obtain ⟨o, ho⟩ := Option.ne_none_iff_exists'.mp hsome
  simp [result, ho]

@[simp] lemma final_zero : L.final rules rounds x 0 = rules.start := by simp [final]

/-- **The state after a sequence** is made of the one before and the kinds that count there. -/
lemma final_succ (hrun : s < L.run x) :
    L.final rules rounds x (s + 1) = rules.after (L.final rules rounds x s)
      {k | ∃ e, L.At x (s + 1) e ∧ L.kind e = k ∧ L.Counts e (L.result rules rounds e)} := by
  have hknown : L.known rules (L.cyclic rules rounds) x (s + 1) = _ := known_cyclic hrun
  obtain ⟨-, -, before, hbefore, hafter⟩ := known_succ_iff.mp hknown
  rw [known_cyclic hrun.le] at hbefore
  rw [hafter, ← Option.some.inj hbefore]
  congr 1
  ext k
  constructor
  · rintro ⟨e, he, hk, o, ho, hcounts⟩
    rw [outcome_cyclic he.1] at ho
    exact ⟨e, he, hk, Option.some.inj ho ▸ hcounts⟩
  · rintro ⟨e, he, hk, hcounts⟩
    exact ⟨e, he, hk, _, outcome_cyclic he.1, hcounts⟩

/-- **The outcome of every event**, by the final states alone and the events set down. -/
lemma result_eq (he : e ∈ L.events) : L.result rules rounds e =
    if rules.allows (L.final rules rounds (L.subject e) (L.seq e - 1)) (L.kind e) then
      if e ∈ L.cyclic rules rounds then .looped
      else .judged (if rules.reads (L.kind e) then
        L.final rules rounds (L.actor e) (L.actorSeq e) else rules.start)
    else .barred := by
  have ho : L.outcome rules (L.cyclic rules rounds) _ e = _ := outcome_cyclic he
  have hseq := L.seq_le_run e he
  unfold outcome at ho
  rw [known_cyclic (show L.seq e - 1 ≤ L.run (L.subject e) by omega)] at ho
  dsimp only at ho
  refine (Option.some.inj ?_).symm
  rw [← ho]
  split_ifs
  · rfl
  · next hreads => simp [actorState, hreads, known_cyclic (L.actorSeq_le_run e he)]
  · next hreads => simp [actorState, hreads]
  · rfl

lemma result_of_mem_cyclic (he : e ∈ L.cyclic rules rounds) :
    L.result rules rounds e = .looped := by
  obtain ⟨i, hi⟩ := Set.mem_iUnion.mp he
  have hevent : e ∈ L.events := cycs_subset_events hi
  rw [result_eq hevent, if_pos ?_, if_pos he]
  induction i with
  | zero => exact hi.elim
  | succ i ih =>
    by_cases hold : e ∈ L.cycs rules rounds i
    · exact ih hold
    · obtain ⟨-, before, hbefore, hallows, -⟩ := waits_iff.mp (cycs_succ_new hi hold)
      have := known_cycs_le_cyclic _ _ _ hbefore
      simpa [final, this] using hallows

/-- **An event is not cyclic** when it does not depend on itself and no step past the rounds finds
its actor's chain behind. -/
lemma notMem_cyclic (hself : ¬ TransGen L.DependsOn e e)
    (hheld : ¬ L.HeldUp rules rounds (L.subject e) (L.seq e - 1) (L.actor e) (L.actorSeq e)) :
    e ∉ L.cyclic rules rounds := by
  intro he
  obtain ⟨i, hi⟩ := Set.mem_iUnion.mp he
  induction i with
  | zero => exact hi.elim
  | succ i ih =>
    rcases hi with hold | ⟨hwaits, hloop⟩
    · exact ih hold
    · by_cases hround : i < rounds
      · exact hself (TransGen.mono (fun _ _ h => Linked.dependsOn h) _ _ (hloop hround))
      · exact hheld ⟨i, not_lt.mp hround, hwaits.2.1, hwaits.known_actor⟩

lemma HeldUp.exists_cyclic {y : ι} {k : ℕ} (h : L.HeldUp rules rounds x s y k)
    (hrun : k ≤ L.run y) : ∃ f ∈ L.cyclic rules rounds, f ∈ L.events ∧ L.subject f = y := by
  obtain ⟨i, hround, -, hnone⟩ := h
  obtain ⟨f, hsubject, -, hf⟩ := exists_waits_le hrun hnone
  exact ⟨f, Set.mem_iUnion.mpr ⟨i + 1, Or.inr ⟨hf, fun hlt => absurd hlt (not_lt.mpr hround)⟩⟩,
    hf.1, hsubject⟩

/-- **No event is cyclic when none depends on itself.** -/
lemma cyclic_eq_empty (hacyclic : L.Acyclic) : L.cyclic rules rounds = ∅ := by
  have hno : ∀ e, ¬ L.Waits rules (L.cycs rules rounds 0) e := by
    intro e he
    obtain ⟨f, hf⟩ := exists_onLoop he
    obtain ⟨g, hg, -⟩ := TransGen.head'_iff.mp hf
    exact hacyclic f hg.1.1 (TransGen.mono (fun _ _ h => Linked.dependsOn h) _ _ hf)
  exact cyclic_eq hno

end Log

end MeePdn.Settling
