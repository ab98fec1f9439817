import Mathlib.Control.Monad.Basic
import Mathlib.Data.List.Forall2
import Mathlib.Data.Nat.Basic

/-!
# Programs that ask a world that moves

A program asks one question after the other and goes on with the answers. The world it asks moves
while it runs: each question is answered by the world as it stands at some moment not before the one
of the question before it, or meets an error.

## Main definitions

* `Prog` — a program: it ends, gives up, or asks and goes on with the answer or the error.
* `query`, `Prog.attempt` — a question whose error is passed on, and a program whose failure is
  caught.
* `Runs` — what a program can end with, and when, over a history of worlds.
* `Prog.eval` — what a program ends with where the world stands still.
* `Prog.exec` — a run whose moments are given.

## Main results

* `runs_bind`, `runs_attempt`, `runs_mapM` — the runs of composed programs.
* `Runs.of_exec`, `Runs.exists_of_exec` — a program that executes runs.
-/

namespace MeePdn.Asking

/-- A program that asks questions: it ends, gives up, or asks and goes on. -/
inductive Prog {Question : Type} (Answer : Question → Type) (α : Type) where
  | done (a : α)
  | fail
  /-- `none` is an error in place of the answer. -/
  | ask (q : Question) (next : Option (Answer q) → Prog Answer α)

variable {Question : Type} {Answer : Question → Type} {α β : Type}

namespace Prog

/-- One program after the other. -/
def bind : Prog Answer α → (α → Prog Answer β) → Prog Answer β
  | done a, f => f a
  | fail, _ => fail
  | ask q next, f => ask q fun answer => (next answer).bind f

instance : Monad (Prog Answer) where
  pure := done
  bind := bind

lemma bind_done (p : Prog Answer α) : p.bind done = p := by
  induction p with
  | done a => rfl
  | fail => rfl
  | ask q next ih => exact congrArg (ask q) (funext ih)

lemma bind_bind {γ : Type} (p : Prog Answer α) (f : α → Prog Answer β)
    (g : β → Prog Answer γ) : (p.bind f).bind g = p.bind fun a => (f a).bind g := by
  induction p with
  | done a => rfl
  | fail => rfl
  | ask q next ih => exact congrArg (ask q) (funext ih)

instance : LawfulMonad (Prog Answer) :=
  LawfulMonad.mk' _ bind_done (fun _ _ => rfl) bind_bind

/-- A program whose failure is caught. -/
def attempt : Prog Answer α → Prog Answer (Option α)
  | done a => done (some a)
  | fail => done none
  | ask q next => ask q fun answer => (next answer).attempt

/-- What a program ends with where the world stands still and answers every question. -/
def eval (answer : (q : Question) → Answer q) : Prog Answer α → Option α
  | done a => some a
  | fail => none
  | ask q next => (next (some (answer q))).eval answer

end Prog

/-- A question whose error is passed on. -/
def query (q : Question) : Prog Answer (Answer q) :=
  .ask q fun
    | some a => .done a
    | none => .fail

/-! ## Worlds that stand still -/

section Eval

variable {answer : (q : Question) → Answer q}

@[simp] lemma eval_pure (a : α) : (pure a : Prog Answer α).eval answer = some a := rfl

@[simp] lemma eval_bind (p : Prog Answer α) (f : α → Prog Answer β) :
    (p >>= f).eval answer = (p.eval answer).bind fun a => (f a).eval answer := by
  induction p with
  | done a => rfl
  | fail => rfl
  | ask q next ih => exact ih _

@[simp] lemma eval_map (f : α → β) (p : Prog Answer α) :
    (f <$> p).eval answer = (p.eval answer).map f := by
  rw [← bind_pure_comp, eval_bind]
  cases p.eval answer <;> rfl

@[simp] lemma eval_attempt (p : Prog Answer α) :
    p.attempt.eval answer = some (p.eval answer) := by
  induction p with
  | done a => rfl
  | fail => rfl
  | ask q next ih => exact ih _

lemma eval_mapM {f : α → Prog Answer β} {g : α → β} (l : List α)
    (h : ∀ a ∈ l, (f a).eval answer = some (g a)) : (l.mapM f).eval answer = some (l.map g) := by
  induction l with
  | nil => rfl
  | cons a l ih =>
    rw [List.mapM_cons, eval_bind, h a (by simp)]
    simp only [Option.bind_some, eval_bind, ih fun b hb => h b (by simp [hb])]
    rfl

end Eval

/-! ## Worlds that move -/

variable {ω : Type}

/-- What a program that starts at a moment can end with, and when: a question is answered, or meets
an error, at some moment from there on. -/
inductive Runs (answer : ω → (q : Question) → Answer q) (world : ℕ → ω) :
    Prog Answer α → ℕ → Option α → ℕ → Prop where
  | done (a : α) (t : ℕ) : Runs answer world (.done a) t (some a) t
  | fail (t : ℕ) : Runs answer world .fail t none t
  | answered {q : Question} {next : Option (Answer q) → Prog Answer α} {t s t' : ℕ}
      {result : Option α} (h : t ≤ s)
      (rest : Runs answer world (next (some (answer (world s) q))) s result t') :
      Runs answer world (.ask q next) t result t'
  | err {q : Question} {next : Option (Answer q) → Prog Answer α} {t s t' : ℕ}
      {result : Option α} (h : t ≤ s) (rest : Runs answer world (next none) s result t') :
      Runs answer world (.ask q next) t result t'

section Runs

variable {answer : ω → (q : Question) → Answer q} {world : ℕ → ω} {t t' : ℕ}

lemma Runs.le {p : Prog Answer α} {result : Option α} (h : Runs answer world p t result t') :
    t ≤ t' := by
  induction h with
  | done a t => exact le_rfl
  | fail t => exact le_rfl
  | answered h _ ih => exact le_trans h ih
  | err h _ ih => exact le_trans h ih

@[simp] lemma runs_pure {a : α} {result : Option α} :
    Runs answer world (pure a : Prog Answer α) t result t' ↔ result = some a ∧ t' = t := by
  constructor
  · intro h
    cases h
    exact ⟨rfl, rfl⟩
  · rintro ⟨rfl, rfl⟩
    exact .done a t'

/-- **The runs of one program after the other.** -/
lemma runs_bind {p : Prog Answer α} {f : α → Prog Answer β} {b : β} :
    Runs answer world (p >>= f) t (some b) t' ↔
      ∃ a s, Runs answer world p t (some a) s ∧ Runs answer world (f a) s (some b) t' := by
  constructor
  · intro h
    induction p generalizing t with
    | done a => exact ⟨a, t, .done a t, h⟩
    | fail => cases h
    | ask q next ih =>
      cases h with
      | answered hle rest =>
        obtain ⟨a, s, hp, hf⟩ := ih _ rest
        exact ⟨a, s, .answered hle hp, hf⟩
      | err hle rest =>
        obtain ⟨a, s, hp, hf⟩ := ih _ rest
        exact ⟨a, s, .err hle hp, hf⟩
  · rintro ⟨a, s, hp, hf⟩
    induction p generalizing t with
    | done a' =>
      cases hp
      exact hf
    | fail => cases hp
    | ask q next ih =>
      cases hp with
      | answered hle rest => exact .answered hle (ih _ rest)
      | err hle rest => exact .err hle (ih _ rest)

lemma runs_query {q : Question} {a : Answer q} (h : Runs answer world (query q) t (some a) t') :
    t ≤ t' ∧ a = answer (world t') q := by
  cases h with
  | answered hle rest =>
    cases rest
    exact ⟨hle, rfl⟩
  | err hle rest => cases rest

/-- The runs of a program whose failure is caught. -/
lemma runs_attempt {p : Prog Answer α} {result : Option (Option α)} :
    Runs answer world p.attempt t result t' ↔
      ∃ caught, result = some caught ∧ Runs answer world p t caught t' := by
  constructor
  · intro h
    induction p generalizing t with
    | done a =>
      cases h
      exact ⟨_, rfl, .done a _⟩
    | fail =>
      cases h
      exact ⟨_, rfl, .fail _⟩
    | ask q next ih =>
      cases h with
      | answered hle rest =>
        obtain ⟨caught, hresult, hrun⟩ := ih _ rest
        exact ⟨caught, hresult, .answered hle hrun⟩
      | err hle rest =>
        obtain ⟨caught, hresult, hrun⟩ := ih _ rest
        exact ⟨caught, hresult, .err hle hrun⟩
  · rintro ⟨caught, rfl, h⟩
    induction h with
    | done a t => exact .done (some a) t
    | fail t => exact .done none t
    | answered hle _ ih => exact .answered hle ih
    | err hle _ ih => exact .err hle ih

/-- **A list worked through one by one**: each member has a run of its own, one after the other. -/
lemma runs_mapM {f : α → Prog Answer β} {l : List α} {bs : List β}
    (h : Runs answer world (l.mapM f) t (some bs) t') :
    List.Forall₂ (fun a b => ∃ s s', t ≤ s ∧ s' ≤ t' ∧ Runs answer world (f a) s (some b) s')
      l bs := by
  induction l generalizing t bs with
  | nil =>
    cases h
    exact .nil
  | cons a l ih =>
    rw [List.mapM_cons] at h
    obtain ⟨b, s, hb, hrest⟩ := runs_bind.mp h
    obtain ⟨more, s', hmore, hend⟩ := runs_bind.mp hrest
    obtain ⟨heq, rfl⟩ := runs_pure.mp hend
    cases heq
    refine .cons ⟨t, s, le_rfl, hmore.le, hb⟩ ((ih hmore).imp ?_)
    rintro a b ⟨r, r', hr, hr', hrun⟩
    exact ⟨r, r', le_trans hb.le hr, hr', hrun⟩

end Runs

/-! ## Runs whose moments are given -/

/-- A run in which each question is answered at the moment given for it; `none` where moments are
lacking or out of order. -/
def Prog.exec (answer : ω → (q : Question) → Answer q) (world : ℕ → ω) :
    Prog Answer α → ℕ → List ℕ → Option (Option α × ℕ)
  | .done a, t, _ => some (some a, t)
  | .fail, t, _ => some (none, t)
  | .ask _ _, _, [] => none
  | .ask q next, t, s :: rest =>
    if t ≤ s then (next (some (answer (world s) q))).exec answer world s rest else none

/-- A program that executes runs. -/
lemma Runs.of_exec {answer : ω → (q : Question) → Answer q} {world : ℕ → ω} {p : Prog Answer α}
    {t t' : ℕ} {moments : List ℕ} {result : Option α}
    (h : p.exec answer world t moments = some (result, t')) : Runs answer world p t result t' := by
  induction p generalizing t moments with
  | done a =>
    cases h
    exact .done a _
  | fail =>
    cases h
    exact .fail _
  | ask q next ih =>
    cases moments with
    | nil => cases h
    | cons s rest =>
      unfold Prog.exec at h
      split_ifs at h with hle
      exact .answered hle (ih _ h)

lemma Runs.exists_of_exec {answer : ω → (q : Question) → Answer q} {world : ℕ → ω}
    {p : Prog Answer α} {t t' : ℕ} {moments : List ℕ} {well : α → Bool}
    (h : (p.exec answer world t moments).any
      (fun result => result.1.any well && decide (result.2 = t')) = true) :
    ∃ a, well a = true ∧ Runs answer world p t (some a) t' := by
  obtain ⟨⟨result, stop⟩, hexec, hwell⟩ := (Option.any_eq_true _ _).mp h
  simp only [Bool.and_eq_true, decide_eq_true_eq] at hwell
  obtain ⟨hwell, rfl⟩ := hwell
  obtain ⟨a, rfl, ha⟩ := (Option.any_eq_true _ _).mp hwell
  exact ⟨a, ha, Runs.of_exec hexec⟩

end MeePdn.Asking
