import Mathlib.Logic.Basic

/-!
# Computations on a state that may fail

An `EStateM ε σ α` reads and moves a state and ends in a result or in an error; the state it leaves
is there either way, as after a method that returns early. This file has the rules that take such
computations apart: what every outcome meets, and which states a computation can leave.

## Main definitions

* `Ensures` — what every outcome of a computation from a state meets.
* `final` — the state a computation leaves, whatever its outcome.
* `MovesBy` — a computation that moves the state along a relation, whatever its outcome.

## Main results

* `ensures_bind`, `ensures_tryCatch` — the outcomes of a composition are those of its parts.
* `MovesBy.bind` — a composition moves along a transitive relation its parts move along.
-/

namespace MeePdn.Effects

variable {ε σ α β : Type}

/-! ## Outcomes -/

/-- What every outcome of a computation from a state meets: a result with the state left by it, or
an error with the state left by it. -/
def Ensures (m : EStateM ε σ α) (s : σ) (ok : α → σ → Prop) (err : ε → σ → Prop) : Prop :=
  match m s with
  | .ok a s' => ok a s'
  | .error e s' => err e s'

section Outcomes

variable {m : EStateM ε σ α} {s : σ} {ok : α → σ → Prop} {err : ε → σ → Prop}

lemma Ensures.of_ok (h : Ensures m s ok err) {a : α} {s' : σ} (hm : m s = .ok a s') :
    ok a s' := by
  unfold Ensures at h
  rwa [hm] at h

lemma Ensures.of_error (h : Ensures m s ok err) {e : ε} {s' : σ} (hm : m s = .error e s') :
    err e s' := by
  unfold Ensures at h
  rwa [hm] at h

lemma Ensures.mono (h : Ensures m s ok err) {ok' : α → σ → Prop} {err' : ε → σ → Prop}
    (hok : ∀ a s', ok a s' → ok' a s') (herr : ∀ e s', err e s' → err' e s') :
    Ensures m s ok' err' := by grind [Ensures]

@[simp] lemma ensures_pure (a : α) : Ensures (pure a : EStateM ε σ α) s ok err ↔ ok a s := Iff.rfl

@[simp] lemma ensures_throw (e : ε) :
    Ensures (throw e : EStateM ε σ α) s ok err ↔ err e s := Iff.rfl

@[simp] lemma ensures_get {ok : σ → σ → Prop} :
    Ensures (get : EStateM ε σ σ) s ok err ↔ ok s s := Iff.rfl

@[simp] lemma ensures_set {ok : PUnit → σ → Prop} (s' : σ) :
    Ensures (set s' : EStateM ε σ PUnit) s ok err ↔ ok ⟨⟩ s' := Iff.rfl

@[simp] lemma ensures_modifyGet (f : σ → α × σ) :
    Ensures (modifyGet f : EStateM ε σ α) s ok err ↔ ok (f s).1 (f s).2 := Iff.rfl

/-- **The outcomes of a composition are those of its parts**: what follows a result starts in the
state the result left, and an error ends the whole. -/
@[simp] lemma ensures_bind {f : α → EStateM ε σ β} {ok : β → σ → Prop} :
    Ensures (m >>= f) s ok err ↔ Ensures m s (fun a s' => Ensures (f a) s' ok err) err := by
  have hbind : (m >>= f) s = EStateM.bind m f s := rfl
  unfold Ensures
  rw [hbind, EStateM.bind]
  cases m s <;> rfl

@[simp] lemma ensures_map {f : α → β} {ok : β → σ → Prop} :
    Ensures (f <$> m) s ok err ↔ Ensures m s (fun a s' => ok (f a) s') err := by
  have hmap : (f <$> m) s = EStateM.map f m s := rfl
  unfold Ensures
  rw [hmap, EStateM.map]
  cases m s <;> rfl

@[simp] lemma ensures_tryCatch {handle : ε → EStateM ε σ α} :
    Ensures (tryCatch m handle) s ok err ↔
      Ensures m s ok fun e s' => Ensures (handle e) s' ok err := by
  have htry : (tryCatch m handle : EStateM ε σ α) s = EStateM.tryCatch m handle s := rfl
  unfold Ensures
  rw [htry]
  delta EStateM.tryCatch
  cases m s <;> rfl

lemma ensures_ite {p : Prop} [Decidable p] {m' : EStateM ε σ α} :
    Ensures (if p then m else m') s ok err ↔
      (p → Ensures m s ok err) ∧ (¬ p → Ensures m' s ok err) := by
  by_cases h : p <;> simp [h]

end Outcomes

/-! ## The states left -/

/-- The state a computation leaves, whatever its outcome. -/
def final (m : EStateM ε σ α) (s : σ) : σ :=
  match m s with
  | .ok _ s' => s'
  | .error _ s' => s'

lemma final_bind_pure {m : EStateM ε σ α} {b : β} {s : σ} :
    final (m >>= fun _ => pure b) s = final m s := by
  have hbind : (m >>= fun _ => pure b) s = EStateM.bind m (fun _ => pure b) s := rfl
  unfold final
  rw [hbind, EStateM.bind]
  cases m s <;> rfl

/-- A computation that moves the state along a relation, whatever its outcome. -/
def MovesBy (R : σ → σ → Prop) (m : EStateM ε σ α) : Prop := ∀ s, R s (final m s)

section States

variable {R : σ → σ → Prop} {m : EStateM ε σ α}

lemma movesBy_iff : MovesBy R m ↔ ∀ s, Ensures m s (fun _ s' => R s s') fun _ s' => R s s' := by
  unfold MovesBy Ensures final
  refine forall_congr' fun s => ?_
  cases m s <;> rfl

lemma MovesBy.mono (h : MovesBy R m) {R' : σ → σ → Prop} (himp : ∀ s s', R s s' → R' s s') :
    MovesBy R' m :=
  fun s => himp _ _ (h s)

variable (htrans : ∀ s s' s'', R s s' → R s' s'' → R s s'')

include htrans

/-- **A composition moves along a transitive relation its parts move along.** -/
lemma MovesBy.bind {f : α → EStateM ε σ β} (hm : MovesBy R m) (hf : ∀ a, MovesBy R (f a)) :
    MovesBy R (m >>= f) := by
  refine movesBy_iff.mpr fun s => ?_
  rw [ensures_bind]
  apply (movesBy_iff.mp hm s).mono
  · intro a s' hs
    exact (movesBy_iff.mp (hf a) s').mono (fun _ _ => htrans _ _ _ hs) fun _ _ => htrans _ _ _ hs
  · exact fun _ _ => id

lemma MovesBy.tryCatch {handle : ε → EStateM ε σ α} (hm : MovesBy R m)
    (hhandle : ∀ e, MovesBy R (handle e)) : MovesBy R (tryCatch m handle) := by
  refine movesBy_iff.mpr fun s => ?_
  rw [ensures_tryCatch]
  apply (movesBy_iff.mp hm s).mono
  · exact fun _ _ => id
  · intro e s' hs
    exact (movesBy_iff.mp (hhandle e) s').mono (fun _ _ => htrans _ _ _ hs) fun _ _ =>
      htrans _ _ _ hs

end States

end MeePdn.Effects
