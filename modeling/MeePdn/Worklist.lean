import Mathlib

/-!
# Worklists

A loop that pops an item off a stack until none is left. An item is skipped, or visited: a visit
changes the state and pushes further items.

## Main definitions

* `Worklist.run` — the loop, for as many turns as it is given.
* `Worklist.search` — everything reached from a list of items, each visited once.

## Main results

* `Worklist.isSome_run` — the loop ends, where a potential pays for every item pushed.
* `Worklist.run_invariant` — what every turn keeps holds at the end, with nothing left to do.
* `Worklist.mem_search` — a search finds exactly what is reached.
-/

namespace MeePdn.Worklist

open Relation

variable {σ ι : Type*}

/-- The loop: the last item pushed is the first popped. It gives nothing when turns run out. -/
def run (visit : σ → ι → Option (σ × List ι)) : ℕ → σ → List ι → Option σ
  | _, state, [] => some state
  | 0, _, _ :: _ => none
  | turns + 1, state, item :: rest =>
    match visit state item with
    | none => run visit turns state rest
    | some (next, pushed) => run visit turns next (pushed.reverse ++ rest)

section Run

variable {visit : σ → ι → Option (σ × List ι)}

/-- **The loop ends** where each visit takes off a potential at least as much as it pushes. -/
lemma isSome_run (potential : σ → ℕ)
    (hpays : ∀ state item next pushed, visit state item = some (next, pushed) →
      potential next + pushed.length ≤ potential state) :
    ∀ turns state work, potential state + work.length ≤ turns →
      (run visit turns state work).isSome = true := by
  intro turns
  induction turns with
  | zero =>
    intro state work hturns
    obtain rfl : work = [] := List.eq_nil_of_length_eq_zero (by omega)
    rfl
  | succ turns ih =>
    intro state work hturns
    cases work with
    | nil => rfl
    | cons item rest => grind [run]

/-- **What every turn keeps** holds at the end, with nothing left to do. -/
lemma run_invariant {motive : σ → List ι → Prop}
    (hskip : ∀ state item rest, motive state (item :: rest) → visit state item = none →
      motive state rest)
    (hvisit : ∀ state item rest next pushed, motive state (item :: rest) →
      visit state item = some (next, pushed) → motive next (pushed.reverse ++ rest)) :
    ∀ turns state work result, motive state work → run visit turns state work = some result →
      motive result [] := by
  intro turns
  induction turns with
  | zero =>
    intro state work result hmotive hrun
    cases work with
    | nil =>
      obtain rfl := Option.some.inj hrun
      exact hmotive
    | cons item rest => cases hrun
  | succ turns ih =>
    intro state work result hmotive hrun
    cases work with
    | nil =>
      obtain rfl := Option.some.inj hrun
      exact hmotive
    | cons item rest => grind [run]

end Run

/-! ## Searches -/

section Search

variable [DecidableEq ι] (all : List ι) (next : ι → List ι)

/-- An item seen before is skipped; another one is seen, and what follows it is pushed. -/
def see (seen : List ι) (item : ι) : Option (List ι × List ι) :=
  if item ∈ seen then none else some (item :: seen, next item)

/-- How much the items not yet seen may push. -/
def unseen (seen : List ι) : ℕ :=
  ((all.filter fun item => item ∉ seen).map fun item => (next item).length).sum

variable {all next} in
lemma unseen_cons_le {seen : List ι} {item : ι} (hnew : item ∉ seen) :
    unseen all next (item :: seen) ≤ unseen all next seen ∧
      (item ∈ all →
        unseen all next (item :: seen) + (next item).length ≤ unseen all next seen) := by
  unfold unseen
  induction all with
  | nil => exact ⟨Nat.le_refl _, fun h => absurd h List.not_mem_nil⟩
  | cons other rest ih => grind

variable {all next} (hall : ∀ item ∉ all, next item = [])
include hall

lemma isSome_search (roots : List ι) :
    (run (see next) (unseen all next [] + roots.reverse.length) [] roots.reverse).isSome =
      true := by
  refine isSome_run (unseen all next) ?_ _ _ _ (Nat.le_refl _)
  intro seen item after pushed hsee
  rw [see] at hsee
  split at hsee
  · cases hsee
  · next hnew =>
    obtain ⟨rfl, rfl⟩ := Prod.mk.inj (Option.some.inj hsee)
    by_cases hitem : item ∈ all
    · exact (unseen_cons_le hnew).2 hitem
    · rw [hall item hitem]
      exact (unseen_cons_le hnew).1

omit hall in
variable (all next) in
/-- Every item reached from the roots, nothing following the items that are not among `all`. -/
def search (hall : ∀ item ∉ all, next item = []) (roots : List ι) : List ι :=
  (run (see next) (unseen all next [] + roots.reverse.length) [] roots.reverse).get
    (isSome_search hall roots)

omit hall in
/-- What a search has seen and what it has yet to look at: all of it is reached, the roots are
there, and so is what follows the items seen. -/
structure Searching (next : ι → List ι) (roots : List ι) (seen work : List ι) : Prop where
  sound : ∀ item, item ∈ seen ∨ item ∈ work →
    ∃ root ∈ roots, ReflTransGen (fun a b => b ∈ next a) root item
  roots : ∀ root ∈ roots, root ∈ seen ∨ root ∈ work
  closed : ∀ item ∈ seen, ∀ other ∈ next item, other ∈ seen ∨ other ∈ work

omit hall in
/-- A search keeps this until nothing is left. -/
lemma Searching.run {roots : List ι} {turns : ℕ} {result : List ι}
    (h : Worklist.run (see next) turns [] roots.reverse = some result) :
    Searching next roots result [] := by
  refine run_invariant (motive := Searching next roots) ?_ ?_ turns [] roots.reverse result ?_ h
  · intro seen item rest hsearch hsee
    have hseen : item ∈ seen := by
      by_contra hnew
      simp [see, hnew] at hsee
    have hdrop : ∀ other, other ∈ seen ∨ other ∈ item :: rest → other ∈ seen ∨ other ∈ rest := by
      grind
    exact
      { sound := fun other hother =>
          hsearch.sound other (hother.imp_right (List.mem_cons_of_mem item))
        roots := fun root hroot => hdrop root (hsearch.roots root hroot)
        closed := fun a ha b hb => hdrop b (hsearch.closed a ha b hb) }
  · intro seen item rest after pushed hsearch hsee
    rw [see] at hsee
    split at hsee
    · cases hsee
    obtain ⟨rfl, rfl⟩ := Prod.mk.inj (Option.some.inj hsee)
    have hkeep : ∀ other, other ∈ seen ∨ other ∈ item :: rest →
        other ∈ item :: seen ∨ other ∈ (next item).reverse ++ rest := by grind
    refine ⟨?_, fun root hroot => hkeep root (hsearch.roots root hroot), ?_⟩
    · grind [hsearch.sound]
    · grind [hsearch.closed]
  · exact
      { sound := fun item hitem => ⟨item, by simpa using hitem, .refl⟩
        roots := fun root hroot => Or.inr (List.mem_reverse.mpr hroot)
        closed := fun a ha => absurd ha List.not_mem_nil }

/-- **A search finds exactly what is reached.** -/
lemma mem_search {roots : List ι} {item : ι} : item ∈ search all next hall roots ↔
    ∃ root ∈ roots, ReflTransGen (fun a b => b ∈ next a) root item := by
  have hsearch : Searching next roots (search all next hall roots) [] :=
    Searching.run (Option.some_get _).symm
  constructor
  · exact fun h => hsearch.sound item (Or.inl h)
  · rintro ⟨root, hroot, hpath⟩
    induction hpath with
    | refl => exact (hsearch.roots root hroot).resolve_right List.not_mem_nil
    | tail _ hnext ih => exact (hsearch.closed _ ih _ hnext).resolve_right List.not_mem_nil

end Search

end MeePdn.Worklist
