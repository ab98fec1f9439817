import Mathlib

/-!
# Ranges that wrap around

In a linear order closed into a circle, the range from `x` up to `y` holds `x` and not `y`, and goes
around the end when `y` lies before `x`. The range from a point up to itself is the whole circle.
Cutting a range at one of its points leaves two ranges that share nothing and lose nothing.

## Main definitions

* `Within` — the range from one point up to another.
* `ahead` — how many rows of a sorted list lie before a point.

## Main results

* `within_split`, `not_within_both` — a range cut at a point of it.
* `within_swap` — the circle cut at two points.
* `within_of_first` — the first row from a point on lies in the range up to any other row.
-/

namespace MeePdn.Wrapping

universe u v

variable {κ : Type v} [LinearOrder κ]

/-- The range from `x` up to `y`. -/
def Within (x y t : κ) : Prop :=
  if x = y then True else if x < y then x ≤ t ∧ t < y else x ≤ t ∨ t < y

instance (x y t : κ) : Decidable (Within x y t) := by
  unfold Within; infer_instance

variable {x y m t : κ}

@[simp] lemma within_self : Within x x t := by simp [Within]

lemma within_of_lt (h : x < y) : Within x y t ↔ x ≤ t ∧ t < y := by
  rw [Within, if_neg h.ne, if_pos h]

lemma within_of_gt (h : y < x) : Within x y t ↔ x ≤ t ∨ t < y := by
  rw [Within, if_neg h.ne', if_neg h.not_gt]

lemma within_left : Within x y x := by
  rcases lt_trichotomy x y with h | rfl | h
  · exact (within_of_lt h).mpr ⟨le_refl x, h⟩
  · exact within_self
  · exact (within_of_gt h).mpr (.inl (le_refl x))

lemma not_within_right (h : x ≠ y) : ¬ Within x y y := by
  rcases lt_or_gt_of_ne h with h | h
  · simp [within_of_lt h]
  · simp [within_of_gt h, h]

/-- **A range cut at a point of it** is the two parts together. -/
lemma within_split (hxy : x ≠ y) (hm : Within x y m) (hmx : m ≠ x) :
    Within x y t ↔ Within x m t ∨ Within m y t := by
  have hmy : m ≠ y := fun h => not_within_right hxy (h ▸ hm)
  unfold Within at *
  grind

lemma not_within_both (hxy : x ≠ y) (hm : Within x y m) (hmx : m ≠ x) (h : Within x m t) :
    ¬ Within m y t := by
  have hmy : m ≠ y := fun h => not_within_right hxy (h ▸ hm)
  unfold Within at *
  grind

/-- **The circle cut at two points.** -/
lemma within_swap (h : x ≠ y) : Within y x t ↔ ¬ Within x y t := by
  unfold Within
  grind

/-! ## The first row from a point on -/

section Rows

variable {α : Type u} (key : α → κ)

/-- How many rows of a list sorted by key lie before a point. -/
def ahead (x : κ) (rows : List α) : ℕ := (rows.takeWhile fun a => key a < x).length

variable {key} {rows : List α} (hsorted : rows.Pairwise fun a b => key a < key b)

include hsorted

/-- A row before a point stands among those counted. -/
lemma key_lt_iff_lt_ahead {i : ℕ} {a : α} (ha : rows[i]? = some a) :
    key a < x ↔ i < ahead key x rows := by
  induction rows generalizing i with
  | nil => simp at ha
  | cons b l ih =>
    obtain ⟨hb, hl⟩ := List.pairwise_cons.mp hsorted
    unfold ahead
    by_cases hbx : key b < x
    · rw [List.takeWhile_cons_of_pos (by simpa using hbx), List.length_cons]
      cases i with
      | zero =>
        cases (Option.some.inj ha : b = a)
        simpa using hbx
      | succ i =>
        have := ih hl ha
        simpa [ahead] using this
    · rw [List.takeWhile_cons_of_neg (by simpa using hbx)]
      have hba : key b ≤ key a := by grind
      simpa using (not_lt.mp hbx).trans hba

/-- **The first row from a point on lies in the range from the point up to any other row**, and no
other row is at the point.

**Proof sketch.** Counting the rows before the point, the first row from it on is the next one, or
the very first when the count is all of them. Every other row is after it or before the point. -/
lemma within_of_first {a c : α} (ha : a ∈ rows)
    (hc : rows[ahead key x rows % rows.length]? = some c) (hne : a ≠ c) :
    Within x (key a) (key c) ∧ key a ≠ x := by
  obtain ⟨i, hi⟩ := List.mem_iff_getElem?.mp ha
  have hlen : ahead key x rows ≤ rows.length := (List.takeWhile_prefix _).length_le
  have hil : i < rows.length := (List.getElem?_eq_some_iff.mp hi).1
  have hia := key_lt_iff_lt_ahead hsorted (x := x) hi
  have hca := key_lt_iff_lt_ahead hsorted (x := x) hc
  have hij : i ≠ ahead key x rows % rows.length := by
    intro h
    exact hne (Option.some.inj (hi.symm.trans (h ▸ hc)))
  have hmono : ∀ {j k : ℕ} {b d : α}, rows[j]? = some b → rows[k]? = some d → j < k →
      key b < key d := by
    intro j k b d hb hd hjk
    obtain ⟨hj, rfl⟩ := List.getElem?_eq_some_iff.mp hb
    obtain ⟨hk, rfl⟩ := List.getElem?_eq_some_iff.mp hd
    exact List.pairwise_iff_getElem.mp hsorted j k hj hk hjk
  rcases hlen.lt_or_eq with hlt | heq
  · -- some row is at the point or after it: the first such row
    rw [Nat.mod_eq_of_lt hlt] at hc hca hij
    have hcx : x ≤ key c := not_lt.mp fun h => absurd (hca.mp h) (lt_irrefl _)
    rcases lt_or_gt_of_ne hij with h | h
    · have hax : key a < x := hia.mpr h
      exact ⟨(within_of_gt hax).mpr (.inl hcx), hax.ne⟩
    · grind [within_of_lt]
  · -- every row lies before the point: the very first row
    rw [heq, Nat.mod_self] at hc hij
    have hax : key a < x := hia.mpr (heq ▸ hil)
    have hac : key c < key a := hmono hc hi (Nat.pos_of_ne_zero hij)
    exact ⟨(within_of_gt hax).mpr (.inr hac), hax.ne⟩

end Rows

end MeePdn.Wrapping
