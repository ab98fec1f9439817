import Mathlib.Data.List.Basic
import Mathlib.Order.Lattice

/-!
# The greatest row of each group

A list in the order of a key falls into groups of rows with one key. One pass over the list that
holds a single row finds the greatest row of each group, and of several the first.

## Main definitions

* `keep` — of a row held and a later one, the one with the greater value.
* `greatestFrom`, `greatest` — the greatest row of each group, with a row held already and without.

## Main results

* `mem_greatest_iff` — the rows found are the first of the greatest at their keys.
* `exists_mem_greatest` — every key of the list has one.
* `pairwise_greatest` — there is one for each key, in the order of the keys.
-/

namespace MeePdn.Grouped

universe u v w

variable {α : Type u} {κ : Type v} {ν : Type w} [LinearOrder κ] [LinearOrder ν]
  (key : α → κ) (value : α → ν)

/-- Of a row held and a later one, the one with the greater value, and the one held if they are
equal. -/
def keep (last a : α) : α := if value last < value a then a else last

/-- The greatest row of each group of a list, the first group going on from a row that is held. -/
def greatestFrom : α → List α → List α
  | last, [] => [last]
  | last, a :: l =>
    if key last = key a then greatestFrom (keep value last a) l else last :: greatestFrom a l

/-- The greatest row of each group of a list. -/
def greatest : List α → List α
  | [] => []
  | a :: l => greatestFrom key value a l

variable {key value}

omit [LinearOrder κ] in
lemma key_keep {last a : α} (h : key last = key a) : key (keep value last a) = key last := by
  unfold keep
  split_ifs
  · exact h.symm
  · rfl

section Order

variable {ω : Type*} [LinearOrder ω] (order : α → ω)

variable (key value) in
/-- No row of a list at the same key is greater, or as great and earlier. -/
def First (l : List α) (r : α) : Prop :=
  r ∈ l ∧ ∀ a ∈ l, key a = key r → value a < value r ∨ value a = value r ∧ order r ≤ order a

variable (key) in
/-- The order of a list by key and, at one key, by something else. -/
def Ordered (l : List α) : Prop :=
  l.Pairwise fun a b => key a < key b ∨ key a = key b ∧ order a < order b

variable {order}

lemma Ordered.keep {last a : α} {l : List α} (h : Ordered key order (last :: a :: l)) :
    Ordered key order (keep value last a :: l) := by
  obtain ⟨hlast, hrest⟩ := List.pairwise_cons.mp h
  obtain ⟨-, hl⟩ := List.pairwise_cons.mp hrest
  unfold Grouped.keep
  split_ifs
  · exact hrest
  · exact List.pairwise_cons.mpr ⟨fun b hb => hlast b (List.mem_cons_of_mem _ hb), hl⟩

omit [LinearOrder κ] in
/-- The first of the greatest rows does not change when a row held and the next one with its key
give way to the one kept. -/
lemma first_keep_iff {last a r : α} {l : List α} (hkey : key last = key a)
    (horder : order last < order a) :
    First key value order (keep value last a :: l) r ↔
      First key value order (last :: a :: l) r := by
  unfold First Grouped.keep
  split_ifs with hlt
  · grind
  · grind

/-- **The rows found are the first of the greatest at their keys**, with a row held already.

**Proof sketch.** By induction on the list. A row with the key of the one held changes neither side;
a row with another key starts a group that shares no key with the one before. -/
lemma mem_greatestFrom_iff {last r : α} {l : List α}
    (h : Ordered key order (last :: l)) :
    r ∈ greatestFrom key value last l ↔
      First key value order (last :: l) r := by
  induction l generalizing last with
  | nil => grind [greatestFrom, First]
  | cons a l ih =>
    obtain ⟨hlast, hrest⟩ := List.pairwise_cons.mp h
    unfold greatestFrom
    split_ifs with hkey
    · grind [first_keep_iff, h.keep]
    · -- every later row has a greater key than the one held
      have hlt : ∀ b ∈ a :: l, key last < key b := by
        have hfirst : key last < key a := by grind
        intro b hb
        rcases List.mem_cons.mp hb with rfl | hb
        · exact hfirst
        · rcases (List.pairwise_cons.mp hrest).1 b hb with hab | hab
          · exact hfirst.trans hab
          · exact hab.1 ▸ hfirst
      rw [List.mem_cons, ih hrest]
      unfold First
      constructor
      · grind
      · grind

/-- **The rows found are the first of the greatest at their keys.** -/
lemma mem_greatest_iff {r : α} {l : List α} (h : Ordered key order l) :
    r ∈ greatest key value l ↔ First key value order l r := by
  cases l with
  | nil => simp [greatest, First]
  | cons a l => exact mem_greatestFrom_iff h

end Order

lemma key_mem_greatestFrom {last r : α} {l : List α} (h : r ∈ greatestFrom key value last l) :
    ∃ a ∈ last :: l, key a = key r := by
  induction l generalizing last with
  | nil => exact ⟨last, by simp, by rw [List.mem_singleton.mp h]⟩
  | cons b l ih =>
    unfold greatestFrom at h
    split_ifs at h with hkey
    · obtain ⟨a, ha, hr⟩ := ih h
      rcases List.mem_cons.mp ha with rfl | ha
      · exact ⟨last, List.mem_cons_self, (key_keep hkey).symm.trans hr⟩
      · exact ⟨a, by simp [ha], hr⟩
    · grind

/-- Every key of the list has a row found, with a row held already. -/
lemma exists_mem_greatestFrom {last a : α} {l : List α} (h : a ∈ last :: l) :
    ∃ r ∈ greatestFrom key value last l, key r = key a := by
  induction l generalizing last a with
  | nil => exact ⟨last, List.mem_singleton_self last, by rw [List.mem_singleton.mp h]⟩
  | cons b l ih =>
    unfold greatestFrom
    split_ifs with hkey
    · have hheld : ∃ r ∈ greatestFrom key value (keep value last b) l, key r = key last := by
        have hkept : key (keep value last b) = key last := key_keep hkey
        rw [← hkept]
        exact ih List.mem_cons_self
      rcases List.mem_cons.mp h with rfl | h
      · exact hheld
      · rcases List.mem_cons.mp h with rfl | h
        · exact hkey ▸ hheld
        · exact ih (List.mem_cons_of_mem _ h)
    · grind

/-- **Every key of the list has a row found.** -/
lemma exists_mem_greatest {a : α} {l : List α} (h : a ∈ l) :
    ∃ r ∈ greatest key value l, key r = key a := by
  cases l with
  | nil => cases h
  | cons b l => exact exists_mem_greatestFrom h

/-- There is one row for each key, in the order of the keys, with a row held already. -/
lemma pairwise_greatestFrom {last : α} {l : List α}
    (h : (last :: l).Pairwise fun a b => key a ≤ key b) :
    (greatestFrom key value last l).Pairwise fun a b => key a < key b := by
  induction l generalizing last with
  | nil => exact List.pairwise_singleton _ _
  | cons b l ih =>
    obtain ⟨hlast, hrest⟩ := List.pairwise_cons.mp h
    obtain ⟨hb, hl⟩ := List.pairwise_cons.mp hrest
    unfold greatestFrom
    split_ifs with hkey
    · refine ih (List.pairwise_cons.mpr ⟨fun c hc => ?_, hl⟩)
      rw [key_keep hkey]
      exact hlast c (List.mem_cons_of_mem _ hc)
    · refine List.pairwise_cons.mpr ⟨fun r hr => ?_, ih hrest⟩
      obtain ⟨a, ha, hra⟩ := key_mem_greatestFrom hr
      have hlt : key last < key b := lt_of_le_of_ne (hlast b List.mem_cons_self) hkey
      rw [← hra]
      rcases List.mem_cons.mp ha with rfl | ha
      · exact hlt
      · exact hlt.trans_le (hb a ha)

/-- **There is one row for each key, in the order of the keys.** -/
lemma pairwise_greatest {l : List α} (h : l.Pairwise fun a b => key a ≤ key b) :
    (greatest key value l).Pairwise fun a b => key a < key b := by
  cases l with
  | nil => exact .nil
  | cons a l => exact pairwise_greatestFrom h

end MeePdn.Grouped
