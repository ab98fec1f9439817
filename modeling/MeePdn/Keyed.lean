import Mathlib.Data.List.Basic
import Mathlib.Data.List.Sort

/-!
# Tables sorted by key

A table holds one row per key, in the order of the keys. A put keeps, of two rows at one key, the
one with the greater value, and the row the table holds when their values are equal: two different
rows may have one value.

## Main definitions

* `Table` — rows with strictly increasing keys.
* `Table.get`, `Table.insert`, `Table.put` — the row at a key, a row in place of the one at its key,
  and the greater of two rows at one key.
* `Table.map` — the rows as a function that keeps the key sees them.
* `newer` — what a key holds after a put.
* `Greatest` — no row of a list at the same key has a greater value.

## Main results

* `Table.ext_get` — a table is what it holds at each key.
* `Table.get_foldl_put` — what a key holds after a list of puts.
* `Table.map_foldl_put_eq_iff` — every order of putting a list's rows leaves the same table, as a
  function sees it, exactly when it sees no difference between the greatest rows at one key.
-/

namespace MeePdn.Keyed

universe u v w

variable {α : Type u} {κ : Type v} [LinearOrder κ]

/-- Rows with strictly increasing keys. -/
structure Table (key : α → κ) where
  rows : List α
  sorted : rows.Pairwise fun a b => key a < key b

/-- A row at its place in a list sorted by key, in place of the row at its key. -/
def insertRow (key : α → κ) (a : α) : List α → List α
  | [] => [a]
  | b :: l =>
    if key a < key b then a :: b :: l
    else if key a = key b then a :: l
    else b :: insertRow key a l

variable {key : α → κ} {a : α} {l : List α}

lemma mem_insertRow {a c : α} :
    ∀ {l : List α}, l.Pairwise (fun a b => key a < key b) →
    (c ∈ insertRow key a l ↔ c = a ∨ c ∈ l ∧ key c ≠ key a) := by
  intro l
  induction l with
  | nil => simp [insertRow]
  | cons b l ih =>
    intro h
    obtain ⟨hb, hl⟩ := List.pairwise_cons.mp h
    unfold insertRow
    split_ifs with hlt heq
    · grind
    · grind
    · grind

/-- An insertion keeps the order of the keys. -/
lemma pairwise_insertRow :
    ∀ {l : List α}, l.Pairwise (fun a b => key a < key b) →
    (insertRow key a l).Pairwise fun a b => key a < key b := by
  intro l
  induction l with
  | nil => simp [insertRow]
  | cons b l ih =>
    intro h
    obtain ⟨hb, hl⟩ := List.pairwise_cons.mp h
    unfold insertRow
    split_ifs with hlt heq
    · grind
    · exact List.pairwise_cons.mpr ⟨fun c hc => heq ▸ hb c hc, hl⟩
    · apply List.pairwise_cons.mpr ⟨fun c hc => ?_, ih hl⟩
      rcases (mem_insertRow hl).mp hc with rfl | hc
      · exact lt_of_le_of_ne (not_lt.mp hlt) fun h => heq h.symm
      · exact hb c hc.1

namespace Table

@[ext] lemma ext {t t' : Table key} (h : t.rows = t'.rows) : t = t' := by
  cases t; cases t'; simp_all

/-- The table without rows. -/
def empty : Table key := ⟨[], .nil⟩

/-- The row at a key. -/
def get (t : Table key) (k : κ) : Option α := t.rows.find? fun a => key a = k

/-- A row in place of the row at its key. -/
def insert (t : Table key) (a : α) : Table key :=
  ⟨insertRow key a t.rows, pairwise_insertRow t.sorted⟩

lemma nodup_keys (t : Table key) : (t.rows.map key).Nodup :=
  (List.pairwise_map.mpr t.sorted).imp fun hlt => hlt.ne

lemma nodup_rows (t : Table key) : t.rows.Nodup := t.nodup_keys.of_map key

lemma eq_of_key_eq (t : Table key) {a b : α} (ha : a ∈ t.rows) (hb : b ∈ t.rows)
    (h : key a = key b) : a = b :=
  List.inj_on_of_nodup_map t.nodup_keys ha hb h

lemma get_eq_some {t : Table key} {k : κ} : t.get k = some a ↔ a ∈ t.rows ∧ key a = k := by
  constructor
  · intro h
    exact ⟨List.mem_of_find?_eq_some h, by simpa using List.find?_some h⟩
  · rintro ⟨ha, rfl⟩
    obtain ⟨b, hb⟩ : ∃ b, t.get (key a) = some b := by
      apply Option.isSome_iff_exists.mp
      exact List.find?_isSome.mpr ⟨a, ha, by simp⟩
    have hkey : key b = key a := by simpa using List.find?_some hb
    rw [hb, t.eq_of_key_eq (List.mem_of_find?_eq_some hb) ha hkey]

lemma ext_mem {t t' : Table key} (h : ∀ a, a ∈ t.rows ↔ a ∈ t'.rows) : t = t' := by
  have hirr : Std.Irrefl fun a b : α => key a < key b := ⟨fun a => lt_irrefl _⟩
  have hanti : Std.Antisymm fun a b : α => key a < key b :=
    ⟨fun a b hab hba => absurd hab hba.not_gt⟩
  apply Table.ext
  exact t.sorted.eq_of_mem_iff t'.sorted h

/-- **A table is what it holds at each key.** -/
lemma ext_get {t t' : Table key} (h : ∀ k, t.get k = t'.get k) : t = t' := by
  apply ext_mem
  intro a
  have ha := h (key a)
  constructor
  · intro hmem
    exact (get_eq_some.mp (ha ▸ get_eq_some.mpr ⟨hmem, rfl⟩)).1
  · intro hmem
    exact (get_eq_some.mp (ha ▸ get_eq_some.mpr ⟨hmem, rfl⟩)).1

@[simp] lemma get_empty (k : κ) : (empty : Table key).get k = none := rfl

lemma get_insert (t : Table key) (a : α) (k : κ) :
    (t.insert a).get k = if key a = k then some a else t.get k := by
  apply Option.ext
  intro b
  rw [get_eq_some, insert, mem_insertRow t.sorted]
  split_ifs with h
  · grind
  · grind [get_eq_some]

lemma of_mem_foldl_insert {t : Table key}
    (h : a ∈ (l.foldl insert t).rows) : a ∈ l ∨ a ∈ t.rows := by
  induction l generalizing t with
  | nil => exact .inr h
  | cons b l ih =>
    rcases ih h with hl | ht
    · exact .inl (List.mem_cons_of_mem _ hl)
    · rcases (mem_insertRow t.sorted).mp ht with rfl | ht
      · exact .inl List.mem_cons_self
      · exact .inr ht.1

/-- Of rows with different keys inserted into an empty table, all stay. -/
lemma mem_foldl_insert_empty (h : (l.map key).Nodup) :
    a ∈ (l.foldl insert (empty : Table key)).rows ↔ a ∈ l := by
  have hmem : ∀ {l : List α} {t : Table key}, (l.map key).Nodup →
      (∀ b ∈ l, ∀ c ∈ t.rows, key c ≠ key b) → a ∈ l ∨ a ∈ t.rows →
        a ∈ (l.foldl insert t).rows := by
    intro l
    induction l with
    | nil => exact fun _ _ h => h.resolve_left List.not_mem_nil
    | cons b l ih =>
      intro t hnd hapart ha
      obtain ⟨hb, hl⟩ := List.nodup_cons.mp (List.map_cons ▸ hnd)
      refine ih hl (fun c hc d hd => ?_) ?_
      · rcases (mem_insertRow t.sorted).mp hd with rfl | hd
        · exact fun heq => hb (heq ▸ List.mem_map_of_mem hc)
        · exact hapart c (List.mem_cons_of_mem _ hc) d hd.1
      · rcases ha with ha | ha
        · rcases List.mem_cons.mp ha with rfl | ha
          · exact .inr ((mem_insertRow t.sorted).mpr (.inl rfl))
          · exact .inl ha
        · exact .inr ((mem_insertRow t.sorted).mpr (.inr ⟨ha, hapart b List.mem_cons_self a ha⟩))
  refine ⟨fun ha => (of_mem_foldl_insert ha).resolve_right List.not_mem_nil, fun ha => ?_⟩
  exact hmem h (fun _ _ _ hc => absurd hc List.not_mem_nil) (.inl ha)

/-- The rows that meet a condition. -/
def filter (t : Table key) (p : α → Bool) : Table key := ⟨t.rows.filter p, t.sorted.filter p⟩

lemma get_filter (t : Table key) (p : α → Bool) (k : κ) :
    (t.filter p).get k = (t.get k).filter p := by
  apply Option.ext
  intro a
  rw [get_eq_some, Option.mem_def.symm, Option.mem_filter_iff, Option.mem_def, get_eq_some, filter,
    List.mem_filter]
  tauto

/-! ## Rows as a function sees them -/

section Map

variable {β : Type w} (f : α → β) {seen : β → κ} (hf : ∀ a, seen (f a) = key a)

/-- The rows as a function that keeps the key sees them. -/
def map (t : Table key) : Table seen :=
  ⟨t.rows.map f, List.pairwise_map.mpr (t.sorted.imp fun h => by rwa [hf, hf])⟩

lemma get_map (t : Table key) (k : κ) : (t.map f hf).get k = (t.get k).map f := by
  unfold get map
  rw [List.find?_map]
  simp only [Function.comp_def, hf]

end Map

end Table

/-! ## Puts -/

section Put

variable {ν : Type*} [LinearOrder ν] (value : α → ν)

/-- What a key holds after a put. -/
def newer : Option α → α → Option α
  | none, a => some a
  | some b, a => if value a ≤ value b then some b else some a

/-- No row of a list at the same key has a greater value. -/
def Greatest (key : α → κ) (l : List α) (a : α) : Prop :=
  a ∈ l ∧ ∀ b ∈ l, key b = key a → value b ≤ value a

lemma foldl_newer_of_le (h : ∀ b ∈ l, value b ≤ value a) :
    l.foldl (newer value) (some a) = some a := by
  induction l with
  | nil => rfl
  | cons b l ih =>
    have hb : newer value (some a) b = some a := if_pos (h b (by simp))
    rw [List.foldl_cons, hb]
    exact ih fun c hc => h c (by simp [hc])

/-- Of a row and a list of rows put after it, one with the greatest value is held. -/
lemma exists_foldl_newer (a : α) (l : List α) :
    ∃ b, l.foldl (newer value) (some a) = some b ∧ b ∈ a :: l ∧
      ∀ c ∈ a :: l, value c ≤ value b := by
  induction l generalizing a with
  | nil => exact ⟨a, rfl, by simp, by simp⟩
  | cons c l ih =>
    by_cases hle : value c ≤ value a
    · have hc : newer value (some a) c = some a := if_pos hle
      obtain ⟨b, hb, hmem, hmax⟩ := ih a
      refine ⟨b, by rw [List.foldl_cons, hc, hb], ?_, ?_⟩
      · simp only [List.mem_cons] at hmem ⊢
        tauto
      · grind
    · have hc : newer value (some a) c = some c := if_neg hle
      obtain ⟨b, hb, hmem, hmax⟩ := ih c
      refine ⟨b, by rw [List.foldl_cons, hc, hb], ?_, ?_⟩
      · simp only [List.mem_cons] at hmem ⊢
        tauto
      · grind

namespace Table

/-- The greater of two rows at one key. -/
def put (t : Table key) (a : α) : Table key :=
  match t.get (key a) with
  | none => t.insert a
  | some b => if value a ≤ value b then t else t.insert a

lemma get_put (t : Table key) (a : α) (k : κ) :
    (t.put value a).get k = if key a = k then newer value (t.get k) a else t.get k := by
  unfold put
  split
  · next h =>
    rw [get_insert]
    split_ifs with hk
    · rw [← hk, h, newer]
    · rfl
  · grind [newer, get_insert]

/-- **What a key holds after a list of puts** is what the rows of the list at that key leave. -/
lemma get_foldl_put (t : Table key) (l : List α) (k : κ) :
    (l.foldl (put value) t).get k =
      (l.filter fun a => key a = k).foldl (newer value) (t.get k) := by
  induction l generalizing t with
  | nil => rfl
  | cons a l ih => grind [get_put]

/-- What a key holds after the rows of a list are put into an empty table is one of the greatest of
them there, if there is one. -/
lemma get_foldl_put_empty (l : List α) (k : κ) :
    (∀ a ∈ l, key a ≠ k) ∧ (l.foldl (put value) (empty : Table key)).get k = none ∨
      ∃ a, (l.foldl (put value) (empty : Table key)).get k = some a ∧ key a = k ∧
        Greatest value key l a := by
  rw [get_foldl_put, get_empty]
  rcases h : l.filter fun a => key a = k with _ | ⟨a, rest⟩
  · left
    refine ⟨fun a ha hk => ?_, rfl⟩
    have : a ∈ l.filter fun a => key a = k := List.mem_filter.mpr ⟨ha, by simpa using hk⟩
    simp [h] at this
  · right
    obtain ⟨b, hb, hmem, hmax⟩ := exists_foldl_newer value a rest
    rw [← h, List.mem_filter] at hmem
    have hk : key b = k := by simpa using hmem.2
    refine ⟨b, hb, hk, hmem.1, fun c hc hck => hmax c ?_⟩
    rw [← h]
    exact List.mem_filter.mpr ⟨hc, by simpa [hk] using hck⟩

lemma get_foldl_put_cons (h : ∀ b ∈ l, key b = key a → value b ≤ value a) :
    ((a :: l).foldl (put value) (empty : Table key)).get (key a) = some a := by
  rw [get_foldl_put, get_empty, List.filter_cons_of_pos (by simp), List.foldl_cons]
  apply foldl_newer_of_le
  intro b hb
  obtain ⟨hmem, hk⟩ := List.mem_filter.mp hb
  exact h b hmem (by simpa using hk)

lemma filter_key_eq (h : (l.map key).Nodup) (ha : a ∈ l) :
    (l.filter fun b => key b = key a) = [a] := by
  induction l with
  | nil => cases ha
  | cons c l ih =>
    obtain ⟨hc, hl⟩ := List.nodup_cons.mp (List.map_cons ▸ h)
    rcases List.mem_cons.mp ha with rfl | ha
    · rw [List.filter_cons_of_pos (by simp), List.filter_eq_nil_iff.mpr]
      intro b hb hk
      exact hc (List.mem_map.mpr ⟨b, hb, by simpa using hk⟩)
    · grind

/-- Of rows with different keys put into an empty table, all stay. -/
lemma mem_foldl_put_empty (h : (l.map key).Nodup) :
    a ∈ (l.foldl (put value) (empty : Table key)).rows ↔ a ∈ l := by
  constructor
  · intro ha
    have hget := get_eq_some.mpr ⟨ha, rfl⟩
    rcases get_foldl_put_empty value l (key a) with ⟨-, hnone⟩ | ⟨b, hb, -, hgreatest⟩
    · cases hnone.symm.trans hget
    · cases hb.symm.trans hget
      exact hgreatest.1
  · intro ha
    have hget : (l.foldl (put value) (empty : Table key)).get (key a) = some a := by
      rw [get_foldl_put, filter_key_eq h ha, get_empty]
      rfl
    exact (get_eq_some.mp hget).1

/-- **Rows the table already holds as new as need not be put.** -/
lemma foldl_put_of_covered {t : Table key} {l l' : List α} (hl : (l.map key).Nodup)
    (hl' : (l'.map key).Nodup) (hsub : ∀ a ∈ l', a ∈ l)
    (hold : ∀ a ∈ l, a ∉ l' → ∃ b, t.get (key a) = some b ∧ value a ≤ value b) :
    l'.foldl (put value) t = l.foldl (put value) t := by
  apply ext_get
  intro k
  rw [get_foldl_put, get_foldl_put]
  by_cases hk : ∃ a ∈ l, key a = k
  · obtain ⟨a, ha, rfl⟩ := hk
    rw [filter_key_eq hl ha]
    by_cases ha' : a ∈ l'
    · rw [filter_key_eq hl' ha']
    · have hnone : (l'.filter fun b => key b = key a) = [] := by
        apply List.filter_eq_nil_iff.mpr
        intro b hb hkb
        have hba := List.inj_on_of_nodup_map hl (hsub b hb) ha (by simpa using hkb)
        exact ha' (hba ▸ hb)
      obtain ⟨b, hb, hle⟩ := hold a ha ha'
      have hstays : [a].foldl (newer value) (some b) = some b :=
        foldl_newer_of_le value (by simpa using hle)
      rw [hnone, hb, hstays, List.foldl_nil]
  · have hnone : ∀ {s : List α}, (∀ a ∈ s, a ∈ l) → (s.filter fun b => key b = k) = [] := by
      intro s hs
      apply List.filter_eq_nil_iff.mpr
      intro b hb hkb
      exact hk ⟨b, hs b hb, by simpa using hkb⟩
    rw [hnone hsub, hnone fun a ha => ha]

/-- **Every order of putting a list's rows leaves the same table**, as a function sees it, exactly
when it sees no difference between the greatest rows at one key.

**Proof sketch.** What a key holds is a greatest row there. Any greatest row is what an order that
puts it first leaves. -/
lemma map_foldl_put_eq_iff [DecidableEq α] {β : Type*} (f : α → β) {seen : β → κ}
    (hf : ∀ a, seen (f a) = key a) (s : List α) :
    (∀ l l' : List α, l.Perm s → l'.Perm s → (l.foldl (put value) (empty : Table key)).map f hf =
          (l'.foldl (put value) (empty : Table key)).map f hf) ↔
      ∀ a b, Greatest value key s a → Greatest value key s b → key a = key b → f a = f b := by
  constructor
  · intro h a b ha hb hk
    have first : ∀ {c}, Greatest value key s c →
        ((c :: s.erase c).foldl (put value) (empty : Table key)).get (key c) = some c := by
      intro c hc
      exact get_foldl_put_cons value fun d hd => hc.2 d (List.mem_of_mem_erase hd)
    have heq := congrArg (fun t => get t (key a))
      (h _ _ (List.perm_cons_erase ha.1).symm (List.perm_cons_erase hb.1).symm)
    simp only [get_map] at heq
    rw [first ha, hk, first hb] at heq
    simpa using heq
  · intro h l l' hl hl'
    apply ext_get
    intro k
    rw [get_map, get_map]
    have great : ∀ {m : List α} {c : α}, m.Perm s → Greatest value key m c →
        Greatest value key s c := fun hm hc =>
      ⟨hm.mem_iff.mp hc.1, fun d hd => hc.2 d (hm.mem_iff.mpr hd)⟩
    rcases get_foldl_put_empty value l k with ⟨hnone, hget⟩ | ⟨a, hget, hak, ha⟩ <;>
      rcases get_foldl_put_empty value l' k with ⟨hnone', hget'⟩ | ⟨b, hget', hbk, hb⟩ <;>
      rw [hget, hget']
    · exact absurd hbk (hnone b (hl.mem_iff.mpr (hl'.mem_iff.mp hb.1)))
    · exact absurd hak (hnone' a (hl'.mem_iff.mpr (hl.mem_iff.mp ha.1)))
    · exact congrArg some (h a b (great hl ha) (great hl' hb) (hak.trans hbk.symm))

end Table

end Put

end MeePdn.Keyed
