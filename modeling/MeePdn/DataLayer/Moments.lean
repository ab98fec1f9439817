import MeePdn.DataLayer.Access

/-!
# What a call sees of a membership store

A call of the access book reads a membership store while it is written to: it asks for the write
count, looks for a view kept with that count, and otherwise reads the entries at one moment and
their payloads one after the other. A kept view that is found stands for a read of its own.

## Main definitions

* `World.held`, `AccessBook.contents` — what a membership store holds at one moment.
* `Lasting` — payloads that have arrived stay, and the entries of a replica whose count stands.
* `Built` — every view that is kept was built, over entries read after its count.
* `Looked` — the entries of one moment with payloads of that moment or later.

## Main results

* `membershipViewAndEntries_cases` — what is read is read afresh, or is a kept view whose count
  stands.
* `looked_of_runs` — what is read was there at a single moment of the call, payloads aside.
-/

namespace MeePdn

open PdnStore Asking

/-! ## What writes and arrivals change -/

variable {e : SignedEntry}

/-- A write to one replica leaves the entries of another. -/
lemma PdnStore.StoreInstance.ofNamespace_insert {ns : NamespaceId} {records : Records}
    (h : e.ns ≠ ns) :
    StoreInstance.ofNamespace ns (records.insert e) = StoreInstance.ofNamespace ns records := by
  have hirr : Std.Irrefl fun a b : SignedEntry => a.id < b.id := ⟨fun a => lt_irrefl _⟩
  have hanti : Std.Antisymm fun a b : SignedEntry => a.id < b.id :=
    ⟨fun a b hab hba => absurd hab hba.not_gt⟩
  unfold StoreInstance.ofNamespace
  apply ((records.insert e).sorted.filter _).eq_of_mem_iff (records.sorted.filter _)
  intro a
  simp only [List.mem_filter, Keyed.Table.insert, Keyed.mem_insertRow records.sorted,
    decide_eq_true_eq]
  constructor
  · rintro ⟨rfl | ⟨ha, -⟩, hns⟩
    · exact absurd hns h
    · exact ⟨ha, hns⟩
  · rintro ⟨ha, hns⟩
    refine ⟨.inr ⟨ha, fun hid => h ?_⟩, hns⟩
    rw [← hns]
    exact congrArg RecordIdentifier.ns hid.symm

/-- What a history of worlds keeps: a payload that has arrived stays, write counts only grow, and
where a write count stands, so do the replica's entries. -/
structure Lasting (world : ℕ → World) : Prop where
  blobs : ∀ {hash : PdnStore.Hash} {bytes : List UInt8} {t t' : ℕ}, t ≤ t' →
    (world t).blobs hash = some bytes → (world t').blobs hash = some bytes
  writes : ∀ (ns : NamespaceId) {t t' : ℕ}, t ≤ t' → (world t).writes ns ≤ (world t').writes ns
  rows : ∀ {ns : NamespaceId} {t t' : ℕ}, t ≤ t' → (world t').writes ns = (world t).writes ns →
    StoreInstance.ofNamespace ns (world t').records = StoreInstance.ofNamespace ns (world t).records

namespace Lasting

variable {world : ℕ → World}

/-- It is enough that every step keeps it. -/
lemma of_step (hblobs : ∀ t hash bytes, (world t).blobs hash = some bytes →
      (world (t + 1)).blobs hash = some bytes)
    (hwrites : ∀ t ns, (world t).writes ns ≤ (world (t + 1)).writes ns)
    (hrows : ∀ t ns, (world (t + 1)).writes ns = (world t).writes ns →
      StoreInstance.ofNamespace ns (world (t + 1)).records =
        StoreInstance.ofNamespace ns (world t).records) : Lasting world := by
  have hmono : ∀ (ns : NamespaceId) {t t' : ℕ}, t ≤ t' →
      (world t).writes ns ≤ (world t').writes ns :=
    fun ns _ _ hle => monotone_nat_of_le_succ (fun t => hwrites t ns) hle
  refine ⟨fun hle h => ?_, hmono, fun {ns t t'} hle h => ?_⟩
  · induction hle with
    | refl => exact h
    | step _ ih => exact hblobs _ _ _ ih
  · induction t', hle using Nat.le_induction with
    | base => rfl
    | succ t' hle ih => grind

lemma rows_of_between (hlasting : Lasting world) {ns : NamespaceId} {t s t' : ℕ} (hs : t ≤ s)
    (hs' : s ≤ t') (h : (world t').writes ns = (world t).writes ns) :
    StoreInstance.ofNamespace ns (world t').records =
      StoreInstance.ofNamespace ns (world s).records := by
  have hleft := hlasting.writes ns hs
  have hright := hlasting.writes ns hs'
  exact hlasting.rows hs' (by omega)

end Lasting

/-! ## What is held at one moment -/

lemma eq_map_of_forall₂ {α β : Type} {R : α → β → Prop} {f : α → β} {l : List α} {bs : List β}
    (h : List.Forall₂ R l bs) (hf : ∀ a ∈ l, ∀ b ∈ bs, R a b → b = f a) : bs = l.map f := by
  induction h with
  | nil => rfl
  | cons hab _ ih =>
    rw [List.map_cons, hf _ (by simp) _ (by simp) hab,
      ih fun a ha b hb => hf a (by simp [ha]) b (by simp [hb])]

lemma exists_mem_of_forall₂ {α β : Type} {R : α → β → Prop} {l : List α} {bs : List β}
    (h : List.Forall₂ R l bs) {a : α} (ha : a ∈ l) : ∃ b ∈ bs, R a b := by
  induction h with
  | nil => cases ha
  | cons hab _ ih => grind

namespace World

/-- An entry of a membership store, with its payload as it stands. -/
def held (world : World) (e : SignedEntry) : HeldEntry :=
  ⟨e.key, e.author, (HeldPayload.unread? e.key e.contentLen.toNat).getD
    (((world.blobs e.contentHash).map HeldPayload.read).getD .awaited)⟩

lemma held_congr {world world' : World}
    (h : (world.held e).payload = (world'.held e).payload) : world.held e = world'.held e :=
  congrArg (HeldEntry.mk e.key e.author) h

end World

/-- The entries of a membership store as a decision reads them, at one moment. -/
def AccessBook.contents (book : AccessBook) (blake3 : List UInt8 → Bytes 32) (world : World)
    (membership : NamespaceId) : List HeldEntry :=
  if book.blobs then (world.getMany blake3 membership []).map world.held else []

/-- The entries of a membership store at one moment, with each payload as it stood at that moment or
at a later one up to a second moment. -/
def Looked (blake3 : List UInt8 → Bytes 32) (book : AccessBook) (world : ℕ → World)
    (membership : NamespaceId) (t t' : ℕ) (entries : List HeldEntry) : Prop :=
  if book.blobs then
    List.Forall₂ (fun e entry => ∃ look, t ≤ look ∧ look ≤ t' ∧ entry = (world look).held e)
      ((world t).getMany blake3 membership []) entries
  else entries = []

section Moments

variable {blake3 : List UInt8 → Bytes 32} {prims : Primitives} {orders : ℕ → HashOrder}
  {book : AccessBook} {world : ℕ → World} {membership : NamespaceId} {t t' : ℕ}
  {entries : List HeldEntry}

lemma looked_contents (hle : t ≤ t') :
    Looked blake3 book world membership t t' (book.contents blake3 (world t) membership) := by
  unfold Looked AccessBook.contents
  split_ifs
  · rw [List.forall₂_map_right_iff]
    exact List.forall₂_same.mpr fun e _ => ⟨t, le_rfl, hle, rfl⟩
  · rfl

lemma held_eq_of_le (hlasting : Lasting world) (hle : t ≤ t')
    (h : ((world t).held e).payload ≠ .awaited) : (world t').held e = (world t).held e := by
  unfold World.held at h ⊢
  cases hunread : HeldPayload.unread? e.key e.contentLen.toNat with
  | some payload => rfl
  | none =>
    cases hblob : (world t).blobs e.contentHash with
    | none => simp [hunread, hblob] at h
    | some bytes => rw [hlasting.blobs hle hblob]

/-- One entry is held as it stands when it is looked at. -/
lemma runs_heldEntry (hlasting : Lasting world) {entry : HeldEntry}
    (h : Runs (World.answer blake3 book) world (AccessBook.heldEntry e) t (some entry) t') :
    ∃ look, t ≤ look ∧ look ≤ t' ∧ entry = (world look).held e := by
  unfold AccessBook.heldEntry at h
  cases hunread : HeldPayload.unread? e.key e.contentLen.toNat with
  | some payload =>
    simp only [hunread] at h
    obtain ⟨hentry, rfl⟩ := runs_pure.mp h
    cases hentry
    exact ⟨t', le_rfl, le_rfl, by simp [World.held, hunread]⟩
  | none =>
    simp only [hunread] at h
    obtain ⟨has, s, hhas, h⟩ := runs_bind.mp h
    obtain ⟨hs, rfl⟩ := runs_query hhas
    cases hblob : (world s).blobs e.contentHash with
    | none =>
      simp only [World.answer, hblob, Option.isSome_none, Bool.false_eq_true, if_false] at h
      obtain ⟨hentry, rfl⟩ := runs_pure.mp h
      cases hentry
      exact ⟨t', hs, le_rfl, by simp [World.held, hunread, hblob]⟩
    | some bytes =>
      simp only [World.answer, hblob, Option.isSome_some, if_true] at h
      obtain ⟨got, s', hgot, h⟩ := runs_bind.mp h
      obtain ⟨hs', rfl⟩ := runs_query hgot
      obtain ⟨hentry, rfl⟩ := runs_pure.mp h
      cases hentry
      have hblob' := hlasting.blobs hs' hblob
      exact ⟨t', hs.trans hs', le_rfl, by simp [World.held, World.answer, hunread, hblob']⟩

/-- **The entries that are read were there at one moment**, with payloads of that moment or later.
-/
lemma runs_readEntries (hlasting : Lasting world)
    (h : Runs (World.answer blake3 book) world (book.readEntries membership) t (some entries) t') :
    ∃ s, t ≤ s ∧ s ≤ t' ∧ Looked blake3 book world membership s t' entries := by
  unfold AccessBook.readEntries at h
  unfold Looked
  split_ifs at h ⊢ with hblobs
  · unfold AccessBook.heldEntries at h
    obtain ⟨rows, s, hrows, h⟩ := runs_bind.mp h
    obtain ⟨hs, rfl⟩ := runs_query hrows
    refine ⟨s, hs, h.le, (runs_mapM h).imp ?_⟩
    rintro e entry ⟨r, r', hr, hr', hrun⟩
    obtain ⟨look, hlook, hlook', rfl⟩ := runs_heldEntry hlasting hrun
    exact ⟨look, hr.trans hlook, hlook'.trans hr', rfl⟩
  · obtain ⟨hentries, rfl⟩ := runs_pure.mp h
    cases hentries
    exact ⟨t', le_rfl, le_rfl, rfl⟩

lemma Looked.mono {t t' s : ℕ}
    (h : Looked blake3 book world membership t t' entries) (hs : t' ≤ s) :
    Looked blake3 book world membership t s entries := by
  unfold Looked at h ⊢
  split_ifs at h ⊢
  · apply h.imp
    rintro e entry ⟨look, hlook, hlook', heq⟩
    exact ⟨look, hlook, hlook'.trans hs, heq⟩
  · exact h

/-- Entries whose payloads are all there are seen as the last moment holds them. -/
lemma Looked.eq_map
    (h : Looked blake3 book world membership t t' entries) (hlasting : Lasting world)
    (hread : AccessBook.unread entries = false) :
    entries = if book.blobs then
      ((world t).getMany blake3 membership []).map (world t').held else [] := by
  unfold Looked at h
  split_ifs at h ⊢
  · apply eq_map_of_forall₂ h
    rintro e - entry hentry ⟨look, -, hlook, rfl⟩
    have hpayload : ((world look).held e).payload ≠ .awaited := by
      intro hawaited
      have := List.any_eq_false.mp hread _ hentry
      simp [hawaited] at this
    exact (held_eq_of_le hlasting hlook hpayload).symm
  · exact h

lemma getMany_congr {t s : ℕ} (h : StoreInstance.ofNamespace membership (world s).records =
      StoreInstance.ofNamespace membership (world t).records) (start : List UInt8) :
    (world s).getMany blake3 membership start = (world t).getMany blake3 membership start := by
  unfold World.getMany
  rw [h]

/-- Entries whose payloads are all there are the contents of every later moment that has the same
entries. -/
lemma Looked.eq_contents {t t' s : ℕ}
    (h : Looked blake3 book world membership t t' entries) (hlasting : Lasting world)
    (hread : AccessBook.unread entries = false)
    (hs : t' ≤ s) (hrows : StoreInstance.ofNamespace membership (world s).records =
      StoreInstance.ofNamespace membership (world t).records) :
    entries = book.contents blake3 (world s) membership := by
  rw [AccessBook.contents, getMany_congr hrows]
  exact (h.mono hs).eq_map hlasting hread

/-- Entries whose payloads are all there are seen from every later moment that has the same entries
on. -/
lemma Looked.shift {t s t' : ℕ}
    (h : Looked blake3 book world membership t t' entries) (hlasting : Lasting world)
    (hread : AccessBook.unread entries = false)
    (hs : s ≤ t') (hrows : StoreInstance.ofNamespace membership (world s).records =
      StoreInstance.ofNamespace membership (world t).records) :
    Looked blake3 book world membership s t' entries := by
  rw [h.eq_map hlasting hread, ← getMany_congr hrows]
  unfold Looked
  split_ifs
  · rw [List.forall₂_map_right_iff]
    exact List.forall₂_same.mpr fun e _ => ⟨t', hs, le_rfl, rfl⟩
  · rfl

lemma Looked.eq_contents_of_quiet (h : Looked blake3 book world membership t t' entries)
    (hlasting : Lasting world)
    (hquiet : ∀ e ∈ (world t).getMany blake3 membership [], (world t').held e = (world t).held e) :
    entries = book.contents blake3 (world t) membership := by
  unfold Looked at h
  unfold AccessBook.contents
  split_ifs at h ⊢
  · grind [held_eq_of_le, eq_map_of_forall₂, World.held_congr]
  · exact h

/-! ## Kept views -/

lemma runs_writesOf {store : NamespaceId} {writes t t' : ℕ}
    (h : Runs (World.answer blake3 book) world (book.writesOf store) t (some (some writes)) t') :
    t ≤ t' ∧ (world t').writes store = writes := by
  unfold AccessBook.writesOf at h
  split_ifs at h
  · obtain ⟨caught, hcaught, hrun⟩ := runs_attempt.mp h
    cases hcaught
    obtain ⟨hle, heq⟩ := runs_query hrun
    exact ⟨hle, heq.symm⟩
  · obtain ⟨hnone, -⟩ := runs_pure.mp h
    cases hnone

/-- A kept view that is taken is of the store and of the count asked for. -/
lemma runs_keptView {pod : PodId} {store : NamespaceId} {writes : Option ℕ}
    {read : Read} (h : Runs (World.answer blake3 book) world
      (AccessBook.keptView pod store writes) t (some (some read)) t') :
    ∃ kept, (world t').views pod = some kept ∧ kept.store = store ∧
      writes = some kept.writes ∧ kept.read = read := by
  cases writes with
  | none =>
    obtain ⟨hnone, -⟩ := runs_pure.mp h
    cases hnone
  | some writes =>
    obtain ⟨asked, s, hasked, hend⟩ := runs_bind.mp h
    obtain ⟨hfound, rfl⟩ := runs_pure.mp hend
    obtain ⟨caught, hcaught, hrun⟩ := runs_attempt.mp hasked
    cases hcaught
    obtain ⟨kept, hkept, hif⟩ := Option.bind_eq_some_iff.mp (Option.some.inj hfound).symm
    rw [Option.join_eq_some_iff] at hkept
    subst hkept
    obtain ⟨-, hviews⟩ := runs_query hrun
    split_ifs at hif with hsame
    exact ⟨kept, hviews.symm, hsame.1, by rw [hsame.2], Option.some.inj hif⟩

/-- **What is read of a membership store** is read afresh, or is a kept view whose count stands. -/
lemma membershipViewAndEntries_cases {pod : PodId}
    {read : Read} (h : Runs (World.answer blake3 book) world
      (book.membershipViewAndEntries prims orders pod membership) t (some read) t') :
    (∃ s, t ≤ s ∧ Runs (World.answer blake3 book) world (book.readEntries membership) s
      (some read.entries) t' ∧ read = AccessBook.readOf prims orders pod membership read.entries) ∨
    ∃ s kept, t ≤ s ∧ s ≤ t' ∧ (world s).writes membership = kept.writes ∧
      (world t').views pod = some kept ∧ kept.store = membership ∧ kept.read = read := by
  unfold AccessBook.membershipViewAndEntries at h
  obtain ⟨writes, s, hwrites, h⟩ := runs_bind.mp h
  obtain ⟨kept, s', hkept, h⟩ := runs_bind.mp h
  have hle := hwrites.le
  cases kept with
  | none =>
    obtain ⟨entries, s'', hentries, h⟩ := runs_bind.mp h
    obtain ⟨hread, rfl⟩ := runs_pure.mp h
    cases hread
    exact .inl ⟨s', hle.trans hkept.le, hentries, rfl⟩
  | some found =>
    obtain ⟨hread, rfl⟩ := runs_pure.mp h
    cases hread
    have hle' := hkept.le
    obtain ⟨kept, hviews, hstore, rfl, hread⟩ := runs_keptView hkept
    exact .inr ⟨s, kept, hle, hle', (runs_writesOf hwrites).2, hviews, hstore, hread⟩

/-- Every view that is kept was built by the book: over entries read after the write count it is
kept with, with no payload on its way. -/
def Built (blake3 : List UInt8 → Bytes 32) (prims : Primitives) (orders : ℕ → HashOrder)
    (book : AccessBook) (world : ℕ → World) : Prop :=
  ∀ t pod kept, (world t).views pod = some kept → ∃ before start stop, before ≤ start ∧
    stop ≤ t ∧ (world before).writes kept.store = kept.writes ∧
    Runs (World.answer blake3 book) world (book.readEntries kept.store) start
      (some kept.read.entries) stop ∧
    kept.read = AccessBook.readOf prims orders pod kept.store kept.read.entries ∧
    AccessBook.unread kept.read.entries = false

/-- **What is read of a membership store was there at a single moment of the call**, with payloads
of that moment or later.

**Proof sketch.** A fresh read takes the entries at one moment. A kept view was built over entries
read after the count it is kept with; the count still stands when the call asks for it, so the
entries are those of that moment, or were read after it. -/
lemma looked_of_runs (hlasting : Lasting world) (hbuilt : Built blake3 prims orders book world)
    {pod : PodId} {read : Read} (h : Runs (World.answer blake3 book) world
      (book.membershipViewAndEntries prims orders pod membership) t (some read) t') :
    read = AccessBook.readOf prims orders pod membership read.entries ∧
      ∃ s, t ≤ s ∧ s ≤ t' ∧ Looked blake3 book world membership s t' read.entries := by
  rcases membershipViewAndEntries_cases h with ⟨r, hr, hentries, hread⟩ |
    ⟨r, kept, hr, hr', hwrites, hviews, rfl, rfl⟩
  · obtain ⟨m, hm, hm', hlooked⟩ := runs_readEntries hlasting hentries
    exact ⟨hread, m, hr.trans hm, hm', hlooked⟩
  · obtain ⟨before, start, stop, hbefore, hstop, hcount, hentries, hread, hunread⟩ :=
      hbuilt _ _ _ hviews
    obtain ⟨m, hm, hm', hlooked⟩ := runs_readEntries hlasting hentries
    refine ⟨hread, ?_⟩
    rcases le_total r m with hle | hle
    · exact ⟨m, hr.trans hle, hm'.trans hstop, hlooked.mono hstop⟩
    · -- read before the count was asked for, which has stood since
      have hrows := hlasting.rows_of_between (hbefore.trans hm) hle (hwrites.trans hcount.symm)
      exact ⟨r, hr, hr', (hlooked.mono hstop).shift hlasting hunread hr' hrows⟩

end Moments

end MeePdn
