import Mathlib.Data.Nat.ModEq
import MeePdn.PdnStore.Ranger

/-!
# Why a reconciliation ends, and what it brings across

Two sides that each read one list of entries answer each other until there is nothing left to send.
Every part of a message concerns one range. An answer to a part cuts its range in two or settles it,
and each cut leaves both sides with entries on either side of it, so the parts get lighter; the
ranges of the parts of a message never meet, so no entry is sent twice; and every entry the other
side lacks lies in the range of a part that is still open, until it is sent.

## Main definitions

* `within` — the entries of a list in a range.
* `Shows` — reads that are those of a list of entries.
* `Fresh` — an entry that a list holds nothing as new as.
* `Sent` — what a part holds, of the lists of the side that sends it and of the other.
* `Answer` — what an answer to one part does.
* `Tells` — fingerprints that tell the entries of two lists apart.
* `talk`, `byTurns` — the messages two sides send in turn, and the entries each of them sent.
* `Told` — what the two sides send to settle the parts of a message.

## Main results

* `Shows.splitRanges_eq` — a range of at least two entries is cut in two, with entries in each part.
* `answer_part` — one part is answered without an error, and the answer is an `Answer`.
* `talk_told` — two sides that answer each other come to an end, having sent what is needed and
  nothing twice.
* `talk_init` — so do they from the initial message on, having told each other everything.
-/

namespace MeePdn.PdnStore.Ranger

variable {ε κ ν : Type} [LinearOrder κ]
variable (blake3 : List UInt8 → Bytes 32) (entry : RangeEntry ε κ ν)

/-! ## Reads of a list -/

/-- The entries of a list in a range. -/
def within (view : List ε) (range : Range κ) : List ε :=
  view.filter fun e => range.Contains (entry.key e)

variable {entry} in
@[simp] lemma mem_within {view : List ε} {range : Range κ} {e : ε} :
    e ∈ within entry view range ↔ e ∈ view ∧ range.Contains (entry.key e) := by
  simp [within]

/-- The ranges that are read: between keys that may bound one, and the whole set. -/
def Readable (own : κ → Prop) (range : Range κ) : Prop :=
  range.x = range.y ∨ own range.x ∧ own range.y

/-- Reads that are those of a list of entries, sorted by key, whose keys may bound a range. -/
structure Shows (own : κ → Prop) (reads : Reads ε κ) (view : List ε) : Prop where
  sorted : view.Pairwise fun a b => entry.key a < entry.key b
  own_key : ∀ e ∈ view, own (entry.key e)
  getRange : ∀ range, Readable own range →
    reads.getRange range = .ok (within entry view range)
  getFingerprint : ∀ range, Readable own range →
    reads.getFingerprint range = .ok (fingerprintOf blake3 entry (within entry view range))

/-- A range cut in two, with an entry of a list in either part. -/
structure Cut (own : κ → Prop) (view : List ε) (range one other : Range κ) : Prop where
  readable_one : Readable own one
  readable_other : Readable own other
  contains_iff : ∀ t, range.Contains t ↔ one.Contains t ∨ other.Contains t
  disjoint : ∀ t, one.Contains t → ¬ other.Contains t
  exists_one : ∃ e ∈ view, one.Contains (entry.key e)
  exists_other : ∃ e ∈ view, other.Contains (entry.key e)

lemma add_mod_ne {start step n : ℕ} (hpos : 0 < step) (hlt : step < n) :
    (start + step) % n ≠ start % n := by
  intro h
  have hmod : start + step ≡ start + 0 [MOD n] := h
  have hzero : step ≡ 0 [MOD n] := Nat.ModEq.add_left_cancel' start hmod
  have hdvd : n ∣ step := (Nat.modEq_zero_iff_dvd).mp hzero
  exact absurd (Nat.le_of_dvd hpos hdvd) (by omega)

section Split

variable {blake3 entry} {own : κ → Prop} {reads : Reads ε κ} {view : List ε}
  (h : Shows blake3 entry own reads view)

include h

lemma Shows.sorted_within (range : Range κ) :
    (within entry view range).Pairwise fun a b => entry.key a < entry.key b :=
  h.sorted.filter _

lemma Shows.eq_of_key_eq {a b : ε} (ha : a ∈ view) (hb : b ∈ view)
    (hkey : entry.key a = entry.key b) : a = b := by
  have hnd : (view.map entry.key).Nodup :=
    (List.pairwise_map.mpr h.sorted).imp fun hlt => hlt.ne
  exact List.inj_on_of_nodup_map hnd ha hb hkey

lemma Shows.pivot_eq {range : Range κ} (hr : Readable own range) {start i : ℕ} {e : ε}
    (he : (within entry view range)[(start + (within entry view range).length *
      (i % 2 + 1) / 2) % (within entry view range).length]? = some e) :
    reads.pivot entry .default range (within entry view range).length start i =
      .ok (entry.key e) := by
  simp only [Reads.pivot, SyncConfig.default, h.getRange range hr, ok_bind, he]
  rfl

/-- **A range of at least two entries is cut in two**, with entries in each part.

**Proof sketch.** Counted from the range's `x` on, the first pivot is the entry half-way and the
second, which closes the circle, the first entry. The first entry lies between `x` and any other
entry (`Wrapping.within_of_first`), so the entry half-way cuts the range with the first entry in the
part before it and itself in the part after it. -/
lemma Shows.splitRanges_eq {range : Range κ} (hr : Readable own range)
    (hlen : 2 ≤ (within entry view range).length) :
    ∃ one other, reads.splitRanges entry .default range (within entry view range).length
        (Wrapping.ahead entry.key range.x (within entry view range)) = .ok [one, other] ∧
      Cut entry own view range one other := by
  set rows := within entry view range with hrows
  set start := Wrapping.ahead entry.key range.x rows with hstart
  have hpos : 0 < rows.length := by omega
  -- the first entry from `x` on, and the entry half-way
  obtain ⟨c, hc⟩ : ∃ c, rows[start % rows.length]? = some c :=
    ⟨_, List.getElem?_eq_getElem (Nat.mod_lt _ hpos)⟩
  obtain ⟨p, hp⟩ : ∃ p, rows[(start + rows.length / 2) % rows.length]? = some p :=
    ⟨_, List.getElem?_eq_getElem (Nat.mod_lt _ hpos)⟩
  have hpc : p ≠ c := by
    rintro rfl
    obtain ⟨hi, hpi⟩ := List.getElem?_eq_some_iff.mp hp
    obtain ⟨hj, hpj⟩ := List.getElem?_eq_some_iff.mp hc
    have hnd : rows.Nodup := (h.sorted_within range).imp fun hlt heq => hlt.ne (by rw [heq])
    exact add_mod_ne (by omega) (by omega) (hnd.getElem_inj_iff.mp (hpi.trans hpj.symm))
  obtain ⟨hpv, hpr⟩ := mem_within.mp (List.mem_of_getElem? hp)
  obtain ⟨hcv, hcr⟩ := mem_within.mp (List.mem_of_getElem? hc)
  have hkeys : entry.key p ≠ entry.key c := fun hk => hpc (h.eq_of_key_eq hpv hcv hk)
  obtain ⟨hfirst, hpx⟩ := Wrapping.within_of_first (h.sorted_within range)
    (List.mem_of_getElem? hp) hc hpc
  have hpivot : ∀ i, i % 2 = 0 →
      reads.pivot entry .default range rows.length start i = .ok (entry.key p) := by
    intro i hi
    apply h.pivot_eq hr
    rw [hi, zero_add, mul_one]
    exact hp
  have hpivot' : ∀ i, i % 2 = 1 →
      reads.pivot entry .default range rows.length start i = .ok (entry.key c) := by
    intro i hi
    apply h.pivot_eq hr
    rw [hi, show rows.length * (1 + 1) / 2 = rows.length by omega, Nat.add_mod_right]
    exact hc
  by_cases hall : range.x = range.y
  · -- the whole set: from the one pivot to the other and back
    refine ⟨⟨entry.key p, entry.key c⟩, ⟨entry.key c, entry.key p⟩, ?_, ?_⟩
    · have hone : reads.between entry .default range rows.length start 0 =
          .ok [⟨entry.key p, entry.key c⟩] := by
        simp only [Reads.between, hpivot 0 rfl, hpivot' (0 + 1) rfl, ok_bind, pure_eq_ok,
          if_pos hkeys]
      have hother : reads.between entry .default range rows.length start 1 =
          .ok [⟨entry.key c, entry.key p⟩] := by
        simp only [Reads.between, hpivot' 1 rfl, hpivot (1 + 1) rfl, ok_bind, pure_eq_ok,
          if_pos hkeys.symm]
      simp only [Reads.splitRanges, if_pos hall,
        show List.range SyncConfig.default.splitFactor = [0, 1] from rfl, List.mapM_cons,
        List.mapM_nil, hone, hother, ok_bind, pure_eq_ok, List.flatten_cons, List.flatten_nil,
        List.singleton_append, List.append_nil]
    · exact {
        readable_one := .inr ⟨h.own_key p hpv, h.own_key c hcv⟩
        readable_other := .inr ⟨h.own_key c hcv, h.own_key p hpv⟩
        contains_iff := by grind [Range.Contains, Wrapping.within_self, Wrapping.within_swap]
        disjoint := fun t ht => mt (Wrapping.within_swap hkeys).mp (not_not.mpr ht)
        exists_one := ⟨p, hpv, Wrapping.within_left⟩
        exists_other := ⟨c, hcv, Wrapping.within_left⟩ }
  · -- any other range: from `x` to the pivot and on to `y`
    have hown := hr.resolve_left hall
    refine ⟨⟨range.x, entry.key p⟩, ⟨entry.key p, range.y⟩, ?_, ?_⟩
    · simp only [Reads.splitRanges, if_neg hall,
        show SyncConfig.default.splitFactor - 2 = 0 from rfl, List.range_zero, List.mapM_nil,
        hpivot 0 rfl, ok_bind, pure_eq_ok, List.flatten_nil, List.nil_append]
    · exact {
        readable_one := .inr ⟨hown.1, h.own_key p hpv⟩
        readable_other := .inr ⟨h.own_key p hpv, hown.2⟩
        contains_iff := fun t => Wrapping.within_split hall hpr hpx
        disjoint := fun t => Wrapping.not_within_both hall hpr hpx
        exists_one := ⟨c, hcv, hfirst⟩
        exists_other := ⟨p, hpv, Wrapping.within_left⟩ }

end Split

/-! ## Parts of a message -/

namespace MessagePart

/-- The range a part concerns. -/
def range : MessagePart ε κ → Range κ
  | .rangeFingerprint part => part.range
  | .rangeItem item => item.range

/-- Whether a part is a fingerprint. -/
def isFingerprint : MessagePart ε κ → Bool
  | .rangeFingerprint _ => true
  | .rangeItem _ => false

/-- Whether a part asks for an answer. -/
def isOpen : MessagePart ε κ → Bool
  | .rangeFingerprint _ => true
  | .rangeItem item => !item.haveLocal

/-- The entries a part carries. -/
def entries (part : MessagePart ε κ) : List ε := part.values.map Prod.fst

end MessagePart

/-- What is sent back for a part. -/
def Reads.answer [LinearOrder ν] (reads : Reads ε κ) (config : SyncConfig)
    (status : ε → ContentStatus) : MessagePart ε κ → Except String (List (MessagePart ε κ))
  | .rangeFingerprint part => reads.replyFingerprint blake3 entry config status part
  | .rangeItem item => reads.replyItem entry status item

/-- What a part holds, of the list of the side that sends it. -/
def Sent (own : κ → Prop) (view : List ε) : MessagePart ε κ → Prop
  | .rangeFingerprint part => Readable own part.range ∧
      part.fingerprint = fingerprintOf blake3 entry (within entry view part.range)
  | .rangeItem item =>
    if item.haveLocal then (item.values.map Prod.fst).Sublist (within entry view item.range)
    else Readable own item.range ∧ item.values.map Prod.fst = within entry view item.range

/-- How much is left to do about a part: for a fingerprint, the entries of both sides in its
range. -/
def weight (view view' : List ε) : MessagePart ε κ → ℕ
  | .rangeFingerprint part =>
    (within entry view part.range).length + (within entry view' part.range).length + 2
  | .rangeItem item => if item.haveLocal then 0 else 1

/-- Parts whose ranges do not meet. -/
def Apart (part part' : MessagePart ε κ) : Prop :=
  ∀ t, part.range.Contains t → ¬ part'.range.Contains t

variable [LinearOrder ν]

/-- An entry that a list holds nothing as new as. -/
def Fresh (view : List ε) (e : ε) : Prop :=
  ∀ e' ∈ view, entry.key e' = entry.key e → ¬ entry.value e ≤ entry.value e'

/-- Fingerprints that tell the entries of two lists apart: lists with one fingerprint in a range
hold the same keys there, with values that compare equal. -/
def Tells (view view' : List ε) : Prop :=
  ∀ range : Range κ, fingerprintOf blake3 entry (within entry view range) =
      fingerprintOf blake3 entry (within entry view' range) →
    (within entry view range).map (fun e => (entry.key e, entry.value e)) =
      (within entry view' range).map fun e => (entry.key e, entry.value e)

/-- What an answer to one part does, of the lists of the side that sent the part and of the side
that answers it. -/
structure Answer (own : κ → Prop) (view view' : List ε) (part : MessagePart ε κ)
    (children : List (MessagePart ε κ)) : Prop where
  sent : ∀ c ∈ children, Sent blake3 entry own view' c
  lighter : ∀ c ∈ children, weight entry view' view c < weight entry view view' part
  apart : children.Pairwise Apart
  inside : ∀ c ∈ children, ∀ t, c.range.Contains t → part.range.Contains t
  isOpen : ∀ c ∈ children, part.isOpen = true
  isFingerprint : ∀ c ∈ children, c.isOpen = true → part.isFingerprint = true
  /-- What the side that answers has to tell is sent, or waits for a further answer. -/
  answered : part.isOpen = true → ∀ e ∈ view', Fresh entry view e →
    part.range.Contains (entry.key e) →
      ∃ c ∈ children, c.range.Contains (entry.key e) ∧ (c.isFingerprint = true ∨ e ∈ c.entries)
  /-- What the other side has to tell about a fingerprint is asked for. -/
  asked : part.isFingerprint = true → ∀ e ∈ view, Fresh entry view' e →
    part.range.Contains (entry.key e) → ∃ c ∈ children, c.isOpen = true ∧
      c.range.Contains (entry.key e)

section AnswerPart

variable {blake3 entry}

omit [LinearOrder κ] [LinearOrder ν] in
@[simp] lemma map_fst_withStatus (status : ε → ContentStatus) (entries : List ε) :
    (withStatus status entries).map Prod.fst = entries := by
  simp [withStatus, Function.comp_def]

omit [LinearOrder ν] in
lemma Tells.symm {view view' : List ε} (h : Tells blake3 entry view view') :
    Tells blake3 entry view' view :=
  fun range heq => (h range heq.symm).symm

omit [LinearOrder ν] in
lemma Tells.of_sublists {view view' : List ε}
    (h : ∀ l ∈ view.sublists, ∀ l' ∈ view'.sublists,
      fingerprintOf blake3 entry l = fingerprintOf blake3 entry l' →
        l.map (fun e => (entry.key e, entry.value e)) =
          l'.map fun e => (entry.key e, entry.value e)) :
    Tells blake3 entry view view' := by
  intro range
  apply h
  · exact List.mem_sublists.mpr List.filter_sublist
  · exact List.mem_sublists.mpr List.filter_sublist

lemma Tells.not_fresh {view view' : List ε} (h : Tells blake3 entry view view')
    {range : Range κ} (heq : fingerprintOf blake3 entry (within entry view range) =
      fingerprintOf blake3 entry (within entry view' range))
    {e : ε} (he : e ∈ view') (hr : range.Contains (entry.key e)) : ¬ Fresh entry view e := by
  intro hfresh
  have hmem : (entry.key e, entry.value e) ∈
      (within entry view range).map fun e => (entry.key e, entry.value e) := by
    rw [h range heq]
    exact List.mem_map.mpr ⟨e, mem_within.mpr ⟨he, hr⟩, rfl⟩
  obtain ⟨e', he', hpair⟩ := List.mem_map.mp hmem
  obtain ⟨hkey, hvalue⟩ := Prod.mk.inj hpair
  exact hfresh e' (mem_within.mp he').1 hkey hvalue.ge

variable {own : κ → Prop} {reads' : Reads ε κ} {view view' : List ε}
  {status : ε → ContentStatus}

lemma answer_haveLocal {item : RangeItem ε κ} (hlocal : item.haveLocal = true) :
    reads'.answer blake3 entry .default status (.rangeItem item) = .ok [] ∧
      Answer blake3 entry own view view' (.rangeItem item) [] := by
  constructor
  · simp [Reads.answer, Reads.replyItem, hlocal]
  · constructor <;> simp [MessagePart.isOpen, MessagePart.isFingerprint, hlocal]

variable (h : Shows blake3 entry own reads' view')

include h

/-- **An item that asks for our entries** is answered by those the other side lacks.

**Proof sketch.** An entry the other side has nothing as new as is superseded by none of the items.
-/
lemma answer_item {item : RangeItem ε κ} (hlocal : item.haveLocal = false)
    (hsent : Sent blake3 entry own view (.rangeItem item)) :
    ∃ children, reads'.answer blake3 entry .default status (.rangeItem item) = .ok children ∧
      Answer blake3 entry own view view' (.rangeItem item) children := by
  simp only [Sent, hlocal, Bool.false_eq_true, if_false] at hsent
  obtain ⟨hread, hvalues⟩ := hsent
  set diff := (within entry view' item.range).filter fun e => !superseded entry item.values e
    with hdiff
  have hfresh : ∀ e ∈ view', Fresh entry view e → item.range.Contains (entry.key e) → e ∈ diff := by
    intro e he hf hr
    refine List.mem_filter.mpr ⟨mem_within.mpr ⟨he, hr⟩, ?_⟩
    simp only [superseded, Bool.not_eq_true', List.any_eq_false, decide_eq_true_eq, not_and]
    intro their htheir hkey
    have hmem : their.1 ∈ within entry view item.range := hvalues ▸ List.mem_map_of_mem htheir
    exact hf their.1 (mem_within.mp hmem).1 hkey.symm
  have hreply : reads'.answer blake3 entry .default status (.rangeItem item) =
      .ok (if diff.isEmpty then [] else
        [.rangeItem ⟨item.range, withStatus status diff, true⟩]) := by
    simp only [Reads.answer, Reads.replyItem, hlocal, Bool.false_eq_true, if_false,
      h.getRange _ hread, ok_bind, pure_eq_ok, ← hdiff]
  rw [hreply]
  refine ⟨_, rfl, ?_⟩
  by_cases hempty : diff = []
  · rw [hempty] at hfresh ⊢
    constructor <;> simp [MessagePart.isFingerprint]
    intro _ e he hf hr
    simpa using hfresh e he hf hr
  · have hne : diff.isEmpty = false := by simpa using hempty
    rw [hne]
    constructor
    · simp [Sent, hdiff]
    · simp [weight, hlocal]
    · simp
    · simp [MessagePart.range]
    · simp [MessagePart.isOpen, hlocal]
    · simp [MessagePart.isOpen]
    · intro _ e he hf hr
      exact ⟨_, List.mem_singleton.mpr rfl, hr, .inr (by
        simpa [MessagePart.entries, MessagePart.values] using hfresh e he hf hr)⟩
    · simp [MessagePart.isFingerprint]

omit [LinearOrder ν] in
/-- What is sent for a range of a cut: its fingerprint, or its items. -/
lemma chunk_spec (view : List ε) (status : ε → ContentStatus) {range : Range κ}
    (hread : Readable own range) :
    ∃ c, reads'.chunk .default status range = .ok c ∧ c.range = range ∧
      Sent blake3 entry own view' c ∧ c.isOpen = true ∧
      (c.isFingerprint = true ∨ c.entries = within entry view' range) ∧
      weight entry view' view c ≤ (within entry view' range).length +
        (within entry view range).length + 2 := by
  unfold Reads.chunk
  rw [h.getRange _ hread, h.getFingerprint _ hread]
  simp only [ok_bind, pure_eq_ok]
  refine ⟨_, rfl, ?_⟩
  split_ifs with hlen
  · exact ⟨rfl, ⟨hread, rfl⟩, rfl, .inl rfl, le_refl _⟩
  · refine ⟨rfl, ?_, rfl, .inr ?_, ?_⟩
    · simpa [Sent] using hread
    · simp [MessagePart.entries, MessagePart.values]
    · simp only [weight, Bool.false_eq_true, if_false]
      omega

omit h [LinearOrder ν] in
/-- A part of a range that leaves an entry out holds fewer. -/
lemma length_within_lt {range part : Range κ}
    (hsub : ∀ t, part.Contains t → range.Contains t)
    (hleft : ∃ e ∈ view', range.Contains (entry.key e) ∧ ¬ part.Contains (entry.key e)) :
    (within entry view' part).length < (within entry view' range).length := by
  have hpart : within entry view' part =
      (within entry view' range).filter fun e => part.Contains (entry.key e) := by
    unfold within
    rw [List.filter_filter]
    apply List.filter_congr
    intro e _
    rw [← Bool.decide_and, decide_eq_decide]
    exact ⟨fun hp => ⟨hp, hsub _ hp⟩, And.left⟩
  rw [hpart]
  obtain ⟨e, he, hr, hp⟩ := hleft
  exact List.length_filter_lt_length_iff_exists.mpr ⟨e, mem_within.mpr ⟨he, hr⟩, by simpa using hp⟩

omit h [LinearOrder ν] in
lemma length_within_le (view : List ε) {range part : Range κ}
    (hsub : ∀ t, part.Contains t → range.Contains t) :
    (within entry view part).length ≤ (within entry view range).length := by
  apply List.Sublist.length_le
  apply List.monotone_filter_right
  intro e he
  simpa using hsub _ (by simpa using he)

/-- **A fingerprint is answered** by nothing when it is our own, by our entries when they are few,
and otherwise by the two parts of its range.

**Proof sketch.** Where the fingerprints agree neither side has anything to tell
(`Tells.not_fresh`). Where the range is cut, each part leaves out an entry of ours that lies in the
other, so it is lighter. -/
lemma answer_fingerprint {part : RangeFingerprint κ}
    (hsent : Sent blake3 entry own view (.rangeFingerprint part))
    (htells : Tells blake3 entry view view') :
    ∃ children, reads'.answer blake3 entry .default status (.rangeFingerprint part) = .ok children ∧
      Answer blake3 entry own view view' (.rangeFingerprint part) children := by
  obtain ⟨hread, hprint⟩ := hsent
  simp only [Reads.answer, Reads.replyFingerprint, h.getFingerprint _ hread, h.getRange _ hread,
    ok_bind]
  by_cases hsame : fingerprintOf blake3 entry (within entry view' part.range) = part.fingerprint
  · rw [if_pos hsame]
    have heq := hprint.symm.trans hsame.symm
    refine ⟨[], rfl, ?_⟩
    constructor <;> simp
    · intro _ e he hf hr
      exact htells.not_fresh heq he hr hf
    · intro _ e he hf hr
      exact htells.symm.not_fresh heq.symm he hr hf
  · rw [if_neg hsame]
    by_cases hfew : (within entry view' part.range).length ≤ 1 ∨
        part.fingerprint = Fingerprint.empty blake3
    · rw [if_pos hfew]
      refine ⟨_, rfl, ?_⟩
      constructor
      · simpa [Sent] using hread
      · simp [weight]
      · simp
      · simp [MessagePart.range]
      · simp [MessagePart.isOpen]
      · simp [MessagePart.isFingerprint]
      · intro _ e he _ hr
        exact ⟨_, List.mem_singleton.mpr rfl, hr, .inr (by
          simpa [MessagePart.entries, MessagePart.values] using ⟨he, hr⟩)⟩
      · intro _ e he _ hr
        exact ⟨_, List.mem_singleton.mpr rfl, rfl, hr⟩
    · rw [if_neg hfew]
      obtain ⟨hmany, -⟩ := not_or.mp hfew
      obtain ⟨one, other, hsplit, hcut⟩ := h.splitRanges_eq hread (by omega)
      obtain ⟨c, hc, hcr, hcs, hco, hce, hcw⟩ := chunk_spec h view status hcut.readable_one
      obtain ⟨d, hd, hdr, hds, hdo, hde, hdw⟩ := chunk_spec h view status hcut.readable_other
      have hchunks : [one, other].mapM (reads'.chunk .default status) = .ok [c, d] := by
        simp only [List.mapM_cons, List.mapM_nil, hc, hd, ok_bind, pure_eq_ok]
      simp only [hsplit, ok_bind, hchunks]
      refine ⟨[c, d], rfl, ?_⟩
      have hone : ∀ t, one.Contains t → part.range.Contains t :=
        fun t ht => (hcut.contains_iff t).mpr (.inl ht)
      have hother : ∀ t, other.Contains t → part.range.Contains t :=
        fun t ht => (hcut.contains_iff t).mpr (.inr ht)
      have hlight : ∀ {r : Range κ}, (∀ t, r.Contains t → part.range.Contains t) →
          (∃ e ∈ view', part.range.Contains (entry.key e) ∧ ¬ r.Contains (entry.key e)) →
          (within entry view' r).length + (within entry view r).length + 2 <
            weight entry view view' (.rangeFingerprint part) := by
        intro r hsub hleft
        have hlt := length_within_lt hsub hleft
        have hle : (within entry view r).length ≤ (within entry view part.range).length :=
          length_within_le view hsub
        simp only [weight]
        omega
      constructor
      · simp [hcs, hds]
      · obtain ⟨e, he, heo⟩ := hcut.exists_one
        obtain ⟨e', he', heo'⟩ := hcut.exists_other
        have hcl := hlight hone ⟨e', he', hother _ heo', fun ho => hcut.disjoint _ ho heo'⟩
        have hdl := hlight hother ⟨e, he, hone _ heo, hcut.disjoint _ heo⟩
        simpa using ⟨hcw.trans_lt hcl, hdw.trans_lt hdl⟩
      · grind [Apart, hcut.disjoint]
      · simpa [hcr, hdr] using ⟨hone, hother⟩
      · simp [MessagePart.isOpen]
      · simp [MessagePart.isFingerprint]
      · intro _ e he _ hr
        rcases (hcut.contains_iff _).mp hr with ho | ho
        · refine ⟨c, by simp, hcr ▸ ho, hce.imp_right fun hents => ?_⟩
          rw [hents]
          exact mem_within.mpr ⟨he, ho⟩
        · refine ⟨d, by simp, hdr ▸ ho, hde.imp_right fun hents => ?_⟩
          rw [hents]
          exact mem_within.mpr ⟨he, ho⟩
      · intro _ e _ _ hr
        rcases (hcut.contains_iff _).mp hr with ho | ho
        · exact ⟨c, by simp, hco, hcr ▸ ho⟩
        · exact ⟨d, by simp, hdo, hdr ▸ ho⟩

/-- **One part is answered without an error**, and the answer is an `Answer`. -/
lemma answer_part (status : ε → ContentStatus) {part : MessagePart ε κ}
    (hsent : Sent blake3 entry own view part)
    (htells : Tells blake3 entry view view') :
    ∃ children, reads'.answer blake3 entry .default status part = .ok children ∧
      Answer blake3 entry own view view' part children := by
  cases part with
  | rangeFingerprint part => exact answer_fingerprint h hsent htells
  | rangeItem item =>
    cases hlocal : item.haveLocal with
    | true => exact ⟨[], answer_haveLocal hlocal⟩
    | false => exact answer_item h hlocal hsent

end AnswerPart

/-! ## What a message settles -/

/-- What one side sends of its list about some keys: entries of these keys, none twice, and all that
the other side's list holds nothing as new as. -/
structure Covers (view view' : List ε) (concerned : κ → Prop) (sent : List ε) : Prop where
  nodup : (sent.map entry.key).Nodup
  mem : ∀ e ∈ sent, e ∈ view ∧ concerned (entry.key e)
  all : ∀ e ∈ view, Fresh entry view' e → concerned (entry.key e) → e ∈ sent

/-- What the two sides send to settle the parts of a message: the side that receives it sends `back`
what the open parts ask for, and the side that sent it sends `further` what the answers to its
fingerprints ask for. -/
structure Told (view view' : List ε) (parts : List (MessagePart ε κ)) (back further : List ε) :
    Prop where
  back : Covers entry view' view
    (fun t => ∃ p ∈ parts, p.isOpen = true ∧ p.range.Contains t) back
  further : Covers entry view view'
    (fun t => ∃ p ∈ parts, p.isFingerprint = true ∧ p.range.Contains t) further

section Settle

variable {blake3 entry} {own : κ → Prop} {view view' : List ε}

omit [LinearOrder ν] in
lemma Apart.symm {part part' : MessagePart ε κ} (h : Apart part part') : Apart part' part :=
  fun t ht' ht => h t ht ht'

omit [LinearOrder ν] in
lemma Sent.entries_sublist {part : MessagePart ε κ} (h : Sent blake3 entry own view part) :
    part.entries.Sublist (within entry view part.range) := by
  cases part with
  | rangeFingerprint part => exact List.nil_sublist _
  | rangeItem item =>
    simp only [Sent] at h
    split_ifs at h with hlocal
    · exact h
    · exact h.2 ▸ List.Sublist.refl _

omit [LinearOrder κ] [LinearOrder ν] in
lemma MessagePart.not_isFingerprint {part : MessagePart ε κ} {e : ε} (h : e ∈ part.entries) :
    part.isFingerprint = false := by
  cases part with
  | rangeFingerprint part => simp [MessagePart.entries, MessagePart.values] at h
  | rangeItem item => rfl

omit [LinearOrder ν] in
/-- Parts that are apart carry no key twice. -/
lemma nodup_entries {parts : List (MessagePart ε κ)}
    (hsorted : view.Pairwise fun a b => entry.key a < entry.key b)
    (hsent : ∀ p ∈ parts, Sent blake3 entry own view p) (hapart : parts.Pairwise Apart) :
    ((parts.flatMap MessagePart.entries).map entry.key).Nodup := by
  unfold List.Nodup
  rw [List.pairwise_map, List.pairwise_flatMap]
  constructor
  · intro p hp
    have hsub := (hsent p hp).entries_sublist
    exact ((hsorted.filter _).sublist hsub).imp fun hlt => hlt.ne
  · apply hapart.imp_of_mem
    intro p q hp hq hpq a ha b hb heq
    have har := (mem_within.mp ((hsent p hp).entries_sublist.mem ha)).2
    have hbr := (mem_within.mp ((hsent q hq).entries_sublist.mem hb)).2
    exact hpq _ har (heq ▸ hbr)

variable {parts children : List (MessagePart ε κ)}
  {child : MessagePart ε κ → List (MessagePart ε κ)}
  (hanswer : ∀ p ∈ parts, Answer blake3 entry own view view' p (child p))
  (hperm : children.Perm (parts.flatMap child))

include hanswer hperm

lemma exists_parent {c : MessagePart ε κ} (hc : c ∈ children) :
    ∃ p ∈ parts, c ∈ child p ∧ Answer blake3 entry own view view' p (child p) := by
  obtain ⟨p, hp, hcp⟩ := List.mem_flatMap.mp (hperm.mem_iff.mp hc)
  exact ⟨p, hp, hcp, hanswer p hp⟩

lemma apart_children (hapart : parts.Pairwise Apart) : children.Pairwise Apart := by
  have hflat : (parts.flatMap child).Pairwise Apart := by
    apply List.pairwise_flatMap.mpr
    refine ⟨fun p hp => (hanswer p hp).apart, hapart.imp_of_mem ?_⟩
    intro p q hp hq hpq c hc d hd t hct hdt
    exact hpq t ((hanswer p hp).inside c hc t hct) ((hanswer q hq).inside d hd t hdt)
  exact (hperm.pairwise_iff fun h => h.symm).mpr hflat

/-- **Settling the answer settles the message.** What the answer carries, and what its fingerprints
then bring out, is what the open parts of the message ask for; what is sent back for the answer is
what the answers to the fingerprints of the message ask for.

**Proof sketch.** An entry the open parts ask for is carried by the answer or lies in the range of a
fingerprint of it. No entry is both, the parts of the answer being apart. -/
lemma Told.of_answer (hsorted : view'.Pairwise fun a b => entry.key a < entry.key b)
    (hapart : parts.Pairwise Apart) {back further : List ε}
    (h : Told entry view' view children back further) :
    Told entry view view' parts (children.flatMap MessagePart.entries ++ further) back := by
  have hchildren := apart_children hanswer hperm hapart
  have hsent : ∀ c ∈ children, Sent blake3 entry own view' c := by
    intro c hc
    obtain ⟨p, -, hcp, hp⟩ := exists_parent hanswer hperm hc
    exact hp.sent c hcp
  have hmem : ∀ {p c : MessagePart ε κ}, p ∈ parts → c ∈ child p → c ∈ children :=
    fun hp hc => hperm.mem_iff.mpr (List.mem_flatMap.mpr ⟨_, hp, hc⟩)
  refine ⟨⟨?_, ?_, ?_⟩, ⟨h.back.nodup, ?_, ?_⟩⟩
  · -- no key is sent twice
    rw [List.map_append]
    apply List.Nodup.append (nodup_entries hsorted hsent hchildren) h.further.nodup
    intro k hk hk'
    obtain ⟨e, he, rfl⟩ := List.mem_map.mp hk
    obtain ⟨e', he', hkey⟩ := List.mem_map.mp hk'
    obtain ⟨c, hc, hec⟩ := List.mem_flatMap.mp he
    obtain ⟨-, d, hd, hdf, hdr⟩ := h.further.mem e' he'
    have hcr := (mem_within.mp ((hsent c hc).entries_sublist.mem hec)).2
    have hcd : c ≠ d := by
      rintro rfl
      rw [MessagePart.not_isFingerprint hec] at hdf
      cases hdf
    have hsymm : Std.Symm (Apart : MessagePart ε κ → MessagePart ε κ → Prop) :=
      ⟨fun _ _ hab => hab.symm⟩
    exact hchildren.forall hc hd hcd _ hcr (hkey ▸ hdr)
  · intro e he
    rcases List.mem_append.mp he with he | he
    · obtain ⟨c, hc, hec⟩ := List.mem_flatMap.mp he
      obtain ⟨p, hp, hcp, hans⟩ := exists_parent hanswer hperm hc
      obtain ⟨hev, her⟩ := mem_within.mp ((hans.sent c hcp).entries_sublist.mem hec)
      exact ⟨hev, p, hp, hans.isOpen c hcp, hans.inside c hcp _ her⟩
    · obtain ⟨hev, c, hc, -, hcr⟩ := h.further.mem e he
      obtain ⟨p, hp, hcp, hans⟩ := exists_parent hanswer hperm hc
      exact ⟨hev, p, hp, hans.isOpen c hcp, hans.inside c hcp _ hcr⟩
  · rintro e he hfresh ⟨p, hp, hopen, hr⟩
    obtain ⟨c, hc, hcr, hcf | hce⟩ := (hanswer p hp).answered hopen e he hfresh hr
    · exact List.mem_append.mpr (.inr (h.further.all e he hfresh ⟨c, hmem hp hc, hcf, hcr⟩))
    · exact List.mem_append.mpr (.inl (List.mem_flatMap.mpr ⟨c, hmem hp hc, hce⟩))
  · intro e he
    obtain ⟨hev, c, hc, hco, hcr⟩ := h.back.mem e he
    obtain ⟨p, hp, hcp, hans⟩ := exists_parent hanswer hperm hc
    exact ⟨hev, p, hp, hans.isFingerprint c hcp hco, hans.inside c hcp _ hcr⟩
  · rintro e he hfresh ⟨p, hp, hfp, hr⟩
    obtain ⟨c, hc, hco, hcr⟩ := (hanswer p hp).asked hfp e he hfresh hr
    exact h.back.all e he hfresh ⟨c, hmem hp hc, hco, hcr⟩

end Settle

omit [LinearOrder κ] in
variable {entry} in
lemma Told.nil [LinearOrder κ] {view view' : List ε} :
    Told entry view view' ([] : List (MessagePart ε κ)) [] [] := by
  constructor <;> constructor <;> simp

/-! ## Two sides in turn -/

/-- The entries a message carries. -/
def Message.entries (message : Message ε κ) : List ε := message.parts.flatMap MessagePart.entries

/-- The messages two sides send in turn after one is on its way to the second, if they come to an
end within so many answers. -/
def talk (reads reads' : Reads ε κ) (status : ℕ → ε → ContentStatus) :
    ℕ → ℕ → Message ε κ → Option (List (Message ε κ))
  | 0, _, _ => none
  | fuel + 1, round, incoming =>
    match reads'.reply blake3 entry .default (status round) incoming with
    | .error _ => none
    | .ok none => some []
    | .ok (some answer) =>
      (talk reads' reads status fuel (round + 1) answer).map fun rest => answer :: rest

/-- The entries sent by the side that sends the first of the messages, and by the other side. -/
def byTurns : List (Message ε κ) → List ε × List ε
  | [] => ([], [])
  | message :: rest => (message.entries ++ (byTurns rest).2, (byTurns rest).1)

variable {blake3 entry}

/-- A message whose parts are answered is answered by the answers together, in some order. -/
lemma Reads.reply_eq {reads : Reads ε κ} {status : ε → ContentStatus}
    {child : MessagePart ε κ → List (MessagePart ε κ)} {incoming : Message ε κ}
    (h : ∀ p ∈ incoming.parts, reads.answer blake3 entry .default status p = .ok (child p)) :
    ∃ children, reads.reply blake3 entry .default status incoming = .ok (Reads.message children) ∧
      children.Perm (incoming.parts.flatMap child) := by
  have hitems : incoming.items.mapM (reads.replyItem entry status) =
      .ok (incoming.items.map fun item => child (.rangeItem item)) := by
    apply mapM_eq_ok
    intro item hitem
    obtain ⟨p, hp, hpi⟩ := List.mem_filterMap.mp hitem
    cases p with
    | rangeFingerprint part => cases hpi
    | rangeItem item' =>
      cases hpi
      exact h _ hp
  have hprints : incoming.fingerprints.mapM (reads.replyFingerprint blake3 entry .default status) =
      .ok (incoming.fingerprints.map fun part => child (.rangeFingerprint part)) := by
    apply mapM_eq_ok
    intro part hpart
    obtain ⟨p, hp, hpi⟩ := List.mem_filterMap.mp hpart
    cases p with
    | rangeItem item => cases hpi
    | rangeFingerprint part' =>
      cases hpi
      exact h _ hp
  refine ⟨(incoming.items.map fun item => child (.rangeItem item)).flatten ++
      (incoming.fingerprints.map fun part => child (.rangeFingerprint part)).flatten,
    by simp only [Reads.reply, hitems, hprints, ok_bind, pure_eq_ok], ?_⟩
  clear h hitems hprints
  obtain ⟨parts⟩ := incoming
  simp only [Message.items, Message.fingerprints]
  induction parts with
  | nil => simp
  | cons p parts ih =>
    cases p with
    | rangeItem item =>
      simpa [List.append_assoc] using ih.append_left (child (.rangeItem item))
    | rangeFingerprint part =>
      simp only [List.filterMap_cons_none, List.flatMap_cons]
      exact (List.perm_append_comm_assoc _ _ _).trans (ih.append_left _)

lemma exists_answer {own : κ → Prop} {reads' : Reads ε κ} {view view' : List ε}
    (status : ε → ContentStatus) {incoming : Message ε κ}
    (h' : Shows blake3 entry own reads' view') (htells : Tells blake3 entry view view')
    (hsent : ∀ p ∈ incoming.parts, Sent blake3 entry own view p) :
    ∃ children, reads'.reply blake3 entry .default status incoming = .ok (Reads.message children) ∧
      ∃ child, children.Perm (incoming.parts.flatMap child) ∧
        ∀ p ∈ incoming.parts, Answer blake3 entry own view view' p (child p) := by
  choose! child hanswer using fun p hp => answer_part h' status (hsent p hp) htells
  obtain ⟨children, hreply, hperm⟩ := Reads.reply_eq fun p hp => (hanswer p hp).1
  exact ⟨children, hreply, child, hperm, fun p hp => (hanswer p hp).2⟩

/-- **Two sides that answer each other come to an end**, having sent what settles the parts of the
message, within as many answers as its heaviest part weighs.

**Proof sketch.** Induction on the weight. The parts of the answer are lighter, apart, and about the
same keys, with the two sides in each other's place; what settles them settles the message
(`Told.of_answer`). -/
lemma talk_told {own : κ → Prop} {status : ℕ → ε → ContentStatus} {n : ℕ} :
    ∀ {reads reads' : Reads ε κ} {view view' : List ε} {incoming : Message ε κ} {fuel round : ℕ},
      Shows blake3 entry own reads view → Shows blake3 entry own reads' view' →
      Tells blake3 entry view view' →
      (∀ p ∈ incoming.parts, Sent blake3 entry own view p) → incoming.parts.Pairwise Apart →
      (∀ p ∈ incoming.parts, weight entry view view' p ≤ n) → n < fuel →
      ∃ messages, talk blake3 entry reads reads' status fuel round incoming = some messages ∧
        Told entry view view' incoming.parts (byTurns messages).1 (byTurns messages).2 := by
  induction n with
  | zero =>
    intro reads reads' view view' incoming fuel round h h' htells hsent hapart hweight hfuel
    obtain ⟨fuel, rfl⟩ := Nat.exists_eq_succ_of_ne_zero (by omega : fuel ≠ 0)
    obtain ⟨children, hreply, child, hperm, hanswer⟩ := exists_answer (status round) h' htells hsent
    have hnil : children = [] := by
      apply List.eq_nil_iff_forall_not_mem.mpr
      intro c hc
      obtain ⟨p, hp, hcp, hans⟩ := exists_parent hanswer hperm hc
      have := hans.lighter c hcp
      have := hweight p hp
      omega
    subst hnil
    refine ⟨[], by simp only [talk, hreply]; rfl, ?_⟩
    exact Told.of_answer hanswer hperm h'.sorted hapart Told.nil
  | succ n ih =>
    intro reads reads' view view' incoming fuel round h h' htells hsent hapart hweight hfuel
    obtain ⟨fuel, rfl⟩ := Nat.exists_eq_succ_of_ne_zero (by omega : fuel ≠ 0)
    obtain ⟨children, hreply, child, hperm, hanswer⟩ := exists_answer (status round) h' htells hsent
    by_cases hnil : children = []
    · subst hnil
      refine ⟨[], by simp only [talk, hreply]; rfl, ?_⟩
      exact Told.of_answer hanswer hperm h'.sorted hapart Told.nil
    · have hmessage : Reads.message children = some ⟨children⟩ := by
        simp [Reads.message, hnil]
      have hsent' : ∀ c ∈ children, Sent blake3 entry own view' c := by
        intro c hc
        obtain ⟨p, -, hcp, hans⟩ := exists_parent hanswer hperm hc
        exact hans.sent c hcp
      have hweight' : ∀ c ∈ children, weight entry view' view c ≤ n := by
        intro c hc
        obtain ⟨p, hp, hcp, hans⟩ := exists_parent hanswer hperm hc
        have := hans.lighter c hcp
        have := hweight p hp
        omega
      obtain ⟨messages, htalk, htold⟩ := @ih reads' reads view' view ⟨children⟩ fuel (round + 1)
        h' h htells.symm hsent' (apart_children hanswer hperm hapart) hweight' (by omega)
      refine ⟨⟨children⟩ :: messages, by simp only [talk, hreply, hmessage, htalk]; rfl, ?_⟩
      exact Told.of_answer hanswer hperm h'.sorted hapart htold

/-- **A reconciliation comes to an end, having brought across all there is to tell**, within a
number of answers that the number of entries of both sides bounds.

**Proof sketch.** The initial message is the fingerprint of the whole range, which concerns every
key. -/
lemma talk_init {own : κ → Prop} (status : ℕ → ε → ContentStatus) {reads reads' : Reads ε κ}
    {view view' : List ε} {x : κ} (h : Shows blake3 entry own reads view)
    (h' : Shows blake3 entry own reads' view') (htells : Tells blake3 entry view view')
    (hx : reads.getFirst = .ok x) (round : ℕ) {fuel : ℕ}
    (hfuel : view.length + view'.length + 2 < fuel) :
    ∃ first messages, Message.init reads = .ok first ∧ first.entries = [] ∧
      talk blake3 entry reads reads' status fuel round first = some messages ∧
      Covers entry view' view (fun _ => True) (byTurns messages).1 ∧
      Covers entry view view' (fun _ => True) (byTurns messages).2 := by
  have hread : Readable own (⟨x, x⟩ : Range κ) := .inl rfl
  set fingerprint := fingerprintOf blake3 entry (within entry view ⟨x, x⟩) with hprint
  set first : Message ε κ := ⟨[.rangeFingerprint ⟨⟨x, x⟩, fingerprint⟩]⟩ with hfirst
  have hinit : Message.init reads = .ok first := by
    simp only [Message.init, hx, ok_bind, h.getFingerprint _ hread, pure_eq_ok, hfirst, hprint]
  have hweight : ∀ p ∈ first.parts,
      weight entry view view' p ≤ view.length + view'.length + 2 := by
    intro p hp
    rw [List.mem_singleton.mp hp]
    have hview : (within entry view ⟨x, x⟩).length ≤ view.length := List.length_filter_le _ _
    have hview' : (within entry view' ⟨x, x⟩).length ≤ view'.length := List.length_filter_le _ _
    simp only [weight]
    omega
  have hsent : ∀ p ∈ first.parts, Sent blake3 entry own view p := by
    intro p hp
    rw [List.mem_singleton.mp hp]
    exact ⟨hread, hprint⟩
  obtain ⟨messages, htalk, htold⟩ := @talk_told _ _ _ _ _ _ _ own status _ reads reads' view view'
    first fuel round h h' htells hsent (List.pairwise_singleton _ _) hweight hfuel
  -- the one part is an open fingerprint that concerns every key
  have hopen : (fun t => ∃ p ∈ first.parts, p.isOpen = true ∧ p.range.Contains t) =
      fun _ => True := by
    funext t
    simp [hfirst, MessagePart.isOpen, MessagePart.range]
  have hprints : (fun t => ∃ p ∈ first.parts, p.isFingerprint = true ∧ p.range.Contains t) =
      fun _ => True := by
    funext t
    simp [hfirst, MessagePart.isFingerprint, MessagePart.range]
  exact ⟨first, messages, hinit, rfl, htalk, hopen ▸ htold.back, hprints ▸ htold.further⟩

end MeePdn.PdnStore.Ranger
