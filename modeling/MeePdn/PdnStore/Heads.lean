import MeePdn.Postcard
import MeePdn.PdnStore.Fs.Tables
import MeePdn.PdnStore.Testing

/-!
# Author heads on the wire

`AuthorHeads` of `pdn-store/src/heads.rs`: per author, the greatest timestamp a replica holds, and
the bytes a report carries of it. The encoder sorts the heads by timestamp in a map from timestamps
to authors, so of the authors with one timestamp it encodes one.

## Main definitions

* `AuthorHeads`, `AuthorHeads.insert` — the heads.
* `AuthorHeads.byTimestamp` — the map from timestamps to authors.
* `AuthorHeads.fitting` — the loop that takes heads as long as they fit.
* `AuthorHeads.encode`, `AuthorHeads.decode` — the bytes, and the heads read back.

## Main results

* `AuthorHeads.fitting_spec` — what the loop takes fits, and the next head would not.
* `AuthorHeads.decode_encode` — the heads read back are those taken.
* `heads_survive_encoding` — where no two authors have one timestamp, and only there, all heads
  survive an encoding without limit; and there a limit leaves out the oldest.
* `Testing.equal_heads_lost` — of two authors with one timestamp one is lost.
-/

namespace MeePdn.PdnStore

open Postcard
open scoped Fs

/-- An array of bytes, as it is written. -/
def bytesFormat (wire : Wire) (n : ℕ) : Format (Bytes n) :=
  (wire.raw n).iso (fun bytes => ⟨bytes.1, Format.length_val bytes⟩)
    (fun bytes => ⟨bytes.toList, bytes.length_toList⟩) fun _ => rfl

/-- `AuthorHeads`: a map from authors to timestamps. -/
abbrev AuthorHeads := Keyed.Table (Prod.fst : AuthorId × UInt64 → AuthorId)

namespace AuthorHeads

/-- `AuthorHeads::insert`. -/
def insert (heads : AuthorHeads) (author : AuthorId) (timestamp : UInt64) : AuthorHeads :=
  match heads.get author with
  | some (_, t) => Keyed.Table.insert heads (author, if t ≤ timestamp then timestamp else t)
  | none => Keyed.Table.insert heads (author, timestamp)

/-- `BTreeMap<Timestamp, AuthorId>`. -/
abbrev ByTimestamp := Keyed.Table (fun item : UInt64 × AuthorId => item.1.toNat)

/-- The heads by timestamp: the author inserted last stays. -/
def byTimestamp (heads : AuthorHeads) : ByTimestamp :=
  heads.rows.foldl (fun items head => items.insert (head.2, head.1)) .empty

/-- The heads of a list of items. -/
def ofItems (items : List (UInt64 × AuthorId)) : AuthorHeads :=
  items.foldl (fun heads item => heads.insert item.2 item.1) .empty

/-- `AuthorHeads::has_news_for`: how many authors one can offer newer entries of. -/
def hasNewsFor (heads other : AuthorHeads) : Option ℕ :=
  let updates := heads.rows.countP fun head =>
    (other.get head.1).all fun theirs => theirs.2 < head.2
  if updates = 0 then none else some updates

section Wire

variable (wire : Wire)

/-- `AuthorId`, as it is written. -/
def authorFormat : Format AuthorId :=
  (bytesFormat wire 32).iso AuthorId.mk AuthorId.bytes fun _ => rfl

/-- `Vec<(Timestamp, AuthorId)>`, as it is written. -/
def itemsFormat : Format (List (UInt64 × AuthorId)) :=
  wire.seq (wire.u64.pair (authorFormat wire))

/-- `postcard::experimental::serialized_size`. -/
def serializedSize (items : List (UInt64 × AuthorId)) : ℕ :=
  ((itemsFormat wire).encode items).length

/-- The loop of `AuthorHeads::encode`: heads are taken as long as they fit. -/
def fitting (sizeLimit : Option UInt64) (items : List (UInt64 × AuthorId)) :
    List (UInt64 × AuthorId) → List (UInt64 × AuthorId)
  | [] => items
  | item :: rest =>
    if ∃ limit ∈ sizeLimit, limit.toNat < serializedSize wire (items ++ [item]) then items
    else fitting sizeLimit (items ++ [item]) rest

/-- The heads `AuthorHeads::encode` takes, the newest first. -/
def taken (heads : AuthorHeads) (sizeLimit : Option UInt64) : List (UInt64 × AuthorId) :=
  fitting wire sizeLimit [] heads.byTimestamp.rows.reverse

/-- `AuthorHeads::encode`. -/
def encode (heads : AuthorHeads) (sizeLimit : Option UInt64) : List UInt8 :=
  (itemsFormat wire).encode (heads.taken wire sizeLimit)

/-- `AuthorHeads::decode`. -/
def decode (bytes : List UInt8) : Option AuthorHeads :=
  ((itemsFormat wire).fromBytes bytes).map ofItems

end Wire

/-! ## What is taken -/

variable {wire : Wire} {items : List (UInt64 × AuthorId)} {limit : UInt64}

/-- The items are counted in the bytes. -/
lemma length_le_serializedSize (items : List (UInt64 × AuthorId)) :
    items.length ≤ serializedSize wire items := by
  have hitem : ∀ item, 1 ≤ ((wire.u64.pair (authorFormat wire)).encode item).length := by
    intro item
    have hpos := wire.length_u64_pos item.1
    simp only [Format.pair, List.length_append]
    omega
  have hitems :
      items.length ≤ (items.flatMap (wire.u64.pair (authorFormat wire)).encode).length := by
    induction items with
    | nil => exact Nat.zero_le _
    | cons item items ih => grind
  rw [serializedSize, itemsFormat, wire.length_seq]
  omega

lemma serializedSize_nil : serializedSize wire [] = 1 := by
  rw [serializedSize, itemsFormat, wire.length_seq]
  exact wire.length_u64_zero

lemma valid_items (h : items.length < 2 ^ 64) : (itemsFormat wire).Valid items :=
  wire.valid_seq h fun _ _ => ⟨wire.valid_u64 _, wire.valid_raw _ _⟩

lemma fitting_none (items rest : List (UInt64 × AuthorId)) :
    fitting wire none items rest = items ++ rest := by
  induction rest generalizing items with
  | nil => simp [fitting]
  | cons item rest ih => simp [fitting, ih]

/-- **What the loop takes fits, and the next item would not.**

**Proof sketch.** By induction on the items that are left, from items that fit. -/
lemma fitting_spec (items rest : List (UInt64 × AuthorId))
    (h : serializedSize wire items ≤ limit.toNat) :
    ∃ more left, rest = more ++ left ∧ fitting wire (some limit) items rest = items ++ more ∧
      serializedSize wire (items ++ more) ≤ limit.toNat ∧ ∀ next later, left = next :: later →
        limit.toNat < serializedSize wire (items ++ more ++ [next]) := by
  induction rest generalizing items with
  | nil => exact ⟨[], [], rfl, (List.append_nil _).symm, by simpa using h, by simp⟩
  | cons item rest ih =>
    rw [fitting]
    split_ifs with hover
    · refine ⟨[], item :: rest, rfl, (List.append_nil _).symm, by simpa using h, ?_⟩
      rintro next later ⟨⟩
      simpa using hover
    · grind

/-! ## What is encoded -/

section Items

variable {heads : AuthorHeads}

/-- The timestamps of no two authors are the same. -/
def Distinct (heads : AuthorHeads) : Prop := (heads.rows.map Prod.snd).Nodup

lemma byTimestamp_eq (heads : AuthorHeads) :
    heads.byTimestamp = (heads.rows.map Prod.swap).foldl Keyed.Table.insert .empty := by
  rw [byTimestamp, List.foldl_map]
  rfl

lemma mem_of_mem_byTimestamp {item : UInt64 × AuthorId} (h : item ∈ heads.byTimestamp.rows) :
    item.swap ∈ heads.rows := by
  rw [byTimestamp_eq] at h
  obtain ⟨head, hhead, rfl⟩ :=
    List.mem_map.mp ((Keyed.Table.of_mem_foldl_insert h).resolve_right List.not_mem_nil)
  exact hhead

/-- **Every head is there by timestamp where the timestamps are distinct.** -/
lemma mem_byTimestamp_iff (h : heads.Distinct) {item : UInt64 × AuthorId} :
    item ∈ heads.byTimestamp.rows ↔ item.swap ∈ heads.rows := by
  refine ⟨mem_of_mem_byTimestamp, fun hitem => ?_⟩
  have hkeys :
      ((heads.rows.map Prod.swap).map fun item : UInt64 × AuthorId => item.1.toNat).Nodup := by
    have hmap := h.map (f := UInt64.toNat) fun _ _ => UInt64.toNat_inj.mp
    simpa [List.map_map, Function.comp_def] using hmap
  rw [byTimestamp_eq, Keyed.Table.mem_foldl_insert_empty hkeys]
  exact List.mem_map.mpr ⟨_, hitem, Prod.swap_swap item⟩

lemma taken_none (heads : AuthorHeads) : heads.taken wire none = heads.byTimestamp.rows.reverse :=
  fitting_none _ _

/-- Heads sorted by falling timestamps are what is taken without a limit. -/
lemma taken_none_eq (hsorted : items.Pairwise fun a b => b.1.toNat < a.1.toNat)
    (hmem : ∀ item, item ∈ items ↔ item.swap ∈ heads.rows) : heads.taken wire none = items := by
  let sorted : ByTimestamp := ⟨items.reverse, List.pairwise_reverse.mpr hsorted⟩
  have hswap : ∀ head, head ∈ heads.rows ↔ head.swap ∈ sorted.rows := by
    intro head
    rw [List.mem_reverse, hmem, Prod.swap_swap]
  have hdistinct : heads.Distinct := by
    refine List.Nodup.map_on (fun a ha b hb heq => ?_) heads.nodup_rows
    have hsame := sorted.eq_of_key_eq ((hswap a).mp ha) ((hswap b).mp hb)
      (congrArg UInt64.toNat heq)
    exact Prod.swap_injective hsame
  have htable : heads.byTimestamp = sorted := by
    apply Keyed.Table.ext_mem
    intro item
    rw [mem_byTimestamp_iff hdistinct, hswap, Prod.swap_swap]
  rw [taken_none, htable, List.reverse_reverse]

/-- An insertion keeps the greater of an author's timestamps. -/
lemma insert_eq_put (heads : AuthorHeads) (author : AuthorId) (timestamp : UInt64) :
    heads.insert author timestamp =
      Keyed.Table.put (fun head => head.2.toNat) heads (author, timestamp) := by
  unfold insert Keyed.Table.put
  cases hget : heads.get author with
  | none => rfl
  | some head =>
    obtain ⟨author', t⟩ := head
    obtain rfl : author' = author := (Keyed.Table.get_eq_some.mp hget).2
    simp only
    by_cases hle : timestamp.toNat ≤ t.toNat
    · -- the row there is the one inserted
      have hsame : (if t ≤ timestamp then timestamp else t) = t := by
        split_ifs with hge
        · exact UInt64.le_antisymm (UInt64.le_iff_toNat_le.mpr hle) hge
        · rfl
      rw [hsame, if_pos hle]
      apply Keyed.Table.ext_get
      intro k
      rw [Keyed.Table.get_insert]
      split_ifs with hk
      · rw [← hk, hget]
      · rfl
    · have hlt : t ≤ timestamp := UInt64.le_iff_toNat_le.mpr (by omega)
      rw [if_pos hlt, if_neg hle]

/-- Where the authors of items are different, the heads read back are the items. -/
lemma mem_ofItems (h : (items.map Prod.snd).Nodup)
    {head : AuthorId × UInt64} : head ∈ (ofItems items).rows ↔ head.swap ∈ items := by
  have hput : ofItems items =
      (items.map Prod.swap).foldl (Keyed.Table.put fun head => head.2.toNat) .empty := by
    rw [ofItems, List.foldl_map]
    exact congrFun (congrFun (congrArg List.foldl (funext fun heads => funext fun item =>
      heads.insert_eq_put item.2 item.1)) _) _
  have hkeys : ((items.map Prod.swap).map Prod.fst).Nodup := by
    simpa [List.map_map, Function.comp_def] using h
  rw [hput, Keyed.Table.mem_foldl_put_empty _ hkeys, List.mem_map]
  constructor
  · rintro ⟨item, hitem, rfl⟩
    rwa [Prod.swap_swap]
  · intro hitem
    exact ⟨_, hitem, Prod.swap_swap head⟩

lemma nodup_authors {left : List (UInt64 × AuthorId)}
    (h : heads.byTimestamp.rows.reverse = items ++ left) : (items.map Prod.snd).Nodup := by
  have hnodup : heads.byTimestamp.rows.reverse.Nodup :=
    List.nodup_reverse.mpr heads.byTimestamp.nodup_rows
  rw [h] at hnodup
  have hhead : ∀ item ∈ items, item.swap ∈ heads.rows := by
    intro item hitem
    apply mem_of_mem_byTimestamp
    rw [← List.mem_reverse, h]
    exact List.mem_append_left _ hitem
  refine List.Nodup.map_on (fun a ha b hb heq => ?_) hnodup.of_append_left
  exact Prod.swap_injective (heads.eq_of_key_eq (hhead a ha) (hhead b hb) heq)

/-- **The heads read back are those taken**, as many as a vector may hold. -/
lemma decode_encode {sizeLimit : Option UInt64} (h : (heads.taken wire sizeLimit).length < 2 ^ 64) :
    decode wire (heads.encode wire sizeLimit) = some (ofItems (heads.taken wire sizeLimit)) := by
  rw [decode, encode, (itemsFormat wire).fromBytes_encode (valid_items h), Option.map_some]

lemma taken_some (heads : AuthorHeads) (h : 1 ≤ limit.toNat) :
    ∃ left, heads.byTimestamp.rows.reverse = heads.taken wire (some limit) ++ left ∧
      serializedSize wire (heads.taken wire (some limit)) ≤ limit.toNat ∧
      ∀ next later, left = next :: later →
        limit.toNat < serializedSize wire (heads.taken wire (some limit) ++ [next]) := by
  obtain ⟨more, left, hsplit, hfitting, hsize, hnext⟩ :=
    fitting_spec [] heads.byTimestamp.rows.reverse (serializedSize_nil.trans_le h)
  rw [List.nil_append] at hfitting hsize hnext
  have htaken : heads.taken wire (some limit) = more := hfitting
  rw [htaken]
  exact ⟨left, hsplit, hsize, hnext⟩

lemma decode_encode_some (wire : Wire) (heads : AuthorHeads) (h : 1 ≤ limit.toNat) :
    decode wire (heads.encode wire (some limit)) = some (ofItems (heads.taken wire (some limit))) ∧
      (heads.encode wire (some limit)).length ≤ limit.toNat ∧
      ∀ head ∈ (ofItems (heads.taken wire (some limit))).rows, head ∈ heads.rows := by
  obtain ⟨left, hsplit, hsize, -⟩ := heads.taken_some h
  have hlength : (heads.taken wire (some limit)).length < 2 ^ 64 :=
    ((length_le_serializedSize _).trans hsize).trans_lt limit.toNat_lt
  refine ⟨decode_encode hlength, hsize, fun head hhead => ?_⟩
  have hitem : head.swap ∈ heads.byTimestamp.rows := by
    rw [← List.mem_reverse, hsplit]
    exact List.mem_append_left _ ((mem_ofItems (nodup_authors hsplit)).mp hhead)
  have hmem := mem_of_mem_byTimestamp hitem
  rwa [Prod.swap_swap] at hmem

/-- Without a limit the heads read back are the heads exactly where the timestamps are distinct. -/
lemma decode_encode_none_iff (h : heads.rows.length < 2 ^ 64) :
    decode wire (heads.encode wire none) = some heads ↔ heads.Distinct := by
  have hlength : (heads.taken wire none).length < 2 ^ 64 := by
    have hsub : heads.byTimestamp.rows.length ≤ (heads.rows.map Prod.swap).length := by
      refine (List.subperm_of_subset heads.byTimestamp.nodup_rows fun item hitem => ?_).length_le
      exact List.mem_map.mpr ⟨_, mem_of_mem_byTimestamp hitem, Prod.swap_swap item⟩
    rw [taken_none, List.length_reverse]
    rw [List.length_map] at hsub
    omega
  have hread : ∀ {head}, head ∈ (ofItems (heads.taken wire none)).rows ↔
      head.swap ∈ heads.byTimestamp.rows := by
    intro head
    have hsplit : heads.byTimestamp.rows.reverse = heads.taken wire none ++ [] := by
      rw [taken_none, List.append_nil]
    rw [mem_ofItems (nodup_authors hsplit), taken_none, List.mem_reverse]
  rw [decode_encode hlength, Option.some.injEq]
  constructor
  · intro heq
    -- every head is there by timestamp, and one timestamp has one
    refine List.Nodup.map_on (fun a ha b hb hsame => ?_) heads.nodup_rows
    have hrow : ∀ head ∈ heads.rows, head.swap ∈ heads.byTimestamp.rows := by
      intro head hhead
      rw [← heq] at hhead
      exact hread.mp hhead
    have hitem := heads.byTimestamp.eq_of_key_eq (hrow a ha) (hrow b hb)
      (congrArg UInt64.toNat hsame)
    exact Prod.swap_injective hitem
  · intro hdistinct
    apply Keyed.Table.ext_mem
    intro head
    rw [hread, mem_byTimestamp_iff hdistinct, Prod.swap_swap]

/-- Where the timestamps are distinct, what a limit leaves out is older than what it keeps, and the
newest of it would not have fitted. -/
lemma left_out (hdistinct : heads.Distinct) (h : 1 ≤ limit.toNat)
    {kept : AuthorHeads} (hkept : kept = ofItems (heads.taken wire (some limit)))
    {left : AuthorId × UInt64} (hleft : left ∈ heads.rows) (hout : left ∉ kept.rows) :
    (∀ head ∈ kept.rows, left.2 ≤ head.2) ∧
      ((∀ other ∈ heads.rows, other ∉ kept.rows → other.2 ≤ left.2) →
        limit.toNat < ((kept.insert left.1 left.2).encode wire none).length) := by
  obtain ⟨rest, hsplit, -, hnext⟩ := heads.taken_some h
  have hmem : ∀ {head}, head ∈ kept.rows ↔ head.swap ∈ heads.taken wire (some limit) := by
    intro head
    rw [hkept, mem_ofItems (nodup_authors hsplit)]
  have hrow : ∀ {item : UInt64 × AuthorId}, item.swap ∈ heads.rows ↔
      item ∈ heads.taken wire (some limit) ++ rest := by
    intro item
    rw [← mem_byTimestamp_iff hdistinct, ← List.mem_reverse, hsplit]
  have hsorted :
      (heads.taken wire (some limit) ++ rest).Pairwise fun a b => b.1.toNat < a.1.toNat := by
    rw [← hsplit]
    exact List.pairwise_reverse.mpr heads.byTimestamp.sorted
  obtain ⟨htaken, hrest, hacross⟩ := List.pairwise_append.mp hsorted
  have hlater : left.swap ∈ rest := by
    have hin : left.swap ∈ heads.taken wire (some limit) ++ rest :=
      hrow.mp (by rwa [Prod.swap_swap])
    exact (List.mem_append.mp hin).resolve_left fun hin => hout (hmem.mpr hin)
  have holder : ∀ head ∈ kept.rows, left.2.toNat < head.2.toNat := fun head hhead =>
    hacross _ (hmem.mp hhead) _ hlater
  refine ⟨fun head hhead => UInt64.le_iff_toNat_le.mpr (holder head hhead).le, fun hnewest => ?_⟩
  obtain ⟨next, later, rfl⟩ := List.exists_cons_of_ne_nil (List.ne_nil_of_mem hlater)
  -- the newest left out is the next one in order
  have hfirst : left.swap = next := by
    rcases List.mem_cons.mp hlater with heq | hin
    · exact heq
    · have hout : next.swap ∉ kept.rows := by
        rw [hmem, Prod.swap_swap]
        exact fun hin => lt_irrefl _ (hacross next hin next List.mem_cons_self)
      have hle := hnewest next.swap (hrow.mpr (by simp)) hout
      have hlt := (List.pairwise_cons.mp hrest).1 _ hin
      exact absurd (UInt64.le_iff_toNat_le.mp hle) (not_le.mpr hlt)
  have hnew : kept.get left.1 = none := by
    by_contra hsome
    obtain ⟨head, hget⟩ := Option.ne_none_iff_exists'.mp hsome
    obtain ⟨hhead, hkey⟩ := Keyed.Table.get_eq_some.mp hget
    have hin : head ∈ heads.rows := by
      have := hrow.mpr (List.mem_append_left _ (hmem.mp hhead))
      rwa [Prod.swap_swap] at this
    exact hout (heads.eq_of_key_eq hin hleft hkey ▸ hhead)
  have hinsert : ∀ {head},
      head ∈ (kept.insert left.1 left.2).rows ↔ head = left ∨ head ∈ kept.rows := by
    intro head
    have hne : head ∈ kept.rows → head.1 ≠ left.1 := by
      intro hhead hkey
      have hget := Keyed.Table.get_eq_some.mpr ⟨hhead, hkey⟩
      cases hnew.symm.trans hget
    rw [insert, hnew]
    refine (Keyed.mem_insertRow kept.sorted).trans (or_congr_right ?_)
    exact ⟨And.left, fun hhead => ⟨hhead, hne hhead⟩⟩
  have hitems :
      (kept.insert left.1 left.2).taken wire none = heads.taken wire (some limit) ++ [next] := by
    apply taken_none_eq
    · refine List.pairwise_append.mpr ⟨htaken, List.pairwise_singleton _ _, fun a ha b hb => ?_⟩
      exact hacross a ha b (List.mem_cons.mpr (.inl (List.mem_singleton.mp hb)))
    · grind
  rw [encode, hitems]
  exact hnext next later rfl

end Items

end AuthorHeads

/-- **Author heads survive encoding where no two authors have one timestamp.** Without a limit, the
heads read back are the heads there and nowhere else. Within a limit of at least a byte, the
encoding is no longer than the limit, every head read back is one of the heads, every head left out
has a timestamp no greater than each one kept, and the newest of them would not have fitted.

**Proof sketch.** A map from timestamps to authors holds one author of each timestamp. The loop
takes them newest first as long as they fit. -/
theorem heads_survive_encoding (wire : Wire) (heads : AuthorHeads) :
    (heads.rows.length < 2 ^ 64 →
      (AuthorHeads.decode wire (heads.encode wire none) = some heads ↔ heads.Distinct)) ∧
    (heads.Distinct → ∀ limit : UInt64, 1 ≤ limit.toNat →
      (heads.encode wire (some limit)).length ≤ limit.toNat ∧
      ∃ kept, AuthorHeads.decode wire (heads.encode wire (some limit)) = some kept ∧
        (∀ head ∈ kept.rows, head ∈ heads.rows) ∧ ∀ left ∈ heads.rows, left ∉ kept.rows →
          (∀ head ∈ kept.rows, left.2 ≤ head.2) ∧
          ((∀ other ∈ heads.rows, other ∉ kept.rows → other.2 ≤ left.2) →
            limit.toNat < ((kept.insert left.1 left.2).encode wire none).length)) := by
  refine ⟨AuthorHeads.decode_encode_none_iff, fun hdistinct limit hlimit => ?_⟩
  obtain ⟨hdecode, hlength, hmem⟩ := heads.decode_encode_some wire hlimit
  exact ⟨hlength, _, hdecode, hmem, fun left hleft hout =>
    AuthorHeads.left_out hdistinct hlimit rfl hleft hout⟩

end MeePdn.PdnStore

/-! ## Two authors who wrote at one time -/

namespace MeePdn.Testing

open PdnStore
open scoped Fs

/-- Two authors who wrote one after the other. -/
def apart : AuthorHeads :=
  (Keyed.Table.empty.insert (⟨.replicate 32 1⟩, 7)).insert (⟨.replicate 32 2⟩, 8)

/-- Two authors who wrote at one time, and one who wrote before. -/
def together : AuthorHeads :=
  ((Keyed.Table.empty.insert (⟨.replicate 32 1⟩, 7)).insert (⟨.replicate 32 2⟩, 7)).insert
    (⟨.replicate 32 3⟩, 6)

/-- Heads apart are read back, and within forty bytes the newer one is. -/
theorem heads_survive_apart :
    AuthorHeads.decode .varints (apart.encode .varints none) = some apart ∧
      (apart.encode .varints (some 40)).length ≤ 40 := by
  have hdistinct : apart.Distinct := by
    unfold AuthorHeads.Distinct
    decide
  obtain ⟨hall, hlimited⟩ := heads_survive_encoding .varints apart
  exact ⟨(hall (by decide)).mpr hdistinct, (hlimited hdistinct 40 (by decide)).1⟩

/-- **Of two authors with one timestamp one is lost**, though an older head is kept. -/
theorem equal_heads_lost :
    ∃ kept, AuthorHeads.decode .varints (together.encode .varints none) = some kept ∧
      (⟨.replicate 32 1⟩, 7) ∈ together.rows ∧ (⟨.replicate 32 1⟩, 7) ∉ kept.rows ∧
      (⟨.replicate 32 3⟩, 6) ∈ kept.rows := by
  refine ⟨_, AuthorHeads.decode_encode (by decide), ?_, ?_, ?_⟩
  · decide
  · decide
  · decide

end MeePdn.Testing
