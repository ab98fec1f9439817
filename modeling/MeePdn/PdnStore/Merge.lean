import MeePdn.PdnStore.Testing

/-!
# What replicas that took the same entries hold

`Store::put` of `pdn-store/src/ranger.rs` keeps, at an identifier, the entry whose record compares
greater, and a fingerprint tells entries apart by the bytes `as_fingerprint` hashes. Neither the
order of records nor those bytes take the length in, which the author signs with the rest. Where
lengths follow from the rest, replicas that took the same entries hold the same; where they do not,
the entry that arrives first stays, and no fingerprint shows the difference.

## Main definitions

* `Records.entries` — what a table holds, signatures aside.
* `putAll` — entries put one after the other.
* `LengthsFollow` — entries alike in all that is compared are alike in length.

## Main results

* `same_entries_iff` — the final records are the same for every order of putting entries exactly
  when the lengths of the greatest follow from the rest, and replicas with one fingerprint hold the
  same entries exactly when the lengths of what they hold do.
-/

namespace MeePdn.PdnStore

open Ranger (Range Reads Store)

lemma SignedEntry.entry_id (e : SignedEntry) : e.entry.id = e.id := rfl

/-- What a table holds, signatures aside. -/
def Records.entries (records : Records) : Keyed.Table Entry.id :=
  Keyed.Table.map SignedEntry.entry SignedEntry.entry_id records

/-- Entries put one after the other. -/
def putAll (blake3 : List UInt8 → Bytes 32) (ns : NamespaceId) (entries : List SignedEntry)
    (live : Records) : Except String Records :=
  entries.foldlM (fun live e =>
    Prod.snd <$> (StoreInstance.store blake3 ns none).put
      (SignedEntry.rangeEntry blake3) live e) live

/-- Entries of two lists that are alike in identifier, timestamp and hash are alike in length. -/
def LengthsFollow (entries entries' : List SignedEntry) : Prop :=
  ∀ a ∈ entries, ∀ b ∈ entries', a.id = b.id → a.timestamp = b.timestamp →
    a.contentHash = b.contentHash → a.contentLen = b.contentLen

/-- The entries of a list that none of it at the same identifier is newer than. -/
def greatest (entries : List SignedEntry) : List SignedEntry :=
  entries.filter fun a => ∀ b ∈ entries, b.id = a.id → b.stamp ≤ a.stamp

variable {blake3 : List UInt8 → Bytes 32} {ns : NamespaceId}

lemma putAll_eq {entries : List SignedEntry} (h : ∀ e ∈ entries, e.ns = ns) (live : Records) :
    putAll blake3 ns entries live =
      .ok (entries.foldl (Keyed.Table.put SignedEntry.stamp) live) := by
  unfold putAll
  induction entries generalizing live with
  | nil => rfl
  | cons e entries ih =>
    obtain ⟨outcome, hput⟩ := StoreInstance.put_eq blake3 none live (h e (by simp))
    rw [List.foldlM_cons, hput]
    exact ih (fun b hb => h b (by simp [hb])) _

/-- Two entries are alike, signatures aside, when they are alike in what is compared and in
length. -/
lemma SignedEntry.entry_eq_iff {a b : SignedEntry} :
    a.entry = b.entry ↔ a.id = b.id ∧ a.stamp = b.stamp ∧ a.contentLen = b.contentLen := by
  constructor
  · intro h
    simp [id, stamp, contentLen, h]
  · rintro ⟨hid, hstamp, hlen⟩
    obtain ⟨htime, hhash⟩ := Record.stamp_eq_iff.mp hstamp
    obtain ⟨sa, ⟨ia, ⟨la, ha, ta⟩⟩⟩ := a
    obtain ⟨sb, ⟨ib, ⟨lb, hb, tb⟩⟩⟩ := b
    simp_all [id, contentLen]

lemma mem_greatest {entries : List SignedEntry} {a : SignedEntry} :
    a ∈ greatest entries ↔ Keyed.Greatest SignedEntry.stamp SignedEntry.id entries a := by
  simp [greatest, Keyed.Greatest]

lemma stamp_eq_of_greatest {entries : List SignedEntry} {a b : SignedEntry}
    (ha : a ∈ greatest entries) (hb : b ∈ greatest entries) (hid : a.id = b.id) :
    a.stamp = b.stamp := by
  rw [mem_greatest] at ha hb
  exact le_antisymm (hb.2 a ha.1 hid) (ha.2 b hb.1 hid.symm)

/-- The records every order of putting entries leaves are the same exactly when the lengths of the
greatest follow from the rest. -/
lemma putAll_perm_iff {entries : List SignedEntry} (h : ∀ e ∈ entries, e.ns = ns) :
    (∀ l l' : List SignedEntry, l.Perm entries → l'.Perm entries →
        ∃ t t' : Records, putAll blake3 ns l .empty = .ok t ∧ putAll blake3 ns l' .empty = .ok t' ∧
          t.entries = t'.entries) ↔
      LengthsFollow (greatest entries) (greatest entries) := by
  have hall : ∀ {l : List SignedEntry}, l.Perm entries → ∀ e ∈ l, e.ns = ns :=
    fun hl e he => h e (hl.mem_iff.mp he)
  have htable := Keyed.Table.map_foldl_put_eq_iff SignedEntry.stamp SignedEntry.entry
    SignedEntry.entry_id entries
  constructor
  · intro hperm a ha b hb hid _ _
    have heq := htable.mp (by
      intro l l' hl hl'
      obtain ⟨t, t', ht, ht', heq⟩ := hperm l l' hl hl'
      rw [putAll_eq (hall hl)] at ht
      rw [putAll_eq (hall hl')] at ht'
      cases ht
      cases ht'
      exact heq) a b (mem_greatest.mp ha) (mem_greatest.mp hb) hid
    exact (SignedEntry.entry_eq_iff.mp heq).2.2
  · intro hfollow l l' hl hl'
    refine ⟨_, _, putAll_eq (hall hl) _, putAll_eq (hall hl') _, ?_⟩
    apply htable.mpr _ l l' hl hl'
    intro a b ha hb hid
    rw [← mem_greatest] at ha hb
    have hstamp := stamp_eq_of_greatest ha hb hid
    obtain ⟨htime, hhash⟩ := Record.stamp_eq_iff.mp hstamp
    exact SignedEntry.entry_eq_iff.mpr ⟨hid, hstamp, hfollow a ha b hb hid htime hhash⟩

/-! ## Fingerprints -/

lemma sorted_ofNamespace (records : Records) :
    (StoreInstance.ofNamespace ns records).Pairwise fun a b => a.id < b.id :=
  records.sorted.filter _

/-- Replicas that hold the same identifiers with records that compare equal hold the same entries
exactly when the lengths of what they hold follow from the rest. -/
lemma entries_eq_iff {a b : List SignedEntry} (ha : a.Pairwise fun a b => a.id < b.id)
    (hb : b.Pairwise fun a b => a.id < b.id)
    (hsame : ∀ bytes, bytes ∈ a.map SignedEntry.fingerprinted ↔
      bytes ∈ b.map SignedEntry.fingerprinted) :
    a.map SignedEntry.entry = b.map SignedEntry.entry ↔ LengthsFollow a b := by
  constructor
  · intro h x hx y hy hid _ _
    obtain ⟨z, hz, hzx⟩ : ∃ z ∈ b, z.entry = x.entry :=
      List.mem_map.mp (h ▸ List.mem_map_of_mem hx)
    have hzy : z = y := by
      have hinj : (b.map SignedEntry.id).Nodup :=
        (List.pairwise_map.mpr hb).imp fun hlt => hlt.ne
      apply List.inj_on_of_nodup_map hinj hz hy
      rw [← hid]
      exact congrArg Entry.id hzx
    rw [← hzy]
    exact (SignedEntry.entry_eq_iff.mp hzx).2.2.symm
  · intro hfollow
    have hsub : ∀ {l l' : List SignedEntry}, LengthsFollow l l' →
        (∀ bytes ∈ l.map SignedEntry.fingerprinted, bytes ∈ l'.map SignedEntry.fingerprinted) →
          ∀ e ∈ l.map SignedEntry.entry, e ∈ l'.map SignedEntry.entry := by
      intro l l' hlen hbytes e he
      obtain ⟨x, hx, rfl⟩ := List.mem_map.mp he
      obtain ⟨y, hy, hyx⟩ := List.mem_map.mp (hbytes _ (List.mem_map_of_mem hx))
      obtain ⟨hid, htime, hhash⟩ := SignedEntry.fingerprinted_eq_iff.mp hyx
      refine List.mem_map.mpr ⟨y, hy, ?_⟩
      exact SignedEntry.entry_eq_iff.mpr ⟨hid, Record.stamp_eq_iff.mpr ⟨htime, hhash⟩,
        (hlen x hx y hy hid.symm htime.symm hhash.symm).symm⟩
    have hflip : LengthsFollow b a := fun x hx y hy hid htime hhash =>
      (hfollow y hy x hx hid.symm htime.symm hhash.symm).symm
    have hsorted : ∀ {l : List SignedEntry}, (l.Pairwise fun a b => a.id < b.id) →
        (l.map SignedEntry.entry).Pairwise fun a b => a.id < b.id :=
      fun hl => List.pairwise_map.mpr hl
    have hirr : Std.Irrefl fun a b : Entry => a.id < b.id := ⟨fun a => lt_irrefl _⟩
    have hanti : Std.Antisymm fun a b : Entry => a.id < b.id :=
      ⟨fun a b hab hba => absurd hab hba.not_gt⟩
    apply (hsorted ha).eq_of_mem_iff (hsorted hb)
    intro e
    exact ⟨hsub hfollow (fun bytes => (hsame bytes).mp) e,
      hsub hflip (fun bytes => (hsame bytes).mpr) e⟩

/-- **Replicas that took the same entries hold the same entries exactly when lengths follow from the
rest.** For valid entries of one namespace, every two orders of putting them leave the same records,
lengths included, exactly when those of the greatest entries at an identifier that are alike in
timestamp and hash are alike in length. And two replicas with one fingerprint over the whole range,
where the hash of no two of their entries and no two sets of such hashes collide, hold the same
entries, lengths included, exactly when entries they hold that are alike in identifier, timestamp
and hash are alike in length.

**Proof sketch.** A key ends up with one of the greatest entries there, and any of them is what an
order that puts it first leaves. Equal fingerprints are those of the same identifiers, timestamps
and hashes, since the bytes hashed spell these three; the length is all that is left. -/
theorem same_entries_iff (prims : Primitives) {now : UInt64} {peer : Bytes 32}
    {status : ContentStatus} {entries : List SignedEntry}
    (hvalid : ∀ e ∈ entries,
      validateEntry prims blake3 now ns e (.sync peer status) none = .ok ())
    {one other : Records} {fingerprint : Fingerprint} {x y : RecordIdentifier}
    (hone : (StoreInstance.reads blake3 ns one).getFingerprint ⟨x, x⟩ = .ok fingerprint)
    (hother : (StoreInstance.reads blake3 ns other).getFingerprint ⟨y, y⟩ = .ok fingerprint)
    (hinjective : ∀ a ∈ StoreInstance.ofNamespace ns one, ∀ b ∈ StoreInstance.ofNamespace ns other,
      a.asFingerprint blake3 = b.asFingerprint blake3 → a.fingerprinted = b.fingerprinted)
    (hxor : Ranger.fingerprintOf blake3 (SignedEntry.rangeEntry blake3)
        (StoreInstance.ofNamespace ns one) =
      Ranger.fingerprintOf blake3 (SignedEntry.rangeEntry blake3)
        (StoreInstance.ofNamespace ns other) →
      ∀ f, f ∈ (StoreInstance.ofNamespace ns one).map (SignedEntry.asFingerprint blake3) ↔
        f ∈ (StoreInstance.ofNamespace ns other).map (SignedEntry.asFingerprint blake3)) :
    ((∀ l l' : List SignedEntry, l.Perm entries → l'.Perm entries →
        ∃ t t' : Records, putAll blake3 ns l .empty = .ok t ∧ putAll blake3 ns l' .empty = .ok t' ∧
          t.entries = t'.entries) ↔
      LengthsFollow (greatest entries) (greatest entries)) ∧
    ((StoreInstance.ofNamespace ns one).map SignedEntry.entry =
        (StoreInstance.ofNamespace ns other).map SignedEntry.entry ↔
      LengthsFollow (StoreInstance.ofNamespace ns one) (StoreInstance.ofNamespace ns other)) := by
  refine ⟨putAll_perm_iff fun e he => ns_of_validateEntry (hvalid e he), ?_⟩
  simp only [StoreInstance.reads, StoreInstance.getRange_self, ok_bind, pure_eq_ok] at hone hother
  have hsame := hxor ((Except.ok.inj hone).trans (Except.ok.inj hother).symm)
  have hhashed : ∀ {l l' : List SignedEntry},
      (∀ a ∈ l, ∀ b ∈ l', a.asFingerprint blake3 = b.asFingerprint blake3 →
        a.fingerprinted = b.fingerprinted) →
      (∀ f ∈ l.map (SignedEntry.asFingerprint blake3),
        f ∈ l'.map (SignedEntry.asFingerprint blake3)) →
      ∀ bytes ∈ l.map SignedEntry.fingerprinted, bytes ∈ l'.map SignedEntry.fingerprinted := by
    intro l l' hinj hsub bytes hbytes
    obtain ⟨a, ha, rfl⟩ := List.mem_map.mp hbytes
    obtain ⟨b, hb, hba⟩ := List.mem_map.mp (hsub _ (List.mem_map_of_mem ha))
    exact List.mem_map.mpr ⟨b, hb, (hinj a ha b hb hba.symm).symm⟩
  apply entries_eq_iff (sorted_ofNamespace one) (sorted_ofNamespace other)
  intro bytes
  exact ⟨hhashed hinjective (fun f => (hsame f).mp) bytes,
    hhashed (fun a ha b hb h => (hinjective b hb a ha h.symm).symm) (fun f => (hsame f).mpr) bytes⟩

open Testing in
/-- Two entries at different keys, and replicas that took them in different orders. -/
theorem same_entries_iff_two :
    let a := signed (replica 1) ⟨.replicate 32 2⟩ [1] (record 5 6 7)
    let b := signed (replica 1) ⟨.replicate 32 2⟩ [2] (record 5 6 8)
    LengthsFollow (greatest [a, b]) (greatest [a, b]) ∧
      ∃ t t' : Records, putAll hashing (replica 1) [a, b] .empty = .ok t ∧
        putAll hashing (replica 1) [b, a] .empty = .ok t' ∧ t.entries = t'.entries ∧
        (StoreInstance.ofNamespace (replica 1) (table [a, b])).map SignedEntry.entry =
          (StoreInstance.ofNamespace (replica 1) (table [b, a])).map SignedEntry.entry := by
  intro a b
  have hsame : StoreInstance.ofNamespace (replica 1) (table [a, b]) =
      StoreInstance.ofNamespace (replica 1) (table [b, a]) := by decide +kernel
  have hfollow : LengthsFollow (greatest [a, b]) (greatest [a, b]) := by
    unfold LengthsFollow
    decide +kernel
  have hfollow' : LengthsFollow (StoreInstance.ofNamespace (replica 1) (table [a, b]))
      (StoreInstance.ofNamespace (replica 1) (table [b, a])) := by
    unfold LengthsFollow
    decide +kernel
  have hvalid : ∀ e ∈ [a, b], validateEntry transparent hashing 9 (replica 1) e
      (.sync (.replicate 32 3) .complete) none = .ok () := by decide +kernel
  have hinjective : ∀ c ∈ StoreInstance.ofNamespace (replica 1) (table [a, b]),
      ∀ d ∈ StoreInstance.ofNamespace (replica 1) (table [b, a]),
        c.asFingerprint hashing = d.asFingerprint hashing → c.fingerprinted = d.fingerprinted := by
    decide +kernel
  clear_value a b
  have hwhole : ∀ records : Records,
      (StoreInstance.reads hashing (replica 1) records).getFingerprint ⟨.default, .default⟩ =
        .ok (Ranger.fingerprintOf hashing (SignedEntry.rangeEntry hashing)
          (StoreInstance.ofNamespace (replica 1) records)) := by
    intro records
    simp only [StoreInstance.reads, StoreInstance.getRange_self, ok_bind, pure_eq_ok]
  have hother := hwhole (table [b, a])
  rw [← hsame] at hother
  obtain ⟨hputs, hentries⟩ := same_entries_iff transparent hvalid (hwhole (table [a, b])) hother
    hinjective (fun _ f => by rw [hsame])
  obtain ⟨t, t', ht, ht', heq⟩ := hputs.mpr hfollow [a, b] [b, a] (.refl _) (.swap a b [])
  exact ⟨hfollow, t, t', ht, ht', heq, hentries.mpr hfollow'⟩

open Testing in
/-- Two entries an author signed for one key, alike in timestamp and hash and of different length.
Both are valid. The one that is put first stays, and a replica that took one of them has the
fingerprint of a replica that took the other. -/
theorem lengths_part_replicas :
    let short := signed (replica 1) ⟨.replicate 32 2⟩ [1] (record 5 6 7)
    let long := signed (replica 1) ⟨.replicate 32 2⟩ [1] (record 9 6 7)
    (∀ e ∈ [short, long], validateEntry transparent hashing 9 (replica 1) e
      (.sync (.replicate 32 3) .complete) none = .ok ()) ∧
    (∀ t t' : Records, putAll hashing (replica 1) [short, long] .empty = .ok t →
      putAll hashing (replica 1) [long, short] .empty = .ok t' → t.entries ≠ t'.entries) ∧
    (StoreInstance.reads hashing (replica 1) (table [short])).getFingerprint
        ⟨.default, .default⟩ =
      (StoreInstance.reads hashing (replica 1) (table [long])).getFingerprint
        ⟨.default, .default⟩ ∧
    short.asFingerprint hashing = long.asFingerprint hashing ∧
    short.fingerprinted = long.fingerprinted ∧
    (StoreInstance.ofNamespace (replica 1) (table [short])).map SignedEntry.entry ≠
      (StoreInstance.ofNamespace (replica 1) (table [long])).map SignedEntry.entry := by
  intro short long
  have hns : ∀ e ∈ [short, long], e.ns = replica 1 := by decide +kernel
  have hns' : ∀ e ∈ [long, short], e.ns = replica 1 := by decide +kernel
  have hrows : (table [short, long]).entries.rows ≠ (table [long, short]).entries.rows := by
    decide +kernel
  have hprints : Ranger.fingerprintOf hashing (SignedEntry.rangeEntry hashing)
      (StoreInstance.ofNamespace (replica 1) (table [short])) =
      Ranger.fingerprintOf hashing (SignedEntry.rangeEntry hashing)
        (StoreInstance.ofNamespace (replica 1) (table [long])) := by decide +kernel
  refine ⟨by decide +kernel, ?_, ?_, by decide +kernel, by decide +kernel, by decide +kernel⟩
  · clear_value short long
    intro t t' ht ht' heq
    rw [putAll_eq hns] at ht
    rw [putAll_eq hns'] at ht'
    cases ht
    cases ht'
    exact hrows (congrArg Keyed.Table.rows heq)
  · clear_value short long
    simp only [StoreInstance.reads, StoreInstance.getRange_self, ok_bind, pure_eq_ok, hprints]

end MeePdn.PdnStore
