import MeePdn.PdnStore.Fs.Bounds
import MeePdn.PdnStore.Fs.Latest

/-!
# The cache of useful peers

`register_useful_peer` keeps, per replica, the peers that were useful last. Its rows are ordered by
the clock's reading, and the clock may stand still or go back.

## Main definitions

* `Tables.peers` — the rows of a replica, the smallest reading first.
* `Tables.Cached` — the rows are few, and no peer has two.
* `Tables.Leaves` — what a registration leaves of the rows.

## Main results

* `Tables.exists_leaves` — a registration adds its row in place of at most one.
* `useful_peers_cached` — **the cache stays well formed in every run**, and a registration drops
  no other peer but the one with the smallest reading of a full cache.
-/

namespace MeePdn.PdnStore.Fs

open Effects

variable {prims : Primitives} {ns : NamespaceId}

lemma UsefulPeer.ordinals_injective : Function.Injective UsefulPeer.ordinals := by
  rintro ⟨ns, nanos, peer⟩ ⟨ns', nanos', peer'⟩ h
  obtain ⟨rfl, h⟩ := Prod.mk.inj (toLex.injective h)
  obtain ⟨hnanos, hpeer⟩ := List.cons.inj h
  cases UInt64.toNat_inj.mp hnanos
  cases Bytes.ext (numbers_inj.mp hpeer)
  rfl

namespace Tables

variable (tables : Tables prims)

/-- The useful peers of a replica, the smallest reading first. -/
def peers (ns : NamespaceId) : List UsefulPeer :=
  tables.namespacePeers.rows.filter fun row => row.ns = ns

/-- The cache of a replica is well formed. -/
structure Cached (ns : NamespaceId) : Prop where
  length_le : (tables.peers ns).length ≤ peersPerDocCacheSize
  nodup : ((tables.peers ns).map UsefulPeer.peer).Nodup

variable {tables}

/-- The first row has the smallest reading. -/
lemma nanos_le_of_head {oldest : UsefulPeer} (h : (tables.peers ns).head? = some oldest) :
    ∀ row ∈ tables.peers ns, oldest.nanos ≤ row.nanos := by
  obtain ⟨rest, hrows⟩ : ∃ rest, tables.peers ns = oldest :: rest := by
    cases hp : tables.peers ns with
    | nil => simp [hp] at h
    | cons first rest => exact ⟨rest, by simpa [hp] using h⟩
  have hsorted : (tables.peers ns).Pairwise fun a b => a.ordinals < b.ordinals :=
    tables.namespacePeers.sorted.filter _
  have hns : ∀ row ∈ tables.peers ns, row.ns = ns := fun row hrow => by
    simpa using (List.mem_filter.mp hrow).2
  intro row hrow
  rw [hrows] at hsorted hrow hns
  rcases List.mem_cons.mp hrow with rfl | hrest
  · exact UInt64.le_refl _
  · have hlt := (List.pairwise_cons.mp hsorted).1 row hrest
    rw [UsefulPeer.ordinals, UsefulPeer.ordinals, hns row hrow, hns oldest List.mem_cons_self,
      Prod.Lex.toLex_lt_toLex] at hlt
    rcases hlt with hlt | ⟨-, hlt⟩
    · exact absurd hlt (lt_irrefl _)
    · rcases List.cons_lt_cons_iff.mp hlt with hnanos | ⟨hnanos, -⟩
      · exact UInt64.le_of_lt (UInt64.lt_iff_toNat_lt.mpr hnanos)
      · exact UInt64.le_iff_toNat_le.mpr hnanos.le

lemma mem_peers {r : UsefulPeer} :
    r ∈ tables.peers ns ↔ r ∈ tables.namespacePeers.rows ∧ r.ns = ns := by
  simp [peers]

lemma Cached.eq_of_peer (h : tables.Cached ns) {r r' : UsefulPeer} (hr : r ∈ tables.peers ns)
    (hr' : r' ∈ tables.peers ns) (hpeer : r.peer = r'.peer) : r = r' :=
  List.inj_on_of_nodup_map h.nodup hr hr' hpeer

/-- What a registration leaves: its row, and the rows before but for `gone`, which is the row the
peer had or, of a full cache that had none, the first. -/
structure Leaves (tables : Tables prims) (row : UsefulPeer) (gone : Option UsefulPeer) : Prop where
  mem_rows : ∀ r, r ∈ (tables.putPeer row).rows ↔
    r = row ∨ r ∈ tables.namespacePeers.rows ∧ gone ≠ some r
  had : tables.Cached row.ns → ∀ r ∈ tables.peers row.ns, r.peer = row.peer → gone = some r
  room : gone = none → (tables.peers row.ns).length < peersPerDocCacheSize
  which : ∀ g, gone = some g → g ∈ tables.peers row.ns ∧ (g.peer = row.peer ∨
    (tables.peers row.ns).head? = some g ∧ peersPerDocCacheSize ≤ (tables.peers row.ns).length ∧
      ∀ r ∈ tables.peers row.ns, r.peer ≠ row.peer)

/-- **A registration adds its row in place of at most one.** -/
lemma exists_leaves (tables : Tables prims) (row : UsefulPeer) :
    ∃ gone, Leaves tables row gone := by
  have hinsert : ∀ (t : Keyed.Table UsefulPeer.ordinals) r,
      r ∈ (t.insert row).rows ↔ r = row ∨ r ∈ t.rows := by
    intro t r
    rw [Keyed.Table.insert, Keyed.mem_insertRow t.sorted]
    by_cases hkey : r.ordinals = row.ordinals
    · simp [UsefulPeer.ordinals_injective hkey]
    · simp [hkey]
  have hfilter : ∀ (t : Keyed.Table UsefulPeer.ordinals) (g r : UsefulPeer),
      r ∈ (t.filter (· ≠ g)).rows ↔ r ∈ t.rows ∧ some g ≠ some r := by
    intro t g r
    simp only [Keyed.Table.filter, List.mem_filter, decide_eq_true_eq, ne_eq, Option.some.injEq]
    rw [eq_comm]
  have hput := putPeer.eq_def tables row
  dsimp only at hput
  rcases hrows : tables.namespacePeers.rows.filter fun r => r.ns = row.ns with _ | ⟨oldest, rest⟩
  all_goals
    rw [hrows] at hput
    rw [← peers] at hrows
  · exact ⟨none, by simp [hput, hinsert], by simp [hrows], by simp [hrows, peersPerDocCacheSize],
      by simp⟩
  dsimp only at hput
  have holdest : oldest ∈ tables.peers row.ns := hrows ▸ List.mem_cons_self
  by_cases hpeer : oldest.peer = row.peer
  · rw [if_pos hpeer] at hput
    refine ⟨some oldest, fun r => by rw [hput, hinsert, hfilter], fun h r hr hsame => ?_,
      by simp, ?_⟩
    · rw [h.eq_of_peer hr holdest (hsame.trans hpeer.symm)]
    · rintro g ⟨⟩
      exact ⟨holdest, .inl hpeer⟩
  rw [if_neg hpeer] at hput
  cases hfind : rest.find? fun r => r.peer = row.peer with
  | some previous =>
    have hprevious : previous ∈ tables.peers row.ns :=
      hrows ▸ List.mem_cons_of_mem oldest (List.mem_of_find?_eq_some hfind)
    have hsame : previous.peer = row.peer := by simpa using List.find?_some hfind
    rw [hfind] at hput
    refine ⟨some previous, fun r => by rw [hput, hinsert, hfilter], fun h r hr heq => ?_,
      by simp, ?_⟩
    · rw [h.eq_of_peer hr hprevious (heq.trans hsame.symm)]
    · rintro g ⟨⟩
      exact ⟨hprevious, .inl hsame⟩
  | none =>
    have hnew : ∀ r ∈ tables.peers row.ns, r.peer ≠ row.peer := by
      rw [hrows]
      exact List.forall_mem_cons.mpr ⟨hpeer, by simpa using hfind⟩
    have hlength : (tables.peers row.ns).length = rest.length + 1 := by rw [hrows, List.length_cons]
    rw [hfind] at hput
    dsimp only at hput
    split_ifs at hput with hfull
    · refine ⟨some oldest, fun r => ?_, fun _ r hr heq => absurd heq (hnew r hr), by simp, ?_⟩
      · rw [hput, hfilter, hinsert]
        have : row ≠ oldest := fun heq => hnew oldest holdest (heq ▸ rfl)
        grind
      · rintro g ⟨⟩
        exact ⟨holdest, .inr ⟨by rw [hrows, List.head?_cons], by omega, hnew⟩⟩
    · exact ⟨none, by simp [hput, hinsert], fun _ r hr heq => absurd heq (hnew r hr),
        fun _ => by omega, by simp⟩

variable {row : UsefulPeer} {gone : Option UsefulPeer}

lemma Leaves.mem (h : Leaves tables row gone) (r : UsefulPeer) :
    r ∈ (tables.apply (.useful row)).peers ns ↔
      r.ns = ns ∧ (r = row ∨ r ∈ tables.peers ns ∧ gone ≠ some r) := by
  have hrow : r ∈ (tables.apply (.useful row)).namespacePeers.rows ↔ _ := h.mem_rows r
  rw [mem_peers, mem_peers, hrow]
  tauto

/-- What a registration leaves of a well-formed cache is well formed. -/
lemma Leaves.cached (h : Leaves tables row gone) (hcached : tables.Cached row.ns) :
    (tables.apply (.useful row)).Cached row.ns := by
  have hnodup : ((tables.apply (.useful row)).peers row.ns).Nodup :=
    (tables.putPeer row).nodup_rows.filter _
  have hmem : ∀ r, r ∈ (tables.apply (.useful row)).peers row.ns ↔ _ := h.mem
  refine ⟨?_, hnodup.map_on fun r hr r' hr' heq => ?_⟩
  · rcases hgone : gone with _ | g
    · have hsub : (tables.apply (.useful row)).peers row.ns ⊆ row :: tables.peers row.ns := by
        grind
      have hlength := (List.subperm_of_subset hnodup hsub).length_le
      have hroom := h.room hgone
      rw [List.length_cons] at hlength
      omega
    · have hg := (h.which g hgone).1
      have hsub :
          (tables.apply (.useful row)).peers row.ns ⊆ row :: (tables.peers row.ns).erase g := by
        grind
      have hlength := (List.subperm_of_subset hnodup hsub).length_le
      have hpos := List.length_pos_of_mem hg
      have hle := hcached.length_le
      rw [List.length_cons, List.length_erase_of_mem hg] at hlength
      omega
  · have hhad := h.had hcached
    grind [hcached.eq_of_peer]

/-- Any write leaves the cache of a replica well formed. -/
lemma Cached.apply (h : tables.Cached ns) (m : Mutation) : (tables.apply m).Cached ns := by
  cases m with
  | author | imported | put => exact ⟨h.length_le, h.nodup⟩
  | removed ns' =>
    have hsub : ((tables.apply (.removed ns')).peers ns).Sublist (tables.peers ns) :=
      List.Sublist.filter _ List.filter_sublist
    exact ⟨hsub.length_le.trans h.length_le, (hsub.map _).nodup h.nodup⟩
  | useful row =>
    by_cases hns : row.ns = ns
    · subst hns
      obtain ⟨gone, hleaves⟩ := exists_leaves tables row
      exact hleaves.cached h
    · -- the rows of other replicas stay as they are
      obtain ⟨gone, hleaves⟩ := exists_leaves tables row
      have hperm : ((tables.apply (.useful row)).peers ns).Perm (tables.peers ns) := by
        refine (List.perm_ext_iff_of_nodup ((tables.putPeer row).nodup_rows.filter _)
          (tables.namespacePeers.nodup_rows.filter _)).mpr fun r => ?_
        have hmem : r ∈ (tables.apply (.useful row)).peers ns ↔ _ := hleaves.mem r
        refine hmem.trans ?_
        have hr : r ∈ tables.peers ns ↔ _ := mem_peers
        have hgone := hleaves.which r
        have hg : r ∈ tables.peers row.ns ↔ _ := mem_peers
        grind
      exact ⟨hperm.length_eq.trans_le h.length_le, (hperm.map _).nodup_iff.mpr h.nodup⟩

lemma Cached.replay (h : tables.Cached ns) (writes : List Mutation) :
    (tables.replay writes).Cached ns := by
  induction writes generalizing tables with
  | nil => exact h
  | cons m writes ih => exact ih (h.apply m)

end Tables

namespace Store

variable {s : Store prims}

/-- A registration that goes through puts its row. -/
lemma live_of_registers {env : Environment} {peer : PeerIdBytes} {s' : Store prims}
    (h : registerUsefulPeer ns peer (s.under env) = .ok () s') :
    s'.live = s.live.apply (.useful ⟨ns, env.nanos, peer⟩) := by
  have hrun : modify (fun tables : Tables prims =>
      if (tables.namespaces.get ns).isSome then return ((), [.useful ⟨ns, env.nanos, peer⟩])
      else throw "document not created") (s.under env) = .ok () s' := h
  obtain ⟨writes, hf, hfollows, hadd⟩ := (ensures_modify _ _).of_ok hrun
  have hwrites : writes = [.useful ⟨ns, env.nanos, peer⟩] := by
    split_ifs at hf
    cases hf
    rfl
  have hbase : s'.db.base = s.db.base := hfollows.base
  have hwritten : s'.written = s.written ++ writes := hadd
  rw [live, hbase, hwritten, hwrites, Tables.replay_append]
  rfl

lemma exists_registers (hsound : s.env.Sound) (hdoc : (s.live.namespaces.get ns).isSome)
    (peer : PeerIdBytes) : ∃ s', registerUsefulPeer ns peer s = .ok () s' := by
  obtain ⟨w, s', hrun⟩ := exists_currentWriteTransaction hsound
  have hlive : s'.db.tables w.writes = s.live :=
    ((ensures_currentWriteTransaction s).of_ok hrun).2.live
  refine ⟨{ s' with transaction := .write (w.write [.useful ⟨ns, s.env.nanos, peer⟩]) }, ?_⟩
  simp only [registerUsefulPeer, modify, bind, EStateM.bind, get, getThe, MonadStateOf.get,
    EStateM.get, hrun, hlive, hdoc]
  rfl

end Store

/-- **The cache of useful peers stays well formed under any clock.** In every run of a store whose
cache for a replica was empty, whatever clock each registration meets, the rows of the replica are
at most `peersPerDocCacheSize` and no peer has two. A registration goes through where the document
exists and nothing fails, and then leaves the peer with the current reading, and of the other rows
all but at most one: the one with the smallest reading, where the cache was full and the peer new.

**Proof sketch.** A registration takes out the row the peer had, or else, where the cache is full,
the first row, and puts its own in (`Tables.exists_leaves`); so the rows are no more than before or
than the cache takes, and the peer has no other. The first row has the smallest reading by the order
of the table, whatever reading is put in. -/
theorem useful_peers_cached (ns : NamespaceId) (base : Tables prims) (hbase : base.peers ns = [])
    (env : Environment) (events : List Event) :
    let s := (Store.opened base env).after events
    s.live.Cached ns ∧ ∀ env peer,
      (env.Sound → (s.live.namespaces.get ns).isSome →
        ∃ s', Store.registerUsefulPeer ns peer (s.under env) = .ok () s') ∧
      ∀ s', Store.registerUsefulPeer ns peer (s.under env) = .ok () s' →
        s'.live.Cached ns ∧ ⟨ns, env.nanos, peer⟩ ∈ s'.live.peers ns ∧
        (∀ row ∈ s'.live.peers ns, row.peer ≠ peer → row ∈ s.live.peers ns) ∧
        ∀ row ∈ s.live.peers ns, row.peer ≠ peer → row ∉ s'.live.peers ns →
          (s.live.peers ns).length = peersPerDocCacheSize ∧
          (∀ other ∈ s.live.peers ns, other.peer ≠ peer) ∧
          (s.live.peers ns).head? = some row ∧
          ∀ other ∈ s.live.peers ns, row.nanos ≤ other.nanos := by
  intro s
  have hcached : s.live.Cached ns := by
    have hstart : base.Cached ns := ⟨by simp [hbase], by simp [hbase]⟩
    have hlive : s.live = base.replay s.written := by
      rw [Store.live, Store.base_after]
      rfl
    rw [hlive]
    exact hstart.replay _
  refine ⟨hcached, fun env peer => ⟨fun hsound hdoc => ?_, fun s' hrun => ?_⟩⟩
  · exact Store.exists_registers (s := s.under env) hsound hdoc peer
  obtain ⟨gone, hleaves⟩ := Tables.exists_leaves s.live ⟨ns, env.nanos, peer⟩
  rw [Store.live_of_registers hrun]
  refine ⟨hcached.apply _, (hleaves.mem _).mpr ⟨rfl, .inl rfl⟩, fun row hrow hpeer => ?_,
    fun row hrow hpeer hnot => ?_⟩
  · have hmem := (hleaves.mem row).mp hrow
    grind
  · have hmem : row ∈ (s.live.apply (.useful ⟨ns, env.nanos, peer⟩)).peers ns ↔ _ := hleaves.mem row
    have hns := Tables.mem_peers.mp hrow
    have hgone : gone = some row := by grind
    have hwhich := (hleaves.which row hgone).2.resolve_left hpeer
    exact ⟨le_antisymm hcached.length_le hwhich.2.1, hwhich.2.2, hwhich.1,
      Tables.nanos_le_of_head hwhich.1⟩

end MeePdn.PdnStore.Fs

namespace MeePdn.Testing

open PdnStore Fs

/-- The clock reads `n`. -/
def reads (n : UInt64) : Environment := { calm with nanos := n }

/-- A replica is imported, and five peers are useful while the clock stands still or goes back. -/
def registrations : List Fs.Event :=
  .does (.importNamespace (.write ⟨.replicate 32 5⟩)) ::
    [9, 8, 7, 7, 3].zipIdx.flatMap fun (n, i) =>
      [.meets (reads n), .does (.registerUsefulPeer (replica 5) (.replicate 32 (.ofNat i)))]

/-- The cache is full then, and a sixth peer goes in under a smaller reading. -/
theorem useful_peers_cached_registrations :
    let s := (Fs.Store.opened .empty calm : Fs.Store transparent).after registrations
    (s.live.peers (replica 5)).length = peersPerDocCacheSize ∧
      ∃ s', Fs.Store.registerUsefulPeer (replica 5) (.replicate 32 5) (s.under (reads 1)) =
          .ok () s' ∧
        s'.live.Cached (replica 5) ∧
        ⟨replica 5, 1, .replicate 32 5⟩ ∈ s'.live.peers (replica 5) := by
  intro s
  obtain ⟨-, hcalls⟩ := useful_peers_cached (replica 5) (Tables.empty : Tables transparent) rfl calm
    registrations
  obtain ⟨hexists, hleft⟩ := hcalls (reads 1) (.replicate 32 5)
  obtain ⟨s', hrun⟩ := hexists (fun _ => ⟨rfl, rfl⟩) (by decide +kernel)
  exact ⟨by decide +kernel, s', hrun, (hleft s' hrun).1, (hleft s' hrun).2.1⟩

end MeePdn.Testing
