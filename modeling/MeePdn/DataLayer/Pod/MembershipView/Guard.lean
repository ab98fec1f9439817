import MeePdn.DataLayer.Pod.MembershipView.Checks

/-!
# The guard over the last owner

`demotions_to_set_aside` sorts the demotions that ended an ownership and drops all but one. This
module says which one is left: of the members whose latest counted event is a demotion, the one
that is last by the demoting actor and then by itself.

## Main definitions

* `Candidates.Counted` — a candidate counts, some demotions set aside.
* `Candidates.Ended` — a member's latest counted event is a demotion.
* `Candidates.Spared` — the demotions the guard sets aside.

## Main results

* `Pass.foldl_spare` — the loop over the ended ownerships spares the last.
* `Pass.mem_demotionsToSetAside` — **what the guard sets aside** after a pass.
-/

namespace MeePdn

open Settling Classical

namespace Candidates

variable {parsed : Parsed} (candidates : Candidates parsed) (setAside : Finset ℕ)

/-- The state of a point in the end. -/
noncomputable def finalState (member : PdnId) (seq : ℕ) : MemberState :=
  (candidates.log setAside).final membershipRules loopRounds member seq

/-- The verdict of a candidate in the end. -/
noncomputable def finalVerdict (event : Event) : Verdict :=
  verdictOf setAside event ((candidates.log setAside).result membershipRules loopRounds event)

/-- The event is a candidate that counts in the end. -/
def Counted (event : Event) : Prop :=
  event ∈ candidates.list ∧ candidates.finalVerdict setAside event = .counted

/-- Somebody owns the pod in the end. -/
def HasOwner : Prop :=
  ∃ member, (candidates.finalState setAside member (parsed.run member)).owner = true

/-- The identity is a member in the end, and its latest counted events are demotions, at sequence
`seq`, of which `actor` is the lowest actor. -/
structure Ended (member : PdnId) (seq : ℕ) (actor : PdnId) : Prop where
  remains : (candidates.finalState setAside member (parsed.run member)).member = true
  latest : ∀ event, candidates.Counted setAside event → event.subject = member → event.seq ≤ seq
  demoted : ∀ event, candidates.Counted setAside event → event.point = (member, seq) →
    rank event.kind ≤ rank .demoted
  lowest : IsLeast {a | ∃ event, candidates.Counted setAside event ∧ event.point = (member, seq) ∧
    event.kind = .demoted ∧ event.actor = a} actor

/-- The guard sets the demotion aside: nobody owns the pod, and of all ended ownerships the
demotion's is the last. -/
def Spared (event : Event) : Prop :=
  ¬ candidates.HasOwner setAside ∧ ∃ member seq actor, candidates.Ended setAside member seq actor ∧
    (∀ m s a, candidates.Ended setAside m s a → a < actor ∨ a = actor ∧ m ≤ member) ∧
    candidates.Counted setAside event ∧ event.point = (member, seq) ∧ event.kind = .demoted

variable {candidates setAside} in
lemma Ended.seq_eq {member actor actor' : PdnId} {seq seq' : ℕ}
    (h : candidates.Ended setAside member seq actor)
    (h' : candidates.Ended setAside member seq' actor') : seq = seq' := by
  obtain ⟨⟨f, hf, hfpoint, -⟩, -⟩ := h.lowest
  obtain ⟨⟨g, hg, hgpoint, -⟩, -⟩ := h'.lowest
  obtain ⟨hfsubject, hfseq⟩ := Prod.mk.inj hfpoint
  obtain ⟨hgsubject, hgseq⟩ := Prod.mk.inj hgpoint
  have hle := h.latest g hg hgsubject
  have hle' := h'.latest f hf hfsubject
  omega

variable {candidates setAside} in
lemma Ended.eq_of_last {member actor member' actor' : PdnId} {seq seq' : ℕ}
    (h : candidates.Ended setAside member seq actor)
    (hmax : ∀ m s a, candidates.Ended setAside m s a → a < actor ∨ a = actor ∧ m ≤ member)
    (h' : candidates.Ended setAside member' seq' actor')
    (hmax' : ∀ m s a, candidates.Ended setAside m s a → a < actor' ∨ a = actor' ∧ m ≤ member') :
    member = member' ∧ seq = seq' := by grind [h.seq_eq]

end Candidates

/-! ## The latest winner -/

lemma getLast?_filterMap_range' {α : Type} (f : ℕ → Option α) (n : ℕ) (a : α) :
    ((List.range' 1 n).filterMap f).getLast? = some a ↔
      ∃ s, 1 ≤ s ∧ s ≤ n ∧ f s = some a ∧ ∀ t, s < t → t ≤ n → f t = none := by
  induction n with
  | zero => grind
  | succ n ih =>
    rw [List.range'_1_concat, List.filterMap_append]
    rcases hf : f (1 + n) with _ | b
    · grind
    · grind

namespace Pass

variable {parsed : Parsed} {candidates : Candidates parsed} {setAside : Finset ℕ}
  {verdicts : List Verdict} {pass : Pass}

/-! ## The loop that spares one -/

/-- **The loop over the ended ownerships sets the last one's demotions aside.**

**Proof sketch.** Each turn but the last strikes its subject off, so that at the last one only its
own remains. -/
lemma foldl_spare (l : List (PdnId × PdnId × List ℕ)) (hnodup : (l.map fun d => d.2.1).Nodup) :
    (l.foldl spare ((l.map fun d => d.2.1).toFinset, ∅)).2 =
      (l.getLast?.map fun d => d.2.2.toFinset).getD ∅ := by
  induction l with
  | nil => rfl
  | cons d l ih =>
    obtain ⟨hnot, hrest⟩ := List.nodup_cons.mp hnodup
    rcases l with _ | ⟨d', l⟩
    · simp [spare]
    · have herase : ((List.map (fun d => d.2.1) (d :: d' :: l)).toFinset).erase d.2.1 =
          (List.map (fun d => d.2.1) (d' :: l)).toFinset := by
        rw [List.map_cons, List.toFinset_cons, Finset.erase_insert]
        simpa using hnot
      have hcard : ((List.map (fun d => d.2.1) (d :: d' :: l)).toFinset).card ≠ 1 := by
        rw [List.toFinset_card_of_nodup hnodup]
        simp
      have hstep : spare ((List.map (fun d => d.2.1) (d :: d' :: l)).toFinset, ∅) d =
          ((List.map (fun d => d.2.1) (d' :: l)).toFinset, ∅) := by
        simp only [spare, hcard, false_and, if_false, herase]
      rw [List.foldl_cons, hstep, ih hrest, List.getLast?_cons_cons]

/-! ## What is set aside -/

/-- Where nobody listed owns the pod, nobody does. -/
lemma any_owner_iff (h : pass.Solves candidates setAside verdicts) :
    ((pass.finals parsed).any fun f => f.2.owner) = true ↔ candidates.HasOwner setAside := by
  have hstate : ∀ member, pass.state member (parsed.run member) =
      candidates.finalState setAside member (parsed.run member) := fun member =>
    h.state member _ le_rfl
  simp only [finals, List.any_map, List.any_eq_true, Function.comp_apply, hstate]
  constructor
  · rintro ⟨member, -, howner⟩
    exact ⟨member, howner⟩
  · rintro ⟨member, howner⟩
    refine ⟨member, ?_, howner⟩
    -- an identity with no run is in the state of the start
    have hrun : 0 < parsed.run member := Nat.pos_of_ne_zero fun hzero => by
      rw [hzero, Candidates.finalState, Log.final_zero] at howner
      exact absurd howner (by decide)
    simp [identities, List.mem_insertionSort, candidates.mem_chains member hrun]

lemma Solves.winnerOf (h : pass.Solves candidates setAside verdicts) (point : Point) :
    WinnerOf {event | candidates.Counted setAside event ∧ event.point = point}
      (pass.winners point) := by
  have heq : {event | candidates.Counted setAside event ∧ event.point = point} =
      {event | event ∈ candidates.list ∧ event.point = point ∧
        candidates.finalVerdict setAside event = .counted} := by
    ext event
    simp only [Candidates.Counted, Set.mem_ofPred_eq, and_assoc]
    exact and_congr_right fun _ => and_comm
  rw [heq]
  exact h.winner point

/-- **The demotion found to have ended an ownership** did, and lists its events. -/
lemma Solves.ended_of_endingDemotion (h : pass.Solves candidates setAside verdicts)
    {member actor : PdnId} {entries : List ℕ}
    (hmember : (candidates.finalState setAside member (parsed.run member)).member = true)
    (hending : pass.endingDemotion parsed member = some (actor, entries)) :
    ∃ seq, candidates.Ended setAside member seq actor ∧ ∀ i, i ∈ entries ↔
      ∃ event, candidates.Counted setAside event ∧ event.point = (member, seq) ∧
        event.kind = .demoted ∧ event.entry = i := by
  obtain ⟨winner, hlast, hdemotion⟩ := Option.bind_eq_some_iff.mp hending
  obtain ⟨seq, hpos, hrun, hwinner, hlater⟩ := (getLast?_filterMap_range' _ _ _).mp hlast
  have hof := h.winnerOf (member, seq)
  rw [hwinner] at hof
  obtain ⟨-, hmax, hlisted⟩ := hof
  unfold demotionOf at hdemotion
  split at hdemotion
  case h_2 => simp at hdemotion
  next hkind =>
  rw [hkind] at hmax hlisted
  obtain ⟨low, hlow, heq⟩ := Option.map_eq_some_iff.mp hdemotion
  obtain ⟨rfl, rfl⟩ := Prod.mk.inj heq
  obtain ⟨hlowmem, hlowest⟩ := List.min?_eq_some_iff.mp hlow
  refine ⟨seq, ⟨hmember, fun event hcounted hsubject => ?_, ?_, ?_, ?_⟩, fun i => ?_⟩
  · -- what counts later would have left a winner there
    by_contra hlt
    have hle := candidates.seq_le_run event hcounted.1
    rw [hsubject] at hle
    have hnone := h.winnerOf (member, event.seq)
    rw [hlater event.seq (by omega) hle] at hnone
    have : event ∈ (∅ : Set Event) := hnone ▸ ⟨hcounted, by rw [Event.point, hsubject]⟩
    exact this
  · exact fun event hcounted hpoint => hmax event ⟨hcounted, hpoint⟩
  · grind
  · rintro _ ⟨event, hcounted, hpoint, hdemoted, rfl⟩
    exact hlowest _ (List.mem_map.mpr
      ⟨_, (hlisted _).mpr ⟨event, ⟨hcounted, hpoint⟩, hdemoted, rfl⟩, rfl⟩)
  · rw [List.mem_map]
    constructor
    · grind
    · rintro ⟨event, hcounted, hpoint, hdemoted, rfl⟩
      exact ⟨_, (hlisted _).mpr ⟨event, ⟨hcounted, hpoint⟩, hdemoted, rfl⟩, rfl⟩

/-- **An ended ownership is found.** -/
lemma Solves.exists_endingDemotion (h : pass.Solves candidates setAside verdicts)
    {member actor : PdnId} {seq : ℕ} (hended : candidates.Ended setAside member seq actor) :
    ∃ entries, pass.endingDemotion parsed member = some (actor, entries) := by
  obtain ⟨⟨event, hcounted, hpoint, hdemoted, hactor⟩, hlowest⟩ := hended.lowest
  obtain ⟨hsubject, hseq⟩ := Prod.mk.inj hpoint
  have hof := h.winnerOf (member, seq)
  rcases hwinner : pass.winners (member, seq) with _ | winner
  · rw [hwinner] at hof
    have : event ∈ (∅ : Set Event) := hof ▸ ⟨hcounted, hpoint⟩
    exact this.elim
  rw [hwinner] at hof
  obtain ⟨⟨top, ⟨htop, htoppoint⟩, hkind⟩, hmax, hlisted⟩ := hof
  have hkind' : winner.kind = .demoted := by
    refine rank_injective (le_antisymm ?_ ?_)
    · rw [← hkind]
      exact hended.demoted top htop htoppoint
    · rw [← hdemoted]
      exact hmax event ⟨hcounted, hpoint⟩
  rw [hkind'] at hlisted
  have hlast : ((List.range' 1 (parsed.run member)).filterMap
      fun seq => pass.winners (member, seq)).getLast? = some winner := by
    refine (getLast?_filterMap_range' _ _ _).mpr ⟨seq, ?_, ?_, hwinner, fun t hst _ => ?_⟩
    · exact hseq ▸ candidates.seq_pos event hcounted.1
    · rw [← hseq, ← hsubject]
      exact candidates.seq_le_run event hcounted.1
    · rcases hlater : pass.winners (member, t) with _ | later
      · rfl
      · have hof' := h.winnerOf (member, t)
        rw [hlater] at hof'
        obtain ⟨⟨f, ⟨hf, hfpoint⟩, -⟩, -⟩ := hof'
        obtain ⟨hfsubject, hfseq⟩ := Prod.mk.inj hfpoint
        have := hended.latest f hf hfsubject
        omega
  have hmin : (winner.events.map Prod.snd).min? = some actor := by
    refine List.min?_eq_some_iff.mpr ⟨?_, fun b hb => ?_⟩
    · exact List.mem_map.mpr ⟨_, (hlisted _).mpr ⟨event, ⟨hcounted, hpoint⟩, hdemoted, rfl⟩, hactor⟩
    · obtain ⟨q, hq, rfl⟩ := List.mem_map.mp hb
      obtain ⟨f, ⟨hf, hfpoint⟩, hfdemoted, rfl⟩ := (hlisted q).mp hq
      exact hlowest ⟨f, hf, hfpoint, hfdemoted, rfl⟩
  exact ⟨winner.events.map Prod.fst, by simp [endingDemotion, hlast, demotionOf, hkind', hmin]⟩

lemma mem_ended {d : PdnId × PdnId × List ℕ} (h : pass.Solves candidates setAside verdicts) :
    d ∈ pass.ended parsed ↔ d.2.1 ∈ identities parsed ∧
      (candidates.finalState setAside d.2.1 (parsed.run d.2.1)).member = true ∧
      pass.endingDemotion parsed d.2.1 = some (d.1, d.2.2) := by
  have hstate : ∀ member, pass.state member (parsed.run member) =
      candidates.finalState setAside member (parsed.run member) := fun member =>
    h.state member _ le_rfl
  simp only [ended, List.mem_insertionSort, List.mem_filterMap, List.mem_filter, finals,
    List.mem_map, Option.map_eq_some_iff]
  constructor
  · grind
  · rintro ⟨hmem, hmember, hending⟩
    exact ⟨_, ⟨⟨d.2.1, hmem, rfl⟩, by rw [hstate]; exact hmember⟩, _, hending, rfl⟩

lemma identities_nodup (parsed : Parsed) : (identities parsed).Nodup :=
  (List.perm_insertionSort _ _).nodup_iff.mpr (List.nodup_dedup _)

/-- No identity's ownership ended twice. -/
lemma ended_nodup : ((pass.ended parsed).map fun d => d.2.1).Nodup := by
  have hperm := (List.perm_insertionSort endedLe
    (((pass.finals parsed).filter fun f => f.2.member).filterMap fun f =>
      (pass.endingDemotion parsed f.1).map fun d => (d.1, f.1, d.2))).map fun d => d.2.1
  refine hperm.nodup_iff.mpr ?_
  have hids : (((pass.finals parsed).filter fun f => f.2.member).map Prod.fst).Nodup := by
    grind [finals, identities_nodup, List.filter_sublist.map]
  refine List.Sublist.nodup ?_ hids
  induction (pass.finals parsed).filter fun f => f.2.member with
  | nil => simp
  | cons f l ih =>
    rcases hf : pass.endingDemotion parsed f.1 with _ | d
    · rw [List.filterMap_cons_none (by simp [hf]), List.map_cons]
      exact ih.trans (List.sublist_cons_self _ _)
    · grind

instance : Std.Total endedLe := ⟨fun a b => by
  unfold endedLe
  rcases lt_trichotomy a.1 b.1 with h | h | h
  · exact Or.inl (Or.inl h)
  · exact (le_total a.2.1 b.2.1).imp (fun h' => Or.inr ⟨h, h'⟩) fun h' => Or.inr ⟨h.symm, h'⟩
  · exact Or.inr (Or.inl h)⟩

instance : IsTrans (PdnId × PdnId × List ℕ) endedLe := ⟨fun a b c hab hbc => by
  unfold endedLe at hab hbc ⊢
  rcases hab with hab | ⟨hab, hab'⟩ <;> rcases hbc with hbc | ⟨hbc, hbc'⟩
  · exact Or.inl (hab.trans hbc)
  · exact Or.inl (hbc ▸ hab)
  · exact Or.inl (hab ▸ hbc)
  · exact Or.inr ⟨hab.trans hbc, hab'.trans hbc'⟩⟩

lemma endedLe_getLast {d d' : PdnId × PdnId × List ℕ}
    (hlast : (pass.ended parsed).getLast? = some d) (hmem : d' ∈ pass.ended parsed) :
    d' = d ∨ endedLe d' d := by
  obtain ⟨before, hsplit⟩ := List.getLast?_eq_some_iff.mp hlast
  have hsorted : (pass.ended parsed).Pairwise endedLe := List.pairwise_insertionSort _ _
  rw [hsplit] at hsorted hmem
  rcases List.mem_append.mp hmem with hmem | hmem
  · exact Or.inr ((List.pairwise_append.mp hsorted).2.2 d' hmem d (List.mem_singleton_self d))
  · exact Or.inl (List.mem_singleton.mp hmem)

lemma Solves.exists_mem_ended (h : pass.Solves candidates setAside verdicts)
    {member actor : PdnId} {seq : ℕ} (hended : candidates.Ended setAside member seq actor) :
    ∃ entries, (actor, member, entries) ∈ pass.ended parsed := by
  obtain ⟨entries, hentries⟩ := h.exists_endingDemotion hended
  refine ⟨entries, (mem_ended h).mpr ⟨?_, hended.remains, hentries⟩⟩
  obtain ⟨⟨event, hcounted, hpoint, -⟩, -⟩ := hended.lowest
  have hpos := candidates.seq_pos event hcounted.1
  have hrun := candidates.seq_le_run event hcounted.1
  rw [(Prod.mk.inj hpoint).1] at hrun
  simp [identities, List.mem_insertionSort, candidates.mem_chains member (by omega)]

/-- **The last of the ended ownerships**, as the sorted list has it. -/
lemma Solves.ended_getLast (h : pass.Solves candidates setAside verdicts) {actor member : PdnId}
    {entries : List ℕ} (hlast : (pass.ended parsed).getLast? = some (actor, member, entries)) :
    ∃ seq, candidates.Ended setAside member seq actor ∧
      (∀ m s a, candidates.Ended setAside m s a → a < actor ∨ a = actor ∧ m ≤ member) ∧
      ∀ i, i ∈ entries ↔ ∃ event, candidates.Counted setAside event ∧
        event.point = (member, seq) ∧ event.kind = .demoted ∧ event.entry = i := by
  obtain ⟨-, hmember, hending⟩ := (mem_ended h).mp (List.mem_of_getLast? hlast)
  obtain ⟨seq, hended, hentries⟩ := h.ended_of_endingDemotion hmember hending
  refine ⟨seq, hended, fun m s a hended' => ?_, hentries⟩
  obtain ⟨l, hl⟩ := h.exists_mem_ended hended'
  rcases endedLe_getLast hlast hl with heq | hle
  · simp only [Prod.mk.injEq] at heq
    exact Or.inr ⟨heq.1, heq.2.1.le⟩
  · exact hle

lemma Solves.exists_last_ended (h : pass.Solves candidates setAside verdicts)
    {member actor : PdnId} {seq : ℕ} (hended : candidates.Ended setAside member seq actor) :
    ∃ member seq actor, candidates.Ended setAside member seq actor ∧
      ∀ m s a, candidates.Ended setAside m s a → a < actor ∨ a = actor ∧ m ≤ member := by
  obtain ⟨l, hl⟩ := h.exists_mem_ended hended
  rcases hlast : (pass.ended parsed).getLast? with _ | ⟨actor', member', entries⟩
  · rw [List.getLast?_eq_none_iff.mp hlast] at hl
    simp at hl
  · obtain ⟨seq', hended', hmax, -⟩ := h.ended_getLast hlast
    exact ⟨member', seq', actor', hended', hmax⟩

/-- **What the guard sets aside after a pass**: with nobody owning the pod, the demotions that
ended the last of the ended ownerships. -/
lemma mem_demotionsToSetAside (h : pass.Solves candidates setAside verdicts) {i : ℕ} :
    i ∈ pass.demotionsToSetAside parsed ↔
      ∃ event, candidates.Spared setAside event ∧ event.entry = i := by
  unfold demotionsToSetAside
  split_ifs with hany
  · have howner := (any_owner_iff h).mp hany
    simp [Candidates.Spared, howner]
  have hnone : ¬ candidates.HasOwner setAside := fun howner => hany ((any_owner_iff h).mpr howner)
  rw [foldl_spare _ ended_nodup]
  rcases hlast : (pass.ended parsed).getLast? with _ | ⟨actor, member, entries⟩
  · have hempty : pass.ended parsed = [] := List.getLast?_eq_none_iff.mp hlast
    simp only [Option.map_none, Option.getD_none, Finset.notMem_empty, false_iff]
    rintro ⟨event, ⟨-, m, s, a, hended, -⟩, -⟩
    obtain ⟨l, hl⟩ := h.exists_mem_ended hended
    simp [hempty] at hl
  · obtain ⟨seq, hended, hmax, hentries⟩ := h.ended_getLast hlast
    simp only [Option.map_some, Option.getD_some, List.mem_toFinset, hentries]
    constructor
    · rintro ⟨event, hcounted, hpoint, hdemoted, rfl⟩
      exact ⟨event, ⟨hnone, member, seq, actor, hended, hmax, hcounted, hpoint, hdemoted⟩, rfl⟩
    · rintro ⟨event, ⟨-, m, s, a, hended', hmax', hcounted, hpoint, hdemoted⟩, rfl⟩
      obtain ⟨rfl, rfl⟩ := hended.eq_of_last hmax hended' hmax'
      exact ⟨event, hcounted, hpoint, hdemoted, rfl⟩

end Pass

end MeePdn
