import MeePdn.DataLayer.Pod.MembershipView.Pass
import MeePdn.Settling.Simulation

/-!
# What the candidates mean

The candidates of a membership store as a log of chains that settle by what they read: the tables
`allows`, `rank` and `apply` are its rules, and a demotion the guard sets aside does not count. The
evaluation computes what this log settles in; that it does is proved where it is followed turn by
turn.

## Main definitions

* `membershipRules` — the tables as the rules of a log.
* `Candidates` — a list of candidates with what `Alone` makes sure of.
* `Candidates.log` — the log they form, some demotions set aside.
* `verdictOf` — the verdict an outcome is.
* `WinnerOf` — a recorded winner stands for the events that count at its point.

## Main results

* `after_eq_apply`, `after_eq_before` — the state a sequence leaves, by the highest kind.
* `WinnerOf.record` — recording one more event.
-/

namespace MeePdn

open Settling Classical

/-! ## The rules -/

/-- The kinds from the highest rank down. -/
def kindsByRank : List EventKind := [.removed, .left, .demoted, .promoted, .created, .joined]

/-- The tables of the membership view as the rules of a log. -/
noncomputable def membershipRules : Rules EventKind MemberState where
  start := default
  allows := fun before kind => allows before kind = true
  reads := fun kind => kind ≠ .created ∧ kind ≠ .left
  after := fun before kinds => ((kindsByRank.find? fun kind => kind ∈ kinds).map apply).getD before

lemma reads_iff {kind : EventKind} :
    membershipRules.reads kind ↔ kind ≠ .created ∧ kind ≠ .left := Iff.rfl

/-- A sequence leaves the state its highest kind does. -/
lemma after_eq_apply {before : MemberState} {kinds : Set EventKind} {kind : EventKind}
    (hmem : kind ∈ kinds) (hmax : ∀ k ∈ kinds, rank k ≤ rank kind) :
    membershipRules.after before kinds = apply kind := by
  obtain ⟨higher, lower, hsplit, hhigher⟩ : ∃ higher lower, kindsByRank = higher ++ kind :: lower ∧
      ∀ k ∈ higher, rank kind < rank k := by
    cases kind
    · exact ⟨[.removed, .left, .demoted, .promoted], [.joined], rfl, by decide⟩
    · exact ⟨[.removed, .left, .demoted, .promoted, .created], [], rfl, by decide⟩
    · exact ⟨[.removed], [.demoted, .promoted, .created, .joined], rfl, by decide⟩
    · exact ⟨[], [.left, .demoted, .promoted, .created, .joined], rfl, by decide⟩
    · exact ⟨[.removed, .left, .demoted], [.created, .joined], rfl, by decide⟩
    · exact ⟨[.removed, .left], [.promoted, .created, .joined], rfl, by decide⟩
  have hfind : (kindsByRank.find? fun k => k ∈ kinds) = some kind := by grind
  simp [membershipRules, hfind]

lemma after_eq_before {before : MemberState} {kinds : Set EventKind} (hempty : kinds = ∅) :
    membershipRules.after before kinds = before := by
  simp [membershipRules, hempty, kindsByRank]

/-! ## The candidates as a log -/

/-- A list of candidates as `Alone` lets them pass: each lies within its chain's run and names a
point within its actor's. The chains with a run are listed, each once, and the entries are enough
for the runs. -/
structure Candidates (parsed : Parsed) where
  list : List Event
  entry_nodup : (list.map Event.entry).Nodup
  seq_pos : ∀ event ∈ list, 0 < event.seq
  seq_le_run : ∀ event ∈ list, event.seq ≤ parsed.run event.subject
  actorSeq_le_run : ∀ event ∈ list, event.actorSeq ≤ parsed.run event.actor
  chains_nodup : parsed.chains.Nodup
  mem_chains : ∀ member, 0 < parsed.run member → member ∈ parsed.chains
  length_le : list.length ≤ parsed.events.length
  runs_le : (parsed.chains.map parsed.run).sum ≤ parsed.events.length

namespace Candidates

variable {parsed : Parsed} (candidates : Candidates parsed) (setAside : Finset ℕ)

/-- The log the candidates form; a demotion set aside does not count. -/
def log : Log PdnId EventKind MemberState Event where
  events := {event | event ∈ candidates.list}
  finite := candidates.list.finite_toSet
  subject := Event.subject
  seq := Event.seq
  kind := Event.kind
  actor := Event.actor
  actorSeq := Event.actorSeq
  counts := fun event actor => Pass.judge setAside event actor = .counted
  run := parsed.run
  seq_pos := candidates.seq_pos
  seq_le_run := candidates.seq_le_run
  actorSeq_le_run := candidates.actorSeq_le_run

lemma index_eq {i j : ℕ} {a b : Event} (ha : candidates.list[i]? = some a)
    (hb : candidates.list[j]? = some b) (hentry : a.entry = b.entry) : i = j := by
  have hi : i < (candidates.list.map Event.entry).length := by
    simpa using (List.getElem?_eq_some_iff.mp ha).1
  exact (List.getElem?_inj hi candidates.entry_nodup).mp (by simp [ha, hb, hentry])

end Candidates

/-- The verdict an outcome is. -/
def verdictOf (setAside : Finset ℕ) (event : Event) : Outcome MemberState → Verdict
  | .barred => .countedForNothing .transitionNotAllowed
  | .looped => .countedForNothing .cyclic
  | .judged actor => Pass.judge setAside event actor

lemma counts_iff {parsed : Parsed} {candidates : Candidates parsed} {setAside : Finset ℕ}
    {event : Event} {o : Outcome MemberState} :
    (candidates.log setAside).Counts event o ↔ verdictOf setAside event o = .counted := by
  cases o <;> simp [Log.Counts, verdictOf, Candidates.log]

/-! ## Winners -/

/-- A recorded winner stands for a set of events: it is of their highest kind, and lists those of
that kind. -/
def WinnerOf (events : Set Event) : Option Winner → Prop
  | none => events = ∅
  | some winner =>
    (∃ event ∈ events, event.kind = winner.kind) ∧
      (∀ event ∈ events, rank event.kind ≤ rank winner.kind) ∧
        ∀ q, q ∈ winner.events ↔
          ∃ event ∈ events, event.kind = winner.kind ∧ q = (event.entry, event.actor)

/-- **Recording one more event** that counts. -/
lemma WinnerOf.record {events : Set Event} {winner : Option Winner} (h : WinnerOf events winner)
    (event : Event) : WinnerOf (insert event events) (some (Pass.Winner.record event winner)) := by
  rcases winner with _ | ⟨kind, listed⟩
  · obtain rfl : events = ∅ := h
    simp [WinnerOf, Pass.Winner.record]
  · obtain ⟨⟨top, htop, hkind⟩, hmax, hlisted⟩ := h
    dsimp only at hkind hmax hlisted
    unfold Pass.Winner.record
    dsimp only
    split_ifs with hlt heq
    · -- outranked by the winner so far
      have hne : event.kind ≠ kind := fun heq => by simp [heq] at hlt
      refine ⟨⟨top, Set.mem_insert_of_mem _ htop, hkind⟩, ?_, fun q => ?_⟩
      · rintro f (rfl | hf)
        · exact hlt.le
        · exact hmax f hf
      · simp [hlisted, hne]
    · -- one more of the winner's kind
      refine ⟨⟨top, Set.mem_insert_of_mem _ htop, hkind⟩, ?_, fun q => ?_⟩
      · rintro f (rfl | hf)
        · exact (congrArg rank heq).ge
        · exact hmax f hf
      · simp [hlisted, ← heq, or_comm]
    · -- it outranks the winner so far
      have hrank : rank kind < rank event.kind :=
        lt_of_le_of_ne (not_lt.mp hlt) fun h' => heq (rank_injective h')
      refine ⟨⟨event, Set.mem_insert _ _, rfl⟩, ?_, fun q => ?_⟩
      · rintro f (rfl | hf)
        · exact le_rfl
        · exact (hmax f hf).trans hrank.le
      · grind

lemma WinnerOf.after {events : Set Event} {winner : Option Winner} (h : WinnerOf events winner)
    (before : MemberState) :
    (winner.map fun w => apply w.kind).getD before =
      membershipRules.after before (Event.kind '' events) := by
  rcases winner with _ | winner
  · obtain rfl : events = ∅ := h
    simp [after_eq_before]
  · obtain ⟨⟨top, htop, hkind⟩, hmax, -⟩ := h
    have hmem : winner.kind ∈ Event.kind '' events := ⟨top, htop, hkind⟩
    refine (after_eq_apply hmem ?_).symm
    rintro _ ⟨f, hf, rfl⟩
    exact hmax f hf

end MeePdn
