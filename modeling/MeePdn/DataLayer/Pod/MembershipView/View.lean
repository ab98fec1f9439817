import MeePdn.DataLayer.Pod.MembershipView.Guard

/-!
# What the view shows

`MembershipView::new` makes up to four passes and shows the last. Whatever the hash maps' order,
that is the pass with the demotions set aside that the guard's steps lead to, and it shows what the
candidates' log settles in.

## Main definitions

* `guardSet` — the demotions set aside after so many passes.
* `finalSet` — those set aside in the pass the view shows.
* `shownMember` — what the view shows of an identity.

## Main results

* `new_eq` — the view is that of a pass with `finalSet` set aside, whatever the order.
* `members_new`, `stateAt_new` — the members and states it shows.
* `verdict_new`, `verdict_new_refused`, `verdict_new_statement` — the verdicts it gives.
-/

namespace MeePdn

open Settling Classical

section

variable (prims : Primitives) (pod : PodId) (store : NamespaceId) (entries : List HeldEntry)

/-- The checks on the entries. -/
abbrev checksOf : Alone := Alone.of prims pod store entries (Parsed.of entries)

/-- The demotions set aside after so many passes. -/
def guardSet : ℕ → Finset ℕ
  | 0 => ∅
  | passes + 1 => guardSet passes ∪
      (Pass.run (Parsed.of entries) (checksOf prims pod store entries) default
        (guardSet passes)).demotionsToSetAside (Parsed.of entries)

/-- The demotions set aside in the pass the view shows. -/
def finalSet : Finset ℕ := guardSet prims pod store entries (guardPasses - 1)

/-- What the view shows of an identity. -/
noncomputable def shownMember (member : PdnId) : Member where
  state := (candidatesOf prims pod store entries).finalState (finalSet prims pod store entries)
    member ((Parsed.of entries).run member)
  identityKey := (checksOf prims pod store entries).keys member
  devices := (checksOf prims pod store entries).devices member
  statementVersion := (checksOf prims pod store entries).statementVersions member
  chain := (List.range' 1 ((Parsed.of entries).run member)).map fun seq =>
    (seq, (candidatesOf prims pod store entries).finalState (finalSet prims pod store entries)
      member seq)

end

variable {prims : Primitives} {pod : PodId} {store : NamespaceId} {entries : List HeldEntry}
  {orders : ℕ → HashOrder}

/-! ## The guard's passes -/

/-- **What each pass adds to the demotions set aside.** -/
lemma mem_guardSet_succ {passes i : ℕ} : i ∈ guardSet prims pod store entries (passes + 1) ↔
    i ∈ guardSet prims pod store entries passes ∨ ∃ event,
      (candidatesOf prims pod store entries).Spared (guardSet prims pod store entries passes)
        event ∧ event.entry = i := by
  rw [guardSet, Finset.mem_union, Pass.mem_demotionsToSetAside (run_candidatesOf _ _ _ _ _ _)]

lemma demotionsToSetAside_run (order order' : HashOrder) (setAside : Finset ℕ) :
    (Pass.run (Parsed.of entries) (checksOf prims pod store entries) order
      setAside).demotionsToSetAside (Parsed.of entries) =
    (Pass.run (Parsed.of entries) (checksOf prims pod store entries) order'
      setAside).demotionsToSetAside (Parsed.of entries) := by
  ext i
  rw [Pass.mem_demotionsToSetAside (run_candidatesOf prims pod store entries order setAside),
    Pass.mem_demotionsToSetAside (run_candidatesOf prims pod store entries order' setAside)]

variable (prims orders pod store entries) in
/-- **The guard's loop ends in the pass its steps lead to.** A loop that ends early has nothing more
to set aside. -/
lemma guardLoop_eq (left passes : ℕ) : ∃ order,
    Pass.guardLoop (Parsed.of entries) (checksOf prims pod store entries) orders left
        (guardSet prims pod store entries passes) =
      (Pass.run (Parsed.of entries) (checksOf prims pod store entries) order
        (guardSet prims pod store entries (passes + left))).intoView (Parsed.of entries)
        (checksOf prims pod store entries) := by
  induction left generalizing passes with
  | zero => exact ⟨orders 0, rfl⟩
  | succ left ih =>
    have hnext : guardSet prims pod store entries passes ∪
        (Pass.run (Parsed.of entries) (checksOf prims pod store entries) (orders (left + 1))
          (guardSet prims pod store entries passes)).demotionsToSetAside (Parsed.of entries) =
        guardSet prims pod store entries (passes + 1) := by
      rw [guardSet, demotionsToSetAside_run (orders (left + 1)) default]
    unfold Pass.guardLoop
    dsimp only
    rw [hnext]
    split_ifs with hdone
    · have hsame : ∀ more, guardSet prims pod store entries (passes + more) =
          guardSet prims pod store entries passes := by
        intro more
        induction more with
        | zero => rfl
        | succ more ih =>
          rw [← Nat.add_assoc, guardSet, ih, demotionsToSetAside_run default (orders (left + 1)),
            Finset.union_eq_left.mpr hdone]
      exact ⟨orders (left + 1), by rw [hsame]⟩
    · obtain ⟨order, heq⟩ := ih (passes + 1)
      exact ⟨order, by rw [heq, Nat.add_right_comm, Nat.add_assoc]⟩

variable (prims orders pod store entries) in
/-- **The view is that of a pass with `finalSet` set aside**, whatever order the hash maps take. -/
lemma new_eq : ∃ order, MembershipView.new prims orders pod store entries =
    (Pass.run (Parsed.of entries) (checksOf prims pod store entries) order
      (finalSet prims pod store entries)).intoView (Parsed.of entries)
      (checksOf prims pod store entries) := by
  obtain ⟨order, heq⟩ := guardLoop_eq prims pod store entries orders (guardPasses - 1) 0
  exact ⟨order, heq.trans (by rw [Nat.zero_add]; rfl)⟩

/-! ## What is shown -/

lemma lookup_map {α β : Type} [BEq α] [LawfulBEq α] (f : α → β) (l : List α) (a : α) :
    (l.map fun b => (b, f b)).lookup a = if a ∈ l then some (f a) else none := by
  induction l with
  | nil => simp
  | cons b l ih => grind

/-- **The members the view shows.** -/
lemma members_new : (MembershipView.new prims orders pod store entries).members =
    (Pass.identities (Parsed.of entries)).map fun member =>
      (member, shownMember prims pod store entries member) := by
  obtain ⟨order, hnew⟩ := new_eq prims pod store entries orders
  have hsolves := run_candidatesOf prims pod store entries order (finalSet prims pod store entries)
  rw [hnew, Pass.intoView]
  refine List.map_congr_left fun member _ => ?_
  unfold shownMember
  rw [hsolves.state member _ le_rfl]
  congr 2
  refine List.map_congr_left fun seq hseq => ?_
  rw [List.mem_range'_1] at hseq
  rw [hsolves.state member seq (by omega)]
  rfl

lemma member_new {member : PdnId} :
    (MembershipView.new prims orders pod store entries).member member =
      if member ∈ Pass.identities (Parsed.of entries) then
        some (shownMember prims pod store entries member) else none := by
  rw [MembershipView.member, members_new, lookup_map]

lemma mem_identities {member : PdnId} : member ∈ Pass.identities (Parsed.of entries) ↔
    member ∈ (Parsed.of entries).chains ∨
      ∃ statement ∈ (Parsed.of entries).statements, statement.member = member := by
  simp [Pass.identities, List.mem_insertionSort]

@[simp] lemma run_shownMember (member : PdnId) :
    (shownMember prims pod store entries member).run = (Parsed.of entries).run member := by
  grind [Member.run, shownMember]

lemma stateAt_shownMember (member : PdnId) (seq : ℕ) :
    (shownMember prims pod store entries member).stateAt seq =
      if seq ≤ (Parsed.of entries).run member then
        some ((candidatesOf prims pod store entries).finalState (finalSet prims pod store entries)
          member seq)
      else none := by
  unfold Member.stateAt shownMember
  dsimp only
  rw [lookup_map]
  rcases Nat.eq_zero_or_pos seq with rfl | hpos
  · simp [Candidates.finalState, membershipRules]
  · grind

/-- **The states the view shows**: those of every point the runs reach, and no others. -/
lemma stateAt_new {member : PdnId} {seq : ℕ} :
    (MembershipView.new prims orders pod store entries).stateAt member seq =
      if seq ≤ (Parsed.of entries).run member then
        some ((candidatesOf prims pod store entries).finalState (finalSet prims pod store entries)
          member seq)
      else none := by
  unfold MembershipView.stateAt
  rw [member_new]
  by_cases hmember : member ∈ Pass.identities (Parsed.of entries)
  · rw [if_pos hmember, Option.bind_some, stateAt_shownMember]
    rcases Nat.eq_zero_or_pos seq with rfl | hpos
    · simp [Candidates.finalState, membershipRules]
    · simp [Nat.pos_iff_ne_zero.mp hpos]
  · -- an identity no entry names has no run
    have hrun : (Parsed.of entries).run member = 0 := by
      by_contra hne
      exact hmember (mem_identities.mpr
        (Or.inl (Parsed.mem_chains_of_run (Nat.pos_of_ne_zero hne))))
    rcases Nat.eq_zero_or_pos seq with rfl | hpos
    · simp [Candidates.finalState, membershipRules]
    · have hnot : ¬ seq ≤ 0 := by omega
      simp [hmember, hrun, Nat.pos_iff_ne_zero.mp hpos]

/-- **The verdict of a candidate.** -/
lemma verdict_new {event : Event} (hevent : event ∈ (candidatesOf prims pod store entries).list) :
    (MembershipView.new prims orders pod store entries).verdicts[event.entry]? =
      some ((candidatesOf prims pod store entries).finalVerdict (finalSet prims pod store entries)
        event) := by
  obtain ⟨order, hnew⟩ := new_eq prims pod store entries orders
  rw [hnew]
  exact (run_candidatesOf prims pod store entries order _).verdict event hevent

lemma verdict_new_other {entry : ℕ}
    (hother : ∀ event ∈ (candidatesOf prims pod store entries).list, event.entry ≠ entry) :
    (MembershipView.new prims orders pod store entries).verdicts[entry]? =
      (checksOf prims pod store entries).verdicts[entry]? := by
  obtain ⟨order, hnew⟩ := new_eq prims pod store entries orders
  rw [hnew]
  exact (run_candidatesOf prims pod store entries order _).others entry hother

/-- **The verdict of an event that fails a check.** -/
lemma verdict_new_refused {event : Event} {verdict : Verdict}
    (hevent : event ∈ (Parsed.of entries).events)
    (hrefused : Alone.refusal prims pod store entries (Parsed.of entries)
      (checksOf prims pod store entries).authors event = some verdict) :
    (MembershipView.new prims orders pod store entries).verdicts[event.entry]? = some verdict := by
  rw [verdict_new_other, (Alone.of_checked prims pod store entries).verdict_event event hevent
    verdict hrefused]
  intro candidate hcandidate hentry
  obtain ⟨hmem, hpass⟩ := mem_candidatesOf.mp hcandidate
  rw [Parsed.eq_of_entry hmem hevent hentry, hrefused] at hpass
  simp at hpass

lemma verdict_new_statement {statement : Statement}
    (hstatement : statement ∈ (Parsed.of entries).statements) :
    (MembershipView.new prims orders pod store entries).verdicts[statement.entry]? =
      some (Alone.statementVerdict prims pod entries (checksOf prims pod store entries).keys
        statement) := by
  rw [verdict_new_other, (Alone.of_checked prims pod store entries).verdict_statement statement
    hstatement]
  exact fun candidate hcandidate => Parsed.entry_ne (mem_candidatesOf.mp hcandidate).1 hstatement

lemma verdict_new_outside {entry : ℕ} (hentry : entry < entries.length)
    (hevents : ∀ event ∈ (Parsed.of entries).events, event.entry ≠ entry)
    (hstatements : ∀ statement ∈ (Parsed.of entries).statements, statement.entry ≠ entry) :
    (MembershipView.new prims orders pod store entries).verdicts[entry]? = some .outsideLayout := by
  rw [verdict_new_other fun candidate hcandidate =>
      hevents candidate (mem_candidatesOf.mp hcandidate).1,
    (Alone.of_checked prims pod store entries).verdict_outside entry hentry hevents hstatements]

lemma length_verdicts_new :
    (MembershipView.new prims orders pod store entries).verdicts.length = entries.length := by
  obtain ⟨order, hnew⟩ := new_eq prims pod store entries orders
  rw [hnew]
  exact (run_candidatesOf prims pod store entries order _).length.trans
    (Alone.of_checked prims pod store entries).length

end MeePdn
