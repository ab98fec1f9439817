import MeePdn.DataLayer.Pod.Past
import MeePdn.DataLayer.Pod.MembershipView.Rooted

/-!
# The standings of an identity

An identity of a view is a member, has departed, or never was a member. `joined_at` and
`departed_at` search its chain backwards; what they find is tied here to the states along the chain
and to the events that count, and to whether there is a past of its departure.

## Main definitions

* `Member.IsPresent`, `HasDeparted`, `Member.IsStranger` — the three standings.

## Main results

* `new_standings` — **every identity of a view is in exactly one of the three**, and
  `departure_past` gives a past exactly in the second.
-/

namespace MeePdn

/-! ## Backward searches -/

lemma find?_reverse_range' {p : ℕ → Bool} {n j : ℕ} :
    (List.range' 1 n).reverse.find? p = some j ↔
      1 ≤ j ∧ j ≤ n ∧ p j = true ∧ ∀ k, j < k → k ≤ n → p k = false := by
  induction n with
  | zero => simp; omega
  | succ n ih =>
    rw [List.range'_1_concat, List.reverse_append, List.reverse_singleton, List.singleton_append,
      List.find?_cons, add_comm 1 n]
    cases hp : p (n + 1) with
    | true => grind
    | false => grind

namespace Member

/-- The member's state after a sequence of its chain is that of a member. -/
def MemberAt (m : Member) (seq : ℕ) : Prop :=
  ∃ state, m.stateAt seq = some state ∧ state.member = true

/-- The member's state after a sequence of its chain is that of no member. -/
def StrangerAt (m : Member) (seq : ℕ) : Prop :=
  ∃ state, m.stateAt seq = some state ∧ state.member = false

/-- A member, from the sequence it joined at. -/
def IsPresent (m : Member) : Prop :=
  m.state.member = true ∧ ∃ joined, m.joinedAt = some joined ∧ 1 ≤ joined ∧ joined ≤ m.run ∧
    m.StrangerAt (joined - 1) ∧ ∀ seq, joined ≤ seq → seq ≤ m.run → m.MemberAt seq

/-- Never a member. -/
def IsStranger (m : Member) : Prop :=
  (∀ seq ≤ m.run, m.StrangerAt seq) ∧ m.joinedAt = none ∧ m.departedAt = none

/-- The chain gives the states: one for each sequence of the run, the last being the state shown;
at the start nobody is a member. -/
structure Follows (m : Member) (states : ℕ → MemberState) : Prop where
  stateAt : ∀ seq, m.stateAt seq = if seq ≤ m.run then some (states seq) else none
  state : m.state = states m.run
  start : (states 0).member = false

namespace Follows

variable {m : Member} {states : ℕ → MemberState}

lemma memberAt_iff (h : m.Follows states) {seq : ℕ} (hrun : seq ≤ m.run) :
    m.MemberAt seq ↔ (states seq).member = true := by
  simp [MemberAt, h.stateAt, hrun]

lemma strangerAt_iff (h : m.Follows states) {seq : ℕ} (hrun : seq ≤ m.run) :
    m.StrangerAt seq ↔ (states seq).member = false := by
  simp [StrangerAt, h.stateAt, hrun]

/-- **Where `joined_at` is**: for a member, the last sequence with no member before it. -/
lemma joinedAt_eq_some (h : m.Follows states) {joined : ℕ} : m.joinedAt = some joined ↔
    m.state.member = true ∧ 1 ≤ joined ∧ joined ≤ m.run ∧ (states (joined - 1)).member = false ∧
      ∀ seq, joined ≤ seq → seq < m.run → (states seq).member = true := by
  rw [Member.joinedAt]
  split
  · next hstate => simp_all
  · next hstate =>
    rw [Bool.not_eq_true, Bool.not_eq_false'] at hstate
    rw [find?_reverse_range']
    simp only [hstate, true_and]
    refine and_congr_right fun h1 => and_congr_right fun hle => ?_
    have hbefore : ∀ k, 1 ≤ k → k ≤ m.run →
        ((m.stateAt (k - 1)).any fun before => before.member) = (states (k - 1)).member := by
      intro k hk hkrun
      rw [h.stateAt, if_pos (by omega), Option.any_some]
    rw [hbefore joined h1 hle, Bool.not_eq_true']
    refine and_congr_right fun _ => ⟨fun hlater seq hseq hrun => ?_, fun hlater k hk hkrun => ?_⟩
    · have hnext := hlater (seq + 1) (by omega) hrun
      rwa [hbefore (seq + 1) (by omega) hrun, Bool.not_eq_false', Nat.add_sub_cancel] at hnext
    · rw [hbefore k (by omega) hkrun, Bool.not_eq_false']
      exact hlater (k - 1) (by omega) (by omega)

lemma member_of_no_departure {start seq later : ℕ}
    (hno : ∀ k, start < k → k ≤ m.run → (states (k - 1)).member = true → (states k).member = true)
    (hstart : start ≤ seq) (hseq : (states seq).member = true) (hle : seq ≤ later)
    (hrun : later ≤ m.run) : (states later).member = true := by
  induction later, hle using Nat.le_induction with
  | base => exact hseq
  | succ later hle ih => exact hno (later + 1) (by omega) hrun (ih (by omega))

/-- **Where `departed_at` is**: for who is no member, the last sequence that ended a membership. -/
lemma departedAt_eq_some (h : m.Follows states) {departed : ℕ} : m.departedAt = some departed ↔
    m.state.member = false ∧ 1 ≤ departed ∧ departed ≤ m.run ∧
      (states (departed - 1)).member = true ∧
      ∀ seq, departed ≤ seq → seq ≤ m.run → (states seq).member = false := by
  rw [Member.departedAt]
  split
  · next hstate => simp_all
  · next hstate =>
    rw [Bool.not_eq_true] at hstate
    rw [find?_reverse_range']
    simp only [hstate, true_and]
    refine and_congr_right fun h1 => and_congr_right fun hle => ?_
    have hends : ∀ k, 1 ≤ k → k ≤ m.run →
        (((m.stateAt (k - 1)).any fun before => before.member) &&
          (m.stateAt k).any fun after => !after.member) =
        ((states (k - 1)).member && !(states k).member) := by
      intro k hk hkrun
      rw [h.stateAt, h.stateAt, if_pos (by omega), if_pos hkrun, Option.any_some, Option.any_some]
    rw [hends departed h1 hle, Bool.and_eq_true, Bool.not_eq_true', and_assoc]
    refine and_congr_right fun hbefore => ⟨?_, fun hlater => ⟨hlater departed le_rfl hle, ?_⟩⟩
    · rintro ⟨-, hlast⟩ seq hseq hrun
      rw [← Bool.not_eq_true]
      intro hmember
      refine absurd (member_of_no_departure (fun k hk hkrun hwas => ?_) hseq hmember hrun le_rfl)
        (by simp [← h.state, hstate])
      have hnot := hlast k hk hkrun
      rw [hends k (by omega) hkrun, hwas, Bool.true_and, Bool.not_eq_false'] at hnot
      exact hnot
    · intro k hk hkrun
      rw [hends k (by omega) hkrun, hlater (k - 1) (by omega) (by omega), Bool.false_and]

lemma exists_joinedAt (h : m.Follows states) (hmember : m.state.member = true) :
    ∃ joined, m.joinedAt = some joined := by
  have hrun : 1 ≤ m.run := by grind [h.state, h.start]
  rw [← Option.isSome_iff_exists, Member.joinedAt, hmember, if_neg (by simp), List.find?_isSome]
  refine ⟨1, List.mem_reverse.mpr (List.mem_range'_1.mpr ⟨le_rfl, by omega⟩), ?_⟩
  simp [h.stateAt, h.start]

lemma exists_departedAt (h : m.Follows states) (hmember : m.state.member = false) {seq : ℕ}
    (hrun : seq ≤ m.run) (hwas : (states seq).member = true) :
    ∃ departed, m.departedAt = some departed := by
  by_contra hnone
  rw [← Option.isSome_iff_exists, Option.not_isSome_iff_eq_none, Member.departedAt,
    if_neg (by simp [hmember]), List.find?_eq_none] at hnone
  refine absurd (member_of_no_departure (fun k hk hkrun hwas => ?_) (Nat.zero_le seq) hwas hrun
    le_rfl) (by simp [← h.state, hmember])
  have hnot := hnone k (List.mem_reverse.mpr (List.mem_range'_1.mpr ⟨by omega, by omega⟩))
  rw [h.stateAt, h.stateAt, if_pos (by omega), if_pos hkrun, Option.any_some, Option.any_some, hwas,
    Bool.true_and, Bool.not_eq_true, Bool.not_eq_false'] at hnot
  exact hnot

/-- **A member** is present from where it joined. -/
lemma isPresent (h : m.Follows states) (hmember : m.state.member = true) : m.IsPresent := by
  obtain ⟨joined, hjoined⟩ := h.exists_joinedAt hmember
  obtain ⟨-, h1, hle, hbefore, hsince⟩ := h.joinedAt_eq_some.mp hjoined
  refine ⟨hmember, joined, hjoined, h1, hle, (h.strangerAt_iff (by omega)).mpr hbefore, ?_⟩
  intro seq hseq hrun
  rw [h.memberAt_iff hrun]
  rcases Nat.lt_or_eq_of_le hrun with hlt | rfl
  · exact hsince seq hseq hlt
  · rw [← h.state, hmember]

/-- **Who was at no sequence a member** is a stranger. -/
lemma isStranger (h : m.Follows states) (hmember : m.state.member = false)
    (hdeparted : m.departedAt = none) : m.IsStranger := by
  refine ⟨fun seq hrun => ?_, by simp [Member.joinedAt, hmember], hdeparted⟩
  rw [h.strangerAt_iff hrun, ← Bool.not_eq_true]
  intro hwas
  obtain ⟨departed, hsome⟩ := h.exists_departedAt hmember hrun hwas
  rw [hdeparted] at hsome
  cases hsome

end Follows

end Member

/-! ## The standings in a view -/

section Views

variable {prims : Primitives} {orders : ℕ → HashOrder} {pod : PodId} {store : NamespaceId}
  {entries : List HeldEntry} {member : PdnId} {seq : ℕ}

variable (prims pod store entries) in
lemma follows_shownMember (member : PdnId) : (shownMember prims pod store entries member).Follows
    ((candidatesOf prims pod store entries).finalState (finalSet prims pod store entries) member)
    where
  stateAt := fun seq => by rw [stateAt_shownMember, run_shownMember]
  state := by rw [run_shownMember]; rfl
  start := by rw [Candidates.finalState, Settling.Log.final_zero]; rfl

/-- **Who stops being a member at a sequence** does so by a left or a removed event there. -/
lemma exists_leaving {parsed : Parsed} {candidates : Candidates parsed} {setAside : Finset ℕ}
    (hrun : seq < parsed.run member)
    (hbefore : (candidates.finalState setAside member seq).member = true)
    (hafter : (candidates.finalState setAside member (seq + 1)).member = false) :
    ∃ event, candidates.Counted setAside event ∧ event.point = (member, seq + 1) ∧
      (event.kind = .removed ∨ event.kind = .left) := by
  have hsome : ∃ event, candidates.Counted setAside event ∧ event.point = (member, seq + 1) := by
    grind [finalState_succ_eq_self]
  obtain ⟨event, hcounted, hpoint⟩ := hsome
  obtain ⟨top, htop, htopPoint, -, hstate⟩ := exists_highest hrun hcounted hpoint
  rw [hstate] at hafter
  refine ⟨top, htop, htopPoint, ?_⟩
  -- every other kind leaves a member
  cases hkind : top.kind <;> simp [hkind, apply] at hafter ⊢

/-- Departed: a left or removed event counts at the sequence, and nobody is a member since. -/
def HasDeparted (entries : List HeldEntry) (view : MembershipView) (member : PdnId) (m : Member) :
    Prop :=
  m.state.member = false ∧ ∃ departed, m.departedAt = some departed ∧ 1 ≤ departed ∧
    departed ≤ m.run ∧ m.MemberAt (departed - 1) ∧
    (∀ seq, departed ≤ seq → seq ≤ m.run → m.StrangerAt seq) ∧
    ∃ event, CountedAt entries view member departed event ∧
      (event.kind = .removed ∨ event.kind = .left)

/-- **Who has departed**: the event that ended the membership counts. -/
lemma hasDeparted_shownMember {departed : ℕ}
    (hdeparted : (shownMember prims pod store entries member).departedAt = some departed) :
    HasDeparted entries (MembershipView.new prims orders pod store entries) member
      (shownMember prims pod store entries member) := by
  have h := follows_shownMember prims pod store entries member
  obtain ⟨hmember, h1, hle, hbefore, hsince⟩ := h.departedAt_eq_some.mp hdeparted
  refine ⟨hmember, departed, hdeparted, h1, hle, (h.memberAt_iff (by omega)).mpr hbefore,
    fun seq hseq hrun => (h.strangerAt_iff hrun).mpr (hsince seq hseq hrun), ?_⟩
  rw [run_shownMember] at hle
  obtain ⟨before, rfl⟩ := Nat.exists_eq_add_of_le' h1
  obtain ⟨event, hcounted, hpoint, hkind⟩ := exists_leaving hle hbefore
    (hsince _ le_rfl (by rwa [run_shownMember]))
  exact ⟨event, countedAt_iff.mpr ⟨hcounted, hpoint⟩, hkind⟩

/-- A past of a member's departure is there exactly where the view shows the departure. -/
lemma isSome_departurePast :
    (departurePast (MembershipView.new prims orders pod store entries) entries member).isSome
        = true ↔
      ∃ m, (MembershipView.new prims orders pod store entries).member member = some m ∧
        HasDeparted entries (MembershipView.new prims orders pod store entries) member m := by
  rw [departurePast, Option.isSome_map, Past.visited]
  constructor
  · grind [member_new, hasDeparted_shownMember]
  · rintro ⟨m, hm, -, departed, hdeparted, -, -, -, -, event, hcounted, hkind⟩
    have hbind : ((MembershipView.new prims orders pod store entries).member member).bind
        Member.departedAt = some departed := by rw [hm]; exact hdeparted
    rw [hbind]
    simp only [Option.isSome_map]
    exact Past.Index.isSome_departing hcounted.1 hcounted.2.1 hkind hcounted.2.2

/-- **Every identity of a view is in exactly one of three standings.** It is a member, and was one
at every sequence since it joined; or it has departed, by a left or removed event that counts; or
it never was a member. There is a past of a departure exactly in the second.

**Proof sketch.** `joined_at` finds the last sequence with no member before it, which is there for a
member since nobody is one at the start. `departed_at` finds the last sequence that ended a
membership: after it the state does not change back, and what ends a membership is a kind of the
highest rank that counts there. -/
theorem new_standings (prims : Primitives) (orders : ℕ → HashOrder) (pod : PodId)
    (store : NamespaceId) (entries : List HeldEntry) :
    let view := MembershipView.new prims orders pod store entries
    (∀ member m, view.member member = some m →
      m.IsPresent ∧ ¬ HasDeparted entries view member m ∧ ¬ m.IsStranger ∨
      ¬ m.IsPresent ∧ HasDeparted entries view member m ∧ ¬ m.IsStranger ∨
      ¬ m.IsPresent ∧ ¬ HasDeparted entries view member m ∧ m.IsStranger) ∧
    ∀ member, (departurePast view entries member).isSome = true ↔
      ∃ m, view.member member = some m ∧ HasDeparted entries view member m := by
  intro view
  refine ⟨fun member m hm => ?_, fun member => isSome_departurePast⟩
  have hshown := hm
  rw [member_new] at hshown
  split at hshown
  case isFalse => cases hshown
  obtain rfl := Option.some.inj hshown
  have h := follows_shownMember prims pod store entries member
  cases hstate : (shownMember prims pod store entries member).state.member with
  | true =>
    have hpresent := h.isPresent hstate
    refine Or.inl ⟨hpresent, fun hdeparted => ?_, fun hstranger => ?_⟩
    · exact absurd hdeparted.1 (by simp [hstate])
    · obtain ⟨-, joined, hjoined, -⟩ := hpresent
      rw [hstranger.2.1] at hjoined
      cases hjoined
  | false =>
    have hnot : ¬ (shownMember prims pod store entries member).IsPresent :=
      fun hpresent => absurd hpresent.1 (by simp [hstate])
    cases hdeparted : (shownMember prims pod store entries member).departedAt with
    | some departed =>
      refine Or.inr (Or.inl ⟨hnot, hasDeparted_shownMember hdeparted, fun hstranger => ?_⟩)
      rw [hstranger.2.2] at hdeparted
      cases hdeparted
    | none =>
      refine Or.inr (Or.inr ⟨hnot, fun hdeparts => ?_, h.isStranger hstate hdeparted⟩)
      obtain ⟨-, departed, hsome, -⟩ := hdeparts
      rw [hdeparted] at hsome
      cases hsome

end Views

end MeePdn
