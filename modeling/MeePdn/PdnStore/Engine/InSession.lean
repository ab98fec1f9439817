import MeePdn.PdnStore.Engine.Turns

/-!
# The identities running sessions named

An incoming session that the access provider admits enters its caller's identity, and every session
that ends gives one back, also one that never entered it. The count of an identity is therefore the
number of its admitted sessions exactly as long as no refused session of the identity ends while an
admitted one runs.

## Main definitions

* `LiveActor.Counted` — as many are entered as admitted sessions run.
* `LiveActor.Alone` — a session that was not admitted ends while no admitted session of the same key
  runs.

## Main results

* `LiveActor.counted_step` — a turn keeps the count exactly when it is so.
* `LiveActor.in_session_counted` — so does every run.
* `Testing.refused_takes_admitted` — a refused session takes the identity of an admitted one.
-/

namespace MeePdn.PdnStore.Engine

namespace LiveActor

variable {orders : LiveOrders} {live : LiveActor} {key : Key}

/-- A session of a key that the actor was asked for. -/
def admits (key : Key) (session : Incoming) : Bool :=
  session.key = key && session.phase ≠ .opened

/-- **As many are entered as admitted sessions run.** -/
def Counted (live : LiveActor) (key : Key) : Prop :=
  live.inSession.count key = live.accepts.countP (admits key)

instance (live : LiveActor) (key : Key) : Decidable (live.Counted key) :=
  inferInstanceAs (Decidable (_ = _))

/-- A session that was not admitted ends while no admitted session of the same key runs. -/
def Alone (key : Key) (live : LiveActor) : Action → Prop
  | .acceptEnded session _ => session.key = key → session.phase = .opened →
      ∀ other ∈ live.accepts, other.key = key → other.phase = .opened
  | _ => True

instance (key : Key) (live : LiveActor) : (action : Action) → Decidable (Alone key live action)
  | .acceptEnded session _ => inferInstanceAs (Decidable (session.key = key →
      session.phase = .opened → ∀ other ∈ live.accepts, other.key = key → other.phase = .opened))
  | .fetchEnded _ _ _ | .message _ | .replicaEvent _ | .connectEnded _ _ | .gossipEnded _ =>
    isTrue trivial

lemma countP_answered {session : Incoming} (hopened : session.phase = .opened)
    (outcome : AcceptOutcome) (accepts : List Incoming) :
    (accepts.map fun other => if other = session then
        { session with phase := .answered outcome } else other).countP (admits key) =
      accepts.countP (admits key) + if session.key = key then accepts.count session else 0 := by
  induction accepts with
  | nil => simp
  | cons other accepts ih => grind [admits]

/-- The end of a session. -/
lemma counted_onAcceptEnded (h : live.Counted key) {session : Incoming}
    (hmem : session ∈ live.accepts) (script : Script) :
    (live.onAcceptEnded orders session script).Counted key ↔
      (session.key = key → session.phase = .opened →
        ∀ other ∈ live.accepts, other.key = key → other.phase = .opened) := by
  obtain ⟨-, haccepts, hsessions, -⟩ := @onAcceptEnded_eq orders live session script
  unfold Counted at h ⊢
  rw [haccepts, hsessions, List.countP_erase]
  by_cases hkey : session.key = key
  · rw [hkey, Multiset.count_erase_self, h]
    by_cases hopened : session.phase = .opened
    · have hout : admits key session = false := by simp [admits, hopened]
      have hnone : live.accepts.countP (admits key) = 0 ↔
          ∀ other ∈ live.accepts, other.key = key → other.phase = .opened := by
        simp [admits]
      have hless : live.accepts.countP (admits key) - 1 = live.accepts.countP (admits key) ↔
          live.accepts.countP (admits key) = 0 := by omega
      simpa [hout, hopened] using hless.trans hnone
    · have hin : admits key session = true := by simp [admits, hkey, hopened]
      simp [hin, hmem, hopened]
  · have hout : admits key session = false := by simp [admits, hkey]
    rw [Multiset.count_erase_of_ne (Ne.symm hkey), h]
    simp [hout, hkey]

lemma Counted.quiet {live' : LiveActor} (h : live.Counted key) (hquiet : Quiet live live') :
    live'.Counted key := by
  unfold Counted at h ⊢
  rw [hquiet.accepts, hquiet.inSession, h]

/-- Every other message keeps the count. -/
lemma counted_onActorMessage (hnumbered : live.Numbered) (h : live.Counted key)
    {message : Message} (henabled : live.Enabled (.message message))
    (hstays : message ≠ .dropReplica key.ns) :
    (live.onActorMessage orders message).Counted key := by
  cases message with
  | startSync ns contacts recorded defaultIdentity opens joins =>
    refine Counted.quiet ?_ (Quiet.startSync ns contacts recorded defaultIdentity opens joins)
    split_ifs
    · exact h
    · exact h
  | dropReplica ns =>
    have hns : key.ns ≠ ns := fun hns => hstays (hns ▸ rfl)
    refine Counted.quiet ?_ (Quiet.leave ns)
    unfold part Counted
    dsimp only
    split_ifs
    · refine Eq.trans ?_ h
      exact Multiset.count_filter_of_pos hns
    · exact h
  | handleSession key' | acceptInProcess key' =>
    change Multiset.count key live.inSession = List.countP (admits key) (live.accepts ++ [_])
    unfold Counted at h
    rw [List.countP_append, List.countP_singleton, h]
    simp [admits]
  | redial redial =>
    have herased : Counted { live with redials := live.redials.erase redial } key := h
    exact herased.quiet (quiet_redial redial)
  | orderAfter ns first => exact h
  | acceptSyncRequest session =>
    obtain ⟨hmem, hopened⟩ := henabled
    obtain ⟨outcome, states, served, -, haccepts, hsessions, -⟩ :=
      live.onAcceptSyncRequest_cases session
    change Multiset.count key (live.onAcceptSyncRequest session).inSession =
      List.countP (admits key) (live.onAcceptSyncRequest session).accepts
    rw [haccepts, hsessions, countP_answered hopened, Multiset.count_cons,
      List.count_eq_one_of_mem (List.Nodup.of_map _ hnumbered.nodup) hmem, ← h]
    simp only [eq_comm]
  | _ => exact h.quiet (quiet_onActorMessage rfl)

/-- **A turn keeps the count** exactly when no session that was not admitted ends in it while an
admitted one runs. -/
lemma counted_step (hnumbered : live.Numbered) (h : live.Counted key) {turn : Turn}
    (henabled : live.Enabled turn.action)
    (hstays : turn.action ≠ .message (.dropReplica key.ns)) :
    (live.step turn).Counted key ↔ Alone key live turn.action := by
  have hparked : (live.step turn).Counted key ↔
      ((live.begin turn).onAction turn.orders turn.action).Counted key := by
    have hquiet := @Quiet.parkUnrouted turn.orders
      ((live.begin turn).onAction turn.orders turn.action)
    unfold Counted step
    rw [hquiet.accepts, hquiet.inSession]
  have hbegun : (live.begin turn).Counted key := h
  have hnumbered' : (live.begin turn).Numbered :=
    ⟨hnumbered.nodup, hnumbered.accepts, hnumbered.states⟩
  rw [hparked]
  cases haction : turn.action with
  | acceptEnded session script =>
    rw [haction] at henabled
    exact counted_onAcceptEnded hbegun henabled script
  | connectEnded dial result =>
    obtain ⟨haccepts, hsessions, -⟩ :=
      @onConnectEnded_cases turn.orders (live.begin turn) dial result
    refine ⟨fun _ => trivial, fun _ => ?_⟩
    change Multiset.count key ((live.begin turn).onConnectEnded turn.orders dial result).inSession =
      List.countP _ ((live.begin turn).onConnectEnded turn.orders dial result).accepts
    rw [haccepts, hsessions]
    exact h
  | message message =>
    rw [haction] at henabled
    refine ⟨fun _ => trivial, fun _ => ?_⟩
    exact counted_onActorMessage hnumbered' hbegun henabled fun heq =>
      hstays (haction.trans (congrArg Action.message heq))
  | _ => exact ⟨fun _ => trivial, fun _ => hbegun.quiet (quiet_onAction rfl)⟩

/-- **Identities learned from sessions are counted exactly, as long as no refused session ends
beside an admitted one.** In a run that does not leave the namespace, the count of a namespace, peer
and identity is after every turn the number of admitted sessions that run, if and only if no session
of that key that was not admitted ends while an admitted one runs; and then the identity of an
admitted session that runs is among those the peer is dialed as.

**Proof sketch.** A turn that ends such a session takes one off the count and leaves the number;
every other turn changes both alike. -/
theorem in_session_counted (me : NodeId) (identity : Identity) (fetchesPerProvider : ℕ)
    (turns : List Turn) (key : Key)
    (hvalid : (new me identity fetchesPerProvider).Valid turns)
    (hstays : ∀ turn ∈ turns, turn.action ≠ .message (.dropReplica key.ns)) :
    let live := new me identity fetchesPerProvider
    (live.Always (fun live turn => (live.step turn).inSession.count key =
        (live.step turn).accepts.countP (admits key)) turns ↔
      live.Always (fun live turn => Alone key live turn.action) turns) ∧
    (live.Always (fun live turn => Alone key live turn.action) turns →
      ∀ session ∈ (live.after turns).accepts, admits key session = true →
        ∀ orders, key.identity ∈ (live.after turns).learnedIdentities orders key.ns key.peer) := by
  intro live
  have hnew : live.Numbered ∧ live.Counted key := ⟨numbered_new .., rfl⟩
  have hcounted : live.Always (fun live turn => (live.step turn).Counted key) turns ↔
      live.Always (fun live turn => Alone key live turn.action) turns := by
    refine always_iff (fun live => live.Numbered ∧ live.Counted key) ?_ hvalid hstays hnew
    intro live turn h henabled hstays
    exact ⟨counted_step h.1 h.2 henabled hstays,
      fun hcounted => ⟨numbered_step h.1 henabled, hcounted⟩⟩
  refine ⟨hcounted, fun halone session hmem hadmits orders => ?_⟩
  have hafter : (live.after turns).Counted key :=
    @after_of_always live (fun live => live.Counted key) turns hnew.2 (hcounted.mpr halone)
  have hpos : 0 < (live.after turns).inSession.count key := by
    rw [hafter]
    exact List.countP_pos_iff.mpr ⟨session, hmem, hadmits⟩
  unfold learnedIdentities
  rw [orders.identities.mem_toList, Finset.mem_image]
  refine ⟨key, Finset.mem_filter.mpr ⟨?_, rfl, rfl⟩, rfl⟩
  exact Finset.mem_union_right _ (Multiset.mem_toFinset.mpr (Multiset.count_pos.mp hpos))

end LiveActor

namespace Testing

/-- The session runs and its identity is dialable. -/
theorem in_session_counted_arriving :
    ((LiveActor.new here owner 1).after arriving).accepts =
        [{ arrival 0 with phase := .answered .allow }] ∧
      owner ∈ ((LiveActor.new here owner 1).after arriving).learnedIdentities inOrder notes
        holder := by
  refine ⟨by decide +kernel, ?_⟩
  refine (LiveActor.in_session_counted here owner 1 arriving meeting (by decide +kernel) ?_).2
    (by decide +kernel) { arrival 0 with phase := .answered .allow } (by decide +kernel)
    (by decide +kernel) inOrder
  intro turn hmem heq
  simp only [arriving, List.mem_cons, List.not_mem_nil, or_false] at hmem
  rcases hmem with rfl | rfl | rfl <;> cases heq

/-- Another session of the identity is spawned, which the access provider refuses, and ends: the
identity of the session that runs is not entered any more. -/
theorem refused_takes_admitted :
    let turns := arriving ++ [taking (.message (.handleSession meeting)),
      taking (.acceptEnded (arrival 1) {})]
    (LiveActor.new here owner 1).Valid turns ∧
      ((LiveActor.new here owner 1).after turns).accepts.countP (LiveActor.admits meeting) = 1 ∧
      ((LiveActor.new here owner 1).after turns).inSession.count meeting = 0 := by
  decide +kernel

end Testing

end MeePdn.PdnStore.Engine
