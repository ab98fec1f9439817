import MeePdn.PdnStore.Engine.Turns

/-!
# Who frees a slot

The end of an exchange frees the slot of its counterpart by its direction, and an abort by its
reason: the slot does not say which exchange holds it. An end therefore leaves another exchange in
its slot exactly when that one runs in the other direction, or when the end says nothing to the
slot.

## Main definitions

* `LiveActor.KeepsHolders` — the end of one exchange leaves every other one in its slot.
* `LiveActor.Matched` — an end that meets another exchange in its slot does not look like its own.

## Main results

* `LiveActor.keepsHolders_iff` — for every turn, the one is the other.
* `LiveActor.served_onAction` — as long as it is so, an exchange that is served has its slot.
* `LiveActor.slots_kept` — both, for every run.
* `LiveActor.allowed_gives_back` — a session that has its slot gives it back, unless it is in
  process and runs into its timeout.
* `Testing.refusal_frees_slot`, `Testing.timeout_keeps_slot` — the two ways this fails.
-/

namespace MeePdn.PdnStore.Engine

lemma Exchanges.Grows.state_iff {e e' : Exchanges} (h : Grows e e') {key : Key} {origin : Origin}
    {start exchange : ℕ} (hlt : exchange < e.nextExchange) :
    e'.state key = some (.running start origin exchange) ↔
      e.state key = some (.running start origin exchange) := by grind [h.keeps, h.states]

namespace LiveActor

variable {orders : LiveOrders} {live : LiveActor}

/-! ## The end of another exchange -/

/-- If an exchange other than the one given holds a slot, its origin is as said. -/
def OtherHolder (live : LiveActor) (key : Key) (exchange : ℕ) (P : Origin → Prop) : Prop :=
  match live.state key with
  | some (.running _ origin holder) => holder ≠ exchange → P origin
  | _ => True

instance (key : Key) (exchange : ℕ) (P : Origin → Prop) [DecidablePred P] :
    Decidable (live.OtherHolder key exchange P) := by
  unfold OtherHolder
  split <;> infer_instance

lemma otherHolder_iff {key : Key} {exchange : ℕ} {P : Origin → Prop} :
    live.OtherHolder key exchange P ↔ ∀ start origin holder,
      live.state key = some (.running start origin holder) → holder ≠ exchange → P origin := by
  unfold OtherHolder
  split
  · grind
  · grind

/-- The exchange that an action ends. -/
def Action.ended : Action → Option ℕ
  | .connectEnded dial _ => some dial.exchange
  | .acceptEnded session _ => some session.exchange
  | _ => none

/-- **The end of one exchange leaves every other one in its slot.** -/
def KeepsHolders (live : LiveActor) (turn : Turn) : Prop :=
  ∀ ended, turn.action.ended = some ended → ∀ key start origin holder,
    live.state key = some (.running start origin holder) → holder ≠ ended →
      (live.step turn).state key = some (.running start origin holder)

/-- An end that meets another exchange in its slot: a dial meets one that was accepted, and one that
was refused as already syncing no dial of its reason; a session that names its namespace meets a
dial. -/
def Matched (live : LiveActor) : Action → Prop
  | .connectEnded dial result => live.OtherHolder dial.key dial.exchange fun origin =>
      if result = .error (.remoteAbort .alreadySyncing) then origin ≠ .connect dial.reason
      else origin.isAccept = true
  | .acceptEnded session script => live.OtherHolder session.key session.exchange fun origin =>
      Incoming.names session script = true → origin.isAccept = false
  | _ => True

instance (live : LiveActor) : (action : Action) → Decidable (live.Matched action)
  | .connectEnded dial result => inferInstanceAs (Decidable (live.OtherHolder dial.key dial.exchange
      fun origin => if result = .error (.remoteAbort .alreadySyncing)
        then origin ≠ .connect dial.reason else origin.isAccept = true))
  | .acceptEnded session script => inferInstanceAs (Decidable (live.OtherHolder session.key
      session.exchange fun origin => Incoming.names session script = true →
        origin.isAccept = false))
  | .fetchEnded _ _ _ | .message _ | .replicaEvent _ | .gossipEnded _ => isTrue trivial

/-- What an exchange that ended leaves in the slots, when the turn is over. -/
lemma keepsHolders_of_ends {turn : Turn} {e : Exchanges} {key : Key} {ended : ℕ}
    {P : Origin → Prop} (hnumbered : live.Numbered) (hended : turn.action.ended = some ended)
    (hnext : e.nextExchange = live.nextExchange)
    (hgrows : Exchanges.Grows e (live.step turn).toExchanges)
    (hstate : ∀ k start origin holder, e.state k = some (.running start origin holder) ↔
      live.state k = some (.running start origin holder) ∧ (k = key → P origin)) :
    KeepsHolders live turn ↔ live.OtherHolder key ended P := by
  have hafter : ∀ k start origin holder, live.state k = some (.running start origin holder) →
      ((live.step turn).state k = some (.running start origin holder) ↔ (k = key → P origin)) := by
    grind [hnumbered.states, hgrows.state_iff]
  rw [otherHolder_iff]
  constructor
  · intro hkeeps start origin holder hbefore hne
    exact (hafter key start origin holder hbefore).mp
      (hkeeps ended hended key start origin holder hbefore hne) rfl
  · intro hother ended' hended' k start origin holder hbefore hne
    rw [hended, Option.some.injEq] at hended'
    subst hended'
    refine (hafter k start origin holder hbefore).mpr fun hkey => ?_
    subst hkey
    exact hother start origin holder hbefore hne

/-- **For every turn**, the end of an exchange leaves every other one in its slot exactly when it
does not look like the end of the one it meets there. -/
lemma keepsHolders_iff (hnumbered : live.Numbered) (turn : Turn) :
    KeepsHolders live turn ↔ live.Matched turn.action := by
  have hparked := (@Quiet.parkUnrouted turn.orders
    ((live.begin turn).onAction turn.orders turn.action)).grows
  cases haction : turn.action with
  | connectEnded dial result =>
    have hends := @grows_onConnectEnded turn.orders (live.begin turn) dial result
    rw [haction] at hparked
    refine keepsHolders_of_ends (e := (live.begin turn).connectEnds dial result) hnumbered
      (by rw [haction]; rfl) ?_ ?_ fun k start origin holder => state_connectEnds_iff
    · unfold connectEnds
      split_ifs <;> rfl
    · unfold step
      rw [haction]
      exact hends.trans hparked
  | acceptEnded session script =>
    have hends := @grows_onAcceptEnded turn.orders (live.begin turn) session script
    rw [haction] at hparked
    refine keepsHolders_of_ends (e := (live.begin turn).acceptEnds session script) hnumbered
      (by rw [haction]; rfl) ?_ ?_ fun k start origin holder => state_acceptEnds_iff
    · unfold acceptEnds
      split_ifs <;> rfl
    · unfold step
      rw [haction]
      exact hends.trans hparked
  | _ =>
    refine ⟨fun _ => trivial, fun _ ended hended => ?_⟩
    rw [haction] at hended
    cases hended

/-! ## The exchanges that are served -/

/-- An exchange that is served has its slot. -/
def Served (e : Exchanges) : Prop :=
  ∀ pair ∈ e.served, ∃ start origin, e.state pair.1 = some (.running start origin pair.2)

namespace Served

variable {e e' : Exchanges}

lemma grows (h : Served e) (hgrows : Exchanges.Grows e e') : Served e' := by
  intro pair hmem
  rcases hgrows.served pair hmem with hbefore | ⟨-, -, hnew⟩
  · obtain ⟨start, origin, hstate⟩ := h pair hbefore
    exact ⟨start, origin, hgrows.keeps hstate⟩
  · exact hnew

lemma ends {key : Key} {ended : ℕ} {P : Origin → Prop} (h : Served live.toExchanges)
    (hserved : ∀ pair ∈ e.served, pair ∈ live.served ∧ pair ≠ (key, ended))
    (hstate : ∀ k start origin holder, e.state k = some (.running start origin holder) ↔
      live.state k = some (.running start origin holder) ∧ (k = key → P origin))
    (hother : live.OtherHolder key ended P) : Served e := by
  intro pair hmem
  obtain ⟨hbefore, hne⟩ := hserved pair hmem
  obtain ⟨start, origin, hslot⟩ := h pair hbefore
  refine ⟨start, origin, (hstate _ _ _ _).mpr ⟨hslot, fun hkey => ?_⟩⟩
  refine otherHolder_iff.mp hother start origin pair.2 (hkey ▸ hslot) fun heq => ?_
  exact hne (Prod.ext hkey heq)

/-- A session that is allowed supersedes what has the slot. -/
lemma onAcceptSyncRequest (h : Served live.toExchanges) (session : Incoming) :
    Served (live.onAcceptSyncRequest session).toExchanges := by
  obtain ⟨outcome, states, served, hexchanges, -, -, -, -, hcases⟩ :=
    live.onAcceptSyncRequest_cases session
  rw [hexchanges]
  rcases hcases with ⟨-, hserved, hstate⟩ | ⟨-, hserved, hstate⟩
  · intro pair hmem
    change pair ∈ served at hmem
    change ∃ start origin, { live.toExchanges with states := states }.state pair.1 = _
    rw [hstate]
    rw [hserved, List.mem_append] at hmem
    rcases hmem with hmem | hmem
    · obtain ⟨hbefore, hkept⟩ := List.mem_filter.mp hmem
      obtain ⟨start, origin, hslot⟩ := h pair hbefore
      have hkey : pair.1 ≠ session.key := by
        intro hkey
        rw [← hkey] at hkept
        simp [hslot] at hkept
      exact ⟨start, origin, by rw [if_neg hkey]; exact hslot⟩
    · rw [List.mem_singleton.mp hmem]
      exact ⟨live.now, .accept, if_pos rfl⟩
  · intro pair hmem
    change pair ∈ served at hmem
    obtain ⟨start, origin, hslot⟩ := h pair (hserved ▸ hmem)
    exact ⟨start, origin, (hstate pair.1).trans hslot⟩

/-- What a namespace that is left served is not served any more. -/
lemma part (h : Served live.toExchanges) (ns : NamespaceId) :
    Served (live.part orders ns).toExchanges := by
  have hserved : ∀ pair ∈ (live.part orders ns).served, pair ∈ live.served ∧ pair.1.ns ≠ ns := by
    intro pair hmem
    unfold LiveActor.part at hmem
    dsimp only at hmem
    split_ifs at hmem with hsyncs
    · have hkept := List.mem_filter.mp hmem
      exact ⟨hkept.1, by simpa using hkept.2⟩
    · refine ⟨hmem, fun hns => hsyncs ?_⟩
      obtain ⟨start, origin, hslot⟩ := h pair hmem
      rw [← hns, ← Exchanges.isSome_state, hslot]
      rfl
  intro pair hmem
  obtain ⟨hbefore, hns⟩ := hserved pair hmem
  obtain ⟨start, origin, hslot⟩ := h pair hbefore
  refine ⟨start, origin, ?_⟩
  rw [state_part, if_neg hns]
  exact hslot

end Served

/-- **As long as ends do not look like those of others, an exchange that is served has its slot.**
-/
lemma served_onAction (h : Served live.toExchanges) {action : Action}
    (hmatched : live.Matched action) : Served (live.onAction orders action).toExchanges := by
  cases action with
  | connectEnded dial result =>
    refine (h.ends (fun pair hmem => ?_) (fun _ _ _ _ => state_connectEnds_iff) hmatched).grows
      (grows_onConnectEnded live dial result)
    have hkept : pair ∈ (live.toExchanges.endDial dial).served := by
      unfold connectEnds at hmem
      split_ifs at hmem <;> exact hmem
    simpa using List.mem_filter.mp hkept
  | acceptEnded session script =>
    refine (h.ends (fun pair hmem => ?_) (fun _ _ _ _ => state_acceptEnds_iff) hmatched).grows
      (grows_onAcceptEnded live session script)
    have hkept : pair ∈ (live.toExchanges.endServed session.key session.exchange).served := by
      unfold acceptEnds at hmem
      split_ifs at hmem <;> exact hmem
    simpa using List.mem_filter.mp hkept
  | message message =>
    cases message with
    | startSync ns contacts recorded defaultIdentity opens joins =>
      refine Served.grows ?_
        (Quiet.startSync ns contacts recorded defaultIdentity opens joins).grows
      split_ifs
      · intro pair hmem
        obtain ⟨start, origin, hslot⟩ := h pair hmem
        exact ⟨start, origin, state_insert_iff.mpr hslot⟩
      · exact h
    | dropReplica ns => exact (h.part ns).grows (Quiet.leave ns).grows
    | handleSession key | acceptInProcess key => exact h
    | redial redial =>
      exact Served.grows (e := live.toExchanges) h (@quiet_redial orders live redial).grows
    | orderAfter ns first => exact h
    | acceptSyncRequest session => exact h.onAcceptSyncRequest session
    | _ => exact h.grows (quiet_onActorMessage rfl).grows
  | _ => exact h.grows (quiet_onAction rfl).grows

/-- **Only the exchange that holds a slot frees it, as far as ends tell the exchanges apart.** In
every run, the end of one exchange leaves every other one in its slot at every turn, if and only if
no end meets an exchange in its slot that it takes for its own; and in such a run at most one
exchange of a counterpart is served.

**Proof sketch.** An end frees its slot for every exchange of its direction, whichever it is, and no
other slot; what follows starts dials with new numbers only. An exchange that is served therefore
keeps its slot until it ends or is superseded. -/
theorem slots_kept (me : NodeId) (identity : Identity) (fetchesPerProvider : ℕ) (turns : List Turn)
    (hvalid : (new me identity fetchesPerProvider).Valid turns) :
    let live := new me identity fetchesPerProvider
    (live.Always KeepsHolders turns ↔
      live.Always (fun live turn => live.Matched turn.action) turns) ∧
    (live.Always (fun live turn => live.Matched turn.action) turns →
      ∀ key a b, (key, a) ∈ (live.after turns).served → (key, b) ∈ (live.after turns).served →
        a = b) := by
  intro live
  constructor
  · refine @always_iff live _ _ (fun _ => True) Numbered ?_ turns hvalid (fun _ _ => trivial)
      (numbered_new ..)
    intro live turn hnumbered henabled _
    exact ⟨keepsHolders_iff hnumbered turn, fun _ => numbered_step hnumbered henabled⟩
  · intro hmatched key a b ha hb
    have hnew : Served live.toExchanges := fun pair hmem => absurd hmem List.not_mem_nil
    have hserved := @after_of_step live (fun live turn => live.Matched turn.action)
      (fun live => Served live.toExchanges) (fun live turn h _ hmatched => by
        have hbegun : Served (live.begin turn).toExchanges := h
        exact (served_onAction hbegun hmatched).grows (Quiet.parkUnrouted _).grows)
      turns hvalid hmatched hnew
    obtain ⟨start, origin, hstate⟩ := hserved (key, a) ha
    obtain ⟨start', origin', hstate'⟩ := hserved (key, b) hb
    rw [hstate] at hstate'
    cases hstate'
    rfl

/-! ## What an allowed session gives back -/

lemma state_parkUnrouted (key : Key) : (live.parkUnrouted orders).state key = live.state key := by
  obtain ⟨states, events, heq, hentry, -⟩ := @parkUnrouted_eq orders live
  rw [heq]
  exact congrArg (Option.map PeerState.state) (hentry key.ns key.counterpart)

lemma state_releaseUnless_of_none {e : Exchanges} {key : Key}
    (hheld : ∀ held ∈ e.held, held.1 ≠ key) (soon : Bool) (k : Key) :
    (e.releaseUnless soon key).state k = e.state k := by
  have hnone : e.held.filter (fun held => held.1 = key) = [] := by simpa using hheld
  unfold Exchanges.releaseUnless Exchanges.releaseHeld
  rw [hnone]
  split_ifs
  · rfl
  · rfl

/-- An end with nothing to follow only frees the slot. -/
lemma state_finished_of_none {e : Exchanges} {key : Key} {origin : Origin}
    (hresync : (e.slot key).any PeerState.resyncRequested = false)
    (hheld : ∀ held ∈ e.held, held.1 ≠ key) (pending : Bool) (k : Key) :
    (e.finished key origin pending).state k = (e.freed key origin).state k := by
  have hquiet : (e.states.finish key.ns key.counterpart origin).1.any Prod.snd = false := by
    have hanswer := @NamespaceStates.fst_act e.states _ key.ns key.counterpart none fun peer =>
      peer.finish origin
    change (e.states.finish key.ns key.counterpart origin).1 =
      ((e.slot key).map fun peer => (peer.finish origin).1).getD none at hanswer
    rw [hanswer]
    cases hpeer : e.slot key with
    | none => rfl
    | some peer =>
      rw [hpeer, Option.any_some] at hresync
      rw [Option.map_some, Option.getD_some]
      cases hfinish : (peer.finish origin).1 with
      | none => rfl
      | some answer => exact (PeerState.resync_of_finish hfinish).trans hresync
  unfold Exchanges.finished Exchanges.freed
  generalize e.states.finish key.ns key.counterpart origin = called at hquiet ⊢
  obtain ⟨finished, states⟩ := called
  have hreleased := @state_releaseUnless_of_none { e with states := states } key hheld
    (finished.any Prod.snd) k
  cases finished with
  | none => exact hreleased
  | some answer =>
    obtain ⟨started, resync⟩ := answer
    have hresync' : resync = false := hquiet
    subst hresync'
    refine Eq.trans ?_ hreleased
    exact congrArg (Option.map PeerState.state) (Exchanges.entry_setMayEmitReady ..)

/-- The end of a session frees the slot it has, if it names its namespace. -/
lemma state_acceptEnds_eq {session : Incoming} {script : Script} {start exchange : ℕ}
    (hslot : live.state session.key = some (.running start .accept exchange)) :
    (live.acceptEnds session script).state session.key =
      if Incoming.names session script then some .idle
      else some (.running start .accept exchange) := by
  unfold acceptEnds
  split_ifs
  · have hfreed := Exchanges.slot_act
      (live.toExchanges.endServed session.key session.exchange) session.key session.key none
      fun peer => peer.finish .accept
    obtain ⟨peer, hpeer, hstate⟩ := Option.map_eq_some_iff.mp hslot
    unfold Exchanges.state
    refine (congrArg (Option.map PeerState.state) hfreed).trans ?_
    rw [if_pos rfl]
    change Option.map _ (Option.map _ (live.slot session.key)) = _
    rw [hpeer]
    simp [PeerState.finish, hstate]
  · exact hslot

/-- **A session that has its slot gives it back, unless it is in process and runs into its
timeout.** When a session that was allowed its slot and still has it ends, in whatever way, its slot
is idle afterwards or taken by a dial that was started in the same turn, exactly when it is not an
in-process session that ran into its timeout; and where no exchange was asked for meanwhile and no
dial is held on the slot, it is idle.

**Proof sketch.** Every other end of an allowed session carries its namespace, by which the slot is
freed. The timeout of an in-process session carries none. -/
theorem allowed_gives_back (live : LiveActor) (session : Incoming)
    (hallowed : session.phase = .answered .allow) (start : ℕ)
    (hslot : live.state session.key = some (.running start .accept session.exchange))
    (orders : LiveOrders) (now : ℕ) (asked : List Bool) (script : Script) :
    let live' := live.step ⟨orders, now, asked, .acceptEnded session script⟩
    let ranOut := session.inProcess = true ∧
      script.ranOut ⟨session.key.peer, session.key.ns⟩ .allow = true
    (live'.state session.key = some .idle ∨
        (∃ dialed reason exchange, live.nextExchange ≤ exchange ∧
          live'.state session.key = some (.running dialed (.connect reason) exchange)) ↔ ¬ranOut) ∧
    (¬ranOut → (live.slot session.key).any PeerState.resyncRequested = false →
      (∀ held ∈ live.held, held.1 ≠ session.key) → live'.state session.key = some .idle) := by
  intro live' ranOut
  have hnames : Incoming.names session script = true ↔ ¬ranOut := by
    simp only [Incoming.names, Incoming.outcome, hallowed, ranOut]
    cases script.ranOut ⟨session.key.peer, session.key.ns⟩ .allow with
    | false => simp
    | true => cases session.inProcess <;> simp
  let begun := live.begin ⟨orders, now, asked, .acceptEnded session script⟩
  have hended : live'.state session.key =
      (begun.onAcceptEnded orders session script).state session.key :=
        state_parkUnrouted session.key
  have hfreed : (begun.acceptEnds session script).state session.key =
      if Incoming.names session script then some .idle
      else some (.running start .accept session.exchange) := state_acceptEnds_eq hslot
  have hgrows := @grows_onAcceptEnded orders begun session script
  rw [hended, ← hnames]
  refine ⟨⟨fun hback => ?_, fun hnamed => ?_⟩, fun hnamed hresync hheld => ?_⟩
  · grind [hgrows.keeps]
  · rw [if_pos hnamed] at hfreed
    rcases hgrows.states session.key with heq | ⟨-, reason, exchange, hle, -, hdialed⟩
    · exact .inl (heq.trans hfreed)
    · refine .inr ⟨_, reason, exchange, le_of_eq_of_le ?_ hle, hdialed⟩
      rw [acceptEnds, if_pos hnamed]
      rfl
  · obtain ⟨⟨pending, hends⟩, -⟩ := @onAcceptEnded_eq orders begun session script
    have hfinished := @state_finished_of_none
      (begun.toExchanges.endServed session.key session.exchange) session.key .accept hresync hheld
      pending session.key
    rw [hends, if_pos hnamed, hfinished]
    rw [acceptEnds, if_pos hnamed, if_pos hnamed] at hfreed
    exact hfreed

end LiveActor

namespace Testing

/-- A dial is superseded by a session of the same counterpart, and refused as already syncing. -/
noncomputable def superseding : List LiveActor.Turn :=
  [starting notes, taking (.message (.neighborUp notes holder true)),
    taking (.message (.handleSession meeting)), taking (.message (.acceptSyncRequest (arrival 1))),
    taking (.connectEnded ⟨0, meeting, .newNeighbor⟩ (.error (.remoteAbort .alreadySyncing)))]

/-- The session keeps the slot. -/
theorem slots_kept_superseding :
    ((LiveActor.new here owner 1).after superseding).state meeting = some (.running 0 .accept 1) ∧
      (LiveActor.new here owner 1).Always LiveActor.KeepsHolders superseding :=
  ⟨by decide +kernel,
    (LiveActor.slots_kept here owner 1 superseding (by decide +kernel)).1.mpr (by decide +kernel)⟩

/-- A session has the slot; another one of the same counterpart is refused, its refusal cannot be
sent, and its end frees the slot, which a dial takes while the first session is served. -/
theorem refusal_frees_slot :
    let before := arriving ++ [taking (.message (.handleSession meeting)),
      taking (.message (.acceptSyncRequest (arrival 1)))]
    let refused := taking (.acceptEnded
      { arrival 1 with phase := .answered (.reject .alreadySyncing) } { refusalSent := false })
    let dialing := taking (.message (.neighborUp notes holder true))
    (LiveActor.new here owner 1).Valid (before ++ [refused, dialing]) ∧
      ((LiveActor.new here owner 1).after before).state meeting = some (.running 0 .accept 0) ∧
      ((LiveActor.new here owner 1).after (before ++ [refused])).state meeting = some .idle ∧
      ((LiveActor.new here owner 1).after (before ++ [refused, dialing])).served =
        [(meeting, 0), (meeting, 2)] := by
  decide +kernel

/-- A session over the network that runs into its timeout frees its slot. -/
theorem allowed_gives_back_arriving :
    ((LiveActor.new here owner 1).after arriving).state meeting = some (.running 0 .accept 0) ∧
      (((LiveActor.new here owner 1).after arriving).step (taking (.acceptEnded
        { arrival 0 with phase := .answered .allow } { timesOut := true }))).state meeting =
          some .idle := by
  have hslot : ((LiveActor.new here owner 1).after arriving).state meeting =
      some (.running 0 .accept 0) := by decide +kernel
  refine ⟨hslot, ?_⟩
  exact (LiveActor.allowed_gives_back _ { arrival 0 with phase := .answered .allow } rfl 0 hslot
    inOrder 0 [] { timesOut := true }).2 (by decide) (by decide +kernel) (by decide +kernel)

/-- Another identity of the actor's own node. -/
def guest : Identity := ⟨.replicate 32 9⟩

/-- A session between the two identities is allowed its slot and runs into its timeout, after which
nothing runs and the slot is taken. -/
theorem timeout_keeps_slot :
    let session : Incoming := ⟨0, ⟨notes, here, guest⟩, true, .opened⟩
    let turns := [starting notes, taking (.message (.acceptInProcess session.key)),
      taking (.message (.acceptSyncRequest session)),
      taking (.acceptEnded { session with phase := .answered .allow } { timesOut := true })]
    (LiveActor.new here owner 1).Valid turns ∧
      ((LiveActor.new here owner 1).after turns).accepts = [] ∧
      ((LiveActor.new here owner 1).after turns).connects = [] ∧
      ((LiveActor.new here owner 1).after turns).state session.key =
        some (.running 0 .accept 0) := by
  decide +kernel

end Testing

end MeePdn.PdnStore.Engine
