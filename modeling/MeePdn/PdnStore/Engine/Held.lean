import MeePdn.PdnStore.Engine.Turns

/-!
# No held dial is stranded

A dial that has to follow the exchange of another namespace with the same counterpart is held until
that exchange ends. What ends it releases the dials held on it, unless it is dialed again; and that
dial may itself have to follow a third exchange, and is then held behind it.

## Main definitions

* `Exchanges.Awaited` — an exchange runs, or a redial of it is due, or its own dial is held behind
  an exchange of which this holds.
* `LiveActor.Unstranded` — every exchange on which dials are held is awaited.

## Main results

* `Exchanges.Backed.transfer` — what a change of the exchanges has to keep.
* `Exchanges.underWay_syncWithIdentity`, `Exchanges.underWay_finished` — a dial that is asked for,
  and the end of an exchange on which dials stay held.
* `LiveActor.gone_leave` — leaving a namespace.
* `LiveActor.held_unstranded` — in every run, no held dial is stranded.
* `Testing.held_behind_third` — the exchange a dial is held on need neither run nor be due.
-/

namespace MeePdn.PdnStore.Engine

namespace Exchanges

variable {e e' : Exchanges} {key : Key} {reason : SyncReason} {due due' : Key → Prop}

/-! ## What a held dial waits for -/

/-- A dial that is asked for of a counterpart on another node is under way if its namespace
syncs. -/
lemma underWay_syncWithIdentity (hpeer : key.peer ≠ e.me)
    (hsyncs : e.states.isSyncing key.ns = true) :
    (e.syncWithIdentity key reason).UnderWay key := by
  unfold syncWithIdentity
  rw [if_neg hpeer]
  split
  · rename_i first _
    have hfirst := @Grows.first e reason (key.within first)
    dsimp only
    generalize (if e.isRunning (key.within first) then e
      else e.dial (key.within first) reason) = dialed at hfirst ⊢
    split_ifs with hrunning
    · exact underWay_hold rfl hrunning
    · exact underWay_dial ((hfirst.syncing _).trans hsyncs)
  · exact underWay_dial hsyncs

/-- **What a held dial may wait for**: an exchange that runs, or of which a redial is due, or whose
own dial is held behind an exchange that may be waited for. -/
inductive Awaited (e : Exchanges) (due : Key → Prop) : Key → Prop
  | running {key : Key} (hrunning : e.isRunning key = true) : Awaited e due key
  | due {key : Key} (hdue : due key) : Awaited e due key
  | held {held : Key × HeldDial} (hmem : held ∈ e.held) (hfirst : Awaited e due held.1) :
      Awaited e due (heldKey held)

lemma UnderWay.awaited (h : e.UnderWay key) : e.Awaited due key := by
  rcases h with hrunning | ⟨held, hmem, rfl, hrunning⟩
  · exact .running hrunning
  · exact .held hmem (.running hrunning)

/-- **What every held dial waits for** is an exchange of a namespace that syncs, and on another node
it may be waited for. -/
structure Backed (e : Exchanges) (due : Key → Prop) : Prop where
  syncs : ∀ held ∈ e.held, e.states.isSyncing held.1.ns = true
  awaited : ∀ held ∈ e.held, held.1.peer ≠ e.me → e.Awaited due held.1

/-- **What a change of the exchanges has to keep**: where dials stay held on an exchange that ran or
was due, it may still be waited for; a dial that is held no more is under way if its namespace
syncs; and what is held since is held behind an exchange that runs. -/
lemma Backed.transfer (h : e.Backed due) (hme : e'.me = e.me)
    (hcause : ∀ k, k.peer ≠ e.me → e.isRunning k = true ∨ due k →
      (∃ held ∈ e'.held, held.1 = k) → e'.Awaited due' k)
    (hreleased : ∀ held ∈ e.held, held ∈ e'.held ∨
      (e'.states.isSyncing held.2.ns = true → e'.UnderWay (heldKey held)))
    (hheld : ∀ held ∈ e'.held, held ∈ e.held ∨ e'.isRunning held.1 = true)
    (hsyncs : ∀ held ∈ e'.held, e'.states.isSyncing held.1.ns = true) : e'.Backed due' := by
  -- By induction over what it waits for, as long as a dial is held on it.
  have hstill : ∀ {k}, e.Awaited due k → k.peer ≠ e.me → (∃ held ∈ e'.held, held.1 = k) →
      e'.Awaited due' k := by
    intro k hawaited
    induction hawaited with
    | running hrunning => exact fun hpeer hon => hcause _ hpeer (.inl hrunning) hon
    | due hdue => exact fun hpeer hon => hcause _ hpeer (.inr hdue) hon
    | @held held hmem _ ih =>
      rintro hpeer ⟨later, hlater, hkey⟩
      rcases hreleased held hmem with hkept | hunder
      · exact .held hkept (ih hpeer ⟨held, hkept, rfl⟩)
      · have hlaterSyncs := hsyncs later hlater
        rw [hkey] at hlaterSyncs
        exact (hunder hlaterSyncs).awaited
  refine ⟨hsyncs, fun held hmem hpeer => ?_⟩
  rcases hheld held hmem with hbefore | hrunning
  · rw [hme] at hpeer
    exact hstill (h.awaited held hbefore hpeer) hpeer ⟨held, hmem, rfl⟩
  · exact .running hrunning

lemma Grows.syncs (hgrows : Grows e e')
    (h : ∀ held ∈ e.held, e.states.isSyncing held.1.ns = true) :
    ∀ held ∈ e'.held, e'.states.isSyncing held.1.ns = true := by
  intro held hmem
  rcases hgrows.held held hmem with hbefore | hrunning
  · exact (hgrows.syncing _).trans (h held hbefore)
  · exact isSyncing_of_isRunning hrunning

/-- **The end of what is waited for on one exchange**, after which dials are started or held. -/
lemma Backed.ends {ends : Exchanges} (h : e.Backed due) (hgrows : Grows ends e')
    (hme : ends.me = e.me) (hheld : ends.held = e.held)
    (hsyncing : ∀ ns, ends.states.isSyncing ns = e.states.isSyncing ns)
    (hruns : ∀ k, k ≠ key → e.isRunning k = true → ends.isRunning k = true)
    (hdue : ∀ k, k ≠ key → due k → due' k)
    (hkey : key.peer ≠ e.me → e'.states.isSyncing key.ns = true →
      (∃ held ∈ e'.held, held.1 = key) → e'.Awaited due' key) : e'.Backed due' := by
  have hsyncs : ∀ held ∈ e'.held, e'.states.isSyncing held.1.ns = true := by
    refine hgrows.syncs fun held hmem => ?_
    rw [hsyncing]
    exact h.syncs held (hheld ▸ hmem)
  refine h.transfer (hgrows.me.trans hme) (fun k hpeer hcause hon => ?_)
    (fun held hmem => hgrows.released held (hheld ▸ hmem))
    (fun held hmem => hheld ▸ hgrows.held held hmem) hsyncs
  by_cases hk : k = key
  · subst hk
    obtain ⟨held, hmem, hheldOn⟩ := hon
    exact hkey hpeer (hheldOn ▸ hsyncs held hmem) ⟨held, hmem, hheldOn⟩
  · rcases hcause with hrunning | hdues
    · exact .running (hgrows.running (hruns k hk hrunning))
    · exact .due (hdue k hk hdues)

lemma Backed.grows (h : e.Backed due) (hgrows : Grows e e') : e'.Backed due :=
  h.transfer hgrows.me (fun _ _ hcause _ => hcause.elim (.running ∘ hgrows.running) .due)
    hgrows.released hgrows.held (hgrows.syncs h.syncs)

lemma Backed.same (h : e.Backed due) (hme : e'.me = e.me) (hheld : e'.held = e.held)
    (hruns : ∀ k, e.isRunning k = true → e'.isRunning k = true)
    (hsyncing : ∀ ns, e.states.isSyncing ns = true → e'.states.isSyncing ns = true) :
    e'.Backed due :=
  h.transfer hme (fun k _ hcause _ => hcause.elim (.running ∘ hruns k) .due)
    (fun _ hmem => .inl (hheld ▸ hmem)) (fun _ hmem => .inl (hheld ▸ hmem))
    fun held hmem => hsyncing _ (h.syncs held (hheld ▸ hmem))

/-! ## The end of an exchange -/

lemma isRunning_releaseUnless {held : Key × HeldDial}
    (hmem : held ∈ (e.releaseUnless false held.1).held) :
    (e.releaseUnless false held.1).isRunning held.1 = true := by
  unfold releaseUnless at hmem ⊢
  cases hrunning : e.isRunning held.1 with
  | true => simpa using hrunning
  | false =>
    simp only [hrunning, Bool.not_false, Bool.and_self, if_true] at hmem ⊢
    rcases held_releaseHeld hmem with ⟨hne, -⟩ | hruns
    · exact absurd rfl hne
    · exact hruns

/-- **After the end of an exchange on which dials stay held**, its own dial is under way: it was
asked for again, or another exchange of it runs. -/
lemma underWay_finished {origin : Origin} {pending : Bool} {held : Key × HeldDial}
    (hpeer : held.1.peer ≠ e.me)
    (hsyncs : (e.finished held.1 origin pending).states.isSyncing held.1.ns = true)
    (hmem : held ∈ (e.finished held.1 origin pending).held) :
    (e.finished held.1 origin pending).UnderWay held.1 := by
  unfold finished at hsyncs hmem ⊢
  generalize e.states.finish held.1.ns held.1.counterpart origin = called at hsyncs hmem ⊢
  obtain ⟨finished, states⟩ := called
  cases finished with
  | none => exact .inl (isRunning_releaseUnless hmem)
  | some answer =>
    obtain ⟨started, resync⟩ := answer
    cases resync with
    | true =>
      refine underWay_syncWithIdentity hpeer ?_
      rw [← Grows.syncWithIdentity.syncing]
      exact hsyncs
    | false =>
      exact .inl ((congrArg (Option.any PeerState.isRunning) (entry_setMayEmitReady ..)).trans
        (isRunning_releaseUnless hmem))

/-! ## Leaving a namespace -/

lemma held_foldl_releaseHeld (keys : List Key) {held : Key × HeldDial}
    (hmem : held ∈ (keys.foldl (fun e key => e.releaseHeld key) e).held) :
    held.1 ∉ keys ∧ held ∈ e.held ∨
      (keys.foldl (fun e key => e.releaseHeld key) e).isRunning held.1 = true := by
  induction keys generalizing e with
  | nil => exact .inl ⟨List.not_mem_nil, hmem⟩
  | cons key keys ih =>
    rcases ih hmem with ⟨hout, hbefore⟩ | hruns
    · rcases held_releaseHeld hbefore with ⟨hne, hmem⟩ | hruns
      · exact .inl ⟨by simp [hne, hout], hmem⟩
      · exact .inr ((Grows.foldl_releaseHeld keys).running hruns)
    · exact .inr hruns

variable {P : NamespaceId → Prop}

/-- A dial that was held and is held again is of the same namespace. -/
lemma held_of_runHeld {dial : HeldDial} (h : ∀ held ∈ e.held, P held.2.ns) (hdial : P dial.ns) :
    ∀ held ∈ (e.runHeld key dial).held, P held.2.ns := by
  have hdials : ∀ k reason, (e.dial k reason).held = e.held := fun k reason => by rw [dial_eq]
  cases dial with
  | network ns reason => exact fun held hmem => h held (hdials (key.within ns) reason ▸ hmem)
  | inProcess ns =>
    change ∀ held ∈ (e.syncInProcess (key.within ns)).held, P held.2.ns
    unfold syncInProcess
    split
    · split_ifs
      · intro held hmem
        rcases List.mem_append.mp hmem with hbefore | hnew
        · exact h held hbefore
        · rw [List.mem_singleton.mp hnew]
          exact hdial
      · exact fun held hmem => h held (hdials _ _ ▸ hmem)
    · exact fun held hmem => h held (hdials _ _ ▸ hmem)

lemma held_of_foldl_releaseHeld (keys : List Key) (h : ∀ held ∈ e.held, P held.2.ns) :
    ∀ held ∈ (keys.foldl (fun e key => e.releaseHeld key) e).held, P held.2.ns := by
  refine List.foldlRecOn (motive := fun e : Exchanges => ∀ held ∈ e.held, P held.2.ns) keys _ h ?_
  intro e h key _
  refine List.foldlRecOn (motive := fun e : Exchanges => ∀ held ∈ e.held, P held.2.ns) _ _
    (fun held hmem => h held (List.mem_of_mem_filter hmem)) ?_
  intro e h dial hdial
  obtain ⟨held, hmem, rfl⟩ := List.mem_map.mp hdial
  exact held_of_runHeld h (by grind)

end Exchanges

namespace LiveActor

variable {orders : LiveOrders} {live live' : LiveActor}

/-! ## What is held in a run -/

/-- A redial of an exchange waits out its delay or is in the inbox. -/
def due (redials : List Redial) (key : Key) : Prop := ∃ redial ∈ redials, redial.key = key

/-- **No held dial is stranded**: on another node, what every dial is held on runs, or a redial of
it is due, or its own dial is held behind a third exchange, of which the same holds. -/
def Unstranded (live : LiveActor) : Prop :=
  ∀ held ∈ live.held, held.1.peer ≠ live.me → live.Awaited (due live.redials) held.1

/-- No dial is held on a namespace or for it. -/
def Gone (live : LiveActor) (ns : NamespaceId) : Prop :=
  ∀ held ∈ live.held, held.1.ns ≠ ns ∧ held.2.ns ≠ ns

/-- A turn strands no held dial, and one that leaves a namespace leaves no dial held on it or for
it. -/
def Releases (live : LiveActor) (turn : Turn) : Prop :=
  (live.step turn).Unstranded ∧
    ∀ ns, turn.action = .message (.dropReplica ns) → (live.step turn).Gone ns

instance (redials : List Redial) (key : Key) : Decidable (due redials key) := by
  unfold due
  infer_instance

/-- What every held dial waits for. -/
def Backs (live : LiveActor) : Prop := live.toExchanges.Backed (due live.redials)

lemma Backs.quiet (h : live.Backs) (hquiet : Quiet live live') : live'.Backs := by
  unfold Backs
  rw [hquiet.redials]
  exact Exchanges.Backed.grows h hquiet.grows

lemma backs_onConnectEnded (h : live.Backs) (dial : Dial) (result : Except ConnectError Unit) :
    (live.onConnectEnded orders dial result).Backs := by
  obtain ⟨-, -, -, more, hredials, hkeys, hends⟩ := @onConnectEnded_cases orders live dial result
  have hsyncing : ∀ ns, (live.connectEnds dial result).states.isSyncing ns =
      live.states.isSyncing ns := by
    unfold connectEnds
    split_ifs <;> exact fun ns => NamespaceStates.isSyncing_act _ _ _ _ _
  have hsame : (live.connectEnds dial result).me = live.me ∧
      (live.connectEnds dial result).held = live.held := by
    unfold connectEnds
    split_ifs <;> exact ⟨rfl, rfl⟩
  unfold Backs
  rw [hredials]
  refine @Exchanges.Backed.ends _ _ dial.key _ _ _ h (grows_onConnectEnded live dial result) hsame.1
    hsame.2 hsyncing (fun k hne hrunning => ?_)
    (fun k _ ⟨redial, hmem, hkey⟩ => ⟨redial, List.mem_append_left _ hmem, hkey⟩)
    fun hpeer hsyncs hon => ?_
  · obtain ⟨start, origin, exchange, hstate⟩ := Exchanges.isRunning_iff.mp hrunning
    exact Exchanges.isRunning_iff.mpr ⟨start, origin, exchange,
      state_connectEnds_iff.mpr ⟨hstate, fun heq => absurd heq hne⟩⟩
  · obtain ⟨held, hmem, hkey⟩ := hon
    rcases hends with ⟨-, hends | ⟨-, hmore⟩⟩ | ⟨-, -, pending, hends⟩
    · rw [hends, ← hkey] at hmem ⊢
      exact .running (Exchanges.isRunning_releaseUnless hmem)
    · obtain ⟨redial, hmore⟩ := List.exists_mem_of_ne_nil more hmore
      exact .due ⟨redial, List.mem_append_right _ hmore, hkeys redial hmore⟩
    · rw [hends, ← hkey] at hmem hsyncs ⊢
      exact (Exchanges.underWay_finished (hkey ▸ hpeer) hsyncs hmem).awaited

lemma backs_onAcceptEnded (h : live.Backs) (session : Incoming) (script : Script) :
    (live.onAcceptEnded orders session script).Backs := by
  obtain ⟨⟨pending, hends⟩, -, -, hredials, -⟩ := @onAcceptEnded_eq orders live session script
  unfold Backs
  rw [hredials]
  split_ifs at hends with hnames
  · have hgrows := @grows_onAcceptEnded orders live session script
    rw [acceptEnds, if_pos hnames] at hgrows
    refine @Exchanges.Backed.ends _ _ session.key _ _ _ h hgrows rfl rfl
      (fun ns => NamespaceStates.isSyncing_act _ _ _ _ _) (fun k hne hrunning => ?_)
      (fun _ _ hdue => hdue) fun hpeer hsyncs hon => ?_
    · obtain ⟨start, origin, exchange, hstate⟩ := Exchanges.isRunning_iff.mp hrunning
      exact Exchanges.isRunning_iff.mpr ⟨start, origin, exchange,
        Exchanges.state_freed_iff.mpr ⟨hstate, fun heq => absurd heq hne⟩⟩
    · obtain ⟨held, hmem, hkey⟩ := hon
      rw [hends, ← hkey] at hmem hsyncs ⊢
      exact (Exchanges.underWay_finished (hkey ▸ hpeer) hsyncs hmem).awaited
  · rw [hends]
    exact Exchanges.Backed.same h rfl rfl (fun _ hrunning => hrunning) fun _ hsyncs => hsyncs

/-- A dial that is asked for again is under way. -/
lemma backs_redial (h : live.Backs) (redial : Redial) :
    (live.onActorMessage orders (.redial redial)).Backs := by
  have hdialed : (live.onActorMessage orders (.redial redial)).toExchanges =
      live.toExchanges.syncWithIdentity redial.key redial.reason := by
    unfold onActorMessage fireRetry
    dsimp only
    split
    · rfl
    · rfl
  unfold Backs
  rw [hdialed, (@quiet_redial orders live redial).redials]
  refine @Exchanges.Backed.ends _ _ redial.key _ _ _ h .syncWithIdentity rfl rfl (fun _ => rfl)
    (fun _ _ hrunning => hrunning) (fun k hne ⟨other, hmem, hkey⟩ => ⟨other, ?_, hkey⟩)
    fun hpeer hsyncs _ => ?_
  · refine (List.mem_erase_of_ne fun heq => hne ?_).mpr hmem
    rw [← hkey, heq]
  · rw [Exchanges.Grows.syncWithIdentity.syncing] at hsyncs
    exact (Exchanges.underWay_syncWithIdentity hpeer hsyncs).awaited

lemma mem_held_part {ns : NamespaceId} {held : Key × HeldDial} :
    held ∈ (live.part orders ns).held ↔ held ∈ live.held ∧ held.2.ns ≠ ns := by
  have hheld : (live.part orders ns).held = live.held.filter fun held => held.2.ns ≠ ns := by
    unfold part
    dsimp only
    split_ifs
    · rfl
    · rfl
  rw [hheld, List.mem_filter, decide_eq_true_eq]

lemma isSyncing_part {ns ns' : NamespaceId} :
    (live.part orders ns).states.isSyncing ns' =
      if ns' = ns then false else live.states.isSyncing ns' := by
  let key : Key := ⟨ns', live.me, live.identity⟩
  rw [← @Exchanges.isSome_state _ key, state_part]
  split_ifs
  · rfl
  · exact Exchanges.isSome_state

lemma toExchanges_forgetTopicNeighbors (ns : NamespaceId) :
    (live.forgetTopicNeighbors orders ns).toExchanges = live.toExchanges := by
  unfold forgetTopicNeighbors
  generalize orders.providers.toList _ = peers
  induction peers generalizing live with
  | nil => rfl
  | cons peer peers ih =>
    rw [List.foldl_cons, ih]
    unfold forgetNeighbor
    dsimp only
    split_ifs <;> rfl

lemma toExchanges_leave (ns : NamespaceId) :
    (live.leave orders ns).toExchanges =
      (orders.keys.toList ((live.held.map Prod.fst).toFinset.filter fun key => key.ns = ns)).foldl
        (fun exchanges key => exchanges.releaseHeld key) (live.part orders ns).toExchanges := by
  grind [toExchanges_forgetTopicNeighbors, leave, onExchanges]

/-- **Leaving a namespace** leaves nothing held on it or for it: its own dials are dropped, those
held on it are released, and nothing of it runs by then. -/
lemma gone_leave (ns : NamespaceId) : (live.leave orders ns).Gone ns := by
  intro held hmem
  rw [toExchanges_leave] at hmem
  refine ⟨fun hon => ?_, Exchanges.held_of_foldl_releaseHeld (P := fun other => other ≠ ns) _
    (fun _ hmem => (mem_held_part.mp hmem).2) held hmem⟩
  rcases Exchanges.held_foldl_releaseHeld _ hmem with ⟨hout, hbefore⟩ | hruns
  · refine hout ((orders.keys.mem_toList _ _).mpr ?_)
    simp only [Finset.mem_filter, List.mem_toFinset]
    exact ⟨List.mem_map_of_mem (mem_held_part.mp hbefore).1, hon⟩
  · have hsyncs := Exchanges.isSyncing_of_isRunning hruns
    rw [(Exchanges.Grows.foldl_releaseHeld _).syncing, isSyncing_part, if_pos hon] at hsyncs
    cases hsyncs

lemma backs_leave (h : live.Backs) (ns : NamespaceId) : (live.leave orders ns).Backs := by
  have hquiet := @Quiet.leave orders live ns
  have hgone := @gone_leave orders live ns
  have hparted : (live.part orders ns).me = live.me ∧
      (live.part orders ns).redials = live.redials := by
    unfold part
    dsimp only
    split_ifs <;> exact ⟨rfl, rfl⟩
  unfold Backs
  rw [hquiet.redials, hparted.2]
  refine Exchanges.Backed.transfer h (hquiet.grows.me.trans hparted.1) (fun k _ hcause hon => ?_)
    (fun held hmem => ?_) (fun held hmem => ?_) fun held hmem => ?_
  · obtain ⟨held, hmem, rfl⟩ := hon
    rcases hcause with hrunning | hdue
    · obtain ⟨start, origin, exchange, hstate⟩ := Exchanges.isRunning_iff.mp hrunning
      refine .running (hquiet.grows.running (Exchanges.isRunning_iff.mpr
        ⟨start, origin, exchange, ?_⟩))
      rw [state_part, if_neg (hgone held hmem).1, hstate]
    · exact .due hdue
  · by_cases hown : held.2.ns = ns
    · -- Its own dials are dropped.
      refine .inr fun hsyncs => ?_
      rw [hquiet.grows.syncing, isSyncing_part, if_pos hown] at hsyncs
      cases hsyncs
    · exact hquiet.grows.released held (mem_held_part.mpr ⟨hmem, hown⟩)
  · exact (hquiet.grows.held held hmem).imp_left fun hbefore => (mem_held_part.mp hbefore).1
  · rcases hquiet.grows.held held hmem with hbefore | hrunning
    · rw [hquiet.grows.syncing, isSyncing_part, if_neg (hgone held hmem).1]
      exact h.syncs held (mem_held_part.mp hbefore).1
    · exact Exchanges.isSyncing_of_isRunning hrunning

lemma backs_onAction (h : live.Backs) (action : Action) : (live.onAction orders action).Backs := by
  cases action with
  | connectEnded dial result => exact backs_onConnectEnded h dial result
  | acceptEnded session script => exact backs_onAcceptEnded h session script
  | message message =>
    cases message with
    | startSync ns contacts recorded defaultIdentity opens joins =>
      refine Backs.quiet ?_ (Quiet.startSync ns contacts recorded defaultIdentity opens joins)
      split_ifs
      · refine Exchanges.Backed.same h rfl rfl (fun k hrunning => ?_) fun ns' hsyncs => ?_
        · obtain ⟨start, origin, exchange, hstate⟩ := Exchanges.isRunning_iff.mp hrunning
          exact Exchanges.isRunning_iff.mpr ⟨start, origin, exchange, state_insert_iff.mpr hstate⟩
        · change (Function.update live.states ns _ ns').isSome = true
          by_cases hns : ns' = ns
          · simp [hns]
          · rwa [Function.update_of_ne hns]
      · exact h
    | dropReplica ns => exact backs_leave h ns
    | handleSession | acceptInProcess | orderAfter =>
      exact Exchanges.Backed.same h rfl rfl (fun _ hrunning => hrunning) fun _ hsyncs => hsyncs
    | redial redial => exact @backs_redial orders live h redial
    | acceptSyncRequest session =>
      obtain ⟨outcome, states, served, hexchanges, -, -, hredials, hsyncing, hcases⟩ :=
        live.onAcceptSyncRequest_cases session
      unfold onAction onActorMessage Backs
      dsimp only
      rw [hexchanges, hredials]
      refine Exchanges.Backed.same h rfl rfl (fun k hrunning => ?_)
        fun ns hsyncs => (hsyncing ns).trans hsyncs
      obtain ⟨start, origin, exchange, hstate⟩ := Exchanges.isRunning_iff.mp hrunning
      rw [Exchanges.isRunning_iff]
      rcases hcases with ⟨-, -, hstates⟩ | ⟨-, -, hstates⟩
      · by_cases hkey : k = session.key
        · exact ⟨_, _, _, (hstates _).trans (if_pos hkey)⟩
        · exact ⟨_, _, _, (hstates _).trans ((if_neg hkey).trans hstate)⟩
      · exact ⟨_, _, _, (hstates _).trans hstate⟩
    | _ => exact h.quiet (quiet_onAction rfl)
  | _ => exact h.quiet (quiet_onAction rfl)

/-- **For every turn**, what every held dial waits for stays. -/
lemma backs_step (h : live.Backs) (turn : Turn) : (live.step turn).Backs ∧ live.Releases turn := by
  have hbegun : (live.begin turn).Backs :=
    Exchanges.Backed.same h rfl rfl (fun _ hrunning => hrunning) fun _ hsyncs => hsyncs
  have hstep : (live.step turn).Backs :=
    (backs_onAction hbegun turn.action).quiet (Quiet.parkUnrouted _)
  refine ⟨hstep, hstep.awaited, fun ns hleaves => ?_⟩
  obtain ⟨states, events, heq, -⟩ := @parkUnrouted_eq turn.orders
    ((live.begin turn).onAction turn.orders turn.action)
  unfold step Gone
  rw [heq, hleaves]
  exact gone_leave ns

/-- **No held dial is stranded.** In every run, after every turn, an exchange on which dials are
held for a counterpart on another node runs, or a redial of it is due, or its own dial is held
behind a third exchange of which the same holds; and a turn that leaves a namespace leaves no dial
held on it or for it.

**Proof sketch.** A dial is held only behind an exchange that runs. What ends the exchange releases
what is held on it, or dials it again; that dial runs, or is held behind an exchange that runs. A
dial that is released runs, since a namespace on which others are held syncs. -/
theorem held_unstranded (me : NodeId) (identity : Identity) (fetchesPerProvider : ℕ)
    (turns : List Turn) : (new me identity fetchesPerProvider).Always Releases turns := by
  have hruns : ∀ (turns : List Turn) (live : LiveActor), live.Backs →
      live.Always Releases turns := by
    intro turns
    induction turns with
    | nil => exact fun _ _ => trivial
    | cons turn turns ih =>
      intro live h
      obtain ⟨hstep, hreleases⟩ := backs_step h turn
      exact ⟨hreleases, ih _ hstep⟩
  exact hruns turns _ ⟨fun held hmem => absurd hmem List.not_mem_nil,
    fun held hmem => absurd hmem List.not_mem_nil⟩

end LiveActor

namespace Testing

/-- A third namespace. -/
def drafts : NamespaceId := ⟨.replicate 32 9⟩

/-- **What a dial is held on need neither run nor be due.** A dial of letters is held on the one of
notes, which the other side refuses as already syncing. Meanwhile notes has come to follow drafts,
so that its redial is held in turn, behind the dial of drafts it started. -/
theorem held_behind_third :
    let turns := [starting notes, starting letters, starting drafts,
      taking (.message (.orderAfter letters (some notes))),
      taking (.message (.orderAfter notes (some drafts))),
      taking (.message (.neighborUp letters holder true)),
      taking (.connectEnded ⟨0, meeting, .newNeighbor⟩
        (.error (.remoteAbort .alreadySyncing))),
      taking (.message (.redial ⟨meeting, .newNeighbor, 500, none⟩))]
    let live := (LiveActor.new here owner 1).after turns
    (LiveActor.new here owner 1).Valid turns ∧
      live.held = [(meeting, .network letters .newNeighbor),
        (meeting.within drafts, .network notes .newNeighbor)] ∧
      live.isRunning meeting = false ∧ ¬LiveActor.due live.redials meeting ∧
      live.isRunning (meeting.within drafts) = true := by
  decide +kernel

end Testing

end MeePdn.PdnStore.Engine
