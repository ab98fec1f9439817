import MeePdn.PdnStore.Engine.State

/-!
# Dials and the dials held behind them

`pdn-store/src/engine/live.rs`: the part of the live actor that starts exchanges. A dial of a
namespace may have to follow an exchange of another namespace with the same counterpart, and is held
until that exchange ends.

## Main definitions

* `Exchanges` — the slots, the dials that run, and the dials that are held.
* `Exchanges.dial`, `Exchanges.syncInProcess`, `Exchanges.releaseHeld`, `Exchanges.syncWithIdentity`
  — the functions that start or hold a dial.
* `Exchanges.Grows` — what comes of any of them.

## Main results

* `Exchanges.Grows.releaseHeld`, `Exchanges.Grows.syncWithIdentity` — an exchange that runs keeps
  its slot, a slot that is taken later was taken before or by a dial started since, and a dial that
  is held no more is under way if its namespace syncs.

## Implementation notes

The map from exchanges to the dials held on them is a list, in the order in which they were held.
The requests to the node's other identities come to what `asked` says, one after the other: a full
channel drops a request. `requests` are those it took in this turn. `served` lists the exchanges
that took their slot and were neither superseded nor ended nor left, which the source does not keep.
-/

namespace MeePdn.PdnStore.Engine

/-- An exchange's namespace, peer and identity across the session. -/
structure Key where
  ns : NamespaceId
  peer : NodeId
  identity : Identity
deriving DecidableEq

namespace Key

/-- The counterpart. -/
def counterpart (key : Key) : Counterpart := (key.peer, key.identity)

/-- The same counterpart in another namespace. -/
def within (key : Key) (ns : NamespaceId) : Key := { key with ns := ns }

end Key

/-- `HeldDial`: a dial held until the exchange it follows finishes. -/
inductive HeldDial where
  | network (ns : NamespaceId) (reason : SyncReason)
  | inProcess (ns : NamespaceId)
deriving DecidableEq

/-- `HeldDial::namespace`. -/
def HeldDial.ns : HeldDial → NamespaceId
  | .network ns _ | .inProcess ns => ns

/-- The exchange a held dial is of. -/
def heldKey (held : Key × HeldDial) : Key := held.1.within held.2.ns

/-- `CoLocatedRequest`: what an engine asks of its node's other identities. -/
inductive CoLocatedRequest where
  | announce (ns : NamespaceId) (writer : Identity)
  | dial (ns : NamespaceId) (caller callee : Identity)
deriving DecidableEq

/-- A dial that runs. -/
structure Dial where
  exchange : ℕ
  key : Key
  reason : SyncReason
deriving DecidableEq

/-- The part of the live actor that starts exchanges. -/
structure Exchanges where
  /-- `endpoint.id()`. -/
  me : NodeId
  identity : Identity
  now : ℕ
  states : NamespaceStates
  /-- The namespace whose exchange with a counterpart every dial of a namespace follows. -/
  prerequisites : NamespaceId → Option NamespaceId
  /-- Dials held until the exchange they follow finishes. -/
  held : List (Key × HeldDial)
  /-- `running_sync_connect`. -/
  connects : List Dial
  /-- What the next requests to the node's other identities come to. -/
  asked : List Bool
  requests : List CoLocatedRequest
  /-- The number of the next exchange. -/
  nextExchange : ℕ
  served : List (Key × ℕ)

namespace Exchanges

variable (exchanges : Exchanges)

/-- A counterpart's slot. -/
def slot (key : Key) : Option PeerState := exchanges.states.entry key.ns key.counterpart

/-- What runs in a counterpart's slot. -/
def state (key : Key) : Option SyncState := (exchanges.slot key).map PeerState.state

/-- Whether an exchange runs. -/
def isRunning (key : Key) : Bool := exchanges.states.isRunning key.ns key.counterpart

/-- `ask_co_located`. -/
def askCoLocated (request : CoLocatedRequest) : Bool × Exchanges :=
  match exchanges.asked with
  | [] => (false, exchanges)
  | queued :: rest =>
    (queued, { exchanges with
      asked := rest
      requests := exchanges.requests ++ if queued then [request] else [] })

/-- A dial with a slot of its own, or nothing. -/
def dial (key : Key) (reason : SyncReason) : Exchanges :=
  let (started, states) := exchanges.states.startConnect key.ns key.counterpart reason exchanges.now
    exchanges.nextExchange
  if started then
    { exchanges with
      states := states
      connects := exchanges.connects ++ [⟨exchanges.nextExchange, key, reason⟩]
      nextExchange := exchanges.nextExchange + 1
      served := exchanges.served ++ [(key, exchanges.nextExchange)] }
  else { exchanges with states := states }

/-- A dial held behind an exchange. -/
def hold (key : Key) (dial : HeldDial) : Exchanges :=
  { exchanges with held := exchanges.held ++ [(key, dial)] }

/-- `sync_in_process`: the dialing half of a session between two identities of this node. -/
def syncInProcess (key : Key) : Exchanges :=
  match exchanges.prerequisites key.ns with
  | some first =>
    if exchanges.isRunning (key.within first) then
      exchanges.hold (key.within first) (.inProcess key.ns)
    else exchanges.dial key .announced
  | none => exchanges.dial key .announced

/-- A dial that was held runs. -/
def runHeld (key : Key) : HeldDial → Exchanges
  | .network ns reason => exchanges.dial (key.within ns) reason
  | .inProcess ns => exchanges.syncInProcess (key.within ns)

/-- `release_held`: the dials held on an exchange run. -/
def releaseHeld (key : Key) : Exchanges :=
  let dials := (exchanges.held.filter fun held => held.1 = key).map Prod.snd
  let held := exchanges.held.filter fun held => held.1 ≠ key
  dials.foldl (fun exchanges dial => exchanges.runHeld key dial) { exchanges with held := held }

/-- The dials held on an exchange run, unless it runs or is about to. -/
def releaseUnless (soon : Bool) (key : Key) : Exchanges :=
  if !soon && !exchanges.isRunning key then exchanges.releaseHeld key else exchanges

/-- `sync_with_identity`. -/
def syncWithIdentity (key : Key) (reason : SyncReason) : Exchanges :=
  if key.peer = exchanges.me then
    let (asked, exchanges) := exchanges.askCoLocated
      (.dial key.ns exchanges.identity key.identity)
    -- A dropped request runs no exchange, so nothing else would release the dials held on it.
    exchanges.releaseUnless asked key
  else
    match exchanges.prerequisites key.ns with
    | some first =>
      let exchanges :=
        if exchanges.isRunning (key.within first) then exchanges
        else exchanges.dial (key.within first) reason
      if exchanges.isRunning (key.within first) then
        exchanges.hold (key.within first) (.network key.ns reason)
      else exchanges.dial key reason
    | none => exchanges.dial key reason

/-! ## What they do -/

variable {exchanges} {e e' e'' : Exchanges} {key k : Key} {reason : SyncReason}

lemma isRunning_iff :
    e.isRunning key = true ↔ ∃ start origin exchange,
      e.state key = some (.running start origin exchange) := by
  unfold isRunning NamespaceStates.isRunning state slot
  cases e.states.entry key.ns key.counterpart with
  | none => simp
  | some peer => grind [PeerState.isRunning]

lemma isSome_state : (e.state key).isSome = e.states.isSyncing key.ns := by
  simp [state, slot, NamespaceStates.entry, NamespaceStates.isSyncing]

lemma slot_act {α : Type} (e : Exchanges) (k key : Key) (absent : α)
    (call : PeerState → α × PeerState) :
    { e with states := (e.states.act k.ns k.counterpart absent call).2 }.slot key =
      if key = k then (e.slot k).map fun peer => (call peer).2 else e.slot key := by
  have hkey : (key.ns = k.ns ∧ key.counterpart = k.counterpart) ↔ key = k := by
    cases key
    cases k
    simp [Key.counterpart]
  unfold slot
  rw [NamespaceStates.entry_act]
  simp only [hkey]

lemma slot_dial (e : Exchanges) (k key : Key) (reason : SyncReason) :
    (e.dial k reason).slot key = if key = k then
      (e.slot k).map fun peer => (peer.startConnect reason e.now e.nextExchange).2
      else e.slot key := by
  have hact := slot_act e k key false fun peer => peer.startConnect reason e.now e.nextExchange
  unfold dial
  simp only
  split_ifs at hact ⊢ <;> exact hact

lemma state_dial :
    (e.dial k reason).state key =
      if key = k ∧ e.state k = some .idle then
        some (.running e.now (.connect reason) e.nextExchange)
      else e.state key := by
  unfold state
  rw [slot_dial]
  by_cases hkey : key = k
  · subst hkey
    cases hpeer : e.slot key with
    | none => simp
    | some peer => grind [PeerState.startConnect, PeerState.setSyncRunning]
  · simp [hkey]

/-- What else a dial does. -/
lemma dial_eq :
    e.dial k reason = { e with
      states := (e.dial k reason).states
      connects := e.connects ++
        if e.state k = some .idle then [⟨e.nextExchange, k, reason⟩] else []
      nextExchange := e.nextExchange + if e.state k = some .idle then 1 else 0
      served := e.served ++ if e.state k = some .idle then [(k, e.nextExchange)] else [] } := by
  have hstarted : (e.states.startConnect k.ns k.counterpart reason e.now e.nextExchange).1 = true ↔
      e.state k = some .idle := by
    unfold NamespaceStates.startConnect state slot
    rw [NamespaceStates.fst_act]
    cases e.states.entry k.ns k.counterpart with
    | none => simp
    | some peer => cases hstate : peer.state <;> simp [PeerState.startConnect, hstate]
  unfold dial
  by_cases hidle : e.state k = some .idle
  · simp [hstarted.mpr hidle, hidle]
  · simp [mt hstarted.mp hidle, hidle]

lemma isSyncing_dial (ns : NamespaceId) :
    (e.dial k reason).states.isSyncing ns = e.states.isSyncing ns := by
  unfold dial NamespaceStates.startConnect
  simp only
  split_ifs <;> exact NamespaceStates.isSyncing_act _ _ _ _ _

lemma isSyncing_of_isRunning (h : e.isRunning key = true) : e.states.isSyncing key.ns = true := by
  obtain ⟨start, origin, exchange, hstate⟩ := isRunning_iff.mp h
  rw [← isSome_state, hstate]
  rfl

/-- A dial is under way: its exchange runs, or it is held behind one that runs. -/
def UnderWay (e : Exchanges) (key : Key) : Prop :=
  e.isRunning key = true ∨ ∃ held ∈ e.held, heldKey held = key ∧ e.isRunning held.1 = true

/-- **What comes of the functions that start or hold a dial**: a slot stays as it is unless it was
idle and a new dial took it; a dial is held only behind an exchange that runs, and one that is held
no more is under way if its namespace syncs; and the exchanges that are new have their slots. -/
structure Grows (e e' : Exchanges) : Prop where
  me : e'.me = e.me
  now : e'.now = e.now
  prerequisites : e'.prerequisites = e.prerequisites
  syncing : ∀ ns, e'.states.isSyncing ns = e.states.isSyncing ns
  next : e.nextExchange ≤ e'.nextExchange
  states : ∀ key, e'.state key = e.state key ∨ e.state key = some .idle ∧ ∃ reason exchange,
    e.nextExchange ≤ exchange ∧ exchange < e'.nextExchange ∧
      e'.state key = some (.running e.now (.connect reason) exchange)
  held : ∀ held ∈ e'.held, held ∈ e.held ∨ e'.isRunning held.1 = true
  released : ∀ held ∈ e.held, held ∈ e'.held ∨
    (e'.states.isSyncing held.2.ns = true → e'.UnderWay (heldKey held))
  connects : ∀ dial ∈ e'.connects, dial ∈ e.connects ∨
    e.nextExchange ≤ dial.exchange ∧ dial.exchange < e'.nextExchange
  served : ∀ pair ∈ e'.served, pair ∈ e.served ∨
    e.nextExchange ≤ pair.2 ∧ pair.2 < e'.nextExchange ∧
      ∃ start origin, e'.state pair.1 = some (.running start origin pair.2)
  kept : e.connects ⊆ e'.connects ∧ e.served ⊆ e'.served

namespace Grows

lemma refl (e : Exchanges) : Grows e e :=
  ⟨rfl, rfl, rfl, fun _ => rfl, le_rfl, fun _ => .inl rfl, fun _ h => .inl h, fun _ h => .inl h,
    fun _ h => .inl h, fun _ h => .inl h, fun _ h => h, fun _ h => h⟩

lemma keeps (h : Grows e e') {start exchange : ℕ} {origin : Origin}
    (hstate : e.state key = some (.running start origin exchange)) :
    e'.state key = some (.running start origin exchange) := by
  rcases h.states key with heq | ⟨hidle, -⟩
  · rw [heq, hstate]
  · simp [hidle] at hstate

lemma running (h : Grows e e') (hrunning : e.isRunning key = true) : e'.isRunning key = true := by
  obtain ⟨start, origin, exchange, hstate⟩ := isRunning_iff.mp hrunning
  exact isRunning_iff.mpr ⟨start, origin, exchange, h.keeps hstate⟩

lemma underWay (h : Grows e e') (hsyncs : e'.states.isSyncing key.ns = true)
    (hunder : e.UnderWay key) : e'.UnderWay key := by
  rcases hunder with hrunning | ⟨held, hmem, rfl, hrunning⟩
  · exact .inl (h.running hrunning)
  · rcases h.released held hmem with hkept | hunder
    · exact .inr ⟨held, hkept, rfl, h.running hrunning⟩
    · exact hunder hsyncs

lemma trans (h : Grows e e') (h' : Grows e' e'') : Grows e e'' := by
  refine ⟨h'.me.trans h.me, h'.now.trans h.now, h'.prerequisites.trans h.prerequisites,
    fun ns => (h'.syncing ns).trans (h.syncing ns), h.next.trans h'.next, fun key => ?_,
    fun held hmem => ?_, fun held hmem => ?_, fun dial hmem => ?_, fun pair hmem => ?_,
    fun _ hmem => h'.kept.1 (h.kept.1 hmem), fun _ hmem => h'.kept.2 (h.kept.2 hmem)⟩
  · grind [h.states, h'.states, h.next, h.now, h'.next]
  · grind [h'.held, h.held, h'.running]
  · rcases h.released held hmem with hkept | hunder
    · exact h'.released held hkept
    · exact .inr fun hsyncs => h'.underWay hsyncs (hunder (h'.syncing _ ▸ hsyncs))
  · grind [h'.connects, h.connects, h'.next, h.next]
  · grind [h'.served, h.served, h'.next, h'.keeps, h.next]

lemma dial (e : Exchanges) (k : Key) (reason : SyncReason) : Grows e (e.dial k reason) := by
  have heq := @dial_eq e k reason
  have hheld : (e.dial k reason).held = e.held := by rw [heq]
  have hconnects : (e.dial k reason).connects = e.connects ++
      if e.state k = some .idle then [⟨e.nextExchange, k, reason⟩] else [] := by rw [heq]
  have hnext : (e.dial k reason).nextExchange =
      e.nextExchange + if e.state k = some .idle then 1 else 0 := by rw [heq]
  have hserved : (e.dial k reason).served = e.served ++
      if e.state k = some .idle then [(k, e.nextExchange)] else [] := by rw [heq]
  refine ⟨by rw [heq], by rw [heq], by rw [heq], fun ns => isSyncing_dial ns, by omega,
    fun key => ?_, fun held hmem => .inl (hheld ▸ hmem), fun held hmem => .inl (hheld ▸ hmem),
    fun dial hmem => ?_, fun pair hmem => ?_, ?_, ?_⟩
  · grind [state_dial]
  · grind
  · rw [hserved, List.mem_append] at hmem
    refine hmem.imp_right fun hnew => ?_
    split_ifs at hnew with hidle
    · rw [List.mem_singleton.mp hnew]
      simp [hnext, hidle, state_dial]
    · simp at hnew
  · rw [hconnects]
    exact List.subset_append_left _ _
  · rw [hserved]
    exact List.subset_append_left _ _

lemma hold {dial : HeldDial} (hrunning : e.isRunning key = true) : Grows e (e.hold key dial) := by
  refine { refl e with held := fun held hmem => ?_, released := fun held hmem => .inl ?_ }
  · rcases List.mem_append.mp hmem with hmem | hmem
    · exact .inl hmem
    · rw [List.mem_singleton.mp hmem]
      exact .inr hrunning
  · exact List.mem_append_left _ hmem

lemma askCoLocated (request : CoLocatedRequest) : Grows e (e.askCoLocated request).2 := by
  unfold Exchanges.askCoLocated
  split
  · exact refl e
  · exact { refl e with released := fun _ hmem => .inl hmem }

lemma syncInProcess : Grows e (e.syncInProcess key) := by
  unfold Exchanges.syncInProcess
  split
  · split_ifs with hrunning
    · exact hold hrunning
    · exact dial ..
  · exact dial ..

end Grows

/-- What runs after a dial. -/
lemma isRunning_dial : (e.dial k reason).isRunning key =
    (e.isRunning key || decide (key = k) && e.states.isSyncing k.ns) := by
  rw [Bool.eq_iff_iff, Bool.or_eq_true, Bool.and_eq_true, decide_eq_true_eq, isRunning_iff]
  constructor
  · rintro ⟨start, origin, exchange, hstate⟩
    rw [state_dial] at hstate
    split_ifs at hstate with hidle
    · refine .inr ⟨hidle.1, ?_⟩
      rw [← isSome_state, hidle.2]
      rfl
    · exact .inl (isRunning_iff.mpr ⟨start, origin, exchange, hstate⟩)
  · rintro (hrunning | ⟨rfl, hsyncs⟩)
    · obtain ⟨start, origin, exchange, hstate⟩ := isRunning_iff.mp hrunning
      exact ⟨start, origin, exchange, (Grows.dial e k reason).keeps hstate⟩
    · obtain ⟨state, hstate⟩ := Option.isSome_iff_exists.mp (isSome_state.trans hsyncs)
      cases state with
      | idle => exact ⟨e.now, .connect reason, e.nextExchange, by simp [state_dial, hstate]⟩
      | running start origin exchange =>
        exact ⟨start, origin, exchange, (Grows.dial e key reason).keeps hstate⟩

lemma underWay_dial (hsyncs : e.states.isSyncing key.ns = true) :
    (e.dial key reason).UnderWay key := by
  left
  simp [isRunning_dial, hsyncs]

lemma underWay_hold {first : NamespaceId} {dial : HeldDial} (hdial : dial.ns = key.ns)
    (hrunning : e.isRunning (key.within first) = true) :
    (e.hold (key.within first) dial).UnderWay key := by
  refine .inr ⟨_, List.mem_append_right _ (List.mem_singleton_self _), ?_, hrunning⟩
  simp [heldKey, Key.within, hdial]

lemma underWay_runHeld (dial : HeldDial) (hsyncs : e.states.isSyncing dial.ns = true) :
    (e.runHeld key dial).UnderWay (key.within dial.ns) := by
  cases dial with
  | network ns reason => exact underWay_dial hsyncs
  | inProcess ns =>
    change (e.syncInProcess (key.within ns)).UnderWay (key.within ns)
    unfold syncInProcess
    split
    · split_ifs with hrunning
      · exact underWay_hold rfl hrunning
      · exact underWay_dial hsyncs
    · exact underWay_dial hsyncs

namespace Grows

lemma runHeld (dial : HeldDial) : Grows e (e.runHeld key dial) := by
  cases dial with
  | network ns reason => exact Grows.dial ..
  | inProcess ns => exact syncInProcess

/-- The dials that were held run, one after the other. -/
lemma foldl_runHeld (dials : List HeldDial) :
    Grows e (dials.foldl (fun exchanges dial => exchanges.runHeld key dial) e) ∧
      ∀ dial ∈ dials, e.states.isSyncing dial.ns = true →
        (dials.foldl (fun exchanges dial => exchanges.runHeld key dial) e).UnderWay
          (key.within dial.ns) := by
  induction dials generalizing e with
  | nil => exact ⟨refl e, fun _ hmem => absurd hmem List.not_mem_nil⟩
  | cons dial dials ih =>
    have hfirst : Grows e (e.runHeld key dial) := runHeld dial
    obtain ⟨hgrows, hunder⟩ := @ih (e.runHeld key dial)
    refine ⟨hfirst.trans hgrows, fun other hmem hsyncs => ?_⟩
    rw [← hfirst.syncing] at hsyncs
    rcases List.mem_cons.mp hmem with rfl | hmem
    · exact hgrows.underWay ((hgrows.syncing _).trans hsyncs)
        (underWay_runHeld other (hfirst.syncing _ ▸ hsyncs))
    · exact hunder other hmem hsyncs

lemma releaseHeld (key : Key) : Grows e (e.releaseHeld key) := by
  obtain ⟨hgrows, hunder⟩ := @foldl_runHeld
    { e with held := e.held.filter fun held => held.1 ≠ key }
    key ((e.held.filter fun held => held.1 = key).map Prod.snd)
  refine { hgrows with
    held := fun held hmem => (hgrows.held held hmem).imp_left List.mem_of_mem_filter
    released := fun held hmem => ?_ }
  by_cases hkey : held.1 = key
  · refine .inr fun hsyncs => ?_
    subst hkey
    exact hunder held.2 (List.mem_map_of_mem (by simp [hmem])) (hgrows.syncing _ ▸ hsyncs)
  · exact hgrows.released held (by simp [hmem, hkey])

lemma foldl_releaseHeld (keys : List Key) :
    Grows e (keys.foldl (fun exchanges key => exchanges.releaseHeld key) e) := by
  induction keys generalizing e with
  | nil => exact refl e
  | cons key keys ih => exact (releaseHeld key).trans ih

lemma releaseUnless (soon : Bool) : Grows e (e.releaseUnless soon key) := by
  unfold Exchanges.releaseUnless
  split_ifs
  · exact releaseHeld key
  · exact refl e

lemma first (first : Key) :
    Grows e (if e.isRunning first then e else e.dial first reason) := by
  split_ifs
  · exact refl e
  · exact dial ..

lemma syncWithIdentity : Grows e (e.syncWithIdentity key reason) := by
  unfold Exchanges.syncWithIdentity
  simp only
  split_ifs
  · exact (askCoLocated _).trans (releaseUnless _)
  · split
    · rename_i ns _
      refine (@first e reason (key.within ns)).trans ?_
      split_ifs with hwas hruns
      · exact hold hwas
      · exact hold hruns
      · exact dial ..
    · exact dial ..

end Grows

/-- Nothing is held any more on an exchange whose dials were released, except behind an exchange
that runs. -/
lemma held_releaseHeld {held : Key × HeldDial} (hmem : held ∈ (e.releaseHeld key).held) :
    held.1 ≠ key ∧ held ∈ e.held ∨ (e.releaseHeld key).isRunning held.1 = true := by
  refine ((Grows.foldl_runHeld _).1.held held hmem).imp_left fun hkept => ?_
  simpa [and_comm] using hkept

end Exchanges

end MeePdn.PdnStore.Engine
