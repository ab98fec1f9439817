import MeePdn.PdnStore.Engine.Turns

/-!
# Crossing dials

Two counterparts of a namespace dial each other. The opening messages, the refusals and the ends of
the sessions are handled in any order, each side by its own slot of the other. One of the dials is
accepted, and no slot stays taken.

## Main definitions

* `Crossing` — the two sides and their dials.
* `Crossing.Move`, `Crossing.step` — what happens next: a dial starts, its opening arrives, and the
  two sides handle its end.

## Main results

* `Crossing.Sound.step` — the invariant and its step lemma.
* `Crossing.step_live` — a move is what a handler of the live actor does to a slot.
* `crossing_dials` — one of the dials is accepted, one only when both openings find the other side
  dialing, and no slot stays taken.

## Implementation notes

A side's handlers are those of the live actor as far as they touch its slot: the end of a dial that
was refused as already syncing is `abort_connect`, that of any other dial `finish`, that of an
accepted session `finish`, and that of a refused one nothing. There is no earlier refusal, so
`refused_ours` is false, and both access providers allow. Sides are named by a `Bool`.
-/

namespace MeePdn.PdnStore.Engine

/-- How far a dial has come. -/
inductive DialPhase where
  /-- Not started. -/
  | due
  /-- Its opening is on its way. -/
  | opening
  | accepted
  /-- The other side refused it as already syncing. -/
  | refused
deriving DecidableEq

/-- One side's dial of the other. -/
structure CrossingDial where
  phase : DialPhase := .due
  /-- The opening found the other side dialing. -/
  metDial : Bool := false
  /-- The side that dialed has handled the dial's end. -/
  callerDone : Bool := false
  /-- The side that was dialed has handled the session's end. -/
  calleeDone : Bool := false
deriving DecidableEq

namespace CrossingDial

/-- The other side has decided. -/
def IsDecided (dial : CrossingDial) : Prop := dial.phase = .accepted ∨ dial.phase = .refused

instance (dial : CrossingDial) : Decidable dial.IsDecided := by unfold IsDecided; infer_instance

/-- Both ends are handled. -/
def IsOver (dial : CrossingDial) : Prop :=
  dial.IsDecided ∧ dial.callerDone = true ∧ dial.calleeDone = true

instance (dial : CrossingDial) : Decidable dial.IsOver := by unfold IsOver; infer_instance

end CrossingDial

/-- Who the sides are, and why they dial. -/
structure Parties where
  counterpart : Bool → Counterpart
  reason : Bool → SyncReason

/-- The two sides: each one's slot of the other, and each one's dial. -/
structure Crossing where
  slot : Bool → PeerState := fun _ => {}
  dial : Bool → CrossingDial := fun _ => {}

namespace Crossing

variable (parties : Parties)

/-- Something happens to a side's dial. -/
inductive Move where
  | start (side : Bool)
  | deliver (side : Bool)
  | callerEnd (side : Bool)
  | calleeEnd (side : Bool)
deriving DecidableEq

/-- A side starts its one dial from an idle slot, the opening is delivered once, and each side
handles the end once the dial is decided. -/
def Enabled (s : Crossing) : Move → Prop
  | .start side => (s.dial side).phase = .due ∧ (s.slot side).isRunning = false
  | .deliver side => (s.dial side).phase = .opening
  | .callerEnd side => (s.dial side).IsDecided ∧ (s.dial side).callerDone = false
  | .calleeEnd side => (s.dial side).IsDecided ∧ (s.dial side).calleeDone = false

instance (s : Crossing) (move : Move) : Decidable (s.Enabled move) := by
  cases move <;> unfold Enabled <;> infer_instance

/-- A side's slot and a side's dial become others. -/
def put (s : Crossing) (at' : Bool) (slot : PeerState) (side : Bool) (dial : CrossingDial) :
    Crossing :=
  ⟨Function.update s.slot at' slot, Function.update s.dial side dial⟩

/-- Whether a side is dialing. -/
def isDialing (peer : PeerState) : Bool :=
  match peer.state with
  | .running _ (.connect _) _ => true
  | _ => false

/-- What happens. The numbers of the exchanges and the times tell nothing here. -/
def step (s : Crossing) : Move → Crossing
  | .start side =>
    s.put side ((s.slot side).startConnect (parties.reason side) 0 0).2 side
      { s.dial side with phase := .opening }
  | .deliver side =>
    let (outcome, slot) := (s.slot !side).acceptRequest (parties.counterpart !side)
      (parties.counterpart side) false 0 0
    s.put (!side) slot side
      { s.dial side with
        phase := if outcome = .allow then .accepted else .refused
        metDial := isDialing (s.slot !side) }
  | .callerEnd side =>
    let slot := s.slot side
    let reason := parties.reason side
    s.put side
      (if (s.dial side).phase = .accepted then (slot.finish (.connect reason)).2
        else (slot.abortConnect reason).2)
      side { s.dial side with callerDone := true }
  | .calleeEnd side =>
    let slot := s.slot !side
    s.put (!side) (if (s.dial side).phase = .accepted then (slot.finish .accept).2 else slot)
      side { s.dial side with calleeDone := true }

/-- One move after the other. -/
def after (s : Crossing) (moves : List Move) : Crossing := moves.foldl (step parties) s

/-- Every move is enabled when it is made. -/
def Valid : Crossing → List Move → Prop
  | _, [] => True
  | s, move :: moves => s.Enabled move ∧ Valid (s.step parties move) moves

instance decidableValid : (s : Crossing) → (moves : List Move) → Decidable (s.Valid parties moves)
  | _, [] => isTrue trivial
  | s, move :: moves =>
    have := decidableValid (s.step parties move) moves
    inferInstanceAs (Decidable (s.Enabled move ∧ Valid parties (s.step parties move) moves))

/-! ## The handlers of the live actor -/

/-- A slot without the numbers of its exchange. -/
def shape (peer : PeerState) : PeerState :=
  { peer with
    state := match peer.state with
      | .running _ origin _ => .running 0 origin 0
      | .idle => .idle }

section Shape

variable (peer : PeerState) (now exchange : ℕ)

lemma shape_startConnect (reason : SyncReason) :
    shape (peer.startConnect reason now exchange).2 =
      ((shape peer).startConnect reason 0 0).2 := by
  rcases peer with ⟨_ | ⟨start, origin, other⟩, resync⟩
  · rfl
  · cases hqueues : reason.queues <;> simp [PeerState.startConnect, shape, hqueues]

lemma shape_acceptRequest (here there : Counterpart) (refused : Bool) :
    (shape peer).acceptRequest here there refused 0 0 =
      ((peer.acceptRequest here there refused now exchange).1,
        shape (peer.acceptRequest here there refused now exchange).2) := by
  have houtcome : (shape peer).acceptOutcome here there refused =
      peer.acceptOutcome here there refused := by
    rcases peer with ⟨_ | ⟨start, _ | _, other⟩, resync⟩ <;> rfl
  have hrunning : (shape peer).isRunning = peer.isRunning := by
    rcases peer with ⟨_ | ⟨start, origin, other⟩, resync⟩ <;> rfl
  unfold PeerState.acceptRequest
  rw [houtcome, hrunning]
  cases peer.acceptOutcome here there refused <;> rfl

lemma shape_finish (origin : Origin) :
    shape (peer.finish origin).2 = ((shape peer).finish origin).2 := by
  rcases peer with ⟨_ | ⟨start, running, other⟩, resync⟩
  · rfl
  · by_cases hsame : running.isAccept = origin.isAccept <;> simp [PeerState.finish, shape, hsame]

lemma shape_abortConnect (reason : SyncReason) :
    shape (peer.abortConnect reason).2 = ((shape peer).abortConnect reason).2 := by
  rcases peer with ⟨_ | ⟨start, running | _, other⟩, resync⟩
  · rfl
  · by_cases hsame : running = reason <;> simp [PeerState.abortConnect, shape, hsame]
  · rfl

end Shape

/-- **A move is what a handler of the live actor does to a slot**, but for the numbers: a dial that
starts, a session that asks for the slot, the end of a dial, of which only a refusal as already
syncing is an abort, and the end of a session that names its namespace where it was accepted. What
the handlers do after that is `Exchanges.Grows`. -/
lemma step_live (s : Crossing) (side : Bool) {live : LiveActor} {key : Key}
    (hslot : (live.slot key).map shape = some (s.slot side)) :
    ((live.toExchanges.dial key (parties.reason side)).slot key).map shape =
        some ((s.step parties (.start side)).slot side) ∧
    (∀ session : Incoming, session.key = key → parties.counterpart side = (live.me, live.identity) →
      parties.counterpart (!side) = key.counterpart → key ∉ live.refusedDials →
      ((live.acceptSyncRequest session).2.slot key).map shape =
          some ((s.step parties (.deliver !side)).slot side) ∧
        ((live.acceptSyncRequest session).1 = .allow ↔
          ((s.step parties (.deliver !side)).dial !side).phase = .accepted)) ∧
    (∀ (dial : Dial) (result : Except ConnectError Unit), dial.key = key →
      dial.reason = parties.reason side →
      ((s.dial side).phase = .accepted ↔ result ≠ .error (.remoteAbort .alreadySyncing)) →
      ((live.connectEnds dial result).slot key).map shape =
        some ((s.step parties (.callerEnd side)).slot side)) ∧
    ∀ (session : Incoming) (script : Script), session.key = key →
      ((s.dial !side).phase = .accepted ↔ LiveActor.Incoming.names session script = true) →
      ((live.acceptEnds session script).slot key).map shape =
        some ((s.step parties (.calleeEnd !side)).slot side) := by
  obtain ⟨peer, hpeer, hshape⟩ := Option.map_eq_some_iff.mp hslot
  have hpeer' : live.states.entry key.ns key.counterpart = some peer := hpeer
  refine ⟨?_, ?_, ?_, ?_⟩
  · rw [Exchanges.slot_dial, if_pos rfl, hpeer]
    simp [step, put, shape_startConnect, hshape]
  · rintro session rfl hhere hthere hrefused
    let called := peer.acceptRequest (live.me, live.identity) session.key.counterpart false
      live.now session.exchange
    have hrequest : (s.slot side).acceptRequest (parties.counterpart side)
        (parties.counterpart !side) false 0 0 = (called.1, shape called.2) := by
      rw [← hshape, hhere, hthere]
      exact shape_acceptRequest ..
    have hanswer : (live.acceptSyncRequest session).1 = called.1 := by
      unfold LiveActor.acceptSyncRequest NamespaceStates.acceptRequest
      simp only [decide_false, hrefused, NamespaceStates.fst_act, hpeer', Option.map_some,
        Option.getD_some]
      rfl
    have hleft : (live.acceptSyncRequest session).2.slot session.key = some called.2 := by
      have hact := Exchanges.slot_act live.toExchanges session.key session.key
        (AcceptOutcome.reject .notFound) fun peer => peer.acceptRequest (live.me, live.identity)
          session.key.counterpart (decide (session.key ∈ live.refusedDials)) live.now
            session.exchange
      rw [if_pos rfl, hpeer, Option.map_some, decide_eq_false hrefused] at hact
      refine Eq.trans ?_ hact
      simp only [LiveActor.acceptSyncRequest, decide_eq_false hrefused]
      rfl
    rw [hleft, hanswer]
    simp [step, put, hrequest]
  · rintro dial result rfl hreason hphase
    have hend : (live.toExchanges.endDial dial).slot dial.key = some peer := hpeer
    unfold LiveActor.connectEnds
    by_cases hresult : result = .error (.remoteAbort .alreadySyncing)
    · rw [if_pos hresult, Exchanges.slot_aborted, if_pos rfl, hend]
      simp [step, put, hphase, hresult, hreason, shape_abortConnect, hshape]
    · rw [if_neg hresult, Exchanges.slot_freed, if_pos rfl, hend]
      simp [step, put, hphase, hresult, hreason, shape_finish, hshape]
  · rintro session script rfl hphase
    have hend : (live.toExchanges.endServed session.key session.exchange).slot session.key =
      some peer := hpeer
    unfold LiveActor.acceptEnds
    split_ifs with hnames
    · rw [Exchanges.slot_freed, if_pos rfl, hend]
      simp [step, put, hphase, hnames, shape_finish, hshape]
    · rw [hend]
      simp [step, put, hphase, hnames, hshape]

/-! ## The invariant -/

/-- The invariant of a side, from its slot, its dial and the other side's dial. -/
structure Fits (side : Bool) (slot : PeerState) (own other : CrossingDial) : Prop where
  /-- A slot taken by a session is given back when the session's end is handled. -/
  accepts : ∀ start exchange, slot.state = .running start .accept exchange →
    other.phase = .accepted ∧ other.calleeDone = false
  /-- A slot taken by a dial is given back when the dial's end is handled. -/
  connects : ∀ start reason exchange, slot.state = .running start (.connect reason) exchange →
    reason = parties.reason side ∧ own.callerDone = false ∧ own.phase ≠ .due
  /-- A dial that is not decided has no ends. -/
  early : ¬own.IsDecided → own.callerDone = false ∧ own.calleeDone = false ∧ own.metDial = false
  /-- A dial is refused only where it meets a dial. -/
  refuses : own.phase = .refused → own.metDial = true
  /-- Where a dial meets a dial the tie-break decides. -/
  meets : own.metDial = true → (own.phase = .accepted ↔
    expectedSyncDirection (parties.counterpart !side) (parties.counterpart side) = .accept)

/-- The invariant of both sides. -/
def Sound (s : Crossing) : Prop :=
  ∀ side, Fits parties side (s.slot side) (s.dial side) (s.dial !side)

variable {parties} {s : Crossing} {m : Bool}

lemma sound_of (m : Bool) (hm : Fits parties m (s.slot m) (s.dial m) (s.dial !m))
    (hother : Fits parties (!m) (s.slot !m) (s.dial !m) (s.dial m)) : Sound parties s := by
  intro side
  rcases Bool.eq_or_eq_not side m with rfl | rfl
  · exact hm
  · simpa using hother

lemma Sound.other (h : Sound parties s) (m : Bool) :
    Fits parties (!m) (s.slot !m) (s.dial !m) (s.dial m) := by
  simpa using h !m

/-- A dial starts. -/
lemma Sound.start (h : Sound parties s) (henabled : s.Enabled (.start m)) :
    Sound parties (s.step parties (.start m)) := by
  obtain ⟨hdue, hidle⟩ := henabled
  have hundecided : ¬(s.dial m).IsDecided := by simp [CrossingDial.IsDecided, hdue]
  have hslot : ((s.slot m).startConnect (parties.reason m) 0 0).2.state =
      .running 0 (.connect (parties.reason m)) 0 := by
    grind [PeerState.setSyncRunning, PeerState.isRunning, PeerState.startConnect]
  obtain ⟨hcaller, hcallee, hmet⟩ := (h m).early hundecided
  apply sound_of m
  · simp only [Crossing.step, put, Function.update_self, Function.update_of_ne (Bool.not_ne_self m)]
    refine ⟨?_, ?_, fun _ => ⟨hcaller, hcallee, hmet⟩, ?_, ?_⟩
    · simp [hslot]
    · simp [hslot, hcaller]
    · simp
    · simp [hmet]
  · simp only [Crossing.step, put, Function.update_self, Function.update_of_ne (Bool.not_ne_self m)]
    obtain ⟨haccepts, hconnects, hearly, hrefuses, hmeets⟩ := h.other m
    refine ⟨fun start exchange hstate => ?_, hconnects, hearly, hrefuses, hmeets⟩
    simpa [hdue] using (haccepts start exchange hstate).1

/-- An opening arrives: where nothing else can have taken the slot, it is taken or the tie-break
refuses it. -/
lemma Sound.deliver (h : Sound parties s) (henabled : s.Enabled (.deliver m)) :
    Sound parties (s.step parties (.deliver m)) := by
  have hopening : (s.dial m).phase = .opening := henabled
  have hundecided : ¬(s.dial m).IsDecided := by simp [CrossingDial.IsDecided, hopening]
  obtain ⟨hcaller, hcallee, hmet⟩ := (h m).early hundecided
  obtain ⟨haccepts, hconnects, hearly, hrefuses, hmeets⟩ := h m
  obtain ⟨haccepts', hconnects', hearly', hrefuses', hmeets'⟩ := h.other m
  apply sound_of m
  · simp only [Crossing.step, put, Function.update_self, Function.update_of_ne (Bool.not_ne_self m),
      Function.update_of_ne (Bool.not_ne_self m).symm]
    refine ⟨haccepts, fun start reason exchange hstate => ?_, ?_, ?_, ?_⟩
    · obtain ⟨hreason, hdone, -⟩ := hconnects start reason exchange hstate
      exact ⟨hreason, hdone, by split_ifs <;> simp⟩
    all_goals
      cases hstate : (s.slot !m).state with
      | idle =>
        simp [PeerState.acceptRequest, PeerState.acceptOutcome, isDialing, hstate,
          CrossingDial.IsDecided]
      | running start origin exchange =>
        grind [PeerState.acceptRequest, PeerState.acceptOutcome, isDialing, CrossingDial.IsDecided]
  · simp only [Crossing.step, put, Function.update_self, Function.update_of_ne (Bool.not_ne_self m)]
    refine ⟨?_, ?_, hearly', hrefuses', hmeets'⟩
    all_goals
      cases houtcome : (s.slot !m).acceptOutcome (parties.counterpart !m)
        (parties.counterpart m) false
    · simp [PeerState.acceptRequest, houtcome, hcallee]
    · grind [PeerState.acceptRequest]
    · simp [PeerState.acceptRequest, houtcome, PeerState.setSyncRunning]
    · simpa [PeerState.acceptRequest, houtcome] using hconnects'

/-- The side that dialed handles the end: its slot is not the dial's any more. -/
lemma Sound.callerEnd (h : Sound parties s) (henabled : s.Enabled (.callerEnd m)) :
    Sound parties (s.step parties (.callerEnd m)) := by
  obtain ⟨hdecided, hcaller⟩ := henabled
  obtain ⟨haccepts, hconnects, hearly, hrefuses, hmeets⟩ := h m
  apply sound_of m
  · simp only [Crossing.step, put, Function.update_self, Function.update_of_ne (Bool.not_ne_self m)]
    refine ⟨fun start exchange hstate => ?_, fun start reason exchange hstate => ?_,
      fun hnot => absurd hdecided hnot, hrefuses, hmeets⟩
    · split_ifs at hstate
      · exact haccepts start exchange (PeerState.state_finish_iff.mp hstate).1
      · exact haccepts start exchange (PeerState.state_abortConnect_iff.mp hstate).1
    · split_ifs at hstate
      · exact absurd rfl (PeerState.state_finish_iff.mp hstate).2
      · obtain ⟨hbefore, hne⟩ := PeerState.state_abortConnect_iff.mp hstate
        exact absurd (by rw [(hconnects start reason exchange hbefore).1]) hne
  · simp only [Crossing.step, put, Function.update_self, Function.update_of_ne (Bool.not_ne_self m)]
    obtain ⟨haccepts', hconnects', hearly', hrefuses', hmeets'⟩ := h.other m
    exact ⟨haccepts', hconnects', hearly', hrefuses', hmeets'⟩

/-- The side that was dialed handles the end: its slot is not the session's any more. -/
lemma Sound.calleeEnd (h : Sound parties s) (henabled : s.Enabled (.calleeEnd m)) :
    Sound parties (s.step parties (.calleeEnd m)) := by
  obtain ⟨hdecided, hcallee⟩ := henabled
  obtain ⟨haccepts, hconnects, hearly, hrefuses, hmeets⟩ := h m
  obtain ⟨haccepts', hconnects', hearly', hrefuses', hmeets'⟩ := h.other m
  apply sound_of m
  · simp only [Crossing.step, put, Function.update_self, Function.update_of_ne (Bool.not_ne_self m),
      Function.update_of_ne (Bool.not_ne_self m).symm]
    exact ⟨haccepts, hconnects, fun hnot => absurd hdecided hnot, hrefuses, hmeets⟩
  · simp only [Crossing.step, put, Function.update_self, Function.update_of_ne (Bool.not_ne_self m)]
    refine ⟨fun start exchange hstate => ?_, fun start reason exchange hstate => ?_, hearly',
      hrefuses', hmeets'⟩
    · split_ifs at hstate with haccepted
      · exact absurd rfl (PeerState.state_finish_iff.mp hstate).2
      · exact absurd (haccepts' start exchange hstate).1 haccepted
    · split_ifs at hstate
      · exact hconnects' start reason exchange (PeerState.state_finish_iff.mp hstate).1
      · exact hconnects' start reason exchange hstate

/-- **Every move keeps the invariant.** -/
lemma Sound.step (h : Sound parties s) {move : Move} (henabled : s.Enabled move) :
    Sound parties (s.step parties move) := by
  cases move with
  | start m => exact h.start henabled
  | deliver m => exact h.deliver henabled
  | callerEnd m => exact h.callerEnd henabled
  | calleeEnd m => exact h.calleeEnd henabled

/-- **Every run keeps the invariant.** -/
lemma Sound.after (h : Sound parties s) {moves : List Move} (hvalid : s.Valid parties moves) :
    Sound parties (s.after parties moves) := by
  induction moves generalizing s with
  | nil => exact h
  | cons move moves ih => exact ih (h.step hvalid.1) hvalid.2

lemma sound_new : Sound parties {} := by
  intro side
  refine ⟨?_, ?_, ?_, ?_, ?_⟩ <;> simp

/-- Until every end is handled something can happen: a dial starts, or the session that keeps it
from starting ends. -/
lemma Sound.progress (h : Sound parties s) (hopen : ∃ side, ¬(s.dial side).IsOver) :
    ∃ move, s.Enabled move := by
  obtain ⟨side, hopen⟩ := hopen
  have hends : (s.dial side).IsDecided → ∃ move, s.Enabled move := by
    intro hdecided
    by_cases hcaller : (s.dial side).callerDone = true
    · have hcallee : ¬(s.dial side).calleeDone = true :=
        fun hcallee => hopen ⟨hdecided, hcaller, hcallee⟩
      exact ⟨.calleeEnd side, hdecided, by simpa using hcallee⟩
    · exact ⟨.callerEnd side, hdecided, by simpa using hcaller⟩
  cases hphase : (s.dial side).phase with
  | due =>
    cases hstate : (s.slot side).state with
    | idle => exact ⟨.start side, hphase, by simp [PeerState.isRunning, hstate]⟩
    | running start origin exchange =>
      cases origin with
      | accept =>
        obtain ⟨haccepted, hcallee⟩ := (h side).accepts start exchange hstate
        exact ⟨.calleeEnd !side, .inl haccepted, hcallee⟩
      | connect reason => exact absurd hphase ((h side).connects start reason exchange hstate).2.2
  | opening => exact ⟨.deliver side, hphase⟩
  | accepted => exact hends (.inl hphase)
  | refused => exact hends (.inr hphase)

end Crossing

/-- **Crossing dials always yield a session.** Two different counterparts dial each other once, from
idle slots, and what follows happens in any order. Once both openings have arrived one of the dials
is accepted, and only one of them if each found the other side still dialing; once every end is
handled both slots are idle; and until then something can happen.

**Proof sketch.** A dial is refused only where it meets a dial and the tie-break is for the other
one (`Crossing.Fits.refuses`, `Crossing.Fits.meets`), and the tie-break is for one of the two
(`expectedSyncDirection_swap`). A slot that is taken belongs to a dial or a session whose end is
still to be handled. -/
theorem crossing_dials (parties : Parties)
    (hne : parties.counterpart true ≠ parties.counterpart false)
    (moves : List Crossing.Move) (hvalid : Crossing.Valid parties {} moves) :
    ((∀ side, ((Crossing.after parties {} moves).dial side).IsDecided) →
      ∃ side, ((Crossing.after parties {} moves).dial side).phase = .accepted) ∧
    ((∀ side, ((Crossing.after parties {} moves).dial side).metDial = true) →
      ∃! side, ((Crossing.after parties {} moves).dial side).phase = .accepted) ∧
    ((∀ side, ((Crossing.after parties {} moves).dial side).IsOver) →
      ∀ side, ((Crossing.after parties {} moves).slot side).state = .idle) ∧
    ((∃ side, ¬((Crossing.after parties {} moves).dial side).IsOver) →
      ∃ move, (Crossing.after parties {} moves).Enabled move) := by
  have hsound := (@Crossing.sound_new parties).after hvalid
  generalize Crossing.after parties {} moves = s at hsound
  have htie :
      (expectedSyncDirection (parties.counterpart true) (parties.counterpart false) = .accept ↔
      ¬expectedSyncDirection (parties.counterpart false) (parties.counterpart true) = .accept) := by
    rw [expectedSyncDirection_swap hne]
    cases expectedSyncDirection (parties.counterpart false) (parties.counterpart true) <;> simp
  have hmeets : ∀ side, (s.dial side).metDial = true → ((s.dial side).phase = .accepted ↔
      expectedSyncDirection (parties.counterpart !side) (parties.counterpart side) = .accept) :=
    fun side => (hsound side).meets
  have hmeets_true := hmeets true
  have hmeets_false := hmeets false
  simp only [Bool.not_true, Bool.not_false] at hmeets_true hmeets_false
  refine ⟨fun hdecided => ?_, fun hmet => ?_, fun hover side => ?_, hsound.progress⟩
  · -- A dial that was not accepted met a dial and lost the tie-break.
    by_contra hnone
    have hrefused : ∀ side, (s.dial side).metDial = true := fun side =>
      (hsound side).refuses ((hdecided side).resolve_left fun haccepted => hnone ⟨side, haccepted⟩)
    have htrue := (hmeets_true (hrefused true)).not.mp fun haccepted => hnone ⟨true, haccepted⟩
    have hfalse := (hmeets_false (hrefused false)).not.mp fun haccepted => hnone ⟨false, haccepted⟩
    exact htrue (by_contra fun hno => hfalse (htie.mpr hno))
  · have htrue := hmeets_true (hmet true)
    have hfalse := hmeets_false (hmet false)
    by_cases haccept :
        expectedSyncDirection (parties.counterpart true) (parties.counterpart false) = .accept
    · refine ⟨false, hfalse.mpr haccept, fun side haccepted => ?_⟩
      cases side with
      | false => rfl
      | true => exact absurd (htrue.mp haccepted) (htie.mp haccept)
    · have hother := not_not.mp (htie.not.mp haccept)
      refine ⟨true, htrue.mpr hother, fun side haccepted => ?_⟩
      cases side with
      | true => rfl
      | false => exact absurd (hfalse.mp haccepted) haccept
  · cases hstate : (s.slot side).state with
    | idle => rfl
    | running start origin exchange =>
      cases origin with
      | accept =>
        have hcallee := ((hsound side).accepts start exchange hstate).2
        simp [(hover !side).2.2] at hcallee
      | connect reason =>
        have hcaller := ((hsound side).connects start reason exchange hstate).2.1
        simp [(hover side).2.1] at hcaller

namespace Testing

/-- Two nodes that dial each other because of a new neighbor. -/
def neighbors : Parties :=
  ⟨fun side => (⟨.replicate 32 (if side then 1 else 2)⟩, ⟨.replicate 32 0⟩), fun _ => .newNeighbor⟩

/-- Both dial before either opening arrives. -/
def crossing : List Crossing.Move :=
  [.start true, .start false, .deliver true, .deliver false, .callerEnd false, .callerEnd true,
    .calleeEnd true, .calleeEnd false]

/-- The dial of the higher one is refused, that of the lower one accepted. -/
theorem crossing_dials_neighbors :
    Crossing.Valid neighbors {} crossing ∧
      ∃! side, ((Crossing.after neighbors {} crossing).dial side).phase = .accepted :=
  have hvalid : Crossing.Valid neighbors {} crossing := by decide +kernel
  ⟨hvalid, (crossing_dials neighbors (by decide +kernel) crossing hvalid).2.1 (by decide +kernel)⟩

end Testing

end MeePdn.PdnStore.Engine
