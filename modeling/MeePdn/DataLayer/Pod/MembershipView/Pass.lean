import MeePdn.DataLayer.Pod.MembershipView.Alone
import MeePdn.DataLayer.Pod.MembershipView.Components

/-!
# The evaluation of the candidates

`Pass` and `Settling` of `pod/membership_view.rs`: the checks that read members' states. A chain's
sequences settle in order; at each, an event whose transition the state before it does not allow
counts for nothing at once, and the others wait for their actor's point. Events left waiting on
each other in a loop count for nothing, and what waited on them settles after. Around it the guard
over the last owner, which repeats the evaluation with some demotions set aside.

## Main definitions

* `HashOrder` — the orders in which the iterators of the hash maps may go.
* `Pass`, `Settling`, `Evaluation` — what an evaluation tracks.
* `Evaluation.turn`, `Evaluation.loop` — one turn of the loop of `evaluate`, and the loop.
* `Pass.demotionsToSetAside` — the guard over the last owner.
* `MembershipView.new` — the view over a list of entries.

## Implementation notes

A hash map is the function that looks a key up; a map from keys to collections gives the empty one
for a key it lacks, which no reader tells apart. The two the source iterates are lists, `chains`
of `Parsed` for `runs` and `awaited` here, and each iteration goes through such a list in an order
of `HashOrder`'s choosing. The two levels of `winners` are one, keyed by points.

The turns of the loop are bounded by `Evaluation.fuel`; that this is enough is a theorem about the
evaluation, `Evaluation.loop_finished`.
-/

namespace MeePdn

/-! ## Iteration order -/

/-- The order each iteration over a hash map takes: any, and another one at every turn. -/
structure HashOrder where
  chains : List PdnId → List PdnId
  awaited : ℕ → List (ℕ × Point) → List (ℕ × Point)
  chains_perm : ∀ l, (chains l).Perm l
  awaited_perm : ∀ turn l, (awaited turn l).Perm l

/-- The order of the lists themselves. -/
instance : Inhabited HashOrder :=
  ⟨⟨id, fun _ => id, fun _ => List.Perm.refl _, fun _ _ => List.Perm.refl _⟩⟩

/-! ## What an evaluation tracks -/

/-- The counted events of the highest rank at one sequence of one chain, each by its entry and its
actor. -/
structure Winner where
  kind : EventKind
  events : List (ℕ × PdnId)
deriving DecidableEq

/-- The result of one evaluation of every candidate. -/
structure Pass where
  verdicts : List Verdict
  winners : Point → Option Winner
  /-- The state after each sequence of each chain's run, once judged. -/
  states : Point → Option MemberState

/-- What `Pass::evaluate` tracks while sequences settle; candidates are named by their index. -/
structure Settling where
  /-- The candidates at each sequence of each chain. -/
  here : Point → List ℕ
  /-- Per open sequence, its candidates still waiting on their actor. -/
  pending : Point → Option ℕ
  /-- Per point, the candidates waiting for its state. -/
  waiting : Point → List ℕ
  /-- Per waiting candidate, the point it waits for. -/
  awaited : List (ℕ × Point)
  /-- Per chain, the last sequence whose state is known. -/
  settled : PdnId → ℕ
  /-- The stack `open`. -/
  toOpen : List Point
  /-- The stack `close`. -/
  toClose : List Point

/-- The state of the loop of `evaluate`. -/
structure Evaluation extends Pass, Settling where
  rounds : ℕ

/-- The rounds of loop-breaking one pass takes at most. -/
def loopRounds : ℕ := 4

/-- The passes the guard over the last owner takes at most. -/
def guardPasses : ℕ := 4

namespace Pass

/-- `Pass::state`. -/
def state (pass : Pass) (member : PdnId) (seq : ℕ) : MemberState :=
  if seq = 0 then default else (pass.states (member, seq)).getD default

/-- `actor_state`: `none` while the point the event names is unsettled. -/
def actorState (pass : Pass) (event : Event) : Option MemberState :=
  match event.kind with
  | .created | .left => some default
  | _ => if event.actorSeq = 0 then some default else pass.states event.actorPoint

/-- Whether the actor's state at its named point is the one the kind needs. -/
def needed (kind : EventKind) (actor : MemberState) : Bool :=
  match kind with
  | .joined => actor.member
  | .promoted | .removed | .demoted => actor.owner
  | .created | .left => true

/-- `judge`: the checks on the actor's state at its named point. -/
def judge (setAside : Finset ℕ) (event : Event) (actor : MemberState) : Verdict :=
  if ¬ needed event.kind actor then .countedForNothing .actorLacksState
  else if event.entry ∈ setAside then .countedForNothing .lastOwnerKept
  else .counted

/-- The winner at a sequence once one more event counts there. -/
def Winner.record (event : Event) : Option Winner → Winner
  | some winner =>
    if rank winner.kind > rank event.kind then winner
    else if winner.kind = event.kind then
      { winner with events := winner.events ++ [(event.entry, event.actor)] }
    else ⟨event.kind, [(event.entry, event.actor)]⟩
  | none => ⟨event.kind, [(event.entry, event.actor)]⟩

end Pass

namespace Evaluation

variable (parsed : Parsed) (candidates : List Event) (setAside : Finset ℕ) (order : HashOrder)

/-! ## Deciding an event -/

/-- `record_winner`. -/
def recordWinner (e : Evaluation) (event : Event) : Evaluation :=
  { e with
    winners := Function.update e.winners event.point
      (some (Pass.Winner.record event (e.winners event.point))) }

/-- `decide`. -/
def decideEvent (e : Evaluation) (event : Event) (verdict : Verdict) : Evaluation :=
  let e := if verdict = .counted then e.recordWinner event else e
  { e with verdicts := e.verdicts.set event.entry verdict }

/-- `one_less_pending`. -/
def oneLessPending (e : Evaluation) (point : Point) : Evaluation :=
  match e.pending point with
  | none => e
  | some pending =>
    if pending - 1 = 0 then
      { e with
        pending := Function.update e.pending point none
        toClose := point :: e.toClose }
    else { e with pending := Function.update e.pending point (some (pending - 1)) }

/-- An event that waited is decided, so its sequence has one less to wait for. -/
def resolve (e : Evaluation) (event : Event) (verdict : Verdict) : Evaluation :=
  (e.decideEvent event verdict).oneLessPending event.point

/-! ## Opening and closing a sequence -/

/-- One turn of the loop of `open_sequence`, with the number of candidates left waiting. -/
def openEvent (before : MemberState) (acc : Evaluation × ℕ) (index : ℕ) : Evaluation × ℕ :=
  match candidates[index]? with
  | none => acc
  | some event =>
    if ¬ allows before event.kind then
      (acc.1.decideEvent event (.countedForNothing .transitionNotAllowed), acc.2)
    else
      match acc.1.actorState event with
      | some actor => (acc.1.decideEvent event (Pass.judge setAside event actor), acc.2)
      | none =>
        ({ acc.1 with
            waiting := Function.update acc.1.waiting event.actorPoint
              (acc.1.waiting event.actorPoint ++ [index])
            awaited := (index, event.actorPoint) :: acc.1.awaited.filter fun a => a.1 ≠ index },
          acc.2 + 1)

/-- `open_sequence`. -/
def openSequence (e : Evaluation) (member : PdnId) (seq : ℕ) : Evaluation :=
  let before := e.state member (seq - 1)
  let opened := (e.here (member, seq)).foldl (openEvent candidates setAside before) (e, 0)
  if opened.2 = 0 then { opened.1 with toClose := (member, seq) :: opened.1.toClose }
  else
    { opened.1 with
      pending := Function.update opened.1.pending (member, seq) (some opened.2) }

/-- One turn of the loop of `close_sequence`. -/
def closeEvent (after : MemberState) (e : Evaluation) (index : ℕ) : Evaluation :=
  let e := { e with awaited := e.awaited.filter fun a => a.1 ≠ index }
  match candidates[index]? with
  | none => e
  | some event => e.resolve event (Pass.judge setAside event after)

/-- `close_sequence`. -/
def closeSequence (e : Evaluation) (member : PdnId) (seq : ℕ) : Evaluation :=
  let before := e.state member (seq - 1)
  let after := ((e.winners (member, seq)).map fun winner => apply winner.kind).getD before
  let queue := e.waiting (member, seq)
  let e :=
    { e with
      states := Function.update e.states (member, seq) (some after)
      settled := Function.update e.settled member seq
      waiting := Function.update e.waiting (member, seq) [] }
  let e := queue.foldl (closeEvent candidates setAside after) e
  if seq < parsed.run member then { e with toOpen := (member, seq + 1) :: e.toOpen } else e

/-! ## Breaking loops -/

/-- The nodes of the events still waiting at a point. -/
def waitsOn (waiting : List ℕ) (point : Point) : List ℕ :=
  (waiting.filter fun index => candidates[index]?.map Event.point = some point).map waiting.idxOf

/-- The graph of the waits: every waiting event waits on the first unsettled sequence of its
actor's chain, and so on the events still waiting there. -/
def adjacency (e : Evaluation) (waiting : List ℕ) : List (List ℕ) :=
  waiting.map fun index =>
    match e.awaited.lookup index with
    | none => []
    | some (actor, _) => waitsOn candidates waiting (actor, e.settled actor + 1)

/-- Whether a component is a loop: it has several nodes, or its node is its own successor. -/
def looped (adjacency : List (List ℕ)) : List ℕ → Bool
  | [single] => single ∈ adjacency.getD single []
  | _ => true

/-- One turn of the inner loop of `break_loops`, by the event's index. -/
def breakIndex (e : Evaluation) (index : ℕ) : Evaluation :=
  match candidates[index]? with
  | none => e
  | some event =>
    let e :=
      match e.awaited.lookup index with
      | none => e
      | some point =>
        { e with
          awaited := e.awaited.filter fun a => a.1 ≠ index
          waiting := Function.update e.waiting point
            ((e.waiting point).filter fun other => other ≠ index) }
    e.resolve event (.countedForNothing .cyclic)

/-- One turn of the inner loop of `break_loops`. -/
def breakNode (waiting : List ℕ) (e : Evaluation) (node : ℕ) : Evaluation :=
  match waiting[node]? with
  | some index => e.breakIndex candidates index
  | none => e

/-- `break_loops`: the waiting events on a loop of waits count for nothing. -/
def breakLoops (turn : ℕ) (e : Evaluation) : Evaluation :=
  let waiting := (order.awaited turn e.awaited).map Prod.fst
  let graph := e.adjacency candidates waiting
  ((components graph).filter (looped graph)).foldl
    (fun e component => component.foldl (breakNode candidates waiting) e) e

/-- One turn of the loop of `give_up`. -/
def giveUpEvent (e : Evaluation) (index : ℕ) : Evaluation :=
  match candidates[index]? with
  | none => e
  | some event => e.resolve event (.countedForNothing .cyclic)

/-- `give_up`: every event still waiting counts for nothing at once. -/
def giveUp (turn : ℕ) (e : Evaluation) : Evaluation :=
  ((order.awaited turn e.awaited).map Prod.fst).foldl (giveUpEvent candidates)
    { e with waiting := fun _ => [], awaited := [] }

/-! ## The loop -/

/-- One turn of the loop of `evaluate`; `none` once nothing is left to do. -/
def turn (number : ℕ) (e : Evaluation) : Option Evaluation :=
  match e.toClose with
  | (member, seq) :: toClose =>
    some ({ e with toClose := toClose }.closeSequence parsed candidates setAside member seq)
  | [] =>
    match e.toOpen with
    | (member, seq) :: toOpen =>
      some ({ e with toOpen := toOpen }.openSequence candidates setAside member seq)
    | [] =>
      if e.awaited.isEmpty then none
      else if e.rounds < loopRounds then
        some ({ e with rounds := e.rounds + 1 }.breakLoops candidates order number)
      else some (e.giveUp candidates order number)

/-- The loop of `evaluate`, for a number of turns. -/
def loop : ℕ → Evaluation → Evaluation
  | 0, e => e
  | fuel + 1, e =>
    match e.turn parsed candidates setAside order fuel with
    | none => e
    | some e => loop fuel e

/-- The state before the first turn: every chain's first sequence is to be opened. -/
def start (verdicts : List Verdict) : Evaluation :=
  { verdicts := verdicts
    winners := fun _ => none
    states := fun _ => none
    here := fun point =>
      (List.range candidates.length).filter fun index =>
        candidates[index]?.map Event.point = some point
    pending := fun _ => none
    waiting := fun _ => []
    awaited := []
    settled := fun _ => 0
    toOpen := (((order.chains parsed.chains).filter fun member => 1 ≤ parsed.run member).map
      fun member => (member, 1)).reverse
    toClose := []
    rounds := 0 }

/-- A number of turns no evaluation takes. -/
def fuel : ℕ := 4 * parsed.events.length + 1

end Evaluation

namespace Pass

variable (parsed : Parsed) (alone : Alone)

/-- `Pass::run`: one evaluation, with `setAside` the demotions the guard ignores. -/
def run (order : HashOrder) (setAside : Finset ℕ) : Pass :=
  (Evaluation.loop parsed alone.candidates setAside order (Evaluation.fuel parsed)
    (Evaluation.start parsed alone.candidates order alone.verdicts)).toPass

/-! ## The guard over the last owner -/

/-- `identities`: every identity the store names, in ascending order. -/
def identities : List PdnId :=
  (parsed.chains ++ parsed.statements.map Statement.member).dedup.insertionSort (· ≤ ·)

/-- The demotion a winner is: its lowest actor and its entries. -/
def demotionOf (winner : Winner) : Option (PdnId × List ℕ) :=
  match winner.kind with
  | .demoted =>
    (winner.events.map Prod.snd).min?.map fun actor => (actor, winner.events.map Prod.fst)
  | _ => none

/-- `ending_demotion`: the demotion that last took `member`'s ownership, if nothing since gave it
back or took the member out. -/
def endingDemotion (pass : Pass) (member : PdnId) : Option (PdnId × List ℕ) :=
  (((List.range' 1 (parsed.run member)).filterMap
    fun seq => pass.winners (member, seq)).getLast?).bind demotionOf

/-- One turn of the last loop of `demotions_to_set_aside`, over what remains and what is set
aside. -/
def spare (acc : Finset PdnId × Finset ℕ) (ended : PdnId × PdnId × List ℕ) :
    Finset PdnId × Finset ℕ :=
  if acc.1.card = 1 ∧ ended.2.1 ∈ acc.1 then (acc.1, acc.2 ∪ ended.2.2.toFinset)
  else (acc.1.erase ended.2.1, acc.2)

/-- The order of ended ownerships: by the demoting actor, then by the subject. -/
def endedLe (a b : PdnId × PdnId × List ℕ) : Prop := a.1 < b.1 ∨ a.1 = b.1 ∧ a.2.1 ≤ b.2.1

instance : DecidableRel endedLe := fun a b =>
  inferInstanceAs (Decidable (a.1 < b.1 ∨ a.1 = b.1 ∧ a.2.1 ≤ b.2.1))

/-- The final state of every identity. -/
def finals (pass : Pass) : List (PdnId × MemberState) :=
  (identities parsed).map fun id => (id, pass.state id (parsed.run id))

/-- The demotions that ended the role of a former owner still a member, in the order the guard
takes them. -/
def ended (pass : Pass) : List (PdnId × PdnId × List ℕ) :=
  (((pass.finals parsed).filter fun f => f.2.member).filterMap fun f =>
    (pass.endingDemotion parsed f.1).map fun d => (d.1, f.1, d.2)).insertionSort endedLe

/-- `demotions_to_set_aside`: with no owner left, the demotions that would demote the last former
owner. -/
def demotionsToSetAside (pass : Pass) : Finset ℕ :=
  if (pass.finals parsed).any fun f => f.2.owner then ∅
  else
    ((pass.ended parsed).foldl spare (((pass.ended parsed).map fun d => d.2.1).toFinset, ∅)).2

/-- `into_view`. -/
def intoView (pass : Pass) : MembershipView where
  members := (identities parsed).map fun id =>
    (id,
      { state := pass.state id (parsed.run id)
        identityKey := alone.keys id
        devices := alone.devices id
        statementVersion := alone.statementVersions id
        chain := (List.range' 1 (parsed.run id)).map fun seq => (seq, pass.state id seq) })
  verdicts := pass.verdicts

/-- The loop of `MembershipView::new`, with `left` more passes to come at most. -/
def guardLoop (orders : ℕ → HashOrder) : ℕ → Finset ℕ → MembershipView
  | 0, setAside => (run parsed alone (orders 0) setAside).intoView parsed alone
  | left + 1, setAside =>
    let pass := run parsed alone (orders (left + 1)) setAside
    let more := pass.demotionsToSetAside parsed
    if more ⊆ setAside then pass.intoView parsed alone
    else guardLoop orders left (setAside ∪ more)

end Pass

/-- `MembershipView::new`: the view over the `entries` one device holds of `pod`'s membership
store. -/
def MembershipView.new (prims : Primitives) (orders : ℕ → HashOrder) (pod : PodId)
    (store : NamespaceId) (entries : List HeldEntry) : MembershipView :=
  let parsed := Parsed.of entries
  let alone := Alone.of prims pod store entries parsed
  Pass.guardLoop parsed alone orders (guardPasses - 1) ∅

end MeePdn
