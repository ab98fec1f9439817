import MeePdn.PdnStore.Engine.State

/-!
# How a session ends

`pdn-store/src/net.rs` and `pdn-store/src/net/codec.rs`: the serving half of a session, from its
first message on, as far as its result goes. The live actor frees a counterpart's slot by the
namespace an error carries, so every way out of a session is followed to the error it gives.

## Main definitions

* `AcceptError`, `ConnectError` — the errors of the two halves.
* `Script` — what a session meets on its way.
* `BobState.runRounds` — the rounds, with every early return.
* `handleSession`, `handleInProcessSession` — the two wrappers, each with its timeout.

## Main results

* `BobState.runRounds_allow_cases` — every error of the rounds names the namespace.

## Implementation notes

A message that the sync actor takes, a frame that goes out, a stream that ends are given by the
script. A script that runs out leaves the session waiting, which only the timeout ends. What an
exchange counted, and the texts of the errors, are left out.
-/

namespace MeePdn.PdnStore.Engine

/-- `AcceptError`. -/
inductive AcceptError where
  | connect
  | «open» (peer : NodeId)
  | abort (peer : NodeId) (ns : NamespaceId) (reason : AbortReason)
  | sync (peer : NodeId) (ns : Option NamespaceId)
  | close (peer : NodeId) (ns : Option NamespaceId)
deriving DecidableEq

namespace AcceptError

/-- `AcceptError::peer`. -/
def peer : AcceptError → Option NodeId
  | connect => none
  | «open» peer | sync peer _ | close peer _ | abort peer _ _ => some peer

/-- `AcceptError::namespace`. -/
def ns : AcceptError → Option NamespaceId
  | connect | «open» _ => none
  | sync _ ns | close _ ns => ns
  | abort _ ns _ => some ns

end AcceptError

/-- `ConnectError`. -/
inductive ConnectError where
  | connect
  | remoteAbort (reason : AbortReason)
  | sync
  | close
deriving DecidableEq

/-- What the reader gives next. -/
inductive Heard where
  | closed
  | broken
  | sync
  | init
  | abort
deriving DecidableEq

/-- One round of the exchange. -/
structure Round where
  /-- The sync actor takes the message. -/
  processed : Bool
  /-- It has something to answer. -/
  replies : Bool
  /-- The answer goes out. -/
  sent : Bool
  heard : Heard
deriving DecidableEq

/-- What a session meets on its way. -/
structure Script where
  /-- A refusal goes out. -/
  refusalSent : Bool := true
  /-- The session's snapshot opens. -/
  opens : Bool := true
  /-- The answer of a decision that is asked for again. -/
  again : Option Bool := none
  rounds : List Round := []
  /-- `SYNC_SESSION_TIMEOUT` passes at one of the waits. -/
  timesOut : Bool := false
deriving DecidableEq

/-- The session's peer and the namespace its first message names. -/
structure BobState where
  peer : NodeId
  ns : NamespaceId

namespace BobState

variable (bob : BobState)

/-- `fail`: the namespace is set before the decision that can fail. -/
def fail : AcceptError := .sync bob.peer (some bob.ns)

/-- `reject`. -/
def reject (sent : Bool) (reason : AbortReason) : AcceptError :=
  if sent then .abort bob.peer bob.ns reason else bob.fail

/-- The loop of `run_rounds`; none while the session waits. -/
def roundsLoop : List Round → Option (Except AcceptError NamespaceId)
  | [] => none
  | round :: rest =>
    if !round.processed then some (.error bob.fail)
    else if !round.replies then some (.ok bob.ns)
    else if !round.sent then some (.error bob.fail)
    else
      match round.heard with
      | .closed => some (.ok bob.ns)
      | .broken => some (.error bob.fail)
      | .sync => roundsLoop rest
      | .init => some (.error bob.fail)
      | .abort => some (.error bob.fail)

/-- `run_rounds`, after `accept_cb` answered `outcome`. A refusal when the decision is asked again
ends as a failed exchange: the slot is this session's by now. -/
def runRounds (script : Script) : AcceptOutcome → Option (Except AcceptError NamespaceId)
  | .reject reason => some (.error (bob.reject script.refusalSent reason))
  | .allow =>
    if !script.opens then some (.error bob.fail)
    else if script.again = some false then
      match bob.reject script.refusalSent .notFound with
      | .abort _ _ _ => some (.error (.sync bob.peer (some bob.ns)))
      | failed => some (.error failed)
    else bob.roundsLoop script.rounds

end BobState

/-- `handle_session`: over the network. -/
def handleSession (bob : BobState) (script : Script) (outcome : AcceptOutcome) :
    Except AcceptError NamespaceId :=
  match if script.timesOut then none else bob.runRounds script outcome with
  | some result => result
  | none => .error (.sync bob.peer (some bob.ns))

/-- `handle_in_process_session`: between two identities of this node. -/
def handleInProcessSession (bob : BobState) (script : Script) (outcome : AcceptOutcome) :
    Except AcceptError NamespaceId :=
  match if script.timesOut then none else bob.runRounds script outcome with
  | some result => result
  | none => .error (.sync bob.peer none)

/-- Whether a session ends by its timeout. -/
def Script.ranOut (script : Script) (bob : BobState) (outcome : AcceptOutcome) : Bool :=
  script.timesOut || (bob.runRounds script outcome).isNone

namespace BobState

variable {bob : BobState}

lemma roundsLoop_cases {rounds : List Round} {result : Except AcceptError NamespaceId}
    (h : bob.roundsLoop rounds = some result) : result = .ok bob.ns ∨ result = .error bob.fail := by
  induction rounds with
  | nil => simp [roundsLoop] at h
  | cons round rest ih => grind [roundsLoop]

/-- **An allowed session** ends in an exchange of the namespace or in an error that names it,
however it ends. -/
lemma runRounds_allow_cases {script : Script} {result : Except AcceptError NamespaceId}
    (h : bob.runRounds script .allow = some result) :
    result = .ok bob.ns ∨ result = .error bob.fail := by
  unfold runRounds at h
  simp only at h
  split_ifs at h
  · exact .inr (Option.some.inj h).symm
  · unfold reject at h
    split_ifs at h
    · exact .inr (Option.some.inj h).symm
    · exact .inr (Option.some.inj h).symm
  · exact roundsLoop_cases h

end BobState

end MeePdn.PdnStore.Engine
