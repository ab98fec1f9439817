import Mathlib.Data.Finset.Basic
import Mathlib.Data.List.Count
import MeePdn.PdnStore.Sync

/-!
# The engine's payload fetches

`pdn-store/src/engine/live/fetches.rs`: a queue per provider, at most a limit of fetches in flight
toward each, and the pauses of a provider whose fetch stalled or failed.

## Main definitions

* `Fetches` — the scheduler's state: who holds what, what is wanted, and the providers.
* `Steps` — what the live actor carries out after a call.
* `Fetches.register`, `Fetches.want`, `Fetches.unwant`, `Fetches.finished`, `Fetches.resume`,
  `Fetches.neighborGone` — the calls.
* `Scheduler` — the scheduler with the fetches in flight and the resumes that are out, and
  `Scheduler.step`, what a call does to them.

## Implementation notes

Maps are functions. A payload without holders has the empty set of them, and a provider without an
entry has an empty one: where the source finds no entry it does nothing, and there is nothing it
would do to an empty one. A set is visited in an order of its own, which is a parameter of every
call. The report of the fetches that did not land, and the capacity the collections keep, are left
out.
-/

namespace MeePdn.PdnStore

/-- The order in which a set is visited. -/
structure SetOrder (α : Type) where
  toList : Finset α → List α
  mem_toList : ∀ s a, a ∈ toList s ↔ a ∈ s
  nodup_toList : ∀ s, (toList s).Nodup

namespace Engine

/-! ## What the scheduler holds -/

/-- `UNREACHED_RETRY_FIRST`, in milliseconds. -/
def unreachedRetryFirst : ℕ := 1000

/-- `UNREACHED_RETRY_MAX`. -/
def unreachedRetryMax : ℕ := 16000

/-- `UNREACHED_RETRY_FOR`. -/
def unreachedRetryFor : ℕ := 120000

/-- `Outcome`: how a fetch ended. -/
inductive Outcome where
  | fetched
  /-- The node's blob store held it whole before the fetch asked anyone. -/
  | held
  | stalled
  | connectFailed
  /-- The provider answered that it lacks the payload, whole or in part. -/
  | lacks
  /-- The provider failed it once the connection stood. -/
  | failed
  /-- The node's own blob store failed it. -/
  | localFailure
deriving DecidableEq

/-- `Wanted`. -/
structure Wanted where
  /-- The providers it may be fetched from. -/
  eligible : Finset NodeId
  fetching : Option NodeId
deriving DecidableEq

/-- `Series`: the pauses of a provider. -/
structure Series where
  /-- Names the series to its timer. -/
  id : UInt64
  since : ℕ
  nextWait : ℕ
  /-- The pause is over, and one fetch probes the provider. -/
  probing : Bool
deriving DecidableEq

/-- `Provider`. -/
structure Provider where
  /-- Payloads in turn. -/
  queue : List Hash := []
  /-- The wanted payloads this provider is eligible for. -/
  holds : Finset Hash := ∅
  inFlight : ℕ := 0
  series : Option Series := none
deriving DecidableEq

namespace Provider

variable (entry : Provider)

/-- How many fetches may be in flight: the limit, one while the provider is probed, none while it
pauses. -/
def room (limit : ℕ) : ℕ :=
  match entry.series with
  | none => limit
  | some series => if series.probing then 1 else 0

/-- A payload at the end of the queue. -/
def enqueue (hash : Hash) (entry : Provider) : Provider :=
  { entry with queue := entry.queue ++ [hash] }

/-- A payload the provider is eligible for, at the end of the queue. -/
def take (hash : Hash) (entry : Provider) : Provider :=
  { entry with holds := insert hash entry.holds, queue := entry.queue ++ [hash] }

/-- A payload the provider is not eligible for any more. -/
def release (hash : Hash) (entry : Provider) : Provider :=
  { entry with holds := entry.holds.erase hash }

end Provider

/-- `Fetches`. -/
structure Fetches where
  limit : ℕ
  /-- Every node registered as holding a payload, wanted or not. -/
  holders : Hash → Finset NodeId
  wanted : Hash → Option Wanted
  providers : NodeId → Provider
  nextSeries : UInt64

/-- A fetch to start. -/
structure Start where
  provider : NodeId
  hash : Hash
  /-- The provider as the fetch's start finds it; the source names the other two alone. -/
  found : Provider

/-- `Steps`: what the live actor carries out after a call. -/
structure Steps where
  start : List Start := []
  /-- After the wait, `resume` with this provider and series. -/
  pause : Option (NodeId × UInt64 × ℕ) := none
  /-- Payloads that were wanted and have no provider left to fetch them. -/
  unrouted : List Hash := []

/-- A call at work: the scheduler and the steps so far. -/
structure Working extends Fetches, Steps

/-- The orders in which a call visits its sets. -/
structure Visits where
  providers : SetOrder NodeId
  hashes : SetOrder Hash

/-! ## The parts of a call -/

namespace Working

variable (work : Working)

/-- Another entry for a provider. -/
def alter (p : NodeId) (change : Provider → Provider) : Working :=
  { work with providers := Function.update work.providers p (change (work.providers p)) }

/-- Other entries for a list of providers. -/
def alterAll (ps : List NodeId) (change : Provider → Provider) : Working :=
  ps.foldl (fun work p => work.alter p change) work

/-- Something else wanted of a payload. -/
def setWanted (hash : Hash) (wanted : Option Wanted) : Working :=
  { work with wanted := Function.update work.wanted hash wanted }

/-- A fetch starts. -/
def launch (p : NodeId) (hash : Hash) (wanted : Wanted) : Working :=
  { (work.setWanted hash (some { wanted with fetching := some p })).alter p fun entry =>
      { entry with inFlight := entry.inFlight + 1 } with
    start := work.start ++ [⟨p, hash, work.providers p⟩] }

/-- The loop of `dispatch` over what is queued. -/
def dispatchLoop (p : NodeId) (room : ℕ) : List Hash → Working → Working
  | [], work => work
  | hash :: rest, work =>
    if (work.providers p).inFlight < room then
      let work := work.alter p fun entry => { entry with queue := rest }
      match work.wanted hash with
      | none => dispatchLoop p room rest work
      | some wanted =>
        if wanted.fetching.isSome ∨ p ∉ wanted.eligible then dispatchLoop p room rest work
        else dispatchLoop p room rest (work.launch p hash wanted)
    else work

/-- A probe that finds nothing to fetch ends the series. -/
def endProbe (p : NodeId) : Working :=
  if (work.providers p).inFlight = 0 ∧ (work.providers p).series.any Series.probing then
    work.alter p fun entry => { entry with series := none }
  else work

/-- `dispatch`: starts fetches toward a provider while it has room. -/
def dispatch (p : NodeId) : Working :=
  let entry := work.providers p
  (dispatchLoop p (entry.room work.limit) entry.queue work).endProbe p

/-- `dispatch` of one provider after the other. -/
def dispatchAll (ps : List NodeId) : Working := ps.foldl dispatch work

/-- `unwant`. -/
def unwant (hash : Hash) (order : SetOrder NodeId) : Working :=
  match work.wanted hash with
  | none => work
  | some wanted =>
    (work.setWanted hash none).alterAll (order.toList wanted.eligible) (Provider.release hash)

/-- `unroute_if_stranded`. -/
def unrouteIfStranded (hash : Hash) : Working :=
  match work.wanted hash with
  | none => work
  | some wanted =>
    if wanted.eligible = ∅ ∧ wanted.fetching = none then
      { work.setWanted hash none with unrouted := work.unrouted ++ [hash] }
    else work

/-- A provider is no longer eligible for a payload. -/
def exclude (hash : Hash) (p : NodeId) : Working :=
  match work.wanted hash with
  | none => work
  | some wanted => work.setWanted hash (some { wanted with eligible := wanted.eligible.erase p })

/-- A provider is no longer eligible for a list of payloads, and what it alone held is unrouted. -/
def excludeAll (p : NodeId) (hashes : List Hash) : Working :=
  hashes.foldl (fun work hash => (work.exclude hash p).unrouteIfStranded hash) work

/-- `drop_provider`: what the provider alone held is unrouted. -/
def dropProvider (p : NodeId) (order : SetOrder Hash) : Working :=
  (work.alter p fun entry => { entry with queue := [], series := none, holds := ∅ }).excludeAll p
    (order.toList (work.providers p).holds)

/-- `drop_pair`. -/
def dropPair (hash : Hash) (p : NodeId) : Working :=
  (work.exclude hash p).alter p (Provider.release hash)

/-- `requeue`: the payload goes to the end of every eligible provider's queue. -/
def requeue (hash : Hash) (order : SetOrder NodeId) : Working :=
  match work.wanted hash with
  | none => work
  | some wanted =>
    let eligible := order.toList wanted.eligible
    (work.alterAll eligible (Provider.enqueue hash)).dispatchAll eligible

/-- The pause of a series that has one due: the provider is dropped when its time is over, and
otherwise a resume is asked for. -/
def armPause (p : NodeId) (series : Series) (now : ℕ) (order : SetOrder Hash) : Working :=
  if now - series.since ≥ unreachedRetryFor then
    (work.alter p fun entry => { entry with series := some series }).dropProvider p order
  else
    let series' := { series with nextWait := min (series.nextWait * 2) unreachedRetryMax }
    { work.alter p fun entry => { entry with series := some series' } with
      pause := some (p, series.id, series.nextWait) }

/-- `pause`: starts a series of pauses, or arms the next pause after a failed probe; a failure while
a pause runs arms nothing. -/
def pauseProvider (p : NodeId) (now : ℕ) (order : SetOrder Hash) : Working :=
  match (work.providers p).series with
  | some series =>
    if series.probing then work.armPause p { series with probing := false } now order else work
  | none =>
    { work with nextSeries := work.nextSeries + 1 }.armPause p
      ⟨work.nextSeries, now, unreachedRetryFirst, false⟩ now order

end Working

/-! ## The calls -/

namespace Fetches

variable (visits : Visits) (fetches : Fetches)

/-- A call begins with no steps. -/
def begin : Working := { fetches with }

/-- `register`. -/
def register (hash : Hash) (p : NodeId) : Working :=
  let work : Working :=
    { fetches.begin with
      holders := Function.update fetches.holders hash (insert p (fetches.holders hash)) }
  match work.wanted hash with
  | none => work
  | some wanted =>
    if p ∈ wanted.eligible then work
    else
      ((work.setWanted hash (some { wanted with eligible := insert p wanted.eligible })).alter p
        (Provider.take hash)).dispatch p

/-- `want`: wants a payload, queued at every provider registered for it; `false` when none is, and
then it is not wanted here. -/
def want (hash : Hash) : Bool × Working :=
  match fetches.wanted hash with
  | some _ => (true, fetches.begin)
  | none =>
    if fetches.holders hash = ∅ then (false, fetches.begin)
    else
      let eligible := visits.providers.toList (fetches.holders hash)
      let work := fetches.begin.alterAll eligible (Provider.take hash)
      (true, (work.setWanted hash (some ⟨fetches.holders hash, none⟩)).dispatchAll eligible)

/-- `unwant`; a fetch in flight runs to its end. -/
def unwant (hash : Hash) : Working := fetches.begin.unwant hash visits.providers

/-- What is put down of a fetch that ended, before its outcome is looked at. -/
def landed (p : NodeId) (hash : Hash) : Working :=
  let work := fetches.begin.alter p fun entry => { entry with inFlight := entry.inFlight - 1 }
  match work.wanted hash with
  | none => work
  | some wanted =>
    if wanted.fetching = some p then work.setWanted hash (some { wanted with fetching := none })
    else work

/-- What the outcome of a fetch comes to, before the provider's next fetch. -/
def settled (p : NodeId) (hash : Hash) (outcome : Outcome) (neighbor : Bool) (now : ℕ) : Working :=
  let work := fetches.landed p hash
  let paused := (work.pauseProvider p now visits.hashes).requeue hash visits.providers
  let parted := (work.dropPair hash p).requeue hash visits.providers
  match outcome with
  | .fetched =>
    (work.unwant hash visits.providers).alter p fun entry => { entry with series := none }
  | .held => work.unwant hash visits.providers
  | .localFailure =>
    match work.wanted hash with
    | none => work
    | some _ =>
      { work.unwant hash visits.providers with unrouted := work.unrouted ++ [hash] }
  | .stalled => paused
  | .lacks => parted
  | .connectFailed =>
    if neighbor then paused
    else (work.dropProvider p visits.hashes).requeue hash visits.providers
  | .failed => if neighbor then paused else parted

/-- `finished`: a fetch ended; `neighbor` says whether the provider is a gossip neighbor now. -/
def finished (p : NodeId) (hash : Hash) (outcome : Outcome) (neighbor : Bool) (now : ℕ) : Working :=
  ((fetches.settled visits p hash outcome neighbor now).dispatch p).unrouteIfStranded hash

/-- `resume`: the pause of a series is over, and one fetch probes the provider. -/
def resume (p : NodeId) (id : UInt64) : Working :=
  match (fetches.providers p).series with
  | none => fetches.begin
  | some series =>
    if series.id ≠ id ∨ series.probing then fetches.begin
    else
      (fetches.begin.alter p fun entry =>
        { entry with series := some { series with probing := true } }).dispatch p

/-- `neighbor_gone`: a series toward the provider ends, with its queue. -/
def neighborGone (p : NodeId) : Working :=
  match (fetches.providers p).series with
  | none => fetches.begin
  | some _ => fetches.begin.dropProvider p visits.hashes

/-- `Fetches::new`. -/
def new (limit : ℕ) : Fetches := ⟨limit, fun _ => ∅, fun _ => none, fun _ => {}, 0⟩

end Fetches

/-! ## Calls and what they leave out -/

/-- A call of the scheduler. -/
inductive FetchCall where
  | register (hash : Hash) (p : NodeId)
  | want (hash : Hash)
  | unwant (hash : Hash)
  | finished (p : NodeId) (hash : Hash) (outcome : Outcome) (neighbor : Bool) (now : ℕ)
  | resume (p : NodeId) (id : UInt64)
  | neighborGone (p : NodeId)

/-- What a call comes to. -/
def FetchCall.run (visits : Visits) (fetches : Fetches) : FetchCall → Working
  | .register hash p => fetches.register hash p
  | .want hash => (fetches.want visits hash).2
  | .unwant hash => fetches.unwant visits hash
  | .finished p hash outcome neighbor now => fetches.finished visits p hash outcome neighbor now
  | .resume p id => fetches.resume p id
  | .neighborGone p => fetches.neighborGone visits p

/-- The scheduler with what it has asked for: the fetches that are in flight and the resumes that
are still to come. -/
structure Scheduler where
  fetches : Fetches
  flying : List (NodeId × Hash)
  resumes : List (NodeId × UInt64)

/-- What the steps of a call put in flight. -/
def Steps.flights (steps : Steps) : List (NodeId × Hash) :=
  steps.start.map fun start => (start.provider, start.hash)

/-- The resume the steps of a call ask for. -/
def Steps.armed (steps : Steps) : List (NodeId × UInt64) :=
  steps.pause.toList.map fun pause => (pause.1, pause.2.1)

namespace Scheduler

/-- A fetch ends that was started, and a resume comes that was asked for; any other call is made at
any time. -/
def Enabled (s : Scheduler) : FetchCall → Prop
  | .finished p hash _ _ _ => (p, hash) ∈ s.flying
  | .resume p id => (p, id) ∈ s.resumes
  | _ => True

instance (s : Scheduler) (call : FetchCall) : Decidable (s.Enabled call) :=
  match call with
  | .finished p hash _ _ _ => inferInstanceAs (Decidable ((p, hash) ∈ s.flying))
  | .resume p id => inferInstanceAs (Decidable ((p, id) ∈ s.resumes))
  | .register _ _ | .want _ | .unwant _ | .neighborGone _ => isTrue trivial

/-- The fetches still in flight when a call is made. -/
def flyingAt (s : Scheduler) : FetchCall → List (NodeId × Hash)
  | .finished p hash _ _ _ => s.flying.erase (p, hash)
  | _ => s.flying

/-- The resumes still to come when a call is made. -/
def resumesAt (s : Scheduler) : FetchCall → List (NodeId × UInt64)
  | .resume p id => s.resumes.erase (p, id)
  | _ => s.resumes

/-- A call and what it leaves out. -/
def step (s : Scheduler) (visits : Visits) (call : FetchCall) : Scheduler :=
  let work := call.run visits s.fetches
  ⟨work.toFetches, s.flyingAt call ++ work.toSteps.flights, s.resumesAt call ++ work.toSteps.armed⟩

/-- The scheduler as it is made. -/
def new (limit : ℕ) : Scheduler := ⟨.new limit, [], []⟩

/-- The scheduler after a list of calls. -/
def after (s : Scheduler) (calls : List (Visits × FetchCall)) : Scheduler :=
  calls.foldl (fun s call => s.step call.1 call.2) s

/-- Every call is enabled when it is made. -/
def Valid : Scheduler → List (Visits × FetchCall) → Prop
  | _, [] => True
  | s, call :: calls => s.Enabled call.2 ∧ Valid (s.step call.1 call.2) calls

instance decidableValid : (s : Scheduler) → (calls : List (Visits × FetchCall)) →
    Decidable (s.Valid calls)
  | _, [] => isTrue trivial
  | s, call :: calls =>
    have := decidableValid (s.step call.1 call.2) calls
    inferInstanceAs (Decidable (s.Enabled call.2 ∧ Valid (s.step call.1 call.2) calls))

end Scheduler

end Engine

end MeePdn.PdnStore
