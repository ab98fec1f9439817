import MeePdn.PdnStore.Filter
import MeePdn.PdnStore.Testing

/-!
# A session's exchange

`Replica::sync_initial_message` and `sync_process_message` of `pdn-store/src/sync.rs`: one side of a
session over a snapshot frozen at its start. What the side sends is read of the snapshot through
the session's egress filter; what it takes is judged by validation and the session's ingest verdict
and put into the live store.

## Main definitions

* `Session` — what one side of a session is set up with.
* `Session.initialMessage`, `Session.process` — the first message, and a message taken in and
  answered.
* `Round`, `Session.replies` — the messages that arrive, and what is answered until the session
  ends.

## Main results

* `Session.fst_process` — an answer is read of the session's view and of nothing else.
* `replies_reveal_view` — two sides with one view cannot be told apart by what they send.

## Implementation notes

A replica that is closed or not syncing takes part in no session. The counters of `SyncOutcome` and
the reports to subscribers are left out.
-/

namespace MeePdn.PdnStore

open Ranger (Range Reads Store)

/-- `ProtocolMessage`. -/
abbrev ProtocolMessage := Ranger.Message SignedEntry RecordIdentifier

/-- What one side of a session is set up with. -/
structure Session where
  ns : NamespaceId
  /-- The records as they stood when the session was set up. -/
  snapshot : Records
  /-- What this side reveals; `none` reveals the replica whole. -/
  filter : Option EntryFilter
  /-- What this side admits. -/
  ingest : Option SessionIngest
  /-- The node on the other side. -/
  peer : Bytes 32

namespace Session

variable (prims : Primitives) (blake3 : List UInt8 → Bytes 32) (session : Session)

/-- The entries this side may reveal. -/
def view : List SignedEntry := SessionStore.view session.ns session.snapshot session.filter

/-- The store a session works on: the replica with its snapshot, behind the filter. -/
def store : Store Records SignedEntry RecordIdentifier :=
  SessionStore.store blake3 (StoreInstance.store blake3 session.ns (some session.snapshot))
    session.filter

/-- `sync_initial_message`. -/
def initialMessage (live : Records) : Except String ProtocolMessage :=
  Ranger.Message.init ((session.store blake3).reads live)

/-- The validate callback of a session: every failure is a silent drop. -/
def validate (now : UInt64) (e : SignedEntry) (status : ContentStatus) : ValidateOutcome :=
  match validateEntry prims blake3 now session.ns e (.sync session.peer status) session.ingest with
  | .ok () => .accept
  | .error _ => .drop

/-- `sync_process_message`. -/
def process (now : UInt64) (status : SignedEntry → ContentStatus) (incoming : ProtocolMessage)
    (live : Records) : Except String (Option ProtocolMessage) × Records :=
  (session.store blake3).processMessage blake3 (SignedEntry.rangeEntry blake3) .default incoming
    (session.validate prims blake3 now) status live

end Session

/-- A message that arrives: the clock as it is taken in, the content status of entries sent back,
and what others wrote to the store since the last one. -/
structure Round where
  incoming : ProtocolMessage
  now : UInt64
  status : SignedEntry → ContentStatus
  meanwhile : Records → Records

/-- What is answered, until an answer is an error or there is nothing left to send. -/
def Session.replies (prims : Primitives) (blake3 : List UInt8 → Bytes 32) (session : Session) :
    List Round → Records → List (Except String (Option ProtocolMessage))
  | [], _ => []
  | round :: rest, live =>
    let result := session.process prims blake3 round.now round.status round.incoming
      (round.meanwhile live)
    match result.1 with
    | .ok (some _) => result.1 :: session.replies prims blake3 rest result.2
    | _ => [result.1]

namespace Session

variable {prims : Primitives} {blake3 : List UInt8 → Bytes 32} {session : Session}

lemma reads_store (live : Records) :
    (session.store blake3).reads live = Reads.ofView blake3 session.ns session.view :=
  SessionStore.reads_eq blake3 session.ns session.snapshot session.filter

lemma ns_of_validate {now : UInt64} {e : SignedEntry} {status : ContentStatus}
    (h : session.validate prims blake3 now e status = .accept) : e.ns = session.ns := by
  unfold validate at h
  split at h
  · next hok => exact ns_of_validateEntry hok
  · cases h

lemma put_store (blake3 : List UInt8 → Bytes 32) {e : SignedEntry} (live : Records)
    (h : e.ns = session.ns) :
    ∃ outcome, (session.store blake3).put (SignedEntry.rangeEntry blake3) live e =
      .ok (outcome, live.put SignedEntry.stamp e) :=
  StoreInstance.put_eq blake3 (some session.snapshot) live h

/-- **An answer is read of the session's view and of nothing else.** -/
lemma fst_process (now : UInt64) (status : SignedEntry → ContentStatus)
    (incoming : ProtocolMessage) (live : Records) :
    (session.process prims blake3 now status incoming live).1 =
      (Reads.ofView blake3 session.ns session.view).reply blake3 (SignedEntry.rangeEntry blake3)
        .default status incoming := by
  apply Store.fst_processMessage
  · intro s e st hv
    obtain ⟨outcome, h⟩ := put_store blake3 s (ns_of_validate hv)
    exact ⟨_, h⟩
  · exact fun s => reads_store s

end Session

lemma Ranger.Reads.mem_of_ofView {blake3 : List UInt8 → Bytes 32} {ns : NamespaceId}
    {view entries : List SignedEntry} {wanted : Range RecordIdentifier}
    (h : (Reads.ofView blake3 ns view).getRange wanted = .ok entries) :
    ∀ e ∈ entries, e ∈ view := by
  intro e he
  simp only [Reads.ofView] at h
  split_ifs at h
  cases h
  exact List.mem_of_mem_filter he

/-- **Two sides with one view cannot be told apart by what they send.** Whatever else their
snapshots hold, whatever is written to their stores, whatever they admit and whichever messages
arrive, the initial message and every answer or error are the same, and the session ends at the same
moment.

**Proof sketch.** An answer is read of the view (`Session.fst_process`), with the content status of
entries of the view (`Reads.reply_congr`). By induction on the messages: the same answer either ends
both sessions or neither. -/
theorem replies_reveal_view (prims : Primitives) (blake3 : List UInt8 → Bytes 32)
    {one other : Session} (hns : one.ns = other.ns) (hview : one.view = other.view)
    {rounds rounds' : List Round}
    (hrounds : List.Forall₂ (fun round round' => round.incoming = round'.incoming ∧
      ∀ e ∈ one.view, round.status e = round'.status e) rounds rounds')
    (live live' : Records) :
    one.initialMessage blake3 live = other.initialMessage blake3 live' ∧
      one.replies prims blake3 rounds live = other.replies prims blake3 rounds' live' := by
  constructor
  · unfold Session.initialMessage
    rw [Session.reads_store, Session.reads_store, hns, hview]
  · induction hrounds generalizing live live' with
    | nil => rfl
    | @cons round round' rest rest' hround _ ih =>
      grind [Session.fst_process, Session.replies, Reads.reply_congr, Reads.mem_of_ofView]

open Testing in
/-- Two replicas that differ in an entry the filter keeps back, one taking everything and the other
nothing, asked for everything they hold. -/
theorem replies_reveal_view_open :
    let shown := signed (replica 1) ⟨.replicate 32 2⟩ [1] (record 5 6 7)
    let hidden := signed (replica 1) ⟨.replicate 32 3⟩ [1] (record 5 6 7)
    let filter : EntryFilter := fun e => e.author = ⟨.replicate 32 2⟩
    let one : Session := ⟨replica 1, table [shown, hidden], some filter, none, .replicate 32 9⟩
    let other : Session :=
      ⟨replica 1, table [shown], some filter, some fun _ => .drop, .replicate 32 9⟩
    let round : Round :=
      ⟨⟨[.rangeItem ⟨⟨.default, .default⟩, [(hidden, .complete)], false⟩]⟩, 7,
        fun _ => .missing, id⟩
    one.view = other.view ∧ one.snapshot ≠ other.snapshot ∧
      one.initialMessage hashing (table [shown, hidden]) = other.initialMessage hashing .empty ∧
      one.replies transparent hashing [round] (table [shown, hidden]) =
        other.replies transparent hashing [round] .empty := by
  intro shown hidden filter one other round
  have hview : one.view = other.view := by decide +kernel
  have hne : one.snapshot ≠ other.snapshot := by
    intro h
    have := congrArg (fun t : Records => t.rows.length) h
    revert this
    decide +kernel
  have hrounds : List.Forall₂ (fun round round' : Round => round.incoming = round'.incoming ∧
      ∀ e ∈ one.view, round.status e = round'.status e) [round] [round] :=
    .cons ⟨rfl, fun _ _ => rfl⟩ .nil
  have hns : one.ns = other.ns := rfl
  obtain ⟨hinit, hreplies⟩ := replies_reveal_view transparent hashing hns hview hrounds
    (table [shown, hidden]) .empty
  exact ⟨hview, hne, hinit, hreplies⟩

end MeePdn.PdnStore
