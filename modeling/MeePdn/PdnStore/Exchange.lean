import MeePdn.PdnStore.Fs.Tables
import MeePdn.PdnStore.Reconcile
import MeePdn.PdnStore.Session

/-!
# A session from both ends

Two replicas reconcile: the side that dials sends its initial message, and the two sides answer each
other until one of them has nothing left to send (`net/codec.rs`, `run_alice` and the rounds of
`run_bob`). Each reads its own view of its snapshot and puts what it takes into its own live store.

## Main definitions

* `Records.merge` — entries put into a table.
* `Session.accepts` — what the session's ingest verdict takes.
* `exchange`, `reconcile` — the rounds of a session, and a session from its initial message on.
* `Session.leaves` — what the messages of a session leave in the live store, whoever sends them.

## Main results

* `Session.snd_process` — what a message leaves in the live store.
* `exchange_of_talk` — the live stores after the rounds of a session.
* `reconcile_merges` — a session ends, sends no entry twice, and leaves each side its own entries
  merged with those the other side reveals and it accepts.
* `session_only_adds` — whatever is sent, nothing is lost and only what is valid is added.
-/

namespace MeePdn.PdnStore

open Ranger (Reads Store Told Covers Fresh Tells Shows talk byTurns)

/-- Entries put into a table: at each identifier the greatest is kept, the table's own on a tie. -/
def Records.merge (records : Records) (entries : List SignedEntry) : Records :=
  entries.foldl (Keyed.Table.put SignedEntry.stamp) records

@[simp] lemma Records.merge_append (records : Records) (l l' : List SignedEntry) :
    records.merge (l ++ l') = (records.merge l).merge l' :=
  List.foldl_append

/-- What the session's ingest verdict takes. -/
def Session.accepts (session : Session) (e : SignedEntry) : Bool :=
  match session.ingest with
  | none => true
  | some ingest => ingest e = .accept

/-- How the rounds of a session went: the messages sent, and what the two sides hold. -/
structure Exchanged where
  messages : List ProtocolMessage
  here : Records
  there : Records

section Exchange

variable (prims : Primitives) (blake3 : List UInt8 → Bytes 32)
  (now : ℕ → UInt64) (status : ℕ → SignedEntry → ContentStatus)

/-- The rounds of a session once a message is on its way here: each side in turn takes in what
arrives and answers, until there is nothing left to send or an error ends it; `none` when this takes
more rounds than allowed for. -/
def exchange : ℕ → ℕ → Session → Session → Records → Records → ProtocolMessage →
    Option (Except String Exchanged)
  | 0, _, _, _, _, _, _ => none
  | fuel + 1, round, here, there, live, far, incoming =>
    match here.process prims blake3 (now round) (status round) incoming live with
    | (.error err, _) => some (.error err)
    | (.ok none, live) => some (.ok ⟨[], live, far⟩)
    | (.ok (some answer), live) =>
      (exchange fuel (round + 1) there here far live answer).map fun result =>
        result.map fun x => ⟨answer :: x.messages, x.there, x.here⟩

/-- A session from its initial message on, with no other writes: `alice` dials and `bob` accepts. -/
def reconcile (fuel : ℕ) (alice bob : Session) : Option (Except String Exchanged) :=
  match alice.initialMessage blake3 alice.snapshot with
  | .error err => some (.error err)
  | .ok first =>
    (exchange prims blake3 now status fuel 0 bob alice bob.snapshot alice.snapshot first).map
      fun result => result.map fun x => ⟨first :: x.messages, x.there, x.here⟩

/-- An entry a session's side finds valid whenever it arrives. -/
def Session.Valid (session : Session) (e : SignedEntry) : Prop :=
  ∀ round status, validateEntry prims blake3 (now round) session.ns e
    (.sync session.peer status) none = .ok ()

end Exchange

/-! ## What a message leaves in the live store -/

namespace Session

variable (prims : Primitives) (blake3 : List UInt8 → Bytes 32) (session : Session) (now : UInt64)

/-- The entries of incoming values that are accepted. -/
def accepted (values : List (SignedEntry × ContentStatus)) : List SignedEntry :=
  (values.filter fun value => session.validate prims blake3 now value.1 value.2 = .accept).map
    Prod.fst

/-- Values are put as far as they are accepted. -/
lemma snd_storeValues (values : List (SignedEntry × ContentStatus)) (live : Records) :
    ((session.store blake3).storeValues (SignedEntry.rangeEntry blake3)
        (session.validate prims blake3 now) values live).2 =
      live.merge (session.accepted prims blake3 now values) := by
  induction values generalizing live with
  | nil => rfl
  | cons value rest ih =>
    obtain ⟨e, st⟩ := value
    unfold Store.storeValues accepted
    cases hv : session.validate prims blake3 now e st with
    | drop =>
      rw [List.filter_cons_of_neg (by simp [hv])]
      exact ih live
    | accept =>
      obtain ⟨outcome, hput⟩ := put_store blake3 live (ns_of_validate hv)
      rw [List.filter_cons_of_pos (by simp [hv])]
      simp only [hput]
      exact ih _

variable {prims blake3 session now}

/-- **What a message that is answered leaves in the live store** are its accepted entries, put. -/
lemma snd_process {status : SignedEntry → ContentStatus} {incoming : ProtocolMessage}
    {live : Records} {answer : Option ProtocolMessage}
    (h : (session.process prims blake3 now status incoming live).1 = .ok answer) :
    (session.process prims blake3 now status incoming live).2 =
      live.merge (session.accepted prims blake3 now incoming.values) := by
  rw [process, Store.snd_processMessage h, Ranger.Message.values_eq]
  clear h
  simp only [snd_storeValues]
  induction incoming.items generalizing live with
  | nil => rfl
  | cons item rest ih =>
    rw [List.foldl_cons, ih, List.flatMap_cons, accepted, accepted, accepted, List.filter_append,
      List.map_append, Records.merge_append]

lemma accepted_eq {values : List (SignedEntry × ContentStatus)}
    (h : ∀ value ∈ values, validateEntry prims blake3 now session.ns value.1
      (.sync session.peer value.2) none = .ok ()) :
    session.accepted prims blake3 now values = (values.map Prod.fst).filter session.accepts := by
  have hiff : ∀ value ∈ values, session.validate prims blake3 now value.1 value.2 = .accept ↔
      session.accepts value.1 = true := by grind [validate, accepts, validateEntry_sync]
  rw [accepted, List.filter_map]
  congr 1
  apply List.filter_congr
  intro value hvalue
  simp [hiff value hvalue]

end Session

/-! ## The rounds of a session -/

section Rounds

variable {prims : Primitives} {blake3 : List UInt8 → Bytes 32}
  {now : ℕ → UInt64} {status : ℕ → SignedEntry → ContentStatus}

/-- A message of valid entries is answered as the view answers it, and leaves what is accepted. -/
lemma Session.process_eq {session : Session} {round : ℕ} {incoming : ProtocolMessage}
    (live : Records) {answer : Option ProtocolMessage}
    (hreply : (Reads.ofView blake3 session.ns session.view).reply blake3
      (SignedEntry.rangeEntry blake3) .default (status round) incoming = .ok answer)
    (hvalid : ∀ e ∈ incoming.entries, session.Valid prims blake3 now e) :
    session.process prims blake3 (now round) (status round) incoming live =
      (.ok answer, live.merge (incoming.entries.filter session.accepts)) := by
  have hfst : (session.process prims blake3 (now round) (status round) incoming live).1 =
      .ok answer := by
    rw [fst_process, hreply]
  have hentries : incoming.values.map Prod.fst = incoming.entries :=
    List.map_flatMap
  have hsnd := snd_process hfst
  rw [accepted_eq, hentries] at hsnd
  · exact Prod.ext hfst hsnd
  · intro value hvalue
    exact hvalid value.1 (hentries ▸ List.mem_map_of_mem hvalue) round value.2

/-- **The live stores after the rounds of a session** are what they were, with what arrived and was
accepted put.

**Proof sketch.** Induction on the rounds allowed for: a message is answered as the view answers it,
and the rest of the session is that of the answer, with the two sides in each other's place. -/
lemma exchange_of_talk {fuel round : ℕ} {here there : Session} {live far : Records}
    {incoming : ProtocolMessage} {messages : List ProtocolMessage}
    (htalk : talk blake3 (SignedEntry.rangeEntry blake3) (Reads.ofView blake3 there.ns there.view)
      (Reads.ofView blake3 here.ns here.view) status fuel round incoming = some messages)
    (hincoming : ∀ e ∈ incoming.entries, here.Valid prims blake3 now e)
    (hback : ∀ e ∈ (byTurns messages).1, there.Valid prims blake3 now e)
    (hfurther : ∀ e ∈ (byTurns messages).2, here.Valid prims blake3 now e) :
    exchange prims blake3 now status fuel round here there live far incoming =
      some (.ok ⟨messages,
        live.merge ((incoming.entries ++ (byTurns messages).2).filter here.accepts),
        far.merge ((byTurns messages).1.filter there.accepts)⟩) := by
  induction fuel generalizing round here there live far incoming messages with
  | zero => cases htalk
  | succ fuel ih =>
    unfold talk at htalk
    cases hreply : (Reads.ofView blake3 here.ns here.view).reply blake3
        (SignedEntry.rangeEntry blake3) .default (status round) incoming with
    | error err =>
      rw [hreply] at htalk
      cases htalk
    | ok answer =>
      have hprocess := Session.process_eq live hreply hincoming
      rw [hreply] at htalk
      unfold exchange
      rw [hprocess]
      cases answer with
      | none =>
        cases htalk
        simp [byTurns, Records.merge]
      | some answer =>
        obtain ⟨rest, hrest, rfl⟩ := Option.map_eq_some_iff.mp htalk
        simp only [byTurns, List.mem_append] at hback hfurther
        have hexchange := @ih (round + 1) there here far
          (live.merge (incoming.entries.filter here.accepts)) answer rest hrest
          (fun e he => hback e (.inl he)) hfurther (fun e he => hback e (.inr he))
        simp only [hexchange, byTurns, List.filter_append, Records.merge_append]
        rfl

end Rounds

/-! ## What a session brings across -/

lemma Session.sorted_view (session : Session) :
    session.view.Pairwise fun a b => a.id < b.id :=
  (session.snapshot.sorted.filter _).filter _

lemma Session.mem_view {session : Session} {e : SignedEntry} (h : e ∈ session.view) :
    e ∈ session.snapshot.rows ∧ e.ns = session.ns := by
  have hns := List.mem_of_mem_filter h
  simpa [StoreInstance.ofNamespace] using hns

lemma Session.shows_view (blake3 : List UInt8 → Bytes 32) (session : Session) :
    Shows blake3 (SignedEntry.rangeEntry blake3) (fun id => id.ns = session.ns)
      (Reads.ofView blake3 session.ns session.view) session.view where
  sorted := session.sorted_view
  own_key _ he := (mem_view he).2
  getRange _ hr := if_pos hr
  getFingerprint _ hr := if_pos hr

/-- **Sending what the other side holds nothing as new as is sending everything.** -/
lemma Records.merge_of_covers {blake3 : List UInt8 → Bytes 32} {here there : Session}
    {sent : List SignedEntry}
    (h : Covers (SignedEntry.rangeEntry blake3) there.view here.view (fun _ => True) sent) :
    here.snapshot.merge (sent.filter here.accepts) =
      here.snapshot.merge (there.view.filter here.accepts) := by
  have hview : (there.view.map SignedEntry.id).Nodup :=
    (List.pairwise_map.mpr there.sorted_view).imp fun hlt => hlt.ne
  apply Keyed.Table.foldl_put_of_covered
  · exact hview.sublist (List.filter_sublist.map _)
  · exact h.nodup.sublist (List.filter_sublist.map _)
  · grind [h.mem]
  · intro e he hnot
    obtain ⟨hev, hacc⟩ := List.mem_filter.mp he
    have hstale : ¬ Fresh (SignedEntry.rangeEntry blake3) here.view e := by
      intro hfresh
      exact hnot (List.mem_filter.mpr ⟨h.all e hev hfresh trivial, hacc⟩)
    unfold Fresh at hstale
    push Not at hstale
    obtain ⟨e', he', hkey, hle⟩ := hstale
    exact ⟨e', Keyed.Table.get_eq_some.mpr ⟨(Session.mem_view he').1, hkey⟩, hle⟩

/-- **A session transfers exactly what both policies allow, and ends.** Between two replicas of one
namespace with no other writes, where the entries either side reveals are valid for the other and
fingerprints tell them apart, the messages come to an end within a number of rounds that the number
of entries revealed bounds; neither side sends an entry twice; and afterwards each side holds its
own entries merged with those the other side reveals and it accepts.

**Proof sketch.** The messages are those of two sides that each read their view, and settle the
initial fingerprint of the whole range (`talk_told`). What a side is sent is all it holds nothing as
new as, so that putting it leaves what putting everything would (`Records.merge_of_covers`). -/
theorem reconcile_merges (prims : Primitives) (blake3 : List UInt8 → Bytes 32)
    (now : ℕ → UInt64) (status : ℕ → SignedEntry → ContentStatus) {alice bob : Session}
    (hns : alice.ns = bob.ns)
    (halice : ∀ e ∈ alice.view, bob.Valid prims blake3 now e)
    (hbob : ∀ e ∈ bob.view, alice.Valid prims blake3 now e)
    (htells : Tells blake3 (SignedEntry.rangeEntry blake3) alice.view bob.view)
    {fuel : ℕ} (hfuel : alice.view.length + bob.view.length + 2 < fuel) :
    ∃ messages, reconcile prims blake3 now status fuel alice bob =
        some (.ok ⟨messages, alice.snapshot.merge (bob.view.filter alice.accepts),
          bob.snapshot.merge (alice.view.filter bob.accepts)⟩) ∧
      (byTurns messages).1.Nodup ∧ (byTurns messages).2.Nodup := by
  have hshows := alice.shows_view blake3
  have hshows' : Shows blake3 (SignedEntry.rangeEntry blake3) (fun id => id.ns = alice.ns)
      (Reads.ofView blake3 bob.ns bob.view) bob.view := by
    rw [hns]
    exact bob.shows_view blake3
  obtain ⟨first, messages, hinit, hempty, htalk, hback, hfurther⟩ :=
    Ranger.talk_init status hshows hshows' htells rfl 0 hfuel
  have hexchange := @exchange_of_talk prims blake3 now status fuel 0 bob alice bob.snapshot
    alice.snapshot first messages htalk (by simp [hempty]) (fun e he => hbob e (hback.mem e he).1)
    (fun e he => halice e (hfurther.mem e he).1)
  rw [hempty, List.nil_append, Records.merge_of_covers hback, Records.merge_of_covers hfurther]
    at hexchange
  refine ⟨first :: messages, ?_, ?_, hback.nodup.of_map⟩
  · have hfirst : alice.initialMessage blake3 alice.snapshot = .ok first := by
      unfold Session.initialMessage
      rw [Session.reads_store, hinit]
    unfold reconcile
    rw [hfirst]
    simp only [hexchange]
    rfl
  · simp only [byTurns, hempty, List.nil_append]
    exact hfurther.nodup.of_map

open Testing in
/-- Two replicas that share a key: the newer entry there and the one the other lacks come across,
the one the filter keeps back does not. -/
theorem reconcile_merges_two :
    let mine := signed (replica 1) ⟨.replicate 32 2⟩ [1] (record 5 6 7)
    let older := signed (replica 1) ⟨.replicate 32 2⟩ [2] (record 5 6 7)
    let newer := signed (replica 1) ⟨.replicate 32 2⟩ [2] (record 5 7 8)
    let hidden := signed (replica 1) ⟨.replicate 32 3⟩ [1] (record 5 6 7)
    let alice : Session := ⟨replica 1, table [mine, older], none, none, .replicate 32 8⟩
    let bob : Session := ⟨replica 1, table [newer, hidden],
      some fun e => e.author = ⟨.replicate 32 2⟩, some fun _ => .accept, .replicate 32 9⟩
    ∃ messages, reconcile transparent hashing (fun _ => 9) (fun _ _ => .complete) 6 alice bob =
        some (.ok ⟨messages, (table [mine, older]).merge [newer],
          (table [newer, hidden]).merge [mine, older]⟩) ∧
      (byTurns messages).1.Nodup ∧ (byTurns messages).2.Nodup := by
  intro mine older newer hidden alice bob
  have hview : alice.view = [mine, older] := by decide +kernel
  have hview' : bob.view = [newer] := by decide +kernel
  have hok : ∀ peer ∈ [Bytes.replicate 32 8, .replicate 32 9], ∀ e ∈ [mine, older, newer],
      ∀ status, validateEntry transparent hashing 9 (replica 1) e (.sync peer status) none =
        .ok () := by
    intro peer hpeer e he status
    cases status <;> (revert e peer; decide +kernel)
  have htells : Tells hashing (SignedEntry.rangeEntry hashing) alice.view bob.view := by
    apply Ranger.Tells.of_sublists
    rw [hview, hview']
    decide +kernel
  clear_value mine older newer hidden
  have hvalid : ∀ e ∈ alice.view, bob.Valid transparent hashing (fun _ => 9) e := by
    intro e he _ status
    rw [hview] at he
    exact hok (.replicate 32 9) (by simp) e (by simp at he ⊢; tauto) status
  have hvalid' : ∀ e ∈ bob.view, alice.Valid transparent hashing (fun _ => 9) e := by
    intro e he _ status
    rw [hview'] at he
    exact hok (.replicate 32 8) (by simp) e (by simp at he ⊢; tauto) status
  have haccepts : bob.view.filter alice.accepts = [newer] := by
    rw [hview']
    rfl
  have haccepts' : alice.view.filter bob.accepts = [mine, older] := by
    rw [hview]
    rfl
  have hfuel : alice.view.length + bob.view.length + 2 < 6 := by
    rw [hview, hview']
    exact Nat.lt_succ_self 5
  have hmerges := reconcile_merges transparent hashing (fun _ => 9) (fun _ _ => .complete)
    (show alice.ns = bob.ns from rfl) hvalid hvalid' htells hfuel
  rw [haccepts, haccepts'] at hmerges
  exact hmerges

/-! ## A session with any other side -/

open Fs (Holds)

lemma Records.put_adds (live : Records) (e a : SignedEntry) :
    (Holds live e → Holds (live.put SignedEntry.stamp a) e) ∧
      (e ∈ (live.put SignedEntry.stamp a).rows → e ∈ live.rows ∨ e = a) := by
  have hget := Keyed.Table.get_put SignedEntry.stamp live a e.id
  constructor
  · rintro ⟨old, hold, hle⟩
    rw [hold] at hget
    grind [Holds, Keyed.newer]
  · intro he
    rw [Keyed.Table.get_eq_some.mpr ⟨he, rfl⟩] at hget
    cases hold : live.get e.id with
    | none => grind [Keyed.newer]
    | some old => grind [Keyed.newer, Keyed.Table.get_eq_some]

namespace Session

variable (prims : Primitives) (blake3 : List UInt8 → Bytes 32) (session : Session)

/-- The live store after the messages of a session, up to the one that ends it. -/
def leaves : List Round → Records → Records
  | [], live => live
  | round :: rest, live =>
    let result := session.process prims blake3 round.now round.status round.incoming
      (round.meanwhile live)
    match result.1 with
    | .ok (some _) => leaves rest result.2
    | _ => result.2

lemma process_adds (now : UInt64) (status : SignedEntry → ContentStatus)
    (incoming : ProtocolMessage) (live : Records) (e : SignedEntry) :
    (Holds live e → Holds (session.process prims blake3 now status incoming live).2 e) ∧
    (e ∈ (session.process prims blake3 now status incoming live).2.rows → e ∈ live.rows ∨
      ∃ st, (e, st) ∈ incoming.values ∧ session.validate prims blake3 now e st = .accept) := by
  refine Store.processMessage_keeps (P := fun t : Records => (Holds live e → Holds t e) ∧
    (e ∈ t.rows → e ∈ live.rows ∨ ∃ st, (e, st) ∈ incoming.values ∧
      session.validate prims blake3 now e st = .accept)) ?_ ⟨id, .inl⟩
  intro t a st outcome t' hmem hv hok hP
  obtain ⟨outcome', hput⟩ := put_store blake3 t (ns_of_validate hv)
  cases hput.symm.trans hok
  grind [Records.put_adds]

end Session

/-- **Whatever the other side sends, nothing is lost and only what is valid is added.** However many
messages arrive in whatever order, answered or not, an entry held stays or a newer one takes its
place, unless others take it away; and an entry that is new was in a message and passed validation
and the session's verdict, unless others put it. -/
theorem session_only_adds (prims : Primitives) (blake3 : List UInt8 → Bytes 32) (session : Session)
    (rounds : List Round) (live : Records) (e : SignedEntry) :
    ((∀ round ∈ rounds, ∀ t, Holds t e → Holds (round.meanwhile t) e) → Holds live e →
      Holds (session.leaves prims blake3 rounds live) e) ∧
    (e ∈ (session.leaves prims blake3 rounds live).rows → e ∈ live.rows ∨ ∃ round ∈ rounds,
      (∃ t : Records, e ∉ t.rows ∧ e ∈ (round.meanwhile t).rows) ∨
        ∃ st, (e, st) ∈ round.incoming.values ∧
          session.validate prims blake3 round.now e st = .accept) := by
  induction rounds generalizing live with
  | nil => exact ⟨fun _ => id, .inl⟩
  | cons round rest ih =>
    obtain ⟨hkeeps, hadds⟩ := session.process_adds prims blake3 round.now round.status
      round.incoming (round.meanwhile live) e
    have hothers : e ∈ (round.meanwhile live).rows → e ∈ live.rows ∨
        ∃ t : Records, e ∉ t.rows ∧ e ∈ (round.meanwhile t).rows :=
      fun he => or_iff_not_imp_left.mpr fun hnot => ⟨live, hnot, he⟩
    have hround := fun he => or_assoc.mp ((hadds he).imp_left hothers)
    simp only [List.forall_mem_cons, List.exists_mem_cons_iff]
    unfold Session.leaves
    dsimp only
    split
    · obtain ⟨hkeeps', hadds'⟩ := ih (session.process prims blake3 round.now round.status
        round.incoming (round.meanwhile live)).2
      refine ⟨fun h hl => hkeeps' h.2 (hkeeps (h.1 live hl)), fun he => ?_⟩
      exact (hadds' he).elim (fun h => (hround h).imp_right .inl) fun h => .inr (.inr h)
    · exact ⟨fun h hl => hkeeps (h.1 live hl), fun he => (hround he).imp_right .inl⟩

end MeePdn.PdnStore
