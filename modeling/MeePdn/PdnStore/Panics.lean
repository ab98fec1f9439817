import MeePdn.PdnStore.Exchange

/-!
# A message never panics

`process_message` of `pdn-store/src/ranger.rs` once more, with the calls that panic told apart from
the calls that fail. A message comes from the other side, and its ranges are anything that decodes.
What panics are the remainders and the quotients by a count, the difference under the split factor,
the lookup of a pivot that expects an entry, and the assertion that more than one part of a split
range holds entries.

## Main definitions

* `Ranger.Stop` — how a call ends without a result.
* `Ranger.MayPanic.splitRanges`, `Ranger.MayPanic.replyFingerprint`,
  `Ranger.MayPanic.processMessage` — what `Reads.splitRanges`, `Reads.replyFingerprint` and
  `Store.processMessage` are, with the panics.

## Main results

* `Ranger.MayPanic.replyFingerprint_eq` — a fingerprint is answered or refused.
* `Session.processMayPanic_eq` — the model with panics is the model without.
* `message_never_panics` — a message is answered or refused, and a range that is split falls into
  parts that are neither empty nor everything, more than one of them with entries.

## Implementation notes

A count of entries is a natural number: a product of two counts leaves `usize` only where a range
holds 2^63 entries. Reads of a snapshot are those of its rows; a storage error in the middle of a
range is not among the inputs.
-/

namespace MeePdn.PdnStore

namespace Ranger

/-! ## Calls that panic -/

/-- How a call ends without a result. -/
inductive Stop where
  /-- With an error, which is handed on. -/
  | error (text : String)
  /-- With a panic. -/
  | panic (text : String)
deriving DecidableEq

/-- A result whose error is handed on with `?`. -/
def handOn {α : Type} (result : Except String α) : Except Stop α := result.mapError .error

@[simp] lemma handOn_ok {α : Type} (a : α) : handOn (.ok a) = .ok a := rfl

@[simp] lemma handOn_error {α : Type} (err : String) :
    handOn (.error err : Except String α) = .error (.error err) :=
  rfl

@[simp] lemma stop_ok_bind {α β : Type} (a : α) (f : α → Except Stop β) :
    (Except.ok a >>= f) = f a :=
  rfl

lemma handOn_bind {α β : Type} (result : Except String α) (f : α → Except String β) :
    handOn (result >>= f) = handOn result >>= fun a => handOn (f a) := by
  cases result with
  | error err => rfl
  | ok a => rfl

lemma mapM_handOn {α β : Type} (f : α → Except String β) (l : List α) :
    l.mapM (fun a => handOn (f a)) = handOn (l.mapM f) := by
  induction l with
  | nil => rfl
  | cons a l ih =>
    rw [List.mapM_cons, List.mapM_cons, ih, handOn_bind]
    cases f a with
    | error err => rfl
    | ok b =>
      cases l.mapM f with
      | error err => rfl
      | ok bs => rfl

lemma handOn_ne_panic {α : Type} (result : Except String α) (text : String) :
    handOn result ≠ .error (.panic text) := by
  cases result with
  | error err => simp
  | ok a => simp

namespace MayPanic

/-- A remainder. -/
def rem (a b : ℕ) : Except Stop ℕ :=
  if b = 0 then throw (.panic "attempt to calculate the remainder with a divisor of zero")
  else return a % b

/-- A quotient. -/
def div (a b : ℕ) : Except Stop ℕ :=
  if b = 0 then throw (.panic "attempt to divide by zero") else return a / b

/-- A difference of numbers without sign. -/
def sub (a b : ℕ) : Except Stop ℕ :=
  if a < b then throw (.panic "attempt to subtract with overflow") else return a - b

variable {σ ε κ ν : Type} [LinearOrder κ]
variable (blake3 : List UInt8 → Bytes 32) (entry : RangeEntry ε κ ν)
  (reads : Reads ε κ) (config : SyncConfig) (status : ε → ContentStatus)

/-- `Reads.pivot`, with its panics. -/
def pivot (range : Range κ) (numLocalValues startIndex i : ℕ) : Except Stop κ := do
  let i ← rem i config.splitFactor
  let offset ← div (numLocalValues * (i + 1)) config.splitFactor
  let offset ← rem (startIndex + offset) numLocalValues
  let entries ← handOn (reads.getRange range)
  match entries[offset]? with
  | some e => return entry.key e
  | none => throw (.panic "missing entry")

/-- `Reads.between`, with its panics. -/
def between (range : Range κ) (numLocalValues startIndex i : ℕ) :
    Except Stop (List (Range κ)) := do
  let x ← pivot entry reads config range numLocalValues startIndex i
  let y ← pivot entry reads config range numLocalValues startIndex (i + 1)
  return if x ≠ y then [⟨x, y⟩] else []

/-- `Reads.splitRanges`, with its panics. -/
def splitRanges (range : Range κ) (numLocalValues startIndex : ℕ) :
    Except Stop (List (Range κ)) :=
  if range.x = range.y then do
    let ranges ← (List.range config.splitFactor).mapM
      (between entry reads config range numLocalValues startIndex)
    return ranges.flatten
  else do
    let first ← pivot entry reads config range numLocalValues startIndex 0
    let count ← sub config.splitFactor 2
    let middle ← (List.range count).mapM
      (between entry reads config range numLocalValues startIndex)
    let last ← pivot entry reads config range numLocalValues startIndex count
    return ⟨range.x, first⟩ :: (middle.flatten ++ [⟨last, range.y⟩])

/-- What is sent for one of the ranges, and whether it holds entries. -/
def chunk (range : Range κ) : Except Stop (Bool × MessagePart ε κ) := do
  let entries ← handOn (reads.getRange range)
  let part ← handOn (reads.chunk config status range)
  return (!entries.isEmpty, part)

/-- `Reads.replyFingerprint`, with its panics: more than one part of a range that is split holds
entries, or the assertion fails. -/
def replyFingerprint (part : RangeFingerprint κ) : Except Stop (List (MessagePart ε κ)) := do
  let localFingerprint ← handOn (reads.getFingerprint part.range)
  if localFingerprint = part.fingerprint then return []
  else
    let entries ← handOn (reads.getRange part.range)
    if entries.length ≤ 1 ∨ part.fingerprint = Fingerprint.empty blake3 then
      return [.rangeItem ⟨part.range, withStatus status entries, false⟩]
    else
      let startIndex := Wrapping.ahead entry.key part.range.x entries
      let ranges ← splitRanges entry reads config part.range entries.length startIndex
      let chunks ← ranges.mapM (chunk reads config status)
      if 1 < chunks.countP Prod.fst then return chunks.map Prod.snd
      else throw (.panic "assertion failed: non_empty > 1")

/-- `process_message`, with its panics. Nothing panics in the items. -/
def processMessage [LinearOrder ν] (store : Store σ ε κ) (incoming : Message ε κ)
    (validate : ε → ContentStatus → ValidateOutcome) (s : σ) :
    Except Stop (Option (Message ε κ)) × σ :=
  match store.processItems entry validate status incoming.items s with
  | (.error err, s) => (.error (.error err), s)
  | (.ok parts, s) =>
    (do
      let fingerprints ← incoming.fingerprints.mapM
        (replyFingerprint blake3 entry (store.reads s) config status)
      return Reads.message (parts ++ fingerprints.flatten), s)

/-! ## A range that is split -/

section Split

variable {blake3 reads status}

omit [LinearOrder κ] in
/-- **The lookup of a pivot finds an entry**, in a range that holds one. -/
lemma exists_pivot {range : Range κ} {entries : List ε}
    (hread : reads.getRange range = .ok entries)
    (hne : 0 < entries.length) (hfactor : 0 < config.splitFactor) (startIndex i : ℕ) :
    ∃ e ∈ entries, pivot entry reads config range entries.length startIndex i =
        .ok (entry.key e) ∧
      reads.pivot entry config range entries.length startIndex i = .ok (entry.key e) := by
  set offset := (startIndex +
    entries.length * (i % config.splitFactor + 1) / config.splitFactor) % entries.length
      with hoffset
  have hlt : offset < entries.length := Nat.mod_lt _ hne
  have hget : entries[offset]? = some (entries.get ⟨offset, hlt⟩) := List.getElem?_eq_getElem hlt
  refine ⟨entries.get ⟨offset, hlt⟩, List.get_mem _ _, ?_, ?_⟩
  · have hrem : rem i config.splitFactor = .ok (i % config.splitFactor) := if_neg hfactor.ne'
    have hdiv : div (entries.length * (i % config.splitFactor + 1)) config.splitFactor =
        .ok (entries.length * (i % config.splitFactor + 1) / config.splitFactor) :=
      if_neg hfactor.ne'
    have hrem' : rem (startIndex +
        entries.length * (i % config.splitFactor + 1) / config.splitFactor) entries.length =
          .ok offset :=
      if_neg hne.ne'
    simp only [pivot, hrem, hdiv, hrem', hread, handOn_ok, stop_ok_bind, hget]
    rfl
  · simp only [Reads.pivot, hread, ok_bind, ← hoffset, hget]
    rfl

/-- In a range that holds entries no pivot panics, so neither does the split. -/
lemma splitRanges_eq {range : Range κ} {entries : List ε}
    (hread : reads.getRange range = .ok entries) (hne : 0 < entries.length)
    (hfactor : 2 ≤ config.splitFactor) (startIndex : ℕ) :
    splitRanges entry reads config range entries.length startIndex =
      handOn (reads.splitRanges entry config range entries.length startIndex) := by
  have hpivot : ∀ i, pivot entry reads config range entries.length startIndex i =
      handOn (reads.pivot entry config range entries.length startIndex i) := by
    intro i
    obtain ⟨e, -, hmay, heq⟩ :=
      exists_pivot entry config hread hne (Nat.lt_of_lt_of_le Nat.zero_lt_two hfactor) startIndex i
    rw [hmay, heq, handOn_ok]
  have hbetween : between entry reads config range entries.length startIndex = fun i =>
      handOn (reads.between entry config range entries.length startIndex i) := by
    funext i
    simp only [between, Reads.between, hpivot, handOn_bind]
    rfl
  have hsub : sub config.splitFactor 2 = .ok (config.splitFactor - 2) :=
    if_neg (Nat.not_lt.mpr hfactor)
  unfold splitRanges Reads.splitRanges
  split_ifs with hall
  · rw [hbetween, mapM_handOn, handOn_bind]
    rfl
  · simp only [hbetween, mapM_handOn, hpivot, hsub, handOn_bind, stop_ok_bind]
    rfl

end Split

lemma ne_of_not_contains {range : Range κ} {t : κ} (h : ¬ range.Contains t) :
    range.x ≠ range.y := by
  obtain ⟨x, y⟩ := range
  rintro (rfl : x = y)
  exact h (Range.contains_self x t)

lemma ne_of_cut {own : κ → Prop} {view : List ε} {range one other : Range κ}
    (h : Cut entry own view range one other) : one.x ≠ one.y ∧ other.x ≠ other.y := by
  obtain ⟨e, -, hone⟩ := h.exists_one
  obtain ⟨e', -, hother⟩ := h.exists_other
  exact ⟨ne_of_not_contains fun hone' => h.disjoint _ hone' hother,
    ne_of_not_contains (h.disjoint _ hone)⟩

/-! ## A fingerprint -/

section Fingerprint

variable {blake3 entry reads} {own : κ → Prop} {view : List ε}
  (h : Shows blake3 entry own reads view)

include h

/-- One of the parts of a range, read. -/
lemma chunk_eq {range : Range κ} (hr : Readable own range)
    (hmem : ∃ e ∈ view, range.Contains (entry.key e)) :
    ∃ part, chunk reads config status range = .ok (true, part) ∧
      reads.chunk config status range = .ok part := by
  have hne : (within entry view range).isEmpty = false := by
    obtain ⟨e, he, hin⟩ := hmem
    exact List.isEmpty_eq_false_iff_exists_mem.mpr ⟨e, mem_within.mpr ⟨he, hin⟩⟩
  have hchunk : reads.chunk config status range = .ok
      (if config.maxSetSize < (within entry view range).length then
        .rangeFingerprint ⟨range, fingerprintOf blake3 entry (within entry view range)⟩
      else .rangeItem ⟨range, withStatus status (within entry view range), false⟩) := by
    simp only [Reads.chunk, h.getRange range hr, h.getFingerprint range hr, ok_bind, pure_eq_ok]
  refine ⟨_, ?_, hchunk⟩
  simp only [chunk, hchunk, h.getRange range hr, handOn_ok, stop_ok_bind, hne]
  rfl

/-- **A fingerprint is answered or refused.** A range that is not read is refused before anything
else.

**Proof sketch.** A range that is split holds at least two entries, so every pivot is found
(`splitRanges_eq`) and either of the two parts holds an entry (`Shows.splitRanges_eq`). -/
lemma replyFingerprint_eq (hrefused : ∀ range, ¬ Readable own range →
      ∃ err, reads.getFingerprint range = .error err) (part : RangeFingerprint κ) :
    replyFingerprint blake3 entry reads .default status part =
      handOn (reads.replyFingerprint blake3 entry .default status part) := by
  unfold replyFingerprint Reads.replyFingerprint
  by_cases hr : Readable own part.range
  · rw [h.getFingerprint _ hr, h.getRange _ hr]
    simp only [handOn_ok, stop_ok_bind, ok_bind]
    split_ifs with hsame hfew
    · rfl
    · rfl
    · have hlen : 2 ≤ (within entry view part.range).length := by
        have := (not_or.mp hfew).1
        omega
      obtain ⟨one, other, hsplit, hcut⟩ := h.splitRanges_eq hr hlen
      obtain ⟨p, hp, hp'⟩ := chunk_eq .default status h hcut.readable_one hcut.exists_one
      obtain ⟨q, hq, hq'⟩ := chunk_eq .default status h hcut.readable_other hcut.exists_other
      rw [splitRanges_eq entry .default (h.getRange _ hr) (by omega) le_rfl, hsplit]
      simp only [handOn_ok, stop_ok_bind, ok_bind, List.mapM_cons, List.mapM_nil, hp, hp', hq, hq',
        pure_eq_ok]
      rfl
  · obtain ⟨err, herr⟩ := hrefused _ hr
    rw [herr]
    rfl

end Fingerprint

end MayPanic

end Ranger

/-! ## A session's message -/

open Ranger (handOn Stop)

namespace Session

variable (prims : Primitives) (blake3 : List UInt8 → Bytes 32) (session : Session)

/-- `sync_process_message`, with its panics. -/
def processMayPanic (now : UInt64) (status : SignedEntry → ContentStatus)
    (incoming : ProtocolMessage) (live : Records) :
    Except Stop (Option ProtocolMessage) × Records :=
  Ranger.MayPanic.processMessage blake3 (SignedEntry.rangeEntry blake3) .default status
    (session.store blake3) incoming (session.validate prims blake3 now) live

/-- **The model with panics is the model without.** -/
lemma processMayPanic_eq (now : UInt64) (status : SignedEntry → ContentStatus)
    (incoming : ProtocolMessage) (live : Records) :
    session.processMayPanic prims blake3 now status incoming live =
      (handOn (session.process prims blake3 now status incoming live).1,
        (session.process prims blake3 now status incoming live).2) := by
  have hreply : ∀ s, Ranger.MayPanic.replyFingerprint blake3 (SignedEntry.rangeEntry blake3)
        ((session.store blake3).reads s) .default status = fun part =>
      handOn (((session.store blake3).reads s).replyFingerprint blake3
        (SignedEntry.rangeEntry blake3) .default status part) := by
    intro s
    funext part
    rw [reads_store]
    apply Ranger.MayPanic.replyFingerprint_eq status (session.shows_view blake3)
    exact fun range hr => ⟨_, if_neg hr⟩
  unfold processMayPanic process Ranger.MayPanic.processMessage Ranger.Store.processMessage
  rcases (session.store blake3).processItems (SignedEntry.rangeEntry blake3)
    (session.validate prims blake3 now) status incoming.items live with ⟨result, s⟩
  cases result with
  | error err => rfl
  | ok parts =>
    simp only [hreply, Ranger.mapM_handOn, Ranger.handOn_bind]
    rfl

end Session

/-- **A message never panics.** Whatever a session's snapshot holds, whatever it reveals and
whatever message arrives, it is answered or refused. A range of at least two entries is split
without a panic: every pivot is the key of an entry, no part is empty or the whole set, and more
than one part holds entries.

**Proof sketch.** The model with panics is the model without (`Session.processMayPanic_eq`). The
parts of a split range are those of `Shows.splitRanges_eq`: two, each with an entry, and sharing
none, so that neither is the whole set. -/
theorem message_never_panics (prims : Primitives) (blake3 : List UInt8 → Bytes 32)
    (session : Session) (now : UInt64) (status : SignedEntry → ContentStatus)
    (incoming : ProtocolMessage) (live : Records) :
    (∀ text, (session.processMayPanic prims blake3 now status incoming live).1 ≠
      .error (.panic text)) ∧
    ∀ range entries, ((session.store blake3).reads live).getRange range = .ok entries →
      1 < entries.length →
        (∀ startIndex i, ∃ e ∈ entries, Ranger.MayPanic.pivot (SignedEntry.rangeEntry blake3)
          ((session.store blake3).reads live) .default range entries.length startIndex i =
            .ok e.id) ∧
        ∃ parts, Ranger.MayPanic.splitRanges (SignedEntry.rangeEntry blake3)
            ((session.store blake3).reads live) .default range entries.length
            (Wrapping.ahead SignedEntry.id range.x entries) = .ok parts ∧
          (∀ part ∈ parts, part.x ≠ part.y ∧ ∃ id, part.Contains id) ∧
          1 < parts.countP fun part => session.view.any fun e => part.Contains e.id := by
  constructor
  · intro text
    rw [session.processMayPanic_eq]
    exact Ranger.handOn_ne_panic _ text
  · intro range entries hread hlen
    rw [Session.reads_store] at hread ⊢
    have hr : Ranger.Readable (fun id => id.ns = session.ns) range := by
      by_contra hr
      have hrefused : (Ranger.Reads.ofView blake3 session.ns session.view).getRange range =
          .error "sync range boundary names another namespace" := if_neg hr
      rw [hrefused] at hread
      cases hread
    have hshows := session.shows_view blake3
    have hentries : Ranger.within (SignedEntry.rangeEntry blake3) session.view range = entries :=
      Except.ok.inj ((hshows.getRange range hr).symm.trans hread)
    constructor
    · intro startIndex i
      obtain ⟨e, he, hpivot, -⟩ := Ranger.MayPanic.exists_pivot
        (SignedEntry.rangeEntry blake3) .default hread (by omega) Nat.zero_lt_two startIndex i
      exact ⟨e, he, hpivot⟩
    · obtain ⟨one, other, hsplit, hcut⟩ := hshows.splitRanges_eq hr (by rw [hentries]; exact hlen)
      rw [hentries] at hsplit
      have hne := Ranger.MayPanic.ne_of_cut _ hcut
      refine ⟨[one, other], ?_, ?_, ?_⟩
      · rw [Ranger.MayPanic.splitRanges_eq _ _ hread (by omega) le_rfl]
        exact congrArg handOn hsplit
      · intro part hpart
        simp only [List.mem_cons, List.not_mem_nil, or_false] at hpart
        rcases hpart with rfl | rfl
        · exact ⟨hne.1, part.x, Wrapping.within_left⟩
        · exact ⟨hne.2, part.x, Wrapping.within_left⟩
      · have hany : ∀ part : Ranger.Range RecordIdentifier,
            (∃ e ∈ session.view, part.Contains e.id) →
            (session.view.any fun e => part.Contains e.id) = true := by
          intro part hpart
          simpa using hpart
        have hone := hany one hcut.exists_one
        have hother := hany other hcut.exists_other
        simp only [List.countP_cons, List.countP_nil, hone, hother, if_true]
        omega

open Testing in
/-- Three entries of a replica, and a message with fingerprints of a range that wraps around and of
a range into another namespace. -/
theorem message_never_panics_threefold :
    let one := signed (replica 1) ⟨.replicate 32 2⟩ [1] (record 5 6 7)
    let two := signed (replica 1) ⟨.replicate 32 2⟩ [2] (record 5 6 7)
    let three := signed (replica 1) ⟨.replicate 32 3⟩ [1] (record 5 6 7)
    let session : Session :=
      ⟨replica 1, table [one, two, three], none, none, .replicate 32 9⟩
    let around : Ranger.Range RecordIdentifier := ⟨three.id, two.id⟩
    let foreign : Ranger.Range RecordIdentifier := ⟨one.id, ⟨replica 2, ⟨.replicate 32 2⟩, []⟩⟩
    (∀ text, (session.processMayPanic transparent hashing 7 (fun _ => .missing)
      ⟨[.rangeFingerprint ⟨around, ⟨.replicate 32 1⟩⟩,
        .rangeFingerprint ⟨foreign, ⟨.replicate 32 1⟩⟩]⟩
      .empty).1 ≠ .error (.panic text)) ∧
    ∃ parts, Ranger.MayPanic.splitRanges (SignedEntry.rangeEntry hashing)
        ((session.store hashing).reads .empty) .default around 2
        (Wrapping.ahead SignedEntry.id around.x [one, three]) = .ok parts ∧
      1 < parts.countP fun part => session.view.any fun e => part.Contains e.id := by
  intro one two three session around foreign
  obtain ⟨hnever, hsplit⟩ := message_never_panics transparent hashing session 7 (fun _ => .missing)
    ⟨[.rangeFingerprint ⟨around, ⟨.replicate 32 1⟩⟩,
      .rangeFingerprint ⟨foreign, ⟨.replicate 32 1⟩⟩]⟩ .empty
  obtain ⟨-, parts, hparts, -, hcount⟩ := hsplit around [one, three] (by decide +kernel) (by decide)
  exact ⟨hnever, parts, hparts, hcount⟩

end MeePdn.PdnStore
