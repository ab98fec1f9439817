import MeePdn.PdnStore.Sync
import MeePdn.Wrapping

/-!
# Range-based set reconciliation

`pdn-store/src/ranger.rs`: two stores reconcile by exchanging fingerprints of ranges of keys. A
range whose fingerprints differ is split, until a side holds so little of it that it sends its
entries; the other side answers with its own entries there that the first side lacks.

## Main definitions

* `Range`, `MessagePart`, `Message` — what the two sides exchange.
* `Reads`, `Store` — what the engine reads of a store, and how it writes to it.
* `Store.put` — an entry stored if it is newer than the one at its key.
* `Reads.splitRanges` — the ranges a range is split into.
* `Reads.reply` — what a message is answered, of reads that do not move.
* `Store.processMessage` — a message taken in and answered.

## Main results

* `Reads.reply_congr` — an answer shows the content status of no entry the reads do not hold.
* `Store.snd_processMessage` — what a message that is answered leaves in the store.
* `Store.processMessage_keeps` — what every put of an accepted value keeps, a message keeps.
* `Store.fst_processMessage` — where no write moves the reads and no accepted entry fails to be
  put, the answer to a message is `Reads.reply` of it.

## Implementation notes

A store error is its text. The `expect` on a pivot's entry, which the source takes never to fail, is
an error here; `Reconcile` shows that it is never reached, and `Panics` tells it from the errors.
Reports to subscribers are left out.
-/

namespace MeePdn.PdnStore

/-! ## Results -/

@[simp] lemma ok_bind {α β : Type} (a : α) (f : α → Except String β) :
    (Except.ok a >>= f) = f a :=
  rfl

@[simp] lemma pure_eq_ok {α : Type} (a : α) : (pure a : Except String α) = .ok a := rfl

lemma mapM_eq_ok {α β : Type} {f : α → Except String β} {g : α → β} {l : List α}
    (h : ∀ a ∈ l, f a = .ok (g a)) : l.mapM f = .ok (l.map g) := by
  induction l with
  | nil => rfl
  | cons a l ih =>
    rw [List.mapM_cons, h a (by simp), ih fun b hb => h b (by simp [hb])]
    rfl

lemma mapM_congr {α β : Type} {f g : α → Except String β} {l : List α}
    (h : ∀ a ∈ l, f a = g a) : l.mapM f = l.mapM g := by
  induction l with
  | nil => rfl
  | cons a l ih =>
    rw [List.mapM_cons, List.mapM_cons, h a (by simp), ih fun b hb => h b (by simp [hb])]

end MeePdn.PdnStore

namespace MeePdn.PdnStore.Ranger

/-! ## Messages -/

/-- A range of keys, from `x` up to `y`, going around the end when `y` lies before `x`; all keys
when the two are equal. -/
structure Range (κ : Type) where
  x : κ
  y : κ
deriving DecidableEq

/-- `Range::contains`. -/
def Range.Contains {κ : Type} [LinearOrder κ] (range : Range κ) (t : κ) : Prop :=
  Wrapping.Within range.x range.y t

instance {κ : Type} [LinearOrder κ] (range : Range κ) (t : κ) : Decidable (range.Contains t) :=
  inferInstanceAs (Decidable (Wrapping.Within range.x range.y t))

@[simp] lemma Range.contains_self {κ : Type} [LinearOrder κ] (x t : κ) :
    (⟨x, x⟩ : Range κ).Contains t :=
  Wrapping.within_self

/-- A range and its fingerprint. -/
structure RangeFingerprint (κ : Type) where
  range : Range κ
  fingerprint : Fingerprint
deriving DecidableEq

/-- Items inside a range, on their way to the other side. -/
structure RangeItem (ε κ : Type) where
  /-- The range out of which the elements are. -/
  range : Range κ
  values : List (ε × ContentStatus)
  /-- If false, requests to send local items in the range. -/
  haveLocal : Bool
deriving DecidableEq

/-- A part of a message. -/
inductive MessagePart (ε κ : Type) where
  | rangeFingerprint (part : RangeFingerprint κ)
  | rangeItem (part : RangeItem ε κ)
deriving DecidableEq

/-- `MessagePart::values`, none for a fingerprint. -/
def MessagePart.values {ε κ : Type} : MessagePart ε κ → List (ε × ContentStatus)
  | .rangeFingerprint _ => []
  | .rangeItem item => item.values

/-- A message. -/
structure Message (ε κ : Type) where
  parts : List (MessagePart ε κ)
deriving DecidableEq

namespace Message

variable {ε κ : Type} (message : Message ε κ)

/-- The items of a message. -/
def items : List (RangeItem ε κ) := message.parts.filterMap fun
  | .rangeItem item => some item
  | .rangeFingerprint _ => none

/-- The fingerprints of a message. -/
def fingerprints : List (RangeFingerprint κ) := message.parts.filterMap fun
  | .rangeItem _ => none
  | .rangeFingerprint part => some part

/-- `Message::values`. -/
def values : List (ε × ContentStatus) := message.parts.flatMap MessagePart.values

lemma values_eq : message.values = message.items.flatMap RangeItem.values := by
  obtain ⟨parts⟩ := message
  induction parts with
  | nil => rfl
  | cons part parts ih =>
    cases part with
    | rangeFingerprint part => exact ih
    | rangeItem item => exact congrArg (item.values ++ ·) ih

end Message

/-! ## Stores -/

/-- `RangeEntry`: what the engine sees of an entry. Of two values, the order says which
supersedes the other. -/
structure RangeEntry (ε κ ν : Type) where
  key : ε → κ
  value : ε → ν
  asFingerprint : ε → Fingerprint

/-- What the engine reads of a store. -/
structure Reads (ε κ : Type) where
  /-- The first key, or the default if none is available. -/
  getFirst : Except String κ
  /-- All entries in the range. -/
  getRange : Range κ → Except String (List ε)
  /-- The fingerprint of the range. -/
  getFingerprint : Range κ → Except String Fingerprint

/-- `ranger::Store`, on a state `σ`. -/
structure Store (σ ε κ : Type) where
  reads : σ → Reads ε κ
  /-- The entry at a key, read from the live store even inside a session. -/
  entryGet : σ → κ → Except String (Option ε)
  /-- The entry in place of the one at its key. -/
  entryPut : σ → ε → Except String σ

/-- The outcome of a put. -/
inductive InsertOutcome where
  /-- The entry at its key is not older. -/
  | notInserted
  /-- Inserted; `removed` is 1 when it replaced an older entry. -/
  | inserted (removed : ℕ)
deriving DecidableEq

/-- `SyncConfig`. -/
structure SyncConfig where
  /-- Up to how many values to send immediately, before sending only a fingerprint. -/
  maxSetSize : ℕ
  /-- How many splits to generate. -/
  splitFactor : ℕ

/-- `SyncConfig::default`. -/
def SyncConfig.default : SyncConfig := ⟨1, 2⟩

variable {σ ε κ ν : Type} [LinearOrder κ] [LinearOrder ν]
variable (blake3 : List UInt8 → Bytes 32) (entry : RangeEntry ε κ ν)

/-- The fingerprint of a list of entries: each one's on top of the empty set's. -/
def fingerprintOf (entries : List ε) : Fingerprint :=
  entries.foldl (fun fp e => fp.xor (entry.asFingerprint e)) (Fingerprint.empty blake3)

/-- `Store::put`: the entry is stored if it compares strictly greater than the one at its key. -/
def Store.put (store : Store σ ε κ) (s : σ) (e : ε) : Except String (InsertOutcome × σ) := do
  let previous ← store.entryGet s (entry.key e)
  if previous.any fun previous => entry.value e ≤ entry.value previous then
    return (.notInserted, s)
  else
    let s ← store.entryPut s e
    return (.inserted (if previous.isSome then 1 else 0), s)

/-- `Message::init`. -/
def Message.init (reads : Reads ε κ) : Except String (Message ε κ) := do
  let x ← reads.getFirst
  let fingerprint ← reads.getFingerprint ⟨x, x⟩
  return ⟨[.rangeFingerprint ⟨⟨x, x⟩, fingerprint⟩]⟩

/-! ## Items -/

/-- Entries with the content status they are sent with. -/
def withStatus (status : ε → ContentStatus) (entries : List ε) : List (ε × ContentStatus) :=
  entries.map fun e => (e, status e)

/-- Whether the other side's items hold an entry at the same key that is not older. -/
def superseded (theirs : List (ε × ContentStatus)) (ours : ε) : Bool :=
  theirs.any fun their => entry.key ours = entry.key their.1 ∧
    entry.value ours ≤ entry.value their.1

/-- What is sent back for an item: our entries in its range that the other side lacks, unless it
has them all. -/
def Reads.replyItem (reads : Reads ε κ) (status : ε → ContentStatus) (item : RangeItem ε κ) :
    Except String (List (MessagePart ε κ)) :=
  if item.haveLocal then return []
  else do
    let ours ← reads.getRange item.range
    let diff := ours.filter fun e => !superseded entry item.values e
    return if diff.isEmpty then [] else [.rangeItem ⟨item.range, withStatus status diff, true⟩]

/-- The incoming values, each stored or dropped as the predicate decides. -/
def Store.storeValues (store : Store σ ε κ) (validate : ε → ContentStatus → ValidateOutcome) :
    List (ε × ContentStatus) → σ → Except String Unit × σ
  | [], s => (.ok (), s)
  | (e, status) :: rest, s =>
    match validate e status with
    | .drop => store.storeValues validate rest s
    | .accept =>
      match store.put entry s e with
      | .error err => (.error err, s)
      | .ok (_, s) => store.storeValues validate rest s

/-- The items of a message, one after the other: what is sent back is read before the values of the
item are stored. -/
def Store.processItems (store : Store σ ε κ) (validate : ε → ContentStatus → ValidateOutcome)
    (status : ε → ContentStatus) :
    List (RangeItem ε κ) → σ → Except String (List (MessagePart ε κ)) × σ
  | [], s => (.ok [], s)
  | item :: rest, s =>
    match (store.reads s).replyItem entry status item with
    | .error err => (.error err, s)
    | .ok parts =>
      match store.storeValues entry validate item.values s with
      | (.error err, s) => (.error err, s)
      | (.ok (), s) =>
        match store.processItems validate status rest s with
        | (.error err, s) => (.error err, s)
        | (.ok more, s) => (.ok (parts ++ more), s)

/-! ## Fingerprints -/

namespace Reads

variable (reads : Reads ε κ) (config : SyncConfig) (status : ε → ContentStatus)

/-- The key of a pivot. Pivots repeat every `splitFactor`; they are counted from the first entry at
or after the range's `x`. -/
def pivot (range : Range κ) (numLocalValues startIndex i : ℕ) : Except String κ := do
  let i := i % config.splitFactor
  let offset := numLocalValues * (i + 1) / config.splitFactor
  let offset := (startIndex + offset) % numLocalValues
  let entries ← reads.getRange range
  match entries[offset]? with
  | some e => return entry.key e
  | none => throw "missing entry"

/-- The range between two pivots that follow each other, if they differ. -/
def between (range : Range κ) (numLocalValues startIndex i : ℕ) :
    Except String (List (Range κ)) := do
  let x ← reads.pivot entry config range numLocalValues startIndex i
  let y ← reads.pivot entry config range numLocalValues startIndex (i + 1)
  return if x ≠ y then [⟨x, y⟩] else []

/-- The ranges a range is split into. The whole set is split between its pivots, one of the ranges
wrapping around; any other range is split from its `x` to its `y`. -/
def splitRanges (range : Range κ) (numLocalValues startIndex : ℕ) :
    Except String (List (Range κ)) :=
  if range.x = range.y then do
    let ranges ← (List.range config.splitFactor).mapM
      (reads.between entry config range numLocalValues startIndex)
    return ranges.flatten
  else do
    let first ← reads.pivot entry config range numLocalValues startIndex 0
    let middle ← (List.range (config.splitFactor - 2)).mapM
      (reads.between entry config range numLocalValues startIndex)
    let last ← reads.pivot entry config range numLocalValues startIndex (config.splitFactor - 2)
    return ⟨range.x, first⟩ :: (middle.flatten ++ [⟨last, range.y⟩])

/-- What is sent for one of the ranges: its fingerprint, or its items when they are few. -/
def chunk (range : Range κ) : Except String (MessagePart ε κ) := do
  let entries ← reads.getRange range
  let fingerprint ← reads.getFingerprint range
  return if config.maxSetSize < entries.length then .rangeFingerprint ⟨range, fingerprint⟩
    else .rangeItem ⟨range, withStatus status entries, false⟩

/-- What is sent back for a fingerprint: nothing when it is our own, our items when they are few or
the other side has none, and otherwise the parts of its range. -/
def replyFingerprint (part : RangeFingerprint κ) : Except String (List (MessagePart ε κ)) := do
  let localFingerprint ← reads.getFingerprint part.range
  if localFingerprint = part.fingerprint then return []
  else
    let entries ← reads.getRange part.range
    if entries.length ≤ 1 ∨ part.fingerprint = Fingerprint.empty blake3 then
      return [.rangeItem ⟨part.range, withStatus status entries, false⟩]
    else
      let startIndex := Wrapping.ahead entry.key part.range.x entries
      let ranges ← reads.splitRanges entry config part.range entries.length startIndex
      ranges.mapM (reads.chunk config status)

/-- A message of the parts, if there are any. -/
def message (parts : List (MessagePart ε κ)) : Option (Message ε κ) :=
  if parts.isEmpty then none else some ⟨parts⟩

/-- What a message is answered, of reads that do not move. -/
def reply (incoming : Message ε κ) : Except String (Option (Message ε κ)) := do
  let items ← incoming.items.mapM (reads.replyItem entry status)
  let fingerprints ← incoming.fingerprints.mapM
    (reads.replyFingerprint blake3 entry config status)
  return message (items.flatten ++ fingerprints.flatten)

end Reads

/-! ## The content status -/

section Status

variable {entry} {reads : Reads ε κ} {config : SyncConfig} {status status' : ε → ContentStatus}
  (hstatus : ∀ wanted entries, reads.getRange wanted = .ok entries →
    ∀ e ∈ entries, status e = status' e)

omit [LinearOrder κ] [LinearOrder ν] in
lemma withStatus_congr {entries : List ε} (h : ∀ e ∈ entries, status e = status' e) :
    withStatus status entries = withStatus status' entries :=
  List.map_congr_left fun e he => by rw [h e he]

include hstatus

lemma Reads.replyItem_congr (item : RangeItem ε κ) :
    reads.replyItem entry status item = reads.replyItem entry status' item := by
  unfold replyItem
  split_ifs with h
  · rfl
  · cases hr : reads.getRange item.range with
    | error err => rfl
    | ok ours => grind [ok_bind, withStatus_congr]

omit [LinearOrder κ] in
lemma Reads.chunk_congr (wanted : Range κ) :
    reads.chunk config status wanted = reads.chunk config status' wanted := by
  unfold chunk
  cases hr : reads.getRange wanted with
  | error err => rfl
  | ok entries => simp only [ok_bind, withStatus_congr (hstatus _ _ hr)]

omit [LinearOrder ν] in
lemma Reads.replyFingerprint_congr (part : RangeFingerprint κ) :
    reads.replyFingerprint blake3 entry config status part =
      reads.replyFingerprint blake3 entry config status' part := by
  unfold replyFingerprint
  have hchunk : reads.chunk config status = reads.chunk config status' :=
    funext fun wanted => reads.chunk_congr hstatus wanted
  cases hr : reads.getRange part.range with
  | error err => rfl
  | ok entries => simp only [ok_bind, withStatus_congr (hstatus _ _ hr), hchunk]

/-- **An answer shows the content status of no entry the reads do not hold.** -/
lemma Reads.reply_congr (incoming : Message ε κ) :
    reads.reply blake3 entry config status incoming =
      reads.reply blake3 entry config status' incoming := by
  unfold reply
  rw [mapM_congr fun item _ => reads.replyItem_congr hstatus item,
    mapM_congr fun part _ => reads.replyFingerprint_congr blake3 hstatus part]

end Status

/-! ## A message -/

/-- `process_message`: the items first, then the fingerprints on the store as the items left it. The
answer is `none` when there is nothing left to send. -/
def Store.processMessage (store : Store σ ε κ) (config : SyncConfig) (incoming : Message ε κ)
    (validate : ε → ContentStatus → ValidateOutcome) (status : ε → ContentStatus) (s : σ) :
    Except String (Option (Message ε κ)) × σ :=
  match store.processItems entry validate status incoming.items s with
  | (.error err, s) => (.error err, s)
  | (.ok parts, s) =>
    (do
      let fingerprints ← incoming.fingerprints.mapM
        ((store.reads s).replyFingerprint blake3 entry config status)
      return Reads.message (parts ++ fingerprints.flatten), s)

/-! ## What a message leaves -/

section Leaves

variable {blake3 entry} {store : Store σ ε κ} {validate : ε → ContentStatus → ValidateOutcome}
  {status : ε → ContentStatus}

lemma Store.snd_processItems {items : List (RangeItem ε κ)} {s : σ}
    {parts : List (MessagePart ε κ)}
    (h : (store.processItems entry validate status items s).1 = .ok parts) :
    (store.processItems entry validate status items s).2 =
      items.foldl (fun s item => (store.storeValues entry validate item.values s).2) s := by
  induction items generalizing s parts with
  | nil => rfl
  | cons item rest ih => grind [processItems]

/-- What a message leaves are the values of its items stored, where it is answered. -/
lemma Store.snd_processMessage {config : SyncConfig} {incoming : Message ε κ} {s : σ}
    {answer : Option (Message ε κ)}
    (h : (store.processMessage blake3 entry config incoming validate status s).1 = .ok answer) :
    (store.processMessage blake3 entry config incoming validate status s).2 =
      incoming.items.foldl (fun s item => (store.storeValues entry validate item.values s).2) s
      := by
  unfold processMessage at h ⊢
  rcases hp : store.processItems entry validate status incoming.items s with ⟨result, s'⟩
  cases result with
  | error err => simp [hp] at h
  | ok parts =>
    have hitems := store.snd_processItems (congrArg Prod.fst hp)
    rw [hp] at hitems
    exact hitems

/-- **What every put of an accepted value keeps, a message keeps**, answered or not. -/
lemma Store.processMessage_keeps {P : σ → Prop} {config : SyncConfig} {incoming : Message ε κ}
    (hput : ∀ s e st outcome s', (e, st) ∈ incoming.values → validate e st = .accept →
      store.put entry s e = .ok (outcome, s') → P s → P s') {s : σ} (hs : P s) :
    P (store.processMessage blake3 entry config incoming validate status s).2 := by
  have hvalues : ∀ values : List (ε × ContentStatus), (∀ v ∈ values, v ∈ incoming.values) →
      ∀ s, P s → P (store.storeValues entry validate values s).2 := by
    intro values hv
    induction values with
    | nil => exact fun _ => id
    | cons value rest ih => grind [storeValues]
  have hitems : ∀ items : List (RangeItem ε κ),
      (∀ item ∈ items, ∀ v ∈ item.values, v ∈ incoming.values) →
      ∀ s, P s → P (store.processItems entry validate status items s).2 := by
    intro items hi
    induction items with
    | nil => exact fun _ => id
    | cons item rest ih => grind [processItems]
  have hall := hitems incoming.items (fun item hi v hv => by
    rw [Message.values_eq]
    exact List.mem_flatMap.mpr ⟨item, hi, hv⟩) s hs
  grind [processMessage]

end Leaves

/-! ## Reads that do not move -/

section Frozen

variable {entry} {store : Store σ ε κ} {reads : Reads ε κ}
  {validate : ε → ContentStatus → ValidateOutcome}
  (hput : ∀ s e status, validate e status = .accept → ∃ r, store.put entry s e = .ok r)

include hput

omit [LinearOrder κ] in
lemma Store.fst_storeValues (values : List (ε × ContentStatus)) (s : σ) :
    (store.storeValues entry validate values s).1 = .ok () := by
  induction values generalizing s with
  | nil => rfl
  | cons value rest ih =>
    obtain ⟨e, status⟩ := value
    unfold storeValues
    cases hv : validate e status with
    | drop => exact ih s
    | accept =>
      obtain ⟨⟨outcome, s'⟩, hr⟩ := hput s e status hv
      simp only [hr]
      exact ih s'

variable (hreads : ∀ s, store.reads s = reads)

include hreads

/-- What is sent back for the items is what the reads say of each. -/
lemma Store.fst_processItems (status : ε → ContentStatus) (items : List (RangeItem ε κ)) (s : σ) :
    (store.processItems entry validate status items s).1 =
      (items.mapM (reads.replyItem entry status)).map List.flatten := by
  induction items generalizing s with
  | nil => rfl
  | cons item rest ih =>
    rw [processItems, hreads, List.mapM_cons]
    cases hr : reads.replyItem entry status item with
    | error err => rfl
    | ok parts =>
      have hvalues := store.fst_storeValues hput item.values s
      cases hs : store.storeValues entry validate item.values s with
      | mk result s' =>
        rw [hs] at hvalues
        cases hvalues
        have hrest := ih s'
        cases hp : store.processItems entry validate status rest s' with
        | mk more s'' =>
          rw [hp] at hrest
          simp only at hrest
          simp only [hp]
          cases hm : rest.mapM (reads.replyItem entry status) with
          | error err =>
            rw [hm] at hrest
            simp only [hrest]
            rfl
          | ok parts' =>
            rw [hm] at hrest
            simp only [hrest]
            rfl

/-- **Where no write moves the reads**, and no accepted entry fails to be put, the answer to a
message is what the reads say of it: what the store takes in does not show.

**Proof sketch.** Each item's answer is read before its values are stored, from reads the values do
not move, and so is each fingerprint's. -/
lemma Store.fst_processMessage (config : SyncConfig) (status : ε → ContentStatus)
    (incoming : Message ε κ) (s : σ) :
    (store.processMessage blake3 entry config incoming validate status s).1 =
      reads.reply blake3 entry config status incoming := by
  have hitems := store.fst_processItems hput hreads status incoming.items s
  unfold processMessage Reads.reply
  cases hp : store.processItems entry validate status incoming.items s with
  | mk result s' =>
    rw [hp] at hitems
    simp only at hitems
    cases hm : incoming.items.mapM (reads.replyItem entry status) with
    | error err =>
      rw [hm] at hitems
      simp only [hitems]
      rfl
    | ok parts =>
      rw [hm] at hitems
      simp only [hitems, hreads]
      rfl

end Frozen

end MeePdn.PdnStore.Ranger
