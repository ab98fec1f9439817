import MeePdn.Types

/-!
# The key layout of a pod's stores

`pod/keys.rs`: the keys a pod's membership store and its record store name their entries by, their
text form and the parsers that take it back. A key that parses to none of them is outside the
layout.

## Main definitions

* `Seq` — a position in one member's chain, a `u64`.
* `EventKind` — a membership event's kind.
* `MembershipKey` — `member/<subject>/<seq>/<kind>/<actor>/<actor_seq>` and
  `member/<member>/devices/<version>`.
* `MembershipKey.parse`, `MembershipKey.toBytes` — the two directions.
* `OpId`, `RecordKey`, `recordPrefix` — `by/<member>/<kind>/<id>/<mseq>` and
  `by/<member>/<kind>/<id>/<writer>.<author>.<mseq>.<op_seq>`, and what a record's keys start with.

## Main results

* `MembershipKey.parse_toBytes` — what a device writes for a key is read back as that key.
* `keys_canonical` — **the keys of both stores are canonical**, no text is a key of both, and a
  record's keys are those with its prefix.

## Implementation notes

The parsers work on bytes: a byte sequence that is not UTF-8 has a byte outside ASCII in some
segment, and no segment of a key admits one.
-/

namespace MeePdn

/-- A position in one member's chain of membership events. -/
structure Seq where
  get : UInt64
deriving DecidableEq

namespace Seq

/-- A chain's first event, the created event or a newcomer's joined event. -/
def first : Seq := ⟨1⟩

/-- The actor sequence the created event names. -/
def beforeCreation : Seq := ⟨0⟩

/-- `Seq::new` of a number that fits a `u64`. -/
def new (value : ℕ) : Seq := ⟨UInt64.ofNat value⟩

/-- The sequence as a number. -/
def toNat (s : Seq) : ℕ := s.get.toNat

lemma toNat_lt (s : Seq) : s.toNat < 2 ^ 64 := s.get.toNat_lt

lemma toNat_new {n : ℕ} (h : n < 2 ^ 64) : (new n).toNat = n := by
  simpa [new, toNat] using UInt64.toNat_ofNat_of_lt' h

end Seq

/-- A membership event's kind, its key's `<kind>` segment. -/
inductive EventKind where
  | created
  | joined
  | left
  | removed
  | promoted
  | demoted
deriving DecidableEq

namespace EventKind

/-- `EventKind::ALL`. -/
def all : List EventKind := [created, joined, left, removed, promoted, demoted]

/-- `EventKind::as_str`. -/
def asStr : EventKind → List UInt8
  | created => ascii "created"
  | joined => ascii "joined"
  | left => ascii "left"
  | removed => ascii "removed"
  | promoted => ascii "promoted"
  | demoted => ascii "demoted"

/-- `EventKind::parse`: the kind whose name the segment is. -/
def parse (segment : List UInt8) : Option EventKind :=
  all.find? fun kind => kind.asStr == segment

@[simp] lemma parse_asStr (kind : EventKind) : parse kind.asStr = some kind := by
  cases kind <;> decide

lemma eq_of_parse {segment : List UInt8} {kind : EventKind} (h : parse segment = some kind) :
    segment = kind.asStr := by
  have hname := List.find?_some h
  exact (beq_iff_eq.mp hname).symm

lemma slash_not_mem_asStr (kind : EventKind) : (47 : UInt8) ∉ kind.asStr := by
  cases kind <;> decide

end EventKind

/-- A key of the membership store. -/
inductive MembershipKey where
  /-- `member/<subject>/<seq>/<kind>/<actor>/<actor_seq>`. -/
  | event (subject : PdnId) (seq : Seq) (kind : EventKind) (actor : PdnId) (actorSeq : Seq)
  /-- `member/<member>/devices/<version>`. -/
  | devices (member : PdnId) (version : UInt64)
deriving DecidableEq

/-- The text `/` between two segments. -/
def slash : UInt8 := 47

/-- `pdn_id`: an identity's segment. -/
def pdnId (segment : List UInt8) : Option PdnId := (lowerHex 32 segment).map PdnId.mk

/-- The `u64` a segment spells. -/
def numberU64 (segment : List UInt8) : Option UInt64 := (number segment).map UInt64.ofNat

namespace MembershipKey

/-- The created event's key. -/
def created (creator : PdnId) : MembershipKey :=
  .event creator Seq.first .created creator Seq.beforeCreation

/-- `MembershipKey::parse` on the segments of a key. -/
def ofSegments (segments : List (List UInt8)) : Option MembershipKey :=
  match segments with
  | [m, member, d, version] =>
    if m = ascii "member" ∧ d = ascii "devices" then do
      let member ← pdnId member
      let version ← numberU64 version
      return .devices member version
    else none
  | [m, subject, seq, kind, actor, actorSeq] =>
    if m = ascii "member" then do
      let subject ← pdnId subject
      let seq ← numberU64 seq
      let kind ← EventKind.parse kind
      let actor ← pdnId actor
      let actorSeq ← numberU64 actorSeq
      return .event subject ⟨seq⟩ kind actor ⟨actorSeq⟩
    else none
  | _ => none

/-- `MembershipKey::parse`. -/
def parse (key : List UInt8) : Option MembershipKey := ofSegments (key.splitOn slash)

/-- The segments `Display` writes a key in. -/
def segments : MembershipKey → List (List UInt8)
  | .event subject seq kind actor actorSeq =>
    [ascii "member", hexText subject.bytes.toList, decimal seq.toNat, kind.asStr,
      hexText actor.bytes.toList, decimal actorSeq.toNat]
  | .devices member version =>
    [ascii "member", hexText member.bytes.toList, ascii "devices", decimal version.toNat]

/-- `MembershipKey::to_bytes`. -/
def toBytes (key : MembershipKey) : List UInt8 := [slash].intercalate key.segments

end MembershipKey

/-! ## The texts of segments -/

@[simp] lemma pdnId_hexText (id : PdnId) : pdnId (hexText id.bytes.toList) = some id := by
  simp [pdnId, lowerHex_hexText]

@[simp] lemma numberU64_decimal (n : UInt64) : numberU64 (decimal n.toNat) = some n := by
  simp [numberU64, number_decimal n.toNat_lt]

lemma eq_of_pdnId {segment : List UInt8} {id : PdnId} (h : pdnId segment = some id) :
    segment = hexText id.bytes.toList := by
  obtain ⟨bytes, hbytes, rfl⟩ := Option.map_eq_some_iff.mp h
  exact eq_of_lowerHex hbytes

lemma eq_of_numberU64 {segment : List UInt8} {n : UInt64} (h : numberU64 segment = some n) :
    segment = decimal n.toNat := by
  obtain ⟨value, hvalue, rfl⟩ := Option.map_eq_some_iff.mp h
  obtain ⟨hlt, htext⟩ := eq_of_number hvalue
  rwa [UInt64.toNat_ofNat_of_lt' hlt]

lemma not_mem_text {b : UInt8} (hb : b < 48) (l : List UInt8) (n : ℕ) :
    b ∉ hexText l ∧ b ∉ decimal n := by
  refine ⟨fun h => absurd (le_of_mem_hexText h) (UInt8.not_le.mpr hb), fun h => ?_⟩
  have hdigit := isDigit_of_mem_decimal h
  have hlt : b.toNat < 48 := UInt8.lt_iff_toNat_lt.mp hb
  simp [isDigit] at hdigit
  omega

lemma slash_not_mem_hexText (l : List UInt8) : slash ∉ hexText l :=
  (not_mem_text (by decide) l 0).1

lemma slash_not_mem_decimal (n : ℕ) : slash ∉ decimal n := (not_mem_text (by decide) [] n).2

lemma append_cons_inj {x : UInt8} {a a' b b' : List UInt8} (ha : x ∉ a) (ha' : x ∉ a')
    (h : a ++ x :: b = a' ++ x :: b') : a = a' ∧ b = b' := by
  induction a generalizing a' with
  | nil => cases a' with
    | nil => simpa using h
    | cons c' a' => exact absurd (List.cons.inj h).1 (fun heq => ha' (heq ▸ List.mem_cons_self))
  | cons c a ih => cases a' with
    | nil => exact absurd (List.cons.inj h).1 (fun heq => ha (heq ▸ List.mem_cons_self))
    | cons c' a' =>
      obtain ⟨rfl, htail⟩ := List.cons.inj h
      obtain ⟨rfl, rfl⟩ := ih (fun hin => ha (List.mem_cons_of_mem _ hin))
        (fun hin => ha' (List.mem_cons_of_mem _ hin)) htail
      exact ⟨rfl, rfl⟩

namespace MembershipKey

lemma slash_not_mem_segments (key : MembershipKey) : ∀ l ∈ key.segments, slash ∉ l := by
  have hm : slash ∉ ascii "member" := by decide
  have hd : slash ∉ ascii "devices" := by decide
  cases key with
  | event subject seq kind actor actorSeq =>
    simp only [segments, List.mem_cons, List.not_mem_nil, or_false, forall_eq_or_imp, forall_eq]
    exact ⟨hm, slash_not_mem_hexText _, slash_not_mem_decimal _, kind.slash_not_mem_asStr,
      slash_not_mem_hexText _, slash_not_mem_decimal _⟩
  | devices member version =>
    simp only [segments, List.mem_cons, List.not_mem_nil, or_false, forall_eq_or_imp, forall_eq]
    exact ⟨hm, slash_not_mem_hexText _, hd, slash_not_mem_decimal _⟩

lemma ofSegments_segments (key : MembershipKey) : ofSegments key.segments = some key := by
  cases key with
  | event subject seq kind actor actorSeq =>
    simp [segments, ofSegments, Seq.toNat]
  | devices member version => simp [segments, ofSegments]

/-- **What a device writes for a key is read back as that key.**

**Proof sketch.** No segment holds the separator, so splitting the text gives the segments back
(`List.splitOn_intercalate`), and each segment parses to what it was written from. -/
@[simp] lemma parse_toBytes (key : MembershipKey) : parse key.toBytes = some key := by
  have hne : key.segments ≠ [] := by cases key <;> simp [segments]
  rw [parse, toBytes, List.splitOn_intercalate slash key.slash_not_mem_segments hne,
    ofSegments_segments]

/-- Segments that parse to a key are its segments. -/
lemma eq_of_ofSegments {segs : List (List UInt8)} {key : MembershipKey}
    (h : ofSegments segs = some key) : segs = key.segments := by
  unfold ofSegments at h
  split at h
  · split at h
    · next hnames =>
      obtain ⟨member, hmember, h⟩ := Option.bind_eq_some_iff.mp h
      obtain ⟨version, hversion, h⟩ := Option.bind_eq_some_iff.mp h
      obtain rfl := Option.some.inj h
      rw [hnames.1, hnames.2, eq_of_pdnId hmember, eq_of_numberU64 hversion, segments]
    · cases h
  · split at h
    · next hname =>
      obtain ⟨subject, hsubject, h⟩ := Option.bind_eq_some_iff.mp h
      obtain ⟨seq, hseq, h⟩ := Option.bind_eq_some_iff.mp h
      obtain ⟨kind, hkind, h⟩ := Option.bind_eq_some_iff.mp h
      obtain ⟨actor, hactor, h⟩ := Option.bind_eq_some_iff.mp h
      obtain ⟨actorSeq, hactorSeq, h⟩ := Option.bind_eq_some_iff.mp h
      obtain rfl := Option.some.inj h
      rw [hname, eq_of_pdnId hsubject, eq_of_numberU64 hseq, EventKind.eq_of_parse hkind,
        eq_of_pdnId hactor, eq_of_numberU64 hactorSeq, segments]
      rfl
    · cases h
  · cases h

lemma eq_of_parse {text : List UInt8} {key : MembershipKey} (h : parse text = some key) :
    text = key.toBytes := by
  rw [toBytes, ← eq_of_ofSegments h, List.intercalate_splitOn]

end MembershipKey

/-! ## The keys of a record store -/

/-- A record's id, `define_byte_id_16!`. -/
structure RecordId where
  bytes : Bytes 16
deriving DecidableEq

/-- The kind a record is placed as. -/
inductive RecordKind where
  | claim
  | mergeableDocument
  | immutableDocument
deriving DecidableEq

namespace RecordKind

/-- `RecordKind::as_str`. -/
def asStr : RecordKind → List UInt8
  | claim => ascii "claim"
  | mergeableDocument => ascii "mergeable-document"
  | immutableDocument => ascii "immutable-document"

/-- `RecordKind::from_str`: the kind whose name the segment is. -/
def parse (segment : List UInt8) : Option RecordKind :=
  [claim, mergeableDocument, immutableDocument].find? fun kind => kind.asStr == segment

@[simp] lemma parse_asStr (kind : RecordKind) : parse kind.asStr = some kind := by
  cases kind <;> decide

lemma eq_of_parse {segment : List UInt8} {kind : RecordKind} (h : parse segment = some kind) :
    segment = kind.asStr := by
  have hname := List.find?_some h
  exact (beq_iff_eq.mp hname).symm

lemma slash_not_mem_asStr (kind : RecordKind) : slash ∉ kind.asStr := by
  cases kind <;> decide

end RecordKind

/-- A record's identity, whatever its kind. -/
structure RecordRef where
  member : PdnId
  kind : RecordKind
  id : RecordId
deriving DecidableEq

/-- An operation's segment: the writer it reads as, the author that signs it, the writer's
membership sequence and the author's own count of its operations on the record, from 1. -/
structure OpId where
  writer : PdnId
  author : AuthorId
  mseq : Seq
  opSeq : UInt64
deriving DecidableEq

/-- The text `.` between the parts of an operation's segment. -/
def dot : UInt8 := 46

namespace OpId

/-- `OpId::parse`. -/
def parse (segment : List UInt8) : Option OpId :=
  match segment.splitOn dot with
  | [writer, author, mseq, opSeq] => do
    let writer ← pdnId writer
    let author ← lowerHex 32 author
    let mseq ← numberU64 mseq
    let opSeq ← numberU64 opSeq
    return ⟨writer, ⟨author⟩, ⟨mseq⟩, opSeq⟩
  | _ => none

/-- The parts `Display` writes an operation in. -/
def parts (op : OpId) : List (List UInt8) :=
  [hexText op.writer.bytes.toList, hexText op.author.bytes.toList, decimal op.mseq.toNat,
    decimal op.opSeq.toNat]

/-- `Display` of an operation. -/
def text (op : OpId) : List UInt8 := [dot].intercalate op.parts

lemma not_mem_parts {b : UInt8} (hb : b < 48) (op : OpId) : ∀ l ∈ op.parts, b ∉ l := by
  have h := fun l n => not_mem_text hb l n
  simp only [parts, List.mem_cons, List.not_mem_nil, or_false, forall_eq_or_imp, forall_eq]
  exact ⟨(h _ 0).1, (h _ 0).1, (h [] _).2, (h [] _).2⟩

@[simp] lemma parse_text (op : OpId) : parse op.text = some op := by
  rw [parse, text, List.splitOn_intercalate dot (op.not_mem_parts (by decide)) (by simp [parts])]
  simp [parts, lowerHex_hexText, Seq.toNat]

/-- A segment that parses to an operation is its text. -/
lemma eq_of_parse {segment : List UInt8} {op : OpId} (h : parse segment = some op) :
    segment = op.text := by
  unfold parse at h
  split at h
  · next writer author mseq opSeq hsplit =>
    obtain ⟨writer', hwriter, h⟩ := Option.bind_eq_some_iff.mp h
    obtain ⟨author', hauthor, h⟩ := Option.bind_eq_some_iff.mp h
    obtain ⟨mseq', hmseq, h⟩ := Option.bind_eq_some_iff.mp h
    obtain ⟨opSeq', hopSeq, h⟩ := Option.bind_eq_some_iff.mp h
    obtain rfl := Option.some.inj h
    have hjoin : [dot].intercalate (segment.splitOn dot) = segment := List.intercalate_splitOn dot
    rw [← hjoin, hsplit, eq_of_pdnId hwriter, eq_of_lowerHex hauthor, eq_of_numberU64 hmseq,
      eq_of_numberU64 hopSeq]
    rfl
  · cases h

lemma slash_not_mem_text (op : OpId) : slash ∉ op.text := by
  have hparts := op.not_mem_parts (show slash < 48 by decide)
  have hdot : slash ≠ dot := by decide
  simp_all [text, List.intercalate, parts]

end OpId

/-- A key of the record store. -/
inductive RecordKey where
  | claim (member : PdnId) (id : RecordId) (mseq : Seq)
  | immutableDocument (member : PdnId) (id : RecordId) (mseq : Seq)
  | operation (member : PdnId) (id : RecordId) (op : OpId)
deriving DecidableEq

/-- `record_prefix`: what every entry of a record sits under. -/
def recordPrefix (record : RecordRef) : List UInt8 :=
  [slash].intercalate [ascii "by", hexText record.member.bytes.toList, record.kind.asStr,
    hexText record.id.bytes.toList, []]

namespace RecordKey

/-- `RecordKey::record`. -/
def record : RecordKey → RecordRef
  | claim member id _ => ⟨member, .claim, id⟩
  | immutableDocument member id _ => ⟨member, .immutableDocument, id⟩
  | operation member id _ => ⟨member, .mergeableDocument, id⟩

/-- `RecordKey::parse` on the segments of a key. -/
def ofSegments (segments : List (List UInt8)) : Option RecordKey :=
  match segments with
  | [b, member, kind, id, last] =>
    if b = ascii "by" then do
      let member ← pdnId member
      let id ← lowerHex 16 id
      match ← RecordKind.parse kind with
      | .claim => (numberU64 last).map fun mseq => claim member ⟨id⟩ ⟨mseq⟩
      | .immutableDocument => (numberU64 last).map fun mseq => immutableDocument member ⟨id⟩ ⟨mseq⟩
      | .mergeableDocument => (OpId.parse last).map fun op => operation member ⟨id⟩ op
    else none
  | _ => none

/-- `RecordKey::parse`. -/
def parse (key : List UInt8) : Option RecordKey := ofSegments (key.splitOn slash)

/-- The last segment of a key. -/
def last : RecordKey → List UInt8
  | claim _ _ mseq | immutableDocument _ _ mseq => decimal mseq.toNat
  | operation _ _ op => op.text

/-- `RecordKey::to_bytes`. -/
def toBytes (key : RecordKey) : List UInt8 := recordPrefix key.record ++ key.last

/-- The segments of a key's text. -/
def segments (key : RecordKey) : List (List UInt8) :=
  [ascii "by", hexText key.record.member.bytes.toList, key.record.kind.asStr,
    hexText key.record.id.bytes.toList, key.last]

lemma toBytes_eq (key : RecordKey) : key.toBytes = [slash].intercalate key.segments := by
  simp [toBytes, recordPrefix, segments, List.intercalate]

lemma slash_not_mem_segments (key : RecordKey) : ∀ l ∈ key.segments, slash ∉ l := by
  have hby : slash ∉ ascii "by" := by decide
  have hlast : slash ∉ key.last := by
    cases key with
    | claim | immutableDocument => exact slash_not_mem_decimal _
    | operation member id op => exact op.slash_not_mem_text
  simp only [segments, List.mem_cons, List.not_mem_nil, or_false, forall_eq_or_imp, forall_eq]
  exact ⟨hby, slash_not_mem_hexText _, RecordKind.slash_not_mem_asStr _, slash_not_mem_hexText _,
    hlast⟩

/-- **What a device writes for a record's key is read back as that key.** -/
@[simp] lemma parse_toBytes (key : RecordKey) : parse key.toBytes = some key := by
  rw [parse, toBytes_eq, List.splitOn_intercalate slash key.slash_not_mem_segments
    (by simp [segments])]
  cases key <;> simp [segments, ofSegments, record, last, lowerHex_hexText, Seq.toNat]

/-- Segments that parse to a key are its segments. -/
lemma eq_of_ofSegments {segs : List (List UInt8)} {key : RecordKey}
    (h : ofSegments segs = some key) : segs = key.segments := by
  unfold ofSegments at h
  split at h
  · split at h
    · next hname =>
      obtain ⟨member, hmember, h⟩ := Option.bind_eq_some_iff.mp h
      obtain ⟨id, hid, h⟩ := Option.bind_eq_some_iff.mp h
      obtain ⟨kind, hkind, h⟩ := Option.bind_eq_some_iff.mp h
      rw [hname, eq_of_pdnId hmember, eq_of_lowerHex hid, RecordKind.eq_of_parse hkind]
      cases kind with
      | claim | immutableDocument =>
        obtain ⟨mseq, hmseq, rfl⟩ := Option.map_eq_some_iff.mp h
        rw [eq_of_numberU64 hmseq]
        rfl
      | mergeableDocument =>
        obtain ⟨op, hop, rfl⟩ := Option.map_eq_some_iff.mp h
        rw [OpId.eq_of_parse hop]
        rfl
    · cases h
  · cases h

lemma eq_of_parse {text : List UInt8} {key : RecordKey} (h : parse text = some key) :
    text = key.toBytes := by
  rw [toBytes_eq, ← eq_of_ofSegments h, List.intercalate_splitOn]

/-- **A record's keys are those with its prefix.** -/
lemma startsWith_iff (record : RecordRef) (key : RecordKey) :
    recordPrefix record <+: key.toBytes ↔ key.record = record := by
  constructor
  · rintro ⟨rest, h⟩
    have htext : ∀ (r : RecordRef) (tail : List UInt8), recordPrefix r ++ tail =
        ascii "by" ++ slash :: (hexText r.member.bytes.toList ++ slash :: (r.kind.asStr ++
          slash :: (hexText r.id.bytes.toList ++ slash :: tail))) := fun r tail => by
      simp [recordPrefix, List.intercalate]
    rw [toBytes, htext, htext] at h
    have hhex := fun l => slash_not_mem_hexText l
    obtain ⟨-, h⟩ := append_cons_inj (by decide) (by decide) h
    obtain ⟨hmember, h⟩ := append_cons_inj (hhex _) (hhex _) h
    obtain ⟨hkind, h⟩ := append_cons_inj (RecordKind.slash_not_mem_asStr _)
      (RecordKind.slash_not_mem_asStr _) h
    obtain ⟨hid, -⟩ := append_cons_inj (hhex _) (hhex _) h
    have hmember := congrArg pdnId hmember
    have hkind := congrArg RecordKind.parse hkind
    have hid := congrArg (lowerHex 16) hid
    rw [pdnId_hexText, pdnId_hexText, Option.some.injEq] at hmember
    rw [RecordKind.parse_asStr, RecordKind.parse_asStr, Option.some.injEq] at hkind
    rw [lowerHex_hexText, lowerHex_hexText, Option.some.injEq] at hid
    rcases record with ⟨member, kind, ⟨id⟩⟩
    rcases hrecord : key.record with ⟨member', kind', ⟨id'⟩⟩
    simp_all
  · rintro rfl
    exact List.prefix_append _ _

end RecordKey

/-- **The keys of a pod's stores are canonical**: each is read back from its text, no other text is
read as it, no text is a key of both stores, and the keys of a record are those with its prefix.

**Proof sketch.** Hexadecimal in lower case, decimal without leading zeros and the names of kinds
have one spelling each, and no segment holds a separator; so the text of what was parsed is that of
the segments it was parsed from. A membership key starts with another segment than a record's. -/
theorem keys_canonical :
    (∀ key : MembershipKey, MembershipKey.parse key.toBytes = some key) ∧
    (∀ text key, MembershipKey.parse text = some key → key.toBytes = text) ∧
    (∀ key : RecordKey, RecordKey.parse key.toBytes = some key) ∧
    (∀ text key, RecordKey.parse text = some key → key.toBytes = text) ∧
    (∀ text, MembershipKey.parse text = none ∨ RecordKey.parse text = none) ∧
    ∀ record text key, RecordKey.parse text = some key →
      (recordPrefix record <+: text ↔ key.record = record) := by
  refine ⟨MembershipKey.parse_toBytes, fun _ _ h => (MembershipKey.eq_of_parse h).symm,
    RecordKey.parse_toBytes, fun _ _ h => (RecordKey.eq_of_parse h).symm, fun text => ?_,
    fun record text key h => RecordKey.eq_of_parse h ▸ RecordKey.startsWith_iff record key⟩
  by_contra hboth
  obtain ⟨hm, hr⟩ := not_or.mp hboth
  obtain ⟨key, hkey⟩ := Option.ne_none_iff_exists'.mp hm
  obtain ⟨key', hkey'⟩ := Option.ne_none_iff_exists'.mp hr
  have hsegments := (MembershipKey.eq_of_ofSegments hkey).symm.trans
    (RecordKey.eq_of_ofSegments hkey')
  have hne : ascii "member" ≠ ascii "by" := by decide
  cases key <;> exact hne (List.cons.inj hsegments).1

end MeePdn
