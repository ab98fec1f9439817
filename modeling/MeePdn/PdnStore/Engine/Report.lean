import MeePdn.PdnStore.Heads
import MeePdn.PdnStore.Filter

/-!
# Reports of a finished sync

`sync_report_message` of `pdn-store/src/engine/live.rs`: the message broadcast after a sync names
the newest heads that fit into gossip's limit on a message. The room around the heads is reserved
before they are known, with the length of the limit in the place of the length of the heads.

## Main definitions

* `SyncReport`, `Op` — a report, and what is broadcast.
* `Op.format` — the bytes of it.
* `reserved`, `syncReportMessage` — the room around the heads, and the message.

## Main results

* `sync_report_fits` — a message is within the limit and is read as a report of heads among those
  given.

## Implementation notes

How an entry is written is left open: a report is told apart from it by the number of its variant.
-/

namespace MeePdn.PdnStore

open Postcard
open scoped Fs

/-- `SyncReport`. -/
structure SyncReport where
  ns : NamespaceId
  /-- Encoded `AuthorHeads`. -/
  heads : List UInt8
  /-- The identity the sender's replica answers as. -/
  identity : Identity

/-- `Op`: the message that is broadcast over gossip. -/
inductive Op where
  /-- A new entry was inserted into the document. -/
  | put (e : SignedEntry)
  /-- A peer now has content available for a hash. -/
  | contentReady (hash : Hash)
  /-- We synced with another peer, here's the news. -/
  | syncReport (report : SyncReport)

section Format

variable (wire : Wire) (entryFormat : Format SignedEntry)

/-- `SyncReport`, as it is written. -/
def SyncReport.format : Format SyncReport :=
  ((bytesFormat wire 32).pair ((wire.seq wire.u8).pair (bytesFormat wire 32))).iso
    (fun fields => ⟨⟨fields.1⟩, fields.2.1, ⟨fields.2.2⟩⟩)
    (fun report => (report.ns.bytes, report.heads, report.identity.bytes)) fun _ => rfl

/-- `Hash`, as it is written. -/
def hashFormat : Format Hash := (bytesFormat wire 32).iso Hash.mk Hash.bytes fun _ => rfl

namespace Op

/-- The number of a variant. -/
def tag : Op → UInt32
  | .put _ => 0
  | .contentReady _ => 1
  | .syncReport _ => 2

/-- What follows the number of the variant. -/
def encodeFields : Op → List UInt8
  | .put e => entryFormat.encode e
  | .contentReady hash => (hashFormat wire).encode hash
  | .syncReport report => (SyncReport.format wire).encode report

/-- What is read after the number of a variant. -/
def decodeFields (tag : UInt32) (bytes : List UInt8) : Option (Op × List UInt8) :=
  if tag = 0 then (entryFormat.decode bytes).map fun (e, rest) => (.put e, rest)
  else if tag = 1 then
    ((hashFormat wire).decode bytes).map fun (hash, rest) => (.contentReady hash, rest)
  else if tag = 2 then
    ((SyncReport.format wire).decode bytes).map fun (report, rest) => (.syncReport report, rest)
  else none

/-- `Op`, as it is written. -/
def format : Format Op where
  Valid
    | .put e => entryFormat.Valid e
    | .contentReady hash => (hashFormat wire).Valid hash
    | .syncReport report => (SyncReport.format wire).Valid report
  encode op := wire.u32.encode op.tag ++ encodeFields wire entryFormat op
  decode bytes := do
    let (tag, rest) ← wire.u32.decode bytes
    decodeFields wire entryFormat tag rest
  decode_encode op h rest := by
    rw [List.append_assoc, wire.u32.decode_encode _ (wire.valid_u32 _)]
    cases op with
    | put e => simp [tag, encodeFields, decodeFields, entryFormat.decode_encode e h]
    | contentReady hash =>
      simp [tag, encodeFields, decodeFields, (hashFormat wire).decode_encode hash h]
    | syncReport report =>
      simp [tag, encodeFields, decodeFields, (SyncReport.format wire).decode_encode report h]

end Op

/-- The bytes of a report. -/
def reportBytes (ns : NamespaceId) (identity : Identity) (heads : List UInt8) : List UInt8 :=
  (Op.format wire entryFormat).encode (.syncReport ⟨ns, heads, identity⟩)

/-- The greatest `usize`. -/
def usizeMax : ℕ := 2 ^ 64 - 1

/-- The room around the heads: the empty heads' length prefix is one byte, and no heads that fit
take a longer prefix than `max_content` would. -/
def reserved (ns : NamespaceId) (identity : Identity) (maxContent : UInt64) : ℕ :=
  min usizeMax
    ((reportBytes wire entryFormat ns identity []).length - 1 + (wire.u64.encode maxContent).length)

/-- `sync_report_message`. -/
def syncReportMessage (ns : NamespaceId) (identity : Identity) (heads : AuthorHeads)
    (maxContent : UInt64) : List UInt8 :=
  let around := reserved wire entryFormat ns identity maxContent
  let heads := heads.encode wire (some (UInt64.ofNat (maxContent.toNat - around)))
  reportBytes wire entryFormat ns identity heads

lemma length_reportBytes (ns : NamespaceId) (identity : Identity) (heads : List UInt8) :
    (reportBytes wire entryFormat ns identity heads).length =
      (wire.u32.encode 2).length + 64 +
        (wire.u64.encode (UInt64.ofNat heads.length)).length + heads.length := by
  have hheads : (heads.flatMap wire.u8.encode).length = heads.length := by
    simp [List.length_flatMap, wire.length_u8]
  simp only [reportBytes, Op.format, Op.encodeFields, Op.tag, SyncReport.format, Format.iso,
    Format.pair, bytesFormat, List.length_append, wire.length_raw, wire.length_seq, hheads]
  omega

/-- **A sync report fits gossip's limit** wherever the limit leaves at least a byte for the heads:
the message is no longer than the limit and is read as a report of that namespace and identity,
whose heads are among those given.

**Proof sketch.** The heads are no longer than the limit, so their length takes no more bytes than
the limit would. -/
theorem sync_report_fits (ns : NamespaceId) (identity : Identity) (heads : AuthorHeads)
    (maxContent : UInt64)
    (h : reserved wire entryFormat ns identity maxContent + 1 ≤ maxContent.toNat) :
    (syncReportMessage wire entryFormat ns identity heads maxContent).length ≤ maxContent.toNat ∧
      ∃ bytes kept,
        (Op.format wire entryFormat).fromBytes
            (syncReportMessage wire entryFormat ns identity heads maxContent) =
          some (.syncReport ⟨ns, bytes, identity⟩) ∧
        AuthorHeads.decode wire bytes = some kept ∧ ∀ head ∈ kept.rows, head ∈ heads.rows := by
  have hmax := maxContent.toNat_lt
  let room := maxContent.toNat - reserved wire entryFormat ns identity maxContent
  have hroom : (UInt64.ofNat room).toNat = room :=
    UInt64.toNat_ofNat_of_lt ((Nat.sub_le _ _).trans_lt hmax)
  have hpos : 1 ≤ room := by omega
  obtain ⟨hdecode, hlength, hmem⟩ := heads.decode_encode_some wire (hroom.symm ▸ hpos)
  rw [hroom] at hlength
  have hvalid : (heads.encode wire (some (UInt64.ofNat room))).length < 2 ^ 64 := by omega
  have hmessage : syncReportMessage wire entryFormat ns identity heads maxContent =
      reportBytes wire entryFormat ns identity (heads.encode wire (some (UInt64.ofNat room))) := rfl
  constructor
  · have hempty : (reportBytes wire entryFormat ns identity []).length =
        (wire.u32.encode 2).length + 64 + 1 := by
      rw [length_reportBytes, ← wire.length_u64_zero]
      rfl
    have haround : reserved wire entryFormat ns identity maxContent =
        (wire.u32.encode 2).length + 64 + (wire.u64.encode maxContent).length := by
      grind [usizeMax, reserved]
    -- the length of the heads is written in no more bytes than the limit
    have hwidth : (wire.u64.encode
        (UInt64.ofNat (heads.encode wire (some (UInt64.ofNat room))).length)).length ≤
          (wire.u64.encode maxContent).length := by
      apply wire.length_u64_mono
      rw [UInt64.le_iff_toNat_le, UInt64.toNat_ofNat_of_lt' hvalid]
      omega
    rw [hmessage, length_reportBytes]
    omega
  · refine ⟨heads.encode wire (some (UInt64.ofNat room)), _, ?_, hdecode, hmem⟩
    apply Format.fromBytes_encode
    exact ⟨wire.valid_raw _ _, wire.valid_seq hvalid fun _ _ => wire.valid_u8 _,
      wire.valid_raw _ _⟩

end Format

end MeePdn.PdnStore

/-! ## A report with room for one head -/

namespace MeePdn.Testing

open PdnStore Postcard
open scoped Fs

/-- Entries written as nothing, which none of them is read back of. -/
def unwritten : Format SignedEntry :=
  ⟨fun _ => False, fun _ => [], fun _ => none, fun _ h => h.elim⟩

/-- A hundred bytes have room for one of two heads: a report of both is cut to them and read. -/
theorem sync_report_fits_apart :
    let message :=
      syncReportMessage .varints unwritten (replica 5) ⟨.replicate 32 1⟩ apart 100
    message.length ≤ 100 ∧ ∃ bytes kept,
      (Op.format .varints unwritten).fromBytes message =
        some (.syncReport ⟨replica 5, bytes, ⟨.replicate 32 1⟩⟩) ∧
      AuthorHeads.decode .varints bytes = some kept ∧ ∀ head ∈ kept.rows, head ∈ apart.rows :=
  sync_report_fits .varints unwritten (replica 5) ⟨.replicate 32 1⟩ apart 100 (by decide)

end MeePdn.Testing
