import Mathlib.Data.List.Basic
import Mathlib.Tactic.Ring

/-!
# The postcard wire format

What the crate `postcard` writes and reads of plain data: numbers as varints, seven bits a byte with
the lowest first, arrays of bytes as they are, sequences after their length, and the fields of a
structure one after the other.

## Main definitions

* `varint`, `takeVarint` — a number in at most so many bytes, and one read back.
* `Format` — how values are written and read, with the law that reading undoes writing.
* `Format.u64`, `Format.u32`, `Format.u8`, `Format.raw`, `Format.pair`, `Format.seq`, `Format.iso` —
  formats and what is made of them.
* `Wire` — what is relied on of the crate; `Wire.varints` — the format as the crate documents it.

## Main results

* `takeVarint_varint` — a number that fits is read back.
* `length_varint_mono` — a greater number takes no fewer bytes.

## Implementation notes

`postcard` is third-party code: what is proved of messages is proved of every `Wire`. `usize` has 64
bits. Bytes left over are returned, as `postcard::take_from_bytes` does;
`postcard::from_bytes` leaves them aside (`Format.fromBytes`).
-/

namespace MeePdn.Postcard

/-! ## Varints -/

/-- A number in at most `width` bytes, seven bits a byte with the lowest first; every byte but the
last has its high bit set. -/
def varint : ℕ → ℕ → List UInt8
  | 0, _ => []
  | width + 1, n =>
    if n < 128 then [UInt8.ofNat n] else UInt8.ofNat (n % 128 + 128) :: varint width (n / 128)

/-- A number of at most `width` bytes, of which the last one possible is at most `last`, and the
bytes after it. -/
def takeVarint (last : ℕ) : ℕ → List UInt8 → Option (ℕ × List UInt8)
  | 0, _ => none
  | _ + 1, [] => none
  | width + 1, byte :: rest =>
    if byte.toNat < 128 then
      if width = 0 ∧ last < byte.toNat then none else some (byte.toNat, rest)
    else (takeVarint last width rest).map fun (n, rest) => (byte.toNat % 128 + 128 * n, rest)

lemma toNat_ofNat {n : ℕ} (h : n < 256) : (UInt8.ofNat n).toNat = n := UInt8.toNat_ofNat_of_lt h

/-- **A number that fits is read back.** -/
lemma takeVarint_varint {last width n : ℕ} (hlast : last < 128) (h : n < (last + 1) * 128 ^ width)
    (rest : List UInt8) :
    takeVarint last (width + 1) (varint (width + 1) n ++ rest) = some (n, rest) := by
  induction width generalizing n with
  | zero => grind [varint, takeVarint, toNat_ofNat]
  | succ width ih =>
    rw [varint]
    split_ifs with hsmall
    · have hbyte : (UInt8.ofNat n).toNat = n := toNat_ofNat (by omega)
      simp [takeVarint, hbyte, hsmall]
    · have hbyte : (UInt8.ofNat (n % 128 + 128)).toNat = n % 128 + 128 :=
        toNat_ofNat (by omega)
      have hfits : n / 128 < (last + 1) * 128 ^ width := by
        apply Nat.div_lt_of_lt_mul
        calc n < (last + 1) * 128 ^ (width + 1) := h
          _ = 128 * ((last + 1) * 128 ^ width) := by ring
      rw [List.cons_append, takeVarint, hbyte, if_neg (by omega), ih hfits]
      simp only [Option.map_some, Option.some.injEq, Prod.mk.injEq, and_true]
      omega

/-- **A greater number takes no fewer bytes.** -/
lemma length_varint_mono {width n m : ℕ} (h : n ≤ m) :
    (varint width n).length ≤ (varint width m).length := by
  induction width generalizing n m with
  | zero => rfl
  | succ width ih =>
    rw [varint, varint]
    split_ifs with hn hm
    · rfl
    · simp
    · omega
    · exact Nat.succ_le_succ (ih (Nat.div_le_div_right h))

/-! ## Formats -/

/-- How values are written and read. Reading undoes writing for the values that can be written. -/
structure Format (α : Type) where
  Valid : α → Prop
  encode : α → List UInt8
  decode : List UInt8 → Option (α × List UInt8)
  decode_encode : ∀ a, Valid a → ∀ rest, decode (encode a ++ rest) = some (a, rest)

namespace Format

variable {α β : Type}

/-- `postcard::from_bytes`: what is read first, whatever follows. -/
def fromBytes (format : Format α) (bytes : List UInt8) : Option α :=
  (format.decode bytes).map Prod.fst

lemma fromBytes_encode (format : Format α) {a : α} (h : format.Valid a) :
    format.fromBytes (format.encode a) = some a := by
  have hdecode := format.decode_encode a h []
  rw [List.append_nil] at hdecode
  rw [fromBytes, hdecode]
  rfl

/-- `u64`: at most ten bytes, the last at most 1. -/
def u64 : Format UInt64 where
  Valid _ := True
  encode n := varint 10 n.toNat
  decode bytes := (takeVarint 1 10 bytes).map fun (n, rest) => (UInt64.ofNat n, rest)
  decode_encode n _ rest := by
    rw [takeVarint_varint (by omega) (by simpa using n.toNat_lt)]
    simp

/-- `u32`: at most five bytes, the last at most 15. -/
def u32 : Format UInt32 where
  Valid _ := True
  encode n := varint 5 n.toNat
  decode bytes := (takeVarint 15 5 bytes).map fun (n, rest) => (UInt32.ofNat n, rest)
  decode_encode n _ rest := by
    rw [takeVarint_varint (by omega) (by simpa using n.toNat_lt)]
    simp

/-- `u8`: the byte. -/
def u8 : Format UInt8 where
  Valid _ := True
  encode byte := [byte]
  decode
    | [] => none
    | byte :: rest => some (byte, rest)
  decode_encode _ _ _ := rfl

/-- So many bytes, as they are. -/
def raw (n : ℕ) : Format {bytes : List UInt8 // bytes.length = n} where
  Valid _ := True
  encode bytes := bytes.1
  decode bytes :=
    if h : n ≤ bytes.length then some (⟨bytes.take n, by simp [h]⟩, bytes.drop n) else none
  decode_encode bytes _ rest := by
    obtain ⟨bytes, rfl⟩ := bytes
    simp

/-- So many bytes are so many. -/
lemma length_val {n : ℕ} (bytes : {bytes : List UInt8 // bytes.length = n}) :
    bytes.1.length = n :=
  bytes.2

/-- The fields of a structure, one after the other. -/
def pair (first : Format α) (second : Format β) : Format (α × β) where
  Valid p := first.Valid p.1 ∧ second.Valid p.2
  encode p := first.encode p.1 ++ second.encode p.2
  decode bytes := do
    let (a, rest) ← first.decode bytes
    let (b, rest) ← second.decode rest
    return ((a, b), rest)
  decode_encode p h rest := by
    rw [List.append_assoc, first.decode_encode p.1 h.1]
    simp [second.decode_encode p.2 h.2]

/-- The same bytes for values that stand for one another. -/
def iso (format : Format α) (f : α → β) (g : β → α) (h : ∀ b, f (g b) = b) : Format β where
  Valid b := format.Valid (g b)
  encode b := format.encode (g b)
  decode bytes := (format.decode bytes).map fun (a, rest) => (f a, rest)
  decode_encode b hb rest := by
    rw [format.decode_encode (g b) hb]
    simp [h]

/-- So many values, one after the other. -/
def decodeMany (format : Format α) : ℕ → List UInt8 → Option (List α × List UInt8)
  | 0, bytes => some ([], bytes)
  | n + 1, bytes => do
    let (a, rest) ← format.decode bytes
    let (l, rest) ← decodeMany format n rest
    return (a :: l, rest)

/-- A sequence: its length, then its values. -/
def seq (format : Format α) : Format (List α) where
  Valid l := l.length < 2 ^ 64 ∧ ∀ a ∈ l, format.Valid a
  encode l := u64.encode (UInt64.ofNat l.length) ++ l.flatMap format.encode
  decode bytes := do
    let (n, rest) ← u64.decode bytes
    decodeMany format n.toNat rest
  decode_encode l h rest := by
    have hmany : ∀ l : List α, (∀ a ∈ l, format.Valid a) →
        decodeMany format l.length (l.flatMap format.encode ++ rest) = some (l, rest) := by
      intro l hl
      induction l with
      | nil => rfl
      | cons a l ih =>
        obtain ⟨ha, hl⟩ := List.forall_mem_cons.mp hl
        rw [List.flatMap_cons, List.append_assoc, List.length_cons, decodeMany,
          format.decode_encode a ha]
        simp [ih hl]
    have hlength : (UInt64.ofNat l.length).toNat = l.length :=
      UInt64.toNat_ofNat_of_lt h.1
    rw [List.append_assoc, u64.decode_encode _ trivial]
    simp only [Option.bind_eq_bind, Option.bind_some, hlength]
    exact hmany l h.2

lemma length_encode_seq (format : Format α) (l : List α) :
    (format.seq.encode l).length =
      (u64.encode (UInt64.ofNat l.length)).length + (l.flatMap format.encode).length := by
  simp [seq]

end Format

/-! ## What is relied on -/

/-- What is relied on of the crate: what is written is read back, and how long it is. -/
structure Wire where
  u8 : Format UInt8
  u32 : Format UInt32
  u64 : Format UInt64
  raw : (n : ℕ) → Format {bytes : List UInt8 // bytes.length = n}
  seq : {α : Type} → Format α → Format (List α)
  valid_u8 : ∀ byte, u8.Valid byte
  valid_u32 : ∀ n, u32.Valid n
  valid_u64 : ∀ n, u64.Valid n
  valid_raw : ∀ n bytes, (raw n).Valid bytes
  valid_seq : ∀ {α : Type} {format : Format α} {l : List α}, l.length < 2 ^ 64 →
    (∀ a ∈ l, format.Valid a) → (seq format).Valid l
  length_u8 : ∀ byte, (u8.encode byte).length = 1
  length_u64_zero : (u64.encode 0).length = 1
  length_u64_mono : ∀ {n m}, n ≤ m → (u64.encode n).length ≤ (u64.encode m).length
  length_raw : ∀ n bytes, ((raw n).encode bytes).length = n
  length_seq : ∀ {α : Type} (format : Format α) (l : List α), ((seq format).encode l).length =
    (u64.encode (UInt64.ofNat l.length)).length + (l.flatMap format.encode).length

/-- The format of the crate. -/
def Wire.varints : Wire where
  u8 := .u8
  u32 := .u32
  u64 := .u64
  raw := .raw
  seq := .seq
  valid_u8 _ := trivial
  valid_u32 _ := trivial
  valid_u64 _ := trivial
  valid_raw _ _ := trivial
  valid_seq hlength hall := ⟨hlength, hall⟩
  length_u8 _ := rfl
  length_u64_zero := rfl
  length_u64_mono h := length_varint_mono (UInt64.le_iff_toNat_le.mp h)
  length_raw _ bytes := bytes.2
  length_seq := Format.length_encode_seq

lemma Wire.length_u64_pos (wire : Wire) (n : UInt64) : 1 ≤ (wire.u64.encode n).length :=
  wire.length_u64_zero ▸ wire.length_u64_mono UInt64.zero_le

end MeePdn.Postcard
