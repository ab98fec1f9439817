import Mathlib.Data.List.Basic
import Mathlib.Order.Lex
import Mathlib.Data.Nat.Digits.Defs
import Mathlib.Data.Nat.Digits.Lemmas
import Mathlib.Order.Basic
import Mathlib.Data.List.Lex

/-!
# Byte arrays and byte-backed ids

The fixed-size byte arrays of the source (`[u8; N]`), the ids `pdn-types` and `pdn-store` wrap
them in, and the two text forms a store key spells them with: lowercase hexadecimal for an id and
decimal without leading zeros for a `u64`.

## Main definitions

* `Bytes` — `[u8; N]`, a byte list that carries its length.
* `PdnId`, `AuthorId`, `NodeId`, `NamespaceId`, `PodId` — the ids.
* `hexText`, `lowerHex` — the `Display` form of an id, and the parser that takes it back.
* `decimal`, `number` — a `u64` in a key, and the parser that takes it back.

## Main results

* `lowerHex_hexText`, `eq_of_lowerHex` — an id's text parses to the id, and no other text does.
* `number_decimal`, `eq_of_number` — a number's text parses to the number, and no other text does.

## Implementation notes

Text is a list of bytes. Every segment the layouts accept is ASCII, so a key that is no UTF-8
fails in the segment its first byte above `127` lies in, as the source's `from_utf8` fails it.
-/

namespace MeePdn

/-! ## Byte arrays -/

/-- `[u8; N]`: `n` bytes. -/
structure Bytes (n : ℕ) where
  toList : List UInt8
  length_toList : toList.length = n
deriving DecidableEq

namespace Bytes

variable {n : ℕ}

@[ext] lemma ext {a b : Bytes n} (h : a.toList = b.toList) : a = b := by
  cases a; cases b; simp_all

/-- `[b; N]`. -/
def replicate (n : ℕ) (b : UInt8) : Bytes n := ⟨List.replicate n b, by simp⟩

/-- The array of a list of the right length. -/
def ofList? (n : ℕ) (l : List UInt8) : Option (Bytes n) :=
  if h : l.length = n then some ⟨l, h⟩ else none

@[simp] lemma ofList?_toList (a : Bytes n) : ofList? n a.toList = some a := by
  simp [ofList?, a.length_toList]

end Bytes

/-- The bytes of an ASCII literal. -/
def ascii (s : String) : List UInt8 := s.toList.map fun c => UInt8.ofNat c.toNat

/-! ## Ids -/

/-- An identity, `define_byte_id_32!`. -/
structure PdnId where
  bytes : Bytes 32
deriving DecidableEq

/-- The key an entry is written under. -/
structure AuthorId where
  bytes : Bytes 32
deriving DecidableEq

/-- A node of the network. -/
structure NodeId where
  bytes : Bytes 32
deriving DecidableEq

/-- A replicated store. -/
structure NamespaceId where
  bytes : Bytes 32
deriving DecidableEq

/-- A pod, `define_byte_id_16!`. -/
structure PodId where
  bytes : Bytes 16
deriving DecidableEq

/-- The numbers an identity's bytes spell, what its order compares. -/
def PdnId.ordinals (id : PdnId) : List ℕ := id.bytes.toList.map UInt8.toNat

lemma PdnId.ordinals_injective : Function.Injective PdnId.ordinals := by
  rintro ⟨⟨a, ha⟩⟩ ⟨⟨b, hb⟩⟩ h
  have hab : a = b := List.map_injective_iff.mpr (fun x y h => UInt8.toNat_inj.mp h) h
  subst hab
  rfl

/-- The derived `Ord` of a byte id: byte order and nothing else. -/
instance : LinearOrder PdnId := LinearOrder.lift' PdnId.ordinals PdnId.ordinals_injective

/-! ## Hexadecimal text -/

/-- The lowercase digit of a value below 16. -/
def hexChar (v : ℕ) : UInt8 := if v < 10 then UInt8.ofNat (48 + v) else UInt8.ofNat (87 + v)

/-- `hex_digit` on the digits `lower_hex` lets through, `0`–`9` and `a`–`f`. -/
def hexDigit (b : UInt8) : Option ℕ :=
  if 48 ≤ b.toNat ∧ b.toNat ≤ 57 then some (b.toNat - 48)
  else if 97 ≤ b.toNat ∧ b.toNat ≤ 102 then some (b.toNat - 97 + 10)
  else none

/-- An id's `Display`: each byte as two lowercase digits. -/
def hexText : List UInt8 → List UInt8
  | [] => []
  | b :: l => hexChar (b.toNat / 16) :: hexChar (b.toNat % 16) :: hexText l

/-- The bytes a text of lowercase digit pairs spells. -/
def parsePairs : List UInt8 → Option (List UInt8)
  | [] => some []
  | [_] => none
  | hi :: lo :: l => do
    let h ← hexDigit hi
    let d ← hexDigit lo
    let rest ← parsePairs l
    return UInt8.ofNat (16 * h + d) :: rest

/-- `lower_hex::<N>`: lowercase digits alone, `2 N` of them. -/
def lowerHex (n : ℕ) (segment : List UInt8) : Option (Bytes n) :=
  (parsePairs segment).bind (Bytes.ofList? n)

lemma hexDigit_hexChar {v : ℕ} (hv : v < 16) : hexDigit (hexChar v) = some v := by
  interval_cases v <;> decide

lemma parsePairs_hexText (l : List UInt8) : parsePairs (hexText l) = some l := by
  induction l with
  | nil => rfl
  | cons b l ih =>
    have hb : b.toNat < 256 := b.toNat_lt
    have hsum : 16 * (b.toNat / 16) + b.toNat % 16 = b.toNat := Nat.div_add_mod b.toNat 16
    rw [hexText, parsePairs, hexDigit_hexChar (show b.toNat / 16 < 16 by omega),
      hexDigit_hexChar (show b.toNat % 16 < 16 by omega), ih]
    show some (UInt8.ofNat (16 * (b.toNat / 16) + b.toNat % 16) :: l) = some (b :: l)
    rw [hsum, UInt8.ofNat_toNat]

lemma lowerHex_hexText {n : ℕ} (a : Bytes n) : lowerHex n (hexText a.toList) = some a := by
  simp [lowerHex, parsePairs_hexText]

lemma eq_hexChar {b : UInt8} {v : ℕ} (h : hexDigit b = some v) : v < 16 ∧ b = hexChar v := by
  unfold hexDigit at h
  split at h
  · obtain rfl := Option.some.inj h
    refine ⟨by omega, ?_⟩
    rw [hexChar, if_pos (by omega), show 48 + (b.toNat - 48) = b.toNat by omega, UInt8.ofNat_toNat]
  · split at h
    · obtain rfl := Option.some.inj h
      refine ⟨by omega, ?_⟩
      rw [hexChar, if_neg (by omega), show 87 + (b.toNat - 97 + 10) = b.toNat by omega,
        UInt8.ofNat_toNat]
    · cases h

/-- A text of digit pairs is that of the bytes it spells. -/
lemma eq_of_parsePairs : ∀ {text bytes : List UInt8}, parsePairs text = some bytes →
    text = hexText bytes
  | [], bytes, h => Option.some.inj h ▸ rfl
  | [_], _, h => by cases h
  | hi :: lo :: text, bytes, h => by
    obtain ⟨a, ha, h⟩ := Option.bind_eq_some_iff.mp h
    obtain ⟨b, hb, h⟩ := Option.bind_eq_some_iff.mp h
    obtain ⟨rest, hrest, h⟩ := Option.bind_eq_some_iff.mp h
    obtain rfl := Option.some.inj h
    obtain ⟨ha, rfl⟩ := eq_hexChar ha
    obtain ⟨hb, rfl⟩ := eq_hexChar hb
    have hbyte : (UInt8.ofNat (16 * a + b)).toNat = 16 * a + b :=
      UInt8.toNat_ofNat_of_lt' (by simp [UInt8.size]; omega)
    rw [hexText, hbyte, eq_of_parsePairs hrest, show (16 * a + b) / 16 = a by omega,
      show (16 * a + b) % 16 = b by omega]

/-- **A text that parses to an id is the id's.** -/
lemma eq_of_lowerHex {n : ℕ} {text : List UInt8} {a : Bytes n} (h : lowerHex n text = some a) :
    text = hexText a.toList := by
  obtain ⟨bytes, hbytes, h⟩ := Option.bind_eq_some_iff.mp h
  unfold Bytes.ofList? at h
  split at h
  · obtain rfl := Option.some.inj h
    exact eq_of_parsePairs hbytes
  · cases h

lemma le_of_mem_hexText {l : List UInt8} {b : UInt8} (h : b ∈ hexText l) : 48 ≤ b := by
  have hle : ∀ v, v < 16 → (48 : UInt8) ≤ hexChar v := by decide
  induction l with
  | nil => cases h
  | cons c l ih =>
    have hc : c.toNat < 256 := c.toNat_lt
    simp only [hexText, List.mem_cons] at h
    rcases h with rfl | rfl | h
    · exact hle _ (by omega)
    · exact hle _ (by omega)
    · exact ih h

/-! ## Decimal text -/

/-- A `u64`'s `Display`. -/
def decimal (n : ℕ) : List UInt8 :=
  if n = 0 then [48] else ((Nat.digits 10 n).map fun d => UInt8.ofNat (48 + d)).reverse

/-- `b.is_ascii_digit()`. -/
def isDigit (b : UInt8) : Bool := 48 ≤ b.toNat && b.toNat ≤ 57

/-- `number`: decimal with no leading zeros, within a `u64`. -/
def number (segment : List UInt8) : Option ℕ :=
  let canonical := segment == [48] ||
    (!(segment.head? == some 48) && !segment.isEmpty && segment.all isDigit)
  if canonical then
    let value := segment.foldl (fun acc b => 10 * acc + (b.toNat - 48)) 0
    if value < 2 ^ 64 then some value else none
  else none

lemma digit_toNat {d : ℕ} (hd : d < 10) : (UInt8.ofNat (48 + d)).toNat - 48 = d := by
  interval_cases d <;> rfl

lemma foldl_digits (ds : List ℕ) (hds : ∀ d ∈ ds, d < 10) :
    ((ds.map fun d => UInt8.ofNat (48 + d)).reverse).foldl
      (fun acc b => 10 * acc + (b.toNat - 48)) 0 = Nat.ofDigits 10 ds := by
  induction ds with
  | nil => simp
  | cons d ds ih =>
    have hd : d < 10 := hds d (by simp)
    simp only [List.map_cons, List.reverse_cons, List.foldl_append, List.foldl_cons,
      List.foldl_nil, Nat.ofDigits_cons]
    rw [ih fun d' h' => hds d' (by simp [h']), digit_toNat hd]
    ring

lemma isDigit_of_mem_decimal {n : ℕ} {b : UInt8} (h : b ∈ decimal n) : isDigit b := by
  have hdig : ∀ d, d < 10 → isDigit (UInt8.ofNat (48 + d)) := by decide
  unfold decimal at h
  split at h
  · rw [List.mem_singleton] at h
    subst h
    rfl
  · rw [List.mem_reverse, List.mem_map] at h
    obtain ⟨d, hd, rfl⟩ := h
    exact hdig d (Nat.digits_lt_base (by norm_num) hd)

/-- **A number's text parses to the number.**

**Proof sketch.** Zero is its own case. Any other number has a nonzero leading digit, so its text
is canonical, and reading the digits back gives the number (`Nat.ofDigits_digits`). -/
lemma number_decimal {n : ℕ} (hn : n < 2 ^ 64) : number (decimal n) = some n := by
  rcases Nat.eq_zero_or_pos n with rfl | hpos
  · rfl
  have hne : Nat.digits 10 n ≠ [] := Nat.digits_ne_nil_iff_ne_zero.mpr (by omega)
  have hall : (decimal n).all isDigit := List.all_eq_true.mpr fun b hb => isDigit_of_mem_decimal hb
  have hval : (decimal n).foldl (fun acc b => 10 * acc + (b.toNat - 48)) 0 = n := by
    rw [decimal, if_neg (by omega), foldl_digits _ fun d hd => Nat.digits_lt_base (by norm_num) hd,
      Nat.ofDigits_digits]
  have hhead : (decimal n).head? ≠ some 48 := by
    have hlast := Nat.getLast_digit_ne_zero 10 (show n ≠ 0 by omega)
    have hlt := Nat.digits_lt_base (b := 10) (by norm_num) (List.getLast_mem hne)
    rw [decimal, if_neg (by omega), List.head?_reverse, List.getLast?_map,
      List.getLast?_eq_getLast_of_ne_nil hne]
    have hdig : ∀ d, d < 10 → d ≠ 0 → UInt8.ofNat (48 + d) ≠ 48 := by decide
    simpa using hdig _ hlt hlast
  have hempty : (decimal n).isEmpty = false := by
    rw [decimal, if_neg (by omega)]
    simpa using hne
  unfold number
  simp only [hall, hval, hempty, beq_iff_eq, Bool.or_eq_true, Bool.and_eq_true, if_pos hn]
  rw [if_pos]
  exact Or.inr ⟨⟨by simpa using hhead, rfl⟩, trivial⟩

/-- **A text that parses to a number is the number's.**

**Proof sketch.** The text, read backwards, is a list of digits whose last is not zero, so it is the
list of digits of its value (`Nat.digits_ofDigits`). -/
lemma eq_of_number {text : List UInt8} {n : ℕ} (h : number text = some n) :
    n < 2 ^ 64 ∧ text = decimal n := by
  simp only [number, Option.ite_none_right_eq_some, Option.some.injEq] at h
  obtain ⟨hcanonical, hlt, rfl⟩ := h
  refine ⟨hlt, ?_⟩
  clear hlt
  simp only [Bool.or_eq_true, beq_iff_eq, Bool.and_eq_true, Bool.not_eq_true', beq_eq_false_iff_ne]
    at hcanonical
  rcases hcanonical with rfl | ⟨⟨hhead, hempty⟩, hall⟩
  · rfl
  set digits := text.reverse.map fun b => b.toNat - 48 with hdigits
  have hdigit : ∀ b ∈ text, 48 ≤ b.toNat ∧ b.toNat ≤ 57 := fun b hb => by
    simpa [isDigit] using List.all_eq_true.mp hall b hb
  have hten : ∀ d ∈ digits, d < 10 := by
    intro d hd
    obtain ⟨b, hb, rfl⟩ := List.mem_map.mp hd
    have := hdigit b (List.mem_reverse.mp hb)
    omega
  have htext : text = (digits.map fun d => UInt8.ofNat (48 + d)).reverse := by
    rw [hdigits, List.map_map, List.map_reverse, List.reverse_reverse]
    refine (List.map_id text).symm.trans (List.map_congr_left fun b hb => ?_)
    have := hdigit b hb
    rw [Function.comp_apply, show 48 + (b.toNat - 48) = b.toNat by omega, UInt8.ofNat_toNat, id]
  have hvalue := foldl_digits digits hten
  rw [← htext] at hvalue
  have hne : digits ≠ [] := by simpa [hdigits] using hempty
  have hlast : digits.getLast hne ≠ 0 := by
    rcases text with _ | ⟨c, text⟩
    · cases hempty
    have hc := hdigit c List.mem_cons_self
    have hzero : c.toNat ≠ 48 := fun heq => hhead (congrArg some (UInt8.toNat_inj.mp heq))
    simp only [hdigits, List.getLast_map, List.getLast_reverse, List.head_cons]
    omega
  have hback := Nat.digits_ofDigits 10 (by norm_num) digits hten fun _ => hlast
  have hpos : Nat.ofDigits 10 digits ≠ 0 := by
    intro hzero
    rw [hzero, Nat.digits_zero] at hback
    exact hne hback.symm
  rw [hvalue, decimal, if_neg hpos, hback]
  exact htext

end MeePdn
