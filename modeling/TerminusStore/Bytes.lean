import Mathlib.Algebra.Group.Nat.Basic
import Mathlib.Data.List.Basic

/-!
# Byte buffers, big-endian words, CRC-32 and UTF-8

Reference: `src/storage/directory/wal.rs` (its calls into `byteorder`, `crc` and `std::str`).

A `BytesMut` is modelled as the list of its bytes: `split_to n` is `take n`/`drop n`, `unsplit`
is `++`, `advance n` is `drop n`. A Rust `String` is modelled by its UTF-8 bytes (`Str`), which
is what the WAL stores and what `String`'s `Eq` and `Hash` look at.

The library functions the WAL calls are modelled by what they are documented to compute:
`BigEndian::write_u32`/`read_u32` (`writeU32`, `readU32`), `crc32::checksum_ieee`
(`checksumIeee`, the reflected CRC-32 of IEEE 802.3) and `std::str::from_utf8`'s validity test
(`utf8Valid`, the well-formed sequences of the Unicode standard's table 3-7).
-/

namespace TerminusStore

/-! ## Big-endian words -/

theorem toNat_toUInt8 (n : ℕ) : n.toUInt8.toNat = n % 256 := rfl

theorem toNat_toUInt32 (n : ℕ) : n.toUInt32.toNat = n % 2 ^ 32 := rfl

/-- `u32` addition wraps as `Nat.toUInt32` does. -/
theorem toUInt32_add_one (k : ℕ) : (k + 1).toUInt32 = k.toUInt32 + 1 := by
  apply UInt32.toNat.inj
  show (k + 1) % 2 ^ 32 = (k.toUInt32.toBitVec + (1 : UInt32).toBitVec).toNat
  rw [BitVec.toNat_add]
  show (k + 1) % 2 ^ 32 = (k % 2 ^ 32 + 1) % 2 ^ 32
  omega

/-- Below `u32::MAX`, `x + 1` does not wrap. -/
theorem toNat_add_one_of_ne {x : UInt32} (h : x ≠ 4294967295) : (x + 1).toNat = x.toNat + 1 := by
  have hx : x.toNat < 2 ^ 32 := x.toBitVec.isLt
  have hne : x.toNat ≠ 4294967295 := fun e => h (UInt32.toNat.inj e)
  show (x.toBitVec + (1 : UInt32).toBitVec).toNat = x.toNat + 1
  rw [BitVec.toNat_add]
  show (x.toNat + 1) % 2 ^ 32 = x.toNat + 1
  omega

theorem uint8_lt_iff (a b : UInt8) : a < b ↔ a.toNat < b.toNat := Iff.rfl

/-- `BigEndian::write_u32`: the four big-endian bytes of a 32-bit word. -/
def writeU32 (x : UInt32) : List UInt8 :=
  [(x.toNat / 2 ^ 24 % 256).toUInt8, (x.toNat / 2 ^ 16 % 256).toUInt8,
    (x.toNat / 2 ^ 8 % 256).toUInt8, (x.toNat % 256).toUInt8]

/-- `BigEndian::read_u32` on the first four bytes of a slice. Every call in the source reads a
slice of exactly four bytes; a shorter list reads as `0`. -/
def readU32 : List UInt8 → UInt32
  | b0 :: b1 :: b2 :: b3 :: _ =>
    (b0.toNat * 2 ^ 24 + b1.toNat * 2 ^ 16 + b2.toNat * 2 ^ 8 + b3.toNat).toUInt32
  | _ => 0

@[simp] theorem length_writeU32 (x : UInt32) : (writeU32 x).length = 4 := rfl

@[simp] theorem readU32_writeU32_append (x : UInt32) (rest : List UInt8) :
    readU32 (writeU32 x ++ rest) = x := by
  have hx : x.toNat < 2 ^ 32 := x.toBitVec.isLt
  apply UInt32.toNat.inj
  simp only [writeU32, readU32, List.cons_append, List.nil_append, toNat_toUInt8, toNat_toUInt32]
  omega

@[simp] theorem readU32_writeU32 (x : UInt32) : readU32 (writeU32 x) = x := by
  simpa using readU32_writeU32_append x []

theorem toUInt8_toNat (a : UInt8) : a.toNat.toUInt8 = a :=
  UInt8.toNat.inj (by rw [toNat_toUInt8]; exact Nat.mod_eq_of_lt a.toBitVec.isLt)

/-- Four bytes are the big-endian bytes of the word they read as. -/
theorem writeU32_readU32 {l : List UInt8} (h : l.length = 4) : writeU32 (readU32 l) = l := by
  match l, h with
  | [b0, b1, b2, b3], _ =>
    have h0 : b0.toNat < 256 := b0.toBitVec.isLt
    have h1 : b1.toNat < 256 := b1.toBitVec.isLt
    have h2 : b2.toNat < 256 := b2.toBitVec.isLt
    have h3 : b3.toNat < 256 := b3.toBitVec.isLt
    simp only [writeU32, readU32, toNat_toUInt32, List.cons.injEq, and_true]
    refine ⟨?_, ?_, ?_, ?_⟩ <;> apply UInt8.toNat.inj <;> simp only [toNat_toUInt8] <;> omega

/-! ## Layer addresses -/

/-- A layer address, `[u32; 5]`. -/
abbrev Layer := UInt32 × UInt32 × UInt32 × UInt32 × UInt32

/-- The twenty bytes `LabelSetEntry::new` writes for a layer: its words in big-endian order. -/
def layerBytes (l : Layer) : List UInt8 :=
  writeU32 l.1 ++ writeU32 l.2.1 ++ writeU32 l.2.2.1 ++ writeU32 l.2.2.2.1 ++ writeU32 l.2.2.2.2

/-- `LabelSetEntry::layer`'s five `read_u32` calls, on the bytes from the layer's offset. -/
def readLayer (d : List UInt8) : Layer :=
  (readU32 d, readU32 (d.drop 4), readU32 (d.drop 8), readU32 (d.drop 12), readU32 (d.drop 16))

@[simp] theorem length_layerBytes (l : Layer) : (layerBytes l).length = 20 := rfl

@[simp] theorem readLayer_layerBytes_append (l : Layer) (rest : List UInt8) :
    readLayer (layerBytes l ++ rest) = l := by
  simp [readLayer, layerBytes, List.append_assoc, List.drop_append_eq_append_drop,
    List.drop_eq_nil_of_le]

@[simp] theorem readLayer_layerBytes (l : Layer) : readLayer (layerBytes l) = l := by
  simpa using readLayer_layerBytes_append l []

/-! ## CRC-32 -/

/-- Eight rounds of the reflected CRC-32 shift register (polynomial `0xEDB88320`). -/
def crcShift : ℕ → ℕ → ℕ
  | 0, c => c
  | k + 1, c => crcShift k (if c % 2 = 1 then c / 2 ^^^ 0xEDB88320 else c / 2)

/-- `crc32::checksum_ieee`: the CRC-32 of IEEE 802.3. -/
def checksumIeee (data : List UInt8) : UInt32 :=
  (data.foldl (fun crc b => crcShift 8 (crc ^^^ b.toNat)) 0xFFFFFFFF ^^^ 0xFFFFFFFF).toUInt32

/-! ## UTF-8 -/

/-- A UTF-8 continuation byte. -/
def isCont (b : UInt8) : Bool := 0x80 ≤ b && b ≤ 0xBF

/-- `std::str::from_utf8(bytes).is_ok()`: the bytes are well-formed UTF-8. -/
def utf8Valid : List UInt8 → Bool
  | [] => true
  | b :: rest =>
    if b ≤ 0x7F then utf8Valid rest
    else if 0xC2 ≤ b && b ≤ 0xDF then
      match rest with
      | c :: r => isCont c && utf8Valid r
      | [] => false
    else if 0xE0 ≤ b && b ≤ 0xEF then
      match rest with
      | c1 :: c2 :: r =>
        (if b = 0xE0 then 0xA0 ≤ c1 && c1 ≤ 0xBF
         else if b = 0xED then 0x80 ≤ c1 && c1 ≤ 0x9F else isCont c1) &&
          isCont c2 && utf8Valid r
      | _ => false
    else if 0xF0 ≤ b && b ≤ 0xF4 then
      match rest with
      | c1 :: c2 :: c3 :: r =>
        (if b = 0xF0 then 0x90 ≤ c1 && c1 ≤ 0xBF
         else if b = 0xF4 then 0x80 ≤ c1 && c1 ≤ 0x8F else isCont c1) &&
          isCont c2 && isCont c3 && utf8Valid r
      | _ => false
    else false

/-- A Rust `String`: its bytes, which are valid UTF-8. -/
structure Str where
  bytes : List UInt8
  valid : utf8Valid bytes = true
  deriving DecidableEq

end TerminusStore
