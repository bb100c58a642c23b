import Mathlib.Data.Nat.Bitwise
import NetWalk.ByteBlock

/-!
# Single bits of a byte array

`set_bit`, `reset_bit` and `read_bit` number the bits of an array from the most
significant bit of byte 0 on. Positions are C `int`s: division and remainder
truncate towards zero, so a negative position also yields a shift beyond the
byte, and the mask is then zero.

For a position inside the array the three operations are reading and replacing
one entry of the bit sequence `bit`; the rest of the development uses only that.
-/
namespace NetWalk.BitOperations
open ByteBlock

/-- Bit `p` of a byte, counted from the least significant one. -/
def byteBit (v : UInt8) (p : ℕ) : Bool := v.toBitVec.getLsbD p

/-- `1 << bit_pos` as stored in a `uint8_t`. -/
def bitFlag (pos : ℤ) : UInt8 := UInt8.ofNat (1 <<< (7 - pos.tmod 8).toNat)

section Model
variable {n : ℕ}

def setBit (arr : Block n) (pos : ℤ) : Option (Block n) := do
  let bytePos := pos.tdiv 8
  let v ← arr.read bytePos
  arr.write bytePos (v ||| bitFlag pos)

def resetBit (arr : Block n) (pos : ℤ) : Option (Block n) := do
  let bytePos := pos.tdiv 8
  let v ← arr.read bytePos
  arr.write bytePos (v &&& ~~~bitFlag pos)

def readBit (arr : Block n) (pos : ℤ) : Option Bool := do
  let v ← arr.read (pos.tdiv 8)
  some (bitFlag pos &&& v != 0)

end Model

/-- Bit `q` of the array. -/
def bit {n : ℕ} (b : Block n) (q : ℕ) : Bool := byteBit (b.byte (q / 8)) (7 - q % 8)

/-- The array with bit `q` replaced. -/
def putBit {n : ℕ} (b : Block n) (q : ℕ) (x : Bool) : Block n :=
  b.set (q / 8) (if x then b.byte (q / 8) ||| bitFlag q else b.byte (q / 8) &&& ~~~bitFlag q)

theorem byteBit_ext {v w : UInt8} (h : ∀ p < 8, byteBit v p = byteBit w p) : v = w := by
  apply UInt8.toBitVec_inj.mp
  exact BitVec.eq_of_getLsbD_eq h

theorem byteBit_flag (q : ℕ) {p : ℕ} (hp : p < 8) :
    byteBit (bitFlag q) p = decide (p = 7 - q % 8) := by
  have hshift : (7 - (q : ℤ).tmod 8).toNat = 7 - q % 8 := by
    rw [Int.tmod_eq_emod_of_nonneg (by omega)]
    omega
  simp only [byteBit, bitFlag, hshift, UInt8.toBitVec_ofNat', BitVec.getLsbD_ofNat,
    Nat.one_shiftLeft, Nat.testBit_two_pow, hp, decide_true, Bool.true_and]
  simp only [eq_comm]

theorem byteBit_or (v w : UInt8) (p : ℕ) :
    byteBit (v ||| w) p = (byteBit v p || byteBit w p) := by
  simp [byteBit]

theorem byteBit_and_not (v w : UInt8) {p : ℕ} (hp : p < 8) :
    byteBit (v &&& ~~~w) p = (byteBit v p && !byteBit w p) := by
  simp [byteBit, hp]

theorem flag_and_ne_zero (v : UInt8) (q : ℕ) :
    (bitFlag q &&& v != 0) = byteBit v (7 - q % 8) := by
  have hbit : ∀ p < 8, byteBit (bitFlag q &&& v) p =
      (decide (p = 7 - q % 8) && byteBit v p) := by
    intro p hp
    rw [← byteBit_flag q hp]
    simp [byteBit]
  have hzero : ∀ p, byteBit 0 p = false := by simp [byteBit]
  rw [Bool.eq_iff_iff, bne_iff_ne, Ne, ← Bool.not_eq_false, not_iff_not]
  constructor
  · intro h
    have := hbit (7 - q % 8) (by omega)
    rw [h, hzero] at this
    simpa using this.symm
  · intro h
    apply byteBit_ext
    intro p hp
    rw [hbit p hp, hzero]
    by_cases he : p = 7 - q % 8
    · simp [he, h]
    · simp [he]

section Specs
variable {n : ℕ} (b : Block n)

theorem bytePos_natCast (q : ℕ) : (q : ℤ).tdiv 8 = ((q / 8 : ℕ) : ℤ) := by
  rw [Int.tdiv_eq_ediv_of_nonneg (by omega)]
  rfl

theorem readBit_natCast {q : ℕ} (hq : q < 8 * n) : readBit b q = some (bit b q) := by
  simp only [readBit, bytePos_natCast, Block.read_natCast b (show q / 8 < n by omega),
    Option.bind_eq_bind, Option.bind_some, flag_and_ne_zero, bit]

theorem setBit_natCast {q : ℕ} (hq : q < 8 * n) : setBit b q = some (putBit b q true) := by
  have hb : q / 8 < n := by omega
  simp only [setBit, bytePos_natCast, Block.read_natCast b hb, Option.bind_eq_bind,
    Option.bind_some, Block.write_natCast b _ hb, putBit, if_true]

theorem resetBit_natCast {q : ℕ} (hq : q < 8 * n) :
    resetBit b q = some (putBit b q false) := by
  have hb : q / 8 < n := by omega
  simp only [resetBit, bytePos_natCast, Block.read_natCast b hb, Option.bind_eq_bind,
    Option.bind_some, Block.write_natCast b _ hb, putBit, Bool.false_eq_true, if_false]

theorem bit_putBit {q r : ℕ} (x : Bool) (hr : r < 8 * n) :
    bit (putBit b q x) r = if r = q then x else bit b r := by
  have hb : r / 8 < n := by omega
  simp only [bit, putBit, Block.byte_set b _ hb]
  by_cases hbyte : r / 8 = q / 8
  · rw [if_pos hbyte, ← hbyte]
    have hp : 7 - r % 8 < 8 := by omega
    have hsame : 7 - r % 8 = 7 - q % 8 ↔ r = q := by omega
    cases x with
    | true =>
      rw [if_pos rfl, byteBit_or, byteBit_flag q hp]
      simp only [hsame]
      split_ifs with he <;> simp [he]
    | false =>
      rw [if_neg Bool.false_ne_true, byteBit_and_not _ _ hp, byteBit_flag q hp]
      simp only [hsame]
      split_ifs with he <;> simp [he]
  · rw [if_neg hbyte, if_neg (fun he => hbyte (by rw [he]))]

theorem byte_putBit {q k : ℕ} (x : Bool) (hk : k < n) (hne : k ≠ q / 8) :
    (putBit b q x).byte k = b.byte k := by
  rw [putBit, Block.byte_set b _ hk, if_neg hne]

theorem bit_set {i q : ℕ} (v : UInt8) (hq : q < 8 * n) :
    bit (b.set i v) q = if q / 8 = i then byteBit v (7 - q % 8) else bit b q := by
  rw [bit, bit, Block.byte_set b v (by omega)]
  split_ifs <;> rfl

/-- A bit that is read decides between setting and resetting. -/
theorem copyBit {m q : ℕ} {src : Block m} {i j : ℤ} {x : Bool} (hread : readBit src i = some x)
    (hj : j = q) (hq : q < 8 * n) :
    (readBit src i >>= fun set => if set then setBit b j else resetBit b j) =
      some (putBit b q x) := by
  rw [hread, hj]
  cases x with
  | true => exact setBit_natCast b hq
  | false => exact resetBit_natCast b hq

/-- What the loop copies bit by bit from positions determined by the index. -/
theorem foldlM_putBit (f : Block n → ℕ → Option (Block n)) (x : ℕ → Bool) (start : ℕ)
    {length : ℕ} (hf : ∀ b, ∀ i < length, f b i = some (putBit b (start + i) (x i)))
    (hn : start + length ≤ 8 * n) :
    ∃ b', (List.range length).foldlM f b = some b' ∧ ∀ q < 8 * n,
      bit b' q = if start ≤ q ∧ q < start + length then x (q - start) else bit b q := by
  induction length with
  | zero => exact ⟨b, rfl, fun q _ => by rw [if_neg (by omega)]⟩
  | succ length ih =>
    obtain ⟨b₁, hb₁, hbit₁⟩ := ih (fun b i hi => hf b i (by omega)) (by omega)
    refine ⟨putBit b₁ (start + length) (x length), ?_, fun q hq => ?_⟩
    · rw [List.range_succ, List.foldlM_append, hb₁]
      simp [hf b₁ length (Nat.lt_succ_self _)]
    · rw [bit_putBit _ _ hq, hbit₁ q hq]
      by_cases hlast : q = start + length
      · rw [if_pos hlast, if_pos (by omega), hlast, Nat.add_sub_cancel_left]
      · rw [if_neg hlast]
        by_cases hin : start ≤ q ∧ q < start + length
        · rw [if_pos hin, if_pos (by omega)]
        · rw [if_neg hin, if_neg (by omega)]

end Specs

section Packing

/-- Byte `i` of a sequence of bits. -/
def packByte (x : ℕ → Bool) (i : ℕ) : UInt8 :=
  UInt8.ofNat (Nat.ofBits fun p : Fin 8 => x (8 * i + (7 - p)))

def pack {n : ℕ} (x : ℕ → Bool) : Block n := Block.ofFn (packByte x)

variable (x : ℕ → Bool)

theorem byteBit_packByte (i : ℕ) {p : ℕ} (hp : p < 8) :
    byteBit (packByte x i) p = x (8 * i + (7 - p)) := by
  rw [byteBit, packByte, UInt8.toBitVec_ofNat', BitVec.getLsbD_ofNat, Nat.testBit_ofBits_lt _ _ hp,
    decide_eq_true hp, Bool.true_and]

theorem bit_pack {n q : ℕ} (hq : q < 8 * n) : bit (pack x : Block n) q = x q := by
  rw [bit, pack, Block.byte_ofFn (by omega), byteBit_packByte _ _ (by omega)]
  congr 1
  omega

theorem byteBit_byte {n : ℕ} (b : Block n) (i : ℕ) {p : ℕ} (hp : p < 8) :
    byteBit (b.byte i) p = bit b (8 * i + (7 - p)) := by
  rw [bit, show (8 * i + (7 - p)) / 8 = i by omega,
    show 7 - (8 * i + (7 - p)) % 8 = p by omega]

/-- A byte is what its bits in the array say. -/
theorem byte_eq_packByte {n : ℕ} {b : Block n} {i j : ℕ}
    (h : ∀ q < 8, bit b (8 * i + q) = x (8 * j + q)) : b.byte i = packByte x j := by
  apply byteBit_ext
  intro p hp
  rw [byteBit_packByte _ _ hp, ← h (7 - p) (by omega), byteBit_byte _ _ hp]

end Packing

theorem bit_eq_of_byte_eq {n m : ℕ} {a : Block n} {b : Block m} {q : ℕ}
    (h : a.byte (q / 8) = b.byte (q / 8)) : bit a q = bit b q := by
  simp only [bit, h]

end NetWalk.BitOperations
