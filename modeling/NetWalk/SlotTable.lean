import NetWalk.BitOperations

/-!
# Rows of fixed width in a flat array

A table of `c` rows of `w` bytes is one array, and row `k` starts at byte
`k * w`. `slot` cuts a row out. Reading a byte or a bit of a row by its index in
the array reads the row, and writing replaces that row and no other; the lemmas
are stated in the form that index expressions have in C.
-/
namespace NetWalk.SlotTable
open ByteBlock BitOperations
variable {w c : ℕ}

/-- Row `k` of the table. -/
def slot (b : Block (w * c)) (k : ℕ) : Block w := b.slice (w * k) w

theorem byte_slot (b : Block (w * c)) (k : ℕ) {i : ℕ} (hi : i < w) :
    (slot b k).byte i = b.byte (w * k + i) := Block.byte_slice b hi

theorem byte_outside {n : ℕ} (b : Block n) {k : ℕ} (hk : n ≤ k) : b.byte k = 0 := by
  rw [Block.byte, dif_neg (by omega)]

theorem bit_outside {n : ℕ} (b : Block n) {q : ℕ} (hq : 8 * n ≤ q) : bit b q = false := by
  rw [bit, byte_outside b (by omega), byteBit]
  exact BitVec.getLsbD_zero

theorem bit_slot (b : Block (w * c)) (k : ℕ) {q : ℕ} (hq : q < 8 * w) :
    bit (slot b k) q = bit b (8 * (w * k) + q) := by
  rw [bit, bit, byte_slot b k (by omega), show (8 * (w * k) + q) / 8 = w * k + q / 8 by omega,
    show (8 * (w * k) + q) % 8 = q % 8 by omega]

/-- A position in a row is a position in the array. -/
theorem index_lt {k i : ℕ} (hk : k < c) (hi : i < w) : w * k + i < w * c := by
  have h : w * (k + 1) ≤ w * c := Nat.mul_le_mul_left w hk
  rw [Nat.mul_succ] at h
  omega

theorem row_eq_iff {k j i l : ℕ} (hi : i < w) (hl : l < w) :
    w * k + i = w * j + l ↔ k = j ∧ i = l := by
  constructor
  · intro h
    have hk : k = j := by
      rcases Nat.lt_trichotomy k j with hlt | heq | hgt
      · have := index_lt hlt hi
        omega
      · exact heq
      · have := index_lt hgt hl
        omega
    subst hk
    exact ⟨rfl, by omega⟩
  · rintro ⟨rfl, rfl⟩
    rfl

theorem cast_start (w k : ℕ) : (k : ℤ) * w = ((w * k : ℕ) : ℤ) := by
  rw [Int.natCast_mul, Int.mul_comm]

theorem cast_index (w k i : ℕ) : (k : ℤ) * w + i = ((w * k + i : ℕ) : ℤ) := by
  rw [cast_start, Int.natCast_add]

theorem cast_bitIndex (w k i j : ℕ) :
    ((k : ℤ) * w + i) * 8 + j = ((8 * (w * k + i) + j : ℕ) : ℤ) := by
  rw [cast_index]
  omega

theorem row_end_le {k m : ℕ} (hk : k < c) (hm : m ≤ w) : w * k + m ≤ w * c := by
  have h : w * (k + 1) ≤ w * c := Nat.mul_le_mul_left w hk
  rw [Nat.mul_succ] at h
  omega

/-- An array is determined by its rows. -/
theorem slot_injective {b b' : Block (w * c)} (h : slot b = slot b') : b = b' := by
  apply Block.ext_byte
  intro k hk
  have hw : 0 < w := Nat.pos_of_ne_zero fun h0 => by simp [h0] at hk
  have hbyte := congrArg (fun rows => (rows (k / w)).byte (k % w)) h
  simpa only [byte_slot _ _ (Nat.mod_lt k hw), Nat.div_add_mod] using hbyte

section Reads
variable (b : Block (w * c)) {k : ℕ}

theorem read_slot (hk : k < c) {i : ℕ} (hi : i < w) {x : ℤ} (hx : x = (k : ℤ) * w + i) :
    b.read x = some ((slot b k).byte i) := by
  rw [byte_slot b k hi, hx, cast_index, Block.read_natCast b (index_lt hk hi)]

theorem readBit_slot (hk : k < c) {i j : ℕ} (hi : i < w) (hj : j < 8) {x : ℤ}
    (hx : x = ((k : ℤ) * w + i) * 8 + j) :
    readBit b x = some (bit (slot b k) (8 * i + j)) := by
  have hlt := index_lt hk hi
  rw [hx, cast_bitIndex, readBit_natCast b (by omega), bit_slot b k (by omega),
    show 8 * (w * k) + (8 * i + j) = 8 * (w * k + i) + j by omega]

theorem readSlice_slot (hk : k < c) {m : ℕ} (hm : m ≤ w) {x : ℤ} (hx : x = (k : ℤ) * w) :
    b.readSlice x m = some ((slot b k).slice 0 m) := by
  rw [hx, cast_start, Block.readSlice_natCast b (row_end_le hk hm)]
  congr 1
  apply Block.ext_byte
  intro i hi
  rw [Block.byte_slice b hi, Block.byte_slice _ hi, Nat.zero_add, byte_slot b k (by omega)]

end Reads

/-- Two arrays that agree outside row `k` have the same rows but for that one. -/
theorem slot_update {b b' : Block (w * c)} {k : ℕ} {v : Block w}
    (hrow : ∀ i < w, b'.byte (w * k + i) = v.byte i)
    (hother : ∀ j ≠ k, ∀ i < w, b'.byte (w * j + i) = b.byte (w * j + i)) :
    slot b' = Function.update (slot b) k v := by
  funext j
  apply Block.ext_byte
  intro i hi
  rw [byte_slot b' j hi]
  by_cases hj : j = k
  · subst hj
    rw [Function.update_self, hrow i hi]
  · rw [Function.update_of_ne hj, hother j hj i hi, byte_slot b j hi]

section Writes
variable (b : Block (w * c)) {k : ℕ}

theorem write_slot (hk : k < c) {i : ℕ} (hi : i < w) (v : UInt8) {x : ℤ}
    (hx : x = (k : ℤ) * w + i) :
    ∃ b', b.write x v = some b' ∧
      slot b' = Function.update (slot b) k ((slot b k).set i v) := by
  have hlt := index_lt hk hi
  refine ⟨b.set (w * k + i) v, ?_, slot_update ?_ ?_⟩
  · rw [hx, cast_index, Block.write_natCast b v hlt]
  · intro l hl
    rw [Block.byte_set b v (index_lt hk hl), Block.byte_set _ v hl, byte_slot b k hl]
    simp only [row_eq_iff hl hi, true_and]
  · intro j hj l hl
    by_cases hin : w * j + l < w * c
    · rw [Block.byte_set b v hin, if_neg]
      exact fun h => hj ((row_eq_iff hl hi).mp h).1
    · rw [byte_outside _ (by omega), byte_outside _ (by omega)]

/-- A write to byte `i` of a row that returns was to a row of the table. -/
theorem write_slot_inv {pos : ℤ} {i : ℕ} (hi : i < w) {v : UInt8} {b' : Block (w * c)}
    (h : b.write (pos * w + i) v = some b') :
    ∃ k < c, pos = (k : ℕ) ∧ slot b' = Function.update (slot b) k ((slot b k).set i v) := by
  have hin : Block.Inside (w * c) (pos * w + i) := by
    by_contra hout
    rw [Block.write_outside b v hout] at h
    cases h
  have hpos : 0 ≤ pos := by
    by_contra hneg
    have := Int.mul_le_mul_of_nonneg_right (show pos ≤ -1 by omega) (Int.natCast_nonneg w)
    have := hin.1
    omega
  obtain ⟨k, rfl⟩ := Int.eq_ofNat_of_zero_le hpos
  have hlt : w * k + i < w * c := by
    have hend := hin.2
    rw [cast_index] at hend
    exact Int.ofNat_lt.mp hend
  have hk : k < c := Nat.lt_of_mul_lt_mul_left (a := w) (by omega)
  obtain ⟨b₁, hwrite, hb₁⟩ := write_slot b hk hi v rfl
  cases h.symm.trans hwrite
  exact ⟨k, hk, rfl, hb₁⟩

theorem writeSlice_slot (hk : k < c) {m : ℕ} (hm : m ≤ w) (src : Block m) {x : ℤ}
    (hx : x = (k : ℤ) * w) :
    ∃ b', b.writeSlice x src = some b' ∧
      slot b' = Function.update (slot b) k ((slot b k).splice 0 src) := by
  refine ⟨b.splice (w * k) src, ?_, slot_update ?_ ?_⟩
  · rw [hx, cast_start, Block.writeSlice_natCast b src (row_end_le hk hm)]
  · intro l hl
    rw [Block.byte_splice b src (index_lt hk hl), Block.byte_splice _ src hl, byte_slot b k hl]
    by_cases hlm : l < m
    · rw [if_pos (by omega), if_pos (by omega), Nat.add_sub_cancel_left, Nat.sub_zero]
    · rw [if_neg (by omega), if_neg (by omega)]
  · intro j hj l hl
    by_cases hin : w * j + l < w * c
    · rw [Block.byte_splice b src hin, if_neg]
      intro h
      obtain ⟨i, hi⟩ := Nat.exists_eq_add_of_le h.1
      exact hj ((row_eq_iff hl (show i < w by omega)).mp hi).1
    · rw [byte_outside _ (by omega), byte_outside _ (by omega)]

theorem setBit_slot (hk : k < c) {i j : ℕ} (hi : i < w) (hj : j < 8) {x : ℤ}
    (hx : x = ((k : ℤ) * w + i) * 8 + j) :
    ∃ b', setBit b x = some b' ∧
      slot b' = Function.update (slot b) k (putBit (slot b k) (8 * i + j) true) := by
  have hlt := index_lt hk hi
  have hbyte : (8 * (w * k + i) + j) / 8 = w * k + i := by omega
  have hbyte' : (8 * i + j) / 8 = i := by omega
  have hflag : bitFlag ((8 * (w * k + i) + j : ℕ) : ℤ) = bitFlag ((8 * i + j : ℕ) : ℤ) := by
    apply byteBit_ext
    intro p hp
    rw [byteBit_flag _ hp, byteBit_flag _ hp, show (8 * (w * k + i) + j) % 8 = j by omega,
      show (8 * i + j) % 8 = j by omega]
  refine ⟨putBit b (8 * (w * k + i) + j) true, ?_, slot_update ?_ ?_⟩
  · rw [hx, cast_bitIndex, setBit_natCast b (by omega)]
  · intro l hl
    rw [putBit, putBit, Block.byte_set b _ (index_lt hk hl), Block.byte_set _ _ hl,
      byte_slot b k hl, hbyte, hbyte', hflag, byte_slot b k hi]
    simp only [row_eq_iff hl hi, true_and]
  · intro m hm l hl
    by_cases hin : w * m + l < w * c
    · rw [putBit, Block.byte_set b _ hin, hbyte, if_neg]
      exact fun h => hm ((row_eq_iff hl hi).mp h).1
    · rw [byte_outside _ (by omega), byte_outside _ (by omega)]

end Writes

end NetWalk.SlotTable
