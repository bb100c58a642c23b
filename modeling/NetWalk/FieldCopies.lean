import NetWalk.ModifyEntry

/-!
# Copying a field of an entry

`extract_field` and `replace_field` copy a range of bits of one entry to and from the
front of another array. Both do so as long as the range lies inside the table and its
positions do not overflow an `int`, and touch no other bit.
-/
namespace NetWalk.FieldCopies
open ByteBlock BitOperations SlotTable FlowTables ModifyEntry
variable {n m e s len : ℕ} {endBit : ℤ}

theorem passes_eq (hend : endBit + 1 = (s + len : ℕ)) : (endBit + 1 - s).toNat = len := by
  omega

theorem checkedInt_natCast {k : ℕ} (hk : k ≤ intMax) : checkedInt k = some (k : ℤ) :=
  if_pos ⟨by omega, Int.ofNat_le.mpr hk⟩

theorem checkedInt_inv {x y : ℤ} (h : checkedInt x = some y) : y = x ∧ y ≤ intMax := by
  rw [checkedInt] at h
  split_ifs at h with hin
  cases h
  exact ⟨rfl, hin.2⟩

/-- The positions of the `len` bits from `s` on of entry `e`, and the last value of the loop
variable, are `int`s. -/
structure PositionsFit (e s len : ℕ) : Prop where
  table : 8 * (actnStLen * e) + s + len ≤ intMax + 1
  passes : s + len ≤ intMax

theorem positionsFit_of_le {k : ℕ} (h : 8 * (actnStLen * e) + s + len ≤ k) (hk : k ≤ intMax) :
    PositionsFit e s len := ⟨by omega, by omega⟩

theorem fieldBit_natCast {i : ℕ} (h : 8 * (actnStLen * e) + s + i ≤ intMax) :
    fieldBit e (s + i) = some ((8 * (actnStLen * e) + s + i : ℕ) : ℤ) := by
  have hbyte := checkedInt_natCast (show actnStLen * e ≤ intMax by omega)
  have hbit := checkedInt_natCast (show 8 * (actnStLen * e) ≤ intMax by omega)
  have hpos := checkedInt_natCast h
  rw [fieldBit, cast_start, bind_some_eq hbyte,
    show ((actnStLen * e : ℕ) : ℤ) * 8 = ((8 * (actnStLen * e) : ℕ) : ℤ) by omega,
    bind_some_eq hbit, show ((8 * (actnStLen * e) : ℕ) : ℤ) + (s + i) =
      ((8 * (actnStLen * e) + s + i : ℕ) : ℤ) by omega]
  exact hpos

/-- Where the position is an `int`, it is the one meant. -/
theorem fieldBit_inv {entryNo i pos : ℤ} (h : fieldBit entryNo i = some pos) :
    pos = entryNo * actnStLen * 8 + i ∧ pos ≤ intMax := by
  obtain ⟨firstByte, hbyte, h⟩ := bind_inv h
  obtain ⟨firstBit, hbit, hpos⟩ := bind_inv h
  rw [(checkedInt_inv hbyte).1] at hbit
  rw [(checkedInt_inv hbit).1] at hpos
  exact checkedInt_inv hpos

/-- One pass comes to its access where positions do not overflow. -/
theorem pass_eq {α : Type} (hfit : PositionsFit e s len) {i : ℕ} (hi : i < len)
    (f : ℤ → Option α) :
    (fieldBit e (s + i) >>= fun pos => checkedInt (s + i + 1) >>= fun _ => f pos) =
      f (8 * (actnStLen * e) + s + i : ℕ) := by
  have htable := hfit.table
  have hpasses := hfit.passes
  have hnext := checkedInt_natCast (show s + i + 1 ≤ intMax by omega)
  rw [bind_some_eq (fieldBit_natCast (by omega))]
  exact bind_some_eq hnext

theorem extractField_spec (table : Block n) (val : Block m) (hend : endBit + 1 = (s + len : ℕ))
    (hfit : PositionsFit e s len) (htable : 8 * (actnStLen * e) + s + len ≤ 8 * n)
    (hval : len ≤ 8 * m) :
    ∃ val', extractField table e s endBit val = some val' ∧ ∀ q < 8 * m,
      bit val' q = if q < len then bit table (8 * (actnStLen * e) + s + q) else bit val q := by
  obtain ⟨val', hval', hbits⟩ := foldlM_putBit val
    (fun val (i : ℕ) => do
      let pos ← fieldBit e (s + i)
      let _ ← checkedInt (s + i + 1)
      if ← readBit table pos then setBit val i
      else resetBit val i)
    (fun i => bit table (8 * (actnStLen * e) + s + i)) 0
    (fun val i hi => (pass_eq hfit hi _).trans
      (copyBit val (readBit_natCast table (by omega)) (by omega) (by omega)))
    (show 0 + len ≤ 8 * m by omega)
  refine ⟨val', ?_, fun q hq => ?_⟩
  · rw [extractField, passes_eq hend]
    exact hval'
  · rw [hbits q hq]
    simp only [Nat.zero_le, true_and, Nat.zero_add, Nat.sub_zero]

theorem replaceField_spec (table : Block n) (val : Block m) (hend : endBit + 1 = (s + len : ℕ))
    (hfit : PositionsFit e s len) (htable : 8 * (actnStLen * e) + s + len ≤ 8 * n)
    (hval : len ≤ 8 * m) :
    ∃ table', replaceField table e s endBit val = some table' ∧ ∀ q < 8 * n,
      bit table' q =
        if 8 * (actnStLen * e) + s ≤ q ∧ q < 8 * (actnStLen * e) + s + len then
          bit val (q - (8 * (actnStLen * e) + s))
        else bit table q := by
  obtain ⟨table', htable', hbits⟩ := foldlM_putBit table
    (fun table (i : ℕ) => do
      let pos ← fieldBit e (s + i)
      let _ ← checkedInt (s + i + 1)
      if ← readBit val i then setBit table pos
      else resetBit table pos)
    (bit val) (8 * (actnStLen * e) + s)
    (fun table i hi => (pass_eq hfit hi _).trans
      (copyBit table (readBit_natCast val (by omega)) rfl (by omega)))
    htable
  refine ⟨table', ?_, hbits⟩
  rw [replaceField, passes_eq hend]
  exact htable'

/-- Replacing a field of a row changes that field, and no other row. -/
theorem replaceField_slot {c : ℕ} (b : Block (actnStLen * c)) (val : Block m) (he : e < c)
    (hend : endBit + 1 = (s + len : ℕ)) (hrow : s + len ≤ 8 * actnStLen)
    (hfit : 8 * (actnStLen * c) ≤ intMax) (hval : len ≤ 8 * m) :
    ∃ b', replaceField b e s endBit val = some b' ∧ (∀ j ≠ e, slot b' j = slot b j) ∧
      ∀ q < 8 * actnStLen, bit (slot b' e) q =
        if s ≤ q ∧ q < s + len then bit val (q - s) else bit (slot b e) q := by
  have hin := row_end_le he (le_refl actnStLen)
  have hend_le : 8 * (actnStLen * e) + s + len ≤ 8 * (actnStLen * c) := by omega
  obtain ⟨b', hreplace, hbits⟩ := replaceField_spec b val hend (positionsFit_of_le hend_le hfit)
    hend_le hval
  refine ⟨b', hreplace, fun j hj => ext_bit fun q hq => ?_, fun q hq => ?_⟩
  · rw [bit_slot _ _ hq, bit_slot _ _ hq]
    rcases Nat.lt_or_ge (8 * (actnStLen * j) + q) (8 * (actnStLen * c)) with hlt | hge
    · rw [hbits _ hlt, if_neg]
      rcases Nat.lt_or_gt_of_ne hj with hbefore | hbehind
      · have := Nat.mul_le_mul_left actnStLen hbefore
        rw [Nat.mul_succ] at this
        omega
      · have := Nat.mul_le_mul_left actnStLen hbehind
        rw [Nat.mul_succ] at this
        omega
    · rw [bit_outside _ hge, bit_outside _ hge]
  · rw [bit_slot _ _ hq, bit_slot _ _ hq, hbits _ (by omega)]
    by_cases hfield : s ≤ q ∧ q < s + len
    · rw [if_pos hfield, if_pos (by omega)]
      congr 1
      omega
    · rw [if_neg hfield, if_neg (by omega)]

/-- A range that ends beyond the table is not read, be it for an overflow. -/
theorem extractField_overrun (table : Block n) (val : Block m) (hlen : 0 < len)
    (hend : endBit + 1 = (s + len : ℕ)) (hout : 8 * n < 8 * (actnStLen * e) + s + len) :
    extractField table e s endBit val = none := by
  have hlast : ∀ (val : Block m), (do
      let pos ← fieldBit e (s + (len - 1 : ℕ))
      let _ ← checkedInt (s + (len - 1 : ℕ) + 1)
      if ← readBit table pos then setBit val (len - 1 : ℕ)
      else resetBit val (len - 1 : ℕ)) = none := by
    intro val
    refine Option.bind_eq_none_iff.mpr fun pos hpos => ?_
    refine Option.bind_eq_none_iff.mpr fun _ _ => ?_
    have hread : readBit table pos = none := by
      rw [(fieldBit_inv hpos).1, cast_start,
        show ((actnStLen * e : ℕ) : ℤ) * 8 + (s + (len - 1 : ℕ)) =
          ((8 * (actnStLen * e) + s + (len - 1) : ℕ) : ℤ) by omega,
        readBit, bytePos_natCast, Block.read, if_neg (by omega)]
      rfl
    rw [hread]
    rfl
  rw [extractField, passes_eq hend, ← Nat.sub_add_cancel hlen, List.range_succ,
    List.foldlM_append]
  refine Option.bind_eq_none_iff.mpr fun val₁ _ => ?_
  rw [List.foldlM_cons, hlast val₁]
  rfl

/-- Nor is anything replaced where the last position overflows. -/
theorem replaceField_overflow (table : Block n) (val : Block m) (hlen : 0 < len)
    (hend : endBit + 1 = (s + len : ℕ)) (hout : intMax + 1 < 8 * (actnStLen * e) + s + len) :
    replaceField table e s endBit val = none := by
  have hlast : fieldBit e (s + (len - 1 : ℕ)) = none := by
    refine Option.eq_none_iff_forall_ne_some.mpr fun pos hpos => ?_
    obtain ⟨hpos, hle⟩ := fieldBit_inv hpos
    rw [cast_start] at hpos
    omega
  rw [replaceField, passes_eq hend, ← Nat.sub_add_cancel hlen, List.range_succ,
    List.foldlM_append]
  refine Option.bind_eq_none_iff.mpr fun table₁ _ => ?_
  rw [List.foldlM_cons, hlast]
  rfl

/-- `dst'` is `dst` with the `len` bits from `j` on taken from `src`, from `i` on. -/
structure BitsCopied (src : Block m) (i : ℕ) (dst dst' : Block n) (j len : ℕ) : Prop where
  copied : ∀ k < len, bit dst' (j + k) = bit src (i + k)
  kept : ∀ q, q < j ∨ j + len ≤ q → bit dst' q = bit dst q

/-- Bits copied twice are those of the first array. -/
theorem BitsCopied.trans {l i j k : ℕ} {src : Block m} {mid mid' : Block n}
    {dst dst' : Block l} (h₁ : BitsCopied src i mid mid' j len)
    (h₂ : BitsCopied mid' j dst dst' k len) : BitsCopied src i dst dst' k len where
  copied r hr := (h₂.copied r hr).trans (h₁.copied r hr)
  kept := h₂.kept

/-- Bits copied out and back are where they were. -/
theorem BitsCopied.back {i j : ℕ} {src src' : Block m} {dst dst' : Block n}
    (hout : BitsCopied src i dst dst' j len) (hback : BitsCopied dst' j src src' i len) :
    src' = src := by
  refine ext_bit fun q _ => ?_
  by_cases hq : q < i ∨ i + len ≤ q
  · exact hback.kept q hq
  · obtain ⟨k, rfl⟩ := Nat.exists_eq_add_of_le (show i ≤ q by omega)
    exact (hout.trans hback).copied k (by omega)

theorem bitsCopied_of {i j : ℕ} {src : Block m} {dst dst' : Block n}
    (hbits : ∀ q < 8 * n, bit dst' q =
      if j ≤ q ∧ q < j + len then bit src (i + (q - j)) else bit dst q)
    (hin : j + len ≤ 8 * n) : BitsCopied src i dst dst' j len where
  copied k hk := by rw [hbits _ (by omega), if_pos (by omega), Nat.add_sub_cancel_left]
  kept q hq := by
    rcases Nat.lt_or_ge q (8 * n) with hlt | hge
    · rw [hbits q hlt, if_neg (by omega)]
    · rw [bit_outside _ hge, bit_outside _ hge]

theorem extractField_copies (table : Block n) (val : Block m)
    (hend : endBit + 1 = (s + len : ℕ)) (hfit : PositionsFit e s len)
    (htable : 8 * (actnStLen * e) + s + len ≤ 8 * n) (hval : len ≤ 8 * m) :
    ∃ val', extractField table e s endBit val = some val' ∧
      BitsCopied table (8 * (actnStLen * e) + s) val val' 0 len := by
  obtain ⟨val', hextract, hbits⟩ := extractField_spec table val hend hfit htable hval
  refine ⟨val', hextract, bitsCopied_of (fun q hq => ?_) (by omega)⟩
  rw [hbits q hq]
  simp only [Nat.zero_le, true_and, Nat.zero_add, Nat.sub_zero]

theorem replaceField_copies (table : Block n) (val : Block m)
    (hend : endBit + 1 = (s + len : ℕ)) (hfit : PositionsFit e s len)
    (htable : 8 * (actnStLen * e) + s + len ≤ 8 * n) (hval : len ≤ 8 * m) :
    ∃ table', replaceField table e s endBit val = some table' ∧
      BitsCopied val 0 table table' (8 * (actnStLen * e) + s) len := by
  obtain ⟨table', hreplace, hbits⟩ := replaceField_spec table val hend hfit htable hval
  refine ⟨table', hreplace, bitsCopied_of (fun q hq => ?_) htable⟩
  rw [hbits q hq, Nat.zero_add]

/-- The bits `s, ..., t` of entry `e` can be replaced and extracted: the one undoes the
other, and neither touches a further bit. -/
structure InverseAndLocal (table : Block n) (val : Block m) (e s t : ℕ) : Prop where
  replaced : ∃ table', replaceField table e s t val = some table' ∧
    BitsCopied val 0 table table' (8 * (actnStLen * e) + s) (t - s + 1) ∧
    ∀ {l : ℕ} (out : Block l), t - s + 1 ≤ 8 * l →
      ∃ out', extractField table' e s t out = some out' ∧
        BitsCopied val 0 out out' 0 (t - s + 1)
  extracted : ∀ {l : ℕ} (out : Block l), t - s + 1 ≤ 8 * l →
    ∃ out', extractField table e s t out = some out' ∧
      replaceField table e s t out' = some table

/-- In a table of any size, as long as the position of the last bit is an `int`. -/
theorem replace_extract_inverse (table : Block n) (val : Block m) {e s t : ℕ} (hst : s ≤ t)
    (hentry : t < 8 * actnStLen) (htable : 8 * (actnStLen * e) + t < 8 * n)
    (hval : t - s + 1 ≤ 8 * m) (hint : 8 * (actnStLen * e) + t ≤ intMax) :
    InverseAndLocal table val e s t := by
  have hend : (t : ℤ) + 1 = (s + (t - s + 1) : ℕ) := by omega
  have hin : 8 * (actnStLen * e) + s + (t - s + 1) ≤ 8 * n := by omega
  have hfit : PositionsFit e s (t - s + 1) := by
    have : 8 * actnStLen ≤ intMax := by decide
    exact ⟨by omega, by omega⟩
  constructor
  · obtain ⟨table', hreplace, hcopied⟩ := replaceField_copies table val hend hfit hin hval
    refine ⟨table', hreplace, hcopied, fun out hout => ?_⟩
    obtain ⟨out', hextract, hback⟩ := extractField_copies table' out hend hfit hin hout
    exact ⟨out', hextract, hcopied.trans hback⟩
  · intro l out hout
    obtain ⟨out', hextract, hcopied⟩ := extractField_copies table out hend hfit hin hout
    obtain ⟨table', hreplace, hback⟩ := replaceField_copies table out' hend hfit hin hout
    rw [hcopied.back hback] at hreplace
    exact ⟨out', hextract, hreplace⟩

def twoRows : Block (actnStLen * 2) := Block.ofFn fun _ => 0

def fullByte : Block 1 := Block.ofFn fun _ => 255

/-- The IPv4 ToS of entry 1 lies across a byte boundary. -/
theorem ipv4_tos_replaced : InverseAndLocal twoRows fullByte 1 198 203 :=
  replace_extract_inverse twoRows fullByte (show 198 ≤ 203 by decide) (by decide) (by decide)
    (by decide) (by decide)

/-- Bit 64 of entry 8659208 of a table that has this entry: its position is 2147483648. -/
theorem large_table_overflows :
    let table : Block (actnStLen * 8659209) := Block.ofFn fun _ => 0
    64 < 8 * actnStLen ∧ 8 * (actnStLen * 8659208) + 64 < 8 * (actnStLen * 8659209) ∧
      ¬ InverseAndLocal table fullByte 8659208 64 64 := by
  intro table
  refine ⟨by decide, by decide, fun h => ?_⟩
  obtain ⟨table', hreplace, -⟩ := h.replaced
  have hnone := replaceField_overflow (e := 8659208) (s := 64) table fullByte Nat.one_pos
    (show ((64 : ℕ) : ℤ) + 1 = (64 + 1 : ℕ) by rfl) (by decide)
  cases hnone.symm.trans hreplace

end NetWalk.FieldCopies
