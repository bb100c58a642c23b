import NetWalk.FieldCopies

/-!
# The branches of a modify

The branches of `modify_entry` share one running offset into the new values: a field is
taken from behind the fields selected before it. `Modified` is what the branches passed
have made of the tables: in the row modified, the fields selected have got their slices
and all other bits stay. A branch whose slice the new values do not hold reads beyond
their end.
-/
namespace NetWalk.ModifyBranches
open ByteBlock BitOperations SlotTable FlowTables FlowSearch ModifyEntry FieldCopies

/-- The width of the field that flag bit `k` selects. -/
def width : ℕ → ℕ
  | 1 | 2 => 48
  | 3 => 12
  | 4 | 6 => 3
  | 5 => 20
  | 7 | 8 => 32
  | 9 => 6
  | 10 | 11 => 16
  | 12 | 13 | 14 | 15 => 8
  | _ => 0

/-- Its first bit: in the action set up to flag bit 12, then in the flow entry. -/
def fieldStart : ℕ → ℕ
  | 2 => 48
  | 3 => 96
  | 4 => 108
  | 5 => 111
  | 6 => 131
  | 7 => 134
  | 8 => 166
  | 9 => 198
  | 10 => 204
  | 11 => 220
  | 12 => 240
  | 13 => 360
  | 14 => 368
  | 15 => 376
  | _ => 0

abbrev InField (k q : ℕ) : Prop := fieldStart k ≤ q ∧ q < fieldStart k + width k

/-- Flag bit `k` is set, and it is looked at: bit 0 switches the action set off. -/
def selected (flag : Block 2) (k : ℕ) : Bool := bit flag k && (decide (13 ≤ k) || !bit flag 0)

/-- Where the slice for flag bit `k` starts in the new values. -/
def sliceStart (flag : Block 2) : ℕ → ℕ
  | 0 => 0
  | k + 1 => sliceStart flag k + if selected flag k = true then width k else 0

section Decoding
variable {len w : ℕ}

/-- The selected fields among `lo, ..., hi - 1` have got their slices of the new values, and
all other bits are the old ones. -/
structure Decoded (flag : Block 2) (newValues : Block len) (lo hi : ℕ) (old row : Block w) :
    Prop where
  fields : ∀ k, lo ≤ k → k < hi → selected flag k = true → ∀ q < width k,
    bit row (fieldStart k + q) = bit newValues (sliceStart flag k + q)
  others : ∀ q < 8 * w, (∀ k, lo ≤ k → k < hi → selected flag k = true → ¬ InField k q) →
    bit row q = bit old q

variable {flag : Block 2} {newValues : Block len} {lo k : ℕ} {old row row' : Block w}

theorem Decoded.start (h : k ≤ lo) : Decoded flag newValues lo k old old :=
  ⟨fun i hlo hi => absurd hi (by omega), fun _ _ _ => rfl⟩

theorem Decoded.skip (h : Decoded flag newValues lo k old row)
    (hskip : lo ≤ k → selected flag k = false) : Decoded flag newValues lo (k + 1) old row := by
  refine ⟨fun i hlo hi hsel => ?_, fun q hq hout => h.others q hq fun i hlo hi =>
    hout i hlo (by omega)⟩
  rcases Nat.lt_succ_iff_lt_or_eq.mp hi with hlt | rfl
  · exact h.fields i hlo hlt hsel
  · rw [hskip hlo] at hsel
    cases hsel

/-- One more field has been replaced, behind those before it. -/
theorem Decoded.replace (h : Decoded flag newValues lo k old row) (hlo : lo ≤ k)
    (hsel : selected flag k = true)
    (hbehind : ∀ i, lo ≤ i → i < k → fieldStart i + width i ≤ fieldStart k)
    (hroom : fieldStart k + width k ≤ 8 * w)
    (hrow : ∀ q < 8 * w, bit row' q = if InField k q then
      bit newValues (sliceStart flag k + (q - fieldStart k)) else bit row q) :
    Decoded flag newValues lo (k + 1) old row' := by
  constructor
  · intro i hlo hi hi' q hq
    rcases Nat.lt_succ_iff_lt_or_eq.mp hi with hlt | rfl
    · have := hbehind i hlo hlt
      rw [hrow _ (by omega), if_neg (by omega)]
      exact h.fields i hlo hlt hi' q hq
    · rw [hrow _ (by omega), if_pos (by omega), Nat.add_sub_cancel_left]
  · intro q hq hout
    rw [hrow q hq, if_neg (hout k hlo (Nat.lt_succ_self k) hsel)]
    exact h.others q hq fun i hlo hi => hout i hlo (by omega)

end Decoding

section Branches
variable {len : ℕ} (flag : Block 2) (newValues : Block len) (pos : ℤ)

/-- How the branch for flag bit `k` stores a field of one byte. -/
def storeField (k : ℕ) : TcamUnit → UInt8 → Option TcamUnit :=
  if k = 12 then storeOutputPort pos
  else if k = 14 then storeCounter pos
  else storeFlowByte pos (32 + k : ℕ)

/-- The branch for flag bit `k`, from 1 to 15. -/
def branch (s : Modifying) (k : ℕ) : Option Modifying :=
  if k < 12 then modifyField flag newValues pos k (fieldStart k) (fieldStart k + width k - 1 : ℕ) s
  else modifyByte flag newValues k (storeField pos k) s

/-- The first branch that is come to. -/
def firstBranch (flag : Block 2) : ℕ := if bit flag 0 = true then 13 else 1

/-- All branches from the first one on. -/
def branches (s : Modifying) : Option Modifying :=
  (List.range' (firstBranch flag) (16 - firstBranch flag)).foldlM (branch flag newValues pos) s

theorem firstBranch_cases (flag : Block 2) :
    (firstBranch flag = 13 ∧ bit flag 0 = true) ∨ (firstBranch flag = 1 ∧ bit flag 0 = false) := by
  rw [firstBranch]
  cases bit flag 0 with
  | true => exact .inl ⟨rfl, rfl⟩
  | false => exact .inr ⟨rfl, rfl⟩

theorem firstBranch_skips (flag : Block 2) {i : ℕ} (hi : i < firstBranch flag) :
    selected flag i = false := by
  rcases firstBranch_cases flag with ⟨hfirst, hdrop⟩ | ⟨hfirst, hdrop⟩
  · simp [selected, hdrop, show ¬ 13 ≤ i by omega]
  · obtain rfl : i = 0 := by omega
    rw [selected, hdrop, Bool.false_and]

theorem branch_unset (s : Modifying) {k : ℕ} (hk : k < 16) (hbit : bit flag k = false) :
    branch flag newValues pos s k = some s := by
  have hread := readBit_natCast flag (show k < 8 * 2 from hk)
  rw [hbit] at hread
  rw [branch]
  split_ifs
  · exact bind_some_of hread rfl
  · exact bind_some_of hread rfl

/-- After the search, `modify_entry` goes through the branches. -/
theorem modifyEntry_eq {tcam found : TcamUnit} {matchFields : Block mtchFldLen} {maskPos : ℤ}
    (hfound : searchTcam tcam matchFields 0 = some (pos, found, maskPos)) (hpos : pos ≠ strErr)
    (val : Block 6) :
    modifyEntry tcam matchFields flag newValues val =
      (branches flag newValues pos ⟨found, val, 0⟩ >>= fun s =>
        finishModify flag pos s.tcam >>= fun tcam => some (pos, tcam)) := by
  have hdrop := readBit_natCast flag (show 0 < 8 * 2 by decide)
  refine (bind_some_eq hfound).trans ?_
  simp only [if_neg hpos]
  refine (bind_some_eq hdrop).trans ?_
  rw [branches, firstBranch]
  cases bit flag 0 with
  | true =>
    simp only [if_true, List.range', List.foldlM_cons, List.foldlM_nil, bind_assoc, pure_bind]
    rfl
  | false =>
    simp only [Bool.false_eq_true, if_false, List.range', List.foldlM_cons, List.foldlM_nil,
      modifyActionSet, bind_assoc, pure_bind]
    rfl

end Branches

/-- An entry with one hit less in its counter. -/
def hitBack (e : Block flwEntLen) : Block flwEntLen := e.set 46 (e.byte 46 - 1)

theorem hitBack_hitOnce (e : Block flwEntLen) : hitBack (hitOnce e) = e := by
  apply Block.ext_byte
  intro i hi
  rw [hitBack, Block.byte_set _ _ hi, hitOnce, Block.byte_set _ _ (by decide), if_pos rfl,
    UInt8.add_sub_cancel, Block.byte_set _ _ hi]
  split_ifs with h
  · rw [h]
  · rfl

theorem hitBack_set (e : Block flwEntLen) {i : ℕ} (hi : i ≠ 46) (x : UInt8) :
    hitBack (e.set i x) = (hitBack e).set i x := by
  apply Block.ext_byte
  intro j hj
  rw [hitBack, hitBack, Block.byte_set _ _ hj, Block.byte_set _ _ (by decide), if_neg hi.symm,
    Block.byte_set _ _ hj, Block.byte_set _ _ hj, Block.byte_set _ _ hj]
  split_ifs with h₁ h₂
  · omega
  · rfl
  · rfl
  · rfl

section Steps
variable {len p k : ℕ} {cur : TcamUnit} {flag : Block 2} {newValues : Block len} {s : Modifying}

/-- What the branches in front of `k` have made of the table `cur`: of row `p` they have
replaced the fields selected, with the hit of the search still to be taken back. -/
structure Modified (cur : TcamUnit) (flag : Block 2) (newValues : Block len) (p k : ℕ)
    (s : Modifying) : Prop where
  valPos : s.valPos = (sliceStart flag k : ℕ)
  tables : s.tcam =
    { cur with actionTable := s.tcam.actionTable, flowTable := s.tcam.flowTable }
  otherActions : ∀ j ≠ p, s.tcam.action j = cur.action j
  otherFlows : ∀ j ≠ p, s.tcam.flow j = cur.flow j
  action : Decoded flag newValues 1 (min k 13) (cur.action p) (s.tcam.action p)
  flow : Decoded flag newValues 13 k (hitBack (cur.flow p)) (hitBack (s.tcam.flow p))

theorem sliceStart_selected (hsel : selected flag k = true) :
    sliceStart flag (k + 1) = sliceStart flag k + width k := by
  rw [sliceStart, if_pos hsel]

theorem sliceStart_unselected (hsel : selected flag k = false) :
    sliceStart flag (k + 1) = sliceStart flag k := by
  rw [sliceStart, if_neg (by rw [hsel]; exact Bool.false_ne_true), Nat.add_zero]

theorem sliceStart_mono {i : ℕ} (h : i ≤ k) : sliceStart flag i ≤ sliceStart flag k := by
  induction k, h using Nat.le_induction with
  | base => exact le_rfl
  | succ k hk ih => exact ih.trans (Nat.le_add_right _ _)

theorem Decoded.skipAction {w : ℕ} {old row : Block w}
    (h : Decoded flag newValues 1 (min k 13) old row) (hskip : k < 13 → selected flag k = false) :
    Decoded flag newValues 1 (min (k + 1) 13) old row := by
  rcases Nat.lt_or_ge k 13 with hlt | hge
  · rw [min_eq_left hlt]
    rw [min_eq_left hlt.le] at h
    exact h.skip fun _ => hskip hlt
  · rw [min_eq_right (by omega)]
    rwa [min_eq_right hge] at h

theorem Modified.skip (hs : Modified cur flag newValues p k s) (hsel : selected flag k = false) :
    Modified cur flag newValues p (k + 1) s := by
  refine ⟨?_, hs.tables, hs.otherActions, hs.otherFlows, hs.action.skipAction fun _ => hsel,
    hs.flow.skip fun _ => hsel⟩
  rw [sliceStart_unselected hsel]
  exact hs.valPos

/-- The branches that are not come to select nothing. -/
theorem modified_start (cur : TcamUnit) (newValues : Block len) (p : ℕ) (val : Block 6)
    (hskip : ∀ i < k, selected flag i = false) : Modified cur flag newValues p k ⟨cur, val, 0⟩ := by
  induction k with
  | zero => exact ⟨rfl, rfl, fun _ _ => rfl, fun _ _ => rfl, .start (by decide), .start (by decide)⟩
  | succ k ih => exact (ih fun i hi => hskip i (by omega)).skip (hskip k (Nat.lt_succ_self k))

theorem width_le (k : ℕ) : width k ≤ 48 := by
  unfold width
  split <;> omega

/-- No slice is far from the start of the new values. -/
theorem sliceStart_le (flag : Block 2) (k : ℕ) : sliceStart flag k ≤ 48 * k := by
  induction k with
  | zero => exact le_rfl
  | succ k ih =>
    have := width_le k
    rw [sliceStart]
    split_ifs <;> omega

/-- The next slice is read into the scratch array. -/
theorem extract_slice (val : Block 6) {start endBit : ℤ} (hstart : start = (sliceStart flag k : ℕ))
    (hlt : k < 16) (hend : endBit + 1 = (sliceStart flag k + width k : ℕ))
    (hlong : sliceStart flag k + width k ≤ 8 * len) :
    ∃ val', extractField newValues 0 start endBit val = some val' ∧
      ∀ q < width k, bit val' q = bit newValues (sliceStart flag k + q) := by
  have hwidth := width_le k
  have hstart_le := sliceStart_le flag k
  have hlast : 8 * (actnStLen * 0) + sliceStart flag k + width k ≤ 48 * 16 := by omega
  obtain ⟨val', hextract, hbits⟩ := extractField_spec newValues val hend
    (positionsFit_of_le hlast (by decide))
    (show 8 * (actnStLen * 0) + sliceStart flag k + width k ≤ 8 * len by omega) hwidth
  rw [hstart]
  refine ⟨val', hextract, fun q hq => ?_⟩
  rw [hbits q (by omega), if_pos hq, Nat.mul_zero, Nat.mul_zero, Nat.zero_add]

theorem field_facts (hk : 1 ≤ k) (hlt : k < 16) :
    0 < width k ∧
      (k < 13 → fieldStart k + width k ≤ 8 * actnStLen ∧
        ∀ i, 1 ≤ i → i < k → fieldStart i + width i ≤ fieldStart k) ∧
      (13 ≤ k → fieldStart k = 8 * (32 + k) ∧ width k = 8) ∧ (12 ≤ k → width k = 8) := by
  revert k
  decide

theorem selected_read (hlt : k < 16) (hsel : selected flag k = true) :
    readBit flag k = some true := by
  rw [readBit_natCast flag (show k < 8 * 2 from hlt), ((Bool.and_eq_true _ _).mp hsel).1]

/-- A branch for a field of the action set that is moved bit by bit. -/
theorem branch_bits (hp : p < noFFlws) (hs : Modified cur flag newValues p k s) (hk : 1 ≤ k)
    (hlt : k < 12) (hsel : selected flag k = true) (hlong : sliceStart flag (k + 1) ≤ 8 * len) :
    ∃ s', branch flag newValues p s k = some s' ∧ Modified cur flag newValues p (k + 1) s' := by
  obtain ⟨hpos, haction, -, -⟩ := field_facts hk (by omega)
  obtain ⟨hroom, hbehind⟩ := haction (by omega)
  have hnext := sliceStart_selected hsel
  have hstart := hs.valPos
  obtain ⟨val', hextract, hval⟩ := extract_slice s.val hstart (by omega)
    (show s.valPos + (((fieldStart k + width k - 1 : ℕ) : ℤ) - fieldStart k) + 1 = _ by omega)
    (hnext ▸ hlong)
  obtain ⟨b, hreplace, hother, hbits⟩ := replaceField_slot s.tcam.actionTable val' hp
    (show ((fieldStart k + width k - 1 : ℕ) : ℤ) + 1 = (fieldStart k + width k : ℕ) by omega)
    hroom (by decide) (width_le k)
  refine ⟨⟨{ s.tcam with actionTable := b }, val', s.valPos +
    (((fieldStart k + width k - 1 : ℕ) : ℤ) - fieldStart k + 1)⟩, ?_, ?_, ?_, ?_, hs.otherFlows,
    ?_, hs.flow.skip fun hge => absurd hge (by omega)⟩
  · rw [branch, if_pos hlt]
    exact bind_some_of (selected_read (by omega) hsel)
      (bind_some_of hextract (bind_some_of hreplace rfl))
  · change s.valPos + _ = _
    omega
  · exact congrArg (fun tcam : TcamUnit => { tcam with actionTable := b }) hs.tables
  · exact fun j hj => (hother j hj).trans (hs.otherActions j hj)
  · have hold := hs.action
    rw [min_eq_left (show k ≤ 13 by omega)] at hold
    rw [min_eq_left (show k + 1 ≤ 13 by omega)]
    refine hold.replace hk hsel hbehind hroom fun q hq => (hbits q hq).trans ?_
    split_ifs with hin
    · exact hval _ (by omega)
    · rfl

/-- In the other branches the slice is read as one byte. -/
theorem branch_byte (hs : Modified cur flag newValues p k s) (hk : 12 ≤ k) (hlt : k < 16)
    (hsel : selected flag k = true) (hlong : sliceStart flag (k + 1) ≤ 8 * len) :
    ∃ (x : UInt8) (val' : Block 6),
      (∀ q < 8, byteBit x (7 - q) = bit newValues (sliceStart flag k + q)) ∧
      ∀ tcam', storeField p k s.tcam x = some tcam' →
        branch flag newValues p s k = some ⟨tcam', val', s.valPos + 8⟩ := by
  obtain ⟨-, -, -, hbyte⟩ := field_facts (show 1 ≤ k by omega) hlt
  have hwidth := hbyte hk
  have hnext := sliceStart_selected hsel
  have hstart := hs.valPos
  obtain ⟨val', hextract, hval⟩ := extract_slice s.val hstart hlt
    (show s.valPos + 7 + 1 = _ by omega) (hnext ▸ hlong)
  have hread := Block.read_natCast val' (show 0 < 6 by decide)
  refine ⟨val'.byte 0, val', fun q hq => ?_, fun tcam' hstore => ?_⟩
  · rw [← hval q (by omega), bit, show q / 8 = 0 by omega, show q % 8 = q by omega]
  · rw [branch, if_neg (by omega)]
    exact bind_some_of (selected_read hlt hsel)
      (bind_some_of hextract (bind_some_of hread (bind_some_of hstore rfl)))

theorem branch_port (hp : p < noFFlws) (hs : Modified cur flag newValues p 12 s)
    (hsel : selected flag 12 = true) (hlong : sliceStart flag 13 ≤ 8 * len) :
    ∃ s', branch flag newValues p s 12 = some s' ∧ Modified cur flag newValues p 13 s' := by
  obtain ⟨x, val', hx, hstore⟩ := branch_byte hs le_rfl (by decide) hsel hlong
  obtain ⟨b, hwrite, hb⟩ := write_slot s.tcam.actionTable hp (show 30 < actnStLen by decide) x
    (show (p : ℤ) * actnStLen + 30 = (p : ℤ) * actnStLen + (30 : ℕ) from rfl)
  refine ⟨_, hstore { s.tcam with actionTable := b } (bind_some_of hwrite rfl), ?_, ?_, ?_,
    hs.otherFlows, ?_, hs.flow.skip fun hge => absurd hge (by decide)⟩
  · change s.valPos + 8 = _
    rw [hs.valPos, sliceStart_selected hsel]
    rfl
  · exact congrArg (fun tcam : TcamUnit => { tcam with actionTable := b }) hs.tables
  · intro j hj
    change slot b j = _
    rw [hb, Function.update_of_ne hj]
    exact hs.otherActions j hj
  · refine Decoded.replace hs.action (by decide) hsel (by decide) (by decide) fun q hq => ?_
    change bit (slot b p) q = _
    rw [hb, Function.update_self, bit_set _ _ hq]
    have hfield : InField 12 q ↔ 240 ≤ q ∧ q < 248 := Iff.rfl
    by_cases hin : 240 ≤ q ∧ q < 248
    · rw [if_pos (by omega), if_pos (hfield.mpr hin), show q % 8 = q - 240 by omega,
        hx (q - 240) (by omega)]
      rfl
    · rw [if_neg (by omega), if_neg fun hq => hin (hfield.mp hq)]
      rfl

theorem storeFlowByte_spec (tcam : TcamUnit) (hp : p < noFFlws) {i : ℕ} (hi : i < flwEntLen)
    (x : UInt8) :
    ∃ b, storeFlowByte p (i : ℕ) tcam x = some { tcam with flowTable := b } ∧
      slot b = Function.update tcam.flow p ((tcam.flow p).set i x) := by
  obtain ⟨b, hwrite, hb⟩ := write_slot tcam.flowTable hp hi x rfl
  exact ⟨b, bind_some_of hwrite rfl, hb⟩

/-- A field of the flow entry is stored as the byte given, seen with one hit less. -/
theorem storeField_flow (tcam : TcamUnit) (hp : p < noFFlws) (hk : 13 ≤ k) (hlt : k < 16)
    (x : UInt8) :
    ∃ b, storeField p k tcam x = some { tcam with flowTable := b } ∧
      (∀ j ≠ p, slot b j = tcam.flow j) ∧
      hitBack (slot b p) = (hitBack (tcam.flow p)).set (32 + k) x := by
  have hi : 32 + k < flwEntLen := by
    change 32 + k < 48
    omega
  rw [storeField, if_neg (by omega)]
  obtain ⟨b, hstore, hb⟩ := storeFlowByte_spec tcam hp hi x
  by_cases hcounter : k = 14
  · subst hcounter
    obtain ⟨b', hcount, hb'⟩ := countHit_spec { tcam with flowTable := b } hp
    refine ⟨b', bind_some_of hstore hcount, fun j hj => ?_, ?_⟩
    · rw [hb', Function.update_of_ne hj]
      change slot b j = _
      rw [hb, Function.update_of_ne hj]
    · rw [hb', Function.update_self, hitBack_hitOnce]
      change slot b p = _
      rw [hb, Function.update_self, hitBack]
      apply Block.ext_byte
      intro j hj
      rw [Block.byte_set _ _ hj, Block.byte_set _ _ hj, Block.byte_set _ _ hj]
      split_ifs <;> rfl
  · rw [if_neg hcounter]
    refine ⟨b, hstore, fun j hj => ?_, ?_⟩
    · rw [hb, Function.update_of_ne hj]
    · rw [hb, Function.update_self, hitBack_set _ (by omega)]

theorem branch_flow (hp : p < noFFlws) (hs : Modified cur flag newValues p k s) (hk : 13 ≤ k)
    (hlt : k < 16) (hsel : selected flag k = true) (hlong : sliceStart flag (k + 1) ≤ 8 * len) :
    ∃ s', branch flag newValues p s k = some s' ∧ Modified cur flag newValues p (k + 1) s' := by
  have hplace : ∀ i, 13 ≤ i → i < 16 → fieldStart i = 8 * (32 + i) ∧ width i = 8 :=
    fun i hi hi' => (field_facts (by omega) hi').2.2.1 hi
  obtain ⟨hstart, hwidth⟩ := hplace k hk hlt
  obtain ⟨x, val', hx, hstore⟩ := branch_byte hs (by omega) hlt hsel hlong
  obtain ⟨b, hb, hother, hrow⟩ := storeField_flow s.tcam hp hk hlt x
  refine ⟨_, hstore _ hb, ?_, ?_, hs.otherActions, fun j hj => (hother j hj).trans
    (hs.otherFlows j hj), hs.action.skipAction fun h13 => absurd h13 (by omega), ?_⟩
  · change s.valPos + 8 = _
    rw [hs.valPos, sliceStart_selected hsel, hwidth]
    rfl
  · exact congrArg (fun tcam : TcamUnit => { tcam with flowTable := b }) hs.tables
  · refine hs.flow.replace hk hsel (fun i hi hik => ?_) ?_ fun q hq => ?_
    · obtain ⟨hi₁, hi₂⟩ := hplace i hi (by omega)
      omega
    · change fieldStart k + width k ≤ 8 * 48
      omega
    · change bit (hitBack (slot b p)) q = _
      rw [hrow, bit_set _ _ hq]
      by_cases hin : q / 8 = 32 + k
      · rw [if_pos hin, if_pos (by omega), show q % 8 = q - fieldStart k by omega,
          hx _ (by omega)]
      · rw [if_neg hin, if_neg (by omega)]

theorem branch_long (hp : p < noFFlws) (hs : Modified cur flag newValues p k s) (hk : 1 ≤ k)
    (hlt : k < 16) (hsel : selected flag k = true) (hlong : sliceStart flag (k + 1) ≤ 8 * len) :
    ∃ s', branch flag newValues p s k = some s' ∧ Modified cur flag newValues p (k + 1) s' := by
  rcases Nat.lt_trichotomy k 12 with hbits | rfl | hflow
  · exact branch_bits hp hs hk hbits hsel hlong
  · exact branch_port hp hs hsel hlong
  · exact branch_flow hp hs hflow hlt hsel hlong

/-- A slice that the new values do not hold is read beyond their end. -/
theorem branch_short (hs : Modified cur flag newValues p k s) (hk : 1 ≤ k) (hlt : k < 16)
    (hsel : selected flag k = true) (hshort : 8 * len < sliceStart flag (k + 1)) :
    branch flag newValues p s k = none := by
  obtain ⟨hpos, -, -, hbyte⟩ := field_facts hk hlt
  have hstart := hs.valPos
  rw [sliceStart_selected hsel] at hshort
  have hextract : ∀ endBit : ℤ, endBit + 1 = (sliceStart flag k + width k : ℕ) →
      extractField newValues 0 s.valPos endBit s.val = none := by
    intro endBit hend
    rw [hstart]
    exact extractField_overrun newValues s.val hpos hend
      (show 8 * len < 8 * (actnStLen * 0) + sliceStart flag k + width k by omega)
  rw [branch]
  split_ifs with h12
  · refine (bind_some_eq (selected_read hlt hsel)).trans ?_
    rw [if_pos rfl, hextract _ (by omega)]
    rfl
  · have hwidth := hbyte (by omega)
    refine (bind_some_eq (selected_read hlt hsel)).trans ?_
    rw [if_pos rfl, hextract _ (by omega)]
    rfl

theorem branch_unselected (hlt : k < 16) (hfirst : 13 ≤ k ∨ bit flag 0 = false)
    (hsel : selected flag k = false) : branch flag newValues p s k = some s := by
  refine branch_unset flag newValues p s hlt ?_
  rw [selected] at hsel
  rcases hfirst with hge | hdrop
  · simpa [hge] using hsel
  · simpa [hdrop] using hsel

/-- If the new values are long enough, the branches replace the fields selected. -/
theorem branches_run (hp : p < noFFlws) {j : ℕ} (hs : Modified cur flag newValues p k s)
    (hk : 1 ≤ k) (hj : k + j ≤ 16) (hfirst : 13 ≤ k ∨ bit flag 0 = false)
    (hlong : sliceStart flag (k + j) ≤ 8 * len) :
    ∃ s', (List.range' k j).foldlM (branch flag newValues p) s = some s' ∧
      Modified cur flag newValues p (k + j) s' := by
  induction j generalizing k s with
  | zero => exact ⟨s, rfl, hs⟩
  | succ j ih =>
    rw [List.range'_succ, List.foldlM_cons, show k + (j + 1) = k + 1 + j by omega]
    rw [show k + (j + 1) = k + 1 + j by omega] at hlong
    obtain ⟨s₁, hbranch, hs₁⟩ : ∃ s₁, branch flag newValues p s k = some s₁ ∧
        Modified cur flag newValues p (k + 1) s₁ := by
      cases hsel : selected flag k with
      | false => exact ⟨s, branch_unselected (by omega) hfirst hsel, hs.skip hsel⟩
      | true =>
        exact branch_long hp hs hk (by omega) hsel ((sliceStart_mono (by omega)).trans hlong)
    obtain ⟨s', hrest, hs'⟩ := ih hs₁ (by omega) (by omega) (hfirst.imp_left (by omega)) hlong
    exact ⟨s', bind_some_of hbranch hrest, hs'⟩

/-- If they are not, some branch reads beyond their end. -/
theorem branches_short (hp : p < noFFlws) {j : ℕ} (hs : Modified cur flag newValues p k s)
    (hk : 1 ≤ k) (hj : k + j ≤ 16) (hfirst : 13 ≤ k ∨ bit flag 0 = false)
    (hfits : sliceStart flag k ≤ 8 * len) (hshort : 8 * len < sliceStart flag (k + j)) :
    (List.range' k j).foldlM (branch flag newValues p) s = none := by
  induction j generalizing k s with
  | zero => exact absurd hfits (not_le.mpr hshort)
  | succ j ih =>
    rw [List.range'_succ, List.foldlM_cons]
    rw [show k + (j + 1) = k + 1 + j by omega] at hshort
    cases hsel : selected flag k with
    | false =>
      refine (bind_some_eq (branch_unselected (by omega) hfirst hsel)).trans ?_
      exact ih (hs.skip hsel) (by omega) (by omega) (hfirst.imp_left (by omega))
        (by rwa [sliceStart_unselected hsel]) hshort
    | true =>
      rcases Nat.lt_or_ge (8 * len) (sliceStart flag (k + 1)) with hnow | hlater
      · rw [branch_short hs hk (by omega) hsel hnow]
        rfl
      · obtain ⟨s₁, hbranch, hs₁⟩ := branch_long hp hs hk (by omega) hsel hlater
        exact (bind_some_eq hbranch).trans
          (ih hs₁ (by omega) (by omega) (hfirst.imp_left (by omega)) hlater hshort)

theorem branches_modified (hp : p < noFFlws) (cur : TcamUnit) (val : Block 6)
    (hlong : sliceStart flag 16 ≤ 8 * len) :
    ∃ s, branches flag newValues p ⟨cur, val, 0⟩ = some s ∧
      Modified cur flag newValues p 16 s := by
  have hfirst := firstBranch_cases flag
  have hall : firstBranch flag + (16 - firstBranch flag) = 16 := by omega
  have hstart := modified_start cur newValues p val fun i => firstBranch_skips flag
  have hrun := branches_run hp hstart (by omega) hall.le
    (hfirst.imp (fun h13 => h13.1.ge) fun h1 => h1.2) (by rwa [hall])
  rwa [hall] at hrun

theorem branches_overrun (hp : p < noFFlws) (cur : TcamUnit) (val : Block 6)
    (hshort : 8 * len < sliceStart flag 16) :
    branches flag newValues p ⟨cur, val, 0⟩ = none := by
  have hfirst := firstBranch_cases flag
  have hall : firstBranch flag + (16 - firstBranch flag) = 16 := by omega
  have hstart := modified_start cur newValues p val fun i => firstBranch_skips flag
  have hnone : sliceStart flag (firstBranch flag) = 0 := (Int.ofNat_inj.mp hstart.valPos).symm
  exact branches_short hp hstart (by omega) hall.le
    (hfirst.imp (fun h13 => h13.1.ge) fun h1 => h1.2) (by omega) (by rwa [hall])

/-- The hit is taken back, and the flags are added. -/
theorem finishModify_spec (tcam : TcamUnit) (flag : Block 2) (hp : p < noFFlws) :
    ∃ b f, finishModify flag p tcam = some { tcam with flowTable := b, flagTable := f } ∧
      slot b = Function.update tcam.flow p (hitBack (tcam.flow p)) ∧
      (∀ j ≠ p, slot f j = tcam.flag j) ∧
      ∀ i < 2, (slot f p).byte i = (tcam.flag p).byte i ||| flag.byte i := by
  have hread := read_slot tcam.flowTable hp (show 46 < flwEntLen by decide)
    (show (p : ℤ) * flwEntLen + 46 = (p : ℤ) * flwEntLen + (46 : ℕ) from rfl)
  obtain ⟨b, hstore, hb⟩ := storeFlowByte_spec tcam hp (show 46 < flwEntLen by decide)
    ((tcam.flow p).byte 46 - 1)
  have hx₀ : 2 * (p : ℤ) = (p : ℤ) * (2 : ℕ) + (0 : ℕ) := by omega
  have hx₁ : 2 * (p : ℤ) + 1 = (p : ℤ) * (2 : ℕ) + (1 : ℕ) := by omega
  have h₀ := read_slot tcam.flagTable hp (show 0 < 2 by decide) hx₀
  obtain ⟨f₁, hwrite₁, hf₁⟩ := write_slot tcam.flagTable hp (show 0 < 2 by decide)
    ((tcam.flag p).byte 0 ||| flag.byte 0) hx₀
  have h₁ := read_slot f₁ hp (show 1 < 2 by decide) hx₁
  obtain ⟨f₂, hwrite₂, hf₂⟩ := write_slot f₁ hp (show 1 < 2 by decide)
    ((slot f₁ p).byte 1 ||| flag.byte 1) hx₁
  refine ⟨b, f₂, bind_some_of hread (bind_some_of hstore (bind_some_of h₀ (bind_some_of hwrite₁
    (bind_some_of h₁ (bind_some_of hwrite₂ rfl))))), hb, fun j hj => ?_, fun i hi => ?_⟩
  · rw [hf₂, Function.update_of_ne hj, hf₁, Function.update_of_ne hj]
    rfl
  · have hrow₁ : slot f₁ p = (tcam.flag p).set 0 ((tcam.flag p).byte 0 ||| flag.byte 0) := by
      rw [hf₁, Function.update_self]
      rfl
    rw [hf₂, Function.update_self, Block.byte_set _ _ hi]
    rcases Nat.lt_succ_iff_lt_or_eq.mp hi with hlt | rfl
    · obtain rfl : i = 0 := by omega
      rw [if_neg (by decide), hrow₁, Block.byte_set _ _ hi, if_pos rfl]
    · rw [if_pos rfl, hrow₁, Block.byte_set _ _ hi, if_neg (by decide)]

/-- Of the table that the search leaves, row `p` has been modified, and nothing else. -/
structure RowModified (cur tcam' : TcamUnit) (p : ℕ) (flag : Block 2) (newValues : Block len) :
    Prop where
  action : Decoded flag newValues 1 13 (cur.action p) (tcam'.action p)
  flow : Decoded flag newValues 13 16 (hitBack (cur.flow p)) (tcam'.flow p)
  flag : ∀ i < 2, (tcam'.flag p).byte i = (cur.flag p).byte i ||| flag.byte i
  otherActions : ∀ j ≠ p, tcam'.action j = cur.action j
  otherFlows : ∀ j ≠ p, tcam'.flow j = cur.flow j
  otherFlags : ∀ j ≠ p, tcam'.flag j = cur.flag j
  masks : tcam'.maskTable = cur.maskTable
  flowTail : tcam'.flowTail = cur.flowTail
  maskTail : tcam'.maskTail = cur.maskTail

theorem modified_finish (hp : p < noFFlws) (hs : Modified cur flag newValues p 16 s) :
    ∃ tcam', finishModify flag p s.tcam = some tcam' ∧
      RowModified cur tcam' p flag newValues := by
  obtain ⟨b, f, hfinish, hb, hotherFlags, hflag⟩ := finishModify_spec s.tcam flag hp
  have hflags : s.tcam.flag = cur.flag := by
    rw [hs.tables]
    rfl
  rw [hflags] at hotherFlags hflag
  refine ⟨_, hfinish, hs.action, ?_, hflag, hs.otherActions, fun j hj => ?_, hotherFlags,
    ?_, ?_, ?_⟩
  · change Decoded flag newValues 13 16 _ (slot b p)
    rw [hb, Function.update_self]
    exact hs.flow
  · change slot b j = _
    rw [hb, Function.update_of_ne hj]
    exact hs.otherFlows j hj
  · change s.tcam.maskTable = _
    rw [hs.tables]
  · change s.tcam.flowTail = _
    rw [hs.tables]
  · change s.tcam.maskTail = _
    rw [hs.tables]

end Steps

end NetWalk.ModifyBranches
