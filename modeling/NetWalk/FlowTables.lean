import NetWalk.SlotTable
import NetWalk.RowSequence

/-!
# The tables of the flow unit

A `tcam_unit` holds flow entries, masks, action sets and action flags in four
flat arrays, and the positions behind the last flow entry and the last mask.
This module has the functions that write one row and the loops that move rows.
Each of them is given with what it does to the rows of its table; the text
files that the source keeps as logs are left out.
-/
namespace NetWalk.FlowTables
open ByteBlock BitOperations SlotTable RowSequence

/-- `MTCH_FLD_LEN` -/
def mtchFldLen : ℕ := 45

/-- `FLW_ENT_LEN` -/
def flwEntLen : ℕ := 48

/-- `NO_F_FLWS` -/
def noFFlws : ℕ := 20

/-- `ACTN_ST_LEN` -/
def actnStLen : ℕ := 31

structure TcamUnit where
  flowTable : Block (flwEntLen * noFFlws)
  maskTable : Block (mtchFldLen * noFFlws)
  actionTable : Block (actnStLen * noFFlws)
  flagTable : Block (2 * noFFlws)
  flowTail : ℤ
  maskTail : ℤ
deriving DecidableEq

/-- Tables in zeroed memory. -/
def zeroedTcamUnit : TcamUnit :=
  ⟨Block.ofFn fun _ => 0, Block.ofFn fun _ => 0, Block.ofFn fun _ => 0, Block.ofFn fun _ => 0,
    0, 0⟩

/-- A flow entry as callers give it: the match fields and the priority. -/
abbrev FlowEntry := Block (mtchFldLen + 1)

/-- The new mask is also what the caller's array holds afterwards. -/
def writeNewMask (tcam : TcamUnit) (mask : Block mtchFldLen) :
    Option (TcamUnit × Block mtchFldLen) := do
  let mask ← resetBit mask 357
  let mask ← resetBit mask 358
  let mask ← resetBit mask 359
  let maskTable ← tcam.maskTable.writeSlice (tcam.maskTail * mtchFldLen) mask
  some ({ tcam with maskTable := maskTable, maskTail := tcam.maskTail + 1 }, mask)

def writeNewFlowEntry {n : ℕ} (tcam : TcamUnit) (flowEntry : Block n) : Option TcamUnit := do
  let entry ← flowEntry.readSlice 0 (mtchFldLen + 1)
  let flowTable ← tcam.flowTable.writeSlice (tcam.flowTail * flwEntLen) entry
  -- the counter, then the timeout
  let flowTable ← flowTable.write (tcam.flowTail * flwEntLen + 46) 0
  let flowTable ← flowTable.write (tcam.flowTail * flwEntLen + 47) 255
  some { tcam with flowTable := flowTable, flowTail := tcam.flowTail + 1 }

def writeNewAction (tcam : TcamUnit) (actionSet : Block actnStLen) (flag : Block 2) (pos : ℤ) :
    Option TcamUnit := do
  let actionTable ← tcam.actionTable.writeSlice (pos * actnStLen) actionSet
  let flagTable ← tcam.flagTable.write (2 * pos) (flag.byte 0)
  let flagTable ← flagTable.write (2 * pos + 1) (flag.byte 1)
  some { tcam with actionTable := actionTable, flagTable := flagTable }

/-- Passes of the loop in `restructure_flow_table`; each lowers the tail by one. -/
def moveFlowsDown : ℕ → TcamUnit → Option TcamUnit
  | 0, tcam => some tcam
  | passes + 1, tcam => do
      let dummyFlow ← tcam.flowTable.readSlice ((tcam.flowTail - 1) * flwEntLen) flwEntLen
      let tcam ← writeNewFlowEntry tcam dummyFlow
      moveFlowsDown passes { tcam with flowTail := tcam.flowTail - 2 }

def restructureFlowTable (tcam : TcamUnit) (pos : ℤ) : Option TcamUnit := do
  let flowTailOld := tcam.flowTail
  let tcam ← moveFlowsDown (tcam.flowTail - pos).toNat tcam
  some { tcam with flowTail := flowTailOld + 1 }

/-- Copy the action set and the flag of one row to another. -/
def moveAction (tcam : TcamUnit) (src dst : ℤ) : Option TcamUnit := do
  let dummyAction ← tcam.actionTable.readSlice (src * actnStLen) actnStLen
  let flag0 ← tcam.flagTable.read (2 * src)
  let flag1 ← tcam.flagTable.read (2 * src + 1)
  writeNewAction tcam dummyAction (Block.ofFn fun i => if i = 0 then flag0 else flag1) dst

/-- Passes of the loop in `restructure_action_tables`; each lowers `tail` by one. -/
def moveActionsDown : ℕ → TcamUnit → ℤ → Option TcamUnit
  | 0, tcam, _ => some tcam
  | passes + 1, tcam, tail => do
      let tcam ← moveAction tcam (tail - 1) tail
      moveActionsDown passes tcam (tail - 1)

def restructureActionTables (flowUnit : TcamUnit) (pos : ℤ) : Option TcamUnit :=
  let tail := flowUnit.flowTail - 1
  moveActionsDown (tail - pos).toNat flowUnit tail

/-- Passes of the loop in `delete_restructure_mask`; each raises the tail by one. -/
def moveMasksUp : ℕ → TcamUnit → Option TcamUnit
  | 0, tcam => some tcam
  | passes + 1, tcam => do
      let dummyMask ← tcam.maskTable.readSlice ((tcam.maskTail + 1) * mtchFldLen) mtchFldLen
      let (tcam, _) ← writeNewMask tcam dummyMask
      moveMasksUp passes tcam

def deleteRestructureMask (tcam : TcamUnit) (pos : ℤ) : Option TcamUnit := do
  let maskTailOld := tcam.maskTail
  let tcam ← moveMasksUp (maskTailOld - 1 - pos).toNat { tcam with maskTail := pos }
  some { tcam with maskTail := maskTailOld - 1 }

/-- Passes of the loop in `delete_restructure_flow`; each raises the tail by one. -/
def moveFlowsUp : ℕ → TcamUnit → Option TcamUnit
  | 0, tcam => some tcam
  | passes + 1, tcam => do
      let dummyFlow ← tcam.flowTable.readSlice ((tcam.flowTail + 1) * flwEntLen) flwEntLen
      let tcam ← writeNewFlowEntry tcam dummyFlow
      moveFlowsUp passes tcam

def deleteRestructureFlow (tcam : TcamUnit) (pos : ℤ) : Option TcamUnit := do
  let flowTailOld := tcam.flowTail
  let tcam ← moveFlowsUp (flowTailOld - 1 - pos).toNat { tcam with flowTail := pos }
  some { tcam with flowTail := flowTailOld - 1 }

/-- Passes of the loop in `delete_restructure_action`; each raises `j` by one. -/
def moveActionsUp : ℕ → TcamUnit → ℤ → Option TcamUnit
  | 0, tcam, _ => some tcam
  | passes + 1, tcam, j => do
      let tcam ← moveAction tcam (j + 1) j
      moveActionsUp passes tcam (j + 1)

def deleteRestructureAction (flowUnit : TcamUnit) (pos : ℤ) : Option TcamUnit :=
  moveActionsUp (flowUnit.flowTail - pos).toNat flowUnit pos

/-- Row `p` of each table. -/
def TcamUnit.flow (tcam : TcamUnit) : ℕ → Block flwEntLen := slot tcam.flowTable

def TcamUnit.mask (tcam : TcamUnit) : ℕ → Block mtchFldLen := slot tcam.maskTable

def TcamUnit.action (tcam : TcamUnit) : ℕ → Block actnStLen := slot tcam.actionTable

def TcamUnit.flag (tcam : TcamUnit) : ℕ → Block 2 := slot tcam.flagTable

/-- Entry `p` is the first of a new group. -/
def TcamUnit.marker (tcam : TcamUnit) (p : ℕ) : Bool := bit (tcam.flow p) 356

/-- The position of the mask that entry `p` is to be matched with. -/
def TcamUnit.group (tcam : TcamUnit) : ℕ → ℕ := groupOf tcam.marker

def TcamUnit.maskOf (tcam : TcamUnit) : ℕ → Block mtchFldLen := labelOf tcam.mask tcam.marker

def TcamUnit.priority (tcam : TcamUnit) (p : ℕ) : ℕ := ((tcam.flow p).byte 45).toNat

/-- The bytes of entry `p` that a flow is compared with, given as a flow. -/
def TcamUnit.matchFields (tcam : TcamUnit) (p : ℕ) : Block mtchFldLen :=
  (tcam.flow p).slice 0 mtchFldLen

/-- The mask that is stored: three bits have no use and are cleared. -/
def clearSpare (mask : Block mtchFldLen) : Block mtchFldLen :=
  putBit (putBit (putBit mask 357 false) 358 false) 359 false

/-- The row that is stored: the entry with a new counter and timeout. -/
def freshEntry {n : ℕ} (flowEntry : Block n) : Block flwEntLen :=
  Block.ofFn fun i => if i < mtchFldLen + 1 then flowEntry.byte i else if i = 46 then 0 else 255

section Rows

theorem ext_bit {n : ℕ} {a b : Block n} (h : ∀ q < 8 * n, bit a q = bit b q) : a = b := by
  apply Block.ext_byte
  intro k hk
  apply byteBit_ext
  intro p hp
  have := h (8 * k + (7 - p)) (by omega)
  rwa [bit, bit, show (8 * k + (7 - p)) / 8 = k by omega,
    show 7 - (8 * k + (7 - p)) % 8 = p by omega] at this

theorem bit_clearSpare (mask : Block mtchFldLen) {q : ℕ} (hq : q < 8 * mtchFldLen) :
    bit (clearSpare mask) q = if 357 ≤ q then false else bit mask q := by
  have hq' : q < 360 := hq
  rw [clearSpare, bit_putBit _ _ hq, bit_putBit _ _ hq, bit_putBit _ _ hq]
  split_ifs <;> first | rfl | omega

theorem clearSpare_eq_self {mask : Block mtchFldLen}
    (h : ∀ q, 357 ≤ q → q < 360 → bit mask q = false) : clearSpare mask = mask := by
  apply ext_bit
  intro q hq
  rw [bit_clearSpare mask hq]
  split_ifs with hspare
  · exact (h q hspare hq).symm
  · rfl

theorem clearSpare_clearSpare (mask : Block mtchFldLen) :
    clearSpare (clearSpare mask) = clearSpare mask := by
  apply clearSpare_eq_self
  intro q hspare hq
  rw [bit_clearSpare mask hq, if_pos hspare]

theorem byte_freshEntry {n : ℕ} (flowEntry : Block n) {i : ℕ} (hi : i < mtchFldLen + 1) :
    (freshEntry flowEntry).byte i = flowEntry.byte i := by
  rw [freshEntry, Block.byte_ofFn (by rw [mtchFldLen] at hi; rw [flwEntLen]; omega), if_pos hi]

theorem bit_freshEntry {n : ℕ} (flowEntry : Block n) {q : ℕ} (hq : q < 8 * (mtchFldLen + 1)) :
    bit (freshEntry flowEntry) q = bit flowEntry q :=
  bit_eq_of_byte_eq (byte_freshEntry flowEntry (by omega))

end Rows

section Writing
variable (tcam : TcamUnit) {k : ℕ}

theorem slice_self {n : ℕ} (b : Block n) : b.slice 0 n = b := by
  apply Block.ext_byte
  intro i hi
  rw [Block.byte_slice b hi, Nat.zero_add]

theorem splice_self {n : ℕ} (b src : Block n) : b.splice 0 src = src := by
  apply Block.ext_byte
  intro i hi
  rw [Block.byte_splice b src hi, if_pos (by omega), Nat.sub_zero]

theorem writeNewMask_spec (htail : tcam.maskTail = k) (hk : k < noFFlws)
    (mask : Block mtchFldLen) :
    ∃ b, writeNewMask tcam mask =
        some ({ tcam with maskTable := b, maskTail := k + 1 }, clearSpare mask) ∧
      slot b = Function.update tcam.mask k (clearSpare mask) := by
  obtain ⟨b, hb, hslot⟩ := writeSlice_slot tcam.maskTable hk le_rfl (clearSpare mask)
    (show tcam.maskTail * mtchFldLen = (k : ℤ) * mtchFldLen by rw [htail])
  refine ⟨b, ?_, by rw [hslot, splice_self]; rfl⟩
  have h₁ := resetBit_natCast mask (show 357 < 8 * mtchFldLen by decide)
  have h₂ := resetBit_natCast (putBit mask 357 false) (show 358 < 8 * mtchFldLen by decide)
  have h₃ := resetBit_natCast (putBit (putBit mask 357 false) 358 false)
    (show 359 < 8 * mtchFldLen by decide)
  rw [← htail]
  exact bind_some_of h₁ (bind_some_of h₂ (bind_some_of h₃ (bind_some_of hb rfl)))

theorem writeNewFlowEntry_spec (htail : tcam.flowTail = k) (hk : k < noFFlws) {n : ℕ}
    (flowEntry : Block n) (hn : mtchFldLen + 1 ≤ n) :
    ∃ b, writeNewFlowEntry tcam flowEntry =
        some { tcam with flowTable := b, flowTail := k + 1 } ∧
      slot b = Function.update tcam.flow k (freshEntry flowEntry) := by
  obtain ⟨b₁, hb₁, hslot₁⟩ := writeSlice_slot tcam.flowTable hk (by decide)
    (flowEntry.slice 0 (mtchFldLen + 1))
    (show tcam.flowTail * flwEntLen = (k : ℤ) * flwEntLen by rw [htail])
  obtain ⟨b₂, hb₂, hslot₂⟩ := write_slot b₁ hk (show 46 < flwEntLen by decide) 0
    (show tcam.flowTail * flwEntLen + 46 = (k : ℤ) * flwEntLen + (46 : ℕ) by rw [htail]; rfl)
  obtain ⟨b₃, hb₃, hslot₃⟩ := write_slot b₂ hk (show 47 < flwEntLen by decide) 255
    (show tcam.flowTail * flwEntLen + 47 = (k : ℤ) * flwEntLen + (47 : ℕ) by rw [htail]; rfl)
  refine ⟨b₃, ?_, ?_⟩
  · rw [← htail]
    exact bind_some_of (Block.readSlice_natCast flowEntry (k := 0) (by omega))
      (bind_some_of hb₁ (bind_some_of hb₂ (bind_some_of hb₃ rfl)))
  · rw [hslot₃, hslot₂, hslot₁, Function.update_self, Function.update_idem,
      Function.update_self, Function.update_idem]
    congr 1
    apply Block.ext_byte
    intro i hi
    have hi' : i < 48 := hi
    rw [Block.byte_set _ _ hi, Block.byte_set _ _ hi, Block.byte_splice _ _ hi, freshEntry,
      Block.byte_ofFn hi]
    by_cases hlt : i < mtchFldLen + 1
    · have hlt' : i < 46 := hlt
      rw [if_neg (by omega), if_neg (by omega), if_pos (by omega), if_pos hlt,
        Block.byte_slice _ (by omega)]
      simp
    · have hge : 46 ≤ i := Nat.le_of_not_lt hlt
      rw [if_neg hlt]
      rcases Nat.eq_or_lt_of_le hge with rfl | hgt
      · rfl
      · rw [if_pos (by omega), if_neg (by omega)]

theorem set_both (b v : Block 2) : (b.set 0 (v.byte 0)).set 1 (v.byte 1) = v := by
  apply Block.ext_byte
  intro i hi
  rw [Block.byte_set _ _ hi, Block.byte_set _ _ hi]
  split_ifs with h₁ h₀
  · rw [h₁]
  · rw [h₀]
  · omega

theorem ofFn_both (v : Block 2) :
    Block.ofFn (fun i => if i = 0 then v.byte 0 else v.byte 1) = v := by
  apply Block.ext_byte
  intro i hi
  rw [Block.byte_ofFn hi]
  split_ifs with h₀
  · rw [h₀]
  · rw [show i = 1 by omega]

theorem writeNewAction_spec (hk : k < noFFlws) (actionSet : Block actnStLen) (flag : Block 2) :
    ∃ a f, writeNewAction tcam actionSet flag k =
        some { tcam with actionTable := a, flagTable := f } ∧
      slot a = Function.update tcam.action k actionSet ∧
      slot f = Function.update tcam.flag k flag := by
  obtain ⟨a, ha, hslot⟩ := writeSlice_slot tcam.actionTable hk le_rfl actionSet
    (show (k : ℤ) * actnStLen = (k : ℤ) * actnStLen from rfl)
  obtain ⟨f₁, hf₁, hslot₁⟩ := write_slot tcam.flagTable hk (show 0 < 2 by decide) (flag.byte 0)
    (show 2 * (k : ℤ) = (k : ℤ) * (2 : ℕ) + (0 : ℕ) by omega)
  obtain ⟨f₂, hf₂, hslot₂⟩ := write_slot f₁ hk (show 1 < 2 by decide) (flag.byte 1)
    (show 2 * (k : ℤ) + 1 = (k : ℤ) * (2 : ℕ) + (1 : ℕ) by omega)
  refine ⟨a, f₂, bind_some_of ha (bind_some_of hf₁ (bind_some_of hf₂ rfl)),
    by rw [hslot, splice_self]; rfl, ?_⟩
  rw [hslot₂, hslot₁, Function.update_self, Function.update_idem, set_both]
  rfl

theorem moveAction_spec {j : ℕ} (hj : j < noFFlws) (hk : k < noFFlws) :
    ∃ a f, moveAction tcam j k = some { tcam with actionTable := a, flagTable := f } ∧
      slot a = Function.update tcam.action k (tcam.action j) ∧
      slot f = Function.update tcam.flag k (tcam.flag j) := by
  have hread := readSlice_slot tcam.actionTable hj le_rfl
    (show (j : ℤ) * actnStLen = (j : ℤ) * actnStLen from rfl)
  have h₀ := read_slot tcam.flagTable hj (show 0 < 2 by decide)
    (show 2 * (j : ℤ) = (j : ℤ) * (2 : ℕ) + (0 : ℕ) by omega)
  have h₁ := read_slot tcam.flagTable hj (show 1 < 2 by decide)
    (show 2 * (j : ℤ) + 1 = (j : ℤ) * (2 : ℕ) + (1 : ℕ) by omega)
  rw [slice_self] at hread
  obtain ⟨a, f, hwrite, ha, hf⟩ := writeNewAction_spec tcam hk (tcam.action j)
    (Block.ofFn fun i => if i = 0 then (tcam.flag j).byte 0 else (tcam.flag j).byte 1)
  rw [ofFn_both] at hf
  exact ⟨a, f, bind_some_of hread (bind_some_of h₀ (bind_some_of h₁ hwrite)), ha, hf⟩

end Writing

section Moving
variable (tcam : TcamUnit) {pos n : ℕ}

theorem moveFlowsDown_spec (passes : ℕ) (htail : tcam.flowTail = (pos + passes : ℕ))
    (hroom : pos + passes < noFFlws) :
    ∃ b, moveFlowsDown passes tcam = some { tcam with flowTable := b, flowTail := pos } ∧
      slot b = movedDown freshEntry tcam.flow pos (pos + passes) := by
  induction passes generalizing tcam with
  | zero =>
    refine ⟨tcam.flowTable, ?_, (movedDown_self _ _ _).symm⟩
    simp only [Nat.add_zero] at htail
    rw [← htail]
    rfl
  | succ passes ih =>
    have hread := readSlice_slot tcam.flowTable (show pos + passes < noFFlws by omega) le_rfl
      (show (tcam.flowTail - 1) * flwEntLen = ((pos + passes : ℕ) : ℤ) * flwEntLen by
        rw [htail]
        congr 1
        omega)
    rw [slice_self] at hread
    obtain ⟨b₁, hwrite, hb₁⟩ := writeNewFlowEntry_spec tcam htail hroom
      (tcam.flow (pos + passes)) (by decide)
    obtain ⟨b, hrest, hb⟩ := ih
      { tcam with flowTable := b₁, flowTail := (pos + passes : ℕ) } rfl (by omega)
    refine ⟨b, bind_some_of hread (bind_some_of hwrite ?_), ?_⟩
    · rw [← hrest]
      congr 2
      push_cast
      omega
    · rw [hb]
      change movedDown freshEntry (slot b₁) pos (pos + passes) = _
      rw [hb₁]
      exact movedDown_step freshEntry tcam.flow (n := pos + passes) (by omega)

theorem restructureFlowTable_spec (htail : tcam.flowTail = n) (hn : n < noFFlws)
    (hpos : pos ≤ n) :
    ∃ b, restructureFlowTable tcam pos =
        some { tcam with flowTable := b, flowTail := n + 1 } ∧
      slot b = movedDown freshEntry tcam.flow pos n := by
  obtain ⟨passes, rfl⟩ := Nat.exists_eq_add_of_le hpos
  obtain ⟨b, hmove, hb⟩ := moveFlowsDown_spec tcam passes htail hn
  refine ⟨b, ?_, hb⟩
  have hpasses : (tcam.flowTail - pos).toNat = passes := by
    rw [htail]
    omega
  rw [restructureFlowTable, hpasses, ← htail]
  exact bind_some_of hmove rfl

theorem moveActionsDown_spec (passes : ℕ) (hroom : pos + passes < noFFlws) :
    ∃ a f, moveActionsDown passes tcam (pos + passes : ℕ) =
        some { tcam with actionTable := a, flagTable := f } ∧
      slot a = movedDown id tcam.action pos (pos + passes) ∧
      slot f = movedDown id tcam.flag pos (pos + passes) := by
  induction passes generalizing tcam with
  | zero => exact ⟨_, _, rfl, (movedDown_self _ _ _).symm, (movedDown_self _ _ _).symm⟩
  | succ passes ih =>
    obtain ⟨a₁, f₁, hmove, ha₁, hf₁⟩ := moveAction_spec tcam
      (show pos + passes < noFFlws by omega) hroom
    obtain ⟨a, f, hrest, ha, hf⟩ := ih
      { tcam with actionTable := a₁, flagTable := f₁ } (by omega)
    refine ⟨a, f, ?_, ?_, ?_⟩
    · have hprev : ((pos + (passes + 1) : ℕ) : ℤ) - 1 = (pos + passes : ℕ) := by omega
      rw [moveActionsDown, hprev]
      exact bind_some_of hmove hrest
    · rw [ha]
      change movedDown id (slot a₁) pos (pos + passes) = _
      rw [ha₁]
      exact movedDown_step id tcam.action (n := pos + passes) (by omega)
    · rw [hf]
      change movedDown id (slot f₁) pos (pos + passes) = _
      rw [hf₁]
      exact movedDown_step id tcam.flag (n := pos + passes) (by omega)

theorem restructureActionTables_spec (htail : tcam.flowTail = (n + 1 : ℕ)) (hn : n < noFFlws)
    (hpos : pos ≤ n) :
    ∃ a f, restructureActionTables tcam pos =
        some { tcam with actionTable := a, flagTable := f } ∧
      slot a = movedDown id tcam.action pos n ∧ slot f = movedDown id tcam.flag pos n := by
  obtain ⟨passes, rfl⟩ := Nat.exists_eq_add_of_le hpos
  obtain ⟨a, f, hmove, ha, hf⟩ := moveActionsDown_spec tcam passes hn
  refine ⟨a, f, ?_, ha, hf⟩
  have htail' : tcam.flowTail - 1 = (pos + passes : ℕ) := by
    rw [htail]
    omega
  have hpasses : (((pos + passes : ℕ) : ℤ) - pos).toNat = passes := by omega
  simp only [restructureActionTables, htail', hpasses]
  exact hmove

theorem moveMasksUp_spec (passes : ℕ) (htail : tcam.maskTail = pos)
    (hroom : pos + passes < noFFlws) :
    ∃ b, moveMasksUp passes tcam =
        some { tcam with maskTable := b, maskTail := (pos + passes : ℕ) } ∧
      slot b = movedUp clearSpare tcam.mask pos (pos + passes) := by
  induction passes generalizing tcam pos with
  | zero =>
    refine ⟨tcam.maskTable, ?_, (movedUp_self _ _ _).symm⟩
    rw [Nat.add_zero, ← htail]
    rfl
  | succ passes ih =>
    have hread := readSlice_slot tcam.maskTable (show pos + 1 < noFFlws by omega) le_rfl
      (show (tcam.maskTail + 1) * mtchFldLen = ((pos + 1 : ℕ) : ℤ) * mtchFldLen by
        rw [htail]
        rfl)
    rw [slice_self] at hread
    obtain ⟨b₁, hwrite, hb₁⟩ := writeNewMask_spec tcam htail (by omega) (tcam.mask (pos + 1))
    obtain ⟨b, hrest, hb⟩ := ih
      { tcam with maskTable := b₁, maskTail := (pos + 1 : ℕ) } rfl (by omega)
    refine ⟨b, bind_some_of hread (bind_some_of hwrite ?_), ?_⟩
    · rw [show pos + (passes + 1) = pos + 1 + passes by omega]
      exact hrest
    · rw [hb]
      change movedUp clearSpare (slot b₁) (pos + 1) (pos + 1 + passes) = _
      rw [hb₁, show pos + 1 + passes = pos + (passes + 1) by omega]
      exact movedUp_step _ _ (by omega)

theorem deleteRestructureMask_spec {m : ℕ} (htail : tcam.maskTail = (m + 1 : ℕ))
    (hm : m < noFFlws) (hpos : pos ≤ m) :
    ∃ b, deleteRestructureMask tcam pos =
        some { tcam with maskTable := b, maskTail := m } ∧
      slot b = movedUp clearSpare tcam.mask pos m := by
  obtain ⟨passes, rfl⟩ := Nat.exists_eq_add_of_le hpos
  obtain ⟨b, hmove, hb⟩ := moveMasksUp_spec { tcam with maskTail := pos } passes rfl hm
  refine ⟨b, ?_, hb⟩
  have htail' : tcam.maskTail - 1 = (pos + passes : ℕ) := by
    rw [htail]
    omega
  have hpasses : (((pos + passes : ℕ) : ℤ) - pos).toNat = passes := by omega
  simp only [deleteRestructureMask, htail', hpasses]
  exact bind_some_of hmove rfl

theorem moveFlowsUp_spec (passes : ℕ) (htail : tcam.flowTail = pos)
    (hroom : pos + passes < noFFlws) :
    ∃ b, moveFlowsUp passes tcam =
        some { tcam with flowTable := b, flowTail := (pos + passes : ℕ) } ∧
      slot b = movedUp freshEntry tcam.flow pos (pos + passes) := by
  induction passes generalizing tcam pos with
  | zero =>
    refine ⟨tcam.flowTable, ?_, (movedUp_self _ _ _).symm⟩
    rw [Nat.add_zero, ← htail]
    rfl
  | succ passes ih =>
    have hread := readSlice_slot tcam.flowTable (show pos + 1 < noFFlws by omega) le_rfl
      (show (tcam.flowTail + 1) * flwEntLen = ((pos + 1 : ℕ) : ℤ) * flwEntLen by
        rw [htail]
        rfl)
    rw [slice_self] at hread
    obtain ⟨b₁, hwrite, hb₁⟩ := writeNewFlowEntry_spec tcam htail (by omega)
      (tcam.flow (pos + 1)) (by decide)
    obtain ⟨b, hrest, hb⟩ := ih
      { tcam with flowTable := b₁, flowTail := (pos + 1 : ℕ) } rfl (by omega)
    refine ⟨b, bind_some_of hread (bind_some_of hwrite ?_), ?_⟩
    · rw [show pos + (passes + 1) = pos + 1 + passes by omega]
      exact hrest
    · rw [hb]
      change movedUp freshEntry (slot b₁) (pos + 1) (pos + 1 + passes) = _
      rw [hb₁, show pos + 1 + passes = pos + (passes + 1) by omega]
      exact movedUp_step _ _ (by omega)

theorem deleteRestructureFlow_spec (htail : tcam.flowTail = (n + 1 : ℕ)) (hn : n < noFFlws)
    (hpos : pos ≤ n) :
    ∃ b, deleteRestructureFlow tcam pos =
        some { tcam with flowTable := b, flowTail := n } ∧
      slot b = movedUp freshEntry tcam.flow pos n := by
  obtain ⟨passes, rfl⟩ := Nat.exists_eq_add_of_le hpos
  obtain ⟨b, hmove, hb⟩ := moveFlowsUp_spec { tcam with flowTail := pos } passes rfl hn
  refine ⟨b, ?_, hb⟩
  have htail' : tcam.flowTail - 1 = (pos + passes : ℕ) := by
    rw [htail]
    omega
  have hpasses : (((pos + passes : ℕ) : ℤ) - pos).toNat = passes := by omega
  simp only [deleteRestructureFlow, htail', hpasses]
  exact bind_some_of hmove rfl

theorem moveActionsUp_spec (passes : ℕ) (hroom : pos + passes < noFFlws) :
    ∃ a f, moveActionsUp passes tcam pos =
        some { tcam with actionTable := a, flagTable := f } ∧
      slot a = movedUp id tcam.action pos (pos + passes) ∧
      slot f = movedUp id tcam.flag pos (pos + passes) := by
  induction passes generalizing tcam pos with
  | zero => exact ⟨_, _, rfl, (movedUp_self _ _ _).symm, (movedUp_self _ _ _).symm⟩
  | succ passes ih =>
    obtain ⟨a₁, f₁, hmove, ha₁, hf₁⟩ := moveAction_spec tcam
      (show pos + 1 < noFFlws by omega) (show pos < noFFlws by omega)
    obtain ⟨a, f, hrest, ha, hf⟩ := ih
      { tcam with actionTable := a₁, flagTable := f₁ } (show pos + 1 + passes < noFFlws by omega)
    have hend : pos + 1 + passes = pos + (passes + 1) := by omega
    refine ⟨a, f, bind_some_of hmove hrest, ?_, ?_⟩
    · rw [ha, hend]
      change movedUp id (slot a₁) (pos + 1) (pos + (passes + 1)) = _
      rw [ha₁]
      exact movedUp_step id _ (by omega)
    · rw [hf, hend]
      change movedUp id (slot f₁) (pos + 1) (pos + (passes + 1)) = _
      rw [hf₁]
      exact movedUp_step id _ (by omega)

theorem deleteRestructureAction_spec (htail : tcam.flowTail = n) (hn : n < noFFlws)
    (hpos : pos ≤ n) :
    ∃ a f, deleteRestructureAction tcam pos =
        some { tcam with actionTable := a, flagTable := f } ∧
      slot a = movedUp id tcam.action pos n ∧ slot f = movedUp id tcam.flag pos n := by
  obtain ⟨passes, rfl⟩ := Nat.exists_eq_add_of_le hpos
  obtain ⟨a, f, hmove, ha, hf⟩ := moveActionsUp_spec tcam passes hn
  refine ⟨a, f, ?_, ha, hf⟩
  have hpasses : (tcam.flowTail - pos).toNat = passes := by
    rw [htail]
    omega
  rw [deleteRestructureAction, hpasses, hmove]

end Moving

end NetWalk.FlowTables
