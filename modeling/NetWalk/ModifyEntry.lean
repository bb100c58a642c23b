import NetWalk.FlowSearch

/-!
# Modifying an entry

`modify_entry` looks an entry up and changes the fields that a 16-bit flag
selects. The new values come packed, one selected field behind the other.
`extract_field` moves one of them into a scratch array of six bytes, and
`replace_field` from there into the action table; positions of bits are counted
in the row, and the position in the table is an `int` that may overflow. The texts
that the source prints are left out.
-/
namespace NetWalk.ModifyEntry
open ByteBlock BitOperations FlowTables FlowSearch

/-- `INT_MAX` -/
def intMax : ℕ := 2147483647

/-- The value of an `int` expression, which has no defined result when it overflows. -/
def checkedInt (x : ℤ) : Option ℤ := if -(intMax : ℤ) - 1 ≤ x ∧ x ≤ intMax then some x else none

/-- `entry_no * ACTN_ST_LEN * 8 + i` -/
def fieldBit (entryNo i : ℤ) : Option ℤ := do
  let firstByte ← checkedInt (entryNo * actnStLen)
  let firstBit ← checkedInt (firstByte * 8)
  checkedInt (firstBit + i)

def extractField {n m : ℕ} (table : Block n) (entryNo strtBit endBit : ℤ) (val : Block m) :
    Option (Block m) :=
  (List.range (endBit + 1 - strtBit).toNat).foldlM (fun val (i : ℕ) => do
    let pos ← fieldBit entryNo (strtBit + i)
    let _ ← checkedInt (strtBit + i + 1)  -- the `i++` behind this pass
    if ← readBit table pos then setBit val i
    else resetBit val i) val

def replaceField {n m : ℕ} (table : Block n) (entryNo strtBit endBit : ℤ) (val : Block m) :
    Option (Block n) :=
  (List.range (endBit + 1 - strtBit).toNat).foldlM (fun table (i : ℕ) => do
    let pos ← fieldBit entryNo (strtBit + i)
    let _ ← checkedInt (strtBit + i + 1)
    if ← readBit val i then setBit table pos
    else resetBit table pos) table

/-- The locals of `modify_entry` that change from field to field. -/
structure Modifying where
  tcam : TcamUnit
  val : Block 6
  valPos : ℤ

section Fields
variable {n : ℕ} (flag : Block 2) (newValues : Block n) (pos : ℤ)

/-- The branch for one field of the action set, when its flag bit is set. -/
def modifyField (flagBit strtBit endBit : ℤ) (s : Modifying) : Option Modifying := do
  if ← readBit flag flagBit then
    let val ← extractField newValues 0 s.valPos (s.valPos + (endBit - strtBit)) s.val
    let actionTable ← replaceField s.tcam.actionTable pos strtBit endBit val
    some ⟨{ s.tcam with actionTable := actionTable }, val, s.valPos + (endBit - strtBit + 1)⟩
  else some s

/-- The branches for fields of one byte, which is put in place by `store`. -/
def modifyByte (flagBit : ℤ) (store : TcamUnit → UInt8 → Option TcamUnit) (s : Modifying) :
    Option Modifying := do
  if ← readBit flag flagBit then
    let val ← extractField newValues 0 s.valPos (s.valPos + 7) s.val
    let v ← val.read 0
    let tcam ← store s.tcam v
    some ⟨tcam, val, s.valPos + 8⟩
  else some s

def storeOutputPort (tcam : TcamUnit) (v : UInt8) : Option TcamUnit := do
  let actionTable ← tcam.actionTable.write (pos * actnStLen + 30) v
  some { tcam with actionTable := actionTable }

def storeFlowByte (i : ℤ) (tcam : TcamUnit) (v : UInt8) : Option TcamUnit := do
  let flowTable ← tcam.flowTable.write (pos * flwEntLen + i) v
  some { tcam with flowTable := flowTable }

/-- The fields of the action set, which are not looked at when the packets are
to be dropped. -/
def modifyActionSet (s : Modifying) : Option Modifying := do
  let s ← modifyField flag newValues pos 1 0 47 s       -- MAC Src
  let s ← modifyField flag newValues pos 2 48 95 s      -- MAC Dst
  let s ← modifyField flag newValues pos 3 96 107 s     -- VLAN ID
  let s ← modifyField flag newValues pos 4 108 110 s    -- VLAN Priority
  let s ← modifyField flag newValues pos 5 111 130 s    -- MPLS Label
  let s ← modifyField flag newValues pos 6 131 133 s    -- MPLS Traffic Class
  let s ← modifyField flag newValues pos 7 134 165 s    -- IPv4 Src
  let s ← modifyField flag newValues pos 8 166 197 s    -- IPv4 Dst
  let s ← modifyField flag newValues pos 9 198 203 s    -- IPv4 ToS
  let s ← modifyField flag newValues pos 10 204 219 s   -- TCP Src
  let s ← modifyField flag newValues pos 11 220 235 s   -- TCP Dst
  modifyByte flag newValues 12 (storeOutputPort pos) s  -- Output Port

/-- A counter is set to one more than the value given. -/
def storeCounter (tcam : TcamUnit) (v : UInt8) : Option TcamUnit := do
  let tcam ← storeFlowByte pos 46 tcam v
  countHit tcam pos

/-- The lookup was not an actual flow, so its hit is taken back; the flags given
are added to those of the entry. -/
def finishModify (tcam : TcamUnit) : Option TcamUnit := do
  let hits ← tcam.flowTable.read (pos * flwEntLen + 46)
  let tcam ← storeFlowByte pos 46 tcam (hits - 1)
  let flag0 ← tcam.flagTable.read (2 * pos)
  let flagTable ← tcam.flagTable.write (2 * pos) (flag0 ||| flag.byte 0)
  let flag1 ← flagTable.read (2 * pos + 1)
  let flagTable ← flagTable.write (2 * pos + 1) (flag1 ||| flag.byte 1)
  some { tcam with flagTable := flagTable }

end Fields

/-- `val` is what the uninitialised scratch array holds. -/
def modifyEntry {n : ℕ} (tcam : TcamUnit) (matchFields : Block mtchFldLen) (flag : Block 2)
    (newValues : Block n) (val : Block 6) : Option (ℤ × TcamUnit) := do
  let (pos, tcam, _) ← searchTcam tcam matchFields 0
  if pos = strErr then some (strErr, tcam)
  else
    let drop ← readBit flag 0
    let s ← (if drop then some ⟨tcam, val, 0⟩
      else modifyActionSet flag newValues pos ⟨tcam, val, 0⟩)
    let s ← modifyByte flag newValues 13 (storeFlowByte pos 45) s
    let s ← modifyByte flag newValues 14 (storeCounter pos) s
    let s ← modifyByte flag newValues 15 (storeFlowByte pos 47) s
    let tcam ← finishModify flag pos s.tcam
    some (pos, tcam)

end NetWalk.ModifyEntry
