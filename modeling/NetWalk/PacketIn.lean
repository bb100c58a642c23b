import NetWalk.CursorWrites
import Mathlib.Data.Set.Card
import Mathlib.Order.Interval.Finset.Nat

/-!
# The generated Packet-In message

`generate_openflow_packet_in` writes a length byte at index 5 of the caller's buffer and
the fields of the message behind it, each through a helper of its own, with a cursor that
the function moves on by itself. What the source prints of the single fields is left out;
the message as a whole is what `print_data_buffer` prints at the end.
-/
namespace NetWalk.PacketIn
open ByteBlock CursorWrites

structure Controller where
  ipAddr : Block 4
  macAddr : Block 6
  port : Block 2

structure Switchx where
  macAddr : Block 6
  ipAddr : Block 4
  port : Block 2

structure Processor where
  con : Controller
  swt : Switchx

section Helpers
variable {m n : ℕ}

def writeLength (length : Block m) : Block n → UInt8 → Option (Block n) := writeField 1 length

def writeMacAddr (macAddr : Block m) : Block n → UInt8 → Option (Block n) := writeField 6 macAddr

def writeEtherType (type : Block m) : Block n → UInt8 → Option (Block n) := writeField 2 type

def writeIpVersion (version : Block m) : Block n → UInt8 → Option (Block n) :=
  writeField 1 version

def writeIpAddr (ipAddr : Block m) : Block n → UInt8 → Option (Block n) := writeField 4 ipAddr

def writeIpDiffServ (ipDiffServ : Block m) : Block n → UInt8 → Option (Block n) :=
  writeField 1 ipDiffServ

def writeIpTotalLength (ipTotalLength : Block m) : Block n → UInt8 → Option (Block n) :=
  writeField 2 ipTotalLength

def writeIpId (ipId : Block m) : Block n → UInt8 → Option (Block n) := writeField 2 ipId

def writeIpFlag (ipFlag : Block m) : Block n → UInt8 → Option (Block n) := writeField 1 ipFlag

def writeIpFragmentOffset (ipFragmentOffset : Block m) : Block n → UInt8 → Option (Block n) :=
  writeField 1 ipFragmentOffset

def writeIpTtl (ipTtl : Block m) : Block n → UInt8 → Option (Block n) := writeField 1 ipTtl

def writeIpProtocol (ipProtocol : Block m) : Block n → UInt8 → Option (Block n) :=
  writeField 1 ipProtocol

def writeIpChecksum (ipChecksum : Block m) : Block n → UInt8 → Option (Block n) :=
  writeField 2 ipChecksum

def writeTcpPort (tcpPort : Block m) : Block n → UInt8 → Option (Block n) := writeField 2 tcpPort

def writeTcpSeq (tcpSeq : Block m) : Block n → UInt8 → Option (Block n) := writeField 4 tcpSeq

def writeTcpAck (tcpAck : Block m) : Block n → UInt8 → Option (Block n) := writeField 4 tcpAck

def writeTcpHeaderLen (tcpHeaderLen : Block m) : Block n → UInt8 → Option (Block n) :=
  writeField 1 tcpHeaderLen

def writeTcpFlag (tcpFlag : Block m) : Block n → UInt8 → Option (Block n) := writeField 1 tcpFlag

def writeTcpWindowSize (tcpWindowSize : Block m) : Block n → UInt8 → Option (Block n) :=
  writeField 2 tcpWindowSize

/-- As in the source: one byte. -/
def writeTcpChecksum (tcpChecksum : Block m) : Block n → UInt8 → Option (Block n) :=
  writeField 1 tcpChecksum

def writeZero (zero : Block m) : Block n → UInt8 → Option (Block n) := writeField 1 zero

def writeOfptVersion (ofptVersion : Block m) : Block n → UInt8 → Option (Block n) :=
  writeField 1 ofptVersion

def writeOfptType (ofptType : Block m) : Block n → UInt8 → Option (Block n) :=
  writeField 1 ofptType

def writeOfptLength (ofptLength : Block m) : Block n → UInt8 → Option (Block n) :=
  writeField 2 ofptLength

def writeOfptXid (ofptXid : Block m) : Block n → UInt8 → Option (Block n) := writeField 4 ofptXid

def writeOfptBufferId (ofptBufferId : Block m) : Block n → UInt8 → Option (Block n) :=
  writeField 4 ofptBufferId

def writeOfptTotalLength (ofptTotalLength : Block m) : Block n → UInt8 → Option (Block n) :=
  writeField 2 ofptTotalLength

def writeOfptInPort (ofptInPort : Block m) : Block n → UInt8 → Option (Block n) :=
  writeField 2 ofptInPort

def writeOfptReason (ofptReason : Block m) : Block n → UInt8 → Option (Block n) :=
  writeField 1 ofptReason

/-- The bytes printed: as many behind index `k` as the length byte there says. -/
def printDataBuffer (dataBuffer : Block n) (k : ℕ) : Option (List UInt8) := do
  let length ← dataBuffer.read k
  let printed ← dataBuffer.readSlice (k + 1 : ℕ) length.toNat
  some printed.toList

/-- A local array with its first contents. -/
def array (l : List UInt8) : Block l.length := Block.ofFn fun k => l.getD k 0

/-- The buffer afterwards, and the bytes printed in the end. The packet that was missed in
the tables is an argument of the source that is never used. -/
def generateOpenflowPacketIn (p1 : Processor) (packetInDataBuffer : Block n) :
    Option (Block n × List UInt8) := do
  let s ← put (writeLength (array [0x00])) 1 ⟨packetInDataBuffer, 5⟩
  let s ← put (writeMacAddr p1.con.macAddr) 6 s
  let s ← put (writeMacAddr p1.swt.macAddr) 6 s
  let s ← put (writeEtherType (array [0x08, 0x00])) 2 s
  let s ← put (writeIpVersion (array [0x45])) 1 s
  let s ← put (writeIpDiffServ (array [0x00])) 1 s
  let s ← put (writeIpTotalLength (array [0x00, 0x29])) 2 s
  let s ← put (writeIpId (array [0x16, 0x81])) 2 s
  let s ← put (writeIpFlag (array [0x40])) 1 s
  let s ← put (writeIpFragmentOffset (array [0x00])) 1 s
  let s ← put (writeIpTtl (array [0x80])) 1 s
  let s ← put (writeIpProtocol (array [0x00])) 1 s
  let s ← put (writeIpChecksum (array [0x00, 0x00])) 2 s
  let s ← put (writeIpAddr p1.swt.ipAddr) 4 s
  let s ← put (writeIpAddr p1.con.ipAddr) 4 s
  let s ← put (writeTcpPort p1.swt.port) 2 s
  let s ← put (writeTcpPort p1.con.port) 2 s
  let s ← put (writeTcpSeq (array [0x00, 0x00, 0x00, 0x01])) 4 s
  let s ← put (writeTcpAck (array [0x00, 0x00, 0x00, 0x00])) 4 s
  let s ← put (writeTcpHeaderLen (array [0x50])) 1 s
  let s ← put (writeTcpFlag (array [0x00, 0x00, 0x00, 0x00])) 1 s
  let s ← put (writeTcpWindowSize (array [0xfc, 0xab])) 2 s
  let s ← put (writeTcpChecksum (array [0x3c, 0x38])) 2 s
  let s ← put (writeZero (array [0x00])) 1 s
  let s ← put (writeZero (array [0x00])) 1 s
  -- OpenFlow Header
  let s ← put (writeOfptVersion (array [0x04])) 1 s
  let s ← put (writeOfptType (array [0x0a])) 1 s
  let s ← put (writeOfptLength (array [0x00, 0x3c])) 2 s
  let s ← put (writeOfptXid (array [0x00, 0x00, 0x00, 0x00])) 4 s
  -- OpenFlow Packet-In Header
  let s ← put (writeOfptBufferId (array [0x00, 0x00, 0x00, 0x01])) 4 s
  let s ← put (writeOfptTotalLength (array [0x00, 0x2a])) 2 s
  let s ← put (writeOfptInPort (array [0x00, 0x01])) 2 s
  let s ← put (writeOfptReason (array [0x00])) 1 s
  let length := s.i - 5
  let data ← writeLength (array [length]) s.data 5
  let printed ← printDataBuffer data 5
  some (data, printed)

end Helpers

section Layout
variable {n : ℕ}

/-- The fields of the message in order, with the widths of the helpers and the moves of
the cursor. -/
def packetInFields (p1 : Processor) : List Field :=
  [⟨1, array [0x00], 1, 1⟩, ⟨6, p1.con.macAddr, 6, 6⟩, ⟨6, p1.swt.macAddr, 6, 6⟩,
   ⟨2, array [0x08, 0x00], 2, 2⟩, ⟨1, array [0x45], 1, 1⟩, ⟨1, array [0x00], 1, 1⟩,
   ⟨2, array [0x00, 0x29], 2, 2⟩, ⟨2, array [0x16, 0x81], 2, 2⟩, ⟨1, array [0x40], 1, 1⟩,
   ⟨1, array [0x00], 1, 1⟩, ⟨1, array [0x80], 1, 1⟩, ⟨1, array [0x00], 1, 1⟩,
   ⟨2, array [0x00, 0x00], 2, 2⟩, ⟨4, p1.swt.ipAddr, 4, 4⟩, ⟨4, p1.con.ipAddr, 4, 4⟩,
   ⟨2, p1.swt.port, 2, 2⟩, ⟨2, p1.con.port, 2, 2⟩,
   ⟨4, array [0x00, 0x00, 0x00, 0x01], 4, 4⟩, ⟨4, array [0x00, 0x00, 0x00, 0x00], 4, 4⟩,
   ⟨1, array [0x50], 1, 1⟩, ⟨4, array [0x00, 0x00, 0x00, 0x00], 1, 1⟩,
   ⟨2, array [0xfc, 0xab], 2, 2⟩, ⟨2, array [0x3c, 0x38], 1, 2⟩, ⟨1, array [0x00], 1, 1⟩,
   ⟨1, array [0x00], 1, 1⟩, ⟨1, array [0x04], 1, 1⟩, ⟨1, array [0x0a], 1, 1⟩,
   ⟨2, array [0x00, 0x3c], 2, 2⟩, ⟨4, array [0x00, 0x00, 0x00, 0x00], 4, 4⟩,
   ⟨4, array [0x00, 0x00, 0x00, 0x01], 4, 4⟩, ⟨2, array [0x00, 0x2a], 2, 2⟩,
   ⟨2, array [0x00, 0x01], 2, 2⟩, ⟨1, array [0x00], 1, 1⟩]

theorem generate_eq (p1 : Processor) (b : Block n) :
    generateOpenflowPacketIn p1 b = (do
      let s ← putAll (packetInFields p1) ⟨b, 5⟩
      let data ← writeLength (array [s.i - 5]) s.data 5
      let printed ← printDataBuffer data 5
      some (data, printed)) := by
  simp only [putAll, packetInFields, List.foldlM_cons, List.foldlM_nil, bind_assoc, pure_bind]
  rfl

theorem packetInFields_fit (p1 : Processor) : ∀ f ∈ packetInFields p1, f.Fits := by
  have hall : (packetInFields p1).all (fun f => decide f.Fits) = true := rfl
  exact fun f hf => of_decide_eq_true (List.all_eq_true.mp hall f hf)

/-- All cells are written but the second one of the TCP checksum. -/
theorem cells_written (p1 : Processor) :
    (allCells (packetInFields p1)).map Option.isSome =
      List.replicate 52 true ++ [false] ++ List.replicate 19 true := rfl

theorem length_cells (p1 : Processor) : (allCells (packetInFields p1)).length = 72 := by
  rw [← List.length_map, cells_written]
  rfl

/-- What the message has at index `j` from the processor, if anything. -/
def messageByte (p1 : Processor) (j : ℕ) : Option UInt8 :=
  if j = 5 then some 72 else cellAt 5 (allCells (packetInFields p1)) j

/-- The indices that are written are those behind the length byte up to the last field, but
for the second byte of the TCP checksum. -/
theorem messageByte_isSome_iff (p1 : Processor) (j : ℕ) :
    (messageByte p1 j).isSome = true ↔ 5 ≤ j ∧ j < 77 ∧ j ≠ 57 := by
  rw [messageByte]
  split_ifs with hfive
  · subst hfive
    decide
  · rw [cellAt]
    split_ifs with hle
    · rcases Nat.lt_or_ge (j - 5) 72 with hlt | hge
      · have hcell := congrArg (fun l => l[j - 5]?) (cells_written p1)
        have hlist : ∀ k < 72, (List.replicate 52 true ++ [false] ++ List.replicate 19 true)[k]? =
            some (decide (k ≠ 52)) := by decide
        have hin := List.getElem?_eq_getElem (l := allCells (packetInFields p1))
          (show j - 5 < _ by rw [length_cells]; exact hlt)
        simp only [List.getElem?_map, hlist _ hlt, hin, Option.map_some, Option.some.injEq]
          at hcell
        rw [hin, Option.join_some, hcell, decide_eq_true_eq]
        omega
      · rw [List.getElem?_eq_none (by rw [length_cells]; exact hge)]
        simp only [Option.join_none, Option.isSome_none, Bool.false_eq_true, false_iff]
        omega
    · simp only [Option.isSome_none, Bool.false_eq_true, false_iff]
      omega

theorem writeLength_spec (v : UInt8) (data : Block n) {i : UInt8} (hi : i.toNat < n) :
    writeLength (array [v]) data i = some (data.set i.toNat v) := by
  have hread := Block.readSlice_natCast (array [v]) (k := 0) (m := 1) le_rfl
  have hwrite := Block.writeSlice_natCast data ((array [v]).slice 0 1) (k := i.toNat) (by omega)
  have hset : data.splice i.toNat ((array [v]).slice 0 1) = data.set i.toNat v := by
    refine Block.ext_byte fun j hj => ?_
    rw [Block.byte_splice _ _ hj, Block.byte_set _ _ hj]
    by_cases heq : j = i.toNat
    · rw [if_pos (by omega), if_pos heq, heq, Nat.sub_self]
      rfl
    · rw [if_neg (by omega), if_neg heq]
  rw [← hset]
  exact bind_some_of hread hwrite

theorem read_set (data : Block n) (v : UInt8) (hn : 5 < n) :
    (data.set 5 v).read (5 : ℕ) = some v := by
  rw [Block.read_natCast _ hn, Block.byte_set _ _ hn, if_pos rfl]

/-- What the function leaves in the buffer and prints, if the buffer goes up to the last byte
that the length byte announces. -/
theorem generate_spec (p1 : Processor) (b : Block n) (hn : 77 < n) :
    ∃ data : Block n, generateOpenflowPacketIn p1 b = some (data, (data.slice 6 72).toList) ∧
      ∀ j < n, data.byte j = (messageByte p1 j).getD (b.byte j) := by
  have hlen := length_cells p1
  have hstart : Holds b (⟨b, 5⟩ : Writing n).data 5 [] := holds_nil b 5
  obtain ⟨s, hputs, hs, hi⟩ := putAll_spec (packetInFields p1) (packetInFields_fit p1) hstart rfl
    (by rw [List.nil_append]; omega) (by rw [List.nil_append]; omega)
  rw [List.nil_append] at hs hi
  have hlength : s.i - 5 = 72 := by
    have hend : s.i = 77 := UInt8.toNat_inj.mp (by rw [hi, hlen]; rfl)
    rw [hend]
    rfl
  have hwrite := writeLength_spec 72 s.data (i := 5) (show 5 < n by omega)
  have hfirst := read_set s.data 72 (show 5 < n by omega)
  have hprinted := Block.readSlice_natCast (s.data.set 5 72) (k := 6) (m := 72) (by omega)
  refine ⟨s.data.set 5 72, ?_, fun j hj => ?_⟩
  · rw [generate_eq, bind_some_eq hputs, hlength, bind_some_eq hwrite]
    exact bind_some_of (bind_some_of hfirst (bind_some_of hprinted rfl)) rfl
  · rw [Block.byte_set _ _ hj, messageByte, hs j hj]
    split_ifs <;> rfl

/-- A shorter buffer does not hold what is printed. -/
theorem generate_inside (p1 : Processor) {b : Block n} {result : Block n × List UInt8}
    (h : generateOpenflowPacketIn p1 b = some result) : 77 < n := by
  rw [generate_eq] at h
  obtain ⟨s, hputs, h⟩ := bind_inv h
  obtain ⟨data, hwrite, h⟩ := bind_inv h
  obtain ⟨printed, hprint, -⟩ := bind_inv h
  have hlength : s.i - 5 = 72 := by
    rw [putAll_cursor _ hputs]
    simp only [packetInFields, List.foldl_cons, List.foldl_nil]
    decide
  rw [hlength] at hwrite
  by_contra hshort
  rcases Nat.lt_or_ge 5 n with hfive | hnone
  · rw [writeLength_spec 72 s.data (i := 5) hfive] at hwrite
    cases hwrite
    obtain ⟨length, hfirst, hprint⟩ := bind_inv hprint
    obtain ⟨rest, hrest, -⟩ := bind_inv hprint
    cases hfirst.symm.trans (read_set s.data 72 hfive)
    rw [Block.readSlice, if_neg (show ¬ _ by simp only [UInt8.reduceToNat]; omega)] at hrest
    cases hrest
  · obtain ⟨bytes, -, hwrite⟩ := bind_inv hwrite
    rw [Block.writeSlice, if_neg (show ¬ _ by simp only [UInt8.reduceToNat]; omega)] at hwrite
    cases hwrite

end Layout

section Message
variable {n : ℕ}

/-- The bytes sent: the length byte and those it announces. -/
def message (result : Block n × List UInt8) : List UInt8 := result.1.byte 5 :: result.2

/-- Index `j` is written: what stands there afterwards does not depend on the buffer. -/
def Written (n : ℕ) (p1 : Processor) (j : ℕ) : Prop :=
  j < n ∧ ∀ (b b' : Block n) r r', generateOpenflowPacketIn p1 b = some r →
    generateOpenflowPacketIn p1 b' = some r' → r.1.byte j = r'.1.byte j

/-- The same message is generated over either buffer. -/
def SameMessage (p1 : Processor) (b b' : Block n) : Prop :=
  ∃ r r', generateOpenflowPacketIn p1 b = some r ∧ generateOpenflowPacketIn p1 b' = some r' ∧
    message r = message r'

structure IntendedBytes (p1 : Processor) (b b' : Block n) : Prop where
  counted : ∃ r, generateOpenflowPacketIn p1 b = some r ∧
    (r.1.byte 5).toNat = Set.ncard {j | 5 < j ∧ Written n p1 j}
  same : SameMessage p1 b b'

theorem written_iff (p1 : Processor) (hn : 77 < n) (j : ℕ) :
    Written n p1 j ↔ 5 ≤ j ∧ j < 77 ∧ j ≠ 57 := by
  rw [← messageByte_isSome_iff p1 j]
  constructor
  · rintro ⟨hj, hsame⟩
    by_contra hnone
    rw [Option.not_isSome_iff_eq_none] at hnone
    obtain ⟨data, hgen, hdata⟩ := generate_spec p1 (Block.ofFn fun _ => 0) hn
    obtain ⟨data', hgen', hdata'⟩ := generate_spec p1 (Block.ofFn fun _ => 1) hn
    have heq := hsame _ _ _ _ hgen hgen'
    simp only [hdata j hj, hdata' j hj, hnone, Option.getD_none, Block.byte_ofFn hj] at heq
    exact absurd heq (by decide)
  · intro hsome
    have hj := (messageByte_isSome_iff p1 j).mp hsome
    obtain ⟨v, hv⟩ := Option.isSome_iff_exists.mp hsome
    refine ⟨by omega, fun b b' r r' hr hr' => ?_⟩
    obtain ⟨data, hgen, hdata⟩ := generate_spec p1 b hn
    obtain ⟨data', hgen', hdata'⟩ := generate_spec p1 b' hn
    cases hr.symm.trans hgen
    cases hr'.symm.trans hgen'
    rw [hdata j (by omega), hdata' j (by omega), hv]
    rfl

/-- 70 bytes are written behind the length byte. -/
theorem ncard_written (p1 : Processor) (hn : 77 < n) :
    Set.ncard {j | 5 < j ∧ Written n p1 j} = 70 := by
  have hset : {j | 5 < j ∧ Written n p1 j} = ((Finset.Ico 6 77).erase 57 : Finset ℕ) := by
    ext j
    simp only [Set.mem_ofPred_eq, written_iff p1 hn, Finset.coe_erase, Finset.coe_Ico,
      Set.mem_sdiff, Set.mem_Ico, Set.mem_singleton_iff]
    omega
  rw [hset, Set.ncard_coe_finset]
  decide

theorem message_eq_iff (data data' : Block n) :
    message (data, (data.slice 6 72).toList) = message (data', (data'.slice 6 72).toList) ↔
      ∀ j, 5 ≤ j → j < 78 → data.byte j = data'.byte j := by
  constructor
  · intro heq j hge hlt
    obtain ⟨hfirst, hrest⟩ := List.cons.inj heq
    rcases Nat.eq_or_lt_of_le hge with rfl | hbehind
    · exact hfirst
    · have hcell := congrArg (fun l => l[j - 6]?) hrest
      simp only [Block.getElem?_toList _ (show j - 6 < 72 by omega),
        Block.byte_slice _ (show j - 6 < 72 by omega), Option.some.injEq] at hcell
      rwa [Nat.add_sub_cancel' hbehind] at hcell
  · intro hbytes
    have hslice : data.slice 6 72 = data'.slice 6 72 := Block.ext_byte fun j hj => by
      rw [Block.byte_slice _ hj, Block.byte_slice _ hj, hbytes (6 + j) (by omega) (by omega)]
    rw [message, message, hslice, hbytes 5 le_rfl (by decide)]

theorem getD_eq_iff {p1 : Processor} {j : ℕ} (v v' : UInt8) :
    (messageByte p1 j).getD v = (messageByte p1 j).getD v' ↔
      (messageByte p1 j).isSome = true ∨ v = v' := by
  cases messageByte p1 j <;> simp

/-- Two bytes of the message are those of the buffer, the second of the TCP checksum and the
one behind the last field. -/
theorem sameMessage_iff (p1 : Processor) (b b' : Block n) :
    SameMessage p1 b b' ↔ 77 < n ∧ b.byte 57 = b'.byte 57 ∧ b.byte 77 = b'.byte 77 := by
  by_cases hn : 77 < n
  · obtain ⟨data, hgen, hdata⟩ := generate_spec p1 b hn
    obtain ⟨data', hgen', hdata'⟩ := generate_spec p1 b' hn
    have hsame : ∀ j, 5 ≤ j → j < 78 →
        (data.byte j = data'.byte j ↔ (j < 77 ∧ j ≠ 57) ∨ b.byte j = b'.byte j) := by
      intro j hge hlt
      rw [hdata j (by omega), hdata' j (by omega), getD_eq_iff, messageByte_isSome_iff]
      exact or_congr_left ⟨fun h => h.2, fun h => ⟨hge, h⟩⟩
    have hmessage : SameMessage p1 b b' ↔ ∀ j, 5 ≤ j → j < 78 → data.byte j = data'.byte j := by
      rw [← message_eq_iff data data']
      refine ⟨?_, fun heq => ⟨_, _, hgen, hgen', heq⟩⟩
      rintro ⟨r, r', hr, hr', heq⟩
      cases hr.symm.trans hgen
      cases hr'.symm.trans hgen'
      exact heq
    rw [hmessage]
    constructor
    · intro hbytes
      have h57 := (hsame 57 (by decide) (by decide)).mp (hbytes 57 (by decide) (by decide))
      have h77 := (hsame 77 (by decide) (by decide)).mp (hbytes 77 (by decide) (by decide))
      exact ⟨hn, h57.resolve_left (by decide), h77.resolve_left (by decide)⟩
    · rintro ⟨-, h57, h77⟩ j hge hlt
      refine (hsame j hge hlt).mpr ?_
      by_cases hin : j < 77 ∧ j ≠ 57
      · exact .inl hin
      · obtain rfl | rfl : j = 57 ∨ j = 77 := by omega
        · exact .inr h57
        · exact .inr h77
  · refine iff_of_false ?_ fun h => hn h.1
    rintro ⟨r, -, hr, -⟩
    exact hn (generate_inside p1 hr)

/-- The length byte announces 72 bytes, two of which are stale. -/
theorem packet_in_never_intended (p1 : Processor) (b b' : Block n) :
    ¬ IntendedBytes p1 b b' ∧ (SameMessage p1 b b' ↔
      77 < n ∧ b.byte 57 = b'.byte 57 ∧ b.byte 77 = b'.byte 77) := by
  refine ⟨?_, sameMessage_iff p1 b b'⟩
  rintro ⟨⟨r, hr, hcount⟩, -⟩
  have hn := generate_inside p1 hr
  obtain ⟨data, hgen, hdata⟩ := generate_spec p1 b hn
  cases hr.symm.trans hgen
  have hlength : data.byte 5 = 72 := hdata 5 (by omega)
  rw [ncard_written p1 hn, hlength] at hcount
  exact absurd hcount (by decide)

/-- Switch and controller with all addresses 0. -/
def zeroedProcessor : Processor :=
  ⟨⟨Block.ofFn fun _ => 0, Block.ofFn fun _ => 0, Block.ofFn fun _ => 0⟩,
    ⟨Block.ofFn fun _ => 0, Block.ofFn fun _ => 0, Block.ofFn fun _ => 0⟩⟩

/-- Over a buffer of zeros another message is sent than over one of ones. -/
theorem stale_bytes_sent :
    ¬ IntendedBytes zeroedProcessor (Block.ofFn fun _ => 0 : Block 1000)
      (Block.ofFn fun _ => 255) := by
  intro h
  have hbyte := ((sameMessage_iff _ _ _).mp h.same).2.1
  exact absurd hbyte (by decide)

end Message

end NetWalk.PacketIn
