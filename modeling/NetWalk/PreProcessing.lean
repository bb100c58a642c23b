import NetWalk.BitOperations
import NetWalk.PacketFrames
import NetWalk.MatchFieldRing

/-!
# Preparing match fields

The pre-processor takes the next frame from the packet buffer without removing
it, lays out its header fields as a match field of `MTCH_FLD_LEN` bytes, and
enqueues that in the match-field buffer. Frame and match field live in two
`malloc`ed blocks, whose first contents are arguments here. Running positions
are bit positions in the frame (`pktLength`) and in the match field
(`mfLength`); `noOfBitsInserting` is the width last used.
-/
namespace NetWalk.PreProcessing
open ByteBlock BitOperations PacketByteRing PacketFrames MatchFieldRing

/-- `MAX_PACKET_SIZE` -/
def maxPacketSize : ℕ := 100

/-- `enum packet_header_lengths`, in bits. -/
structure PacketHeaderLengths where
  ingressPort : ℕ := 32
  metadata : ℕ := 64
  macSrc : ℕ := 48
  macDst : ℕ := 48
  ethTyp : ℕ := 16
  vlanId : ℕ := 12
  vlanPriority : ℕ := 3
  mplsLabel : ℕ := 20
  mplsTrafficCls : ℕ := 3
  ipv4Src : ℕ := 32
  ipv4Dst : ℕ := 32
  ipv4Protocol : ℕ := 8
  ipv4Tos : ℕ := 6
  tcpSrc : ℕ := 16
  tcpDst : ℕ := 16

def bits : PacketHeaderLengths := {}

structure PreProcessor where
  pb : PacketBuffer
  mf : MatchFieldBuffer

def initializePreprocessor (pp : PreProcessor) : PreProcessor :=
  ⟨initializePacketBuffer pp.pb, initializeMatchFieldBuffer pp.mf⟩

def loadNextPacketToThePacketBuffer (fp : List PcapNext) (pp : PreProcessor)
    (ingressPort : Block 4) (metadata : Block 8) : Option (List PcapNext × PreProcessor) := do
  let (fp, pb) ← loadNextPacketToTheBuffer pp.pb ingressPort metadata fp
  some (fp, { pp with pb := pb })

section BitCopies
variable {n m : ℕ}

def setMatchFieldBits (pkt : Block n) (matchField : Block m) (startPkt startMf length : ℕ) :
    Option (Block m) :=
  (List.range length).foldlM (fun matchField i => do
    if ← readBit pkt (startPkt + i : ℕ) then setBit matchField (startMf + i : ℕ)
    else resetBit matchField (startMf + i : ℕ)) matchField

/-- As in the source: the bits are set. -/
def setMatchFieldBitsAsZeros (matchField : Block m) (startMf length : ℕ) : Option (Block m) :=
  (List.range length).foldlM (fun matchField i => setBit matchField (startMf + i : ℕ))
    matchField

/-- As in the source: the bits are reset. -/
def setMatchFieldBitsAsOnes (matchField : Block m) (startMf length : ℕ) : Option (Block m) :=
  (List.range length).foldlM (fun matchField i => resetBit matchField (startMf + i : ℕ))
    matchField

theorem setMatchFieldBits_spec (pkt : Block n) (matchField : Block m)
    {startPkt startMf length : ℕ} (hpkt : startPkt + length ≤ 8 * n)
    (hmf : startMf + length ≤ 8 * m) :
    ∃ mf', setMatchFieldBits pkt matchField startPkt startMf length = some mf' ∧
      ∀ q < 8 * m, bit mf' q =
        if startMf ≤ q ∧ q < startMf + length then bit pkt (startPkt + (q - startMf))
        else bit matchField q := by
  refine foldlM_putBit matchField _ (fun i => bit pkt (startPkt + i)) startMf ?_ hmf
  intro b i hi
  exact copyBit b (readBit_natCast pkt (by omega)) rfl (by omega)

theorem setMatchFieldBitsAsZeros_spec (matchField : Block m) {startMf length : ℕ}
    (hmf : startMf + length ≤ 8 * m) :
    ∃ mf', setMatchFieldBitsAsZeros matchField startMf length = some mf' ∧
      ∀ q < 8 * m, bit mf' q =
        if startMf ≤ q ∧ q < startMf + length then true else bit matchField q :=
  foldlM_putBit matchField _ (fun _ => true) startMf
    (fun b _ _ => setBit_natCast b (by omega)) hmf

end BitCopies

/-- The positions after one stretch of the layout. -/
structure Cursors where
  pktLength : ℕ
  mfLength : ℕ
  noOfBitsInserting : ℕ

/-- Ingress port, metadata, both MAC addresses and the ether type. -/
def layLinkFields (pkt : Block maxPacketSize) (matchField : Block mtchFldLen) :
    Option (Block mtchFldLen × Cursors) := do
  let noOfBits := bits.ingressPort + bits.metadata
  let matchField ← setMatchFieldBits pkt matchField 8 0 noOfBits
  -- the frame has the destination address first, the match field the source address
  let pktLength := 8 + noOfBits
  let mfLength := 0 + noOfBits + bits.macSrc
  let matchField ← setMatchFieldBits pkt matchField pktLength mfLength bits.macDst
  let pktLength := pktLength + bits.macDst
  let mfLength := mfLength - bits.macSrc
  let matchField ← setMatchFieldBits pkt matchField pktLength mfLength bits.macSrc
  let pktLength := pktLength + bits.macSrc
  let mfLength := mfLength + bits.macSrc + bits.macDst
  let matchField ← setMatchFieldBits pkt matchField pktLength mfLength bits.ethTyp
  some (matchField, ⟨pktLength, mfLength, bits.ethTyp⟩)

/-- The VLAN and MPLS fields, by ether type; `additional_tag_length` is already
added to the frame position. -/
def layTagFields (pkt : Block maxPacketSize) (matchField : Block mtchFldLen) (c : Cursors) :
    Option (Block mtchFldLen × Cursors) := do
  if pkt.byte 25 = 8 ∧ pkt.byte 26 = 0 then
    let mfLength := c.mfLength + c.noOfBitsInserting
    let noOfBits := bits.vlanId + bits.vlanPriority + bits.mplsLabel + bits.mplsTrafficCls
    let matchField ← setMatchFieldBitsAsZeros matchField mfLength noOfBits
    some (matchField, ⟨c.pktLength, mfLength, noOfBits⟩)
  else if pkt.byte 25 = 129 ∧ pkt.byte 26 = 0 then
    let pktLength := c.pktLength + c.noOfBitsInserting + 16
    let mfLength := c.mfLength + c.noOfBitsInserting + bits.vlanId
    let matchField ← setMatchFieldBits pkt matchField pktLength mfLength bits.vlanPriority
    let pktLength := pktLength + bits.vlanPriority + 1
    let mfLength := mfLength - bits.vlanId
    let matchField ← setMatchFieldBits pkt matchField pktLength mfLength bits.vlanId
    let mfLength := mfLength + bits.vlanId + bits.vlanPriority
    let noOfBits := bits.mplsLabel + bits.mplsTrafficCls
    let matchField ← setMatchFieldBitsAsZeros matchField mfLength noOfBits
    some (matchField, ⟨pktLength, mfLength, noOfBits⟩)
  else if pkt.byte 25 = 136 ∧ pkt.byte 26 = 71 then
    let mfLength := c.mfLength + c.noOfBitsInserting
    let noOfBits := bits.vlanId + bits.vlanPriority
    let matchField ← setMatchFieldBitsAsZeros matchField mfLength noOfBits
    let mfLength := mfLength + noOfBits
    let pktLength := c.pktLength + noOfBits
    let noOfBits := bits.mplsLabel + bits.mplsTrafficCls
    let matchField ← setMatchFieldBits pkt matchField pktLength mfLength noOfBits
    some (matchField, ⟨pktLength + 9, mfLength, noOfBits⟩)
  else some (matchField, c)

/-- The IPv4 and TCP fields. -/
def layTransportFields (pkt : Block maxPacketSize) (matchField : Block mtchFldLen)
    (c : Cursors) : Option (Block mtchFldLen) := do
  let pktLength := c.pktLength + c.noOfBitsInserting + 8
  let mfLength := c.mfLength + c.noOfBitsInserting + bits.ipv4Src + bits.ipv4Dst +
    bits.ipv4Protocol
  let matchField ← setMatchFieldBits pkt matchField pktLength mfLength bits.ipv4Tos
  let pktLength := pktLength + bits.ipv4Tos + 56
  let mfLength := mfLength - bits.ipv4Protocol
  let matchField ← setMatchFieldBits pkt matchField pktLength mfLength bits.ipv4Protocol
  let pktLength := pktLength + bits.ipv4Protocol + 16
  let mfLength := mfLength - bits.ipv4Src - bits.ipv4Dst
  let matchField ← setMatchFieldBits pkt matchField pktLength mfLength bits.ipv4Src
  let pktLength := pktLength + bits.ipv4Src
  let mfLength := mfLength + bits.ipv4Src
  let matchField ← setMatchFieldBits pkt matchField pktLength mfLength bits.ipv4Dst
  let pktLength := pktLength + bits.ipv4Dst
  let mfLength := mfLength + bits.ipv4Dst + bits.ipv4Protocol + bits.ipv4Tos
  let matchField ← setMatchFieldBits pkt matchField pktLength mfLength bits.tcpSrc
  let pktLength := pktLength + bits.tcpSrc
  let mfLength := mfLength + bits.tcpSrc
  setMatchFieldBits pkt matchField pktLength mfLength bits.tcpDst

/-- The match field laid out for the frame in `pkt`. The local
`ipv4_header_length` of the source is computed and never used. -/
def layMatchField (pkt : Block maxPacketSize) (matchField : Block mtchFldLen) :
    Option (Block mtchFldLen) := do
  let (matchField, c) ← layLinkFields pkt matchField
  let (matchField, c) ← layTagFields pkt matchField c
  layTransportFields pkt matchField c

def enqueueMatchField (mfb : MatchFieldBuffer) (matchField : Block mtchFldLen) :
    Option MatchFieldBuffer :=
  matchField.toList.foldlM addAByteToTheMatchFieldBuffer mfb

/-- `matchField` and `pkt` are what `malloc` returned. -/
def prepareMatchField (pp : PreProcessor) (matchField : Block mtchFldLen)
    (pkt : Block maxPacketSize) : Option PreProcessor := do
  let (pb, pkt) ← readAPacketForPreprocessing pp.pb pkt
  let matchField ← layMatchField pkt matchField
  let mf ← enqueueMatchField pp.mf matchField
  some ⟨pb, mf⟩

def returnMatchFieldAndPacket {m n : ℕ} (pp : PreProcessor) (returnMtchFld : Block m)
    (returnPacket : Block n) : Option (PreProcessor × Block m × Block n) := do
  let (mf, returnMtchFld) ← readAMatchField pp.mf returnMtchFld
  let (pb, returnPacket) ← readAPacket pp.pb returnPacket
  some (⟨pb, mf⟩, returnMtchFld, returnPacket)

theorem enqueueMatchField_spec {mfb : MatchFieldBuffer} {accepted : List UInt8} {deq : ℕ}
    (h : Fills mfb accepted deq) (matchField : Block mtchFldLen)
    (hroom : accepted.length + mtchFldLen ≤ matchFieldArraySize) :
    ∃ mfb', enqueueMatchField mfb matchField = some mfb' ∧
      Fills mfb' (accepted ++ matchField.toList) deq := by
  rw [← matchField.length_toList] at hroom
  unfold enqueueMatchField
  generalize matchField.toList = bytes at hroom
  induction bytes generalizing mfb accepted with
  | nil => exact ⟨mfb, rfl, by simpa using h⟩
  | cons x bytes ih =>
    simp only [List.length_cons] at hroom
    obtain ⟨mfb₁, hadd, hfills, -⟩ := addAByte_spec h (by omega) x
    obtain ⟨mfb', hmfb', hfills'⟩ := ih hfills (by simp; omega)
    exact ⟨mfb', by simp [List.foldlM_cons, hadd, hmfb'], by simpa using hfills'⟩

/-- A match field beyond the last one the array has room for leaves the array. -/
theorem enqueueMatchField_overrun {mfb : MatchFieldBuffer} {accepted : List UInt8} {deq : ℕ}
    (h : Fills mfb accepted deq) (matchField : Block mtchFldLen)
    (hfull : accepted.length = matchFieldArraySize) :
    enqueueMatchField mfb matchField = none := by
  have hne : matchField.toList ≠ [] := by
    rw [← List.length_pos_iff, Block.length_toList]
    decide
  obtain ⟨x, bytes, hx⟩ := List.exists_cons_of_ne_nil hne
  simp [enqueueMatchField, hx, List.foldlM_cons, addAByte_overrun h hfull x]

end NetWalk.PreProcessing
