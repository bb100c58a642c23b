import NetWalk.PacketFrames
import NetWalk.PacketIn

/-!
# What the processor does with a captured packet

The program that drives the processor loads the next packet of a capture into a fresh
buffer, and looks at the bytes of the buffer directly: at the destination MAC and IP address,
whether the packet is for the switch, and then at the source port, whether it comes from the
controller. A packet for anybody else is answered with a Packet-In message. The length of the
packet is not looked at, so behind a short packet stale bytes are compared.
-/
namespace NetWalk.PacketDispatch
open ByteBlock CursorWrites PacketByteRing PacketFrames PacketIn

/-- `HEAD`: the packet begins behind the length byte, the ingress port and the metadata. -/
def head : ℕ := 13

def dstMacAddr : ℕ := head

def ipDstAddr : ℕ := head + 30

def tcpSrcPort : ℕ := head + 34

section Comparing
variable {m n : ℕ}

/-- The loop of the comparisons, which ends with the first difference. -/
def compareFrom (field₁ : Block m) (k : ℕ) (field₂ : Block n) : ℕ → ℕ → Option Bool
  | 0, _ => some true
  | count + 1, i => do
      let a ← field₁.read (k + i : ℕ)
      let b ← field₂.read i
      if a ≠ b then some false else compareFrom field₁ k field₂ count (i + 1)

/-- `n` bytes from index `k` on and the first `n` bytes of another array. -/
def compareFieldOfN (field₁ : Block m) (k : ℕ) (field₂ : Block n) (count : UInt8) : Option Bool :=
  compareFrom field₁ k field₂ count.toNat 0

def compareMacAddr (mac1 : Block m) (k : ℕ) (mac2 : Block n) : Option Bool :=
  compareFrom mac1 k mac2 6 0

def compareIpAddr (ip1 : Block m) (k : ℕ) (ip2 : Block n) : Option Bool :=
  compareFrom ip1 k ip2 4 0

def compareTcpPort (port1 : Block m) (k : ℕ) (port2 : Block n) : Option Bool :=
  compareFrom port1 k port2 2 0

theorem compareFrom_spec (field₁ : Block m) (k : ℕ) (field₂ : Block n) {count i : ℕ}
    (hm : k + i + count ≤ m) (hn : i + count ≤ n) :
    compareFrom field₁ k field₂ count i =
      some (decide (∀ j < count, field₁.byte (k + (i + j)) = field₂.byte (i + j))) := by
  induction count generalizing i with
  | zero =>
    rw [compareFrom, decide_eq_true fun j hj => absurd hj (Nat.not_lt_zero j)]
  | succ count ih =>
    have hread₁ := Block.read_natCast field₁ (show k + i < m by omega)
    have hread₂ := Block.read_natCast field₂ (show i < n by omega)
    rw [compareFrom, bind_some_eq hread₁, bind_some_eq hread₂]
    split_ifs with hne
    · refine congrArg some (decide_eq_false fun hall => hne ?_).symm
      exact hall 0 (Nat.succ_pos _)
    · rw [ih (by omega) (by omega), Option.some_inj, decide_eq_decide]
      constructor
      · intro hall j hj
        cases j with
        | zero => exact not_not.mp hne
        | succ j =>
          have := hall j (by omega)
          rwa [show i + 1 + j = i + (j + 1) by omega] at this
      · intro hall j hj
        have := hall (j + 1) (by omega)
        rwa [show i + (j + 1) = i + 1 + j by omega] at this

/-- A comparison is one of all bytes. -/
theorem compare_spec (field₁ : Block m) (k d : ℕ) (field₂ : Block n) (count : ℕ)
    (hm : k + d + count ≤ m) (hn : count ≤ n) :
    compareFrom field₁ (k + d) field₂ count 0 =
      some (decide (∀ j < count, field₁.byte (k + (d + j)) = field₂.byte j)) := by
  rw [compareFrom_spec field₁ (k + d) field₂ hm (by omega)]
  simp only [Nat.zero_add, Nat.add_assoc]

end Comparing

/-- What is done with the packet: `openflow_packet_process` is called, nothing, or
`table_missed_packet_process`, which leaves and prints a message. -/
inductive Handling where
  | openflow
  | nothing
  | packetIn (packetInData : Block 1000) (printed : List UInt8)
deriving DecidableEq

section Model
variable {n : ℕ}

/-- The array for the message is a local one of the function. -/
def tableMissedPacketProcess (p1 : Processor) (packetInData : Block 1000) : Option Handling := do
  let (packetInData, printed) ← generateOpenflowPacketIn p1 packetInData
  some (.packetIn packetInData printed)

def handle (p1 : Processor) (dataBuffer : Block n) (packetInData : Block 1000) :
    Option Handling := do
  let macAddrMatched ← compareMacAddr dataBuffer dstMacAddr p1.swt.macAddr
  let ipAddrMatched ← compareIpAddr dataBuffer ipDstAddr p1.swt.ipAddr
  if macAddrMatched && ipAddrMatched then do
    let tcpPortMatched ← compareTcpPort dataBuffer tcpSrcPort p1.con.port
    if tcpPortMatched then some .openflow else some .nothing
  else tableMissedPacketProcess p1 packetInData

/-- From the initialisation of the buffer on. -/
def handleNextPacket (p1 : Processor) (packetIn : PacketBuffer) (ingressPort : Block 4)
    (metadata : Block 8) (fp : List PcapNext) (packetInData : Block 1000) : Option Handling := do
  let (_, pb) ← loadNextPacketToTheBuffer (initializePacketBuffer packetIn) ingressPort metadata fp
  handle p1 pb.packetBuffer packetInData

end Model

/-- The bytes are addressed to the switch. -/
def ForSwitch (p1 : Processor) (data : ℕ → UInt8) : Prop :=
  (∀ j < 6, data j = p1.swt.macAddr.byte j) ∧ ∀ j < 4, data (30 + j) = p1.swt.ipAddr.byte j

/-- The bytes come from the port of the controller. -/
def FromController (p1 : Processor) (data : ℕ → UInt8) : Prop :=
  ∀ j < 2, data (34 + j) = p1.con.port.byte j

instance (p1 : Processor) (data : ℕ → UInt8) : Decidable (ForSwitch p1 data) :=
  inferInstanceAs (Decidable (_ ∧ _))

instance (p1 : Processor) (data : ℕ → UInt8) : Decidable (FromController p1 data) :=
  inferInstanceAs (Decidable (∀ j < 2, data (34 + j) = p1.con.port.byte j))

/-- What is done with the bytes, if `message` is the answer for a packet for anybody else. -/
def outcome (p1 : Processor) (message : Handling) (data : ℕ → UInt8) : Handling :=
  if ForSwitch p1 data then if FromController p1 data then .openflow else .nothing else message

section Handling
variable {n : ℕ} {p1 : Processor} {message : Handling} {data data' : ℕ → UInt8}

theorem tableMissed_spec (p1 : Processor) (packetInData : Block 1000) :
    ∃ data, tableMissedPacketProcess p1 packetInData =
      some (.packetIn data (data.slice 6 72).toList) := by
  obtain ⟨data, hgen, -⟩ := generate_spec p1 packetInData (by decide)
  exact ⟨data, bind_some_of hgen rfl⟩

theorem forSwitch_congr (h : ∀ k < 34, data k = data' k) :
    ForSwitch p1 data ↔ ForSwitch p1 data' := by
  refine and_congr (forall_congr' fun j => forall_congr' fun hj => ?_)
    (forall_congr' fun j => forall_congr' fun hj => ?_)
  · rw [h j (by omega)]
  · rw [h (30 + j) (by omega)]

theorem fromController_congr (h : ∀ k < 36, data k = data' k) :
    FromController p1 data ↔ FromController p1 data' := by
  refine forall_congr' fun j => forall_congr' fun hj => ?_
  rw [h (34 + j) (by omega)]

theorem outcome_congr (h : ∀ k < 36, data k = data' k) :
    outcome p1 message data = outcome p1 message data' := by
  simp only [outcome, forSwitch_congr fun k hk => h k (hk.trans (by decide)),
    fromController_congr h]

/-- The addresses decide. -/
theorem handle_spec (dataBuffer : Block n) (hn : head + 36 ≤ n) {packetInData : Block 1000}
    (hmessage : tableMissedPacketProcess p1 packetInData = some message) :
    handle p1 dataBuffer packetInData =
      some (outcome p1 message fun k => dataBuffer.byte (head + k)) := by
  have hmac := compare_spec dataBuffer head 0 p1.swt.macAddr 6 (by omega) le_rfl
  have hip := compare_spec dataBuffer head 30 p1.swt.ipAddr 4 (by omega) le_rfl
  have hport := compare_spec dataBuffer head 34 p1.con.port 2 (by omega) le_rfl
  refine (bind_some_eq hmac).trans ((bind_some_eq hip).trans ?_)
  simp only [Nat.zero_add, ← Bool.decide_and, outcome]
  by_cases hfor : ForSwitch p1 fun k => dataBuffer.byte (head + k)
  · rw [if_pos hfor]
    refine (if_pos (decide_eq_true hfor)).trans ((bind_some_eq hport).trans ?_)
    by_cases hfrom : FromController p1 fun k => dataBuffer.byte (head + k)
    · rw [if_pos hfrom]
      exact if_pos (decide_eq_true hfrom)
    · rw [if_neg hfrom]
      exact if_neg fun h => hfrom (of_decide_eq_true h)
  · rw [if_neg hfor]
    exact (if_neg fun h => hfor (of_decide_eq_true h)).trans hmessage

end Handling

section Loading
variable {pb : PacketBuffer} {pkt : Packet}

/-- A byte added to a buffer that does not wrap. -/
theorem addAByte_cell {t : ℕ} (x : UInt8) (hhead : pb.packetBufferHead = 0)
    (hfull : pb.bufferFullFlag = false) (htail : pb.packetBufferTail = t)
    (ht : t + 1 < packetBufferLen) :
    ∃ pb', addAByteToThePacketBuffer pb x = some pb' ∧ pb'.packetBufferHead = 0 ∧
      pb'.bufferFullFlag = false ∧ pb'.packetBufferTail = t + 1 ∧
      pb'.packetBuffer = pb.packetBuffer.set t x := by
  have hnext : RingCursor.next packetBufferLen t = t + 1 := if_neg (by omega)
  have hwrite := Block.write_natCast pb.packetBuffer x (show t < packetBufferLen by omega)
  refine ⟨{ pb with
    packetBuffer := pb.packetBuffer.set t x
    bufferEmptyFlag := false
    packetBufferTail := t + 1 }, ?_, hhead, hfull, rfl, rfl⟩
  rw [addAByteToThePacketBuffer, hfull, if_neg Bool.false_ne_true, htail, bind_some_eq hwrite,
    hnext, hhead]
  rfl

/-- Bytes added behind the tail of a buffer that does not wrap. -/
theorem addBytes_cells {t : ℕ} {l : List UInt8} (hhead : pb.packetBufferHead = 0)
    (hfull : pb.bufferFullFlag = false) (htail : pb.packetBufferTail = t)
    (hl : t + l.length < packetBufferLen) :
    ∃ pb', addBytes pb l = some pb' ∧ ∀ j < packetBufferLen, pb'.packetBuffer.byte j =
      if t ≤ j then l[j - t]?.getD (pb.packetBuffer.byte j) else pb.packetBuffer.byte j := by
  induction l generalizing pb t with
  | nil =>
    refine ⟨pb, rfl, fun j _ => ?_⟩
    split_ifs <;> rfl
  | cons x l ih =>
    rw [List.length_cons] at hl
    obtain ⟨pb₁, hadd, hhead₁, hfull₁, htail₁, hcells₁⟩ :=
      addAByte_cell x hhead hfull htail (by omega)
    obtain ⟨pb', hrest, hcells⟩ := ih hhead₁ hfull₁ htail₁ (by omega)
    refine ⟨pb', ?_, fun j hj => ?_⟩
    · rw [addBytes, List.foldlM_cons]
      exact bind_some_of hadd hrest
    · rw [hcells j hj, hcells₁, Block.byte_set _ _ hj]
      rcases Nat.lt_trichotomy j t with hlt | rfl | hgt
      · rw [if_neg (by omega), if_neg (by omega), if_neg (by omega)]
      · rw [if_neg (by omega), if_pos rfl, if_pos le_rfl, Nat.sub_self]
        rfl
      · rw [if_pos (show t + 1 ≤ j from hgt), if_pos hgt.le, if_neg (by omega),
          show j - t = j - (t + 1) + 1 by omega, List.getElem?_cons_succ]

/-- The packet data of a frame. -/
theorem frame_data (pkt : Packet) (ingressPort : Block 4) (metadata : Block 8) (k : ℕ) :
    (pkt.frame ingressPort metadata)[head + k]? = pkt.pktData[k]? := by
  have hlen : (ingressPort.toList ++ metadata.toList).length = 12 := by
    simp only [List.length_append, Block.length_toList]
  rw [Packet.frame, show head + k = 12 + k + 1 by rw [head]; omega, List.getElem?_cons_succ,
    List.getElem?_append_right (by omega), hlen, Nat.add_sub_cancel_left]

/-- The bytes that are compared: those of the packet, and behind them what the array held. -/
def comparedByte (pb : PacketBuffer) (pkt : Packet) (k : ℕ) : UInt8 :=
  pkt.pktData[k]?.getD (pb.packetBuffer.byte (head + k))

theorem loadNext_cells (pb : PacketBuffer) (ingressPort : Block 4) (metadata : Block 8)
    {fp : List PcapNext} (hpkt : nextCaptured fp = some pkt)
    (hfit : pkt.caplen + 13 < packetBufferLen) :
    ∃ fp' pb', loadNextPacketToTheBuffer (initializePacketBuffer pb) ingressPort metadata fp =
        some (fp', pb') ∧
      ∀ k < 36, pb'.packetBuffer.byte (head + k) = comparedByte pb pkt k := by
  induction fp with
  | nil => cases hpkt
  | cons r fp ih =>
    cases r with
    | stop => cases hpkt
    | timeout => exact ih hpkt
    | packet pkt' =>
      cases hpkt
      have hlen := frame_length pkt ingressPort metadata
      obtain ⟨pb', hadd, hcells⟩ := @addBytes_cells (initializePacketBuffer pb) 0
        (pkt.frame ingressPort metadata) rfl rfl rfl (by omega)
      rw [← enqueuePacket_eq] at hadd
      refine ⟨fp, pb', bind_some_of hadd rfl, fun k hk => ?_⟩
      have hin : head + k < packetBufferLen := by
        rw [head, packetBufferLen]
        omega
      rw [hcells _ hin, if_pos (Nat.zero_le _), Nat.sub_zero, frame_data]
      rfl

/-- The packet and what the array held behind it are handled by the addresses among them. -/
theorem handleNextPacket_spec {p1 : Processor} {message : Handling} {packetInData : Block 1000}
    (hmessage : tableMissedPacketProcess p1 packetInData = some message) (pb : PacketBuffer)
    (ingressPort : Block 4) (metadata : Block 8) {fp : List PcapNext}
    (hpkt : nextCaptured fp = some pkt) (hfit : pkt.caplen + 13 < packetBufferLen) :
    handleNextPacket p1 pb ingressPort metadata fp packetInData =
      some (outcome p1 message (comparedByte pb pkt)) := by
  obtain ⟨fp', pb', hload, hcells⟩ := loadNext_cells pb ingressPort metadata hpkt hfit
  rw [handleNextPacket, bind_some_eq hload]
  refine (handle_spec pb'.packetBuffer (by decide) hmessage).trans ?_
  rw [outcome_congr hcells]

end Loading

/-- A byte of the packet differs from the field that it is compared with. -/
def Differs {n : ℕ} (pkt : Packet) (d : ℕ) (field : Block n) : Prop :=
  ∃ j < n, ∃ v, pkt.pktData[d + j]? = some v ∧ v ≠ field.byte j

/-- What the array of the buffer held before has no influence. -/
def FromPacketAlone (p1 : Processor) (pkt : Packet) : Prop :=
  ∀ pb pb' ingressPort ingressPort' metadata metadata' fp fp' packetInData,
    nextCaptured fp = some pkt → nextCaptured fp' = some pkt →
      handleNextPacket p1 pb ingressPort metadata fp packetInData =
        handleNextPacket p1 pb' ingressPort' metadata' fp' packetInData

section Short
variable {p1 : Processor} {pkt : Packet} {pb : PacketBuffer} {n : ℕ}

theorem comparedByte_captured {k : ℕ} (hk : k < pkt.caplen) (pb pb' : PacketBuffer) :
    comparedByte pb pkt k = comparedByte pb' pkt k := by
  rw [comparedByte, comparedByte, List.getElem?_eq_getElem (pkt.captured.symm ▸ hk)]
  rfl

theorem comparedByte_behind {k : ℕ} (hk : pkt.caplen ≤ k) :
    comparedByte pb pkt k = pb.packetBuffer.byte (head + k) := by
  rw [comparedByte, List.getElem?_eq_none (pkt.captured.trans_le hk)]
  rfl

theorem differs_compared {d : ℕ} {field : Block n} (h : Differs pkt d field)
    (pb : PacketBuffer) : ∃ j < n, comparedByte pb pkt (d + j) ≠ field.byte j := by
  obtain ⟨j, hj, v, hv, hne⟩ := h
  refine ⟨j, hj, ?_⟩
  rw [comparedByte, hv]
  exact hne

/-- Without a difference in the packet, the field is found if the array has the rest of it. -/
theorem compared_field {d : ℕ} {field : Block n} (h : ¬ Differs pkt d field)
    (hrest : ∀ j < n, pkt.caplen ≤ d + j → pb.packetBuffer.byte (head + (d + j)) = field.byte j) :
    ∀ j < n, comparedByte pb pkt (d + j) = field.byte j := by
  intro j hj
  rcases Nat.lt_or_ge (d + j) pkt.caplen with hlt | hge
  · rw [comparedByte, List.getElem?_eq_getElem (pkt.captured.symm ▸ hlt)]
    by_contra hne
    exact h ⟨j, hj, _, List.getElem?_eq_getElem (pkt.captured.symm ▸ hlt), hne⟩
  · rw [comparedByte_behind hge, hrest j hj hge]

/-- The bytes that the packet of the controller for the switch has. -/
def wanted (p1 : Processor) (k : ℕ) : UInt8 :=
  if k < 6 then p1.swt.macAddr.byte k
  else if k < 34 then p1.swt.ipAddr.byte (k - 30)
  else p1.con.port.byte (k - 34)

/-- An array that holds the given bytes where a packet would stand. -/
def bufferWith (data : ℕ → UInt8) : PacketBuffer :=
  { zeroedPacketBuffer with packetBuffer := Block.ofFn fun j => data (j - head) }

theorem byte_bufferWith (data : ℕ → UInt8) {k : ℕ} (hk : k < 36) :
    (bufferWith data).packetBuffer.byte (head + k) = data k := by
  have hin : head + k < packetBufferLen := by
    rw [head, packetBufferLen]
    omega
  change (Block.ofFn fun j => data (j - head) : Block packetBufferLen).byte (head + k) = data k
  rw [Block.byte_ofFn hin, Nat.add_sub_cancel_left]

/-- Addresses without a difference are found if the array has the rest of them. -/
theorem forSwitch_of (hmac : ¬ Differs pkt 0 p1.swt.macAddr)
    (hip : ¬ Differs pkt 30 p1.swt.ipAddr)
    (hrest : ∀ k < 34, pkt.caplen ≤ k → pb.packetBuffer.byte (head + k) = wanted p1 k) :
    ForSwitch p1 (comparedByte pb pkt) := by
  refine ⟨fun j hj => ?_, compared_field hip fun j hj hbehind => ?_⟩
  · refine (congrArg _ (Nat.zero_add j).symm).trans (compared_field hmac ?_ j hj)
    intro j hj hbehind
    rw [hrest _ (by omega) hbehind, wanted, if_pos (by omega), Nat.zero_add]
  · rw [hrest _ (by omega) hbehind, wanted, if_neg (by omega), if_pos (by omega),
      Nat.add_sub_cancel_left]

theorem fromController_of (hport : ¬ Differs pkt 34 p1.con.port)
    (hrest : ∀ k < 36, pkt.caplen ≤ k → pb.packetBuffer.byte (head + k) = wanted p1 k) :
    FromController p1 (comparedByte pb pkt) := by
  refine compared_field hport fun j hj hbehind => ?_
  rw [hrest _ (by omega) hbehind, wanted, if_neg (by omega), if_neg (by omega),
    Nat.add_sub_cancel_left]

/-- A byte that is not `v`. -/
def other (v : UInt8) : UInt8 := if v = 0 then 1 else 0

theorem other_ne (v : UInt8) : other v ≠ v := by
  rw [other]
  split_ifs with hv
  · rw [hv]
    decide
  · exact fun h => hv h.symm

/-- A packet that ends before anything is decided: two arrays, one that completes the packet
as wanted and one that does not. -/
theorem not_alone_of_short (hfit : pkt.caplen + 13 < packetBufferLen) (hshort : pkt.caplen < 36)
    (hmac : ¬ Differs pkt 0 p1.swt.macAddr) (hip : ¬ Differs pkt 30 p1.swt.ipAddr)
    (hport : 34 ≤ pkt.caplen → ¬ Differs pkt 34 p1.con.port) : ¬ FromPacketAlone p1 pkt := by
  intro halone
  obtain ⟨data, hmessage⟩ := tableMissed_spec p1 (Block.ofFn fun _ => 0)
  have hpkt : nextCaptured [.packet pkt] = some pkt := rfl
  have hsame := halone (bufferWith (wanted p1)) (bufferWith fun k => other (wanted p1 k))
    (Block.ofFn fun _ => 0) (Block.ofFn fun _ => 0) (Block.ofFn fun _ => 0)
    (Block.ofFn fun _ => 0) _ _ (Block.ofFn fun _ => 0) hpkt hpkt
  rw [handleNextPacket_spec hmessage _ _ _ hpkt hfit,
    handleNextPacket_spec hmessage _ _ _ hpkt hfit, Option.some_inj] at hsame
  have hwanted : ∀ k < 36, (bufferWith (wanted p1)).packetBuffer.byte (head + k) = wanted p1 k :=
    fun k hk => byte_bufferWith _ hk
  have hfor : ForSwitch p1 (comparedByte (bufferWith (wanted p1)) pkt) :=
    forSwitch_of hmac hip fun k hk _ => hwanted k (hk.trans (by decide))
  rw [outcome, if_pos hfor] at hsame
  rcases Nat.lt_or_ge pkt.caplen 34 with hlt | hge
  · -- the last byte of the IP address is not in the packet
    have hmissed : ¬ ForSwitch p1 (comparedByte (bufferWith fun k => other (wanted p1 k)) pkt) := by
      intro hfor'
      have hlast := hfor'.2 3 (by decide)
      rw [comparedByte_behind (by omega), byte_bufferWith _ (by decide)] at hlast
      exact other_ne _ hlast
    rw [outcome, if_neg hmissed] at hsame
    split_ifs at hsame
  · -- the last byte of the port is not in the packet
    have hfor' : ForSwitch p1 (comparedByte (bufferWith fun k => other (wanted p1 k)) pkt) :=
      (forSwitch_congr fun k hk => comparedByte_captured (by omega) _ _).mp hfor
    have hfrom : FromController p1 (comparedByte (bufferWith (wanted p1)) pkt) :=
      fromController_of (hport hge) fun k hk _ => hwanted k hk
    have hmissed :
        ¬ FromController p1 (comparedByte (bufferWith fun k => other (wanted p1 k)) pkt) := by
      intro hfrom'
      have hlast := hfrom' 1 (by decide)
      rw [comparedByte_behind (by omega), byte_bufferWith _ (by decide)] at hlast
      exact other_ne _ hlast
    rw [outcome, if_pos hfor', if_pos hfrom, if_neg hmissed] at hsame
    cases hsame

/-- A difference in the addresses decides. -/
theorem not_forSwitch (h : Differs pkt 0 p1.swt.macAddr ∨ Differs pkt 30 p1.swt.ipAddr)
    (pb : PacketBuffer) : ¬ ForSwitch p1 (comparedByte pb pkt) := by
  intro hfor
  rcases h with hmac | hip
  · obtain ⟨j, hj, hne⟩ := differs_compared hmac pb
    rw [Nat.zero_add] at hne
    exact hne (hfor.1 j hj)
  · obtain ⟨j, hj, hne⟩ := differs_compared hip pb
    exact hne (hfor.2 j hj)

theorem outcome_missed (h : Differs pkt 0 p1.swt.macAddr ∨ Differs pkt 30 p1.swt.ipAddr)
    (message : Handling) (pb : PacketBuffer) :
    outcome p1 message (comparedByte pb pkt) = message := if_neg (not_forSwitch h pb)

/-- With all bytes of the addresses in the packet, a difference in the port decides. -/
theorem outcome_port (hlong : 34 ≤ pkt.caplen) (hport : Differs pkt 34 p1.con.port)
    (message : Handling) (pb pb' : PacketBuffer) :
    outcome p1 message (comparedByte pb pkt) = outcome p1 message (comparedByte pb' pkt) := by
  have hfor : ForSwitch p1 (comparedByte pb pkt) ↔ ForSwitch p1 (comparedByte pb' pkt) :=
    forSwitch_congr fun k hk => comparedByte_captured (by omega) pb pb'
  have hnot : ∀ pb, ¬ FromController p1 (comparedByte pb pkt) := by
    intro pb hfrom
    obtain ⟨j, hj, hne⟩ := differs_compared hport pb
    exact hne (hfrom j hj)
  rw [outcome, outcome, if_neg (hnot pb), if_neg (hnot pb')]
  simp only [hfor]

end Short

/-- How a packet is handled follows from the packet if it has all bytes that are compared,
or a difference before they run out. -/
theorem from_packet_alone_iff (p1 : Processor) (pkt : Packet)
    (hfit : pkt.caplen + 13 < packetBufferLen) :
    FromPacketAlone p1 pkt ↔ 36 ≤ pkt.caplen ∨ Differs pkt 0 p1.swt.macAddr ∨
      Differs pkt 30 p1.swt.ipAddr ∨ 34 ≤ pkt.caplen ∧ Differs pkt 34 p1.con.port := by
  constructor
  · intro halone
    by_contra hnone
    simp only [not_or, not_and, not_le] at hnone
    obtain ⟨hshort, hmac, hip, hport⟩ := hnone
    exact not_alone_of_short hfit hshort hmac hip hport halone
  · intro hdecided pb pb' ingressPort ingressPort' metadata metadata' fp fp' packetInData hfp hfp'
    obtain ⟨data, hmessage⟩ := tableMissed_spec p1 packetInData
    rw [handleNextPacket_spec hmessage pb ingressPort metadata hfp hfit,
      handleNextPacket_spec hmessage pb' ingressPort' metadata' hfp' hfit, Option.some_inj]
    rcases hdecided with hlong | hmac | hip | ⟨hlong, hport⟩
    · exact outcome_congr fun k hk => comparedByte_captured (by omega) pb pb'
    · rw [outcome_missed (.inl hmac), outcome_missed (.inl hmac)]
    · rw [outcome_missed (.inr hip), outcome_missed (.inr hip)]
    · exact outcome_port hlong hport _ pb pb'

/-- A packet that ends with the destination MAC address of the switch. -/
theorem cut_packet_not_alone :
    let pkt : Packet := ⟨60, 6, List.replicate 6 0, rfl⟩
    ¬ FromPacketAlone zeroedProcessor pkt := by
  intro pkt halone
  have hzero : ∀ {d n : ℕ} {field : Block n}, (∀ j < n, field.byte j = 0) →
      ¬ Differs pkt d field := by
    rintro d n field hfield ⟨j, hj, v, hv, hne⟩
    rw [List.getElem?_replicate] at hv
    split_ifs at hv
    cases hv
    exact hne (hfield j hj).symm
  rcases (from_packet_alone_iff zeroedProcessor pkt (by decide)).mp halone with
    hlong | hmac | hip | ⟨hlong, -⟩
  · exact absurd hlong (by decide)
  · exact hzero (by decide) hmac
  · exact hzero (by decide) hip
  · exact absurd hlong (by decide)

section RoundTrip
variable {p1 p2 : Processor} {n : ℕ}

/-- A field whose bytes are the cells from `d` on. -/
theorem messageByte_field {d : ℕ} (field : Block n) (hd : 0 < d)
    (h : ((allCells (packetInFields p1)).drop d).take n =
      (List.range n).map fun j => some (field.byte j)) {j : ℕ} (hj : j < n) :
    messageByte p1 (5 + d + j) = some (field.byte j) := by
  have hcell := congrArg (fun l => l[j]?) h
  simp only [List.getElem?_take_of_lt hj, List.getElem?_drop, List.getElem?_map,
    List.getElem?_range hj, Option.map_some] at hcell
  rw [messageByte, if_neg (by omega), cellAt, if_pos (by omega),
    show 5 + d + j - 5 = d + j by omega, hcell]
  rfl

/-- The addresses of the message, at the places where they are looked for. -/
theorem messageByte_addresses (p1 : Processor) :
    (∀ j < 6, messageByte p1 (6 + j) = some (p1.con.macAddr.byte j)) ∧
      (∀ j < 4, messageByte p1 (6 + 30 + j) = some (p1.con.ipAddr.byte j)) ∧
      ∀ j < 2, messageByte p1 (6 + 34 + j) = some (p1.swt.port.byte j) := by
  refine ⟨fun j hj => ?_, fun j hj => ?_, fun j hj => ?_⟩
  · exact messageByte_field p1.con.macAddr (show 0 < 1 by decide) rfl hj
  · exact messageByte_field p1.con.ipAddr (show 0 < 31 by decide) rfl hj
  · exact messageByte_field p1.swt.port (show 0 < 35 by decide) rfl hj

/-- Two arrays with the same bytes. -/
theorem byte_eq_iff {a b : Block n} : (∀ j < n, a.byte j = b.byte j) ↔ a = b :=
  ⟨Block.ext_byte, fun h _ _ => h ▸ rfl⟩

/-- The message that a switch generates for its controller, captured by another one: it is
handled as OpenFlow exactly by a switch that has the addresses of the controller and takes
its port for that of its own controller. -/
theorem packet_in_round_trip (p1 p2 : Processor) (b : Block n) (hn : 77 < n) :
    ∃ data printed, generateOpenflowPacketIn p1 b = some (data, printed) ∧
      ∀ pkt : Packet, pkt.pktData = printed → ∀ pb ingressPort metadata fp packetInData,
        nextCaptured fp = some pkt →
          ∃ reply, tableMissedPacketProcess p2 packetInData = some reply ∧
          handleNextPacket p2 pb ingressPort metadata fp packetInData =
            some (if p1.con.macAddr = p2.swt.macAddr ∧ p1.con.ipAddr = p2.swt.ipAddr then
              if p1.swt.port = p2.con.port then .openflow else .nothing else reply) := by
  obtain ⟨data, hgen, hdata⟩ := generate_spec p1 b hn
  obtain ⟨hmac, hip, hport⟩ := messageByte_addresses p1
  refine ⟨data, _, hgen, ?_⟩
  intro pkt hpkt pb ingressPort metadata fp packetInData hfp
  have hlen : pkt.caplen = 72 := by
    rw [← pkt.captured, hpkt, Block.length_toList]
  obtain ⟨reply, hreply⟩ := tableMissed_spec p2 packetInData
  refine ⟨_, hreply, ?_⟩
  have hbyte : ∀ k < 36, ∀ v, messageByte p1 (6 + k) = some v → comparedByte pb pkt k = v := by
    intro k hk v hv
    rw [comparedByte, hpkt, Block.getElem?_toList _ (by omega), Block.byte_slice _ (by omega),
      hdata _ (by omega), hv]
    rfl
  have hfor : ForSwitch p2 (comparedByte pb pkt) ↔
      p1.con.macAddr = p2.swt.macAddr ∧ p1.con.ipAddr = p2.swt.ipAddr := by
    rw [← byte_eq_iff, ← byte_eq_iff]
    refine and_congr (forall_congr' fun j => forall_congr' fun hj => ?_)
      (forall_congr' fun j => forall_congr' fun hj => ?_)
    · rw [hbyte j (by omega) _ (hmac j hj)]
    · rw [hbyte (30 + j) (by omega) _ (Nat.add_assoc 6 30 j ▸ hip j hj)]
  have hfrom : FromController p2 (comparedByte pb pkt) ↔ p1.swt.port = p2.con.port := by
    rw [← byte_eq_iff]
    refine forall_congr' fun j => forall_congr' fun hj => ?_
    rw [hbyte (34 + j) (by omega) _ (Nat.add_assoc 6 34 j ▸ hport j hj)]
  rw [handleNextPacket_spec hreply pb ingressPort metadata hfp (by rw [hlen]; decide), outcome]
  simp only [hfor, hfrom]

/-- A processor with the addresses of its controller and its own, each of equal bytes. -/
def processorAt (conAddr conPort swtAddr swtPort : UInt8) : Processor :=
  ⟨⟨Block.ofFn fun _ => conAddr, Block.ofFn fun _ => conAddr, Block.ofFn fun _ => conPort⟩,
    ⟨Block.ofFn fun _ => swtAddr, Block.ofFn fun _ => swtAddr, Block.ofFn fun _ => swtPort⟩⟩

/-- A message to the processor it is for, which waits at the port that the message comes
from, and to one that waits at another port. -/
theorem message_at_two_ports :
    ∃ data printed,
      generateOpenflowPacketIn (processorAt 3 4 5 6) (Block.ofFn fun _ => 1 : Block 1000) =
        some (data, printed) ∧
      ∀ pkt : Packet, pkt.pktData = printed → ∀ pb,
        handleNextPacket (processorAt 5 6 3 4) pb (Block.ofFn fun _ => 1) (Block.ofFn fun _ => 2)
          [.packet pkt] (Block.ofFn fun _ => 0) = some .openflow ∧
        handleNextPacket (processorAt 5 7 3 4) pb (Block.ofFn fun _ => 1) (Block.ofFn fun _ => 2)
          [.packet pkt] (Block.ofFn fun _ => 0) = some .nothing := by
  obtain ⟨data, printed, hgen, hhandled⟩ :=
    packet_in_round_trip (processorAt 3 4 5 6) (processorAt 5 6 3 4)
      (Block.ofFn fun _ => 1 : Block 1000) (by decide)
  obtain ⟨data', printed', hgen', hhandled'⟩ :=
    packet_in_round_trip (processorAt 3 4 5 6) (processorAt 5 7 3 4)
      (Block.ofFn fun _ => 1 : Block 1000) (by decide)
  cases hgen.symm.trans hgen'
  refine ⟨data, printed, hgen, fun pkt hpkt pb => ?_⟩
  obtain ⟨reply, -, h⟩ := hhandled pkt hpkt pb (Block.ofFn fun _ => 1) (Block.ofFn fun _ => 2)
    [.packet pkt] (Block.ofFn fun _ => 0) rfl
  obtain ⟨reply', -, h'⟩ := hhandled' pkt hpkt pb (Block.ofFn fun _ => 1) (Block.ofFn fun _ => 2)
    [.packet pkt] (Block.ofFn fun _ => 0) rfl
  rw [h, if_pos (by decide), if_pos (by decide), h', if_pos (by decide), if_neg (by decide)]
  exact ⟨rfl, rfl⟩

end RoundTrip

end NetWalk.PacketDispatch
