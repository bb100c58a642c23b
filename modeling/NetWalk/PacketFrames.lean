import NetWalk.PacketByteRing

/-!
# Frames in the packet buffer

A loaded packet becomes one frame: a length byte, the ingress port, the
metadata and the captured data. The buffer marks no boundaries; a reader finds
them from the length bytes alone. `HoldsFrames` counts the reading head and the
head in whole frames, and each of the three packet operations moves one of its
counters by one as long as a byte stays free and no reader runs ahead.
-/
namespace NetWalk.PacketFrames
open ByteBlock RingCursor PacketByteRing

/-- A captured packet: the two lengths of its pcap header, and the data, of
which `caplen` bytes were captured. -/
structure Packet where
  len : ℕ
  caplen : ℕ
  pktData : List UInt8
  captured : pktData.length = caplen
deriving DecidableEq

def addBytes (pb : PacketBuffer) (bytes : List UInt8) : Option PacketBuffer :=
  bytes.foldlM addAByteToThePacketBuffer pb

/-- The enqueueing part that both loaders repeat. -/
def enqueuePacket (pkt : Packet) (pb : PacketBuffer) (ingressPort : Block 4)
    (metadata : Block 8) : Option PacketBuffer := do
  -- the length byte counts the ingress port and the metadata as well
  let pb ← addAByteToThePacketBuffer pb (UInt8.ofNat (pkt.len + 12))
  let pb ← addBytes pb ingressPort.toList
  let pb ← addBytes pb metadata.toList
  addBytes pb pkt.pktData

def loadAPacketToThePacketBuffer (pkt : Packet) (pb : PacketBuffer) (ingressPort : Block 4)
    (metadata : Block 8) : Option PacketBuffer :=
  enqueuePacket pkt pb ingressPort metadata

/-- What one call of `pcap_next_ex` reports: a packet, a timeout, or a negative
code for the end of the capture or an error. -/
inductive PcapNext where
  | packet (pkt : Packet)
  | timeout
  | stop
deriving DecidableEq

/-- The capture is given by what its remaining `pcap_next_ex` calls report;
past these it is at its end. -/
def loadNextPacketToTheBuffer (pb : PacketBuffer) (ingressPort : Block 4)
    (metadata : Block 8) : List PcapNext → Option (List PcapNext × PacketBuffer)
  | [] => some ([], pb)
  | .stop :: fp => some (fp, pb)
  | .timeout :: fp => loadNextPacketToTheBuffer pb ingressPort metadata fp
  | .packet pkt :: fp => do
      let pb ← enqueuePacket pkt pb ingressPort metadata
      some (fp, pb)

/-- The packet that the next load finds, if any. -/
def nextCaptured : List PcapNext → Option Packet
  | [] => none
  | .stop :: _ => none
  | .timeout :: fp => nextCaptured fp
  | .packet pkt :: _ => some pkt

def readAPacket {n : ℕ} (pb : PacketBuffer) (pk : Block n) : Option (PacketBuffer × Block n) :=
  if pb.bufferEmptyFlag then do
    let pk ← pk.write 0 0
    some (pb, pk)
  else if pb.bufferReadingHead = pb.packetBufferHead then some (pb, pk)
  else do
    let (packetLength, pb) ← dqueueFromPacketBuffer pb
    let pk ← pk.write 0 packetLength
    fill dqueueFromPacketBuffer packetLength.toNat 1 pb pk

def readAPacketForPreprocessing {n : ℕ} (pb : PacketBuffer) (pk : Block n) :
    Option (PacketBuffer × Block n) :=
  if pb.bufferEmptyFlag then do
    let pk ← pk.write 0 0
    some (pb, pk)
  else do
    let (packetLength, pb) ← dqueueFromPacketBufferForPreprocessing pb
    let pk ← pk.write 0 packetLength
    fill dqueueFromPacketBufferForPreprocessing packetLength.toNat 1 pb pk

/-- The bytes a load offers to the ring. -/
def Packet.frame (pkt : Packet) (ingressPort : Block 4) (metadata : Block 8) : List UInt8 :=
  UInt8.ofNat (pkt.len + 12) :: (ingressPort.toList ++ metadata.toList ++ pkt.pktData)

/-- What a reader finds in its destination: the length byte and as many bytes
as it announces. -/
def received {n : ℕ} (pk : Block n) : List UInt8 := pk.toList.take ((pk.byte 0).toNat + 1)

/-- The first byte of the list tells the length of the rest. -/
def SelfDelimiting (f : List UInt8) : Prop :=
  ∃ l rest, f = l :: rest ∧ l.toNat = rest.length

theorem frame_length (pkt : Packet) (ingressPort : Block 4) (metadata : Block 8) :
    (pkt.frame ingressPort metadata).length = pkt.caplen + 13 := by
  simp only [Packet.frame, List.length_cons, List.length_append, Block.length_toList,
    pkt.captured]
  omega

/-- A whole capture of at most 243 bytes has a length byte that fits. -/
theorem frame_selfDelimiting {pkt : Packet} (hwhole : pkt.caplen = pkt.len)
    (hlen : pkt.len ≤ 243) (ingressPort : Block 4) (metadata : Block 8) :
    SelfDelimiting (pkt.frame ingressPort metadata) := by
  refine ⟨_, _, rfl, ?_⟩
  simp only [List.length_append, Block.length_toList, pkt.captured, hwhole,
    UInt8.toNat_ofNat']
  omega

theorem received_overwrite {n : ℕ} (pk : Block n) {f : List UInt8} (hf : SelfDelimiting f)
    (hn : f.length ≤ n) : received (pk.overwrite f) = f := by
  obtain ⟨l, rest, rfl, hl⟩ := hf
  simp only [List.length_cons] at hn
  have hfirst : (pk.overwrite (l :: rest)).byte 0 = l := by
    rw [Block.byte_overwrite _ _ (by omega)]
    rfl
  rw [received, hfirst, hl]
  exact Block.take_overwrite (l := l :: rest) pk (by simpa using hn)

section Flatten
variable {α : Type*} {fs : List (List α)} {f : List α} {k : ℕ}

theorem flatten_take_succ (h : fs[k]? = some f) :
    (fs.take (k + 1)).flatten = (fs.take k).flatten ++ f := by
  rw [take_succ_of_getElem? h, List.flatten_append]
  simp

/-- The bytes of frame `k` stand in the stream right behind those before it. -/
theorem getElem?_flatten_offset (h : fs[k]? = some f) {j : ℕ} (hj : j < f.length) :
    fs.flatten[(fs.take k).flatten.length + j]? = f[j]? := by
  have hsplit : fs.flatten = (fs.take k).flatten ++ (f ++ (fs.drop (k + 1)).flatten) := by
    rw [← List.append_assoc, ← flatten_take_succ h, ← List.flatten_append,
      List.take_append_drop]
  rw [hsplit, List.getElem?_append_right (by omega), Nat.add_sub_cancel_left,
    List.getElem?_append_left hj]

theorem length_flatten_take_le (fs : List (List α)) {a b : ℕ} (h : a ≤ b) :
    (fs.take a).flatten.length ≤ (fs.take b).flatten.length := by
  obtain ⟨rest, hrest⟩ := List.take_prefix_take_left h (l := fs)
  rw [← hrest, List.flatten_append, List.length_append]
  omega

theorem length_flatten_take_le_length (fs : List (List α)) (a : ℕ) :
    (fs.take a).flatten.length ≤ fs.flatten.length := by
  have h := length_flatten_take_le fs (Nat.le_max_left a fs.length)
  rwa [List.take_of_length_le (Nat.le_max_right a fs.length)] at h

end Flatten

/-- The ring holds exactly the frames from the `ret`-th on, the reading head
stands behind the first `pre` of all frames loaded, and a byte is free. -/
structure HoldsFrames (pb : PacketBuffer) (frames : List (List UInt8)) (pre ret : ℕ) :
    Prop where
  represents : Represents pb frames.flatten (frames.take pre).flatten.length
    (frames.take ret).flatten.length
  notFull : pb.bufferFullFlag = false
  ret_le : ret ≤ pre
  pre_le : pre ≤ frames.length
  free : frames.flatten.length < (frames.take ret).flatten.length + packetBufferLen
  delimited : ∀ f ∈ frames, SelfDelimiting f

theorem holdsFrames_initialized (pb : PacketBuffer) :
    HoldsFrames (initializePacketBuffer pb) [] 0 0 where
  represents := represents_initialized pb
  notFull := rfl
  ret_le := le_rfl
  pre_le := le_rfl
  free := by decide
  delimited := by simp

theorem addBytes_spec {pb : PacketBuffer} {accepted bytes : List UInt8} {pre deq : ℕ}
    (h : Represents pb accepted pre deq) (hfull : pb.bufferFullFlag = false)
    (hroom : accepted.length + bytes.length < deq + packetBufferLen) :
    ∃ pb', addBytes pb bytes = some pb' ∧ Represents pb' (accepted ++ bytes) pre deq ∧
      pb'.bufferFullFlag = false := by
  induction bytes generalizing pb accepted with
  | nil => exact ⟨pb, rfl, by simpa using h, hfull⟩
  | cons x bytes ih =>
    simp only [List.length_cons] at hroom
    obtain ⟨pb₁, hadd, hrep, -, hflag⟩ := addAByte_accepted h hfull x
    have hfull₁ : pb₁.bufferFullFlag = false := by
      rw [← Bool.not_eq_true, hflag]
      omega
    obtain ⟨pb', hpb', hrep', hfull'⟩ := ih hrep hfull₁ (by simp; omega)
    refine ⟨pb', ?_, by simpa using hrep', hfull'⟩
    simpa [addBytes, List.foldlM_cons, hadd] using hpb'

theorem enqueuePacket_eq (pkt : Packet) (pb : PacketBuffer) (ingressPort : Block 4)
    (metadata : Block 8) :
    enqueuePacket pkt pb ingressPort metadata =
      addBytes pb (pkt.frame ingressPort metadata) := by
  simp only [enqueuePacket, Packet.frame, addBytes, List.foldlM_cons, List.foldlM_append,
    bind_assoc]

section FrameOperations
variable {pb : PacketBuffer} {frames : List (List UInt8)} {pre ret : ℕ}

theorem enqueuePacket_spec (h : HoldsFrames pb frames pre ret) {pkt : Packet}
    (hwhole : pkt.caplen = pkt.len) (hlen : pkt.len ≤ 243) (ingressPort : Block 4)
    (metadata : Block 8)
    (hfree : frames.flatten.length + (pkt.caplen + 13) <
      (frames.take ret).flatten.length + packetBufferLen) :
    ∃ pb', enqueuePacket pkt pb ingressPort metadata = some pb' ∧
      HoldsFrames pb' (frames ++ [pkt.frame ingressPort metadata]) pre ret := by
  rw [← frame_length pkt ingressPort metadata] at hfree
  obtain ⟨pb', hadd, hrep, hfull⟩ := addBytes_spec h.represents h.notFull hfree
  have hpre := h.pre_le
  have hret := h.ret_le
  refine ⟨pb', by rw [enqueuePacket_eq, hadd], ?_⟩
  constructor
  · rw [List.take_append_of_le_length hpre, List.take_append_of_le_length (by omega)]
    simpa using hrep
  · exact hfull
  · exact hret
  · simp only [List.length_append, List.length_singleton]
    omega
  · rw [List.take_append_of_le_length (by omega)]
    simpa using hfree
  · intro f hf
    rcases List.mem_append.mp hf with hf | hf
    · exact h.delimited f hf
    · rw [List.mem_singleton.mp hf]
      exact frame_selfDelimiting hwhole hlen ingressPort metadata

/-- Reading a length byte and then as many bytes as it says, from a reader that
delivers the frame `f`, stores `f` in the destination. -/
theorem read_frame {n : ℕ} (next : PacketBuffer → Option (UInt8 × PacketBuffer))
    {f : List UInt8} (R : ℕ → PacketBuffer → Prop) (hf : SelfDelimiting f)
    (hnext : ∀ k s, k < f.length → R k s →
      ∃ s', next s = some (f[k]?.getD 0, s') ∧ R (k + 1) s')
    (pk : Block n) (hn : f.length ≤ n) {s : PacketBuffer} (hR : R 0 s) :
    ∃ s', (do
        let (l, s) ← next s
        let pk ← pk.write 0 l
        fill next l.toNat 1 s pk) = some (s', pk.overwrite f) ∧ R f.length s' := by
  obtain ⟨l, rest, rfl, hl⟩ := hf
  simp only [List.length_cons] at hn hnext ⊢
  obtain ⟨s₁, hs₁, hR₁⟩ := hnext 0 s (by omega) hR
  obtain ⟨s', pk', hfill, hR', hpk'⟩ := fill_spec R (fun k => (l :: rest)[k]?.getD 0) hnext
    rest.length 1 1 (pk.set 0 l) (by omega) (by omega) hR₁
  have hsame : pk' = pk.overwrite (l :: rest) := by
    apply Block.ext_byte
    intro j hj
    rw [hpk' j hj, Block.byte_overwrite _ _ hj, Block.byte_set _ _ hj]
    by_cases hin : 1 ≤ j ∧ j < 1 + rest.length
    · rw [if_pos hin, Nat.add_sub_cancel' hin.1,
        List.getElem?_eq_getElem (by simp only [List.length_cons]; omega)]
      rfl
    · rw [if_neg hin]
      rcases Nat.eq_zero_or_pos j with rfl | hpos
      · rfl
      · rw [if_neg (by omega), List.getElem?_eq_none (by simp only [List.length_cons]; omega)]
        rfl
  refine ⟨s', ?_, by rwa [Nat.add_comm] at hR'⟩
  have hwrite : pk.write 0 l = some (pk.set 0 l) :=
    Block.write_natCast pk l (show 0 < n by omega)
  simp only [List.getElem?_cons_zero, Option.getD_some] at hs₁
  simp only [hs₁, Option.bind_eq_bind, Option.bind_some, hwrite, hl, hfill, hsame]

/-- The frames before one that is loaded end before the stream does. -/
theorem length_take_add_le {f : List UInt8} {k : ℕ} (hk : frames[k]? = some f) :
    (frames.take k).flatten.length + f.length ≤ frames.flatten.length := by
  have h := length_flatten_take_le_length frames (k + 1)
  rwa [flatten_take_succ hk, List.length_append] at h

theorem SelfDelimiting.length_pos {f : List UInt8} (hf : SelfDelimiting f) :
    0 < f.length := by
  obtain ⟨l, rest, rfl, -⟩ := hf
  exact Nat.succ_pos _

theorem readAPacketForPreprocessing_spec (h : HoldsFrames pb frames pre ret) {n : ℕ}
    (pk : Block n) {f : List UInt8} (hf : frames[pre]? = some f) (hn : f.length ≤ n) :
    ∃ pb', readAPacketForPreprocessing pb pk = some (pb', pk.overwrite f) ∧
      HoldsFrames pb' frames (pre + 1) ret := by
  have hdel := h.delimited f (List.mem_of_getElem? hf)
  have hpos := hdel.length_pos
  have hend := length_take_add_le hf
  have hret := length_flatten_take_le frames h.ret_le
  have hempty : ∀ {s : PacketBuffer} {p : ℕ}, Represents s frames.flatten p
      (frames.take ret).flatten.length → s.bufferEmptyFlag = false := by
    intro s p hs
    rw [← Bool.not_eq_true, hs.empty]
    omega
  have hnext : ∀ k s, k < f.length →
      Represents s frames.flatten ((frames.take pre).flatten.length + k)
        (frames.take ret).flatten.length ∧ s.bufferFullFlag = false →
      ∃ s', dqueueFromPacketBufferForPreprocessing s = some (f[k]?.getD 0, s') ∧
        Represents s' frames.flatten ((frames.take pre).flatten.length + (k + 1))
          (frames.take ret).flatten.length ∧ s'.bufferFullFlag = false := by
    rintro k s hk ⟨hs, hfull⟩
    obtain ⟨data, s', hs', hdata, hrep, -, hflag⟩ := preDqueue_advances hs (hempty hs)
    have hbyte := hdata (by omega) (by omega)
    rw [getElem?_flatten_offset hf hk] at hbyte
    exact ⟨s', by rw [hs', hbyte]; rfl, hrep, hflag.trans hfull⟩
  obtain ⟨pb', hread, hrep, hfull⟩ := read_frame _ _ hdel hnext pk hn
    ⟨h.represents, h.notFull⟩
  refine ⟨pb', ?_, ?_⟩
  · rw [readAPacketForPreprocessing, hempty h.represents]
    exact hread
  · refine ⟨?_, hfull, by have := h.ret_le; omega, ?_, h.free, h.delimited⟩
    · rwa [flatten_take_succ hf, List.length_append]
    · have := (List.getElem?_eq_some_iff.mp hf).1
      omega

/-- The frame `f` stands at the reading head. -/
structure FrameDue (pb : PacketBuffer) (f : List UInt8) : Prop where
  notEmpty : pb.bufferEmptyFlag = false
  readingHead_lt : pb.bufferReadingHead < packetBufferLen
  held : ∀ k < f.length, f[k]? =
    some (pb.packetBuffer.byte ((pb.bufferReadingHead + k) % packetBufferLen))
  delimited : SelfDelimiting f

theorem frameDue_of_holds (h : HoldsFrames pb frames pre ret) {f : List UInt8}
    (hf : frames[pre]? = some f) : FrameDue pb f := by
  have hdel := h.delimited f (List.mem_of_getElem? hf)
  have hpos := hdel.length_pos
  have hend := length_take_add_le hf
  have hret := length_flatten_take_le frames h.ret_le
  refine ⟨?_, h.represents.readingHead_lt, fun k hk => ?_, hdel⟩
  · rw [← Bool.not_eq_true, h.represents.empty]
    omega
  · rw [← getElem?_flatten_offset hf hk,
      h.represents.stores.held _ (by omega) (by omega), h.represents.readingHead,
      Nat.mod_add_mod]

theorem readAPacketForPreprocessing_due {f : List UInt8} (h : FrameDue pb f) {n : ℕ}
    (pk : Block n) (hn : f.length ≤ n) :
    ∃ pb', readAPacketForPreprocessing pb pk = some (pb', pk.overwrite f) := by
  have hnext : ∀ k s, k < f.length →
      s.bufferEmptyFlag = false ∧ s.packetBuffer = pb.packetBuffer ∧
        s.bufferReadingHead = (pb.bufferReadingHead + k) % packetBufferLen →
      ∃ s', dqueueFromPacketBufferForPreprocessing s = some (f[k]?.getD 0, s') ∧
        s'.bufferEmptyFlag = false ∧ s'.packetBuffer = pb.packetBuffer ∧
        s'.bufferReadingHead = (pb.bufferReadingHead + (k + 1)) % packetBufferLen := by
    rintro k s hk ⟨hempty, hbytes, hhead⟩
    have hlt : s.bufferReadingHead < packetBufferLen := hhead ▸ Nat.mod_lt _ (by decide)
    refine ⟨{ s with
      bufferEmptyFlag := false
      bufferReadingHead := next packetBufferLen s.bufferReadingHead }, ?_, rfl, hbytes, ?_⟩
    · rw [h.held k hk, ← hhead, ← hbytes]
      simp [dqueueFromPacketBufferForPreprocessing, hempty, Block.read_natCast _ hlt]
    · rw [hhead, next_mod (by decide), Nat.add_assoc]
  obtain ⟨pb', hread, -⟩ := read_frame _ _ h.delimited hnext pk hn
    ⟨h.notEmpty, rfl, (Nat.mod_eq_of_lt h.readingHead_lt).symm⟩
  refine ⟨pb', ?_⟩
  rw [readAPacketForPreprocessing, h.notEmpty]
  exact hread

theorem readAPacket_spec (h : HoldsFrames pb frames pre ret) (hlt : ret < pre) {n : ℕ}
    (pk : Block n) {f : List UInt8} (hf : frames[ret]? = some f) (hn : f.length ≤ n) :
    ∃ pb', readAPacket pb pk = some (pb', pk.overwrite f) ∧
      HoldsFrames pb' frames pre (ret + 1) := by
  have hdel := h.delimited f (List.mem_of_getElem? hf)
  have hpos := hdel.length_pos
  have hfree := h.free
  have hpre := length_flatten_take_le_length frames pre
  have hahead := length_flatten_take_le frames (show ret + 1 ≤ pre from hlt)
  rw [flatten_take_succ hf, List.length_append] at hahead
  -- within the frame the reading head stays ahead, by less than a lap
  have hgate : ∀ {s : PacketBuffer} {k : ℕ}, k < f.length →
      Represents s frames.flatten (frames.take pre).flatten.length
        ((frames.take ret).flatten.length + k) →
      s.bufferEmptyFlag = false ∧ s.bufferReadingHead ≠ s.packetBufferHead := by
    intro s k hk hs
    refine ⟨?_, ?_⟩
    · rw [← Bool.not_eq_true, hs.empty]
      omega
    · rw [hs.readingHead, hs.head, Ne, mod_eq_mod_iff (by omega) (by omega)]
      omega
  obtain ⟨hempty₀, hgate₀⟩ := hgate hpos h.represents
  have hnext : ∀ k s, k < f.length →
      Represents s frames.flatten (frames.take pre).flatten.length
        ((frames.take ret).flatten.length + k) ∧ s.bufferFullFlag = false →
      ∃ s', dqueueFromPacketBuffer s = some (f[k]?.getD 0, s') ∧
        Represents s' frames.flatten (frames.take pre).flatten.length
          ((frames.take ret).flatten.length + (k + 1)) ∧ s'.bufferFullFlag = false := by
    rintro k s hk ⟨hs, hfull⟩
    obtain ⟨hempty, hne⟩ := hgate hk hs
    obtain ⟨data, s', hs', hdata, hrep, -, hflag⟩ := dqueue_advances hs hempty hne
    rw [getElem?_flatten_offset hf hk] at hdata
    exact ⟨s', by rw [hs', hdata]; rfl, hrep, hflag.trans hfull⟩
  obtain ⟨pb', hread, hrep, hfull⟩ := read_frame _ _ hdel hnext pk hn
    ⟨h.represents, h.notFull⟩
  refine ⟨pb', ?_, ?_⟩
  · rw [readAPacket, hempty₀, if_neg Bool.false_ne_true, if_neg hgate₀]
    exact hread
  · refine ⟨?_, hfull, hlt, h.pre_le, ?_, h.delimited⟩
    · rwa [flatten_take_succ hf, List.length_append]
    · rw [flatten_take_succ hf, List.length_append]
      omega

end FrameOperations

end NetWalk.PacketFrames
