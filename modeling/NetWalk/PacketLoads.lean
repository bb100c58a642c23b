import NetWalk.PacketFrames
import NetWalk.PacketByteRuns

/-!
# Loading one packet

A load offers its frame to the ring byte by byte, and the ring takes bytes as
long as it has room. What a load has made of the stream is therefore read off
the bytes it adds to those accepted: none, a whole frame whose length byte is
right, or something else. The length byte counts the packet as it was on the
wire, cut to eight bits, while the data are those captured.
-/
namespace NetWalk.PacketLoads
open ByteBlock PacketByteRing PacketFrames PacketByteRuns PartialRun

/-- A call of one of the two loaders. -/
inductive LoadCall where
  | load (pkt : Packet) (ingressPort : Block 4) (metadata : Block 8)
  | loadNext (fp : List PcapNext) (ingressPort : Block 4) (metadata : Block 8)

namespace LoadCall

def buffer (pb : PacketBuffer) : LoadCall → Option PacketBuffer
  | load pkt ingressPort metadata => loadAPacketToThePacketBuffer pkt pb ingressPort metadata
  | loadNext fp ingressPort metadata => do
      let (_, pb) ← loadNextPacketToTheBuffer pb ingressPort metadata fp
      some pb

/-- The packet that is loaded; there is none at the end of a capture. -/
def packet : LoadCall → Option Packet
  | load pkt _ _ => some pkt
  | loadNext fp _ _ => nextCaptured fp

/-- What has to stand behind the length byte. -/
def body : LoadCall → Packet → List UInt8
  | load _ ingressPort metadata, pkt | loadNext _ ingressPort metadata, pkt =>
      ingressPort.toList ++ metadata.toList ++ pkt.pktData

/-- The bytes offered to the ring. -/
def bytes (c : LoadCall) : List UInt8 :=
  match c.packet with
  | none => []
  | some pkt => UInt8.ofNat (pkt.len + 12) :: c.body pkt

theorem length_body (c : LoadCall) (pkt : Packet) : (c.body pkt).length = pkt.caplen + 12 := by
  cases c <;> simp [body, pkt.captured] <;> omega

theorem buffer_eq (c : LoadCall) (pb : PacketBuffer) : c.buffer pb = addBytes pb c.bytes := by
  cases c with
  | load pkt ingressPort metadata => exact enqueuePacket_eq pkt pb ingressPort metadata
  | loadNext fp ingressPort metadata =>
    induction fp with
    | nil => rfl
    | cons r fp ih =>
      cases r with
      | stop => rfl
      | timeout => exact ih
      | packet pkt =>
        change ((enqueuePacket pkt pb ingressPort metadata).bind _).bind _ = _
        rw [enqueuePacket_eq, Option.bind_assoc]
        exact Option.bind_fun_some _

end LoadCall

/-- The bytes that a load adds to those accepted are none, or one frame: a length
byte and as many bytes, which are the ingress port, the metadata and the data. -/
def AllOrNothing (s : Observed) (c : LoadCall) : Prop :=
  ∃ s', run call s (c.bytes.map Call.add) = some s' ∧ c.buffer s.pb = some s'.pb ∧
    (s'.history.accepted = s.history.accepted ∨
      ∃ pkt ∈ c.packet, ∃ l : UInt8, l.toNat = (c.body pkt).length ∧
        s'.history.accepted = s.history.accepted ++ l :: c.body pkt)

/-- The ring refuses every byte, or it has room for the frame and the length byte
counts the data that were captured. -/
def LoadsWhole (s : Observed) (c : LoadCall) : Prop :=
  s.pb.bufferFullFlag = true ∨ ∀ pkt ∈ c.packet,
    (pkt.len + 12) % 256 = pkt.caplen + 12 ∧ s.held + (pkt.caplen + 13) ≤ packetBufferLen

/-- How many bytes the ring takes before it refuses. -/
def taken (s : Observed) : ℕ := if s.pb.bufferFullFlag then 0 else packetBufferLen - s.held

theorem taken_full {s : Observed} (hfull : s.pb.bufferFullFlag = true) : taken s = 0 :=
  if_pos hfull

theorem taken_room {s : Observed} (h : Tracked s) (hfull : s.pb.bufferFullFlag = false) :
    taken s = packetBufferLen - s.held ∧ s.held < packetBufferLen := by
  have hroom := h.represents.room hfull
  have hdeq := h.represents.deq_le
  refine ⟨by rw [taken, hfull]; rfl, ?_⟩
  rw [Observed.held]
  omega

/-- Of the bytes offered the ring accepts the first ones, up to its room. -/
theorem run_offered (bytes : List UInt8) {s : Observed} (h : Tracked s) :
    ∃ s', run call s (bytes.map Call.add) = some s' ∧ addBytes s.pb bytes = some s'.pb ∧
      s'.history.accepted = s.history.accepted ++ bytes.take (taken s) := by
  induction bytes generalizing s with
  | nil => exact ⟨s, rfl, rfl, by simp⟩
  | cons byte bytes ih =>
    cases hf : s.pb.bufferFullFlag with
    | true =>
      obtain ⟨s', hrun, hadd, hacc⟩ := ih h
      rw [taken_full hf, List.take_zero] at hacc ⊢
      refine ⟨s', ?_, bind_some_of (addAByte_refused byte hf) hadd, hacc⟩
      rw [List.map_cons, run_cons, call_add_refused byte hf]
      exact hrun
    | false =>
      obtain ⟨t, ht, htracked, hhist, hfull⟩ := call_add_accepted h hf byte
      obtain ⟨s', hrun, hadd, hacc⟩ := ih htracked
      obtain ⟨pb', hpb', hrest⟩ := bind_inv ht
      obtain ⟨hroom, hlt⟩ := taken_room h hf
      have hheld : t.held = s.held + 1 := by
        have hdeq := h.represents.deq_le
        simp only [Observed.held, hhist, List.length_append, List.length_singleton]
        omega
      have hstep : taken s = taken t + 1 := by
        cases hf' : t.pb.bufferFullFlag with
        | true =>
          have hlast := hfull.mp hf'
          rw [taken_full hf']
          omega
        | false =>
          have := taken_room htracked hf'
          omega
      refine ⟨s', ?_, bind_some_of hpb' ?_, ?_⟩
      · rw [List.map_cons, run_cons, ht]
        exact hrun
      · cases hrest
        exact hadd
      · rw [hacc, hhist, hstep]
        simp

/-- The bytes accepted from a frame are a frame exactly if all of it was accepted and
its length byte is right. -/
theorem taken_frame_iff (c : LoadCall) (pkt : Packet) (k : ℕ) :
    (∃ l : UInt8, l.toNat = (c.body pkt).length ∧
        (UInt8.ofNat (pkt.len + 12) :: c.body pkt).take k = l :: c.body pkt) ↔
      (pkt.len + 12) % 256 = pkt.caplen + 12 ∧ pkt.caplen + 13 ≤ k := by
  have hlen := c.length_body pkt
  have htoNat : (UInt8.ofNat (pkt.len + 12)).toNat = (pkt.len + 12) % 256 := UInt8.toNat_ofNat'
  constructor
  · rintro ⟨l, hl, htake⟩
    have hcount := congrArg List.length htake
    simp only [List.length_take, List.length_cons] at hcount
    have hk : (c.body pkt).length + 1 ≤ k := by omega
    rw [List.take_of_length_le (by simpa using hk), List.cons.injEq] at htake
    rw [← htake.1, htoNat] at hl
    exact ⟨by omega, by omega⟩
  · rintro ⟨hl, hk⟩
    refine ⟨UInt8.ofNat (pkt.len + 12), by rw [htoNat, hl, hlen], ?_⟩
    rw [List.take_of_length_le (by simp; omega)]

theorem all_or_nothing_of_tracked {s : Observed} (h : Tracked s) (c : LoadCall) :
    AllOrNothing s c ↔ LoadsWhole s c := by
  obtain ⟨s', hrun, hadd, hacc⟩ := run_offered c.bytes h
  rw [← c.buffer_eq] at hadd
  have hbytes : AllOrNothing s c ↔ c.bytes.take (taken s) = [] ∨ ∃ pkt ∈ c.packet, ∃ l : UInt8,
      l.toNat = (c.body pkt).length ∧ c.bytes.take (taken s) = l :: c.body pkt := by
    rw [AllOrNothing]
    simp only [hrun, Option.some.injEq, exists_eq_left', hadd, true_and, hacc,
      List.append_right_eq_self, List.append_cancel_left_eq]
  rw [hbytes, LoadsWhole, LoadCall.bytes]
  cases hf : s.pb.bufferFullFlag with
  | true => simp [taken_full hf]
  | false =>
    obtain ⟨hroom, hlt⟩ := taken_room h hf
    cases hp : c.packet with
    | none => simp
    | some pkt =>
      have hsome : (UInt8.ofNat (pkt.len + 12) :: c.body pkt).take (taken s) ≠ [] := by
        rw [Ne, List.take_eq_nil_iff]
        simp only [reduceCtorEq, or_false]
        omega
      simp only [Option.mem_some_iff, exists_eq_left', forall_eq', Bool.false_eq_true, false_or,
        hsome, taken_frame_iff]
      omega

/-- In every state that byte operations reach, for every packet. -/
theorem all_or_nothing_iff (pb : PacketBuffer) (calls : List Call) :
    Throughout call (fun s => ∀ c : LoadCall, AllOrNothing s c ↔ LoadsWhole s c) (fresh pb)
      calls :=
  (throughout_of_step (fun _ c h => call_tracked h c) (tracked_fresh pb) calls).mono
    fun _ h c => all_or_nothing_of_tracked h c

/-- Of a packet of two bytes one was captured: the length byte announces 14 bytes,
and 13 follow. -/
theorem truncated_capture :
    let pkt : Packet := ⟨2, 1, [9], rfl⟩
    pkt.caplen ≤ pkt.len ∧ ¬ AllOrNothing (fresh zeroedPacketBuffer)
      (.load pkt (Block.ofFn fun _ => 1) (Block.ofFn fun _ => 2)) := by
  intro pkt
  refine ⟨by decide, ?_⟩
  rintro ⟨s', hrun, -, haccepted⟩
  have hlist : (run call (fresh zeroedPacketBuffer) (LoadCall.bytes (.load pkt
      (Block.ofFn fun _ => 1) (Block.ofFn fun _ => 2)) |>.map Call.add)).map
      (fun s => s.history.accepted) = some [14, 1, 1, 1, 1, 2, 2, 2, 2, 2, 2, 2, 2, 9] := by
    decide +kernel
  rw [hrun, Option.map_some, Option.some.injEq] at hlist
  rw [hlist] at haccepted
  rcases haccepted with hnone | ⟨pkt', hpkt', l, hl, hframe⟩
  · cases hnone
  · cases hpkt'
    cases (List.cons.inj hframe).1
    cases hl

end NetWalk.PacketLoads
