import NetWalk.PacketFrameRuns

/-!
# Batches of packets

A batch of packets is loaded, then all of it is read for pre-processing, and then all of it
is read for good. As long as the frames of one batch leave a byte free, any number of batches
goes through one packet buffer, wherever in the array they come to lie.
-/
namespace NetWalk.FrameBatches
open ByteBlock PacketByteRing PacketFrames PacketFrameRuns PartialRun

/-- A packet with what a load is told about it. -/
structure Arrival where
  pkt : Packet
  ingressPort : Block 4
  metadata : Block 8

def Arrival.frame (a : Arrival) : List UInt8 := a.pkt.frame a.ingressPort a.metadata

def Arrival.load (a : Arrival) : FrameCall := .load a.pkt a.ingressPort a.metadata

/-- Whole packets whose length byte fits, and whose frames leave a byte free. -/
structure BatchFits (batch : List Arrival) : Prop where
  whole : ∀ a ∈ batch, a.pkt.caplen = a.pkt.len ∧ a.pkt.len ≤ 243
  free : (batch.map Arrival.frame).flatten.length < packetBufferLen

/-- The calls for a batch, with the arrays that it is read into. -/
def batchCalls (pk pk' : Block 256) (batch : List Arrival) : List FrameCall :=
  batch.map Arrival.load ++ (List.replicate batch.length (.preRead 256 pk) ++
    List.replicate batch.length (.read 256 pk'))

section Reading
variable {s : FrameRun}

/-- A frame is at most as long as its length byte can tell. -/
theorem frame_length_le (h : FramesInStep s) {k : ℕ} : ∀ f ∈ s.loaded[k]?, f.length ≤ 256 := by
  intro f hf
  obtain ⟨l, rest, rfl, hl⟩ := h.holds.delimited f (List.mem_of_getElem? hf)
  have := l.toNat_lt
  rw [List.length_cons]
  omega

theorem loads_spec (h : FramesInStep s) {batch : List Arrival}
    (hwhole : ∀ a ∈ batch, a.pkt.caplen = a.pkt.len ∧ a.pkt.len ≤ 243)
    (hfree : s.heldBytes + (batch.map Arrival.frame).flatten.length < packetBufferLen) :
    ∃ s', run frameCall s (batch.map Arrival.load) = some s' ∧ FramesInStep s' ∧
      s'.loaded = s.loaded ++ batch.map Arrival.frame ∧ s'.preRead = s.preRead ∧
      s'.returned = s.returned := by
  induction batch generalizing s with
  | nil => exact ⟨s, rfl, h, (List.append_nil _).symm, rfl, rfl⟩
  | cons a batch ih =>
    have hlen : a.frame.length = a.pkt.caplen + 13 := frame_length _ _ _
    rw [List.map_cons, List.flatten_cons, List.length_append] at hfree
    obtain ⟨hwhole₁, hlen₁⟩ := hwhole a List.mem_cons_self
    obtain ⟨s₁, hs₁, h₁⟩ := frameCall_inStep h
      (show WellUsed s a.load from ⟨hwhole₁, hlen₁, by omega⟩)
    obtain ⟨pb, -, hs⟩ := bind_inv hs₁
    cases hs
    have hheld : s.heldBytes + a.frame.length = FrameRun.heldBytes
        { s with pb := pb, loaded := s.loaded ++ [a.frame] } := by
      have hret : s.returned.length ≤ s.loaded.length :=
        h.holds.ret_le.trans h.holds.pre_le
      rw [FrameRun.heldBytes, FrameRun.heldBytes, List.drop_append_of_le_length hret,
        List.flatten_append, List.length_append, List.flatten_singleton]
    obtain ⟨s', hrun, h', hloaded, hpre, hret⟩ :=
      ih h₁ (fun b hb => hwhole b (List.mem_cons_of_mem a hb)) (by
        change FrameRun.heldBytes { s with pb := pb, loaded := s.loaded ++ [a.frame] } + _ < _
        omega)
    refine ⟨s', ?_, h', ?_, hpre, hret⟩
    · rw [List.map_cons, run_cons, hs₁]
      exact hrun
    · rw [hloaded, List.map_cons, List.append_assoc]
      rfl

theorem preReads_spec (h : FramesInStep s) (pk : Block 256) {k : ℕ}
    (hk : s.preRead.length + k ≤ s.loaded.length) :
    ∃ s', run frameCall s (List.replicate k (.preRead 256 pk)) = some s' ∧ FramesInStep s' ∧
      s'.loaded = s.loaded ∧ s'.preRead.length = s.preRead.length + k ∧
      s'.returned = s.returned := by
  induction k generalizing s with
  | zero => exact ⟨s, rfl, h, rfl, rfl, rfl⟩
  | succ k ih =>
    obtain ⟨s₁, hs₁, h₁⟩ := frameCall_inStep h
      (show WellUsed s (.preRead 256 pk) from ⟨by omega, frame_length_le h⟩)
    obtain ⟨⟨pb, pk'⟩, -, hs⟩ := bind_inv hs₁
    cases hs
    have hlen : (s.preRead ++ [received pk']).length = s.preRead.length + 1 := by
      rw [List.length_append, List.length_singleton]
    obtain ⟨s', hrun, h', hloaded, hpre, hret⟩ := ih h₁ (by
      change (s.preRead ++ [received pk']).length + k ≤ s.loaded.length
      omega)
    refine ⟨s', ?_, h', hloaded, ?_, hret⟩
    · rw [List.replicate_succ, run_cons, hs₁]
      exact hrun
    · change s'.preRead.length = (s.preRead ++ [received pk']).length + k at hpre
      omega

theorem reads_spec (h : FramesInStep s) (pk : Block 256) {k : ℕ}
    (hk : s.returned.length + k ≤ s.preRead.length) :
    ∃ s', run frameCall s (List.replicate k (.read 256 pk)) = some s' ∧ FramesInStep s' ∧
      s'.loaded = s.loaded ∧ s'.preRead = s.preRead ∧
      s'.returned.length = s.returned.length + k := by
  induction k generalizing s with
  | zero => exact ⟨s, rfl, h, rfl, rfl, rfl⟩
  | succ k ih =>
    obtain ⟨s₁, hs₁, h₁⟩ := frameCall_inStep h
      (show WellUsed s (.read 256 pk) from ⟨by omega, frame_length_le h⟩)
    obtain ⟨⟨pb, pk'⟩, -, hs⟩ := bind_inv hs₁
    cases hs
    have hlen : (s.returned ++ [received pk']).length = s.returned.length + 1 := by
      rw [List.length_append, List.length_singleton]
    obtain ⟨s', hrun, h', hloaded, hpre, hret⟩ := ih h₁ (by
      change (s.returned ++ [received pk']).length + k ≤ s.preRead.length
      omega)
    refine ⟨s', ?_, h', hloaded, hpre, ?_⟩
    · rw [List.replicate_succ, run_cons, hs₁]
      exact hrun
    · change s'.returned.length = (s.returned ++ [received pk']).length + k at hret
      omega

end Reading

/-- All frames loaded have been read, by both readers. -/
structure Idle (s : FrameRun) : Prop extends FramesInStep s where
  allPreRead : s.preRead = s.loaded
  allReturned : s.returned = s.loaded

theorem Idle.heldBytes {s : FrameRun} (h : Idle s) : s.heldBytes = 0 := by
  rw [FrameRun.heldBytes, h.allReturned, List.drop_length]
  rfl

theorem batch_forwarded {s : FrameRun} (h : Idle s) (pk pk' : Block 256) {batch : List Arrival}
    (hfits : BatchFits batch) :
    ∃ s', run frameCall s (batchCalls pk pk' batch) = some s' ∧ Idle s' ∧
      s'.loaded = s.loaded ++ batch.map Arrival.frame := by
  obtain ⟨s₁, hrun₁, h₁, hloaded₁, hpre₁, hret₁⟩ := loads_spec h.toFramesInStep hfits.whole (by
    rw [h.heldBytes, Nat.zero_add]
    exact hfits.free)
  have hlen₁ : s₁.loaded.length = s.loaded.length + batch.length := by
    rw [hloaded₁, List.length_append, List.length_map]
  rw [h.allPreRead] at hpre₁
  rw [h.allReturned] at hret₁
  obtain ⟨s₂, hrun₂, h₂, hloaded₂, hpre₂, hret₂⟩ := preReads_spec h₁ pk (k := batch.length)
    (by rw [hpre₁, hlen₁])
  obtain ⟨s₃, hrun₃, h₃, hloaded₃, hpre₃, hret₃⟩ := reads_spec h₂ pk' (k := batch.length)
    (by rw [hret₂, hret₁, hpre₂, hpre₁])
  refine ⟨s₃, ?_, ⟨h₃, ?_, ?_⟩, hloaded₃.trans (hloaded₂.trans hloaded₁)⟩
  · rw [batchCalls, run_append, hrun₁]
    refine (run_append s₁ _ _).trans ?_
    rw [hrun₂]
    exact hrun₃
  · refine h₃.preRead.eq_of_length ?_
    rw [hpre₃, hpre₂, hpre₁, hloaded₃, hloaded₂, hlen₁]
  · refine h₃.returned.eq_of_length ?_
    rw [hret₃, hret₂, hret₁, hloaded₃, hloaded₂, hlen₁]

/-- The runs of batches are defined from an idle state on. -/
theorem batches_spec {s : FrameRun} (h : Idle s) (pk pk' : Block 256)
    {batches : List (List Arrival)} (hfits : ∀ batch ∈ batches, BatchFits batch) :
    ∃ s', run frameCall s (batches.flatMap (batchCalls pk pk')) = some s' ∧ Idle s' ∧
      s'.loaded = s.loaded ++ batches.flatten.map Arrival.frame := by
  induction batches generalizing s with
  | nil => exact ⟨s, rfl, h, (List.append_nil _).symm⟩
  | cons batch batches ih =>
    obtain ⟨s₁, hrun₁, h₁, hloaded₁⟩ :=
      batch_forwarded h pk pk' (hfits batch List.mem_cons_self)
    obtain ⟨s', hrun, h', hloaded⟩ :=
      ih h₁ fun b hb => hfits b (List.mem_cons_of_mem batch hb)
    refine ⟨s', ?_, h', ?_⟩
    · rw [List.flatMap_cons, run_append, hrun₁]
      exact hrun
    · rw [hloaded, hloaded₁, List.flatten_cons, List.map_append, List.append_assoc]

/-- However many batches there are, every frame comes out of both readers, in order. -/
theorem batches_forwarded (pb : PacketBuffer) (pk pk' : Block 256)
    (batches : List (List Arrival)) (hfits : ∀ batch ∈ batches, BatchFits batch) :
    ∃ s, run frameCall (startFrames pb) (batches.flatMap (batchCalls pk pk')) = some s ∧
      s.preRead = batches.flatten.map Arrival.frame ∧
      s.returned = batches.flatten.map Arrival.frame := by
  have hstart : Idle (startFrames pb) :=
    ⟨⟨⟨List.nil_prefix, List.nil_prefix⟩, holdsFrames_initialized pb⟩, rfl, rfl⟩
  obtain ⟨s, hrun, h, hloaded⟩ := batches_spec hstart pk pk' hfits
  exact ⟨s, hrun, h.allPreRead.trans hloaded, h.allReturned.trans hloaded⟩

/-- Nine hundred packets, three in a batch. -/
theorem many_packets_forwarded :
    let a : Arrival := ⟨⟨243, 243, List.replicate 243 7, List.length_replicate⟩,
      Block.ofFn fun _ => 1, Block.ofFn fun _ => 2⟩
    let batches := List.replicate 300 [a, a, a]
    ∃ s, run frameCall (startFrames zeroedPacketBuffer) (batches.flatMap (batchCalls
        (Block.ofFn fun _ => 0) (Block.ofFn fun _ => 0))) = some s ∧
      s.preRead = batches.flatten.map Arrival.frame ∧
      s.returned = batches.flatten.map Arrival.frame := by
  intro a batches
  refine batches_forwarded zeroedPacketBuffer (Block.ofFn fun _ => 0) (Block.ofFn fun _ => 0)
    batches fun batch hbatch => ?_
  rw [List.eq_of_mem_replicate hbatch]
  have hlen : a.frame.length = 256 := frame_length _ _ _
  refine ⟨fun b hb => ?_, ?_⟩
  · simp only [List.mem_cons, List.not_mem_nil, or_false, or_self] at hb
    rw [hb]
    exact ⟨rfl, le_rfl⟩
  · simp only [List.map_cons, List.map_nil, List.flatten_cons, List.flatten_nil,
      List.length_append, hlen]
    decide

end NetWalk.FrameBatches
