import NetWalk.PacketFrames
import NetWalk.PartialRun

/-!
# Loading and reading whole frames

A run loads packets and reads them back, once for pre-processing and once for
good, in any order that keeps the callers' side: whole captures of at most 243
bytes, a byte left free by every load, no reader ahead of what it may read, and
destinations that the frame due fits into. What a reader hands out is taken
from its destination array, up to the length byte it finds there.
-/
namespace NetWalk.PacketFrameRuns
open ByteBlock RingCursor PacketByteRing PacketFrames PartialRun

inductive FrameCall where
  | load (pkt : Packet) (ingressPort : Block 4) (metadata : Block 8)
  | preRead (n : ℕ) (pk : Block n)
  | read (n : ℕ) (pk : Block n)

structure FrameRun where
  pb : PacketBuffer
  loaded : List (List UInt8)
  preRead : List (List UInt8)
  returned : List (List UInt8)

def startFrames (pb : PacketBuffer) : FrameRun := ⟨initializePacketBuffer pb, [], [], []⟩

/-- Bytes of the frames that have not been read for good. -/
def FrameRun.heldBytes (s : FrameRun) : ℕ := (s.loaded.drop s.returned.length).flatten.length

def frameCall (s : FrameRun) : FrameCall → Option FrameRun
  | .load pkt ingressPort metadata => do
      let pb ← loadAPacketToThePacketBuffer pkt s.pb ingressPort metadata
      some { s with pb := pb, loaded := s.loaded ++ [pkt.frame ingressPort metadata] }
  | .preRead _ pk => do
      let (pb, pk) ← readAPacketForPreprocessing s.pb pk
      some { s with pb := pb, preRead := s.preRead ++ [received pk] }
  | .read _ pk => do
      let (pb, pk) ← readAPacket s.pb pk
      some { s with pb := pb, returned := s.returned ++ [received pk] }

def WellUsed (s : FrameRun) : FrameCall → Prop
  | .load pkt _ _ => pkt.caplen = pkt.len ∧ pkt.len ≤ 243 ∧
      s.heldBytes + (pkt.caplen + 13) < packetBufferLen
  | .preRead n _ => s.preRead.length < s.loaded.length ∧
      ∀ f ∈ s.loaded[s.preRead.length]?, f.length ≤ n
  | .read n _ => s.returned.length < s.preRead.length ∧
      ∀ f ∈ s.loaded[s.returned.length]?, f.length ≤ n

instance : ∀ s c, Decidable (WellUsed s c)
  | s, .load pkt _ _ => inferInstanceAs (Decidable (pkt.caplen = pkt.len ∧ pkt.len ≤ 243 ∧
      s.heldBytes + (pkt.caplen + 13) < packetBufferLen))
  | s, .preRead n _ => inferInstanceAs (Decidable (s.preRead.length < s.loaded.length ∧
      ∀ f ∈ s.loaded[s.preRead.length]?, f.length ≤ n))
  | s, .read n _ => inferInstanceAs (Decidable (s.returned.length < s.preRead.length ∧
      ∀ f ∈ s.loaded[s.returned.length]?, f.length ≤ n))

/-- The `k`-th read of either kind produced the `k`-th frame. -/
structure RoundTrip (s : FrameRun) : Prop where
  preRead : s.preRead <+: s.loaded
  returned : s.returned <+: s.loaded

structure FramesInStep (s : FrameRun) : Prop extends RoundTrip s where
  holds : HoldsFrames s.pb s.loaded s.preRead.length s.returned.length

theorem heldBytes_add (s : FrameRun) :
    (s.loaded.take s.returned.length).flatten.length + s.heldBytes =
      s.loaded.flatten.length := by
  rw [FrameRun.heldBytes, ← List.length_append, ← List.flatten_append, List.take_append_drop]

theorem frameCall_inStep {s : FrameRun} (h : FramesInStep s) {c : FrameCall}
    (hc : WellUsed s c) : ∃ s', frameCall s c = some s' ∧ FramesInStep s' := by
  cases c with
  | load pkt ingressPort metadata =>
    obtain ⟨hwhole, hlen, hfree⟩ := hc
    have hheld := heldBytes_add s
    obtain ⟨pb', hload, hpb'⟩ :=
      enqueuePacket_spec h.holds hwhole hlen ingressPort metadata (by omega)
    refine ⟨{ s with pb := pb', loaded := s.loaded ++ [pkt.frame ingressPort metadata] },
      by simp [frameCall, loadAPacketToThePacketBuffer, hload], ⟨?_, ?_⟩, hpb'⟩
    · exact h.preRead.trans (List.prefix_append _ _)
    · exact h.returned.trans (List.prefix_append _ _)
  | preRead n pk =>
    obtain ⟨hlt, hfit⟩ := hc
    have hf := List.getElem?_eq_getElem hlt
    have hn := hfit _ hf
    obtain ⟨pb', hread, hpb'⟩ := readAPacketForPreprocessing_spec h.holds pk hf hn
    have hout := received_overwrite pk (h.holds.delimited _ (List.getElem_mem hlt)) hn
    refine ⟨{ s with pb := pb', preRead := s.preRead ++ [s.loaded[s.preRead.length]] },
      by simp [frameCall, hread, hout], ⟨prefix_snoc h.preRead hf, h.returned⟩, ?_⟩
    simpa using hpb'
  | read n pk =>
    obtain ⟨hlt, hfit⟩ := hc
    have hlt' : s.returned.length < s.loaded.length := hlt.trans_le h.holds.pre_le
    have hf := List.getElem?_eq_getElem hlt'
    have hn := hfit _ hf
    obtain ⟨pb', hread, hpb'⟩ := readAPacket_spec h.holds hlt pk hf hn
    have hout := received_overwrite pk (h.holds.delimited _ (List.getElem_mem hlt')) hn
    refine ⟨{ s with pb := pb', returned := s.returned ++ [s.loaded[s.returned.length]] },
      by simp [frameCall, hread, hout], ⟨h.preRead, prefix_snoc h.returned hf⟩, ?_⟩
    simpa using hpb'

/-- Encoding into the ring and decoding from it give back every frame, in order
and on both reading paths, wherever the frame lies in the array. -/
theorem frames_round_trip (pb : PacketBuffer) (calls : List FrameCall)
    (h : Along frameCall WellUsed (startFrames pb) calls) :
    Throughout frameCall RoundTrip (startFrames pb) calls := by
  have hstart : FramesInStep (startFrames pb) :=
    ⟨⟨List.nil_prefix, List.nil_prefix⟩, holdsFrames_initialized pb⟩
  exact (throughout_of_along _ (fun s c hs hc => frameCall_inStep hs hc) hstart h).mono
    fun s hs => hs.toRoundTrip

/-- Two packets, read back after a pre-processing pass over both. -/
theorem two_frames_round_trip :
    Throughout frameCall RoundTrip (startFrames zeroedPacketBuffer)
      [.load ⟨1, 1, [9], rfl⟩ (Block.ofFn fun _ => 1) (Block.ofFn fun _ => 2),
       .load ⟨0, 0, [], rfl⟩ (Block.ofFn fun _ => 3) (Block.ofFn fun _ => 4),
       .preRead 100 (Block.ofFn fun _ => 0), .preRead 100 (Block.ofFn fun _ => 0),
       .read 100 (Block.ofFn fun _ => 0), .read 100 (Block.ofFn fun _ => 0)] :=
  frames_round_trip zeroedPacketBuffer _ (by decide +kernel)

end NetWalk.PacketFrameRuns
