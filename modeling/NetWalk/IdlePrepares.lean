import NetWalk.PreProcessingRuns

/-!
# Preparing with no packet waiting

The result of the read is not looked at by `prepare_match_field`: the length byte 0 of an
empty ring is stored and never tested, and on a ring that only holds frames prepared
before, the read goes on over old bytes. Either way a match field is enqueued that
belongs to no packet. This holds in every state of every run, since the match-field
buffer never reports that it is full before its array is left (`Fills`).
-/
namespace NetWalk.IdlePrepares
open ByteBlock RingCursor PacketByteRing PacketFrames MatchFieldRing PreProcessing PartialRun
open PreProcessingRuns

/-- There has been a prepare for every frame loaded. -/
def NothingWaiting (s : PpRun) : Prop := s.loaded.length ≤ s.prepared.length

instance (s : PpRun) : Decidable (NothingWaiting s) :=
  inferInstanceAs (Decidable (s.loaded.length ≤ s.prepared.length))

/-- A prepare returns and leaves both buffers as they are. -/
def PrepareIsNoop (s : PpRun) (matchField : Block mtchFldLen) (pkt : Block maxPacketSize) :
    Prop :=
  ∃ s', ppCall s (.prepare matchField pkt) = some s' ∧ s'.pp = s.pp

/-- A match field has been enqueued, of no frame if nothing was waiting, and the reading head
has moved unless the ring is empty. -/
structure FieldEnqueued (s s' : PpRun) : Prop where
  noFrame : NothingWaiting s → s'.prepared = s.prepared ++ [none]
  enqueued : s'.pp.mf.matchFieldBufferTail = s.pp.mf.matchFieldBufferTail + mtchFldLen
  readingHead : s'.pp.pb.bufferReadingHead = s.pp.pb.bufferReadingHead ↔
    s.pp.pb.bufferEmptyFlag = true

section PacketRing
variable {pb pb' : PacketBuffer}

theorem preDqueue_moves (hempty : pb.bufferEmptyFlag = false) {v : UInt8}
    (h : dqueueFromPacketBufferForPreprocessing pb = some (v, pb')) :
    pb.bufferReadingHead < packetBufferLen ∧ pb'.bufferEmptyFlag = false ∧
      pb'.bufferReadingHead = next packetBufferLen pb.bufferReadingHead := by
  rw [dqueueFromPacketBufferForPreprocessing, hempty, if_neg Bool.false_ne_true] at h
  obtain ⟨data, hread, h⟩ := bind_inv h
  cases h
  refine ⟨?_, rfl, rfl⟩
  by_contra hout
  rw [Block.read, if_neg (by rw [Block.Inside]; omega)] at hread
  cases hread

/-- At most 256 bytes are read, fewer than a lap. -/
theorem readAPacketForPreprocessing_moves {n : ℕ} {pk pk' : Block n}
    (h : readAPacketForPreprocessing pb pk = some (pb', pk')) :
    pb'.bufferReadingHead = pb.bufferReadingHead ↔ pb.bufferEmptyFlag = true := by
  cases hempty : pb.bufferEmptyFlag with
  | true =>
    rw [readAPacketForPreprocessing, hempty, if_pos rfl] at h
    obtain ⟨pk₁, -, h⟩ := bind_inv h
    cases h
    exact iff_of_true rfl rfl
  | false =>
    rw [readAPacketForPreprocessing, hempty, if_neg Bool.false_ne_true] at h
    obtain ⟨⟨l, pb₁⟩, hfirst, h⟩ := bind_inv h
    obtain ⟨pk₁, -, hfill⟩ := bind_inv h
    obtain ⟨hlt, hempty₁, hhead₁⟩ := preDqueue_moves hempty hfirst
    have hmod := Nat.mod_eq_of_lt hlt
    rw [← hmod, next_mod (by decide)] at hhead₁
    obtain ⟨-, hhead⟩ := fill_keeps (fun k s => s.bufferEmptyFlag = false ∧
        s.bufferReadingHead = (pb.bufferReadingHead + k) % packetBufferLen)
      (fun k s v s' hs hnext => by
        obtain ⟨-, hempty', hhead'⟩ := preDqueue_moves hs.1 hnext
        exact ⟨hempty', by rw [hhead', hs.2, next_mod (by decide), Nat.add_assoc]⟩)
      l.toNat 1 1 hfill ⟨hempty₁, hhead₁⟩
    refine iff_of_false (fun heq => ?_) Bool.false_ne_true
    have hl : l.toNat < 256 := l.toNat_lt
    simp only [packetBufferLen] at hlt hhead
    omega

end PacketRing

section MatchFields
variable {mfb mfb' : MatchFieldBuffer} {accepted : List UInt8} {deq : ℕ}

theorem enqueueMatchField_inv (h : Fills mfb accepted deq) {matchField : Block mtchFldLen}
    (henq : enqueueMatchField mfb matchField = some mfb') :
    Fills mfb' (accepted ++ matchField.toList) deq := by
  unfold enqueueMatchField at henq
  generalize matchField.toList = bytes at henq
  induction bytes generalizing mfb accepted with
  | nil =>
    cases henq
    simpa using h
  | cons x bytes ih =>
    rw [List.foldlM_cons] at henq
    obtain ⟨mfb₁, hadd, henq⟩ := bind_inv henq
    rcases Nat.lt_or_eq_of_le h.inside with hroom | hfull
    · obtain ⟨t, ht, hfills, -⟩ := addAByte_spec h hroom x
      cases hadd.symm.trans ht
      simpa using ih hfills henq
    · rw [addAByte_overrun h hfull x] at hadd
      cases hadd

theorem dqueue_keeps (h : Fills mfb accepted deq) {v : UInt8}
    (hdq : dqueueFromMatchFieldBuffer mfb = some (v, mfb')) :
    ∃ deq', Fills mfb' accepted deq' := by
  rcases Nat.lt_or_eq_of_le h.deq_le with hlt | heq
  · obtain ⟨data, t, ht, -, hfills, -⟩ := dqueue_spec h hlt
    cases hdq.symm.trans ht
    exact ⟨deq + 1, hfills⟩
  · cases hdq.symm.trans (dqueue_refused (h.empty.mpr heq.symm))
    exact ⟨deq, h⟩

theorem readAMatchField_keeps (h : Fills mfb accepted deq) {n : ℕ} {mf mf' : Block n}
    (hread : readAMatchField mfb mf = some (mfb', mf')) : ∃ deq', Fills mfb' accepted deq' := by
  cases hempty : mfb.bufferEmptyFlag with
  | true =>
    rw [readAMatchField, hempty, if_pos rfl] at hread
    cases hread
    exact ⟨deq, h⟩
  | false =>
    rw [readAMatchField, hempty, if_neg Bool.false_ne_true] at hread
    have hnext : ∀ (k : ℕ) s v s', (∃ deq', Fills s accepted deq') →
        dqueueFromMatchFieldBuffer s = some (v, s') → ∃ deq', Fills s' accepted deq' := by
      intro k s v s' hs hdq
      obtain ⟨deq', hs⟩ := hs
      exact dqueue_keeps hs hdq
    exact fill_keeps (fun _ s => ∃ deq', Fills s accepted deq') hnext mtchFldLen 0 0 hread
      ⟨deq, h⟩

end MatchFields

/-- The match-field array has not been left, however the calls were made. -/
def FieldsFill (s : PpRun) : Prop := ∃ accepted deq, Fills s.pp.mf accepted deq

theorem ppCall_fieldsFill {s s' : PpRun} {c : PpCall} (h : FieldsFill s)
    (hcall : ppCall s c = some s') : FieldsFill s' := by
  obtain ⟨accepted, deq, hfills⟩ := h
  cases c with
  | load ingressPort metadata =>
    obtain ⟨fp, pb, -, rfl⟩ := ppCall_load_inv hcall
    exact ⟨accepted, deq, hfills⟩
  | prepare matchField pkt =>
    obtain ⟨pb, pkt', laid, mfb, expected, -, henq, -, rfl⟩ := ppCall_prepare_inv hcall
    exact ⟨_, deq, enqueueMatchField_inv hfills henq⟩
  | giveBack m n returnMtchFld returnPacket =>
    obtain ⟨mfb, mf, pb, pk, hread, -, rfl⟩ := ppCall_giveBack_inv hcall
    obtain ⟨deq', hfills'⟩ := readAMatchField_keeps hfills hread
    exact ⟨accepted, deq', hfills'⟩

theorem prepare_enqueues {s s' : PpRun} (h : FieldsFill s) {matchField : Block mtchFldLen}
    {pkt : Block maxPacketSize} (hcall : ppCall s (.prepare matchField pkt) = some s') :
    FieldEnqueued s s' := by
  obtain ⟨accepted, deq, hfills⟩ := h
  obtain ⟨pb, pkt', laid, mfb, expected, hread, henq, hnone, rfl⟩ := ppCall_prepare_inv hcall
  refine ⟨fun hidle => by rw [hnone hidle], ?_, readAPacketForPreprocessing_moves hread⟩
  rw [(enqueueMatchField_inv hfills henq).tail, hfills.tail, List.length_append,
    Block.length_toList]

/-- Where the tail has moved, the buffer is not as it was. -/
theorem not_prepareIsNoop {s : PpRun} (h : FieldsFill s) (matchField : Block mtchFldLen)
    (pkt : Block maxPacketSize) : ¬ PrepareIsNoop s matchField pkt := by
  rintro ⟨s', hcall, hkept⟩
  have htail := (prepare_enqueues h hcall).enqueued
  rw [hkept, mtchFldLen] at htail
  omega

theorem always_fieldsFill (fp : List PcapNext) (pp : PreProcessor) (calls : List PpCall) :
    Always ppCall FieldsFill (startPp fp pp) calls :=
  always_of_along FieldsFill (C := fun _ _ => True)
    (fun _ _ _ hs _ hcall => ppCall_fieldsFill hs hcall) ⟨[], 0, fills_initialized pp.mf⟩
    (along_true _ calls)

/-- In no state of a run is a prepare without effect, be a packet waiting or not. -/
theorem idle_prepare_never (fp : List PcapNext) (pp : PreProcessor) (calls : List PpCall) :
    Always ppCall (fun s => ∀ matchField pkt, ¬ PrepareIsNoop s matchField pkt ∧
        ∀ s', ppCall s (.prepare matchField pkt) = some s' → FieldEnqueued s s')
      (startPp fp pp) calls :=
  (always_fieldsFill fp pp calls).mono fun _ hs matchField pkt =>
    ⟨not_prepareIsNoop hs matchField pkt, fun _ hcall => prepare_enqueues hs hcall⟩

/-- A capture with one empty packet. -/
def emptyPacket : PpRun := startPp [.packet ⟨0, 0, [], rfl⟩] zeroedPreProcessor

theorem exists_stray {calls : List PpCall}
    (h : (run ppCall emptyPacket calls).any (fun s => NothingWaiting s) = true) :
    ∃ s, run ppCall emptyPacket calls = some s ∧ NothingWaiting s ∧
      ∃ matchField pkt, ¬ PrepareIsNoop s matchField pkt := by
  obtain ⟨s, hrun, hidle⟩ := exists_of_any h
  refine ⟨s, hrun, hidle, Block.ofFn fun _ => 0, Block.ofFn fun _ => 0, ?_⟩
  exact not_prepareIsNoop (always_fieldsFill _ _ calls calls List.prefix_rfl s hrun) _ _

/-- Both on the empty ring and on one that only holds a frame prepared before, a match field
of no frame is enqueued. -/
theorem idle_prepares_stray :
    (∃ s, run ppCall emptyPacket [] = some s ∧ NothingWaiting s ∧
      ∃ matchField pkt, ¬ PrepareIsNoop s matchField pkt) ∧
    ∃ s, run ppCall emptyPacket (oneRound.take 2) = some s ∧ NothingWaiting s ∧
      ∃ matchField pkt, ¬ PrepareIsNoop s matchField pkt :=
  ⟨exists_stray (by decide +kernel), exists_stray (by decide +kernel)⟩

end NetWalk.IdlePrepares
