import NetWalk.FrameFields
import NetWalk.ManagedRuns
import NetWalk.PreProcessingRuns

/-!
# Frames classified by the tables

The pre-processor gives back each frame with its match field, and the tables are searched for
the match field. Where the masks of the rules select only bits that the frame decides, the
search ends with the best rule for the frame itself, in whatever states the buffers and the
tables are and whatever `malloc` returned.
-/
namespace NetWalk.FrameClassification
open ByteBlock BitOperations PriorityScan PacketFrames PreProcessing PartialRun FlowTables
open MatchFieldLayout MatchFieldContents FrameFields PreProcessingRuns FlowSearch FlowRows
open FlowCache FlowRuns ManagedRuns
open MatchFieldRing hiding mtchFldLen

/-- The mask selects only bits that the frame decides. -/
def SelectsDecided (f : List UInt8) (mask : Block mtchFldLen) : Prop :=
  ∀ q < 8 * mtchFldLen, bit mask q = true → FrameDecides f q

instance (f : List UInt8) (mask : Block mtchFldLen) : Decidable (SelectsDecided f mask) :=
  inferInstanceAs (Decidable (∀ q < 8 * mtchFldLen, bit mask q = true → FrameDecides f q))

/-- Every match field prepared is laid out for the frame whose turn it was, and the frames
fit the block for the packet. -/
structure FieldsLaid (s : PpRun) : Prop where
  fits : ∀ f ∈ s.loaded, f.length ≤ maxPacketSize
  laid : ∀ (k : ℕ) (mf : Block mtchFldLen), s.prepared[k]? = some (some mf) →
    ∃ (f : List UInt8) (pkt : Block maxPacketSize) (matchField : Block mtchFldLen),
      s.loaded[k]? = some f ∧ layMatchField (pkt.overwrite f) matchField = some mf

/-- The frame at the same place in a longer list. -/
theorem FieldsLaid.mono {s s' : PpRun} (h : FieldsLaid s) (hload : s.loaded <+: s'.loaded)
    (hprep : s'.prepared = s.prepared) (hfits : ∀ f ∈ s'.loaded, f.length ≤ maxPacketSize) :
    FieldsLaid s' := by
  refine ⟨hfits, fun k mf hmf => ?_⟩
  rw [hprep] at hmf
  obtain ⟨f, pkt, matchField, hf, hlay⟩ := h.laid k mf hmf
  exact ⟨f, pkt, matchField, getElem?_of_prefix hload hf, hlay⟩

theorem ppCall_fieldsLaid (s : PpRun) (c : PpCall) (s' : PpRun) (h : FieldsLaid s)
    (hc : PpWellUsed s c) (hs' : ppCall s c = some s') : FieldsLaid s' := by
  cases c with
  | load ingressPort metadata =>
    obtain ⟨fp, pb, -, rfl⟩ := ppCall_load_inv hs'
    refine h.mono (List.prefix_append _ _) rfl fun f hf => ?_
    rcases List.mem_append.mp hf with hold | hnew
    · exact h.fits f hold
    · obtain ⟨pkt, hpkt, rfl⟩ : ∃ pkt ∈ nextCaptured s.fp, pkt.frame ingressPort metadata = f := by
        simpa using hnew
      obtain ⟨hwhole, hlen, -⟩ := hc pkt hpkt
      rw [frame_length, maxPacketSize]
      omega
  | prepare matchField pkt =>
    obtain ⟨pp, -, hs'⟩ := bind_inv hs'
    cases hs'
    refine ⟨h.fits, fun k mf hmf => ?_⟩
    rcases Nat.lt_or_ge k s.prepared.length with hold | hnew
    · rw [List.getElem?_append_left hold] at hmf
      exact h.laid k mf hmf
    · rw [List.getElem?_append_right hnew] at hmf
      obtain ⟨hk, hmf⟩ := List.getElem?_eq_some_iff.mp hmf
      obtain rfl : k = s.prepared.length := by
        rw [List.length_singleton] at hk
        omega
      rw [List.getElem_singleton] at hmf
      obtain ⟨f, hf, hlay⟩ := Option.bind_eq_some_iff.mp hmf
      exact ⟨f, pkt, matchField, hf, hlay⟩
  | giveBack m n returnMtchFld returnPacket =>
    obtain ⟨mfb, mf, pb, pk, -, -, rfl⟩ := ppCall_giveBack_inv hs'
    exact h.mono List.prefix_rfl rfl h.fits

/-- A match field laid out for a frame has the bits that the frame decides. -/
theorem decided_bits {f : List UInt8} (hmin : 27 ≤ f.length) (hmax : f.length ≤ maxPacketSize)
    {pkt : Block maxPacketSize} {matchField mf : Block mtchFldLen}
    (hlay : layMatchField (pkt.overwrite f) matchField = some mf) {q : ℕ}
    (hq : q < 8 * mtchFldLen) (hdecides : FrameDecides f q) : bit mf q = bit (frameFlow f) q := by
  obtain ⟨mf', hlay', horigin⟩ := layMatchField_laid (pkt.overwrite f) matchField
  cases hlay.symm.trans hlay'
  rw [etherKind_overwrite hmin hmax] at horigin
  exact laid_decided hmax horigin hq hdecides

section Lookups
variable {flow flow' : Block mtchFldLen}

theorem Rule.matches_congr {r : Rule}
    (h : ∀ q < 8 * mtchFldLen, bit r.mask q = true → bit flow q = bit flow' q) :
    r.Matches flow ↔ r.Matches flow' := by
  refine forall_congr' fun q => forall_congr' fun hq => ?_
  rw [h q (q.isLt.trans (by decide)) hq]

theorem bestRule_congr {rules : List Rule}
    (h : ∀ r ∈ rules, r.Matches flow ↔ r.Matches flow') :
    bestRule rules flow = bestRule rules flow' := by
  refine bestOf_congr fun p hp => ?_
  rw [List.getElem?_eq_getElem hp, Option.any_some, Option.any_some, decide_eq_decide]
  exact h _ (List.getElem_mem hp)

end Lookups

section Frames
variable {s : PpRun} {f : List UInt8} {k : ℕ}

/-- A frame given back comes with a match field for which rules that ask for nothing else
than the frame decides have the same best rule as for the frame. -/
theorem returned_best (htogether : PairsTogether s) (hlaid : FieldsLaid s)
    (hk : k < s.returned.length) (hf : s.loaded[k]? = some f) (hmin : 27 ≤ f.length) :
    ∃ mf : Block mtchFldLen, s.returned[k]? = some (f, mf.toList) ∧
      ∀ rules : List Rule, (∀ r ∈ rules, SelectsDecided f r.mask) →
        bestRule rules mf = bestRule rules (frameFlow f) := by
  obtain ⟨f', mf, hf', hmf, hpair⟩ := htogether k hk
  cases hf.symm.trans hf'
  obtain ⟨f', pkt, matchField, hf', hlay⟩ := hlaid.laid k mf hmf
  cases hf.symm.trans hf'
  have hmax := hlaid.fits f (List.mem_of_getElem? hf)
  exact ⟨mf, hpair, fun rules hmasks => bestRule_congr fun r hr => Rule.matches_congr
    fun q hq hsel => decided_bits hmin hmax hlay hq (hmasks r hr q hq hsel)⟩

theorem returned_throughout (fp : List PcapNext) (pp : PreProcessor) (calls : List PpCall)
    (hused : Along ppCall PpWellUsed (startPp fp pp) calls)
    (hroom : calls.countP PpCall.isPrepare ≤ noOfMatchFieldsInTheBuffer) :
    Throughout ppCall (fun s => PairsTogether s ∧ FieldsLaid s) (startPp fp pp) calls := by
  have htogether := together_of_prepares_le (paired_start fp pp) calls hused (by
    simp only [List.length_nil]
    omega)
  have hstart : FieldsLaid (startPp fp pp) := ⟨by simp [startPp], by simp [startPp]⟩
  exact htogether.and_always (always_of_along _ ppCall_fieldsLaid hstart hused)

end Frames

/-- Every frame given back is found under the best rule for it, if its ether type is in the
frame and the rules ask for nothing that it does not decide. -/
def ClassifiesFrames (s : PpRun) (u : ManagedRun) : Prop :=
  ∀ k f, k < s.returned.length → s.loaded[k]? = some f → 27 ≤ f.length →
    (∀ r ∈ u.rules, SelectsDecided f r.mask) →
    ∃ mf : Block mtchFldLen, s.returned[k]? = some (f, mf.toList) ∧
      ∀ actionSet maskPos, ∃ found, searchFlow u.tcam u.cache mf actionSet maskPos = some found ∧
        found.pos = posOf (bestRule u.rules (frameFlow f)) ∧
        ∀ p r, found.pos = (p : ℕ) → u.rules[p]? = some r →
          found.actionSet = r.actionSet ∧ found.tcam.flag p = r.flag

theorem classifiesFrames_of {s : PpRun} {u : ManagedRun} (htogether : PairsTogether s)
    (hlaid : FieldsLaid s) (hanswers : AnswersRules u) : ClassifiesFrames s u := by
  intro k f hk hf hmin hmasks
  obtain ⟨mf, hpair, hbest⟩ := returned_best htogether hlaid hk hf hmin
  refine ⟨mf, hpair, fun actionSet maskPos => ?_⟩
  obtain ⟨found, hfound, hpos, haction⟩ := hanswers.search mf actionSet maskPos
  exact ⟨found, hfound, hbest u.rules hmasks ▸ hpos, haction⟩

/-- A run of the pre-processor and a run of the tables: in every state of the one and every
state of the other, each frame given back is classified by what the frame decides. -/
theorem classifies_frames (fp : List PcapNext) (pp : PreProcessor) (ppCalls : List PpCall)
    (hused : Along ppCall PpWellUsed (startPp fp pp) ppCalls)
    (hroom : ppCalls.countP PpCall.isPrepare ≤ noOfMatchFieldsInTheBuffer) (tcam : TcamUnit)
    (cache : Cache) (calls : List ManagedCall)
    (hmanaged : Along managedCall ManagedUsed (startManaged tcam cache) calls) :
    Throughout ppCall
      (fun s => Throughout managedCall (ClassifiesFrames s) (startManaged tcam cache) calls)
      (startPp fp pp) ppCalls := by
  refine (returned_throughout fp pp ppCalls hused hroom).mono fun s hs => ?_
  refine (managed_throughout tcam cache calls hmanaged).mono ?_
  rintro u ⟨n, m, h⟩
  exact classifiesFrames_of hs.1 hs.2 (answersRules_of_managed h)

/-- A rule on the ingress port, and one frame. -/
theorem one_frame_classified :
    Throughout ppCall
      (fun s => Throughout managedCall (ClassifiesFrames s)
        (startManaged zeroedTcamUnit zeroedCache)
        [.table (.add (firstByte 255) (entryFor 1 7) (firstByte 1) (firstByte 0))])
      (startPp [.packet (segment [8, 0])] zeroedPreProcessor)
      [.load (Block.ofFn fun _ => 1) (Block.ofFn fun _ => 2),
       .prepare (Block.ofFn fun _ => 0) (Block.ofFn fun _ => 0),
       .giveBack 45 100 (Block.ofFn fun _ => 0) (Block.ofFn fun _ => 0)] :=
  classifies_frames _ _ _ (by decide +kernel) (by decide) _ _ _ (by decide +kernel)

end NetWalk.FrameClassification
