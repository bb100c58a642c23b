import NetWalk.FrameClassification
import NetWalk.ActionOutput

/-!
# What is done with a frame

From the captured frame to the action that is put out for it: the frame goes through the
pre-processor, its match field through `apply_action`. When the cache is searched in vain, what
is put out is the action of the best rule for the frame.
-/
namespace NetWalk.FrameActions
open ByteBlock BitOperations RingPrinting PacketFrames PartialRun FlowTables FlowSearch FlowCache
open FlowRows FlowRuns PreProcessing PreProcessingRuns MatchFieldContents FrameFields
open FrameClassification
open ManagedRuns ActionOutput
open MatchFieldRing hiding mtchFldLen

/-- What is put out for the best rule of the list. -/
def shownBest (rules : List Rule) (flow : Block mtchFldLen) : List (Token UInt8) :=
  ((bestRule rules flow).bind fun p => rules[p]?).elim [.text "\nSend to policy controller"]
    fun r => .text "\nActions applied: " :: shownActions r.flag r.actionSet

/-- What is returned: whether there is one. -/
def returnedBest (rules : List Rule) (flow : Block mtchFldLen) : ℤ :=
  if (bestRule rules flow).isSome then 1 else -1

section Applying
variable {s : ManagedRun} {n m : ℕ} {flow : Block mtchFldLen}

/-- A search in the tables ends with the rule that the list gives. -/
theorem applies_best (h : Managed s n m)
    (hcache : searchCache s.tcam s.cache flow = some (-1, s.tcam)) (actionSet : Block actnStLen)
    (maskPos : ℤ) (val : Block 6) :
    ∃ found, applyActionOutput s.tcam s.cache flow actionSet maskPos val =
      some (returnedBest s.rules flow, found, shownBest s.rules flow) := by
  obtain ⟨found, b, hfound, hpos, haction, htcam, -⟩ :=
    searchFlow_result h.grouped.searchable ⟨h.top_pos, h.top_le⟩ flow actionSet maskPos
  rw [← settle_missed hcache (by decide)] at hfound
  have hmissed : cacheHits s.tcam s.cache flow = false := by
    rw [cacheHits, hcache]
    rfl
  have houtput := applyActionOutput_settled hfound val
  rw [hmissed] at houtput
  refine ⟨found, houtput.trans ?_⟩
  rw [shownLookup, shownBest, returnedBest, ← chosen_eq_bestRule h.toRefinesRules flow, hpos]
  cases hbest : chosen s.tcam flow with
  | none => rfl
  | some p =>
    obtain ⟨r, hr, hrow, -⟩ :=
      matches_iff h.toRefinesRules (chosen_lt h.grouped.tails hbest) flow
    rw [htcam]
    simp only [posOf, if_neg (not_lt.mpr (Int.natCast_nonneg p)), Option.bind_some, hr,
      Option.elim_some, Int.toNat_natCast, Bool.false_eq_true, if_false, List.nil_append, ← hrow]
    rfl

end Applying

/-- For every frame given back the action of the best rule for it is put out, or that there is
none, if the cache does not have an entry for it and the rules ask for nothing that it does
not decide. -/
def ActsOnFrames (s : PpRun) (u : ManagedRun) : Prop :=
  ∀ k f, k < s.returned.length → s.loaded[k]? = some f → 27 ≤ f.length →
    (∀ r ∈ u.rules, SelectsDecided f r.mask) →
    ∃ mf : Block mtchFldLen, s.returned[k]? = some (f, mf.toList) ∧
      (searchCache u.tcam u.cache mf = some (-1, u.tcam) → ∀ actionSet maskPos val, ∃ found,
        applyActionOutput u.tcam u.cache mf actionSet maskPos val =
          some (returnedBest u.rules (frameFlow f), found, shownBest u.rules (frameFlow f)))

theorem actsOnFrames_of {s : PpRun} {u : ManagedRun} {n m : ℕ} (htogether : PairsTogether s)
    (hlaid : FieldsLaid s) (h : Managed u n m) : ActsOnFrames s u := by
  intro k f hk hf hmin hmasks
  obtain ⟨mf, hpair, hbest⟩ := returned_best htogether hlaid hk hf hmin
  refine ⟨mf, hpair, fun hcache actionSet maskPos val => ?_⟩
  obtain ⟨found, hfound⟩ := applies_best h hcache actionSet maskPos val
  rw [returnedBest, shownBest, hbest u.rules hmasks] at hfound
  exact ⟨found, hfound⟩

/-- A run of the pre-processor and a run of the tables: in every state of the one and every
state of the other, `apply_action` does with the frames given back what the rules say. -/
theorem acts_on_frames (fp : List PcapNext) (pp : PreProcessor) (ppCalls : List PpCall)
    (hused : Along ppCall PpWellUsed (startPp fp pp) ppCalls)
    (hroom : ppCalls.countP PpCall.isPrepare ≤ noOfMatchFieldsInTheBuffer) (tcam : TcamUnit)
    (cache : Cache) (calls : List ManagedCall)
    (hmanaged : Along managedCall ManagedUsed (startManaged tcam cache) calls) :
    Throughout ppCall
      (fun s => Throughout managedCall (ActsOnFrames s) (startManaged tcam cache) calls)
      (startPp fp pp) ppCalls := by
  refine (returned_throughout fp pp ppCalls hused hroom).mono fun s hs => ?_
  refine (managed_throughout tcam cache calls hmanaged).mono ?_
  rintro u ⟨n, m, h⟩
  exact actsOnFrames_of hs.1 hs.2 h

/-- A rule on the ingress port, before and after it gets another output port. -/
theorem one_frame_acted_on :
    Throughout ppCall
      (fun s => Throughout managedCall (ActsOnFrames s)
        (startManaged zeroedTcamUnit zeroedCache)
        [.table (.add (firstByte 255) (entryFor 1 7) (firstByte 1) (firstByte 0)),
         .modify (firstByte 1) (Block.ofFn fun i => if i = 1 then 8 else 0)
          (firstByte 9 : Block 1) (firstByte 0)])
      (startPp [.packet (segment [8, 0])] zeroedPreProcessor)
      [.load (Block.ofFn fun _ => 1) (Block.ofFn fun _ => 2),
       .prepare (Block.ofFn fun _ => 0) (Block.ofFn fun _ => 0),
       .giveBack 45 100 (Block.ofFn fun _ => 0) (Block.ofFn fun _ => 0)] :=
  acts_on_frames _ _ _ (by decide +kernel) (by decide) _ _ _ (by decide +kernel)

end NetWalk.FrameActions
