import NetWalk.MatchFieldLayout
import NetWalk.PartialRun

/-!
# Frames and match fields in lockstep

A run loads frames from a capture, prepares a match field for each, and returns
both. The record keeps the frames loaded, the match field that each prepare call
had to compute from the frame whose turn it was, and the pairs returned. Pairs
stay together for as long as the match-field array lasts: the packet ring wraps
without harm, the match-field ring never gets round its array.
-/
namespace NetWalk.PreProcessingRuns
open ByteBlock RingCursor PacketByteRing PacketFrames MatchFieldRing PreProcessing PartialRun
open MatchFieldLayout

inductive PpCall where
  | load (ingressPort : Block 4) (metadata : Block 8)
  | prepare (matchField : Block mtchFldLen) (pkt : Block maxPacketSize)
  | giveBack (m n : ℕ) (returnMtchFld : Block m) (returnPacket : Block n)

structure PpRun where
  fp : List PcapNext
  pp : PreProcessor
  loaded : List (List UInt8)
  prepared : List (Option (Block mtchFldLen))
  returned : List (List UInt8 × List UInt8)

def startPp (fp : List PcapNext) (pp : PreProcessor) : PpRun :=
  ⟨fp, initializePreprocessor pp, [], [], []⟩

def PpRun.heldBytes (s : PpRun) : ℕ := (s.loaded.drop s.returned.length).flatten.length

def ppCall (s : PpRun) : PpCall → Option PpRun
  | .load ingressPort metadata => do
      let (fp, pp) ← loadNextPacketToThePacketBuffer s.fp s.pp ingressPort metadata
      some { s with
        fp := fp
        pp := pp
        loaded := s.loaded ++
          ((nextCaptured s.fp).map fun pkt => pkt.frame ingressPort metadata).toList }
  | .prepare matchField pkt => do
      let pp ← prepareMatchField s.pp matchField pkt
      -- what the layout gives for the frame whose turn it is
      let expected := s.loaded[s.prepared.length]?.bind fun f =>
        layMatchField (pkt.overwrite f) matchField
      some { s with pp := pp, prepared := s.prepared ++ [expected] }
  | .giveBack _ _ returnMtchFld returnPacket => do
      let (pp, mf, pk) ← returnMatchFieldAndPacket s.pp returnMtchFld returnPacket
      some { s with
        pp := pp
        returned := s.returned ++ [(received pk, mf.toList.take mtchFldLen)] }

def PpWellUsed (s : PpRun) : PpCall → Prop
  | .load _ _ => ∀ pkt ∈ nextCaptured s.fp, pkt.caplen = pkt.len ∧ pkt.len ≤ 87 ∧
      s.heldBytes + (pkt.caplen + 13) < packetBufferLen
  | .prepare _ _ => s.prepared.length < s.loaded.length
  | .giveBack m n _ _ => s.returned.length < s.prepared.length ∧ mtchFldLen ≤ m ∧
      ∀ f ∈ s.loaded[s.returned.length]?, f.length ≤ n

instance : ∀ s c, Decidable (PpWellUsed s c)
  | s, .load _ _ => inferInstanceAs (Decidable (∀ pkt ∈ nextCaptured s.fp,
      pkt.caplen = pkt.len ∧ pkt.len ≤ 87 ∧
      s.heldBytes + (pkt.caplen + 13) < packetBufferLen))
  | s, .prepare _ _ => inferInstanceAs (Decidable (s.prepared.length < s.loaded.length))
  | s, .giveBack m n _ _ => inferInstanceAs (Decidable (s.returned.length < s.prepared.length ∧
      mtchFldLen ≤ m ∧ ∀ f ∈ s.loaded[s.returned.length]?, f.length ≤ n))

/-- The `k`-th pair returned is the `k`-th frame loaded and the match field
prepared from it. -/
def PairsTogether (s : PpRun) : Prop :=
  ∀ k < s.returned.length, ∃ f mf, s.loaded[k]? = some f ∧
    s.prepared[k]? = some (some mf) ∧ s.returned[k]? = some (f, mf.toList)

structure Paired (s : PpRun) (mfs : List (Block mtchFldLen)) : Prop where
  frames : HoldsFrames s.pp.pb s.loaded s.prepared.length s.returned.length
  fits : ∀ f ∈ s.loaded, f.length ≤ maxPacketSize
  prepared : s.prepared = mfs.map some
  fields : Fills s.pp.mf (mfs.map Block.toList).flatten (mtchFldLen * s.returned.length)
  together : PairsTogether s

theorem length_flatten_fields (mfs : List (Block mtchFldLen)) :
    (mfs.map Block.toList).flatten.length = mtchFldLen * mfs.length := by
  induction mfs with
  | nil => rfl
  | cons mf mfs ih =>
    simp only [List.map_cons, List.flatten_cons, List.length_append, Block.length_toList, ih,
      List.length_cons, Nat.mul_succ]
    omega

theorem drop_flatten_fields (mfs : List (Block mtchFldLen)) {k : ℕ} {mf : Block mtchFldLen}
    (h : mfs[k]? = some mf) :
    ((mfs.map Block.toList).flatten.drop (mtchFldLen * k)).take mtchFldLen = mf.toList := by
  have htake : (mfs.map Block.toList).take k = (mfs.take k).map Block.toList :=
    (List.map_take ..).symm
  have hlen : ((mfs.map Block.toList).take k).flatten.length = mtchFldLen * k := by
    rw [htake, length_flatten_fields, List.length_take]
    have := (List.getElem?_eq_some_iff.mp h).1
    rw [Nat.min_eq_left (by omega)]
  have hk : (mfs.map Block.toList)[k]? = some mf.toList := by
    rw [List.getElem?_map, h]
    rfl
  apply List.ext_getElem?
  intro j
  by_cases hj : j < mtchFldLen
  · rw [List.getElem?_take_of_lt hj, List.getElem?_drop, ← hlen,
      getElem?_flatten_offset hk (by simpa using hj)]
  · rw [List.getElem?_eq_none (by simp; omega), List.getElem?_eq_none (by simp; omega)]

theorem loadNext_spec {pb : PacketBuffer} {frames : List (List UInt8)} {pre ret : ℕ}
    (h : HoldsFrames pb frames pre ret) (ingressPort : Block 4) (metadata : Block 8)
    (fp : List PcapNext)
    (hnext : ∀ pkt ∈ nextCaptured fp, pkt.caplen = pkt.len ∧ pkt.len ≤ 243 ∧
      frames.flatten.length + (pkt.caplen + 13) <
        (frames.take ret).flatten.length + packetBufferLen) :
    ∃ fp' pb', loadNextPacketToTheBuffer pb ingressPort metadata fp = some (fp', pb') ∧
      HoldsFrames pb' (frames ++ ((nextCaptured fp).map fun pkt =>
        pkt.frame ingressPort metadata).toList) pre ret := by
  induction fp with
  | nil => exact ⟨[], pb, rfl, by simpa [nextCaptured] using h⟩
  | cons r fp ih =>
    cases r with
    | stop => exact ⟨fp, pb, rfl, by simpa [nextCaptured] using h⟩
    | timeout => exact ih hnext
    | packet pkt =>
      obtain ⟨hwhole, hlen, hfree⟩ := hnext pkt rfl
      obtain ⟨pb', hload, hpb'⟩ :=
        enqueuePacket_spec h hwhole hlen ingressPort metadata hfree
      exact ⟨fp, pb', bind_some_of hload rfl, by simpa [nextCaptured] using hpb'⟩

def PpCall.isPrepare : PpCall → Bool
  | .prepare _ _ => true
  | _ => false

theorem paired_start (fp : List PcapNext) (pp : PreProcessor) : Paired (startPp fp pp) [] where
  frames := holdsFrames_initialized pp.pb
  fits := by simp [startPp]
  prepared := rfl
  fields := fills_initialized pp.mf
  together := by simp [PairsTogether, startPp]

theorem getElem?_of_prefix {α : Type} {xs ys : List α} (h : xs <+: ys) {k : ℕ} {x : α}
    (hx : xs[k]? = some x) : ys[k]? = some x := by
  obtain ⟨rest, rfl⟩ := h
  rw [List.getElem?_append_left (List.getElem?_eq_some_iff.mp hx).1, hx]

section Inversion
variable {s s' : PpRun}

/-- What each call that returns has done. -/
theorem ppCall_load_inv {ingressPort : Block 4} {metadata : Block 8}
    (h : ppCall s (.load ingressPort metadata) = some s') :
    ∃ fp pb, loadNextPacketToTheBuffer s.pp.pb ingressPort metadata s.fp = some (fp, pb) ∧
      s' = { s with
        fp := fp
        pp := { s.pp with pb := pb }
        loaded := s.loaded ++
          ((nextCaptured s.fp).map fun pkt => pkt.frame ingressPort metadata).toList } := by
  obtain ⟨⟨fp, pp⟩, hload, h⟩ := bind_inv h
  obtain ⟨⟨fp, pb⟩, hnext, hload⟩ := bind_inv hload
  cases hload
  cases h
  exact ⟨fp, pb, hnext, rfl⟩

theorem ppCall_prepare_inv {matchField : Block mtchFldLen} {pkt : Block maxPacketSize}
    (h : ppCall s (.prepare matchField pkt) = some s') :
    ∃ pb pkt' laid mfb expected, readAPacketForPreprocessing s.pp.pb pkt = some (pb, pkt') ∧
      enqueueMatchField s.pp.mf laid = some mfb ∧
      (s.loaded.length ≤ s.prepared.length → expected = none) ∧
      s' = { s with pp := ⟨pb, mfb⟩, prepared := s.prepared ++ [expected] } := by
  obtain ⟨pp, hprepare, h⟩ := bind_inv h
  obtain ⟨⟨pb, pkt'⟩, hread, hprepare⟩ := bind_inv hprepare
  obtain ⟨laid, -, hprepare⟩ := bind_inv hprepare
  obtain ⟨mfb, henq, hprepare⟩ := bind_inv hprepare
  cases hprepare
  cases h
  refine ⟨pb, pkt', laid, mfb, _, hread, henq, fun hidle => ?_, rfl⟩
  rw [List.getElem?_eq_none hidle]
  rfl

theorem ppCall_giveBack_inv {m n : ℕ} {returnMtchFld : Block m} {returnPacket : Block n}
    (h : ppCall s (.giveBack m n returnMtchFld returnPacket) = some s') :
    ∃ mfb mf pb pk, readAMatchField s.pp.mf returnMtchFld = some (mfb, mf) ∧
      readAPacket s.pp.pb returnPacket = some (pb, pk) ∧
      s' = { s with
        pp := ⟨pb, mfb⟩
        returned := s.returned ++ [(received pk, mf.toList.take mtchFldLen)] } := by
  obtain ⟨⟨pp, mf, pk⟩, hgive, h⟩ := bind_inv h
  obtain ⟨⟨mfb, mf₁⟩, hreadMf, hgive⟩ := bind_inv hgive
  obtain ⟨⟨pb, pk₁⟩, hread, hgive⟩ := bind_inv hgive
  cases hgive
  cases h
  exact ⟨mfb, mf, pb, pk, hreadMf, hread, rfl⟩

end Inversion

section Calls
variable {s : PpRun} {mfs : List (Block mtchFldLen)}

theorem Paired.length_prepared (h : Paired s mfs) : s.prepared.length = mfs.length := by
  rw [h.prepared, List.length_map]

theorem PairsTogether.mono {s' : PpRun} (h : PairsTogether s) (hret : s'.returned = s.returned)
    (hload : s.loaded <+: s'.loaded) (hprep : s.prepared <+: s'.prepared) :
    PairsTogether s' := by
  intro k hk
  rw [hret] at hk ⊢
  obtain ⟨f, mf, hf, hmf, hpair⟩ := h k hk
  exact ⟨f, mf, getElem?_of_prefix hload hf, getElem?_of_prefix hprep hmf, hpair⟩

theorem ppCall_load (h : Paired s mfs) {ingressPort : Block 4} {metadata : Block 8}
    (hc : PpWellUsed s (.load ingressPort metadata)) :
    ∃ s', ppCall s (.load ingressPort metadata) = some s' ∧ Paired s' mfs := by
  have hheld : (s.loaded.take s.returned.length).flatten.length + s.heldBytes =
      s.loaded.flatten.length := by
    rw [PpRun.heldBytes, ← List.length_append, ← List.flatten_append, List.take_append_drop]
  obtain ⟨fp', pb', hload, hpb'⟩ := loadNext_spec h.frames ingressPort metadata s.fp
    fun pkt hpkt => by
      obtain ⟨hwhole, hlen, hfree⟩ := hc pkt hpkt
      exact ⟨hwhole, by omega, by omega⟩
  refine ⟨⟨fp', { s.pp with pb := pb' }, _, s.prepared, s.returned⟩,
    by simp [ppCall, loadNextPacketToThePacketBuffer, hload], hpb', ?_, h.prepared, h.fields,
    h.together.mono rfl (List.prefix_append _ _) List.prefix_rfl⟩
  intro f hf
  rcases List.mem_append.mp hf with hf | hf
  · exact h.fits f hf
  · obtain ⟨pkt, hpkt, rfl⟩ : ∃ pkt ∈ nextCaptured s.fp, pkt.frame ingressPort metadata = f := by
      simpa using hf
    obtain ⟨hwhole, hlen, -⟩ := hc pkt hpkt
    rw [frame_length, maxPacketSize]
    omega

theorem ppCall_prepare (h : Paired s mfs) (hroom : mfs.length < noOfMatchFieldsInTheBuffer)
    {matchField : Block mtchFldLen} {pkt : Block maxPacketSize}
    (hc : PpWellUsed s (.prepare matchField pkt)) :
    ∃ s' mf, ppCall s (.prepare matchField pkt) = some s' ∧ Paired s' (mfs ++ [mf]) := by
  have hlt : s.prepared.length < s.loaded.length := hc
  have hf := List.getElem?_eq_getElem hlt
  obtain ⟨pb', hread, hpb'⟩ := readAPacketForPreprocessing_spec h.frames pkt hf
    (h.fits _ (List.getElem_mem hlt))
  obtain ⟨mf, hlay, -⟩ := layMatchField_laid
    (pkt.overwrite s.loaded[s.prepared.length]) matchField
  obtain ⟨mfb', henq, hmfb'⟩ := enqueueMatchField_spec h.fields mf (by
    rw [length_flatten_fields, matchFieldArraySize, ← Nat.mul_succ]
    exact Nat.mul_le_mul_left _ hroom)
  refine ⟨⟨s.fp, ⟨pb', mfb'⟩, s.loaded, s.prepared ++ [some mf], s.returned⟩, mf,
    by simp [ppCall, prepareMatchField, hread, hlay, henq, hf], by simpa using hpb', h.fits,
    by simp [h.prepared], by simpa using hmfb',
    h.together.mono rfl List.prefix_rfl (List.prefix_append _ _)⟩

/-- The match field after the last one that the array has room for. -/
theorem ppCall_prepare_overrun (h : Paired s mfs)
    (hfull : mfs.length = noOfMatchFieldsInTheBuffer)
    {matchField : Block mtchFldLen} {pkt : Block maxPacketSize}
    (hc : PpWellUsed s (.prepare matchField pkt)) :
    ppCall s (.prepare matchField pkt) = none := by
  have hlt : s.prepared.length < s.loaded.length := hc
  obtain ⟨pb', hread, -⟩ := readAPacketForPreprocessing_spec h.frames pkt
    (List.getElem?_eq_getElem hlt) (h.fits _ (List.getElem_mem hlt))
  obtain ⟨mf, hlay, -⟩ := layMatchField_laid
    (pkt.overwrite s.loaded[s.prepared.length]) matchField
  have henq := enqueueMatchField_overrun h.fields mf (by
    rw [length_flatten_fields, hfull, matchFieldArraySize])
  simp [ppCall, prepareMatchField, hread, hlay, henq]

theorem ppCall_giveBack (h : Paired s mfs) {m n : ℕ} {returnMtchFld : Block m}
    {returnPacket : Block n} (hc : PpWellUsed s (.giveBack m n returnMtchFld returnPacket)) :
    ∃ s', ppCall s (.giveBack m n returnMtchFld returnPacket) = some s' ∧ Paired s' mfs := by
  obtain ⟨hlt, hm, hfit⟩ := hc
  have hret : s.returned.length < s.loaded.length := hlt.trans_le h.frames.pre_le
  have hlt' : s.returned.length < mfs.length := h.length_prepared ▸ hlt
  have hf := List.getElem?_eq_getElem hret
  have hmf := List.getElem?_eq_getElem hlt'
  have hn := hfit _ hf
  have hend : mtchFldLen * s.returned.length + mtchFldLen ≤
      (mfs.map Block.toList).flatten.length := by
    rw [length_flatten_fields, ← Nat.mul_succ]
    exact Nat.mul_le_mul_left _ hlt'
  obtain ⟨mfb', hreadMf, hmfb'⟩ := readAMatchField_spec h.fields hend returnMtchFld hm
  obtain ⟨pb', hread, hpb'⟩ := readAPacket_spec h.frames hlt returnPacket hf hn
  rw [drop_flatten_fields mfs hmf] at hreadMf
  have hout := received_overwrite returnPacket
    (h.frames.delimited _ (List.getElem_mem hret)) hn
  have houtMf := Block.take_overwrite returnMtchFld
    (l := mfs[s.returned.length].toList) (by simpa using hm)
  rw [Block.length_toList] at houtMf
  refine ⟨⟨s.fp, ⟨pb', mfb'⟩, s.loaded, s.prepared, s.returned ++
      [(s.loaded[s.returned.length], mfs[s.returned.length].toList)]⟩,
    by simp [ppCall, returnMatchFieldAndPacket, hreadMf, hread, hout, houtMf],
    by simpa using hpb', h.fits, h.prepared, by simpa [Nat.mul_succ] using hmfb', ?_⟩
  intro k hk
  simp only [List.length_append, List.length_singleton] at hk
  rcases Nat.lt_or_ge k s.returned.length with hold | hnew
  · obtain ⟨f, mf, hf, hmf, hpair⟩ := h.together k hold
    exact ⟨f, mf, hf, hmf, by rw [List.getElem?_append_left hold, hpair]⟩
  · obtain rfl : k = s.returned.length := by omega
    exact ⟨s.loaded[s.returned.length], mfs[s.returned.length], hf,
      by simp [h.prepared, hmf], by simp⟩

/-- A call that is not a prepare leaves the match fields prepared as they are. -/
theorem ppCall_other (h : Paired s mfs) {c : PpCall} (hc : PpWellUsed s c)
    (hother : c.isPrepare = false) : ∃ s', ppCall s c = some s' ∧ Paired s' mfs := by
  cases c with
  | load ingressPort metadata => exact ppCall_load h hc
  | prepare matchField pkt => cases hother
  | giveBack m n returnMtchFld returnPacket => exact ppCall_giveBack h hc

end Calls

/-- As long as the array has room for every match field of the run, pairs stay
together. -/
theorem together_of_prepares_le {s : PpRun} {mfs : List (Block mtchFldLen)} (h : Paired s mfs)
    (calls : List PpCall) (hused : Along ppCall PpWellUsed s calls)
    (hroom : mfs.length + calls.countP PpCall.isPrepare ≤ noOfMatchFieldsInTheBuffer) :
    Throughout ppCall PairsTogether s calls := by
  induction calls generalizing s mfs with
  | nil => exact (throughout_nil s).mpr h.together
  | cons c calls ih =>
    obtain ⟨hc, hrest⟩ := hused
    obtain ⟨s', mfs', hs', ht', hcount⟩ : ∃ s' mfs', ppCall s c = some s' ∧ Paired s' mfs' ∧
        mfs'.length + calls.countP PpCall.isPrepare ≤ noOfMatchFieldsInTheBuffer := by
      rw [List.countP_cons] at hroom
      cases hkind : c.isPrepare with
      | false =>
        rw [hkind, if_neg Bool.false_ne_true] at hroom
        obtain ⟨s', hs', ht'⟩ := ppCall_other h hc hkind
        exact ⟨s', mfs, hs', ht', by omega⟩
      | true =>
        rw [hkind, if_pos rfl] at hroom
        cases c with
        | prepare matchField pkt =>
          obtain ⟨s', mf, hs', ht'⟩ := ppCall_prepare h (by omega) hc
          exact ⟨s', mfs ++ [mf], hs', ht', by simp; omega⟩
        | _ => cases hkind
    exact (throughout_cons s c calls).mpr
      ⟨h.together, s', hs', ih ht' (hrest s' hs') hcount⟩

/-- One prepare more than the array has room for, and some step leaves the
array. -/
theorem not_together_of_prepares_gt {s : PpRun} {mfs : List (Block mtchFldLen)}
    (h : Paired s mfs) (hle : mfs.length ≤ noOfMatchFieldsInTheBuffer) (calls : List PpCall)
    (hused : Along ppCall PpWellUsed s calls)
    (hmany : noOfMatchFieldsInTheBuffer < mfs.length + calls.countP PpCall.isPrepare) :
    ¬ Throughout ppCall PairsTogether s calls := by
  induction calls generalizing s mfs with
  | nil =>
    simp only [List.countP_nil] at hmany
    omega
  | cons c calls ih =>
    obtain ⟨hc, hused'⟩ := hused
    rw [throughout_cons]
    rintro ⟨-, s', hs', hrest⟩
    rw [List.countP_cons] at hmany
    cases hkind : c.isPrepare with
    | false =>
      rw [hkind, if_neg Bool.false_ne_true] at hmany
      obtain ⟨t, ht, hpaired⟩ := ppCall_other h hc hkind
      cases hs'.symm.trans ht
      exact ih hpaired hle (hused' s' hs') hmany hrest
    | true =>
      rw [hkind, if_pos rfl] at hmany
      cases c with
      | prepare matchField pkt =>
        rcases Nat.lt_or_ge mfs.length noOfMatchFieldsInTheBuffer with hlt | hge
        · obtain ⟨t, mf, ht, hpaired⟩ := ppCall_prepare h hlt hc
          cases hs'.symm.trans ht
          exact ih hpaired (by simpa [Nat.succ_le_iff] using hlt) (hused' s' hs')
            (by simp; omega) hrest
        · rw [ppCall_prepare_overrun h (le_antisymm hle hge) hc] at hs'
          cases hs'
      | _ => cases hkind

theorem pairs_together_iff (fp : List PcapNext) (pp : PreProcessor) (calls : List PpCall)
    (hused : Along ppCall PpWellUsed (startPp fp pp) calls) :
    Throughout ppCall PairsTogether (startPp fp pp) calls ↔
      calls.countP PpCall.isPrepare ≤ noOfMatchFieldsInTheBuffer := by
  constructor
  · intro h
    by_contra hgt
    exact not_together_of_prepares_gt (paired_start fp pp) (Nat.zero_le _) calls hused
      (by simp only [List.length_nil]; omega) h
  · intro hle
    exact together_of_prepares_le (paired_start fp pp) calls hused
      (by simp only [List.length_nil]; omega)

def zeroedPreProcessor : PreProcessor := ⟨zeroedPacketBuffer, zeroedMatchFieldBuffer⟩

/-- Two packets with data are loaded from two ports and prepared, and then given back. -/
def twoFrames : List PpCall :=
  [.load (Block.ofFn fun _ => 1) (Block.ofFn fun _ => 2),
   .load (Block.ofFn fun _ => 3) (Block.ofFn fun _ => 4),
   .prepare (Block.ofFn fun _ => 255) (Block.ofFn fun _ => 255),
   .prepare (Block.ofFn fun _ => 0) (Block.ofFn fun _ => 0),
   .giveBack 45 100 (Block.ofFn fun _ => 0) (Block.ofFn fun _ => 0),
   .giveBack 45 100 (Block.ofFn fun _ => 9) (Block.ofFn fun _ => 9)]

theorem two_frames_together :
    Throughout ppCall PairsTogether
      (startPp [.packet ⟨3, 3, [10, 11, 12], rfl⟩, .packet ⟨2, 2, [20, 21], rfl⟩]
        zeroedPreProcessor) twoFrames :=
  (pairs_together_iff _ _ _ (by decide +kernel)).mpr (by decide)

/-- Load an empty packet, prepare its match field, and give both back. -/
def oneRound : List PpCall :=
  [.load (Block.ofFn fun _ => 0) (Block.ofFn fun _ => 0),
   .prepare (Block.ofFn fun _ => 0) (Block.ofFn fun _ => 0),
   .giveBack 45 100 (Block.ofFn fun _ => 0) (Block.ofFn fun _ => 0)]

/-- Between two rounds: all frames loaded are prepared and given back, and the capture has
empty packets only. -/
structure BetweenRounds (s : PpRun) (mfs : List (Block mtchFldLen)) (rounds : ℕ) : Prop where
  paired : Paired s mfs
  fields_le : mfs.length ≤ noOfMatchFieldsInTheBuffer
  prepared : s.prepared.length = s.loaded.length
  returned : s.returned.length = s.loaded.length
  fp : s.fp = List.replicate rounds (.packet ⟨0, 0, [], rfl⟩)

section Rounds
variable {s : PpRun} {mfs : List (Block mtchFldLen)} {rounds : ℕ}

/-- No frame is held, so there is room for the next one. -/
theorem BetweenRounds.load (h : BetweenRounds s mfs (rounds + 1)) (ingressPort : Block 4)
    (metadata : Block 8) :
    PpWellUsed s (.load ingressPort metadata) ∧
      ∀ s', ppCall s (.load ingressPort metadata) = some s' → Paired s' mfs ∧
        s'.loaded.length = s.loaded.length + 1 ∧ s'.prepared = s.prepared ∧
        s'.returned = s.returned ∧ s'.fp = List.replicate rounds (.packet ⟨0, 0, [], rfl⟩) := by
  have hfp := h.fp
  rw [List.replicate_succ] at hfp
  have hused : PpWellUsed s (.load ingressPort metadata) := by
    intro pkt hpkt
    rw [hfp] at hpkt
    cases hpkt
    rw [PpRun.heldBytes, h.returned, List.drop_length]
    decide
  refine ⟨hused, fun s' hs' => ?_⟩
  obtain ⟨t, ht, hpaired⟩ := ppCall_load h.paired hused
  cases hs'.symm.trans ht
  obtain ⟨fp, pb, hnext, rfl⟩ := ppCall_load_inv hs'
  rw [hfp] at hnext
  obtain ⟨pb', -, hnext⟩ := bind_inv hnext
  cases hnext
  refine ⟨hpaired, ?_, rfl, rfl, rfl⟩
  rw [List.length_append, hfp]
  rfl

/-- A round is used well, unless its prepare leaves the match-field array. -/
theorem BetweenRounds.along (h : BetweenRounds s mfs (rounds + 1)) {rest : List PpCall}
    (hrest : ∀ s' mfs', BetweenRounds s' mfs' rounds → Along ppCall PpWellUsed s' rest) :
    Along ppCall PpWellUsed s (oneRound ++ rest) := by
  obtain ⟨hload, hnext⟩ := h.load (Block.ofFn fun _ => 0) (Block.ofFn fun _ => 0)
  refine ⟨hload, fun s₁ hs₁ => ?_⟩
  obtain ⟨h₁, hloaded, hprepared, hreturned, hfp⟩ := hnext s₁ hs₁
  have hprepare : s₁.prepared.length < s₁.loaded.length := by
    rw [hprepared, h.prepared, hloaded]
    omega
  refine ⟨hprepare, fun s₂ hs₂ => ?_⟩
  rcases Nat.lt_or_eq_of_le h.fields_le with hroom | hfull
  · obtain ⟨t, mf, ht, h₂⟩ := ppCall_prepare h₁ hroom hprepare
    cases hs₂.symm.trans ht
    obtain ⟨pb, pkt', laid, mfb, expected, -, -, -, hrecord⟩ := ppCall_prepare_inv hs₂
    have hprepared₂ : s₂.prepared.length = s.loaded.length + 1 := by
      rw [hrecord, List.length_append, List.length_singleton, hprepared, h.prepared]
    have hreturned₂ : s₂.returned.length = s.loaded.length := by
      rw [hrecord, hreturned, h.returned]
    have hgiveBack : PpWellUsed s₂ (.giveBack 45 100 (Block.ofFn fun _ => 0)
        (Block.ofFn fun _ => 0)) :=
      ⟨by omega, le_rfl, fun f hf => h₂.fits f (List.mem_of_getElem? hf)⟩
    refine ⟨hgiveBack, fun s₃ hs₃ => ?_⟩
    obtain ⟨t, ht, h₃⟩ := ppCall_giveBack h₂ hgiveBack
    cases hs₃.symm.trans ht
    obtain ⟨mfb', mf', pb', pk, -, -, rfl⟩ := ppCall_giveBack_inv hs₃
    refine hrest _ _ ⟨h₃, ?_, ?_, ?_, ?_⟩
    · rw [List.length_append, List.length_singleton]
      omega
    · rw [hrecord] at hprepared₂ ⊢
      exact hprepared₂.trans hloaded.symm
    · rw [List.length_append, List.length_singleton, hreturned₂, hrecord]
      exact hloaded.symm
    · rw [hrecord]
      exact hfp
  · rw [ppCall_prepare_overrun h₁ hfull hprepare] at hs₂
    cases hs₂

theorem along_rounds (h : BetweenRounds s mfs rounds) :
    Along ppCall PpWellUsed s (List.replicate rounds oneRound).flatten := by
  induction rounds generalizing s mfs with
  | zero => trivial
  | succ rounds ih => exact h.along fun s' mfs' h' => ih h'

end Rounds

/-- At most one frame is ever held, and still the 21st prepare writes outside
the match-field array. -/
theorem pairs_lost_after_twenty :
    let fp := List.replicate 21 (PcapNext.packet ⟨0, 0, [], rfl⟩)
    let calls := (List.replicate 21 oneRound).flatten
    Along ppCall PpWellUsed (startPp fp zeroedPreProcessor) calls ∧
      ¬ Throughout ppCall PairsTogether (startPp fp zeroedPreProcessor) calls := by
  intro fp calls
  have hstart := paired_start fp zeroedPreProcessor
  have hused : Along ppCall PpWellUsed (startPp fp zeroedPreProcessor) calls :=
    along_rounds ⟨hstart, Nat.zero_le _, rfl, rfl, rfl⟩
  exact ⟨hused, not_together_of_prepares_gt hstart (Nat.zero_le _) calls hused (by decide)⟩

end NetWalk.PreProcessingRuns
