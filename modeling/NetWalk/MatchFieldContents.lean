import NetWalk.MatchFieldLayout

/-!
# What a match field tells about its frame

`prepare_match_field` is given a frame that stands at the reading head, and two
blocks with whatever was in them. Where the match-field buffer has room, exactly
the 45 bytes laid out are enqueued. The link fields of the frame arrive in the
match field, whatever the ether type. The fields of the upper layers never all
do, since those that the frame does not carry arrive as ones. And the last four
bits of the match field are those of the block.
-/
namespace NetWalk.MatchFieldContents
open ByteBlock BitOperations PacketByteRing PacketFrames MatchFieldRing PreProcessing
open MatchFieldLayout

/-- Bit `b` of a frame. -/
def frameBit (f : List UInt8) (b : ℕ) : Bool := byteBit (f[b / 8]?.getD 0) (7 - b % 8)

/-- `laid` is what `prepare_match_field` lays out. -/
def LaysOut (pp : PreProcessor) (matchField : Block mtchFldLen) (pkt : Block maxPacketSize)
    (laid : Block mtchFldLen) : Prop :=
  ∃ pb' pkt', readAPacketForPreprocessing pp.pb pkt = some (pb', pkt') ∧
    layMatchField pkt' matchField = some laid

/-- The buffer has been given the bytes of `laid`, behind those that it held. -/
structure TakesIn (mfb mfb' : MatchFieldBuffer) (laid : Block mtchFldLen) : Prop where
  head : mfb'.matchFieldBufferHead = mfb.matchFieldBufferHead
  tail : mfb'.matchFieldBufferTail = mfb.matchFieldBufferTail + mtchFldLen
  inside : mfb'.matchFieldBufferTail ≤ matchFieldArraySize
  held : ∀ k, mfb.matchFieldBufferHead ≤ k → k < mfb.matchFieldBufferTail →
    mfb'.matchFieldBufferArray.byte k = mfb.matchFieldBufferArray.byte k
  bytes : ∀ i < mtchFldLen,
    mfb'.matchFieldBufferArray.byte (mfb.matchFieldBufferTail + i) = laid.byte i
  notEmpty : mfb'.bufferEmptyFlag = false

/-- `prepare_match_field` returns, and has enqueued `laid`. -/
def Enqueues (pp : PreProcessor) (matchField : Block mtchFldLen) (pkt : Block maxPacketSize)
    (laid : Block mtchFldLen) : Prop :=
  ∃ pp', prepareMatchField pp matchField pkt = some pp' ∧ TakesIn pp.mf pp'.mf laid

/-- The tail has not left the array, and the cells behind it hold one match field more. -/
def RoomForField (mfb : MatchFieldBuffer) : Prop :=
  ∃ accepted deq, Fills mfb accepted deq ∧ accepted.length + mtchFldLen ≤ matchFieldArraySize

section Enqueuing
variable {pp : PreProcessor} {mfb mfb' : MatchFieldBuffer}
  {matchField laid laid' : Block mtchFldLen} {pkt : Block maxPacketSize}

theorem roomForField_initialized (mfb : MatchFieldBuffer) :
    RoomForField (initializeMatchFieldBuffer mfb) := ⟨[], 0, fills_initialized mfb, by decide⟩

theorem takesIn_of_fills {accepted : List UInt8} {deq : ℕ} (h : Fills mfb accepted deq)
    (h' : Fills mfb' (accepted ++ laid.toList) deq) : TakesIn mfb mfb' laid := by
  have hlength : (accepted ++ laid.toList).length = accepted.length + mtchFldLen := by
    rw [List.length_append, Block.length_toList]
  have htail := h'.tail
  have hinside := h'.inside
  have hheld := h'.held
  rw [hlength] at htail hinside hheld
  refine ⟨by rw [h'.head, h.head], by rw [htail, h.tail], htail.trans_le hinside,
    fun k hk hlt => ?_, fun i hi => ?_, ?_⟩
  · rw [h.head] at hk
    rw [h.tail] at hlt
    have hold := hheld k hk (by omega)
    rw [List.getElem?_append_left hlt, h.held k hk hlt] at hold
    exact (Option.some.inj hold).symm
  · have hnew := hheld (accepted.length + i) (h.deq_le.trans (Nat.le_add_right _ i)) (by omega)
    rw [List.getElem?_append_right (Nat.le_add_right _ i), Nat.add_sub_cancel_left,
      Block.getElem?_toList _ hi] at hnew
    rw [h.tail]
    exact (Option.some.inj hnew).symm
  · have hpos : 0 < mtchFldLen := by decide
    have hle := h.deq_le
    rw [← Bool.not_eq_true, h'.empty, hlength]
    omega

/-- What is laid out is enqueued where there is room for it. -/
theorem enqueues_of_laysOut (hroom : RoomForField pp.mf) (h : LaysOut pp matchField pkt laid) :
    Enqueues pp matchField pkt laid := by
  obtain ⟨pb', pkt', hread, hlay⟩ := h
  obtain ⟨accepted, deq, hfills, hlength⟩ := hroom
  obtain ⟨mf', henq, hfills'⟩ := enqueueMatchField_spec hfills laid hlength
  exact ⟨⟨pb', mf'⟩, bind_some_of hread (bind_some_of hlay (bind_some_of henq rfl)),
    takesIn_of_fills hfills hfills'⟩

/-- What is laid out is determined by the blocks. -/
theorem LaysOut.unique (h : LaysOut pp matchField pkt laid)
    (h' : LaysOut pp matchField pkt laid') : laid = laid' := by
  obtain ⟨pb₁, pkt₁, hread, hlay⟩ := h
  obtain ⟨pb₂, pkt₂, hread', hlay'⟩ := h'
  cases hread.symm.trans hread'
  exact Option.some.inj (hlay.symm.trans hlay')

theorem Enqueues.unique (h : Enqueues pp matchField pkt laid)
    (h' : Enqueues pp matchField pkt laid') : laid = laid' := by
  obtain ⟨pp₁, hprepare, htakes⟩ := h
  obtain ⟨pp₂, hprepare', htakes'⟩ := h'
  cases hprepare.symm.trans hprepare'
  exact Block.ext_byte fun i hi => (htakes.bytes i hi).symm.trans (htakes'.bytes i hi)

/-- Nothing else is enqueued than what has been laid out. -/
theorem Enqueues.laysOut (hroom : RoomForField pp.mf) (h : Enqueues pp matchField pkt laid) :
    LaysOut pp matchField pkt laid := by
  obtain ⟨pp', hprepare, -⟩ := id h
  obtain ⟨⟨pb', pkt'⟩, hread, hprepare⟩ := bind_inv hprepare
  obtain ⟨laid', hlay, -⟩ := bind_inv hprepare
  have hlaid : LaysOut pp matchField pkt laid' := ⟨pb', pkt', hread, hlay⟩
  rwa [h.unique (enqueues_of_laysOut hroom hlaid)]

end Enqueuing

section Reading
variable {pp : PreProcessor} {f : List UInt8}

theorem bit_overwrite {n : ℕ} (pk : Block n) (hn : f.length ≤ n) {b : ℕ} (hb : b < 8 * f.length) :
    bit (pk.overwrite f) b = frameBit f b := by
  have hlt : b / 8 < f.length := by omega
  rw [bit, frameBit, Block.byte_overwrite _ _ (by omega), List.getElem?_eq_getElem hlt]
  rfl

theorem byte_overwrite_getD {n : ℕ} (pk : Block n) (hn : f.length ≤ n) {k : ℕ} {v : UInt8}
    (hk : f[k]? = some v) : (pk.overwrite f).byte k = v := by
  have hlt := (List.getElem?_eq_some_iff.mp hk).1
  rw [Block.byte_overwrite _ _ (by omega), hk]
  rfl

/-- The frame that is due is laid out. -/
theorem laysOut_due (h : FrameDue pp.pb f) (hn : f.length ≤ maxPacketSize)
    (matchField : Block mtchFldLen) (pkt : Block maxPacketSize) :
    ∃ laid, LaysOut pp matchField pkt laid ∧
      Laid (pkt.overwrite f) matchField laid (matchFieldOrigin (etherKind (pkt.overwrite f))) := by
  obtain ⟨pb', hread⟩ := readAPacketForPreprocessing_due h pkt hn
  obtain ⟨laid, hlay, horigin⟩ := layMatchField_laid (pkt.overwrite f) matchField
  exact ⟨laid, ⟨pb', _, hread, hlay⟩, horigin⟩

/-- A packet loaded into an initialised buffer is due, and there is room for its match field. -/
theorem loaded_due (pp : PreProcessor) (pkt : Packet) (hwhole : pkt.caplen = pkt.len)
    (hlen : pkt.len ≤ 243) (ingressPort : Block 4) (metadata : Block 8) (fp : List PcapNext) :
    ∃ pp', loadNextPacketToThePacketBuffer (.packet pkt :: fp) (initializePreprocessor pp)
        ingressPort metadata = some (fp, pp') ∧
      FrameDue pp'.pb (pkt.frame ingressPort metadata) ∧ RoomForField pp'.mf := by
  obtain ⟨pb, henq, hframes⟩ := enqueuePacket_spec (holdsFrames_initialized pp.pb) hwhole hlen
    ingressPort metadata (by
      rw [hwhole]
      exact (show 0 + (pkt.len + 13) ≤ 0 + (243 + 13) by omega).trans_lt (by decide))
  exact ⟨⟨pb, initializeMatchFieldBuffer pp.mf⟩, bind_some_of (bind_some_of henq rfl) rfl,
    frameDue_of_holds hframes rfl, roomForField_initialized pp.mf⟩

end Reading

/-- A TCP segment without data, behind an Ethernet header that ends in `etherType`. -/
def segment (etherType : List UInt8) : Packet where
  len := 12 + etherType.length + 40
  caplen := 12 + etherType.length + 40
  pktData := List.replicate 12 0 ++ etherType ++
    ([69] ++ List.replicate 8 0 ++ [6] ++ List.replicate 30 0)
  captured := by simp only [List.length_append, List.length_replicate]; rfl

/-- Ingress port, metadata, addresses and ether type of the frame, with the
addresses in the other order. -/
structure LinkFields (f : List UInt8) (laid : Block mtchFldLen) : Prop where
  ingressPort : ∀ i < 32, bit laid i = frameBit f (8 * 1 + i)
  metadata : ∀ i < 64, bit laid (32 + i) = frameBit f (8 * 5 + i)
  macSrc : ∀ i < 48, bit laid (96 + i) = frameBit f (8 * 19 + i)
  macDst : ∀ i < 48, bit laid (144 + i) = frameBit f (8 * 13 + i)
  ethTyp : ∀ i < 16, bit laid (192 + i) = frameBit f (8 * 25 + i)

/-- No later write comes below bit 208. -/
theorem matchFieldOrigin_link (kind : EtherKind) {q : ℕ} (hq : q < 208) :
    matchFieldOrigin kind q = linkOrigin q := by
  have htransport : transportOrigin (transportStart kind).1 (transportStart kind).2 q = .kept := by
    rw [transportOrigin, if_pos]
    cases kind <;> simp only [transportStart] <;> omega
  have htag : tagOrigin kind q = .kept := by
    cases kind <;> simp (disch := omega) only [tagOrigin, filled, copied, if_pos, if_neg]
  rw [matchFieldOrigin, htransport, htag]
  rfl

/-- The match field enqueued for a frame has its link fields, whatever its ether type. -/
theorem link_fields_survive {pp : PreProcessor} {f : List UInt8} (h : FrameDue pp.pb f)
    (hmin : 27 ≤ f.length) (hmax : f.length ≤ maxPacketSize) (hroom : RoomForField pp.mf)
    (matchField : Block mtchFldLen) (pkt : Block maxPacketSize) :
    ∃ laid, Enqueues pp matchField pkt laid ∧ LinkFields f laid := by
  obtain ⟨laid, hlaid, horigin⟩ := laysOut_due h hmax matchField pkt
  have hbit : ∀ q b, q < 208 → linkOrigin q = .frame b → b < 216 →
      bit laid q = frameBit f b := by
    intro q b hq hlink hb
    rw [horigin q (hq.trans (by decide)), matchFieldOrigin_link _ hq, hlink]
    exact bit_overwrite pkt hmax (by omega)
  refine ⟨laid, enqueues_of_laysOut hroom hlaid, ?_, ?_, ?_, ?_, ?_⟩ <;> intro i hi <;>
    refine hbit _ _ (by omega) ?_ (by omega) <;>
    simp (disch := omega) only [linkOrigin, if_pos, if_neg, Origin.frame.injEq] <;> omega

/-- A frame of an ether type that is not known. -/
theorem arp_link_fields :
    let zeros : PreProcessor := ⟨zeroedPacketBuffer, zeroedMatchFieldBuffer⟩
    let pkt : Packet := ⟨14, 14, [1, 2, 3, 4, 5, 6, 7, 8, 9, 10, 11, 12, 8, 6], rfl⟩
    ∃ pp, loadNextPacketToThePacketBuffer [.packet pkt] (initializePreprocessor zeros)
        (Block.ofFn fun _ => 1) (Block.ofFn fun _ => 2) = some ([], pp) ∧
      ∃ laid, Enqueues pp (Block.ofFn fun _ => 255) (Block.ofFn fun _ => 255) laid ∧
        LinkFields (pkt.frame (Block.ofFn fun _ => 1) (Block.ofFn fun _ => 2)) laid := by
  intro zeros pkt
  obtain ⟨pp, hload, hdue, hroom⟩ := loaded_due zeros pkt rfl (by decide)
    (Block.ofFn fun _ => 1) (Block.ofFn fun _ => 2) []
  have hlen := frame_length pkt (Block.ofFn fun _ => 1) (Block.ofFn fun _ => 2)
  exact ⟨pp, hload, link_fields_survive hdue hlen.ge (by rw [hlen]; decide) hroom _ _⟩

/-- Where the IPv4 header begins. -/
def headerStart : EtherKind → ℕ
  | .vlan => 8 * 31
  | .mpls => 8 * 31
  | _ => 8 * 27

/-- The fields of the tags and of the upper layers, as the frame has them, and
zeros for a tag that it does not carry. -/
structure HeaderFields (kind : EtherKind) (f : List UInt8) (laid : Block mtchFldLen) : Prop where
  vlanId : ∀ i < 12, bit laid (208 + i) = (decide (kind = .vlan) && frameBit f (220 + i))
  vlanPriority : ∀ i < 3, bit laid (220 + i) = (decide (kind = .vlan) && frameBit f (216 + i))
  mplsLabel : ∀ i < 20, bit laid (223 + i) = (decide (kind = .mpls) && frameBit f (216 + i))
  mplsTrafficCls : ∀ i < 3, bit laid (243 + i) = (decide (kind = .mpls) && frameBit f (236 + i))
  ipv4Src : ∀ i < 32, bit laid (246 + i) = frameBit f (headerStart kind + 8 * 12 + i)
  ipv4Dst : ∀ i < 32, bit laid (278 + i) = frameBit f (headerStart kind + 8 * 16 + i)
  ipv4Protocol : ∀ i < 8, bit laid (310 + i) = frameBit f (headerStart kind + 8 * 9 + i)
  ipv4Tos : ∀ i < 6, bit laid (318 + i) = frameBit f (headerStart kind + 8 * 1 + i)
  tcpSrc : ∀ i < 16, bit laid (324 + i) = frameBit f (headerStart kind + 8 * 20 + i)
  tcpDst : ∀ i < 16, bit laid (340 + i) = frameBit f (headerStart kind + 8 * 22 + i)

/-- The ether type of an untagged IPv4 frame or of one with one tag, and room for
an IPv4 header of 20 bytes and a TCP header. -/
def CompleteFrame (kind : EtherKind) (f : List UInt8) : Prop :=
  match kind with
  | .ipv4 => f[25]? = some 8 ∧ f[26]? = some 0 ∧ 67 ≤ f.length
  | .vlan => f[25]? = some 129 ∧ f[26]? = some 0 ∧ 71 ≤ f.length
  | .mpls => f[25]? = some 136 ∧ f[26]? = some 71 ∧ 71 ≤ f.length
  | .other => False

theorem etherKind_complete {kind : EtherKind} {f : List UInt8} (h : CompleteFrame kind f)
    (hmax : f.length ≤ maxPacketSize) (pkt : Block maxPacketSize) :
    etherKind (pkt.overwrite f) = kind := by
  cases kind with
  | ipv4 =>
    rw [etherKind, byte_overwrite_getD pkt hmax h.1, byte_overwrite_getD pkt hmax h.2.1]
    rfl
  | vlan =>
    rw [etherKind, byte_overwrite_getD pkt hmax h.1, byte_overwrite_getD pkt hmax h.2.1]
    rfl
  | mpls =>
    rw [etherKind, byte_overwrite_getD pkt hmax h.1, byte_overwrite_getD pkt hmax h.2.1]
    rfl
  | other => exact h.elim

/-- A tag field that the frame does not carry is filled with ones. -/
theorem not_headerFields {kind : EtherKind} {f : List UInt8} {pkt : Block maxPacketSize}
    {matchField laid : Block mtchFldLen} (hkind : CompleteFrame kind f)
    (hmax : f.length ≤ maxPacketSize)
    (h : Laid (pkt.overwrite f) matchField laid (matchFieldOrigin (etherKind (pkt.overwrite f)))) :
    ¬ HeaderFields kind f laid := by
  intro hfields
  rw [etherKind_complete hkind hmax pkt] at h
  cases kind with
  | ipv4 =>
    have hone := h 223 (by decide)
    rw [hfields.mplsLabel 0 (by decide)] at hone
    cases hone
  | vlan =>
    have hone := h 223 (by decide)
    rw [hfields.mplsLabel 0 (by decide)] at hone
    cases hone
  | mpls =>
    have hone := h 208 (by decide)
    rw [hfields.vlanId 0 (by decide)] at hone
    cases hone
  | other => exact hkind.elim

theorem header_fields_never {pp : PreProcessor} {f : List UInt8} {kind : EtherKind}
    (h : FrameDue pp.pb f) (hkind : CompleteFrame kind f) (hlen : f.length < maxPacketSize)
    (matchField : Block mtchFldLen) (pkt : Block maxPacketSize) :
    ¬ ∃ laid, LaysOut pp matchField pkt laid ∧ HeaderFields kind f laid := by
  rintro ⟨laid, hlaid, hfields⟩
  obtain ⟨laid', hlaid', horigin⟩ := laysOut_due h hlen.le matchField pkt
  cases hlaid.unique hlaid'
  exact not_headerFields hkind hlen.le horigin hfields

/-- A frame with one VLAN tag. -/
theorem tagged_header_fields :
    let zeros : PreProcessor := ⟨zeroedPacketBuffer, zeroedMatchFieldBuffer⟩
    let pkt := segment [129, 0, 0, 1, 8, 0]
    ∃ pp, loadNextPacketToThePacketBuffer [.packet pkt] (initializePreprocessor zeros)
        (Block.ofFn fun _ => 1) (Block.ofFn fun _ => 2) = some ([], pp) ∧
      ¬ ∃ laid, LaysOut pp (Block.ofFn fun _ => 0) (Block.ofFn fun _ => 0) laid ∧
        HeaderFields .vlan (pkt.frame (Block.ofFn fun _ => 1) (Block.ofFn fun _ => 2)) laid := by
  intro zeros pkt
  obtain ⟨pp, hload, hdue, -⟩ := loaded_due zeros pkt rfl (by decide)
    (Block.ofFn fun _ => 1) (Block.ofFn fun _ => 2) []
  have hlen := frame_length pkt (Block.ofFn fun _ => 1) (Block.ofFn fun _ => 2)
  have hkind : CompleteFrame .vlan
      (pkt.frame (Block.ofFn fun _ => 1) (Block.ofFn fun _ => 2)) :=
    ⟨by decide, by decide, by rw [hlen]; decide⟩
  exact ⟨pp, hload, header_fields_never hdue hkind (by rw [hlen]; decide) _ _⟩

/-- An untagged IPv4 frame: its match field has ones for the VLAN and MPLS fields. -/
theorem untagged_fields_not_zero :
    let zeros : PreProcessor := ⟨zeroedPacketBuffer, zeroedMatchFieldBuffer⟩
    let pkt := segment [8, 0]
    let f := pkt.frame (Block.ofFn fun _ => 1) (Block.ofFn fun _ => 2)
    CompleteFrame .ipv4 f ∧ f.length = 67 ∧
      ∃ pp, loadNextPacketToThePacketBuffer [.packet pkt] (initializePreprocessor zeros)
          (Block.ofFn fun _ => 1) (Block.ofFn fun _ => 2) = some ([], pp) ∧
        ∃ laid, Enqueues pp (Block.ofFn fun _ => 0) (Block.ofFn fun _ => 0) laid ∧
          ¬ HeaderFields .ipv4 f laid := by
  intro zeros pkt f
  obtain ⟨pp, hload, hdue, hroom⟩ := loaded_due zeros pkt rfl (by decide)
    (Block.ofFn fun _ => 1) (Block.ofFn fun _ => 2) []
  have hlen : f.length = 67 := frame_length pkt _ _
  have hmax : f.length ≤ maxPacketSize := by
    rw [hlen]
    decide
  have hkind : CompleteFrame .ipv4 f := ⟨by decide, by decide, hlen.ge⟩
  obtain ⟨laid, hlaid, horigin⟩ := laysOut_due hdue hmax (Block.ofFn fun _ => 0)
    (Block.ofFn fun _ => 0)
  exact ⟨hkind, hlen, pp, hload, laid, enqueues_of_laysOut hroom hlaid,
    not_headerFields hkind hmax horigin⟩

/-- What is laid out does not depend on what `malloc` returned. -/
def FromPacketAlone (pp : PreProcessor) : Prop :=
  ∃ laid, ∀ matchField pkt, LaysOut pp matchField pkt laid

/-- The last four bits are those of the block. -/
theorem matchFieldOrigin_spare (kind : EtherKind) {q : ℕ} (hq : 356 ≤ q) :
    matchFieldOrigin kind q = .kept := by
  have htransport : transportOrigin (transportStart kind).1 (transportStart kind).2 q = .kept := by
    have hstart := (transportStart_le kind).2
    simp (disch := omega) only [transportOrigin, if_neg]
  have htag : tagOrigin kind q = .kept := by
    cases kind <;> simp (disch := omega) only [tagOrigin, filled, copied, if_neg]
  have hlink : linkOrigin q = .kept := by
    simp (disch := omega) only [linkOrigin, if_neg]
  rw [matchFieldOrigin, htransport, htag, hlink]
  rfl

theorem spare_bit_kept {pp : PreProcessor} {f : List UInt8} (h : FrameDue pp.pb f)
    (hmax : f.length ≤ maxPacketSize) {matchField laid : Block mtchFldLen}
    {pkt : Block maxPacketSize} (hlaid : LaysOut pp matchField pkt laid) :
    bit laid 356 = bit matchField 356 := by
  obtain ⟨laid', hlaid', horigin⟩ := laysOut_due h hmax matchField pkt
  cases hlaid.unique hlaid'
  rw [horigin 356 (by decide), matchFieldOrigin_spare _ le_rfl]
  rfl

theorem never_from_packet_alone {pp : PreProcessor} {f : List UInt8} (h : FrameDue pp.pb f)
    (hlen : f.length < maxPacketSize) : ¬ FromPacketAlone pp := by
  rintro ⟨laid, hall⟩
  have hzeros := spare_bit_kept h hlen.le
    (hall (Block.ofFn fun _ => 0) (Block.ofFn fun _ => 0))
  have hones := spare_bit_kept h hlen.le
    (hall (Block.ofFn fun _ => 255) (Block.ofFn fun _ => 0))
  rw [hzeros] at hones
  revert hones
  decide

theorem segment_not_alone :
    let zeros : PreProcessor := ⟨zeroedPacketBuffer, zeroedMatchFieldBuffer⟩
    ∃ pp, loadNextPacketToThePacketBuffer [.packet (segment [8, 0])]
        (initializePreprocessor zeros) (Block.ofFn fun _ => 1) (Block.ofFn fun _ => 2) =
          some ([], pp) ∧
      ¬ FromPacketAlone pp := by
  intro zeros
  obtain ⟨pp, hload, hdue, -⟩ := loaded_due zeros (segment [8, 0]) rfl (by decide)
    (Block.ofFn fun _ => 1) (Block.ofFn fun _ => 2) []
  have hlen := frame_length (segment [8, 0]) (Block.ofFn fun _ => 1) (Block.ofFn fun _ => 2)
  exact ⟨pp, hload, never_from_packet_alone hdue (by rw [hlen]; decide)⟩

/-- The same frame with two contents of the block for the match field. -/
theorem spare_bit_leaks :
    let zeros : PreProcessor := ⟨zeroedPacketBuffer, zeroedMatchFieldBuffer⟩
    ∃ pp laid laid', loadNextPacketToThePacketBuffer [.packet (segment [8, 0])]
        (initializePreprocessor zeros) (Block.ofFn fun _ => 1) (Block.ofFn fun _ => 2) =
          some ([], pp) ∧
      Enqueues pp (Block.ofFn fun _ => 0) (Block.ofFn fun _ => 0) laid ∧
      Enqueues pp (Block.ofFn fun _ => 255) (Block.ofFn fun _ => 0) laid' ∧ laid ≠ laid' := by
  intro zeros
  obtain ⟨pp, hload, hdue, hroom⟩ := loaded_due zeros (segment [8, 0]) rfl (by decide)
    (Block.ofFn fun _ => 1) (Block.ofFn fun _ => 2) []
  have hmax : ((segment [8, 0]).frame (Block.ofFn fun _ => 1)
      (Block.ofFn fun _ => 2)).length ≤ maxPacketSize := by
    rw [frame_length]
    decide
  obtain ⟨laid, hlaid, -⟩ := laysOut_due hdue hmax (Block.ofFn fun _ => 0) (Block.ofFn fun _ => 0)
  obtain ⟨laid', hlaid', -⟩ := laysOut_due hdue hmax (Block.ofFn fun _ => 255)
    (Block.ofFn fun _ => 0)
  refine ⟨pp, laid, laid', hload, enqueues_of_laysOut hroom hlaid,
    enqueues_of_laysOut hroom hlaid', fun heq => ?_⟩
  have hbit := spare_bit_kept hdue hmax hlaid
  rw [heq, spare_bit_kept hdue hmax hlaid'] at hbit
  revert hbit
  decide

end NetWalk.MatchFieldContents
