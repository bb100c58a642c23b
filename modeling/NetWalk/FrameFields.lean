import NetWalk.MatchFieldContents

/-!
# What of a match field its frame decides

Some bits of a prepared match field are left over from the two blocks that `malloc`
returned: the bits that no branch writes, and those that are copied from behind the end of
the frame. All others are decided by the frame alone.
-/
namespace NetWalk.FrameFields
open ByteBlock BitOperations PacketByteRing PacketFrames MatchFieldRing PreProcessing
open MatchFieldLayout MatchFieldContents

/-- The ether type, read from the frame. -/
def frameKind (f : List UInt8) : EtherKind :=
  if f[25]? = some 8 ∧ f[26]? = some 0 then .ipv4
  else if f[25]? = some 129 ∧ f[26]? = some 0 then .vlan
  else if f[25]? = some 136 ∧ f[26]? = some 71 then .mpls
  else .other

/-- A one, or a bit that lies inside the frame. -/
def Origin.Inside (f : List UInt8) : Origin → Prop
  | .frame b => b < 8 * f.length
  | .one => True
  | .kept => False

instance (f : List UInt8) : ∀ origin, Decidable (Origin.Inside f origin)
  | .frame b => inferInstanceAs (Decidable (b < 8 * f.length))
  | .one => inferInstanceAs (Decidable True)
  | .kept => inferInstanceAs (Decidable False)

def FrameDecides (f : List UInt8) (q : ℕ) : Prop :=
  Origin.Inside f (matchFieldOrigin (frameKind f) q)

instance (f : List UInt8) (q : ℕ) : Decidable (FrameDecides f q) :=
  inferInstanceAs (Decidable (Origin.Inside f _))

/-- The match field that the frame alone gives, with zeros for the bits it does not decide. -/
def frameFlow (f : List UInt8) : Block mtchFldLen :=
  pack fun q =>
    match matchFieldOrigin (frameKind f) q with
    | .frame b => frameBit f b
    | .one => true
    | .kept => false

/-- Whatever the two blocks hold, a match field is enqueued, and always with the same bit `q`. -/
def BitFromFrame (pp : PreProcessor) (q : ℕ) : Prop :=
  ∃ x, ∀ matchField pkt, ∃ laid, Enqueues pp matchField pkt laid ∧ bit laid q = x

section Reading
variable {f : List UInt8}

theorem etherKind_overwrite (hmin : 27 ≤ f.length) (hmax : f.length ≤ maxPacketSize)
    (pkt : Block maxPacketSize) : etherKind (pkt.overwrite f) = frameKind f := by
  have hread : ∀ k < f.length, ∀ v : UInt8, f[k]? = some v ↔ (pkt.overwrite f).byte k = v := by
    intro k hk v
    rw [byte_overwrite_getD pkt hmax (List.getElem?_eq_getElem hk), List.getElem?_eq_getElem hk,
      Option.some_inj]
  simp only [etherKind, frameKind, hread 25 (by omega), hread 26 (by omega)]

theorem bit_zeros {n q : ℕ} (hq : q < 8 * n) : bit (Block.ofFn fun _ => 0 : Block n) q = false := by
  rw [bit, Block.byte_ofFn (by omega)]
  exact BitVec.getLsbD_zero

theorem bit_ones {n q : ℕ} (hq : q < 8 * n) : bit (Block.ofFn fun _ => 255 : Block n) q = true := by
  have hp : 7 - q % 8 < 8 := by omega
  rw [bit, Block.byte_ofFn (by omega)]
  exact BitVec.getLsbD_allOnes.trans (decide_eq_true hp)

/-- Bits behind the frame are those of the block. -/
theorem bit_overwrite_behind {n : ℕ} (pk : Block n) {b : ℕ} (hb : 8 * f.length ≤ b)
    (hn : b < 8 * n) : bit (pk.overwrite f) b = bit pk b := by
  rw [bit, bit, Block.byte_overwrite _ _ (by omega), List.getElem?_eq_none (by omega)]
  rfl

theorem over_kept {later before : Origin} (h : later.over before = .kept) :
    later = .kept ∧ before = .kept := by
  cases later with
  | kept => exact ⟨rfl, h⟩
  | frame b => cases h
  | one => cases h

theorem over_frame {later before : Origin} {b : ℕ} (h : later.over before = .frame b) :
    later = .frame b ∨ before = .frame b := by
  cases later with
  | kept => exact .inr h
  | frame b' => exact .inl h
  | one => exact .inl h

/-- No bit is copied from behind byte 56 of the packet. -/
theorem origin_lt {kind : EtherKind} {q b : ℕ} (h : matchFieldOrigin kind q = .frame b) :
    b < 8 * 57 := by
  have hstart := transportStart_le kind
  rcases over_frame h with htransport | h
  · simp only [transportOrigin] at htransport
    split_ifs at htransport <;> injection htransport <;> omega
  · rcases over_frame h with htag | hlink
    · cases kind with
      | other => cases htag
      | _ =>
        simp only [tagOrigin, copied, filled] at htag
        split_ifs at htag <;> injection htag <;> omega
    · simp only [linkOrigin] at hlink
      split_ifs at hlink <;> injection hlink <;> omega

/-- For a known ether type every match field is written. -/
theorem origin_ne_kept {kind : EtherKind} (hkind : kind ≠ .other) {q : ℕ} (hq : q < 356) :
    matchFieldOrigin kind q ≠ .kept := by
  intro h
  obtain ⟨htransport, h⟩ := over_kept h
  obtain ⟨htag, hlink⟩ := over_kept h
  have hstart : (transportStart kind).2 = 246 := by
    cases kind with
    | other => exact absurd rfl hkind
    | _ => rfl
  have hlow : q < 246 := by
    rw [transportOrigin, hstart] at htransport
    split_ifs at htransport
    all_goals omega
  have hhigh : 208 ≤ q := by
    rw [linkOrigin] at hlink
    split_ifs at hlink
    omega
  cases kind with
  | other => exact hkind rfl
  | _ =>
    simp only [tagOrigin, copied, filled] at htag
    split_ifs at htag <;> omega

/-- The bits that the frame decides are those of its own match field. -/
theorem laid_decided {pkt : Block maxPacketSize} {matchField laid : Block mtchFldLen}
    (hmax : f.length ≤ maxPacketSize)
    (h : Laid (pkt.overwrite f) matchField laid (matchFieldOrigin (frameKind f)))
    {q : ℕ} (hq : q < 8 * mtchFldLen) (hdecides : FrameDecides f q) :
    bit laid q = bit (frameFlow f) q := by
  rw [h q hq, frameFlow, bit_pack _ hq]
  rw [FrameDecides] at hdecides
  cases horigin : matchFieldOrigin (frameKind f) q with
  | frame b =>
    rw [horigin] at hdecides
    exact bit_overwrite pkt hmax hdecides
  | one => rfl
  | kept =>
    rw [horigin] at hdecides
    exact hdecides.elim

/-- A frame with complete headers decides all match fields, and not the last four bits. -/
theorem decides_complete {kind : EtherKind} (h : CompleteFrame kind f) (q : ℕ) :
    FrameDecides f q ↔ q < 356 := by
  have hcomplete : frameKind f ≠ .other ∧ 67 ≤ f.length := by
    cases kind with
    | ipv4 =>
      rw [frameKind, h.1, h.2.1]
      exact ⟨by decide, h.2.2⟩
    | vlan =>
      rw [frameKind, h.1, h.2.1]
      exact ⟨by decide, (show 67 ≤ 71 by decide).trans h.2.2⟩
    | mpls =>
      rw [frameKind, h.1, h.2.1]
      exact ⟨by decide, (show 67 ≤ 71 by decide).trans h.2.2⟩
    | other => exact h.elim
  obtain ⟨hknown, hlen⟩ := hcomplete
  constructor
  · intro hdecides
    by_contra hspare
    rw [FrameDecides, matchFieldOrigin_spare _ (not_lt.mp hspare)] at hdecides
    exact hdecides
  · intro hq
    rw [FrameDecides]
    cases horigin : matchFieldOrigin (frameKind f) q with
    | frame b =>
      change b < 8 * f.length
      have := origin_lt horigin
      omega
    | one => trivial
    | kept => exact origin_ne_kept hknown hq horigin

end Reading

section Enqueuing
variable {pp : PreProcessor} {f : List UInt8} {matchField laid : Block mtchFldLen}
  {pkt : Block maxPacketSize}

/-- What is enqueued for the frame due is laid out for it. -/
theorem enqueued_laid (h : FrameDue pp.pb f) (hroom : RoomForField pp.mf) (hmin : 27 ≤ f.length)
    (hmax : f.length ≤ maxPacketSize) (henq : Enqueues pp matchField pkt laid) :
    Laid (pkt.overwrite f) matchField laid (matchFieldOrigin (frameKind f)) := by
  obtain ⟨laid', hlaid', horigin⟩ := laysOut_due h hmax matchField pkt
  cases (henq.laysOut hroom).unique hlaid'
  rwa [etherKind_overwrite hmin hmax] at horigin

/-- Two contents of both blocks, all zeros and all ones, show which bits are left over. -/
theorem decides_of_fromFrame (h : FrameDue pp.pb f) (hroom : RoomForField pp.mf)
    (hmin : 27 ≤ f.length) (hmax : f.length ≤ maxPacketSize) {q : ℕ} (hq : q < 8 * mtchFldLen)
    (hsame : BitFromFrame pp q) : FrameDecides f q := by
  obtain ⟨x, hall⟩ := hsame
  obtain ⟨laid₀, henq₀, hbit₀⟩ := hall (Block.ofFn fun _ => 0) (Block.ofFn fun _ => 0)
  obtain ⟨laid₁, henq₁, hbit₁⟩ := hall (Block.ofFn fun _ => 255) (Block.ofFn fun _ => 255)
  have hbit := hbit₀.trans hbit₁.symm
  rw [enqueued_laid h hroom hmin hmax henq₀ q hq,
    enqueued_laid h hroom hmin hmax henq₁ q hq] at hbit
  rw [FrameDecides]
  cases horigin : matchFieldOrigin (frameKind f) q with
  | frame b =>
    rw [horigin] at hbit
    change b < 8 * f.length
    by_contra hout
    have hb : b < 8 * maxPacketSize := (origin_lt horigin).trans (by decide)
    simp only [Origin.bitOf] at hbit
    rw [bit_overwrite_behind _ (not_lt.mp hout) hb, bit_overwrite_behind _ (not_lt.mp hout) hb,
      bit_zeros hb, bit_ones hb] at hbit
    cases hbit
  | one => trivial
  | kept =>
    rw [horigin] at hbit
    simp only [Origin.bitOf] at hbit
    rw [bit_zeros hq, bit_ones hq] at hbit
    cases hbit

end Enqueuing

/-- A bit of the match field is decided by the frame if it is written, and not from behind
the end of the frame; the others are as the blocks were. -/
theorem bit_from_frame_iff {pp : PreProcessor} {f : List UInt8} (h : FrameDue pp.pb f)
    (hroom : RoomForField pp.mf) (hmin : 27 ≤ f.length) (hmax : f.length ≤ maxPacketSize) {q : ℕ}
    (hq : q < 8 * mtchFldLen) : BitFromFrame pp q ↔ FrameDecides f q := by
  refine ⟨decides_of_fromFrame h hroom hmin hmax hq, fun hdecides => ?_⟩
  refine ⟨bit (frameFlow f) q, fun matchField pkt => ?_⟩
  obtain ⟨laid, hlaid, horigin⟩ := laysOut_due h hmax matchField pkt
  rw [etherKind_overwrite hmin hmax] at horigin
  exact ⟨laid, enqueues_of_laysOut hroom hlaid, laid_decided hmax horigin hq hdecides⟩

/-- The last bit of the ports and the first spare one of a TCP segment. -/
theorem segment_bits :
    let zeros : PreProcessor := ⟨zeroedPacketBuffer, zeroedMatchFieldBuffer⟩
    ∃ pp, loadNextPacketToThePacketBuffer [.packet (segment [8, 0])]
        (initializePreprocessor zeros) (Block.ofFn fun _ => 1) (Block.ofFn fun _ => 2) =
          some ([], pp) ∧ BitFromFrame pp 355 ∧ ¬ BitFromFrame pp 356 := by
  intro zeros
  obtain ⟨pp, hload, hdue, hroom⟩ := loaded_due zeros (segment [8, 0]) rfl (by decide)
    (Block.ofFn fun _ => 1) (Block.ofFn fun _ => 2) []
  have hlen : ((segment [8, 0]).frame (Block.ofFn fun _ => 1) (Block.ofFn fun _ => 2)).length =
      67 := frame_length _ _ _
  have hmin := (show 27 ≤ 67 by decide).trans_eq hlen.symm
  have hmax := hlen.trans_le (show 67 ≤ maxPacketSize by decide)
  have hkind : CompleteFrame .ipv4
      ((segment [8, 0]).frame (Block.ofFn fun _ => 1) (Block.ofFn fun _ => 2)) :=
    ⟨by decide, by decide, hlen.ge⟩
  have hdecides := decides_complete hkind
  refine ⟨pp, hload, (bit_from_frame_iff hdue hroom hmin hmax (by decide)).mpr ?_, fun hbit => ?_⟩
  · exact (hdecides 355).mpr (by decide)
  · have h356 := (bit_from_frame_iff hdue hroom hmin hmax (by decide)).mp hbit
    exact absurd ((hdecides 356).mp h356) (Nat.lt_irrefl 356)

end NetWalk.FrameFields
