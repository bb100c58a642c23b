import NetWalk.PreProcessingRuns

/-!
# Where the readers put a frame

Three readers copy the frame that is due to an array of their own, with the length byte
`L` at index 0 and the `L` bytes that it announces behind it: `L + 1` cells in all.
`prepare_match_field` and `read_and_print_packet` have `MAX_PACKET_SIZE` cells, whatever
`L` is, and `read_a_packet_and_pass_a_pointer` declares an array of `L` cells, so the last
byte of every frame is written behind it.
-/
namespace NetWalk.ReaderBounds
open ByteBlock RingCursor PacketByteRing PacketFrames MatchFieldRing PreProcessing
open PartialRun PreProcessingRuns

/-- `outputPacket` gives what an uninitialised array holds, by its length. Returned is the
local array, or no pointer. -/
def readAPacketAndPassAPointer (pb : PacketBuffer) (outputPacket : (n : ℕ) → Block n) :
    Option (PacketBuffer × Option ((n : ℕ) × Block n)) :=
  if pb.bufferEmptyFlag then some (pb, none)
  else if pb.bufferReadingHead = pb.packetBufferHead then some (pb, none)
  else do
    let (packetLength, pb) ← dqueueFromPacketBuffer pb
    let outputPacket ← (outputPacket packetLength.toNat).write 0 packetLength
    let (pb, outputPacket) ← fill dqueueFromPacketBuffer packetLength.toNat 1 pb outputPacket
    some (pb, some ⟨packetLength.toNat, outputPacket⟩)

/-- The length printed, and the bytes printed behind it; `a` is what `malloc` returned. -/
def readAndPrintPacket (pb : PacketBuffer) (a : Block maxPacketSize) :
    Option (PacketBuffer × UInt8 × List UInt8) := do
  let (pb, a) ← readAPacket pb a
  let length ← a.read 0
  let printed ← a.readSlice 1 length.toNat
  some (pb, length, printed.toList)

inductive Reader where
  | prepareMatchField
  | readAndPrintPacket
  | readAPacketAndPassAPointer
deriving DecidableEq

/-- A frame with length byte `l` stands where the reader begins, and the reader does not
refuse to read. -/
def Due (pb : PacketBuffer) (l : UInt8) : Reader → Prop
  | .prepareMatchField => pb.bufferEmptyFlag = false ∧ pb.bufferReadingHead < packetBufferLen ∧
      pb.packetBuffer.byte pb.bufferReadingHead = l
  | _ => pb.bufferEmptyFlag = false ∧ pb.bufferReadingHead ≠ pb.packetBufferHead ∧
      pb.packetBufferHead < packetBufferLen ∧ pb.packetBuffer.byte pb.packetBufferHead = l

instance (pb : PacketBuffer) (l : UInt8) : ∀ r, Decidable (Due pb l r)
  | .prepareMatchField => inferInstanceAs (Decidable (pb.bufferEmptyFlag = false ∧
      pb.bufferReadingHead < packetBufferLen ∧ pb.packetBuffer.byte pb.bufferReadingHead = l))
  | .readAndPrintPacket | .readAPacketAndPassAPointer =>
    inferInstanceAs (Decidable (pb.bufferEmptyFlag = false ∧
      pb.bufferReadingHead ≠ pb.packetBufferHead ∧ pb.packetBufferHead < packetBufferLen ∧
      pb.packetBuffer.byte pb.packetBufferHead = l))

/-- The match-field buffer takes a whole match field without leaving its array. -/
def TakesAField (mf : MatchFieldBuffer) : Prop :=
  ∀ matchField, ∃ mf', enqueueMatchField mf matchField = some mf'

/-- The reader comes to its end inside its arrays, where `fresh` is what they hold at
first. -/
def StaysInside (pb : PacketBuffer) (fresh : (n : ℕ) → Block n) : Reader → Prop
  | .prepareMatchField => ∀ mf, TakesAField mf →
      ∃ pp, prepareMatchField ⟨pb, mf⟩ (fresh mtchFldLen) (fresh maxPacketSize) = some pp
  | .readAndPrintPacket => ∃ result, readAndPrintPacket pb (fresh maxPacketSize) = some result
  | .readAPacketAndPassAPointer => ∃ result, readAPacketAndPassAPointer pb fresh = some result

/-- The lengths for which there are `l + 1` cells. -/
def Fits (l : UInt8) : Reader → Prop
  | .readAPacketAndPassAPointer => False
  | _ => l.toNat < maxPacketSize

section Copying
variable {pb : PacketBuffer} {l : UInt8} {n : ℕ}

theorem next_lt {i : ℕ} (hi : i < packetBufferLen) : next packetBufferLen i < packetBufferLen := by
  rw [← Nat.mod_eq_of_lt hi, next_mod (by decide)]
  exact Nat.mod_lt _ (by decide)

theorem dqueue_total (hhead : pb.packetBufferHead < packetBufferLen) :
    ∃ v pb', dqueueFromPacketBuffer pb = some (v, pb') ∧
      pb'.packetBufferHead < packetBufferLen := by
  rw [dqueueFromPacketBuffer]
  split_ifs
  · exact ⟨0, pb, rfl, hhead⟩
  · exact ⟨0, pb, rfl, hhead⟩
  · exact ⟨_, _, bind_some_of (Block.read_natCast _ hhead) rfl, next_lt hhead⟩

theorem preDqueue_total (hhead : pb.bufferReadingHead < packetBufferLen) :
    ∃ v pb', dqueueFromPacketBufferForPreprocessing pb = some (v, pb') ∧
      pb'.bufferReadingHead < packetBufferLen := by
  rw [dqueueFromPacketBufferForPreprocessing]
  split_ifs
  · exact ⟨0, pb, rfl, hhead⟩
  · exact ⟨_, _, bind_some_of (Block.read_natCast _ hhead) rfl, next_lt hhead⟩

/-- The part of a reader behind the first byte, which is the length. -/
theorem copy_inside {next : PacketBuffer → Option (UInt8 × PacketBuffer)}
    (R : PacketBuffer → Prop) (hnext : ∀ s, R s → ∃ v s', next s = some (v, s') ∧ R s')
    (hR : R pb) (pk : Block n) (hfits : l.toNat < n) :
    ∃ pb' pk', (pk.write 0 l >>= fun pk => fill next l.toNat 1 pb pk) = some (pb', pk') ∧
      pk'.byte 0 = l := by
  have hwrite : pk.write 0 l = some (pk.set 0 l) := Block.write_natCast pk l (show 0 < n by omega)
  obtain ⟨pb', pk', hfill, hkept⟩ :=
    fill_inside R hnext l.toNat 1 (pk.set 0 l) (by omega) hR
  refine ⟨pb', pk', bind_some_of hwrite hfill, ?_⟩
  rw [hkept 0 (by decide), Block.byte_set _ _ (by omega), if_pos rfl]

theorem copy_outside {next : PacketBuffer → Option (UInt8 × PacketBuffer)} (pk : Block n)
    (hout : n ≤ l.toNat) : (pk.write 0 l >>= fun pk => fill next l.toNat 1 pb pk) = none := by
  rcases Nat.eq_zero_or_pos n with rfl | hpos
  · rw [Block.write_outside pk l (by decide)]
    rfl
  · exact Option.bind_eq_none_iff.mpr fun pk₁ _ => fill_outside l.toNat 1 pk₁ hpos (by omega)

/-- The first byte read is the length byte. -/
theorem dqueue_due (h : Due pb l .readAndPrintPacket) :
    ∃ pb', dqueueFromPacketBuffer pb = some (l, pb') ∧
      pb'.packetBufferHead < packetBufferLen := by
  obtain ⟨hempty, hgate, hhead, rfl⟩ := h
  rw [dqueueFromPacketBuffer, hempty, if_neg Bool.false_ne_true, if_neg hgate]
  exact ⟨_, bind_some_of (Block.read_natCast _ hhead) rfl, next_lt hhead⟩

theorem preDqueue_due (h : Due pb l .prepareMatchField) :
    ∃ pb', dqueueFromPacketBufferForPreprocessing pb = some (l, pb') ∧
      pb'.bufferReadingHead < packetBufferLen := by
  obtain ⟨hempty, hhead, rfl⟩ := h
  rw [dqueueFromPacketBufferForPreprocessing, hempty, if_neg Bool.false_ne_true]
  exact ⟨_, bind_some_of (Block.read_natCast _ hhead) rfl, next_lt hhead⟩

theorem readAPacket_inside (h : Due pb l .readAndPrintPacket) (pk : Block n)
    (hfits : l.toNat < n) :
    ∃ pb' pk', readAPacket pb pk = some (pb', pk') ∧ pk'.byte 0 = l := by
  obtain ⟨pb', hfirst, hhead⟩ := dqueue_due h
  obtain ⟨pb'', pk', hcopy, hlength⟩ :=
    copy_inside _ (fun _ hs => dqueue_total hs) hhead pk hfits
  refine ⟨pb'', pk', ?_, hlength⟩
  rw [readAPacket, h.1, if_neg Bool.false_ne_true, if_neg h.2.1]
  exact bind_some_of hfirst hcopy

theorem readAPacket_outside (h : Due pb l .readAndPrintPacket) (pk : Block n)
    (hout : n ≤ l.toNat) : readAPacket pb pk = none := by
  obtain ⟨pb', hfirst, -⟩ := dqueue_due h
  rw [readAPacket, h.1, if_neg Bool.false_ne_true, if_neg h.2.1, bind_some_eq hfirst]
  exact copy_outside pk hout

theorem readAPacketForPreprocessing_inside (h : Due pb l .prepareMatchField) (pk : Block n)
    (hfits : l.toNat < n) :
    ∃ pb' pk', readAPacketForPreprocessing pb pk = some (pb', pk') := by
  obtain ⟨pb', hfirst, hhead⟩ := preDqueue_due h
  obtain ⟨pb'', pk', hcopy, -⟩ :=
    copy_inside _ (fun _ hs => preDqueue_total hs) hhead pk hfits
  refine ⟨pb'', pk', ?_⟩
  rw [readAPacketForPreprocessing, h.1, if_neg Bool.false_ne_true]
  exact bind_some_of hfirst hcopy

theorem readAPacketForPreprocessing_outside (h : Due pb l .prepareMatchField) (pk : Block n)
    (hout : n ≤ l.toNat) : readAPacketForPreprocessing pb pk = none := by
  obtain ⟨pb', hfirst, -⟩ := preDqueue_due h
  rw [readAPacketForPreprocessing, h.1, if_neg Bool.false_ne_true, bind_some_eq hfirst]
  exact copy_outside pk hout

end Copying

section Readers
variable {pb : PacketBuffer} {l : UInt8}

theorem prepareMatchField_inside_iff (h : Due pb l .prepareMatchField) {mf : MatchFieldBuffer}
    (hroom : TakesAField mf) (matchField : Block mtchFldLen) (pkt : Block maxPacketSize) :
    (∃ pp, prepareMatchField ⟨pb, mf⟩ matchField pkt = some pp) ↔ l.toNat < maxPacketSize := by
  constructor
  · rintro ⟨pp, hprepare⟩
    by_contra hout
    rw [prepareMatchField, readAPacketForPreprocessing_outside h pkt (not_lt.mp hout)] at hprepare
    cases hprepare
  · intro hfits
    obtain ⟨pb', pkt', hread⟩ := readAPacketForPreprocessing_inside h pkt hfits
    obtain ⟨laid, hlay, -⟩ := MatchFieldLayout.layMatchField_laid pkt' matchField
    obtain ⟨mf', henq⟩ := hroom laid
    exact ⟨_, bind_some_of hread (bind_some_of hlay (bind_some_of henq rfl))⟩

theorem readAndPrintPacket_inside_iff (h : Due pb l .readAndPrintPacket)
    (a : Block maxPacketSize) :
    (∃ result, readAndPrintPacket pb a = some result) ↔ l.toNat < maxPacketSize := by
  constructor
  · rintro ⟨result, hprint⟩
    by_contra hout
    rw [readAndPrintPacket, readAPacket_outside h a (not_lt.mp hout)] at hprint
    cases hprint
  · intro hfits
    obtain ⟨pb', a', hread, hlength⟩ := readAPacket_inside h a hfits
    have hfirst : a'.read 0 = some l :=
      hlength ▸ Block.read_natCast a' (show 0 < maxPacketSize by decide)
    have hrest := Block.readSlice_natCast a' (k := 1) (m := l.toNat) (by omega)
    exact ⟨_, bind_some_of hread (bind_some_of hfirst (bind_some_of hrest rfl))⟩

/-- The array has no cell for the last byte, nor for the length byte of an empty frame. -/
theorem readAPacketAndPassAPointer_outside (h : Due pb l .readAPacketAndPassAPointer)
    (outputPacket : (n : ℕ) → Block n) : readAPacketAndPassAPointer pb outputPacket = none := by
  obtain ⟨pb', hfirst, -⟩ := dqueue_due h
  rw [readAPacketAndPassAPointer, h.1, if_neg Bool.false_ne_true, if_neg h.2.1,
    bind_some_eq hfirst]
  have hcopy : ((outputPacket l.toNat).write 0 l >>= fun pk =>
      fill dqueueFromPacketBuffer l.toNat 1 pb' pk) = none := copy_outside _ (le_refl l.toNat)
  simp only [Option.bind_eq_bind, Option.bind_eq_none_iff] at hcopy ⊢
  exact fun pk hpk result hfill => absurd (hcopy pk hpk) (by rw [hfill]; simp)

/-- There is a match-field buffer with room. -/
theorem takesAField_initialized (mf : MatchFieldBuffer) :
    TakesAField (initializeMatchFieldBuffer mf) := by
  intro matchField
  obtain ⟨mf', henq, -⟩ := enqueueMatchField_spec (fills_initialized mf) matchField (by decide)
  exact ⟨mf', henq⟩

end Readers

/-- A reader stays inside its destination exactly for the frames that fit it. -/
theorem stays_inside_iff {pb : PacketBuffer} {l : UInt8} {r : Reader} (h : Due pb l r)
    (fresh : (n : ℕ) → Block n) : StaysInside pb fresh r ↔ Fits l r := by
  cases r with
  | prepareMatchField =>
    constructor
    · intro hinside
      have hroom := takesAField_initialized zeroedMatchFieldBuffer
      exact (prepareMatchField_inside_iff h hroom _ _).mp (hinside _ hroom)
    · exact fun hfits mf hroom => (prepareMatchField_inside_iff h hroom _ _).mpr hfits
  | readAndPrintPacket => exact readAndPrintPacket_inside_iff h _
  | readAPacketAndPassAPointer =>
    refine iff_of_false ?_ not_false
    rintro ⟨result, hread⟩
    rw [readAPacketAndPassAPointer_outside h fresh] at hread
    cases hread

/-- A captured packet of `n` zeros. -/
def zeroPacket (n : ℕ) : Packet := ⟨n, n, List.replicate n 0, List.length_replicate⟩

def zeroedBlocks (n : ℕ) : Block n := Block.ofFn fun _ => 0

/-- The ring when a packet has gone through the first calls of a round. -/
def afterCalls (pkt : Packet) (calls : ℕ) : Option PpRun :=
  run ppCall (startPp [.packet pkt] zeroedPreProcessor) (oneRound.take calls)

def smallPacket : Packet := ⟨3, 3, [7, 8, 9], rfl⟩

theorem afterCalls_due :
    ((afterCalls smallPacket 1).any (fun s => Due s.pp.pb 15 .prepareMatchField) = true ∧
      (afterCalls smallPacket 2).any (fun s => Due s.pp.pb 15 .readAndPrintPacket) = true) ∧
    (afterCalls (zeroPacket 88) 1).any (fun s => Due s.pp.pb 100 .prepareMatchField) = true ∧
    (afterCalls (zeroPacket 0) 2).any (fun s => Due s.pp.pb 12 .readAPacketAndPassAPointer) =
      true := by
  decide +kernel

/-- The frame of a packet of three bytes, when it is to be prepared and when it is to be
printed. -/
theorem small_packet_fits :
    (∃ s, afterCalls smallPacket 1 = some s ∧
      StaysInside s.pp.pb zeroedBlocks .prepareMatchField) ∧
    ∃ s, afterCalls smallPacket 2 = some s ∧
      StaysInside s.pp.pb zeroedBlocks .readAndPrintPacket := by
  have hlen : (15 : UInt8).toNat < maxPacketSize := by decide
  obtain ⟨s, hs, hdue⟩ := exists_of_any afterCalls_due.1.1
  obtain ⟨s', hs', hdue'⟩ := exists_of_any afterCalls_due.1.2
  exact ⟨⟨s, hs, (stays_inside_iff hdue zeroedBlocks).mpr hlen⟩,
    ⟨s', hs', (stays_inside_iff hdue' zeroedBlocks).mpr hlen⟩⟩

/-- The frame of a packet of 88 bytes is too long for the scratch block, and even that of an
empty packet, prepared, for the array of the last reader. -/
theorem readers_overrun :
    (∃ s, afterCalls (zeroPacket 88) 1 = some s ∧ Due s.pp.pb 100 .prepareMatchField ∧
      ¬ StaysInside s.pp.pb zeroedBlocks .prepareMatchField) ∧
    ∃ s, afterCalls (zeroPacket 0) 2 = some s ∧ Due s.pp.pb 12 .readAPacketAndPassAPointer ∧
      ¬ StaysInside s.pp.pb zeroedBlocks .readAPacketAndPassAPointer := by
  constructor
  · obtain ⟨s, hs, hdue⟩ := exists_of_any afterCalls_due.2.1
    refine ⟨s, hs, hdue, fun hinside => ?_⟩
    have hroom := takesAField_initialized zeroedMatchFieldBuffer
    exact absurd ((prepareMatchField_inside_iff hdue hroom _ _).mp (hinside _ hroom)) (by decide)
  · obtain ⟨s, hs, hdue⟩ := exists_of_any afterCalls_due.2.2
    refine ⟨s, hs, hdue, ?_⟩
    rintro ⟨result, hread⟩
    rw [readAPacketAndPassAPointer_outside hdue zeroedBlocks] at hread
    cases hread

end NetWalk.ReaderBounds
