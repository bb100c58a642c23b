import NetWalk.RingPrinting
import NetWalk.PacketByteRuns
import NetWalk.MatchFieldRuns
import NetWalk.PacketFrameRuns

/-!
# What the print functions of the buffers put out

`print_buffer` and `print_mtch_field_buffer` walk over a ring from its head to its
tail and break the line after every `LINE_LEN` bytes; `print_packet` and
`print_match_field` do the same with an array. Bytes are printed in two hexadecimal
digits and a blank. The match-field buffer is walked over as if it wrapped after
`match_field_buffer_LEN` cells, which are more than it has; no run comes to that.
-/
namespace NetWalk.BufferPrints
open ByteBlock RingCursor RingPrinting PacketByteRing PacketByteRuns MatchFieldRing MatchFieldRuns
open PacketFrames PacketFrameRuns PartialRun

/-- `LINE_LEN` -/
def lineLen : ℕ := 16

section Model
variable {n : ℕ}

/-- The loop over the cells from `first` on in front of `last`. -/
def printCells (b : Block n) (first last : ℕ) (s : Lines UInt8) : Option (Lines UInt8) :=
  (List.range' first (last - first)).foldlM (fun s (j : ℕ) => do
    let v ← b.read j
    some (s.print lineLen v)) s

/-- The body of the functions that print a ring of `len` cells. -/
def printRing (b : Block n) (len head tail : ℕ) (empty : Bool) (heading nothing : String) :
    Option (List (Token UInt8)) :=
  if empty then some [.text heading, .text nothing]
  else if head < tail then do
    let s ← printCells b head tail ⟨0, [.text heading]⟩
    some s.output
  else do
    let s ← printCells b head len ⟨0, [.text heading]⟩
    let s ← printCells b 0 tail s
    some s.output

def printBuffer (pb : PacketBuffer) : Option (List (Token UInt8)) :=
  printRing pb.packetBuffer packetBufferLen pb.packetBufferHead pb.packetBufferTail
    pb.bufferEmptyFlag "\n-------------Packet Buffer-------------------\n"
    "Packet buffer is empty"

def printMtchFieldBuffer (mfb : MatchFieldBuffer) : Option (List (Token UInt8)) :=
  printRing mfb.matchFieldBufferArray matchFieldBufferLen mfb.matchFieldBufferHead
    mfb.matchFieldBufferTail mfb.bufferEmptyFlag
    "\n-------------Match Field Buffer-------------------\n" "Match Field buffer is empty"

/-- The length byte is printed on a line of its own. -/
def printPacket (pkt : Block n) : Option (List (Token UInt8)) := do
  let length ← pkt.read 0
  let s ← printCells pkt 1 (length.toNat + 1)
    ⟨0, [.text "\n-------------Packet Recieved-------------------\n", .text "length - ",
      .item length, .newline]⟩
  some s.output

def printMatchField (mf : Block n) : Option (List (Token UInt8)) := do
  let s ← printCells mf 0 mtchFldLen
    ⟨0, [.text "\n-------------Match Field Recieved-------------------\n"]⟩
  some s.output

end Model

section Cells
variable {n : ℕ} {b : Block n}

theorem foldlM_cells {cells : List ℕ} (h : ∀ j ∈ cells, j < n) (s : Lines UInt8) :
    cells.foldlM (fun s (j : ℕ) => do
      let v ← b.read j
      some (s.print lineLen v)) s = some (s.printAll lineLen (cells.map b.byte)) := by
  induction cells generalizing s with
  | nil => rfl
  | cons j cells ih =>
    have hread := Block.read_natCast b (h j List.mem_cons_self)
    have hstep : (do
        let v ← b.read j
        some (s.print lineLen v)) = some (s.print lineLen (b.byte j)) := bind_some_of hread rfl
    rw [List.foldlM_cons, hstep, List.map_cons, Lines.printAll, List.foldl_cons]
    exact ih (fun i hi => h i (List.mem_cons_of_mem _ hi)) _

theorem printCells_spec {first last : ℕ} (h : last ≤ n) (s : Lines UInt8) :
    printCells b first last s =
      some (s.printAll lineLen ((List.range' first (last - first)).map b.byte)) := by
  refine foldlM_cells (fun j hj => ?_) s
  have := List.mem_range'_1.mp hj
  omega

/-- The two loops are one loop over the cells walked over. -/
theorem printRing_walk {len head tail : ℕ} (hlast : head < tail ∨ len ≤ n) (htail : tail ≤ n)
    (heading nothing : String) :
    printRing b len head tail false heading nothing =
      some (.text heading :: broken lineLen 0 ((walk len head tail).map b.byte)) := by
  have hlines : ∀ l : List UInt8, (Lines.printAll lineLen ⟨0, [.text heading]⟩ l).output =
      .text heading :: broken lineLen 0 l :=
    fun l => printAll_start (show 0 < lineLen by decide) l [.text heading]
  rw [printRing, if_neg Bool.false_ne_true, walk]
  split_ifs with hahead
  · rw [bind_some_eq (printCells_spec htail _), hlines]
  · have hlen := hlast.resolve_left hahead
    rw [bind_some_eq (printCells_spec hlen _), bind_some_eq (printCells_spec htail _),
      ← printAll_append, ← List.map_append, Nat.sub_zero, ← List.range_eq_range', hlines]

end Cells

/-- The output for a buffer that holds `held`. -/
def shown (heading nothing : String) (held : List UInt8) : List (Token UInt8) :=
  .text heading :: if held = [] then [.text nothing] else broken lineLen 0 held

/-- A ring whose empty flag is right is printed as what it holds. -/
theorem printRing_held {n len head tail : ℕ} {b : Block n} {empty : Bool} {held : List UInt8}
    (hempty : empty = true ↔ held = [])
    (hwalk : held ≠ [] → (head < tail ∨ len ≤ n) ∧ tail ≤ n ∧
      (walk len head tail).map b.byte = held)
    (heading nothing : String) :
    printRing b len head tail empty heading nothing = some (shown heading nothing held) := by
  rw [shown]
  by_cases hnone : held = []
  · rw [printRing, if_pos (hempty.mpr hnone), if_pos hnone]
  · obtain ⟨hlast, htail, hcells⟩ := hwalk hnone
    have hfalse : empty = false := Bool.eq_false_of_not_eq_true fun h => hnone (hempty.mp h)
    rw [hfalse, printRing_walk hlast htail, hcells, if_neg hnone]

/-- The bytes accepted and not given out yet. -/
def Waiting (accepted dequeued : List UInt8) : List UInt8 := accepted.drop dequeued.length

theorem waiting_eq_nil {accepted dequeued : List UInt8} (h : dequeued <+: accepted) :
    Waiting accepted dequeued = [] ↔ accepted.length = dequeued.length := by
  have := h.length_le
  rw [Waiting, List.drop_eq_nil_iff]
  omega

/-- `print_buffer` shows the bytes that are held, in order, and nothing else. -/
def PrintsHeld (s : Observed) : Prop :=
  printBuffer s.pb = some (shown "\n-------------Packet Buffer-------------------\n"
    "Packet buffer is empty" (Waiting s.history.accepted s.history.dequeued))

theorem printsHeld_of_tracked {s : Observed} (h : Tracked s) : PrintsHeld s := by
  have hrep := h.represents
  refine printRing_held (hrep.empty.trans (waiting_eq_nil h.inOrder).symm) (fun hne => ?_) _ _
  have hlt : s.history.dequeued.length < s.history.accepted.length := by
    rw [Ne, waiting_eq_nil h.inOrder] at hne
    have := hrep.deq_le
    omega
  refine ⟨.inr le_rfl, hrep.tail_lt.le, ?_⟩
  rw [hrep.head, hrep.tail]
  exact walk_held hrep.stores hlt

/-- In every run of the byte operations, whatever the full flag says and wherever the
contents lie in the array. -/
theorem prints_held_bytes (pb : PacketBuffer) (calls : List Call) :
    Throughout call PrintsHeld (fresh pb) calls :=
  (throughout_of_step (fun _ c h => call_tracked h c) (tracked_fresh pb) calls).mono
    fun _ h => printsHeld_of_tracked h

/-- The same for the match-field buffer. -/
def PrintsHeldFields (s : MfObserved) : Prop :=
  printMtchFieldBuffer s.mfb = some (shown "\n-------------Match Field Buffer-------------------\n"
    "Match Field buffer is empty" (Waiting s.accepted s.dequeued))

theorem printsHeldFields_of_tracked {s : MfObserved} (h : MfTracked s) : PrintsHeldFields s := by
  have hfills := h.fills
  have hempty : s.mfb.bufferEmptyFlag = true ↔ Waiting s.accepted s.dequeued = [] := by
    rw [hfills.empty, waiting_eq_nil h.inOrder]
  refine printRing_held hempty (fun hne => ?_) _ _
  have hlt : s.dequeued.length < s.accepted.length := by
    rw [Ne, waiting_eq_nil h.inOrder] at hne
    have := hfills.deq_le
    omega
  have hahead : s.mfb.matchFieldBufferHead < s.mfb.matchFieldBufferTail := by
    rw [hfills.head, hfills.tail]
    exact hlt
  refine ⟨.inl hahead, hfills.tail ▸ hfills.inside, ?_⟩
  rw [walk, if_pos hahead, hfills.head, hfills.tail, Waiting]
  refine List.ext_getElem? fun k => ?_
  rw [List.getElem?_drop, List.getElem?_map]
  rcases Nat.lt_or_ge (s.dequeued.length + k) s.accepted.length with hk | hk
  · rw [List.getElem?_range' (by omega), hfills.held _ (by omega) hk, Option.map_some, Nat.one_mul]
  · rw [List.getElem?_eq_none hk, List.getElem?_eq_none (by rw [List.length_range']; omega)]
    rfl

theorem mfCall_tracked (s : MfObserved) (c : MfCall) (s' : MfObserved) (h : MfTracked s)
    (hs' : mfCall s c = some s') : MfTracked s' := by
  cases c with
  | add byte =>
    rcases Nat.lt_or_ge s.accepted.length matchFieldArraySize with hroom | hfull
    · obtain ⟨t, ht, htracked, -⟩ := mfCall_add h hroom byte
      cases hs'.symm.trans ht
      exact htracked
    · rw [mfCall_add_overrun h (le_antisymm h.fills.inside hfull) byte] at hs'
      cases hs'
  | dqueue =>
    obtain ⟨t, ht, htracked, -⟩ := mfCall_dqueue h
    cases hs'.symm.trans ht
    exact htracked

/-- In every run of the byte operations, up to the first step that leaves the array. -/
theorem prints_held_fields (mfb : MatchFieldBuffer) (calls : List MfCall) :
    Always mfCall PrintsHeldFields (freshMf mfb) calls :=
  (always_of_along (C := fun _ _ => True) MfTracked (fun s c s' h _ => mfCall_tracked s c s' h)
    (mfTracked_fresh mfb) (along_true _ calls)).mono fun _ h => printsHeldFields_of_tracked h

/-- The output of `print_packet` for a frame, the length byte first. -/
def shownPacket (f : List UInt8) : List (Token UInt8) :=
  .text "\n-------------Packet Recieved-------------------\n" :: .text "length - " ::
    .item (f[0]?.getD 0) :: .newline :: broken lineLen 0 f.tail

theorem printPacket_frame {n : ℕ} (pk : Block n) {f : List UInt8} (hf : SelfDelimiting f)
    (hn : f.length ≤ n) : printPacket (pk.overwrite f) = some (shownPacket f) := by
  obtain ⟨l, rest, rfl, hl⟩ := hf
  rw [List.length_cons] at hn
  have hbyte : ∀ j, j < rest.length + 1 →
      (pk.overwrite (l :: rest)).byte j = (l :: rest)[j]?.getD 0 := by
    intro j hj
    rw [Block.byte_overwrite _ _ (by omega), List.getElem?_eq_getElem (by simpa using hj)]
    rfl
  have hfirst : (pk.overwrite (l :: rest)).read 0 = some l := by
    refine (Block.read_natCast _ (show 0 < n by omega)).trans ?_
    rw [hbyte 0 (by omega)]
    rfl
  have hrest : (List.range' 1 (l.toNat + 1 - 1)).map (pk.overwrite (l :: rest)).byte = rest := by
    rw [Nat.add_sub_cancel, hl]
    refine List.ext_getElem (by simp) fun k hk hk' => ?_
    rw [List.getElem_map, List.getElem_range', Nat.one_mul, hbyte _ (by omega), Nat.add_comm,
      List.getElem?_cons_succ, List.getElem?_eq_getElem hk']
    rfl
  have hcells := @printCells_spec n (pk.overwrite (l :: rest)) 1 (l.toNat + 1) (by omega)
    ⟨0, [.text "\n-------------Packet Recieved-------------------\n", .text "length - ", .item l,
      .newline]⟩
  rw [hrest] at hcells
  refine (bind_some_eq hfirst).trans ((bind_some_eq hcells).trans ?_)
  rw [printAll_start (show 0 < lineLen by decide)]
  rfl

/-- Of an array that holds a match field, the match field is printed. -/
theorem printMatchField_spec {n : ℕ} (mf : Block n) (hn : mtchFldLen ≤ n) :
    printMatchField mf = some (.text "\n-------------Match Field Recieved-------------------\n" ::
      broken lineLen 0 (mf.toList.take mtchFldLen)) := by
  have hcells : mf.toList.take mtchFldLen = (List.range' 0 (mtchFldLen - 0)).map mf.byte := by
    rw [Block.toList, ← List.map_take, List.take_range, Nat.min_eq_left hn,
      List.range_eq_range', Nat.sub_zero]
  rw [printMatchField, bind_some_eq (printCells_spec hn _), hcells,
    printAll_start (show 0 < lineLen by decide)]
  rfl

/-- The frame that may be read next is printed as it was loaded. -/
def PrintsNextFrame (s : FrameRun) : Prop :=
  s.returned.length < s.preRead.length → ∀ f, s.loaded[s.returned.length]? = some f →
    ∀ n (pk : Block n), f.length ≤ n → ∃ pb' pk', readAPacket s.pb pk = some (pb', pk') ∧
      printPacket pk' = some (shownPacket f)

theorem printsNextFrame_of_inStep {s : FrameRun} (h : FramesInStep s) : PrintsNextFrame s := by
  intro hlt f hf n pk hn
  obtain ⟨pb', hread, -⟩ := readAPacket_spec h.holds hlt pk hf hn
  exact ⟨pb', _, hread, printPacket_frame pk (h.holds.delimited f (List.mem_of_getElem? hf)) hn⟩

theorem prints_next_frame (pb : PacketBuffer) (calls : List FrameCall)
    (h : Along frameCall WellUsed (startFrames pb) calls) :
    Throughout frameCall PrintsNextFrame (startFrames pb) calls := by
  have hstart : FramesInStep (startFrames pb) :=
    ⟨⟨List.nil_prefix, List.nil_prefix⟩, holdsFrames_initialized pb⟩
  exact (throughout_of_along _ (fun s c hs hc => frameCall_inStep hs hc) hstart h).mono
    fun s hs => printsNextFrame_of_inStep hs

/-- Two packets of twenty bytes and of one, read for pre-processing, and the first read. -/
theorem two_frames_printed :
    Throughout frameCall PrintsNextFrame (startFrames zeroedPacketBuffer)
      [.load ⟨20, 20, List.replicate 20 7, rfl⟩ (Block.ofFn fun _ => 1) (Block.ofFn fun _ => 2),
       .load ⟨1, 1, [9], rfl⟩ (Block.ofFn fun _ => 3) (Block.ofFn fun _ => 4),
       .preRead 100 (Block.ofFn fun _ => 0), .preRead 100 (Block.ofFn fun _ => 0),
       .read 100 (Block.ofFn fun _ => 0)] :=
  prints_next_frame zeroedPacketBuffer _ (by decide +kernel)

end NetWalk.BufferPrints
