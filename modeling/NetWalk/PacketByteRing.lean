import NetWalk.ByteBlock
import NetWalk.RingCursor

/-!
# The packet buffer as a ring of bytes

`packet_buffer` keeps whole frames in one array of `PACKET_BUFFER_LEN` bytes.
Three cursors move over it: the tail takes new bytes, the head gives them out,
and the reading head lets the pre-processor look at a frame before the head may
pass over it. Head and tail on one cell mean an empty or a full ring; two flags
tell which. The counters are C `int`s that start at zero and only step or wrap,
so natural numbers carry them, and the flags hold 0 or 1 only.

`Represents` ties a buffer to the sequence of bytes accepted since it was set
up and to the number of moves the two heads have made. One lemma for each byte
operation says what the operation does to it; nothing else unfolds them.
-/
namespace NetWalk.PacketByteRing
open ByteBlock RingCursor

/-- `PACKET_BUFFER_LEN` -/
def packetBufferLen : ℕ := 1000

structure PacketBuffer where
  packetBuffer : Block packetBufferLen
  packetBufferHead : ℕ
  packetBufferTail : ℕ
  bufferFullFlag : Bool
  bufferEmptyFlag : Bool
  bufferReadingHead : ℕ

/-- A buffer in zeroed memory, not yet initialised. -/
def zeroedPacketBuffer : PacketBuffer := ⟨Block.ofFn fun _ => 0, 0, 0, false, false, 0⟩

/-- The array keeps whatever it held. -/
def initializePacketBuffer (pb : PacketBuffer) : PacketBuffer :=
  { pb with
    packetBufferHead := 0
    packetBufferTail := 0
    bufferFullFlag := false
    bufferEmptyFlag := true
    bufferReadingHead := 0 }

def addAByteToThePacketBuffer (pb : PacketBuffer) (byte : UInt8) : Option PacketBuffer :=
  if pb.bufferFullFlag then some pb
  else do
    let packetBuffer ← pb.packetBuffer.write pb.packetBufferTail byte
    let tail := next packetBufferLen pb.packetBufferTail
    some { pb with
      packetBuffer := packetBuffer
      bufferEmptyFlag := false
      packetBufferTail := tail
      bufferFullFlag := if tail = pb.packetBufferHead then true else pb.bufferFullFlag }

def dqueueFromPacketBuffer (pb : PacketBuffer) : Option (UInt8 × PacketBuffer) :=
  if pb.bufferEmptyFlag then some (0, pb)
  else if pb.bufferReadingHead = pb.packetBufferHead then some (0, pb)
  else do
    let data ← pb.packetBuffer.read pb.packetBufferHead
    let head := next packetBufferLen pb.packetBufferHead
    -- the full flag is left as it was
    some (data, { pb with
      packetBufferHead := head
      bufferEmptyFlag := if pb.packetBufferTail = head then true else false })

def dqueueFromPacketBufferForPreprocessing (pb : PacketBuffer) :
    Option (UInt8 × PacketBuffer) :=
  if pb.bufferEmptyFlag then some (0, pb)
  else do
    let data ← pb.packetBuffer.read pb.bufferReadingHead
    -- the tail is not looked at
    some (data, { pb with
      bufferEmptyFlag := false
      bufferReadingHead := next packetBufferLen pb.bufferReadingHead })

/-- `accepted` has been enqueued, the reading head has made `pre` moves and the
head `deq`. The full flag need not be right about a ring with room. -/
structure Represents (pb : PacketBuffer) (accepted : List UInt8) (pre deq : ℕ) : Prop where
  head : pb.packetBufferHead = deq % packetBufferLen
  tail : pb.packetBufferTail = accepted.length % packetBufferLen
  readingHead : pb.bufferReadingHead = pre % packetBufferLen
  stores : Stores packetBufferLen pb.packetBuffer.byte accepted deq
  deq_le : deq ≤ accepted.length
  empty : pb.bufferEmptyFlag = true ↔ accepted.length = deq
  room : pb.bufferFullFlag = false → accepted.length < deq + packetBufferLen

section Operations
variable {pb : PacketBuffer} {accepted : List UInt8} {pre deq : ℕ}

theorem packetBufferLen_pos : 1 < packetBufferLen := by decide

theorem represents_initialized (pb : PacketBuffer) :
    Represents (initializePacketBuffer pb) [] 0 0 where
  head := rfl
  tail := rfl
  readingHead := rfl
  stores := Stores.nil _
  deq_le := le_rfl
  empty := by simp [initializePacketBuffer]
  room := fun _ => by decide

theorem Represents.head_lt (h : Represents pb accepted pre deq) :
    pb.packetBufferHead < packetBufferLen := h.head ▸ Nat.mod_lt _ (by decide)

theorem Represents.tail_lt (h : Represents pb accepted pre deq) :
    pb.packetBufferTail < packetBufferLen := h.tail ▸ Nat.mod_lt _ (by decide)

theorem Represents.readingHead_lt (h : Represents pb accepted pre deq) :
    pb.bufferReadingHead < packetBufferLen := h.readingHead ▸ Nat.mod_lt _ (by decide)

theorem addAByte_refused (byte : UInt8) (hfull : pb.bufferFullFlag = true) :
    addAByteToThePacketBuffer pb byte = some pb := by
  simp [addAByteToThePacketBuffer, hfull]

/-- An add that is not refused appends the byte, and sets the full flag exactly
when it took the last free cell. -/
theorem addAByte_accepted (h : Represents pb accepted pre deq)
    (hfull : pb.bufferFullFlag = false) (byte : UInt8) :
    ∃ pb', addAByteToThePacketBuffer pb byte = some pb' ∧
      Represents pb' (accepted ++ [byte]) pre deq ∧
      pb'.packetBufferTail ≠ pb.packetBufferTail ∧
      (pb'.bufferFullFlag = true ↔ accepted.length + 1 = deq + packetBufferLen) := by
  have hroom := h.room hfull
  have hle := h.deq_le
  have hnext : next packetBufferLen pb.packetBufferTail =
      (accepted.length + 1) % packetBufferLen := by
    rw [h.tail, next_mod (by decide)]
  have hmeet : next packetBufferLen pb.packetBufferTail = pb.packetBufferHead ↔
      accepted.length + 1 = deq + packetBufferLen := by
    rw [hnext, h.head, mod_eq_mod_iff (by omega) (by omega)]
    omega
  refine ⟨{ pb with
      packetBuffer := pb.packetBuffer.set pb.packetBufferTail byte
      bufferEmptyFlag := false
      packetBufferTail := next packetBufferLen pb.packetBufferTail
      bufferFullFlag :=
        decide (next packetBufferLen pb.packetBufferTail = pb.packetBufferHead) },
    ?_, ?_, next_ne packetBufferLen_pos _, by simpa using hmeet⟩
  · simp [addAByteToThePacketBuffer, hfull, Block.write_natCast _ _ h.tail_lt]
  · constructor
    · exact h.head
    · simpa using hnext
    · exact h.readingHead
    · refine h.stores.push hroom ?_ fun i hi hne => ?_
      · rw [← h.tail, Block.byte_set _ _ h.tail_lt, if_pos rfl]
      · rw [Block.byte_set _ _ hi, if_neg (h.tail ▸ hne)]
    · simp only [List.length_append, List.length_singleton]
      omega
    · simp only [Bool.false_eq_true, List.length_append, List.length_singleton, false_iff]
      omega
    · intro hf
      simp only [decide_eq_false_iff_not, hmeet] at hf
      simp only [List.length_append, List.length_singleton]
      omega

theorem dqueue_refused_empty (hempty : pb.bufferEmptyFlag = true) :
    dqueueFromPacketBuffer pb = some (0, pb) := by
  simp [dqueueFromPacketBuffer, hempty]

theorem dqueue_refused_gate (hgate : pb.bufferReadingHead = pb.packetBufferHead) :
    dqueueFromPacketBuffer pb = some (0, pb) := by
  simp [dqueueFromPacketBuffer, hgate]

/-- A dequeue that passes both tests gives out the oldest byte held. -/
theorem dqueue_advances (h : Represents pb accepted pre deq)
    (hempty : pb.bufferEmptyFlag = false) (hgate : pb.bufferReadingHead ≠ pb.packetBufferHead) :
    ∃ data pb', dqueueFromPacketBuffer pb = some (data, pb') ∧
      accepted[deq]? = some data ∧ Represents pb' accepted pre (deq + 1) ∧
      pb'.packetBufferHead ≠ pb.packetBufferHead ∧
      pb'.bufferFullFlag = pb.bufferFullFlag := by
  have hlt : deq < accepted.length := by
    have hne : ¬ (accepted.length = deq) := by rw [← h.empty, hempty]; decide
    have := h.deq_le
    omega
  have hnext : next packetBufferLen pb.packetBufferHead = (deq + 1) % packetBufferLen := by
    rw [h.head, next_mod (by decide)]
  have hmeet : pb.packetBufferTail = next packetBufferLen pb.packetBufferHead ↔
      accepted.length = deq + 1 := by
    have := h.stores.fits
    rw [hnext, h.tail, mod_eq_mod_iff (by omega) (by omega)]
    omega
  refine ⟨pb.packetBuffer.byte pb.packetBufferHead, { pb with
      packetBufferHead := next packetBufferLen pb.packetBufferHead
      bufferEmptyFlag :=
        decide (pb.packetBufferTail = next packetBufferLen pb.packetBufferHead) },
    ?_, ?_, ?_, next_ne packetBufferLen_pos _, rfl⟩
  · simp [dqueueFromPacketBuffer, hempty, hgate, Block.read_natCast _ h.head_lt]
  · rw [h.stores.held deq le_rfl hlt, h.head]
  · constructor
    · exact hnext
    · exact h.tail
    · exact h.readingHead
    · exact h.stores.drop
    · exact hlt
    · simpa using hmeet
    · intro hf
      have := h.room hf
      omega

theorem preDqueue_refused (hempty : pb.bufferEmptyFlag = true) :
    dqueueFromPacketBufferForPreprocessing pb = some (0, pb) := by
  simp [dqueueFromPacketBufferForPreprocessing, hempty]

/-- On a ring that is not empty the reading head always moves; the byte is the
next accepted one only while there is one. -/
theorem preDqueue_advances (h : Represents pb accepted pre deq)
    (hempty : pb.bufferEmptyFlag = false) :
    ∃ data pb', dqueueFromPacketBufferForPreprocessing pb = some (data, pb') ∧
      (deq ≤ pre → pre < accepted.length → accepted[pre]? = some data) ∧
      Represents pb' accepted (pre + 1) deq ∧
      pb'.bufferReadingHead ≠ pb.bufferReadingHead ∧
      pb'.bufferFullFlag = pb.bufferFullFlag := by
  have hnext : next packetBufferLen pb.bufferReadingHead = (pre + 1) % packetBufferLen := by
    rw [h.readingHead, next_mod (by decide)]
  refine ⟨pb.packetBuffer.byte pb.bufferReadingHead, { pb with
      bufferEmptyFlag := false
      bufferReadingHead := next packetBufferLen pb.bufferReadingHead },
    ?_, ?_, ?_, next_ne packetBufferLen_pos _, rfl⟩
  · simp [dqueueFromPacketBufferForPreprocessing, hempty,
      Block.read_natCast _ h.readingHead_lt]
  · intro hge hlt
    rw [h.stores.held pre hge hlt, h.readingHead]
  · exact ⟨h.head, h.tail, hnext, h.stores, h.deq_le, by rw [← h.empty, hempty], h.room⟩

end Operations

end NetWalk.PacketByteRing
