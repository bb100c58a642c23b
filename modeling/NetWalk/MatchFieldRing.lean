import NetWalk.ByteBlock
import NetWalk.RingCursor

/-!
# The match-field buffer

`match_field_buffer` is written like the packet buffer, without a reading head.
Its array is declared with `MTCH_FLD_LEN * NO_OF_MATCH_FIELDS_IN_THE_BUFFER`
cells, its cursors wrap after `match_field_buffer_LEN`, and the second number
is larger. `Fills` describes a buffer whose tail has not left the array yet;
there the ring never wraps, the full flag is never set, and the cursors are the
numbers of bytes accepted and given out.
-/
namespace NetWalk.MatchFieldRing
open ByteBlock RingCursor

/-- `MTCH_FLD_LEN` -/
def mtchFldLen : ℕ := 45

/-- `NO_OF_MATCH_FIELDS_IN_THE_BUFFER` -/
def noOfMatchFieldsInTheBuffer : ℕ := 20

/-- `match_field_buffer_LEN`, where the cursors wrap. -/
def matchFieldBufferLen : ℕ := 1000

/-- The declared size of the array. -/
def matchFieldArraySize : ℕ := mtchFldLen * noOfMatchFieldsInTheBuffer

structure MatchFieldBuffer where
  matchFieldBufferArray : Block matchFieldArraySize
  matchFieldBufferHead : ℕ
  matchFieldBufferTail : ℕ
  bufferFullFlag : Bool
  bufferEmptyFlag : Bool

/-- A buffer in zeroed memory, not yet initialised. -/
def zeroedMatchFieldBuffer : MatchFieldBuffer := ⟨Block.ofFn fun _ => 0, 0, 0, false, false⟩

def initializeMatchFieldBuffer (mfb : MatchFieldBuffer) : MatchFieldBuffer :=
  { mfb with
    matchFieldBufferHead := 0
    matchFieldBufferTail := 0
    bufferFullFlag := false
    bufferEmptyFlag := true }

def addAByteToTheMatchFieldBuffer (mfb : MatchFieldBuffer) (byte : UInt8) :
    Option MatchFieldBuffer :=
  if mfb.bufferFullFlag then some mfb
  else do
    let array ← mfb.matchFieldBufferArray.write mfb.matchFieldBufferTail byte
    let tail := next matchFieldBufferLen mfb.matchFieldBufferTail
    some { mfb with
      matchFieldBufferArray := array
      bufferEmptyFlag := false
      matchFieldBufferTail := tail
      bufferFullFlag := if tail = mfb.matchFieldBufferHead then true else mfb.bufferFullFlag }

def dqueueFromMatchFieldBuffer (mfb : MatchFieldBuffer) : Option (UInt8 × MatchFieldBuffer) :=
  if mfb.bufferEmptyFlag then some (0, mfb)
  else do
    let data ← mfb.matchFieldBufferArray.read mfb.matchFieldBufferHead
    let head := next matchFieldBufferLen mfb.matchFieldBufferHead
    some (data, { mfb with
      matchFieldBufferHead := head
      bufferEmptyFlag := if mfb.matchFieldBufferTail = head then true else false })

/-- On an empty buffer the destination is left as it was. -/
def readAMatchField {n : ℕ} (mfb : MatchFieldBuffer) (mf : Block n) :
    Option (MatchFieldBuffer × Block n) :=
  if mfb.bufferEmptyFlag then some (mfb, mf)
  else fill dqueueFromMatchFieldBuffer mtchFldLen 0 mfb mf

/-- `accepted` has been enqueued without leaving the array, and `deq` bytes of
it have been given out. -/
structure Fills (mfb : MatchFieldBuffer) (accepted : List UInt8) (deq : ℕ) : Prop where
  head : mfb.matchFieldBufferHead = deq
  tail : mfb.matchFieldBufferTail = accepted.length
  inside : accepted.length ≤ matchFieldArraySize
  held : ∀ k, deq ≤ k → k < accepted.length →
    accepted[k]? = some (mfb.matchFieldBufferArray.byte k)
  deq_le : deq ≤ accepted.length
  empty : mfb.bufferEmptyFlag = true ↔ accepted.length = deq
  notFull : mfb.bufferFullFlag = false

theorem arraySize_lt_len : matchFieldArraySize < matchFieldBufferLen := by decide

theorem fills_initialized (mfb : MatchFieldBuffer) :
    Fills (initializeMatchFieldBuffer mfb) [] 0 where
  head := rfl
  tail := rfl
  inside := Nat.zero_le _
  held := fun k _ hk => absurd hk (by simp)
  deq_le := le_rfl
  empty := by simp [initializeMatchFieldBuffer]
  notFull := rfl

section Operations
variable {mfb : MatchFieldBuffer} {accepted : List UInt8} {deq : ℕ}

theorem next_inside {k : ℕ} (hk : k < matchFieldArraySize) :
    next matchFieldBufferLen k = k + 1 := by
  have := arraySize_lt_len
  rw [next, if_neg (by omega)]

theorem addAByte_spec (h : Fills mfb accepted deq)
    (hroom : accepted.length < matchFieldArraySize) (byte : UInt8) :
    ∃ mfb', addAByteToTheMatchFieldBuffer mfb byte = some mfb' ∧
      Fills mfb' (accepted ++ [byte]) deq ∧
      mfb'.matchFieldBufferTail ≠ mfb.matchFieldBufferTail := by
  have hlt : mfb.matchFieldBufferTail < matchFieldArraySize := h.tail ▸ hroom
  have hnext := next_inside hlt
  have hle := h.deq_le
  have hmeet : mfb.matchFieldBufferTail + 1 ≠ mfb.matchFieldBufferHead := by
    rw [h.tail, h.head]
    omega
  refine ⟨{ mfb with
      matchFieldBufferArray := mfb.matchFieldBufferArray.set mfb.matchFieldBufferTail byte
      bufferEmptyFlag := false
      matchFieldBufferTail := mfb.matchFieldBufferTail + 1 }, ?_, ?_, Nat.succ_ne_self _⟩
  · simp [addAByteToTheMatchFieldBuffer, h.notFull, Block.write_natCast _ _ hlt, hnext, hmeet]
  · constructor
    · exact h.head
    · simp [h.tail]
    · simpa [Nat.succ_le_iff] using hroom
    · intro k hk hlen
      simp only [List.length_append, List.length_singleton] at hlen
      rw [Block.byte_set _ _ (by omega), h.tail]
      rcases Nat.lt_or_ge k accepted.length with hold | hnew
      · rw [List.getElem?_append_left hold, if_neg (by omega)]
        exact h.held k hk hold
      · rw [show k = accepted.length by omega]
        simp
    · simp only [List.length_append, List.length_singleton]
      omega
    · simp only [Bool.false_eq_true, List.length_append, List.length_singleton, false_iff]
      omega
    · exact h.notFull

/-- The first byte beyond the declared array is written, not refused. -/
theorem addAByte_overrun (h : Fills mfb accepted deq)
    (hfull : accepted.length = matchFieldArraySize) (byte : UInt8) :
    addAByteToTheMatchFieldBuffer mfb byte = none := by
  have hout : ¬ Block.Inside matchFieldArraySize mfb.matchFieldBufferTail := by
    rw [h.tail, hfull, Block.Inside]
    omega
  simp [addAByteToTheMatchFieldBuffer, h.notFull, Block.write_outside _ _ hout]

theorem dqueue_refused (hempty : mfb.bufferEmptyFlag = true) :
    dqueueFromMatchFieldBuffer mfb = some (0, mfb) := by
  simp [dqueueFromMatchFieldBuffer, hempty]

theorem dqueue_spec (h : Fills mfb accepted deq) (hlt : deq < accepted.length) :
    ∃ data mfb', dqueueFromMatchFieldBuffer mfb = some (data, mfb') ∧
      accepted[deq]? = some data ∧ Fills mfb' accepted (deq + 1) ∧
      mfb'.matchFieldBufferHead ≠ mfb.matchFieldBufferHead := by
  have hin : mfb.matchFieldBufferHead < matchFieldArraySize := by
    rw [h.head]
    exact hlt.trans_le h.inside
  have hempty : mfb.bufferEmptyFlag = false := by
    rw [← Bool.not_eq_true, h.empty]
    omega
  refine ⟨mfb.matchFieldBufferArray.byte mfb.matchFieldBufferHead, { mfb with
      matchFieldBufferHead := mfb.matchFieldBufferHead + 1
      bufferEmptyFlag := decide (mfb.matchFieldBufferTail = mfb.matchFieldBufferHead + 1) },
    ?_, ?_, ?_, Nat.succ_ne_self _⟩
  · simp [dqueueFromMatchFieldBuffer, hempty, Block.read_natCast _ hin, next_inside hin]
  · rw [h.held deq le_rfl hlt, h.head]
  · constructor
    · simp [h.head]
    · exact h.tail
    · exact h.inside
    · exact fun k hk => h.held k (by omega)
    · exact hlt
    · simp [h.head, h.tail]
    · exact h.notFull

theorem readAMatchField_spec (h : Fills mfb accepted deq)
    (hlen : deq + mtchFldLen ≤ accepted.length) {n : ℕ} (mf : Block n) (hn : mtchFldLen ≤ n) :
    ∃ mfb', readAMatchField mfb mf =
        some (mfb', mf.overwrite ((accepted.drop deq).take mtchFldLen)) ∧
      Fills mfb' accepted (deq + mtchFldLen) := by
  have hpos : 0 < mtchFldLen := by decide
  have hnext : ∀ k s, k < mtchFldLen → Fills s accepted (deq + k) →
      ∃ s', dqueueFromMatchFieldBuffer s = some ((accepted[deq + k]?).getD 0, s') ∧
        Fills s' accepted (deq + (k + 1)) := by
    intro k s hk hs
    obtain ⟨data, s', hs', hdata, hfill, -⟩ := dqueue_spec hs (by omega)
    exact ⟨s', by rw [hs', hdata]; rfl, hfill⟩
  obtain ⟨mfb', mf', hfill, hmfb', hmf'⟩ :=
    fill_spec (fun k s => Fills s accepted (deq + k)) _ hnext mtchFldLen 0 0 mf
      (by omega) (by omega) h
  have hempty : mfb.bufferEmptyFlag = false := by
    rw [← Bool.not_eq_true, h.empty]
    omega
  have hsame : mf' = mf.overwrite ((accepted.drop deq).take mtchFldLen) := by
    apply Block.ext_byte
    intro j hj
    rw [hmf' j hj, Block.byte_overwrite _ _ hj]
    by_cases hin : j < mtchFldLen
    · rw [if_pos (by omega), List.getElem?_take_of_lt hin, List.getElem?_drop,
        Nat.zero_add, Nat.sub_zero, List.getElem?_eq_getElem (by omega)]
      rfl
    · rw [if_neg (by omega), List.getElem?_eq_none]
      · rfl
      · simp only [List.length_take, List.length_drop]
        omega
  refine ⟨mfb', ?_, by simpa using hmfb'⟩
  rw [readAMatchField, hempty, if_neg Bool.false_ne_true, hfill, hsame]

end Operations

end NetWalk.MatchFieldRing
