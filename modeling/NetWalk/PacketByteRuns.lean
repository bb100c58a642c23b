import NetWalk.PacketByteRing
import NetWalk.PartialRun

/-!
# Runs of the packet buffer's byte operations

A run is any sequence of the three byte operations on one initialised buffer.
Beside the buffer it records what a caller sees: the bytes of the adds that
moved the tail, and the bytes returned by the calls that moved the reading head
and the head. The record is read off the cursors alone.

First-in first-out order holds of every run. The flags are right, and the
reading head stays between the other two, only in runs that avoid one call
each; both are stated as equivalences.
-/
namespace NetWalk.PacketByteRuns
open ByteBlock RingCursor PacketByteRing PartialRun

inductive Call where
  | add (byte : UInt8)
  | dqueue
  | dqueueForPreprocessing
deriving DecidableEq, Repr

structure History where
  accepted : List UInt8
  preRead : List UInt8
  dequeued : List UInt8
deriving DecidableEq, Repr

structure Observed where
  pb : PacketBuffer
  history : History

def fresh (pb : PacketBuffer) : Observed := ⟨initializePacketBuffer pb, ⟨[], [], []⟩⟩

def Observed.held (s : Observed) : ℕ := s.history.accepted.length - s.history.dequeued.length

def call (s : Observed) : Call → Option Observed
  | .add byte => do
      let pb ← addAByteToThePacketBuffer s.pb byte
      some ⟨pb, if pb.packetBufferTail = s.pb.packetBufferTail then s.history else
        { s.history with accepted := s.history.accepted ++ [byte] }⟩
  | .dqueue => do
      let (data, pb) ← dqueueFromPacketBuffer s.pb
      some ⟨pb, if pb.packetBufferHead = s.pb.packetBufferHead then s.history else
        { s.history with dequeued := s.history.dequeued ++ [data] }⟩
  | .dqueueForPreprocessing => do
      let (data, pb) ← dqueueFromPacketBufferForPreprocessing s.pb
      some ⟨pb, if pb.bufferReadingHead = s.pb.bufferReadingHead then s.history else
        { s.history with preRead := s.history.preRead ++ [data] }⟩

/-- The buffer represents its history, and what came out is what went in first. -/
structure Tracked (s : Observed) : Prop where
  represents : Represents s.pb s.history.accepted s.history.preRead.length
    s.history.dequeued.length
  inOrder : s.history.dequeued <+: s.history.accepted

theorem tracked_fresh (pb : PacketBuffer) : Tracked (fresh pb) :=
  ⟨represents_initialized pb, List.nil_prefix⟩

section Calls
variable {s : Observed}

theorem call_add_refused (byte : UInt8) (hfull : s.pb.bufferFullFlag = true) :
    call s (.add byte) = some s := by
  simp [call, addAByte_refused byte hfull]

theorem call_add_accepted (h : Tracked s) (hfull : s.pb.bufferFullFlag = false)
    (byte : UInt8) :
    ∃ s', call s (.add byte) = some s' ∧ Tracked s' ∧
      s'.history = { s.history with accepted := s.history.accepted ++ [byte] } ∧
      (s'.pb.bufferFullFlag = true ↔ s'.held = packetBufferLen) := by
  obtain ⟨pb', hadd, hrep, hmove, hflag⟩ := addAByte_accepted h.represents hfull byte
  have hle := h.represents.deq_le
  refine ⟨⟨pb', { s.history with accepted := s.history.accepted ++ [byte] }⟩,
    by simp [call, hadd, hmove], ⟨hrep, ?_⟩, rfl, ?_⟩
  · exact h.inOrder.trans (List.prefix_append _ _)
  · rw [hflag]
    simp only [Observed.held, List.length_append, List.length_singleton]
    omega

theorem call_dqueue_refused
    (h : s.pb.bufferEmptyFlag = true ∨ s.pb.bufferReadingHead = s.pb.packetBufferHead) :
    call s .dqueue = some s := by
  rcases h with h | h
  · simp [call, dqueue_refused_empty h]
  · simp [call, dqueue_refused_gate h]

theorem call_dqueue_advances (h : Tracked s) (hempty : s.pb.bufferEmptyFlag = false)
    (hgate : s.pb.bufferReadingHead ≠ s.pb.packetBufferHead) :
    ∃ s' data, call s .dqueue = some s' ∧ Tracked s' ∧
      s.history.accepted[s.history.dequeued.length]? = some data ∧
      s'.history = { s.history with dequeued := s.history.dequeued ++ [data] } ∧
      s'.pb.bufferFullFlag = s.pb.bufferFullFlag := by
  obtain ⟨data, pb', hdq, hdata, hrep, hmove, hflag⟩ :=
    dqueue_advances h.represents hempty hgate
  refine ⟨⟨pb', { s.history with dequeued := s.history.dequeued ++ [data] }⟩, data,
    by simp [call, hdq, hmove], ⟨?_, ?_⟩, hdata, rfl, hflag⟩
  · simpa only [List.length_append, List.length_singleton] using hrep
  · exact prefix_snoc h.inOrder hdata

theorem call_preDqueue_refused (h : s.pb.bufferEmptyFlag = true) :
    call s .dqueueForPreprocessing = some s := by
  simp [call, preDqueue_refused h]

theorem call_preDqueue_advances (h : Tracked s) (hempty : s.pb.bufferEmptyFlag = false) :
    ∃ s' data, call s .dqueueForPreprocessing = some s' ∧ Tracked s' ∧
      (s.history.dequeued.length ≤ s.history.preRead.length →
        s.history.preRead.length < s.history.accepted.length →
        s.history.accepted[s.history.preRead.length]? = some data) ∧
      s'.history = { s.history with preRead := s.history.preRead ++ [data] } ∧
      s'.pb.bufferFullFlag = s.pb.bufferFullFlag := by
  obtain ⟨data, pb', hdq, hdata, hrep, hmove, hflag⟩ :=
    preDqueue_advances h.represents hempty
  refine ⟨⟨pb', { s.history with preRead := s.history.preRead ++ [data] }⟩, data,
    by simp [call, hdq, hmove], ⟨?_, h.inOrder⟩, hdata, rfl, hflag⟩
  simpa only [List.length_append, List.length_singleton] using hrep

theorem call_tracked (h : Tracked s) (c : Call) : ∃ s', call s c = some s' ∧ Tracked s' := by
  cases c with
  | add byte =>
    cases hf : s.pb.bufferFullFlag with
    | true => exact ⟨s, call_add_refused byte hf, h⟩
    | false =>
      obtain ⟨s', hs', ht, -⟩ := call_add_accepted h hf byte
      exact ⟨s', hs', ht⟩
  | dqueue =>
    by_cases hr : s.pb.bufferEmptyFlag = true ∨ s.pb.bufferReadingHead = s.pb.packetBufferHead
    · exact ⟨s, call_dqueue_refused hr, h⟩
    · rw [not_or, Bool.not_eq_true] at hr
      obtain ⟨s', data, hs', ht, -⟩ := call_dqueue_advances h hr.1 hr.2
      exact ⟨s', hs', ht⟩
  | dqueueForPreprocessing =>
    cases he : s.pb.bufferEmptyFlag with
    | true => exact ⟨s, call_preDqueue_refused he, h⟩
    | false =>
      obtain ⟨s', data, hs', ht, -⟩ := call_preDqueue_advances h he
      exact ⟨s', hs', ht⟩

end Calls

/-- The byte ring as a queue: nothing lost, repeated or out of order, at most
one ring full of bytes held, and every cursor inside the array. -/
structure Fifo (s : Observed) : Prop where
  inOrder : s.history.dequeued <+: s.history.accepted
  bounded : s.held ≤ packetBufferLen
  head : s.pb.packetBufferHead < packetBufferLen
  readingHead : s.pb.bufferReadingHead < packetBufferLen
  tail : s.pb.packetBufferTail < packetBufferLen

theorem Tracked.fifo {s : Observed} (h : Tracked s) : Fifo s where
  inOrder := h.inOrder
  bounded := by
    have := h.represents.stores.fits
    unfold Observed.held
    omega
  head := h.represents.head_lt
  readingHead := h.represents.readingHead_lt
  tail := h.represents.tail_lt

theorem calls_fifo (pb : PacketBuffer) (calls : List Call) :
    Throughout call Fifo (fresh pb) calls :=
  (throughout_of_step (fun _ c h => call_tracked h c) (tracked_fresh pb) calls).mono
    fun _ h => h.fifo

/-- The ring takes `packetBufferLen` bytes in a row, and the last one sets the
full flag. -/
theorem run_adds (pb : PacketBuffer) (byte : UInt8) (k : ℕ) (hk : k ≤ packetBufferLen) :
    ∃ s, run call (fresh pb) (List.replicate k (.add byte)) = some s ∧ Tracked s ∧
      s.history = ⟨List.replicate k byte, [], []⟩ ∧
      (s.pb.bufferFullFlag = true ↔ s.held = packetBufferLen) := by
  induction k with
  | zero => exact ⟨fresh pb, rfl, tracked_fresh pb, rfl, by simp [fresh,
      initializePacketBuffer, Observed.held, packetBufferLen]⟩
  | succ k ih =>
    obtain ⟨s, hs, ht, hhist, hflag⟩ := ih (by omega)
    have hfull : s.pb.bufferFullFlag = false := by
      rw [← Bool.not_eq_true, hflag]
      simp only [Observed.held, hhist, List.length_replicate, List.length_nil]
      omega
    obtain ⟨s', hs', ht', hhist', hflag'⟩ := call_add_accepted ht hfull byte
    refine ⟨s', ?_, ht', ?_, hflag'⟩
    · rw [List.replicate_succ', run_append, hs]
      simp [run_cons, hs']
    · rw [hhist', hhist, List.replicate_succ']

/-- The full flag is set exactly when the ring is full and the empty flag
exactly when nothing is held, so that a refused add finds no free cell. -/
structure FlagsTruthful (s : Observed) : Prop where
  full : s.pb.bufferFullFlag = true ↔ s.held = packetBufferLen
  empty : s.pb.bufferEmptyFlag = true ↔ s.held = 0
  refusal : ∀ byte, addAByteToThePacketBuffer s.pb byte = some s.pb → s.held = packetBufferLen

/-- No dequeue gets past its tests while the full flag is set. -/
def NotDrainedWhenFull (s : Observed) (c : Call) : Prop :=
  c = .dqueue → s.pb.bufferFullFlag = true → s.pb.bufferReadingHead = s.pb.packetBufferHead

theorem Tracked.empty {s : Observed} (h : Tracked s) :
    s.pb.bufferEmptyFlag = true ↔ s.held = 0 := by
  have := h.represents.deq_le
  rw [h.represents.empty, Observed.held]
  omega

theorem flagsTruthful_of_full {s : Observed} (h : Tracked s)
    (hfull : s.pb.bufferFullFlag = true ↔ s.held = packetBufferLen) : FlagsTruthful s where
  full := hfull
  empty := h.empty
  refusal := by
    intro byte hadd
    rw [← hfull]
    by_contra hf
    rw [Bool.not_eq_true] at hf
    obtain ⟨pb', hpb', -, hmove, -⟩ := addAByte_accepted h.represents hf byte
    rw [hadd] at hpb'
    cases hpb'
    exact hmove rfl

/-- The full flag is right, besides what holds after every call. -/
structure FullFlagRight (s : Observed) : Prop extends Tracked s where
  full : s.pb.bufferFullFlag = true ↔ s.held = packetBufferLen

theorem call_fullFlagRight (s : Observed) (c : Call) (h : FullFlagRight s)
    (hc : NotDrainedWhenFull s c) : ∃ s', call s c = some s' ∧ FullFlagRight s' := by
  have ht := h.toTracked
  cases c with
  | add byte =>
    cases hf : s.pb.bufferFullFlag with
    | true => exact ⟨s, call_add_refused byte hf, h⟩
    | false =>
      obtain ⟨s', hs', ht', -, hfull'⟩ := call_add_accepted ht hf byte
      exact ⟨s', hs', ht', hfull'⟩
  | dqueue =>
    by_cases hr : s.pb.bufferEmptyFlag = true ∨
        s.pb.bufferReadingHead = s.pb.packetBufferHead
    · exact ⟨s, call_dqueue_refused hr, h⟩
    · rw [not_or, Bool.not_eq_true] at hr
      obtain ⟨s', data, hs', ht', -, hhist, hflag⟩ := call_dqueue_advances ht hr.1 hr.2
      have hnot : s.pb.bufferFullFlag = false := by
        rw [← Bool.not_eq_true]
        exact fun hf => hr.2 (hc rfl hf)
      have hle := ht'.represents.deq_le
      simp only [hhist, List.length_append, List.length_singleton] at hle
      have hroom := ht.represents.room hnot
      refine ⟨s', hs', ht', ?_⟩
      rw [hflag, hnot]
      simp only [Bool.false_eq_true, false_iff, Observed.held, hhist,
        List.length_append, List.length_singleton]
      omega
  | dqueueForPreprocessing =>
    cases he : s.pb.bufferEmptyFlag with
    | true => exact ⟨s, call_preDqueue_refused he, h⟩
    | false =>
      obtain ⟨s', data, hs', ht', -, hhist, hflag⟩ := call_preDqueue_advances ht he
      exact ⟨s', hs', ht', by rw [hflag, h.full]; simp [Observed.held, hhist]⟩

/-- The only step outside the condition is a dequeue of a full ring. -/
theorem call_drains (s : Observed) (c : Call) (h : FullFlagRight s)
    (hc : ¬ NotDrainedWhenFull s c) : ∀ s', call s c = some s' → ¬ FlagsTruthful s' := by
  intro s' hs' htrue
  have ht := h.toTracked
  simp only [NotDrainedWhenFull, Classical.not_imp] at hc
  obtain ⟨rfl, hf, hgate⟩ := hc
  have hheld := h.full.mp hf
  have he : s.pb.bufferEmptyFlag = false := by
    rw [← Bool.not_eq_true, ht.empty, hheld]
    decide
  obtain ⟨t, data, hst, ht', -, hhist, hflag⟩ := call_dqueue_advances ht he hgate
  cases hs'.symm.trans hst
  have hheld' := htrue.full.mp (hflag.trans hf)
  simp only [Observed.held, hhist, List.length_append, List.length_singleton] at hheld hheld'
  have := packetBufferLen_pos
  omega

/-- The full flag is never cleared, so it lies from the first byte taken out of
a full ring on, and before that it is right. -/
theorem flags_truthful_iff (pb : PacketBuffer) (calls : List Call) :
    Throughout call FlagsTruthful (fresh pb) calls ↔
      Along call NotDrainedWhenFull (fresh pb) calls := by
  have hstart : FullFlagRight (fresh pb) := ⟨tracked_fresh pb, by
    simp [fresh, initializePacketBuffer, Observed.held, packetBufferLen]⟩
  exact throughout_iff_along FullFlagRight call_fullFlagRight call_drains
    (fun s h => flagsTruthful_of_full h.toTracked h.full) hstart

/-- Filled, looked at and drained by one byte, the ring still claims to be full. -/
theorem flags_untruthful_after_drain :
    ¬ Throughout call FlagsTruthful (fresh zeroedPacketBuffer)
      (List.replicate packetBufferLen (.add 7) ++ [.dqueueForPreprocessing, .dqueue]) := by
  obtain ⟨s, hs, ht, hhist, hflag⟩ :=
    run_adds zeroedPacketBuffer 7 packetBufferLen le_rfl
  have hpos := packetBufferLen_pos
  have hheld : s.held = packetBufferLen := by
    simp only [Observed.held, hhist, List.length_replicate, List.length_nil, Nat.sub_zero]
  have he : s.pb.bufferEmptyFlag = false := by
    rw [← Bool.not_eq_true, ht.empty]
    omega
  obtain ⟨t, data, hst, ht', -, hhist', hflag'⟩ := call_preDqueue_advances ht he
  have hgate : t.pb.bufferReadingHead ≠ t.pb.packetBufferHead := by
    rw [ht'.represents.readingHead, ht'.represents.head]
    simp only [hhist', hhist, List.nil_append, List.length_singleton, List.length_nil]
    rw [Nat.mod_eq_of_lt hpos, Nat.zero_mod]
    exact Nat.one_ne_zero
  have hheld' : t.held = packetBufferLen := by
    rw [← hheld]
    simp only [Observed.held, hhist']
  have he' : t.pb.bufferEmptyFlag = false := by
    rw [← Bool.not_eq_true, ht'.empty]
    omega
  obtain ⟨u, data', htu, -, -, hhist'', hflag''⟩ := call_dqueue_advances ht' he' hgate
  intro h
  obtain ⟨v, hv, htrue⟩ := h.last
  rw [run_append, hs] at hv
  simp only [Option.bind_some, run_cons, hst, htu, run_nil, Option.some.injEq] at hv
  subst hv
  have hlie := htrue.full.mp (hflag''.trans (hflag'.trans (hflag.mpr hheld)))
  simp only [Observed.held, hhist'', List.length_append, List.length_singleton] at hlie hheld'
  omega

/-- The reading head is nowhere before the head or past the tail: it has read
accepted bytes only, and no byte left unread. -/
structure Ordered (s : Observed) : Prop where
  deq_le_pre : s.history.dequeued.length ≤ s.history.preRead.length
  pre_le_acc : s.history.preRead.length ≤ s.history.accepted.length
  preRead : s.history.preRead <+: s.history.accepted
  dequeued : s.history.dequeued <+: s.history.preRead

/-- A pre-processing read is made on an empty ring, where it is refused, or
while some accepted byte has not been pre-read. -/
def NoOverRead (s : Observed) (c : Call) : Prop :=
  c = .dqueueForPreprocessing → s.pb.bufferEmptyFlag = false →
    s.history.preRead.length < s.history.accepted.length

/-- The reading head is in order, besides what holds after every call. -/
structure ReadsInOrder (s : Observed) : Prop extends Tracked s where
  deq_le_pre : s.history.dequeued.length ≤ s.history.preRead.length
  preRead : s.history.preRead <+: s.history.accepted

theorem ReadsInOrder.ordered {s : Observed} (h : ReadsInOrder s) : Ordered s where
  deq_le_pre := h.deq_le_pre
  pre_le_acc := h.preRead.length_le
  preRead := h.preRead
  dequeued := List.prefix_of_prefix_length_le h.inOrder h.preRead h.deq_le_pre

theorem call_readsInOrder (s : Observed) (c : Call) (h : ReadsInOrder s)
    (hc : NoOverRead s c) : ∃ s', call s c = some s' ∧ ReadsInOrder s' := by
  have ht := h.toTracked
  have hle := h.deq_le_pre
  cases c with
  | add byte =>
    cases hf : s.pb.bufferFullFlag with
    | true => exact ⟨s, call_add_refused byte hf, h⟩
    | false =>
      obtain ⟨s', hs', ht', hhist, -⟩ := call_add_accepted ht hf byte
      exact ⟨s', hs', ht', by rw [hhist]; exact hle,
        by rw [hhist]; exact h.preRead.trans (List.prefix_append _ _)⟩
  | dqueue =>
    by_cases hr : s.pb.bufferEmptyFlag = true ∨
        s.pb.bufferReadingHead = s.pb.packetBufferHead
    · exact ⟨s, call_dqueue_refused hr, h⟩
    · rw [not_or, Bool.not_eq_true] at hr
      obtain ⟨s', data, hs', ht', -, hhist, -⟩ := call_dqueue_advances ht hr.1 hr.2
      -- heads that are level would stand on one cell, and the gate would refuse
      have hlt : s.history.dequeued.length < s.history.preRead.length := by
        refine lt_of_le_of_ne hle fun he => hr.2 ?_
        rw [ht.represents.readingHead, ht.represents.head, he]
      exact ⟨s', hs', ht', by rw [hhist]; simpa [Nat.succ_le_iff] using hlt,
        by rw [hhist]; exact h.preRead⟩
  | dqueueForPreprocessing =>
    cases he : s.pb.bufferEmptyFlag with
    | true => exact ⟨s, call_preDqueue_refused he, h⟩
    | false =>
      obtain ⟨s', data, hs', ht', hdata, hhist, -⟩ := call_preDqueue_advances ht he
      refine ⟨s', hs', ht', ?_, ?_⟩
      · rw [hhist]
        simp only [List.length_append, List.length_singleton]
        omega
      · rw [hhist]
        exact prefix_snoc h.preRead (hdata hle (hc rfl he))

theorem call_overreads (s : Observed) (c : Call) (h : ReadsInOrder s) (hc : ¬ NoOverRead s c) :
    ∀ s', call s c = some s' → ¬ Ordered s' := by
  intro s' hs' hord
  simp only [NoOverRead, Classical.not_imp] at hc
  obtain ⟨rfl, he, hover⟩ := hc
  obtain ⟨t, data, hst, -, -, hhist, -⟩ := call_preDqueue_advances h.toTracked he
  cases hs'.symm.trans hst
  have := hord.pre_le_acc
  simp only [hhist, List.length_append, List.length_singleton] at this
  omega

theorem reading_head_ordered_iff (pb : PacketBuffer) (calls : List Call) :
    Throughout call Ordered (fresh pb) calls ↔ Along call NoOverRead (fresh pb) calls :=
  throughout_iff_along ReadsInOrder call_readsInOrder call_overreads
    (fun _ h => h.ordered) ⟨tracked_fresh pb, le_rfl, List.nil_prefix⟩

/-- Two pre-processing reads after one add: the second returns a byte that was
never enqueued. -/
theorem reading_head_overruns :
    ¬ Throughout call Ordered (fresh zeroedPacketBuffer)
      [.add 7, .dqueueForPreprocessing, .dqueueForPreprocessing] := by
  intro h
  obtain ⟨s, hs, hord⟩ := h.last
  have hcount : (run call (fresh zeroedPacketBuffer)
      [.add 7, .dqueueForPreprocessing, .dqueueForPreprocessing]).map
      (fun s => (s.history.preRead.length, s.history.accepted.length)) = some (2, 1) := by
    decide
  rw [hs] at hcount
  simp only [Option.map_some, Option.some.injEq, Prod.mk.injEq] at hcount
  have := hord.pre_le_acc
  omega

/-- Bytes that have been pre-read and not dequeued. -/
def Observed.ahead (s : Observed) : ℕ := s.history.preRead.length - s.history.dequeued.length

/-- A dequeue moves the head by one cell exactly while a pre-read byte has not been
dequeued. -/
def DequeuesPreRead (s : Observed) : Prop :=
  ∃ data pb', dqueueFromPacketBuffer s.pb = some (data, pb') ∧
    pb'.packetBufferHead =
      if 0 < s.ahead then next packetBufferLen s.pb.packetBufferHead else s.pb.packetBufferHead

/-- Pre-processing reads are made only while an accepted byte has not been pre-read. -/
def ReadsAccepted (s : Observed) (c : Call) : Prop :=
  c = .dqueueForPreprocessing → s.history.preRead.length < s.history.accepted.length

instance (s : Observed) (c : Call) : Decidable (ReadsAccepted s c) :=
  inferInstanceAs (Decidable (c = .dqueueForPreprocessing →
    s.history.preRead.length < s.history.accepted.length))

/-- No pre-processing read takes the reading head a whole lap ahead of the head. -/
def StaysWithinLap (s : Observed) (c : Call) : Prop :=
  c = .dqueueForPreprocessing →
    s.history.preRead.length + 1 ≠ s.history.dequeued.length + packetBufferLen

/-- The two heads stand on one cell when nothing is ahead, or a whole lap. -/
theorem gate_iff {s : Observed} (h : ReadsInOrder s) :
    s.pb.bufferReadingHead = s.pb.packetBufferHead ↔ s.ahead = 0 ∨ s.ahead = packetBufferLen := by
  have hfits := h.represents.stores.fits
  have hpre := h.preRead.length_le
  have hdeq := h.deq_le_pre
  rw [h.represents.readingHead, h.represents.head, mod_eq_mod_iff hdeq (hpre.trans hfits),
    Observed.ahead]
  omega

theorem dequeuesPreRead_iff {s : Observed} (h : ReadsInOrder s) :
    DequeuesPreRead s ↔ s.ahead ≠ packetBufferLen := by
  have hnext : next packetBufferLen s.pb.packetBufferHead ≠ s.pb.packetBufferHead :=
    next_ne packetBufferLen_pos _
  by_cases hgate : s.pb.bufferReadingHead = s.pb.packetBufferHead
  · have hrefused := dqueue_refused_gate hgate
    rcases (gate_iff h).mp hgate with hnone | hlap
    · refine iff_of_true ⟨0, s.pb, hrefused, ?_⟩ ?_
      · rw [if_neg (by omega)]
      · rw [hnone]
        decide
    · refine iff_of_false ?_ (not_not.mpr hlap)
      rintro ⟨data, pb', hdq, hhead⟩
      cases hrefused.symm.trans hdq
      rw [hlap, if_pos (by decide)] at hhead
      exact hnext hhead.symm
  · obtain ⟨hsome, hlap⟩ := not_or.mp (mt (gate_iff h).mpr hgate)
    have hacc := h.preRead.length_le
    have hempty : s.pb.bufferEmptyFlag = false := by
      rw [← Bool.not_eq_true, h.toTracked.empty, Observed.held]
      rw [Observed.ahead] at hsome
      omega
    obtain ⟨data, pb', hdq, -, hrep, -⟩ := dqueue_advances h.represents hempty hgate
    refine iff_of_true ⟨data, pb', hdq, ?_⟩ hlap
    rw [if_pos (Nat.pos_of_ne_zero hsome), hrep.head, h.represents.head, next_mod (by decide)]

/-- What one call does to the two numbers that decide how far the reading head is ahead. -/
theorem call_counts {s s' : Observed} {c : Call} (h : Tracked s) (hs : call s c = some s') :
    s.history.dequeued.length ≤ s'.history.dequeued.length ∧
      s'.history.preRead.length ≤
        s.history.preRead.length + if c = .dqueueForPreprocessing then 1 else 0 := by
  cases c with
  | add byte =>
    cases hf : s.pb.bufferFullFlag with
    | true =>
      cases hs.symm.trans (call_add_refused byte hf)
      exact ⟨le_rfl, le_rfl⟩
    | false =>
      obtain ⟨t, ht, -, hhist, -⟩ := call_add_accepted h hf byte
      cases hs.symm.trans ht
      rw [hhist]
      exact ⟨le_rfl, le_rfl⟩
  | dqueue =>
    by_cases hr : s.pb.bufferEmptyFlag = true ∨ s.pb.bufferReadingHead = s.pb.packetBufferHead
    · cases hs.symm.trans (call_dqueue_refused hr)
      exact ⟨le_rfl, le_rfl⟩
    · rw [not_or, Bool.not_eq_true] at hr
      obtain ⟨t, data, ht, -, -, hhist, -⟩ := call_dqueue_advances h hr.1 hr.2
      cases hs.symm.trans ht
      rw [hhist]
      exact ⟨by simp, le_rfl⟩
  | dqueueForPreprocessing =>
    cases he : s.pb.bufferEmptyFlag with
    | true =>
      cases hs.symm.trans (call_preDqueue_refused he)
      exact ⟨le_rfl, Nat.le_succ _⟩
    | false =>
      obtain ⟨t, data, ht, -, -, hhist, -⟩ := call_preDqueue_advances h he
      cases hs.symm.trans ht
      rw [hhist]
      exact ⟨le_rfl, by simp⟩

/-- The reading head is in order and less than a lap ahead. -/
structure WithinLap (s : Observed) : Prop extends ReadsInOrder s where
  lap : s.history.preRead.length < s.history.dequeued.length + packetBufferLen

theorem WithinLap.dequeues {s : Observed} (h : WithinLap s) : DequeuesPreRead s := by
  have hlap := h.lap
  have hdeq := h.deq_le_pre
  rw [dequeuesPreRead_iff h.toReadsInOrder, Observed.ahead]
  omega

theorem call_withinLap (s : Observed) (c : Call) (h : WithinLap s) (hused : ReadsAccepted s c)
    (hc : StaysWithinLap s c) : ∃ s', call s c = some s' ∧ WithinLap s' := by
  obtain ⟨s', hs', h'⟩ := call_readsInOrder s c h.toReadsInOrder fun hpre _ => hused hpre
  obtain ⟨hdeq, hpre⟩ := call_counts h.toTracked hs'
  have hlap := h.lap
  refine ⟨s', hs', h', ?_⟩
  split_ifs at hpre with hread
  · have := hc hread
    omega
  · omega

theorem call_laps (s : Observed) (c : Call) (h : WithinLap s) (hused : ReadsAccepted s c)
    (hc : ¬ StaysWithinLap s c) : ∀ s', call s c = some s' → ¬ DequeuesPreRead s' := by
  intro s' hs'
  simp only [StaysWithinLap, Classical.not_imp, not_not] at hc
  obtain ⟨rfl, hlap⟩ := hc
  have hacc := hused rfl
  have hdeq := h.deq_le_pre
  have hempty : s.pb.bufferEmptyFlag = false := by
    rw [← Bool.not_eq_true, h.toTracked.empty, Observed.held]
    omega
  obtain ⟨t, ht, h'⟩ := call_readsInOrder s _ h.toReadsInOrder fun _ _ => hacc
  cases hs'.symm.trans ht
  obtain ⟨u, data, hu, -, -, hhist, -⟩ := call_preDqueue_advances h.toTracked hempty
  cases hs'.symm.trans hu
  rw [dequeuesPreRead_iff h', not_not, Observed.ahead, hhist]
  simp only [List.length_append, List.length_singleton]
  omega

/-- A pre-read byte can be dequeued unless a whole ring of them is waiting: then
the gate takes the two heads on one cell for nothing pre-read, and stays shut. -/
theorem pre_read_dequeued_iff (pb : PacketBuffer) (calls : List Call)
    (hused : Along call ReadsAccepted (fresh pb) calls) :
    Throughout call DequeuesPreRead (fresh pb) calls ↔ Along call StaysWithinLap (fresh pb) calls :=
  throughout_iff_along_of WithinLap ReadsAccepted call_withinLap call_laps
    (fun _ h => h.dequeues)
    ⟨⟨tracked_fresh pb, le_rfl, List.nil_prefix⟩, show 0 < 0 + packetBufferLen by decide⟩ hused

/-- Two bytes, of which the first is pre-read and dequeued. -/
theorem first_of_two_dequeued :
    Throughout call DequeuesPreRead (fresh zeroedPacketBuffer)
        [.add 7, .add 8, .dqueueForPreprocessing, .dqueue] ↔
      Along call StaysWithinLap (fresh zeroedPacketBuffer)
        [.add 7, .add 8, .dqueueForPreprocessing, .dqueue] :=
  pre_read_dequeued_iff zeroedPacketBuffer _ (by decide)

/-- While a full ring is pre-read, each byte read ahead waits. -/
theorem run_preReads (k : ℕ) {s : Observed} (h : ReadsInOrder s)
    (hacc : s.history.accepted.length = packetBufferLen) (hdeq : s.history.dequeued = [])
    (hk : s.history.preRead.length + k ≤ packetBufferLen) :
    Along call ReadsAccepted s (List.replicate k .dqueueForPreprocessing) ∧
      ∃ t, run call s (List.replicate k .dqueueForPreprocessing) = some t ∧ ReadsInOrder t ∧
        t.ahead = s.history.preRead.length + k := by
  induction k generalizing s with
  | zero => exact ⟨trivial, s, rfl, h, by simp [Observed.ahead, hdeq]⟩
  | succ k ih =>
    have hempty : s.pb.bufferEmptyFlag = false := by
      rw [← Bool.not_eq_true, h.toTracked.empty, Observed.held, hacc, hdeq]
      decide
    obtain ⟨s', hs', h'⟩ := call_readsInOrder s .dqueueForPreprocessing h fun _ _ => by omega
    obtain ⟨t, data, ht, -, -, hhist, -⟩ := call_preDqueue_advances h.toTracked hempty
    cases hs'.symm.trans ht
    have hlen : s'.history.preRead.length = s.history.preRead.length + 1 := by simp [hhist]
    obtain ⟨halong, u, hrun, hu, hahead⟩ := ih h' (by rw [hhist]; exact hacc)
      (by rw [hhist]; exact hdeq) (by omega)
    refine ⟨⟨fun _ => by omega, fun v hv => ?_⟩, u, ?_, hu, by omega⟩
    · cases hs'.symm.trans hv
      exact halong
    · rw [List.replicate_succ, run_cons, hs']
      exact hrun

/-- The ring is filled and all of it pre-read: the gate refuses the first byte. -/
theorem full_lap_refused :
    let calls : List Call := List.replicate packetBufferLen (.add 7) ++
      List.replicate packetBufferLen .dqueueForPreprocessing
    Along call ReadsAccepted (fresh zeroedPacketBuffer) calls ∧
      ¬ Throughout call DequeuesPreRead (fresh zeroedPacketBuffer) calls := by
  intro calls
  obtain ⟨s, hs, ht, hhist, -⟩ := run_adds zeroedPacketBuffer 7 packetBufferLen le_rfl
  have horder : ReadsInOrder s := ⟨ht, by simp [hhist], by simp [hhist]⟩
  obtain ⟨halong, t, hrun, horder', hahead⟩ := run_preReads packetBufferLen horder
    (by simp [hhist]) (by rw [hhist]) (by simp [hhist])
  refine ⟨along_append (along_of_forall ?_ _) fun s' hs' => ?_, fun h => ?_⟩
  · intro c hc s' hpre
    rw [List.eq_of_mem_replicate hc] at hpre
    cases hpre
  · cases hs.symm.trans hs'
    exact halong
  · obtain ⟨t', ht', hdequeues⟩ := h.last
    rw [run_append, hs, Option.bind_some, hrun] at ht'
    cases ht'
    refine (dequeuesPreRead_iff horder').mp hdequeues ?_
    simpa [hhist] using hahead

end NetWalk.PacketByteRuns
