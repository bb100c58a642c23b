import NetWalk.MatchFieldRing
import NetWalk.PartialRun

/-!
# Runs of the match-field buffer's byte operations

The array is smaller than the distance after which the cursors wrap, so the
buffer is a bounded queue for exactly as many adds as the array has cells, over
the whole run and however many bytes were given out in between.
-/
namespace NetWalk.MatchFieldRuns
open ByteBlock MatchFieldRing PartialRun

inductive MfCall where
  | add (byte : UInt8)
  | dqueue
deriving DecidableEq, Repr

structure MfObserved where
  mfb : MatchFieldBuffer
  accepted : List UInt8
  dequeued : List UInt8

def freshMf (mfb : MatchFieldBuffer) : MfObserved := ⟨initializeMatchFieldBuffer mfb, [], []⟩

/-- As for the packet buffer, the record of a run is read off the cursors. -/
def mfCall (s : MfObserved) : MfCall → Option MfObserved
  | .add byte => do
      let mfb ← addAByteToTheMatchFieldBuffer s.mfb byte
      some { s with
        mfb := mfb
        accepted := if mfb.matchFieldBufferTail = s.mfb.matchFieldBufferTail then s.accepted
          else s.accepted ++ [byte] }
  | .dqueue => do
      let (data, mfb) ← dqueueFromMatchFieldBuffer s.mfb
      some { s with
        mfb := mfb
        dequeued := if mfb.matchFieldBufferHead = s.mfb.matchFieldBufferHead then s.dequeued
          else s.dequeued ++ [data] }

def InOrder (s : MfObserved) : Prop := s.dequeued <+: s.accepted

/-- An add is refused exactly when as many bytes are held as the array has cells. -/
def RefusesWhenFull (s : MfObserved) : MfCall → Prop
  | .add byte => addAByteToTheMatchFieldBuffer s.mfb byte = some s.mfb ↔
      s.accepted.length - s.dequeued.length = matchFieldArraySize
  | .dqueue => True

/-- The run stays inside the array, gives bytes out in the order they came in,
and refuses adds for lack of room only. -/
structure BoundedFifo (mfb : MatchFieldBuffer) (calls : List MfCall) : Prop where
  inOrder : Throughout mfCall InOrder (freshMf mfb) calls
  refuses : Along mfCall RefusesWhenFull (freshMf mfb) calls

def MfCall.isAdd : MfCall → Bool
  | .add _ => true
  | .dqueue => false

structure MfTracked (s : MfObserved) : Prop where
  fills : Fills s.mfb s.accepted s.dequeued.length
  inOrder : s.dequeued <+: s.accepted

theorem mfTracked_fresh (mfb : MatchFieldBuffer) : MfTracked (freshMf mfb) :=
  ⟨fills_initialized mfb, List.nil_prefix⟩

section Calls
variable {s : MfObserved}

theorem mfCall_add (h : MfTracked s) (hroom : s.accepted.length < matchFieldArraySize)
    (byte : UInt8) :
    ∃ s', mfCall s (.add byte) = some s' ∧ MfTracked s' ∧
      s'.accepted.length = s.accepted.length + 1 ∧ RefusesWhenFull s (.add byte) := by
  obtain ⟨mfb', hadd, hfills, hmove⟩ := addAByte_spec h.fills hroom byte
  refine ⟨⟨mfb', s.accepted ++ [byte], s.dequeued⟩, by simp [mfCall, hadd, hmove],
    ⟨hfills, h.inOrder.trans (List.prefix_append _ _)⟩, by simp, ?_⟩
  have hne : mfb' ≠ s.mfb := fun he => hmove (by rw [he])
  simp only [RefusesWhenFull, hadd, Option.some.injEq, hne, false_iff]
  omega

theorem mfCall_add_overrun (h : MfTracked s) (hfull : s.accepted.length = matchFieldArraySize)
    (byte : UInt8) : mfCall s (.add byte) = none := by
  simp [mfCall, addAByte_overrun h.fills hfull byte]

theorem mfCall_dqueue (h : MfTracked s) :
    ∃ s', mfCall s .dqueue = some s' ∧ MfTracked s' ∧ s'.accepted = s.accepted := by
  by_cases hlt : s.dequeued.length < s.accepted.length
  · obtain ⟨data, mfb', hdq, hdata, hfills, hmove⟩ := dqueue_spec h.fills hlt
    refine ⟨⟨mfb', s.accepted, s.dequeued ++ [data]⟩, by simp [mfCall, hdq, hmove],
      ⟨by simpa using hfills, ?_⟩, rfl⟩
    exact RingCursor.prefix_snoc h.inOrder hdata
  · have hempty : s.mfb.bufferEmptyFlag = true := by
      rw [h.fills.empty]
      have := h.fills.deq_le
      omega
    exact ⟨s, by simp [mfCall, dqueue_refused hempty], h, rfl⟩

end Calls

/-- As long as the adds of the run fit the array, every step is as it should be. -/
theorem boundedFifo_of_adds_le {s : MfObserved} (h : MfTracked s) (calls : List MfCall)
    (hadds : s.accepted.length + calls.countP MfCall.isAdd ≤ matchFieldArraySize) :
    Throughout mfCall InOrder s calls ∧ Along mfCall RefusesWhenFull s calls := by
  induction calls generalizing s with
  | nil => exact ⟨(throughout_nil s).mpr h.inOrder, trivial⟩
  | cons c calls ih =>
    obtain ⟨s', hs', ht', hcount, hrefuse⟩ : ∃ s', mfCall s c = some s' ∧ MfTracked s' ∧
        s'.accepted.length + calls.countP MfCall.isAdd ≤ matchFieldArraySize ∧
        RefusesWhenFull s c := by
      cases c with
      | add byte =>
        simp only [List.countP_cons, MfCall.isAdd, if_true] at hadds
        obtain ⟨s', hs', ht', hlen, hrefuse⟩ := mfCall_add h (by omega) byte
        exact ⟨s', hs', ht', by omega, hrefuse⟩
      | dqueue =>
        simp only [List.countP_cons, MfCall.isAdd, Bool.false_eq_true, if_false] at hadds
        obtain ⟨s', hs', ht', hlen⟩ := mfCall_dqueue h
        exact ⟨s', hs', ht', by rw [hlen]; omega, trivial⟩
    obtain ⟨hrest, hrest'⟩ := ih ht' hcount
    refine ⟨(throughout_cons s c calls).mpr ⟨h.inOrder, s', hs', hrest⟩, hrefuse, ?_⟩
    intro t ht
    cases hs'.symm.trans ht
    exact hrest'

/-- One add more than the array has cells, and some step leaves the array. -/
theorem not_throughout_of_adds_gt {s : MfObserved} (h : MfTracked s) (calls : List MfCall)
    (hadds : matchFieldArraySize < s.accepted.length + calls.countP MfCall.isAdd) :
    ¬ Throughout mfCall InOrder s calls := by
  induction calls generalizing s with
  | nil =>
    have := h.fills.inside
    simp only [List.countP_nil] at hadds
    omega
  | cons c calls ih =>
    rw [throughout_cons]
    rintro ⟨-, s', hs', hrest⟩
    cases c with
    | add byte =>
      simp only [List.countP_cons, MfCall.isAdd, if_true] at hadds
      rcases Nat.lt_or_ge s.accepted.length matchFieldArraySize with hlt | hge
      · obtain ⟨t, ht, htr, hlen, -⟩ := mfCall_add h hlt byte
        cases hs'.symm.trans ht
        exact ih htr (by omega) hrest
      · have hfull := le_antisymm h.fills.inside hge
        rw [mfCall_add_overrun h hfull byte] at hs'
        cases hs'
    | dqueue =>
      simp only [List.countP_cons, MfCall.isAdd, Bool.false_eq_true, if_false] at hadds
      obtain ⟨t, ht, htr, hlen⟩ := mfCall_dqueue h
      cases hs'.symm.trans ht
      exact ih htr (by rw [hlen]; omega) hrest

theorem bounded_fifo_iff (mfb : MatchFieldBuffer) (calls : List MfCall) :
    BoundedFifo mfb calls ↔ calls.countP MfCall.isAdd ≤ matchFieldArraySize := by
  constructor
  · intro h
    by_contra hgt
    exact not_throughout_of_adds_gt (mfTracked_fresh mfb) calls
      (by simp only [freshMf, List.length_nil]; omega) h.inOrder
  · intro hle
    obtain ⟨h, h'⟩ := boundedFifo_of_adds_le (mfTracked_fresh mfb) calls
      (by simp only [freshMf, List.length_nil]; omega)
    exact ⟨h, h'⟩

/-- The add after the one that fills the declared array writes outside it. -/
theorem array_overrun :
    ¬ BoundedFifo zeroedMatchFieldBuffer
      (List.replicate (mtchFldLen * noOfMatchFieldsInTheBuffer + 1) (.add 7)) := by
  intro h
  refine not_throughout_of_adds_gt (mfTracked_fresh _) _ ?_ h.inOrder
  simp only [List.countP_replicate, MfCall.isAdd, if_true, matchFieldArraySize]
  omega

end NetWalk.MatchFieldRuns
