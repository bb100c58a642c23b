import NetWalk.FlowSearch

/-!
# Deleting entries from the flow table

`delete_flow_entry` removes the entry that a search for the given flow ends
with. An entry that starts a group either takes the group's mask with it, when
it is alone, or hands its marker on to the next entry. The first group has no
marker, so its mask stays behind when its only entry goes; and the test whether
the next entry is marked looks one row beyond a full table.
-/
namespace NetWalk.FlowDelete
open ByteBlock BitOperations SlotTable RowSequence FlowTables FlowSearch

/-- The first `if` of `delete_flow_entry`: is the entry the only one in a marked
group? Then the group's mask is deleted. -/
def deleteLoneMask (tcam : TcamUnit) (flowPos : ℤ) : Option TcamUnit := do
  let marked ← readMarker tcam flowPos
  let alone ← (if marked = false then some false
    else if flowPos = tcam.flowTail - 1 then some true
    else readMarker tcam (flowPos + 1))
  if alone then
    let maskPos ← getMaskPos tcam flowPos
    deleteRestructureMask tcam maskPos
  else some tcam

/-- The second `if`: is the entry marked and the next one not? Then the next one
becomes the first entry of the group. -/
def handOnMarker (tcam : TcamUnit) (flowPos : ℤ) : Option TcamUnit := do
  let marked ← readMarker tcam flowPos
  if marked then
    let next ← readMarker tcam (flowPos + 1)
    if next then some tcam
    else
      let flowTable ← setBit tcam.flowTable (((flowPos + 1) * flwEntLen + 44) * 8 + 4)
      some { tcam with flowTable := flowTable }
  else some tcam

/-- The mask position that the search stores is not used. -/
def deleteFlowEntry (tcam : TcamUnit) (flowEntry : Block mtchFldLen) :
    Option (ℤ × TcamUnit) := do
  let (flowPos, tcam, _) ← searchTcam tcam flowEntry 0
  let tcam ← deleteLoneMask tcam flowPos
  let tcam ← handOnMarker tcam flowPos
  let tcam ← deleteRestructureFlow tcam flowPos
  let tcam ← deleteRestructureAction tcam flowPos
  some (flowPos, tcam)

/-- Entry `p` is the only one of a marked group. -/
def lone (tcam : TcamUnit) (n p : ℕ) : Bool :=
  tcam.marker p && (decide (p + 1 = n) || tcam.marker (p + 1))

def masksLeft (tcam : TcamUnit) (n m p : ℕ) : ℕ := if lone tcam n p = true then m - 1 else m

/-- The entries once entry `p` has handed on its marker, if it does. -/
def handedOn (tcam : TcamUnit) (p : ℕ) (entries : ℕ → Block flwEntLen) : ℕ → Block flwEntLen :=
  if tcam.marker p = true ∧ tcam.marker (p + 1) = false
    then Function.update entries (p + 1) (putBit (entries (p + 1)) 356 true) else entries

/-- Entry `pos` of the first `n` is gone, and its mask too if no entry is left
that has it. `flow` is the flow that was looked up to find the entry. -/
structure RowRemoved (tcam tcam' : TcamUnit) (n m pos : ℕ) (flow : Block mtchFldLen) :
    Prop where
  tail : tcam'.flowTail = (n - 1 : ℕ)
  flow : tcam'.flow =
    movedUp freshEntry (handedOn tcam pos (countedRows tcam flow n)) pos (n - 1)
  action : tcam'.action = movedUp id tcam.action pos (n - 1)
  flag : tcam'.flag = movedUp id tcam.flag pos (n - 1)
  maskTail : tcam'.maskTail = masksLeft tcam n m pos
  mask : tcam'.mask = if lone tcam n pos = true
    then movedUp clearSpare tcam.mask (tcam.group pos) (m - 1) else tcam.mask

theorem RowRemoved.flowTail_toNat {tcam tcam' : TcamUnit} {n m pos : ℕ}
    {flow : Block mtchFldLen} (h : RowRemoved tcam tcam' n m pos flow) :
    tcam'.flowTail.toNat = n - 1 := by
  rw [h.tail, Int.toNat_natCast]

section Steps
variable {tcam : TcamUnit} {n m p : ℕ}

/-- The first `if` asks whether the entry is the only one of a marked group. -/
theorem deleteLoneMask_eq (h : Tails tcam n m) (hp : p < n) :
    deleteLoneMask tcam p = if lone tcam n p = true then (do
      let maskPos ← getMaskPos tcam p
      deleteRestructureMask tcam maskPos) else some tcam := by
  have hlen := h.flow_le
  have hmarker := readMarker_spec tcam (show p < noFFlws by omega)
  cases hmark : tcam.marker p with
  | false =>
    rw [hmark] at hmarker
    rw [lone, hmark, Bool.false_and]
    exact bind_some_of hmarker rfl
  | true =>
    rw [hmark] at hmarker
    have hlast : (p : ℤ) = tcam.flowTail - 1 ↔ p + 1 = n := by
      rw [h.flowTail]
      omega
    have halone : (if (p : ℤ) = tcam.flowTail - 1 then some true
        else readMarker tcam ((p : ℤ) + 1)) = some (lone tcam n p) := by
      rw [lone, hmark, Bool.true_and]
      by_cases hend : p + 1 = n
      · rw [if_pos (hlast.mpr hend), decide_eq_true hend, Bool.true_or]
      · rw [if_neg fun he => hend (hlast.mp he), decide_eq_false hend, Bool.false_or]
        exact readMarker_spec tcam (show p + 1 < noFFlws by omega)
    exact (bind_some_eq hmarker).trans (bind_some_eq halone)

theorem deleteLoneMask_spec (h : Searchable tcam n m) (hp : p < n) :
    ∃ b, deleteLoneMask tcam p =
        some { tcam with maskTable := b, maskTail := masksLeft tcam n m p } ∧
      slot b = if lone tcam n p = true
        then movedUp clearSpare tcam.mask (tcam.group p) (m - 1) else tcam.mask := by
  rw [deleteLoneMask_eq h.toTails hp, masksLeft]
  cases lone tcam n p with
  | false =>
    simp only [Bool.false_eq_true, if_false]
    rw [← h.maskTail]
    exact ⟨tcam.maskTable, rfl, rfl⟩
  | true =>
    have hgroup := h.mapped p hp
    have hmle := h.mask_le
    have htail : tcam.maskTail = (m - 1 + 1 : ℕ) := by
      rw [h.maskTail]
      omega
    obtain ⟨b, hdelete, hb⟩ := deleteRestructureMask_spec tcam htail (by omega)
      (show tcam.group p ≤ m - 1 by omega)
    exact ⟨b, (bind_some_eq (getMaskPos_spec h.toTails hp)).trans hdelete, hb⟩

theorem handOnMarker_spec (tcam : TcamUnit) (hp : p < noFFlws)
    (hroom : tcam.marker p = true → p + 1 < noFFlws) :
    ∃ b, handOnMarker tcam p = some { tcam with flowTable := b } ∧
      slot b = handedOn tcam p tcam.flow := by
  have hmarker := readMarker_spec tcam hp
  cases hmark : tcam.marker p with
  | false =>
    rw [hmark] at hmarker
    exact ⟨tcam.flowTable, bind_some_of hmarker rfl, by simp [handedOn, hmark, TcamUnit.flow]⟩
  | true =>
    rw [hmark] at hmarker
    have hnext := readMarker_spec tcam (hroom hmark)
    cases hmark' : tcam.marker (p + 1) with
    | true =>
      rw [hmark'] at hnext
      exact ⟨tcam.flowTable, bind_some_of hmarker (bind_some_of hnext rfl),
        by simp [handedOn, hmark', TcamUnit.flow]⟩
    | false =>
      rw [hmark'] at hnext
      obtain ⟨b, hset, hb⟩ := setBit_slot tcam.flowTable (hroom hmark)
        (show 44 < flwEntLen by decide) (show 4 < 8 by decide)
        (show (((p : ℤ) + 1) * flwEntLen + 44) * 8 + 4 =
          (((p + 1 : ℕ) : ℤ) * flwEntLen + (44 : ℕ)) * 8 + (4 : ℕ) from rfl)
      refine ⟨b, bind_some_of hmarker (bind_some_of hnext (bind_some_of hset rfl)), ?_⟩
      rw [hb, handedOn, if_pos ⟨hmark, hmark'⟩]
      rfl

/-- The test of the second `if` leaves the table. -/
theorem handOnMarker_overrun (tcam : TcamUnit) (hp : p + 1 = noFFlws)
    (hmark : tcam.marker p = true) : handOnMarker tcam p = none := by
  have hmarker := readMarker_spec tcam (show p < noFFlws by omega)
  rw [hmark] at hmarker
  have hnext : readMarker tcam ((p : ℤ) + 1) = none := by
    have hout : ¬ Block.Inside (flwEntLen * noFFlws)
        (((((p : ℤ) + 1) * flwEntLen + 44) * 8 + 4).tdiv 8) := by
      rw [show (p : ℤ) + 1 = (noFFlws : ℕ) by omega]
      decide
    rw [readMarker, readBit, Block.read, if_neg hout]
    rfl
  refine (bind_some_eq hmarker).trans ?_
  rw [if_pos rfl, hnext]
  rfl

end Steps

section Deleting
variable {tcam : TcamUnit} {n m p : ℕ} {flow : Block mtchFldLen}

theorem deleteFlowEntry_spec (h : Searchable tcam n m) (hp : chosen tcam flow = some p)
    (hroom : tcam.marker p = true → p + 1 < noFFlws) :
    ∃ tcam', deleteFlowEntry tcam flow = some ((p : ℤ), tcam') ∧
      RowRemoved tcam tcam' n m p flow := by
  have hlt := chosen_lt h.toTails hp
  have hlen := h.flow_le
  obtain ⟨b₁, hsearch, hb₁⟩ := searchTcam_of_chosen h hp 0
  -- counting hits has left the markers alone
  have hmarker : TcamUnit.marker { tcam with flowTable := b₁ } = tcam.marker :=
    marker_of_counted hb₁
  have hlone : lone { tcam with flowTable := b₁ } n p = lone tcam n p := by
    rw [lone, lone, hmarker]
  have hleft : masksLeft { tcam with flowTable := b₁ } n m p = masksLeft tcam n m p := by
    rw [masksLeft, masksLeft, hlone]
  have hgroup : TcamUnit.group { tcam with flowTable := b₁ } p = tcam.group p := by
    rw [TcamUnit.group, TcamUnit.group, hmarker]
  obtain ⟨b₂, hmask, hb₂⟩ := deleteLoneMask_spec (h.counted hb₁) hlt
  rw [hlone, hgroup] at hb₂
  rw [hleft] at hmask
  obtain ⟨b₃, hhand, hb₃⟩ := handOnMarker_spec
    { tcam with flowTable := b₁, maskTable := b₂, maskTail := masksLeft tcam n m p }
    (show p < noFFlws by omega) fun hmark => hroom (by rw [← hmarker]; exact hmark)
  obtain ⟨b₄, hflow, hb₄⟩ := deleteRestructureFlow_spec
    { tcam with flowTable := b₃, maskTable := b₂, maskTail := masksLeft tcam n m p }
    (show tcam.flowTail = (n - 1 + 1 : ℕ) by
      rw [Nat.sub_add_cancel (by omega)]
      exact h.flowTail)
    (by omega) (show p ≤ n - 1 by omega)
  obtain ⟨a, f, haction, ha, hf⟩ := deleteRestructureAction_spec
    { tcam with
      flowTable := b₄
      maskTable := b₂
      flowTail := (n - 1 : ℕ)
      maskTail := masksLeft tcam n m p } rfl (by omega) (show p ≤ n - 1 by omega)
  refine ⟨_, bind_some_of hsearch (bind_some_of hmask (bind_some_of hhand
    (bind_some_of hflow (bind_some_of haction rfl)))), rfl, ?_, ha, hf, rfl, hb₂⟩
  change slot b₄ = _
  rw [hb₄]
  change movedUp freshEntry (slot b₃) p (n - 1) = _
  rw [hb₃]
  change movedUp freshEntry (handedOn _ p (slot b₁)) p (n - 1) = _
  rw [hb₁, handedOn, handedOn]
  change movedUp freshEntry (if TcamUnit.marker { tcam with flowTable := b₁ } p = true ∧
    TcamUnit.marker { tcam with flowTable := b₁ } (p + 1) = false then _ else _) p (n - 1) = _
  rw [hmarker]

/-- Deleting a marked entry in the last row of a full table reads the marker of
a row that does not exist. -/
theorem deleteFlowEntry_overrun (h : Searchable tcam n m) (hp : chosen tcam flow = some p)
    (hmark : tcam.marker p = true) (hlast : p + 1 = noFFlws) :
    deleteFlowEntry tcam flow = none := by
  have hlt := chosen_lt h.toTails hp
  obtain ⟨b₁, hsearch, hb₁⟩ := searchTcam_of_chosen h hp 0
  have hmarker : TcamUnit.marker { tcam with flowTable := b₁ } = tcam.marker :=
    marker_of_counted hb₁
  obtain ⟨b₂, hmask, -⟩ := deleteLoneMask_spec (h.counted hb₁) hlt
  have hover := handOnMarker_overrun
    { tcam with
      flowTable := b₁
      maskTable := b₂
      maskTail := masksLeft { tcam with flowTable := b₁ } n m p }
    hlast (by rw [← hmark, ← hmarker]; rfl)
  refine (bind_some_eq hsearch).trans ((bind_some_eq hmask).trans ?_)
  change (handOnMarker _ (p : ℤ)).bind _ = none
  rw [hover]
  rfl

end Deleting

end NetWalk.FlowDelete
