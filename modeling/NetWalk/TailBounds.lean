import NetWalk.FlowAdd
import NetWalk.FlowDelete
import NetWalk.ModifyEntry

/-!
# The tails stay in bounds

Whatever the tables hold, a call that returns has left both tails at most at the
end of their tables: an add tests the flow table for room, and a mask written
behind the last row would have left the mask table. With such tails a search
returns, whether or not masks and groups agree. Searches and `modify_entry` leave
the tails, the masks and all that a flow is compared with (`SameFields`).
-/
namespace NetWalk.TailBounds
open ByteBlock BitOperations SlotTable FlowTables FlowSearch FlowAdd FlowDelete ModifyEntry

structure TailsInside (tcam : TcamUnit) : Prop where
  flow : tcam.flowTail ≤ noFFlws
  mask : tcam.maskTail ≤ noFFlws

/-- The tails, the masks and what a flow is compared with are the same. -/
structure SameFields (tcam tcam' : TcamUnit) : Prop where
  flowTail : tcam'.flowTail = tcam.flowTail
  maskTail : tcam'.maskTail = tcam.maskTail
  mask : tcam'.mask = tcam.mask
  flow : ∀ p, ∀ i < mtchFldLen, (tcam'.flow p).byte i = (tcam.flow p).byte i

theorem SameFields.refl (tcam : TcamUnit) : SameFields tcam tcam :=
  ⟨rfl, rfl, rfl, fun _ _ _ => rfl⟩

theorem SameFields.trans {a b c : TcamUnit} (h : SameFields a b) (h' : SameFields b c) :
    SameFields a c :=
  ⟨h'.flowTail.trans h.flowTail, h'.maskTail.trans h.maskTail, h'.mask.trans h.mask,
    fun p i hi => (h'.flow p i hi).trans (h.flow p i hi)⟩

theorem TailsInside.of_same {tcam tcam' : TcamUnit} (h : TailsInside tcam)
    (h' : SameFields tcam tcam') : TailsInside tcam' :=
  ⟨h'.flowTail ▸ h.flow, h'.maskTail ▸ h.mask⟩

section Fields
variable {tcam tcam' : TcamUnit} (h : SameFields tcam tcam')
include h

theorem SameFields.bit (p : ℕ) {q : ℕ} (hq : q < 8 * mtchFldLen) :
    BitOperations.bit (tcam'.flow p) q = BitOperations.bit (tcam.flow p) q :=
  bit_eq_of_byte_eq (h.flow p _ (by omega))

theorem SameFields.marker : tcam'.marker = tcam.marker := by
  funext p
  exact h.bit p (by decide)

theorem SameFields.group : tcam'.group = tcam.group := by
  rw [TcamUnit.group, TcamUnit.group, h.marker]

theorem SameFields.entryMatches (flow : Block mtchFldLen) :
    FlowSearch.entryMatches tcam' flow = FlowSearch.entryMatches tcam flow := by
  funext p
  simp only [FlowSearch.entryMatches, Agree, TcamUnit.maskOf, h.mask, h.marker]
  refine decide_eq_decide.mpr (forall₂_congr fun q hq => ?_)
  rw [h.bit p hq]

end Fields

/-- Writes behind the match fields of a row leave them as they are. -/
theorem sameFields_of_write {tcam : TcamUnit} {pos i : ℤ} (hbehind : mtchFldLen ≤ i)
    (hi : i < flwEntLen) {v : UInt8} {b : Block (flwEntLen * noFFlws)}
    (h : tcam.flowTable.write (pos * flwEntLen + i) v = some b) :
    SameFields tcam { tcam with flowTable := b } := by
  obtain ⟨j, rfl⟩ := Int.eq_ofNat_of_zero_le (show 0 ≤ i by omega)
  obtain ⟨k, -, -, hb⟩ := write_slot_inv tcam.flowTable (Int.ofNat_lt.mp hi) h
  refine ⟨rfl, rfl, rfl, fun p l hl => ?_⟩
  change (slot b p).byte l = _
  rw [hb]
  by_cases hp : p = k
  · subst hp
    rw [Function.update_self, Block.byte_set _ _ (by omega), if_neg (by omega)]
    rfl
  · rw [Function.update_of_ne hp]
    rfl

theorem sameFields_of_counted {tcam cur : TcamUnit} {flow : Block mtchFldLen} {f : ℕ}
    (h : Counted tcam flow f cur) : SameFields tcam cur := by
  obtain ⟨b, rfl, hb⟩ := h
  refine ⟨rfl, rfl, rfl, fun p i hi => ?_⟩
  change (slot b p).byte i = _
  rw [hb, byte_countedRows p (by rw [mtchFldLen] at hi; omega)]

section Tables
variable {tcam tcam' : TcamUnit}

theorem writeNewMask_tails {mask mask' : Block mtchFldLen}
    (h : writeNewMask tcam mask = some (tcam', mask')) :
    tcam'.flowTail = tcam.flowTail ∧ tcam'.maskTail = tcam.maskTail + 1 ∧
      tcam.maskTail < noFFlws := by
  obtain ⟨m₁, -, h⟩ := bind_inv h
  obtain ⟨m₂, -, h⟩ := bind_inv h
  obtain ⟨m₃, -, h⟩ := bind_inv h
  obtain ⟨b, hwrite, h⟩ := bind_inv h
  cases h
  refine ⟨rfl, rfl, ?_⟩
  by_contra hge
  have hout : ¬ (0 ≤ tcam.maskTail * mtchFldLen ∧
      tcam.maskTail * mtchFldLen + mtchFldLen ≤ (mtchFldLen * noFFlws : ℕ)) := by
    simp only [mtchFldLen, noFFlws] at hge ⊢
    omega
  rw [Block.writeSlice, if_neg hout] at hwrite
  cases hwrite

theorem writeNewFlowEntry_tails {n : ℕ} {flowEntry : Block n}
    (h : writeNewFlowEntry tcam flowEntry = some tcam') :
    tcam'.flowTail = tcam.flowTail + 1 ∧ tcam'.maskTail = tcam.maskTail := by
  obtain ⟨e, -, h⟩ := bind_inv h
  obtain ⟨b₁, -, h⟩ := bind_inv h
  obtain ⟨b₂, -, h⟩ := bind_inv h
  obtain ⟨b₃, -, h⟩ := bind_inv h
  cases h
  exact ⟨rfl, rfl⟩

theorem writeNewAction_fields {actionSet : Block actnStLen} {flag : Block 2} {pos : ℤ}
    (h : writeNewAction tcam actionSet flag pos = some tcam') : SameFields tcam tcam' := by
  obtain ⟨a, -, h⟩ := bind_inv h
  obtain ⟨f₁, -, h⟩ := bind_inv h
  obtain ⟨f₂, -, h⟩ := bind_inv h
  cases h
  exact ⟨rfl, rfl, rfl, fun _ _ _ => rfl⟩

theorem moveAction_fields {src dst : ℤ} (h : moveAction tcam src dst = some tcam') :
    SameFields tcam tcam' := by
  obtain ⟨a, -, h⟩ := bind_inv h
  obtain ⟨f₀, -, h⟩ := bind_inv h
  obtain ⟨f₁, -, h⟩ := bind_inv h
  exact writeNewAction_fields h

theorem moveActionsDown_fields {passes : ℕ} {tail : ℤ}
    (h : moveActionsDown passes tcam tail = some tcam') : SameFields tcam tcam' := by
  induction passes generalizing tcam tail with
  | zero =>
    cases h
    exact .refl _
  | succ passes ih =>
    obtain ⟨t, hmove, h⟩ := bind_inv h
    exact (moveAction_fields hmove).trans (ih h)

theorem moveActionsUp_fields {passes : ℕ} {j : ℤ}
    (h : moveActionsUp passes tcam j = some tcam') : SameFields tcam tcam' := by
  induction passes generalizing tcam j with
  | zero =>
    cases h
    exact .refl _
  | succ passes ih =>
    obtain ⟨t, hmove, h⟩ := bind_inv h
    exact (moveAction_fields hmove).trans (ih h)

theorem moveFlowsDown_tails {passes : ℕ} (h : moveFlowsDown passes tcam = some tcam') :
    tcam'.maskTail = tcam.maskTail := by
  induction passes generalizing tcam with
  | zero =>
    cases h
    rfl
  | succ passes ih =>
    obtain ⟨e, -, h⟩ := bind_inv h
    obtain ⟨t, hwrite, h⟩ := bind_inv h
    exact (ih h).trans (writeNewFlowEntry_tails hwrite).2

theorem moveFlowsUp_tails {passes : ℕ} (h : moveFlowsUp passes tcam = some tcam') :
    tcam'.maskTail = tcam.maskTail := by
  induction passes generalizing tcam with
  | zero =>
    cases h
    rfl
  | succ passes ih =>
    obtain ⟨e, -, h⟩ := bind_inv h
    obtain ⟨t, hwrite, h⟩ := bind_inv h
    exact (ih h).trans (writeNewFlowEntry_tails hwrite).2

theorem moveMasksUp_tails {passes : ℕ} (h : moveMasksUp passes tcam = some tcam') :
    tcam'.flowTail = tcam.flowTail := by
  induction passes generalizing tcam with
  | zero =>
    cases h
    rfl
  | succ passes ih =>
    obtain ⟨e, -, h⟩ := bind_inv h
    obtain ⟨⟨t, m⟩, hwrite, h⟩ := bind_inv h
    exact (ih h).trans (writeNewMask_tails hwrite).1

theorem restructureFlowTable_tails {pos : ℤ} (h : restructureFlowTable tcam pos = some tcam') :
    tcam'.flowTail = tcam.flowTail + 1 ∧ tcam'.maskTail = tcam.maskTail := by
  obtain ⟨t, hmove, h⟩ := bind_inv h
  have hmask := moveFlowsDown_tails hmove
  cases h
  exact ⟨rfl, hmask⟩

theorem deleteRestructureMask_tails {pos : ℤ} (h : deleteRestructureMask tcam pos = some tcam') :
    tcam'.flowTail = tcam.flowTail ∧ tcam'.maskTail = tcam.maskTail - 1 := by
  obtain ⟨t, hmove, h⟩ := bind_inv h
  have hflow := moveMasksUp_tails hmove
  cases h
  exact ⟨hflow, rfl⟩

theorem deleteRestructureFlow_tails {pos : ℤ} (h : deleteRestructureFlow tcam pos = some tcam') :
    tcam'.flowTail = tcam.flowTail - 1 ∧ tcam'.maskTail = tcam.maskTail := by
  obtain ⟨t, hmove, h⟩ := bind_inv h
  have hmask := moveFlowsUp_tails hmove
  cases h
  exact ⟨rfl, hmask⟩

end Tables

section Calls
variable {tcam tcam' : TcamUnit}

theorem countHit_fields {flowNo : ℤ} (h : countHit tcam flowNo = some tcam') :
    SameFields tcam tcam' := by
  obtain ⟨v, -, h⟩ := bind_inv h
  obtain ⟨b, hwrite, h⟩ := bind_inv h
  cases h
  exact sameFields_of_write (by decide) (by decide) hwrite

/-- Every live entry has a mask. -/
def Mapped (tcam : TcamUnit) : Prop :=
  ∀ p < tcam.flowTail.toNat, tcam.group p < tcam.maskTail

instance (tcam : TcamUnit) : Decidable (Mapped tcam) :=
  inferInstanceAs (Decidable (∀ p < tcam.flowTail.toNat, tcam.group p < tcam.maskTail))

/-- With its tails inside the tables a search returns: with the match to choose,
or with the error of an entry that has no mask. It only counts hits. -/
theorem searchTcam_defined (h : TailsInside tcam) (newFlow : Block mtchFldLen) (maskPos : ℤ) :
    ∃ tcam' maskPos', searchTcam tcam newFlow maskPos =
      some (if Mapped tcam then posOf (chosen tcam newFlow) else strErr, tcam', maskPos') ∧
      (Mapped tcam → maskPos' = maskPosOf tcam maskPos (chosen tcam newFlow)) ∧
      SameFields tcam tcam' := by
  have hflow := h.flow
  have hlen : 0 + tcam.flowTail.toNat ≤ noFFlws := by omega
  by_cases hmap : Mapped tcam
  · obtain ⟨b, hsearch, hb⟩ := searchAt_run maskPos h.mask tcam.flowTail.toNat
      (counted_zero tcam newFlow) hlen fun p hp => hmap p (by omega)
    rw [Nat.zero_add] at hsearch
    rw [if_pos hmap]
    exact ⟨_, _, hsearch, fun _ => rfl, sameFields_of_counted ⟨b, rfl, hb⟩⟩
  · obtain ⟨p, hp, herr⟩ : ∃ p < tcam.flowTail.toNat, tcam.maskTail ≤ tcam.group p := by
      simpa only [Mapped, not_forall, not_lt, exists_prop] using hmap
    obtain ⟨f, cur, maskPos', hsearch, hcur⟩ := searchAt_run_error maskPos h.mask
      tcam.flowTail.toNat (counted_zero tcam newFlow) hlen ⟨p, by omega, by omega, herr⟩
    rw [if_neg hmap]
    exact ⟨cur, maskPos', hsearch, fun hm => absurd hm hmap, sameFields_of_counted hcur⟩

theorem searchTcam_fields (h : TailsInside tcam) {newFlow : Block mtchFldLen}
    {maskPos maskPos' pos : ℤ}
    (hsearch : searchTcam tcam newFlow maskPos = some (pos, tcam', maskPos')) :
    SameFields tcam tcam' := by
  obtain ⟨t, maskPos'', hsearch', -, hsame⟩ := searchTcam_defined h newFlow maskPos
  rw [hsearch'] at hsearch
  cases hsearch
  exact hsame

/-- The tails stay inside the tables, and have not been lowered. -/
structure Grown (tcam tcam' : TcamUnit) : Prop where
  inside : TailsInside tcam'
  flow : tcam.flowTail ≤ tcam'.flowTail
  mask : tcam.maskTail ≤ tcam'.maskTail

theorem Grown.of_same {a b c : TcamUnit} (h : Grown a b) (h' : SameFields b c) : Grown a c :=
  ⟨h.inside.of_same h', h'.flowTail ▸ h.flow, h'.maskTail ▸ h.mask⟩

theorem addToMaskGroup_tails {mask mask' : Block mtchFldLen} {flowEntry flowEntry' : FlowEntry}
    {i pos : ℤ} (h : addToMaskGroup tcam mask flowEntry i = some (pos, tcam', mask', flowEntry')) :
    tcam.flowTail ≤ tcam'.flowTail ∧ tcam'.flowTail ≤ tcam.flowTail + 1 ∧
      tcam'.maskTail = tcam.maskTail := by
  obtain ⟨s, -, h⟩ := bind_inv h
  obtain ⟨e, -, h⟩ := bind_inv h
  split_ifs at h
  · cases h
    exact ⟨le_rfl, by omega, rfl⟩
  · obtain ⟨t₁, hmove, h⟩ := bind_inv h
    obtain ⟨e', -, h⟩ := bind_inv h
    obtain ⟨t₂, hwrite, h⟩ := bind_inv h
    cases h
    obtain ⟨hflow, hmask⟩ := restructureFlowTable_tails hmove
    refine ⟨?_, hflow.le, (writeNewFlowEntry_tails hwrite).2.trans hmask⟩
    simp only [hflow]
    omega

theorem addWithNewMask_tails {mask mask' : Block mtchFldLen} {flowEntry flowEntry' : FlowEntry}
    {pos : ℤ} (h : addWithNewMask tcam mask flowEntry = some (pos, tcam', mask', flowEntry')) :
    tcam'.flowTail = tcam.flowTail + 1 ∧ tcam'.maskTail = tcam.maskTail + 1 ∧
      tcam.maskTail < noFFlws := by
  obtain ⟨e, -, h⟩ := bind_inv h
  obtain ⟨⟨t₁, m₁⟩, hmask, h⟩ := bind_inv h
  obtain ⟨t₂, hwrite, h⟩ := bind_inv h
  cases h
  obtain ⟨hflow₁, hmask₁, hroom⟩ := writeNewMask_tails hmask
  obtain ⟨hflow₂, hmask₂⟩ := writeNewFlowEntry_tails hwrite
  exact ⟨by rw [hflow₂, hflow₁], by rw [hmask₂, hmask₁], hroom⟩

theorem addNewFlowEntry_grown (h : TailsInside tcam) {mask mask' : Block mtchFldLen}
    {flowEntry flowEntry' : FlowEntry} {pos : ℤ}
    (hadd : addNewFlowEntry tcam mask flowEntry = some (pos, tcam', mask', flowEntry')) :
    Grown tcam tcam' := by
  have hm := h.mask
  rw [addNewFlowEntry] at hadd
  split_ifs at hadd with hfull
  · cases hadd
    exact ⟨h, le_rfl, le_rfl⟩
  · obtain ⟨found, -, hadd⟩ := bind_inv hadd
    cases found with
    | some i =>
      obtain ⟨hgrows, hone, hmask⟩ := addToMaskGroup_tails hadd
      exact ⟨⟨by omega, by omega⟩, hgrows, hmask.ge⟩
    | none =>
      obtain ⟨hflow, hmask, hroom⟩ := addWithNewMask_tails hadd
      exact ⟨⟨by omega, by omega⟩, by omega, by omega⟩

theorem addNewEntry_grown (h : TailsInside tcam) {mask mask' : Block mtchFldLen}
    {flowEntry flowEntry' : FlowEntry} {actionSet : Block actnStLen} {flag : Block 2} {pos : ℤ}
    (hadd : addNewEntry tcam mask flowEntry actionSet flag =
      some (pos, tcam', mask', flowEntry')) : Grown tcam tcam' := by
  obtain ⟨⟨pos₁, t₁, m₁, e₁⟩, hflow, hadd⟩ := bind_inv hadd
  have h₁ := addNewFlowEntry_grown h hflow
  simp only at hadd
  split_ifs at hadd with hrefused hlast
  · cases hadd
    exact h₁
  · obtain ⟨t₂, hmove, hadd⟩ := bind_inv hadd
    obtain ⟨t₃, hwrite, hadd⟩ := bind_inv hadd
    cases hadd
    exact h₁.of_same ((moveActionsDown_fields hmove).trans (writeNewAction_fields hwrite))
  · rw [Option.bind_eq_bind, Option.bind_some] at hadd
    obtain ⟨t₃, hwrite, hadd⟩ := bind_inv hadd
    cases hadd
    exact h₁.of_same (writeNewAction_fields hwrite)

theorem deleteLoneMask_tails {flowPos : ℤ} (h : deleteLoneMask tcam flowPos = some tcam') :
    tcam'.flowTail = tcam.flowTail ∧ tcam'.maskTail ≤ tcam.maskTail := by
  obtain ⟨marked, -, h⟩ := bind_inv h
  obtain ⟨alone, -, h⟩ := bind_inv h
  split_ifs at h
  · obtain ⟨maskPos, -, h⟩ := bind_inv h
    obtain ⟨hflow, hmask⟩ := deleteRestructureMask_tails h
    exact ⟨hflow, by omega⟩
  · cases h
    exact ⟨rfl, le_rfl⟩

theorem handOnMarker_tails {flowPos : ℤ} (h : handOnMarker tcam flowPos = some tcam') :
    tcam'.flowTail = tcam.flowTail ∧ tcam'.maskTail = tcam.maskTail := by
  obtain ⟨marked, -, h⟩ := bind_inv h
  split_ifs at h
  · obtain ⟨next, -, h⟩ := bind_inv h
    split_ifs at h
    · cases h
      exact ⟨rfl, rfl⟩
    · obtain ⟨b, -, h⟩ := bind_inv h
      cases h
      exact ⟨rfl, rfl⟩
  · cases h
    exact ⟨rfl, rfl⟩

theorem deleteFlowEntry_inside (h : TailsInside tcam) {flow : Block mtchFldLen} {pos : ℤ}
    (hdelete : deleteFlowEntry tcam flow = some (pos, tcam')) : TailsInside tcam' := by
  obtain ⟨⟨p, t, m⟩, hsearch, hdelete⟩ := bind_inv hdelete
  obtain ⟨t₂, hmask, hdelete⟩ := bind_inv hdelete
  obtain ⟨t₃, hhand, hdelete⟩ := bind_inv hdelete
  obtain ⟨t₄, hflow, hdelete⟩ := bind_inv hdelete
  obtain ⟨t₅, haction, hdelete⟩ := bind_inv hdelete
  cases hdelete
  obtain ⟨hf₂, hm₂⟩ := deleteLoneMask_tails hmask
  obtain ⟨hf₃, hm₃⟩ := handOnMarker_tails hhand
  obtain ⟨hf₄, hm₄⟩ := deleteRestructureFlow_tails hflow
  have h₅ := moveActionsUp_fields haction
  have ht := h.of_same (searchTcam_fields h hsearch)
  have hf := ht.flow
  refine ⟨?_, ?_⟩
  · rw [h₅.flowTail, hf₄, hf₃, hf₂]
    omega
  · rw [h₅.maskTail, hm₄, hm₃]
    exact hm₂.trans ht.mask

section Modify
variable {n : ℕ} {flag : Block 2} {newValues : Block n} {pos : ℤ} {s s' : Modifying}

theorem modifyField_fields {flagBit strtBit endBit : ℤ}
    (h : modifyField flag newValues pos flagBit strtBit endBit s = some s') :
    SameFields s.tcam s'.tcam := by
  obtain ⟨sel, -, h⟩ := bind_inv h
  split_ifs at h
  · obtain ⟨v, -, h⟩ := bind_inv h
    obtain ⟨a, -, h⟩ := bind_inv h
    cases h
    exact ⟨rfl, rfl, rfl, fun _ _ _ => rfl⟩
  · cases h
    exact .refl _

theorem modifyByte_fields {flagBit : ℤ} {store : TcamUnit → UInt8 → Option TcamUnit}
    (hstore : ∀ t v t', store t v = some t' → SameFields t t')
    (h : modifyByte flag newValues flagBit store s = some s') : SameFields s.tcam s'.tcam := by
  obtain ⟨sel, -, h⟩ := bind_inv h
  split_ifs at h
  · obtain ⟨b, -, h⟩ := bind_inv h
    obtain ⟨v, -, h⟩ := bind_inv h
    obtain ⟨t, ht, h⟩ := bind_inv h
    cases h
    exact hstore _ _ _ ht
  · cases h
    exact .refl _

theorem storeOutputPort_fields {t t' : TcamUnit} {v : UInt8}
    (h : storeOutputPort pos t v = some t') : SameFields t t' := by
  obtain ⟨a, -, h⟩ := bind_inv h
  cases h
  exact ⟨rfl, rfl, rfl, fun _ _ _ => rfl⟩

theorem storeFlowByte_fields {i : ℤ} (hbehind : mtchFldLen ≤ i) (hi : i < flwEntLen)
    {t t' : TcamUnit} {v : UInt8} (h : storeFlowByte pos i t v = some t') : SameFields t t' := by
  obtain ⟨b, hwrite, h⟩ := bind_inv h
  cases h
  exact sameFields_of_write hbehind hi hwrite

theorem storeCounter_fields {t t' : TcamUnit} {v : UInt8}
    (h : storeCounter pos t v = some t') : SameFields t t' := by
  obtain ⟨t₁, hstore, h⟩ := bind_inv h
  exact (storeFlowByte_fields (by decide) (by decide) hstore).trans (countHit_fields h)

theorem finishModify_fields {t t' : TcamUnit} (h : finishModify flag pos t = some t') :
    SameFields t t' := by
  obtain ⟨v, -, h⟩ := bind_inv h
  obtain ⟨t₁, hstore, h⟩ := bind_inv h
  obtain ⟨f₀, -, h⟩ := bind_inv h
  obtain ⟨b₀, -, h⟩ := bind_inv h
  obtain ⟨f₁, -, h⟩ := bind_inv h
  obtain ⟨b₁, -, h⟩ := bind_inv h
  cases h
  have hsame := storeFlowByte_fields (by decide) (by decide) hstore
  exact ⟨hsame.flowTail, hsame.maskTail, hsame.mask, hsame.flow⟩

theorem modifyActionSet_fields (h : modifyActionSet flag newValues pos s = some s') :
    SameFields s.tcam s'.tcam := by
  obtain ⟨s₁, h₁, h⟩ := bind_inv h
  obtain ⟨s₂, h₂, h⟩ := bind_inv h
  obtain ⟨s₃, h₃, h⟩ := bind_inv h
  obtain ⟨s₄, h₄, h⟩ := bind_inv h
  obtain ⟨s₅, h₅, h⟩ := bind_inv h
  obtain ⟨s₆, h₆, h⟩ := bind_inv h
  obtain ⟨s₇, h₇, h⟩ := bind_inv h
  obtain ⟨s₈, h₈, h⟩ := bind_inv h
  obtain ⟨s₉, h₉, h⟩ := bind_inv h
  obtain ⟨s₁₀, h₁₀, h⟩ := bind_inv h
  obtain ⟨s₁₁, h₁₁, h⟩ := bind_inv h
  exact (modifyField_fields h₁).trans <| (modifyField_fields h₂).trans <|
    (modifyField_fields h₃).trans <| (modifyField_fields h₄).trans <|
    (modifyField_fields h₅).trans <| (modifyField_fields h₆).trans <|
    (modifyField_fields h₇).trans <| (modifyField_fields h₈).trans <|
    (modifyField_fields h₉).trans <| (modifyField_fields h₁₀).trans <|
    (modifyField_fields h₁₁).trans <| modifyByte_fields (fun _ _ _ => storeOutputPort_fields) h

end Modify

theorem modifyEntry_fields (h : TailsInside tcam) {n : ℕ} {matchFields : Block mtchFldLen}
    {flag : Block 2} {newValues : Block n} {val : Block 6} {pos : ℤ}
    (hmodify : modifyEntry tcam matchFields flag newValues val = some (pos, tcam')) :
    SameFields tcam tcam' := by
  obtain ⟨⟨p, t, m⟩, hsearch, hmodify⟩ := bind_inv hmodify
  have ht := searchTcam_fields h hsearch
  simp only at hmodify
  split_ifs at hmodify
  · cases hmodify
    exact ht
  · obtain ⟨drop, -, hmodify⟩ := bind_inv hmodify
    obtain ⟨s₁, haction, hmodify⟩ := bind_inv hmodify
    obtain ⟨s₂, hprio, hmodify⟩ := bind_inv hmodify
    obtain ⟨s₃, hcounter, hmodify⟩ := bind_inv hmodify
    obtain ⟨s₄, htime, hmodify⟩ := bind_inv hmodify
    obtain ⟨t₅, hfinish, hmodify⟩ := bind_inv hmodify
    cases hmodify
    have h₁ : SameFields t s₁.tcam := by
      split_ifs at haction
      · cases haction
        exact .refl t
      · exact modifyActionSet_fields haction
    exact ht.trans <| h₁.trans <|
      (modifyByte_fields (fun _ _ _ => storeFlowByte_fields (by decide) (by decide)) hprio).trans <|
      (modifyByte_fields (fun _ _ _ => storeCounter_fields) hcounter).trans <|
      (modifyByte_fields (fun _ _ _ => storeFlowByte_fields (by decide) (by decide)) htime).trans <|
      finishModify_fields hfinish

end Calls

end NetWalk.TailBounds
