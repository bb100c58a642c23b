import NetWalk.FlowRuns

/-!
# Masks are stored once

The lookup compares the given mask with stored ones, and stored ones have their
spare bits cleared. A mask given with a spare bit set is therefore never found,
and stored once more if its cleared form is there already. Other masks are stored
once, and then all entries added with one mask are in one group.
-/
namespace NetWalk.MaskRuns
open ByteBlock RowSequence FlowTables FlowSearch FlowAdd FlowDelete FlowRows FlowRuns PartialRun

def Distinct (tcam : TcamUnit) : Prop :=
  ∀ i j, i < j → j < tcam.maskTail.toNat → tcam.mask i ≠ tcam.mask j

/-- No two stored masks are equal, and entries added with the same mask have the
same mask position. -/
structure MasksOnce (s : TcamRun) : Prop where
  distinct : Distinct s.tcam
  together : ∀ (p q : ℕ) (r r' : Rule), s.rules[p]? = some r → s.rules[q]? = some r' →
    r.mask = r'.mask → ∃ g, getMaskPos s.tcam p = some g ∧ getMaskPos s.tcam q = some g

/-- A mask with a spare bit set is given only while its cleared form is not
stored. -/
def SpareSafe (tcam : TcamUnit) (mask : Block mtchFldLen) : Prop :=
  tcam.flowTail < noFFlws → clearSpare mask ≠ mask → ¬ Stored tcam (clearSpare mask)

instance (tcam : TcamUnit) (mask : Block mtchFldLen) : Decidable (SpareSafe tcam mask) :=
  inferInstanceAs (Decidable (tcam.flowTail < noFFlws → clearSpare mask ≠ mask →
    ¬ Stored tcam (clearSpare mask)))

def MasksSafe (s : TcamRun) : TcamCall → Prop
  | .add mask _ _ _ => AddSafe s.tcam mask ∧ SpareSafe s.tcam mask
  | .delete flow => DeleteSafe s.tcam flow

instance : ∀ s c, Decidable (MasksSafe s c)
  | s, .add mask _ _ _ => inferInstanceAs (Decidable (AddSafe s.tcam mask ∧ SpareSafe s.tcam mask))
  | s, .delete flow => inferInstanceAs (Decidable (DeleteSafe s.tcam flow))

theorem callSafe_of_masksSafe {s : TcamRun} {c : TcamCall} (h : MasksSafe s c) :
    CallSafe s c := by
  cases c with
  | add mask flowEntry actionSet flag => exact h.1
  | delete flow => exact h

section Steps
variable {s s' : TcamRun} {n m : ℕ}

theorem added_distinct (h : Refines s n m) (hdist : Distinct s.tcam) {mask : Block mtchFldLen}
    {flowEntry : FlowEntry} {actionSet : Block actnStLen} {flag : Block 2}
    (hsafe : MasksSafe s (.add mask flowEntry actionSet flag))
    (hs' : tcamCall s (.add mask flowEntry actionSet flag) = some s') : Distinct s'.tcam := by
  have hm := h.grouped.maskTail_toNat
  rcases addNewEntry_cases h.grouped hsafe.1 flowEntry actionSet flag with
    ⟨pos, -, hrefused⟩ | ⟨pos, m', tcam', flowEntry', stored, hadd, hadded⟩
  · cases hs'.symm.trans (bind_some_of hrefused rfl)
    exact hdist
  · cases hs'.symm.trans (bind_some_of hadd rfl)
    have hm' := hadded.grouped.maskTail_toNat
    intro i j hij hj
    change j < tcam'.maskTail.toNat at hj
    change tcam'.mask i ≠ tcam'.mask j
    rw [hm'] at hj
    rcases hadded.masks with ⟨rfl, hmask, -, -⟩ | ⟨rfl, hmask, hnew, -⟩
    · rw [hmask]
      exact hdist i j hij (by omega)
    · rw [hmask, Function.update_of_ne (show i ≠ m by omega)]
      rcases Nat.lt_succ_iff_lt_or_eq.mp hj with hlt | rfl
      · rw [Function.update_of_ne (by omega)]
        exact hdist i j hij (by omega)
      · rw [Function.update_self]
        by_cases hspare : clearSpare mask = mask
        · rw [hspare]
          exact hnew i hij
        · intro heq
          have hroom : n < noFFlws := hadded.grouped.flow_le
          exact hsafe.2 (h.grouped.flowTail_lt hroom) hspare ⟨i, by omega, heq⟩

/-- The masks behind a deleted one move up unchanged. -/
theorem movedUp_normalised {tcam : TcamUnit} (hnorm : Normalised tcam m) {pos k : ℕ}
    (hk : k < m - 1) : movedUp clearSpare tcam.mask pos (m - 1) k =
      tcam.mask (if k < pos then k else k + 1) := by
  rw [movedUp]
  by_cases hkp : k < pos
  · rw [if_neg (by omega), if_pos hkp]
  · rw [if_pos ⟨by omega, hk⟩, if_neg hkp, hnorm _ (by omega)]

/-- The masks that a delete leaves were stored before. -/
theorem removed_mask {tcam tcam' : TcamUnit} {p : ℕ} {flow : Block mtchFldLen}
    (hrow : RowRemoved tcam tcam' n m p flow) (hnorm : Normalised tcam m) {i : ℕ}
    (hi : i < masksLeft tcam n m p) : ∃ j < m, tcam'.mask i = tcam.mask j := by
  rw [masksLeft] at hi
  rw [hrow.mask]
  split_ifs at hi ⊢ with hlone
  · rw [movedUp_normalised hnorm hi]
    exact ⟨_, by split_ifs <;> omega, rfl⟩
  · exact ⟨i, hi, rfl⟩

theorem removed_distinct (h : Refines s n m) (hdist : Distinct s.tcam) {flow : Block mtchFldLen}
    (hmatch : DeletesMatch s (.delete flow)) (hsafe : MasksSafe s (.delete flow))
    (hs' : tcamCall s (.delete flow) = some s') : Distinct s'.tcam := by
  have hm := h.grouped.maskTail_toNat
  obtain ⟨p, hp, hlt⟩ := chosen_of_tcamMatches h.grouped hmatch
  obtain ⟨tcam', hdelete, hrow⟩ := deleteFlowEntry_safe h.grouped hp hsafe
  cases hs'.symm.trans (bind_some_of hdelete rfl)
  have hm' := (removed_grouped hrow h.grouped hlt).maskTail_toNat
  intro i j hij hj
  change j < tcam'.maskTail.toNat at hj
  change tcam'.mask i ≠ tcam'.mask j
  rw [hm', masksLeft] at hj
  rw [hrow.mask]
  split_ifs at hj ⊢ with hlone
  · rw [movedUp_normalised h.normalised (by omega), movedUp_normalised h.normalised hj]
    refine hdist _ _ ?_ ?_
    · split_ifs <;> omega
    · split_ifs <;> omega
  · exact hdist i j hij (by omega)

end Steps

/-- Entries whose masks have the same cleared form are in one group. -/
theorem together_of_cleared {s : TcamRun} {n m : ℕ} (h : Refines s n m)
    (hdist : Distinct s.tcam) {p q : ℕ} {r r' : Rule} (hr : s.rules[p]? = some r)
    (hr' : s.rules[q]? = some r') (hmask : clearSpare r.mask = clearSpare r'.mask) :
    ∃ g, getMaskPos s.tcam p = some g ∧ getMaskPos s.tcam q = some g := by
  have hn := h.grouped.flowTail_toNat
  have hlength : s.rules.length = n := by
    rw [← List.length_map Rule.stored, ← h.rows, rows, length_firstRows, hn]
  have hp : p < n := hlength ▸ (List.getElem?_eq_some_iff.mp hr).1
  have hq : q < n := hlength ▸ (List.getElem?_eq_some_iff.mp hr').1
  have hrow : ∀ {k : ℕ} {x : Rule}, k < n → s.rules[k]? = some x →
      s.tcam.mask (s.tcam.group k) = clearSpare x.mask := by
    intro k x hk hx
    have hget : (rows s.tcam)[k]? = some x.stored := by
      rw [h.rows, List.getElem?_map, hx]
      rfl
    rw [rows, getElem?_firstRows _ (by omega), Option.some.injEq] at hget
    exact congrArg Rule.mask hget
  have heq : s.tcam.mask (s.tcam.group p) = s.tcam.mask (s.tcam.group q) := by
    rw [hrow hp hr, hrow hq hr', hmask]
  have hm := h.grouped.maskTail_toNat
  have hgp := group_lt h.grouped hp
  have hgq := group_lt h.grouped hq
  have hsame : s.tcam.group p = s.tcam.group q := by
    rcases Nat.lt_trichotomy (s.tcam.group p) (s.tcam.group q) with hlt | he | hgt
    · exact absurd heq (hdist _ _ hlt (by omega))
    · exact he
    · exact absurd heq.symm (hdist _ _ hgt (by omega))
  exact ⟨_, getMaskPos_spec h.grouped.tails hp, by rw [getMaskPos_spec h.grouped.tails hq, hsame]⟩

theorem masksOnce_of_refines {s : TcamRun} {n m : ℕ} (h : Refines s n m)
    (hdist : Distinct s.tcam) : MasksOnce s :=
  ⟨hdist, fun _ _ _ _ hr hr' hmask => together_of_cleared h hdist hr hr' (by rw [hmask])⟩

theorem masks_stored_once (tcam : TcamUnit) (calls : List TcamCall)
    (hmatch : Along tcamCall DeletesMatch (startTcam tcam) calls)
    (hsafe : Along tcamCall MasksSafe (startTcam tcam) calls) :
    Throughout tcamCall MasksOnce (startTcam tcam) calls := by
  have hstart : ∃ n m, Refines (startTcam tcam) n m ∧ Distinct (startTcam tcam).tcam :=
    ⟨0, 0, refines_start tcam, fun i j _ hj => absurd hj (Nat.not_lt_zero j)⟩
  refine (throughout_of_along (fun s => ∃ n m, Refines s n m ∧ Distinct s.tcam) ?_ hstart
    (along_and hmatch hsafe)).mono fun s hs => ?_
  · rintro s c ⟨n, m, h, hdist⟩ ⟨hmatch, hsafe⟩
    obtain ⟨s', n', m', hs', h'⟩ := tcamCall_refines h hmatch (callSafe_of_masksSafe hsafe)
    refine ⟨s', hs', n', m', h', ?_⟩
    cases c with
    | add mask flowEntry actionSet flag => exact added_distinct h hdist hsafe hs'
    | delete flow => exact removed_distinct h hdist hmatch hsafe hs'
  · obtain ⟨n, m, h, hdist⟩ := hs
    exact masksOnce_of_refines h hdist

/-- A mask with spare bits, and twice the mask that is stored for it. -/
theorem cleared_mask_shared :
    let spare : Block mtchFldLen := Block.ofFn fun i => if i = 44 then 7 else 0
    Throughout tcamCall MasksOnce (startTcam zeroedTcamUnit)
      [.add spare (entryFor 1 7) (firstByte 1) (firstByte 0),
       .add (firstByte 255) (entryFor 2 7) (firstByte 2) (firstByte 0),
       .add (firstByte 255) (entryFor 3 7) (firstByte 3) (firstByte 0),
       .delete (firstByte 3)] :=
  masks_stored_once zeroedTcamUnit _ (by decide +kernel) (by decide +kernel)

/-- The same mask given twice, with bit 357 set, is stored twice. -/
theorem spare_mask_stored_twice :
    let mask : Block mtchFldLen :=
      Block.ofFn fun i => if i = 44 then 4 else if i = 0 then 255 else 0
    let calls : List TcamCall :=
      [.add mask (entryFor 1 7) (firstByte 1) (firstByte 0),
       .add mask (entryFor 2 7) (firstByte 2) (firstByte 0)]
    Along tcamCall DeletesMatch (startTcam zeroedTcamUnit) calls ∧
      ¬ Throughout tcamCall MasksOnce (startTcam zeroedTcamUnit) calls := by
  intro mask calls
  refine ⟨by decide +kernel, fun h => ?_⟩
  have hequal : (run tcamCall (startTcam zeroedTcamUnit) calls).map
      (fun s => (s.tcam.maskTail, decide (s.tcam.mask 0 = s.tcam.mask 1))) = some (2, true) := by
    decide +kernel
  obtain ⟨s, hrun, hs⟩ := h.last
  rw [hrun, Option.map_some, Option.some.injEq, Prod.mk.injEq, decide_eq_true_eq] at hequal
  exact hs.distinct 0 1 Nat.zero_lt_one (by rw [hequal.1]; decide) hequal.2

end NetWalk.MaskRuns
