import NetWalk.MaskRuns

/-!
# Masks in arrays that are used again

`add_new_entry` clears the spare bits of a new mask in the array of its caller. A caller that
keeps one array for each mask, and gives it again for further entries, has the mask found, so
that no mask is stored twice, whatever its spare bits were.
-/
namespace NetWalk.MaskReuse
open ByteBlock FlowTables FlowSearch FlowAdd FlowDelete FlowRows FlowRuns MaskRuns PartialRun

variable {ι : Type}

/-- A run, and what the arrays of the caller hold. -/
structure ReuseRun (ι : Type) extends TcamRun where
  masks : ι → Block mtchFldLen

/-- An add with array `k`, or a delete. -/
inductive ReuseCall (ι : Type) where
  | add (k : ι) (flowEntry : FlowEntry) (actionSet : Block actnStLen) (flag : Block 2)
  | delete (flow : Block mtchFldLen)

def startReuse (tcam : TcamUnit) (given : ι → Block mtchFldLen) : ReuseRun ι :=
  ⟨startTcam tcam, given⟩

def reuseCall [DecidableEq ι] (s : ReuseRun ι) : ReuseCall ι → Option (ReuseRun ι)
  | .add k flowEntry actionSet flag => do
      let (pos, tcam, mask, _) ← addNewEntry s.tcam (s.masks k) flowEntry actionSet flag
      some ⟨⟨tcam, if 0 ≤ pos
        then insertRule s.rules pos.toNat (ruleOf (s.masks k) flowEntry actionSet flag)
        else s.rules⟩, Function.update s.masks k mask⟩
  | .delete flow => do
      let (pos, tcam) ← deleteFlowEntry s.tcam flow
      some ⟨⟨tcam, s.rules.eraseIdx pos.toNat⟩, s.masks⟩

/-- The call with the mask that the array holds. -/
def tcamCallOf (s : ReuseRun ι) : ReuseCall ι → TcamCall
  | .add k flowEntry actionSet flag => .add (s.masks k) flowEntry actionSet flag
  | .delete flow => .delete flow

/-- Deletes match, and no call meets the mask left over or the row behind a full table. -/
def ReuseUsed (s : ReuseRun ι) (c : ReuseCall ι) : Prop :=
  DeletesMatch s.toTcamRun (tcamCallOf s c) ∧ CallSafe s.toTcamRun (tcamCallOf s c)

instance (s : ReuseRun ι) (c : ReuseCall ι) : Decidable (ReuseUsed s c) :=
  inferInstanceAs (Decidable (_ ∧ _))

/-- No two stored masks are equal, and entries whose masks differ in spare bits at most are
in one group. -/
structure ClearedOnce (s : ReuseRun ι) : Prop where
  distinct : Distinct s.tcam
  together : ∀ (p q : ℕ) (r r' : Rule), s.rules[p]? = some r → s.rules[q]? = some r' →
    clearSpare r.mask = clearSpare r'.mask →
      ∃ g, getMaskPos s.tcam p = some g ∧ getMaskPos s.tcam q = some g

/-- The arrays hold the masks given, and those whose mask is stored hold it with its spare
bits cleared. -/
structure ArraysHold (given : ι → Block mtchFldLen) (s : ReuseRun ι) : Prop where
  held : ∀ k, s.masks k = given k ∨ s.masks k = clearSpare (given k)
  stored : ∀ g < s.tcam.maskTail.toNat,
    ∃ k, s.tcam.mask g = clearSpare (given k) ∧ s.masks k = clearSpare (given k)

structure Reused (given : ι → Block mtchFldLen) (s : ReuseRun ι) : Prop
    extends ArraysHold given s where
  refines : ∃ n m, Refines s.toTcamRun n m
  distinct : Distinct s.tcam

section Steps
variable {given : ι → Block mtchFldLen} {s : ReuseRun ι}

theorem reused_start (tcam : TcamUnit) : Reused given (startReuse tcam given) where
  held := fun _ => .inl rfl
  stored := fun g hg => absurd hg (Nat.not_lt_zero g)
  refines := ⟨0, 0, refines_start tcam⟩
  distinct := fun _ j _ hj => absurd hj (Nat.not_lt_zero j)

theorem Reused.cleared (h : Reused given s) (k : ι) :
    clearSpare (s.masks k) = clearSpare (given k) := by
  rcases h.held k with heq | heq
  · rw [heq]
  · rw [heq, clearSpare_clearSpare]

/-- An array with spare bits set has not been used for a mask that is stored. -/
theorem Reused.spareSafe (h : Reused given s)
    (hdiff : Function.Injective fun k => clearSpare (given k)) (k : ι) :
    SpareSafe s.tcam (s.masks k) := by
  rintro - hspare ⟨g, hg, heq⟩
  obtain ⟨l, hl, hmask⟩ := h.stored g hg
  rw [hl, h.cleared k] at heq
  cases hdiff heq
  rw [hmask, clearSpare_clearSpare] at hspare
  exact hspare rfl

theorem clearedOnce_of_reused (h : Reused given s) : ClearedOnce s := by
  obtain ⟨n, m, hrefines⟩ := h.refines
  exact ⟨h.distinct, fun _ _ _ _ => together_of_cleared hrefines h.distinct⟩

variable [DecidableEq ι]

/-- To the tables it is the call with the mask that the array holds. -/
theorem reuseCall_tcam (s : ReuseRun ι) (c : ReuseCall ι) :
    (reuseCall s c).map ReuseRun.toTcamRun = tcamCall s.toTcamRun (tcamCallOf s c) := by
  cases c with
  | add k flowEntry actionSet flag =>
    simp only [reuseCall, tcamCallOf, tcamCall]
    cases addNewEntry s.tcam (s.masks k) flowEntry actionSet flag <;> rfl
  | delete flow =>
    simp only [reuseCall, tcamCallOf, tcamCall]
    cases deleteFlowEntry s.tcam flow <;> rfl

/-- The array gets its mask back as it was, or as it is stored. -/
theorem Reused.held_update (h : Reused given s) {k : ι} {stored : Block mtchFldLen}
    (hback : stored = s.masks k ∨ stored = clearSpare (s.masks k)) (l : ι) :
    Function.update s.masks k stored l = given l ∨
      Function.update s.masks k stored l = clearSpare (given l) := by
  by_cases hl : l = k
  · subst hl
    rw [Function.update_self]
    rcases hback with rfl | rfl
    · exact h.held l
    · exact .inr (h.cleared l)
  · rw [Function.update_of_ne hl]
    exact h.held l

/-- An array whose mask is stored keeps it. -/
theorem Reused.stored_update (h : Reused given s) {k : ι} {stored : Block mtchFldLen}
    (hback : stored = s.masks k ∨ stored = clearSpare (s.masks k)) {g : ℕ}
    (hg : g < s.tcam.maskTail.toNat) :
    ∃ l, s.tcam.mask g = clearSpare (given l) ∧
      Function.update s.masks k stored l = clearSpare (given l) := by
  obtain ⟨l, hmask, hheld⟩ := h.stored g hg
  refine ⟨l, hmask, ?_⟩
  by_cases hl : l = k
  · subst hl
    rw [Function.update_self]
    rcases hback with rfl | rfl
    · exact hheld
    · exact h.cleared l
  · rw [Function.update_of_ne hl, hheld]

/-- What the arrays of the caller hold after an add. -/
theorem arrays_after_add (h : Reused given s) {k : ι} {flowEntry : FlowEntry}
    {actionSet : Block actnStLen} {flag : Block 2} (hsafe : AddSafe s.tcam (s.masks k))
    {s' : ReuseRun ι} (hs' : reuseCall s (.add k flowEntry actionSet flag) = some s') :
    ArraysHold given s' := by
  obtain ⟨n, m, hrefines⟩ := h.refines
  have hm := hrefines.grouped.maskTail_toNat
  rcases addNewEntry_cases hrefines.grouped hsafe flowEntry actionSet flag with
    ⟨pos, -, hrefused⟩ | ⟨pos, m', tcam', flowEntry', stored, hadd, hadded⟩
  · cases hs'.symm.trans (bind_some_of hrefused rfl)
    exact ⟨h.held_update (.inl rfl), fun g hg => h.stored_update (.inl rfl) hg⟩
  · cases hs'.symm.trans (bind_some_of hadd rfl)
    have hback : stored = s.masks k ∨ stored = clearSpare (s.masks k) := by
      rcases hadded.masks with ⟨-, -, -, heq⟩ | ⟨-, -, -, heq⟩
      · exact .inl heq
      · exact .inr heq
    refine ⟨h.held_update hback, fun g hg => ?_⟩
    change g < tcam'.maskTail.toNat at hg
    change ∃ l, tcam'.mask g = _ ∧ _
    rw [hadded.grouped.maskTail_toNat] at hg
    rcases hadded.masks with ⟨rfl, hmask, -, -⟩ | ⟨rfl, hmask, -, hstored⟩
    · rw [hmask]
      exact h.stored_update hback (by omega)
    · rw [hmask]
      rcases Nat.lt_succ_iff_lt_or_eq.mp hg with hlt | rfl
      · rw [Function.update_of_ne hlt.ne]
        exact h.stored_update hback (by omega)
      · refine ⟨k, ?_, ?_⟩
        · rw [Function.update_self, h.cleared]
        · exact (Function.update_self ..).trans (hstored.trans (h.cleared k))

/-- A delete leaves the arrays, and no mask that was not stored before. -/
theorem arrays_after_delete (h : Reused given s) {flow : Block mtchFldLen}
    (hmatch : tcamMatches s.tcam flow = true) (hsafe : DeleteSafe s.tcam flow)
    {s' : ReuseRun ι} (hs' : reuseCall s (.delete flow) = some s') :
    ArraysHold given s' := by
  obtain ⟨n, m, hrefines⟩ := h.refines
  obtain ⟨p, hp, hlt⟩ := chosen_of_tcamMatches hrefines.grouped hmatch
  obtain ⟨tcam', hdelete, hrow⟩ := deleteFlowEntry_safe hrefines.grouped hp hsafe
  cases hs'.symm.trans (bind_some_of hdelete rfl)
  refine ⟨h.held, fun g hg => ?_⟩
  change g < tcam'.maskTail.toNat at hg
  change ∃ l, tcam'.mask g = _ ∧ s.masks l = _
  rw [(removed_grouped hrow hrefines.grouped hlt).maskTail_toNat] at hg
  obtain ⟨g', hg', hsame⟩ := removed_mask hrow hrefines.normalised hg
  rw [hsame]
  exact h.stored g' (by rwa [hrefines.grouped.maskTail_toNat])

theorem reuseCall_keeps (h : Reused given s)
    (hdiff : Function.Injective fun k => clearSpare (given k)) {c : ReuseCall ι}
    (hused : ReuseUsed s c) : ∃ s', reuseCall s c = some s' ∧ Reused given s' := by
  obtain ⟨n, m, hrefines⟩ := h.refines
  obtain ⟨t, n', m', ht, hrefines'⟩ := tcamCall_refines hrefines hused.1 hused.2
  have hcall := (reuseCall_tcam s c).trans ht
  obtain ⟨s', hs', rfl⟩ := Option.map_eq_some_iff.mp hcall
  refine ⟨s', hs', ?_⟩
  cases c with
  | add k flowEntry actionSet flag =>
    have hdistinct := added_distinct hrefines h.distinct ⟨hused.2, h.spareSafe hdiff k⟩ ht
    exact ⟨arrays_after_add h hused.2 hs', ⟨n', m', hrefines'⟩, hdistinct⟩
  | delete flow =>
    have hdistinct := removed_distinct hrefines h.distinct hused.1 hused.2 ht
    exact ⟨arrays_after_delete h hused.1 hused.2 hs', ⟨n', m', hrefines'⟩, hdistinct⟩

end Steps

theorem given_masks_stored_once [DecidableEq ι] (tcam : TcamUnit) (given : ι → Block mtchFldLen)
    (calls : List (ReuseCall ι)) (hdiff : Function.Injective fun k => clearSpare (given k))
    (hused : Along reuseCall ReuseUsed (startReuse tcam given) calls) :
    Throughout reuseCall ClearedOnce (startReuse tcam given) calls :=
  (throughout_of_along (Reused given) (fun _ _ h hc => reuseCall_keeps h hdiff hc)
    (reused_start tcam) hused).mono fun _ h => clearedOnce_of_reused h

/-- The mask of `spare_mask_stored_twice`, given in one array. -/
theorem spare_array_reused :
    let given : Bool → Block mtchFldLen := fun k =>
      Block.ofFn fun i => if i = 44 then 4 else if i = 0 then bif k then 255 else 240 else 0
    Throughout reuseCall ClearedOnce (startReuse zeroedTcamUnit given)
      [.add true (entryFor 1 7) (firstByte 1) (firstByte 0),
       .add false (entryFor 2 7) (firstByte 2) (firstByte 0),
       .add true (entryFor 3 7) (firstByte 3) (firstByte 0),
       .delete (firstByte 3)] :=
  given_masks_stored_once zeroedTcamUnit _ _ (by decide +kernel) (by decide +kernel)

end NetWalk.MaskReuse
