import NetWalk.FlowRuns

/-!
# Masks and groups over a run

Each stored mask belongs to one group of live entries, as long as the first
entry never takes its group along: with a marker the last entry of a group
removes the mask, but the first group has no marker. `MaskGroups` is what the
other functions of the flow unit rely on, and it is lost exactly when such an
entry is deleted, or one in the last row of a full table.
-/
namespace NetWalk.GroupRuns
open ByteBlock RowSequence FlowTables FlowSearch FlowAdd FlowDelete FlowRows FlowRuns PartialRun

/-- As many masks as groups, from a first entry without marker on. -/
structure WellFormed (tcam : TcamUnit) (n m : ℕ) : Prop extends Grouped tcam n m where
  first : 0 < n → tcam.marker 0 = false
  empty : n = 0 → m = 0

instance (tcam : TcamUnit) (n m : ℕ) : Decidable (WellFormed tcam n m) :=
  decidable_of_iff (tcam.flowTail = n ∧ tcam.maskTail = m ∧ n ≤ noFFlws ∧ m ≤ noFFlws ∧
      (0 < n → m = marks tcam.marker n + 1) ∧ (0 < n → tcam.marker 0 = false) ∧
      (n = 0 → m = 0))
    ⟨fun ⟨h₁, h₂, h₃, h₄, h₅, h₆, h₇⟩ =>
      ⟨⟨h₁, h₂, h₃, h₄, h₅, fun h0 => (h₇ h0).trans_le (Nat.zero_le 1)⟩, h₆, h₇⟩,
    fun h => ⟨h.flowTail, h.maskTail, h.flow_le, h.mask_le, h.groups, h.first, h.empty⟩⟩

/-- The bookkeeping of groups, and that the code's own checks of it never fail. -/
structure MaskGroups (tcam : TcamUnit) : Prop where
  tail_nonneg : 0 ≤ tcam.flowTail
  tail_le : tcam.flowTail ≤ noFFlws
  first : 0 < tcam.flowTail → tcam.marker 0 = false
  empty : tcam.flowTail = 0 → tcam.maskTail = 0
  masks : 0 < tcam.flowTail → tcam.maskTail = 1 + marks tcam.marker tcam.flowTail.toNat
  live : ∀ g : ℕ, g < tcam.maskTail → ∃ p : ℕ, p < tcam.flowTail ∧ tcam.group p = g
  maskTail_le : tcam.maskTail ≤ tcam.flowTail
  search : ∀ flow maskPos, ∃ pos tcam' maskPos',
    searchTcam tcam flow maskPos = some (pos, tcam', maskPos') ∧ pos ≠ strErr
  locate : ∀ g : ℕ, g < tcam.maskTail → ∃ pos, locateMaskGroup tcam g = some pos ∧ pos ≠ strErr

/-- The entry to delete is neither alone in the first group nor a marked one in
the last row of a full table. -/
def DeleteKeepsGroups (tcam : TcamUnit) (flow : Block mtchFldLen) : Prop :=
  ¬ (chosen tcam flow = some 0 ∧ (tcam.flowTail = 1 ∨ tcam.marker 1 = true)) ∧
    DeleteSafe tcam flow

instance (tcam : TcamUnit) (flow : Block mtchFldLen) : Decidable (DeleteKeepsGroups tcam flow) :=
  inferInstanceAs (Decidable (¬ (chosen tcam flow = some 0 ∧
    (tcam.flowTail = 1 ∨ tcam.marker 1 = true)) ∧ DeleteSafe tcam flow))

def KeepsGroups (s : TcamRun) : TcamCall → Prop
  | .add _ _ _ _ => True
  | .delete flow => DeleteKeepsGroups s.tcam flow

instance : ∀ s c, Decidable (KeepsGroups s c)
  | _, .add _ _ _ _ => inferInstanceAs (Decidable True)
  | s, .delete flow => inferInstanceAs (Decidable (DeleteKeepsGroups s.tcam flow))

section State
variable {tcam : TcamUnit} {n m : ℕ}

theorem mask_le_flow (h : WellFormed tcam n m) : m ≤ n := by
  rcases Nat.eq_zero_or_pos n with h0 | hpos
  · rw [h.empty h0]
    exact Nat.zero_le n
  · have := h.groups hpos
    have := marks_lt_of_unmarked (h.first hpos) hpos
    omega

theorem not_leftOver (h : WellFormed tcam n m) : ¬ LeftOver tcam := by
  rw [leftOver_iff h.toGrouped]
  rintro ⟨hm, h0 | hmark⟩
  · have := h.empty h0
    omega
  · have hpos : 0 < n := by
      have := mask_le_flow h
      omega
    rw [h.first hpos] at hmark
    cases hmark

/-- An add never meets a mask that is left over. -/
theorem addSafe_of_wellFormed (h : WellFormed tcam n m) (mask : Block mtchFldLen) :
    AddSafe tcam mask := fun _ hleft => absurd hleft (not_leftOver h)

theorem maskGroups_of_wellFormed (h : WellFormed tcam n m) : MaskGroups tcam := by
  have hle := mask_le_flow h
  have hlocate : ∀ g : ℕ, g < tcam.maskTail →
      ∃ s : ℕ, locateMaskGroup tcam g = some (s : ℤ) ∧ GroupStart tcam n g s := by
    intro g hg
    rw [h.maskTail] at hg
    exact locateMaskGroup_spec h.toGrouped (by omega) (by omega) fun _ => h.first (by omega)
  refine ⟨?_, ?_, ?_, ?_, ?_, ?_, ?_, ?_, ?_⟩
  · rw [h.flowTail]
    exact Int.natCast_nonneg n
  · rw [h.flowTail]
    exact Int.ofNat_le.mpr h.flow_le
  · rw [h.flowTail]
    exact fun hpos => h.first (by omega)
  · rw [h.flowTail, h.maskTail]
    intro h0
    rw [h.empty (by omega)]
    rfl
  · rw [h.flowTail, h.maskTail]
    intro hpos
    have hgroups := h.groups (by omega)
    rw [Int.toNat_natCast]
    omega
  · intro g hg
    obtain ⟨s, -, hs⟩ := hlocate g hg
    have hlt := hs.lt
    exact ⟨s, by rw [h.flowTail]; omega, hs.group⟩
  · rw [h.flowTail, h.maskTail]
    omega
  · intro flow maskPos
    obtain ⟨b, hsearch, -⟩ := searchTcam_spec h.searchable flow maskPos
    exact ⟨_, _, _, hsearch, posOf_ne_strErr _⟩
  · intro g hg
    obtain ⟨s, hlocated, -⟩ := hlocate g hg
    exact ⟨s, hlocated, posOf_ne_strErr (some s)⟩

end State

/-- What a delete does to the first entry's marker. -/
theorem removed_first {tcam tcam' : TcamUnit} {n m p : ℕ} {flow : Block mtchFldLen}
    (h : RowRemoved tcam tcam' n m p flow) (hfirst : tcam.marker 0 = false) (hn : 0 < n - 1) :
    tcam'.marker 0 = if p = 0 then tcam.marker 1 else false := by
  rw [removed_marker h hn, closeAt]
  rcases Nat.eq_zero_or_pos p with rfl | hpos
  · rw [if_neg (by omega), marksAfter_unmarked hfirst, if_pos rfl]
  · rw [if_pos hpos, if_neg (by omega), marksAfter_le (Nat.zero_le p), hfirst]

section Steps
variable {s : TcamRun} {n m : ℕ}

theorem tcamCall_wellFormed (h : WellFormed s.tcam n m) {c : TcamCall}
    (hmatch : DeletesMatch s c) (hkeep : KeepsGroups s c) :
    ∃ s' n' m', tcamCall s c = some s' ∧ WellFormed s'.tcam n' m' := by
  cases c with
  | add mask flowEntry actionSet flag =>
    rcases addNewEntry_cases h.toGrouped (addSafe_of_wellFormed h mask) flowEntry actionSet flag
      with ⟨pos, -, hrefused⟩ | ⟨pos, m', tcam', flowEntry', stored, hadd, hadded⟩
    · exact ⟨_, n, m, bind_some_of hrefused rfl, h⟩
    · refine ⟨_, n + 1, m', bind_some_of hadd rfl, hadded.grouped, fun _ => ?_,
        fun h0 => absurd h0 (Nat.succ_ne_zero n)⟩
      change tcam'.marker 0 = false
      rw [hadded.first]
      rcases Nat.eq_zero_or_pos n with rfl | hpos
      · rfl
      · rw [h.first hpos, Bool.and_false]
  | delete flow =>
    obtain ⟨p, hp, hlt⟩ := chosen_of_tcamMatches h.toGrouped hmatch
    obtain ⟨hlone, hsafe⟩ := hkeep
    obtain ⟨tcam', hdelete, hrow⟩ := deleteFlowEntry_safe h.toGrouped hp hsafe
    have hmany : p = 0 → 0 < n - 1 ∧ s.tcam.marker 1 = false := by
      rintro rfl
      rw [h.flowTail] at hlone
      exact ⟨by by_contra; exact hlone ⟨hp, .inl (by omega)⟩,
        Bool.eq_false_of_not_eq_true fun hmark => hlone ⟨hp, .inr hmark⟩⟩
    refine ⟨_, n - 1, _, bind_some_of hdelete rfl, removed_grouped hrow h.toGrouped hlt,
      fun hpos => ?_, fun h0 => by omega⟩
    change tcam'.marker 0 = false
    rw [removed_first hrow (h.first (by omega)) hpos]
    split_ifs with h0
    · exact (hmany h0).2
    · rfl

/-- Outside the condition the call leaves a table, or a mask without entries, or
a first entry with a marker. -/
theorem tcamCall_loses (h : WellFormed s.tcam n m) {c : TcamCall} (hmatch : DeletesMatch s c)
    (hkeep : ¬ KeepsGroups s c) : ∀ s', tcamCall s c = some s' → ¬ MaskGroups s'.tcam := by
  intro s' hs' hgroups
  cases c with
  | add mask flowEntry actionSet flag => exact hkeep trivial
  | delete flow =>
    obtain ⟨p, hp, hlt⟩ := chosen_of_tcamMatches h.toGrouped hmatch
    by_cases hsafe : DeleteSafe s.tcam flow
    · obtain ⟨h0, hlone⟩ : chosen s.tcam flow = some 0 ∧
          (s.tcam.flowTail = 1 ∨ s.tcam.marker 1 = true) := by
        by_contra hlone
        exact hkeep ⟨hlone, hsafe⟩
      cases hp.symm.trans h0
      obtain ⟨tcam', hdelete, hrow⟩ := deleteFlowEntry_safe h.toGrouped hp hsafe
      cases hs'.symm.trans (bind_some_of hdelete rfl)
      have hfirst := h.first hlt
      have hm := h.groups hlt
      have htail : tcam'.flowTail = (n - 1 : ℕ) := hrow.tail
      have hmask : tcam'.maskTail = m := by
        rw [hrow.maskTail, masksLeft, lone, hfirst]
        rfl
      rcases Nat.eq_zero_or_pos (n - 1) with hn | hn
      · have := hgroups.empty (by rw [htail, hn]; rfl)
        change tcam'.maskTail = 0 at this
        omega
      · have hmark : s.tcam.marker 1 = true := by
          refine hlone.resolve_left fun h1 => ?_
          rw [h.flowTail] at h1
          omega
        have hclear := hgroups.first (by
          change 0 < tcam'.flowTail
          omega)
        change tcam'.marker 0 = false at hclear
        rw [removed_first hrow hfirst hn, if_pos rfl, hmark] at hclear
        cases hclear
    · have hnone := deleteFlowEntry_undefined h.searchable hsafe
      have hstep : tcamCall s (.delete flow) = none := by
        change (deleteFlowEntry s.tcam flow).bind _ = none
        rw [hnone]
        rfl
      rw [hstep] at hs'
      cases hs'

end Steps

theorem mask_groups_iff (tcam : TcamUnit) (calls : List TcamCall)
    (hmatch : Along tcamCall DeletesMatch (startTcam tcam) calls) :
    Throughout tcamCall (fun s => MaskGroups s.tcam) (startTcam tcam) calls ↔
      Along tcamCall KeepsGroups (startTcam tcam) calls := by
  have hstart : ∃ n m, WellFormed (startTcam tcam).tcam n m :=
    ⟨0, 0, (refines_start tcam).grouped, fun h0 => absurd h0 (Nat.lt_irrefl 0), fun _ => rfl⟩
  refine throughout_iff_along_of (fun s => ∃ n m, WellFormed s.tcam n m) DeletesMatch
    ?_ ?_ ?_ hstart hmatch
  · rintro s c ⟨n, m, h⟩ hmatch hkeep
    obtain ⟨s', n', m', hs', h'⟩ := tcamCall_wellFormed h hmatch hkeep
    exact ⟨s', hs', n', m', h'⟩
  · rintro s c ⟨n, m, h⟩ hmatch hkeep
    exact tcamCall_loses h hmatch hkeep
  · rintro s ⟨n, m, h⟩
    exact maskGroups_of_wellFormed h

/-- Two entries in two groups, of which the second is deleted. -/
theorem second_group_goes :
    let calls : List TcamCall :=
      [.add (firstByte 255) (entryFor 1 7) (firstByte 1) (firstByte 0),
       .add (firstByte 15) (entryFor 2 7) (firstByte 2) (firstByte 0),
       .delete (firstByte 2)]
    Throughout tcamCall (fun s => MaskGroups s.tcam) (startTcam zeroedTcamUnit) calls ↔
      Along tcamCall KeepsGroups (startTcam zeroedTcamUnit) calls :=
  mask_groups_iff zeroedTcamUnit _ (by decide +kernel)

/-- Adding one entry and deleting it leaves its mask behind. -/
theorem mask_left_over :
    let calls : List TcamCall :=
      [.add (firstByte 255) (entryFor 1 7) (firstByte 1) (firstByte 0), .delete (firstByte 1)]
    Along tcamCall DeletesMatch (startTcam zeroedTcamUnit) calls ∧
      ¬ Throughout tcamCall (fun s => MaskGroups s.tcam) (startTcam zeroedTcamUnit) calls := by
  intro calls
  refine ⟨by decide +kernel, fun h => ?_⟩
  have htails : (run tcamCall (startTcam zeroedTcamUnit) calls).map
      (fun s => (s.tcam.flowTail, s.tcam.maskTail)) = some (0, 1) := by
    decide +kernel
  obtain ⟨s, hrun, hs⟩ := h.last
  rw [hrun, Option.map_some, Option.some.injEq, Prod.mk.injEq] at htails
  have hempty := hs.empty htails.1
  rw [htails.2] at hempty
  cases hempty

end NetWalk.GroupRuns
