import NetWalk.GroupRuns

/-!
# What an add does to a well-formed table

An add is refused because the table is full or because an entry of the mask's
group is taken for the new one, or it inserts one row. The refusals leave the
table as it was. The place of the row is right unless the mask is given with
spare bits set that the stored masks do not have.
-/
namespace NetWalk.AddOutcomes
open ByteBlock BitOperations SlotTable RowSequence FlowTables FlowSearch FlowAdd FlowRows FlowRuns
open GroupRuns PartialRun
variable {tcam : TcamUnit} {n m : ℕ}

/-- The ways in which an add may end. -/
inductive AddOutcome (tcam : TcamUnit) (n m : ℕ) (mask : Block mtchFldLen)
    (flowEntry : FlowEntry) (actionSet : Block actnStLen) (flag : Block 2) : AddResult → Prop
  | full (hfull : noFFlws ≤ n) :
      AddOutcome tcam n m mask flowEntry actionSet flag (tblFull, tcam, mask, flowEntry)
  | redundant (hn : n < noFFlws) {g : ℕ} (hg : FirstStored tcam m mask g)
      (htakes : GroupTakes tcam n mask flowEntry g) :
      AddOutcome tcam n m mask flowEntry actionSet flag (rdndnt, tcam, mask, flowEntry)
  | inGroup (hn : n < noFFlws) {g s e : ℕ} {tcam' : TcamUnit} (hg : FirstStored tcam m mask g)
      (htakes : ¬ GroupTakes tcam n mask flowEntry g) (hs : GroupStart tcam n g s)
      (he : GroupEnd tcam n s e)
      (hrow : RowInserted tcam tcam' n e (putBit flowEntry 356 false) actionSet flag)
      (hmask : tcam'.mask = tcam.mask) (hmaskTail : tcam'.maskTail = m) :
      AddOutcome tcam n m mask flowEntry actionSet flag
        ((e : ℤ), tcam', mask, putBit flowEntry 356 false)
  | newGroup (hn : n < noFFlws) {tcam' : TcamUnit} (hm : m < noFFlws)
      (hnew : ∀ g < m, tcam.mask g ≠ mask)
      (hrow : RowInserted tcam tcam' n n (putBit flowEntry 356 (decide (0 < n))) actionSet flag)
      (hmask : tcam'.mask = Function.update tcam.mask m (clearSpare mask))
      (hmaskTail : tcam'.maskTail = (m + 1 : ℕ)) :
      AddOutcome tcam n m mask flowEntry actionSet flag
        ((n : ℤ), tcam', clearSpare mask, putBit flowEntry 356 (decide (0 < n)))

theorem addNewEntry_outcome (h : WellFormed tcam n m) (mask : Block mtchFldLen)
    (flowEntry : FlowEntry) (actionSet : Block actnStLen) (flag : Block 2) :
    ∃ r, addNewEntry tcam mask flowEntry actionSet flag = some r ∧
      AddOutcome tcam n m mask flowEntry actionSet flag r := by
  have hle := mask_le_flow h
  rcases Nat.lt_or_ge n noFFlws with hn | hfull
  · rcases firstStored_or_new tcam m mask with ⟨g, hg⟩ | hnew
    · have hpos : 0 < n := by
        have := hg.lt
        omega
      rcases addNewEntry_stored hn mask flowEntry actionSet flag h.toGrouped hpos hg
        (fun _ => h.first hpos) with
        ⟨htakes, hadd⟩ | ⟨s, e, tcam', htakes, hs, he, hadd, hrow, hmask, hmaskTail⟩
      · exact ⟨_, hadd, .redundant hn hg htakes⟩
      · exact ⟨_, hadd, .inGroup hn hg htakes hs he hrow hmask hmaskTail⟩
    · have hm : m < noFFlws := by omega
      obtain ⟨tcam', hadd, hrow, hmask, hmaskTail⟩ :=
        addNewEntry_new hn mask flowEntry actionSet flag h.tails hm hnew
      exact ⟨_, hadd, .newGroup hn hm hnew hrow hmask hmaskTail⟩
  · exact ⟨_, addNewEntry_full (h.tails.full hfull) mask flowEntry actionSet flag, .full hfull⟩

/-- A position is not one of the two codes for a refusal. -/
theorem position_ne (p : ℕ) : (p : ℤ) ≠ tblFull ∧ (p : ℤ) ≠ rdndnt := by
  rw [tblFull, rdndnt]
  omega

section Inserting
variable {tcam' : TcamUnit} {mask stored : Block mtchFldLen} {flowEntry : FlowEntry}
  {actionSet : Block actnStLen} {flag : Block 2} {pos : ℕ}

/-- The end of the first group with the mask, or of the table if there is none. -/
def PlaceFor (tcam : TcamUnit) (n m : ℕ) (mask : Block mtchFldLen) (pos : ℕ) : Prop :=
  (∃ g s, FirstStored tcam m mask g ∧ GroupStart tcam n g s ∧ GroupEnd tcam n s pos) ∨
    (∀ g < m, tcam.mask g ≠ mask) ∧ pos = n

/-- The table has the given row more, with the spare bits of the mask cleared, at
the place for this mask. -/
structure InsertsRow (tcam tcam' : TcamUnit) (mask : Block mtchFldLen) (flowEntry : FlowEntry)
    (actionSet : Block actnStLen) (flag : Block 2) (pos : ℕ) : Prop where
  rows : rows tcam' =
    insertRule (rows tcam) pos (ruleOf (clearSpare mask) flowEntry actionSet flag)
  place : PlaceFor tcam tcam.flowTail.toNat tcam.maskTail.toNat (clearSpare mask) pos
  wellFormed : ∃ n m, WellFormed tcam' n m

/-- The mask has no spare bit set, or it is new and a mask that differs in spare
bits only can be that of the last group alone. -/
def PlacedRight (tcam : TcamUnit) (mask : Block mtchFldLen) : Prop :=
  clearSpare mask = mask ∨ ¬ Stored tcam mask ∧
    ∀ g, g + 1 < tcam.maskTail.toNat → tcam.mask g ≠ clearSpare mask

theorem added_wellFormed (h : WellFormed tcam n m) {m' : ℕ}
    (hadded : Added tcam tcam' n m m' pos mask stored flowEntry actionSet flag) :
    WellFormed tcam' (n + 1) m' := by
  refine ⟨hadded.grouped, fun _ => ?_, fun h0 => absurd h0 (Nat.succ_ne_zero n)⟩
  rw [hadded.first]
  rcases Nat.eq_zero_or_pos n with rfl | hpos
  · rfl
  · rw [h.first hpos, Bool.and_false]

theorem insertRule_injective {rules : List Rule} {r r' : Rule}
    (h : insertRule rules pos r = insertRule rules pos r') : r = r' :=
  (List.cons.inj (List.append_cancel_left h)).1

/-- The last group ends with the table. -/
theorem groupEnd_last (h : WellFormed tcam n m) {s : ℕ} (hs : GroupStart tcam n (m - 1) s) :
    GroupEnd tcam n s n := by
  refine ⟨hs.lt, le_rfl, fun q hsq hqn => ?_, fun hlt => absurd hlt (Nat.lt_irrefl n)⟩
  have hcount := h.groups (Nat.zero_lt_of_lt hqn)
  have hgroup : tcam.group s = marks tcam.marker (s + 1) := rfl
  have hbefore : marks tcam.marker (s + 1) ≤ marks tcam.marker q := marks_mono tcam.marker hsq
  have hafter : marks tcam.marker (q + 1) ≤ marks tcam.marker n := marks_mono tcam.marker hqn
  have hsucc := marks_succ tcam.marker q
  rw [hs.group] at hgroup
  cases hmark : tcam.marker q with
  | false => rfl
  | true =>
    rw [hmark, Bool.toNat_true] at hsucc
    omega

/-- The end of the table is the end of a group only for the last one. -/
theorem group_of_groupEnd (h : WellFormed tcam n m) {g s : ℕ} (hs : GroupStart tcam n g s)
    (he : GroupEnd tcam n s n) : g + 1 = m := by
  have hlt := hs.lt
  have hlast := (group_eq_iff hs he (show n - 1 < n by omega)).mpr ⟨by omega, by omega⟩
  have hcount := h.groups (by omega)
  have hgroup : tcam.group (n - 1) = marks tcam.marker n := by
    rw [TcamUnit.group, groupOf, Nat.sub_add_cancel (by omega)]
  omega

/-- The end of the table is the place for a mask that no group has, but for the
last one perhaps. -/
theorem placeFor_end_iff (h : WellFormed tcam n m) :
    PlaceFor tcam n m mask n ↔ ∀ g, g + 1 < m → tcam.mask g ≠ mask := by
  constructor
  · rintro (⟨g, s, hg, hs, he⟩ | ⟨hnew, -⟩)
    · have hlast := group_of_groupEnd h hs he
      exact fun k hk => hg.before k (by omega)
    · exact fun g hg => hnew g (by omega)
  · intro hbefore
    rcases firstStored_or_new tcam m mask with ⟨g, hg⟩ | hnew
    · have hlt := hg.lt
      have hlast : g = m - 1 := by
        by_contra hne
        exact hbefore g (by omega) hg.equal
      have hn : 0 < n := by
        have := mask_le_flow h
        omega
      obtain ⟨s, -, hs⟩ := locateMaskGroup_spec h.toGrouped hlt hn fun _ => h.first hn
      exact .inl ⟨g, s, hg, hs, groupEnd_last h (hlast ▸ hs)⟩
    · exact .inr ⟨hnew, rfl⟩

theorem inserts_in_group_iff (h : WellFormed tcam n m) {g s : ℕ}
    (hg : FirstStored tcam m mask g) (hs : GroupStart tcam n g s) (he : GroupEnd tcam n s pos)
    (hadded : Added tcam tcam' n m m pos mask mask flowEntry actionSet flag) :
    InsertsRow tcam tcam' mask flowEntry actionSet flag pos ↔ PlacedRight tcam mask := by
  have hstored : Stored tcam mask := ⟨g, by rw [h.maskTail_toNat]; exact hg.lt, hg.equal⟩
  constructor
  · intro hinserts
    have hrows := hinserts.rows
    rw [hadded.rows] at hrows
    exact .inl (congrArg Rule.mask (insertRule_injective hrows)).symm
  · rintro (hclear | ⟨hnew, -⟩)
    · refine ⟨by rw [hadded.rows, hclear], ?_, n + 1, m, added_wellFormed h hadded⟩
      rw [h.flowTail_toNat, h.maskTail_toNat, hclear]
      exact .inl ⟨g, s, hg, hs, he⟩
    · exact absurd hstored hnew

theorem inserts_behind_iff (h : WellFormed tcam n m) (hnew : ∀ g < m, tcam.mask g ≠ mask)
    (hadded : Added tcam tcam' n m (m + 1) n mask (clearSpare mask) flowEntry actionSet flag) :
    InsertsRow tcam tcam' mask flowEntry actionSet flag n ↔ PlacedRight tcam mask := by
  have hplace : InsertsRow tcam tcam' mask flowEntry actionSet flag n ↔
      PlaceFor tcam n m (clearSpare mask) n := by
    constructor
    · intro hinserts
      have hp := hinserts.place
      rwa [h.flowTail_toNat, h.maskTail_toNat] at hp
    · intro hp
      refine ⟨hadded.rows, ?_, n + 1, m + 1, added_wellFormed h hadded⟩
      rwa [h.flowTail_toNat, h.maskTail_toNat]
  have hunstored : ¬ Stored tcam mask := by
    rintro ⟨g, hg, heq⟩
    exact hnew g (by rwa [h.maskTail_toNat] at hg) heq
  rw [hplace, placeFor_end_iff h, PlacedRight, h.maskTail_toNat]
  constructor
  · exact fun hbefore => .inr ⟨hunstored, hbefore⟩
  · rintro (hclear | ⟨-, hbefore⟩)
    · rw [hclear]
      exact fun g hg => hnew g (by omega)
    · exact hbefore

end Inserting

theorem inserts_row_iff (h : WellFormed tcam n m) {mask mask' : Block mtchFldLen}
    {flowEntry flowEntry' : FlowEntry} {actionSet : Block actnStLen} {flag : Block 2} {pos : ℤ}
    {tcam' : TcamUnit}
    (hadd : addNewEntry tcam mask flowEntry actionSet flag = some (pos, tcam', mask', flowEntry'))
    (hpos : 0 ≤ pos) :
    InsertsRow tcam tcam' mask flowEntry actionSet flag pos.toNat ↔ PlacedRight tcam mask := by
  obtain ⟨r, hr, houtcome⟩ := addNewEntry_outcome h mask flowEntry actionSet flag
  cases hr.symm.trans hadd
  cases houtcome with
  | full hfull => exact absurd hpos (by decide)
  | redundant hn hg htakes => exact absurd hpos (by decide)
  | inGroup hn hg htakes hs he hrow hmask hmaskTail =>
    rw [Int.toNat_natCast]
    exact inserts_in_group_iff h hg hs he
      (added_in_group h.toGrouped hn hg hs he hrow hmask hmaskTail)
  | newGroup hn hm hnew hrow hmask hmaskTail =>
    rw [Int.toNat_natCast]
    exact inserts_behind_iff h hnew
      (added_with_mask h.toGrouped hn hm h.empty hnew hrow hmask hmaskTail)

/-- A second entry for the first of two groups. -/
theorem row_between_groups :
    let tcam := tableAfter
      [.add (firstByte 255) (entryFor 1 7) (firstByte 1) (firstByte 0),
       .add (firstByte 15) (entryFor 2 7) (firstByte 2) (firstByte 0)]
    ∃ tcam' mask' flowEntry',
      addNewEntry tcam (firstByte 255) (entryFor 3 7) (firstByte 3) (firstByte 0) =
        some (1, tcam', mask', flowEntry') ∧
      (InsertsRow tcam tcam' (firstByte 255) (entryFor 3 7) (firstByte 3) (firstByte 0) 1 ↔
        PlacedRight tcam (firstByte 255)) := by
  intro tcam
  have h : WellFormed tcam 2 2 := by decide +kernel
  have hpos : (addNewEntry tcam (firstByte 255) (entryFor 3 7) (firstByte 3)
      (firstByte 0)).map (fun r => r.1) = some 1 := by
    decide +kernel
  obtain ⟨⟨pos, tcam', mask', flowEntry'⟩, hadd, rfl⟩ := Option.map_eq_some_iff.mp hpos
  exact ⟨tcam', mask', flowEntry', hadd, inserts_row_iff h hadd (by decide)⟩

/-- The mask of the first group given with bit 357 set: the row goes behind the
last group. -/
theorem spare_bit_behind_last_group :
    let tcam := tableAfter
      [.add (firstByte 255) (entryFor 1 7) (firstByte 1) (firstByte 0),
       .add (firstByte 15) (entryFor 2 7) (firstByte 2) (firstByte 0)]
    let mask : Block mtchFldLen :=
      Block.ofFn fun i => if i = 44 then 4 else if i = 0 then 255 else 0
    WellFormed tcam 2 2 ∧ ∃ tcam' mask' flowEntry',
      addNewEntry tcam mask (entryFor 3 7) (firstByte 3) (firstByte 0) =
        some (2, tcam', mask', flowEntry') ∧
      ¬ InsertsRow tcam tcam' mask (entryFor 3 7) (firstByte 3) (firstByte 0) 2 := by
  intro tcam mask
  have h : WellFormed tcam 2 2 := by decide +kernel
  have hpos : (addNewEntry tcam mask (entryFor 3 7) (firstByte 3)
      (firstByte 0)).map (fun r => r.1) = some 2 := by
    decide +kernel
  obtain ⟨⟨pos, tcam', mask', flowEntry'⟩, hadd, rfl⟩ := Option.map_eq_some_iff.mp hpos
  refine ⟨h, tcam', mask', flowEntry', hadd, fun hinserts => ?_⟩
  have hplace := hinserts.place
  rw [h.flowTail_toNat, h.maskTail_toNat] at hplace
  have hstored : tcam.mask 0 = clearSpare mask := by decide +kernel
  exact (placeFor_end_iff h).mp hplace 0 (by decide) hstored

end NetWalk.AddOutcomes
