import NetWalk.ModifyBranches
import NetWalk.GroupRuns

/-!
# What a modify does to a well-formed table

A modify changes the entry that the search finds: the selected fields get their slices
of the new values, its flags are added to, and the hit of the search is taken back. The
hits of other entries that match are not. A search that finds nothing returns -1, which
is not the error looked for and is used as a position.
-/
namespace NetWalk.ModifyOutcomes
open ByteBlock BitOperations SlotTable PriorityScan FlowTables FlowSearch ModifyEntry
open ModifyBranches FlowRuns GroupRuns
variable {tcam tcam' : TcamUnit} {n m p len : ℕ} {matchFields : Block mtchFldLen}
  {flag : Block 2} {newValues : Block len}

/-- In row `p` the selected fields have got their slices of the new values and the flags are
added; all other bits of the row stay. -/
structure DecodesValues (tcam tcam' : TcamUnit) (p : ℕ) (flag : Block 2)
    (newValues : Block len) : Prop where
  action : Decoded flag newValues 1 13 (tcam.action p) (tcam'.action p)
  flow : Decoded flag newValues 13 16 (tcam.flow p) (tcam'.flow p)
  flag : ∀ i < 2, (tcam'.flag p).byte i = (tcam.flag p).byte i ||| flag.byte i

/-- The table that the search has left is modified in row `p`. -/
theorem modifyEntry_spec (h : Searchable tcam n m) (hp : chosen tcam matchFields = some p)
    (flag : Block 2) (newValues : Block len) (hlong : sliceStart flag 16 ≤ 8 * len)
    (val : Block 6) :
    ∃ b tcam', slot b = countedRows tcam matchFields n ∧
      modifyEntry tcam matchFields flag newValues val = some ((p : ℤ), tcam') ∧
      RowModified { tcam with flowTable := b } tcam' p flag newValues := by
  have hroom : p < noFFlws := (chosen_lt h.toTails hp).trans_le h.flow_le
  obtain ⟨b, hsearch, hb⟩ := searchTcam_of_chosen h hp 0
  obtain ⟨s, hbranches, hs⟩ := branches_modified hroom { tcam with flowTable := b } val hlong
  obtain ⟨tcam', hfinish, hrow⟩ := modified_finish hroom hs
  refine ⟨b, tcam', hb, ?_, hrow⟩
  rw [modifyEntry_eq flag newValues p hsearch (posOf_ne_strErr (some p)) val]
  exact bind_some_of hbranches (bind_some_of hfinish rfl)

theorem modifyEntry_short (h : Searchable tcam n m) (hp : chosen tcam matchFields = some p)
    (flag : Block 2) (newValues : Block len) (hshort : 8 * len < sliceStart flag 16)
    (val : Block 6) : modifyEntry tcam matchFields flag newValues val = none := by
  have hroom : p < noFFlws := (chosen_lt h.toTails hp).trans_le h.flow_le
  obtain ⟨b, hsearch, -⟩ := searchTcam_of_chosen h hp 0
  rw [modifyEntry_eq flag newValues p hsearch (posOf_ne_strErr (some p)) val,
    branches_overrun hroom _ val hshort]
  rfl

section Found
variable {maskPos : ℤ} {found : TcamUnit × ℤ}

theorem chosen_of_search (h : Searchable tcam n m)
    (hfound : searchTcam tcam matchFields maskPos = some ((p : ℤ), found)) :
    chosen tcam matchFields = some p := by
  obtain ⟨b, hsearch, -⟩ := searchTcam_spec h matchFields maskPos
  have hpos : (p : ℤ) = posOf (chosen tcam matchFields) :=
    congrArg Prod.fst (Option.some.inj (hfound.symm.trans hsearch))
  cases hchosen : chosen tcam matchFields with
  | none =>
    rw [hchosen, posOf] at hpos
    omega
  | some q =>
    rw [hchosen] at hpos
    rw [Int.ofNat_inj.mp hpos]

theorem decodes_values (h : WellFormed tcam n m)
    (hfound : searchTcam tcam matchFields maskPos = some ((p : ℤ), found)) (flag : Block 2)
    (newValues : Block len) (hlong : sliceStart flag 16 ≤ 8 * len) (val : Block 6) :
    ∃ tcam', modifyEntry tcam matchFields flag newValues val = some ((p : ℤ), tcam') ∧
      DecodesValues tcam tcam' p flag newValues := by
  have hp := chosen_of_search h.searchable hfound
  obtain ⟨b, tcam', hb, hmodify, hrow⟩ := modifyEntry_spec h.searchable hp flag newValues hlong val
  have hhit : hitBack (slot b p) = tcam.flow p := by
    rw [hb, countedRows, if_pos ⟨chosen_lt h.tails hp, (bestOf_eq_some hp).isHit⟩,
      hitBack_hitOnce]
  exact ⟨tcam', hmodify, hrow.action, hhit ▸ hrow.flow, hrow.flag⟩

/-- A new source address and a new priority for the only entry. -/
theorem address_and_priority_decoded :
    let tcam := tableAfter [.add (firstByte 255) (entryFor 1 7) (firstByte 1) (firstByte 0)]
    let flag : Block 2 := Block.ofFn fun i => if i = 0 then 64 else 4
    ∃ tcam', modifyEntry tcam (firstByte 1) flag (firstByte 9 : Block 7) (firstByte 0) =
        some (0, tcam') ∧ DecodesValues tcam tcam' 0 flag (firstByte 9 : Block 7) := by
  intro tcam flag
  have h : WellFormed tcam 1 1 := by decide +kernel
  have hchosen : chosen tcam (firstByte 1) = some 0 := by decide +kernel
  obtain ⟨b, hsearch, -⟩ := searchTcam_of_chosen h.searchable hchosen 0
  exact decodes_values h hsearch flag (firstByte 9) (by decide) (firstByte 0)

/-- The other live rows, the masks and both tails are as they were. -/
structure OthersKept (tcam tcam' : TcamUnit) (p : ℕ) : Prop where
  flows : ∀ j < tcam.flowTail.toNat, j ≠ p → tcam'.flow j = tcam.flow j
  actions : ∀ j < tcam.flowTail.toNat, j ≠ p → tcam'.action j = tcam.action j
  flags : ∀ j < tcam.flowTail.toNat, j ≠ p → tcam'.flag j = tcam.flag j
  masks : tcam'.maskTable = tcam.maskTable
  flowTail : tcam'.flowTail = tcam.flowTail
  maskTail : tcam'.maskTail = tcam.maskTail

/-- The modify stays inside the arrays and touches row `p` only. -/
def TouchesOneRow (tcam : TcamUnit) (matchFields : Block mtchFldLen) (flag : Block 2)
    (newValues : Block len) (val : Block 6) (p : ℕ) : Prop :=
  ∃ tcam', modifyEntry tcam matchFields flag newValues val = some ((p : ℤ), tcam') ∧
    OthersKept tcam tcam' p

/-- The new values hold the fields selected, and no other live entry matches. -/
def MatchesOneRow (tcam : TcamUnit) (matchFields : Block mtchFldLen) (flag : Block 2)
    (len p : ℕ) : Prop :=
  sliceStart flag 16 ≤ 8 * len ∧
    ∀ j < tcam.flowTail.toNat, j ≠ p → entryMatches tcam matchFields j = false

theorem countedRows_eq_iff {j : ℕ} (hj : j < n) :
    countedRows tcam matchFields n j = tcam.flow j ↔ entryMatches tcam matchFields j = false := by
  constructor
  · intro hsame
    have hhits : (countedRows tcam matchFields n j).byte 46 = _ := hits_countedRows j
    rw [hsame, eq_comm, UInt8.add_eq_left] at hhits
    cases hmatch : entryMatches tcam matchFields j with
    | false => rfl
    | true =>
      rw [if_pos ⟨hj, hmatch⟩] at hhits
      cases hhits
  · intro hmiss
    rw [countedRows, hmiss, if_neg fun h => Bool.false_ne_true h.2]

theorem touches_one_row_iff (h : WellFormed tcam n m)
    (hfound : searchTcam tcam matchFields maskPos = some ((p : ℤ), found)) (flag : Block 2)
    (newValues : Block len) (val : Block 6) :
    TouchesOneRow tcam matchFields flag newValues val p ↔
      MatchesOneRow tcam matchFields flag len p := by
  have hp := chosen_of_search h.searchable hfound
  have hn := h.flowTail_toNat
  rcases Nat.lt_or_ge (8 * len) (sliceStart flag 16) with hshort | hlong
  · refine iff_of_false ?_ fun hone => absurd hone.1 (not_le.mpr hshort)
    rintro ⟨tcam', hmodify, -⟩
    rw [modifyEntry_short h.searchable hp flag newValues hshort val] at hmodify
    cases hmodify
  · obtain ⟨b, tcam', hb, hmodify, hrow⟩ :=
      modifyEntry_spec h.searchable hp flag newValues hlong val
    have hother : ∀ j ≠ p, tcam'.flow j = countedRows tcam matchFields n j :=
      fun j hj => (hrow.otherFlows j hj).trans (congrFun hb j)
    constructor
    · rintro ⟨tcam₁, hmodify₁, hkept⟩
      cases hmodify₁.symm.trans hmodify
      refine ⟨hlong, fun j hj hjp => (countedRows_eq_iff (hn ▸ hj)).mp ?_⟩
      rw [← hother j hjp, hkept.flows j hj hjp]
    · intro hone
      refine ⟨tcam', hmodify, fun j hj hjp => ?_, fun j _ => hrow.otherActions j,
        fun j _ => hrow.otherFlags j, hrow.masks, hrow.flowTail, hrow.maskTail⟩
      rw [hother j hjp]
      exact (countedRows_eq_iff (hn ▸ hj)).mpr (hone.2 j hj hjp)

/-- Two entries that do not overlap. -/
theorem second_row_touched :
    let tcam := tableAfter
      [.add (firstByte 255) (entryFor 1 7) (firstByte 1) (firstByte 0),
       .add (firstByte 15) (entryFor 2 7) (firstByte 2) (firstByte 0)]
    TouchesOneRow tcam (firstByte 2) (firstByte 128) (firstByte 9 : Block 7) (firstByte 0) 1 ↔
      MatchesOneRow tcam (firstByte 2) (firstByte 128) 7 1 := by
  intro tcam
  have h : WellFormed tcam 2 2 := by decide +kernel
  have hchosen : chosen tcam (firstByte 2) = some 1 := by decide +kernel
  obtain ⟨b, hsearch, -⟩ := searchTcam_of_chosen h.searchable hchosen 0
  exact touches_one_row_iff h hsearch (firstByte 128) (firstByte 9) (firstByte 0)

/-- Two overlapping entries: modifying the second leaves the first with a hit. -/
theorem overlapping_row_hit :
    let tcam := tableAfter
      [.add (firstByte 255) (entryFor 1 7) (firstByte 1) (firstByte 0),
       .add (firstByte 15) (entryFor 1 9) (firstByte 2) (firstByte 0)]
    WellFormed tcam 2 2 ∧ (∃ found, searchTcam tcam (firstByte 1) 0 = some (1, found)) ∧
      ¬ TouchesOneRow tcam (firstByte 1) (firstByte 128) (firstByte 9 : Block 7) (firstByte 0)
        1 := by
  intro tcam
  have h : WellFormed tcam 2 2 := by decide +kernel
  have hchosen : chosen tcam (firstByte 1) = some 1 := by decide +kernel
  obtain ⟨b, hsearch, -⟩ := searchTcam_of_chosen h.searchable hchosen 0
  refine ⟨h, ⟨_, hsearch⟩, ?_⟩
  rintro ⟨tcam', hmodify, hkept⟩
  have hhit : (modifyEntry tcam (firstByte 1) (firstByte 128) (firstByte 9 : Block 7)
      (firstByte 0)).map (fun r => (r.2.flow 0).byte 46) = some 1 := by
    decide +kernel
  rw [hmodify, Option.map_some, hkept.flows 0 (by decide +kernel) (by decide)] at hhit
  revert hhit
  decide +kernel

end Found

section Missing

/-- The modify returns a negative value and changes nothing. -/
def HarmlessModify (tcam : TcamUnit) (matchFields : Block mtchFldLen) (flag : Block 2)
    (newValues : Block len) (val : Block 6) : Prop :=
  ∃ pos < 0, modifyEntry tcam matchFields flag newValues val = some (pos, tcam)

/-- Whatever the flags, the counter in front of the table is to be decremented. -/
theorem modifyEntry_missing (h : Searchable tcam n m)
    (hmiss : ∀ p < n, entryMatches tcam matchFields p = false) (flag : Block 2)
    (newValues : Block len) (val : Block 6) :
    modifyEntry tcam matchFields flag newValues val = none := by
  obtain ⟨b, hsearch⟩ := searchTcam_missing h hmiss 0
  rw [modifyEntry_eq flag newValues (-1) hsearch (posOf_ne_strErr none) val]
  refine Option.bind_eq_none_iff.mpr fun s _ => ?_
  have hread : s.tcam.flowTable.read (-1 * flwEntLen + 46) = none := if_neg (by decide)
  rw [finishModify, hread]
  rfl

theorem modify_never_harmless (h : WellFormed tcam n m)
    (hmiss : ∀ p < n, entryMatches tcam matchFields p = false) (flag : Block 2)
    (newValues : Block len) (val : Block 6) :
    ¬ HarmlessModify tcam matchFields flag newValues val := by
  rintro ⟨pos, -, hmodify⟩
  rw [modifyEntry_missing h.searchable hmiss] at hmodify
  cases hmodify

/-- One entry, and match fields that it does not match. -/
theorem other_fields_not_harmless :
    ¬ HarmlessModify
      (tableAfter [.add (firstByte 255) (entryFor 1 7) (firstByte 1) (firstByte 0)])
      (firstByte 2) (firstByte 128) (firstByte 9 : Block 7) (firstByte 0) := by
  have h : WellFormed (tableAfter [.add (firstByte 255) (entryFor 1 7) (firstByte 1)
      (firstByte 0)]) 1 1 := by
    decide +kernel
  exact modify_never_harmless h (by decide +kernel) _ _ _

/-- Nothing can be modified in the empty table. -/
theorem empty_table_modified :
    WellFormed zeroedTcamUnit 0 0 ∧
      ¬ HarmlessModify zeroedTcamUnit (firstByte 1) (firstByte 128) (firstByte 9 : Block 7)
        (firstByte 0) := by
  refine ⟨by decide +kernel, ?_⟩
  rintro ⟨pos, -, hmodify⟩
  have hnone : (modifyEntry zeroedTcamUnit (firstByte 1) (firstByte 128) (firstByte 9 : Block 7)
      (firstByte 0)).isNone = true := by
    decide +kernel
  rw [hmodify] at hnone
  cases hnone

end Missing

end NetWalk.ModifyOutcomes
