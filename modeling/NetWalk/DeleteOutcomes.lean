import NetWalk.GroupRuns

/-!
# What a delete does to a well-formed table

A delete removes the row that the search chooses. It reads beyond the tables when
that row is marked and the last one of a full table. When the row is a group of
its own, the masks behind it move up and lose their spare bits on the way, so the
rows behind keep their masks if these have no spare bit set.
-/
namespace NetWalk.DeleteOutcomes
open ByteBlock RowSequence PriorityScan FlowTables FlowSearch FlowDelete FlowRows FlowRuns
open GroupRuns PartialRun
variable {tcam tcam' : TcamUnit} {n m p : ℕ} {flow : Block mtchFldLen}

/-- The delete stays inside the tables, returns the position that the search
chooses, and removes the row there and nothing else. -/
def DeletesRow (tcam : TcamUnit) (flow : Block mtchFldLen) : Prop :=
  ∃ (pos : ℕ) (tcam' : TcamUnit), deleteFlowEntry tcam flow = some ((pos : ℤ), tcam') ∧
    (searchTcam tcam flow 0).map (fun found => found.1) = some (pos : ℤ) ∧
    rows tcam' = (rows tcam).eraseIdx pos

/-- The entry to delete is not a marked one in the last row of a full table, and
if it is a marked group of its own, the masks behind it have no spare bit set. -/
def DeletesRight (tcam : TcamUnit) (flow : Block mtchFldLen) : Prop :=
  DeleteSafe tcam flow ∧ ∀ p ∈ chosen tcam flow, lone tcam tcam.flowTail.toNat p = true →
    ∀ q < tcam.flowTail.toNat, p < q → clearSpare (tcam.maskOf q) = tcam.maskOf q

theorem chosen_of_match (h : Grouped tcam n m)
    (hmatch : ∃ p < n, entryMatches tcam flow p = true) : ∃ p, chosen tcam flow = some p := by
  obtain ⟨q, hq, hmatch⟩ := hmatch
  cases hp : chosen tcam flow with
  | none =>
    have hmiss := bestOf_eq_none_iff.mp hp q (by rwa [h.flowTail_toNat])
    rw [hmatch] at hmiss
    cases hmiss
  | some p => exact ⟨p, rfl⟩

theorem searchTcam_chosen (h : Grouped tcam n m) (hp : chosen tcam flow = some p) :
    (searchTcam tcam flow 0).map (fun found => found.1) = some (p : ℤ) := by
  obtain ⟨b, hsearch, -⟩ := searchTcam_of_chosen h.searchable hp 0
  rw [hsearch]
  rfl

/-- The rows left are those of the list with one row less exactly if every entry
left has the mask it had. -/
theorem removed_rows_iff (h : RowRemoved tcam tcam' n m p flow) (hg : Grouped tcam n m)
    (hp : p < n) :
    rows tcam' = (rows tcam).eraseIdx p ↔
      ∀ k < n - 1, tcam'.maskOf k = closeAt tcam.maskOf p k := by
  constructor
  · intro hrows k hk
    rw [rows, rows, h.flowTail_toNat, hg.flowTail_toNat, ← firstRows_closeAt _ _ _ hp] at hrows
    have hrow : row tcam' k = closeAt (row tcam) p k := by
      have hget := congrArg (fun l => l[k]?) hrows
      simpa only [getElem?_firstRows _ hk, Option.some.injEq] using hget
    have hmask := congrArg Rule.mask hrow
    rw [closeAt] at hmask ⊢
    split_ifs at hmask ⊢ <;> exact hmask
  · exact removed_rows h hg.flowTail hp

theorem removed_masks_iff (h : RowRemoved tcam tcam' n m p flow) (hg : Grouped tcam n m)
    (hp : p < n) :
    (∀ k < n - 1, tcam'.maskOf k = closeAt tcam.maskOf p k) ↔
      (lone tcam n p = true → ∀ q < n, p < q → clearSpare (tcam.maskOf q) = tcam.maskOf q) := by
  constructor
  · intro hmasks hlone q hq hpq
    have hk : q - 1 < n - 1 := by omega
    have hmoved := removed_maskOf_lone h hg hp hlone hk
    rw [hmasks _ hk, closeAt, if_neg (by omega), if_neg (by omega),
      Nat.sub_add_cancel (by omega)] at hmoved
    exact hmoved.symm
  · exact fun hnorm => removed_maskOf h hg hp fun hlone q hpq hq => hnorm hlone q hq hpq

/-- What is said of the position and the table that a delete returns is said of its only
result. -/
theorem deleted_iff {P : ℕ → TcamUnit → Prop}
    (hdelete : deleteFlowEntry tcam flow = some ((p : ℤ), tcam')) :
    (∃ (pos : ℕ) (tcam₁ : TcamUnit), deleteFlowEntry tcam flow = some ((pos : ℤ), tcam₁) ∧
      P pos tcam₁) ↔ P p tcam' := by
  constructor
  · rintro ⟨pos, tcam₁, hdelete₁, hP⟩
    rw [hdelete, Option.some.injEq, Prod.mk.injEq, Int.natCast_inj] at hdelete₁
    obtain ⟨rfl, rfl⟩ := hdelete₁
    exact hP
  · exact fun hP => ⟨p, tcam', hdelete, hP⟩

theorem not_deleted {P : ℕ → TcamUnit → Prop} (hnone : deleteFlowEntry tcam flow = none) :
    ¬ ∃ (pos : ℕ) (tcam₁ : TcamUnit), deleteFlowEntry tcam flow = some ((pos : ℤ), tcam₁) ∧
      P pos tcam₁ := by
  rintro ⟨pos, tcam₁, hdelete, -⟩
  rw [hnone] at hdelete
  cases hdelete

theorem deletes_row_iff (h : WellFormed tcam n m)
    (hmatch : ∃ p < n, entryMatches tcam flow p = true) :
    DeletesRow tcam flow ↔ DeletesRight tcam flow := by
  obtain ⟨p, hp⟩ := chosen_of_match h.toGrouped hmatch
  have hlt := chosen_lt h.tails hp
  by_cases hsafe : DeleteSafe tcam flow
  · obtain ⟨tcam', hdelete, hrow⟩ := deleteFlowEntry_safe h.toGrouped hp hsafe
    have hkeeps := (removed_rows_iff hrow h.toGrouped hlt).trans
      (removed_masks_iff hrow h.toGrouped hlt)
    rw [DeletesRow, deleted_iff hdelete, and_iff_right (searchTcam_chosen h.toGrouped hp), hkeeps,
      DeletesRight, and_iff_right hsafe, h.flowTail_toNat, hp]
    simp only [Option.mem_some_iff, forall_eq']
  · exact iff_of_false (not_deleted (deleteFlowEntry_undefined h.searchable hsafe)) fun hright =>
      hsafe hright.1

/-- The first of two entries in one group goes. -/
theorem first_of_group_goes :
    let tcam := tableAfter
      [.add (firstByte 255) (entryFor 1 7) (firstByte 1) (firstByte 0),
       .add (firstByte 255) (entryFor 2 7) (firstByte 2) (firstByte 0)]
    DeletesRow tcam (firstByte 1) ↔ DeletesRight tcam (firstByte 1) := by
  intro tcam
  have h : WellFormed tcam 2 1 := by decide +kernel
  exact deletes_row_iff h ⟨0, by decide, by decide +kernel⟩

/-- Nineteen entries of one group, and one of a group of its own. -/
def fullTable : TcamUnit := tableAfter
  ((List.range 19).map (fun i =>
    .add (firstByte 255) (entryFor (UInt8.ofNat (i + 1)) 7) (firstByte 1) (firstByte 0)) ++
    [.add (firstByte 15) (entryFor 0 7) (firstByte 2) (firstByte 0)])

/-- Deleting the last entry of this table asks for the marker of entry 20. -/
theorem last_group_overruns :
    WellFormed fullTable 20 2 ∧ (∃ p < 20, entryMatches fullTable (firstByte 0) p = true) ∧
      ¬ DeletesRow fullTable (firstByte 0) := by
  obtain ⟨h, hlast, hmark⟩ : WellFormed fullTable 20 2 ∧
      chosen fullTable (firstByte 0) = some 19 ∧ fullTable.marker 19 = true := by
    decide +kernel
  refine ⟨h, ⟨19, by decide, (bestOf_eq_some hlast).isHit⟩, ?_⟩
  rintro ⟨pos, tcam', hdelete, -⟩
  rw [deleteFlowEntry_overrun h.searchable hlast hmark rfl] at hdelete
  cases hdelete

section Missing

/-- The delete returns a negative value and changes nothing. -/
def Harmless (tcam : TcamUnit) (flow : Block mtchFldLen) : Prop :=
  ∃ pos < 0, deleteFlowEntry tcam flow = some (pos, tcam)

/-- Position -1 is taken for the position of an entry: its marker is looked for in front of
the table. -/
theorem deleteFlowEntry_missing (h : Searchable tcam n m)
    (hmiss : ∀ p < n, entryMatches tcam flow p = false) : deleteFlowEntry tcam flow = none := by
  obtain ⟨b, hsearch⟩ := searchTcam_missing h hmiss 0
  have hmarker := readMarker_before { tcam with flowTable := b } (show (-1 : ℤ) < 0 by decide)
  refine (bind_some_eq hsearch).trans ?_
  simp only [deleteLoneMask, hmarker]
  rfl

theorem never_harmless (h : WellFormed tcam n m)
    (hmiss : ∀ p < n, entryMatches tcam flow p = false) : ¬ Harmless tcam flow := by
  rintro ⟨pos, -, hdelete⟩
  rw [deleteFlowEntry_missing h.searchable hmiss] at hdelete
  cases hdelete

/-- One entry, and a flow that it does not match. -/
theorem other_flow_not_harmless :
    ¬ Harmless (tableAfter [.add (firstByte 255) (entryFor 1 7) (firstByte 1) (firstByte 0)])
      (firstByte 2) := by
  have h : WellFormed (tableAfter [.add (firstByte 255) (entryFor 1 7) (firstByte 1)
      (firstByte 0)]) 1 1 := by
    decide +kernel
  exact never_harmless h (by decide +kernel)

/-- Nothing can be deleted from the empty table. -/
theorem empty_table_not_harmless :
    WellFormed zeroedTcamUnit 0 0 ∧ ¬ Harmless zeroedTcamUnit (firstByte 1) := by
  refine ⟨by decide +kernel, ?_⟩
  rintro ⟨pos, -, hdelete⟩
  have hnone : (deleteFlowEntry zeroedTcamUnit (firstByte 1)).isNone = true := by decide +kernel
  rw [hdelete] at hnone
  cases hnone

end Missing

section Given

/-- Entries `p` and `q` have the same match bits and priority. -/
def SameEntry (tcam : TcamUnit) (p q : ℕ) : Prop :=
  (row tcam p).matchBits = (row tcam q).matchBits ∧
    (row tcam p).priority = (row tcam q).priority

/-- Given entry `p`, the delete removes a row with its match bits and priority, and
nothing else. -/
def RemovesGiven (tcam : TcamUnit) (p : ℕ) : Prop :=
  ∃ (pos : ℕ) (tcam' : TcamUnit),
    deleteFlowEntry tcam (tcam.matchFields p) = some ((pos : ℤ), tcam') ∧
      pos < tcam.flowTail.toNat ∧ SameEntry tcam p pos ∧
      (rows tcam').map Rule.contents = ((rows tcam).map Rule.contents).eraseIdx pos

/-- Entry `q` is matched by the match fields of entry `p`. -/
def Overlaps (tcam : TcamUnit) (p q : ℕ) : Prop :=
  entryMatches tcam (tcam.matchFields p) q = true

/-- Other entries that the match fields of entry `p` match have a lower priority, or the
same one behind an entry that is the same as `p`; and the entry to go is not a marked one
in the last row of a full table. -/
structure ComesFirst (tcam : TcamUnit) (p : ℕ) : Prop where
  others : ∀ q < tcam.flowTail.toNat, Overlaps tcam p q → ¬ SameEntry tcam p q →
    tcam.priority q ≤ tcam.priority p ∧
      (tcam.priority q = tcam.priority p → ∃ r < q, Overlaps tcam p r ∧ SameEntry tcam p r)
  inside : p + 1 = noFFlws → tcam.marker p = true →
    ∃ r < p, Overlaps tcam p r ∧ SameEntry tcam p r

theorem SameEntry.priority_eq {q : ℕ} (h : SameEntry tcam p q) :
    tcam.priority p = tcam.priority q := congrArg UInt8.toNat h.2

/-- The search ends with an entry that is the same as the given one. -/
theorem chosen_same_iff {c : ℕ} (hp : p < tcam.flowTail.toNat)
    (hc : chosen tcam (tcam.matchFields p) = some c) :
    SameEntry tcam p c ↔ ∀ q < tcam.flowTail.toNat, Overlaps tcam p q → ¬ SameEntry tcam p q →
      tcam.priority q ≤ tcam.priority p ∧
        (tcam.priority q = tcam.priority p →
          ∃ r < q, Overlaps tcam p r ∧ SameEntry tcam p r) := by
  have hbest := bestOf_eq_some hc
  have hown := hbest.highest p hp (entryMatches_own tcam p)
  constructor
  · intro hsame q hq hover hother
    have hprio := hsame.priority_eq
    refine ⟨hprio ▸ hbest.highest q hq hover, fun heq => ⟨c, ?_, hbest.isHit, hsame⟩⟩
    by_contra hle
    rcases Nat.eq_or_lt_of_le (not_lt.mp hle) with rfl | hlt
    · exact hother hsame
    · have := hbest.first q hlt hover
      omega
  · intro hothers
    by_contra hother
    obtain ⟨hle, hbehind⟩ := hothers c hbest.lt hbest.isHit hother
    obtain ⟨r, hrc, hover, hsame⟩ := hbehind (le_antisymm hle hown)
    have := hbest.first r hrc hover
    have := hsame.priority_eq
    omega

/-- The entry to go is then the marked one in the last row only if it is `p` itself. -/
theorem deleteSafe_iff {c : ℕ} (hfull : tcam.flowTail.toNat ≤ noFFlws)
    (hp : p < tcam.flowTail.toNat) (hc : chosen tcam (tcam.matchFields p) = some c)
    (hsame : SameEntry tcam p c) :
    DeleteSafe tcam (tcam.matchFields p) ↔ (p + 1 = noFFlws → tcam.marker p = true →
      ∃ r < p, Overlaps tcam p r ∧ SameEntry tcam p r) := by
  have hbest := bestOf_eq_some hc
  have hlt := hbest.lt
  constructor
  · intro hsafe hlast hmark
    refine ⟨c, ?_, hbest.isHit, hsame⟩
    by_contra hle
    have hend : c = noFFlws - 1 := by omega
    exact hsafe ⟨hend ▸ hc, by rwa [← show p = noFFlws - 1 by omega]⟩
  · rintro hinside ⟨hlast, hmark⟩
    cases hc.symm.trans hlast
    have hown : ¬ p < noFFlws - 1 := fun hlow => by
      have := hbest.first p hlow (entryMatches_own tcam p)
      have := hsame.priority_eq
      omega
    have hend : p = noFFlws - 1 := by omega
    obtain ⟨r, hr, hover, hsame'⟩ := hinside (by omega) (hend ▸ hmark)
    have := hbest.first r (by omega) hover
    have := hsame'.priority_eq
    have := hsame.priority_eq
    omega

theorem removes_given_iff (h : WellFormed tcam n m) (hp : p < n) :
    RemovesGiven tcam p ↔ ComesFirst tcam p := by
  have hn := h.flowTail_toNat
  obtain ⟨c, hc⟩ := chosen_of_match h.toGrouped ⟨p, hp, entryMatches_own tcam p⟩
  have hlt := chosen_lt h.tails hc
  have hothers := chosen_same_iff (hn ▸ hp) hc
  have hinside := deleteSafe_iff (hn.trans_le h.flow_le) (hn ▸ hp) hc
  by_cases hsafe : DeleteSafe tcam (tcam.matchFields p)
  · obtain ⟨tcam', hdelete, hrow⟩ := deleteFlowEntry_safe h.toGrouped hc hsafe
    have hcontents := removed_contents hrow h.flowTail hlt
    rw [RemovesGiven, deleted_iff hdelete]
    constructor
    · rintro ⟨-, hsame, -⟩
      exact ⟨hothers.mp hsame, (hinside hsame).mp hsafe⟩
    · exact fun hfirst => ⟨hn ▸ hlt, hothers.mpr hfirst.others, hcontents⟩
  · have hundefined := deleteFlowEntry_undefined h.searchable hsafe
    refine iff_of_false (not_deleted hundefined) fun hfirst => ?_
    exact hsafe ((hinside (hothers.mpr hfirst.others)).mpr hfirst.inside)

/-- Two entries with different first bytes. -/
theorem second_entry_given :
    let tcam := tableAfter
      [.add (firstByte 255) (entryFor 1 7) (firstByte 1) (firstByte 0),
       .add (firstByte 15) (entryFor 2 7) (firstByte 2) (firstByte 0)]
    RemovesGiven tcam 1 ↔ ComesFirst tcam 1 := by
  intro tcam
  have h : WellFormed tcam 2 2 := by decide +kernel
  exact removes_given_iff h (by decide)

/-- Given the first of two overlapping entries, the delete removes the second, which has the
higher priority. -/
theorem overlapping_entry_goes :
    let tcam := tableAfter
      [.add (firstByte 255) (entryFor 1 7) (firstByte 1) (firstByte 0),
       .add (firstByte 15) (entryFor 1 9) (firstByte 2) (firstByte 0)]
    WellFormed tcam 2 2 ∧ ¬ RemovesGiven tcam 0 := by
  intro tcam
  refine ⟨by decide +kernel, ?_⟩
  rintro ⟨pos, tcam', hdelete, -, hsame, -⟩
  have hpos : (deleteFlowEntry tcam (tcam.matchFields 0)).map (fun r => r.1) = some 1 := by
    decide +kernel
  rw [hdelete, Option.map_some, Option.some.injEq] at hpos
  obtain rfl : pos = 1 := Int.ofNat_inj.mp hpos
  exact absurd hsame.2 (by decide +kernel)

end Given

end NetWalk.DeleteOutcomes
