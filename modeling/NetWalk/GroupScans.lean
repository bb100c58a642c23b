import NetWalk.FlowRuns
import Mathlib.Order.Bounds.Basic

/-!
# The scans that look for a mask group

`get_mask_pos`, `locate_mask_group`, `search_within_mask_group` and `search_tcam` each
count the markers of the flow table in a loop of their own. In a table with a live entry
they all mean the same groups. Without one, `locate_mask_group` still returns 0 for mask
0, where no entry is.
-/
namespace NetWalk.GroupScans
open ByteBlock RowSequence FlowTables FlowSearch FlowAdd FlowRuns

/-- The first entry has no marker, and there is one mask more than markers. -/
structure MarkedTable (tcam : TcamUnit) : Prop where
  tail_le : tcam.flowTail ≤ noFFlws
  first : tcam.marker 0 = false
  masks : tcam.maskTail = 1 + marks tcam.marker tcam.flowTail.toNat

/-- Each live entry has a mask, and a search stores the one of the entry it returns. -/
structure MasksAgree (tcam : TcamUnit) : Prop where
  mapped : ∀ p : ℕ, p < tcam.flowTail →
    ∃ g, getMaskPos tcam p = some g ∧ g < tcam.maskTail
  stored : ∀ flow maskPos, ∃ pos tcam' maskPos',
    searchTcam tcam flow maskPos = some (pos, tcam', maskPos') ∧
      ∀ p : ℕ, p < tcam.flowTail → pos = p → getMaskPos tcam p = some maskPos'

/-- Position `s` is found for group `m`, and is its first; a scan of the group from there
that meets no duplicate ends with the next group or the table. -/
structure GroupScanned (tcam : TcamUnit) (m s : ℕ) : Prop where
  located : locateMaskGroup tcam m = some (s : ℤ)
  first : IsLeast {p : ℕ | p < tcam.flowTail ∧ getMaskPos tcam p = some (m : ℤ)} s
  next : tcam.flowTail < noFFlws → ∀ mask flowEntry,
    ∃ pos, searchWithinMaskGroup tcam mask flowEntry s = some pos ∧ (pos ≠ rdndnt →
      ∃ e : ℕ, pos = e ∧ IsLeast {q : ℕ | s < q ∧
        ((q : ℤ) = tcam.flowTail ∨ getMaskPos tcam q = some ((m : ℤ) + 1))} e)

def GroupsScanned (tcam : TcamUnit) : Prop :=
  ∀ m : ℕ, m < tcam.maskTail → ∃ s, GroupScanned tcam m s

section Scans
variable {tcam : TcamUnit} {n m g s : ℕ}

theorem MarkedTable.grouped (h : MarkedTable tcam) (hlive : 0 < tcam.flowTail) :
    Grouped tcam tcam.flowTail.toNat (marks tcam.marker tcam.flowTail.toNat + 1) := by
  have hfew := marks_lt_of_unmarked h.first (show 0 < tcam.flowTail.toNat by omega)
  have hle := h.tail_le
  have hmasks := h.masks
  exact ⟨by omega, by omega, by omega, by omega, fun _ => rfl, fun hn => by omega⟩

theorem getMaskPos_eq_iff (h : Tails tcam n m) {p : ℕ} (hp : p < n) :
    getMaskPos tcam p = some (g : ℤ) ↔ tcam.group p = g := by
  rw [getMaskPos_spec h hp, Option.some.injEq, Int.natCast_inj]

/-- Where the search ends is the first position with that mask position. -/
theorem GroupStart.isLeast (h : Tails tcam n m) (hs : GroupStart tcam n g s) :
    IsLeast {p : ℕ | p < tcam.flowTail ∧ getMaskPos tcam p = some (g : ℤ)} s := by
  rw [h.flowTail]
  refine ⟨⟨Int.ofNat_lt.mpr hs.lt, (getMaskPos_eq_iff h hs.lt).mpr hs.group⟩, ?_⟩
  rintro p ⟨hp, hpos⟩
  have hgroup := (getMaskPos_eq_iff h (Int.ofNat_lt.mp hp)).mp hpos
  by_contra hlt
  have := hs.first p (not_le.mp hlt)
  omega

theorem GroupEnd.isLeast (h : Tails tcam n m) (hs : GroupStart tcam n g s) {e : ℕ}
    (he : GroupEnd tcam n s e) :
    IsLeast {q : ℕ | s < q ∧
      ((q : ℤ) = tcam.flowTail ∨ getMaskPos tcam q = some ((g : ℤ) + 1))} e := by
  rw [h.flowTail, ← Int.natCast_succ]
  constructor
  · refine ⟨he.lt, ?_⟩
    rcases Nat.lt_or_eq_of_le he.le with hlt | heq
    · exact .inr ((getMaskPos_eq_iff h hlt).mpr (group_groupEnd hs he hlt))
    · exact .inl (by omega)
  · rintro q ⟨hsq, hq⟩
    by_contra hlt
    have hqn : q < n := (not_le.mp hlt).trans_le he.le
    have hgroup := (group_eq_iff hs he hqn).mpr ⟨hsq.le, not_le.mp hlt⟩
    rcases hq with heq | hpos
    · omega
    · have := (getMaskPos_eq_iff h hqn).mp hpos
      omega

/-- The search returns a live entry only together with its mask position. -/
theorem MarkedTable.masksAgree (h : MarkedTable tcam) : MasksAgree tcam := by
  rcases lt_or_ge 0 tcam.flowTail with hlive | hempty
  · have hgrouped := h.grouped hlive
    refine ⟨fun p hp => ?_, fun flow maskPos => ?_⟩
    · have hpn : p < tcam.flowTail.toNat := by omega
      refine ⟨_, getMaskPos_spec hgrouped.tails hpn, ?_⟩
      rw [hgrouped.maskTail]
      exact Int.ofNat_lt.mpr (group_lt hgrouped hpn)
    · cases hbest : chosen tcam flow with
      | none =>
        obtain ⟨b, hsearch, -⟩ := searchTcam_spec hgrouped.searchable flow maskPos
        rw [hbest] at hsearch
        exact ⟨_, _, _, hsearch, fun p _ hpos => by rw [posOf] at hpos; omega⟩
      | some q =>
        obtain ⟨b, hsearch, -⟩ := searchTcam_of_chosen hgrouped.searchable hbest maskPos
        refine ⟨_, _, _, hsearch, fun p hp hpos => ?_⟩
        rw [Int.natCast_inj] at hpos
        subst hpos
        exact getMaskPos_spec hgrouped.tails (by omega)
  · refine ⟨fun p hp => by omega, fun flow maskPos => ⟨-1, tcam, maskPos, ?_, fun p hp => by omega⟩⟩
    rw [searchTcam, Int.toNat_of_nonpos hempty]
    rfl

theorem MarkedTable.groupsScanned (h : MarkedTable tcam) (hlive : 0 < tcam.flowTail) :
    GroupsScanned tcam := by
  intro m hm
  have hgrouped := h.grouped hlive
  rw [hgrouped.maskTail, Int.ofNat_lt] at hm
  obtain ⟨s, hlocate, hs⟩ := locateMaskGroup_spec hgrouped hm (by omega) fun _ => h.first
  refine ⟨s, hlocate, GroupStart.isLeast hgrouped.tails hs, fun hroom mask flowEntry => ?_⟩
  rcases searchWithinMaskGroup_spec hgrouped.flowTail (by omega) mask flowEntry hs with
    ⟨hdup, -⟩ | ⟨e, hend, he, -⟩
  · exact ⟨rdndnt, hdup, fun hne => absurd rfl hne⟩
  · exact ⟨e, hend, fun _ => ⟨e, rfl, GroupEnd.isLeast hgrouped.tails hs he⟩⟩

end Scans

/-- The scans agree on the groups; in a table without entries there is only mask 0, and
position 0 is returned for it. -/
theorem scans_agree {tcam : TcamUnit} (h : MarkedTable tcam) :
    MasksAgree tcam ∧ (0 < tcam.flowTail → GroupsScanned tcam) ∧
      (tcam.flowTail ≤ 0 → ∀ m : ℕ, m < tcam.maskTail → locateMaskGroup tcam m = some 0) := by
  refine ⟨h.masksAgree, h.groupsScanned, fun hempty m hm => ?_⟩
  have hmasks := h.masks
  rw [Int.toNat_of_nonpos hempty, marks_zero] at hmasks
  obtain rfl : m = 0 := by omega
  rfl

/-- Two entries, the second one with a mask of its own. -/
def twoGroups : TcamUnit :=
  { zeroedTcamUnit with
    flowTable := Block.ofFn fun i => if i = 48 + 44 then 8 else 0
    flowTail := 2
    maskTail := 2 }

theorem twoGroups_scans :
    MasksAgree twoGroups ∧ (0 < twoGroups.flowTail → GroupsScanned twoGroups) ∧
      (twoGroups.flowTail ≤ 0 →
        ∀ m : ℕ, m < twoGroups.maskTail → locateMaskGroup twoGroups m = some 0) :=
  scans_agree ⟨by decide, by decide, by decide⟩

/-- No entry, and a mask left over. -/
def emptiedTable : TcamUnit := { zeroedTcamUnit with maskTail := 1 }

/-- Position 0 is returned as the start of a group that has no entry. -/
theorem emptied_not_scanned :
    MarkedTable emptiedTable ∧ ¬ (MasksAgree emptiedTable ∧ GroupsScanned emptiedTable) := by
  refine ⟨⟨by decide, by decide, by decide⟩, ?_⟩
  rintro ⟨-, hscanned⟩
  obtain ⟨s, hs⟩ := hscanned 0 (by decide)
  exact absurd hs.first.1.1 (not_lt.mpr (Int.natCast_nonneg s))

end NetWalk.GroupScans
