import NetWalk.AddOutcomes
import NetWalk.DeleteOutcomes

/-!
# Counters and timeouts of moved entries

An entry is moved by writing it anew, and a new entry starts with counter 0 and
timeout 255. Adding in front of entries and deleting before them therefore resets
what they had counted; a delete moreover counts a hit for every entry that the
flow matches. Both keep the bookkeeping of the entries that stay where nothing
has to be kept.
-/
namespace NetWalk.Bookkeeping
open ByteBlock BitOperations SlotTable RowSequence PriorityScan FlowTables FlowSearch FlowAdd
open FlowDelete FlowRows FlowRuns GroupRuns AddOutcomes DeleteOutcomes
variable {tcam tcam' : TcamUnit} {n m pos p : ℕ}

/-- The counter and the timeout of entry `p`. -/
def bookkeeping (tcam : TcamUnit) (p : ℕ) : UInt8 × UInt8 :=
  ((tcam.flow p).byte 46, (tcam.flow p).byte 47)

/-- Those of a new entry. -/
def newBookkeeping : UInt8 × UInt8 := (0, 255)

/-- The call keeps the counters and timeouts of the entries that stay, wherever they are
moved to; the entry added has new ones. -/
def KeepsBookkeeping (tcam : TcamUnit) : TcamCall → Prop
  | .add mask flowEntry actionSet flag => ∃ (pos : ℕ) (tcam' : TcamUnit) (args : _),
      addNewEntry tcam mask flowEntry actionSet flag = some ((pos : ℤ), tcam', args) ∧
        ∀ k < tcam'.flowTail.toNat,
          bookkeeping tcam' k = openAt (bookkeeping tcam) pos newBookkeeping k
  | .delete flow => ∃ (pos : ℕ) (tcam' : TcamUnit),
      deleteFlowEntry tcam flow = some ((pos : ℤ), tcam') ∧
        ∀ k < tcam'.flowTail.toNat, bookkeeping tcam' k = closeAt (bookkeeping tcam) pos k

/-- The calls that change the table: an add that returns a position, a delete of a
matching flow. -/
def ChangesRows (tcam : TcamUnit) : TcamCall → Prop
  | .add mask flowEntry actionSet flag => ∃ pos ≥ 0, ∃ r,
      addNewEntry tcam mask flowEntry actionSet flag = some (pos, r)
  | .delete flow => ∃ p < tcam.flowTail.toNat, entryMatches tcam flow p = true

/-- The entries that have to be moved have the bookkeeping of new ones, and a delete is given a
flow that matches no entry in front of the one to go. -/
def MovesNewEntries (tcam : TcamUnit) : TcamCall → Prop
  | .add mask _ _ _ => ∀ g, FirstStored tcam tcam.maskTail.toNat mask g →
      ∀ k < tcam.flowTail.toNat, g < tcam.group k → bookkeeping tcam k = newBookkeeping
  | .delete flow => ∃ p < tcam.flowTail.toNat, entryMatches tcam flow p = true ∧
      (∀ k < p, entryMatches tcam flow k = false) ∧
      (∀ k < tcam.flowTail.toNat, p < k →
        (entryMatches tcam flow k = true → tcam.priority k ≤ tcam.priority p) ∧
          bookkeeping tcam k = newBookkeeping) ∧
      ¬ (p + 1 = noFFlws ∧ tcam.marker p = true)

theorem bookkeeping_freshEntry {q : ℕ} (entry : Block q) :
    ((freshEntry entry).byte 46, (freshEntry entry).byte 47) = newBookkeeping := by
  rw [freshEntry, Block.byte_ofFn (by decide), Block.byte_ofFn (by decide)]
  rfl

section Adding
variable {mask : Block mtchFldLen} {flowEntry : FlowEntry} {actionSet : Block actnStLen}
  {flag : Block 2}

theorem inserted_bookkeeping_iff (h : RowInserted tcam tcam' n pos flowEntry actionSet flag) :
    (∀ k < tcam'.flowTail.toNat,
        bookkeeping tcam' k = openAt (bookkeeping tcam) pos newBookkeeping k) ↔
      ∀ k < n, pos ≤ k → bookkeeping tcam k = newBookkeeping := by
  have hbefore : ∀ k < pos, bookkeeping tcam' k = bookkeeping tcam k := by
    intro k hk
    rw [bookkeeping, h.flow, Function.update_of_ne hk.ne, movedDown, if_neg (by omega)]
    rfl
  have hplaced : bookkeeping tcam' pos = newBookkeeping := by
    rw [bookkeeping, h.flow, Function.update_self]
    exact bookkeeping_freshEntry flowEntry
  have hmoved : ∀ k, pos < k → k ≤ n → bookkeeping tcam' k = newBookkeeping := by
    intro k hk hkn
    rw [bookkeeping, h.flow, Function.update_of_ne hk.ne', movedDown, if_pos ⟨hk, hkn⟩]
    exact bookkeeping_freshEntry _
  rw [h.flowTail_toNat]
  constructor
  · intro hkept k hk hle
    have hnext := hkept (k + 1) (by omega)
    rw [hmoved (k + 1) (by omega) (by omega), openAt, if_neg (by omega), if_neg (by omega),
      Nat.add_sub_cancel] at hnext
    exact hnext.symm
  · intro hnew k hk
    rw [openAt]
    split_ifs with hlt heq
    · exact hbefore k hlt
    · rw [heq, hplaced]
    · rw [hmoved k (by omega) (by omega), hnew (k - 1) (by omega) (by omega)]

/-- The entries behind the end of a group are those of later groups. -/
theorem groupEnd_le_iff {g s e : ℕ} (hs : GroupStart tcam n g s) (he : GroupEnd tcam n s e) {q : ℕ}
    (hq : q < n) : e ≤ q ↔ g < tcam.group q := by
  constructor
  · intro hle
    by_contra hgroup
    have := lt_groupEnd hs he hq (not_lt.mp hgroup)
    omega
  · intro hgroup
    by_contra hlt
    rcases Nat.lt_or_ge q s with hbefore | hinside
    · have := hs.first q hbefore
      omega
    · have := (group_eq_iff hs he hq).mpr ⟨hinside, not_le.mp hlt⟩
      omega

theorem keeps_of_inserted {placed : FlowEntry} {args : Block mtchFldLen × FlowEntry}
    (hadd : addNewEntry tcam mask flowEntry actionSet flag = some ((pos : ℤ), tcam', args))
    (hrow : RowInserted tcam tcam' n pos placed actionSet flag) :
    KeepsBookkeeping tcam (.add mask flowEntry actionSet flag) ↔
      ∀ k < n, pos ≤ k → bookkeeping tcam k = newBookkeeping := by
  rw [← inserted_bookkeeping_iff hrow]
  constructor
  · rintro ⟨pos₁, tcam₁, args₁, hadd₁, hkept⟩
    rw [hadd, Option.some.injEq, Prod.mk.injEq, Prod.mk.injEq, Int.natCast_inj] at hadd₁
    obtain ⟨rfl, rfl, -⟩ := hadd₁
    exact hkept
  · exact fun hkept => ⟨pos, tcam', args, hadd, hkept⟩

theorem add_keeps_iff (h : WellFormed tcam n m)
    (hc : ChangesRows tcam (.add mask flowEntry actionSet flag)) :
    KeepsBookkeeping tcam (.add mask flowEntry actionSet flag) ↔
      MovesNewEntries tcam (.add mask flowEntry actionSet flag) := by
  have hn := h.flowTail_toNat
  have hm := h.maskTail_toNat
  obtain ⟨pos₀, hge, r₀, hadd₀⟩ := hc
  obtain ⟨r, hadd, hr⟩ := addNewEntry_outcome h mask flowEntry actionSet flag
  have hresult := Option.some.inj (hadd₀.symm.trans hadd)
  rw [MovesNewEntries, hn, hm]
  cases hr with
  | full hfull =>
    obtain rfl : pos₀ = tblFull := congrArg Prod.fst hresult
    exact absurd hge (by decide)
  | redundant hlt hg htakes =>
    obtain rfl : pos₀ = rdndnt := congrArg Prod.fst hresult
    exact absurd hge (by decide)
  | inGroup hlt hg htakes hs he hrow hmask hmaskTail =>
    rw [keeps_of_inserted hadd hrow]
    constructor
    · intro hnew g' hg' k hk hgroup
      rw [hg.unique hg'] at hgroup
      exact hnew k hk ((groupEnd_le_iff hs he hk).mpr hgroup)
    · exact fun hnew k hk hle => hnew _ hg k hk ((groupEnd_le_iff hs he hk).mp hle)
  | newGroup hlt hmlt hnew hrow hmask hmaskTail =>
    rw [keeps_of_inserted hadd hrow]
    refine iff_of_true (fun k hk hle => absurd hk (not_lt.mpr hle)) fun g hg => ?_
    exact absurd hg.equal (hnew g hg.lt)

end Adding

section Deleting
variable {flow : Block mtchFldLen}

theorem handedOn_bookkeeping (k : ℕ) (hk : k < n) :
    ((handedOn tcam p (countedRows tcam flow n) k).byte 46,
        (handedOn tcam p (countedRows tcam flow n) k).byte 47) = bookkeeping tcam k ↔
      entryMatches tcam flow k = false := by
  rw [handedOn_byte _ _ (by decide), handedOn_byte _ _ (by decide), hits_countedRows,
    byte_countedRows k (by decide), bookkeeping, Prod.mk.injEq, UInt8.add_eq_left]
  cases entryMatches tcam flow k with
  | false => simp
  | true => simp [hk]

theorem removed_bookkeeping_iff (h : RowRemoved tcam tcam' n m p flow) (hp : p < n) :
    (∀ k < tcam'.flowTail.toNat, bookkeeping tcam' k = closeAt (bookkeeping tcam) p k) ↔
      (∀ k < p, entryMatches tcam flow k = false) ∧
        ∀ k < n, p < k → bookkeeping tcam k = newBookkeeping := by
  have hbefore : ∀ k < p, bookkeeping tcam' k = bookkeeping tcam k ↔
      entryMatches tcam flow k = false := by
    intro k hk
    rw [← handedOn_bookkeeping k (hk.trans hp), bookkeeping, h.flow, movedUp, if_neg (by omega)]
  have hmoved : ∀ k, p ≤ k → k < n - 1 → bookkeeping tcam' k = newBookkeeping := by
    intro k hk hkn
    rw [bookkeeping, h.flow, movedUp, if_pos ⟨hk, hkn⟩]
    exact bookkeeping_freshEntry _
  rw [h.flowTail_toNat]
  constructor
  · intro hkept
    constructor
    · intro k hk
      have hsame := hkept k (by omega)
      rw [closeAt, if_pos hk] at hsame
      exact (hbefore k hk).mp hsame
    · intro k hk hpk
      have hprev := hkept (k - 1) (by omega)
      rw [hmoved (k - 1) (by omega) (by omega), closeAt, if_neg (by omega),
        Nat.sub_add_cancel (by omega)] at hprev
      exact hprev.symm
  · rintro ⟨hmiss, hnew⟩ k hk
    rw [closeAt]
    split_ifs with hlt
    · exact (hbefore k hlt).mpr (hmiss k hlt)
    · rw [hmoved k (by omega) hk, hnew (k + 1) (by omega) (by omega)]

/-- If nothing in front of a match is found and nothing behind it is better, the search ends
with it. -/
theorem chosen_of_first {c : ℕ} (hc : chosen tcam flow = some c)
    (hmatch : entryMatches tcam flow p = true) (hmiss : ∀ k < p, entryMatches tcam flow k = false)
    (hless : ∀ k < tcam.flowTail.toNat, p < k → entryMatches tcam flow k = true →
      tcam.priority k ≤ tcam.priority p) : p = c := by
  have hbest := bestOf_eq_some hc
  rcases Nat.lt_trichotomy p c with hlt | heq | hgt
  · have hhigher := hbest.first p hlt hmatch
    have hlower := hless c hbest.lt hlt hbest.isHit
    omega
  · exact heq
  · have hhit := hbest.isHit
    rw [hmiss c hgt] at hhit
    cases hhit

theorem delete_keeps_iff (h : WellFormed tcam n m) (hc : ChangesRows tcam (.delete flow)) :
    KeepsBookkeeping tcam (.delete flow) ↔ MovesNewEntries tcam (.delete flow) := by
  have hn := h.flowTail_toNat
  obtain ⟨q, hq, hmatch⟩ := hc
  obtain ⟨c, hc⟩ := chosen_of_match h.toGrouped ⟨q, hn ▸ hq, hmatch⟩
  have hlt := chosen_lt h.tails hc
  have hbest := bestOf_eq_some hc
  by_cases hsafe : DeleteSafe tcam flow
  · obtain ⟨tcam', hdelete, hrow⟩ := deleteFlowEntry_safe h.toGrouped hc hsafe
    rw [KeepsBookkeeping, deleted_iff hdelete, removed_bookkeeping_iff hrow hlt]
    constructor
    · rintro ⟨hmiss, hnew⟩
      exact ⟨c, hbest.lt, hbest.isHit, hmiss, fun k hk hck => ⟨hbest.highest k hk,
        hnew k (hn ▸ hk) hck⟩, (deleteSafe_of_chosen hc).mp hsafe⟩
    · rintro ⟨p, -, hmatch, hmiss, hbehind, -⟩
      obtain rfl := chosen_of_first hc hmatch hmiss fun k hk hpk => (hbehind k hk hpk).1
      exact ⟨hmiss, fun k hk hpk => (hbehind k (hn ▸ hk) hpk).2⟩
  · refine iff_of_false (not_deleted (deleteFlowEntry_undefined h.searchable hsafe)) ?_
    rintro ⟨p, -, hmatch, hmiss, hbehind, hinside⟩
    obtain rfl := chosen_of_first hc hmatch hmiss fun k hk hpk => (hbehind k hk hpk).1
    exact hsafe ((deleteSafe_of_chosen hc).mpr hinside)

end Deleting

theorem bookkeeping_kept_iff (h : WellFormed tcam n m) (c : TcamCall) (hc : ChangesRows tcam c) :
    KeepsBookkeeping tcam c ↔ MovesNewEntries tcam c := by
  cases c with
  | add mask flowEntry actionSet flag => exact add_keeps_iff h hc
  | delete flow => exact delete_keeps_iff h hc

/-- The first of two entries that were never hit goes. -/
theorem new_entry_moved :
    let tcam := tableAfter
      [.add (firstByte 255) (entryFor 1 7) (firstByte 1) (firstByte 0),
       .add (firstByte 15) (entryFor 2 7) (firstByte 2) (firstByte 0)]
    KeepsBookkeeping tcam (.delete (firstByte 1)) ↔
      MovesNewEntries tcam (.delete (firstByte 1)) := by
  intro tcam
  have h : WellFormed tcam 2 2 := by decide +kernel
  exact bookkeeping_kept_iff h (.delete (firstByte 1)) ⟨0, by decide +kernel, by decide +kernel⟩

/-- The second of two groups is hit once, and its counter is 0 after an entry has been added to
the first group. -/
theorem counter_lost :
    ∃ found, searchTcam (tableAfter
        [.add (firstByte 255) (entryFor 1 7) (firstByte 1) (firstByte 0),
         .add (firstByte 15) (entryFor 2 7) (firstByte 2) (firstByte 0)]) (firstByte 2) 0 =
          some found ∧ WellFormed found.2.1 2 2 ∧
      ChangesRows found.2.1
        (.add (firstByte 255) (entryFor 3 7) (firstByte 3) (firstByte 0)) ∧
      ¬ KeepsBookkeeping found.2.1
        (.add (firstByte 255) (entryFor 3 7) (firstByte 3) (firstByte 0)) := by
  have hdue : (searchTcam (tableAfter
      [.add (firstByte 255) (entryFor 1 7) (firstByte 1) (firstByte 0),
       .add (firstByte 15) (entryFor 2 7) (firstByte 2) (firstByte 0)]) (firstByte 2) 0).any
      (fun found => WellFormed found.2.1 2 2 ∧ bookkeeping found.2.1 1 = (1, 255) ∧
        (addNewEntry found.2.1 (firstByte 255) (entryFor 3 7) (firstByte 3) (firstByte 0)).any
          (fun r => r.1 = 1 ∧ r.2.1.flowTail = 3 ∧ bookkeeping r.2.1 2 = (0, 255))) = true := by
    decide +kernel
  obtain ⟨found, hsearch, hfound⟩ := (Option.any_eq_true _ _).mp hdue
  obtain ⟨h, hhit, hadd⟩ := of_decide_eq_true hfound
  obtain ⟨⟨pos, tcam', args⟩, hadd, hr⟩ := (Option.any_eq_true _ _).mp hadd
  obtain ⟨rfl, htail, hmoved⟩ := of_decide_eq_true hr
  refine ⟨found, hsearch, h, ⟨1, by decide, _, hadd⟩, ?_⟩
  rintro ⟨pos, tcam₁, args₁, hadd₁, hkept⟩
  cases hadd₁.symm.trans hadd
  have hsame := hkept 2 (by rw [htail]; decide)
  rw [hmoved, openAt, if_neg (by decide), if_neg (by decide), hhit] at hsame
  cases hsame

end NetWalk.Bookkeeping
