import NetWalk.FlowSearch

/-!
# Adding entries to the flow table

`add_new_entry` looks the mask up among the stored masks. An entry with a
stored mask is put at the end of the mask's group, unless the group already has
an entry that it takes for the same; an entry with a new mask becomes a group of
its own at the end of the table. Both ways the rows of the flow, action and flag
tables gain one row at one position (`RowInserted`).
-/
namespace NetWalk.FlowAdd
open ByteBlock BitOperations SlotTable RowSequence FlowTables FlowSearch

/-- `RDNDNT` -/
def rdndnt : ℤ := -2

/-- `TBL_FULL` -/
def tblFull : ℤ := -3

/-- The loop of `locate_mask_group` from entry `i` on, with `k` marks seen. -/
def locateFrom (tcam : TcamUnit) (maskNo : ℤ) : ℕ → ℤ → ℤ → Option ℤ
  | 0, i, _ => some (if i = tcam.flowTail then strErr else i)
  | passes + 1, i, k => do
      if ← readMarker tcam i then
        if k + 1 = maskNo then some i else locateFrom tcam maskNo passes (i + 1) (k + 1)
      else locateFrom tcam maskNo passes (i + 1) k

def locateMaskGroup (tcam : TcamUnit) (maskNo : ℤ) : Option ℤ :=
  if maskNo = 0 then some 0 else locateFrom tcam maskNo tcam.flowTail.toNat 0 0

/-- As in the source: each byte of entry `i` is compared with byte `i` of the
new entry. -/
def entryDiffers (tcam : TcamUnit) (mask : Block mtchFldLen) (flowEntry : FlowEntry) (i : ℤ) :
    Option Bool :=
  differ (fun l j => readBit mask (l * 8 + j)) (fun _ j => readBit flowEntry (i * 8 + j))
    (fun l j => readBit tcam.flowTable ((i * flwEntLen + l) * 8 + j))

/-- The loop of `search_within_mask_group` from entry `i` on; it tests after
each pass, the marker of the next entry first. -/
def searchWithinFrom (tcam : TcamUnit) (mask : Block mtchFldLen) (flowEntry : FlowEntry) :
    ℕ → ℤ → Option ℤ
  | 0, _ => none
  | fuel + 1, i => do
      if ← entryDiffers tcam mask flowEntry i then
        let marked ← readMarker tcam (i + 1)
        if marked = false ∧ i + 1 < tcam.flowTail then
          searchWithinFrom tcam mask flowEntry fuel (i + 1)
        else some (i + 1)
      else some rdndnt

def searchWithinMaskGroup (tcam : TcamUnit) (mask : Block mtchFldLen) (flowEntry : FlowEntry)
    (maskGroupStart : ℤ) : Option ℤ :=
  searchWithinFrom tcam mask flowEntry ((tcam.flowTail - maskGroupStart).toNat + 1)
    maskGroupStart

def maskDiffers (tcam : TcamUnit) (mask : Block mtchFldLen) (i : ℤ) : Option Bool :=
  (List.range mtchFldLen).anyM fun (j : ℕ) => do
    let stored ← tcam.maskTable.read (i * mtchFldLen + j)
    let given ← mask.read j
    some (stored != given)

/-- The position of the first stored mask from `i` on that equals the given one. -/
def findMask (tcam : TcamUnit) (mask : Block mtchFldLen) : ℕ → ℤ → Option (Option ℤ)
  | 0, _ => some none
  | passes + 1, i => do
      if ← maskDiffers tcam mask i then findMask tcam mask passes (i + 1) else some (some i)

/-- The position returned, the table, and the caller's arrays afterwards. -/
abbrev AddResult := ℤ × TcamUnit × Block mtchFldLen × FlowEntry

/-- The part of `add_new_flow_entry` for a mask stored at position `i`. -/
def addToMaskGroup (tcam : TcamUnit) (mask : Block mtchFldLen) (flowEntry : FlowEntry) (i : ℤ) :
    Option AddResult := do
  let maskGroupStart ← locateMaskGroup tcam i
  let pos ← searchWithinMaskGroup tcam mask flowEntry maskGroupStart
  if pos = rdndnt then some (rdndnt, tcam, mask, flowEntry)
  else
    let tcam ← restructureFlowTable tcam pos
    let flowEntry ← resetBit flowEntry (44 * 8 + 4)
    let ch := tcam.flowTail
    let tcam ← writeNewFlowEntry { tcam with flowTail := pos } flowEntry
    some (pos, { tcam with flowTail := ch }, mask, flowEntry)

/-- The part of `add_new_flow_entry` for a mask that is not stored. -/
def addWithNewMask (tcam : TcamUnit) (mask : Block mtchFldLen) (flowEntry : FlowEntry) :
    Option AddResult := do
  let flowEntry ← (if tcam.flowTail = 0 then resetBit flowEntry (44 * 8 + 4)
    else setBit flowEntry (44 * 8 + 4))
  let (tcam, mask) ← writeNewMask tcam mask
  let tcam ← writeNewFlowEntry tcam flowEntry
  some (tcam.flowTail - 1, tcam, mask, flowEntry)

def addNewFlowEntry (tcam : TcamUnit) (mask : Block mtchFldLen) (flowEntry : FlowEntry) :
    Option AddResult :=
  if noFFlws ≤ tcam.flowTail then some (tblFull, tcam, mask, flowEntry)
  else do
    let found ← findMask tcam mask tcam.maskTail.toNat 0
    match found with
    | some i => addToMaskGroup tcam mask flowEntry i
    | none => addWithNewMask tcam mask flowEntry

def addNewEntry (flowUnit : TcamUnit) (mask : Block mtchFldLen) (flowEntry : FlowEntry)
    (actionSet : Block actnStLen) (flag : Block 2) : Option AddResult := do
  let (pos, flowUnit, mask, flowEntry) ← addNewFlowEntry flowUnit mask flowEntry
  if pos = tblFull ∨ pos = rdndnt then some (pos, flowUnit, mask, flowEntry)
  else
    let flowUnit ← (if pos < flowUnit.flowTail - 1 then restructureActionTables flowUnit pos
      else some flowUnit)
    let flowUnit ← writeNewAction flowUnit actionSet flag pos
    some (pos, flowUnit, mask, flowEntry)

section Lookup
variable {tcam : TcamUnit} {n m : ℕ}

theorem maskDiffers_spec (tcam : TcamUnit) (mask : Block mtchFldLen) {i : ℕ} (hi : i < noFFlws) :
    maskDiffers tcam mask i = some (decide (tcam.mask i ≠ mask)) := by
  have hread : ∀ j ∈ List.range mtchFldLen, (do
      let stored ← tcam.maskTable.read ((i : ℤ) * mtchFldLen + (j : ℕ))
      let given ← mask.read (j : ℕ)
      some (stored != given)) = some ((tcam.mask i).byte j != mask.byte j) := by
    intro j hj
    rw [List.mem_range] at hj
    simp only [read_slot tcam.maskTable hi hj rfl, Block.read_natCast mask hj,
      Option.bind_eq_bind, Option.bind_some]
    rfl
  rw [maskDiffers, anyM_eq_some _ _ _ hread, Option.some.injEq, Bool.eq_iff_iff,
    List.any_eq_true, decide_eq_true_eq]
  simp only [List.mem_range, bne_iff_ne]
  constructor
  · rintro ⟨j, -, hne⟩ heq
    exact hne (by rw [heq])
  · intro hne
    by_contra hall
    refine hne (Block.ext_byte fun j hj => ?_)
    by_contra hbyte
    exact hall ⟨j, hj, hbyte⟩

/-- The first stored mask that equals the given one. -/
structure FirstStored (tcam : TcamUnit) (m : ℕ) (mask : Block mtchFldLen) (g : ℕ) : Prop where
  lt : g < m
  equal : tcam.mask g = mask
  before : ∀ j < g, tcam.mask j ≠ mask

instance (tcam : TcamUnit) (m : ℕ) (mask : Block mtchFldLen) (g : ℕ) :
    Decidable (FirstStored tcam m mask g) :=
  decidable_of_iff (g < m ∧ tcam.mask g = mask ∧ ∀ j < g, tcam.mask j ≠ mask)
    ⟨fun ⟨hlt, hequal, hbefore⟩ => ⟨hlt, hequal, hbefore⟩, fun h => ⟨h.lt, h.equal, h.before⟩⟩

theorem FirstStored.unique {mask : Block mtchFldLen} {g g' : ℕ} (h : FirstStored tcam m mask g)
    (h' : FirstStored tcam m mask g') : g' = g := by
  rcases Nat.lt_trichotomy g g' with hlt | heq | hgt
  · exact absurd h.equal (h'.before g hlt)
  · exact heq.symm
  · exact absurd h'.equal (h.before g' hgt)

theorem firstStored_of_mem {mask : Block mtchFldLen} (h : ∃ g < m, tcam.mask g = mask) :
    ∃ g, FirstStored tcam m mask g := by
  obtain ⟨g, ⟨hg, heq⟩, hleast⟩ := Nat.findX (p := fun g => g < m ∧ tcam.mask g = mask) h
  exact ⟨g, hg, heq, fun j hj hjeq => hleast j hj ⟨by omega, hjeq⟩⟩

theorem firstStored_or_new (tcam : TcamUnit) (m : ℕ) (mask : Block mtchFldLen) :
    (∃ g, FirstStored tcam m mask g) ∨ ∀ g < m, tcam.mask g ≠ mask := by
  by_cases hstored : ∃ g < m, tcam.mask g = mask
  · exact .inl (firstStored_of_mem hstored)
  · exact .inr fun g hg heq => hstored ⟨g, hg, heq⟩

/-- The lookup finds the first stored mask that equals the given one. -/
theorem findMask_spec (tcam : TcamUnit) (mask : Block mtchFldLen) (passes : ℕ) {i : ℕ}
    (hm : i + passes = m) (hle : m ≤ noFFlws) (hbefore : ∀ j < i, tcam.mask j ≠ mask) :
    (∃ g : ℕ, FirstStored tcam m mask g ∧ findMask tcam mask passes i = some (some ↑g)) ∨
      (∀ j < m, tcam.mask j ≠ mask) ∧ findMask tcam mask passes i = some none := by
  induction passes generalizing i with
  | zero =>
    rw [Nat.add_zero] at hm
    exact .inr ⟨hm ▸ hbefore, rfl⟩
  | succ passes ih =>
    have hdiff := maskDiffers_spec tcam mask (show i < noFFlws by omega)
    by_cases heq : tcam.mask i = mask
    · refine .inl ⟨i, ⟨by omega, heq, hbefore⟩, ?_⟩
      simp [findMask, hdiff, heq]
    · have hstep : findMask tcam mask (passes + 1) i = findMask tcam mask passes (i + 1 : ℕ) := by
        simp [findMask, hdiff, heq]
      rw [hstep]
      refine ih (by omega) fun j hj => ?_
      rcases Nat.lt_succ_iff_lt_or_eq.mp hj with hlt | rfl
      · exact hbefore j hlt
      · exact heq

/-- The first entry of a group. -/
structure GroupStart (tcam : TcamUnit) (n g s : ℕ) : Prop where
  lt : s < n
  group : tcam.group s = g
  first : ∀ q < s, tcam.group q < g

/-- The search for the start of a group ends there, or with an error behind the last
entry. -/
theorem locateFrom_spec (h : Tails tcam n m) {g : ℕ} (passes : ℕ) {i : ℕ} (hi : i + passes = n)
    (hseen : marks tcam.marker i < g) :
    (locateFrom tcam g passes i (marks tcam.marker i) = some strErr ∧ marks tcam.marker n < g) ∨
      ∃ s : ℕ, locateFrom tcam g passes i (marks tcam.marker i) = some (s : ℤ) ∧
        GroupStart tcam n g s := by
  induction passes generalizing i with
  | zero =>
    rw [Nat.add_zero] at hi
    subst hi
    exact .inl ⟨congrArg some (if_pos h.flowTail.symm), hseen⟩
  | succ passes ih =>
    have hlen := h.flow_le
    have hnext : (i : ℤ) + 1 = (i + 1 : ℕ) := by omega
    simp only [locateFrom, readMarker_spec tcam (show i < noFFlws by omega), Option.bind_eq_bind,
      Option.bind_some]
    have hgroup : tcam.group i = marks tcam.marker i + (tcam.marker i).toNat :=
      marks_succ tcam.marker i
    cases hmark : tcam.marker i with
    | false =>
      have hsame : marks tcam.marker (i + 1) = marks tcam.marker i := by
        rw [marks_succ, hmark]
        rfl
      rw [if_neg Bool.false_ne_true, hnext, ← hsame]
      exact ih (by omega) (by omega)
    | true =>
      have hone : marks tcam.marker (i + 1) = marks tcam.marker i + 1 := by
        rw [marks_succ, hmark]
        rfl
      rw [hmark] at hgroup
      rw [if_pos rfl]
      by_cases hlast : marks tcam.marker i + 1 = g
      · refine .inr ⟨i, by rw [if_pos (by omega)], by omega, hgroup.trans hlast, fun q hq => ?_⟩
        exact (groupOf_le_marks tcam.marker hq).trans_lt hseen
      · rw [if_neg (by omega), hnext, show (marks tcam.marker i : ℤ) + 1 =
          (marks tcam.marker (i + 1) : ℕ) by omega]
        exact ih (by omega) (by omega)

/-- The group that entries with mask `g` join: the first group is taken for the one of
mask 0 even if it is marked. -/
def joined (tcam : TcamUnit) (g : ℕ) : ℕ := max g (tcam.group 0)

theorem group_zero (tcam : TcamUnit) : tcam.group 0 = (tcam.marker 0).toNat := by
  rw [TcamUnit.group, groupOf, marks_succ, marks_zero, Nat.zero_add]

/-- The group is found, or there are not as many. -/
theorem locateMaskGroup_cases (h : Tails tcam n m) (hn : 0 < n) (g : ℕ) :
    (locateMaskGroup tcam g = some strErr ∧ marks tcam.marker n < g) ∨
      ∃ s : ℕ, locateMaskGroup tcam g = some (s : ℤ) ∧ GroupStart tcam n (joined tcam g) s := by
  rcases Nat.eq_zero_or_pos g with rfl | hpos
  · rw [joined, Nat.zero_max]
    exact .inr ⟨0, rfl, hn, rfl, fun q hq => absurd hq (Nat.not_lt_zero q)⟩
  · have hseen : marks tcam.marker 0 < g := by rwa [marks_zero]
    have hfrom := locateFrom_spec h n (Nat.zero_add n) hseen
    have hfirst := Bool.toNat_le (tcam.marker 0)
    rw [joined, group_zero, Nat.max_eq_left (by omega), locateMaskGroup, if_neg (by omega),
      h.flowTail_toNat]
    rwa [marks_zero] at hfrom

/-- Every group is found, the first one provided that it has an entry. -/
theorem locateMaskGroup_spec (h : Grouped tcam n m) {g : ℕ} (hg : g < m) (hn : 0 < n)
    (hfirst : g = 0 → tcam.marker 0 = false) :
    ∃ s : ℕ, locateMaskGroup tcam g = some (s : ℤ) ∧ GroupStart tcam n g s := by
  have hjoined : joined tcam g = g := by
    rw [joined, group_zero]
    rcases Nat.eq_zero_or_pos g with hzero | hpos
    · rw [hfirst hzero]
      exact Nat.max_zero g
    · exact Nat.max_eq_left ((Bool.toNat_le _).trans hpos)
  rcases locateMaskGroup_cases h.tails hn g with ⟨-, hfew⟩ | hfound
  · have := h.groups hn
    omega
  · rwa [hjoined] at hfound

/-- Entry `p` agrees with the byte of the new entry that it is compared with,
wherever the mask is set. -/
def TakenForSame (tcam : TcamUnit) (mask : Block mtchFldLen) (flowEntry : FlowEntry) (p : ℕ) :
    Prop :=
  ∀ l < mtchFldLen, ∀ j < 8, bit mask (8 * l + j) = true →
    bit flowEntry (8 * p + j) = bit (tcam.flow p) (8 * l + j)

instance (tcam : TcamUnit) (mask : Block mtchFldLen) (flowEntry : FlowEntry) (p : ℕ) :
    Decidable (TakenForSame tcam mask flowEntry p) :=
  inferInstanceAs (Decidable (∀ l < mtchFldLen, ∀ j < 8, bit mask (8 * l + j) = true →
    bit flowEntry (8 * p + j) = bit (tcam.flow p) (8 * l + j)))

theorem entryDiffers_spec (tcam : TcamUnit) (mask : Block mtchFldLen) (flowEntry : FlowEntry)
    {i : ℕ} (hi : i < noFFlws) :
    entryDiffers tcam mask flowEntry i = some (!decide (TakenForSame tcam mask flowEntry i)) := by
  have hi' : i < 20 := hi
  have hdiffer : entryDiffers tcam mask flowEntry i = _ :=
    differ_eq (M := fun l j => bit mask (8 * l + j)) (A := fun _ j => bit flowEntry (8 * i + j))
      (B := fun l j => bit (tcam.flow i) (8 * l + j)) (fun l hl j hj => by
        rw [show ((l : ℤ) * 8 + j) = ((8 * l + j : ℕ) : ℤ) by omega]
        exact readBit_natCast mask (by omega)) (fun l hl j hj => by
        rw [show ((i : ℤ) * 8 + j) = ((8 * i + j : ℕ) : ℤ) by omega]
        exact readBit_natCast flowEntry (show 8 * i + j < 8 * 46 by omega)) fun l hl j hj =>
        readBit_slot tcam.flowTable hi (hl.trans (show mtchFldLen < flwEntLen by decide)) hj rfl
  rw [hdiffer, Option.some.injEq, Bool.eq_iff_iff, Bool.not_eq_true', decide_eq_false_iff_not,
    TakenForSame]
  simp only [List.any_eq_true, List.mem_range, Bool.and_eq_true, bne_iff_ne, not_forall,
    exists_prop]

/-- The end of the group that entry `s` belongs to. -/
structure GroupEnd (tcam : TcamUnit) (n s e : ℕ) : Prop where
  lt : s < e
  le : e ≤ n
  inside : ∀ q, s < q → q < e → tcam.marker q = false
  boundary : e < n → tcam.marker e = true

/-- At the end of a group the next one begins. -/
theorem group_groupEnd {g s e : ℕ} (hs : GroupStart tcam n g s) (he : GroupEnd tcam n s e)
    (hen : e < n) : tcam.group e = g + 1 := by
  have hlt := he.lt
  have hlast : tcam.group (e - 1) = g := by
    rw [← hs.group]
    exact groupOf_eq_of_unmarked (by omega) fun k hk hke => he.inside k hk (by omega)
  have hnext := groupOf_succ tcam.marker (e - 1)
  rw [Nat.sub_add_cancel (by omega), he.boundary hen] at hnext
  exact hnext.trans (congrArg (· + 1) hlast)

/-- Entries of the group, and of those before it, stand in front of its end. -/
theorem lt_groupEnd {g s e : ℕ} (hs : GroupStart tcam n g s) (he : GroupEnd tcam n s e) {q : ℕ}
    (hq : q < n) (hle : tcam.group q ≤ g) : q < e := by
  by_contra hge
  have hnext := group_groupEnd hs he (by omega)
  have hmono : tcam.group e ≤ tcam.group q := marks_mono tcam.marker (by omega)
  omega

/-- The entries of a group are those from its start to its end. -/
theorem group_eq_iff {g s e : ℕ} (hs : GroupStart tcam n g s) (he : GroupEnd tcam n s e) {q : ℕ}
    (hq : q < n) : tcam.group q = g ↔ s ≤ q ∧ q < e := by
  constructor
  · intro hgroup
    constructor
    · by_contra hlt
      have := hs.first q (by omega)
      omega
    · exact lt_groupEnd hs he hq hgroup.le
  · rintro ⟨hsq, hqe⟩
    rw [← hs.group]
    exact groupOf_eq_of_unmarked hsq fun k hk hkq => he.inside k hk (by omega)

theorem searchWithinFrom_spec (htail : tcam.flowTail = n) (hn : n < noFFlws)
    (mask : Block mtchFldLen) (flowEntry : FlowEntry) (fuel : ℕ) {s i : ℕ} (hs : s ≤ i)
    (hi : i < n) (hfuel : n < i + fuel)
    (hinside : ∀ q, s < q → q ≤ i → tcam.marker q = false)
    (hseen : ∀ q, s ≤ q → q < i → ¬ TakenForSame tcam mask flowEntry q) :
    (searchWithinFrom tcam mask flowEntry fuel i = some rdndnt ∧
        ∃ q, s ≤ q ∧ q < n ∧ (∀ k, s < k → k ≤ q → tcam.marker k = false) ∧
          TakenForSame tcam mask flowEntry q) ∨
      ∃ e : ℕ, searchWithinFrom tcam mask flowEntry fuel i = some (e : ℤ) ∧
        GroupEnd tcam n s e ∧ ∀ q, s ≤ q → q < e → ¬ TakenForSame tcam mask flowEntry q := by
  induction fuel generalizing i with
  | zero => omega
  | succ fuel ih =>
    have hd := entryDiffers_spec tcam mask flowEntry (show i < noFFlws by omega)
    have hnext : (i : ℤ) + 1 = (i + 1 : ℕ) := by omega
    have hmarker := readMarker_spec tcam (show i + 1 < noFFlws by omega)
    simp only [searchWithinFrom, hd, hnext, hmarker, htail, Option.bind_eq_bind,
      Option.bind_some]
    by_cases hsame : TakenForSame tcam mask flowEntry i
    · rw [decide_eq_true hsame, if_neg (by decide)]
      exact .inl ⟨rfl, i, hs, hi, hinside, hsame⟩
    · rw [decide_eq_false hsame, if_pos (by decide)]
      have hseen' : ∀ q, s ≤ q → q < i + 1 → ¬ TakenForSame tcam mask flowEntry q := by
        intro q hsq hq
        rcases Nat.lt_succ_iff_lt_or_eq.mp hq with hlt | rfl
        · exact hseen q hsq hlt
        · exact hsame
      by_cases hgo : tcam.marker (i + 1) = false ∧ ((i + 1 : ℕ) : ℤ) < n
      · rw [if_pos hgo]
        refine ih (by omega) (by omega) (by omega) (fun q hsq hq => ?_) hseen'
        rcases Nat.le_or_eq_of_le_succ hq with hle | rfl
        · exact hinside q hsq hle
        · exact hgo.1
      · rw [if_neg hgo]
        refine .inr ⟨i + 1, rfl, ⟨by omega, hi, fun q hsq hq => hinside q hsq (by omega), ?_⟩,
          hseen'⟩
        intro hlt
        rw [← Bool.not_eq_false]
        exact fun hclear => hgo ⟨hclear, by omega⟩

/-- Some entry of group `g` is taken for the new one. -/
def GroupTakes (tcam : TcamUnit) (n : ℕ) (mask : Block mtchFldLen) (flowEntry : FlowEntry)
    (g : ℕ) : Prop :=
  ∃ p < n, tcam.group p = g ∧ TakenForSame tcam mask flowEntry p

instance (tcam : TcamUnit) (n : ℕ) (mask : Block mtchFldLen) (flowEntry : FlowEntry) (g : ℕ) :
    Decidable (GroupTakes tcam n mask flowEntry g) :=
  inferInstanceAs (Decidable (∃ p < n, tcam.group p = g ∧ TakenForSame tcam mask flowEntry p))

/-- The search of a group ends with an entry that is taken for the new one, or
with the end of the group. -/
theorem searchWithinMaskGroup_spec (htail : tcam.flowTail = n) (hn : n < noFFlws)
    (mask : Block mtchFldLen) (flowEntry : FlowEntry) {g s : ℕ} (hs : GroupStart tcam n g s) :
    (searchWithinMaskGroup tcam mask flowEntry s = some rdndnt ∧
        GroupTakes tcam n mask flowEntry g) ∨
      ∃ e : ℕ, searchWithinMaskGroup tcam mask flowEntry s = some (e : ℤ) ∧
        GroupEnd tcam n s e ∧ ¬ GroupTakes tcam n mask flowEntry g := by
  have hfuel : ((tcam.flowTail - s).toNat + 1) = n - s + 1 := by
    rw [htail]
    omega
  rw [searchWithinMaskGroup, hfuel]
  rcases searchWithinFrom_spec htail hn mask flowEntry (n - s + 1) (le_refl s) hs.lt
    (by have := hs.lt; omega) (fun q hsq hq => absurd hq (by omega))
    (fun q hsq hq => absurd hq (by omega)) with ⟨hdup, q, hsq, hqn, hin, hsame⟩ | ⟨e, hend, he, hno⟩
  · refine .inl ⟨hdup, q, hqn, ?_, hsame⟩
    rw [← hs.group]
    exact groupOf_eq_of_unmarked hsq hin
  · refine .inr ⟨e, hend, he, ?_⟩
    rintro ⟨q, hqn, hgroup, hsame⟩
    obtain ⟨hsq, hqe⟩ := (group_eq_iff hs he hqn).mp hgroup
    exact hno q hsq hqe hsame

/-- From the error position the search can only end with a refusal. -/
theorem searchWithinMaskGroup_astray {mask : Block mtchFldLen} {flowEntry : FlowEntry} {pos : ℤ}
    (h : searchWithinMaskGroup tcam mask flowEntry strErr = some pos) : pos = rdndnt := by
  obtain ⟨differs, -, h⟩ := bind_inv h
  cases differs with
  | true => cases h
  | false =>
    cases h
    rfl

end Lookup

/-- The first `n` rows have one more row among them, at `pos`. -/
structure RowInserted (tcam tcam' : TcamUnit) (n pos : ℕ) (flowEntry : FlowEntry)
    (actionSet : Block actnStLen) (flag : Block 2) : Prop where
  tail : tcam'.flowTail = (n + 1 : ℕ)
  flow : tcam'.flow =
    Function.update (movedDown freshEntry tcam.flow pos n) pos (freshEntry flowEntry)
  action : tcam'.action = Function.update (movedDown id tcam.action pos n) pos actionSet
  flag : tcam'.flag = Function.update (movedDown id tcam.flag pos n) pos flag

theorem RowInserted.flowTail_toNat {tcam tcam' : TcamUnit} {n pos : ℕ} {flowEntry : FlowEntry}
    {actionSet : Block actnStLen} {flag : Block 2}
    (h : RowInserted tcam tcam' n pos flowEntry actionSet flag) :
    tcam'.flowTail.toNat = n + 1 := by
  rw [h.tail, Int.toNat_natCast]

section Adding
variable {tcam : TcamUnit} {n m : ℕ}

theorem addToMaskGroup_spec (h : Tails tcam n m) (hn : n < noFFlws) {g i s : ℕ}
    (hlocate : locateMaskGroup tcam i = some (s : ℤ)) (hs : GroupStart tcam n g s)
    (mask : Block mtchFldLen) (flowEntry : FlowEntry) :
    (GroupTakes tcam n mask flowEntry g ∧
        addToMaskGroup tcam mask flowEntry i = some (rdndnt, tcam, mask, flowEntry)) ∨
      ∃ (e : ℕ) (b : _), ¬ GroupTakes tcam n mask flowEntry g ∧ GroupEnd tcam n s e ∧
        addToMaskGroup tcam mask flowEntry i =
          some ((e : ℤ), { tcam with flowTable := b, flowTail := (n + 1 : ℕ) }, mask,
            putBit flowEntry 356 false) ∧
        slot b = Function.update (movedDown freshEntry tcam.flow e n) e
          (freshEntry (putBit flowEntry 356 false)) := by
  rcases searchWithinMaskGroup_spec h.flowTail hn mask flowEntry hs with
    ⟨hdup, htakes⟩ | ⟨e, hend, he, hno⟩
  · exact .inl ⟨htakes, bind_some_of hlocate (bind_some_of hdup (if_pos rfl))⟩
  · right
    obtain ⟨b₁, hmove, hb₁⟩ := restructureFlowTable_spec tcam h.flowTail hn he.le
    obtain ⟨b, hwrite, hb⟩ := writeNewFlowEntry_spec
      { tcam with flowTable := b₁, flowTail := (e : ℕ) } rfl
      (he.le.trans_lt hn) (putBit flowEntry 356 false) le_rfl
    have hreset := resetBit_natCast flowEntry (show 356 < 8 * (mtchFldLen + 1) by decide)
    refine ⟨e, b, hno, he, ?_, ?_⟩
    · refine bind_some_of hlocate (bind_some_of hend ?_)
      have hne : (e : ℤ) ≠ rdndnt := by
        rw [rdndnt]
        omega
      rw [if_neg hne]
      exact bind_some_of hmove (bind_some_of hreset (bind_some_of hwrite rfl))
    · rw [hb, ← hb₁]
      rfl

theorem addWithNewMask_spec (h : Tails tcam n m) (hn : n < noFFlws) (hm : m < noFFlws)
    (mask : Block mtchFldLen) (flowEntry : FlowEntry) :
    ∃ b bm, addWithNewMask tcam mask flowEntry =
        some ((n : ℤ), { tcam with
            flowTable := b
            maskTable := bm
            flowTail := (n + 1 : ℕ)
            maskTail := (m + 1 : ℕ) }, clearSpare mask, putBit flowEntry 356 (decide (0 < n))) ∧
      slot b = Function.update tcam.flow n
        (freshEntry (putBit flowEntry 356 (decide (0 < n)))) ∧
      slot bm = Function.update tcam.mask m (clearSpare mask) := by
  have hmarker : (if tcam.flowTail = 0 then resetBit flowEntry (44 * 8 + 4)
      else setBit flowEntry (44 * 8 + 4)) = some (putBit flowEntry 356 (decide (0 < n))) := by
    rw [h.flowTail]
    rcases Nat.eq_zero_or_pos n with rfl | hpos
    · exact resetBit_natCast flowEntry (show 356 < 8 * (mtchFldLen + 1) by decide)
    · rw [if_neg (by omega), decide_eq_true hpos]
      exact setBit_natCast flowEntry (show 356 < 8 * (mtchFldLen + 1) by decide)
  obtain ⟨bm, hmask, hbm⟩ := writeNewMask_spec tcam h.maskTail hm mask
  obtain ⟨b, hwrite, hb⟩ := writeNewFlowEntry_spec
    { tcam with maskTable := bm, maskTail := m + 1 } h.flowTail hn
    (putBit flowEntry 356 (decide (0 < n))) le_rfl
  refine ⟨b, bm, bind_some_of hmarker (bind_some_of hmask (bind_some_of hwrite ?_)), hb, hbm⟩
  have hpos : (n : ℤ) + 1 - 1 = n := by omega
  simp only [hpos]
  rfl

/-- Writing the action set and flag completes the new row. -/
theorem addNewEntry_of_flow {mid : TcamUnit} {pos : ℕ} {mask mask' : Block mtchFldLen}
    {flowEntry flowEntry' : FlowEntry} (actionSet : Block actnStLen) (flag : Block 2)
    (hn : n < noFFlws) (hpos : pos ≤ n)
    (hadd : addNewFlowEntry tcam mask flowEntry = some ((pos : ℤ), mid, mask', flowEntry'))
    (htail : mid.flowTail = (n + 1 : ℕ)) (haction : mid.actionTable = tcam.actionTable)
    (hflag : mid.flagTable = tcam.flagTable)
    (hflow : mid.flow = Function.update (movedDown freshEntry tcam.flow pos n) pos
      (freshEntry flowEntry')) :
    ∃ a f, addNewEntry tcam mask flowEntry actionSet flag =
        some ((pos : ℤ), { mid with actionTable := a, flagTable := f }, mask', flowEntry') ∧
      RowInserted tcam { mid with actionTable := a, flagTable := f } n pos flowEntry'
        actionSet flag := by
  obtain ⟨a₁, f₁, hmove, ha₁, hf₁⟩ : ∃ a₁ f₁,
      (if (pos : ℤ) < mid.flowTail - 1 then restructureActionTables mid pos else some mid) =
        some { mid with actionTable := a₁, flagTable := f₁ } ∧
      slot a₁ = movedDown id tcam.action pos n ∧ slot f₁ = movedDown id tcam.flag pos n := by
    rw [TcamUnit.action, TcamUnit.flag, ← haction, ← hflag]
    by_cases hlast : pos = n
    · refine ⟨mid.actionTable, mid.flagTable, if_neg (by rw [htail]; omega), ?_, ?_⟩ <;>
        rw [hlast, movedDown_self]
    · obtain ⟨a₁, f₁, hmove, ha₁, hf₁⟩ := restructureActionTables_spec _ htail hn hpos
      exact ⟨a₁, f₁, by rw [if_pos (by rw [htail]; omega), hmove], ha₁, hf₁⟩
  obtain ⟨a, f, hwrite, ha, hf⟩ := writeNewAction_spec
    { mid with actionTable := a₁, flagTable := f₁ } (hpos.trans_lt hn) actionSet flag
  refine ⟨a, f, bind_some_of hadd ?_, htail, hflow, by rw [← ha₁]; exact ha,
    by rw [← hf₁]; exact hf⟩
  · have hok : ¬ ((pos : ℤ) = tblFull ∨ (pos : ℤ) = rdndnt) := by
      rw [tblFull, rdndnt]
      omega
    exact (if_neg hok).trans (bind_some_of hmove (bind_some_of hwrite rfl))

theorem addNewEntry_full (hfull : noFFlws ≤ tcam.flowTail) (mask : Block mtchFldLen)
    (flowEntry : FlowEntry) (actionSet : Block actnStLen) (flag : Block 2) :
    addNewEntry tcam mask flowEntry actionSet flag =
      some (tblFull, tcam, mask, flowEntry) := by
  simp only [addNewEntry, addNewFlowEntry, if_pos hfull, Option.bind_eq_bind, Option.bind_some,
    true_or, if_true]

variable (hn : n < noFFlws) (mask : Block mtchFldLen) (flowEntry : FlowEntry)
  (actionSet : Block actnStLen) (flag : Block 2)
include hn

theorem addNewFlowEntry_stored (h : Tails tcam n m) {i : ℕ} (hi : FirstStored tcam m mask i) :
    addNewFlowEntry tcam mask flowEntry = addToMaskGroup tcam mask flowEntry i := by
  rw [addNewFlowEntry, if_neg (not_le.mpr (h.flowTail_lt hn)), h.maskTail_toNat]
  rcases findMask_spec tcam mask m (Nat.zero_add m) h.mask_le
    (fun j hj => absurd hj (Nat.not_lt_zero j)) with ⟨i', hi', hfind⟩ | ⟨hnone, -⟩
  · obtain rfl := hi.unique hi'
    exact bind_some_eq hfind
  · exact absurd hi.equal (hnone i hi.lt)

theorem addNewFlowEntry_new (h : Tails tcam n m) (hnew : ∀ j < m, tcam.mask j ≠ mask) :
    addNewFlowEntry tcam mask flowEntry = addWithNewMask tcam mask flowEntry := by
  rw [addNewFlowEntry, if_neg (not_le.mpr (h.flowTail_lt hn)), h.maskTail_toNat]
  rcases findMask_spec tcam mask m (Nat.zero_add m) h.mask_le
    (fun j hj => absurd hj (Nat.not_lt_zero j)) with ⟨i, hi, -⟩ | ⟨-, hfind⟩
  · exact absurd hi.equal (hnew i hi.lt)
  · exact bind_some_eq hfind

/-- The mask is stored and its group found: the entry is refused, or goes to the end of
the group. -/
theorem addNewEntry_located (h : Tails tcam n m) {g i s : ℕ} (hi : FirstStored tcam m mask i)
    (hlocate : locateMaskGroup tcam i = some (s : ℤ)) (hs : GroupStart tcam n g s) :
    (GroupTakes tcam n mask flowEntry g ∧
        addNewEntry tcam mask flowEntry actionSet flag = some (rdndnt, tcam, mask, flowEntry)) ∨
      ∃ (e : ℕ) (tcam' : TcamUnit), ¬ GroupTakes tcam n mask flowEntry g ∧ GroupEnd tcam n s e ∧
        addNewEntry tcam mask flowEntry actionSet flag =
          some ((e : ℤ), tcam', mask, putBit flowEntry 356 false) ∧
        RowInserted tcam tcam' n e (putBit flowEntry 356 false) actionSet flag ∧
        tcam'.mask = tcam.mask ∧ tcam'.maskTail = m := by
  have hadd := addNewFlowEntry_stored hn mask flowEntry h hi
  rcases addToMaskGroup_spec h hn hlocate hs mask flowEntry with
    ⟨htakes, hdup⟩ | ⟨e, b, hno, he, hgroup, hb⟩
  · refine .inl ⟨htakes, ?_⟩
    rw [addNewEntry, hadd, hdup]
    rfl
  · right
    obtain ⟨a, f, hresult, hrow⟩ := addNewEntry_of_flow actionSet flag hn he.le
      (hadd.trans hgroup) rfl rfl rfl hb
    exact ⟨e, _, hno, he, hresult, hrow, rfl, h.maskTail⟩

/-- The mask is stored and no group found for it: nothing is added. -/
theorem addNewEntry_astray (h : Tails tcam n m) {i : ℕ} (hi : FirstStored tcam m mask i)
    (hlocate : locateMaskGroup tcam i = some strErr) {result : AddResult}
    (hadd : addNewEntry tcam mask flowEntry actionSet flag = some result) : result.2.1 = tcam := by
  obtain ⟨⟨pos, t, mask', flowEntry'⟩, hflow, hadd⟩ := bind_inv hadd
  rw [addNewFlowEntry_stored hn mask flowEntry h hi] at hflow
  obtain ⟨s, hs, hflow⟩ := bind_inv hflow
  cases hlocate.symm.trans hs
  obtain ⟨pos', hsearch, hflow⟩ := bind_inv hflow
  rw [if_pos (searchWithinMaskGroup_astray hsearch)] at hflow
  cases hflow
  cases hadd
  rfl

/-- The mask is stored: the entry is refused, or goes to the end of its group. -/
theorem addNewEntry_stored (h : Grouped tcam n m) (hpos : 0 < n) {g : ℕ}
    (hg : FirstStored tcam m mask g) (hfirst : g = 0 → tcam.marker 0 = false) :
    (GroupTakes tcam n mask flowEntry g ∧
        addNewEntry tcam mask flowEntry actionSet flag = some (rdndnt, tcam, mask, flowEntry)) ∨
      ∃ (s e : ℕ) (tcam' : TcamUnit), ¬ GroupTakes tcam n mask flowEntry g ∧
        GroupStart tcam n g s ∧ GroupEnd tcam n s e ∧
        addNewEntry tcam mask flowEntry actionSet flag =
          some ((e : ℤ), tcam', mask, putBit flowEntry 356 false) ∧
        RowInserted tcam tcam' n e (putBit flowEntry 356 false) actionSet flag ∧
        tcam'.mask = tcam.mask ∧ tcam'.maskTail = m := by
  obtain ⟨s, hlocate, hs⟩ := locateMaskGroup_spec h hg.lt hpos hfirst
  rcases addNewEntry_located hn mask flowEntry actionSet flag h.tails hg hlocate hs with
    hrefused | ⟨e, tcam', hno, he, hadded⟩
  · exact .inl hrefused
  · exact .inr ⟨s, e, tcam', hno, hs, he, hadded⟩

/-- The mask is new: so is the group. -/
theorem addNewEntry_new (h : Tails tcam n m) (hm : m < noFFlws)
    (hnew : ∀ j < m, tcam.mask j ≠ mask) :
    ∃ tcam', addNewEntry tcam mask flowEntry actionSet flag =
        some ((n : ℤ), tcam', clearSpare mask, putBit flowEntry 356 (decide (0 < n))) ∧
      RowInserted tcam tcam' n n (putBit flowEntry 356 (decide (0 < n))) actionSet flag ∧
      tcam'.mask = Function.update tcam.mask m (clearSpare mask) ∧
      tcam'.maskTail = (m + 1 : ℕ) := by
  obtain ⟨b, bm, hadd, hb, hbm⟩ := addWithNewMask_spec h hn hm mask flowEntry
  have hflow := addNewFlowEntry_new hn mask flowEntry h hnew
  obtain ⟨a, f, hresult, hrow⟩ := addNewEntry_of_flow actionSet flag hn le_rfl
    (hflow.trans hadd) rfl rfl rfl (by rw [movedDown_self]; exact hb)
  exact ⟨_, hresult, hrow, hbm, rfl⟩

end Adding

end NetWalk.FlowAdd
