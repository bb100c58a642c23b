import NetWalk.CacheRuns
import NetWalk.CacheWindow

/-!
# What the cached positions stand for

A slot of the cache has the positions that an entry and its mask had when a search
filled the slot. Adds move the rows behind the place they take down, deletes move
those behind the deleted one up, and neither looks at the cache. Lookups and
`modify_entry` leave in place what a flow is compared with. So the cached pairs stay
coherent as long as rows come and go behind the entries cached, whatever state the
masks are in.
-/
namespace NetWalk.CachedPairs
open ByteBlock BitOperations SlotTable RowSequence PriorityScan PartialRun FlowTables FlowSearch
  FlowAdd FlowDelete FlowCache FlowRuns TailBounds CacheRuns CacheWindow

/-- A run, with the match fields that the entry had which a search has put into a slot. -/
structure CachedRun where
  unit : UnitRun
  found : Fin cacheSize → Option (Block mtchFldLen)

def startCached (tcam : TcamUnit) (cache : Cache) : CachedRun :=
  ⟨startUnit tcam cache, fun _ => none⟩

/-- After a search has ended with `found`: a hit fills the next slot. -/
def CachedRun.searched (s : CachedRun) (found : Lookup) : CachedRun :=
  ⟨⟨found.tcam, found.cache⟩, fun j =>
    if 0 ≤ found.pos ∧ (j : ℤ) = cacheSize - s.unit.cache.cacheTop
      then some ((found.tcam.flow found.pos.toNat).slice 0 mtchFldLen) else s.found j⟩

def cachedCall (s : CachedRun) : UnitCall → Option CachedRun
  | .search flow actionSet maskPos => do
      let found ← searchFlow s.unit.tcam s.unit.cache flow actionSet maskPos
      some (s.searched found)
  | .apply flow actionSet maskPos => do
      let (pos, _) ← searchCache s.unit.tcam s.unit.cache flow
      let (_, found) ← applyAction s.unit.tcam s.unit.cache flow actionSet maskPos
      -- without a hit in the cache, `search_flow` is called
      if 0 ≤ pos then some ⟨⟨found.tcam, found.cache⟩, s.found⟩ else some (s.searched found)
  | c => do
      let unit ← unitCall s.unit c
      some ⟨unit, s.found⟩

/-- What is recorded does not change the run. -/
theorem cachedCall_unit (s : CachedRun) (c : UnitCall) :
    (cachedCall s c).map CachedRun.unit = unitCall s.unit c := by
  cases c with
  | add mask flowEntry actionSet flag =>
    change ((unitCall s.unit _).bind _).map _ = _
    cases unitCall s.unit (.add mask flowEntry actionSet flag) <;> rfl
  | delete flow =>
    change ((unitCall s.unit _).bind _).map _ = _
    cases unitCall s.unit (.delete flow) <;> rfl
  | modify matchFields flag newValues val =>
    change ((unitCall s.unit _).bind _).map _ = _
    cases unitCall s.unit (.modify matchFields flag newValues val) <;> rfl
  | search flow actionSet maskPos =>
    change ((searchFlow s.unit.tcam s.unit.cache flow actionSet maskPos).bind _).map _ =
      (searchFlow s.unit.tcam s.unit.cache flow actionSet maskPos).bind _
    cases searchFlow s.unit.tcam s.unit.cache flow actionSet maskPos <;> rfl
  | apply flow actionSet maskPos =>
    change ((searchCache s.unit.tcam s.unit.cache flow).bind _).map _ =
      (applyAction s.unit.tcam s.unit.cache flow actionSet maskPos).bind _
    cases happly : applyAction s.unit.tcam s.unit.cache flow actionSet maskPos with
    | none =>
      cases searchCache s.unit.tcam s.unit.cache flow <;> rfl
    | some result =>
      obtain ⟨pos, tcam', hcache, -⟩ := settle_inv (applyAction_inv happly)
      rw [hcache]
      change (if 0 ≤ pos then some _ else some _).map CachedRun.unit = _
      split_ifs <;> rfl

/-- The pair denotes a live entry that has the match fields `entry`, and its mask. -/
structure PairCoherent (tcam : TcamUnit) (pair : ℤ × ℤ) (entry : Block mtchFldLen) : Prop where
  nonneg : 0 ≤ pair.2
  live : pair.2 < tcam.flowTail
  maskPos : getMaskPos tcam pair.2 = some pair.1
  mask : pair.1 < tcam.maskTail
  bits : ∀ q < 356, bit (tcam.flow pair.2.toNat) q = bit entry q

/-- Each slot that a search has filled denotes the entry that was found then. -/
def Coherent (s : CachedRun) : Prop :=
  ∀ j entry, s.found j = some entry →
    PairCoherent s.unit.tcam (s.unit.cache.flowCache j) entry

/-- The entries cached stand in front of position `p`. -/
def CachedBefore (s : CachedRun) (p : ℕ) : Prop :=
  ∀ j, (s.found j).isSome = true → (s.unit.cache.flowCache j).2 < p

/-- The entries cached are in group `g` or in groups in front of it. -/
def CachedUpTo (s : CachedRun) (g : ℕ) : Prop :=
  ∀ j, (s.found j).isSome = true →
    s.unit.tcam.group (s.unit.cache.flowCache j).2.toNat ≤ g

/-- An add to a group, if it is not refused, is not made in front of an entry cached. -/
def AddKeepsCached (s : CachedRun) (mask : Block mtchFldLen) (flowEntry : FlowEntry) : Prop :=
  s.unit.tcam.flowTail < noFFlws → ∀ g < s.unit.tcam.maskTail.toNat,
    FirstStored s.unit.tcam s.unit.tcam.maskTail.toNat mask g →
    ¬ GroupTakes s.unit.tcam s.unit.tcam.flowTail.toNat mask flowEntry (joined s.unit.tcam g) →
    CachedUpTo s (joined s.unit.tcam g)

def KeepsCached (s : CachedRun) : UnitCall → Prop
  | .add mask flowEntry _ _ => AddKeepsCached s mask flowEntry
  | .delete flow => ∀ p ∈ chosen s.unit.tcam flow, CachedBefore s p
  | _ => True

instance (s : CachedRun) (p : ℕ) : Decidable (CachedBefore s p) :=
  inferInstanceAs (Decidable (∀ j, (s.found j).isSome = true →
    (s.unit.cache.flowCache j).2 < p))

instance (s : CachedRun) (g : ℕ) : Decidable (CachedUpTo s g) :=
  inferInstanceAs (Decidable (∀ j, (s.found j).isSome = true →
    s.unit.tcam.group (s.unit.cache.flowCache j).2.toNat ≤ g))

instance (s : CachedRun) (mask : Block mtchFldLen) (flowEntry : FlowEntry) :
    Decidable (AddKeepsCached s mask flowEntry) :=
  inferInstanceAs (Decidable (s.unit.tcam.flowTail < noFFlws →
    ∀ g < s.unit.tcam.maskTail.toNat,
      FirstStored s.unit.tcam s.unit.tcam.maskTail.toNat mask g →
      ¬ GroupTakes s.unit.tcam s.unit.tcam.flowTail.toNat mask flowEntry
        (joined s.unit.tcam g) → CachedUpTo s (joined s.unit.tcam g)))

instance : ∀ s c, Decidable (KeepsCached s c)
  | s, .add mask flowEntry _ _ => inferInstanceAs (Decidable (AddKeepsCached s mask flowEntry))
  | s, .delete flow =>
    inferInstanceAs (Decidable (∀ p ∈ chosen s.unit.tcam flow, CachedBefore s p))
  | _, .modify _ _ _ _ => inferInstanceAs (Decidable True)
  | _, .search _ _ _ => inferInstanceAs (Decidable True)
  | _, .apply _ _ _ => inferInstanceAs (Decidable True)

/-- The invariant for one slot. -/
def Denotes (tcam : TcamUnit) (n m : ℕ) (pair : ℤ × ℤ) (entry : Block mtchFldLen) : Prop :=
  ∃ f < n, pair = ((tcam.group f : ℤ), (f : ℤ)) ∧ tcam.group f < m ∧
    ∀ q < 356, bit (tcam.flow f) q = bit entry q

structure Kept (n m : ℕ) (s : CachedRun) : Prop where
  tails : Tails s.unit.tcam n m
  pairs : ∀ j entry, s.found j = some entry →
    Denotes s.unit.tcam n m (s.unit.cache.flowCache j) entry

theorem coherent_of_kept {n m : ℕ} {s : CachedRun} (h : Kept n m s) : Coherent s := by
  intro j entry hentry
  obtain ⟨f, hf, hpair, hmask, hbits⟩ := h.pairs j entry hentry
  rw [hpair]
  exact ⟨Int.natCast_nonneg f, by rw [h.tails.flowTail]; exact Int.ofNat_lt.mpr hf,
    getMaskPos_spec h.tails hf, by rw [h.tails.maskTail]; exact Int.ofNat_lt.mpr hmask, hbits⟩

section Frames
variable {tcam tcam' : TcamUnit} {n n' m m' : ℕ}

theorem tailsInside (h : Tails tcam n m) : TailsInside tcam := by
  refine ⟨?_, h.maskTail_le⟩
  rw [h.flowTail]
  exact Int.ofNat_le.mpr h.flow_le

theorem tails_of_inside (h : TailsInside tcam) (hflow : 0 ≤ tcam.flowTail)
    (hmask : 0 ≤ tcam.maskTail) : Tails tcam tcam.flowTail.toNat tcam.maskTail.toNat := by
  have hf := h.flow
  have hm := h.mask
  exact ⟨(Int.toNat_of_nonneg hflow).symm, (Int.toNat_of_nonneg hmask).symm, by omega, by omega⟩

theorem tails_of_same (h : Tails tcam n m) (hsame : SameFields tcam tcam') : Tails tcam' n m :=
  ⟨hsame.flowTail.trans h.flowTail, hsame.maskTail.trans h.maskTail, h.flow_le, h.mask_le⟩

/-- Rows up to `f` have the match fields and markers they had. -/
def SameUpTo (tcam tcam' : TcamUnit) (f : ℕ) : Prop :=
  ∀ p ≤ f, ∀ i < mtchFldLen, (tcam'.flow p).byte i = (tcam.flow p).byte i

theorem group_of_sameUpTo {f : ℕ} (h : SameUpTo tcam tcam' f) : tcam'.group f = tcam.group f :=
  groupOf_congr fun p hp => bit_eq_of_byte_eq (h p hp _ (by decide))

/-- An entry stays denoted when the rows up to it stay as they are. -/
theorem denotes_of_sameUpTo {f : ℕ} {entry : Block mtchFldLen} (h : SameUpTo tcam tcam' f)
    (hlive : f < n') (hmask : tcam.group f < m')
    (hbits : ∀ q < 356, bit (tcam.flow f) q = bit entry q) :
    Denotes tcam' n' m' ((tcam.group f : ℤ), (f : ℤ)) entry := by
  have hgroup := group_of_sameUpTo h
  refine ⟨f, hlive, by rw [hgroup], by rwa [hgroup], fun q hq => ?_⟩
  rw [← hbits q hq]
  exact bit_eq_of_byte_eq (h f le_rfl _ (by rw [mtchFldLen]; omega))

theorem denotes_of_same (hsame : SameFields tcam tcam') {pair : ℤ × ℤ}
    {entry : Block mtchFldLen} (h : Denotes tcam n m pair entry) :
    Denotes tcam' n m pair entry := by
  obtain ⟨f, hf, rfl, hmask, hbits⟩ := h
  exact denotes_of_sameUpTo (fun p _ => hsame.flow p) hf hmask hbits

theorem sameUpTo_of_inserted {pos f : ℕ} {flowEntry : FlowEntry} {actionSet : Block actnStLen}
    {flag : Block 2} (h : RowInserted tcam tcam' n pos flowEntry actionSet flag) (hf : f < pos) :
    SameUpTo tcam tcam' f := by
  intro p hp i _
  rw [h.flow, Function.update_of_ne (by omega), movedDown, if_neg (by omega)]

theorem sameUpTo_of_removed {pos f : ℕ} {flow : Block mtchFldLen}
    (h : RowRemoved tcam tcam' n m pos flow) (hf : f < pos) : SameUpTo tcam tcam' f := by
  intro p hp i hi
  have hne : i ≠ 46 := by
    rw [mtchFldLen] at hi
    omega
  rw [h.flow, movedUp, if_neg (by omega), handedOn]
  split_ifs
  · rw [Function.update_of_ne (by omega), byte_countedRows p hne]
  · rw [byte_countedRows p hne]

/-- When the mask of a group goes, the groups in front of it keep theirs. -/
theorem group_lt_masksLeft (h : Searchable tcam n m) {p f : ℕ} (hp : p < n) (hf : f < p) :
    tcam.group f < masksLeft tcam n m p := by
  have hmasked := h.mapped f (by omega)
  rw [masksLeft]
  split_ifs with hlone
  · have hmark : tcam.marker p = true := by
      rw [lone, Bool.and_eq_true] at hlone
      exact hlone.1
    have hlast := h.mapped p hp
    have hgroup : tcam.group p = marks tcam.marker p + 1 := by
      rw [TcamUnit.group, groupOf, marks_succ, hmark]
      rfl
    have hle := groupOf_le_marks tcam.marker hf
    rw [TcamUnit.group] at *
    omega
  · exact hmasked

end Frames

section Calls
variable {tcam tcam' : TcamUnit} {n m : ℕ} {s s' : CachedRun}

theorem kept_same (h : Kept n m s) (hsame : SameFields s.unit.tcam tcam') :
    Kept n m ⟨⟨tcam', s.unit.cache⟩, s.found⟩ :=
  ⟨tails_of_same h.tails hsame, fun j entry hentry =>
    denotes_of_same hsame (h.pairs j entry hentry)⟩

theorem searchSlot_fields {cache : Cache} {flow : Block mtchFldLen} {found found' : ℤ × TcamUnit}
    {slot : ℤ} (h : searchSlot cache flow found slot = some found') :
    SameFields found.2 found'.2 := by
  obtain ⟨⟨maskNo, flowNo⟩, -, h⟩ := bind_inv h
  obtain ⟨differs, -, h⟩ := bind_inv h
  split_ifs at h
  · cases h
    exact .refl _
  · obtain ⟨t, hcount, h⟩ := bind_inv h
    obtain ⟨better, -, h⟩ := bind_inv h
    split_ifs at h <;> cases h <;> exact countHit_fields hcount

theorem searchCache_fields {cache : Cache} {flow : Block mtchFldLen} {pos : ℤ}
    (h : searchCache tcam cache flow = some (pos, tcam')) : SameFields tcam tcam' := by
  have hslots : ∀ (slots : List ℤ) (found found' : ℤ × TcamUnit),
      slots.foldlM (searchSlot cache flow) found = some found' → SameFields found.2 found'.2 := by
    intro slots
    induction slots with
    | nil =>
      rintro found _ ⟨⟩
      exact .refl _
    | cons i slots ih =>
      intro found found' hfold
      rw [List.foldlM_cons] at hfold
      obtain ⟨next, hfirst, hrest⟩ := bind_inv hfold
      exact (searchSlot_fields hfirst).trans (ih next found' hrest)
  rw [searchCache_eq] at h
  exact hslots _ _ _ h

/-- A search that finds an entry finds the one chosen, and each live entry has a mask. -/
theorem searchTcam_found (h : Tails tcam n m) {flow : Block mtchFldLen}
    {maskPos maskPos' pos : ℤ}
    (hsearch : searchTcam tcam flow maskPos = some (pos, tcam', maskPos')) (hpos : 0 ≤ pos) :
    Searchable tcam n m ∧ ∃ p < n, chosen tcam flow = some p ∧ pos = p ∧
      maskPos' = tcam.group p := by
  obtain ⟨t, maskPos'', hdefined, hmaskPos, -⟩ := searchTcam_defined (tailsInside h) flow maskPos
  rw [hsearch, Option.some.injEq, Prod.mk.injEq, Prod.mk.injEq] at hdefined
  obtain ⟨rfl, -, rfl⟩ := hdefined
  by_cases hmap : Mapped tcam
  · rw [if_pos hmap] at hpos ⊢
    have hmasked : ∀ p < n, tcam.group p < m := by
      intro p hp
      have := hmap p (by rwa [h.flowTail_toNat])
      rw [h.maskTail] at this
      exact Int.ofNat_lt.mp this
    refine ⟨⟨h, hmasked⟩, ?_⟩
    cases hchosen : chosen tcam flow with
    | none =>
      rw [hchosen] at hpos
      exact absurd hpos (by decide)
    | some p => exact ⟨p, chosen_lt h hchosen, rfl, rfl, by rw [hmaskPos hmap, hchosen]; rfl⟩
  · rw [if_neg hmap] at hpos
    exact absurd hpos (by decide)

/-- A search fills a slot with what it has found. -/
theorem kept_searched (h : Kept n m s) (hsame : SameFields s.unit.tcam tcam)
    {flow : Block mtchFldLen} {actionSet : Block actnStLen} {maskPos : ℤ} {found : Lookup}
    (hfound : searchFlow tcam s.unit.cache flow actionSet maskPos = some found) :
    Kept n m (s.searched found) := by
  have htails := tails_of_same h.tails hsame
  have hinside := tailsInside htails
  obtain ⟨maskPos', hsearch, hcache⟩ := searchFlow_inv hfound
  have hfields := searchTcam_fields hinside hsearch
  refine ⟨tails_of_same htails hfields, fun j entry hentry => ?_⟩
  have hold : s.found j = some entry →
      Denotes found.tcam n m (s.unit.cache.flowCache j) entry := fun hj =>
    denotes_of_same (hsame.trans hfields) (h.pairs j entry hj)
  simp only [CachedRun.searched] at hentry ⊢
  rcases hcache with ⟨hmiss, hcache⟩ | ⟨hhit, hfilled⟩
  · rw [if_neg fun hnew => absurd hnew.1 (not_le.mpr hmiss)] at hentry
    rw [hcache]
    exact hold hentry
  · rw [hfilled.slots j]
    by_cases hj : (j : ℤ) = cacheSize - s.unit.cache.cacheTop
    · rw [if_pos ⟨hhit, hj⟩, Option.some.injEq] at hentry
      rw [if_pos hj]
      obtain ⟨hsearchable, p, hp, -, hpos, hmask⟩ := searchTcam_found htails hsearch hhit
      refine ⟨p, hp, ?_, ?_, fun q hq => ?_⟩
      · rw [hmask, hpos, hfields.group]
      · rw [hfields.group]
        exact hsearchable.mapped p hp
      · rw [← hentry, hpos, Int.toNat_natCast]
        refine bit_eq_of_byte_eq ?_
        rw [Block.byte_slice _ (by rw [mtchFldLen]; omega), Nat.zero_add]
    · rw [if_neg fun hnew => hj hnew.2] at hentry
      rw [if_neg hj]
      exact hold hentry

theorem kept_apply (h : Kept n m s) {flow : Block mtchFldLen} {actionSet : Block actnStLen}
    {maskPos : ℤ} (hs' : cachedCall s (.apply flow actionSet maskPos) = some s') :
    Kept n m s' := by
  obtain ⟨⟨pos, t⟩, hcache, hs'⟩ := bind_inv hs'
  obtain ⟨⟨result, found⟩, happly, hs'⟩ := bind_inv hs'
  obtain ⟨pos', t', hcache', hsettle⟩ := settle_inv (applyAction_inv happly)
  cases hcache.symm.trans hcache'
  have hsame := searchCache_fields hcache
  simp only at hs'
  rcases hsettle with ⟨hhit, -, htcam, hkept⟩ | ⟨hmiss, hfound⟩
  · rw [if_pos hhit, htcam, hkept] at hs'
    cases hs'
    exact kept_same h hsame
  · rw [if_neg (not_le.mpr hmiss)] at hs'
    cases hs'
    exact kept_searched h hsame hfound

/-- A delete that returns has found an entry, and has removed it. -/
theorem deleteFlowEntry_inv (h : Tails tcam n m) {flow : Block mtchFldLen} {pos : ℤ}
    (hdelete : deleteFlowEntry tcam flow = some (pos, tcam')) :
    Searchable tcam n m ∧ ∃ p < n, chosen tcam flow = some p ∧
      RowRemoved tcam tcam' n m p flow := by
  obtain ⟨⟨pos', t, maskPos⟩, hsearch, hrest⟩ := bind_inv hdelete
  rcases Int.lt_or_le pos' 0 with hneg | hfound
  · obtain ⟨t₂, hmask, -⟩ := bind_inv hrest
    obtain ⟨marked, hmarked, -⟩ := bind_inv hmask
    rw [readMarker_before t hneg] at hmarked
    cases hmarked
  · obtain ⟨hsearchable, p, hp, hchosen, -, -⟩ := searchTcam_found h hsearch hfound
    refine ⟨hsearchable, p, hp, hchosen, ?_⟩
    have hroom : tcam.marker p = true → p + 1 < noFFlws := by
      intro hmark
      by_contra hlast
      have hle := h.flow_le
      have hnone := deleteFlowEntry_overrun hsearchable hchosen hmark (by omega)
      rw [hdelete] at hnone
      cases hnone
    obtain ⟨t', hspec, hrow⟩ := deleteFlowEntry_spec hsearchable hchosen hroom
    cases hdelete.symm.trans hspec
    exact hrow

/-- Rows that come or go behind the entries cached leave the pairs coherent. -/
theorem kept_deleted (h : Kept n m s) {flow : Block mtchFldLen} {pos : ℤ}
    (hbehind : ∀ p ∈ chosen s.unit.tcam flow, CachedBefore s p)
    (hdelete : deleteFlowEntry s.unit.tcam flow = some (pos, tcam')) :
    ∃ n' m', Kept n' m' ⟨⟨tcam', s.unit.cache⟩, s.found⟩ := by
  obtain ⟨hsearchable, p, hp, hchosen, hrow⟩ := deleteFlowEntry_inv h.tails hdelete
  have hle := h.tails.flow_le
  have hmle := h.tails.mask_le
  have hleft : masksLeft s.unit.tcam n m p ≤ noFFlws := by
    rw [masksLeft]
    split_ifs <;> omega
  refine ⟨n - 1, masksLeft s.unit.tcam n m p, ⟨hrow.tail, hrow.maskTail, by omega, hleft⟩,
    fun j entry hentry => ?_⟩
  obtain ⟨f, hf, hpair, -, hbits⟩ := h.pairs j entry hentry
  have hbefore := hbehind p hchosen j (Option.isSome_of_eq_some hentry)
  rw [hpair] at hbefore ⊢
  have hlt : f < p := Int.ofNat_lt.mp hbefore
  exact denotes_of_sameUpTo (sameUpTo_of_removed hrow hlt) (by omega)
    (group_lt_masksLeft hsearchable hp hlt) hbits

/-- A mask is only written where there is room for it. -/
theorem addNewEntry_new_room (hn : n < noFFlws) (h : Tails tcam n m)
    {mask mask' : Block mtchFldLen} {flowEntry flowEntry' : FlowEntry}
    {actionSet : Block actnStLen} {flag : Block 2} {pos : ℤ}
    (hnew : ∀ g < m, tcam.mask g ≠ mask)
    (hadd : addNewEntry tcam mask flowEntry actionSet flag =
      some (pos, tcam', mask', flowEntry')) : m < noFFlws := by
  obtain ⟨⟨pos₁, t, m₁, e₁⟩, hflow, -⟩ := bind_inv hadd
  rw [addNewFlowEntry_new hn mask flowEntry h hnew] at hflow
  have hroom := (addWithNewMask_tails hflow).2.2
  rw [h.maskTail] at hroom
  exact Int.ofNat_lt.mp hroom

theorem kept_added (h : Kept n m s) {mask mask' : Block mtchFldLen}
    {flowEntry flowEntry' : FlowEntry} {actionSet : Block actnStLen} {flag : Block 2} {pos : ℤ}
    (hc : AddKeepsCached s mask flowEntry)
    (hadd : addNewEntry s.unit.tcam mask flowEntry actionSet flag =
      some (pos, tcam', mask', flowEntry')) :
    ∃ n' m', Kept n' m' ⟨⟨tcam', s.unit.cache⟩, s.found⟩ := by
  have hgrown := addNewEntry_grown (tailsInside h.tails) hadd
  have hflow := hgrown.flow
  have hmask := hgrown.mask
  rw [h.tails.flowTail] at hflow
  rw [h.tails.maskTail] at hmask
  have htails := tails_of_inside hgrown.inside (show 0 ≤ tcam'.flowTail by omega)
    (show 0 ≤ tcam'.maskTail by omega)
  refine ⟨_, _, htails, fun j entry hentry => ?_⟩
  obtain ⟨f, hf, hpair, hmasked, hbits⟩ := h.pairs j entry hentry
  rw [hpair]
  refine denotes_of_sameUpTo ?_ (by omega) (by omega) hbits
  have hisSome := Option.isSome_of_eq_some hentry
  rcases Nat.lt_or_ge n noFFlws with hn | hfull
  · rcases firstStored_or_new s.unit.tcam m mask with ⟨g, hg⟩ | hnew
    · rcases locateMaskGroup_cases h.tails (Nat.zero_lt_of_lt hf) g with
        ⟨hlocate, -⟩ | ⟨e₀, hlocate, hstart⟩
      · have hsame := addNewEntry_astray hn mask flowEntry actionSet flag h.tails hg hlocate hadd
        rw [← hsame]
        exact fun _ _ _ _ => rfl
      · rcases addNewEntry_located hn mask flowEntry actionSet flag h.tails hg hlocate hstart with
          ⟨-, hrefused⟩ | ⟨e, t, hno, hend, hadded, hrow, -⟩
        · cases hadd.symm.trans hrefused
          exact fun _ _ _ _ => rfl
        · cases hadd.symm.trans hadded
          have hupTo := hc (h.tails.flowTail_lt hn) g (by rw [h.tails.maskTail_toNat]; exact hg.lt)
            (by rwa [h.tails.maskTail_toNat]) (by rwa [h.tails.flowTail_toNat]) j hisSome
          rw [hpair, Int.toNat_natCast] at hupTo
          exact sameUpTo_of_inserted hrow (lt_groupEnd hstart hend hf hupTo)
    · have hroom := addNewEntry_new_room hn h.tails hnew hadd
      obtain ⟨t, hadded, hrow, -⟩ :=
        addNewEntry_new hn mask flowEntry actionSet flag h.tails hroom hnew
      cases hadd.symm.trans hadded
      exact sameUpTo_of_inserted hrow hf
  · cases hadd.symm.trans
      (addNewEntry_full (h.tails.full hfull) mask flowEntry actionSet flag)
    exact fun _ _ _ _ => rfl

/-- The step lemma. -/
theorem cachedCall_kept (s : CachedRun) (c : UnitCall) (s' : CachedRun)
    (h : ∃ n m, Kept n m s) (hc : KeepsCached s c) (hs' : cachedCall s c = some s') :
    ∃ n m, Kept n m s' := by
  obtain ⟨n, m, h⟩ := h
  cases c with
  | add mask flowEntry actionSet flag =>
    obtain ⟨unit, hunit, hs'⟩ := bind_inv hs'
    obtain ⟨⟨pos, tcam, mask', flowEntry'⟩, hadd, hunit⟩ := bind_inv hunit
    cases hunit
    cases hs'
    exact kept_added h hc hadd
  | delete flow =>
    obtain ⟨unit, hunit, hs'⟩ := bind_inv hs'
    obtain ⟨⟨pos, tcam⟩, hdelete, hunit⟩ := bind_inv hunit
    cases hunit
    cases hs'
    exact kept_deleted h hc hdelete
  | modify matchFields flag newValues val =>
    obtain ⟨unit, hunit, hs'⟩ := bind_inv hs'
    obtain ⟨⟨pos, tcam⟩, hmodify, hunit⟩ := bind_inv hunit
    cases hunit
    cases hs'
    exact ⟨n, m, kept_same h (modifyEntry_fields (tailsInside h.tails) hmodify)⟩
  | search flow actionSet maskPos =>
    obtain ⟨found, hfound, hs'⟩ := bind_inv hs'
    cases hs'
    exact ⟨n, m, kept_searched h (.refl _) hfound⟩
  | apply flow actionSet maskPos => exact ⟨n, m, kept_apply h hs'⟩

end Calls

theorem kept_start (tcam : TcamUnit) (cache : Cache) : Kept 0 0 (startCached tcam cache) :=
  ⟨⟨rfl, rfl, Nat.zero_le _, Nat.zero_le _⟩, fun _ _ h => nomatch h⟩

/-- In a run in which rows come and go behind the entries cached only, the cached pairs
are coherent in every state reached. -/
theorem pairs_coherent {tcam : TcamUnit} {cache : Cache} {calls : List UnitCall}
    (h : Along cachedCall KeepsCached (startCached tcam cache) calls) :
    Always cachedCall Coherent (startCached tcam cache) calls :=
  (always_of_along (fun s => ∃ n m, Kept n m s) cachedCall_kept ⟨0, 0, kept_start tcam cache⟩
    h).mono fun _ ⟨_, _, hkept⟩ => coherent_of_kept hkept

/-- A rule is found, and others come and go behind it. -/
theorem first_rule_stays_coherent :
    Always cachedCall Coherent (startCached zeroedTcamUnit zeroedCache)
      [.add (firstByte 255) (entryFor 1 7) (firstByte 1) (firstByte 0),
       .search (firstByte 1) (firstByte 0) 0,
       .add (firstByte 255) (entryFor 2 7) (firstByte 2) (firstByte 0),
       .delete (firstByte 2)] :=
  pairs_coherent (by decide +kernel)

/-- The rule found is deleted, and the pair denotes the one that has moved up. -/
theorem deleted_rule_still_cached :
    let calls : List UnitCall :=
      [.add (firstByte 255) (entryFor 1 7) (firstByte 1) (firstByte 0),
       .add (firstByte 255) (entryFor 2 7) (firstByte 2) (firstByte 0),
       .search (firstByte 1) (firstByte 0) 0,
       .delete (firstByte 1)]
    let last : Fin cacheSize := ⟨4, by decide⟩
    ((run cachedCall (startCached zeroedTcamUnit zeroedCache) calls).map fun s =>
        (s.unit.cache.flowCache last, (s.found last).map (Block.byte · 0),
          (s.unit.tcam.flow 0).byte 0)) = some ((0, 0), some 1, 2) ∧
      ¬ Always cachedCall Coherent (startCached zeroedTcamUnit zeroedCache) calls := by
  intro calls last
  have hstale : ((run cachedCall (startCached zeroedTcamUnit zeroedCache) calls).map fun s =>
      (s.unit.cache.flowCache last, (s.found last).map (Block.byte · 0),
        (s.unit.tcam.flow 0).byte 0)) = some ((0, 0), some 1, 2) := by
    decide +kernel
  refine ⟨hstale, fun h => ?_⟩
  obtain ⟨s, hrun, hs⟩ := Option.map_eq_some_iff.mp hstale
  simp only [Prod.mk.injEq, Option.map_eq_some_iff] at hs
  obtain ⟨hpair, ⟨entry, hentry, hbyte⟩, hbyte'⟩ := hs
  have hbits := (h calls List.prefix_rfl s hrun last entry hentry).bits 7 (by decide)
  rw [hpair, bit, bit] at hbits
  change byteBit ((s.unit.tcam.flow 0).byte 0) 0 = byteBit (entry.byte 0) 0 at hbits
  rw [hbyte, hbyte'] at hbits
  revert hbits
  decide

end NetWalk.CachedPairs
