import NetWalk.FlowSearch

/-!
# The flow cache

The cache has the positions of the flow entries found last and of their masks.
It is filled from its last slot down, one slot for each lookup in the full table
that hits, and starts anew after five of them. `search_cache` looks at the slots
from `CACHE_SIZE - cache_top` on, so at one more than have been filled since the
last start. `settle` is the part of `apply_action` that decides on an entry; what
`apply_action` prints of the action set is left out.
-/
namespace NetWalk.FlowCache
open ByteBlock BitOperations SlotTable FlowTables FlowSearch

/-- `CACHE_SIZE` -/
def cacheSize : ℕ := 5

/-- The globals `flow_cache`, pairs of a mask's and an entry's position, and
`cache_top`. -/
structure Cache where
  flowCache : Fin cacheSize → ℤ × ℤ
  cacheTop : ℤ

def zeroedCache : Cache := ⟨fun _ => (0, 0), 0⟩

def init (cache : Cache) : Cache := ⟨fun i => (-1, (cache.flowCache i).2), 1⟩

def Cache.read (cache : Cache) (i : ℤ) : Option (ℤ × ℤ) :=
  if h : 0 ≤ i ∧ i.toNat < cacheSize then some (cache.flowCache ⟨i.toNat, h.2⟩) else none

def Cache.write (cache : Cache) (i : ℤ) (v : ℤ × ℤ) : Option Cache :=
  if h : 0 ≤ i ∧ i.toNat < cacheSize then
    some { cache with flowCache := fun j => if j = ⟨i.toNat, h.2⟩ then v else cache.flowCache j }
  else none

/-- The loop of `search_cache` with `l` slots to go. -/
def searchCacheFrom (cache : Cache) (flow : Block mtchFldLen) :
    ℕ → TcamUnit → ℤ → Option (ℤ × TcamUnit)
  | 0, tcam, matchNo => some (matchNo, tcam)
  | l + 1, tcam, matchNo => do
      let (maskNo, flowNo) ← cache.read (cacheSize - (l + 1 : ℕ))
      if ← flowDiffers tcam flow maskNo flowNo then searchCacheFrom cache flow l tcam matchNo
      else
        let tcam ← countHit tcam flowNo
        if ← improves tcam matchNo flowNo then searchCacheFrom cache flow l tcam flowNo
        else searchCacheFrom cache flow l tcam matchNo

/-- The parameter `actions` of the source is not used. -/
def searchCache (tcam : TcamUnit) (cache : Cache) (flow : Block mtchFldLen) :
    Option (ℤ × TcamUnit) :=
  if 1 < cache.cacheTop then searchCacheFrom cache flow cache.cacheTop.toNat tcam (-1)
  else some (-1, tcam)

/-- The position found, the tables and the cache, and the two arrays that the
caller passes for the action set and the mask position. -/
structure Lookup where
  pos : ℤ
  tcam : TcamUnit
  cache : Cache
  actionSet : Block actnStLen
  maskPos : ℤ

def searchFlow (flowUnit : TcamUnit) (cache : Cache) (newFlow : Block mtchFldLen)
    (actionSet : Block actnStLen) (maskPos : ℤ) : Option Lookup := do
  let (pos, flowUnit, maskPos) ← searchTcam flowUnit newFlow maskPos
  if pos < 0 then some ⟨pos, flowUnit, cache, actionSet, maskPos⟩
  else
    let actionSet ← flowUnit.actionTable.readSlice (pos * actnStLen) actnStLen
    let cache ← cache.write (cacheSize - cache.cacheTop) (maskPos, pos)
    let cacheTop := cache.cacheTop + 1
    some ⟨pos, flowUnit, { cache with cacheTop := if cacheSize < cacheTop then 1 else cacheTop },
      actionSet, maskPos⟩

/-- The entry that `apply_action` takes: a hit in the cache, or else the result
of a full search. -/
def settle (tcam : TcamUnit) (cache : Cache) (newFlow : Block mtchFldLen)
    (actionSet : Block actnStLen) (maskPos : ℤ) : Option Lookup := do
  let (pos, tcam) ← searchCache tcam cache newFlow
  if 0 ≤ pos then
    let actionSet ← tcam.actionTable.readSlice (pos * actnStLen) actnStLen
    some ⟨pos, tcam, cache, actionSet, maskPos⟩
  else searchFlow tcam cache newFlow actionSet maskPos

/-- `actionSet` and `maskPos` are what the uninitialised locals hold. -/
def applyAction (tcam : TcamUnit) (cache : Cache) (newFlow : Block mtchFldLen)
    (actionSet : Block actnStLen) (maskPos : ℤ) : Option (ℤ × Lookup) := do
  let found ← settle tcam cache newFlow actionSet maskPos
  if found.pos < 0 then some (found.pos, found)
  else
    let _flag0 ← found.tcam.flagTable.read (2 * found.pos)
    let _flag1 ← found.tcam.flagTable.read (2 * found.pos + 1)
    some (1, found)

theorem Cache.write_spec (cache : Cache) {i : ℤ} (hi : 0 ≤ i) (hlt : i < cacheSize) (v : ℤ × ℤ) :
    ∃ cache', cache.write i v = some cache' ∧ cache'.cacheTop = cache.cacheTop ∧
      ∀ j : Fin cacheSize, cache'.flowCache j =
        if (j : ℤ) = i then v else cache.flowCache j := by
  have h : 0 ≤ i ∧ i.toNat < cacheSize := ⟨hi, by omega⟩
  refine ⟨_, dif_pos h, rfl, fun j => ?_⟩
  have hj : j = ⟨i.toNat, h.2⟩ ↔ (j : ℤ) = i := by
    rw [Fin.ext_iff]
    change (j : ℕ) = i.toNat ↔ _
    omega
  simp only [hj]

/-- The slot to be filled next has been filled with `pair`. -/
structure SlotFilled (cache cache' : Cache) (pair : ℤ × ℤ) : Prop where
  top_pos : 0 < cache.cacheTop
  top_le : cache.cacheTop ≤ cacheSize
  top : cache'.cacheTop = if cacheSize < cache.cacheTop + 1 then 1 else cache.cacheTop + 1
  slots : ∀ j : Fin cacheSize, cache'.flowCache j =
    if (j : ℤ) = cacheSize - cache.cacheTop then pair else cache.flowCache j

/-- A mask position of -1 is in front of the mask table. -/
theorem flowDiffers_before (tcam : TcamUnit) (flow : Block mtchFldLen) (flowNo : ℤ) :
    flowDiffers tcam flow (-1) flowNo = none := rfl

/-- A search of the full table that hits copies the action set of the entry found
and fills a slot of the cache. -/
theorem searchFlow_hit {flowUnit tcam' : TcamUnit} {cache : Cache}
    {newFlow : Block mtchFldLen} {maskPos maskPos' : ℤ} {p : ℕ}
    (hsearch : searchTcam flowUnit newFlow maskPos = some ((p : ℤ), tcam', maskPos'))
    (hp : p < noFFlws) (htop : 0 < cache.cacheTop) (htop' : cache.cacheTop ≤ cacheSize)
    (actionSet : Block actnStLen) :
    ∃ cache', searchFlow flowUnit cache newFlow actionSet maskPos =
        some ⟨p, tcam', cache', tcam'.action p, maskPos'⟩ ∧
      SlotFilled cache cache' (maskPos', (p : ℤ)) := by
  have hread := readSlice_slot tcam'.actionTable hp le_rfl
    (show (p : ℤ) * actnStLen = (p : ℤ) * actnStLen from rfl)
  rw [slice_self] at hread
  obtain ⟨cache₁, hwrite, htop₁, hslots⟩ := cache.write_spec
    (i := cacheSize - cache.cacheTop) (by omega) (by omega) (maskPos', (p : ℤ))
  refine ⟨_, (bind_some_eq hsearch).trans ((if_neg (by omega)).trans
    ((bind_some_eq hread).trans ((bind_some_eq hwrite).trans rfl))), htop, htop', ?_, hslots⟩
  simp only [htop₁]

theorem searchFlow_miss {flowUnit tcam' : TcamUnit} {cache : Cache}
    {newFlow : Block mtchFldLen} {maskPos maskPos' pos : ℤ}
    (hsearch : searchTcam flowUnit newFlow maskPos = some (pos, tcam', maskPos'))
    (hpos : pos < 0) (actionSet : Block actnStLen) :
    searchFlow flowUnit cache newFlow actionSet maskPos =
      some ⟨pos, tcam', cache, actionSet, maskPos'⟩ :=
  (bind_some_eq hsearch).trans (if_pos hpos)

section Inversion
variable {tcam : TcamUnit} {cache : Cache} {flow : Block mtchFldLen}
  {actionSet : Block actnStLen} {maskPos : ℤ} {found : Lookup}

/-- A search that returns has found nothing and left the cache alone, or has filled
the next slot. -/
theorem searchFlow_inv (h : searchFlow tcam cache flow actionSet maskPos = some found) :
    ∃ maskPos', searchTcam tcam flow maskPos = some (found.pos, found.tcam, maskPos') ∧
      (found.pos < 0 ∧ found.cache = cache ∨
        0 ≤ found.pos ∧ SlotFilled cache found.cache (maskPos', found.pos)) := by
  obtain ⟨⟨pos, tcam', maskPos'⟩, hsearch, h⟩ := bind_inv h
  simp only at h
  split_ifs at h with hpos
  · cases h
    exact ⟨maskPos', hsearch, .inl ⟨hpos, rfl⟩⟩
  · obtain ⟨actions, -, h⟩ := bind_inv h
    obtain ⟨cache₁, hwrite, h⟩ := bind_inv h
    cases h
    have hin : 0 ≤ cacheSize - cache.cacheTop ∧ (cacheSize - cache.cacheTop).toNat < cacheSize := by
      by_contra hout
      rw [Cache.write, dif_neg hout] at hwrite
      cases hwrite
    obtain ⟨cache₂, hwrite₂, htop, hslots⟩ :=
      cache.write_spec hin.1 (by omega) (maskPos', pos)
    cases hwrite.symm.trans hwrite₂
    refine ⟨maskPos', hsearch, .inr ⟨not_lt.mp hpos, by omega, by omega, ?_, hslots⟩⟩
    simp only [htop]

/-- `apply_action` takes a hit in the cache, or else what the full search finds. -/
theorem settle_inv (h : settle tcam cache flow actionSet maskPos = some found) :
    ∃ pos tcam', searchCache tcam cache flow = some (pos, tcam') ∧
      (0 ≤ pos ∧ found.pos = pos ∧ found.tcam = tcam' ∧ found.cache = cache ∨
        pos < 0 ∧ searchFlow tcam' cache flow actionSet maskPos = some found) := by
  obtain ⟨⟨pos, tcam'⟩, hcache, h⟩ := bind_inv h
  refine ⟨pos, tcam', hcache, ?_⟩
  simp only at h
  split_ifs at h with hpos
  · obtain ⟨actions, -, h⟩ := bind_inv h
    cases h
    exact .inl ⟨hpos, rfl, rfl, rfl⟩
  · exact .inr ⟨not_le.mp hpos, h⟩

theorem applyAction_inv {result : ℤ}
    (h : applyAction tcam cache flow actionSet maskPos = some (result, found)) :
    settle tcam cache flow actionSet maskPos = some found := by
  obtain ⟨found', hsettle, h⟩ := bind_inv h
  split_ifs at h
  · cases h
    exact hsettle
  · obtain ⟨flag₀, -, h⟩ := bind_inv h
    obtain ⟨flag₁, -, h⟩ := bind_inv h
    cases h
    exact hsettle

end Inversion

section Settling
variable {tcam tcam' : TcamUnit} {cache : Cache} {flow : Block mtchFldLen}
  {actionSet : Block actnStLen} {maskPos : ℤ}

/-- A hit in the cache settles the matter. -/
theorem settle_cached {p : ℕ} (hcache : searchCache tcam cache flow = some ((p : ℤ), tcam'))
    (hp : p < noFFlws) (actionSet : Block actnStLen) (maskPos : ℤ) :
    settle tcam cache flow actionSet maskPos = some ⟨p, tcam', cache, tcam'.action p, maskPos⟩ := by
  have hread := readSlice_slot tcam'.actionTable hp le_rfl
    (show (p : ℤ) * actnStLen = (p : ℤ) * actnStLen from rfl)
  rw [slice_self] at hread
  exact (bind_some_eq hcache).trans ((if_pos (Int.natCast_nonneg p)).trans (bind_some_eq hread))

theorem settle_missed {pos : ℤ} (hcache : searchCache tcam cache flow = some (pos, tcam'))
    (hpos : pos < 0) : settle tcam cache flow actionSet maskPos =
      searchFlow tcam' cache flow actionSet maskPos :=
  (bind_some_eq hcache).trans (if_neg (not_le.mpr hpos))

/-- An entry that is found has a flag, so its action is applied. -/
theorem applyAction_found {found : Lookup} {p : ℕ}
    (hsettle : settle tcam cache flow actionSet maskPos = some found) (hpos : found.pos = p)
    (hp : p < noFFlws) : applyAction tcam cache flow actionSet maskPos = some (1, found) := by
  have h₀ := read_slot found.tcam.flagTable hp (show 0 < 2 by decide)
    (show 2 * found.pos = (p : ℤ) * (2 : ℕ) + (0 : ℕ) by omega)
  have h₁ := read_slot found.tcam.flagTable hp (show 1 < 2 by decide)
    (show 2 * found.pos + 1 = (p : ℤ) * (2 : ℕ) + (1 : ℕ) by omega)
  refine (bind_some_eq hsettle).trans ((if_neg (by omega)).trans ?_)
  exact bind_some_of h₀ (bind_some_of h₁ rfl)

theorem applyAction_defined {found : Lookup}
    (hsettle : settle tcam cache flow actionSet maskPos = some found)
    (hpos : found.pos < noFFlws) :
    ∃ result, applyAction tcam cache flow actionSet maskPos = some (result, found) := by
  rcases Int.lt_or_le found.pos 0 with hneg | hnonneg
  · exact ⟨_, (bind_some_eq hsettle).trans (if_pos hneg)⟩
  · obtain ⟨p, hp⟩ := Int.eq_ofNat_of_zero_le hnonneg
    exact ⟨1, applyAction_found hsettle hp (by omega)⟩

end Settling

end NetWalk.FlowCache
