import NetWalk.FlowCache
import NetWalk.FlowRuns

/-!
# The slots that a cached lookup examines

`search_flow` fills the cache from its last slot down and starts again at the last
slot after five hits. `search_cache` goes from slot `CACHE_SIZE - cache_top` to the
last one. That slot is the one to be filled next, and while `cache_top` is 1 no slot
is looked at. So the slots examined are those of the last five hits just before the
cursor wraps, from the second time on, and before the first hit.
-/
namespace NetWalk.CacheWindow
open ByteBlock PartialRun FlowTables FlowSearch FlowCache FlowRuns

/-- The last `l` slots, in the order in which `search_cache` takes them. -/
def slotsFrom : ℕ → List ℤ
  | 0 => []
  | l + 1 => (cacheSize - (l + 1 : ℕ)) :: slotsFrom l

/-- The slots that `search_cache` examines. -/
def examined (cache : Cache) : List ℤ :=
  if 1 < cache.cacheTop then slotsFrom cache.cacheTop.toNat else []

/-- What `search_cache` does with one slot: `found` has the position and the table
so far. -/
def searchSlot (cache : Cache) (flow : Block mtchFldLen) (found : ℤ × TcamUnit) (slot : ℤ) :
    Option (ℤ × TcamUnit) := do
  let (maskNo, flowNo) ← cache.read slot
  if ← flowDiffers found.2 flow maskNo flowNo then some found
  else
    let tcam ← countHit found.2 flowNo
    if ← improves tcam found.1 flowNo then some (flowNo, tcam) else some (found.1, tcam)

theorem mem_slotsFrom {l : ℕ} {i : ℤ} : i ∈ slotsFrom l ↔ cacheSize - l ≤ i ∧ i < cacheSize := by
  induction l with
  | zero =>
    simp only [slotsFrom, List.not_mem_nil, false_iff]
    omega
  | succ l ih =>
    rw [slotsFrom, List.mem_cons, ih]
    omega

theorem searchCacheFrom_eq (cache : Cache) (flow : Block mtchFldLen) (l : ℕ) (tcam : TcamUnit)
    (matchNo : ℤ) : searchCacheFrom cache flow l tcam matchNo =
      (slotsFrom l).foldlM (searchSlot cache flow) (matchNo, tcam) := by
  induction l generalizing tcam matchNo with
  | zero => rfl
  | succ l ih =>
    simp only [searchCacheFrom, slotsFrom, List.foldlM_cons, searchSlot, Option.bind_eq_bind,
      Option.bind_assoc]
    refine congrArg _ (funext fun slot => congrArg _ (funext fun differs => ?_))
    cases differs with
    | true => exact ih tcam matchNo
    | false =>
      simp only [Bool.false_eq_true, if_false, Option.bind_assoc]
      refine congrArg _ (funext fun counted => congrArg _ (funext fun better => ?_))
      cases better with
      | true => exact ih counted slot.2
      | false => exact ih counted matchNo

/-- `search_cache` looks at the slots `examined`, and at no others. -/
theorem searchCache_eq (tcam : TcamUnit) (cache : Cache) (flow : Block mtchFldLen) :
    searchCache tcam cache flow = (examined cache).foldlM (searchSlot cache flow) (-1, tcam) := by
  rw [searchCache, examined]
  split_ifs
  · exact searchCacheFrom_eq cache flow _ tcam (-1)
  · rfl

/-- The tables and the cache, and of the calls so far the flows looked up and the
slots that hits of `search_flow` have written. -/
structure LookupRun where
  tcam : TcamUnit
  cache : Cache
  flows : List (Block mtchFldLen)
  written : List ℤ

/-- The start: `init` has been called. -/
def startLookups (tcam : TcamUnit) (cache : Cache) : LookupRun := ⟨tcam, init cache, [], []⟩

/-- The lookups, with what the uninitialised arrays in them hold. -/
inductive LookupCall where
  | search (flow : Block mtchFldLen) (actionSet : Block actnStLen) (maskPos : ℤ)
  | apply (flow : Block mtchFldLen) (actionSet : Block actnStLen) (maskPos : ℤ)

def LookupCall.flow : LookupCall → Block mtchFldLen
  | .search flow _ _ => flow
  | .apply flow _ _ => flow

/-- The run goes on after a `search_flow` that has ended with `found`. -/
def LookupRun.searched (s : LookupRun) (flow : Block mtchFldLen) (found : Lookup) : LookupRun :=
  ⟨found.tcam, found.cache, s.flows ++ [flow],
    if 0 ≤ found.pos then s.written ++ [cacheSize - s.cache.cacheTop] else s.written⟩

def lookupCall (s : LookupRun) : LookupCall → Option LookupRun
  | .search flow actionSet maskPos => do
      let found ← searchFlow s.tcam s.cache flow actionSet maskPos
      some (s.searched flow found)
  | .apply flow actionSet maskPos => do
      let (pos, _) ← searchCache s.tcam s.cache flow
      let (_, found) ← applyAction s.tcam s.cache flow actionSet maskPos
      -- without a hit in the cache, `search_flow` is called
      if 0 ≤ pos then some ⟨found.tcam, found.cache, s.flows ++ [flow], s.written⟩
      else some (s.searched flow found)

/-- The slots written last, at most as many as the cache has. -/
def recent (written : List ℤ) : List ℤ :=
  written.drop (written.length - min written.length cacheSize)

/-- The slots examined next are those of the most recent hits. -/
def WindowExact (s : LookupRun) : Prop := ∀ i, i ∈ examined s.cache ↔ i ∈ recent s.written

/-- The slot of hit number `k`, counted from 0. -/
def slotOf (k : ℕ) : ℤ := cacheSize - (k % cacheSize + 1 : ℕ)

/-- Cursor and slots follow the number of hits. -/
structure Tracked (s : LookupRun) : Prop where
  written : s.written = (List.range s.written.length).map slotOf
  top : s.cache.cacheTop = (s.written.length % cacheSize + 1 : ℕ)

section Window
variable {s s' : LookupRun}

theorem mem_examined (h : Tracked s) {i : ℤ} :
    i ∈ examined s.cache ↔ 0 < s.written.length % cacheSize ∧
      cacheSize - (s.written.length % cacheSize + 1 : ℕ) ≤ i ∧ i < cacheSize := by
  rw [examined, h.top, Int.toNat_natCast]
  split_ifs with htop
  · rw [mem_slotsFrom]
    omega
  · simp only [List.not_mem_nil, false_iff]
    omega

theorem mem_recent (h : Tracked s) {i : ℤ} :
    i ∈ recent s.written ↔ ∃ k, s.written.length - min s.written.length cacheSize ≤ k ∧
      k < s.written.length ∧ slotOf k = i := by
  rw [recent]
  generalize s.written.length - min s.written.length cacheSize = lo
  rw [h.written, List.length_map, List.length_range, List.range_eq_range', ← List.map_drop,
    List.drop_range']
  simp only [List.mem_map, List.mem_range'_1, and_assoc]
  refine exists_congr fun k => ?_
  omega

/-- Around the wrap of the cursor the window is right, elsewhere it is not. -/
theorem windowExact_iff (h : Tracked s) :
    WindowExact s ↔ s.written.length = 0 ∨
      cacheSize < s.written.length ∧ s.written.length % cacheSize = cacheSize - 1 := by
  have hslot : ∀ k, slotOf k = 4 - (k % 5 : ℕ) := by
    intro k
    simp only [slotOf, cacheSize]
    omega
  simp only [WindowExact, mem_examined h, mem_recent h, hslot, cacheSize]
  generalize s.written.length = n
  constructor
  · intro hexact
    by_contra hno
    rcases Nat.lt_or_ge n 5 with hfew | hmany
    · -- the slot to be filled next is examined, and has not been written
      obtain ⟨k, -, hlt, hk⟩ := (hexact (4 - n)).mp (by omega)
      omega
    · -- slot 0 has been written, and is not examined
      obtain ⟨hpos, hle, -⟩ := (hexact 0).mpr ⟨n - 1 - n % 5, by omega, by omega, by omega⟩
      omega
  · rintro (rfl | ⟨hmany, hlast⟩) i
    · simp
    · constructor
      · rintro ⟨-, hle, hlt⟩
        by_cases hi : i = 0
        · exact ⟨n - 5, by omega, by omega, by omega⟩
        · exact ⟨n - i.toNat, by omega, by omega, by omega⟩
      · rintro ⟨k, hle, hlt, rfl⟩
        omega

/-- A hit moves the cursor on by one slot. -/
theorem searched_tracked (h : Tracked s) {tcam : TcamUnit} {flow : Block mtchFldLen}
    {actionSet : Block actnStLen} {maskPos : ℤ} {found : Lookup}
    (hfound : searchFlow tcam s.cache flow actionSet maskPos = some found) :
    Tracked (s.searched flow found) := by
  obtain ⟨maskPos', -, ⟨hpos, hcache⟩ | ⟨hpos, hfilled⟩⟩ := searchFlow_inv hfound
  · rw [LookupRun.searched, if_neg (not_le.mpr hpos), hcache]
    exact ⟨h.written, h.top⟩
  · have htop := hfilled.top
    rw [h.top] at htop
    rw [LookupRun.searched, if_pos hpos]
    constructor
    · simp only [List.length_append, List.length_singleton, List.range_succ, List.map_append,
        List.map_singleton, ← h.written, h.top]
      rfl
    · simp only [List.length_append, List.length_singleton, htop, cacheSize]
      split_ifs with hwrap <;> omega

/-- The step lemma. -/
theorem lookupCall_tracked (h : Tracked s) {c : LookupCall} (hs' : lookupCall s c = some s') :
    Tracked s' := by
  cases c with
  | search flow actionSet maskPos =>
    obtain ⟨found, hfound, hs'⟩ := bind_inv hs'
    cases hs'
    exact searched_tracked h hfound
  | apply flow actionSet maskPos =>
    obtain ⟨⟨pos, tcam⟩, hcache, hs'⟩ := bind_inv hs'
    obtain ⟨⟨result, found⟩, happly, hs'⟩ := bind_inv hs'
    obtain ⟨pos', tcam', hcache', hsettle⟩ := settle_inv (applyAction_inv happly)
    cases hcache.symm.trans hcache'
    simp only at hs'
    rcases hsettle with ⟨hhit, -, -, hsame⟩ | ⟨hmiss, hfound⟩
    · rw [if_pos hhit] at hs'
      cases hs'
      rw [hsame]
      exact ⟨h.written, h.top⟩
    · rw [if_neg (not_le.mpr hmiss)] at hs'
      cases hs'
      exact searched_tracked h hfound

/-- The run lemma. -/
theorem run_tracked (h : Tracked s) {calls : List LookupCall}
    (hrun : run lookupCall s calls = some s') : Tracked s' := by
  induction calls generalizing s with
  | nil =>
    cases hrun
    exact h
  | cons c calls ih =>
    obtain ⟨t, ht, hrun⟩ := bind_inv hrun
    exact ih (lookupCall_tracked h ht) hrun

end Window

theorem tracked_start (tcam : TcamUnit) (cache : Cache) : Tracked (startLookups tcam cache) :=
  ⟨rfl, rfl⟩

/-- After any run of lookups the window is right exactly when there has been no hit
yet, or when the cursor is about to wrap and not for the first time. -/
theorem window_exact_iff {tcam : TcamUnit} {cache : Cache} {calls : List LookupCall}
    {s : LookupRun} (hrun : run lookupCall (startLookups tcam cache) calls = some s) :
    WindowExact s ↔ s.written.length = 0 ∨
      cacheSize < s.written.length ∧ s.written.length % cacheSize = cacheSize - 1 :=
  windowExact_iff (run_tracked (tracked_start tcam cache) hrun)

/-- The table after an add to an empty one. -/
def oneRule : TcamUnit :=
  { zeroedTcamUnit with
    flowTable := Block.ofFn fun i => if i = 0 then 1 else if i = 45 then 7 else
      if i = 47 then 255 else 0
    maskTable := firstByte 255
    actionTable := firstByte 1
    flowTail := 1
    maskTail := 1 }

/-- With nine hits the window is right: all five slots. -/
theorem window_exact_after_nine :
    ∃ s, run lookupCall (startLookups oneRule zeroedCache)
        (List.replicate 9 (.search (firstByte 1) (firstByte 0) 0)) = some s ∧ WindowExact s := by
  have hdue : (run lookupCall (startLookups oneRule zeroedCache)
      (List.replicate 9 (.search (firstByte 1) (firstByte 0) 0))).any
      (fun s => s.written.length = 9) = true := by
    decide +kernel
  obtain ⟨s, hrun, hlen⟩ := (Option.any_eq_true _ _).mp hdue
  refine ⟨s, hrun, (window_exact_iff hrun).mpr (.inr ?_)⟩
  rw [of_decide_eq_true hlen]
  decide

/-- After the first hit slot 3 is examined, which has never been filled. -/
theorem window_too_wide :
    ∃ s, run lookupCall (startLookups oneRule zeroedCache)
        [.search (firstByte 1) (firstByte 0) 0] = some s ∧
      s.written = [4] ∧ examined s.cache = [3, 4] ∧ s.cache.read 3 = some (-1, 0) ∧
      ¬ WindowExact s := by
  have hdue : (run lookupCall (startLookups oneRule zeroedCache)
      [.search (firstByte 1) (firstByte 0) 0]).any
      (fun s => s.written = [4] ∧ examined s.cache = [3, 4] ∧
        s.cache.read 3 = some (-1, 0)) = true := by
    decide +kernel
  obtain ⟨s, hrun, hs⟩ := (Option.any_eq_true _ _).mp hdue
  obtain ⟨hwritten, hexamined, hread⟩ := of_decide_eq_true hs
  refine ⟨s, hrun, hwritten, hexamined, hread, fun hexact => ?_⟩
  have hwrong := hexact 3
  rw [hwritten, hexamined] at hwrong
  revert hwrong
  decide

end NetWalk.CacheWindow
