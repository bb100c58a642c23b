import NetWalk.FlowCache
import NetWalk.FlowRuns
import NetWalk.TailBounds

/-!
# The cache over a run

`apply_action` first looks into the cache, and a hit there settles the matter. The
cache knows neither of entries added later with a higher priority nor of entries that
have moved, so its answer can differ from that of the full search. And until the cache
has been filled once, `search_cache` begins at the slot to be filled next, which still
has the mask position -1. So the two lookups agree as long as no lookup has hit, and
no longer.
-/
namespace NetWalk.CacheRuns
open ByteBlock SlotTable PriorityScan PartialRun FlowTables FlowSearch FlowAdd FlowDelete
  ModifyEntry FlowCache FlowRuns TailBounds

/-- The flow unit and the cache, which is a global of the source. -/
structure UnitRun where
  tcam : TcamUnit
  cache : Cache

/-- The start: empty tables, and a cache on which `init` has been called. -/
def startUnit (tcam : TcamUnit) (cache : Cache) : UnitRun :=
  ⟨{ tcam with flowTail := 0, maskTail := 0 }, init cache⟩

/-- The calls, with what the uninitialised arrays in them hold. -/
inductive UnitCall where
  | add (mask : Block mtchFldLen) (flowEntry : FlowEntry) (actionSet : Block actnStLen)
      (flag : Block 2)
  | delete (flow : Block mtchFldLen)
  | modify (matchFields : Block mtchFldLen) (flag : Block 2) {n : ℕ} (newValues : Block n)
      (val : Block 6)
  | search (flow : Block mtchFldLen) (actionSet : Block actnStLen) (maskPos : ℤ)
  | apply (flow : Block mtchFldLen) (actionSet : Block actnStLen) (maskPos : ℤ)

def unitCall (s : UnitRun) : UnitCall → Option UnitRun
  | .add mask flowEntry actionSet flag => do
      let (_, tcam, _, _) ← addNewEntry s.tcam mask flowEntry actionSet flag
      some { s with tcam := tcam }
  | .delete flow => do
      let (_, tcam) ← deleteFlowEntry s.tcam flow
      some { s with tcam := tcam }
  | .modify matchFields flag newValues val => do
      let (_, tcam) ← modifyEntry s.tcam matchFields flag newValues val
      some { s with tcam := tcam }
  | .search flow actionSet maskPos => do
      let found ← searchFlow s.tcam s.cache flow actionSet maskPos
      some ⟨found.tcam, found.cache⟩
  | .apply flow actionSet maskPos => do
      let (_, found) ← applyAction s.tcam s.cache flow actionSet maskPos
      some ⟨found.tcam, found.cache⟩

/-- Whatever flow comes next, `apply_action` settles on the position that a full
search returns. -/
def Agrees (s : UnitRun) : Prop :=
  ∀ flow actionSet maskPos, ∃ found tcam' maskPos',
    settle s.tcam s.cache flow actionSet maskPos = some found ∧
      searchTcam s.tcam flow maskPos = some (found.pos, tcam', maskPos')

/-- The flow matches a live entry, in a table in which every live entry has a mask. -/
def Hit (tcam : TcamUnit) (flow : Block mtchFldLen) : Prop :=
  Mapped tcam ∧ ∃ p < tcam.flowTail.toNat, entryMatches tcam flow p = true

instance (tcam : TcamUnit) (flow : Block mtchFldLen) : Decidable (Hit tcam flow) :=
  inferInstanceAs (Decidable (Mapped tcam ∧
    ∃ p < tcam.flowTail.toNat, entryMatches tcam flow p = true))

/-- The call is not a lookup that hits. -/
def NoHit (s : UnitRun) : UnitCall → Prop
  | .search flow _ _ => ¬ Hit s.tcam flow
  | .apply flow _ _ => ¬ Hit s.tcam flow
  | _ => True

instance : ∀ s c, Decidable (NoHit s c)
  | s, .search flow _ _ => inferInstanceAs (Decidable (¬ Hit s.tcam flow))
  | s, .apply flow _ _ => inferInstanceAs (Decidable (¬ Hit s.tcam flow))
  | _, .add _ _ _ _ => inferInstanceAs (Decidable True)
  | _, .delete _ => inferInstanceAs (Decidable True)
  | _, .modify _ _ _ _ => inferInstanceAs (Decidable True)

/-- Nothing has been put into the cache since `init`. -/
structure Unfilled (cache : Cache) : Prop where
  top : cache.cacheTop = 1
  masks : ∀ i, (cache.flowCache i).1 = -1

structure NothingFound (s : UnitRun) : Prop where
  tails : TailsInside s.tcam
  cache : Unfilled s.cache

section Lookups
variable {tcam : TcamUnit} {cache : Cache} {flow : Block mtchFldLen}

theorem searchTcam_hit (h : TailsInside tcam) (hhit : Hit tcam flow) (maskPos : ℤ) :
    ∃ (p : ℕ) (tcam' : TcamUnit) (maskPos' : ℤ), p < noFFlws ∧
      searchTcam tcam flow maskPos = some ((p : ℤ), tcam', maskPos') := by
  obtain ⟨t, maskPos', hsearch, -⟩ := searchTcam_defined h flow maskPos
  obtain ⟨hmap, q, hq, hmatch⟩ := hhit
  rw [if_pos hmap] at hsearch
  cases hp : chosen tcam flow with
  | none =>
    have := bestOf_eq_none_iff.mp hp q hq
    rw [hmatch] at this
    cases this
  | some p =>
    have hlt := (bestOf_eq_some hp).lt
    have hroom := h.flow
    rw [hp] at hsearch
    exact ⟨p, _, maskPos', by omega, hsearch⟩

theorem searchTcam_miss (h : TailsInside tcam) (hmiss : ¬ Hit tcam flow) (maskPos : ℤ) :
    ∃ pos tcam' maskPos', pos < 0 ∧
      searchTcam tcam flow maskPos = some (pos, tcam', maskPos') := by
  obtain ⟨t, maskPos', hsearch, -⟩ := searchTcam_defined h flow maskPos
  refine ⟨_, _, maskPos', ?_, hsearch⟩
  by_cases hmap : Mapped tcam
  · have hnone : chosen tcam flow = none := by
      refine bestOf_eq_none_iff.mpr fun q hq => ?_
      cases hmatch : entryMatches tcam flow q with
      | false => rfl
      | true => exact absurd ⟨hmap, q, hq, hmatch⟩ hmiss
    rw [if_pos hmap, hnone]
    decide
  · rw [if_neg hmap]
    decide

/-- With nothing in the cache, `apply_action` goes to the full search at once. -/
theorem settle_unfilled (h : Unfilled cache) (tcam : TcamUnit) (flow : Block mtchFldLen)
    (actionSet : Block actnStLen) (maskPos : ℤ) :
    settle tcam cache flow actionSet maskPos = searchFlow tcam cache flow actionSet maskPos := by
  have hskip : searchCache tcam cache flow = some (-1, tcam) := by
    rw [searchCache, h.top]
    rfl
  exact settle_missed hskip (by decide)

theorem agrees_of_nothingFound {s : UnitRun} (h : NothingFound s) : Agrees s := by
  intro flow actionSet maskPos
  rw [settle_unfilled h.cache]
  have htop := h.cache.top
  by_cases hhit : Hit s.tcam flow
  · obtain ⟨p, tcam', maskPos', hp, hsearch⟩ := searchTcam_hit h.tails hhit maskPos
    have htop' : s.cache.cacheTop ≤ cacheSize := by
      rw [htop]
      decide
    obtain ⟨cache', hfound, -⟩ := searchFlow_hit hsearch hp htop.ge htop' actionSet
    exact ⟨_, tcam', maskPos', hfound, hsearch⟩
  · obtain ⟨pos, tcam', maskPos', hpos, hsearch⟩ := searchTcam_miss h.tails hhit maskPos
    exact ⟨_, tcam', maskPos', searchFlow_miss hsearch hpos actionSet, hsearch⟩

/-- After the first hit, the lookup begins at a slot that has not been filled. -/
theorem not_agrees_of_one_filled {s : UnitRun} {flowNo : ℤ} (htop : s.cache.cacheTop = 2)
    (hnext : s.cache.read 3 = some (-1, flowNo)) : ¬ Agrees s := by
  intro h
  obtain ⟨found, tcam', maskPos', hsettle, -⟩ :=
    h (Block.ofFn fun _ => 0) (Block.ofFn fun _ => 0) 0
  have hcache : ∀ flow, searchCache s.tcam s.cache flow = none := by
    intro flow
    rw [searchCache, htop, if_pos (by decide)]
    refine (bind_some_eq hnext).trans ?_
    change (flowDiffers s.tcam flow (-1) flowNo).bind _ = none
    rw [flowDiffers_before]
    rfl
  rw [settle, hcache] at hsettle
  cases hsettle

/-- A lookup that hits fills the last slot, and the next lookup in the cache goes
out of bounds. -/
theorem searchFlow_loses {s : UnitRun} (h : NothingFound s) (hhit : Hit s.tcam flow)
    (actionSet : Block actnStLen) (maskPos : ℤ) :
    ∃ (found : Lookup) (p : ℕ), searchFlow s.tcam s.cache flow actionSet maskPos = some found ∧
      found.pos = p ∧ p < noFFlws ∧ ¬ Agrees ⟨found.tcam, found.cache⟩ := by
  obtain ⟨p, tcam', maskPos', hp, hsearch⟩ := searchTcam_hit h.tails hhit maskPos
  have htop := h.cache.top
  have htop' : s.cache.cacheTop ≤ cacheSize := by
    rw [htop]
    decide
  obtain ⟨cache', hfound, hfilled⟩ := searchFlow_hit hsearch hp htop.ge htop' actionSet
  refine ⟨_, p, hfound, rfl, hp, ?_⟩
  have htop₂ := hfilled.top
  rw [htop] at htop₂
  have hslot : cache'.flowCache ⟨3, by decide⟩ = s.cache.flowCache ⟨3, by decide⟩ := by
    rw [hfilled.slots, if_neg]
    rw [htop]
    decide
  have hnext : cache'.read 3 = some (-1, (s.cache.flowCache ⟨3, by decide⟩).2) := by
    change some (cache'.flowCache ⟨3, by decide⟩) = _
    rw [hslot, ← h.cache.masks ⟨3, by decide⟩]
  exact not_agrees_of_one_filled htop₂ hnext

theorem searchFlow_nothingFound {s : UnitRun} (h : NothingFound s) (hmiss : ¬ Hit s.tcam flow)
    {actionSet : Block actnStLen} {maskPos : ℤ} {found : Lookup}
    (hfound : searchFlow s.tcam s.cache flow actionSet maskPos = some found) :
    found.pos < 0 ∧ NothingFound ⟨found.tcam, found.cache⟩ := by
  obtain ⟨pos, tcam', maskPos', hpos, hsearch⟩ := searchTcam_miss h.tails hmiss maskPos
  cases (searchFlow_miss hsearch hpos actionSet).symm.trans hfound
  exact ⟨hpos, h.tails.of_same (searchTcam_fields h.tails hsearch), h.cache⟩

end Lookups

/-- The step lemma: a call that is not a hit leaves the cache as it is. -/
theorem unitCall_nothingFound (s : UnitRun) (c : UnitCall) (s' : UnitRun) (h : NothingFound s)
    (hc : NoHit s c) (hs' : unitCall s c = some s') : NothingFound s' := by
  cases c with
  | add mask flowEntry actionSet flag =>
    obtain ⟨⟨pos, tcam, mask', flowEntry'⟩, hadd, hs'⟩ := bind_inv hs'
    cases hs'
    exact ⟨(addNewEntry_grown h.tails hadd).inside, h.cache⟩
  | delete flow =>
    obtain ⟨⟨pos, tcam⟩, hdelete, hs'⟩ := bind_inv hs'
    cases hs'
    exact ⟨deleteFlowEntry_inside h.tails hdelete, h.cache⟩
  | modify matchFields flag newValues val =>
    obtain ⟨⟨pos, tcam⟩, hmodify, hs'⟩ := bind_inv hs'
    cases hs'
    exact ⟨h.tails.of_same (modifyEntry_fields h.tails hmodify), h.cache⟩
  | search flow actionSet maskPos =>
    obtain ⟨found, hfound, hs'⟩ := bind_inv hs'
    cases hs'
    exact (searchFlow_nothingFound h hc hfound).2
  | apply flow actionSet maskPos =>
    obtain ⟨⟨result, found⟩, happly, hs'⟩ := bind_inv hs'
    obtain ⟨found', hfound, happly⟩ := bind_inv happly
    rw [settle_unfilled h.cache] at hfound
    obtain ⟨hpos, hnothing⟩ := searchFlow_nothingFound h hc hfound
    rw [if_pos hpos] at happly
    cases happly
    cases hs'
    exact hnothing

/-- The first lookup that hits loses the agreement. -/
theorem unitCall_loses (s : UnitRun) (c : UnitCall) (h : NothingFound s) (hc : ¬ NoHit s c) :
    ∃ s', unitCall s c = some s' ∧ ¬ Agrees s' := by
  cases c with
  | add mask flowEntry actionSet flag => exact absurd trivial hc
  | delete flow => exact absurd trivial hc
  | modify matchFields flag newValues val => exact absurd trivial hc
  | search flow actionSet maskPos =>
    obtain ⟨found, p, hfound, -, -, hlost⟩ :=
      searchFlow_loses h (not_not.mp hc) actionSet maskPos
    exact ⟨_, bind_some_of hfound rfl, hlost⟩
  | apply flow actionSet maskPos =>
    obtain ⟨found, p, hfound, hpos, hp, hlost⟩ :=
      searchFlow_loses h (not_not.mp hc) actionSet maskPos
    rw [← settle_unfilled h.cache] at hfound
    exact ⟨_, bind_some_of (applyAction_found hfound hpos hp) rfl, hlost⟩

theorem nothingFound_start (tcam : TcamUnit) (cache : Cache) :
    NothingFound (startUnit tcam cache) :=
  ⟨⟨Int.natCast_nonneg noFFlws, Int.natCast_nonneg noFFlws⟩, rfl, fun _ => rfl⟩

/-- The cached lookup agrees with the full search after every call of a run
exactly when no lookup of the run hits. -/
theorem lookups_agree_iff (tcam : TcamUnit) (cache : Cache) (calls : List UnitCall) :
    Always unitCall Agrees (startUnit tcam cache) calls ↔
      Along unitCall NoHit (startUnit tcam cache) calls :=
  always_iff_along NothingFound unitCall_nothingFound unitCall_loses
    (fun _ => agrees_of_nothingFound) (nothingFound_start tcam cache)

/-- The cache is full of the first entry, when one with a higher priority is added
for the same flow: `apply_action` still takes position 0, a full search finds 1. -/
theorem higher_priority_not_taken :
    let flow : Block mtchFldLen := firstByte 1
    let lookup : UnitCall := .search flow (firstByte 0) 0
    let calls : List UnitCall :=
      [.add (firstByte 255) (entryFor 1 1) (firstByte 1) (firstByte 0),
       lookup, lookup, lookup, lookup, lookup, lookup,
       .add (firstByte 15) (entryFor 1 2) (firstByte 2) (firstByte 0)]
    ((run unitCall (startUnit zeroedTcamUnit zeroedCache) calls).bind fun s => do
        let found ← settle s.tcam s.cache flow (firstByte 0) 0
        let searched ← searchTcam s.tcam flow 0
        some (found.pos, searched.1)) = some (0, 1) ∧
      ¬ Always unitCall Agrees (startUnit zeroedTcamUnit zeroedCache) calls := by
  intro flow lookup calls
  have hdiffer : ((run unitCall (startUnit zeroedTcamUnit zeroedCache) calls).bind fun s => do
      let found ← settle s.tcam s.cache flow (firstByte 0) 0
      let searched ← searchTcam s.tcam flow 0
      some (found.pos, searched.1)) = some (0, 1) := by
    decide +kernel
  refine ⟨hdiffer, fun h => ?_⟩
  obtain ⟨s, hrun, hs⟩ := bind_inv hdiffer
  obtain ⟨found, tcam', maskPos', hsettle, hsearch⟩ :=
    h calls List.prefix_rfl s hrun flow (firstByte 0) 0
  rw [hsettle, Option.bind_eq_bind, Option.bind_some, hsearch, Option.bind_eq_bind,
    Option.bind_some, Option.some.injEq, Prod.mk.injEq] at hs
  omega

end NetWalk.CacheRuns
