import NetWalk.CacheWindow
import NetWalk.GroupRuns
import NetWalk.TailBounds

/-!
# Hit counters over a run of lookups

A search of the full table adds one to the counter of every entry that matches.
`search_cache` counts in the same way, but for the slots of the cache: an entry in
two of the slots examined is counted twice, and when one of them hits, entries in
none of them are not counted at all. So the counters are right as long as the
matching entries are all in one slot each of those examined, or all in none.
-/
namespace NetWalk.HitCounts
open ByteBlock SlotTable PriorityScan PartialRun FlowTables FlowSearch FlowCache FlowRuns
  GroupRuns TailBounds CacheWindow

/-- Entry `p` has been counted `hits p` more times, and nothing else has changed. -/
structure Counts (tcam tcam' : TcamUnit) (hits : ℕ → ℕ) : Prop where
  table : ∃ b, tcam' = { tcam with flowTable := b }
  counter : ∀ p < noFFlws, (tcam'.flow p).byte 46 = (tcam.flow p).byte 46 + UInt8.ofNat (hits p)
  rest : ∀ p i, i ≠ 46 → (tcam'.flow p).byte i = (tcam.flow p).byte i

namespace Counts
variable {a b c : TcamUnit} {hits hits' : ℕ → ℕ}

theorem refl (tcam : TcamUnit) : Counts tcam tcam fun _ => 0 :=
  ⟨⟨_, rfl⟩, fun _ _ => (UInt8.add_zero _).symm, fun _ _ _ => rfl⟩

theorem trans (h : Counts a b hits) (h' : Counts b c hits') :
    Counts a c fun p => hits p + hits' p := by
  obtain ⟨t, rfl⟩ := h.table
  obtain ⟨t', rfl⟩ := h'.table
  refine ⟨⟨t', rfl⟩, fun p hp => ?_, fun p i hi => (h'.rest p i hi).trans (h.rest p i hi)⟩
  rw [h'.counter p hp, h.counter p hp, UInt8.ofNat_add, UInt8.add_assoc]

theorem congr (h : Counts a b hits) (heq : ∀ p < noFFlws, hits p = hits' p) :
    Counts a b hits' :=
  ⟨h.table, fun p hp => by rw [h.counter p hp, heq p hp], h.rest⟩

theorem fields (h : Counts a b hits) : SameFields a b := by
  obtain ⟨t, rfl⟩ := h.table
  exact ⟨rfl, rfl, rfl, fun p i hi => h.rest p i (by rw [mtchFldLen] at hi; omega)⟩

theorem grouped (h : Counts a b hits) {n m : ℕ} (hg : Grouped a n m) : Grouped b n m := by
  have hsame := h.fields
  refine ⟨hsame.flowTail.trans hg.flowTail, hsame.maskTail.trans hg.maskTail, hg.flow_le,
    hg.mask_le, ?_, hg.leftOver⟩
  rw [hsame.marker]
  exact hg.groups

end Counts

section Lookups
variable {start tcam : TcamUnit} {cache : Cache} {n m : ℕ} {hits : ℕ → ℕ}

/-- One hit more for entry `p`. -/
theorem countHit_counts (tcam : TcamUnit) {p : ℕ} (hp : p < noFFlws) :
    ∃ tcam', countHit tcam p = some tcam' ∧ Counts tcam tcam' fun q => if q = p then 1 else 0 := by
  obtain ⟨b, hcount, hb⟩ := countHit_spec tcam hp
  have hflow : TcamUnit.flow { tcam with flowTable := b } =
      Function.update tcam.flow p (hitOnce (tcam.flow p)) := hb
  refine ⟨_, hcount, ⟨b, rfl⟩, fun q hq => ?_, fun q i hi => ?_⟩
  · rw [hflow]
    by_cases hqp : q = p
    · subst hqp
      rw [Function.update_self, if_pos rfl, hitOnce, Block.byte_set _ _ (by decide), if_pos rfl]
      rfl
    · rw [Function.update_of_ne hqp, if_neg hqp]
      exact (UInt8.add_zero _).symm
  · rw [hflow]
    by_cases hqp : q = p
    · subst hqp
      rw [Function.update_self, byte_hitOnce _ hi]
    · rw [Function.update_of_ne hqp]

/-- A full search counts each live entry that matches once. -/
theorem searchTcam_counts (h : Grouped tcam n m) (flow : Block mtchFldLen) (maskPos : ℤ) :
    ∃ tcam', searchTcam tcam flow maskPos = some (posOf (chosen tcam flow), tcam',
        maskPosOf tcam maskPos (chosen tcam flow)) ∧
      Counts tcam tcam' fun p => if p < n ∧ entryMatches tcam flow p = true then 1 else 0 := by
  obtain ⟨b, hsearch, hb⟩ := searchTcam_spec h.searchable flow maskPos
  have hflow : TcamUnit.flow { tcam with flowTable := b } = countedRows tcam flow n := hb
  refine ⟨_, hsearch, ⟨b, rfl⟩, fun p hp => ?_, fun p i hi => ?_⟩
  · rw [hflow, countedRows]
    split_ifs with hcounted
    · rw [hitOnce, Block.byte_set _ _ (by decide), if_pos rfl]
      rfl
    · exact (UInt8.add_zero _).symm
  · rw [hflow, byte_countedRows p hi]

/-- Slot `i` has entry `p`. -/
def holds (cache : Cache) (p : ℕ) (i : ℤ) : Bool :=
  decide ((cache.read i).map Prod.snd = some (p : ℤ))

/-- A slot with an entry and the position of its mask. -/
def Filled (tcam : TcamUnit) (n : ℕ) (cache : Cache) (i : ℤ) (p : ℕ) : Prop :=
  p < n ∧ cache.read i = some ((tcam.group p : ℤ), (p : ℤ))

theorem Filled.holds_iff {i : ℤ} {p : ℕ} (h : Filled tcam n cache i p) (q : ℕ) :
    holds cache q i = true ↔ p = q := by
  rw [holds, h.2, decide_eq_true_eq, Option.map_some, Option.some.injEq]
  exact Int.ofNat_inj

/-- A slot that has been filled is compared, and its entry counted when it matches. -/
theorem searchSlot_counts (flow : Block mtchFldLen) (hg : Grouped start n m)
    (hcur : Counts start tcam hits) {i : ℤ} {p : ℕ} (hslot : Filled start n cache i p)
    {best : Option ℕ} (hbest : ∀ b ∈ best, b < noFFlws) :
    ∃ best' tcam', searchSlot cache flow (posOf best, tcam) i = some (posOf best', tcam') ∧
      Counts start tcam'
        (fun q => hits q + if q = p ∧ entryMatches start flow p = true then 1 else 0) ∧
      (∀ b ∈ best', b < noFFlws) ∧
      (best' = none ↔ best = none ∧ entryMatches start flow p = false) := by
  have hlen := hg.flow_le
  have hmle := hg.mask_le
  have hp : p < noFFlws := hslot.1.trans_le hlen
  have hgroup := group_lt hg hslot.1
  have hdiffer : flowDiffers tcam flow (start.group p) p =
      some (!entryMatches start flow p) := by
    rw [← hcur.fields.entryMatches, ← hcur.fields.group]
    exact flowDiffers_spec flow hp (by rw [hcur.fields.group]; omega)
  simp only [searchSlot, hslot.2, hdiffer, Option.bind_eq_bind, Option.bind_some]
  cases hmatch : entryMatches start flow p with
  | false =>
    refine ⟨best, tcam, rfl, ?_, hbest, by simp⟩
    exact hcur.congr fun q _ => by simp
  | true =>
    obtain ⟨tcam', hcount, hone⟩ := countHit_counts tcam hp
    have himproves := improves_spec tcam' hbest hp
    simp only [Bool.not_true, Bool.false_eq_true, if_false, hcount, himproves, Option.bind_some,
      and_true]
    split_ifs with hbetter
    · exact ⟨some p, tcam', rfl, hcur.trans hone, by simpa using hp, by simp⟩
    · refine ⟨best, tcam', rfl, hcur.trans hone, hbest, ?_⟩
      cases best with
      | none => exact absurd rfl hbetter
      | some b => simp

/-- The loop over slots that have been filled: an entry that matches is counted as
often as it is found in them. -/
theorem searchSlots_counts (flow : Block mtchFldLen) (hg : Grouped start n m) (slots : List ℤ)
    (hslots : ∀ i ∈ slots, ∃ p, Filled start n cache i p) (hcur : Counts start tcam hits)
    {best : Option ℕ} (hbest : ∀ b ∈ best, b < noFFlws) :
    ∃ best' tcam', slots.foldlM (searchSlot cache flow) (posOf best, tcam) =
        some (posOf best', tcam') ∧
      Counts start tcam'
        (fun q => hits q +
          if entryMatches start flow q = true then slots.countP (holds cache q) else 0) ∧
      (∀ b ∈ best', b < noFFlws) ∧
      (best' = none ↔ best = none ∧ ∀ i ∈ slots, ∀ q, holds cache q i = true →
        entryMatches start flow q = false) := by
  induction slots generalizing tcam hits best with
  | nil => exact ⟨best, tcam, rfl, hcur.congr fun q _ => by simp, hbest, by simp⟩
  | cons i slots ih =>
    obtain ⟨p, hslot⟩ := hslots i List.mem_cons_self
    obtain ⟨best₁, tcam₁, hfirst, hcounts₁, hbest₁, hnone₁⟩ :=
      searchSlot_counts flow hg hcur hslot hbest
    obtain ⟨best', tcam', hrest, hcounts, hbest', hnone⟩ :=
      ih (fun j hj => hslots j (List.mem_cons_of_mem _ hj)) hcounts₁ hbest₁
    refine ⟨best', tcam', ?_, hcounts.congr fun q _ => ?_, hbest', ?_⟩
    · rw [List.foldlM_cons, hfirst]
      exact hrest
    · have hhere : holds cache q i = decide (p = q) := by
        rw [Bool.eq_iff_iff, hslot.holds_iff, decide_eq_true_eq]
      rw [List.countP_cons, hhere]
      by_cases hqp : p = q
      · subst hqp
        cases entryMatches start flow p
        · simp
        · simp only [if_true, and_self, decide_true, Nat.add_assoc, Nat.add_comm]
      · cases entryMatches start flow q <;> simp [hqp, Ne.symm hqp]
    · rw [hnone, hnone₁, and_assoc]
      simp only [List.forall_mem_cons, hslot.holds_iff, forall_eq']

/-- A full search that returns counts each live entry that matches once. -/
theorem searchFlow_counts (flow : Block mtchFldLen) (hg : Grouped start n m)
    (hcur : Counts start tcam hits) (htop : 1 ≤ cache.cacheTop) (htop' : cache.cacheTop ≤ cacheSize)
    (actionSet : Block actnStLen) (maskPos : ℤ) :
    ∃ found, searchFlow tcam cache flow actionSet maskPos = some found ∧
      found.pos < noFFlws ∧
      Counts start found.tcam
        (fun p => hits p + if p < n ∧ entryMatches start flow p = true then 1 else 0) ∧
      (found.cache = cache ∨
        ∃ p < n, SlotFilled cache found.cache ((start.group p : ℤ), (p : ℤ))) := by
  obtain ⟨tcam', hsearch, hcounts⟩ := searchTcam_counts (hcur.grouped hg) flow maskPos
  rw [hcur.fields.entryMatches] at hcounts
  have hcounts' := hcur.trans hcounts
  cases hchosen : chosen tcam flow with
  | none =>
    rw [hchosen] at hsearch
    exact ⟨_, searchFlow_miss hsearch (by decide) actionSet, show (-1 : ℤ) < noFFlws by decide,
      hcounts', .inl rfl⟩
  | some p =>
    rw [hchosen] at hsearch
    have hp : p < n := by
      have hlt := (bestOf_eq_some hchosen).lt
      rwa [(hcur.grouped hg).flowTail_toNat] at hlt
    have hp' : p < noFFlws := hp.trans_le hg.flow_le
    obtain ⟨cache', hfound, hfilled⟩ := searchFlow_hit hsearch hp' htop htop' actionSet
    rw [maskPosOf, hcur.fields.group] at hfilled
    exact ⟨_, hfound, Int.ofNat_lt.mpr hp', hcounts', .inr ⟨p, hp, hfilled⟩⟩

end Lookups

/-- Cursor in bounds, and each slot as `init` left it or with a live entry. -/
structure CacheKept (start : TcamUnit) (n : ℕ) (cache : Cache) : Prop where
  top_pos : 1 ≤ cache.cacheTop
  top_le : cache.cacheTop ≤ cacheSize
  slots : ∀ j : Fin cacheSize, (cache.flowCache j).1 = -1 ∨ ∃ p, Filled start n cache j p

/-- Among the lookups, those that match entry `p`. -/
def lookupsOf (start : TcamUnit) (flows : List (Block mtchFldLen)) (p : ℕ) : ℕ :=
  flows.countP fun flow => entryMatches start flow p

/-- The counter of each live entry has gone up, modulo 256, by the number of lookups
that match the entry. -/
def HitsCounted (start : TcamUnit) (s : LookupRun) : Prop :=
  ∀ p < start.flowTail.toNat, (s.tcam.flow p).byte 46 - (start.flow p).byte 46 =
    UInt8.ofNat (lookupsOf start s.flows p)

/-- Entry `p` is in so many of the slots examined. -/
def copies (cache : Cache) (p : ℕ) : ℕ := (examined cache).countP (holds cache p)

/-- None of the slots examined has the mask position of `init`. -/
def WindowFilled (cache : Cache) : Prop :=
  ∀ i ∈ examined cache, (cache.read i).map Prod.fst ≠ some (-1)

/-- Some slot examined has an entry that matches. -/
def WindowHits (s : LookupRun) (flow : Block mtchFldLen) : Prop :=
  ∃ p < s.tcam.flowTail.toNat, entryMatches s.tcam flow p = true ∧ copies s.cache p ≠ 0

/-- All entries that match are in one slot each of those examined. -/
def EachOnce (s : LookupRun) (flow : Block mtchFldLen) : Prop :=
  ∀ p < s.tcam.flowTail.toNat, entryMatches s.tcam flow p = true → copies s.cache p = 1

/-- The slots examined have been filled, and the entries that match are each in one
of them, or all in none. -/
def CountsOnce (s : LookupRun) : LookupCall → Prop
  | .search _ _ _ => True
  | .apply flow _ _ => WindowFilled s.cache ∧ (WindowHits s flow → EachOnce s flow)

instance (cache : Cache) : Decidable (WindowFilled cache) :=
  inferInstanceAs (Decidable (∀ i ∈ examined cache, (cache.read i).map Prod.fst ≠ some (-1)))

instance (s : LookupRun) (flow : Block mtchFldLen) : Decidable (WindowHits s flow) :=
  inferInstanceAs (Decidable (∃ p < s.tcam.flowTail.toNat,
    entryMatches s.tcam flow p = true ∧ copies s.cache p ≠ 0))

instance (s : LookupRun) (flow : Block mtchFldLen) : Decidable (EachOnce s flow) :=
  inferInstanceAs (Decidable (∀ p < s.tcam.flowTail.toNat,
    entryMatches s.tcam flow p = true → copies s.cache p = 1))

instance : ∀ s c, Decidable (CountsOnce s c)
  | _, .search _ _ _ => inferInstanceAs (Decidable True)
  | s, .apply flow _ _ => inferInstanceAs (Decidable (WindowFilled s.cache ∧
      (WindowHits s flow → EachOnce s flow)))

/-- The counters are right, and the cache has live entries only. -/
structure CountsKept (start : TcamUnit) (n : ℕ) (s : LookupRun) : Prop where
  counts : Counts start s.tcam fun p => if p < n then lookupsOf start s.flows p else 0
  cache : CacheKept start n s.cache

section Cache
variable {start : TcamUnit} {n : ℕ} {cache cache' : Cache}

theorem read_natCast (cache : Cache) (j : Fin cacheSize) :
    cache.read (j : ℕ) = some (cache.flowCache j) := by
  have hj : (0 : ℤ) ≤ (j : ℕ) ∧ ((j : ℕ) : ℤ).toNat < cacheSize := ⟨by omega, by omega⟩
  rw [Cache.read, dif_pos hj]
  rfl

theorem examined_inside (h : CacheKept start n cache) {i : ℤ} (hi : i ∈ examined cache) :
    ∃ j : Fin cacheSize, i = (j : ℕ) := by
  have htop := h.top_le
  rw [examined] at hi
  split_ifs at hi with hmany
  · obtain ⟨hle, hlt⟩ := mem_slotsFrom.mp hi
    exact ⟨⟨i.toNat, by omega⟩, by simp only; omega⟩
  · exact absurd hi List.not_mem_nil

/-- The slots examined have live entries, if they have been filled. -/
theorem examined_filled (h : CacheKept start n cache) (hwindow : WindowFilled cache) :
    ∀ i ∈ examined cache, ∃ p, Filled start n cache i p := by
  intro i hi
  obtain ⟨j, rfl⟩ := examined_inside h hi
  rcases h.slots j with hempty | hfilled
  · have hread := hwindow _ hi
    rw [read_natCast, Option.map_some, hempty] at hread
    exact absurd rfl hread
  · exact hfilled

theorem copies_le (h : CacheKept start n cache) (p : ℕ) : copies cache p ≤ cacheSize := by
  have hlen : ∀ l, (slotsFrom l).length = l := by
    intro l
    induction l with
    | zero => rfl
    | succ l ih => rw [slotsFrom, List.length_cons, ih]
  have htop := h.top_le
  refine List.countP_le_length.trans ?_
  rw [examined]
  split_ifs
  · rw [hlen]
    omega
  · exact Nat.zero_le _

/-- Only live entries are in the slots examined. -/
theorem lt_of_copies (h : CacheKept start n cache) (hwindow : WindowFilled cache) {p : ℕ}
    (hp : copies cache p ≠ 0) : p < n := by
  obtain ⟨i, hi, hholds⟩ := List.countP_pos_iff.mp (Nat.pos_of_ne_zero hp)
  obtain ⟨q, hfilled⟩ := examined_filled h hwindow i hi
  rw [← (hfilled.holds_iff p).mp hholds]
  exact hfilled.1

theorem CacheKept.fill (h : CacheKept start n cache) {p : ℕ} (hp : p < n)
    (hfilled : SlotFilled cache cache' ((start.group p : ℤ), (p : ℤ))) :
    CacheKept start n cache' := by
  have htop := hfilled.top
  have hpos := hfilled.top_pos
  have hsize : (cacheSize : ℤ) = 5 := rfl
  refine ⟨by split_ifs at htop <;> omega, by split_ifs at htop <;> omega, fun j => ?_⟩
  have hslot := hfilled.slots j
  split_ifs at hslot with hj
  · exact .inr ⟨p, hp, by rw [read_natCast, hslot]⟩
  · rcases h.slots j with hempty | ⟨q, hq, hread⟩
    · exact .inl (by rw [hslot, hempty])
    · exact .inr ⟨q, hq, by rw [← hread, read_natCast, read_natCast, hslot]⟩

theorem cacheKept_init (start : TcamUnit) (n : ℕ) (cache : Cache) :
    CacheKept start n (init cache) :=
  ⟨le_rfl, show (1 : ℤ) ≤ cacheSize by decide, fun _ => .inl rfl⟩

end Cache

section Step
variable {start : TcamUnit} {n m : ℕ} {s : LookupRun} {flow : Block mtchFldLen}

/-- The conditions can be read off the table that the run began with. -/
theorem windowHits_iff (hg : Grouped start n m) (h : CountsKept start n s) :
    WindowHits s flow ↔ ∃ p < n, entryMatches start flow p = true ∧ copies s.cache p ≠ 0 := by
  rw [WindowHits, h.counts.fields.flowTail, hg.flowTail_toNat, h.counts.fields.entryMatches]

theorem eachOnce_iff (hg : Grouped start n m) (h : CountsKept start n s) :
    EachOnce s flow ↔ ∀ p < n, entryMatches start flow p = true → copies s.cache p = 1 := by
  rw [EachOnce, h.counts.fields.flowTail, hg.flowTail_toNat, h.counts.fields.entryMatches]

theorem lookupsOf_append (start : TcamUnit) (flows : List (Block mtchFldLen))
    (flow : Block mtchFldLen) (p : ℕ) : lookupsOf start (flows ++ [flow]) p =
      lookupsOf start flows p + if entryMatches start flow p = true then 1 else 0 := by
  rw [lookupsOf, List.countP_append, List.countP_singleton]
  rfl

/-- After a lookup that counts each matching live entry once, the counters are right. -/
theorem counts_next {tcam : TcamUnit} (h : Counts start tcam fun p =>
      (if p < n then lookupsOf start s.flows p else 0) +
        if p < n ∧ entryMatches start flow p = true then 1 else 0) :
    Counts start tcam fun p => if p < n then lookupsOf start (s.flows ++ [flow]) p else 0 := by
  refine h.congr fun p _ => ?_
  rw [lookupsOf_append]
  by_cases hp : p < n <;> simp [hp]

theorem countsKept_searched (flow : Block mtchFldLen) (hg : Grouped start n m)
    (h : CountsKept start n s) {tcam : TcamUnit}
    (htcam : Counts start tcam fun p => if p < n then lookupsOf start s.flows p else 0)
    (actionSet : Block actnStLen) (maskPos : ℤ) :
    ∃ found, searchFlow tcam s.cache flow actionSet maskPos = some found ∧
      found.pos < noFFlws ∧ CountsKept start n (s.searched flow found) := by
  obtain ⟨found, hfound, hpos, hcounts, hcache⟩ :=
    searchFlow_counts flow hg htcam h.cache.top_pos h.cache.top_le actionSet maskPos
  refine ⟨found, hfound, hpos, counts_next hcounts, ?_⟩
  rcases hcache with hsame | ⟨p, hp, hfilled⟩
  · change CacheKept start n found.cache
    rw [hsame]
    exact h.cache
  · exact h.cache.fill hp hfilled

/-- Looking into the cache counts an entry that matches once for each slot examined
that it is in. -/
theorem searchCache_counts (hg : Grouped start n m) (h : CountsKept start n s)
    (hwindow : WindowFilled s.cache) (flow : Block mtchFldLen) :
    ∃ best tcam', searchCache s.tcam s.cache flow = some (posOf best, tcam') ∧
      Counts start tcam' (fun p => (if p < n then lookupsOf start s.flows p else 0) +
        if entryMatches start flow p = true then copies s.cache p else 0) ∧
      (∀ b ∈ best, b < noFFlws) ∧ (best = none ↔ ¬ WindowHits s flow) := by
  obtain ⟨best, tcam', hcache, hcounts, hbest, hnone⟩ := searchSlots_counts flow hg
    (examined s.cache) (examined_filled h.cache hwindow) h.counts
    (show ∀ b ∈ (none : Option ℕ), b < noFFlws by simp)
  rw [windowHits_iff hg h]
  refine ⟨best, tcam', (searchCache_eq _ _ _).trans hcache, hcounts, hbest,
    hnone.trans ⟨?_, fun hno => ⟨rfl, ?_⟩⟩⟩
  · rintro ⟨-, hall⟩ ⟨p, -, hmatch, hcopies⟩
    obtain ⟨i, hi, hholds⟩ := List.countP_pos_iff.mp (Nat.pos_of_ne_zero hcopies)
    rw [hall i hi p hholds] at hmatch
    cases hmatch
  · intro i hi p hholds
    by_contra hmatch
    have hcopies : copies s.cache p ≠ 0 :=
      Nat.ne_of_gt (List.countP_pos_iff.mpr ⟨i, hi, hholds⟩)
    exact hno ⟨p, lt_of_copies h.cache hwindow hcopies, Bool.of_not_eq_false hmatch, hcopies⟩

/-- A slot that has not been filled takes the search out of the mask table. -/
theorem searchCache_unfilled (hwindow : ¬ WindowFilled s.cache) (flow : Block mtchFldLen) :
    searchCache s.tcam s.cache flow = none := by
  obtain ⟨i, hi, hread⟩ : ∃ i ∈ examined s.cache, (s.cache.read i).map Prod.fst = some (-1) := by
    simpa only [WindowFilled, not_forall, not_not, exists_prop] using hwindow
  obtain ⟨⟨maskNo, flowNo⟩, hread, rfl⟩ := Option.map_eq_some_iff.mp hread
  have hslot : ∀ found, searchSlot s.cache flow found i = none := by
    intro found
    refine (bind_some_eq hread).trans ?_
    simp only [flowDiffers_before]
    rfl
  rw [searchCache_eq]
  generalize ((-1 : ℤ), s.tcam) = found
  generalize examined s.cache = slots at hi
  induction slots generalizing found with
  | nil => exact absurd hi List.not_mem_nil
  | cons j slots ih =>
    rw [List.foldlM_cons]
    rcases List.mem_cons.mp hi with rfl | hmem
    · rw [hslot]
      rfl
    · cases hfirst : searchSlot s.cache flow found j with
      | none => rfl
      | some found' => exact ih found' hmem

theorem lookupCall_search (hg : Grouped start n m) (h : CountsKept start n s)
    (flow : Block mtchFldLen) (actionSet : Block actnStLen) (maskPos : ℤ) :
    ∃ s', lookupCall s (.search flow actionSet maskPos) = some s' ∧ CountsKept start n s' := by
  obtain ⟨found, hfound, -, hkept⟩ := countsKept_searched flow hg h h.counts actionSet maskPos
  exact ⟨_, bind_some_of hfound rfl, hkept⟩

/-- When the cache has no entry for the flow, the full search counts. -/
theorem lookupCall_missed (hg : Grouped start n m) (h : CountsKept start n s)
    (hwindow : WindowFilled s.cache) {flow : Block mtchFldLen} (hmiss : ¬ WindowHits s flow)
    (actionSet : Block actnStLen) (maskPos : ℤ) :
    ∃ s', lookupCall s (.apply flow actionSet maskPos) = some s' ∧ CountsKept start n s' := by
  obtain ⟨best, tcam', hcache, hcounts, -, hnone⟩ := searchCache_counts hg h hwindow flow
  rw [hnone.mpr hmiss] at hcache
  rw [windowHits_iff hg h] at hmiss
  have huncounted : Counts start tcam' fun p =>
      if p < n then lookupsOf start s.flows p else 0 := by
    refine hcounts.congr fun p _ => ?_
    split_ifs with hp hmatch hmatch <;> try rfl
    · by_contra hcopies
      exact hmiss ⟨p, hp, hmatch, fun h0 => hcopies (by rw [h0]; rfl)⟩
    · by_contra hcopies
      exact hp (lt_of_copies h.cache hwindow fun h0 => hcopies (by rw [h0]))
  obtain ⟨found, hfound, hpos, hkept⟩ :=
    countsKept_searched flow hg h huncounted actionSet maskPos
  obtain ⟨result, happly⟩ := applyAction_defined
    ((settle_missed hcache (by decide)).trans hfound) hpos
  exact ⟨_, bind_some_of hcache (bind_some_of happly (if_neg (by decide))), hkept⟩

/-- When it has one, the entries counted are those in the slots examined. -/
theorem lookupCall_cached (hg : Grouped start n m) (h : CountsKept start n s)
    (hwindow : WindowFilled s.cache) {flow : Block mtchFldLen} (hhit : WindowHits s flow)
    (actionSet : Block actnStLen) (maskPos : ℤ) :
    ∃ tcam', lookupCall s (.apply flow actionSet maskPos) =
        some ⟨tcam', s.cache, s.flows ++ [flow], s.written⟩ ∧
      Counts start tcam' fun p => (if p < n then lookupsOf start s.flows p else 0) +
        if entryMatches start flow p = true then copies s.cache p else 0 := by
  obtain ⟨best, tcam', hcache, hcounts, hbest, hnone⟩ := searchCache_counts hg h hwindow flow
  cases best with
  | none => exact absurd hhit (hnone.mp rfl)
  | some p =>
    have hp := hbest p rfl
    have happly := applyAction_found (settle_cached hcache hp actionSet maskPos) rfl hp
    exact ⟨tcam', bind_some_of hcache (bind_some_of happly (if_pos (Int.natCast_nonneg p))),
      hcounts⟩

/-- With the matching entries in one slot each, the cache counts as a full search does. -/
theorem counted_of_eachOnce (hg : Grouped start n m) (h : CountsKept start n s)
    (hwindow : WindowFilled s.cache) (honce : EachOnce s flow) (p : ℕ) :
    (if entryMatches start flow p = true then copies s.cache p else 0) =
      if p < n ∧ entryMatches start flow p = true then 1 else 0 := by
  by_cases hmatch : entryMatches start flow p = true
  · rw [if_pos hmatch]
    by_cases hp : p < n
    · rw [if_pos ⟨hp, hmatch⟩]
      exact (eachOnce_iff hg h).mp honce p hp hmatch
    · rw [if_neg fun hboth => hp hboth.1]
      by_contra hcopies
      exact hp (lt_of_copies h.cache hwindow hcopies)
  · rw [if_neg hmatch, if_neg fun hboth => hmatch hboth.2]

/-- The step lemma. -/
theorem lookupCall_counts (hg : Grouped start n m) (s : LookupRun) (c : LookupCall)
    (h : CountsKept start n s) (hc : CountsOnce s c) :
    ∃ s', lookupCall s c = some s' ∧ CountsKept start n s' := by
  cases c with
  | search flow actionSet maskPos => exact lookupCall_search hg h flow actionSet maskPos
  | apply flow actionSet maskPos =>
    obtain ⟨hwindow, honce⟩ := hc
    by_cases hhit : WindowHits s flow
    · obtain ⟨tcam', hstep, hcounts⟩ := lookupCall_cached hg h hwindow hhit actionSet maskPos
      exact ⟨_, hstep, counts_next (hcounts.congr fun p _ => by
        rw [counted_of_eachOnce hg h hwindow (honce hhit) p]), h.cache⟩
    · exact lookupCall_missed hg h hwindow hhit actionSet maskPos

theorem hitsCounted_of_kept (hg : Grouped start n m) (h : CountsKept start n s) :
    HitsCounted start s := by
  intro p hp
  rw [hg.flowTail_toNat] at hp
  rw [h.counts.counter p (hp.trans_le hg.flow_le), if_pos hp, UInt8.add_comm,
    UInt8.add_sub_cancel]

/-- A lookup outside the condition leaves the tables or miscounts an entry. -/
theorem lookupCall_miscounts (hg : Grouped start n m) (s : LookupRun) (c : LookupCall)
    (h : CountsKept start n s) (hc : ¬ CountsOnce s c) (s' : LookupRun)
    (hs' : lookupCall s c = some s') : ¬ HitsCounted start s' := by
  cases c with
  | search flow actionSet maskPos => exact absurd trivial hc
  | apply flow actionSet maskPos =>
    by_cases hwindow : WindowFilled s.cache
    · simp only [CountsOnce, hwindow, true_and, Classical.not_imp] at hc
      obtain ⟨hhit, hnotonce⟩ := hc
      obtain ⟨p, hp, hmatch, hcopies⟩ : ∃ p < n,
          entryMatches start flow p = true ∧ copies s.cache p ≠ 1 := by
        simpa only [eachOnce_iff hg h, not_forall, exists_prop] using hnotonce
      obtain ⟨tcam', hstep, hcounts⟩ := lookupCall_cached hg h hwindow hhit actionSet maskPos
      cases hs'.symm.trans hstep
      intro hright
      have hcount := hright p (by rwa [hg.flowTail_toNat])
      rw [hcounts.counter p (hp.trans_le hg.flow_le), if_pos hp, if_pos hmatch, UInt8.add_comm,
        UInt8.add_sub_cancel, lookupsOf_append, if_pos hmatch] at hcount
      have hmod := congrArg UInt8.toNat hcount
      rw [UInt8.toNat_ofNat', UInt8.toNat_ofNat'] at hmod
      have hle := copies_le h.cache p
      rw [cacheSize] at hle
      omega
    · have hnone := searchCache_unfilled hwindow flow
      change (searchCache s.tcam s.cache flow).bind _ = some s' at hs'
      rw [hnone] at hs'
      cases hs'

end Step

/-- Over a run of lookups on a well-formed table, no lookup leaves the tables and the
counters are right throughout exactly when each cached lookup counts once. -/
theorem hits_counted_iff {tcam : TcamUnit} {n m : ℕ} (h : WellFormed tcam n m) (cache : Cache)
    (calls : List LookupCall) :
    Throughout lookupCall (HitsCounted tcam) (startLookups tcam cache) calls ↔
      Along lookupCall CountsOnce (startLookups tcam cache) calls := by
  have hstart : CountsKept tcam n (startLookups tcam cache) :=
    ⟨(Counts.refl tcam).congr fun p _ => by split_ifs <;> rfl, cacheKept_init tcam n cache⟩
  exact throughout_iff_along (CountsKept tcam n) (lookupCall_counts h.toGrouped)
    (lookupCall_miscounts h.toGrouped) (fun _ => hitsCounted_of_kept h.toGrouped) hstart

/-- Two entries with one mask, and a cached lookup that finds one of them in one slot. -/
theorem cached_hit_counted_once :
    let tcam : TcamUnit :=
      { zeroedTcamUnit with
        flowTable := Block.ofFn fun i => if i = 0 then 1 else if i = 48 then 2 else 0
        maskTable := firstByte 255
        flowTail := 2
        maskTail := 1 }
    let search (v : UInt8) : LookupCall := .search (firstByte v) (firstByte 0) 0
    Throughout lookupCall (HitsCounted tcam) (startLookups tcam zeroedCache)
      [search 1, search 2, search 1, search 1, search 1, search 1,
       .apply (firstByte 1) (firstByte 0) 0] := by
  intro tcam search
  exact (hits_counted_iff (show WellFormed tcam 2 1 by decide +kernel) zeroedCache _).mpr
    (by decide +kernel)

/-- After six hits the last two slots have the same entry, and a cached lookup counts
it twice: seven lookups, and the counter is 8. -/
theorem cached_hit_counted_twice :
    let search : LookupCall := .search (firstByte 1) (firstByte 0) 0
    let calls := List.replicate 6 search ++ [.apply (firstByte 1) (firstByte 0) 0]
    ((run lookupCall (startLookups oneRule zeroedCache) calls).map fun s =>
        ((s.tcam.flow 0).byte 46, lookupsOf oneRule s.flows 0)) = some (8, 7) ∧
      ¬ Throughout lookupCall (HitsCounted oneRule) (startLookups oneRule zeroedCache) calls := by
  intro search calls
  have hcount : ((run lookupCall (startLookups oneRule zeroedCache) calls).map fun s =>
      ((s.tcam.flow 0).byte 46, lookupsOf oneRule s.flows 0)) = some (8, 7) := by
    decide +kernel
  refine ⟨hcount, fun h => ?_⟩
  obtain ⟨s, hrun, hs⟩ := h.last
  rw [hrun, Option.map_some, Option.some.injEq, Prod.mk.injEq] at hcount
  have hright := hs 0 (by decide)
  rw [hcount.1, hcount.2] at hright
  revert hright
  decide

end NetWalk.HitCounts
