import NetWalk.FlowTables
import NetWalk.PriorityScan

/-!
# Searching the flow table

Flow entries with one mask stand together as a group. An entry does not store
its mask: bit 356 of an entry marks the first one of a new group, and the mask
of an entry is found by counting marks. `search_tcam` goes through all live
entries in this way and ends with the first match of highest priority.
-/
namespace NetWalk.FlowSearch
open ByteBlock BitOperations SlotTable RowSequence PriorityScan FlowTables

/-- `STR_ERR` -/
def strErr : ℤ := -10

def readMarker (tcam : TcamUnit) (i : ℤ) : Option Bool :=
  readBit tcam.flowTable ((i * flwEntLen + 44) * 8 + 4)

def readPriority (tcam : TcamUnit) (i : ℤ) : Option UInt8 :=
  tcam.flowTable.read (i * flwEntLen + 45)

def getMaskPos (tcam : TcamUnit) (pos : ℤ) : Option ℤ :=
  (List.range (min tcam.flowTail (pos + 1)).toNat).foldlM
    (fun (maskPos : ℤ) (i : ℕ) => do
      if ← readMarker tcam i then some (maskPos + 1) else some maskPos) 0

/-- The two nested loops that compare two bit strings where a mask is set, given
by their readers for bit `j` of byte `i`. They are left at the first difference. -/
def differ (mask a b : ℕ → ℕ → Option Bool) : Option Bool :=
  (List.range mtchFldLen).anyM fun i => (List.range 8).anyM fun j => do
    if ← mask i j then
      let x ← a i j
      let y ← b i j
      some (x != y)
    else some false

def flowDiffers (tcam : TcamUnit) (newFlow : Block mtchFldLen) (maskNo flowNo : ℤ) :
    Option Bool :=
  differ (fun i j => readBit tcam.maskTable ((maskNo * mtchFldLen + i) * 8 + j))
    (fun i j => readBit newFlow (i * 8 + j))
    (fun i j => readBit tcam.flowTable ((flowNo * flwEntLen + i) * 8 + j))

/-- Increment the number of hits of a flow entry. -/
def countHit (tcam : TcamUnit) (flowNo : ℤ) : Option TcamUnit := do
  let hits ← tcam.flowTable.read (flowNo * flwEntLen + 46)
  let flowTable ← tcam.flowTable.write (flowNo * flwEntLen + 46) (hits + 1)
  some { tcam with flowTable := flowTable }

/-- A first match, or one of higher priority than the match so far. -/
def improves (tcam : TcamUnit) (matchNo flowNo : ℤ) : Option Bool :=
  if 0 ≤ matchNo then do
    let old ← readPriority tcam matchNo
    let new ← readPriority tcam flowNo
    some (decide (old < new))
  else some true

/-- The loop of `search_tcam` with `passes` entries to go. The result has the
position returned, the table, and `mask_pos[0]`. -/
def searchTcamFrom (newFlow : Block mtchFldLen) :
    ℕ → TcamUnit → ℤ → ℤ → ℤ → ℤ → Option (ℤ × TcamUnit × ℤ)
  | 0, tcam, _, _, matchNo, maskPos => some (matchNo, tcam, maskPos)
  | passes + 1, tcam, maskNo, flowNo, matchNo, maskPos => do
      let marked ← readMarker tcam flowNo
      let maskNo := if marked then maskNo + 1 else maskNo
      if tcam.maskTail ≤ maskNo then some (strErr, tcam, maskPos)
      else if ← flowDiffers tcam newFlow maskNo flowNo then
        searchTcamFrom newFlow passes tcam maskNo (flowNo + 1) matchNo maskPos
      else
        let tcam ← countHit tcam flowNo
        if ← improves tcam matchNo flowNo then
          searchTcamFrom newFlow passes tcam maskNo (flowNo + 1) flowNo maskNo
        else searchTcamFrom newFlow passes tcam maskNo (flowNo + 1) matchNo maskPos

def searchTcam (tcam : TcamUnit) (newFlow : Block mtchFldLen) (maskPos : ℤ) :
    Option (ℤ × TcamUnit × ℤ) :=
  searchTcamFrom newFlow tcam.flowTail.toNat tcam 0 0 (-1) maskPos

/-- The two strings agree wherever the mask is set. -/
def Agree (mask : Block mtchFldLen) {n m : ℕ} (a : Block n) (b : Block m) : Prop :=
  ∀ q < 8 * mtchFldLen, bit mask q = true → bit a q = bit b q

instance (mask : Block mtchFldLen) {n m : ℕ} (a : Block n) (b : Block m) :
    Decidable (Agree mask a b) :=
  inferInstanceAs (Decidable (∀ q < 8 * mtchFldLen, bit mask q = true → bit a q = bit b q))

/-- Entry `p` matches the flow under the mask of its group. -/
def entryMatches (tcam : TcamUnit) (flow : Block mtchFldLen) (p : ℕ) : Bool :=
  decide (Agree (tcam.maskOf p) flow (tcam.flow p))

/-- The first matching entry of highest priority. -/
def chosen (tcam : TcamUnit) (flow : Block mtchFldLen) : Option ℕ :=
  bestOf (entryMatches tcam flow) tcam.priority tcam.flowTail.toNat

/-- A position as the functions return it. -/
def posOf : Option ℕ → ℤ
  | none => -1
  | some p => p

theorem posOf_ne_strErr (best : Option ℕ) : posOf best ≠ strErr := by
  cases best with
  | none => decide
  | some p =>
    rw [posOf, strErr]
    omega

/-- The tails are inside the tables, and the live entries have as many groups
as there are masks. A mask may be left over when no entry is, or when the first
entry is marked. -/
structure Grouped (tcam : TcamUnit) (n m : ℕ) : Prop where
  flowTail : tcam.flowTail = n
  maskTail : tcam.maskTail = m
  flow_le : n ≤ noFFlws
  mask_le : m ≤ noFFlws
  groups : 0 < n → m = marks tcam.marker n + 1
  leftOver : n = 0 → m ≤ 1

/-- The tails are inside the tables. -/
structure Tails (tcam : TcamUnit) (n m : ℕ) : Prop where
  flowTail : tcam.flowTail = n
  maskTail : tcam.maskTail = m
  flow_le : n ≤ noFFlws
  mask_le : m ≤ noFFlws

/-- Moreover each live entry has a mask, so that a search gets through. -/
structure Searchable (tcam : TcamUnit) (n m : ℕ) : Prop extends Tails tcam n m where
  mapped : ∀ p < n, tcam.group p < m

theorem Grouped.tails {tcam : TcamUnit} {n m : ℕ} (h : Grouped tcam n m) : Tails tcam n m :=
  ⟨h.flowTail, h.maskTail, h.flow_le, h.mask_le⟩

theorem Tails.flowTail_toNat {tcam : TcamUnit} {n m : ℕ} (h : Tails tcam n m) :
    tcam.flowTail.toNat = n := by
  rw [h.flowTail, Int.toNat_natCast]

theorem Tails.maskTail_toNat {tcam : TcamUnit} {n m : ℕ} (h : Tails tcam n m) :
    tcam.maskTail.toNat = m := by
  rw [h.maskTail, Int.toNat_natCast]

theorem Tails.flowTail_lt {tcam : TcamUnit} {n m : ℕ} (h : Tails tcam n m)
    (hn : n < noFFlws) : tcam.flowTail < noFFlws := by
  rw [h.flowTail]
  exact Int.ofNat_lt.mpr hn

theorem Tails.full {tcam : TcamUnit} {n m : ℕ} (h : Tails tcam n m) (hn : noFFlws ≤ n) :
    (noFFlws : ℤ) ≤ tcam.flowTail := by
  rw [h.flowTail]
  exact Int.ofNat_le.mpr hn

theorem Tails.maskTail_le {tcam : TcamUnit} {n m : ℕ} (h : Tails tcam n m) :
    tcam.maskTail ≤ noFFlws := by
  rw [h.maskTail]
  exact Int.ofNat_le.mpr h.mask_le

theorem Grouped.flowTail_toNat {tcam : TcamUnit} {n m : ℕ} (h : Grouped tcam n m) :
    tcam.flowTail.toNat = n := h.tails.flowTail_toNat

theorem Grouped.maskTail_toNat {tcam : TcamUnit} {n m : ℕ} (h : Grouped tcam n m) :
    tcam.maskTail.toNat = m := h.tails.maskTail_toNat

theorem Grouped.flowTail_lt {tcam : TcamUnit} {n m : ℕ} (h : Grouped tcam n m)
    (hn : n < noFFlws) : tcam.flowTail < noFFlws := h.tails.flowTail_lt hn

section Comparing

theorem anyM_eq_some {α : Type} (p : α → Option Bool) (q : α → Bool) (l : List α)
    (h : ∀ x ∈ l, p x = some (q x)) : l.anyM p = some (l.any q) := by
  induction l with
  | nil => rfl
  | cons x l ih =>
    rw [List.anyM, h x List.mem_cons_self, List.any_cons]
    cases q x with
    | true => rfl
    | false => exact ih fun y hy => h y (List.mem_cons_of_mem _ hy)

theorem differ_eq {mask a b : ℕ → ℕ → Option Bool} {M A B : ℕ → ℕ → Bool}
    (hm : ∀ i < mtchFldLen, ∀ j < 8, mask i j = some (M i j))
    (ha : ∀ i < mtchFldLen, ∀ j < 8, a i j = some (A i j))
    (hb : ∀ i < mtchFldLen, ∀ j < 8, b i j = some (B i j)) :
    differ mask a b = some ((List.range mtchFldLen).any fun i => (List.range 8).any fun j =>
      M i j && (A i j != B i j)) := by
  refine anyM_eq_some _ _ _ fun i hi => anyM_eq_some _ _ _ fun j hj => ?_
  rw [List.mem_range] at hi hj
  simp only [hm i hi j hj, ha i hi j hj, hb i hi j hj, Option.bind_eq_bind, Option.bind_some]
  cases M i j <;> rfl

/-- Comparing bit by bit in two nested loops is comparing the bit strings. -/
theorem differ_spec {mask a b : ℕ → ℕ → Option Bool} (M : Block mtchFldLen) {n m : ℕ}
    (A : Block n) (B : Block m)
    (hm : ∀ i < mtchFldLen, ∀ j < 8, mask i j = some (bit M (8 * i + j)))
    (ha : ∀ i < mtchFldLen, ∀ j < 8, a i j = some (bit A (8 * i + j)))
    (hb : ∀ i < mtchFldLen, ∀ j < 8, b i j = some (bit B (8 * i + j))) :
    differ mask a b = some (!decide (Agree M A B)) := by
  rw [differ_eq hm ha hb, Option.some.injEq, Bool.eq_iff_iff]
  simp only [List.any_eq_true, List.mem_range, Bool.and_eq_true, bne_iff_ne, Bool.not_eq_true',
    decide_eq_false_iff_not]
  constructor
  · rintro ⟨i, hi, j, hj, hM, hne⟩ hagree
    exact hne (hagree (8 * i + j) (by omega) hM)
  · intro h
    obtain ⟨q, hq, hM, hne⟩ : ∃ q < 8 * mtchFldLen, bit M q = true ∧ bit A q ≠ bit B q := by
      by_contra hall
      exact h fun q hq hM => by_contra fun hne => hall ⟨q, hq, hM, hne⟩
    refine ⟨q / 8, by omega, q % 8, Nat.mod_lt _ (by decide), ?_⟩
    rw [Nat.div_add_mod]
    exact ⟨hM, hne⟩

end Comparing

section Reading
variable {tcam : TcamUnit} {p : ℕ}

theorem readMarker_spec (tcam : TcamUnit) (hp : p < noFFlws) :
    readMarker tcam p = some (tcam.marker p) :=
  readBit_slot tcam.flowTable hp (show 44 < flwEntLen by decide) (show 4 < 8 by decide) rfl

/-- In front of the table there is no row. -/
theorem readMarker_before (tcam : TcamUnit) {pos : ℤ} (hpos : pos < 0) :
    readMarker tcam pos = none := by
  have hout : ¬ Block.Inside (flwEntLen * noFFlws) (((pos * flwEntLen + 44) * 8 + 4).tdiv 8) := by
    rintro ⟨hge, -⟩
    have hle : (pos * flwEntLen + 44) * 8 + 4 ≤ -8 := by
      simp only [flwEntLen]
      omega
    have hdiv : ((pos * flwEntLen + 44) * 8 + 4).tdiv 8 ≤ -1 :=
      Int.tdiv_le_tdiv (show (0 : ℤ) < 8 by decide) hle
    omega
  rw [readMarker, readBit, Block.read, if_neg hout]
  rfl

theorem readPriority_spec (tcam : TcamUnit) (hp : p < noFFlws) :
    readPriority tcam p = some ((tcam.flow p).byte 45) :=
  read_slot tcam.flowTable hp (show 45 < flwEntLen by decide) rfl

theorem flowDiffers_spec (newFlow : Block mtchFldLen) {g : ℕ} (hp : p < noFFlws)
    (hg : g < noFFlws) :
    flowDiffers tcam newFlow g p = some (!decide (Agree (tcam.mask g) newFlow (tcam.flow p))) := by
  refine differ_spec _ _ _ (fun i hi j hj => ?_) (fun i hi j hj => ?_) fun i hi j hj => ?_
  · exact readBit_slot tcam.maskTable hg hi hj rfl
  · rw [show ((i : ℤ) * 8 + j) = ((8 * i + j : ℕ) : ℤ) by omega]
    exact readBit_natCast newFlow (by omega)
  · exact readBit_slot tcam.flowTable hp
      (hi.trans (show mtchFldLen < flwEntLen by decide)) hj rfl

theorem bit_matchFields (tcam : TcamUnit) (p : ℕ) {q : ℕ} (hq : q < 8 * mtchFldLen) :
    bit (tcam.matchFields p) q = bit (tcam.flow p) q := by
  refine bit_eq_of_byte_eq ?_
  rw [TcamUnit.matchFields, Block.byte_slice _ (by omega), Nat.zero_add]

/-- An entry matches its own match fields. -/
theorem entryMatches_own (tcam : TcamUnit) (p : ℕ) :
    entryMatches tcam (tcam.matchFields p) p = true :=
  decide_eq_true fun _ hq _ => bit_matchFields tcam p hq

theorem group_lt {n m : ℕ} (h : Grouped tcam n m) (hp : p < n) : tcam.group p < m := by
  have hle := groupOf_le_marks tcam.marker hp
  have hm := h.groups (by omega)
  rw [TcamUnit.group]
  omega

theorem Grouped.searchable {n m : ℕ} (h : Grouped tcam n m) : Searchable tcam n m :=
  ⟨h.tails, fun _ => group_lt h⟩

theorem getMaskPos_spec {n m : ℕ} (h : Tails tcam n m) (hp : p < n) :
    getMaskPos tcam p = some (tcam.group p : ℤ) := by
  have hpasses : (min tcam.flowTail ((p : ℤ) + 1)).toNat = p + 1 := by
    rw [h.flowTail]
    omega
  have hcount : ∀ k ≤ n, (List.range k).foldlM
      (fun (maskPos : ℤ) (i : ℕ) => do
        if ← readMarker tcam i then some (maskPos + 1) else some maskPos) 0 =
      some (marks tcam.marker k : ℤ) := by
    intro k hk
    induction k with
    | zero => rfl
    | succ k ih =>
      rw [List.range_succ, List.foldlM_append, ih (by omega), marks_succ]
      have hle := h.flow_le
      simp only [Option.bind_eq_bind, Option.bind_some, List.foldlM_cons, List.foldlM_nil,
        readMarker_spec tcam (show k < noFFlws by omega)]
      cases tcam.marker k <;> simp
  rw [getMaskPos, hpasses]
  exact hcount (p + 1) hp

end Reading

section Hits

/-- An entry with one more hit in its counter. -/
def hitOnce (e : Block flwEntLen) : Block flwEntLen := e.set 46 (e.byte 46 + 1)

/-- The first `f` entries with their hits counted. -/
def countedRows (tcam : TcamUnit) (flow : Block mtchFldLen) (f : ℕ) : ℕ → Block flwEntLen :=
  fun p => if p < f ∧ entryMatches tcam flow p = true then hitOnce (tcam.flow p)
    else tcam.flow p

theorem byte_hitOnce (e : Block flwEntLen) {i : ℕ} (hi : i ≠ 46) :
    (hitOnce e).byte i = e.byte i := by
  rcases Nat.lt_or_ge i flwEntLen with hlt | hge
  · rw [hitOnce, Block.byte_set _ _ hlt, if_neg hi]
  · rw [byte_outside _ hge, byte_outside _ hge]

variable {tcam : TcamUnit} {flow : Block mtchFldLen} {f : ℕ}

theorem byte_countedRows (p : ℕ) {i : ℕ} (hi : i ≠ 46) :
    (countedRows tcam flow f p).byte i = (tcam.flow p).byte i := by
  rw [countedRows]
  split_ifs
  · exact byte_hitOnce _ hi
  · rfl

theorem hits_countedRows (p : ℕ) :
    (countedRows tcam flow f p).byte 46 = (tcam.flow p).byte 46 +
      if p < f ∧ entryMatches tcam flow p = true then 1 else 0 := by
  rw [countedRows]
  split_ifs
  · rw [hitOnce, Block.byte_set _ _ (by decide), if_pos rfl]
  · rw [UInt8.add_zero]

theorem bit_countedRows (p : ℕ) {q : ℕ} (hq : q / 8 ≠ 46) :
    bit (countedRows tcam flow f p) q = bit (tcam.flow p) q :=
  bit_eq_of_byte_eq (byte_countedRows p hq)

theorem countedRows_zero : countedRows tcam flow 0 = tcam.flow := by
  funext p
  rw [countedRows, if_neg (by omega)]

theorem countedRows_self : countedRows tcam flow f f = tcam.flow f := by
  rw [countedRows, if_neg (by omega)]

theorem countedRows_succ_hit (h : entryMatches tcam flow f = true) :
    countedRows tcam flow (f + 1) =
      Function.update (countedRows tcam flow f) f (hitOnce (tcam.flow f)) := by
  funext p
  rcases Nat.lt_trichotomy p f with hlt | rfl | hgt
  · rw [Function.update_of_ne (by omega)]
    simp only [countedRows, hlt, hlt.trans (Nat.lt_succ_self f)]
  · rw [Function.update_self, countedRows, if_pos ⟨Nat.lt_succ_self p, h⟩]
  · rw [Function.update_of_ne (by omega)]
    simp only [countedRows, show ¬ p < f by omega, show ¬ p < f + 1 by omega]

theorem countedRows_succ_miss (h : entryMatches tcam flow f = false) :
    countedRows tcam flow (f + 1) = countedRows tcam flow f := by
  funext p
  simp only [countedRows]
  rcases Nat.lt_trichotomy p f with hlt | rfl | hgt
  · simp only [hlt, hlt.trans (Nat.lt_succ_self f)]
  · simp [h]
  · simp only [show ¬ p < f by omega, show ¬ p < f + 1 by omega]

/-- Counting hits touches neither priorities nor markers. -/
theorem priority_of_counted {cur : TcamUnit} (h : cur.flow = countedRows tcam flow f) :
    cur.priority = tcam.priority := by
  funext p
  rw [TcamUnit.priority, h, byte_countedRows p (by decide)]
  rfl

theorem marker_of_counted {cur : TcamUnit} (h : cur.flow = countedRows tcam flow f) :
    cur.marker = tcam.marker := by
  funext p
  rw [TcamUnit.marker, h, bit_countedRows p (by decide)]
  rfl

theorem countHit_spec (tcam : TcamUnit) {p : ℕ} (hp : p < noFFlws) :
    ∃ b, countHit tcam p = some { tcam with flowTable := b } ∧
      slot b = Function.update tcam.flow p (hitOnce (tcam.flow p)) := by
  have hread := read_slot tcam.flowTable hp (show 46 < flwEntLen by decide)
    (show (p : ℤ) * flwEntLen + 46 = (p : ℤ) * flwEntLen + (46 : ℕ) from rfl)
  obtain ⟨b, hwrite, hb⟩ := write_slot tcam.flowTable hp (show 46 < flwEntLen by decide)
    ((tcam.flow p).byte 46 + 1)
    (show (p : ℤ) * flwEntLen + 46 = (p : ℤ) * flwEntLen + (46 : ℕ) from rfl)
  exact ⟨b, bind_some_of hread (bind_some_of hwrite rfl), hb⟩

end Hits

section Searching
variable {tcam : TcamUnit} {n m p : ℕ}

theorem improves_spec (tcam : TcamUnit) {best : Option ℕ} {p : ℕ} (hbest : ∀ b ∈ best, b < noFFlws)
    (hp : p < noFFlws) :
    improves tcam (posOf best) p =
      some (best.all fun b => decide (tcam.priority b < tcam.priority p)) := by
  cases best with
  | none => rfl
  | some b =>
    have hb := readPriority_spec tcam (hbest b rfl)
    rw [posOf, improves, if_pos (Int.natCast_nonneg b)]
    simp only [hb, readPriority_spec tcam hp, Option.bind_eq_bind, Option.bind_some,
      Option.all_some, UInt8.lt_iff_toNat_lt, TcamUnit.priority]
    congr

/-- What `mask_pos[0]` holds after a search that ended with `best`. -/
def maskPosOf (tcam : TcamUnit) (maskPos : ℤ) : Option ℕ → ℤ
  | none => maskPos
  | some p => tcam.group p

/-- The loop of `search_tcam` when it comes to entry `f`: `tcam` is the table the
search began with, `cur` the one with the hits so far. -/
def searchAt (tcam : TcamUnit) (flow : Block mtchFldLen) (maskPos : ℤ) (passes : ℕ)
    (cur : TcamUnit) (f : ℕ) : Option (ℤ × TcamUnit × ℤ) :=
  searchTcamFrom flow passes cur (marks tcam.marker f) f
    (posOf (bestOf (entryMatches tcam flow) tcam.priority f))
    (maskPosOf tcam maskPos (bestOf (entryMatches tcam flow) tcam.priority f))

/-- The hits of the first `f` entries have been counted, and nothing else changed. -/
def Counted (tcam : TcamUnit) (flow : Block mtchFldLen) (f : ℕ) (cur : TcamUnit) : Prop :=
  ∃ b, cur = { tcam with flowTable := b } ∧ slot b = countedRows tcam flow f

variable {cur : TcamUnit} {flow : Block mtchFldLen} {f : ℕ}

theorem maskNo_step (marked : Bool) (f : ℕ) (h : tcam.marker f = marked) :
    (if marked then (marks tcam.marker f : ℤ) + 1 else marks tcam.marker f) = tcam.group f := by
  rw [TcamUnit.group, groupOf, marks_succ, h]
  cases marked <;> simp

theorem Counted.readMarker (h : Counted tcam flow f cur) (hf : f < noFFlws) :
    readMarker cur f = some (tcam.marker f) := by
  obtain ⟨b, rfl, hb⟩ := h
  rw [readMarker_spec _ hf,
    marker_of_counted (show TcamUnit.flow { tcam with flowTable := b } = _ from hb)]

/-- The search is given up at an entry for which there is no mask. -/
theorem searchAt_error (maskPos : ℤ) (hcur : Counted tcam flow f cur) (hf : f < noFFlws)
    (herr : tcam.maskTail ≤ tcam.group f) (passes : ℕ) :
    searchAt tcam flow maskPos (passes + 1) cur f = some (strErr, cur,
      maskPosOf tcam maskPos (bestOf (entryMatches tcam flow) tcam.priority f)) := by
  have hmaskTail : cur.maskTail = tcam.maskTail := by
    obtain ⟨b, rfl, -⟩ := hcur
    rfl
  refine (bind_some_eq (hcur.readMarker hf)).trans ?_
  simp only [maskNo_step _ f rfl, hmaskTail, if_pos herr]

theorem searchAt_step (maskPos : ℤ) (hcur : Counted tcam flow f cur) (hf : f < noFFlws)
    (hroom : tcam.group f < tcam.maskTail) (hmasks : tcam.maskTail ≤ noFFlws) (passes : ℕ) :
    ∃ cur', searchAt tcam flow maskPos (passes + 1) cur f =
        searchAt tcam flow maskPos passes cur' (f + 1) ∧
      Counted tcam flow (f + 1) cur' := by
  have hmarker := hcur.readMarker hf
  obtain ⟨b, rfl, hb⟩ := hcur
  have hgroup : tcam.group f < noFFlws := by omega
  have hdiffer : flowDiffers { tcam with flowTable := b } flow (tcam.group f) f =
      some (!entryMatches tcam flow f) := by
    rw [flowDiffers_spec flow hf hgroup]
    change some (!decide (Agree (tcam.mask (tcam.group f)) flow (slot b f))) = _
    rw [hb, countedRows_self]
    rfl
  have hnext : (f : ℤ) + 1 = (f + 1 : ℕ) := by omega
  have hstep := bestOf_step (entryMatches tcam flow) tcam.priority f
  simp only [searchAt, searchTcamFrom, hmarker, Option.bind_eq_bind, Option.bind_some,
    maskNo_step _ f rfl, if_neg (not_le.mpr hroom), hdiffer, hnext]
  cases hhit : entryMatches tcam flow f with
  | false =>
    rw [hhit, if_neg (by simp)] at hstep
    refine ⟨{ tcam with flowTable := b }, ?_, b, rfl, by rw [hb, countedRows_succ_miss hhit]⟩
    rw [hstep]
    rfl
  | true =>
    obtain ⟨b₁, hcount, hb₁⟩ := countHit_spec { tcam with flowTable := b } hf
    have hb₁' : slot b₁ = countedRows tcam flow (f + 1) := by
      rw [hb₁]
      change Function.update (slot b) f (hitOnce (slot b f)) = _
      rw [hb, countedRows_self, countedRows_succ_hit hhit]
    refine ⟨{ tcam with flowTable := b₁ }, ?_, b₁, rfl, hb₁'⟩
    have hold : ∀ b ∈ bestOf (entryMatches tcam flow) tcam.priority f, b < noFFlws :=
      fun b hb => (bestOf_eq_some hb).lt.trans hf
    have himproves := improves_spec { tcam with flowTable := b₁ } hold hf
    rw [priority_of_counted (show TcamUnit.flow { tcam with flowTable := b₁ } = _ from hb₁')]
      at himproves
    simp only [Bool.not_true, Bool.false_eq_true, if_false, hcount, Option.bind_some, himproves]
    rw [hhit] at hstep
    simp only [true_and] at hstep
    split_ifs with hbetter
    · rw [hstep, if_pos hbetter]
      rfl
    · rw [hstep, if_neg hbetter]
      rfl

theorem searchAt_run (maskPos : ℤ) (hmasks : tcam.maskTail ≤ noFFlws) (passes : ℕ)
    (hcur : Counted tcam flow f cur) (hlen : f + passes ≤ noFFlws)
    (hroom : ∀ p < f + passes, tcam.group p < tcam.maskTail) :
    ∃ b, searchAt tcam flow maskPos passes cur f =
        some (posOf (bestOf (entryMatches tcam flow) tcam.priority (f + passes)),
          { tcam with flowTable := b },
          maskPosOf tcam maskPos
            (bestOf (entryMatches tcam flow) tcam.priority (f + passes))) ∧
      slot b = countedRows tcam flow (f + passes) := by
  induction passes generalizing f cur with
  | zero =>
    obtain ⟨b, rfl, hb⟩ := hcur
    exact ⟨b, rfl, hb⟩
  | succ passes ih =>
    obtain ⟨cur', hstep, hcur'⟩ :=
      searchAt_step maskPos hcur (by omega) (hroom f (by omega)) hmasks passes
    rw [hstep, show f + (passes + 1) = f + 1 + passes by omega]
    exact ih hcur' (by omega) fun p hp => hroom p (by omega)

/-- If some entry has no mask, the search gives up there. -/
theorem searchAt_run_error (maskPos : ℤ) (hmasks : tcam.maskTail ≤ noFFlws) (passes : ℕ)
    (hcur : Counted tcam flow f cur) (hlen : f + passes ≤ noFFlws)
    (herr : ∃ p, f ≤ p ∧ p < f + passes ∧ tcam.maskTail ≤ tcam.group p) :
    ∃ f' cur' maskPos', searchAt tcam flow maskPos passes cur f =
      some (strErr, cur', maskPos') ∧ Counted tcam flow f' cur' := by
  induction passes generalizing f cur with
  | zero =>
    obtain ⟨p, hle, hlt, -⟩ := herr
    omega
  | succ passes ih =>
    obtain ⟨p, hle, hlt, herr⟩ := herr
    by_cases hf : tcam.maskTail ≤ tcam.group f
    · exact ⟨f, cur, _, searchAt_error maskPos hcur (by omega) hf passes, hcur⟩
    · obtain ⟨cur', hstep, hcur'⟩ :=
        searchAt_step maskPos hcur (by omega) (not_le.mp hf) hmasks passes
      have hne : p ≠ f := fun he => hf (he ▸ herr)
      rw [hstep]
      exact ih hcur' (by omega) ⟨p, by omega, by omega, herr⟩

theorem counted_zero (tcam : TcamUnit) (flow : Block mtchFldLen) : Counted tcam flow 0 tcam :=
  ⟨tcam.flowTable, rfl, countedRows_zero.symm⟩

theorem searchTcam_spec (h : Searchable tcam n m) (flow : Block mtchFldLen) (maskPos : ℤ) :
    ∃ b, searchTcam tcam flow maskPos = some (posOf (chosen tcam flow),
        { tcam with flowTable := b }, maskPosOf tcam maskPos (chosen tcam flow)) ∧
      slot b = countedRows tcam flow n := by
  have hroom : ∀ p < 0 + n, (tcam.group p : ℤ) < tcam.maskTail := by
    intro p hp
    rw [h.maskTail]
    exact Int.ofNat_lt.mpr (h.mapped p (by omega))
  obtain ⟨b, hsearch, hb⟩ := searchAt_run maskPos h.maskTail_le n (counted_zero tcam flow)
    (show 0 + n ≤ noFFlws by rw [Nat.zero_add]; exact h.flow_le) hroom
  rw [Nat.zero_add] at hsearch hb
  rw [searchTcam, chosen, h.flowTail_toNat]
  exact ⟨b, hsearch, hb⟩

theorem chosen_lt (h : Tails tcam n m) (hp : chosen tcam flow = some p) : p < n := by
  have hlt := (bestOf_eq_some hp).lt
  rwa [h.flowTail_toNat] at hlt

theorem searchTcam_of_chosen (h : Searchable tcam n m) (hp : chosen tcam flow = some p)
    (maskPos : ℤ) :
    ∃ b, searchTcam tcam flow maskPos = some ((p : ℤ), { tcam with flowTable := b },
        (tcam.group p : ℤ)) ∧ slot b = countedRows tcam flow n := by
  obtain ⟨b, hsearch, hb⟩ := searchTcam_spec h flow maskPos
  rw [hp] at hsearch
  exact ⟨b, hsearch, hb⟩

theorem searchTcam_missing (h : Searchable tcam n m)
    (hmiss : ∀ p < n, entryMatches tcam flow p = false) (maskPos : ℤ) :
    ∃ b, searchTcam tcam flow maskPos = some (-1, { tcam with flowTable := b }, maskPos) := by
  obtain ⟨b, hsearch, -⟩ := searchTcam_spec h flow maskPos
  have hnone : chosen tcam flow = none := by
    rw [chosen, h.flowTail_toNat]
    exact bestOf_eq_none_iff.mpr hmiss
  rw [hnone] at hsearch
  exact ⟨b, hsearch⟩

/-- Counting hits keeps the markers. -/
theorem Searchable.counted (h : Searchable tcam n m) {b : Block (flwEntLen * noFFlws)}
    (hb : slot b = countedRows tcam flow n) : Searchable { tcam with flowTable := b } n m := by
  refine ⟨⟨h.flowTail, h.maskTail, h.flow_le, h.mask_le⟩, ?_⟩
  rw [TcamUnit.group,
    marker_of_counted (show TcamUnit.flow { tcam with flowTable := b } = _ from hb)]
  exact h.mapped

end Searching

end NetWalk.FlowSearch
