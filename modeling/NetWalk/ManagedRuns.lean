import NetWalk.ModifyOutcomes

/-!
# Runs of all commands of a controller

Adds, deletes, modifies and searches on one flow unit, beside the list of rules that the
commands amount to: an add inserts a rule, a delete erases one, a modify rewrites one in
place, and a search changes none. `modifiedRule` says what a modify makes of a rule, bit by
bit. A search is then answered from the list, at the position that the list gives.
-/
namespace NetWalk.ManagedRuns
open ByteBlock BitOperations SlotTable RowSequence PriorityScan PartialRun FlowTables FlowSearch
open FlowAdd FlowDelete FlowRows FlowCache FlowRuns ModifyEntry ModifyBranches ModifyOutcomes

section Modifying
variable {len : ℕ} (flag : Block 2) (newValues : Block len)

/-- The field of the action set that bit `q` is in, if it is selected. -/
def fieldAt (q : ℕ) : Option ℕ :=
  (List.range' 1 12).find? fun k => selected flag k && decide (InField k q)

/-- The action set with the slices of the new values in its selected fields. -/
def modifiedSet (old : Block actnStLen) : Block actnStLen :=
  pack fun q => (fieldAt flag q).elim (bit old q) fun k =>
    bit newValues (sliceStart flag k + (q - fieldStart k))

def modifiedPriority (old : UInt8) : UInt8 :=
  if bit flag 13 then packByte (fun q => bit newValues (sliceStart flag 13 + q)) 0 else old

def modifiedRule (r : Rule) : Rule :=
  { r with
    priority := modifiedPriority flag newValues r.priority
    actionSet := modifiedSet flag newValues r.actionSet
    flag := Block.ofFn fun i => r.flag.byte i ||| flag.byte i }

variable {flag newValues}

theorem fieldAt_some {q k : ℕ} (h : fieldAt flag q = some k) :
    1 ≤ k ∧ k < 13 ∧ selected flag k = true ∧ InField k q := by
  have hmem := List.mem_range'_1.mp (List.mem_of_find?_eq_some h)
  have hprop := List.find?_some h
  rw [Bool.and_eq_true, decide_eq_true_eq] at hprop
  exact ⟨hmem.1, by omega, hprop⟩

theorem fieldAt_none {q k : ℕ} (h : fieldAt flag q = none) (hk : 1 ≤ k) (hk' : k < 13)
    (hsel : selected flag k = true) : ¬ InField k q := by
  intro hin
  have hno := List.find?_eq_none.mp h k (List.mem_range'_1.mpr ⟨hk, by omega⟩)
  rw [hsel, decide_eq_true hin] at hno
  exact hno rfl

theorem decoded_set {old new : Block actnStLen} (h : Decoded flag newValues 1 13 old new) :
    new = modifiedSet flag newValues old := by
  apply ext_bit
  intro q hq
  rw [modifiedSet, bit_pack _ hq]
  cases hfield : fieldAt flag q with
  | none => exact h.others q hq fun k hk hk' hsel => fieldAt_none hfield hk hk' hsel
  | some k =>
    obtain ⟨hk, hk', hsel, hstart, hend⟩ := fieldAt_some hfield
    have hbit := h.fields k hk hk' hsel (q - fieldStart k) (by omega)
    rwa [Nat.add_sub_cancel' hstart] at hbit

theorem selected_thirteen (flag : Block 2) : selected flag 13 = bit flag 13 := by
  rw [selected, decide_eq_true (by decide), Bool.true_or, Bool.and_true]

theorem decoded_priority {old new : Block flwEntLen} (h : Decoded flag newValues 13 16 old new) :
    new.byte 45 = modifiedPriority flag newValues (old.byte 45) := by
  rw [modifiedPriority]
  split_ifs with hbit
  · refine byte_eq_packByte _ fun q hq => ?_
    have hsel := (selected_thirteen flag).trans hbit
    rw [Nat.mul_zero, Nat.zero_add]
    exact h.fields 13 le_rfl (by decide) hsel q hq
  · refine byteBit_ext fun p hp => ?_
    rw [byteBit_byte _ _ hp, byteBit_byte _ _ hp]
    refine h.others _ (show _ < 8 * 48 by omega) fun k hk hk' hsel hin => ?_
    obtain ⟨hstart, -⟩ := (field_facts (by omega) hk').2.2.1 hk
    have h13 : k = 13 := by omega
    exact hbit ((selected_thirteen flag).symm.trans (h13 ▸ hsel))

end Modifying

section Rows
variable {cur tcam tcam' : TcamUnit} {n m p len : ℕ} {flag : Block 2} {newValues : Block len}
  {flow : Block mtchFldLen}

/-- A rule is read off the mask table, the markers and the row. -/
theorem row_congr (hmask : tcam'.mask = tcam.mask) (hmarker : tcam'.marker = tcam.marker)
    (hbits : ∀ q < 356, bit (tcam'.flow p) q = bit (tcam.flow p) q)
    (hprio : (tcam'.flow p).byte 45 = (tcam.flow p).byte 45)
    (haction : tcam'.action p = tcam.action p) (hflag : tcam'.flag p = tcam.flag p) :
    row tcam' p = row tcam p := by
  rw [row, row, TcamUnit.maskOf, TcamUnit.maskOf, hmask, hmarker, haction, hflag]
  exact ruleOf_congr hbits hprio _ _ _

/-- A search counts hits, which no rule says. -/
theorem counted_rows {b : Block (flwEntLen * noFFlws)} {f : ℕ}
    (hb : slot b = countedRows tcam flow f) : row { tcam with flowTable := b } = row tcam := by
  funext p
  have hflow : TcamUnit.flow { tcam with flowTable := b } = countedRows tcam flow f := hb
  refine row_congr rfl (marker_of_counted hflow) (fun q hq => ?_) ?_ rfl rfl
  · rw [hflow, bit_countedRows p (by omega)]
  · rw [hflow, byte_countedRows p (by decide)]

theorem byte_hitBack (e : Block flwEntLen) {i : ℕ} (hi : i ≠ 46) :
    (hitBack e).byte i = e.byte i := by
  rcases Nat.lt_or_ge i flwEntLen with hlt | hge
  · rw [hitBack, Block.byte_set _ _ hlt, if_neg hi]
  · rw [byte_outside _ hge, byte_outside _ hge]

/-- The match fields and the marker of the row modified stay. -/
theorem modified_bits (h : RowModified cur tcam' p flag newValues) {q : ℕ} (hq : q < 360) :
    bit (tcam'.flow p) q = bit (cur.flow p) q := by
  rw [h.flow.others q (show q < 8 * 48 by omega) fun k hk hk' _ hin => ?_]
  · exact bit_eq_of_byte_eq (byte_hitBack _ (by omega))
  · obtain ⟨hstart, -⟩ := (field_facts (by omega) hk').2.2.1 hk
    omega

theorem modified_marker (h : RowModified cur tcam' p flag newValues) :
    tcam'.marker = cur.marker := by
  funext j
  rw [TcamUnit.marker, TcamUnit.marker]
  by_cases hj : j = p
  · rw [hj, modified_bits h (by decide)]
  · rw [h.otherFlows j hj]

theorem modified_mask (h : RowModified cur tcam' p flag newValues) : tcam'.mask = cur.mask := by
  rw [TcamUnit.mask, h.masks]
  rfl

theorem modified_row (h : RowModified cur tcam' p flag newValues) :
    row tcam' p = modifiedRule flag newValues (row cur p) := by
  have hprio := decoded_priority h.flow
  rw [byte_hitBack _ (by decide)] at hprio
  have hflag : tcam'.flag p = Block.ofFn fun i => (cur.flag p).byte i ||| flag.byte i := by
    apply Block.ext_byte
    intro i hi
    rw [Block.byte_ofFn hi, h.flag i hi]
  have hmask : tcam'.maskOf p = cur.maskOf p := by
    rw [TcamUnit.maskOf, TcamUnit.maskOf, modified_mask h, modified_marker h]
  rw [row, ruleOf, hprio, hflag, decoded_set h.action, hmask]
  simp only [modifiedRule, row, ruleOf, Rule.mk.injEq, and_true, true_and]
  funext q
  exact modified_bits h (by omega)

/-- A modify rewrites one rule of the list. -/
theorem modified_rows (h : RowModified cur tcam' p flag newValues) :
    rows tcam' = (rows cur).modify p (modifiedRule flag newValues) := by
  apply List.ext_getElem?
  intro j
  rw [List.getElem?_modify, rows, rows, h.flowTail]
  rcases Nat.lt_or_ge j cur.flowTail.toNat with hj | hj
  · rw [getElem?_firstRows _ hj, getElem?_firstRows _ hj]
    simp only [Option.map_eq_map, Option.map_some]
    by_cases hjp : p = j
    · rw [if_pos hjp, ← hjp, modified_row h]
    · rw [if_neg hjp, row_congr (modified_mask h) (modified_marker h)
        (fun q _ => by rw [h.otherFlows j (Ne.symm hjp)])
        (by rw [h.otherFlows j (Ne.symm hjp)]) (h.otherActions j (Ne.symm hjp))
        (h.otherFlags j (Ne.symm hjp))]
  · rw [List.getElem?_eq_none (by simpa using hj), List.getElem?_eq_none (by simpa using hj)]
    rfl

theorem modified_grouped (h : RowModified cur tcam' p flag newValues) (hcur : Grouped cur n m) :
    Grouped tcam' n m := by
  refine ⟨h.flowTail.trans hcur.flowTail, h.maskTail.trans hcur.maskTail, hcur.flow_le,
    hcur.mask_le, ?_, hcur.leftOver⟩
  rw [modified_marker h]
  exact hcur.groups

theorem counted_grouped {b : Block (flwEntLen * noFFlws)} {f : ℕ}
    (hb : slot b = countedRows tcam flow f) (h : Grouped tcam n m) :
    Grouped { tcam with flowTable := b } n m := by
  refine ⟨h.flowTail, h.maskTail, h.flow_le, h.mask_le, ?_, h.leftOver⟩
  have hmark : TcamUnit.marker { tcam with flowTable := b } = tcam.marker := marker_of_counted hb
  rw [hmark]
  exact h.groups

end Rows

/-- The calls, with what the uninitialised arrays in them hold. -/
inductive ManagedCall where
  | table (c : TcamCall)
  | modify (matchFields : Block mtchFldLen) (flag : Block 2) {n : ℕ} (newValues : Block n)
      (val : Block 6)
  | search (flow : Block mtchFldLen) (actionSet : Block actnStLen) (maskPos : ℤ)

structure ManagedRun extends TcamRun where
  cache : Cache

def startManaged (tcam : TcamUnit) (cache : Cache) : ManagedRun := ⟨startTcam tcam, init cache⟩

def managedCall (s : ManagedRun) : ManagedCall → Option ManagedRun
  | .table c => do
      let t ← tcamCall s.toTcamRun c
      some { s with toTcamRun := t }
  | .modify matchFields flag newValues val => do
      let (pos, tcam) ← modifyEntry s.tcam matchFields flag newValues val
      some { s with
        tcam := tcam
        rules := if 0 ≤ pos then s.rules.modify pos.toNat (modifiedRule flag newValues)
          else s.rules }
  | .search flow actionSet maskPos => do
      let found ← searchFlow s.tcam s.cache flow actionSet maskPos
      some { s with tcam := found.tcam, cache := found.cache }

/-- Masks select match fields only, deletes and modifies are given flows that match and do
not come to the row behind a full table, and the new values hold the fields selected. -/
def ManagedUsed (s : ManagedRun) : ManagedCall → Prop
  | .table c => TcamUsed s.toTcamRun c ∧ CallSafe s.toTcamRun c
  | .modify (n := n) matchFields flag _ _ =>
      tcamMatches s.tcam matchFields = true ∧ sliceStart flag 16 ≤ 8 * n
  | .search _ _ _ => True

instance : ∀ s c, Decidable (ManagedUsed s c)
  | s, .table c => inferInstanceAs (Decidable (TcamUsed s.toTcamRun c ∧ CallSafe s.toTcamRun c))
  | s, .modify (n := n) matchFields flag _ _ =>
    inferInstanceAs (Decidable (tcamMatches s.tcam matchFields = true ∧
      sliceStart flag 16 ≤ 8 * n))
  | _, .search _ _ _ => inferInstanceAs (Decidable True)

/-- The position of the first matching rule of highest priority. -/
def bestRule (rules : List Rule) (flow : Block mtchFldLen) : Option ℕ :=
  bestOf (fun p => (rules[p]?).any fun r => decide (r.Matches flow))
    (fun p => ((rules[p]?).map fun r => r.priority.toNat).getD 0) rules.length

/-- The tables hold the rules, and every search is answered from them. -/
structure AnswersRules (s : ManagedRun) : Prop where
  rows : rows s.tcam = s.rules
  search : ∀ flow actionSet maskPos, ∃ found,
    searchFlow s.tcam s.cache flow actionSet maskPos = some found ∧
      found.pos = posOf (bestRule s.rules flow) ∧
      ∀ p r, found.pos = (p : ℕ) → s.rules[p]? = some r →
        found.actionSet = r.actionSet ∧ found.tcam.flag p = r.flag

structure Managed (s : ManagedRun) (n m : ℕ) : Prop extends RefinesRules s.toTcamRun n m where
  top_pos : 1 ≤ s.cache.cacheTop
  top_le : s.cache.cacheTop ≤ cacheSize

section Runs
variable {s : ManagedRun} {n m : ℕ}

theorem chosen_eq_bestRule (h : RefinesRules s.toTcamRun n m) (flow : Block mtchFldLen) :
    chosen s.tcam flow = bestRule s.rules flow := by
  have hn := h.grouped.flowTail_toNat
  have hlength : s.rules.length = n := by
    rw [← refinesRules_rows h, rows, length_firstRows, hn]
  rw [chosen, bestRule, hn, hlength]
  refine (bestOf_congr fun p hp => ?_).trans (bestOf_congr_prio fun p hp => ?_)
  · obtain ⟨r, hr, -, hiff⟩ := matches_iff h hp flow
    rw [hr, Option.any_some, Bool.eq_iff_iff, decide_eq_true_eq]
    exact hiff
  · obtain ⟨r, hr, hrow, -⟩ := matches_iff h hp flow
    rw [hr, ← hrow]
    rfl

theorem refinesRules_of {t : TcamRun} (hgrouped : Grouped t.tcam n m)
    (hnorm : Normalised t.tcam m) (hrows : rows t.tcam = t.rules)
    (hfields : ∀ r ∈ t.rules, SelectsFields r.mask) : RefinesRules t n m := by
  refine ⟨⟨hgrouped, hnorm, ?_⟩, hfields⟩
  rw [hrows]
  conv_lhs => rw [← List.map_id t.rules]
  exact List.map_congr_left fun r hr => (stored_of_fields (hfields r hr)).symm

/-- A search returns the best entry with its action set, and leaves the table with hits. -/
theorem searchFlow_result {t : TcamUnit} {cache : Cache} (h : Searchable t n m)
    (htop : 1 ≤ cache.cacheTop ∧ cache.cacheTop ≤ cacheSize) (flow : Block mtchFldLen)
    (actionSet : Block actnStLen) (maskPos : ℤ) :
    ∃ (found : Lookup) (b : Block (flwEntLen * noFFlws)),
      searchFlow t cache flow actionSet maskPos = some found ∧
      found.pos = posOf (chosen t flow) ∧
      (∀ p, chosen t flow = some p → found.actionSet = t.action p) ∧
      found.tcam = { t with flowTable := b } ∧ slot b = countedRows t flow n ∧
      1 ≤ found.cache.cacheTop ∧ found.cache.cacheTop ≤ cacheSize := by
  obtain ⟨b, hsearch, hb⟩ := searchTcam_spec h flow maskPos
  cases hbest : chosen t flow with
  | none =>
    rw [hbest] at hsearch
    exact ⟨_, b, searchFlow_miss hsearch (by decide) actionSet, rfl, fun p hp => (nomatch hp), rfl,
      hb, htop⟩
  | some p =>
    rw [hbest] at hsearch
    have hp := (chosen_lt h.toTails hbest).trans_le h.flow_le
    obtain ⟨cache', hfound, hfilled⟩ := searchFlow_hit hsearch hp htop.1 htop.2 actionSet
    have hnext := hfilled.top
    refine ⟨_, b, hfound, rfl, fun q hq => ?_, rfl, hb, ?_⟩
    · rw [← Option.some.inj hq]
      rfl
    · change 1 ≤ cache'.cacheTop ∧ cache'.cacheTop ≤ cacheSize
      obtain ⟨hpos, hle⟩ := htop
      split_ifs at hnext
      · rw [hnext]
        decide
      · omega

theorem eq_some_of_posOf {best : Option ℕ} {p : ℕ} (h : posOf best = p) : best = some p := by
  cases best with
  | none =>
    rw [posOf] at h
    omega
  | some q => rw [Int.ofNat_inj.mp h]

theorem answersRules_of_managed (h : Managed s n m) : AnswersRules s where
  rows := refinesRules_rows h.toRefinesRules
  search flow actionSet maskPos := by
    obtain ⟨found, b, hfound, hpos, haction, htcam, -⟩ :=
      searchFlow_result h.grouped.searchable ⟨h.top_pos, h.top_le⟩ flow actionSet maskPos
    refine ⟨found, hfound, chosen_eq_bestRule h.toRefinesRules flow ▸ hpos, fun p r hp hr => ?_⟩
    have hbest := eq_some_of_posOf (hpos.symm.trans hp)
    obtain ⟨r', hr', hrow, -⟩ :=
      matches_iff h.toRefinesRules (chosen_lt h.grouped.tails hbest) flow
    cases hr.symm.trans hr'
    rw [haction p hbest, htcam, ← hrow]
    exact ⟨rfl, rfl⟩

theorem modify_managed (h : Managed s n m) {matchFields : Block mtchFldLen}
    (hmatch : tcamMatches s.tcam matchFields = true) {len : ℕ} (flag : Block 2)
    (newValues : Block len) (hlong : sliceStart flag 16 ≤ 8 * len) (val : Block 6) :
    ∃ s', managedCall s (.modify matchFields flag newValues val) = some s' ∧ Managed s' n m := by
  obtain ⟨p, hp, hlt⟩ := chosen_of_tcamMatches h.grouped hmatch
  obtain ⟨b, tcam', hb, hmodify, hrow⟩ :=
    modifyEntry_spec h.grouped.searchable hp flag newValues hlong val
  refine ⟨_, bind_some_of hmodify rfl, refinesRules_of
    (modified_grouped hrow (counted_grouped hb h.grouped)) ?_ ?_ ?_, h.top_pos, h.top_le⟩
  · intro i hi
    rw [modified_mask hrow]
    exact h.normalised i hi
  · have hrows : rows { s.tcam with flowTable := b } = rows s.tcam := by
      rw [rows, counted_rows hb]
      rfl
    simp only [if_pos (Int.natCast_nonneg p), Int.toNat_natCast]
    rw [modified_rows hrow, hrows, refinesRules_rows h.toRefinesRules]
  · intro r hr
    simp only [if_pos (Int.natCast_nonneg p), Int.toNat_natCast] at hr
    obtain ⟨j, hj⟩ := List.mem_iff_getElem?.mp hr
    rw [List.getElem?_modify] at hj
    cases hold : s.rules[j]? with
    | none =>
      rw [hold] at hj
      cases hj
    | some old =>
      have hmem := h.fields old (List.mem_of_getElem? hold)
      rw [hold] at hj
      obtain rfl := Option.some.inj hj
      simp only
      split_ifs <;> exact hmem

theorem search_managed (h : Managed s n m) (flow : Block mtchFldLen) (actionSet : Block actnStLen)
    (maskPos : ℤ) :
    ∃ s', managedCall s (.search flow actionSet maskPos) = some s' ∧ Managed s' n m := by
  obtain ⟨found, b, hfound, -, -, htcam, hb, htop, htop'⟩ :=
    searchFlow_result h.grouped.searchable ⟨h.top_pos, h.top_le⟩ flow actionSet maskPos
  have hrows : rows found.tcam = rows s.tcam := by
    rw [htcam, rows, counted_rows hb]
    rfl
  refine ⟨_, bind_some_of hfound rfl, refinesRules_of ?_ ?_ ?_ h.fields, htop, htop'⟩
  · simp only [htcam]
    exact counted_grouped hb h.grouped
  · simp only [htcam]
    exact h.normalised
  · exact hrows.trans (refinesRules_rows h.toRefinesRules)

theorem managedCall_keeps {c : ManagedCall} (h : Managed s n m) (hused : ManagedUsed s c) :
    ∃ s' n' m', managedCall s c = some s' ∧ Managed s' n' m' := by
  cases c with
  | table c =>
    obtain ⟨hused, hsafe⟩ := hused
    have hmatch : DeletesMatch s.toTcamRun c := by
      cases c with
      | add mask flowEntry actionSet flag => trivial
      | delete flow => exact hused
    obtain ⟨t, n', m', ht, h'⟩ := tcamCall_refines h.toRefines hmatch hsafe
    exact ⟨_, n', m', bind_some_of ht rfl, ⟨h', tcamCall_fields ht h.fields hused⟩, h.top_pos,
      h.top_le⟩
  | modify matchFields flag newValues val =>
    obtain ⟨s', hs', h'⟩ := modify_managed h hused.1 flag newValues hused.2 val
    exact ⟨s', n, m, hs', h'⟩
  | search flow actionSet maskPos =>
    obtain ⟨s', hs', h'⟩ := search_managed h flow actionSet maskPos
    exact ⟨s', n, m, hs', h'⟩

theorem managed_throughout (tcam : TcamUnit) (cache : Cache) (calls : List ManagedCall)
    (hused : Along managedCall ManagedUsed (startManaged tcam cache) calls) :
    Throughout managedCall (fun s => ∃ n m, Managed s n m) (startManaged tcam cache) calls := by
  have hstart : ∃ n m, Managed (startManaged tcam cache) n m :=
    ⟨0, 0, ⟨refines_start tcam, fun r hr => absurd hr List.not_mem_nil⟩, le_rfl,
      show (1 : ℤ) ≤ cacheSize by decide⟩
  refine throughout_of_along _ ?_ hstart hused
  rintro s c ⟨n, m, h⟩ hused
  obtain ⟨s', n', m', hs', h'⟩ := managedCall_keeps h hused
  exact ⟨s', hs', n', m', h'⟩

/-- In every run of adds, deletes, modifies and searches the tables hold the list of rules
that the commands amount to, and a search returns the first best rule of that list. -/
theorem answers_rules (tcam : TcamUnit) (cache : Cache) (calls : List ManagedCall)
    (hused : Along managedCall ManagedUsed (startManaged tcam cache) calls) :
    Throughout managedCall AnswersRules (startManaged tcam cache) calls := by
  refine (managed_throughout tcam cache calls hused).mono ?_
  rintro s ⟨n, m, h⟩
  exact answersRules_of_managed h

/-- A rule is looked up, gets a new output port and a higher priority, and is looked up
again. -/
theorem rule_modified_between_lookups :
    Throughout managedCall AnswersRules (startManaged zeroedTcamUnit zeroedCache)
      [.table (.add (firstByte 255) (entryFor 1 7) (firstByte 1) (firstByte 0)),
       .search (firstByte 1) (firstByte 0) 0,
       .modify (firstByte 1) (Block.ofFn fun i => if i = 1 then 12 else 0)
        (firstByte 9 : Block 2) (firstByte 0),
       .search (firstByte 1) (firstByte 0) 0] :=
  answers_rules zeroedTcamUnit zeroedCache _ (by decide +kernel)

end Runs

end NetWalk.ManagedRuns
