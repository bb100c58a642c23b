import NetWalk.ActionOutput
import NetWalk.ManagedRuns
import NetWalk.CacheRuns

/-!
# A modify seen through the next lookup

The branches of `modify_entry` and those of `apply_action` name the same bits of the action
set. So the values that a controller sends with a modify are those that `apply_action` puts
out for the flow from then on: each field selected is read from its slice of the new values,
and the other fields are shown as before.
-/
namespace NetWalk.AppliedChanges
open ByteBlock BitOperations SlotTable RingPrinting PriorityScan FlowTables FlowSearch FlowCache
open ModifyEntry ModifyBranches ModifyOutcomes CacheRuns ActionOutput ManagedRuns FlowRuns

section Layout

/-- A field is printed from the bits that a modify replaces for the same flag bit. -/
structure SameBits (f : ActionField) : Prop where
  pos : 1 ≤ f.flagBit
  lt : f.flagBit < 12
  strtBit : f.strtBit = fieldStart f.flagBit
  endBit : f.endBit + 1 = fieldStart f.flagBit + width f.flagBit

theorem sameBits {f : ActionField} (hf : f ∈ actionFields) : SameBits f := by
  have hall : ∀ f ∈ actionFields, 1 ≤ f.flagBit ∧ f.flagBit < 12 ∧
      f.strtBit = fieldStart f.flagBit ∧
      f.endBit + 1 = fieldStart f.flagBit + width f.flagBit := by decide
  obtain ⟨h₁, h₂, h₃, h₄⟩ := hall f hf
  exact ⟨h₁, h₂, h₃, h₄⟩

/-- Fields of the action set do not overlap. -/
theorem inField_inj {i k q : ℕ} (hi : 1 ≤ i) (hi' : i < 13) (hk : 1 ≤ k) (hk' : k < 13)
    (hiq : InField i q) (hkq : InField k q) : i = k := by
  rcases Nat.lt_trichotomy i k with hlt | rfl | hgt
  · have := ((field_facts hk (by omega)).2.1 hk').2 i hi hlt
    omega
  · rfl
  · have := ((field_facts hi (by omega)).2.1 hi').2 k hk hgt
    omega

variable {n m : ℕ} {b : Block n} {b' : Block m}

theorem fieldByte_congr {s t s' t' : ℕ} (hst : s ≤ t) (hlen : t' = s' + (t - s))
    (h : ∀ q, s ≤ q → q ≤ t → bit b q = bit b' (s' + (q - s))) (i : ℕ) :
    fieldByte b s t i = fieldByte b' s' t' i := by
  unfold fieldByte
  congr 1
  funext q
  by_cases hin : s + q ≤ t
  · rw [decide_eq_true hin, decide_eq_true (by omega), h _ (by omega) hin, Nat.add_sub_cancel_left]
  · rw [decide_eq_false hin, decide_eq_false (by omega), Bool.false_and, Bool.false_and]

end Layout

/-- What is put out for the flag and the action set of an entry after a modify. -/
def shownChanges {len : ℕ} (flag : Block 2) (newValues : Block len) (oldFlag : Block 2)
    (old : Block actnStLen) : List (Token UInt8) :=
  if bit oldFlag 0 || bit flag 0 then [.text "\nDrop Packet"]
  else
    actionFields.flatMap (fun f =>
      if bit flag f.flagBit then
        f.print (fieldByte newValues (sliceStart flag f.flagBit)
          (sliceStart flag f.flagBit + (f.endBit - f.strtBit)))
      else shownField oldFlag old f) ++
    [.text "\nOutput Port: ", .item (if bit flag 12 then
      fieldByte newValues (sliceStart flag 12) (sliceStart flag 12 + 7) 0 else old.byte 30)]

section Showing
variable {len : ℕ} {flag oldFlag newFlag : Block 2} {newValues : Block len}
  {old new : Block actnStLen}

theorem selected_eq (hdrop : bit flag 0 = false) (k : ℕ) : selected flag k = bit flag k := by
  rw [selected, hdrop, Bool.not_false, Bool.or_true, Bool.and_true]

theorem bit_flag_or (h : ∀ i < 2, newFlag.byte i = oldFlag.byte i ||| flag.byte i) {k : ℕ}
    (hk : k < 16) : bit newFlag k = (bit oldFlag k || bit flag k) := by
  rw [bit, bit, bit, h _ (by omega), byteBit_or]

theorem shownField_changed (hdrop : bit flag 0 = false)
    (h : Decoded flag newValues 1 13 old new)
    (hflag : ∀ i < 2, newFlag.byte i = oldFlag.byte i ||| flag.byte i) {f : ActionField}
    (hf : f ∈ actionFields) :
    shownField newFlag new f =
      if bit flag f.flagBit then
        f.print (fieldByte newValues (sliceStart flag f.flagBit)
          (sliceStart flag f.flagBit + (f.endBit - f.strtBit)))
      else shownField oldFlag old f := by
  have hsound := actionFields_sound hf
  obtain ⟨hpos, hlt, hstart, hend⟩ := sameBits hf
  rw [shownField, shownField, bit_flag_or hflag hsound.flagBit]
  cases hbit : bit flag f.flagBit with
  | true =>
    rw [Bool.or_true, if_pos rfl, if_pos rfl]
    congr 1
    funext i
    refine fieldByte_congr hsound.ordered rfl (fun q hq hq' => ?_) i
    have hsel := (selected_eq hdrop f.flagBit).trans hbit
    have hslice := h.fields f.flagBit hpos (by omega) hsel (q - f.strtBit) (by omega)
    rwa [← hstart, Nat.add_sub_cancel' hq] at hslice
  | false =>
    rw [Bool.or_false, if_neg Bool.false_ne_true]
    split_ifs
    · congr 1
      funext i
      refine fieldByte_congr hsound.ordered (by have := hsound.ordered; omega)
        (fun q hq hq' => ?_) i
      rw [Nat.add_sub_cancel' hq]
      refine h.others q (by have := hsound.inside; omega) fun k hk hk' hsel hin => ?_
      -- the field printed is not among those selected
      have hkf := inField_inj hk hk' hpos (show f.flagBit < 13 by omega) hin ⟨by omega, by omega⟩
      rw [selected_eq hdrop, hkf, hbit] at hsel
      cases hsel
    · rfl

theorem port_changed (hdrop : bit flag 0 = false) (h : Decoded flag newValues 1 13 old new) :
    new.byte 30 = if bit flag 12 then
      fieldByte newValues (sliceStart flag 12) (sliceStart flag 12 + 7) 0 else old.byte 30 := by
  have hport : fieldStart 12 = 240 ∧ width 12 = 8 := ⟨rfl, rfl⟩
  split_ifs with hbit
  · refine byte_eq_packByte _ fun q hq => ?_
    have hslice := h.fields 12 (by decide) (by decide) ((selected_eq hdrop 12).trans hbit) q hq
    rw [hport.1] at hslice
    rw [decide_eq_true (by omega), Bool.true_and, Nat.mul_zero, Nat.zero_add]
    exact hslice
  · refine byteBit_ext fun p hp => ?_
    rw [byteBit_byte _ _ hp, byteBit_byte _ _ hp]
    refine h.others _ (show _ < 8 * 31 by omega) fun k hk hk' hsel hin => ?_
    have hk12 := inField_inj hk hk' (show 1 ≤ 12 by decide) (by decide) hin
      (show InField 12 _ from ⟨by omega, by omega⟩)
    rw [selected_eq hdrop, hk12] at hsel
    exact hbit hsel

theorem shownActions_changed (h : Decoded flag newValues 1 13 old new)
    (hflag : ∀ i < 2, newFlag.byte i = oldFlag.byte i ||| flag.byte i) :
    shownActions newFlag new = shownChanges flag newValues oldFlag old := by
  rw [shownActions, shownChanges, bit_flag_or hflag (by decide)]
  by_cases hdrop : (bit oldFlag 0 || bit flag 0) = true
  · rw [if_pos hdrop, if_pos hdrop]
  · have hoff : bit flag 0 = false := by
      rw [Bool.or_eq_true, not_or] at hdrop
      exact Bool.eq_false_of_not_eq_true hdrop.2
    rw [if_neg hdrop, if_neg hdrop, port_changed hoff h]
    congr 1
    exact List.flatMap_congr fun f hf => shownField_changed hoff h hflag hf

end Showing

section Lookup
variable {tcam tcam' : TcamUnit} {n m p len : ℕ} {matchFields : Block mtchFldLen} {flag : Block 2}
  {newValues : Block len} {b : Block (flwEntLen * noFFlws)}

theorem modified_searchable (h : Searchable tcam n m)
    (hb : slot b = countedRows tcam matchFields n)
    (hrow : RowModified { tcam with flowTable := b } tcam' p flag newValues) :
    Searchable tcam' n m := by
  have hcur := h.counted hb
  refine ⟨⟨hrow.flowTail.trans hcur.flowTail, hrow.maskTail.trans hcur.maskTail, hcur.flow_le,
    hcur.mask_le⟩, ?_⟩
  rw [TcamUnit.group, modified_marker hrow]
  exact hcur.mapped

/-- Neither the hits of the search nor the modify change what the entries match. -/
theorem modified_matches (hb : slot b = countedRows tcam matchFields n)
    (hrow : RowModified { tcam with flowTable := b } tcam' p flag newValues)
    (flow : Block mtchFldLen) : entryMatches tcam' flow = entryMatches tcam flow := by
  funext j
  have hflow : TcamUnit.flow { tcam with flowTable := b } = countedRows tcam matchFields n := hb
  have hmask : tcam'.maskOf j = tcam.maskOf j := by
    rw [TcamUnit.maskOf, modified_mask hrow, modified_marker hrow, marker_of_counted hflow]
    rfl
  have hbits : ∀ q < 360, bit (tcam'.flow j) q = bit (tcam.flow j) q := by
    intro q hq
    by_cases hj : j = p
    · rw [hj, modified_bits hrow hq, hflow, bit_countedRows p (by omega)]
    · rw [hrow.otherFlows j hj, hflow, bit_countedRows j (by omega)]
  rw [entryMatches, entryMatches, hmask, decide_eq_decide]
  exact forall_congr' fun q => imp_congr_right fun hq => by rw [hbits q hq]

theorem modified_priority (hb : slot b = countedRows tcam matchFields n)
    (hrow : RowModified { tcam with flowTable := b } tcam' p flag newValues)
    (hprio : bit flag 13 = false) : tcam'.priority = tcam.priority := by
  have hflow : TcamUnit.flow { tcam with flowTable := b } = countedRows tcam matchFields n := hb
  rw [← priority_of_counted hflow]
  funext j
  rw [TcamUnit.priority, TcamUnit.priority]
  by_cases hj : j = p
  · have hrowp := decoded_priority hrow.flow
    rw [byte_hitBack _ (by decide), modifiedPriority, hprio, if_neg Bool.false_ne_true] at hrowp
    rw [hj, hrowp]
  · rw [hrow.otherFlows j hj]

/-- The entry modified is still the one taken, if its priority stays or no other matches. -/
theorem modified_chosen (h : Searchable tcam n m) (hp : chosen tcam matchFields = some p)
    (hb : slot b = countedRows tcam matchFields n)
    (hrow : RowModified { tcam with flowTable := b } tcam' p flag newValues)
    (hbest : bit flag 13 = false ∨
      ∀ j < n, j ≠ p → entryMatches tcam matchFields j = false) :
    chosen tcam' matchFields = some p := by
  have htail := (modified_searchable h hb hrow).flowTail_toNat
  have hmatch := modified_matches hb hrow matchFields
  rw [chosen, h.flowTail_toNat] at hp
  rw [chosen, htail, hmatch]
  rcases hbest with hprio | hone
  · rwa [modified_priority hb hrow hprio]
  · have hpbest := bestOf_eq_some hp
    rcases bestOf_result (entryMatches tcam matchFields) tcam'.priority n with
      ⟨-, hmiss⟩ | ⟨q, hq, hqbest⟩
    · exact absurd ((hmiss p hpbest.lt).symm.trans hpbest.isHit) Bool.false_ne_true
    · by_contra hne
      have hqp : q ≠ p := fun heq => hne (heq ▸ hq)
      exact Bool.false_ne_true ((hone q hqbest.lt hqp).symm.trans hqbest.isHit)

/-- Right after a modify, with nothing in the cache, `apply_action` puts out the new values
for the flow: every field selected from its slice, the others as before. -/
theorem applies_new_values (h : Searchable tcam n m) {cache : Cache} (hcache : Unfilled cache)
    {maskPos : ℤ} {found : TcamUnit × ℤ}
    (hfound : searchTcam tcam matchFields maskPos = some ((p : ℤ), found)) (flag : Block 2)
    (hbest : bit flag 13 = false ∨ ∀ j < n, j ≠ p → entryMatches tcam matchFields j = false)
    (newValues : Block len) (hlong : sliceStart flag 16 ≤ 8 * len) (val : Block 6) :
    ∃ tcam', modifyEntry tcam matchFields flag newValues val = some ((p : ℤ), tcam') ∧
      ∀ actionSet maskPos' val', ∃ found',
        applyActionOutput tcam' cache matchFields actionSet maskPos' val' =
          some (1, found', .text "\nActions applied: " ::
            shownChanges flag newValues (tcam.flag p) (tcam.action p)) ∧
        found'.pos = p := by
  have hp := chosen_of_search h hfound
  obtain ⟨b, tcam', hb, hmodify, hrow⟩ := modifyEntry_spec h hp flag newValues hlong val
  refine ⟨tcam', hmodify, fun actionSet maskPos' val' => ?_⟩
  have hsearchable := modified_searchable h hb hrow
  have hchosen := modified_chosen h hp hb hrow hbest
  obtain ⟨b', hsearch, -⟩ := searchTcam_of_chosen hsearchable hchosen maskPos'
  have htop := hcache.top
  obtain ⟨cache', hfound', -⟩ := searchFlow_hit hsearch
    ((chosen_lt hsearchable.toTails hchosen).trans_le hsearchable.flow_le)
    (show 0 < cache.cacheTop by omega) (show cache.cacheTop ≤ cacheSize by rw [htop]; decide)
    actionSet
  have hskip : cacheHits tcam' cache matchFields = false := by
    rw [cacheHits, searchCache, htop]
    rfl
  rw [← settle_unfilled hcache] at hfound'
  have houtput := applyActionOutput_settled hfound' val'
  simp only [hskip, shownLookup, if_neg (not_lt.mpr (Int.natCast_nonneg p)), Int.toNat_natCast,
    Bool.false_eq_true, if_false, List.nil_append] at houtput
  exact ⟨_, shownActions_changed hrow.action hrow.flag ▸ houtput, rfl⟩

/-- A new output port for the only entry. -/
theorem new_port_applied :
    let tcam := tableAfter [.add (firstByte 255) (entryFor 1 7) (firstByte 1) (firstByte 0)]
    let flag : Block 2 := Block.ofFn fun i => if i = 1 then 8 else 0
    ∃ tcam', modifyEntry tcam (firstByte 1) flag (firstByte 9 : Block 1) (firstByte 0) =
        some (0, tcam') ∧
      ∀ actionSet maskPos' val', ∃ found',
        applyActionOutput tcam' (init zeroedCache) (firstByte 1) actionSet maskPos' val' =
          some (1, found', .text "\nActions applied: " ::
            shownChanges flag (firstByte 9 : Block 1) (tcam.flag 0) (tcam.action 0)) ∧
        found'.pos = 0 := by
  intro tcam flag
  have h : GroupRuns.WellFormed tcam 1 1 := by decide +kernel
  have hchosen : chosen tcam (firstByte 1) = some 0 := by decide +kernel
  obtain ⟨b, hsearch, -⟩ := searchTcam_of_chosen h.searchable hchosen 0
  exact applies_new_values h.searchable ⟨rfl, fun _ => rfl⟩ hsearch flag
    (.inl (by decide +kernel)) (firstByte 9) (by decide +kernel) (firstByte 0)

end Lookup

end NetWalk.AppliedChanges
