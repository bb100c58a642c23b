import NetWalk.FlowRows
import NetWalk.FlowCache
import NetWalk.PartialRun

/-!
# Runs of adds and deletes

A run keeps, beside the tables, the list of rules that were added and not
deleted again, each at the position that the call returned. A mask can be left
over: the first group has no marker, so deleting its only entry leaves its mask
behind. `LeftOver` describes this state, and `AddSafe` and `DeleteSafe` say which
calls do not run into it or into the row behind a full table. Under them every
step keeps the stored rules equal to the list (`Refines`).
-/
namespace NetWalk.FlowRuns
open ByteBlock BitOperations RowSequence PriorityScan FlowTables FlowSearch FlowAdd FlowDelete
open FlowRows FlowCache PartialRun

inductive TcamCall where
  | add (mask : Block mtchFldLen) (flowEntry : FlowEntry) (actionSet : Block actnStLen)
      (flag : Block 2)
  | delete (flow : Block mtchFldLen)

structure TcamRun where
  tcam : TcamUnit
  rules : List Rule

def startTcam (tcam : TcamUnit) : TcamRun := ⟨{ tcam with flowTail := 0, maskTail := 0 }, []⟩

def tcamCall (s : TcamRun) : TcamCall → Option TcamRun
  | .add mask flowEntry actionSet flag => do
      let (pos, tcam, _, _) ← addNewEntry s.tcam mask flowEntry actionSet flag
      some ⟨tcam, if 0 ≤ pos
        then insertRule s.rules pos.toNat (ruleOf mask flowEntry actionSet flag) else s.rules⟩
  | .delete flow => do
      let (pos, tcam) ← deleteFlowEntry s.tcam flow
      some ⟨tcam, s.rules.eraseIdx pos.toNat⟩

/-- The table that a run from zeroed memory leaves. -/
def tableAfter (calls : List TcamCall) : TcamUnit :=
  ((run tcamCall (startTcam zeroedTcamUnit) calls).map TcamRun.tcam).getD zeroedTcamUnit

/-- `search_tcam` finds an entry for the flow. -/
def tcamMatches (tcam : TcamUnit) (flow : Block mtchFldLen) : Bool :=
  (searchTcam tcam flow 0).any fun found => decide (0 ≤ found.1)

/-- Entries are deleted by flows that match. -/
def DeletesMatch (s : TcamRun) : TcamCall → Prop
  | .add _ _ _ _ => True
  | .delete flow => tcamMatches s.tcam flow = true

instance : ∀ s c, Decidable (DeletesMatch s c)
  | _, .add _ _ _ _ => inferInstanceAs (Decidable True)
  | s, .delete flow => inferInstanceAs (Decidable (tcamMatches s.tcam flow = true))

/-- The first mask has lost its last entry. -/
def LeftOver (tcam : TcamUnit) : Prop :=
  0 < tcam.maskTail ∧ (tcam.flowTail = 0 ∨ tcam.marker 0 = true)

instance (tcam : TcamUnit) : Decidable (LeftOver tcam) :=
  inferInstanceAs (Decidable (0 < tcam.maskTail ∧ (tcam.flowTail = 0 ∨ tcam.marker 0 = true)))

/-- The mask is among the stored ones. -/
def Stored (tcam : TcamUnit) (mask : Block mtchFldLen) : Prop :=
  ∃ g < tcam.maskTail.toNat, tcam.mask g = mask

instance (tcam : TcamUnit) (mask : Block mtchFldLen) : Decidable (Stored tcam mask) :=
  inferInstanceAs (Decidable (∃ g < tcam.maskTail.toNat, tcam.mask g = mask))

/-- While a mask is left over, an add has to find another group, or room for a
mask behind a table that is not empty. -/
def AddSafe (tcam : TcamUnit) (mask : Block mtchFldLen) : Prop :=
  tcam.flowTail < noFFlws → LeftOver tcam →
    tcam.flowTail ≠ 0 ∧ tcam.mask 0 ≠ mask ∧ (Stored tcam mask ∨ tcam.maskTail < noFFlws)

instance (tcam : TcamUnit) (mask : Block mtchFldLen) : Decidable (AddSafe tcam mask) :=
  inferInstanceAs (Decidable (tcam.flowTail < noFFlws → LeftOver tcam →
    tcam.flowTail ≠ 0 ∧ tcam.mask 0 ≠ mask ∧ (Stored tcam mask ∨ tcam.maskTail < noFFlws)))

/-- The entry to delete is not a marked one in the last row of a full table. -/
def DeleteSafe (tcam : TcamUnit) (flow : Block mtchFldLen) : Prop :=
  ¬ (chosen tcam flow = some (noFFlws - 1) ∧ tcam.marker (noFFlws - 1) = true)

instance (tcam : TcamUnit) (flow : Block mtchFldLen) : Decidable (DeleteSafe tcam flow) :=
  inferInstanceAs (Decidable
    (¬ (chosen tcam flow = some (noFFlws - 1) ∧ tcam.marker (noFFlws - 1) = true)))

/-- A call that meets neither defect. -/
def CallSafe (s : TcamRun) : TcamCall → Prop
  | .add mask _ _ _ => AddSafe s.tcam mask
  | .delete flow => DeleteSafe s.tcam flow

instance : ∀ s c, Decidable (CallSafe s c)
  | s, .add mask _ _ _ => inferInstanceAs (Decidable (AddSafe s.tcam mask))
  | s, .delete flow => inferInstanceAs (Decidable (DeleteSafe s.tcam flow))

/-- Masks below the tail are stored with their spare bits cleared. -/
def Normalised (tcam : TcamUnit) (m : ℕ) : Prop :=
  ∀ i < m, clearSpare (tcam.mask i) = tcam.mask i

/-- What an add that is not refused has done. -/
structure Added (tcam tcam' : TcamUnit) (n m m' pos : ℕ) (mask stored : Block mtchFldLen)
    (flowEntry : FlowEntry) (actionSet : Block actnStLen) (flag : Block 2) : Prop where
  pos_le : pos ≤ n
  grouped : Grouped tcam' (n + 1) m'
  rows : rows tcam' = insertRule (rows tcam) pos (ruleOf stored flowEntry actionSet flag)
  first : tcam'.marker 0 = (decide (0 < n) && tcam.marker 0)
  masks : (m' = m ∧ tcam'.mask = tcam.mask ∧ (∃ g < m, tcam.mask g = mask) ∧ stored = mask) ∨
    (m' = m + 1 ∧ tcam'.mask = Function.update tcam.mask m (clearSpare mask) ∧
      (∀ g < m, tcam.mask g ≠ mask) ∧ stored = clearSpare mask)

section Adding
variable {tcam : TcamUnit} {n m : ℕ}

theorem marks_lt_of_unmarked {mark : ℕ → Bool} (hfirst : mark 0 = false) {n : ℕ} (hn : 0 < n) :
    marks mark n < n := by
  induction n, hn using Nat.le_induction with
  | base =>
    rw [marks_succ, marks_zero, hfirst]
    decide
  | succ n hn ih =>
    rw [marks_succ]
    have := Bool.toNat_le (mark n)
    omega

theorem leftOver_iff (h : Grouped tcam n m) :
    LeftOver tcam ↔ 0 < m ∧ (n = 0 ∨ tcam.marker 0 = true) := by
  simp [LeftOver, h.flowTail, h.maskTail]

/-- A safe add finds room for its mask, and no mask left over from an empty
table. -/
theorem room_of_safe (h : Grouped tcam n m) (hn : n < noFFlws) {mask : Block mtchFldLen}
    (hsafe : AddSafe tcam mask) (hnew : ∀ g < m, tcam.mask g ≠ mask) :
    m < noFFlws ∧ (n = 0 → m = 0) := by
  by_cases hleft : LeftOver tcam
  · obtain ⟨hpos, -, hroom⟩ := hsafe (h.flowTail_lt hn) hleft
    rw [h.flowTail] at hpos
    rcases hroom with ⟨g, hg, heq⟩ | hroom
    · rw [h.maskTail_toNat] at hg
      exact absurd heq (hnew g hg)
    · rw [h.maskTail] at hroom
      exact ⟨by omega, by omega⟩
  · rw [leftOver_iff h, not_and_or, not_or] at hleft
    rcases Nat.eq_zero_or_pos n with h0 | hpos
    · have hm : m = 0 := by
        rcases hleft with hm | ⟨hne, -⟩
        · omega
        · exact absurd h0 hne
      exact ⟨by rw [hm]; decide, fun _ => hm⟩
    · have hm := h.groups hpos
      have hfirst : tcam.marker 0 = false := by
        rcases hleft with hm' | ⟨-, hmark⟩
        · omega
        · exact Bool.eq_false_of_not_eq_true hmark
      have := marks_lt_of_unmarked hfirst hpos
      exact ⟨by omega, by omega⟩

/-- A safe add with a stored mask finds the first group only if it has an entry. -/
theorem group_of_safe (h : Grouped tcam n m) (hn : n < noFFlws) {mask : Block mtchFldLen}
    (hsafe : AddSafe tcam mask) (hstored : ∃ g < m, tcam.mask g = mask) :
    0 < n ∧ (tcam.mask 0 = mask → tcam.marker 0 = false) := by
  by_cases hleft : LeftOver tcam
  · obtain ⟨hne, hother, -⟩ := hsafe (h.flowTail_lt hn) hleft
    rw [h.flowTail] at hne
    exact ⟨by omega, fun heq => absurd heq hother⟩
  · rw [leftOver_iff h, not_and_or, not_or] at hleft
    obtain ⟨g, hg, -⟩ := hstored
    rcases hleft with hm | ⟨hne, hmark⟩
    · omega
    · exact ⟨by omega, fun _ => Bool.eq_false_of_not_eq_true hmark⟩

section Added
variable {tcam' : TcamUnit} {mask : Block mtchFldLen} {flowEntry : FlowEntry}
  {actionSet : Block actnStLen} {flag : Block 2}

theorem added_in_group (h : Grouped tcam n m) (hn : n < noFFlws) {g s e : ℕ}
    (hg : FirstStored tcam m mask g) (hs : GroupStart tcam n g s) (he : GroupEnd tcam n s e)
    (hrow : RowInserted tcam tcam' n e (putBit flowEntry 356 false) actionSet flag)
    (hmasks : tcam'.mask = tcam.mask) (hmtail : tcam'.maskTail = m) :
    Added tcam tcam' n m m e mask mask flowEntry actionSet flag := by
  have hclear : bit (putBit flowEntry 356 false) 356 = false := by
    rw [bit_putBit _ _ (by decide), if_pos rfl]
  obtain ⟨hgrouped, hmaskOf⟩ := inserted_in_group hrow h hn hs he hclear hmasks hmtail
  have hrows := inserted_rows hrow h.flowTail he.le hmaskOf
  have hlt := he.lt
  have hpos : 0 < n := (Nat.zero_le s).trans_lt hs.lt
  rw [ruleOf_putMarker, hg.equal] at hrows
  refine ⟨he.le, hgrouped, hrows, ?_, .inl ⟨rfl, hmasks, ⟨g, hg.lt, hg.equal⟩, rfl⟩⟩
  rw [inserted_marker hrow (Nat.zero_le n), openAt, if_pos (by omega), decide_eq_true hpos,
    Bool.true_and]

theorem added_with_mask (h : Grouped tcam n m) (hn : n < noFFlws) (hm : m < noFFlws)
    (hempty : n = 0 → m = 0) (hnew : ∀ g < m, tcam.mask g ≠ mask)
    (hrow : RowInserted tcam tcam' n n (putBit flowEntry 356 (decide (0 < n))) actionSet flag)
    (hmasks : tcam'.mask = Function.update tcam.mask m (clearSpare mask))
    (hmtail : tcam'.maskTail = (m + 1 : ℕ)) :
    Added tcam tcam' n m (m + 1) n mask (clearSpare mask) flowEntry actionSet flag := by
  have hmark : bit (putBit flowEntry 356 (decide (0 < n))) 356 = decide (0 < n) := by
    rw [bit_putBit _ _ (by decide), if_pos rfl]
  obtain ⟨hgrouped, hmaskOf⟩ := inserted_with_mask hrow h hn hm hempty hmark hmasks hmtail
  have hrows := inserted_rows hrow h.flowTail le_rfl hmaskOf
  rw [ruleOf_putMarker] at hrows
  refine ⟨le_rfl, hgrouped, hrows, ?_, .inr ⟨rfl, hmasks, hnew, rfl⟩⟩
  rw [inserted_marker hrow (Nat.zero_le n), openAt, hmark]
  rcases Nat.eq_zero_or_pos n with rfl | hpos
  · rfl
  · rw [if_pos hpos, decide_eq_true hpos, Bool.true_and]

end Added

/-- A safe add is refused, or it inserts one rule; then the array of the caller has the mask
as it is stored. -/
theorem addNewEntry_cases (h : Grouped tcam n m) {mask : Block mtchFldLen}
    (hsafe : AddSafe tcam mask) (flowEntry : FlowEntry) (actionSet : Block actnStLen)
    (flag : Block 2) :
    (∃ pos < 0, addNewEntry tcam mask flowEntry actionSet flag =
        some (pos, tcam, mask, flowEntry)) ∨
      ∃ pos m' tcam' flowEntry' stored,
        addNewEntry tcam mask flowEntry actionSet flag =
          some (((pos : ℕ) : ℤ), tcam', stored, flowEntry') ∧
        Added tcam tcam' n m m' pos mask stored flowEntry actionSet flag := by
  rcases Nat.lt_or_ge n noFFlws with hn | hfull
  · by_cases hstored : ∃ g < m, tcam.mask g = mask
    · obtain ⟨hpos, hfirst⟩ := group_of_safe h hn hsafe hstored
      obtain ⟨g, hg⟩ := firstStored_of_mem hstored
      rcases addNewEntry_stored hn mask flowEntry actionSet flag h hpos hg
        (fun h0 => hfirst (h0 ▸ hg.equal)) with
        ⟨-, hdup⟩ | ⟨s, e, tcam', -, hs, he, hadd, hrow, hmasks, hmtail⟩
      · exact .inl ⟨rdndnt, by decide, hdup⟩
      · exact .inr ⟨e, m, tcam', _, mask, hadd,
          added_in_group h hn hg hs he hrow hmasks hmtail⟩
    · have hnew : ∀ g < m, tcam.mask g ≠ mask := fun g hg heq => hstored ⟨g, hg, heq⟩
      obtain ⟨hm, hempty⟩ := room_of_safe h hn hsafe hnew
      obtain ⟨tcam', hadd, hrow, hmasks, hmtail⟩ :=
        addNewEntry_new hn mask flowEntry actionSet flag h.tails hm hnew
      exact .inr ⟨n, m + 1, tcam', _, clearSpare mask, hadd,
        added_with_mask h hn hm hempty hnew hrow hmasks hmtail⟩
  · exact .inl ⟨tblFull, by decide,
      addNewEntry_full (h.tails.full hfull) mask flowEntry actionSet flag⟩

end Adding

section Deleting
variable {tcam : TcamUnit} {n m : ℕ} {flow : Block mtchFldLen}

theorem chosen_of_tcamMatches (h : Grouped tcam n m) (hmatch : tcamMatches tcam flow = true) :
    ∃ p, chosen tcam flow = some p ∧ p < n := by
  obtain ⟨b, hsearch, -⟩ := searchTcam_spec h.searchable flow 0
  cases hp : chosen tcam flow with
  | none =>
    rw [tcamMatches, hsearch, hp] at hmatch
    cases hmatch
  | some p => exact ⟨p, rfl, chosen_lt h.tails hp⟩

/-- A delete of a matching entry that is not the last one of a full table. -/
theorem deleteFlowEntry_safe (h : Grouped tcam n m) {p : ℕ} (hp : chosen tcam flow = some p)
    (hsafe : DeleteSafe tcam flow) :
    ∃ tcam', deleteFlowEntry tcam flow = some ((p : ℤ), tcam') ∧
      RowRemoved tcam tcam' n m p flow := by
  refine deleteFlowEntry_spec h.searchable hp fun hmark => ?_
  have hlt := (chosen_lt h.tails hp).trans_le h.flow_le
  rcases Nat.lt_or_ge (p + 1) noFFlws with hroom | hlast
  · exact hroom
  · have hend : p = noFFlws - 1 := by omega
    exact absurd ⟨hend ▸ hp, hend ▸ hmark⟩ hsafe

/-- Every other delete reads beyond the tables. -/
theorem deleteFlowEntry_undefined (h : Searchable tcam n m) (hsafe : ¬ DeleteSafe tcam flow) :
    deleteFlowEntry tcam flow = none := by
  rw [DeleteSafe, not_not] at hsafe
  exact deleteFlowEntry_overrun h hsafe.1 hsafe.2 rfl

theorem deleteSafe_of_chosen {p : ℕ} (hp : chosen tcam flow = some p) :
    DeleteSafe tcam flow ↔ ¬ (p + 1 = noFFlws ∧ tcam.marker p = true) := by
  refine not_congr ⟨?_, ?_⟩
  · rintro ⟨hlast, hmark⟩
    cases hp.symm.trans hlast
    exact ⟨rfl, hmark⟩
  · rintro ⟨hlast, hmark⟩
    obtain rfl : p = noFFlws - 1 := by omega
    exact ⟨hp, hmark⟩

theorem removed_normalised {tcam' : TcamUnit} {p : ℕ} (h : RowRemoved tcam tcam' n m p flow)
    (hnorm : Normalised tcam m) : Normalised tcam' (masksLeft tcam n m p) := by
  intro i hi
  rw [masksLeft] at hi
  rw [h.mask]
  split_ifs at hi ⊢ with hlone
  · rw [movedUp]
    split_ifs
    · exact clearSpare_clearSpare _
    · exact hnorm i (by omega)
  · exact hnorm i hi

end Deleting

/-- The stored rules are the rules of the run. -/
structure Refines (s : TcamRun) (n m : ℕ) : Prop where
  grouped : Grouped s.tcam n m
  normalised : Normalised s.tcam m
  rows : rows s.tcam = s.rules.map Rule.stored

theorem refines_start (tcam : TcamUnit) : Refines (startTcam tcam) 0 0 where
  grouped := ⟨rfl, rfl, Nat.zero_le _, Nat.zero_le _, fun h => absurd h (Nat.lt_irrefl 0),
    fun _ => Nat.zero_le _⟩
  normalised := fun i hi => absurd hi (Nat.not_lt_zero i)
  rows := rfl

theorem map_insertRule (rules : List Rule) (pos : ℕ) (r : Rule) (f : Rule → Rule) :
    (insertRule rules pos r).map f = insertRule (rules.map f) pos (f r) := by
  simp only [insertRule, List.map_append, List.map_cons, List.map_take, List.map_drop]

/-- One safe call keeps the stored rules equal to the list of rules. -/
theorem tcamCall_refines {s : TcamRun} {n m : ℕ} (h : Refines s n m) {c : TcamCall}
    (hmatch : DeletesMatch s c) (hsafe : CallSafe s c) :
    ∃ s' n' m', tcamCall s c = some s' ∧ Refines s' n' m' := by
  cases c with
  | add mask flowEntry actionSet flag =>
    rcases addNewEntry_cases h.grouped hsafe flowEntry actionSet flag with
      ⟨pos, hneg, hrefused⟩ |
      ⟨pos, m', tcam', flowEntry', stored, hadd, hadded⟩
    · refine ⟨s, n, m, ?_, h⟩
      refine (bind_some_eq hrefused).trans ?_
      simp only [if_neg (show ¬ 0 ≤ pos by omega)]
    · refine ⟨⟨tcam', insertRule s.rules pos (ruleOf mask flowEntry actionSet flag)⟩, n + 1, m',
        (bind_some_eq hadd).trans ?_, hadded.grouped, ?_, ?_⟩
      · simp only [if_pos (Int.natCast_nonneg pos), Int.toNat_natCast]
      · intro i hi
        rcases hadded.masks with ⟨rfl, hmask, -, -⟩ | ⟨rfl, hmask, -, -⟩
        · rw [hmask]
          exact h.normalised i hi
        · rw [hmask]
          by_cases him : i = m
          · rw [him, Function.update_self, clearSpare_clearSpare]
          · rw [Function.update_of_ne him]
            exact h.normalised i (by omega)
      · have hstored : stored = clearSpare mask := by
          rcases hadded.masks with ⟨-, -, ⟨g, hg, heq⟩, hstored⟩ | ⟨-, -, -, hstored⟩
          · rw [hstored, ← heq, h.normalised g hg]
          · exact hstored
        rw [hadded.rows, h.rows, map_insertRule, hstored]
        rfl
  | delete flow =>
    obtain ⟨p, hp, hlt⟩ := chosen_of_tcamMatches h.grouped hmatch
    obtain ⟨tcam', hdelete, hrow⟩ := deleteFlowEntry_safe h.grouped hp hsafe
    refine ⟨⟨tcam', s.rules.eraseIdx p⟩, n - 1, _, bind_some_of hdelete rfl,
      removed_grouped hrow h.grouped hlt, removed_normalised hrow h.normalised, ?_⟩
    rw [removed_rows hrow h.grouped.flowTail hlt
      (removed_maskOf hrow h.grouped hlt fun _ q _ hq => h.normalised _ (group_lt h.grouped hq)),
      h.rows, List.eraseIdx_map]

section Rules

/-- What callers promise: masks select match-field bits only, and deletes are
given flows that match. -/
def TcamUsed (s : TcamRun) : TcamCall → Prop
  | .add mask _ _ _ => SelectsFields mask
  | .delete flow => tcamMatches s.tcam flow = true

instance : ∀ s c, Decidable (TcamUsed s c)
  | _, .add mask _ _ _ => inferInstanceAs (Decidable (SelectsFields mask))
  | s, .delete flow => inferInstanceAs (Decidable (tcamMatches s.tcam flow = true))

/-- A lookup finds an entry when some rule of the list matches, and the action
set of a matching rule of highest priority. -/
structure FindsBest (rules : List Rule) (flow : Block mtchFldLen) (found : Lookup) : Prop where
  hits : 0 ≤ found.pos ↔ ∃ r ∈ rules, r.Matches flow
  best : 0 ≤ found.pos → ∃ r ∈ rules, r.Matches flow ∧
    (∀ r' ∈ rules, r'.Matches flow → r'.priority ≤ r.priority) ∧ found.actionSet = r.actionSet

/-- In this state every lookup does so, whatever the cache holds. -/
def SearchesRules (s : TcamRun) : Prop :=
  ∀ cache : Cache, 1 ≤ cache.cacheTop → cache.cacheTop ≤ cacheSize →
    ∀ flow actionSet maskPos, ∃ found,
      searchFlow s.tcam cache flow actionSet maskPos = some found ∧
      FindsBest s.rules flow found

structure RefinesRules (s : TcamRun) (n m : ℕ) : Prop extends Refines s n m where
  fields : ∀ r ∈ s.rules, SelectsFields r.mask

theorem stored_of_fields {r : Rule} (h : SelectsFields r.mask) : r.stored = r := by
  rw [Rule.stored, clearSpare_eq_self fun q hspare hq => h q hq (by omega)]

theorem refinesRules_rows {s : TcamRun} {n m : ℕ} (h : RefinesRules s n m) :
    rows s.tcam = s.rules := by
  rw [h.rows]
  conv_rhs => rw [← List.map_id s.rules]
  exact List.map_congr_left fun r hr => stored_of_fields (h.fields r hr)

theorem mem_insertRule {rules : List Rule} {pos : ℕ} {r r' : Rule}
    (h : r' ∈ insertRule rules pos r) : r' ∈ rules ∨ r' = r := by
  rcases List.mem_append.mp h with h | h
  · exact .inl (List.mem_of_mem_take h)
  · rcases List.mem_cons.mp h with rfl | h
    · exact .inr rfl
    · exact .inl (List.mem_of_mem_drop h)

/-- The call records only rules with the masks it was given. -/
theorem tcamCall_fields {s s' : TcamRun} {c : TcamCall} (h : tcamCall s c = some s')
    (hfields : ∀ r ∈ s.rules, SelectsFields r.mask) (hused : TcamUsed s c) :
    ∀ r ∈ s'.rules, SelectsFields r.mask := by
  intro r hr
  cases c with
  | add mask flowEntry actionSet flag =>
    obtain ⟨⟨pos, tcam, mask', flowEntry'⟩, -, hs'⟩ := Option.bind_eq_some_iff.mp h
    cases hs'
    simp only at hr
    split_ifs at hr
    · rcases mem_insertRule hr with hr | rfl
      · exact hfields r hr
      · exact hused
    · exact hfields r hr
  | delete flow =>
    obtain ⟨⟨pos, tcam⟩, -, hs'⟩ := Option.bind_eq_some_iff.mp h
    cases hs'
    exact hfields r (List.mem_of_mem_eraseIdx hr)

theorem matches_iff {s : TcamRun} {n m : ℕ} (h : RefinesRules s n m) {p : ℕ} (hp : p < n)
    (flow : Block mtchFldLen) :
    ∃ r, s.rules[p]? = some r ∧ row s.tcam p = r ∧
      (entryMatches s.tcam flow p = true ↔ r.Matches flow) := by
  have hn := h.grouped.flowTail_toNat
  have hrow : s.rules[p]? = some (row s.tcam p) := by
    rw [← refinesRules_rows h, rows, getElem?_firstRows _ (by omega)]
  have hmask : SelectsFields (s.tcam.maskOf p) :=
    h.fields (row s.tcam p) (List.mem_of_getElem? hrow)
  exact ⟨_, hrow, rfl, entryMatches_iff hmask flow⟩

theorem searchesRules_of_refines {s : TcamRun} {n m : ℕ} (h : RefinesRules s n m) :
    SearchesRules s := by
  intro cache htop htop' flow actionSet maskPos
  have hn := h.grouped.flowTail_toNat
  have hlength : s.rules.length = n := by
    rw [← refinesRules_rows h, rows, length_firstRows, hn]
  obtain ⟨b, hsearch, -⟩ := searchTcam_spec h.grouped.searchable flow maskPos
  have hresult : ∀ {r : Rule}, r ∈ s.rules → ∃ p < n, s.rules[p]? = some r := by
    intro r hr
    obtain ⟨p, hp, hpr⟩ := List.getElem_of_mem hr
    exact ⟨p, hlength ▸ hp, by rw [List.getElem?_eq_getElem hp, hpr]⟩
  cases hchosen : chosen s.tcam flow with
  | none =>
    rw [hchosen] at hsearch
    refine ⟨_, searchFlow_miss hsearch (by decide) actionSet, ⟨fun hpos => ?_, ?_⟩, fun hpos => ?_⟩
    · exact absurd hpos (show ¬ (0 : ℤ) ≤ -1 by decide)
    · rintro ⟨r, hr, hmatch⟩
      obtain ⟨p, hp, hpr⟩ := hresult hr
      obtain ⟨r', hr', -, hiff⟩ := matches_iff h hp flow
      cases hpr.symm.trans hr'
      have hmiss := bestOf_eq_none_iff.mp hchosen p (by omega)
      rw [hiff.mpr hmatch] at hmiss
      cases hmiss
    · exact absurd hpos (show ¬ (0 : ℤ) ≤ -1 by decide)
  | some p =>
    have hbest := bestOf_eq_some hchosen
    have hp : p < n := by have := hbest.lt; omega
    rw [hchosen] at hsearch
    obtain ⟨cache', hfound, -⟩ := searchFlow_hit hsearch (hp.trans_le h.grouped.flow_le)
      htop htop' actionSet
    obtain ⟨r, hr, hrow, hiff⟩ := matches_iff h hp flow
    have hmem := List.mem_of_getElem? hr
    have hmatch := hiff.mp hbest.isHit
    refine ⟨_, hfound, ⟨fun _ => ⟨r, hmem, hmatch⟩, fun _ => Int.natCast_nonneg p⟩, fun _ => ?_⟩
    refine ⟨r, hmem, hmatch, fun r' hr' hmatch' => ?_, by rw [← hrow]; rfl⟩
    obtain ⟨q, hq, hqr⟩ := hresult hr'
    obtain ⟨r'', hr'', hrow', hiff'⟩ := matches_iff h hq flow
    cases hqr.symm.trans hr''
    have hle := hbest.highest q (by omega) (hiff'.mpr hmatch')
    rw [← hrow, ← hrow', UInt8.le_iff_toNat_le]
    exact hle

/-- Every search of a run is a search of the list of rules that the run has
added and not deleted. -/
theorem searches_rules (tcam : TcamUnit) (calls : List TcamCall)
    (hused : Along tcamCall TcamUsed (startTcam tcam) calls)
    (hsafe : Along tcamCall CallSafe (startTcam tcam) calls) :
    Throughout tcamCall SearchesRules (startTcam tcam) calls := by
  have hstart : ∃ n m, RefinesRules (startTcam tcam) n m :=
    ⟨0, 0, refines_start tcam, fun r hr => absurd hr List.not_mem_nil⟩
  refine (throughout_of_along (fun s => ∃ n m, RefinesRules s n m) ?_ hstart
    (along_and hused hsafe)).mono fun s hs => ?_
  · rintro s c ⟨n, m, h⟩ ⟨hused, hsafe⟩
    have hmatch : DeletesMatch s c := by
      cases c with
      | add mask flowEntry actionSet flag => trivial
      | delete flow => exact hused
    obtain ⟨s', n', m', hs', h'⟩ := tcamCall_refines h.toRefines hmatch hsafe
    exact ⟨s', hs', n', m', h', tcamCall_fields hs' h.fields hused⟩
  · obtain ⟨n, m, h⟩ := hs
    exact searchesRules_of_refines h

/-- An array with one byte that is not zero. -/
def firstByte {n : ℕ} (v : UInt8) : Block n := Block.ofFn fun i => if i = 0 then v else 0

/-- An entry for the flow `firstByte v`. -/
def entryFor (v priority : UInt8) : FlowEntry :=
  Block.ofFn fun i => if i = 0 then v else if i = 45 then priority else 0

/-- Two rules with one mask, of which the first is deleted. -/
theorem one_of_two_left :
    Throughout tcamCall SearchesRules (startTcam zeroedTcamUnit)
      [.add (firstByte 255) (entryFor 1 7) (firstByte 1) (firstByte 0),
       .add (firstByte 255) (entryFor 2 7) (firstByte 2) (firstByte 0),
       .delete (firstByte 1)] :=
  searches_rules zeroedTcamUnit _ (by decide +kernel) (by decide +kernel)

/-- A rule is added, deleted, and followed by another one with the same mask.
Its mask is still stored, so the new entry is put behind the old one, and the
search looks at the old one. -/
theorem new_rule_not_found :
    let calls : List TcamCall :=
      [.add (firstByte 255) (entryFor 1 7) (firstByte 1) (firstByte 0),
       .delete (firstByte 1),
       .add (firstByte 255) (entryFor 2 7) (firstByte 2) (firstByte 0)]
    Along tcamCall TcamUsed (startTcam zeroedTcamUnit) calls ∧
      ¬ Throughout tcamCall SearchesRules (startTcam zeroedTcamUnit) calls := by
  intro calls
  refine ⟨by decide +kernel, fun h => ?_⟩
  have hmiss : (run tcamCall (startTcam zeroedTcamUnit) calls).bind (fun s =>
      (searchFlow s.tcam (init zeroedCache) (firstByte 2) (firstByte 0) 0).map fun found =>
        decide (0 ≤ found.pos ↔ ∃ r ∈ s.rules, r.Matches (firstByte 2))) = some false := by
    decide +kernel
  obtain ⟨s, hrun, hs⟩ := h.last
  obtain ⟨found, hfound, hbest⟩ := hs (init zeroedCache) (by decide) (by decide) (firstByte 2)
    (firstByte 0) 0
  rw [hrun, Option.bind_some, hfound, Option.map_some, decide_eq_true hbest.hits] at hmiss
  cases hmiss

end Rules

end NetWalk.FlowRuns
