import NetWalk.ManagedRuns
import NetWalk.InsertionOrder
import NetWalk.CacheRuns

/-!
# Only live rows count

The tables are arrays of fixed size in memory that nobody clears, and rows are moved and
left behind in them. Two tables are alike if their live rows are, up to hit counters and
timeouts; what else the arrays hold may differ. Commands keep alike tables alike and return
the same values for both, so neither memory that was never written nor a counter ever
decides an answer.
-/
namespace NetWalk.LiveRows
open ByteBlock BitOperations SlotTable RowSequence PriorityScan PartialRun FlowTables FlowSearch
open FlowAdd FlowDelete FlowRows FlowCache FlowRuns GroupRuns AddOutcomes ModifyEntry
open ModifyBranches ModifyOutcomes ManagedRuns InsertionOrder CacheRuns

/-- The live rows of two tables are the same up to counters and timeouts. -/
structure Alike (t t' : TcamUnit) (n m : ℕ) : Prop where
  flow : ∀ k < n, ∀ q < 368, bit (t'.flow k) q = bit (t.flow k) q
  action : ∀ k < n, t'.action k = t.action k
  flag : ∀ k < n, t'.flag k = t.flag k
  mask : ∀ g < m, t'.mask g = t.mask g

section Reading
variable {t t' : TcamUnit} {n m k : ℕ}

theorem Alike.marker (ha : Alike t t' n m) (hk : k < n) : t'.marker k = t.marker k :=
  ha.flow k hk 356 (by decide)

theorem Alike.group (ha : Alike t t' n m) (hk : k < n) : t'.group k = t.group k :=
  groupOf_congr fun j hj => ha.marker (by omega)

theorem Alike.maskOf (ha : Alike t t' n m) (h : Grouped t n m) (hk : k < n) :
    t'.maskOf k = t.maskOf k := by
  change t'.mask (t'.group k) = t.mask (t.group k)
  rw [ha.group hk, ha.mask _ (group_lt h hk)]

theorem Alike.byte (ha : Alike t t' n m) (hk : k < n) {i : ℕ} (hi : i < 46) :
    (t'.flow k).byte i = (t.flow k).byte i := by
  apply byteBit_ext
  intro p hp
  rw [byteBit_byte _ _ hp, byteBit_byte _ _ hp, ha.flow k hk _ (by omega)]

theorem Alike.matches (ha : Alike t t' n m) (h : Grouped t n m) (flow : Block mtchFldLen)
    (hk : k < n) : entryMatches t' flow k = entryMatches t flow k := by
  rw [entryMatches, entryMatches, ha.maskOf h hk, decide_eq_decide]
  refine forall_congr' fun q => forall_congr' fun hq => ?_
  rw [ha.flow k hk q (show q < 368 from Nat.lt_trans hq (by decide))]

theorem Alike.chosen (ha : Alike t t' n m) (h : Grouped t n m) (h' : Grouped t' n m)
    (flow : Block mtchFldLen) : chosen t' flow = chosen t flow := by
  rw [FlowSearch.chosen, FlowSearch.chosen, h.flowTail_toNat, h'.flowTail_toNat]
  refine (bestOf_congr fun k hk => ha.matches h flow hk).trans (bestOf_congr_prio fun k hk => ?_)
  rw [TcamUnit.priority, TcamUnit.priority, ha.byte hk (by decide)]

theorem Alike.symm (ha : Alike t t' n m) : Alike t' t n m :=
  ⟨fun k hk q hq => (ha.flow k hk q hq).symm, fun k hk => (ha.action k hk).symm,
    fun k hk => (ha.flag k hk).symm, fun g hg => (ha.mask g hg).symm⟩

theorem Alike.firstStored (ha : Alike t t' n m) {mask : Block mtchFldLen} {g : ℕ}
    (hg : FirstStored t m mask g) : FirstStored t' m mask g := by
  have hlt := hg.lt
  refine ⟨hlt, (ha.mask g hlt).trans hg.equal, fun j hj => ?_⟩
  rw [ha.mask j (by omega)]
  exact hg.before j hj

theorem Alike.place (ha : Alike t t' n m) {g e : ℕ} (h : Place t' n g e) : Place t n g e :=
  ⟨h.le, fun q hq => by rw [← ha.group hq]; exact h.before q hq⟩

theorem Alike.groupTakes (ha : Alike t t' n m) {mask : Block mtchFldLen} {flowEntry : FlowEntry}
    {g : ℕ} (h : GroupTakes t n mask flowEntry g) : GroupTakes t' n mask flowEntry g := by
  obtain ⟨p, hp, hgroup, htaken⟩ := h
  refine ⟨p, hp, (ha.group hp).trans hgroup, fun l hl j hj hbit => ?_⟩
  have hl45 : l < 45 := hl
  rw [ha.flow p hp _ (by omega)]
  exact htaken l hl j hj hbit

/-- Rows that a search has counted hits in are the same as before. -/
theorem counted_bit {flow : Block mtchFldLen} {f : ℕ} (k : ℕ) {q : ℕ} (hq : q < 368) :
    bit (countedRows t flow f k) q = bit (t.flow k) q :=
  bit_countedRows k (by omega)

end Reading

section Steps
variable {t t' u u' : TcamUnit} {n m m' p e len : ℕ} {flowEntry : FlowEntry}
  {actionSet : Block actnStLen} {flag : Block 2} {newValues : Block len} {flow : Block mtchFldLen}

/-- The same row inserted at the same position. -/
theorem inserted_alike (ha : Alike t t' n m) (he : e ≤ n)
    (hrow : RowInserted t u n e flowEntry actionSet flag)
    (hrow' : RowInserted t' u' n e flowEntry actionSet flag)
    (hmask : ∀ g < m', u'.mask g = u.mask g) : Alike u u' (n + 1) m' := by
  refine ⟨fun k hk q hq => ?_, fun k hk => ?_, fun k hk => ?_, hmask⟩
  · rw [hrow.flow, hrow'.flow]
    simp only [Function.update_apply, movedDown]
    split_ifs with hself hbehind
    · rfl
    · rw [bit_freshEntry _ hq, bit_freshEntry _ hq, ha.flow (k - 1) (by omega) q hq]
    · exact ha.flow k (by omega) q hq
  · rw [hrow.action, hrow'.action]
    simp only [Function.update_apply, movedDown, id]
    split_ifs with hself hbehind
    · rfl
    · exact ha.action (k - 1) (by omega)
    · exact ha.action k (by omega)
  · rw [hrow.flag, hrow'.flag]
    simp only [Function.update_apply, movedDown, id]
    split_ifs with hself hbehind
    · rfl
    · exact ha.flag (k - 1) (by omega)
    · exact ha.flag k (by omega)

/-- The marker behind the last row does not matter. -/
theorem handedOn_alike (ha : Alike t t' n m) (hp : p < n) {k : ℕ} (hk : k < n) {q : ℕ}
    (hq : q < 368) :
    bit (handedOn t' p (countedRows t' flow n) k) q =
      bit (handedOn t p (countedRows t flow n) k) q := by
  have hrow : bit (countedRows t' flow n k) q = bit (countedRows t flow n k) q := by
    rw [counted_bit k hq, counted_bit k hq, ha.flow k hk q hq]
  have hlt : q < 8 * flwEntLen := hq.trans (by decide)
  rw [handedOn, handedOn, ha.marker hp]
  by_cases hnext : p + 1 < n
  · rw [ha.marker hnext]
    split_ifs
    · by_cases hkp : k = p + 1
      · subst hkp
        rw [Function.update_self, Function.update_self, bit_putBit _ _ hlt, bit_putBit _ _ hlt,
          hrow]
      · rw [Function.update_of_ne hkp, Function.update_of_ne hkp, hrow]
    · exact hrow
  · split_ifs
    · rw [Function.update_of_ne (by omega), Function.update_of_ne (by omega), hrow]
    · rw [Function.update_of_ne (by omega), hrow]
    · rw [Function.update_of_ne (by omega), hrow]
    · exact hrow

theorem Alike.lone (ha : Alike t t' n m) (hp : p < n) : lone t' n p = lone t n p := by
  rw [FlowDelete.lone, FlowDelete.lone, ha.marker hp]
  by_cases hlast : p + 1 = n
  · rw [decide_eq_true hlast, Bool.true_or, Bool.true_or]
  · rw [ha.marker (show p + 1 < n by omega)]

/-- The same row removed. -/
theorem removed_alike (ha : Alike t t' n m) (hp : p < n) (hg : t.group p < m)
    (hrow : RowRemoved t u n m p flow) (hrow' : RowRemoved t' u' n m p flow) :
    Alike u u' (n - 1) (masksLeft t n m p) := by
  refine ⟨fun k hk q hq => ?_, fun k hk => ?_, fun k hk => ?_, fun g hgm => ?_⟩
  · rw [hrow.flow, hrow'.flow]
    simp only [movedUp]
    split_ifs
    · rw [bit_freshEntry _ hq, bit_freshEntry _ hq]
      exact handedOn_alike ha hp (by omega) hq
    · exact handedOn_alike ha hp (by omega) hq
  · rw [hrow.action, hrow'.action]
    simp only [movedUp, id]
    split_ifs
    · exact ha.action (k + 1) (by omega)
    · exact ha.action k (by omega)
  · rw [hrow.flag, hrow'.flag]
    simp only [movedUp, id]
    split_ifs
    · exact ha.flag (k + 1) (by omega)
    · exact ha.flag k (by omega)
  · rw [hrow.mask, hrow'.mask, ha.lone hp]
    rw [masksLeft] at hgm
    split_ifs at hgm ⊢ with hlone
    · rw [ha.group hp]
      simp only [movedUp]
      split_ifs
      · rw [ha.mask (g + 1) (by omega)]
      · exact ha.mask g (by omega)
    · exact ha.mask g hgm

/-- The same modify of an entry: the match fields stay, and the priority is decided by the old
one and the new values. -/
theorem modified_entry_alike {b b' : Block (flwEntLen * noFFlws)}
    (hcounted : ∀ q < 368, bit (TcamUnit.flow { t' with flowTable := b' } p) q =
      bit (TcamUnit.flow { t with flowTable := b } p) q)
    (hrow : RowModified { t with flowTable := b } u p flag newValues)
    (hrow' : RowModified { t' with flowTable := b' } u' p flag newValues) {q : ℕ} (hq : q < 368) :
    bit (u'.flow p) q = bit (u.flow p) q := by
  rcases Nat.lt_or_ge q 360 with hfields | hprio
  · rw [modified_bits hrow hfields, modified_bits hrow' hfields, hcounted q hq]
  · -- the priority is in byte 45
    have hbyte : (u'.flow p).byte 45 = (u.flow p).byte 45 := by
      rw [decoded_priority hrow.flow, decoded_priority hrow'.flow, byte_hitBack _ (by decide),
        byte_hitBack _ (by decide)]
      congr 1
      apply byteBit_ext
      intro i hi
      rw [byteBit_byte _ _ hi, byteBit_byte _ _ hi, hcounted _ (by omega)]
    exact bit_eq_of_byte_eq (by rw [show q / 8 = 45 by omega, hbyte])

/-- The same modify of a row. -/
theorem modified_alike (ha : Alike t t' n m) (hp : p < n) {b b' : Block (flwEntLen * noFFlws)}
    (hb : slot b = countedRows t flow n) (hb' : slot b' = countedRows t' flow n)
    (hrow : RowModified { t with flowTable := b } u p flag newValues)
    (hrow' : RowModified { t' with flowTable := b' } u' p flag newValues) :
    Alike u u' n m := by
  have hflow : TcamUnit.flow { t with flowTable := b } = countedRows t flow n := hb
  have hflow' : TcamUnit.flow { t' with flowTable := b' } = countedRows t' flow n := hb'
  have hcounted : ∀ k < n, ∀ q < 368,
      bit (TcamUnit.flow { t' with flowTable := b' } k) q =
        bit (TcamUnit.flow { t with flowTable := b } k) q := by
    intro k hk q hq
    rw [hflow, hflow', counted_bit k hq, counted_bit k hq, ha.flow k hk q hq]
  refine ⟨fun k hk q hq => ?_, fun k hk => ?_, fun k hk => ?_, fun g hg => ?_⟩
  · by_cases hkp : k = p
    · subst hkp
      exact modified_entry_alike (hcounted k hk) hrow hrow' hq
    · rw [hrow.otherFlows k hkp, hrow'.otherFlows k hkp, hcounted k hk q hq]
  · by_cases hkp : k = p
    · subst hkp
      rw [decoded_set hrow.action, decoded_set hrow'.action]
      exact congrArg _ (ha.action k hk)
    · rw [hrow.otherActions k hkp, hrow'.otherActions k hkp]
      exact ha.action k hk
  · by_cases hkp : k = p
    · subst hkp
      apply Block.ext_byte
      intro i hi
      rw [hrow.flag i hi, hrow'.flag i hi]
      exact congrArg (fun f : Block 2 => f.byte i ||| flag.byte i) (ha.flag k hk)
    · rw [hrow.otherFlags k hkp, hrow'.otherFlags k hkp]
      exact ha.flag k hk
  · rw [modified_mask hrow, modified_mask hrow']
    exact ha.mask g hg

end Steps

/-- What a command returns and writes to the arrays of its caller. -/
structure Answer where
  pos : ℤ
  actionSet : Option (Block actnStLen)
  arrays : Option (Block mtchFldLen × FlowEntry)

def answer (s : UnitRun) : ManagedCall → Option (Answer × UnitRun)
  | .table (.add mask flowEntry actionSet flag) => do
      let (pos, tcam, mask, flowEntry) ← addNewEntry s.tcam mask flowEntry actionSet flag
      some (⟨pos, none, some (mask, flowEntry)⟩, { s with tcam := tcam })
  | .table (.delete flow) => do
      let (pos, tcam) ← deleteFlowEntry s.tcam flow
      some (⟨pos, none, none⟩, { s with tcam := tcam })
  | .modify matchFields flag newValues val => do
      let (pos, tcam) ← modifyEntry s.tcam matchFields flag newValues val
      some (⟨pos, none, none⟩, { s with tcam := tcam })
  | .search flow actionSet maskPos => do
      let found ← searchFlow s.tcam s.cache flow actionSet maskPos
      some (⟨found.pos, if found.pos < 0 then none else some found.actionSet, none⟩,
        ⟨found.tcam, found.cache⟩)

/-- The answers to a list of commands. -/
def answers : UnitRun → List ManagedCall → Option (List Answer)
  | _, [] => some []
  | s, c :: cs => do
      let (a, s) ← answer s c
      let rest ← answers s cs
      some (a :: rest)

def unitAfter (s : UnitRun) (c : ManagedCall) : Option UnitRun := (answer s c).map Prod.snd

/-- Deletes and modifies are given flows that match, a delete leaves no group without an
entry and does not come to the row behind a full table, and the new values are long enough. -/
def KeepsRows (s : UnitRun) : ManagedCall → Prop
  | .table (.add _ _ _ _) => True
  | .table (.delete flow) => tcamMatches s.tcam flow = true ∧ DeleteKeepsGroups s.tcam flow
  | .modify (n := n) matchFields flag _ _ =>
      tcamMatches s.tcam matchFields = true ∧ sliceStart flag 16 ≤ 8 * n
  | .search _ _ _ => True

instance : ∀ s c, Decidable (KeepsRows s c)
  | _, .table (.add _ _ _ _) => inferInstanceAs (Decidable True)
  | s, .table (.delete flow) => inferInstanceAs (Decidable
      (tcamMatches s.tcam flow = true ∧ DeleteKeepsGroups s.tcam flow))
  | s, .modify (n := n) matchFields flag _ _ => inferInstanceAs (Decidable
      (tcamMatches s.tcam matchFields = true ∧ sliceStart flag 16 ≤ 8 * n))
  | _, .search _ _ _ => inferInstanceAs (Decidable True)

/-- Two units with alike tables. Their caches may be different. -/
structure Twins (s s' : UnitRun) (n m : ℕ) : Prop where
  wellFormed : WellFormed s.tcam n m
  wellFormed' : WellFormed s'.tcam n m
  alike : Alike s.tcam s'.tcam n m
  top : 1 ≤ s.cache.cacheTop ∧ s.cache.cacheTop ≤ cacheSize
  top' : 1 ≤ s'.cache.cacheTop ∧ s'.cache.cacheTop ≤ cacheSize

section Counted
variable {t t' u u' : TcamUnit} {n m p len : ℕ} {flow : Block mtchFldLen} {flag : Block 2}
  {newValues : Block len} {b b' : Block (flwEntLen * noFFlws)}

theorem counted_wellFormed (h : WellFormed t n m) (hu : u = { t with flowTable := b })
    (hb : slot b = countedRows t flow n) : WellFormed u n m := by
  subst hu
  refine ⟨counted_grouped hb h.toGrouped, ?_, h.empty⟩
  have hmark : TcamUnit.marker { t with flowTable := b } = t.marker := marker_of_counted hb
  rw [hmark]
  exact h.first

theorem modified_wellFormed (h : WellFormed t n m) (hb : slot b = countedRows t flow n)
    (hrow : RowModified { t with flowTable := b } u p flag newValues) : WellFormed u n m := by
  have hcur : WellFormed { t with flowTable := b } n m := counted_wellFormed h rfl hb
  refine ⟨modified_grouped hrow hcur.toGrouped, ?_, h.empty⟩
  rw [modified_marker hrow]
  exact hcur.first

theorem counted_alike (ha : Alike t t' n m) (hu : u = { t with flowTable := b })
    (hu' : u' = { t' with flowTable := b' }) (hb : slot b = countedRows t flow n)
    (hb' : slot b' = countedRows t' flow n) : Alike u u' n m := by
  subst hu hu'
  refine ⟨fun k hk q hq => ?_, ha.action, ha.flag, ha.mask⟩
  change bit (slot b' k) q = bit (slot b k) q
  rw [hb, hb', counted_bit k hq, counted_bit k hq, ha.flow k hk q hq]

end Counted

section Calls
variable {t t' : TcamUnit} {n m : ℕ} {flow : Block mtchFldLen}

theorem add_alike (h : WellFormed t n m) (h' : WellFormed t' n m) (ha : Alike t t' n m)
    (mask : Block mtchFldLen) (flowEntry : FlowEntry) (actionSet : Block actnStLen)
    (flag : Block 2) :
    ∃ pos u u' mask₁ entry₁ n₁ m₁,
      addNewEntry t mask flowEntry actionSet flag = some (pos, u, mask₁, entry₁) ∧
      addNewEntry t' mask flowEntry actionSet flag = some (pos, u', mask₁, entry₁) ∧
      WellFormed u n₁ m₁ ∧ WellFormed u' n₁ m₁ ∧ Alike u u' n₁ m₁ := by
  obtain ⟨r, hr, houtcome⟩ := addNewEntry_outcome h mask flowEntry actionSet flag
  cases houtcome with
  | full hfull =>
    exact ⟨_, t, t', _, _, n, m, hr,
      addNewEntry_full (h'.tails.full hfull) mask flowEntry actionSet flag, h, h', ha⟩
  | redundant hn hg htakes =>
    have hpos : 0 < n := by
      have := hg.lt
      have := mask_le_flow h
      omega
    rcases addNewEntry_stored hn mask flowEntry actionSet flag h'.toGrouped hpos
      (ha.firstStored hg) (fun _ => h'.first hpos) with ⟨-, hr'⟩ | ⟨-, -, -, hno, -⟩
    · exact ⟨_, t, t', _, _, n, m, hr, hr', h, h', ha⟩
    · exact absurd (ha.groupTakes htakes) hno
  | @inGroup hn g s e u hg hno hs he hrow hmask hmaskTail =>
    have hpos : 0 < n := (Nat.zero_le s).trans_lt hs.lt
    rcases addNewEntry_stored hn mask flowEntry actionSet flag h'.toGrouped hpos
      (ha.firstStored hg) (fun _ => h'.first hpos) with
      ⟨htakes, -⟩ | ⟨s', e', u', -, hs', he', hr', hrow', hmask', hmaskTail'⟩
    · exact absurd (ha.symm.groupTakes htakes) hno
    · obtain rfl : e = e' :=
        (place_groupEnd hs he).unique (ha.place (place_groupEnd hs' he'))
      refine ⟨_, u, u', _, _, n + 1, m, hr, hr',
        added_wellFormed h (added_in_group h.toGrouped hn hg hs he hrow hmask hmaskTail),
        added_wellFormed h' (added_in_group h'.toGrouped hn (ha.firstStored hg) hs' he' hrow' hmask'
          hmaskTail'), inserted_alike ha he.le hrow hrow' fun g hg => ?_⟩
      rw [hmask, hmask']
      exact ha.mask g hg
  | @newGroup hn u hm hnew hrow hmask hmaskTail =>
    have hnew' : ∀ g < m, t'.mask g ≠ mask := by
      intro g hg
      rw [ha.mask g hg]
      exact hnew g hg
    obtain ⟨u', hr', hrow', hmask', hmaskTail'⟩ :=
      addNewEntry_new hn mask flowEntry actionSet flag h'.tails hm hnew'
    refine ⟨_, u, u', _, _, n + 1, m + 1, hr, hr',
      added_wellFormed h (added_with_mask h.toGrouped hn hm h.empty hnew hrow hmask hmaskTail),
      added_wellFormed h' (added_with_mask h'.toGrouped hn hm h'.empty hnew' hrow' hmask'
        hmaskTail'), inserted_alike ha le_rfl hrow hrow' fun g hg => ?_⟩
    rw [hmask, hmask']
    by_cases hgm : g = m
    · rw [hgm, Function.update_self, Function.update_self]
    · rw [Function.update_of_ne hgm, Function.update_of_ne hgm]
      exact ha.mask g (by omega)

theorem delete_keeps (h : WellFormed t n m) (hmatch : tcamMatches t flow = true)
    (hkeep : DeleteKeepsGroups t flow) :
    ∃ p u, p < n ∧ chosen t flow = some p ∧ deleteFlowEntry t flow = some ((p : ℤ), u) ∧
      RowRemoved t u n m p flow ∧ WellFormed u (n - 1) (masksLeft t n m p) := by
  obtain ⟨p, hp, hlt⟩ := chosen_of_tcamMatches h.toGrouped hmatch
  obtain ⟨u, hdelete, hrow⟩ := deleteFlowEntry_safe h.toGrouped hp hkeep.2
  obtain ⟨s', n', m', hs', hwell⟩ :=
    tcamCall_wellFormed (s := ⟨t, []⟩) h (c := .delete flow) hmatch hkeep
  cases hs'.symm.trans (bind_some_of hdelete rfl)
  have hn : n' = n - 1 := Int.ofNat_inj.mp (hwell.flowTail.symm.trans hrow.tail)
  have hm : m' = masksLeft t n m p := Int.ofNat_inj.mp (hwell.maskTail.symm.trans hrow.maskTail)
  exact ⟨p, u, hlt, hp, hdelete, hrow, hn ▸ hm ▸ hwell⟩

theorem matches_of_chosen {p : ℕ} (h : Grouped t n m) (hp : chosen t flow = some p) :
    tcamMatches t flow = true := by
  obtain ⟨b, hsearch, -⟩ := searchTcam_of_chosen h.searchable hp 0
  rw [tcamMatches, hsearch, Option.any_some, decide_eq_true_eq]
  exact Int.natCast_nonneg p

theorem Alike.tcamMatches (ha : Alike t t' n m) (h : Grouped t n m) (h' : Grouped t' n m)
    (hmatch : tcamMatches t flow = true) : FlowRuns.tcamMatches t' flow = true := by
  obtain ⟨p, hp, -⟩ := chosen_of_tcamMatches h hmatch
  exact matches_of_chosen h' ((ha.chosen h h' flow).trans hp)

/-- Whether a delete keeps the groups is decided by live rows too. -/
theorem Alike.deleteKeepsGroups (ha : Alike t t' n m) (h : Grouped t n m) (h' : Grouped t' n m)
    (hmatch : FlowRuns.tcamMatches t flow = true) (hkeep : DeleteKeepsGroups t flow) :
    DeleteKeepsGroups t' flow := by
  obtain ⟨p, hp, hlt⟩ := chosen_of_tcamMatches h hmatch
  have hp' := (ha.chosen h h' flow).trans hp
  obtain ⟨hlone, hsafe⟩ := hkeep
  refine ⟨fun ⟨h0, hone⟩ => hlone ?_, ?_⟩
  · rw [hp'] at h0
    rw [hp]
    rw [h'.flowTail] at hone
    rw [h.flowTail]
    refine ⟨h0, ?_⟩
    rcases Nat.lt_or_ge 1 n with hmany | hfew
    · rcases hone with h1 | hmark
      · exact .inl h1
      · exact .inr ((ha.marker hmany).symm.trans hmark)
    · exact .inl (by omega)
  · rw [deleteSafe_of_chosen hp] at hsafe
    rw [deleteSafe_of_chosen hp', ha.marker hlt]
    exact hsafe

end Calls

section Runs
variable {s s' : UnitRun} {n m : ℕ}

/-- Units in a relation that every command keeps answer a list of commands in the same way. -/
theorem answers_same {R : UnitRun → UnitRun → Prop}
    (hstep : ∀ s s' c, R s s' → KeepsRows s c →
      ∃ a u u', answer s c = some (a, u) ∧ answer s' c = some (a, u') ∧ R u u')
    (h : R s s') (calls : List ManagedCall) (hkeep : Along unitAfter KeepsRows s calls) :
    ∃ as, answers s calls = some as ∧ answers s' calls = some as := by
  induction calls generalizing s s' with
  | nil => exact ⟨[], rfl, rfl⟩
  | cons c calls ih =>
    obtain ⟨a, u, u', hanswer, hanswer', hnext⟩ := hstep s s' c h hkeep.1
    have hafter : unitAfter s c = some u := by
      rw [unitAfter, hanswer]
      rfl
    obtain ⟨as, has, has'⟩ := ih hnext (hkeep.2 u hafter)
    exact ⟨a :: as, bind_some_of hanswer (bind_some_of has rfl),
      bind_some_of hanswer' (bind_some_of has' rfl)⟩

/-- A command has the same answer for twins, and leaves them twins. -/
theorem answer_twins (s s' : UnitRun) (c : ManagedCall) (h : ∃ n m, Twins s s' n m)
    (hc : KeepsRows s c) :
    ∃ a u u', answer s c = some (a, u) ∧ answer s' c = some (a, u') ∧ ∃ n m, Twins u u' n m := by
  obtain ⟨n, m, hwell, hwell', ha, htop, htop'⟩ := h
  have hsame := fun flow => ha.chosen hwell.toGrouped hwell'.toGrouped flow
  match c with
  | .table (.add mask flowEntry actionSet flag) =>
    obtain ⟨pos, u, u', mask₁, entry₁, n₁, m₁, hadd, hadd', hu, hu', halike⟩ :=
      add_alike hwell hwell' ha mask flowEntry actionSet flag
    exact ⟨_, _, _, bind_some_of hadd rfl, bind_some_of hadd' rfl, n₁, m₁, hu, hu', halike, htop,
      htop'⟩
  | .table (.delete flow) =>
    obtain ⟨hmatch, hkeep⟩ := hc
    obtain ⟨p, u, hlt, hp, hdelete, hrow, hu⟩ := delete_keeps hwell hmatch hkeep
    obtain ⟨p', u', -, hp', hdelete', hrow', hu'⟩ := delete_keeps hwell'
      (ha.tcamMatches hwell.toGrouped hwell'.toGrouped hmatch)
      (ha.deleteKeepsGroups hwell.toGrouped hwell'.toGrouped hmatch hkeep)
    cases hp.symm.trans ((hsame flow).symm.trans hp')
    have hleft : masksLeft s'.tcam n m p = masksLeft s.tcam n m p := by
      rw [masksLeft, masksLeft, ha.lone hlt]
    rw [hleft] at hu'
    exact ⟨_, _, _, bind_some_of hdelete rfl, bind_some_of hdelete' rfl, _, _, hu, hu',
      removed_alike ha hlt (group_lt hwell.toGrouped hlt) hrow hrow', htop, htop'⟩
  | .modify matchFields flag newValues val =>
    obtain ⟨hmatch, hlong⟩ := hc
    obtain ⟨p, hp, hlt⟩ := chosen_of_tcamMatches hwell.toGrouped hmatch
    obtain ⟨b, u, hb, hmodify, hrow⟩ :=
      modifyEntry_spec hwell.searchable hp flag newValues hlong val
    obtain ⟨b', u', hb', hmodify', hrow'⟩ := modifyEntry_spec hwell'.searchable
      ((hsame matchFields).trans hp) flag newValues hlong val
    exact ⟨_, _, _, bind_some_of hmodify rfl, bind_some_of hmodify' rfl, n, m,
      modified_wellFormed hwell hb hrow, modified_wellFormed hwell' hb' hrow',
      modified_alike ha hlt hb hb' hrow hrow', htop, htop'⟩
  | .search flow actionSet maskPos =>
    obtain ⟨found, b, hfound, hpos, haction, htcam, hb, hcache⟩ :=
      searchFlow_result hwell.searchable htop flow actionSet maskPos
    obtain ⟨found', b', hfound', hpos', haction', htcam', hb', hcache'⟩ :=
      searchFlow_result hwell'.searchable htop' flow actionSet maskPos
    rw [hsame flow] at hpos' haction'
    have hanswer : (if found'.pos < 0 then none else some found'.actionSet) =
        if found.pos < 0 then none else some found.actionSet := by
      rw [hpos, hpos']
      cases hbest : chosen s.tcam flow with
      | none => rfl
      | some p =>
        rw [haction p hbest, haction' p hbest, ha.action p (chosen_lt hwell.tails hbest)]
    refine ⟨_, ⟨found.tcam, found.cache⟩, ⟨found'.tcam, found'.cache⟩,
      bind_some_of hfound rfl, bind_some_of hfound' ?_, n, m, counted_wellFormed hwell htcam hb,
      counted_wellFormed hwell' htcam' hb', counted_alike ha htcam htcam' hb hb', hcache, hcache'⟩
    rw [hanswer, hpos, hpos']

/-- Two units whose tables have the same live rows, up to counters and timeouts, answer
every list of commands in the same way. -/
theorem live_rows_decide (h : WellFormed s.tcam n m) (h' : WellFormed s'.tcam n m)
    (halike : Alike s.tcam s'.tcam n m)
    (htop : 1 ≤ s.cache.cacheTop ∧ s.cache.cacheTop ≤ cacheSize)
    (htop' : 1 ≤ s'.cache.cacheTop ∧ s'.cache.cacheTop ≤ cacheSize) (calls : List ManagedCall)
    (hkeep : Along unitAfter KeepsRows s calls) :
    ∃ as, answers s calls = some as ∧ answers s' calls = some as :=
  answers_same answer_twins ⟨n, m, h, h', halike, htop, htop'⟩ calls hkeep

/-- Empty tables in memory of zeros and in memory of ones. -/
theorem unwritten_memory_unseen :
    let calls : List ManagedCall :=
      [.table (.add (firstByte 255) (entryFor 1 7) (firstByte 1) (firstByte 0)),
       .table (.add (firstByte 255) (entryFor 2 7) (firstByte 2) (firstByte 0)),
       .search (firstByte 2) (firstByte 0) 0, .table (.delete (firstByte 2))]
    ∃ as, answers (startUnit zeroedTcamUnit zeroedCache) calls = some as ∧
      answers (startUnit ⟨Block.ofFn fun _ => 255, Block.ofFn fun _ => 255,
        Block.ofFn fun _ => 255, Block.ofFn fun _ => 255, 0, 0⟩ zeroedCache) calls = some as := by
  intro calls
  have hempty : ∀ tcam : TcamUnit, WellFormed { tcam with flowTail := 0, maskTail := 0 } 0 0 :=
    fun tcam => ⟨(refines_start tcam).grouped, fun h => absurd h (Nat.lt_irrefl 0), fun _ => rfl⟩
  have hnone : ∀ {P : ℕ → Prop}, ∀ k < 0, P k := fun k hk => absurd hk (Nat.not_lt_zero k)
  exact live_rows_decide (n := 0) (m := 0) (hempty zeroedTcamUnit) (hempty _)
    ⟨hnone, hnone, hnone, hnone⟩ (by decide) (by decide) calls (by decide +kernel)

end Runs

section Undoing
variable {t t₁ u : TcamUnit} {n m m₁ e : ℕ} {mask mask₁ : Block mtchFldLen}
  {flowEntry entry₁ : FlowEntry} {actionSet : Block actnStLen} {flag : Block 2}
  {flow : Block mtchFldLen}

theorem marker_inserted {marked : Bool}
    (hadd : RowInserted t t₁ n e (putBit flowEntry 356 marked) actionSet flag) :
    t₁.marker e = marked := by
  rw [TcamUnit.marker, hadd.flow, Function.update_self, bit_freshEntry _ (by decide),
    bit_putBit _ _ (by decide), if_pos rfl]

/-- What a row inserted and removed again leaves of the other rows. -/
theorem undone_alike {marked : Bool}
    (hadd : RowInserted t t₁ n e (putBit flowEntry 356 marked) actionSet flag)
    (hdelete : RowRemoved t₁ u (n + 1) m₁ e flow) (hlast : marked = true → e = n)
    (hmask : ∀ g < m, u.mask g = t.mask g) : Alike t u n m := by
  have hbit : ∀ k ≤ n, k ≠ e → ∀ q < 368,
      bit (handedOn t₁ e (countedRows t₁ flow (n + 1)) k) q = bit (t₁.flow k) q := by
    intro k hk hke q hq
    rw [handedOn, marker_inserted hadd]
    split_ifs with hcase
    · -- only the last row hands on a marker, to the row behind
      have := hlast hcase.1
      rw [Function.update_of_ne (by omega), counted_bit k hq]
    · exact counted_bit k hq
  refine ⟨fun k hk q hq => ?_, fun k hk => ?_, fun k hk => ?_, hmask⟩
  · rw [hdelete.flow, Nat.add_sub_cancel]
    simp only [movedUp]
    rcases Nat.lt_or_ge k e with hlt | hge
    · rw [if_neg (by omega), hbit k hk.le (by omega) q hq, hadd.flow,
        Function.update_of_ne (by omega)]
      simp only [movedDown, if_neg (show ¬ (e < k ∧ k ≤ n) by omega)]
    · rw [if_pos ⟨hge, hk⟩, bit_freshEntry _ hq, hbit (k + 1) hk (by omega) q hq, hadd.flow,
        Function.update_of_ne (by omega)]
      simp only [movedDown, if_pos (show e < k + 1 ∧ k + 1 ≤ n by omega), Nat.add_sub_cancel]
      exact bit_freshEntry _ hq
  · rw [hdelete.action, Nat.add_sub_cancel, hadd.action, movedUp_movedDown _ hk]
  · rw [hdelete.flag, Nat.add_sub_cancel, hadd.flag, movedUp_movedDown _ hk]

/-- A delete of an entry that joined a group. -/
theorem undone_in_group (h : WellFormed t n m) {g s : ℕ} (hroom : n < noFFlws)
    (hg : FirstStored t m mask g) (hs : GroupStart t n g s) (he : GroupEnd t n s e)
    (hrow : RowInserted t t₁ n e (putBit flowEntry 356 false) actionSet flag)
    (hmask : t₁.mask = t.mask) (hmaskTail : t₁.maskTail = m)
    (hchosen : chosen t₁ flow = some e) (hkeep : DeleteKeepsGroups t₁ flow) :
    ∃ u, deleteFlowEntry t₁ flow = some ((e : ℤ), u) ∧ WellFormed u n m ∧ Alike t u n m := by
  have hwell :=
    added_wellFormed h (added_in_group h.toGrouped hroom hg hs he hrow hmask hmaskTail)
  obtain ⟨p, u, -, hp, hdelete, hremoved, hu⟩ :=
    delete_keeps hwell (matches_of_chosen hwell.toGrouped hchosen) hkeep
  cases hchosen.symm.trans hp
  have hlone : FlowDelete.lone t₁ (n + 1) e = false := by
    rw [FlowDelete.lone, marker_inserted hrow, Bool.false_and]
  rw [masksLeft, hlone] at hu
  refine ⟨u, hdelete, hu, undone_alike hrow hremoved (fun hf => absurd hf Bool.false_ne_true)
    fun g _ => ?_⟩
  rw [hremoved.mask, hlone, if_neg Bool.false_ne_true, hmask]

/-- A delete of an entry that came with its mask, which goes again. -/
theorem undone_with_mask (h : WellFormed t e m) (hroom : e < noFFlws) (he : 0 < e)
    (hm : m < noFFlws) (hnew : ∀ g < m, t.mask g ≠ mask)
    (hrow : RowInserted t t₁ e e (putBit flowEntry 356 (decide (0 < e))) actionSet flag)
    (hmask : t₁.mask = Function.update t.mask m (clearSpare mask))
    (hmaskTail : t₁.maskTail = (m + 1 : ℕ)) (hchosen : chosen t₁ flow = some e)
    (hkeep : DeleteKeepsGroups t₁ flow) :
    ∃ u, deleteFlowEntry t₁ flow = some ((e : ℤ), u) ∧ WellFormed u e m ∧ Alike t u e m := by
  have hwell := added_wellFormed h
    (added_with_mask h.toGrouped hroom hm h.empty hnew hrow hmask hmaskTail)
  obtain ⟨p, u, -, hp, hdelete, hremoved, hu⟩ :=
    delete_keeps hwell (matches_of_chosen hwell.toGrouped hchosen) hkeep
  cases hchosen.symm.trans hp
  have hlone : FlowDelete.lone t₁ (e + 1) e = true := by
    rw [FlowDelete.lone, marker_inserted hrow, decide_eq_true he, decide_eq_true rfl]
    rfl
  have hgroup : t₁.group e = m := by
    rw [inserted_group_new hrow h.toGrouped h.empty (by
      rw [bit_putBit _ _ (by decide), if_pos rfl]) le_rfl, openAt, if_neg (Nat.lt_irrefl e),
      if_pos rfl]
  rw [masksLeft, hlone] at hu
  refine ⟨u, hdelete, hu, undone_alike hrow hremoved (fun _ => rfl) fun g hg => ?_⟩
  rw [hremoved.mask, hlone, if_pos rfl, hgroup]
  simp only [movedUp, if_neg (show ¬ (m ≤ g ∧ g < m + 1 - 1) by omega)]
  rw [hmask, Function.update_of_ne (by omega)]

/-- An add that is undone by a delete of the new entry leaves a table that is alike. Behind
an empty table it does not: there the mask stays. -/
theorem undo_alike (h : WellFormed t n m) (hn : 0 < n)
    (hadd : addNewEntry t mask flowEntry actionSet flag = some ((e : ℤ), t₁, mask₁, entry₁))
    (hchosen : chosen t₁ flow = some e) (hsafe : DeleteSafe t₁ flow) :
    ∃ u, deleteFlowEntry t₁ flow = some ((e : ℤ), u) ∧ WellFormed u n m ∧ Alike t u n m := by
  obtain ⟨r, hr, houtcome⟩ := addNewEntry_outcome h mask flowEntry actionSet flag
  cases hr.symm.trans hadd
  -- the new entry is never the first one
  have hkeep : 0 < e → DeleteKeepsGroups t₁ flow := by
    refine fun hpos => ⟨fun hlone => ?_, hsafe⟩
    have := Option.some.inj (hchosen.symm.trans hlone.1)
    omega
  generalize hresult : ((e : ℤ), t₁, mask₁, entry₁) = r at houtcome
  cases houtcome with
  | full hfull =>
    have := (position_ne e).1
    exact absurd (congrArg Prod.fst hresult) this
  | redundant hroom hg htakes =>
    have := (position_ne e).2
    exact absurd (congrArg Prod.fst hresult) this
  | inGroup hroom hg htakes hs he hrow hmask hmaskTail =>
    obtain rfl := Int.ofNat_inj.mp (congrArg Prod.fst hresult)
    obtain rfl := congrArg (fun r => r.2.1) hresult
    exact undone_in_group h hroom hg hs he hrow hmask hmaskTail hchosen
      (hkeep ((Nat.zero_le _).trans_lt he.lt))
  | newGroup hroom hm hnew hrow hmask hmaskTail =>
    obtain rfl := Int.ofNat_inj.mp (congrArg Prod.fst hresult)
    obtain rfl := congrArg (fun r => r.2.1) hresult
    exact undone_with_mask h hroom hn hm hnew hrow hmask hmaskTail hchosen (hkeep hn)

/-- A rule that is added behind others and deleted again leaves no trace: whatever is
asked afterwards, and whatever the cache holds, the answers are those of a unit that
never had the rule. -/
theorem transient_rule_unseen {cache cache' : Cache} (h : WellFormed t n m) (hn : 0 < n)
    (hadd : addNewEntry t mask flowEntry actionSet flag = some ((e : ℤ), t₁, mask₁, entry₁))
    (hchosen : chosen t₁ flow = some e) (hsafe : DeleteSafe t₁ flow)
    (htop : 1 ≤ cache.cacheTop ∧ cache.cacheTop ≤ cacheSize)
    (htop' : 1 ≤ cache'.cacheTop ∧ cache'.cacheTop ≤ cacheSize) :
    ∃ u, deleteFlowEntry t₁ flow = some ((e : ℤ), u) ∧
      ∀ calls, Along unitAfter KeepsRows ⟨t, cache⟩ calls →
        ∃ as, answers ⟨t, cache⟩ calls = some as ∧ answers ⟨u, cache'⟩ calls = some as := by
  obtain ⟨u, hdelete, hu, halike⟩ := undo_alike h hn hadd hchosen hsafe
  exact ⟨u, hdelete, answers_same answer_twins ⟨n, m, h, hu, halike, htop, htop'⟩⟩

/-- A rule for other flows is added and deleted again. -/
theorem second_rule_withdrawn :
    let t := tableAfter [.add (firstByte 255) (entryFor 1 7) (firstByte 1) (firstByte 0)]
    let calls : List ManagedCall :=
      [.search (firstByte 33) (firstByte 0) 0,
       .table (.add (firstByte 255) (entryFor 2 7) (firstByte 3) (firstByte 0)),
       .search (firstByte 1) (firstByte 0) 0, .table (.delete (firstByte 2))]
    ∃ t₁ mask₁ entry₁ u as,
      addNewEntry t (firstByte 240) (entryFor 32 9) (firstByte 2) (firstByte 0) =
        some (1, t₁, mask₁, entry₁) ∧ deleteFlowEntry t₁ (firstByte 33) = some (1, u) ∧
      answers ⟨t, init zeroedCache⟩ calls = some as ∧
      answers ⟨u, init zeroedCache⟩ calls = some as := by
  intro t calls
  have hlook : (addNewEntry t (firstByte 240) (entryFor 32 9) (firstByte 2) (firstByte 0)).map
      (fun r => (r.1, chosen r.2.1 (firstByte 33), decide (DeleteSafe r.2.1 (firstByte 33)))) =
      some (1, some 1, true) := by
    decide +kernel
  obtain ⟨⟨pos, t₁, mask₁, entry₁⟩, hadd, hr⟩ := Option.map_eq_some_iff.mp hlook
  have hpos : pos = (1 : ℕ) := congrArg Prod.fst hr
  have hchosen : chosen t₁ (firstByte 33) = some 1 := congrArg (fun r => r.2.1) hr
  have hsafe : DeleteSafe t₁ (firstByte 33) :=
    of_decide_eq_true (congrArg (fun r => r.2.2) hr)
  rw [hpos] at hadd
  have htop : 1 ≤ (init zeroedCache).cacheTop ∧ (init zeroedCache).cacheTop ≤ cacheSize := by
    decide
  obtain ⟨u, hdelete, hsame⟩ := transient_rule_unseen
    (show WellFormed t 1 1 by decide +kernel) (by decide) hadd hchosen hsafe htop htop
  obtain ⟨as, has, has'⟩ := hsame calls (by decide +kernel)
  exact ⟨t₁, mask₁, entry₁, u, as, hadd, hdelete, has, has'⟩

end Undoing

end NetWalk.LiveRows
