import NetWalk.FlowAdd
import NetWalk.FlowDelete

/-!
# The flow unit as a list of rules

Seen from outside, an entry of the flow unit is a rule: a mask, match bits, a
priority, an action set and an action flag. `rows` reads the live entries as
rules, each with the mask that counting markers gives it. Adding inserts one rule
into this list and deleting removes one, and both keep as many groups as masks;
the two ways in which this fails are excluded by hypotheses.
-/
namespace NetWalk.FlowRows
open ByteBlock BitOperations SlotTable RowSequence FlowTables FlowSearch FlowAdd FlowDelete

structure Rule where
  mask : Block mtchFldLen
  matchBits : Fin 356 → Bool
  priority : UInt8
  actionSet : Block actnStLen
  flag : Block 2
deriving DecidableEq

def ruleOf {n : ℕ} (mask : Block mtchFldLen) (entry : Block n) (actionSet : Block actnStLen)
    (flag : Block 2) : Rule :=
  ⟨mask, fun q => bit entry q, entry.byte 45, actionSet, flag⟩

def row (tcam : TcamUnit) (p : ℕ) : Rule :=
  ruleOf (tcam.maskOf p) (tcam.flow p) (tcam.action p) (tcam.flag p)

def rows (tcam : TcamUnit) : List Rule := firstRows (row tcam) tcam.flowTail.toNat

/-- The rule agrees with the flow on every bit its mask selects. -/
def Rule.Matches (r : Rule) (flow : Block mtchFldLen) : Prop :=
  ∀ q : Fin 356, bit r.mask q = true → bit flow q = r.matchBits q

instance (r : Rule) (flow : Block mtchFldLen) : Decidable (r.Matches flow) :=
  inferInstanceAs (Decidable (∀ q : Fin 356, bit r.mask q = true → bit flow q = r.matchBits q))

/-- The mask selects match-field bits only. -/
def SelectsFields (mask : Block mtchFldLen) : Prop :=
  ∀ q < 8 * mtchFldLen, 356 ≤ q → bit mask q = false

instance (mask : Block mtchFldLen) : Decidable (SelectsFields mask) :=
  inferInstanceAs (Decidable (∀ q < 8 * mtchFldLen, 356 ≤ q → bit mask q = false))

/-- The rule as it is stored, with the spare bits of its mask cleared. -/
def Rule.stored (r : Rule) : Rule := { r with mask := clearSpare r.mask }

/-- What a rule says beside its mask. -/
def Rule.contents (r : Rule) : (Fin 356 → Bool) × UInt8 × Block actnStLen × Block 2 :=
  (r.matchBits, r.priority, r.actionSet, r.flag)

def insertRule (rules : List Rule) (pos : ℕ) (r : Rule) : List Rule :=
  rules.take pos ++ r :: rules.drop pos

theorem ruleOf_congr {n n' : ℕ} {entry : Block n} {entry' : Block n'}
    (hbits : ∀ q < 356, bit entry q = bit entry' q) (hprio : entry.byte 45 = entry'.byte 45)
    (mask : Block mtchFldLen) (actionSet : Block actnStLen) (flag : Block 2) :
    ruleOf mask entry actionSet flag = ruleOf mask entry' actionSet flag := by
  simp only [ruleOf, hprio, Rule.mk.injEq, true_and, and_true]
  exact funext fun q => hbits q q.isLt

theorem ruleOf_freshEntry {n : ℕ} (entry : Block n) (mask : Block mtchFldLen)
    (actionSet : Block actnStLen) (flag : Block 2) :
    ruleOf mask (freshEntry entry) actionSet flag = ruleOf mask entry actionSet flag :=
  ruleOf_congr (fun q hq => bit_freshEntry entry (show q < 8 * 46 by omega))
    (byte_freshEntry entry (by decide)) mask actionSet flag

theorem ruleOf_putMarker (entry : FlowEntry) (x : Bool) (mask : Block mtchFldLen)
    (actionSet : Block actnStLen) (flag : Block 2) :
    ruleOf mask (putBit entry 356 x) actionSet flag = ruleOf mask entry actionSet flag := by
  refine ruleOf_congr (fun q hq => ?_) (byte_putBit entry x (by decide) (by decide)) _ _ _
  rw [bit_putBit entry x (show q < 8 * 46 by omega), if_neg (by omega)]

/-- For a mask of match fields, matching is agreement with the rule. -/
theorem entryMatches_iff {tcam : TcamUnit} {p : ℕ} (hmask : SelectsFields (tcam.maskOf p))
    (flow : Block mtchFldLen) :
    entryMatches tcam flow p = true ↔ (row tcam p).Matches flow := by
  rw [entryMatches, decide_eq_true_eq]
  constructor
  · intro h q hq
    exact h q (show (q : ℕ) < 360 by omega) hq
  · intro h q hq hbit
    rcases Nat.lt_or_ge q 356 with hlt | hge
    · exact h ⟨q, hlt⟩ hbit
    · rw [hmask q hq hge] at hbit
      cases hbit

section Inserted
variable {tcam tcam' : TcamUnit} {n m pos : ℕ} {flowEntry : FlowEntry}
  {actionSet : Block actnStLen} {flag : Block 2}

theorem inserted_marker (h : RowInserted tcam tcam' n pos flowEntry actionSet flag) {k : ℕ}
    (hk : k ≤ n) : tcam'.marker k = openAt tcam.marker pos (bit flowEntry 356) k := by
  have hopen := openAt_of_movedDown freshEntry tcam.flow (fun e => bit e 356)
    (fun e => bit_freshEntry e (by decide)) pos hk (freshEntry flowEntry)
  rw [bit_freshEntry flowEntry (by decide)] at hopen
  rw [TcamUnit.marker, h.flow, hopen]
  rfl

/-- Whatever is read off a row, up to its counter and timeout, is inserted. -/
theorem inserted_row {β : Type} (v : Block mtchFldLen → Block flwEntLen → Block actnStLen →
      Block 2 → β)
    (hv : ∀ mask (entry : Block flwEntLen) actionSet flag,
      v mask (freshEntry entry) actionSet flag = v mask entry actionSet flag)
    (h : RowInserted tcam tcam' n pos flowEntry actionSet flag) {mask : Block mtchFldLen}
    {k : ℕ} (hk : k ≤ n) (hmask : tcam'.maskOf k = openAt tcam.maskOf pos mask k) :
    v (tcam'.maskOf k) (tcam'.flow k) (tcam'.action k) (tcam'.flag k) =
      openAt (fun i => v (tcam.maskOf i) (tcam.flow i) (tcam.action i) (tcam.flag i)) pos
        (v mask (freshEntry flowEntry) actionSet flag) k := by
  rw [hmask, h.flow, h.action, h.flag]
  simp only [openAt, Function.update_apply, movedDown]
  rcases Nat.lt_trichotomy k pos with hlt | rfl | hgt
  · simp only [hlt, if_true, if_neg (show k ≠ pos by omega),
      if_neg (show ¬ (pos < k ∧ k ≤ n) by omega)]
  · simp only [lt_irrefl, if_false, if_true]
  · simp only [if_neg (show ¬ k < pos by omega), if_neg (show k ≠ pos by omega),
      if_pos (show pos < k ∧ k ≤ n by omega), id]
    exact hv _ _ _ _

/-- A row inserted with the right mask is a rule inserted. -/
theorem inserted_rows (h : RowInserted tcam tcam' n pos flowEntry actionSet flag)
    (htail : tcam.flowTail = n) (hpos : pos ≤ n) {mask : Block mtchFldLen}
    (hmask : ∀ k ≤ n, tcam'.maskOf k = openAt tcam.maskOf pos mask k) :
    rows tcam' = insertRule (rows tcam) pos (ruleOf mask flowEntry actionSet flag) := by
  have hrow : ∀ k < n + 1, row tcam' k =
      openAt (row tcam) pos (ruleOf mask (freshEntry flowEntry) actionSet flag) k :=
    fun k hk => inserted_row ruleOf (fun mask entry => ruleOf_freshEntry entry mask) h
      (by omega) (hmask k (by omega))
  have hn : tcam.flowTail.toNat = n := by
    rw [htail, Int.toNat_natCast]
  rw [rows, rows, hn, h.flowTail_toNat, firstRows_congr hrow, firstRows_openAt _ hpos, insertRule,
    ruleOf_freshEntry]

/-- An entry at the end of a group belongs to the group. -/
theorem inserted_group_end (h : RowInserted tcam tcam' n pos flowEntry actionSet flag) {g s : ℕ}
    (hs : GroupStart tcam n g s) (he : GroupEnd tcam n s pos) (hmark : bit flowEntry 356 = false)
    {k : ℕ} (hk : k ≤ n) : tcam'.group k = openAt tcam.group pos g k := by
  have hpos := he.lt
  have hslt := hs.lt
  have hgroup : tcam.group (pos - 1) = g := by
    rw [← hs.group]
    exact groupOf_eq_of_unmarked (by omega) fun j hj hjp => he.inside j hj (by omega)
  have hopen := labelOf_openAt id tcam.marker (show 0 < pos by omega)
  rw [TcamUnit.group, groupOf_congr fun j hj => inserted_marker h (show j ≤ n by omega), hmark,
    ← hgroup]
  exact congrFun hopen k

/-- An entry behind all others is a new group, unless a mask was left over when
the table was empty. -/
theorem inserted_group_new (h : RowInserted tcam tcam' n n flowEntry actionSet flag)
    (hg : Grouped tcam n m) (hempty : n = 0 → m = 0) (hmark : bit flowEntry 356 = decide (0 < n))
    {k : ℕ} (hk : k ≤ n) : tcam'.group k = openAt tcam.group n m k := by
  have hmarker : ∀ k ≤ n, tcam'.marker k = openAt tcam.marker n (decide (0 < n)) k := by
    intro k hk
    rw [inserted_marker h hk, hmark]
  rw [openAt]
  split_ifs with hlt hlast
  · refine groupOf_congr fun j hj => ?_
    rw [hmarker j (by omega), openAt, if_pos (by omega)]
  · rw [hlast, TcamUnit.group, groupOf,
      marks_congr fun k hk => hmarker k (Nat.lt_succ_iff.mp hk), marks_openAt_gt le_rfl]
    rcases Nat.eq_zero_or_pos n with rfl | hpos
    · rw [hempty rfl]
      simp
    · rw [hg.groups hpos, decide_eq_true hpos]
      rfl
  · omega

/-- An entry at the end of its group keeps the groups and has the group's mask. -/
theorem inserted_in_group (h : RowInserted tcam tcam' n pos flowEntry actionSet flag)
    (hg : Grouped tcam n m) (hn : n < noFFlws) {g s : ℕ} (hs : GroupStart tcam n g s)
    (he : GroupEnd tcam n s pos) (hmark : bit flowEntry 356 = false)
    (hmask : tcam'.mask = tcam.mask) (htail : tcam'.maskTail = m) :
    Grouped tcam' (n + 1) m ∧
      ∀ k ≤ n, tcam'.maskOf k = openAt tcam.maskOf pos (tcam.mask g) k := by
  constructor
  · refine ⟨h.tail, htail, hn, hg.mask_le, fun _ => ?_, fun h0 => absurd h0 (by omega)⟩
    rw [marks_congr fun k hk => inserted_marker h (Nat.lt_succ_iff.mp hk), hmark,
      marks_openAt_gt he.le]
    exact hg.groups (Nat.zero_lt_of_lt hs.lt)
  · intro k hk
    have hlabel : tcam'.maskOf k = tcam'.mask (tcam'.group k) := rfl
    rw [hlabel, hmask, inserted_group_end h hs he hmark hk, openAt, openAt]
    split_ifs <;> rfl

/-- An entry behind all others has the new mask. -/
theorem inserted_with_mask (h : RowInserted tcam tcam' n n flowEntry actionSet flag)
    (hg : Grouped tcam n m) (hn : n < noFFlws) (hm : m < noFFlws) (hempty : n = 0 → m = 0)
    (hmark : bit flowEntry 356 = decide (0 < n)) {mask : Block mtchFldLen}
    (hmask : tcam'.mask = Function.update tcam.mask m mask)
    (htail : tcam'.maskTail = (m + 1 : ℕ)) :
    Grouped tcam' (n + 1) (m + 1) ∧
      ∀ k ≤ n, tcam'.maskOf k = openAt tcam.maskOf n mask k := by
  have hgroup := fun k hk => inserted_group_new h hg hempty hmark (k := k) hk
  constructor
  · refine ⟨h.tail, htail, hn, hm, fun _ => ?_, fun h0 => absurd h0 (by omega)⟩
    have hlast : marks tcam'.marker (n + 1) = openAt tcam.group n m n := hgroup n le_rfl
    rw [hlast, openAt, if_neg (Nat.lt_irrefl n), if_pos rfl]
  · intro k hk
    have hlabel : tcam'.maskOf k = tcam'.mask (tcam'.group k) := rfl
    rw [hlabel, hmask, hgroup k hk, openAt, openAt]
    split_ifs with hlt hlast
    · rw [Function.update_of_ne (group_lt hg hlt).ne]
      rfl
    · rw [Function.update_self]
    · omega

end Inserted

section Removed
variable {tcam tcam' : TcamUnit} {n m p : ℕ} {flow : Block mtchFldLen}

/-- The markers once entry `p` has handed on its own, if it does. -/
def marksAfter (tcam : TcamUnit) (p : ℕ) : ℕ → Bool :=
  if tcam.marker p = true ∧ tcam.marker (p + 1) = false
    then Function.update tcam.marker (p + 1) true else tcam.marker

theorem marksAfter_le {k : ℕ} (hk : k ≤ p) : marksAfter tcam p k = tcam.marker k := by
  rw [marksAfter]
  split_ifs
  · rw [Function.update_of_ne (by omega)]
  · rfl

theorem marksAfter_unmarked (hmark : tcam.marker p = false) :
    marksAfter tcam p = tcam.marker := by
  rw [marksAfter, if_neg (by simp [hmark])]

theorem marksAfter_lone (hnext : tcam.marker (p + 1) = true) :
    marksAfter tcam p = tcam.marker := by
  rw [marksAfter, if_neg (by simp [hnext])]

theorem marksAfter_handOn (hmark : tcam.marker p = true) (hnext : tcam.marker (p + 1) = false) :
    marksAfter tcam p = Function.update tcam.marker (p + 1) true := by
  rw [marksAfter, if_pos ⟨hmark, hnext⟩]

theorem handedOn_marker {entries : ℕ → Block flwEntLen}
    (h : ∀ k, bit (entries k) 356 = tcam.marker k) :
    (fun k => bit (handedOn tcam p entries k) 356) = marksAfter tcam p := by
  funext k
  rw [handedOn, marksAfter]
  split_ifs with hcase
  · by_cases hk : k = p + 1
    · subst hk
      rw [Function.update_self, Function.update_self, bit_putBit _ _ (by decide), if_pos rfl]
    · rw [Function.update_of_ne hk, Function.update_of_ne hk, h k]
  · exact h k

theorem removed_marker (h : RowRemoved tcam tcam' n m p flow) {k : ℕ} (hk : k < n - 1) :
    tcam'.marker k = closeAt (marksAfter tcam p) p k := by
  have hclose := closeAt_of_movedUp freshEntry (handedOn tcam p (countedRows tcam flow n))
    (fun e => bit e 356) (fun e => bit_freshEntry e (by decide)) p hk
  rw [handedOn_marker fun k => bit_countedRows k (by decide)] at hclose
  rw [TcamUnit.marker, h.flow, hclose]

theorem handedOn_bit (entries : ℕ → Block flwEntLen) (k : ℕ) {q : ℕ} (hq : q < 356) :
    bit (handedOn tcam p entries k) q = bit (entries k) q := by
  rw [handedOn]
  split_ifs
  · by_cases hk : k = p + 1
    · subst hk
      have hlt : q < 8 * flwEntLen := hq.trans (by decide)
      rw [Function.update_self, bit_putBit _ _ hlt, if_neg (by omega)]
    · rw [Function.update_of_ne hk]
  · rfl

theorem handedOn_byte (entries : ℕ → Block flwEntLen) (k : ℕ) {i : ℕ} (hi : i ≠ 44) :
    (handedOn tcam p entries k).byte i = (entries k).byte i := by
  rw [handedOn]
  split_ifs
  · by_cases hk : k = p + 1
    · subst hk
      rw [Function.update_self]
      rcases Nat.lt_or_ge i flwEntLen with hlt | hge
      · exact byte_putBit _ _ hlt hi
      · rw [byte_outside _ hge, byte_outside _ hge]
    · rw [Function.update_of_ne hk]
  · rfl

/-- Whatever is read off the match bits and the priority of a row, its action set and
its flag, is removed. -/
theorem removed_row {β : Type} (v : Block flwEntLen → Block actnStLen → Block 2 → β)
    (hv : ∀ (entry entry' : Block flwEntLen) actionSet flag,
      (∀ q < 356, bit entry q = bit entry' q) → entry.byte 45 = entry'.byte 45 →
      v entry actionSet flag = v entry' actionSet flag)
    (h : RowRemoved tcam tcam' n m p flow) {k : ℕ} (hk : k < n - 1) :
    v (tcam'.flow k) (tcam'.action k) (tcam'.flag k) =
      closeAt (fun i => v (tcam.flow i) (tcam.action i) (tcam.flag i)) p k := by
  have hentry : ∀ i a f, v (handedOn tcam p (countedRows tcam flow n) i) a f =
      v (tcam.flow i) a f := by
    intro i a f
    refine hv _ _ a f (fun q hq => ?_) ?_
    · rw [handedOn_bit _ _ hq, bit_countedRows i (by omega)]
    · rw [handedOn_byte _ _ (by decide), byte_countedRows i (by decide)]
  have hfresh : ∀ (entry : Block flwEntLen) a f, v (freshEntry entry) a f = v entry a f :=
    fun entry a f => hv _ _ a f (fun q hq => bit_freshEntry entry (show q < 8 * 46 by omega))
      (byte_freshEntry entry (by decide))
  rw [h.flow, h.action, h.flag]
  simp only [closeAt, movedUp]
  rcases Nat.lt_or_ge k p with hlt | hge
  · simp only [hlt, if_true, if_neg (show ¬ (p ≤ k ∧ k < n - 1) by omega)]
    exact hentry k _ _
  · simp only [if_neg (show ¬ k < p by omega), if_pos (show p ≤ k ∧ k < n - 1 by omega)]
    rw [hfresh, hentry]
    rfl

theorem rows_closeAt (h : RowRemoved tcam tcam' n m p flow) (htail : tcam.flowTail = n)
    (hp : p < n) {β : Type} (v : Rule → β)
    (hrow : ∀ k < n - 1, v (row tcam' k) = closeAt (fun i => v (row tcam i)) p k) :
    (rows tcam').map v = ((rows tcam).map v).eraseIdx p := by
  have hn : tcam.flowTail.toNat = n := by
    rw [htail, Int.toNat_natCast]
  rw [rows, rows, firstRows, firstRows, List.map_map, List.map_map, hn, h.flowTail_toNat]
  exact (firstRows_congr hrow).trans (firstRows_closeAt _ n p hp)

theorem removed_rows (h : RowRemoved tcam tcam' n m p flow) (htail : tcam.flowTail = n)
    (hp : p < n) (hmask : ∀ k < n - 1, tcam'.maskOf k = closeAt tcam.maskOf p k) :
    rows tcam' = (rows tcam).eraseIdx p := by
  have hrow : ∀ k < n - 1, row tcam' k = closeAt (row tcam) p k := by
    intro k hk
    have hread := removed_row (fun entry actionSet flag mask => ruleOf mask entry actionSet flag)
      (fun entry entry' a f hbits hprio => funext fun mask => ruleOf_congr hbits hprio mask a f)
      h hk
    rw [row, hmask k hk]
    refine (congrFun hread (closeAt tcam.maskOf p k)).trans ?_
    simp only [closeAt]
    split_ifs <;> rfl
  simpa using rows_closeAt h htail hp id hrow

theorem removed_contents (h : RowRemoved tcam tcam' n m p flow) (htail : tcam.flowTail = n)
    (hp : p < n) :
    (rows tcam').map Rule.contents = ((rows tcam).map Rule.contents).eraseIdx p :=
  rows_closeAt h htail hp Rule.contents fun _ hk =>
    removed_row (fun entry actionSet flag =>
      (ruleOf (Block.ofFn fun _ => 0) entry actionSet flag).contents)
      (fun _ _ a f hbits hprio => congrArg Rule.contents (ruleOf_congr hbits hprio _ a f)) h hk

/-- Deleting keeps as many groups as masks: the last entry of a marked group
takes its mask along, and any other marked entry hands its marker on. -/
theorem masksLeft_eq (hm : m = marks tcam.marker n + 1) (hp : p < n) :
    masksLeft tcam n m p = marks (closeAt (marksAfter tcam p) p) (n - 1) + 1 := by
  have hcount : marks (closeAt (marksAfter tcam p) p) (n - 1) + (tcam.marker p).toNat =
      marks (marksAfter tcam p) n := by
    rw [← marksAfter_le le_rfl, marks_closeAt_ge _ (by omega), Nat.sub_add_cancel (by omega)]
  rw [masksLeft, lone]
  cases hmark : tcam.marker p with
  | false =>
    rw [marksAfter_unmarked hmark] at hcount ⊢
    rw [hmark, Bool.toNat_false] at hcount
    simp only [Bool.false_and, Bool.false_eq_true, if_false]
    omega
  | true =>
    rw [hmark, Bool.toNat_true] at hcount
    by_cases hlast : p + 1 = n
    · have hsame : marks (marksAfter tcam p) n = marks tcam.marker n :=
        marks_congr fun k hk => marksAfter_le (by omega)
      simp only [Bool.true_and, decide_eq_true hlast, Bool.true_or, if_true]
      omega
    · cases hnext : tcam.marker (p + 1) with
      | true =>
        rw [marksAfter_lone hnext] at hcount ⊢
        simp only [Bool.or_true, Bool.and_true, if_true]
        omega
      | false =>
        have hmore : marks (marksAfter tcam p) n = marks tcam.marker n + 1 := by
          rw [marksAfter_handOn hmark hnext]
          exact marks_update (by omega) hnext
        simp only [Bool.true_and, decide_eq_false hlast, Bool.or_false, Bool.false_eq_true,
          if_false]
        omega

theorem removed_grouped (h : RowRemoved tcam tcam' n m p flow) (hg : Grouped tcam n m)
    (hp : p < n) : Grouped tcam' (n - 1) (masksLeft tcam n m p) := by
  have hmle := hg.mask_le
  have hnle := hg.flow_le
  have hleft : masksLeft tcam n m p ≤ m := by
    rw [masksLeft]
    split_ifs <;> omega
  have hbalance : masksLeft tcam n m p = marks tcam'.marker (n - 1) + 1 := by
    rw [marks_congr fun k hk => removed_marker h hk]
    exact masksLeft_eq (hg.groups (by omega)) hp
  refine ⟨h.tail, h.maskTail, by omega, by omega, fun _ => hbalance, fun h0 => ?_⟩
  rw [hbalance, h0, marks_zero]

/-- When a whole group has been deleted, the entries behind it count one marker
less, and their masks have moved up by one. -/
theorem mask_of_lone (hlone : lone tcam n p = true) {k : ℕ} (hk : k < n - 1)
    (hroom : groupOf (closeAt (marksAfter tcam p) p) k < m - 1) :
    movedUp clearSpare tcam.mask (tcam.group p) (m - 1)
        (groupOf (closeAt (marksAfter tcam p) p) k) =
      if k < p then tcam.maskOf k else clearSpare (tcam.maskOf (k + 1)) := by
  obtain ⟨hmark, hnext⟩ : tcam.marker p = true ∧ (p + 1 = n ∨ tcam.marker (p + 1) = true) := by
    simpa [lone] using hlone
  have hsame : groupOf (closeAt (marksAfter tcam p) p) k = groupOf (closeAt tcam.marker p) k := by
    refine groupOf_congr fun j hj => ?_
    rcases hnext with hlast | hnext
    · simp only [closeAt]
      rw [if_pos (by omega), if_pos (by omega), marksAfter_le (by omega)]
    · rw [marksAfter_lone hnext]
  rw [hsame] at hroom ⊢
  rcases Nat.lt_or_ge k p with hlt | hge
  · obtain ⟨hgroup, hbefore⟩ := groupOf_closeAt_before hmark hlt
    rw [hgroup, movedUp, if_neg fun hin => absurd hin.1 (not_le.mpr hbefore), if_pos hlt]
    rfl
  · obtain ⟨hgroup, hbehind⟩ :=
      groupOf_closeAt_behind hmark (hnext.resolve_left (by omega)) hge
    rw [movedUp, if_pos ⟨hbehind, hroom⟩, hgroup, if_neg (not_lt.mpr hge)]
    rfl

/-- The masks of the entries left, when the entry deleted was a group. -/
theorem removed_maskOf_lone (h : RowRemoved tcam tcam' n m p flow) (hg : Grouped tcam n m)
    (hp : p < n) (hlone : lone tcam n p = true) {k : ℕ} (hk : k < n - 1) :
    tcam'.maskOf k = if k < p then tcam.maskOf k else clearSpare (tcam.maskOf (k + 1)) := by
  have hgroup : tcam'.group k = groupOf (closeAt (marksAfter tcam p) p) k :=
    groupOf_congr fun j hj => removed_marker h (by omega)
  have hroom := group_lt (removed_grouped h hg hp) hk
  rw [hgroup, masksLeft, hlone, if_pos rfl] at hroom
  have hlabel : tcam'.maskOf k = tcam'.mask (tcam'.group k) := rfl
  rw [hlabel, h.mask, hgroup, hlone, if_pos rfl]
  exact mask_of_lone hlone hk hroom

theorem removed_maskOf_group (h : RowRemoved tcam tcam' n m p flow)
    (hlone : lone tcam n p = false) {k : ℕ} (hk : k < n - 1) :
    tcam'.maskOf k = closeAt tcam.maskOf p k := by
  have hgroup : tcam'.group k = groupOf (closeAt (marksAfter tcam p) p) k :=
    groupOf_congr fun j hj => removed_marker h (by omega)
  have hlabel : tcam'.maskOf k = tcam'.mask (tcam'.group k) := rfl
  rw [hlabel, h.mask, hgroup, hlone, if_neg Bool.false_ne_true]
  change labelOf tcam.mask (closeAt (marksAfter tcam p) p) k = _
  cases hmark : tcam.marker p with
  | false =>
    rw [marksAfter_unmarked hmark, labelOf_closeAt_unmarked tcam.mask hmark]
    rfl
  | true =>
    have hnext : tcam.marker (p + 1) = false := by
      rw [lone, hmark, Bool.true_and, Bool.or_eq_false_iff] at hlone
      exact hlone.2
    rw [marksAfter_handOn hmark hnext, labelOf_closeAt_handOn tcam.mask hmark hnext]
    rfl

/-- Every entry left has the mask it had, if the masks that moved were stored
normalised. -/
theorem removed_maskOf (h : RowRemoved tcam tcam' n m p flow) (hg : Grouped tcam n m)
    (hp : p < n) (hnorm : lone tcam n p = true → ∀ q, p < q → q < n →
      clearSpare (tcam.maskOf q) = tcam.maskOf q) :
    ∀ k < n - 1, tcam'.maskOf k = closeAt tcam.maskOf p k := by
  intro k hk
  cases hlone : lone tcam n p with
  | true =>
    rw [removed_maskOf_lone h hg hp hlone hk, closeAt]
    split_ifs with hlt
    · rfl
    · exact hnorm hlone (k + 1) (by omega) (by omega)
  | false => exact removed_maskOf_group h hlone hk

end Removed

end NetWalk.FlowRows
