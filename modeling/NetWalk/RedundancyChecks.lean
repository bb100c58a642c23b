import NetWalk.AddOutcomes

/-!
# When a redundant entry is recognised

The search of a mask's group compares entry `p` with the new one, bit by bit where the mask
is set, but takes the bits of the new entry from its byte `p`. Up to the first bit for which
this makes a difference the comparison is right. If it never comes to such a bit, exactly
the redundant entries are refused. Once it has, the rows and bits behind decide: they can be
such that a redundant entry is added again.
-/
namespace NetWalk.RedundancyChecks
open ByteBlock BitOperations SlotTable RowSequence FlowTables FlowSearch FlowAdd FlowRows FlowRuns
open GroupRuns PartialRun AddOutcomes
variable {tcam : TcamUnit} {n m : ℕ}

/-- Some entry of group `g` agrees with the new one on every bit of the mask. -/
def GroupHas (tcam : TcamUnit) (n : ℕ) (mask : Block mtchFldLen) (flowEntry : FlowEntry)
    (g : ℕ) : Prop :=
  ∃ p < n, tcam.group p = g ∧ Agree mask flowEntry (tcam.flow p)

/-- The mask is stored, and its group has the new entry already. -/
def Redundant (tcam : TcamUnit) (mask : Block mtchFldLen) (flowEntry : FlowEntry) : Prop :=
  ∃ g, FirstStored tcam tcam.maskTail.toNat mask g ∧
    GroupHas tcam tcam.flowTail.toNat mask flowEntry g

/-- A full table and a redundant entry are refused, nothing else is, and a
refusal changes nothing. -/
structure RefusesExactly (tcam : TcamUnit) (mask : Block mtchFldLen) (flowEntry : FlowEntry)
    (r : AddResult) : Prop where
  full : r.1 = tblFull ↔ noFFlws ≤ tcam.flowTail
  redundant : tcam.flowTail < noFFlws → (r.1 = rdndnt ↔ Redundant tcam mask flowEntry)
  unchanged : r.1 = tblFull ∨ r.1 = rdndnt → r.2.1 = tcam

/-- In the group that the entry would go to, an entry is taken for the new one exactly if
there is one that agrees with it. -/
def ComparesRight (tcam : TcamUnit) (mask : Block mtchFldLen) (flowEntry : FlowEntry) : Prop :=
  tcam.flowTail < noFFlws → ∀ g, FirstStored tcam tcam.maskTail.toNat mask g →
    (GroupTakes tcam tcam.flowTail.toNat mask flowEntry g ↔
      GroupHas tcam tcam.flowTail.toNat mask flowEntry g)

section Refusing
variable {mask : Block mtchFldLen} {flowEntry : FlowEntry} {actionSet : Block actnStLen}
  {flag : Block 2} {r : AddResult}

theorem redundant_iff {g : ℕ} (hg : FirstStored tcam tcam.maskTail.toNat mask g) :
    Redundant tcam mask flowEntry ↔ GroupHas tcam tcam.flowTail.toNat mask flowEntry g := by
  constructor
  · rintro ⟨g', hg', hhas⟩
    rwa [hg.unique hg'] at hhas
  · exact fun hhas => ⟨g, hg, hhas⟩

theorem comparesRight_iff {g : ℕ} (hroom : tcam.flowTail < noFFlws)
    (hg : FirstStored tcam tcam.maskTail.toNat mask g) :
    ComparesRight tcam mask flowEntry ↔ (GroupTakes tcam tcam.flowTail.toNat mask flowEntry g ↔
      GroupHas tcam tcam.flowTail.toNat mask flowEntry g) := by
  constructor
  · exact fun h => h hroom g hg
  · intro h _ g' hg'
    rwa [hg.unique hg']

/-- Refusals are exact for the outcome if the entry is refused as redundant when
it is. -/
theorem refusesExactly_of {pos : ℤ} {tcam' : TcamUnit} {args : Block mtchFldLen × FlowEntry}
    (hroom : tcam.flowTail < noFFlws) (hpos : pos ≠ tblFull)
    (hsame : pos = rdndnt → tcam' = tcam) :
    RefusesExactly tcam mask flowEntry (pos, tcam', args) ↔
      (pos = rdndnt ↔ Redundant tcam mask flowEntry) := by
  constructor
  · exact fun h => h.redundant hroom
  · intro h
    exact ⟨iff_of_false hpos (not_le.mpr hroom), fun _ => h, fun href =>
      hsame (href.resolve_left hpos)⟩

theorem outcome_refuses_iff (h : WellFormed tcam n m)
    (hr : AddOutcome tcam n m mask flowEntry actionSet flag r) :
    RefusesExactly tcam mask flowEntry r ↔ ComparesRight tcam mask flowEntry := by
  have hm := h.maskTail_toNat
  have hn := h.flowTail_toNat
  cases hr with
  | full hfull =>
    have hroom := h.tails.full hfull
    refine iff_of_true ⟨iff_of_true rfl hroom, fun hlt => ?_, fun _ => rfl⟩ fun hlt => ?_
    · exact absurd hlt (not_lt.mpr hroom)
    · exact absurd hlt (not_lt.mpr hroom)
  | redundant hlt hg htakes =>
    have hroom := h.flowTail_lt hlt
    rw [← hm] at hg
    rw [refusesExactly_of hroom (by decide) (fun _ => rfl), comparesRight_iff hroom hg, hn,
      redundant_iff hg, hn, iff_true_left htakes, iff_true_left rfl]
  | inGroup hlt hg htakes hs he hrow hmask hmaskTail =>
    have hroom := h.flowTail_lt hlt
    rw [← hm] at hg
    rw [refusesExactly_of hroom (position_ne _).1 (fun href => absurd href (position_ne _).2),
      comparesRight_iff hroom hg, hn, redundant_iff hg, hn, iff_false_left htakes,
      iff_false_left (position_ne _).2]
  | newGroup hlt hmlt hnew hrow hmask hmaskTail =>
    have hroom := h.flowTail_lt hlt
    rw [refusesExactly_of hroom (position_ne _).1 (fun href => absurd href (position_ne _).2)]
    refine iff_of_true (iff_of_false (position_ne _).2 ?_) fun _ g hg => ?_
    · rintro ⟨g, hg, -⟩
      exact hnew g (hm ▸ hg.lt) hg.equal
    · exact absurd hg.equal (hnew g (hm ▸ hg.lt))

theorem refuses_iff_comparesRight (h : WellFormed tcam n m) (mask : Block mtchFldLen)
    (flowEntry : FlowEntry) (actionSet : Block actnStLen) (flag : Block 2) :
    (∃ r, addNewEntry tcam mask flowEntry actionSet flag = some r ∧
        RefusesExactly tcam mask flowEntry r) ↔ ComparesRight tcam mask flowEntry := by
  obtain ⟨r, hadd, hr⟩ := addNewEntry_outcome h mask flowEntry actionSet flag
  rw [← outcome_refuses_iff h hr, hadd]
  simp only [Option.some.injEq, exists_eq_left']

end Refusing

/-- Bit `k` is compared in entry `p` of group `g` unless the search has ended before, and the
bit of byte `p` that is taken for it is another one. -/
structure ReadsWrongBit (tcam : TcamUnit) (n : ℕ) (mask : Block mtchFldLen)
    (flowEntry : FlowEntry) (g p k : ℕ) : Prop where
  live : p < n
  group : tcam.group p = g
  front : ∀ q < p, tcam.group q = g → ¬ Agree mask flowEntry (tcam.flow q)
  inside : k < 8 * mtchFldLen
  selected : bit mask k = true
  before : ∀ i < k, bit mask i = true → bit flowEntry i = bit (tcam.flow p) i
  wrong : bit flowEntry (8 * p + k % 8) ≠ bit flowEntry k

/-- In the group that the entry would go to, no wrong bit is come to. -/
def ReadsOwnBits (tcam : TcamUnit) (mask : Block mtchFldLen) (flowEntry : FlowEntry) : Prop :=
  tcam.flowTail < noFFlws → ∀ g, FirstStored tcam tcam.maskTail.toNat mask g →
    ∀ p k, ¬ ReadsWrongBit tcam tcam.flowTail.toNat mask flowEntry g p k

/-- The tables are the same up to the match fields of entry `p` from bit `k` on, and of the
entries behind. -/
structure SameInFront (tcam tcam' : TcamUnit) (p k : ℕ) : Prop where
  tables : tcam' = { tcam with flowTable := tcam'.flowTable }
  front : ∀ i < p, tcam'.flow i = tcam.flow i
  entry : ∀ q < k, bit (tcam'.flow p) q = bit (tcam.flow p) q
  behind : ∀ i < noFFlws, ∀ q < 8 * flwEntLen, 356 ≤ q →
    bit (tcam'.flow i) q = bit (tcam.flow i) q

section Comparing
variable {mask : Block mtchFldLen} {flowEntry : FlowEntry} {g p k : ℕ}

/-- Enough for it: byte `p` of the new entry is as the bytes that the mask selects. -/
theorem readsOwnBits_of_bytes (h : ∀ p < tcam.flowTail.toNat, ∀ k < 8 * mtchFldLen,
    bit mask k = true → bit flowEntry (8 * p + k % 8) = bit flowEntry k) :
    ReadsOwnBits tcam mask flowEntry :=
  fun _ _ _ p k hwrong => hwrong.wrong (h p hwrong.live k hwrong.inside hwrong.selected)

/-- An entry is compared right if no wrong bit is come to. -/
theorem takenForSame_iff_agree (hright : ∀ k, ¬ ReadsWrongBit tcam n mask flowEntry g p k)
    (hp : p < n) (hgroup : tcam.group p = g)
    (hfront : ∀ q < p, tcam.group q = g → ¬ Agree mask flowEntry (tcam.flow q)) :
    TakenForSame tcam mask flowEntry p ↔ Agree mask flowEntry (tcam.flow p) := by
  have hown : ∀ k < 8 * mtchFldLen, bit mask k = true →
      (∀ i < k, bit mask i = true → bit flowEntry i = bit (tcam.flow p) i) →
      bit flowEntry (8 * p + k % 8) = bit flowEntry k := by
    intro k hk hbit hbefore
    by_contra hwrong
    exact hright k ⟨hp, hgroup, hfront, hk, hbit, hbefore, hwrong⟩
  constructor
  · -- by induction on the bit: those in front of it agree, so it is compared with its own
    intro htaken k
    induction k using Nat.strong_induction_on with
    | _ k ih =>
      intro hk hbit
      have hk' : k < 8 * 45 := hk
      have hread := hown k hk hbit fun i hi => ih i hi (hi.trans hk)
      have hcompared := htaken (k / 8) (show k / 8 < 45 by omega) (k % 8) (by omega)
      rw [Nat.div_add_mod] at hcompared
      exact hread.symm.trans (hcompared hbit)
  · intro hagree l hl j hj hbit
    have hl' : l < 45 := hl
    have hk : 8 * l + j < 8 * mtchFldLen := show 8 * l + j < 8 * 45 by omega
    have hread := hown (8 * l + j) hk hbit fun i hi => hagree i (hi.trans hk)
    rw [show (8 * l + j) % 8 = j by omega] at hread
    exact hread.trans (hagree (8 * l + j) hk hbit)

theorem comparesRight_of_ownBits (h : ReadsOwnBits tcam mask flowEntry) :
    ComparesRight tcam mask flowEntry := by
  intro hroom g hg
  have hright := h hroom g hg
  constructor
  · rintro ⟨p, hp, hgroup, htaken⟩
    by_contra hnone
    have hfront : ∀ q < p, tcam.group q = g → ¬ Agree mask flowEntry (tcam.flow q) :=
      fun q hq hqg hagree => hnone ⟨q, hq.trans hp, hqg, hagree⟩
    have hagree := (takenForSame_iff_agree (hright p) hp hgroup hfront).mp htaken
    exact hnone ⟨p, hp, hgroup, hagree⟩
  · intro hhas
    obtain ⟨p, ⟨hp, hgroup, hagree⟩, hfirst⟩ := Nat.findX hhas
    have hfront : ∀ q < p, tcam.group q = g → ¬ Agree mask flowEntry (tcam.flow q) :=
      fun q hq hqg hqa => hfirst q hq ⟨hq.trans hp, hqg, hqa⟩
    exact ⟨p, hp, hgroup, (takenForSame_iff_agree (hright p) hp hgroup hfront).mpr hagree⟩

/-- The first entry for which a wrong bit is come to: none in front of it has ended the
search. -/
theorem first_wrongBit (h : ∃ p k, ReadsWrongBit tcam n mask flowEntry g p k) :
    ∃ p k, ReadsWrongBit tcam n mask flowEntry g p k ∧
      ∀ q < p, tcam.group q = g → ¬ TakenForSame tcam mask flowEntry q := by
  classical
  obtain ⟨p, ⟨k, hwrong⟩, hfirst⟩ := Nat.findX h
  refine ⟨p, k, hwrong, fun q hq hqg htaken => hwrong.front q hq hqg ?_⟩
  have hright : ∀ k, ¬ ReadsWrongBit tcam n mask flowEntry g q k :=
    fun k hk => hfirst q hq ⟨k, hk⟩
  exact (takenForSame_iff_agree hright (hq.trans hwrong.live) hqg
    fun q' hq' => hwrong.front q' (hq'.trans hq)).mp htaken

end Comparing

section Changing
variable {tcam' : TcamUnit} {mask : Block mtchFldLen} {flowEntry : FlowEntry} {g p k : ℕ}

/-- From bit `k` of entry `p` on, the match fields of this entry are those of the new one,
and no bit of the entries behind is the one that it is compared with. -/
def changedFlows (tcam : TcamUnit) (flowEntry : FlowEntry) (p k : ℕ) :
    Block (flwEntLen * noFFlws) :=
  pack fun b =>
    let i := b / (8 * 48)
    let q := b % (8 * 48)
    if i < p ∨ i = p ∧ q < k ∨ 356 ≤ q then bit tcam.flowTable b
    else if i = p then bit flowEntry q
    else !bit flowEntry (8 * i + q % 8)

theorem bit_changedFlows (tcam : TcamUnit) (flowEntry : FlowEntry) (p k : ℕ) {i q : ℕ}
    (hi : i < noFFlws) (hq : q < 8 * flwEntLen) :
    bit (slot (changedFlows tcam flowEntry p k) i) q =
      if i < p ∨ i = p ∧ q < k ∨ 356 ≤ q then bit (tcam.flow i) q
      else if i = p then bit flowEntry q
      else !bit flowEntry (8 * i + q % 8) := by
  have hi' : i < 20 := hi
  have hq' : q < 8 * 48 := hq
  have hpos : 8 * (flwEntLen * i) + q = 8 * 48 * i + q := by
    rw [flwEntLen]
    omega
  have hin : 8 * (flwEntLen * i) + q < 8 * (flwEntLen * noFFlws) := by
    change 8 * (48 * i) + q < 8 * (48 * 20)
    omega
  have hdiv : (8 * 48 * i + q) / (8 * 48) = i := by omega
  have hmod : (8 * 48 * i + q) % (8 * 48) = q := by omega
  rw [bit_slot _ _ hq, changedFlows, bit_pack _ hin, hpos]
  simp only [hdiv, hmod]
  rw [TcamUnit.flow, bit_slot _ _ hq, hpos]

theorem sameInFront_changed (tcam : TcamUnit) (flowEntry : FlowEntry) (hp : p < noFFlws)
    (hk : k ≤ 8 * flwEntLen) :
    SameInFront tcam { tcam with flowTable := changedFlows tcam flowEntry p k } p k where
  tables := rfl
  front _ hi := ext_bit fun _ hq =>
    (bit_changedFlows tcam flowEntry p k (hi.trans hp) hq).trans (if_pos (.inl hi))
  entry _ hq := (bit_changedFlows tcam flowEntry p k hp (hq.trans_le hk)).trans
    (if_pos (.inr (.inl ⟨rfl, hq⟩)))
  behind _ hi _ hq hspare := (bit_changedFlows tcam flowEntry p k hi hq).trans
    (if_pos (.inr (.inr hspare)))

theorem SameInFront.marker (hs : SameInFront tcam tcam' p k) {i : ℕ} (hi : i < noFFlws) :
    tcam'.marker i = tcam.marker i := hs.behind i hi 356 (by decide) le_rfl

theorem SameInFront.group (hs : SameInFront tcam tcam' p k) {i : ℕ} (hi : i < noFFlws) :
    tcam'.group i = tcam.group i :=
  groupOf_congr fun _ hj => hs.marker (hj.trans_lt hi)

theorem SameInFront.wellFormed (hs : SameInFront tcam tcam' p k) (h : WellFormed tcam n m) :
    WellFormed tcam' n m := by
  have hmarks : marks tcam'.marker n = marks tcam.marker n :=
    marks_congr fun i hi => hs.marker (hi.trans_le h.flow_le)
  have hfirst := hs.marker (show 0 < noFFlws by decide)
  refine ⟨⟨?_, ?_, h.flow_le, h.mask_le, fun hn => ?_, h.leftOver⟩, fun hn => ?_, h.empty⟩
  · rw [hs.tables]
    exact h.flowTail
  · rw [hs.tables]
    exact h.maskTail
  · rw [hmarks]
    exact h.groups hn
  · rw [hfirst]
    exact h.first hn

theorem SameInFront.firstStored (hs : SameInFront tcam tcam' p k)
    (hg : FirstStored tcam m mask g) : FirstStored tcam' m mask g := by
  have hmask : tcam'.mask = tcam.mask := by
    rw [hs.tables]
    rfl
  refine ⟨hg.lt, ?_, ?_⟩
  · rw [hmask]
    exact hg.equal
  · rw [hmask]
    exact hg.before

theorem lt_of_selected (hfields : SelectsFields mask) {q : ℕ} (hq : q < 8 * mtchFldLen)
    (hbit : bit mask q = true) : q < 356 := by
  by_contra hspare
  rw [hfields q hq (not_lt.mp hspare)] at hbit
  cases hbit

/-- The entry with the wrong bit is made to agree with the new one. -/
theorem changed_agrees (hfields : SelectsFields mask) (hn : n < noFFlws)
    (hwrong : ReadsWrongBit tcam n mask flowEntry g p k) :
    Agree mask flowEntry (slot (changedFlows tcam flowEntry p k) p) := by
  intro q hq hbit
  have hlt := lt_of_selected hfields hq hbit
  rw [bit_changedFlows tcam flowEntry p k (hwrong.live.trans hn) (hlt.trans (by decide))]
  by_cases hfront : q < k
  · rw [if_pos (.inr (.inl ⟨rfl, hfront⟩))]
    exact hwrong.before q hfront hbit
  · rw [if_neg (by omega), if_pos rfl]

/-- Neither this entry nor one behind it is taken for the new one, for bit `k`. -/
theorem changed_differs (hfields : SelectsFields mask) (hn : n < noFFlws)
    (hwrong : ReadsWrongBit tcam n mask flowEntry g p k) {q : ℕ} (hpq : p ≤ q) (hq : q < n) :
    bit flowEntry (8 * q + k % 8) ≠ bit (slot (changedFlows tcam flowEntry p k) q) k := by
  have hk := lt_of_selected hfields hwrong.inside hwrong.selected
  rw [bit_changedFlows tcam flowEntry p k (hq.trans hn) (hk.trans (by decide)),
    if_neg (by omega)]
  rcases Nat.eq_or_lt_of_le hpq with rfl | hlt
  · rw [if_pos rfl]
    exact hwrong.wrong
  · rw [if_neg (by omega)]
    exact (Bool.not_ne_self _).symm

/-- Where a wrong bit is come to, an entry that is there already can be missed. -/
theorem missed_of_wrongBit (hfields : SelectsFields mask) (hn : n < noFFlws)
    (hwrong : ReadsWrongBit tcam n mask flowEntry g p k)
    (hfront : ∀ q < p, tcam.group q = g → ¬ TakenForSame tcam mask flowEntry q) :
    ∃ tcam', SameInFront tcam tcam' p k ∧ GroupHas tcam' n mask flowEntry g ∧
      ¬ GroupTakes tcam' n mask flowEntry g := by
  have hk : k ≤ 8 * flwEntLen := hwrong.inside.le.trans (by decide)
  have hsame := sameInFront_changed tcam flowEntry (hwrong.live.trans hn) hk
  have hgroup := (hsame.group (hwrong.live.trans hn)).trans hwrong.group
  refine ⟨_, hsame, ⟨p, hwrong.live, hgroup, changed_agrees hfields hn hwrong⟩, ?_⟩
  rintro ⟨q, hq, hqg, htaken⟩
  rw [hsame.group (hq.trans hn)] at hqg
  rcases Nat.lt_or_ge q p with hlt | hge
  · refine hfront q hlt hqg fun l hl j hj hbit => ?_
    rw [← hsame.front q hlt]
    exact htaken l hl j hj hbit
  · have hk' : k < 8 * 45 := hwrong.inside
    have hcompared := htaken (k / 8) (show k / 8 < 45 by omega) (k % 8) (by omega)
    rw [Nat.div_add_mod] at hcompared
    exact changed_differs hfields hn hwrong hge hq (hcompared hwrong.selected)

end Changing

/-- Exactly the redundant entries are refused if the comparison comes to no wrong bit. If it
does, there is a table with the same entries up to this bit where it goes wrong. -/
theorem refuses_exactly (h : WellFormed tcam n m) {mask : Block mtchFldLen}
    (hfields : SelectsFields mask) (flowEntry : FlowEntry) (actionSet : Block actnStLen)
    (flag : Block 2) :
    (ReadsOwnBits tcam mask flowEntry →
      ∃ r, addNewEntry tcam mask flowEntry actionSet flag = some r ∧
        RefusesExactly tcam mask flowEntry r) ∧
    (¬ ReadsOwnBits tcam mask flowEntry →
      ∃ g p k tcam', FirstStored tcam m mask g ∧ ReadsWrongBit tcam n mask flowEntry g p k ∧
        SameInFront tcam tcam' p k ∧ WellFormed tcam' n m ∧
        ¬ ∃ r, addNewEntry tcam' mask flowEntry actionSet flag = some r ∧
          RefusesExactly tcam' mask flowEntry r) := by
  refine ⟨fun hown => ?_, fun hnot => ?_⟩
  · exact (refuses_iff_comparesRight h mask flowEntry actionSet flag).mpr
      (comparesRight_of_ownBits hown)
  · simp only [ReadsOwnBits, not_forall, not_not, h.flowTail_toNat, h.maskTail_toNat] at hnot
    obtain ⟨hroom, g, hg, hsome⟩ := hnot
    have hn : n < noFFlws := by
      rw [h.flowTail] at hroom
      exact Int.ofNat_lt.mp hroom
    obtain ⟨p, k, hwrong, hfront⟩ := first_wrongBit hsome
    obtain ⟨tcam', hsame, hhas, hmissed⟩ := missed_of_wrongBit hfields hn hwrong hfront
    have h' := hsame.wellFormed h
    refine ⟨g, p, k, tcam', hg, hwrong, hsame, h', fun hrefuses => hmissed ?_⟩
    have hright := (refuses_iff_comparesRight h' mask flowEntry actionSet flag).mp hrefuses
    have hg' := hsame.firstStored hg
    rw [← h'.maskTail_toNat] at hg'
    rw [comparesRight_iff (h'.flowTail_lt hn) hg', h'.flowTail_toNat] at hright
    exact hright.mpr hhas

/-- Two bytes that are the same, the others zero. -/
def firstBytes {n : ℕ} (v : UInt8) : Block n := Block.ofFn fun i => if i < 2 then v else 0

/-- The second of two entries in a group, given again: its first two bytes are the same. -/
theorem second_entry_refused :
    let tcam := tableAfter
      [.add (firstBytes 255) (firstBytes 1) (firstByte 1) (firstByte 0),
       .add (firstBytes 255) (firstBytes 5) (firstByte 2) (firstByte 0)]
    ∃ r, addNewEntry tcam (firstBytes 255) (firstBytes 5) (firstByte 3) (firstByte 0) = some r ∧
      RefusesExactly tcam (firstBytes 255) (firstBytes 5) r := by
  intro tcam
  have h : WellFormed tcam 2 1 := by decide +kernel
  have hfields : SelectsFields (firstBytes 255) := by decide +kernel
  have hown : ReadsOwnBits tcam (firstBytes 255) (firstBytes 5) :=
    readsOwnBits_of_bytes (by decide +kernel)
  exact (refuses_exactly h hfields (firstBytes 5) (firstByte 3) (firstByte 0)).1 hown

/-- Of two entries in a group, the second is compared with byte 1 of the new
entry and not recognised when it is added again. -/
theorem second_entry_added_again :
    let tcam := tableAfter
      [.add (firstByte 255) (entryFor 1 7) (firstByte 1) (firstByte 0),
       .add (firstByte 255) (entryFor 2 7) (firstByte 2) (firstByte 0)]
    WellFormed tcam 2 1 ∧ SelectsFields (firstByte 255) ∧
      ¬ ∃ r, addNewEntry tcam (firstByte 255) (entryFor 2 7) (firstByte 2) (firstByte 0) = some r ∧
        RefusesExactly tcam (firstByte 255) (entryFor 2 7) r := by
  intro tcam
  refine ⟨by decide +kernel, by decide +kernel, ?_⟩
  rintro ⟨r, hadd, hr⟩
  have hpos : (addNewEntry tcam (firstByte 255) (entryFor 2 7) (firstByte 2)
      (firstByte 0)).map (fun r => r.1) = some 2 := by
    decide +kernel
  have hgroup : GroupHas tcam tcam.flowTail.toNat (firstByte 255) (entryFor 2 7) 0 :=
    ⟨1, by decide +kernel, by decide +kernel, by decide +kernel⟩
  have hfirst : FirstStored tcam tcam.maskTail.toNat (firstByte 255) 0 :=
    ⟨by decide +kernel, by decide +kernel, fun j hj => absurd hj (Nat.not_lt_zero j)⟩
  have hrefused := (hr.redundant (by decide +kernel)).mpr ⟨0, hfirst, hgroup⟩
  rw [hadd, Option.map_some, hrefused] at hpos
  cases hpos

end NetWalk.RedundancyChecks
