import NetWalk.AddOutcomes

/-!
# What a search does to a well-formed table

A search returns the first matching entry of highest priority and the position of
its mask, and counts a hit for each entry that matches. The marker of an entry lies
in the bytes that are compared: a mask that selects it makes the outcome depend on a
bit that belongs to no match field. Stored masks have the three spare bits cleared,
but not the bit of the marker.
-/
namespace NetWalk.SearchOutcomes
open ByteBlock BitOperations SlotTable RowSequence PriorityScan FlowTables FlowSearch FlowAdd
open FlowRows FlowRuns GroupRuns AddOutcomes PartialRun
variable {tcam tcam' : TcamUnit} {n m : ℕ}

/-- What a search that returned `pos` and stored `maskPos'` has found and left. -/
structure FindsFirstBest (tcam : TcamUnit) (flow : Block mtchFldLen) (pos : ℤ)
    (tcam' : TcamUnit) (maskPos' : ℤ) : Prop where
  noError : pos ≠ strErr
  miss : pos = -1 ↔ ∀ p < tcam.flowTail.toNat, entryMatches tcam flow p = false
  hit : pos ≠ -1 → ∃ p : ℕ, pos = p ∧ maskPos' = tcam.group p ∧
    Best (entryMatches tcam flow) tcam.priority tcam.flowTail.toNat p
  hits : ∀ p, (tcam'.flow p).byte 46 = (tcam.flow p).byte 46 +
    if p < tcam.flowTail.toNat ∧ entryMatches tcam flow p = true then 1 else 0
  otherBytes : ∀ p, ∀ i ≠ 46, (tcam'.flow p).byte i = (tcam.flow p).byte i
  masks : tcam'.maskTable = tcam.maskTable
  actions : tcam'.actionTable = tcam.actionTable
  flags : tcam'.flagTable = tcam.flagTable
  flowTail : tcam'.flowTail = tcam.flowTail
  maskTail : tcam'.maskTail = tcam.maskTail

theorem hits_of_search (h : Searchable tcam n m) {flow : Block mtchFldLen} {maskPos : ℤ}
    {found : ℤ × TcamUnit × ℤ} (hfound : searchTcam tcam flow maskPos = some found) (p : ℕ) :
    (found.2.1.flow p).byte 46 = (tcam.flow p).byte 46 +
      if p < n ∧ entryMatches tcam flow p = true then 1 else 0 := by
  obtain ⟨b, hsearch, hb⟩ := searchTcam_spec h flow maskPos
  cases hfound.symm.trans hsearch
  change (slot b p).byte 46 = _
  rw [hb, hits_countedRows]

theorem finds_first_best (h : WellFormed tcam n m) (flow : Block mtchFldLen) (maskPos : ℤ) :
    ∃ pos tcam' maskPos', searchTcam tcam flow maskPos = some (pos, tcam', maskPos') ∧
      FindsFirstBest tcam flow pos tcam' maskPos' := by
  obtain ⟨b, hsearch, hb⟩ := searchTcam_spec h.searchable flow maskPos
  have hn := h.flowTail_toNat
  have hhits := hits_of_search h.searchable hsearch
  refine ⟨_, _, _, hsearch, posOf_ne_strErr _, ?_, ?_, by rwa [hn], fun p i hi => ?_, rfl, rfl,
    rfl, rfl, rfl⟩
  · refine Iff.trans ?_ (show chosen tcam flow = none ↔ _ from bestOf_eq_none_iff)
    cases chosen tcam flow with
    | none => exact iff_of_true rfl rfl
    | some p =>
      rw [posOf]
      exact iff_of_false (by omega) (Option.some_ne_none p)
  · intro hhit
    cases hp : chosen tcam flow with
    | none =>
      rw [hp] at hhit
      exact absurd rfl hhit
    | some p => exact ⟨p, rfl, rfl, bestOf_eq_some hp⟩
  · change (slot b p).byte i = _
    rw [hb, byte_countedRows p hi]

/-- Two overlapping entries: the second one has the higher priority. -/
theorem second_found :
    let tcam := tableAfter
      [.add (firstByte 255) (entryFor 1 7) (firstByte 1) (firstByte 0),
       .add (firstByte 15) (entryFor 1 9) (firstByte 2) (firstByte 0)]
    ∃ pos tcam' maskPos', searchTcam tcam (firstByte 1) 0 = some (pos, tcam', maskPos') ∧
      FindsFirstBest tcam (firstByte 1) pos tcam' maskPos' := by
  intro tcam
  have h : WellFormed tcam 2 2 := by decide +kernel
  exact finds_first_best h (firstByte 1) 0

section Markers

/-- Flows that agree on the match fields have the same search: the same position, the
same mask position, the same table afterwards. -/
def MarkerUnmatched (tcam : TcamUnit) : Prop :=
  ∀ flow flow' : Block mtchFldLen, (∀ q < 356, bit flow q = bit flow' q) → ∀ maskPos,
    ∃ found, searchTcam tcam flow maskPos = some found ∧
      searchTcam tcam flow' maskPos = some found

theorem entryMatches_congr {flow flow' : Block mtchFldLen}
    (hflow : ∀ q < 356, bit flow q = bit flow' q) {p : ℕ} (hmask : SelectsFields (tcam.maskOf p)) :
    entryMatches tcam flow p = entryMatches tcam flow' p := by
  refine decide_eq_decide.mpr (forall₂_congr fun q hq => ?_)
  rcases Nat.lt_or_ge q 356 with hlt | hge
  · rw [hflow q hlt]
  · rw [hmask q hq hge]
    exact iff_of_true (fun h => absurd h Bool.false_ne_true)
      fun h => absurd h Bool.false_ne_true

theorem searchTcam_congr (h : Searchable tcam n m) {flow flow' : Block mtchFldLen}
    (hsame : ∀ p < n, entryMatches tcam flow p = entryMatches tcam flow' p) (maskPos : ℤ) :
    ∃ found, searchTcam tcam flow maskPos = some found ∧
      searchTcam tcam flow' maskPos = some found := by
  obtain ⟨b, hsearch, hb⟩ := searchTcam_spec h flow maskPos
  obtain ⟨b', hsearch', hb'⟩ := searchTcam_spec h flow' maskPos
  have hchosen : chosen tcam flow = chosen tcam flow' := by
    rw [chosen, chosen, h.flowTail_toNat]
    exact bestOf_congr hsame
  have hrows : countedRows tcam flow n = countedRows tcam flow' n := by
    funext p
    rw [countedRows, countedRows]
    by_cases hp : p < n
    · rw [hsame p hp]
    · rw [if_neg fun hc => hp hc.1, if_neg fun hc => hp hc.1]
  have hbb : b = b' := slot_injective (by rw [hb, hb', hrows])
  exact ⟨_, hsearch, by rw [hchosen, hbb]; exact hsearch'⟩

/-- A mask that selects a bit behind the match fields tells two such flows apart. -/
theorem markerUnmatched_iff (h : Searchable tcam n m) :
    MarkerUnmatched tcam ↔ ∀ p < n, SelectsFields (tcam.maskOf p) := by
  constructor
  · intro hun p hp q hq hge
    by_contra hmask
    rw [Bool.not_eq_false] at hmask
    -- the match fields of the entry, and the same with bit `q` the other way round
    have hown := bit_matchFields tcam p hq
    obtain ⟨found, hsearch, hsearch'⟩ := hun (tcam.matchFields p)
      (putBit (tcam.matchFields p) q (!bit (tcam.flow p) q))
      (fun r hr => by rw [bit_putBit _ _ (show r < 360 by omega), if_neg (by omega)]) 0
    have hmiss : entryMatches tcam (putBit (tcam.matchFields p) q (!bit (tcam.flow p) q)) p =
        false := by
      refine decide_eq_false fun hagree => ?_
      have hbit := hagree q hq hmask
      rw [bit_putBit _ _ hq, if_pos rfl] at hbit
      exact Bool.not_ne_self _ hbit
    have hcounted := hits_of_search h hsearch p
    rw [entryMatches_own, if_pos ⟨hp, rfl⟩] at hcounted
    have hkept := hits_of_search h hsearch' p
    rw [hmiss, if_neg fun hc => Bool.false_ne_true hc.2] at hkept
    exact absurd ((UInt8.add_right_inj _).mp (hcounted.symm.trans hkept)) (by decide)
  · intro hmasks flow flow' hflow maskPos
    exact searchTcam_congr h (fun p hp => entryMatches_congr hflow (hmasks p hp)) maskPos

/-- One add. -/
structure NewEntry where
  mask : Block mtchFldLen
  flowEntry : FlowEntry
  actionSet : Block actnStLen
  flag : Block 2

def addCall (tcam : TcamUnit) (e : NewEntry) : Option TcamUnit := do
  let (_, tcam, _, _) ← addNewEntry tcam e.mask e.flowEntry e.actionSet e.flag
  some tcam

def emptied (tcam : TcamUnit) : TcamUnit := { tcam with flowTail := 0, maskTail := 0 }

/-- While the table has room, the mask does not select the marker's bit. -/
def LeavesMarkerOut (tcam : TcamUnit) (e : NewEntry) : Prop :=
  tcam.flowTail < noFFlws → bit e.mask 356 = false

/-- Each stored mask selects match-field bits only. -/
def FieldMasks (tcam : TcamUnit) : Prop :=
  ∃ n m, WellFormed tcam n m ∧ ∀ g < m, SelectsFields (tcam.mask g)

theorem FieldMasks.unmatched (h : FieldMasks tcam) : MarkerUnmatched tcam := by
  obtain ⟨n, m, hwell, hmasks⟩ := h
  exact (markerUnmatched_iff hwell.searchable).mpr fun p hp =>
    hmasks _ (group_lt hwell.toGrouped hp)

theorem fieldMasks_emptied (tcam : TcamUnit) : FieldMasks (emptied tcam) :=
  ⟨0, 0, ⟨(refines_start tcam).grouped, fun h0 => absurd h0 (Nat.lt_irrefl 0), fun _ => rfl⟩,
    fun g hg => absurd hg (Nat.not_lt_zero g)⟩

theorem selectsFields_clearSpare {mask : Block mtchFldLen} (h : bit mask 356 = false) :
    SelectsFields (clearSpare mask) := by
  intro q hq hge
  rw [bit_clearSpare mask hq]
  split_ifs with hspare
  · rfl
  · rwa [show q = 356 by omega]

theorem addCall_fieldMasks (tcam : TcamUnit) (e : NewEntry) (h : FieldMasks tcam)
    (hmask : LeavesMarkerOut tcam e) : ∃ tcam', addCall tcam e = some tcam' ∧ FieldMasks tcam' := by
  obtain ⟨n, m, hwell, hmasks⟩ := h
  obtain ⟨r, hadd, hr⟩ := addNewEntry_outcome hwell e.mask e.flowEntry e.actionSet e.flag
  refine ⟨r.2.1, bind_some_of hadd rfl, ?_⟩
  cases hr with
  | full hfull => exact ⟨n, m, hwell, hmasks⟩
  | redundant hn hg htakes => exact ⟨n, m, hwell, hmasks⟩
  | inGroup hn hg htakes hs he hrow hsame hmaskTail =>
    refine ⟨n + 1, m, added_wellFormed hwell
      (added_in_group hwell.toGrouped hn hg hs he hrow hsame hmaskTail), ?_⟩
    rw [hsame]
    exact hmasks
  | newGroup hn hm hnew hrow hnext hmaskTail =>
    refine ⟨n + 1, m + 1, added_wellFormed hwell
      (added_with_mask hwell.toGrouped hn hm hwell.empty hnew hrow hnext hmaskTail), fun g hg => ?_⟩
    rw [hnext]
    rcases Nat.lt_succ_iff_lt_or_eq.mp hg with hlt | rfl
    · rw [Function.update_of_ne hlt.ne]
      exact hmasks g hlt
    · rw [Function.update_self]
      exact selectsFields_clearSpare (hmask (hwell.flowTail_lt hn))

theorem maskOf_new_group (h : WellFormed tcam n m) (hn : n < noFFlws) (hm : m < noFFlws)
    {mask : Block mtchFldLen} {flowEntry : FlowEntry} {actionSet : Block actnStLen} {flag : Block 2}
    (hrow : RowInserted tcam tcam' n n (putBit flowEntry 356 (decide (0 < n))) actionSet flag)
    (hmask : tcam'.mask = Function.update tcam.mask m (clearSpare mask))
    (hmaskTail : tcam'.maskTail = (m + 1 : ℕ)) : tcam'.maskOf n = clearSpare mask := by
  have hmark : bit (putBit flowEntry 356 (decide (0 < n))) 356 = decide (0 < n) := by
    rw [bit_putBit _ _ (by decide), if_pos rfl]
  rw [(inserted_with_mask hrow h.toGrouped hn hm h.empty hmark hmask hmaskTail).2 n le_rfl, openAt,
    if_neg (Nat.lt_irrefl n), if_pos rfl]

/-- A mask that selects the marker's bit is not among the stored ones, so it is stored
with a group of its own. -/
theorem addCall_matchesMarker (tcam : TcamUnit) (e : NewEntry) (h : FieldMasks tcam)
    (hmask : ¬ LeavesMarkerOut tcam e) :
    ∀ tcam', addCall tcam e = some tcam' → ¬ MarkerUnmatched tcam' := by
  intro tcam' htcam' hun
  rw [LeavesMarkerOut, Classical.not_imp, Bool.not_eq_false] at hmask
  obtain ⟨hroom, hbit⟩ := hmask
  obtain ⟨n, m, hwell, hmasks⟩ := h
  obtain ⟨r, hadd, hr⟩ := addNewEntry_outcome hwell e.mask e.flowEntry e.actionSet e.flag
  cases htcam'.symm.trans (bind_some_of hadd rfl)
  have hunstored : ∀ g, ¬ FirstStored tcam m e.mask g := by
    intro g hg
    have hclear := hmasks g hg.lt 356 (by decide) le_rfl
    rw [hg.equal, hbit] at hclear
    cases hclear
  cases hr with
  | full hfull => exact absurd (hwell.tails.full hfull) (not_le.mpr hroom)
  | redundant hn hg htakes => exact hunstored _ hg
  | inGroup hn hg htakes hs he hrow hsame hmaskTail => exact hunstored _ hg
  | newGroup hn hm hnew hrow hnext hmaskTail =>
    have hadded := added_with_mask hwell.toGrouped hn hm hwell.empty hnew hrow hnext hmaskTail
    have hlast := maskOf_new_group hwell hn hm hrow hnext hmaskTail
    have hclear := (markerUnmatched_iff (added_wellFormed hwell hadded).searchable).mp hun n
      (Nat.lt_succ_self n) 356 (by decide) le_rfl
    rw [hlast, bit_clearSpare _ (by decide), if_neg (by decide), hbit] at hclear
    cases hclear

theorem marker_unmatched_run (tcam : TcamUnit) (es : List NewEntry) :
    Throughout addCall MarkerUnmatched (emptied tcam) es ↔
      Along addCall LeavesMarkerOut (emptied tcam) es :=
  throughout_iff_along FieldMasks addCall_fieldMasks addCall_matchesMarker
    (fun _ h => h.unmatched) (fieldMasks_emptied tcam)

/-- One entry whose mask selects byte 0 and the marker's bit: a flow that has this bit set
does not find it, the flow with the same match fields and the bit clear does. -/
theorem marker_selected :
    ¬ Throughout addCall MarkerUnmatched (emptied zeroedTcamUnit)
      [⟨Block.ofFn fun i => if i = 0 then 255 else if i = 44 then 8 else 0, entryFor 1 7,
        firstByte 1, firstByte 0⟩] := by
  intro h
  obtain ⟨tcam, hrun, hun⟩ := h.last
  obtain ⟨found, hsearch, hsearch'⟩ := hun (firstByte 1)
    (Block.ofFn fun i => if i = 0 then 1 else if i = 44 then 8 else 0) (by decide +kernel) 0
  have hpos : (run addCall (emptied zeroedTcamUnit)
      [⟨Block.ofFn fun i => if i = 0 then 255 else if i = 44 then 8 else 0, entryFor 1 7,
        firstByte 1, firstByte 0⟩]).bind (fun tcam =>
      (searchTcam tcam (firstByte 1) 0).bind fun found =>
        (searchTcam tcam (Block.ofFn fun i => if i = 0 then 1 else if i = 44 then 8 else 0) 0).map
          fun found' => (found.1, found'.1)) = some (0, -1) := by
    decide +kernel
  rw [hrun, Option.bind_some, hsearch, Option.bind_some, hsearch', Option.map_some,
    Option.some.injEq, Prod.mk.injEq] at hpos
  cases hpos.1.symm.trans hpos.2

end Markers

end NetWalk.SearchOutcomes
