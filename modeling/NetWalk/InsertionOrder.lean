import NetWalk.AddOutcomes

/-!
# The order of two adds

Two rules added in one order or the other end up at different positions of
different tables. What a search makes of a row is its `View`: the flows it
matches, its priority, its action set and its flag. The views of the two tables
are the same but for the two new rows, which stand next to each other in either
order when they belong to one group, and in the same order otherwise. So every
lookup ends the same way, if no flow can tie between the two.
-/
namespace NetWalk.InsertionOrder
open ByteBlock BitOperations SlotTable RowSequence PriorityScan FlowTables FlowSearch FlowAdd
open FlowRows FlowCache FlowRuns GroupRuns AddOutcomes
variable {tcam tcam' : TcamUnit} {n m : ℕ}

structure View where
  hits : Block mtchFldLen → Bool
  priority : ℕ
  actionSet : Block actnStLen
  flag : Block 2

def viewOf {k : ℕ} (mask : Block mtchFldLen) (entry : Block k) (actionSet : Block actnStLen)
    (flag : Block 2) : View :=
  ⟨fun flow => decide (Agree mask flow entry), (entry.byte 45).toNat, actionSet, flag⟩

def view (tcam : TcamUnit) (p : ℕ) : View :=
  viewOf (tcam.maskOf p) (tcam.flow p) (tcam.action p) (tcam.flag p)

def views (tcam : TcamUnit) : List View := firstRows (view tcam) tcam.flowTail.toNat

theorem viewOf_congr {k k' : ℕ} {mask : Block mtchFldLen} {entry : Block k} {entry' : Block k'}
    (hbits : ∀ q < 8 * mtchFldLen, bit mask q = true → bit entry q = bit entry' q)
    (hprio : entry.byte 45 = entry'.byte 45) (actionSet : Block actnStLen) (flag : Block 2) :
    viewOf mask entry actionSet flag = viewOf mask entry' actionSet flag := by
  simp only [viewOf, hprio, View.mk.injEq, and_true]
  funext flow
  rw [decide_eq_decide]
  constructor
  · exact fun h q hq hm => (h q hq hm).trans (hbits q hq hm)
  · exact fun h q hq hm => (h q hq hm).trans (hbits q hq hm).symm

theorem viewOf_freshEntry {k : ℕ} (mask : Block mtchFldLen) (entry : Block k)
    (actionSet : Block actnStLen) (flag : Block 2) :
    viewOf mask (freshEntry entry) actionSet flag = viewOf mask entry actionSet flag :=
  viewOf_congr (fun q hq _ => bit_freshEntry entry (show q < 8 * 46 from hq.trans (by decide)))
    (byte_freshEntry entry (by decide)) actionSet flag

theorem viewOf_putMarker {mask : Block mtchFldLen} (hmask : SelectsFields mask)
    (entry : FlowEntry) (x : Bool) (actionSet : Block actnStLen) (flag : Block 2) :
    viewOf mask (putBit entry 356 x) actionSet flag = viewOf mask entry actionSet flag := by
  refine viewOf_congr (fun q hq hm => ?_) (byte_putBit entry x (by decide) (by decide)) _ _
  rw [bit_putBit entry x (show q < 8 * 46 from hq.trans (by decide)), if_neg]
  rintro rfl
  rw [hmask 356 hq le_rfl] at hm
  cases hm

theorem views_inserted {pos : ℕ} {mask : Block mtchFldLen} {flowEntry : FlowEntry}
    {actionSet : Block actnStLen} {flag : Block 2}
    (h : RowInserted tcam tcam' n pos flowEntry actionSet flag) (htail : tcam.flowTail = n)
    (hpos : pos ≤ n) (hmask : ∀ k ≤ n, tcam'.maskOf k = openAt tcam.maskOf pos mask k) :
    views tcam' = (views tcam).insertIdx pos (viewOf mask flowEntry actionSet flag) := by
  have hview : ∀ k < n + 1, view tcam' k =
      openAt (view tcam) pos (viewOf mask (freshEntry flowEntry) actionSet flag) k :=
    fun k hk => inserted_row viewOf (fun mask entry => viewOf_freshEntry mask entry) h
      (by omega) (hmask k (by omega))
  have hn : tcam.flowTail.toNat = n := by
    rw [htail, Int.toNat_natCast]
  rw [views, views, hn, h.flowTail_toNat, firstRows_congr hview, firstRows_insertIdx _ hpos,
    viewOf_freshEntry]

section Places

/-- The position of the first mask equal to the given one, or the end of the masks. -/
def MaskIndex (tcam : TcamUnit) (m : ℕ) (mask : Block mtchFldLen) (g : ℕ) : Prop :=
  FirstStored tcam m mask g ∨ (∀ j < m, tcam.mask j ≠ mask) ∧ g = m

theorem MaskIndex.unique {mask : Block mtchFldLen} {g g' : ℕ} (h : MaskIndex tcam m mask g)
    (h' : MaskIndex tcam m mask g') : g' = g := by
  rcases h with hg | ⟨hnew, rfl⟩
  · rcases h' with hg' | ⟨hnew, -⟩
    · exact hg.unique hg'
    · exact absurd hg.equal (hnew g hg.lt)
  · rcases h' with hg' | ⟨-, hg'⟩
    · exact absurd hg'.equal (hnew g' hg'.lt)
    · exact hg'

/-- The entries of the groups up to `g` are those in front of `pos`. -/
structure Place (tcam : TcamUnit) (n g pos : ℕ) : Prop where
  le : pos ≤ n
  before : ∀ q < n, tcam.group q ≤ g ↔ q < pos

theorem Place.unique {g pos pos' : ℕ} (h : Place tcam n g pos) (h' : Place tcam n g pos') :
    pos = pos' := by
  have hle := h.le
  have hle' := h'.le
  rcases Nat.lt_trichotomy pos pos' with hlt | heq | hgt
  · have := (h.before pos (by omega)).mp ((h'.before pos (by omega)).mpr hlt)
    omega
  · exact heq
  · have := (h'.before pos' (by omega)).mp ((h.before pos' (by omega)).mpr hgt)
    omega

theorem Place.mono {g g' pos pos' : ℕ} (h : Place tcam n g pos) (h' : Place tcam n g' pos')
    (hg : g ≤ g') : pos ≤ pos' := by
  by_contra hlt
  have hle := h.le
  have hin := (h.before pos' (by omega)).mpr (by omega)
  have := (h'.before pos' (by omega)).mp (hin.trans hg)
  omega

theorem place_groupEnd {g s e : ℕ} (hs : GroupStart tcam n g s) (he : GroupEnd tcam n s e) :
    Place tcam n g e := by
  refine ⟨he.le, fun q hq => ⟨fun hle => ?_, fun hlt => ?_⟩⟩
  · rcases Nat.lt_or_eq_of_le hle with hlt | heq
    · by_contra hge
      have hmono : tcam.group s ≤ tcam.group q :=
        marks_mono tcam.marker (by have := he.lt; omega)
      rw [hs.group] at hmono
      omega
    · exact ((group_eq_iff hs he hq).mp heq).2
  · rcases Nat.lt_or_ge q s with hqs | hsq
    · exact (hs.first q hqs).le
    · exact ((group_eq_iff hs he hq).mpr ⟨hsq, hlt⟩).le

theorem place_end (h : Grouped tcam n m) : Place tcam n m n :=
  ⟨le_rfl, fun _ hq => iff_of_true (group_lt h hq).le hq⟩

/-- A row put behind the groups up to `g` moves the places behind it by one. -/
theorem Place.inserted {g pos : ℕ} (h : Place tcam n g pos)
    (hgroup : ∀ k ≤ n, tcam'.group k = openAt tcam.group pos g k) {g₂ pos₂ : ℕ}
    (h₂ : Place tcam n g₂ pos₂) :
    Place tcam' (n + 1) g₂ (if g₂ < g then pos₂ else pos₂ + 1) := by
  have hle₂ := h₂.le
  refine ⟨by split_ifs <;> omega, fun q hq => ?_⟩
  rw [hgroup q (by omega), openAt]
  rcases Nat.lt_or_ge g₂ g with hlt | hge
  · have hpos := h₂.mono h hlt.le
    rw [if_pos hlt]
    split_ifs with hbefore hself
    · exact h₂.before q (by have := h.le; omega)
    · exact iff_of_false (not_le.mpr hlt) (by omega)
    · refine iff_of_false (fun hle => ?_) (by omega)
      have := (h.before (q - 1) (by omega)).mp (hle.trans hlt.le)
      omega
  · have hpos := h.mono h₂ hge
    rw [if_neg (not_lt.mpr hge)]
    split_ifs with hbefore hself
    · have hin := (h.before q (by have := h.le; omega)).mpr hbefore
      exact iff_of_true (hin.trans hge) (by omega)
    · exact iff_of_true hge (by omega)
    · have := h₂.before (q - 1) (by omega)
      rw [this]
      omega

end Places

section Installing
variable {mask : Block mtchFldLen} {flowEntry : FlowEntry} {actionSet : Block actnStLen}
  {flag : Block 2}

/-- An add that is not refused. -/
def Installs (tcam : TcamUnit) (mask : Block mtchFldLen) (flowEntry : FlowEntry)
    (actionSet : Block actnStLen) (flag : Block 2) (tcam' : TcamUnit) : Prop :=
  ∃ pos mask' flowEntry', addNewEntry tcam mask flowEntry actionSet flag =
    some (pos, tcam', mask', flowEntry') ∧ 0 ≤ pos

/-- A view has been inserted behind the groups up to `g`, and any mask is still
found where it was, or behind all groups. -/
structure Installed (tcam tcam' : TcamUnit) (n m m' g pos : ℕ) (mask : Block mtchFldLen)
    (v : View) : Prop where
  index : MaskIndex tcam m mask g
  place : Place tcam n g pos
  wellFormed : WellFormed tcam' (n + 1) m'
  group : ∀ k ≤ n, tcam'.group k = openAt tcam.group pos g k
  views : views tcam' = (views tcam).insertIdx pos v
  later : ∀ mask₂ g₂ g', MaskIndex tcam m mask₂ g₂ → MaskIndex tcam' m' mask₂ g' →
    g' = g₂ ∨ ∀ k ≤ n, tcam'.group k ≤ g₂ ∧ tcam'.group k ≤ g'

theorem maskIndex_congr {mask₂ : Block mtchFldLen} {g : ℕ} (hmask : tcam'.mask = tcam.mask)
    (h : MaskIndex tcam' m mask₂ g) : MaskIndex tcam m mask₂ g := by
  rcases h with hg | ⟨hnew, hg⟩
  · exact .inl ⟨hg.lt, hmask ▸ hg.equal, hmask ▸ hg.before⟩
  · exact .inr ⟨hmask ▸ hnew, hg⟩

theorem installed_in_group (h : WellFormed tcam n m) (hn : n < noFFlws) {g s e : ℕ}
    (hg : FirstStored tcam m mask g) (hs : GroupStart tcam n g s) (he : GroupEnd tcam n s e)
    (hrow : RowInserted tcam tcam' n e (putBit flowEntry 356 false) actionSet flag)
    (hmask : tcam'.mask = tcam.mask) (hmaskTail : tcam'.maskTail = m)
    (hfields : SelectsFields mask) :
    Installed tcam tcam' n m m g e mask (viewOf mask flowEntry actionSet flag) := by
  have hclear : bit (putBit flowEntry 356 false) 356 = false := by
    rw [bit_putBit _ _ (by decide), if_pos rfl]
  have hmaskOf := (inserted_in_group hrow h.toGrouped hn hs he hclear hmask hmaskTail).2
  rw [hg.equal] at hmaskOf
  refine ⟨.inl hg, place_groupEnd hs he,
    added_wellFormed h (added_in_group h.toGrouped hn hg hs he hrow hmask hmaskTail),
    fun k hk => inserted_group_end hrow hs he hclear hk, ?_, ?_⟩
  · rw [views_inserted hrow h.flowTail he.le hmaskOf, viewOf_putMarker hfields]
  · exact fun mask₂ g₂ g' hg₂ hg' => .inl (hg₂.unique (maskIndex_congr hmask hg'))

theorem installed_new_group (h : WellFormed tcam n m) (hn : n < noFFlws) (hm : m < noFFlws)
    (hnew : ∀ g < m, tcam.mask g ≠ mask)
    (hrow : RowInserted tcam tcam' n n (putBit flowEntry 356 (decide (0 < n))) actionSet flag)
    (hmask : tcam'.mask = Function.update tcam.mask m (clearSpare mask))
    (hmaskTail : tcam'.maskTail = (m + 1 : ℕ)) (hfields : SelectsFields mask) :
    Installed tcam tcam' n m (m + 1) m n mask (viewOf mask flowEntry actionSet flag) := by
  have hmark : bit (putBit flowEntry 356 (decide (0 < n))) 356 = decide (0 < n) := by
    rw [bit_putBit _ _ (by decide), if_pos rfl]
  have hwell := added_wellFormed h
    (added_with_mask h.toGrouped hn hm h.empty hnew hrow hmask hmaskTail)
  have hmaskOf := (inserted_with_mask hrow h.toGrouped hn hm h.empty hmark hmask hmaskTail).2
  rw [clearSpare_eq_self fun q hq hlt => hfields q hlt (by omega)] at hmaskOf
  refine ⟨.inr ⟨hnew, rfl⟩, place_end h.toGrouped, hwell,
    fun k hk => inserted_group_new hrow h.toGrouped h.empty hmark hk, ?_, ?_⟩
  · rw [views_inserted hrow h.flowTail le_rfl hmaskOf, viewOf_putMarker hfields]
  · intro mask₂ g₂ g' hg₂ hg'
    have hsame : ∀ j < m, tcam'.mask j = tcam.mask j := by
      intro j hj
      rw [hmask, Function.update_of_ne (by omega)]
    rcases hg₂ with hg₂ | ⟨hnew₂, rfl⟩
    · have hlt := hg₂.lt
      have hstored : FirstStored tcam' (m + 1) mask₂ g₂ := by
        refine ⟨by omega, by rw [hsame g₂ hlt, hg₂.equal], fun j hj => ?_⟩
        rw [hsame j (by omega)]
        exact hg₂.before j hj
      exact .inl (MaskIndex.unique (.inl hstored) hg')
    · have hge : g₂ ≤ g' := by
        rcases hg' with hg' | ⟨-, rfl⟩
        · by_contra hlt
          exact hnew₂ g' (by omega) ((hsame g' (by omega)).symm.trans hg'.equal)
        · omega
      refine .inr fun k hk => ?_
      have := group_lt hwell.toGrouped (show k < n + 1 by omega)
      omega

theorem installs_spec (h : WellFormed tcam n m) (hfields : SelectsFields mask)
    (hadd : Installs tcam mask flowEntry actionSet flag tcam') :
    ∃ m' g pos, Installed tcam tcam' n m m' g pos mask
      (viewOf mask flowEntry actionSet flag) := by
  obtain ⟨pos, mask', flowEntry', hadd, hpos⟩ := hadd
  obtain ⟨r, hr, houtcome⟩ := addNewEntry_outcome h mask flowEntry actionSet flag
  cases hr.symm.trans hadd
  cases houtcome with
  | full hfull => exact absurd hpos (by decide)
  | redundant hn hg htakes => exact absurd hpos (by decide)
  | inGroup hn hg htakes hs he hrow hmask hmaskTail =>
    exact ⟨_, _, _, installed_in_group h hn hg hs he hrow hmask hmaskTail hfields⟩
  | newGroup hn hm hnew hrow hmask hmaskTail =>
    exact ⟨_, _, _, installed_new_group h hn hm hnew hrow hmask hmaskTail hfields⟩

/-- Where a rule goes that is added second. -/
theorem Installed.second {t₁ t₁' t₂ : TcamUnit} {m₁ m₁' m₂ gx gy g ex ey e : ℕ}
    {mx my : Block mtchFldLen} {vx vy : View} (hx : Installed tcam t₁ n m m₁ gx ex mx vx)
    (hy : Installed tcam t₁' n m m₁' gy ey my vy)
    (hsecond : Installed t₁ t₂ (n + 1) m₁ m₂ g e my vy) :
    e = if gy < gx then ey else ey + 1 := by
  have hplace := hx.place.inserted hx.group hy.place
  rcases hx.later my gy g hy.index hsecond.index with rfl | hall
  · exact hsecond.place.unique hplace
  · have hsame : Place t₁ (n + 1) gy e := by
      refine ⟨hsecond.place.le, fun q hq => ?_⟩
      obtain ⟨hgy, hg⟩ := hall q (by omega)
      rw [← hsecond.place.before q hq]
      exact iff_of_true hgy hg
    exact hsame.unique hplace

/-- The two orders differ at most in which of the new rows comes first. -/
theorem pick_views_comm (flow : Block mtchFldLen) {t₁ t₁' t₂ t₂' : TcamUnit}
    {m₁ m₁' m₂ m₂' gx gx' gy gy' ex ex' ey ey' : ℕ}
    {mx my : Block mtchFldLen} {vx vy : View} (hn : (views tcam).length = n)
    (hx : Installed tcam t₁ n m m₁ gx ex mx vx)
    (hxy : Installed t₁ t₂ (n + 1) m₁ m₂ gy' ey' my vy)
    (hy : Installed tcam t₁' n m m₁' gy ey my vy)
    (hyx : Installed t₁' t₂' (n + 1) m₁' m₂' gx' ex' mx vx)
    (htie : vx.priority ≠ vy.priority ∨ ¬ (vx.hits flow = true ∧ vy.hits flow = true)) :
    pick (fun v => v.hits flow) View.priority (views t₂) =
      pick (fun v => v.hits flow) View.priority (views t₂') := by
  have hley := hy.place.le
  have hlex := hx.place.le
  rw [hxy.views, hx.views, hyx.views, hy.views, hx.second hy hxy, hy.second hx hyx]
  rcases Nat.lt_trichotomy gx gy with hlt | rfl | hgt
  · have hle := hx.place.mono hy.place hlt.le
    rw [if_neg (by omega), if_pos hlt, List.insertIdx_comm vx vy hle (by omega)]
  · obtain rfl := hx.place.unique hy.place
    rw [if_neg (Nat.lt_irrefl gx)]
    exact pick_swap htie _ _
  · have hle := hy.place.mono hx.place hgt.le
    rw [if_pos hgt, if_neg (by omega), List.insertIdx_comm vy vx hle (by omega)]

end Installing

/-- Both lookups miss, or both copy out the same action set and find the same
flag at their positions. -/
def SameLookup (found found' : Lookup) : Prop :=
  found.pos = -1 ∧ found'.pos = -1 ∨ ∃ p p' : ℕ, found.pos = p ∧ found'.pos = p' ∧
    found.actionSet = found'.actionSet ∧ found.tcam.flag p = found'.tcam.flag p'

section Looking
variable {cache : Cache}

/-- What a lookup finds is a view. -/
def FindsView (best : Option View) (found : Lookup) : Prop :=
  match best with
  | none => found.pos = -1
  | some v => ∃ p : ℕ, found.pos = p ∧ found.actionSet = v.actionSet ∧ found.tcam.flag p = v.flag

theorem pick_views (tcam : TcamUnit) (flow : Block mtchFldLen) :
    pick (fun v => v.hits flow) View.priority (views tcam) =
      (chosen tcam flow).map (view tcam) := by
  have hhits : (fun p => (view tcam p).hits flow) = entryMatches tcam flow := by
    funext p
    rw [entryMatches, view, viewOf]
  have hprio : (fun p => (view tcam p).priority) = tcam.priority := rfl
  rw [views, firstRows, pick_map_range, hhits, hprio, chosen]

theorem searchFlow_view (h : Grouped tcam n m) (htop : 1 ≤ cache.cacheTop)
    (htop' : cache.cacheTop ≤ cacheSize) (flow : Block mtchFldLen) (actionSet : Block actnStLen)
    (maskPos : ℤ) :
    ∃ found, searchFlow tcam cache flow actionSet maskPos = some found ∧
      FindsView (pick (fun v => v.hits flow) View.priority (views tcam)) found := by
  obtain ⟨b, hsearch, -⟩ := searchTcam_spec h.searchable flow maskPos
  rw [pick_views]
  cases hchosen : chosen tcam flow with
  | none =>
    rw [hchosen] at hsearch
    exact ⟨_, searchFlow_miss hsearch (by decide) actionSet, rfl⟩
  | some p =>
    have hp : p < n := by
      have hlt := (bestOf_eq_some hchosen).lt
      rwa [h.flowTail_toNat] at hlt
    rw [hchosen] at hsearch
    obtain ⟨cache', hfound, -⟩ := searchFlow_hit hsearch (hp.trans_le h.flow_le) htop htop'
      actionSet
    exact ⟨_, hfound, p, rfl, rfl, rfl⟩

theorem sameLookup_of_view {best : Option View} {found found' : Lookup}
    (h : FindsView best found) (h' : FindsView best found') : SameLookup found found' := by
  cases best with
  | none => exact .inl ⟨h, h'⟩
  | some v =>
    obtain ⟨p, hp, hset, hflag⟩ := h
    obtain ⟨p', hp', hset', hflag'⟩ := h'
    exact .inr ⟨p, p', hp, hp', hset.trans hset'.symm, hflag.trans hflag'.symm⟩

end Looking

theorem order_irrelevant (h : WellFormed tcam n m) {mx my : Block mtchFldLen}
    {ex ey : FlowEntry} {ax ay : Block actnStLen} {fx fy : Block 2} {t₁ t₁' t₂ t₂' : TcamUnit}
    (hmx : SelectsFields mx) (hmy : SelectsFields my) (hx : Installs tcam mx ex ax fx t₁)
    (hxy : Installs t₁ my ey ay fy t₂) (hy : Installs tcam my ey ay fy t₁')
    (hyx : Installs t₁' mx ex ax fx t₂')
    (htie : ex.byte 45 ≠ ey.byte 45 ∨ ∀ flow : Block mtchFldLen,
      ¬ (Agree mx flow ex ∧ Agree my flow ey))
    {cache cache' : Cache} (htop : 1 ≤ cache.cacheTop ∧ cache.cacheTop ≤ cacheSize)
    (htop' : 1 ≤ cache'.cacheTop ∧ cache'.cacheTop ≤ cacheSize) (flow : Block mtchFldLen)
    (actionSet actionSet' : Block actnStLen) (maskPos maskPos' : ℤ) :
    ∃ found found', searchFlow t₂ cache flow actionSet maskPos = some found ∧
      searchFlow t₂' cache' flow actionSet' maskPos' = some found' ∧ SameLookup found found' := by
  obtain ⟨m₁, gx, px, hx⟩ := installs_spec h hmx hx
  obtain ⟨m₁', gy, py, hy⟩ := installs_spec h hmy hy
  obtain ⟨m₂, gy', py', hxy⟩ := installs_spec hx.wellFormed hmy hxy
  obtain ⟨m₂', gx', px', hyx⟩ := installs_spec hy.wellFormed hmx hyx
  have hlen : (views tcam).length = n := by
    rw [views, length_firstRows, h.flowTail_toNat]
  have hpick := pick_views_comm flow hlen hx hxy hy hyx (by
    rcases htie with hne | hnone
    · exact .inl fun heq => hne (UInt8.toNat_inj.mp heq)
    · refine .inr fun hboth => hnone flow ?_
      simpa only [viewOf, decide_eq_true_eq] using hboth)
  obtain ⟨found, hfound, hview⟩ := searchFlow_view hxy.wellFormed.toGrouped htop.1 htop.2
    flow actionSet maskPos
  obtain ⟨found', hfound', hview'⟩ := searchFlow_view hyx.wellFormed.toGrouped htop'.1
    htop'.2 flow actionSet' maskPos'
  rw [hpick] at hview
  exact ⟨found, found', hfound, hfound', sameLookup_of_view hview hview'⟩

theorem installs_two (tcam : TcamUnit) (mx my : Block mtchFldLen) (ex ey : FlowEntry)
    (ax ay : Block actnStLen) (fx fy : Block 2)
    (h : ((addNewEntry tcam mx ex ax fx).bind fun r => (addNewEntry r.2.1 my ey ay fy).map
      fun r' => decide (0 ≤ r.1 ∧ 0 ≤ r'.1)) = some true) :
    ∃ t₁ t₂, Installs tcam mx ex ax fx t₁ ∧ Installs t₁ my ey ay fy t₂ := by
  obtain ⟨⟨pos, t₁, args⟩, hadd, hrest⟩ := Option.bind_eq_some_iff.mp h
  obtain ⟨⟨pos', t₂, args'⟩, hadd', hpos⟩ := Option.map_eq_some_iff.mp hrest
  rw [decide_eq_true_eq] at hpos
  exact ⟨t₁, t₂, ⟨pos, _, _, hadd, hpos.1⟩, pos', _, _, hadd', hpos.2⟩

/-- Two rules with overlapping masks and different priorities. -/
theorem overlapping_rules :
    let tcam := tableAfter [.add (firstByte 255) (entryFor 2 7) (firstByte 1) (firstByte 0)]
    ∃ t₁ t₁' t₂ t₂', Installs tcam (firstByte 255) (entryFor 1 7) (firstByte 2) (firstByte 1) t₁ ∧
      Installs t₁ (firstByte 15) (entryFor 1 9) (firstByte 3) (firstByte 2) t₂ ∧
      Installs tcam (firstByte 15) (entryFor 1 9) (firstByte 3) (firstByte 2) t₁' ∧
      Installs t₁' (firstByte 255) (entryFor 1 7) (firstByte 2) (firstByte 1) t₂' ∧
      ∃ found found',
        searchFlow t₂ (init zeroedCache) (firstByte 1) (firstByte 0) 0 = some found ∧
        searchFlow t₂' (init zeroedCache) (firstByte 1) (firstByte 0) 0 = some found' ∧
        SameLookup found found' := by
  intro tcam
  have h : WellFormed tcam 1 1 := by decide +kernel
  obtain ⟨t₁, t₂, hx, hxy⟩ := installs_two tcam (firstByte 255) (firstByte 15) (entryFor 1 7)
    (entryFor 1 9) (firstByte 2) (firstByte 3) (firstByte 1) (firstByte 2) (by decide +kernel)
  obtain ⟨t₁', t₂', hy, hyx⟩ := installs_two tcam (firstByte 15) (firstByte 255) (entryFor 1 9)
    (entryFor 1 7) (firstByte 3) (firstByte 2) (firstByte 2) (firstByte 1) (by decide +kernel)
  exact ⟨t₁, t₁', t₂, t₂', hx, hxy, hy, hyx, order_irrelevant h (by decide +kernel)
    (by decide +kernel) hx hxy hy hyx (.inl (by decide +kernel)) (by decide) (by decide)
    (firstByte 1) (firstByte 0) (firstByte 0) 0 0⟩

end NetWalk.InsertionOrder
