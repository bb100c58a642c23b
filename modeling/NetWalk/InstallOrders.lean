import NetWalk.ScanOrder
import NetWalk.InsertionOrder

/-!
# Any number of adds in any order

A new rule goes behind the groups up to that of its mask, and rules added before it move
this place but not the old rows in front of it. So the rows of the final table are the old
ones in their order, with each new rule at its place among them. If no two of the new
rules can tie, every lookup ends the same way whatever the order of the adds was.
-/
namespace NetWalk.InstallOrders
open ByteBlock BitOperations RowSequence PriorityScan ScanOrder FlowTables FlowSearch FlowAdd
open FlowRows FlowCache FlowRuns GroupRuns InsertionOrder

/-- The arguments of an add. -/
structure NewRule where
  mask : Block mtchFldLen
  flowEntry : FlowEntry
  actionSet : Block actnStLen
  flag : Block 2
deriving DecidableEq

def NewRule.view (r : NewRule) : View := viewOf r.mask r.flowEntry r.actionSet r.flag

/-- The adds are made one after the other, and none is refused. -/
def InstallsAll : TcamUnit → List NewRule → TcamUnit → Prop
  | tcam, [], tcam' => tcam' = tcam
  | tcam, r :: rs, tcam' =>
    ∃ t, Installs tcam r.mask r.flowEntry r.actionSet r.flag t ∧ InstallsAll t rs tcam'

/-- The two rules have different priorities, or no flow matches both. -/
def NoTie (x y : NewRule) : Prop :=
  x.flowEntry.byte 45 ≠ y.flowEntry.byte 45 ∨
    ∀ flow : Block mtchFldLen, ¬ (Agree x.mask flow x.flowEntry ∧ Agree y.mask flow y.flowEntry)

section Places
variable {tcam t t' : TcamUnit} {n m m' : ℕ}

theorem exists_maskIndex (t : TcamUnit) (m : ℕ) (mask : Block mtchFldLen) :
    ∃ g, MaskIndex t m mask g := by
  rcases firstStored_or_new t m mask with ⟨g, hg⟩ | hnew
  · exact ⟨g, .inl hg⟩
  · exact ⟨m, .inr ⟨hnew, rfl⟩⟩

/-- The groups up to `g` are in front, because groups are numbered in order. -/
theorem exists_place (t : TcamUnit) (n g : ℕ) : ∃ e, Place t n g e := by
  induction n with
  | zero => exact ⟨0, le_rfl, fun q hq => absurd hq (Nat.not_lt_zero q)⟩
  | succ n ih =>
    obtain ⟨e, hle, hbefore⟩ := ih
    by_cases hlast : t.group n ≤ g
    · refine ⟨n + 1, le_rfl, fun q hq => iff_of_true ?_ hq⟩
      have hmono : t.group q ≤ t.group n := marks_mono t.marker (by omega)
      exact hmono.trans hlast
    · refine ⟨e, hle.trans (Nat.le_succ n), fun q hq => ?_⟩
      rcases Nat.lt_succ_iff_lt_or_eq.mp hq with hlt | rfl
      · exact hbefore q hlt
      · exact iff_of_false hlast (by omega)

/-- Where the place of a mask is after an add. -/
theorem place_carried {g e gy ey : ℕ} {mask my : Block mtchFldLen} {v : View}
    (hx : Installed t t' n m m' g e mask v) (hy : MaskIndex t m my gy)
    (hplace : Place t n gy ey) :
    ∃ g', MaskIndex t' m' my g' ∧ Place t' (n + 1) g' (if gy < g then ey else ey + 1) := by
  obtain ⟨g', hg'⟩ := exists_maskIndex t' m' my
  have hcarried := hx.place.inserted hx.group hplace
  refine ⟨g', hg', ?_⟩
  rcases hx.later my gy g' hy hg' with rfl | hall
  · exact hcarried
  · refine ⟨hcarried.le, fun q hq => ?_⟩
    obtain ⟨hgy, hg⟩ := hall q (by omega)
    rw [← hcarried.before q hq]
    exact iff_of_true hg hgy

/-- The table holds the old rows and the new ones in `l`, where the old ones are marked, and
the place of each mask has as many old rows in front of it as `place` says. -/
structure Filed (place : Block mtchFldLen → ℕ) (t : TcamUnit) (n m : ℕ) (l : List (Bool × View)) :
    Prop where
  wellFormed : WellFormed t n m
  views : views t = l.map Prod.snd
  places : ∀ mask, ∃ g e, MaskIndex t m mask g ∧ Place t n g e ∧ oldBefore l e = place mask

theorem Filed.length {place : Block mtchFldLen → ℕ} {l : List (Bool × View)}
    (h : Filed place t n m l) : l.length = n := by
  have hlen := congrArg List.length h.views
  rw [InsertionOrder.views, length_firstRows, h.wellFormed.flowTail_toNat, List.length_map] at hlen
  exact hlen.symm

theorem filed_start (h : WellFormed tcam n m) :
    ∃ place, Filed place tcam n m ((views tcam).map (Prod.mk true)) := by
  have hplace : ∀ mask, ∃ k g e, MaskIndex tcam m mask g ∧ Place tcam n g e ∧
      oldBefore ((views tcam).map (Prod.mk true)) e = k := by
    intro mask
    obtain ⟨g, hg⟩ := exists_maskIndex tcam m mask
    obtain ⟨e, he⟩ := exists_place tcam n g
    exact ⟨_, g, e, hg, he, rfl⟩
  choose place hplace using hplace
  refine ⟨place, h, ?_, hplace⟩
  rw [List.map_map]
  exact (List.map_id _).symm

/-- One add files one new view at the place of its mask. -/
theorem Filed.insert {place : Block mtchFldLen → ℕ} {l : List (Bool × View)}
    (h : Filed place t n m l) {r : NewRule} (hfields : SelectsFields r.mask)
    (hadd : Installs t r.mask r.flowEntry r.actionSet r.flag t') :
    ∃ m' l', Filed place t' (n + 1) m' l' ∧
      (keyed 0 l').Perm ((2 * place r.mask, r.view) :: keyed 0 l) := by
  obtain ⟨m', g, e, hx⟩ := installs_spec h.wellFormed hfields hadd
  have hlen := h.length
  have he : e ≤ l.length := hlen ▸ hx.place.le
  refine ⟨m', l.insertIdx e (false, r.view), ⟨hx.wellFormed, ?_, fun my => ?_⟩, ?_⟩
  · rw [hx.views, h.views, List.map_insertIdx]
    rfl
  · obtain ⟨gy, ey, hgy, hey, hcount⟩ := h.places my
    obtain ⟨g', hg', hplace'⟩ := place_carried hx hgy hey
    refine ⟨g', _, hg', hplace', ?_⟩
    rw [← hcount]
    split_ifs with hlt
    · exact oldBefore_insert_front l (hey.mono hx.place hlt.le) _
    · exact oldBefore_insert_behind l (hx.place.mono hey (not_lt.mp hlt)) (hlen ▸ hey.le) _
  · obtain ⟨g', e', hg', he', hcount⟩ := h.places r.mask
    cases hx.index.unique hg'
    cases hx.place.unique he'
    rw [← hcount]
    exact keyed_insert_perm l he r.view

/-- The numbered elements after any number of adds. -/
theorem Filed.insertAll {place : Block mtchFldLen → ℕ} {l : List (Bool × View)} {rs : List NewRule}
    (h : Filed place t n m l) (hfields : ∀ r ∈ rs, SelectsFields r.mask)
    (hall : InstallsAll t rs t') :
    ∃ n' m' l', Filed place t' n' m' l' ∧
      (keyed 0 l').Perm (rs.map (fun r => (2 * place r.mask, r.view)) ++ keyed 0 l) := by
  induction rs generalizing t n m l with
  | nil =>
    cases hall
    exact ⟨n, m, l, h, .refl _⟩
  | cons r rs ih =>
    obtain ⟨t₁, hadd, hrest⟩ := hall
    obtain ⟨m₁, l₁, h₁, hperm₁⟩ := h.insert (hfields r List.mem_cons_self) hadd
    obtain ⟨n', m', l', h', hperm⟩ :=
      ih h₁ (fun r hr => hfields r (List.mem_cons_of_mem _ hr)) hrest
    exact ⟨n', m', l', h', hperm.trans ((hperm₁.append_left _).trans List.perm_middle)⟩

end Places

section Orders
variable {tcam t t' : TcamUnit} {n m : ℕ} {rs rs' : List NewRule}

/-- Two numbered elements that tie for a flow are the same. -/
theorem tie_eq {place : Block mtchFldLen → ℕ} {old : List View}
    (htie : ∀ x ∈ rs, ∀ y ∈ rs, x ≠ y → NoTie x y) (flow : Block mtchFldLen) {a b : ℕ × View}
    (ha : a ∈ rs.map (fun r => (2 * place r.mask, r.view)) ++ keyed 0 (old.map (Prod.mk true)))
    (hb : b ∈ rs.map (fun r => (2 * place r.mask, r.view)) ++ keyed 0 (old.map (Prod.mk true)))
    (hahit : a.2.hits flow = true) (hbhit : b.2.hits flow = true)
    (hprio : a.2.priority = b.2.priority) (hkey : a.1 = b.1) : a = b := by
  rcases List.mem_append.mp ha with ha | ha
  · obtain ⟨x, hx, rfl⟩ := List.mem_map.mp ha
    rcases List.mem_append.mp hb with hb | hb
    · obtain ⟨y, hy, rfl⟩ := List.mem_map.mp hb
      by_cases hxy : x = y
      · rw [hxy]
      · have hbyte : (x.flowEntry.byte 45).toNat = (y.flowEntry.byte 45).toNat := hprio
        rcases htie x hx y hy hxy with hne | hnone
        · exact absurd (UInt8.toNat_inj.mp hbyte) hne
        · simp only [NewRule.view, viewOf, decide_eq_true_eq] at hahit hbhit
          exact absurd ⟨hahit, hbhit⟩ (hnone flow)
    · obtain ⟨i, hi, -⟩ := mem_keyed_old hb
      simp only at hkey
      omega
  · obtain ⟨i, hi, hai⟩ := mem_keyed_old ha
    rcases List.mem_append.mp hb with hb | hb
    · obtain ⟨y, hy, rfl⟩ := List.mem_map.mp hb
      simp only at hkey
      omega
    · obtain ⟨j, hj, hbj⟩ := mem_keyed_old hb
      obtain rfl : i = j := by omega
      exact Prod.ext hkey (Option.some.inj (hai.symm.trans hbj))

/-- What a lookup picks is picked from the numbered elements. -/
theorem Filed.pick_eq {place : Block mtchFldLen → ℕ} {l : List (Bool × View)}
    (h : Filed place t n m l) (flow : Block mtchFldLen) :
    pick (fun v => v.hits flow) View.priority (InsertionOrder.views t) =
      (pick (fun a : ℕ × View => a.2.hits flow) (fun a => a.2.priority) (keyed 0 l)).map
        Prod.snd := by
  rw [h.views, ← map_keyed 0 l, pick_map]

/-- A list of rules is added in two orders, with no add refused in either. If no two of the
rules can tie, every lookup ends the same way in the two tables. -/
theorem any_order_irrelevant (h : WellFormed tcam n m) (hperm : rs.Perm rs')
    (hfields : ∀ r ∈ rs, SelectsFields r.mask) (hall : InstallsAll tcam rs t)
    (hall' : InstallsAll tcam rs' t') (htie : ∀ x ∈ rs, ∀ y ∈ rs, x ≠ y → NoTie x y)
    {cache cache' : Cache} (htop : 1 ≤ cache.cacheTop ∧ cache.cacheTop ≤ cacheSize)
    (htop' : 1 ≤ cache'.cacheTop ∧ cache'.cacheTop ≤ cacheSize) (flow : Block mtchFldLen)
    (actionSet actionSet' : Block actnStLen) (maskPos maskPos' : ℤ) :
    ∃ found found', searchFlow t cache flow actionSet maskPos = some found ∧
      searchFlow t' cache' flow actionSet' maskPos' = some found' ∧ SameLookup found found' := by
  obtain ⟨place, hstart⟩ := filed_start h
  obtain ⟨n₁, m₁, l, hl, hlperm⟩ := hstart.insertAll hfields hall
  obtain ⟨n₁', m₁', l', hl', hlperm'⟩ :=
    hstart.insertAll (fun r hr => hfields r (hperm.mem_iff.mpr hr)) hall'
  have hsame : (keyed 0 l).Perm (keyed 0 l') :=
    hlperm.trans (((hperm.map _).append_right _).trans hlperm'.symm)
  have hpick : pick (fun v => v.hits flow) View.priority (InsertionOrder.views t) =
      pick (fun v => v.hits flow) View.priority (InsertionOrder.views t') := by
    rw [hl.pick_eq, hl'.pick_eq, pick_perm (keyed_sorted 0 l) (keyed_sorted 0 l') hsame]
    intro a ha b hb
    exact tie_eq htie flow (hlperm.mem_iff.mp ha) (hlperm.mem_iff.mp hb)
  obtain ⟨found, hfound, hview⟩ := searchFlow_view hl.wellFormed.toGrouped htop.1 htop.2 flow
    actionSet maskPos
  obtain ⟨found', hfound', hview'⟩ := searchFlow_view hl'.wellFormed.toGrouped htop'.1 htop'.2 flow
    actionSet' maskPos'
  rw [hpick] at hview
  exact ⟨found, found', hfound, hfound', sameLookup_of_view hview hview'⟩

end Orders

/-- The table after a list of adds, if none is refused. -/
def installAll : TcamUnit → List NewRule → Option TcamUnit
  | tcam, [] => some tcam
  | tcam, r :: rs => do
      let (pos, t, _, _) ← addNewEntry tcam r.mask r.flowEntry r.actionSet r.flag
      if 0 ≤ pos then installAll t rs else none

theorem installsAll_of_some {tcam t : TcamUnit} {rs : List NewRule}
    (h : installAll tcam rs = some t) : InstallsAll tcam rs t := by
  induction rs generalizing tcam with
  | nil => exact (Option.some.inj h).symm
  | cons r rs ih =>
    obtain ⟨⟨pos, t₁, mask', flowEntry'⟩, hadd, h⟩ := bind_inv h
    simp only at h
    split_ifs at h with hpos
    exact ⟨t₁, ⟨pos, _, _, hadd, hpos⟩, ih h⟩

/-- Three rules, two of them with one mask, added in two orders. -/
theorem three_rules_reversed :
    let a : NewRule := ⟨firstByte 255, entryFor 1 7, firstByte 1, firstByte 0⟩
    let b : NewRule := ⟨firstByte 15, entryFor 1 9, firstByte 2, firstByte 0⟩
    let c : NewRule := ⟨firstByte 255, entryFor 2 5, firstByte 3, firstByte 0⟩
    ∃ t t', InstallsAll zeroedTcamUnit [a, b, c] t ∧ InstallsAll zeroedTcamUnit [c, b, a] t' ∧
      ∃ found found',
        searchFlow t (init zeroedCache) (firstByte 1) (firstByte 0) 0 = some found ∧
        searchFlow t' (init zeroedCache) (firstByte 1) (firstByte 0) 0 = some found' ∧
        SameLookup found found' := by
  intro a b c
  have h : WellFormed zeroedTcamUnit 0 0 := by decide +kernel
  obtain ⟨t, ht⟩ := Option.isSome_iff_exists.mp
    (show (installAll zeroedTcamUnit [a, b, c]).isSome = true by decide +kernel)
  obtain ⟨t', ht'⟩ := Option.isSome_iff_exists.mp
    (show (installAll zeroedTcamUnit [c, b, a]).isSome = true by decide +kernel)
  have hperm : [a, b, c].Perm [c, b, a] := (List.reverse_perm [a, b, c]).symm
  exact ⟨t, t', installsAll_of_some ht, installsAll_of_some ht',
    any_order_irrelevant h hperm (by decide +kernel) (installsAll_of_some ht)
      (installsAll_of_some ht')
      (fun x hx y hy hne => .inl (by revert x y; decide +kernel)) (by decide) (by decide)
      (firstByte 1) (firstByte 0) (firstByte 0) 0 0⟩

end NetWalk.InstallOrders
