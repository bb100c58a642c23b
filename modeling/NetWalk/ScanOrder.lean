import Mathlib.Data.List.Induction
import Mathlib.Data.List.InsertIdx
import NetWalk.PriorityScan

/-!
# What a scan makes of values inserted into a sequence

Values are inserted one by one into a sequence of old ones, among the new values in any
order. `keyed` numbers the elements by the old ones in front of them, so that a new value
has the number of its place among the old ones and no more. A scan for the first hit of
highest priority ends with the same value for any two sequences whose numbered elements
are the same, provided that elements with one number do not tie.
-/
namespace NetWalk.ScanOrder
open PriorityScan
variable {α : Type*} [LinearOrder α] {β γ : Type*}

section Picking
variable {hit : β → Bool} {prio : β → α}

theorem pick_concat (hit : β → Bool) (prio : β → α) (l : List β) (a : β) :
    pick hit prio (l ++ [a]) = better hit prio (pick hit prio l) a := by
  rw [pick, List.foldl_append]
  rfl

theorem pick_map (hit : β → Bool) (prio : β → α) (f : γ → β) (l : List γ) :
    pick hit prio (l.map f) =
      (pick (fun c => hit (f c)) (fun c => prio (f c)) l).map f := by
  induction l using List.reverseRecOn with
  | nil => rfl
  | append_singleton l a ih =>
    rw [List.map_append, List.map_cons, List.map_nil, pick_concat, pick_concat, ih]
    simp only [better, Option.all_map]
    split_ifs <;> rfl

/-- Element `v` is the first hit of highest priority in the list. -/
structure FirstBest (hit : β → Bool) (prio : β → α) (l₁ : List β) (v : β) (l₂ : List β) :
    Prop where
  isHit : hit v = true
  before : ∀ u ∈ l₁, hit u = true → prio u < prio v
  behind : ∀ u ∈ l₂, hit u = true → prio u ≤ prio v

theorem pick_result (hit : β → Bool) (prio : β → α) (l : List β) :
    (pick hit prio l = none ∧ ∀ u ∈ l, hit u = false) ∨
      ∃ l₁ v l₂, pick hit prio l = some v ∧ l = l₁ ++ v :: l₂ ∧ FirstBest hit prio l₁ v l₂ := by
  induction l using List.reverseRecOn with
  | nil => exact .inl ⟨rfl, fun u hu => absurd hu List.not_mem_nil⟩
  | append_singleton l a ih =>
    rw [pick_concat]
    rcases ih with ⟨hnone, hmiss⟩ | ⟨l₁, v, l₂, hsome, hl, hbest⟩
    · cases ha : hit a with
      | false =>
        refine .inl ⟨by simp [better, hnone, ha], fun u hu => ?_⟩
        rcases List.mem_append.mp hu with hu | hu
        · exact hmiss u hu
        · exact List.mem_singleton.mp hu ▸ ha
      | true =>
        refine .inr ⟨l, a, [], by simp [better, hnone, ha], rfl, ha, fun u hu hhit => ?_,
          fun u hu => absurd hu List.not_mem_nil⟩
        rw [hmiss u hu] at hhit
        cases hhit
    · have hall : ∀ u ∈ l, hit u = true → prio u ≤ prio v := by
        intro u hu hhit
        rw [hl] at hu
        rcases List.mem_append.mp hu with hu | hu
        · exact (hbest.before u hu hhit).le
        · rcases List.mem_cons.mp hu with rfl | hu
          · exact le_rfl
          · exact hbest.behind u hu hhit
      by_cases hnew : hit a = true ∧ prio v < prio a
      · exact .inr ⟨l, a, [], by simp [better, hsome, hnew], rfl, hnew.1,
          fun u hu hhit => (hall u hu hhit).trans_lt hnew.2, fun u hu => absurd hu List.not_mem_nil⟩
      · refine .inr ⟨l₁, v, l₂ ++ [a], ?_, by rw [hl, List.append_assoc, List.cons_append],
          hbest.isHit, hbest.before, fun u hu hhit => ?_⟩
        · simpa only [better, hsome, Option.all_some, decide_eq_true_eq] using if_neg hnew
        · rcases List.mem_append.mp hu with hu | hu
          · exact hbest.behind u hu hhit
          · rw [List.mem_singleton.mp hu] at hhit ⊢
            exact not_lt.mp fun hlt => hnew ⟨hhit, hlt⟩

/-- In a list in the order of its numbers, the first best hit comes before any other that
has its priority. -/
theorem pick_numbered {hit : ℕ × β → Bool} {prio : ℕ × β → α} {l : List (ℕ × β)}
    (hsorted : l.Pairwise fun a b => a.1 ≤ b.1) {v : ℕ × β} (hv : pick hit prio l = some v) :
    v ∈ l ∧ hit v = true ∧ ∀ u ∈ l, hit u = true → prio u < prio v ∨
      prio u = prio v ∧ v.1 ≤ u.1 := by
  rcases pick_result hit prio l with ⟨hnone, -⟩ | ⟨l₁, w, l₂, hw, rfl, hbest⟩
  · rw [hnone] at hv
    cases hv
  · cases hv.symm.trans hw
    refine ⟨List.mem_append_right _ List.mem_cons_self, hbest.isHit, fun u hu hhit => ?_⟩
    rcases List.mem_append.mp hu with hu | hu
    · exact .inl (hbest.before u hu hhit)
    · rcases List.mem_cons.mp hu with rfl | hu
      · exact .inr ⟨rfl, le_rfl⟩
      · have hle := (List.pairwise_append.mp hsorted).2.1
        rcases lt_or_eq_of_le (hbest.behind u hu hhit) with hlt | heq
        · exact .inl hlt
        · exact .inr ⟨heq, (List.pairwise_cons.mp hle).1 u hu⟩

/-- Two such lists of the same elements have the same first best hit. -/
theorem pick_perm {hit : ℕ × β → Bool} {prio : ℕ × β → α} {l l' : List (ℕ × β)}
    (hsorted : l.Pairwise fun a b => a.1 ≤ b.1) (hsorted' : l'.Pairwise fun a b => a.1 ≤ b.1)
    (hperm : l.Perm l')
    (htie : ∀ a ∈ l, ∀ b ∈ l, hit a = true → hit b = true → prio a = prio b → a.1 = b.1 →
      a = b) : pick hit prio l = pick hit prio l' := by
  cases hv : pick hit prio l with
  | none =>
    rcases pick_result hit prio l' with ⟨hnone, -⟩ | ⟨l₁, w, l₂, -, rfl, hbest⟩
    · exact hnone.symm
    · rcases pick_result hit prio l with ⟨-, hmiss⟩ | ⟨l₁', w', l₂', hw', -⟩
      · have hw := hmiss w (hperm.mem_iff.mpr (List.mem_append_right _ List.mem_cons_self))
        rw [hbest.isHit] at hw
        cases hw
      · rw [hv] at hw'
        cases hw'
  | some v =>
    obtain ⟨hmem, hhit, hfirst⟩ := pick_numbered hsorted hv
    cases hw : pick hit prio l' with
    | none =>
      rcases pick_result hit prio l' with ⟨-, hmiss⟩ | ⟨l₁', w', l₂', hw', -⟩
      · rw [hmiss v (hperm.mem_iff.mp hmem)] at hhit
        cases hhit
      · rw [hw] at hw'
        cases hw'
    | some w =>
      obtain ⟨hmem', hhit', hfirst'⟩ := pick_numbered hsorted' hw
      have hv' := hfirst' v (hperm.mem_iff.mp hmem) hhit
      have hw' := hfirst w (hperm.mem_iff.mpr hmem') hhit'
      have hprio : prio v = prio w := by
        rcases hv' with hlt | ⟨heq, -⟩
        · rcases hw' with hlt' | ⟨heq', -⟩
          · exact absurd hlt hlt'.asymm
          · exact heq'.symm
        · exact heq
      have hkey : v.1 = w.1 := by
        rcases hv' with hlt | ⟨-, hle⟩
        · exact absurd hlt (hprio ▸ lt_irrefl _)
        · rcases hw' with hlt' | ⟨-, hle'⟩
          · exact absurd hlt' (hprio ▸ lt_irrefl _)
          · exact le_antisymm hle' hle
      rw [htie v hmem w (hperm.mem_iff.mpr hmem') hhit hhit' hprio hkey]

end Picking

section Numbering

/-- Number the elements of a list in which the old ones are marked: old ones get the odd
numbers, and a new one the even number between those of its neighbours. -/
def keyed : ℕ → List (Bool × β) → List (ℕ × β)
  | _, [] => []
  | k, (true, v) :: l => (2 * k + 1, v) :: keyed (k + 1) l
  | k, (false, v) :: l => (2 * k, v) :: keyed k l

theorem map_keyed (k : ℕ) (l : List (Bool × β)) :
    (keyed k l).map Prod.snd = l.map Prod.snd := by
  induction l generalizing k with
  | nil => rfl
  | cons a l ih =>
    obtain ⟨old, v⟩ := a
    cases old with
    | true => exact congrArg (v :: ·) (ih (k + 1))
    | false => exact congrArg (v :: ·) (ih k)

theorem length_keyed (k : ℕ) (l : List (Bool × β)) : (keyed k l).length = l.length := by
  have h := congrArg List.length (map_keyed k l)
  rwa [List.length_map, List.length_map] at h

theorem le_of_mem_keyed {k : ℕ} {l : List (Bool × β)} {a : ℕ × β} (h : a ∈ keyed k l) :
    2 * k ≤ a.1 := by
  induction l generalizing k with
  | nil => cases h
  | cons b l ih =>
    obtain ⟨old, v⟩ := b
    cases old with
    | true =>
      rcases List.mem_cons.mp h with rfl | h
      · exact Nat.le_succ _
      · have := ih h
        omega
    | false =>
      rcases List.mem_cons.mp h with rfl | h
      · exact le_rfl
      · exact ih h

theorem keyed_sorted (k : ℕ) (l : List (Bool × β)) :
    (keyed k l).Pairwise fun a b => a.1 ≤ b.1 := by
  induction l generalizing k with
  | nil => exact .nil
  | cons b l ih =>
    obtain ⟨old, v⟩ := b
    cases old with
    | true =>
      refine .cons (fun a ha => ?_) (ih (k + 1))
      have := le_of_mem_keyed ha
      change 2 * k + 1 ≤ a.1
      omega
    | false => exact .cons (fun a ha => le_of_mem_keyed ha) (ih k)

/-- The old elements in front of position `e`. -/
def oldBefore (l : List (Bool × β)) (e : ℕ) : ℕ := (l.take e).countP Prod.fst

theorem keyed_insertIdx (k : ℕ) (l : List (Bool × β)) {e : ℕ} (he : e ≤ l.length) (v : β) :
    keyed k (l.insertIdx e (false, v)) =
      (keyed k l).insertIdx e (2 * (k + oldBefore l e), v) := by
  induction l generalizing k e with
  | nil =>
    obtain rfl : e = 0 := Nat.le_zero.mp he
    rfl
  | cons b l ih =>
    obtain ⟨old, w⟩ := b
    cases e with
    | zero => rfl
    | succ e =>
      have hrest := Nat.le_of_succ_le_succ he
      cases old with
      | true =>
        have hcount : oldBefore ((true, w) :: l) (e + 1) = oldBefore l e + 1 :=
          List.countP_cons_of_pos rfl
        rw [List.insertIdx_succ_cons, keyed, keyed, ih (k + 1) hrest, List.insertIdx_succ_cons,
          hcount, Nat.add_assoc, Nat.add_comm 1]
      | false =>
        have hcount : oldBefore ((false, w) :: l) (e + 1) = oldBefore l e :=
          List.countP_cons_of_neg Bool.false_ne_true
        rw [List.insertIdx_succ_cons, keyed, keyed, ih k hrest, List.insertIdx_succ_cons, hcount]

/-- Only old elements count, so a new one does not change the number of a place. -/
theorem oldBefore_insert_front (l : List (Bool × β)) {e i : ℕ} (h : i ≤ e) (v : Bool × β) :
    oldBefore (l.insertIdx e v) i = oldBefore l i := by
  rw [oldBefore, List.take_insertIdx_eq_take_of_le _ _ _ _ h, oldBefore]

theorem oldBefore_insert_behind (l : List (Bool × β)) {e i : ℕ} (he : e ≤ i) (hi : i ≤ l.length)
    (v : β) : oldBefore (l.insertIdx e (false, v)) (i + 1) = oldBefore l i := by
  unfold oldBefore
  induction l generalizing e i with
  | nil =>
    obtain rfl : i = 0 := Nat.le_zero.mp hi
    obtain rfl : e = 0 := Nat.le_zero.mp he
    rfl
  | cons b l ih =>
    cases e with
    | zero =>
      rw [List.insertIdx_zero, List.take_succ_cons, List.countP_cons_of_neg Bool.false_ne_true]
    | succ e =>
      obtain ⟨j, rfl⟩ := Nat.exists_eq_add_of_le' (Nat.one_le_of_lt he)
      rw [List.insertIdx_succ_cons, List.take_succ_cons, List.take_succ_cons, List.countP_cons,
        List.countP_cons, ih (Nat.le_of_succ_le_succ he) (Nat.le_of_succ_le_succ hi)]

/-- Inserting a new element adds one numbered element. -/
theorem keyed_insert_perm (l : List (Bool × β)) {e : ℕ} (he : e ≤ l.length) (v : β) :
    (keyed 0 (l.insertIdx e (false, v))).Perm ((2 * oldBefore l e, v) :: keyed 0 l) := by
  rw [keyed_insertIdx 0 l he, Nat.zero_add]
  exact List.perm_insertIdx _ _ (by rwa [length_keyed])

/-- An old element is numbered by its position. -/
theorem mem_keyed_old {k : ℕ} {l : List β} {a : ℕ × β}
    (h : a ∈ keyed k (l.map (Prod.mk true))) :
    ∃ i, a.1 = 2 * (k + i) + 1 ∧ l[i]? = some a.2 := by
  induction l generalizing k with
  | nil => cases h
  | cons v l ih =>
    rcases List.mem_cons.mp h with rfl | h
    · exact ⟨0, rfl, rfl⟩
    · obtain ⟨i, hi, hv⟩ := ih h
      exact ⟨i + 1, by rw [hi]; omega, hv⟩

end Numbering

end NetWalk.ScanOrder
