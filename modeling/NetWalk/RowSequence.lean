import Mathlib.Data.List.Basic
import Mathlib.Data.Nat.Count
import Mathlib.Logic.Function.Basic
import Mathlib.Tactic.Common

/-!
# Sequences of rows with one row inserted or removed

A table with room behind its last row is a sequence of which a prefix is in
use. `openAt` inserts a row and `closeAt` removes one, moving the later rows.
`movedDown` and `movedUp` are what a loop makes of the table that copies rows to
their neighbours one by one and rewrites part of each on the way.

Rows may be grouped by marks: a marked row starts a new group. `marks` counts
the marked rows of a prefix, and `groupOf` numbers the group of a row. When each
group has a label, `labelOf` is the label of a row's group. The lemmas say what
insertion and removal do to the label of every other row: nothing, provided the
mark of the row removed is handed on or its group's label is removed with it.
-/
namespace NetWalk.RowSequence
variable {α : Type*}

def openAt (f : ℕ → α) (pos : ℕ) (v : α) : ℕ → α :=
  fun i => if i < pos then f i else if i = pos then v else f (i - 1)

def closeAt (f : ℕ → α) (pos : ℕ) : ℕ → α := fun i => if i < pos then f i else f (i + 1)

/-- The first `n` rows. -/
def firstRows (f : ℕ → α) (n : ℕ) : List α := (List.range n).map f

@[simp] theorem length_firstRows (f : ℕ → α) (n : ℕ) : (firstRows f n).length = n := by
  simp [firstRows]

theorem getElem?_firstRows (f : ℕ → α) {n k : ℕ} (hk : k < n) :
    (firstRows f n)[k]? = some (f k) := by
  simp [firstRows, hk]

theorem firstRows_congr {f g : ℕ → α} {n : ℕ} (h : ∀ k < n, f k = g k) :
    firstRows f n = firstRows g n :=
  List.map_congr_left fun k hk => h k (List.mem_range.mp hk)

theorem firstRows_openAt (f : ℕ → α) {n pos : ℕ} (hpos : pos ≤ n) (v : α) :
    firstRows (openAt f pos v) (n + 1) =
      (firstRows f n).take pos ++ v :: (firstRows f n).drop pos := by
  apply List.ext_getElem?
  intro k
  rcases Nat.lt_or_ge n k with hk | hk
  · rw [List.getElem?_eq_none (by simp; omega), List.getElem?_eq_none (by simp; omega)]
  · rw [getElem?_firstRows _ (by omega), openAt]
    rcases Nat.lt_trichotomy k pos with hlt | rfl | hgt
    · rw [List.getElem?_append_left (by simp; omega), List.getElem?_take_of_lt hlt,
        getElem?_firstRows _ (by omega), if_pos hlt]
    · rw [List.getElem?_append_right (by simp), if_neg (by omega), if_pos rfl]
      simp [Nat.min_eq_left hpos]
    · rw [List.getElem?_append_right (by simp; omega), if_neg (by omega), if_neg (by omega)]
      obtain ⟨j, rfl⟩ := Nat.exists_eq_add_of_lt hgt
      simp only [List.length_take, length_firstRows, Nat.min_eq_left hpos,
        show pos + j + 1 - pos = j + 1 by omega, List.getElem?_cons_succ, List.getElem?_drop]
      rw [getElem?_firstRows _ (by omega), Nat.add_sub_cancel]

theorem firstRows_insertIdx (f : ℕ → α) {n pos : ℕ} (hpos : pos ≤ n) (v : α) :
    firstRows (openAt f pos v) (n + 1) = (firstRows f n).insertIdx pos v := by
  apply List.ext_getElem?
  intro k
  rw [List.getElem?_insertIdx]
  rcases Nat.lt_or_ge n k with hk | hk
  · rw [List.getElem?_eq_none (by simp; omega), if_neg (by omega), if_neg (by omega),
      List.getElem?_eq_none (by simp; omega)]
  · rw [getElem?_firstRows _ (by omega), openAt]
    rcases Nat.lt_trichotomy k pos with hlt | rfl | hgt
    · rw [if_pos hlt, if_pos hlt, getElem?_firstRows _ (by omega)]
    · rw [if_neg (Nat.lt_irrefl k), if_pos rfl, if_neg (Nat.lt_irrefl k), if_pos rfl,
        if_pos (by simpa using hpos)]
    · rw [if_neg (by omega), if_neg (by omega), if_neg (by omega), if_neg (by omega),
        getElem?_firstRows _ (by omega)]

theorem firstRows_closeAt (f : ℕ → α) (n pos : ℕ) (hpos : pos < n) :
    firstRows (closeAt f pos) (n - 1) = (firstRows f n).eraseIdx pos := by
  apply List.ext_getElem?
  intro k
  rw [List.getElem?_eraseIdx]
  rcases Nat.lt_or_ge k (n - 1) with hk | hk
  · rw [getElem?_firstRows _ hk, closeAt]
    split_ifs with hlt
    · rw [getElem?_firstRows _ (by omega)]
    · rw [getElem?_firstRows _ (by omega)]
  · rw [List.getElem?_eq_none (by simpa using hk)]
    split_ifs with hlt
    · omega
    · rw [List.getElem?_eq_none (by simp; omega)]

section Moves
variable (g : α → α) (f : ℕ → α)

/-- Rows `pos, ..., n - 1` moved down by one, each rewritten by `g`. -/
def movedDown (pos n : ℕ) : ℕ → α := fun p => if pos < p ∧ p ≤ n then g (f (p - 1)) else f p

/-- Rows `pos + 1, ..., n` moved up by one, each rewritten by `g`. -/
def movedUp (pos n : ℕ) : ℕ → α := fun p => if pos ≤ p ∧ p < n then g (f (p + 1)) else f p

/-- Rows are moved down one at a time from the last one on. -/
theorem movedDown_step {pos n : ℕ} (h : pos ≤ n) :
    movedDown g (Function.update f (n + 1) (g (f n))) pos n = movedDown g f pos (n + 1) := by
  funext p
  simp only [movedDown, Function.update_apply]
  rcases Nat.lt_trichotomy p (n + 1) with hlt | rfl | hgt
  · rw [if_neg (show p - 1 ≠ n + 1 by omega), if_neg (show p ≠ n + 1 by omega)]
    simp only [show p ≤ n ↔ p ≤ n + 1 by omega]
  · rw [if_neg (by omega), if_pos rfl, if_pos ⟨by omega, le_rfl⟩, Nat.add_sub_cancel]
  · rw [if_neg (by omega), if_neg (by omega), if_neg (by omega)]

/-- Rows are moved up one at a time from the first one on. -/
theorem movedUp_step {pos n : ℕ} (h : pos < n) :
    movedUp g (Function.update f pos (g (f (pos + 1)))) (pos + 1) n = movedUp g f pos n := by
  funext p
  simp only [movedUp, Function.update_apply]
  rcases Nat.lt_trichotomy p pos with hlt | rfl | hgt
  · rw [if_neg (by omega), if_neg (by omega), if_neg (by omega)]
  · rw [if_neg (by omega), if_pos rfl, if_pos ⟨le_rfl, h⟩]
  · rw [if_neg (show p + 1 ≠ pos by omega), if_neg (show p ≠ pos by omega)]
    simp only [show pos + 1 ≤ p ↔ pos ≤ p by omega]

theorem movedDown_self (n : ℕ) : movedDown g f n n = f := by
  funext p
  rw [movedDown, if_neg (by omega)]

theorem movedUp_self (n : ℕ) : movedUp g f n n = f := by
  funext p
  rw [movedUp, if_neg (by omega)]

/-- Rows moved down for a new one, and back up when it goes. -/
theorem movedUp_movedDown {pos n k : ℕ} (hk : k < n) (v : α) :
    movedUp id (Function.update (movedDown id f pos n) pos v) pos n k = f k := by
  simp only [movedUp, id]
  split_ifs with hmoved
  · rw [Function.update_of_ne (by omega)]
    simp only [movedDown, if_pos (show pos < k + 1 ∧ k + 1 ≤ n by omega), Nat.add_sub_cancel, id]
  · rw [Function.update_of_ne (by omega)]
    simp only [movedDown, if_neg (show ¬ (pos < k ∧ k ≤ n) by omega)]

variable {β : Type*} (h : α → β) (hg : ∀ x, h (g x) = h x)
include hg

/-- What rewriting leaves alone is, after the gap is filled, inserted. -/
theorem openAt_of_movedDown (pos : ℕ) {n p : ℕ} (hp : p ≤ n) (v : α) :
    h (Function.update (movedDown g f pos n) pos v p) = openAt (fun i => h (f i)) pos (h v) p := by
  simp only [movedDown, openAt, Function.update_apply]
  rcases Nat.lt_trichotomy p pos with hlt | rfl | hgt
  · rw [if_neg (by omega), if_neg (by omega), if_pos hlt]
  · rw [if_pos rfl, if_neg (by omega), if_pos rfl]
  · rw [if_neg (by omega), if_pos ⟨hgt, hp⟩, if_neg (by omega), if_neg (by omega), hg]

theorem closeAt_of_movedUp (pos : ℕ) {n p : ℕ} (hp : p < n) :
    h (movedUp g f pos n p) = closeAt (fun i => h (f i)) pos p := by
  simp only [movedUp, closeAt]
  rcases Nat.lt_or_ge p pos with hlt | hge
  · rw [if_neg (by omega), if_pos hlt]
  · rw [if_pos ⟨hge, hp⟩, if_neg (by omega), hg]

end Moves

section Groups
variable (mark : ℕ → Bool)

/-- The number of marked rows among the first `n`. -/
def marks (n : ℕ) : ℕ := Nat.count (fun i => mark i = true) n

/-- The number of the group that row `p` belongs to. -/
def groupOf (p : ℕ) : ℕ := marks mark (p + 1)

@[simp] theorem marks_zero : marks mark 0 = 0 := Nat.count_zero _

theorem marks_succ (n : ℕ) : marks mark (n + 1) = marks mark n + (mark n).toNat := by
  rw [marks, Nat.count_succ, marks]
  cases mark n <;> rfl

theorem marks_mono {a b : ℕ} (h : a ≤ b) : marks mark a ≤ marks mark b :=
  Nat.count_monotone _ h

theorem groupOf_le_marks {p n : ℕ} (h : p < n) : groupOf mark p ≤ marks mark n :=
  marks_mono mark h

theorem groupOf_succ (p : ℕ) :
    groupOf mark (p + 1) = groupOf mark p + (mark (p + 1)).toNat := marks_succ mark (p + 1)

variable {mark}

theorem marks_congr {mark' : ℕ → Bool} {n : ℕ} (h : ∀ k < n, mark k = mark' k) :
    marks mark n = marks mark' n := by
  induction n with
  | zero => simp
  | succ n ih =>
    rw [marks_succ, marks_succ, ih fun k hk => h k (by omega), h n (by omega)]

theorem marks_update {j n : ℕ} (hj : j < n) (h : mark j = false) :
    marks (Function.update mark j true) n = marks mark n + 1 := by
  induction n with
  | zero => omega
  | succ n ih =>
    rw [marks_succ, marks_succ]
    rcases Nat.lt_succ_iff_lt_or_eq.mp hj with hlt | rfl
    · rw [ih hlt, Function.update_of_ne (by omega)]
      omega
    · rw [Function.update_self, h,
        marks_congr fun k hk => Function.update_of_ne (show k ≠ j by omega) true mark]
      rfl

theorem groupOf_congr {mark' : ℕ → Bool} {p : ℕ} (h : ∀ k ≤ p, mark k = mark' k) :
    groupOf mark p = groupOf mark' p :=
  marks_congr fun k hk => h k (Nat.lt_succ_iff.mp hk)

/-- Rows between two positions without a mark in between share their group. -/
theorem groupOf_eq_of_unmarked {a b : ℕ} (hab : a ≤ b)
    (h : ∀ k, a < k → k ≤ b → mark k = false) : groupOf mark b = groupOf mark a := by
  induction b, hab using Nat.le_induction with
  | base => rfl
  | succ b hab ih =>
    rw [groupOf_succ, h (b + 1) (by omega) le_rfl, ih fun k hk hkb => h k hk (by omega)]
    rfl

theorem marks_openAt_le {pos n : ℕ} (h : n ≤ pos) (x : Bool) :
    marks (openAt mark pos x) n = marks mark n :=
  marks_congr fun k hk => by rw [openAt, if_pos (by omega)]

theorem marks_openAt_gt {pos n : ℕ} (h : pos ≤ n) (x : Bool) :
    marks (openAt mark pos x) (n + 1) = marks mark n + x.toNat := by
  induction n, h using Nat.le_induction with
  | base =>
    rw [marks_succ, marks_openAt_le le_rfl, openAt, if_neg (by omega), if_pos rfl]
  | succ n hn ih =>
    rw [marks_succ, ih, openAt, if_neg (by omega), if_neg (by omega), marks_succ mark n,
      Nat.add_sub_cancel]
    omega

theorem marks_closeAt_le {pos n : ℕ} (h : n ≤ pos) :
    marks (closeAt mark pos) n = marks mark n :=
  marks_congr fun k hk => by rw [closeAt, if_pos (by omega)]

theorem marks_closeAt_ge (mark : ℕ → Bool) {pos n : ℕ} (h : pos ≤ n) :
    marks (closeAt mark pos) n + (mark pos).toNat = marks mark (n + 1) := by
  induction n, h using Nat.le_induction with
  | base => rw [marks_closeAt_le le_rfl, marks_succ]
  | succ n hn ih =>
    rw [marks_succ, closeAt, if_neg (by omega), marks_succ mark (n + 1), ← ih]
    omega

/-- Removing the first row of a group and marking the second one instead leaves
the marks as if the second row had been removed. -/
theorem closeAt_handOn {pos : ℕ} (hmark : mark pos = true) :
    closeAt (Function.update mark (pos + 1) true) pos = closeAt mark (pos + 1) := by
  funext i
  simp only [closeAt, Function.update_apply]
  rcases Nat.lt_trichotomy i pos with hlt | rfl | hgt
  · simp [hlt, show i < pos + 1 by omega, show i ≠ pos + 1 by omega]
  · simp [hmark]
  · simp [show ¬ i < pos by omega, show ¬ i < pos + 1 by omega, show i ≠ pos by omega]

/-- Groups in front of a marked row that is removed keep their numbers. -/
theorem groupOf_closeAt_before {pos p : ℕ} (hmark : mark pos = true) (hp : p < pos) :
    groupOf (closeAt mark pos) p = groupOf mark p ∧ groupOf mark p < groupOf mark pos := by
  have hgroup : groupOf mark pos = marks mark pos + 1 := by
    rw [groupOf, marks_succ, hmark]
    rfl
  have hle := groupOf_le_marks mark hp
  exact ⟨marks_closeAt_le (show p + 1 ≤ pos from hp), by omega⟩

/-- Groups behind a row that is a group of its own have moved up by one. -/
theorem groupOf_closeAt_behind {pos p : ℕ} (hmark : mark pos = true)
    (hnext : mark (pos + 1) = true) (hp : pos ≤ p) :
    groupOf (closeAt mark pos) p + 1 = groupOf mark (p + 1) ∧
      groupOf mark pos ≤ groupOf (closeAt mark pos) p := by
  have hcount := marks_closeAt_ge mark (show pos ≤ p + 1 by omega)
  have hle := marks_mono mark (show pos + 1 + 1 ≤ p + 1 + 1 by omega)
  rw [marks_succ mark (pos + 1), hnext, Bool.toNat_true] at hle
  rw [hmark, Bool.toNat_true] at hcount
  exact ⟨hcount, by simp only [groupOf]; omega⟩

end Groups

section Labels
variable {mark : ℕ → Bool} (label : ℕ → α)

def labelOf (mark : ℕ → Bool) (p : ℕ) : α := label (groupOf mark p)

/-- An unmarked row belongs to the group of the row before it. -/
theorem labelOf_openAt (mark : ℕ → Bool) {pos : ℕ} (hpos : 0 < pos) :
    labelOf label (openAt mark pos false) =
      openAt (labelOf label mark) pos (labelOf label mark (pos - 1)) := by
  funext p
  conv_rhs => rw [openAt]
  simp only [labelOf, groupOf]
  rcases Nat.lt_trichotomy p pos with hlt | rfl | hgt
  · rw [if_pos hlt, marks_openAt_le (show p + 1 ≤ pos by omega) false]
  · rw [if_neg (by omega), if_pos rfl, Nat.sub_add_cancel hpos]
    exact congrArg label (marks_openAt_gt le_rfl false)
  · rw [if_neg (by omega), if_neg (by omega), Nat.sub_add_cancel (by omega)]
    exact congrArg label (marks_openAt_gt (show pos ≤ p by omega) false)

theorem labelOf_closeAt_unmarked {pos : ℕ} (hmark : mark pos = false) :
    labelOf label (closeAt mark pos) = closeAt (labelOf label mark) pos := by
  funext p
  simp only [labelOf, groupOf]
  rcases Nat.lt_or_ge p pos with hlt | hge
  · rw [marks_closeAt_le (by omega), closeAt, if_pos hlt]
    rfl
  · have h := marks_closeAt_ge mark (show pos ≤ p + 1 by omega)
    rw [hmark, Bool.toNat_false, Nat.add_zero] at h
    rw [h, closeAt, if_neg (by omega)]
    rfl

/-- The second row of a group takes over the mark of the first. -/
theorem labelOf_closeAt_handOn {pos : ℕ} (hmark : mark pos = true)
    (hnext : mark (pos + 1) = false) :
    labelOf label (closeAt (Function.update mark (pos + 1) true) pos) =
      closeAt (labelOf label mark) pos := by
  rw [closeAt_handOn hmark, labelOf_closeAt_unmarked label hnext]
  have hsame : labelOf label mark (pos + 1) = labelOf label mark pos := by
    simp only [labelOf, groupOf_succ, hnext, Bool.toNat_false, Nat.add_zero]
  funext p
  simp only [closeAt]
  rcases Nat.lt_trichotomy p pos with hlt | rfl | hgt
  · rw [if_pos (by omega), if_pos hlt]
  · rw [if_pos (by omega), if_neg (by omega), hsame]
  · rw [if_neg (by omega), if_neg (by omega)]

end Labels

end NetWalk.RowSequence
