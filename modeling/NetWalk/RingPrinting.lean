import NetWalk.RingCursor

/-!
# Printing what a ring holds

A printing loop puts its items out one after the other and breaks the line after
every `width` of them; the count goes on from one loop to the next. `broken` is
the output that results.

`walk` are the cells from the head of a ring to its tail, in two stretches if the
tail is not behind the head. If the ring is not empty they hold what is held, in
order, wherever the contents lie in the array.
-/
namespace NetWalk.RingPrinting
open RingCursor
variable {α : Type*}

section Lines

inductive Token (α : Type*) where
  | text (s : String)
  | item (a : α)
  | newline
deriving DecidableEq, Repr

/-- The items put out since the last line break, and the output so far. -/
structure Lines (α : Type*) where
  lineCount : ℕ
  output : List (Token α)

def Lines.print (width : ℕ) (s : Lines α) (a : α) : Lines α :=
  if s.lineCount + 1 = width then ⟨0, s.output ++ [.item a, .newline]⟩
  else ⟨s.lineCount + 1, s.output ++ [.item a]⟩

def Lines.printAll (width : ℕ) (s : Lines α) (l : List α) : Lines α := l.foldl (Lines.print width) s

/-- The items, numbered from `k` on, with a line break where the number of items is a
multiple of the width. -/
def broken (width : ℕ) : ℕ → List α → List (Token α)
  | _, [] => []
  | k, a :: l =>
    if (k + 1) % width = 0 then .item a :: .newline :: broken width (k + 1) l
    else .item a :: broken width (k + 1) l

variable {width : ℕ}

theorem succ_mod_eq (hw : 0 < width) (k : ℕ) :
    (k + 1) % width = if k % width + 1 = width then 0 else k % width + 1 := by
  have hlt := Nat.mod_lt k hw
  rw [Nat.add_mod]
  split_ifs with hlast
  · rcases Nat.lt_or_ge 1 width with hmany | hone
    · rw [Nat.mod_eq_of_lt hmany, hlast, Nat.mod_self]
    · rw [show width = 1 by omega, Nat.mod_one]
  · rw [Nat.mod_eq_of_lt (show 1 < width by omega), Nat.mod_eq_of_lt (by omega)]

/-- The count of the loop is the number of items put out, up to whole lines. -/
theorem printAll_eq (hw : 0 < width) (l : List α) (k : ℕ) (output : List (Token α)) :
    Lines.printAll width ⟨k % width, output⟩ l =
      ⟨(k + l.length) % width, output ++ broken width k l⟩ := by
  induction l generalizing k output with
  | nil => simp [Lines.printAll, broken]
  | cons a l ih =>
    have hstep : Lines.print width ⟨k % width, output⟩ a =
        ⟨(k + 1) % width, output ++
          if (k + 1) % width = 0 then [.item a, .newline] else [.item a]⟩ := by
      have hpos : k % width + 1 ≠ 0 := Nat.succ_ne_zero _
      rw [Lines.print, succ_mod_eq hw k]
      by_cases hlast : k % width + 1 = width
      · simp only [if_pos hlast, if_true]
      · simp only [if_neg hlast, if_neg hpos]
    have hlen : k + (a :: l).length = k + 1 + l.length := by
      rw [List.length_cons]
      omega
    rw [Lines.printAll, List.foldl_cons, hstep, ← Lines.printAll, ih (k + 1), hlen, broken]
    split_ifs <;> simp

/-- The output from an empty line on. -/
theorem printAll_start (hw : 0 < width) (l : List α) (output : List (Token α)) :
    (Lines.printAll width ⟨0, output⟩ l).output = output ++ broken width 0 l := by
  have h := printAll_eq hw l 0 output
  rw [Nat.zero_mod] at h
  rw [h]

theorem printAll_append (s : Lines α) (l l' : List α) :
    Lines.printAll width s (l ++ l') = Lines.printAll width (Lines.printAll width s l) l' :=
  List.foldl_append

end Lines

section Walk
variable {cap : ℕ}

def walk (cap head tail : ℕ) : List ℕ :=
  if head < tail then List.range' head (tail - head)
  else List.range' head (cap - head) ++ List.range tail

/-- From one cursor of a ring to another that is at most one lap ahead of it. -/
theorem walk_eq (hcap : 0 < cap) {lo hi : ℕ} (hlt : lo < hi) (hle : hi ≤ lo + cap) :
    walk cap (lo % cap) (hi % cap) = (List.range' lo (hi - lo)).map (· % cap) := by
  have hlo := Nat.mod_lt lo hcap
  -- counted from the lap that `lo` is in, `hi` is in the same one or in the next
  obtain ⟨lap, hlap⟩ : ∃ lap, lo = lap * cap + lo % cap :=
    ⟨lo / cap, by rw [Nat.mul_comm]; exact (Nat.div_add_mod lo cap).symm⟩
  have hcell : ∀ j, j < cap → (lap * cap + j) % cap = j := by
    intro j hj
    rw [Nat.add_comm, Nat.add_mul_mod_self_right, Nat.mod_eq_of_lt hj]
  have hnext : ∀ j, j < cap → (lap * cap + cap + j) % cap = j := by
    intro j hj
    rw [← Nat.succ_mul, Nat.add_comm, Nat.add_mul_mod_self_right, Nat.mod_eq_of_lt hj]
  generalize lo % cap = i at *
  subst hlap
  have hpart : ∀ n, i + n ≤ cap →
      (List.range' (lap * cap + i) n).map (· % cap) = List.range' i n := by
    intro n hn
    refine List.ext_getElem (by simp) fun k hk hk' => ?_
    rw [List.length_range'] at hk'
    simp only [List.getElem_map, List.getElem_range', Nat.one_mul]
    rw [Nat.add_assoc, hcell _ (by omega)]
  rcases Nat.lt_or_ge hi (lap * cap + cap) with hsame | hlater
  · obtain ⟨j, rfl⟩ := Nat.exists_eq_add_of_le (show lap * cap ≤ hi by omega)
    rw [hcell j (by omega), walk, if_pos (by omega), hpart _ (by omega)]
    congr 1
    omega
  · obtain ⟨j, rfl⟩ := Nat.exists_eq_add_of_le hlater
    have hj : j ≤ i := by omega
    have hsplit : lap * cap + cap + j - (lap * cap + i) = (cap - i) + j := by omega
    have hrest : (List.range' (lap * cap + i + (cap - i)) j).map (· % cap) = List.range j := by
      refine List.ext_getElem (by simp) fun k hk hk' => ?_
      rw [List.length_range] at hk'
      simp only [List.getElem_map, List.getElem_range', Nat.one_mul, List.getElem_range]
      rw [show lap * cap + i + (cap - i) + k = lap * cap + cap + k by omega, hnext k (by omega)]
    rw [hnext j (by omega), walk, if_neg (by omega), hsplit, ← List.range'_append_1,
      List.map_append, hpart _ (by omega), hrest]

/-- The cells walked over hold the elements that are held. -/
theorem walk_held {cell : ℕ → α} {hist : List α} {lo : ℕ} (h : Stores cap cell hist lo)
    (hlt : lo < hist.length) :
    (walk cap (lo % cap) (hist.length % cap)).map cell = hist.drop lo := by
  have hfits := h.fits
  rw [walk_eq (by omega) hlt hfits, List.map_map]
  refine List.ext_getElem? fun k => ?_
  rw [List.getElem?_drop, List.getElem?_map]
  rcases Nat.lt_or_ge (lo + k) hist.length with hk | hk
  · rw [List.getElem?_range' (by omega), h.held (lo + k) (by omega) hk, Option.map_some,
      Nat.one_mul]
    rfl
  · rw [List.getElem?_eq_none hk, List.getElem?_eq_none (by rw [List.length_range']; omega)]
    rfl

end Walk

end NetWalk.RingPrinting
