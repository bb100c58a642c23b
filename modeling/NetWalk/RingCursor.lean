import Mathlib.Data.List.Basic
import Mathlib.Data.Nat.ModEq
import Mathlib.Tactic.Common

/-!
# Cursors and contents of a ring of cells

A ring of `cap` cells is driven by cursors that only move forward. Counted from
the start of a run, a cursor that has made `k` moves stands on cell `k % cap`,
and `Stores` says that the elements from the `lo`-th on of the sequence written
so far are still in their cells. Nothing here depends on how a program tells a
full ring from an empty one; `mod_eq_mod_iff` is the fact such tests rest on.
-/
namespace NetWalk.RingCursor
variable {α : Type*} {cap : ℕ}

/-- One move of a cursor, wrapping from the last cell to the first. -/
def next (cap i : ℕ) : ℕ := if i = cap - 1 then 0 else i + 1

theorem next_mod (hc : 0 < cap) (k : ℕ) : next cap (k % cap) = (k + 1) % cap := by
  have hk := Nat.mod_lt k hc
  unfold next
  split_ifs with h
  · rw [Nat.add_mod, h]
    rcases Nat.lt_or_ge 1 cap with h1 | h1
    · rw [Nat.mod_eq_of_lt h1, Nat.sub_add_cancel hc, Nat.mod_self]
    · rw [show cap = 1 by omega, Nat.mod_one]
  · rw [Nat.add_mod, Nat.mod_eq_of_lt (by omega : 1 < cap),
      Nat.mod_eq_of_lt (by omega : k % cap + 1 < cap)]

theorem next_ne (hc : 1 < cap) (i : ℕ) : next cap i ≠ i := by
  unfold next
  split_ifs with h <;> omega

/-- Cursors at most one lap apart meet when they are level or a full lap apart. -/
theorem mod_eq_mod_iff {a b : ℕ} (hab : a ≤ b) (hb : b ≤ a + cap) :
    b % cap = a % cap ↔ b = a ∨ b = a + cap := by
  constructor
  · intro h
    have hd : cap ∣ b - a := (Nat.modEq_iff_dvd' hab).mp h.symm
    obtain ⟨q, hq⟩ := hd
    rcases q with _ | _ | q
    · left; omega
    · right; omega
    · rw [Nat.mul_add] at hq
      have : b - a = cap := by omega
      right; omega
  · rintro (rfl | rfl)
    · rfl
    · exact Nat.add_mod_right a cap

/-- Of the sequence `hist` written so far, the elements from the `lo`-th on are
held, each in its own cell. -/
structure Stores (cap : ℕ) (cell : ℕ → α) (hist : List α) (lo : ℕ) : Prop where
  fits : hist.length ≤ lo + cap
  held : ∀ k, lo ≤ k → k < hist.length → hist[k]? = some (cell (k % cap))

theorem Stores.nil (cell : ℕ → α) : Stores cap cell [] 0 :=
  ⟨by simp, fun k _ hk => absurd hk (by simp)⟩

/-- Writing the next element overwrites none of those still held. -/
theorem Stores.push {cell cell' : ℕ → α} {hist : List α} {lo : ℕ} {x : α}
    (h : Stores cap cell hist lo) (room : hist.length < lo + cap)
    (hx : cell' (hist.length % cap) = x)
    (hframe : ∀ i < cap, i ≠ hist.length % cap → cell' i = cell i) :
    Stores cap cell' (hist ++ [x]) lo := by
  refine ⟨by simp only [List.length_append, List.length_singleton]; omega, fun k hlo hk => ?_⟩
  simp only [List.length_append, List.length_singleton] at hk
  rcases Nat.lt_or_ge k hist.length with hlt | hge
  · have hne : k % cap ≠ hist.length % cap := by
      intro he
      rcases (mod_eq_mod_iff (by omega) (by omega)).mp he.symm with h1 | h1 <;> omega
    rw [List.getElem?_append_left hlt, h.held k hlo hlt,
      hframe _ (Nat.mod_lt _ (by omega)) hne]
  · have hk : k = hist.length := by omega
    subst hk
    simp [hx]

theorem Stores.drop {cell : ℕ → α} {hist : List α} {lo : ℕ} (h : Stores cap cell hist lo) :
    Stores cap cell hist (lo + 1) :=
  ⟨by have := h.fits; omega, fun k hlo hk => h.held k (by omega) hk⟩

/-- Reading on from a prefix of the sequence gives the next longer prefix. -/
theorem take_succ_of_getElem? {l : List α} {k : ℕ} {x : α} (h : l[k]? = some x) :
    l.take (k + 1) = l.take k ++ [x] := by
  rw [List.take_add_one, h]
  rfl

/-- The next element of a list extends a prefix of it. -/
theorem prefix_snoc {l xs : List α} {x : α} (h : xs <+: l)
    (hx : l[xs.length]? = some x) : xs ++ [x] <+: l := by
  have hnext := take_succ_of_getElem? hx
  rw [← List.prefix_iff_eq_take.mp h] at hnext
  exact hnext ▸ List.take_prefix _ _

end NetWalk.RingCursor
