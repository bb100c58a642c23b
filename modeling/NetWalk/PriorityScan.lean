import Mathlib.Order.Lattice
import Mathlib.Tactic.Common

/-!
# Scanning for the first hit of highest priority

`bestOf hit prio n` is what a scan over the indices `0, ..., n - 1` ends with
when it keeps the first hit and replaces it by a later one of strictly higher
priority only. `pick` is the same scan over a list, and ends with the value
itself: for a scan that ends with the same value whatever the order of two
neighbours, it is the value and not its index that stays.
-/
namespace NetWalk.PriorityScan
variable {α : Type*} [LinearOrder α]

def bestOf (hit : ℕ → Bool) (prio : ℕ → α) : ℕ → Option ℕ
  | 0 => none
  | n + 1 =>
    match bestOf hit prio n with
    | none => if hit n then some n else none
    | some b => if hit n && decide (prio b < prio n) then some n else some b

/-- Index `b` is the first hit of highest priority below `n`. -/
structure Best (hit : ℕ → Bool) (prio : ℕ → α) (n b : ℕ) : Prop where
  lt : b < n
  isHit : hit b = true
  highest : ∀ q < n, hit q = true → prio q ≤ prio b
  first : ∀ q < b, hit q = true → prio q < prio b

variable {hit : ℕ → Bool} {prio : ℕ → α} {n : ℕ}

theorem Best.later {b : ℕ} (h : Best hit prio n b)
    (hn : hit n = true → prio n ≤ prio b) : Best hit prio (n + 1) b := by
  refine ⟨Nat.lt_succ_of_lt h.lt, h.isHit, fun q hq hhit => ?_, h.first⟩
  rcases Nat.lt_succ_iff_lt_or_eq.mp hq with hlt | rfl
  · exact h.highest q hlt hhit
  · exact hn hhit

theorem bestOf_result (hit : ℕ → Bool) (prio : ℕ → α) (n : ℕ) :
    (bestOf hit prio n = none ∧ ∀ q < n, hit q = false) ∨
      ∃ b, bestOf hit prio n = some b ∧ Best hit prio n b := by
  induction n with
  | zero => exact .inl ⟨rfl, fun q hq => absurd hq (Nat.not_lt_zero q)⟩
  | succ n ih =>
    rcases ih with ⟨hnone, hmiss⟩ | ⟨b, hsome, hbest⟩
    · cases hn : hit n with
      | false =>
        refine .inl ⟨by simp [bestOf, hnone, hn], fun q hq => ?_⟩
        rcases Nat.lt_succ_iff_lt_or_eq.mp hq with hlt | rfl
        · exact hmiss q hlt
        · exact hn
      | true =>
        refine .inr ⟨n, by simp [bestOf, hnone, hn], Nat.lt_succ_self n, hn, ?_, ?_⟩
        · intro q hq hhit
          rcases Nat.lt_succ_iff_lt_or_eq.mp hq with hlt | rfl
          · rw [hmiss q hlt] at hhit
            cases hhit
          · exact le_rfl
        · intro q hq hhit
          rw [hmiss q hq] at hhit
          cases hhit
    · by_cases hbetter : hit n = true ∧ prio b < prio n
      · obtain ⟨hn, hlt⟩ := hbetter
        refine .inr ⟨n, by simp [bestOf, hsome, hn, hlt], Nat.lt_succ_self n, hn, ?_, ?_⟩
        · intro q hq hhit
          rcases Nat.lt_succ_iff_lt_or_eq.mp hq with hq | rfl
          · exact (hbest.highest q hq hhit).trans hlt.le
          · exact le_rfl
        · intro q hq hhit
          exact (hbest.highest q hq hhit).trans_lt hlt
      · refine .inr ⟨b, ?_, hbest.later fun hn => not_lt.mp fun hlt => hbetter ⟨hn, hlt⟩⟩
        simp only [bestOf, hsome]
        rw [if_neg (by simpa using hbetter)]

theorem bestOf_eq_some {b : ℕ} (h : bestOf hit prio n = some b) : Best hit prio n b := by
  rcases bestOf_result hit prio n with ⟨hnone, -⟩ | ⟨b', hsome, hbest⟩
  · rw [hnone] at h
    cases h
  · cases hsome.symm.trans h
    exact hbest

theorem bestOf_eq_none_iff : bestOf hit prio n = none ↔ ∀ q < n, hit q = false := by
  rcases bestOf_result hit prio n with ⟨hnone, hmiss⟩ | ⟨b, hsome, hbest⟩
  · simp only [hnone, true_iff]
    exact hmiss
  · simp only [hsome, reduceCtorEq, false_iff, not_forall]
    exact ⟨b, hbest.lt, by simp [hbest.isHit]⟩

theorem bestOf_congr {hit' : ℕ → Bool} (h : ∀ q < n, hit q = hit' q) :
    bestOf hit prio n = bestOf hit' prio n := by
  induction n with
  | zero => rfl
  | succ n ih =>
    rw [bestOf, bestOf, ih fun q hq => h q (Nat.lt_succ_of_lt hq), h n (Nat.lt_succ_self n)]

theorem bestOf_congr_prio {prio' : ℕ → α} (h : ∀ q < n, prio q = prio' q) :
    bestOf hit prio n = bestOf hit prio' n := by
  induction n with
  | zero => rfl
  | succ n ih =>
    rw [bestOf, bestOf, ← ih fun q hq => h q (Nat.lt_succ_of_lt hq)]
    cases hbest : bestOf hit prio n with
    | none => rfl
    | some b =>
      have hb := (bestOf_eq_some hbest).lt
      simp only [h n (Nat.lt_succ_self n), h b (Nat.lt_succ_of_lt hb)]

/-- Keep the best hit, or replace it by the next one. -/
theorem bestOf_step (hit : ℕ → Bool) (prio : ℕ → α) (n : ℕ) :
    bestOf hit prio (n + 1) =
      if hit n = true ∧ (bestOf hit prio n).all (fun b => decide (prio b < prio n)) = true
        then some n else bestOf hit prio n := by
  rw [bestOf]
  cases bestOf hit prio n with
  | none => cases hit n <;> rfl
  | some b => simp only [Bool.and_eq_true, Option.all_some]

section Lists
variable {β : Type*} (hit : β → Bool) (prio : β → α)

def better (best : Option β) (v : β) : Option β :=
  if hit v = true ∧ best.all (fun b => decide (prio b < prio v)) = true then some v else best

/-- The first hit of highest priority in a list. -/
def pick (l : List β) : Option β := l.foldl (better hit prio) none

theorem pick_map_range (f : ℕ → β) (n : ℕ) :
    pick hit prio ((List.range n).map f) =
      (bestOf (fun i => hit (f i)) (fun i => prio (f i)) n).map f := by
  induction n with
  | zero => rfl
  | succ n ih =>
    rw [List.range_succ, List.map_append, pick, List.foldl_append, ← pick, ih, bestOf_step]
    simp only [List.map_cons, List.map_nil, List.foldl_cons, List.foldl_nil, better,
      Option.all_map]
    split_ifs <;> rfl

variable {hit prio}

/-- A candidate does not count when one of higher priority comes after it. -/
theorem better_passed {a b : β} (hlt : prio a < prio b) (hb : hit b = true) (best : Option β) :
    better hit prio (better hit prio best a) b = better hit prio best b := by
  cases best with
  | none =>
    cases ha : hit a
    · simp [better, ha]
    · simp [better, ha, hb, hlt]
  | some c =>
    by_cases ha : hit a = true ∧ prio c < prio a
    · simp [better, ha, hb, hlt, ha.2.trans hlt]
    · have hkeep : better hit prio (some c) a = some c := by
        simpa only [better, Option.all_some, decide_eq_true_eq] using if_neg ha
      rw [hkeep]

/-- Nor does it when one of higher priority has come before it. -/
theorem better_kept {a b : β} (hlt : prio a < prio b) (hb : hit b = true) (best : Option β) :
    better hit prio (better hit prio best b) a = better hit prio best b := by
  have hlow : ∀ c, prio b ≤ prio c → better hit prio (some c) a = some c := fun c hle => by
    simp [better, (hlt.le.trans hle).not_gt]
  cases best with
  | none =>
    have hfirst : better hit prio none b = some b := by simp [better, hb]
    rw [hfirst, hlow b le_rfl]
  | some c =>
    by_cases hcb : prio c < prio b
    · have hnext : better hit prio (some c) b = some b := by simp [better, hb, hcb]
      rw [hnext, hlow b le_rfl]
    · have hkeep : better hit prio (some c) b = some c := by simp [better, hcb]
      rw [hkeep, hlow c (not_lt.mp hcb)]

/-- Two candidates that cannot tie may come in either order. -/
theorem better_comm {a b : β} (h : prio a ≠ prio b ∨ ¬ (hit a = true ∧ hit b = true))
    (best : Option β) :
    better hit prio (better hit prio best a) b = better hit prio (better hit prio best b) a := by
  by_cases ha : hit a = true
  · by_cases hb : hit b = true
    · rcases lt_or_gt_of_ne (h.resolve_right fun hnot => hnot ⟨ha, hb⟩) with hlt | hgt
      · rw [better_passed hlt hb, better_kept hlt hb]
      · rw [better_passed hgt ha, better_kept hgt ha]
    · simp [better, hb]
  · simp [better, ha]

/-- Two values inserted next to each other. -/
theorem pick_swap {a b : β} (h : prio a ≠ prio b ∨ ¬ (hit a = true ∧ hit b = true))
    (l : List β) (i : ℕ) :
    pick hit prio ((l.insertIdx i a).insertIdx (i + 1) b) =
      pick hit prio ((l.insertIdx i b).insertIdx (i + 1) a) := by
  rw [pick, pick]
  generalize none = best
  induction l generalizing i best with
  | nil =>
    cases i with
    | zero => exact better_comm h best
    | succ i => rfl
  | cons c l ih =>
    cases i with
    | zero => exact congrArg (fun s => (c :: l).foldl (better hit prio) s) (better_comm h best)
    | succ i => exact ih i (better hit prio best c)

end Lists

end NetWalk.PriorityScan
