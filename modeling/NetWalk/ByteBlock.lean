import Mathlib.Data.Int.Notation
import Mathlib.Tactic.Common

/-!
# Byte arrays whose accesses are checked

A C array of `n` bytes, or the block a caller's pointer designates. An access
at an index outside the array has no defined result; it is `none` here, so a
program that returns `some` has kept every access inside its arrays. Indices
are integers because C index arithmetic may be negative.

`byte` is the total view used in statements. A copying loop over consecutive
cells is one slice access: it is defined exactly when each of its cells is.
-/
namespace NetWalk.ByteBlock

/-- An array of `n` bytes. -/
structure Block (n : ℕ) where
  cell : Fin n → UInt8

namespace Block
variable {n m : ℕ}

def ofFn (f : ℕ → UInt8) : Block n := ⟨fun k => f k⟩

/-- Cell `k`, and zero beyond the end. -/
def byte (b : Block n) (k : ℕ) : UInt8 := if h : k < n then b.cell ⟨k, h⟩ else 0

theorem byte_ofFn {f : ℕ → UInt8} {k : ℕ} (hk : k < n) :
    (ofFn f : Block n).byte k = f k := by
  simp [byte, ofFn, hk]

theorem ext_byte {a b : Block n} (h : ∀ k < n, a.byte k = b.byte k) : a = b := by
  obtain ⟨a⟩ := a
  obtain ⟨b⟩ := b
  congr
  funext k
  simpa [byte] using h k k.isLt

instance : DecidableEq (Block n) := fun a b =>
  decidable_of_iff (∀ k < n, a.byte k = b.byte k) ⟨ext_byte, fun h _ _ => by rw [h]⟩

/-- Index `i` lies inside an array of `n` cells. -/
abbrev Inside (n : ℕ) (i : ℤ) : Prop := 0 ≤ i ∧ i < n

def read (b : Block n) (i : ℤ) : Option UInt8 :=
  if Inside n i then some (b.byte i.toNat) else none

def set (b : Block n) (k : ℕ) (v : UInt8) : Block n :=
  ofFn fun j => if j = k then v else b.byte j

def write (b : Block n) (i : ℤ) (v : UInt8) : Option (Block n) :=
  if Inside n i then some (b.set i.toNat v) else none

theorem byte_set (b : Block n) {k j : ℕ} (v : UInt8) (hj : j < n) :
    (b.set k v).byte j = if j = k then v else b.byte j := byte_ofFn hj

theorem read_natCast (b : Block n) {k : ℕ} (hk : k < n) : b.read k = some (b.byte k) := by
  simp [read, hk]

theorem write_natCast (b : Block n) {k : ℕ} (v : UInt8) (hk : k < n) :
    b.write k v = some (b.set k v) := by
  simp [write, hk]

theorem write_outside (b : Block n) {i : ℤ} (v : UInt8) (hi : ¬ Inside n i) :
    b.write i v = none := if_neg hi

/-- Cells `k, ..., k + m - 1` as an array of their own. -/
def slice (b : Block n) (k m : ℕ) : Block m := ofFn fun j => b.byte (k + j)

theorem byte_slice (b : Block n) {k j : ℕ} (hj : j < m) :
    (b.slice k m).byte j = b.byte (k + j) := byte_ofFn hj

/-- `b` with the cells from `k` on replaced by those of `src`. -/
def splice (b : Block n) (k : ℕ) (src : Block m) : Block n :=
  ofFn fun j => if k ≤ j ∧ j < k + m then src.byte (j - k) else b.byte j

theorem byte_splice (b : Block n) (src : Block m) {k j : ℕ} (hj : j < n) :
    (b.splice k src).byte j = if k ≤ j ∧ j < k + m then src.byte (j - k) else b.byte j :=
  byte_ofFn hj

def readSlice (b : Block n) (i : ℤ) (m : ℕ) : Option (Block m) :=
  if 0 ≤ i ∧ i + m ≤ n then some (b.slice i.toNat m) else none

def writeSlice (b : Block n) (i : ℤ) (src : Block m) : Option (Block n) :=
  if 0 ≤ i ∧ i + m ≤ n then some (b.splice i.toNat src) else none

theorem readSlice_natCast (b : Block n) {k : ℕ} (hk : k + m ≤ n) :
    b.readSlice k m = some (b.slice k m) := by
  have h : (k : ℤ) + m ≤ n := by omega
  simp [readSlice, h]

theorem writeSlice_natCast (b : Block n) (src : Block m) {k : ℕ} (hk : k + m ≤ n) :
    b.writeSlice k src = some (b.splice k src) := by
  have h : (k : ℤ) + m ≤ n := by omega
  simp [writeSlice, h]

def toList (b : Block n) : List UInt8 := (List.range n).map b.byte

@[simp] theorem length_toList (b : Block n) : b.toList.length = n := by simp [toList]

theorem getElem?_toList (b : Block n) {k : ℕ} (hk : k < n) :
    b.toList[k]? = some (b.byte k) := by
  simp [toList, hk]

/-- `b` with its first cells replaced by the bytes of a list. -/
def overwrite (b : Block n) (l : List UInt8) : Block n :=
  ofFn fun j => l[j]?.getD (b.byte j)

theorem byte_overwrite (b : Block n) (l : List UInt8) {j : ℕ} (hj : j < n) :
    (b.overwrite l).byte j = l[j]?.getD (b.byte j) := byte_ofFn hj

theorem take_overwrite (b : Block n) {l : List UInt8} (hl : l.length ≤ n) :
    (b.overwrite l).toList.take l.length = l := by
  apply List.ext_getElem?
  intro j
  by_cases hj : j < l.length
  · rw [List.getElem?_take_of_lt hj, getElem?_toList _ (by omega),
      byte_overwrite _ _ (by omega), List.getElem?_eq_getElem hj]
    rfl
  · rw [List.getElem?_eq_none (by simp; omega), List.getElem?_eq_none (by omega)]

end Block

/-- A sequence of two partial computations is defined when both are. -/
theorem bind_some_of {α β : Type} {x : Option α} {f : α → Option β} {a : α} {b : β}
    (hx : x = some a) (hf : f a = some b) : (x >>= f) = some b := by
  rw [hx]
  exact hf

theorem bind_some_eq {α β : Type} {x : Option α} {f : α → Option β} {a : α} (hx : x = some a) :
    (x >>= f) = f a := by
  rw [hx]
  rfl

theorem bind_inv {α β : Type} {x : Option α} {f : α → Option β} {b : β}
    (h : (x >>= f) = some b) : ∃ a, x = some a ∧ f a = some b := Option.bind_eq_some_iff.mp h

section Fill
variable {σ : Type} {n : ℕ} {next : σ → Option (UInt8 × σ)}

/-- The loop that stores `count` results of a reader in successive cells. -/
def fill (next : σ → Option (UInt8 × σ)) : ℕ → ℕ → σ → Block n → Option (σ × Block n)
  | 0, _, s, b => some (s, b)
  | count + 1, i, s, b => do
      let (v, s) ← next s
      let b ← b.write i v
      fill next count (i + 1) s b

/-- If the reader's `k`-th result is `src k` as long as `R k` holds before it,
the loop stores a stretch of `src`. -/
theorem fill_spec (R : ℕ → σ → Prop) (src : ℕ → UInt8) {K : ℕ}
    (hnext : ∀ k s, k < K → R k s → ∃ s', next s = some (src k, s') ∧ R (k + 1) s')
    (count i k : ℕ) {s : σ} (b : Block n) (hk : k + count ≤ K) (hi : i + count ≤ n)
    (hR : R k s) :
    ∃ s' b', fill next count i s b = some (s', b') ∧ R (k + count) s' ∧
      ∀ j < n, b'.byte j = if i ≤ j ∧ j < i + count then src (k + (j - i)) else b.byte j := by
  induction count generalizing i k s b with
  | zero => exact ⟨s, b, rfl, hR, fun j _ => by rw [if_neg (by omega)]⟩
  | succ count ih =>
    obtain ⟨s₁, hs₁, hR₁⟩ := hnext k s (by omega) hR
    obtain ⟨s', b', hfill, hR', hb'⟩ :=
      ih (i + 1) (k + 1) (b.set i (src k)) (by omega) (by omega) hR₁
    refine ⟨s', b', ?_, by rwa [show k + (count + 1) = k + 1 + count by omega], ?_⟩
    · simpa [fill, hs₁, Block.write_natCast _ _ (show i < n by omega)] using hfill
    · intro j hj
      rw [hb' j hj, Block.byte_set _ _ hj]
      rcases Nat.lt_trichotomy j i with hlt | rfl | hgt
      · rw [if_neg (by omega), if_neg (by omega), if_neg (by omega)]
      · rw [if_neg (by omega), if_pos rfl, if_pos (by omega), Nat.sub_self, Nat.add_zero]
      · by_cases hin : j < i + 1 + count
        · rw [if_pos (by omega), if_pos (by omega)]
          congr 1
          omega
        · rw [if_neg (by omega), if_neg (by omega), if_neg (by omega)]

/-- What each result of the reader keeps, a loop that comes to its end keeps too. -/
theorem fill_keeps (R : ℕ → σ → Prop)
    (hnext : ∀ k s v s', R k s → next s = some (v, s') → R (k + 1) s')
    (count i k : ℕ) {s s' : σ} {b b' : Block n} (hfill : fill next count i s b = some (s', b'))
    (hR : R k s) : R (k + count) s' := by
  induction count generalizing i k s b with
  | zero =>
    cases hfill
    exact hR
  | succ count ih =>
    obtain ⟨⟨v, s₁⟩, hs₁, hfill⟩ := bind_inv hfill
    obtain ⟨b₁, -, hfill⟩ := bind_inv hfill
    rw [show k + (count + 1) = k + 1 + count by omega]
    exact ih (i + 1) (k + 1) hfill (hnext k s v s₁ hR hs₁)

/-- A loop whose reader always delivers stays inside the block exactly when its cells are
there; the cells before them are kept. -/
theorem fill_inside (R : σ → Prop) (hnext : ∀ s, R s → ∃ v s', next s = some (v, s') ∧ R s')
    (count i : ℕ) {s : σ} (b : Block n) (hin : i + count ≤ n) (hR : R s) :
    ∃ s' b', fill next count i s b = some (s', b') ∧ ∀ j < i, b'.byte j = b.byte j := by
  induction count generalizing i s b with
  | zero => exact ⟨s, b, rfl, fun _ _ => rfl⟩
  | succ count ih =>
    obtain ⟨v, s₁, hs₁, hR₁⟩ := hnext s hR
    obtain ⟨s', b', hfill, hkept⟩ := ih (i + 1) (b.set i v) (by omega) hR₁
    refine ⟨s', b', ?_, fun j hj => ?_⟩
    · simpa [fill, hs₁, Block.write_natCast _ _ (show i < n by omega)] using hfill
    · rw [hkept j (by omega), Block.byte_set _ _ (by omega), if_neg (by omega)]

theorem fill_outside (count i : ℕ) {s : σ} (b : Block n) (hi : i ≤ n) (hout : n < i + count) :
    fill next count i s b = none := by
  induction count generalizing i s b with
  | zero => omega
  | succ count ih =>
    refine Option.bind_eq_none_iff.mpr fun ⟨v, s₁⟩ _ => ?_
    change (b.write i v >>= fun b => fill next count (i + 1) s₁ b) = none
    rcases Nat.lt_or_eq_of_le hi with hlt | heq
    · rw [Block.write_natCast b v hlt]
      exact ih (i + 1) (b.set i v) hlt (by omega)
    · rw [Block.write_outside b v (by rw [Block.Inside]; omega)]
      rfl

end Fill

end NetWalk.ByteBlock
