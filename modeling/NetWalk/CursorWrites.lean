import NetWalk.ByteBlock

/-!
# Fields written one behind the other

A cursor runs over an array. Each write copies some bytes of a field to where the cursor
stands, and then the cursor is moved on, by more cells perhaps than were written. `cells`
tells what the array holds from the start on: a byte of a field, or nothing new where the
cursor was moved over a cell. A cell is thus either what it was before, or independent of
what the whole array was before.
-/
namespace NetWalk.CursorWrites
open ByteBlock
variable {n m : ℕ}

/-- The array and the cursor. -/
structure Writing (n : ℕ) where
  data : Block n
  i : UInt8

/-- The loop that copies `count` bytes of a field to the cells from `i` on. -/
def writeField (count : ℕ) (field : Block m) (data : Block n) (i : UInt8) : Option (Block n) := do
  let bytes ← field.readSlice 0 count
  data.writeSlice i.toNat bytes

/-- A write at the cursor, which is moved on. -/
def put (write : Block n → UInt8 → Option (Block n)) (advance : UInt8) (s : Writing n) :
    Option (Writing n) := do
  let data ← write s.data s.i
  some ⟨data, s.i + advance⟩

/-- A field, the number of its bytes that are copied, and the move of the cursor. -/
structure Field where
  size : ℕ
  bytes : Block size
  count : ℕ
  advance : UInt8

namespace Field

def put (f : Field) (s : Writing n) : Option (Writing n) :=
  CursorWrites.put (writeField f.count f.bytes) f.advance s

/-- What the cells hold that the cursor is moved over. -/
def cells (f : Field) : List (Option UInt8) :=
  (List.range f.advance.toNat).map fun k => if k < f.count then some (f.bytes.byte k) else none

theorem length_cells (f : Field) : f.cells.length = f.advance.toNat := by
  simp [cells]

theorem getElem?_cells (f : Field) {k : ℕ} (hk : k < f.advance.toNat) :
    f.cells[k]?.join = if k < f.count then some (f.bytes.byte k) else none := by
  simp [cells, hk]

/-- No more bytes are copied than the field has and the cursor is moved on. -/
structure Fits (f : Field) : Prop where
  count_le : f.count ≤ f.size
  within : f.count ≤ f.advance.toNat

instance (f : Field) : Decidable f.Fits :=
  decidable_of_iff (f.count ≤ f.size ∧ f.count ≤ f.advance.toNat)
    ⟨fun ⟨hcount, hwithin⟩ => ⟨hcount, hwithin⟩, fun h => ⟨h.count_le, h.within⟩⟩

end Field

/-- What cell `j` was last written, the cells given beginning at `start`. -/
def cellAt (start : ℕ) (cells : List (Option UInt8)) (j : ℕ) : Option UInt8 :=
  if start ≤ j then cells[j - start]?.join else none

/-- `b` is `b₀` with the cells from `start` on written. -/
def Holds (b₀ b : Block n) (start : ℕ) (cells : List (Option UInt8)) : Prop :=
  ∀ j < n, b.byte j = (cellAt start cells j).getD (b₀.byte j)

theorem holds_nil (b : Block n) (start : ℕ) : Holds b b start [] := by
  intro j _
  simp [cellAt]

section Steps
variable {b₀ : Block n} {start : ℕ} {cells : List (Option UInt8)} {f : Field} {s : Writing n}

theorem cellAt_append (more : List (Option UInt8)) (j : ℕ) :
    cellAt start (cells ++ more) j =
      if j < start + cells.length then cellAt start cells j
      else cellAt (start + cells.length) more j := by
  simp only [cellAt]
  split_ifs with hstart hlt hge
  · rw [List.getElem?_append_left (by omega)]
  · rw [List.getElem?_append_right (by omega), show j - start - cells.length =
      j - (start + cells.length) by omega]
  · omega
  · rfl
  · omega
  · rfl

theorem put_spec (hf : f.Fits) (hs : Holds b₀ s.data start cells)
    (hi : s.i.toNat = start + cells.length)
    (hroom : start + cells.length + f.advance.toNat ≤ n)
    (hsmall : start + cells.length + f.advance.toNat < 256) :
    ∃ s', f.put s = some s' ∧ Holds b₀ s'.data start (cells ++ f.cells) ∧
      s'.i.toNat = start + (cells ++ f.cells).length := by
  have hcount := hf.count_le
  have hwithin := hf.within
  have hread := Block.readSlice_natCast f.bytes (k := 0) (m := f.count) (by omega)
  have hwrite := Block.writeSlice_natCast s.data (f.bytes.slice 0 f.count)
    (k := s.i.toNat) (by omega)
  refine ⟨_, bind_some_of (bind_some_of hread hwrite) rfl, fun j hj => ?_, ?_⟩
  · rw [Block.byte_splice _ _ hj, cellAt_append, hi, hs j hj]
    by_cases hbefore : j < start + cells.length
    · rw [if_neg (by omega), if_pos hbefore]
    · have hold : cellAt start cells j = none := by
        rw [cellAt, if_pos (by omega), List.getElem?_eq_none (by omega)]
        rfl
      have hnew : cellAt (start + cells.length) f.cells j =
          f.cells[j - (start + cells.length)]?.join := if_pos (by omega)
      rw [if_neg hbefore, hold, hnew]
      by_cases hin : j - (start + cells.length) < f.advance.toNat
      · rw [f.getElem?_cells hin]
        by_cases hcopied : j - (start + cells.length) < f.count
        · rw [if_pos (by omega), if_pos hcopied, Block.byte_slice _ hcopied, Nat.zero_add]
          rfl
        · rw [if_neg (by omega), if_neg hcopied]
      · rw [if_neg (by omega), List.getElem?_eq_none (by rw [f.length_cells]; omega)]
        rfl
  · rw [List.length_append, f.length_cells]
    change (s.i + f.advance).toNat = _
    rw [UInt8.toNat_add, hi]
    omega

/-- What a list of fields leaves behind in the array. -/
def allCells (fields : List Field) : List (Option UInt8) := fields.flatMap Field.cells

def putAll (fields : List Field) (s : Writing n) : Option (Writing n) :=
  fields.foldlM (fun s f => f.put s) s

theorem putAll_spec (fields : List Field) (hfits : ∀ f ∈ fields, f.Fits)
    (hs : Holds b₀ s.data start cells) (hi : s.i.toNat = start + cells.length)
    (hroom : start + (cells ++ allCells fields).length ≤ n)
    (hsmall : start + (cells ++ allCells fields).length < 256) :
    ∃ s', putAll fields s = some s' ∧ Holds b₀ s'.data start (cells ++ allCells fields) ∧
      s'.i.toNat = start + (cells ++ allCells fields).length := by
  induction fields generalizing s cells with
  | nil => exact ⟨s, rfl, by simpa [allCells] using hs, by simpa [allCells] using hi⟩
  | cons f fields ih =>
    have hcells : cells ++ allCells (f :: fields) = cells ++ f.cells ++ allCells fields := by
      simp [allCells]
    rw [hcells] at hroom hsmall ⊢
    have hlen : (cells ++ f.cells ++ allCells fields).length =
        cells.length + f.advance.toNat + (allCells fields).length := by
      simp [f.length_cells, Nat.add_assoc]
    obtain ⟨s₁, hput, hs₁, hi₁⟩ := put_spec (hfits f List.mem_cons_self) hs hi
      (by omega) (by omega)
    obtain ⟨s', hputs, hs', hi'⟩ := ih (fun g hg => hfits g (List.mem_cons_of_mem _ hg)) hs₁ hi₁
      hroom hsmall
    exact ⟨s', bind_some_of hput hputs, hs', hi'⟩

/-- Wherever the fields were put, the cursor has been moved. -/
theorem putAll_cursor (fields : List Field) {s' : Writing n} (h : putAll fields s = some s') :
    s'.i = fields.foldl (fun i f => i + f.advance) s.i := by
  induction fields generalizing s with
  | nil =>
    cases h
    rfl
  | cons f fields ih =>
    obtain ⟨s₁, hput, h⟩ := bind_inv h
    obtain ⟨data, -, hput⟩ := bind_inv hput
    cases hput
    exact ih h

end Steps

end NetWalk.CursorWrites
