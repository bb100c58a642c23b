import NetWalk.RingPrinting
import NetWalk.FlowCache
import NetWalk.FieldCopies

/-!
# What `apply_action` puts out

The source applies an action by printing it: each field of the action set that the
flag of the entry selects is extracted into a scratch array, of which a whole number of
bytes is printed. The scratch array is shared by the fields and not initialised; where
a field does not fill its bytes, the source clears them before. The set that is printed
is the local `action_set`, filled in one place after a hit in the cache and in another
after a search.
-/
namespace NetWalk.ActionOutput
open ByteBlock BitOperations SlotTable RingPrinting FlowTables FlowSearch FlowCache ModifyEntry
open FieldCopies

/-- A branch of `apply_action`: the bits of the action set, how many bytes of the scratch
array are cleared first and how many are printed, and whether tabs stand behind them. -/
structure ActionField where
  flagBit : ℕ
  title : String
  cleared : ℕ
  strtBit : ℕ
  endBit : ℕ
  printed : ℕ
  tabs : Bool

def actionFields : List ActionField := [
  ⟨1, "\nMAC Src: ", 0, 0, 47, 6, true⟩,
  ⟨2, "\nMAC Dst: ", 0, 48, 95, 6, true⟩,
  ⟨3, "\nVLAN ID: ", 6, 96, 107, 2, true⟩,
  ⟨4, "\nVLAN Priority: ", 6, 108, 110, 1, false⟩,
  ⟨5, "\nMPLS Label: ", 6, 111, 130, 3, true⟩,
  ⟨6, "\nMPLS Trff. Cls: ", 6, 131, 133, 1, false⟩,
  ⟨7, "\nIPv4 Src: ", 0, 134, 165, 4, true⟩,
  ⟨8, "\nIPv4 Dst: ", 0, 166, 197, 4, true⟩,
  ⟨9, "\nIPv4 ToS: ", 1, 198, 203, 1, true⟩,
  ⟨10, "\nTCP Src: ", 0, 204, 219, 2, true⟩,
  ⟨11, "\nTCP Dst: ", 0, 220, 235, 2, true⟩]

section Model

/-- Set the first `count` bytes to 0. -/
def clear {n : ℕ} (val : Block n) (count : ℕ) : Block n :=
  (List.range count).foldl (fun val i => val.set i 0) val

/-- The title, and the bytes that the field prints. -/
def ActionField.print (f : ActionField) (byte : ℕ → UInt8) : List (Token UInt8) :=
  .text f.title :: (List.range f.printed).flatMap fun i =>
    if f.tabs then [.item (byte i), .text "\t"] else [.item (byte i)]

/-- The scratch array, and what has been printed. -/
structure Applying where
  val : Block 6
  output : List (Token UInt8)

def applyField (actionFlag : Block 2) (actionSet : Block actnStLen) (s : Applying)
    (f : ActionField) : Option Applying := do
  if ← readBit actionFlag f.flagBit then
    let val ← extractField actionSet 0 f.strtBit f.endBit (clear s.val f.cleared)
    some ⟨val, s.output ++ f.print val.byte⟩
  else some s

/-- What follows when an entry has been found. -/
def printActions (found : Lookup) (val : Block 6) (output : List (Token UInt8)) :
    Option (List (Token UInt8)) := do
  let flag0 ← found.tcam.flagTable.read (2 * found.pos)
  let flag1 ← found.tcam.flagTable.read (2 * found.pos + 1)
  let actionFlag : Block 2 := Block.ofFn fun i => if i = 0 then flag0 else flag1
  let output := output ++ [.text "\nActions applied: "]
  if ← readBit actionFlag 0 then some (output ++ [.text "\nDrop Packet"])
  else
    let s ← actionFields.foldlM (applyField actionFlag found.actionSet) ⟨val, output⟩
    some (s.output ++ [.text "\nOutput Port: ", .item (found.actionSet.byte 30)])

/-- `apply_action` with its output. The arrays `actionSet` and `val` and the position
`maskPos` are what the uninitialised locals hold. -/
def applyActionOutput (tcam : TcamUnit) (cache : Cache) (newFlow : Block mtchFldLen)
    (actionSet : Block actnStLen) (maskPos : ℤ) (val : Block 6) :
    Option (ℤ × Lookup × List (Token UInt8)) := do
  let (pos, tcam) ← searchCache tcam cache newFlow
  let (found, output) ← (if 0 ≤ pos then do
      let actionSet ← tcam.actionTable.readSlice (pos * actnStLen) actnStLen
      some (⟨pos, tcam, cache, actionSet, maskPos⟩, [.text "\nCache Hit"])
    else do
      let found ← searchFlow tcam cache newFlow actionSet maskPos
      some (found, []))
  if found.pos < 0 then
    some (found.pos, found, output ++ [.text "\nSend to policy controller"])
  else
    let output ← printActions found val output
    some (1, found, output)

end Model

section Fields
variable {n : ℕ}

/-- Byte `i` of the bits `s, ..., t` of an array: they are put at its front, with zeros
behind them. -/
def fieldByte (b : Block n) (s t i : ℕ) : UInt8 :=
  packByte (fun q => decide (s + q ≤ t) && bit b (s + q)) i

theorem byte_clear (val : Block n) (count : ℕ) {i : ℕ} (hi : i < n) :
    (clear val count).byte i = if i < count then 0 else val.byte i := by
  induction count with
  | zero => rfl
  | succ count ih =>
    have hstep : clear val (count + 1) = (clear val count).set count 0 := by
      rw [clear, clear, List.range_succ, List.foldl_append]
      rfl
    rw [hstep, Block.byte_set _ _ hi, ih]
    rcases Nat.lt_trichotomy i count with hlt | rfl | hgt
    · rw [if_neg (by omega), if_pos hlt, if_pos (by omega)]
    · rw [if_pos rfl, if_pos (by omega)]
    · rw [if_neg (by omega), if_neg (by omega), if_neg (by omega)]

theorem bit_clear (val : Block n) (count : ℕ) {q : ℕ} (hq : q < 8 * n) :
    bit (clear val count) q = if q < 8 * count then false else bit val q := by
  rw [bit, byte_clear _ _ (show q / 8 < n by omega)]
  by_cases hlt : q < 8 * count
  · rw [if_pos (show q / 8 < count by omega), if_pos hlt, byteBit]
    exact BitVec.getLsbD_zero
  · rw [if_neg (show ¬ q / 8 < count by omega), if_neg hlt]
    rfl

/-- Bytes that a field does not fill are cleared before, and the field is inside the
action set. -/
structure ActionField.Sound (f : ActionField) : Prop where
  flagBit : f.flagBit < 16
  ordered : f.strtBit ≤ f.endBit
  inside : f.endBit < 8 * actnStLen
  fits : f.endBit < f.strtBit + 48
  printed : f.printed ≤ 6
  filled : f.strtBit + 8 * f.printed ≤ f.endBit + 1 ∨ f.printed ≤ f.cleared

theorem actionFields_sound {f : ActionField} (hf : f ∈ actionFields) : f.Sound := by
  have hall : ∀ f ∈ actionFields, f.flagBit < 16 ∧ f.strtBit ≤ f.endBit ∧
      f.endBit < 8 * actnStLen ∧ f.endBit < f.strtBit + 48 ∧ f.printed ≤ 6 ∧
      (f.strtBit + 8 * f.printed ≤ f.endBit + 1 ∨ f.printed ≤ f.cleared) := by decide
  obtain ⟨h₁, h₂, h₃, h₄, h₅, h₆⟩ := hall f hf
  exact ⟨h₁, h₂, h₃, h₄, h₅, h₆⟩

variable {f : ActionField}

/-- What a field puts out for an action set, given by its bits. -/
def shownField (actionFlag : Block 2) (actionSet : Block actnStLen) (f : ActionField) :
    List (Token UInt8) :=
  if bit actionFlag f.flagBit then f.print (fieldByte actionSet f.strtBit f.endBit) else []

theorem ActionField.print_congr {byte byte' : ℕ → UInt8}
    (h : ∀ i < f.printed, byte i = byte' i) : f.print byte = f.print byte' := by
  unfold ActionField.print
  congr 1
  refine List.flatMap_congr fun i hi => ?_
  rw [h i (List.mem_range.mp hi)]

/-- The bytes printed are those of the field, whatever the scratch array held. -/
theorem extracted_bytes (hf : f.Sound) (actionSet : Block actnStLen) (val : Block 6) :
    ∃ val', extractField actionSet 0 f.strtBit f.endBit (clear val f.cleared) = some val' ∧
      ∀ i < f.printed, val'.byte i = fieldByte actionSet f.strtBit f.endBit i := by
  obtain ⟨-, hordered, hinside, hfits, hprinted, hfilled⟩ := hf
  have hend : (f.endBit : ℤ) + 1 = (f.strtBit + (f.endBit + 1 - f.strtBit) : ℕ) := by omega
  have hlast : 8 * (actnStLen * 0) + f.strtBit + (f.endBit + 1 - f.strtBit) ≤ 8 * actnStLen := by
    omega
  obtain ⟨val', hextract, hbits⟩ := extractField_spec (e := 0) actionSet (clear val f.cleared)
    hend (positionsFit_of_le hlast (by decide)) hlast (by omega)
  refine ⟨val', hextract, fun i hi => byte_eq_packByte _ fun q hq => ?_⟩
  rw [hbits _ (by omega)]
  by_cases hin : 8 * i + q < f.endBit + 1 - f.strtBit
  · rw [if_pos hin, decide_eq_true (by omega), Bool.true_and, Nat.mul_zero, Nat.mul_zero,
      Nat.zero_add]
  · rw [if_neg hin, decide_eq_false (by omega), Bool.false_and, bit_clear _ _ (by omega),
      if_pos (by omega)]

theorem applyField_spec (hf : f.Sound) (actionFlag : Block 2) (actionSet : Block actnStLen)
    (s : Applying) :
    ∃ s', applyField actionFlag actionSet s f = some s' ∧
      s'.output = s.output ++ shownField actionFlag actionSet f := by
  have hread := readBit_natCast actionFlag (show f.flagBit < 8 * 2 from hf.flagBit)
  rw [applyField, bind_some_eq hread, shownField]
  cases bit actionFlag f.flagBit with
  | false => exact ⟨s, rfl, (List.append_nil _).symm⟩
  | true =>
    obtain ⟨val', hextract, hbytes⟩ := extracted_bytes hf actionSet s.val
    refine ⟨_, bind_some_of hextract rfl, ?_⟩
    rw [if_pos rfl, f.print_congr hbytes]

/-- The fields put out one after the other. -/
theorem applyFields_spec (actionFlag : Block 2) (actionSet : Block actnStLen)
    {l : List ActionField} (hl : ∀ f ∈ l, f.Sound) (s : Applying) :
    ∃ s', l.foldlM (applyField actionFlag actionSet) s = some s' ∧
      s'.output = s.output ++ l.flatMap (shownField actionFlag actionSet) := by
  induction l generalizing s with
  | nil => exact ⟨s, rfl, (List.append_nil _).symm⟩
  | cons f l ih =>
    obtain ⟨s₁, hfield, hs₁⟩ := applyField_spec (hl f List.mem_cons_self) actionFlag actionSet s
    obtain ⟨s', hrest, hs'⟩ := ih (fun g hg => hl g (List.mem_cons_of_mem _ hg)) s₁
    refine ⟨s', ?_, ?_⟩
    · rw [List.foldlM_cons]
      exact bind_some_of hfield hrest
    · rw [hs', hs₁, List.flatMap_cons, List.append_assoc]

end Fields

/-- What is put out for the flag and the action set of an entry. -/
def shownActions (flag : Block 2) (actionSet : Block actnStLen) : List (Token UInt8) :=
  if bit flag 0 then [.text "\nDrop Packet"]
  else actionFields.flatMap (shownField flag actionSet) ++
    [.text "\nOutput Port: ", .item (actionSet.byte 30)]

/-- The search of the cache ends with a hit. -/
def cacheHits (tcam : TcamUnit) (cache : Cache) (flow : Block mtchFldLen) : Bool :=
  (searchCache tcam cache flow).any fun r => decide (0 ≤ r.1)

/-- What is put out for the entry taken. -/
def shownLookup (cached : Bool) (found : Lookup) : List (Token UInt8) :=
  if found.pos < 0 then [.text "\nSend to policy controller"]
  else (if cached then [.text "\nCache Hit"] else []) ++ .text "\nActions applied: " ::
    shownActions (found.tcam.flag found.pos.toNat) (found.tcam.action found.pos.toNat)

section Lookups
variable {tcam : TcamUnit} {cache : Cache} {flow : Block mtchFldLen}
  {actionSet : Block actnStLen} {maskPos : ℤ} {found : Lookup}

/-- A row that can be copied is one of the table. -/
theorem readSlice_slot_inv {w c : ℕ} {b : Block (w * c)} {pos : ℤ} {row : Block w} (hw : 0 < w)
    (hpos : 0 ≤ pos) (h : b.readSlice (pos * w) w = some row) :
    ∃ p < c, pos = (p : ℕ) ∧ row = slot b p := by
  obtain ⟨p, rfl⟩ := Int.eq_ofNat_of_zero_le hpos
  have hin : w * p + w ≤ w * c := by
    by_contra hout
    rw [cast_start, Block.readSlice, if_neg (by omega)] at h
    cases h
  have hp : p < c := Nat.lt_of_mul_lt_mul_left (a := w) (by omega)
  have hread := readSlice_slot b hp le_rfl (show (p : ℤ) * w = (p : ℤ) * w from rfl)
  rw [slice_self] at hread
  exact ⟨p, hp, rfl, Option.some_inj.mp (h.symm.trans hread)⟩

/-- Both ways to an entry copy its action set. -/
theorem settle_action (h : settle tcam cache flow actionSet maskPos = some found)
    (hpos : 0 ≤ found.pos) :
    ∃ p < noFFlws, found.pos = (p : ℕ) ∧ found.actionSet = found.tcam.action p := by
  obtain ⟨⟨pos, tcam'⟩, -, h⟩ := bind_inv h
  simp only at h
  split_ifs at h with hcached
  · obtain ⟨actions, hread, h⟩ := bind_inv h
    cases h
    exact readSlice_slot_inv (by decide) hcached hread
  · obtain ⟨⟨pos', tcam'', maskPos'⟩, -, h⟩ := bind_inv h
    simp only at h
    split_ifs at h with hneg
    · cases h
      exact absurd hpos (not_le.mpr hneg)
    · obtain ⟨actions, hread, h⟩ := bind_inv h
      obtain ⟨cache', -, h⟩ := bind_inv h
      cases h
      exact readSlice_slot_inv (by decide) hpos hread

theorem printActions_spec {p : ℕ} (hp : p < noFFlws) (hpos : found.pos = p)
    (haction : found.actionSet = found.tcam.action p) (val : Block 6)
    (output : List (Token UInt8)) :
    printActions found val output = some (output ++ .text "\nActions applied: " ::
      shownActions (found.tcam.flag p) (found.tcam.action p)) := by
  have h₀ := read_slot found.tcam.flagTable hp (show 0 < 2 by decide)
    (show 2 * found.pos = (p : ℤ) * (2 : ℕ) + (0 : ℕ) by omega)
  have h₁ := read_slot found.tcam.flagTable hp (show 1 < 2 by decide)
    (show 2 * found.pos + 1 = (p : ℤ) * (2 : ℕ) + (1 : ℕ) by omega)
  have hflag : (Block.ofFn fun i => if i = 0 then (found.tcam.flag p).byte 0
      else (found.tcam.flag p).byte 1 : Block 2) = found.tcam.flag p := by
    apply Block.ext_byte
    intro i hi
    rw [Block.byte_ofFn hi]
    rcases Nat.lt_succ_iff_lt_or_eq.mp hi with hlt | rfl
    · rw [if_pos (by omega), show i = 0 by omega]
    · rfl
  have hdrop := readBit_natCast (found.tcam.flag p) (show 0 < 8 * 2 by decide)
  refine (bind_some_eq h₀).trans ((bind_some_eq h₁).trans ?_)
  simp only [TcamUnit.flag] at hflag hdrop ⊢
  rw [hflag]
  refine (bind_some_eq hdrop).trans ?_
  rw [shownActions]
  cases bit (slot found.tcam.flagTable p) 0 with
  | true => simp
  | false =>
    obtain ⟨s, hfields, hs⟩ := applyFields_spec (slot found.tcam.flagTable p) found.actionSet
      (fun f => actionFields_sound) ⟨val, output ++ [.text "\nActions applied: "]⟩
    refine (bind_some_eq hfields).trans ?_
    rw [hs, haction]
    simp

/-- The lookup is the one without output. -/
theorem applyActionOutput_settle (val : Block 6) :
    applyActionOutput tcam cache flow actionSet maskPos val =
      (settle tcam cache flow actionSet maskPos >>= fun found =>
        if found.pos < 0 then some (found.pos, found, [.text "\nSend to policy controller"])
        else do
          let output ← printActions found val
            (if cacheHits tcam cache flow then [.text "\nCache Hit"] else [])
          some (1, found, output)) := by
  rw [applyActionOutput, settle, cacheHits]
  cases searchCache tcam cache flow with
  | none => rfl
  | some r =>
    obtain ⟨pos, tcam'⟩ := r
    simp only [Option.bind_eq_bind, Option.bind_some, Option.any_some]
    by_cases hpos : 0 ≤ pos
    · simp only [if_pos hpos, decide_eq_true hpos, if_true]
      cases tcam'.actionTable.readSlice (pos * actnStLen) actnStLen with
      | none => rfl
      | some actions =>
        simp only [Option.bind_some, if_neg (not_lt.mpr hpos)]
    · simp only [if_neg hpos, decide_eq_false hpos, Bool.false_eq_true, if_false]
      cases searchFlow tcam' cache flow actionSet maskPos with
      | none => rfl
      | some found => rfl

theorem applyActionOutput_settled (h : settle tcam cache flow actionSet maskPos = some found)
    (val : Block 6) :
    applyActionOutput tcam cache flow actionSet maskPos val =
      some (if found.pos < 0 then found.pos else 1, found,
        shownLookup (cacheHits tcam cache flow) found) := by
  rw [applyActionOutput_settle, h, shownLookup]
  simp only [Option.bind_eq_bind, Option.bind_some]
  rcases Int.lt_or_le found.pos 0 with hneg | hnonneg
  · rw [if_pos hneg, if_pos hneg, if_pos hneg]
  · obtain ⟨p, hp, hpos, haction⟩ := settle_action h hnonneg
    rw [if_neg (not_lt.mpr hnonneg), if_neg (not_lt.mpr hnonneg), if_neg (not_lt.mpr hnonneg),
      printActions_spec hp hpos haction, Option.bind_some, show found.pos.toNat = p by omega]

/-- In every state, `apply_action` puts out the flag and the action set that the tables
have for the entry found, whatever its scratch array held. -/
theorem prints_entry_found (tcam : TcamUnit) (cache : Cache) (flow : Block mtchFldLen)
    (actionSet : Block actnStLen) (maskPos : ℤ) (val : Block 6) :
    applyActionOutput tcam cache flow actionSet maskPos val =
      (applyAction tcam cache flow actionSet maskPos).map fun r =>
        (r.1, r.2, shownLookup (cacheHits tcam cache flow) r.2) := by
  cases hsettle : settle tcam cache flow actionSet maskPos with
  | none =>
    rw [applyActionOutput_settle, applyAction, hsettle]
    rfl
  | some found =>
    rw [applyActionOutput_settled hsettle]
    rcases Int.lt_or_le found.pos 0 with hneg | hnonneg
    · rw [applyAction, bind_some_eq hsettle, if_pos hneg, if_pos hneg, Option.map_some]
    · obtain ⟨p, hp, hpos, -⟩ := settle_action hsettle hnonneg
      rw [applyAction_found hsettle hpos hp, if_neg (not_lt.mpr hnonneg), Option.map_some]

end Lookups

section Uninitialised
variable (flow : Block mtchFldLen)

/-- Of a search, the mask position counts only if there is a match. -/
def foundBy (r : ℤ × TcamUnit × ℤ) : ℤ × TcamUnit × Option ℤ :=
  (r.1, r.2.1, if r.1 < 0 then none else some r.2.2)

/-- As soon as there is a match, there is one mask position. -/
theorem searchTcamFrom_foundBy (passes : ℕ) (tcam : TcamUnit) (maskNo flowNo matchNo : ℤ)
    (maskPos maskPos' : ℤ) (h : 0 ≤ matchNo → maskPos = maskPos') :
    (searchTcamFrom flow passes tcam maskNo flowNo matchNo maskPos).map foundBy =
      (searchTcamFrom flow passes tcam maskNo flowNo matchNo maskPos').map foundBy := by
  induction passes generalizing tcam maskNo flowNo matchNo maskPos maskPos' with
  | zero =>
    rw [searchTcamFrom, searchTcamFrom, Option.map_some, Option.map_some, foundBy, foundBy]
    split_ifs with hneg
    · rfl
    · rw [h (not_lt.mp hneg)]
  | succ passes ih =>
    rw [searchTcamFrom, searchTcamFrom]
    cases readMarker tcam flowNo with
    | none => rfl
    | some marked =>
      simp only [Option.bind_eq_bind, Option.bind_some]
      generalize (if marked = true then maskNo + 1 else maskNo) = maskNo
      split_ifs with hmasks
      · rfl
      · cases flowDiffers tcam flow maskNo flowNo with
        | none => rfl
        | some differs =>
          cases differs with
          | true => exact ih tcam maskNo (flowNo + 1) matchNo _ _ h
          | false =>
            cases countHit tcam flowNo with
            | none => rfl
            | some tcam' =>
              simp only [Option.bind_some, Bool.false_eq_true, if_false]
              cases himproves : improves tcam' matchNo flowNo with
              | none => rfl
              | some better =>
                cases better with
                | true => exact ih tcam' maskNo (flowNo + 1) flowNo _ _ fun _ => rfl
                | false => exact ih tcam' maskNo (flowNo + 1) matchNo _ _ h

/-- What is left of a lookup after the call: its position, the tables and the cache. -/
def leftBy (found : Lookup) : ℤ × TcamUnit × Cache := (found.pos, found.tcam, found.cache)

theorem searchFlow_leftBy (tcam : TcamUnit) (cache : Cache) (actionSet actionSet' : Block actnStLen)
    (maskPos maskPos' : ℤ) :
    (searchFlow tcam cache flow actionSet maskPos).map leftBy =
      (searchFlow tcam cache flow actionSet' maskPos').map leftBy := by
  have hsame := searchTcamFrom_foundBy flow tcam.flowTail.toNat tcam 0 0 (-1) maskPos
    maskPos' fun h => absurd h (by decide)
  rw [searchFlow, searchFlow, searchTcam, searchTcam]
  generalize searchTcamFrom flow tcam.flowTail.toNat tcam 0 0 (-1) maskPos = r at hsame ⊢
  generalize searchTcamFrom flow tcam.flowTail.toNat tcam 0 0 (-1) maskPos' = r' at hsame ⊢
  cases r with
  | none =>
    cases r' with
    | none => rfl
    | some _ => cases hsame
  | some r =>
    cases r' with
    | none => cases hsame
    | some r' =>
      obtain ⟨pos, tcam₁, maskPos₁⟩ := r
      obtain ⟨pos', tcam₂, maskPos₂⟩ := r'
      simp only [Option.map_some, Option.some.injEq, foundBy, Prod.mk.injEq] at hsame
      obtain ⟨rfl, rfl, hmask⟩ := hsame
      simp only [Option.bind_eq_bind, Option.bind_some]
      by_cases hneg : pos < 0
      · rw [if_pos hneg, if_pos hneg]
        rfl
      · -- a match, so the positions stored in the cache are the same
        rw [if_neg hneg, if_neg hneg] at hmask
        rw [Option.some.inj hmask, if_neg hneg, if_neg hneg]

theorem settle_leftBy (tcam : TcamUnit) (cache : Cache) (actionSet actionSet' : Block actnStLen)
    (maskPos maskPos' : ℤ) :
    (settle tcam cache flow actionSet maskPos).map leftBy =
      (settle tcam cache flow actionSet' maskPos').map leftBy := by
  rw [settle, settle]
  cases searchCache tcam cache flow with
  | none => rfl
  | some r =>
    simp only [Option.bind_eq_bind, Option.bind_some]
    split_ifs
    · cases r.2.actionTable.readSlice (r.1 * actnStLen) actnStLen with
      | none => rfl
      | some actions => rfl
    · exact searchFlow_leftBy flow r.2 cache actionSet actionSet' maskPos maskPos'

/-- The action set, the mask position and the scratch array of `apply_action` are not
initialised. Neither the value returned nor the output, the tables or the cache depend on
what they held, in any state. -/
theorem uninitialised_unseen (tcam : TcamUnit) (cache : Cache) (flow : Block mtchFldLen)
    (actionSet actionSet' : Block actnStLen) (maskPos maskPos' : ℤ) (val val' : Block 6) :
    (applyActionOutput tcam cache flow actionSet maskPos val).map
        (fun r => (r.1, leftBy r.2.1, r.2.2)) =
      (applyActionOutput tcam cache flow actionSet' maskPos' val').map
        (fun r => (r.1, leftBy r.2.1, r.2.2)) := by
  have hsame := settle_leftBy flow tcam cache actionSet actionSet' maskPos maskPos'
  cases hsettle : settle tcam cache flow actionSet maskPos with
  | none =>
    cases hsettle' : settle tcam cache flow actionSet' maskPos' with
    | none =>
      rw [applyActionOutput_settle, applyActionOutput_settle, hsettle, hsettle']
      rfl
    | some found' =>
      rw [hsettle, hsettle'] at hsame
      cases hsame
  | some found =>
    cases hsettle' : settle tcam cache flow actionSet' maskPos' with
    | none =>
      rw [hsettle, hsettle'] at hsame
      cases hsame
    | some found' =>
      rw [hsettle, hsettle', Option.map_some, Option.map_some] at hsame
      obtain ⟨hpos, htcam, hcache⟩ : found.pos = found'.pos ∧ found.tcam = found'.tcam ∧
          found.cache = found'.cache := by
        simpa only [leftBy, Option.some.injEq, Prod.mk.injEq] using hsame
      rw [applyActionOutput_settled hsettle, applyActionOutput_settled hsettle', Option.map_some,
        Option.map_some, leftBy, leftBy, shownLookup, shownLookup, hpos, htcam, hcache]

end Uninitialised

end NetWalk.ActionOutput
