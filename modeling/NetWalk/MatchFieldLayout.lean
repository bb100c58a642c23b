import NetWalk.PreProcessing

/-!
# The layout of a match field

Each bit of a prepared match field is a bit of the frame, a one, or what the
block held before. `matchFieldOrigin` tells which, for each of the four ways in
which the ether type is told apart: the addresses and the ether type are in
their places, the fields that a frame does not carry are ones, and the last four
bits are never written.
-/
namespace NetWalk.MatchFieldLayout
open ByteBlock BitOperations MatchFieldRing PreProcessing

/-- Where a bit of the match field comes from. -/
inductive Origin where
  | frame (b : ℕ)
  | one
  | kept
deriving DecidableEq

def Origin.bitOf {n m : ℕ} (pkt : Block n) (old : Block m) (q : ℕ) : Origin → Bool
  | frame b => bit pkt b
  | one => true
  | kept => bit old q

/-- The origin after a later write. -/
def Origin.over : Origin → Origin → Origin
  | kept, before => before
  | later, _ => later

/-- The new match field has the origins `o` in the frame and the old one. -/
def Laid (pkt : Block maxPacketSize) (old new : Block mtchFldLen) (o : ℕ → Origin) : Prop :=
  ∀ q < 8 * mtchFldLen, bit new q = (o q).bitOf pkt old q

section Composing
variable {pkt : Block maxPacketSize} {a b c : Block mtchFldLen} {o o' : ℕ → Origin}

theorem Laid.trans (h : Laid pkt a b o) (h' : Laid pkt b c o') :
    Laid pkt a c fun q => (o' q).over (o q) := by
  intro q hq
  rw [h' q hq]
  change _ = ((o' q).over (o q)).bitOf pkt a q
  cases o' q with
  | frame b => rfl
  | one => rfl
  | kept => exact h q hq

theorem Laid.congr (h : Laid pkt a b o) (heq : ∀ q < 8 * mtchFldLen, o q = o' q) :
    Laid pkt a b o' := by
  intro q hq
  rw [h q hq, heq q hq]

def copied (startPkt startMf length : ℕ) (q : ℕ) : Origin :=
  if startMf ≤ q ∧ q < startMf + length then .frame (startPkt + (q - startMf)) else .kept

def filled (startMf length : ℕ) (q : ℕ) : Origin :=
  if startMf ≤ q ∧ q < startMf + length then .one else .kept

variable (pkt : Block maxPacketSize) (matchField : Block mtchFldLen)

theorem setMatchFieldBits_laid {startPkt startMf length : ℕ} (hpkt : startPkt + length ≤ 800)
    (hmf : startMf + length ≤ 360) :
    ∃ mf', setMatchFieldBits pkt matchField startPkt startMf length = some mf' ∧
      Laid pkt matchField mf' (copied startPkt startMf length) := by
  obtain ⟨mf', h, hbit⟩ := setMatchFieldBits_spec pkt matchField
    (show startPkt + length ≤ 8 * maxPacketSize from hpkt)
    (show startMf + length ≤ 8 * mtchFldLen from hmf)
  refine ⟨mf', h, fun q hq => ?_⟩
  rw [hbit q hq, copied]
  split_ifs <;> rfl

/-- What is meant to be zeros is ones. -/
theorem setMatchFieldBitsAsZeros_laid {startMf length : ℕ} (hmf : startMf + length ≤ 360) :
    ∃ mf', setMatchFieldBitsAsZeros matchField startMf length = some mf' ∧
      Laid pkt matchField mf' (filled startMf length) := by
  obtain ⟨mf', h, hbit⟩ := setMatchFieldBitsAsZeros_spec matchField
    (show startMf + length ≤ 8 * mtchFldLen from hmf)
  refine ⟨mf', h, fun q hq => ?_⟩
  rw [hbit q hq, filled]
  split_ifs <;> rfl

end Composing

/-- The cases that `prepare_match_field` tells apart. -/
inductive EtherKind where
  | ipv4
  | vlan
  | mpls
  | other
deriving DecidableEq

def etherKind (pkt : Block maxPacketSize) : EtherKind :=
  if pkt.byte 25 = 8 ∧ pkt.byte 26 = 0 then .ipv4
  else if pkt.byte 25 = 129 ∧ pkt.byte 26 = 0 then .vlan
  else if pkt.byte 25 = 136 ∧ pkt.byte 26 = 71 then .mpls
  else .other

def linkOrigin (q : ℕ) : Origin :=
  if q < 96 then .frame (8 + q)
  else if q < 144 then .frame (152 + (q - 96))
  else if q < 192 then .frame (104 + (q - 144))
  else if q < 208 then .frame (200 + (q - 192))
  else .kept

def tagOrigin : EtherKind → ℕ → Origin
  | .ipv4, q => filled 208 38 q
  | .vlan, q => if q < 220 then copied 236 208 12 q else
      if q < 223 then copied 232 220 3 q else filled 223 23 q
  | .mpls, q => if q < 223 then filled 208 15 q else copied 215 223 23 q
  | .other, _ => .kept

/-- Where the transport fields begin in the frame and in the match field. -/
def transportStart : EtherKind → ℕ × ℕ
  | .ipv4 => (238, 246)
  | .vlan => (259, 246)
  | .mpls => (247, 246)
  | .other => (216, 208)

/-- Source, destination, protocol, type of service and the two ports. -/
def transportOrigin (p f : ℕ) (q : ℕ) : Origin :=
  if q < f then .kept
  else if q < f + 64 then .frame (p + 94 + (q - f))
  else if q < f + 72 then .frame (p + 70 + (q - (f + 64)))
  else if q < f + 78 then .frame (p + 8 + (q - (f + 72)))
  else if q < f + 110 then .frame (p + 158 + (q - (f + 78)))
  else .kept

def matchFieldOrigin (kind : EtherKind) (q : ℕ) : Origin :=
  (transportOrigin (transportStart kind).1 (transportStart kind).2 q).over
    ((tagOrigin kind q).over (linkOrigin q))

section Laying
variable (pkt : Block maxPacketSize) (matchField : Block mtchFldLen)

theorem layLinkFields_laid :
    ∃ mf', layLinkFields pkt matchField = some (mf', ⟨200, 192, 16⟩) ∧
      Laid pkt matchField mf' linkOrigin := by
  obtain ⟨m₁, h₁, ho₁⟩ := setMatchFieldBits_laid pkt matchField
    (show 8 + 96 ≤ 800 by decide) (show 0 + 96 ≤ 360 by decide)
  obtain ⟨m₂, h₂, ho₂⟩ := setMatchFieldBits_laid pkt m₁
    (show 104 + 48 ≤ 800 by decide) (show 144 + 48 ≤ 360 by decide)
  obtain ⟨m₃, h₃, ho₃⟩ := setMatchFieldBits_laid pkt m₂
    (show 152 + 48 ≤ 800 by decide) (show 96 + 48 ≤ 360 by decide)
  obtain ⟨m₄, h₄, ho₄⟩ := setMatchFieldBits_laid pkt m₃
    (show 200 + 16 ≤ 800 by decide) (show 192 + 16 ≤ 360 by decide)
  refine ⟨m₄, by simp [layLinkFields, bits, h₁, h₂, h₃, h₄],
    (((ho₁.trans ho₂).trans ho₃).trans ho₄).congr fun q hq => ?_⟩
  simp only [copied, linkOrigin]
  split_ifs <;> first | omega | simp only [Origin.over, Nat.sub_zero]

theorem layTagFields_laid :
    ∃ mf' c, layTagFields pkt matchField ⟨200, 192, 16⟩ = some (mf', c) ∧
      (c.pktLength + c.noOfBitsInserting, c.mfLength + c.noOfBitsInserting) =
        transportStart (etherKind pkt) ∧
      Laid pkt matchField mf' (tagOrigin (etherKind pkt)) := by
  unfold layTagFields etherKind
  split_ifs
  · obtain ⟨m₁, h₁, ho₁⟩ := setMatchFieldBitsAsZeros_laid pkt matchField
      (show 208 + 38 ≤ 360 by decide)
    exact ⟨m₁, _, by simp [bits, h₁]; rfl, rfl, ho₁⟩
  · obtain ⟨m₁, h₁, ho₁⟩ := setMatchFieldBits_laid pkt matchField
      (show 232 + 3 ≤ 800 by decide) (show 220 + 3 ≤ 360 by decide)
    obtain ⟨m₂, h₂, ho₂⟩ := setMatchFieldBits_laid pkt m₁
      (show 236 + 12 ≤ 800 by decide) (show 208 + 12 ≤ 360 by decide)
    obtain ⟨m₃, h₃, ho₃⟩ := setMatchFieldBitsAsZeros_laid pkt m₂
      (show 223 + 23 ≤ 360 by decide)
    refine ⟨m₃, _, by simp [bits, h₁, h₂, h₃]; rfl, rfl,
      ((ho₁.trans ho₂).trans ho₃).congr fun q hq => ?_⟩
    simp only [tagOrigin, copied, filled]
    split_ifs <;> first | omega | rfl
  · obtain ⟨m₁, h₁, ho₁⟩ := setMatchFieldBitsAsZeros_laid pkt matchField
      (show 208 + 15 ≤ 360 by decide)
    obtain ⟨m₂, h₂, ho₂⟩ := setMatchFieldBits_laid pkt m₁
      (show 215 + 23 ≤ 800 by decide) (show 223 + 23 ≤ 360 by decide)
    refine ⟨m₂, _, by simp [bits, h₁, h₂]; rfl, rfl, (ho₁.trans ho₂).congr fun q hq => ?_⟩
    simp only [tagOrigin, copied, filled]
    split_ifs <;> first | omega | rfl
  · exact ⟨matchField, _, rfl, rfl, fun q hq => rfl⟩

theorem copied_over (startPkt startMf length q : ℕ) (o : Origin) :
    (copied startPkt startMf length q).over o =
      if startMf ≤ q ∧ q < startMf + length then .frame (startPkt + (q - startMf)) else o := by
  rw [copied]
  split_ifs <;> rfl

/-- The six stretches that the transport fields are copied in. -/
theorem transportOrigin_eq (p f q : ℕ) :
    (copied (p + 174) (f + 94) 16 q).over ((copied (p + 158) (f + 78) 16 q).over
      ((copied (p + 126) (f + 32) 32 q).over ((copied (p + 94) f 32 q).over
        ((copied (p + 70) (f + 64) 8 q).over (copied (p + 8) (f + 72) 6 q))))) =
      transportOrigin p f q := by
  have hranges : q < f ∨ f ≤ q ∧ q < f + 32 ∨ f + 32 ≤ q ∧ q < f + 64 ∨
      f + 64 ≤ q ∧ q < f + 72 ∨ f + 72 ≤ q ∧ q < f + 78 ∨ f + 78 ≤ q ∧ q < f + 94 ∨
      f + 94 ≤ q ∧ q < f + 110 ∨ f + 110 ≤ q := by
    omega
  simp only [copied_over, transportOrigin]
  rw [copied]
  rcases hranges with h | h | h | h | h | h | h | h <;>
    simp (disch := omega) only [if_pos, if_neg, Origin.frame.injEq] <;> omega

theorem layTransportFields_laid {c : Cursors} {p f : ℕ}
    (hp : c.pktLength + c.noOfBitsInserting = p) (hf : c.mfLength + c.noOfBitsInserting = f)
    (hple : p ≤ 259) (hfle : f ≤ 246) :
    ∃ mf', layTransportFields pkt matchField c = some mf' ∧
      Laid pkt matchField mf' (transportOrigin p f) := by
  obtain ⟨hsrc, hdst, hprot, htos, htsrc, htdst⟩ : bits.ipv4Src = 32 ∧ bits.ipv4Dst = 32 ∧
      bits.ipv4Protocol = 8 ∧ bits.ipv4Tos = 6 ∧ bits.tcpSrc = 16 ∧ bits.tcpDst = 16 := by
    decide
  unfold layTransportFields
  generalize bits.ipv4Src = src at *
  generalize bits.ipv4Dst = dst at *
  generalize bits.ipv4Protocol = prot at *
  generalize bits.ipv4Tos = tos at *
  generalize bits.tcpSrc = tsrc at *
  generalize bits.tcpDst = tdst at *
  dsimp only
  rw [hp, hf]
  obtain ⟨m₁, h₁, ho₁⟩ := setMatchFieldBits_laid pkt matchField
    (show p + 8 + tos ≤ 800 by omega) (show f + src + dst + prot + tos ≤ 360 by omega)
  obtain ⟨m₂, h₂, ho₂⟩ := setMatchFieldBits_laid pkt m₁
    (show p + 8 + tos + 56 + prot ≤ 800 by omega)
    (show f + src + dst + prot - prot + prot ≤ 360 by omega)
  obtain ⟨m₃, h₃, ho₃⟩ := setMatchFieldBits_laid pkt m₂
    (show p + 8 + tos + 56 + prot + 16 + src ≤ 800 by omega)
    (show f + src + dst + prot - prot - src - dst + src ≤ 360 by omega)
  obtain ⟨m₄, h₄, ho₄⟩ := setMatchFieldBits_laid pkt m₃
    (show p + 8 + tos + 56 + prot + 16 + src + dst ≤ 800 by omega)
    (show f + src + dst + prot - prot - src - dst + src + dst ≤ 360 by omega)
  obtain ⟨m₅, h₅, ho₅⟩ := setMatchFieldBits_laid pkt m₄
    (show p + 8 + tos + 56 + prot + 16 + src + dst + tsrc ≤ 800 by omega)
    (show f + src + dst + prot - prot - src - dst + src + dst + prot + tos + tsrc ≤ 360 by omega)
  obtain ⟨m₆, h₆, ho₆⟩ := setMatchFieldBits_laid pkt m₅
    (show p + 8 + tos + 56 + prot + 16 + src + dst + tsrc + tdst ≤ 800 by omega)
    (show f + src + dst + prot - prot - src - dst + src + dst + prot + tos + tsrc + tdst ≤ 360
      by omega)
  refine ⟨m₆, bind_some_of h₁ (bind_some_of h₂ (bind_some_of h₃ (bind_some_of h₄
    (bind_some_of h₅ h₆)))),
    (((((ho₁.trans ho₂).trans ho₃).trans ho₄).trans ho₅).trans ho₆).congr fun q hq => ?_⟩
  subst hsrc hdst hprot htos htsrc htdst
  exact transportOrigin_eq p f q

theorem transportStart_le (kind : EtherKind) :
    (transportStart kind).1 ≤ 259 ∧ (transportStart kind).2 ≤ 246 := by
  cases kind <;> decide

/-- Laying out a match field never leaves the two blocks, and every bit of the
result has the origin of the table. -/
theorem layMatchField_laid :
    ∃ mf', layMatchField pkt matchField = some mf' ∧
      Laid pkt matchField mf' (matchFieldOrigin (etherKind pkt)) := by
  obtain ⟨m₁, h₁, ho₁⟩ := layLinkFields_laid pkt matchField
  obtain ⟨m₂, c, h₂, hstart, ho₂⟩ := layTagFields_laid pkt m₁
  obtain ⟨hple, hfle⟩ := transportStart_le (etherKind pkt)
  obtain ⟨m₃, h₃, ho₃⟩ := layTransportFields_laid pkt m₂ (congrArg Prod.fst hstart)
    (congrArg Prod.snd hstart) hple hfle
  exact ⟨m₃, by simp only [layMatchField, h₁, h₂, h₃, Option.bind_eq_bind, Option.bind_some],
    (ho₁.trans ho₂).trans ho₃⟩

end Laying

end NetWalk.MatchFieldLayout
