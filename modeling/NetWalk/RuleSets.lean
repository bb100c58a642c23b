import NetWalk.ManagedRuns
import NetWalk.InsertionOrder

/-!
# Tables with the same rules

Two histories of adds, deletes, modifies and searches may lead to the same rules in different
order. If no two of the rules can tie, lookups cannot tell the two tables apart. So a rule may
as well be deleted and added again as modified, and rules may come and go in any order.
-/
namespace NetWalk.RuleSets
open ByteBlock BitOperations PriorityScan PartialRun FlowTables FlowSearch FlowRows FlowCache
open FlowRuns InsertionOrder ManagedRuns

/-- The two rules have different priorities, or no flow matches both. -/
def NoTie (x y : Rule) : Prop :=
  x.priority ≠ y.priority ∨ ∀ flow : Block mtchFldLen, ¬ (x.Matches flow ∧ y.Matches flow)

/-- Whatever flow matches two different rules of the list, one has the higher priority. -/
def NeverTies (rules : List Rule) : Prop := ∀ x ∈ rules, ∀ y ∈ rules, x ≠ y → NoTie x y

section Best
variable {rules rules' : List Rule} {flow : Block mtchFldLen}

theorem bestRule_some {p : ℕ} (h : bestRule rules flow = some p) :
    ∃ r ∈ rules, rules[p]? = some r ∧ r.Matches flow ∧
      ∀ r' ∈ rules, r'.Matches flow → r'.priority.toNat ≤ r.priority.toNat := by
  have hbest := bestOf_eq_some h
  have hp := List.getElem?_eq_getElem hbest.lt
  have hhit := hbest.isHit
  rw [hp, Option.any_some, decide_eq_true_eq] at hhit
  refine ⟨_, List.getElem_mem hbest.lt, hp, hhit, fun r' hr' hmatch => ?_⟩
  obtain ⟨q, hq, rfl⟩ := List.getElem_of_mem hr'
  have hq' := List.getElem?_eq_getElem hq
  have hle := hbest.highest q hq (by rw [hq', Option.any_some]; exact decide_eq_true hmatch)
  rwa [hp, hq'] at hle

theorem bestRule_none (h : bestRule rules flow = none) : ∀ r ∈ rules, ¬ r.Matches flow := by
  intro r hr hmatch
  obtain ⟨q, hq, rfl⟩ := List.getElem_of_mem hr
  have hmiss := bestOf_eq_none_iff.mp h q hq
  rw [List.getElem?_eq_getElem hq, Option.any_some, decide_eq_false_iff_not] at hmiss
  exact hmiss hmatch

/-- The best rule of a list does not depend on the order, if there are no ties. -/
theorem bestRule_same (hsame : ∀ r, r ∈ rules ↔ r ∈ rules') (htie : NeverTies rules) :
    bestRule rules flow = none ∧ bestRule rules' flow = none ∨
      ∃ p p' r, bestRule rules flow = some p ∧ bestRule rules' flow = some p' ∧
        rules[p]? = some r ∧ rules'[p']? = some r := by
  cases hbest : bestRule rules flow with
  | none =>
    have hmiss := bestRule_none hbest
    cases hbest' : bestRule rules' flow with
    | none => exact .inl ⟨rfl, rfl⟩
    | some p' =>
      obtain ⟨r, hr, -, hmatch, -⟩ := bestRule_some hbest'
      exact absurd hmatch (hmiss r ((hsame r).mpr hr))
  | some p =>
    obtain ⟨r, hr, hp, hmatch, hhighest⟩ := bestRule_some hbest
    cases hbest' : bestRule rules' flow with
    | none => exact absurd hmatch (bestRule_none hbest' r ((hsame r).mp hr))
    | some p' =>
      obtain ⟨r', hr', hp', hmatch', hhighest'⟩ := bestRule_some hbest'
      have hin := (hsame r').mpr hr'
      have hle := hhighest r' hin hmatch'
      have hge := hhighest' r ((hsame r).mp hr) hmatch
      have heq : r = r' := by
        by_contra hne
        rcases htie r hr r' hin hne with hprio | hnever
        · exact hprio (UInt8.toNat_inj.mp (le_antisymm hge hle))
        · exact hnever flow ⟨hmatch, hmatch'⟩
      exact .inr ⟨p, p', r, rfl, rfl, hp, heq ▸ hp'⟩

end Best

/-- Lookups of the flow end the same way in both. -/
def AnswersAlike (s s' : ManagedRun) : Prop :=
  ∀ flow actionSet actionSet' maskPos maskPos', ∃ found found',
    searchFlow s.tcam s.cache flow actionSet maskPos = some found ∧
      searchFlow s'.tcam s'.cache flow actionSet' maskPos' = some found' ∧ SameLookup found found'

theorem answersAlike_of {s s' : ManagedRun} (h : AnswersRules s) (h' : AnswersRules s')
    (hsame : ∀ r, r ∈ s.rules ↔ r ∈ s'.rules) (htie : NeverTies s.rules) : AnswersAlike s s' := by
  intro flow actionSet actionSet' maskPos maskPos'
  obtain ⟨found, hfound, hpos, haction⟩ := h.search flow actionSet maskPos
  obtain ⟨found', hfound', hpos', haction'⟩ := h'.search flow actionSet' maskPos'
  refine ⟨found, found', hfound, hfound', ?_⟩
  rcases bestRule_same hsame htie with ⟨hnone, hnone'⟩ | ⟨p, p', r, hp, hp', hr, hr'⟩
  · rw [hnone] at hpos
    rw [hnone'] at hpos'
    exact .inl ⟨hpos, hpos'⟩
  · rw [hp] at hpos
    rw [hp'] at hpos'
    obtain ⟨hset, hflag⟩ := haction p r hpos hr
    obtain ⟨hset', hflag'⟩ := haction' p' r hpos' hr'
    exact .inr ⟨p, p', hpos, hpos', hset.trans hset'.symm, hflag.trans hflag'.symm⟩

/-- Two histories of commands that amount to the same rules, none of which can tie, lead to
tables that answer every lookup alike. -/
theorem same_rules_same_lookups (tcam tcam' : TcamUnit) (cache cache' : Cache)
    (calls calls' : List ManagedCall)
    (hused : Along managedCall ManagedUsed (startManaged tcam cache) calls)
    (hused' : Along managedCall ManagedUsed (startManaged tcam' cache') calls') :
    ∃ s s', run managedCall (startManaged tcam cache) calls = some s ∧
      run managedCall (startManaged tcam' cache') calls' = some s' ∧
      ((∀ r, r ∈ s.rules ↔ r ∈ s'.rules) → NeverTies s.rules → AnswersAlike s s') := by
  obtain ⟨s, hs, n, m, h⟩ := (managed_throughout tcam cache calls hused).last
  obtain ⟨s', hs', n', m', h'⟩ := (managed_throughout tcam' cache' calls' hused').last
  exact ⟨s, s', hs, hs', answersAlike_of (answersRules_of_managed h) (answersRules_of_managed h')⟩

/-- The fields of a rule, to compare two rules by evaluation. -/
def fields (r : Rule) : Block mtchFldLen × (Fin 356 → Bool) × UInt8 × Block actnStLen × Block 2 :=
  (r.mask, r.matchBits, r.priority, r.actionSet, r.flag)

theorem fields_injective : Function.Injective fields := by
  rintro ⟨mask, matchBits, priority, actionSet, flag⟩ r h
  cases h
  rfl

/-- In the one table a rule is modified, in the other it is deleted and added again as the
modify leaves it, behind a rule that was added before it. -/
theorem modified_or_added_again :
    let port : Block 2 := Block.ofFn fun i => if i = 1 then 8 else 0
    let calls : List ManagedCall :=
      [.table (.add (firstByte 255) (entryFor 1 7) (firstByte 1) (firstByte 0)),
       .table (.add (firstByte 255) (entryFor 2 8) (firstByte 2) (firstByte 0)),
       .modify (firstByte 1) port (firstByte 9 : Block 2) (firstByte 0)]
    let calls' : List ManagedCall :=
      [.table (.add (firstByte 255) (entryFor 2 8) (firstByte 2) (firstByte 0)),
       .table (.add (firstByte 255) (entryFor 1 7) (firstByte 1) (firstByte 0)),
       .table (.delete (firstByte 1)),
       .table (.add (firstByte 255) (entryFor 1 7)
         (Block.ofFn fun i => if i = 0 then 1 else if i = 30 then 9 else 0) port)]
    ∃ s s', run managedCall (startManaged zeroedTcamUnit zeroedCache) calls = some s ∧
      run managedCall (startManaged zeroedTcamUnit zeroedCache) calls' = some s' ∧
      AnswersAlike s s' := by
  intro port calls calls'
  obtain ⟨s, s', hs, hs', halike⟩ := same_rules_same_lookups zeroedTcamUnit zeroedTcamUnit
    zeroedCache zeroedCache calls calls' (by decide +kernel) (by decide +kernel)
  have hrules : ((run managedCall (startManaged zeroedTcamUnit zeroedCache) calls).any fun s =>
      (run managedCall (startManaged zeroedTcamUnit zeroedCache) calls').any fun s' =>
        decide (s'.rules.map fields = s.rules.reverse.map fields ∧
          ∀ x ∈ s.rules, ∀ y ∈ s.rules, x ≠ y → x.priority ≠ y.priority)) = true := by
    decide +kernel
  rw [hs, hs', Option.any_some, Option.any_some, decide_eq_true_eq] at hrules
  obtain ⟨hreverse, hprio⟩ := hrules
  refine ⟨s, s', hs, hs', halike (fun r => ?_) fun x hx y hy hne => .inl (hprio x hx y hy hne)⟩
  rw [List.map_injective_iff.mpr fields_injective hreverse, List.mem_reverse]

end NetWalk.RuleSets
