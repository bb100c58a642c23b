import Mathlib.Data.List.Basic
import Mathlib.Tactic.Common

/-!
# Runs of a partial step function

A step is `none` where the program it models has no defined behaviour. `run`
takes a list of inputs one after the other. `Throughout` says that no step of
the run is undefined and that a property holds in each state it passes through;
`Always` says the second only, up to the first undefined step; `Along` says that
each step is taken under a condition on the state before it.

The two are tied by one step lemma: an invariant that the condition lets each
step restore gives the property throughout, and if a step outside the condition
always loses the property then the two notions agree.
-/
namespace NetWalk.PartialRun
variable {σ ι : Type*} {step : σ → ι → Option σ} {P Inv : σ → Prop} {C : σ → ι → Prop}

def run (step : σ → ι → Option σ) : σ → List ι → Option σ
  | s, [] => some s
  | s, i :: is => (step s i).bind fun s' => run step s' is

def Throughout (step : σ → ι → Option σ) (P : σ → Prop) (s : σ) (is : List ι) : Prop :=
  ∀ pre, pre <+: is → ∃ s', run step s pre = some s' ∧ P s'

def Always (step : σ → ι → Option σ) (P : σ → Prop) (s : σ) (is : List ι) : Prop :=
  ∀ pre, pre <+: is → ∀ s', run step s pre = some s' → P s'

def Along (step : σ → ι → Option σ) (C : σ → ι → Prop) : σ → List ι → Prop
  | _, [] => True
  | s, i :: is => C s i ∧ ∀ s', step s i = some s' → Along step C s' is

instance decidableAlong [hC : ∀ s i, Decidable (C s i)] :
    ∀ s is, Decidable (Along step C s is)
  | _, [] => .isTrue trivial
  | s, i :: is =>
    match h : step s i with
    | none => decidable_of_iff (C s i) (by simp [Along, h])
    | some s' =>
      have := decidableAlong s' is
      decidable_of_iff (C s i ∧ Along step C s' is) (by simp [Along, h])

theorem along_and {D : σ → ι → Prop} {s : σ} {is : List ι} (hC : Along step C s is)
    (hD : Along step D s is) : Along step (fun s i => C s i ∧ D s i) s is := by
  induction is generalizing s with
  | nil => trivial
  | cons i is ih => exact ⟨⟨hC.1, hD.1⟩, fun s' hs' => ih (hC.2 s' hs') (hD.2 s' hs')⟩

theorem along_of_forall {is : List ι} (h : ∀ i ∈ is, ∀ s, C s i) (s : σ) : Along step C s is := by
  induction is generalizing s with
  | nil => trivial
  | cons i is ih =>
    exact ⟨h i List.mem_cons_self s, fun s' _ =>
      ih (fun j hj => h j (List.mem_cons_of_mem _ hj)) s'⟩

theorem along_true (s : σ) (is : List ι) : Along step (fun _ _ => True) s is :=
  along_of_forall (fun _ _ _ => trivial) s

/-- The state that a closed run ends in, by evaluation. -/
theorem exists_of_any {o : Option σ} [DecidablePred P] (h : o.any (fun s => decide (P s)) = true) :
    ∃ s, o = some s ∧ P s := by
  obtain ⟨s, hs, hP⟩ := (Option.any_eq_true _ _).mp h
  exact ⟨s, hs, of_decide_eq_true hP⟩

@[simp] theorem run_nil (s : σ) : run step s [] = some s := rfl

theorem run_cons (s : σ) (i : ι) (is : List ι) :
    run step s (i :: is) = (step s i).bind fun s' => run step s' is := rfl

theorem run_append (s : σ) (is js : List ι) :
    run step s (is ++ js) = (run step s is).bind fun s' => run step s' js := by
  induction is generalizing s with
  | nil => rfl
  | cons i is ih =>
    simp only [List.cons_append, run_cons, Option.bind_assoc]
    exact congrArg _ (funext fun s' => ih s')

theorem along_append {s : σ} {is js : List ι} (his : Along step C s is)
    (hjs : ∀ s', run step s is = some s' → Along step C s' js) : Along step C s (is ++ js) := by
  induction is generalizing s with
  | nil => exact hjs s rfl
  | cons i is ih =>
    refine ⟨his.1, fun s' hs' => ih (his.2 s' hs') fun t ht => hjs t ?_⟩
    rw [run_cons, hs']
    exact ht

@[simp] theorem throughout_nil (s : σ) : Throughout step P s [] ↔ P s := by
  constructor
  · intro h
    obtain ⟨s', hs', hP⟩ := h [] List.nil_prefix
    cases hs'
    exact hP
  · intro hP pre hpre
    rw [List.prefix_nil.mp hpre]
    exact ⟨s, rfl, hP⟩

theorem throughout_cons (s : σ) (i : ι) (is : List ι) :
    Throughout step P s (i :: is) ↔
      P s ∧ ∃ s', step s i = some s' ∧ Throughout step P s' is := by
  constructor
  · intro h
    obtain ⟨s₀, hs₀, hP⟩ := h [] List.nil_prefix
    cases hs₀
    obtain ⟨t, ht, -⟩ := h [i] (by simp)
    obtain ⟨s', hs', -⟩ := Option.bind_eq_some_iff.mp ht
    refine ⟨hP, s', hs', fun pre hpre => ?_⟩
    obtain ⟨u, hu, hPu⟩ := h (i :: pre) (List.cons_prefix_cons.mpr ⟨rfl, hpre⟩)
    rw [run_cons, hs'] at hu
    exact ⟨u, hu, hPu⟩
  · rintro ⟨hP, s', hs', h⟩ pre hpre
    cases pre with
    | nil => exact ⟨s, rfl, hP⟩
    | cons j pre =>
      obtain ⟨rfl, hrest⟩ := List.cons_prefix_cons.mp hpre
      obtain ⟨u, hu, hPu⟩ := h pre hrest
      exact ⟨u, by rw [run_cons, hs']; exact hu, hPu⟩

/-- A run whose steps meet the condition is defined and keeps the invariant. -/
theorem throughout_of_along (Inv : σ → Prop)
    (hstep : ∀ s i, Inv s → C s i → ∃ s', step s i = some s' ∧ Inv s')
    {s : σ} {is : List ι} (hs : Inv s) (hC : Along step C s is) :
    Throughout step Inv s is := by
  induction is generalizing s with
  | nil => exact (throughout_nil s).mpr hs
  | cons i is ih =>
    obtain ⟨s', hs', hi⟩ := hstep s i hs hC.1
    exact (throughout_cons s i is).mpr ⟨hs, s', hs', ih hi (hC.2 s' hs')⟩

theorem throughout_of_step (hstep : ∀ s i, Inv s → ∃ s', step s i = some s' ∧ Inv s')
    {s : σ} (hs : Inv s) (is : List ι) : Throughout step Inv s is := by
  induction is generalizing s with
  | nil => exact (throughout_nil s).mpr hs
  | cons i is ih =>
    obtain ⟨s', hs', hi⟩ := hstep s i hs
    exact (throughout_cons s i is).mpr ⟨hs, s', hs', ih hi⟩

theorem Throughout.mono {Q : σ → Prop} {s : σ} {is : List ι} (h : Throughout step P s is)
    (hPQ : ∀ s, P s → Q s) : Throughout step Q s is := by
  intro pre hpre
  obtain ⟨s', hs', hP⟩ := h pre hpre
  exact ⟨s', hs', hPQ s' hP⟩

theorem Throughout.last {s : σ} {is : List ι} (h : Throughout step P s is) :
    ∃ s', run step s is = some s' ∧ P s' := h is List.prefix_rfl

/-- If a step taken outside the condition always loses the property, the
property holds throughout exactly the runs whose steps meet the condition. `U`
is what the environment promises of every step. -/
theorem throughout_iff_along_of (Inv : σ → Prop) (U : σ → ι → Prop)
    (hstep : ∀ s i, Inv s → U s i → C s i → ∃ s', step s i = some s' ∧ Inv s')
    (hbad : ∀ s i, Inv s → U s i → ¬ C s i → ∀ s', step s i = some s' → ¬ P s')
    (hP : ∀ s, Inv s → P s) {s : σ} {is : List ι} (hs : Inv s) (hU : Along step U s is) :
    Throughout step P s is ↔ Along step C s is := by
  refine ⟨fun h => ?_, fun h => (throughout_of_along Inv (fun s i hs hi => ?_) hs
    (along_and hU h)).mono hP⟩
  · induction is generalizing s with
    | nil => trivial
    | cons i is ih =>
      obtain ⟨-, s', hs', hrest⟩ := (throughout_cons s i is).mp h
      have hPs' : P s' := by
        obtain ⟨u, hu, hPu⟩ := hrest [] List.nil_prefix
        cases hu
        exact hPu
      have hC : C s i := by
        by_contra hC
        exact hbad s i hs hU.1 hC s' hs' hPs'
      refine ⟨hC, fun t ht => ?_⟩
      obtain ⟨u, hu, hi⟩ := hstep s i hs hU.1 hC
      cases hs'.symm.trans hu
      cases hs'.symm.trans ht
      exact ih hi (hU.2 s' hs') hrest
  · exact hstep s i hs hi.1 hi.2

theorem throughout_iff_along (Inv : σ → Prop)
    (hstep : ∀ s i, Inv s → C s i → ∃ s', step s i = some s' ∧ Inv s')
    (hbad : ∀ s i, Inv s → ¬ C s i → ∀ s', step s i = some s' → ¬ P s')
    (hP : ∀ s, Inv s → P s) {s : σ} {is : List ι} (hs : Inv s) :
    Throughout step P s is ↔ Along step C s is :=
  throughout_iff_along_of Inv (fun _ _ => True) (fun s i hs _ => hstep s i hs)
    (fun s i hs _ => hbad s i hs) hP hs (along_true s is)

theorem always_cons (s : σ) (i : ι) (is : List ι) :
    Always step P s (i :: is) ↔ P s ∧ ∀ s', step s i = some s' → Always step P s' is := by
  constructor
  · intro h
    refine ⟨h [] List.nil_prefix s rfl, fun s' hs' pre hpre t ht => ?_⟩
    exact h (i :: pre) (List.cons_prefix_cons.mpr ⟨rfl, hpre⟩) t (by rwa [run_cons, hs'])
  · rintro ⟨hP, h⟩ pre hpre t ht
    cases pre with
    | nil =>
      cases ht
      exact hP
    | cons j pre =>
      obtain ⟨rfl, hrest⟩ := List.cons_prefix_cons.mp hpre
      obtain ⟨s', hs', ht'⟩ := Option.bind_eq_some_iff.mp ht
      exact h s' hs' pre hrest t ht'

/-- An invariant that the condition lets each step restore holds up to the first
undefined step. -/
theorem always_of_along (Inv : σ → Prop)
    (hstep : ∀ s i s', Inv s → C s i → step s i = some s' → Inv s')
    {s : σ} {is : List ι} (hs : Inv s) (hC : Along step C s is) : Always step Inv s is := by
  induction is generalizing s with
  | nil =>
    intro pre hpre t ht
    rw [List.prefix_nil.mp hpre] at ht
    cases ht
    exact hs
  | cons i is ih =>
    exact (always_cons s i is).mpr
      ⟨hs, fun s' hs' => ih (hstep s i s' hs hC.1 hs') (hC.2 s' hs')⟩

theorem Always.mono {Q : σ → Prop} {s : σ} {is : List ι} (h : Always step P s is)
    (hPQ : ∀ s, P s → Q s) : Always step Q s is :=
  fun pre hpre t ht => hPQ t (h pre hpre t ht)

/-- A run without undefined steps passes through states that have both properties. -/
theorem Throughout.and_always {Q : σ → Prop} {s : σ} {is : List ι} (h : Throughout step P s is)
    (hQ : Always step Q s is) : Throughout step (fun s => P s ∧ Q s) s is := by
  intro pre hpre
  obtain ⟨s', hs', hP⟩ := h pre hpre
  exact ⟨s', hs', hP, hQ pre hpre s' hs'⟩

/-- The same for runs up to the first undefined step, if a step taken outside
the condition is defined. -/
theorem always_iff_along (Inv : σ → Prop)
    (hstep : ∀ s i s', Inv s → C s i → step s i = some s' → Inv s')
    (hbad : ∀ s i, Inv s → ¬ C s i → ∃ s', step s i = some s' ∧ ¬ P s')
    (hP : ∀ s, Inv s → P s) {s : σ} {is : List ι} (hs : Inv s) :
    Always step P s is ↔ Along step C s is := by
  refine ⟨fun h => ?_, fun h => (always_of_along Inv hstep hs h).mono hP⟩
  induction is generalizing s with
  | nil => trivial
  | cons i is ih =>
    obtain ⟨-, hrest⟩ := (always_cons s i is).mp h
    have hC : C s i := by
      by_contra hC
      obtain ⟨s', hs', hlost⟩ := hbad s i hs hC
      exact hlost (hrest s' hs' [] List.nil_prefix s' rfl)
    exact ⟨hC, fun s' hs' => ih (hstep s i s' hs hC hs') (hrest s' hs')⟩

end NetWalk.PartialRun
