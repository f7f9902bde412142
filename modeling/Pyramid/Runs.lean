/-
# `Pyramid.Runs` — runs of a step function that can end in a fault

A run is a list of events carried out one after the other; it has no result
when one of its steps ends the run.  An invariant is proved for one step and
holds of every run: `runs_inv` when runs may end, `runs_total` when the
invariant also says that they do not, and `runs_inv_of_meets` for the runs all
of whose steps meet a condition on the state before the step.
-/
import Pyramid.Memory.Heap

namespace Pyramid

section Runs
variable {σ ε : Type} (step : σ → ε → Except Halt σ)

def runs : List ε → σ → Except Halt σ
  | [], s => .ok s
  | e :: es, s => do
      let s ← step s e
      runs es s

/-- Every step of the run meets the condition `K`, as long as the run goes on. -/
def StepsMeet (K : σ → ε → Prop) : List ε → σ → Prop
  | [], _ => True
  | e :: es, s => K s e ∧ ∀ s', step s e = .ok s' → StepsMeet K es s'

variable {step} {Inv : σ → Prop} {K : σ → ε → Prop}

theorem runs_inv_of_meets
    (hstep : ∀ s e s', Inv s → K s e → step s e = .ok s' → Inv s') :
    ∀ {es : List ε} {s s' : σ}, Inv s → StepsMeet step K es s →
      runs step es s = .ok s' → Inv s' := by
  intro es
  induction es with
  | nil =>
      intro s s' hinv _ h
      exact Except.ok.inj h ▸ hinv
  | cons e es ih =>
      intro s s' hinv hmeets h
      rw [runs] at h
      obtain ⟨s₁, hs₁, h⟩ := bind_ok.mp h
      exact ih (hstep s e s₁ hinv hmeets.1 hs₁) (hmeets.2 s₁ hs₁) h

/-- A run that meets a condition meets what follows from it in the
states it goes through. -/
theorem StepsMeet.imp {K' : σ → ε → Prop} (hK : ∀ s e, Inv s → K s e → K' s e)
    (hstep : ∀ s e s', Inv s → K s e → step s e = .ok s' → Inv s') :
    ∀ {es : List ε} {s : σ}, Inv s → StepsMeet step K es s →
      StepsMeet step K' es s := by
  intro es
  induction es with
  | nil => exact fun _ _ => trivial
  | cons e es ih =>
      rintro s hinv ⟨hk, hrest⟩
      exact ⟨hK s e hinv hk, fun s' hs' =>
        ih (hstep s e s' hinv hk hs') (hrest s' hs')⟩

/-- Two conditions that agree as long as they are met are met by the same runs. -/
theorem stepsMeet_iff {K' : σ → ε → Prop} (hK : ∀ s e, Inv s → (K s e ↔ K' s e))
    (hstep : ∀ s e s', Inv s → K s e → step s e = .ok s' → Inv s') {es : List ε}
    {s : σ} (hinv : Inv s) :
    StepsMeet step K es s ↔ StepsMeet step K' es s :=
  ⟨StepsMeet.imp (fun s e hs => (hK s e hs).mp) hstep hinv,
    StepsMeet.imp (fun s e hs => (hK s e hs).mpr)
      (fun s e s' hs hk' => hstep s e s' hs ((hK s e hs).mpr hk')) hinv⟩

/-- Whether a run meets a condition can be found out by running it. -/
instance decidableStepsMeet [∀ s e, Decidable (K s e)] :
    ∀ (es : List ε) (s : σ), Decidable (StepsMeet step K es s)
  | [], _ => inferInstanceAs (Decidable True)
  | e :: es, s =>
      match h : step s e with
      | .error x => decidable_of_iff (K s e) ⟨fun hk => ⟨hk, fun s' hs' => by
          rw [h] at hs'
          cases hs'⟩, fun hmeets => hmeets.1⟩
      | .ok s' =>
          have := decidableStepsMeet es s'
          decidable_of_iff (K s e ∧ StepsMeet step K es s')
            ⟨fun hk => ⟨hk.1, fun s'' hs'' => by
            rw [h] at hs''
            cases hs''
            exact hk.2⟩, fun hmeets => ⟨hmeets.1, hmeets.2 s' h⟩⟩

/-- A run on given events is there if it can be carried out; `f` looks at its end. -/
theorem run_of_check {α : Type} [∀ s e, Decidable (K s e)] {start : Except Halt σ}
    {es : List ε} {f : σ → α} {a : α} (h : (start.toOption.bind fun s₀ =>
      if StepsMeet step K es s₀ then (runs step es s₀).toOption.map f else none)
        = some a) :
    ∃ s₀ s, start = .ok s₀ ∧ StepsMeet step K es s₀ ∧ runs step es s₀ = .ok s ∧
      f s = a := by
  cases hstart : start with
  | error x =>
      rw [hstart] at h
      cases h
  | ok s₀ =>
      rw [hstart, Except.toOption, Option.bind_some] at h
      split at h
      · rename_i hmeets
        cases hrun : runs step es s₀ with
        | error x =>
            rw [hrun] at h
            cases h
        | ok s =>
            rw [hrun] at h
            exact ⟨s₀, s, rfl, hmeets, hrun, Option.some.inj h⟩
      · cases h

theorem ok_of_toOption {α : Type} {x : Except Halt α} {a : α}
    (h : x.toOption = some a) : x = .ok a := by
  cases x with
  | error e => cases h
  | ok b =>
      cases h
      rfl

/-- A run and one more step are there if they can be carried out. -/
theorem step_of_check {α : Type} [∀ s e, Decidable (K s e)] {start : Except Halt σ}
    {es : List ε} {e : ε} {f : σ → σ → α} {a : α} (h : (start.toOption.bind fun s₀ =>
      if StepsMeet step K es s₀ then (runs step es s₀).toOption.map fun s =>
        if K s e then (step s e).toOption.map (f s) else none else none)
          = some (some a)) :
    ∃ s₀ s s', start = .ok s₀ ∧ StepsMeet step K es s₀ ∧
      runs step es s₀ = .ok s ∧ K s e ∧
      step s e = .ok s' ∧ f s s' = a := by
  obtain ⟨s₀, s, hstart, hmeets, hrun, hs⟩ := run_of_check h
  split at hs
  · rename_i hk
    obtain ⟨s', hstep, hs'⟩ := Option.map_eq_some_iff.mp hs
    exact ⟨s₀, s, s', hstart, hmeets, hrun, hk, ok_of_toOption hstep, hs'⟩
  · cases hs

theorem stepsMeet_of_forall (hK : ∀ s e, K s e) :
    ∀ (es : List ε) (s : σ), StepsMeet step K es s
  | [], _ => trivial
  | e :: es, s => ⟨hK s e, fun s' _ => stepsMeet_of_forall hK es s'⟩

theorem runs_inv (hstep : ∀ s e s', Inv s → step s e = .ok s' → Inv s')
    {es : List ε} {s s' : σ} (hinv : Inv s) (h : runs step es s = .ok s') : Inv s' :=
  runs_inv_of_meets (K := fun _ _ => True) (fun s e s' hs _ => hstep s e s' hs) hinv
    (stepsMeet_of_forall (fun _ _ => trivial) es s) h

theorem runs_total (Inv : σ → Prop)
    (hstep : ∀ s e, Inv s → ∃ s', step s e = .ok s' ∧ Inv s') :
    ∀ (es : List ε) {s : σ}, Inv s → ∃ s', runs step es s = .ok s' ∧ Inv s' := by
  intro es
  induction es with
  | nil =>
      intro s hinv
      exact ⟨s, rfl, hinv⟩
  | cons e es ih =>
      intro s hinv
      obtain ⟨s₁, hs₁, hinv₁⟩ := hstep s e hinv
      obtain ⟨s', hs', hinv'⟩ := ih hinv₁
      exact ⟨s', by rw [runs, hs₁, ok_bind, hs'], hinv'⟩

/-- A property that a step keeps exactly when it meets a condition holds all through
the runs whose steps all meet it, and of no others. -/
theorem runs_all_iff (Inv : σ → Prop) {P : σ → Prop}
    (hstep : ∀ s e, Inv s → P s → ∃ s', step s e = .ok s' ∧ Inv s'
      ∧ (P s' ↔ K s e)) :
    ∀ (es : List ε) {s : σ}, Inv s → P s →
      ((∀ pre post s', es = pre ++ post → runs step pre s = .ok s' → P s') ↔
        StepsMeet step K es s) := by
  intro es
  induction es with
  | nil =>
      intro s _ hp
      refine iff_of_true (fun pre post s' heq hrun => ?_) trivial
      obtain ⟨rfl, -⟩ := List.nil_eq_append_iff.mp heq
      cases hrun
      exact hp
  | cons e es ih =>
      intro s hinv hp
      obtain ⟨s₁, hs₁, hinv₁, hiff⟩ := hstep s e hinv hp
      have hruns : ∀ {pre : List ε} {s' : σ}, runs step (e :: pre) s = .ok s' ↔
          runs step pre s₁ = .ok s' := by
        intro pre s'
        rw [runs, hs₁, ok_bind]
      constructor
      · intro hall
        have hp₁ : P s₁ := hall [e] es s₁ rfl (hruns.mpr rfl)
        refine ⟨hiff.mp hp₁, fun s' hs' => ?_⟩
        cases hs₁.symm.trans hs'
        refine (ih hinv₁ hp₁).mp fun pre post s' heq hrun => ?_
        exact hall (e :: pre) post s' (by rw [heq, List.cons_append])
          (hruns.mpr hrun)
      · rintro ⟨hk, hrest⟩ pre post s' heq hrun
        have hp₁ := hiff.mpr hk
        cases pre with
        | nil =>
            cases hrun
            exact hp
        | cons d pre =>
            obtain ⟨hed, hes⟩ := List.cons.inj heq
            cases hed
            exact (ih hinv₁ hp₁).mpr (hrest s₁ hs₁) pre post s' hes (hruns.mp hrun)

end Runs

end Pyramid
