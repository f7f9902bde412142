/-
# `Pyramid.Traces` — runs of machines that have a choice

`Pyramid.Runs` is about machines whose next state is determined by the event.
Here a step is a relation `step s e s'`: several threads may be able to go on,
and which does is not said.  A `Trace` carries the events of a run.

Four rules.  What a step keeps holds at the end of every trace (`inv`); when
each step of one machine is at most one step of another, the part of a trace
that `view` shows is a trace of the other (`simulates`); what is paid for from
an account is bounded by what was put in (`account`); and a machine whose steps
are all paid for comes to rest (`rests`).

Where several threads run, a state has the list of where each of them is; when
one goes on, one place of the list changes.
-/
import Mathlib.Data.List.Induction

namespace Pyramid

/-- What `f` adds up to. -/
def total {β : Type} (f : β → Nat) : List β → Nat
  | [] => 0
  | t :: ts => f t + total f ts

theorem total_append {β : Type} (f : β → Nat) (ts us : List β) :
    total f (ts ++ us) = total f ts + total f us := by
  induction ts with
  | nil => exact (Nat.zero_add _).symm
  | cons t ts ih =>
      simp only [List.cons_append, total, ih]
      omega

section Traces
variable {σ ε τ α : Type} (step : σ → ε → σ → Prop)

inductive Trace : σ → List ε → σ → Prop
  | nil (s : σ) : Trace s [] s
  | snoc {s s' s'' : σ} {es : List ε} {e : ε} : Trace s es s' → step s' e s'' →
      Trace s (es ++ [e]) s''

variable {step} {s s' s'' : σ} {es fs : List ε} {e : ε}

/-- The trace that goes on from the end of another, and has not yet. -/
theorem Trace.onward (_ : Trace step s es s') : Trace step s' [] s' := .nil s'

theorem Trace.append (h : Trace step s es s') (h' : Trace step s' fs s'') :
    Trace step s (es ++ fs) s'' := by
  induction h' with
  | nil => rwa [List.append_nil]
  | snoc _ hstep ih =>
      rw [← List.append_assoc]
      exact ih.snoc hstep

theorem Trace.mono {step' : σ → ε → σ → Prop}
    (hstep : ∀ s e s', step s e s' → step' s e s') (h : Trace step s es s') :
    Trace step' s es s' := by
  induction h with
  | nil => exact .nil _
  | snoc _ hs ih => exact ih.snoc (hstep _ _ _ hs)

theorem Trace.inv (Inv : σ → Prop) (hstep : ∀ s e s', Inv s → step s e s' → Inv s')
    (hinv : Inv s) (h : Trace step s es s') : Inv s' := by
  induction h with
  | nil => exact hinv
  | snoc _ hs ih => exact hstep _ _ _ ih hs

/-- Steps that `view` shows are steps of the other machine, the others
leave it where it is. -/
def Simulates (step : σ → ε → σ → Prop) (step' : τ → α → τ → Prop)
    (view : ε → Option α) (R : σ → τ → Prop) : Prop :=
  ∀ s e s' t, R s t → step s e s' →
    ∃ t', R s' t' ∧ ((view e = none ∧ t' = t) ∨ ∃ a, view e = some a ∧ step' t a t')

theorem Trace.simulates {step' : τ → α → τ → Prop} {view : ε → Option α}
    {R : σ → τ → Prop} (hsim : Simulates step step' view R) {t : τ} (hR : R s t)
    (h : Trace step s es s') :
    ∃ t', R s' t' ∧ Trace step' t (es.filterMap view) t' := by
  induction h with
  | nil => exact ⟨t, hR, .nil t⟩
  | @snoc s₁ s₂ es e _ hstep ih =>
      obtain ⟨t₁, hR₁, htrace⟩ := ih
      obtain ⟨t', hR', hview⟩ := hsim _ _ _ _ hR₁ hstep
      refine ⟨t', hR', ?_⟩
      rw [List.filterMap_append]
      rcases hview with ⟨hnone, rfl⟩ | ⟨a, hsome, hstep'⟩
      · rw [List.filterMap_cons_none hnone, List.filterMap_nil, List.append_nil]
        exact htrace
      · rw [List.filterMap_cons_some hsome, List.filterMap_nil]
        exact htrace.snoc hstep'

/-- Every step is paid from what is in `Φ`, or from what it puts there. -/
theorem Trace.account (Inv : σ → Prop) (Φ : σ → Nat) (cost credit : ε → Nat)
    (hinv : ∀ s e s', Inv s → step s e s' → Inv s')
    (hpaid : ∀ s e s', Inv s → step s e s' → Φ s' + cost e ≤ Φ s + credit e)
    (hs : Inv s) (h : Trace step s es s') :
    Φ s' + total cost es ≤ Φ s + total credit es := by
  induction h with
  | nil => exact Nat.le_refl _
  | @snoc s₁ s₂ es e htrace hstep ih =>
      have hlast := hpaid _ _ _ (htrace.inv Inv hinv hs) hstep
      simp only [total_append, total]
      omega

theorem total_toNat (p : ε → Bool) (es : List ε) :
    total (fun e => (p e).toNat) es = es.countP p := by
  induction es with
  | nil => rfl
  | cons e es ih =>
      rw [total, List.countP_cons, ih]
      cases p e with
      | true => exact Nat.add_comm _ _
      | false => exact Nat.zero_add _

/-- If every step of one kind lowers `Φ`, steps of that kind lead on to
a state that has none. -/
theorem Trace.rests (step : σ → ε → σ → Prop) (Inv : σ → Prop) (Φ : σ → Nat)
    (own : ε → Prop) (hinv : ∀ s e s', Inv s → step s e s' → Inv s')
    (hdown : ∀ s e s', Inv s → own e → step s e s' → Φ s' < Φ s) :
    ∀ {s : σ}, Inv s → ∃ es s', Trace step s es s' ∧ (∀ e ∈ es, own e) ∧
      ∀ e s'', step s' e s'' → ¬ own e := by
  intro s
  induction hn : Φ s using Nat.strongRecOn generalizing s with
  | ind n ih =>
      intro hs
      by_cases hmore : ∃ e s', step s e s' ∧ own e
      · obtain ⟨e, s', hstep, hown⟩ := hmore
        have hlt := hdown s e s' hs hown hstep
        obtain ⟨es, s'', htrace, hall, hrest⟩ :=
          ih (Φ s') (hn ▸ hlt) rfl (hinv s e s' hs hstep)
        refine ⟨e :: es, s'', ?_, ?_, hrest⟩
        · exact ((Trace.nil s).snoc hstep).append htrace
        · intro x hx
          rcases List.mem_cons.mp hx with rfl | hx
          · exact hown
          · exact hall x hx
      · exact ⟨[], s, .nil s, fun e he => absurd he List.not_mem_nil,
          fun e s'' hstep hown => hmore ⟨e, s'', hstep, hown⟩⟩

end Traces

/-! ## Lists of threads -/

section Threads
variable {β : Type} {ts : List β} {i : Nat} {x y : β} {p : β → Bool}

theorem countP_set (h : ts[i]? = some x) :
    (ts.set i y).countP p + (if p x then 1 else 0)
      = ts.countP p + (if p y then 1 else 0) := by
  induction ts generalizing i with
  | nil => cases h
  | cons t ts ih =>
      cases i with
      | zero =>
          cases h
          simp only [List.set_cons_zero, List.countP_cons]
          omega
      | succ i =>
          have hrest := ih (i := i) h
          simp only [List.set_cons_succ, List.countP_cons]
          omega

theorem countP_set_toNat (h : ts[i]? = some x) :
    (ts.set i y).countP p + (p x).toNat = ts.countP p + (p y).toNat := by
  have hset := countP_set (p := p) (y := y) h
  cases hx : p x <;> cases hy : p y <;> simpa [hx, hy] using hset

/-- A thread comes from where `p` does not hold. -/
theorem countP_enter (h : ts[i]? = some x) (hx : p x = false) :
    (ts.set i y).countP p = ts.countP p + if p y = true then 1 else 0 := by
  have hset := countP_set (p := p) (y := y) h
  rw [hx] at hset
  exact hset

/-- A thread goes to where `p` does not hold. -/
theorem countP_exit (h : ts[i]? = some x) (hy : p y = false) :
    ts.countP p = (ts.set i y).countP p + if p x = true then 1 else 0 := by
  have hset := countP_set (p := p) (y := y) h
  rw [hy] at hset
  exact hset.symm

/-- A thread goes on between two places that are not told apart. -/
theorem countP_set_same (h : ts[i]? = some x) (hp : p y = p x) :
    (ts.set i y).countP p = ts.countP p := by
  have hset := countP_set (p := p) (y := y) h
  rw [hp] at hset
  omega

theorem total_set (f : β → Nat) (h : ts[i]? = some x) :
    total f (ts.set i y) + f x = total f ts + f y := by
  induction ts generalizing i with
  | nil => cases h
  | cons t ts ih =>
      cases i with
      | zero =>
          cases h
          simp only [List.set_cons_zero, total]
          omega
      | succ i =>
          have hrest := ih (i := i) h
          simp only [List.set_cons_succ, total]
          omega

theorem total_replicate (f : β → Nat) (k : Nat) (x : β) :
    total f (List.replicate k x) = k * f x := by
  induction k with
  | zero => exact (Nat.zero_mul _).symm
  | succ k ih => rw [List.replicate_succ, total, ih, Nat.succ_mul, Nat.add_comm]

theorem countP_pos_of_get (h : ts[i]? = some x) (hp : p x = true) :
    0 < ts.countP p :=
  List.countP_pos_iff.mpr ⟨x, List.mem_of_getElem? h, hp⟩

theorem exists_of_countP_pos (h : 0 < ts.countP p) :
    ∃ (i : Nat) (x : β), ts[i]? = some x ∧ p x = true := by
  obtain ⟨x, hx, hp⟩ := List.countP_pos_iff.mp h
  obtain ⟨i, hi⟩ := List.mem_iff_getElem?.mp hx
  exact ⟨i, x, hi, hp⟩

end Threads

end Pyramid
