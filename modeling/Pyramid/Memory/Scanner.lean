/-
# `Pyramid.Memory.Scanner` — scanning a list from left to right

A scanner keeps a state, and at each element puts out what is finished.  What
holds of all its output follows from what one step puts out (`run_forall`), and
so does what two scanners have to do with each other (`run_view`).
-/
import Mathlib.Data.List.Basic

namespace Pyramid

structure Scanner (σ α β : Type) where
  step : σ → α → List β × σ
  close : σ → List β

namespace Scanner

variable {σ τ α β γ : Type} (S : Scanner σ α β)

def run : σ → List α → List β
  | s, [] => S.close s
  | s, a :: as => (S.step s a).1 ++ run (S.step s a).2 as

@[simp] theorem run_nil (s : σ) : S.run s [] = S.close s := rfl

theorem run_cons (s : σ) (a : α) (as : List α) :
    S.run s (a :: as) = (S.step s a).1 ++ S.run (S.step s a).2 as := rfl

/-- Elements at which nothing happens can be skipped. -/
theorem run_dropWhile {s : σ} {skip : α → Bool}
    (hskip : ∀ a, skip a → S.step s a = ([], s)) (as : List α) :
    S.run s (as.dropWhile skip) = S.run s as := by
  induction as with
  | nil => rfl
  | cons a as ih =>
      by_cases ha : skip a
      · rw [List.dropWhile_cons_of_pos ha, ih, run_cons, hskip a ha]
        rfl
      · rw [List.dropWhile_cons_of_neg ha]

/-- What every step puts out in the states of an invariant is all there is. -/
theorem run_forall (I : σ → Prop) (P : β → Prop)
    (hclose : ∀ s, I s → ∀ b ∈ S.close s, P b) :
    ∀ (as : List α), (∀ s, ∀ a ∈ as, I s →
      (∀ b ∈ (S.step s a).1, P b) ∧ I (S.step s a).2) →
    ∀ s, I s → ∀ b ∈ S.run s as, P b := by
  intro as
  induction as with
  | nil => exact fun _ => hclose
  | cons a as ih =>
      intro hstep s hs b hb
      obtain ⟨hout, hnext⟩ := hstep s a List.mem_cons_self hs
      rcases List.mem_append.mp hb with hb | hb
      · exact hout b hb
      · exact ih (fun s a ha => hstep s a (List.mem_cons_of_mem _ ha)) _ hnext b hb

/-- The output of one scanner is that of another, which is `proj` of a state ahead
of it by `view`. -/
theorem run_view (T : Scanner τ α γ) (f : β → List γ) (view : σ → List γ)
    (proj : σ → τ)
    (hstep : ∀ s a, (S.step s a).1.flatMap f ++ view (S.step s a).2
      = view s ++ (T.step (proj s) a).1 ∧
      proj (S.step s a).2 = (T.step (proj s) a).2)
    (hclose : ∀ s, (S.close s).flatMap f = view s ++ T.close (proj s)) :
    ∀ (as : List α) (s : σ), (S.run s as).flatMap f
      = view s ++ T.run (proj s) as := by
  intro as
  induction as with
  | nil => exact hclose
  | cons a as ih =>
      intro s
      obtain ⟨hout, hnext⟩ := hstep s a
      rw [run_cons, run_cons, List.flatMap_append, ih, hnext, ← List.append_assoc,
        hout, List.append_assoc]

end Scanner

end Pyramid
