/-
# `Pyramid.Service` — a service that carries out tasks, first come first served

What a pool of workers is for, without workers: tasks are submitted and wait in
order; the oldest is taken, its work is begun and then finished.  A service
that is being given up drops the tasks that still wait, again the oldest first.

A trace of it determines where every task is (`accounts`): the tasks submitted
are those that left the queue, in the same order, and those that wait; and each
was begun or finished no more often than it was submitted.
-/
import Pyramid.Traces
import Mathlib.Algebra.Order.Group.Multiset

namespace Pyramid

/-- What is seen of a task. -/
inductive Act (α : Type) where
  | submit (x : α)
  | take (x : α)
  | call (x : α)
  | finish (x : α)
  | drop (x : α)
  deriving DecidableEq

/-- The tasks that wait, the oldest first, that are taken and that are running. -/
structure Service (α : Type) where
  waiting : List α
  taken : Multiset α
  running : Multiset α

namespace Service

variable {α : Type}

def idle : Service α := ⟨[], 0, 0⟩

inductive Step : Service α → Act α → Service α → Prop
  | submit (t : Service α) (x : α) :
      Step t (.submit x) ⟨t.waiting ++ [x], t.taken, t.running⟩
  | take {t : Service α} {x : α} {rest : List α} : t.waiting = x :: rest →
      Step t (.take x) ⟨rest, x ::ₘ t.taken, t.running⟩
  | call {t : Service α} {x : α} {rest : Multiset α} : t.taken = x ::ₘ rest →
      Step t (.call x) ⟨t.waiting, rest, x ::ₘ t.running⟩
  | finish {t : Service α} {x : α} {rest : Multiset α} : t.running = x ::ₘ rest →
      Step t (.finish x) ⟨t.waiting, t.taken, rest⟩
  | drop {t : Service α} {x : α} {rest : List α} : t.waiting = x :: rest →
      Step t (.drop x) ⟨rest, t.taken, t.running⟩

/-- The task of one kind of act, if it is one. -/
def submitted : Act α → Option α
  | .submit x => some x
  | _ => none

def took : Act α → Option α
  | .take x => some x
  | _ => none

def called : Act α → Option α
  | .call x => some x
  | _ => none

def finished : Act α → Option α
  | .finish x => some x
  | _ => none

def dropped : Act α → Option α
  | .drop x => some x
  | _ => none

/-- The task that leaves the queue. -/
def left : Act α → Option α
  | .take x => some x
  | .drop x => some x
  | _ => none

/-- Where the tasks of a trace are. -/
structure Accounts (es : List (Act α)) (t : Service α) : Prop where
  order : es.filterMap submitted = es.filterMap left ++ t.waiting
  gone : (es.filterMap left : Multiset α) = es.filterMap took + es.filterMap dropped
  taken : (es.filterMap took : Multiset α) = es.filterMap called + t.taken
  running : (es.filterMap called : Multiset α) = es.filterMap finished + t.running

theorem filterMap_concat_some {f : Act α → Option α} {es : List (Act α)}
    {e : Act α} {x : α} (he : f e = some x) :
    ((es ++ [e]).filterMap f : Multiset α) = es.filterMap f + {x} := by
  rw [List.filterMap_append, List.filterMap_cons_some he, List.filterMap_nil,
    ← Multiset.coe_add, Multiset.coe_singleton]

theorem filterMap_concat_none {f : Act α → Option α} {es : List (Act α)} {e : Act α}
    (he : f e = none) : (es ++ [e]).filterMap f = es.filterMap f := by
  rw [List.filterMap_append, List.filterMap_cons_none he, List.filterMap_nil,
    List.append_nil]

/-- What one act adds to the account. -/
theorem Accounts.step {es : List (Act α)} {e : Act α} {t t' : Service α}
    (h : Accounts es t) (hstep : Step t e t') : Accounts (es ++ [e]) t' := by
  obtain ⟨horder, hgone, htaken, hrunning⟩ := h
  cases hstep with
  | submit x =>
      constructor
      · simp [submitted, left, horder]
      · rw [filterMap_concat_none rfl, filterMap_concat_none rfl,
          filterMap_concat_none rfl, hgone]
      · rw [filterMap_concat_none rfl, filterMap_concat_none rfl, htaken]
      · rw [filterMap_concat_none rfl, filterMap_concat_none rfl, hrunning]
  | @take x rest hw =>
      constructor
      · simp [submitted, left, horder, hw]
      · rw [filterMap_concat_some rfl, filterMap_concat_some rfl,
          filterMap_concat_none rfl, hgone]
        exact add_right_comm _ _ _
      · rw [filterMap_concat_some rfl, filterMap_concat_none rfl, htaken, add_assoc,
          ← Multiset.singleton_add, add_comm t.taken]
      · rw [filterMap_concat_none rfl, filterMap_concat_none rfl, hrunning]
  | @call x rest hx =>
      constructor
      · rw [filterMap_concat_none rfl, filterMap_concat_none rfl]
        exact horder
      · rw [filterMap_concat_none rfl, filterMap_concat_none rfl,
          filterMap_concat_none rfl, hgone]
      · rw [filterMap_concat_none rfl, filterMap_concat_some rfl, htaken,
          hx, add_assoc, Multiset.singleton_add]
      · rw [filterMap_concat_some rfl, filterMap_concat_none rfl,
          hrunning, add_assoc, ← Multiset.singleton_add, add_comm t.running]
  | @finish x rest hx =>
      constructor
      · rw [filterMap_concat_none rfl, filterMap_concat_none rfl]
        exact horder
      · rw [filterMap_concat_none rfl, filterMap_concat_none rfl,
          filterMap_concat_none rfl, hgone]
      · rw [filterMap_concat_none rfl, filterMap_concat_none rfl, htaken]
      · rw [filterMap_concat_none rfl, filterMap_concat_some rfl, hrunning,
          hx, add_assoc, Multiset.singleton_add]
  | @drop x rest hw =>
      constructor
      · simp [submitted, left, horder, hw]
      · rw [filterMap_concat_some rfl, filterMap_concat_none rfl,
          filterMap_concat_some rfl, hgone, add_assoc]
      · rw [filterMap_concat_none rfl, filterMap_concat_none rfl, htaken]
      · rw [filterMap_concat_none rfl, filterMap_concat_none rfl, hrunning]

theorem accounts {es : List (Act α)} {t : Service α} (h : Trace Step idle es t) :
    Accounts es t := by
  induction h with
  | nil => exact ⟨rfl, rfl, rfl, rfl⟩
  | snoc _ hstep ih => exact ih.step hstep

/-- Nothing is begun that was not submitted, nor more often. -/
theorem Accounts.called_le {es : List (Act α)} {t : Service α} (h : Accounts es t) :
    (es.filterMap called : Multiset α) ≤ es.filterMap submitted := by
  calc (es.filterMap called : Multiset α) ≤ es.filterMap took := by
        rw [h.taken]
        exact Multiset.le_add_right _ _
    _ ≤ es.filterMap left := by
        rw [h.gone]
        exact Multiset.le_add_right _ _
    _ ≤ es.filterMap submitted := by
        rw [h.order, ← Multiset.coe_add]
        exact Multiset.le_add_right _ _

/-- When nothing waits or runs and nothing was dropped, all that was
submitted is finished. -/
theorem Accounts.all_finished {es : List (Act α)} {t : Service α} (h : Accounts es t)
    (hwaiting : t.waiting = []) (htaken : t.taken = 0) (hrunning : t.running = 0)
    (hdrop : es.filterMap dropped = []) :
    (es.filterMap submitted : Multiset α) = es.filterMap finished := by
  rw [h.order, hwaiting, List.append_nil, h.gone, hdrop, h.taken, htaken,
    h.running, hrunning]
  simp

end Service

end Pyramid
