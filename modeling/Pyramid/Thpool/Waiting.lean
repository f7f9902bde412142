/-
# `Pyramid.Thpool.Waiting` — what `thpool_wait` has waited for (`thpool.c`)

`thpool_wait` looks at `jobqueue_p->len` and then at `num_threads_working`, with
no lock, while the other threads go on; each of its three loops ends when it
has seen both be 0, the first two also when they have been at it long enough.
The two are not 0 at the same time: jobs may be pushed between the two reads,
and be done or not.  But a job that was pushed before the first of them has
left the queue by then, so that whoever has it is counted until it is done.
-/
import Pyramid.Thpool.Serving

namespace Pyramid

namespace Thpool

open Service

/-- The loops of `thpool_wait`: continuous polling, exponential
polling, max polling. -/
inductive Loop where
  | continuous
  | exponential
  | fallback
  deriving DecidableEq

/-- A thread in `thpool_wait`. -/
inductive Waiter where
  /-- before it reads `len` -/
  | atLen (l : Loop)
  /-- before it reads `num_threads_working` -/
  | atWorking (l : Loop)
  /-- in the body of a loop -/
  | inside (l : Loop)
  | returned
  deriving DecidableEq

/-- After a loop that has seen both be 0. -/
def Loop.after : Loop → Waiter
  | .continuous => .atLen .exponential
  | .exponential => .atLen .fallback
  | .fallback => .returned

/-- What `thpool_wait` does, on the pool as it is at this moment. -/
inductive WaitStep (s : Pool) : Waiter → Waiter → Prop
  | queued (l : Loop) : s.queue.len ≠ 0 → WaitStep s (.atLen l) (.inside l)
  | empty (l : Loop) : s.queue.len = 0 → WaitStep s (.atLen l) (.atWorking l)
  | busy (l : Loop) : s.numThreadsWorking ≠ 0 → WaitStep s (.atWorking l) (.inside l)
  | idle (l : Loop) : s.numThreadsWorking = 0 → WaitStep s (.atWorking l) l.after
  | again (l : Loop) : WaitStep s (.inside l) (.atLen l)
  /-- `tpassed` has reached `timeout` -/
  | timeout : WaitStep s (.inside .continuous) (.atLen .exponential)
  /-- `polling_interval.tv_sec` has reached `max_secs` -/
  | give : WaitStep s (.inside .exponential) (.atLen .fallback)

/-- A step of the pool, or one of the thread that waits. -/
inductive Watch : Pool × Waiter → Option Action → Pool × Waiter → Prop
  | pool {s s' : Pool} {e : Action} (w : Waiter) : Step s e s' →
      Watch (s, w) (some e) (s', w)
  | wait {s : Pool} {w w' : Waiter} : WaitStep s w w' → Watch (s, w) none (s, w')

variable {s s' : Pool} {w w' : Waiter} {es : List Action} {ls : List (Option Action)}
  {n m : Nat}

/-- Who watches the pool does not disturb it. -/
theorem watch_pool {p p' : Pool × Waiter} (h : Trace Watch p ls p') :
    Trace Step p.1 (ls.filterMap id) p'.1 := by
  induction h with
  | nil => exact .nil _
  | snoc _ hstep ih =>
      rw [List.filterMap_append]
      cases hstep with
      | pool w hs => exact ih.snoc hs
      | wait hw =>
          rw [List.filterMap_cons_none rfl, List.filterMap_nil, List.append_nil]
          exact ih

theorem watch_of_pool (w : Waiter) (h : Trace Step s es s') :
    Trace Watch (s, w) (es.map some) (s', w) := by
  induction h with
  | nil => exact .nil _
  | snoc _ hstep ih =>
      rw [List.map_append]
      exact ih.snoc (.pool w hstep)

/-- What the waiting thread knows of the tasks `xs`. -/
def Waiter.Knows (xs : List Task) (as : List (Act Task)) : Waiter → Prop
  | .atWorking _ => ∀ x ∈ xs, x ∈ as.filterMap left
  | .returned => ∀ x ∈ xs, x ∈ as.filterMap finished ∨ x ∈ as.filterMap dropped
  | _ => True

/-- What has been seen stays seen. -/
theorem Waiter.Knows.mono {xs : List Task} {as : List (Act Task)} (h : w.Knows xs as)
    (bs : List (Act Task)) :
    w.Knows xs (as ++ bs) := by
  cases w with
  | atWorking l =>
      intro x hx
      rw [List.filterMap_append]
      exact List.mem_append_left _ (h x hx)
  | returned =>
      intro x hx
      rw [List.filterMap_append, List.filterMap_append]
      exact (h x hx).imp (List.mem_append_left _) (List.mem_append_left _)
  | atLen l => trivial
  | inside l => trivial

/-- A task that has left the queue of a pool in which nobody works is
done, or was dropped. -/
theorem Served.done_of_idle {t : Service Task} (h : Served es s t) (hs : Steady s)
    (hidle : s.numThreadsWorking = 0) {x : Task}
    (hx : x ∈ (acts es).filterMap left) :
    x ∈ (acts es).filterMap finished ∨ x ∈ (acts es).filterMap dropped := by
  have hcounted : s.workers.countP Worker.counted = 0 := by
    have := hs.working
    omega
  have hnone : ∀ p : Worker → Bool, (∀ w, p w = true → w.counted = true) →
      s.workers.countP p = 0 := by
    intro p hp
    refine List.countP_eq_zero.mpr fun w hw hpw => ?_
    exact List.countP_eq_zero.mp hcounted w hw (hp w hpw)
  have htaken : t.taken = 0 :=
    map_job_eq_zero fun a => (h.refines.taken a).symm.trans <| hnone _ fun w hw => by
    cases w <;> first | rfl | cases hw
  have hrunning : t.running = 0 :=
    map_job_eq_zero fun a => (h.refines.running a).symm.trans <|
    hnone _ fun w hw => by
    cases w <;> first | rfl | cases hw
  have hgone := h.accounts.gone
  rw [h.accounts.taken, htaken, h.accounts.running, hrunning, add_zero, add_zero]
    at hgone
  have hmem := Multiset.mem_coe.mpr hx
  rw [hgone] at hmem
  exact (Multiset.mem_add.mp hmem).imp Multiset.mem_coe.mp Multiset.mem_coe.mp

theorem knows_step {xs : List Task} (hrun : Trace Step (Pool.start n m) es s)
    (hxs : ∀ x ∈ xs, x ∈ (acts es).filterMap submitted)
    (hknows : w.Knows xs (acts es)) (h : WaitStep s w w') :
    w'.Knows xs (acts es) := by
  obtain ⟨t, hserved⟩ := run_served hrun
  cases h with
  | empty l hlen =>
      intro x hx
      have hnil : t.waiting = [] := by
        have := hserved.refines.len
        exact List.length_eq_zero_iff.mp (by omega)
      have horder := hserved.accounts.order
      rw [hnil, List.append_nil] at horder
      rw [← horder]
      exact hxs x hx
  | idle l hidle =>
      cases l with
      | fallback =>
          exact fun x hx => hserved.done_of_idle (run_steady hrun) hidle
            (hknows x hx)
      | continuous => trivial
      | exponential => trivial
  | queued l _ => trivial
  | busy l _ => trivial
  | again l => trivial
  | timeout => trivial
  | give => trivial

theorem watch_knows {xs : List Task} {p p' : Pool × Waiter} (h : Trace Watch p ls p')
    (hrun : Trace Step (Pool.start n m) es p.1)
    (hxs : ∀ x ∈ xs, x ∈ (acts es).filterMap submitted)
    (hknows : p.2.Knows xs (acts es)) :
    p'.2.Knows xs (acts (es ++ ls.filterMap id)) := by
  induction h with
  | nil =>
      rw [List.filterMap_nil, List.append_nil]
      exact hknows
  | @snoc p₁ p₂ ls e htrace hstep ih =>
      have hrun₁ := hrun.append (watch_pool htrace)
      rw [List.filterMap_append, ← List.append_assoc]
      cases hstep with
      | @pool s₁ s₂ e w hs =>
          rw [acts, List.filterMap_append]
          exact ih.mono _
      | wait hw =>
          rw [List.filterMap_cons_none rfl, List.filterMap_nil, List.append_nil]
          refine knows_step hrun₁ (fun x hx => ?_) ih hw
          rw [acts, List.filterMap_append, List.filterMap_append]
          exact List.mem_append_left _ (hxs x hx)

/-- **`thpool_wait` waits for every job.** When it returns, in whatever
order the other threads went on meanwhile, every job that was pushed before
it was called is finished. -/
theorem wait_returns_done (hrun : Trace Step (Pool.start n m) es s)
    (hwait : Trace Watch (s, .atLen .continuous) ls (s', .returned))
    (hk : s'.keepalive = true) :
    ∀ x ∈ (acts es).filterMap submitted,
      x ∈ (acts (es ++ ls.filterMap id)).filterMap finished := by
  have hknows := watch_knows hwait hrun (fun _ hx => hx) trivial
  intro x hx
  rcases hknows x hx with hfin | hdrop
  · exact hfin
  · rw [run_drops_nothing (hrun.append (watch_pool hwait)) hk] at hdrop
    exact absurd hdrop List.not_mem_nil

theorem wait_returns_done_sample : ∃ es s ls s', Trace Step (Pool.start 1 1) es s ∧
    Trace Watch (s, .atLen .continuous) ls (s', .returned) ∧
    (acts es).filterMap submitted = [⟨0, 7, 8⟩] ∧
    ∀ x ∈ (acts es).filterMap submitted,
    x ∈ (acts (es ++ ls.filterMap id)).filterMap finished := by
  obtain ⟨es, s, es', s', h, h', hsub, hlen, hworking, hk, -⟩ := sample_run
  have hwait :=
    (((watch_of_pool (.atLen .continuous) h').snoc (.wait (.empty _ hlen))).snoc
    (.wait (.idle _ hworking))).snoc (.wait (.empty .exponential hlen))
  have hwait :=
    ((hwait.snoc (.wait (.idle _ hworking))).snoc
      (.wait (.empty .fallback hlen))).snoc
    (.wait (.idle _ hworking))
  exact ⟨es, s, _, s', h, hwait, hsub, wait_returns_done h hwait hk⟩

end Thpool

end Pyramid
