/-
# `Pyramid.Thpool.Closing` — what `thpool_destroy` leaves behind (`thpool.c`)

`thpool_destroy` lets the threads go and frees everything once it has seen
`num_threads_alive` be 0.  By then no thread has a job: each job that was
pushed was finished, or is freed from the queue without having been called
(`destroyed`).  But a worker that is no longer counted may still hold
`thcount_lock`, which is freed with the rest: that is the one thing that can go
wrong, next to a queue longer than an `int` can count (`what_ends_a_run`).
-/
import Pyramid.Thpool.Serving

namespace Pyramid

namespace Thpool

open Service

variable {s s' : Pool} {t : Service Task} {n m : Nat} {es : List Action} {x : Worker}

/-- Nobody is left once `thpool_destroy` has seen it. -/
theorem Steady.nobody (hs : Steady s) (ho : s.owner.late = true) :
    ∀ w ∈ s.workers, w = .leaving ∨ w = .gone := by
  intro w hw
  have hborn := hs.born fun hc => by rw [hc] at ho; cases ho
  have hdead := List.countP_eq_zero.mp (hs.late ho) w hw
  cases w with
  | leaving => exact Or.inl rfl
  | gone => exact Or.inr rfl
  | starting => exact absurd hw hborn
  | _ => exact absurd rfl hdead

theorem Steady.nobody_counts (hs : Steady s) (ho : s.owner.late = true)
    {p : Worker → Bool} (hleaving : p .leaving = false) (hgone : p .gone = false) :
    s.workers.countP p = 0 := by
  refine List.countP_eq_zero.mpr fun w hw hp => ?_
  rcases hs.nobody ho w hw with rfl | rfl
  · rw [hleaving] at hp
    cases hp
  · rw [hgone] at hp
    cases hp

/-- No job is put into the queue after it was cleared. -/
def Cleared (s : Pool) : Prop := Steady s ∧ ∀ k, s.owner = .freed k → s.queue.len = 0

theorem Cleared.step {e : Action} (hc : Cleared s) (h : Step s e s') :
    Cleared s' := by
  obtain ⟨hs, hlen⟩ := hc
  refine ⟨hs.step h, fun k ho => ?_⟩
  -- who could change the queue is gone
  have gone : ∀ {i : Nat} {w : Worker}, s.owner = .freed k → s.workers[i]? = some w →
      w = .leaving ∨ w = .gone := fun ho hi =>
    hs.nobody (by rw [ho]; rfl) _ (List.mem_of_getElem? hi)
  have out : ∀ {j : Nat} {c : Caller}, s.owner = .freed k → s.callers[j]? = some c →
      c = .out :=
    fun ho hj => hs.closed (hs.not_keepalive (n := k) (by rw [ho]; rfl)) _
      (List.mem_of_getElem? hj)
  cases h with
  | pull hi _ _ => rcases gone ho hi with h | h <;> cases h
  | push hk _ _ => cases out ho hk
  | @poll k' _ =>
      revert ho
      show (if s.numThreadsAlive = 0 then Owner.clearing k' else .broadcasting k')
          = _ → _
      split <;> exact nofun
  | clear hclear _ _ _ _ =>
      cases hclear.symm.trans ho
  | cleared _ _ => rfl
  | created _ _ => cases ho
  | destroy _ _ => cases ho
  | broadcast _ => cases ho
  | _ => exact hlen k ho

theorem run_cleared (h : Trace Step (Pool.start n m) es s) : Cleared s :=
  h.inv Cleared (fun _ _ _ hc hstep => hc.step hstep) ⟨Steady.start n m, nofun⟩

theorem total_of_run (h : Trace Step (Pool.start n m) es s) {k : Int}
    (ho : s.owner.total = some k) :
    k = n := by
  rw [(run_steady h).total k ho, run_length h]

/-- **What `thpool_destroy` leaves behind.**  When it has freed the pool, it has
freed all `n` threads and the records of all jobs; no worker has a job; and every job
that was pushed was either finished, or dropped without having been called. -/
theorem destroyed (h : Trace Step (Pool.start n m) es s) {k : Int}
    (ho : s.owner = .freed k) :
    k = n ∧ (∀ w ∈ s.workers, w = .leaving ∨ w = .gone) ∧
      (∀ a, s.jobs.cell a = none) ∧
      ((acts es).filterMap finished ++ (acts es).filterMap dropped).Perm
        ((acts es).filterMap submitted) ∧
      ∀ x ∈ (acts es).filterMap called, x ∉ (acts es).filterMap dropped := by
  obtain ⟨t, hserved⟩ := run_served h
  have hs := run_steady h
  have hlate : s.owner.late = true := by rw [ho]; rfl
  have hwaiting : t.waiting = [] := by
    have := hserved.refines.len
    have := (run_cleared h).2 k ho
    exact List.length_eq_zero_iff.mp (by omega)
  have htaken : t.taken = 0 := map_job_eq_zero fun a =>
    (hserved.refines.taken a).symm.trans (hs.nobody_counts hlate rfl rfl)
  have hrunning : t.running = 0 := map_job_eq_zero fun a =>
    (hserved.refines.running a).symm.trans (hs.nobody_counts hlate rfl rfl)
  have hbooks : ((acts es).filterMap submitted : Multiset Task) =
      (acts es).filterMap called + (acts es).filterMap dropped := by
    rw [hserved.accounts.order, hwaiting, List.append_nil, hserved.accounts.gone,
      hserved.accounts.taken, htaken, add_zero]
  have hdone : ((acts es).filterMap called : Multiset Task)
      = (acts es).filterMap finished := by
    rw [hserved.accounts.running, hrunning, add_zero]
  refine ⟨total_of_run h (by rw [ho]; rfl), hs.nobody hlate, fun a => ?_, ?_,
    fun x hx hdrop => ?_⟩
  · have howned := hserved.refines.owned a
    have hout : s.callers.countP (Caller.adds a) = 0 :=
      List.countP_eq_zero.mpr fun c hc => by
      rw [hs.closed (hs.not_keepalive (n := k) (by rw [ho]; rfl)) c hc]
      nofun
    rw [Pool.places, hwaiting, hs.nobody_counts hlate rfl rfl,
      hs.nobody_counts hlate rfl rfl, hout] at howned
    by_contra hcell
    rw [if_neg hcell] at howned
    cases howned
  · refine Multiset.coe_eq_coe.mp ?_
    rw [← Multiset.coe_add, ← hdone, hbooks]
  · have hnodup := Multiset.coe_nodup.mpr hserved.nodup.1
    rw [hbooks] at hnodup
    exact Multiset.disjoint_left.mp (Multiset.nodup_add.mp hnodup).2.2
      (Multiset.mem_coe.mpr hx)
      (Multiset.mem_coe.mpr hdrop)

/-- **What ends a run.**  A thread can do two things that end the run, and no other:
push a job onto a queue of `INT_MAX` jobs, or unlock `thcount_lock` after the pool
was freed. -/
theorem what_ends_a_run (h : Trace Step (Pool.start n m) es s) (e : Halt) :
    Fault s e ↔
      (e = .overflow ∧ s.queue.len = intMax ∧ s.queue.rwmutex = false ∧
        ∃ (k a : Nat), s.callers[k]? = some (Caller.adding a)) ∨
      (e = .badAddr ∧ (∃ k, s.owner = .freed k) ∧ ∃ i : Nat,
        s.workers[i]? = some Worker.leaving) := by
  obtain ⟨t, hR, -⟩ := run_simulates h
  exact fault_iff_of_refines hR

/-- `thpool_destroy` sees the only thread go, and frees the lock that it holds. -/
theorem sample_destroyed : ∃ es s, Trace Step (Pool.start 1 0) es s ∧
    s.owner = .freed 1 ∧
    s.workers = [.leaving] := by
  have h := (((Trace.nil (Pool.start 1 0)).snoc (Step.start (i := 0) rfl rfl)).snoc
    (Step.created rfl rfl)).snoc (Step.destroy rfl (by decide))
  have h :=
    ((h.snoc (Step.test (i := 0) rfl)).snoc (Step.finale (i := 0) rfl rfl)).snoc
      (Step.poll rfl)
  exact ⟨_, _, h.snoc (Step.cleared rfl rfl), rfl, rfl⟩

/-- One job is being carried out when `thpool_destroy` is called, and one waits. -/
theorem sample_dropped : ∃ es s, Trace Step (Pool.start 1 1) es s ∧
    s.owner = .freed 1 ∧
    (acts es).filterMap finished = [⟨0, 7, 8⟩] ∧
    (acts es).filterMap dropped = [⟨1, 9, 10⟩] := by
  have h := ((Trace.nil (Pool.start 1 1)).snoc (Step.start (i := 0) rfl rfl)).snoc
    (Step.created rfl rfl)
  have h := (((h.snoc (Step.add (k := 0) rfl rfl
    (rfl : newJob _ (fun _ => some ⟨none, 0, 0⟩) 7 8 = .ok (some 0, _)))).snoc
    (Step.push (k := 0) rfl rfl rfl)).snoc
    (Step.callerPost (k := 0) rfl (.nobody (by decide)))).snoc
    (Step.callerUnlock (k := 0) rfl)
  have h :=
    (((h.snoc (Step.test (i := 0) rfl)).snoc (Step.pass (i := 0) rfl rfl)).snoc
    (Step.again (i := 0) rfl)).snoc (Step.count (i := 0) rfl rfl)
  have h :=
    ((h.snoc (Step.pull (i := 0) rfl rfl rfl)).snoc (Step.unlock (i := 0) rfl)).snoc
    (Step.call (i := 0) rfl rfl)
  have h := (((h.snoc (Step.add (k := 0) rfl rfl
    (rfl : newJob _ (fun _ => some ⟨none, 0, 0⟩) 9 10 = .ok (some 1, _)))).snoc
    (Step.push (k := 0) rfl rfl rfl)).snoc
    (Step.callerPost (k := 0) rfl (.nobody (by decide)))).snoc
    (Step.callerUnlock (k := 0) rfl)
  have h := ((h.snoc (Step.destroy rfl (by decide))).snoc (Step.poll rfl)).snoc
    (Step.broadcast rfl)
  have h := ((h.snoc (Step.finish (i := 0) rfl rfl)).snoc
    (Step.uncount (i := 0) rfl rfl)).snoc (Step.test (i := 0) rfl)
  have h := (h.snoc (Step.finale (i := 0) rfl rfl)).snoc (Step.poll rfl)
  have h := h.snoc (Step.clear rfl (by decide) rfl rfl (by exact rfl))
  exact ⟨_, _, h.snoc (Step.cleared rfl rfl), rfl, rfl, rfl⟩
theorem destroyed_sample : ∃ es s, Trace Step (Pool.start 1 1) es s ∧
    (acts es).filterMap finished = [⟨0, 7, 8⟩] ∧
    (acts es).filterMap dropped = [⟨1, 9, 10⟩] ∧
    (1 : Int) = (1 : Nat) ∧
    (∀ w ∈ s.workers, w = .leaving ∨ w = .gone) ∧ (∀ a, s.jobs.cell a = none) ∧
      ((acts es).filterMap finished ++ (acts es).filterMap dropped).Perm
        ((acts es).filterMap submitted) ∧
      ∀ x ∈ (acts es).filterMap called, x ∉ (acts es).filterMap dropped := by
  obtain ⟨es, s, h, ho, hfinished, hdropped⟩ := sample_dropped
  exact ⟨es, s, h, hfinished, hdropped, destroyed h ho⟩

theorem what_ends_a_run_sample :
    ∃ es s, Trace Step (Pool.start 1 0) es s ∧ Fault s .badAddr := by
  obtain ⟨es, s, h, ho, hw⟩ := sample_destroyed
  refine ⟨es, s, h, (what_ends_a_run h .badAddr).mpr (Or.inr ⟨rfl, ⟨1, ho⟩, 0, ?_⟩)⟩
  rw [hw]
  rfl

end Thpool

end Pyramid
