/-
# `Pyramid.Thpool.Progress` — every job that is handed in is done

Three results about a pool that is not being destroyed.  What ends a run can only be
a queue that is longer than an `int` counts (`fault_iff_of_refines`).  When no thread
can go on by itself, all workers sleep and every job that was handed in is done
(`Quiet.rest`): no wake-up was lost, and nobody waits for a lock.  And that is always
where they get to: each step they take is paid for, by the start of a worker, a call of
`thpool_add_work` or a wake-up without a signal (`step_paid`), so between two of these
there is only so much to do.
-/
import Pyramid.Thpool.Steady

namespace Pyramid

namespace Thpool

variable {s s' : Pool} {t : Service Task} {ws : List Worker} {i k : Nat}
  {x y : Worker}

/-! ## What a thread does not stumble over -/

theorem Refines.pull_ok (hR : Refines s t) :
    ∃ job q more, jobqueuePull s.jobs s.queue = .ok (job, q, more) := by
  obtain ⟨q, more, hpull, -⟩ :=
    jobqueuePull_fifo hR.fifo (by rw [hR.len, List.length_map]) hR.bound
  exact ⟨_, q, more, hpull⟩

theorem Refines.cell_of_takes (hR : Refines s t) {a : Nat}
    (hi : s.workers[i]? = some x) (hx : x.takes a = true) :
    ∃ j, s.jobs.cell a = some j := by
  refine Option.ne_none_iff_exists'.mp (hR.cell_of_places ?_)
  have := countP_pos_of_get hi hx
  rw [Pool.places]
  omega

theorem Refines.cell_of_runs (hR : Refines s t) {a : Nat}
    (hi : s.workers[i]? = some x) (hx : x.runs a = true) :
    ∃ j, s.jobs.cell a = some j := by
  refine Option.ne_none_iff_exists'.mp (hR.cell_of_places ?_)
  have := countP_pos_of_get hi hx
  rw [Pool.places]
  omega

/-- The job that a caller is about to push has a record, and is not in the queue. -/
theorem Refines.of_adds (hR : Refines s t) {a : Nat}
    (hk : s.callers[k]? = some (.adding a)) :
    s.jobs.cell a ≠ none ∧ a ∉ t.waiting.map Task.job := by
  have hadds := countP_pos_of_get hk (adds_adding.mpr rfl)
  have hcell : s.jobs.cell a ≠ none := hR.cell_of_places (by rw [Pool.places]; omega)
  refine ⟨hcell, fun ha => ?_⟩
  have hplaces := hR.owned a
  have hpos := List.count_pos_iff.mpr ha
  rw [if_neg hcell, Pool.places] at hplaces
  omega

/-- A job is not with a worker and a caller at once. -/
theorem Refines.runs_not_adds (hR : Refines s t) {a : Nat}
    (hi : s.workers[i]? = some (.running a))
    (hk : s.callers[k]? = some (.adding a)) : False := by
  have hruns := countP_pos_of_get hi (runs_running.mpr rfl)
  have hadds := countP_pos_of_get hk (adds_adding.mpr rfl)
  have hplaces := hR.owned a
  rw [if_neg (hR.of_adds hk).1, Pool.places] at hplaces
  omega

theorem Refines.push_ok (hR : Refines s t) {a : Nat}
    (hk : s.callers[k]? = some (.adding a)) (hroom : s.queue.len ≠ intMax) :
    ∃ jobs q, jobqueuePush s.jobs s.queue (some a) = .ok (jobs, q) := by
  obtain ⟨hcell, hfresh⟩ := hR.of_adds hk
  obtain ⟨jobs, q, hpush, -⟩ :=
    jobqueuePush_fifo hR.fifo (by rw [hR.len, List.length_map]) hcell hfresh hroom
  exact ⟨jobs, q, hpush⟩

theorem Refines.clear_ok (hR : Refines s t) (hlen : s.queue.len ≠ 0) :
    ∃ a j q more, jobqueuePull s.jobs s.queue = .ok (some a, q, more) ∧
      s.jobs.cell a = some j ∧
      a ∈ t.waiting.map Task.job := by
  obtain ⟨q, more, hpull, -⟩ :=
    jobqueuePull_fifo hR.fifo (by rw [hR.len, List.length_map]) hR.bound
  have hfifo := hR.fifo
  rw [hR.len] at hlen
  cases hw : t.waiting with
  | nil =>
      rw [hw] at hlen
      exact absurd rfl hlen
  | cons x rest =>
      rw [hw] at hpull hfifo
      obtain ⟨j, hj⟩ := hfifo.path.cell_of_mem List.mem_cons_self
      exact ⟨x.job, j, q, more, hpull, hj, List.mem_cons_self⟩

/-- What can end a run: a job is pushed onto a queue of `INT_MAX` jobs, or a worker
still has to unlock `thcount_lock` when the pool has been freed. -/
theorem fault_iff_of_refines (hR : Refines s t) {e : Halt} :
    Fault s e ↔
      (e = .overflow ∧ s.queue.len = intMax ∧ s.queue.rwmutex = false ∧
        ∃ (k a : Nat), s.callers[k]? = some (Caller.adding a)) ∨
      (e = .badAddr ∧ (∃ n, s.owner = .freed n) ∧ ∃ i : Nat,
        s.workers[i]? = some Worker.leaving) := by
  have hfull : ∀ {k a : Nat}, s.callers[k]? = some (Caller.adding a) →
      s.queue.len = intMax →
      jobqueuePush s.jobs s.queue (some a) = .error .overflow := fun hk hlen =>
    jobqueuePush_full hR.fifo (by rw [hR.len, List.length_map])
      (hR.of_adds hk).1 hlen
  constructor
  · intro h
    cases h with
    | pull _ _ hpull =>
        obtain ⟨job, q, more, hok⟩ := hR.pull_ok
        cases hok.symm.trans hpull
    | call hi hload =>
        obtain ⟨j, hj⟩ := hR.cell_of_takes hi (takes_pulled.mpr rfl)
        cases (Heap.load_some hj).symm.trans hload
    | finish hi hfree =>
        obtain ⟨j, hj⟩ := hR.cell_of_runs hi (runs_running.mpr rfl)
        cases (Heap.free_some hj).symm.trans hfree
    | @push k a e hk hfree hpush =>
        by_cases hroom : s.queue.len = intMax
        · exact Or.inl ⟨Except.error.inj (hpush.symm.trans (hfull hk hroom)), hroom,
            hfree, k, a, hk⟩
        · obtain ⟨jobs, q, hok⟩ := hR.push_ok hk hroom
          cases hok.symm.trans hpush
    | clear _ hlen hclear =>
        obtain ⟨a, j, q, more, hpull, hj, -⟩ := hR.clear_ok hlen
        rw [hpull, ok_bind] at hclear
        cases (Heap.free_some hj).symm.trans hclear
    | leave hi ho => exact Or.inr ⟨rfl, ⟨_, ho⟩, _, hi⟩
  · rintro (⟨rfl, hlen, hfree, k, a, hk⟩ | ⟨rfl, ⟨n, ho⟩, i, hi⟩)
    · exact .push hk hfree (hfull hk hlen)
    · exact .leave hi ho

/-! ## Rest -/

theorem Signal.exists_next (us : List Worker) : ∃ ws, Signal us ws := by
  by_cases h : Worker.asleep ∈ us
  · obtain ⟨j, hj⟩ := List.mem_iff_getElem?.mp h
    exact ⟨_, .one hj⟩
  · exact ⟨us, .nobody h⟩

/-- No thread goes on by itself. -/
def Quiet (s : Pool) : Prop := ∀ e s', Step s e s' → e.own = false

/-- Who holds `rwmutex` can go on, so nobody does. -/
theorem Quiet.unlocked (hq : Quiet s) (hs : Steady s) : s.queue.rwmutex = false := by
  have hworkers : s.workers.countP Worker.locks = 0 := by
    refine List.countP_eq_zero.mpr fun w hw hlocks => ?_
    obtain ⟨i, hi⟩ := List.mem_iff_getElem?.mp hw
    cases w with
    | posting job =>
        obtain ⟨ws, hws⟩ := Signal.exists_next s.workers
        exact absurd (hq _ _ (.post hi hws)) nofun
    | unlocking job => exact absurd (hq _ _ (.unlock hi)) nofun
    | _ => cases hlocks
  have hcallers : s.callers.countP Caller.locks = 0 := by
    refine List.countP_eq_zero.mpr fun c hc hlocks => ?_
    obtain ⟨k, hk⟩ := List.mem_iff_getElem?.mp hc
    cases c with
    | posting =>
        obtain ⟨ws, hws⟩ := Signal.exists_next s.workers
        exact absurd (hq _ _ (.callerPost hk hws)) nofun
    | unlocking => exact absurd (hq _ _ (.callerUnlock hk)) nofun
    | _ => cases hlocks
  have hcount := hs.rwmutex
  rw [hworkers, hcallers] at hcount
  cases hlock : s.queue.rwmutex with
  | false => rfl
  | true =>
      rw [hlock] at hcount
      cases hcount

theorem Steady.thcount_free (hs : Steady s) (hk : s.keepalive = true) :
    s.thcountLock = false := by
  cases hlock : s.thcountLock with
  | false => rfl
  | true =>
      have hcount := hs.thcount
      rw [hlock] at hcount
      have hpos : 0 < s.workers.countP (· == .leaving) := by
        rw [hcount]
        decide
      obtain ⟨i, w, hi, hw⟩ := exists_of_countP_pos hpos
      rw [beq_iff_eq.mp hw] at hi
      exact absurd hk (hs.not_keepalive_of_ended hi rfl)

theorem Quiet.asleep (hq : Quiet s) (hs : Steady s) (hR : Refines s t)
    (hk : s.keepalive = true) :
    ∀ w ∈ s.workers, w = .asleep := by
  intro w hw
  obtain ⟨i, hi⟩ := List.mem_iff_getElem?.mp hw
  have hfree := hs.thcount_free hk
  cases w with
  | asleep => rfl
  | starting => exact absurd (hq _ _ (.start hi hfree)) nofun
  | testing => exact absurd (hq _ _ (.test hi)) nofun
  | waiting =>
      by_cases hflag : s.queue.hasJobs = 1
      · exact absurd (hq _ _ (.pass hi hflag)) nofun
      · exact absurd (hq _ _ (.sleep hi hflag)) nofun
  | awake => exact absurd (hq _ _ (.again hi)) nofun
  | counting => exact absurd (hq _ _ (.count hi hfree)) nofun
  | pulling =>
      obtain ⟨job, q, more, hpull⟩ := hR.pull_ok
      have hown := hq _ _ (.pull hi (hq.unlocked hs) hpull)
      cases job with
      | none => cases hown
      | some a => cases hown
  | posting job =>
      obtain ⟨ws, hws⟩ := Signal.exists_next s.workers
      exact absurd (hq _ _ (.post hi hws)) nofun
  | unlocking job => exact absurd (hq _ _ (.unlock hi)) nofun
  | pulled job =>
      cases job with
      | none => exact absurd (hq _ _ (.skip hi)) nofun
      | some a =>
          obtain ⟨j, hj⟩ := hR.cell_of_takes hi (takes_pulled.mpr rfl)
          exact absurd (hq _ _ (.call hi (Heap.load_some hj))) nofun
  | running a =>
      obtain ⟨j, hj⟩ := hR.cell_of_runs hi (runs_running.mpr rfl)
      exact absurd (hq _ _ (.finish hi (Heap.free_some hj))) nofun
  | uncounting => exact absurd (hq _ _ (.uncount hi hfree)) nofun
  | ending => exact absurd hk (hs.not_keepalive_of_ended hi rfl)
  | leaving => exact absurd hk (hs.not_keepalive_of_ended hi rfl)
  | gone => exact absurd hk (hs.not_keepalive_of_ended hi rfl)

theorem map_job_eq_zero {xs : Multiset Task}
    (h : ∀ a, (xs.map Task.job).count a = 0) : xs = 0 := by
  refine Multiset.eq_zero_of_forall_notMem fun x hx => ?_
  exact absurd (h x.job) (Multiset.count_ne_zero.mpr (Multiset.mem_map_of_mem _ hx))

/-- **No lost wake-up.**  When no thread goes on by itself, no job waits and none is
being done. -/
theorem Quiet.rest (hq : Quiet s) (hs : Steady s) (hR : Refines s t)
    (hk : s.keepalive = true) (hsome : s.workers ≠ []) :
    t.waiting = [] ∧ t.taken = 0 ∧ t.running = 0 ∧ ∀ c ∈ s.callers, c = .out := by
  have hasleep := hq.asleep hs hR hk
  have hnone : ∀ p : Worker → Bool, p .asleep = false → s.workers.countP p = 0 :=
    fun p hp => List.countP_eq_zero.mpr fun w hw => by rw [hasleep w hw, hp]; nofun
  obtain ⟨w, hw⟩ := List.exists_mem_of_ne_nil _ hsome
  have hlen : s.queue.len = 0 := by
    by_contra hne
    rcases hs.woken hk hne with hone | hseeks | hpost
    · cases hasleep _ (hs.signalled hone (hasleep w hw ▸ hw))
    · rw [hnone _ rfl] at hseeks
      cases hseeks
    · obtain ⟨k, hk'⟩ := List.mem_iff_getElem?.mp hpost
      obtain ⟨ws, hws⟩ := Signal.exists_next s.workers
      exact absurd (hq _ _ (.callerPost hk' hws)) nofun
  refine ⟨?_, ?_, ?_, fun c hc => ?_⟩
  · have := hR.len
    exact List.length_eq_zero_iff.mp (by omega)
  · exact map_job_eq_zero fun a => (hR.taken a).symm.trans (hnone _ rfl)
  · exact map_job_eq_zero fun a => (hR.running a).symm.trans (hnone _ rfl)
  · obtain ⟨k, hk'⟩ := List.mem_iff_getElem?.mp hc
    cases c with
    | out => rfl
    | adding a =>
        obtain ⟨jobs, q, hpush⟩ := hR.push_ok hk' (by rw [hlen]; decide)
        exact absurd (hq _ _ (.push hk' (hq.unlocked hs) hpush)) nofun
    | posting =>
        obtain ⟨ws, hws⟩ := Signal.exists_next s.workers
        exact absurd (hq _ _ (.callerPost hk' hws)) nofun
    | unlocking => exact absurd (hq _ _ (.callerUnlock hk')) nofun

/-! ## What is left to do -/

/-- An upper bound for the steps of a worker before it sleeps, as
long as no flag is up. -/
def Worker.work : Worker → Nat
  | .asleep => 0
  | .waiting => 1
  | .testing => 2
  | .starting => 3
  | .uncounting => 3
  | .running _ => 4
  | .pulled _ => 5
  | .unlocking _ => 6
  | .pulling => 7
  | .counting => 8
  | .awake => 9
  | .posting _ => 17
  | _ => 0

def Caller.work : Caller → Nat
  | .out => 0
  | .adding _ => 24
  | .posting => 12
  | .unlocking => 1

def Owner.work : Owner → Nat
  | .creating => 1
  | _ => 0

/-- A flag that is up sends a worker round, and so does a job. -/
def JobQueue.work (q : JobQueue) : Nat :=
  11 * q.len.toNat + if q.hasJobs = 1 then 9 else 0

def Pool.work (s : Pool) : Nat :=
  s.queue.work + total Worker.work s.workers + total Caller.work s.callers
    + s.owner.work

/-- What an event from outside gives the threads to do. -/
def Action.credit : Action → Nat
  | .add _ => 24
  | .wake => 1
  | _ => 0

theorem JobQueue.len_le_work (q : JobQueue) : 11 * q.len.toNat ≤ q.work :=
  Nat.le_add_right _ _

theorem JobQueue.work_of_up {q : JobQueue} (h : q.hasJobs = 1) :
    q.work = 11 * q.len.toNat + 9 := by
  rw [JobQueue.work, if_pos h]

theorem JobQueue.work_of_down {q : JobQueue} (h : q.hasJobs ≠ 1) :
    q.work = 11 * q.len.toNat := by
  rw [JobQueue.work, if_neg h, Nat.add_zero]

/-- Waking a thread up is little work. -/
theorem Signal.work {us : List Worker} (h : Signal us ws) :
    total Worker.work ws ≤ total Worker.work us + 1 := by
  cases h with
  | one hj =>
      have hset := total_set Worker.work (y := .waiting) hj
      simp only [Worker.work] at hset
      omega
  | nobody _ => exact Nat.le_succ _

/-- What a worker does is paid for if it is where the worker is. -/
theorem worker_paid {e : Action} (hi : s.workers[i]? = some x)
    (hworkers : s'.workers = s.workers.set i y)
    (hsame : (s'.callers, s'.owner) = (s.callers, s.owner))
    (hpaid : s'.queue.work + y.work + e.own.toNat ≤ s.queue.work + x.work
      + e.credit) :
    s'.work + e.own.toNat ≤ s.work + e.credit := by
  obtain ⟨hcallers, howner⟩ := Prod.mk.inj hsame
  have hset := total_set Worker.work (y := y) hi
  rw [Pool.work, Pool.work, hworkers, hcallers, howner]
  omega

theorem caller_paid {e : Action} {c d : Caller} (hk : s.callers[k]? = some c)
    (hcallers : s'.callers = s.callers.set k d)
    (hsame : (s'.workers, s'.owner) = (s.workers, s.owner))
    (hpaid : s'.queue.work + d.work + e.own.toNat ≤ s.queue.work + c.work
      + e.credit) :
    s'.work + e.own.toNat ≤ s.work + e.credit := by
  obtain ⟨hworkers, howner⟩ := Prod.mk.inj hsame
  have hset := total_set Caller.work (y := d) hk
  rw [Pool.work, Pool.work, hworkers, hcallers, howner]
  omega

/-- A pull that leaves jobs behind has taken one from the queue. -/
theorem Refines.pull_work (hR : Refines s t) {job : Ptr} {q : JobQueue} {more : Bool}
    (hpull : jobqueuePull s.jobs s.queue = .ok (job, q, more)) :
    q.work ≤ s.queue.work ∧ (more = true → q.work + 11 ≤ s.queue.work) := by
  obtain ⟨q', more', hpull', -, hlen, hflag, hmore⟩ := jobqueuePull_fifo hR.fifo
    (by rw [hR.len, List.length_map]) hR.bound
  cases hpull.symm.trans hpull'
  have hlen' := hR.len
  unfold JobQueue.work
  rw [hlen, hlen', hflag]
  cases hw : t.waiting with
  | nil =>
      refine ⟨by simp, fun hm => ?_⟩
      rw [hw] at hmore
      exact absurd rfl (hmore.mp hm)
  | cons x rest =>
      simp only [List.map_cons, List.tail_cons, List.length_map, List.length_cons]
      omega

attribute [local simp] Worker.work Caller.work Owner.work Action.own Action.credit

/-- **Every step is paid for.** -/
theorem step_paid {e : Action} (hs : Steady s) (hR : Refines s t) (h : Step s e s')
    (hkeep : s'.keepalive = true) : s'.work + e.own.toNat ≤ s.work + e.credit := by
  cases h with
  | start hi _ => exact worker_paid hi rfl rfl (by simp)
  | test hi =>
      have hkeep' : s.keepalive = true := hkeep
      exact worker_paid (y := .waiting) hi (by rw [if_pos hkeep']) rfl (by simp)
  | pass hi hflag =>
      refine worker_paid hi rfl rfl ?_
      rw [JobQueue.work_of_up hflag, JobQueue.work_of_down (by simp)]
      simp
  | sleep hi _ => exact worker_paid hi rfl rfl (by simp)
  | wake hi => exact worker_paid hi rfl rfl (by simp)
  | again hi =>
      have hkeep' : s.keepalive = true := hkeep
      exact worker_paid (y := .counting) hi (by rw [if_pos hkeep']) rfl (by simp)
  | count hi _ => exact worker_paid hi rfl rfl (by simp)
  | @pull i job q more hi _ hpull =>
      obtain ⟨hle, hless⟩ := hR.pull_work hpull
      have hq : JobQueue.work { q with rwmutex := true } = q.work := rfl
      have hown : (job.elim Action.internal fun a =>
          .seen (.take (task s.jobs a))).own = true := by
        cases job <;> rfl
      refine worker_paid hi rfl rfl ?_
      rw [hown]
      cases more with
      | true =>
          have := hless rfl
          simp only [if_true, Worker.work, hq, Bool.toNat_true]
          omega
      | false =>
          simp only [Bool.false_eq_true, if_false, Worker.work, hq, Bool.toNat_true]
          omega
  | @post i job ws hi hsignal => 
      have hq := JobQueue.work_of_up (q := { s.queue with hasJobs := 1 }) rfl
      have hset := total_set Worker.work (y := .unlocking job) (hsignal.get hi nofun)
      have hwoken := hsignal.work
      have hqueue := s.queue.len_le_work
      simp only [Pool.work, hq, Worker.work, Action.own, Action.credit,
        Bool.toNat_true] at hset ⊢
      omega
  | unlock hi => exact worker_paid hi rfl rfl (by simp [JobQueue.work])
  | skip hi => exact worker_paid hi rfl rfl (by simp)
  | call hi _ => exact worker_paid hi rfl rfl (by simp)
  | finish hi _ => exact worker_paid hi rfl rfl (by simp)
  | uncount hi _ => exact worker_paid hi rfl rfl (by simp)
  | finale hi _ => exact absurd hkeep (hs.not_keepalive_of_ended hi rfl)
  | leave hi _ => exact absurd hkeep (hs.not_keepalive_of_ended hi rfl)
  | add hk _ _ => exact caller_paid hk rfl rfl (by simp)
  | refuse _ _ _ => exact Nat.le_refl _
  | @push k a jobs q hk _ hpush =>
      have hroom := jobqueuePush_room hpush
      obtain ⟨jobs', q', hpush', -, hlen, hflag, -⟩ := jobqueuePush_fifo hR.fifo
        (by rw [hR.len, List.length_map]) (hR.of_adds hk).1 (hR.of_adds hk).2 hroom
      cases hpush.symm.trans hpush'
      have hpos := hR.len
      refine caller_paid hk rfl rfl ?_
      simp only [JobQueue.work, hlen, hflag, Caller.work, Action.own, Action.credit,
        Bool.toNat_true]
      omega
  | @callerPost k ws hk hsignal =>
      have hq := JobQueue.work_of_up (q := { s.queue with hasJobs := 1 }) rfl
      have hset := total_set Caller.work (y := .unlocking) hk
      have hwoken := hsignal.work
      have hqueue := s.queue.len_le_work
      simp only [Pool.work, hq, Caller.work, Action.own, Action.credit,
        Bool.toNat_true] at hset ⊢
      omega
  | callerUnlock hk => exact caller_paid hk rfl rfl (by simp [JobQueue.work])
  | created ho _ => simp [Pool.work, ho]
  | destroy _ _ => cases hkeep
  | poll ho =>
      exact absurd hkeep (by rw [hs.not_keepalive (by rw [ho]; rfl)]; nofun)
  | broadcast ho =>
      exact absurd hkeep (by rw [hs.not_keepalive (by rw [ho]; rfl)]; nofun)
  | clear ho _ _ _ _ =>
      exact absurd hkeep (by rw [hs.not_keepalive (by rw [ho]; rfl)]; nofun)
  | cleared ho _ =>
      exact absurd hkeep (by rw [hs.not_keepalive (by rw [ho]; rfl)]; nofun)

end Thpool

end Pyramid
