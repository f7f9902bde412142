/-
# `Pyramid.Thpool.Steady` — what the counters, the locks and the flag say

`Steady` is what holds between any two steps of a pool.  The counters count the
threads that they should, each lock is held by one thread at most, and no
wake-up is lost: as long as jobs wait, `has_jobs` is up, or a thread is on its
way to look at the queue or about to post (`woken`); and while it is up, not
every thread that came for it sleeps (`signalled`).

A step moves one worker (`Steady.worker`), one caller (`Steady.caller`) or the
owner, or wakes workers up (`Steady.signal`, `Steady.broadcast`).
-/
import Pyramid.Thpool.Tasks

namespace Pyramid

namespace Thpool

/-! ## Kinds of places -/

/-- counted in `num_threads_alive` -/
def Worker.alive : Worker → Bool
  | .starting => false
  | .leaving => false
  | .gone => false
  | _ => true

/-- counted in `num_threads_working` -/
def Worker.counted : Worker → Bool
  | .pulling => true
  | .posting _ => true
  | .unlocking _ => true
  | .pulled _ => true
  | .running _ => true
  | .uncounting => true
  | _ => false

/-- The worker holds `rwmutex`. -/
def Worker.locks : Worker → Bool
  | .posting _ => true
  | .unlocking _ => true
  | _ => false

/-- The worker will look at the queue, or post. -/
def Worker.seeks : Worker → Bool
  | .awake => true
  | .counting => true
  | .pulling => true
  | .posting _ => true
  | _ => false

/-- The worker is out of the loop. -/
def Worker.ended : Worker → Bool
  | .ending => true
  | .leaving => true
  | .gone => true
  | _ => false

def Caller.locks : Caller → Bool
  | .posting => true
  | .unlocking => true
  | _ => false

/-- `thpool_destroy` has seen the last thread go. -/
def Owner.late : Owner → Bool
  | .clearing _ => true
  | .freed _ => true
  | _ => false

/-- `threads_total` -/
def Owner.total : Owner → Option Int
  | .creating => none
  | .serving => none
  | .polling n => some n
  | .broadcasting n => some n
  | .clearing n => some n
  | .freed n => some n

structure Steady (s : Pool) : Prop where
  alive : s.numThreadsAlive = s.workers.countP Worker.alive
  working : s.numThreadsWorking = s.workers.countP Worker.counted
  rwmutex : s.workers.countP Worker.locks + s.callers.countP Caller.locks =
    s.queue.rwmutex.toNat
  thcount : s.workers.countP (· == .leaving) = s.thcountLock.toNat
  signalled : s.queue.hasJobs = 1 → .asleep ∈ s.workers → .waiting ∈ s.workers
  woken : s.keepalive = true → s.queue.len ≠ 0 →
    s.queue.hasJobs = 1 ∨ 0 < s.workers.countP Worker.seeks ∨ .posting ∈ s.callers
  keepalive : s.keepalive = true ↔ s.owner.total = none
  loop : s.keepalive = true → s.workers.countP Worker.ended = 0
  born : s.owner ≠ .creating → .starting ∉ s.workers
  closed : s.keepalive = false → ∀ c ∈ s.callers, c = .out
  late : s.owner.late = true → s.workers.countP Worker.alive = 0
  total : ∀ n, s.owner.total = some n → n = s.workers.length

variable {s s' : Pool} {ws : List Worker} {i k : Nat} {x y : Worker}

theorem mem_set_of_ne {α : Type} {ts : List α} {x y z : α} {i : Nat}
    (hi : ts[i]? = some x) (hz : z ∈ ts) (hne : z ≠ x) : z ∈ ts.set i y := by
  obtain ⟨j, hj⟩ := List.mem_iff_getElem?.mp hz
  have hij : i ≠ j := by
    rintro rfl
    exact hne (Option.some.inj (hj.symm.trans hi))
  exact List.mem_iff_getElem?.mpr ⟨j, by rw [List.getElem?_set_ne hij, hj]⟩

theorem mem_set_self {α : Type} {ts : List α} {x y : α} {i : Nat}
    (hi : ts[i]? = some x) :
    y ∈ ts.set i y := by
  obtain ⟨hlt, -⟩ := List.getElem?_eq_some_iff.mp hi
  exact List.mem_set hlt y

/-- What one worker does, going on from `x` to `y`. -/
theorem Steady.worker (hs : Steady s) (hi : s.workers[i]? = some x)
    (hworkers : s'.workers = s.workers.set i y)
    (hsame : (s'.callers, s'.keepalive, s'.owner)
      = (s.callers, s.keepalive, s.owner))
    (halive : s'.numThreadsAlive + x.alive.toNat = s.numThreadsAlive + y.alive.toNat)
    (hworking : s'.numThreadsWorking + x.counted.toNat
      = s.numThreadsWorking + y.counted.toNat)
    (hrwmutex : s'.queue.rwmutex.toNat + x.locks.toNat = s.queue.rwmutex.toNat
      + y.locks.toNat)
    (hthcount : s'.thcountLock.toNat + (x == .leaving).toNat
      = s.thcountLock.toNat + (y == .leaving).toNat)
    (hsignalled : s'.queue.hasJobs = 1 →
      y = .waiting ∨ s.queue.hasJobs = 1 ∧ x ≠ .waiting ∧ y ≠ .asleep)
    (hwoken : s.keepalive = true → s'.queue.len ≠ 0 →
      s'.queue.hasJobs = 1 ∨ y.seeks = true ∨
      s.queue.len ≠ 0 ∧ (s.queue.hasJobs = 1 → s'.queue.hasJobs = 1) ∧
      x.seeks = false)
    (hloop : s.keepalive = true → y.ended = false) (hborn : y ≠ .starting)
    (hlate : y.alive = true → x.alive = true ∨ x = .starting) : Steady s' := by
  obtain ⟨hcallers, hkeep, howner⟩ : s'.callers = s.callers ∧
      s'.keepalive = s.keepalive ∧
      s'.owner = s.owner := by
    simpa using hsame
  have hcount := fun p : Worker → Bool => countP_set_toNat (p := p) (y := y) hi
  rw [← hworkers] at hcount
  constructor
  · have h := hcount Worker.alive
    have := hs.alive
    omega
  · have h := hcount Worker.counted
    have := hs.working
    omega
  · have h := hcount Worker.locks
    have := hs.rwmutex
    rw [hcallers]
    omega
  · have h := hcount (· == .leaving)
    have := hs.thcount
    omega
  · intro hone hasleep
    rw [hworkers] at hasleep ⊢
    rcases hsignalled hone with rfl | ⟨hflag, hx, hy⟩
    · exact mem_set_self hi
    · refine mem_set_of_ne hi (hs.signalled hflag ?_) (Ne.symm hx)
      rcases List.mem_or_eq_of_mem_set hasleep with hmem | heq
      · exact hmem
      · exact absurd heq.symm hy
  · intro hk hlen
    rw [hkeep] at hk
    rcases hwoken hk hlen with hone | hy | ⟨hlen', hflag, hx⟩
    · exact Or.inl hone
    · refine Or.inr (Or.inl ?_)
      rw [hworkers]
      exact List.countP_pos_iff.mpr ⟨y, mem_set_self hi, hy⟩
    · rw [hcallers]
      have h := hcount Worker.seeks
      rw [hx] at h
      rcases hs.woken hk hlen' with hone | hseeks | hpost
      · exact Or.inl (hflag hone)
      · exact Or.inr (Or.inl (by simp at h; omega))
      · exact Or.inr (Or.inr hpost)
  · rw [hkeep, howner]
    exact hs.keepalive
  · intro hk
    rw [hkeep] at hk
    have h := hcount Worker.ended
    have := hs.loop hk
    rw [hloop hk] at h
    simp at h
    omega
  · intro ho hmem
    rw [howner] at ho
    rw [hworkers] at hmem
    rcases List.mem_or_eq_of_mem_set hmem with hmem | heq
    · exact hs.born ho hmem
    · exact hborn heq.symm
  · rw [hkeep, hcallers]
    exact hs.closed
  · intro ho
    rw [howner] at ho
    have hzero := hs.late ho
    have h := hcount Worker.alive
    cases hy : y.alive with
    | false =>
        rw [hy] at h
        simp at h
        omega
    | true =>
        rcases hlate hy with hx | rfl
        · exact absurd (countP_pos_of_get hi hx) (by omega)
        · refine absurd (List.mem_of_getElem? hi) (hs.born fun hc => ?_)
          rw [hc] at ho
          cases ho
  · intro n hn
    rw [howner] at hn
    rw [hworkers, List.length_set]
    exact hs.total n hn

/-- What one caller does, going on from `c` to `d`. -/
theorem Steady.caller (hs : Steady s) {c d : Caller} (hk : s.callers[k]? = some c)
    (hcallers : s'.callers = s.callers.set k d)
    (hsame : (s'.workers, s'.numThreadsAlive, s'.numThreadsWorking, s'.thcountLock,
      s'.keepalive, s'.owner) =
      (s.workers, s.numThreadsAlive, s.numThreadsWorking, s.thcountLock,
        s.keepalive, s.owner))
    (hrwmutex : s'.queue.rwmutex.toNat + c.locks.toNat = s.queue.rwmutex.toNat
      + d.locks.toNat)
    (hflag : s'.queue.hasJobs = s.queue.hasJobs)
    (hwoken : s'.queue.len ≠ 0 → s.queue.hasJobs = 1 ∨ d = .posting ∨ s.queue.len ≠ 0
      ∧ c ≠ .posting)
    (hinside : c ≠ .out ∨ s.owner = .serving) : Steady s' := by
  obtain ⟨hworkers, halive, hworking, hth, hkeep, howner⟩ : s'.workers = s.workers ∧
      s'.numThreadsAlive = s.numThreadsAlive ∧
      s'.numThreadsWorking = s.numThreadsWorking ∧
      s'.thcountLock = s.thcountLock ∧ s'.keepalive = s.keepalive ∧
      s'.owner = s.owner := by
    simpa using hsame
  constructor
  · rw [halive, hworkers]
    exact hs.alive
  · rw [hworking, hworkers]
    exact hs.working
  · have h := countP_set_toNat (p := Caller.locks) (y := d) hk
    have := hs.rwmutex
    rw [hworkers, hcallers]
    omega
  · rw [hworkers, hth]
    exact hs.thcount
  · rw [hflag, hworkers]
    exact hs.signalled
  · intro hk' hlen
    rw [hkeep] at hk'
    rw [hflag, hworkers, hcallers]
    rcases hwoken hlen with hone | rfl | ⟨hlen', hc⟩
    · exact Or.inl hone
    · exact Or.inr (Or.inr (mem_set_self hk))
    · exact (hs.woken hk' hlen').imp_right (Or.imp_right fun hpost =>
        mem_set_of_ne hk hpost (Ne.symm hc))
  · rw [hkeep, howner]
    exact hs.keepalive
  · rw [hkeep, hworkers]
    exact hs.loop
  · rw [howner, hworkers]
    exact hs.born
  · intro hk'
    rw [hkeep] at hk'
    have hout := hs.closed hk' c (List.mem_of_getElem? hk)
    rcases hinside with hc | hserving
    · exact absurd hout hc
    · have htrue := hs.keepalive.mpr (by rw [hserving]; rfl)
      rw [hk'] at htrue
      cases htrue
  · rw [howner, hworkers]
    exact hs.late
  · rw [howner, hworkers]
    exact hs.total

/-- Whoever raises the flag wakes a thread that sleeps, if there is one. -/
theorem Steady.raise (hs : Steady s)
    (hcount : ∀ p : Worker → Bool, p .waiting = p .asleep →
      ws.countP p = s.workers.countP p)
    (hlen : ws.length = s.workers.length) (hwoken : .asleep ∈ ws → .waiting ∈ ws) :
    Steady { s with workers := ws, queue := { s.queue with hasJobs := 1 } } := by
  constructor
  · exact hs.alive.trans (congrArg _ (hcount Worker.alive rfl).symm)
  · exact hs.working.trans (congrArg _ (hcount Worker.counted rfl).symm)
  · show ws.countP Worker.locks + s.callers.countP Caller.locks
        = s.queue.rwmutex.toNat
    rw [hcount Worker.locks rfl]
    exact hs.rwmutex
  · exact (hcount (· == .leaving) rfl).trans hs.thcount
  · exact fun _ => hwoken
  · exact fun _ _ => Or.inl rfl
  · exact hs.keepalive
  · exact fun hk => (hcount Worker.ended rfl).trans (hs.loop hk)
  · intro ho hmem
    have hpos : 0 < ws.countP (· == .starting) :=
      List.countP_pos_iff.mpr ⟨_, hmem, rfl⟩
    rw [hcount (· == .starting) rfl] at hpos
    obtain ⟨w, hw, heq⟩ := List.countP_pos_iff.mp hpos
    exact hs.born ho (beq_iff_eq.mp heq ▸ hw)
  · exact hs.closed
  · exact fun ho => (hcount Worker.alive rfl).trans (hs.late ho)
  · exact fun n hn => (hs.total n hn).trans (congrArg _ hlen.symm)

theorem Steady.signal (hs : Steady s) (h : Signal s.workers ws) :
    Steady { s with workers := ws, queue := { s.queue with hasJobs := 1 } } := by
  refine hs.raise (fun p hp => h.countP hp) ?_ fun hasleep => ?_
  · cases h with
    | one _ => exact List.length_set
    | nobody _ => rfl
  · generalize s.workers = us at h
    cases h with
    | one hj => exact mem_set_self hj
    | nobody hnone => exact absurd hasleep hnone

theorem Steady.broadcast (hs : Steady s) :
    Steady { s with workers := broadcast s.workers, queue := { s.queue with
      hasJobs := 1 } } := by
  refine hs.raise (fun p hp => countP_broadcast _ hp) (List.length_map _)
    fun hasleep => ?_
  obtain ⟨w, -, hw⟩ := List.mem_map.mp hasleep
  cases w <;> cases hw

/-! ## The owner -/

/-- While the pool serves, every worker has been counted and none has left. -/
theorem Steady.all_alive (hs : Steady s) (ho : s.owner = .serving) :
    s.workers.countP Worker.alive = s.workers.length := by
  refine List.countP_eq_length.mpr fun w hw => ?_
  have hborn := hs.born (by rw [ho]; nofun)
  have hloop :=
    List.countP_eq_zero.mp (hs.loop (hs.keepalive.mpr (by rw [ho]; rfl))) w hw
  cases w with
  | starting => exact absurd hw hborn
  | leaving => exact absurd rfl hloop
  | gone => exact absurd rfl hloop
  | _ => rfl

theorem Steady.created (hs : Steady s) (ho : s.owner = .creating)
    (hall : s.numThreadsAlive = s.workers.length) :
    Steady { s with owner := .serving } := by
  have hcount : s.workers.countP Worker.alive = s.workers.length := by
    have := hs.alive
    omega
  have hkeep := hs.keepalive.mpr (by rw [ho]; rfl)
  refine ⟨hs.alive, hs.working, hs.rwmutex, hs.thcount, hs.signalled, hs.woken,
    iff_of_true hkeep rfl, hs.loop, fun _ hmem => ?_, hs.closed, nofun, nofun⟩
  exact absurd (List.countP_eq_length.mp hcount _ hmem) (by decide)

theorem Steady.destroy (hs : Steady s) (ho : s.owner = .serving)
    (hout : ∀ c ∈ s.callers, c = .out) :
    Steady { s with owner := .polling s.numThreadsAlive, keepalive := false } := by
  refine ⟨hs.alive, hs.working, hs.rwmutex, hs.thcount, hs.signalled, nofun,
    iff_of_false nofun nofun, nofun, fun _ => hs.born (by rw [ho]; nofun),
    fun _ => hout, nofun, fun n hn => ?_⟩
  cases hn
  rw [hs.alive, hs.all_alive ho]

/-- The owner goes on in `thpool_destroy`. -/
theorem Steady.owner (hs : Steady s) {o : Owner} (hcreating : s.owner ≠ .creating)
    {n : Int} (hold : s.owner.total = some n) (hnew : o.total = some n)
    (hlate : o.late = true → s.workers.countP Worker.alive = 0) :
    Steady { s with owner := o } := by
  have hkeep : s.keepalive ≠ true := fun hk => by
    rw [hs.keepalive.mp hk] at hold
    cases hold
  refine ⟨hs.alive, hs.working, hs.rwmutex, hs.thcount, hs.signalled, hs.woken,
    iff_of_false hkeep (by rw [hnew]; nofun), hs.loop, fun _ => hs.born hcreating,
    hs.closed, hlate, fun k hk => ?_⟩
  rw [hnew] at hk
  cases hk
  exact hs.total n hold

/-- Once the pool is being destroyed, what is in the queue does not matter. -/
theorem Steady.queue (hs : Steady s) (jobs : Heap Job) {q : JobQueue}
    (hkeep : s.keepalive = false) (hrwmutex : q.rwmutex = s.queue.rwmutex)
    (hflag : q.hasJobs = 1 → s.queue.hasJobs = 1) :
    Steady { s with jobs := jobs, queue := q } := by
  refine ⟨hs.alive, hs.working, ?_, hs.thcount,
    fun hone => hs.signalled (hflag hone), fun hk => ?_, hs.keepalive, hs.loop,
    hs.born, hs.closed, hs.late, hs.total⟩
  · show _ = q.rwmutex.toNat
    rw [hrwmutex]
    exact hs.rwmutex
  · rw [hkeep] at hk
    cases hk

theorem Steady.not_keepalive (hs : Steady s) {n : Int}
    (ho : s.owner.total = some n) :
    s.keepalive = false := by
  cases hk : s.keepalive with
  | false => rfl
  | true =>
      rw [hs.keepalive.mp hk] at ho
      cases ho

/-- A worker that holds `rwmutex` has locked it, and so has a caller. -/
theorem Steady.locked (hs : Steady s)
    (h : 0 < s.workers.countP Worker.locks + s.callers.countP Caller.locks) :
    s.queue.rwmutex = true := by
  have hcount := hs.rwmutex
  cases hq : s.queue.rwmutex with
  | true => rfl
  | false =>
      rw [hq, Bool.toNat_false] at hcount
      omega

theorem Steady.thcount_locked (hs : Steady s) (hi : s.workers[i]? = some .leaving) :
    s.thcountLock = true := by
  have hcount := hs.thcount
  have hpos : 0 < s.workers.countP (· == .leaving) := countP_pos_of_get hi rfl
  cases hq : s.thcountLock with
  | true => rfl
  | false =>
      rw [hq, Bool.toNat_false] at hcount
      omega

theorem Steady.not_keepalive_of_ended (hs : Steady s) (hi : s.workers[i]? = some x)
    (hx : x.ended = true) :
    s.keepalive ≠ true := fun hk => by
  have hpos := countP_pos_of_get hi hx
  rw [hs.loop hk] at hpos
  cases hpos

/-! ## Every step -/

/-- A worker goes on and changes nothing that the others see but, perhaps, a counter
or a lock. -/
theorem Steady.worker_quiet (hs : Steady s) (hi : s.workers[i]? = some x)
    (hworkers : s'.workers = s.workers.set i y)
    (hsame : (s'.callers, s'.keepalive, s'.owner)
      = (s.callers, s.keepalive, s.owner))
    (hqueue : (s'.queue.len, s'.queue.hasJobs) = (s.queue.len, s.queue.hasJobs))
    (halive : s'.numThreadsAlive + x.alive.toNat = s.numThreadsAlive + y.alive.toNat)
    (hworking : s'.numThreadsWorking + x.counted.toNat
      = s.numThreadsWorking + y.counted.toNat)
    (hrwmutex : s'.queue.rwmutex.toNat + x.locks.toNat = s.queue.rwmutex.toNat
      + y.locks.toNat)
    (hthcount : s'.thcountLock.toNat + (x == .leaving).toNat
      = s.thcountLock.toNat + (y == .leaving).toNat)
    (hx : x ≠ .waiting) (hy : y ≠ .asleep) (hseeks : x.seeks = true → y.seeks = true)
    (hloop : s.keepalive = true → y.ended = false) (hborn : y ≠ .starting)
    (hlate : y.alive = true → x.alive = true ∨ x = .starting) : Steady s' := by
  obtain ⟨hlen, hflag⟩ : s'.queue.len = s.queue.len ∧
      s'.queue.hasJobs = s.queue.hasJobs := by
    simpa using hqueue
  refine hs.worker hi hworkers hsame halive hworking hrwmutex hthcount
    (fun hone => Or.inr ⟨?_, hx, hy⟩)
    (fun _ hne => ?_) hloop hborn hlate
  · rwa [hflag] at hone
  · rw [hlen] at hne
    cases hxs : x.seeks with
    | true => exact Or.inr (Or.inl (hseeks hxs))
    | false => exact Or.inr (Or.inr ⟨hne, fun hone => hflag.trans hone, rfl⟩)

theorem Steady.step {e : Action} (hs : Steady s) (h : Step s e s') : Steady s' := by
  cases h with
  | start hi _ =>
      exact hs.worker_quiet hi rfl rfl rfl (by simp [Worker.alive]) rfl rfl rfl nofun
        nofun nofun
        (fun _ => rfl) nofun fun _ => Or.inr rfl
  | @test i hi =>
      by_cases hk : s.keepalive = true
      · exact hs.worker_quiet (y := .waiting) hi (by rw [if_pos hk]) rfl rfl rfl rfl
          rfl rfl nofun nofun nofun
          (fun _ => rfl) nofun fun _ => Or.inl rfl
      · exact hs.worker_quiet (y := .ending) hi (by rw [if_neg hk]) rfl rfl rfl rfl
          rfl rfl nofun nofun nofun
          (fun hk' => absurd hk' hk) nofun fun _ => Or.inl rfl
  | pass hi _ =>
      exact hs.worker hi rfl rfl rfl rfl rfl rfl nofun
        (fun _ _ => Or.inr (Or.inl rfl)) (fun _ => rfl) nofun
        fun _ => Or.inl rfl
  | sleep hi hflag =>
      exact hs.worker hi rfl rfl rfl rfl rfl rfl (fun hone => absurd hone hflag)
        (fun _ hlen => Or.inr (Or.inr ⟨hlen, id, rfl⟩)) (fun _ => rfl) nofun fun _ =>
          Or.inl rfl
  | wake hi =>
      exact hs.worker hi rfl rfl rfl rfl rfl rfl (fun _ => Or.inl rfl)
        (fun _ hlen => Or.inr (Or.inr ⟨hlen, id, rfl⟩)) (fun _ => rfl) nofun fun _ =>
          Or.inl rfl
  | @again i hi =>
      by_cases hk : s.keepalive = true
      · exact hs.worker_quiet (y := .counting) hi (by rw [if_pos hk]) rfl rfl rfl rfl
          rfl rfl nofun nofun
          (fun _ => rfl) (fun _ => rfl) nofun fun _ => Or.inl rfl
      · exact hs.worker (y := .testing) hi (by rw [if_neg hk]) rfl rfl rfl rfl rfl
          (fun hone => Or.inr ⟨hone, nofun, nofun⟩) (fun hk' => absurd hk' hk)
          (fun _ => rfl) nofun
          fun _ => Or.inl rfl
  | count hi _ =>
      exact hs.worker_quiet hi rfl rfl rfl rfl (by simp [Worker.counted]) rfl rfl
        nofun nofun (fun _ => rfl)
        (fun _ => rfl) nofun fun _ => Or.inl rfl
  | @pull i job q more hi hfree hpull =>
      obtain ⟨-, hflag, hlen⟩ := jobqueuePull_rest hpull
      have hsignalled : q.hasJobs = 1 → s.queue.hasJobs = 1 :=
        fun hone => hflag ▸ hone
      cases more with
      | true =>
          exact hs.worker (y := .posting job) hi rfl rfl rfl rfl
            (by simp [hfree, Worker.locks]) rfl
            (fun hone => Or.inr ⟨hsignalled hone, nofun, nofun⟩)
            (fun _ _ => Or.inr (Or.inl rfl)) (fun _ => rfl)
            nofun fun _ => Or.inl rfl
      | false =>
          exact hs.worker (y := .unlocking job) hi rfl rfl rfl rfl
            (by simp [hfree, Worker.locks]) rfl
            (fun hone => Or.inr ⟨hsignalled hone, nofun, nofun⟩)
            (fun _ hne => absurd (hlen rfl) hne)
            (fun _ => rfl) nofun fun _ => Or.inl rfl
  | post hi hsignal =>
      exact (hs.signal hsignal).worker (hsignal.get hi nofun) rfl rfl rfl rfl rfl rfl
        (fun hone => Or.inr ⟨hone, nofun, nofun⟩) (fun _ _ => Or.inl rfl)
        (fun _ => rfl) nofun
        fun _ => Or.inl rfl
  | unlock hi =>
      have hlocked := hs.locked (Nat.add_pos_left (countP_pos_of_get hi rfl) _)
      exact hs.worker_quiet hi rfl rfl rfl rfl rfl (by simp [hlocked, Worker.locks])
        rfl nofun nofun nofun
        (fun _ => rfl) nofun fun _ => Or.inl rfl
  | skip hi =>
      exact hs.worker_quiet hi rfl rfl rfl rfl rfl rfl rfl nofun nofun nofun
        (fun _ => rfl) nofun
        fun _ => Or.inl rfl
  | call hi _ =>
      exact hs.worker_quiet hi rfl rfl rfl rfl rfl rfl rfl nofun nofun nofun
        (fun _ => rfl) nofun
        fun _ => Or.inl rfl
  | finish hi _ =>
      exact hs.worker_quiet hi rfl rfl rfl rfl rfl rfl rfl nofun nofun nofun
        (fun _ => rfl) nofun
        fun _ => Or.inl rfl
  | uncount hi _ =>
      exact hs.worker_quiet hi rfl rfl rfl rfl (by simp [Worker.counted]) rfl rfl
        nofun nofun nofun
        (fun _ => rfl) nofun fun _ => Or.inl rfl
  | finale hi hfree =>
      exact hs.worker_quiet hi rfl rfl rfl (by simp [Worker.alive]) rfl rfl
        (by simp [hfree]) nofun nofun nofun
        (fun hk => absurd hk (hs.not_keepalive_of_ended hi rfl)) nofun nofun
  | leave hi _ =>
      have hlocked := hs.thcount_locked hi
      exact hs.worker_quiet hi rfl rfl rfl rfl rfl rfl (by simp [hlocked]) nofun
        nofun nofun
        (fun hk => absurd hk (hs.not_keepalive_of_ended hi rfl)) nofun nofun
  | add hk ho _ =>
      exact hs.caller hk rfl rfl rfl rfl (fun hlen => Or.inr (Or.inr ⟨hlen, nofun⟩))
        (Or.inr ho)
  | refuse _ _ _ =>
      exact ⟨hs.alive, hs.working, hs.rwmutex, hs.thcount, hs.signalled, hs.woken,
        hs.keepalive, hs.loop, hs.born, hs.closed, hs.late, hs.total⟩
  | push hk hfree hpush =>
      obtain ⟨-, hflag, -⟩ := jobqueuePush_rest hpush
      exact hs.caller hk rfl rfl (by simp [hfree, Caller.locks]) hflag
        (fun _ => Or.inr (Or.inl rfl))
        (Or.inl nofun)
  | callerPost hk hsignal =>
      exact (hs.signal hsignal).caller hk rfl rfl rfl rfl (fun _ => Or.inl rfl)
        (Or.inl nofun)
  | callerUnlock hk =>
      have hlocked := hs.locked (Nat.add_pos_right _ (countP_pos_of_get hk rfl))
      exact hs.caller hk rfl rfl (by simp [hlocked, Caller.locks]) rfl
        (fun hlen => Or.inr (Or.inr ⟨hlen, nofun⟩)) (Or.inl nofun)
  | created ho hall => exact hs.created ho hall
  | destroy ho hout => exact hs.destroy ho hout
  | @poll n ho =>
      by_cases hzero : s.numThreadsAlive = 0
      · rw [if_pos hzero]
        refine hs.owner (by rw [ho]; nofun) (by rw [ho]; rfl) rfl fun _ => ?_
        have := hs.alive
        omega
      · rw [if_neg hzero]
        exact hs.owner (by rw [ho]; nofun) (by rw [ho]; rfl) rfl nofun
  | broadcast ho =>
      exact hs.broadcast.owner (by simp [ho]) (by rw [ho]; rfl) rfl nofun
  | @clear n job q more jobs ws ho _ hpull _ hws =>
      obtain ⟨hrwmutex, hflag, -⟩ := jobqueuePull_rest hpull
      have hkeep := hs.not_keepalive (n := n) (by rw [ho]; rfl)
      cases more with
      | true => exact (hs.signal hws).queue jobs hkeep hrwmutex fun _ => rfl
      | false =>
          have heq : ws = s.workers := hws
          subst heq
          exact hs.queue jobs hkeep hrwmutex fun hone => hflag ▸ hone
  | cleared ho _ =>
      have hzero := hs.late (by rw [ho]; rfl)
      have hkeep := hs.not_keepalive (by rw [ho]; rfl)
      exact (hs.queue s.jobs
        (q := { s.queue with front := none, rear := none, hasJobs := 0, len := 0 })
        hkeep rfl nofun).owner (by rw [ho]; nofun) (by rw [ho]; rfl) rfl fun _ =>
            hzero

theorem Steady.start (n m : Nat) : Steady (Pool.start n m) := by
  have hnone : ∀ p : Worker → Bool, p .starting = false →
      (List.replicate n Worker.starting).countP p = 0 :=
    fun p hp => List.countP_eq_zero.mpr fun w hw => by
      simp [List.eq_of_mem_replicate hw, hp]
  have hout : (List.replicate m Caller.out).countP Caller.locks = 0 :=
    List.countP_eq_zero.mpr fun c hc => by
      simp [List.eq_of_mem_replicate hc, Caller.locks]
  constructor
  · exact congrArg _ (hnone _ rfl).symm
  · exact congrArg _ (hnone _ rfl).symm
  · show (List.replicate n Worker.starting).countP _
        + (List.replicate m Caller.out).countP _ = 0
    rw [hnone _ rfl, hout]
  · exact hnone _ rfl
  · exact nofun
  · exact fun _ hlen => absurd rfl hlen
  · exact iff_of_true rfl rfl
  · exact fun _ => hnone _ rfl
  · exact fun ho => absurd rfl ho
  · exact nofun
  · exact nofun
  · exact nofun

/-- Between any two steps of a run the pool is steady. -/
theorem run_steady {n m : Nat} {es : List Action}
    (h : Trace Step (Pool.start n m) es s) : Steady s :=
  h.inv Steady (fun _ _ _ hs hstep => hs.step hstep) (Steady.start n m)

end Thpool

end Pyramid
