/-
# `Pyramid.Thpool.Tasks` — the pool serves its tasks first come first served

`Refines s t`: the pool `s` is where the service `t` is.  The jobs of the queue
are the tasks that wait, in order; the jobs that workers have pulled, or are
in the function of, are the tasks taken or running; and every record of a job
is in one of these places only, or with a caller that is about to push it.

Every step of a thread is at most one step of the service
(`step_simulates`), so what is seen of a run is a trace of the service.
-/
import Pyramid.Thpool.Queue

namespace Pyramid

namespace Thpool

/-! ## Who has a job -/

/-- The worker has pulled the job `a` and not begun it. -/
def Worker.takes (a : Nat) : Worker → Bool
  | .posting job => job == some a
  | .unlocking job => job == some a
  | .pulled job => job == some a
  | _ => false

def Worker.runs (a : Nat) : Worker → Bool
  | .running b => b == a
  | _ => false

def Caller.adds (a : Nat) : Caller → Bool
  | .adding b => b == a
  | _ => false

@[simp] theorem takes_unlocking {a : Nat} {job : Ptr} :
    (Worker.unlocking job).takes a = true ↔ job = some a :=
  beq_iff_eq

@[simp] theorem takes_pulled {a : Nat} {job : Ptr} :
    (Worker.pulled job).takes a = true ↔ job = some a :=
  beq_iff_eq

@[simp] theorem runs_running {a b : Nat} :
    (Worker.running b).runs a = true ↔ b = a := beq_iff_eq

@[simp] theorem adds_adding {a b : Nat} : (Caller.adding b).adds a = true ↔ b = a :=
  beq_iff_eq

/-- How often the job `a` is with a thread or in the queue. -/
def Pool.places (s : Pool) (waiting : List Nat) (a : Nat) : Nat :=
  waiting.count a + s.workers.countP (Worker.takes a)
    + s.workers.countP (Worker.runs a) +
    s.callers.countP (Caller.adds a)

structure Refines (s : Pool) (t : Service Task) : Prop where
  fifo : Fifo s.jobs Job.prev s.queue.front s.queue.rear (t.waiting.map Task.job)
  len : s.queue.len = t.waiting.length
  bound : s.queue.len ≤ intMax
  taken : ∀ a, s.workers.countP (Worker.takes a) = (t.taken.map Task.job).count a
  running : ∀ a, s.workers.countP (Worker.runs a) = (t.running.map Task.job).count a
  owned : ∀ a, (if s.jobs.cell a = none then 0 else 1)
    = s.places (t.waiting.map Task.job) a
  task : ∀ x, x ∈ t.waiting ∨ x ∈ t.taken ∨ x ∈ t.running → task s.jobs x.job = x

/-- The service follows a step to `s'` of which `e` is seen. -/
def Follows (e : Action) (s' : Pool) (t : Service Task) : Prop :=
  ∃ t', Refines s' t' ∧ ((e.view = none ∧ t' = t) ∨ ∃ a, e.view = some a ∧
    Service.Step t a t')

/-! ## Signals -/

variable {s s' : Pool} {t : Service Task} {ws : List Worker} {p : Worker → Bool}
  {i k : Nat} {x y : Worker}

/-- Who is woken is only seen by those that tell a thread
asleep from one that waits. -/
theorem Signal.countP (h : Signal s.workers ws) (hp : p .waiting = p .asleep) :
    ws.countP p = s.workers.countP p := by
  cases h with
  | one hj => exact countP_set_same hj hp
  | nobody _ => rfl

theorem Signal.get (h : Signal s.workers ws) (hi : s.workers[i]? = some x)
    (hx : x ≠ .asleep) :
    ws[i]? = some x := by
  generalize s.workers = us at h hi
  cases h with
  | @one j hj =>
      have hne : j ≠ i := by
        rintro rfl
        exact hx (Option.some.inj (hi.symm.trans hj))
      rw [List.getElem?_set_ne hne, hi]
  | nobody _ => exact hi

/-- The thread that signals goes on itself. -/
theorem Signal.countP_set (h : Signal s.workers ws) (hi : s.workers[i]? = some x)
    (hx : x ≠ .asleep) (hp : p .waiting = p .asleep) (hxy : p y = p x) :
    (ws.set i y).countP p = s.workers.countP p :=
  (countP_set_same (h.get hi hx) hxy).trans (h.countP hp)

theorem countP_broadcast (us : List Worker) (hp : p .waiting = p .asleep) :
    (broadcast us).countP p = us.countP p := by
  rw [broadcast, List.countP_map]
  congr 1
  funext w
  cases w <;> simp [hp]

theorem Follows.unseen {e : Action} (he : e.view = none) (hR : Refines s' t) :
    Follows e s' t :=
  ⟨t, hR, Or.inl ⟨he, rfl⟩⟩

theorem Follows.seen {a : Act Task} {t' : Service Task} (h : Service.Step t a t')
    (hR : Refines s' t') :
    Follows (.seen a) s' t :=
  ⟨t', hR, Or.inr ⟨a, rfl, h⟩⟩

/-! ## Steps that no task sees -/

theorem Refines.frame (hR : Refines s t) (hjobs : s'.jobs = s.jobs)
    (hqueue : (s'.queue.front, s'.queue.rear, s'.queue.len)
      = (s.queue.front, s.queue.rear, s.queue.len))
    (htakes : ∀ a, s'.workers.countP (Worker.takes a)
      = s.workers.countP (Worker.takes a))
    (hruns : ∀ a, s'.workers.countP (Worker.runs a)
      = s.workers.countP (Worker.runs a))
    (hadds : ∀ a, s'.callers.countP (Caller.adds a)
      = s.callers.countP (Caller.adds a)) : Refines s' t := by
  obtain ⟨hfront, hrear, hlen⟩ : s'.queue.front = s.queue.front ∧
      s'.queue.rear = s.queue.rear ∧
      s'.queue.len = s.queue.len := by
    simpa using hqueue
  constructor
  · rw [hjobs, hfront, hrear]
    exact hR.fifo
  · rw [hlen, hR.len]
  · rw [hlen]
    exact hR.bound
  · exact fun a => (htakes a).trans (hR.taken a)
  · exact fun a => (hruns a).trans (hR.running a)
  · intro a
    rw [hjobs, hR.owned a, Pool.places, Pool.places, htakes, hruns, hadds]
  · rw [hjobs]
    exact hR.task

/-- A worker goes on between two places in which it has the same job. -/
theorem Refines.worker (hR : Refines s t) (hi : s.workers[i]? = some x)
    (hjobs : s'.jobs = s.jobs)
    (hqueue : (s'.queue.front, s'.queue.rear, s'.queue.len)
      = (s.queue.front, s.queue.rear, s.queue.len))
    (hcallers : s'.callers = s.callers) (hworkers : s'.workers = s.workers.set i y)
    (htakes : ∀ a, y.takes a = x.takes a) (hruns : ∀ a, y.runs a = x.runs a) :
    Refines s' t := by
  refine hR.frame hjobs hqueue (fun a => ?_) (fun a => ?_) fun a => by rw [hcallers]
  · rw [hworkers, countP_set_same hi (htakes a)]
  · rw [hworkers, countP_set_same hi (hruns a)]

/-! ## Steps of the service -/

/-- A task whose record is in a place is known to the service. -/
theorem Refines.of_takes (hR : Refines s t) {a : Nat} (hi : s.workers[i]? = some x)
    (hx : x.takes a = true) :
    ∃ rest, t.taken = Thpool.task s.jobs a ::ₘ rest := by
  have hpos : 0 < (t.taken.map Task.job).count a := by
    rw [← hR.taken a]
    exact countP_pos_of_get hi hx
  obtain ⟨y, hy, hya⟩ := Multiset.mem_map.mp (Multiset.count_pos.mp hpos)
  obtain ⟨rest, hrest⟩ := Multiset.exists_cons_of_mem hy
  refine ⟨rest, ?_⟩
  rw [hrest, ← hR.task y (Or.inr (Or.inl hy)), hya]

theorem Refines.of_runs (hR : Refines s t) {a : Nat} (hi : s.workers[i]? = some x)
    (hx : x.runs a = true) :
    ∃ rest, t.running = Thpool.task s.jobs a ::ₘ rest := by
  have hpos : 0 < (t.running.map Task.job).count a := by
    rw [← hR.running a]
    exact countP_pos_of_get hi hx
  obtain ⟨y, hy, hya⟩ := Multiset.mem_map.mp (Multiset.count_pos.mp hpos)
  obtain ⟨rest, hrest⟩ := Multiset.exists_cons_of_mem hy
  refine ⟨rest, ?_⟩
  rw [hrest, ← hR.task y (Or.inr (Or.inr hy)), hya]

/-- A job that is somewhere has a record. -/
theorem Refines.cell_of_places (hR : Refines s t) {a : Nat}
    (ha : 0 < s.places (t.waiting.map Task.job) a) : s.jobs.cell a ≠ none := by
  have howned := hR.owned a
  intro hnone
  rw [if_pos hnone] at howned
  omega

theorem count_cons_job (x : Task) (xs : Multiset Task) (a : Nat) :
    ((x ::ₘ xs).map Task.job).count a = (xs.map Task.job).count a + if x.job = a
      then 1 else 0 := by
  rw [Multiset.map_cons, Multiset.count_cons]
  by_cases hx : x.job = a
  · rw [if_pos hx, if_pos hx.symm]
  · rw [if_neg hx, if_neg (Ne.symm hx)]

theorem Refines.pull (hR : Refines s t) {job : Ptr} {q : JobQueue} {more : Bool}
    (hi : s.workers[i]? = some .pulling)
    (hpull : jobqueuePull s.jobs s.queue = .ok (job, q, more))
    (hworkers : s'.workers = s.workers.set i (if more then .posting job
      else .unlocking job))
    (hqueue : (s'.queue.front, s'.queue.rear, s'.queue.len)
      = (q.front, q.rear, q.len))
    (hjobs : s'.jobs = s.jobs) (hcallers : s'.callers = s.callers) :
    Follows (job.elim .internal fun a =>
      .seen (.take (Thpool.task s.jobs a))) s' t := by
  obtain ⟨q', more', hpull', hfifo, hlen, -, -⟩ := jobqueuePull_fifo hR.fifo
    (by rw [hR.len, List.length_map]) hR.bound
  cases hpull.symm.trans hpull'
  obtain ⟨hfront, hrear, hlen'⟩ : s'.queue.front = q.front ∧ s'.queue.rear = q.rear ∧
      s'.queue.len = q.len := by
    simpa using hqueue
  have hbound := hR.bound
  rw [hR.len] at hbound
  have hcount : ∀ (p : Worker → Bool), p .pulling = false →
      (∀ job, p (.posting job) = p (.unlocking job)) →
      s'.workers.countP p =
        s.workers.countP p + if p (.unlocking (t.waiting.map Task.job).head?) then 1
          else 0 := by
    intro p hp hsame
    rw [hworkers, countP_enter hi hp]
    cases more with
    | false => rfl
    | true => rw [if_pos rfl, hsame]
  have hruns : ∀ a, s'.workers.countP (Worker.runs a)
      = s.workers.countP (Worker.runs a) :=
    fun a => hcount (Worker.runs a) rfl fun _ => rfl
  have htakes := fun a => hcount (Worker.takes a) rfl fun _ => rfl
  have howned := hR.owned
  simp only [Pool.places] at howned
  obtain ⟨waiting, taken, running⟩ := t
  cases waiting with
  | nil =>
      refine Follows.unseen rfl ⟨?_, ?_, ?_, ?_, ?_, ?_, ?_⟩
      · rw [hjobs, hfront, hrear]
        exact hfifo
      · rw [hlen', hlen]
        rfl
      · rw [hlen', hlen]
        exact hbound
      · exact fun a => (htakes a).trans (hR.taken a)
      · exact fun a => (hruns a).trans (hR.running a)
      · intro a
        rw [hjobs, howned, Pool.places, hruns, htakes, hcallers]
        rfl
      · rw [hjobs]
        exact hR.task
  | cons x rest =>
      have hx : Thpool.task s.jobs x.job = x := hR.task x (Or.inl List.mem_cons_self)
      have htakes' : ∀ a, s'.workers.countP (Worker.takes a) =
          s.workers.countP (Worker.takes a) + if x.job = a then 1 else 0 := by
        intro a
        rw [htakes a]
        simp only [takes_unlocking, List.map_cons, List.head?_cons,
          Option.some.injEq]
      have hstep : Service.Step ⟨x :: rest, taken, running⟩
          (.take (Thpool.task s.jobs x.job))
          ⟨rest, x ::ₘ taken, running⟩ := by
        rw [hx]
        exact .take rfl
      refine Follows.seen hstep ⟨?_, ?_, ?_, ?_, ?_, ?_, ?_⟩
      · rw [hjobs, hfront, hrear]
        exact hfifo
      · rw [hlen', hlen, List.map_cons, List.tail_cons, List.length_map]
      · rw [hlen', hlen, List.map_cons, List.tail_cons, List.length_map]
        simp only [List.length_cons] at hbound
        omega
      · intro a
        rw [htakes', hR.taken, count_cons_job]
      · exact fun a => (hruns a).trans (hR.running a)
      · intro a
        rw [hjobs, howned, Pool.places, hruns, htakes', hcallers, List.map_cons,
          List.count_cons]
        simp only [beq_iff_eq]
        omega
      · rw [hjobs]
        rintro y (hy | hy | hy)
        · exact hR.task y (Or.inl (List.mem_cons_of_mem _ hy))
        · rcases Multiset.mem_cons.mp hy with rfl | hy
          · exact hx
          · exact hR.task y (Or.inr (Or.inl hy))
        · exact hR.task y (Or.inr (Or.inr hy))

theorem Refines.call (hR : Refines s t) {a : Nat}
    (hi : s.workers[i]? = some (.pulled (some a))) :
    Follows (.seen (.call (Thpool.task s.jobs a))) { s with
      workers := s.workers.set i (.running a) } t := by
  obtain ⟨rest, hrest⟩ := hR.of_takes hi (takes_pulled.mpr rfl)
  have htakes : ∀ b, (s.workers.set i (.running a)).countP (Worker.takes b)
      = (rest.map Task.job).count b := by
    intro b
    have hexit := countP_exit (p := Worker.takes b) (y := .running a) hi rfl
    simp only [hR.taken, hrest, count_cons_job, task_job, takes_pulled,
      Option.some.injEq] at hexit
    omega
  have hruns : ∀ b, (s.workers.set i (.running a)).countP (Worker.runs b) =
      s.workers.countP (Worker.runs b) + if a = b then 1 else 0 := by
    intro b
    rw [countP_enter hi rfl]
    simp only [runs_running]
  refine Follows.seen (.call hrest) ⟨hR.fifo, hR.len, hR.bound, htakes, ?_, ?_, ?_⟩
  · intro b
    rw [hruns, hR.running, count_cons_job, task_job]
  · intro b
    have howned := hR.owned b
    rw [Pool.places, hR.taken, hrest, count_cons_job, task_job] at howned
    simp only [Pool.places, hruns, htakes, howned]
    omega
  · rintro y (hy | hy | hy)
    · exact hR.task y (Or.inl hy)
    · exact hR.task y
        (Or.inr (Or.inl (by rw [hrest]; exact Multiset.mem_cons_of_mem hy)))
    · rcases Multiset.mem_cons.mp hy with rfl | hy
      · rw [task_job]
      · exact hR.task y (Or.inr (Or.inr hy))

theorem Refines.finish (hR : Refines s t) {a : Nat} {jobs : Heap Job}
    (hi : s.workers[i]? = some (.running a))
    (hfree : s.jobs.free (some a) = .ok jobs) :
    Follows (.seen (.finish (Thpool.task s.jobs a)))
      { s with workers := s.workers.set i .uncounting, jobs := jobs } t := by
  obtain ⟨rest, hrest⟩ := hR.of_runs hi (runs_running.mpr rfl)
  obtain ⟨j, hj, rfl⟩ := Heap.free_ok.mp hfree
  have hruns : ∀ b, (s.workers.set i .uncounting).countP (Worker.runs b)
      = (rest.map Task.job).count b := by
    intro b
    have hexit := countP_exit (p := Worker.runs b) (y := .uncounting) hi rfl
    simp only [hR.running, hrest, count_cons_job, task_job, runs_running] at hexit
    omega
  have htakes : ∀ b, (s.workers.set i .uncounting).countP (Worker.takes b)
      = s.workers.countP (Worker.takes b) :=
    fun b => countP_set_same hi rfl
  -- nobody else has the record
  have hown : s.places (t.waiting.map Task.job) a = 1 := by
    rw [← hR.owned a, if_neg (by simp [hj])]
  rw [Pool.places, hR.running, hrest, count_cons_job, task_job, if_pos rfl] at hown
  have hother : ∀ x : Task, x ∈ t.waiting ∨ x ∈ t.taken ∨ x ∈ rest → x.job ≠ a := by
    rintro x hx rfl
    rcases hx with hx | hx | hx
    · have := List.count_pos_iff.mpr (List.mem_map_of_mem (f := Task.job) hx)
      omega
    · have := Multiset.count_pos.mpr (Multiset.mem_map_of_mem Task.job hx)
      rw [← hR.taken] at this
      omega
    · have := Multiset.count_pos.mpr (Multiset.mem_map_of_mem Task.job hx)
      omega
  refine Follows.seen (.finish hrest) ⟨?_, hR.len, hR.bound, ?_, hruns, ?_, ?_⟩
  · refine hR.fifo.frame fun b hb => ?_
    obtain ⟨x, hx, rfl⟩ := List.mem_map.mp hb
    rw [Heap.cell_set_ne _ (hother x (Or.inl hx))]
  · exact fun b => (htakes b).trans (hR.taken b)
  · intro b
    have howned := hR.owned b
    rw [Pool.places, hR.running, hrest, count_cons_job, task_job] at howned
    simp only [Pool.places, hruns, htakes]
    by_cases hb : b = a
    · subst hb
      rw [Heap.cell_set_self hj, if_pos rfl]
      omega
    · rw [Heap.cell_set_ne _ hb, howned, if_neg (Ne.symm hb)]
      omega
  · intro x hx
    have hne := hother x hx
    have hsame : Thpool.task (s.jobs.set a none) x.job = Thpool.task s.jobs x.job :=
      task_congr (by rw [Heap.cell_set_ne _ hne])
    refine hsame.trans (hR.task x (hx.imp_right (Or.imp_right fun hx => ?_)))
    rw [hrest]
    exact Multiset.mem_cons_of_mem hx

theorem Refines.add (hR : Refines s t) {a function arg : Nat}
    {src : Nat → Option Job} {jobs : Heap Job} (hk : s.callers[k]? = some .out)
    (hnew : newJob s.jobs src function arg = .ok (some a, jobs)) :
    Refines { s with callers := s.callers.set k (.adding a), jobs := jobs } t := by
  obtain ⟨-, hfree, hcell, -, hother⟩ := newJob_some hnew
  -- what has a place has a record, and `a` had none
  have hne : ∀ x : Task, x ∈ t.waiting ∨ x ∈ t.taken ∨ x ∈ t.running →
      x.job ≠ a := by
    rintro x hx rfl
    have hnone := hR.owned x.job
    rw [if_pos hfree, Pool.places, hR.taken, hR.running] at hnone
    rcases hx with hx | hx | hx
    · have := List.count_pos_iff.mpr (List.mem_map_of_mem (f := Task.job) hx)
      omega
    · have := Multiset.count_pos.mpr (Multiset.mem_map_of_mem Task.job hx)
      omega
    · have := Multiset.count_pos.mpr (Multiset.mem_map_of_mem Task.job hx)
      omega
  refine ⟨?_, hR.len, hR.bound, hR.taken, hR.running, ?_, ?_⟩
  · refine hR.fifo.frame fun b hb => ?_
    obtain ⟨x, hx, rfl⟩ := List.mem_map.mp hb
    rw [hother _ (hne x (Or.inl hx))]
  · intro b
    have howned := hR.owned b
    have henter := countP_enter (p := Caller.adds b) (y := .adding a) hk rfl
    simp only [adds_adding] at henter
    simp only [Pool.places] at howned ⊢
    by_cases hb : b = a
    · subst hb
      rw [if_pos hfree] at howned
      rw [if_neg hcell]
      rw [if_pos rfl] at henter
      omega
    · rw [if_neg (Ne.symm hb)] at henter
      rw [hother b hb, howned]
      omega
  · intro x hx
    have hsame : Thpool.task jobs x.job = Thpool.task s.jobs x.job :=
      task_congr (by rw [hother _ (hne x hx)])
    exact hsame.trans (hR.task x hx)

theorem Refines.push (hR : Refines s t) {a : Nat} {jobs : Heap Job} {q : JobQueue}
    (hk : s.callers[k]? = some (.adding a))
    (hpush : jobqueuePush s.jobs s.queue (some a) = .ok (jobs, q)) :
    Follows (.seen (.submit (Thpool.task s.jobs a))) { s with
      callers := s.callers.set k .posting
      jobs := jobs
      queue := { q with rwmutex := true } } t := by
  have hadds : 0 < s.callers.countP (Caller.adds a) :=
    countP_pos_of_get hk (adds_adding.mpr rfl)
  have hcell : s.jobs.cell a ≠ none := hR.cell_of_places (by rw [Pool.places]; omega)
  have hplaces := hR.owned a
  rw [if_neg hcell, Pool.places] at hplaces
  have hfresh : a ∉ t.waiting.map Task.job := fun ha => by
    have := List.count_pos_iff.mpr ha
    omega
  have hroom := jobqueuePush_room hpush
  obtain ⟨jobs', q', hpush', hfifo, hlen, -, hwhat⟩ := jobqueuePush_fifo hR.fifo
    (by rw [hR.len, List.length_map]) hcell hfresh hroom
  cases hpush.symm.trans hpush'
  refine Follows.seen (.submit t _) ⟨?_, ?_, ?_, hR.taken, hR.running, ?_, ?_⟩
  · rw [List.map_append, List.map_cons, List.map_nil, task_job]
    exact hfifo
  · show q.len = _
    rw [hlen, hR.len, List.length_append, List.length_singleton]
    rfl
  · show q.len ≤ intMax
    have hbound := hR.bound
    omega
  · intro b
    have howned := hR.owned b
    have hexit := countP_exit (p := Caller.adds b) (y := .posting) hk rfl
    simp only [adds_adding] at hexit
    simp only [Pool.places, cell_none_congr (hwhat b), List.map_append,
      List.map_cons, List.map_nil, task_job, List.count_append, List.count_singleton,
      beq_iff_eq] at howned ⊢
    omega
  · intro x hx
    rw [task_congr (hwhat x.job)]
    rcases hx with hx | hx | hx
    · rcases List.mem_append.mp hx with hx | hx
      · exact hR.task x (Or.inl hx)
      · rw [List.mem_singleton.mp hx, task_job]
    · exact hR.task x (Or.inr (Or.inl hx))
    · exact hR.task x (Or.inr (Or.inr hx))

theorem Refines.clear (hR : Refines s t) {job : Ptr} {q : JobQueue} {more : Bool}
    {jobs : Heap Job} (hlen : s.queue.len ≠ 0)
    (hpull : jobqueuePull s.jobs s.queue = .ok (job, q, more))
    (hfree : s.jobs.free job = .ok jobs)
    (hws : if more then Signal s.workers ws else ws = s.workers)
    (hjobs : s'.jobs = jobs) (hworkers : s'.workers = ws)
    (hcallers : s'.callers = s.callers)
    (hqueue : (s'.queue.front, s'.queue.rear, s'.queue.len)
      = (q.front, q.rear, q.len)) :
    Follows (job.elim .destroy fun a =>
      .seen (.drop (Thpool.task s.jobs a))) s' t := by
  obtain ⟨q', more', hpull', hfifo, hlen', -, -⟩ := jobqueuePull_fifo hR.fifo
    (by rw [hR.len, List.length_map]) hR.bound
  cases hpull.symm.trans hpull'
  obtain ⟨hfront, hrear, hqlen⟩ : s'.queue.front = q.front ∧ s'.queue.rear = q.rear ∧
      s'.queue.len = q.len := by
    simpa using hqueue
  have hsame : ∀ p : Worker → Bool, p .waiting = p .asleep →
      s'.workers.countP p = s.workers.countP p := by
    intro p hp
    rw [hworkers]
    cases more with
    | true => exact Signal.countP hws hp
    | false => exact congrArg (List.countP p) hws
  have hbound := hR.bound
  have htask := hR.task
  have howned := hR.owned
  rw [hR.len] at hbound hlen
  simp only [Pool.places] at howned
  obtain ⟨waiting, taken, running⟩ := t
  cases waiting with
  | nil => exact absurd rfl hlen
  | cons x rest =>
      obtain ⟨j, hj, hset⟩ := Heap.free_ok.mp hfree
      have hx : Thpool.task s.jobs x.job = x := htask x (Or.inl List.mem_cons_self)
      have hown := howned x.job
      rw [if_neg (by simp [hj]), List.map_cons, List.count_cons_self] at hown
      have hother : ∀ y : Task, y ∈ rest ∨ y ∈ taken ∨ y ∈ running →
          y.job ≠ x.job := by
        rintro y hy heq
        rcases hy with hy | hy | hy
        · have := List.count_pos_iff.mpr (List.mem_map_of_mem (f := Task.job) hy)
          rw [heq] at this
          omega
        · have := Multiset.count_pos.mpr (Multiset.mem_map_of_mem Task.job hy)
          rw [heq, ← hR.taken] at this
          omega
        · have := Multiset.count_pos.mpr (Multiset.mem_map_of_mem Task.job hy)
          rw [heq, ← hR.running] at this
          omega
      have hstep : Service.Step ⟨x :: rest, taken, running⟩
          (.drop (Thpool.task s.jobs x.job))
          ⟨rest, taken, running⟩ := by
        rw [hx]
        exact .drop rfl
      refine Follows.seen hstep ⟨?_, ?_, ?_, ?_, ?_, ?_, ?_⟩
      · rw [hfront, hrear, hjobs, hset]
        refine hfifo.frame fun b hb => ?_
        obtain ⟨y, hy, rfl⟩ := List.mem_map.mp hb
        rw [Heap.cell_set_ne _ (hother y (Or.inl hy))]
      · rw [hqlen, hlen', List.map_cons, List.tail_cons, List.length_map]
      · rw [hqlen, hlen', List.map_cons, List.tail_cons, List.length_map]
        simp only [List.length_cons] at hbound
        omega
      · exact fun b => (hsame _ rfl).trans (hR.taken b)
      · exact fun b => (hsame _ rfl).trans (hR.running b)
      · intro b
        have hb := howned b
        simp only [Pool.places, hcallers, hsame (Worker.takes b) rfl,
          hsame (Worker.runs b) rfl, hjobs, hset]
        by_cases heq : b = x.job
        · subst heq
          rw [Heap.cell_set_self hj, if_pos rfl]
          omega
        · rw [Heap.cell_set_ne _ heq, hb, List.map_cons,
            List.count_cons_of_ne (Ne.symm heq)]
      · intro y hy
        have hkept : Thpool.task s'.jobs y.job = Thpool.task s.jobs y.job :=
          task_congr (by rw [hjobs, hset, Heap.cell_set_ne _ (hother y hy)])
        exact hkept.trans (htask y (hy.imp_left (List.mem_cons_of_mem _)))

/-- A request that is refused leaves no job behind. -/
theorem Refines.refuse (hR : Refines s t) {function arg : Nat}
    {src : Nat → Option Job} {jobs : Heap Job}
    (hnew : newJob s.jobs src function arg = .ok (none, jobs)) :
    Refines { s with jobs := jobs } t := by
  have hcell := (newJob_none hnew).2
  refine ⟨hR.fifo.frame fun b _ => by rw [hcell], hR.len, hR.bound, hR.taken,
    hR.running, fun b => ?_, fun x hx => ?_⟩
  · rw [hcell]
    exact hR.owned b
  · exact (task_congr (by rw [hcell])).trans (hR.task x hx)

theorem Refines.cleared (hR : Refines s t) {o : Owner} (hlen : s.queue.len = 0) :
    Refines { s with
      owner := o
      queue := { s.queue with front := none, rear := none, hasJobs := 0, len := 0 }
        } t := by
  have hnil : t.waiting = [] := by
    rw [hR.len] at hlen
    exact List.length_eq_zero_iff.mp (by omega)
  have hzero : (0 : Int) ≤ intMax := by decide
  refine ⟨?_, ?_, hzero, hR.taken, hR.running, hR.owned, hR.task⟩
  · rw [hnil]
    exact Fifo.empty _ _
  · rw [hnil]
    rfl

/-- **Refinement.** What a thread does is seen as one step of
the service, or as none. -/
theorem step_simulates : Simulates Step Service.Step Action.view Refines := by
  intro s e s' t hR h
  show Follows e s' t
  cases h with
  | start hi _ =>
      exact .unseen rfl (hR.worker hi rfl rfl rfl rfl (fun _ => rfl) fun _ => rfl)
  | test hi =>
      refine .unseen rfl (hR.worker hi rfl rfl rfl rfl (fun _ => ?_) fun _ => ?_)
      · split <;> rfl
      · split <;> rfl
  | pass hi _ =>
      exact .unseen rfl (hR.worker hi rfl rfl rfl rfl (fun _ => rfl) fun _ => rfl)
  | sleep hi _ =>
      exact .unseen rfl (hR.worker hi rfl rfl rfl rfl (fun _ => rfl) fun _ => rfl)
  | wake hi =>
      exact .unseen rfl (hR.worker hi rfl rfl rfl rfl (fun _ => rfl) fun _ => rfl)
  | again hi =>
      refine .unseen rfl (hR.worker hi rfl rfl rfl rfl (fun _ => ?_) fun _ => ?_)
      · split <;> rfl
      · split <;> rfl
  | count hi _ =>
      exact .unseen rfl (hR.worker hi rfl rfl rfl rfl (fun _ => rfl) fun _ => rfl)
  | pull hi _ hpull => exact hR.pull hi hpull rfl rfl rfl rfl
  | post hi hsignal =>
      exact .unseen rfl
        (hR.frame rfl rfl (fun _ => hsignal.countP_set hi nofun rfl rfl)
        (fun _ => hsignal.countP_set hi nofun rfl rfl) fun _ => rfl)
  | unlock hi =>
      exact .unseen rfl (hR.worker hi rfl rfl rfl rfl (fun _ => rfl) fun _ => rfl)
  | skip hi =>
      exact .unseen rfl (hR.worker hi rfl rfl rfl rfl (fun _ => rfl) fun _ => rfl)
  | call hi hload =>
      obtain ⟨b, hb, hj⟩ := Heap.load_ok.mp hload
      cases hb
      have hfollows := hR.call hi
      rwa [task_of_cell hj] at hfollows
  | finish hi hfree => exact hR.finish hi hfree
  | uncount hi _ =>
      exact .unseen rfl (hR.worker hi rfl rfl rfl rfl (fun _ => rfl) fun _ => rfl)
  | finale hi _ =>
      exact .unseen rfl (hR.worker hi rfl rfl rfl rfl (fun _ => rfl) fun _ => rfl)
  | leave hi _ =>
      exact .unseen rfl (hR.worker hi rfl rfl rfl rfl (fun _ => rfl) fun _ => rfl)
  | add hk _ hnew => exact .unseen rfl (hR.add hk hnew)
  | refuse hk _ hnew => exact .unseen rfl (hR.refuse hnew)
  | push hk _ hpush => exact hR.push hk hpush
  | callerPost hk hsignal =>
      exact .unseen rfl (hR.frame rfl rfl (fun a => hsignal.countP
        (p := Worker.takes a) rfl)
          (fun a => hsignal.countP (p := Worker.runs a) rfl) fun a =>
            countP_set_same hk rfl)
  | callerUnlock hk =>
      exact .unseen rfl (hR.frame rfl rfl (fun _ => rfl) (fun _ => rfl) fun a =>
        countP_set_same hk rfl)
  | created _ _ =>
      exact .unseen rfl (hR.frame rfl rfl (fun _ => rfl) (fun _ => rfl) fun _ => rfl)
  | destroy _ _ =>
      exact .unseen rfl (hR.frame rfl rfl (fun _ => rfl) (fun _ => rfl) fun _ => rfl)
  | poll _ =>
      exact .unseen rfl (hR.frame rfl rfl (fun _ => rfl) (fun _ => rfl) fun _ => rfl)
  | broadcast _ =>
      exact .unseen rfl (hR.frame rfl rfl (fun a => countP_broadcast _ rfl)
        (fun a => countP_broadcast _ rfl)
        fun _ => rfl)
  | clear _ hlen hpull hfree hws =>
      exact hR.clear hlen hpull hfree hws rfl rfl rfl rfl
  | cleared _ hlen => exact .unseen rfl (hR.cleared hlen)

theorem Refines.start (n m : Nat) : Refines (Pool.start n m) Service.idle := by
  have hnone : ∀ p : Worker → Bool, p .starting = false →
      (List.replicate n Worker.starting).countP p = 0 :=
    fun p hp => List.countP_eq_zero.mpr fun w hw => by
      simp [List.eq_of_mem_replicate hw, hp]
  have hout : ∀ p : Caller → Bool, p .out = false →
      (List.replicate m Caller.out).countP p = 0 :=
    fun p hp => List.countP_eq_zero.mpr fun w hw => by
      simp [List.eq_of_mem_replicate hw, hp]
  have hzero : (0 : Int) ≤ intMax := by decide
  refine ⟨Fifo.empty _ _, rfl, hzero, fun a => ?_, fun a => ?_, fun a => ?_,
    fun x hx => ?_⟩
  · exact hnone _ rfl
  · exact hnone _ rfl
  · rw [Pool.places, Pool.start, hnone _ rfl, hnone _ rfl, hout _ rfl]
    rfl
  · simp [Service.idle] at hx

/-- What is seen of a run is a trace of the service, which
ends where the pool does. -/
theorem run_simulates {n m : Nat} {es : List Action}
    (h : Trace Step (Pool.start n m) es s) :
    ∃ t, Refines s t ∧
      Trace Service.Step Service.idle (es.filterMap Action.view) t :=
  h.simulates step_simulates (Refines.start n m)

end Thpool

end Pyramid
