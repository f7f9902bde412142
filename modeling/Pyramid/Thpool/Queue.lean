/-
# `Pyramid.Thpool.Queue` — what the functions of the queue do (`server/src/thpool.c`)

One lemma for each function, on a queue whose records are linked as they should
be.  None of them ends the run, but for a queue that is as long as an `int` can
count.
-/
import Pyramid.Thpool.Threads

namespace Pyramid

namespace Thpool

variable {jobs jobs' : Heap Job} {q q' : JobQueue} {xs : List Nat} {a b : Nat}

/-! ## What is to be done -/

/-- `function` and `arg`, which stay as they are while a job is in the queue -/
def Job.what (j : Job) : Nat × Nat := (j.function, j.arg)

theorem task_congr (h : (jobs'.cell a).map Job.what = (jobs.cell a).map Job.what) :
    task jobs' a = task jobs a := by
  cases hj : jobs.cell a with
  | none =>
      rw [hj, Option.map_none, Option.map_eq_none_iff] at h
      simp only [task, hj, h]
  | some j =>
      rw [hj, Option.map_some] at h
      obtain ⟨j', hj', hwhat⟩ := Option.map_eq_some_iff.mp h
      obtain ⟨hf, harg⟩ := Prod.mk.inj hwhat
      simp only [task, hj, hj', hf, harg]

theorem task_job (jobs : Heap Job) (a : Nat) : (task jobs a).job = a := by
  unfold task
  split
  · rfl
  · rfl

theorem task_of_cell {j : Job} (h : jobs.cell a = some j) :
    task jobs a = ⟨a, j.function, j.arg⟩ := by
  simp only [task, h]

/-- Linking a job does not change what is to be done. -/
theorem what_set_prev {j : Job} (h : jobs.cell a = some j) (p : Ptr) (b : Nat) :
    ((jobs.set a (some { j with prev := p })).cell b).map Job.what
      = (jobs.cell b).map Job.what := by
  have hwhat : Job.what { j with prev := p } = Job.what j := rfl
  exact Heap.map_cell_set Job.what h hwhat b

/-! ## The functions -/

theorem modify_next {h h' : Heap Job} {p : Ptr} {f : Job → Job}
    (hm : h.modify p f = .ok h') :
    h'.next = h.next := by
  obtain ⟨a, v, -, -, rfl⟩ := Heap.modify_ok.mp hm
  rfl

theorem newJob_none {src : Nat → Option Job} {function arg : Nat}
    (h : newJob jobs src function arg = .ok (none, jobs')) :
    jobs.next ≤ jobs'.next ∧ ∀ b, jobs'.cell b = jobs.cell b := by
  rcases jobs.malloc_cases src with hm | ⟨v, -, hm⟩
  · simp only [newJob, hm, if_true] at h
    cases h
    refine ⟨Nat.le_succ _, fun b => ?_⟩
    by_cases hb : b = jobs.next
    · rw [hb, Heap.cell_grow_self, jobs.fresh _ (Nat.le_refl _)]
    · exact Heap.cell_grow_ne _ hb _
  · simp only [newJob, hm, reduceCtorEq, if_false] at h
    obtain ⟨jobs₁, -, h⟩ := bind_ok.mp h
    obtain ⟨jobs₂, -, h⟩ := bind_ok.mp h
    cases h

theorem newJob_some {src : Nat → Option Job} {function arg : Nat}
    (h : newJob jobs src function arg = .ok (some a, jobs')) :
    (a = jobs.next ∧ jobs'.next = jobs.next + 1) ∧ jobs.cell a = none ∧
      jobs'.cell a ≠ none ∧
      task jobs' a = ⟨a, function, arg⟩ ∧ ∀ b, b ≠ a →
      jobs'.cell b = jobs.cell b := by
  rcases jobs.malloc_cases src with hm | ⟨v, -, hm⟩
  · simp only [newJob, hm, if_true] at h
    cases h
  · simp only [newJob, hm, reduceCtorEq, if_false] at h
    obtain ⟨jobs₁, h₁, h⟩ := bind_ok.mp h
    obtain ⟨jobs₂, h₂, h⟩ := bind_ok.mp h
    cases h
    rw [Heap.modify_some (Heap.cell_grow_self _ _), Heap.set_grow] at h₁
    cases h₁
    rw [Heap.modify_some (Heap.cell_grow_self _ _), Heap.set_grow] at h₂
    cases h₂
    refine ⟨⟨rfl, rfl⟩, jobs.fresh _ (Nat.le_refl _), ?_, ?_,
      fun b hb => Heap.cell_grow_ne _ hb _⟩
    · rw [Heap.cell_grow_self]
      simp
    · rw [task_of_cell (Heap.cell_grow_self _ _)]

theorem jobqueuePush_fifo (hq : Fifo jobs Job.prev q.front q.rear xs)
    (hlen : q.len = xs.length) (ha : jobs.cell a ≠ none) (hfresh : a ∉ xs)
    (hroom : q.len ≠ intMax) :
    ∃ jobs' q', jobqueuePush jobs q (some a) = .ok (jobs', q') ∧
      Fifo jobs' Job.prev q'.front q'.rear (xs ++ [a]) ∧ q'.len = q.len + 1 ∧
      q'.hasJobs = q.hasJobs ∧ ∀ b, (jobs'.cell b).map Job.what =
        (jobs.cell b).map Job.what := by
  obtain ⟨j, hj⟩ := Option.ne_none_iff_exists'.mp ha
  have hcell : (jobs.set a (some { j with prev := none })).cell a
      = some { j with prev := none } :=
    Heap.cell_set_self hj _
  cases xs with
  | nil =>
      have hzero : q.len = 0 := hlen
      refine ⟨_, { q with front := some a, rear := some a, len := q.len + 1 }, ?_,
        Fifo.push_first hcell rfl, rfl, rfl, what_set_prev hj none⟩
      simp only [jobqueuePush, Heap.modify_some hj, ok_bind, if_pos hzero,
        if_neg hroom]
  | cons x xs =>
      have hpos : q.len ≠ 0 := by
        rw [hlen, List.length_cons]
        omega
      obtain ⟨r, hr⟩ : ∃ r, (x :: xs).getLast? = some r :=
        ⟨_, List.getLast?_eq_some_getLast (by simp)⟩
      have hrear : q.rear = some r := hq.rear.trans hr
      have hq₁ :
          Fifo (jobs.set a (some { j with prev := none })) Job.prev q.front (some r)
          (x :: xs) := by
        refine (hrear ▸ hq).frame fun b hb => ?_
        rw [Heap.cell_set_ne _ fun heq : b = a => hfresh (heq ▸ hb)]
      obtain ⟨w, hw⟩ := hq₁.path.cell_of_mem (List.mem_of_getLast? hr)
      refine ⟨_, { q with rear := some a, len := q.len + 1 }, ?_,
        hq₁.push (w := { w with prev := some a }) hcell rfl hfresh rfl, rfl, rfl, ?_⟩
      · simp only [jobqueuePush, Heap.modify_some hj, hrear, Heap.modify_some hw,
          ok_bind, if_neg hpos, if_neg hroom]
      · intro b
        rw [what_set_prev hw, what_set_prev hj]

/-- A queue that is as long as an `int` can count. -/
theorem jobqueuePush_full (hq : Fifo jobs Job.prev q.front q.rear xs)
    (hlen : q.len = xs.length) (ha : jobs.cell a ≠ none) (hfull : q.len = intMax) :
    jobqueuePush jobs q (some a) = .error .overflow := by
  obtain ⟨j, hj⟩ := Option.ne_none_iff_exists'.mp ha
  have hne : q.len ≠ 0 := by
    rw [hfull]
    decide
  obtain ⟨r, hr⟩ : ∃ r, xs.getLast? = some r := by
    refine Option.ne_none_iff_exists'.mp fun hnil => hne ?_
    rw [hlen, List.getLast?_eq_none_iff.mp hnil]
    rfl
  obtain ⟨w, hw⟩ : ∃ w, (jobs.set a (some { j with prev := none })).cell r
      = some w := by
    by_cases hra : r = a
    · subst hra
      exact ⟨_, Heap.cell_set_self hj _⟩
    · obtain ⟨w, hw⟩ := hq.path.cell_of_mem (List.mem_of_getLast? hr)
      exact ⟨w, (Heap.cell_set_ne _ hra _).trans hw⟩
  simp only [jobqueuePush, Heap.modify_some hj, ok_bind, if_neg hne,
    hq.rear.trans hr, Heap.modify_some hw, if_pos hfull]

/-- What is pushed is counted. -/
theorem jobqueuePush_room {newjob : Ptr}
    (h : jobqueuePush jobs q newjob = .ok (jobs', q')) :
    q.len ≠ intMax := by
  obtain ⟨jobs₁, -, h⟩ := bind_ok.mp h
  obtain ⟨jobs₂, -, h⟩ := bind_ok.mp h
  intro hfull
  simp only [hfull, if_true] at h
  cases h

theorem cell_none_congr
    (h : (jobs'.cell b).map Job.what = (jobs.cell b).map Job.what) :
    jobs'.cell b = none ↔ jobs.cell b = none := by
  rw [← Option.map_eq_none_iff (f := Job.what), h, Option.map_eq_none_iff]

/-- What a pull leaves alone, and that it posts if it leaves jobs behind. -/
theorem jobqueuePull_rest {job : Ptr} {more : Bool}
    (h : jobqueuePull jobs q = .ok (job, q', more)) :
    q'.rwmutex = q.rwmutex ∧ q'.hasJobs = q.hasJobs ∧
      (more = false → q'.len = 0) := by
  unfold jobqueuePull at h
  split at h
  · next hlen =>
      cases h
      exact ⟨rfl, rfl, fun _ => hlen⟩
  · split at h
    · cases h
      exact ⟨rfl, rfl, fun _ => rfl⟩
    · obtain ⟨j, -, h⟩ := bind_ok.mp h
      obtain ⟨len, -, h⟩ := bind_ok.mp h
      cases h
      exact ⟨rfl, rfl, nofun⟩

theorem jobqueuePush_rest {newjob : Ptr}
    (h : jobqueuePush jobs q newjob = .ok (jobs', q')) :
    q'.rwmutex = q.rwmutex ∧ q'.hasJobs = q.hasJobs ∧ jobs'.next = jobs.next := by
  obtain ⟨jobs₁, h₁, h⟩ := bind_ok.mp h
  obtain ⟨jobs₂, h₂, h⟩ := bind_ok.mp h
  have hnext : jobs₂.next = jobs.next := by
    split at h₂
    · cases h₂
      exact modify_next h₁
    · exact (modify_next h₂).trans (modify_next h₁)
  simp only at h
  split at h
  · cases h
  · cases h
    exact ⟨rfl, rfl, hnext⟩

theorem jobqueuePull_fifo (hq : Fifo jobs Job.prev q.front q.rear xs)
    (hlen : q.len = xs.length) (hbound : q.len ≤ intMax) :
    ∃ q' more, jobqueuePull jobs q = .ok (xs.head?, q', more) ∧
      Fifo jobs Job.prev q'.front q'.rear xs.tail ∧ q'.len = xs.tail.length ∧
      q'.hasJobs = q.hasJobs ∧ (more = true ↔ xs.tail ≠ []) := by
  have hfront : q.front = xs.head? := hq.path.head
  cases xs with
  | nil =>
      refine ⟨q, false, ?_, hq, hlen, rfl, by simp⟩
      have hzero : q.len = 0 := hlen
      rw [jobqueuePull, if_pos hzero, hfront]
  | cons a xs =>
      cases xs with
      | nil =>
          have hone : q.len = 1 := hlen
          refine ⟨{ q with front := none, rear := none, len := 0 }, false, ?_,
            Fifo.empty _ _, rfl, rfl, by simp⟩
          rw [jobqueuePull, if_neg (by omega), if_pos hone, hfront]
      | cons b xs =>
          obtain ⟨j, hj⟩ := hq.path.cell_of_mem List.mem_cons_self
          have hlen' : q.len = (xs.length : Int) + 2 := by
            rw [hlen, List.length_cons, List.length_cons]
            omega
          have hsub : subInt q.len 1 = .ok (q.len - 1) := by
            unfold subInt
            rw [if_pos (by unfold intMin; omega)]
          refine ⟨{ q with front := j.prev, len := q.len - 1 }, true, ?_, hq.pop hj,
            ?_, rfl, by simp⟩
          · rw [jobqueuePull, if_neg (by omega), if_neg (by omega), hfront,
              List.head?_cons, Heap.load_some hj, ok_bind, hsub, ok_bind]
          · show q.len - 1 = _
            rw [hlen', List.tail_cons, List.length_cons]
            omega

end Thpool

end Pyramid
