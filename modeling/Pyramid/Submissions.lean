/-
# `Pyramid.Submissions` — what pool threads share (`submit_job`)

Two machines, each with the steps the threads of the server can interleave.

* `IdState`: a caller of `sh_allocate_job_id` increments `sh_job_id` under the
  lock and reads it back after the lock is gone.  The ids returned are the
  numbers of increments before each read (`Interleaving.ids`), so which of them
  agree can be read off the schedule.
* `PoolState`: the event loop fills `job_s` and queues its address; a worker
  takes the oldest address and reads what is there now.  The queue keeps, next
  to each address, the tuple that was there when it was queued, which no step
  looks at.
-/
import Pyramid.Groups
import Pyramid.Memory.Text
import Pyramid.Runs
import Mathlib.Data.List.Basic

namespace Pyramid

/-! ## Job ids -/

inductive IdStep where
  | increment (caller : Nat)
  | read (caller : Nat)
  deriving DecidableEq, Repr

/-- `sh_job_id`, the callers between their two steps, and the ids returned. -/
structure IdState where
  shJobId : Nat
  inside : Nat → Bool
  returned : List Nat

/-- The schedules of any number of callers of `sh_allocate_job_id`, each of
which increments before it reads. -/
inductive Interleaving : List IdStep → IdState → Prop
  | start : Interleaving [] ⟨0, fun _ => false, []⟩
  | increment {es : List IdStep} {s : IdState} (c : Nat) : Interleaving es s →
      s.inside c = false →
      s.shJobId < longMax →
      Interleaving (es ++ [.increment c])
        ⟨s.shJobId + 1, put s.inside c true, s.returned⟩
  | read {es : List IdStep} {s : IdState} (c : Nat) : Interleaving es s →
      s.inside c = true →
      Interleaving (es ++ [.read c])
        ⟨s.shJobId, put s.inside c false, s.returned ++ [s.shJobId]⟩

def increments : List IdStep → Nat
  | [] => 0
  | .increment _ :: es => increments es + 1
  | .read _ :: es => increments es

/-- The values `sh_job_id` has at the reads of a schedule that finds it at `n`. -/
def readings : Nat → List IdStep → List Nat
  | _, [] => []
  | n, .increment _ :: es => readings (n + 1) es
  | n, .read _ :: es => n :: readings n es

/-- Between any two reads of the schedule the number of increments is as `P` says. -/
def Between (P : Nat → Prop) (es : List IdStep) : Prop :=
  ∀ a c b c' d, es = a ++ .read c :: (b ++ .read c' :: d) → P (increments b)

theorem increments_append (es fs : List IdStep) :
    increments (es ++ fs) = increments es + increments fs := by
  induction es with
  | nil => exact (Nat.zero_add _).symm
  | cons e es ih =>
      cases e with
      | increment c =>
          simp only [List.cons_append, increments, ih]
          omega
      | read c => exact ih

theorem readings_append (es fs : List IdStep) :
    ∀ n, readings n (es ++ fs) = readings n es
      ++ readings (n + increments es) fs := by
  induction es with
  | nil => exact fun n => rfl
  | cons e es ih =>
      intro n
      cases e with
      | increment c =>
          have hn : n + (increments es + 1) = n + 1 + increments es := by omega
          simp only [List.cons_append, readings, increments, ih, hn]
      | read c => simp only [List.cons_append, readings, increments, ih]

theorem Interleaving.ids {es : List IdStep} {s : IdState} (h : Interleaving es s) :
    s.shJobId = increments es ∧ s.returned = readings 0 es := by
  induction h with
  | start => exact ⟨rfl, rfl⟩
  | increment c _ _ _ ih =>
      rw [increments_append, readings_append, ← ih.1, ← ih.2]
      exact ⟨rfl, (List.append_nil _).symm⟩
  | read c _ _ ih =>
      rw [increments_append, readings_append, Nat.zero_add, ← ih.1, ← ih.2]
      exact ⟨rfl, rfl⟩

theorem mem_readings {m : Nat} {es : List IdStep} :
    ∀ {n}, m ∈ readings n es ↔ ∃ b c d, es = b ++ .read c :: d
      ∧ m = n + increments b := by
  induction es with
  | nil =>
      intro n
      simp [readings]
  | cons e es ih =>
      intro n
      cases e with
      | increment c =>
          rw [readings, ih]
          constructor
          · rintro ⟨b, c', d, rfl, rfl⟩
            exact ⟨.increment c :: b, c', d, rfl, by simp only [increments]; omega⟩
          · rintro ⟨b, c', d, hes, rfl⟩
            cases b with
            | nil => cases hes
            | cons x b =>
                cases hes
                exact ⟨b, c', d, rfl, by simp only [increments]; omega⟩
      | read c =>
          rw [readings, List.mem_cons, ih]
          constructor
          · rintro (rfl | ⟨b, c', d, rfl, rfl⟩)
            · exact ⟨[], c, es, rfl, rfl⟩
            · exact ⟨.read c :: b, c', d, rfl, rfl⟩
          · rintro ⟨b, c', d, hes, rfl⟩
            cases b with
            | nil => exact Or.inl rfl
            | cons x b =>
                cases hes
                exact Or.inr ⟨b, c', d, rfl, rfl⟩

/-- A relation that only looks at how far apart two readings are holds between
all of them exactly when it holds of the increments between any two reads. -/
theorem pairwise_readings {R : Nat → Nat → Prop} {P : Nat → Prop}
    (hR : ∀ n k, R n (n + k) ↔ P k) {es : List IdStep} :
    ∀ {n}, (readings n es).Pairwise R ↔ Between P es := by
  induction es with
  | nil =>
      intro n
      simp only [readings, List.Pairwise.nil, true_iff]
      intro a c b c' d hes
      exact absurd hes (by simp)
  | cons e es ih =>
      intro n
      cases e with
      | increment c =>
          rw [readings, ih]
          constructor
          · intro h a c₁ b c₂ d hes
            cases a with
            | nil => cases hes
            | cons x a =>
                cases hes
                exact h a c₁ b c₂ d rfl
          · intro h a c₁ b c₂ d hes
            exact h (.increment c :: a) c₁ b c₂ d (congrArg _ hes)
      | read c =>
          rw [readings, List.pairwise_cons, ih]
          constructor
          · rintro ⟨hfirst, h⟩ a c₁ b c₂ d hes
            cases a with
            | nil =>
                cases hes
                exact (hR n _).mp (hfirst _ (mem_readings.mpr ⟨b, c₂, d, rfl, rfl⟩))
            | cons x a =>
                cases hes
                exact h a c₁ b c₂ d rfl
          · intro h
            refine ⟨fun m hm => ?_, fun a c₁ b c₂ d hes =>
              h (.read c :: a) c₁ b c₂ d (congrArg _ hes)⟩
            obtain ⟨b, c₂, d, hes, rfl⟩ := mem_readings.mp hm
            exact (hR n _).mpr (h [] c b c₂ d (congrArg _ hes))

/-- **When job ids are unique.**  The ids a schedule returns are distinct exactly
when it increments between any two reads; as the `int`s that `jobs.c` finds
jobs by, exactly when it never does so a multiple of `2^32` times. -/
theorem job_ids_unique_iff {es : List IdStep} {s : IdState} (h : Interleaving es s) :
    (s.returned.Nodup ↔ Between (0 < ·) es) ∧
      ((s.returned.map fun id : Nat => toInt32 id).Nodup ↔
        Between (fun k => ¬ 4294967296 ∣ k) es) := by
  rw [h.ids.2]
  constructor
  · refine pairwise_readings fun n k => ?_
    omega
  · rw [List.Nodup, List.pairwise_map]
    refine pairwise_readings fun n k => ?_
    unfold toInt32
    omega

/-- Two callers one after the other. -/
theorem job_ids_unique_sample :
    ([1, 2].Nodup ↔ Between (0 < ·) [.increment 0, .read 0, .increment 1, .read 1]) ∧
      (([1, 2].map fun id : Nat => toInt32 id).Nodup ↔
        Between (fun k => ¬ 4294967296 ∣ k) [.increment 0, .read 0, .increment 1,
          .read 1]) :=
  job_ids_unique_iff
    (.read 1 (.increment 1 (.read 0 (.increment 0 .start rfl (by decide)) rfl) rfl
    (by decide)) rfl)

/-- Both callers increment before either reads. -/
theorem same_id_twice :
    ∃ s, Interleaving [.increment 0, .increment 1, .read 0, .read 1] s ∧
      s.returned = [2, 2] :=
  ⟨_, .read 1
    (.read 0 (.increment 1 (.increment 0 .start rfl (by decide)) rfl (by decide))
      rfl) rfl,
    rfl⟩

/-! ## The arguments of a job -/

/-- `submit_job_t` -/
structure SubmitJob where
  task : Int
  cfd : Int
  group : Int
  inputFile : Bytes
  deriving DecidableEq, Repr

/-- `memory` is the storage `job_s` can be in.  An item of the queue is the
address it was queued with, next to the tuple that was stored there then. -/
structure PoolState where
  memory : Nat → SubmitJob
  queue : List (Nat × SubmitJob)
  submitted : List SubmitJob
  ran : List SubmitJob

/-- `exec a j`: `sh_parse_cmd` with the tuple `j`, in a frame
that has `job_s` at `a`. -/
inductive PoolEvent where
  | exec (a : Nat) (j : SubmitJob)
  | take

def PoolState.start (memory : Nat → SubmitJob) : PoolState := ⟨memory, [], [], []⟩

/-- A worker that finds the queue empty does nothing. -/
def PoolState.step (s : PoolState) : PoolEvent → Except Halt PoolState
  | .exec a j =>
      .ok ⟨put s.memory a j, s.queue ++ [(a, j)], s.submitted ++ [j], s.ran⟩
  | .take =>
      match s.queue with
      | [] => .ok s
      | (a, _) :: queue => .ok ⟨s.memory, queue, s.submitted, s.ran ++ [s.memory a]⟩

/-- No queued item refers to storage that is now given another tuple. -/
def PoolState.KeepsQueued (s : PoolState) : PoolEvent → Prop
  | .exec a j => ∀ q ∈ s.queue, q.1 = a → q.2 = j
  | .take => True

namespace PoolState

/-- The tuples that were submitted and not yet run. -/
def waiting (s : PoolState) : List SubmitJob := s.queue.map (·.2)

variable {s s' : PoolState} {e : PoolEvent}

theorem step_cases (h : s.step e = .ok s') :
    (∃ a j, e = .exec a j ∧
        s' = ⟨put s.memory a j, s.queue ++ [(a, j)], s.submitted ++ [j], s.ran⟩) ∨
      (e = .take ∧ s.queue = [] ∧ s' = s) ∨
      ∃ q queue, e = .take ∧ s.queue = q :: queue ∧
        s' = ⟨s.memory, queue, s.submitted, s.ran ++ [s.memory q.1]⟩ := by
  cases e with
  | exec a j =>
      cases h
      exact Or.inl ⟨a, j, rfl, rfl⟩
  | take =>
      simp only [step] at h
      split at h
      · next hq =>
          cases h
          exact Or.inr (Or.inl ⟨rfl, hq, rfl⟩)
      · next a j queue hq =>
          cases h
          exact Or.inr (Or.inr ⟨(a, j), queue, rfl, hq, rfl⟩)

/-- The oldest tuples submitted, as many as jobs have run, and
then those that wait. -/
def Ledger (s : PoolState) : Prop :=
  ∃ own : List SubmitJob, s.submitted = own ++ s.waiting ∧ own.length = s.ran.length

theorem Ledger.step (hled : s.Ledger) (h : s.step e = .ok s') : s'.Ledger := by
  obtain ⟨own, hsub, hlen⟩ := hled
  rcases step_cases h with ⟨a, j, -, rfl⟩ | ⟨-, -, rfl⟩ | ⟨q, queue, -, hq, rfl⟩
  · refine ⟨own, ?_, hlen⟩
    simp only [waiting, List.map_append, List.map_cons, List.map_nil, hsub,
      List.append_assoc]
  · exact ⟨own, hsub, hlen⟩
  · refine ⟨own ++ [q.2], ?_, by simp [hlen]⟩
    rw [waiting, hq] at hsub
    rw [List.append_assoc]
    exact hsub

/-- Every queued item still finds its own tuple, and so did every job that ran. -/
structure Own (s : PoolState) : Prop where
  kept : ∀ q ∈ s.queue, s.memory q.1 = q.2
  order : s.ran ++ s.waiting = s.submitted

theorem Own.step (hown : s.Own) (hk : s.KeepsQueued e) (h : s.step e = .ok s') :
    s'.Own := by
  obtain ⟨hkept, horder⟩ := hown
  rcases step_cases h with ⟨a, j, rfl, rfl⟩ | ⟨-, -, rfl⟩ | ⟨q, queue, -, hq, rfl⟩
  · refine ⟨fun q hq => ?_, ?_⟩
    · show put s.memory a j q.1 = q.2
      rcases List.mem_append.mp hq with hq | hq
      · by_cases ha : q.1 = a
        · rw [ha, put_self, hk q hq ha]
        · rw [put_ne _ ha]
          exact hkept q hq
      · rw [List.mem_singleton.mp hq, put_self]
    · simp only [waiting, List.map_append, List.map_cons, List.map_nil,
        ← List.append_assoc]
      rw [← horder]
      rfl
  · exact ⟨hkept, horder⟩
  · rw [hq] at hkept
    refine ⟨fun x hx => hkept x (List.mem_cons_of_mem _ hx), ?_⟩
    rw [waiting, hq, List.map_cons] at horder
    rw [← horder, ← hkept q List.mem_cons_self, List.append_assoc]
    rfl

/-! ### A tuple that is overwritten is lost

Storage holds the newest tuple queued with it (`Newest`).  When two queued items
share storage and not their tuple, the first of them can only run as itself if
the newest item agrees with it, and then that one and the other differ: there
is such a pair for as long as every job has run as itself (`Spoiled`). -/

def Newest (s : PoolState) : Prop :=
  ∀ a q, (s.queue.filter fun x => x.1 = a).getLast? = some q → s.memory a = q.2

def Clash (s : PoolState) : Prop :=
  ∃ x ∈ s.queue, ∃ y ∈ s.queue, x.1 = y.1 ∧ x.2 ≠ y.2

def Spoiled (s : PoolState) : Prop := s.ran ++ s.waiting ≠ s.submitted ∨ s.Clash

theorem Newest.step (hnew : s.Newest) (h : s.step e = .ok s') : s'.Newest := by
  intro b q hlast
  rcases step_cases h with ⟨a, j, -, rfl⟩ | ⟨-, -, rfl⟩ | ⟨x, queue, -, hq, rfl⟩
  · show put s.memory a j b = q.2
    by_cases hb : a = b
    · subst hb
      rw [List.filter_append, List.filter_cons_of_pos (by simp), List.filter_nil,
        List.getLast?_concat] at hlast
      rw [put_self, ← Option.some.inj hlast]
    · rw [List.filter_append, List.filter_cons_of_neg (by simpa using hb),
        List.filter_nil, List.append_nil] at hlast
      rw [put_ne _ (Ne.symm hb)]
      exact hnew b q hlast
  · exact hnew b q hlast
  · refine hnew b q ?_
    rw [hq]
    by_cases hx : x.1 = b
    · rw [List.filter_cons_of_pos (by simpa using hx), List.getLast?_cons, hlast]
      rfl
    · rw [List.filter_cons_of_neg (by simpa using hx)]
      exact hlast

/-- The item at the front runs as itself only if the newest with its
storage agrees with it. -/
theorem Newest.newest_of_front (hnew : s.Newest) {q y : Nat × SubmitJob}
    {queue : List (Nat × SubmitJob)} (hq : s.queue = q :: queue) (hy : y ∈ queue)
    (haddr : y.1 = q.1) : ∃ z ∈ queue, z.1 = q.1 ∧ z.2 = s.memory q.1 := by
  have hmem : y ∈ queue.filter fun x => x.1 = q.1 :=
    List.mem_filter.mpr ⟨hy, by simpa using haddr⟩
  obtain ⟨z, hz⟩ :=
    Option.isSome_iff_exists.mp (List.getLast?_isSome.mpr (List.ne_nil_of_mem hmem))
  have hzmem := List.mem_filter.mp (List.mem_of_getLast? hz)
  refine ⟨z, hzmem.1, by simpa using hzmem.2, (hnew q.1 z ?_).symm⟩
  rw [hq, List.filter_cons_of_pos (by simp), List.getLast?_cons, hz]
  rfl

theorem Spoiled.step (hled : s.Ledger) (hnew : s.Newest) (hbad : s.Spoiled)
    (h : s.step e = .ok s') : s'.Spoiled := by
  obtain ⟨own, hsub, hlen⟩ := hled
  rcases step_cases h with ⟨a, j, -, rfl⟩ | ⟨-, -, rfl⟩ | ⟨q, queue, -, hq, rfl⟩
  · rcases hbad with horder | ⟨x, hx, y, hy, hxy⟩
    · refine Or.inl fun heq => horder ?_
      simp only [waiting, List.map_append, List.map_cons, List.map_nil,
        ← List.append_assoc] at heq
      exact List.append_cancel_right heq
    · exact Or.inr ⟨x, List.mem_append_left _ hx, y, List.mem_append_left _ hy, hxy⟩
  · exact hbad
  · rw [waiting, hq, List.map_cons] at hsub
    by_cases hfront : s.memory q.1 = q.2
    · rcases hbad with horder | ⟨x, hx, y, hy, haddr, hne⟩
      · refine Or.inl fun heq => horder ?_
        rw [hfront, List.append_assoc] at heq
        rw [waiting, hq]
        exact heq
      · -- one of the two may be the item that ran: the newest then takes its place
        rw [hq] at hx hy
        have hpair : (∃ x ∈ queue, ∃ y ∈ queue, x.1 = y.1 ∧ x.2 ≠ y.2) ∨
            ∃ y ∈ queue, y.1 = q.1 ∧ y.2 ≠ q.2 := by
          rcases List.mem_cons.mp hx with rfl | hx'
          · rcases List.mem_cons.mp hy with rfl | hy'
            · exact absurd rfl hne
            · exact Or.inr ⟨y, hy', haddr.symm, hne.symm⟩
          · rcases List.mem_cons.mp hy with rfl | hy'
            · exact Or.inr ⟨x, hx', haddr, hne⟩
            · exact Or.inl ⟨x, hx', y, hy', haddr, hne⟩
        rcases hpair with hclash | ⟨y, hy, haddr, hne⟩
        · exact Or.inr hclash
        · obtain ⟨z, hz, hzaddr, hzmem⟩ := hnew.newest_of_front hq hy haddr
          refine Or.inr ⟨z, hz, y, hy, hzaddr.trans haddr.symm, ?_⟩
          rw [hzmem, hfront]
          exact hne.symm
    · refine Or.inl fun heq => hfront ?_
      rw [hsub, ← List.singleton_append, ← List.append_assoc] at heq
      have hran := List.append_cancel_right heq
      exact List.singleton_inj.mp (List.append_inj_right' hran rfl)

theorem clash_of_overwrite (hk : ¬ s.KeepsQueued e) (h : s.step e = .ok s') :
    s'.Clash := by
  rcases step_cases h with ⟨a, j, rfl, rfl⟩ | ⟨rfl, -, -⟩ | ⟨-, -, rfl, -, -⟩
  · simp only [KeepsQueued, not_forall] at hk
    obtain ⟨q, hq, haddr, hne⟩ := hk
    exact ⟨q, List.mem_append_left _ hq, (a, j),
      List.mem_append_right _ List.mem_cons_self, haddr, hne⟩
  · exact absurd trivial hk
  · exact absurd trivial hk

/-! ### Runs -/

theorem runs_spoiled {es : List PoolEvent} (hled : s.Ledger) (hnew : s.Newest)
    (hbad : s.Spoiled) (h : runs PoolState.step es s = .ok s') : s'.Spoiled := by
  have hstep : ∀ (t : PoolState) (e : PoolEvent) (t' : PoolState),
      t.Ledger ∧ t.Newest ∧ t.Spoiled → t.step e = .ok t' →
      t'.Ledger ∧ t'.Newest ∧ t'.Spoiled :=
    fun t e t' ht hstep => ⟨ht.1.step hstep, ht.2.1.step hstep,
      ht.2.2.step ht.1 ht.2.1 hstep⟩
  exact (runs_inv hstep ⟨hled, hnew, hbad⟩ h).2.2

theorem spoiled_of_not_meets :
    ∀ {es : List PoolEvent} {s s' : PoolState}, s.Ledger → s.Newest →
    ¬ StepsMeet PoolState.step KeepsQueued es s → runs PoolState.step es s = .ok s' →
    s'.Spoiled := by
  intro es
  induction es with
  | nil => exact fun _ _ hmeets _ => absurd trivial hmeets
  | cons e es ih =>
      intro s s' hled hnew hmeets h
      rw [runs] at h
      obtain ⟨s₁, hs₁, h⟩ := bind_ok.mp h
      by_cases hk : s.KeepsQueued e
      · refine ih (hled.step hs₁) (hnew.step hs₁)
          (fun hrest => hmeets ⟨hk, fun s₂ hs₂ => ?_⟩) h
        cases hs₁.symm.trans hs₂
        exact hrest
      · exact runs_spoiled (hled.step hs₁) (hnew.step hs₁)
          (Or.inr (clash_of_overwrite hk hs₁)) h

theorem runs_own {es : List PoolEvent} (hown : s.Own)
    (hmeets : StepsMeet PoolState.step KeepsQueued es s)
    (h : runs PoolState.step es s = .ok s') :
    s'.Own :=
  runs_inv_of_meets (fun _ _ _ hs hk hstep => hs.step hk hstep) hown hmeets h

end PoolState

/-- **Which jobs run with their own arguments.**  If no command overwrites the
tuple of a queued item, then after any number of commands and worker steps the
jobs that ran did so with the oldest tuples submitted, each once and in order,
and the others wait; and a run that empties the queue has run every job with
its own tuple only if no command did. -/
theorem jobs_run_own_arguments_iff (memory : Nat → SubmitJob) (es : List PoolEvent)
    {s : PoolState} (h : runs PoolState.step es (.start memory) = .ok s) :
    (StepsMeet PoolState.step PoolState.KeepsQueued es (.start memory) →
        s.ran ++ s.waiting = s.submitted) ∧
      (s.queue = [] → (s.ran = s.submitted ↔
        StepsMeet PoolState.step PoolState.KeepsQueued es (.start memory))) := by
  have hown : StepsMeet PoolState.step PoolState.KeepsQueued es (.start memory) →
      s.Own :=
    fun hmeets => PoolState.runs_own ⟨fun q hq => absurd hq List.not_mem_nil,
      rfl⟩ hmeets h
  refine ⟨fun hmeets => (hown hmeets).order,
    fun hempty => ⟨fun hran => ?_, fun hmeets => ?_⟩⟩
  · by_contra hmeets
    have hbad :=
      PoolState.spoiled_of_not_meets ⟨[], rfl, rfl⟩ (fun a q hq => by cases hq)
        hmeets h
    rcases hbad with horder | ⟨x, hx, -⟩
    · rw [PoolState.waiting, hempty, List.map_nil, List.append_nil] at horder
      exact horder hran
    · rw [hempty] at hx
      exact absurd hx List.not_mem_nil
  · have horder := (hown hmeets).order
    rw [PoolState.waiting, hempty, List.map_nil, List.append_nil] at horder
    exact horder

/-- Two jobs for the groups 1 and 2. -/
def SubmitJob.sample (group : Int) : SubmitJob := ⟨102, 5, group, ascii "in.txt"⟩

theorem jobs_run_own_arguments_sample :
    let es := [.exec 0 (.sample 1), .take, .exec 0 (.sample 2), .take]
    ∃ s, runs PoolState.step es (.start fun _ => .sample 0) = .ok s ∧
      (StepsMeet PoolState.step PoolState.KeepsQueued es (.start fun _ =>
        .sample 0) →
        s.ran ++ s.waiting = s.submitted) ∧
      (s.queue = [] → (s.ran = s.submitted ↔
        StepsMeet PoolState.step PoolState.KeepsQueued es (.start fun _ =>
          .sample 0))) :=
  ⟨_, rfl, jobs_run_own_arguments_iff (fun _ => .sample 0) _ rfl⟩

/-- Both commands are handled before a worker is free: the second job runs twice. -/
theorem second_job_twice :
    ∃ s, runs PoolState.step [.exec 0 (.sample 1), .exec 0 (.sample 2), .take, .take]
        (.start fun _ => .sample 0) = .ok s ∧ s.queue = [] ∧
      s.submitted = [.sample 1, .sample 2] ∧ s.ran = [.sample 2, .sample 2] :=
  ⟨_, rfl, rfl, rfl, rfl⟩

end Pyramid
