/-
# `Pyramid.Thpool.Serving` — what a run of the pool shows

The results of the modules before this one, for whole runs: from `thpool_init`
on, with any number of threads and callers, in any order of their steps.
-/
import Pyramid.Thpool.Progress

namespace Pyramid

namespace Thpool

open Service

variable {s s' : Pool} {t : Service Task} {n m : Nat} {es : List Action}

/-- What is seen of a run. -/
def acts (es : List Action) : List (Act Task) := es.filterMap Action.view

/-! ## Each job is handed in once -/

/-- The records of the jobs that were pushed are used up, and each was given its task
by a call of `thpool_add_work`. -/
structure Fresh (es : List Action) (s : Pool) : Prop where
  nodup : (((acts es).filterMap submitted).map Task.job).Nodup
  old : ∀ a ∈ ((acts es).filterMap submitted).map Task.job,
    a < s.jobs.next ∧ s.callers.countP (Caller.adds a) = 0
  added : ∀ (k a : Nat), s.callers[k]? = some (Caller.adding a) →
    Action.add (task s.jobs a) ∈ es
  given : ∀ x ∈ (acts es).filterMap submitted, Action.add x ∈ es

theorem free_next {h h' : Heap Job} {p : Ptr} (hfree : h.free p = .ok h') :
    h'.next = h.next := by
  cases p with
  | none =>
      cases hfree
      rfl
  | some a =>
      obtain ⟨v, -, rfl⟩ := Heap.free_ok.mp hfree
      rfl

theorem step_fresh {e : Action} (hR : Refines s t) (h : Step s e s') :
    s.jobs.next ≤ s'.jobs.next ∧
      (∀ a, a < s.jobs.next → s'.callers.countP (Caller.adds a) ≤ s.callers.countP
        (Caller.adds a)) ∧
      ∀ x, e.view = some (.submit x) →
      x.job < s.jobs.next ∧ s'.callers.countP (Caller.adds x.job) = 0 ∧
        ∃ k : Nat, s.callers[k]? = some (Caller.adding x.job) ∧
        task s.jobs x.job = x := by
  cases h with
  | @pull _ job _ _ _ _ _ =>
      refine ⟨Nat.le_refl _, fun _ _ => Nat.le_refl _, fun x hx => ?_⟩
      cases job with
      | none => cases hx
      | some a => cases hx
  | finish _ hfree =>
      exact ⟨Nat.le_of_eq (free_next hfree).symm, fun _ _ => Nat.le_refl _,
        fun x hx => by cases hx⟩
  | @add k a src function arg jobs hk _ hnew =>
      obtain ⟨⟨ha, hnext⟩, -⟩ := newJob_some hnew
      refine ⟨by show s.jobs.next ≤ jobs.next; omega, fun b hb => ?_,
        fun x hx => by cases hx⟩
      show (s.callers.set k (.adding a)).countP _ ≤ _
      have henter := countP_enter (p := Caller.adds b) (y := .adding a) hk rfl
      rw [henter, if_neg (by rw [adds_adding]; omega)]
      exact Nat.le_refl _
  | refuse _ _ hnew =>
      exact ⟨(newJob_none hnew).1, fun _ _ => Nat.le_refl _, fun x hx => by cases hx⟩
  | @push k a jobs q hk _ hpush =>
      obtain ⟨-, -, hnext⟩ := jobqueuePush_rest hpush
      have hexit := fun b => countP_exit (p := Caller.adds b) (y := .posting) hk rfl
      refine ⟨Nat.le_of_eq hnext.symm, fun b _ => ?_, fun x hx => ?_⟩
      · rw [hexit b]
        exact Nat.le_add_right _ _
      · cases hx
        rw [task_job]
        obtain ⟨hcell, -⟩ := hR.of_adds hk
        have hplaces := hR.owned a
        rw [if_neg hcell, Pool.places] at hplaces
        have ha := hexit a
        rw [if_pos (adds_adding.mpr rfl)] at ha
        obtain ⟨j, hj⟩ := Option.ne_none_iff_exists'.mp hcell
        exact ⟨s.jobs.lt_next hj,
          by show (s.callers.set k .posting).countP _ = 0; omega, k, hk, rfl⟩
  | callerPost hk _ =>
      exact ⟨Nat.le_refl _, fun _ _ => Nat.le_of_eq (countP_set_same hk rfl),
        fun x hx => by cases hx⟩
  | callerUnlock hk =>
      exact ⟨Nat.le_refl _, fun _ _ => Nat.le_of_eq (countP_set_same hk rfl),
        fun x hx => by cases hx⟩
  | @clear _ job _ _ _ _ _ _ _ hfree _ =>
      refine ⟨Nat.le_of_eq (free_next hfree).symm, fun _ _ => Nat.le_refl _,
        fun x hx => ?_⟩
      cases job with
      | none => cases hx
      | some a => cases hx
  | _ => exact ⟨Nat.le_refl _, fun _ _ => Nat.le_refl _, fun x hx => by cases hx⟩

/-- A caller that is about to push has its job from before, or from this call. -/
theorem step_adding {e : Action} (hR : Refines s t) (h : Step s e s') {k a : Nat}
    (ha : s'.callers[k]? = some (.adding a)) :
    (s.callers[k]? = some (.adding a) ∧ task s'.jobs a = task s.jobs a) ∨ e = .add
    (task s'.jobs a) := by
  -- a caller that goes on to `d` is the only one that moves
  have other : ∀ {k' : Nat} {d : Caller}, (s.callers.set k' d)[k]?
      = some (.adding a) →
      k' ≠ k ∧ s.callers[k]? = some (.adding a) ∨ k' = k ∧ d = .adding a := by
    intro k' d hset
    by_cases hk : k' = k
    · subst hk
      obtain ⟨hlt, hd⟩ := List.getElem?_eq_some_iff.mp hset
      rw [List.getElem_set_self] at hd
      exact Or.inr ⟨rfl, hd⟩
    · rw [List.getElem?_set_ne hk] at hset
      exact Or.inl ⟨hk, hset⟩
  cases h with
  | finish hi hfree =>
      obtain ⟨j, hj, rfl⟩ := Heap.free_ok.mp hfree
      refine Or.inl ⟨ha, task_congr ?_⟩
      rw [Heap.cell_set_ne]
      rintro rfl
      exact hR.runs_not_adds hi ha
  | @clear _ job _ _ _ _ ho hlen hpull hfree _ =>
      obtain ⟨b, j, q, more, hpull', hj, hmem⟩ := hR.clear_ok hlen
      cases hpull.symm.trans hpull'
      obtain ⟨_, _, rfl⟩ := Heap.free_ok.mp hfree
      refine Or.inl ⟨ha, task_congr ?_⟩
      rw [Heap.cell_set_ne]
      rintro rfl
      exact (hR.of_adds ha).2 hmem
  | @add k' b src function arg jobs hk _ hnew =>
      obtain ⟨⟨hb, hnext⟩, hnone, -, htask, hsame⟩ := newJob_some hnew
      rcases other ha with ⟨-, hold⟩ | ⟨rfl, hd⟩
      · refine Or.inl ⟨hold, task_congr ?_⟩
        rw [hsame]
        rintro rfl
        exact (hR.of_adds hold).1 hnone
      · cases hd
        exact Or.inr (by rw [htask])
  | refuse _ _ hnew => exact Or.inl ⟨ha, task_congr (by rw [(newJob_none hnew).2])⟩
  | @push k' b jobs q hk _ hpush =>
      have hroom := jobqueuePush_room hpush
      obtain ⟨jobs', q', hpush', -, -, -, hwhat⟩ := jobqueuePush_fifo hR.fifo
        (by rw [hR.len, List.length_map]) (hR.of_adds hk).1 (hR.of_adds hk).2 hroom
      cases hpush.symm.trans hpush'
      rcases other ha with ⟨-, ha⟩ | ⟨-, hd⟩
      · exact Or.inl ⟨ha, task_congr (hwhat a)⟩
      · cases hd
  | callerPost _ _ =>
      rcases other ha with ⟨-, ha⟩ | ⟨-, hd⟩
      · exact Or.inl ⟨ha, rfl⟩
      · cases hd
  | callerUnlock _ =>
      rcases other ha with ⟨-, ha⟩ | ⟨-, hd⟩
      · exact Or.inl ⟨ha, rfl⟩
      · cases hd
  | _ => exact Or.inl ⟨ha, rfl⟩

theorem Fresh.step {e : Action} (hf : Fresh es s) (hR : Refines s t)
    (h : Step s e s') :
    Fresh (es ++ [e]) s' := by
  obtain ⟨hnext, hadds, hsubmit⟩ := step_fresh hR h
  have hold : ∀ a ∈ ((acts es).filterMap submitted).map Task.job,
      a < s'.jobs.next ∧ s'.callers.countP (Caller.adds a) = 0 := by
    intro a ha
    obtain ⟨hlt, hnone⟩ := hf.old a ha
    have := hadds a hlt
    omega
  have hadded : ∀ (k a : Nat), s'.callers[k]? = some (Caller.adding a) →
      Action.add (task s'.jobs a) ∈ es ++ [e] := by
    intro k a ha
    rcases step_adding hR h ha with ⟨hk, htask⟩ | rfl
    · rw [htask]
      exact List.mem_append_left _ (hf.added k a hk)
    · exact List.mem_append_right _ List.mem_cons_self
  have hgiven : ∀ x ∈ (acts es).filterMap submitted, Action.add x ∈ es ++ [e] :=
    fun x hx => List.mem_append_left _ (hf.given x hx)
  -- only a submission adds to the list
  have hone : (acts [e]).filterMap submitted = [] ∨
      ∃ x, e.view = some (.submit x) ∧ (acts [e]).filterMap submitted = [x] := by
    cases e with
    | seen a =>
        cases a with
        | submit x => exact Or.inr ⟨x, rfl, rfl⟩
        | _ => exact Or.inl rfl
    | _ => exact Or.inl rfl
  have happend : (acts (es ++ [e])).filterMap submitted =
      (acts es).filterMap submitted ++ (acts [e]).filterMap submitted := by
    rw [acts, List.filterMap_append, List.filterMap_append]
    rfl
  rcases hone with hnil | ⟨x, hx, hsingle⟩
  · rw [hnil, List.append_nil] at happend
    refine ⟨?_, ?_, hadded, ?_⟩
    · rw [happend]
      exact hf.nodup
    · rw [happend]
      exact hold
    · rw [happend]
      exact hgiven
  · obtain ⟨hlt, hzero, k, hk, htask⟩ := hsubmit x hx
    rw [hsingle] at happend
    have hmap : ((acts (es ++ [e])).filterMap submitted).map Task.job =
        ((acts es).filterMap submitted).map Task.job ++ [x.job] := by
      rw [happend, List.map_append, List.map_cons, List.map_nil]
    have hpos := countP_pos_of_get hk (adds_adding.mpr rfl)
    refine ⟨?_, ?_, hadded, ?_⟩
    · rw [hmap]
      refine List.nodup_append.mpr ⟨hf.nodup, List.nodup_singleton _,
        fun a ha b hb => ?_⟩
      rw [List.mem_singleton.mp hb]
      rintro rfl
      obtain ⟨-, hnone⟩ := hf.old _ ha
      omega
    · rw [hmap]
      intro a ha
      rcases List.mem_append.mp ha with ha | ha
      · exact hold a ha
      · rw [List.mem_singleton.mp ha]
        exact ⟨Nat.lt_of_lt_of_le hlt hnext, hzero⟩
    · rw [happend]
      intro y hy
      rcases List.mem_append.mp hy with hy | hy
      · exact hgiven y hy
      · rw [List.mem_singleton.mp hy, ← htask]
        exact List.mem_append_left _ (hf.added k _ hk)

theorem run_fresh (h : Trace Step (Pool.start n m) es s) : Fresh es s := by
  induction h with
  | nil =>
      refine ⟨List.nodup_nil, fun a ha => absurd ha List.not_mem_nil,
        fun k a hk => ?_, fun x hx => absurd hx List.not_mem_nil⟩
      cases List.eq_of_mem_replicate (List.mem_of_getElem? hk)
  | snoc hrun hstep ih =>
      obtain ⟨t, hR, -⟩ := run_simulates hrun
      exact ih.step hR hstep

/-- Where the pool is after a run, as a service, and what was seen. -/
structure Served (es : List Action) (s : Pool) (t : Service Task) : Prop where
  refines : Refines s t
  accounts : Accounts (acts es) t
  fresh : Fresh es s

theorem run_served (h : Trace Step (Pool.start n m) es s) : ∃ t, Served es s t := by
  obtain ⟨t, hR, htrace⟩ := run_simulates h
  exact ⟨t, hR, Service.accounts htrace, run_fresh h⟩

/-- Nothing is begun or finished twice. -/
theorem Served.nodup (h : Served es s t) : ((acts es).filterMap submitted).Nodup ∧
    ((acts es).filterMap called).Nodup ∧ ((acts es).filterMap finished).Nodup := by
  have hsub : ((acts es).filterMap submitted).Nodup :=
    List.Nodup.of_map _ h.fresh.nodup
  have hcalled : ((acts es).filterMap called).Nodup := by
    rw [← Multiset.coe_nodup] at hsub ⊢
    exact Multiset.nodup_of_le h.accounts.called_le hsub
  refine ⟨hsub, hcalled, ?_⟩
  rw [← Multiset.coe_nodup] at hcalled ⊢
  refine Multiset.nodup_of_le ?_ hcalled
  rw [h.accounts.running]
  exact Multiset.le_add_right _ _

/-! ## While the pool is not being destroyed -/

/-- A step after which the pool still serves. -/
def Serves (s : Pool) (e : Action) (s' : Pool) : Prop :=
  Step s e s' ∧ s'.keepalive = true

theorem keepalive_stays {e : Action} (h : Step s e s') (hk : s'.keepalive = true) :
    s.keepalive = true := by
  cases h with
  | destroy _ _ => cases hk
  | _ => exact hk

theorem serves_trace (h : Trace Step s es s') (hk : s'.keepalive = true) :
    Trace Serves s es s' := by
  induction h with
  | nil => exact .nil _
  | snoc _ hstep ih => exact (ih (keepalive_stays hstep hk)).snoc ⟨hstep, hk⟩

/-- What a step needs to know of the state before it. -/
def Sound (s : Pool) : Prop := Steady s ∧ ∃ t, Refines s t

theorem Sound.step {e : Action} (hs : Sound s) (h : Step s e s') : Sound s' := by
  obtain ⟨hsteady, t, hR⟩ := hs
  obtain ⟨t', hR', -⟩ := step_simulates _ _ _ _ hR h
  exact ⟨hsteady.step h, t', hR'⟩

theorem Sound.start (n m : Nat) : Sound (Pool.start n m) :=
  ⟨Steady.start n m, _, Refines.start n m⟩

theorem not_dropped {e : Action} (hs : Steady s) (h : Serves s e s') :
    ([e].filterMap Action.view).filterMap dropped = [] := by
  obtain ⟨hstep, hk⟩ := h
  cases hstep with
  | @pull _ job _ _ _ _ _ =>
      cases job with
      | none => rfl
      | some a => rfl
  | clear ho _ _ _ _ =>
      have hdown := hs.not_keepalive (by rw [ho]; rfl)
      exact absurd hk (by rw [show s.keepalive = false from hdown]; nofun)
  | _ => rfl

theorem run_drops_nothing (h : Trace Step (Pool.start n m) es s)
    (hk : s.keepalive = true) :
    (acts es).filterMap dropped = [] := by
  induction h with
  | nil => rfl
  | snoc hrun hstep ih =>
      rw [acts, List.filterMap_append, List.filterMap_append,
        not_dropped (run_steady hrun) ⟨hstep, hk⟩, List.append_nil]
      exact ih (keepalive_stays hstep hk)

theorem run_paid (hs : Sound s) (h : Trace Serves s es s') :
    s'.work + es.countP Action.own ≤ s.work + total Action.credit es := by
  rw [← total_toNat]
  refine Trace.account Sound Pool.work (fun e => e.own.toNat) Action.credit
    (fun _ _ _ hs hstep => hs.step hstep.1) (fun s e s' hs hstep => ?_) hs h
  obtain ⟨hsteady, t, hR⟩ := hs
  exact step_paid hsteady hR hstep.1 hstep.2

theorem credit_sum (es : List Action) :
    total Action.credit es = 24 * es.countP Action.adds
      + es.countP Action.wakes := by
  induction es with
  | nil => rfl
  | cons e es ih =>
      rw [total, List.countP_cons, List.countP_cons, ih]
      cases e with
      | add =>
          simp only [Action.credit, Action.adds, Action.wakes, if_true,
            Bool.false_eq_true, if_false]; omega
      | wake =>
          simp only [Action.credit, Action.adds, Action.wakes, if_true,
            Bool.false_eq_true, if_false]; omega
      | _ => simp [Action.credit, Action.adds, Action.wakes]

/-- The pool keeps its threads. -/
theorem step_length {e : Action} (h : Step s e s') :
    s'.workers.length = s.workers.length := by
  have hsignal : ∀ {ws : List Worker}, Signal s.workers ws →
      ws.length = s.workers.length := by
    intro ws h
    cases h with
    | one _ => exact List.length_set
    | nobody _ => rfl
  cases h with
  | post _ hws => exact List.length_set.trans (hsignal hws)
  | callerPost _ hws => exact hsignal hws
  | broadcast _ => exact List.length_map _
  | @clear _ _ _ more _ _ _ _ _ _ hws =>
      cases more with
      | true => exact hsignal hws
      | false => exact congrArg List.length hws
  | _ => first | rfl | exact List.length_set

theorem run_length (h : Trace Step (Pool.start n m) es s) : s.workers.length = n :=
  h.inv (fun s => s.workers.length = n) (fun _ _ _ hs hstep =>
    (step_length hstep).trans hs)
    (List.length_replicate ..)

theorem work_start (n m : Nat) : (Pool.start n m).work = 3 * n + 1 := by
  show 0 + total Worker.work (List.replicate n .starting)
      + total Caller.work (List.replicate m .out) + 1 = _
  rw [total_replicate, total_replicate]
  simp only [Worker.work, Caller.work]
  omega

theorem keepalive_of_own {e : Action} (h : Step s e s') (hown : e.own = true)
    (hk : s.keepalive = true) :
    s'.keepalive = true := by
  cases h with
  | destroy _ _ => cases hown
  | _ => exact hk

/-- Left to themselves the threads come to rest. -/
theorem Sound.comes_to_rest (hs : Sound s) (hk : s.keepalive = true) :
    ∃ es s', Trace Step s es s' ∧ (∀ e ∈ es, e.own = true) ∧ Sound s' ∧
      s'.keepalive = true ∧ Quiet s' := by
  have hdown : ∀ s e s', Sound s ∧ s.keepalive = true → e.own = true →
      Serves s e s' → s'.work < s.work := by
    rintro s e s' ⟨⟨hsteady, t, hR⟩, -⟩ hown hstep
    have hpaid := step_paid hsteady hR hstep.1 hstep.2
    rw [hown, Bool.toNat_true] at hpaid
    cases e with
    | internal => exact hpaid
    | seen a => exact hpaid
    | _ => cases hown
  have hkeep : ∀ s e s', Sound s ∧ s.keepalive = true → Serves s e s' →
      Sound s' ∧ s'.keepalive = true :=
    fun _ _ _ hs hstep => ⟨hs.1.step hstep.1, hstep.2⟩
  obtain ⟨es, s', htrace, hall, hrest⟩ :=
    Trace.rests Serves (fun s => Sound s ∧ s.keepalive = true) Pool.work
    (fun e => e.own = true) hkeep hdown ⟨hs, hk⟩
  have hinv := htrace.inv (fun s => Sound s ∧ s.keepalive = true) hkeep ⟨hs, hk⟩
  refine ⟨es, s', htrace.mono fun _ _ _ h => h.1, hall, hinv.1, hinv.2,
    fun e s'' hstep => ?_⟩
  cases hown : e.own with
  | false => rfl
  | true =>
      exact absurd hown (hrest e s'' ⟨hstep, keepalive_of_own hstep hown hinv.2⟩)

/-! ## One worker, one job -/

theorem quiet_of_asleep (hworkers : ∀ w ∈ s.workers, w = .asleep)
    (hcallers : ∀ c ∈ s.callers, c = .out) (ho : s.owner = .serving) : Quiet s := by
  have hw : ∀ {i : Nat} {w : Worker}, s.workers[i]? = some w → w = .asleep :=
    fun hi => hworkers _ (List.mem_of_getElem? hi)
  have hc : ∀ {k : Nat} {c : Caller}, s.callers[k]? = some c → c = .out :=
    fun hk => hcallers _ (List.mem_of_getElem? hk)
  intro e s' h
  cases h with
  | wake _ => rfl
  | add _ _ _ => rfl
  | refuse _ _ _ => rfl
  | destroy _ _ => rfl
  | poll h => rfl
  | broadcast h => rfl
  | cleared h _ => rfl
  | clear h _ _ _ _ => rw [ho] at h; cases h
  | created h _ => rw [ho] at h; cases h
  | push h _ _ => cases hc h
  | callerPost h _ => cases hc h
  | callerUnlock h => cases hc h
  | start h _ => cases hw h
  | test h => cases hw h
  | pass h _ => cases hw h
  | sleep h _ => cases hw h
  | again h => cases hw h
  | count h _ => cases hw h
  | pull h _ _ => cases hw h
  | post h _ => cases hw h
  | unlock h => cases hw h
  | skip h => cases hw h
  | call h _ => cases hw h
  | finish h _ => cases hw h
  | uncount h _ => cases hw h
  | finale h _ => cases hw h
  | leave h _ => cases hw h

/-- A job for a pool with one thread, which goes to sleep before it and after it. -/
theorem sample_run : ∃ es s es' s', Trace Step (Pool.start 1 1) es s ∧
    Trace Step s es' s' ∧
    (acts es).filterMap submitted = [⟨0, 7, 8⟩] ∧ s'.queue.len = 0 ∧
    s'.numThreadsWorking = 0 ∧
    s'.keepalive = true ∧ Quiet s' := by
  have h := (((Trace.nil (Pool.start 1 1)).snoc (Step.start (i := 0) rfl rfl)).snoc
    (Step.created rfl rfl)).snoc (Step.test (i := 0) rfl)
  have h := (h.snoc (Step.sleep (i := 0) rfl (by decide))).snoc
    (Step.add (k := 0) rfl rfl
      (rfl : newJob _ (fun _ => some ⟨none, 0, 0⟩) 7 8 = .ok (some 0, _)))
  have h := (h.snoc (Step.push (k := 0) rfl rfl rfl)).snoc
    (Step.callerPost (k := 0) rfl (.one (j := 0) rfl))
  have h' := ((h.onward.snoc (Step.callerUnlock (k := 0) rfl)).snoc
    (Step.pass (i := 0) rfl rfl)).snoc (Step.again (i := 0) rfl)
  have h' := ((h'.snoc (Step.count (i := 0) rfl rfl)).snoc
    (Step.pull (i := 0) rfl rfl rfl)).snoc (Step.unlock (i := 0) rfl)
  have h' :=
    (h'.snoc (Step.call (i := 0) rfl rfl)).snoc (Step.finish (i := 0) rfl rfl)
  have h' := ((h'.snoc (Step.uncount (i := 0) rfl rfl)).snoc
    (Step.test (i := 0) rfl)).snoc (Step.sleep (i := 0) rfl (by decide))
  exact ⟨_, _, _, _, h, h', rfl, rfl, rfl, rfl,
    quiet_of_asleep (by decide) (by decide) rfl⟩

/-- Two callers hand in a job each, the second one first, and the
thread has called one. -/
theorem sample_waiting : ∃ es s, Trace Step (Pool.start 1 2) es s ∧
    (acts es).filterMap submitted = [⟨1, 9, 10⟩, ⟨0, 7, 8⟩] ∧
    (acts es).filterMap left = [⟨1, 9, 10⟩] ∧
    (acts es).filterMap called = [⟨1, 9, 10⟩] := by
  have h := ((Trace.nil (Pool.start 1 2)).snoc (Step.start (i := 0) rfl rfl)).snoc
    (Step.created rfl rfl)
  have h := (h.snoc (Step.add (k := 0) rfl rfl
    (rfl : newJob _ (fun _ => some ⟨none, 0, 0⟩) 7 8 = .ok (some 0, _)))).snoc
    (Step.add (k := 1) rfl rfl
      (rfl : newJob _ (fun _ => some ⟨none, 0, 0⟩) 9 10 = .ok (some 1, _)))
  have h := ((h.snoc (Step.push (k := 1) rfl rfl rfl)).snoc
    (Step.callerPost (k := 1) rfl (.nobody (by decide)))).snoc
      (Step.callerUnlock (k := 1) rfl)
  have h := ((h.snoc (Step.push (k := 0) rfl rfl rfl)).snoc
    (Step.callerPost (k := 0) rfl (.nobody (by decide)))).snoc
      (Step.callerUnlock (k := 0) rfl)
  have h :=
    (((h.snoc (Step.test (i := 0) rfl)).snoc (Step.pass (i := 0) rfl rfl)).snoc
    (Step.again (i := 0) rfl)).snoc (Step.count (i := 0) rfl rfl)
  have h := ((h.snoc (Step.pull (i := 0) rfl rfl rfl)).snoc
    (Step.post (i := 0) rfl (.nobody (by decide)))).snoc (Step.unlock (i := 0) rfl)
  exact ⟨_, _, h.snoc (Step.call (i := 0) rfl rfl), rfl, rfl, rfl⟩

/-! ## The results -/

/-- **First come, first served.**  Whatever the threads do, the jobs leave the queue
in the order in which they were pushed, and `len` of them are still in it.  What is
called is what `thpool_add_work` was given, function and argument; none is called or
finished twice. -/
theorem jobs_in_order (h : Trace Step (Pool.start n m) es s) :
    ∃ waiting : List Task,
      (acts es).filterMap submitted = (acts es).filterMap left ++ waiting ∧
      s.queue.len = waiting.length ∧
      (acts es).filterMap called ⊆ (acts es).filterMap submitted ∧
      (∀ x ∈ (acts es).filterMap submitted, Action.add x ∈ es) ∧
      ((acts es).filterMap submitted).Nodup ∧ ((acts es).filterMap called).Nodup ∧
      ((acts es).filterMap finished).Nodup := by
  obtain ⟨t, hserved⟩ := run_served h
  obtain ⟨hsub, hcalled, hfin⟩ := hserved.nodup
  refine ⟨t.waiting, hserved.accounts.order, hserved.refines.len, fun x hx => ?_,
    hserved.fresh.given, hsub, hcalled, hfin⟩
  exact Multiset.mem_coe.mp (Multiset.mem_of_le hserved.accounts.called_le
    (Multiset.mem_coe.mpr hx))

/-- Two jobs, of which one is still in the queue. -/
theorem jobs_in_order_sample : ∃ es s, Trace Step (Pool.start 1 2) es s ∧
    (acts es).filterMap left = [⟨1, 9, 10⟩] ∧
    (acts es).filterMap called = [⟨1, 9, 10⟩] ∧
    s.queue.len = 1 ∧
    ∃ waiting : List Task, waiting = [⟨0, 7, 8⟩] ∧
      (acts es).filterMap submitted = (acts es).filterMap left ++ waiting ∧
      (acts es).filterMap called ⊆ (acts es).filterMap submitted ∧
      (∀ x ∈ (acts es).filterMap submitted, Action.add x ∈ es) ∧
      ((acts es).filterMap submitted).Nodup ∧ ((acts es).filterMap called).Nodup ∧
      ((acts es).filterMap finished).Nodup := by
  obtain ⟨es, s, h, hsubmitted, hleft, hcalled⟩ := sample_waiting
  obtain ⟨waiting, horder, hlen, hrest⟩ := jobs_in_order h
  have hwaiting : waiting = [⟨0, 7, 8⟩] := by
    rw [hsubmitted, hleft] at horder
    exact (List.cons.inj horder).2.symm
  refine ⟨es, s, h, hleft, hcalled, ?_, waiting, hwaiting, horder, hrest⟩
  rw [hlen, hwaiting]
  rfl

/-- **No wake-up is lost.**  If the pool has a thread and no thread can go on by
itself, then every job that was pushed is finished, every worker sleeps, and no call
of `thpool_add_work` is held up. -/
theorem all_jobs_finished (h : Trace Step (Pool.start n m) es s) (hn : 0 < n)
    (hk : s.keepalive = true) (hquiet : Quiet s) :
    ((acts es).filterMap finished).Perm ((acts es).filterMap submitted) ∧
      s.queue.len = 0 ∧
      (∀ w ∈ s.workers, w = .asleep) ∧ ∀ c ∈ s.callers, c = .out := by
  obtain ⟨t, hserved⟩ := run_served h
  have hs := run_steady h
  have hsome : s.workers ≠ [] := fun hnil => by
    have hlen := run_length h
    rw [hnil, List.length_nil] at hlen
    omega
  obtain ⟨hwaiting, htaken, hrunning, hout⟩ :=
    hquiet.rest hs hserved.refines hk hsome
  refine ⟨?_, ?_, hquiet.asleep hs hserved.refines hk, hout⟩
  · have hall :=
      hserved.accounts.all_finished hwaiting htaken hrunning (run_drops_nothing h hk)
    exact (Multiset.coe_eq_coe.mp hall).symm
  · rw [hserved.refines.len, hwaiting]
    rfl

theorem all_jobs_finished_sample : ∃ es s, Trace Step (Pool.start 1 1) es s ∧
    ((acts es).filterMap finished).Perm ((acts es).filterMap submitted) ∧
      s.queue.len = 0 ∧
      (∀ w ∈ s.workers, w = .asleep) ∧ ∀ c ∈ s.callers, c = .out := by
  obtain ⟨es, s, es', s', h, h', -, -, -, hk, hquiet⟩ := sample_run
  exact ⟨_, s', h.append h', all_jobs_finished (h.append h') (by decide) hk hquiet⟩

/-- **The pool comes to rest.**  The threads take at most 24 steps for a call of
`thpool_add_work` and one for a wake-up without a signal, next to three for each
thread at the start; and from wherever they are, they get to where none can go on. -/
theorem steps_are_bounded (h : Trace Step (Pool.start n m) es s)
    (hk : s.keepalive = true) :
    es.countP Action.own ≤ 3 * n + 1 + 24 * es.countP Action.adds
      + es.countP Action.wakes ∧
      ∃ es' s', Trace Step s es' s' ∧ (∀ e ∈ es', e.own = true) ∧
      s'.keepalive = true ∧ Quiet s' := by
  constructor
  · have hpaid := run_paid (Sound.start n m) (serves_trace h hk)
    rw [work_start, credit_sum] at hpaid
    omega
  · obtain ⟨t, hR, -⟩ := run_simulates h
    obtain ⟨es', s', htrace, hown, -, hk', hquiet⟩ :=
      Sound.comes_to_rest ⟨run_steady h, t, hR⟩ hk
    exact ⟨es', s', htrace, hown, hk', hquiet⟩

theorem steps_are_bounded_sample : ∃ es s, Trace Step (Pool.start 1 1) es s ∧
    es.countP Action.own ≤ 3 * 1 + 1 + 24 * es.countP Action.adds
      + es.countP Action.wakes ∧
      ∃ es' s', Trace Step s es' s' ∧ (∀ e ∈ es', e.own = true) ∧
      s'.keepalive = true ∧ Quiet s' := by
  obtain ⟨es, s, es', s', h, h', -, -, -, hk, -⟩ := sample_run
  exact ⟨_, s', h.append h', steps_are_bounded (h.append h') hk⟩

end Thpool

end Pyramid
