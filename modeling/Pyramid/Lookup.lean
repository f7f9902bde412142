/-
# `Pyramid.Lookup` — asking for a job by its id (`server_helper.c`, `jobs.c`)

A CLI asks for the result of a job by a 64-bit number, and
`sh_display_job_results` has one too; `getJobNode` takes an `int`.  What it
looks for is the number modulo `2^32`.

`Adding` is a server to which jobs are added; what else is done to it leaves
the list of the jobs and their ids as they are.
-/
import Pyramid.Shows
import Pyramid.Display

namespace Pyramid

/-! ## Servers with jobs -/

/-- What `getJobNode` sees of a job. -/
def JobNode.place (v : JobNode) : Ptr × Ptr × Int := (v.prev, v.next, v.job.id)

/-- The jobs are the same ones, in the same list; their clients and
results may have changed. -/
structure KeepsJobList (s s' : Server) : Prop where
  head : s'.pHead = s.pHead
  tail : s'.pTail = s.pTail
  place : ∀ a, (s'.jobs.cell a).map JobNode.place = (s.jobs.cell a).map JobNode.place

/-- Jobs with these ids were added, no two of them with the same. -/
inductive Adding (supply : JobSupply) : Server → List Int → Prop
  | start {reg : Registry} {config : Config} {s : Server} :
      initializeJobDll supply (Server.boot reg config) = .ok s → Adding supply s []
  | add {s s' : Server} {ids : List Int} {jobId : Int} {task p : Ptr} :
      Adding supply s ids →
      jobId ∉ ids → intMin ≤ jobId → jobId ≤ intMax →
      addJob supply s jobId task = .ok (p, s') →
      Adding supply s' (ids ++ [jobId])
  | work {s s' : Server} {ids : List Int} : Adding supply s ids → KeepsJobList s s' →
      Adding supply s' ids

theorem KeepsJobList.listed {s s' : Server} {order : List Nat}
    (h : KeepsJobList s s') (hl : JobList s.jobs s.pHead s.pTail order) :
    JobList s'.jobs s'.pHead s'.pTail order := by
  obtain ⟨p, hp, hlist, hnd, htail⟩ := hl
  rw [h.head, h.tail]
  refine ⟨p, hp, hlist.frame (fun a _ v hv => ?_) fun _ hF => hF, hnd, htail⟩
  obtain ⟨w, hw, hplace⟩ :=
    Option.map_eq_some_iff.mp ((h.place a).trans (by rw [hv]; rfl))
  exact ⟨w, hw, congrArg (·.2.1) hplace, congrArg (·.1) hplace⟩

/-- The jobs of the list have these ids. -/
def HasIds (s : Server) (order : List Nat) (ids : List Int) : Prop :=
  order.map (fun j => (s.jobs.cell j).map (·.job.id)) = ids.map some

theorem Adding.listed {supply : JobSupply} {s : Server} {ids : List Int}
    (h : Adding supply s ids) :
    ∃ order, JobList s.jobs s.pHead s.pTail order ∧ HasIds s order ids ∧ ids.Nodup ∧
      ∀ id ∈ ids, intMin ≤ id ∧ id ≤ intMax := by
  induction h with
  | start hinit =>
      obtain ⟨w, -, rfl⟩ := initializeJobDll_ok hinit
      refine ⟨[],
        ⟨_, rfl, ⟨Leads.refl _ _, _, Heap.cell_set_self (Heap.cell_grow_self _ _) _,
          rfl,
        Leads.refl _ _⟩, List.pairwise_singleton _ _, rfl⟩, rfl, List.nodup_nil,
        fun id hid => absurd hid List.not_mem_nil⟩
  | @add s s' ids jobId task p hbefore hnew hmin hmax hadd ih =>
      obtain ⟨order, hlist, hids, hnd, hrange⟩ := ih
      obtain ⟨t, v, w, u, ht, hv, -, -, -, hadded⟩ := addJob_ok jobId task hadd
      refine ⟨order ++ [s.jobs.next], hadded.listed ht hv hlist, ?_, ?_, ?_⟩
      · rw [HasIds, List.map_append, List.map_append]
        refine congrArg₂ _ (Eq.trans (List.map_congr_left fun j hj => ?_) hids) ?_
        · have hjn : j ≠ s.jobs.next := by
            rintro rfl
            obtain ⟨p, -, hseg, -, -⟩ := hlist
            obtain ⟨x, hx⟩ := hseg.cell_of_mem (List.mem_cons_of_mem _ hj)
            rw [s.jobs.fresh _ (Nat.le_refl _)] at hx
            cases hx
          by_cases hjt : j = t
          · rw [hjt, hadded.last, hv]
            rfl
          · rw [hadded.old j hjt hjn]
        · rw [List.map_singleton, List.map_singleton, hadded.new, Option.map_some]
      · exact List.nodup_append.mpr ⟨hnd, List.pairwise_singleton _ _,
          fun a ha b hb heq =>
          hnew (by rwa [← List.mem_singleton.mp hb, ← heq])⟩
      · intro id hid
        rcases List.mem_append.mp hid with hid | hid
        · exact hrange id hid
        · rw [List.mem_singleton.mp hid]
          exact ⟨hmin, hmax⟩
  | @work s s' ids hbefore hsame ih =>
      obtain ⟨order, hlist, hids, hrest⟩ := ih
      refine ⟨order, hsame.listed hlist,
        Eq.trans (List.map_congr_left fun j _ => ?_) hids, hrest⟩
      have hplace := congrArg (Option.map (·.2.2)) (hsame.place j)
      rwa [Option.map_map, Option.map_map] at hplace

namespace HasIds
variable {s : Server} {order : List Nat} {ids : List Int}

/-- The ids are those of the jobs in the list. -/
theorem mem_iff (h : HasIds s order ids) {id : Int} :
    id ∈ ids ↔ ∃ j ∈ order, ∃ v, s.jobs.cell j = some v ∧ v.job.id = id := by
  have hmem : id ∈ ids ↔ some id ∈ ids.map some := by simp
  rw [hmem, ← h]
  simp only [List.mem_map, Option.map_eq_some_iff]

/-- No two jobs have the same. -/
theorem unique (h : HasIds s order ids) (hnd : ids.Nodup) {j k : Nat}
    (hj : j ∈ order) (hk : k ∈ order) {v w : JobNode} (hv : s.jobs.cell j = some v)
    (hw : s.jobs.cell k = some w) (heq : v.job.id = w.job.id) : j = k := by
  have hmap : (order.map fun j => (s.jobs.cell j).map (·.job.id)).Nodup := by
    rw [h]
    exact hnd.map fun _ _ hab => Option.some.inj hab
  refine List.inj_on_of_nodup_map hmap hj hk ?_
  rw [hv, hw, Option.map_some, Option.map_some, heq]

end HasIds

/-! ## The answer -/

/-- What is said of a job. -/
def JobNode.report (v : JobNode) : JobReply :=
  if v.numClients ≠ 0 then .inProgress else .result v.job.result

theorem JobNode.report_ne (v : JobNode) : v.report ≠ .invalid := by
  unfold JobNode.report
  split
  · exact fun h => by cases h
  · exact fun h => by cases h

theorem JobReply.text_fits (jobId : Int) (r : JobReply) :
    0 ∉ r.text jobId ∧ 0 < (r.text jobId).length ∧ (r.text jobId).length ≤ 1016 := by
  have hid := decimal_length jobId
  cases r with
  | invalid =>
      show 0 ∉ ascii "\nInvalid Job Id " ∧ 0 < (ascii "\nInvalid Job Id ").length ∧
        (ascii "\nInvalid Job Id ").length ≤ 1016
      exact ⟨by decide, by decide, by decide⟩
  | inProgress =>
      have hnul : 0 ∉ ascii "\nJob " ++ decimal jobId
          ++ ascii ", Result : Job still in Progress.." := by
        simp only [List.mem_append, decimal_nul, or_false]
        exact fun hmem => hmem.elim (by decide) (by decide)
      have hlen : (JobReply.inProgress.text jobId).length
          = 5 + (decimal jobId).length + 34 := by
        simp only [JobReply.text, List.length_append]
        rfl
      exact ⟨hnul, by omega, by omega⟩
  | result v =>
      have hv := decimal_length v
      have hnul : 0 ∉ ascii "\nJob " ++ decimal jobId ++ ascii ", Result : "
          ++ decimal v := by
        simp only [List.mem_append, decimal_nul, or_false]
        exact fun hmem => hmem.elim (by decide) (by decide)
      have hlen : ((JobReply.result v).text jobId).length
          = 5 + (decimal jobId).length + 11 + (decimal v).length := by
        simp only [JobReply.text, List.length_append]
        rfl
      exact ⟨hnul, by omega, by omega⟩

/-- The answer is sent. -/
theorem reply_sent (s : Server) (cfd jobId : Int) (r : JobReply) :
    ∃ s', shSendEncodedData s cfd (snprintf 1024 (r.text jobId)) 5 = .ok s' := by
  obtain ⟨hnul, hpos, hle⟩ := r.text_fits jobId
  have htext : cString (snprintf 1024 (r.text jobId)) = .ok (r.text jobId) := by
    rw [cString_snprintf (by decide) hnul, List.take_of_length_le (by omega)]
  obtain ⟨frame, hsend, -⟩ :=
    (@shSendEncodedData_cli s cfd _ _ htext hpos (by omega)).1 hle
  exact ⟨_, hsend⟩

/-- The answer is about the job with the number that was asked for, and says that
there is none exactly when there is none. -/
def AnswersFor (s : Server) (cfd jobId : Int) : Prop :=
  ∃ reply s', shDisplayJobResults s cfd jobId = .ok (reply, s') ∧
    (reply = .invalid ↔ ∀ j ∈ s.jobList, ∀ v, s.jobs.cell j = some v →
      v.job.id ≠ jobId) ∧
    ∀ j ∈ s.jobList, ∀ v, s.jobs.cell j = some v → v.job.id = jobId →
    reply = v.report

section Lookup
variable {supply : JobSupply} {s : Server} {ids : List Int}

/-- Which job is reported on: the one with the number as an `int`. -/
theorem shDisplayJobResults_cases {order : List Nat}
    (hl : JobList s.jobs s.pHead s.pTail order) (cfd jobId : Int) :
    (∃ s', shDisplayJobResults s cfd jobId = .ok (.invalid, s') ∧
        ∀ j ∈ order, ∀ v, s.jobs.cell j = some v → v.job.id ≠ toInt32 jobId) ∨
      ∃ j v s', shDisplayJobResults s cfd jobId = .ok (v.report, s') ∧ j ∈ order ∧
        s.jobs.cell j = some v ∧ v.job.id = toInt32 jobId := by
  rcases hl.getJobNode (toInt32 jobId) with ⟨hget, hnone⟩ | ⟨j, v, hget, hj, hv, hid⟩
  · obtain ⟨s', hsend⟩ := reply_sent s cfd jobId .invalid
    refine Or.inl ⟨s', ?_, hnone⟩
    simp only [shDisplayJobResults, hget, ok_bind, hsend]
  · obtain ⟨s', hsend⟩ := reply_sent s cfd jobId v.report
    refine Or.inr ⟨j, v, s', ?_, hj, hv, hid⟩
    rw [JobNode.report] at hsend ⊢
    simp only [shDisplayJobResults, hget, ok_bind, Heap.load_some hv, hsend]

/-- The answer is for the number that was asked for, unless that is outside the range
of `int` and an added job has the id that is left of it. -/
theorem lookup_iff (h : Adding supply s ids) (cfd jobId : Int) :
    AnswersFor s cfd jobId ↔ (toInt32 jobId ∈ ids → toInt32 jobId = jobId) := by
  obtain ⟨order, hl, hids, hnd, hrange⟩ := h.listed
  rw [AnswersFor, hl.jobList_eq]
  rcases shDisplayJobResults_cases hl cfd jobId with
    ⟨s', hrun, hnone⟩ | ⟨j, v, s', hrun, hj, hv, hid⟩
  · -- nothing has the id looked for, and so nothing has the number
    have hno : toInt32 jobId ∉ ids := fun hmem => by
      obtain ⟨j, hj, v, hv, hid⟩ := hids.mem_iff.mp hmem
      exact hnone j hj v hv hid
    have hnumber : ∀ j ∈ order, ∀ v, s.jobs.cell j = some v → v.job.id ≠ jobId := by
      intro j hj v hv hid
      obtain ⟨hmin, hmax⟩ := hrange jobId (hids.mem_iff.mpr ⟨j, hj, v, hv, hid⟩)
      exact hnone j hj v hv (hid.trans (toInt32_of_range hmin hmax).symm)
    exact iff_of_true ⟨.invalid, s', hrun, iff_of_true rfl hnumber,
      fun j hj v hv hid => absurd hid (hnumber j hj v hv)⟩ fun hmem =>
      absurd hmem hno
  · have hmem : toInt32 jobId ∈ ids := hids.mem_iff.mpr ⟨j, hj, v, hv, hid⟩
    constructor
    · rintro ⟨reply, s'', hrun', hinvalid, -⟩ -
      cases hrun.symm.trans hrun'
      by_contra hne
      refine v.report_ne (hinvalid.mpr fun k hk w hw hkid => ?_)
      obtain ⟨hmin, hmax⟩ := hrange jobId (hids.mem_iff.mpr ⟨k, hk, w, hw, hkid⟩)
      exact hne (toInt32_of_range hmin hmax)
    · intro hsame
      have hnumber : v.job.id = jobId := hid.trans (hsame hmem)
      refine ⟨v.report, s', hrun, iff_of_false v.report_ne fun hall =>
        hall j hj v hv hnumber, fun k hk w hw hkid => ?_⟩
      cases hids.unique hnd hj hk hv hw (hnumber.trans hkid.symm)
      cases hv.symm.trans hw
      rfl

/-- Only a number with an added id is that of a job. -/
theorem Adding.no_job (h : Adding supply s ids) {jobId : Int} (hnew : jobId ∉ ids) :
    ∀ j ∈ s.jobList, ∀ v, s.jobs.cell j = some v → v.job.id ≠ jobId := by
  obtain ⟨order, hl, hids, -, -⟩ := h.listed
  rw [hl.jobList_eq]
  exact fun j hj v hv hid => hnew (hids.mem_iff.mpr ⟨j, hj, v, hv, hid⟩)

end Lookup

/-- Job 1 is added, and its result asked for. -/
theorem lookup_sample :
    ∃ s, Adding JobSupply.zeros s [1] ∧ AnswersFor s 5 1 := by
  have hinit : ∃ s, initializeJobDll JobSupply.zeros
      (Server.boot Registry.zeroed Config.sample)
      = .ok s ∧ ∃ p s', addJob JobSupply.zeros s 1 none = .ok (p, s') :=
    ⟨_, rfl, _, _, rfl⟩
  obtain ⟨s, hs, p, s', hadd⟩ := hinit
  have h : Adding JobSupply.zeros s' [1] :=
    (Adding.start hs).add List.not_mem_nil (by decide) (by decide) hadd
  exact ⟨s', h, (lookup_iff h 5 1).mpr fun _ => rfl⟩

/-- Job 1 is added, and the result of job `2^32 + 1` asked for: the
answer is about job 1. -/
theorem wrapped_number_answered :
    ∃ s, Adding JobSupply.zeros s [1] ∧ ¬ AnswersFor s 5 4294967297 := by
  have hinit : ∃ s, initializeJobDll JobSupply.zeros
      (Server.boot Registry.zeroed Config.sample)
      = .ok s ∧ ∃ p s', addJob JobSupply.zeros s 1 none = .ok (p, s') :=
    ⟨_, rfl, _, _, rfl⟩
  obtain ⟨s, hs, p, s', hadd⟩ := hinit
  have h : Adding JobSupply.zeros s' [1] :=
    (Adding.start hs).add List.not_mem_nil (by decide) (by decide) hadd
  refine ⟨s', h, ?_⟩
  rintro ⟨reply, t, hrun, hinvalid, -⟩
  obtain ⟨order, hl, hids, -, -⟩ := h.listed
  rcases shDisplayJobResults_cases hl 5 4294967297 with
    ⟨t', hrun', hnone⟩ | ⟨j, v, t', hrun', -⟩
  · -- job 1 is in the list
    obtain ⟨j, hj, v, hv, hid⟩ := hids.mem_iff.mp (List.mem_singleton_self 1)
    exact hnone j hj v hv hid
  · cases hrun'.symm.trans hrun
    exact v.report_ne (hinvalid.mpr (h.no_job (by decide)))

end Pyramid
