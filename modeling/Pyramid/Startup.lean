/-
# `Pyramid.Startup` — what an `initJob` that starts nothing leaves behind

`initJob` puts the new job into the list before it looks for clients, and takes
nothing back when there is none or when the division fails.  So every call that
gets past the check of its ids has changed the list when it returns
(`initJob_adds`).
-/
import Pyramid.Deliveries
import Pyramid.Queueing

namespace Pyramid

/-- What keeps `initJob` from starting the job. -/
def NotStartable (s : Server) (groupId jobId system : Int) : Prop :=
  groupId ≤ 0 ∨ jobId < 0 ∨ serverGetClientGidHead groupId.toNat = none ∨
    s.idleIn groupId.toNat = .ok none ∨ system ≠ 0

/-- Every client's flag and job, and the list of jobs, are as they were. -/
structure Untouched (s s' : Server) : Prop where
  seats : ∀ c, (s'.reg.infos.cell c).map ClientInfo.toSeat
    = (s.reg.infos.cell c).map ClientInfo.toSeat
  first : s'.pHead = s.pHead
  last : s'.pTail = s.pTail
  jobs : ∀ j, s'.jobs.cell j = s.jobs.cell j

/-- A call that cannot start the job returns false, and nobody can
tell that it was made. -/
def LeavesNoTrace (supply : JobSupply) (s : Server) (groupId jobId taskType : Int)
    (inputFile : Bytes) (system : Int) : Prop :=
  NotStartable s groupId jobId system →
    ∃ s', initJob supply s groupId jobId taskType inputFile system = .ok (false, s')
      ∧ Untouched s s'

section Startup
variable {supply : JobSupply} {s s' : Server} {groupId jobId taskType system : Int}
  {inputFile : Bytes}

/-- With valid ids the list has a new last job, whatever is returned. -/
theorem initJob_adds {started : Bool} (hids : ¬ (groupId ≤ 0 ∨ jobId < 0))
    (hr : initJob supply s groupId jobId taskType inputFile system
      = .ok (started, s')) :
    ∃ t j, s.pTail = some t ∧ s'.pTail = some j ∧ s.jobs.cell j = none ∧ t ≠ j := by
  rcases initJob_hands hr with ⟨hbad, -⟩ | ⟨-, j, tasks, ds, hlast, hfresh, -⟩
  · exact absurd hbad hids
  rcases initJob_cases hr with ⟨hbad, -⟩ | ⟨task, tasks, k, s₁, s₂, v, hinit, -⟩
  · exact absurd hbad hids
  obtain ⟨t, u, -, -, ht, hu, -⟩ := addJob_ok jobId task hinit.added
  refine ⟨t, j, ht, hlast, hfresh, ?_⟩
  rintro rfl
  cases hfresh.symm.trans hu

theorem initJob_invalid (hids : groupId ≤ 0 ∨ jobId < 0) :
    initJob supply s groupId jobId taskType inputFile system = .ok (false, s) := by
  rw [initJob, if_pos hids]

/-- Nothing is left behind exactly if the ids are not valid, or nothing stands in
the way of the job. -/
theorem no_trace_iff (supply : JobSupply) (s : Server) (groupId jobId taskType : Int)
    (inputFile : Bytes) (system : Int) :
    LeavesNoTrace supply s groupId jobId taskType inputFile system ↔
      (groupId ≤ 0 ∨ jobId < 0) ∨
      ((∃ cgh, serverGetClientGidHead groupId.toNat = some cgh) ∧
        s.idleIn groupId.toNat ≠ .ok none ∧ system = 0) := by
  constructor
  · intro h
    by_cases hids : groupId ≤ 0 ∨ jobId < 0
    · exact Or.inl hids
    -- a call that keeps the promise returns, and has added a job
    have hstart : ¬ NotStartable s groupId jobId system := by
      intro hno
      obtain ⟨s', hr, huntouched⟩ := h hno
      obtain ⟨t, j, ht, hj, -, hne⟩ := initJob_adds hids hr
      have hlast := huntouched.last
      rw [ht, hj] at hlast
      exact hne (Option.some.inj hlast).symm
    refine Or.inr ⟨Option.ne_none_iff_exists'.mp fun hnone => ?_,
      fun hidle => ?_, ?_⟩
    · exact hstart (Or.inr (Or.inr (Or.inl hnone)))
    · exact hstart (Or.inr (Or.inr (Or.inr (Or.inl hidle))))
    · by_contra hsystem
      exact hstart (Or.inr (Or.inr (Or.inr (Or.inr hsystem))))
  · rintro (hids | ⟨⟨cgh, hgid⟩, hidle, hsystem⟩) hno
    · exact ⟨s, initJob_invalid hids, fun _ => rfl, rfl, rfl, fun _ => rfl⟩
    · rcases hno with hbad | hbad | hbad | hbad | hbad
      · exact ⟨s, initJob_invalid (Or.inl hbad), fun _ => rfl, rfl, rfl,
          fun _ => rfl⟩
      · exact ⟨s, initJob_invalid (Or.inr hbad), fun _ => rfl, rfl, rfl,
          fun _ => rfl⟩
      · cases hgid.symm.trans hbad
      · exact absurd hbad hidle
      · exact absurd hsystem hbad

end Startup

/-- The two clients of `Server.grouped`, both idle. -/
def Server.vacant : Server := { Server.grouped with
  reg := { Server.grouped.reg with
    infos := (Heap.empty.grow (some ⟨none, none, some 0, 1, 5, 0, 0, false,
      none⟩)).grow
      (some ⟨none, none, some 1, 1, 6, 0, 0, false, none⟩) } }

/-- The division of job 8 fails: its clients stay reserved, and the
job stays in the list. -/
theorem failed_division_leaves_job :
    NotStartable Server.vacant 1 8 1 ∧
    (initJob JobSupply.zeros Server.vacant 1 8 101 (ascii "in") 1).toOption.map (fun r =>
      (r.1, (r.2.reg.infos.cell 0).map ClientInfo.toSeat, r.2.pTail))
        = some (false, some ⟨true, some 2⟩, some 2) ∧
    ¬ LeavesNoTrace JobSupply.zeros Server.vacant 1 8 101 (ascii "in") 1 := by
  have hno : NotStartable Server.vacant 1 8 1 :=
    Or.inr (Or.inr (Or.inr (Or.inr (by decide))))
  refine ⟨hno, by decide +kernel, fun htrace => ?_⟩
  obtain ⟨s', hr, huntouched⟩ := htrace hno
  obtain ⟨t, j, ht, hj, -, hne⟩ := initJob_adds (by decide) hr
  have hlast := huntouched.last
  rw [ht, hj] at hlast
  exact hne (Option.some.inj hlast).symm

end Pyramid
