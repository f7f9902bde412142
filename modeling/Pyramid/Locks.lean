/-
# `Pyramid.Locks` — the mutexes of the jobs

`addJob` locks the mutex of the last job, makes the new job the last one, and
unlocks the mutex of the last job: the one it locked stays locked, and the one
it unlocks was not locked.  From then on a result for the older job blocks for
ever.  `updateJobResult` by itself unlocks what it locked.  So the locks are
released in exactly the runs in which no job is added (`locks_released_iff`).

Between the calls clients are given to the jobs, as `initJob` does it.
-/
import Pyramid.Server

namespace Pyramid

/-! ## What a call does to the jobs -/

/-- The part of a job that has nothing to do with its clients. -/
def JobNode.state (v : JobNode) : Bool × Int := (v.lock, v.job.result)

/-- No mutex is touched, no result, and not which job is the last. -/
structure SameJobs (s s' : Server) : Prop where
  mutexes : s'.mutexes = s.mutexes
  tail : s'.pTail = s.pTail
  states : ∀ j, (s'.jobs.cell j).map JobNode.state
    = (s.jobs.cell j).map JobNode.state

namespace SameJobs

variable {s s' s'' : Server}

theorem refl (s : Server) : SameJobs s s := ⟨rfl, rfl, fun _ => rfl⟩

theorem trans (h : SameJobs s s') (h' : SameJobs s' s'') : SameJobs s s'' :=
  ⟨h'.mutexes.trans h.mutexes, h'.tail.trans h.tail,
    fun j => (h'.states j).trans (h.states j)⟩

/-- A call that changes no job. -/
theorem of_eq (hjobs : s'.jobs = s.jobs) (hmutexes : s'.mutexes = s.mutexes)
    (htail : s'.pTail = s.pTail) :
    SameJobs s s' := ⟨hmutexes, htail, fun j => by rw [hjobs]⟩

/-- A change of a job that leaves its mutex and its result alone. -/
theorem of_modify {p : Ptr} {f : JobNode → JobNode}
    (hjobs : s.jobs.modify p f = .ok s'.jobs) (hmutexes : s'.mutexes = s.mutexes)
    (htail : s'.pTail = s.pTail) (hf : ∀ v, (f v).state = v.state) :
    SameJobs s s' := by
  obtain ⟨a, v, -, hv, heq⟩ := Heap.modify_ok.mp hjobs
  refine ⟨hmutexes, htail, fun j => ?_⟩
  rw [heq]
  exact Heap.map_cell_set _ hv (hf v) j

theorem locks (h : SameJobs s s') (j : Nat) :
    (s'.jobs.cell j).map (·.lock) = (s.jobs.cell j).map (·.lock) := by
  have hstate := congrArg (Option.map Prod.fst) (h.states j)
  rw [Option.map_map, Option.map_map] at hstate
  exact hstate

theorem results (h : SameJobs s s') (j : Nat) :
    (s'.jobs.cell j).map (·.job.result) = (s.jobs.cell j).map (·.job.result) := by
  have hstate := congrArg (Option.map Prod.snd) (h.states j)
  rw [Option.map_map, Option.map_map] at hstate
  exact hstate

end SameJobs

theorem setBusy_sameJobs {s s' : Server} {ci : Ptr} {busy : Bool}
    (h : setBusy s ci busy = .ok s') :
    SameJobs s s' := by
  obtain ⟨c, v, -, -, rfl⟩ := setBusy_ok h
  exact SameJobs.of_eq rfl rfl rfl

theorem serverUpdateJobNode_sameJobs {s s' : Server} {ci : Ptr} {j : Nat}
    (h : serverUpdateJobNode s ci j = .ok s') : SameJobs s s' := by
  obtain ⟨c, v, -, -, rfl⟩ := serverUpdateJobNode_ok h
  exact SameJobs.of_eq rfl rfl rfl

theorem shSendEncodedData_sameJobs {s s' : Server} {fd : Int} {data : Bytes}
    {type : Int} (h : shSendEncodedData s fd data type = .ok s') :
    SameJobs s s' := by
  obtain ⟨sent, rfl⟩ := shSendEncodedData_sent h
  exact SameJobs.of_eq rfl rfl rfl

theorem addClientToJob_sameJobs {supply : JobSupply} {s s' : Server} {j : Nat}
    {client node : Ptr} (h : addClientToJob supply s j client = .ok (node, s')) :
    SameJobs s s' := by
  obtain ⟨v, -, h⟩ := bind_ok.mp h
  obtain ⟨nodes, -, h⟩ := bind_ok.mp h
  obtain ⟨nodes', -, h⟩ := bind_ok.mp h
  obtain ⟨jobs, hjobs, h⟩ := bind_ok.mp h
  cases h
  exact SameJobs.of_modify hjobs rfl rfl fun _ => rfl

theorem freeClient_sameJobs {s s' : Server} {jobId : Int} {client : Nat} {b : Bool}
    (h : freeClient s jobId client = .ok (b, s')) : SameJobs s s' := by
  rcases freeClient_ok h with
    ⟨rfl, -⟩ | ⟨j, a, v, ci, nodes, nodes', jobs, -, -, -, -,
      ⟨-, -, hjobs⟩ | ⟨n, -, -, hjobs⟩, -, rfl⟩
  · exact SameJobs.refl _
  · exact SameJobs.of_modify hjobs rfl rfl fun _ => rfl
  · exact SameJobs.of_modify hjobs rfl rfl fun _ => rfl

theorem dequeuePendingJob_sameJobs {s s' : Server} {j : Nat} {cn : Ptr}
    (h : dequeuePendingJob s j = .ok (cn, s')) : SameJobs s s' := by
  rw [dequeuePendingJob] at h
  split at h
  · cases h
    exact SameJobs.refl s
  obtain ⟨v, -, h⟩ := bind_ok.mp h
  obtain ⟨cur, -, h⟩ := bind_ok.mp h
  cases cur with
  | none =>
      cases h
      exact SameJobs.refl s
  | some cur =>
      obtain ⟨w, -, h⟩ := bind_ok.mp h
      obtain ⟨nodes, -, h⟩ := bind_ok.mp h
      cases h
      exact SameJobs.of_eq rfl rfl rfl

theorem assignPendingJob_sameJobs {s s' : Server} {j cn client : Nat} {b : Bool}
    (h : assignPendingJob s j cn client = .ok (b, s')) : SameJobs s s' := by
  obtain ⟨node, -, h⟩ := bind_ok.mp h
  cases node with
  | none =>
      cases h
      exact SameJobs.refl s
  | some node =>
      obtain ⟨v, -, h⟩ := bind_ok.mp h
      obtain ⟨nodes, -, h⟩ := bind_ok.mp h
      obtain ⟨nodes', -, h⟩ := bind_ok.mp h
      obtain ⟨w, -, h⟩ := bind_ok.mp h
      obtain ⟨ci, -, h⟩ := bind_ok.mp h
      obtain ⟨jv, -, h⟩ := bind_ok.mp h
      obtain ⟨t, -, h⟩ := bind_ok.mp h
      obtain ⟨s₁, hs₁, h⟩ := bind_ok.mp h
      cases h
      obtain ⟨sent, rfl⟩ := shSendEncodedData_sent hs₁
      exact SameJobs.of_eq rfl rfl rfl

/-! ## No other call blocks -/

/-- The call does not end at a mutex that is held. -/
def Unblocked {α : Type} (x : Except Halt α) : Prop := x ≠ .error .deadlock

theorem Unblocked.bind {α β : Type} {x : Except Halt α} {f : α → Except Halt β}
    (hx : Unblocked x) (hf : ∀ a, x = .ok a → Unblocked (f a)) :
    Unblocked (x >>= f) := by
  cases x with
  | error e =>
      rw [error_bind]
      intro heq
      exact hx (by rw [Except.error.inj heq])
  | ok a =>
      rw [ok_bind]
      exact hf a rfl

theorem unblocked_ok {α : Type} (a : α) : Unblocked (.ok a : Except Halt α) := by
  intro h
  cases h

theorem unblocked_error {α : Type} {e : Halt} (he : e ≠ .deadlock) :
    Unblocked (.error e : Except Halt α) := fun h => he (Except.error.inj h)

section Unblocked
variable {α : Type} (h : Heap α) (p : Ptr)

theorem unblocked_load : Unblocked (h.load p) := by
  unfold Heap.load
  split
  · exact unblocked_error (by decide)
  · split
    · exact unblocked_error (by decide)
    · exact unblocked_ok _

theorem unblocked_modify (f : α → α) : Unblocked (h.modify p f) := by
  unfold Heap.modify
  split
  · exact unblocked_error (by decide)
  · split
    · exact unblocked_error (by decide)
    · exact unblocked_ok _

theorem unblocked_free : Unblocked (h.free p) := by
  unfold Heap.free
  split
  · exact unblocked_ok _
  · split
    · exact unblocked_error (by decide)
    · exact unblocked_ok _

theorem unblocked_chase (link : α → Ptr) (hit : α → Bool) (fuel : Nat) :
    Unblocked (h.chase link hit fuel p) := by
  induction fuel generalizing p with
  | zero =>
      cases p with
      | none => exact unblocked_ok _
      | some a => exact unblocked_error (by decide)
  | succ fuel ih =>
      cases p with
      | none => exact unblocked_ok _
      | some a =>
          rw [Heap.chase]
          split
          · exact unblocked_error (by decide)
          · split
            · exact unblocked_ok _
            · exact ih _

theorem unblocked_detach (L : Links α) (v : α) : Unblocked (detach L h v) := by
  refine Unblocked.bind ?_ fun g _ => ?_
  · unfold detachPrev
    split
    · exact unblocked_ok _
    · exact unblocked_modify h _ _
  · unfold detachNext
    split
    · exact unblocked_ok _
    · exact unblocked_modify g _ _

end Unblocked

section Encoders

theorem unblocked_poke (buf : Bytes) (off : Nat) (bs : Bytes) :
    Unblocked (poke buf off bs) := by
  unfold poke
  split
  · exact unblocked_ok _
  · exact unblocked_error (by decide)

theorem unblocked_load32 (buf : Bytes) (off : Nat) : Unblocked (load32 buf off) := by
  unfold load32
  split
  · exact unblocked_ok _
  · exact unblocked_error (by decide)

theorem unblocked_close (payload : Bytes) (total : Nat) :
    Unblocked (Buffer.close payload total) :=
  (unblocked_poke _ _ _).bind fun _ _ => unblocked_ok _

theorem unblocked_encodeBytes (attr : Attribute) (data : Bytes) (length : Int)
    (buf : Buffer) :
    Unblocked (encodeBytes attr data length buf) := by
  unfold encodeBytes
  split
  · exact unblocked_ok _
  · refine (unblocked_poke _ _ _).bind fun _ _ =>
      (unblocked_poke _ _ _).bind fun _ _ => ?_
    refine Unblocked.bind ?_ fun _ _ => (unblocked_poke _ _ _).bind fun _ _ =>
      unblocked_close _ _
    unfold peek
    split
    · exact unblocked_ok _
    · exact unblocked_error (by decide)

theorem unblocked_putGroups (data : Bytes) :
    ∀ (n i : Nat) (payload : Bytes) (cur : Nat),
      Unblocked (putGroups data n i payload cur) := by
  intro n
  induction n with
  | zero => exact fun _ _ _ => unblocked_ok _
  | succ n ih =>
      intro i payload cur
      exact (unblocked_load32 _ _).bind fun _ _ =>
        (unblocked_poke _ _ _).bind fun _ _ => ih _ _ _

theorem unblocked_putErrors (data : Bytes) :
    ∀ (n : Nat) (payload : Bytes) (cur : Nat),
      Unblocked (putErrors data n payload cur) := by
  intro n
  induction n with
  | zero => exact fun _ _ => unblocked_ok _
  | succ n ih =>
      intro payload cur
      exact (unblocked_load32 _ _).bind fun _ _ =>
        (unblocked_poke _ _ _).bind fun _ _ => ih _ _

theorem unblocked_encode (attr : Attribute) (data : Bytes) (length : Int)
    (buf : Buffer) :
    Unblocked (encode attr data length buf) := by
  cases attr with
  | joinGroup =>
      show Unblocked (encodeJoinGroup data length buf)
      unfold encodeJoinGroup
      split
      · exact unblocked_ok _
      · exact (unblocked_poke _ _ _).bind fun _ _ =>
          (unblocked_poke _ _ _).bind fun _ _ =>
          (unblocked_putGroups _ _ _ _ _).bind fun _ _ => unblocked_close _ _
  | algoError =>
      exact (unblocked_poke _ _ _).bind fun _ _ =>
        (unblocked_poke _ _ _).bind fun _ _ =>
        (unblocked_putErrors _ _ _ _).bind fun _ _ => unblocked_close _ _
  | stringData => exact unblocked_encodeBytes _ _ _ _
  | cliData => exact unblocked_encodeBytes _ _ _ _
  | goodBye => exact unblocked_encodeBytes .goodBye goodbye 7 buf
  | algoSort => exact unblocked_encodeBytes _ _ _ _
  | algoMax => exact unblocked_encodeBytes _ _ _ _
  | _ => exact unblocked_ok _

theorem unblocked_sendRounds (fd : Int) (data : Bytes) (type : Int) :
    ∀ (fuel : Nat) (len : Int) (s : Server),
      Unblocked (sendRounds fd data type fuel len s) := by
  intro fuel
  induction fuel with
  | zero =>
      intro len s
      rw [sendRounds]
      split
      · exact unblocked_ok _
      · exact unblocked_error (by decide)
  | succ fuel ih =>
      intro len s
      rw [sendRounds]
      split
      · exact unblocked_ok _
      · refine Unblocked.bind ?_ fun _ _ => ih _ _
        unfold encodeType
        split
        · exact unblocked_ok _
        · exact unblocked_encode _ _ _ _

theorem unblocked_shSendEncodedData (s : Server) (fd : Int) (data : Bytes)
    (type : Int) :
    Unblocked (shSendEncodedData s fd data type) := by
  refine Unblocked.bind ?_ fun _ _ => unblocked_sendRounds _ _ _ _ _ _
  unfold cString
  split
  · exact unblocked_ok _
  · exact unblocked_error (by decide)

end Encoders

theorem unblocked_setBusy (s : Server) (ci : Ptr) (busy : Bool) :
    Unblocked (setBusy s ci busy) :=
  (unblocked_modify _ _ _).bind fun _ _ => unblocked_ok _

theorem unblocked_serverUpdateJobNode (s : Server) (ci : Ptr) (j : Nat) :
    Unblocked (serverUpdateJobNode s ci j) :=
  (unblocked_modify _ _ _).bind fun _ _ => unblocked_ok _

theorem unblocked_addClientToJob (supply : JobSupply) (s : Server) (j : Nat)
    (client : Ptr) :
    Unblocked (addClientToJob supply s j client) :=
  (unblocked_load _ _).bind fun _ _ => (unblocked_modify _ _ _).bind fun _ _ =>
    (unblocked_modify _ _ _).bind fun _ _ => (unblocked_modify _ _ _).bind fun _ _ =>
      unblocked_ok _

theorem unblocked_getJobNode (s : Server) (jobId : Int) :
    Unblocked (getJobNode s jobId) :=
  (unblocked_load _ _).bind fun _ _ => unblocked_chase _ _ _ _ _

theorem unblocked_getClientNode (s : Server) (j client : Nat) :
    Unblocked (getClientNode s j client) :=
  (unblocked_load _ _).bind fun _ _ => (unblocked_load _ _).bind fun _ _ =>
    unblocked_chase _ _ _ _ _

theorem unblocked_freeClient (s : Server) (jobId : Int) (client : Nat) :
    Unblocked (freeClient s jobId client) := by
  unfold freeClient
  split
  · exact unblocked_ok _
  refine (unblocked_getJobNode _ _).bind fun jobNode _ => ?_
  cases jobNode with
  | none => exact unblocked_ok _
  | some jobNode =>
      refine (unblocked_getClientNode _ _ _).bind fun current _ => ?_
      cases current with
      | none => exact unblocked_ok _
      | some current =>
          refine (unblocked_load _ _).bind fun v _ => ?_
          cases v.next with
          | none =>
              exact (unblocked_modify _ _ _).bind fun _ _ =>
                (unblocked_setBusy _ _ _).bind fun _ _ =>
                (unblocked_modify _ _ _).bind fun _ _ =>
                  (unblocked_free _ _).bind fun _ _ =>
                  unblocked_ok _
          | some next =>
              exact (unblocked_modify _ _ _).bind fun _ _ =>
                (unblocked_setBusy _ _ _).bind fun _ _ =>
                (unblocked_modify _ _ _).bind fun _ _ =>
                  (unblocked_free _ _).bind fun _ _ =>
                  unblocked_ok _

theorem unblocked_dequeuePendingJob (s : Server) (j : Nat) :
    Unblocked (dequeuePendingJob s j) := by
  unfold dequeuePendingJob
  split
  · exact unblocked_ok _
  refine (unblocked_load _ _).bind fun _ _ =>
    (unblocked_chase _ _ _ _ _).bind fun cur _ => ?_
  cases cur with
  | none => exact unblocked_ok _
  | some cur =>
      exact (unblocked_load _ _).bind fun _ _ =>
        (unblocked_detach _ _ _).bind fun _ _ =>
        unblocked_ok _

theorem unblocked_assignPendingJob (s : Server) (j cn client : Nat) :
    Unblocked (assignPendingJob s j cn client) := by
  refine (unblocked_getClientNode _ _ _).bind fun node _ => ?_
  cases node with
  | none => exact unblocked_ok _
  | some node =>
      exact (unblocked_load _ _).bind fun _ _ =>
        (unblocked_modify _ _ _).bind fun _ _ =>
        (unblocked_free _ _).bind fun _ _ => (unblocked_load _ _).bind fun _ _ =>
        (unblocked_load _ _).bind fun _ _ => (unblocked_load _ _).bind fun _ _ =>
        (unblocked_load _ _).bind fun _ _ =>
          (unblocked_shSendEncodedData _ _ _ _).bind fun _ _ =>
        unblocked_ok _

/-! ## Runs of the calls -/

inductive JobCall where
  | add (jobId : Int) (task : Ptr)
  | result (cfd : Int) (value : Bytes)
  /-- what `initJob` does with an idle client, between the calls -/
  | reserve (jobNode client : Nat)

section Runs
variable (supply : JobSupply)

def JobCall.run (s : Server) : JobCall → Except Halt Server
  | .add jobId task => do
      let (_, s) ← addJob supply s jobId task
      .ok s
  | .result cfd value => do
      let (_, s) ← updateJobResult s cfd value
      .ok s
  | .reserve jobNode client => do
      let (_, s) ← addClientToJob supply s jobNode (some client)
      let s ← serverUpdateJobNode s (some client) jobNode
      setBusy s (some client) true

/-- No mutex is held. -/
def Server.NoneHeld (s : Server) : Prop := ∀ j v, s.jobs.cell j = some v →
    v.lock = false

/-- What one call does with the mutexes: nothing, or one is locked and
the same one unlocked. -/
def Paired : List MutexOp → Prop
  | [] => True
  | [.lock p, .unlock q] => p = q
  | _ => False

/-- The call does not block; when it returns, no mutex is held, and the call
has unlocked what it locked. -/
def Releases (s : Server) (call : JobCall) : Prop :=
  Unblocked (call.run supply s) ∧ ∀ s', call.run supply s = .ok s' →
    s'.NoneHeld ∧ ∃ ops, s'.mutexes = s.mutexes ++ ops ∧ Paired ops

/-- Every call of the run releases what it locks. -/
def LocksReleased (calls : List JobCall) (s : Server) : Prop :=
  StepsMeet (JobCall.run supply) (Releases supply) calls s

/-- The call adds no job: it is not `addJob`, or memory is too short for it. -/
def AddsNoJob (s : Server) : JobCall → Prop
  | .add _ _ => supply.job s.jobs.next = none ∨ supply.node s.nodes.next = none
  | _ => True

variable {supply} {s s' : Server}

/-- Whether the mutexes of a server are held, seen through the locks of its jobs. -/
theorem noneHeld_of_locks (hs : s.NoneHeld)
    (h : ∀ j, (s'.jobs.cell j).map (·.lock) = (s.jobs.cell j).map (·.lock)) :
    s'.NoneHeld := by
  intro j v' hv'
  have hlock := h j
  rw [hv', Option.map_some] at hlock
  obtain ⟨v, hv, heq⟩ := Option.map_eq_some_iff.mp hlock.symm
  rw [← heq]
  exact hs j v hv

/-- `updateJobResult` merges the value into the result of the client's job, if it
was given one, and unlocks what it locks, which was not held. -/
theorem updateJobResult_states {cfd : Int} {value : Bytes} {b : Bool}
    (h : updateJobResult s cfd value = .ok (b, s')) :
    (s.assigned cfd = none ∧ SameJobs s s') ∨
      ∃ c j v, s.assigned cfd = some (c, j) ∧ s.jobs.cell j = some v ∧
        v.lock = false ∧
        (s'.jobs.cell j).map JobNode.state
          = some (false, max v.job.result (atoll value)) ∧
        (∀ k, k ≠ j → (s'.jobs.cell k).map JobNode.state = (s.jobs.cell k).map
          JobNode.state) ∧
        s'.pTail = s.pTail ∧ s'.mutexes = s.mutexes ++ [.lock (some j),
          .unlock (some j)] := by
  obtain ⟨client, hsearch, h⟩ := bind_ok.mp h
  cases client with
  | none =>
      cases h
      exact Or.inl ⟨by rw [Server.assigned, hsearch], SameJobs.refl s⟩
  | some client =>
      obtain ⟨ci, hci, h⟩ := bind_ok.mp h
      obtain ⟨d, hd, hcell⟩ := Heap.load_ok.mp hci
      cases hd
      have hassigned : s.assigned cfd = ci.jn.map fun j => (client, j) := by
        rw [Server.assigned, hsearch]
        simp only [hcell]
      cases hjn : ci.jn with
      | none =>
          simp only [hjn] at h
          cases h
          exact Or.inl ⟨by rw [hassigned, hjn, Option.map_none], SameJobs.refl s⟩
      | some j =>
          simp only [hjn] at h
          rw [hjn, Option.map_some] at hassigned
          obtain ⟨s₁, hlock, h⟩ := bind_ok.mp h
          obtain ⟨jobs, hjobs, h⟩ := bind_ok.mp h
          obtain ⟨s₂, hunlock, h⟩ := bind_ok.mp h
          obtain ⟨⟨cn, s₃⟩, hdeq, h⟩ := bind_ok.mp h
          obtain ⟨a, v, ha, hv, hfree, rfl⟩ := lockMutex_ok hlock
          cases ha
          obtain ⟨a, w, ha, hw, rfl⟩ := Heap.modify_ok.mp hjobs
          cases ha
          cases (Heap.cell_set_self hv _).symm.trans hw
          obtain ⟨a, w, ha, hw, rfl⟩ := unlockMutex_ok hunlock
          cases ha
          cases (Heap.cell_set_self (Heap.cell_set_self hv _) _).symm.trans hw
          have hsame := dequeuePendingJob_sameJobs hdeq
          have hlast : SameJobs s₃ s' := by
            cases cn with
            | some cn =>
                obtain ⟨⟨b', s₄⟩, hassign, h⟩ := bind_ok.mp h
                cases h
                exact assignPendingJob_sameJobs hassign
            | none =>
                obtain ⟨v', -, h⟩ := bind_ok.mp h
                exact freeClient_sameJobs h
          have hend := hsame.trans hlast
          refine Or.inr ⟨client, j, v, hassigned, hv, hfree,
            (hend.states j).trans ?_, fun k hk => (hend.states k).trans ?_,
            hend.tail, ?_⟩
          · rw [Heap.cell_set_self (Heap.cell_set_self (Heap.cell_set_self hv _) _),
              Option.map_some, keepMax_eq]
            rfl
          · rw [Heap.cell_set_ne _ hk, Heap.cell_set_ne _ hk, Heap.cell_set_ne _ hk]
          · rw [hend.mutexes]
            exact List.append_assoc _ _ _

/-- The locks are as before a result. -/
theorem updateJobResult_locks {cfd : Int} {value : Bytes} {b : Bool}
    (h : updateJobResult s cfd value = .ok (b, s')) :
    (∀ j, (s'.jobs.cell j).map (·.lock) = (s.jobs.cell j).map (·.lock)) ∧
      s'.pTail = s.pTail ∧
      ∃ ops, s'.mutexes = s.mutexes ++ ops ∧ Paired ops := by
  rcases updateJobResult_states h with
    ⟨-, hsame⟩ | ⟨c, j, v, -, hv, hfree, hj, hothers, htail, hmutexes⟩
  · exact ⟨hsame.locks, hsame.tail, [],
      by rw [hsame.mutexes, List.append_nil], trivial⟩
  · refine ⟨fun k => ?_, htail, _, hmutexes, rfl⟩
    by_cases hkj : k = j
    · have hlock := congrArg (Option.map Prod.fst) hj
      rw [Option.map_map] at hlock
      rw [hkj, hv, Option.map_some, hfree]
      exact hlock
    · have hlock := congrArg (Option.map Prod.fst) (hothers k hkj)
      rw [Option.map_map, Option.map_map] at hlock
      exact hlock

/-- What a run keeps as long as no job is added. -/
def Server.Free (s : Server) : Prop :=
  s.NoneHeld ∧ ∃ t v, s.pTail = some t ∧ s.jobs.cell t = some v

theorem free_of_locks (hs : s.Free) (htail : s'.pTail = s.pTail)
    (h : ∀ j, (s'.jobs.cell j).map (·.lock) = (s.jobs.cell j).map (·.lock)) :
    s'.Free := by
  obtain ⟨hnone, t, v, ht, hv⟩ := hs
  have hlock := h t
  rw [hv, Option.map_some] at hlock
  obtain ⟨v', hv', -⟩ := Option.map_eq_some_iff.mp hlock
  exact ⟨noneHeld_of_locks hnone h, t, v', htail.trans ht, hv'⟩

theorem reserve_sameJobs {jobNode client : Nat}
    (h : JobCall.run supply s (.reserve jobNode client) = .ok s') :
    SameJobs s s' := by
  obtain ⟨⟨node, s₁⟩, hadd, h⟩ := bind_ok.mp h
  obtain ⟨s₂, hjn, h⟩ := bind_ok.mp h
  exact ((addClientToJob_sameJobs hadd).trans
    (serverUpdateJobNode_sameJobs hjn)).trans
    (setBusy_sameJobs h)

theorem unblocked_updateJobResult (hs : s.NoneHeld) (cfd : Int) (value : Bytes) :
    Unblocked (updateJobResult s cfd value) := by
  refine (unblocked_chase _ _ _ _ _).bind fun client _ => ?_
  cases client with
  | none => exact unblocked_ok _
  | some client =>
      refine (unblocked_load _ _).bind fun ci _ => ?_
      cases ci.jn with
      | none => exact unblocked_ok _
      | some j =>
          refine Unblocked.bind ?_ fun s₁ _ =>
            (unblocked_modify _ _ _).bind fun _ _ =>
            Unblocked.bind ?_ fun s₂ _ => (unblocked_dequeuePendingJob _ _).bind
              fun r _ => ?_
          · refine (unblocked_load _ _).bind fun v hload => ?_
            obtain ⟨a, ha, hv⟩ := Heap.load_ok.mp hload
            rw [hs a v hv]
            exact (unblocked_modify _ _ _).bind fun _ _ => unblocked_ok _
          · exact (unblocked_modify _ _ _).bind fun _ _ => unblocked_ok _
          · obtain ⟨cn, s₃⟩ := r
            cases cn with
            | some cn =>
                exact (unblocked_assignPendingJob _ _ _ _).bind fun _ _ =>
                  unblocked_ok _
            | none =>
                exact (unblocked_load _ _).bind fun _ _ => unblocked_freeClient _ _ _

/-- As long as no mutex is held, a call releases what it locks
exactly when it adds no job. -/
theorem releases_iff (s : Server) (call : JobCall) (hs : s.Free) :
    Releases supply s call ↔ AddsNoJob supply s call := by
  obtain ⟨hnone, t, v, ht, hv⟩ := id hs
  cases call with
  | add jobId task =>
      constructor
      · rintro ⟨-, hrel⟩
        by_contra hadds
        obtain ⟨w, hw⟩ := Option.ne_none_iff_exists'.mp fun h => hadds (Or.inl h)
        obtain ⟨u, hu⟩ := Option.ne_none_iff_exists'.mp fun h => hadds (Or.inr h)
        obtain ⟨s', hrun, hadded⟩ := addJob_run jobId task ht hv (hnone t v hv) hw hu
        obtain ⟨-, ops, hops, hpaired⟩ :=
          hrel s' (by rw [JobCall.run, hrun, ok_bind])
        rw [hadded.state] at hops
        have heq := List.append_cancel_left hops
        rw [← heq] at hpaired
        exact Nat.ne_of_lt (s.jobs.lt_next hv) (Option.some.inj hpaired)
      · intro hshort
        have hrun : JobCall.run supply s (.add jobId task) = .error .nullDeref := by
          rw [JobCall.run, addJob_short jobId task ht hv (hnone t v hv) hshort,
            error_bind]
        refine ⟨?_, fun s' hs' => ?_⟩
        · rw [hrun]
          exact unblocked_error (by decide)
        · rw [hrun] at hs'
          cases hs'
  | result cfd value =>
      refine ⟨fun _ => trivial, fun _ => ⟨?_, fun s' h => ?_⟩⟩
      · exact (unblocked_updateJobResult hnone cfd value).bind fun _ _ =>
          unblocked_ok _
      · obtain ⟨⟨b, s₁⟩, hrun, h⟩ := bind_ok.mp h
        cases h
        obtain ⟨hlocks, -, hops⟩ := updateJobResult_locks hrun
        exact ⟨noneHeld_of_locks hnone hlocks, hops⟩
  | reserve jobNode client =>
      refine ⟨fun _ => trivial, fun _ => ⟨?_, fun s' h => ?_⟩⟩
      · exact (unblocked_addClientToJob _ _ _ _).bind fun _ _ =>
          (unblocked_serverUpdateJobNode _ _ _).bind fun _ _ =>
            unblocked_setBusy _ _ _
      · have hsame := reserve_sameJobs h
        exact ⟨noneHeld_of_locks hnone hsame.locks, [],
          by rw [hsame.mutexes, List.append_nil], trivial⟩

theorem free_step (s : Server) (call : JobCall) (s' : Server) (hs : s.Free)
    (hcall : AddsNoJob supply s call) (h : call.run supply s = .ok s') :
    s'.Free := by
  cases call with
  | add jobId task =>
      obtain ⟨hnone, t, v, ht, hv⟩ := hs
      rw [JobCall.run, addJob_short jobId task ht hv (hnone t v hv) hcall,
        error_bind] at h
      cases h
  | result cfd value =>
      obtain ⟨⟨b, s₁⟩, hrun, h⟩ := bind_ok.mp h
      cases h
      obtain ⟨hlocks, htail, -⟩ := updateJobResult_locks hrun
      exact free_of_locks hs htail hlocks
  | reserve jobNode client =>
      have hsame := reserve_sameJobs h
      exact free_of_locks hs hsame.tail hsame.locks

theorem initializeJobDll_free {reg : Registry} {config : Config}
    (h : initializeJobDll supply (Server.boot reg config) = .ok s) : s.Free := by
  obtain ⟨w, -, rfl⟩ := initializeJobDll_ok h
  have hnew : ((Heap.empty : Heap JobNode).grow (some w)).cell 0 = some w := rfl
  refine ⟨fun j v hv => ?_, 0, _, rfl, Heap.cell_set_self hnew _⟩
  by_cases hj : j = 0
  · rw [hj] at hv
    cases (Heap.cell_set_self hnew _).symm.trans hv
    rfl
  · have hcell := (Heap.cell_set_ne _ hj _).symm.trans hv
    rw [Heap.cell_grow_ne _ hj] at hcell
    cases hcell

variable (supply)

/-- **The locks.**  From `initializeJobDll` on, every call releases what it
locks and blocks nowhere exactly when no call adds a job. -/
theorem locks_released_iff (reg : Registry) (config : Config) (calls : List JobCall)
    (s : Server) (h : initializeJobDll supply (Server.boot reg config) = .ok s) :
    LocksReleased supply calls s ↔
      StepsMeet (JobCall.run supply) (AddsNoJob supply) calls s :=
  stepsMeet_iff releases_iff
    (fun s call s' hs hrel h => free_step s call s' hs
      ((releases_iff s call hs).mp hrel) h)
    (initializeJobDll_free h)

end Runs

/-- A client has joined.  As long as it is given no job its results block nowhere; a
run in which it is given one has not released what it locked. -/
theorem locks_released_result :
    ∃ reg s, serverAddOneClientFd JobSupply.zeros.toSupply Registry.zeroed
        (some (serverGetClientInfoHead 5)) 5 ⟨0, 0⟩ [1] = .ok (true, reg) ∧
      initializeJobDll JobSupply.zeros (Server.boot reg Config.sample) = .ok s ∧
      LocksReleased JobSupply.zeros [.result 5 (ascii "7"),
        .result 6 (ascii "8")] s ∧
      ¬ LocksReleased JobSupply.zeros
        [.result 5 (ascii "7"), .add 1 none, .reserve 1 0,
          .result 5 (ascii "9")] s := by
  refine ⟨_, _, rfl, rfl,
    (locks_released_iff JobSupply.zeros _ Config.sample _ _ rfl).mpr ?_,
    fun h => ?_⟩
  · exact ⟨trivial, fun _ _ => ⟨trivial, fun _ _ => trivial⟩⟩
  · have hmeets := (locks_released_iff JobSupply.zeros _ Config.sample _ _ rfl).mp h
    rcases (hmeets.2 _ rfl).1 with hnone | hnone
    · cases hnone
    · cases hnone

/-- After two jobs a result for the first blocks: its mutex was locked by the
second `addJob`, which unlocked the second job's. -/
theorem older_job_blocks :
    ∃ reg s s', serverAddOneClientFd JobSupply.zeros.toSupply Registry.zeroed
        (some (serverGetClientInfoHead 5)) 5 ⟨0, 0⟩ [1] = .ok (true, reg) ∧
      initializeJobDll JobSupply.zeros (Server.boot reg Config.sample) = .ok s ∧
      ¬ LocksReleased JobSupply.zeros
        [.add 1 none, .reserve 1 0, .add 2 none, .result 5 (ascii "7")] s ∧
      runs (JobCall.run JobSupply.zeros) [.add 1 none, .reserve 1 0, .add 2 none] s
        = .ok s' ∧
      updateJobResult s' 5 (ascii "7") = .error .deadlock := by
  refine ⟨_, _, _, rfl, rfl, fun h => ?_, rfl, rfl⟩
  exact absurd ((h.1.2 _ rfl).1 0 _ rfl) (by decide +kernel)

end Pyramid
