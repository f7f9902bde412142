/-
# `Pyramid.Confined` — the pieces of a job stay in its group

A job does not know the group it was submitted for; `Grouped` keeps it beside
the world.  `reassign_job` takes the group that the failing client joined last
instead.  As long as that is the group of the job, every piece goes to a member
of it, and a piece is queued only if all its members are busy: whoever was
given a job is a member of its group, in every state that is reached.
-/
import Pyramid.Deliveries

namespace Pyramid

structure Grouped where
  world : World
  /-- the group that each job was submitted for -/
  groupOf : Nat → Nat

namespace Grouped

/-- The groups of the jobs after `e` has led to `w'`: the job that `initJob`
adds is the last one. -/
def noted (G : Grouped) (w' : World) : Event → Nat → Nat
  | .submit groupId jobId _ _ _ =>
      if groupId ≤ 0 ∨ jobId < 0 then G.groupOf
      else match w'.server.pTail with
        | none => G.groupOf
        | some j => put G.groupOf j groupId.toNat
  | .join _ _ _ | .result _ _ | .error _ | .disconnect _ => G.groupOf

/-- The job that `e` is about. -/
def about (G : Grouped) (w' : World) : Event → Option Nat
  | .submit _ _ _ _ _ => w'.server.pTail
  | .result cfd _ | .error cfd | .disconnect cfd =>
      (G.world.server.assigned cfd).map (·.2)
  | .join _ _ _ => none

/-- The client that fails has a node in the list of its job, and joined another
group after the job's. -/
def Astray (G : Grouped) : Event → Prop
  | .error cfd | .disconnect cfd => ∃ p ∈ G.world.server.assigned cfd,
      getClientNode G.world.server p.2 p.1 ≠ .ok none ∧
        G.world.server.reg.lastJoined p.1 ≠ some (G.groupOf p.2)
  | .join _ _ _ | .submit _ _ _ _ _ | .result _ _ => False

instance (G : Grouped) : ∀ e, Decidable (G.Astray e)
  | .error cfd | .disconnect cfd =>
      inferInstanceAs (Decidable (∃ p ∈ G.world.server.assigned cfd, _ ∧ _))
  | .join _ _ _ | .submit _ _ _ _ _ | .result _ _ =>
      inferInstanceAs (Decidable False)

section Runs
variable (supply : JobSupply)

def start (config : Config) : Except Halt Grouped := do
  let w ← World.start supply config
  .ok ⟨w, fun _ => 0⟩

def step (G : Grouped) (e : Event) : Except Halt Grouped := do
  let w ← G.world.step supply e
  .ok ⟨w, G.noted w e⟩

/-- From the start of the server the events lead to `G`, and each meets `K`. -/
def Run (config : Config) (K : Grouped → Event → Prop) (es : List Event)
    (G : Grouped) : Prop :=
  ∃ G₀, start supply config = .ok G₀ ∧ StepsMeet (step supply) K es G₀ ∧
    runs (step supply) es G₀ = .ok G

/-- A run and one more step are there if they can be carried out. -/
theorem step_of_check {α : Type} {supply : JobSupply} {config : Config}
    {K : Grouped → Event → Prop} [∀ G e, Decidable (K G e)] {es : List Event}
    {e : Event} {f : Grouped → Grouped → α} {a : α}
    (h : ((start supply config).toOption.bind fun G₀ =>
      if StepsMeet (step supply) K es G₀
        then (runs (step supply) es G₀).toOption.map fun G =>
        if K G e then (G.step supply e).toOption.map (f G) else none else none)
          = some (some a)) :
    ∃ G G', Run supply config K es G ∧ K G e ∧ G.step supply e = .ok G' ∧
      f G G' = a := by
  obtain ⟨G₀, G, G', hstart, hmeets, hrun, hk, hstep, hG⟩ := Pyramid.step_of_check h
  exact ⟨G, G', ⟨G₀, hstart, hmeets, hrun⟩, hk, hstep, hG⟩

end Runs

end Grouped

/-- `f` is one of the frames that tell the client at `c` where the piece `i` of
the job at `j` is; clients are as in `s`, before the step, and jobs as in `s'`. -/
def Server.Tells (s s' : Server) (f : Sent) (j c : Nat) (i : Int) : Prop :=
  ∃ fs, ({ s' with reg := s.reg } : Server).pieceFrames j c i = .ok fs ∧ f ∈ fs

/-- In the step that `e` is, pieces are sent to members of the group of their job
only, and a client that fails has its piece queued only if all of them are busy. -/
structure Confined (G G' : Grouped) (e : Event) : Prop where
  sent : ∀ f ∈ G'.world.server.sent.drop G.world.server.sent.length, ∃ j c i,
    G.about G'.world e = some j ∧ G.world.server.Tells G'.world.server f j c i ∧
      c ∈ G.world.server.reg.clientsIn (G'.groupOf j)
  queued : ∀ cfd, e = .error cfd ∨ e = .disconnect cfd →
    G'.world.server.qHead ≠ G.world.server.qHead → ∃ j, G.about G'.world e = some j ∧
      ∀ c ∈ G.world.server.reg.clientsIn (G'.groupOf j),
        ∃ v, G.world.server.reg.infos.cell c = some v ∧ v.busy = true

/-! ## Whoever was given a job is in its group -/

theorem Server.assigned_cell {s : Server} {cfd : Int} {c j : Nat}
    (h : s.assigned cfd = some (c, j)) :
    ∃ v, s.reg.infos.cell c = some v ∧ v.jn = some j := by
  rw [Server.assigned] at h
  split at h
  · split at h
    · rename_i v hv
      obtain ⟨k, hk, heq⟩ := Option.map_eq_some_iff.mp h
      cases heq
      exact ⟨v, hv, hk⟩
    · cases h
  · cases h

/-- The invariant. -/
structure Placed (s : Server) (groupOf : Nat → Nat) : Prop where
  registry : s.reg.WellFormed
  given : ∀ c v j, s.reg.infos.cell c = some v → v.jn = some j →
    c ∈ s.reg.clientsIn (groupOf j) ∧ ∃ u, s.jobs.cell j = some u

namespace Placed

variable {supply : JobSupply} {s s' : Server} {groupOf : Nat → Nat}

theorem keeps (h : Placed s groupOf)
    (hk : Keeps (fun c j => c ∈ s.reg.clientsIn (groupOf j) ∧
    ∃ u, s'.jobs.cell j = some u) s s') : Placed s' groupOf := by
  refine ⟨hk.clients.wellFormed h.registry, fun c v' j hv' hj => ?_⟩
  obtain ⟨v, hv, hcases⟩ := hk.given c v' hv'
  rw [hk.clients.clientsIn]
  rcases hcases with heq | ⟨k, hk', hgiven⟩
  · obtain ⟨hmem, u, hu⟩ := h.given c v j hv (heq ▸ hj)
    obtain ⟨u', hu', -⟩ := hk.jobs j u hu
    exact ⟨hmem, u', hu'⟩
  · cases hj.symm.trans hk'
    exact hgiven

/-- What is sent for clients that are members is told to members. -/
theorem tells {P : Nat → Nat → Prop} {s₀ : Server} {ds : List Holder}
    {j : Nat} {f : Sent} (hk : Keeps P s₀ s') (hreg : s₀.reg = s.reg)
    (hhands : Hands s s' j ds) (hf : f ∈ s'.sent.drop s.sent.length) :
    ∃ d ∈ ds, s.Tells s' f j d.client d.index := by
  obtain ⟨d, hd, fs, hfs, hmem⟩ := hhands.mem hf
  refine ⟨d, hd, fs, ?_, hmem⟩
  obtain ⟨ci', hci', hrest⟩ := bind_ok.mp hfs
  obtain ⟨a, ha, hcell'⟩ := Heap.load_ok.mp hci'
  cases ha
  obtain ⟨ci, hcell, -⟩ := hk.given _ _ hcell'
  obtain ⟨ci'', hcell'', hsame⟩ := hk.clients.cell hcell
  cases hcell'.symm.trans hcell''
  have hcfd : ci'.cfd = ci.cfd := congrArg (fun u => u.cfd) hsame
  rw [hcfd] at hrest
  have hcell₀ : s.reg.infos.cell d.client = some ci := hreg ▸ hcell
  rw [Server.pieceFrames, Heap.load_some hcell₀, ok_bind]
  exact hrest

theorem join (h : Placed s groupOf) {cfd : Int} {sa : SockAddr}
    {gids : List Nat} {p : Bool} {reg : Registry}
    (hr : serverAddOneClientFd supply.toSupply s.reg
      (some (serverGetClientInfoHead cfd))
      cfd sa gids = .ok (p, reg)) : Placed { s with reg := reg } groupOf := by
  obtain ⟨member, chain, bucket, hok⟩ := id h.registry
  rcases serverAddOneClientFd_spec supply.toSupply hok cfd sa gids with
    ⟨reg', ⟨-, hrun, rfl⟩ | ⟨hrun, ⟨⟨⟨member', hok'⟩, hcell⟩, -⟩ | ⟨ys, v, hadded⟩⟩⟩
  · cases hr.symm.trans hrun
    exact h
  · cases hr.symm.trans hrun
    refine ⟨⟨_, _, _, hok'⟩, fun c v j hv hj => ?_⟩
    obtain ⟨hmem, hjob⟩ := h.given c v j ((hcell c).symm.trans hv) hj
    exact ⟨clientsIn_join h.registry hr hmem, hjob⟩
  · cases hr.symm.trans hrun
    obtain ⟨member', hok'⟩ := hadded.ok
    refine ⟨⟨_, _, _, hok'⟩, fun c v' j hv' hj => ?_⟩
    by_cases hc : c = s.reg.infos.next
    · rw [hc] at hv'
      cases hadded.cell.symm.trans hv'
      rw [hadded.idle.2] at hj
      cases hj
    · obtain ⟨u, hu, hsame⟩ := (KeepsInfos.symm hadded.others).cell hc hv'
      obtain ⟨-, -, -, -, hjn⟩ := ClientInfo.of_unlinked hsame
      obtain ⟨hmem, hjob⟩ := h.given c u j hu (hjn.trans hj)
      exact ⟨clientsIn_join h.registry hr hmem, hjob⟩

theorem leave (h : Placed s groupOf) {cfd : Int} {p : Bool} {reg : Registry}
    (hr : serverDelOneClientFd s.reg (some (serverGetClientInfoHead cfd)) cfd
      = .ok (p, reg)) :
    Placed { s with reg := reg } groupOf := by
  obtain ⟨member, chain, bucket, hok⟩ := id h.registry
  rcases serverDelOneClientFd_spec hok cfd with
    ⟨hrun, -⟩ | ⟨reg', a, v, hrun, hremoved⟩
  · cases hr.symm.trans hrun
    exact h
  · cases hr.symm.trans hrun
    obtain ⟨member', hok'⟩ := hremoved.ok
    refine ⟨⟨_, _, _, hok'⟩, fun c v' j hv' hj => ?_⟩
    have hc : c ≠ a := by
      rintro rfl
      cases hremoved.gone.symm.trans hv'
    obtain ⟨u, hu, hsame⟩ := (KeepsInfos.symm hremoved.others).cell hc hv'
    obtain ⟨-, -, -, -, hjn⟩ := ClientInfo.of_unlinked hsame
    obtain ⟨hmem, hjob⟩ := h.given c u j hu (hjn.trans hj)
    refine ⟨clientsIn_leave h.registry hr (fun hnone => ?_) hmem, hjob⟩
    cases hnone.symm.trans hv'

/-- `reassign_job`, for a client whose last group is the group of its job. -/
theorem reassign (h : Placed s groupOf) {cfd : Int} (hk : ∀ p ∈ s.assigned cfd,
      getClientNode s p.2 p.1 ≠ .ok none → s.reg.lastJoined p.1 = some (groupOf p.2))
    (hr : reassignJob supply s cfd = .ok s') :
    Placed s' groupOf ∧ (∀ f ∈ s'.sent.drop s.sent.length, ∃ j c i,
        (s.assigned cfd).map (·.2) = some j ∧ s.Tells s' f j c i ∧
        c ∈ s.reg.clientsIn (groupOf j)) ∧
      (s'.qHead ≠ s.qHead → ∃ j, (s.assigned cfd).map (·.2) = some j ∧
        ∀ c ∈ s.reg.clientsIn (groupOf j), ∃ v, s.reg.infos.cell c = some v ∧
        v.busy = true) := by
  rcases reassignJob_hands hr with rfl | ⟨c, j, gid, hassigned, hnode, hlast, hcases⟩
  · refine ⟨h, fun f hf => ?_, fun hne => absurd rfl hne⟩
    rw [List.drop_length] at hf
    exact absurd hf List.not_mem_nil
  have hgid : gid = groupOf j := by
    have hgroup := hk (c, j) hassigned hnode
    rw [hlast] at hgroup
    exact Option.some.inj hgroup
  have habout : (s.assigned cfd).map (·.2) = some j := by rw [hassigned]; rfl
  rw [hgid] at hcases
  rcases hcases with ⟨hall, hkeeps, hhands⟩ | ⟨w, i, hw, hkeeps, hstill, hhands⟩
  · refine ⟨h.keeps (hkeeps.mono fun _ _ hno => hno.elim), fun f hf => ?_,
      fun _ => ⟨j, habout, hall⟩⟩
    obtain ⟨d, hd, -⟩ := tells hkeeps rfl hhands hf
    exact absurd hd List.not_mem_nil
  · refine ⟨h.keeps (hkeeps.mono ?_), fun f hf => ?_,
      fun hne => absurd hstill.qHead hne⟩
    · rintro d k ⟨rfl, rfl⟩
      obtain ⟨v, hv, hjn⟩ := Server.assigned_cell hassigned
      obtain ⟨-, u, hu⟩ := h.given c v k hv hjn
      obtain ⟨u', hu', -⟩ := hkeeps.jobs k u hu
      exact ⟨hw, u', hu'⟩
    · obtain ⟨d, hd, htells⟩ := tells hkeeps rfl hhands hf
      rw [List.mem_singleton.mp hd] at htells
      exact ⟨j, w, i, habout, htells, hw⟩

end Placed

/-! ## Every event -/

namespace Grouped

variable {supply : JobSupply} {G : Grouped} {w' : World}

/-- What is shown of an event: the invariant is kept, and the
pieces stay in their group. -/
def Stays (G : Grouped) (w' : World) (e : Event) : Prop :=
  Placed w'.server (G.noted w' e) ∧ Confined G ⟨w', G.noted w' e⟩ e

theorem stays_join (h : Placed G.world.server G.groupOf) {cfd : Int} {sa : SockAddr}
    {gids : List Nat} (hr : G.world.step supply (.join cfd sa gids) = .ok w') :
    G.Stays w' (.join cfd sa gids) := by
  obtain ⟨⟨p, reg⟩, hadd, hw'⟩ := bind_ok.mp hr
  cases hw'
  refine ⟨h.join hadd, fun f hf => ?_, fun _ he => ?_⟩
  · rw [List.drop_length] at hf
    exact absurd hf List.not_mem_nil
  · rcases he with he | he
    · cases he
    · cases he

theorem stays_submit (h : Placed G.world.server G.groupOf)
    {groupId jobId taskType system : Int} {inputFile : Bytes}
    (hr : G.world.step supply (.submit groupId jobId taskType inputFile system)
      = .ok w') :
    G.Stays w' (.submit groupId jobId taskType inputFile system) := by
  obtain ⟨⟨started, s'⟩, hinit, hw'⟩ := bind_ok.mp hr
  have hs' : w'.server = s' := by cases hw'; rfl
  have hqueued : ∀ {Q : Prop} {cfd : Int},
      Event.submit groupId jobId taskType inputFile system = .error cfd ∨
        Event.submit groupId jobId taskType inputFile system = .disconnect cfd →
        Q := by
    intro Q cfd he
    rcases he with he | he
    · cases he
    · cases he
  rcases initJob_hands hinit with
    ⟨hbad, hsame⟩ | ⟨hgood, j, tasks, ds, htail, hfresh, -,
      ⟨u, a, t, hnew, -⟩, hkeeps,
    hhands, hds⟩
  · have hnoted : G.noted w' (.submit groupId jobId taskType inputFile system)
        = G.groupOf := by
      rw [noted, if_pos hbad]
    refine ⟨?_, fun f hf => ?_, fun _ he => hqueued he⟩
    · rw [hnoted, hs', hsame]
      exact h
    · have hf' : f ∈ w'.server.sent.drop G.world.server.sent.length := hf
      rw [hs', hsame, List.drop_length] at hf'
      exact absurd hf' List.not_mem_nil
  · have hnoted : G.noted w' (.submit groupId jobId taskType inputFile system)
        = put G.groupOf j groupId.toNat := by
      rw [noted, if_neg hgood, hs', htail]
    refine ⟨?_, fun f hf => ?_, fun _ he => hqueued he⟩
    · rw [hnoted, hs']
      -- nobody was given the new job before
      have hgiven : Placed { G.world.server with
          tasks := tasks } (put G.groupOf j groupId.toNat) := by
        refine ⟨h.registry, fun c v k hv hk => ?_⟩
        obtain ⟨hmem, u, hu⟩ := h.given c v k hv hk
        have hkj : k ≠ j := by
          rintro rfl
          cases hfresh.symm.trans hu
        rw [put_ne _ hkj]
        exact ⟨hmem, u, hu⟩
      refine hgiven.keeps (hkeeps.mono ?_)
      rintro c k ⟨rfl, hc⟩
      rw [put_self]
      exact ⟨hc, u, hnew⟩
    · have hf' : f ∈ s'.sent.drop G.world.server.sent.length := hs' ▸ hf
      obtain ⟨d, hd, htells⟩ := Placed.tells hkeeps rfl hhands hf'
      refine ⟨j, d.client, d.index, ?_, ?_, ?_⟩
      · rw [about, hs', htail]
      · show G.world.server.Tells w'.server f j d.client d.index
        rw [hs']
        exact htells
      · show d.client ∈ G.world.server.reg.clientsIn
          (G.noted w' (.submit groupId jobId taskType inputFile system) j)
        rw [hnoted, put_self]
        exact hds d hd

theorem stays_result (h : Placed G.world.server G.groupOf) {cfd : Int}
    {value : Bytes} (hr : G.world.step supply (.result cfd value) = .ok w') :
    G.Stays w' (.result cfd value) := by
  obtain ⟨⟨p, s'⟩, hresult, hw'⟩ := bind_ok.mp hr
  cases hw'
  have hqueued : ∀ {Q : Prop} {fd : Int},
      Event.result cfd value = .error fd ∨ Event.result cfd value = .disconnect fd →
      Q := by
    intro Q fd he
    rcases he with he | he
    · cases he
    · cases he
  rcases updateJobResult_hands (P := fun _ _ => False) hresult with
    rfl | ⟨c, j, ds, hassigned, hkeeps, hhands, hds⟩
  · refine ⟨h, fun f hf => ?_, fun _ he => hqueued he⟩
    rw [List.drop_length] at hf
    exact absurd hf List.not_mem_nil
  · refine ⟨h.keeps (hkeeps.mono fun _ _ hno => hno.elim), fun f hf => ?_,
      fun _ he => hqueued he⟩
    obtain ⟨d, hd, htells⟩ := Placed.tells hkeeps rfl hhands hf
    rw [hds d hd] at htells
    obtain ⟨v, hv, hjn⟩ := Server.assigned_cell hassigned
    exact ⟨j, c, d.index,
      by rw [about, hassigned]; rfl, htells, (h.given c v j hv hjn).1⟩

theorem stays_error (h : Placed G.world.server G.groupOf) {cfd : Int}
    (hk : ¬ G.Astray (.error cfd)) (hr : G.world.step supply (.error cfd) = .ok w') :
    G.Stays w' (.error cfd) := by
  obtain ⟨s', hreassign, hw'⟩ := bind_ok.mp hr
  cases hw'
  have hgroup : ∀ p ∈ G.world.server.assigned cfd,
      getClientNode G.world.server p.2 p.1 ≠ .ok none →
      G.world.server.reg.lastJoined p.1 = some (G.groupOf p.2) := by
    intro p hp hnode
    by_contra hlast
    exact hk ⟨p, hp, hnode, hlast⟩
  obtain ⟨hplaced, hsent, hqueued⟩ := h.reassign hgroup hreassign
  refine ⟨hplaced, hsent, fun fd he => ?_⟩
  rcases he with he | he
  · cases he
    exact hqueued
  · cases he

/-- The client is removed after `reassign_job` has returned. -/
theorem stays_disconnect (h : Placed G.world.server G.groupOf) {cfd : Int}
    (hk : ¬ G.Astray (.disconnect cfd))
    (hr : G.world.step supply (.disconnect cfd) = .ok w') :
    G.Stays w' (.disconnect cfd) := by
  obtain ⟨s', hreassign, hr⟩ := bind_ok.mp hr
  obtain ⟨⟨p, reg⟩, hdel, hw'⟩ := bind_ok.mp hr
  cases hw'
  have hgroup : ∀ p ∈ G.world.server.assigned cfd,
      getClientNode G.world.server p.2 p.1 ≠ .ok none →
      G.world.server.reg.lastJoined p.1 = some (G.groupOf p.2) := by
    intro p hp hnode
    by_contra hlast
    exact hk ⟨p, hp, hnode, hlast⟩
  obtain ⟨hplaced, hsent, hqueued⟩ := h.reassign hgroup hreassign
  refine ⟨hplaced.leave hdel, hsent, fun fd he => ?_⟩
  rcases he with he | he
  · cases he
  · cases he
    exact hqueued

theorem step_stays {G' : Grouped} {e : Event} (h : Placed G.world.server G.groupOf)
    (hk : ¬ G.Astray e) (hstep : G.step supply e = .ok G') :
    Placed G'.world.server G'.groupOf ∧ Confined G G' e := by
  obtain ⟨w', hw', hG'⟩ := bind_ok.mp hstep
  cases hG'
  have hstays : G.Stays w' e := by
    cases e with
    | join cfd sa gids => exact stays_join h hw'
    | submit groupId jobId taskType inputFile system => exact stays_submit h hw'
    | result cfd value => exact stays_result h hw'
    | error cfd => exact stays_error h hk hw'
    | disconnect cfd => exact stays_disconnect h hk hw'
  exact hstays

theorem placed_start {config : Config} (hstart : start supply config = .ok G) :
    Placed G.world.server G.groupOf := by
  obtain ⟨w, hw, hstart⟩ := bind_ok.mp hstart
  cases hstart
  obtain ⟨s, hs, hw⟩ := bind_ok.mp hw
  cases hw
  obtain ⟨v, -, rfl⟩ := initializeJobDll_ok hs
  exact ⟨⟨_, _, _, Registry.zeroed_ok⟩, fun c v j hv => (by cases hv)⟩

theorem Run.placed {config : Config} {es : List Event}
    (hrun : Run supply config (fun G e => ¬ G.Astray e) es G) :
    Placed G.world.server G.groupOf := by
  obtain ⟨G₀, hstart, hmeets, hrun⟩ := hrun
  have hkeeps : ∀ (G : Grouped) (e : Event) (G' : Grouped),
      Placed G.world.server G.groupOf →
      ¬ G.Astray e → G.step supply e = .ok G' → Placed G'.world.server G'.groupOf :=
    fun G e G' h hk hstep => (step_stays h hk hstep).1
  exact runs_inv_of_meets hkeeps (placed_start hstart) hmeets hrun

end Grouped

/-! ## Every run -/

/-- **Confinement.**  In a run in which the client that fails, whenever it has a
piece, has joined the group of its job last, every step sends the pieces of a
job to members of its group only, and queues one only if they are all busy. -/
theorem jobs_confined (supply : JobSupply) (config : Config) (es : List Event)
    (e : Event) (G G' : Grouped)
    (hrun : Grouped.Run supply config (fun G e => ¬ G.Astray e) es G)
    (hk : ¬ G.Astray e) (hstep : G.step supply e = .ok G') : Confined G G' e :=
  (Grouped.step_stays hrun.placed hk hstep).2

/-- A client of the groups 2 and 1 fails, and another member of 1 takes over. -/
theorem jobs_confined_sample :
    ∃ G G', Grouped.Run JobSupply.zeros Config.sample (fun G e => ¬ G.Astray e)
        [.join 5 ⟨0, 0⟩ [2, 1], .submit 1 1 102 (ascii "in") 0,
          .join 6 ⟨0, 0⟩ [1]] G ∧
      G.step JobSupply.zeros (.error 5) = .ok G' ∧
      (G'.world.server.sent.drop G.world.server.sent.length).map (·.fd) = [6] ∧
      Confined G G' (.error 5) := by
  obtain ⟨G, G', hrun, hk, hstep, hsent⟩ : ∃ G G',
      Grouped.Run JobSupply.zeros Config.sample (fun G e => ¬ G.Astray e)
          [.join 5 ⟨0, 0⟩ [2, 1], .submit 1 1 102 (ascii "in") 0,
            .join 6 ⟨0, 0⟩ [1]] G ∧
        ¬ G.Astray (.error 5) ∧ G.step JobSupply.zeros (.error 5) = .ok G' ∧
        (G'.world.server.sent.drop G.world.server.sent.length).map (·.fd) = [6] :=
    Grouped.step_of_check (by decide +kernel)
  exact ⟨G, G', hrun, hstep, hsent, jobs_confined _ _ _ _ _ _ hrun hk hstep⟩

/-- A client joins the group 1 and then 2, and has a piece of a job for 1.  When
it fails the piece goes to a client that is in 2 only. -/
theorem piece_astray :
    ∃ G G', Grouped.Run JobSupply.zeros Config.sample (fun _ _ => True)
        [.join 5 ⟨0, 0⟩ [1, 2], .submit 1 1 102 (ascii "in") 0,
          .join 6 ⟨0, 0⟩ [2]] G ∧
      G.step JobSupply.zeros (.error 5) = .ok G' ∧ ¬ Confined G G' (.error 5) := by
  obtain ⟨G, G', hrun, -, hstep, hdata⟩ : ∃ G G',
      Grouped.Run JobSupply.zeros Config.sample (fun _ _ => True)
        [.join 5 ⟨0, 0⟩ [1, 2], .submit 1 1 102 (ascii "in") 0,
          .join 6 ⟨0, 0⟩ [2]] G ∧
      True ∧ G.step JobSupply.zeros (.error 5) = .ok G' ∧
        ((G'.world.server.sent.drop G.world.server.sent.length).map (·.fd),
          G.about G'.world (.error 5), G.world.server.reg.clientsIn (G'.groupOf 1),
          (G.world.server.reg.infos.cell 0).map (·.cfd))
          = ([6], some 1, [0], some 5) :=
    Grouped.step_of_check (by decide +kernel)
  refine ⟨G, G', hrun, hstep, fun hconfined => ?_⟩
  obtain ⟨hsent, hrest⟩ := Prod.mk.inj hdata
  obtain ⟨habout, hrest⟩ := Prod.mk.inj hrest
  obtain ⟨hmembers, hcell⟩ := Prod.mk.inj hrest
  obtain ⟨f, rest, hnew, hfd, -⟩ := List.map_eq_cons_iff.mp hsent
  obtain ⟨j, c, i, hj, ⟨fs, hfs, hf⟩, hc⟩ :=
    hconfined.sent f (by rw [hnew]; exact List.mem_cons_self)
  cases habout.symm.trans hj
  rw [hmembers] at hc
  obtain ⟨v, _, _, _, hv, -, -, -, hto⟩ := pieceFrames_fd hfs
  have hv₀ : G.world.server.reg.infos.cell 0 = some v :=
    List.mem_singleton.mp hc ▸ hv
  rw [hv₀] at hcell
  have hfd' : f.fd = 5 := (hto f hf).1.trans (Option.some.inj hcell)
  rw [hfd] at hfd'
  exact absurd hfd' (by decide)

end Pyramid
