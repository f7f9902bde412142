/-
# `Pyramid.Server` — the server, event by event (`server.c`, `server_helper.c`)

An event is one message handled, one connection closed or one job submitted,
from beginning to end.  `World` is the server together with what has happened
to it so far: the jobs that were started, and the values that came in for each
job, each with the piece its sender held at the time.

What the server holds is read off its lists.  The list of a job's clients is
read from its tail backwards: `freeClient` leaves its forward pointers wrong.
-/
import Pyramid.Jobs
import Pyramid.Runs

namespace Pyramid

/-! ## Reading the server -/

namespace Server

/-- The first client registered for `cfd`, with the job it was last given. -/
def assigned (s : Server) (cfd : Int) : Option (Nat × Nat) :=
  match serverSearchClientFd s.reg (serverGetClientInfoHead cfd) cfd with
  | .ok (some c) =>
      match s.reg.infos.cell c with
      | some v => v.jn.map fun j => (c, j)
      | none => none
  | _ => none

/-- The jobs, oldest first. -/
def jobList (s : Server) : List Nat :=
  match s.pHead with
  | none => []
  | some p =>
      match s.jobs.cell p with
      | none => []
      | some v => s.jobs.trail (·.next) none s.jobs.next v.next

/-- The `ClientNode`s of the job at `j`, in order. -/
def clientNodes (s : Server) (j : Nat) : List Nat :=
  match s.jobs.cell j with
  | none => []
  | some v => (s.nodes.trail (·.prev) v.job.head s.nodes.next v.job.tail).reverse

/-- The clients of the job at `j`, each with the index of its piece. -/
def held (s : Server) (j : Nat) : List (Ptr × Int) :=
  (s.clientNodes j).filterMap fun a => (s.nodes.cell a).map fun v =>
    (v.client, v.index)

/-- The index of the piece of the job at `j` that the client at `c` holds. -/
def heldBy (s : Server) (j c : Nat) : Option Int :=
  ((s.held j).find? fun p => p.1 == some c).map (·.2)

/-- `reassignQ`: job ids and indexes, from its head on. -/
def queued (s : Server) : List (Int × Int) :=
  (s.nodes.trail (·.next) none s.nodes.next s.qHead).filterMap fun a =>
    (s.nodes.cell a).map fun v => (v.jid, v.index)

/-- The indexes of the pieces that wait for the job at `j`. -/
def waitingFor (s : Server) (j : Nat) : List Int :=
  match s.jobs.cell j with
  | none => []
  | some v => (s.queued.filter fun p => p.1 == v.job.id).map (·.2)

/-- The ids of the jobs in the list. -/
def jobIds (s : Server) : List Int :=
  s.jobList.filterMap fun j => (s.jobs.cell j).map (·.job.id)

/-- The first idle member of a group. -/
def idleIn (s : Server) (gid : Nat) : Except Halt Ptr :=
  match serverGetClientGidHead gid with
  | none => .error .nullDeref
  | some cgh => idleMember s.reg s.reg.groups.next (s.reg.multicastGroups cgh).h

/-- Whom `reassign_job` would give the piece of the client at `c` to. -/
def idleFor (s : Server) (c : Nat) : Except Halt Ptr := do
  let ci ← s.reg.infos.load (some c)
  let cg ← s.reg.groups.load ci.cg
  s.idleIn cg.gid

/-- The tables are there, and no job or client node yet. -/
def boot (reg : Registry) (config : Config) : Server where
  reg := reg
  nodes := Heap.empty
  tasks := Heap.empty
  jobs := Heap.empty
  qHead := none
  qTail := none
  pHead := none
  pTail := none
  config := config
  sent := []
  commands := []
  mutexes := []

end Server

/-! ## Asking for a result -/

inductive JobReply where
  | invalid
  | inProgress
  | result (v : Int)
  deriving DecidableEq, Repr

def JobReply.text (jobId : Int) : JobReply → Bytes
  | .invalid => ascii "\nInvalid Job Id "
  | .inProgress =>
      ascii "\nJob " ++ decimal jobId ++ ascii ", Result : Job still in Progress.."
  | .result v => ascii "\nJob " ++ decimal jobId ++ ascii ", Result : " ++ decimal v

/-- `sh_display_job_results`, with what it answers.  The `long long` is
converted to the `int` that `getJobNode` takes, and no answer is so long that
`sh_try_to_send_data` sends it in two parts. -/
def shDisplayJobResults (s : Server) (cfd jobId : Int) :
    Except Halt (JobReply × Server) := do
  let reply ← match ← getJobNode s (toInt32 jobId) with
    | none => .ok JobReply.invalid
    | some j => do
        let v ← s.jobs.load (some j)
        .ok (if v.numClients ≠ 0 then .inProgress else .result v.job.result)
  let s ← shSendEncodedData s cfd (snprintf 1024 (reply.text jobId)) 5
  .ok (reply, s)

/-! ## Events -/

inductive Event where
  | join (cfd : Int) (sa : SockAddr) (gids : List Nat)
  | submit (groupId jobId taskType : Int) (inputFile : Bytes) (system : Int)
  | result (cfd : Int) (value : Bytes)
  | error (cfd : Int)
  | disconnect (cfd : Int)

/-- A value that came in for a job, with the index of the piece its sender held. -/
structure Told where
  job : Nat
  index : Option Int
  value : Int
  deriving DecidableEq, Repr

structure World where
  server : Server
  /-- the jobs that `initJob` started, and into how many pieces each was divided -/
  started : List (Nat × Nat)
  told : List Told

namespace World

/-- The job just added was started. -/
def begun (w : World) (s : Server) : List (Nat × Nat) :=
  match s.pTail with
  | none => w.started
  | some j => (j, (s.clientNodes j).length) :: w.started

/-- `value` comes in from `cfd`. -/
def heard (w : World) (cfd : Int) (value : Bytes) : List Told :=
  match w.server.assigned cfd with
  | none => w.told
  | some (c, j) => ⟨j, w.server.heldBy j c, atoll value⟩ :: w.told

/-- The values that came in for the job at `j` from clients
that held a piece of it. -/
def answers (w : World) (j : Nat) : List Int :=
  (w.told.filter fun t => t.job == j && t.index.isSome).map (·.value)

/-- The indexes of those pieces. -/
def answered (w : World) (j : Nat) : List Int :=
  (w.told.filter fun t => t.job == j).filterMap (·.index)

/-- The values that came in for it from clients that did not. -/
def strays (w : World) (j : Nat) : List Int :=
  (w.told.filter fun t => t.job == j && t.index.isNone).map (·.value)

/-- In how many places the piece `i` of the job at `j` is:
held, waiting or answered. -/
def places (w : World) (j : Nat) (i : Int) : Nat :=
  ((w.server.held j).map (·.2)).count i + (w.server.waitingFor j).count i
    + (w.answered j).count i

variable (supply : JobSupply)

def step (w : World) : Event → Except Halt World
  | .join cfd sa gids => do
      let (_, reg) ← serverAddOneClientFd supply.toSupply w.server.reg
        (some (serverGetClientInfoHead cfd)) cfd sa gids
      .ok { w with server := { w.server with reg := reg } }
  | .submit groupId jobId taskType inputFile system => do
      let (started, s) ← initJob supply w.server groupId jobId taskType
        inputFile system
      .ok { w with server := s, started := if started then w.begun s else w.started }
  | .result cfd value => do
      let (_, s) ← updateJobResult w.server cfd value
      .ok { w with server := s, told := w.heard cfd value }
  | .error cfd => do
      let s ← reassignJob supply w.server cfd
      .ok { w with server := s }
  | .disconnect cfd => do
      let s ← reassignJob supply w.server cfd
      let (_, reg) ← serverDelOneClientFd s.reg
        (some (serverGetClientInfoHead cfd)) cfd
      .ok { w with server := { s with reg := reg } }

def start (config : Config) : Except Halt World := do
  let s ← initializeJobDll supply (Server.boot Registry.zeroed config)
  .ok ⟨s, [], []⟩

/-- From the start of the server the events lead to `w`, and each meets `K`. -/
def Run (config : Config) (K : World → Event → Prop) (es : List Event)
    (w : World) : Prop :=
  ∃ w₀, start supply config = .ok w₀ ∧ StepsMeet (step supply) K es w₀ ∧
    runs (step supply) es w₀ = .ok w

/-- A run on given events is there if it can be carried out; `f` looks at its end. -/
theorem run_of_check {α : Type} {supply : JobSupply} {config : Config}
    {K : World → Event → Prop} [∀ w e, Decidable (K w e)] {es : List Event}
    {f : World → α} {a : α} {R : World → Prop}
    (h : ((start supply config).toOption.bind fun w₀ =>
      if StepsMeet (step supply) K es w₀
        then (runs (step supply) es w₀).toOption.map f else none)
        = some a) (hR : ∀ w, Run supply config K es w → f w = a → R w) :
    ∃ w, Run supply config K es w ∧ f w = a ∧ R w := by
  obtain ⟨w₀, w, hstart, hmeets, hrun, hw⟩ := Pyramid.run_of_check h
  exact ⟨w, ⟨w₀, hstart, hmeets, hrun⟩, hw, hR w ⟨w₀, hstart, hmeets, hrun⟩ hw⟩

/-- The same for a run and one more step. -/
theorem step_of_check {α : Type} {supply : JobSupply} {config : Config}
    {K : World → Event → Prop} [∀ w e, Decidable (K w e)] {es : List Event}
    {e : Event} {f : World → World → α} {a : α}
    (h : ((start supply config).toOption.bind fun w₀ =>
      if StepsMeet (step supply) K es w₀
        then (runs (step supply) es w₀).toOption.map fun w =>
        if K w e then (w.step supply e).toOption.map (f w) else none else none)
          = some (some a)) :
    ∃ w w', Run supply config K es w ∧ K w e ∧ w.step supply e = .ok w' ∧
      f w w' = a := by
  obtain ⟨w₀, w, w', hstart, hmeets, hrun, hk, hstep, hw⟩ := Pyramid.step_of_check h
  exact ⟨w, w', ⟨w₀, hstart, hmeets, hrun⟩, hk, hstep, hw⟩

end World

/-! ## What the calls return -/

section Returns
variable {supply : JobSupply} {s s' : Server} {cfd : Int}

theorem Server.assigned_of_cell {c : Nat} {ci : ClientInfo}
    (hsearch : serverSearchClientFd s.reg (serverGetClientInfoHead cfd) cfd
      = .ok (some c))
    (hcell : s.reg.infos.cell c = some ci) :
    s.assigned cfd = ci.jn.map fun j => (c, j) := by
  rw [Server.assigned, hsearch]
  simp only [hcell]

/-- The calls of `reassign_job` for a client that has a node
in the list of its job. -/
structure Holding (s : Server) (cfd : Int) (c j old : Nat) (idle : Ptr) : Prop where
  found : serverSearchClientFd s.reg (serverGetClientInfoHead cfd) cfd = .ok (some c)
  assigned : s.assigned cfd = some (c, j)
  node : getClientNode s j c = .ok (some old)
  asked : s.idleFor c = .ok idle
  walk : ∃ ci cg cgh, s.reg.infos.cell c = some ci ∧ ci.jn = some j ∧
    s.reg.groups.load ci.cg = .ok cg ∧
    serverGetClientGidHead cg.gid = some cgh ∧
    idleMember s.reg s.reg.groups.next (s.reg.multicastGroups cgh).h = .ok idle

theorem reassignJob_cases (hr : reassignJob supply s cfd = .ok s') :
    (s' = s ∧ ∀ c, serverSearchClientFd s.reg (serverGetClientInfoHead cfd) cfd =
      .ok (some c) →
        ∃ ci, s.reg.infos.cell c = some ci ∧ ∀ j, ci.jn = some j →
        getClientNode s j c = .ok none) ∨
      ∃ c j old idle, Holding s cfd c j old idle ∧
        ((idle = none ∧ queuePiece s j old = .ok s') ∨
          ∃ w, idle = some w ∧ movePiece supply s j old c w = .ok s') := by
  obtain ⟨found, hsearch, hr⟩ := bind_ok.mp hr
  cases found with
  | none =>
      cases hr
      refine Or.inl ⟨rfl, fun c hc => ?_⟩
      cases hsearch.symm.trans hc
  | some c =>
      obtain ⟨ci, hci, hr⟩ := bind_ok.mp hr
      obtain ⟨d, hd, hcell⟩ := Heap.load_ok.mp hci
      cases hd
      have hsame : ∀ {d : Nat}, serverSearchClientFd s.reg
          (serverGetClientInfoHead cfd) cfd
          = .ok (some d) → d = c := by
        intro d hd
        cases hsearch.symm.trans hd
        rfl
      cases hjn : ci.jn with
      | none =>
          simp only [hjn] at hr
          cases hr
          refine Or.inl ⟨rfl, fun d hd => ?_⟩
          rw [hsame hd]
          refine ⟨ci, hcell, fun j hj => ?_⟩
          cases hjn.symm.trans hj
      | some j =>
          simp only [hjn] at hr
          obtain ⟨cg, hcg, hr⟩ := bind_ok.mp hr
          obtain ⟨node, hnode, hr⟩ := bind_ok.mp hr
          cases node with
          | none =>
              cases hr
              refine Or.inl ⟨rfl, fun d hd => ?_⟩
              rw [hsame hd]
              refine ⟨ci, hcell, fun k hk => ?_⟩
              cases hjn.symm.trans hk
              exact hnode
          | some old =>
              cases hgid : serverGetClientGidHead cg.gid with
              | none =>
                  simp only [hgid] at hr
                  cases hr
              | some cgh =>
                  simp only [hgid] at hr
                  obtain ⟨idle, hidle, hr⟩ := bind_ok.mp hr
                  refine Or.inr ⟨c, j, old, idle,
                    ⟨hsearch, ?_, hnode, ?_, ci, cg, cgh, hcell, hjn, hcg, hgid,
                    hidle⟩, ?_⟩
                  · rw [Server.assigned_of_cell hsearch hcell, hjn, Option.map_some]
                  · rw [Server.idleFor, hci, ok_bind, hcg, ok_bind,
                      Server.idleIn, hgid]
                    exact hidle
                  · cases idle with
                    | none => exact Or.inl ⟨rfl, hr⟩
                    | some w => exact Or.inr ⟨w, rfl, hr⟩

/-- The value is merged, and then a waiting piece is handed over
or the client is freed. -/
theorem updateJobResult_cases {value : Bytes} {p : Bool}
    (hr : updateJobResult s cfd value = .ok (p, s')) :
    (s' = s ∧ s.assigned cfd = none) ∨
      ∃ c j s₁ jobs s₂ cn s₃, s.assigned cfd = some (c, j) ∧
        (∃ ci, s.reg.infos.cell c = some ci ∧ ci.jn = some j) ∧
        lockMutex s (some j) = .ok s₁ ∧
        s₁.jobs.modify (some j) (keepMax (atoll value)) = .ok jobs ∧
        unlockMutex { s₁ with jobs := jobs } (some j) = .ok s₂ ∧
        dequeuePendingJob s₂ j = .ok (cn, s₃) ∧
        ((∃ a q, cn = some a ∧ assignPendingJob s₃ j a c = .ok (q, s')) ∨
          ∃ v, cn = none ∧ s₃.jobs.load (some j) = .ok v ∧
          freeClient s₃ v.job.id c = .ok (p, s')) := by
  obtain ⟨found, hsearch, hr⟩ := bind_ok.mp hr
  cases found with
  | none =>
      cases hr
      exact Or.inl ⟨rfl, by rw [Server.assigned, hsearch]⟩
  | some c =>
      obtain ⟨ci, hci, hr⟩ := bind_ok.mp hr
      obtain ⟨d, hd, hcell⟩ := Heap.load_ok.mp hci
      cases hd
      have hassigned := Server.assigned_of_cell hsearch hcell
      cases hjn : ci.jn with
      | none =>
          simp only [hjn] at hr
          cases hr
          exact Or.inl ⟨rfl, by rw [hassigned, hjn, Option.map_none]⟩
      | some j =>
          simp only [hjn] at hr
          rw [hjn, Option.map_some] at hassigned
          obtain ⟨s₁, hlock, hr⟩ := bind_ok.mp hr
          obtain ⟨jobs, hjobs, hr⟩ := bind_ok.mp hr
          obtain ⟨s₂, hunlock, hr⟩ := bind_ok.mp hr
          obtain ⟨⟨cn, s₃⟩, hdequeue, hrest⟩ := bind_ok.mp hr
          refine Or.inr ⟨c, j, s₁, jobs, s₂, cn, s₃, hassigned, ⟨ci, hcell, hjn⟩,
            hlock, hjobs, hunlock, hdequeue, ?_⟩
          cases cn with
          | none =>
              obtain ⟨v, hv, hfree⟩ := bind_ok.mp hrest
              exact Or.inr ⟨v, rfl, hv, hfree⟩
          | some a =>
              obtain ⟨⟨q, s₄⟩, hassign, hrest⟩ := bind_ok.mp hrest
              cases hrest
              exact Or.inl ⟨a, q, rfl, hassign⟩

end Returns

/-- Memory is never short, and comes zeroed. -/
def JobSupply.zeros : JobSupply where
  info _ := some ⟨none, none, none, 0, 0, 0, 0, false, none⟩
  group _ := some ⟨none, none, none, none, 0⟩
  node _ := some ⟨none, none, none, 0, 0⟩
  task _ := some ⟨[], 0⟩
  job _ := some ⟨false, ⟨0, 0, none, none, none⟩, 0, none, none⟩

def Config.sample : Config :=
  ⟨ascii "10.0.0.1", ascii "/home/", ascii "repository", ascii "pw"⟩

end Pyramid
