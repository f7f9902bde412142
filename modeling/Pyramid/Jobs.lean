/-
# `Pyramid.Jobs` — jobs and the clients they are given to (`server/src/jobs.c`)

A job is a `JobNode` in the list from `pHead`, whose first node stands for no
job.  The pieces of a job are held by the `ClientNode`s of its own list, again
after a first node that stands for none; the node of a piece that could not be
handed to anyone waits in `reassignQ` instead.

The system calls are events of the environment: `system` returns what its
argument says, and `send` takes the whole frame.  A mutex is whether it is
held; locking a held one blocks for ever.  What is locked and unlocked, sent
and handed to the shell is logged.
-/
import Pyramid.Groups
import Pyramid.Memory.Text
import Pyramid.Tlv

namespace Pyramid

/-! ## Records -/

structure ClientNode where
  client : Ptr
  prev : Ptr
  next : Ptr
  index : Int
  jid : Int
  deriving DecidableEq, Repr

structure Task where
  basePath : Bytes
  taskType : Int
  deriving DecidableEq, Repr

/-- `Job`, without the `result_path` that nothing uses. -/
structure Job where
  id : Int
  result : Int
  task : Ptr
  head : Ptr
  tail : Ptr
  deriving DecidableEq, Repr

structure JobNode where
  lock : Bool
  job : Job
  numClients : Int
  prev : Ptr
  next : Ptr
  deriving DecidableEq, Repr

def nodeLinks : Links ClientNode where
  next v := v.next
  prev v := v.prev
  setNext p v := { v with next := p }
  setPrev p v := { v with prev := p }
  next_setNext _ _ := rfl
  prev_setNext _ _ := rfl
  next_setPrev _ _ := rfl
  prev_setPrev _ _ := rfl

def jobLinks : Links JobNode where
  next v := v.next
  prev v := v.prev
  setNext p v := { v with next := p }
  setPrev p v := { v with prev := p }
  next_setNext _ _ := rfl
  prev_setNext _ _ := rfl
  next_setPrev _ _ := rfl
  prev_setPrev _ _ := rfl

inductive MutexOp where
  | lock (m : Ptr)
  | unlock (m : Ptr)
  deriving DecidableEq, Repr

/-- A frame given to `send`. -/
structure Sent where
  fd : Int
  frame : Bytes
  deriving DecidableEq, Repr

/-- Where the pieces are, and how to get at them (`central_server.c`). -/
structure Config where
  centralRepoIp : Bytes
  jobDirectory : Bytes
  username : Bytes
  passwd : Bytes

structure Server where
  reg : Registry
  nodes : Heap ClientNode
  tasks : Heap Task
  jobs : Heap JobNode
  qHead : Ptr
  qTail : Ptr
  pHead : Ptr
  pTail : Ptr
  config : Config
  sent : List Sent
  commands : List Bytes
  mutexes : List MutexOp

/-- What `malloc` gives, for every type of record. -/
structure JobSupply extends Supply where
  node : Nat → Option ClientNode
  task : Nat → Option Task
  job : Nat → Option JobNode

/-! ## Mutexes -/

def lockMutex (s : Server) (p : Ptr) : Except Halt Server := do
  let v ← s.jobs.load p
  if v.lock then .error .deadlock
  else do
    let jobs ← s.jobs.modify p fun v => { v with lock := true }
    .ok { s with jobs := jobs, mutexes := s.mutexes ++ [.lock p] }

/-- Unlocking a mutex that is not held changes nothing. -/
def unlockMutex (s : Server) (p : Ptr) : Except Halt Server := do
  let jobs ← s.jobs.modify p fun v => { v with lock := false }
  .ok { s with jobs := jobs, mutexes := s.mutexes ++ [.unlock p] }

/-! ## Sending -/

def maxSshCmdSize : Nat := 2048

/-- `encode` of an `int`, converted to `Attribute`. -/
def encodeType (type : Int) (data : Bytes) (length : Int) (buf : Buffer) :
    Except Halt (Nat × Buffer) :=
  match if type < 0 then none else Attribute.ofCode type.toNat with
  | none => .ok (0, buf)
  | some attr => encode attr data length buf

/-- The loop of `sh_send_encoded_data`.  A type that encodes to nothing is sent
again and again. -/
def sendRounds (fd : Int) (data : Bytes) (type : Int) :
    Nat → Int → Server → Except Halt Server
  | fuel, len, s =>
      if len ≤ 0 then .ok s
      else match fuel with
        | 0 => .error .diverge
        | fuel + 1 => do
            let (encodedLen, buf) ← encodeType type data len ⟨0,
              List.replicate 1024 0⟩
            sendRounds fd data type fuel (len - encodedLen)
              { s with sent := s.sent ++ [⟨fd, buf.payload.take encodedLen⟩] }

def shSendEncodedData (s : Server) (fd : Int) (data : Bytes) (type : Int) :
    Except Halt Server := do
  let text ← cString data
  sendRounds fd data type text.length text.length s

/-- `"%s:%sjob_%d/prob/input_p%d%d%d"`, the path of piece `index` of job `id`. -/
def piecePath (c : Config) (id index : Int) : Bytes :=
  snprintf maxSshCmdSize (c.centralRepoIp ++ ascii ":" ++ c.jobDirectory
    ++ ascii "job_"
    ++ decimal id ++ ascii "/prob/input_p" ++ decimal (index.tdiv 100)
      ++ decimal (index.tdiv 10)
    ++ decimal (index.tmod 10))

/-- `db_server_divide`; `system` is what the shell returns for the command. -/
def dbServerDivide (s : Server) (path : Bytes) (jobId n system : Int) :
    Except Halt (Int × Server) :=
  if n = 0 then .ok (1, s)
  else do
    let path ← cString path
    let sshcmd := snprintf maxSshCmdSize (ascii "sshpass -p" ++ s.config.passwd
      ++ ascii " ssh -o StrictHostKeyChecking=no " ++ s.config.username ++ ascii "@"
      ++ s.config.centralRepoIp ++ ascii " /home/repository/cohort/dos.sh "
        ++ decimal n
      ++ ascii " " ++ decimal jobId ++ ascii " " ++ path)
    .ok (if system = 0 then 0 else 1, { s with commands := s.commands ++ [sshcmd] })

/-! ## The list of jobs -/

section Allocating
variable (supply : JobSupply)

def initializeJobDll (s : Server) : Except Halt Server := do
  let (pHead, jobs) := s.jobs.malloc supply.job
  let jobs ← jobs.modify pHead fun v =>
    { v with
      prev := none
      next := s.pTail
      job := { v.job with id := -1, head := none, tail := none }
      numClients := 0
      lock := false }
  .ok { s with jobs := jobs, pHead := pHead, pTail := pHead }

/-- `addJob`.  `job.result` keeps what the memory held, and so does the `next`
of the first `ClientNode`. -/
def addJob (s : Server) (jobId : Int) (task : Ptr) : Except Halt (Ptr × Server) := do
  let s ← lockMutex s s.pTail
  let (new, jobs) := s.jobs.malloc supply.job
  let jobs ← jobs.modify new fun v =>
    { v with next := none, prev := s.pTail, job := { v.job with
      id := jobId }, lock := false }
  let (head, nodes) := s.nodes.malloc supply.node
  let stale ← jobs.load new
  let nodes ← nodes.modify head fun v =>
    { v with prev := none, client := some 0xdeadbeef, next := stale.job.tail }
  let jobs ← jobs.modify new fun v =>
    { v with job := { v.job with
      head := head, tail := head, task := task }, numClients := 0 }
  let jobs ← jobs.modify s.pTail fun v => { v with next := new }
  let s ← unlockMutex { s with jobs := jobs, nodes := nodes, pTail := new } new
  .ok (new, s)

def getJobNode (s : Server) (jobId : Int) : Except Halt Ptr := do
  let pHead ← s.jobs.load s.pHead
  s.jobs.chase (·.next) (fun v => v.job.id == jobId) s.jobs.next pHead.next

/-! ## The clients of a job -/

def serverUpdateJobNode (s : Server) (ci : Ptr) (jn : Nat) : Except Halt Server := do
  let infos ← s.reg.infos.modify ci fun v => { v with jn := some jn }
  .ok { s with reg := { s.reg with infos := infos } }

/-- `ci->busy = …` -/
def setBusy (s : Server) (ci : Ptr) (busy : Bool) : Except Halt Server := do
  let infos ← s.reg.infos.modify ci fun v => { v with busy := busy }
  .ok { s with reg := { s.reg with infos := infos } }

/-- `addClientToJob`.  `index` keeps what the memory held. -/
def addClientToJob (s : Server) (jobNode : Nat) (client : Ptr) :
    Except Halt (Ptr × Server) := do
  let (node, nodes) := s.nodes.malloc supply.node
  let j ← s.jobs.load (some jobNode)
  let nodes ← nodes.modify node fun v =>
    { v with client := client, jid := j.job.id, next := none, prev := j.job.tail }
  let nodes ← nodes.modify j.job.tail fun v => { v with next := node }
  let jobs ← s.jobs.modify (some jobNode) fun j =>
    { j with job := { j.job with tail := node }, numClients := j.numClients + 1 }
  .ok (node, { s with nodes := nodes, jobs := jobs })

def getClientNode (s : Server) (jobNode client : Nat) : Except Halt Ptr := do
  let j ← s.jobs.load (some jobNode)
  let head ← s.nodes.load j.job.head
  s.nodes.chase (·.next) (fun cn => cn.client == some client) s.nodes.next head.next

/-- `freeClient`.  Only for the last node is the `next` of the
node before it put right. -/
def freeClient (s : Server) (jobId : Int) (client : Nat) :
    Except Halt (Bool × Server) :=
  if jobId < 0 then .ok (false, s)
  else do
    match ← getJobNode s jobId with
    | none => .ok (false, s)
    | some jobNode => do
        match ← getClientNode s jobNode client with
        | none => .ok (true, s)
        | some current => do
            let v ← s.nodes.load (some current)
            match v.next with
            | none => do
                let nodes ← s.nodes.modify v.prev fun w => { w with next := none }
                let s ← setBusy s (some client) false
                let jobs ← s.jobs.modify (some jobNode) fun j =>
                  { j with job := { j.job with
                    tail := v.prev }, numClients := j.numClients - 1 }
                let nodes ← nodes.free (some current)
                .ok (true, { s with nodes := nodes, jobs := jobs })
            | some next => do
                let nodes ← s.nodes.modify (some next) fun w =>
                  { w with prev := v.prev }
                let s ← setBusy s (some client) false
                let jobs ← s.jobs.modify (some jobNode) fun j =>
                  { j with numClients := j.numClients - 1 }
                let nodes ← nodes.free (some current)
                .ok (true, { s with nodes := nodes, jobs := jobs })

/-! ## Starting a job -/

/-- The loop of `initJob` over the members of the group. -/
def reserveClients (jobNode : Nat) : Nat → Ptr → Server → Except Halt Server
  | _, none, s => .ok s
  | 0, some _, _ => .error .diverge
  | fuel + 1, some cg, s => do
      let v ← s.reg.groups.load (some cg)
      let ci ← s.reg.infos.load v.ci
      if ci.busy then reserveClients jobNode fuel v.n s
      else do
        let (_, s) ← addClientToJob supply s jobNode v.ci
        let s ← serverUpdateJobNode s v.ci jobNode
        let s ← setBusy s v.ci true
        reserveClients jobNode fuel v.n s

/-- The loop of `assignJob`: the nodes from `current` on get
the indexes from `i` on. -/
def assignFrom (id taskType : Int) : Nat → Nat → Ptr → Server → Except Halt Server
  | _, _, none, s => .ok s
  | 0, _, some _, _ => .error .diverge
  | fuel + 1, i, some current, s => do
      let nodes ← s.nodes.modify (some current) fun cn => { cn with index := i }
      let cn ← nodes.load (some current)
      let ci ← s.reg.infos.load cn.client
      let s ← shSendEncodedData { s with nodes := nodes } ci.cfd
        (piecePath s.config id i) taskType
      assignFrom id taskType fuel (i + 1) cn.next s

def assignJob (s : Server) (jobNode : Nat) (task : Ptr) :
    Except Halt (Bool × Server) := do
  let j ← s.jobs.load (some jobNode)
  let head ← s.nodes.load j.job.head
  let t ← s.tasks.load task
  let s ← assignFrom j.job.id t.taskType s.nodes.next 0 head.next s
  .ok (true, s)

/-- `memcpy` of the path into `task->basePath`, already zeroed. -/
def storePath (inputFile : Bytes) : Except Halt Bytes :=
  if inputFile.length ≤ 256
    then .ok (inputFile ++ List.replicate (256 - inputFile.length) 0)
  else .error .outOfBounds

def initJob (s : Server) (groupId jobId taskType : Int) (inputFile : Bytes)
    (system : Int) :
    Except Halt (Bool × Server) :=
  if groupId ≤ 0 ∨ jobId < 0 then .ok (false, s)
  else do
    let (task, tasks) := s.tasks.malloc supply.task
    let tasks ← tasks.modify task fun t =>
      { t with basePath := List.replicate 256 0 }
    let basePath ← storePath inputFile
    let tasks ← tasks.modify task fun _ => ⟨basePath, taskType⟩
    let (jobNode, s) ← addJob supply { s with tasks := tasks } jobId task
    match jobNode, serverGetClientGidHead groupId.toNat with
    | some jobNode, some cgh => do
        let s ← reserveClients supply jobNode s.reg.groups.next
          (s.reg.multicastGroups cgh).h s
        let j ← s.jobs.load (some jobNode)
        if j.numClients = 0 then .ok (false, s)
        else do
          let (fileStatus, s) ← dbServerDivide s basePath jobId j.numClients system
          if fileStatus ≠ 0 then .ok (false, s)
          else assignJob s jobNode task
    | _, _ => .error .nullDeref

/-! ## `reassignQ` -/

def enqueuePendingJob (s : Server) (jn cn : Ptr) : Except Halt Server :=
  match jn, cn with
  | some _, some c => do
      let nodes ← s.nodes.modify (some c) fun v =>
        { v with next := s.qHead, prev := none }
      let nodes ← attach nodeLinks nodes s.qHead c
      .ok { s with
        nodes := nodes
        qHead := some c
        qTail := if s.qHead = none then some c else s.qTail }
  | _, _ => .ok s

/-- The node nearest the tail that waits for this job, taken out of the queue. -/
def dequeuePendingJob (s : Server) (jn : Nat) : Except Halt (Ptr × Server) :=
  match s.qTail with
  | none => .ok (none, s)
  | some _ => do
      let j ← s.jobs.load (some jn)
      match ← s.nodes.chase (·.prev) (fun cn => cn.jid == j.job.id) s.nodes.next
        s.qTail with
      | none => .ok (none, s)
      | some cur => do
          let v ← s.nodes.load (some cur)
          let nodes ← detach nodeLinks s.nodes v
          .ok (some cur, { s with
            nodes := nodes
            qHead := detachFirst nodeLinks v s.qHead
            qTail := detachLast nodeLinks v s.qTail })

/-- The piece of `cn` goes to a client that holds a piece of the job already. -/
def assignPendingJob (s : Server) (jn cn reassign2client : Nat) :
    Except Halt (Bool × Server) := do
  match ← getClientNode s jn reassign2client with
  | none => .ok (false, s)
  | some reassign2cn => do
      let v ← s.nodes.load (some cn)
      let nodes ← s.nodes.modify (some reassign2cn) fun w =>
        { w with index := v.index }
      let nodes ← nodes.free (some cn)
      let w ← nodes.load (some reassign2cn)
      let ci ← s.reg.infos.load w.client
      let j ← s.jobs.load (some jn)
      let t ← s.tasks.load j.job.task
      let s ← shSendEncodedData { s with nodes := nodes } ci.cfd
        (piecePath s.config j.job.id v.index) t.taskType
      .ok (true, s)

/-! ## Errors and results -/

/-- The loop of `reassign_job`: the first member of the group that is not busy. -/
def idleMember (reg : Registry) : Nat → Ptr → Except Halt Ptr
  | _, none => .ok none
  | 0, some _ => .error .diverge
  | fuel + 1, some cg => do
      let v ← reg.groups.load (some cg)
      let ci ← reg.infos.load v.ci
      if ci.busy then idleMember reg fuel v.n else .ok v.ci

/-- No member of the group is idle: the piece waits, and its
client keeps its flag. -/
def queuePiece (s : Server) (jobNode oldcn : Nat) : Except Halt Server := do
  let v ← s.nodes.load (some oldcn)
  let nodes ← unlink nodeLinks s.nodes v
  let nodes ← nodes.modify (some oldcn) fun w =>
    { w with prev := none, next := none, client := none }
  let s ← enqueuePendingJob { s with nodes := nodes } (some jobNode) (some oldcn)
  let jobs ← s.jobs.modify (some jobNode) fun j =>
    { j with numClients := j.numClients - 1 }
  .ok { s with jobs := jobs }

/-- The piece goes to `newClient`, and the node of the old client is freed. -/
def movePiece (s : Server) (jobNode oldcn client newClient : Nat) :
    Except Halt Server := do
  let s ← serverUpdateJobNode s (some newClient) jobNode
  let (cn, s) ← addClientToJob supply s jobNode (some newClient)
  let s ← setBusy s (some newClient) true
  let old ← s.nodes.load (some oldcn)
  let nodes ← s.nodes.modify cn fun w => { w with index := old.index }
  let s := { s with nodes := nodes }
  let j ← s.jobs.load (some jobNode)
  let t ← s.tasks.load j.job.task
  let ci ← s.reg.infos.load (some newClient)
  let s ← shSendEncodedData s ci.cfd (piecePath s.config j.job.id old.index)
    t.taskType
  let (_, s) ← freeClient s j.job.id client
  .ok s

/-- `reassign_job`, which always returns true. -/
def reassignJob (s : Server) (cfd : Int) : Except Halt Server := do
  match ← serverSearchClientFd s.reg (serverGetClientInfoHead cfd) cfd with
  | none => .ok s
  | some client => do
      let ci ← s.reg.infos.load (some client)
      match ci.jn with
      | none => .ok s
      | some jobNode => do
          let cg ← s.reg.groups.load ci.cg
          match ← getClientNode s jobNode client with
          | none => .ok s
          | some oldcn =>
              match serverGetClientGidHead cg.gid with
              | none => .error .nullDeref
              | some cgh => do
                  let first := (s.reg.multicastGroups cgh).h
                  match ← idleMember s.reg s.reg.groups.next first with
                  | none => queuePiece s jobNode oldcn
                  | some newClient =>
                      movePiece supply s jobNode oldcn client newClient

end Allocating

/-- `if (jn->job.result < result) jn->job.result = result;` -/
def keepMax (result : Int) (v : JobNode) : JobNode :=
  if v.job.result < result then { v with job := { v.job with result := result } }
    else v

def updateJobResult (s : Server) (cfd : Int) (value : Bytes) :
    Except Halt (Bool × Server) := do
  let result := atoll value
  match ← serverSearchClientFd s.reg (serverGetClientInfoHead cfd) cfd with
  | none => .ok (false, s)
  | some client => do
      let ci ← s.reg.infos.load (some client)
      match ci.jn with
      | none => .ok (false, s)
      | some jn => do
          let s ← lockMutex s (some jn)
          let jobs ← s.jobs.modify (some jn) (keepMax result)
          let s ← unlockMutex { s with jobs := jobs } (some jn)
          let (cn, s) ← dequeuePendingJob s jn
          match cn with
          -- whether the piece was handed over is not asked
          | some cn => do
              let (_, s) ← assignPendingJob s jn cn client
              .ok (true, s)
          | none => do
              let j ← s.jobs.load (some jn)
              freeClient s j.job.id client

/-! ## The loops of a submission, round by round -/

/-- `reserveClients` has come from `s` to `s'` in finitely many rounds. -/
inductive ReserveRounds (supply : JobSupply) (jobNode : Nat) (s' : Server) :
    Nat → Ptr → Server → Prop
  | done (fuel : Nat) : ReserveRounds supply jobNode s' fuel none s'
  | busy {fuel cg c : Nat} {v : ClientGroup} {ci : ClientInfo} {s : Server} :
      s.reg.groups.cell cg = some v → v.ci = some c → s.reg.infos.cell c = some ci →
        ci.busy = true →
      ReserveRounds supply jobNode s' fuel v.n s →
      ReserveRounds supply jobNode s' (fuel + 1) (some cg) s
  | idle {fuel cg c : Nat} {v : ClientGroup} {ci : ClientInfo} {node : Ptr}
      {s s₁ s₂ s₃ : Server} :
      s.reg.groups.cell cg = some v → v.ci = some c → s.reg.infos.cell c = some ci →
        ci.busy = false →
      addClientToJob supply s jobNode (some c) = .ok (node, s₁) →
      serverUpdateJobNode s₁ (some c) jobNode = .ok s₂ →
      setBusy s₂ (some c) true = .ok s₃ →
      ReserveRounds supply jobNode s' fuel v.n s₃ →
      ReserveRounds supply jobNode s' (fuel + 1) (some cg) s

theorem reserveClients_rounds {supply : JobSupply} {jobNode : Nat} {s' : Server} :
    ∀ {fuel : Nat} {p : Ptr} {s : Server},
      reserveClients supply jobNode fuel p s = .ok s' →
      ReserveRounds supply jobNode s' fuel p s := by
  intro fuel
  induction fuel with
  | zero =>
      intro p s h
      cases p with
      | none =>
          cases h
          exact .done 0
      | some cg => cases h
  | succ fuel ih =>
      intro p s h
      cases p with
      | none =>
          cases h
          exact .done (fuel + 1)
      | some cg =>
          obtain ⟨v, hload, h⟩ := bind_ok.mp h
          obtain ⟨ci, hci, h⟩ := bind_ok.mp h
          obtain ⟨a, ha, hv⟩ := Heap.load_ok.mp hload
          cases ha
          obtain ⟨c, hc, hcell⟩ := Heap.load_ok.mp hci
          cases hbusy : ci.busy with
          | true =>
              rw [if_pos hbusy] at h
              exact .busy hv hc hcell hbusy (ih h)
          | false =>
              rw [if_neg (by simp [hbusy]), hc] at h
              obtain ⟨⟨node, s₁⟩, hadd, h⟩ := bind_ok.mp h
              obtain ⟨s₂, hjn, h⟩ := bind_ok.mp h
              obtain ⟨s₃, hset, h⟩ := bind_ok.mp h
              exact .idle hv hc hcell hbusy hadd hjn hset (ih h)

/-- `assignFrom` has come from `s` to `s'` in finitely many rounds. -/
inductive AssignRounds (id taskType : Int) (s' : Server) :
    Nat → Nat → Ptr → Server → Prop
  | done (fuel i : Nat) : AssignRounds id taskType s' fuel i none s'
  | send {fuel i a c : Nat} {u : ClientNode} {ci : ClientInfo} {s s₁ : Server} :
      s.nodes.cell a = some u → u.client = some c → s.reg.infos.cell c = some ci →
      shSendEncodedData { s with
        nodes := s.nodes.set a (some { u with index := i }) } ci.cfd
        (piecePath s.config id i) taskType = .ok s₁ →
      AssignRounds id taskType s' fuel (i + 1) u.next s₁ →
      AssignRounds id taskType s' (fuel + 1) i (some a) s

theorem assignFrom_rounds {id taskType : Int} {s' : Server} :
    ∀ {fuel i : Nat} {p : Ptr} {s : Server},
      assignFrom id taskType fuel i p s = .ok s' →
      AssignRounds id taskType s' fuel i p s := by
  intro fuel
  induction fuel with
  | zero =>
      intro i p s h
      cases p with
      | none =>
          cases h
          exact .done 0 i
      | some a => cases h
  | succ fuel ih =>
      intro i p s h
      cases p with
      | none =>
          cases h
          exact .done (fuel + 1) i
      | some a =>
          obtain ⟨nodes, hmod, h⟩ := bind_ok.mp h
          obtain ⟨d, u, hd, hu, rfl⟩ := Heap.modify_ok.mp hmod
          cases hd
          obtain ⟨v, hload, h⟩ := bind_ok.mp h
          rw [Heap.load_some (Heap.cell_set_self hu _)] at hload
          cases hload
          obtain ⟨ci, hci, h⟩ := bind_ok.mp h
          obtain ⟨c, hc, hcell⟩ := Heap.load_ok.mp hci
          obtain ⟨s₁, hsend, h⟩ := bind_ok.mp h
          exact .send hu hc hcell hsend (ih h)

/-! ## What the calls return -/

theorem keepMax_eq (result : Int) (v : JobNode) :
    keepMax result v
      = { v with job := { v.job with result := max v.job.result result } } := by
  unfold keepMax
  split
  · rw [Int.max_eq_right (by omega)]
  · rw [Int.max_eq_left (by omega)]

theorem sendRounds_done (fd : Int) (data : Bytes) (type : Int) (fuel : Nat)
    {len : Int} (h : len ≤ 0) (s : Server) :
    sendRounds fd data type fuel len s = .ok s := by
  cases fuel <;> rw [sendRounds, if_pos h]

theorem sendRounds_sent {fd : Int} {data : Bytes} {type : Int} :
    ∀ {fuel : Nat} {len : Int} {s s' : Server},
      sendRounds fd data type fuel len s = .ok s' →
      ∃ sent, s' = { s with sent := sent } := by
  intro fuel
  induction fuel with
  | zero =>
      intro len s s' h
      rw [sendRounds] at h
      split at h
      · cases h
        exact ⟨s.sent, rfl⟩
      · cases h
  | succ fuel ih =>
      intro len s s' h
      rw [sendRounds] at h
      split at h
      · cases h
        exact ⟨s.sent, rfl⟩
      · obtain ⟨⟨n, buf⟩, -, h⟩ := bind_ok.mp h
        obtain ⟨sent, hsent⟩ := ih h
        exact ⟨sent, hsent⟩

/-- Sending changes nothing but the log. -/
theorem shSendEncodedData_sent {s s' : Server} {fd : Int} {data : Bytes} {type : Int}
    (h : shSendEncodedData s fd data type = .ok s') :
    ∃ sent, s' = { s with sent := sent } := by
  obtain ⟨text, -, h⟩ := bind_ok.mp h
  exact sendRounds_sent h

theorem setBusy_ok {s s' : Server} {ci : Ptr} {busy : Bool}
    (h : setBusy s ci busy = .ok s') :
    ∃ c v, ci = some c ∧ s.reg.infos.cell c = some v ∧
      s' = { s with reg :=
        { s.reg with infos := s.reg.infos.set c (some { v with busy := busy }) }
          } := by
  obtain ⟨infos, hinfos, h⟩ := bind_ok.mp h
  obtain ⟨c, v, hc, hv, rfl⟩ := Heap.modify_ok.mp hinfos
  exact ⟨c, v, hc, hv, (Except.ok.inj h).symm⟩

theorem serverUpdateJobNode_ok {s s' : Server} {ci : Ptr} {j : Nat}
    (h : serverUpdateJobNode s ci j = .ok s') :
    ∃ c v, ci = some c ∧ s.reg.infos.cell c = some v ∧
      s' = { s with reg :=
        { s.reg with infos := s.reg.infos.set c (some { v with jn := some j }) }
          } := by
  obtain ⟨infos, hinfos, h⟩ := bind_ok.mp h
  obtain ⟨c, v, hc, hv, rfl⟩ := Heap.modify_ok.mp hinfos
  exact ⟨c, v, hc, hv, (Except.ok.inj h).symm⟩

theorem lockMutex_ok {s s' : Server} {p : Ptr} (h : lockMutex s p = .ok s') :
    ∃ a v, p = some a ∧ s.jobs.cell a = some v ∧ v.lock = false ∧
      s' = { s with
        jobs := s.jobs.set a (some { v with lock := true })
        mutexes := s.mutexes ++ [.lock p] } := by
  obtain ⟨v, hload, h⟩ := bind_ok.mp h
  obtain ⟨a, rfl, hv⟩ := Heap.load_ok.mp hload
  split at h
  · cases h
  · rename_i hfree
    obtain ⟨jobs, hjobs, h⟩ := bind_ok.mp h
    obtain ⟨a', v', ha', hv', rfl⟩ := Heap.modify_ok.mp hjobs
    cases ha'
    rw [hv] at hv'
    cases hv'
    exact ⟨a, v, rfl, hv, by simpa using hfree, (Except.ok.inj h).symm⟩

theorem unlockMutex_ok {s s' : Server} {p : Ptr} (h : unlockMutex s p = .ok s') :
    ∃ a v, p = some a ∧ s.jobs.cell a = some v ∧
      s' = { s with
        jobs := s.jobs.set a (some { v with lock := false })
        mutexes := s.mutexes ++ [.unlock p] } := by
  obtain ⟨jobs, hjobs, h⟩ := bind_ok.mp h
  obtain ⟨a, v, ha, hv, rfl⟩ := Heap.modify_ok.mp hjobs
  exact ⟨a, v, ha, hv, (Except.ok.inj h).symm⟩

theorem enqueuePendingJob_ok {s s' : Server} {j a : Nat}
    (h : enqueuePendingJob s (some j) (some a) = .ok s') :
    ∃ v nodes, s.nodes.cell a = some v ∧
      attach nodeLinks
        (s.nodes.set a (some { v with next := s.qHead, prev := none })) s.qHead a
        = .ok nodes ∧
      s' = { s with
        nodes := nodes
        qHead := some a
        qTail := if s.qHead = none then some a else s.qTail } := by
  obtain ⟨n, hn, h⟩ := bind_ok.mp h
  obtain ⟨c, v, hc, hv, rfl⟩ := Heap.modify_ok.mp hn
  cases hc
  obtain ⟨nodes, hattach, h⟩ := bind_ok.mp h
  exact ⟨v, nodes, hv, hattach, (Except.ok.inj h).symm⟩

/-- The node that is found is taken off the job and freed, and its client is free. -/
theorem freeClient_ok {s s' : Server} {id : Int} {c : Nat} {p : Bool}
    (h : freeClient s id c = .ok (p, s')) :
    (s' = s ∧ (id < 0 ∨ getJobNode s id = .ok none ∨
        ∃ j, getJobNode s id = .ok (some j) ∧ getClientNode s j c = .ok none)) ∨
      ∃ j a v ci nodes nodes' jobs, getJobNode s id = .ok (some j) ∧
        getClientNode s j c = .ok (some a) ∧
        s.nodes.cell a = some v ∧ s.reg.infos.cell c = some ci ∧
        ((v.next = none ∧ s.nodes.modify v.prev (fun w => { w with next := none }) =
          .ok nodes ∧
            s.jobs.modify (some j) (fun j =>
              { j with job := { j.job with
                tail := v.prev }, numClients := j.numClients - 1 }) = .ok jobs) ∨
          ∃ n, v.next = some n ∧
            s.nodes.modify (some n) (fun w => { w with prev := v.prev }) = .ok nodes ∧
            s.jobs.modify (some j) (fun j =>
              { j with numClients := j.numClients - 1 }) = .ok jobs) ∧
        nodes.free (some a) = .ok nodes' ∧
        s' = { s with
          reg := { s.reg with
            infos := s.reg.infos.set c (some { ci with busy := false }) }
          nodes := nodes'
          jobs := jobs } := by
  by_cases hneg : id < 0
  · rw [freeClient, if_pos hneg] at h
    cases h
    exact Or.inl ⟨rfl, Or.inl hneg⟩
  rw [freeClient, if_neg hneg] at h
  obtain ⟨found, hfound, h⟩ := bind_ok.mp h
  cases found with
  | none =>
      cases h
      exact Or.inl ⟨rfl, Or.inr (Or.inl hfound)⟩
  | some j =>
      obtain ⟨node, hnode, h⟩ := bind_ok.mp h
      cases node with
      | none =>
          cases h
          exact Or.inl ⟨rfl, Or.inr (Or.inr ⟨j, hfound, hnode⟩)⟩
      | some a =>
          obtain ⟨v, hload, h⟩ := bind_ok.mp h
          obtain ⟨b, hb, hv⟩ := Heap.load_ok.mp hload
          cases hb
          refine Or.inr ?_
          cases hnext : v.next with
          | none =>
              simp only [hnext] at h
              obtain ⟨nodes, hnodes, h⟩ := bind_ok.mp h
              obtain ⟨s₁, hbusy, h⟩ := bind_ok.mp h
              obtain ⟨jobs, hjobs, h⟩ := bind_ok.mp h
              obtain ⟨nodes', hfree, h⟩ := bind_ok.mp h
              cases h
              obtain ⟨d, ci, hd, hci, rfl⟩ := setBusy_ok hbusy
              cases hd
              exact ⟨j, a, v, ci, nodes, nodes', jobs, hfound, hnode, hv, hci,
                Or.inl ⟨hnext, hnodes, hjobs⟩, hfree, rfl⟩
          | some n =>
              simp only [hnext] at h
              obtain ⟨nodes, hnodes, h⟩ := bind_ok.mp h
              obtain ⟨s₁, hbusy, h⟩ := bind_ok.mp h
              obtain ⟨jobs, hjobs, h⟩ := bind_ok.mp h
              obtain ⟨nodes', hfree, h⟩ := bind_ok.mp h
              cases h
              obtain ⟨d, ci, hd, hci, rfl⟩ := setBusy_ok hbusy
              cases hd
              exact ⟨j, a, v, ci, nodes, nodes', jobs, hfound, hnode, hv, hci,
                Or.inr ⟨n, hnext, hnodes, hjobs⟩, hfree, rfl⟩

/-- A queue that is empty is searched like any other. -/
theorem dequeuePendingJob_ok {s s' : Server} {j : Nat} {v : JobNode} {cn : Ptr}
    (hv : s.jobs.cell j = some v) (h : dequeuePendingJob s j = .ok (cn, s')) :
    ∃ p, s.nodes.chase (·.prev) (fun cn => cn.jid == v.job.id) s.nodes.next s.qTail
      = .ok p ∧
      ((p = none ∧ cn = none ∧ s' = s) ∨ ∃ a v nodes, p = some a ∧ cn = some a ∧
        s.nodes.cell a = some v ∧ detach nodeLinks s.nodes v = .ok nodes ∧
        s' = { s with
          nodes := nodes
          qHead := detachFirst nodeLinks v s.qHead
          qTail := detachLast nodeLinks v s.qTail }) := by
  unfold dequeuePendingJob at h
  cases htail : s.qTail with
  | none =>
      rw [htail] at h
      cases h
      exact ⟨none, by rw [Heap.chase], Or.inl ⟨rfl, rfl, rfl⟩⟩
  | some t =>
      rw [htail] at h
      obtain ⟨w, hload, h⟩ := bind_ok.mp h
      rw [Heap.load_some hv] at hload
      cases hload
      obtain ⟨p, hp, h⟩ := bind_ok.mp h
      refine ⟨p, hp, ?_⟩
      cases p with
      | none =>
          cases h
          exact Or.inl ⟨rfl, rfl, rfl⟩
      | some a =>
          obtain ⟨w, hload, h⟩ := bind_ok.mp h
          obtain ⟨nodes, hnodes, h⟩ := bind_ok.mp h
          obtain ⟨d, hd, hw⟩ := Heap.load_ok.mp hload
          cases hd
          cases h
          exact Or.inr ⟨a, w, nodes, rfl, rfl, hw, hnodes, rfl⟩

/-- The node that waited is freed, and its index is taken over. -/
theorem assignPendingJob_ok {s s' : Server} {j cn c : Nat} {p : Bool}
    (h : assignPendingJob s j cn c = .ok (p, s')) :
    (getClientNode s j c = .ok none ∧ s' = s) ∨ ∃ a v w nodes sent,
      getClientNode s j c = .ok (some a) ∧
      s.nodes.cell cn = some v ∧ s.nodes.cell a = some w ∧
      (s.nodes.set a (some { w with index := v.index })).free (some cn) = .ok nodes ∧
      s' = { s with nodes := nodes, sent := sent } := by
  obtain ⟨node, hnode, h⟩ := bind_ok.mp h
  cases node with
  | none =>
      cases h
      exact Or.inl ⟨hnode, rfl⟩
  | some a =>
      obtain ⟨v, hload, h⟩ := bind_ok.mp h
      obtain ⟨nodes₁, hnodes₁, h⟩ := bind_ok.mp h
      obtain ⟨nodes₂, hnodes₂, h⟩ := bind_ok.mp h
      obtain ⟨u, -, h⟩ := bind_ok.mp h
      obtain ⟨ci, -, h⟩ := bind_ok.mp h
      obtain ⟨jv, -, h⟩ := bind_ok.mp h
      obtain ⟨t, -, h⟩ := bind_ok.mp h
      obtain ⟨s₁, hsend, h⟩ := bind_ok.mp h
      cases h
      obtain ⟨b, hb, hv⟩ := Heap.load_ok.mp hload
      cases hb
      obtain ⟨b, w, hb, hw, rfl⟩ := Heap.modify_ok.mp hnodes₁
      cases hb
      obtain ⟨sent, rfl⟩ := shSendEncodedData_sent hsend
      exact Or.inr ⟨a, v, w, nodes₂, sent, hnode, hv, hw, hnodes₂, rfl⟩

/-- What `addJob` has done when it returns: the new job, at `n`, comes after the
job at `t`, which stays locked, and has the first client node `m`. -/
structure JobAdded (s s' : Server) (jobId : Int) (task : Ptr) (t : Nat)
    (v w : JobNode) (u : ClientNode) : Prop where
  state : s' = { s with
    jobs := s'.jobs
    nodes := (s.nodes.grow (some u)).set s.nodes.next
      (some { u with prev := none, client := some 0xdeadbeef, next := w.job.tail })
    pTail := some s.jobs.next
    mutexes := s.mutexes ++ [.lock (some t), .unlock (some s.jobs.next)] }
  next : s'.jobs.next = s.jobs.next + 1
  last : s'.jobs.cell t = some { v with lock := true, next := some s.jobs.next }
  new : s'.jobs.cell s.jobs.next = some
    ⟨false, ⟨jobId, w.job.result, task, some s.nodes.next, some s.nodes.next⟩, 0,
      some t, none⟩
  old : ∀ k, k ≠ t → k ≠ s.jobs.next → s'.jobs.cell k = s.jobs.cell k

/-- What `addClientToJob` has done when it returns: the new `node` comes after the
one at `t`, which was the last of the job `v`. -/
structure ClientAdded (s s' : Server) (j : Nat) (client : Ptr)
    (v : JobNode) (t : Nat) (vt node : ClientNode) : Prop where
  job : s.jobs.cell j = some v
  tail : v.job.tail = some t
  made : node = ⟨client, some t, none, node.index, v.job.id⟩
  before : (s.nodes.grow (some node)).cell t = some vt
  state : s' = { s with
    nodes := (s.nodes.grow (some node)).set t
      (some { vt with next := some s.nodes.next })
    jobs := s.jobs.set j (some { v with
      job := { v.job with tail := some s.nodes.next }
      numClients := v.numClients + 1 }) }

theorem addClientToJob_ok {supply : JobSupply} {s s' : Server} {j : Nat}
    {client p : Ptr} (h : addClientToJob supply s j client = .ok (p, s')) :
    ∃ v t vt node, p = some s.nodes.next ∧
      ClientAdded s s' j client v t vt node := by
  rcases s.nodes.malloc_cases supply.node with hm | ⟨u, -, hm⟩
  · simp only [addClientToJob, hm] at h
    obtain ⟨v, -, h⟩ := bind_ok.mp h
    obtain ⟨nodes, hnodes, -⟩ := bind_ok.mp h
    cases hnodes
  · simp only [addClientToJob, hm] at h
    obtain ⟨v, hload, h⟩ := bind_ok.mp h
    obtain ⟨nodes₁, hnodes₁, h⟩ := bind_ok.mp h
    obtain ⟨nodes₂, hnodes₂, h⟩ := bind_ok.mp h
    obtain ⟨jobs, hjobs, h⟩ := bind_ok.mp h
    cases h
    obtain ⟨a, ha, hv⟩ := Heap.load_ok.mp hload
    cases ha
    rw [Heap.modify_some (Heap.cell_grow_self _ _), Heap.set_grow] at hnodes₁
    cases hnodes₁
    obtain ⟨t, vt, ht, hvt, rfl⟩ := Heap.modify_ok.mp hnodes₂
    rw [Heap.modify_some hv] at hjobs
    cases hjobs
    exact ⟨v, t, vt, ⟨client, v.job.tail, none, u.index, v.job.id⟩, rfl, hv, ht,
      by rw [ht], hvt, rfl⟩

/-- The nodes that were there before, other than the last one, are as they were. -/
theorem ClientAdded.old {s s' : Server} {j t : Nat} {client : Ptr} {v : JobNode}
    {vt node : ClientNode} (h : ClientAdded s s' j client v t vt node) {a : Nat}
    (ha : a ≠ s.nodes.next) (hat : a ≠ t) :
    s'.nodes.cell a = s.nodes.cell a := by
  rw [h.state]
  show (Heap.set _ t _).cell a = _
  rw [Heap.cell_set_ne _ hat, Heap.cell_grow_ne _ ha]

theorem initializeJobDll_ok {supply : JobSupply} {s s' : Server}
    (h : initializeJobDll supply s = .ok s') :
    ∃ w, supply.job s.jobs.next = some w ∧ s' = { s with
      jobs := (s.jobs.grow (some w)).set s.jobs.next (some
        ⟨false, { w.job with id := -1, head := none, tail := none }, 0,
          none, s.pTail⟩)
      pHead := some s.jobs.next
      pTail := some s.jobs.next } := by
  have hnew : ∀ w, (s.jobs.grow (some w)).cell s.jobs.next = some w := fun w =>
    Heap.cell_grow_self _ _
  cases hw : supply.job s.jobs.next with
  | none =>
      simp only [initializeJobDll, Heap.malloc, hw, Heap.modify, error_bind] at h
      cases h
  | some w =>
      simp only [initializeJobDll, Heap.malloc, hw, Heap.modify_some (hnew w),
        ok_bind] at h
      exact ⟨w, rfl, (Except.ok.inj h).symm⟩

section AddJob
variable {supply : JobSupply} {s s' : Server} {t : Nat} {v w : JobNode}
  {u : ClientNode}
  (jobId : Int) (task : Ptr)

theorem lockMutex_some (ht : s.pTail = some t) (hv : s.jobs.cell t = some v)
    (hfree : v.lock = false) :
    lockMutex s s.pTail = .ok { s with
      jobs := s.jobs.set t (some { v with lock := true })
      mutexes := s.mutexes ++ [.lock (some t)] } := by
  rw [lockMutex, ht, Heap.load_some hv, ok_bind, if_neg (by simp [hfree]),
    Heap.modify_some hv, ok_bind]

theorem addJob_run (ht : s.pTail = some t) (hv : s.jobs.cell t = some v)
    (hfree : v.lock = false) (hw : supply.job s.jobs.next = some w)
    (hu : supply.node s.nodes.next = some u) :
    ∃ s', addJob supply s jobId task = .ok (some s.jobs.next, s') ∧
      JobAdded s s' jobId task t v w u := by
  have hne : t ≠ s.jobs.next := Nat.ne_of_lt (s.jobs.lt_next hv)
  have hnew : ((s.jobs.set t (some { v with lock := true })).grow (some w)).cell
      s.jobs.next
      = some w := Heap.cell_grow_self _ _
  have hnode : (s.nodes.grow (some u)).cell s.nodes.next = some u :=
    Heap.cell_grow_self _ _
  rw [addJob, lockMutex_some ht hv hfree, ok_bind]
  simp only [Heap.malloc, Heap.next_set, hw, hu, ht]
  have hkeep : ∀ (k : Nat), k ≠ s.jobs.next → ∀ o o' : Option JobNode,
      ((((s.jobs.set t (some { v with lock := true })).grow (some w)).set
        s.jobs.next o).set
        s.jobs.next o').cell k
          = (s.jobs.set t (some { v with lock := true })).cell k := by
    intro k hk o o'
    rw [Heap.cell_set_ne _ hk, Heap.cell_set_ne _ hk]
    exact Heap.cell_grow_ne (s.jobs.set t _) hk _
  rw [Heap.modify_some hnew, ok_bind, Heap.load_some (Heap.cell_set_self hnew _),
    ok_bind, Heap.modify_some hnode, ok_bind,
    Heap.modify_some (Heap.cell_set_self hnew _), ok_bind,
    Heap.modify_some ((hkeep t hne _ _).trans (Heap.cell_set_self hv _)), ok_bind,
    unlockMutex, Heap.modify_some ((Heap.cell_set_ne _ hne.symm _).trans
      (Heap.cell_set_self (Heap.cell_set_self hnew _) _)), ok_bind, ok_bind]
  refine ⟨_, rfl, ⟨?_, rfl, ?_, ?_, fun k hkt hkn => ?_⟩⟩
  · simp
  · show (Heap.set _ s.jobs.next _).cell t = _
    rw [Heap.cell_set_ne _ hne,
      Heap.cell_set_self ((hkeep t hne _ _).trans (Heap.cell_set_self hv _))]
  · exact Heap.cell_set_self ((Heap.cell_set_ne _ hne.symm _).trans
      (Heap.cell_set_self (Heap.cell_set_self hnew _) _)) _
  · show (Heap.set _ s.jobs.next _).cell k = _
    rw [Heap.cell_set_ne _ hkn, Heap.cell_set_ne _ hkt, hkeep k hkn,
      Heap.cell_set_ne _ hkt]

theorem addJob_short (ht : s.pTail = some t) (hv : s.jobs.cell t = some v)
    (hfree : v.lock = false) (hshort : supply.job s.jobs.next = none ∨
      supply.node s.nodes.next = none) :
    addJob supply s jobId task = .error .nullDeref := by
  rw [addJob, lockMutex_some ht hv hfree, ok_bind]
  cases hw : supply.job s.jobs.next with
  | none => simp only [Heap.malloc, Heap.next_set, hw, Heap.modify, error_bind]
  | some w =>
      have hu : supply.node s.nodes.next = none := hshort.resolve_left (by simp [hw])
      have hnew : ((s.jobs.set t (some { v with lock := true })).grow (some w)).cell
          s.jobs.next
          = some w := Heap.cell_grow_self _ _
      simp only [Heap.malloc, Heap.next_set, hw, hu]
      rw [Heap.modify_some hnew, ok_bind, Heap.load_some (Heap.cell_set_self hnew _),
        ok_bind]
      rfl

theorem addJob_ok {p : Ptr} (h : addJob supply s jobId task = .ok (p, s')) :
    ∃ t v w u, s.pTail = some t ∧ s.jobs.cell t = some v ∧
      supply.job s.jobs.next = some w ∧
      supply.node s.nodes.next = some u ∧ p = some s.jobs.next ∧
      JobAdded s s' jobId task t v w u := by
  obtain ⟨s₁, hlock, -⟩ := bind_ok.mp h
  obtain ⟨t, v, ht, hv, hfree, -⟩ := lockMutex_ok hlock
  cases hw : supply.job s.jobs.next with
  | none =>
      rw [addJob_short jobId task ht hv hfree (Or.inl hw)] at h
      cases h
  | some w =>
      cases hu : supply.node s.nodes.next with
      | none =>
          rw [addJob_short jobId task ht hv hfree (Or.inr hu)] at h
          cases h
      | some u =>
          obtain ⟨s₂, hrun, hadded⟩ := addJob_run jobId task ht hv hfree hw hu
          rw [h] at hrun
          cases hrun
          exact ⟨t, v, w, u, ht, hv, rfl, rfl, rfl, hadded⟩

end AddJob

/-- The calls of `initJob` for a job that it adds at `j`; `t` is the job when its
clients are reserved. -/
structure Initiating (supply : JobSupply) (s : Server) (groupId jobId taskType : Int)
    (task : Ptr) (tasks : Heap Task) (j : Nat) (s₁ s₂ : Server)
    (t : JobNode) : Prop where
  valid : ¬ (groupId ≤ 0 ∨ jobId < 0)
  kept : ∀ a v, s.tasks.cell a = some v → tasks.cell a = some v
  stored : ∃ a v, task = some a ∧ tasks.cell a = some v ∧ v.taskType = taskType
  added : addJob supply { s with tasks := tasks } jobId task = .ok (some j, s₁)
  reserved : ∃ cgh, serverGetClientGidHead groupId.toNat = some cgh ∧
    reserveClients supply j s₁.reg.groups.next (s₁.reg.multicastGroups cgh).h s₁
      = .ok s₂
  job : s₂.jobs.cell j = some t

/-- The new task holds what was stored last, and the others are as they were. -/
theorem task_made {tasks tasks₁ tasks₂ : Heap Task} {x : Option Task} {y : Task}
    {f : Task → Task}
    (hzeroed : (tasks.grow x).modify (some tasks.next) f = .ok tasks₁)
    (hstore : tasks₁.modify (some tasks.next) (fun _ => y) = .ok tasks₂) :
    (∀ a v, tasks.cell a = some v → tasks₂.cell a = some v) ∧
      tasks₂.cell tasks.next = some y := by
  obtain ⟨b, u, hb, hu, hzero⟩ := Heap.modify_ok.mp hzeroed
  obtain ⟨b', u', hb', hu', htasks⟩ := Heap.modify_ok.mp hstore
  cases hb
  cases hb'
  constructor
  · intro a v hv
    have ha : a ≠ tasks.next := Nat.ne_of_lt (tasks.lt_next hv)
    rw [htasks, Heap.cell_set_ne _ ha, hzero, Heap.cell_set_ne _ ha,
      Heap.cell_grow_ne _ ha]
    exact hv
  · rw [htasks]
    exact Heap.cell_set_self hu' _

theorem dbServerDivide_ok {s s' : Server} {basePath : Bytes}
    {jobId numClients system status : Int} (hzero : numClients ≠ 0)
    (hr : dbServerDivide s basePath jobId numClients system = .ok (status, s')) :
    (∃ commands, s' = { s with commands := commands }) ∧ status = if system = 0
      then 0 else 1 := by
  rw [dbServerDivide, if_neg hzero] at hr
  obtain ⟨path, -, hr⟩ := bind_ok.mp hr
  obtain ⟨hstatus, hs⟩ := Prod.mk.inj (Except.ok.inj hr)
  exact ⟨⟨_, hs.symm⟩, hstatus.symm⟩

theorem initJob_cases {supply : JobSupply} {s s' : Server}
    {groupId jobId taskType system : Int} {inputFile : Bytes} {started : Bool}
    (hr : initJob supply s groupId jobId taskType inputFile system
      = .ok (started, s')) :
    ((groupId ≤ 0 ∨ jobId < 0) ∧ started = false ∧ s' = s) ∨
      ∃ task tasks j s₁ s₂ t, Initiating supply s groupId jobId taskType task tasks
        j s₁ s₂ t ∧
        ((started = false ∧ t.numClients = 0 ∧ s' = s₂) ∨
          t.numClients ≠ 0 ∧ ∃ commands,
            ((started = false ∧ system ≠ 0 ∧ s' = { s₂ with commands := commands }) ∨
              assignJob { s₂ with commands := commands } j task
                = .ok (started, s'))) := by
  by_cases hbad : groupId ≤ 0 ∨ jobId < 0
  · rw [initJob, if_pos hbad] at hr
    cases hr
    exact Or.inl ⟨hbad, rfl, rfl⟩
  rw [initJob, if_neg hbad] at hr
  rcases Heap.malloc_cases s.tasks supply.task with hm | ⟨x, -, hm⟩
  · rw [hm] at hr
    obtain ⟨tasks₁, hzeroed, -⟩ := bind_ok.mp hr
    cases hzeroed
  rw [hm] at hr
  obtain ⟨tasks₁, hzeroed, hr⟩ := bind_ok.mp hr
  obtain ⟨basePath, -, hr⟩ := bind_ok.mp hr
  obtain ⟨tasks, hstore, hr⟩ := bind_ok.mp hr
  obtain ⟨⟨p, s₁⟩, hadd, hr⟩ := bind_ok.mp hr
  obtain ⟨hkept, hstored⟩ := task_made hzeroed hstore
  cases p with
  | none => cases hr
  | some j =>
      cases hgid : serverGetClientGidHead groupId.toNat with
      | none =>
          simp only [hgid] at hr
          cases hr
      | some cgh =>
          simp only [hgid] at hr
          obtain ⟨s₂, hreserve, hr⟩ := bind_ok.mp hr
          obtain ⟨t, hload, hr⟩ := bind_ok.mp hr
          obtain ⟨k, hk, ht⟩ := Heap.load_ok.mp hload
          cases hk
          refine Or.inr ⟨some s.tasks.next, tasks, j, s₁, s₂, t,
            ⟨hbad, hkept, ⟨_, _, rfl, hstored, rfl⟩, hadd,
            ⟨cgh, hgid, hreserve⟩, ht⟩, ?_⟩
          by_cases hzero : t.numClients = 0
          · rw [if_pos hzero] at hr
            cases hr
            exact Or.inl ⟨rfl, hzero, rfl⟩
          rw [if_neg hzero] at hr
          obtain ⟨⟨status, s₃⟩, hdivide, hr⟩ := bind_ok.mp hr
          obtain ⟨⟨commands, rfl⟩, hstatus⟩ := dbServerDivide_ok hzero hdivide
          refine Or.inr ⟨hzero, commands, ?_⟩
          by_cases hfail : status ≠ 0
          · simp only [if_pos hfail] at hr
            cases hr
            refine Or.inl ⟨rfl, ?_, rfl⟩
            rintro rfl
            exact hfail hstatus
          · simp only [if_neg hfail] at hr
            exact Or.inr hr

end Pyramid
