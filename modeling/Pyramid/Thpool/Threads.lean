/-
# `Pyramid.Thpool.Threads` — the threads of the pool (`server/src/thpool.c`)

A pool is what its threads share, and where each of them is in its code: the
workers in `thread_do`, the callers in `thpool_add_work`, and the owner in
`thpool_init` or `thpool_destroy`.  `Step` says how any of them can go on from
there.  A thread runs alone from one place where it can be seen or held up to
the next:

* what is done under the mutex of a semaphore, or to a counter under
  `thcount_lock`, is one step; the last use of `thcount_lock` is two, since
  `thpool_destroy` looks at the counter without it;
* `rwmutex` is held over several steps, since who holds it posts.

`pthread_cond_signal` wakes one thread if one sleeps.  A thread may also wake up
without a signal, so it is no loss that POSIX lets a signal wake several.

The callers have the pool from the end of `thpool_init` until the owner calls
`thpool_destroy`, which it does when none of them is inside.
-/
import Pyramid.Memory.Bytes
import Pyramid.Memory.Fifo
import Pyramid.Service

namespace Pyramid

namespace Thpool

/-- `job` -/
structure Job where
  prev : Ptr
  function : Nat
  arg : Nat

/-- `jobqueue`, with the `v` of its `has_jobs` -/
structure JobQueue where
  front : Ptr
  rear : Ptr
  hasJobs : Int
  len : Int
  rwmutex : Bool

/-- A worker in `thread_do`. -/
inductive Worker where
  /-- before it counts itself in `num_threads_alive` -/
  | starting
  /-- at `while(threads_keepalive)` -/
  | testing
  /-- in `bsem_wait`, about to look at `v` -/
  | waiting
  /-- in `pthread_cond_wait` -/
  | asleep
  /-- back from `bsem_wait` -/
  | awake
  /-- before it counts itself in `num_threads_working` -/
  | counting
  /-- before it locks `rwmutex` -/
  | pulling
  /-- in `jobqueue_pull`, before `bsem_post` -/
  | posting (job : Ptr)
  | unlocking (job : Ptr)
  | pulled (job : Ptr)
  /-- in the function of the job -/
  | running (job : Nat)
  | uncounting
  /-- out of the loop -/
  | ending
  /-- no longer counted, before it unlocks `thcount_lock` -/
  | leaving
  | gone
  deriving DecidableEq

/-- A thread that calls `thpool_add_work`. -/
inductive Caller where
  | out
  | adding (newjob : Nat)
  | posting
  | unlocking
  deriving DecidableEq

/-- The thread that calls `thpool_init` and `thpool_destroy`. -/
inductive Owner where
  | creating
  | serving
  /-- at one of the loops of `thpool_destroy`, which read `num_threads_alive` -/
  | polling (threadsTotal : Int)
  | broadcasting (threadsTotal : Int)
  | clearing (threadsTotal : Int)
  | freed (threadsTotal : Int)
  deriving DecidableEq

/-- `thpool_`, and where the threads are. -/
structure Pool where
  jobs : Heap Job
  queue : JobQueue
  numThreadsAlive : Int
  numThreadsWorking : Int
  thcountLock : Bool
  keepalive : Bool
  workers : List Worker
  callers : List Caller
  owner : Owner

/-- `thpool_init` has created `n` threads and waits for them; `m` threads will call
`thpool_add_work`. -/
def Pool.start (n m : Nat) : Pool where
  jobs := .empty
  queue := ⟨none, none, 0, 0, false⟩
  numThreadsAlive := 0
  numThreadsWorking := 0
  thcountLock := false
  keepalive := true
  workers := List.replicate n .starting
  callers := List.replicate m .out
  owner := .creating

/-! ## The queue -/

/-- `thpool_add_work` before it locks `rwmutex`. -/
def newJob (jobs : Heap Job) (src : Nat → Option Job) (function arg : Nat) :
    Except Halt (Ptr × Heap Job) :=
  let (newjob, jobs) := jobs.malloc src
  if newjob = none then
    .ok (none, jobs)
  else do
    let jobs ← jobs.modify newjob fun j => { j with function := function }
    let jobs ← jobs.modify newjob fun j => { j with arg := arg }
    .ok (newjob, jobs)

/-- `jobqueue_push`, before `bsem_post` -/
def jobqueuePush (jobs : Heap Job) (q : JobQueue) (newjob : Ptr) :
    Except Halt (Heap Job × JobQueue) := do
  let jobs ← jobs.modify newjob fun j => { j with prev := none }
  let jobs ← (if q.len = 0 then .ok jobs else jobs.modify q.rear fun j =>
    { j with prev := newjob })
  let front := if q.len = 0 then newjob else q.front
  if q.len = intMax then
    .error .overflow
  else
    .ok (jobs, { q with front := front, rear := newjob, len := q.len + 1 })

/-- `jobqueue_pull`, and whether it still has to `bsem_post`. -/
def jobqueuePull (jobs : Heap Job) (q : JobQueue) :
    Except Halt (Ptr × JobQueue × Bool) :=
  if q.len = 0 then
    .ok (q.front, q, false)
  else if q.len = 1 then
    .ok (q.front, { q with front := none, rear := none, len := 0 }, false)
  else do
    let j ← jobs.load q.front
    let len ← subInt q.len 1
    .ok (q.front, { q with front := j.prev, len := len }, true)

/-! ## The semaphore -/

/-- `pthread_cond_signal` -/
inductive Signal : List Worker → List Worker → Prop
  | one {ws : List Worker} {j : Nat} : ws[j]? = some .asleep →
      Signal ws (ws.set j .waiting)
  | nobody {ws : List Worker} : .asleep ∉ ws → Signal ws ws

/-- `pthread_cond_broadcast` -/
def broadcast (ws : List Worker) : List Worker :=
  ws.map fun
    | .asleep => .waiting
    | w => w

/-! ## The threads -/

/-- A job that was handed in: the record it is kept in, and what to do. -/
structure Task where
  job : Nat
  function : Nat
  arg : Nat
  deriving DecidableEq

/-- What the record at `a` says is to be done. -/
def task (jobs : Heap Job) (a : Nat) : Task :=
  match jobs.cell a with
  | none => ⟨a, 0, 0⟩
  | some j => ⟨a, j.function, j.arg⟩

/-- What the threads do by themselves, seen or not, and what comes from outside. -/
inductive Action where
  | internal
  | seen (a : Act Task)
  /-- `thpool_add_work` is called, with or without memory for the job -/
  | add (x : Task)
  | refuse
  /-- a thread wakes up without a signal -/
  | wake
  /-- a step of `thpool_destroy` -/
  | destroy

def Action.view : Action → Option (Act Task)
  | .seen a => some a
  | _ => none

/-- A step of a worker, or of a caller that is inside. -/
def Action.own : Action → Bool
  | .internal => true
  | .seen _ => true
  | _ => false

def Action.adds : Action → Bool
  | .add _ => true
  | _ => false

def Action.wakes : Action → Bool
  | .wake => true
  | _ => false

inductive Step : Pool → Action → Pool → Prop
  | start {s : Pool} {i : Nat} : s.workers[i]? = some .starting →
      s.thcountLock = false →
      Step s .internal { s with
        workers := s.workers.set i .testing
        numThreadsAlive := s.numThreadsAlive + 1 }
  | test {s : Pool} {i : Nat} : s.workers[i]? = some .testing →
      Step s .internal { s with
        workers := s.workers.set i (if s.keepalive then .waiting else .ending) }
  | pass {s : Pool} {i : Nat} : s.workers[i]? = some .waiting → s.queue.hasJobs = 1 →
      Step s .internal { s with
        workers := s.workers.set i .awake
        queue := { s.queue with hasJobs := 0 } }
  | sleep {s : Pool} {i : Nat} : s.workers[i]? = some .waiting →
      s.queue.hasJobs ≠ 1 →
      Step s .internal { s with workers := s.workers.set i .asleep }
  | wake {s : Pool} {i : Nat} : s.workers[i]? = some .asleep →
      Step s .wake { s with workers := s.workers.set i .waiting }
  | again {s : Pool} {i : Nat} : s.workers[i]? = some .awake →
      Step s .internal { s with
        workers := s.workers.set i (if s.keepalive then .counting else .testing) }
  | count {s : Pool} {i : Nat} : s.workers[i]? = some .counting →
      s.thcountLock = false →
      Step s .internal { s with
        workers := s.workers.set i .pulling
        numThreadsWorking := s.numThreadsWorking + 1 }
  | pull {s : Pool} {i : Nat} {job : Ptr} {q : JobQueue} {more : Bool} :
      s.workers[i]? = some .pulling → s.queue.rwmutex = false →
      jobqueuePull s.jobs s.queue = .ok (job, q, more) →
      Step s (job.elim .internal fun a => .seen (.take (task s.jobs a))) { s with
        workers := s.workers.set i (if more then .posting job else .unlocking job)
        queue := { q with rwmutex := true } }
  | post {s : Pool} {i : Nat} {job : Ptr} {ws : List Worker} :
      s.workers[i]? = some (.posting job) → Signal s.workers ws →
      Step s .internal { s with
        workers := ws.set i (.unlocking job)
        queue := { s.queue with hasJobs := 1 } }
  | unlock {s : Pool} {i : Nat} {job : Ptr} : s.workers[i]? = some (.unlocking job) →
      Step s .internal { s with
        workers := s.workers.set i (.pulled job)
        queue := { s.queue with rwmutex := false } }
  | skip {s : Pool} {i : Nat} : s.workers[i]? = some (.pulled none) →
      Step s .internal { s with workers := s.workers.set i .uncounting }
  | call {s : Pool} {i a : Nat} {j : Job} : s.workers[i]? = some (.pulled (some a)) →
      s.jobs.load (some a) = .ok j →
      Step s (.seen (.call ⟨a, j.function, j.arg⟩)) { s with
        workers := s.workers.set i (.running a) }
  | finish {s : Pool} {i a : Nat} {jobs : Heap Job} :
      s.workers[i]? = some (.running a) → s.jobs.free (some a) = .ok jobs →
      Step s (.seen (.finish (task s.jobs a))) { s with
        workers := s.workers.set i .uncounting
        jobs := jobs }
  | uncount {s : Pool} {i : Nat} : s.workers[i]? = some .uncounting →
      s.thcountLock = false →
      Step s .internal { s with
        workers := s.workers.set i .testing
        numThreadsWorking := s.numThreadsWorking - 1 }
  | finale {s : Pool} {i : Nat} : s.workers[i]? = some .ending →
      s.thcountLock = false →
      Step s .internal { s with
        workers := s.workers.set i .leaving
        numThreadsAlive := s.numThreadsAlive - 1
        thcountLock := true }
  | leave {s : Pool} {i : Nat} : s.workers[i]? = some .leaving →
      (∀ n, s.owner ≠ .freed n) →
      Step s .internal { s with
        workers := s.workers.set i .gone
        thcountLock := false }
  | add {s : Pool} {k a : Nat} {src : Nat → Option Job} {function arg : Nat}
      {jobs : Heap Job} :
      s.callers[k]? = some .out → s.owner = .serving →
      newJob s.jobs src function arg = .ok (some a, jobs) →
      Step s (.add ⟨a, function, arg⟩) { s with
        callers := s.callers.set k (.adding a)
        jobs := jobs }
  | refuse {s : Pool} {k : Nat} {src : Nat → Option Job} {function arg : Nat}
      {jobs : Heap Job} :
      s.callers[k]? = some .out → s.owner = .serving →
      newJob s.jobs src function arg = .ok (none, jobs) →
      Step s .refuse { s with jobs := jobs }
  | push {s : Pool} {k a : Nat} {jobs : Heap Job} {q : JobQueue} :
      s.callers[k]? = some (.adding a) → s.queue.rwmutex = false →
      jobqueuePush s.jobs s.queue (some a) = .ok (jobs, q) →
      Step s (.seen (.submit (task s.jobs a))) { s with
        callers := s.callers.set k .posting
        jobs := jobs
        queue := { q with rwmutex := true } }
  | callerPost {s : Pool} {k : Nat} {ws : List Worker} :
      s.callers[k]? = some .posting → Signal s.workers ws →
      Step s .internal { s with
        callers := s.callers.set k .unlocking
        workers := ws
        queue := { s.queue with hasJobs := 1 } }
  | callerUnlock {s : Pool} {k : Nat} : s.callers[k]? = some .unlocking →
      Step s .internal { s with
        callers := s.callers.set k .out
        queue := { s.queue with rwmutex := false } }
  | created {s : Pool} : s.owner = .creating → s.numThreadsAlive = s.workers.length →
      Step s .internal { s with owner := .serving }
  | destroy {s : Pool} : s.owner = .serving → (∀ c ∈ s.callers, c = .out) →
      Step s .destroy { s with
        owner := .polling s.numThreadsAlive
        keepalive := false }
  | poll {s : Pool} {n : Int} : s.owner = .polling n →
      Step s .destroy { s with
        owner := if s.numThreadsAlive = 0 then .clearing n else .broadcasting n }
  | broadcast {s : Pool} {n : Int} : s.owner = .broadcasting n →
      Step s .destroy { s with
        owner := .polling n
        workers := Thpool.broadcast s.workers
        queue := { s.queue with hasJobs := 1 } }
  | clear {s : Pool} {n : Int} {job : Ptr} {q : JobQueue} {more : Bool}
      {jobs : Heap Job} {ws : List Worker} : s.owner = .clearing n → s.queue.len ≠ 0 →
      jobqueuePull s.jobs s.queue = .ok (job, q, more) → s.jobs.free job = .ok jobs →
      (if more then Signal s.workers ws else ws = s.workers) →
      Step s (job.elim .destroy fun a => .seen (.drop (task s.jobs a))) { s with
        jobs := jobs
        workers := ws
        queue := { q with hasJobs := if more then 1 else q.hasJobs } }
  | cleared {s : Pool} {n : Int} : s.owner = .clearing n → s.queue.len = 0 →
      Step s .destroy { s with
        owner := .freed n
        queue := { s.queue with front := none, rear := none, hasJobs := 0, len := 0 } }

/-- A thread can go on, and what it does ends the run. -/
inductive Fault : Pool → Halt → Prop
  | pull {s : Pool} {i : Nat} {e : Halt} : s.workers[i]? = some .pulling →
      s.queue.rwmutex = false → jobqueuePull s.jobs s.queue = .error e → Fault s e
  | call {s : Pool} {i a : Nat} {e : Halt} :
      s.workers[i]? = some (.pulled (some a)) → s.jobs.load (some a) = .error e →
      Fault s e
  | finish {s : Pool} {i a : Nat} {e : Halt} : s.workers[i]? = some (.running a) →
      s.jobs.free (some a) = .error e → Fault s e
  | push {s : Pool} {k a : Nat} {e : Halt} : s.callers[k]? = some (.adding a) →
      s.queue.rwmutex = false → jobqueuePush s.jobs s.queue (some a) = .error e →
      Fault s e
  | clear {s : Pool} {n : Int} {e : Halt} : s.owner = .clearing n → s.queue.len ≠ 0 →
      (do
        let (job, _, _) ← jobqueuePull s.jobs s.queue
        s.jobs.free job) = .error e → Fault s e
  /-- what it still has to unlock was freed -/
  | leave {s : Pool} {i : Nat} {n : Int} : s.workers[i]? = some .leaving →
      s.owner = .freed n →
      Fault s .badAddr

end Thpool

end Pyramid
