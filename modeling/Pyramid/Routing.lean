/-
# `Pyramid.Routing` — every message, and who is answered (`server_helper.c`)

A `Desk` is the world and the connections it is answered on: which of them have
sent a command, who submitted each job, and who submitted those that wait for a
thread.  `handle_data` keeps the connection of the last command in `fd_cli` and
never looks at it: the result of a job is shown to the client it came from.
-/
import Pyramid.Replies
import Pyramid.Holders

namespace Pyramid

structure Desk where
  world : World
  /-- `sh_job_id` -/
  shJobId : Int
  /-- the connections that have sent a command -/
  clis : List Int
  /-- who submitted the jobs that wait for a thread, oldest first;
  `none` has left since -/
  waiting : List (Option Int)
  submitter : Nat → Option Int

/-- What `handle_data` is given, the end of a connection, and a thread that takes
a job.  It looks for the job at the address of `job_s`, a variable of a call that
has returned; `job` is what it finds there. -/
inductive Message where
  | joinGroup (cfd : Int) (sa : SockAddr) (gids : List Nat)
  | cliData (cfd : Int) (value storage : Bytes)
  | algoMax (cfd : Int) (value storage : Bytes)
  | algoError (cfd : Int)
  | other (cfd : Int)
  | closed (cfd : Int)
  | submitJob (job : SubmitJob) (system : Int) (storage failure : Bytes)

namespace Desk

/-- What `submit_job` has `initJob` do. -/
def event (D : Desk) (job : SubmitJob) (system : Int) : Event :=
  .submit job.group (toInt32 (D.shJobId + 1)) job.task job.inputFile system

/-- `submit_job` up to `initJob`: the CLI is sent the job. -/
def announce (D : Desk) (job : SubmitJob) (storage : Bytes) : Except Halt Server :=
  shExecuteJob D.world.server job.cfd (D.shJobId + 1) job.task job.group
    job.inputFile storage

/-- Who submitted each job, after a thread has taken the one of `fd`; a job that
`initJob` adds is the last one. -/
def noted (D : Desk) (job : SubmitJob) (fd : Option Int) (w : World) :
    Nat → Option Int :=
  if job.group ≤ 0 ∨ toInt32 (D.shJobId + 1) < 0 then D.submitter
  else match w.server.pTail with
    | none => D.submitter
    | some j => put D.submitter j fd

section Runs
variable (supply : JobSupply)

/-- `submit_job`. -/
def submitJob (D : Desk) (job : SubmitJob) (system : Int) (storage failure : Bytes) :
    Except Halt World := do
  let s ← D.announce job storage
  let (started, s) ← initJob supply s job.group (toInt32 (D.shJobId + 1)) job.task
    job.inputFile system
  let w : World :=
    { D.world with
      server := s, started := if started then D.world.begun s else D.world.started }
  if started then do
    let (_, s) ← shDisplayJobResults s job.cfd (D.shJobId + 1)
    .ok { w with server := s }
  else do
    let s ← shSendJobFailureToCli s job.cfd failure
    .ok { w with server := s }

def step (D : Desk) : Message → Except Halt Desk
  | .joinGroup cfd sa gids => do
      let w ← D.world.step supply (.join cfd sa gids)
      .ok { D with world := w }
  | .cliData cfd value storage => do
      let buff ← cString value
      let (work, s) ← shHandleCmd D.world.server cfd buff storage
      .ok { D with
        world := { D.world with server := s }
        clis := cfd :: D.clis
        waiting := D.waiting ++ work.map fun _ => some cfd }
  | .algoMax cfd value storage => do
      let w ← D.world.step supply (.result cfd value)
      let s ← shSendJobResultToCli w.server cfd value storage
      .ok { D with world := { w with server := s } }
  | .algoError cfd => do
      let w ← D.world.step supply (.error cfd)
      .ok { D with world := w }
  | .other _ => .ok D
  | .closed cfd => do
      let w ← D.world.step supply (.disconnect cfd)
      .ok { D with
        world := w
        clis := D.clis.filter (· ≠ cfd)
        waiting := D.waiting.map (·.filter (· ≠ cfd))
        submitter := fun j => (D.submitter j).filter (· ≠ cfd) }
  | .submitJob job system storage failure =>
      match D.waiting with
      | [] => .ok D
      | fd :: waiting => do
          let w ← D.submitJob supply job system storage failure
          .ok { D with
            world := w
            shJobId := D.shJobId + 1
            waiting := waiting
            submitter := D.noted job fd w }

def start (config : Config) : Except Halt Desk := do
  let w ← World.start supply config
  .ok ⟨w, 0, [], [], fun _ => none⟩

/-- From the start of the server the messages lead to `D`, and each meets `K`. -/
def Run (config : Config) (K : Desk → Message → Prop) (ms : List Message)
    (D : Desk) : Prop :=
  ∃ D₀, start supply config = .ok D₀ ∧ StepsMeet (step supply) K ms D₀ ∧
    runs (step supply) ms D₀ = .ok D

/-- A run and one more step are there if they can be carried out. -/
theorem step_of_check {α : Type} {supply : JobSupply} {config : Config}
    {K : Desk → Message → Prop} [∀ D m, Decidable (K D m)] {ms : List Message}
    {m : Message} {f : Desk → Desk → α} {a : α}
    (h : ((start supply config).toOption.bind fun D₀ =>
      if StepsMeet (step supply) K ms D₀
        then (runs (step supply) ms D₀).toOption.map fun D =>
        if K D m then (D.step supply m).toOption.map (f D) else none else none)
          = some (some a)) :
    ∃ D D', Run supply config K ms D ∧ K D m ∧ D.step supply m = .ok D' ∧
      f D D' = a := by
  obtain ⟨D₀, D, D', hstart, hmeets, hrun, hk, hstep, hD⟩ := Pyramid.step_of_check h
  exact ⟨D, D', ⟨D₀, hstart, hmeets, hrun⟩, hk, hstep, hD⟩

end Runs

/-- The server when the first piece can be sent. -/
def before (D : Desk) : Message → Except Halt Server
  | .submitJob job _ storage _ =>
      if D.waiting = [] then .ok D.world.server else D.announce job storage
  | .joinGroup _ _ _ | .cliData _ _ _ | .algoMax _ _ _ | .algoError _ | .other
    _ | .closed _ =>
      .ok D.world.server

/-- A result comes from somebody who is no CLI or did not submit the job; or a
job is taken that names no CLI, has the number of a reply while somebody is idle,
or has the id of another one, which takes more jobs than an `int` can count. -/
def Misroutes (D : Desk) : Message → Prop
  | .algoMax cfd _ _ => cfd ∉ D.clis ∨
      ∃ p ∈ D.world.server.assigned cfd, ∃ fd ∈ D.submitter p.2, fd ≠ cfd
  | .submitJob job system _ _ => D.waiting ≠ [] ∧ (job.cfd ∉ D.clis ∨
      D.world.Misnames (D.event job system) ∨
      intMax ≤ D.shJobId ∧ ¬ D.world.FreshId (D.event job system))
  | .joinGroup _ _ _ | .cliData _ _ _ | .algoError _ | .other _ | .closed _ => False

instance (D : Desk) : ∀ m, Decidable (D.Misroutes m)
  | .algoMax cfd _ _ => inferInstanceAs (Decidable (_ ∨
      ∃ p ∈ D.world.server.assigned cfd, ∃ fd ∈ D.submitter p.2, fd ≠ cfd))
  | .submitJob _ _ _ _ => inferInstanceAs (Decidable (_ ∧ (_ ∨ _ ∨ _ ∧ _)))
  | .joinGroup _ _ _ | .cliData _ _ _ | .algoError _ | .other _ | .closed _ =>
      inferInstanceAs (Decidable False)

end Desk

/-- In the step that `m` is, replies are sent to CLIs only, a piece only to the
client that holds it, nothing but pieces to anybody else, and a result to the CLI
that submitted the job. -/
structure Routed (D D' : Desk) (m : Message) : Prop where
  replies : ∀ f ∈ D'.world.server.sent.drop D.world.server.sent.length,
    IsReply f.type → f.fd ∈ D'.clis
  pieces : ∀ s, D.before m = .ok s → ∀ f ∈ D'.world.server.sent.drop s.sent.length,
    (f.type : Int) = Attribute.algoMax.code → D.world.server.Serves D'.world.server f
  workers : ∀ f ∈ D'.world.server.sent.drop D.world.server.sent.length,
    f.fd ∉ D'.clis →
    D.world.server.Serves D'.world.server f
  relayed : ∀ cfd value storage, m = .algoMax cfd value storage →
    ∀ p ∈ D.world.server.assigned cfd, ∀ fd ∈ D.submitter p.2,
      D.world.server.Relays D'.world.server fd value

/-! ## What is sent beside the pieces -/

section Beside
variable {fd : Int} {types : List Int} {s s' : Server}

theorem SentTo.shows (h : SentTo fd types s s') {b : Board} {g : Layout}
    (hg : Shows s b g) :
    Shows s' b g := by
  obtain ⟨fs, rfl, -⟩ := h
  exact hg.of_eq rfl rfl rfl rfl rfl rfl rfl

/-- No other type is sent; a frame without bytes has the type 0. -/
theorem SentTo.type_ne (h : SentTo fd types s s') {t : Int} (ht : t ∉ types)
    (hne : t ≠ 0) :
    ∃ fs, s'.sent = s.sent ++ fs ∧ ∀ f ∈ fs, f.fd = fd ∧ (f.type : Int) ≠ t := by
  obtain ⟨fs, rfl, hfs⟩ := h
  refine ⟨fs, rfl, fun f hf => ?_⟩
  obtain ⟨hfd, u, hu, hempty | htype⟩ := hfs f hf
  · have hzero : f.type = 0 := by
      rw [Sent.type, hempty]
      rfl
    rw [hzero]
    exact ⟨hfd, hne.symm⟩
  · refine ⟨hfd, fun heq => ht ?_⟩
    rw [← heq, htype]
    exact hu

/-- The pieces are told just as before, whatever is sent before and after. -/
theorem Server.Serves.beside {t t' : Server} {f : Sent} {types' : List Int}
    {fd' : Int} (h : Server.Serves t t' f) (hbefore : SentTo fd types s t)
    (hafter : SentTo fd' types' t' s') :
    s.Serves s' f := by
  obtain ⟨fs, rfl, -⟩ := hbefore
  obtain ⟨gs, rfl, -⟩ := hafter
  exact h

/-- `Routed`, for replies, pieces and replies sent one after the other. -/
theorem Routed.of_sent {D D' : Desk} {m : Message} (as bs cs : List Sent)
    (hsent : D'.world.server.sent = D.world.server.sent ++ (as ++ (bs ++ cs)))
    (hbefore : ∀ s, D.before m = .ok s → s.sent = D.world.server.sent ++ as)
    (has : ∀ f ∈ as, f.fd ∈ D'.clis)
    (hbs : ∀ f ∈ bs, D.world.server.Serves D'.world.server f ∧ ¬ IsReply f.type)
    (hcs : ∀ f ∈ cs, f.fd ∈ D'.clis ∧ (f.type : Int) ≠ Attribute.algoMax.code)
    (hrelayed : ∀ cfd value storage, m = .algoMax cfd value storage →
      ∀ p ∈ D.world.server.assigned cfd, ∀ fd ∈ D.submitter p.2,
        D.world.server.Relays D'.world.server fd value) : Routed D D' m := by
  have hnew : ∀ f ∈ D'.world.server.sent.drop D.world.server.sent.length,
      f ∈ as ∨ f ∈ bs ∨ f ∈ cs := by
    intro f hf
    rw [hsent, List.drop_left, List.mem_append, List.mem_append] at hf
    exact hf
  refine ⟨fun f hf hreply => ?_, fun s hs f hf htype => ?_,
    fun f hf hfd => ?_, hrelayed⟩
  · rcases hnew f hf with hf | hf | hf
    · exact has f hf
    · exact absurd hreply (hbs f hf).2
    · exact (hcs f hf).1
  · rw [hbefore s hs, hsent, ← List.append_assoc, List.drop_left, List.mem_append]
      at hf
    rcases hf with hf | hf
    · exact (hbs f hf).1
    · exact absurd htype (hcs f hf).2
  · rcases hnew f hf with hf | hf | hf
    · exact absurd (has f hf) hfd
    · exact (hbs f hf).1
    · exact absurd (hcs f hf).1 hfd

end Beside

/-! ## The invariant -/

structure World.Kept (w : World) (shJobId : Int) : Prop where
  board : ∃ b, w.OnBoard b
  given : w.server.Given
  counted : 0 ≤ shJobId
  ids : shJobId < intMax → ∀ i ∈ w.server.jobIds, i ≤ shJobId

namespace World.Kept

variable {supply : JobSupply} {w w' : World} {n : Int} {s' : Server}

theorem configure (h : w.Kept n) (config : Config) :
    ({ w with server := { w.server with config := config } } : World).Kept n := by
  obtain ⟨b, hb⟩ := h.board
  obtain ⟨g, hg⟩ := hb.server
  exact ⟨⟨b, ⟨g, hg.of_eq rfl rfl rfl rfl rfl rfl rfl⟩, hb.started, hb.told, hb.ok⟩,
    h.given, h.counted, h.ids⟩

theorem sent (h : w.Kept n) {fd : Int} {types : List Int}
    (hs : SentTo fd types w.server s') :
    ({ w with server := s' } : World).Kept n := by
  obtain ⟨b, hb⟩ := h.board
  obtain ⟨g, hg⟩ := hb.server
  obtain ⟨fs, rfl, -⟩ := id hs
  exact ⟨⟨b, ⟨g, hs.shows hg⟩, hb.started, hb.told, hb.ok⟩, h.given,
    h.counted, h.ids⟩

theorem serves (h : w.Kept n) {e : Event} (hfresh : w.FreshId e)
    (hnamed : ¬ w.Misnames e) (hstep : w.step supply e = .ok w') :
    (∃ b, w'.OnBoard b) ∧ w'.server.Given ∧
      ∃ fs, w'.server.sent = w.server.sent ++ fs ∧
      ∀ f ∈ fs, w.server.Serves w'.server f ∧ ¬ IsReply f.type := by
  obtain ⟨b, hb⟩ := h.board
  obtain ⟨l, b', -, hb', -⟩ := hb.step hfresh hstep
  have hgiven := hb.given h.given hnamed hstep
  exact ⟨⟨b', hb'⟩, hgiven, hb.serves hb' hgiven hstep⟩

/-- An event that submits no job. -/
theorem step (h : w.Kept n) {e : Event} (he : ∀ g i t f y, e ≠ .submit g i t f y)
    (hstep : w.step supply e = .ok w') :
    w'.Kept n ∧ ∃ fs, w'.server.sent = w.server.sent ++ fs ∧
      ∀ f ∈ fs, w.server.Serves w'.server f ∧ ¬ IsReply f.type := by
  have hfresh : w.FreshId e := by
    cases e with
    | submit g i t f y => exact absurd rfl (he g i t f y)
    | join _ _ _ | result _ _ | error _ | disconnect _ => exact trivial
  have hnamed : ¬ w.Misnames e := by
    cases e with
    | submit g i t f y => exact absurd rfl (he g i t f y)
    | join _ _ _ | result _ _ | error _ | disconnect _ => exact id
  obtain ⟨hboard, hgiven, hserves⟩ := h.serves hfresh hnamed hstep
  refine ⟨⟨hboard, hgiven, h.counted, fun hn i hi => ?_⟩, hserves⟩
  obtain ⟨b, hb⟩ := h.board
  rcases hb.jobIds hstep i hi with hold | ⟨g, t, f, y, rfl⟩
  · exact h.ids hn i hold
  · exact absurd rfl (he g i t f y)

/-- A job is submitted under the next id, which nobody has unless
the ids have run out. -/
theorem submit (h : w.Kept n) {groupId taskType system : Int} {inputFile : Bytes}
    (hk : ¬ (intMax ≤ n ∧
      ¬ w.FreshId (.submit groupId (toInt32 (n + 1)) taskType inputFile system)))
    (hnamed :
      ¬ w.Misnames (.submit groupId (toInt32 (n + 1)) taskType inputFile system))
    (hstep : w.step supply (.submit groupId (toInt32 (n + 1)) taskType inputFile
      system) = .ok w') :
    w'.Kept (n + 1) ∧ ∃ fs, w'.server.sent = w.server.sent ++ fs ∧
      ∀ f ∈ fs, w.server.Serves w'.server f ∧ ¬ IsReply f.type := by
  have hpos := h.counted
  have hid : n < intMax → toInt32 (n + 1) = n + 1 := fun hn =>
    toInt32_of_range (by unfold intMin; omega) (by omega)
  have hfresh : w.FreshId (.submit groupId (toInt32 (n + 1)) taskType inputFile
      system) := by
    by_cases hn : n < intMax
    · refine Or.inr (Or.inr fun hmem => ?_)
      have hle := h.ids hn _ hmem
      rw [hid hn] at hle
      omega
    · by_contra hno
      exact hk ⟨by omega, hno⟩
  obtain ⟨hboard, hgiven, hserves⟩ := h.serves hfresh hnamed hstep
  refine ⟨⟨hboard, hgiven, by omega, fun hn i hi => ?_⟩, hserves⟩
  obtain ⟨b, hb⟩ := h.board
  rcases hb.jobIds hstep i hi with hold | ⟨g, t, f, y, heq⟩
  · have hle := h.ids (by omega) i hold
    omega
  · cases heq
    rw [hid (by omega)]

end World.Kept

/-! ## Every message -/

namespace Desk

variable {supply : JobSupply} {D D' : Desk}

/-- A result sends pieces, and then the value back on the connection it came from. -/
theorem algoMax_sent (h : D.world.Kept D.shJobId) {cfd : Int} {value storage : Bytes}
    (hstep : D.step supply (.algoMax cfd value storage) = .ok D') :
    D'.world.Kept D'.shJobId ∧ D'.clis = D.clis ∧
      D.world.server.Relays D'.world.server cfd value ∧
      ∃ bs cs, D'.world.server.sent = D.world.server.sent ++ (bs ++ cs) ∧
        (∀ f ∈ bs, D.world.server.Serves D'.world.server f ∧ ¬ IsReply f.type) ∧
        (∀ f ∈ cs, f.fd = cfd ∧ (f.type : Int) ≠ Attribute.algoMax.code) ∧
        ∃ f ∈ cs, (f.type : Int) = cliData := by
  obtain ⟨w, hresult, hstep⟩ := bind_ok.mp hstep
  obtain ⟨s, hshow, hstep⟩ := bind_ok.mp hstep
  cases hstep
  obtain ⟨text, -, htext⟩ := bind_ok.mp hshow
  have hshown : SentTo cfd [cliData] w.server s :=
    SentTo.text List.mem_cons_self htext
  obtain ⟨hkept, bs, hbs, hserves⟩ :=
    h.step (fun _ _ _ _ _ he => (by cases he)) hresult
  obtain ⟨cs, hcs, htypes⟩ :=
    hshown.type_ne (t := Attribute.algoMax.code) (by decide) (by decide)
  obtain ⟨text, shown, data, fs, before, htext, hshown', hdata, hfs, hsent, f,
      hf, htype⟩ :=
    shSendJobResultToCli_relays hshow
  have hmem : f ∈ cs := by
    rw [hsent, List.append_assoc] at hcs
    rw [← List.append_cancel_left hcs]
    exact List.mem_append_right _ hf
  refine ⟨hkept.sent hshown, rfl,
    ⟨text, shown, data, fs, bs ++ before, htext, hshown', hdata, hfs, ?_, f,
    hf, htype⟩, bs, cs, ?_, fun g hg => ?_, htypes, f, hmem, htype⟩
  · show s.sent = _
    rw [hsent, hbs]
    simp only [List.append_assoc]
  · show s.sent = _
    rw [hcs, hbs, List.append_assoc]
  · exact ⟨(hserves g hg).1.beside (SentTo.refl 0 [] _) hshown, (hserves g hg).2⟩

theorem stays_algoMax (h : D.world.Kept D.shJobId) {cfd : Int}
    {value storage : Bytes} (hk : ¬ D.Misroutes (.algoMax cfd value storage))
    (hstep : D.step supply (.algoMax cfd value storage) = .ok D') :
    D'.world.Kept D'.shJobId ∧ Routed D D' (.algoMax cfd value storage) := by
  obtain ⟨hkept, hclis, hrelays, bs, cs, hsent, hbs, hcs, -⟩ := algoMax_sent h hstep
  have hcli : cfd ∈ D.clis := by
    by_contra hno
    exact hk (Or.inl hno)
  refine ⟨hkept, Routed.of_sent [] bs cs hsent (fun s hs => ?_)
    (fun f hf => absurd hf List.not_mem_nil) hbs (fun f hf => ?_) ?_⟩
  · cases hs
    exact (List.append_nil _).symm
  · rw [(hcs f hf).1, hclis]
    exact ⟨hcli, (hcs f hf).2⟩
  · intro fd v st heq p hp dest hdest
    cases heq
    have hsame : dest = cfd := by
      by_contra hno
      exact hk (Or.inr ⟨p, hp, dest, hdest, hno⟩)
    rw [hsame]
    exact hrelays

/-- A result that is not from the CLI that submitted the job
is never routed right. -/
theorem misrouted_algoMax (h : D.world.Kept D.shJobId) {cfd : Int}
    {value storage : Bytes} (hk : D.Misroutes (.algoMax cfd value storage))
    (hstep : D.step supply (.algoMax cfd value storage) = .ok D') :
    ¬ Routed D D' (.algoMax cfd value storage) := by
  intro hrouted
  obtain ⟨-, hclis, -, bs, cs, hsent, hbs, hcs, f, hf, htype⟩ := algoMax_sent h hstep
  rcases hk with hno | ⟨p, hp, fd, hfd, hne⟩
  · have hnew : f ∈ D'.world.server.sent.drop D.world.server.sent.length := by
      rw [hsent, List.drop_left]
      exact List.mem_append_right _ hf
    have hcli := hrouted.replies f hnew (Or.inl htype)
    rw [(hcs f hf).1, hclis] at hcli
    exact hno hcli
  · -- whatever is shown to the CLI that submitted the job was sent to `cfd`
    obtain ⟨text, shown, data, fs, before, -, -, -, hfs, hlast, g, hg, htype'⟩ :=
      hrouted.relayed cfd value storage rfl p hp fd hfd
    rw [hsent, List.append_assoc] at hlast
    have hmem : g ∈ bs ++ cs := by
      rw [List.append_cancel_left hlast]
      exact List.mem_append_right _ hg
    rcases List.mem_append.mp hmem with hmem | hmem
    · exact (hbs g hmem).2 (Or.inl htype')
    · exact hne ((framesOf_fd hfs g hg).1.symm.trans (hcs g hmem).1)

/-- An event of the world, and nothing is sent beside it. -/
theorem stays_event (h : D.world.Kept D.shJobId) {m : Message} {e : Event}
    (he : ∀ g i t f y, e ≠ .submit g i t f y)
    (hstep : D.world.step supply e = .ok D'.world) (hcount : D'.shJobId = D.shJobId)
    (hbefore : D.before m = .ok D.world.server)
    (hm : ∀ cfd value storage, m ≠ .algoMax cfd value storage) :
    D'.world.Kept D'.shJobId ∧ Routed D D' m := by
  obtain ⟨hkept, bs, hbs, hserves⟩ := h.step he hstep
  rw [hcount]
  refine ⟨hkept, Routed.of_sent [] bs [] ?_ (fun s hs => ?_)
    (fun f hf => absurd hf List.not_mem_nil) hserves
    (fun f hf => absurd hf List.not_mem_nil)
    fun cfd v st heq => absurd heq (hm cfd v st)⟩
  · rw [hbs, List.nil_append, List.append_nil]
  · cases hbefore.symm.trans hs
    exact (List.append_nil _).symm

theorem stays_cliData (h : D.world.Kept D.shJobId) {cfd : Int}
    {value storage : Bytes}
    (hstep : D.step supply (.cliData cfd value storage) = .ok D') :
    D'.world.Kept D'.shJobId ∧ Routed D D' (.cliData cfd value storage) := by
  obtain ⟨buff, -, hstep⟩ := bind_ok.mp hstep
  obtain ⟨⟨work, s⟩, hcmd, hstep⟩ := bind_ok.mp hstep
  cases hstep
  obtain ⟨c, -, hshown⟩ := SentTo.command hcmd
  obtain ⟨cs, hcs, htypes⟩ :=
    hshown.type_ne (t := Attribute.algoMax.code) (by decide) (by decide)
  refine ⟨(h.configure (c.config D.world.server.config)).sent hshown,
    Routed.of_sent [] [] cs ?_
    (fun t ht => ?_) (fun f hf => absurd hf List.not_mem_nil)
    (fun f hf => absurd hf List.not_mem_nil)
    (fun f hf => ?_) fun fd v st heq => (by cases heq)⟩
  · rw [List.nil_append, List.nil_append]
    exact hcs
  · cases ht
    exact (List.append_nil _).symm
  · rw [(htypes f hf).1]
    exact ⟨List.mem_cons_self, (htypes f hf).2⟩

/-- Nothing happens. -/
theorem stays_same (h : D.world.Kept D.shJobId) {m : Message}
    (hbefore : D.before m = .ok D.world.server)
    (hm : ∀ cfd value storage, m ≠ .algoMax cfd value storage) :
    D.world.Kept D.shJobId ∧ Routed D D m := by
  refine ⟨h, Routed.of_sent [] [] [] ?_ (fun s hs => ?_)
    (fun f hf => absurd hf List.not_mem_nil) (fun f hf => absurd hf List.not_mem_nil)
    (fun f hf => absurd hf List.not_mem_nil) fun cfd v st heq =>
      absurd heq (hm cfd v st)⟩
  · exact (List.append_nil _).symm
  · cases hbefore.symm.trans hs
    exact (List.append_nil _).symm

/-- How `submit_job` goes on after the job is announced. -/
theorem submitJob_cases {job : SubmitJob} {system : Int} {storage failure : Bytes}
    {w : World} (hsubmit : D.submitJob supply job system storage failure = .ok w) :
    ∃ s w₁ t, D.announce job storage = .ok s ∧
      ({ D.world with server := s } : World).step supply (D.event job system)
        = .ok w₁ ∧
      t ∈ [cliData, Attribute.algoError.code] ∧
      SentTo job.cfd [t] w₁.server w.server ∧
      w = { w₁ with server := w.server } := by
  obtain ⟨s, hannounce, hsubmit⟩ := bind_ok.mp hsubmit
  obtain ⟨⟨started, s₁⟩, hinit, hsubmit⟩ := bind_ok.mp hsubmit
  have hstep : ({ D.world with server := s } : World).step supply
      (D.event job system)
      = .ok ⟨s₁, if started then D.world.begun s₁ else D.world.started,
        D.world.told⟩ := by
    rw [event, World.step, hinit]
    rfl
  cases started with
  | true =>
      obtain ⟨⟨reply, s₂⟩, hshow, hsubmit⟩ := bind_ok.mp hsubmit
      cases hsubmit
      exact ⟨s, _, cliData, hannounce, hstep, List.mem_cons_self,
        SentTo.jobResults List.mem_cons_self hshow, rfl⟩
  | false =>
      obtain ⟨s₂, hshow, hsubmit⟩ := bind_ok.mp hsubmit
      cases hsubmit
      exact ⟨s, _, Attribute.algoError.code, hannounce, hstep,
        List.mem_cons_of_mem _ List.mem_cons_self,
        SentTo.text List.mem_cons_self hshow, rfl⟩

/-- The job is announced, its pieces are sent, and the CLI is told how it stands. -/
theorem stays_submitJob (h : D.world.Kept D.shJobId) {job : SubmitJob} {system : Int}
    {storage failure : Bytes}
    (hk : ¬ D.Misroutes (.submitJob job system storage failure))
    (hstep : D.step supply (.submitJob job system storage failure) = .ok D') :
    D'.world.Kept D'.shJobId ∧
      Routed D D' (.submitJob job system storage failure) := by
  cases hwaiting : D.waiting with
  | nil =>
      simp only [step, hwaiting] at hstep
      cases hstep
      exact stays_same h (by rw [before, if_pos hwaiting]) fun _ _ _ heq =>
        (by cases heq)
  | cons fd waiting =>
      simp only [step, hwaiting] at hstep
      obtain ⟨w, hsubmit, hstep⟩ := bind_ok.mp hstep
      cases hstep
      have hne : D.waiting ≠ [] := by
        rw [hwaiting]
        exact List.cons_ne_nil _ _
      have hcli : job.cfd ∈ D.clis := by
        by_contra hno
        exact hk ⟨hne, Or.inl hno⟩
      obtain ⟨s, w₁, t, hannounce, hw₁, ht, hafter, hw⟩ := submitJob_cases hsubmit
      have hbefore : SentTo job.cfd [job.task] D.world.server s :=
        SentTo.text List.mem_cons_self hannounce
      have hkept := h.sent hbefore
      obtain ⟨as, rfl, has⟩ := id hbefore
      obtain ⟨hkept₁, bs, hbs, hserves⟩ :=
        hkept.submit (fun hno => hk ⟨hne, Or.inr (Or.inr hno)⟩)
        (fun hno => hk ⟨hne, Or.inr (Or.inl hno)⟩) hw₁
      have hother : (Attribute.algoMax.code : Int) ∉ [t] := by
        rcases List.mem_cons.mp ht with rfl | ht
        · decide
        · rw [List.mem_singleton.mp ht]
          decide
      obtain ⟨cs, hcs, htypes⟩ := hafter.type_ne hother (by decide)
      refine ⟨hw ▸ hkept₁.sent hafter, Routed.of_sent as bs cs ?_ (fun s hs => ?_)
        (fun f hf => ?_) (fun f hf => ?_) (fun f hf => ?_) fun _ _ _ heq =>
          (by cases heq)⟩
      · show w.server.sent = _
        rw [hcs, hbs]
        simp only [List.append_assoc]
      · rw [before, if_neg hne] at hs
        cases hannounce.symm.trans hs
        rfl
      · rw [(has f hf).1]
        exact hcli
      · exact ⟨(hserves f hf).1.beside hbefore hafter, (hserves f hf).2⟩
      · rw [(htypes f hf).1]
        exact ⟨hcli, (htypes f hf).2⟩

theorem stays (h : D.world.Kept D.shJobId) {m : Message} (hk : ¬ D.Misroutes m)
    (hstep : D.step supply m = .ok D') :
    D'.world.Kept D'.shJobId ∧ Routed D D' m := by
  cases m with
  | joinGroup cfd sa gids =>
      obtain ⟨w, hjoin, hstep⟩ := bind_ok.mp hstep
      cases hstep
      exact stays_event h (fun _ _ _ _ _ he => (by cases he)) hjoin rfl rfl
        fun _ _ _ heq => (by cases heq)
  | cliData cfd value storage => exact stays_cliData h hstep
  | algoMax cfd value storage => exact stays_algoMax h hk hstep
  | algoError cfd =>
      obtain ⟨w, herror, hstep⟩ := bind_ok.mp hstep
      cases hstep
      exact stays_event h (fun _ _ _ _ _ he => (by cases he)) herror rfl rfl
        fun _ _ _ heq => (by cases heq)
  | other cfd =>
      cases hstep
      exact stays_same h rfl fun _ _ _ heq => (by cases heq)
  | closed cfd =>
      obtain ⟨w, hleave, hstep⟩ := bind_ok.mp hstep
      cases hstep
      exact stays_event h (fun _ _ _ _ _ he => (by cases he)) hleave rfl rfl
        fun _ _ _ heq => (by cases heq)
  | submitJob job system storage failure => exact stays_submitJob h hk hstep

theorem kept_start {config : Config} (hstart : start supply config = .ok D) :
    D.world.Kept D.shJobId := by
  obtain ⟨w, hw, hstart⟩ := bind_ok.mp hstart
  cases hstart
  have hb := World.onBoard_start hw
  obtain ⟨g, hg⟩ := hb.server
  refine ⟨⟨_, hb⟩, fun c v j hv hj => ?_, Int.le_refl 0, fun _ i hi => ?_⟩
  · have hseat := hg.seat_of_cell hv
    cases hseat
  · rw [hg.jobIds_eq] at hi
    exact absurd hi List.not_mem_nil

theorem Run.kept {config : Config} {ms : List Message}
    (hrun : Run supply config (fun D m => ¬ D.Misroutes m) ms D) :
    D.world.Kept D.shJobId := by
  obtain ⟨D₀, hstart, hmeets, hrun⟩ := hrun
  have hkeeps : ∀ (D : Desk) (m : Message) (D' : Desk), D.world.Kept D.shJobId →
      ¬ D.Misroutes m →
      D.step supply m = .ok D' → D'.world.Kept D'.shJobId :=
    fun D m D' h hk hstep => (stays h hk hstep).1
  exact runs_inv_of_meets hkeeps (kept_start hstart) hmeets hrun

end Desk

/-! ## Every run -/

/-- **Reply routing.**  In a run in which results come only from the CLI that
submitted the job, and jobs are taken only that name a CLI and are not numbered
like a reply, everything is sent to whom it is for; and a result that does not
come from that CLI is not. -/
theorem replies_routed (supply : JobSupply) (config : Config) (ms : List Message)
    (m : Message) (D D' : Desk)
    (hrun : Desk.Run supply config (fun D m => ¬ D.Misroutes m) ms D)
    (hstep : D.step supply m = .ok D') :
    (¬ D.Misroutes m → Routed D D' m) ∧
      ∀ cfd value storage, m = .algoMax cfd value storage → Routed D D' m →
      ¬ D.Misroutes m := by
  refine ⟨fun hk => (Desk.stays hrun.kept hk hstep).2, ?_⟩
  rintro cfd value storage rfl hrouted hk
  exact Desk.misrouted_algoMax hrun.kept hk hstep hrouted

/-- The job of a CLI goes to a worker, and then one that its CLI has the piece of
itself: it finds 7 and is told so. -/
theorem replies_routed_sample :
    ∃ D D', Desk.Run JobSupply.zeros Config.sample (fun D m => ¬ D.Misroutes m)
        [.joinGroup 5 ⟨0, 0⟩ [1], .cliData 9 (ascii "4|102|1|in" ++ [0])
          (List.replicate 1024 0), .submitJob ⟨102, 9, 1, ascii "in"⟩ 0
            (List.replicate 1024 0) (List.replicate 1024 0),
          .joinGroup 6 ⟨0, 0⟩ [2], .cliData 6 (ascii "4|102|2|in" ++ [0])
            (List.replicate 1024 0),
          .submitJob ⟨102, 6, 2, ascii "in"⟩ 0 (List.replicate 1024 0)
            (List.replicate 1024 0)] D ∧
      D.step JobSupply.zeros (.algoMax 6 (ascii "7" ++ [0]) (List.replicate 1024 0))
        = .ok D' ∧
      (D'.world.server.sent.map fun f => (f.fd, f.type))
        = [(9, 2), (9, 102), (5, 102), (9, 5), (6, 2), (6, 102), (6, 102),
          (6, 5), (6, 5)] ∧
      Routed D D' (.algoMax 6 (ascii "7" ++ [0]) (List.replicate 1024 0)) := by
  obtain ⟨D, D', hrun, hk, hstep, hsent⟩ : ∃ D D',
      Desk.Run JobSupply.zeros Config.sample (fun D m => ¬ D.Misroutes m)
          [.joinGroup 5 ⟨0, 0⟩ [1], .cliData 9 (ascii "4|102|1|in" ++ [0])
            (List.replicate 1024 0), .submitJob ⟨102, 9, 1, ascii "in"⟩ 0
              (List.replicate 1024 0) (List.replicate 1024 0),
            .joinGroup 6 ⟨0, 0⟩ [2], .cliData 6 (ascii "4|102|2|in" ++ [0])
              (List.replicate 1024 0),
            .submitJob ⟨102, 6, 2, ascii "in"⟩ 0 (List.replicate 1024 0)
              (List.replicate 1024 0)] D ∧
        ¬ D.Misroutes (.algoMax 6 (ascii "7" ++ [0]) (List.replicate 1024 0)) ∧
        D.step JobSupply.zeros (.algoMax 6 (ascii "7" ++ [0])
          (List.replicate 1024 0)) = .ok D' ∧
        (D'.world.server.sent.map fun f => (f.fd, f.type))
          = [(9, 2), (9, 102), (5, 102), (9, 5), (6, 2), (6, 102), (6, 102),
            (6, 5), (6, 5)] :=
    Desk.step_of_check (by decide +kernel)
  exact ⟨D, D', hrun, hstep, hsent, (replies_routed _ _ _ _ _ _ hrun hstep).1 hk⟩

/-- A worker joins, a CLI submits a job, and the worker finds 7:
it is told so itself. -/
theorem result_to_worker :
    ∃ D D', Desk.Run JobSupply.zeros Config.sample (fun _ _ => True)
        [.joinGroup 5 ⟨0, 0⟩ [1], .cliData 9 (ascii "4|102|1|in" ++ [0])
          (List.replicate 1024 0), .submitJob ⟨102, 9, 1, ascii "in"⟩ 0
            (List.replicate 1024 0) (List.replicate 1024 0)] D ∧
      D.step JobSupply.zeros (.algoMax 5 (ascii "7" ++ [0]) (List.replicate 1024 0))
        = .ok D' ∧
      ¬ Routed D D' (.algoMax 5 (ascii "7" ++ [0]) (List.replicate 1024 0)) := by
  obtain ⟨D, D', hrun, -, hstep, hdata⟩ : ∃ D D',
      Desk.Run JobSupply.zeros Config.sample (fun _ _ => True)
          [.joinGroup 5 ⟨0, 0⟩ [1], .cliData 9 (ascii "4|102|1|in" ++ [0])
            (List.replicate 1024 0), .submitJob ⟨102, 9, 1, ascii "in"⟩ 0
              (List.replicate 1024 0) (List.replicate 1024 0)] D ∧
        True ∧
        D.step JobSupply.zeros (.algoMax 5 (ascii "7" ++ [0])
          (List.replicate 1024 0)) = .ok D' ∧
        ((D'.world.server.sent.drop D.world.server.sent.length).map
          (fun f => (f.fd, f.type)), D'.clis)
          = ([(5, 5)], [9]) :=
    Desk.step_of_check (by decide +kernel)
  refine ⟨D, D', hrun, hstep, fun hrouted => ?_⟩
  obtain ⟨hsent, hclis⟩ := Prod.mk.inj hdata
  obtain ⟨f, rest, hnew, hf, -⟩ := List.map_eq_cons_iff.mp hsent
  obtain ⟨hfd, htype⟩ := Prod.mk.inj hf
  have hcli :=
    hrouted.replies f (by rw [hnew]; exact List.mem_cons_self)
      (by rw [htype]; decide)
  rw [hfd, hclis] at hcli
  exact absurd hcli (by decide)

end Pyramid
