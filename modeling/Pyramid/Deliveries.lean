/-
# `Pyramid.Deliveries` — which frames go out, and for which piece

`Keeps P s s'` is what the functions of `jobs.c` have in common: clients and
jobs are the same before and after, and whoever is given a job meets `P`.
`Hands s s' j ds` says which pieces of the job at `j` were sent meanwhile, and
to whom.  Neither looks at the lists, so both hold whatever state the lists are
in.
-/
import Pyramid.Members
import Pyramid.Simulation

namespace Pyramid

/-! ## Frames -/

/-- The type of its first TLV. -/
def Sent.type (f : Sent) : Nat := be16 f.frame 4

/-- What a type that encodes to nothing sends is no frame at all. -/
def Sent.Typed (f : Sent) (type : Int) : Prop := f.frame = [] ∨ (f.type : Int) = type

theorem encodeType_typed {fd type len : Int} {data payload : Bytes} {n : Nat}
    {buf : Buffer} (h : encodeType type data len ⟨0, payload⟩ = .ok (n, buf)) :
    Sent.Typed ⟨fd, buf.payload.take n⟩ type ∧
      (0 < n → (Sent.type ⟨fd, buf.payload.take n⟩ : Int) = type) := by
  have hnone : n = 0 → Sent.Typed ⟨fd, buf.payload.take n⟩ type ∧
      (0 < n → (Sent.type ⟨fd, buf.payload.take n⟩ : Int) = type) := by
    rintro rfl
    exact ⟨Or.inl rfl, fun hpos => absurd hpos (Nat.lt_irrefl 0)⟩
  unfold encodeType at h
  split at h
  · cases h
    exact hnone rfl
  · next attr hattr =>
      split at hattr
      · cases hattr
      · next hneg =>
          have hcode := Attribute.ofCode_eq_some.mp hattr
          rcases encode_firstType h with hzero | ⟨hsix, htype⟩
          · exact hnone hzero
          · have htyped : (Sent.type ⟨fd, buf.payload.take n⟩ : Int) = type := by
              rw [Sent.type, be16_take hsix, htype]
              omega
            exact ⟨Or.inr htyped, fun _ => htyped⟩

theorem sendRounds_frames {fd type : Int} {data : Bytes} :
    ∀ {fuel : Nat} {len : Int} {s s' : Server},
      sendRounds fd data type fuel len s = .ok s' →
      ∃ fs, s' = { s with sent := s.sent ++ fs } ∧
        (∀ f ∈ fs, f.fd = fd ∧ f.Typed type) ∧
        (0 < len → ∃ f ∈ fs, (f.type : Int) = type) ∧
        ∀ t, sendRounds fd data type fuel len t
          = .ok { t with sent := t.sent ++ fs } := by
  have hdone : ∀ {fuel : Nat} {len : Int} {s s' : Server}, len ≤ 0 →
      Except.ok s = Except.ok (ε := Halt) s' →
      ∃ fs, s' = { s with sent := s.sent ++ fs } ∧
        (∀ f ∈ fs, f.fd = fd ∧ f.Typed type) ∧
        (0 < len → ∃ f ∈ fs, (f.type : Int) = type) ∧
        ∀ t, sendRounds fd data type fuel len t
          = .ok { t with sent := t.sent ++ fs } := by
    intro fuel len s s' hlen h
    cases h
    refine ⟨[], by rw [List.append_nil], fun f hf => absurd hf List.not_mem_nil,
      fun hpos => ?_, fun t => ?_⟩
    · omega
    rw [List.append_nil]
    cases fuel with
    | zero => rw [sendRounds, if_pos hlen]
    | succ fuel => rw [sendRounds, if_pos hlen]
  intro fuel
  induction fuel with
  | zero =>
      intro len s s' h
      rw [sendRounds] at h
      split at h
      · exact hdone ‹_› h
      · cases h
  | succ fuel ih =>
      intro len s s' h
      rw [sendRounds] at h
      split at h
      · exact hdone ‹_› h
      · rename_i hlen
        obtain ⟨⟨n, buf⟩, henc, h⟩ := bind_ok.mp h
        obtain ⟨fs, rfl, hfd, hsome, hrun⟩ := ih h
        obtain ⟨htyped, hpos⟩ := @encodeType_typed fd _ _ _ _ _ _ henc
        refine ⟨⟨fd, buf.payload.take n⟩ :: fs, ?_, fun f hf => ?_, fun hlen => ?_,
          fun t => ?_⟩
        · rw [List.append_assoc]
          rfl
        · rcases List.mem_cons.mp hf with rfl | hf
          · exact ⟨rfl, htyped⟩
          · exact hfd f hf
        · rcases Nat.eq_zero_or_pos n with rfl | hn
          · -- nothing was sent, and the same is tried again
            obtain ⟨f, hf, htype⟩ := hsome (by omega)
            exact ⟨f, List.mem_cons_of_mem _ hf, htype⟩
          · exact ⟨_, List.mem_cons_self, hpos hn⟩
        · have hrest := hrun { t with sent := t.sent ++ [⟨fd, buf.payload.take n⟩] }
          rw [List.append_assoc] at hrest
          rw [sendRounds, if_neg hlen, henc, ok_bind]
          exact hrest

/-- The frames in which `sh_send_encoded_data` sends `data`. -/
def framesOf (fd : Int) (data : Bytes) (type : Int) : Except Halt (List Sent) := do
  let s ← shSendEncodedData (Server.boot Registry.zeroed ⟨[], [], [], []⟩)
    fd data type
  .ok s.sent

theorem shSendEncodedData_frames {s s' : Server} {fd type : Int} {data : Bytes}
    (h : shSendEncodedData s fd data type = .ok s') :
    ∃ fs, framesOf fd data type = .ok fs ∧ s' = { s with sent := s.sent ++ fs } := by
  obtain ⟨text, htext, h⟩ := bind_ok.mp h
  obtain ⟨fs, hs', -, -, hrun⟩ := sendRounds_frames h
  refine ⟨fs, ?_, hs'⟩
  rw [framesOf, shSendEncodedData, htext, ok_bind, hrun, ok_bind]
  rfl

theorem framesOf_fd {fd type : Int} {data : Bytes} {fs : List Sent}
    (h : framesOf fd data type = .ok fs) :
    ∀ f ∈ fs, f.fd = fd ∧ f.Typed type := by
  obtain ⟨s, hs, h⟩ := bind_ok.mp h
  cases h
  obtain ⟨text, -, hs⟩ := bind_ok.mp hs
  obtain ⟨fs, rfl, hfd, -⟩ := sendRounds_frames hs
  exact hfd

/-- A text that is not empty is sent. -/
theorem framesOf_some {fd type : Int} {data text : Bytes} {fs : List Sent}
    (h : framesOf fd data type = .ok fs) (htext : cString data = .ok text)
    (hne : text ≠ []) :
    ∃ f ∈ fs, (f.type : Int) = type := by
  obtain ⟨s, hs, h⟩ := bind_ok.mp h
  cases h
  obtain ⟨text', htext', hs⟩ := bind_ok.mp hs
  cases htext.symm.trans htext'
  obtain ⟨fs, rfl, -, hsome, -⟩ := sendRounds_frames hs
  have hpos := List.length_pos_of_ne_nil hne
  exact hsome (by omega)

/-- The frames that tell the client at `c` where the piece `i`
of the job at `j` is. -/
def Server.pieceFrames (s : Server) (j c : Nat) (i : Int) :
    Except Halt (List Sent) := do
  let ci ← s.reg.infos.load (some c)
  let jn ← s.jobs.load (some j)
  let task ← s.tasks.load jn.job.task
  framesOf ci.cfd (piecePath s.config jn.job.id i) task.taskType

theorem pieceFrames_fd {s : Server} {j c : Nat} {i : Int} {fs : List Sent}
    (h : s.pieceFrames j c i = .ok fs) :
    ∃ v u a task, s.reg.infos.cell c = some v ∧ s.jobs.cell j = some u ∧
      u.job.task = some a ∧
      s.tasks.cell a = some task ∧ ∀ f ∈ fs, f.fd = v.cfd ∧
      f.Typed task.taskType := by
  obtain ⟨ci, hci, h⟩ := bind_ok.mp h
  obtain ⟨jn, hjn, h⟩ := bind_ok.mp h
  obtain ⟨task, htask, h⟩ := bind_ok.mp h
  obtain ⟨d, hd, hcell⟩ := Heap.load_ok.mp hci
  cases hd
  obtain ⟨k, hk, hjob⟩ := Heap.load_ok.mp hjn
  cases hk
  obtain ⟨a, ha, htask⟩ := Heap.load_ok.mp htask
  exact ⟨ci, jn, a, task, hcell, hjob, ha, htask, framesOf_fd h⟩

/-! ## What stays -/

/-- The clients and the jobs of `s` are there in `s'`; a client that is given a
job, and the job, are in the relation `P`. -/
structure Keeps (P : Nat → Nat → Prop) (s s' : Server) : Prop where
  config : s'.config = s.config
  tasks : s'.tasks = s.tasks
  clients : SameClients s.reg s'.reg
  given : ∀ c v', s'.reg.infos.cell c = some v' →
    ∃ v, s.reg.infos.cell c = some v ∧ (v'.jn = v.jn ∨ ∃ j, v'.jn = some j ∧ P c j)
  jobs : ∀ k u, s.jobs.cell k = some u →
    ∃ u', s'.jobs.cell k = some u' ∧ u'.job.id = u.job.id ∧ u'.job.task = u.job.task

namespace Keeps

variable {P : Nat → Nat → Prop} {s s' s'' : Server}

theorem of_eq (hconfig : s'.config = s.config) (htasks : s'.tasks = s.tasks)
    (hreg : s'.reg = s.reg) (hjobs : s'.jobs = s.jobs) : Keeps P s s' := by
  refine ⟨hconfig, htasks, hreg ▸ SameClients.refl _,
    fun c v hv => ⟨v, hreg ▸ hv, Or.inl rfl⟩,
    fun k u hu => ⟨u, hjobs ▸ hu, rfl, rfl⟩⟩

theorem trans (h : Keeps P s s') (h' : Keeps P s' s'') : Keeps P s s'' := by
  refine ⟨h'.config.trans h.config, h'.tasks.trans h.tasks,
    h.clients.trans h'.clients, fun c v'' hv'' => ?_, fun k u hu => ?_⟩
  · obtain ⟨v', hv', hcases⟩ := h'.given c v'' hv''
    obtain ⟨v, hv, hcases'⟩ := h.given c v' hv'
    refine ⟨v, hv, ?_⟩
    rcases hcases with heq | hgiven
    · rw [heq]
      exact hcases'
    · exact Or.inr hgiven
  · obtain ⟨u', hu', hid, htask⟩ := h.jobs k u hu
    obtain ⟨u'', hu'', hid', htask'⟩ := h'.jobs k u' hu'
    exact ⟨u'', hu'', hid'.trans hid, htask'.trans htask⟩

theorem mono {Q : Nat → Nat → Prop} (h : Keeps P s s') (hPQ : ∀ c j, P c j → Q c j) :
    Keeps Q s s' := by
  refine ⟨h.config, h.tasks, h.clients, fun c v' hv' => ?_, h.jobs⟩
  obtain ⟨v, hv, hcases⟩ := h.given c v' hv'
  refine ⟨v, hv, hcases.imp_right ?_⟩
  rintro ⟨j, hj, hp⟩
  exact ⟨j, hj, hPQ c j hp⟩

/-- A client's flag is set, or the job it was given. -/
theorem setClient {c : Nat} {v w : ClientInfo} (hv : s.reg.infos.cell c = some v)
    (hw : w.identity = v.identity) (hjn : w.jn = v.jn ∨ ∃ j, w.jn = some j ∧ P c j) :
    Keeps P s { s with
      reg := { s.reg with infos := s.reg.infos.set c (some w) } } := by
  refine ⟨rfl, rfl, SameClients.set hv hw, fun d v' hv' => ?_,
    fun k u hu => ⟨u, hu, rfl, rfl⟩⟩
  have hd : (s.reg.infos.set c (some w)).cell d = some v' := hv'
  by_cases hdc : d = c
  · rw [hdc, Heap.cell_set_self hv] at hd
    cases hd
    exact ⟨v, hdc ▸ hv, hdc ▸ hjn⟩
  · rw [Heap.cell_set_ne _ hdc] at hd
    exact ⟨v', hd, Or.inl rfl⟩

theorem setBusy {ci : Ptr} {busy : Bool} (h : setBusy s ci busy = .ok s') :
    Keeps P s s' := by
  obtain ⟨c, v, -, hv, rfl⟩ := setBusy_ok h
  exact setClient hv rfl (Or.inl rfl)

theorem updateJobNode {c j : Nat} (hp : P c j)
    (h : serverUpdateJobNode s (some c) j = .ok s') :
    Keeps P s s' := by
  obtain ⟨d, v, hd, hv, rfl⟩ := serverUpdateJobNode_ok h
  cases hd
  exact setClient hv rfl (Or.inr ⟨j, rfl, hp⟩)

/-- A job is changed, and not its id and task. -/
theorem setJob {p : Ptr} {f : JobNode → JobNode} {jobs : Heap JobNode}
    (h : s.jobs.modify p f = .ok jobs)
    (hf : ∀ v, (f v).job.id = v.job.id ∧ (f v).job.task = v.job.task) :
    Keeps P s { s with jobs := jobs } := by
  obtain ⟨a, v, -, hv, rfl⟩ := Heap.modify_ok.mp h
  refine ⟨rfl, rfl, SameClients.refl _, fun c v hv => ⟨v, hv, Or.inl rfl⟩,
    fun k u hu => ?_⟩
  show ∃ u', (s.jobs.set a (some (f v))).cell k = some u' ∧ _
  by_cases hk : k = a
  · rw [hk] at hu ⊢
    cases hv.symm.trans hu
    exact ⟨f v, Heap.cell_set_self hv _, hf v⟩
  · exact ⟨u, (Heap.cell_set_ne _ hk _).trans hu, rfl, rfl⟩

/-- What is known of the pieces is still right. -/
theorem pieceFrames (h : Keeps P s s') {j c : Nat} {i : Int} {fs : List Sent}
    (hfs : s.pieceFrames j c i = .ok fs) : s'.pieceFrames j c i = .ok fs := by
  obtain ⟨ci, hci, hfs⟩ := bind_ok.mp hfs
  obtain ⟨jn, hjn, hfs⟩ := bind_ok.mp hfs
  obtain ⟨task, htask, hfs⟩ := bind_ok.mp hfs
  obtain ⟨d, hd, hcell⟩ := Heap.load_ok.mp hci
  cases hd
  obtain ⟨k, hk, hjob⟩ := Heap.load_ok.mp hjn
  cases hk
  obtain ⟨ci', hcell', hsame⟩ := h.clients.cell hcell
  obtain ⟨jn', hjob', hid, htask'⟩ := h.jobs j jn hjob
  have hcfd : ci'.cfd = ci.cfd := congrArg (fun u => u.cfd) hsame
  rw [Server.pieceFrames, Heap.load_some hcell', ok_bind, Heap.load_some hjob',
    ok_bind, htask', h.tasks, htask, ok_bind, hcfd, hid, h.config, hfs]

end Keeps

/-! ## The functions of `jobs.c` -/

/-- No piece is put in the queue, and no job added. -/
structure Still (s s' : Server) : Prop where
  qHead : s'.qHead = s.qHead
  pTail : s'.pTail = s.pTail

theorem Still.trans {s s' s'' : Server} (h : Still s s') (h' : Still s' s'') :
    Still s s'' :=
  ⟨h'.qHead.trans h.qHead, h'.pTail.trans h.pTail⟩

/-- Nothing is sent either. -/
structure Silent (s s' : Server) : Prop extends Still s s' where
  sent : s'.sent = s.sent

theorem Silent.trans {s s' s'' : Server} (h : Silent s s') (h' : Silent s' s'') :
    Silent s s'' :=
  ⟨h.toStill.trans h'.toStill, h'.sent.trans h.sent⟩

theorem Silent.of_eq {s s' : Server} (hsent : s'.sent = s.sent)
    (hqHead : s'.qHead = s.qHead) (hpTail : s'.pTail = s.pTail) : Silent s s' :=
  ⟨⟨hqHead, hpTail⟩, hsent⟩

section Functions
variable {supply : JobSupply} {P : Nat → Nat → Prop} {s s' : Server} {j c : Nat}

theorem setBusy_silent {ci : Ptr} {busy : Bool} (h : setBusy s ci busy = .ok s') :
    Silent s s' := by
  obtain ⟨c, v, -, -, rfl⟩ := setBusy_ok h
  exact Silent.of_eq rfl rfl rfl

theorem serverUpdateJobNode_silent {ci : Ptr}
    (h : serverUpdateJobNode s ci j = .ok s') : Silent s s' := by
  obtain ⟨c, v, -, -, rfl⟩ := serverUpdateJobNode_ok h
  exact Silent.of_eq rfl rfl rfl

theorem lockMutex_keeps {p : Ptr} (h : lockMutex s p = .ok s') :
    Keeps P s s' ∧ Silent s s' := by
  obtain ⟨v, -, h⟩ := bind_ok.mp h
  split at h
  · cases h
  · obtain ⟨jobs, hjobs, h⟩ := bind_ok.mp h
    cases h
    exact ⟨(Keeps.setJob hjobs fun v => ⟨rfl, rfl⟩).trans
      (Keeps.of_eq rfl rfl rfl rfl), Silent.of_eq rfl rfl rfl⟩

theorem unlockMutex_keeps {p : Ptr} (h : unlockMutex s p = .ok s') :
    Keeps P s s' ∧ Silent s s' := by
  obtain ⟨jobs, hjobs, h⟩ := bind_ok.mp h
  cases h
  exact ⟨(Keeps.setJob hjobs fun v => ⟨rfl, rfl⟩).trans
    (Keeps.of_eq rfl rfl rfl rfl),
      Silent.of_eq rfl rfl rfl⟩

/-- `addClientToJob`; the other nodes keep their indexes. -/
theorem addClientToJob_keeps {client node : Ptr}
    (h : addClientToJob supply s j client = .ok (node, s')) :
    Keeps P s s' ∧ Silent s s' ∧ s'.reg = s.reg ∧ ∀ a v, s.nodes.cell a = some v →
      ∃ v', s'.nodes.cell a = some v' ∧ v'.index = v.index := by
  obtain ⟨v, t, vt, u, -, hadded⟩ := addClientToJob_ok h
  have hjobs : s.jobs.modify (some j) (fun j => { j with
      job := { j.job with tail := some s.nodes.next }
      numClients := j.numClients + 1 }) = .ok s'.jobs := by
    rw [Heap.modify_some hadded.job, hadded.state]
  refine ⟨(Keeps.setJob hjobs fun v => ⟨rfl, rfl⟩).trans (Keeps.of_eq ?_ ?_ ?_ rfl),
    Silent.of_eq ?_ ?_ ?_, ?_, fun a w hw => ?_⟩
  · rw [hadded.state]
  · rw [hadded.state]
  · rw [hadded.state]
  · rw [hadded.state]
  · rw [hadded.state]
  · rw [hadded.state]
  · rw [hadded.state]
  · have hne : a ≠ s.nodes.next := Nat.ne_of_lt (s.nodes.lt_next hw)
    by_cases hat : a = t
    · have hvt := hadded.before
      rw [← hat, Heap.cell_grow_ne _ hne] at hvt
      have hsame : w = vt := Option.some.inj (hw.symm.trans hvt)
      refine ⟨{ vt with next := some s.nodes.next }, ?_, hsame ▸ rfl⟩
      rw [hadded.state, hat]
      exact Heap.cell_set_self hadded.before _
    · exact ⟨w, (hadded.old hne hat).trans hw, rfl⟩

/-- A node that is found is for the client it was looked for. -/
theorem getClientNode_found {a : Nat} (h : getClientNode s j c = .ok (some a)) :
    ∃ v, s.nodes.cell a = some v ∧ v.client = some c := by
  obtain ⟨jn, -, h⟩ := bind_ok.mp h
  obtain ⟨head, -, h⟩ := bind_ok.mp h
  obtain ⟨v, hv, hhit⟩ := Heap.chase_found h
  exact ⟨v, hv, by simpa using hhit⟩

theorem freeClient_keeps {id : Int} {p : Bool}
    (h : freeClient s id c = .ok (p, s')) :
    Keeps P s s' ∧ Silent s s' := by
  rcases freeClient_ok h with
    ⟨rfl, -⟩ | ⟨j, a, v, ci, nodes, nodes', jobs, -, -, -, hci, hcases, -, rfl⟩
  · exact ⟨Keeps.of_eq rfl rfl rfl rfl, Silent.of_eq rfl rfl rfl⟩
  · have hbusy : Keeps P s { s with
        reg := { s.reg with
          infos := s.reg.infos.set c (some { ci with busy := false }) } } :=
      Keeps.setClient hci rfl (Or.inl rfl)
    refine ⟨?_, Silent.of_eq rfl rfl rfl⟩
    rcases hcases with ⟨-, -, hjobs⟩ | ⟨n, -, -, hjobs⟩
    · exact (hbusy.trans (Keeps.setJob hjobs fun v => ⟨rfl, rfl⟩)).trans
        (Keeps.of_eq rfl rfl rfl rfl)
    · exact (hbusy.trans (Keeps.setJob hjobs fun v => ⟨rfl, rfl⟩)).trans
        (Keeps.of_eq rfl rfl rfl rfl)

end Functions

/-! ## Pieces that are sent -/

/-- Between `s` and `s'` the pieces `ds` of the job at `j` are sent to their
holders, in this order, and nothing else is. -/
def Hands (s s' : Server) (j : Nat) (ds : List Holder) : Prop :=
  ∃ fss, List.Forall₂ (fun (d : Holder) fs => s'.pieceFrames j d.client d.index
    = .ok fs) ds fss ∧
    s'.sent = s.sent ++ fss.flatten

namespace Hands

variable {P : Nat → Nat → Prop} {s s₁ s' : Server} {j : Nat} {ds es : List Holder}

theorem nothing (h : s'.sent = s.sent) : Hands s s' j [] :=
  ⟨[], List.Forall₂.nil, by rw [h, List.flatten_nil, List.append_nil]⟩

theorem before (h : Hands s₁ s' j ds) (hsent : s₁.sent = s.sent) :
    Hands s s' j ds := by
  obtain ⟨fss, hfss, hs⟩ := h
  exact ⟨fss, hfss, by rw [hs, hsent]⟩

theorem append (h : Hands s s₁ j ds) (hkeeps : Keeps P s₁ s')
    (h' : Hands s₁ s' j es) :
    Hands s s' j (ds ++ es) := by
  obtain ⟨fss, hfss, hs₁⟩ := h
  obtain ⟨gss, hgss, hs'⟩ := h'
  have hfss' : List.Forall₂ (fun (d : Holder) fs => s'.pieceFrames j d.client d.index
      = .ok fs) ds fss :=
    hfss.imp fun _ _ hd => hkeeps.pieceFrames hd
  exact ⟨fss ++ gss, List.rel_append hfss' hgss,
    by rw [hs', hs₁, List.append_assoc, List.flatten_append]⟩

theorem after (h : Hands s s₁ j ds) (hkeeps : Keeps P s₁ s')
    (hsent : s'.sent = s₁.sent) :
    Hands s s' j ds := by
  have happend := h.append hkeeps (nothing hsent)
  rwa [List.append_nil] at happend

/-- Every frame that was sent is one of the frames of one of the pieces. -/
theorem mem (h : Hands s s' j ds) {f : Sent} (hf : f ∈ s'.sent.drop s.sent.length) :
    ∃ d ∈ ds, ∃ fs, s'.pieceFrames j d.client d.index = .ok fs ∧ f ∈ fs := by
  obtain ⟨fss, hfss, hs'⟩ := h
  rw [hs', List.drop_left] at hf
  clear hs'
  induction hfss with
  | nil => exact absurd hf List.not_mem_nil
  | @cons d fs ds' fss' hd _ ih =>
      rw [List.flatten_cons] at hf
      rcases List.mem_append.mp hf with hf | hf
      · exact ⟨d, List.mem_cons_self, fs, hd, hf⟩
      · obtain ⟨e, he, hrest⟩ := ih hf
        exact ⟨e, List.mem_cons_of_mem _ he, hrest⟩

end Hands

section Sending
variable {supply : JobSupply} {P : Nat → Nat → Prop} {s s' : Server} {j c : Nat}

theorem send_hands {ci : ClientInfo} {jn : JobNode} {t : Task} {i : Int}
    (hci : s.reg.infos.cell c = some ci) (hjn : s.jobs.cell j = some jn)
    (ht : s.tasks.load jn.job.task = .ok t)
    (h : shSendEncodedData s ci.cfd (piecePath s.config jn.job.id i) t.taskType
      = .ok s') :
    Keeps P s s' ∧ Still s s' ∧ Hands s s' j [⟨c, i⟩] := by
  obtain ⟨fs, hfs, rfl⟩ := shSendEncodedData_frames h
  have hkeeps : Keeps P s { s with sent := s.sent ++ fs } :=
    Keeps.of_eq rfl rfl rfl rfl
  refine ⟨hkeeps, ⟨rfl, rfl⟩, [fs],
    List.Forall₂.cons (hkeeps.pieceFrames ?_) List.Forall₂.nil, ?_⟩
  · rw [Server.pieceFrames, Heap.load_some hci, ok_bind, Heap.load_some hjn, ok_bind,
      ht, ok_bind, hfs]
  · rw [List.flatten_cons, List.flatten_nil, List.append_nil]

/-- The loop of `assignJob`: every holder is told the index that its node gets. -/
theorem assignFrom_hands {t : Task} {id : Int} {fuel i : Nat} {p q : Ptr}
    (xs : List Nat) (hs : List Holder) {jn : JobNode} (hjn : s.jobs.cell j = some jn)
    (hid : jn.job.id = id) (ht : s.tasks.load jn.job.task = .ok t)
    (hseg : Seg nodeLinks s.nodes s.nodes.Dead q p xs none) (hnd : xs.Nodup)
    (hfor : xs.map (fun a => (s.nodes.cell a).map (·.client))
      = hs.map (fun x => some (some x.client)))
    (h : assignFrom id t.taskType fuel i p s = .ok s') :
    Keeps P s s' ∧ Still s s' ∧ Hands s s' j (reindex i hs) := by
  replace h := assignFrom_rounds h
  induction h generalizing xs hs jn q with
  | done fuel i =>
      rw [hseg.eq_nil, List.map_nil] at hfor
      rw [List.map_eq_nil_iff.mp hfor.symm]
      exact ⟨Keeps.of_eq rfl rfl rfl rfl, ⟨rfl, rfl⟩, Hands.nothing rfl⟩
  | @send fuel i a c u ci s s₁ hu hc hcell hsend _ ih =>
      obtain ⟨xs, rfl, hrest⟩ := hseg.eq_cons hu
      obtain ⟨hnot, hnd⟩ := List.nodup_cons.mp hnd
      cases hs with
      | nil => cases hfor
      | cons x hs =>
          rw [List.map_cons, List.map_cons, hu] at hfor
          obtain ⟨hx, hfor⟩ := List.cons.inj hfor
          have hclient : u.client = some x.client := Option.some.inj hx
          cases hclient.symm.trans hc
          obtain ⟨hkeeps, hstill, hhands⟩ := send_hands (P := P) (i := i)
            (s := { s with nodes := s.nodes.set a (some { u with index := i }) })
            hcell hjn ht
            (hid ▸ hsend)
          obtain ⟨fs, -, hs₁⟩ := shSendEncodedData_frames hsend
          have hindex : Keeps P s { s with
              nodes := s.nodes.set a (some { u with index := i }) } :=
            Keeps.of_eq rfl rfl rfl rfl
          have hstill₁ : Still s { s with
              nodes := s.nodes.set a (some { u with index := i }) } :=
            ⟨rfl, rfl⟩
          have hnodes : s₁.nodes = s.nodes.set a (some { u with index := i }) :=
            by rw [hs₁]
          have hjn₁ : s₁.jobs.cell j = some jn := by rw [hs₁]; exact hjn
          have ht₁ : s₁.tasks.load jn.job.task = .ok t := by rw [hs₁]; exact ht
          have hrest₁ :
              Seg nodeLinks s₁.nodes s₁.nodes.Dead (some a) u.next xs none := by
            rw [hnodes]
            exact (hrest.set_of_not_mem hnot _).congr (fun _ _ => rfl) fun e he =>
              he.set hu _
          have hfor₁ : xs.map (fun d => (s₁.nodes.cell d).map (·.client))
              = hs.map fun x => some (some x.client) := by
            refine (List.map_congr_left fun d hd => ?_).trans hfor
            rw [hnodes, Heap.cell_set_ne _ (by rintro rfl; exact hnot hd)]
          obtain ⟨hkeeps', hstill', hhands'⟩ :=
            ih xs hs hjn₁ hid ht₁ hrest₁ hnd hfor₁
          exact ⟨(hindex.trans hkeeps).trans hkeeps',
            (hstill₁.trans hstill).trans hstill',
            (hhands.before rfl).append hkeeps' hhands'⟩

/-- The piece of the node `old` goes to `w`. -/
theorem movePiece_hands {old w : Nat} {v : ClientNode}
    (hv : s.nodes.cell old = some v) (hp : P w j)
    (h : movePiece supply s j old c w = .ok s') :
    Keeps P s s' ∧ Still s s' ∧ Hands s s' j [⟨w, v.index⟩] := by
  obtain ⟨s₁, hjob, h⟩ := bind_ok.mp h
  obtain ⟨⟨cn, s₂⟩, hadd, h⟩ := bind_ok.mp h
  obtain ⟨s₃, hbusy, h⟩ := bind_ok.mp h
  obtain ⟨vold, hold, h⟩ := bind_ok.mp h
  obtain ⟨nodes, -, h⟩ := bind_ok.mp h
  obtain ⟨jv, hjv, h⟩ := bind_ok.mp h
  obtain ⟨t, ht, h⟩ := bind_ok.mp h
  obtain ⟨ci, hci, h⟩ := bind_ok.mp h
  obtain ⟨s₄, hsend, h⟩ := bind_ok.mp h
  obtain ⟨⟨q, s₅⟩, hfree, h⟩ := bind_ok.mp h
  cases h
  have hkeeps₁ : Keeps P s s₁ := Keeps.updateJobNode hp hjob
  have hsilent₁ := serverUpdateJobNode_silent hjob
  obtain ⟨hkeeps₂, hsilent₂, -, hindexes⟩ := addClientToJob_keeps (P := P) hadd
  have hkeeps₃ : Keeps P s₂ s₃ := Keeps.setBusy hbusy
  have hsilent₃ := setBusy_silent hbusy
  -- the old node still has the index it had
  have hindex : vold.index = v.index := by
    obtain ⟨c₁, v₁, -, -, hs₁⟩ := serverUpdateJobNode_ok hjob
    obtain ⟨c₃, v₃, -, -, hs₃⟩ := setBusy_ok hbusy
    have hv₁ : s₁.nodes.cell old = some v := by rw [hs₁]; exact hv
    obtain ⟨v', hv', hsame⟩ := hindexes old v hv₁
    have hv₃ : s₃.nodes.cell old = some v' := by rw [hs₃]; exact hv'
    rw [Heap.load_some hv₃] at hold
    cases hold
    exact hsame
  obtain ⟨d, hd, hcell⟩ := Heap.load_ok.mp hci
  cases hd
  obtain ⟨k, hk, hjob'⟩ := Heap.load_ok.mp hjv
  cases hk
  obtain ⟨hkeeps₄, hstill₄, hhands⟩ := send_hands (P := P) hcell hjob' ht hsend
  obtain ⟨hkeeps₅, hsilent₅⟩ := freeClient_keeps (P := P) hfree
  rw [hindex] at hhands
  have hsilent := (hsilent₁.trans hsilent₂).trans hsilent₃
  have hbefore : Keeps P s { s₃ with nodes := nodes } :=
    ((hkeeps₁.trans hkeeps₂).trans hkeeps₃).trans (Keeps.of_eq rfl rfl rfl rfl)
  have hstill : Still s { s₃ with nodes := nodes } :=
    hsilent.toStill.trans ⟨rfl, rfl⟩
  exact ⟨(hbefore.trans hkeeps₄).trans hkeeps₅,
    (hstill.trans hstill₄).trans hsilent₅.toStill,
    (hhands.before hsilent.sent).after hkeeps₅ hsilent₅.sent⟩

/-- The piece of the node `cn` goes to `c`, if `c` has a node in the list. -/
theorem assignPendingJob_hands {cn : Nat} {p : Bool}
    (h : assignPendingJob s j cn c = .ok (p, s')) :
    Keeps P s s' ∧ (p = false ∧ Hands s s' j [] ∨
      ∃ v, s.nodes.cell cn = some v ∧ Hands s s' j [⟨c, v.index⟩]) := by
  obtain ⟨node, hnode, h⟩ := bind_ok.mp h
  cases node with
  | none =>
      cases h
      exact ⟨Keeps.of_eq rfl rfl rfl rfl, Or.inl ⟨rfl, Hands.nothing rfl⟩⟩
  | some a =>
      obtain ⟨v, hload, h⟩ := bind_ok.mp h
      obtain ⟨b, hb, hv⟩ := Heap.load_ok.mp hload
      cases hb
      obtain ⟨nodes, hindex, h⟩ := bind_ok.mp h
      obtain ⟨nodes', hfree, h⟩ := bind_ok.mp h
      obtain ⟨w, hw, h⟩ := bind_ok.mp h
      obtain ⟨ci, hci, h⟩ := bind_ok.mp h
      obtain ⟨jv, hjv, h⟩ := bind_ok.mp h
      obtain ⟨t, ht, h⟩ := bind_ok.mp h
      obtain ⟨s₁, hsend, h⟩ := bind_ok.mp h
      cases h
      obtain ⟨d, hd, hcell⟩ := Heap.load_ok.mp hci
      obtain ⟨k, hk, hjob⟩ := Heap.load_ok.mp hjv
      cases hk
      -- the node found is the client's
      have hclient : w.client = some c := by
        obtain ⟨u, hu, hhit⟩ := getClientNode_found hnode
        obtain ⟨b, u', hb, hu', rfl⟩ := Heap.modify_ok.mp hindex
        cases hb
        cases hu.symm.trans hu'
        obtain ⟨x, hx, rfl⟩ := Heap.free_ok.mp hfree
        obtain ⟨b, hb, hw⟩ := Heap.load_ok.mp hw
        cases hb
        by_cases hne : a = cn
        · rw [hne] at hx hw
          rw [Heap.cell_set_self hx] at hw
          cases hw
        · rw [Heap.cell_set_ne _ hne, Heap.cell_set_self hu] at hw
          cases hw
          exact hhit
      cases hclient.symm.trans hd
      obtain ⟨hkeeps, -, hhands⟩ :=
        send_hands (P := P) (s := { s with nodes := nodes' }) hcell hjob ht hsend
      have hbefore : Keeps P s { s with nodes := nodes' } :=
        Keeps.of_eq rfl rfl rfl rfl
      exact ⟨hbefore.trans hkeeps, Or.inr ⟨v, hv, hhands.before rfl⟩⟩

end Sending

/-! ## A job is submitted -/

/-- The job at `j`, while its clients are reserved: its list has the nodes `xs`
for the clients of `hs` behind the first node, at `m`. -/
structure Built (s : Server) (j m : Nat) (xs : List Nat) (stop : Ptr)
    (view : JobView) : Prop where
  job : ∃ v, s.jobs.cell j = some v ∧ JobOk v view m xs
  list : ClientListOk s.nodes m xs stop view.id view.holders

section Submitting
variable {supply : JobSupply} {P : Nat → Nat → Prop} {s s' : Server} {j m : Nat}
  {xs : List Nat}
  {stop : Ptr} {id r : Int}

theorem Built.of_eq {view : JobView} (h : Built s j m xs stop view)
    (hjobs : s'.jobs = s.jobs) (hnodes : s'.nodes = s.nodes) :
    Built s' j m xs stop view :=
  ⟨hjobs ▸ h.job, hnodes ▸ h.list⟩

theorem Built.addClient {hs : List Holder} {c : Nat} {node : Ptr}
    (h : Built s j m xs stop ⟨id, r, hs⟩)
    (hr : addClientToJob supply s j (some c) = .ok (node, s')) :
    ∃ a i, Built s' j m (xs ++ [a]) none ⟨id, r, hs ++ [⟨c, i⟩]⟩ := by
  obtain ⟨v, t, vt, u, -, hadded⟩ := addClientToJob_ok hr
  obtain ⟨w, hw, hvj⟩ := h.job
  cases hadded.job.symm.trans hw
  have hlast : lastOf none (m :: xs) = some t := hvj.last.symm.trans hadded.tail
  have happend := h.list.append (i := u.index)
    (c := c) (s.nodes.fresh _ (Nat.le_refl _))
    (fun d hd => Heap.cell_grow_ne _ hd _) (fun d hd => hd.grow _)
    (Heap.cell_grow_self _ _)
      (by rw [hadded.made, ClientNode.piece, hvj.id]) (by rw [hadded.made])
      (by rw [hadded.made]) hlast
      hadded.before
  rw [hadded.state]
  refine ⟨s.nodes.next, u.index,
    ⟨_, Heap.cell_set_self hw _, hvj.id, hvj.result, ?_, hvj.first, ?_⟩,
    happend⟩
  · show v.numClients + 1 = _
    rw [hvj.count, List.length_append, List.length_singleton]
    rfl
  · rw [lastOf_append_singleton]

/-- The loop of `initJob` reserves clients it meets, and gives them this job. -/
theorem Built.reserve {fuel : Nat} {p : Ptr} {hs : List Holder}
    (h : Built s j m xs stop ⟨id, r, hs⟩)
    (hr : reserveClients supply j fuel p s = .ok s') :
    ∃ xs' stop' hs', Built s' j m xs' stop' ⟨id, r, hs ++ hs'⟩ ∧
      (hs' ≠ [] ∨ stop = none → stop' = none) ∧
      (∀ x ∈ hs', x.client ∈ s.reg.walked fuel p) ∧
      Keeps (fun c k => k = j ∧ c ∈ s.reg.walked fuel p) s s' ∧ Silent s s' := by
  replace hr := reserveClients_rounds hr
  induction hr generalizing xs stop hs with
  | done fuel =>
      refine ⟨xs, stop, [], ?_, fun hne => hne.resolve_left (absurd rfl),
        fun x hx => absurd hx List.not_mem_nil, Keeps.of_eq rfl rfl rfl rfl,
        Silent.of_eq rfl rfl rfl⟩
      rw [List.append_nil]
      exact h
  | @busy fuel cg c v ci s hv hc _ _ _ ih =>
      obtain ⟨xs', stop', hs', hbuilt, hstop, hwalked, hkeeps, hsilent⟩ := ih h
      rw [Registry.walked_cons hv hc]
      refine ⟨xs', stop', hs', hbuilt, hstop,
        fun x hx => List.mem_cons_of_mem _ (hwalked x hx), hkeeps.mono ?_, hsilent⟩
      rintro d k ⟨hk, hd⟩
      exact ⟨hk, List.mem_cons_of_mem _ hd⟩
  | @idle fuel cg c v ci node s s₁ s₂ s₃ hv hc _ _ hadd hjn hset _ ih =>
      rw [Registry.walked_cons hv hc]
      obtain ⟨a, i, hadded⟩ := h.addClient hadd
      obtain ⟨hkeeps₁, hsilent₁, -, -⟩ := addClientToJob_keeps
        (P := fun d k => k = j ∧ d ∈ c :: s.reg.walked fuel v.n) hadd
      have hkeeps₂ :
          Keeps (fun d k => k = j ∧ d ∈ c :: s.reg.walked fuel v.n) s₁ s₂ :=
        Keeps.updateJobNode ⟨rfl, List.mem_cons_self⟩ hjn
      have hkeeps₃ := (hkeeps₁.trans hkeeps₂).trans (Keeps.setBusy hset)
      have hsilent₃ :=
        (hsilent₁.trans (serverUpdateJobNode_silent hjn)).trans (setBusy_silent hset)
      have hbuilt₃ : Built s₃ j m (xs ++ [a]) none ⟨id, r, hs ++ [⟨c, i⟩]⟩ := by
        obtain ⟨d, w, -, -, hs₂⟩ := serverUpdateJobNode_ok hjn
        obtain ⟨d, w, -, -, hs₃⟩ := setBusy_ok hset
        exact hadded.of_eq (by rw [hs₃, hs₂]) (by rw [hs₃, hs₂])
      obtain ⟨xs', stop', hs', hbuilt, hstop, hwalked, hkeeps, hsilent⟩ := ih hbuilt₃
      rw [hkeeps₃.clients.walked] at hwalked hkeeps
      refine ⟨xs', stop', ⟨c, i⟩ :: hs', ?_, fun _ => hstop (Or.inr rfl),
        fun x hx => ?_, hkeeps₃.trans (hkeeps.mono ?_), hsilent₃.trans hsilent⟩
      · rw [List.append_assoc] at hbuilt
        exact hbuilt
      · rcases List.mem_cons.mp hx with rfl | hx
        · exact List.mem_cons_self
        · exact List.mem_cons_of_mem _ (hwalked x hx)
      · rintro d k ⟨hk, hd⟩
        exact ⟨hk, List.mem_cons_of_mem _ hd⟩

/-- What `addJob` leaves: an empty list, and everything else as it was. -/
theorem addJob_built {jobId : Int} {task p : Ptr}
    (hr : addJob supply s jobId task = .ok (p, s')) :
    ∃ j m stop r, p = some j ∧ s.jobs.cell j = none ∧
      Built s' j m [] stop ⟨jobId, r, []⟩ ∧
      Keeps (fun _ _ => False) s s' ∧ s'.reg = s.reg ∧ s'.sent = s.sent ∧
      s'.pTail = some j ∧
      ∃ v, s'.jobs.cell j = some v ∧ v.job.task = task := by
  obtain ⟨t, v, w, u, ht, hv, hw, hu, rfl, hadded⟩ := addJob_ok jobId task hr
  have hstate := hadded.state
  have hfresh : s.jobs.cell s.jobs.next = none := s.jobs.fresh _ (Nat.le_refl _)
  have hnodes : s'.nodes = (s.nodes.grow (some u)).set s.nodes.next
      (some { u with
        prev := none, client := some 0xdeadbeef, next := w.job.tail }) := by
        rw [hstate]
  have hcell : s'.nodes.cell s.nodes.next
      = some { u with
        prev := none, client := some 0xdeadbeef, next := w.job.tail } := by
    rw [hnodes]
    exact Heap.cell_set_self (Heap.cell_grow_self _ _) _
  refine ⟨s.jobs.next, s.nodes.next, w.job.tail, w.job.result, rfl, hfresh,
    ⟨⟨_, hadded.new, rfl, rfl, rfl, rfl, rfl⟩,
    ⟨Leads.refl _ _, _, hcell, rfl, Leads.refl _ _⟩, List.pairwise_singleton _ _,
    rfl⟩, ?_, by rw [hstate], by rw [hstate], by rw [hstate], _, hadded.new, rfl⟩
  refine ⟨by rw [hstate], by rw [hstate], ?_, fun c x hx => ?_, fun k x hx => ?_⟩
  · rw [show s'.reg = s.reg by rw [hstate]]
    exact SameClients.refl _
  · rw [show s'.reg = s.reg by rw [hstate]] at hx
    exact ⟨x, hx, Or.inl rfl⟩
  · by_cases hkt : k = t
    · rw [hkt] at hx ⊢
      cases hv.symm.trans hx
      exact ⟨_, hadded.last, rfl, rfl⟩
    · refine ⟨x, ?_, rfl, rfl⟩
      rw [hadded.old k hkt (Nat.ne_of_lt (s.jobs.lt_next hx))]
      exact hx

/-- `assignJob` numbers the clients of the list and tells each its number. -/
theorem Built.assign {hs : List Holder} {task : Ptr} {v : JobNode} {p : Bool}
    (h : Built s j m xs stop ⟨id, r, hs⟩) (hstop : stop = none)
    (hv : s.jobs.cell j = some v) (htask : v.job.task = task)
    (hr : assignJob s j task = .ok (p, s')) :
    Still s s' ∧ Keeps P s s' ∧ Hands s s' j (reindex 0 hs) := by
  obtain ⟨w, hload, hr⟩ := bind_ok.mp hr
  obtain ⟨vh, hhead, hr⟩ := bind_ok.mp hr
  obtain ⟨t, ht, hr⟩ := bind_ok.mp hr
  obtain ⟨s₁, hassign, hr⟩ := bind_ok.mp hr
  cases hr
  rw [Heap.load_some hv] at hload
  cases hload
  obtain ⟨w, hw, hvj⟩ := h.job
  cases hv.symm.trans hw
  rw [hvj.first] at hhead
  obtain ⟨a, ha, hvh⟩ := Heap.load_ok.mp hhead
  cases ha
  obtain ⟨-, u, hu, -, hrest⟩ := h.list.seg
  cases hvh.symm.trans hu
  rw [hstop] at hrest
  have hfor : xs.map (fun a => (s.nodes.cell a).map (·.client)) = hs.map fun x =>
      some (some x.client) := by
    have hheld := congrArg (List.map (Option.map Prod.fst)) h.list.held
    rw [pieces, heldAs, List.map_map, List.map_map] at hheld
    refine Eq.trans (List.map_congr_left fun a _ => ?_) hheld
    rw [Function.comp, Option.map_map]
    rfl
  obtain ⟨hkeeps, hstill, hhands⟩ :=
    assignFrom_hands (P := P) xs hs hv rfl (htask ▸ ht) hrest
    (List.nodup_cons.mp h.list.nodup).2 hfor hassign
  exact ⟨hstill, hkeeps, hhands⟩

/-- What `initJob` sends: pieces of the new job, to members of its group. -/
theorem initJob_hands {groupId jobId taskType system : Int} {inputFile : Bytes}
    {started : Bool} (hr : initJob supply s groupId jobId taskType inputFile system
      = .ok (started, s')) :
    ((groupId ≤ 0 ∨ jobId < 0) ∧ s' = s) ∨
      ¬ (groupId ≤ 0 ∨ jobId < 0) ∧ ∃ j tasks ds, s'.pTail = some j ∧
        s.jobs.cell j = none ∧
        (∀ a v, s.tasks.cell a = some v → tasks.cell a = some v) ∧
        (∃ u a t, s'.jobs.cell j = some u ∧ u.job.task = some a ∧
          tasks.cell a = some t ∧
          t.taskType = taskType) ∧
        Keeps (fun c k => k = j ∧ c ∈ s.reg.clientsIn groupId.toNat) { s with
          tasks := tasks } s' ∧
        Hands s s' j ds ∧ ∀ d ∈ ds, d.client ∈ s.reg.clientsIn groupId.toNat := by
  rcases initJob_cases hr with ⟨hbad, -, rfl⟩ | ⟨task, tasks, j, s₁, s₂, v,
    hinit, hcases⟩
  · exact Or.inl ⟨hbad, rfl⟩
  refine Or.inr ⟨hinit.valid, j, tasks, ?_⟩
  obtain ⟨k, m, stop, r, hk, hfresh, hbuilt₁, hkeeps₁, hreg₁, hsent₁, htail₁, u,
      hu, htask⟩ :=
    addJob_built hinit.added
  cases hk
  obtain ⟨cgh, hgid, hreserve⟩ := hinit.reserved
  obtain ⟨xs, stop', hs, hbuilt, hstop, hwalked, hkeeps₂, hsilent⟩ :=
    hbuilt₁.reserve hreserve
  have hmembers : s₁.reg.walked s₁.reg.groups.next (s₁.reg.multicastGroups cgh).h
      = s.reg.clientsIn groupId.toNat := by
    rw [clientsIn_eq hgid, hreg₁]
  rw [hmembers] at hwalked hkeeps₂
  have hkeeps := (hkeeps₁.mono fun _ _ hno => hno.elim).trans hkeeps₂
  have hsent₂ : s₂.sent = s.sent := hsilent.sent.trans hsent₁
  have htail₂ : s₂.pTail = some j := hsilent.pTail.trans htail₁
  obtain ⟨w, hw, hwj⟩ := hbuilt.job
  cases hinit.job.symm.trans hw
  -- the job has still the task that was stored with it
  obtain ⟨w', hw', -, htask'⟩ := hkeeps₂.jobs j u hu
  cases hw.symm.trans hw'
  obtain ⟨a, t, ha, hstored, htype⟩ := hinit.stored
  have hkept := hinit.kept
  have hjob : v.job.task = some a := htask'.trans (htask.trans ha)
  have hnew : ∃ u a t, s₂.jobs.cell j = some u ∧ u.job.task = some a ∧
      tasks.cell a = some t ∧
      t.taskType = taskType := ⟨v, a, t, hw, hjob, hstored, htype⟩
  rcases hcases with ⟨-, -, rfl⟩ | ⟨hzero, commands, hcases⟩
  · exact ⟨[], htail₂, hfresh, hkept, hnew, hkeeps, Hands.nothing hsent₂, fun d hd =>
      absurd hd List.not_mem_nil⟩
  have hdivided : Keeps (fun c k => k = j ∧ c ∈ s.reg.clientsIn groupId.toNat) s₂
      { s₂ with commands := commands } := Keeps.of_eq rfl rfl rfl rfl
  rcases hcases with ⟨-, -, rfl⟩ | hassign
  · exact ⟨[], htail₂, hfresh, hkept, hnew, hkeeps.trans hdivided,
      Hands.nothing hsent₂, fun d hd =>
      absurd hd List.not_mem_nil⟩
  have hne : hs ≠ [] := by
    rintro rfl
    exact hzero hwj.count
  have hbuilt₃ : Built { s₂ with commands := commands } j m xs stop' ⟨jobId, r,
      [] ++ hs⟩ :=
    hbuilt.of_eq rfl rfl
  obtain ⟨hstill, hkeeps₄, hhands⟩ := hbuilt₃.assign
    (P := fun c k => k = j ∧ c ∈ s.reg.clientsIn groupId.toNat)
    (hstop (Or.inl hne)) hw
    (htask'.trans htask) hassign
  obtain ⟨v', hv', -, htask₄⟩ := hkeeps₄.jobs j v hw
  refine ⟨reindex 0 hs, hstill.pTail.trans htail₂, hfresh, hkept,
    ⟨v', a, t, hv', htask₄.trans hjob, hstored, htype⟩,
    (hkeeps.trans hdivided).trans hkeeps₄, hhands.before hsent₂, fun d hd => ?_⟩
  have hdc := List.mem_map_of_mem (f := Holder.client) hd
  rw [reindex_clients] at hdc
  obtain ⟨x, hx, hxd⟩ := List.mem_map.mp hdc
  exact hxd ▸ hwalked x hx

/-- Nobody is reserved in a group in which nobody is idle. -/
theorem reserveClients_nobody {j fuel : Nat} {p : Ptr}
    (hidle : idleMember s.reg fuel p = .ok none)
    (hr : reserveClients supply j fuel p s = .ok s') : s' = s := by
  replace hr := reserveClients_rounds hr
  induction hr with
  | done fuel => rfl
  | busy hv hc hcell hbusy _ ih =>
      rw [idleMember, Heap.load_some hv, ok_bind, hc, Heap.load_some hcell, ok_bind,
        if_pos hbusy] at hidle
      exact ih hidle
  | idle hv hc hcell hbusy _ _ _ _ _ =>
      rw [idleMember, Heap.load_some hv, ok_bind, hc, Heap.load_some hcell, ok_bind,
        if_neg (by simp [hbusy])] at hidle
      cases hidle

theorem initJob_nobody {groupId jobId taskType system : Int} {inputFile : Bytes}
    {started : Bool} (hnobody : s.idleIn groupId.toNat = .ok none)
    (hr : initJob supply s groupId jobId taskType inputFile system
      = .ok (started, s')) :
    ∃ tasks, (∀ a v, s.tasks.cell a = some v → tasks.cell a = some v) ∧
      Keeps (fun _ _ => False) { s with tasks := tasks } s' := by
  rcases initJob_cases hr with ⟨-, -, rfl⟩ | ⟨task, tasks, j, s₁, s₂, v,
    hinit, hcases⟩
  · exact ⟨s'.tasks, fun a v hv => hv, Keeps.of_eq rfl rfl rfl rfl⟩
  refine ⟨tasks, hinit.kept, ?_⟩
  obtain ⟨k, m, stop, r, hk, -, hbuilt, hkeeps, hreg, -⟩ := addJob_built hinit.added
  cases hk
  obtain ⟨cgh, hgid, hreserve⟩ := hinit.reserved
  have hidle : idleMember s₁.reg s₁.reg.groups.next (s₁.reg.multicastGroups cgh).h
      = .ok none := by
    rw [Server.idleIn, hgid] at hnobody
    rw [hreg]
    exact hnobody
  have hsame : s₂ = s₁ := reserveClients_nobody hidle hreserve
  obtain ⟨w, hw, hwj⟩ := hbuilt.job
  have hcell := hinit.job
  rw [hsame] at hcell
  cases hcell.symm.trans hw
  rcases hcases with ⟨-, -, rfl⟩ | ⟨hcount, -⟩
  · rw [hsame]
    exact hkeeps
  · exact absurd hwj.count hcount

end Submitting

/-! ## Errors and results -/

section Handling
variable {supply : JobSupply} {P : Nat → Nat → Prop} {s s' : Server}

theorem queuePiece_keeps {j old : Nat} (hr : queuePiece s j old = .ok s') :
    Keeps P s s' ∧ s'.sent = s.sent := by
  obtain ⟨v, -, hr⟩ := bind_ok.mp hr
  obtain ⟨nodes, -, hr⟩ := bind_ok.mp hr
  obtain ⟨nodes', -, hr⟩ := bind_ok.mp hr
  obtain ⟨s₁, henqueue, hr⟩ := bind_ok.mp hr
  obtain ⟨jobs, hjobs, hr⟩ := bind_ok.mp hr
  cases hr
  obtain ⟨w, nodes'', -, -, hs₁⟩ := enqueuePendingJob_ok henqueue
  have hqueued : Keeps P s s₁ :=
    Keeps.of_eq (by rw [hs₁]) (by rw [hs₁]) (by rw [hs₁]) (by rw [hs₁])
  exact ⟨hqueued.trans (Keeps.setJob hjobs fun v => ⟨rfl, rfl⟩), by rw [hs₁]⟩

/-- What `reassign_job` does with the piece of the client at `c`: it goes to an
idle member of the group that `c` joined last, and to the queue if all are busy. -/
theorem reassignJob_hands {cfd : Int} (hr : reassignJob supply s cfd = .ok s') :
    s' = s ∨ ∃ c j gid, s.assigned cfd = some (c, j) ∧
      getClientNode s j c ≠ .ok none ∧
      s.reg.lastJoined c = some gid ∧
      (((∀ d ∈ s.reg.clientsIn gid, ∃ v, s.reg.infos.cell d = some v ∧
          v.busy = true) ∧
          Keeps (fun _ _ => False) s s' ∧ Hands s s' j []) ∨
        ∃ w i, w ∈ s.reg.clientsIn gid ∧ Keeps (fun d k => k = j ∧ d = w) s s' ∧
          Still s s' ∧
          Hands s s' j [⟨w, i⟩]) := by
  rcases reassignJob_cases hr with ⟨rfl, -⟩ | ⟨c, j, old, idle, hold, hcases⟩
  · exact Or.inl rfl
  obtain ⟨ci, cg, cgh, hcell, -, hcg, hgid, hidle⟩ := hold.walk
  have hlast : s.reg.lastJoined c = some cg.gid := by
    obtain ⟨a, ha, hag⟩ := Heap.load_ok.mp hcg
    rw [Registry.lastJoined, hcell, Option.bind_some, ha, Option.bind_some, hag]
    rfl
  refine Or.inr ⟨c, j, cg.gid, hold.assigned, fun heq => ?_, hlast, ?_⟩
  · cases hold.node.symm.trans heq
  rw [clientsIn_eq hgid]
  rcases hcases with ⟨rfl, hqueue⟩ | ⟨w, rfl, hmove⟩
  · rcases idleMember_cases hidle with ⟨-, hall⟩ | ⟨w, v, hw, -⟩
    · obtain ⟨hkeeps, hsent⟩ := queuePiece_keeps hqueue
      exact Or.inl ⟨hall, hkeeps, Hands.nothing hsent⟩
    · cases hw
  · rcases idleMember_cases hidle with ⟨hw, -⟩ | ⟨u, v, hu, hmem, -⟩
    · cases hw
    · cases hu
      obtain ⟨v, hv, -⟩ := getClientNode_found hold.node
      obtain ⟨hkeeps, hstill, hhands⟩ :=
        movePiece_hands (P := fun d k => k = j ∧ d = w) hv ⟨rfl, rfl⟩ hmove
      exact Or.inr ⟨w, v.index, hmem, hkeeps, hstill, hhands⟩

theorem dequeuePendingJob_keeps {j : Nat} {cn : Ptr}
    (hr : dequeuePendingJob s j = .ok (cn, s')) :
    Keeps P s s' ∧ s'.sent = s.sent := by
  have hnothing : ∀ {p : Ptr}, Except.ok (p, s) = Except.ok (ε := Halt) (cn, s') →
      Keeps P s s' ∧ s'.sent = s.sent := by
    intro p hp
    cases hp
    exact ⟨Keeps.of_eq rfl rfl rfl rfl, rfl⟩
  rw [dequeuePendingJob] at hr
  split at hr
  · exact hnothing hr
  · obtain ⟨v, -, hr⟩ := bind_ok.mp hr
    obtain ⟨cur, -, hr⟩ := bind_ok.mp hr
    cases cur with
    | none => exact hnothing hr
    | some a =>
        obtain ⟨w, -, hr⟩ := bind_ok.mp hr
        obtain ⟨nodes, -, hr⟩ := bind_ok.mp hr
        cases hr
        exact ⟨Keeps.of_eq rfl rfl rfl rfl, rfl⟩

/-- What `update_job_result` sends goes to the client whose result it is. -/
theorem updateJobResult_hands {cfd : Int} {value : Bytes} {p : Bool}
    (hr : updateJobResult s cfd value = .ok (p, s')) :
    s' = s ∨ ∃ c j ds, s.assigned cfd = some (c, j) ∧ Keeps P s s' ∧
      Hands s s' j ds ∧
      ∀ d ∈ ds, d.client = c := by
  rcases updateJobResult_cases hr with
    ⟨rfl, -⟩ | ⟨c, j, s₁, jobs, s₂, cn, s₃, hassigned, -, hlock, hjobs, hunlock,
      hdequeue, hcases⟩
  · exact Or.inl rfl
  obtain ⟨hkeeps₁, hsilent₁⟩ := lockMutex_keeps (P := P) hlock
  have hmax : Keeps P s₁ { s₁ with jobs := jobs } := Keeps.setJob hjobs fun v => by
    rw [keepMax_eq]
    exact ⟨rfl, rfl⟩
  obtain ⟨hkeeps₂, hsilent₂⟩ := unlockMutex_keeps (P := P) hunlock
  obtain ⟨hkeeps₃, hsent₃⟩ := dequeuePendingJob_keeps (P := P) hdequeue
  have hkeeps := ((hkeeps₁.trans hmax).trans hkeeps₂).trans hkeeps₃
  have hsent : s₃.sent = s.sent := hsent₃.trans (hsilent₂.sent.trans hsilent₁.sent)
  have hnone : ∀ d ∈ ([] : List Holder), d.client = c :=
    fun d hd => absurd hd List.not_mem_nil
  refine Or.inr ⟨c, j, ?_⟩
  rcases hcases with ⟨a, q, -, hassign⟩ | ⟨v, -, -, hfree⟩
  · obtain ⟨hkeeps₄, hcases⟩ := assignPendingJob_hands (P := P) hassign
    rcases hcases with ⟨-, hhands⟩ | ⟨v, -, hhands⟩
    · exact ⟨[], hassigned, hkeeps.trans hkeeps₄, hhands.before hsent, hnone⟩
    · refine ⟨[⟨c, v.index⟩], hassigned, hkeeps.trans hkeeps₄, hhands.before hsent,
        fun d hd => ?_⟩
      rw [List.mem_singleton.mp hd]
  · obtain ⟨hkeeps₄, hsilent₄⟩ := freeClient_keeps (P := P) hfree
    exact ⟨[], hassigned, hkeeps.trans hkeeps₄,
      Hands.nothing (hsilent₄.sent.trans hsent), hnone⟩

end Handling

end Pyramid
