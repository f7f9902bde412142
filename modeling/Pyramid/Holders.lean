/-
# `Pyramid.Holders` — a piece is sent to the client that holds it

`Deliveries` says which pieces are sent, and the board who holds them.  Here the
two are put together: whoever is told where a piece is has a `ClientNode` with
its index in the list of the job when the event is over.
-/
import Pyramid.Confined
import Pyramid.Worlds
import Pyramid.Display

namespace Pyramid

/-- `d` is in the list of a job that is in the list of jobs. -/
def Server.HasHolder (s : Server) (j : Nat) (d : Holder) : Prop :=
  j ∈ s.jobList ∧ (some d.client, d.index) ∈ s.held j

/-- What is sent between `s` and `s'` is sent to holders in `s'`. -/
def Server.Hears (s s' : Server) : Prop :=
  ∃ fs, s'.sent = s.sent ++ fs ∧
    ∀ f ∈ fs, ∃ j d, s.Tells s' f j d.client d.index ∧ s'.HasHolder j d

section Pieces
variable {supply : JobSupply} {s s' : Server} {b : Board} {g : Layout}

theorem Shows.hasHolder (h : Shows s b g) {j : Nat} {id r : Int} {hs : List Holder}
    {d : Holder} (hj : j ∈ b.order) (hview : b.job j = ⟨id, r, hs⟩) (hd : d ∈ hs) :
    s.HasHolder j d := by
  constructor
  · rw [h.jobList_eq]
    exact hj
  · rw [h.held_eq hj, hview]
    exact List.mem_map_of_mem hd

theorem World.OnBoard.heldBy {w : World} (hb : w.OnBoard b) {j : Nat} {d : Holder}
    (hd : w.server.HasHolder j d) : w.server.heldBy j d.client = some d.index := by
  obtain ⟨g, hg⟩ := hb.server
  obtain ⟨hj, hmem⟩ := hd
  rw [hg.jobList_eq] at hj
  rw [hg.held_eq hj] at hmem
  obtain ⟨x, hx, heq⟩ := List.mem_map.mp hmem
  obtain ⟨hclient, hindex⟩ := Prod.mk.inj heq
  obtain ⟨pre, post, hsplit⟩ := List.append_of_mem hx
  rw [← Option.some.inj hclient, ← hindex]
  exact hg.heldBy_eq_some hb.ok hj hsplit

theorem Server.Hears.nothing (h : s'.sent = s.sent) : s.Hears s' :=
  ⟨[], by rw [h, List.append_nil], fun f hf => absurd hf List.not_mem_nil⟩

theorem Hands.hears {P : Nat → Nat → Prop} {s₀ : Server} {j : Nat} {ds : List Holder}
    (hhands : Hands s s' j ds) (hk : Keeps P s₀ s') (hreg : s₀.reg = s.reg)
    (hheld : ∀ d ∈ ds, s'.HasHolder j d) : s.Hears s' := by
  obtain ⟨fss, hfss, hsent⟩ := id hhands
  refine ⟨fss.flatten, hsent, fun f hf => ?_⟩
  have hnew : f ∈ s'.sent.drop s.sent.length := by
    rw [hsent, List.drop_left]
    exact hf
  obtain ⟨d, hd, htells⟩ := Placed.tells hk hreg hhands hnew
  exact ⟨j, d, htells, hheld d hd⟩

theorem Shows.built (h : Shows s b g) {j : Nat} {view : JobView} (hj : j ∈ b.order)
    (hview : b.job j = view) :
    Built s j (g.sentinel j) (g.nodes j) (g.stop j) view := by
  rw [← hview]
  exact ⟨h.jobs.job j hj, h.nodes.clients j hj⟩

theorem initJob_hears (h : Shows s b g) (hok : b.Ok)
    {groupId jobId taskType system : Int} {inputFile : Bytes} {started : Bool}
    (hr : initJob supply s groupId jobId taskType inputFile system
      = .ok (started, s')) :
    s.Hears s' := by
  rcases initJob_cases hr with ⟨-, -, rfl⟩ | ⟨task, tasks, j, s₁, s₂, v,
    hinit, hcases⟩
  · exact Server.Hears.nothing rfl
  have h₀ : Shows { s with tasks := tasks } b g :=
    h.of_eq rfl rfl rfl rfl rfl rfl rfl
  obtain ⟨m, x, hm, -, -, -, hreg₁, g₁, h₁⟩ := h₀.addJob hok hinit.added
  cases hm
  obtain ⟨k, m, stop, r, hk, -, hbuilt, hkeeps₁, -, hsent₁, -, u, hu, htask⟩ :=
    addJob_built hinit.added
  cases hk
  obtain ⟨cgh, -, hreserve⟩ := hinit.reserved
  have hmem : j ∈ b.order ++ [j] :=
    List.mem_append_right _ (List.mem_singleton_self j)
  obtain ⟨hs, g₂, -, -, -, -, hstop, h₂⟩ :=
    Shows.reserveClients h₁ hmem (put_self _ _ _) hreserve
  obtain ⟨xs, stop', hs', -, -, -, hkeeps₂, hsilent⟩ := hbuilt.reserve hreserve
  have hsent₂ : s₂.sent = s.sent := hsilent.sent.trans hsent₁
  rcases hcases with ⟨-, -, rfl⟩ | ⟨hzero, commands, ⟨-, -, rfl⟩ | hassign⟩
  · exact Server.Hears.nothing hsent₂
  · exact Server.Hears.nothing hsent₂
  -- the job has still the task that was stored with it
  obtain ⟨v', hv', -, htask'⟩ := hkeeps₂.jobs j u hu
  cases hinit.job.symm.trans hv'
  have h₃ : Shows { s₂ with commands := commands } _ g₂ :=
    h₂.of_eq rfl rfl rfl rfl rfl rfl rfl
  have hbuilt₃ := h₃.built hmem (put_self _ _ _)
  obtain ⟨w, hw, hwj⟩ := hbuilt₃.job
  cases hinit.job.symm.trans hw
  have hne : hs ≠ [] := by
    rintro rfl
    exact hzero hwj.count
  obtain ⟨-, hkeeps₄, hhands⟩ :=
    hbuilt₃.assign (P := fun _ _ => True) (hstop (Or.inl hne)) hinit.job
    (htask'.trans htask) hassign
  obtain ⟨-, -, h₄⟩ :=
    h₃.assignJob hmem (put_self _ _ _) (hstop (Or.inl hne)) hassign
  have hbefore : Keeps (fun _ _ => True) { s with tasks := tasks } { s₂ with
      commands := commands } :=
    (hkeeps₁.mono fun _ _ hno => hno.elim).trans
      ((hkeeps₂.mono fun _ _ _ => trivial).trans (Keeps.of_eq rfl rfl rfl rfl))
  exact (hhands.before hsent₂).hears (hbefore.trans hkeeps₄) rfl fun d hd =>
    h₄.hasHolder hmem (put_self _ _ _) hd

theorem reassignJob_hears (h : Shows s b g) (hok : b.Ok) {cfd : Int}
    (hr : reassignJob supply s cfd = .ok s') : s.Hears s' := by
  rcases reassignJob_cases hr with
    ⟨rfl, -⟩ | ⟨c, j, old, idle, hold, ⟨-, hqueue⟩ | ⟨w, rfl, hmove⟩⟩
  · exact Server.Hears.nothing rfl
  · exact Server.Hears.nothing (queuePiece_keeps (P := fun _ _ => True) hqueue).2
  obtain ⟨hj, -, pre, post, v, hpre, hpost, hnodes, hv, hhs, -, -, hlen⟩ :=
    h.holding hok hold
  obtain ⟨jn, hseat⟩ := h.idle_seat hold
  obtain ⟨-, g', hshow⟩ := h.movePiece hok hj rfl hnodes hhs hlen hseat hmove
  obtain ⟨hkeeps, -, hhands⟩ :=
    movePiece_hands (P := fun _ _ => True) hv trivial hmove
  exact hhands.hears hkeeps rfl fun d hd =>
    hshow.hasHolder hj (put_self _ _ _) (List.mem_append_right _ hd)

theorem updateJobResult_hears (h : Shows s b g) (hok : b.Ok) {cfd : Int}
    {value : Bytes} {p : Bool} (hr : updateJobResult s cfd value = .ok (p, s')) :
    s.Hears s' := by
  rcases updateJobResult_cases hr with
    ⟨rfl, -⟩ | ⟨c, j, s₁, jobs, s₂, cn, s₃, hassigned, ⟨ci, hcell, hjn⟩, hlock,
      hjobs, hunlock, hdequeue, hcases⟩
  · exact Server.Hears.nothing rfl
  obtain ⟨hkeeps₁, hsilent₁⟩ := lockMutex_keeps (P := fun _ _ => True) hlock
  have hmax : Keeps (fun _ _ => True) s₁ { s₁ with jobs := jobs } :=
    Keeps.setJob hjobs fun v => by
    rw [keepMax_eq]
    exact ⟨rfl, rfl⟩
  obtain ⟨hkeeps₂, hsilent₂⟩ := unlockMutex_keeps (P := fun _ _ => True) hunlock
  obtain ⟨hkeeps₃, hsent₃⟩ := dequeuePendingJob_keeps (P := fun _ _ => True) hdequeue
  have hkeeps := ((hkeeps₁.trans hmax).trans hkeeps₂).trans hkeeps₃
  have hsent : s₃.sent = s.sent := hsent₃.trans (hsilent₂.sent.trans hsilent₁.sent)
  rcases hcases with ⟨a, q, rfl, hassign⟩ | ⟨v, -, -, hfree⟩
  · have hseat := h.seat_of_cell hcell
    have hj : j ∈ b.order := hok.known c _ j hseat hjn
    have hstop : g.stop j = none := h.stops c _ j hseat hjn
    obtain ⟨-, h₂⟩ := h.merge hj rfl hlock hjobs hunlock
    rcases h₂.dequeue hj (put_self _ _ _) hdequeue with
      ⟨hnone, -⟩ | ⟨d, v, wpre, wpost, hd, -, -, -, xs, h₃, hloose⟩
    · cases hnone
    cases hd
    obtain ⟨-, hcases⟩ := h₃.assignPending hj (put_self _ _ _) hstop
      ⟨hloose.cell, hloose.list, hloose.queue⟩ hassign
    rcases hcases with ⟨rfl, -⟩ | ⟨i, pre, post, -, hshow⟩
    · exact Server.Hears.nothing hsent
    obtain ⟨hkeeps₄, ⟨-, hhands⟩ | ⟨u, hu, hhands⟩⟩ :=
      assignPendingJob_hands (P := fun _ _ => True) hassign
    · exact (hhands.before hsent).hears (hkeeps.trans hkeeps₄) rfl fun d hd =>
        absurd hd List.not_mem_nil
    cases hu.symm.trans hloose.cell
    refine (hhands.before hsent).hears (hkeeps.trans hkeeps₄) rfl fun d hd =>
      hshow.hasHolder hj (put_self _ _ _) ?_
    rw [List.mem_singleton.mp hd]
    exact List.mem_append_right _ List.mem_cons_self
  · exact Server.Hears.nothing
      ((freeClient_keeps (P := fun _ _ => True) hfree).2.sent.trans hsent)

end Pieces

/-- An event of a world on the board sends pieces to holders, and nothing else. -/
theorem World.OnBoard.hears {supply : JobSupply} {w w' : World} {b : Board}
    {e : Event} (hb : w.OnBoard b) (hstep : w.step supply e = .ok w') :
    w.server.Hears w'.server := by
  obtain ⟨g, hg⟩ := hb.server
  cases e with
  | join cfd sa gids =>
      obtain ⟨⟨p, reg⟩, -, hstep⟩ := bind_ok.mp hstep
      cases hstep
      exact Server.Hears.nothing rfl
  | submit groupId jobId taskType inputFile system =>
      obtain ⟨⟨started, s'⟩, hinit, hstep⟩ := bind_ok.mp hstep
      cases hstep
      exact initJob_hears hg hb.ok hinit
  | result cfd value =>
      obtain ⟨⟨p, s'⟩, hresult, hstep⟩ := bind_ok.mp hstep
      cases hstep
      exact updateJobResult_hears hg hb.ok hresult
  | error cfd =>
      obtain ⟨s', hreassign, hstep⟩ := bind_ok.mp hstep
      cases hstep
      exact reassignJob_hears hg hb.ok hreassign
  | disconnect cfd =>
      obtain ⟨s', hreassign, hstep⟩ := bind_ok.mp hstep
      obtain ⟨⟨p, reg⟩, -, hstep⟩ := bind_ok.mp hstep
      cases hstep
      have hhears : w.server.Hears s' := reassignJob_hears hg hb.ok hreassign
      exact hhears

/-! ## What is given to clients is no reply -/

/-- The numbers under which a CLI is answered. -/
def IsReply (type : Int) : Prop := type = cliData ∨ type = Attribute.goodBye.code

instance (type : Int) : Decidable (IsReply type) :=
  inferInstanceAs (Decidable (_ ∨ _))

/-- The task of the job at `j` does not have such a number. -/
def Server.Works (s : Server) (j : Nat) : Prop :=
  ∃ u a t, s.jobs.cell j = some u ∧ u.job.task = some a ∧ s.tasks.cell a = some t ∧
    ¬ IsReply t.taskType

/-- Nobody was ever given a job whose task has. -/
def Server.Given (s : Server) : Prop :=
  ∀ c v j, s.reg.infos.cell c = some v → v.jn = some j → s.Works j

section Given
variable {supply : JobSupply} {s s' : Server} {b : Board} {g : Layout}

theorem Server.Works.keeps {P : Nat → Nat → Prop} {j : Nat} (h : s.Works j)
    (hk : Keeps P s s') :
    s'.Works j := by
  obtain ⟨u, a, t, hu, ha, ht, hwork⟩ := h
  obtain ⟨u', hu', -, htask⟩ := hk.jobs j u hu
  exact ⟨u', a, t, hu', htask.trans ha, hk.tasks ▸ ht, hwork⟩

theorem Server.Given.keeps (h : s.Given) (hk : Keeps (fun _ j => s.Works j) s s') :
    s'.Given := by
  intro c v' j hv' hj
  obtain ⟨v, hv, hcases⟩ := hk.given c v' hv'
  rcases hcases with heq | ⟨k, hk', hworks⟩
  · exact (h c v j hv (heq ▸ hj)).keeps hk
  · cases hj.symm.trans hk'
    exact hworks.keeps hk

/-- More tasks are stored. -/
theorem Server.Given.store (h : s.Given) {tasks : Heap Task}
    (hkept : ∀ a v, s.tasks.cell a = some v → tasks.cell a = some v) :
    ({ s with tasks := tasks } : Server).Given := by
  intro c v j hv hj
  obtain ⟨u, a, t, hu, ha, ht, hwork⟩ := h c v j hv hj
  exact ⟨u, a, t, hu, ha, hkept a t ht, hwork⟩

/-- The clients are others, but none was given anything that
none was given before. -/
theorem Server.Given.seats (h : s.Given) (hg : Shows s b g) {reg : Registry}
    {b' : Board} {g' : Layout} (hg' : Shows { s with reg := reg } b' g')
    (hseat : ∀ c st j, b'.seat c = some st → st.jn = some j → b.seat c = some st) :
    ({ s with reg := reg } : Server).Given := by
  intro c v j hv hj
  have hold := hseat c _ j (hg'.seat_of_cell hv) hj
  obtain ⟨v₀, hv₀, -, hjn⟩ := hg.cell_of_seat hold
  exact h c v₀ j hv₀ (hjn.trans hj)

theorem Server.Given.leave (h : s.Given) (hreg : s.reg.WellFormed) {cfd : Int}
    {p : Bool} {reg : Registry}
    (hr : serverDelOneClientFd s.reg (some (serverGetClientInfoHead cfd)) cfd
      = .ok (p, reg)) :
    ({ s with reg := reg } : Server).Given := by
  obtain ⟨member, chain, bucket, hok⟩ := hreg
  rcases serverDelOneClientFd_spec hok cfd with
    ⟨hrun, -⟩ | ⟨reg', a, v, hrun, hremoved⟩
  · cases hr.symm.trans hrun
    exact h
  · cases hr.symm.trans hrun
    intro c w j hw hj
    have hc : c ≠ a := by
      rintro rfl
      cases hremoved.gone.symm.trans hw
    obtain ⟨u, hu, hsame⟩ := (KeepsInfos.symm hremoved.others).cell hc hw
    obtain ⟨-, -, -, -, hjn⟩ := ClientInfo.of_unlinked hsame
    exact h c u j hu (hjn.trans hj)

theorem Server.Given.reassign (h : s.Given) {cfd : Int}
    (hr : reassignJob supply s cfd = .ok s') :
    s'.Given := by
  rcases reassignJob_hands hr with rfl | ⟨c, j, gid, hassigned, -, -, hcases⟩
  · exact h
  obtain ⟨v, hv, hjn⟩ := Server.assigned_cell hassigned
  rcases hcases with ⟨-, hkeeps, -⟩ | ⟨w, i, -, hkeeps, -⟩
  · exact h.keeps (hkeeps.mono fun _ _ hno => hno.elim)
  · refine h.keeps (hkeeps.mono ?_)
    rintro d k ⟨rfl, -⟩
    exact h c v k hv hjn

/-- Whoever submits a job gives it a number of its own, or nobody is there to be
given the job. -/
theorem Server.Given.submit (h : s.Given) {groupId jobId taskType system : Int}
    {inputFile : Bytes} {started : Bool}
    (hk : IsReply taskType → groupId ≤ 0 ∨ jobId < 0
      ∨ s.idleIn groupId.toNat = .ok none)
    (hr : initJob supply s groupId jobId taskType inputFile system
      = .ok (started, s')) : s'.Given := by
  rcases initJob_hands hr with ⟨-, rfl⟩ | ⟨hvalid, j, tasks, ds, -, -, hkept,
    hnew, hkeeps, -⟩
  · exact h
  by_cases hreply : IsReply taskType
  · have hnobody : s.idleIn groupId.toNat = .ok none := by
      rcases hk hreply with hgroup | hjob | hnobody
      · exact absurd (Or.inl hgroup) hvalid
      · exact absurd (Or.inr hjob) hvalid
      · exact hnobody
    obtain ⟨tasks', hkept', hkeeps'⟩ := initJob_nobody hnobody hr
    exact (h.store hkept').keeps (hkeeps'.mono fun _ _ hno => hno.elim)
  · obtain ⟨u, a, t, hu, ha, ht, htype⟩ := hnew
    have hworks : s'.Works j := ⟨u, a, t, hu, ha, hkeeps.tasks ▸ ht, htype ▸ hreply⟩
    intro c v' k hv' hj
    obtain ⟨v, hv, hcases⟩ := hkeeps.given c v' hv'
    rcases hcases with heq | ⟨i, hi, rfl, -⟩
    · exact (h.store hkept c v k hv (heq ▸ hj)).keeps hkeeps
    · cases hj.symm.trans hi
      exact hworks

end Given

/-- A job is submitted under the number of a reply, and somebody is idle. -/
def World.Misnames (w : World) : Event → Prop
  | .submit groupId jobId taskType _ _ => IsReply taskType ∧ 0 < groupId ∧
    0 ≤ jobId ∧
      w.server.idleIn groupId.toNat ≠ .ok none
  | _ => False

instance (w : World) : ∀ e, Decidable (w.Misnames e)
  | .submit _ _ _ _ _ => inferInstanceAs (Decidable (_ ∧ _ ∧ _ ∧ _))
  | .join _ _ _ | .result _ _ | .error _ | .disconnect _ =>
      inferInstanceAs (Decidable False)

theorem World.OnBoard.given {supply : JobSupply} {w w' : World} {b : Board}
    {e : Event} (hb : w.OnBoard b) (h : w.server.Given) (hk : ¬ w.Misnames e)
    (hstep : w.step supply e = .ok w') :
    w'.server.Given := by
  obtain ⟨g, hg⟩ := hb.server
  cases e with
  | join cfd sa gids =>
      obtain ⟨⟨p, reg⟩, hadd, hstep⟩ := bind_ok.mp hstep
      cases hstep
      rcases hg.join hadd with hshow | ⟨c, -, hshow⟩
      · exact h.seats hg hshow fun c st j hst _ => hst
      · refine h.seats hg hshow fun d st j hst hj => ?_
        have hseat : put b.seat c (some ⟨false, none⟩) d = some st := hst
        by_cases hd : d = c
        · rw [hd, put_self] at hseat
          cases hseat
          cases hj
        · rwa [put_ne _ hd] at hseat
  | submit groupId jobId taskType inputFile system =>
      obtain ⟨⟨started, s'⟩, hinit, hstep⟩ := bind_ok.mp hstep
      cases hstep
      refine h.submit (fun hreply => ?_) hinit
      by_contra hno
      exact hk ⟨hreply, by omega, by omega, fun hidle => hno (Or.inr (Or.inr hidle))⟩
  | result cfd value =>
      obtain ⟨⟨p, s'⟩, hresult, hstep⟩ := bind_ok.mp hstep
      cases hstep
      rcases updateJobResult_hands (P := fun _ _ => False) hresult with
        rfl | ⟨c, j, ds, -, hkeeps, -⟩
      · exact h
      · exact h.keeps (hkeeps.mono fun _ _ hno => hno.elim)
  | error cfd =>
      obtain ⟨s', hreassign, hstep⟩ := bind_ok.mp hstep
      cases hstep
      exact h.reassign hreassign
  | disconnect cfd =>
      obtain ⟨s', hreassign, hstep⟩ := bind_ok.mp hstep
      obtain ⟨⟨p, reg⟩, hdel, hstep⟩ := bind_ok.mp hstep
      cases hstep
      obtain ⟨hsame, -⟩ := hg.reassignJob hb.ok hreassign
      exact (h.reassign hreassign).leave (hsame.wellFormed hg.registry) hdel

/-- Whoever holds a piece was given its job. -/
theorem World.OnBoard.works {w : World} {b : Board} (hb : w.OnBoard b)
    (h : w.server.Given) {j : Nat} {d : Holder} (hd : w.server.HasHolder j d) :
    w.server.Works j := by
  obtain ⟨g, hg⟩ := hb.server
  obtain ⟨hj, hmem⟩ := hd
  rw [hg.jobList_eq] at hj
  rw [hg.held_eq hj] at hmem
  obtain ⟨x, hx, heq⟩ := List.mem_map.mp hmem
  obtain ⟨v, hv, -, hjn⟩ := hg.cell_of_seat (hb.ok.seated j hj x hx)
  exact h _ v j hv hjn

/-- `f` tells a client about the piece it holds in `s'`, on the
connection it has in `s`. -/
def Server.Serves (s s' : Server) (f : Sent) : Prop :=
  ∃ j c i v, s.Tells s' f j c i ∧ s.reg.infos.cell c = some v ∧ f.fd = v.cfd ∧
    s'.heldBy j c = some i

/-- An event sends pieces to the clients that hold them, and no replies. -/
theorem World.OnBoard.serves {supply : JobSupply} {w w' : World} {b b' : Board}
    {e : Event} (hb : w.OnBoard b) (hb' : w'.OnBoard b') (hgiven : w'.server.Given)
    (hstep : w.step supply e = .ok w') :
    ∃ fs, w'.server.sent = w.server.sent ++ fs ∧
      ∀ f ∈ fs, w.server.Serves w'.server f ∧ ¬ IsReply f.type := by
  obtain ⟨fs, hsent, hhears⟩ := hb.hears hstep
  refine ⟨fs, hsent, fun f hf => ?_⟩
  obtain ⟨j, d, htells, hd⟩ := hhears f hf
  obtain ⟨gs, hgs, hmem⟩ := htells
  obtain ⟨v, u, a, t, hv, hu, ha, ht, hto⟩ := pieceFrames_fd hgs
  obtain ⟨hfd, htyped⟩ := hto f hmem
  refine ⟨⟨j, d.client, d.index, v, ⟨gs, hgs, hmem⟩, hv, hfd, hb'.heldBy hd⟩, ?_⟩
  obtain ⟨u', a', t', hu', ha', ht', hwork⟩ := hb'.works hgiven hd
  cases hu'.symm.trans hu
  cases ha'.symm.trans ha
  cases ht'.symm.trans ht
  rcases htyped with hempty | htype
  · rw [Sent.type, hempty]
    decide
  · rw [htype]
    exact hwork

end Pyramid
