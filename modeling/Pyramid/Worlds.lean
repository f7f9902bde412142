/-
# `Pyramid.Worlds` — a world shows a board, and an event is one of its steps

First what `Server` reads off the lists is found on the board.  Then clients
come and go, and `World.step_simulates` says of every event that returns which
step of the board it is, as long as a job is submitted under an id of its own.
-/
import Pyramid.Simulation

namespace Pyramid

namespace Shows

variable {supply : JobSupply} {s s' : Server} {b : Board} {g : Layout}

/-! ## What is read off the server -/

theorem clientNodes_eq (h : Shows s b g) {j : Nat} (hj : j ∈ b.order) :
    s.clientNodes j = g.nodes j := by
  obtain ⟨v, hv, hvj⟩ := h.jobs.job j hj
  have hclients := h.nodes.clients j hj
  obtain ⟨-, u, -, -, hrest⟩ := hclients.seg
  obtain ⟨hhead, hnd⟩ := List.nodup_cons.mp hclients.nodup
  have htrail :=
    hrest.trail_back (fun a ha heq => hhead (by cases heq; exact ha))
      (hrest.length_le hnd)
  simp only [Server.clientNodes, hv, hvj.first, hvj.last]
  exact (congrArg List.reverse htrail).trans (List.reverse_reverse _)

/-- The holders of the job at `j`, read off its list. -/
theorem held_eq (h : Shows s b g) {j : Nat} (hj : j ∈ b.order) :
    s.held j = (b.job j).holders.map fun x => (some x.client, x.index) := by
  have hheld :=
    congrArg (List.filterMap fun o : Option (Ptr × Int × Int) => o.map fun p =>
      (p.1, p.2.1))
    (h.nodes.clients j hj).held
  rw [pieces, heldAs, List.filterMap_map, List.filterMap_map] at hheld
  rw [Server.held, h.clientNodes_eq hj, ← List.filterMap_eq_map]
  refine Eq.trans ?_ hheld
  refine List.filterMap_congr fun a _ => ?_
  rw [Function.comp, Option.map_map]
  rfl

theorem held_indexes (h : Shows s b g) {j : Nat} (hj : j ∈ b.order) :
    (s.held j).map (·.2) = (b.job j).holders.map (·.index) := by
  rw [h.held_eq hj, List.map_map]
  rfl

theorem held_clients (h : Shows s b g) {j : Nat} (hj : j ∈ b.order) :
    (s.held j).map (·.1) = (b.job j).holders.map fun x => some x.client := by
  rw [h.held_eq hj, List.map_map]
  rfl

theorem queued_eq (h : Shows s b g) :
    s.queued = b.waiting.map fun w => (w.jid, w.index) := by
  have hqueue := h.nodes.queue
  have htrail := (hqueue.list.path).trail_eq (hqueue.list.length_le hqueue.nodup)
  have hheld :=
    congrArg (List.filterMap fun o : Option (Ptr × Int × Int) => o.map fun p =>
      (p.2.2, p.2.1))
    hqueue.held
  rw [pieces, waitingAs, List.filterMap_map, List.filterMap_map] at hheld
  have hqueued : s.queued = g.queue.filterMap fun a =>
      (s.nodes.cell a).map fun v => (v.jid, v.index) := by
    rw [Server.queued]
    exact congrArg _ htrail
  rw [hqueued, ← List.filterMap_eq_map]
  refine Eq.trans ?_ hheld
  refine List.filterMap_congr fun a _ => ?_
  rw [Function.comp, Option.map_map]
  rfl

theorem waitingFor_eq (h : Shows s b g) {j : Nat} (hj : j ∈ b.order) :
    s.waitingFor j = b.pending j := by
  obtain ⟨v, hv, hvj⟩ := h.jobs.job j hj
  simp only [Server.waitingFor, hv, h.queued_eq, hvj.id, Board.pending,
    List.filter_map, List.map_map]
  rfl

theorem jobList_eq (h : Shows s b g) : s.jobList = b.order :=
  JobList.jobList_eq h.jobs.list

theorem jobIds_eq (h : Shows s b g) :
    s.jobIds = b.order.map fun j => (b.job j).id := by
  rw [Server.jobIds, h.jobList_eq, ← List.filterMap_eq_map]
  refine List.filterMap_congr fun j hj => ?_
  obtain ⟨v, hv, hvj⟩ := h.jobs.job j hj
  rw [hv, Option.map_some, hvj.id]
  rfl

/-- A client that holds no piece of the job. -/
theorem heldBy_eq_none (h : Shows s b g) {j c : Nat} (hj : j ∈ b.order) :
    s.heldBy j c = none ↔ ∀ x ∈ (b.job j).holders, x.client ≠ c := by
  rw [Server.heldBy, h.held_eq hj, Option.map_eq_none_iff, List.find?_eq_none]
  simp

/-- A client that holds one piece of the job. -/
theorem heldBy_eq_some (h : Shows s b g) (hok : b.Ok) {j c : Nat} {i : Int}
    {pre post : List Holder} (hj : j ∈ b.order)
    (hc : (b.job j).holders = pre ++ ⟨c, i⟩ :: post) : s.heldBy j c = some i := by
  have hpre : ∀ x ∈ pre, x.client ≠ c :=
    fun x hx => hok.client_ne hj hc (List.mem_append_left _ hx)
  have hnone : (pre.map fun x => (some x.client, x.index)).find? (fun p =>
      p.1 == some c) = none := by
    rw [List.find?_eq_none]
    simpa using hpre
  rw [Server.heldBy, h.held_eq hj, hc, List.map_append, List.find?_append, hnone,
    Option.none_or, List.map_cons, List.find?_cons_of_pos (by simp)]
  rfl

/-! ## Clients come and go -/

/-- The table of clients changes at `c` only, as far as jobs are concerned. -/
theorem withClient (h : Shows s b g) {reg : Registry} {c : Nat} {o : Option Seat}
    (hreg : reg.WellFormed) (hothers : KeepsInfos s.reg.infos reg.infos c)
    (hc : (reg.infos.cell c).map ClientInfo.toSeat = o)
    (hstop : ∀ st j, o = some st → st.jn = some j → g.stop j = none) :
    Shows { s with reg := reg } (b.setSeat c o) g := by
  refine ⟨hreg, fun d => ?_, h.jobs, h.nodes, fun d st j hd hj => ?_⟩
  · show put b.seat c o d = (reg.infos.cell d).map ClientInfo.toSeat
    by_cases hdc : d = c
    · rw [hdc, put_self, hc]
    · have hseat := congrArg (Option.map ClientInfo.toSeat) (hothers d hdc)
      rw [Option.map_map, Option.map_map] at hseat
      rw [put_ne _ hdc, h.seat d]
      exact hseat.symm
  · have hd' : put b.seat c o d = some st := hd
    by_cases hdc : d = c
    · rw [hdc, put_self] at hd'
      exact hstop st j hd' hj
    · rw [put_ne _ hdc] at hd'
      exact h.stops d st j hd' hj

theorem join (h : Shows s b g) {cfd : Int} {sa : SockAddr} {gids : List Nat}
    {p : Bool} {reg : Registry}
    (hr : serverAddOneClientFd supply.toSupply s.reg
      (some (serverGetClientInfoHead cfd)) cfd sa gids
      = .ok (p, reg)) :
    Shows { s with reg := reg } b g ∨
      ∃ c, b.seat c = none ∧
      Shows { s with reg := reg } (b.setSeat c (some ⟨false, none⟩)) g := by
  obtain ⟨member, chain, bucket, hok⟩ := id h.registry
  rcases serverAddOneClientFd_spec supply.toSupply hok cfd sa gids with
    ⟨reg', ⟨-, hrun, rfl⟩ | ⟨hrun, ⟨⟨⟨member', hok'⟩, hcell⟩, -⟩ | ⟨ys, v, hadded⟩⟩⟩
  · cases hr.symm.trans hrun
    exact Or.inl h
  · cases hr.symm.trans hrun
    refine Or.inl ⟨⟨member', chain, bucket, hok'⟩, fun c => ?_, h.jobs,
      h.nodes, h.stops⟩
    exact (h.seat c).trans (by rw [hcell c])
  · cases hr.symm.trans hrun
    obtain ⟨member', hok'⟩ := hadded.ok
    refine Or.inr ⟨s.reg.infos.next, ?_,
      h.withClient ⟨_, _, _, hok'⟩ hadded.others ?_ fun st j hst hj => ?_⟩
    · rw [h.seat, s.reg.infos.fresh _ (Nat.le_refl _)]
      rfl
    · rw [hadded.cell, Option.map_some, ClientInfo.toSeat, hadded.idle.1,
        hadded.idle.2]
    · cases hst
      cases hj

/-- The first client found for `cfd` is removed. -/
theorem leave (h : Shows s b g) {cfd : Int} {p : Bool} {reg : Registry}
    (hr : serverDelOneClientFd s.reg (some (serverGetClientInfoHead cfd)) cfd
      = .ok (p, reg)) :
    (serverSearchClientFd s.reg (serverGetClientInfoHead cfd) cfd = .ok none ∧
      reg = s.reg) ∨
      ∃ c, serverSearchClientFd s.reg (serverGetClientInfoHead cfd) cfd
        = .ok (some c) ∧
        Shows { s with reg := reg } (b.setSeat c none) g := by
  obtain ⟨member, chain, bucket, hok⟩ := id h.registry
  rcases hok.search (serverGetClientInfoHead cfd) cfd with
    ⟨hsearch, -⟩ | ⟨pre, c, post, v, hsplit, hsearch, hv, hcfd, -⟩
  · simp only [serverDelOneClientFd, hsearch, ok_bind] at hr
    cases hr
    exact Or.inl ⟨hsearch, rfl⟩
  · rcases serverDelOneClientFd_spec hok cfd with
      ⟨-, hnone⟩ | ⟨reg', a, w, hrun, hremoved⟩
    · exact absurd hcfd (hnone c (by rw [← serverGetClientInfoHead, hsplit]; simp)
        v hv)
    · cases hr.symm.trans hrun
      cases hsearch.symm.trans hremoved.found
      obtain ⟨member', hok'⟩ := hremoved.ok
      refine Or.inr ⟨c, hsearch, h.withClient ⟨_, _, _, hok'⟩ hremoved.others ?_
        fun st j hst => (by cases hst)⟩
      rw [hremoved.gone]
      rfl

end Shows

/-! ## Events that go wrong -/

namespace World

/-- No job in the list has the id of the job that is submitted. -/
def FreshId (w : World) : Event → Prop
  | .submit groupId jobId _ _ _ => groupId ≤ 0 ∨ jobId < 0 ∨ jobId ∉ w.server.jobIds
  | _ => True

/-- A value comes in from a client that holds no piece of its job, which was
started, and a piece of the job waits. -/
def LosesPiece (w : World) : Event → Prop
  | .result cfd _ => ∃ p ∈ w.server.assigned cfd, p.2 ∈ w.started.map (·.1) ∧
      w.server.heldBy p.2 p.1 = none ∧ w.server.waitingFor p.2 ≠ []
  | _ => False

/-- A client that holds a piece reports an error, and nobody in its group is idle. -/
def QueuesPiece (w : World) : Event → Prop
  | .error cfd => ∃ p ∈ w.server.assigned cfd,
      w.server.heldBy p.2 p.1 ≠ none ∧ w.server.idleFor p.1 = .ok none
  | _ => False

/-- A job is added that nobody can be reserved for, or that is not divided. -/
def FailsToStart (w : World) : Event → Prop
  | .submit groupId jobId _ _ system => 0 < groupId ∧ 0 ≤ jobId ∧
      (system ≠ 0 ∨ w.server.idleIn groupId.toNat = .ok none)
  | _ => False

instance (w : World) : ∀ e, Decidable (w.FreshId e)
  | .submit _ _ _ _ _ => inferInstanceAs (Decidable (_ ∨ _ ∨ _))
  | .join _ _ _ | .result _ _ | .error _ | .disconnect _ =>
      inferInstanceAs (Decidable True)

instance (w : World) : ∀ e, Decidable (w.LosesPiece e)
  | .result cfd _ => inferInstanceAs
    (Decidable (∃ p ∈ w.server.assigned cfd, _ ∧ _ ∧ _))
  | .join _ _ _ | .submit _ _ _ _ _ | .error _ | .disconnect _ =>
      inferInstanceAs (Decidable False)

instance (w : World) : ∀ e, Decidable (w.QueuesPiece e)
  | .error cfd => inferInstanceAs (Decidable (∃ p ∈ w.server.assigned cfd, _ ∧ _))
  | .join _ _ _ | .submit _ _ _ _ _ | .result _ _ | .disconnect _ =>
      inferInstanceAs (Decidable False)

instance (w : World) : ∀ e, Decidable (w.FailsToStart e)
  | .submit _ _ _ _ _ => inferInstanceAs (Decidable (_ ∧ _ ∧ (_ ∨ _)))
  | .join _ _ _ | .result _ _ | .error _ | .disconnect _ =>
      inferInstanceAs (Decidable False)

end World

/-! ## Events are steps -/

/-- What the memory given to the job at `j` held where its result is. -/
def JobSupply.garbage (supply : JobSupply) (j : Nat) : Int :=
  match supply.job j with
  | none => 0
  | some v => v.job.result

namespace World

/-- The world shows the board `b`. -/
structure OnBoard (w : World) (b : Board) : Prop where
  server : ∃ g, Shows w.server b g
  started : b.started = w.started
  told : b.told = w.told
  ok : b.Ok

variable (supply : JobSupply) {w w' : World} {b b' : Board} {l : Board.Label}
  {e : Event}

/-- The event `e` leads from the board `b` to the next world's by one step, and
the step goes wrong only if the event does. -/
def Follows (w w' : World) (b : Board) (e : Event) : Prop :=
  ∃ l b', Board.Step supply.garbage b l b' ∧ w'.OnBoard b' ∧
    (∀ j, l = .lost j → j ∈ b.started.map (·.1) → w.LosesPiece e) ∧
    (l = .queued → w.QueuesPiece e) ∧ (l = .added false → w.FailsToStart e)

variable {supply}

/-- A step that cannot go wrong. -/
theorem OnBoard.other (h : w.OnBoard b) {s : Server} {g : Layout} {told : List Told}
    (hs : Board.Step supply.garbage b .other b') (hshow : Shows s b' g)
    (hstarted : b'.started = w.started) (htold : b'.told = told) :
    Follows supply w ⟨s, w.started, told⟩ b e :=
  ⟨.other, b', hs, ⟨⟨g, hshow⟩, hstarted, htold, hs.ok h.ok⟩,
    fun _ hl => (by cases hl), fun hl => (by cases hl), fun hl => (by cases hl)⟩

theorem OnBoard.join (h : w.OnBoard b) {cfd : Int} {sa : SockAddr} {gids : List Nat}
    (hstep : w.step supply (.join cfd sa gids) = .ok w') :
    Follows supply w w' b (.join cfd sa gids) := by
  obtain ⟨g, hg⟩ := h.server
  obtain ⟨⟨p, reg⟩, hadd, hstep⟩ := bind_ok.mp hstep
  cases hstep
  rcases hg.join hadd with hshow | ⟨c, hc, hshow⟩
  · exact h.other .stay hshow h.started h.told
  · exact h.other (.join hc) hshow h.started h.told

theorem OnBoard.result (h : w.OnBoard b) {cfd : Int} {value : Bytes}
    (hstep : w.step supply (.result cfd value) = .ok w') :
    Follows supply w w' b (.result cfd value) := by
  obtain ⟨g, hg⟩ := h.server
  obtain ⟨⟨p, s'⟩, hresult, hstep⟩ := bind_ok.mp hstep
  cases hstep
  rcases hg.updateJobResult h.ok hresult with
    ⟨rfl, hnone⟩ | ⟨c, j, g', hassigned, hj, hcases⟩
  · have hheard : w.heard cfd value = w.told := by rw [heard, hnone]
    rw [hheard]
    exact h.other .stay hg h.started h.told
  have hheard : w.heard cfd value = ⟨j, w.server.heldBy j c, atoll value⟩
      :: w.told := by
    rw [heard, hassigned]
  rw [hheard]
  rcases hcases with ⟨i, u, pre, post, wpre, wpost, hc, hw, hshow⟩ | ⟨u, wpre, wpost,
    hc, hw, hshow⟩ |
    ⟨i, pre, post, hc, hw, hshow⟩ | ⟨hc, hw, hshow⟩
  · rw [hg.heldBy_eq_some h.ok hj hc]
    exact h.other (.handed hj hc hw) (hshow.of_board b.started _) h.started
      (by rw [h.told])
  · rw [(hg.heldBy_eq_none hj).mpr hc]
    have hs : Board.Step supply.garbage b (.lost j) _ :=
      .lost (v := atoll value) hj hw
    refine ⟨.lost j, _, hs, ⟨⟨g', hshow.of_board b.started _⟩, h.started,
      by rw [h.told], hs.ok h.ok⟩, fun k hl hk => ?_, fun hl => (by cases hl),
      fun hl => (by cases hl)⟩
    cases hl
    rw [h.started] at hk
    refine ⟨(c, j), hassigned, hk, (hg.heldBy_eq_none hj).mpr hc, ?_⟩
    rw [hg.waitingFor_eq hj, Board.pending, hw]
    simp
  · rw [hg.heldBy_eq_some h.ok hj hc]
    exact h.other (.freed hj hc hw) (hshow.of_board b.started _) h.started
      (by rw [h.told])
  · rw [(hg.heldBy_eq_none hj).mpr hc]
    exact h.other (.stray hj) (hshow.of_board b.started _) h.started (by rw [h.told])

theorem OnBoard.error (h : w.OnBoard b) {cfd : Int}
    (hstep : w.step supply (.error cfd) = .ok w') :
    Follows supply w w' b (.error cfd) := by
  obtain ⟨g, hg⟩ := h.server
  obtain ⟨s', hreassign, hstep⟩ := bind_ok.mp hstep
  cases hstep
  obtain ⟨-, hcases⟩ := hg.reassignJob h.ok hreassign
  rcases hcases with ⟨rfl, -⟩ | ⟨c, j, i, pre, post, g', -, hassigned, hj,
    hc, hcases⟩
  · exact h.other .stay hg h.started h.told
  · rcases hcases with ⟨hidle, hpost, hshow⟩ | ⟨u, jn, hu, hshow⟩
    · have hs : Board.Step supply.garbage b .queued _ := .queued hj hc hpost
      refine ⟨.queued, _, hs, ⟨⟨g', hshow⟩, h.started, h.told, hs.ok h.ok⟩,
        fun _ hl => (by cases hl), fun _ => ⟨(c, j), hassigned, ?_, hidle⟩,
        fun hl => (by cases hl)⟩
      rw [hg.heldBy_eq_some h.ok hj hc]
      intro heq
      cases heq
    · exact h.other (.moved hj hc hu (Or.inr rfl)) hshow h.started h.told

/-- What `reassign_job` does is done before the client is removed. -/
theorem OnBoard.disconnect (h : w.OnBoard b) {cfd : Int}
    (hstep : w.step supply (.disconnect cfd) = .ok w') :
    Follows supply w w' b (.disconnect cfd) := by
  obtain ⟨g, hg⟩ := h.server
  obtain ⟨s', hreassign, hstep⟩ := bind_ok.mp hstep
  obtain ⟨⟨p, reg⟩, hdel, hstep⟩ := bind_ok.mp hstep
  cases hstep
  obtain ⟨hsame, hcases⟩ := hg.reassignJob h.ok hreassign
  have hsearch := hsame.search (serverGetClientInfoHead cfd) cfd
  rcases hcases with ⟨rfl, hnot⟩ | ⟨c, j, i, pre, post, g', hfound, -, hj,
    hc, hcases⟩
  · rcases hg.leave hdel with ⟨-, rfl⟩ | ⟨c, hfound, hshow⟩
    · exact h.other .stay hg h.started h.told
    · exact h.other (.leave (hnot c hfound)) hshow h.started h.told
  -- the client that is removed is the one whose piece was reassigned
  have hclient : ∀ {b' : Board}, Shows s' b' g' →
      Shows { s' with reg := reg } (b'.setSeat c none) g' := by
    intro b' hshow
    rcases hshow.leave hdel with ⟨hnone, -⟩ | ⟨d, hd, hgone⟩
    · rw [hsearch, hfound] at hnone
      cases hnone
    · rw [hsearch, hfound] at hd
      cases hd
      exact hgone
  rcases hcases with ⟨-, hpost, hshow⟩ | ⟨u, jn, hu, hshow⟩
  · exact h.other (.queuedAway hj hc hpost) (hclient hshow) h.started h.told
  · have hgone : Shows { s' with reg := reg } { b with
        job := put b.job j ⟨(b.job j).id, (b.job j).result, pre ++ post ++ [⟨u, i⟩]⟩
        seat := put (put (put b.seat u (some ⟨true, some j⟩)) c
          (some ⟨false, some j⟩)) c none } g' :=
      hclient hshow
    rw [put_put] at hgone
    exact h.other (.moved hj hc hu (Or.inl rfl)) hgone h.started h.told

theorem OnBoard.submit (h : w.OnBoard b) {groupId jobId taskType system : Int}
    {inputFile : Bytes}
    (hfresh : w.FreshId (.submit groupId jobId taskType inputFile system))
    (hstep : w.step supply (.submit groupId jobId taskType inputFile system)
      = .ok w') :
    Follows supply w w' b (.submit groupId jobId taskType inputFile system) := by
  obtain ⟨g, hg⟩ := h.server
  obtain ⟨⟨started, s'⟩, hinit, hstep⟩ := bind_ok.mp hstep
  cases hstep
  rcases hg.initJob h.ok hinit with
    ⟨rfl, rfl, -⟩ | ⟨n, v, hs, g', hn, hv, hgroup, hid, hnodup, hidle, hok,
      hfail, hshow⟩
  · exact h.other .stay hg h.started h.told
  have hids : ∀ k ∈ b.order, (b.job k).id ≠ jobId := by
    have hnot : jobId ∉ w.server.jobIds :=
      (hfresh.resolve_left (by omega)).resolve_left (by omega)
    rw [hg.jobIds_eq] at hnot
    exact fun k hk heq => hnot (List.mem_map.mpr ⟨k, hk, heq⟩)
  have hgarbage : supply.garbage n = v.job.result := by rw [JobSupply.garbage, hv]
  rw [← hgarbage] at hshow
  have hstep : Board.Step supply.garbage b (.added started) _ :=
    .add hn hids hid hnodup hidle hok
  refine ⟨.added started, _, hstep, ⟨⟨g', hshow⟩, ?_, h.told, hstep.ok h.ok⟩,
    fun _ hl => (by cases hl), fun hl => (by cases hl), fun hl => ?_⟩
  · have hmem : n ∈ b.order ++ [n] :=
      List.mem_append_right _ (List.mem_singleton_self n)
    have htail : s'.pTail = some n := by
      obtain ⟨p, -, -, -, htail⟩ := hshow.jobs.list
      have htail' : s'.pTail = lastOf none (p :: (b.order ++ [n])) := htail
      rw [htail', ← List.cons_append, lastOf_append_singleton]
    have hlength : (s'.clientNodes n).length = hs.length := by
      rw [hshow.clientNodes_eq hmem]
      exact (hshow.clients hmem (put_self _ _ _)).length_eq
    cases started with
    | false => exact h.started
    | true =>
        show (n, hs.length) :: b.started = w.begun s'
        rw [begun, htail, h.started]
        simp only [hlength]
  · cases hl
    exact ⟨hgroup, hid, hfail rfl⟩

/-- **The simulation.**  An event that returns is one of the board's steps. -/
theorem OnBoard.step (h : w.OnBoard b) (hfresh : w.FreshId e)
    (hstep : w.step supply e = .ok w') :
    Follows supply w w' b e := by
  cases e with
  | join cfd sa gids => exact h.join hstep
  | submit groupId jobId taskType inputFile system => exact h.submit hfresh hstep
  | result cfd value => exact h.result hstep
  | error cfd => exact h.error hstep
  | disconnect cfd => exact h.disconnect hstep

/-- The server starts with an empty board. -/
theorem onBoard_start {config : Config} (hstart : start supply config = .ok w) :
    w.OnBoard Board.empty := by
  obtain ⟨s, hs, hstart⟩ := bind_ok.mp hstart
  cases hstart
  obtain ⟨v, -, rfl⟩ := initializeJobDll_ok hs
  have hcell : ((Heap.empty : Heap JobNode).grow (some v)).cell 0 = some v := rfl
  have hnil : ∀ {p : Nat → Prop}, ∀ j ∈ ([] : List Nat), p j :=
    fun j hj => absurd hj List.not_mem_nil
  have hqueue : QueueOk Heap.empty none none [] [] :=
    ⟨Leads.refl _ _, List.nodup_nil, rfl, rfl⟩
  refine ⟨⟨⟨fun _ => 0, fun _ => [], fun _ => none, []⟩,
    ⟨_, _, _, Registry.zeroed_ok⟩, fun c => rfl,
    ⟨⟨0, rfl, ?_, List.pairwise_singleton _ _, rfl⟩, hnil⟩,
    ⟨hnil, hqueue, hnil, hnil⟩, fun c st j hc => (by cases hc)⟩, rfl, rfl,
    Board.empty_ok⟩
  exact ⟨Leads.refl _ _, _, Heap.cell_set_self hcell _, rfl, Leads.refl _ _⟩

/-- A run follows the board as long as every job has an id of its own. -/
theorem Run.onBoard (Inv : Board → Prop) {K : World → Event → Prop} {config : Config}
    {es : List Event} (hrun : Run supply config K es w) (hempty : Inv Board.empty)
    (hfresh : ∀ w e, K w e → w.FreshId e)
    (hkeep : ∀ w e b l b', K w e → b.Ok → Inv b → Board.Step supply.garbage b l b' →
      (∀ j, l = .lost j → j ∈ b.started.map (·.1) → w.LosesPiece e) →
      (l = .queued → w.QueuesPiece e) →
      (l = .added false → w.FailsToStart e) → Inv b') :
    ∃ b, w.OnBoard b ∧ Inv b := by
  obtain ⟨w₀, hstart, hmeets, hrun⟩ := hrun
  have hstep : ∀ w e w', (∃ b, w.OnBoard b ∧ Inv b) → K w e →
      w.step supply e = .ok w' →
      ∃ b, w'.OnBoard b ∧ Inv b := by
    rintro w e w' ⟨b, hb, hinv⟩ hk hstep
    obtain ⟨l, b', hs, hb', hlost, hqueued, hadded⟩ := hb.step (hfresh w e hk) hstep
    exact ⟨b', hb', hkeep w e b l b' hk hb.ok hinv hs hlost hqueued hadded⟩
  exact runs_inv_of_meets hstep ⟨Board.empty, onBoard_start hstart, hempty⟩
    hmeets hrun

end World

/-! ## Job ids -/

section Ids
variable {supply : JobSupply} {w w' : World} {b : Board} {e : Event}

theorem Shows.jobIds_put {s s' : Server} {b b' : Board} {g g' : Layout}
    (h : Shows s b g) (h' : Shows s' b' g') {j : Nat} {view : JobView}
    (horder : b'.order = b.order) (hjob : b'.job = put b.job j view)
    (hid : view.id = (b.job j).id) : s'.jobIds = s.jobIds := by
  rw [h.jobIds_eq, h'.jobIds_eq, horder, hjob]
  refine List.map_congr_left fun k _ => ?_
  by_cases hk : k = j
  · rw [hk, put_self, hid]
  · rw [put_ne _ hk]

/-- No other id comes up than that of a job that is submitted. -/
theorem World.OnBoard.jobIds (hb : w.OnBoard b) (hstep : w.step supply e = .ok w') :
    ∀ i ∈ w'.server.jobIds, i ∈ w.server.jobIds ∨
      ∃ groupId taskType inputFile system,
      e = .submit groupId i taskType inputFile system := by
  obtain ⟨g, hg⟩ := hb.server
  have hreassigned : ∀ {cfd : Int} {s' : Server},
      reassignJob supply w.server cfd = .ok s' →
      s'.jobIds = w.server.jobIds := by
    intro cfd s' hr
    obtain ⟨-, ⟨rfl, -⟩ | ⟨c, j, i, pre, post, g', -, -, -, -,
        ⟨-, -, hshow⟩ | ⟨u, jn, -, hshow⟩⟩⟩ :=
      hg.reassignJob hb.ok hr
    · rfl
    · exact hg.jobIds_put hshow rfl rfl rfl
    · exact hg.jobIds_put hshow rfl rfl rfl
  have hsame : w'.server.jobIds = w.server.jobIds → ∀ i ∈ w'.server.jobIds,
      i ∈ w.server.jobIds ∨
      ∃ groupId taskType inputFile system,
      e = .submit groupId i taskType inputFile system := by
    intro heq i hi
    exact Or.inl (heq ▸ hi)
  cases e with
  | join cfd sa gids =>
      obtain ⟨⟨p, reg⟩, -, hstep⟩ := bind_ok.mp hstep
      cases hstep
      exact hsame rfl
  | submit groupId jobId taskType inputFile system =>
      obtain ⟨⟨started, s'⟩, hinit, hstep⟩ := bind_ok.mp hstep
      cases hstep
      rcases hg.initJob hb.ok hinit with
        ⟨-, rfl, -⟩ | ⟨n, v, hs, g', hn, -, -, -, -, -, -, -, hshow⟩
      · exact hsame rfl
      intro i hi
      have hids : s'.jobIds = (b.order ++ [n]).map fun k =>
          (put b.job n ⟨jobId, v.job.result, hs⟩ k).id :=
        hshow.jobIds_eq
      rw [hids, List.map_append] at hi
      rcases List.mem_append.mp hi with hi | hi
      · obtain ⟨k, hk, rfl⟩ := List.mem_map.mp hi
        have hkn : k ≠ n := by
          rintro rfl
          exact hn hk
        rw [put_ne _ hkn, hg.jobIds_eq]
        exact Or.inl (List.mem_map_of_mem (f := fun j => (b.job j).id) hk)
      · rw [List.map_singleton, put_self] at hi
        cases List.mem_singleton.mp hi
        exact Or.inr ⟨groupId, taskType, inputFile, system, rfl⟩
  | result cfd value =>
      obtain ⟨⟨p, s'⟩, hresult, hstep⟩ := bind_ok.mp hstep
      cases hstep
      rcases hg.updateJobResult hb.ok hresult with
        ⟨rfl, -⟩ | ⟨c, j, g', -, -, hcases⟩
      · exact hsame rfl
      rcases hcases with ⟨i, u, pre, post, wpre, wpost, -, -, hshow⟩ | ⟨u, wpre,
        wpost, -, -, hshow⟩ |
        ⟨i, pre, post, -, -, hshow⟩ | ⟨-, -, hshow⟩
      · exact hsame (hg.jobIds_put hshow rfl rfl rfl)
      · exact hsame (hg.jobIds_put hshow rfl rfl rfl)
      · exact hsame (hg.jobIds_put hshow rfl rfl rfl)
      · exact hsame (hg.jobIds_put hshow rfl rfl rfl)
  | error cfd =>
      obtain ⟨s', hreassign, hstep⟩ := bind_ok.mp hstep
      cases hstep
      exact hsame (hreassigned hreassign)
  | disconnect cfd =>
      obtain ⟨s', hreassign, hstep⟩ := bind_ok.mp hstep
      obtain ⟨⟨p, reg⟩, -, hstep⟩ := bind_ok.mp hstep
      cases hstep
      have hids : s'.jobIds = w.server.jobIds := hreassigned hreassign
      exact hsame hids

end Ids

end Pyramid
