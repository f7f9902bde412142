/-
# `Pyramid.Departures` — what a client that is gone leaves behind

As long as only the last node of a list is freed, the lists of the server stay
`Tidy` over a run.  A client that disconnects is then in no list, and no list
leads to a node that was freed.
-/
import Pyramid.Tidy

namespace Pyramid

/-! ## What is left -/


namespace Server

/-- The node at `a` is there, and refers to the client that is gone only if it
is the first one, which stands for no client. -/
def Lives (s : Server) (client first : Ptr) (a : Nat) : Prop :=
  ∃ v, s.nodes.cell a = some v ∧ (some a = first ∨ client = none ∨ v.client ≠ client)

/-- No job refers to this client, and none leads to a node that was freed. -/
structure Forgets (s : Server) (client : Ptr) : Prop where
  forward : ∀ j ∈ s.jobList, ∀ v, s.jobs.cell j = some v →
    ∀ a, Reaches s.nodes (·.next) v.job.head a →
    s.Lives client v.job.head a
  back : ∀ j ∈ s.jobList, ∀ v, s.jobs.cell j = some v →
    ∀ a, Reaches s.nodes (·.prev) v.job.tail a →
    s.Lives client v.job.head a
  queue : ∀ a, Reaches s.nodes (·.next) s.qHead a → s.Lives client none a

end Server

theorem Tidy.forgets {s : Server} {b : Board} {g : Layout} (h : Tidy none s)
    (hg : Shows s b g) (hok : b.Ok) {client : Ptr}
    (hgone : ∀ c, client = some c → s.reg.infos.cell c = none) :
    s.Forgets client := by
  have hlist : ∀ j ∈ s.jobList, ∀ v, s.jobs.cell j = some v → ∀ a ∈ g.list j,
      s.Lives client v.job.head a := by
    intro j hj v hv a ha
    rw [hg.jobList_eq] at hj
    obtain ⟨w, hw, hjok⟩ := hg.jobs.job j hj
    cases hv.symm.trans hw
    rcases List.mem_cons.mp ha with rfl | ha
    · obtain ⟨u, hu⟩ := hg.nodes.cell_of_list hj List.mem_cons_self
      exact ⟨u, hu, Or.inl hjok.first.symm⟩
    · obtain ⟨u, c, hu, hc, hmem⟩ := (hg.nodes.clients j hj).of_mem ha
      refine ⟨u, hu, Or.inr (Or.inr fun heq => ?_)⟩
      -- a client that holds a piece is in the table
      have hseat := hok.seated j hj _ hmem
      rw [hg.seat, hgone c (heq.symm.trans hc)] at hseat
      cases hseat
  refine ⟨fun j hj v hv a hr => ?_, fun j hj v hv a hr => ?_, fun a hr => ?_⟩
  · have hj' := hj
    rw [hg.jobList_eq] at hj'
    obtain ⟨w, hw, hjok⟩ := hg.jobs.job j hj'
    cases hv.symm.trans hw
    rw [hjok.first] at hr
    exact hlist j hj v hv a ((h.exact hg hj').path.mem_of_reaches hr)
  · have hj' := hj
    rw [hg.jobList_eq] at hj'
    obtain ⟨w, hw, hjok⟩ := hg.jobs.job j hj'
    cases hv.symm.trans hw
    have hpath : Path s.nodes (·.prev) v.job.tail ((g.list j).reverse ++ []) := by
      have hnil : Path s.nodes (·.prev) none [] := rfl
      rw [hjok.last]
      exact (h.exact hg hj').path_back hnil
    have hmem := hpath.mem_of_reaches hr
    rw [List.append_nil, List.mem_reverse] at hmem
    exact hlist j hj v hv a hmem
  · obtain ⟨v, hv, hnone⟩ :=
      hg.nodes.queue.of_mem (hg.nodes.queue.list.path.mem_of_reaches hr)
    refine ⟨v, hv, Or.inr ?_⟩
    rw [hnone]
    cases client with
    | none => exact Or.inl rfl
    | some c => exact Or.inr fun heq => by cases heq

/-! ## Over a run -/

namespace World

/-- Only the last client of a job is freed, and a job that nobody works on is
given no stale pointer. -/
def KeepsLists (supply : JobSupply) (w : World) : Event → Prop
  | .join _ _ _ => True
  | .submit groupId jobId taskType inputFile system =>
      w.FreshId (.submit groupId jobId taskType inputFile system) ∧
      (0 < groupId → 0 ≤ jobId → w.server.idleIn groupId.toNat = .ok none →
        ((supply.job w.server.jobs.next).bind fun v => v.job.tail) = none)
  | .result cfd _ => ∀ p ∈ w.server.assigned cfd, w.server.waitingFor p.2 = [] →
      w.server.heldBy p.2 p.1 ≠ none →
      (w.server.held p.2).getLast?.map (·.1) = some (some p.1)
  | .error cfd => ∀ p ∈ w.server.assigned cfd, w.server.heldBy p.2 p.1 ≠ none →
      w.server.idleFor p.1 = .ok none
  | .disconnect cfd => ∀ p ∈ w.server.assigned cfd, w.server.heldBy p.2 p.1 ≠ none →
      w.server.idleFor p.1 = .ok none

instance (supply : JobSupply) (w : World) : ∀ e, Decidable (w.KeepsLists supply e)
  | .join _ _ _ => inferInstanceAs (Decidable True)
  | .submit _ _ _ _ _ => inferInstanceAs (Decidable (_ ∧ (_ → _ → _ → _)))
  | .result cfd _ =>
      inferInstanceAs (Decidable (∀ p ∈ w.server.assigned cfd, _ → _ → _))
  | .error cfd => inferInstanceAs (Decidable (∀ p ∈ w.server.assigned cfd, _ → _))
  | .disconnect cfd =>
      inferInstanceAs (Decidable (∀ p ∈ w.server.assigned cfd, _ → _))

variable {supply : JobSupply} {w w' : World} {b : Board} {e : Event}

theorem KeepsLists.freshId (hk : w.KeepsLists supply e) : w.FreshId e := by
  cases e with
  | submit groupId jobId taskType inputFile system => exact hk.1
  | join cfd sa gids => exact trivial
  | result cfd value => exact trivial
  | error cfd => exact trivial
  | disconnect cfd => exact trivial

/-- One step keeps the lists tidy. -/
theorem tidy_step (h : Tidy none w.server) (hb : w.OnBoard b)
    (hk : w.KeepsLists supply e) (hstep : w.step supply e = .ok w') :
    Tidy none w'.server := by
  obtain ⟨g, hg⟩ := hb.server
  cases e with
  | join cfd sa gids =>
      obtain ⟨⟨p, reg⟩, -, hstep⟩ := bind_ok.mp hstep
      cases hstep
      exact h.of_nodes rfl rfl (KeepsEnds.refl _)
  | submit groupId jobId taskType inputFile system =>
      obtain ⟨⟨started, s'⟩, hinit, hstep⟩ := bind_ok.mp hstep
      cases hstep
      exact h.initJob (Tidy.head_old hg) hk.2 hinit
  | result cfd value =>
      obtain ⟨⟨p, s'⟩, hresult, hstep⟩ := bind_ok.mp hstep
      cases hstep
      exact h.updateJobResult hg hb.ok
        (fun c j hassigned => hk (c, j) hassigned) hresult
  | error cfd =>
      obtain ⟨s', hreassign, hstep⟩ := bind_ok.mp hstep
      cases hstep
      exact h.reassignJob hg hb.ok
        (fun c j hassigned => hk (c, j) hassigned) hreassign
  | disconnect cfd =>
      obtain ⟨s', hreassign, hstep⟩ := bind_ok.mp hstep
      obtain ⟨⟨p, reg⟩, -, hstep⟩ := bind_ok.mp hstep
      cases hstep
      have h' :=
        h.reassignJob hg hb.ok (fun c j hassigned => hk (c, j) hassigned) hreassign
      exact h'.of_nodes rfl rfl (KeepsEnds.refl _)

theorem tidy_start {config : Config} (hstart : start supply config = .ok w) :
    Tidy none w.server := by
  obtain ⟨s, hs, hstart⟩ := bind_ok.mp hstart
  cases hstart
  obtain ⟨u, -, rfl⟩ := initializeJobDll_ok hs
  have hgrow : ((Heap.empty : Heap JobNode).grow (some u)).cell 0 = some u := rfl
  have honly : ∀ j v, (some 0 : Ptr) ≠ some j →
      (((Heap.empty : Heap JobNode).grow (some u)).set 0 (some
        ⟨false, { u.job with id := -1, head := none, tail := none }, 0, none,
        none⟩)).cell j ≠ some v := by
    intro j v hj hv
    have hj0 : j ≠ 0 := fun heq => hj (by rw [heq])
    rw [Heap.cell_set_ne _ hj0] at hv
    rw [Heap.cell_grow_ne (Heap.empty : Heap JobNode) hj0] at hv
    cases hv
  exact ⟨Backed.empty, fun j v hj hv => absurd hv (honly j v hj),
    fun j k v y hj hk hv hy heq => absurd hv (honly j v hj)⟩

/-- **The lists stay tidy.** -/
theorem Run.tidy {config : Config} {es : List Event}
    (hrun : Run supply config (KeepsLists supply) es w) :
    (∃ b, w.OnBoard b) ∧ Tidy none w.server := by
  obtain ⟨w₀, hstart, hmeets, hrun⟩ := hrun
  have hstep : ∀ (w : World) e w', ((∃ b, w.OnBoard b) ∧ Tidy none w.server) →
      w.KeepsLists supply e →
      w.step supply e = .ok w' → (∃ b, w'.OnBoard b) ∧ Tidy none w'.server := by
    rintro w e w' ⟨⟨b, hb⟩, h⟩ hk hstep
    obtain ⟨l, b', -, hb', -⟩ := hb.step hk.freshId hstep
    exact ⟨⟨b', hb'⟩, tidy_step h hb hk hstep⟩
  exact runs_inv_of_meets hstep ⟨⟨Board.empty, onBoard_start hstart⟩,
    tidy_start hstart⟩ hmeets hrun

/-- The client that was found for `cfd` is not in the table any more. -/
theorem OnBoard.gone (hb : w.OnBoard b) {cfd : Int} {client : Ptr}
    (hfound : serverSearchClientFd w.server.reg (serverGetClientInfoHead cfd) cfd
      = .ok client)
    (hstep : w.step supply (.disconnect cfd) = .ok w') :
    ∀ c, client = some c → w'.server.reg.infos.cell c = none := by
  rintro c rfl
  obtain ⟨g, hg⟩ := hb.server
  obtain ⟨s', hreassign, hstep⟩ := bind_ok.mp hstep
  obtain ⟨⟨p, reg⟩, hdel, hstep⟩ := bind_ok.mp hstep
  cases hstep
  obtain ⟨hsame, -⟩ := hg.reassignJob hb.ok hreassign
  obtain ⟨member, chain, bucket, hok⟩ := hsame.wellFormed hg.registry
  rw [← hsame.search] at hfound
  rcases serverDelOneClientFd_spec hok cfd with
    ⟨hrun, hnone⟩ | ⟨reg', a, v, hrun, hremoved⟩
  · simp only [serverDelOneClientFd, hfound, ok_bind] at hdel hrun
    rcases hok.search (serverGetClientInfoHead cfd) cfd with
      ⟨hsearch, -⟩ | ⟨pre, d, post, v, hsplit, -, hv, hcfd, -⟩
    · cases hfound.symm.trans hsearch
    · exact absurd hcfd
        (hnone d (by rw [← serverGetClientInfoHead, hsplit]; simp) v hv)
  · cases hdel.symm.trans hrun
    cases hfound.symm.trans hremoved.found
    exact hremoved.gone

end World

/-- As long as only the last client of a job is freed, a client that disconnects
leaves nothing behind. -/
theorem departed_forgotten (supply : JobSupply) (config : Config) (es : List Event)
    (w w' : World) (cfd : Int) (client : Ptr)
    (hrun : World.Run supply config (World.KeepsLists supply) es w)
    (hkeeps : w.KeepsLists supply (.disconnect cfd))
    (hfound : serverSearchClientFd w.server.reg (serverGetClientInfoHead cfd) cfd
      = .ok client)
    (hstep : w.step supply (.disconnect cfd) = .ok w') :
    w'.server.Forgets client := by
  obtain ⟨⟨b, hb⟩, h⟩ := hrun.tidy
  obtain ⟨l, b', -, hb', -⟩ := hb.step hkeeps.freshId hstep
  obtain ⟨g, hg⟩ := hb'.server
  exact (World.tidy_step h hb hkeeps hstep).forgets hg hb'.ok (hb.gone hfound hstep)

set_option synthInstance.maxSize 1024 in
/-- Two clients share a job, and the one whose node comes first disconnects while
nobody is idle. -/
theorem departed_forgotten_sample :
    ∃ w w', World.Run JobSupply.zeros Config.sample
      (World.KeepsLists JobSupply.zeros)
        [.join 5 ⟨0, 0⟩ [1], .join 6 ⟨0, 0⟩ [1], .submit 1 1 102 (ascii "in") 0] w ∧
      w.step JobSupply.zeros (.disconnect 6) = .ok w' ∧
      (w'.server.held 1, w'.server.queued) = ([(some 0, 1)], [(1, 0)]) ∧
      w'.server.Forgets (some 1) := by
  obtain ⟨w, w', hrun, hkeeps, hstep, hw⟩ : ∃ w w',
      World.Run JobSupply.zeros Config.sample
      (World.KeepsLists JobSupply.zeros)
      [.join 5 ⟨0, 0⟩ [1], .join 6 ⟨0, 0⟩ [1], .submit 1 1 102 (ascii "in") 0] w ∧
      w.KeepsLists JobSupply.zeros (.disconnect 6) ∧
      w.step JobSupply.zeros (.disconnect 6) = .ok w' ∧
      ((serverSearchClientFd w.server.reg (serverGetClientInfoHead 6) 6).toOption,
        w'.server.held 1,
        w'.server.queued) = (some (some 1), [(some 0, 1)], [(1, 0)]) :=
    World.step_of_check (by decide +kernel)
  obtain ⟨hfound, hafter⟩ := Prod.mk.inj hw
  exact ⟨w, w', hrun, hstep, hafter,
    departed_forgotten _ _ _ w w' 6 (some 1) hrun hkeeps
      (ok_of_toOption hfound) hstep⟩

set_option synthInstance.maxSize 1024 in
/-- A client works on a job alone, another one joins, and the first disconnects:
its piece is moved, and the first node of the job leads to the freed one. -/
theorem freed_node_reached :
    ∃ w w', World.Run JobSupply.zeros Config.sample (fun _ _ => True)
        [.join 5 ⟨0, 0⟩ [1], .submit 1 1 102 (ascii "in") 0, .join 6 ⟨0, 0⟩ [1]] w ∧
      serverSearchClientFd w.server.reg (serverGetClientInfoHead 5) 5
        = .ok (some 0) ∧
      w.step JobSupply.zeros (.disconnect 5) = .ok w' ∧
      ¬ w'.server.Forgets (some 0) := by
  obtain ⟨w, w', hrun, -, hstep, hw⟩ : ∃ w w',
      World.Run JobSupply.zeros Config.sample (fun _ _ => True)
      [.join 5 ⟨0, 0⟩ [1], .submit 1 1 102 (ascii "in") 0, .join 6 ⟨0, 0⟩ [1]] w ∧
        True ∧
      w.step JobSupply.zeros (.disconnect 5) = .ok w' ∧
      ((serverSearchClientFd w.server.reg (serverGetClientInfoHead 5) 5).toOption,
        w'.server.jobList,
        (w'.server.jobs.cell 1).map (·.job.head),
        (w'.server.nodes.cell 0).map (·.next), w'.server.nodes.cell 1)
        = (some (some 0), [1], some (some 0), some (some 1), none) :=
    World.step_of_check (by decide +kernel)
  obtain ⟨hfound, hw'⟩ := Prod.mk.inj hw
  obtain ⟨hlist, hrest⟩ := Prod.mk.inj hw'
  obtain ⟨hhead, hrest⟩ := Prod.mk.inj hrest
  obtain ⟨hnext, hfreed⟩ := Prod.mk.inj hrest
  obtain ⟨jv, hjv, hjhead⟩ := Option.map_eq_some_iff.mp hhead
  obtain ⟨v, hv, hvnext⟩ := Option.map_eq_some_iff.mp hnext
  refine ⟨w, w', hrun, ok_of_toOption hfound, hstep, fun hforgets => ?_⟩
  have hreach : Reaches w'.server.nodes (·.next) jv.job.head 1 := by
    rw [hjhead]
    refine .next hv ?_
    rw [hvnext]
    exact .here 1
  obtain ⟨u, hu, -⟩ :=
    hforgets.forward 1 (hlist ▸ List.mem_singleton_self 1) jv hjv 1 hreach
  cases hfreed.symm.trans hu

end Pyramid
