/-
# `Pyramid.Underway` — one message for each piece that is held

Whoever holds a piece of a job that was started has been sent its path and has not
answered, or has answered and has not been heard: `Flight` says which.  That the
server keeps this follows from what one event does to whom holds what (`Deals`) and
who is connected (`Reconnects`), first for the connections that it does not come from
(`Link.Ok.others`) and then for its own (`Link.Quiet.own`).
-/
import Pyramid.Cluster
import Pyramid.Pieces

namespace Pyramid

/-! ## The frames of a piece -/

/-- The task of the job at `j` is to find a maximum. -/
def Server.Seeks (s : Server) (j : Nat) : Prop :=
  ∃ u a t, s.jobs.cell j = some u ∧ u.job.task = some a ∧ s.tasks.cell a = some t ∧
    t.taskType = Attribute.algoMax.code

/-- Where clients are told that the piece `i` of the job at `j` is. -/
def Server.pathOf (s : Server) (j : Nat) (i : Int) : Bytes :=
  match s.jobs.cell j with
  | none => []
  | some v => s.config.pieceText v.job.id i

theorem framesTo_append (cfd : Int) (fs gs : List Sent) :
    framesTo cfd (fs ++ gs) = framesTo cfd fs ++ framesTo cfd gs := by
  rw [framesTo, List.filter_append, List.map_append]
  rfl

theorem framesTo_self (cfd : Int) (frame : Bytes) :
    framesTo cfd [⟨cfd, frame⟩] = [frame] := by
  rw [framesTo, List.filter_cons_of_pos (by simp)]
  rfl

theorem framesTo_other {cfd fd : Int} (h : fd ≠ cfd) (frame : Bytes) :
    framesTo cfd [⟨fd, frame⟩] = [] := by
  rw [framesTo, List.filter_cons_of_neg (by simpa using h)]
  rfl

/-- What the client is sent for the piece: a request that names it. -/
structure Packet.Names (p : Packet) (s : Server) (j : Nat) (i : Int) : Prop where
  plain : p.Plain
  request : Client.IsRequest p = true
  path : p.value = s.pathOf j i

section Frames
variable {s s' : Server} {j c : Nat} {i : Int} {ds : List Holder}

theorem Server.Seeks.keeps (h : s.Seeks j) (hk : KeepsJob j s s') : s'.Seeks j := by
  obtain ⟨u, a, t, hu, ha, ht, htype⟩ := h
  obtain ⟨u', hu', -, htask⟩ := hk.job u hu
  exact ⟨u', a, t, hu', htask.trans ha, hk.tasks a t ht, htype⟩

theorem Server.Seeks.pathOf (h : s.Seeks j) (hk : KeepsJob j s s') (i : Int) :
    s'.pathOf j i = s.pathOf j i := by
  obtain ⟨u, a, t, hu, -⟩ := h
  obtain ⟨u', hu', hid, -⟩ := hk.job u hu
  simp only [Server.pathOf, hu, hu', hid, hk.config]

/-- A piece is sent in one frame. -/
theorem piece_frame (hc : s.config.Strings) (hseeks : s.Seeks j) {fs : List Sent}
    (h : s.pieceFrames j c i = .ok fs) :
    ∃ v p, s.reg.infos.cell c = some v ∧ fs = [⟨v.cfd, Packet.segment [p]⟩] ∧
      p.Names s j i := by
  obtain ⟨ci, hci, h⟩ := bind_ok.mp h
  obtain ⟨jn, hjn, h⟩ := bind_ok.mp h
  obtain ⟨task, htask, h⟩ := bind_ok.mp h
  obtain ⟨d, hd, hcell⟩ := Heap.load_ok.mp hci
  cases hd
  obtain ⟨k, hk, hjob⟩ := Heap.load_ok.mp hjn
  cases hk
  obtain ⟨u, a, t, hu, ha, ht, htype⟩ := hseeks
  cases hjob.symm.trans hu
  rw [ha, Heap.load_some ht] at htask
  cases htask
  rw [htype] at h
  obtain ⟨hle, f, hattr, hvalue, rfl⟩ :=
    framesOf_text (by decide) hc.piecePath (pieceText_sent _ _ _) h
  rw [List.length_take] at hle
  rw [List.take_of_length_le (by omega)] at hvalue
  have hseg : Packet.segment [f.packet] = segment [f] := rfl
  refine ⟨ci, f.packet, hcell, by rw [hseg], ⟨?_, ?_⟩, ?_, ?_⟩
  · show f.attr.code ∈ byteValued.map Attribute.code
    rw [hattr]
    decide
  · show 0 ∉ f.value
    rw [hvalue]
    exact hc.pieceText
  · show (f.attr.code == Attribute.algoMax.code) = true
    rw [hattr]
    exact beq_self_eq_true _
  · show f.value = _
    rw [hvalue, Server.pathOf, hjob]

/-- Whoever is told a piece is there. -/
theorem Server.TellsAll.cell (h : s.TellsAll s' j ds) {d : Holder} (hd : d ∈ ds) :
    ∃ v, s.reg.infos.cell d.client = some v := by
  obtain ⟨fss, hfss, -⟩ := h
  induction hfss with
  | nil => exact absurd hd List.not_mem_nil
  | cons hfs _ ih =>
      rcases List.mem_cons.mp hd with rfl | hd
      · obtain ⟨ci, hci, -⟩ := bind_ok.mp hfs
        obtain ⟨c, hc, hcell⟩ := Heap.load_ok.mp hci
        cases hc
        exact ⟨ci, hcell⟩
      · exact ih hd

/-- Each piece that is sent is in one frame, and no client is sent two. -/
theorem Server.TellsAll.frames (hc : s'.config.Strings) (hknown : s.reg.Known)
    (hseeks : ∀ d ∈ ds, s'.Seeks j) (hnodup : (ds.map (·.client)).Nodup)
    (h : s.TellsAll s' j ds) (cfd : Int) :
    ((∀ d ∈ ds, ¬ s.reg.At d.client cfd) ∧
      framesTo cfd (s'.sent.drop s.sent.length) = []) ∨
      ∃ d ∈ ds, s.reg.At d.client cfd ∧ ∃ p : Packet, p.Names s' j d.index ∧
        framesTo cfd (s'.sent.drop s.sent.length) = [Packet.segment [p]] := by
  obtain ⟨fss, hfss, hsent⟩ := h
  rw [hsent, List.drop_left]
  clear hsent
  induction hfss with
  | nil => exact Or.inl ⟨fun d hd => absurd hd List.not_mem_nil, rfl⟩
  | @cons d fs ds fss hfs _ ih =>
      rw [List.map_cons, List.nodup_cons] at hnodup
      have hrest := ih (fun e he => hseeks e (List.mem_cons_of_mem d he)) hnodup.2
      obtain ⟨v, p, hcell, rfl, hp⟩ :=
        piece_frame (s := { s' with reg := s.reg }) hc
          (hseeks d List.mem_cons_self) hfs
      have hat : s.reg.At d.client v.cfd := Registry.at_cell.mpr ⟨v, hcell, rfl⟩
      rw [List.flatten_cons, framesTo_append]
      by_cases hfd : v.cfd = cfd
      · rw [hfd] at hat
        refine Or.inr ⟨d, List.mem_cons_self, hat, p,
          ⟨hp.plain, hp.request, hp.path⟩, ?_⟩
        rcases hrest with ⟨-, hnone⟩ | ⟨e, he, hate, -⟩
        · rw [hnone, List.append_nil, hfd, framesTo_self]
        · refine absurd ?_ hnodup.1
          rw [hknown.eq hat hate]
          exact List.mem_map_of_mem he
      · rw [framesTo_other hfd, List.nil_append]
        rcases hrest with ⟨hnone, hnil⟩ | ⟨e, he, hate, hp⟩
        · refine Or.inl ⟨fun e he hate => ?_, hnil⟩
          rcases List.mem_cons.mp he with rfl | he
          · exact hfd (hat.unique hate)
          · exact hnone e he hate
        · exact Or.inr ⟨e, List.mem_cons_of_mem d he, hate, hp⟩

end Frames

/-! ## What an event leaves -/

/-- The connection that an event comes from. -/
def Event.cfd : Event → Option Int
  | .join cfd _ _ | .result cfd _ | .error cfd | .disconnect cfd => some cfd
  | .submit _ _ _ _ _ => none

/-- A job is submitted that is not about a maximum. -/
def Event.Strange : Event → Prop
  | .submit _ _ taskType _ _ => taskType ≠ Attribute.algoMax.code
  | _ => False

/-- A descriptor joins that a client has. -/
def World.Rejoins (w : World) : Event → Prop
  | .join cfd _ _ => ∃ a, w.server.reg.At a cfd
  | _ => False

section Events
variable {supply : JobSupply} {w w' : World} {b : Board} {e : Event} {a : Nat}
  {cfd : Int}

/-- How the clients are connected after an event that comes from `e.cfd`. -/
structure World.Reconnects (w w' : World) (e : Event) : Prop where
  known : w'.server.reg.Known
  others : ∀ a cfd, e.cfd ≠ some cfd →
    (w'.server.reg.At a cfd ↔ w.server.reg.At a cfd)
  own : ∀ a cfd, e.cfd = some cfd → w'.server.reg.At a cfd →
    w.From a e ∨ w.server.reg.infos.cell a = none
  stays : ∀ a cfd, e ≠ .disconnect cfd → w.server.reg.At a cfd →
    w'.server.reg.At a cfd
  gone : ∀ a cfd, e = .disconnect cfd → ¬ w'.server.reg.At a cfd

theorem World.Reconnects.same (hknown : w.server.reg.Known)
    (hsame : SameClients w.server.reg w'.server.reg)
    (hstays : ∀ cfd, e ≠ .disconnect cfd)
    (hfrom : ∀ a cfd, e.cfd = some cfd → w.server.reg.At a cfd → w.From a e) :
    w.Reconnects w' e where
  known := hknown.same hsame
  others _ _ _ := Registry.at_same hsame
  own a cfd he ha := Or.inl (hfrom a cfd he ((Registry.at_same hsame).mp ha))
  stays _ _ _ := (Registry.at_same hsame).mpr
  gone _ _ he := absurd he (hstays _)

theorem reassigned_wellFormed {s s' : Server} {g : Layout} (h : Shows s b g)
    (hok : b.Ok) (hr : reassignJob supply s cfd = .ok s') : s'.reg.WellFormed := by
  obtain ⟨-, ⟨rfl, -⟩ | ⟨c, j, i, pre, post, g', -, -, -, -,
      ⟨-, -, hshow⟩ | ⟨u, jn, -, hshow⟩⟩⟩ :=
    h.reassignJob hok hr
  · exact h.registry
  · exact hshow.registry
  · exact hshow.registry

/-- Nothing joins the list of jobs but the job that is submitted. -/
structure World.Adds (w w' : World) (e : Event) (j : Nat) : Prop where
  jobs : w'.server.jobList = w.server.jobList ++ [j]
  started : ∀ p ∈ w'.started, p ∈ w.started ∨ p.1 = j
  fresh : j ∉ w.server.jobList
  task : ¬ e.Strange → w'.server.Seeks j

theorem World.OnBoard.jobList (hb : w.OnBoard b) (hstep : w.step supply e = .ok w') :
    (w'.server.jobList = w.server.jobList ∧ w'.started = w.started) ∨
      ∃ j, w.Adds w' e j := by
  obtain ⟨g, hg⟩ := hb.server
  have hreassigned : ∀ {cfd : Int} {s' : Server},
      reassignJob supply w.server cfd = .ok s' →
      s'.jobList = w.server.jobList := by
    intro cfd s' hr
    obtain ⟨-, ⟨rfl, -⟩ | ⟨c, j, i, pre, post, g', -, -, -, -,
        ⟨-, -, hshow⟩ | ⟨u, jn, -, hshow⟩⟩⟩ :=
      hg.reassignJob hb.ok hr
    · rfl
    · exact hshow.jobList_eq.trans hg.jobList_eq.symm
    · exact hshow.jobList_eq.trans hg.jobList_eq.symm
  cases e with
  | join cfd sa gids =>
      obtain ⟨⟨p, reg⟩, -, hstep⟩ := bind_ok.mp hstep
      cases hstep
      exact Or.inl ⟨rfl, rfl⟩
  | submit groupId jobId taskType inputFile system =>
      obtain ⟨⟨started, s'⟩, hinit, hstep⟩ := bind_ok.mp hstep
      cases hstep
      rcases hg.initJob hb.ok hinit with
        ⟨rfl, rfl, -⟩ | ⟨n, v, hs, g', hn, -, hgroup, hid, -, -, -, -, hshow⟩
      · exact Or.inl ⟨rfl, rfl⟩
      have hlast : s'.pTail = some n := by
        obtain ⟨p, -, -, -, htail⟩ := hshow.jobs.list
        have htail' : s'.pTail = lastOf none (p :: (b.order ++ [n])) := htail
        rw [htail', ← List.cons_append, lastOf_append_singleton]
      refine Or.inr ⟨n, ⟨?_, fun p hp => ?_, ?_, ?_⟩⟩
      · rw [hg.jobList_eq]
        exact hshow.jobList_eq
      · cases started with
        | false => exact Or.inl hp
        | true =>
            have hbegun : p ∈ w.begun s' := hp
            rw [World.begun, hlast] at hbegun
            rcases List.mem_cons.mp hbegun with rfl | hp
            · exact Or.inr rfl
            · exact Or.inl hp
      · rw [hg.jobList_eq]
        exact hn
      · intro htype
        rcases initJob_hands hinit with
          ⟨hbad, -⟩ | ⟨-, j, tasks, ds, hj, -, -, ⟨u, a, t, hu, ha, ht, hnew⟩,
            hkeeps, -⟩
        · omega
        · cases hj.symm.trans hlast
          exact ⟨u, a, t, hu, ha, hkeeps.tasks ▸ ht, hnew.trans (not_not.mp htype)⟩
  | result cfd value =>
      obtain ⟨⟨p, s'⟩, hresult, hstep⟩ := bind_ok.mp hstep
      cases hstep
      rcases hg.updateJobResult hb.ok hresult with
        ⟨rfl, -⟩ | ⟨c, j, g', -, -, hcases⟩
      · exact Or.inl ⟨rfl, rfl⟩
      refine Or.inl ⟨?_, rfl⟩
      rcases hcases with ⟨i, u, pre, post, wpre, wpost, -, -, hshow⟩ | ⟨u, wpre,
        wpost, -, -, hshow⟩ |
        ⟨i, pre, post, -, -, hshow⟩ | ⟨-, -, hshow⟩
      · exact hshow.jobList_eq.trans hg.jobList_eq.symm
      · exact hshow.jobList_eq.trans hg.jobList_eq.symm
      · exact hshow.jobList_eq.trans hg.jobList_eq.symm
      · exact hshow.jobList_eq.trans hg.jobList_eq.symm
  | error cfd =>
      obtain ⟨s', hreassign, hstep⟩ := bind_ok.mp hstep
      cases hstep
      exact Or.inl ⟨hreassigned hreassign, rfl⟩
  | disconnect cfd =>
      obtain ⟨s', hreassign, hstep⟩ := bind_ok.mp hstep
      obtain ⟨⟨p, reg⟩, hdel, hstep⟩ := bind_ok.mp hstep
      cases hstep
      have hlist : s'.jobList = w.server.jobList := hreassigned hreassign
      exact Or.inl ⟨hlist, rfl⟩

/-- A job of the list is started when it is added, or not at all. -/
theorem World.OnBoard.started_before (hb : w.OnBoard b)
    (hstep : w.step supply e = .ok w') {k : Nat} (hk : k ∈ w'.started.map (·.1))
    (hold : k ∈ w.server.jobList) : k ∈ w.started.map (·.1) := by
  rcases hb.jobList hstep with ⟨-, hsame⟩ | ⟨j, hadds⟩
  · rwa [hsame] at hk
  · obtain ⟨p, hp, rfl⟩ := List.mem_map.mp hk
    rcases hadds.started p hp with hp | rfl
    · exact List.mem_map_of_mem hp
    · exact absurd hold hadds.fresh

theorem World.OnBoard.reconnects (hb : w.OnBoard b) (hknown : w.server.reg.Known)
    (hnew : ¬ w.Rejoins e) (hstep : w.step supply e = .ok w') :
    w.Reconnects w' e := by
  obtain ⟨g, hg⟩ := hb.server
  cases e with
  | join cfd sa gids =>
      obtain ⟨⟨p, reg⟩, hadd, hstep⟩ := bind_ok.mp hstep
      cases hstep
      have hnone : ∀ a, ¬ w.server.reg.At a cfd := fun a ha => hnew ⟨a, ha⟩
      obtain ⟨hknown', c, hc, hold, hnewly⟩ := hknown.join hg.registry hnone hadd
      refine ⟨hknown', fun a fd hfd => ⟨fun ha => ?_, hold a fd⟩,
        fun a fd hfd ha => ?_, fun a fd _ => hold a fd, fun a fd he => nomatch he⟩
      · rcases hnewly a fd ha with ha | ⟨-, rfl⟩
        · exact ha
        · exact absurd rfl hfd
      · cases hfd
        rcases hnewly a cfd ha with ha | ⟨rfl, -⟩
        · exact absurd ha (hnone a)
        · exact Or.inr hc
  | submit groupId jobId taskType inputFile system =>
      obtain ⟨⟨started, s'⟩, hinit, hstep⟩ := bind_ok.mp hstep
      cases hstep
      refine World.Reconnects.same hknown ?_ (fun _ he => nomatch he) fun a cfd he =>
        nomatch he
      rcases initJob_hands hinit with
        ⟨-, rfl⟩ | ⟨-, j, tasks, ds, -, -, -, -, hkeeps, -⟩
      · exact SameClients.refl _
      · exact hkeeps.clients
  | result cfd value =>
      obtain ⟨⟨p, s'⟩, hresult, hstep⟩ := bind_ok.mp hstep
      cases hstep
      refine World.Reconnects.same hknown ?_ (fun _ he => nomatch he)
        fun a fd he ha => ?_
      · rcases updateJobResult_hands (P := fun _ _ => True) hresult with
          rfl | ⟨c, k, ds, -, hkeeps, -⟩
        · exact SameClients.refl _
        · exact hkeeps.clients
      · cases he
        exact hknown a cfd ha
  | error cfd =>
      obtain ⟨s', hreassign, hstep⟩ := bind_ok.mp hstep
      cases hstep
      refine World.Reconnects.same hknown (hg.reassignJob hb.ok hreassign).1
        (fun _ he => nomatch he)
        fun a fd he ha => ?_
      cases he
      exact hknown a cfd ha
  | disconnect cfd =>
      obtain ⟨s', hreassign, hstep⟩ := bind_ok.mp hstep
      obtain ⟨⟨p, reg⟩, hdel, hstep⟩ := bind_ok.mp hstep
      cases hstep
      have hsame := (hg.reassignJob hb.ok hreassign).1
      have hwell := reassigned_wellFormed hg hb.ok hreassign
      obtain ⟨hknown', hat⟩ := (hknown.same hsame).leave hwell hdel
      have hothers : ∀ a fd, fd ≠ cfd → (reg.At a fd ↔ w.server.reg.At a fd) :=
        fun a fd hfd => by
        rw [hat, Registry.at_same hsame]
        exact and_iff_left hfd
      refine ⟨hknown', fun a fd hfd => hothers a fd fun heq =>
        hfd (by rw [heq]; rfl), fun a fd he ha => ?_,
        fun a fd hfd => (hothers a fd fun heq => hfd (by rw [heq])).mpr,
        fun a fd he ha => ?_⟩
      · cases he
        exact absurd rfl ((hat a cfd).mp ha).2
      · cases he
        exact absurd rfl ((hat a cfd).mp ha).2

theorem World.OnBoard.holder_cell (hb : w.OnBoard b) {k : Nat} {x : Holder}
    (hx : w.server.HasHolder k x) :
    ∃ v, w.server.reg.infos.cell x.client = some v := by
  obtain ⟨g, hg⟩ := hb.server
  obtain ⟨hk, hmem⟩ := hg.hasHolder_iff.mp hx
  obtain ⟨v, hv, -⟩ := hg.cell_of_seat (hb.ok.seated k hk x hmem)
  exact ⟨v, hv⟩

/-- Whom an event comes from has its connection. -/
theorem World.OnBoard.from_at (hb : w.OnBoard b) (h : w.From a e) :
    ∃ cfd, e.cfd = some cfd ∧ w.server.reg.At a cfd := by
  obtain ⟨g, hg⟩ := hb.server
  cases e with
  | join _ _ _ | submit _ _ _ _ _ => exact h.elim
  | result cfd _ | error cfd | disconnect cfd =>
      exact ⟨cfd, rfl, hg.registry.found h⟩

end Events

/-! ## No pieces beside those -/

namespace Board

variable {garbage : Nat → Int} {b b' : Board} {l : Label}

/-- A started job has no pieces but those it was divided into. -/
def Exact (b : Board) : Prop := ∀ p ∈ b.started, ∀ i, i ∉ indexes p.2 →
    b.places p.1 i = 0

/-- A new job has the pieces of its clients only. -/
theorem places_add (hok : b.Ok) {j : Nat} {id r : Int} {hs : List Holder} {ok : Bool}
    (hj : j ∉ b.order) (hid : ∀ k ∈ b.order, (b.job k).id ≠ id) (i : Int) :
    (b.add j ⟨id, r, hs⟩ ok).places j i = (hs.map (·.index)).count i := by
  have hpending : (b.add j ⟨id, r, hs⟩ ok).pending j = [] := by
    rw [pending, add_job_self, List.map_eq_nil_iff, List.filter_eq_nil_iff]
    intro w hw hwj
    obtain ⟨k, hk, hkw⟩ := hok.jids w hw
    exact hid k hk (hkw.trans (beq_iff_eq.mp hwj))
  have hanswered : (b.add j ⟨id, r, hs⟩ ok).answered j = [] := by
    rw [answered, List.filterMap_eq_nil_iff]
    intro t ht
    obtain ⟨ht, htj⟩ := List.mem_filter.mp ht
    exact absurd (beq_iff_eq.mp htj ▸ hok.heard t ht) hj
  rw [places, hpending, hanswered, add_job_self]
  rfl

theorem Step.exact (hs : Step garbage b l b') (hok : b.Ok) (hb : b.Exact)
    (hl : ∀ j, l = .lost j → j ∉ b.started.map (·.1)) : b'.Exact := by
  intro p hp i hi
  by_cases hold : p ∈ b.started
  · rw [hs.places hok (hok.begun p hold)
      (fun h => hl p.1 h (List.mem_map_of_mem hold))]
    exact hb p hold i hi
  · cases hs with
    | @add j id hs ok hj hid _ _ _ hindex =>
        have hp' : p ∈ if ok then (j, hs.length) :: b.started else b.started := hp
        cases ok with
        | false => exact absurd hp' hold
        | true =>
            rcases List.mem_cons.mp hp' with rfl | hp'
            · rw [places_add hok hj hid, (hindex rfl).2]
              exact List.count_eq_zero.mpr hi
            · exact absurd hp' hold
    | stay | join _ | leave _ | handed _ _ _ | freed _ _ _ | lost _ _ | stray _
    | moved _ _ _ _ | queued _ _ _ | queuedAway _ _ _ =>
        exact absurd hp hold

end Board

/-! ## One connection -/

/-- The client at the other end holds a piece of the job at `j`. -/
def World.Holds (w : World) (cfd : Int) (j : Nat) (x : Holder) : Prop :=
  w.server.HasHolder j x ∧ w.server.reg.At x.client cfd

/-- The jobs are there to find maxima, and none of the pieces is lost. -/
structure World.InOrder (config : Config) (w : World) : Prop where
  board : ∃ b, w.OnBoard b ∧ b.Conserves ∧ b.Exact
  config : w.server.config = config
  seeks : ∀ j ∈ w.server.jobList, w.server.Seeks j
  known : w.server.reg.Known

section Turns
variable {supply : JobSupply} {config : Config} {w w' : World} {e : Event}
  {cfd : Int}

/-- A client of the connection is told a piece, in a frame of its own. -/
def World.Tells (w w' : World) (cfd : Int) : Prop :=
  ∃ k d, ∃ p : Packet, w'.Holds cfd k d ∧ p.Names w'.server k d.index ∧
    framesTo cfd (w'.server.sent.drop w.server.sent.length) = [Packet.segment [p]]

theorem World.InOrder.step (h : w.InOrder config) (hfresh : w.FreshId e)
    (hnew : ¬ w.Rejoins e) (hlost : ¬ w.LosesPiece e) (htask : ¬ e.Strange)
    (hstep : w.step supply e = .ok w') : w'.InOrder config := by
  obtain ⟨b, hb, hconserves, hexact⟩ := h.board
  obtain ⟨l, b', hs, hb', hloses, -, -⟩ := hb.step hfresh hstep
  have hkeep : ∀ j, l = .lost j → j ∉ b.started.map (·.1) :=
    fun j hl hj => hlost (hloses j hl hj)
  have hkeeps : ∀ j, KeepsJob j w.server w'.server :=
    fun j => World.step_keepsJob hstep
  refine ⟨⟨b', hb', hs.conserves hb.ok hconserves hkeep,
    hs.exact hb.ok hexact hkeep⟩, (hkeeps 0).config.trans h.config, fun j hj => ?_,
    (hb.reconnects h.known hnew hstep).known⟩
  rcases hb.jobList hstep with ⟨hsame, -⟩ | ⟨n, hadds⟩
  · rw [hsame] at hj
    exact (h.seeks j hj).keeps (hkeeps j)
  · rw [hadds.jobs] at hj
    rcases List.mem_append.mp hj with hj | hj
    · exact (h.seeks j hj).keeps (hkeeps j)
    · rw [List.mem_singleton.mp hj]
      exact hadds.task htask

/-- The frames that an event sends to `cfd`. -/
theorem World.InOrder.frames (h : w.InOrder config) (hc : config.Strings)
    (h' : w'.InOrder config) {j : Nat} {ds : List Holder}
    (hdeals : w.Deals w' e j ds) (cfd : Int) :
    ((∀ d ∈ ds, ¬ w.server.reg.At d.client cfd) ∧
        framesTo cfd (w'.server.sent.drop w.server.sent.length) = []) ∨
      ∃ d ∈ ds, w.server.reg.At d.client cfd ∧ ∃ p : Packet,
      p.Names w'.server j d.index ∧
        framesTo cfd (w'.server.sent.drop w.server.sent.length)
          = [Packet.segment [p]] :=
  hdeals.tells.frames (h'.config.symm ▸ hc) h.known
    (fun d hd => h'.seeks j (hdeals.held d hd).1) hdeals.once cfd

/-- Another connection: whoever holds a piece keeps it and is told nothing, or nobody
held one and a piece is told. -/
theorem World.InOrder.others (h : w.InOrder config) (hc : config.Strings)
    (h' : w'.InOrder config) (hnew : ¬ w.Rejoins e)
    (hstep : w.step supply e = .ok w') (hcfd : e.cfd ≠ some cfd) :
    (framesTo cfd (w'.server.sent.drop w.server.sent.length) = [] ∧
        (∀ k x, w.Holds cfd k x → w'.Holds cfd k x) ∧
        ∀ k x, w'.Holds cfd k x → k ∈ w'.started.map (·.1) →
        w.Holds cfd k x ∧ k ∈ w.started.map (·.1)) ∨
      ((∀ k x, ¬ w.Holds cfd k x) ∧ w.Tells w' cfd) := by
  obtain ⟨b, hb, -⟩ := h.board
  have hconn := hb.reconnects h.known hnew hstep
  obtain ⟨j, ds, hdeals⟩ := hb.deals hstep
  have hfrom : ∀ {a}, w.server.reg.At a cfd → ¬ w.From a e := by
    intro a ha hf
    obtain ⟨fd, he, hat⟩ := hb.from_at hf
    rw [hat.unique ha] at he
    exact hcfd he
  rcases h.frames hc h' hdeals cfd with ⟨hnone, hnil⟩ | ⟨d, hd, hat, p, hp, hframes⟩
  · refine Or.inl ⟨hnil, fun k x hx =>
      ⟨hdeals.kept k x hx.1 (hfrom hx.2), (hconn.others _ _ hcfd).mpr hx.2⟩,
      fun k x hx hk => ?_⟩
    have hat := (hconn.others _ _ hcfd).mp hx.2
    rcases hdeals.after k x hx.1 hk with ⟨-, hd⟩ | ⟨hold, -⟩
    · exact absurd hat (hnone x hd)
    · exact ⟨⟨hold, hat⟩, hb.started_before hstep hk hold.1⟩
  · refine Or.inr ⟨fun k x hx => ?_, j, d, p,
      ⟨hdeals.held d hd, (hconn.others _ _ hcfd).mpr hat⟩, hp, hframes⟩
    rcases hdeals.free d hd with hf | hfree
    · exact hfrom hat hf
    · exact hfree k x hx.1 (h.known.eq hx.2 hat)

/-- The connection that the event comes from: nobody holds a
piece, or one is told. -/
theorem World.InOrder.own (h : w.InOrder config) (hc : config.Strings)
    (h' : w'.InOrder config) (hnew : ¬ w.Rejoins e)
    (hstep : w.step supply e = .ok w') (hcfd : e.cfd = some cfd)
    (hopen : e ≠ .disconnect cfd) :
    (framesTo cfd (w'.server.sent.drop w.server.sent.length) = [] ∧
        ∀ k x, w'.Holds cfd k x → k ∉ w'.started.map (·.1)) ∨ w.Tells w' cfd := by
  obtain ⟨b, hb, -⟩ := h.board
  have hconn := hb.reconnects h.known hnew hstep
  obtain ⟨j, ds, hdeals⟩ := hb.deals hstep
  rcases h.frames hc h' hdeals cfd with ⟨hnone, hnil⟩ | ⟨d, hd, hat, p, hp, hframes⟩
  · refine Or.inl ⟨hnil, fun k x hx hk => ?_⟩
    have hgone : ∀ {v}, w.server.reg.infos.cell x.client = some v →
        w.From x.client e := fun hv => by
      rcases hconn.own _ _ hcfd hx.2 with hf | hfresh
      · exact hf
      · cases hv.symm.trans hfresh
    rcases hdeals.after k x hx.1 hk with ⟨-, hd⟩ | ⟨hold, hno⟩
    · obtain ⟨v, hv⟩ := hdeals.tells.cell hd
      obtain ⟨fd, he, hat⟩ := hb.from_at (hgone hv)
      cases hcfd.symm.trans he
      exact hnone x hd hat
    · obtain ⟨v, hv⟩ := hb.holder_cell hold
      exact hno (hgone hv)
  · exact Or.inr ⟨j, d, p, ⟨hdeals.held d hd, hconn.stays _ _ hopen hat⟩,
      hp, hframes⟩

end Turns

/-! ## What is under way -/

/-- The packets, each in a frame of its own. -/
def Packet.frames (ps : List Packet) : List Bytes :=
  ps.map fun p => Packet.segment [p]

/-- What is under way on the connection, requests and replies: nothing, as long as no
piece of a job that was started is held at the other end; or else the request for the
piece, or its answer. -/
inductive Flight (web : Bytes → Option Bytes) (w : World) (cfd : Int) :
    List Packet → List Bytes → Prop
  | idle {ps : List Packet}
      (hnone : ∀ j x, w.Holds cfd j x → j ∉ w.started.map (·.1))
      (hps : ps.filter Client.IsRequest = []) : Flight web w cfd ps []
  | asked {ps : List Packet} {j : Nat} {x : Holder} {p : Packet}
      (hx : w.Holds cfd j x) (hp : p.Names w.server j x.index)
      (hps : ps.filter Client.IsRequest = [p]) : Flight web w cfd ps []
  | replied {ps : List Packet} {j : Nat} {x : Holder} {p : Packet} {f : Bytes}
      (hx : w.Holds cfd j x)
      (hp : p.Names w.server j x.index) (hps : ps.filter Client.IsRequest = [])
      (hf : Client.Answers web p f) : Flight web w cfd ps [f]

section Flights
variable {web : Bytes → Option Bytes} {supply : JobSupply} {config : Config}
  {w w' : World} {e : Event} {cfd : Int}
  {l : Link web}

/-- Beside the pieces nothing is sent that is a request. -/
def Link.Ok (w : World) (cfd : Int) (l : Link web) : Prop :=
  ∃ ps : List Packet, l.requests = Packet.frames ps ∧ (∀ p ∈ ps, p.Plain) ∧
    Flight web w cfd ps l.replies

/-- No message about a piece is under way. -/
structure Link.Quiet (l : Link web) : Prop where
  replies : l.replies = []
  requests : ∃ ps : List Packet, l.requests = Packet.frames ps ∧
    (∀ p ∈ ps, p.Plain) ∧
    ps.filter Client.IsRequest = []

theorem Packet.Names.keeps {p : Packet} {s s' : Server} {j : Nat} {i : Int}
    (h : p.Names s j i) (hs : s.Seeks j) (hk : KeepsJob j s s') : p.Names s' j i :=
  ⟨h.plain, h.request, h.path.trans (hs.pathOf hk i).symm⟩

/-- A packet is sent behind those that are under way. -/
theorem Packet.frames_append (ps qs : List Packet) :
    Packet.frames (ps ++ qs) = Packet.frames ps ++ Packet.frames qs :=
  List.map_append

theorem plain_behind {ps : List Packet} {p : Packet} (hp : p.Plain)
    (hplain : ∀ p ∈ ps, p.Plain) :
    ∀ q ∈ ps ++ [p], q.Plain := by
  intro q hq
  rcases List.mem_append.mp hq with hq | hq
  · exact hplain q hq
  · rwa [List.mem_singleton.mp hq]

/-- A client that nothing is asked of is told a piece. -/
theorem Link.Quiet.told (h : l.Quiet) (htells : w.Tells w' cfd) :
    (l.after w w' cfd).Ok w' cfd := by
  obtain ⟨ps, hrequests, hplain, hnone⟩ := h.requests
  obtain ⟨k, d, p, hd, hp, hframes⟩ := htells
  refine ⟨ps ++ [p], ?_, plain_behind hp.plain hplain, ?_⟩
  · rw [Link.after, hframes, hrequests, Packet.frames_append]
    rfl
  · show Flight web w' cfd _ l.replies
    rw [h.replies]
    refine .asked hd hp ?_
    rw [List.filter_append, hnone, List.nil_append,
      List.filter_cons_of_pos hp.request, List.filter_nil]

theorem Link.Quiet.idle (h : l.Quiet)
    (hnone : ∀ k x, w.Holds cfd k x → k ∉ w.started.map (·.1)) :
    l.Ok w cfd := by
  obtain ⟨ps, hrequests, hplain, hps⟩ := h.requests
  refine ⟨ps, hrequests, hplain, ?_⟩
  rw [h.replies]
  exact .idle hnone hps

/-- Where nobody holds a piece nothing is under way. -/
theorem Link.Ok.quiet (h : l.Ok w cfd) (hnone : ∀ k x, ¬ w.Holds cfd k x) :
    l.Quiet := by
  obtain ⟨ps, hrequests, hplain, hflight⟩ := h
  have hquiet : l.replies = [] ∧ ps.filter Client.IsRequest = [] := by
    generalize l.replies = rs at hflight
    cases hflight with
    | idle _ hps => exact ⟨rfl, hps⟩
    | asked hx _ _ | replied hx _ _ _ => exact absurd hx (hnone _ _)
  exact ⟨hquiet.1, ps, hrequests, hplain, hquiet.2⟩

/-- An event that comes from somewhere else. -/
theorem Link.Ok.others (h : l.Ok w cfd) (hw : w.InOrder config) (hc : config.Strings)
    (hw' : w'.InOrder config) (hnew : ¬ w.Rejoins e)
    (hstep : w.step supply e = .ok w') (hcfd : e.cfd ≠ some cfd) :
    (l.after w w' cfd).Ok w' cfd := by
  rcases hw.others hc hw' hnew hstep hcfd with ⟨hnil, hkept, hback⟩ | ⟨hnone, htells⟩
  · have hnames : ∀ {p : Packet} {j : Nat} {x : Holder}, w.Holds cfd j x →
        p.Names w.server j x.index →
        p.Names w'.server j x.index := fun hx hp =>
      hp.keeps (hw.seeks _ hx.1.1) (World.step_keepsJob hstep)
    obtain ⟨ps, hrequests, hplain, hflight⟩ := h
    refine ⟨ps, ?_, hplain, ?_⟩
    · rw [Link.after, hnil, List.append_nil]
      exact hrequests
    · show Flight web w' cfd _ l.replies
      generalize l.replies = rs at hflight
      cases hflight with
      | idle hidle hps =>
          exact .idle (fun j x hx hj => hidle j x (hback j x hx hj).1
            (hback j x hx hj).2) hps
      | asked hx hp hps => exact .asked (hkept _ _ hx) (hnames hx hp) hps
      | replied hx hp hps hf => exact .replied (hkept _ _ hx) (hnames hx hp) hps hf
  · exact (h.quiet hnone).told htells

/-- An event that comes from this connection, when nothing
else is under way on it. -/
theorem Link.Quiet.own (h : l.Quiet) (hw : w.InOrder config) (hc : config.Strings)
    (hw' : w'.InOrder config) (hnew : ¬ w.Rejoins e)
    (hstep : w.step supply e = .ok w') (hcfd : e.cfd = some cfd)
    (hopen : e ≠ .disconnect cfd) :
    (l.after w w' cfd).Ok w' cfd := by
  rcases hw.own hc hw' hnew hstep hcfd hopen with ⟨hnil, hidle⟩ | htells
  · rw [Link.after, hnil, List.append_nil]
    exact Link.Quiet.idle h hidle
  · exact h.told htells

end Flights

end Pyramid
