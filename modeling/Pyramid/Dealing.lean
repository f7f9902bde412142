/-
# `Pyramid.Dealing` — an event deals pieces

What an event sends, and how it changes who holds what, is put together: the
new holders are those who are told, nobody else gets a piece, and only the
client that the event comes from has to give one away (`World.OnBoard.deals`).
-/
import Pyramid.Holders
import Pyramid.PieceNames

namespace Pyramid

/-- The client at `c` is the one that is found for the connection of the event. -/
def World.From (w : World) (c : Nat) : Event → Prop
  | .result cfd _ | .error cfd | .disconnect cfd =>
      serverSearchClientFd w.server.reg (serverGetClientInfoHead cfd) cfd
        = .ok (some c)
  | .join _ _ _ | .submit _ _ _ _ _ => False

/-- Between `s` and `s'` the frames of the pieces `ds` of the job at `j` are sent, in
this order; clients are as in `s`. -/
def Server.TellsAll (s s' : Server) (j : Nat) (ds : List Holder) : Prop :=
  ∃ fss, List.Forall₂
      (fun (d : Holder) fs =>
        ({ s' with reg := s.reg } : Server).pieceFrames j d.client d.index
          = .ok fs) ds fss ∧
    s'.sent = s.sent ++ fss.flatten

/-- Between `s` and `s'` the pieces `ds` of the job at `j` are sent to clients that
hold none, or that `own` says give theirs away; and then these are held by them. -/
structure Dealt (s s' : Server) (own : Nat → Prop) (j : Nat)
    (ds : List Holder) : Prop where
  tells : s.TellsAll s' j ds
  once : (ds.map (·.client)).Nodup
  free : ∀ d ∈ ds, own d.client ∨ ∀ k x, s.HasHolder k x → x.client ≠ d.client
  after : ∀ k x, s'.HasHolder k x ↔
    (k = j ∧ x ∈ ds) ∨ (s.HasHolder k x ∧ ¬ own x.client)

section Dealing
variable {supply : JobSupply} {s s' : Server} {b b' : Board} {g g' : Layout}
  {j : Nat} {ds : List Holder}
  {own : Nat → Prop}

theorem Server.TellsAll.nothing (h : s'.sent = s.sent) : s.TellsAll s' j [] :=
  ⟨[], List.Forall₂.nil, by rw [h, List.flatten_nil, List.append_nil]⟩

theorem Hands.tellsAll {P : Nat → Nat → Prop} {s₀ : Server}
    (hhands : Hands s s' j ds) (hk : Keeps P s₀ s') (hreg : s₀.reg = s.reg) :
    s.TellsAll s' j ds := by
  obtain ⟨fss, hfss, hsent⟩ := hhands
  refine ⟨fss, hfss.imp fun d fs hfs => ?_, hsent⟩
  obtain ⟨ci', hci', hrest⟩ := bind_ok.mp hfs
  obtain ⟨a, ha, hcell'⟩ := Heap.load_ok.mp hci'
  cases ha
  obtain ⟨ci, hcell, -⟩ := hk.given _ _ hcell'
  obtain ⟨ci'', hcell'', hsame⟩ := hk.clients.cell hcell
  cases hcell'.symm.trans hcell''
  have hcfd : ci'.cfd = ci.cfd := congrArg (fun u => u.cfd) hsame
  have hcell₀ : s.reg.infos.cell d.client = some ci := hreg ▸ hcell
  rw [hcfd] at hrest
  rw [Server.pieceFrames, Heap.load_some hcell₀, ok_bind]
  exact hrest

theorem Shows.hasHolder_iff (h : Shows s b g) {k : Nat} {x : Holder} :
    s.HasHolder k x ↔ k ∈ b.order ∧ x ∈ (b.job k).holders := by
  rw [Server.HasHolder, h.jobList_eq]
  refine and_congr_right fun hk => ?_
  rw [h.held_eq hk, List.mem_map]
  constructor
  · rintro ⟨y, hy, heq⟩
    obtain ⟨hclient, hindex⟩ := Prod.mk.inj heq
    cases x
    cases y
    cases Option.some.inj hclient
    cases hindex
    exact hy
  · exact fun hx => ⟨x, hx, rfl⟩

/-- Whoever holds a piece of a job was given that job last. -/
theorem Shows.assigned (h : Shows s b g) (hok : b.Ok) {cfd : Int} {c k : Nat}
    {x : Holder}
    (hfound : serverSearchClientFd s.reg (serverGetClientInfoHead cfd) cfd
      = .ok (some c))
    (hx : s.HasHolder k x) (hxc : x.client = c) : s.assigned cfd = some (c, k) := by
  obtain ⟨hk, hmem⟩ := h.hasHolder_iff.mp hx
  have hseat := hok.seated k hk x hmem
  rw [hxc] at hseat
  obtain ⟨v, hv, -, hjn⟩ := h.cell_of_seat hseat
  rw [Server.assigned_of_cell hfound hv, hjn]
  rfl

/-- Nothing changes. -/
theorem Dealt.nothing (hsent : s'.sent = s.sent)
    (hheld : ∀ k x, s'.HasHolder k x ↔ s.HasHolder k x)
    (hown : ∀ k x, s.HasHolder k x → ¬ own x.client) (j : Nat) :
    Dealt s s' own j [] := by
  refine ⟨Server.TellsAll.nothing hsent, List.nodup_nil,
    fun d hd => absurd hd List.not_mem_nil, fun k x => ?_⟩
  rw [hheld]
  constructor
  · exact fun hx => Or.inr ⟨hx, hown k x hx⟩
  · rintro (⟨-, hx⟩ | ⟨hx, -⟩)
    · exact absurd hx List.not_mem_nil
    · exact hx

/-- The pieces of one job change hands. -/
theorem Shows.dealt (h : Shows s b g) (h' : Shows s' b' g') (hok : b.Ok) {c : Nat}
    {view : JobView} (hj : j ∈ b.order) (horder : b'.order = b.order)
    (hjob : b'.job = put b.job j view)
    (hown : ∀ k ∈ b.order, ∀ x ∈ (b.job k).holders, (own x.client ↔ x.client = c) ∧
      (x.client = c → k = j))
    (htells : s.TellsAll s' j ds) (hlen : ds.length ≤ 1)
    (hfree : ∀ d ∈ ds, own d.client ∨ ∃ jn, b.seat d.client = some ⟨false, jn⟩)
    (hview : ∀ x, x ∈ view.holders ↔
      x ∈ ds ∨ (x ∈ (b.job j).holders ∧ x.client ≠ c)) :
    Dealt s s' own j ds := by
  refine ⟨htells, ?_, fun d hd => (hfree d hd).imp_right ?_, fun k x => ?_⟩
  · match ds, hlen with
    | [], _ => exact List.nodup_nil
    | [d], _ => exact List.nodup_singleton _
  · rintro ⟨jn, hseat⟩ k x hx
    obtain ⟨hk, hmem⟩ := h.hasHolder_iff.mp hx
    exact hok.not_holder_of_idle hseat hk hmem
  rw [h.hasHolder_iff, h'.hasHolder_iff, horder, hjob]
  by_cases hkj : k = j
  · rw [hkj, put_self, hview]
    constructor
    · rintro ⟨-, hx | ⟨hx, hne⟩⟩
      · exact Or.inl ⟨rfl, hx⟩
      · exact Or.inr ⟨⟨hj, hx⟩, fun ho => hne (((hown j hj x hx).1).mp ho)⟩
    · rintro (⟨-, hx⟩ | ⟨⟨-, hx⟩, hno⟩)
      · exact ⟨hj, Or.inl hx⟩
      · exact ⟨hj, Or.inr ⟨hx, fun heq => hno (((hown j hj x hx).1).mpr heq)⟩⟩
  · rw [put_ne _ hkj]
    constructor
    · rintro ⟨hk, hx⟩
      exact Or.inr ⟨⟨hk, hx⟩, fun ho =>
        hkj ((hown k hk x hx).2 (((hown k hk x hx).1).mp ho))⟩
    · rintro (⟨heq, -⟩ | ⟨hx, -⟩)
      · exact absurd heq hkj
      · exact hx

theorem Server.assigned_found {cfd : Int} {c : Nat}
    (h : s.assigned cfd = some (c, j)) :
    serverSearchClientFd s.reg (serverGetClientInfoHead cfd) cfd = .ok (some c) := by
  rw [Server.assigned] at h
  split at h
  · rename_i d hd
    split at h
    · obtain ⟨k, -, heq⟩ := Option.map_eq_some_iff.mp h
      cases heq
      exact hd
    · cases h
  · cases h

/-- Only the client found for the connection is concerned, and only for the job it
was given. -/
theorem Shows.concerned (h : Shows s b g) (hok : b.Ok) {cfd : Int} {c : Nat}
    (hassigned : s.assigned cfd = some (c, j))
    (hown : ∀ d, own d ↔ serverSearchClientFd s.reg (serverGetClientInfoHead cfd) cfd
      = .ok (some d)) :
    ∀ k ∈ b.order, ∀ x ∈ (b.job k).holders, (own x.client ↔ x.client = c) ∧
      (x.client = c → k = j) := by
  have hfound := Server.assigned_found hassigned
  intro k hk x hx
  refine ⟨?_, fun hxc => ?_⟩
  · rw [hown, hfound]
    constructor
    · intro heq
      cases heq
      rfl
    · intro heq
      rw [heq]
  · cases hassigned.symm.trans
      (h.assigned hok hfound (h.hasHolder_iff.mpr ⟨hk, hx⟩) hxc)
    rfl

/-- A client with a node in the list gives the piece of its node away, and gets
another one. -/
theorem mem_handed {pre post : List Holder} {c : Nat} {i w : Int}
    (hne : ∀ x ∈ pre ++ post, x.client ≠ c) (x : Holder) :
    x ∈ pre ++ ⟨c, w⟩ :: post ↔ x ∈ [(⟨c, w⟩ : Holder)]
      ∨ (x ∈ pre ++ ⟨c, i⟩ :: post ∧ x.client ≠ c) := by
  simp only [List.mem_append, List.mem_cons, List.not_mem_nil, or_false]
  constructor
  · rintro (hx | hx | hx)
    · exact Or.inr ⟨Or.inl hx, hne x (List.mem_append_left _ hx)⟩
    · exact Or.inl hx
    · exact Or.inr ⟨Or.inr (Or.inr hx), hne x (List.mem_append_right _ hx)⟩
  · rintro (hx | ⟨hx | rfl | hx, hxc⟩)
    · exact Or.inr (Or.inl hx)
    · exact Or.inl hx
    · exact absurd rfl hxc
    · exact Or.inr (Or.inr hx)

theorem mem_freed {pre post : List Holder} {c : Nat} {i : Int}
    (hne : ∀ x ∈ pre ++ post, x.client ≠ c) (x : Holder) :
    x ∈ pre ++ post ↔ x ∈ pre ++ ⟨c, i⟩ :: post ∧ x.client ≠ c := by
  constructor
  · exact fun hx => ⟨mem_of_removed hx, hne x hx⟩
  · rintro ⟨hx, hxc⟩
    rcases List.mem_append.mp hx with hx | hx
    · exact List.mem_append_left _ hx
    · rcases List.mem_cons.mp hx with rfl | hx
      · exact absurd rfl hxc
      · exact List.mem_append_right _ hx

/-! ## The functions of `jobs.c` -/

theorem assignPendingJob_found {cn c n : Nat} {p : Bool}
    (hnode : getClientNode s j c = .ok (some n))
    (hr : assignPendingJob s j cn c = .ok (p, s')) : p = true := by
  rw [assignPendingJob, hnode, ok_bind] at hr
  obtain ⟨v, -, hr⟩ := bind_ok.mp hr
  obtain ⟨nodes, -, hr⟩ := bind_ok.mp hr
  obtain ⟨nodes', -, hr⟩ := bind_ok.mp hr
  obtain ⟨w, -, hr⟩ := bind_ok.mp hr
  obtain ⟨ci, -, hr⟩ := bind_ok.mp hr
  obtain ⟨jv, -, hr⟩ := bind_ok.mp hr
  obtain ⟨t, -, hr⟩ := bind_ok.mp hr
  obtain ⟨s₁, -, hr⟩ := bind_ok.mp hr
  cases hr
  rfl

theorem updateJobResult_dealt (h : Shows s b g) (hok : b.Ok) {cfd : Int}
    {value : Bytes} {p : Bool}
    (hown : ∀ d, own d ↔ serverSearchClientFd s.reg (serverGetClientInfoHead cfd) cfd
      = .ok (some d))
    (hr : updateJobResult s cfd value = .ok (p, s')) :
    ∃ j ds, Dealt s s' own j ds := by
  rcases updateJobResult_cases hr with
    ⟨rfl, hnone⟩ | ⟨c, j, s₁, jobs, s₂, cn, s₃, hassigned, ⟨ci, hcell, hjn⟩, hlock,
      hjobs, hunlock, hdequeue, hcases⟩
  · refine ⟨0, [], Dealt.nothing rfl (fun _ _ => Iff.rfl) (fun k x hx ho => ?_) 0⟩
    cases hnone.symm.trans (h.assigned hok ((hown _).mp ho) hx rfl)
  have hconcerned := h.concerned hok hassigned hown
  have hfound := Server.assigned_found hassigned
  obtain ⟨hkeeps₁, hsilent₁⟩ := lockMutex_keeps (P := fun _ _ => True) hlock
  have hmax : Keeps (fun _ _ => True) s₁ { s₁ with jobs := jobs } :=
    Keeps.setJob hjobs fun v => by
    rw [keepMax_eq]
    exact ⟨rfl, rfl⟩
  obtain ⟨hkeeps₂, hsilent₂⟩ := unlockMutex_keeps (P := fun _ _ => True) hunlock
  obtain ⟨hkeeps₃, hsent₃⟩ := dequeuePendingJob_keeps (P := fun _ _ => True) hdequeue
  have hkeeps := ((hkeeps₁.trans hmax).trans hkeeps₂).trans hkeeps₃
  have hsent : s₃.sent = s.sent := hsent₃.trans (hsilent₂.sent.trans hsilent₁.sent)
  have hseat := h.seat_of_cell hcell
  have hj : j ∈ b.order := hok.known c _ j hseat hjn
  have hstop : g.stop j = none := h.stops c _ j hseat hjn
  obtain ⟨-, h₂⟩ := h.merge hj rfl hlock hjobs hunlock
  rcases h₂.dequeue hj (put_self _ _ _) hdequeue with
    ⟨rfl, rfl, hnone⟩ | ⟨d, v, wpre, wpost, rfl, -, hws, -, xs, h₃, hloose⟩
  · -- nothing waits for the job: the client is free, or it held nothing
    rcases hcases with ⟨a, q, ha, -⟩ | ⟨v, -, -, hfree⟩
    · cases ha
    have hsent' : s'.sent = s.sent :=
      (freeClient_keeps (P := fun _ _ => True) hfree).2.sent.trans hsent
    have hwait : ∀ {wpre wpost : List Waiting} {w : Int},
        b.waiting ≠ wpre ++ ⟨(b.job j).id, w⟩ :: wpost := by
      intro wpre wpost w heq
      exact hnone ⟨(b.job j).id, w⟩ (by show _ ∈ b.waiting; rw [heq]; simp) rfl
    rcases h.updateJobResult hok hr with ⟨-, heq⟩ | ⟨c', j', g', heq, -, hshape⟩
    · cases heq.symm.trans hassigned
    cases heq.symm.trans hassigned
    rcases hshape with ⟨i, w, pre, post, _, _, -, hw, -⟩ | ⟨w, _, _, -, hw, -⟩ | ⟨i,
      pre, post, hc, -, hshow⟩ |
      ⟨hc, -, hshow⟩
    · exact absurd hw hwait
    · exact absurd hw hwait
    · refine ⟨j, [], h.dealt hshow hok hj rfl rfl hconcerned
        (Server.TellsAll.nothing hsent') (Nat.zero_le _)
        (fun d hd => absurd hd List.not_mem_nil) fun x => ?_⟩
      rw [hc, mem_freed (i := i) (fun x hx => hok.client_ne hj hc hx)]
      exact (or_iff_right List.not_mem_nil).symm
    · refine ⟨j, [], h.dealt hshow hok hj rfl rfl hconcerned
        (Server.TellsAll.nothing hsent') (Nat.zero_le _)
        (fun d hd => absurd hd List.not_mem_nil) fun x => ?_⟩
      rw [or_iff_right List.not_mem_nil]
      exact ⟨fun hx => ⟨hx, hc x hx⟩, fun hx => hx.1⟩
  · -- a piece waits, and is given to the client if it holds one
    rcases hcases with ⟨a, q, ha, hassign⟩ | ⟨u, hu, -⟩
    case inr => cases hu
    cases ha
    rcases assignPendingJob_ok hassign with
      ⟨hnode, rfl⟩ | ⟨n, u, x, nodes, sent, hnode, -⟩
    · rcases h₃.getClientNode hj (put_self _ _ _) hstop hnode with
        ⟨-, hc⟩ | ⟨_, _, _, _, _, _, -, heq, -⟩
      case inr => cases heq
      refine ⟨j, [], h.dealt h₃ hok hj rfl rfl hconcerned
        (Server.TellsAll.nothing hsent) (Nat.zero_le _)
        (fun d hd => absurd hd List.not_mem_nil) fun x => ?_⟩
      rw [or_iff_right List.not_mem_nil]
      exact ⟨fun hx => ⟨hx, hc x hx⟩, fun hx => hx.1⟩
    rcases h₃.getClientNode hj (put_self _ _ _) hstop hnode with
      ⟨heq, -⟩ | ⟨_, _, _, y, hpre, hpost, -, -, -, -, hc, -⟩
    · cases heq
    obtain ⟨-, hshape⟩ := h₃.assignPending hj (put_self _ _ _) hstop
      ⟨hloose.cell, hloose.list, hloose.queue⟩ hassign
    rcases hshape with ⟨-, hnot⟩ | ⟨i, pre, post, hc, hshow⟩
    · refine absurd rfl (hnot ⟨c, y.index⟩ ?_)
      rw [hc]
      simp
    obtain ⟨hkeeps₄, ⟨hq, -⟩ | ⟨u', hu', hhands⟩⟩ :=
      assignPendingJob_hands (P := fun _ _ => True) hassign
    · cases hq.symm.trans (assignPendingJob_found hnode hassign)
    cases hu'.symm.trans hloose.cell
    refine ⟨j, [⟨c, v.index⟩], h.dealt hshow hok hj rfl (put_put _ _ _ _) hconcerned
      ((hhands.before hsent).tellsAll (hkeeps.trans hkeeps₄) rfl) (Nat.le_refl _)
      (fun d hd => Or.inl ?_)
      fun x => ?_⟩
    · rw [List.mem_singleton.mp hd]
      exact (hown c).mpr hfound
    · rw [hc]
      exact mem_handed (fun x hx => hok.client_ne hj hc hx) x

theorem reassignJob_dealt (h : Shows s b g) (hok : b.Ok) {cfd : Int}
    (hown : ∀ d, own d ↔ serverSearchClientFd s.reg (serverGetClientInfoHead cfd) cfd
      = .ok (some d))
    (hr : reassignJob supply s cfd = .ok s') : ∃ j ds, Dealt s s' own j ds := by
  rcases reassignJob_cases hr with ⟨rfl, hnot⟩ | ⟨c, j, old, idle, hold, hcases⟩
  · refine ⟨0, [], Dealt.nothing rfl (fun _ _ => Iff.rfl) (fun k x hx ho => ?_) 0⟩
    -- a client that holds a piece has a node
    obtain ⟨ci, hcell, hnode⟩ := hnot _ ((hown _).mp ho)
    obtain ⟨hk, hmem⟩ := h.hasHolder_iff.mp hx
    have hseat := (h.seat_of_cell hcell).symm.trans (hok.seated k hk x hmem)
    have hjn : ci.jn = some k := congrArg Seat.jn (Option.some.inj hseat)
    rcases h.getClientNode hk rfl (h.stops _ _ k (h.seat_of_cell hcell) hjn)
      (hnode k hjn) with
      ⟨-, hnone⟩ | ⟨_, _, _, _, _, _, -, heq, -⟩
    · exact hnone x hmem rfl
    · cases heq
  have hconcerned := h.concerned hok hold.assigned hown
  obtain ⟨hj, hstop, pre, post, v, hpre, hpost, hnodes, hv, hhs, h₁, h₂, hlen⟩ :=
    h.holding hok hold
  rcases hcases with ⟨-, hqueue⟩ | ⟨w, rfl, hmove⟩
  · obtain ⟨-, -, g', hshow⟩ := h.queuePiece hj rfl hstop hnodes hv hhs h₁ h₂ hqueue
    have hsent : s'.sent = s.sent :=
      (queuePiece_keeps (P := fun _ _ => True) hqueue).2
    refine ⟨j, [], h.dealt hshow hok hj rfl rfl hconcerned
      (Server.TellsAll.nothing hsent) (Nat.zero_le _)
      (fun d hd => absurd hd List.not_mem_nil) fun x => ?_⟩
    rw [hhs, mem_freed (i := v.index) (fun x hx => hok.client_ne hj hhs hx)]
    exact (or_iff_right List.not_mem_nil).symm
  · obtain ⟨jn, hseat⟩ := h.idle_seat hold
    obtain ⟨-, g', hshow⟩ := h.movePiece hok hj rfl hnodes hhs hlen hseat hmove
    obtain ⟨hkeeps, -, hhands⟩ :=
      movePiece_hands (P := fun _ _ => True) hv trivial hmove
    refine ⟨j, [⟨w, v.index⟩], h.dealt hshow hok hj rfl rfl hconcerned
      (hhands.tellsAll hkeeps rfl) (Nat.le_refl _)
      (fun d hd => Or.inr ⟨jn, ?_⟩) fun x => ?_⟩
    · rw [List.mem_singleton.mp hd]
      exact hseat
    · rw [hhs, List.mem_append, mem_freed
        (i := v.index) (fun x hx => hok.client_ne hj hhs hx)]
      exact or_comm

/-- Who holds a piece once a job is in the list that was not. -/
theorem Shows.hasHolder_new (h : Shows s b g) (h' : Shows s' b' g') {n : Nat}
    {v : JobView} (horder : b'.order = b.order ++ [n])
    (hjob : ∀ k, b'.job k = put b.job n v k) (hn : n ∉ b.order) (k : Nat)
    (x : Holder) : s'.HasHolder k x ↔ (k = n ∧ x ∈ v.holders) ∨ s.HasHolder k x := by
  rw [h.hasHolder_iff, h'.hasHolder_iff, horder, hjob, List.mem_append,
    List.mem_singleton]
  by_cases hkn : k = n
  · rw [hkn, put_self]
    exact ⟨fun hx => Or.inl ⟨rfl, hx.2⟩,
      fun hx => hx.elim (fun hx => ⟨Or.inr rfl, hx.2⟩) fun hx => absurd hx.1 hn⟩
  · rw [put_ne _ hkn, or_iff_left hkn, or_iff_right fun hx => hkn hx.1]

/-- A job that was started is with clients that held nothing.  A job that was not may
be with clients as well, but these are told nothing. -/
theorem initJob_dealt (h : Shows s b g) (hok : b.Ok)
    {groupId jobId taskType system : Int} {inputFile : Bytes} {started : Bool}
    (hr : initJob supply s groupId jobId taskType inputFile system
      = .ok (started, s')) :
    (started = false ∧ s'.sent = s.sent ∧
      (∀ k x, s.HasHolder k x → s'.HasHolder k x) ∧
        ∀ k x, s'.HasHolder k x → s.HasHolder k x ∨ k ∉ b.order) ∨
      started = true ∧ ∃ j ds, Dealt s s' (fun _ => False) j ds := by
  rcases initJob_cases hr with ⟨-, rfl, rfl⟩ | ⟨task, tasks, j, s₁, s₂, v,
    hinit, hcases⟩
  · exact Or.inl ⟨rfl, rfl, fun _ _ hx => hx, fun _ _ hx => Or.inl hx⟩
  have h₀ : Shows { s with tasks := tasks } b g :=
    h.of_eq rfl rfl rfl rfl rfl rfl rfl
  obtain ⟨m, x, hm, hn, -, -, hreg₁, g₁, h₁⟩ := h₀.addJob hok hinit.added
  cases hm
  obtain ⟨k, m, stop, r, hk, -, hbuilt, hkeeps₁, -, hsent₁, -, u, hu, htask⟩ :=
    addJob_built hinit.added
  cases hk
  obtain ⟨cgh, -, hreserve⟩ := hinit.reserved
  have hmem : j ∈ b.order ++ [j] :=
    List.mem_append_right _ (List.mem_singleton_self j)
  obtain ⟨hs, g₂, hnodup, hidle, -, -, hstop, h₂⟩ :=
    Shows.reserveClients h₁ hmem (put_self _ _ _) hreserve
  obtain ⟨xs, stop', hs', -, -, -, hkeeps₂, hsilent⟩ := hbuilt.reserve hreserve
  have hsent₂ : s₂.sent = s.sent := hsilent.sent.trans hsent₁
  have hput : ∀ (w w' : JobView) k, put (put b.job j w) j w' k = put b.job j w' k :=
    fun w w' k =>
    congrFun (put_put _ _ _ _) k
  -- without a frame the new job is all that the lists have more
  have hidleJob : ∀ {t : Server} {b' : Board} {g' : Layout} {w : JobView},
      Shows t b' g' →
      b'.order = b.order ++ [j] → (∀ k, b'.job k = put b.job j w k) →
      (∀ k x, s.HasHolder k x → t.HasHolder k x) ∧
        ∀ k x, t.HasHolder k x → s.HasHolder k x ∨ k ∉ b.order := by
    intro t b' g' w ht horder hjob
    have hiff := h.hasHolder_new ht horder hjob hn
    refine ⟨fun k x hx => (hiff k x).mpr (Or.inr hx), fun k x hx => ?_⟩
    rcases (hiff k x).mp hx with ⟨rfl, -⟩ | hx
    · exact Or.inr hn
    · exact Or.inl hx
  rcases hcases with ⟨rfl, -, rfl⟩ | ⟨hzero, commands, ⟨rfl, -, rfl⟩ | hassign⟩
  · exact Or.inl ⟨rfl, hsent₂, hidleJob h₂ rfl (hput _ _)⟩
  · have h₃ : Shows { s₂ with commands := commands } _ g₂ :=
      h₂.of_eq rfl rfl rfl rfl rfl rfl rfl
    exact Or.inl ⟨rfl, hsent₂, hidleJob h₃ rfl (hput _ _)⟩
  obtain ⟨v', hv', -, htask'⟩ := hkeeps₂.jobs j u hu
  cases hinit.job.symm.trans hv'
  have h₃ : Shows { s₂ with commands := commands } _ g₂ :=
    h₂.of_eq rfl rfl rfl rfl rfl rfl rfl
  have hbuilt₃ := h₃.built hmem (put_self _ _ _)
  obtain ⟨w, hw, hwj⟩ := hbuilt₃.job
  cases hinit.job.symm.trans hw
  have hne : hs ≠ [] := by
    rintro rfl
    exact hzero hwj.count
  obtain ⟨-, hkeeps₄, hhands⟩ :=
    hbuilt₃.assign (P := fun _ _ => True) (hstop (Or.inl hne)) hinit.job
    (htask'.trans htask) hassign
  obtain ⟨rfl, -, h₄⟩ :=
    h₃.assignJob hmem (put_self _ _ _) (hstop (Or.inl hne)) hassign
  have hbefore : Keeps (fun _ _ => True) { s with tasks := tasks } { s₂ with
      commands := commands } :=
    (hkeeps₁.mono fun _ _ hno => hno.elim).trans
      ((hkeeps₂.mono fun _ _ _ => trivial).trans (Keeps.of_eq rfl rfl rfl rfl))
  refine Or.inr ⟨rfl, j, reindex 0 hs,
    (hhands.before hsent₂).tellsAll (hbefore.trans hkeeps₄) rfl, ?_,
    fun d hd => Or.inr fun k x hx => ?_, fun k x => ?_⟩
  · rw [reindex_clients]
    exact hnodup
  · obtain ⟨hk, hx⟩ := h.hasHolder_iff.mp hx
    have hdc := List.mem_map_of_mem (f := Holder.client) hd
    rw [reindex_clients] at hdc
    obtain ⟨y, hy, hyd⟩ := List.mem_map.mp hdc
    obtain ⟨jn, hseat⟩ := hidle y hy
    rw [← hyd]
    exact hok.not_holder_of_idle hseat hk hx
  · have hiff :=
      h.hasHolder_new h₄ rfl
        (congrFun ((put_put _ _ _ _).trans (put_put _ _ _ _))) hn k x
    rw [hiff, and_iff_left not_false]
    exact Iff.rfl

end Dealing

/-! ## The events -/

/-- What an event does with the pieces of the jobs that were started. -/
structure World.Deals (w w' : World) (e : Event) (j : Nat)
    (ds : List Holder) : Prop where
  tells : w.server.TellsAll w'.server j ds
  once : (ds.map (·.client)).Nodup
  free : ∀ d ∈ ds, w.From d.client e ∨ ∀ k x, w.server.HasHolder k x →
    x.client ≠ d.client
  held : ∀ d ∈ ds, w'.server.HasHolder j d
  kept : ∀ k x, w.server.HasHolder k x → ¬ w.From x.client e →
    w'.server.HasHolder k x
  after : ∀ k x, w'.server.HasHolder k x → k ∈ w'.started.map (·.1) →
    (k = j ∧ x ∈ ds) ∨ (w.server.HasHolder k x ∧ ¬ w.From x.client e)

section Events
variable {supply : JobSupply} {w w' : World} {b : Board} {e : Event} {j : Nat}
  {ds : List Holder}

theorem Dealt.deals {own : Nat → Prop} (h : Dealt w.server w'.server own j ds)
    (hown : ∀ c, own c ↔ w.From c e) : w.Deals w' e j ds := by
  refine ⟨h.tells, h.once, fun d hd => (h.free d hd).imp_left (hown _).mp,
    fun d hd => (h.after j d).mpr (Or.inl ⟨rfl, hd⟩), fun k x hx hno => ?_,
    fun k x hx _ => ?_⟩
  · exact (h.after k x).mpr (Or.inr ⟨hx, fun ho => hno ((hown _).mp ho)⟩)
  · exact ((h.after k x).mp hx).imp_right fun hold =>
      ⟨hold.1, fun hf => hold.2 ((hown _).mpr hf)⟩

/-- The client that leaves is taken out of the tables when its
piece has been dealt. -/
theorem Dealt.leave {s s' : Server} {own : Nat → Prop} {reg : Registry}
    (h : Dealt s s' own j ds) :
    Dealt s { s' with reg := reg } own j ds := ⟨h.tells, h.once, h.free, h.after⟩

/-- **An event deals pieces.**  It sends pieces of one job, to clients that hold none
or to the one it comes from, and these hold them then; who else holds a piece of a
started job held it before. -/
theorem World.OnBoard.deals (hb : w.OnBoard b) (hstep : w.step supply e = .ok w') :
    ∃ j ds, w.Deals w' e j ds := by
  obtain ⟨g, hg⟩ := hb.server
  cases e with
  | join cfd sa gids =>
      obtain ⟨⟨p, reg⟩, -, hstep⟩ := bind_ok.mp hstep
      cases hstep
      have hdealt : Dealt w.server w.server (fun _ => False) 0 [] :=
        Dealt.nothing rfl (fun _ _ => Iff.rfl) (fun _ _ _ => id) 0
      refine ⟨0, [], Dealt.deals ?_ fun _ => Iff.rfl⟩
      exact hdealt.leave
  | submit groupId jobId taskType inputFile system =>
      obtain ⟨⟨started, s'⟩, hinit, hstep⟩ := bind_ok.mp hstep
      cases hstep
      rcases initJob_dealt hg hb.ok hinit with
        ⟨rfl, hsent, hkept, hnew⟩ | ⟨rfl, j, ds, hdealt⟩
      · refine ⟨0, [], Server.TellsAll.nothing hsent, List.nodup_nil,
          fun d hd => absurd hd List.not_mem_nil,
          fun d hd => absurd hd List.not_mem_nil, fun k x hx _ => hkept k x hx,
          fun k x hx hk => ?_⟩
        obtain ⟨p, hp, rfl⟩ := List.mem_map.mp hk
        refine Or.inr ⟨(hnew _ x hx).resolve_right fun hnot =>
          hnot (hb.ok.begun p ?_), id⟩
        rw [hb.started]
        exact hp
      · exact ⟨j, ds, hdealt.deals fun _ => Iff.rfl⟩
  | result cfd value =>
      obtain ⟨⟨p, s'⟩, hresult, hstep⟩ := bind_ok.mp hstep
      cases hstep
      obtain ⟨j, ds, hdealt⟩ :=
        updateJobResult_dealt hg hb.ok (fun d => Iff.rfl) hresult
      exact ⟨j, ds, hdealt.deals fun _ => Iff.rfl⟩
  | error cfd =>
      obtain ⟨s', hreassign, hstep⟩ := bind_ok.mp hstep
      cases hstep
      obtain ⟨j, ds, hdealt⟩ :=
        reassignJob_dealt hg hb.ok (fun d => Iff.rfl) hreassign
      exact ⟨j, ds, hdealt.deals fun _ => Iff.rfl⟩
  | disconnect cfd =>
      obtain ⟨s', hreassign, hstep⟩ := bind_ok.mp hstep
      obtain ⟨⟨p, reg⟩, -, hstep⟩ := bind_ok.mp hstep
      cases hstep
      obtain ⟨j, ds, hdealt⟩ :=
        reassignJob_dealt hg hb.ok (fun d => Iff.rfl) hreassign
      exact ⟨j, ds, hdealt.leave.deals fun _ => Iff.rfl⟩

end Events

end Pyramid
