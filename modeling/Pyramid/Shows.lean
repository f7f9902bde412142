/-
# `Pyramid.Shows` — what the functions of `jobs.c` do to the board

`Shows s b g`: the server `s`, with its lists where `g` says, shows the board
`b`.  For every function there is a lemma that says what the board is after
it, provided that it returns.  The lemmas say nothing of the calls that end in
a fault.

Each of them fixes the view `⟨id, r, hs⟩` that the board has of the job in
question, and gives the new one.
-/
import Pyramid.Layout
import Pyramid.Locks

namespace Pyramid

/-! ## The list of jobs -/

/-- The jobs in `order`, behind a first node that stands for none. -/
def JobList (jobs : Heap JobNode) (pHead pTail : Ptr) (order : List Nat) : Prop :=
  ∃ p, pHead = some p ∧ DList jobLinks jobs (some p) (p :: order) ∧
    (p :: order).Nodup ∧
    pTail = lastOf none (p :: order)

/-- `addJob` puts its job at the end. -/
theorem JobAdded.listed {s s' : Server} {jobId : Int} {task : Ptr} {t : Nat}
    {v w : JobNode} {u : ClientNode} {order : List Nat}
    (hadded : JobAdded s s' jobId task t v w u) (ht : s.pTail = some t)
    (hv : s.jobs.cell t = some v) (h : JobList s.jobs s.pHead s.pTail order) :
    JobList s'.jobs s'.pHead s'.pTail (order ++ [s.jobs.next]) := by
  obtain ⟨p, hp, hlist, hnd, htail⟩ := h
  have hpTail : s'.pTail = some s.jobs.next := by rw [hadded.state]
  have hpHead : s'.pHead = s.pHead := by rw [hadded.state]
  rw [hpHead, hpTail]
  obtain ⟨pre, hpre⟩ : ∃ pre, p :: order = pre ++ [t] := by
    rcases List.eq_nil_or_concat' (p :: order) with heq | ⟨pre, x, heq⟩
    · cases heq
    · rw [heq, lastOf_append_singleton, ht] at htail
      cases htail
      exact ⟨pre, heq⟩
  have hfresh : s.jobs.next ∉ pre ++ [t] := by
    intro hmem
    obtain ⟨x, hx⟩ := hlist.cell_of_mem (hpre ▸ hmem)
    rw [s.jobs.fresh _ (Nat.le_refl _)] at hx
    cases hx
  rw [DList, hpre] at hlist
  rw [hpre] at hnd
  obtain ⟨hseg, x, hx, hprev, -⟩ := seg_append.mp hlist
  cases hv.symm.trans hx
  have htpre : t ∉ pre :=
    fun hmem => (List.nodup_append.mp hnd).2.2 t hmem t (by simp) rfl
  refine ⟨p, hp, ?_, ?_, ?_⟩
  · rw [← List.cons_append, hpre]
    refine seg_append.mpr ⟨seg_append.mpr ⟨?_, _, hadded.last, hprev,
      Leads.refl _ _⟩, _, hadded.new, ?_, Leads.refl _ _⟩
    · refine hseg.congr (fun y hy => hadded.old y ?_ ?_) fun _ h => h
      · rintro rfl
        exact htpre hy
      · rintro rfl
        exact hfresh (List.mem_append_left _ hy)
    · rw [lastOf_append_singleton]
      rfl
  · rw [← List.cons_append, hpre]
    exact List.nodup_append.mpr ⟨hnd, List.pairwise_singleton _ _,
      fun y hy z hz => by
      rw [List.mem_singleton.mp hz]
      rintro rfl
      exact hfresh hy⟩
  · rw [← List.cons_append, lastOf_append_singleton]

/-- The list is what is read off the server. -/
theorem JobList.jobList_eq {s : Server} {order : List Nat}
    (h : JobList s.jobs s.pHead s.pTail order) :
    s.jobList = order := by
  obtain ⟨p, hp, ⟨-, v, hv, -, hrest⟩, hnd, -⟩ := h
  have htrail := hrest.path.trail_eq (hrest.length_le (List.nodup_cons.mp hnd).2)
  simp only [Server.jobList, hp, hv]
  exact htrail

/-- The walk of `getJobNode` returns, with the first job of the
list that has the id. -/
theorem JobList.getJobNode {s : Server} {order : List Nat}
    (h : JobList s.jobs s.pHead s.pTail order) (id : Int) :
    (getJobNode s id = .ok none ∧ ∀ j ∈ order, ∀ v, s.jobs.cell j = some v →
      v.job.id ≠ id) ∨
      ∃ j v, getJobNode s id = .ok (some j) ∧ j ∈ order ∧ s.jobs.cell j = some v ∧
      v.job.id = id := by
  obtain ⟨p, hp, ⟨-, v, hv, -, hrest⟩, hnd, -⟩ := h
  have hwalk : Pyramid.getJobNode s id
      = s.jobs.chase (·.next) (fun v => v.job.id == id) s.jobs.next v.next := by
    rw [Pyramid.getJobNode, hp, Heap.load_some hv, ok_bind]
  obtain ⟨r, hr⟩ := hrest.chase_ok (fun v => v.job.id == id)
    (hrest.length_le (List.nodup_cons.mp hnd).2)
  rw [hwalk]
  rcases hrest.chase_cases (fun _ hF => hF.elim) hr with
    ⟨rfl, hnone⟩ | ⟨pre, j, post, w, rfl, rfl, hw, hhit, -⟩
  · refine Or.inl ⟨hr, fun j hj w hw heq => ?_⟩
    have hmiss := hnone j hj w hw
    rw [heq] at hmiss
    simp at hmiss
  · exact Or.inr ⟨j, w, hr, by simp, hw, by simpa using hhit⟩

/-- The job `v`, with these client nodes, is seen as `view`. -/
structure JobOk (v : JobNode) (view : JobView) (head : Nat)
    (xs : List Nat) : Prop where
  id : v.job.id = view.id
  result : v.job.result = view.result
  count : v.numClients = view.holders.length
  first : v.job.head = some head
  last : v.job.tail = lastOf (some head) xs

structure JobsOk (jobs : Heap JobNode) (pHead pTail : Ptr) (order : List Nat)
    (job : Nat → JobView) (g : Layout) : Prop where
  list : ∃ p, pHead = some p ∧ DList jobLinks jobs (some p) (p :: order) ∧
    (p :: order).Nodup ∧
    pTail = lastOf none (p :: order)
  job : ∀ j ∈ order, ∃ v, jobs.cell j = some v ∧
    JobOk v (job j) (g.sentinel j) (g.nodes j)

namespace JobsOk

variable {jobs : Heap JobNode} {pHead pTail : Ptr} {order : List Nat}
  {job : Nat → JobView}
  {g : Layout}

/-- One job changes, not its place in the list. -/
theorem change (hok : JobsOk jobs pHead pTail order job g) {j : Nat} {v w : JobNode}
    {view : JobView} {xs : List Nat} {stop : Ptr} (hv : jobs.cell j = some v)
    (hnext : w.next = v.next) (hprev : w.prev = v.prev)
    (hw : JobOk w view (g.sentinel j) xs) :
    JobsOk (jobs.set j (some w)) pHead pTail order (put job j view) (g.setList j xs
      stop) := by
  obtain ⟨p, hp, hlist, hnd, htail⟩ := hok.list
  refine ⟨⟨p, hp, hlist.set_data hv hnext hprev fun _ h => h, hnd, htail⟩,
    fun k hk => ?_⟩
  by_cases hkj : k = j
  · rw [hkj]
    refine ⟨w, Heap.cell_set_self hv _, ?_⟩
    simp only [Layout.setList, put_self]
    exact hw
  · obtain ⟨u, hu, huk⟩ := hok.job k hk
    refine ⟨u, by rw [Heap.cell_set_ne _ hkj, hu], ?_⟩
    simp only [Layout.setList, put_ne _ hkj]
    exact huk

/-- The job changes, and not its list. -/
theorem update (hok : JobsOk jobs pHead pTail order job g) {j : Nat} {v w : JobNode}
    {view : JobView} (hv : jobs.cell j = some v) (hnext : w.next = v.next)
    (hprev : w.prev = v.prev) (hw : JobOk w view (g.sentinel j) (g.nodes j)) :
    JobsOk (jobs.set j (some w)) pHead pTail order (put job j view) g := by
  have hchange : JobsOk (jobs.set j (some w)) pHead pTail order (put job j view)
      (g.setList j (g.nodes j) (g.stop j)) := hok.change hv hnext hprev hw
  rw [Layout.setList_self] at hchange
  exact hchange

theorem modify (hok : JobsOk jobs pHead pTail order job g) {j : Nat} {view : JobView}
    {f : JobNode → JobNode} {jobs' : Heap JobNode} (hj : j ∈ order)
    (hm : jobs.modify (some j) f = .ok jobs') (hnext : ∀ v, (f v).next = v.next)
    (hprev : ∀ v, (f v).prev = v.prev)
    (hf : ∀ v, JobOk v (job j) (g.sentinel j) (g.nodes j) →
      JobOk (f v) view (g.sentinel j) (g.nodes j)) :
    JobsOk jobs' pHead pTail order (put job j view) g := by
  obtain ⟨a, v, ha, hv, rfl⟩ := Heap.modify_ok.mp hm
  cases ha
  obtain ⟨w, hw, hwj⟩ := hok.job j hj
  cases hw.symm.trans hv
  exact hok.update hv (hnext v) (hprev v) (hf v hwj)

/-- The same job, seen with other pieces. -/
theorem review (hok : JobsOk jobs pHead pTail order job g) {j : Nat} {id r : Int}
    {hs hs' : List Holder} (hview : job j = ⟨id, r, hs⟩)
    (hlen : hs'.length = hs.length) :
    JobsOk jobs pHead pTail order (put job j ⟨id, r, hs'⟩) g := by
  refine ⟨hok.list, fun k hk => ?_⟩
  obtain ⟨v, hv, hvk⟩ := hok.job k hk
  refine ⟨v, hv, ?_⟩
  by_cases hkj : k = j
  · rw [hkj] at hvk ⊢
    rw [put_self]
    rw [hview] at hvk
    exact ⟨hvk.id, hvk.result, by rw [hvk.count, hlen], hvk.first, hvk.last⟩
  · rw [put_ne _ hkj]
    exact hvk

/-- The queue is no business of the jobs. -/
theorem withQueue (hok : JobsOk jobs pHead pTail order job g) (xs : List Nat) :
    JobsOk jobs pHead pTail order job { g with queue := xs } := ⟨hok.list, hok.job⟩

end JobsOk

/-! ## The server and the board -/

def ClientInfo.toSeat (v : ClientInfo) : Seat := ⟨v.busy, v.jn⟩

structure Shows (s : Server) (b : Board) (g : Layout) : Prop where
  registry : s.reg.WellFormed
  seat : ∀ c, b.seat c = (s.reg.infos.cell c).map ClientInfo.toSeat
  jobs : JobsOk s.jobs s.pHead s.pTail b.order b.job g
  nodes : NodesOk s.nodes s.qHead s.qTail b.order b.job b.waiting g
  stops : ∀ c st j, b.seat c = some st → st.jn = some j → g.stop j = none

namespace Shows

variable {supply : JobSupply} {s s' : Server} {b : Board} {g : Layout}

theorem seat_of_cell (h : Shows s b g) {c : Nat} {v : ClientInfo}
    (hv : s.reg.infos.cell c = some v) :
    b.seat c = some ⟨v.busy, v.jn⟩ := by
  rw [h.seat c, hv]
  rfl

theorem cell_of_seat (h : Shows s b g) {c : Nat} {st : Seat}
    (hst : b.seat c = some st) :
    ∃ v, s.reg.infos.cell c = some v ∧ v.busy = st.busy ∧ v.jn = st.jn := by
  rw [h.seat c] at hst
  obtain ⟨v, hv, rfl⟩ := Option.map_eq_some_iff.mp hst
  exact ⟨v, hv, rfl, rfl⟩

theorem clients (h : Shows s b g) {j : Nat} {id r : Int} {hs : List Holder}
    (hj : j ∈ b.order) (hview : b.job j = ⟨id, r, hs⟩) :
    ClientListOk s.nodes (g.sentinel j) (g.nodes j) (g.stop j) id hs := by
  have hclients := h.nodes.clients j hj
  rw [hview] at hclients
  exact hclients

theorem job (h : Shows s b g) {j : Nat} {id r : Int} {hs : List Holder}
    (hj : j ∈ b.order) (hview : b.job j = ⟨id, r, hs⟩) :
    ∃ v, s.jobs.cell j = some v ∧
      JobOk v ⟨id, r, hs⟩ (g.sentinel j) (g.nodes j) := by
  rw [← hview]
  exact h.jobs.job j hj

/-- What is logged, sent or stored elsewhere does not matter. -/
theorem of_eq (h : Shows s b g) (hreg : s'.reg = s.reg) (hnodes : s'.nodes = s.nodes)
    (hjobs : s'.jobs = s.jobs) (hqHead : s'.qHead = s.qHead)
    (hqTail : s'.qTail = s.qTail) (hpHead : s'.pHead = s.pHead)
    (hpTail : s'.pTail = s.pTail) : Shows s' b g := by
  refine ⟨?_, fun c => ?_, ?_, ?_, h.stops⟩
  · rw [hreg]
    exact h.registry
  · rw [hreg]
    exact h.seat c
  · rw [hjobs, hpHead, hpTail]
    exact h.jobs
  · rw [hnodes, hqHead, hqTail]
    exact h.nodes

theorem send (h : Shows s b g) {fd type : Int} {data : Bytes}
    (hr : shSendEncodedData s fd data type = .ok s') :
    s'.reg = s.reg ∧ Shows s' b g := by
  obtain ⟨sent, rfl⟩ := shSendEncodedData_sent hr
  exact ⟨rfl, h.of_eq rfl rfl rfl rfl rfl rfl rfl⟩

/-- The history of the board does not matter. -/
theorem of_board (h : Shows s b g) (started : List (Nat × Nat)) (told : List Told) :
    Shows s { b with started := started, told := told } g :=
  ⟨h.registry, h.seat, h.jobs, h.nodes, h.stops⟩

/-- A client's flag and job are set. -/
theorem setClient (h : Shows s b g) {c : Nat} {v w : ClientInfo}
    (hv : s.reg.infos.cell c = some v) (hw : w.identity = v.identity)
    (hstop : ∀ j, w.jn = some j → g.stop j = none) :
    Shows { s with reg := { s.reg with infos := s.reg.infos.set c (some w) } }
      { b with seat := put b.seat c (some ⟨w.busy, w.jn⟩) } g := by
  refine ⟨(SameClients.set hv hw).wellFormed h.registry, fun d => ?_,
    h.jobs, h.nodes, fun d st j hd hj => ?_⟩
  · by_cases hdc : d = c
    · show put b.seat c _ d = ((s.reg.infos.set c (some w)).cell d).map
          ClientInfo.toSeat
      rw [hdc, put_self, Heap.cell_set_self hv]
      rfl
    · show put b.seat c _ d = ((s.reg.infos.set c (some w)).cell d).map
          ClientInfo.toSeat
      rw [put_ne _ hdc, Heap.cell_set_ne _ hdc]
      exact h.seat d
  · have hd' : put b.seat c (some ⟨w.busy, w.jn⟩) d = some st := hd
    by_cases hdc : d = c
    · rw [hdc, put_self] at hd'
      cases hd'
      exact hstop j hj
    · rw [put_ne _ hdc] at hd'
      exact h.stops d st j hd' hj

theorem getJobNode (h : Shows s b g) {id : Int} {r : Ptr}
    (hr : getJobNode s id = .ok r) :
    (r = none ∧ ∀ j ∈ b.order, (b.job j).id ≠ id) ∨
      ∃ j, r = some j ∧ j ∈ b.order ∧ (b.job j).id = id := by
  rcases JobList.getJobNode h.jobs.list id with
    ⟨hnone, hall⟩ | ⟨j, v, hfound, hj, hv, hid⟩
  · cases hr.symm.trans hnone
    refine Or.inl ⟨rfl, fun j hj heq => ?_⟩
    obtain ⟨v, hv, hvj⟩ := h.jobs.job j hj
    exact hall j hj v hv (hvj.id.trans heq)
  · cases hr.symm.trans hfound
    obtain ⟨w, hw, hwj⟩ := h.jobs.job j hj
    cases hv.symm.trans hw
    exact Or.inr ⟨j, rfl, hj, hwj.id.symm.trans hid⟩

/-- What a walk along the list of a job for the node of a client finds. -/
theorem getClientNode (h : Shows s b g) {j c : Nat} {id r : Int}
    {hs : List Holder} {p : Ptr} (hj : j ∈ b.order) (hview : b.job j = ⟨id, r, hs⟩)
    (hstop : g.stop j = none) (hp : getClientNode s j c = .ok p) :
    (p = none ∧ ∀ x ∈ hs, x.client ≠ c) ∨
      ∃ pre a post v hpre hpost, g.nodes j = pre ++ a :: post ∧ p = some a ∧
        s.nodes.cell a = some v ∧ v.client = some c ∧
        hs = hpre ++ ⟨c, v.index⟩ :: hpost ∧
        pieces s.nodes pre = heldAs id hpre ∧
        pieces s.nodes post = heldAs id hpost := by
  obtain ⟨v, hload, hp⟩ := bind_ok.mp hp
  obtain ⟨vh, hhead, hp⟩ := bind_ok.mp hp
  obtain ⟨a, ha, hv⟩ := Heap.load_ok.mp hload
  cases ha
  obtain ⟨w, hw, hwj⟩ := h.jobs.job j hj
  rw [hv] at hw
  cases hw
  obtain ⟨m, hm, hvh⟩ := Heap.load_ok.mp hhead
  rw [hwj.first] at hm
  cases hm
  have hclients := h.clients hj hview
  rw [hstop] at hclients
  exact hclients.find hvh hp

/-- `addClientToJob`. -/
theorem addClient (h : Shows s b g) {j c : Nat} {id r : Int} {hs : List Holder}
    {node : Ptr} (hj : j ∈ b.order) (hview : b.job j = ⟨id, r, hs⟩)
    (hr : addClientToJob supply s j (some c) = .ok (node, s')) :
    ∃ a v, node = some a ∧ s'.nodes.cell a = some v ∧ s'.reg = s.reg ∧
      s'.tasks = s.tasks ∧
      Shows s' { b with job := put b.job j ⟨id, r, hs ++ [⟨c, v.index⟩]⟩ }
        (g.setList j (g.nodes j ++ [a]) none) := by
  obtain ⟨v, t, vt, u, rfl, hadded⟩ := addClientToJob_ok hr
  have hfresh : s.nodes.cell s.nodes.next = none := s.nodes.fresh _ (Nat.le_refl _)
  obtain ⟨w, hw, hwj⟩ := h.job hj hview
  cases hadded.job.symm.trans hw
  have hclients := h.clients hj hview
  have hlast : lastOf none (g.sentinel j :: g.nodes j) = some t :=
    hwj.last.symm.trans hadded.tail
  have happend := hclients.append (i := u.index)
    (c := c) hfresh (fun d hd => Heap.cell_grow_ne _ hd _)
    (fun d hd => hd.grow _) (Heap.cell_grow_self _ _)
    (by rw [hadded.made, ClientNode.piece, hwj.id])
      (by rw [hadded.made]) (by rw [hadded.made]) hlast hadded.before
  have htmem : t ∈ g.list j := by
    rcases List.eq_nil_or_concat' (g.list j) with heq | ⟨ys, d, heq⟩
    · cases heq
    · rw [show g.sentinel j :: g.nodes j = ys ++ [d] from heq,
        lastOf_append_singleton] at hlast
      cases hlast
      rw [heq]
      simp
  have hta : s.nodes.next ≠ t := by
    rintro rfl
    obtain ⟨w, hw⟩ := h.nodes.cell_of_list hj htmem
    cases hfresh.symm.trans hw
  have hold : ∀ d e, d ∉ g.list j → s.nodes.cell d = some e →
      s'.nodes.cell d = s.nodes.cell d := by
    intro d e hd he
    refine hadded.old (Nat.ne_of_lt (s.nodes.lt_next he)) ?_
    rintro rfl
    exact hd htmem
  rw [hadded.state] at hold ⊢
  refine ⟨s.nodes.next, u, rfl, ?_, rfl, rfl, h.registry, h.seat, ?_, ?_,
    fun d st k hd hk => ?_⟩
  · exact (Heap.cell_set_ne _ hta _).trans (Heap.cell_grow_self _ _)
  · refine h.jobs.change hw rfl rfl ⟨hwj.id, hwj.result, ?_, hwj.first, ?_⟩
    · show v.numClients + 1 = _
      rw [hwj.count, List.length_append, List.length_singleton]
      rfl
    · rw [lastOf_append_singleton]
  · refine h.nodes.change_list hj happend (fun d hd => ?_) hold fun d hd =>
      (hd.grow _).set hadded.before _
    refine (List.mem_append.mp hd).imp_right fun hd => ?_
    rw [List.mem_singleton.mp hd]
    exact hfresh
  · show put g.stop j none k = none
    by_cases hkj : k = j
    · rw [hkj, put_self]
    · rw [put_ne _ hkj]
      exact h.stops d st k hd hk

/-- The index of a piece is changed. -/
theorem setIndex (h : Shows s b g) {j a : Nat} {id r : Int} {hs : List Holder}
    {pre post : List Nat} {v : ClientNode} (hj : j ∈ b.order)
    (hview : b.job j = ⟨id, r, hs⟩) (hnodes : g.nodes j = pre ++ a :: post)
    (hv : s.nodes.cell a = some v) (i : Int) :
    ∃ c hpre hpost, v.client = some c ∧ hs = hpre ++ ⟨c, v.index⟩ :: hpost ∧
      hpre.length = pre.length ∧
      Shows { s with nodes := s.nodes.set a (some { v with index := i }) }
        { b with job := put b.job j ⟨id, r, hpre ++ ⟨c, i⟩ :: hpost⟩ } g := by
  have hclients := h.clients hj hview
  rw [hnodes] at hclients
  obtain ⟨w, c, hpre, hpost, hw, hc, hjid, hhs, h₁, h₂⟩ := hclients.split
  rw [hv] at hw
  cases hw
  have hset := hclients.setIndex hv hc hjid h₁ h₂ i
  have hmem : a ∈ g.list j := List.mem_cons_of_mem _ (hnodes ▸ by simp)
  have hlen : hpre.length = pre.length := by
    have := congrArg List.length h₁
    simpa [pieces, heldAs] using this.symm
  refine ⟨c, hpre, hpost, hc, hhs, hlen, h.registry, h.seat, ?_, ?_, h.stops⟩
  · exact h.jobs.review hview (by rw [hhs]; simp)
  · have hchange := h.nodes.change_list (r := r) hj hset
      (fun d hd => Or.inl (by rw [hnodes]; exact hd))
      (fun d w hd _ => Heap.cell_set_ne _ (by rintro rfl; exact hd hmem) _)
      fun d hd => hd.set hv _
    rw [← hnodes, Layout.setList_self] at hchange
    exact hchange

section Place
variable {j a : Nat} {id r : Int} {x : Holder} {hpre hpost : List Holder}
  {pre post : List Nat} {v : ClientNode}

/-- A node is for the holder at its place. -/
theorem index_at (h : Shows s b g) (hj : j ∈ b.order)
    (hview : b.job j = ⟨id, r, hpre ++ x :: hpost⟩)
    (hnodes : g.nodes j = pre ++ a :: post) (hlen : hpre.length = pre.length)
    (hv : s.nodes.cell a = some v) : v.index = x.index := by
  obtain ⟨c, qre, qost, -, hsplit, hqre, -⟩ := h.setIndex hj hview hnodes hv 0
  obtain ⟨-, htail⟩ := List.append_inj hsplit (hlen.trans hqre.symm)
  obtain ⟨hx, -⟩ := List.cons.inj htail
  exact (congrArg Holder.index hx).symm

theorem setIndex_at (h : Shows s b g) (hj : j ∈ b.order)
    (hview : b.job j = ⟨id, r, hpre ++ x :: hpost⟩)
    (hnodes : g.nodes j = pre ++ a :: post) (hlen : hpre.length = pre.length)
    (hv : s.nodes.cell a = some v) (i : Int) :
    Shows { s with nodes := s.nodes.set a (some { v with index := i }) }
      { b with job := put b.job j ⟨id, r, hpre ++ ⟨x.client, i⟩ :: hpost⟩ } g := by
  obtain ⟨c, qre, qost, -, hsplit, hqre, hset⟩ := h.setIndex hj hview hnodes hv i
  obtain ⟨rfl, htail⟩ := List.append_inj hsplit (hlen.trans hqre.symm)
  obtain ⟨hx, rfl⟩ := List.cons.inj htail
  rw [← show x.client = c from congrArg Holder.client hx] at hset
  exact hset

end Place

/-- The tail of a list from which a node before the last is taken. -/
theorem last_removed {jv : JobNode} {view : JobView} {head a : Nat}
    {pre post xs : List Nat} (hjok : JobOk jv view head xs)
    (hxs : xs = pre ++ a :: post) (hne : post ≠ []) :
    jv.job.tail = lastOf (some head) (pre ++ post) := by
  obtain ⟨d, post, rfl⟩ := List.exists_cons_of_ne_nil hne
  rw [hjok.last, hxs, lastOf_append_cons, lastOf_append_cons]
  rfl

theorem count_removed {jv : JobNode} {id r : Int} {hs hpre hpost : List Holder}
    {x : Holder} {head : Nat} {xs : List Nat} (hjok : JobOk jv ⟨id, r, hs⟩ head xs)
    (hhs : hs = hpre ++ x :: hpost) :
    jv.numClients - 1 = (hpre ++ hpost).length := by
  rw [hjok.count, hhs]
  simp only [List.length_append, List.length_cons]
  omega

theorem stops_setList (h : Shows s b g) (j : Nat) (xs : List Nat) :
    ∀ c st k, b.seat c = some st → st.jn = some k →
      (g.setList j xs none).stop k = none := by
  intro c st k hc hk
  show put g.stop j none k = none
  by_cases hkj : k = j
  · rw [hkj, put_self]
  · rw [put_ne _ hkj]
    exact h.stops c st k hc hk

/-- A client is taken off a job, and is free. -/
theorem dropClient (h : Shows s b g) {j c : Nat} {view : JobView} {xs : List Nat}
    {cv : ClientInfo} {jobs : Heap JobNode} {nodes : Heap ClientNode}
    (hcv : s.reg.infos.cell c = some cv)
    (hjobs : JobsOk jobs s.pHead s.pTail b.order (put b.job j view)
      (g.setList j xs none))
    (hnodes : NodesOk nodes s.qHead s.qTail b.order (put b.job j view) b.waiting
      (g.setList j xs none)) :
    Shows { s with
        reg := { s.reg with
          infos := s.reg.infos.set c (some { cv with busy := false }) }
        nodes := nodes
        jobs := jobs }
      { b with job := put b.job j view, seat := put b.seat c (some ⟨false, cv.jn⟩) }
      (g.setList j xs none) := by
  have hclient := h.setClient (w := { cv with busy := false }) hcv rfl
    fun k hk => h.stops c _ k (h.seat_of_cell hcv) hk
  exact ⟨hclient.registry, hclient.seat, hjobs, hnodes, hclient.stops_setList j xs⟩

/-- `freeClient`, for a job that has had clients. -/
theorem freeClient (h : Shows s b g) {j c : Nat} {id r : Int}
    {hs : List Holder} {p : Bool} (hj : j ∈ b.order) (hview : b.job j = ⟨id, r, hs⟩)
    (hstop : g.stop j = none) (hnonneg : 0 ≤ id)
    (hids : ∀ k ∈ b.order, (b.job k).id = id → k = j)
    (hr : freeClient s id c = .ok (p, s')) :
    (s' = s ∧ ∀ x ∈ hs, x.client ≠ c) ∨
      ∃ i hpre hpost st g', hs = hpre ++ ⟨c, i⟩ :: hpost ∧ b.seat c = some st ∧
        SameClients s.reg s'.reg ∧
        Shows s' { b with
          job := put b.job j ⟨id, r, hpre ++ hpost⟩
          seat := put b.seat c (some ⟨false, st.jn⟩) } g' := by
  -- the job that is found by its id is the job itself
  have hfound : ∀ {q : Ptr}, Pyramid.getJobNode s id = .ok q → q = some j := by
    intro q hq
    rcases h.getJobNode hq with ⟨-, hnone⟩ | ⟨k, rfl, hk, hid⟩
    · exact absurd (by rw [hview]) (hnone j hj)
    · rw [hids k hk hid]
  rcases freeClient_ok hr with
    ⟨rfl, hneg | hjob | ⟨k, hjob, hnode⟩⟩ | ⟨k, a, v, cv, nodes₁, nodes₂, jobs, hjob,
      hnode, hv, hcv, hcases, hnodes₂, rfl⟩
  · exact absurd hneg (not_lt.mpr hnonneg)
  · cases hfound hjob
  · cases hfound hjob
    rcases h.getClientNode hj hview hstop hnode with
      ⟨-, hnone⟩ | ⟨pre, a, post, v, hpre, hpost, -, hn, -⟩
    · exact Or.inl ⟨rfl, hnone⟩
    · cases hn
  cases hfound hjob
  rcases h.getClientNode hj hview hstop hnode with
    ⟨hn, -⟩ | ⟨pre, d, post, w, hpre, hpost, hnodes, hn, hw, hc, hhs, h₁, h₂⟩
  · cases hn
  cases hn
  cases hv.symm.trans hw
  obtain ⟨jv, hjv, hjok⟩ := h.job hj hview
  have hclients := h.clients hj hview
  rw [hnodes, hstop] at hclients
  have hmem : ∀ d, d ∉ g.list j → d ∉ g.sentinel j :: (pre ++ a :: post) := by
    intro d hd
    rw [← hnodes]
    exact hd
  rcases hcases with ⟨hnext, hnodes₁, hjobs⟩ | ⟨n, hnext, hnodes₁, hjobs⟩
  · rw [Heap.modify_some hjv] at hjobs
    cases hjobs
    have hlast := hclients.last_of_next hv hnext
    have hlen := congrArg List.length h₂
    rw [hlast] at hclients hmem hnodes hlen
    have hpost : hpost = [] :=
      List.eq_nil_of_length_eq_zero (by simpa [pieces, heldAs] using hlen.symm)
    rw [hpost] at hhs
    obtain ⟨hnew, hprev, hkeep, hdead⟩ := hclients.free_last hv h₁ hnodes₁ hnodes₂
    refine Or.inr ⟨v.index, hpre, [], _, g.setList j pre none, hhs,
      h.seat_of_cell hcv, SameClients.set hcv rfl, ?_⟩
    have hcount := count_removed hjok hhs
    rw [List.append_nil] at hcount ⊢
    exact h.dropClient hcv (h.jobs.change hjv rfl rfl ⟨hjok.id, hjok.result, hcount,
      hjok.first, hprev⟩)
      (h.nodes.change_list hj hnew (fun d hd => Or.inl (by rw [hnodes]; simp [hd]))
        (fun d w hd _ => hkeep d (hmem d hd)) hdead)
  · rw [Heap.modify_some hjv] at hjobs
    cases hjobs
    obtain ⟨hnew, hne, hkeep, hdead⟩ :=
      hclients.free_middle hv h₁ h₂ hnext hnodes₁ hnodes₂
    have hlast := last_removed hjok hnodes hne
    refine Or.inr ⟨v.index, hpre, hpost, _, g.setList j (pre ++ post) none, hhs,
      h.seat_of_cell hcv, SameClients.set hcv rfl, ?_⟩
    exact h.dropClient hcv
      (h.jobs.change hjv rfl rfl ⟨hjok.id, hjok.result, count_removed hjok hhs,
        hjok.first, hlast⟩)
      (h.nodes.change_list hj hnew (fun d hd =>
        Or.inl (by rw [hnodes]; exact mem_of_removed hd))
        (fun d w hd _ => hkeep d (hmem d hd)) hdead)

/-- A piece is put in the queue. -/
theorem queuePiece (h : Shows s b g) {j a c : Nat} {id r : Int}
    {hs hpre hpost : List Holder} {pre post : List Nat} {v : ClientNode}
    (hj : j ∈ b.order) (hview : b.job j = ⟨id, r, hs⟩) (hstop : g.stop j = none)
    (hnodes : g.nodes j = pre ++ a :: post) (hv : s.nodes.cell a = some v)
    (hhs : hs = hpre ++ ⟨c, v.index⟩ :: hpost)
    (h₁ : pieces s.nodes pre = heldAs id hpre)
    (h₂ : pieces s.nodes post = heldAs id hpost) (hr : queuePiece s j a = .ok s') :
    hpost ≠ [] ∧ s'.reg = s.reg ∧ ∃ g', Shows s' { b with
      job := put b.job j ⟨id, r, hpre ++ hpost⟩
      waiting := ⟨id, v.index⟩ :: b.waiting } g' := by
  obtain ⟨w, hload, hr⟩ := bind_ok.mp hr
  rw [Heap.load_some hv] at hload
  cases hload
  obtain ⟨n₁, hunlink, hr⟩ := bind_ok.mp hr
  have hclients := h.clients hj hview
  rw [hnodes, hstop] at hclients
  obtain ⟨hnew, hne, hav, hkeep, hdead⟩ := hclients.unlinked hv h₁ h₂ hunlink
  have hjid : v.jid = id := by
    obtain ⟨w, d, -, -, hw, -, hjid, -, -, -⟩ := hclients.split
    cases hv.symm.trans hw
    exact hjid
  have hmem : a ∈ g.list j := List.mem_cons_of_mem _ (hnodes ▸ by simp)
  have hnotin := hclients.not_mem_middle.1
  obtain ⟨n₂, hn₂, hr⟩ := bind_ok.mp hr
  rw [Heap.modify_some hav] at hn₂
  cases hn₂
  -- the list without the node, which points nowhere now
  have hnodes₁ :
      NodesOk (n₁.set a (some { v with prev := none, next := none, client := none }))
      s.qHead s.qTail b.order (put b.job j ⟨id, r, hpre ++ hpost⟩) b.waiting
      (g.setList j (pre ++ post) none) := h.nodes.change_list hj
    (hnew.congr (fun d hd => Heap.cell_set_ne _ (by rintro rfl; exact hnotin hd) _)
      fun d hd => hd.set hav _)
    (fun d hd => Or.inl (by rw [hnodes]; exact mem_of_removed hd))
    (fun d w hd _ => by
      rw [Heap.cell_set_ne _ (by rintro rfl; exact hd hmem)]
      exact hkeep d (by rw [← hnodes]; exact hd))
    fun d hd => (hdead d hd).set hav _
  obtain ⟨s₁, henqueue, hr⟩ := bind_ok.mp hr
  obtain ⟨w, n₃, hw, hattach, rfl⟩ := enqueuePendingJob_ok henqueue
  cases (Heap.cell_set_self hav _).symm.trans hw
  obtain ⟨jobs, hjobs, hr⟩ := bind_ok.mp hr
  cases hr
  obtain ⟨d, jv, hd, hjv, rfl⟩ := Heap.modify_ok.mp hjobs
  cases hd
  obtain ⟨ju, hju, hjok⟩ := h.job hj hview
  cases hju.symm.trans hjv
  have haqueue : a ∉ g.queue := fun hq => h.nodes.aside j hj hmem hq
  have halist : ∀ k ∈ b.order, a ∉ (g.setList j (pre ++ post) none).list k := by
    intro k hk hak
    by_cases hkj : k = j
    · rw [hkj, Layout.list_setList_self] at hak
      exact hnotin hak
    · rw [Layout.list_setList_ne _ hkj] at hak
      exact h.nodes.apart j hj k hk (Ne.symm hkj) hmem hak
  have hpiece : ({ v with prev := none, next := s.qHead, client := none } :
      ClientNode).piece
      = (none, v.index, id) := by rw [ClientNode.piece, hjid]
  obtain ⟨hpush, hrel⟩ := hnodes₁.queue.push
    (fun d hd => Heap.cell_set_ne _ (by rintro rfl; exact haqueue hd) _)
    haqueue (Heap.cell_set_self (Heap.cell_set_self hav _) _) rfl rfl hpiece hattach
  have hne' : hpost ≠ [] := by
    rintro rfl
    have hlen := congrArg List.length h₂
    exact hne (List.eq_nil_of_length_eq_zero (by simpa [pieces, heldAs] using hlen))
  have hjobs' :
      JobsOk (s.jobs.set j (some { jv with numClients := jv.numClients - 1 }))
      s.pHead s.pTail
      b.order (put b.job j ⟨id, r, hpre ++ hpost⟩) (g.setList j (pre ++ post)
        none) := by
    have hlast := last_removed hjok hnodes hne
    exact h.jobs.change hju rfl rfl ⟨hjok.id, hjok.result, count_removed hjok hhs,
      hjok.first, hlast⟩
  refine ⟨hne', rfl, { g.setList j (pre ++ post) none with queue := a :: g.queue },
    h.registry, h.seat, hjobs'.withQueue _, ?_, h.stops_setList j (pre ++ post)⟩
  refine hnodes₁.change_queue hpush (fun d hd k hk hdk => ?_) (fun k hk d hd => ?_)
    fun d hd => ?_
  · rcases List.mem_cons.mp hd with rfl | hd
    · exact halist k hk hdk
    · exact hnodes₁.aside k hk hdk hd
  · rw [hrel.same d fun hq => hnodes₁.aside k hk hd hq,
      Heap.cell_set_ne _ (by rintro rfl; exact halist k hk hd)]
  · exact hrel.dead (hd.set (Heap.cell_set_self hav _) _)

/-- A node that is in no list. -/
structure Loose (s : Server) (b : Board) (g : Layout) (a : Nat)
    (v : ClientNode) : Prop where
  cell : s.nodes.cell a = some v
  list : ∀ k ∈ b.order, a ∉ g.list k
  queue : a ∉ g.queue

/-- The first piece of a job that waits is taken out of the queue. -/
theorem dequeue (h : Shows s b g) {j : Nat} {id r : Int}
    {hs : List Holder} {cn : Ptr} (hj : j ∈ b.order) (hview : b.job j = ⟨id, r, hs⟩)
    (hr : dequeuePendingJob s j = .ok (cn, s')) :
    (cn = none ∧ s' = s ∧ ∀ w ∈ b.waiting, w.jid ≠ id) ∨
      ∃ a v wpre wpost, cn = some a ∧ s'.reg = s.reg ∧
        b.waiting = wpre ++ ⟨id, v.index⟩ :: wpost ∧
        (v.client = none ∧ s'.jobs = s.jobs ∧ s'.pHead = s.pHead ∧
          Relinked nodeLinks s.nodes s'.nodes g.queue) ∧ ∃ xs,
        Shows s' { b with waiting := wpre ++ wpost } { g with queue := xs } ∧
        Loose s' b { g with queue := xs } a v := by
  obtain ⟨jv, hjv, hjok⟩ := h.job hj hview
  obtain ⟨p, hp, hcases⟩ := dequeuePendingJob_ok hjv hr
  rw [hjok.id] at hp
  rcases h.nodes.queue.find hp with
    ⟨rfl, hnone⟩ | ⟨pre, a, post, v, hqueue, rfl, hv, hjid⟩
  · rcases hcases with ⟨-, rfl, rfl⟩ | ⟨a, v, nodes, heq, -⟩
    · exact Or.inl ⟨rfl, rfl, hnone⟩
    · cases heq
  · rcases hcases with ⟨heq, -⟩ | ⟨d, w, nodes, heq, rfl, hw, hdetach, rfl⟩
    · cases heq
    cases heq
    cases hv.symm.trans hw
    have hq := h.nodes.queue
    rw [hqueue] at hq
    obtain ⟨⟨wpre, wpost, hws, hnew⟩, hrel, hmem⟩ := hq.remove hv hdetach
    have hjid' : v.jid = id := hjid
    rw [hjid'] at hws
    have haside : ∀ k ∈ b.order, ∀ d ∈ g.list k, d ∉ pre ++ a :: post := by
      intro k hk d hd hdq
      exact h.nodes.aside k hk hd (hqueue ▸ hdq)
    have hclient : v.client = none := by
      obtain ⟨w, hw, hnone⟩ :=
        h.nodes.queue.of_mem (show a ∈ g.queue by simp [hqueue])
      cases hv.symm.trans hw
      exact hnone
    refine Or.inr ⟨a, v, wpre, wpost, rfl, rfl, hws,
      ⟨hclient, rfl, rfl, hrel.mono fun d hd => hqueue ▸ mem_of_removed hd⟩,
      pre ++ post, ⟨h.registry, h.seat, h.jobs.withQueue _, ?_, h.stops⟩,
      ⟨?_, fun k hk hak => haside k hk a hak (by simp), hmem⟩⟩
    · refine h.nodes.change_queue hnew (fun d hd k hk hdk =>
        haside k hk d hdk (mem_of_removed hd))
        (fun k hk d hd => hrel.same d fun hdq =>
          haside k hk d hd (mem_of_removed hdq))
        fun d hd => hrel.dead hd
    · exact (hrel.same a hmem).trans hv

/-- A piece that waited is handed to a client of the job, if that holds one. -/
theorem assignPending (h : Shows s b g) {j a c : Nat} {id r : Int} {hs : List Holder}
    {v : ClientNode} {p : Bool} (hj : j ∈ b.order) (hview : b.job j = ⟨id, r, hs⟩)
    (hstop : g.stop j = none) (ha : Loose s b g a v)
    (hr : assignPendingJob s j a c = .ok (p, s')) :
    s'.reg = s.reg ∧ ((s' = s ∧ ∀ x ∈ hs, x.client ≠ c) ∨
      ∃ i hpre hpost, hs = hpre ++ ⟨c, i⟩ :: hpost ∧
        Shows s' { b with job := put b.job j ⟨id, r, hpre ++ ⟨c, v.index⟩ :: hpost⟩ }
          g) := by
  rcases assignPendingJob_ok hr with ⟨hnode, rfl⟩ | ⟨n, u, w, nodes, sent, hnode, hu,
    hw, hfree, rfl⟩
  · rcases h.getClientNode hj hview hstop hnode with
      ⟨-, hnone⟩ | ⟨pre, n, post, w, hpre, hpost, -, hn, -⟩
    · exact ⟨rfl, Or.inl ⟨rfl, hnone⟩⟩
    · cases hn
  rcases h.getClientNode hj hview hstop hnode with
    ⟨hn, -⟩ | ⟨pre, d, post, x, hpre, hpost, hnodes, hn, hx, hc, -⟩
  · cases hn
  cases hn
  cases hw.symm.trans hx
  cases hu.symm.trans ha.cell
  obtain ⟨u, hu, rfl⟩ := Heap.free_ok.mp hfree
  obtain ⟨d, qre, qost, hd, hqs, hlen, hset⟩ := h.setIndex hj hview hnodes hw v.index
  rw [hc] at hd
  cases hd
  refine ⟨rfl, Or.inr ⟨w.index, qre, qost, hqs, hset.registry, hset.seat, hset.jobs,
    ?_, hset.stops⟩⟩
  exact hset.nodes.congr
    (fun k hk d hd => Heap.cell_set_ne _ (by rintro rfl; exact ha.list k hk hd) _)
    (fun d hd => Heap.cell_set_ne _ (by rintro rfl; exact ha.queue hd) _)
    fun d hd => hd.set hu _

/-- A value that comes in is merged into the result of the job, under its mutex. -/
theorem merge (h : Shows s b g) {j : Nat} {id r x : Int} {hs : List Holder}
    {s₁ s₂ : Server} {jobs : Heap JobNode} (hj : j ∈ b.order)
    (hview : b.job j = ⟨id, r, hs⟩) (hlock : lockMutex s (some j) = .ok s₁)
    (hjobs : s₁.jobs.modify (some j) (keepMax x) = .ok jobs)
    (hunlock : unlockMutex { s₁ with jobs := jobs } (some j) = .ok s₂) :
    s₂.reg = s.reg ∧ Shows s₂ { b with job := put b.job j ⟨id, max r x, hs⟩ } g := by
  obtain ⟨a, v, ha, hv, -, rfl⟩ := lockMutex_ok hlock
  cases ha
  obtain ⟨jobs₃, hjobs₃, hunlock⟩ := bind_ok.mp hunlock
  cases hunlock
  have h₁ : JobsOk (s.jobs.set j (some { v with lock := true })) s.pHead
      s.pTail b.order
      (put b.job j ⟨id, r, hs⟩) g :=
    h.jobs.modify hj (Heap.modify_some hv fun w => { w with lock := true })
      (fun _ => rfl) (fun _ => rfl) fun w hw => by
      rw [hview] at hw
      exact ⟨hw.id, hw.result, hw.count, hw.first, hw.last⟩
  have h₂ : JobsOk jobs s.pHead s.pTail b.order
      (put (put b.job j ⟨id, r, hs⟩) j ⟨id, max r x, hs⟩) g := by
    refine h₁.modify hj hjobs (fun w => by rw [keepMax_eq])
      (fun w => by rw [keepMax_eq]) fun w hw => ?_
    rw [put_self] at hw
    rw [keepMax_eq]
    exact ⟨hw.id, congrArg (max · x) hw.result, hw.count, hw.first, hw.last⟩
  have h₃ : JobsOk jobs₃ s.pHead s.pTail b.order
      (put (put (put b.job j ⟨id, r, hs⟩) j ⟨id, max r x, hs⟩) j ⟨id, max r x, hs⟩)
      g :=
    h₂.modify hj hjobs₃ (fun _ => rfl) (fun _ => rfl) fun w hw => by
      rw [put_self] at hw
      exact ⟨hw.id, hw.result, hw.count, hw.first, hw.last⟩
  rw [put_put, put_put] at h₃
  exact ⟨rfl, h.registry, h.seat, h₃, h.nodes.same_pieces hview, h.stops⟩

/-- A job is added, with no client. -/
theorem addJob (h : Shows s b g) (hok : b.Ok) {jobId : Int} {task p : Ptr}
    (hr : addJob supply s jobId task = .ok (p, s')) :
    ∃ n w, p = some n ∧ n ∉ b.order ∧ supply.job n = some w ∧ s'.pTail = some n ∧
      s'.reg = s.reg ∧
      ∃ g', Shows s' { b with
        order := b.order ++ [n]
        job := put b.job n ⟨jobId, w.job.result, []⟩ } g' := by
  obtain ⟨t, v, w, u, ht, hv, hw, -, rfl, hadded⟩ := addJob_ok jobId task hr
  have hnew : s.jobs.next ∉ b.order := by
    intro hmem
    obtain ⟨x, hx, -⟩ := h.jobs.job _ hmem
    rw [s.jobs.fresh _ (Nat.le_refl _)] at hx
    cases hx
  have hreg : s'.reg = s.reg := by rw [hadded.state]
  have hpTail : s'.pTail = some s.jobs.next := by rw [hadded.state]
  have hqHead : s'.qHead = s.qHead := by rw [hadded.state]
  have hqTail : s'.qTail = s.qTail := by rw [hadded.state]
  have hnodes : s'.nodes = (s.nodes.grow (some u)).set s.nodes.next
      (some { u with
        prev := none, client := some 0xdeadbeef, next := w.job.tail }) := by
    rw [hadded.state]
  have hne : ∀ k ∈ b.order, k ≠ s.jobs.next := fun k hk heq => hnew (heq ▸ hk)
  refine ⟨s.jobs.next, w, rfl, hnew, hw, hpTail, hreg,
    g.addJob s.jobs.next s.nodes.next w.job.tail, ?_, fun c => ?_,
    ⟨?_, fun k hk => ?_⟩, ?_, fun c st k hc hk => ?_⟩
  · rw [hreg]
    exact h.registry
  · rw [hreg]
    exact h.seat c
  · exact hadded.listed ht hv h.jobs.list
  · rcases List.mem_append.mp hk with hk | hk
    · obtain ⟨x, hx, hxk⟩ := h.jobs.job k hk
      have hkn := hne k hk
      show ∃ v, s'.jobs.cell k = some v ∧ JobOk v (put b.job s.jobs.next _ k)
        (put g.sentinel s.jobs.next _ k) (put g.nodes s.jobs.next _ k)
      rw [put_ne _ hkn, put_ne _ hkn, put_ne _ hkn]
      by_cases hkt : k = t
      · rw [hkt] at hx hxk ⊢
        cases hv.symm.trans hx
        exact ⟨_, hadded.last, hxk.id, hxk.result, hxk.count, hxk.first, hxk.last⟩
      · exact ⟨x, (hadded.old k hkt hkn).trans hx, hxk⟩
    · rw [List.mem_singleton.mp hk]
      refine ⟨_, hadded.new, ?_⟩
      simp only [Layout.addJob, put_self]
      exact ⟨rfl, rfl, rfl, rfl, rfl⟩
  · rw [hnodes, hqHead, hqTail]
    have hcell : (s.nodes.grow (some u)).cell s.nodes.next = some u :=
      Heap.cell_grow_self _ _
    exact h.nodes.add hnew (s.nodes.fresh _ (Nat.le_refl _))
      (fun a ha => by rw [Heap.cell_set_ne _ ha, Heap.cell_grow_ne _ ha])
      (fun a ha => (ha.grow _).set hcell _) (Heap.cell_set_self hcell _) rfl
  · have hstop := h.stops c st k hc hk
    show put g.stop s.jobs.next _ k = none
    rw [put_ne _ (hne k (hok.known c st k hc hk))]
    exact hstop

end Shows

end Pyramid
