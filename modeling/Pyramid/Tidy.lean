/-
# `Pyramid.Tidy` — lists that are right in both directions

The lists of the jobs are right in both directions, whatever `freeClient` does
to them, as long as only last nodes are freed.  `Tidy` says so without naming
the lists: a node that stands in a list leads to one that is there and points
back (`Backed`), and after the tail of a job comes nothing.  The node at `x` is
left out: the first node of a job leads wherever the memory it was given with
did, until the first client is put after it.

What the functions do to nodes that stand in no list does not matter; for each
of the others there is a lemma.
-/
import Pyramid.Memory.Backed
import Pyramid.Worlds

namespace Pyramid

/-- A node that waits in `reassignQ` has no client any more. -/
def ClientNode.Stands (v : ClientNode) : Prop := v.client ≠ none

/-- The first and the last client node of a job are there. -/
structure Ends (h : Heap ClientNode) (x : Ptr) (job : Job) : Prop where
  first : ∃ m u, job.head = some m ∧ h.cell m = some u ∧ u.Stands ∧ u.prev = none
  last : ∃ t w, job.tail = some t ∧ h.cell t = some w ∧ w.Stands ∧
    (some t ≠ x → w.next = none)

structure Tidy (x : Ptr) (s : Server) : Prop where
  backed : Backed nodeLinks ClientNode.Stands x s.nodes
  ends : ∀ j v, s.pHead ≠ some j → s.jobs.cell j = some v → Ends s.nodes x v.job
  apart : ∀ j k v w, s.pHead ≠ some j → s.pHead ≠ some k → s.jobs.cell j = some v →
    s.jobs.cell k = some w → v.job.tail = w.job.tail → j = k

/-- No job has other ends than before, and none is new. -/
def KeepsEnds (jobs jobs' : Heap JobNode) : Prop :=
  ∀ j v', jobs'.cell j = some v' →
    ∃ v, jobs.cell j = some v ∧ v'.job.head = v.job.head ∧
    v'.job.tail = v.job.tail

theorem KeepsEnds.refl (jobs : Heap JobNode) : KeepsEnds jobs jobs :=
  fun _ v hv => ⟨v, hv, rfl, rfl⟩

theorem KeepsEnds.trans {jobs jobs' jobs'' : Heap JobNode} (h : KeepsEnds jobs jobs')
    (h' : KeepsEnds jobs' jobs'') : KeepsEnds jobs jobs'' := by
  intro j v hv
  obtain ⟨v', hv', hhead', htail'⟩ := h' j v hv
  obtain ⟨v'', hv'', hhead, htail⟩ := h j v' hv'
  exact ⟨v'', hv'', hhead'.trans hhead, htail'.trans htail⟩

theorem KeepsEnds.modify {jobs jobs' : Heap JobNode} {p : Ptr}
    {f : JobNode → JobNode} (hm : jobs.modify p f = .ok jobs')
    (hf : ∀ v, (f v).job.head = v.job.head ∧ (f v).job.tail = v.job.tail) :
    KeepsEnds jobs jobs' := by
  obtain ⟨a, u, -, hu, rfl⟩ := Heap.modify_ok.mp hm
  intro j v hv
  by_cases hja : j = a
  · rw [hja, Heap.cell_set_self hu] at hv
    cases hv
    exact ⟨u, hja ▸ hu, hf u⟩
  · rw [Heap.cell_set_ne _ hja] at hv
    exact ⟨v, hv, rfl, rfl⟩

/-- The ends of lists are ends still. -/
structure KeepsStanding (x : Ptr) (h h' : Heap ClientNode) : Prop where
  first : ∀ a v, v.Stands → v.prev = none → h.cell a = some v →
    ∃ w, h'.cell a = some w ∧ w.Stands ∧ w.prev = none
  last : ∀ a v, v.Stands → (some a ≠ x → v.next = none) → h.cell a = some v →
    ∃ w, h'.cell a = some w ∧ w.Stands ∧ (some a ≠ x → w.next = none)

/-- What stands keeps its links. -/
theorem KeepsStanding.of_cells {x : Ptr} {h h' : Heap ClientNode}
    (hcell : ∀ a v, v.Stands → h.cell a = some v →
      ∃ w, h'.cell a = some w ∧ w.Stands ∧ w.prev = v.prev ∧ w.next = v.next) :
    KeepsStanding x h h' := by
  refine ⟨fun a v hv hprev ha => ?_, fun a v hv hnext ha => ?_⟩
  · obtain ⟨w, hw, hstands, hback, -⟩ := hcell a v hv ha
    exact ⟨w, hw, hstands, hback.trans hprev⟩
  · obtain ⟨w, hw, hstands, -, hon⟩ := hcell a v hv ha
    exact ⟨w, hw, hstands, fun hx => hon.trans (hnext hx)⟩

theorem KeepsStanding.refl (x : Ptr) (h : Heap ClientNode) : KeepsStanding x h h :=
  .of_cells fun _ v hv hcell => ⟨v, hcell, hv, rfl, rfl⟩

theorem Ends.keep {h h' : Heap ClientNode} {x : Ptr} {job job' : Job}
    (he : Ends h x job) (hkeep : KeepsStanding x h h') (hhead : job'.head = job.head)
    (htail : job'.tail = job.tail) :
    Ends h' x job' := by
  obtain ⟨⟨m, u, hm, hu, hstands, hprev⟩, t, w, ht, hw, hlast, hnext⟩ := he
  obtain ⟨u', hu', hstands', hprev'⟩ := hkeep.first m u hstands hprev hu
  obtain ⟨w', hw', hlast', hnext'⟩ := hkeep.last t w hlast hnext hw
  exact ⟨⟨m, u', hhead.trans hm, hu', hstands', hprev'⟩, t, w', htail.trans ht, hw',
    hlast', hnext'⟩

/-- What is linked anew stands in no list. -/
theorem Relinked.outside {h h' : Heap ClientNode} {xs : List Nat}
    (hr : Relinked nodeLinks h h' xs)
    (hxs : ∀ a ∈ xs, ∃ v, h.cell a = some v ∧ ¬ v.Stands) :
    ∀ a v, v.Stands → (h'.cell a = some v ↔ h.cell a = some v) := by
  intro a v hv
  by_cases ha : a ∈ xs
  · obtain ⟨w, hw, hnot⟩ := hxs a ha
    have hclient := hr.data ClientNode.client (fun _ _ => rfl) (fun _ _ => rfl) a
    constructor
    · intro hcell
      rw [hcell, hw] at hclient
      refine absurd (fun heq => hv ?_) hnot
      exact (Option.some.inj hclient).trans heq
    · intro hcell
      cases hw.symm.trans hcell
      exact absurd hv hnot
  · rw [hr.same a ha]

namespace Tidy

variable {supply : JobSupply} {x : Ptr} {s s' : Server}

theorem keep (h : Tidy x s) (hhead : s'.pHead = s.pHead)
    (hbacked : Backed nodeLinks ClientNode.Stands x s'.nodes)
    (hnodes : KeepsStanding x s.nodes s'.nodes) (hjobs : KeepsEnds s.jobs s'.jobs) :
    Tidy x s' := by
  refine ⟨hbacked, fun j v hj hv => ?_, fun j k v w hj hk hv hw heq => ?_⟩
  · obtain ⟨u, hu, hfirst, hlast⟩ := hjobs j v hv
    exact (h.ends j u (hhead ▸ hj) hu).keep hnodes hfirst hlast
  · obtain ⟨v', hv', -, htail⟩ := hjobs j v hv
    obtain ⟨w', hw', -, htail'⟩ := hjobs k w hw
    exact h.apart j k v' w' (hhead ▸ hj) (hhead ▸ hk) hv' hw'
      (htail.symm.trans (heq.trans htail'))

/-- Nothing happens to the nodes. -/
theorem of_nodes (h : Tidy x s) (hhead : s'.pHead = s.pHead)
    (hnodes : s'.nodes = s.nodes) (hjobs : KeepsEnds s.jobs s'.jobs) :
    Tidy x s' := by
  refine h.keep hhead ?_ ?_ hjobs
  · rw [hnodes]
    exact h.backed
  · rw [hnodes]
    exact KeepsStanding.refl x _

/-- Nodes that stand in no list change. -/
theorem outside (h : Tidy x s) (hhead : s'.pHead = s.pHead)
    (hsame : ∀ a v, v.Stands → (s'.nodes.cell a = some v ↔ s.nodes.cell a = some v))
    (hjobs : KeepsEnds s.jobs s'.jobs) : Tidy x s' :=
  h.keep hhead (h.backed.outside hsame)
    (.of_cells fun a v hv hcell => ⟨v, (hsame a v hv).mpr hcell, hv, rfl, rfl⟩) hjobs

theorem weaken (h : Tidy none s) (x : Ptr) : Tidy x s := by
  refine ⟨h.backed.weaken x, fun j v hj hv => ?_, h.apart⟩
  obtain ⟨hfirst, t, w, ht, hw, hstands, hnext⟩ := h.ends j v hj hv
  exact ⟨hfirst, t, w, ht, hw, hstands, fun _ => hnext fun heq => by cases heq⟩

/-- The node that was left out leads nowhere. -/
theorem of_next_none {m : Nat} {u : ClientNode} (h : Tidy (some m) s)
    (hu : s.nodes.cell m = some u) (hnext : u.next = none) : Tidy none s := by
  refine ⟨h.backed.of_next_none hu hnext, fun j v hj hv => ?_, h.apart⟩
  obtain ⟨hfirst, t, w, ht, hw, hstands, hlast⟩ := h.ends j v hj hv
  refine ⟨hfirst, t, w, ht, hw, hstands, fun _ => ?_⟩
  by_cases htm : t = m
  · rw [htm, hu] at hw
    cases hw
    exact hnext
  · exact hlast fun heq => htm (Option.some.inj heq)

/-- The index of a piece is changed. -/
theorem setIndex (h : Tidy x s) {a : Nat} {v : ClientNode} {i : Int}
    (hv : s.nodes.cell a = some v) (hhead : s'.pHead = s.pHead)
    (hnodes : s'.nodes = s.nodes.set a (some { v with index := i }))
    (hjobs : s'.jobs = s.jobs) : Tidy x s' := by
  refine h.keep hhead ?_ (.of_cells fun b w hw hcell => ?_)
    (hjobs ▸ KeepsEnds.refl _)
  · rw [hnodes]
    exact h.backed.set_data hv Iff.rfl rfl rfl
  · rw [hnodes]
    by_cases hba : b = a
    · rw [hba] at hcell ⊢
      cases hv.symm.trans hcell
      exact ⟨_, Heap.cell_set_self hv _, hw, rfl, rfl⟩
    · exact ⟨w, (Heap.cell_set_ne _ hba _).trans hcell, hw, rfl, rfl⟩

/-- The next node that is handed out is the tail of no job. -/
theorem tail_fresh (h : Tidy x s) {k : Nat} {v : JobNode} (hk : s.pHead ≠ some k)
    (hv : s.jobs.cell k = some v) : v.job.tail ≠ some s.nodes.next := by
  intro heq
  obtain ⟨-, t, w, ht, hw, -⟩ := h.ends k v hk hv
  cases heq.symm.trans ht
  exact absurd (s.nodes.lt_next hw) (Nat.lt_irrefl _)

/-- One job, `n`, gets a tail that no job has, the others keep theirs. -/
theorem apart_new (h : Tidy x s) (n : Nat) {q : Ptr} (hhead : s'.pHead = s.pHead)
    (hfree : ∀ k v, s.pHead ≠ some k → s.jobs.cell k = some v → v.job.tail ≠ q)
    (hold : ∀ k v, k ≠ n → s'.jobs.cell k = some v →
      ∃ y, s.jobs.cell k = some y ∧ v.job.tail = y.job.tail)
    (hnew : ∀ v, s'.jobs.cell n = some v → v.job.tail = q) :
    ∀ k l v w, s'.pHead ≠ some k → s'.pHead ≠ some l → s'.jobs.cell k = some v →
      s'.jobs.cell l = some w → v.job.tail = w.job.tail → k = l := by
  have hown : ∀ k v, k ≠ n → s'.pHead ≠ some k → s'.jobs.cell k = some v →
      v.job.tail ≠ q := by
    intro k v hkn hk hv
    obtain ⟨y, hy, htail⟩ := hold k v hkn hv
    rw [htail]
    exact hfree k y (hhead ▸ hk) hy
  intro k l v w hk hl hv hw heq
  by_cases hkn : k = n
  · by_cases hln : l = n
    · exact hkn.trans hln.symm
    · exact absurd (heq.symm.trans (hnew v (hkn ▸ hv))) (hown l w hln hl hw)
  · by_cases hln : l = n
    · exact absurd (heq.trans (hnew w (hln ▸ hw))) (hown k v hkn hk hv)
    · obtain ⟨v', hv', hvt⟩ := hold k v hkn hv
      obtain ⟨w', hw', hwt⟩ := hold l w hln hw
      exact h.apart k l v' w' (hhead ▸ hk) (hhead ▸ hl) hv' hw'
        (hvt.symm.trans (heq.trans hwt))

/-! ### A job is added -/

/-- The new job's first node is left out. -/
theorem addJob (h : Tidy none s) {jobId : Int} {task p : Ptr}
    (hhead : s.pHead ≠ some s.jobs.next)
    (hr : addJob supply s jobId task = .ok (p, s')) :
    ∃ j m u v, p = some j ∧ Tidy (some m) s' ∧ s'.nodes.cell m = some u ∧
      s'.jobs.cell j = some v ∧
      v.job.tail = some m ∧ s'.pHead ≠ some j ∧ s'.reg = s.reg ∧
      u.next = (supply.job s.jobs.next).bind fun w => w.job.tail := by
  obtain ⟨t, v, w, u, ht, hv, hw, -, rfl, hadded⟩ := addJob_ok jobId task hr
  have hfresh : s.nodes.cell s.nodes.next = none := s.nodes.fresh _ (Nat.le_refl _)
  have hgrow : (s.nodes.grow (some u)).cell s.nodes.next = some u :=
    Heap.cell_grow_self _ _
  have hnodes : s'.nodes = (s.nodes.grow (some u)).set s.nodes.next
      (some { u with
        prev := none, client := some 0xdeadbeef, next := w.job.tail }) := by
    rw [hadded.state]
  have hpHead : s'.pHead = s.pHead := by rw [hadded.state]
  have hnew : s'.nodes.cell s.nodes.next
      = some { u with
        prev := none, client := some 0xdeadbeef, next := w.job.tail } := by
    rw [hnodes, Heap.cell_set_self hgrow]
  have hold : ∀ a, a ≠ s.nodes.next → s'.nodes.cell a = s.nodes.cell a := by
    intro a ha
    rw [hnodes, Heap.cell_set_ne _ ha, Heap.cell_grow_ne _ ha]
  have hkeep : KeepsStanding (some s.nodes.next) s.nodes s'.nodes := by
    refine .of_cells fun a x hx hcell => ⟨x, (hold a ?_).trans hcell, hx, rfl, rfl⟩
    rintro rfl
    cases hfresh.symm.trans hcell
  have hbefore : ∀ k x, k ≠ s.jobs.next → s'.jobs.cell k = some x →
      ∃ y, s.jobs.cell k = some y ∧ x.job.head = y.job.head ∧
      x.job.tail = y.job.tail := by
    intro k x hk hx
    by_cases hkt : k = t
    · rw [hkt] at hx ⊢
      cases hadded.last.symm.trans hx
      exact ⟨v, hv, rfl, rfl⟩
    · exact ⟨x, (hadded.old k hkt hk).symm.trans hx, rfl, rfl⟩
  refine ⟨s.jobs.next, s.nodes.next, _, _, rfl, ⟨?_, fun k x hk hx => ?_,
      h.apart_new s.jobs.next hpHead (fun _ _ => h.tail_fresh) (fun k x hk hx => ?_)
        fun x hx => ?_⟩,
    hnew, hadded.new, rfl, by rw [hpHead]; exact hhead, by rw [hadded.state], ?_⟩
  · exact h.backed.fresh hfresh hold
  · rw [hpHead] at hk
    by_cases hkn : k = s.jobs.next
    · rw [hkn] at hx
      cases hadded.new.symm.trans hx
      have hstands : ClientNode.Stands { u with
          prev := none, client := some 0xdeadbeef, next := w.job.tail } := by
        intro hclient
        cases hclient
      exact ⟨⟨_, _, rfl, hnew, hstands, rfl⟩, _, _, rfl, hnew, hstands,
        fun hne => absurd rfl hne⟩
    · obtain ⟨y, hy, hfirst, hlast⟩ := hbefore k x hkn hx
      exact ((h.weaken _).ends k y hk hy).keep hkeep hfirst hlast
  · obtain ⟨y, hy, -, htail⟩ := hbefore k x hk hx
    exact ⟨y, hy, htail⟩
  · cases hadded.new.symm.trans hx
    rfl
  · rw [hw, Option.bind_some]

/-- A client node is put after the tail of the job, which may have been left out. -/
theorem addClientToJob {j c : Nat} {v : JobNode} {node : Ptr} (h : Tidy x s)
    (hj : s.pHead ≠ some j) (hv : s.jobs.cell j = some v)
    (hx : x = none ∨ v.job.tail = x)
    (hr : addClientToJob supply s j (some c) = .ok (node, s')) :
    Tidy none s' ∧ s'.pHead = s.pHead ∧ s'.reg = s.reg ∧
      ∃ v', s'.jobs.cell j = some v' := by
  obtain ⟨y, t, vt, u, -, hadded⟩ := addClientToJob_ok hr
  cases hv.symm.trans hadded.job
  have hfresh : s.nodes.cell s.nodes.next = none := s.nodes.fresh _ (Nat.le_refl _)
  obtain ⟨⟨m, um, hm, hum, hmstands, hmprev⟩, t', wt, ht, hwt, htstands, -⟩ :=
    h.ends j v hj hv
  cases hadded.tail.symm.trans ht
  have hta : t ≠ s.nodes.next := Nat.ne_of_lt (s.nodes.lt_next hwt)
  have hbefore := hadded.before
  rw [Heap.cell_grow_ne _ hta] at hbefore
  have hstands : u.Stands := by
    rw [ClientNode.Stands, hadded.made]
    intro hclient
    cases hclient
  have hbacked : Backed nodeLinks ClientNode.Stands (some t) s.nodes := by
    rcases hx with rfl | rfl
    · exact h.backed.weaken _
    · exact hadded.tail ▸ h.backed
  have happend :=
    hbacked.append (fun _ _ => Iff.rfl) hfresh (fun a ha => Heap.cell_grow_ne _ ha _)
      (Heap.cell_grow_self _ (some u)) hstands (by rw [hadded.made]; rfl)
      (by rw [hadded.made]; rfl) hta
      hadded.before
  have hjobs : s'.jobs = s.jobs.set j (some { v with
      job := { v.job with tail := some s.nodes.next }
      numClients := v.numClients + 1 }) := by rw [hadded.state]
  have hpHead : s'.pHead = s.pHead := by rw [hadded.state]
  have hnodes : s'.nodes
      = (s.nodes.grow (some u)).set t (some { vt with
        next := some s.nodes.next }) := by
    rw [hadded.state]
  have hnew : s'.nodes.cell s.nodes.next = some u := by
    rw [hnodes, Heap.cell_set_ne _ hta.symm, Heap.cell_grow_self]
  have hold : ∀ a w, s.nodes.cell a = some w → a ≠ t → s'.nodes.cell a = some w :=
    fun a w hw hat =>
    (hadded.old (Nat.ne_of_lt (s.nodes.lt_next hw)) hat).trans hw
  have hheads : ∀ a w, w.Stands → s.nodes.cell a = some w →
      ∃ w', s'.nodes.cell a = some w' ∧ w'.Stands ∧ w'.prev = w.prev := by
    intro a w hw hcell
    by_cases hat : a = t
    · rw [hat] at hcell ⊢
      have hsame : w = vt := Option.some.inj (hcell.symm.trans hbefore)
      refine ⟨{ vt with next := some s.nodes.next }, ?_, hsame ▸ hw, hsame ▸ rfl⟩
      rw [hnodes, Heap.cell_set_self hadded.before]
    · exact ⟨w, hold a w hcell hat, hw, rfl⟩
  refine ⟨⟨hnodes ▸ happend, fun k y hk hy => ?_,
      h.apart_new j hpHead (fun _ _ => h.tail_fresh) (fun k y hkj hy => ?_)
        fun y hy => ?_⟩, hpHead,
    by rw [hadded.state], _, hjobs ▸ Heap.cell_set_self hv _⟩
  · rw [hpHead] at hk
    rw [hjobs] at hy
    by_cases hkj : k = j
    · rw [hkj, Heap.cell_set_self hv] at hy
      cases hy
      obtain ⟨um', hum', hmstands', hmprev'⟩ := hheads m um hmstands hum
      exact ⟨⟨m, um', hm, hum', hmstands', hmprev'.trans hmprev⟩, _, u, rfl, hnew,
        hstands, fun _ => by rw [hadded.made]⟩
    · rw [Heap.cell_set_ne _ hkj] at hy
      obtain ⟨⟨d, ud, hd, hud, hdstands, hdprev⟩, e, we, he, hwe, hestands, hnext⟩ :=
        h.ends k y hk hy
      obtain ⟨ud', hud', hdstands', hdprev'⟩ := hheads d ud hdstands hud
      have het : e ≠ t := by
        rintro rfl
        exact hkj (h.apart k j y v hk hj hy hv (he.trans hadded.tail.symm))
      refine ⟨⟨d, ud', hd, hud', hdstands', hdprev'.trans hdprev⟩, e, we, he,
        hold e we hwe het, hestands, fun _ => hnext ?_⟩
      rcases hx with rfl | rfl
      · intro heq
        cases heq
      · exact fun heq => het (Option.some.inj (heq.trans hadded.tail))
  · rw [hjobs, Heap.cell_set_ne _ hkj] at hy
    exact ⟨y, hy, rfl⟩
  · rw [hjobs, Heap.cell_set_self hv] at hy
    cases hy
    rfl

/-- The loop of `initJob`: if it reserves nobody, nobody is idle. -/
theorem reserveClients {j fuel : Nat} {p x : Ptr} {v : JobNode} (h : Tidy x s)
    (hj : s.pHead ≠ some j) (hv : s.jobs.cell j = some v)
    (hx : x = none ∨ v.job.tail = x)
    (hr : reserveClients supply j fuel p s = .ok s') :
    (s' = s ∧ idleMember s.reg fuel p = .ok none) ∨ Tidy none s' := by
  replace hr := reserveClients_rounds hr
  induction hr generalizing x v with
  | done fuel => exact Or.inl ⟨rfl, by rw [idleMember]⟩
  | @busy fuel cg c y ci s hy hc hci hbusy _ ih =>
      refine (ih h hj hv hx).imp_left fun hsame => ⟨hsame.1, ?_⟩
      rw [idleMember, Heap.load_some hy, ok_bind, hc, Heap.load_some hci, ok_bind,
        if_pos hbusy]
      exact hsame.2
  | @idle fuel cg c y ci node s s₁ s₂ s₃ _ _ _ _ hadd hjn hset _ ih =>
      obtain ⟨h₁, hpHead, -, v₁, hv₁⟩ := h.addClientToJob hj hv hx hadd
      obtain ⟨d, w, -, -, hs₂⟩ := serverUpdateJobNode_ok hjn
      obtain ⟨d, w, -, -, hs₃⟩ := setBusy_ok hset
      have hsame : s₃.nodes = s₁.nodes ∧ s₃.jobs = s₁.jobs ∧
          s₃.pHead = s₁.pHead := by
        rw [hs₃, hs₂]
        exact ⟨rfl, rfl, rfl⟩
      obtain ⟨hnodes, hjobs, hhead⟩ := hsame
      have h₃ : Tidy none s₃ := h₁.of_nodes hhead hnodes (hjobs ▸ KeepsEnds.refl _)
      -- from now on nothing is left out
      rcases ih h₃ (hhead.trans hpHead ▸ hj) (hjobs ▸ hv₁) (Or.inl rfl) with
        ⟨rfl, -⟩ | h'
      · exact Or.inr h₃
      · exact Or.inr h'

theorem assignFrom {id taskType : Int} {fuel i : Nat} {p : Ptr} (h : Tidy x s)
    (hr : assignFrom id taskType fuel i p s = .ok s') : Tidy x s' := by
  replace hr := assignFrom_rounds hr
  induction hr with
  | done fuel i => exact h
  | send hu _ _ hsend _ ih =>
      obtain ⟨sent, rfl⟩ := shSendEncodedData_sent hsend
      exact ih (h.setIndex hu rfl rfl rfl)

theorem initJob (h : Tidy none s) {groupId jobId taskType system : Int}
    {inputFile : Bytes} {started : Bool} (hhead : s.pHead ≠ some s.jobs.next)
    (hstale : 0 < groupId → 0 ≤ jobId → s.idleIn groupId.toNat = .ok none →
      ((supply.job s.jobs.next).bind fun w => w.job.tail) = none)
    (hr : initJob supply s groupId jobId taskType inputFile system
      = .ok (started, s')) :
    Tidy none s' := by
  rcases initJob_cases hr with ⟨-, -, rfl⟩ | ⟨task, tasks, k, s₁, s₂, t,
    hinit, hcases⟩
  · exact h
  have h₀ : Tidy none { s with tasks := tasks } :=
    h.of_nodes rfl rfl (KeepsEnds.refl _)
  obtain ⟨j, m, u, v, hk, h₁, hu, hv, htail, hj, hreg, hnext⟩ :=
    h₀.addJob hhead hinit.added
  cases hk
  obtain ⟨cgh, hgid, hreserve⟩ := hinit.reserved
  have h₂ : Tidy none s₂ := by
    rcases h₁.reserveClients hj hv (Or.inr htail) hreserve with ⟨rfl, hidle⟩ | h₂
    · have hvalid := hinit.valid
      refine h₁.of_next_none hu (hnext.trans (hstale (by omega) (by omega) ?_))
      rw [Server.idleIn, hgid]
      rw [hreg] at hidle
      exact hidle
    · exact h₂
  rcases hcases with ⟨-, -, rfl⟩ | ⟨-, commands, ⟨-, -, rfl⟩ | hassign⟩
  · exact h₂
  · exact h₂.of_nodes rfl rfl (KeepsEnds.refl _)
  · have h₃ : Tidy none { s₂ with commands := commands } :=
      h₂.of_nodes rfl rfl (KeepsEnds.refl _)
    obtain ⟨x, -, hassign⟩ := bind_ok.mp hassign
    obtain ⟨vh, -, hassign⟩ := bind_ok.mp hassign
    obtain ⟨w, -, hassign⟩ := bind_ok.mp hassign
    obtain ⟨s₄, hloop, hassign⟩ := bind_ok.mp hassign
    cases hassign
    exact h₃.assignFrom hloop

/-! ### With the lists in view -/

section Shown
variable {b : Board} {g : Layout} {j : Nat}

theorem not_head (hg : Shows s b g) (hj : j ∈ b.order) : s.pHead ≠ some j := by
  obtain ⟨p, hp, -, hnd, -⟩ := hg.jobs.list
  rw [hp]
  intro heq
  cases heq
  exact (List.nodup_cons.mp hnd).1 hj

theorem head_old (hg : Shows s b g) : s.pHead ≠ some s.jobs.next := by
  obtain ⟨p, hp, ⟨-, v, hv, -⟩, -⟩ := hg.jobs.list
  rw [hp]
  intro heq
  cases heq
  exact absurd (s.jobs.lt_next hv) (Nat.lt_irrefl _)

theorem stands (h : Tidy none s) (hg : Shows s b g) (hj : j ∈ b.order) {a : Nat}
    (ha : a ∈ g.list j) {v : ClientNode} (hv : s.nodes.cell a = some v) :
    v.Stands := by
  rcases List.mem_cons.mp ha with rfl | ha
  · obtain ⟨jv, hjv, hjok⟩ := hg.jobs.job j hj
    obtain ⟨⟨m, u, hm, hu, hstands, -⟩, -⟩ := h.ends j jv (not_head hg hj) hjv
    cases hjok.first.symm.trans hm
    cases hv.symm.trans hu
    exact hstands
  · obtain ⟨w, c, hw, hc, -⟩ := (hg.nodes.clients j hj).of_mem ha
    cases hv.symm.trans hw
    intro hnone
    cases hc.symm.trans hnone

/-- The list of a job is right in both directions. -/
theorem exact (h : Tidy none s) (hg : Shows s b g) (hj : j ∈ b.order) :
    Seg nodeLinks s.nodes (fun _ => False) none (some (g.sentinel j)) (g.list
      j) none := by
  have hclients := hg.nodes.clients j hj
  have hexact := hclients.seg.exact h.backed (fun a ha v hv => h.stands hg hj ha hv)
    fun a ha => by
    cases ha
    exact hclients.seg.cell_of_mem List.mem_cons_self
  -- nothing comes after the tail
  obtain ⟨jv, hjv, hjok⟩ := hg.jobs.job j hj
  obtain ⟨-, t, w, ht, hw, -, hnext⟩ := h.ends j jv (not_head hg hj) hjv
  obtain ⟨ys, hys⟩ : ∃ ys, g.sentinel j :: g.nodes j = ys ++ [t] := by
    have hlast : lastOf none (g.sentinel j :: g.nodes j) = some t :=
      hjok.last.symm.trans ht
    rcases List.eq_nil_or_concat' (g.sentinel j :: g.nodes j) with heq | ⟨ys, d, heq⟩
    · cases heq
    · rw [heq, lastOf_append_singleton] at hlast
      cases hlast
      exact ⟨ys, heq⟩
  have hsplit := hexact
  rw [hys] at hsplit
  obtain ⟨-, u, hu, -, hstop⟩ := seg_append.mp hsplit
  cases hw.symm.trans hu
  have hstop' : Leads (fun _ => False) w.next (g.stop j) := hstop
  rw [← hstop'.eq, hnext fun heq => by cases heq] at hexact
  exact hexact

/-- A list without repetitions around one of its nodes. -/
theorem around (h : Tidy none s) (hg : Shows s b g) (hj : j ∈ b.order)
    {pre post : List Nat} {a : Nat} (hnodes : g.nodes j = pre ++ a :: post) :
    ∃ p vp v, s.nodes.cell p = some vp ∧ s.nodes.cell a = some v ∧ vp.next = some a ∧
      v.prev = some p ∧
      p ≠ a ∧ p ∈ g.list j ∧ v.next = post.head? ∧
      (∀ q, v.next = some q → q ≠ a ∧ p ≠ q) := by
  have hexact := h.exact hg hj
  have hnd := (hg.nodes.clients j hj).nodup
  rw [← Layout.list] at hnd
  obtain ⟨xs, p, hxs⟩ : ∃ xs p, g.sentinel j :: pre = xs ++ [p] := by
    rcases List.eq_nil_or_concat' (g.sentinel j :: pre) with heq | ⟨xs, p, heq⟩
    · cases heq
    · exact ⟨xs, p, heq⟩
  have hlist : g.list j = xs ++ p :: a :: post := by
    rw [Layout.list, hnodes, ← List.cons_append, hxs, List.append_assoc]
    rfl
  rw [hlist] at hexact hnd ⊢
  obtain ⟨vp, v, hvp, hv, hnext, hprev⟩ := hexact.neighbours
  obtain ⟨-, hnd', -⟩ := List.nodup_append.mp hnd
  obtain ⟨hpa, hnd''⟩ := List.nodup_cons.mp hnd'
  have hv' : v.next = post.head? := by
    obtain ⟨-, w, hw, -, -, w', hw', -, hrest⟩ := seg_append.mp hexact
    cases hv.symm.trans hw'
    cases post with
    | nil => exact Leads.eq hrest
    | cons q post => exact hrest.1.eq
  refine ⟨p, vp, v, hvp, hv, hnext, hprev, fun heq => hpa (heq ▸ List.mem_cons_self),
    by simp, hv', fun q hq => ?_⟩
  rw [hv'] at hq
  have hqmem : q ∈ post := List.mem_of_mem_head? hq
  exact ⟨fun heq => (List.nodup_cons.mp hnd'').1 (heq ▸ hqmem),
    fun heq => hpa (heq ▸ List.mem_cons_of_mem _ hqmem)⟩

/-- The last node of a job is freed. -/
theorem freeLast (h : Tidy none s) (hg : Shows s b g) (hj : j ∈ b.order)
    {pre : List Nat} {a : Nat} {v : ClientNode} {jv jv' : JobNode}
    {nodes nodes' : Heap ClientNode} {reg : Registry}
    (hnodes : g.nodes j = pre ++ [a]) (hv : s.nodes.cell a = some v)
    (hjv : s.jobs.cell j = some jv) (hhead : jv'.job.head = jv.job.head)
    (htail : jv'.job.tail = v.prev)
    (hmod : s.nodes.modify v.prev (fun w => { w with next := none }) = .ok nodes)
    (hfree : nodes.free (some a) = .ok nodes') :
    Tidy none { s with
      reg := reg, nodes := nodes', jobs := s.jobs.set j (some jv') } := by
  obtain ⟨p, vp, w, hvp, hw, hpnext, hprev, hpa, hplist, -⟩ := h.around hg hj hnodes
  cases hv.symm.trans hw
  rw [hprev, Heap.modify_some hvp] at hmod
  cases hmod
  obtain ⟨u, -, rfl⟩ := Heap.free_ok.mp hfree
  have hhd := not_head hg hj
  have hpstands := h.stands hg hj hplist hvp
  have hold : ∀ d, d ≠ a → d ≠ p →
      ((s.nodes.set p (some { vp with next := none })).set a none).cell d
      = s.nodes.cell d := fun d hda hdp => by
        rw [Heap.cell_set_ne _ hda, Heap.cell_set_ne _ hdp]
  have hp : ((s.nodes.set p (some { vp with next := none })).set a none).cell p
      = some { vp with next := none } := by
        rw [Heap.cell_set_ne _ hpa, Heap.cell_set_self hvp]
  -- the freed node is the tail of this job only
  obtain ⟨-, t, wt, ht, hwt, -⟩ := h.ends j jv hhd hjv
  have hta : t = a := by
    obtain ⟨ju, hju, hjok⟩ := hg.jobs.job j hj
    cases hjv.symm.trans hju
    have hlast := hjok.last.symm.trans ht
    rw [hnodes, lastOf_append_singleton] at hlast
    exact (Option.some.inj hlast).symm
  have hfirst : ∀ d ud, ud.Stands → ud.prev = none → s.nodes.cell d = some ud →
      ∃ ud', ((s.nodes.set p (some { vp with next := none })).set a none).cell d
        = some ud' ∧ ud'.Stands ∧
        ud'.prev = none := by
    intro d ud hstands hback hud
    have hda : d ≠ a := by
      rintro rfl
      cases hv.symm.trans hud
      cases hprev.symm.trans hback
    by_cases hdp : d = p
    · rw [hdp] at hud ⊢
      cases hvp.symm.trans hud
      exact ⟨_, hp, hpstands, hback⟩
    · exact ⟨ud, (hold d hda hdp).trans hud, hstands, hback⟩
  refine ⟨h.backed.free_last (fun _ _ => Iff.rfl) hv hprev hpa hvp,
    fun k y hk hy => ?_, ?_⟩
  · have hy' : (s.jobs.set j (some jv')).cell k = some y := hy
    by_cases hkj : k = j
    · rw [hkj, Heap.cell_set_self hjv] at hy'
      cases hy'
      obtain ⟨⟨m, um, hm, hum, hmstands, hmprev⟩, -⟩ := h.ends j jv hhd hjv
      obtain ⟨um', hum', hmstands', hmprev'⟩ := hfirst m um hmstands hmprev hum
      exact ⟨⟨m, um', hhead.trans hm, hum', hmstands', hmprev'⟩, p, _,
        htail.trans hprev, hp, hpstands, fun _ => rfl⟩
    · rw [Heap.cell_set_ne _ hkj] at hy'
      obtain ⟨⟨m, um, hm, hum, hmstands, hmprev⟩, e, we, he, hwe, hestands, hnext⟩ :=
        h.ends k y hk hy'
      obtain ⟨um', hum', hmstands', hmprev'⟩ := hfirst m um hmstands hmprev hum
      have hea : e ≠ a := by
        rintro rfl
        exact hkj (h.apart k j y jv hk hhd hy' hjv (he.trans (hta ▸ ht).symm))
      have hep : e ≠ p := by
        rintro rfl
        cases hvp.symm.trans hwe
        cases hpnext.symm.trans (hnext fun heq => by cases heq)
      exact ⟨⟨m, um', hm, hum', hmstands', hmprev'⟩, e, we, he,
        (hold e hea hep).trans hwe, hestands, hnext⟩
  · -- the new tail led on to the old one, as no other tail did
    refine h.apart_new (q := v.prev) j rfl (fun i y hi hy heq => ?_)
      (fun i y hij hy => ?_) fun y hy => ?_
    · obtain ⟨-, e, we, he, hwe, -, hnext⟩ := h.ends i y hi hy
      cases (heq.trans hprev).symm.trans he
      cases hvp.symm.trans hwe
      cases hpnext.symm.trans (hnext fun heq => by cases heq)
    · exact ⟨y, (Heap.cell_set_ne _ hij _).symm.trans hy, rfl⟩
    · cases (Heap.cell_set_self hjv _).symm.trans hy
      exact htail

/-- A node between two others is taken out of the list, and its client is
forgotten. -/
theorem takeOut (h : Tidy none s) (hg : Shows s b g) (hj : j ∈ b.order)
    {pre post : List Nat} {a : Nat} {v : ClientNode} {n : Heap ClientNode}
    (hnodes : g.nodes j = pre ++ a :: post) (hv : s.nodes.cell a = some v)
    (hunlink : unlink nodeLinks s.nodes v = .ok n) :
    n.cell a = some v ∧ (∀ d, d ∉ g.list j → n.cell d = s.nodes.cell d) ∧
      Tidy none { s with
        nodes := n.set a (some { v with prev := none, next := none, client := none })
          } := by
  obtain ⟨p, vp, u, hvp, hu, hpnext, hprev, hpa, hplist, hnext, hothers⟩ :=
    h.around hg hj hnodes
  cases hv.symm.trans hu
  have halist : a ∈ g.list j := List.mem_cons_of_mem _ (hnodes ▸ by simp)
  have hastands := h.stands hg hj halist hv
  have hpstands := h.stands hg hj hplist hvp
  -- the node has a next one, else `unlink` would have failed
  obtain ⟨q, vp', vq, hvnext, hvp', hvq, hcellp, hcellq, hcell⟩ :=
    @unlink_cells _ nodeLinks _ _ v p hprev (fun q hq => (hothers q hq).2) hunlink
  cases hvp.symm.trans hvp'
  obtain ⟨hqa, hpq⟩ := hothers q hvnext
  have hqlist : q ∈ g.list j := by
    rw [Layout.list, hnodes]
    simp [show q ∈ post from List.mem_of_mem_head? (hnext.symm.trans hvnext)]
  have hqstands := h.stands hg hj hqlist hvq
  have hqprev : vq.prev = some a := by
    obtain ⟨x, hx, -, hback⟩ :=
      h.backed a v q (fun heq => by cases heq) hv hastands hvnext
    cases hvq.symm.trans hx
    exact hback
  have hcella : n.cell a = some v := (hcell a hpa.symm hqa.symm).trans hv
  have hbacked := h.backed.unlink (fun _ _ => Iff.rfl) (fun _ _ => Iff.rfl)
    { v with prev := none, next := none, client := none } hv hastands hprev hvnext
      hpa hqa hpq hunlink
    fun hstands => hstands rfl
  have hkeep : KeepsStanding none s.nodes
      (n.set a (some { v with prev := none, next := none, client := none })) := by
    refine ⟨fun d x hx hback hd => ?_, fun d x hx hon hd => ?_⟩
    · have hda : d ≠ a := by
        rintro rfl
        cases hv.symm.trans hd
        cases hprev.symm.trans hback
      have hdq : d ≠ q := by
        rintro rfl
        cases hvq.symm.trans hd
        cases hqprev.symm.trans hback
      rw [Heap.cell_set_ne _ hda]
      by_cases hdp : d = p
      · rw [hdp] at hd ⊢
        cases hvp.symm.trans hd
        exact ⟨_, hcellp, hpstands, hback⟩
      · exact ⟨x, (hcell d hdp hdq).trans hd, hx, hback⟩
    · have hon' : x.next = none := hon fun heq => by cases heq
      have hda : d ≠ a := by
        rintro rfl
        cases hv.symm.trans hd
        cases hvnext.symm.trans hon'
      have hdp : d ≠ p := by
        rintro rfl
        cases hvp.symm.trans hd
        cases hpnext.symm.trans hon'
      rw [Heap.cell_set_ne _ hda]
      by_cases hdq : d = q
      · rw [hdq] at hd ⊢
        cases hvq.symm.trans hd
        exact ⟨_, hcellq, hqstands, fun _ => hon'⟩
      · exact ⟨x, (hcell d hdp hdq).trans hd, hx, hon⟩
  refine ⟨hcella, fun d hd => hcell d ?_ ?_,
    h.keep rfl hbacked hkeep (KeepsEnds.refl _)⟩
  · rintro rfl
    exact hd hplist
  · rintro rfl
    exact hd hqlist

/-- What is done in the queue is done outside the lists. -/
theorem enqueue (h : Tidy none s) {a : Nat} {w : ClientNode}
    (hw : s.nodes.cell a = some w) (hclient : w.client = none)
    (hqueue : ∀ d, s.qHead = some d → ∃ x, s.nodes.cell d = some x ∧ x.client = none)
    (hr : enqueuePendingJob s (some j) (some a) = .ok s') : Tidy none s' := by
  obtain ⟨u, nodes, hu, hattach, rfl⟩ := enqueuePendingJob_ok hr
  cases hw.symm.trans hu
  have hwait : ∀ d x, x.Stands →
      ((s.nodes.set a (some { w with next := s.qHead, prev := none })).cell d
        = some x ↔
        s.nodes.cell d = some x) := by
    intro d x hx
    by_cases hda : d = a
    · rw [hda, Heap.cell_set_self hw, hw]
      constructor
      · intro heq
        cases heq
        exact absurd hclient hx
      · intro heq
        cases heq
        exact absurd hclient hx
    · rw [Heap.cell_set_ne _ hda]
  obtain ⟨xs, hrel, hxs⟩ := attach_relinked hattach
  have haside : ∀ d ∈ xs, ∃ x,
      (s.nodes.set a (some { w with next := s.qHead, prev := none })).cell d = some x
        ∧ ¬ x.Stands := by
    intro d hd
    by_cases hda : d = a
    · rw [hda, Heap.cell_set_self hw]
      exact ⟨_, rfl, fun hstands => hstands hclient⟩
    · obtain ⟨x, hx, hnone⟩ := hqueue d (hxs d hd)
      rw [Heap.cell_set_ne _ hda]
      exact ⟨x, hx, fun hstands => hstands hnone⟩
  exact h.outside rfl (fun d x hx =>
    (hrel.outside haside d x hx).trans (hwait d x hx)) (KeepsEnds.refl _)

/-- A node between two others is put in the queue. -/
theorem queuePiece (h : Tidy none s) (hg : Shows s b g) (hj : j ∈ b.order)
    {pre post : List Nat} {a : Nat} (hnodes : g.nodes j = pre ++ a :: post)
    (hr : queuePiece s j a = .ok s') : Tidy none s' := by
  obtain ⟨v, hload, hr⟩ := bind_ok.mp hr
  obtain ⟨n, hunlink, hr⟩ := bind_ok.mp hr
  obtain ⟨n₁, hn₁, hr⟩ := bind_ok.mp hr
  obtain ⟨s₁, henqueue, hr⟩ := bind_ok.mp hr
  obtain ⟨jobs, hjobs, hr⟩ := bind_ok.mp hr
  cases hr
  obtain ⟨d, hd, hv⟩ := Heap.load_ok.mp hload
  cases hd
  obtain ⟨hcell, hsame, htaken⟩ := h.takeOut hg hj hnodes hv hunlink
  rw [Heap.modify_some hcell] at hn₁
  cases hn₁
  have hqueue : ∀ d, s.qHead = some d → ∃ x,
      (n.set a (some { v with prev := none, next := none, client := none })).cell d
        = some x ∧
        x.client = none := by
    intro d hd
    have hlist := hg.nodes.queue.list
    have hdq : d ∈ g.queue := by
      rw [hd] at hlist
      cases hgq : g.queue with
      | nil =>
          rw [hgq] at hlist
          cases Leads.eq hlist
      | cons e ys =>
          rw [hgq] at hlist
          cases hlist.1.eq
          exact List.mem_cons_self
    obtain ⟨x, hx, hnone⟩ := hg.nodes.queue.of_mem hdq
    have hdlist : d ∉ g.list j := fun hmem => hg.nodes.aside j hj hmem hdq
    have hda : d ≠ a := by
      rintro rfl
      exact hdlist (List.mem_cons_of_mem _ (hnodes ▸ by simp))
    exact ⟨x, by rw [Heap.cell_set_ne _ hda, hsame d hdlist, hx], hnone⟩
  exact (htaken.enqueue (Heap.cell_set_self hcell _) rfl hqueue henqueue).of_nodes
    rfl rfl
    (KeepsEnds.modify hjobs fun _ => ⟨rfl, rfl⟩)

/-- A value is merged: no list changes. -/
theorem merge (h : Tidy none s) {x : Int} {s₁ s₂ : Server} {jobs : Heap JobNode}
    (hlock : lockMutex s (some j) = .ok s₁)
    (hjobs : s₁.jobs.modify (some j) (keepMax x) = .ok jobs)
    (hunlock : unlockMutex { s₁ with jobs := jobs } (some j) = .ok s₂) :
    Tidy none s₂ := by
  obtain ⟨a, v, ha, hv, -, rfl⟩ := lockMutex_ok hlock
  cases ha
  obtain ⟨d, w, -, hw, rfl⟩ := unlockMutex_ok hunlock
  have h₁ : KeepsEnds s.jobs (s.jobs.set j (some { v with lock := true })) :=
    KeepsEnds.modify (Heap.modify_some hv fun v => { v with lock := true }) fun _ =>
      ⟨rfl, rfl⟩
  have h₂ : KeepsEnds (s.jobs.set j (some { v with lock := true })) jobs :=
    KeepsEnds.modify hjobs fun v => by
      rw [keepMax_eq]
      exact ⟨rfl, rfl⟩
  have h₃ : KeepsEnds jobs (jobs.set d (some { w with lock := false })) :=
    KeepsEnds.modify (Heap.modify_some hw fun v => { v with lock := false }) fun _ =>
      ⟨rfl, rfl⟩
  exact h.of_nodes rfl rfl ((h₁.trans h₂).trans h₃)

/-- A node that waited goes, and its index is taken over. -/
theorem assignPending (h : Tidy none s) {a c : Nat} {v : ClientNode} {p : Bool}
    (hv : s.nodes.cell a = some v) (hclient : v.client = none)
    (hr : assignPendingJob s j a c = .ok (p, s')) : Tidy none s' := by
  rcases assignPendingJob_ok hr with
    ⟨-, rfl⟩ | ⟨n, u, w, nodes, sent, -, hu, hw, hfree, rfl⟩
  · exact h
  cases hv.symm.trans hu
  obtain ⟨y, hy, rfl⟩ := Heap.free_ok.mp hfree
  have h₁ :
      Tidy none { s with
        nodes := s.nodes.set n (some { w with index := v.index }) } :=
    h.setIndex hw rfl rfl rfl
  have hnone : ¬ y.Stands := by
    have hsame :=
      Heap.map_cell_set (w := { w with index := v.index }) ClientNode.client
        hw (by rfl) a
    rw [hy, hv, Option.map_some, Option.map_some, hclient] at hsame
    exact fun hstands => hstands (Option.some.inj hsame)
  refine h₁.outside rfl (fun d x hx => ?_) (KeepsEnds.refl _)
  show ((s.nodes.set n _).set a none).cell d = some x ↔ _
  by_cases hda : d = a
  · rw [hda, Heap.cell_set_self hy]
    constructor
    · intro heq
      cases heq
    · intro heq
      cases hy.symm.trans heq
      exact absurd hx hnone
  · rw [Heap.cell_set_ne _ hda]

/-- Only a client that is the last of its job is freed. -/
theorem updateJobResult (h : Tidy none s) (hg : Shows s b g) (hok : b.Ok) {cfd : Int}
    {value : Bytes} {p : Bool} (hlast : ∀ c j, s.assigned cfd = some (c, j) →
      s.waitingFor j = [] → s.heldBy j c ≠ none →
      (s.held j).getLast?.map (·.1) = some (some c))
    (hr : updateJobResult s cfd value = .ok (p, s')) : Tidy none s' := by
  rcases updateJobResult_cases hr with
    ⟨rfl, -⟩ | ⟨c, j, s₁, jobs, s₂, cn, s₃, hassigned, ⟨ci, hcell, hjn⟩, hlock,
      hjobs, hunlock, hdequeue, hcases⟩
  · exact h
  have hseat := hg.seat_of_cell hcell
  have hj : j ∈ b.order := hok.known c _ j hseat hjn
  have hstop : g.stop j = none := hg.stops c _ j hseat hjn
  obtain ⟨-, hg₂⟩ := hg.merge hj rfl hlock hjobs hunlock
  have h₂ := h.merge hlock hjobs hunlock
  rcases hg₂.dequeue hj (put_self _ _ _) hdequeue with
    ⟨rfl, rfl, hnone⟩ | ⟨a, v, wpre, wpost, rfl, -, -,
      ⟨hclient, hjobs₃, hhead₃, hrel⟩, xs, -, hloose⟩
  · rcases hcases with ⟨a, q, ha, -⟩ | ⟨jv, -, hload, hfree⟩
    · cases ha
    obtain ⟨ju, hju, hjuok⟩ := hg₂.job hj (put_self _ _ _)
    rw [Heap.load_some hju] at hload
    cases hload
    rcases freeClient_ok hfree with
      ⟨rfl, -⟩ | ⟨k, a, v, cv, nodes, nodes', jobs', hjob, hnode, hv, -, hcases,
        hnodes', rfl⟩
    · exact h₂
    have hkj : k = j := by
      rcases hg₂.getJobNode hjob with ⟨hk, -⟩ | ⟨l, hl, hlo, hid⟩
      · cases hk
      · cases hl
        exact hok.ids k hlo j hj ((id_put b.job j k _ _).symm.trans
          (hid.trans hjuok.id))
    rw [hkj] at hnode hcases
    rcases hg₂.getClientNode hj (put_self _ _ _) hstop hnode with
      ⟨hn, -⟩ | ⟨pre, d, post, w, hpre, hpost, hnodes, hn, hw, -, hhs, -, hposts⟩
    · cases hn
    cases hn
    -- the client is the last one
    have hpost : hpost = [] := by
      have hheld : s.heldBy j c ≠ none := by
        rw [hg.heldBy_eq_some hok hj hhs]
        intro heq
        cases heq
      have hwait : s.waitingFor j = [] := by
        rw [hg.waitingFor_eq hj, Board.pending, List.map_eq_nil_iff,
          List.filter_eq_nil_iff]
        simpa using hnone
      have hend := hlast c j hassigned hwait hheld
      rw [hg.held_eq hj, hhs] at hend
      rcases List.eq_nil_or_concat' hpost with hnil | ⟨ys, y, hys⟩
      · exact hnil
      · have hne := hok.client_ne hj hhs (x := y) (by simp [hys])
        rw [hys, ← List.cons_append, ← List.append_assoc, List.map_append,
          List.map_singleton, List.getLast?_append_of_ne_nil _ (by simp)] at hend
        exact absurd (Option.some.inj (Option.some.inj hend)) hne
    have hpost' : post = [] := by
      rw [hpost] at hposts
      exact List.map_eq_nil_iff.mp hposts
    rw [hpost'] at hnodes
    obtain ⟨q, vq, u, -, hu, -, -, -, -, hnext, -⟩ := h₂.around hg₂ hj hnodes
    cases hv.symm.trans hu
    rcases hcases with ⟨-, hmod, hjobs'⟩ | ⟨n, hn, -⟩
    · rw [Heap.modify_some hju] at hjobs'
      cases hjobs'
      exact h₂.freeLast hg₂ hj hnodes hv hju rfl rfl hmod hnodes'
    · cases hnext.symm.trans hn
  · have hqueue : ∀ d ∈ g.queue, ∃ x, s₂.nodes.cell d = some x ∧ ¬ x.Stands := by
      intro d hd
      obtain ⟨x, hx, hnone⟩ := hg₂.nodes.queue.of_mem hd
      exact ⟨x, hx, fun hstands => hstands hnone⟩
    have h₃ := h₂.outside hhead₃ (hrel.outside hqueue) (hjobs₃ ▸ KeepsEnds.refl _)
    rcases hcases with ⟨d, q, hd, hassign⟩ | ⟨jv, hn, -⟩
    · cases hd
      exact h₃.assignPending hloose.cell hclient hassign
    · cases hn

/-- The piece of a client that holds one waits, if it does not stay. -/
theorem reassignJob (h : Tidy none s) (hg : Shows s b g) (hok : b.Ok) {cfd : Int}
    (hidle : ∀ c j, s.assigned cfd = some (c, j) → s.heldBy j c ≠ none →
      s.idleFor c = .ok none)
    (hr : reassignJob supply s cfd = .ok s') : Tidy none s' := by
  rcases reassignJob_cases hr with ⟨rfl, -⟩ | ⟨c, j, old, idle, hold, hcases⟩
  · exact h
  obtain ⟨hj, -, pre, post, v, hpre, hpost, hnodes, -, hhs, -⟩ := hg.holding hok hold
  have hnone := hidle c j hold.assigned fun heq => by
    rw [hg.heldBy_eq_some hok hj hhs] at heq
    cases heq
  cases hold.asked.symm.trans hnone
  rcases hcases with ⟨-, hqueue⟩ | ⟨w, hw, -⟩
  · exact h.queuePiece hg hj hnodes hqueue
  · cases hw

end Shown

end Tidy

end Pyramid
