/-
# `Pyramid.Pending` — `reassignQ` serves each job in order

Nodes are put in at the head of `reassignQ`, and the search for a node of a
job runs from the tail.  The list model keeps the nodes that wait in the order
in which they were put in: a new one goes to its end, and the first one of the
job is taken.  `Pending s q` says that the links of `reassignQ` are those of
`q` read backwards.

`callAll` makes any calls of the two functions one after the other, and
`served` is what the model answers to them.  `pending_fifo` says that the two
agree.
-/
import Pyramid.Layout
import Pyramid.Server

namespace Pyramid

/-! ## The calls -/

inductive QueueCall where
  | enqueue (jn cn : Nat)
  | dequeue (jn : Nat)
  deriving DecidableEq, Repr

/-- One call, with what it returns. -/
def QueueCall.make (s : Server) : QueueCall → Except Halt (Ptr × Server)
  | .enqueue jn cn => do
      let s ← enqueuePendingJob s (some jn) (some cn)
      .ok (none, s)
  | .dequeue jn => dequeuePendingJob s jn

def callAll : List QueueCall → Server → Except Halt (List Ptr × Server)
  | [], s => .ok ([], s)
  | c :: cs, s => do
      let (p, s) ← c.make s
      let (ps, s) ← callAll cs s
      .ok (p :: ps, s)

/-! ## The list model -/

/-- Whether the node at `a` is one of the job at `jn`. -/
def Server.isFor (s : Server) (jn a : Nat) : Bool :=
  match s.nodes.cell a, s.jobs.cell jn with
  | some v, some j => v.jid == j.job.id
  | _, _ => false

/-- What the model returns, and who waits after it. -/
def QueueCall.serve (s : Server) (q : List Nat) : QueueCall → Ptr × List Nat
  | .enqueue _ cn => (none, q ++ [cn])
  | .dequeue jn => (q.find? (s.isFor jn), q.eraseP (s.isFor jn))

def served (s : Server) : List QueueCall → List Nat → List Ptr × List Nat
  | [], q => ([], q)
  | c :: cs, q =>
      let (p, q) := c.serve s q
      let (ps, q) := served s cs q
      (p :: ps, q)

/-- The records are there, and a node is put in only while it does not wait. -/
def QueueCall.Allowed (s : Server) (q : List Nat) : QueueCall → Prop
  | .enqueue _ cn => cn ∉ q ∧ ∃ v, s.nodes.cell cn = some v
  | .dequeue jn => ∃ j, s.jobs.cell jn = some j

def AllAllowed (s : Server) : List QueueCall → List Nat → Prop
  | [], _ => True
  | c :: cs, q => c.Allowed s q ∧ AllAllowed s cs (c.serve s q).2

/-- The nodes that the calls put in. -/
def entered : List QueueCall → List Nat
  | [] => []
  | .enqueue _ cn :: cs => cn :: entered cs
  | .dequeue _ :: cs => entered cs

/-! ## `reassignQ` holds the list -/

structure Pending (s : Server) (q : List Nat) : Prop where
  list : DList nodeLinks s.nodes s.qHead q.reverse
  nodup : q.Nodup
  last : s.qTail = lastOf none q.reverse

/-- From `s` to `s'` nothing changes but the queue and the links of these nodes. -/
structure Requeued (s s' : Server) (xs : List Nat) : Prop where
  rest : s' = { s with nodes := s'.nodes, qHead := s'.qHead, qTail := s'.qTail }
  nodes : Relinked nodeLinks s.nodes s'.nodes xs

namespace Requeued

variable {s s' s'' : Server} {xs ys : List Nat}

theorem refl (s : Server) (xs : List Nat) : Requeued s s xs :=
  ⟨rfl, Relinked.refl _ _⟩

theorem trans (h₁ : Requeued s s' xs) (h₂ : Requeued s' s'' xs) :
    Requeued s s'' xs := by
  refine ⟨?_, h₁.nodes.trans h₂.nodes⟩
  rw [h₂.rest, h₁.rest]

theorem mono (h : Requeued s s' xs) (hsub : ∀ a ∈ xs, a ∈ ys) : Requeued s s' ys :=
  ⟨h.rest, h.nodes.mono hsub⟩

theorem jobs (h : Requeued s s' xs) : s'.jobs = s.jobs := by
  rw [h.rest]

theorem jid (h : Requeued s s' xs) (a : Nat) :
    (s'.nodes.cell a).map (·.jid) = (s.nodes.cell a).map (·.jid) :=
  h.nodes.data (·.jid) (fun _ _ => rfl) (fun _ _ => rfl) a

/-- A node does not change the job it is for. -/
theorem isFor (h : Requeued s s' xs) (jn : Nat) : s'.isFor jn = s.isFor jn := by
  funext a
  have hjid := h.jid a
  rw [Server.isFor, Server.isFor, h.jobs]
  cases hv : s.nodes.cell a with
  | none =>
      rw [hv, Option.map_none, Option.map_eq_none_iff] at hjid
      rw [hjid]
  | some v =>
      rw [hv, Option.map_some] at hjid
      obtain ⟨w, hw, hwv⟩ := Option.map_eq_some_iff.mp hjid
      rw [hw]
      cases s.jobs.cell jn with
      | none => rfl
      | some j => simp only [hwv]

theorem allocated (h : Requeued s s' xs) {a : Nat} :
    (∃ v, s'.nodes.cell a = some v) ↔ ∃ v, s.nodes.cell a = some v := by
  have hdata := h.nodes.data (fun _ => ()) (fun _ _ => rfl) (fun _ _ => rfl) a
  rw [← Option.isSome_iff_exists, ← Option.isSome_iff_exists,
    ← Option.isSome_map (f := fun _ => ()), hdata, Option.isSome_map]

/-- The calls that are allowed, and what the model answers, stay the same. -/
theorem serve (h : Requeued s s' xs) (c : QueueCall) (q : List Nat) :
    c.serve s' q = c.serve s q := by
  cases c with
  | enqueue jn cn => rfl
  | dequeue jn => rw [QueueCall.serve, QueueCall.serve, h.isFor]

theorem served (h : Requeued s s' xs) : ∀ (cs : List QueueCall) (q : List Nat),
    served s' cs q = served s cs q := by
  intro cs
  induction cs with
  | nil => exact fun _ => rfl
  | cons c cs ih =>
      intro q
      rw [Pyramid.served, Pyramid.served, h.serve]
      simp only [ih]

theorem allAllowed (h : Requeued s s' xs) : ∀ (cs : List QueueCall) (q : List Nat),
    AllAllowed s cs q → AllAllowed s' cs q := by
  intro cs
  induction cs with
  | nil => exact fun _ _ => trivial
  | cons c cs ih =>
      rintro q ⟨hc, hcs⟩
      refine ⟨?_, by rw [h.serve]; exact ih _ hcs⟩
      cases c with
      | enqueue jn cn => exact ⟨hc.1, h.allocated.mpr hc.2⟩
      | dequeue jn =>
          obtain ⟨j, hj⟩ := hc
          exact ⟨j, by rw [h.jobs]; exact hj⟩

end Requeued

/-! ## One call -/

section Calls
variable {s : Server} {q : List Nat}

theorem Pending.enqueue (h : Pending s q) {cn : Nat} {v : ClientNode} (jn : Nat)
    (hcn : cn ∉ q) (hv : s.nodes.cell cn = some v) :
    ∃ s', enqueuePendingJob s (some jn) (some cn) = .ok s' ∧ Pending s' (q ++ [cn]) ∧
      Requeued s s' (cn :: q) := by
  have hrev : cn ∉ q.reverse := fun hmem => hcn (List.mem_reverse.mp hmem)
  have hself :
      (s.nodes.set cn (some { v with next := s.qHead, prev := none })).cell cn
      = some { v with next := s.qHead, prev := none } := Heap.cell_set_self hv _
  obtain ⟨nodes, hattach, hlist, hrel⟩ := attach_spec
    (h.list.set_of_not_mem hrev (some { v with next := s.qHead, prev := none }))
    (List.nodup_reverse.mpr h.nodup) hrev hself rfl rfl
  refine ⟨{ s with
    nodes := nodes
    qHead := some cn
    qTail := if s.qHead = none then some cn else s.qTail }, ?_,
      ⟨?_, ?_, ?_⟩, rfl, ?_⟩
  · rw [enqueuePendingJob, Heap.modify_some hv, ok_bind, hattach, ok_bind]
  · rw [List.reverse_append]
    exact hlist
  · exact List.nodup_append.mpr ⟨h.nodup, List.pairwise_singleton _ _,
      fun b hb d hd => by
      rw [List.mem_singleton.mp hd]
      rintro rfl
      exact hcn hb⟩
  · rw [List.reverse_append]
    show (if s.qHead = none then some cn else s.qTail)
        = lastOf none (cn :: q.reverse)
    have hlast := h.last
    have hfirst := h.list
    cases hq : q.reverse with
    | nil =>
        rw [hq] at hfirst
        rw [if_pos (Leads.eq hfirst)]
        rfl
    | cons b xs =>
        rw [hq] at hfirst hlast
        rw [if_neg (by rw [hfirst.1.eq]; simp), hlast]
        rfl
  · have hset : Relinked nodeLinks s.nodes
        (s.nodes.set cn (some { v with next := s.qHead, prev := none })) [cn] :=
      ⟨rfl, fun b hb => Heap.cell_set_ne _
        (fun heq => hb (List.mem_singleton.mpr heq)) _, fun f hn hp b =>
          Heap.map_cell_set f hv
          ((hp none { v with next := s.qHead }).trans (hn s.qHead v)) b⟩
    refine (hset.mono fun b hb => ?_).trans (hrel.mono fun b hb => ?_)
    · rw [List.mem_singleton.mp hb]
      exact List.mem_cons_self
    · exact List.mem_cons_of_mem _ (List.mem_reverse.mp hb)

/-- No node of the job waits, or the one that waits longest is taken out. -/
theorem Pending.dequeue (h : Pending s q) {jn : Nat} {j : JobNode}
    (hj : s.jobs.cell jn = some j) :
    (dequeuePendingJob s jn = .ok (none, s) ∧ ∀ a ∈ q, s.isFor jn a = false) ∨
      ∃ pre a post s', q = pre ++ a :: post ∧ s.isFor jn a = true ∧
        (∀ b ∈ pre, s.isFor jn b = false) ∧
        dequeuePendingJob s jn = .ok (some a, s') ∧ Pending s' (pre ++ post) ∧
        Requeued s s' (pre ++ post) := by
  have hhit : ∀ {a : Nat} {v : ClientNode}, s.nodes.cell a = some v →
      s.isFor jn a = (v.jid == j.job.id) := by
    intro a v hv
    rw [Server.isFor, hv, hj]
  have hmiss : ∀ {xs : List Nat}, (∀ a ∈ xs, a ∈ q) →
      (∀ a ∈ xs, ∀ v, s.nodes.cell a = some v → (v.jid == j.job.id) = false) →
      ∀ a ∈ xs, s.isFor jn a = false := by
    intro xs hsub hnone a ha
    obtain ⟨v, hv⟩ := h.list.cell_of_mem (List.mem_reverse.mpr (hsub a ha))
    rw [hhit hv]
    exact hnone a ha v hv
  have hfuel := h.list.length_le (List.nodup_reverse.mpr h.nodup)
  rcases h.list.chase_back (fun cn => cn.jid == j.job.id) hfuel with
    ⟨hchase, hnone⟩ | ⟨post, a, pre, v, hsplit, hchase, hv, hjid, hpre⟩
  · refine Or.inl ⟨?_, hmiss (fun a ha => ha) fun a ha =>
      hnone a (List.mem_reverse.mpr ha)⟩
    rw [dequeuePendingJob]
    split
    · rfl
    · rw [Heap.load_some hj, ok_bind, h.last]
      have hchase' : s.nodes.chase (·.prev) (fun cn => cn.jid == j.job.id)
          s.nodes.next
          (lastOf none q.reverse) = .ok none := hchase
      rw [hchase', ok_bind]
  · have hq : q = pre.reverse ++ a :: post.reverse := by
      rw [← List.reverse_reverse q, hsplit]
      simp
    have hnd : (post ++ a :: pre).Nodup := hsplit ▸ List.nodup_reverse.mpr h.nodup
    have hlist := h.list
    rw [hsplit] at hlist
    obtain ⟨nodes, hdetach⟩ := detach_ok hlist hnd hv
    obtain ⟨hafter, hrel⟩ := detach_spec hlist hnd hv (fun _ hb => hb.elim) hdetach
    have hrev : (pre.reverse ++ post.reverse).reverse = post ++ pre := by simp
    refine Or.inr ⟨pre.reverse, a, post.reverse, { s with
      nodes := nodes
      qHead := detachFirst nodeLinks v s.qHead
      qTail := detachLast nodeLinks v s.qTail }, hq, (hhit hv).trans hjid, ?_, ?_,
        ⟨?_, ?_, ?_⟩, rfl, ?_⟩
    · refine hmiss (fun b hb => ?_) fun b hb => hpre b (List.mem_reverse.mp hb)
      rw [hq]
      exact List.mem_append_left _ hb
    · have htail : s.qTail = lastOf none q.reverse := h.last
      have hchase' : s.nodes.chase (·.prev) (fun cn => cn.jid == j.job.id)
          s.nodes.next s.qTail
          = .ok (some a) := htail ▸ hchase
      rw [dequeuePendingJob]
      split
      · rename_i hnil
        rw [hnil, Heap.chase] at hchase'
        cases hchase'
      · rw [Heap.load_some hj, ok_bind, hchase', ok_bind]
        simp only [Heap.load_some hv, ok_bind, hdetach]
    · rw [hrev]
      exact hafter
    · have hperm : (pre.reverse ++ a :: post.reverse).Perm
          (a :: (pre.reverse ++ post.reverse)) :=
        List.perm_middle
      exact (List.nodup_cons.mp (hperm.nodup_iff.mp (hq ▸ h.nodup))).2
    · rw [hrev]
      show detachLast nodeLinks v s.qTail = _
      rw [h.last, hsplit]
      exact detachLast_eq hlist hv
    · refine hrel.mono fun b hb => ?_
      rcases List.mem_append.mp hb with hb | hb
      · exact List.mem_append_right _ (List.mem_reverse.mpr hb)
      · exact List.mem_append_left _ (List.mem_reverse.mpr hb)

/-- The function returns what the model does, and `reassignQ` stays
what the model holds. -/
theorem Pending.make (h : Pending s q) (c : QueueCall) (hc : c.Allowed s q) :
    ∃ s', c.make s = .ok ((c.serve s q).1, s') ∧ Pending s' (c.serve s q).2 ∧
      Requeued s s' (q ++ entered [c]) ∧ ∀ a ∈ (c.serve s q).2,
      a ∈ q ++ entered [c] := by
  cases c with
  | enqueue jn cn =>
      obtain ⟨hcn, v, hv⟩ := hc
      obtain ⟨s', henqueue, hpending, hrequeued⟩ := h.enqueue jn hcn hv
      refine ⟨s', by rw [QueueCall.make, henqueue]; rfl, hpending,
        hrequeued.mono fun a ha => ?_, fun a ha => ha⟩
      rcases List.mem_cons.mp ha with rfl | ha
      · exact List.mem_append_right _ (List.mem_singleton.mpr rfl)
      · exact List.mem_append_left _ ha
  | dequeue jn =>
      obtain ⟨j, hj⟩ := hc
      rcases h.dequeue hj with ⟨hnull, hnone⟩ | ⟨pre, a, post, s', rfl, ha, hpre,
        hfound, hpending, hrequeued⟩
      · have hfind : q.find? (s.isFor jn) = none :=
          List.find?_eq_none.mpr fun b hb => by rw [hnone b hb]; simp
        have herase : q.eraseP (s.isFor jn) = q :=
          List.eraseP_of_forall_not fun b hb => by rw [hnone b hb]; simp
        refine ⟨s, ?_, ?_, Requeued.refl _ _, fun b hb => ?_⟩
        · rw [QueueCall.serve, hfind]
          exact hnull
        · rw [QueueCall.serve, herase]
          exact h
        · rw [QueueCall.serve, herase] at hb
          exact List.mem_append_left _ hb
      · have hfind : (pre ++ a :: post).find? (s.isFor jn) = some a :=
          List.find?_eq_some_iff_append.mpr ⟨ha, pre, post, rfl,
            fun b hb => by rw [hpre b hb]; rfl⟩
        have herase : (pre ++ a :: post).eraseP (s.isFor jn) = pre ++ post := by
          rw [List.eraseP_append_right _ fun b hb =>
            by rw [hpre b hb]; simp, List.eraseP_cons_of_pos ha]
        refine ⟨s', ?_, ?_, hrequeued.mono fun b hb => ?_, fun b hb => ?_⟩
        · rw [QueueCall.serve, hfind]
          exact hfound
        · rw [QueueCall.serve, herase]
          exact hpending
        · exact List.mem_append_left _ (mem_of_removed hb)
        · rw [QueueCall.serve, herase] at hb
          exact List.mem_append_left _ (mem_of_removed hb)

end Calls

/-! ## All calls -/

theorem entered_cons (c : QueueCall) (cs : List QueueCall) :
    entered (c :: cs) = entered [c] ++ entered cs := by
  cases c with
  | enqueue jn cn => rfl
  | dequeue jn => rfl

theorem Pending.callAll : ∀ (cs : List QueueCall) {s : Server} {q : List Nat},
    Pending s q →
    AllAllowed s cs q → ∃ s', callAll cs s = .ok ((served s cs q).1, s') ∧
      Pending s' (served s cs q).2 ∧ Requeued s s' (q ++ entered cs) := by
  intro cs
  induction cs with
  | nil => exact fun h _ => ⟨_, rfl, h, Requeued.refl _ _⟩
  | cons c cs ih =>
      rintro s q h ⟨hc, hcs⟩
      obtain ⟨s₁, hmake, h₁, hrequeued₁, hsub⟩ := h.make c hc
      obtain ⟨s', hrest, h', hrequeued⟩ := ih h₁ (hrequeued₁.allAllowed cs _ hcs)
      rw [hrequeued₁.served] at hrest h'
      refine ⟨s', ?_, h', (hrequeued₁.mono fun a ha => ?_).trans
        (hrequeued.mono fun a ha => ?_)⟩
      · rw [Pyramid.callAll, hmake, ok_bind]
        simp only [hrest, ok_bind, Pyramid.served]
      · rw [entered_cons, ← List.append_assoc]
        exact List.mem_append_left _ ha
      · rw [entered_cons, ← List.append_assoc]
        rcases List.mem_append.mp ha with ha | ha
        · exact List.mem_append_left _ (hsub a ha)
        · exact List.mem_append_right _ ha

theorem Pending.empty {s : Server} (hhead : s.qHead = none)
    (htail : s.qTail = none) : Pending s [] :=
  ⟨Or.inl hhead, List.nodup_nil, htail⟩

/-- From the empty queue the calls return what the list model does, and leave a
queue that is right in both directions.  Of the nodes that wait for a job, the
one put in first comes out next; if none waits, nothing changes. -/
theorem pending_fifo {s : Server} {calls : List QueueCall} (hhead : s.qHead = none)
    (htail : s.qTail = none) (hallowed : AllAllowed s calls []) :
    ∃ ps q s', served s calls [] = (ps, q) ∧ callAll calls s = .ok (ps, s') ∧
      Pending s' q ∧
      Requeued s s' (entered calls) ∧
      ∀ jn j, s.jobs.cell jn = some j →
      ∃ p s'', dequeuePendingJob s' jn = .ok (p, s'') ∧
        (p = none ↔ ∀ a ∈ q, s.isFor jn a = false) ∧ (p = none → s'' = s') ∧
        ∀ a, p = some a → s.isFor jn a = true ∧ ∃ pre post, q = pre ++ a :: post ∧
          (∀ b ∈ pre, s.isFor jn b = false) ∧ Pending s'' (pre ++ post) ∧
          Requeued s' s'' (pre ++ post) := by
  obtain ⟨s', hcalls, hpending, hrequeued⟩ :=
    (Pending.empty hhead htail).callAll calls hallowed
  refine ⟨_, _, s', rfl, hcalls, hpending, hrequeued, fun jn j hj => ?_⟩
  rw [← hrequeued.isFor jn]
  rw [← hrequeued.jobs] at hj
  rcases hpending.dequeue hj with ⟨hnull, hnone⟩ | ⟨pre, a, post, s'', hq, ha, hpre,
    hfound, hafter, hlinks⟩
  · exact ⟨none, s', hnull, iff_of_true rfl hnone, fun _ => rfl,
      fun a ha => by cases ha⟩
  · refine ⟨some a, s'', hfound, iff_of_false (by simp) (fun hnone => ?_),
      fun hp => (by cases hp), ?_⟩
    · have hmiss := hnone a (hq ▸ by simp)
      rw [ha] at hmiss
      cases hmiss
    · rintro b hb
      cases hb
      exact ⟨ha, pre, post, hq, hpre, hafter, hlinks⟩

/-- Two jobs, 7 and 8; of the nodes the second is for job 8, the others for job 7. -/
def Server.twoJobs : Server := { Server.boot Registry.zeroed Config.sample with
  nodes := ((Heap.empty.grow (some ⟨none, none, none, 0, 7⟩)).grow
    (some ⟨none, none, none, 0, 8⟩)).grow
    (some ⟨none, none, none, 1, 7⟩)
  jobs := (Heap.empty.grow (some ⟨false, ⟨7, 0, none, none, none⟩, 0, none,
    none⟩)).grow
    (some ⟨false, ⟨8, 0, none, none, none⟩, 0, none, none⟩) }

theorem pending_fifo_sample :
    ∃ s' q, callAll [.enqueue 0 0, .enqueue 1 1, .enqueue 0 2, .dequeue 0,
      .dequeue 0, .dequeue 0]
      Server.twoJobs = .ok ([none, none, none, some 0, some 2, none], s') ∧ q = [1] ∧
        Pending s' q := by
  have hallowed : AllAllowed Server.twoJobs
      [.enqueue 0 0, .enqueue 1 1, .enqueue 0 2, .dequeue 0, .dequeue 0,
        .dequeue 0] [] :=
    ⟨⟨by decide, _, rfl⟩, ⟨by decide, _, rfl⟩, ⟨by decide, _, rfl⟩, ⟨_, rfl⟩,
      ⟨_, rfl⟩, ⟨_, rfl⟩, trivial⟩
  obtain ⟨ps, q, s', hserved, hcalls, hpending, -⟩ := pending_fifo rfl rfl hallowed
  obtain ⟨rfl, rfl⟩ := Prod.mk.inj hserved
  exact ⟨s', _, hcalls, rfl, hpending⟩

end Pyramid
