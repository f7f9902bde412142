/-
# `Pyramid.FreeClient` — `freeClient` on one well-formed list

`ClientList s j m xs`: the job at `j` has the sentinel `m` and after it the
client nodes `xs`, right in both directions, with `tail` the last of them and
`numClients` their number.  The two branches of `freeClient` are run on such a
list (`freeClient_last`, `freeClient_middle`).  The second leaves the pointer
before the node as it was, and in a list that is right no pointer leads out of
it (`Seg.next_mem`), so what is left is not a list.
-/
import Pyramid.Jobs

namespace Pyramid

structure ClientList (s : Server) (j m : Nat) (xs : List Nat) : Prop where
  job : ∃ v, s.jobs.cell j = some v ∧ v.job.head = some m ∧
    v.job.tail = lastOf (some m) xs ∧
    v.numClients = xs.length
  list : DList nodeLinks s.nodes (some m) (m :: xs)
  nodup : (m :: xs).Nodup

/-- The node `a` is the client's. -/
def NodeFor (s : Server) (c a : Nat) : Prop :=
  ∃ v, s.nodes.cell a = some v ∧ v.client = some c

section FreeClient
variable {s : Server} {j m c : Nat} {xs : List Nat} {jobId : Int}

/-- The walk of `getClientNode` stops at the first node of the client. -/
theorem ClientList.find (h : ClientList s j m xs) (c : Nat) :
    (getClientNode s j c = .ok none ∧ ∀ a ∈ xs, ¬ NodeFor s c a) ∨
      ∃ pre a post, xs = pre ++ a :: post ∧ getClientNode s j c = .ok (some a) ∧
        NodeFor s c a ∧
        ∀ b ∈ pre, ¬ NodeFor s c b := by
  obtain ⟨v, hv, hhead, -, -⟩ := h.job
  obtain ⟨-, u, hu, -, hrest⟩ := h.list
  have hmiss : ∀ {a : Nat}, (∀ w, s.nodes.cell a = some w →
      (w.client == some c) = false) →
      ¬ NodeFor s c a := by
    rintro a hno ⟨w, hw, hc⟩
    have := hno w hw
    rw [hc] at this
    simp at this
  have hlen : xs.length ≤ s.nodes.next :=
    hrest.length_le (List.nodup_cons.mp h.nodup).2
  obtain ⟨r, hr⟩ := hrest.chase_ok (fun cn => cn.client == some c) hlen
  have hget : getClientNode s j c = .ok r := by
    rw [getClientNode, Heap.load_some hv, ok_bind, hhead, Heap.load_some hu, ok_bind]
    exact hr
  rcases hrest.chase_cases (fun _ hF => hF.elim) hr with
    ⟨rfl, hnone⟩ | ⟨pre, a, post, w, rfl, rfl, hw, hhit, hpre⟩
  · exact Or.inl ⟨hget, fun a ha => hmiss (hnone a ha)⟩
  · exact Or.inr ⟨pre, a, post, rfl, hget, ⟨w, hw, by simpa using hhit⟩,
      fun b hb => hmiss (hpre b hb)⟩

/-- A client without a node: nothing changes. -/
theorem freeClient_absent (hjob : getJobNode s jobId = .ok (some j))
    (hget : getClientNode s j c = .ok none) :
    ∃ b, freeClient s jobId c = .ok (b, s) := by
  by_cases hneg : jobId < 0
  · exact ⟨false, by rw [freeClient, if_pos hneg]⟩
  · refine ⟨true, ?_⟩
    rw [freeClient, if_neg hneg, hjob, ok_bind]
    simp only [hget, ok_bind]

theorem freeClient_negative (hneg : jobId < 0) :
    freeClient s jobId c = .ok (false, s) := by
  rw [freeClient, if_pos hneg]

/-- The last node is taken out, and the list ends before it. -/
theorem freeClient_last {pre : List Nat} {a : Nat}
    (h : ClientList s j m (pre ++ [a])) (hid : 0 ≤ jobId)
    (hjob : getJobNode s jobId = .ok (some j))
    (hget : getClientNode s j c = .ok (some a)) {ci : ClientInfo}
    (hci : s.reg.infos.cell c = some ci) :
    ∃ s', freeClient s jobId c = .ok (true, s') ∧ ClientList s' j m pre ∧
      s'.reg.infos.cell c = some { ci with busy := false } := by
  obtain ⟨v, hv, hhead, htail, hnum⟩ := h.job
  obtain ⟨hseg, w, hw, hprev, hend⟩ :=
    seg_append.mp (show Seg nodeLinks s.nodes (fun _ => False) none
    (some m) ((m :: pre) ++ a :: []) none from h.list)
  have hnext : w.next = none := Leads.eq hend
  have hnd : ((m :: pre) ++ [a]).Nodup := h.nodup
  obtain ⟨ys, q, hys⟩ : ∃ ys q, m :: pre = ys ++ [q] := by
    rcases List.eq_nil_or_concat' (m :: pre) with heq | ⟨ys, q, heq⟩
    · cases heq
    · exact ⟨ys, q, heq⟩
  have hwprev : w.prev = some q := by
    refine hprev.trans ?_
    rw [hys, lastOf_append_singleton]
  rw [hys] at hseg hnd
  obtain ⟨vq, hvq⟩ := hseg.cell_of_mem (a := q) (by simp)
  have hqys : q ∉ ys := by
    intro hm
    exact (List.nodup_append.mp (List.nodup_append.mp hnd).1).2.2 q hm q
      (by simp) rfl
  have haq : a ≠ q := by
    rintro rfl
    exact (List.nodup_append.mp hnd).2.2 a (by simp) a (by simp) rfl
  have ha : a ∉ ys ++ [q] :=
    fun hm => (List.nodup_append.mp hnd).2.2 a hm a (by simp) rfl
  have hwa : (s.nodes.set q (some { vq with next := none })).cell a = some w := by
    rw [Heap.cell_set_ne _ haq, hw]
  refine ⟨{ s with
    reg := { s.reg with infos := s.reg.infos.set c (some { ci with busy := false }) }
    jobs := s.jobs.set j (some
      { v with job := { v.job with
        tail := some q }, numClients := v.numClients - 1 })
    nodes := (s.nodes.set q (some { vq with next := none })).set a none }, ?_,
      ⟨?_, ?_, ?_⟩,
    Heap.cell_set_self hci _⟩
  · rw [freeClient, if_neg (Int.not_lt.mpr hid), hjob, ok_bind]
    simp only [hget, ok_bind, Heap.load_some hw, hnext, hwprev,
      Heap.modify_some hvq, setBusy, Heap.modify_some hci, Heap.modify_some hv,
      Heap.free_some hwa]
  · refine ⟨_, Heap.cell_set_self hv _, hhead, ?_, ?_⟩
    · show some q = lastOf none (m :: pre)
      rw [hys, lastOf_append_singleton]
    · show v.numClients - 1 = _
      rw [hnum, List.length_append, List.length_singleton]
      omega
  · rw [DList, hys]
    exact (hseg.set_next_last hqys hvq (Leads.refl _ none)).set_of_not_mem ha none
  · rw [hys]
    exact (List.nodup_append.mp hnd).1

/-- Another node is freed, and the one before it still points to it. -/
theorem freeClient_middle {pre post : List Nat} {a n : Nat}
    (h : ClientList s j m (pre ++ a :: n :: post)) (hid : 0 ≤ jobId)
    (hjob : getJobNode s jobId = .ok (some j))
    (hget : getClientNode s j c = .ok (some a)) {ci : ClientInfo}
    (hci : s.reg.infos.cell c = some ci) :
    ∃ s' q w, freeClient s jobId c = .ok (true, s') ∧ q ∈ m :: pre ∧
      s'.nodes.cell q = some w ∧ w.next = some a ∧ s'.nodes.cell a = none := by
  obtain ⟨v, hv, -, -, -⟩ := h.job
  obtain ⟨hseg, w, hw, hprev, hrest⟩ :=
    seg_append.mp (show Seg nodeLinks s.nodes (fun _ => False)
    none (some m) ((m :: pre) ++ a :: n :: post) none from h.list)
  obtain ⟨hlead, vn, hvn, -, -⟩ := hrest
  have hnext : w.next = some n := hlead.eq
  have hnd : ((m :: pre) ++ a :: n :: post).Nodup := h.nodup
  obtain ⟨ys, q, hys⟩ : ∃ ys q, m :: pre = ys ++ [q] := by
    rcases List.eq_nil_or_concat' (m :: pre) with heq | ⟨ys, q, heq⟩
    · cases heq
    · exact ⟨ys, q, heq⟩
  have hwprev : w.prev = some q := by
    refine hprev.trans ?_
    rw [hys, lastOf_append_singleton]
  have hq : q ∈ m :: pre := by
    rw [hys]
    simp
  have hout : ∀ x ∈ a :: n :: post, q ≠ x :=
    fun x hx => (List.nodup_append.mp hnd).2.2 q hq x hx
  have hqa : q ≠ a := hout a (by simp)
  have hqn : q ≠ n := hout n (by simp)
  have han : a ≠ n := by
    rintro rfl
    exact (List.nodup_cons.mp (List.nodup_append.mp hnd).2.1).1 (by simp)
  rw [hys] at hseg
  obtain ⟨-, vq, hvq, -, hqend⟩ := seg_append.mp hseg
  have hqnext : vq.next = some a := Leads.eq hqend
  have hwa : (s.nodes.set n (some { vn with prev := w.prev })).cell a = some w := by
    rw [Heap.cell_set_ne _ han, hw]
  refine ⟨{ s with
    reg := { s.reg with infos := s.reg.infos.set c (some { ci with busy := false }) }
    jobs := s.jobs.set j (some { v with numClients := v.numClients - 1 })
    nodes := (s.nodes.set n (some { vn with prev := w.prev })).set a none }, q, vq,
      ?_, hq, ?_, hqnext,
    Heap.cell_set_self hwa none⟩
  · rw [freeClient, if_neg (Int.not_lt.mpr hid), hjob, ok_bind]
    simp only [hget, ok_bind, Heap.load_some hw, hnext,
      Heap.modify_some hvn, setBusy, Heap.modify_some hci, Heap.modify_some hv,
      Heap.free_some hwa]
  · rw [Heap.cell_set_ne _ hqa, Heap.cell_set_ne _ hqn, hvq]

/-- What `freeClient` is for: for a client with a node that node is gone, the
others are a list as before, and the client is no longer busy; for another
client nothing has changed. -/
def FreesExactly (s : Server) (jobId : Int) (j m c : Nat) (xs : List Nat) : Prop :=
  ∃ b s', freeClient s jobId c = .ok (b, s') ∧
    (((∀ a ∈ xs, ¬ NodeFor s c a) ∧ s' = s) ∨
      ∃ pre a post ci, xs = pre ++ a :: post ∧ NodeFor s c a ∧
        ClientList s' j m (pre ++ post) ∧
        s'.reg.infos.cell c = some ci ∧ ci.busy = false)

/-- The node of a client that is not the last leaves a pointer to
freed memory in the list. -/
theorem freeClient_middle_not_exact {pre post : List Nat} {a n : Nat}
    (h : ClientList s j m (pre ++ a :: n :: post)) (hid : 0 ≤ jobId)
    (hjob : getJobNode s jobId = .ok (some j))
    (hget : getClientNode s j c = .ok (some a)) (hpre : ∀ b ∈ pre, ¬ NodeFor s c b)
    (ha : NodeFor s c a) {ci : ClientInfo} (hci : s.reg.infos.cell c = some ci) :
    ¬ FreesExactly s jobId j m c (pre ++ a :: n :: post) := by
  rintro ⟨b, s', hfree, ⟨hno, -⟩ | ⟨pre', a', post', ci', hsplit, ha', hlist, -, -⟩⟩
  · exact hno a (by simp) ha
  obtain ⟨s₂, q, w, hrun, hq, hqw, hnext, hfreed⟩ :=
    freeClient_middle h hid hjob hget hci
  cases hfree.symm.trans hrun
  have hq' : q ∈ m :: (pre' ++ post') := by
    have hmem : q ∈ m :: (pre' ++ a' :: post') := by
      rw [← hsplit]
      rcases List.mem_cons.mp hq with rfl | hq
      · exact List.mem_cons_self
      · exact List.mem_cons_of_mem _ (List.mem_append_left _ hq)
    have hne : q ≠ a' := by
      rintro rfl
      rcases List.mem_cons.mp hq with rfl | hq
      · exact (List.nodup_cons.mp h.nodup).1 (hsplit ▸ by simp)
      · exact hpre q hq ha'
    simpa [hne] using hmem
  obtain ⟨u, hu⟩ := hlist.list.cell_of_mem (hlist.list.next_mem hq' hqw hnext)
  rw [hfreed] at hu
  cases hu

/-- A call that changes nothing leaves `numClients` too high by one. -/
theorem unchanged_not_exact {pre post : List Nat} {a : Nat}
    (h : ClientList s j m (pre ++ a :: post)) :
    ¬ ClientList s j m (pre ++ post) := by
  intro hlist
  obtain ⟨v, hv, -, -, hnum⟩ := h.job
  obtain ⟨v', hv', -, -, hnum'⟩ := hlist.job
  cases hv.symm.trans hv'
  rw [hnum] at hnum'
  simp only [List.length_append, List.length_cons] at hnum'
  omega

/-- **When `freeClient` removes exactly one node.**  The client has no node in
the list, or the job's id is one that is looked up and the client's node, the
first if it has several, is the last of the list. -/
theorem freeClient_exact_iff (h : ClientList s j m xs)
    (hjob : getJobNode s jobId = .ok (some j)) {ci : ClientInfo}
    (hci : s.reg.infos.cell c = some ci) :
    FreesExactly s jobId j m c xs ↔ (∀ a ∈ xs, ¬ NodeFor s c a) ∨
      (0 ≤ jobId ∧ ∃ pre a, xs = pre ++ [a] ∧ NodeFor s c a ∧ ∀ b ∈ pre,
        ¬ NodeFor s c b) := by
  rcases h.find c with ⟨hget, hnone⟩ | ⟨pre, a, post, rfl, hget, ha, hpre⟩
  · refine ⟨fun _ => Or.inl hnone, fun _ => ?_⟩
    obtain ⟨b, hfree⟩ := freeClient_absent hjob hget
    exact ⟨b, s, hfree, Or.inl ⟨hnone, rfl⟩⟩
  have hheld : ¬ ∀ x ∈ pre ++ a :: post, ¬ NodeFor s c x :=
    fun hno => hno a (by simp) ha
  constructor
  · intro hexact
    refine Or.inr ?_
    by_cases hneg : jobId < 0
    · obtain ⟨b, s', hfree, ⟨hno, -⟩ | ⟨pre', a', post', ci', hsplit, -, hlist, -,
          -⟩⟩ := hexact
      · exact absurd hno hheld
      · rw [freeClient_negative hneg] at hfree
        cases hfree
        rw [hsplit] at h
        exact absurd hlist (unchanged_not_exact h)
    · have hid := Int.not_lt.mp hneg
      refine ⟨hid, pre, a, ?_, ha, hpre⟩
      cases post with
      | nil => rfl
      | cons n post =>
          exact absurd hexact (freeClient_middle_not_exact h hid hjob hget
            hpre ha hci)
  · rintro (hno | ⟨hid, pre', a', hsplit, ha', hpre'⟩)
    · exact absurd hno hheld
    have hpost : post = [] := by
      rcases List.eq_nil_or_concat' post with rfl | ⟨ys, y, rfl⟩
      · rfl
      · rw [← List.cons_append, ← List.append_assoc] at hsplit
        obtain ⟨hfront, -⟩ := List.append_inj' hsplit rfl
        exact absurd ha (hpre' a (hfront ▸ by simp))
    subst hpost
    obtain ⟨s', hfree, hlist, hbusy⟩ := freeClient_last h hid hjob hget hci
    exact ⟨true, s', hfree, Or.inr ⟨pre, a, [], _, rfl, ha,
      by rwa [List.append_nil], hbusy, rfl⟩⟩

end FreeClient

/-! ## A job with two clients -/

/-- Job 7 at address 1, with the clients at 0 and 1. -/
def Server.pair : Server where
  reg := { Registry.zeroed with
    infos := (Heap.empty.grow (some ⟨none, none, none, 1, 5, 0, 0, true,
      some 1⟩)).grow
      (some ⟨none, none, none, 1, 6, 0, 0, true, some 1⟩) }
  nodes := ((Heap.empty.grow (some ⟨some 0xdeadbeef, none, some 1, 0, 0⟩)).grow
    (some ⟨some 0, some 0, some 2, 0, 7⟩)).grow (some ⟨some 1, some 1, none, 1, 7⟩)
  tasks := Heap.empty
  jobs := (Heap.empty.grow (some ⟨false, ⟨-1, 0, none, none, none⟩, 0, none,
    some 1⟩)).grow
    (some ⟨false, ⟨7, 0, none, some 0, some 2⟩, 2, some 0, none⟩)
  qHead := none
  qTail := none
  pHead := some 0
  pTail := some 1
  config := ⟨[], [], [], []⟩
  sent := []
  commands := []
  mutexes := []

theorem pair_list : ClientList Server.pair 1 0 [1, 2] where
  job := ⟨_, rfl, rfl, rfl, rfl⟩
  list := ⟨Leads.refl _ _, _, rfl, rfl, Leads.refl _ _, _, rfl, rfl, Leads.refl _ _,
    _, rfl, rfl, Leads.refl _ _⟩
  nodup := by decide

theorem freeClient_exact_sample :
    FreesExactly Server.pair 7 1 0 1 [1, 2] ↔
      (∀ a ∈ [1, 2], ¬ NodeFor Server.pair 1 a) ∨
      ((0 : Int) ≤ 7 ∧ ∃ pre a, [1, 2] = pre ++ [a] ∧ NodeFor Server.pair 1 a ∧
        ∀ b ∈ pre, ¬ NodeFor Server.pair 1 b) :=
  freeClient_exact_iff pair_list rfl rfl

/-- Freeing the first of the two clients. -/
theorem first_client_dangles : ¬ FreesExactly Server.pair 7 1 0 0 [1, 2] :=
  freeClient_middle_not_exact (show ClientList Server.pair 1 0 ([] ++ [1, 2])
    from pair_list)
    (by decide) rfl rfl
    (fun _ hb => absurd hb List.not_mem_nil) ⟨_, rfl, rfl⟩ rfl

end Pyramid
