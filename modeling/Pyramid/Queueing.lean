/-
# `Pyramid.Queueing` — `reassign_job` when nobody is idle

The node of the failing client is taken out of the list of its job and put
into `reassignQ`.  It is taken out by hand: `oldcn->next->prev` is written
without a look at `oldcn->next`, so for the last node of the list a `NULL` is
followed (`queuePiece_last`).  Every other node is queued as it should be
(`queuePiece_inner`), and `tail` stays right because the last node is never the
one that goes.
-/
import Pyramid.FreeClient
import Pyramid.Pending

namespace Pyramid

/-- `reassign_job` returns `r`: the node `old` has left the list `xs` of the job
at `j`, and is the head of the queue with the index and the id it had. -/
def QueuesPiece (s : Server) (r : Except Halt Server) (j m : Nat) (xs : List Nat)
    (old : Nat) (q : List Nat) : Prop :=
  ∃ s' pre post, r = .ok s' ∧ xs = pre ++ old :: post ∧
    ClientList s' j m (pre ++ post) ∧
    (s'.jobs.cell j).map (·.numClients) = (s.jobs.cell j).map (·.numClients - 1) ∧
    s'.qHead = some old ∧ Pending s' (q ++ [old]) ∧
    ∃ v v', s.nodes.cell old = some v ∧ s'.nodes.cell old = some v' ∧
      v'.index = v.index ∧
      v'.jid = v.jid ∧ v'.client = none

section Queueing
variable {supply : JobSupply} {s : Server} {cfd : Int} {c j m old : Nat}
  {xs q : List Nat}

/-- With nobody idle in the group the piece is queued. -/
theorem Holding.queues (h : Holding s cfd c j old none) :
    reassignJob supply s cfd = queuePiece s j old := by
  obtain ⟨ci, cg, cgh, hci, hjn, hcg, hgid, hidle⟩ := h.walk
  rw [reassignJob, h.found, ok_bind]
  simp only [Heap.load_some hci, ok_bind, hjn, hcg, h.node, hgid, hidle]

/-- The last node has no next one to write to. -/
theorem queuePiece_last {pre : List Nat} (h : ClientList s j m (pre ++ [old])) :
    queuePiece s j old = .error .nullDeref := by
  obtain ⟨-, v, hv, -, hend⟩ :=
    seg_append.mp (show Seg nodeLinks s.nodes (fun _ => False) none (some m)
    ((m :: pre) ++ old :: []) none from h.list)
  have hnext : nodeLinks.next v = none := Leads.eq hend
  rw [queuePiece, Heap.load_some hv, ok_bind, unlink, hnext]
  rfl

theorem queuePiece_inner {pre post : List Nat} {n : Nat}
    (h : ClientList s j m (pre ++ old :: n :: post)) (hq : Pending s q)
    (haside : List.Disjoint (m :: (pre ++ old :: n :: post)) q) :
    QueuesPiece s (queuePiece s j old) j m (pre ++ old :: n :: post) old q := by
  obtain ⟨jv, hjv, hhead, htail, hnum⟩ := h.job
  have hwhole : DList nodeLinks s.nodes (some m) ((m :: pre) ++ old :: n :: post) :=
    h.list
  have hnd : ((m :: pre) ++ old :: n :: post).Nodup := h.nodup
  obtain ⟨-, v, hv, -, -⟩ := seg_append.mp hwhole
  obtain ⟨h₁, hunlink⟩ : ∃ h₁, unlink nodeLinks s.nodes v = .ok h₁ := by
    obtain ⟨ys, b, hys⟩ : ∃ ys b, m :: pre = ys ++ [b] := by
      rcases List.eq_nil_or_concat' (m :: pre) with heq | ⟨ys, b, heq⟩
      · cases heq
      · exact ⟨ys, b, heq⟩
    rw [hys, List.append_assoc] at hwhole hnd
    exact unlink_ok hwhole hnd hv
  obtain ⟨hlist, hrel, -⟩ := unlink_spec hwhole hnd hv (fun _ hF => hF.elim) hunlink
  have hperm :
      ((m :: pre) ++ old :: n :: post).Perm (old :: ((m :: pre) ++ n :: post)) :=
    List.perm_middle
  obtain ⟨hnotin, hnd'⟩ := List.nodup_cons.mp (hperm.nodup_iff.mp hnd)
  have hold : h₁.cell old = some v := (hrel.same old hnotin).trans hv
  have haside' : ∀ a ∈ q, a ∉ (m :: pre) ++ n :: post := by
    intro a ha hmem
    refine haside (show a ∈ (m :: pre) ++ old :: n :: post from ?_) ha
    exact mem_of_removed hmem
  have holdq : old ∉ q :=
    fun ha => haside (show old ∈ (m :: pre) ++ old :: n :: post by simp) ha
  -- the node points nowhere now; neither the list nor the queue contains it
  have hcleared :
      (h₁.set old (some { v with prev := none, next := none, client := none })).cell old
        = some { v with prev := none, next := none, client := none } :=
    Heap.cell_set_self hold _
  have hpending : Pending { s with
      nodes := h₁.set old
        (some { v with prev := none, next := none, client := none }) } q := by
    refine ⟨?_, hq.nodup, hq.last⟩
    refine hq.list.congr (fun a ha => ?_) fun _ hF => hF
    have ha := List.mem_reverse.mp ha
    have haold : a ≠ old := fun heq => holdq (heq ▸ ha)
    exact (Heap.cell_set_ne _ haold _).trans (hrel.same a (haside' a ha))
  obtain ⟨s', henqueue, hqueued, hrequeued⟩ := hpending.enqueue j holdq hcleared
  have hjobs : s'.jobs = s.jobs := hrequeued.jobs
  obtain ⟨w, nodes, hw, hattach, hs'⟩ := enqueuePendingJob_ok henqueue
  cases hcleared.symm.trans hw
  have hqHead : s'.qHead = some old := by rw [hs']
  have hkept : ∀ a ∈ (m :: pre) ++ n :: post, s'.nodes.cell a = h₁.cell a := by
    intro a ha
    have haold : a ≠ old := fun heq => hnotin (heq ▸ ha)
    refine (hrequeued.nodes.same a fun hmem => ?_).trans (Heap.cell_set_ne _ haold _)
    rcases List.mem_cons.mp hmem with heq | hmem
    · exact haold heq
    · exact haside' a hmem ha
  have hpiece : (s'.nodes.cell old).map ClientNode.piece
      = some (none, v.index, v.jid) := by
    rw [hrequeued.nodes.data ClientNode.piece (fun _ _ => rfl) (fun _ _ => rfl) old]
    show ((h₁.set old _).cell old).map ClientNode.piece = _
    rw [hcleared]
    rfl
  obtain ⟨v', hv', hpiece⟩ := Option.map_eq_some_iff.mp hpiece
  refine ⟨{ s' with
    jobs := s.jobs.set j (some { jv with numClients := jv.numClients - 1 }) },
    pre, n :: post, ?_, rfl, ⟨⟨_, Heap.cell_set_self hjv _, hhead, ?_, ?_⟩, ?_,
    hnd'⟩, ?_, hqHead, ⟨hqueued.list, hqueued.nodup, hqueued.last⟩, v, v', hv, hv',
    congrArg (·.2.1) hpiece, congrArg (·.2.2) hpiece, congrArg (·.1) hpiece⟩
  · rw [queuePiece, Heap.load_some hv, ok_bind, hunlink, ok_bind,
      Heap.modify_some hold, ok_bind, henqueue, ok_bind, hjobs,
      Heap.modify_some hjv, ok_bind]
  · show jv.job.tail = _
    rw [htail, lastOf_append_cons, lastOf_append_cons]
    rfl
  · show jv.numClients - 1 = _
    rw [hnum]
    simp only [List.length_append, List.length_cons]
    omega
  · exact hlist.congr hkept fun _ hF => hF
  · rw [Heap.cell_set_self hjv, hjv]
    rfl

/-- The piece is queued exactly if the failing client's node is not
the last of the list. -/
theorem reassign_queues_iff (hlist : ClientList s j m xs) (hq : Pending s q)
    (haside : List.Disjoint (m :: xs) q) (h : Holding s cfd c j old none) :
    QueuesPiece s (reassignJob supply s cfd) j m xs old q ↔
      xs.getLast? ≠ some old := by
  rw [h.queues]
  rcases hlist.find c with ⟨hnone, -⟩ | ⟨pre, a, post, rfl, hfound, -, -⟩
  · cases hnone.symm.trans h.node
  cases hfound.symm.trans h.node
  cases post with
  | nil =>
      refine iff_of_false ?_ (by simp)
      rintro ⟨s', pre', post', hr, -⟩
      rw [queuePiece_last hlist] at hr
      cases hr
  | cons n post =>
      refine iff_of_true (queuePiece_inner hlist hq haside) fun hlast => ?_
      have hmem : old ∈ n :: post := by
        refine List.mem_of_getLast? ?_
        rw [← hlast, List.getLast?_append_of_ne_nil _ (List.cons_ne_nil _ _),
          List.getLast?_cons_cons]
      exact (List.nodup_cons.mp
        (List.nodup_append.mp (List.nodup_cons.mp hlist.nodup).2).2.1).1 hmem

end Queueing

/-! ## A group of two -/

/-- The clients of `Server.pair`, with the descriptors 5 and 6, both in group 1. -/
def Server.grouped : Server := { Server.pair with
  reg := {
    infos := (Heap.empty.grow (some ⟨none, none, some 0, 1, 5, 0, 0, true,
      some 1⟩)).grow
      (some ⟨none, none, some 1, 1, 6, 0, 0, true, some 1⟩)
    groups := (Heap.empty.grow (some ⟨some 1, none, some 0, none, 1⟩)).grow
      (some ⟨none, some 0, some 1, none, 1⟩)
    multicastGroups := put (fun _ => ⟨none, 0⟩) 0 ⟨some 1, 2⟩
    clientHashMap := put (put (fun _ => ⟨none, 0⟩) 5 ⟨some 0, 1⟩) 6 ⟨some 1, 1⟩ } }

theorem grouped_list : ClientList Server.grouped 1 0 [1, 2] where
  job := ⟨_, rfl, rfl, rfl, rfl⟩
  list := pair_list.list
  nodup := pair_list.nodup

theorem grouped_holding {cfd : Int} {c old : Nat}
    (hfind : (cfd, c, old) = (5, 0, 1) ∨ (cfd, c, old) = (6, 1, 2)) :
    Holding Server.grouped cfd c 1 old none := by
  rcases hfind with heq | heq
  · cases heq
    exact ⟨rfl, rfl, rfl, rfl, _, _, 0, rfl, rfl, rfl, rfl, rfl⟩
  · cases heq
    exact ⟨rfl, rfl, rfl, rfl, _, _, 0, rfl, rfl, rfl, rfl, rfl⟩

theorem reassign_queues_sample :
    QueuesPiece Server.grouped (reassignJob JobSupply.zeros Server.grouped 5) 1 0
      [1, 2] 1 [] ↔
      [1, 2].getLast? ≠ some 1 :=
  reassign_queues_iff grouped_list (Pending.empty rfl rfl)
    (List.disjoint_nil_right _)
    (grouped_holding (Or.inl rfl))

/-- The other client's node is the last one of the list. -/
theorem last_piece_faults : ClientList Server.grouped 1 0 [1, 2] ∧
    Pending Server.grouped [] ∧
    Holding Server.grouped 6 1 1 2 none ∧
    reassignJob JobSupply.zeros Server.grouped 6 = .error .nullDeref ∧
    ¬ QueuesPiece Server.grouped (reassignJob JobSupply.zeros Server.grouped 6) 1 0
      [1, 2] 2 [] := by
  have hlast : ClientList Server.grouped 1 0 ([1] ++ [2]) := grouped_list
  have hhold : Holding Server.grouped 6 1 1 2 none := grouped_holding (Or.inr rfl)
  have hfault : reassignJob JobSupply.zeros Server.grouped 6 = .error .nullDeref :=
    hhold.queues.trans (queuePiece_last hlast)
  refine ⟨grouped_list, Pending.empty rfl rfl, hhold, hfault, ?_⟩
  rintro ⟨s', pre, post, hr, -⟩
  rw [hfault] at hr
  cases hr

end Pyramid
