/-
# `Pyramid.Layout` — how the server's lists show the board

The lists of client nodes are ghosts here: `nodes j` are the nodes of the job
at `j` that stand for clients, `sentinel j` the one before them that does not,
`queue` the nodes in `reassignQ`.  Backwards the list of a job is right;
forwards it may lead to a freed node instead of the next one.  Until the first
client is added the `next` of its first node is `stop j`, whatever the memory
held.

`NodesOk` ties the lists to the client nodes, `JobsOk` to the jobs, and
`Shows s b` says that the server `s` shows the board `b`.  There is a lemma
here for every change the functions of `jobs.c` make to one of the lists.
-/
import Pyramid.Board
import Pyramid.Roster

namespace Pyramid

/-! ## One list -/

/-- What a client node says: its client, the index of the piece
and the id of the job. -/
def ClientNode.piece (v : ClientNode) : Ptr × Int × Int := (v.client, v.index, v.jid)

def pieces (h : Heap ClientNode) (xs : List Nat) : List (Option (Ptr × Int × Int)) :=
  xs.map fun a => (h.cell a).map ClientNode.piece

def heldAs (id : Int) (hs : List Holder) : List (Option (Ptr × Int × Int)) :=
  hs.map fun x => some (some x.client, x.index, id)

def waitingAs (ws : List Waiting) : List (Option (Ptr × Int × Int)) :=
  ws.map fun w => some (none, w.index, w.jid)

/-- The list of one job: its clients hold the pieces `hs`. -/
structure ClientListOk (h : Heap ClientNode) (head : Nat) (xs : List Nat)
    (stop : Ptr) (id : Int) (hs : List Holder) : Prop where
  seg : Seg nodeLinks h (Heap.Dead h) none (some head) (head :: xs) stop
  nodup : (head :: xs).Nodup
  held : pieces h xs = heldAs id hs

/-- `reassignQ`. -/
structure QueueOk (h : Heap ClientNode) (qHead qTail : Ptr) (xs : List Nat)
    (ws : List Waiting) :
    Prop where
  list : DList nodeLinks h qHead xs
  nodup : xs.Nodup
  last : qTail = lastOf none xs
  held : pieces h xs = waitingAs ws

theorem pieces_congr {h h' : Heap ClientNode} {xs : List Nat}
    (hcell : ∀ a ∈ xs, (h'.cell a).map ClientNode.piece
      = (h.cell a).map ClientNode.piece) :
    pieces h' xs = pieces h xs := List.map_congr_left hcell

namespace ClientListOk

variable {h h' : Heap ClientNode} {head : Nat} {xs : List Nat}
  {stop : Ptr} {id : Int}
  {hs : List Holder}

theorem congr (hok : ClientListOk h head xs stop id hs)
    (hcell : ∀ a ∈ head :: xs, h'.cell a = h.cell a)
    (hdead : ∀ a, h.Dead a → h'.Dead a) :
    ClientListOk h' head xs stop id hs :=
  ⟨hok.seg.congr hcell hdead, hok.nodup, (pieces_congr fun a ha => by
    rw [hcell a (List.mem_cons_of_mem _ ha)]).trans hok.held⟩

theorem length_eq (hok : ClientListOk h head xs stop id hs) :
    xs.length = hs.length := by
  have hlen := congrArg List.length hok.held
  simpa [pieces, heldAs] using hlen

/-- The holder that the node `a` stands for, and the ones around it. -/
theorem split {pre post : List Nat} {a : Nat}
    (hok : ClientListOk h head (pre ++ a :: post) stop id hs) :
    ∃ v c hpre hpost, h.cell a = some v ∧ v.client = some c ∧ v.jid = id ∧
      hs = hpre ++ ⟨c, v.index⟩ :: hpost ∧ pieces h pre = heldAs id hpre ∧
      pieces h post = heldAs id hpost := by
  have hheld := hok.held
  rw [pieces, heldAs, List.map_append, List.map_cons] at hheld
  obtain ⟨hpre, rest, rfl, h₁, h₂⟩ := List.map_eq_append_iff.mp hheld.symm
  obtain ⟨x, hpost, rfl, h₃, h₄⟩ := List.map_eq_cons_iff.mp h₂
  obtain ⟨v, hv, hpiece⟩ := Option.map_eq_some_iff.mp h₃.symm
  cases x with
  | mk c i =>
      obtain ⟨hc, hi, hjid⟩ : v.client = some c ∧ v.index = i ∧ v.jid = id := by
        simpa [ClientNode.piece] using hpiece
      exact ⟨v, c, hpre, hpost, hv, hc, hjid, by rw [hi], h₁.symm, h₄.symm⟩

theorem of_mem (hok : ClientListOk h head xs stop id hs) {a : Nat} (ha : a ∈ xs) :
    ∃ v c, h.cell a = some v ∧ v.client = some c ∧ ⟨c, v.index⟩ ∈ hs := by
  obtain ⟨pre, post, rfl⟩ := List.append_of_mem ha
  obtain ⟨v, c, hpre, hpost, hv, hc, -, rfl, -⟩ := hok.split
  exact ⟨v, c, hv, hc, by simp⟩

/-- A node that stands for `c` is put after the last one. -/
theorem append (hok : ClientListOk h head xs stop id hs) {h₁ : Heap ClientNode}
    {a t c : Nat} {i : Int} {v vt : ClientNode} (ha : h.cell a = none)
    (hold : ∀ b, b ≠ a → h₁.cell b = h.cell b) (hdead : ∀ b, h.Dead b → h₁.Dead b)
    (hv : h₁.cell a = some v) (hpiece : v.piece = (some c, i, id))
    (hnext : v.next = none) (hprev : v.prev = some t)
    (ht : lastOf none (head :: xs) = some t) (hvt : h₁.cell t = some vt) :
    ClientListOk (h₁.set t (some { vt with next := some a })) head
      (xs ++ [a]) none id
      (hs ++ [⟨c, i⟩]) := by
  have hfresh : a ∉ head :: xs := by
    intro hmem
    obtain ⟨w, hw⟩ := hok.seg.cell_of_mem hmem
    rw [ha] at hw
    cases hw
  have hok₁ : ClientListOk h₁ head xs stop id hs :=
    hok.congr (fun b hb => hold b fun heq => hfresh (heq ▸ hb)) hdead
  refine ⟨?_, ?_, ?_⟩
  · have happend :=
      append_spec hok₁.seg hok.nodup hfresh (List.cons_ne_nil _ _) ht hvt hv
        hnext hprev
    exact happend.congr (fun _ _ => rfl) fun b hb => hb.set hvt _
  · rw [← List.cons_append]
    exact List.nodup_append.mpr ⟨hok.nodup, List.pairwise_singleton _ _,
      fun b hb d hd => by
      rw [List.mem_singleton.mp hd]
      exact fun heq => hfresh (heq ▸ hb)⟩
  · have hsame : ∀ b,
        (((h₁.set t (some { vt with next := some a })).cell b).map ClientNode.piece)
        = (h₁.cell b).map ClientNode.piece :=
          Heap.map_cell_set ClientNode.piece hvt rfl
    rw [pieces, List.map_append, heldAs, List.map_append]
    refine congrArg₂ _ ?_ ?_
    · exact (pieces_congr fun b _ => hsame b).trans hok₁.held
    · rw [List.map_singleton, List.map_singleton, hsame, hv, Option.map_some, hpiece]

/-- What a walk along the list for the node of `c` finds. -/
theorem find (hok : ClientListOk h head xs none id hs) {vh : ClientNode}
    (hvh : h.cell head = some vh) {c fuel : Nat} {r : Ptr}
    (hr : h.chase (·.next) (fun cn => cn.client == some c) fuel vh.next = .ok r) :
    (r = none ∧ ∀ x ∈ hs, x.client ≠ c) ∨
      ∃ pre a post v hpre hpost, xs = pre ++ a :: post ∧ r = some a ∧
        h.cell a = some v ∧
        v.client = some c ∧ hs = hpre ++ ⟨c, v.index⟩ :: hpost ∧
        pieces h pre = heldAs id hpre ∧
        pieces h post = heldAs id hpost := by
  obtain ⟨-, v, hv, -, hrest⟩ := hok.seg
  rw [hvh] at hv
  cases hv
  rcases hrest.chase_cases (fun a ha => ha.2) hr with
    ⟨rfl, hnone⟩ | ⟨pre, a, post, v, rfl, rfl, hv, hhit, -⟩
  · refine Or.inl ⟨rfl, fun x hx heq => ?_⟩
    have hmem : some (some x.client, x.index, id) ∈ pieces h xs := by
      rw [hok.held]
      exact List.mem_map.mpr ⟨x, hx, rfl⟩
    obtain ⟨a, ha, hpiece⟩ := List.mem_map.mp hmem
    obtain ⟨v, hv, hpiece⟩ := Option.map_eq_some_iff.mp hpiece
    have hclient : v.client = some x.client := congrArg (fun p => p.1) hpiece
    have hmiss := hnone a ha v hv
    rw [hclient, heq] at hmiss
    simp at hmiss
  · obtain ⟨w, d, hpre, hpost, hw, hd, -, hhs, h₁, h₂⟩ := hok.split
    rw [hv] at hw
    cases hw
    have hc : v.client = some c := by simpa using hhit
    rw [hc] at hd
    cases hd
    exact Or.inr ⟨pre, a, post, v, hpre, hpost, rfl, rfl, hv, hc, hhs, h₁, h₂⟩

theorem not_mem_middle {pre post : List Nat} {a : Nat}
    (hok : ClientListOk h head (pre ++ a :: post) stop id hs) :
    a ∉ head :: (pre ++ post) ∧ (head :: (pre ++ post)).Nodup := by
  have hperm : ((head :: pre) ++ a :: post).Perm (a :: ((head :: pre) ++ post)) :=
    List.perm_middle
  exact List.nodup_cons.mp (hperm.nodup_iff.mp hok.nodup)

/-- A node without a next one is the last. -/
theorem last_of_next {pre post : List Nat} {a : Nat} {v : ClientNode}
    (hok : ClientListOk h head (pre ++ a :: post) stop id hs)
    (hv : h.cell a = some v) (hnext : v.next = none) : post = [] := by
  obtain ⟨-, w, hw, -, hrest⟩ :=
    seg_append.mp (show Seg nodeLinks h h.Dead none (some head)
    ((head :: pre) ++ a :: post) stop from hok.seg)
  cases hv.symm.trans hw
  cases post with
  | nil => rfl
  | cons d post =>
      have hlead : Leads h.Dead v.next (some d) := hrest.1
      rw [hnext] at hlead
      rcases hlead with heq | ⟨b, hb, -⟩
      · cases heq
      · cases hb

/-- The piece of one client is exchanged. -/
theorem setIndex {pre post : List Nat} {a c : Nat} {v : ClientNode}
    {hpre hpost : List Holder}
    (hok : ClientListOk h head (pre ++ a :: post) stop id hs)
    (hv : h.cell a = some v) (hc : v.client = some c) (hjid : v.jid = id)
    (h₁ : pieces h pre = heldAs id hpre) (h₂ : pieces h post = heldAs id hpost)
    (i : Int) :
    ClientListOk (h.set a (some { v with index := i })) head
      (pre ++ a :: post) stop id
      (hpre ++ ⟨c, i⟩ :: hpost) := by
  obtain ⟨hmem, -⟩ := hok.not_mem_middle
  have hsame : ∀ b ∈ pre ++ post, (h.set a (some { v with index := i })).cell b
      = h.cell b :=
    fun b hb => Heap.cell_set_ne _
      (by rintro rfl; exact hmem (List.mem_cons_of_mem _ hb)) _
  refine ⟨hok.seg.set_data hv rfl rfl fun b hb => hb.set hv _, hok.nodup, ?_⟩
  have hpre' : pieces (h.set a (some { v with index := i })) pre = heldAs id hpre :=
    (pieces_congr fun b hb => by rw [hsame b (List.mem_append_left _ hb)]).trans h₁
  have hpost' : pieces (h.set a (some { v with index := i })) post
      = heldAs id hpost :=
    (pieces_congr fun b hb => by rw [hsame b (List.mem_append_right _ hb)]).trans h₂
  rw [pieces, List.map_append, List.map_cons, heldAs, List.map_append, List.map_cons]
  refine congrArg₂ _ hpre' (congrArg₂ _ ?_ hpost')
  rw [Heap.cell_set_self hv, Option.map_some, ClientNode.piece, hc, hjid]

/-- `freeClient` of the last node. -/
theorem free_last {pre : List Nat} {a : Nat} {v : ClientNode} {hpre : List Holder}
    {h₁ h₂ : Heap ClientNode} (hok : ClientListOk h head (pre ++ [a]) stop id hs)
    (hv : h.cell a = some v) (hheld : pieces h pre = heldAs id hpre)
    (hmod : h.modify v.prev (fun w => { w with next := none }) = .ok h₁)
    (hfree : h₁.free (some a) = .ok h₂) :
    ClientListOk h₂ head pre none id hpre ∧ v.prev = lastOf (some head) pre ∧
      (∀ b, b ∉ head :: (pre ++ [a]) → h₂.cell b = h.cell b) ∧ ∀ b, h.Dead b →
      h₂.Dead b := by
  obtain ⟨hmem, hnd⟩ := hok.not_mem_middle
  rw [List.append_nil] at hmem hnd
  obtain ⟨hseg, w, hw, hprev, -⟩ :=
    seg_append.mp (show Seg nodeLinks h h.Dead none (some head)
    ((head :: pre) ++ a :: []) stop from hok.seg)
  rw [hv] at hw
  cases hw
  have hprev' : v.prev = lastOf none (head :: pre) := hprev
  obtain ⟨q, vq, hq, hvq, rfl⟩ := Heap.modify_ok.mp hmod
  obtain ⟨u, hu, rfl⟩ := Heap.free_ok.mp hfree
  obtain ⟨ys, hys⟩ : ∃ ys, head :: pre = ys ++ [q] := by
    rcases List.eq_nil_or_concat' (head :: pre) with heq | ⟨ys, b, heq⟩
    · cases heq
    · rw [hprev', heq, lastOf_append_singleton] at hq
      cases hq
      exact ⟨ys, heq⟩
  rw [hys] at hseg hnd hmem
  have hqys : q ∉ ys := fun hm => (List.nodup_append.mp hnd).2.2 q hm q (by simp) rfl
  have hdead₁ : ∀ b, h.Dead b → (h.set q (some { vq with next := none })).Dead b :=
    fun b hb => hb.set hvq _
  have hdead₂ : ∀ b, h.Dead b →
      ((h.set q (some { vq with next := none })).set a none).Dead b :=
    fun b hb => (hdead₁ b hb).set hu _
  have hset := hseg.set_next_last hqys hvq (Leads.refl h.Dead none)
  have hqa : q ≠ a := by
    rintro rfl
    exact hmem (by simp)
  refine ⟨⟨?_, ?_, ?_⟩, hprev', fun b hb => ?_, hdead₂⟩
  · rw [hys]
    exact hset.congr (fun b hb => Heap.cell_set_ne _ (by rintro rfl; exact hmem hb)
      _) hdead₂
  · rw [hys]
    exact hnd
  · refine (pieces_congr fun b hb => ?_).trans hheld
    have hba : b ≠ a := by
      rintro rfl
      exact hmem (hys ▸ List.mem_cons_of_mem _ hb)
    rw [Heap.cell_set_ne _ hba]
    exact Heap.map_cell_set ClientNode.piece hvq (by rfl) b
  · have hbq : b ≠ q := by
      rintro rfl
      refine hb ?_
      rw [← List.cons_append, hys]
      simp
    rw [Heap.cell_set_ne _ (by rintro rfl; exact hb (by simp)),
      Heap.cell_set_ne _ hbq]

/-- `freeClient` of another node: the pointer before it is left as it was. -/
theorem free_middle {pre post : List Nat} {a n : Nat} {v : ClientNode}
    {hpre hpost : List Holder} {h₁ h₂ : Heap ClientNode}
    (hok : ClientListOk h head (pre ++ a :: post) none id hs)
    (hv : h.cell a = some v) (hheld₁ : pieces h pre = heldAs id hpre)
    (hheld₂ : pieces h post = heldAs id hpost) (hnext : v.next = some n)
    (hmod : h.modify (some n) (fun w => { w with prev := v.prev }) = .ok h₁)
    (hfree : h₁.free (some a) = .ok h₂) :
    ClientListOk h₂ head (pre ++ post) none id (hpre ++ hpost) ∧ post ≠ [] ∧
      (∀ b, b ∉ head :: (pre ++ a :: post) → h₂.cell b = h.cell b) ∧ ∀ b, h.Dead b →
      h₂.Dead b := by
  obtain ⟨hmem, hnd⟩ := hok.not_mem_middle
  obtain ⟨hseg, w, hw, hprev, hpost'⟩ :=
    seg_append.mp (show Seg nodeLinks h h.Dead none (some head)
    ((head :: pre) ++ a :: post) none from hok.seg)
  rw [hv] at hw
  cases hw
  have hdetach : detachNext nodeLinks h v = .ok h₁ := by
    have hnext' : nodeLinks.next v = some n := hnext
    rw [detachNext, hnext']
    exact hmod
  have hndpost : post.Nodup :=
    ((List.nodup_cons.mp hnd).2).sublist (List.sublist_append_right _ _)
  obtain ⟨hafter, hrel⟩ := detach_after hpost' hndpost (fun b hb => hb.2) hdetach
  obtain ⟨m, vn, hm, hvn, rfl⟩ := Heap.modify_ok.mp hmod
  cases hm
  obtain ⟨u, hu, rfl⟩ := Heap.free_ok.mp hfree
  have hne : post ≠ [] := by
    rintro rfl
    rcases hpost' with heq | ⟨b, hb, hdead⟩
    · have hnext' : nodeLinks.next v = some n := hnext
      rw [hnext'] at heq
      cases heq
    · have hnext' : nodeLinks.next v = some n := hnext
      rw [hnext'] at hb
      cases hb
      rw [hdead.2] at hvn
      cases hvn
  have hdead : ∀ b, h.Dead b →
      ((h.set n (some { vn with prev := v.prev })).set a none).Dead b :=
    fun b hb => (hb.set hvn _).set hu _
  have hpreseg :
      Seg nodeLinks ((h.set n (some { vn with prev := v.prev })).set a none)
      ((h.set n (some { vn with prev := v.prev })).set a none).Dead none (some head)
      (head :: pre)
      (some a) := by
    refine hseg.congr (fun b hb => ?_) hdead
    have hba : b ≠ a := by
      rintro rfl
      exact hmem
        (List.mem_cons.mpr ((List.mem_cons.mp hb).imp_right
          (List.mem_append_left _)))
    rw [Heap.cell_set_ne _ hba]
    refine hrel.same b fun hbpost => ?_
    exact (List.nodup_append.mp (show ((head :: pre) ++ post).Nodup from hnd)).2.2 b
      hb b hbpost rfl
  refine ⟨⟨?_, hnd, ?_⟩, hne, fun b hb => ?_, hdead⟩
  · rw [← List.cons_append]
    refine (hpreseg.astray (Heap.dead_of_freed hu)).join (t := nodeLinks.next v) ?_
    rw [← hprev]
    refine hafter.congr (fun b hb => Heap.cell_set_ne _ ?_ _) hdead
    rintro rfl
    exact hmem (List.mem_cons_of_mem _ (List.mem_append_right _ hb))
  · have hsame : ∀ b ∈ pre ++ post,
        (((h.set n (some { vn with prev := v.prev })).set a none).cell b).map
          ClientNode.piece
          = (h.cell b).map ClientNode.piece := by
      intro b hb
      rw [Heap.cell_set_ne _ (by rintro rfl; exact hmem (List.mem_cons_of_mem _ hb))]
      exact Heap.map_cell_set ClientNode.piece hvn (by rfl) b
    rw [pieces, List.map_append, heldAs, List.map_append]
    exact congrArg₂ _
      ((pieces_congr fun b hb => hsame b (List.mem_append_left _ hb)).trans hheld₁)
      ((pieces_congr fun b hb => hsame b (List.mem_append_right _ hb)).trans hheld₂)
  · rw [Heap.cell_set_ne _ (by rintro rfl; exact hb (by simp))]
    exact hrel.same b fun hbpost => hb (by simp [hbpost])

/-- The node of a piece that has to wait, taken out of the list. -/
theorem unlinked {pre post : List Nat} {a : Nat} {v : ClientNode}
    {hpre hpost : List Holder} {h₁ : Heap ClientNode}
    (hok : ClientListOk h head (pre ++ a :: post) none id hs)
    (hv : h.cell a = some v) (hheld₁ : pieces h pre = heldAs id hpre)
    (hheld₂ : pieces h post = heldAs id hpost) (hr : unlink nodeLinks h v = .ok h₁) :
    ClientListOk h₁ head (pre ++ post) none id (hpre ++ hpost) ∧ post ≠ [] ∧
      h₁.cell a = some v ∧ (∀ b, b ∉ head :: (pre ++ a :: post) →
        h₁.cell b = h.cell b) ∧
      ∀ b, h.Dead b → h₁.Dead b := by
  obtain ⟨hmem, hnd⟩ := hok.not_mem_middle
  have hwhole : Seg nodeLinks h h.Dead none (some head) ((head :: pre) ++ a
      :: post) none := hok.seg
  obtain ⟨hseg, hrel, hne⟩ := unlink_spec hwhole hok.nodup hv (fun b hb => hb.2) hr
  have hdead : ∀ b, h.Dead b → h₁.Dead b := by
    intro b hb
    refine hb.of_cell (Nat.le_of_eq hrel.next.symm) (hrel.same b fun hb' => ?_)
    have hbm : b ∈ head :: (pre ++ a :: post) := by
      rcases List.mem_cons.mp hb' with rfl | hb'
      · exact List.mem_cons_self
      · exact List.mem_cons_of_mem _ (mem_of_removed hb')
    obtain ⟨w, hw⟩ := hok.seg.cell_of_mem hbm
    exact hb.ne hw rfl
  refine ⟨⟨hseg.congr (fun _ _ => rfl) hdead, hnd, ?_⟩, hne, ?_,
    fun b hb => ?_, hdead⟩
  · have hsame : ∀ b, (h₁.cell b).map ClientNode.piece
        = (h.cell b).map ClientNode.piece :=
      hrel.data ClientNode.piece (fun _ _ => rfl) fun _ _ => rfl
    rw [pieces, List.map_append, heldAs, List.map_append]
    exact congrArg₂ _ ((pieces_congr fun b _ => hsame b).trans hheld₁)
      ((pieces_congr fun b _ => hsame b).trans hheld₂)
  · exact (hrel.same a hmem).trans hv
  · refine hrel.same b fun hb' => hb ?_
    rcases List.mem_cons.mp hb' with rfl | hb'
    · exact List.mem_cons_self
    · exact List.mem_cons_of_mem _ (mem_of_removed hb')

end ClientListOk

namespace QueueOk

variable {h h' h₁ : Heap ClientNode} {qHead qTail : Ptr} {xs : List Nat}
  {ws : List Waiting}

theorem congr (hok : QueueOk h qHead qTail xs ws)
    (hcell : ∀ a ∈ xs, h'.cell a = h.cell a) :
    QueueOk h' qHead qTail xs ws :=
  ⟨hok.list.congr hcell fun _ h => h, hok.nodup, hok.last,
    (pieces_congr fun a ha => by
    rw [hcell a ha]).trans hok.held⟩

theorem of_mem (hok : QueueOk h qHead qTail xs ws) {a : Nat} (ha : a ∈ xs) :
    ∃ v, h.cell a = some v ∧ v.client = none := by
  have hmem : (h.cell a).map ClientNode.piece ∈ pieces h xs :=
    List.mem_map.mpr ⟨a, ha, rfl⟩
  rw [hok.held] at hmem
  obtain ⟨w, -, hw⟩ := List.mem_map.mp hmem
  obtain ⟨v, hv, hpiece⟩ := Option.map_eq_some_iff.mp hw.symm
  exact ⟨v, hv, congrArg (fun p => p.1) hpiece⟩

/-- The node `a` becomes the first of the queue. -/
theorem push (hok : QueueOk h qHead qTail xs ws) {a : Nat} {v : ClientNode}
    {i jid : Int} (hcell : ∀ b ∈ xs, h'.cell b = h.cell b) (ha : a ∉ xs)
    (hv : h'.cell a = some v) (hprev : v.prev = none) (hnext : v.next = qHead)
    (hpiece : v.piece = (none, i, jid)) (hr : attach nodeLinks h' qHead a = .ok h₁) :
    QueueOk h₁ (some a) (if qHead = none then some a else qTail) (a :: xs)
      (⟨jid, i⟩ :: ws) ∧
      Relinked nodeLinks h' h₁ xs := by
  have hok' := hok.congr hcell
  obtain ⟨h₂, hattach, hlist, hrel⟩ :=
    attach_spec hok'.list hok.nodup ha hv hprev hnext
  rw [hr] at hattach
  cases hattach
  refine ⟨⟨hlist, List.nodup_cons.mpr ⟨ha, hok.nodup⟩, ?_, ?_⟩, hrel⟩
  · cases xs with
    | nil => rw [if_pos (Leads.eq hok.list)]; rfl
    | cons b xs =>
        rw [if_neg (by rw [hok.list.1.eq]; simp), hok.last]
        rfl
  · have hsame : ∀ b, (h₁.cell b).map ClientNode.piece
        = (h'.cell b).map ClientNode.piece :=
      hrel.data ClientNode.piece (fun _ _ => rfl) fun _ _ => rfl
    rw [pieces, List.map_cons, waitingAs, List.map_cons]
    refine congrArg₂ _ ?_ ((pieces_congr fun b _ => hsame b).trans hok'.held)
    rw [hsame, hv, Option.map_some, hpiece]

/-- What a walk from the tail for a piece of the job with this id finds. -/
theorem find (hok : QueueOk h qHead qTail xs ws) {id : Int} {r : Ptr}
    (hr : h.chase (·.prev) (fun cn => cn.jid == id) h.next qTail = .ok r) :
    (r = none ∧ ∀ w ∈ ws, w.jid ≠ id) ∨
      ∃ pre a post v, xs = pre ++ a :: post ∧ r = some a ∧ h.cell a = some v ∧
      v.jid = id := by
  rw [hok.last] at hr
  rcases hok.list.chase_back (fun cn => cn.jid == id)
    (hok.list.length_le hok.nodup) with
    ⟨hchase, hnone⟩ | ⟨pre, a, post, v, hsplit, hchase, hv, hhit, -⟩
  · cases hr.symm.trans hchase
    refine Or.inl ⟨rfl, fun w hw heq => ?_⟩
    have hmem : some (none, w.index, w.jid) ∈ pieces h xs := by
      rw [hok.held]
      exact List.mem_map.mpr ⟨w, hw, rfl⟩
    obtain ⟨a, ha, hpiece⟩ := List.mem_map.mp hmem
    obtain ⟨v, hv, hpiece⟩ := Option.map_eq_some_iff.mp hpiece
    have hjid : v.jid = w.jid := congrArg (fun p => p.2.2) hpiece
    have hmiss := hnone a ha v hv
    rw [hjid, heq] at hmiss
    simp at hmiss
  · cases hr.symm.trans hchase
    exact Or.inr ⟨pre, a, post, v, hsplit, rfl, hv, by simpa using hhit⟩

/-- The node `a` is taken out of the queue. -/
theorem remove {pre post : List Nat} {a : Nat} {v : ClientNode}
    (hok : QueueOk h qHead qTail (pre ++ a :: post) ws) (hv : h.cell a = some v)
    (hr : detach nodeLinks h v = .ok h₁) :
    (∃ wpre wpost, ws = wpre ++ ⟨v.jid, v.index⟩ :: wpost ∧
      QueueOk h₁ (detachFirst nodeLinks v qHead) (detachLast nodeLinks v qTail)
        (pre ++ post)
        (wpre ++ wpost)) ∧ Relinked nodeLinks h h₁ (pre ++ post) ∧
          a ∉ pre ++ post := by
  have hperm : (pre ++ a :: post).Perm (a :: (pre ++ post)) := List.perm_middle
  obtain ⟨hmem, hnd⟩ := List.nodup_cons.mp (hperm.nodup_iff.mp hok.nodup)
  obtain ⟨hlist, hrel⟩ := detach_spec hok.list hok.nodup hv (fun _ h => h.elim) hr
  refine ⟨?_, hrel, hmem⟩
  have hheld := hok.held
  rw [pieces, waitingAs, List.map_append, List.map_cons] at hheld
  obtain ⟨wpre, rest, rfl, h₁', h₂⟩ := List.map_eq_append_iff.mp hheld.symm
  obtain ⟨w, wpost, rfl, h₃, h₄⟩ := List.map_eq_cons_iff.mp h₂
  rw [hv, Option.map_some] at h₃
  have hw : w = ⟨v.jid, v.index⟩ := by
    cases w with
    | mk jid index =>
        obtain ⟨-, hi, hj⟩ : none = v.client ∧ index = v.index ∧ jid = v.jid := by
          simpa [ClientNode.piece] using h₃
        rw [hi, hj]
  refine ⟨wpre, wpost, by rw [hw], hlist, hnd, ?_, ?_⟩
  · rw [hok.last]
    exact detachLast_eq hok.list hv
  · have hsame : ∀ b, (h₁.cell b).map ClientNode.piece
        = (h.cell b).map ClientNode.piece :=
      hrel.data ClientNode.piece (fun _ _ => rfl) fun _ _ => rfl
    rw [pieces, List.map_append, waitingAs, List.map_append]
    exact congrArg₂ _ ((pieces_congr fun b _ => hsame b).trans h₁'.symm)
      ((pieces_congr fun b _ => hsame b).trans h₄.symm)

end QueueOk

/-! ## All lists of client nodes -/

/-- Where the lists are. -/
structure Layout where
  sentinel : Nat → Nat
  nodes : Nat → List Nat
  stop : Nat → Ptr
  queue : List Nat

namespace Layout

/-- The whole list of the job at `j`. -/
def list (g : Layout) (j : Nat) : List Nat := g.sentinel j :: g.nodes j

def setList (g : Layout) (j : Nat) (xs : List Nat) (stop : Ptr) : Layout :=
  { g with nodes := put g.nodes j xs, stop := put g.stop j stop }

def addJob (g : Layout) (j m : Nat) (stop : Ptr) : Layout :=
  { g with
    sentinel := put g.sentinel j m
    nodes := put g.nodes j []
    stop := put g.stop j stop }

theorem setList_self (g : Layout) (j : Nat) :
    g.setList j (g.nodes j) (g.stop j) = g := by
  rw [setList, put_eq_self rfl, put_eq_self rfl]

theorem list_setList_self (g : Layout) (j : Nat) (xs : List Nat) (stop : Ptr) :
    (g.setList j xs stop).list j = g.sentinel j :: xs := by
  simp [list, setList]

theorem list_setList_ne (g : Layout) {j k : Nat} (hk : k ≠ j) (xs : List Nat)
    (stop : Ptr) :
    (g.setList j xs stop).list k = g.list k := by
  simp [list, setList, put_ne _ hk]

end Layout

structure NodesOk (h : Heap ClientNode) (qHead qTail : Ptr) (order : List Nat)
    (job : Nat → JobView) (waiting : List Waiting) (g : Layout) : Prop where
  clients : ∀ j ∈ order, ClientListOk h (g.sentinel j) (g.nodes j) (g.stop j)
    (job j).id (job j).holders
  queue : QueueOk h qHead qTail g.queue waiting
  apart : ∀ j ∈ order, ∀ k ∈ order, j ≠ k → List.Disjoint (g.list j) (g.list k)
  aside : ∀ j ∈ order, List.Disjoint (g.list j) g.queue

namespace NodesOk

variable {h h' : Heap ClientNode} {qHead qTail : Ptr} {order : List Nat}
  {job : Nat → JobView}
  {waiting : List Waiting} {g : Layout}

theorem cell_of_list (hok : NodesOk h qHead qTail order job waiting g) {j : Nat}
    (hj : j ∈ order) {a : Nat} (ha : a ∈ g.list j) : ∃ v, h.cell a = some v :=
  (hok.clients j hj).seg.cell_of_mem ha

theorem cell_of_queue (hok : NodesOk h qHead qTail order job waiting g) {a : Nat}
    (ha : a ∈ g.queue) : ∃ v, h.cell a = some v := hok.queue.list.cell_of_mem ha

/-- The list of one job changes, and nothing outside it. -/
theorem change_list (hok : NodesOk h qHead qTail order job waiting g) {j : Nat}
    (hj : j ∈ order) {xs : List Nat} {stop : Ptr} {hs : List Holder} {id r : Int}
    (hnew : ClientListOk h' (g.sentinel j) xs stop id hs)
    (hmem : ∀ a ∈ xs, a ∈ g.nodes j ∨ h.cell a = none)
    (hkeep : ∀ a v, a ∉ g.list j → h.cell a = some v → h'.cell a = h.cell a)
    (hdead : ∀ a, h.Dead a → h'.Dead a) :
    NodesOk h' qHead qTail order (put job j ⟨id, r, hs⟩) waiting (g.setList j xs
      stop) := by
  -- what is new in the list was nowhere before
  have hfresh : ∀ a ∈ g.sentinel j :: xs, a ∈ g.list j ∨ h.cell a = none := by
    intro a ha
    rcases List.mem_cons.mp ha with rfl | ha
    · exact Or.inl List.mem_cons_self
    · exact (hmem a ha).imp_left (List.mem_cons_of_mem _)
  have hother : ∀ k ∈ order, k ≠ j →
      List.Disjoint (g.sentinel j :: xs) (g.list k) := by
    intro k hk hkj a ha hak
    rcases hfresh a ha with ha | ha
    · exact hok.apart j hj k hk hkj.symm ha hak
    · obtain ⟨v, hv⟩ := hok.cell_of_list hk hak
      rw [ha] at hv
      cases hv
  refine ⟨fun k hk => ?_, ?_, fun k hk l hl hkl => ?_, fun k hk => ?_⟩
  · by_cases hkj : k = j
    · rw [hkj]
      simp only [Layout.setList, put_self]
      exact hnew
    · simp only [Layout.setList, put_ne _ hkj]
      refine (hok.clients k hk).congr (fun a ha => ?_) hdead
      obtain ⟨v, hv⟩ := hok.cell_of_list hk ha
      exact hkeep a v (fun haj => hok.apart j hj k hk (Ne.symm hkj) haj ha) hv
  · refine hok.queue.congr fun a ha => ?_
    obtain ⟨v, hv⟩ := hok.cell_of_queue ha
    exact hkeep a v (fun haj => hok.aside j hj haj ha) hv
  · by_cases hkj : k = j
    · rw [hkj] at hkl ⊢
      rw [Layout.list_setList_self, Layout.list_setList_ne _ (Ne.symm hkl)]
      exact hother l hl (Ne.symm hkl)
    · rw [Layout.list_setList_ne _ hkj]
      by_cases hlj : l = j
      · rw [hlj, Layout.list_setList_self]
        exact List.disjoint_symm (hother k hk hkj)
      · rw [Layout.list_setList_ne _ hlj]
        exact hok.apart k hk l hl hkl
  · by_cases hkj : k = j
    · rw [hkj, Layout.list_setList_self]
      intro a ha haq
      rcases hfresh a ha with ha | ha
      · exact hok.aside j hj ha haq
      · obtain ⟨v, hv⟩ := hok.cell_of_queue haq
        rw [ha] at hv
        cases hv
    · rw [Layout.list_setList_ne _ hkj]
      exact hok.aside k hk

/-- The queue changes, and no list of a job. -/
theorem change_queue (hok : NodesOk h qHead qTail order job waiting g)
    {qHead' qTail' : Ptr} {xs : List Nat} {ws : List Waiting}
    (hnew : QueueOk h' qHead' qTail' xs ws)
    (hmem : ∀ a ∈ xs, ∀ k ∈ order, a ∉ g.list k)
    (hkeep : ∀ k ∈ order, ∀ a ∈ g.list k, h'.cell a = h.cell a)
    (hdead : ∀ a, h.Dead a → h'.Dead a) :
    NodesOk h' qHead' qTail' order job ws { g with queue := xs } :=
  ⟨fun k hk => (hok.clients k hk).congr (hkeep k hk) hdead, hnew, hok.apart,
    fun k hk a ha haq => hmem a haq k hk ha⟩

/-- Nothing in a list changes. -/
theorem congr (hok : NodesOk h qHead qTail order job waiting g)
    (hlist : ∀ k ∈ order, ∀ a ∈ g.list k, h'.cell a = h.cell a)
    (hqueue : ∀ a ∈ g.queue, h'.cell a = h.cell a)
    (hdead : ∀ a, h.Dead a → h'.Dead a) :
    NodesOk h' qHead qTail order job waiting g :=
  ⟨fun k hk => (hok.clients k hk).congr (hlist k hk) hdead,
    hok.queue.congr hqueue, hok.apart, hok.aside⟩

/-- Only results change. -/
theorem same_pieces (hok : NodesOk h qHead qTail order job waiting g) {j : Nat}
    {id r r' : Int} {hs : List Holder} (hview : job j = ⟨id, r, hs⟩) :
    NodesOk h qHead qTail order (put job j ⟨id, r', hs⟩) waiting g := by
  refine ⟨fun k hk => ?_, hok.queue, hok.apart, hok.aside⟩
  have hclients := hok.clients k hk
  by_cases hkj : k = j
  · rw [hkj] at hclients ⊢
    rw [hview] at hclients
    rw [put_self]
    exact hclients
  · rw [put_ne _ hkj]
    exact hclients

/-- A new job, with no client yet. -/
theorem add (hok : NodesOk h qHead qTail order job waiting g) {j m : Nat}
    {id r : Int} {u : ClientNode} (hj : j ∉ order) (hm : h.cell m = none)
    (hold : ∀ a, a ≠ m → h'.cell a = h.cell a) (hdead : ∀ a, h.Dead a → h'.Dead a)
    (hu : h'.cell m = some u) (hprev : u.prev = none) :
    NodesOk h' qHead qTail (order ++ [j]) (put job j ⟨id, r, []⟩) waiting (g.addJob j
      m u.next) := by
  have hne : ∀ k ∈ order, k ≠ j := fun k hk heq => hj (heq ▸ hk)
  have hlist : ∀ k ∈ order, (g.addJob j m u.next).list k = g.list k := by
    intro k hk
    simp [Layout.list, Layout.addJob, put_ne _ (hne k hk)]
  have hlistj : (g.addJob j m u.next).list j = [m] := by
    simp [Layout.list, Layout.addJob]
  have hmlist : ∀ k ∈ order, m ∉ g.list k := by
    intro k hk hmem
    obtain ⟨v, hv⟩ := hok.cell_of_list hk hmem
    rw [hm] at hv
    cases hv
  have hmqueue : m ∉ g.queue := by
    intro hmem
    obtain ⟨v, hv⟩ := hok.cell_of_queue hmem
    rw [hm] at hv
    cases hv
  have hcases : ∀ k ∈ order ++ [j], k ∈ order ∨ k = j :=
    fun k hk => (List.mem_append.mp hk).imp_right List.mem_singleton.mp
  refine ⟨fun k hk => ?_, ?_, fun k hk l hl hkl => ?_, fun k hk => ?_⟩
  · rcases hcases k hk with hk | rfl
    · simp only [Layout.addJob, put_ne _ (hne k hk)]
      refine (hok.clients k hk).congr (fun a ha => hold a ?_) hdead
      rintro rfl
      exact hmlist k hk ha
    · simp only [Layout.addJob, put_self]
      exact ⟨⟨Leads.refl _ _, u, hu, hprev, Leads.refl _ _⟩,
        List.nodup_singleton m, rfl⟩
  · refine hok.queue.congr fun a ha => hold a ?_
    rintro rfl
    exact hmqueue ha
  · have hnew : ∀ i ∈ order, List.Disjoint [m] (g.list i) := by
      intro i hi a ham ha
      rw [List.mem_singleton.mp ham] at ha
      exact hmlist i hi ha
    rcases hcases k hk with hk | hkj
    · rw [hlist k hk]
      rcases hcases l hl with hl | hlj
      · rw [hlist l hl]
        exact hok.apart k hk l hl hkl
      · rw [hlj, hlistj]
        exact List.disjoint_symm (hnew k hk)
    · rcases hcases l hl with hl | hlj
      · rw [hkj, hlistj, hlist l hl]
        exact hnew l hl
      · exact absurd (hkj.trans hlj.symm) hkl
  · rcases hcases k hk with hk | rfl
    · rw [hlist k hk]
      exact hok.aside k hk
    · rw [hlistj]
      intro a ham ha
      rw [List.mem_singleton.mp ham] at ha
      exact hmqueue ha

end NodesOk

end Pyramid
