/-
# `Pyramid.Simulation` — every event is a step of the board

The functions that loop over lists come first, then those that handle a whole
message.  `World.step_simulates` puts them together: an event that returns
does to the board what `Board.Step` says, if the job it submits has an id of
its own.
-/
import Pyramid.Shows
import Pyramid.Members

namespace Pyramid

/-! ## Starting a job -/

/-- The clients in order, with the indexes from `i` on. -/
def reindex : Nat → List Holder → List Holder
  | _, [] => []
  | i, x :: hs => ⟨x.client, i⟩ :: reindex (i + 1) hs

theorem reindex_clients (i : Nat) (hs : List Holder) :
    (reindex i hs).map (·.client) = hs.map (·.client) := by
  induction hs generalizing i with
  | nil => rfl
  | cons x hs ih => rw [reindex, List.map_cons, List.map_cons, ih]

theorem reindex_length (i : Nat) (hs : List Holder) :
    (reindex i hs).length = hs.length := by
  have hlen := congrArg List.length (reindex_clients i hs)
  rwa [List.length_map, List.length_map] at hlen

theorem reindex_indexes (hs : List Holder) (i : Nat) :
    (reindex i hs).map (·.index) = (List.range' i hs.length).map fun k : Nat =>
    (k : Int) := by
  induction hs generalizing i with
  | nil => rfl
  | cons x hs ih =>
      rw [reindex, List.map_cons, ih, List.length_cons, List.range'_succ,
        List.map_cons]

/-- An element with a key of its own is in one place of the list only. -/
theorem middle_unique {α β : Type} {f : α → β} {pre post : List α} {x : α} :
    ∀ {pre' post' : List α} {x' : α}, ((pre ++ x :: post).map f).Nodup →
      pre ++ x :: post = pre' ++ x' :: post' → f x = f x' →
      pre = pre' ∧ x = x' ∧ post = post' := by
  induction pre with
  | nil =>
      intro pre' post' x' hnd heq hf
      cases pre' with
      | nil =>
          obtain ⟨hx, hpost⟩ := List.cons.inj heq
          exact ⟨rfl, hx, hpost⟩
      | cons y pre' =>
          obtain ⟨-, hpost⟩ := List.cons.inj heq
          refine absurd (List.mem_map.mpr ⟨x', ?_, hf.symm⟩)
            (List.nodup_cons.mp hnd).1
          have hpost' : post = pre' ++ x' :: post' := hpost
          rw [hpost']
          simp
  | cons y pre ih =>
      intro pre' post' x' hnd heq hf
      obtain ⟨hy, hnd'⟩ := List.nodup_cons.mp hnd
      cases pre' with
      | nil =>
          obtain ⟨rfl, -⟩ := List.cons.inj heq
          refine absurd (List.mem_map.mpr ⟨x, ?_, hf⟩) hy
          simp
      | cons z pre' =>
          obtain ⟨rfl, hrest⟩ := List.cons.inj heq
          obtain ⟨rfl, hx, hpost⟩ := ih hnd' hrest hf
          exact ⟨rfl, hx, hpost⟩

namespace Shows

variable {supply : JobSupply} {s s' : Server} {b : Board} {g : Layout}

/-- One client is reserved. -/
theorem reserve (h : Shows s b g) {j c : Nat} {id r : Int} {hs : List Holder}
    {ci : ClientInfo} {node : Ptr} {s₁ s₂ : Server} (hj : j ∈ b.order)
    (hview : b.job j = ⟨id, r, hs⟩) (hcell : s.reg.infos.cell c = some ci)
    (hadd : addClientToJob supply s j (some c) = .ok (node, s₁))
    (hjn : serverUpdateJobNode s₁ (some c) j = .ok s₂)
    (hset : setBusy s₂ (some c) true = .ok s') :
    SameClients s.reg s'.reg ∧ ∃ i g', g'.stop j = none ∧ Shows s' { b with
      job := put b.job j ⟨id, r, hs ++ [⟨c, i⟩]⟩
      seat := put b.seat c (some ⟨true, some j⟩) } g' := by
  obtain ⟨a, u, rfl, -, hreg₁, -, h₁⟩ := h.addClient hj hview hadd
  have hcell₁ : s₁.reg.infos.cell c = some ci := hreg₁ ▸ hcell
  have hstop : (g.setList j (g.nodes j ++ [a]) none).stop j = none := put_self _ _ _
  obtain ⟨d, w, hd, hw, rfl⟩ := serverUpdateJobNode_ok hjn
  cases hd
  cases hcell₁.symm.trans hw
  have h₂ := h₁.setClient (w := { ci with jn := some j }) hcell₁ rfl fun k hk => by
    cases hk
    exact hstop
  obtain ⟨d, w, hd, hw, rfl⟩ := setBusy_ok hset
  cases hd
  cases (Heap.cell_set_self hcell₁ _).symm.trans hw
  have h₃ :=
    h₂.setClient (w := { ci with jn := some j, busy := true }) hw rfl fun k hk => by
    cases hk
    exact hstop
  refine ⟨?_, u.index, _, hstop, ?_⟩
  · rw [← hreg₁]
    exact (SameClients.set (w := { ci with jn := some j }) hcell₁ rfl).trans
      (SameClients.set (w := { ci with jn := some j, busy := true }) hw rfl)
  · have hseat : put (put b.seat c (some ⟨ci.busy, some j⟩)) c (some ⟨true, some j⟩)
        = put b.seat c (some (Seat.mk true (some j))) := put_put _ _ _ _
    rw [← hseat]
    exact h₃

/-- The loop of `initJob` reserves every idle member it meets. -/
theorem reserveClients {j fuel : Nat} {id r : Int} {p : Ptr} {hs₀ : List Holder}
    (h : Shows s b g) (hj : j ∈ b.order) (hview : b.job j = ⟨id, r, hs₀⟩)
    (hr : reserveClients supply j fuel p s = .ok s') :
    ∃ hs g', (hs.map (·.client)).Nodup ∧
      (∀ x ∈ hs, ∃ jn, b.seat x.client = some ⟨false, jn⟩) ∧
      SameClients s.reg s'.reg ∧ (hs = [] → idleMember s.reg fuel p = .ok none) ∧
      (hs ≠ [] ∨ g.stop j = none → g'.stop j = none) ∧
      Shows s' { b with
        job := put b.job j ⟨id, r, hs₀ ++ hs⟩
        seat := reserved b.seat j hs } g' := by
  replace hr := reserveClients_rounds hr
  induction hr generalizing b g hs₀ with
  | done fuel =>
      refine ⟨[], g, List.nodup_nil, fun x hx => absurd hx List.not_mem_nil,
        SameClients.refl _, fun _ => by
          rw [idleMember], fun hne => hne.resolve_left (absurd rfl), ?_⟩
      rw [reserved_nil, List.append_nil, ← hview, put_eq_self rfl]
      exact h
  | @busy fuel cg c v ci s hv hc hcell hbusy _ ih =>
      obtain ⟨hs, g', hnd, hidle, hsame, hnone, hstop, hshow⟩ := ih h hj hview
      refine ⟨hs, g', hnd, hidle, hsame, fun hnil => ?_, hstop, hshow⟩
      rw [idleMember, Heap.load_some hv, ok_bind, hc, Heap.load_some hcell, ok_bind,
        if_pos hbusy]
      exact hnone hnil
  | @idle fuel cg c v ci node s s₁ s₂ s₃ _ _ hcell hbusy hadd hjn hset _ ih =>
      obtain ⟨hsame₁, i, g₁, hstop₁, h₁⟩ := h.reserve hj hview hcell hadd hjn hset
      obtain ⟨hs, g', hnd, hidle, hsame, -, hstop, hshow⟩ :=
        ih h₁ hj (put_self _ _ _)
      have hseat : b.seat c = some ⟨false, ci.jn⟩ := by
        rw [h.seat_of_cell hcell, hbusy]
      have hothers : ∀ x ∈ hs, x.client ≠ c := by
        rintro x hx rfl
        obtain ⟨jn, hx⟩ := hidle x hx
        have hx' : put b.seat x.client (some (Seat.mk true (some j))) x.client = _ :=
          hx
        rw [put_self] at hx'
        cases hx'
      refine ⟨⟨c, i⟩ :: hs, g', ?_, fun x hx => ?_, hsame₁.trans hsame,
        fun hnil => (by cases hnil), fun _ => hstop (Or.inr hstop₁), ?_⟩
      · refine List.nodup_cons.mpr ⟨fun hmem => ?_, hnd⟩
        obtain ⟨x, hx, hxc⟩ := List.mem_map.mp hmem
        exact hothers x hx hxc
      · rcases List.mem_cons.mp hx with rfl | hx
        · exact ⟨_, hseat⟩
        · obtain ⟨jn, hjn'⟩ := hidle x hx
          have hjn'' : put b.seat c (some (Seat.mk true (some j))) x.client
              = _ := hjn'
          rw [put_ne _ (hothers x hx)] at hjn''
          exact ⟨jn, hjn''⟩
      · rw [reserved_cons]
        have hshow' : Shows s' { b with
            job := put (put b.job j ⟨id, r, hs₀ ++ [⟨c, i⟩]⟩) j ⟨id, r,
              hs₀ ++ [⟨c, i⟩] ++ hs⟩
            seat := reserved (put b.seat c (some ⟨true, some j⟩)) j hs } g' := hshow
        rw [put_put, List.append_assoc] at hshow'
        exact hshow'

/-- The loop of `assignJob` numbers the clients from `i` on. -/
theorem assignFrom {j fuel i : Nat} {id r taskType jobId : Int} {p q : Ptr}
    (pre rest : List Nat) (hpre hrest : List Holder) (h : Shows s b g)
    (hj : j ∈ b.order) (hview : b.job j = ⟨id, r, hpre ++ hrest⟩)
    (hnodes : g.nodes j = pre ++ rest) (hlen : hpre.length = pre.length)
    (hseg : Seg nodeLinks s.nodes s.nodes.Dead q p rest none)
    (hr : assignFrom jobId taskType fuel i p s = .ok s') :
    s'.reg = s.reg ∧
      Shows s' { b with job := put b.job j ⟨id, r, hpre ++ reindex i hrest⟩ } g := by
  replace hr := assignFrom_rounds hr
  induction hr generalizing b g q pre rest hpre hrest with
  | done fuel i =>
      have hnil : rest = [] := hseg.eq_nil
      have hlength := (h.clients hj hview).length_eq
      rw [hnodes, hnil, List.append_nil, List.length_append, hlen] at hlength
      have hnil' : hrest = [] := List.eq_nil_of_length_eq_zero (by omega)
      rw [hnil'] at hview
      refine ⟨rfl, ?_⟩
      rw [hnil', reindex, ← hview, put_eq_self rfl]
      exact h
  | @send fuel i a d u ci s s₁ hu _ _ hsend _ ih =>
      obtain ⟨sent, rfl⟩ := shSendEncodedData_sent hsend
      -- the node is the next one of the list, as it has not been freed
      obtain ⟨rest, rfl, htail⟩ := hseg.eq_cons hu
      obtain ⟨c, qre, qost, -, hsplit, hqre, hset⟩ := h.setIndex hj hview hnodes hu i
      obtain ⟨rfl, rfl⟩ := List.append_inj hsplit (hlen.trans hqre.symm)
      have hnodup := (h.clients hj hview).nodup
      rw [hnodes] at hnodup
      have hmem : a ∉ rest := fun hmem =>
        (List.nodup_cons.mp
          (List.nodup_append.mp (List.nodup_cons.mp hnodup).2).2.1).1 hmem
      have hseg' : Seg nodeLinks (s.nodes.set a (some { u with index := i }))
          (s.nodes.set a (some { u with index := i })).Dead (some a) u.next
          rest none :=
        (htail.set_of_not_mem hmem _).congr (fun _ _ => rfl) fun e he => he.set hu _
      have hsent : Shows
          { s with nodes := s.nodes.set a (some { u with
            index := i }), sent := sent } { b with
            job := put b.job j ⟨id, r, hpre ++ ⟨c, (i : Int)⟩ :: qost⟩ } g :=
        hset.of_eq rfl rfl rfl rfl rfl rfl rfl
      obtain ⟨hreg, hshow⟩ := ih (pre ++ [a]) rest (hpre ++ [⟨c, i⟩]) qost hsent hj
        ((put_self _ _ _).trans (by rw [List.append_assoc]; rfl))
        (by rw [hnodes, List.append_assoc]; rfl) (by simp [hlen]) hseg'
      refine ⟨hreg, ?_⟩
      have hshow' : Shows s' { b with
          job := put (put b.job j ⟨id, r, hpre ++ ⟨c, (i : Int)⟩ :: qost⟩) j
            ⟨id, r, hpre ++ [⟨c, (i : Int)⟩] ++ reindex (i + 1) qost⟩ } g := hshow
      rw [put_put, List.append_assoc] at hshow'
      exact hshow'

theorem assignJob (h : Shows s b g) {j : Nat} {id r : Int} {hs : List Holder}
    {task : Ptr} {p : Bool} (hj : j ∈ b.order) (hview : b.job j = ⟨id, r, hs⟩)
    (hstop : g.stop j = none) (hr : assignJob s j task = .ok (p, s')) :
    p = true ∧ s'.reg = s.reg ∧
      Shows s' { b with job := put b.job j ⟨id, r, reindex 0 hs⟩ } g := by
  obtain ⟨v, hload, hr⟩ := bind_ok.mp hr
  obtain ⟨vh, hhead, hr⟩ := bind_ok.mp hr
  obtain ⟨t, -, hr⟩ := bind_ok.mp hr
  obtain ⟨s₁, hassign, hr⟩ := bind_ok.mp hr
  cases hr
  obtain ⟨w, hw, hwj⟩ := h.job hj hview
  rw [Heap.load_some hw] at hload
  cases hload
  rw [hwj.first] at hhead
  obtain ⟨a, ha, hvh⟩ := Heap.load_ok.mp hhead
  cases ha
  obtain ⟨-, u, hu, -, hrest⟩ := (h.clients hj hview).seg
  cases hvh.symm.trans hu
  rw [hstop] at hrest
  exact ⟨rfl, assignFrom [] _ [] _ h hj hview rfl rfl hrest hassign⟩

/-- What `initJob` does: nothing, or it adds a job. -/
theorem initJob (h : Shows s b g) (hok : b.Ok) {groupId jobId taskType system : Int}
    {inputFile : Bytes} {started : Bool}
    (hr : initJob supply s groupId jobId taskType inputFile system
      = .ok (started, s')) :
    (started = false ∧ s' = s ∧ (groupId ≤ 0 ∨ jobId < 0)) ∨
      ∃ n w hs g', n ∉ b.order ∧ supply.job n = some w ∧ 0 < groupId ∧ 0 ≤ jobId ∧
        (hs.map (·.client)).Nodup ∧
        (∀ x ∈ hs, ∃ jn, b.seat x.client = some ⟨false, jn⟩) ∧
        (started = true → hs ≠ [] ∧ hs.map (·.index) = indexes hs.length) ∧
        (started = false → system ≠ 0 ∨ s.idleIn groupId.toNat = .ok none) ∧
        Shows s' (b.add n ⟨jobId, w.job.result, hs⟩ started) g' := by
  rcases initJob_cases hr with ⟨hbad, rfl, rfl⟩ | ⟨task, tasks, n, s₁, s₂, t,
    hinit, hcases⟩
  · exact Or.inl ⟨rfl, rfl, hbad⟩
  have h₀ : Shows { s with tasks := tasks } b g :=
    h.of_eq rfl rfl rfl rfl rfl rfl rfl
  obtain ⟨m, w, hm, hn, hw, -, hreg₁, g₁, h₁⟩ := h₀.addJob hok hinit.added
  cases hm
  have hreg : s₁.reg = s.reg := hreg₁
  obtain ⟨cgh, hgid, hreserve⟩ := hinit.reserved
  have hmem : n ∈ b.order ++ [n] :=
    List.mem_append_right _ (List.mem_singleton_self n)
  obtain ⟨hs, g₂, hnodup, hidle, -, hnone, hstop, hreserved⟩ :=
    reserveClients h₁ hmem (put_self _ _ _) hreserve
  have hnone' : hs = [] → s.idleIn groupId.toNat = .ok none := by
    intro hnil
    have hidle' := hnone hnil
    rw [hreg] at hidle'
    rw [Server.idleIn, hgid]
    exact hidle'
  have h₂ : Shows s₂ { b with
      order := b.order ++ [n]
      job := put (put b.job n ⟨jobId, w.job.result, []⟩) n ⟨jobId,
        w.job.result, [] ++ hs⟩
      seat := reserved b.seat n hs } g₂ := hreserved
  rw [put_put, List.nil_append] at h₂
  obtain ⟨u, hu, hujob⟩ := h₂.job hmem (put_self _ _ _)
  cases hinit.job.symm.trans hu
  have hcount : t.numClients = hs.length := hujob.count
  have hvalid := hinit.valid
  obtain ⟨hgroup, hnonneg⟩ : 0 < groupId ∧ 0 ≤ jobId := by omega
  rcases hcases with ⟨rfl, hzero, rfl⟩ | ⟨hzero, commands, hcases⟩
  · have hnil : hs = [] := List.eq_nil_of_length_eq_zero (by omega)
    exact Or.inr ⟨n, w, hs, g₂, hn, hw, hgroup, hnonneg, hnodup, hidle,
      fun ht => (by cases ht), fun _ => Or.inr (hnone' hnil),
      h₂.of_board b.started b.told⟩
  have h₃ : Shows { s₂ with commands := commands } { b with
      order := b.order ++ [n]
      job := put b.job n ⟨jobId, w.job.result, hs⟩
      seat := reserved b.seat n hs } g₂ := h₂.of_eq rfl rfl rfl rfl rfl rfl rfl
  rcases hcases with ⟨rfl, hsystem, rfl⟩ | hassign
  · exact Or.inr ⟨n, w, hs, g₂, hn, hw, hgroup, hnonneg, hnodup, hidle,
      fun ht => (by cases ht), fun _ => Or.inl hsystem, h₃.of_board b.started b.told⟩
  have hne : hs ≠ [] := by
    rintro rfl
    exact hzero hcount
  obtain ⟨rfl, -, h₄⟩ :=
    h₃.assignJob hmem (put_self _ _ _) (hstop (Or.inl hne)) hassign
  refine Or.inr ⟨n, w, reindex 0 hs, g₂, hn, hw, hgroup, hnonneg, ?_, fun x hx => ?_,
    fun _ => ⟨?_, ?_⟩, fun hf => (by cases hf), ?_⟩
  · rw [reindex_clients]
    exact hnodup
  · have hxc := List.mem_map_of_mem (f := Holder.client) hx
    rw [reindex_clients] at hxc
    obtain ⟨y, hy, hyx⟩ := List.mem_map.mp hxc
    rw [← hyx]
    exact hidle y hy
  · intro hnil
    have hlen := reindex_length 0 hs
    rw [hnil] at hlen
    exact hne (List.eq_nil_of_length_eq_zero hlen.symm)
  · rw [reindex_indexes, reindex_length, indexes, List.range_eq_range']
  · have hseats : reserved b.seat n (reindex 0 hs) = reserved b.seat n hs := by
      funext c
      rw [reserved, reserved, reindex_clients]
    have h₄' : Shows s' { b with
        order := b.order ++ [n]
        job := put (put b.job n ⟨jobId, w.job.result, hs⟩) n ⟨jobId, w.job.result,
          reindex 0 hs⟩
        seat := reserved b.seat n hs } g₂ := h₄
    rw [put_put, ← hseats] at h₄'
    exact h₄'.of_board _ b.told

/-! ## Errors -/

/-- An idle client is given a node at the end of the list. -/
theorem engage (h : Shows s b g) {j w : Nat} {id r : Int} {hs : List Holder}
    {cn : Ptr} {s₁ s₂ : Server} (hj : j ∈ b.order) (hview : b.job j = ⟨id, r, hs⟩)
    (hstop : g.stop j = none) (hjob : serverUpdateJobNode s (some w) j = .ok s₁)
    (hadd : addClientToJob supply s₁ j (some w) = .ok (cn, s₂))
    (hbusy : setBusy s₂ (some w) true = .ok s') :
    SameClients s.reg s'.reg ∧ ∃ a i, cn = some a ∧ Shows s' { b with
      job := put b.job j ⟨id, r, hs ++ [⟨w, i⟩]⟩
      seat := put b.seat w (some ⟨true, some j⟩) } (g.setList j (g.nodes j ++ [a])
        none) := by
  obtain ⟨d, cv, hd, hcv, rfl⟩ := serverUpdateJobNode_ok hjob
  cases hd
  have h₁ := h.setClient (w := { cv with jn := some j }) hcv rfl fun k hk => by
    cases hk
    exact hstop
  obtain ⟨a, u, rfl, -, hreg₂, -, h₂⟩ := h₁.addClient hj hview hadd
  have hcv₂ : s₂.reg.infos.cell w = some { cv with jn := some j } := by
    rw [hreg₂]
    exact Heap.cell_set_self hcv _
  obtain ⟨d, cw, hd, hcw₂, rfl⟩ := setBusy_ok hbusy
  cases hd
  cases hcv₂.symm.trans hcw₂
  have hstop₂ : (g.setList j (g.nodes j ++ [a]) none).stop j = none := put_self _ _ _
  have h₃ := h₂.setClient (w := { cv with jn := some j, busy := true }) hcv₂ rfl
    fun k hk => by
    cases hk
    exact hstop₂
  refine ⟨?_, a, u.index, rfl, ?_⟩
  · refine SameClients.trans ?_ (SameClients.set
      (w := { cv with jn := some j, busy := true }) hcv₂ rfl)
    rw [hreg₂]
    exact SameClients.set (w := { cv with jn := some j }) hcv rfl
  · have hseat : put (put b.seat w (some ⟨cv.busy, some j⟩)) w (some ⟨true, some j⟩)
        = put b.seat w (some (Seat.mk true (some j))) := put_put _ _ _ _
    rw [← hseat]
    exact h₃

theorem movePiece (h : Shows s b g) (hok : b.Ok) {j c w old : Nat}
    {id r : Int} {jn : Ptr} {hs hpre hpost : List Holder} {pre post : List Nat}
    {v : ClientNode} (hj : j ∈ b.order) (hview : b.job j = ⟨id, r, hs⟩)
    (hnodes : g.nodes j = pre ++ old :: post)
    (hhs : hs = hpre ++ ⟨c, v.index⟩ :: hpost) (hlen : hpre.length = pre.length)
    (hw : b.seat w = some ⟨false, jn⟩) (hr : movePiece supply s j old c w = .ok s') :
    SameClients s.reg s'.reg ∧ ∃ g', Shows s' { b with
      job := put b.job j ⟨id, r, hpre ++ hpost ++ [⟨w, v.index⟩]⟩
      seat := put (put b.seat w (some ⟨true, some j⟩)) c
        (some ⟨false, some j⟩) } g' := by
  have hmem : (⟨c, v.index⟩ : Holder) ∈ (b.job j).holders := by
    rw [hview, hhs]
    simp
  have hseatc : b.seat c = some ⟨true, some j⟩ := hok.seated j hj _ hmem
  have hstop : g.stop j = none := h.stops c _ j hseatc rfl
  have hcw : c ≠ w := hok.not_holder_of_idle hw hj hmem
  obtain ⟨s₁, hjob, hr⟩ := bind_ok.mp hr
  obtain ⟨⟨cn, s₂⟩, hadd, hr⟩ := bind_ok.mp hr
  obtain ⟨s₃, hbusy, hr⟩ := bind_ok.mp hr
  obtain ⟨vold, hold, hr⟩ := bind_ok.mp hr
  obtain ⟨nodes, hnodes', hr⟩ := bind_ok.mp hr
  obtain ⟨jv, hjv, hr⟩ := bind_ok.mp hr
  obtain ⟨t, -, hr⟩ := bind_ok.mp hr
  obtain ⟨ci, -, hr⟩ := bind_ok.mp hr
  obtain ⟨s₄, hsend, hr⟩ := bind_ok.mp hr
  obtain ⟨⟨p, s₅⟩, hfree, hr⟩ := bind_ok.mp hr
  cases hr
  obtain ⟨hsame₃, a, i₀, rfl, h₃⟩ := h.engage hj hview hstop hjob hadd hbusy
  have hstop₂ : (g.setList j (g.nodes j ++ [a]) none).stop j = none := put_self _ _ _
  have hnodes₃ : (g.setList j (g.nodes j ++ [a]) none).nodes j = g.nodes j ++ [a] :=
    put_self _ _ _
  have hview₃ : put b.job j ⟨id, r, hs ++ [⟨w, i₀⟩]⟩ j = ⟨id, r, hs ++ [⟨w, i₀⟩]⟩ :=
    put_self _ _ _
  -- the old node is where it was
  have hindex : vold.index = v.index := by
    obtain ⟨d, hd, hvold⟩ := Heap.load_ok.mp hold
    cases hd
    have hview' : put b.job j ⟨id, r, hs ++ [⟨w, i₀⟩]⟩ j
        = ⟨id, r, hpre ++ ⟨c, v.index⟩ :: (hpost ++ [⟨w, i₀⟩])⟩ := by
      rw [hview₃, hhs, List.append_assoc, List.cons_append]
    have hplace : (g.setList j (g.nodes j ++ [a]) none).nodes j
        = pre ++ old :: (post ++ [a]) := by
      rw [hnodes₃, hnodes, List.append_assoc, List.cons_append]
    exact h₃.index_at hj hview' hplace hlen hvold
  obtain ⟨d, u', hd, hu', rfl⟩ := Heap.modify_ok.mp hnodes'
  cases hd
  have hset := h₃.setIndex_at hj hview₃ hnodes₃ (h.clients hj hview).length_eq.symm
    hu' vold.index
  obtain ⟨hreg₄, h₄⟩ := hset.send hsend
  have hview₄ : put (put b.job j ⟨id, r, hs ++ [⟨w, i₀⟩]⟩) j
      ⟨id, r, hs ++ [⟨w, vold.index⟩]⟩ j = ⟨id, r, hs ++ [⟨w, vold.index⟩]⟩ :=
        put_self _ _ _
  have hids : ∀ k, (put (put b.job j ⟨id, r, hs ++ [⟨w, i₀⟩]⟩) j
      ⟨id, r, hs ++ [⟨w, vold.index⟩]⟩ k).id = (b.job k).id := by
    intro k
    by_cases hkj : k = j
    · rw [hkj, put_self, hview]
    · rw [put_ne _ hkj, put_ne _ hkj]
  have hid : (b.job j).id = id := by rw [hview]
  obtain ⟨ju, hju, hjuok⟩ := hset.job hj hview₄
  rw [Heap.load_some hju] at hjv
  cases hjv
  have hjid : jv.job.id = id := hjuok.id
  rw [hjid] at hfree
  have hnodup :
      (((hpre ++ ⟨c, v.index⟩ :: (hpost ++ [⟨w, vold.index⟩])) : List Holder).map
      (·.client)).Nodup := by
    have honce := hok.once j hj
    rw [hview, hhs] at honce
    rw [← List.cons_append, ← List.append_assoc, List.map_append, List.nodup_append]
    refine ⟨honce, List.pairwise_singleton _ _, fun d hd e he => ?_⟩
    obtain ⟨x, hx, rfl⟩ := List.mem_map.mp hd
    rw [List.mem_singleton.mp he]
    exact hok.not_holder_of_idle hw hj (x := x) (by rw [hview, hhs]; exact hx)
  rcases h₄.freeClient hj hview₄ hstop₂ (hid ▸ hok.nonneg j hj)
      (fun k hk hkid => hok.ids k hk j hj
        (((hids k).symm.trans hkid).trans hid.symm)) hfree with
    ⟨-, hnone⟩ | ⟨i, qre', qost', st, g', hsplit', hst, hsame, hshow⟩
  · exact absurd rfl (hnone ⟨c, v.index⟩ (by rw [hhs]; simp))
  · rw [hhs, List.append_assoc, List.cons_append] at hsplit'
    obtain ⟨rfl, hx', rfl⟩ := middle_unique hnodup hsplit' rfl
    have hst' : put b.seat w (some ⟨true, some j⟩) c = some st := hst
    rw [put_ne _ hcw, hseatc] at hst'
    cases hst'
    refine ⟨hsame₃.trans (hreg₄ ▸ hsame), g', ?_⟩
    have hshow' : Shows s' { b with
        job := put (put (put b.job j ⟨id, r, hs ++ [⟨w, i₀⟩]⟩) j ⟨id, r,
          hs ++ [⟨w, vold.index⟩]⟩) j
          ⟨id, r, hpre ++ (hpost ++ [⟨w, vold.index⟩])⟩
        seat := put (put b.seat w (some ⟨true, some j⟩)) c (some ⟨false, some j⟩)
          } g' := hshow
    rw [put_put, put_put, ← List.append_assoc] at hshow'
    rw [← hindex]
    exact hshow'

/-- The node that `reassign_job` finds is that of the piece the client holds. -/
theorem holding (h : Shows s b g) (hok : b.Ok) {cfd : Int} {c j old : Nat}
    {idle : Ptr} (hold : Holding s cfd c j old idle) :
    j ∈ b.order ∧ g.stop j = none ∧ ∃ pre post v hpre hpost,
      g.nodes j = pre ++ old :: post ∧
      s.nodes.cell old = some v ∧ (b.job j).holders = hpre ++ ⟨c, v.index⟩ :: hpost ∧
      pieces s.nodes pre = heldAs (b.job j).id hpre ∧
      pieces s.nodes post = heldAs (b.job j).id hpost ∧
      hpre.length = pre.length := by
  obtain ⟨ci, _, _, hcell, hjn, -⟩ := hold.walk
  have hseat := h.seat_of_cell hcell
  have hj : j ∈ b.order := hok.known c _ j hseat hjn
  have hstop : g.stop j = none := h.stops c _ j hseat hjn
  rcases h.getClientNode hj rfl hstop hold.node with
    ⟨hnone, -⟩ | ⟨pre, a, post, v, hpre, hpost, hnodes, hold', hv, -, hhs, h₁, h₂⟩
  · cases hnone
  cases hold'
  have hlen : hpre.length = pre.length := by
    have hlen' := congrArg List.length h₁
    simpa [pieces, heldAs] using hlen'.symm
  exact ⟨hj, hstop, pre, post, v, hpre, hpost, hnodes, hv, hhs, h₁, h₂, hlen⟩

/-- Whoever `reassign_job` finds idle is. -/
theorem idle_seat (h : Shows s b g) {cfd : Int} {c j old w : Nat}
    (hold : Holding s cfd c j old (some w)) : ∃ jn, b.seat w = some ⟨false, jn⟩ := by
  obtain ⟨_, _, _, -, -, -, -, hidle⟩ := hold.walk
  rcases idleMember_cases hidle with ⟨hnone, -⟩ | ⟨u, v, hu, -, hv, hbusy⟩
  · cases hnone
  cases hu
  exact ⟨v.jn, by rw [h.seat_of_cell hv, hbusy]⟩

/-- What `reassign_job` does: nothing, if the client has no piece; else the piece
waits, or moves to an idle client. -/
theorem reassignJob (h : Shows s b g) (hok : b.Ok) {cfd : Int}
    (hr : reassignJob supply s cfd = .ok s') :
    SameClients s.reg s'.reg ∧
      ((s' = s ∧ ∀ c, serverSearchClientFd s.reg (serverGetClientInfoHead cfd) cfd =
        .ok (some c) →
          ∀ j ∈ b.order, ∀ x ∈ (b.job j).holders, x.client ≠ c) ∨
        ∃ c j i pre post g',
        serverSearchClientFd s.reg (serverGetClientInfoHead cfd) cfd = .ok (some c) ∧
          s.assigned cfd = some (c, j) ∧ j ∈ b.order ∧
          (b.job j).holders = pre ++ ⟨c, i⟩ :: post ∧
          ((s.idleFor c = .ok none ∧ post ≠ [] ∧ Shows s' { b with
              job := put b.job j ⟨(b.job j).id, (b.job j).result, pre ++ post⟩
              waiting := ⟨(b.job j).id, i⟩ :: b.waiting } g') ∨
            ∃ w jn, b.seat w = some ⟨false, jn⟩ ∧ Shows s' { b with
              job := put b.job j ⟨(b.job j).id, (b.job j).result,
                pre ++ post ++ [⟨w, i⟩]⟩
              seat := put (put b.seat w (some ⟨true, some j⟩)) c
                (some ⟨false, some j⟩) } g')) := by
  rcases reassignJob_cases hr with ⟨rfl, hnot⟩ | ⟨c, j, old, idle, hold, hcases⟩
  · refine ⟨SameClients.refl _, Or.inl ⟨rfl, fun c hc k hk x hx heq => ?_⟩⟩
    obtain ⟨ci, hcell, hnode⟩ := hnot c hc
    -- a client that holds a piece was given the job it is of
    have hseat := hok.seated k hk x hx
    rw [heq, h.seat_of_cell hcell] at hseat
    have hjn : ci.jn = some k := congrArg Seat.jn (Option.some.inj hseat)
    rcases h.getClientNode hk rfl (h.stops c _ k (h.seat_of_cell hcell) hjn)
      (hnode k hjn) with
      ⟨-, hnone⟩ | ⟨pre, a, post, v, hpre, hpost, -, hnone, -⟩
    · exact hnone x hx heq
    · cases hnone
  · obtain ⟨hj, hstop, pre, post, v, hpre, hpost, hnodes, hv, hhs, h₁, h₂, hlen⟩ :=
      h.holding hok hold
    rcases hcases with ⟨rfl, hqueue⟩ | ⟨w, rfl, hmove⟩
    · obtain ⟨hne, hreg, g', hshow⟩ :=
        h.queuePiece hj rfl hstop hnodes hv hhs h₁ h₂ hqueue
      rw [hreg]
      exact ⟨SameClients.refl _, Or.inr ⟨c, j, v.index, hpre, hpost, g', hold.found,
        hold.assigned, hj, hhs, Or.inl ⟨hold.asked, hne, hshow⟩⟩⟩
    · obtain ⟨jn, hseat⟩ := h.idle_seat hold
      obtain ⟨hsame, g', hshow⟩ := h.movePiece hok hj rfl hnodes hhs hlen hseat hmove
      exact ⟨hsame, Or.inr ⟨c, j, v.index, hpre, hpost, g', hold.found,
        hold.assigned, hj, hhs, Or.inr ⟨w, jn, hseat, hshow⟩⟩⟩

/-! ## Results -/

/-- What `update_job_result` does: nothing, if the client was given no job; else
the value is merged, and a waiting piece of the job is handed over or, if there
is none, the client is freed. -/
theorem updateJobResult (h : Shows s b g) (hok : b.Ok) {cfd : Int}
    {value : Bytes} {p : Bool} (hr : updateJobResult s cfd value = .ok (p, s')) :
    (s' = s ∧ s.assigned cfd = none) ∨
      ∃ c j g', s.assigned cfd = some (c, j) ∧ j ∈ b.order ∧
        ((∃ i w pre post wpre wpost, (b.job j).holders = pre ++ ⟨c, i⟩ :: post ∧
            b.waiting = wpre ++ ⟨(b.job j).id, w⟩ :: wpost ∧ Shows s' { b with
              job := put b.job j ⟨(b.job j).id, max (b.job j).result (atoll value),
                pre ++ ⟨c, w⟩ :: post⟩
              waiting := wpre ++ wpost } g') ∨
          (∃ w wpre wpost, (∀ x ∈ (b.job j).holders, x.client ≠ c) ∧
            b.waiting = wpre ++ ⟨(b.job j).id, w⟩ :: wpost ∧ Shows s' { b with
              job := put b.job j ⟨(b.job j).id, max (b.job j).result (atoll value),
                (b.job j).holders⟩
              waiting := wpre ++ wpost } g') ∨
          (∃ i pre post, (b.job j).holders = pre ++ ⟨c, i⟩ :: post ∧
            (∀ w ∈ b.waiting, w.jid ≠ (b.job j).id) ∧ Shows s' { b with
              job := put b.job j ⟨(b.job j).id, max (b.job j).result (atoll value),
                pre ++ post⟩
              seat := put b.seat c (some ⟨false, some j⟩) } g') ∨
          ((∀ x ∈ (b.job j).holders, x.client ≠ c) ∧
            (∀ w ∈ b.waiting, w.jid ≠ (b.job j).id) ∧
            Shows s' { b with
              job := put b.job j ⟨(b.job j).id, max (b.job j).result (atoll value),
                (b.job j).holders⟩ } g')) := by
  rcases updateJobResult_cases hr with
    ⟨rfl, hnone⟩ | ⟨c, j, s₁, jobs, s₂, cn, s₃, hassigned, ⟨ci, hcell, hjn⟩, hlock,
      hjobs, hunlock, hdequeue, hcases⟩
  · exact Or.inl ⟨rfl, hnone⟩
  have hseat := h.seat_of_cell hcell
  have hj : j ∈ b.order := hok.known c _ j hseat hjn
  have hstop : g.stop j = none := h.stops c _ j hseat hjn
  obtain ⟨-, h₂⟩ := h.merge hj rfl hlock hjobs hunlock
  rcases h₂.dequeue hj (put_self _ _ _) hdequeue with
    ⟨rfl, rfl, hnone⟩ | ⟨a, v, wpre, wpost, rfl, -, hws, -, xs, h₃, hloose⟩
  · rcases hcases with ⟨a, q, ha, -⟩ | ⟨jv, -, hload, hfree⟩
    · cases ha
    obtain ⟨ju, hju, hjuok⟩ := h₂.job hj (put_self _ _ _)
    rw [Heap.load_some hju] at hload
    cases hload
    have hjid : jv.job.id = (b.job j).id := hjuok.id
    rw [hjid] at hfree
    rcases h₂.freeClient hj (put_self _ _ _) hstop (hok.nonneg j hj)
        (fun k hk hkid => hok.ids k hk j hj ((id_put b.job j k _ _).symm.trans hkid))
        hfree with
      ⟨rfl, hnot⟩ | ⟨i, pre, post, st, g', hsplit, hst, -, hshow⟩
    · exact Or.inr ⟨c, j, g, hassigned, hj,
        Or.inr (Or.inr (Or.inr ⟨hnot, hnone, h₂⟩))⟩
    · have hst' : b.seat c = some st := hst
      rw [hok.seated j hj ⟨c, i⟩ (hsplit ▸ by simp)] at hst'
      cases hst'
      have hshow' : Shows s' { b with
          job := put (put b.job j ⟨(b.job j).id, max (b.job j).result (atoll value),
            (b.job j).holders⟩) j ⟨(b.job j).id, max (b.job j).result (atoll value),
            pre ++ post⟩
          seat := put b.seat c (some ⟨false, some j⟩) } g' := hshow
      rw [put_put] at hshow'
      exact Or.inr ⟨c, j, g', hassigned, hj,
        Or.inr (Or.inr (Or.inl ⟨i, pre, post, hsplit, hnone, hshow'⟩))⟩
  · rcases hcases with ⟨d, q, hd, hassign⟩ | ⟨jv, hnone, -⟩
    · cases hd
      obtain ⟨-, hcases⟩ := h₃.assignPending hj (put_self _ _ _) hstop
        ⟨hloose.cell, hloose.list, hloose.queue⟩ hassign
      rcases hcases with ⟨rfl, hnot⟩ | ⟨i, pre, post, hsplit, hshow⟩
      · exact Or.inr ⟨c, j, _, hassigned, hj,
          Or.inr (Or.inl ⟨v.index, wpre, wpost, hnot, hws, h₃⟩)⟩
      · have hshow' : Shows s' { b with
            job := put (put b.job j ⟨(b.job j).id,
              max (b.job j).result (atoll value), (b.job j).holders⟩) j
              ⟨(b.job j).id, max (b.job j).result (atoll value),
                pre ++ ⟨c, v.index⟩ :: post⟩
            waiting := wpre ++ wpost } { g with queue := xs } := hshow
        rw [put_put] at hshow'
        exact Or.inr ⟨c, j, _, hassigned, hj,
          Or.inl ⟨i, v.index, pre, post, wpre, wpost, hsplit, hws, hshow'⟩⟩
    · cases hnone

end Shows

end Pyramid
