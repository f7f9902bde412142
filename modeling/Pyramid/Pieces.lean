/-
# `Pyramid.Pieces` — no piece of a job is lost

Every piece of a started job is held by one client, or waits once, or has been
answered once.  A step of the board that goes wrong drops a piece that waits:
a value has come in from a client that holds none.  In the runs without such an
event every piece is in one place (`pieces_conserved`).
-/
import Pyramid.Worlds

namespace Pyramid

namespace Board

variable {garbage : Nat → Int} {b b' : Board} {l : Label}

/-! ## One step -/

/-- A piece that is put in the queue is where it was not, whoever keeps a seat. -/
theorem places_queued (hok : b.Ok) {j c k : Nat} {x : Int} {pre post : List Holder}
    (hj : j ∈ b.order) (hk : k ∈ b.order)
    (hc : (b.job j).holders = pre ++ ⟨c, x⟩ :: post) (seat : Nat → Option Seat)
    (i : Int) :
    ({ b with
      job := put b.job j ⟨(b.job j).id, (b.job j).result, pre ++ post⟩
      waiting := ⟨(b.job j).id, x⟩ :: b.waiting
      seat := seat } : Board).places k i = b.places k i := by
  by_cases hkj : k = j
  · rw [hkj]
    simp [places, pending, answered, hc, List.count_cons]
    omega
  · have hid : ¬ (b.job j).id = (b.job k).id :=
      fun heq => hkj (hok.ids j hj k hk heq).symm
    simp [places, pending, answered, put_ne _ hkj, hid]

/-- Pieces move, and unless one of the job gets lost each stays in as
many places as before. -/
theorem Step.places (hs : Step garbage b l b') (hok : b.Ok) {k : Nat}
    (hk : k ∈ b.order) (hl : l ≠ .lost k) (i : Int) :
    b'.places k i = b.places k i := by
  cases hs with
  | stay => rfl
  | join hc => rfl
  | leave hc => rfl
  | @add j id hs ok hj _ _ _ _ _ =>
      have hkj : k ≠ j := fun heq => hj (heq ▸ hk)
      simp only [Board.places, pending, answered, Board.add, put_ne _ hkj]
  | @handed j c x w v pre post wpre wpost hj hc hw =>
      by_cases hkj : k = j
      · rw [hkj]
        simp [Board.places, pending, answered, hc, hw, List.count_cons]
        omega
      · have hid : ¬ (b.job j).id = (b.job k).id :=
          fun heq => hkj (hok.ids j hj k hk heq).symm
        simp [Board.places, pending, answered, put_ne _ hkj, hw, hid, Ne.symm hkj]
  | @freed j c x v pre post hj hc hw =>
      by_cases hkj : k = j
      · rw [hkj]
        simp [Board.places, pending, answered, hc, List.count_cons]
        omega
      · simp [Board.places, pending, answered, put_ne _ hkj, Ne.symm hkj]
  | @lost j w v wpre wpost hj hw =>
      have hkj : k ≠ j := fun heq => hl (by rw [heq])
      have hid : ¬ (b.job j).id = (b.job k).id :=
        fun heq => hkj (hok.ids j hj k hk heq).symm
      simp [Board.places, pending, answered, put_ne _ hkj, hw, hid, Ne.symm hkj]
  | @stray j v hj =>
      by_cases hkj : k = j
      · rw [hkj]
        simp [Board.places, pending, answered]
      · simp [Board.places, pending, answered, put_ne _ hkj, Ne.symm hkj]
  | @moved j c w x jn o pre post hj hc hw ho =>
      by_cases hkj : k = j
      · rw [hkj]
        simp [Board.places, pending, answered, hc, List.count_cons]
      · simp [Board.places, pending, answered, put_ne _ hkj]
  | queued hj hc hpost => exact places_queued hok hj hk hc b.seat i
  | queuedAway hj hc hpost => exact places_queued hok hj hk hc _ i

/-- Every piece of a started job is in one place. -/
def Conserves (b : Board) : Prop :=
  ∀ p ∈ b.started, ∀ i ∈ indexes p.2, b.places p.1 i = 1

theorem indexes_nodup (n : Nat) : (indexes n).Nodup :=
  List.nodup_range.map fun _ _ hab => Int.ofNat.inj hab

/-- The pieces of a new job are with its clients. -/
theorem places_new (hok : b.Ok) {j : Nat} {id r : Int} {hs : List Holder} {ok : Bool}
    (hj : j ∉ b.order) (hid : ∀ k ∈ b.order, (b.job k).id ≠ id)
    (hindex : hs.map (·.index) = indexes hs.length) {i : Int}
    (hi : i ∈ indexes hs.length) : (b.add j ⟨id, r, hs⟩ ok).places j i = 1 := by
  have hpending : (b.add j ⟨id, r, hs⟩ ok).pending j = [] := by
    rw [pending, List.map_eq_nil_iff, List.filter_eq_nil_iff]
    intro w hw hwj
    obtain ⟨k, hk, hkw⟩ := hok.jids w hw
    rw [add_job_self] at hwj
    exact hid k hk (hkw.trans (by simpa using hwj))
  have hanswered : (b.add j ⟨id, r, hs⟩ ok).answered j = [] := by
    rw [answered, List.filterMap_eq_nil_iff]
    intro t ht
    obtain ⟨ht, htj⟩ := List.mem_filter.mp ht
    have htj' : t.job = j := by simpa using htj
    exact absurd (htj' ▸ hok.heard t ht) hj
  have hheld : ((b.add j ⟨id, r, hs⟩ ok).job j).holders.map (·.index)
      = indexes hs.length := by
    rw [add_job_self]
    exact hindex
  rw [places, hpending, hanswered, hheld, List.count_nil]
  exact List.count_eq_one_of_mem (indexes_nodup _) hi

theorem Step.conserves (hs : Step garbage b l b') (hok : b.Ok) (hb : b.Conserves)
    (hl : ∀ j, l = .lost j → j ∉ b.started.map (·.1)) : b'.Conserves := by
  intro p hp i hi
  by_cases hold : p ∈ b.started
  · rw [hs.places hok (hok.begun p hold)
      (fun h => hl p.1 h (List.mem_map_of_mem hold))]
    exact hb p hold i hi
  · cases hs with
    | @add j id hs ok hj hid _ _ _ hindex =>
        have hp' : p ∈ if ok then (j, hs.length) :: b.started else b.started := hp
        cases ok with
        | false => exact absurd hp' hold
        | true =>
            rcases List.mem_cons.mp hp' with rfl | hp'
            · exact places_new hok hj hid (hindex rfl).2 hi
            · exact absurd hp' hold
    | stay => exact absurd hp hold
    | join hc => exact absurd hp hold
    | leave hc => exact absurd hp hold
    | handed hj hc hw => exact absurd hp hold
    | freed hj hc hw => exact absurd hp hold
    | lost hj hw => exact absurd hp hold
    | stray hj => exact absurd hp hold
    | moved hj hc hw ho => exact absurd hp hold
    | queued hj hc hpost => exact absurd hp hold
    | queuedAway hj hc hpost => exact absurd hp hold

end Board

/-! ## Every run -/

/-- Every piece of every started job is in exactly one place. -/
def World.PiecesConserved (w : World) : Prop :=
  ∀ p ∈ w.started, ∀ i : Nat, i < p.2 → w.places p.1 i = 1

theorem World.OnBoard.places_eq {w : World} {b : Board} (h : w.OnBoard b) {j : Nat}
    (hj : j ∈ b.order) (i : Int) : w.places j i = b.places j i := by
  obtain ⟨g, hg⟩ := h.server
  rw [World.places, hg.held_indexes hj, hg.waitingFor_eq hj,
    World.answered, ← h.told]
  rfl

/-- **Conservation of pieces.**  As long as every job has an id of its own, and
no value comes in from a client without a piece while one waits, no piece of a
started job is lost or held twice. -/
theorem pieces_conserved (supply : JobSupply) (config : Config) (es : List Event)
    (w : World)
    (hrun : World.Run supply config (fun w e => w.FreshId e ∧
      ¬ w.LosesPiece e) es w) :
    w.PiecesConserved := by
  obtain ⟨b, hb, hconserves⟩ := hrun.onBoard Board.Conserves
    (fun p hp => absurd hp List.not_mem_nil) (fun w e hk => hk.1)
    (fun w e b l b' hk hok hinv hs hlost _ _ =>
      hs.conserves hok hinv fun j hl hj => hk.2 (hlost j hl hj))
  intro p hp i hi
  rw [← hb.started] at hp
  rw [hb.places_eq (hb.ok.begun p hp)]
  exact hconserves p hp i (List.mem_map.mpr ⟨i, List.mem_range.mpr hi, rfl⟩)

/-- Two clients share a job; the first fails and its piece waits, until the
second answers its own. -/
theorem pieces_conserved_sample :
    ∃ w, World.Run JobSupply.zeros Config.sample (fun w e => w.FreshId e ∧
      ¬ w.LosesPiece e)
        [.join 5 ⟨0, 0⟩ [1], .join 6 ⟨0, 0⟩ [1], .submit 1 1 102 (ascii "in") 0,
          .error 6, .result 5 (ascii "7")] w ∧
      (w.started, w.server.held 1, w.answered 1) = ([(1, 2)], [(some 0, 0)], [1]) ∧
      w.PiecesConserved := by
  exact World.run_of_check (by decide +kernel) fun w hrun _ =>
    pieces_conserved _ _ _ _ hrun

/-- Three clients share a job; the second fails, and its piece waits.  The value
it sends then takes the piece out of the queue, and nobody gets it. -/
theorem waiting_piece_lost :
    ∃ w, World.Run JobSupply.zeros Config.sample (fun _ _ => True)
        [.join 5 ⟨0, 0⟩ [1], .join 6 ⟨0, 0⟩ [1], .join 7 ⟨0, 0⟩ [1],
          .submit 1 1 102 (ascii "in") 0, .error 6, .result 6 (ascii "9")] w ∧
      (w.started, w.places 1 1) = ([(1, 3)], 0) ∧ ¬ w.PiecesConserved := by
  refine World.run_of_check (by decide +kernel) fun w _ hw hall => ?_
  obtain ⟨hstarted, hplaces⟩ := Prod.mk.inj hw
  have hone :=
    hall (1, 3) (by rw [hstarted]; exact List.mem_singleton_self _) 1 (by decide)
  rw [Int.natCast_one, hplaces] at hone
  cases hone

/-! ## Completion -/

/-- Every job in the list was started. -/
def Board.AllStarted (b : Board) : Prop := ∀ j ∈ b.order, j ∈ b.started.map (·.1)

theorem Board.Step.allStarted {garbage : Nat → Int} {b b' : Board} {l : Label}
    (hs : Step garbage b l b') (hb : b.AllStarted) (hl : l ≠ .added false) :
    b'.AllStarted := by
  cases hs with
  | @add j id hs ok _ _ _ _ _ _ =>
      cases ok with
      | false => exact absurd rfl hl
      | true =>
          intro k hk
          rcases List.mem_append.mp hk with hk | hk
          · exact List.mem_cons_of_mem _ (hb k hk)
          · rw [List.mem_singleton.mp hk]
            exact List.mem_cons_self
  | stay => exact hb
  | join hc => exact hb
  | leave hc => exact hb
  | handed hj hc hw => exact hb
  | freed hj hc hw => exact hb
  | lost hj hw => exact hb
  | stray hj => exact hb
  | moved hj hc hw ho => exact hb
  | queued hj hc hpost => exact hb
  | queuedAway hj hc hpost => exact hb

/-- The job found under this id was started, all its pieces have been answered,
and none waits. -/
def World.Completed (w : World) (jobId : Int) : Prop :=
  ∃ j n, getJobNode w.server (toInt32 jobId) = .ok (some j) ∧ (j, n) ∈ w.started ∧
    (∀ i : Nat, i < n → (i : Int) ∈ w.answered j) ∧ w.server.waitingFor j = []

/-- A result is reported for completed jobs only. -/
def World.ReportsCompleted (w : World) : Prop :=
  ∀ cfd jobId v s', shDisplayJobResults w.server cfd jobId = .ok (.result v, s') →
    w.Completed jobId

/-- A result is reported when the job found has no clients. -/
theorem shDisplayJobResults_result {s s' : Server} {cfd jobId v : Int}
    (h : shDisplayJobResults s cfd jobId = .ok (.result v, s')) :
    ∃ j u, getJobNode s (toInt32 jobId) = .ok (some j) ∧ s.jobs.cell j = some u ∧
      u.numClients = 0 := by
  obtain ⟨r, hr, h⟩ := bind_ok.mp h
  cases r with
  | none =>
      obtain ⟨reply, hreply, h⟩ := bind_ok.mp h
      obtain ⟨s₁, -, h⟩ := bind_ok.mp h
      cases h
      cases hreply
  | some j =>
      obtain ⟨u, hload, h⟩ := bind_ok.mp h
      obtain ⟨a, ha, hu⟩ := Heap.load_ok.mp hload
      cases ha
      obtain ⟨reply, hreply, h⟩ := bind_ok.mp h
      obtain ⟨s₁, -, h⟩ := bind_ok.mp h
      cases h
      refine ⟨j, u, hr, hu, ?_⟩
      by_contra hne
      rw [if_pos hne] at hreply
      cases hreply

/-- **Completion.**  If moreover every job that is added is started, a result is
reported for completed jobs only. -/
theorem reports_completed (supply : JobSupply) (config : Config) (es : List Event)
    (w : World) (hrun : World.Run supply config
      (fun w e => w.FreshId e ∧ ¬ w.LosesPiece e ∧ ¬ w.FailsToStart e) es w) :
    w.ReportsCompleted := by
  obtain ⟨b, hb, hconserves, hstarted⟩ :=
    hrun.onBoard (fun b => b.Conserves ∧ b.AllStarted)
    ⟨fun p hp => absurd hp List.not_mem_nil, fun j hj => absurd hj List.not_mem_nil⟩
    (fun w e hk => hk.1) fun w e b l b' hk hok hinv hs hlost _ hadded =>
      ⟨hs.conserves hok hinv.1 fun j hl hj => hk.2.1 (hlost j hl hj),
        hs.allStarted hinv.2 fun hl => hk.2.2 (hadded hl)⟩
  intro cfd jobId v s' hdisplay
  obtain ⟨j, u, hfound, hu, hzero⟩ := shDisplayJobResults_result hdisplay
  obtain ⟨g, hg⟩ := hb.server
  rcases hg.getJobNode hfound with ⟨heq, -⟩ | ⟨k, heq, hj, -⟩
  · cases heq
  cases heq
  obtain ⟨x, hx, hxj⟩ := hg.jobs.job j hj
  cases hu.symm.trans hx
  -- no clients, so none of the pieces waits either
  have hnone : (b.job j).holders = [] := by
    refine List.eq_nil_of_length_eq_zero ?_
    have hcount := hxj.count
    omega
  have hpending : b.pending j = [] := by
    rw [Board.pending, List.map_eq_nil_iff, List.filter_eq_nil_iff]
    intro y hy hyj
    exact hb.ok.served j hj y hy (by simpa using hyj) hnone
  obtain ⟨⟨k, n⟩, hp, hk⟩ := List.mem_map.mp (hstarted j hj)
  cases hk
  refine ⟨k, n, hfound, hb.started ▸ hp, fun i hi => ?_,
    (hg.waitingFor_eq hj).trans hpending⟩
  have hone :=
    hconserves (k, n) hp i (List.mem_map.mpr ⟨i, List.mem_range.mpr hi, rfl⟩)
  rw [Board.places, hnone, hpending, List.map_nil, List.count_nil, Nat.zero_add]
    at hone
  have hmem : (i : Int) ∈ b.answered k :=
    List.count_pos_iff.mp (Nat.lt_of_lt_of_eq Nat.one_pos hone.symm)
  rw [World.answered, ← hb.told]
  exact hmem

theorem reports_completed_sample :
    ∃ w, World.Run JobSupply.zeros Config.sample
        (fun w e => w.FreshId e ∧ ¬ w.LosesPiece e ∧ ¬ w.FailsToStart e)
        [.join 5 ⟨0, 0⟩ [1], .submit 1 1 102 (ascii "in") 0,
          .result 5 (ascii "7")] w ∧
      (shDisplayJobResults w.server 9 1).toOption.map (·.1) = some (.result 7) ∧
      w.ReportsCompleted := by
  exact World.run_of_check (by decide +kernel) fun w hrun _ =>
    reports_completed _ _ _ _ hrun

/-- Nobody is in group 2: the job is not started, and a result is reported for it. -/
theorem result_without_clients :
    ∃ w, World.Run JobSupply.zeros Config.sample (fun _ _ => True)
        [.submit 2 7 102 (ascii "in") 0] w ∧
      (w.started, (shDisplayJobResults w.server 9 7).toOption.map (·.1))
        = ([], some (.result 0)) ∧
      ¬ w.ReportsCompleted := by
  refine World.run_of_check (by decide +kernel) fun w _ hw hall => ?_
  obtain ⟨hstarted, hreply⟩ := Prod.mk.inj hw
  cases hdisplay : shDisplayJobResults w.server 9 7 with
  | error x =>
      rw [hdisplay] at hreply
      cases hreply
  | ok r =>
      obtain ⟨reply, s'⟩ := r
      rw [hdisplay] at hreply
      cases hreply
      obtain ⟨j, n, -, hmem, -⟩ := hall 9 7 0 s' hdisplay
      rw [hstarted] at hmem
      cases hmem

end Pyramid
