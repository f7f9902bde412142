/-
# `Pyramid.Busy` — the flag of a client and the lists of the jobs

A client is marked busy when a job reserves it, and again free when its node is
freed.  The one branch that takes its node and leaves the flag is that of a
piece put in the queue while its client stays.  In the runs without it a client
is busy exactly when it holds a piece of the job it was given (`busy_agrees`).
-/
import Pyramid.Worlds

namespace Pyramid

namespace Board

variable {garbage : Nat → Int} {b b' : Board} {l : Label}

/-- A busy client holds a piece of the job it was given. -/
def Working (b : Board) : Prop :=
  ∀ c st, b.seat c = some st → st.busy = true →
    ∃ j ∈ b.order, st.jn = some j ∧ c ∈ (b.job j).holders.map (·.client)

/-- One job's pieces change, and the busy clients that lose
one are not busy after. -/
theorem Working.change (hb : b.Working) {j : Nat} {r : Int} {hs : List Holder}
    {ws : List Waiting} {seat : Nat → Option Seat} {told : List Told}
    (hseat : ∀ c st, seat c = some st → st.busy = true →
      (st.jn = some j ∧ j ∈ b.order ∧ c ∈ hs.map (·.client)) ∨
        b.seat c = some st ∧ (c ∈ (b.job j).holders.map (·.client) →
          c ∈ hs.map (·.client))) :
    Working { b with
      job := put b.job j ⟨(b.job j).id, r, hs⟩, waiting := ws, seat := seat, told :=
  told } := by
  intro c st hc hbusy
  rcases hseat c st hc hbusy with ⟨hjn, hj, hmem⟩ | ⟨hold, hkeep⟩
  · refine ⟨j, hj, hjn, ?_⟩
    show c ∈ (put b.job j _ j).holders.map _
    rw [put_self]
    exact hmem
  · obtain ⟨k, hk, hjn, hmem⟩ := hb c st hold hbusy
    refine ⟨k, hk, hjn, ?_⟩
    show c ∈ (put b.job j _ k).holders.map _
    by_cases hkj : k = j
    · rw [hkj, put_self]
      rw [hkj] at hmem
      exact hkeep hmem
    · rw [put_ne _ hkj]
      exact hmem

/-- A client other than `c` keeps its piece when the one of `c` is taken. -/
theorem mem_clients_removed {pre post : List Holder} {c d : Nat} {i : Int}
    (hdc : d ≠ c) (hd : d ∈ (pre ++ ⟨c, i⟩ :: post).map (·.client)) :
    d ∈ (pre ++ post).map (·.client) := by
  obtain ⟨x, hx, rfl⟩ := List.mem_map.mp hd
  refine List.mem_map.mpr ⟨x, ?_, rfl⟩
  rcases List.mem_append.mp hx with hx | hx
  · exact List.mem_append_left _ hx
  · rcases List.mem_cons.mp hx with rfl | hx
    · exact absurd rfl hdc
    · exact List.mem_append_right _ hx

/-- Whoever is busy when somebody idle, or nobody, was seated was busy before. -/
theorem busy_of_put {seat : Nat → Option Seat} {c d : Nat} {o : Option Seat}
    {st : Seat} (ho : ∀ x, o = some x → x.busy = false)
    (hd : put seat c o d = some st) (hbusy : st.busy = true) :
    d ≠ c ∧ seat d = some st := by
  by_cases hdc : d = c
  · rw [hdc, put_self] at hd
    rw [ho st hd] at hbusy
    cases hbusy
  · rw [put_ne _ hdc] at hd
    exact ⟨hdc, hd⟩

theorem Step.working (hs : Step garbage b l b') (hb : b.Working) (hl : l ≠ .queued) :
    b'.Working := by
  cases hs with
  | stay => exact hb
  | @join c hc =>
      intro d st hd hbusy
      have hidle : ∀ x : Seat, some ⟨false, none⟩ = some x → x.busy = false := by
        rintro x ⟨⟩
        rfl
      exact hb d st (busy_of_put hidle hd hbusy).2 hbusy
  | @leave c hc =>
      intro d st hd hbusy
      exact hb d st (busy_of_put (by simp) hd hbusy).2 hbusy
  | @add j id hs ok hj _ _ _ _ _ =>
      intro d st hd hbusy
      have hd' : (if d ∈ hs.map (·.client) then some ⟨true, some j⟩ else b.seat d)
          = some st := hd
      split at hd'
      · rename_i hmem
        cases hd'
        refine ⟨j, List.mem_append_right _ (List.mem_singleton_self j), rfl, ?_⟩
        rw [add_job_self]
        exact hmem
      · obtain ⟨k, hk, hjn, hmem⟩ := hb d st hd' hbusy
        refine ⟨k, List.mem_append_left _ hk, hjn, ?_⟩
        show d ∈ (put b.job j _ k).holders.map _
        rw [put_ne _ (by rintro rfl; exact hj hk)]
        exact hmem
  | handed hj hc hw =>
      refine hb.change fun d st hd _ => Or.inr ⟨hd, fun hmem => ?_⟩
      rw [hc] at hmem
      simpa using hmem
  | @freed j c i v pre post hj hc hw =>
      refine hb.change fun d st hd hbusy => Or.inr ?_
      have hidle : ∀ x : Seat, some ⟨false, some j⟩ = some x → x.busy = false := by
        rintro x ⟨⟩
        rfl
      obtain ⟨hdc, hd'⟩ := busy_of_put hidle hd hbusy
      rw [hc]
      exact ⟨hd', mem_clients_removed hdc⟩
  | lost hj hw => exact hb.change fun d st hd _ => Or.inr ⟨hd, fun hmem => hmem⟩
  | stray hj => exact hb.change fun d st hd _ => Or.inr ⟨hd, fun hmem => hmem⟩
  | @moved j c w i jn o pre post hj hc hw ho =>
      refine hb.change fun d st hd hbusy => ?_
      have hidle : ∀ x, o = some x → x.busy = false := by
        rcases ho with rfl | rfl
        · simp
        · rintro x ⟨⟩
          rfl
      obtain ⟨hdc, hd'⟩ := busy_of_put hidle hd hbusy
      by_cases hdw : d = w
      · rw [hdw, put_self] at hd'
        cases hd'
        exact Or.inl ⟨rfl, hj, by rw [hdw]; simp⟩
      · rw [put_ne _ hdw] at hd'
        refine Or.inr ⟨hd', fun hmem => ?_⟩
        rw [hc] at hmem
        rw [List.map_append]
        exact List.mem_append_left _ (mem_clients_removed hdc hmem)
  | queued hj hc hpost => exact absurd rfl hl
  | @queuedAway j c i pre post hj hc hpost =>
      refine hb.change fun d st hd hbusy => Or.inr ?_
      obtain ⟨hdc, hd'⟩ := busy_of_put (by simp) hd hbusy
      rw [hc]
      exact ⟨hd', mem_clients_removed hdc⟩

end Board

/-! ## Every run -/

/-- A client is busy exactly when one node of one job refers to it, and that is
the job it was given. -/
def World.BusyAgrees (w : World) : Prop :=
  ∀ c v, w.server.reg.infos.cell c = some v → (v.busy = true ↔
    ∃ j ∈ w.server.jobList, v.jn = some j ∧
      ((w.server.held j).map (·.1)).count (some c) = 1 ∧
      ∀ k ∈ w.server.jobList, k ≠ j → some c ∉ (w.server.held k).map (·.1))

/-- On the board: a busy client holds one piece, of the job it was given. -/
theorem World.OnBoard.busyAgrees {w : World} {b : Board} (h : w.OnBoard b)
    (hb : b.Working) :
    w.BusyAgrees := by
  obtain ⟨g, hg⟩ := h.server
  have hheld : ∀ j ∈ b.order, (w.server.held j).map (·.1)
      = ((b.job j).holders.map (·.client)).map some := by
    intro j hj
    rw [hg.held_clients hj, List.map_map]
    rfl
  intro c v hv
  have hseat := hg.seat_of_cell hv
  rw [hg.jobList_eq]
  constructor
  · intro hbusy
    obtain ⟨j, hj, hjn, hmem⟩ := hb c _ hseat hbusy
    obtain ⟨x, hx, hxc⟩ := List.mem_map.mp hmem
    refine ⟨j, hj, hjn, ?_, fun k hk hkj hck => ?_⟩
    · rw [hheld j hj]
      refine List.count_eq_one_of_mem ?_ (List.mem_map_of_mem hmem)
      exact (h.ok.once j hj).map fun _ _ hab => Option.some.inj hab
    · rw [hheld k hk] at hck
      obtain ⟨d, hd, hdc⟩ := List.mem_map.mp hck
      obtain ⟨y, hy, hyd⟩ := List.mem_map.mp hd
      have hyx : y.client = x.client :=
        hyd.trans ((Option.some.inj hdc).trans hxc.symm)
      exact hkj (h.ok.holder_unique hk hj hy hx hyx)
  · rintro ⟨j, hj, -, hone, -⟩
    have hmem : some c ∈ (w.server.held j).map (·.1) :=
      List.count_pos_iff.mp (Nat.lt_of_lt_of_eq Nat.one_pos hone.symm)
    rw [hheld j hj] at hmem
    obtain ⟨d, hd, hdc⟩ := List.mem_map.mp hmem
    obtain ⟨x, hx, hxd⟩ := List.mem_map.mp hd
    have hseat' := h.ok.seated j hj x hx
    rw [hxd, Option.some.inj hdc, hseat] at hseat'
    exact congrArg Seat.busy (Option.some.inj hseat')

/-- **The flag.**  As long as every job has an id of its own, and a client that
fails finds an idle member in its group, a client is busy exactly when it holds
a piece of the job it was given. -/
theorem busy_agrees (supply : JobSupply) (config : Config) (es : List Event)
    (w : World)
    (hrun : World.Run supply config (fun w e => w.FreshId e ∧
      ¬ w.QueuesPiece e) es w) :
    w.BusyAgrees := by
  obtain ⟨b, hb, hworking⟩ :=
    hrun.onBoard Board.Working (fun c st hc => (by cases hc))
    (fun w e hk => hk.1)
    fun w e b l b' hk hok hinv hs _ hqueued _ => hs.working hinv fun hl =>
      hk.2 (hqueued hl)
  exact hb.busyAgrees hworking

/-- Two clients share a job, and a third joins; the first fails, and the third
takes over its piece. -/
theorem busy_agrees_sample :
    ∃ w, World.Run JobSupply.zeros Config.sample (fun w e => w.FreshId e ∧
      ¬ w.QueuesPiece e)
        [.join 5 ⟨0, 0⟩ [1], .join 6 ⟨0, 0⟩ [1], .submit 1 1 102 (ascii "in") 0,
          .join 7 ⟨0, 0⟩ [1], .error 6] w ∧
      w.server.held 1 = [(some 0, 1), (some 2, 0)] ∧ w.BusyAgrees := by
  exact World.run_of_check (by decide +kernel) fun w hrun _ =>
    busy_agrees _ _ _ _ hrun

/-- Two clients share a job; one fails, and nobody is idle.  It keeps its flag
when its piece is put in the queue. -/
theorem busy_without_piece :
    ∃ w, World.Run JobSupply.zeros Config.sample (fun _ _ => True)
        [.join 5 ⟨0, 0⟩ [1], .join 6 ⟨0, 0⟩ [1], .submit 1 1 102 (ascii "in") 0,
          .error 6] w ∧
      ((w.server.reg.infos.cell 1).map (·.busy), w.server.jobList, w.server.held 1)
        = (some true, [1], [(some 0, 1)]) ∧
      ¬ w.BusyAgrees := by
  refine World.run_of_check (by decide +kernel) fun w _ hw hall => ?_
  obtain ⟨hbusy, hrest⟩ := Prod.mk.inj hw
  obtain ⟨hlist, hheld⟩ := Prod.mk.inj hrest
  obtain ⟨v, hv, hvbusy⟩ := Option.map_eq_some_iff.mp hbusy
  obtain ⟨j, hj, -, hone, -⟩ := (hall 1 v hv).mp hvbusy
  rw [hlist] at hj
  rw [List.mem_singleton.mp hj, hheld] at hone
  exact absurd hone (by decide)

end Pyramid
