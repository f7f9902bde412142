/-
# `Pyramid.Totals` — what comes of the pieces

What the invariant says of every run: at any time the result of a job is the largest
number of the pieces that were answered (`results_exact`), each piece is in one place,
with at most one message about it (`piece_places`), and when no message is under way
all pieces have been answered (`rest_complete`).
-/
import Pyramid.Harvest

namespace Pyramid

/-! ## Two workers -/

/-- Two pieces are there. -/
def webHalves (path : Bytes) : Option Bytes :=
  if path = ascii "10.0.0.1:/home/job_1/prob/input_p000" then some (ascii "7\n12\n")
  else if path = ascii "10.0.0.1:/home/job_1/prob/input_p001"
    then some (ascii "-3\n40\n")
  else none

def Host.halves : Host webHalves :=
  ⟨⟨Client.wget webHalves, Allocator.zeroed⟩, (Client.able_wget webHalves).down⟩

/-- One of two workers leaves, and the other one answers for both. -/
def Move.sample : List (Move webHalves) :=
  [.join 5 ⟨0, 0⟩ [1] .halves Client.sample,
    .join 6 ⟨0, 0⟩ [1] .halves Client.sample, .submit 1 1 (ascii "in") 0,
    .work 5 1 [], .leave 6, .answer 5 1 [] (List.replicate 1024 0) none,
    .work 5 2 [], .answer 5 1 [] (List.replicate 1024 0) none]

theorem unquoted_sample : Config.sample.Unquoted :=
  ⟨by decide +kernel, by decide +kernel⟩

namespace Cluster

variable {web : Bytes → Option Bytes}

section Runs
variable {supply : JobSupply} {config : Config} {ms : List (Move web)}
  {C : Cluster web}

theorem start_ok (h : start supply web config = .ok C) : C.Ok supply config := by
  obtain ⟨w, hw, h⟩ := bind_ok.mp h
  cases h
  have hb := World.onBoard_start hw
  have hmerges := World.merges_start hw
  obtain ⟨s, hs, hw⟩ := bind_ok.mp hw
  cases hw
  obtain ⟨v, -, rfl⟩ := initializeJobDll_ok hs
  have hnobody : ∀ a cfd, ¬ (Registry.zeroed).At a cfd := fun a cfd ha => nomatch ha
  have hnone : ∀ {P : Nat × Nat → Prop}, ∀ p ∈ Board.empty.started, P p :=
    fun p hp => absurd hp List.not_mem_nil
  refine ⟨⟨⟨_, hb, hnone, hnone⟩, rfl, ?_,
    fun a cfd ha => absurd ha (hnobody a cfd)⟩,
    fun a cfd ha => absurd ha (hnobody a cfd), fun cfd l hl => (nomatch hl),
    fun t ht => absurd ht List.not_mem_nil, hmerges⟩
  obtain ⟨g, hg⟩ := hb.server
  intro j hj
  rw [hg.jobList_eq] at hj
  exact absurd hj List.not_mem_nil

theorem Run.ok (hc : config.Unquoted) (h : Run supply config ms C) :
    C.Ok supply config := by
  obtain ⟨C₀, hstart, hmeets, hruns⟩ := h
  exact runs_inv_of_meets (fun _ _ _ hok hm hs => Ok.step hok hc hm hs)
    (start_ok hstart) hmeets hruns

end Runs

/-! ## Results -/

/-- What was found for the pieces of the job at `j` that were answered, and what its
memory held. -/
def Found (supply : JobSupply) (C : Cluster web) (j : Nat) : Set Int :=
  insert (supply.garbage j)
    {x | ∃ i ∈ C.world.answered j,
      ∃ file, web (C.world.server.pathOf j i) = some file ∧ x ∈ asInts file}

section Results
variable {supply : JobSupply} {config : Config} {ms : List (Move web)}
  {C : Cluster web}

theorem mem_of_isMerged {r g : Int} {values : List Int} (h : IsMerged r g values) :
    r = g ∨ r ∈ values := by
  obtain ⟨hg, hvalues⟩ := (h r).mp (Int.le_refl r)
  by_contra hno
  rw [not_or] at hno
  have hbelow : r ≤ r - 1 := (h (r - 1)).mpr ⟨by omega, fun x hx => by
    have hle := hvalues x hx
    have hne : x ≠ r := fun heq => hno.2 (heq ▸ hx)
    omega⟩
  omega

theorem Ok.result (h : C.Ok supply config) {j : Nat}
    (hj : j ∈ C.world.server.jobList) :
    ∃ v, C.world.server.jobs.cell j = some v ∧
      IsGreatest (Found supply C j) v.job.result := by
  obtain ⟨v, a, t, hv, -⟩ := h.world.seeks j hj
  obtain ⟨u, hu, hmerged⟩ := h.merges.results j v hv
  have hgarbage : supply.garbage j = u.job.result := by rw [JobSupply.garbage, hu]
  rw [← hgarbage] at hmerged
  obtain ⟨hmemory, hvalues⟩ := (hmerged v.job.result).mp (Int.le_refl _)
  have hright : ∀ t ∈ C.world.told, t.job = j → ∃ i ∈ C.world.answered j, ∃ file,
      web (C.world.server.pathOf j i) = some file ∧
      IsGreatest {x | x ∈ asInts file} t.value := by
    rintro t ht rfl
    obtain ⟨i, file, hi, hfile, hmax⟩ := h.told t ht
    exact ⟨i, List.mem_filterMap.mpr ⟨t,
      List.mem_filter.mpr ⟨ht, beq_self_eq_true _⟩, hi⟩, file, hfile, hmax⟩
  refine ⟨v, hv, ?_, ?_⟩
  · rcases mem_of_isMerged hmerged with heq | hmem
    · exact Or.inl heq
    · obtain ⟨t, ht, hvalue⟩ := List.mem_map.mp hmem
      obtain ⟨ht, htj⟩ := List.mem_filter.mp ht
      obtain ⟨i, hi, file, hfile, hmax⟩ := hright t ht (beq_iff_eq.mp htj)
      exact Or.inr ⟨i, hi, file, hfile, hvalue ▸ hmax.1⟩
  · rintro x (rfl | ⟨i, hi, file, hfile, hx⟩)
    · exact hmemory
    · obtain ⟨t, ht, hti⟩ := List.mem_filterMap.mp hi
      obtain ⟨ht, htj⟩ := List.mem_filter.mp ht
      have htj := beq_iff_eq.mp htj
      obtain ⟨i', file', hi', hfile', hmax⟩ := h.told t ht
      cases hti.symm.trans hi'
      rw [htj] at hfile'
      cases hfile.symm.trans hfile'
      have hvalue : t.value ∈ C.world.values j :=
        List.mem_map.mpr ⟨t, List.mem_filter.mpr ⟨ht, beq_iff_eq.mpr htj⟩, rfl⟩
      exact Int.le_trans (hmax.2 hx) (hvalues _ hvalue)

/-- **Results are exact.**  Whatever joins, fails, gets lost or goes on first, the
result of a job is at any time the largest of what its memory held and of the numbers
in the pieces that were answered. -/
theorem results_exact (hc : config.Unquoted) (hrun : Run supply config ms C) :
    ∀ j ∈ C.world.server.jobList, ∃ v, C.world.server.jobs.cell j = some v ∧
      IsGreatest (Found supply C j) v.job.result :=
  fun _ hj => (hrun.ok hc).result hj

theorem results_exact_sample :
    ∃ C, Run JobSupply.zeros Config.sample (Move.sample.take 6) C ∧
      C.world.answered 1 = [1] ∧ ∃ v, C.world.server.jobs.cell 1 = some v ∧
      v.job.result = 40 ∧
      IsGreatest (Found JobSupply.zeros C 1) v.job.result := by
  obtain ⟨C, hrun, hC⟩ : ∃ C, Run JobSupply.zeros Config.sample
      (Move.sample.take 6) C ∧
      (C.world.server.jobList, C.world.answered 1,
        (C.world.server.jobs.cell 1).map (·.job.result))
        = ([1], [1], some 40) := run_of_check (by decide +kernel)
  obtain ⟨hlist, hC⟩ := Prod.mk.inj hC
  obtain ⟨hanswered, hresult⟩ := Prod.mk.inj hC
  obtain ⟨v, hv, hmax⟩ :=
    results_exact unquoted_sample hrun 1 (hlist ▸ List.mem_cons_self)
  rw [hv] at hresult
  exact ⟨C, hrun, hanswered, v, hv, Option.some.inj hresult, hmax⟩

end Results

end Cluster

/-! ## Messages -/

/-- A frame that asks for the largest number of a piece, by the
type of its first TLV. -/
def asks (frame : Bytes) : Bool := be16 frame 4 == Attribute.algoMax.code

/-- How many messages about pieces are under way. -/
def Link.underway {web : Bytes → Option Bytes} (l : Link web) : Nat :=
  l.requests.countP asks + l.replies.length

/-- What is under way is about the piece under `path`: the request for it, or what is
sent for that. -/
def Link.Carries {web : Bytes → Option Bytes} (path : Bytes) (l : Link web) : Prop :=
  ∃ p : Packet, p.value = path ∧ Client.IsRequest p = true ∧
    ((l.requests.filter asks = [Packet.segment [p]] ∧ l.replies = []) ∨
      l.requests.filter asks = [] ∧ ∃ f, Client.Answers web p f ∧ l.replies = [f])

theorem be16_segment (p : Packet) : be16 (Packet.segment [p]) 4 = p.type := by
  have htyped := p.typed
  have hdrop : (Packet.segment [p]).drop 4 = UInt8.ofNat (htons p.type)
      :: UInt8.ofNat (htons p.type / 256) ::
      (bytes16 (htons p.value.length) ++ p.value) := by
    rw [Packet.segment, Packet.wires_cons, Packet.wires_nil, List.append_nil]
    rfl
  rw [be16, hdrop]
  simp only [toNat_ofNat]
  have hsplit := Nat.div_add_mod p.type 256
  have hlow := Nat.mod_lt p.type (show 0 < 256 by decide)
  rw [htons]
  generalize p.type % 256 = low at hsplit hlow ⊢
  generalize p.type / 256 = high at hsplit ⊢
  have hhigh : high % 256 = high := Nat.mod_eq_of_lt (by omega)
  have hswap : (low * 256 + high) / 256 = low := by omega
  rw [hhigh, hswap]
  omega

theorem asks_segment (p : Packet) :
    asks (Packet.segment [p]) = Client.IsRequest p := by
  rw [asks, be16_segment, Client.IsRequest]

theorem filter_asks (ps : List Packet) :
    (Packet.frames ps).filter asks = Packet.frames (ps.filter Client.IsRequest) := by
  rw [Packet.frames, List.filter_map, Packet.frames]
  refine congrArg _ (List.filter_congr fun p _ => ?_)
  exact asks_segment p

section Messages
variable {web : Bytes → Option Bytes} {config : Config} {w : World} {cfd : Int}
  {l : Link web}

/-- Either no message is under way and no piece of a started job is held, or one is
under way, about the piece that is held. -/
theorem Link.Ok.message (h : l.Ok w cfd) :
    (l.underway = 0 ∧ ∀ j x, w.Holds cfd j x → j ∉ w.started.map (·.1)) ∨
      l.underway = 1 ∧ ∃ j x, w.Holds cfd j x ∧
      l.Carries (w.server.pathOf j x.index) := by
  obtain ⟨ps, hrequests, -, hflight⟩ := h
  have hasks : l.requests.filter asks
      = Packet.frames (ps.filter Client.IsRequest) := by
    rw [hrequests, filter_asks]
  have hcount : l.requests.countP asks = (ps.filter Client.IsRequest).length := by
    rw [List.countP_eq_length_filter, hasks, Packet.frames, List.length_map]
  rw [Link.underway, hcount]
  generalize hr : l.replies = rs at hflight
  cases hflight with
  | idle hnone hps =>
      rw [hps]
      exact Or.inl ⟨rfl, hnone⟩
  | @asked j x p hx hp hps =>
      rw [hps] at hasks ⊢
      exact Or.inr ⟨rfl, j, x, hx, p, hp.path, hp.request, Or.inl ⟨hasks, hr⟩⟩
  | @replied j x p f hx hp hps hf =>
      rw [hps] at hasks ⊢
      exact Or.inr ⟨rfl, j, x, hx, p, hp.path, hp.request, Or.inr ⟨hasks, f, hf, hr⟩⟩

/-- A client holds one piece. -/
theorem World.InOrder.one (h : w.InOrder config) {j k : Nat} {x y : Holder}
    (hx : w.Holds cfd j x) (hy : w.Holds cfd k y) : j = k ∧ x = y := by
  obtain ⟨b, hb, -⟩ := h.board
  obtain ⟨g, hg⟩ := hb.server
  have hclient : x.client = y.client := h.known.eq hx.2 hy.2
  obtain ⟨hj, hxj⟩ := hg.hasHolder_iff.mp hx.1
  obtain ⟨hk, hyk⟩ := hg.hasHolder_iff.mp hy.1
  obtain rfl := hb.ok.holder_unique hj hk hxj hyk hclient
  exact ⟨rfl, List.inj_on_of_nodup_map (hb.ok.once j hj) hxj hyk hclient⟩

end Messages

namespace Cluster

variable {web : Bytes → Option Bytes}

/-- The piece is held at the other end of `cfd`, and one message is under way there,
about this piece. -/
def With (C : Cluster web) (j : Nat) (i : Int) (cfd : Int) : Prop :=
  ∃ l x, C.link cfd = some l ∧ C.world.Holds cfd j x ∧ x.index = i ∧ l.underway = 1 ∧
    l.Carries (C.world.server.pathOf j i)

section Places
variable {supply : JobSupply} {config : Config} {ms : List (Move web)}
  {C : Cluster web}

/-- Whoever holds a piece of a started job is at the other end of a connection with a
message about it. -/
theorem Ok.message (h : C.Ok supply config) {j : Nat} {x : Holder}
    (hj : j ∈ C.world.started.map (·.1)) (hx : C.world.server.HasHolder j x) :
    ∃ cfd, C.world.Holds cfd j x ∧ C.With j x.index cfd := by
  obtain ⟨b, hb, -⟩ := h.world.board
  obtain ⟨v, hv⟩ := hb.holder_cell hx
  have hat : C.world.server.reg.At x.client v.cfd :=
    Registry.at_cell.mpr ⟨v, hv, rfl⟩
  obtain ⟨l, hl⟩ := h.opened _ _ hat
  rcases (h.links _ _ hl).message with ⟨-, hnone⟩ | ⟨hone, k, y, hy, hcarries⟩
  · exact absurd hj (hnone j x ⟨hx, hat⟩)
  · obtain ⟨rfl, rfl⟩ := h.world.one ⟨hx, hat⟩ hy
    exact ⟨v.cfd, hy, l, x, hl, hy, rfl, hone, hcarries⟩

/-- Two holders of one piece are one, if it is held once. -/
theorem holder_eq {hs : List Holder} {x y : Holder}
    (hone : (hs.map (·.index)).count x.index ≤ 1) (hx : x ∈ hs) (hy : y ∈ hs)
    (hxy : y.index = x.index) : y = x := by
  obtain ⟨pre, post, rfl⟩ := List.append_of_mem hx
  rw [List.map_append, List.map_cons, List.count_append, List.count_cons_self]
    at hone
  have hnone : ∀ z ∈ pre ++ post, z.index ≠ x.index := by
    intro z hz heq
    have hpos : 0 < ((pre ++ post).map (·.index)).count x.index :=
      List.count_pos_iff.mpr (heq ▸ List.mem_map_of_mem hz)
    rw [List.map_append, List.count_append] at hpos
    omega
  rcases List.mem_append.mp hy with hy | hy
  · exact absurd hxy (hnone y (List.mem_append_left _ hy))
  · rcases List.mem_cons.mp hy with rfl | hy
    · rfl
    · exact absurd hxy (hnone y (List.mem_append_right _ hy))

/-- **One place for each piece.**  Whatever has happened, each piece of a started job
has been answered once and nobody holds it, or it waits once and nobody holds it, or
it is held by one client, who is connected and has one message under way, which is
about this piece; and no connection has a message under way that is about a piece
which is not held there. -/
theorem piece_places (hc : config.Unquoted) (hrun : Run supply config ms C) :
    (∀ p ∈ C.world.started, ∀ i : Nat, i < p.2 →
      ((C.world.answered p.1).count (i : Int) = 1 ∧
          (C.world.server.waitingFor p.1).count (i : Int) = 0 ∧
          ∀ x, C.world.server.HasHolder p.1 x → x.index ≠ i) ∨
        ((C.world.answered p.1).count (i : Int) = 0 ∧
          (C.world.server.waitingFor p.1).count (i : Int) = 1 ∧
          ∀ x, C.world.server.HasHolder p.1 x → x.index ≠ i) ∨
        ((C.world.answered p.1).count (i : Int) = 0 ∧
          (C.world.server.waitingFor p.1).count (i : Int) = 0 ∧
          ∃ x cfd, C.world.Holds cfd p.1 x ∧ x.index = i ∧ C.With p.1 i cfd ∧
            (∀ y, C.world.server.HasHolder p.1 y → y.index = i → y = x) ∧
            ∀ fd, C.With p.1 i fd → fd = cfd)) ∧
      ∀ cfd l, C.link cfd = some l → l.underway = 0 ∨ ∃ j i, C.With j i cfd := by
  have hok := hrun.ok hc
  obtain ⟨b, hb, hconserves, -⟩ := hok.world.board
  obtain ⟨g, hg⟩ := hb.server
  refine ⟨fun p hp i hi => ?_, fun cfd l hl => ?_⟩
  · rw [← hb.started] at hp
    have hj := hb.ok.begun p hp
    have hone := hconserves p hp i (List.mem_map.mpr ⟨i, List.mem_range.mpr hi, rfl⟩)
    have hanswered : C.world.answered p.1 = b.answered p.1 := by
      rw [World.answered, Board.answered, hb.told]
    rw [hanswered, hg.waitingFor_eq hj]
    rw [Board.places] at hone
    have hnobody : ((b.job p.1).holders.map (·.index)).count (i : Int) = 0 →
        ∀ x, C.world.server.HasHolder p.1 x → x.index ≠ i := by
      intro hzero x hx hxi
      exact List.count_eq_zero.mp hzero
        (hxi ▸ List.mem_map_of_mem (hg.hasHolder_iff.mp hx).2)
    by_cases hzero : ((b.job p.1).holders.map (·.index)).count (i : Int) = 0
    · by_cases hwaits : (b.pending p.1).count (i : Int) = 0
      · exact Or.inl ⟨by omega, hwaits, hnobody hzero⟩
      · exact Or.inr (Or.inl ⟨by omega, by omega, hnobody hzero⟩)
    · refine Or.inr (Or.inr ⟨by omega, by omega, ?_⟩)
      obtain ⟨x, hx, hxi⟩ :=
        List.mem_map.mp (List.count_pos_iff.mp (Nat.pos_of_ne_zero hzero))
      have hstarted : p.1 ∈ C.world.started.map (·.1) :=
        hb.started ▸ List.mem_map_of_mem hp
      obtain ⟨cfd, hholds, hwith⟩ :=
        hok.message hstarted (hg.hasHolder_iff.mpr ⟨hj, hx⟩)
      rw [hxi] at hwith
      have halone : ∀ y, C.world.server.HasHolder p.1 y → y.index = i → y = x :=
        fun y hy hyi =>
        holder_eq (by rw [hxi]; omega) hx (hg.hasHolder_iff.mp hy).2
          (hyi.trans hxi.symm)
      refine ⟨x, cfd, hholds, hxi, hwith, halone, ?_⟩
      rintro fd ⟨-, y, -, hy, hyi, -⟩
      exact (halone y hy.1 hyi ▸ hy.2).unique hholds.2
  · rcases (hok.links cfd l hl).message with ⟨hzero, -⟩ | ⟨hone, j, x, hx, hcarries⟩
    · exact Or.inl hzero
    · exact Or.inr ⟨j, x.index, l, x, hl, hx, rfl, hone, hcarries⟩

theorem piece_places_sample :
    ∃ C, Run JobSupply.zeros Config.sample (Move.sample.take 6) C ∧
    C.world.answered 1 = [1] ∧ ∃ x cfd, C.world.Holds cfd 1 x ∧ x.index = 0 ∧
    C.With 1 0 cfd := by
  obtain ⟨C, hrun, hC⟩ : ∃ C, Run JobSupply.zeros Config.sample
      (Move.sample.take 6) C ∧
      (C.world.started, C.world.answered 1, C.world.server.waitingFor 1)
        = ([(1, 2)], [1], []) :=
    run_of_check (by decide +kernel)
  obtain ⟨hstarted, hC⟩ := Prod.mk.inj hC
  obtain ⟨hanswered, hwaiting⟩ := Prod.mk.inj hC
  have hplaces :=
    (piece_places unquoted_sample hrun).1 (1, 2) (hstarted ▸ List.mem_cons_self) 0
      (by decide)
  simp only [hanswered, hwaiting] at hplaces
  rcases hplaces with ⟨hone, -⟩ | ⟨-, hone, -⟩ | ⟨-, -, x, cfd, hholds,
    hindex, hwith, -⟩
  · exact absurd hone (by decide)
  · exact absurd hone (by decide)
  · exact ⟨C, hrun, hanswered, x, cfd, hholds, hindex, hwith⟩

/-- A job that was started, when no message is under way. -/
theorem Ok.rest (h : C.Ok supply config)
    (hquiet : ∀ cfd l, C.link cfd = some l → l.underway = 0) {p : Nat × Nat}
    (hp : p ∈ C.world.started) :
    (∀ i : Nat, i < p.2 → (C.world.answered p.1).count (i : Int) = 1) ∧
      ∃ v, C.world.server.jobs.cell p.1 = some v ∧ v.numClients = 0 ∧
        IsGreatest (insert (supply.garbage p.1)
          {x | ∃ i : Nat, i < p.2 ∧
            ∃ file, web (C.world.server.pathOf p.1 i) = some file ∧ x ∈ asInts file})
          v.job.result := by
  obtain ⟨b, hb, hconserves, hexact⟩ := h.world.board
  obtain ⟨g, hg⟩ := hb.server
  have hstarted : p.1 ∈ C.world.started.map (·.1) := List.mem_map_of_mem hp
  rw [← hb.started] at hp
  have hj := hb.ok.begun p hp
  have hnobody : (b.job p.1).holders = [] := by
    by_contra hne
    obtain ⟨x, hx⟩ := List.exists_mem_of_ne_nil _ hne
    obtain ⟨cfd, -, l, y, hl, -, -, hone, -⟩ :=
      h.message hstarted (hg.hasHolder_iff.mpr ⟨hj, hx⟩)
    have hzero := hquiet cfd l hl
    omega
  have hpending : b.pending p.1 = [] := by
    rw [Board.pending, List.map_eq_nil_iff, List.filter_eq_nil_iff]
    intro y hy hyj
    exact hb.ok.served p.1 hj y hy (beq_iff_eq.mp hyj) hnobody
  have hplaces : ∀ i, b.places p.1 i = (C.world.answered p.1).count i := by
    intro i
    rw [Board.places, hnobody, hpending, World.answered, ← hb.told]
    simp only [List.map_nil, List.count_nil, Nat.zero_add]
    rfl
  have hall : ∀ i : Nat, i < p.2 → (C.world.answered p.1).count (i : Int) = 1 := by
    intro i hi
    rw [← hplaces]
    exact hconserves p hp i (List.mem_map.mpr ⟨i, List.mem_range.mpr hi, rfl⟩)
  have hnone : ∀ i ∈ C.world.answered p.1, ∃ k : Nat, k < p.2 ∧ (k : Int) = i := by
    intro i hi
    by_contra hno
    have hnot : i ∉ indexes p.2 := by
      intro hmem
      obtain ⟨k, hk, hki⟩ := List.mem_map.mp hmem
      exact hno ⟨k, List.mem_range.mp hk, hki⟩
    have hzero := hexact p hp i hnot
    rw [hplaces] at hzero
    exact List.count_eq_zero.mp hzero hi
  obtain ⟨v, hv, hmax⟩ := h.result (hg.jobList_eq ▸ hj)
  have hfound : Found supply C p.1 = insert (supply.garbage p.1)
      {x | ∃ i : Nat, i < p.2 ∧
        ∃ file, web (C.world.server.pathOf p.1 i) = some file ∧ x ∈ asInts file} := by
    refine congrArg _ (Set.ext fun x => ⟨?_, ?_⟩)
    · rintro ⟨i, hi, hx⟩
      obtain ⟨k, hk, rfl⟩ := hnone i hi
      exact ⟨k, hk, hx⟩
    · rintro ⟨i, hi, hx⟩
      exact ⟨i, List.count_pos_iff.mp (by rw [hall i hi]; exact Nat.one_pos), hx⟩
  obtain ⟨v', hv', hjob⟩ := hg.jobs.job p.1 hj
  cases hv.symm.trans hv'
  refine ⟨hall, v, hv, ?_, hfound ▸ hmax⟩
  rw [hjob.count, hnobody]
  rfl

/-- **Completion.**  When no message is under way, every piece of every started job
has been answered once, no client is left in the job, and its result is the largest
of what its memory held and of the numbers in all its pieces. -/
theorem rest_complete (hc : config.Unquoted) (hrun : Run supply config ms C)
    (hquiet : ∀ cfd l, C.link cfd = some l → l.underway = 0) :
    ∀ p ∈ C.world.started,
      (∀ i : Nat, i < p.2 → (C.world.answered p.1).count (i : Int) = 1) ∧
      ∃ v, C.world.server.jobs.cell p.1 = some v ∧ v.numClients = 0 ∧
        IsGreatest (insert (supply.garbage p.1)
          {x | ∃ i : Nat, i < p.2 ∧
            ∃ file, web (C.world.server.pathOf p.1 i) = some file ∧ x ∈ asInts file})
          v.job.result :=
  fun _ hp => (hrun.ok hc).rest hquiet hp

set_option synthInstance.maxSize 1024 in
/-- The two workers have come to rest. -/
theorem sample_rest : ∃ C, Run JobSupply.zeros Config.sample Move.sample C ∧
    (∀ cfd l, C.link cfd = some l → l.underway = 0) ∧ C.world.started = [(1, 2)] ∧
      (C.world.server.jobs.cell 1).map (·.job.result) = some 40 ∧
        webHalves (C.world.server.pathOf 1 0) = some (ascii "7\n12\n") ∧
          webHalves (C.world.server.pathOf 1 1) = some (ascii "-3\n40\n") := by
  obtain ⟨C, hrun, hC⟩ : ∃ C, Run JobSupply.zeros Config.sample Move.sample C ∧
      ((C.link 5).all (·.underway = 0), (C.link 6).isNone, C.world.started,
        (C.world.server.jobs.cell 1).map (·.job.result),
        webHalves (C.world.server.pathOf 1 0), webHalves (C.world.server.pathOf 1 1))
        = (true, true, [(1, 2)], some 40, some (ascii "7\n12\n"),
          some (ascii "-3\n40\n")) :=
    run_of_check (by decide +kernel)
  simp only [Prod.mk.injEq] at hC
  obtain ⟨hfive, hsix, hC⟩ := hC
  refine ⟨C, hrun, fun cfd l hl => ?_, hC⟩
  have hmem : cfd ∈ ([5, 6] : List Int) := hrun.link hl
  rcases List.mem_cons.mp hmem with rfl | hmem
  · rw [hl] at hfive
    exact of_decide_eq_true hfive
  · rw [List.mem_singleton.mp hmem] at hl
    rw [hl] at hsix
    cases hsix

theorem rest_complete_sample :
    ∃ C v, Run JobSupply.zeros Config.sample Move.sample C ∧
    C.world.server.jobs.cell 1 = some v ∧ v.numClients = 0 ∧ v.job.result = 40 ∧
      IsGreatest (insert (JobSupply.zeros.garbage 1)
        {x | ∃ i : Nat, i < 2 ∧
          ∃ file, webHalves (C.world.server.pathOf 1 i) = some file ∧ x ∈ asInts file})
        v.job.result := by
  obtain ⟨C, hrun, hquiet, hstarted, hresult, -⟩ := sample_rest
  obtain ⟨-, v, hv, hcount, hmax⟩ :=
    rest_complete unquoted_sample hrun hquiet (1, 2) (hstarted ▸ List.mem_cons_self)
  rw [hv] at hresult
  exact ⟨C, v, hrun, hv, hcount, Option.some.inj hresult, hmax⟩

end Places

end Cluster

end Pyramid
