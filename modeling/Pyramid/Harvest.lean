/-
# `Pyramid.Harvest` — what the workers find comes in once

The invariant `Ok` of a cluster and that every move keeps it.  A worker that goes on
turns requests into answers (`Ok.work`).  The server that takes an answer finds the
client that holds the piece, so that the value is put down for this piece and is its
largest number (`Ok.answer`); what it sends then is told by `Link.Quiet.own`.
-/
import Pyramid.Results
import Pyramid.Underway

namespace Pyramid

/-! ## Numbers on their way -/

theorem decimal_numeral {x : Int} (h : x.natAbs < 10 ^ 20) :
    ∃ n : Numeral, n.text = decimal x ∧ n.value = x := by
  have hnat : leadingNat (digits 20 x.natAbs) = x.natAbs :=
    leadingNat_digits 20 x.natAbs h
  rw [decimal]
  by_cases hneg : x < 0
  · refine ⟨⟨.minus, digits 20 x.natAbs, digits_isDigit 20 _, digits_ne_nil 19 _⟩,
      (if_pos hneg).symm, ?_⟩
    show -(leadingNat (digits 20 x.natAbs) : Int) = x
    omega
  · refine ⟨⟨.bare, digits 20 x.natAbs, digits_isDigit 20 _, digits_ne_nil 19 _⟩,
      (if_neg hneg).symm, ?_⟩
    show (leadingNat (digits 20 x.natAbs) : Int) = x
    omega

/-- What a worker sends is read as the number that it has found. -/
theorem atoll_line {x : Int} (h₁ : intMin ≤ x) (h₂ : x ≤ intMax) :
    atoll (decimal x ++ [10]) = x := by
  unfold intMin at h₁
  unfold intMax at h₂
  obtain ⟨n, htext, hvalue⟩ := decimal_numeral (x := x) (by omega)
  rw [atoll_eq, ← htext, n.leadingInt_text (Or.inr rfl), hvalue]
  exact clampInt64_of_range (by omega) (by omega)

theorem mem_asInts_range {file : Bytes} {x : Int} (h : x ∈ asInts file) :
    intMin ≤ x ∧ x ≤ intMax := by
  obtain ⟨line, -, rfl⟩ := List.mem_map.mp h
  exact toInt32_range _

/-- Where the repository is can be put in a command as it stands. -/
structure Config.Unquoted (config : Config) : Prop where
  repo : Client.Unquoted config.centralRepoIp
  directory : Client.Unquoted config.jobDirectory

theorem Config.Unquoted.strings {config : Config} (h : config.Unquoted) :
    config.Strings :=
  ⟨h.repo.nul, h.directory.nul⟩

theorem unquoted_decimal (x : Int) : Client.Unquoted (decimal x) := by
  intro c hc
  rcases decimal_bytes x c hc with rfl | hdigit
  · decide
  · rw [isDigit, Bool.and_eq_true, decide_eq_true_eq, decide_eq_true_eq] at hdigit
    have hlow : (45 : UInt8) ≤ c := UInt8.le_trans (by decide) hdigit.1
    have hhigh : c ≤ 58 := UInt8.le_trans hdigit.2 (by decide)
    rw [Client.plainByte, decide_eq_true hlow, decide_eq_true hhigh]
    rfl

theorem Client.Unquoted.append {s t : Bytes} (hs : Client.Unquoted s)
    (ht : Client.Unquoted t) :
    Client.Unquoted (s ++ t) :=
  fun c hc => (List.mem_append.mp hc).elim (hs c) (ht c)

theorem Config.Unquoted.pathOf {s : Server} (h : s.config.Unquoted) (j : Nat)
    (i : Int) :
    Client.Unquoted (s.pathOf j i) := by
  have hcolon : Client.Unquoted (ascii ":") := by decide +kernel
  have hjob : Client.Unquoted (ascii "job_") := by decide +kernel
  have hprob : Client.Unquoted (ascii "/prob/input_p") := by decide +kernel
  rw [Server.pathOf]
  cases s.jobs.cell j with
  | none => exact fun c hc => absurd hc List.not_mem_nil
  | some v =>
      have hstem := ((((h.repo.append hcolon).append h.directory).append hjob).append
        (unquoted_decimal v.job.id)).append hprob
      exact ((hstem.append (unquoted_decimal _)).append (unquoted_decimal _)).append
        (unquoted_decimal _)

theorem plain_error : Client.errorPacket.Plain := by decide

theorem plain_max (max : Int) : (Client.maxPacket max).Plain := by
  refine ⟨show Attribute.algoMax.code
    ∈ byteValued.map Attribute.code by decide, fun hmem => ?_⟩
  rcases List.mem_append.mp hmem with hmem | hmem
  · exact decimal_nul max hmem
  · exact absurd hmem (by decide)

/-! ## The answer to a value -/

section Relay
variable {s s' : Server} {cfd : Int} {storage v : Bytes}

/-- A value is sent back in one frame, which is no request. -/
theorem relay_frame (hnul : 0 ∉ v) (hlen : v.length ≤ 1014)
    (h : shSendJobResultToCli s cfd (v ++ [0]) storage = .ok s') :
    ∃ p : Packet, p.Plain ∧ Client.IsRequest p = false ∧
      s' = { s with sent := s.sent ++ [⟨cfd, Packet.segment [p]⟩] } := by
  have hlength : (ascii "[" ++ v ++ ascii "]").length = v.length + 2 := by
    simp only [List.length_append, show (ascii "[").length = 1 from rfl,
      show (ascii "]").length = 1 from rfl]
    omega
  have hne : ascii "[" ++ v ++ ascii "]" ≠ [] :=
    List.append_ne_nil_of_right_ne_nil _ (by decide)
  have htext : 0 ∉ ascii "[" ++ v ++ ascii "]" := by
    simp only [List.mem_append, not_or]
    exact ⟨⟨by decide, hnul⟩, by decide⟩
  have hshown : cString (snprintf 1024 (ascii "[" ++ v ++ ascii "]"))
      = .ok (ascii "[" ++ v ++ ascii "]") := by
    rw [cString_snprintf (by decide) htext, List.take_of_length_le (by omega)]
  rw [shSendJobResultToCli, cString_append hnul, ok_bind, showText, shTryToSendData,
    if_neg (show ¬ 1024 ≤ 0 + (ascii "[" ++ v ++ ascii "]").length + 1 by omega)]
    at h
  simp only [ok_bind, hshown] at h
  obtain ⟨d, hd, h⟩ := bind_ok.mp h
  obtain ⟨data, hpoke, hd⟩ := bind_ok.mp hd
  cases hd
  rw [Display.rest, if_neg (by simp only [hlength]; omega)] at h
  have hdata : cString data = .ok (ascii "[" ++ v ++ ascii "]") := by
    rw [poke] at hpoke
    split at hpoke
    · cases hpoke
      rw [List.take_zero, List.nil_append, List.append_assoc, List.singleton_append]
      exact cString_append htext
    · cases hpoke
  obtain ⟨fs, hfs, rfl⟩ := shSendEncodedData_frames h
  obtain ⟨-, f, hattr, hvalue, rfl⟩ :=
    framesOf_text (show Attribute.cliData ∈ textual by decide) hdata hne hfs
  have hseg : Packet.segment [f.packet] = segment [f] := rfl
  refine ⟨f.packet, ⟨?_, ?_⟩, ?_, by rw [hseg]⟩
  · show f.attr.code ∈ byteValued.map Attribute.code
    rw [hattr]
    decide
  · show 0 ∉ f.value
    rw [hvalue]
    exact htext
  · show (f.attr.code == Attribute.algoMax.code) = false
    rw [hattr]
    decide

end Relay

/-! ## Values -/

section Values
variable {supply : JobSupply} {config : Config} {w w' : World} {e : Event}
  {cfd : Int} {j : Nat} {x : Holder}

/-- A value that comes in from a client that holds a piece is
put down for this piece. -/
theorem World.InOrder.assigned (h : w.InOrder config) (hx : w.Holds cfd j x) :
    w.server.assigned cfd = some (x.client, j) ∧
      w.server.heldBy j x.client = some x.index := by
  obtain ⟨b, hb, -⟩ := h.board
  obtain ⟨g, hg⟩ := hb.server
  exact ⟨hg.assigned hb.ok (h.known _ _ hx.2) hx.1 rfl, hb.heldBy hx.1⟩

theorem World.InOrder.heard (h : w.InOrder config) (hx : w.Holds cfd j x)
    (value : Bytes) :
    w.heard cfd value = ⟨j, some x.index, atoll value⟩ :: w.told := by
  obtain ⟨hassigned, hheld⟩ := h.assigned hx
  rw [World.heard, hassigned, ← hheld]

theorem World.InOrder.keeps (h : w.InOrder config) (hx : w.Holds cfd j x)
    (value : Bytes) :
    ¬ w.LosesPiece (.result cfd value) := by
  obtain ⟨hassigned, hheld⟩ := h.assigned hx
  rintro ⟨p, hp, -, hnone, -⟩
  cases hassigned.symm.trans hp
  cases hheld.symm.trans hnone

theorem World.step_told (hstep : w.step supply e = .ok w') :
    w'.told = w.told ∨ ∃ cfd value, e = .result cfd value ∧
      w'.told = w.heard cfd value := by
  cases e with
  | join cfd sa gids =>
      obtain ⟨⟨p, reg⟩, -, hstep⟩ := bind_ok.mp hstep
      cases hstep
      exact Or.inl rfl
  | submit groupId jobId taskType inputFile system =>
      obtain ⟨⟨started, s'⟩, -, hstep⟩ := bind_ok.mp hstep
      cases hstep
      exact Or.inl rfl
  | result cfd value =>
      obtain ⟨⟨p, s'⟩, -, hstep⟩ := bind_ok.mp hstep
      cases hstep
      exact Or.inr ⟨cfd, value, rfl, rfl⟩
  | error cfd =>
      obtain ⟨s', -, hstep⟩ := bind_ok.mp hstep
      cases hstep
      exact Or.inl rfl
  | disconnect cfd =>
      obtain ⟨s', -, hstep⟩ := bind_ok.mp hstep
      obtain ⟨⟨p, reg⟩, -, hstep⟩ := bind_ok.mp hstep
      cases hstep
      exact Or.inl rfl

end Values

/-! ## A worker goes on -/

section Working
variable {web : Bytes → Option Bytes} {w : World} {cfd : Int} {ps qs : List Packet}
  {rs out : List Bytes}

/-- Whatever request is under way names a piece. -/
theorem Flight.unquoted (h : Flight web w cfd ps rs)
    (hc : w.server.config.Unquoted) :
    ∀ p ∈ ps, Client.IsRequest p = true → Client.Unquoted p.value := by
  intro p hp hreq
  have hmem : p ∈ ps.filter Client.IsRequest := List.mem_filter.mpr ⟨hp, hreq⟩
  cases h with
  | idle _ hps | replied _ _ hps _ =>
      rw [hps] at hmem
      exact absurd hmem List.not_mem_nil
  | asked _ hnames hps =>
      rw [hps] at hmem
      rw [List.mem_singleton.mp hmem, hnames.path]
      exact hc.pathOf _ _

/-- The requests that are taken are answered. -/
theorem Flight.work (h : Flight web w cfd (ps ++ qs) rs)
    (hanswers : List.Forall₂ (Client.Answers web) (ps.filter Client.IsRequest) out) :
    Flight web w cfd qs (rs ++ out) := by
  have hsilent : ps.filter Client.IsRequest = [] → rs ++ out = rs := by
    intro hnil
    rw [hnil] at hanswers
    cases hanswers
    exact List.append_nil rs
  cases h with
  | idle hnone hps =>
      rw [List.filter_append, List.append_eq_nil_iff] at hps
      rw [hsilent hps.1]
      exact .idle hnone hps.2
  | replied hx hp hps hf =>
      rw [List.filter_append, List.append_eq_nil_iff] at hps
      rw [hsilent hps.1]
      exact .replied hx hp hps.2 hf
  | asked hx hp hps =>
      rw [List.filter_append, List.append_eq_singleton_iff] at hps
      rcases hps with ⟨hnil, hps⟩ | ⟨hps, hnil⟩
      · rw [hsilent hnil]
        exact .asked hx hp hps
      · rw [hps] at hanswers
        obtain ⟨f, out', hf, hrest, rfl⟩ := List.forall₂_cons_left_iff.mp hanswers
        cases hrest
        exact .replied hx hp hnil hf

end Working

/-! ## The invariant of a cluster -/

/-- The value is the largest number of the piece that its sender held. -/
def World.Right (web : Bytes → Option Bytes) (w : World) (t : Told) : Prop :=
  ∃ i file, t.index = some i ∧ web (w.server.pathOf t.job i) = some file ∧
    IsGreatest {x | x ∈ asInts file} t.value

namespace Cluster

variable {web : Bytes → Option Bytes}

structure Ok (supply : JobSupply) (config : Config) (C : Cluster web) : Prop where
  world : C.world.InOrder config
  opened : ∀ a cfd, C.world.server.reg.At a cfd → ∃ l, C.link cfd = some l
  links : ∀ cfd l, C.link cfd = some l → l.Ok C.world cfd
  told : ∀ t ∈ C.world.told, C.world.Right web t
  merges : World.Merges supply C.world

/-- The value is the largest number of the piece that is held at the other end. -/
def Finds (web : Bytes → Option Bytes) (w : World) : Event → Prop
  | .result cfd value => ∃ j x file, w.Holds cfd j x ∧
    web (w.server.pathOf j x.index) = some file ∧
      IsGreatest {y | y ∈ asInts file} (atoll value)
  | _ => True

/-- A descriptor that joins is new. -/
def NewTo (C : Cluster web) : Event → Prop
  | .join cfd _ _ => C.link cfd = none
  | _ => True

/-- What becomes of the connection that an event comes from: no message about a piece
is left on it, or it is closed. -/
def Turns (o : Option (Link web)) : Event → Prop
  | .disconnect _ => o = none
  | _ => ∃ l, o = some l ∧ l.Quiet

section Events
variable {supply : JobSupply} {config : Config} {C : Cluster web} {w : World}
  {e : Event}

theorem Turns.cases {o : Option (Link web)} (h : Turns o e) {cfd : Int}
    (he : e.cfd = some cfd) :
    (e = .disconnect cfd ∧ o = none) ∨ e ≠ .disconnect cfd ∧ ∃ l, o = some l ∧
      l.Quiet := by
  cases e with
  | disconnect fd =>
      cases he
      exact Or.inl ⟨rfl, h⟩
  | join _ _ _ | result _ _ | error _ => exact Or.inr ⟨Event.noConfusion, h⟩
  | submit _ _ _ _ _ => cases he

theorem Ok.told_jobs (h : C.Ok supply config) :
    ∀ t ∈ C.world.told, C.world.server.Seeks t.job := by
  obtain ⟨b, hb, -⟩ := h.world.board
  obtain ⟨g, hg⟩ := hb.server
  intro t ht
  refine h.world.seeks _ ?_
  rw [hg.jobList_eq]
  exact hb.ok.heard t (hb.told ▸ ht)

theorem Ok.event (h : C.Ok supply config) (hc : config.Strings)
    (hfresh : C.world.FreshId e) (htask : ¬ e.Strange) (hfinds : Finds web C.world e)
    (hstep : C.world.step supply e = .ok w) {link : Int → Option (Link web)}
    (hothers : ∀ cfd, e.cfd ≠ some cfd → link cfd = C.link cfd) (hjoin : C.NewTo e)
    (hown : ∀ cfd, e.cfd = some cfd → Turns (link cfd) e) :
    (Cluster.become ⟨C.world, link⟩ w).Ok supply config := by
  have hnew : ¬ C.world.Rejoins e := by
    cases e with
    | join cfd sa gids =>
        rintro ⟨a, ha⟩
        obtain ⟨l, hl⟩ := h.opened a cfd ha
        cases hl.symm.trans hjoin
    | submit _ _ _ _ _ | result _ _ | error _ | disconnect _ => exact id
  have hlost : ¬ C.world.LosesPiece e := by
    cases e with
    | result cfd value =>
        obtain ⟨j, x, file, hx, -⟩ := hfinds
        exact h.world.keeps hx value
    | join _ _ _ | submit _ _ _ _ _ | error _ | disconnect _ => exact id
  have hw := h.world.step hfresh hnew hlost htask hstep
  obtain ⟨b, hb, -⟩ := h.world.board
  have hconn := hb.reconnects h.world.known hnew hstep
  refine ⟨hw, fun a cfd ha => ?_, fun cfd l' hl' => ?_, fun t ht => ?_,
    h.merges.step hstep⟩
  · have hopen : ∃ l, link cfd = some l := by
      by_cases he : e.cfd = some cfd
      · rcases (hown cfd he).cases he with ⟨hleave, -⟩ | ⟨-, l, hl, -⟩
        · exact absurd ha (hconn.gone a cfd hleave)
        · exact ⟨l, hl⟩
      · rw [hothers cfd he]
        exact h.opened a cfd ((hconn.others a cfd he).mp ha)
    obtain ⟨l, hl⟩ := hopen
    exact ⟨_, Option.map_eq_some_iff.mpr ⟨l, hl, rfl⟩⟩
  · obtain ⟨l, hl, rfl⟩ := Option.map_eq_some_iff.mp hl'
    by_cases he : e.cfd = some cfd
    · rcases (hown cfd he).cases he with ⟨-, hnone⟩ | ⟨hopen, l₀, hl₀, hquiet⟩
      · cases hl.symm.trans hnone
      · cases hl.symm.trans hl₀
        exact hquiet.own h.world hc hw hnew hstep he hopen
    · have hl₀ : C.link cfd = some l := (hothers cfd he).symm.trans hl
      exact (h.links cfd l hl₀).others h.world hc hw hnew hstep he
  · have hkept : ∀ t, C.world.server.Seeks t.job → C.world.Right web t →
        w.Right web t := by
      rintro t hseeks ⟨i, file, hi, hfile, hmax⟩
      refine ⟨i, file, hi, ?_, hmax⟩
      rw [hseeks.pathOf (World.step_keepsJob hstep)]
      exact hfile
    have hold : ∀ t ∈ C.world.told, w.Right web t :=
      fun t ht => hkept t (h.told_jobs t ht) (h.told t ht)
    rcases World.step_told hstep with hsame | ⟨cfd, value, rfl, hheard⟩
    · exact hold t (hsame ▸ ht)
    · obtain ⟨j, x, file, hx, hfile, hmax⟩ := hfinds
      have ht' : t ∈ w.told := ht
      rw [hheard, h.world.heard hx] at ht'
      rcases List.mem_cons.mp ht' with rfl | ht'
      · exact hkept _ (h.world.seeks j hx.1.1) ⟨x.index, file, rfl, hfile, hmax⟩
      · exact hold t ht'

/-- An event that comes from `cfd`, on which no message about a piece is under way,
or which is closed. -/
theorem Ok.turn (h : C.Ok supply config) (hc : config.Strings) {cfd : Int}
    (he : e.cfd = some cfd) (hfinds : Finds web C.world e)
    (hstep : C.world.step supply e = .ok w) {o : Option (Link web)}
    (hjoin : C.NewTo e) (ho : Turns o e) :
    ((C.setLink cfd o).become w).Ok supply config := by
  have hplain : C.world.FreshId e ∧ ¬ e.Strange := by
    cases e with
    | submit _ _ _ _ _ => cases he
    | join _ _ _ | result _ _ | error _ | disconnect _ => exact ⟨trivial, id⟩
  refine h.event hc hplain.1 hplain.2 hfinds hstep (fun fd hfd => ?_) hjoin
    fun fd hfd => ?_
  · refine Function.update_of_ne ?_ _ _
    rintro rfl
    exact hfd he
  · cases he.symm.trans hfd
    rw [Function.update_self]
    exact ho

/-- What is sent first is under way first. -/
theorem become_become {w w' : World} {fs gs : List Sent}
    (hfs : w.server.sent = C.world.server.sent ++ fs)
    (hgs : w'.server.sent = w.server.sent ++ gs) :
    (C.become w).become w' = C.become w' := by
  rw [become, become]
  refine congrArg (Cluster.mk w') (funext fun cfd => ?_)
  show ((C.link cfd).map _).map _ = (C.link cfd).map _
  rw [Option.map_map]
  refine congrArg (fun f => (C.link cfd).map f) (funext fun l => ?_)
  show (l.after C.world w cfd).after w w' cfd = l.after C.world w' cfd
  have hfirst : w.server.sent.drop C.world.server.sent.length = fs := by
    rw [hfs, List.drop_left]
  have hthen : w'.server.sent.drop w.server.sent.length = gs := by
    rw [hgs, List.drop_left]
  have hboth : w'.server.sent.drop C.world.server.sent.length = fs ++ gs := by
    rw [hgs, hfs, List.append_assoc, List.drop_left]
  rw [Link.after, Link.after, Link.after, hfirst, hthen, hboth, framesTo_append,
    List.append_assoc]

/-- Something is sent that is no request. -/
theorem Ok.relay (h : C.Ok supply config) (cfd : Int) {p : Packet} (hp : p.Plain)
    (hno : Client.IsRequest p = false) :
    (C.become { C.world with server := { C.world.server with
      sent := C.world.server.sent ++ [⟨cfd, Packet.segment [p]⟩] } }).Ok supply
        config := by
  obtain ⟨⟨⟨b, ⟨⟨g, hg⟩, hstarted, htold, hok⟩, hconserves⟩, hconfig, hseeks,
      hknown⟩, hopened, hlinks, hright,
    hmerges⟩ := h
  refine ⟨⟨⟨b, ⟨⟨g, hg.of_eq rfl rfl rfl rfl rfl rfl rfl⟩, hstarted, htold, hok⟩,
    hconserves⟩, hconfig, hseeks, hknown⟩, fun a fd ha => ?_, fun fd l' hl' => ?_,
    hright, hmerges.congr fun _ => rfl⟩
  · obtain ⟨l, hl⟩ := hopened a fd ha
    exact ⟨_, Option.map_eq_some_iff.mpr ⟨l, hl, rfl⟩⟩
  obtain ⟨l, hl, rfl⟩ := Option.map_eq_some_iff.mp hl'
  obtain ⟨ps, hrequests, hplain, hflight⟩ := hlinks fd l hl
  rw [Link.after, List.drop_left]
  by_cases hfd : cfd = fd
  · rw [hfd, framesTo_self]
    refine ⟨ps ++ [p], ?_, plain_behind hp hplain, ?_⟩
    · rw [hrequests, Packet.frames_append]
      rfl
    have hsame : (ps ++ [p]).filter Client.IsRequest
        = ps.filter Client.IsRequest := by
      rw [List.filter_append, List.filter_cons_of_neg (by simp [hno]),
        List.filter_nil, List.append_nil]
    show Flight web _ fd _ l.replies
    generalize l.replies = rs at hflight
    cases hflight with
    | idle hnone hps => exact .idle hnone (hsame.trans hps)
    | asked hx hp hps =>
        exact .asked hx ⟨hp.plain, hp.request, hp.path⟩ (hsame.trans hps)
    | replied hx hp hps hf =>
        exact .replied hx ⟨hp.plain, hp.request, hp.path⟩ (hsame.trans hps) hf
  · rw [framesTo_other hfd, List.append_nil]
    refine ⟨ps, hrequests, hplain, ?_⟩
    show Flight web _ fd _ l.replies
    generalize l.replies = rs at hflight
    cases hflight with
    | idle hnone hps => exact .idle hnone hps
    | asked hx hp hps => exact .asked hx ⟨hp.plain, hp.request, hp.path⟩ hps
    | replied hx hp hps hf =>
        exact .replied hx ⟨hp.plain, hp.request, hp.path⟩ hps hf

end Events

/-! ## Every step -/

section Steps
variable {supply : JobSupply} {config : Config} {C C' : Cluster web}

theorem storeNul_lt {α : Type} {n : Nat} {f : Unit → Except Halt α} {a : α}
    (h : storeNul n >>= f = .ok a) : n < 1024 := by
  obtain ⟨u, hu, -⟩ := bind_ok.mp h
  rw [storeNul] at hu
  split at hu
  · unfold oneKb at *
    omega
  · cases hu

theorem flatten_frames (ps : List Packet) :
    (Packet.frames ps).flatten = Packet.stream (ps.map fun p => [p]) := by
  rw [Packet.stream, List.flatMap_def, List.map_map]
  rfl

theorem flatten_alone (ps : List Packet) : (ps.map fun p => [p]).flatten = ps := by
  induction ps with
  | nil => rfl
  | cons p ps ih => rw [List.map_cons, List.flatten_cons, ih, List.singleton_append]

theorem plain_alone {ps : List Packet} (hplain : ∀ p ∈ ps, p.Plain) :
    ∀ qs ∈ ps.map fun p => [p], ∀ q ∈ qs, q.Plain := by
  intro qs hqs q hq
  obtain ⟨p, hp, rfl⟩ := List.mem_map.mp hqs
  rw [List.mem_singleton.mp hq]
  exact hplain p hp

/-- A worker goes on: what is under way changes from the request to the answer. -/
theorem Ok.work (h : C.Ok supply config) (hc : config.Unquoted) {cfd : Int}
    {l : Link web} {pre rest : List Bytes} {room : Bytes} {worker : Client}
    {out : List Bytes} (hlink : C.link cfd = some l)
    (hsplit : l.requests = pre ++ rest) (hne : pre ≠ [])
    (hrun : l.worker.receiveChunk l.host.toMachine pre.flatten room
      = .ok (worker, out)) :
    (C.setLink cfd (some ⟨l.host, worker, rest, l.replies ++ out⟩)).Ok supply
      config := by
  obtain ⟨ps, hrequests, hplain, hflight⟩ := h.links cfd l hlink
  obtain ⟨ps₁, ps₂, rfl, hpre, hrest⟩ :=
    List.map_eq_append_iff.mp (hrequests.symm.trans hsplit)
  have hne₁ : (ps₁.map fun p => [p]) ≠ [] := by
    intro hnil
    rw [List.map_eq_nil_iff.mp hnil] at hpre
    exact hne hpre.symm
  have hplain₁ : ∀ p ∈ ps₁, p.Plain :=
    fun p hp => hplain p (List.mem_append_left _ hp)
  have hflat : pre.flatten = Packet.stream (ps₁.map fun p => [p]) := by
    rw [← flatten_frames, ← hpre]
    rfl
  rw [hflat] at hrun
  rw [Client.receiveChunk_eq hne₁ (plain_alone hplain₁) (storeNul_lt hrun),
    flatten_alone] at hrun
  have hpaths := hflight.unquoted (h.world.config.symm ▸ hc)
  obtain ⟨out', hout, hanswers⟩ := Client.takes_answers l.host.downloads
    (fun p hp => hpaths p (List.mem_append_left _ hp)) hrun
  have hout : out = out' := hout
  rw [← hout] at hanswers
  refine ⟨h.world, fun a fd ha => ?_, fun fd l' hl' => ?_, h.told, h.merges⟩
  · by_cases hfd : fd = cfd
    · rw [hfd]
      exact ⟨_, Function.update_self _ _ _⟩
    · obtain ⟨l', hl'⟩ := h.opened a fd ha
      exact ⟨l', (Function.update_of_ne hfd _ _).trans hl'⟩
  · by_cases hfd : fd = cfd
    · rw [hfd] at hl' ⊢
      cases (Function.update_self _ _ _).symm.trans hl'
      exact ⟨ps₂, hrest.symm, fun p hp => hplain p (List.mem_append_right _ hp),
        hflight.work hanswers⟩
    · exact h.links fd l' ((Function.update_of_ne hfd _ _).symm.trans hl')

theorem takes_error (w : World) (cfd : Int) (storage : Bytes) :
    take supply cfd storage w Client.errorPacket = w.step supply (.error cfd) := rfl

/-- The server takes an answer: the piece is merged, or given to somebody else. -/
theorem Ok.answer (h : C.Ok supply config) (hc : config.Strings) {cfd : Int}
    {l : Link web} {pre rest : List Bytes} {storage room : Bytes} {g : Option Groups}
    {w : World} (hlink : C.link cfd = some l) (hsplit : l.replies = pre ++ rest)
    (hne : pre ≠ [])
    (hrun : receiveChunk supply cfd storage pre.flatten room g C.world = .ok w) :
    ((C.setLink cfd (some { l with replies := rest })).become w).Ok supply
      config := by
  obtain ⟨ps, hrequests, hplain, hflight⟩ := h.links cfd l hlink
  rw [hsplit] at hflight
  generalize hrs : pre ++ rest = rs at hflight
  cases hflight with
  | idle _ _ | asked _ _ _ => exact absurd (List.append_eq_nil_iff.mp hrs).1 hne
  | @replied j x p f hx hp hps hf =>
      obtain ⟨rfl, rfl⟩ : pre = [f] ∧ rest = [] := by
        rcases List.append_eq_singleton_iff.mp hrs with ⟨hnil, -⟩ | hboth
        · exact absurd hnil hne
        · exact hboth
      have hquiet : ({ l with replies := [] } : Link web).Quiet :=
        ⟨rfl, ps, hrequests, hplain, hps⟩
      have hone : ∀ q : Packet, q.Plain → f = Packet.segment [q] →
          take supply cfd storage C.world q = .ok w := by
        rintro q hq rfl
        have hflat : ([Packet.segment [q]] : List Bytes).flatten
            = Packet.stream [[q]] := flatten_frames [q]
        rw [hflat] at hrun
        have hplain₁ : ∀ ps ∈ [[q]], ∀ p ∈ ps, p.Plain :=
          plain_alone fun p hp => List.mem_singleton.mp hp ▸ hq
        rw [receiveChunk_eq (List.cons_ne_nil _ _) hplain₁ (storeNul_lt hrun)]
          at hrun
        obtain ⟨w', htake, hrun⟩ := bind_ok.mp hrun
        cases hrun
        exact htake
      rcases hf with herror | ⟨file, max, hfile, hmax, hsegment⟩
      · have hstep := hone _ plain_error herror
        rw [takes_error] at hstep
        exact h.turn (e := .error cfd) hc rfl trivial hstep trivial ⟨_, rfl, hquiet⟩
      · obtain ⟨w₁, hstep, hrelay⟩ := bind_ok.mp (hone _ (plain_max max) hsegment)
        obtain ⟨s, hsend, hrelay⟩ := bind_ok.mp hrelay
        cases hrelay
        obtain ⟨hlow, hhigh⟩ := mem_asInts_range hmax.1
        have hvalue : atoll (Client.maxPacket max).value = max :=
          atoll_line hlow hhigh
        have hfinds :
            Finds web C.world (.result cfd (Client.maxPacket max).value) := by
          refine ⟨j, x, file, hx, hp.path ▸ hfile, ?_⟩
          rw [hvalue]
          exact hmax
        have hnext := h.turn hc rfl hfinds hstep trivial ⟨_, rfl, hquiet⟩
        have hlen := decimal_length max
        obtain ⟨q, hq, hno, rfl⟩ := relay_frame (plain_max max).nul (by
          show (decimal max ++ [10]).length ≤ 1014
          rw [List.length_append, List.length_singleton]
          omega) hsend
        obtain ⟨b, hb, -⟩ := h.world.board
        obtain ⟨fs, hfs, -⟩ := hb.hears hstep
        have hlast := hnext.relay cfd hq hno
        rw [become_become (C := C.setLink cfd (some { l with replies := [] })) hfs
          rfl] at hlast
        exact hlast

theorem take_ne_nil {α : Type} {xs : List α} {n : Nat} (hpos : 0 < n)
    (hle : n ≤ xs.length) : xs.take n ≠ [] := by
  refine List.ne_nil_of_length_pos ?_
  rw [List.length_take]
  omega

theorem Ok.step (h : C.Ok supply config) (hc : config.Unquoted) {m : Move web}
    (hm : C.Possible m) (hs : C.step supply m = .ok C') : C'.Ok supply config := by
  cases m with
  | join cfd sa gids host worker =>
      obtain ⟨w, hstep, hs⟩ := bind_ok.mp hs
      cases hs
      have hquiet : (⟨host, worker, [], []⟩ : Link web).Quiet :=
        ⟨rfl, [], rfl, fun _ hp => absurd hp List.not_mem_nil, rfl⟩
      exact h.turn (e := .join cfd sa gids) hc.strings rfl trivial hstep hm ⟨_,
        rfl, hquiet⟩
  | submit groupId jobId inputFile system =>
      obtain ⟨w, hstep, hs⟩ := bind_ok.mp hs
      cases hs
      exact h.event (e := .submit groupId jobId _ inputFile system) hc.strings hm
        (fun hno => hno rfl) trivial
        hstep (fun _ _ => rfl) trivial fun _ heq =>
          (Option.some_ne_none _ heq.symm).elim
  | work cfd n room =>
      obtain ⟨l, hl, hpos, hle⟩ := hm
      have hlink : C.link cfd = some l := hl
      rw [Cluster.step, hlink] at hs
      obtain ⟨⟨worker, out⟩, hrun, hs⟩ := bind_ok.mp hs
      cases hs
      exact h.work hc hlink (List.take_append_drop n _).symm
        (take_ne_nil hpos hle) hrun
  | answer cfd n room storage g =>
      obtain ⟨l, hl, hpos, hle⟩ := hm
      have hlink : C.link cfd = some l := hl
      rw [Cluster.step, hlink] at hs
      obtain ⟨w, hrun, hs⟩ := bind_ok.mp hs
      cases hs
      exact h.answer hc.strings hlink (List.take_append_drop n _).symm
        (take_ne_nil hpos hle) hrun
  | leave cfd =>
      rw [Cluster.step] at hs
      split at hs
      · cases hs
        exact h
      · obtain ⟨w, hstep, hs⟩ := bind_ok.mp hs
        cases hs
        exact h.turn (e := .disconnect cfd) hc.strings rfl trivial hstep trivial rfl

end Steps

end Cluster

end Pyramid
