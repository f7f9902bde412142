/-
# `Pyramid.PieceNames` — the names of the pieces

The path of a piece ends in the three digits of its index, which the server
prints with three divisions.  The one for the tens is not reduced: from index
100 on four digits are printed.

Whoever gets a piece later is told its name by the same divisions of the same
index, as long as the job keeps its number and its task, and a server never
changes these.  What a CLI may change is where the repository is; as long as it
does not, the frame is the one that the first holder was sent.  The job that
`initJob` has prepared is as `Server.Launch` says (`initJob_prepared`).
-/
import Pyramid.Fields
import Pyramid.Reserving
import Pyramid.Routing

namespace Pyramid

/-! ## Three digits -/

/-- `"%03d"` -/
def threeDigits (i : Nat) : Bytes :=
  List.replicate (3 - (decimal i).length) 48 ++ decimal i

/-- The digits that `assignJob` and the two functions after it print. -/
def printedDigits (index : Int) : Bytes :=
  decimal (index.tdiv 100) ++ decimal (index.tdiv 10) ++ decimal (index.tmod 10)

theorem decimal_digit {d : Nat} (h : d < 10) :
    decimal d = [UInt8.ofNat (48 + d)] := by
  rw [decimal, if_neg (by omega), Int.natAbs_natCast, digits, if_pos h,
    Nat.mod_eq_of_lt h]
  rfl

theorem decimal_tens {i : Nat} (h₁ : 10 ≤ i) (h₂ : i < 100) :
    decimal i = decimal (i / 10 : Nat) ++ decimal (i % 10 : Nat) := by
  rw [decimal, if_neg (by omega), Int.natAbs_natCast, digits, if_neg (by omega),
    digits, if_pos (by omega), decimal_digit (by omega),
    decimal_digit (Nat.mod_lt _ (by omega))]
  have htens : i / 10 % 10 = i / 10 := Nat.mod_eq_of_lt (by omega)
  rw [htens, List.nil_append]

theorem printedDigits_eq {i : Nat} (h : i < 100) :
    printedDigits i = threeDigits i := by
  have hhundreds : (i : Int).tdiv 100 = (0 : Nat) := by
    rw [Int.tdiv_eq_ediv_of_nonneg (by omega)]
    omega
  have htens : (i : Int).tdiv 10 = (i / 10 : Nat) := by
    rw [Int.tdiv_eq_ediv_of_nonneg (by omega)]
    omega
  have hones : (i : Int).tmod 10 = (i % 10 : Nat) := by
    rw [Int.tmod_eq_emod_of_nonneg (by omega)]
    omega
  rw [printedDigits, hhundreds, htens, hones, threeDigits]
  by_cases hsmall : i < 10
  · rw [Nat.div_eq_of_lt hsmall, Nat.mod_eq_of_lt hsmall, decimal_digit hsmall]
    rfl
  · rw [decimal_tens (by omega) h, decimal_digit (show i / 10 < 10 by omega),
      decimal_digit (show i % 10 < 10 by omega)]
    rfl

theorem threeDigits_length {i : Nat} (h : i < 100) : (threeDigits i).length = 3 := by
  have hlen : (decimal i).length ≤ 3 := by
    by_cases hsmall : i < 10
    · rw [decimal_digit hsmall, List.length_singleton]
      omega
    · rw [decimal_tens (by omega) h, decimal_digit (show i / 10 < 10 by omega),
        decimal_digit (show i % 10 < 10 by omega), List.length_append,
        List.length_singleton, List.length_singleton]
      omega
  rw [threeDigits, List.length_append, List.length_replicate]
  omega

/-- One digit more is printed for the first index of three digits. -/
theorem printedDigits_hundred :
    (printedDigits 100).length = (threeDigits 100).length + 1 := by decide

/-! ## The names -/

/-- The path of the pieces of job `id`, up to their digits. -/
def Config.pieceStem (c : Config) (id : Int) : Bytes :=
  c.centralRepoIp ++ ascii ":" ++ c.jobDirectory ++ ascii "job_" ++ decimal id
    ++ ascii "/prob/input_p"

/-- The path of piece `i` of job `id`, with the three digits of the index. -/
def Config.pieceName (c : Config) (id : Int) (i : Nat) : Bytes :=
  c.pieceStem id ++ threeDigits i

/-- The client of `x` is sent one frame, of type `type`, that names the piece
`x.index`. -/
def Server.NamesPiece (s : Server) (id type : Int) (x : Holder)
    (sent : Sent) : Prop :=
  ∃ v, ∃ f : Frame, s.reg.infos.cell x.client = some v ∧
    sent = ⟨v.cfd, segment [f]⟩ ∧
    (f.attr.code : Int) = type ∧ f.value = s.config.pieceName id x.index.toNat

section Names
variable {c : Config} {id type : Int} {i : Nat}

theorem pieceText_printed (c : Config) (id index : Int) :
    c.pieceText id index = c.pieceStem id ++ printedDigits index := by
  simp only [Config.pieceText, Config.pieceStem, printedDigits, List.append_assoc]

theorem pieceText_eq (h : i < 100) : c.pieceText id i = c.pieceName id i := by
  rw [pieceText_printed, printedDigits_eq h, Config.pieceName]

/-- The names of the first hundred pieces are of one length. -/
theorem pieceText_length (h : i < 100) :
    (c.pieceText id i).length = (c.pieceText id 0).length := by
  have hfirst : c.pieceText id 0 = c.pieceName id 0 :=
    pieceText_eq (i := 0) (by omega)
  rw [pieceText_eq h, hfirst, Config.pieceName, Config.pieceName, List.length_append,
    List.length_append, threeDigits_length h, threeDigits_length (by omega)]

theorem pieceText_hundred :
    (c.pieceText id 100).length = (c.pieceName id 100).length + 1 := by
  rw [pieceText_printed, Config.pieceName, List.length_append, printedDigits_hundred,
    List.length_append]
  rfl

theorem namesPiece_iff {s : Server} {x : Holder} {sent : Sent} (hx : x.index = i)
    (h : i < 100) :
    s.NamesPiece id type x sent ↔ s.PieceFrame id type x sent := by
  rw [Server.NamesPiece, Server.PieceFrame, hx, Int.toNat_natCast, pieceText_eq h]

/-- A frame for the piece 100 does not name it. -/
theorem not_namesPiece {s : Server} {x : Holder} {sent : Sent} (hx : x.index = 100)
    (h : s.PieceFrame id type x sent) : ¬ s.NamesPiece id type x sent := by
  obtain ⟨v, f, -, rfl, -, hf⟩ := h
  rintro ⟨w, g, -, hsent, -, hg⟩
  have hlen := congrArg (fun m => m.frame.length) hsent
  simp only [length_segment, body_cons, body_nil, List.append_nil, Frame.length_wire]
    at hlen
  rw [hf, hg, hx] at hlen
  have hlonger : (s.config.pieceText id 100).length
      = (s.config.pieceName id 100).length + 1 :=
    pieceText_hundred
  have hnat : (100 : Int).toNat = 100 := rfl
  rw [hnat] at hlen
  omega

end Names

/-- What is in relation to the numbered clients is so place by place. -/
theorem forall₂_numbered {R : Holder → Sent → Prop} {i k : Nat} {cs : List Nat}
    {sent : List Sent} {f : Sent} (h : List.Forall₂ R (numbered i cs) sent)
    (hf : sent[k]? = some f) :
    ∃ c, cs[k]? = some c ∧ R ⟨c, (i + k : Nat)⟩ f := by
  induction cs generalizing i k sent with
  | nil =>
      cases h
      cases hf
  | cons c cs ih =>
      rw [numbered_cons] at h
      obtain ⟨g, sent, hg, hrest, rfl⟩ := List.forall₂_cons_left_iff.mp h
      cases k with
      | zero =>
          cases hf
          exact ⟨c, rfl, hg⟩
      | succ k =>
          obtain ⟨d, hd, hr⟩ := ih hrest hf
          refine ⟨d, hd, ?_⟩
          rw [show i + (k + 1) = i + 1 + k by omega]
          exact hr

/-- The frames for the first hundred pieces name them. -/
theorem forall₂_named {s : Server} {id type : Int} {i : Nat} {cs : List Nat}
    {sent : List Sent} (h : List.Forall₂ (s.PieceFrame id type) (numbered i cs) sent)
    (hfew : i + cs.length ≤ 100) :
    List.Forall₂ (s.NamesPiece id type) (numbered i cs) sent := by
  induction cs generalizing i sent with
  | nil =>
      cases h
      exact List.Forall₂.nil
  | cons c cs ih =>
      rw [List.length_cons] at hfew
      rw [numbered_cons] at h ⊢
      obtain ⟨f, sent, hf, hrest, rfl⟩ := List.forall₂_cons_left_iff.mp h
      exact List.Forall₂.cons ((namesPiece_iff rfl (by omega)).mpr hf)
        (ih hrest (by omega))

theorem Attribute.code_inj {a b : Attribute} (h : a.code = b.code) : a = b := by
  have hcode := Attribute.ofCode_code a
  rw [h, Attribute.ofCode_code] at hcode
  exact (Option.some.inj hcode).symm

theorem Frame.eq_of {f g : Frame} (hattr : f.attr = g.attr)
    (hvalue : f.value = g.value) : f = g := by
  cases f
  cases g
  cases hattr
  cases hvalue
  rfl

/-! ## What is sent at the start -/

section Starting
variable {s s' : Server} {id type : Int}

/-- A text of at most 1016 bytes is sent. -/
theorem framesOf_ends {attr : Attribute} {data text : Bytes} (fd : Int)
    (hattr : attr ∈ textual) (htext : cString data = .ok text) (hne : text ≠ [])
    (hle : text.length ≤ 1016) :
    ∃ fs, framesOf fd data attr.code = .ok fs := by
  obtain ⟨hlen, -, -⟩ := cString_text htext
  have hpos := List.length_pos_of_ne_nil hne
  obtain ⟨buf, f, -, -, henc, -⟩ := encodeType_text hattr hpos hle hlen
  have henc' : encodeType attr.code data text.length ⟨0, List.replicate 1024 0⟩
      = .ok (8 + text.length, buf) :=
    henc
  obtain ⟨fuel, hfuel⟩ : ∃ fuel, text.length = fuel + 1 :=
    ⟨text.length - 1, by omega⟩
  have hrun : ∀ t : Server, sendRounds fd data attr.code text.length text.length t
      = .ok { t with
        sent := t.sent ++ [⟨fd, buf.payload.take (8 + text.length)⟩] } := by
    intro t
    rw [hfuel, sendRounds, ← hfuel, if_neg (by omega), henc', ok_bind]
    exact sendRounds_done fd data attr.code fuel (by omega) _
  rw [framesOf, shSendEncodedData, htext, ok_bind, hrun, ok_bind]
  exact ⟨_, rfl⟩

theorem framesOf_sends {fd : Int} {data : Bytes} {fs : List Sent}
    (h : framesOf fd data type = .ok fs) (s : Server) :
    shSendEncodedData s fd data type = .ok { s with sent := s.sent ++ fs } := by
  obtain ⟨s₁, hs₁, h⟩ := bind_ok.mp h
  cases h
  obtain ⟨text, htext, hs₁⟩ := bind_ok.mp hs₁
  obtain ⟨fs, rfl, -, -, hrun⟩ := sendRounds_frames hs₁
  rw [shSendEncodedData, htext, ok_bind, hrun]
  rfl

/-- The loop of `assignJob` ends if all the paths can be sent. -/
theorem assignFrom_ends {fuel i : Nat} {p q : Ptr} (xs cs : List Nat)
    (hfuel : xs.length ≤ fuel)
    (hseg : Seg nodeLinks s.nodes (fun _ => False) q p xs none) (hnd : xs.Nodup)
    (howners : owners s.nodes xs = ownedAs id cs)
    (hclients : ∀ c ∈ cs, ∃ v, s.reg.infos.cell c = some v)
    (hsends : ∀ k fd, k < i + cs.length →
      ∃ fs, framesOf fd (piecePath s.config id k) type = .ok fs) :
    ∃ s', assignFrom id type fuel i p s = .ok s' := by
  induction xs generalizing fuel i p q s cs with
  | nil =>
      cases hseg.eq
      refine ⟨s, ?_⟩
      cases fuel <;> rfl
  | cons a xs ih =>
      obtain ⟨hlead, u, hu, -, hrest⟩ := hseg
      cases hlead.eq
      obtain ⟨hnot, hnd⟩ := List.nodup_cons.mp hnd
      cases fuel with
      | zero => cases hfuel
      | succ fuel =>
          cases cs with
          | nil => cases howners
          | cons c cs =>
              rw [owners, List.map_cons, ownedAs, List.map_cons, hu] at howners
              obtain ⟨howner, hothers⟩ := List.cons.inj howners
              obtain ⟨hclient, -⟩ := Prod.mk.inj (Option.some.inj howner)
              obtain ⟨v, hv⟩ := hclients c List.mem_cons_self
              obtain ⟨fs, hfs⟩ := hsends i v.cfd (by rw [List.length_cons]; omega)
              have howners' :
                  Pyramid.owners (s.nodes.set a (some { u with index := i })) xs
                    = ownedAs id cs := by
                refine (List.map_congr_left fun d hd => ?_).trans hothers
                rw [Heap.cell_set_ne _ (by rintro rfl; exact hnot hd)]
              obtain ⟨s', hs'⟩ := @ih
                { s with nodes := s.nodes.set a (some { u with
                  index := i }), sent := s.sent ++ fs }
                fuel (i + 1) u.next (some a) cs (Nat.le_of_succ_le_succ hfuel)
                  (hrest.set_of_not_mem hnot _) hnd
                howners' (fun d hd => hclients d (List.mem_cons_of_mem _ hd))
                fun k fd hk => hsends k fd (by rw [List.length_cons]; omega)
              refine ⟨s', ?_⟩
              have hload : s.reg.infos.load ({ u with index := (i : Int) } :
                  ClientNode).client = .ok v :=
                (congrArg s.reg.infos.load hclient).trans (Heap.load_some hv)
              rw [assignFrom, Heap.modify_some hu, ok_bind,
                Heap.load_some (Heap.cell_set_self hu _), ok_bind, hload, ok_bind,
                framesOf_sends hfs, ok_bind]
              exact hs'

variable {j m a : Nat} {xs cs : List Nat}

/-- What `assignJob` sends for a launch, and what it leaves alone. -/
theorem Server.Launch.assigned {b : Bool} (h : s.Launch j m xs cs a id type)
    (hr : assignJob s j (some a) = .ok (b, s')) :
    ∃ fss, s' = { s with nodes := s'.nodes, sent := s.sent ++ fss.flatten } ∧
      List.Forall₂ (s.FramesFor id type) (numbered 0 cs) fss := by
  obtain ⟨t, ht, rfl⟩ := h.type
  obtain ⟨fss, hassigned, hframes, -⟩ := h.growing.assign h.owners rfl ht hr
  exact ⟨fss, hassigned.state, hframes⟩

theorem Server.Launch.ends (h : s.Launch j m xs cs a id type)
    (hsends : ∀ (k : Nat) (fd : Int), k < cs.length →
      ∃ fs, framesOf fd (piecePath s.config id k) type = .ok fs) :
    ∃ s', assignJob s j (some a) = .ok (true, s') := by
  obtain ⟨u, hu, hid, hhead, -⟩ := h.growing.job
  obtain ⟨t, ht, htype⟩ := h.type
  obtain ⟨-, v, hv, -, hrest⟩ := h.growing.list
  have hnd := (List.nodup_cons.mp h.growing.nodup).2
  have hfrom : ∀ (k : Nat) (fd : Int), k < 0 + cs.length →
      ∃ fs, framesOf fd (piecePath s.config id k) type = .ok fs :=
    fun k fd hk => hsends k fd (by omega)
  obtain ⟨s', hs'⟩ :=
    assignFrom_ends xs cs (hrest.length_le hnd) hrest hnd h.owners h.clients hfrom
  refine ⟨s', ?_⟩
  rw [assignJob, Heap.load_some hu, ok_bind, hhead, Heap.load_some hv, ok_bind,
    Heap.load_some ht, ok_bind, hid, htype, show v.next = nodeLinks.next v from rfl,
    hs', ok_bind]

/-- A path of at most 1016 bytes can be sent as text. -/
theorem piecePath_sends {c : Config} {attr : Attribute} {index : Int}
    (hc : c.Strings) (hattr : attr ∈ textual)
    (hle : (c.pieceText id index).length ≤ 1016) (fd : Int) :
    ∃ fs, framesOf fd (piecePath c id index) attr.code = .ok fs := by
  refine framesOf_ends fd hattr hc.piecePath (pieceText_sent _ _ _) ?_
  rw [List.length_take]
  exact Nat.le_trans (Nat.min_le_right _ _) hle

/-- The frames sent for a task that is sent as text are one for each piece. -/
theorem Server.Launch.frames {b : Bool} {attr : Attribute} {sent : List Sent}
    (hc : s.config.Strings) (h : s.Launch j m xs cs a id attr.code)
    (hattr : attr ∈ textual) (hr : assignJob s j (some a) = .ok (b, s'))
    (hsent : s'.sent = s.sent ++ sent) :
    List.Forall₂ (s.PieceFrame id attr.code) (numbered 0 cs) sent := by
  obtain ⟨fss, hstate, hframes⟩ := h.assigned hr
  by_cases hne : cs = []
  · rw [hne] at hframes ⊢
    cases hframes
    rw [hstate] at hsent
    rw [List.append_cancel_left hsent.symm]
    exact List.Forall₂.nil
  · have hflat : s'.sent = s.sent ++ fss.flatten := by rw [hstate]
    obtain ⟨sent', hsent', hpieces⟩ :=
      (oneFrameEach_iff hc hne hflat hframes).mpr ⟨attr, hattr, rfl⟩
    rw [List.append_cancel_left (hsent.symm.trans hsent')]
    exact hpieces

end Starting

/-! ## Later -/

/-- The states that the server goes through from `s` on: between two messages, of
workers and of CLIs, or two events, and where `update_job_result` calls
`assign_pending_job`. -/
inductive Later (supply : JobSupply) (s : Server) : Server → Prop
  | now : Later supply s s
  | message {D D' : Desk} {m : Message} : Later supply s D.world.server →
      D.step supply m = .ok D' →
      Later supply s D'.world.server
  | event {w w' : World} {e : Event} : Later supply s w.server →
      w.step supply e = .ok w' →
      Later supply s w'.server
  | dequeued {t t₁ t₂ t₃ : Server} {j : Nat} {jobs : Heap JobNode} {value : Bytes}
      {cn : Ptr} :
      Later supply s t → lockMutex t (some j) = .ok t₁ →
      t₁.jobs.modify (some j) (keepMax (atoll value)) = .ok jobs →
      unlockMutex { t₁ with jobs := jobs } (some j) = .ok t₂ →
      dequeuePendingJob t₂ j = .ok (cn, t₃) →
      Later supply s t₃

/-- A call of `reassign_job` or `assign_pending_job` gives a piece of the job at `j`
to a new holder. -/
inductive Reassigned (supply : JobSupply) (t t' : Server) (j : Nat) : Holder → Prop
  | moved {cfd : Int} {c old w : Nat} {u : ClientNode} :
      Holding t cfd c j old (some w) →
      t.nodes.cell old = some u → reassignJob supply t cfd = .ok t' →
      Reassigned supply t t' j ⟨w, u.index⟩
  | pending {cn c : Nat} {u : ClientNode} : t.nodes.cell cn = some u →
      assignPendingJob t j cn c = .ok (true, t') →
      Reassigned supply t t' j ⟨c, u.index⟩

/-- Between `t` and `t'` the new holder is sent one frame, which names its
piece, and nothing else is sent; with the repository where it was at `s`
it is the frame of `f`. -/
def SentAgain (s t t' : Server) (id type : Int) (d : Holder) (f : Sent) : Prop :=
  ∃ g, t'.sent = t.sent ++ [g] ∧ t'.NamesPiece id type d g ∧
    (t.config = s.config → g.frame = f.frame)

/-- The job at `j` has still its id and its task. -/
structure KeepsTask (j : Nat) (s t : Server) : Prop where
  tasks : ∀ a v, s.tasks.cell a = some v → t.tasks.cell a = some v
  job : ∀ u, s.jobs.cell j = some u →
    ∃ u', t.jobs.cell j = some u' ∧ u'.job.id = u.job.id ∧ u'.job.task = u.job.task

/-- The repository is where it was, too. -/
structure KeepsJob (j : Nat) (s t : Server) : Prop extends KeepsTask j s t where
  config : t.config = s.config

section Keeping
variable {supply : JobSupply} {j : Nat} {s t t' : Server}

theorem KeepsTask.refl (j : Nat) (s : Server) : KeepsTask j s s :=
  ⟨fun _ _ hv => hv, fun u hu => ⟨u, hu, rfl, rfl⟩⟩

theorem KeepsTask.trans (h : KeepsTask j s t) (h' : KeepsTask j t t') :
    KeepsTask j s t' := by
  refine ⟨fun a v hv => h'.tasks a v (h.tasks a v hv), fun u hu => ?_⟩
  obtain ⟨u', hu', hid, htask⟩ := h.job u hu
  obtain ⟨u'', hu'', hid', htask'⟩ := h'.job u' hu'
  exact ⟨u'', hu'', hid'.trans hid, htask'.trans htask⟩

theorem KeepsJob.refl (j : Nat) (s : Server) : KeepsJob j s s :=
  ⟨KeepsTask.refl j s, rfl⟩

theorem KeepsJob.trans (h : KeepsJob j s t) (h' : KeepsJob j t t') :
    KeepsJob j s t' :=
  ⟨h.toKeepsTask.trans h'.toKeepsTask, h'.config.trans h.config⟩

theorem Keeps.keepsJob {P : Nat → Nat → Prop} (h : Keeps P s t) : KeepsJob j s t :=
  ⟨⟨fun _ _ hv => h.tasks ▸ hv, h.jobs j⟩, h.config⟩

/-- What is only sent changes nothing. -/
theorem SentTo.keepsJob {fd : Int} {types : List Int} (h : SentTo fd types s t) :
    KeepsJob j s t := by
  obtain ⟨fs, rfl, -⟩ := h
  exact ⟨⟨fun _ _ hv => hv, fun u hu => ⟨u, hu, rfl, rfl⟩⟩, rfl⟩

theorem reassignJob_keepsJob {cfd : Int} (hr : reassignJob supply s cfd = .ok t) :
    KeepsJob j s t := by
  rcases reassignJob_hands hr with
    rfl | ⟨c, k, gid, -, -, -, ⟨-, hkeeps, -⟩ | ⟨w, i, -, hkeeps, -⟩⟩
  · exact KeepsJob.refl _ _
  · exact hkeeps.keepsJob
  · exact hkeeps.keepsJob

/-- No event changes the number and the task of a job. -/
theorem World.step_keepsJob {w w' : World} {e : Event}
    (hstep : w.step supply e = .ok w') :
    KeepsJob j w.server w'.server := by
  cases e with
  | join cfd sa gids =>
      obtain ⟨⟨p, reg⟩, -, hstep⟩ := bind_ok.mp hstep
      cases hstep
      exact ⟨⟨fun _ _ hv => hv, fun u hu => ⟨u, hu, rfl, rfl⟩⟩, rfl⟩
  | submit groupId jobId taskType inputFile system =>
      obtain ⟨⟨started, s'⟩, hinit, hstep⟩ := bind_ok.mp hstep
      cases hstep
      rcases initJob_hands hinit with
        ⟨-, rfl⟩ | ⟨-, k, tasks, ds, -, -, hkept, -, hkeeps, -⟩
      · exact KeepsJob.refl _ _
      · have hstored : KeepsJob j w.server { w.server with tasks := tasks } :=
          ⟨⟨hkept, fun u hu => ⟨u, hu, rfl, rfl⟩⟩, rfl⟩
        exact hstored.trans hkeeps.keepsJob
  | result cfd value =>
      obtain ⟨⟨p, s'⟩, hresult, hstep⟩ := bind_ok.mp hstep
      cases hstep
      rcases updateJobResult_hands (P := fun _ _ => True) hresult with
        rfl | ⟨c, k, ds, -, hkeeps, -⟩
      · exact KeepsJob.refl _ _
      · exact hkeeps.keepsJob
  | error cfd =>
      obtain ⟨s', hreassign, hstep⟩ := bind_ok.mp hstep
      cases hstep
      exact reassignJob_keepsJob hreassign
  | disconnect cfd =>
      obtain ⟨s', hreassign, hstep⟩ := bind_ok.mp hstep
      obtain ⟨⟨p, reg⟩, -, hstep⟩ := bind_ok.mp hstep
      cases hstep
      have hkept : KeepsJob j w.server s' := reassignJob_keepsJob hreassign
      exact ⟨⟨hkept.tasks, hkept.job⟩, hkept.config⟩

/-- What a command sets is cut out of it. -/
theorem ShCall.config_strings {cfd : Int} {buff : Bytes} {c : ShCall}
    {config : Config} (hparse : shParseCmd cfd buff = .ok c) (hnul : 0 ∉ buff)
    (hc : config.Strings) :
    (c.config config).Strings := by
  cases c with
  | setRepository repository path user pwd =>
      obtain ⟨buf, hcopy, hread⟩ := bind_ok.mp hparse
      obtain ⟨⟨opcode, rest⟩, hopcode, hcall⟩ := bind_ok.mp hread
      rw [(strcpy_ok.mp hcopy).2] at hopcode
      have hrest := (strtok_isInfix (token_ok.mp hopcode)).2.isInfix
      have hcut : ∀ t ∈ tokens 124 rest, 0 ∉ t := fun t ht hmem =>
        hnul (((tokens_isInfix rfl t ht).trans hrest).subset hmem)
      have hreads := reads_of_shDispatch hcall
      generalize CliType.ofCode (atoi opcode) = type at hreads
      generalize hfields : tokens 124 rest = fields at hreads
      cases hreads with
      | repository =>
          rw [hfields] at hcut
          refine ⟨fun hmem => hcut _ List.mem_cons_self (List.mem_of_mem_take hmem),
            fun hmem => hcut _ (List.mem_cons_of_mem _ List.mem_cons_self) ?_⟩
          exact List.mem_of_mem_take hmem
  | displayAllMulticastGroups | displayAllClients | displayJobDetails _
  | displayJobResults _ | setJobTimeout _ | setJobQueueSize _ | submitJob _
  | setLoggingLevel | invalidOpcode =>
      exact hc

/-- No message changes the number and the task of a job. -/
theorem Desk.step_keepsTask {D D' : Desk} {m : Message}
    (hstep : D.step supply m = .ok D') :
    KeepsTask j D.world.server D'.world.server ∧
      (D.world.server.config.Strings → D'.world.server.config.Strings) := by
  have hkept : ∀ {s t : Server}, KeepsJob j s t →
      KeepsTask j s t ∧ (s.config.Strings → t.config.Strings) :=
    fun h => ⟨h.toKeepsTask, h.config ▸ id⟩
  cases m with
  | joinGroup cfd sa gids =>
      obtain ⟨w, hjoin, hstep⟩ := bind_ok.mp hstep
      cases hstep
      exact hkept (World.step_keepsJob hjoin)
  | cliData cfd value storage =>
      obtain ⟨buff, hbuff, hstep⟩ := bind_ok.mp hstep
      obtain ⟨⟨work, s⟩, hcmd, hstep⟩ := bind_ok.mp hstep
      cases hstep
      obtain ⟨c, hparse, hshown⟩ := SentTo.command hcmd
      have hsent : KeepsJob j _ s := hshown.keepsJob
      refine ⟨⟨hsent.tasks, hsent.job⟩, fun hc => ?_⟩
      have hstrings := ShCall.config_strings hparse (cString_eq_ok_iff.mp hbuff).1 hc
      exact hsent.config ▸ hstrings
  | algoMax cfd value storage =>
      obtain ⟨w, hresult, hstep⟩ := bind_ok.mp hstep
      obtain ⟨s, hshow, hstep⟩ := bind_ok.mp hstep
      cases hstep
      obtain ⟨text, -, htext⟩ := bind_ok.mp hshow
      have hshown : SentTo cfd [cliData] w.server s :=
        SentTo.text List.mem_cons_self htext
      exact hkept ((World.step_keepsJob hresult).trans hshown.keepsJob)
  | algoError cfd =>
      obtain ⟨w, herror, hstep⟩ := bind_ok.mp hstep
      cases hstep
      exact hkept (World.step_keepsJob herror)
  | other cfd =>
      cases hstep
      exact hkept (KeepsJob.refl _ _)
  | closed cfd =>
      obtain ⟨w, hleave, hstep⟩ := bind_ok.mp hstep
      cases hstep
      exact hkept (World.step_keepsJob hleave)
  | submitJob job system storage failure =>
      cases hwaiting : D.waiting with
      | nil =>
          simp only [step, hwaiting] at hstep
          cases hstep
          exact hkept (KeepsJob.refl _ _)
      | cons fd waiting =>
          simp only [step, hwaiting] at hstep
          obtain ⟨w, hsubmit, hstep⟩ := bind_ok.mp hstep
          cases hstep
          obtain ⟨s, w₁, t, hannounce, hw₁, -, hafter, -⟩ := submitJob_cases hsubmit
          have hbefore : SentTo job.cfd [job.task] D.world.server s :=
            SentTo.text List.mem_cons_self hannounce
          exact hkept ((hbefore.keepsJob.trans (World.step_keepsJob hw₁)).trans
            hafter.keepsJob)

theorem Later.keepsTask (h : Later supply s t) :
    KeepsTask j s t ∧ (s.config.Strings → t.config.Strings) := by
  induction h with
  | now => exact ⟨KeepsTask.refl _ _, id⟩
  | message _ hstep ih =>
      obtain ⟨hkeeps, hstrings⟩ := Desk.step_keepsTask hstep
      exact ⟨ih.1.trans hkeeps, hstrings ∘ ih.2⟩
  | event _ hstep ih =>
      have hkeeps : KeepsJob j _ _ := World.step_keepsJob hstep
      exact ⟨ih.1.trans hkeeps.toKeepsTask, fun hc => hkeeps.config ▸ ih.2 hc⟩
  | dequeued _ hlock hjobs hunlock hdequeue ih =>
      have hmax := Keeps.setJob (P := fun _ _ => True) hjobs fun v => by
        rw [keepMax_eq]
        exact ⟨rfl, rfl⟩
      have hkeeps : KeepsJob j _ _ := ((((lockMutex_keeps hlock).1.trans hmax).trans
        (unlockMutex_keeps hunlock).1).trans
          (dequeuePendingJob_keeps hdequeue).1).keepsJob
      exact ⟨ih.1.trans hkeeps.toKeepsTask, fun hc => hkeeps.config ▸ ih.2 hc⟩

/-- What a reassignment sends is the frames of the piece, to its new holder. -/
theorem Reassigned.hands {d : Holder} (h : Reassigned supply t t' j d) :
    KeepsJob j t t' ∧ Hands t t' j [d] := by
  cases h with
  | @moved cfd c old w u hold hu hr =>
      rcases reassignJob_cases hr with ⟨-, hno⟩ | ⟨c', j', old', idle, hold', hcases⟩
      · obtain ⟨ci, hci, hnone⟩ := hno c hold.found
        obtain ⟨ci', -, -, hcell, hjn, -⟩ := hold.walk
        cases hci.symm.trans hcell
        cases (hnone j hjn).symm.trans hold.node
      cases hold.assigned.symm.trans hold'.assigned
      cases hold.node.symm.trans hold'.node
      cases hold.asked.symm.trans hold'.asked
      rcases hcases with ⟨hnone, -⟩ | ⟨w', hw, hmove⟩
      · cases hnone
      · cases hw
        obtain ⟨hkeeps, -, hhands⟩ :=
          movePiece_hands (P := fun _ _ => True) hu trivial hmove
        exact ⟨hkeeps.keepsJob, hhands⟩
  | @pending cn c u hu hr =>
      obtain ⟨hkeeps, ⟨hno, -⟩ | ⟨v, hv, hhands⟩⟩ :=
        assignPendingJob_hands (P := fun _ _ => True) hr
      · cases hno
      · cases hu.symm.trans hv
        exact ⟨hkeeps.keepsJob, hhands⟩

end Keeping

section Sending
variable {supply : JobSupply} {s s' t t' : Server} {j m a : Nat} {xs cs : List Nat}
  {id type : Int}

theorem Server.Launch.keepsJob {b : Bool} (h : s.Launch j m xs cs a id type)
    (hr : assignJob s j (some a) = .ok (b, s')) : KeepsJob j s s' := by
  obtain ⟨fss, hstate, -⟩ := h.assigned hr
  rw [hstate]
  exact ⟨⟨fun _ _ hv => hv, fun u hu => ⟨u, hu, rfl, rfl⟩⟩, rfl⟩

/-- While the job keeps its id and its task, a piece is told as at the start. -/
theorem Server.Launch.pieceFrames (h : s.Launch j m xs cs a id type)
    (hkeeps : KeepsTask j s t) {c : Nat} {i : Int} {fs : List Sent}
    (hfs : t.pieceFrames j c i = .ok fs) :
    ∃ v, t.reg.infos.cell c = some v ∧
      framesOf v.cfd (piecePath t.config id i) type = .ok fs := by
  obtain ⟨ci, hci, hfs⟩ := bind_ok.mp hfs
  obtain ⟨jn, hjn, hfs⟩ := bind_ok.mp hfs
  obtain ⟨task, htask, hfs⟩ := bind_ok.mp hfs
  obtain ⟨d, hd, hcell⟩ := Heap.load_ok.mp hci
  cases hd
  obtain ⟨k, hk, hjob⟩ := Heap.load_ok.mp hjn
  cases hk
  obtain ⟨u, hu, hid, -⟩ := h.growing.job
  obtain ⟨u', hu', hua⟩ := h.task
  cases hu.symm.trans hu'
  obtain ⟨w, hw, hwid, hwtask⟩ := hkeeps.job u hu
  cases hjob.symm.trans hw
  obtain ⟨v, hv, rfl⟩ := h.type
  rw [hwtask, hua, Heap.load_some (hkeeps.tasks a v hv)] at htask
  cases htask
  rw [hwid, hid] at hfs
  exact ⟨ci, hcell, hfs⟩

/-- Whoever gets the piece later is told its name, as its first holder was. -/
theorem Server.Launch.sentAgain {b : Bool} {attr : Attribute} {c k : Nat}
    {d : Holder} {f : Sent} (hc : s.config.Strings)
    (h : s.Launch j m xs cs a id attr.code) (hattr : attr ∈ textual)
    (hr : assignJob s j (some a) = .ok (b, s')) (hlater : Later supply s' t)
    (hagain : Reassigned supply t t' j d) (hk : d.index = k) (hsmall : k < 100)
    (hf : s.PieceFrame id attr.code ⟨c, d.index⟩ f) :
    SentAgain s t t' id attr.code d f := by
  obtain ⟨hkeeps, fss, hfss, hsent⟩ := hagain.hands
  obtain ⟨fs, rest, hfs, hrest, rfl⟩ := List.forall₂_cons_left_iff.mp hfss
  cases hrest
  have hlaunched := h.keepsJob hr
  obtain ⟨htask, hstrings⟩ := hlater.keepsTask (j := j)
  have ht : t.config.Strings := hstrings (hlaunched.config.symm ▸ hc)
  have ht' : t'.config.Strings := hkeeps.config.symm ▸ ht
  obtain ⟨v, hv, hfs⟩ :=
    h.pieceFrames ((hlaunched.toKeepsTask.trans htask).trans hkeeps.toKeepsTask) hfs
  obtain ⟨hle, g, hg, hvalue, rfl⟩ :=
    framesOf_text hattr ht'.piecePath (pieceText_sent _ _ _) hfs
  rw [List.length_take] at hle
  rw [List.take_of_length_le (by omega)] at hvalue
  have hpiece : t'.PieceFrame id attr.code d ⟨v.cfd, segment [g]⟩ :=
    ⟨v, g, hv, rfl, by rw [hg], hvalue⟩
  refine ⟨_, ?_, (namesPiece_iff hk hsmall).mpr hpiece, fun hsame => ?_⟩
  · rw [hsent, List.flatten_cons, List.flatten_nil, List.append_nil]
  · obtain ⟨w, fr, -, rfl, hcode, hfr⟩ := hf
    have hconfig : t'.config = s.config := hkeeps.config.trans hsame
    have heq : g = fr :=
      Frame.eq_of (by rw [hg, Attribute.code_inj (Int.ofNat_inj.mp hcode)])
      (hvalue.trans (hconfig ▸ hfr.symm))
    rw [heq]

end Sending

/-! ## The names and the indexes -/

/-- `assignJob` sends the clients the names of the pieces from 0 on, in the order of
the list; and whoever gets one of the pieces later is sent the name of this piece. -/
def Server.NamesPieces (s : Server) (j a : Nat) (cs : List Nat)
    (id type : Int) : Prop :=
  ∃ s' sent, assignJob s j (some a) = .ok (true, s') ∧ s'.sent = s.sent ++ sent ∧
    List.Forall₂ (s.NamesPiece id type) (numbered 0 cs) sent ∧
    ∀ (supply : JobSupply) (t t' : Server) (d : Holder) (k : Nat) (f : Sent),
    Later supply s' t →
      Reassigned supply t t' j d → d.index = k → sent[k]? = some f →
      SentAgain s t t' id type d f

section Pieces
variable {s : Server} {j m a : Nat} {xs cs : List Nat} {id type : Int}

/-- The frames name the pieces only as long as two digits are enough. -/
theorem Server.NamesPieces.few (hc : s.config.Strings)
    (h : s.Launch j m xs cs a id type) (hnames : s.NamesPieces j a cs id type)
    (hne : cs ≠ []) :
    cs.length ≤ 100 ∧ (∃ attr ∈ textual, (attr.code : Int) = type) ∧
      (s.config.pieceText id 0).length ≤ 1016 := by
  obtain ⟨s', sent, hr, hsent, hnamed, -⟩ := hnames
  obtain ⟨c, cs, rfl⟩ := List.exists_cons_of_ne_nil hne
  obtain ⟨attr, hattr, rfl⟩ : ∃ attr ∈ textual, (attr.code : Int) = type := by
    obtain ⟨fss, hstate, hframes⟩ := h.assigned hr
    rw [hstate] at hsent
    rw [numbered_cons] at hframes hnamed
    obtain ⟨fs, fss, hfs, -, rfl⟩ := List.forall₂_cons_left_iff.mp hframes
    obtain ⟨f, rest, hf, -, rfl⟩ := List.forall₂_cons_left_iff.mp hnamed
    exact first_textual hc ((namesPiece_iff rfl (by omega)).mp hf) hfs
      (List.append_cancel_left hsent)
  have hpieces := h.frames hc hattr hr hsent
  refine ⟨?_, ⟨attr, hattr, rfl⟩, ?_⟩
  · by_contra hmany
    have hlong : 100 < sent.length := by
      have hlen := hnamed.length_eq
      rw [numbered, List.length_map, List.length_zipIdx] at hlen
      omega
    have hf : sent[100]? = some sent[100] := List.getElem?_eq_getElem hlong
    obtain ⟨d, hd, hname⟩ := forall₂_numbered hnamed hf
    obtain ⟨e, he, hpiece⟩ := forall₂_numbered hpieces hf
    cases hd.symm.trans he
    exact not_namesPiece rfl hpiece hname
  · obtain ⟨fss, -, hframes⟩ := h.assigned hr
    rw [numbered_cons] at hframes
    obtain ⟨fs, fss, ⟨v, -, hfs⟩, -, rfl⟩ := List.forall₂_cons_left_iff.mp hframes
    have hle : ((s.config.pieceText id 0).take 2047).length ≤ 1016 :=
      (framesOf_text hattr hc.piecePath (pieceText_sent _ _ _) hfs).1
    rw [List.length_take] at hle
    omega

/-- For all numbers of clients, `assignJob` and the reassignments name the pieces by
their indexes if and only if there are at most a hundred, the type is sent as text
and the path fits. -/
theorem names_pieces_iff (hc : s.config.Strings) (h : s.Launch j m xs cs a id type) :
    s.NamesPieces j a cs id type ↔ cs = [] ∨ cs.length ≤ 100 ∧
      (∃ attr ∈ textual, (attr.code : Int) = type) ∧
      (s.config.pieceText id 0).length ≤ 1016 := by
  constructor
  · intro hnames
    by_cases hne : cs = []
    · exact Or.inl hne
    · exact Or.inr (hnames.few hc h hne)
  rintro (rfl | ⟨hfew, ⟨attr, hattr, rfl⟩, hle⟩)
  · obtain ⟨s', hr⟩ := h.ends fun k fd hk => absurd hk (Nat.not_lt_zero k)
    obtain ⟨fss, hstate, hframes⟩ := h.assigned hr
    cases hframes
    refine ⟨s', [], hr, ?_, List.Forall₂.nil, fun supply t t' d k f _ _ _ hf => ?_⟩
    · rw [hstate]
      rfl
    · cases hf
  · have hsmall : ∀ {k : Nat}, k < cs.length → k < 100 :=
      fun hk => Nat.lt_of_lt_of_le hk hfew
    obtain ⟨s', hr⟩ := h.ends fun k fd hk =>
      piecePath_sends hc hattr (by rw [pieceText_length (hsmall hk)]; exact hle) fd
    obtain ⟨fss, hstate, -⟩ := h.assigned hr
    have hsent : s'.sent = s.sent ++ fss.flatten := by rw [hstate]
    have hpieces := h.frames hc hattr hr hsent
    refine ⟨s', fss.flatten, hr, hsent, ?_,
      fun supply t t' d k f hlater hagain hk hf => ?_⟩
    · exact forall₂_named hpieces (by omega)
    · obtain ⟨c, hclient, hpiece⟩ := forall₂_numbered hpieces hf
      rw [Nat.zero_add, ← hk] at hpiece
      have hlt := hsmall (List.getElem?_eq_some_iff.mp hclient).1
      exact h.sentAgain hc hattr hr hlater hagain hk hlt hpiece

end Pieces

/-! ## A large group -/

/-- The records `f 0`, `f 1`, … in `n` places. -/
def Heap.upTo {α : Type} (n : Nat) (f : Nat → α) : Heap α where
  next := n
  cell a := if a < n then some (f a) else none
  fresh _ ha := if_neg (Nat.not_lt.mpr ha)

theorem Heap.cell_upTo {α : Type} {n a : Nat} (f : Nat → α) (h : a < n) :
    (Heap.upTo n f).cell a = some (f a) :=
  if_pos h

/-- The node for the client `a - 1` among `n`; the first node is for nobody. -/
def crowdNode (n a : Nat) : ClientNode :=
  ⟨if a = 0 then some 0xdeadbeef else some (a - 1), if a = 0 then none
    else some (a - 1), if a = n then none else some (a + 1), 0, 8⟩

/-- Job 8, a search for the largest number, when `n` clients were added to it. -/
def Server.crowd (n : Nat) : Server :=
  { Server.boot Registry.zeroed ⟨ascii "10.0.0.1", ascii "/home/", [], []⟩ with
    reg := { Registry.zeroed with
      infos := Heap.upTo n fun c => ⟨none, none, none, 1, c + 5, 0, 0,
        true, some 0⟩ }
    nodes := Heap.upTo (n + 1) (crowdNode n)
    tasks := Heap.upTo 1 fun _ => ⟨ascii "in", 102⟩
    jobs := Heap.upTo 1 fun _ => ⟨false, ⟨8, 0, some 0, some 0, some n⟩, n,
      none, none⟩ }

theorem crowd_seg (n : Nat) : ∀ k i, i + k = n →
    Seg nodeLinks (Server.crowd n).nodes (fun _ => False) (some i) (if i = n
      then none else some (i + 1))
      (List.range' (i + 1) k) none := by
  intro k
  induction k with
  | zero =>
      intro i hi
      rw [if_pos (Nat.add_zero i ▸ hi)]
      exact Leads.refl _ _
  | succ k ih =>
      intro i hi
      rw [if_neg (by omega), List.range'_succ]
      exact ⟨Leads.refl _ _, _, Heap.cell_upTo _ (by omega), rfl,
        ih (i + 1) (by omega)⟩

theorem lastOf_range' (k i : Nat) :
    lastOf (some i) (List.range' (i + 1) k) = some (i + k) := by
  induction k generalizing i with
  | zero => rfl
  | succ k ih =>
      rw [List.range'_succ, lastOf, ih]
      exact congrArg some (by omega)

/-- The clients of the job are 0, 1, … in this order. -/
theorem crowd_launch (n : Nat) :
    (Server.crowd n).Launch 0 0 (List.range' 1 n) (List.range n) 0 8 102 where
  growing := by
    refine ⟨⟨_, Heap.cell_upTo _ Nat.zero_lt_one, rfl, rfl, ?_, ?_⟩, ?_, ?_⟩
    · have hlast := lastOf_range' n 0
      rw [Nat.zero_add, Nat.zero_add] at hlast
      exact hlast.symm
    · rw [List.length_range']
    · exact ⟨Leads.refl _ _, _, Heap.cell_upTo _ (Nat.succ_pos n), rfl,
        crowd_seg n n 0 (Nat.zero_add n)⟩
    · refine List.nodup_cons.mpr ⟨fun hmem => ?_, List.nodup_range'⟩
      have hpos := (List.mem_range'_1.mp hmem).1
      omega
  owners := by
    rw [owners, ownedAs, List.range'_eq_map_range, List.map_map]
    refine List.map_congr_left fun c hc => ?_
    have hlt := List.mem_range.mp hc
    have hcell : (Server.crowd n).nodes.cell (1 + c) = some (crowdNode n (1 + c)) :=
      Heap.cell_upTo _ (by omega)
    rw [Function.comp, hcell, Option.map_some, ClientNode.owner, crowdNode,
      if_neg (by omega), Nat.add_sub_cancel_left]
  clients c hc := ⟨_, Heap.cell_upTo _ (List.mem_range.mp hc)⟩
  task := ⟨_, Heap.cell_upTo _ Nat.zero_lt_one, rfl⟩
  type := ⟨_, Heap.cell_upTo _ Nat.zero_lt_one, rfl⟩

theorem crowd_strings (n : Nat) : (Server.crowd n).config.Strings :=
  ⟨show 0 ∉ ascii "10.0.0.1" by decide, show 0 ∉ ascii "/home/" by decide⟩

/-- Two clients are told the pieces p000 and p001. -/
theorem names_pieces_sample : (Server.crowd 2).Launch 0 0 [1, 2] [0, 1] 0 8 102 ∧
    (Server.crowd 2).NamesPieces 0 0 [0, 1] 8 102 ∧
    (Server.crowd 2).config.pieceName 8 1
      = ascii "10.0.0.1:/home/job_8/prob/input_p001" := by
  have hlaunch : (Server.crowd 2).Launch 0 0 [1, 2] [0, 1] 0 8 102 := crowd_launch 2
  exact ⟨hlaunch, (names_pieces_iff (crowd_strings 2) hlaunch).mpr
    (Or.inr ⟨by decide, ⟨.algoMax, by decide, rfl⟩, by decide⟩), by decide⟩

/-- Of 101 clients the last is told the piece p1100, which is none. -/
theorem piece_hundred_misnamed :
    (Server.crowd 101).Launch 0 0 (List.range' 1 101) (List.range 101) 0 8 102 ∧
    ¬ (Server.crowd 101).NamesPieces 0 0 (List.range 101) 8 102 ∧
    ∃ s' v, ∃ f : Frame, assignJob (Server.crowd 101) 0 (some 0) = .ok (true, s') ∧
      s'.sent[100]? = some ⟨v, segment [f]⟩ ∧
      f.value = ascii "10.0.0.1:/home/job_8/prob/input_p1100" := by
  have hlaunch := crowd_launch 101
  have hc := crowd_strings 101
  refine ⟨hlaunch, fun hnames => ?_, ?_⟩
  · have hmany := (hnames.few hc hlaunch (by simp)).1
    rw [List.length_range] at hmany
    omega
  have hstem : ((Server.crowd 101).config.pieceStem 8).length ≤ 40 := by decide
  have hattr : Attribute.algoMax ∈ textual := by decide
  obtain ⟨s', hr⟩ := hlaunch.ends fun k fd _ => by
    refine piecePath_sends hc hattr ?_ fd
    have hhundreds := decimal_length ((k : Int).tdiv 100)
    have htens := decimal_length ((k : Int).tdiv 10)
    have hones := decimal_length ((k : Int).tmod 10)
    rw [pieceText_printed, printedDigits]
    simp only [List.length_append]
    omega
  obtain ⟨fss, hstate, -⟩ := hlaunch.assigned hr
  have hsent : s'.sent = (Server.crowd 101).sent ++ fss.flatten := by rw [hstate]
  have hpieces := hlaunch.frames hc hattr hr hsent
  have hlen := hpieces.length_eq
  rw [numbered, List.length_map, List.length_zipIdx, List.length_range] at hlen
  have hf : fss.flatten[100]? = some fss.flatten[100] :=
    List.getElem?_eq_getElem (by omega)
  obtain ⟨c, -, v, f, -, hframe, -, hvalue⟩ := forall₂_numbered hpieces hf
  refine ⟨s', v.cfd, f, hr, ?_, ?_⟩
  · rw [hsent, ← hframe]
    exact hf
  · have htext : (Server.crowd 101).config.pieceText 8 100
        = ascii "10.0.0.1:/home/job_8/prob/input_p1100" := by
      decide
    exact hvalue.trans htext

end Pyramid
