/-
# `Pyramid.Reserving` — who a successful `initJob` reserves

The loop of `initJob` takes every member it meets that is not busy, and makes
it busy: so the clients it takes are the idle ones among the members, each once
and in the order of their first nodes (`reserveClients_exact`), whatever the
memory of the new nodes held.  The loop of `assignJob` then gives them the
indexes from 0 on (`assignFrom_exact`).

What is sent depends on the type of the task, which nobody checks: only for the
types that are sent as text is it one frame with the path of the piece.
-/
import Pyramid.Sending
import Pyramid.Startup
import Pyramid.Simulation

namespace Pyramid

/-- Nobody has given the client anything to do. -/
def Registry.isIdle (reg : Registry) (c : Nat) : Bool :=
  (reg.infos.cell c).map (·.busy) == some false

/-- The idle clients of a list, each where it comes first. -/
def Registry.idleAmong (reg : Registry) (ws : List Nat) : List Nat :=
  (ws.filter reg.isIdle).eraseDups

/-- The distinct clients of the group that are idle, in the order of its list. -/
def Server.idleClients (s : Server) (gid : Nat) : List Nat :=
  s.reg.idleAmong (s.reg.clientsIn gid)

/-- The client and the job's id that a node says. -/
def ClientNode.owner (v : ClientNode) : Ptr × Int := (v.client, v.jid)

def owners (h : Heap ClientNode) (xs : List Nat) : List (Option (Ptr × Int)) :=
  xs.map fun a => (h.cell a).map ClientNode.owner

def ownedAs (id : Int) (cs : List Nat) : List (Option (Ptr × Int)) :=
  cs.map fun c => some (some c, id)

/-- The job at `j` while clients are added to it; the last of its
nodes points to `stop`. -/
structure Growing (s : Server) (j m : Nat) (xs : List Nat) (stop : Ptr)
    (id : Int) : Prop where
  job : ∃ v, s.jobs.cell j = some v ∧ v.job.id = id ∧ v.job.head = some m ∧
    v.job.tail = lastOf (some m) xs ∧ v.numClients = xs.length
  list : Seg nodeLinks s.nodes (fun _ => False) none (some m) (m :: xs) stop
  nodup : (m :: xs).Nodup

/-- The clients `cs` were reserved for the job at `j`, whose nodes were `zs`. -/
structure Reserves (s s' : Server) (j : Nat) (zs cs : List Nat) : Prop where
  state : s'
    = { s with
      reg := { s.reg with infos := s'.reg.infos }, nodes :=
    s'.nodes, jobs := s'.jobs }
  infos : ∀ c, s'.reg.infos.cell c = (s.reg.infos.cell c).map fun v =>
    if c ∈ cs then { v with busy := true, jn := some j } else v
  jobs : ∀ k, k ≠ j → s'.jobs.cell k = s.jobs.cell k
  grown : s.nodes.next ≤ s'.nodes.next
  owners : ∀ a, a < s.nodes.next →
    (s'.nodes.cell a).map ClientNode.owner = (s.nodes.cell a).map ClientNode.owner
  nodes : ∀ a, a < s.nodes.next → a ∉ zs → s'.nodes.cell a = s.nodes.cell a

section Reserving
variable {supply : JobSupply} {s s₁ s' : Server} {j m : Nat} {xs zs cs : List Nat}
  {stop : Ptr} {id : Int}

theorem Reserves.refl (s : Server) (j : Nat) (zs : List Nat) :
    Reserves s s j zs [] where
  state := rfl
  infos c := by simp
  jobs _ _ := rfl
  grown := Nat.le_refl _
  owners _ _ := rfl
  nodes _ _ _ := rfl

theorem Reserves.trans {c a : Nat} (h : Reserves s s₁ j zs [c])
    (ha : s.nodes.next ≤ a) (h' : Reserves s₁ s' j (zs ++ [a]) cs) :
    Reserves s s' j zs (c :: cs) where
  state := by
    rw [h'.state, h.state]
  infos d := by
    rw [h'.infos, h.infos, Option.map_map]
    refine congrArg (fun f => (s.reg.infos.cell d).map f) (funext fun v => ?_)
    by_cases hdc : d = c <;> by_cases hds : d ∈ cs <;> simp [hdc, hds]
  jobs k hk := (h'.jobs k hk).trans (h.jobs k hk)
  grown := Nat.le_trans h.grown h'.grown
  owners d hd := (h'.owners d (Nat.lt_of_lt_of_le hd h.grown)).trans (h.owners d hd)
  nodes d hd hnot := by
    refine (h'.nodes d (Nat.lt_of_lt_of_le hd h.grown) fun hmem => ?_).trans
      (h.nodes d hd hnot)
    rcases List.mem_append.mp hmem with hmem | hmem
    · exact hnot hmem
    · rw [List.mem_singleton.mp hmem] at hd
      exact Nat.not_lt.mpr ha hd

/-- `addClientToJob` puts a node behind the others, and touches no other one. -/
theorem Growing.addClient {c : Nat} {node : Ptr} (h : Growing s j m xs stop id)
    (hadd : addClientToJob supply s j (some c) = .ok (node, s₁)) :
    Growing s₁ j m (xs ++ [s.nodes.next]) none id ∧ s₁.reg = s.reg ∧
      Reserves s s₁ j (m :: xs) [] ∧
      (s₁.nodes.cell s.nodes.next).map ClientNode.owner = some (some c, id) ∧
      s.nodes.next < s₁.nodes.next := by
  obtain ⟨v, t, vt, u, -, hadded⟩ := addClientToJob_ok hadd
  obtain ⟨w, hw, hid, hhead, htail, hcount⟩ := h.job
  cases hadded.job.symm.trans hw
  have hlast : lastOf (some m) xs = some t := htail.symm.trans hadded.tail
  have hu : u.client = some c ∧ u.prev = some t ∧ u.next = none ∧
      u.jid = v.job.id := by
    rw [hadded.made]
    exact ⟨rfl, rfl, rfl, rfl⟩
  have hbefore := hadded.before
  have hfresh : ∀ a ∈ m :: xs, a < s.nodes.next := fun a ha => by
    obtain ⟨w, hw⟩ := h.list.cell_of_mem ha
    exact s.nodes.lt_next hw
  have hnot : s.nodes.next ∉ m :: xs := fun hmem => Nat.lt_irrefl _ (hfresh _ hmem)
  have htmem : t ∈ m :: xs := by
    rcases List.eq_nil_or_concat' xs with rfl | ⟨ys, b, rfl⟩
    · cases hlast
      exact List.mem_cons_self
    · rw [lastOf_append_singleton] at hlast
      cases hlast
      simp
  have hold : ∀ a, a < s.nodes.next → a ≠ t → s₁.nodes.cell a = s.nodes.cell a :=
    fun a ha hat =>
    hadded.old (Nat.ne_of_lt ha) hat
  rw [hadded.state] at hold ⊢
  have hgrown : Seg nodeLinks (s.nodes.grow (some u)) (fun _ => False) none (some m)
      (m :: xs) stop :=
    h.list.congr (fun a ha => Heap.cell_grow_ne _ (Nat.ne_of_lt (hfresh a ha)) _)
      fun _ hF => hF
  have hlink : ∀ a,
      (((s.nodes.grow (some u)).set t
        (some { vt with next := some s.nodes.next })).cell a).map
      ClientNode.owner = ((s.nodes.grow (some u)).cell a).map ClientNode.owner :=
    Heap.map_cell_set ClientNode.owner hbefore rfl
  refine ⟨⟨⟨_, Heap.cell_set_self hw _, hid, hhead, ?_, ?_⟩, ?_, ?_⟩, rfl,
    ⟨rfl, fun d => ?_, fun k hk => ?_, ?_, fun a ha => ?_, fun a ha hnotin => ?_⟩,
    ?_, Nat.lt_succ_self _⟩
  · rw [lastOf_append_singleton]
  · show v.numClients + 1 = _
    rw [hcount, List.length_append, List.length_singleton]
    rfl
  · exact append_spec hgrown h.nodup hnot (List.cons_ne_nil _ _) hlast hbefore
      (Heap.cell_grow_self _ _)
      hu.2.2.1 hu.2.1
  · rw [← List.cons_append]
    exact List.nodup_append.mpr ⟨h.nodup, List.pairwise_singleton _ _,
      fun b hb d hd => by
      rw [List.mem_singleton.mp hd]
      exact fun heq => hnot (heq ▸ hb)⟩
  · simp
  · exact Heap.cell_set_ne _ hk _
  · exact Nat.le_succ _
  · exact (hlink a).trans (by rw [Heap.cell_grow_ne _ (Nat.ne_of_lt ha)])
  · refine hold a ha ?_
    rintro rfl
    exact hnotin htmem
  · refine (hlink _).trans ?_
    rw [Heap.cell_grow_self, Option.map_some, ClientNode.owner, hu.1, hu.2.2.2, hid]

/-- The client of the new node is given the job and made busy. -/
theorem Reserves.seat {c : Nat} {s₂ s₃ : Server} (h : Reserves s s₁ j zs [])
    (hreg : s₁.reg = s.reg) (hjn : serverUpdateJobNode s₁ (some c) j = .ok s₂)
    (hbusy : setBusy s₂ (some c) true = .ok s₃) :
    Reserves s s₃ j zs [c] ∧ s₃.nodes = s₁.nodes ∧ s₃.jobs = s₁.jobs := by
  obtain ⟨d, ci, hd, hci, rfl⟩ := serverUpdateJobNode_ok hjn
  cases hd
  obtain ⟨d, ci', hd, hci', rfl⟩ := setBusy_ok hbusy
  cases hd
  have hset : (s₁.reg.infos.set c (some { ci with jn := some j })).cell c
      = some { ci with jn := some j } :=
    Heap.cell_set_self hci _
  cases hset.symm.trans hci'
  refine ⟨⟨?_, fun d => ?_, h.jobs, h.grown, h.owners, h.nodes⟩, rfl, rfl⟩
  · conv_lhs => rw [h.state]
  · rw [← hreg]
    by_cases hdc : d = c
    · rw [hdc, hci, Heap.cell_set_self hset]
      simp
    · show (Heap.set _ c _).cell d = _
      rw [Heap.cell_set_ne _ hdc, Heap.cell_set_ne _ hdc]
      simp [hdc]

theorem idleAmong_busy {reg : Registry} {c : Nat} (ws : List Nat)
    (hbusy : reg.isIdle c = false) :
    reg.idleAmong (c :: ws) = reg.idleAmong ws := by
  rw [Registry.idleAmong, List.filter_cons, if_neg (by simp [hbusy])]
  rfl

/-- Once the client is taken, it is not met as an idle one again. -/
theorem Reserves.idleAmong {c : Nat} (h : Reserves s s₁ j zs [c]) (ws : List Nat)
    (hidle : s.reg.isIdle c = true) :
    s.reg.idleAmong (c :: ws) = c :: s₁.reg.idleAmong ws := by
  have hleft : s₁.reg.isIdle = fun d => (!d == c) && s.reg.isIdle d := by
    funext d
    rw [Registry.isIdle, Registry.isIdle, h.infos, Option.map_map]
    by_cases hdc : d = c
    · cases hcell : s.reg.infos.cell d <;> simp [hdc]
    · have hsame : ((fun v : ClientInfo => v.busy) ∘ fun v : ClientInfo =>
          if d ∈ [c] then { v with busy := true, jn := some j } else v) = fun v =>
            v.busy := by
        funext v
        simp [hdc]
      rw [hsame]
      simp [hdc]
  rw [Registry.idleAmong, List.filter_cons, if_pos hidle, List.eraseDups_cons,
    Registry.idleAmong, hleft, List.filter_filter]

/-- The loop of `initJob` reserves the idle clients that it meets, and no others. -/
theorem reserveClients_exact {fuel : Nat} {p : Ptr} {xs : List Nat} {stop : Ptr}
    (h : Growing s j m xs stop id) (hr : reserveClients supply j fuel p s = .ok s') :
    ∃ ys stop', Growing s' j m (xs ++ ys) stop' id ∧
      (ys ≠ [] ∨ stop = none → stop' = none) ∧
      Reserves s s' j (m :: xs) (s.reg.idleAmong (s.reg.walked fuel p)) ∧
      owners s'.nodes ys = ownedAs id (s.reg.idleAmong (s.reg.walked fuel p)) ∧
      ∀ a ∈ ys, s.nodes.next ≤ a := by
  replace hr := reserveClients_rounds hr
  induction hr generalizing xs stop with
  | done fuel =>
      have hnobody : s'.reg.idleAmong (s'.reg.walked fuel none) = [] := by
        cases fuel <;> rfl
      rw [hnobody]
      refine ⟨[], stop, ?_, fun hne => hne.resolve_left (absurd rfl),
        Reserves.refl _ _ _, rfl, fun a ha => absurd ha List.not_mem_nil⟩
      rw [List.append_nil]
      exact h
  | @busy fuel cg c v ci s hv hc hcell hbusy _ ih =>
      have hflag : s.reg.isIdle c = false := by
        rw [Registry.isIdle, hcell, Option.map_some, hbusy]
        rfl
      rw [Registry.walked_cons hv hc, idleAmong_busy _ hflag]
      exact ih h
  | @idle fuel cg c v ci node s s₁ s₂ s₃ hv hc hcell hbusy hadd hjn hset _ ih =>
      have hflag : s.reg.isIdle c = true := by
        rw [Registry.isIdle, hcell, Option.map_some, hbusy]
        rfl
      obtain ⟨hgrowing, hreg, hadded, howner, hnext⟩ := h.addClient hadd
      obtain ⟨htaken, hnodes, hjobs⟩ := hadded.seat hreg hjn hset
      have hgrowing₃ : Growing s₃ j m (xs ++ [s.nodes.next]) none id :=
        ⟨hjobs ▸ hgrowing.job, hnodes ▸ hgrowing.list, hgrowing.nodup⟩
      obtain ⟨ys, stop', hgrown, hstop, hreserved, howners, hfresh⟩ := ih hgrowing₃
      have hwalked : s₃.reg.walked fuel v.n = s.reg.walked fuel v.n := by
        unfold Registry.walked
        rw [htaken.state]
      rw [hwalked] at hreserved howners
      rw [Registry.walked_cons hv hc, htaken.idleAmong _ hflag]
      refine ⟨s.nodes.next :: ys, stop', ?_, fun _ => hstop (Or.inr rfl),
        htaken.trans (Nat.le_refl _) hreserved, ?_, fun a ha => ?_⟩
      · rw [List.append_assoc] at hgrown
        exact hgrown
      · rw [owners, List.map_cons, hreserved.owners _ (hnodes ▸ hnext),
          hnodes, howner]
        exact congrArg _ howners
      · rcases List.mem_cons.mp ha with rfl | ha
        · exact Nat.le_refl _
        · exact Nat.le_trans htaken.grown (hfresh a ha)

end Reserving

/-! ## The indexes -/

/-- The clients with the indexes from `i` on. -/
def numbered (i : Nat) (cs : List Nat) : List Holder :=
  (cs.zipIdx i).map fun x => ⟨x.1, x.2⟩

@[simp] theorem numbered_nil (i : Nat) : numbered i [] = [] := rfl

@[simp] theorem numbered_cons (i c : Nat) (cs : List Nat) :
    numbered i (c :: cs) = ⟨c, i⟩ :: numbered (i + 1) cs := rfl

/-- `fs` are the frames of type `type` for the piece `x` of the job `id`. -/
def Server.FramesFor (s : Server) (id type : Int) (x : Holder)
    (fs : List Sent) : Prop :=
  ∃ v, s.reg.infos.cell x.client = some v ∧
    framesOf v.cfd (piecePath s.config id x.index) type = .ok fs

/-- From `s` to `s'` the nodes `xs` got indexes, and the frames `fss` were sent. -/
structure Assigned (s s' : Server) (xs : List Nat)
    (fss : List (List Sent)) : Prop where
  state : s' = { s with nodes := s'.nodes, sent := s.sent ++ fss.flatten }
  indexed : ∀ a v, s.nodes.cell a = some v →
    ∃ i, s'.nodes.cell a = some { v with index := i }
  nodes : ∀ a, a ∉ xs → s'.nodes.cell a = s.nodes.cell a

section Assigning
variable {s s' : Server} {id jid type : Int}

/-- The loop of `assignJob` on the nodes of the clients `cs`. -/
theorem assignFrom_exact {fuel i : Nat} {p q : Ptr} (xs cs : List Nat)
    (hseg : Seg nodeLinks s.nodes (fun _ => False) q p xs none) (hnd : xs.Nodup)
    (howners : owners s.nodes xs = ownedAs jid cs)
    (hr : assignFrom id type fuel i p s = .ok s') :
    ∃ fss, Assigned s s' xs fss ∧ List.Forall₂ (s.FramesFor id type)
      (numbered i cs) fss ∧
      pieces s'.nodes xs = heldAs jid (numbered i cs) := by
  replace hr := assignFrom_rounds hr
  induction hr generalizing xs cs q with
  | done fuel i =>
      rw [hseg.eq_nil] at howners ⊢
      rw [List.map_eq_nil_iff.mp howners.symm]
      exact ⟨[],
        ⟨by rw [List.flatten_nil, List.append_nil], fun a v hv => ⟨v.index, hv⟩,
          fun _ _ => rfl⟩,
        List.Forall₂.nil, rfl⟩
  | @send fuel i a c' u ci s s₁ hu hc' hcell hsend _ ih =>
      obtain ⟨fs, hfs, rfl⟩ := shSendEncodedData_frames hsend
      cases xs with
      | nil => cases hseg.eq
      | cons b xs =>
          obtain ⟨hlead, w, hw, -, hrest⟩ := hseg
          cases hlead.eq
          cases hu.symm.trans hw
          obtain ⟨hnot, hnd⟩ := List.nodup_cons.mp hnd
          cases cs with
          | nil => cases howners
          | cons c cs =>
              rw [owners, List.map_cons, ownedAs, List.map_cons, hu] at howners
              obtain ⟨howner, hothers⟩ := List.cons.inj howners
              obtain ⟨hclient, hjid⟩ := Prod.mk.inj (Option.some.inj howner)
              cases hclient.symm.trans hc'
              have hset : ∀ d, d ≠ a →
                  (s.nodes.set a (some { u with index := i })).cell d
                    = s.nodes.cell d :=
                fun d hd => Heap.cell_set_ne _ hd _
              have howners' : owners (s.nodes.set a (some { u with index := i })) xs
                  = ownedAs jid cs := by
                refine (List.map_congr_left fun d hd => ?_).trans hothers
                rw [hset d fun heq => hnot (heq ▸ hd)]
              obtain ⟨fss, hassigned, hframes, hpieces⟩ :=
                ih xs cs (hrest.set_of_not_mem hnot _) hnd howners'
              have hcell' : s'.nodes.cell a = some { u with index := i } :=
                (hassigned.nodes a hnot).trans (Heap.cell_set_self hu _)
              refine ⟨fs :: fss, ⟨?_, fun d x hx => ?_, fun d hd => ?_⟩, ?_, ?_⟩
              · rw [hassigned.state, List.flatten_cons, ← List.append_assoc]
              · by_cases hda : d = a
                · rw [hda] at hx ⊢
                  cases hu.symm.trans hx
                  exact ⟨i, hcell'⟩
                · exact hassigned.indexed d x ((hset d hda).trans hx)
              · obtain ⟨hda, hdxs⟩ :=
                  not_or.mp fun hmem => hd (List.mem_cons.mpr hmem)
                exact (hassigned.nodes d hdxs).trans (hset d hda)
              · exact List.Forall₂.cons ⟨ci, hcell, hfs⟩ hframes
              · rw [pieces, List.map_cons, hcell', Option.map_some, ClientNode.piece,
                  hclient, hjid]
                exact congrArg _ hpieces

end Assigning

/-! ## The frames -/

/-- The fields that the path of a piece is printed from are C strings. -/
structure Config.Strings (c : Config) : Prop where
  repo : 0 ∉ c.centralRepoIp
  directory : 0 ∉ c.jobDirectory

/-- What `piecePath` prints, whatever room it has. -/
def Config.pieceText (c : Config) (id index : Int) : Bytes :=
  c.centralRepoIp ++ ascii ":" ++ c.jobDirectory ++ ascii "job_" ++ decimal id
    ++ ascii "/prob/input_p"
    ++ decimal (index.tdiv 100) ++ decimal (index.tdiv 10) ++ decimal (index.tmod 10)

/-- The one frame that tells the client of `x` the path of its piece. -/
def Server.PieceFrame (s : Server) (id type : Int) (x : Holder)
    (sent : Sent) : Prop :=
  ∃ v, ∃ f : Frame, s.reg.infos.cell x.client = some v ∧
    sent = ⟨v.cfd, segment [f]⟩ ∧
    (f.attr.code : Int) = type ∧ f.value = s.config.pieceText id x.index

section Frames
variable {c : Config} {id index type : Int}

theorem pieceText_long (c : Config) (id index : Int) :
    18 ≤ (c.pieceText id index).length := by
  simp only [Config.pieceText, List.length_append]
  have hcolon : (ascii ":").length = 1 := rfl
  have hjob : (ascii "job_").length = 4 := rfl
  have hprob : (ascii "/prob/input_p").length = 13 := rfl
  omega

theorem pieceText_sent (c : Config) (id index : Int) :
    (c.pieceText id index).take 2047 ≠ [] := by
  have hlong := pieceText_long c id index
  refine List.ne_nil_of_length_pos ?_
  rw [List.length_take]
  omega

theorem Config.Strings.pieceText (hc : c.Strings) : 0 ∉ c.pieceText id index := by
  have hcolon : 0 ∉ ascii ":" := by decide
  have hjob : 0 ∉ ascii "job_" := by decide
  have hprob : 0 ∉ ascii "/prob/input_p" := by decide
  simp [Config.pieceText, hc.repo, hc.directory, decimal_nul, hcolon, hjob, hprob]

theorem Config.Strings.piecePath (hc : c.Strings) :
    cString (piecePath c id index) = .ok ((c.pieceText id index).take 2047) :=
  cString_snprintf (by decide) hc.pieceText

/-- Only a text has a frame that is larger by the two headers. -/
theorem frameSize_text {data : Bytes} {len k : Nat} (hk : 18 ≤ k)
    (hlen : len = min k 2047) (hsize : frameSize type data len = some (8 + k)) :
    ∃ attr ∈ textual, (attr.code : Int) = type := by
  unfold frameSize at hsize
  cases hattr : (if type < 0 then none else Attribute.ofCode type.toNat) with
  | none =>
      rw [hattr] at hsize
      cases hsize
  | some attr =>
      rw [hattr] at hsize
      obtain ⟨hneg, hcode⟩ := Option.ite_none_left_eq_some.mp hattr
      have htype : (attr.code : Int) = type := by
        have := Attribute.ofCode_eq_some.mp hcode
        omega
      have hwords : ∀ {P : Prop} [Decidable P], (P → len ≤ 254) →
          (if P then some (8 + 4 * len) else none) = some (8 + k) → False := by
        intro P _ hP heq
        obtain ⟨hp, heq⟩ := Option.ite_none_right_eq_some.mp heq
        have := Option.some.inj heq
        have := hP hp
        omega
      cases attr with
      | stringData | cliData | algoSort | algoMax =>
          exact ⟨_, by simp [textual], htype⟩
      | goodBye =>
          have := Option.some.inj hsize
          omega
      | joinGroup => exact (hwords (fun h => h.2.1) hsize).elim
      | algoError => exact (hwords (fun h => h.1) hsize).elim
      | none | int32Data | cliError | max => cases hsize

theorem framesFor_text {s : Server} {x : Holder} {fs : List Sent}
    (hc : s.config.Strings) {attr : Attribute} (hattr : attr ∈ textual)
    (h : s.FramesFor id attr.code x fs) :
    ∃ sent, fs = [sent] ∧ s.PieceFrame id attr.code x sent := by
  obtain ⟨v, hv, hfs⟩ := h
  obtain ⟨hfits, f, hf, hvalue, rfl⟩ :=
    framesOf_text hattr hc.piecePath (pieceText_sent _ _ _) hfs
  rw [List.length_take] at hfits
  exact ⟨_, rfl, v, f, hv, rfl,
    by rw [hf], hvalue.trans (List.take_of_length_le (by omega))⟩

theorem pieceFrame_textual {s : Server} {x : Holder} {sent : Sent} {fs : List Sent}
    (hc : s.config.Strings) (hsent : s.PieceFrame id type x sent)
    (h : s.FramesFor id type x fs) (hhead : fs.head? = some sent) :
    ∃ attr ∈ textual, (attr.code : Int) = type := by
  obtain ⟨v, f, hv, rfl, -, hvalue⟩ := hsent
  obtain ⟨w, hw, hfs⟩ := h
  obtain ⟨n, buf, rest, -, hsize, hlen, rfl, -⟩ :=
    framesOf_first hc.piecePath (pieceText_sent _ _ _) hfs
  have hframe := congrArg (fun f => f.frame.length) (Option.some.inj hhead)
  have hn : n = 8 + (s.config.pieceText id x.index).length := by
    rw [← hvalue]
    refine (hlen.symm.trans hframe).trans ?_
    simp only [length_segment, body_cons, body_nil, List.append_nil,
      Frame.length_wire]
    omega
  refine frameSize_text (pieceText_long _ _ _) ?_ (hn ▸ hsize)
  rw [List.length_take, Nat.min_comm]

/-- The same when the frames of others follow. -/
theorem first_textual {s : Server} {x : Holder} {sent : Sent}
    {fs rest rest' : List Sent} (hc : s.config.Strings)
    (hsent : s.PieceFrame id type x sent) (h : s.FramesFor id type x fs)
    (hflat : fs ++ rest = sent :: rest') :
    ∃ attr ∈ textual, (attr.code : Int) = type := by
  refine pieceFrame_textual hc hsent h ?_
  cases fs with
  | nil =>
      obtain ⟨v, -, hnone⟩ := h
      obtain ⟨n, buf, more, -, -, -, hcons, -⟩ :=
        framesOf_first hc.piecePath (pieceText_sent _ _ _) hnone
      cases hcons
  | cons g gs => exact congrArg List.head? hflat

end Frames

/-! ## A job that is started -/

/-- The new job at `j` has the clients `cs`, in its nodes `xs`, and
nothing else is changed. -/
structure Reserved (s s' : Server) (jobId : Int) (cs : List Nat) (j m : Nat)
    (xs : List Nat) : Prop where
  last : s'.pTail = some j
  fresh : s.jobs.cell j = none
  named : ∃ v, s'.jobs.cell j = some v ∧ v.job.id = jobId
  list : ClientList s' j m xs
  held : pieces s'.nodes xs = heldAs jobId (numbered 0 cs)
  infos : ∀ c, s'.reg.infos.cell c = (s.reg.infos.cell c).map fun v =>
    if c ∈ cs then { v with busy := true, jn := some j } else v
  groups : s'.reg = { s.reg with infos := s'.reg.infos }
  jobs : ∀ k v, s.jobs.cell k = some v →
    ∃ v', s'.jobs.cell k = some v' ∧ v'.job = v.job ∧
    v'.numClients = v.numClients ∧ v'.prev = v.prev ∧ v'.next = if s.pTail = some k
      then some j else v.next
  nodes : ∀ a v, s.nodes.cell a = some v → s'.nodes.cell a = some v
  tasks : ∀ a v, s.tasks.cell a = some v → s'.tasks.cell a = some v
  queue : s'.qHead = s.qHead ∧ s'.qTail = s.qTail ∧ s'.pHead = s.pHead

/-- What `assignJob` is called with: a new job at `j` with the clients `cs`, in the
nodes `xs`, and the task at `a`. -/
structure Server.Launch (s : Server) (j m : Nat) (xs cs : List Nat) (a : Nat)
    (id type : Int) : Prop where
  growing : Growing s j m xs none id
  owners : owners s.nodes xs = ownedAs id cs
  clients : ∀ c ∈ cs, ∃ v, s.reg.infos.cell c = some v
  task : ∃ u, s.jobs.cell j = some u ∧ u.job.task = some a
  type : ∃ t, s.tasks.cell a = some t ∧ t.taskType = type

/-- `initJob` has prepared a job at `j` for the clients `cs`, and
calls `assignJob` in `s'`. -/
structure Prepared (s s' : Server) (jobId taskType : Int) (t : Nat) (v : JobNode)
    (cs : List Nat) (j m : Nat) (xs : List Nat) (a : Nat) : Prop where
  launch : s'.Launch j m xs cs a jobId taskType
  last : s.pTail = some t
  added : s'.pTail = some j
  cell : s.jobs.cell t = some v
  free : v.lock = false
  locked : s'.jobs.cell t = some { v with lock := true, next := some j }
  fresh : s.jobs.cell j = none
  jobs : ∀ k, k ≠ t → k ≠ j → s'.jobs.cell k = s.jobs.cell k
  infos : ∀ c, s'.reg.infos.cell c = (s.reg.infos.cell c).map fun v =>
    if c ∈ cs then { v with busy := true, jn := some j } else v
  groups : s'.reg = { s.reg with infos := s'.reg.infos }
  nodes : ∀ b y, s.nodes.cell b = some y → b ∉ xs ∧ s'.nodes.cell b = some y
  tasks : ∀ b y, s.tasks.cell b = some y → s'.tasks.cell b = some y
  queue : s'.qHead = s.qHead ∧ s'.qTail = s.qTail ∧ s'.pHead = s.pHead
  kept : s'.sent = s.sent ∧ s'.config = s.config

/-- Each of the clients is sent one frame, with the path for its own index. -/
def OneFrameEach (s s' : Server) (jobId taskType : Int) (cs : List Nat) : Prop :=
  ∃ sent, s'.sent = s.sent ++ sent ∧
    List.Forall₂ (s.PieceFrame jobId taskType) (numbered 0 cs) sent

/-- The mutex of every job that was there is as it was; the first of the
list stands for none. -/
def MutexesKept (s s' : Server) : Prop :=
  ∀ k v, some k ≠ s.pHead → s.jobs.cell k = some v →
    (s'.jobs.cell k).map (·.lock) = some v.lock

section Started
variable {supply : JobSupply} {s s' : Server} {groupId jobId taskType system : Int}
  {inputFile : Bytes}

theorem JobAdded.growing {t : Nat} {task : Ptr} {v w : JobNode} {u : ClientNode}
    (h : JobAdded s s' jobId task t v w u) :
    Growing s' s.jobs.next s.nodes.next [] w.job.tail jobId := by
  have hcell : s'.nodes.cell s.nodes.next
      = some { u with
        prev := none, client := some 0xdeadbeef, next := w.job.tail } := by
    rw [h.state]
    exact Heap.cell_set_self (Heap.cell_grow_self _ _) _
  exact ⟨⟨_, h.new, rfl, rfl, rfl, rfl⟩,
    ⟨Leads.refl _ _, _, hcell, rfl, Leads.refl _ _⟩, List.nodup_singleton _⟩

theorem JobAdded.nodes {t : Nat} {task : Ptr} {v w : JobNode} {u : ClientNode}
    (h : JobAdded s s' jobId task t v w u) : s'.nodes.next = s.nodes.next + 1 ∧
      ∀ a x, s.nodes.cell a = some x → s'.nodes.cell a = some x := by
  rw [h.state]
  refine ⟨rfl, fun a x hx => ?_⟩
  have ha : a ≠ s.nodes.next := Nat.ne_of_lt (s.nodes.lt_next hx)
  show (Heap.set _ s.nodes.next _).cell a = _
  rw [Heap.cell_set_ne _ ha, Heap.cell_grow_ne _ ha, hx]

theorem addJob_free {task p : Ptr} (h : addJob supply s jobId task = .ok (p, s')) :
    ∃ t v, s.pTail = some t ∧ s.jobs.cell t = some v ∧ v.lock = false := by
  obtain ⟨s₁, hlock, -⟩ := bind_ok.mp h
  obtain ⟨t, v, ht, hv, hfree, -⟩ := lockMutex_ok hlock
  exact ⟨t, v, ht, hv, hfree⟩

/-- What `assignJob` does with a list of which the last pointer is right. -/
theorem Growing.assign {j m : Nat} {xs cs : List Nat} {task : Ptr} {a : Nat}
    {v : Task} {b : Bool} (h : Growing s j m xs none jobId)
    (howners : owners s.nodes xs = ownedAs jobId cs) (htask : task = some a)
    (hv : s.tasks.cell a = some v) (hr : assignJob s j task = .ok (b, s')) :
    ∃ fss, Assigned s s' xs fss ∧ List.Forall₂ (s.FramesFor jobId v.taskType)
      (numbered 0 cs) fss ∧
      ClientList s' j m xs ∧ pieces s'.nodes xs = heldAs jobId (numbered 0 cs) := by
  obtain ⟨w, hw, hid, hhead, htail, hcount⟩ := h.job
  obtain ⟨w', hload, hr⟩ := bind_ok.mp hr
  rw [Heap.load_some hw] at hload
  cases hload
  obtain ⟨vh, hload, hr⟩ := bind_ok.mp hr
  obtain ⟨-, u, hu, -, hrest⟩ := h.list
  rw [hhead, Heap.load_some hu] at hload
  cases hload
  obtain ⟨t, hload, hr⟩ := bind_ok.mp hr
  rw [htask, Heap.load_some hv] at hload
  cases hload
  obtain ⟨s₁, hloop, hr⟩ := bind_ok.mp hr
  cases hr
  rw [hid] at hloop
  obtain ⟨fss, hassigned, hframes, hpieces⟩ :=
    assignFrom_exact xs cs hrest (List.nodup_cons.mp h.nodup).2 howners hloop
  have hjobs : s'.jobs = s.jobs := by rw [hassigned.state]
  refine ⟨fss, hassigned, hframes,
    ⟨⟨w, by rw [hjobs, hw], hhead, htail, hcount⟩, ?_, h.nodup⟩, hpieces⟩
  refine h.list.frame (fun d _ x hx => ?_) fun _ hF => hF
  obtain ⟨i, hx'⟩ := hassigned.indexed d x hx
  exact ⟨_, hx', rfl, rfl⟩

/-- A client that is reserved keeps its descriptor, so what it is
sent can be said before. -/
theorem Server.FramesFor.before {t u : Server} {cs : List Nat} {j : Nat}
    {id type : Int} {x : Holder} {fs : List Sent} (h : u.FramesFor id type x fs)
    (hinfos : ∀ c, u.reg.infos.cell c =
      (t.reg.infos.cell c).map fun v => if c ∈ cs
        then { v with busy := true, jn := some j } else v)
    (hconfig : u.config = t.config) : t.FramesFor id type x fs := by
  obtain ⟨y, hy, hfs⟩ := h
  obtain ⟨z, hz, rfl⟩ := Option.map_eq_some_iff.mp ((hinfos x.client).symm.trans hy)
  have hsame : (if x.client ∈ cs then { z with busy := true, jn := some j }
      else z).cfd = z.cfd := by
    split <;> rfl
  rw [hsame, hconfig] at hfs
  exact ⟨z, hz, hfs⟩

theorem idleAmong_cell {reg : Registry} {ws : List Nat} {c : Nat}
    (h : c ∈ reg.idleAmong ws) :
    ∃ v, reg.infos.cell c = some v := by
  have hidle := (List.mem_filter.mp (List.mem_eraseDups.mp h)).2
  cases hcell : reg.infos.cell c with
  | none =>
      rw [Registry.isIdle, hcell] at hidle
      cases hidle
  | some v => exact ⟨v, rfl⟩

/-- Before `initJob` returns true it has prepared a job for the idle
clients of the group. -/
theorem initJob_prepared
    (hr : initJob supply s groupId jobId taskType inputFile system
      = .ok (true, s')) :
    ∃ s₂ t v m xs a, Prepared s s₂ jobId taskType t v (s.idleClients groupId.toNat)
      s.jobs.next m xs a ∧
      xs ≠ [] ∧ assignJob s₂ s.jobs.next (some a) = .ok (true, s') := by
  rcases initJob_cases hr with ⟨-, hno, -⟩ | ⟨task, tasks, j, s₁, s₂, tj,
    hinit, hcases⟩
  · cases hno
  rcases hcases with ⟨hno, -⟩ | ⟨hzero, commands, ⟨hno, -⟩ | hassign⟩
  · cases hno
  · cases hno
  obtain ⟨t, v, w, u, ht, hv, -, -, hj, hadded⟩ := addJob_ok jobId task hinit.added
  cases hj
  obtain ⟨t', v', ht', hv', hfree⟩ := addJob_free hinit.added
  cases ht.symm.trans ht'
  cases hv.symm.trans hv'
  have hstate₁ := hadded.state
  have hnext : s₁.nodes.next = s.nodes.next + 1 := hadded.nodes.1
  have hnodes₁ := hadded.nodes.2
  obtain ⟨cgh, hgid, hreserve⟩ := hinit.reserved
  obtain ⟨xs, stop, hgrown, hstop, hreserved, howners, hfresh⟩ :=
    reserveClients_exact hadded.growing hreserve
  have hreg₁ : s₁.reg = s.reg := by rw [hstate₁]
  have hcs :
      s₁.reg.idleAmong (s₁.reg.walked s₁.reg.groups.next
        (s₁.reg.multicastGroups cgh).h)
      = s.idleClients groupId.toNat := by
    rw [Server.idleClients, clientsIn_eq hgid, hreg₁]
  rw [hcs] at hreserved howners
  rw [List.nil_append] at hgrown
  -- somebody was idle, so the last pointer of the list is not what the memory held
  have hsome : xs ≠ [] := by
    rintro rfl
    obtain ⟨x, hx, -, -, -, hcount⟩ := hgrown.job
    cases hinit.job.symm.trans hx
    exact hzero hcount
  cases hstop (Or.inl hsome)
  obtain ⟨a, x, rfl, hx, htype⟩ := hinit.stored
  have hstate₂ := hreserved.state
  have htasks₂ : s₂.tasks = tasks := by rw [hstate₂, hstate₁]
  -- the job has still the task that was stored with it
  obtain ⟨y, hy, htask⟩ : ∃ y, s₂.jobs.cell s.jobs.next = some y ∧
      y.job.task = some a := by
    obtain ⟨k, _, _, _, hk, -, hbuilt, -, -, -, -, y, hy, htask⟩ :=
      addJob_built hinit.added
    cases hk
    obtain ⟨_, _, _, -, -, -, hkeeps, -⟩ := hbuilt.reserve hreserve
    obtain ⟨z, hz, -, hsame⟩ := hkeeps.jobs _ y hy
    exact ⟨z, hz, hsame.trans htask⟩
  have hinfos : ∀ c, s₂.reg.infos.cell c = (s.reg.infos.cell c).map fun v =>
      if c ∈ s.idleClients groupId.toNat
        then { v with busy := true, jn := some s.jobs.next } else v := by
    rw [← hreg₁]
    exact hreserved.infos
  refine ⟨{ s₂ with commands := commands }, t, v, s.nodes.next, xs, a,
    ⟨⟨⟨hgrown.job, hgrown.list, hgrown.nodup⟩, howners, fun c hc => ?_,
    ⟨y, hy, htask⟩, ⟨x, htasks₂ ▸ hx, htype⟩⟩, ht, ?_, hv, hfree, ?_,
    s.jobs.fresh _ (Nat.le_refl _), fun k hkt hkj => ?_, hinfos, ?_,
    fun b z hz => ?_, fun b z hz => ?_, ?_, ?_⟩, hsome, hassign⟩
  · obtain ⟨z, hz⟩ := idleAmong_cell hc
    exact ⟨_, (hinfos c).trans (congrArg (Option.map _) hz)⟩
  · rw [hstate₂, hstate₁]
  · exact (hreserved.jobs t (Nat.ne_of_lt (s.jobs.lt_next hv))).trans hadded.last
  · exact (hreserved.jobs k hkj).trans (hadded.old k hkt hkj)
  · rw [hstate₂, hreg₁]
  · have hb := s.nodes.lt_next hz
    have hnot : b ∉ xs := fun hmem => by
      have hle := hfresh b hmem
      omega
    refine ⟨hnot, (hreserved.nodes b (by omega) fun hmem => ?_).trans
      (hnodes₁ b z hz)⟩
    rw [List.mem_singleton.mp hmem] at hb
    exact Nat.lt_irrefl _ hb
  · exact (congrArg (fun h => h.cell b) htasks₂).trans (hinit.kept b z hz)
  · rw [hstate₂, hstate₁]
    exact ⟨rfl, rfl, rfl⟩
  · rw [hstate₂, hstate₁]
    exact ⟨rfl, rfl⟩

/-- What `initJob` has done when it returns true; the frames are those that the loop
of `sh_send_encoded_data` makes of the paths. -/
theorem initJob_reserved
    (hr : initJob supply s groupId jobId taskType inputFile system
      = .ok (true, s')) :
    ∃ j m xs fss, Reserved s s' jobId (s.idleClients groupId.toNat) j m xs ∧
      s.idleClients groupId.toNat ≠ [] ∧ s'.sent = s.sent ++ fss.flatten ∧
      List.Forall₂ (s.FramesFor jobId taskType)
        (numbered 0 (s.idleClients groupId.toNat)) fss ∧
      ∃ t v, s.pTail = some t ∧ s.jobs.cell t = some v ∧ v.lock = false ∧
        (s'.jobs.cell t).map (·.lock) = some true ∧ ∀ k, k ≠ t → k ≠ j →
        s'.jobs.cell k = s.jobs.cell k := by
  obtain ⟨s₂, t, v, m, xs, a, hprepared, hsome, hassign⟩ := initJob_prepared hr
  have hlaunch := hprepared.launch
  obtain ⟨x, hx, rfl⟩ := hlaunch.type
  obtain ⟨fss, hassigned, hframes, hlist, hheld⟩ :=
    hlaunch.growing.assign hlaunch.owners rfl hx hassign
  have hstate := hassigned.state
  have hjobs : s'.jobs = s₂.jobs := by rw [hstate]
  have hlast : s'.jobs.cell t
      = some { v with lock := true, next := some s.jobs.next } :=
    hjobs ▸ hprepared.locked
  have hother : ∀ k, k ≠ t → k ≠ s.jobs.next → s'.jobs.cell k = s.jobs.cell k :=
    hjobs ▸ hprepared.jobs
  obtain ⟨hsent₂, hconfig₂⟩ := hprepared.kept
  have hne : s.idleClients groupId.toNat ≠ [] := fun hnil => by
    have howners := hlaunch.owners
    rw [hnil] at howners
    exact hsome (List.map_eq_nil_iff.mp howners)
  refine ⟨s.jobs.next, m, xs, fss,
    ⟨?_, hprepared.fresh, ?_, hlist, hheld, ?_, ?_, ?_, fun b y hy => ?_,
    fun b y hy => ?_, ?_⟩, hne, ?_, ?_, t, v, hprepared.last, hprepared.cell,
    hprepared.free, ?_, hother⟩
  · rw [hstate]
    exact hprepared.added
  · obtain ⟨y, hy, hid, -⟩ := hlaunch.growing.job
    exact ⟨y, hjobs ▸ hy, hid⟩
  · rw [hstate]
    exact hprepared.infos
  · rw [hstate]
    exact hprepared.groups
  · intro k y hy
    by_cases hkt : k = t
    · cases hkt
      cases hprepared.cell.symm.trans hy
      exact ⟨_, hlast, rfl, rfl, rfl, by rw [if_pos hprepared.last]⟩
    · refine ⟨y, (hother k hkt (Nat.ne_of_lt (s.jobs.lt_next hy))).trans hy, rfl,
        rfl, rfl, ?_⟩
      rw [if_neg]
      rw [hprepared.last]
      rintro heq
      exact hkt (Option.some.inj heq).symm
  · obtain ⟨hnot, hkept⟩ := hprepared.nodes b y hy
    rw [hassigned.nodes b hnot, hkept]
  · rw [hstate]
    exact hprepared.tasks b y hy
  · rw [hstate]
    exact hprepared.queue
  · rw [hstate, hsent₂]
  · exact hframes.imp fun _ _ h => h.before hprepared.infos hconfig₂
  · rw [hlast]
    rfl

/-- One frame each is what texts are sent in, and nothing else. -/
theorem oneFrameEach_iff {cs : List Nat} {fss : List (List Sent)}
    (hc : s.config.Strings) (hne : cs ≠ []) (hsent : s'.sent = s.sent ++ fss.flatten)
    (hframes : List.Forall₂ (s.FramesFor jobId taskType) (numbered 0 cs) fss) :
    OneFrameEach s s' jobId taskType cs ↔ ∃ attr ∈ textual,
      (attr.code : Int) = taskType := by
  constructor
  · rintro ⟨sent, heq, hpieces⟩
    cases cs with
    | nil => exact absurd rfl hne
    | cons c cs =>
        rw [numbered_cons] at hframes hpieces
        obtain ⟨fs, fss, hfs, -, rfl⟩ := List.forall₂_cons_left_iff.mp hframes
        obtain ⟨f, fs', hf, -, rfl⟩ := List.forall₂_cons_left_iff.mp hpieces
        exact first_textual hc hf hfs
          (List.append_cancel_left (hsent.symm.trans heq))
  · rintro ⟨attr, hattr, rfl⟩
    have hall : ∀ {hs : List Holder} {fss : List (List Sent)},
        List.Forall₂ (s.FramesFor jobId attr.code) hs fss →
        List.Forall₂ (s.PieceFrame jobId attr.code) hs fss.flatten := by
      intro hs fss h
      induction h with
      | nil => exact List.Forall₂.nil
      | cons hfs _ ih =>
          obtain ⟨f, rfl, hf⟩ := framesFor_text hc hattr hfs
          exact List.Forall₂.cons hf ih
    exact ⟨fss.flatten, hsent, hall hframes⟩

/-- A successful `initJob` reserves exactly the idle members of the group,
whatever the type of its task; it sends each of them one frame if and only if the
type is sent as text, and it leaves all the mutexes alone if and only if no job
was in the list before. -/
theorem reserves_exactly_iff (hc : s.config.Strings)
    (hr : initJob supply s groupId jobId taskType inputFile system
      = .ok (true, s')) :
    (((∃ j m xs, Reserved s s' jobId (s.idleClients groupId.toNat) j m xs) ∧
        OneFrameEach s s' jobId taskType (s.idleClients groupId.toNat)) ↔
      ∃ attr ∈ textual, (attr.code : Int) = taskType) ∧
    (((∃ j m xs, Reserved s s' jobId (s.idleClients groupId.toNat) j m xs) ∧
        OneFrameEach s s' jobId taskType (s.idleClients groupId.toNat) ∧
        MutexesKept s s') ↔
      (∃ attr ∈ textual, (attr.code : Int) = taskType) ∧ s.pTail = s.pHead) := by
  obtain ⟨j, m, xs, fss, hreserved, hne, hsent, hframes, t, v, ht, hv, hfree,
      hlocked, hother⟩ :=
    initJob_reserved hr
  have hone := oneFrameEach_iff hc hne hsent hframes
  have hmutexes : MutexesKept s s' ↔ s.pTail = s.pHead := by
    constructor
    · intro hkept
      by_contra hsecond
      rw [ht] at hsecond
      have hlock := (hkept t v hsecond hv).symm.trans hlocked
      rw [hfree] at hlock
      cases hlock
    · intro hfirst k y hk hy
      rw [← hfirst, ht] at hk
      have hkj : k ≠ j := by
        rintro rfl
        cases hreserved.fresh.symm.trans hy
      rw [hother k (fun heq => hk (congrArg some heq)) hkj, hy]
      rfl
  exact ⟨⟨fun h => hone.mp h.2, fun h => ⟨⟨j, m, xs, hreserved⟩, hone.mpr h⟩⟩,
    ⟨fun h => ⟨hone.mp h.2.1, hmutexes.mp h.2.2⟩,
      fun h => ⟨⟨j, m, xs, hreserved⟩, hone.mpr h.1, hmutexes.mpr h.2⟩⟩⟩

end Started

theorem vacant_strings : Server.vacant.config.Strings :=
  ⟨List.not_mem_nil, List.not_mem_nil⟩

/-- Job 8 is started for the clients of group 1, with the task `type`. -/
theorem vacant_starts (type : Int)
    (hstart : (initJob JobSupply.zeros Server.vacant 1 8 type (ascii "in")
      0).toOption.map (·.1) = some true) :
    ∃ s', initJob JobSupply.zeros Server.vacant 1 8 type (ascii "in") 0
      = .ok (true, s') := by
  cases hr : initJob JobSupply.zeros Server.vacant 1 8 type (ascii "in") 0 with
  | error e =>
      rw [hr] at hstart
      cases hstart
  | ok r =>
      rw [hr] at hstart
      exact ⟨r.2, congrArg Except.ok (Prod.ext (Option.some.inj hstart) rfl)⟩

/-- The two clients of the group get the pieces 0 and 1 of job 8. -/
theorem reserves_exactly_sample :
    ∃ s', initJob JobSupply.zeros Server.vacant 1 8 102 (ascii "in") 0
      = .ok (true, s') ∧
      Server.vacant.idleClients 1 = [1, 0] ∧
      (∃ j m xs, Reserved Server.vacant s' 8 [1, 0] j m xs) ∧
      OneFrameEach Server.vacant s' 8 102 [1, 0] := by
  obtain ⟨s', hr⟩ := vacant_starts 102 (by decide +kernel)
  have hidle : Server.vacant.idleClients 1 = [1, 0] := by decide +kernel
  have hboth :=
    (reserves_exactly_iff vacant_strings hr).1.mpr ⟨.algoMax, by simp [textual], rfl⟩
  rw [show (1 : Int).toNat = 1 from rfl, hidle] at hboth
  exact ⟨s', hr, hidle, hboth⟩

/-- The mutex of job 7 stays locked; and a task of the type `GOOD_BYE` is sent in
more than one frame. -/
theorem started_job_changes_other :
    (∃ s', initJob JobSupply.zeros Server.vacant 1 8 102 (ascii "in") 0
      = .ok (true, s') ∧ ¬ MutexesKept Server.vacant s') ∧
    ∃ s', initJob JobSupply.zeros Server.vacant 1 8 2 (ascii "in") 0
      = .ok (true, s') ∧
      ¬ OneFrameEach Server.vacant s' 8 2 (Server.vacant.idleClients 1) := by
  obtain ⟨s', hr⟩ := vacant_starts 102 (by decide +kernel)
  obtain ⟨s'', hr'⟩ := vacant_starts 2 (by decide +kernel)
  refine ⟨⟨s', hr, fun hkept => ?_⟩, s'', hr', fun hone => ?_⟩
  · obtain ⟨j, m, xs, fss, -, -, -, -, t, v, ht, hv, hfree, hlocked, -⟩ :=
      initJob_reserved hr
    have hsecond : some t ≠ Server.vacant.pHead := by
      rw [← ht]
      decide
    have hlock := (hkept t v hsecond hv).symm.trans hlocked
    rw [hfree] at hlock
    cases hlock
  · obtain ⟨j, m, xs, fss, -, hne, hsent, hframes, -⟩ := initJob_reserved hr'
    obtain ⟨attr, hattr, hcode⟩ :=
      (oneFrameEach_iff vacant_strings hne hsent hframes).mp hone
    simp only [textual, List.mem_cons, List.not_mem_nil, or_false] at hattr
    rcases hattr with rfl | rfl | rfl | rfl <;> cases hcode

end Pyramid
