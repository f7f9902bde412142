/-
# `Pyramid.Cluster` — the server, its workers, and what is under way between them

A `Cluster` is the world of the server and, for each descriptor that is open, the
worker at its other end with the frames that were sent on it, either way, and not
received.  A `Move` says who goes on: a worker connects, a job is submitted, a
worker or the server takes some of the frames that came in, a connection ends.

The frames of one direction stay in order, and no frame comes in in parts; several
may come in at once.  What goes between the server and its CLIs is left out.
-/
import Pyramid.Client
import Pyramid.Connections
import Pyramid.Dealing

namespace Pyramid

/-- A machine that downloads from `web`. -/
structure Host (web : Bytes → Option Bytes) extends Machine where
  downloads : Client.Downloads web shell

/-- A worker and its connection. -/
structure Link (web : Bytes → Option Bytes) where
  host : Host web
  worker : Client
  /-- what the server has sent, and the worker has not received -/
  requests : List Bytes
  /-- what the worker has sent, and the server has not received -/
  replies : List Bytes

structure Cluster (web : Bytes → Option Bytes) where
  world : World
  link : Int → Option (Link web)

/-- What of `fs` is sent to `cfd`. -/
def framesTo (cfd : Int) (fs : List Sent) : List Bytes :=
  (fs.filter fun f => f.fd = cfd).map (·.frame)

/-- What the server has sent between `w` and `w'` is under way. -/
def Link.after {web : Bytes → Option Bytes} (l : Link web) (w w' : World)
    (cfd : Int) : Link web :=
  { l with
    requests := l.requests ++ framesTo cfd (w'.server.sent.drop w.server.sent.length) }

/-- Who goes on.  Of the frames that came in `n` are taken; `room` is what is behind
them in the array, and `storage` what `storage_buffer` of
`sh_send_job_result_to_cli` holds. -/
inductive Move (web : Bytes → Option Bytes) where
  | join (cfd : Int) (sa : SockAddr) (gids : List Nat) (host : Host web)
      (worker : Client)
  | submit (groupId jobId : Int) (inputFile : Bytes) (system : Int)
  | work (cfd : Int) (n : Nat) (room : Bytes)
  | answer (cfd : Int) (n : Nat) (room storage : Bytes) (g : Option Groups)
  | leave (cfd : Int)

/-- The connection that a move opens. -/
def Move.opens {web : Bytes → Option Bytes} : Move web → Option Int
  | .join cfd _ _ _ _ => some cfd
  | .submit _ _ _ _ | .work _ _ _ | .answer _ _ _ _ _ | .leave _ => none

namespace Cluster

variable {web : Bytes → Option Bytes}

def setLink (C : Cluster web) (cfd : Int) (o : Option (Link web)) : Cluster web :=
  { C with link := Function.update C.link cfd o }

/-- The world has become `w`; what is sent on a connection
that is not open is lost. -/
def become (C : Cluster web) (w : World) : Cluster web where
  world := w
  link cfd := (C.link cfd).map fun l => l.after C.world w cfd

section Functions
variable (supply : JobSupply)

/-- `handle_data` of the server, for what a worker sends when it has joined;
`storage` is what `storage_buffer` of `sh_send_job_result_to_cli` holds. -/
def handleData (cfd : Int) (storage : Bytes) : Handler World := fun _ buf _ tlv w =>
  match Attribute.ofCode tlv.type with
  | some .algoMax =>
      match tlv.value with
      | none => .error .badAddr
      | some off => do
          let w ← w.step supply (.result cfd (buf.drop off))
          let s ← shSendJobResultToCli w.server cfd (buf.drop off) storage
          .ok { w with server := s }
  | some .algoError => w.step supply (.error cfd)
  | _ => .ok w

/-- What `receive_data` does with a chunk; `room` is what the array holds behind the
byte that is set. -/
def receiveChunk (cfd : Int) (storage chunk room : Bytes) (g : Option Groups)
    (w : World) : Except Halt World := do
  storeNul chunk.length
  let (_, walk) ← handleClientMessage (handleData supply cfd storage)
    (chunk ++ 0 :: room) chunk.length g w
  .ok walk.state

/-- Moves without the connection or the frames change nothing. -/
def step (C : Cluster web) : Move web → Except Halt (Cluster web)
  | .join cfd sa gids host worker => do
      let w ← C.world.step supply (.join cfd sa gids)
      .ok ((C.setLink cfd (some ⟨host, worker, [], []⟩)).become w)
  | .submit groupId jobId inputFile system => do
      let w ← C.world.step supply (.submit groupId jobId Attribute.algoMax.code
        inputFile system)
      .ok (C.become w)
  | .work cfd n room =>
      match C.link cfd with
      | none => .ok C
      | some l => do
          let (worker, out) ← l.worker.receiveChunk l.host.toMachine
            (l.requests.take n).flatten room
          .ok (C.setLink cfd (some ⟨l.host, worker, l.requests.drop n,
            l.replies ++ out⟩))
  | .answer cfd n room storage g =>
      match C.link cfd with
      | none => .ok C
      | some l => do
          let w ← receiveChunk supply cfd storage (l.replies.take n).flatten
            room g C.world
          .ok ((C.setLink cfd
            (some { l with replies := l.replies.drop n })).become w)
  | .leave cfd =>
      match C.link cfd with
      | none => .ok C
      | some _ => do
          let w ← C.world.step supply (.disconnect cfd)
          .ok ((C.setLink cfd none).become w)

def start (web : Bytes → Option Bytes) (config : Config) :
    Except Halt (Cluster web) := do
  let w ← World.start supply config
  .ok ⟨w, fun _ => none⟩

end Functions

/-- A descriptor is new, a job has an id of its own, and only frames
that came in are taken. -/
def Possible (C : Cluster web) : Move web → Prop
  | .join cfd _ _ _ _ => C.link cfd = none
  | .submit groupId jobId inputFile system =>
      C.world.FreshId (.submit groupId jobId Attribute.algoMax.code inputFile system)
  | .work cfd n _ => ∃ l ∈ C.link cfd, 0 < n ∧ n ≤ l.requests.length
  | .answer cfd n _ _ _ => ∃ l ∈ C.link cfd, 0 < n ∧ n ≤ l.replies.length
  | .leave cfd => C.link cfd ≠ none

instance (C : Cluster web) : ∀ m, Decidable (C.Possible m)
  | .join cfd _ _ _ _ => inferInstanceAs (Decidable (C.link cfd = none))
  | .submit groupId jobId inputFile system =>
      inferInstanceAs (Decidable (C.world.FreshId
        (.submit groupId jobId Attribute.algoMax.code inputFile system)))
  | .work cfd _ _ => inferInstanceAs (Decidable (∃ l ∈ C.link cfd, _ ∧ _))
  | .answer cfd _ _ _ _ => inferInstanceAs (Decidable (∃ l ∈ C.link cfd, _ ∧ _))
  | .leave cfd => inferInstanceAs (Decidable (C.link cfd ≠ none))

/-- From the start of the server the moves lead to `C`, one after the other. -/
def Run (supply : JobSupply) (config : Config) (ms : List (Move web))
    (C : Cluster web) : Prop :=
  ∃ C₀, start supply web config = .ok C₀ ∧ StepsMeet (step supply) Possible ms C₀ ∧
    runs (step supply) ms C₀ = .ok C

/-- A run on given moves is there if it can be carried out; `f` looks at its end. -/
theorem run_of_check {α : Type} {supply : JobSupply} {config : Config}
    {ms : List (Move web)} {f : Cluster web → α} {a : α}
    (h : ((start supply web config).toOption.bind fun C₀ =>
      if StepsMeet (step supply) Possible ms C₀
        then (runs (step supply) ms C₀).toOption.map f else none) = some a) :
    ∃ C, Run supply config ms C ∧ f C = a := by
  obtain ⟨C₀, C, hstart, hmeets, hruns, hC⟩ := Pyramid.run_of_check h
  exact ⟨C, ⟨C₀, hstart, hmeets, hruns⟩, hC⟩

/-! ## Who is connected -/

section Connected
variable {supply : JobSupply} {config : Config} {ms : List (Move web)}
  {C : Cluster web}

theorem become_link {w : World} {cfd : Int} (h : (C.become w).link cfd ≠ none) :
    C.link cfd ≠ none :=
  fun hnone => h (Option.map_eq_none_iff.mpr hnone)

theorem setLink_link {cfd fd : Int} {o : Option (Link web)}
    (h : (C.setLink cfd o).link fd ≠ none) :
    C.link fd ≠ none ∨ fd = cfd ∧ o ≠ none := by
  by_cases hfd : fd = cfd
  · rw [hfd] at h
    exact Or.inr ⟨hfd, fun hnone => h ((Function.update_self _ _ _).trans hnone)⟩
  · exact Or.inl fun hnone => h ((Function.update_of_ne hfd _ _).trans hnone)

theorem step_link {m : Move web} {C' : Cluster web} (hs : C.step supply m = .ok C')
    {fd : Int} (h : C'.link fd ≠ none) : C.link fd ≠ none ∨ m.opens = some fd := by
  cases m with
  | join cfd sa gids host worker =>
      obtain ⟨w, -, hs⟩ := bind_ok.mp hs
      cases hs
      exact (setLink_link (become_link h)).imp_right fun hfd =>
        congrArg some hfd.1.symm
  | submit groupId jobId inputFile system =>
      obtain ⟨w, -, hs⟩ := bind_ok.mp hs
      cases hs
      exact Or.inl (become_link h)
  | work cfd n room =>
      rw [step] at hs
      split at hs
      · cases hs
        exact Or.inl h
      · next l hl =>
        obtain ⟨⟨worker, out⟩, -, hs⟩ := bind_ok.mp hs
        cases hs
        rcases setLink_link h with hold | ⟨rfl, -⟩
        · exact Or.inl hold
        · exact Or.inl (by rw [hl]; exact Option.some_ne_none l)
  | answer cfd n room storage g =>
      rw [step] at hs
      split at hs
      · cases hs
        exact Or.inl h
      · next l hl =>
        obtain ⟨w, -, hs⟩ := bind_ok.mp hs
        cases hs
        rcases setLink_link (become_link h) with hold | ⟨rfl, -⟩
        · exact Or.inl hold
        · exact Or.inl (by rw [hl]; exact Option.some_ne_none l)
  | leave cfd =>
      rw [step] at hs
      split at hs
      · cases hs
        exact Or.inl h
      · obtain ⟨w, -, hs⟩ := bind_ok.mp hs
        cases hs
        rcases setLink_link (become_link h) with hold | ⟨-, hnone⟩
        · exact Or.inl hold
        · exact absurd rfl hnone

/-- Nobody has a connection who has not joined. -/
theorem runs_link {ms : List (Move web)} {C C' : Cluster web}
    (h : runs (step supply) ms C = .ok C') {fd : Int} (hfd : C'.link fd ≠ none) :
    C.link fd ≠ none ∨ fd ∈ ms.filterMap Move.opens := by
  induction ms generalizing C with
  | nil =>
      cases h
      exact Or.inl hfd
  | cons m ms ih =>
      obtain ⟨C₁, hstep, h⟩ := bind_ok.mp h
      rcases ih h with hold | hmem
      · rcases step_link hstep hold with hold | hopens
        · exact Or.inl hold
        · exact Or.inr (List.mem_filterMap.mpr ⟨m, List.mem_cons_self, hopens⟩)
      · obtain ⟨m', hm', hopens⟩ := List.mem_filterMap.mp hmem
        exact Or.inr
          (List.mem_filterMap.mpr ⟨m', List.mem_cons_of_mem _ hm', hopens⟩)

theorem Run.link (h : Run supply config ms C) {fd : Int} {l : Link web}
    (hl : C.link fd = some l) :
    fd ∈ ms.filterMap Move.opens := by
  obtain ⟨C₀, hstart, -, hruns⟩ := h
  obtain ⟨w, -, hstart⟩ := bind_ok.mp hstart
  cases hstart
  have hopen : C.link fd ≠ none := by
    rw [hl]
    exact Option.some_ne_none l
  exact (runs_link hruns hopen).resolve_left fun h => h rfl

end Connected

/-! ## What the server does with a packet -/

/-- `handle_data` of a packet. -/
def take (supply : JobSupply) (cfd : Int) (storage : Bytes) (w : World)
    (p : Packet) : Except Halt World :=
  match Attribute.ofCode p.type with
  | some .algoMax => do
      let w ← w.step supply (.result cfd p.value)
      let s ← shSendJobResultToCli w.server cfd (p.value ++ [0]) storage
      .ok { w with server := s }
  | some .algoError => w.step supply (.error cfd)
  | _ => .ok w

section Reads
variable {supply : JobSupply} {cfd : Int}

/-- Of a value only the number is looked at. -/
theorem step_result_append (w : World) (v : Bytes) {behind : Bytes}
    (h : EndsValue behind) :
    w.step supply (.result cfd (v ++ behind)) = w.step supply (.result cfd v) := by
  have hnumber := h.number v
  have hupdate : updateJobResult w.server cfd (v ++ behind)
      = updateJobResult w.server cfd v := by
    rw [updateJobResult, hnumber, updateJobResult]
  have hheard : w.heard cfd (v ++ behind) = w.heard cfd v := by
    rw [World.heard, hnumber, World.heard]
  rw [World.step, hupdate, hheard, World.step]

theorem reads_handleData (supply : JobSupply) (cfd : Int) (storage : Bytes) :
    Packet.Reads (handleData supply cfd storage) (take supply cfd storage) := by
  intro p hp pre post hpost g w
  have htext := hpost.text hp.nul
  have hend : cString (p.value ++ [0]) = .ok p.value := cString_append hp.nul
  have hrelay : ∀ s, shSendJobResultToCli s cfd (p.value ++ post) storage
      = shSendJobResultToCli s cfd (p.value ++ [0]) storage := by
    intro s
    rw [shSendJobResultToCli, htext, shSendJobResultToCli, hend]
  rw [handleData, take]
  simp only [Packet.drop_wire, step_result_append w p.value hpost, hrelay]

/-- What is done with a chunk is the fold over its packets. -/
theorem receiveChunk_eq {segs : List (List Packet)} (hne : segs ≠ [])
    (hplain : ∀ ps ∈ segs, ∀ p ∈ ps, p.Plain)
    (hlt : (Packet.stream segs).length < 1024) (storage room : Bytes)
    (g : Option Groups) (w : World) :
    receiveChunk supply cfd storage (Packet.stream segs) room g w
      = segs.flatten.foldlM (take supply cfd storage) w := by
  obtain ⟨hstore, hwalk⟩ :=
    (reads_handleData supply cfd storage).message hne hplain hlt room g w
  rw [receiveChunk, hstore, ok_bind, hwalk]
  cases segs.flatten.foldlM (take supply cfd storage) w with
  | error e => rfl
  | ok s => rfl

end Reads

end Cluster

end Pyramid
