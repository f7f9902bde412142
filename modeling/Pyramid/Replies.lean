/-
# `Pyramid.Replies` — what a CLI is told (`server/src/server_helper.c`)

The rest of the functions that show something, and `sh_parse_cmd` as a whole:
the call that the command asks for, and `GOOD_BYE` after it.  All of them get
the connection they answer on as an argument, and `SentTo` says that they use
no other.
-/
import Pyramid.Display
import Pyramid.Commands
import Pyramid.Deliveries

namespace Pyramid

/-! ## The functions -/

def shDisplayJobDetails (s : Server) (cfd jobId : Int) (storage : Bytes) :
    Except Halt Server :=
  showText s cfd cliData (ascii "\nJob Details for Job: " ++ decimal jobId
    ++ ascii ", cdf "
    ++ decimal cfd ++ ascii "\n") storage

/-- The text is the number of `ALGO_ERROR`. -/
def shSendJobFailureToCli (s : Server) (cliFd : Int) (storage : Bytes) :
    Except Halt Server :=
  showText s cliFd Attribute.algoError.code (decimal Attribute.algoError.code)
    storage

/-- `sh_execute_job` executes nothing: it sends the job's data, under
the number of its task. -/
def shExecuteJob (s : Server) (cfd jobId task multicastGroupid : Int)
    (file storage : Bytes) :
    Except Halt Server :=
  showText s cfd task (ascii "\t Job   : " ++ decimal jobId ++ ascii " \n\t task  :"
    ++ decimal task
    ++ ascii " \n\t group :" ++ decimal multicastGroupid
      ++ ascii " \n\t file  : " ++ file
    ++ ascii " \n") storage

/-- What `strncpy` keeps of a string.  One that fills the array is not followed
past its end. -/
def strncpy (room : Nat) (s : Bytes) : Bytes := s.take room

def shSetRepository (s : Server) (cfd : Int)
    (repository path user pwd storage : Bytes) :
    Except Halt Server :=
  let config : Config :=
    { centralRepoIp := strncpy 20 repository
      jobDirectory := strncpy 500 path
      username := strncpy 20 user
      passwd := strncpy 20 pwd }
  showText { s with config := config } cfd cliData
    (ascii "\nCentral repository set to " ++ config.centralRepoIp ++ ascii " ")
    storage

/-- Conversion of an `int` to `char`. -/
def toInt8 (x : Int) : Int := (x + 128) % 256 - 128

/-- `job_timeout` is a `char` that nothing else reads. -/
def shSetJobTimeout (s : Server) (cfd timeout : Int) (storage : Bytes) :
    Except Halt Server :=
  showText s cfd cliData (ascii "\nJob timeout unset to " ++ decimal (toInt8 timeout)
    ++ ascii " ")
    storage

def shSetJobQueueSize (s : Server) (cfd size : Int) (storage : Bytes) :
    Except Halt Server :=
  showText s cfd cliData (ascii "\nJob Queue size set to " ++ decimal size
    ++ ascii " ") storage

/-- The call itself; a job is not started but queued. -/
def ShCall.run (s : Server) (cfd : Int) (storage : Bytes) :
    ShCall → Except Halt Server
  | .displayAllMulticastGroups => shDisplayAllMulticastGroups s cfd storage
  | .displayAllClients => shDisplayAllClients s cfd storage
  | .displayJobDetails jobId => shDisplayJobDetails s cfd jobId storage
  | .displayJobResults jobId => do
      let (_, s) ← shDisplayJobResults s cfd jobId
      .ok s
  | .setRepository repository path user pwd =>
      shSetRepository s cfd repository path user pwd storage
  | .setJobTimeout timeout => shSetJobTimeout s cfd timeout storage
  | .setJobQueueSize size => shSetJobQueueSize s cfd size storage
  | .submitJob _ | .setLoggingLevel | .invalidOpcode => .ok s

/-- Where the repository is after the call. -/
def ShCall.config (config : Config) : ShCall → Config
  | .setRepository repository path user pwd =>
      { centralRepoIp := strncpy 20 repository
        jobDirectory := strncpy 500 path
        username := strncpy 20 user
        passwd := strncpy 20 pwd }
  | .displayAllMulticastGroups | .displayAllClients | .displayJobDetails
    _ | .displayJobResults _
  | .setJobTimeout _ | .setJobQueueSize _ | .submitJob
    _ | .setLoggingLevel | .invalidOpcode => config

/-- What a call gives the pool to do. -/
def ShCall.work : ShCall → List SubmitJob
  | .submitJob job => [job]
  | .displayAllMulticastGroups | .displayAllClients | .displayJobDetails
    _ | .displayJobResults _
  | .setRepository _ _ _ _ | .setJobTimeout _ | .setJobQueueSize _ | .setLoggingLevel
  | .invalidOpcode => []

/-- The string in `buf` when `strtok` has put an end mark after the first token. -/
def firstToken (buf : Bytes) : Bytes :=
  buf.takeWhile (· = 124) ++ (buf.dropWhile (· = 124)).takeWhile (· ≠ 124)

/-- `sh_parse_cmd`, with what it gives the pool to do. -/
def shHandleCmd (s : Server) (cfd : Int) (buff storage : Bytes) :
    Except Halt (List SubmitJob × Server) := do
  let call ← shParseCmd cfd buff
  let s ← call.run s cfd storage
  let s ← shSendEncodedData s cfd (firstToken buff ++ [0]) Attribute.goodBye.code
  .ok (call.work, s)

/-! ## Nobody else hears of it -/

/-- Between `s` and `s'` frames of the types `types` were sent to `fd`, and nothing
else happened. -/
def SentTo (fd : Int) (types : List Int) (s s' : Server) : Prop :=
  ∃ fs, s' = { s with sent := s.sent ++ fs } ∧ ∀ f ∈ fs, f.fd = fd ∧
    ∃ t ∈ types, f.Typed t

namespace SentTo

variable {fd type : Int} {types : List Int} {s s' s'' : Server}

theorem refl (fd : Int) (types : List Int) (s : Server) : SentTo fd types s s :=
  ⟨[], by rw [List.append_nil], fun f hf => absurd hf List.not_mem_nil⟩

theorem trans (h : SentTo fd types s s') (h' : SentTo fd types s' s'') :
    SentTo fd types s s'' := by
  obtain ⟨fs, rfl, hfs⟩ := h
  obtain ⟨gs, rfl, hgs⟩ := h'
  refine ⟨fs ++ gs, by rw [List.append_assoc], fun f hf => ?_⟩
  rcases List.mem_append.mp hf with hf | hf
  · exact hfs f hf
  · exact hgs f hf

theorem send {data : Bytes} (ht : type ∈ types)
    (h : shSendEncodedData s fd data type = .ok s') :
    SentTo fd types s s' := by
  obtain ⟨fs, hfs, rfl⟩ := shSendEncodedData_frames h
  refine ⟨fs, rfl, fun f hf => ?_⟩
  obtain ⟨hfd, htyped⟩ := framesOf_fd hfs f hf
  exact ⟨hfd, type, ht, htyped⟩

section Shown
variable {d d' : Display}

theorem tryToSend {text : Bytes} (ht : type ∈ types)
    (h : shTryToSendData fd type text d = .ok d') :
    SentTo fd types d.server d'.server := by
  have hstored : ∀ {d₁ : Display} {src : Except Halt Bytes},
      (src >>= fun src => poke d₁.storage d₁.tc (src ++ [0]) >>= fun storage =>
        .ok { d₁ with storage := storage, tc := d₁.tc + src.length }) = .ok d' →
      d'.server = d₁.server := by
    intro d₁ src h
    obtain ⟨src, -, h⟩ := bind_ok.mp h
    obtain ⟨storage, -, h⟩ := bind_ok.mp h
    cases h
    rfl
  by_cases hroom : 1024 ≤ d.tc + text.length + 1
  · simp only [shTryToSendData, hroom, if_true] at h
    obtain ⟨s₁, hsend, h⟩ := bind_ok.mp h
    rw [hstored h]
    exact send ht hsend
  · simp only [shTryToSendData, hroom, if_false] at h
    rw [hstored h]
    exact refl fd types _

theorem rest (ht : type ∈ types) (h : d.rest fd type = .ok s') :
    SentTo fd types d.server s' := by
  unfold Display.rest at h
  split at h
  · cases h
    exact refl fd types _
  · exact send ht h

theorem text {t storage : Bytes} (ht : type ∈ types)
    (h : showText s fd type t storage = .ok s') :
    SentTo fd types s s' := by
  obtain ⟨d, hshow, h⟩ := bind_ok.mp h
  exact (tryToSend ht hshow).trans (rest ht h)

end Shown

theorem jobResults {jobId : Int} {reply : JobReply} (ht : cliData ∈ types)
    (h : shDisplayJobResults s fd jobId = .ok (reply, s')) :
    SentTo fd types s s' := by
  obtain ⟨r, -, h⟩ := bind_ok.mp h
  cases r with
  | none =>
      obtain ⟨reply', -, h⟩ := bind_ok.mp h
      obtain ⟨s₁, hsend, h⟩ := bind_ok.mp h
      cases h
      exact send ht hsend
  | some j =>
      obtain ⟨v, -, h⟩ := bind_ok.mp h
      obtain ⟨reply', -, h⟩ := bind_ok.mp h
      obtain ⟨s₁, hsend, h⟩ := bind_ok.mp h
      cases h
      exact send ht hsend

/-- At most the address of the repository is set before. -/
theorem call {storage : Bytes} {c : ShCall} (ht : cliData ∈ types)
    (h : c.run s fd storage = .ok s') :
    SentTo fd types { s with config := c.config s.config } s' := by
  cases c with
  | displayAllMulticastGroups =>
      obtain ⟨d, hshow, h⟩ := bind_ok.mp h
      have hshown : SentTo fd types s d.server :=
        eachMembership_keeps (R := fun d d' => SentTo fd types d.server d'.server)
          (fun d => refl fd types d.server) trans (tryToSend ht) _ _ hshow
      exact hshown.trans (rest ht h)
  | displayAllClients =>
      obtain ⟨d, hshow, h⟩ := bind_ok.mp h
      have hshown : SentTo fd types s d.server :=
        eachClient_keeps (R := fun d d' => SentTo fd types d.server d'.server)
          (fun d => refl fd types d.server) trans (tryToSend ht) _ _ hshow
      exact hshown.trans (rest ht h)
  | displayJobResults jobId =>
      obtain ⟨⟨reply, s₁⟩, hshow, h⟩ := bind_ok.mp h
      cases h
      exact jobResults ht hshow
  | setRepository _ _ _ _ | displayJobDetails _ | setJobTimeout _
  | setJobQueueSize _ =>
      exact text ht h
  | submitJob _ | setLoggingLevel | invalidOpcode =>
      cases h
      exact refl fd types s

theorem command {buff storage : Bytes} {work : List SubmitJob}
    (h : shHandleCmd s fd buff storage = .ok (work, s')) :
    ∃ c, shParseCmd fd buff = .ok c ∧
      SentTo fd [cliData, Attribute.goodBye.code] { s with
        config := c.config s.config } s' := by
  obtain ⟨c, hparse, h⟩ := bind_ok.mp h
  obtain ⟨s₁, hcall, h⟩ := bind_ok.mp h
  obtain ⟨s₂, hsend, h⟩ := bind_ok.mp h
  cases h
  exact ⟨c, hparse, (call List.mem_cons_self hcall).trans
    (send (List.mem_cons_of_mem _ List.mem_cons_self) hsend)⟩

end SentTo

/-! ## The answer to a value -/

/-- Of what is sent between `s` and `s'`, the last frames are the
text `[value]` for `fd`. -/
def Server.Relays (s s' : Server) (fd : Int) (value : Bytes) : Prop :=
  ∃ text shown data fs before, cString value = .ok text ∧
    cString (snprintf 1024 (ascii "[" ++ text ++ ascii "]")) = .ok shown ∧
    cString data = .ok shown ∧
    framesOf fd data cliData = .ok fs ∧ s'.sent = s.sent ++ before ++ fs ∧
    ∃ f ∈ fs, (f.type : Int) = cliData

section Relay
variable {s s' : Server} {fd type : Int}

/-- The text is sent from the buffer that it was stored in. -/
theorem showText_frames {text storage : Bytes}
    (h : showText s fd type text storage = .ok s') :
    ∃ shown, cString (snprintf 1024 text) = .ok shown ∧
      (shown ≠ [] → ∃ data fs before, cString data = .ok shown
        ∧ framesOf fd data type = .ok fs ∧ s'.sent = s.sent ++ before ++ fs) := by
  obtain ⟨d, htry, h⟩ := bind_ok.mp h
  obtain ⟨d₁, hd₁, htry⟩ : ∃ d₁ : Display,
      (d₁.tc = 0 ∧ ∃ before, d₁.server.sent = s.sent ++ before) ∧
      (cString (snprintf 1024 text) >>= fun src => poke d₁.storage d₁.tc (src ++ [0])
        >>= fun storage =>
        .ok { d₁ with storage := storage, tc := d₁.tc + src.length }) = .ok d := by
    by_cases hroom : 1024 ≤ 0 + text.length + 1
    · simp only [shTryToSendData, hroom, if_true] at htry
      obtain ⟨s₁, hsend, htry⟩ := bind_ok.mp htry
      obtain ⟨fs, -, rfl⟩ := shSendEncodedData_frames hsend
      exact ⟨⟨{ s with sent := s.sent ++ fs }, storage, 0⟩, ⟨rfl, fs, rfl⟩, htry⟩
    · simp only [shTryToSendData, hroom, if_false] at htry
      exact ⟨⟨s, storage, 0⟩, ⟨rfl, [], (List.append_nil _).symm⟩, htry⟩
  obtain ⟨htc, before, hbefore⟩ := hd₁
  obtain ⟨shown, hshown, htry⟩ := bind_ok.mp htry
  obtain ⟨buf, hpoke, htry⟩ := bind_ok.mp htry
  cases htry
  refine ⟨shown, hshown, fun hne => ?_⟩
  have hpos := List.length_pos_of_ne_nil hne
  rw [Display.rest, if_neg (by simp only [htc]; omega)] at h
  obtain ⟨fs, hfs, rfl⟩ := shSendEncodedData_frames h
  refine ⟨buf, fs, before, ?_, hfs, ?_⟩
  · have hnul : 0 ∉ shown := by
      intro hmem
      rw [(cString_ok.mp hshown).2] at hmem
      exact absurd (List.all_eq_true.mp List.all_takeWhile 0 hmem) (by decide)
    simp only [htc, poke] at hpoke
    split at hpoke
    · cases hpoke
      rw [List.take_zero, List.nil_append, List.append_assoc, List.singleton_append]
      exact cString_append hnul
    · cases hpoke
  · show d₁.server.sent ++ fs = _
    rw [hbefore]

theorem shSendJobResultToCli_relays {value storage : Bytes}
    (h : shSendJobResultToCli s fd value storage = .ok s') :
    s.Relays s' fd value := by
  obtain ⟨text, htext, h⟩ := bind_ok.mp h
  obtain ⟨shown, hshown, hsent⟩ := showText_frames h
  have hne : shown ≠ [] := by
    rw [(cString_ok.mp hshown).2]
    exact List.cons_ne_nil _ _
  obtain ⟨data, fs, before, hdata, hfs, hs'⟩ := hsent hne
  exact ⟨text, shown, data, fs, before, htext, hshown, hdata, hfs, hs',
    framesOf_some hfs hdata hne⟩

end Relay

end Pyramid
