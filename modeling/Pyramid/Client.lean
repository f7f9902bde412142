/-
# `Pyramid.Client` — a worker (`client/src/client.c`)

A worker that is sent the path of a piece downloads the file with `wget`, has
`find_max` of the library write its largest number into another file, and
sends what is in there back.  When any of this fails it sends `ALGO_ERROR`.

What the shell does with a command, and which memory there is, are a `Machine`.
The result of `system` is not looked at: that a download has failed shows in the
file that `wget` leaves, which is empty then (`Downloads`).

`handleServerMessage` is the walk over a chunk that `handleClientMessage` is, with
no `g_groups`; on a chunk of whole segments it does what `takeAll` does, by
recursion over the packets.
-/
import Pyramid.FileNames
import Pyramid.Handlers
import Pyramid.Histories
import Pyramid.Largest
import Pyramid.Replies
import Pyramid.Sending

namespace Pyramid

/-! ## The functions -/

/-- The files of the working directory: what they hold, and which can be written. -/
structure Disk where
  file : Bytes → Option Bytes
  writable : Bytes → Bool

def Disk.write (d : Disk) (name text : Bytes) : Disk :=
  { d with file := Function.update d.file name (some text) }

structure Machine where
  shell : Bytes → Disk → Disk
  memory : Allocator

structure Client where
  disk : Disk
  process : Process

namespace Client

section Functions
variable (m : Machine)

/-- `client_get_file_from_ctrl_repo`, which always returns `TRUE`. -/
def clientGetFileFromCtrlRepo (cntrlRepoPath localPath : Bytes) (w : Client) :
    Except Halt Client := do
  let command ← cString (snprintf maxSshCmdSize
    (ascii "wget http://" ++ cntrlRepoPath ++ ascii " -O " ++ localPath))
  .ok { w with disk := m.shell command w.disk }

/-- `main_api`; `FIND_MAX` is the only id below `MAX_API`. -/
def mainApi (input output : Bytes) (id : Nat) (w : Client) :
    Except Halt (ApiStatus × Client) :=
  if id = 0 then do
    let files : Files :=
      ⟨w.disk.file input, if w.disk.writable output then some [] else none⟩
    let (status, written, process) ← findMax m.memory files w.process
    .ok (status, match written with
      | none => { w with process := process }
      | some text => ⟨w.disk.write output text, process⟩)
  else .ok (.invalidId, w)

/-- `client_open_file_to_read_max`, with the string in `result`
if it returns `TRUE`. -/
def clientOpenFileToReadMax (filename : Bytes) (w : Client) :
    Option Bytes × Client :=
  match fopen (w.disk.file filename) w.process with
  | (none, process) => (none, { w with process := process })
  | (some file, process) =>
      let (line, _) := fgets 99 file
      (if line = [] then none else some line, { w with process := fclose process })

/-- The four calls of `handle_exec_data` for `ALGO_MAX`, with what is in `buffer` if
all of them succeed.  A path that fills `buffer` is read past its end. -/
def execMax (value : Bytes) (w : Client) : Except Halt (Option Bytes × Client) := do
  let path ← cString (strncpy 100 value ++ List.replicate (100 - value.length) 0)
  let (found, inFile, outFile) ← clientGenerateInOutFilenamesFromPath 100 path
  if found then do
    let input ← cString inFile
    let output ← cString outFile
    let w ← clientGetFileFromCtrlRepo m value input w
    let (status, w) ← mainApi m input output 0 w
    if status = .success then .ok (clientOpenFileToReadMax output w)
      else .ok (none, w)
  else .ok (none, w)

/-- `send_data`, where every `send` takes what it is given -/
def sendData (buffer : Bytes) (algo : Int) : Except Halt Bytes :=
  sendDataBy (fun _ n => n) (buffer.length + 1) buffer algo

def clientErrorType : Bytes := ascii "\nClientErrorType\n"

/-- The `ALGO_MAX` case of `handle_exec_data`, with what it sends. -/
def execAlgoMax (value : Bytes) (w : Client) :
    Except Halt (Client × List Bytes) := do
  match ← execMax m value w with
  | (some text, w) => do
      let frame ← sendData (text ++ [0]) Attribute.algoMax.code
      .ok (w, [frame])
  | (none, w) => do
      let frame ← sendData (clientErrorType ++ [0]) Attribute.algoError.code
      .ok (w, [frame])

/-- The copy of at most 100 bytes into `buffer`, which is made
whatever the type is. -/
def copyValue (src : Bytes) : Except Halt Unit :=
  if 0 ∈ src.take 100 ∨ 100 ≤ src.length then .ok () else .error .outOfBounds

/-- `handle_exec_data`; the other types are printed. -/
def handleExecData (buf : Bytes) (tlv : Tlv) (w : Client) :
    Except Halt (Client × List Bytes) :=
  match tlv.value with
  | none => .error .badAddr
  | some off => do
      copyValue (buf.drop off)
      match Attribute.ofCode tlv.type with
      | some .algoMax => do
          let value ← cString (buf.drop off)
          w.execAlgoMax m value
      | _ => .ok (w, [])

/-- `handle_exec_data` behind `decode`; what was sent is kept. -/
def onTlv : Handler (Client × List Bytes) := fun _ buf _ tlv s => do
  let (w, frames) ← s.1.handleExecData m buf tlv
  .ok (w, s.2 ++ frames)

def handleServerMessage (buf : Bytes) (recvLen : Int) (w : Client) :
    Except Halt (Client × List Bytes) := do
  let (_, walk) ← handleClientMessage (onTlv m) buf recvLen none (w, [])
  .ok walk.state

/-- What is done with a chunk; `room` is what the array holds behind
the byte that is set. -/
def receiveChunk (chunk room : Bytes) (w : Client) :
    Except Halt (Client × List Bytes) := do
  storeNul chunk.length
  w.handleServerMessage m (chunk ++ 0 :: room) chunk.length

/-- `receive_exec_request`, with what `recv` returns, one call after the other; with
no more of it the call blocks. -/
def receiveExecRequest : List (RecvResult × Bytes) → Client →
    Except Halt (Client × List Bytes)
  | [], w => .ok (w, [])
  | (.data chunk, room) :: rest, w => do
      let (w, frames) ← w.receiveChunk m chunk room
      let (w, more) ← receiveExecRequest rest w
      .ok (w, frames ++ more)
  | (r, _) :: _, w => do
      storeNul r.count
      .ok (w, [])

end Functions

/-! ## One request -/

/-- The letters, digits and signs that a shell leaves alone. -/
def plainByte (c : UInt8) : Bool :=
  (45 ≤ c && c ≤ 58) || (65 ≤ c && c ≤ 90) || c == 95 || (97 ≤ c && c ≤ 122)

def Unquoted (s : Bytes) : Prop := ∀ c ∈ s, plainByte c = true

instance (s : Bytes) : Decidable (Unquoted s) :=
  inferInstanceAs (Decidable (∀ c ∈ s, _))

/-- A packet that is a request. -/
def IsRequest (p : Packet) : Bool := p.type == Attribute.algoMax.code

/-- `handle_exec_data` of a packet; what was sent before is kept. -/
def take (m : Machine) (s : Client × List Bytes) (p : Packet) :
    Except Halt (Client × List Bytes) :=
  if IsRequest p then do
    let (w, frames) ← s.1.execAlgoMax m p.value
    .ok (w, s.2 ++ frames)
  else .ok s

/-- `wget -O` leaves the file that `web` has under the path, or an empty one. -/
def Downloads (web : Bytes → Option Bytes) (shell : Bytes → Disk → Disk) : Prop :=
  ∀ path name d, Unquoted path → Unquoted name → name ≠ [] → ∃ file,
    (shell (ascii "wget http://" ++ path ++ ascii " -O " ++ name) d).file name
      = some file ∧
      (file = [] ∨ web path = some file)

theorem algoMax_lt : Attribute.algoMax.code < 65536 := by decide

theorem algoError_lt : Attribute.algoError.code < 65536 := by decide

/-- What is sent when a call fails: 17 times the first four
characters of the text. -/
def errorPacket : Packet :=
  ⟨Attribute.algoError.code, (List.replicate 17 [105, 108, 67, 10]).flatten,
    algoError_lt, by decide⟩

/-- What is sent for this number. -/
def maxPacket (max : Int) : Packet where
  type := Attribute.algoMax.code
  value := decimal max ++ [10]
  typed := algoMax_lt
  short := by
    have := decimal_length max
    rw [List.length_append, List.length_singleton]
    omega

theorem sendData_error :
    sendData (clientErrorType ++ [0]) Attribute.algoError.code
      = .ok (Packet.segment [errorPacket]) := by
  decide +kernel

theorem sendData_text {text : Bytes} (hne : text ≠ []) (hle : text.length ≤ 1016)
    (hnul : 0 ∉ text) :
    ∃ f : Frame, f.attr = .algoMax ∧ f.value = text ∧
      sendData (text ++ [0]) Attribute.algoMax.code = .ok (segment [f]) := by
  have hpos := List.length_pos_of_ne_nil hne
  obtain ⟨buf, f, hattr, hvalue, henc, hseg⟩ :=
    @encodeType_text .algoMax (text ++ [0]) _
    (by decide) hpos hle (by rw [List.length_append]; omega)
  rw [List.take_left] at hvalue
  refine ⟨f, hattr, hvalue, ?_⟩
  have hsend := @sendLoop_once (fun _ n => n) (text ++ [0]) text _ (text.length + 1)
    _ _ hne henc
    (show text.length ≤ 8 + text.length by omega) rfl
  rw [sendData, sendDataBy, sendText, cString_append hnul, ok_bind,
    List.length_append]
  exact hsend.trans (congrArg Except.ok hseg)

/-- A number is sent as its `maxPacket`. -/
theorem sendData_max (max : Int) :
    sendData ((decimal max ++ [10]) ++ [0]) Attribute.algoMax.code
      = .ok (Packet.segment [maxPacket max]) := by
  have hlen := decimal_length max
  have hnul : (0 : UInt8) ∉ decimal max ++ [10] := by
    intro hmem
    rcases List.mem_append.mp hmem with hmem | hmem
    · exact decimal_nul max hmem
    · exact absurd hmem (by decide)
  obtain ⟨f, hattr, hvalue, hsend⟩ := @sendData_text (decimal max ++ [10])
    (List.append_ne_nil_of_right_ne_nil _ (by decide))
    (by rw [List.length_append]; simp; omega) hnul
  have hpacket : f.packet = maxPacket max := by
    simp only [Frame.packet, maxPacket, hattr, hvalue]
  rw [hsend, segment, List.map_singleton, hpacket]

/-- What `find_max` has written when it succeeds. -/
theorem findMax_success {a : Allocator} {files : Files} {p q : Process}
    {written : Option Bytes} (h : findMax a files p = .ok (.success, written, q)) :
    ∃ file max, files.input = some file ∧ file ≠ [] ∧
      IsGreatest {x | x ∈ asInts file} max ∧
      written = some (decimal max ++ [10]) ∧ q = p := by
  cases hinput : files.input with
  | none =>
      cases (findMax_unopened (Or.inl hinput)).symm.trans h
  | some file =>
      by_cases hzero : p.streams = 0
      · cases (findMax_unopened (Or.inr hzero)).symm.trans h
      by_cases hfile : file = []
      · rw [hfile] at hinput
        cases (findMax_empty hinput hzero).symm.trans h
      by_cases herr : p.erange = true
      · cases (findMax_stale hinput hfile hzero herr).symm.trans h
      rw [Bool.not_eq_true] at herr
      by_cases hfits : HasPlaces a (fgetsLines file)
      case neg =>
        obtain ⟨e, he⟩ := findMax_overrun hinput hfits
        cases (he p hzero herr).symm.trans h
      by_cases hlarge : ∃ line ∈ fgetsLines file, TooLarge line
      · cases (findMax_tooLarge hinput hzero herr hfits hlarge).symm.trans h
      obtain ⟨max, hmax, hrun⟩ := findMax_all hinput hfile hzero herr hfits
        fun line hline hbad => hlarge ⟨line, hline, hbad⟩
      cases houtput : files.output with
      | none =>
          rw [houtput] at hrun
          cases hrun.symm.trans h
      | some bytes =>
          rw [houtput] at hrun
          cases hrun.symm.trans h
          exact ⟨file, max, rfl, hfile, hmax, rfl, rfl⟩

/-- What was written is read back whole. -/
theorem open_written {w : Client} {name : Bytes} {max : Int}
    (hfile : w.disk.file name = some (decimal max ++ [10])) {read : Option Bytes}
    {w' : Client} (h : clientOpenFileToReadMax name w = (read, w')) :
    (w.process.streams = 0 ∧ read = none) ∨
      (w.process.streams ≠ 0 ∧ read = some (decimal max ++ [10]) ∧ w' = w) := by
  have hlen := decimal_length max
  have hnewline : (10 : UInt8) ∉ decimal max := by
    intro hmem
    rcases decimal_bytes max 10 hmem with hten | hten
    · exact absurd hten (by decide)
    · exact absurd hten (by decide)
  have hread := fgets_newline (decimal max) [] hnewline 99 (by omega)
  rw [clientOpenFileToReadMax, hfile, fopen] at h
  by_cases hzero : w.process.streams = 0
  · simp only [if_pos hzero] at h
    cases h
    exact Or.inl ⟨hzero, rfl⟩
  · simp only [if_neg hzero, hread] at h
    rw [if_neg (List.append_ne_nil_of_right_ne_nil _ (by decide))] at h
    cases h
    refine Or.inr ⟨hzero, rfl, ?_⟩
    have hback : fclose { w.process with streams := w.process.streams - 1 }
        = w.process := by
      cases w with
      | mk d p => cases p with
        | mk e n => exact congrArg (Process.mk e) (Nat.sub_one_add_one hzero)
    rw [hback]

theorem Unquoted.nul {s : Bytes} (h : Unquoted s) : 0 ∉ s :=
  fun hmem => absurd (h 0 hmem) (by decide)

/-- `buffer` has an end only if the path is shorter than it. -/
theorem buffer_ok {value path : Bytes} (hnul : 0 ∉ value) :
    cString (strncpy 100 value ++ List.replicate (100 - value.length) 0) = .ok path ↔
      value.length < 100 ∧ path = value := by
  by_cases hlen : value.length < 100
  · obtain ⟨k, hk⟩ := Nat.exists_eq_add_of_lt hlen
    have hroom : 100 - value.length = k + 1 := by omega
    rw [hroom, List.replicate_succ, strncpy, List.take_of_length_le (by omega),
      cString_append hnul]
    constructor
    · intro h
      exact ⟨hlen, (Except.ok.inj h).symm⟩
    · rintro ⟨-, rfl⟩
      rfl
  · have hroom : 100 - value.length = 0 := by omega
    refine iff_of_false (fun h => ?_) fun h => hlen h.1
    rw [hroom, List.replicate_zero, List.append_nil] at h
    exact hnul (List.mem_of_mem_take (cString_ok.mp h).1)

section Request
variable {m : Machine} {web : Bytes → Option Bytes} {value : Bytes} {w w' : Client}

/-- The calls of a request whose path has a last component. -/
theorem execMax_named {name : Bytes} (hvalue : Unquoted value)
    (hlen : value.length < 100) (hname : (components value).getLast? = some name) :
    ∃ output d,
      d = m.shell (ascii "wget http://" ++ value ++ ascii " -O " ++ name) w.disk ∧
      execMax m value w = (do
        let (status, w) ← mainApi m name output 0 ⟨d, w.process⟩
        if status = .success then .ok (clientOpenFileToReadMax output w)
          else .ok (none, w)) := by
  have hbound := component_bound hname
  have hclean := hbound.2 hvalue.nul
  have houtput : (0 : UInt8) ∉ outF ++ name := by
    intro hmem
    rcases List.mem_append.mp hmem with hmem | hmem
    · exact absurd hmem (by decide)
    · exact hclean hmem
  have hcommand : (0 : UInt8) ∉ ascii "wget http://" ++ value ++ ascii " -O "
      ++ name := by
    simp only [List.mem_append, not_or]
    exact ⟨⟨⟨by decide, hvalue.nul⟩, by decide⟩, hclean⟩
  have hroom : (ascii "wget http://" ++ value ++ ascii " -O " ++ name).length
      ≤ maxSshCmdSize - 1 := by
    have hget : (ascii "wget http://").length = 12 := rfl
    have hflag : (ascii " -O ").length = 4 := rfl
    simp only [List.length_append, hget, hflag, maxSshCmdSize]
    omega
  refine ⟨(outF ++ name).take 99, _, rfl, ?_⟩
  rw [execMax, (buffer_ok hvalue.nul).mpr ⟨hlen, rfl⟩, ok_bind,
    generate_name hname (by omega), ok_bind]
  simp only [if_true]
  rw [cString_snprintf (by decide) hclean, List.take_of_length_le (by omega),
    ok_bind, cString_snprintf (by decide) houtput, ok_bind,
    clientGetFileFromCtrlRepo, cString_snprintf (by decide) hcommand,
    List.take_of_length_le hroom, ok_bind, ok_bind]

theorem execMax_nameless (hvalue : Unquoted value) (hlen : value.length < 100)
    (hname : (components value).getLast? = none) :
    execMax m value w = .ok (none, w) := by
  obtain ⟨zeroed, hgenerate⟩ := generate_none hname
  rw [execMax, (buffer_ok hvalue.nul).mpr ⟨hlen, rfl⟩, ok_bind, hgenerate, ok_bind]
  rfl

theorem execMax_long (hvalue : Unquoted value) (hlen : ¬ value.length < 100)
    {r : Option Bytes × Client} :
    execMax m value w ≠ .ok r := by
  intro h
  obtain ⟨path, hpath, -⟩ := bind_ok.mp h
  exact hlen ((buffer_ok hvalue.nul).mp hpath).1

theorem Unquoted.component {name : Bytes} (h : Unquoted value)
    (hname : (components value).getLast? = some name) : Unquoted name := fun c hc =>
  h c (( tokens_isInfix rfl name (List.mem_of_getLast? hname)).subset hc)

theorem component_ne_nil {name : Bytes}
    (hname : (components value).getLast? = some name) : name ≠ [] := by
  have hmem := (List.mem_filter.mp (List.mem_of_getLast? hname)).2
  exact of_decide_eq_true hmem

theorem mainApi_success {name output : Bytes} {d : Disk} {p : Process}
    (h : mainApi m name output 0 ⟨d, p⟩ = .ok (.success, w')) :
    ∃ file max, d.file name = some file ∧ file ≠ [] ∧
      IsGreatest {x | x ∈ asInts file} max ∧
      w' = ⟨d.write output (decimal max ++ [10]), p⟩ := by
  rw [mainApi, if_pos rfl] at h
  obtain ⟨⟨status, written, q⟩, hrun, h⟩ := bind_ok.mp h
  obtain ⟨hstatus, hw⟩ := Prod.mk.inj (Except.ok.inj h)
  have hstatus' : status = .success := hstatus
  rw [hstatus'] at hrun
  obtain ⟨file, max, hfile, hne, hmax, rfl, rfl⟩ := findMax_success hrun
  exact ⟨file, max, hfile, hne, hmax, hw.symm⟩

/-- What a request that succeeds has read is the largest number of the file that was
downloaded. -/
theorem execMax_reads (hdown : Downloads web m.shell) (hvalue : Unquoted value)
    {read : Option Bytes} (h : execMax m value w = .ok (read, w')) :
    read = none ∨ ∃ file max, web value = some file ∧
      IsGreatest {x | x ∈ asInts file} max ∧
      read = some (decimal max ++ [10]) := by
  by_cases hlen : value.length < 100
  case neg => exact absurd h (execMax_long hvalue hlen)
  cases hname : (components value).getLast? with
  | none =>
      cases (execMax_nameless hvalue hlen hname).symm.trans h
      exact Or.inl rfl
  | some name =>
      obtain ⟨output, d, hd, hrun⟩ :=
        execMax_named (m := m) (w := w) hvalue hlen hname
      rw [hrun] at h
      obtain ⟨⟨status, w₁⟩, hmain, h⟩ := bind_ok.mp h
      by_cases hstatus : status = .success
      case neg =>
        simp only [if_neg hstatus] at h
        cases h
        exact Or.inl rfl
      simp only [if_pos hstatus] at h
      rw [hstatus] at hmain
      obtain ⟨file, max, hfile, hne, hmax, rfl⟩ := mainApi_success hmain
      obtain ⟨file', hfile', hserved⟩ := hdown value name w.disk hvalue
        (hvalue.component hname) (component_ne_nil hname)
      rw [hd] at hfile
      cases hfile.symm.trans hfile'
      have hwritten : (d.write output (decimal max ++ [10])).file output
          = some (decimal max ++ [10]) :=
        Function.update_self _ _ _
      rcases open_written hwritten (Except.ok.inj h) with ⟨-, hnone⟩ | ⟨-, hread, -⟩
      · exact Or.inl hnone
      · exact Or.inr ⟨file, max, hserved.resolve_left hne, hmax, hread⟩

/-- The request is answered with the largest number of the file that
`web` has under its path. -/
def Solves (web : Bytes → Option Bytes) (p : Packet) (frame : Bytes) : Prop :=
  ∃ file max, web p.value = some file ∧ IsGreatest {x | x ∈ asInts file} max ∧
    frame = Packet.segment [maxPacket max]

/-- The request is answered so, or with `ALGO_ERROR`. -/
def Answers (web : Bytes → Option Bytes) (p : Packet) (frame : Bytes) : Prop :=
  frame = Packet.segment [errorPacket] ∨ Solves web p frame

theorem execAlgoMax_answers (hdown : Downloads web m.shell) {p : Packet}
    (hp : Unquoted p.value) {frames : List Bytes}
    (h : execAlgoMax m p.value w = .ok (w', frames)) :
    ∃ frame, frames = [frame] ∧ Answers web p frame := by
  obtain ⟨⟨read, w₁⟩, hexec, h⟩ := bind_ok.mp h
  rcases execMax_reads hdown hp hexec with rfl | ⟨file, max, hserved, hmax, rfl⟩
  · simp only [sendData_error, ok_bind] at h
    cases h
    exact ⟨_, rfl, Or.inl rfl⟩
  · simp only [sendData_max, ok_bind] at h
    cases h
    exact ⟨_, rfl, Or.inr ⟨file, max, hserved, hmax, rfl⟩⟩

/-! ## A machine that does what it should -/

/-- `wget` downloads what is there, and no file is locked by any command. -/
structure Able (web : Bytes → Option Bytes)
    (shell : Bytes → Disk → Disk) : Prop where
  downloads : ∀ path name d, Unquoted path → Unquoted name → name ≠ [] →
    (shell (ascii "wget http://" ++ path ++ ascii " -O " ++ name) d).file name
      = some ((web path).getD [])
  writable : ∀ command d, (shell command d).writable = d.writable

/-- A shell that knows `wget` and nothing else. -/
def wget (web : Bytes → Option Bytes) (command : Bytes) (d : Disk) : Disk :=
  match tokens 32 command with
  | [_, url, _, name] => d.write name ((web (url.drop 7)).getD [])
  | _ => d

theorem able_wget (web : Bytes → Option Bytes) : Able web (wget web) := by
  refine ⟨fun path name d hpath hname hne => ?_, fun command d => ?_⟩
  · have hblank : ∀ {s : Bytes}, Unquoted s → (32 : UInt8) ∉ s := fun hs hmem =>
      absurd (hs 32 hmem) (by decide)
    have hurl : IsToken 32 (ascii "http://" ++ path) :=
      ⟨List.append_ne_nil_of_left_ne_nil (by decide) _, fun hmem =>
        (List.mem_append.mp hmem).elim (fun h => absurd h (by decide))
          (hblank hpath)⟩
    have htokens : tokens 32 (ascii "wget http://" ++ path ++ ascii " -O " ++ name)
        = [ascii "wget", ascii "http://" ++ path, ascii "-O", name] := by
      have hsplit : ascii "wget http://" ++ path ++ ascii " -O " ++ name
          = ascii "wget" ++ 32 :: ((ascii "http://" ++ path) ++ 32
            :: (ascii "-O" ++ 32 :: name)) := by
        simp only [List.append_assoc]
        rfl
      rw [hsplit, tokens_cons (by decide), tokens_cons hurl, tokens_cons (by decide),
        tokens_last ⟨hne, hblank hname⟩]
    have hdrop : (ascii "http://" ++ path).drop 7 = path := rfl
    simp only [wget, htokens, hdrop]
    exact Function.update_self _ _ _
  · rw [wget]
    split
    · rfl
    · rfl

theorem Able.down {shell : Bytes → Disk → Disk} (h : Able web shell) :
    Downloads web shell := by
  intro path name d hpath hname hne
  refine ⟨_, h.downloads path name d hpath hname hne, ?_⟩
  cases web path with
  | none => exact Or.inl rfl
  | some file => exact Or.inr rfl

/-- There is a file under the path, and its numbers can be read. -/
structure Solvable (web : Bytes → Option Bytes) (a : Allocator)
    (path : Bytes) : Prop where
  short : path.length < 100
  named : components path ≠ []
  file : ∃ file, web path = some file ∧ file ≠ [] ∧ HasPlaces a (fgetsLines file) ∧
    ¬ HasTooLarge file

/-- Nothing has gone wrong in the process before, and it can write where it wants. -/
structure Fit (w : Client) : Prop where
  process : Ready w.process
  disk : ∀ name, w.disk.writable name = true

theorem execAlgoMax_solves (hable : Able web m.shell) {p : Packet}
    (hp : Unquoted p.value) (hsolvable : Solvable web m.memory p.value)
    (hfit : w.Fit) :
    ∃ w' frame, execAlgoMax m p.value w = .ok (w', [frame]) ∧ Solves web p frame ∧
      w'.Fit := by
  have hready := hfit.process
  obtain ⟨hlen, hnamed, file, hfile, hne, hplaces, hsmall⟩ := hsolvable
  have hname := List.getLast?_eq_some_getLast hnamed
  obtain ⟨output, d, hd, hrun⟩ := execMax_named (m := m) (w := w) hp hlen hname
  have hdown :=
    hable.downloads p.value _ w.disk hp (hp.component hname) (component_ne_nil hname)
  rw [← hd, hfile, Option.getD_some] at hdown
  have hlocked : d.writable = w.disk.writable := by
    rw [hd]
    exact hable.writable _ _
  have hwritable : d.writable output = true := by
    rw [hlocked]
    exact hfit.disk output
  obtain ⟨max, hmax, hfind⟩ := @findMax_all m.memory ⟨some file, some []⟩ w.process
    file rfl hne hready.2 hready.1 hplaces
    fun line hline hbad => hsmall ⟨line, hline, hbad⟩
  have hmain : mainApi m ((components p.value).getLast hnamed) output 0
      ⟨d, w.process⟩
      = .ok (.success, ⟨d.write output (decimal max ++ [10]), w.process⟩) := by
    rw [mainApi, if_pos rfl]
    simp only [hdown, hwritable, if_true, hfind, ok_bind]
  have hwritten : (d.write output (decimal max ++ [10])).file output
      = some (decimal max ++ [10]) :=
    Function.update_self _ _ _
  cases hopen : clientOpenFileToReadMax output ⟨d.write output (decimal max ++ [10]),
    w.process⟩ with
  | mk read w' =>
      rcases open_written hwritten hopen with ⟨hzero, -⟩ | ⟨-, rfl, rfl⟩
      · exact absurd hzero hready.2
      refine ⟨⟨d.write output (decimal max ++ [10]), w.process⟩, _, ?_,
        ⟨file, max, hfile, hmax, rfl⟩, hready, fun name => ?_⟩
      case refine_2 =>
        show d.writable name = true
        rw [hlocked]
        exact hfit.disk name
      rw [execAlgoMax, hrun, hmain]
      simp only [ok_bind, if_true, hopen, sendData_max]

end Request

/-! ## A chunk of requests -/

theorem copyValue_ok (s : Bytes) {behind : Bytes} (h : EndsValue behind) :
    copyValue (s ++ behind) = .ok () := by
  obtain ⟨rest, rfl⟩ := h
  rw [copyValue]
  by_cases hlen : s.length < 100
  · refine if_pos (Or.inl ?_)
    obtain ⟨k, hk⟩ := Nat.exists_eq_add_of_lt hlen
    rw [List.take_append, show 100 - s.length = k + 1 by omega, List.take_succ_cons]
    exact List.mem_append_right _ List.mem_cons_self
  · refine if_pos (Or.inr ?_)
    rw [List.length_append]
    omega

theorem reads_onTlv (m : Machine) : Packet.Reads (onTlv m) (take m) := by
  intro p hp pre post hpost g s
  have hcopy := copyValue_ok p.value hpost
  have htext := hpost.text hp.nul
  rw [onTlv, handleExecData, take, IsRequest]
  simp only [Packet.drop_wire, hcopy, ok_bind]
  by_cases hmax : p.type = Attribute.algoMax.code
  · simp only [hmax, Attribute.ofCode_code, htext, ok_bind,
      beq_self_eq_true, if_true]
  · have hattr : Attribute.ofCode p.type ≠ some .algoMax :=
      fun h => hmax (Attribute.ofCode_eq_some.mp h)
    have hnot : (p.type == Attribute.algoMax.code) = false := by simpa using hmax
    simp only [hnot, Bool.false_eq_true, if_false]
    rw [ok_bind, List.append_nil]

/-- What is done with a chunk is the fold over its packets. -/
theorem receiveChunk_eq {m : Machine} {segs : List (List Packet)} (hne : segs ≠ [])
    (hplain : ∀ ps ∈ segs, ∀ p ∈ ps, p.Plain)
    (hlt : (Packet.stream segs).length < 1024) (room : Bytes) (w : Client) :
    receiveChunk m (Packet.stream segs) room w
      = segs.flatten.foldlM (take m) (w, []) := by
  obtain ⟨hstore, hwalk⟩ := (reads_onTlv m).message hne hplain hlt room none (w, [])
  rw [receiveChunk, hstore, ok_bind, handleServerMessage, hwalk]
  cases segs.flatten.foldlM (take m) (w, []) with
  | error e => rfl
  | ok s => rfl

section Chunk
variable {m : Machine} {web : Bytes → Option Bytes} {s s' : Client × List Bytes}
  {ps : List Packet}

theorem takes_answers (hdown : Downloads web m.shell)
    (hps : ∀ p ∈ ps, IsRequest p = true → Unquoted p.value)
    (h : ps.foldlM (take m) s = .ok s') :
    ∃ out, s'.2 = s.2 ++ out ∧
      List.Forall₂ (Answers web) (ps.filter IsRequest) out := by
  induction ps generalizing s with
  | nil =>
      cases h
      exact ⟨[], (List.append_nil _).symm, List.Forall₂.nil⟩
  | cons p ps ih =>
      rw [List.foldlM_cons] at h
      obtain ⟨s₁, htake, h⟩ := bind_ok.mp h
      obtain ⟨out, hout, hanswers⟩ :=
        ih (fun q hq => hps q (List.mem_cons_of_mem p hq)) h
      rw [take] at htake
      by_cases hp : IsRequest p = true
      · rw [if_pos hp] at htake
        obtain ⟨⟨w', frames⟩, hexec, htake⟩ := bind_ok.mp htake
        cases htake
        obtain ⟨frame, rfl, hanswer⟩ :=
          execAlgoMax_answers hdown (hps p List.mem_cons_self hp) hexec
        rw [List.filter_cons_of_pos hp]
        exact ⟨frame :: out, by rw [hout, List.append_assoc, List.singleton_append],
          List.Forall₂.cons hanswer hanswers⟩
      · rw [if_neg hp] at htake
        cases htake
        rw [List.filter_cons_of_neg hp]
        exact ⟨out, hout, hanswers⟩

theorem takes_solves (hable : Able web m.shell)
    (hps : ∀ p ∈ ps, IsRequest p = true →
      Unquoted p.value ∧ Solvable web m.memory p.value)
    (hfit : s.1.Fit) :
    ∃ s' out, ps.foldlM (take m) s = .ok s' ∧ s'.2 = s.2 ++ out ∧
      List.Forall₂ (Solves web) (ps.filter IsRequest) out ∧ s'.1.Fit := by
  induction ps generalizing s with
  | nil => exact ⟨s, [], rfl, (List.append_nil _).symm, List.Forall₂.nil, hfit⟩
  | cons p ps ih =>
      have hrest := fun q hq => hps q (List.mem_cons_of_mem p hq)
      by_cases hp : IsRequest p = true
      · obtain ⟨hplain, hsolvable⟩ := hps p List.mem_cons_self hp
        obtain ⟨w', frame, hexec, hsolves, hfit'⟩ :=
          execAlgoMax_solves hable hplain hsolvable hfit
        obtain ⟨s', out, hrun, hout, hall, hlast⟩ :=
          ih (s := (w', s.2 ++ [frame])) hrest hfit'
        refine ⟨s', frame :: out, ?_, ?_, ?_, hlast⟩
        · rw [List.foldlM_cons, take, if_pos hp, hexec, ok_bind, ok_bind, hrun]
        · rw [hout, List.append_assoc, List.singleton_append]
        · rw [List.filter_cons_of_pos hp]
          exact List.Forall₂.cons hsolves hall
      · obtain ⟨s', out, hrun, hout, hall, hlast⟩ := ih (s := s) hrest hfit
        refine ⟨s', out, ?_, hout, ?_, hlast⟩
        · rw [List.foldlM_cons, take, if_neg hp, ok_bind, hrun]
        · rw [List.filter_cons_of_neg hp]
          exact hall

end Chunk

/-! ## A session -/

/-- A chunk of whole segments of plain packets, and what is
behind it in the array. -/
structure Chunk where
  segs : List (List Packet)
  room : Bytes
  some : segs ≠ []
  plain : ∀ ps ∈ segs, ∀ p ∈ ps, p.Plain
  short : (Packet.stream segs).length < 1024

def Chunk.received (c : Chunk) : RecvResult × Bytes :=
  (.data (Packet.stream c.segs), c.room)

/-- The requests of a session, in order. -/
def requests (cs : List Chunk) : List Packet :=
  (cs.flatMap fun c => c.segs.flatten).filter IsRequest

theorem requests_cons (c : Chunk) (cs : List Chunk) :
    requests (c :: cs) = c.segs.flatten.filter IsRequest ++ requests cs := by
  rw [requests, List.flatMap_cons, List.filter_append]
  rfl

theorem mem_requests {cs : List Chunk} {p : Packet} :
    p ∈ requests cs ↔ ∃ c ∈ cs, p ∈ c.segs.flatten ∧ IsRequest p = true := by
  rw [requests, List.mem_filter, List.mem_flatMap]
  constructor
  · rintro ⟨⟨c, hc, hp⟩, hreq⟩
    exact ⟨c, hc, hp, hreq⟩
  · rintro ⟨c, hc, hp, hreq⟩
    exact ⟨⟨c, hc, hp⟩, hreq⟩

section Session
variable {m : Machine} {web : Bytes → Option Bytes} {cs : List Chunk} {w : Client}

/-- **Every request is answered once, in order.** Whatever else the server
sends in between, and however the segments are spread over the chunks, the
worker sends one frame for each request: the largest number of the file under
its path, or an error. -/
theorem requests_answered (hdown : Downloads web m.shell)
    (hpaths : ∀ p ∈ requests cs, Unquoted p.value) {w' : Client} {out : List Bytes}
    (h : receiveExecRequest m (cs.map Chunk.received) w = .ok (w', out)) :
    List.Forall₂ (Answers web) (requests cs) out := by
  induction cs generalizing w out with
  | nil =>
      cases h
      exact List.Forall₂.nil
  | cons c cs ih =>
      obtain ⟨⟨w₁, frames⟩, hchunk, h⟩ := bind_ok.mp h
      obtain ⟨⟨w₂, more⟩, hrest, h⟩ := bind_ok.mp h
      cases h
      rw [receiveChunk_eq c.some c.plain c.short] at hchunk
      obtain ⟨out, hout, hanswers⟩ := takes_answers hdown
        (fun p hp hreq =>
          hpaths p (mem_requests.mpr ⟨c, List.mem_cons_self, hp, hreq⟩)) hchunk
      have hframes : frames = out := hout
      rw [requests_cons, hframes]
      refine List.rel_append hanswers (ih (fun p hp => hpaths p ?_) hrest)
      rw [requests_cons]
      exact List.mem_append_right _ hp

/-- One file is there. -/
def webSample (path : Bytes) : Option Bytes :=
  if path = ascii "10.0.0.1:/home/job_1/prob/input_p000"
    then some (ascii "7\n12\n-3\n") else none

def Machine.sample : Machine := ⟨wget webSample, Allocator.zeroed⟩

def sample : Client := ⟨⟨fun _ => none, fun _ => true⟩, ⟨false, 8⟩⟩

/-- A request for the file, what a CLI would be told, and a
request for another file. -/
def Chunk.sample : Chunk where
  segs := [[⟨102, ascii "10.0.0.1:/home/job_1/prob/input_p000",
    by decide, by decide +kernel⟩],
    [⟨5, ascii "hi", by decide, by decide⟩,
      ⟨102, ascii "10.0.0.1:/x", by decide, by decide⟩]]
  room := [57]
  some := by decide
  plain := by decide +kernel
  short := by decide +kernel

theorem requests_answered_sample : ∃ w',
    receiveExecRequest Machine.sample ([Chunk.sample].map Chunk.received) sample
        = .ok (w', [Packet.segment [maxPacket 12], Packet.segment [errorPacket]]) ∧
      List.Forall₂ (Answers webSample) (requests [Chunk.sample])
        [Packet.segment [maxPacket 12], Packet.segment [errorPacket]] := by
  have hout : (receiveExecRequest Machine.sample ([Chunk.sample].map Chunk.received)
      sample).toOption.map
      Prod.snd = some [Packet.segment [maxPacket 12],
        Packet.segment [errorPacket]] := by
    decide +kernel
  obtain ⟨⟨w', out⟩, hrun, hout⟩ := Option.map_eq_some_iff.mp hout
  have hout' : out = _ := hout
  rw [hout'] at hrun
  have hok := ok_of_toOption hrun
  exact ⟨w', hok, requests_answered (able_wget webSample).down
    (by decide +kernel) hok⟩

/-- **A worker that can, solves every piece.**  If the worker is fit, its machine
does what it should and the files can be read, there is no error, and the worker
stays fit. -/
theorem requests_solved (hable : Able web m.shell) (hfit : w.Fit)
    (hpaths : ∀ p ∈ requests cs, Unquoted p.value ∧ Solvable web m.memory p.value) :
    ∃ w' out, receiveExecRequest m (cs.map Chunk.received) w = .ok (w', out) ∧
      List.Forall₂ (Solves web) (requests cs) out ∧ w'.Fit := by
  induction cs generalizing w with
  | nil => exact ⟨w, [], rfl, List.Forall₂.nil, hfit⟩
  | cons c cs ih =>
      obtain ⟨⟨w₁, frames⟩, out, hrun, hout, hsolves, hfit'⟩ :=
        takes_solves (s := (w, [])) hable
          (fun p hp hreq =>
            hpaths p (mem_requests.mpr ⟨c, List.mem_cons_self, hp, hreq⟩)) hfit
      obtain ⟨w₂, more, hrest, hmore, hlast⟩ := ih (w := w₁) hfit' fun p hp =>
        hpaths p (by rw [requests_cons]; exact List.mem_append_right _ hp)
      have hframes : frames = out := hout
      refine ⟨w₂, frames ++ more, ?_, ?_, hlast⟩
      · rw [List.map_cons, Chunk.received, receiveExecRequest,
          receiveChunk_eq c.some c.plain c.short, hrun, ok_bind]
        simp only [hrest, ok_bind]
      · rw [requests_cons, hframes]
        exact List.rel_append hsolves hmore

/-- The file is asked for twice. -/
def Chunk.twice : Chunk where
  segs := [[⟨102, ascii "10.0.0.1:/home/job_1/prob/input_p000",
    by decide, by decide +kernel⟩],
    [⟨102, ascii "10.0.0.1:/home/job_1/prob/input_p000",
      by decide, by decide +kernel⟩]]
  room := []
  some := by decide
  plain := by decide +kernel
  short := by decide +kernel

theorem requests_solved_sample :
    ∃ w' out,
      receiveExecRequest Machine.sample ([Chunk.twice].map Chunk.received) sample
        = .ok (w', out) ∧
      List.Forall₂ (Solves webSample) (requests [Chunk.twice]) out ∧ w'.Fit := by
  refine requests_solved (able_wget webSample) ⟨⟨rfl, by decide⟩, fun _ => rfl⟩
    fun p hp => ?_
  have hall : ∀ p ∈ requests [Chunk.twice],
      p.value = ascii "10.0.0.1:/home/job_1/prob/input_p000" := by
    decide +kernel
  rw [hall p hp]
  refine ⟨by decide +kernel, by decide +kernel, by
    decide +kernel, ascii "7\n12\n-3\n", by decide +kernel, ?_⟩
  exact ⟨by decide +kernel, by decide +kernel, by decide +kernel⟩

end Session

end Client

end Pyramid
