/-
# `Pyramid.Commands` — the server's reading of a command (`server_helper.c`)

`sh_parse_cmd` cuts the text of a `CLI_DATA` frame at its bars with `strtok`
and uses what it gets without a test.  Nothing is escaped on the other side, so
a field arrives if it is not empty and has no bar in it, and only a text that
fits in the CLI's buffer is sent at all.

`command_round_trip_iff` puts the two halves together: `Arrives` says that the
server calls the operation that was asked for with the values it was asked for,
and `Fits` is what the arguments need for that.
-/
import Pyramid.CommandLine
import Pyramid.Memory.Tokens
import Pyramid.Submissions

namespace Pyramid

def CliType.ofCode (n : Int) : Option CliType :=
  [.showMulticastGroups, .showClientsAll, .showJobDetails, .showJobResults, .execJob,
    .setRepository, .setJobTimeout, .setJobQueueSize, .loggingLevelError,
    .loggingLevelInfo, .loggingLevelDebug].find? (fun t => t.code == n)

theorem CliType.ofCode_code (t : CliType) : CliType.ofCode t.code = some t := by
  cases t <;> rfl

/-- What `sh_parse_cmd` calls, with the arguments; `submitJob` is the work it
hands to the pool. -/
inductive ShCall where
  | displayAllMulticastGroups
  | displayAllClients
  | displayJobDetails (jobId : Int)
  | displayJobResults (jobId : Int)
  | setRepository (repository path user pwd : Bytes)
  | setJobTimeout (timeout : Int)
  | setJobQueueSize (size : Int)
  | submitJob (job : SubmitJob)
  | setLoggingLevel
  | invalidOpcode
  deriving DecidableEq, Repr

/-- A token that is read without a test for `NULL`. -/
def token (s : Bytes) : Except Halt (Bytes × Bytes) :=
  match strtok 124 s with
  | none => .error .nullDeref
  | some r => .ok r

/-- The cases of the `switch` up to the call; `rest` is what `strtok(NULL, …)`
goes on with.  The fields of a repository are read when all four are cut. -/
def shDispatch (cfd : Int) (rest : Bytes) : Option CliType → Except Halt ShCall
  | some .showMulticastGroups => .ok .displayAllMulticastGroups
  | some .showClientsAll => .ok .displayAllClients
  | some .showJobDetails => do
      let (cliJobId, _) ← token rest
      .ok (.displayJobDetails (strtol cliJobId))
  | some .showJobResults => do
      let (cliJobId, _) ← token rest
      .ok (.displayJobResults (strtol cliJobId))
  | some .setRepository => do
      let (repo, rest) ← token rest
      let (path, rest) ← token rest
      let (user, rest) ← token rest
      let (pwd, _) ← token rest
      .ok (.setRepository repo path user pwd)
  | some .setJobTimeout => do
      let (jobTimeout, _) ← token rest
      .ok (.setJobTimeout (atoi jobTimeout))
  | some .setJobQueueSize => do
      let (queueSize, _) ← token rest
      .ok (.setJobQueueSize (atoi queueSize))
  | some .execJob => do
      let (task, rest) ← token rest
      let (group, rest) ← token rest
      let (inputFile, _) ← token rest
      let inputFile ← strcpy 256 inputFile
      .ok (.submitJob { task := atoi task
                        cfd := cfd
                        group := atoi group
                        inputFile := inputFile })
  | some .loggingLevelError => .ok .setLoggingLevel
  | some .loggingLevelInfo => .ok .setLoggingLevel
  | some .loggingLevelDebug => .ok .setLoggingLevel
  | none => .ok .invalidOpcode

def shParseCmd (cfd : Int) (buff : Bytes) : Except Halt ShCall := do
  let buf ← strcpy 100 buff
  let (opcode, rest) ← token buf
  shDispatch cfd rest (CliType.ofCode (atoi opcode))

example :
    shParseCmd 7 (ascii "4|102|3|in.txt")
      = .ok (.submitJob ⟨102, 7, 3, ascii "in.txt"⟩) := by
  decide +kernel

/-! ## Reading the fields -/

theorem strcpy_ok {room : Nat} {text s : Bytes} :
    strcpy room text = .ok s ↔ text.length < room ∧ s = text := by
  unfold strcpy
  split
  · next hroom => simp [hroom, eq_comm]
  · next hroom => simp [hroom]

theorem token_ok {s t r : Bytes} :
    token s = .ok (t, r) ↔ strtok 124 s = some (t, r) := by
  unfold token
  cases strtok 124 s with
  | none => simp
  | some x => simp

theorem token_cons {t : Bytes} (h : IsToken 124 t) (r : Bytes) :
    token (t ++ (bar ++ r)) = .ok (t, r) :=
  token_ok.mpr (strtok_cons h r)

theorem token_last {t : Bytes} (h : IsToken 124 t) : token t = .ok (t, []) :=
  token_ok.mpr (strtok_last h)

/-- A printed number is cut off whole. -/
theorem isToken_decimal (x : Int) : IsToken 124 (decimal x) := by
  refine ⟨decimal_ne_nil x, fun hmem => ?_⟩
  rcases decimal_bytes x 124 hmem with heq | hdigit
  · exact absurd heq (by decide)
  · exact absurd hdigit (by decide)

/-- The strings the server passes on are tokens. -/
def ShCall.Cut : ShCall → Prop
  | .setRepository repository path user pwd =>
      IsToken 124 repository ∧ IsToken 124 path ∧ IsToken 124 user ∧ IsToken 124 pwd
  | .submitJob job => IsToken 124 job.inputFile
  | _ => True

theorem shDispatch_cut {cfd : Int} {rest : Bytes} {t : Option CliType} {c : ShCall}
    (h : shDispatch cfd rest t = .ok c) : c.Cut := by
  have hcut : ∀ {s : Bytes} {r : Bytes × Bytes}, token s = .ok r → IsToken 124 r.1 :=
    fun htoken => strtok_some (token_ok.mp htoken)
  unfold shDispatch at h
  split at h
  · cases h
    trivial
  · cases h
    trivial
  · obtain ⟨id, -, h⟩ := bind_ok.mp h
    cases h
    trivial
  · obtain ⟨id, -, h⟩ := bind_ok.mp h
    cases h
    trivial
  · obtain ⟨repo, hrepo, h⟩ := bind_ok.mp h
    obtain ⟨path, hpath, h⟩ := bind_ok.mp h
    obtain ⟨user, huser, h⟩ := bind_ok.mp h
    obtain ⟨pwd, hpwd, h⟩ := bind_ok.mp h
    cases h
    exact ⟨hcut hrepo, hcut hpath, hcut huser, hcut hpwd⟩
  · obtain ⟨t, -, h⟩ := bind_ok.mp h
    cases h
    trivial
  · obtain ⟨n, -, h⟩ := bind_ok.mp h
    cases h
    trivial
  · obtain ⟨task, -, h⟩ := bind_ok.mp h
    obtain ⟨group, -, h⟩ := bind_ok.mp h
    obtain ⟨file, hfile, h⟩ := bind_ok.mp h
    obtain ⟨file', hcopy, h⟩ := bind_ok.mp h
    cases h
    rw [ShCall.Cut, (strcpy_ok.mp hcopy).2]
    exact hcut hfile
  · cases h
    trivial
  · cases h
    trivial
  · cases h
    trivial
  · cases h
    trivial

theorem shParseCmd_cut {cfd : Int} {buff : Bytes} {c : ShCall}
    (h : shParseCmd cfd buff = .ok c) :
    c.Cut := by
  obtain ⟨buf, -, h⟩ := bind_ok.mp h
  obtain ⟨opcode, -, h⟩ := bind_ok.mp h
  exact shDispatch_cut h

/-- A command without arguments. -/
theorem shParseCmd_code (cfd : Int) (t : CliType) :
    shParseCmd cfd (decimal t.code) = shDispatch cfd [] (some t) := by
  cases t <;> rfl

/-- A command with arguments. -/
theorem shParseCmd_fields {cfd : Int} {t : CliType} {rest : Bytes}
    (hlen : (decimal t.code ++ (bar ++ rest)).length < 100) :
    shParseCmd cfd (decimal t.code ++ (bar ++ rest))
      = shDispatch cfd rest (some t) := by
  have hrange : intMin ≤ t.code ∧ t.code ≤ intMax := by
    cases t <;> decide
  rw [shParseCmd, strcpy_ok.mpr ⟨hlen, rfl⟩, ok_bind, token_cons (isToken_decimal _),
    ok_bind]
  dsimp only
  rw [atoi_decimal hrange.1 hrange.2, CliType.ofCode_code]

/-! ## The round trip -/

/-- The operation of the server that a call asks for. -/
def CliCall.meant (cfd : Int) : CliCall → ShCall
  | .printMulticastGroups => .displayAllMulticastGroups
  | .printClients => .displayAllClients
  | .loggingLevel _ => .setLoggingLevel
  | .setRepositoryAddress ip path username pwd => .setRepository ip path username pwd
  | .setJobTimeout timeout => .setJobTimeout timeout
  | .printJobResult jobId => .displayJobResults jobId
  | .execTask taskid file groupid =>
      .submitJob { task := taskid, cfd := cfd, group := groupid, inputFile := file }

/-- The text is built in its buffers, and the server reads it
as the call meant it. -/
def CliCall.Arrives (cfd : Int) (c : CliCall) : Prop :=
  ∃ text, c.send = .ok text ∧ shParseCmd cfd text = .ok (c.meant cfd)

/-- What the arguments of a call need for that. -/
def CliCall.Fits : CliCall → Prop
  | .setRepositoryAddress ip path username pwd =>
      (IsToken 124 ip ∧ IsToken 124 path ∧ IsToken 124 username ∧ IsToken 124 pwd) ∧
        ip.length + path.length + username.length + pwd.length ≤ 74
  | .setJobTimeout timeout => -999999 ≤ timeout ∧ timeout ≤ 9999999
  | .execTask taskid file groupid =>
      IsToken 124 file ∧ (decimal taskid).length + (decimal groupid).length +
        file.length ≤ 75
  | _ => True

/-- The numbers have the type of their parameters. -/
def CliCall.InRange : CliCall → Prop
  | .loggingLevel level => level = 8 ∨ level = 9 ∨ level = 10
  | .setJobTimeout timeout => intMin ≤ timeout ∧ timeout ≤ intMax
  | .printJobResult jobId =>
      -9223372036854775808 ≤ jobId ∧ jobId ≤ 9223372036854775807
  | .execTask taskid _ groupid =>
      (intMin ≤ taskid ∧ taskid ≤ intMax) ∧ intMin ≤ groupid ∧ groupid ≤ intMax
  | _ => True

theorem getAlgoType_range (algoType : Bytes) :
    intMin ≤ getAlgoType algoType ∧ getAlgoType algoType ≤ intMax := by
  unfold getAlgoType
  split
  · decide
  · decide

theorem parseCli_inRange {stale line : Bytes} {c : CliCall}
    (h : parseCli stale line = .ok (.call c)) : c.InRange := by
  obtain ⟨words, -, h⟩ := bind_ok.mp h
  -- the tests of `parse_cli` in their order
  rcases ite_eq_iff.mp h with ⟨-, h⟩ | ⟨-, h⟩
  · cases h
    trivial
  rcases ite_eq_iff.mp h with ⟨-, h⟩ | ⟨-, h⟩
  · cases h
    trivial
  rcases ite_eq_iff.mp h with ⟨-, h⟩ | ⟨-, h⟩
  · cases h
    exact Or.inl rfl
  rcases ite_eq_iff.mp h with ⟨-, h⟩ | ⟨-, h⟩
  · cases h
    exact Or.inr (Or.inl rfl)
  rcases ite_eq_iff.mp h with ⟨-, h⟩ | ⟨-, h⟩
  · cases h
    exact Or.inr (Or.inr rfl)
  rcases ite_eq_iff.mp h with ⟨-, h⟩ | ⟨-, h⟩
  · cases h
  rcases ite_eq_iff.mp h with ⟨-, h⟩ | ⟨-, h⟩
  · cases h
  rcases ite_eq_iff.mp h with ⟨-, h⟩ | ⟨-, h⟩
  · cases h
    trivial
  rcases ite_eq_iff.mp h with ⟨-, h⟩ | ⟨-, h⟩
  · cases h
    exact toInt32_range _
  rcases ite_eq_iff.mp h with ⟨-, h⟩ | ⟨-, h⟩
  · cases h
    exact atoll_range _
  rcases ite_eq_iff.mp h with ⟨-, h⟩ | ⟨-, h⟩
  · rcases ite_eq_iff.mp h with ⟨-, h⟩ | ⟨-, h⟩
    · cases h
    · cases h
      exact ⟨getAlgoType_range _, toInt32_range _⟩
  · cases h

theorem send_ok {room : Nat} {text s : Bytes} (hroom : room ≤ 80) :
    (sprintf room text >>= requestCliData) = .ok s ↔
      text.length < room ∧ s = text := by
  constructor
  · intro h
    obtain ⟨buffer, hprint, hcopy⟩ := bind_ok.mp h
    obtain ⟨hlen, rfl⟩ := strcpy_ok.mp hprint
    exact ⟨hlen, (strcpy_ok.mp hcopy).2⟩
  · rintro ⟨hlen, rfl⟩
    exact bind_ok.mpr ⟨s, strcpy_ok.mpr ⟨hlen, rfl⟩,
      strcpy_ok.mpr ⟨Nat.lt_of_lt_of_le hlen hroom, rfl⟩⟩

section RoundTrip

variable {cfd : Int}

theorem setRepositoryAddress_arrives (ip path username pwd : Bytes) :
    (CliCall.setRepositoryAddress ip path username pwd).Arrives cfd ↔
      (CliCall.setRepositoryAddress ip path username pwd).Fits := by
  have hcode : (decimal CliType.setRepository.code).length = 1 := rfl
  have hbar : bar.length = 1 := rfl
  have hsend : ∀ text, cliSetRepositoryAddress ip path username pwd = .ok text ↔
      ip.length + path.length + username.length + pwd.length ≤ 74 ∧
        text = decimal CliType.setRepository.code
          ++ (bar ++ (ip ++ (bar ++ (path ++ (bar
          ++ (username ++ (bar ++ pwd))))))) := by
    intro text
    rw [cliSetRepositoryAddress, send_ok (Nat.le_refl 80)]
    simp only [List.append_assoc, List.length_append, hcode, hbar]
    constructor
    · rintro ⟨hlen, htext⟩
      exact ⟨by omega, htext⟩
    · rintro ⟨hlen, htext⟩
      exact ⟨by omega, htext⟩
  constructor
  · rintro ⟨text, htext, hread⟩
    exact ⟨shParseCmd_cut hread, ((hsend text).mp htext).1⟩
  · rintro ⟨⟨hip, hpath, husername, hpwd⟩, hlen⟩
    refine ⟨_, (hsend _).mpr ⟨hlen, rfl⟩, ?_⟩
    rw [shParseCmd_fields (by simp only [List.length_append, hcode, hbar]; omega),
      shDispatch]
    simp only [token_cons hip, token_cons hpath, token_cons husername,
      token_last hpwd, ok_bind]
    rfl

theorem setJobTimeout_arrives {timeout : Int} (h₁ : intMin ≤ timeout)
    (h₂ : timeout ≤ intMax) :
    (CliCall.setJobTimeout timeout).Arrives cfd ↔
    (CliCall.setJobTimeout timeout).Fits := by
  have hcode : (decimal CliType.setJobTimeout.code).length = 1 := rfl
  have hbar : bar.length = 1 := rfl
  have hseven : (decimal timeout).length ≤ 7 ↔
      -999999 ≤ timeout ∧ timeout ≤ 9999999 := by
    unfold intMin at h₁
    unfold intMax at h₂
    exact decimal_length_le_seven (by omega) (by omega)
  have hsend : ∀ text, cliSetJobTimeout timeout = .ok text ↔
      (decimal timeout).length ≤ 7 ∧
      text = decimal CliType.setJobTimeout.code ++ (bar ++ decimal timeout) := by
    intro text
    rw [cliSetJobTimeout, send_ok (by decide)]
    simp only [List.append_assoc, List.length_append, hcode, hbar]
    constructor
    · rintro ⟨hlen, htext⟩
      exact ⟨by omega, htext⟩
    · rintro ⟨hlen, htext⟩
      exact ⟨by omega, htext⟩
  constructor
  · rintro ⟨text, htext, -⟩
    exact hseven.mp ((hsend text).mp htext).1
  · intro hfits
    have hlen := hseven.mpr hfits
    refine ⟨_, (hsend _).mpr ⟨hlen, rfl⟩, ?_⟩
    rw [shParseCmd_fields (by simp only [List.length_append, hcode, hbar]; omega),
      shDispatch, token_last (isToken_decimal _), ok_bind]
    dsimp only
    rw [atoi_decimal h₁ h₂]
    rfl

/-- A job id of any length fits. -/
theorem printJobResult_arrives {jobId : Int} (h₁ : -9223372036854775808 ≤ jobId)
    (h₂ : jobId ≤ 9223372036854775807) :
    (CliCall.printJobResult jobId).Arrives cfd := by
  have hlen : (decimal CliType.showJobResults.code ++ (bar ++ decimal jobId)).length
      < 80 := by
    have hid := decimal_length jobId
    have hcode : (decimal CliType.showJobResults.code).length = 1 := rfl
    have hbar : bar.length = 1 := rfl
    simp only [List.length_append, hcode, hbar]
    omega
  refine ⟨decimal CliType.showJobResults.code ++ (bar ++ decimal jobId), ?_, ?_⟩
  · exact (send_ok (Nat.le_refl 80)).mpr
      ⟨by rwa [List.append_assoc], (List.append_assoc ..).symm⟩
  · rw [shParseCmd_fields (by omega), shDispatch, token_last (isToken_decimal _),
      ok_bind]
    dsimp only
    rw [strtol, atoll_decimal h₁ h₂]
    rfl

theorem execTask_arrives {taskid groupid : Int} (file : Bytes)
    (htask : intMin ≤ taskid ∧ taskid ≤ intMax)
    (hgroup : intMin ≤ groupid ∧ groupid ≤ intMax) :
    (CliCall.execTask taskid file groupid).Arrives cfd ↔
      (CliCall.execTask taskid file groupid).Fits := by
  have hcode : (decimal CliType.execJob.code).length = 1 := rfl
  have hbar : bar.length = 1 := rfl
  have hsend : ∀ text, cliExecTask taskid file groupid = .ok text ↔
      (decimal taskid).length + (decimal groupid).length + file.length ≤ 75 ∧
        text = decimal CliType.execJob.code
          ++ (bar ++ (decimal taskid ++ (bar ++ (decimal groupid
          ++ (bar ++ file))))) := by
    intro text
    rw [cliExecTask, send_ok (Nat.le_refl 80)]
    simp only [List.append_assoc, List.length_append, hcode, hbar]
    constructor
    · rintro ⟨hlen, htext⟩
      exact ⟨by omega, htext⟩
    · rintro ⟨hlen, htext⟩
      exact ⟨by omega, htext⟩
  constructor
  · rintro ⟨text, htext, hread⟩
    exact ⟨shParseCmd_cut hread, ((hsend text).mp htext).1⟩
  · rintro ⟨hfile, hlen⟩
    refine ⟨_, (hsend _).mpr ⟨hlen, rfl⟩, ?_⟩
    have hcopy : strcpy 256 file = .ok file := strcpy_ok.mpr ⟨by omega, rfl⟩
    rw [shParseCmd_fields (by simp only [List.length_append, hcode, hbar]; omega),
      shDispatch]
    simp only [token_cons (isToken_decimal _), token_last hfile, hcopy, ok_bind]
    rw [atoi_decimal htask.1 htask.2, atoi_decimal hgroup.1 hgroup.2]
    rfl

end RoundTrip

/-- The command that a line asks for reaches the server as it was given if its
strings are not empty and have no bar in them and its text fits in the CLI's
buffer, and not otherwise. -/
theorem command_round_trip_iff (stale line : Bytes) (cfd : Int) (c : CliCall)
    (h : parseCli stale line = .ok (.call c)) : c.Arrives cfd ↔ c.Fits := by
  have hrange := parseCli_inRange h
  cases c with
  | printMulticastGroups => exact iff_of_true ⟨_, rfl, shParseCmd_code cfd _⟩ trivial
  | printClients => exact iff_of_true ⟨_, rfl, shParseCmd_code cfd _⟩ trivial
  | loggingLevel level =>
      refine iff_of_true ?_ trivial
      rcases hrange with rfl | rfl | rfl
      · exact ⟨_, rfl, shParseCmd_code cfd .loggingLevelError⟩
      · exact ⟨_, rfl, shParseCmd_code cfd .loggingLevelInfo⟩
      · exact ⟨_, rfl, shParseCmd_code cfd .loggingLevelDebug⟩
  | setRepositoryAddress ip path username pwd =>
      exact setRepositoryAddress_arrives ip path username pwd
  | setJobTimeout timeout => exact setJobTimeout_arrives hrange.1 hrange.2
  | printJobResult jobId =>
      exact iff_of_true (printJobResult_arrives hrange.1 hrange.2) trivial
  | execTask taskid file groupid => exact execTask_arrives file hrange.1 hrange.2

theorem command_round_trip_sample :
    parseCli [] (ascii "set repository 10.0.0.7 '/srv/my data' ann secret")
        = .ok (.call (.setRepositoryAddress (ascii "10.0.0.7") (ascii "/srv/my data")
          (ascii "ann")
          (ascii "secret"))) ∧
      (CliCall.setRepositoryAddress (ascii "10.0.0.7") (ascii "/srv/my data")
        (ascii "ann")
        (ascii "secret")).Arrives 4 := by
  have hparse :
      parseCli [] (ascii "set repository 10.0.0.7 '/srv/my data' ann secret")
      = .ok (.call (.setRepositoryAddress (ascii "10.0.0.7") (ascii "/srv/my data")
        (ascii "ann")
        (ascii "secret"))) := by
    decide +kernel
  refine ⟨hparse, (command_round_trip_iff [] _ 4 _ hparse).mpr
    ⟨⟨?_, ?_, ?_, ?_⟩, ?_⟩⟩
  all_goals decide +kernel

/-- A quoted bar: the server takes the halves for two fields
and drops the password. -/
theorem address_with_bar :
    parseCli [] (ascii "set repository '10.0.0.7|8' /srv ann secret")
        = .ok (.call (.setRepositoryAddress (ascii "10.0.0.7|8") (ascii "/srv")
          (ascii "ann")
          (ascii "secret"))) ∧
      (cliSetRepositoryAddress (ascii "10.0.0.7|8") (ascii "/srv") (ascii "ann")
        (ascii "secret")
          >>= shParseCmd 4)
        = .ok (.setRepository (ascii "10.0.0.7") (ascii "8") (ascii "/srv")
          (ascii "ann")) ∧
      ¬ (CliCall.setRepositoryAddress (ascii "10.0.0.7|8") (ascii "/srv")
        (ascii "ann")
        (ascii "secret")).Arrives 4 := by
  refine ⟨by decide +kernel, by decide +kernel, ?_⟩
  rintro ⟨text, -, hread⟩
  exact absurd (shParseCmd_cut hread).1 (by decide +kernel)

end Pyramid
