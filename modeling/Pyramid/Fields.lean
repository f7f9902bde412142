/-
# `Pyramid.Fields` — any text for `sh_parse_cmd` (`server/src/server_helper.c`)

`sh_parse_cmd` gets whatever text came in a `CLI_DATA` frame.  It copies it to
`buf[100]` without looking at its length and reads as many fields as the
operation takes without looking whether they are there.  `Reads` says which
operation belongs to an opcode and the fields after it, and `command_fields_iff`
which texts get that far; on the others the copy runs past the buffer, or a
`NULL` token is read.
-/
import Pyramid.Commands

namespace Pyramid

/-- How many fields an operation takes. -/
def CliType.arity : CliType → Nat
  | .showJobDetails | .showJobResults | .setJobTimeout | .setJobQueueSize => 1
  | .execJob => 3
  | .setRepository => 4
  | .showMulticastGroups | .showClientsAll | .loggingLevelError | .loggingLevelInfo
  | .loggingLevelDebug => 0

/-- What an opcode that is not in the `switch` takes: nothing. -/
def fieldsOf : Option CliType → Nat
  | some t => t.arity
  | none => 0

/-- The operation of an opcode, with its fields; more fields are ignored. -/
inductive Reads (cfd : Int) : Option CliType → List Bytes → ShCall → Prop
  | groups {more : List Bytes} : Reads cfd (some .showMulticastGroups) more
    .displayAllMulticastGroups
  | clients {more : List Bytes} : Reads cfd (some .showClientsAll) more
    .displayAllClients
  | jobDetails {id : Bytes} {more : List Bytes} :
      Reads cfd (some .showJobDetails) (id :: more) (.displayJobDetails (strtol id))
  | jobResults {id : Bytes} {more : List Bytes} :
      Reads cfd (some .showJobResults) (id :: more) (.displayJobResults (strtol id))
  | repository {repo path user pwd : Bytes} {more : List Bytes} :
      Reads cfd (some .setRepository) (repo :: path :: user :: pwd :: more)
        (.setRepository repo path user pwd)
  | jobTimeout {timeout : Bytes} {more : List Bytes} :
      Reads cfd (some .setJobTimeout) (timeout :: more)
        (.setJobTimeout (atoi timeout))
  | jobQueueSize {size : Bytes} {more : List Bytes} :
      Reads cfd (some .setJobQueueSize) (size :: more) (.setJobQueueSize (atoi size))
  | execJob {task group file : Bytes} {more : List Bytes} :
      Reads cfd (some .execJob) (task :: group :: file :: more)
        (.submitJob
          { task := atoi task, cfd := cfd, group := atoi group, inputFile := file })
  | levelError {more : List Bytes} : Reads cfd (some .loggingLevelError) more
    .setLoggingLevel
  | levelInfo {more : List Bytes} : Reads cfd (some .loggingLevelInfo) more
    .setLoggingLevel
  | levelDebug {more : List Bytes} : Reads cfd (some .loggingLevelDebug) more
    .setLoggingLevel
  | invalid {more : List Bytes} : Reads cfd none more .invalidOpcode

section Tokens
variable {s t r : Bytes}

theorem token_tokens (h : token s = .ok (t, r)) : tokens 124 s = t :: tokens 124 r :=
  strtok_tokens (token_ok.mp h)

theorem token_of_tokens {ts : List Bytes} (h : tokens 124 s = t :: ts) :
    ∃ r, token s = .ok (t, r) ∧ tokens 124 r = ts ∧ t.length ≤ s.length ∧
      r.length ≤ s.length := by
  obtain ⟨r, htok, hts⟩ := strtok_of_tokens h
  obtain ⟨htoken, hrest⟩ := strtok_isInfix htok
  exact ⟨r, token_ok.mpr htok, hts, htoken.length_le, hrest.length_le⟩

end Tokens

variable {cfd : Int} {rest : Bytes}

/-- The operation that is called is the one of the opcode,
with fields of the text. -/
theorem reads_of_shDispatch {t : Option CliType} {c : ShCall}
    (h : shDispatch cfd rest t = .ok c) :
    Reads cfd t (tokens 124 rest) c := by
  unfold shDispatch at h
  split at h
  · cases h
    exact .groups
  · cases h
    exact .clients
  · obtain ⟨⟨id, r⟩, hid, h⟩ := bind_ok.mp h
    cases h
    rw [token_tokens hid]
    exact .jobDetails
  · obtain ⟨⟨id, r⟩, hid, h⟩ := bind_ok.mp h
    cases h
    rw [token_tokens hid]
    exact .jobResults
  · obtain ⟨⟨repo, r₁⟩, hrepo, h⟩ := bind_ok.mp h
    obtain ⟨⟨path, r₂⟩, hpath, h⟩ := bind_ok.mp h
    obtain ⟨⟨user, r₃⟩, huser, h⟩ := bind_ok.mp h
    obtain ⟨⟨pwd, r₄⟩, hpwd, h⟩ := bind_ok.mp h
    cases h
    rw [token_tokens hrepo, token_tokens hpath, token_tokens huser,
      token_tokens hpwd]
    exact .repository
  · obtain ⟨⟨timeout, r⟩, htimeout, h⟩ := bind_ok.mp h
    cases h
    rw [token_tokens htimeout]
    exact .jobTimeout
  · obtain ⟨⟨size, r⟩, hsize, h⟩ := bind_ok.mp h
    cases h
    rw [token_tokens hsize]
    exact .jobQueueSize
  · obtain ⟨⟨task, r₁⟩, htask, h⟩ := bind_ok.mp h
    obtain ⟨⟨group, r₂⟩, hgroup, h⟩ := bind_ok.mp h
    obtain ⟨⟨file, r₃⟩, hfile, h⟩ := bind_ok.mp h
    obtain ⟨copy, hcopy, h⟩ := bind_ok.mp h
    cases h
    rw [token_tokens htask, token_tokens hgroup, token_tokens hfile,
      (strcpy_ok.mp hcopy).2]
    exact .execJob
  · cases h
    exact .levelError
  · cases h
    exact .levelInfo
  · cases h
    exact .levelDebug
  · cases h
    exact .invalid

theorem Reads.arity_le {t : Option CliType} {args : List Bytes} {c : ShCall}
    (h : Reads cfd t args c) :
    fieldsOf t ≤ args.length := by
  cases h with
  | jobDetails | jobResults | repository | jobTimeout | jobQueueSize | execJob =>
      simp [fieldsOf, CliType.arity]
  | groups | clients | levelError | levelInfo | levelDebug | invalid =>
      exact Nat.zero_le _

theorem first_field {ts : List Bytes} {k : Nat} (h : k + 1 ≤ ts.length) :
    ∃ t more, ts = t :: more ∧ k ≤ more.length := by
  cases ts with
  | nil => cases h
  | cons t more => exact ⟨t, more, rfl, Nat.le_of_succ_le_succ h⟩

/-- With all its fields there the operation is called; the file name fits in
`input_file[256]`. -/
theorem shDispatch_total {t : Option CliType} (hlen : rest.length < 100)
    (hargs : fieldsOf t ≤ (tokens 124 rest).length) :
    ∃ c, shDispatch cfd rest t = .ok c := by
  have hone : 1 ≤ (tokens 124 rest).length → ∃ x, token rest = .ok x := by
    intro hpos
    obtain ⟨t, ts, hts⟩ := List.exists_cons_of_length_pos hpos
    obtain ⟨r, hr, -⟩ := token_of_tokens hts
    exact ⟨_, hr⟩
  cases t with
  | none => exact ⟨_, rfl⟩
  | some t =>
      cases t with
      | showMulticastGroups | showClientsAll | loggingLevelError | loggingLevelInfo
      | loggingLevelDebug => exact ⟨_, rfl⟩
      | showJobDetails | showJobResults | setJobTimeout | setJobQueueSize =>
          obtain ⟨x, hx⟩ := hone hargs
          exact ⟨_, by rw [shDispatch, hx, ok_bind]⟩
      | setRepository =>
          obtain ⟨repo, ts₁, hts, hthree⟩ := first_field hargs
          obtain ⟨path, ts₂, rfl, htwo⟩ := first_field hthree
          obtain ⟨user, ts₃, rfl, hlast⟩ := first_field htwo
          obtain ⟨pwd, more, rfl, -⟩ := first_field hlast
          obtain ⟨r₁, h₁, hts, -⟩ := token_of_tokens hts
          obtain ⟨r₂, h₂, hts, -⟩ := token_of_tokens hts
          obtain ⟨r₃, h₃, hts, -⟩ := token_of_tokens hts
          obtain ⟨r₄, h₄, -⟩ := token_of_tokens hts
          exact ⟨.setRepository repo path user pwd, by
            simp only [shDispatch, h₁, h₂, h₃, h₄, ok_bind]⟩
      | execJob =>
          obtain ⟨task, ts₁, hts, htwo⟩ := first_field hargs
          obtain ⟨group, ts₂, rfl, hlast⟩ := first_field htwo
          obtain ⟨file, more, rfl, -⟩ := first_field hlast
          obtain ⟨r₁, h₁, hts, -, hr₁⟩ := token_of_tokens hts
          obtain ⟨r₂, h₂, hts, -, hr₂⟩ := token_of_tokens hts
          obtain ⟨r₃, h₃, -, hfile, -⟩ := token_of_tokens hts
          have hcopy : strcpy 256 file = .ok file := strcpy_ok.mpr ⟨by omega, rfl⟩
          exact ⟨.submitJob ⟨atoi task, cfd, atoi group, file⟩, by
            simp only [shDispatch, h₁, h₂, h₃, hcopy, ok_bind]⟩

/-- The text is copied inside the buffer, no token that is read is `NULL`, and
the operation of its opcode is called with fields of the text. -/
def Tolerated (cfd : Int) (text : Bytes) : Prop :=
  ∃ c op args, shParseCmd cfd text = .ok c ∧ tokens 124 text = op :: args ∧
    Reads cfd (CliType.ofCode (atoi op)) args c

/-- A text is read well exactly if it has at most 99 characters, and a token, and
after it as many as the operation with that number takes. -/
theorem command_fields_iff (cfd : Int) (text : Bytes) :
    Tolerated cfd text ↔ text.length < 100 ∧ ∃ op args,
      tokens 124 text = op :: args ∧
      fieldsOf (CliType.ofCode (atoi op)) ≤ args.length := by
  constructor
  · rintro ⟨c, op, args, hrun, htokens, hreads⟩
    obtain ⟨buf, hcopy, -⟩ := bind_ok.mp hrun
    exact ⟨(strcpy_ok.mp hcopy).1, op, args, htokens, hreads.arity_le⟩
  · rintro ⟨hlen, op, args, htokens, hargs⟩
    obtain ⟨rest, hop, hrest, -, hle⟩ := token_of_tokens htokens
    rw [← hrest] at hargs
    obtain ⟨c, hc⟩ : ∃ c, shDispatch cfd rest (CliType.ofCode (atoi op)) = .ok c :=
      shDispatch_total (Nat.lt_of_le_of_lt hle hlen) hargs
    refine ⟨c, op, args, ?_, htokens, hrest ▸ reads_of_shDispatch hc⟩
    rw [shParseCmd, strcpy_ok.mpr ⟨hlen, rfl⟩, ok_bind, hop, ok_bind]
    exact hc

/-- `3` asks for the result of a job and does not say of which. -/
theorem job_id_missing :
    shParseCmd 4 (ascii "3") = .error .nullDeref ∧ ¬ Tolerated 4 (ascii "3") := by
  have hnull : shParseCmd 4 (ascii "3") = .error .nullDeref := by decide +kernel
  refine ⟨hnull, ?_⟩
  rintro ⟨c, op, args, hrun, -⟩
  cases hnull.symm.trans hrun

end Pyramid
