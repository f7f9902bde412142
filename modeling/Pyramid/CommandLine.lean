/-
# `Pyramid.CommandLine` — the commands of the CLI (`client/src/cli_commands.c`)

`cli_parse_line` cuts the line into at most seven words.  A quote begins a word
that ends at the same quote, blanks and bars included; it drops what it finds
of a word begun before.  `parse_cli` joins the words again to recognise the
command, and the functions it calls print their arguments, with bars between
them, into a buffer of fixed size that `request_cli_data` copies and sends.

A string here is what stands before its end mark.
-/
import Pyramid.Memory.Text
import Pyramid.Tlv

namespace Pyramid

/-- `enum cli_type` -/
inductive CliType where
  | showMulticastGroups
  | showClientsAll
  | showJobDetails
  | showJobResults
  | execJob
  | setRepository
  | setJobTimeout
  | setJobQueueSize
  | loggingLevelError
  | loggingLevelInfo
  | loggingLevelDebug
  deriving DecidableEq, Repr

def CliType.code : CliType → Int
  | .showMulticastGroups => 0
  | .showClientsAll => 1
  | .showJobDetails => 2
  | .showJobResults => 3
  | .execJob => 4
  | .setRepository => 5
  | .setJobTimeout => 6
  | .setJobQueueSize => 7
  | .loggingLevelError => 8
  | .loggingLevelInfo => 9
  | .loggingLevelDebug => 10

/-! ## The words of a line -/

/-- The locals of `cli_parse_line`: what `p` and `word_start` point at, up to
the end of the line, and the words so far; `inquote` is the quote that is open. -/
structure LineState where
  p : Bytes
  wordStart : Option Bytes
  inquote : Option UInt8
  words : List Bytes
  deriving DecidableEq, Repr

/-- The word begun at `word_start` ends before `p`. -/
def LineState.endWord (s : LineState) : LineState :=
  match s.wordStart with
  | none => s
  | some start =>
      { s with
        words := s.words ++ [start.take (start.length - s.p.length)]
        wordStart := none }

/-- One pass of the loop, with `p` at the character `c`. -/
def LineState.pass (s : LineState) (c : UInt8) (rest : Bytes) : LineState :=
  if s.inquote = some c ∨ s.wordStart.isSome ∧ s.inquote = none ∧
    (c = 32 ∨ c = 124) then
    -- a blank or a bar is left for the next pass, a quote is not
    { s.endWord with
      p := if s.inquote.isSome then rest else c :: rest, inquote := none }
  else if c = 34 ∨ c = 39
    then { s with p := rest, inquote := some c, wordStart := some rest }
  else if s.wordStart.isSome then { s with p := rest }
  else if c = 124 then { s with p := rest, words := s.words ++ [ascii "|"] }
  else if c = 32 then { s with p := rest }
  else { s with p := rest, wordStart := some (c :: rest) }

def cliParseWords (maxWords : Nat) : Nat → LineState → Except Halt (List Bytes)
  | 0, _ => .error .diverge
  | fuel + 1, s =>
      if s.words.length < maxWords - 1 then
        match s.p with
        | [] => .ok s.endWord.words
        | c :: rest => cliParseWords maxWords fuel (s.pass c rest)
      else .ok s.words

/-- `cli_parse_line`: the first loop stops at the first word. -/
def cliParseLine (line : Bytes) (maxWords : Nat) : Except Halt (List Bytes) :=
  let p := line.dropWhile (· = 32)
  cliParseWords maxWords (2 * line.length + 2) ⟨p, if p = [] then none
    else some p, none, []⟩

example : cliParseLine (ascii " set 'job  x'|\"\" ") 8
    = .ok [ascii "set", ascii "job  x", ascii "|", []] := by
  decide +kernel

namespace LineState

/-- What is still to be done: a pass moves on, or it ends the word and
moves on in the next. -/
def left (s : LineState) : Nat :=
  2 * s.p.length + if s.wordStart.isSome then 1 else 0

theorem left_le (s : LineState) : s.left ≤ 2 * s.p.length + 1 := by
  unfold left
  split
  · exact Nat.le_refl _
  · exact Nat.le_succ _

theorem endWord_length (s : LineState) :
    s.endWord.words.length ≤ s.words.length + 1 := by
  unfold endWord
  split
  · exact Nat.le_succ _
  · exact Nat.le_of_eq (List.length_append ..)

theorem endWord_wordStart (s : LineState) : s.endWord.wordStart = none := by
  unfold endWord
  split
  · assumption
  · rfl

theorem pass_length (s : LineState) (c : UInt8) (rest : Bytes) :
    (s.pass c rest).words.length ≤ s.words.length + 1 := by
  unfold pass
  split
  · exact s.endWord_length
  · split
    · exact Nat.le_succ _
    · split
      · exact Nat.le_succ _
      · split
        · exact Nat.le_of_eq (List.length_append ..)
        · split
          · exact Nat.le_succ _
          · exact Nat.le_succ _

/-- An open quote has begun a word. -/
def Quoted (s : LineState) : Prop := s.inquote.isSome → s.wordStart.isSome

theorem Quoted.pass {s : LineState} (h : s.Quoted) (c : UInt8) (rest : Bytes) :
    (s.pass c rest).Quoted := by
  unfold LineState.pass
  split
  · exact fun hnone => absurd hnone Bool.false_ne_true
  · split
    · exact fun _ => rfl
    · split
      · exact h
      · split
        · exact h
        · split
          · exact h
          · exact fun _ => rfl

theorem pass_left {s : LineState} {c : UInt8} {rest : Bytes} (hp : s.p = c :: rest)
    (h : s.Quoted) : (s.pass c rest).left < s.left := by
  have hlen : s.p.length = rest.length + 1 := by rw [hp, List.length_cons]
  unfold pass
  split
  · next hends =>
      have hword : s.wordStart.isSome = true := by
        rcases hends with hsame | ⟨hword, -⟩
        · exact h (by rw [hsame]; rfl)
        · exact hword
      simp only [left, endWord_wordStart, hword]
      split
      · simp
        omega
      · simp
        omega
  · split
    · simp only [left, hlen]
      split
      · simp
        omega
      · simp
        omega
    · split
      · next hword =>
          simp only [left, hlen, hword]
          omega
      · split
        · simp only [left, hlen]
          omega
        · split
          · simp only [left, hlen]
            omega
          · simp only [left, hlen]
            simp
            omega

end LineState

theorem cliParseWords_ok (maxWords : Nat) :
    ∀ (fuel : Nat) (s : LineState), s.left < fuel →
    s.Quoted → s.words.length ≤ maxWords - 1 →
    ∃ words, cliParseWords maxWords fuel s = .ok words ∧
    words.length ≤ maxWords - 1 := by
  intro fuel
  induction fuel with
  | zero => exact fun s hfuel => absurd hfuel (Nat.not_lt_zero _)
  | succ fuel ih =>
      intro s hfuel hquoted hwords
      rw [cliParseWords]
      split
      · next hroom =>
          split
          · exact ⟨_, rfl, Nat.le_trans s.endWord_length hroom⟩
          · next c rest hp =>
              have hleft := LineState.pass_left hp hquoted
              exact ih (s.pass c rest) (by omega) (hquoted.pass c rest)
                (Nat.le_trans (s.pass_length c rest) hroom)
      · exact ⟨_, rfl, hwords⟩

/-- More passes than there are make no difference. -/
theorem cliParseWords_more (maxWords : Nat) :
    ∀ (fuel : Nat) (s : LineState) {words : List Bytes},
    cliParseWords maxWords fuel s = .ok words → ∀ more, fuel ≤ more →
    cliParseWords maxWords more s = .ok words := by
  intro fuel
  induction fuel with
  | zero => exact fun s words h => absurd h (by simp [cliParseWords])
  | succ fuel ih =>
      intro s words h more hmore
      obtain ⟨more, rfl⟩ :=
        Nat.exists_eq_succ_of_ne_zero (Nat.ne_of_gt (Nat.lt_of_succ_le (Nat.le_trans
        (Nat.succ_le_succ (Nat.zero_le fuel)) hmore)))
      rw [cliParseWords] at h ⊢
      split
      · next hroom =>
          rw [if_pos hroom] at h
          split
          · next hp =>
              rw [hp] at h
              exact h
          · next c rest hp =>
              rw [hp] at h
              exact ih _ h more (Nat.le_of_succ_le_succ hmore)
      · next hroom =>
          rw [if_neg hroom] at h
          exact h

/-- Every line has its words, and `words` has room for them. -/
theorem cliParseLine_ok (line : Bytes) (maxWords : Nat) :
    ∃ words, cliParseLine line maxWords = .ok words ∧
      words.length ≤ maxWords - 1 := by
  have hskip :=
    (List.dropWhile_suffix (fun c => decide (c = 32)) (l := line)).length_le
  refine cliParseWords_ok maxWords _ _
    (Nat.lt_succ_of_le (Nat.le_trans (LineState.left_le _) ?_))
    (fun hnone => absurd hnone Bool.false_ne_true) (Nat.zero_le _)
  exact Nat.succ_le_succ (Nat.mul_le_mul_left 2 hskip)

/-! ## The texts -/

/-- `strcpy` to an array of `room` bytes; `sprintf` puts its
text there the same way. -/
def strcpy (room : Nat) (text : Bytes) : Except Halt Bytes :=
  if text.length < room then .ok text else .error .outOfBounds

def sprintf (room : Nat) (text : Bytes) : Except Halt Bytes := strcpy room text

/-- `"|"` -/
def bar : Bytes := [124]

/-- `request_cli_data`: what its `CLI_DATA` frame carries. -/
def requestCliData (cliBuff : Bytes) : Except Halt Bytes := sprintf 80 cliBuff

def cliPrintMulticastGroups : Except Halt Bytes := do
  let buffer ← sprintf 80 (decimal CliType.showMulticastGroups.code)
  requestCliData buffer

def cliPrintClients : Except Halt Bytes := do
  let buffer ← sprintf 80 (decimal CliType.showClientsAll.code)
  requestCliData buffer

def cliLoggingLevel (level : Int) : Except Halt Bytes := do
  let buffer ← sprintf 80 (decimal level)
  requestCliData buffer

/-- `"%d|%lld"` -/
def cliPrintJobResult (jobId : Int) : Except Halt Bytes := do
  let buffer ← sprintf 80 (decimal CliType.showJobResults.code ++ bar
    ++ decimal jobId)
  requestCliData buffer

/-- `"%d|%s|%s|%s|%s"` -/
def cliSetRepositoryAddress (ip path username pwd : Bytes) : Except Halt Bytes := do
  let buffer ← sprintf 80 (decimal CliType.setRepository.code ++ bar ++ ip ++ bar
    ++ path ++ bar
    ++ username ++ bar ++ pwd)
  requestCliData buffer

/-- `"%d|%d"`, into a buffer of 10 bytes. -/
def cliSetJobTimeout (timeout : Int) : Except Halt Bytes := do
  let buffer ← sprintf 10 (decimal CliType.setJobTimeout.code ++ bar
    ++ decimal timeout)
  requestCliData buffer

/-- `"%d|%d|%d|%s"` -/
def cliExecTask (taskid : Int) (file : Bytes) (groupid : Int) :
    Except Halt Bytes := do
  let buffer ← sprintf 80 (decimal CliType.execJob.code ++ bar
    ++ decimal taskid ++ bar
    ++ decimal groupid ++ bar ++ file)
  requestCliData buffer

/-! ## The commands -/

/-- The calls of `parse_cli` that send a text to the server. -/
inductive CliCall where
  | printMulticastGroups
  | printClients
  | loggingLevel (level : Int)
  | setRepositoryAddress (ip path username pwd : Bytes)
  | setJobTimeout (timeout : Int)
  | printJobResult (jobId : Int)
  | execTask (taskid : Int) (file : Bytes) (groupid : Int)
  deriving DecidableEq, Repr

def CliCall.send : CliCall → Except Halt Bytes
  | .printMulticastGroups => cliPrintMulticastGroups
  | .printClients => cliPrintClients
  | .loggingLevel level => cliLoggingLevel level
  | .setRepositoryAddress ip path username pwd =>
      cliSetRepositoryAddress ip path username pwd
  | .setJobTimeout timeout => cliSetJobTimeout timeout
  | .printJobResult jobId => cliPrintJobResult jobId
  | .execTask taskid file groupid => cliExecTask taskid file groupid

inductive CliAction where
  | call (c : CliCall)
  | help
  | clearScreen
  | unsupportedAlgorithm
  | notFound
  deriving DecidableEq, Repr

def getAlgoType (algoType : Bytes) : Int :=
  if algoType = ascii "max" then Attribute.algoMax.code else -1

/-- `parse_cli`.  The words are joined in a block that is not cleared: `stale`
is the string found there.  The block is taken to have room for the result. -/
def parseCli (stale line : Bytes) : Except Halt CliAction := do
  let words ← cliParseLine line 8
  let trimmed := stale ++ words.flatMap (· ++ ascii " ")
  if trimmed = ascii "show multicast groups " then .ok (.call .printMulticastGroups)
  else if trimmed = ascii "show clients all " then .ok (.call .printClients)
  else if trimmed = ascii "logging level error " then
    .ok (.call (.loggingLevel CliType.loggingLevelError.code))
  else if trimmed = ascii "logging level info " then
    .ok (.call (.loggingLevel CliType.loggingLevelInfo.code))
  else if trimmed = ascii "logging level debug " then
    .ok (.call (.loggingLevel CliType.loggingLevelDebug.code))
  else if trimmed = ascii "help " then .ok .help
  else if trimmed = ascii "clear " then .ok .clearScreen
  else if ascii "set repository" <+: trimmed ∧ words.length = 6 then
    .ok (.call (.setRepositoryAddress (words.getD 2 []) (words.getD 3 [])
      (words.getD 4 [])
      (words.getD 5 [])))
  else if ascii "set job timeout" <+: trimmed ∧ words.length = 4 then
    .ok (.call (.setJobTimeout (atoi (words.getD 3 []))))
  else if ascii "show job-result" <+: trimmed ∧ words.length = 3 then
    .ok (.call (.printJobResult (strtol (words.getD 2 []))))
  else if ascii "execute" <+: trimmed ∧ words.length = 4 then
    if getAlgoType (words.getD 1 []) = -1 then .ok .unsupportedAlgorithm
    else .ok (.call (.execTask (getAlgoType (words.getD 1 [])) (words.getD 2 [])
      (atoi (words.getD 3 []))))
  else .ok .notFound

example : parseCli [] (ascii "execute max 'my file' 7")
    = .ok (.call (.execTask 102 (ascii "my file") 7)) := by
  decide +kernel

end Pyramid
