/-
# `Pyramid.Lexemes` — what `cli_parse_line` makes of a line (`cli_commands.c`)

`lexemes` cuts a line at one place after the other and drops nothing but
unquoted blanks and the quotes around a text.  `wordScanner` is what the loop
of `cli_parse_line` does as long as `words` is not full: a quote begins a new
word there whatever was begun before it, so a run that a quote stands behind is
dropped, and so is what a quoted text has before the other kind of quote.
-/
import Pyramid.CommandLine
import Pyramid.Memory.Scanner

namespace Pyramid

/-! ## The lexemes of a line -/

inductive Kind where
  | blank
  | bar
  | quote
  | plain
  deriving DecidableEq

def kind (c : UInt8) : Kind :=
  if c = 32 then .blank else if c = 124 then .bar else if c = 34 ∨ c = 39 then .quote
    else .plain

theorem kind_blank {c : UInt8} : kind c = .blank ↔ c = 32 := by
  unfold kind
  constructor
  · intro h
    split at h
    · assumption
    · split at h
      · cases h
      · split at h <;> cases h
  · rintro rfl
    rfl

theorem kind_quote {c : UInt8} : kind c = .quote ↔ c = 34 ∨ c = 39 := by
  unfold kind
  constructor
  · intro h
    split at h
    · cases h
    · split at h
      · cases h
      · split at h
        · assumption
        · cases h
  · rintro (rfl | rfl)
    · rfl
    · rfl

theorem kind_bar {c : UInt8} : kind c = .bar ↔ c = 124 := by
  unfold kind
  constructor
  · intro h
    split at h
    · cases h
    · split at h
      · assumption
      · split at h <;> cases h
  · rintro rfl
    rfl

/-- A piece of a line: a run of plain characters, and whether a quote stands
right behind it, a bar, or a quoted text. -/
inductive Lexeme where
  | run (text : Bytes) (quoteBehind : Bool)
  | bar
  | quoted (quote : UInt8) (text : Bytes)
  deriving DecidableEq

def Lexeme.word : Lexeme → Bytes
  | .run text _ => text
  | .bar => ascii "|"
  | .quoted _ text => text

@[simp] theorem Lexeme.word_run (text : Bytes) (b : Bool) :
    (Lexeme.run text b).word = text := rfl

@[simp] theorem Lexeme.word_quoted (quote : UInt8) (text : Bytes) :
    (Lexeme.quoted quote text).word = text := rfl

theorem Lexeme.word_bar {c : UInt8} (h : kind c = .bar) : Lexeme.bar.word = [c] := by
  rw [kind_bar.mp h]
  rfl

/-- Where a scan stands: between lexemes, or in one of which
it has seen this much. -/
inductive Mode where
  | between
  | run (seen : Bytes)
  | quoted (quote : UInt8) (seen : Bytes)

/-- A quote that is not closed goes on to the end of the line. -/
def lexer : Scanner Mode UInt8 Lexeme where
  step
    | .between, c =>
        match kind c with
        | .blank => ([], .between)
        | .bar => ([.bar], .between)
        | .quote => ([], .quoted c [])
        | .plain => ([], .run [c])
    | .run seen, c =>
        match kind c with
        | .blank => ([.run seen false], .between)
        | .bar => ([.run seen false, .bar], .between)
        | .quote => ([.run seen true], .quoted c [])
        | .plain => ([], .run (seen ++ [c]))
    | .quoted quote seen, c =>
        if c = quote then ([.quoted quote seen], .between)
        else ([], .quoted quote (seen ++ [c]))
  close
    | .between => []
    | .run seen => [.run seen false]
    | .quoted quote seen => [.quoted quote seen]

def lexemes (line : Bytes) : List Lexeme := lexer.run .between line

example : lexemes (ascii "a|'b  c' d\"\"")
    = [.run (ascii "a") false, .bar, .quoted 39 (ascii "b  c"),
      .run (ascii "d") true, .quoted 34 []] := by
  decide +kernel

/-- A quoted text goes on to the next quote of its kind. -/
theorem lexer_quoted (quote : UInt8) :
    ∀ (rest seen : Bytes), lexer.run (.quoted quote seen) rest =
    .quoted quote (seen ++ rest.takeWhile (· ≠ quote)) ::
      lexer.run .between ((rest.dropWhile (· ≠ quote)).drop 1) := by
  intro rest
  induction rest with
  | nil =>
      intro seen
      rw [List.takeWhile_nil, List.append_nil]
      rfl
  | cons c rest ih =>
      intro seen
      by_cases hclose : c = quote
      · have hstep : lexer.step (.quoted quote seen) c
            = ([.quoted quote seen], .between) := if_pos hclose
        rw [Scanner.run_cons, hstep]
        simp [hclose]
      · have hstep : lexer.step (.quoted quote seen) c
            = ([], .quoted quote (seen ++ [c])) := if_neg hclose
        rw [Scanner.run_cons, hstep, List.nil_append, ih]
        simp [hclose]

/-! ## Nothing is lost in the lexemes -/

/-- Drops the unquoted blanks and the quotes around texts; the
state is the open quote. -/
def unquoter : Scanner (Option UInt8) UInt8 UInt8 where
  step
    | none, c =>
        match kind c with
        | .blank => ([], none)
        | .quote => ([], some c)
        | _ => ([c], none)
    | some quote, c => if c = quote then ([], none) else ([c], some quote)
  close _ := []

def unquoted (line : Bytes) : Bytes := unquoter.run none line

def Mode.seen : Mode → Bytes
  | .between => []
  | .run seen => seen
  | .quoted _ seen => seen

def Mode.quote : Mode → Option UInt8
  | .quoted quote _ => some quote
  | _ => none

theorem lexemes_flatten (line : Bytes) :
    (lexemes line).flatMap Lexeme.word = unquoted line := by
  refine lexer.run_view unquoter Lexeme.word Mode.seen Mode.quote (fun m c => ?_)
    (fun m => ?_)
    line .between
  · cases m with
    | between =>
        cases hkind : kind c with
        | bar =>
            simp [lexer, unquoter, hkind, Mode.seen, Mode.quote,
              Lexeme.word_bar hkind]
        | _ => simp [lexer, unquoter, hkind, Mode.seen, Mode.quote]
    | run seen =>
        cases hkind : kind c with
        | bar =>
            simp [lexer, unquoter, hkind, Mode.seen, Mode.quote,
              Lexeme.word_bar hkind]
        | _ => simp [lexer, unquoter, hkind, Mode.seen, Mode.quote]
    | quoted quote seen =>
        by_cases hclose : c = quote
        · simp [lexer, unquoter, hclose, Mode.seen, Mode.quote]
        · simp [lexer, unquoter, hclose, Mode.seen, Mode.quote]
  · cases m with
    | between => rfl
    | run seen => simp [lexer, unquoter, Mode.seen]
    | quoted quote seen => simp [lexer, unquoter, Mode.seen]

/-- A run that has begun is not empty. -/
def Mode.Begun : Mode → Prop
  | .run seen => seen ≠ []
  | _ => True

/-- An empty word is an empty quoted text. -/
theorem lexemes_word_nil (line : Bytes) :
    ∀ l ∈ lexemes line, l.word = [] → ∃ quote, l = .quoted quote [] := by
  refine lexer.run_forall Mode.Begun _ (fun m hm => ?_) line (fun m c _ hm => ?_)
    .between trivial
  · cases m with
    | between => simp [lexer]
    | run seen =>
        replace hm : seen ≠ [] := hm
        simp [lexer, hm]
    | quoted quote seen => simp [lexer]
  · cases m with
    | between =>
        cases hkind : kind c <;> simp [lexer, hkind, Mode.Begun, Lexeme.word, ascii]
    | run seen =>
        replace hm : seen ≠ [] := hm
        cases hkind : kind c <;> simp [lexer, hkind, Mode.Begun, hm,
          Lexeme.word, ascii]
    | quoted quote seen =>
        by_cases hclose : c = quote
        · simp [lexer, hclose, Mode.Begun]
        · simp [lexer, hclose, Mode.Begun]

/-! ## The words of the code -/

/-- The loop of `cli_parse_line`, when there is room for every word. -/
def wordScanner : Scanner Mode UInt8 Bytes where
  step
    | .between, c =>
        match kind c with
        | .blank => ([], .between)
        | .bar => ([ascii "|"], .between)
        | .quote => ([], .quoted c [])
        | .plain => ([], .run [c])
    | .run seen, c =>
        match kind c with
        | .blank => ([seen], .between)
        | .bar => ([seen, ascii "|"], .between)
        | .quote => ([], .quoted c [])
        | .plain => ([], .run (seen ++ [c]))
    | .quoted quote seen, c =>
        if c = quote then ([seen], .between)
        else if kind c = .quote then ([], .quoted c [])
        else ([], .quoted quote (seen ++ [c]))
  close
    | .between => []
    | .run seen => [seen]
    | .quoted _ seen => [seen]

/-- The locals of the loop stand where the scan stands. -/
def LineState.Stands (s : LineState) : Mode → Prop
  | .between => s.inquote = none ∧ s.wordStart = none
  | .run seen => s.inquote = none ∧ s.wordStart = some (seen ++ s.p)
  | .quoted quote seen =>
      s.inquote = some quote ∧ kind quote = .quote ∧ s.wordStart = some (seen ++ s.p)

namespace LineState
variable {s : LineState} {m : Mode}

theorem Stands.endWord (h : s.Stands m) :
    s.endWord
      = { s with words := s.words ++ wordScanner.close m, wordStart := none } := by
  have hword : ∀ seen : Bytes, s.wordStart = some (seen ++ s.p) →
      s.endWord = { s with words := s.words ++ [seen], wordStart := none } := by
    intro seen hstart
    rw [LineState.endWord, hstart]
    simp only [List.length_append, Nat.add_sub_cancel, List.take_left']
  cases m with
  | between =>
      obtain ⟨p, wordStart, inquote, words⟩ := s
      obtain ⟨-, rfl⟩ : _ ∧ wordStart = none := h
      simp [LineState.endWord, wordScanner]
  | run seen => exact hword seen h.2
  | quoted quote seen => exact hword seen h.2.2

/-- A pass, when no word ends at a blank or a bar. -/
theorem Stands.pass {c : UInt8} {rest : Bytes} (h : s.Stands m)
    (hp : s.p = c :: rest) (hends : ∀ seen, m = .run seen →
      kind c ≠ .blank ∧ kind c ≠ .bar) :
    (s.pass c rest).Stands (wordScanner.step m c).2 ∧ (s.pass c rest).p = rest ∧
      (s.pass c rest).words = s.words ++ (wordScanner.step m c).1 := by
  have hend := h.endWord
  obtain ⟨p, wordStart, inquote, words⟩ := s
  obtain rfl : p = c :: rest := hp
  cases m with
  | between =>
      obtain ⟨rfl, rfl⟩ : inquote = none ∧ wordStart = none := h
      cases hkind : kind c with
      | blank =>
          obtain rfl := kind_blank.mp hkind
          exact ⟨⟨rfl, rfl⟩, rfl, (List.append_nil _).symm⟩
      | bar =>
          obtain rfl := kind_bar.mp hkind
          exact ⟨⟨rfl, rfl⟩, rfl, rfl⟩
      | quote =>
          have hquote := kind_quote.mp hkind
          simp [LineState.pass, wordScanner, hkind, hquote, Stands]
      | plain =>
          have hne : ¬ (c = 34 ∨ c = 39) ∧ c ≠ 124 ∧ c ≠ 32 := by
            rw [← kind_quote, ne_eq, ← kind_bar, ne_eq, ← kind_blank, hkind]
            decide
          simp [LineState.pass, wordScanner, hkind, hne, Stands]
  | run seen =>
      obtain ⟨rfl, rfl⟩ : inquote = none ∧ wordStart = some (seen ++ c :: rest) := h
      obtain ⟨hblank, hbar⟩ := hends seen rfl
      have hne : c ≠ 32 ∧ c ≠ 124 := ⟨mt kind_blank.mpr hblank, mt kind_bar.mpr hbar⟩
      cases hkind : kind c with
      | blank => exact absurd hkind hblank
      | bar => exact absurd hkind hbar
      | quote =>
          have hquote := kind_quote.mp hkind
          simp [LineState.pass, wordScanner, hkind, hquote, hne, Stands]
      | plain =>
          have hquote : ¬ (c = 34 ∨ c = 39) := by
            rw [← kind_quote, hkind]
            decide
          simp [LineState.pass, wordScanner, hkind, hquote, hne, Stands]
  | quoted quote seen =>
      obtain ⟨rfl, hopen, rfl⟩ : inquote = some quote ∧ kind quote = .quote ∧
        wordStart = some (seen ++ c :: rest) := h
      by_cases hclose : c = quote
      · subst hclose
        simp [LineState.pass, wordScanner, hend, Stands]
      · have hopen' : quote ≠ c := fun h => hclose h.symm
        by_cases hkind : kind c = .quote
        · have hquote := kind_quote.mp hkind
          simp [LineState.pass, wordScanner, hkind, hclose, hopen', hquote, Stands]
        · have hquote := mt kind_quote.mpr hkind
          simp [LineState.pass, wordScanner, hkind, hclose, hopen', hquote,
            hopen, Stands]

/-- A pass at the blank or the bar that ends a word. -/
theorem Stands.pass_end {c : UInt8} {rest seen : Bytes} (h : s.Stands (.run seen))
    (hp : s.p = c :: rest) (hends : kind c = .blank ∨ kind c = .bar) :
    (s.pass c rest).Stands .between ∧ (s.pass c rest).p = c :: rest ∧
      (s.pass c rest).words = s.words ++ [seen] := by
  have hend := h.endWord
  obtain ⟨p, wordStart, inquote, words⟩ := s
  obtain ⟨rfl, rfl⟩ : inquote = none ∧ wordStart = some (seen ++ p) := h
  obtain rfl : p = c :: rest := hp
  have hc : c = 32 ∨ c = 124 := hends.imp kind_blank.mp kind_bar.mp
  simp [LineState.pass, hc, hend, wordScanner, Stands]

end LineState

/-- At a blank or a bar a run ends, and the scan goes on from there. -/
theorem wordScanner_run_end {c : UInt8} {seen : Bytes}
    (hends : kind c = .blank ∨ kind c = .bar) (rest : Bytes) :
    wordScanner.run (.run seen) (c :: rest)
      = seen :: wordScanner.run .between (c :: rest) := by
  rcases hends with hkind | hkind
  · simp [Scanner.run_cons, wordScanner, hkind]
  · simp [Scanner.run_cons, wordScanner, hkind]

theorem wordScanner_close_length (m : Mode) : (wordScanner.close m).length ≤ 1 := by
  cases m with
  | between => exact Nat.zero_le _
  | run seen => exact Nat.le_refl _
  | quoted quote seen => exact Nat.le_refl _

/-- The loop gives the words of the scan, as many as there is room for. -/
theorem cliParseWords_scan (maxWords : Nat) :
    ∀ (fuel : Nat) (s : LineState) (m : Mode) (words : List Bytes), s.Stands m →
    s.words.length ≤ maxWords - 1 → cliParseWords maxWords fuel s = .ok words →
    words = (s.words ++ wordScanner.run m s.p).take (maxWords - 1) := by
  intro fuel
  induction fuel with
  | zero => exact fun s m words _ _ hrun => by cases hrun
  | succ fuel ih =>
      intro s m words hstands hroom hrun
      rw [cliParseWords] at hrun
      split at hrun
      case isFalse hfull =>
        cases hrun
        rw [List.take_append_of_le_length (by omega),
          List.take_of_length_le (by omega)]
      case isTrue hfree =>
        split at hrun
        · next hp =>
            have hclose := wordScanner_close_length m
            cases hrun
            rw [hp, Scanner.run_nil, hstands.endWord, List.take_of_length_le]
            rw [List.length_append]
            omega
        · next c rest hp =>
            have hroom' := Nat.le_trans (s.pass_length c rest) hfree
            by_cases hends : ∃ seen, m = .run seen ∧
              (kind c = .blank ∨ kind c = .bar)
            · obtain ⟨seen, rfl, hends⟩ := hends
              obtain ⟨hnext, hp', hwords⟩ := hstands.pass_end hp hends
              rw [ih _ .between words hnext hroom' hrun, hp', hwords, hp,
                wordScanner_run_end hends, List.append_assoc]
              rfl
            · obtain ⟨hnext, hp', hwords⟩ := hstands.pass hp fun seen hm =>
                ⟨fun hk => hends ⟨seen, hm, Or.inl hk⟩,
                  fun hk => hends ⟨seen, hm, Or.inr hk⟩⟩
              rw [ih _ _ words hnext hroom' hrun, hp', hwords, hp, Scanner.run_cons,
                List.append_assoc]

/-- After its leading blanks the line begins with a bar. -/
def BarFirst (line : Bytes) : Prop := (line.dropWhile (· = 32)).head? = some 124

instance (line : Bytes) : Decidable (BarFirst line) :=
  inferInstanceAs (Decidable (_ = _))

theorem wordScanner_blanks (line : Bytes) :
    wordScanner.run .between (line.dropWhile (· = 32))
      = wordScanner.run .between line := by
  refine wordScanner.run_dropWhile (fun c hc => ?_) line
  obtain rfl : c = 32 := by simpa using hc
  rfl

/-- The first word is begun where the line begins, at a bar
too: it is empty there. -/
theorem cliParseLine_scan {line : Bytes} {maxWords : Nat} {words : List Bytes}
    (hrun : cliParseLine line maxWords = .ok words) :
    words = ((if BarFirst line then [[]] else [])
      ++ wordScanner.run .between line).take (maxWords - 1) := by
  rw [← wordScanner_blanks]
  rw [cliParseLine] at hrun
  cases hp : line.dropWhile (· = 32) with
  | nil =>
      have hbar : ¬ BarFirst line := fun h => by rw [BarFirst, hp] at h; cases h
      rw [hp] at hrun
      rw [if_neg hbar]
      exact cliParseWords_scan maxWords _ _ .between words ⟨rfl, rfl⟩
        (Nat.zero_le _) hrun
  | cons c rest =>
      rw [hp] at hrun
      have hblank : kind c ≠ .blank := fun hk => by
        have hne := List.head?_dropWhile_not (fun c : UInt8 => decide (c = 32)) line
        rw [hp] at hne
        simp [kind_blank.mp hk] at hne
      have hbar : BarFirst line ↔ kind c = .bar := by
        rw [BarFirst, hp, kind_bar, List.head?_cons, Option.some_inj]
      have hscan : words = ([] ++ wordScanner.run (.run []) (c :: rest)).take
          (maxWords - 1) :=
        cliParseWords_scan maxWords _ _ (.run []) words ⟨rfl, rfl⟩
          (Nat.zero_le _) hrun
      rw [hscan, List.nil_append]
      cases hkind : kind c with
      | blank => exact absurd hkind hblank
      | bar =>
          rw [if_pos (hbar.mpr hkind), wordScanner_run_end (Or.inr hkind)]
          rfl
      | quote =>
          rw [if_neg fun h => by rw [hbar.mp h] at hkind; cases hkind]
          simp [Scanner.run_cons, wordScanner, hkind]
      | plain =>
          rw [if_neg fun h => by rw [hbar.mp h] at hkind; cases hkind]
          simp [Scanner.run_cons, wordScanner, hkind]

/-! ## When the words are the lexemes -/

/-- What the code does not drop of a lexeme. -/
def Lexeme.keptWord : Lexeme → List Bytes
  | .run _ true => []
  | l => [l.word]

/-- No quote of the other kind stands in a quoted text. -/
def Lexeme.OneQuote : Lexeme → Prop
  | .quoted _ text => ∀ c ∈ text, kind c ≠ .quote
  | _ => True

/-- Without quotes in quoted texts, the words are those of the lexemes, but for the
runs that a quote stands behind. -/
theorem wordScanner_lexer :
    ∀ (rest : Bytes) (m : Mode), (∀ l ∈ lexer.run m rest, l.OneQuote) →
    wordScanner.run m rest = (lexer.run m rest).flatMap Lexeme.keptWord := by
  intro rest
  induction rest with
  | nil =>
      intro m _
      cases m with
      | between => rfl
      | run seen => rfl
      | quoted quote seen => rfl
  | cons c rest ih =>
      intro m hone
      have hrest : ∀ l ∈ lexer.run (lexer.step m c).2 rest, l.OneQuote := fun l hl =>
        hone l (List.mem_append_right _ hl)
      have hstep : wordScanner.step m c
          = ((lexer.step m c).1.flatMap Lexeme.keptWord, (lexer.step m c).2) := by
        cases m with
        | between =>
            cases hkind : kind c <;> simp [wordScanner, lexer, hkind,
              Lexeme.keptWord, Lexeme.word]
        | run seen =>
            cases hkind : kind c <;> simp [wordScanner, lexer, hkind,
              Lexeme.keptWord, Lexeme.word]
        | quoted quote seen =>
            by_cases hclose : c = quote
            · simp [wordScanner, lexer, hclose, Lexeme.keptWord]
            · -- the text goes on, and a quote in it would be the other one
              have hkind : kind c ≠ .quote := by
                have hopen : lexer.step (.quoted quote seen) c
                    = ([], .quoted quote (seen ++ [c])) :=
                  if_neg hclose
                rw [hopen, lexer_quoted] at hrest
                exact hrest _ List.mem_cons_self c
                  (List.mem_append_left _
                    (List.mem_append_right _ (List.mem_singleton_self c)))
              simp [wordScanner, lexer, hclose, hkind]
      rw [Scanner.run_cons, Scanner.run_cons, List.flatMap_append, hstep, ih _ hrest]

/-- The characters of the words are bars, and characters of the
line other than quotes. -/
theorem wordScanner_chars {Q : UInt8 → Prop} {line : Bytes}
    (hbar : ∀ c ∈ ascii "|", Q c) (hQ : ∀ c ∈ line, kind c ≠ .quote → Q c) :
    ∀ w ∈ wordScanner.run .between line, ∀ c ∈ w, Q c := by
  have hmore : ∀ {seen : Bytes} {c : UInt8}, (∀ b ∈ seen, Q b) → Q c →
      ∀ b ∈ seen ++ [c], Q b :=
    fun hseen hc => List.forall_mem_append.mpr ⟨hseen,
      List.forall_mem_singleton.mpr hc⟩
  have hnil : ∀ c ∈ ([] : Bytes), Q c := fun c hc => absurd hc List.not_mem_nil
  have hnone : ∀ w ∈ ([] : List Bytes), ∀ c ∈ w, Q c :=
    fun w hw => absurd hw List.not_mem_nil
  refine wordScanner.run_forall (fun m => ∀ c ∈ m.seen, Q c) _ (fun m hm => ?_) line
    (fun m c hc hm => ?_) .between hnil
  · cases m with
    | between => exact hnone
    | run seen => exact List.forall_mem_singleton.mpr hm
    | quoted quote seen => exact List.forall_mem_singleton.mpr hm
  · have hone := hQ c hc
    cases m with
    | between =>
        cases hkind : kind c with
        | blank => simpa only [wordScanner, hkind] using ⟨hnone, hnil⟩
        | bar =>
            simpa only [wordScanner, hkind]
              using ⟨List.forall_mem_singleton.mpr hbar, hnil⟩
        | quote => simpa only [wordScanner, hkind] using ⟨hnone, hnil⟩
        | plain =>
            simp only [wordScanner, hkind]
            exact ⟨hnone, hmore hnil (hone (by rw [hkind]; decide))⟩
    | run seen =>
        cases hkind : kind c with
        | blank =>
            simpa only [wordScanner, hkind]
              using ⟨List.forall_mem_singleton.mpr hm, hnil⟩
        | bar =>
            simp only [wordScanner, hkind]
            exact ⟨List.forall_mem_cons.mpr ⟨hm, List.forall_mem_singleton.mpr hbar⟩,
              hnil⟩
        | quote => simpa only [wordScanner, hkind] using ⟨hnone, hnil⟩
        | plain =>
            simp only [wordScanner, hkind]
            exact ⟨hnone, hmore hm (hone (by rw [hkind]; decide))⟩
    | quoted quote seen =>
        by_cases hclose : c = quote
        · simp only [wordScanner, if_pos hclose]
          exact ⟨List.forall_mem_singleton.mpr hm, hnil⟩
        · by_cases hkind : kind c = .quote
          · simp only [wordScanner, if_neg hclose, if_pos hkind]
            exact ⟨hnone, hnil⟩
          · simp only [wordScanner, if_neg hclose, if_neg hkind]
            exact ⟨hnone, hmore hm (hone hkind)⟩

/-- What the code keeps whole. -/
def Lexeme.Whole : Lexeme → Prop
  | .run _ quoteBehind => quoteBehind = false
  | .bar => True
  | .quoted _ text => ∀ c ∈ text, kind c ≠ .quote

instance : DecidablePred Lexeme.Whole
  | .run _ quoteBehind => inferInstanceAs (Decidable (quoteBehind = false))
  | .bar => inferInstanceAs (Decidable True)
  | .quoted _ text => inferInstanceAs (Decidable (∀ c ∈ text, kind c ≠ .quote))

/-- The words are the lexemes of the line, together they are the line without its
unquoted blanks and the quotes around texts, and only an empty quoted text is an
empty word. -/
structure LosesNothing (line : Bytes) (words : List Bytes) : Prop where
  tokens : words = (lexemes line).map Lexeme.word
  flatten : words.flatten = unquoted line
  empty : ∀ i : Nat, words[i]? = some [] →
    ∃ quote, (lexemes line)[i]? = some (Lexeme.quoted quote [])

theorem LosesNothing.of_lexemes {line : Bytes} {words : List Bytes}
    (h : words = (lexemes line).map Lexeme.word) : LosesNothing line words := by
  refine ⟨h, ?_, fun i hi => ?_⟩
  · rw [h, ← List.flatMap_def, lexemes_flatten]
  · rw [h, List.getElem?_map] at hi
    obtain ⟨l, hl, hword⟩ := Option.map_eq_some_iff.mp hi
    obtain ⟨quote, rfl⟩ := lexemes_word_nil line l (List.mem_of_getElem? hl) hword
    exact ⟨quote, hl⟩

theorem keptWords_length_le (ls : List Lexeme) :
    (ls.flatMap Lexeme.keptWord).length ≤ ls.length := by
  induction ls with
  | nil => exact Nat.le_refl _
  | cons l ls ih =>
      have hone : l.keptWord.length ≤ 1 := by
        unfold Lexeme.keptWord
        split
        · exact Nat.zero_le _
        · exact Nat.le_refl _
      rw [List.flatMap_cons, List.length_append, List.length_cons]
      omega

/-- A lexeme is one word or, when it is a run with a quote behind it, none. -/
theorem keptWords_eq_iff (ls : List Lexeme) :
    ls.flatMap Lexeme.keptWord = ls.map Lexeme.word ↔
    ∀ text, .run text true ∉ ls := by
  constructor
  · intro h text hmem
    obtain ⟨pre, post, rfl⟩ := List.append_of_mem hmem
    have hlen := congrArg List.length h
    have hpre := keptWords_length_le pre
    have hpost := keptWords_length_le post
    rw [List.flatMap_append, List.flatMap_cons, Lexeme.keptWord, List.nil_append,
      List.length_append, List.length_map, List.length_append, List.length_cons]
      at hlen
    omega
  · intro hnone
    induction ls with
    | nil => rfl
    | cons l ls ih =>
        have hword : l.keptWord = [l.word] := by
          unfold Lexeme.keptWord
          split
          · next text => exact absurd List.mem_cons_self (hnone text)
          · rfl
        rw [List.flatMap_cons, List.map_cons, hword,
          ih fun text hmem => hnone text (List.mem_cons_of_mem _ hmem)]
        rfl

theorem BarFirst.lexemes {line : Bytes} (h : BarFirst line) :
    ∃ ls, lexemes line = .bar :: ls := by
  have hskip : lexer.run .between (line.dropWhile (· = 32))
      = Pyramid.lexemes line := by
    refine lexer.run_dropWhile (fun c hc => ?_) line
    obtain rfl : c = 32 := by simpa using hc
    rfl
  obtain ⟨rest, hrest⟩ := List.head?_eq_some_iff.mp h
  rw [← hskip, hrest]
  exact ⟨_, rfl⟩

/-- The line loses nothing exactly if it does not begin with a bar, no quote stands
right behind a run, and none of the other kind in a quoted text. -/
theorem parse_line_iff (line : Bytes) (maxWords : Nat) (words : List Bytes)
    (hrun : cliParseLine line maxWords = .ok words)
    (hfew : words.length < maxWords - 1) :
    LosesNothing line words ↔ ¬ BarFirst line ∧ ∀ l ∈ lexemes line, l.Whole := by
  have hscan : words = (if BarFirst line then [[]] else [])
      ++ wordScanner.run .between line := by
    have htake := cliParseLine_scan hrun
    rw [htake, List.length_take] at hfew
    rwa [List.take_of_length_le (by omega)] at htake
  constructor
  · intro h
    have hone : ∀ l ∈ lexemes line, l.OneQuote := by
      intro l hl
      cases l with
      | run text quoteBehind => trivial
      | bar => trivial
      | quoted quote text =>
          -- no word of the code has a quote in it
          intro c hc
          have hword : text ∈ words := by
            rw [h.tokens]
            exact List.mem_map.mpr ⟨_, hl, rfl⟩
          rw [hscan] at hword
          rcases List.mem_append.mp hword with hempty | hword
          · split at hempty
            · rw [List.mem_singleton.mp hempty] at hc
              exact absurd hc List.not_mem_nil
            · exact absurd hempty List.not_mem_nil
          · exact wordScanner_chars (List.forall_mem_singleton.mpr (by decide))
              (fun c _ hquote => hquote) text hword c hc
    have hbar : ¬ BarFirst line := by
      -- the first word would be empty, and the first lexeme is a bar
      intro hbar
      obtain ⟨ls, hls⟩ := hbar.lexemes
      rw [h.tokens, if_pos hbar, hls, List.map_cons, List.singleton_append] at hscan
      cases (List.cons.inj hscan).1
    rw [if_neg hbar, List.nil_append, wordScanner_lexer line .between hone] at hscan
    have hkept := (keptWords_eq_iff (lexemes line)).mp (hscan.symm.trans h.tokens)
    refine ⟨hbar, fun l hl => ?_⟩
    cases l with
    | run text quoteBehind =>
        cases quoteBehind with
        | false => rfl
        | true => exact absurd hl (hkept text)
    | bar => trivial
    | quoted quote text => exact hone _ hl
  · rintro ⟨hbar, hwhole⟩
    have hone : ∀ l ∈ lexemes line, l.OneQuote := by
      intro l hl
      cases l with
      | run text quoteBehind => trivial
      | bar => trivial
      | quoted quote text => exact hwhole _ hl
    have hkept := (keptWords_eq_iff (lexemes line)).mpr fun text hmem =>
      Bool.noConfusion (hwhole _ hmem)
    rw [if_neg hbar, List.nil_append, wordScanner_lexer line .between hone] at hscan
    exact LosesNothing.of_lexemes (hscan.trans hkept)

/-- A line with blanks, bars and both kinds of quotes. -/
theorem parse_line_sample :
    LosesNothing (ascii " set 'job  x'|\"\" ") [ascii "set", ascii "job  x",
      ascii "|", []] := by
  exact (parse_line_iff _ 8 _ (by decide +kernel) (by decide)).mpr
    ⟨by decide, by decide +kernel⟩

/-- The run before a quote is lost. -/
theorem run_before_quote_lost :
    cliParseLine (ascii "ab\"cd\"") 8 = .ok [ascii "cd"] ∧
      ¬ LosesNothing (ascii "ab\"cd\"") [ascii "cd"] := by
  refine ⟨by decide +kernel, fun h => ?_⟩
  have hflatten := h.flatten
  revert hflatten
  decide +kernel

end Pyramid
