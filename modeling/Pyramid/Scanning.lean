/-
# `Pyramid.Scanning` — `cli_parse_line` with its pointers (`cli_commands.c`)

`CommandLine` gives the words of a line as lists.  Here the pointers are
offsets into the line and its end mark, the words are stored in the array of
the caller, and memory comes from `malloc`: a byte read behind the end mark, a
word stored behind the array, an `int` that overflows and a refused `malloc`
end the run.  Every pass shows what the pass in `CommandLine` does to the rest
of the line.
-/
import Pyramid.CommandLine

namespace Pyramid

/-! ## The loop -/

/-- The locals of `cli_parse_line`, and the array: each entry shows the string
it points at, end mark and all.  `inquote` is zero outside a quote. -/
structure LineScan where
  nwords : Nat
  p : Nat
  wordStart : Option Nat
  inquote : UInt8
  words : List (Option Bytes)
  deriving DecidableEq, Repr

def sizeT (x : Int) : Nat := (x % 18446744073709551616).toNat

/-- `words[i] = word` -/
def storeWord (words : List (Option Bytes)) (i : Nat) (word : Bytes) :
    Except Halt (List (Option Bytes)) :=
  if i < words.length then .ok (words.set i (some word)) else .error .outOfBounds

namespace LineScan

/-- The word begun at `word_start` is copied.  `grants` says whether `malloc`
gives this many bytes for the word of this number. -/
def endWord (grants : Nat → Nat → Bool) (line : Bytes) (s : LineScan) :
    Except Halt LineScan :=
  match s.wordStart with
  | none => .ok s
  | some start => do
      let len := toInt32 (s.p - start)
      if len = intMax then .error .overflow
      else if grants s.nwords (sizeT (len + 1)) then do
        let text ← peek line start (sizeT len)
        let words ← storeWord s.words s.nwords (text ++ [0])
        .ok { s with nwords := s.nwords + 1, words := words }
      else .error .nullDeref

/-- One pass of the loop, with `c` at `p`. -/
def pass (grants : Nat → Nat → Bool) (line : Bytes) (s : LineScan) (c : UInt8) :
    Except Halt LineScan :=
  if c = 0 ∨ c = s.inquote ∨ s.wordStart.isSome ∧ s.inquote = 0 ∧
    (c = 32 ∨ c = 124) then do
    let s ← s.endWord grants line
    if c = 0 then .ok s
    else .ok { s with
      p := if s.inquote = 0 then s.p else s.p + 1, inquote := 0, wordStart := none }
  else if c = 34 ∨ c = 39
    then .ok { s with p := s.p + 1, inquote := c, wordStart := some (s.p + 1) }
  else if s.wordStart.isSome then .ok { s with p := s.p + 1 }
  else if c = 124 then do
    let words ← storeWord s.words s.nwords [124, 0]
    .ok { s with p := s.p + 1, nwords := s.nwords + 1, words := words }
  else if c = 32 then .ok { s with p := s.p + 1 }
  else .ok { s with p := s.p + 1, wordStart := some s.p }

end LineScan

/-- The first loop: `p` and `word_start` after it. -/
def skipBlanks (line : Bytes) : Nat → Nat → Except Halt (Nat × Option Nat)
  | 0, _ => .error .diverge
  | fuel + 1, p => do
      let c ← load8 line p
      if c = 0 then .ok (p, none)
      else if c = 32 then skipBlanks line fuel (p + 1)
      else .ok (p, some p)

def scanWords (grants : Nat → Nat → Bool) (line : Bytes) (maxWords : Nat) :
    Nat → LineScan → Except Halt LineScan
  | 0, _ => .error .diverge
  | fuel + 1, s =>
      if s.nwords < maxWords - 1 then do
        let c ← load8 line s.p
        let s ← s.pass grants line c
        if c = 0 then .ok s else scanWords grants line maxWords fuel s
      else .ok s

/-- `cli_parse_line` of a line in memory, end mark and all: what it
returns, and the array. -/
def scanLine (grants : Nat → Nat → Bool) (line : Bytes) (words : List (Option Bytes))
    (maxWords fuel : Nat) : Except Halt (Nat × List (Option Bytes)) := do
  let (p, wordStart) ← skipBlanks line fuel 0
  let s ← scanWords grants line maxWords fuel ⟨0, p, wordStart, 0, words⟩
  .ok (s.nwords, s.words)

example :
    scanLine (fun _ _ => true) (ascii " a|'b c" ++ [0]) [none, none, none, none] 4 16
    = .ok (3, [some [97, 0], some [124, 0], some [98, 32, 99, 0], none]) := by
  decide +kernel

/-! ## Offsets and suffixes -/

/-- An entry of the array, for a word. -/
def entry (word : Bytes) : Option Bytes := some (word ++ [0])

theorem storeWord_entry {stored : List Bytes} {slots : List (Option Bytes)}
    (word : Bytes) (hroom : stored.length < slots.length) :
    storeWord (stored.map entry ++ slots.drop stored.length) stored.length
      (word ++ [0])
      = .ok ((stored ++ [word]).map entry
        ++ slots.drop (stored ++ [word]).length) := by
  have hlt : stored.length
      < (stored.map entry ++ slots.drop stored.length).length := by
    rw [List.length_append, List.length_map, List.length_drop]
    omega
  rw [storeWord, if_pos hlt, List.set_append_right _ _ (by rw [List.length_map]),
    List.length_map, Nat.sub_self, List.drop_eq_getElem_cons hroom,
    List.set_cons_zero]
  simp [entry]

/-- The bytes between two offsets are a part of the line, and a `memcpy` of them
stays in it. -/
theorem peek_between {line : Bytes} {start p : Nat} (hstart : start ≤ p)
    (hp : p ≤ line.length) :
    peek (line ++ [0]) start (p - start)
      = .ok ((line.drop start).take (p - start)) := by
  rw [peek, if_pos (by simp; omega), List.drop_append_of_le_length (by omega),
    List.take_append_of_le_length (by simp; omega)]

/-- The length of a word is an `int`, and so is the size of
what is allocated for it. -/
theorem LineScan.endWord_some {line : Bytes} (hint : (line.length : Int) < intMax)
    (grants : Nat → Nat → Bool) {s : LineScan} {start : Nat}
    (hbegun : s.wordStart = some start) (hstart : start ≤ s.p)
    (hp : s.p ≤ line.length) :
    s.endWord grants (line ++ [0]) =
      if grants s.nwords (s.p - start + 1) then do
        let words ← storeWord s.words s.nwords
          ((line.drop start).take (s.p - start) ++ [0])
        .ok { s with nwords := s.nwords + 1, words := words }
      else .error .nullDeref := by
  unfold intMax at hint
  have hlen : toInt32 (s.p - start) = ((s.p - start : Nat) : Int) := by
    unfold toInt32
    omega
  have htext : sizeT ((s.p - start : Nat) : Int) = s.p - start := by
    unfold sizeT
    omega
  have hsize : sizeT ((s.p - start : Nat) + 1) = s.p - start + 1 := by
    unfold sizeT
    omega
  simp only [LineScan.endWord, hbegun, hlen, htext, hsize,
    peek_between hstart hp, ok_bind]
  exact if_neg (by unfold intMax; omega)

/-- The two states are one, with offsets on the one side and what is left of the line
on the other. -/
structure LineScan.Shows (line : Bytes) (slots : List (Option Bytes)) (s : LineScan)
    (ls : LineState) :
    Prop where
  p_le : s.p ≤ line.length
  start_le : ∀ start, s.wordStart = some start → start ≤ s.p
  p : ls.p = line.drop s.p
  wordStart : ls.wordStart = s.wordStart.map fun start => line.drop start
  inquote : ls.inquote = if s.inquote = 0 then none else some s.inquote
  nwords : s.nwords = ls.words.length
  words : s.words = ls.words.map entry ++ slots.drop ls.words.length
  parts : ∀ word ∈ ls.words, word <:+: line

/-- `malloc` has refused the memory for a word, and the run has ended there. -/
def NoMemory {α : Type} (grants : Nat → Nat → Bool) (line : Bytes)
    (run : Except Halt α) : Prop :=
  run = .error .nullDeref ∧ ∃ nwords size, size ≤ line.length + 1 ∧
    grants nwords size = false

theorem NoMemory.bind {α β : Type} {grants : Nat → Nat → Bool} {line : Bytes}
    {run : Except Halt α} (h : NoMemory grants line run) (f : α → Except Halt β) :
    NoMemory grants line (run >>= f) := by
  refine ⟨?_, h.2⟩
  rw [h.1, error_bind]

namespace LineScan.Shows

variable (grants : Nat → Nat → Bool) {line : Bytes} {slots : List (Option Bytes)}
  {s : LineScan}
  {ls : LineState}

theorem store (h : s.Shows line slots ls) (hroom : ls.words.length < slots.length)
    (word : Bytes) :
    storeWord s.words s.nwords (word ++ [0])
      = .ok ((ls.words ++ [word]).map entry
        ++ slots.drop (ls.words ++ [word]).length) := by
  rw [h.words, h.nwords]
  exact storeWord_entry word hroom

theorem endWord (h : s.Shows line slots ls) (hint : (line.length : Int) < intMax)
    (hroom : ls.words.length < slots.length) :
    (∃ s', s.endWord grants (line ++ [0]) = .ok s' ∧
      LineScan.Shows line slots { s' with wordStart := none } ls.endWord ∧
      s'.p = s.p ∧ s'.inquote = s.inquote) ∨
      NoMemory grants line (s.endWord grants (line ++ [0])) := by
  have hstart := h.wordStart
  cases hbegun : s.wordStart with
  | none =>
      rw [hbegun] at hstart
      have hend : ls.endWord = ls := by
        rw [LineState.endWord, hstart]
        rfl
      refine Or.inl ⟨s, by rw [LineScan.endWord, hbegun], ?_, rfl, rfl⟩
      rw [hend]
      exact ⟨h.p_le, nofun, h.p, hstart, h.inquote, h.nwords, h.words, h.parts⟩
  | some start =>
      have hle := h.start_le start hbegun
      have hp_le := h.p_le
      rw [hbegun] at hstart
      have hend : ls.endWord = { ls with
          words := ls.words ++ [(line.drop start).take (s.p - start)], wordStart :=
            none } := by
        rw [LineState.endWord, hstart, h.p]
        simp only [Option.map_some, List.length_drop]
        congr 4
        omega
      rw [LineScan.endWord_some hint grants hbegun hle hp_le]
      by_cases hgrants : grants s.nwords (s.p - start + 1) = true
      · rw [if_pos hgrants, h.store hroom, ok_bind, hend]
        refine Or.inl ⟨_, rfl, ⟨hp_le, nofun, h.p, rfl, h.inquote,
          by simp [h.nwords], rfl, ?_⟩, rfl, rfl⟩
        intro word hword
        rcases List.mem_append.mp hword with hword | hword
        · exact h.parts word hword
        · rw [List.mem_singleton.mp hword]
          exact ((List.take_prefix _ _).isInfix).trans (List.drop_suffix _ _).isInfix
      · rw [if_neg hgrants]
        exact Or.inr ⟨rfl, _, _, by omega, Bool.not_eq_true _ ▸ hgrants⟩

/-- A word ends: a closing quote is skipped, a blank or a bar is not. -/
theorem ended (h : s.Shows line slots ls) (hint : (line.length : Int) < intMax)
    (hroom : ls.words.length < slots.length) (hlt : s.p < line.length) {rest : Bytes}
    (hdrop : line.drop s.p = rest) :
    (∃ s', s.endWord grants (line ++ [0]) = .ok s' ∧
      LineScan.Shows line slots
        { s' with
          p := if s'.inquote = 0 then s'.p else s'.p + 1
          inquote := 0
          wordStart := none }
        { ls.endWord with
          p := if ls.inquote.isSome then line.drop (s.p + 1) else rest
          inquote := none }) ∨
    NoMemory grants line (s.endWord grants (line ++ [0])) := by
  rcases h.endWord grants hint hroom with ⟨s', hs', hshows, hp, hquote⟩ | hrefused
  · refine Or.inl ⟨s', hs', ?_⟩
    rw [hp, hquote, h.inquote]
    by_cases hzero : s.inquote = 0
    · simp only [hzero, if_true, Option.isSome_none, Bool.false_eq_true, if_false]
      exact ⟨h.p_le, nofun, hdrop.symm, hshows.wordStart, rfl, hshows.nwords,
        hshows.words, hshows.parts⟩
    · simp only [hzero, if_false, Option.isSome_some, if_true]
      exact ⟨hlt, nofun, rfl, hshows.wordStart, rfl, hshows.nwords, hshows.words,
        hshows.parts⟩
  · exact Or.inr hrefused

/-- The pointer moves on by one. -/
theorem moved (h : s.Shows line slots ls) (hlt : s.p < line.length)
    (start : Option Nat) (quote : UInt8) (hle : ∀ i, start = some i → i ≤ s.p + 1) :
    LineScan.Shows line slots { s with
      p := s.p + 1, wordStart := start, inquote := quote }
      { ls with
        p := line.drop (s.p + 1)
        wordStart := start.map fun i => line.drop i
        inquote := if quote = 0 then none else some quote } :=
  ⟨hlt, hle, rfl, rfl, rfl, h.nwords, h.words, h.parts⟩

/-- Both decide in the same way whether a word ends at this character. -/
theorem ends_iff (h : s.Shows line slots ls) {c : UInt8} (hc : c ≠ 0) :
    (c = 0 ∨ c = s.inquote ∨ s.wordStart.isSome ∧ s.inquote = 0 ∧
      (c = 32 ∨ c = 124)) ↔
      (ls.inquote = some c ∨ ls.wordStart.isSome ∧ ls.inquote = none ∧
        (c = 32 ∨ c = 124)) := by
  rw [h.inquote, h.wordStart, Option.isSome_map]
  by_cases hquote : s.inquote = 0
  · simp [hquote, hc]
  · simp only [hquote, hc, if_false, false_and, and_false, or_false, false_or,
      reduceCtorEq, Option.some.injEq]
    exact eq_comm

theorem pass (h : s.Shows line slots ls) (hint : (line.length : Int) < intMax)
    (hroom : ls.words.length < slots.length) (hlt : s.p < line.length) {c : UInt8}
    (hc : c ≠ 0) (hdrop : line.drop s.p = c :: line.drop (s.p + 1)) :
    (∃ s', s.pass grants (line ++ [0]) c = .ok s' ∧
      s'.Shows line slots (ls.pass c (line.drop (s.p + 1)))) ∨
    NoMemory grants line (s.pass grants (line ++ [0]) c) := by
  have hends := h.ends_iff hc
  unfold LineScan.pass LineState.pass
  by_cases hend : ls.inquote = some c ∨ ls.wordStart.isSome ∧ ls.inquote = none ∧
    (c = 32 ∨ c = 124)
  · rw [if_pos (hends.mpr hend), if_pos hend]
    rcases h.ended grants hint hroom hlt hdrop with ⟨s', hs', hshows⟩ | hrefused
    · rw [hs', ok_bind, if_neg hc]
      exact Or.inl ⟨_, rfl, hshows⟩
    · exact Or.inr (hrefused.bind _)
  rw [if_neg (mt hends.mp hend), if_neg hend]
  refine Or.inl ?_
  by_cases hopen : c = 34 ∨ c = 39
  · rw [if_pos hopen, if_pos hopen]
    have hmoved :=
      h.moved hlt (some (s.p + 1)) c (by rintro i ⟨⟩; exact Nat.le_refl _)
    rw [if_neg hc] at hmoved
    exact ⟨_, rfl, hmoved⟩
  rw [if_neg hopen, if_neg hopen]
  have hsame := h.moved hlt s.wordStart s.inquote fun i hi =>
    Nat.le_succ_of_le (h.start_le i hi)
  rw [← h.inquote, ← h.wordStart] at hsame
  have hbegun : ls.wordStart.isSome = s.wordStart.isSome := by
    rw [h.wordStart, Option.isSome_map]
  rw [hbegun]
  by_cases hword : s.wordStart.isSome = true
  · rw [if_pos hword, if_pos hword]
    exact ⟨_, rfl, hsame⟩
  rw [if_neg hword, if_neg hword]
  by_cases hbar : c = 124
  · have hstore := h.store hroom [124]
    rw [List.cons_append, List.nil_append] at hstore
    rw [if_pos hbar, if_pos hbar, hstore, ok_bind]
    refine ⟨_, rfl, hsame.p_le, hsame.start_le, rfl, hsame.wordStart, hsame.inquote,
      ?_, rfl, ?_⟩
    · simp [h.nwords]
    · intro word hmem
      rcases List.mem_append.mp hmem with hmem | hmem
      · exact h.parts word hmem
      · rw [List.mem_singleton.mp hmem]
        refine List.IsInfix.trans ?_ (List.drop_suffix s.p line).isInfix
        rw [hdrop, hbar]
        exact (List.prefix_append [124] _).isInfix
  rw [if_neg hbar, if_neg hbar]
  by_cases hblank : c = 32
  · rw [if_pos hblank, if_pos hblank]
    exact ⟨_, rfl, hsame⟩
  · rw [if_neg hblank, if_neg hblank, ← hdrop]
    have hmoved :=
      h.moved hlt (some s.p) s.inquote (by rintro i ⟨⟩; exact Nat.le_succ _)
    rw [← h.inquote] at hmoved
    exact ⟨_, rfl, hmoved⟩

end LineScan.Shows

/-! ## The run -/

/-- The array holds these words first and then what it held before; there are
fewer of them than `max_words`, and each is a part of the line. -/
structure Stored (line : Bytes) (slots : List (Option Bytes)) (maxWords : Nat)
    (stored : List Bytes) (result : Nat × List (Option Bytes)) : Prop where
  nwords : result.1 = stored.length
  array : result.2 = stored.map entry ++ slots.drop stored.length
  room : stored.length ≤ maxWords - 1
  parts : ∀ word ∈ stored, word <:+: line

theorem LineScan.Shows.stored {line : Bytes} {slots : List (Option Bytes)}
    {s : LineScan} {ls : LineState} (h : s.Shows line slots ls) {maxWords : Nat}
    (hroom : ls.words.length ≤ maxWords - 1) :
    Stored line slots maxWords ls.words (s.nwords, s.words) :=
  ⟨h.nwords, h.words, hroom, h.parts⟩

theorem LineScan.pass_nul (grants : Nat → Nat → Bool) (line : Bytes) (s : LineScan) :
    s.pass grants line 0 = s.endWord grants line := by
  rw [LineScan.pass, if_pos (Or.inl rfl)]
  cases s.endWord grants line with
  | error e => rfl
  | ok s' => rfl

section
variable (grants : Nat → Nat → Bool) {line : Bytes} {slots : List (Option Bytes)}
  {maxWords : Nat}

/-- Up to the end mark every character is one that is not zero. -/
theorem load8_line (hline : 0 ∉ line) {p : Nat} (hlt : p < line.length) :
    ∃ c, c ≠ 0 ∧ load8 (line ++ [0]) p = .ok c ∧
      line.drop p = c :: line.drop (p + 1) := by
  refine ⟨_, fun hzero => hline (hzero ▸ List.getElem_mem hlt), ?_,
    List.drop_eq_getElem_cons hlt⟩
  rw [load8_of_lt (by simp; omega), List.getElem_append_left hlt]

theorem load8_nul : load8 (line ++ [0]) line.length = .ok 0 := by
  rw [load8_of_lt (by simp), List.getElem_append_right (Nat.le_refl _)]
  simp

/-- Every run of the loop ends, and it stores the words of the loop in
`CommandLine`. -/
theorem scanWords_stores (hline : 0 ∉ line) (hint : (line.length : Int) < intMax)
    (hroom : maxWords - 1 ≤ slots.length) :
    ∀ (fuel : Nat) (s : LineScan) (ls : LineState), s.Shows line slots ls →
    ls.Quoted → ls.left < fuel → ls.words.length ≤ maxWords - 1 →
    (∃ s' stored, scanWords grants (line ++ [0]) maxWords fuel s = .ok s' ∧
      cliParseWords maxWords fuel ls = .ok stored ∧
      Stored line slots maxWords stored (s'.nwords, s'.words)) ∨
    NoMemory grants line (scanWords grants (line ++ [0]) maxWords fuel s) := by
  intro fuel
  induction fuel with
  | zero => exact fun s ls _ _ hfuel => absurd hfuel (Nat.not_lt_zero _)
  | succ fuel ih =>
      intro s ls hshows hquoted hfuel hwords
      rw [scanWords, cliParseWords, hshows.nwords]
      by_cases hmore : ls.words.length < maxWords - 1
      case neg =>
        rw [if_neg hmore, if_neg hmore]
        exact Or.inl ⟨s, ls.words, rfl, rfl, hshows.stored hwords⟩
      rw [if_pos hmore, if_pos hmore]
      have hslots := Nat.lt_of_lt_of_le hmore hroom
      rcases Nat.lt_or_eq_of_le hshows.p_le with hlt | hnul
      · obtain ⟨c, hc, hload, hdrop⟩ := load8_line hline hlt
        have hp : ls.p = c :: line.drop (s.p + 1) := hshows.p.trans hdrop
        rw [hload, ok_bind, hp]
        rcases hshows.pass grants hint hslots hlt hc hdrop with
          ⟨s', hpass, hshows'⟩ | hrefused
        · rw [hpass, ok_bind, if_neg hc]
          have hleft := LineState.pass_left hp hquoted
          exact ih s' _ hshows' (hquoted.pass _ _) (by omega)
            (Nat.le_trans (ls.pass_length _ _) hmore)
        · exact Or.inr (hrefused.bind _)
      · have hp : ls.p = [] := hshows.p.trans (by rw [hnul, List.drop_length])
        rw [hnul, load8_nul, ok_bind, hp, LineScan.pass_nul]
        rcases hshows.endWord grants hint hslots with
          ⟨s', hend, hshows', -, -⟩ | hrefused
        · rw [hend, ok_bind, if_pos rfl]
          exact Or.inl ⟨s', _, rfl, rfl,
            hshows'.stored (Nat.le_trans ls.endWord_length hmore)⟩
        · exact Or.inr (hrefused.bind _)

/-- The first loop stops at the first word, or at the end mark. -/
theorem skipBlanks_stops (hline : 0 ∉ line) : ∀ (fuel p : Nat), p ≤ line.length →
    line.length - p < fuel → ∃ q, q ≤ line.length
      ∧ line.drop q = (line.drop p).dropWhile (· = 32) ∧
      skipBlanks (line ++ [0]) fuel p
        = .ok (q, if line.drop q = [] then none else some q) := by
  intro fuel
  induction fuel with
  | zero => exact fun p _ hfuel => absurd hfuel (Nat.not_lt_zero _)
  | succ fuel ih =>
      intro p hp hfuel
      rw [skipBlanks]
      rcases Nat.lt_or_eq_of_le hp with hlt | rfl
      · obtain ⟨c, hc, hload, hdrop⟩ := load8_line hline hlt
        rw [hload, ok_bind, if_neg hc]
        by_cases hblank : c = 32
        · rw [if_pos hblank, hdrop, List.dropWhile_cons_of_pos
            (by simpa using hblank)]
          exact ih (p + 1) hlt (by omega)
        · rw [if_neg hblank]
          refine ⟨p, hp, ?_, ?_⟩
          · rw [hdrop, List.dropWhile_cons_of_neg (by simpa using hblank)]
          · rw [hdrop, if_neg (List.cons_ne_nil _ _)]
      · rw [load8_nul, ok_bind, if_pos rfl]
        refine ⟨line.length, hp, ?_, ?_⟩
        · rw [List.drop_length]
          rfl
        · rw [List.drop_length, if_pos rfl]

theorem scanLine_stores (hline : 0 ∉ line) (hint : (line.length : Int) < intMax)
    (hroom : maxWords - 1 ≤ slots.length) {fuel : Nat}
    (hfuel : 2 * line.length + 2 ≤ fuel) :
    (∃ result stored, scanLine grants (line ++ [0]) slots maxWords fuel
      = .ok result ∧
      cliParseLine line maxWords = .ok stored ∧
      Stored line slots maxWords stored result) ∨
    NoMemory grants line (scanLine grants (line ++ [0]) slots maxWords fuel) := by
  obtain ⟨q, hq, hdrop, hskip⟩ :=
    skipBlanks_stops hline fuel 0 (Nat.zero_le _) (by omega)
  rw [List.drop_zero] at hdrop
  have hshows : LineScan.Shows line slots ⟨0, q, if line.drop q = [] then none
      else some q, 0, slots⟩
      ⟨line.drop q, if line.drop q = [] then none else some (line.drop q),
        none, []⟩ := by
    refine ⟨hq, ?_, rfl, ?_, rfl, rfl, rfl, fun word hword =>
      absurd hword List.not_mem_nil⟩
    · intro start hstart
      split at hstart
      · cases hstart
      · cases hstart
        exact Nat.le_refl _
    · split
      · rfl
      · rfl
  have hleft := LineState.left_le
    ⟨line.drop q, if line.drop q = [] then none else some (line.drop q), none, []⟩
  have hwords : (2 * (line.drop q).length + 1) + 1 ≤ fuel := by
    rw [List.length_drop]
    omega
  rw [scanLine, hskip, ok_bind]
  dsimp only
  rcases scanWords_stores grants hline hint hroom fuel _ _ hshows
    (fun hnone => absurd hnone Bool.false_ne_true)
    (Nat.lt_of_lt_of_le (Nat.lt_succ_of_le hleft) hwords) (Nat.zero_le _) with
    ⟨s', stored, hscan, hparse, hstored⟩ | hrefused
  · refine Or.inl ⟨_, stored, by rw [hscan]; rfl, ?_, hstored⟩
    obtain ⟨ws, hws, -⟩ := cliParseLine_ok line maxWords
    rw [cliParseLine, ← hdrop] at hws ⊢
    have hmore := cliParseWords_more maxWords _ _ hws fuel hfuel
    rw [hws]
    exact hmore.symm.trans hparse
  · exact Or.inr (hrefused.bind _)

/-- The run ends, and it reads and stores only where it may.  The length of a word is
an `int`: the lines of `cli_main` are shorter than `INT_MAX`, and so is `line`. -/
theorem scanLine_in_bounds (hline : 0 ∉ line) (hint : (line.length : Int) < intMax)
    (hroom : maxWords - 1 ≤ slots.length) :
    ∃ passes, ∀ fuel, passes ≤ fuel →
      (∃ result stored, scanLine grants (line ++ [0]) slots maxWords fuel
        = .ok result ∧
        Stored line slots maxWords stored result) ∨
      NoMemory grants line (scanLine grants (line ++ [0]) slots maxWords fuel) := by
  refine ⟨2 * line.length + 2, fun fuel hfuel => ?_⟩
  rcases scanLine_stores grants hline hint hroom hfuel with
    ⟨result, stored, hrun, -, hstored⟩ | hrefused
  · exact Or.inl ⟨result, stored, hrun, hstored⟩
  · exact Or.inr hrefused

end

/-- Four words in a line, one of them with a blank, and room for
three: nothing is refused. -/
theorem scanLine_in_bounds_sample :
    ∃ passes, ∀ fuel, passes ≤ fuel → ∃ result stored,
      scanLine (fun _ _ => true) (ascii "set 'a b' job 7" ++ [0]) [none, none,
        none] 4 fuel = .ok result ∧
        Stored (ascii "set 'a b' job 7") [none, none, none] 4 stored result := by
  obtain ⟨passes, hpasses⟩ :=
    @scanLine_in_bounds (fun _ _ => true) (ascii "set 'a b' job 7")
    [none, none, none] 4 (by decide) (by decide) (by decide)
  refine ⟨passes, fun fuel hfuel => ?_⟩
  rcases hpasses fuel hfuel with hstored | ⟨-, n, size, -, hrefused⟩
  · exact hstored
  · cases hrefused

/-! ## The lines of `cli_main` -/

/-- The string that `cli_main` makes of what `fgets` puts in `char str[100]`: the
last character is cut off. -/
def cliMainLine (input : Bytes) : Except Halt Bytes :=
  let str := (fgets 99 input).1.takeWhile (· ≠ 0)
  if str = [] then .error .outOfBounds else .ok str.dropLast

theorem cliMainLine_fits {input line : Bytes} (h : cliMainLine input = .ok line) :
    0 ∉ line ∧ line.length < 99 := by
  simp only [cliMainLine] at h
  split at h
  · cases h
  next hne =>
  cases h
  constructor
  · intro hmem
    exact absurd (List.mem_takeWhile_imp ((List.dropLast_sublist _).subset hmem))
      (by decide)
  · have hfgets := fgets_length 99 input
    have htake : ((fgets 99 input).1.takeWhile (· ≠ 0)).length
        ≤ (fgets 99 input).1.length :=
      (List.takeWhile_sublist _).length_le
    have hpos := List.length_pos_of_ne_nil hne
    rw [List.length_dropLast]
    omega

/-- What `parse_cli` has of a line that was typed: if `malloc` refuses nothing, the
array of eight entries holds the words of `cliParseLine`. -/
theorem cliMainLine_stores {input line : Bytes} (h : cliMainLine input = .ok line) :
    ∃ result stored, scanLine (fun _ _ => true) (line ++ [0])
      (List.replicate 8 none) 8
        (2 * line.length + 2) = .ok result ∧
      cliParseLine line 8 = .ok stored ∧
      Stored line (List.replicate 8 none) 8 stored result := by
  obtain ⟨hline, hlength⟩ := cliMainLine_fits h
  have hroom : 8 - 1 ≤ (List.replicate 8 (none : Option Bytes)).length := by decide
  have hstores :=
    scanLine_stores (fun _ _ => true) hline (by unfold intMax; omega) hroom
      (Nat.le_refl _)
  rcases hstores with hstores | ⟨-, n, size, -, hrefused⟩
  · exact hstores
  · cases hrefused

end Pyramid
