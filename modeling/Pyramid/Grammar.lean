/-
# `Pyramid.Grammar` — the commands that `parse_cli` recognises (`cli_commands.c`)

`parse_cli` joins the words of a line again, in a block of memory that `malloc`
gives for the length of the line, and compares the text it finds there: the
whole text, or how it begins and the number of the words.  The commands are a
table here (`commands`); what the code compares with each is `Command.Matches`,
and the words it is for are `Command.Accepts`.  In the joined text a blank inside
a word looks like one behind it, and of a longer command only the beginning is
compared, so there are other words that pass for it (`Command.PassesFor`).
-/
import Pyramid.Lexemes
import Mathlib.Data.List.Pairwise

namespace Pyramid

/-! ## The block -/

/-- `strcat` to a block: to the string that is there, whatever it is. -/
def strcat (block text : Bytes) : Except Halt Bytes := do
  let s ← cString block
  if s.length + text.length < block.length then
    .ok (s ++ text ++ 0 :: block.drop (s.length + text.length + 1))
  else .error .outOfBounds

/-- The loop of `parse_cli`. -/
def joinWords (block : Bytes) : List Bytes → Except Halt Bytes
  | [] => .ok block
  | w :: ws => do
      let block ← strcat block w
      let block ← strcat block (ascii " ")
      joinWords block ws

/-- Each word with a blank behind it. -/
def joined (words : List Bytes) : Bytes := words.flatMap (· ++ ascii " ")

theorem joined_cons (w : Bytes) (ws : List Bytes) :
    joined (w :: ws) = w ++ ascii " " ++ joined ws :=
  List.flatMap_cons

theorem joined_append (xs ys : List Bytes) :
    joined (xs ++ ys) = joined xs ++ joined ys :=
  List.flatMap_append

/-! ## Blanks in words -/

/-- The words, cut at the blanks that are in them. -/
def cutAtBlanks (words : List Bytes) : List Bytes := words.flatMap (·.splitOn 32)

/-- The texts begin with these words, of which the last may go on. -/
def Begins : List Bytes → List Bytes → Prop
  | [], _ => True
  | _ :: _, [] => False
  | [v], w :: _ => v <+: w
  | v :: v' :: vs, w :: ws => v = w ∧ Begins (v' :: vs) ws

instance : ∀ vs ws, Decidable (Begins vs ws)
  | [], _ => .isTrue trivial
  | _ :: _, [] => .isFalse id
  | [v], w :: _ => inferInstanceAs (Decidable (v <+: w))
  | v :: v' :: vs, w :: ws =>
      have := instDecidableBegins (v' :: vs) ws
      inferInstanceAs (Decidable (v = w ∧ Begins (v' :: vs) ws))

/-- With a blank behind each part of it a word is as it was. -/
theorem joined_splitOn (w : Bytes) : joined (w.splitOn 32) = w ++ ascii " " := by
  induction w with
  | nil => rfl
  | cons c w ih =>
      rw [List.splitOn_cons_eq_if_modifyHead]
      split
      case isTrue hc =>
        rw [joined_cons, ih, beq_iff_eq.mp hc]
        rfl
      case isFalse =>
        obtain ⟨part, parts, hsplit⟩ :=
          List.exists_cons_of_ne_nil (List.splitOn_ne_nil 32 w)
        rw [hsplit, joined_cons] at ih
        rw [hsplit, List.modifyHead_cons, joined_cons, List.cons_append,
          List.cons_append, ih]
        rfl

theorem joined_cut (words : List Bytes) :
    joined (cutAtBlanks words) = joined words := by
  induction words with
  | nil => rfl
  | cons w ws ih =>
      have hcut : cutAtBlanks (w :: ws) = w.splitOn 32 ++ cutAtBlanks ws :=
        List.flatMap_cons
      rw [hcut, joined_append, joined_splitOn, ih, joined_cons]

theorem not_mem_splitOn (w : Bytes) : ∀ part ∈ w.splitOn 32, 32 ∉ part := by
  induction w with
  | nil => decide
  | cons c w ih =>
      obtain ⟨part, parts, hsplit⟩ :=
        List.exists_cons_of_ne_nil (List.splitOn_ne_nil 32 w)
      rw [hsplit] at ih
      rw [List.splitOn_cons_eq_if_modifyHead, hsplit]
      split
      · exact List.forall_mem_cons.mpr ⟨List.not_mem_nil, ih⟩
      · next hc =>
        obtain ⟨hpart, hparts⟩ := List.forall_mem_cons.mp ih
        refine List.forall_mem_cons.mpr ⟨fun hmem => ?_, hparts⟩
        rcases List.mem_cons.mp hmem with rfl | hmem
        · exact hc (beq_self_eq_true _)
        · exact hpart hmem

theorem not_mem_cut (words : List Bytes) :
    ∀ part ∈ cutAtBlanks words, 32 ∉ part := by
  intro part hpart
  obtain ⟨w, -, hpart⟩ := List.mem_flatMap.mp hpart
  exact not_mem_splitOn w part hpart

section Blank
variable {v w r t : Bytes}

/-- What has no blank is not found beyond the first one. -/
theorem prefix_blank (hv : 32 ∉ v) : v <+: w ++ 32 :: t ↔ v <+: w := by
  constructor
  · intro h
    rcases List.prefix_or_prefix_of_prefix h (List.prefix_append w (32 :: t)) with
      hw | ⟨s, rfl⟩
    · exact hw
    · cases s with
      | nil => exact ⟨[], by simp⟩
      | cons c s =>
          obtain ⟨rfl, -⟩ :=
            List.cons_prefix_cons.mp ((List.prefix_append_right_inj w).mp h)
          exact absurd (List.mem_append_right w List.mem_cons_self) hv
  · exact fun h => h.trans (List.prefix_append w _)

/-- Up to its first blank a text begins with one word only. -/
theorem blank_prefix_blank (hv : 32 ∉ v) (hw : 32 ∉ w) :
    v ++ 32 :: r <+: w ++ 32 :: t ↔ v = w ∧ r <+: t := by
  constructor
  · intro h
    have hvw := (prefix_blank hv).mp ((List.prefix_append v _).trans h)
    obtain ⟨s, rfl⟩ := hvw
    rw [List.append_assoc, List.prefix_append_right_inj] at h
    cases s with
    | nil => exact ⟨(List.append_nil v).symm, (List.cons_prefix_cons.mp h).2⟩
    | cons c s =>
        obtain ⟨rfl, -⟩ := List.cons_prefix_cons.mp h
        exact absurd (List.mem_append_right v List.mem_cons_self) hw
  · rintro ⟨rfl, h⟩
    exact (List.prefix_append_right_inj v).mpr (List.cons_prefix_cons.mpr ⟨rfl, h⟩)

end Blank

theorem joined_ne_nil (w : Bytes) (ws : List Bytes) : joined (w :: ws) ≠ [] := by
  rw [joined_cons]
  exact List.append_ne_nil_of_left_ne_nil
    (List.append_ne_nil_of_right_ne_nil w (List.cons_ne_nil _ _)) _

theorem joined_cons_blank (w : Bytes) (ws : List Bytes) :
    joined (w :: ws) = w ++ 32 :: joined ws := by
  rw [joined_cons, List.append_assoc]
  rfl

theorem joined_inj {vs ws : List Bytes} (hvs : ∀ v ∈ vs, 32 ∉ v)
    (hws : ∀ w ∈ ws, 32 ∉ w) (h : joined vs = joined ws) : vs = ws := by
  induction vs generalizing ws with
  | nil =>
      cases ws with
      | nil => rfl
      | cons w ws => exact absurd h.symm (joined_ne_nil w ws)
  | cons v vs ih =>
      cases ws with
      | nil => exact absurd h (joined_ne_nil v vs)
      | cons w ws =>
          obtain ⟨hv, hvs'⟩ := List.forall_mem_cons.mp hvs
          obtain ⟨hw, hws'⟩ := List.forall_mem_cons.mp hws
          rw [joined_cons_blank, joined_cons_blank] at h
          obtain ⟨rfl, -⟩ :=
            (blank_prefix_blank hv hw).mp ⟨[], by rw [List.append_nil, h]⟩
          have hrest : joined vs = joined ws :=
            (List.cons.inj (List.append_cancel_left h)).2
          rw [ih hvs' hws' hrest]

/-- Without the last blank. -/
theorem dropLast_joined_one (v : Bytes) : (joined [v]).dropLast = v := by
  rw [joined_cons_blank]
  exact List.dropLast_concat

theorem dropLast_joined_cons (v w : Bytes) (ws : List Bytes) :
    (joined (v :: w :: ws)).dropLast = v ++ 32 :: (joined (w :: ws)).dropLast := by
  rw [joined_cons_blank v, List.dropLast_append_of_ne_nil (List.cons_ne_nil _ _),
    List.dropLast_cons_of_ne_nil (joined_ne_nil w ws)]

theorem begins_iff {vs ws : List Bytes} (hvs : ∀ v ∈ vs, v ≠ [] ∧ 32 ∉ v)
    (hws : ∀ w ∈ ws, 32 ∉ w) :
    (joined vs).dropLast <+: joined ws ↔ Begins vs ws := by
  induction vs generalizing ws with
  | nil => exact iff_of_true List.nil_prefix trivial
  | cons v vs ih =>
      obtain ⟨⟨hne, hv⟩, hvs⟩ := List.forall_mem_cons.mp hvs
      cases ws with
      | nil =>
          refine iff_of_false (fun h => ?_) id
          have hnil : (joined (v :: vs)).dropLast = [] := List.prefix_nil.mp h
          cases vs with
          | nil => exact hne ((dropLast_joined_one v).symm.trans hnil)
          | cons v' vs =>
              rw [dropLast_joined_cons] at hnil
              exact hne (List.append_eq_nil_iff.mp hnil).1
      | cons w ws =>
          obtain ⟨hw, hws⟩ := List.forall_mem_cons.mp hws
          cases vs with
          | nil =>
              rw [dropLast_joined_one, joined_cons_blank]
              exact prefix_blank hv
          | cons v' vs =>
              rw [dropLast_joined_cons, joined_cons_blank w,
                blank_prefix_blank hv hw, ih hvs hws]
              rfl

/-! ## The commands -/

/-- A command: the words it begins with, how many words it has with its
arguments, and what is done.  Without arguments its whole text is compared. -/
structure Command where
  head : List Bytes
  total : Option Nat
  action : List Bytes → CliAction

namespace Command

/-- What the text of the line is compared with. -/
def text (c : Command) : Bytes :=
  match c.total with
  | none => joined c.head
  | some _ => (joined c.head).dropLast

/-- The comparison of the code. -/
def Matches (c : Command) (trimmed : Bytes) (words : List Bytes) : Prop :=
  match c.total with
  | none => trimmed = c.text
  | some n => c.text <+: trimmed ∧ words.length = n

/-- The words are the command. -/
def Accepts (c : Command) (words : List Bytes) : Prop :=
  match c.total with
  | none => words = c.head
  | some n => c.head <+: words ∧ words.length = n

/-- Cut at the blanks in them, the words are the command, or begin with it; the last
word of what a longer line begins with may go on. -/
def PassesFor (c : Command) (words : List Bytes) : Prop :=
  match c.total with
  | none => cutAtBlanks words = c.head
  | some n => Begins c.head (cutAtBlanks words) ∧ words.length = n

instance (c : Command) (trimmed : Bytes) (words : List Bytes) :
    Decidable (c.Matches trimmed words) := by
  unfold Matches
  cases c.total with
  | none => exact inferInstanceAs (Decidable (_ = _))
  | some n => exact inferInstanceAs (Decidable (_ ∧ _))

instance (c : Command) (words : List Bytes) : Decidable (c.Accepts words) := by
  unfold Accepts
  cases c.total with
  | none => exact inferInstanceAs (Decidable (_ = _))
  | some n => exact inferInstanceAs (Decidable (_ ∧ _))

instance (c : Command) (words : List Bytes) : Decidable (c.PassesFor words) := by
  unfold PassesFor
  cases c.total with
  | none => exact inferInstanceAs (Decidable (_ = _))
  | some n => exact inferInstanceAs (Decidable (_ ∧ _))

end Command

def commands : List Command :=
  [⟨[ascii "show", ascii "multicast", ascii "groups"], none,
    fun _ => .call .printMulticastGroups⟩,
    ⟨[ascii "show", ascii "clients", ascii "all"], none,
      fun _ => .call .printClients⟩,
    ⟨[ascii "logging", ascii "level", ascii "error"], none, fun _ =>
      .call (.loggingLevel CliType.loggingLevelError.code)⟩,
    ⟨[ascii "logging", ascii "level", ascii "info"], none, fun _ =>
      .call (.loggingLevel CliType.loggingLevelInfo.code)⟩,
    ⟨[ascii "logging", ascii "level", ascii "debug"], none, fun _ =>
      .call (.loggingLevel CliType.loggingLevelDebug.code)⟩,
    ⟨[ascii "help"], none, fun _ => .help⟩,
    ⟨[ascii "clear"], none, fun _ => .clearScreen⟩,
    ⟨[ascii "set", ascii "repository"], some 6, fun words =>
      .call (.setRepositoryAddress (words.getD 2 []) (words.getD 3 [])
        (words.getD 4 [])
        (words.getD 5 []))⟩,
    ⟨[ascii "set", ascii "job", ascii "timeout"], some 4, fun words =>
      .call (.setJobTimeout (atoi (words.getD 3 [])))⟩,
    ⟨[ascii "show", ascii "job-result"], some 3, fun words =>
      .call (.printJobResult (strtol (words.getD 2 [])))⟩,
    ⟨[ascii "execute"], some 4, fun words =>
      if getAlgoType (words.getD 1 []) = -1 then .unsupportedAlgorithm
      else .call (.execTask (getAlgoType (words.getD 1 [])) (words.getD 2 [])
        (atoi (words.getD 3 [])))⟩]

/-- The chain of comparisons: the first command that matches is it. -/
def dispatchIn : List Command → Bytes → List Bytes → CliAction
  | [], _, _ => .notFound
  | c :: cs, trimmed, words =>
      if c.Matches trimmed words then c.action words else dispatchIn cs trimmed words

def dispatch (trimmed : Bytes) (words : List Bytes) : CliAction :=
  dispatchIn commands trimmed words

/-- `parse_cli` with the block `malloc` has given; what has no end mark is no
argument for `strcmp`. -/
def parseCliIn (block line : Bytes) : Except Halt CliAction := do
  let words ← cliParseLine line 8
  let block ← joinWords block words
  let trimmed ← cString block
  .ok (dispatch trimmed words)

/-- The table is the chain of `parse_cli`. -/
theorem parseCli_eq (stale line : Bytes) : parseCli stale line = (do
    let words ← cliParseLine line 8
    .ok (dispatch (stale ++ joined words) words)) := by
  have htexts : commands.map Command.text
      = [ascii "show multicast groups ", ascii "show clients all ",
      ascii "logging level error ", ascii "logging level info ",
      ascii "logging level debug ", ascii "help ", ascii "clear ",
      ascii "set repository", ascii "set job timeout", ascii "show job-result",
      ascii "execute"] := by decide +kernel
  simp only [commands, List.map_cons, List.map_nil, List.cons.injEq, and_true]
    at htexts
  obtain ⟨h1, h2, h3, h4, h5, h6, h7, h8, h9, h10, h11⟩ := htexts
  unfold parseCli
  congr
  funext words
  simp only [dispatch, commands, dispatchIn, Command.Matches, h1, h2, h3, h4, h5, h6,
    h7, h8, h9, h10, h11, apply_ite Except.ok]
  rfl

/-- The words of a command are not empty and have no blank. -/
theorem head_plain {c : Command} (hc : c ∈ commands) :
    ∀ v ∈ c.head, v ≠ [] ∧ 32 ∉ v := by
  have hall : ∀ c ∈ commands, ∀ v ∈ c.head, v ≠ [] ∧ 32 ∉ v := by decide +kernel
  exact hall c hc

/-- The code compares joined words: it does not know a blank in a word from one
behind it. -/
theorem Command.matches_iff {c : Command} (hc : c ∈ commands) (words : List Bytes) :
    c.Matches (joined words) words ↔ c.PassesFor words := by
  have hhead := head_plain hc
  have hcut := not_mem_cut words
  unfold Matches PassesFor text
  rw [← joined_cut words]
  cases c.total with
  | none =>
      refine ⟨fun h => joined_inj hcut (fun v hv => (hhead v hv).2) h, fun h => ?_⟩
      rw [h]
  | some n => exact and_congr_left' (begins_iff hhead hcut)

/-! ## At most one command matches -/

namespace Command
variable {c d : Command} {trimmed : Bytes} {words : List Bytes}

theorem Matches.text_prefix (h : c.Matches trimmed words) : c.text <+: trimmed := by
  unfold Matches at h
  split at h
  · exact h ▸ List.prefix_rfl
  · exact h.1

/-- Neither text begins with the other. -/
def Apart (c d : Command) : Prop := ¬ c.text <+: d.text ∧ ¬ d.text <+: c.text

instance (c d : Command) : Decidable (c.Apart d) :=
  inferInstanceAs (Decidable (_ ∧ _))

instance : Std.Symm Apart := ⟨fun _ _ h => ⟨h.2, h.1⟩⟩

theorem apart : commands.Pairwise Apart := by decide +kernel

theorem Matches.unique (hc : c ∈ commands) (hd : d ∈ commands)
    (h : c.Matches trimmed words) (h' : d.Matches trimmed words) : c = d := by
  by_contra hne
  obtain ⟨hcd, hdc⟩ := apart.forall hc hd hne
  rcases List.prefix_or_prefix_of_prefix h.text_prefix h'.text_prefix with
    hpre | hpre
  · exact hcd hpre
  · exact hdc hpre

/-- The words of a command pass its test. -/
theorem Accepts.matches (h : c.Accepts words) : c.Matches (joined words) words := by
  unfold Accepts at h
  unfold Matches text
  split at h
  · simp only [h]
  · obtain ⟨⟨rest, rfl⟩, hlen⟩ := h
    simp only
    refine ⟨?_, hlen⟩
    rw [joined_append]
    exact (List.dropLast_prefix _).trans (List.prefix_append _ _)

end Command

theorem dispatchIn_cases (trimmed : Bytes) (words : List Bytes) :
    ∀ cs : List Command, (dispatchIn cs trimmed words = .notFound ∧ ∀ c ∈ cs,
      ¬ c.Matches trimmed words) ∨
      ∃ c ∈ cs, c.Matches trimmed words ∧
      dispatchIn cs trimmed words = c.action words := by
  intro cs
  induction cs with
  | nil => exact Or.inl ⟨rfl, fun c hc => absurd hc List.not_mem_nil⟩
  | cons c cs ih =>
      by_cases hc : c.Matches trimmed words
      · exact Or.inr ⟨c, List.mem_cons_self, hc, if_pos hc⟩
      · rw [dispatchIn, if_neg hc]
        rcases ih with ⟨hnone, hall⟩ | ⟨d, hd, hmatch, haction⟩
        · exact Or.inl ⟨hnone, List.forall_mem_cons.mpr ⟨hc, hall⟩⟩
        · exact Or.inr ⟨d, List.mem_cons_of_mem _ hd, hmatch, haction⟩

/-- A command that matches is the one that is dispatched. -/
theorem dispatch_eq {c : Command} {trimmed : Bytes} {words : List Bytes}
    (hc : c ∈ commands) (h : c.Matches trimmed words) :
    dispatch trimmed words = c.action words := by
  rcases dispatchIn_cases trimmed words commands with
    ⟨-, hnone⟩ | ⟨d, hd, hmatch, haction⟩
  · exact absurd h (hnone c hc)
  · rw [dispatch, haction, h.unique hc hd hmatch]

/-! ## The grammar -/

/-- Nothing is done, but to say so. -/
def CliAction.Rejected (a : CliAction) : Prop :=
  a = .unsupportedAlgorithm ∨ a = .notFound

instance (a : CliAction) : Decidable a.Rejected :=
  inferInstanceAs (Decidable (_ ∨ _))

/-- What a list of words asks for. -/
def Grammar (words : List Bytes) (a : CliAction) : Prop :=
  ∃ c ∈ commands, c.Accepts words ∧ c.action words = a ∧ ¬ a.Rejected

/-- A command that the words pass for is one they are, or is rejected. -/
def NotMisread (words : List Bytes) : Prop :=
  ∀ c ∈ commands, c.PassesFor words → c.Accepts words ∨ (c.action words).Rejected

instance (words : List Bytes) : Decidable (NotMisread words) :=
  inferInstanceAs (Decidable (∀ c ∈ commands, _ → _ ∨ _))

/-- Exactly the commands of the grammar are dispatched, unless
other words pass for them. -/
theorem dispatch_grammar_iff (words : List Bytes) :
    (∀ a, dispatch (joined words) words = a ∧ ¬ a.Rejected ↔ Grammar words a) ↔
      NotMisread words := by
  constructor
  · intro h c hc hpasses
    have hmatch := (c.matches_iff hc words).mpr hpasses
    by_cases hrejected : (c.action words).Rejected
    · exact Or.inr hrejected
    · obtain ⟨d, hd, haccepts, -, -⟩ :=
        (h (c.action words)).mp ⟨dispatch_eq hc hmatch, hrejected⟩
      exact Or.inl (hmatch.unique hc hd haccepts.matches ▸ haccepts)
  · intro h a
    constructor
    · rintro ⟨rfl, hrun⟩
      rcases dispatchIn_cases (joined words) words commands with
        ⟨hnone, -⟩ | ⟨c, hc, hmatch, haction⟩
      · exact absurd (Or.inr hnone) hrun
      · rw [dispatch, haction] at hrun ⊢
        exact ⟨c, hc, (h c hc ((c.matches_iff hc words).mp hmatch)).resolve_right
          hrun, rfl, hrun⟩
    · rintro ⟨c, hc, haccepts, rfl, hrun⟩
      exact ⟨dispatch_eq hc haccepts.matches, hrun⟩

example : ¬ NotMisread [ascii "show clients", ascii "all"] ∧
    ¬ NotMisread [ascii "executed", ascii "max", ascii "f", ascii "1"] := by
  decide +kernel

/-! ## What is in the block -/

/-- The block of `n` bytes holds this string. -/
def HoldsText (block s : Bytes) (n : Nat) : Prop :=
  0 ∉ s ∧ block.length = n ∧ ∃ room, block = s ++ 0 :: room

section Block
variable {block s text : Bytes} {n : Nat}

theorem HoldsText.cString (h : HoldsText block s n) : cString block = .ok s :=
  cString_eq_ok_iff.mpr ⟨h.1, h.2.2⟩

theorem HoldsText.of_cString (h : Pyramid.cString block = .ok s) :
    HoldsText block s block.length := by
  obtain ⟨hnul, hroom⟩ := cString_eq_ok_iff.mp h
  exact ⟨hnul, rfl, hroom⟩

/-- There is room for the text and an end mark. -/
theorem HoldsText.strcat (h : HoldsText block s n) (htext : 0 ∉ text)
    (hroom : s.length + text.length < n) :
    ∃ b, strcat block text = .ok b ∧ HoldsText b (s ++ text) n := by
  have hs := h.cString
  obtain ⟨hnul, rfl, -⟩ := h
  refine ⟨s ++ text ++ 0 :: block.drop (s.length + text.length + 1), ?_, ?_,
    ?_, _, rfl⟩
  · rw [Pyramid.strcat, hs, ok_bind, if_pos hroom]
  · exact fun hmem => (List.mem_append.mp hmem).elim hnul htext
  · rw [List.length_append, List.length_append, List.length_cons, List.length_drop]
    omega

theorem strcat_ok {b : Bytes} (h : strcat block text = .ok b) :
    ∃ s, cString block = .ok s ∧ s.length + text.length < block.length := by
  obtain ⟨s, hs, hrest⟩ := bind_ok.mp h
  split at hrest
  · exact ⟨s, hs, ‹_›⟩
  · cases hrest

end Block

/-- The words go behind the string of the block if there is room for them. -/
theorem joinWords_ok {n : Nat} :
    ∀ (ws : List Bytes) (block s : Bytes), HoldsText block s n →
    (∀ w ∈ ws, 0 ∉ w) → s.length + (joined ws).length < n →
    ∃ b, joinWords block ws = .ok b ∧ HoldsText b (s ++ joined ws) n := by
  intro ws
  induction ws with
  | nil =>
      intro block s h _ _
      exact ⟨block, rfl, by rwa [joined, List.flatMap_nil, List.append_nil]⟩
  | cons w ws ih =>
      intro block s h hnul hroom
      obtain ⟨hw, hws⟩ := List.forall_mem_cons.mp hnul
      rw [joined_cons, List.length_append, List.length_append] at hroom
      obtain ⟨b₁, hb₁, h₁⟩ := h.strcat hw (by omega)
      obtain ⟨b₂, hb₂, h₂⟩ :=
        h₁.strcat (by decide : 0 ∉ ascii " ") (by rw [List.length_append]; omega)
      obtain ⟨b, hb, h'⟩ :=
        ih b₂ _ h₂ hws (by rw [List.length_append, List.length_append]; omega)
      refine ⟨b, ?_, ?_⟩
      · rw [joinWords, hb₁, ok_bind, hb₂, ok_bind, hb]
      · rwa [joined_cons, ← List.append_assoc, ← List.append_assoc]

/-- What is written has had room. -/
theorem joinWords_room {n : Nat} :
    ∀ (ws : List Bytes) (block s b : Bytes), HoldsText block s n →
    (∀ w ∈ ws, 0 ∉ w) → joinWords block ws = .ok b →
    s.length + (joined ws).length < n := by
  intro ws
  induction ws with
  | nil =>
      rintro block s b ⟨-, rfl, room, rfl⟩ _ _
      rw [joined, List.flatMap_nil, List.length_nil, List.length_append,
        List.length_cons]
      omega
  | cons w ws ih =>
      intro block s b h hnul hrun
      obtain ⟨hw, hws⟩ := List.forall_mem_cons.mp hnul
      obtain ⟨b₁, hb₁, hrun⟩ := bind_ok.mp hrun
      obtain ⟨b₂, hb₂, hrun⟩ := bind_ok.mp hrun
      have hroom₁ : s.length + w.length < n := by
        obtain ⟨s', hs', hroom⟩ := strcat_ok hb₁
        cases h.cString.symm.trans hs'
        exact h.2.1 ▸ hroom
      obtain ⟨c₁, hc₁, h₁⟩ := h.strcat hw hroom₁
      cases hb₁.symm.trans hc₁
      have hroom₂ : (s ++ w).length + (ascii " ").length < n := by
        obtain ⟨s', hs', hroom⟩ := strcat_ok hb₂
        cases h₁.cString.symm.trans hs'
        exact h₁.2.1 ▸ hroom
      obtain ⟨c₂, hc₂, h₂⟩ := h₁.strcat (by decide : 0 ∉ ascii " ") hroom₂
      cases hb₂.symm.trans hc₂
      have hrest := ih b₂ _ b h₂ hws hrun
      rw [joined_cons, List.length_append, List.length_append]
      rw [List.length_append, List.length_append] at hrest
      omega

/-- The words are made of characters of the line. -/
theorem cliParseLine_nul {line : Bytes} {maxWords : Nat} {words : List Bytes}
    (hnul : 0 ∉ line) (hrun : cliParseLine line maxWords = .ok words) :
    ∀ w ∈ words, 0 ∉ w := by
  have hscan : ∀ w ∈ wordScanner.run .between line, ∀ c ∈ w, c ≠ 0 :=
    wordScanner_chars (List.forall_mem_singleton.mpr (by decide)) fun c hc _ h0 =>
      hnul (h0 ▸ hc)
  intro w hw
  rw [cliParseLine_scan hrun] at hw
  rcases List.mem_append.mp (List.mem_of_mem_take hw) with hw | hw
  · split at hw
    · rw [List.mem_singleton.mp hw]
      exact List.not_mem_nil
    · exact absurd hw List.not_mem_nil
  · exact fun h0 => hscan w hw 0 h0 rfl

/-- The text that is compared is the words of the line, with a blank behind each,
it fits in the block, and exactly the commands of the grammar are run. -/
def Recognises (block line : Bytes) : Prop :=
  ∃ words action, cliParseLine line 8 = .ok words ∧
    (∃ b, joinWords block words = .ok b ∧ cString b = .ok (joined words)) ∧
    parseCliIn block line = .ok action ∧ ∀ a, action = a ∧ ¬ a.Rejected ↔
    Grammar words a

/-- A line is recognised exactly if the block begins with an end mark, the words
with their blanks are no longer than the line, and they pass for no other command. -/
theorem recognises_iff (block line : Bytes) (hblock : block.length = line.length + 1)
    (hnul : 0 ∉ line) :
    Recognises block line ↔ block.head? = some 0 ∧ ∃ words,
      cliParseLine line 8 = .ok words ∧
      (joined words).length ≤ line.length ∧ NotMisread words := by
  obtain ⟨words, hwords, -⟩ := cliParseLine_ok line 8
  have hfree := cliParseLine_nul hnul hwords
  constructor
  · rintro ⟨words', action, hwords', ⟨b, hjoin, htext⟩, hrun, hgrammar⟩
    cases hwords.symm.trans hwords'
    -- the block holds some string, and the joined words are behind it
    obtain ⟨s, hs⟩ : ∃ s, cString block = .ok s := by
      cases words with
      | nil =>
          cases hjoin
          exact ⟨_, htext⟩
      | cons w ws =>
          obtain ⟨b₁, hb₁, -⟩ := bind_ok.mp hjoin
          obtain ⟨s, hs, -⟩ := strcat_ok hb₁
          exact ⟨s, hs⟩
    have hholds := HoldsText.of_cString hs
    have hroom := joinWords_room words block s b hholds hfree hjoin
    obtain ⟨b', hjoin', hholds'⟩ := joinWords_ok words block s hholds hfree hroom
    cases hjoin.symm.trans hjoin'
    have hempty : s = [] := by
      have heq := Except.ok.inj (hholds'.cString.symm.trans htext)
      exact List.append_left_eq_self.mp heq
    subst hempty
    obtain ⟨-, -, room, rfl⟩ := hholds
    refine ⟨rfl, words, hwords, by rw [List.length_nil] at hroom; omega, ?_⟩
    have haction : action = dispatch (joined words) words := by
      rw [parseCliIn, hwords, ok_bind, hjoin, ok_bind, htext, ok_bind] at hrun
      exact (Except.ok.inj hrun).symm
    rw [haction] at hgrammar
    exact (dispatch_grammar_iff words).mp hgrammar
  · rintro ⟨hhead, words', hwords', hlen, hread⟩
    cases hwords.symm.trans hwords'
    obtain ⟨room, rfl⟩ := List.head?_eq_some_iff.mp hhead
    obtain ⟨b, hjoin, hholds⟩ :=
      joinWords_ok words (0 :: room) [] ⟨List.not_mem_nil, rfl, room, rfl⟩
      hfree (by rw [List.length_nil]; omega)
    have htext := hholds.cString
    refine ⟨words, dispatch (joined words) words, hwords, ⟨b, hjoin, htext⟩, ?_,
      (dispatch_grammar_iff words).mpr hread⟩
    rw [parseCliIn, hwords, ok_bind, hjoin, ok_bind, htext, ok_bind]
    rfl

/-- `help` with a blank behind it, and a block of zero bytes. -/
theorem recognises_sample : Recognises [0, 0, 0, 0, 0, 0] (ascii "help ") := by
  exact (recognises_iff _ _ (by decide) (by decide)).mpr
    ⟨by decide, [ascii "help"], by decide +kernel, by decide, by decide +kernel⟩

/-- Without a blank at the end, `help` is one character longer when it is joined. -/
theorem help_overruns_block :
    parseCliIn [0, 0, 0, 0, 0] (ascii "help") = .error .outOfBounds ∧
      ¬ Recognises [0, 0, 0, 0, 0] (ascii "help") := by
  have hrun : parseCliIn [0, 0, 0, 0, 0] (ascii "help") = .error .outOfBounds := by
    decide +kernel
  refine ⟨hrun, ?_⟩
  rintro ⟨words, action, -, -, hok, -⟩
  cases hrun.symm.trans hok

end Pyramid
