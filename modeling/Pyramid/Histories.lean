/-
# `Pyramid.Histories` — one call of `find_max` after others (`dynamic/src/api.c`)

`read_input_file` tests `errno` without having set it, and returns without
`fclose` when it is `ERANGE`.  What one call leaves of the process is `remains`;
`find_max_history` says after which calls a call does what it does in a fresh
process.
-/
import Pyramid.FindMax

namespace Pyramid

/-- The calls of a process, one after the other; it ends when one of
them does not return. -/
def calls (a : Allocator) : List Files → Process → Except Halt Process
  | [], p => .ok p
  | files :: rest, p => do
      let (_, _, p) ← findMax a files p
      calls a rest p

/-- The status that is returned and what is written. -/
def visible (r : Except Halt (ApiStatus × Option Bytes × Process)) :
    Except Halt (ApiStatus × Option Bytes) :=
  r.map fun answer => (answer.1, answer.2.1)

/-- Some line has a number that is too large to convert. -/
def HasTooLarge (file : Bytes) : Prop := ∃ line ∈ fgetsLines file, TooLarge line

instance (file : Bytes) : Decidable (HasTooLarge file) :=
  inferInstanceAs (Decidable (∃ line ∈ fgetsLines file, TooLarge line))

/-- What a call leaves: an input that cannot be opened ends `ERANGE`, and a
number that is taken for too large begins it and costs a stream. -/
def remains (p : Process) (files : Files) : Process :=
  match files.input with
  | none => { p with erange := false }
  | some file =>
      if p.streams = 0 then { p with erange := false }
      else if file = [] then p
      else if p.erange ∨ HasTooLarge file then ⟨true, p.streams - 1⟩
      else p

/-- Every file is read for what it is. -/
def Ready (p : Process) : Prop := p.erange = false ∧ p.streams ≠ 0

/-- A fresh process has nothing to write for the files, or nowhere to write it. -/
def Refused (a : Allocator) (limit : Nat) (files : Files) : Prop :=
  limit = 0 ∨ match files.input with
    | none => True
    | some file =>
        file = [] ∨ HasPlaces a (fgetsLines file) ∧
          (files.output = none ∨ HasTooLarge file)

section Step
variable {a : Allocator} {files : Files} {p q : Process}

theorem findMax_remains {status : ApiStatus} {written : Option Bytes}
    (hrun : findMax a files p = .ok (status, written, q)) : q = remains p files := by
  unfold remains
  cases hinput : files.input with
  | none =>
      cases (findMax_unopened (Or.inl hinput)).symm.trans hrun
      rfl
  | some file =>
      by_cases hzero : p.streams = 0
      · cases (findMax_unopened (Or.inr hzero)).symm.trans hrun
        exact (if_pos hzero).symm
      by_cases hfile : file = []
      · subst hfile
        cases (findMax_empty hinput hzero).symm.trans hrun
        simp only [hzero, if_false, if_true]
      simp only [hzero, hfile, if_false]
      cases herr : p.erange with
      | true =>
          cases (findMax_stale hinput hfile hzero herr).symm.trans hrun
          rw [herr, if_pos (Or.inl rfl)]
      | false =>
          by_cases hfits : HasPlaces a (fgetsLines file)
          case neg =>
            obtain ⟨e, he⟩ := findMax_overrun hinput hfits
            cases (he p hzero herr).symm.trans hrun
          by_cases hlarge : HasTooLarge file
          · cases (findMax_tooLarge hinput hzero herr hfits hlarge).symm.trans hrun
            rw [if_pos (Or.inr hlarge)]
          · rw [if_neg (not_or.mpr ⟨Bool.false_ne_true, hlarge⟩)]
            obtain ⟨m, -, hall⟩ := findMax_all hinput hfile hzero herr hfits
              fun line hline hbad => hlarge ⟨line, hline, hbad⟩
            rw [hall] at hrun
            cases houtput : files.output with
            | none => rw [houtput] at hrun; cases hrun; rfl
            | some bytes => rw [houtput] at hrun; cases hrun; rfl

theorem remains_streams_le (p : Process) (files : Files) :
    (remains p files).streams ≤ p.streams := by
  unfold remains
  cases files.input with
  | none => exact Nat.le_refl _
  | some file =>
      show (if p.streams = 0 then { p with erange := false }
        else if file = [] then p else if p.erange ∨ HasTooLarge file
          then ⟨true, p.streams - 1⟩
        else p : Process).streams ≤ p.streams
      split
      · exact Nat.le_refl _
      · split
        · exact Nat.le_refl _
        · split
          · exact Nat.sub_le _ _
          · exact Nat.le_refl _

theorem calls_remains {history : List Files} :
    ∀ {p : Process}, calls a history p = .ok q →
    q = history.foldl remains p := by
  induction history with
  | nil =>
      intro p h
      cases h
      rfl
  | cons files history ih =>
      intro p h
      obtain ⟨⟨status, written, r⟩, hrun, hrest⟩ := bind_ok.mp h
      rw [ih hrest, findMax_remains hrun]
      rfl

theorem foldl_streams_le (history : List Files) : ∀ p : Process,
    (history.foldl remains p).streams ≤ p.streams := by
  induction history with
  | nil => exact fun p => Nat.le_refl _
  | cons files history ih =>
      exact fun p => Nat.le_trans (ih _) (remains_streams_le p files)

end Step

/-- What is seen of a call is the same in all processes that are ready. -/
theorem visible_ready {a : Allocator} {files : Files} {p q : Process} (hp : Ready p)
    (hq : Ready q) :
    visible (findMax a files p) = visible (findMax a files q) := by
  cases hinput : files.input with
  | none =>
      rw [findMax_unopened (Or.inl hinput), findMax_unopened (Or.inl hinput)]; rfl
  | some file =>
      by_cases hfile : file = []
      · subst hfile
        rw [findMax_empty hinput hp.2, findMax_empty hinput hq.2]
        rfl
      by_cases hfits : HasPlaces a (fgetsLines file)
      case neg =>
        obtain ⟨e, he⟩ := findMax_overrun hinput hfits
        rw [he p hp.2 hp.1, he q hq.2 hq.1]
      by_cases hlarge : HasTooLarge file
      · rw [findMax_tooLarge hinput hp.2 hp.1 hfits hlarge,
          findMax_tooLarge hinput hq.2 hq.1 hfits hlarge]
        rfl
      · have hall : ∀ line ∈ fgetsLines file, ¬ TooLarge line :=
          fun line hline hbad => hlarge ⟨line, hline, hbad⟩
        obtain ⟨m, hm, hrun⟩ := findMax_all hinput hfile hp.2 hp.1 hfits hall
        obtain ⟨m', hm', hrun'⟩ := findMax_all hinput hfile hq.2 hq.1 hfits hall
        obtain rfl := hm.unique hm'
        rw [hrun, hrun']
        cases files.output with
        | none => rfl
        | some bytes => rfl

/-- A process that is not ready says no to everything. -/
theorem visible_notReady {a : Allocator} {files : Files} {p : Process}
    (h : ¬ Ready p) :
    visible (findMax a files p) = .ok (.invalidInput, none) := by
  by_cases hopen : files.input = none ∨ p.streams = 0
  · rw [findMax_unopened hopen]
    rfl
  obtain ⟨hinput, hzero⟩ := not_or.mp hopen
  obtain ⟨file, hfile⟩ := Option.ne_none_iff_exists'.mp hinput
  have herr : p.erange = true := by
    cases herr : p.erange with
    | true => rfl
    | false => exact absurd ⟨herr, hzero⟩ h
  by_cases hnil : file = []
  · subst hnil
    rw [findMax_empty hfile hzero]
    rfl
  · rw [findMax_stale hfile hnil hzero herr]
    rfl

/-- A fresh process says no exactly to what it refuses. -/
theorem visible_fresh {a : Allocator} {files : Files} {limit : Nat} :
    visible (findMax a files ⟨false, limit⟩) = .ok (.invalidInput, none) ↔
      Refused a limit files := by
  unfold Refused
  by_cases hzero : limit = 0
  · rw [findMax_unopened (Or.inr hzero)]
    exact iff_of_true rfl (Or.inl hzero)
  have herr : (⟨false, limit⟩ : Process).erange = false := rfl
  cases hinput : files.input with
  | none =>
      rw [findMax_unopened (Or.inl hinput)]
      exact iff_of_true rfl (Or.inr trivial)
  | some file =>
      show _ ↔ limit = 0 ∨ (file = [] ∨ HasPlaces a (fgetsLines file) ∧
          (files.output = none ∨ HasTooLarge file))
      by_cases hfile : file = []
      · subst hfile
        rw [findMax_empty hinput hzero]
        exact iff_of_true rfl (Or.inr (Or.inl rfl))
      by_cases hfits : HasPlaces a (fgetsLines file)
      case neg =>
        obtain ⟨e, he⟩ := findMax_overrun hinput hfits
        rw [he _ hzero herr]
        refine iff_of_false (fun h => by cases h) ?_
        rintro (h | h | h)
        · exact hzero h
        · exact hfile h
        · exact hfits h.1
      by_cases hlarge : HasTooLarge file
      · rw [findMax_tooLarge hinput hzero herr hfits hlarge]
        exact iff_of_true rfl (Or.inr (Or.inr ⟨hfits, Or.inr hlarge⟩))
      · obtain ⟨m, -, hrun⟩ := findMax_all hinput hfile hzero herr hfits
          fun line hline hbad => hlarge ⟨line, hline, hbad⟩
        rw [hrun]
        cases houtput : files.output with
        | none => exact iff_of_true rfl (Or.inr (Or.inr ⟨hfits, Or.inl rfl⟩))
        | some bytes =>
            refine iff_of_false (fun h => by cases h) ?_
            rintro (h | h | ⟨-, h | h⟩)
            · exact hzero h
            · exact hfile h
            · cases h
            · exact hlarge h

/-- **When a call does not depend on the calls before it.**  They leave `errno`
other than `ERANGE` and a stream to open, or a fresh process has nothing to say
to the files either. -/
theorem find_max_history_iff (a : Allocator) (limit : Nat) (history : List Files)
    (files : Files) (p : Process) (h : calls a history ⟨false, limit⟩ = .ok p) :
    visible (findMax a files p) = visible (findMax a files ⟨false, limit⟩) ↔
      Ready (history.foldl remains ⟨false, limit⟩) ∨ Refused a limit files := by
  have hp := calls_remains h
  have hle := foldl_streams_le history ⟨false, limit⟩
  rw [← hp] at hle ⊢
  by_cases hready : Ready p
  · have hlimit : limit ≠ 0 :=
      Nat.ne_of_gt (Nat.lt_of_lt_of_le (Nat.pos_of_ne_zero hready.2) hle)
    exact iff_of_true (visible_ready hready ⟨rfl, hlimit⟩) (Or.inl hready)
  · rw [visible_notReady hready, eq_comm, visible_fresh, or_iff_right hready]

/-- The file of a call holds `5`, and then that of another one `7`. -/
theorem find_max_history_sample :
    ∃ p, calls Allocator.zeroed [⟨some (ascii "5\n"), some []⟩] ⟨false, 8⟩ = .ok p ∧
      visible (findMax Allocator.zeroed ⟨some (ascii "7\n"), some []⟩ p)
        = visible (findMax Allocator.zeroed ⟨some (ascii "7\n"), some []⟩
          ⟨false, 8⟩) := by
  have hcalls : calls Allocator.zeroed [⟨some (ascii "5\n"), some []⟩] ⟨false, 8⟩
      = .ok ⟨false, 8⟩ := by
    decide +kernel
  exact ⟨_, hcalls, (find_max_history_iff _ 8 _ _ _ hcalls).mpr
    (Or.inl ⟨by decide, by decide⟩)⟩

/-- After a file with `10^20` the one with `7` is refused. -/
theorem small_refused_after_large :
    ∃ p, calls Allocator.zeroed [⟨some (ascii "100000000000000000000\n"), some []⟩]
      ⟨false, 8⟩ = .ok p ∧
      visible (findMax Allocator.zeroed ⟨some (ascii "7\n"), some []⟩ p)
        ≠ visible (findMax Allocator.zeroed ⟨some (ascii "7\n"), some []⟩
          ⟨false, 8⟩) := by
  refine ⟨⟨true, 7⟩, by decide +kernel, ?_⟩
  rw [visible_notReady fun h => by cases h.1]
  decide +kernel

end Pyramid
