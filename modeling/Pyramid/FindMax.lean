/-
# `Pyramid.FindMax` — the largest number of a file (`dynamic/src/api.c`)

`find_max` reads its file twice, line by line with an `fgets` into 125 bytes:
once to count, once to convert each line with `strtoumax` and store the result
as an `int`.  A line of more than 124 characters, newline and all, is read in
pieces, each of which is a number of its own.

Of the process a call sees whether `errno` is `ERANGE`, which only an
out-of-range conversion makes it and only a failing `fopen` unmakes, and how
many streams can still be opened.
-/
import Pyramid.Memory.Text
import Mathlib.Order.Bounds.Basic

namespace Pyramid

/-! ## The C library -/

/-- What the calls of `fgets` give until the end of the file. -/
def fgetsAll (room : Nat) : Nat → Bytes → List Bytes
  | 0, _ => []
  | _ + 1, [] => []
  | fuel + 1, c :: file =>
      (fgets room (c :: file)).1 :: fgetsAll room fuel (fgets room (c :: file)).2

/-- The file as the `fgets` into `char line[125]` gives it. -/
def fgetsLines (file : Bytes) : List Bytes := fgetsAll 124 file.length file

structure Process where
  /-- `errno` is `ERANGE`. -/
  erange : Bool
  /-- How many streams can still be opened. -/
  streams : Nat
  deriving DecidableEq

/-- `strtoumax(s, NULL, 10)`: a negative number is negated in `uintmax_t`. -/
def strtoumax (s : Bytes) (p : Process) : Nat × Process :=
  if 18446744073709551616 ≤ (leadingInt s).natAbs then
    (18446744073709551615, { p with erange := true })
  else ((leadingInt s % 18446744073709551616).toNat, p)

/-- `fopen` of a file with these contents, or of one that cannot be opened. -/
def fopen (file : Option Bytes) (p : Process) : Option Bytes × Process :=
  match file with
  | none => (none, { p with erange := false })
  | some bytes =>
      if p.streams = 0 then (none, { p with erange := false })
      else (some bytes, { p with streams := p.streams - 1 })

def fclose (p : Process) : Process := { p with streams := p.streams + 1 }

/-- Where `malloc` takes the memory from: which sizes it grants, and
what the memory holds. -/
structure Allocator where
  grants : Nat → Bool
  holds : Nat → Int

/-- An array of `int`s; nothing is given for more than half of the address space. -/
def Allocator.malloc (a : Allocator) (size : Nat) : Option (List Int) :=
  if size < 9223372036854775808 ∧ a.grants size
    then some ((List.range (size / 4)).map a.holds)
  else none

/-- Memory is always granted. -/
def Allocator.zeroed : Allocator := ⟨fun _ => true, fun _ => 0⟩

/-- `vector[i] = x` -/
def store (vector : Option (List Int)) (i : Nat) (x : Int) :
    Except Halt (Option (List Int)) :=
  match vector with
  | none => .error .nullDeref
  | some xs => if i < xs.length then .ok (some (xs.set i x)) else .error .outOfBounds

/-- `vector[i]` -/
def fetch (vector : Option (List Int)) (i : Nat) : Except Halt Int :=
  match vector with
  | none => .error .nullDeref
  | some xs =>
      match xs[i]? with
      | none => .error .outOfBounds
      | some x => .ok x

/-! ## `find_max` -/

inductive ApiStatus where
  | failure
  | success
  | invalidInput
  | invalidId
  deriving DecidableEq

/-- The two files of a call: their contents, if they can be opened. -/
structure Files where
  input : Option Bytes
  output : Option Bytes

/-- `lines_input_file` -/
def linesInputFile (input : Option Bytes) (p : Process) : Int × Process :=
  match fopen input p with
  | (none, p) => (0, p)
  | (some file, p) => (toInt32 (fgetsLines file).length, fclose p)

/-- The loop of `read_input_file`; `none` stands for the return without `fclose`. -/
def readNumbers : List Bytes → Nat → Option (List Int) → Process →
    Except Halt (Option (Option (List Int)) × Process)
  | [], _, vector, p => .ok (some vector, p)
  | line :: lines, count, vector, p => do
      let (num, p) := strtoumax line p
      if p.erange then .ok (none, p)
      else do
        let vector ← store vector count (toInt32 num)
        readNumbers lines (count + 1) vector p

/-- `read_input_file` -/
def readInputFile (input : Option Bytes) (vector : Option (List Int)) (p : Process) :
    Except Halt (ApiStatus × Option (List Int) × Process) :=
  match fopen input p with
  | (none, p) => .ok (.invalidInput, vector, p)
  | (some file, p) => do
      match ← readNumbers (fgetsLines file) 0 vector p with
      | (none, p) => .ok (.invalidInput, vector, p)
      | (some vector, p) => .ok (.success, vector, fclose p)

/-- `write_op_file`, with what is in the file then. -/
def writeOpFile (res : List Int) (output : Option Bytes) (p : Process) :
    ApiStatus × Option Bytes × Process :=
  match fopen output p with
  | (none, p) => (.invalidInput, none, p)
  | (some _, p) =>
      (.success, some (res.flatMap fun x => decimal x ++ [10]), fclose p)

/-- The loop over the vector: this many steps, from index `i`. -/
def maxFrom (vector : Option (List Int)) : Nat → Nat → Int → Except Halt Int
  | 0, _, max => .ok max
  | steps + 1, i, max => do
      let x ← fetch vector i
      maxFrom vector steps (i + 1) (if max < x then x else max)

/-- The size in bytes of `len` numbers, as a `size_t`. -/
def vectorSize (len : Int) : Nat := (len * 4 % 18446744073709551616).toNat

/-- `find_max`: the status, what it writes, and the process it leaves. -/
def findMax (a : Allocator) (files : Files) (p : Process) :
    Except Halt (ApiStatus × Option Bytes × Process) := do
  let (len, p) := linesInputFile files.input p
  let vector := a.malloc (vectorSize len)
  let (status, vector, p) ← readInputFile files.input vector p
  if status ≠ .success then .ok (.invalidInput, none, p)
  else if 0 < len then do
    let max ← fetch vector 0
    let max ← maxFrom vector (len.toNat - 1) 1 max
    let (status, written, p) := writeOpFile [max] files.output p
    if status = .success then .ok (.success, written, p)
    else .ok (.invalidInput, none, p)
  else .ok (.invalidInput, none, p)

/-! ## Pieces of a file -/

theorem fgets_append (room : Nat) :
    ∀ file, (fgets room file).1 ++ (fgets room file).2 = file := by
  induction room with
  | zero => exact fun file => rfl
  | succ room ih =>
      intro file
      cases file with
      | nil => rfl
      | cons c file =>
          by_cases hc : c = 10
          · rw [fgets, if_pos hc]
            rfl
          · rw [fgets, if_neg hc]
            exact congrArg (c :: ·) (ih file)

theorem fgets_ne_nil (room : Nat) (c : UInt8) (file : Bytes) :
    (fgets (room + 1) (c :: file)).1 ≠ [] := by
  rw [fgets]
  split
  · exact List.cons_ne_nil _ _
  · exact List.cons_ne_nil _ _

/-- Every call takes something, so as many calls as characters reach the end. -/
theorem fgetsAll_flatten (room : Nat) :
    ∀ (fuel : Nat) (file : Bytes), file.length ≤ fuel →
    (fgetsAll (room + 1) fuel file).flatten = file := by
  intro fuel
  induction fuel with
  | zero =>
      intro file hle
      rw [List.eq_nil_of_length_eq_zero (Nat.le_zero.mp hle)]
      rfl
  | succ fuel ih =>
      intro file hle
      cases file with
      | nil => rfl
      | cons c file =>
          have hcut := fgets_append (room + 1) (c :: file)
          have hpos := List.length_pos_of_ne_nil (fgets_ne_nil room c file)
          have hlen := congrArg List.length hcut
          rw [List.length_append] at hlen
          rw [fgetsAll, List.flatten_cons, ih _ (by omega), hcut]

/-- Nothing of the file is skipped. -/
theorem fgetsLines_flatten (file : Bytes) : (fgetsLines file).flatten = file :=
  fgetsAll_flatten 123 file.length file (Nat.le_refl _)

theorem fgetsLines_eq_nil {file : Bytes} : fgetsLines file = [] ↔ file = [] := by
  constructor
  · intro h
    rw [← fgetsLines_flatten file, h]
    rfl
  · rintro rfl
    rfl

/-! ## Reading the numbers -/

/-- `strtoumax` reports that the number is too large. -/
def TooLarge (line : Bytes) : Prop := 18446744073709551616 ≤ (leadingInt line).natAbs

instance (line : Bytes) : Decidable (TooLarge line) :=
  inferInstanceAs (Decidable (_ ≤ _))

/-- The lines up to the first whose number is too large. -/
def stored (lines : List Bytes) : List Bytes :=
  lines.takeWhile fun line => ¬ TooLarge line

theorem strtoumax_tooLarge {line : Bytes} (h : TooLarge line) (p : Process) :
    strtoumax line p = (18446744073709551615, { p with erange := true }) := if_pos h

theorem strtoumax_fits {line : Bytes} (h : ¬ TooLarge line) (p : Process) :
    strtoumax line p = ((leadingInt line % 18446744073709551616).toNat, p) :=
  if_neg h

/-- The conversion to `int` undoes the one to `uintmax_t`, but for
a multiple of `2^32`. -/
theorem toInt32_umax (x : Int) :
    toInt32 ((x % 18446744073709551616).toNat : Int) = toInt32 x := by
  unfold toInt32
  omega

theorem store_ok {vector : Option (List Int)} {done room : List Int} {r : Int}
    (h : vector.getD [] = done ++ r :: room) (x : Int) :
    store vector done.length x = .ok (some (done ++ x :: room)) := by
  cases vector with
  | none =>
      exact absurd h.symm (List.append_ne_nil_of_right_ne_nil _
        (List.cons_ne_nil _ _))
  | some xs =>
      obtain rfl : xs = done ++ r :: room := h
      have hlt : done.length < (done ++ r :: room).length := by
        rw [List.length_append, List.length_cons]
        omega
      rw [store, if_pos hlt, List.set_append_right _ _ (Nat.le_refl _), Nat.sub_self,
        List.set_cons_zero]

theorem store_full {vector : Option (List Int)} {i : Nat}
    (h : (vector.getD []).length ≤ i) (x : Int) :
    ∃ e, store vector i x = .error e := by
  cases vector with
  | none => exact ⟨_, rfl⟩
  | some xs => exact ⟨_, if_neg (Nat.not_lt.mpr h)⟩

/-- The numbers of the lines go to the vector one after the other,
until one is too large. -/
theorem readNumbers_ok :
    ∀ (lines : List Bytes) (vector : Option (List Int)) (done room : List Int)
    (p : Process), p.erange = false → vector.getD [] = done ++ room →
    (stored lines).length ≤ room.length →
    (∃ line ∈ lines, TooLarge line) ∧
        readNumbers lines done.length vector p
          = .ok (none, { p with erange := true }) ∨
      (∀ line ∈ lines, ¬ TooLarge line) ∧ ∃ vector',
      readNumbers lines done.length vector p
        = .ok (some vector', p) ∧ vector'.getD [] =
          done ++ lines.map (fun line => toInt32 (leadingInt line))
            ++ room.drop lines.length := by
  intro lines
  induction lines with
  | nil =>
      intro vector done room p _ hvector _
      refine Or.inr ⟨fun line hline => absurd hline List.not_mem_nil,
        vector, rfl, ?_⟩
      rw [hvector, List.map_nil, List.append_nil]
      rfl
  | cons line lines ih =>
      intro vector done room p herr hvector hroom
      by_cases hlarge : TooLarge line
      · refine Or.inl ⟨⟨line, List.mem_cons_self, hlarge⟩, ?_⟩
        rw [readNumbers, strtoumax_tooLarge hlarge]
        rfl
      · rw [stored, List.takeWhile_cons_of_pos (by simpa using hlarge),
          List.length_cons] at hroom
        obtain ⟨r, room, rfl⟩ :=
          List.exists_cons_of_length_pos (Nat.lt_of_lt_of_le (Nat.succ_pos _) hroom)
        have hstep : readNumbers (line :: lines) done.length vector p
            = readNumbers lines (done ++ [toInt32 (leadingInt line)]).length
                (some (done ++ toInt32 (leadingInt line) :: room)) p := by
          rw [readNumbers, strtoumax_fits hlarge]
          simp only [herr, Bool.false_eq_true, if_false, toInt32_umax,
            store_ok hvector, ok_bind, List.length_append, List.length_singleton]
        rw [hstep]
        rcases ih (some (done ++ toInt32 (leadingInt line) :: room))
            (done ++ [toInt32 (leadingInt line)]) room p herr (by simp)
            (Nat.le_of_succ_le_succ hroom) with
              ⟨⟨l, hl, hbad⟩, hrun⟩ | ⟨hall, vector', hrun, hv⟩
        · exact Or.inl ⟨⟨l, List.mem_cons_of_mem _ hl, hbad⟩, hrun⟩
        · refine Or.inr ⟨List.forall_mem_cons.mpr ⟨hlarge, hall⟩, vector', hrun, ?_⟩
          rw [hv, List.append_assoc, List.append_assoc, List.append_assoc]
          rfl

/-- A vector with too few places is written past its end. -/
theorem readNumbers_overrun :
    ∀ (lines : List Bytes) (vector : Option (List Int)) (done room : List Int),
    vector.getD [] = done ++ room → room.length < (stored lines).length →
    ∃ e, ∀ p : Process, p.erange = false →
    readNumbers lines done.length vector p = .error e := by
  intro lines
  induction lines with
  | nil => exact fun vector done room _ hroom => absurd hroom (Nat.not_lt_zero _)
  | cons line lines ih =>
      intro vector done room hvector hroom
      by_cases hlarge : TooLarge line
      · rw [stored, List.takeWhile_cons_of_neg (by simpa using hlarge)] at hroom
        exact absurd hroom (Nat.not_lt_zero _)
      · rw [stored, List.takeWhile_cons_of_pos (by simpa using hlarge),
          List.length_cons] at hroom
        cases room with
        | nil =>
            rw [List.append_nil] at hvector
            obtain ⟨e, he⟩ :=
              store_full (by rw [hvector] : (vector.getD []).length ≤ done.length)
              (toInt32 ((leadingInt line % 18446744073709551616).toNat : Int))
            refine ⟨e, fun p herr => ?_⟩
            rw [readNumbers, strtoumax_fits hlarge]
            simp only [herr, Bool.false_eq_true, if_false, he, error_bind]
        | cons r room =>
            obtain ⟨e, he⟩ := ih (some (done ++ toInt32 (leadingInt line) :: room))
              (done ++ [toInt32 (leadingInt line)]) room (by simp)
                (Nat.lt_of_succ_lt_succ hroom)
            refine ⟨e, fun p herr => ?_⟩
            have hrest := he p herr
            rw [List.length_append, List.length_singleton] at hrest
            rw [readNumbers, strtoumax_fits hlarge]
            simp only [herr, Bool.false_eq_true, if_false, toInt32_umax,
              store_ok hvector, ok_bind, hrest]

/-! ## One call -/

theorem fetch_at {done : List Int} {x : Int} {rest : List Int} :
    fetch (some (done ++ x :: rest)) done.length = .ok x := by
  rw [fetch, List.getElem?_append_right (Nat.le_refl _), Nat.sub_self]
  rfl

theorem maxFrom_ok (beyond : List Int) : ∀ (rest done : List Int) (max : Int),
    ∃ m, maxFrom (some (done ++ (rest ++ beyond))) rest.length done.length max
      = .ok m ∧
      IsGreatest {x | x ∈ max :: rest} m := by
  intro rest
  induction rest with
  | nil =>
      intro done max
      exact ⟨max, rfl, List.mem_singleton_self _,
        fun x hx => le_of_eq (List.mem_singleton.mp hx)⟩
  | cons x rest ih =>
      intro done max
      obtain ⟨m, hrun, hmem, hall⟩ := ih (done ++ [x]) (if max < x then x else max)
      rw [List.length_append, List.length_singleton, List.append_assoc,
        List.singleton_append] at hrun
      refine ⟨m,
        by rw [List.length_cons, maxFrom, List.cons_append, fetch_at, ok_bind, hrun],
        ?_, ?_⟩
      · rcases List.mem_cons.mp hmem with rfl | hrest
        · split
          · exact List.mem_cons_of_mem _ List.mem_cons_self
          · exact List.mem_cons_self
        · exact List.mem_cons_of_mem _ (List.mem_cons_of_mem _ hrest)
      · have hmax : (if max < x then x else max) ≤ m := hall List.mem_cons_self
        rintro y hy
        rcases List.mem_cons.mp hy with rfl | hy
        · split at hmax <;> omega
        · rcases List.mem_cons.mp hy with rfl | hy
          · split at hmax <;> omega
          · exact hall (List.mem_cons_of_mem _ hy)

/-- The places `malloc` gives for the numbers of this many lines. -/
def Allocator.places (a : Allocator) (lines : Nat) : Nat :=
  ((a.malloc (vectorSize (toInt32 lines))).getD []).length

/-- Every number that is stored has a place. -/
def HasPlaces (a : Allocator) (lines : List Bytes) : Prop :=
  (stored lines).length ≤ a.places lines.length

instance (a : Allocator) (lines : List Bytes) : Decidable (HasPlaces a lines) :=
  inferInstanceAs (Decidable (_ ≤ _))

/-- A vector with a place for every line is one whose length
is not cut to an `int`. -/
theorem Allocator.toInt32_of_places {a : Allocator} {n : Nat} (h : n ≤ a.places n) :
    toInt32 (n : Int) = n := by
  unfold places malloc vectorSize at h
  split at h
  case isTrue hgrant =>
    rw [Option.getD_some, List.length_map, List.length_range] at h
    have hsize := hgrant.1
    unfold toInt32 at h hsize ⊢
    omega
  case isFalse =>
    obtain rfl : n = 0 := Nat.le_zero.mp h
    rfl

section Call
variable {a : Allocator} {files : Files} {p : Process} {file : Bytes}

theorem fopen_some (h : p.streams ≠ 0) :
    fopen (some file) p = (some file, { p with streams := p.streams - 1 }) :=
  if_neg h

theorem fclose_opened (h : p.streams ≠ 0) :
    fclose { p with streams := p.streams - 1 } = p := by
  rw [fclose, Nat.sub_add_cancel (Nat.pos_of_ne_zero h)]

theorem linesInputFile_opened (h : p.streams ≠ 0) :
    linesInputFile (some file) p = (toInt32 (fgetsLines file).length, p) := by
  rw [linesInputFile, fopen_some h]
  simp only [fclose_opened h]

/-- The numbers are not read. -/
theorem findMax_unread {len : Int} {q r : Process} {vector : Option (List Int)}
    (hlines : linesInputFile files.input p = (len, q))
    (hread : readInputFile files.input (a.malloc (vectorSize len)) q
      = .ok (.invalidInput, vector, r)) :
    findMax a files p = .ok (.invalidInput, none, r) := by
  rw [findMax, hlines]
  simp only [hread, ok_bind]
  rfl

/-- The input cannot be opened. -/
theorem findMax_unopened (h : files.input = none ∨ p.streams = 0) :
    findMax a files p = .ok (.invalidInput, none, { p with erange := false }) := by
  have hopen : ∀ e : Bool, fopen files.input { p with erange := e }
      = (none, { p with erange := false }) := by
    intro e
    rcases h with hnone | hzero
    · rw [hnone]
      rfl
    · cases files.input with
      | none => rfl
      | some bytes => exact if_pos hzero
  have hlines : linesInputFile files.input p = (0, { p with erange := false }) := by
    rw [linesInputFile, hopen p.erange]
  exact findMax_unread hlines (by rw [readInputFile, hopen false])

/-- The file has no lines. -/
theorem findMax_empty (hinput : files.input = some []) (h : p.streams ≠ 0) :
    findMax a files p = .ok (.invalidInput, none, p) := by
  have hread : ∀ vector, readInputFile (some []) vector p
      = .ok (.success, vector, p) := by
    intro vector
    rw [readInputFile, fopen_some h]
    exact congrArg (fun q => Except.ok (ApiStatus.success, vector, q))
      (fclose_opened h)
  rw [findMax, hinput, linesInputFile_opened h]
  simp only [hread, ok_bind]
  rfl

/-- `errno` is `ERANGE` from before: the first line is taken for too large. -/
theorem findMax_stale (hinput : files.input = some file) (hfile : file ≠ [])
    (h : p.streams ≠ 0) (herr : p.erange = true) :
    findMax a files p = .ok (.invalidInput, none,
      { p with streams := p.streams - 1 }) := by
  obtain ⟨line, lines, hlines⟩ :=
    List.exists_cons_of_ne_nil fun hnil => hfile (fgetsLines_eq_nil.mp hnil)
  have hread : ∀ vector, readNumbers (fgetsLines file) 0 vector { p with
      streams := p.streams - 1 }
      = .ok (none, { p with streams := p.streams - 1 }) := by
    intro vector
    rw [hlines, readNumbers]
    by_cases hlarge : TooLarge line
    · rw [strtoumax_tooLarge hlarge, herr]
      rfl
    · rw [strtoumax_fits hlarge]
      simp only [herr, if_true]
  have hinputFile : ∀ vector, readInputFile (some file) vector p
      = .ok (.invalidInput, vector, { p with streams := p.streams - 1 }) := by
    intro vector
    rw [readInputFile, fopen_some h]
    simp only [hread, ok_bind]
  exact findMax_unread (hinput ▸ linesInputFile_opened h) (hinput ▸ hinputFile _)

/-- The memory for the numbers of a file. -/
def Allocator.vector (a : Allocator) (file : Bytes) : Option (List Int) :=
  a.malloc (vectorSize (toInt32 (fgetsLines file).length))

/-- What the numbers of the file are as `int`s. -/
def asInts (file : Bytes) : List Int :=
  (fgetsLines file).map fun line => toInt32 (leadingInt line)

/-- What `read_input_file` returns if there is a place for every number. -/
theorem readInputFile_cases (h : p.streams ≠ 0) (herr : p.erange = false)
    (hfits : HasPlaces a (fgetsLines file)) :
    (∃ line ∈ fgetsLines file, TooLarge line) ∧ readInputFile (some file)
    (a.vector file) p
        = .ok (.invalidInput, a.vector file, ⟨true, p.streams - 1⟩) ∨
      (∀ line ∈ fgetsLines file, ¬ TooLarge line) ∧ ∃ vector beyond,
      vector.getD [] = asInts file ++ beyond ∧
        readInputFile (some file) (a.vector file) p = .ok (.success, vector, p) := by
  rcases readNumbers_ok (fgetsLines file) (a.vector file) []
    ((a.vector file).getD [])
      { p with streams := p.streams - 1 } herr (List.nil_append _).symm hfits
    with ⟨hlarge, hread⟩ | ⟨hall, vector, hread, hvector⟩
  · rw [List.length_nil] at hread
    refine Or.inl ⟨hlarge, ?_⟩
    rw [readInputFile, fopen_some h]
    simp only [hread, ok_bind]
  · rw [List.length_nil] at hread
    rw [List.nil_append] at hvector
    refine Or.inr ⟨hall, vector, _, hvector, ?_⟩
    rw [readInputFile, fopen_some h]
    simp only [hread, ok_bind, fclose_opened h]

/-- A number is too large. -/
theorem findMax_tooLarge (hinput : files.input = some file) (h : p.streams ≠ 0)
    (herr : p.erange = false) (hfits : HasPlaces a (fgetsLines file))
    (hlarge : ∃ line ∈ fgetsLines file, TooLarge line) :
    findMax a files p = .ok (.invalidInput, none, ⟨true, p.streams - 1⟩) := by
  rcases readInputFile_cases h herr hfits with ⟨-, hread⟩ | ⟨hall, -⟩
  · exact findMax_unread (hinput ▸ linesInputFile_opened h) (hinput ▸ hread)
  · obtain ⟨line, hline, hbad⟩ := hlarge
    exact absurd hbad (hall line hline)

/-- There is no place for a number. -/
theorem findMax_overrun (hinput : files.input = some file)
    (hfits : ¬ HasPlaces a (fgetsLines file)) :
    ∃ e, ∀ p : Process, p.streams ≠ 0 → p.erange = false →
      findMax a files p = .error e := by
  obtain ⟨e, he⟩ :=
    readNumbers_overrun (fgetsLines file) (a.vector file) []
      ((a.vector file).getD [])
      (List.nil_append _).symm (Nat.lt_of_not_le hfits)
  refine ⟨e, fun p h herr => ?_⟩
  have hread := he { p with streams := p.streams - 1 } herr
  rw [List.length_nil, Allocator.vector] at hread
  rw [findMax, hinput, linesInputFile_opened h]
  simp only [readInputFile, fopen_some h, hread, error_bind]

/-- Every number is stored: the largest of the `int`s is written. -/
theorem findMax_all (hinput : files.input = some file) (hfile : file ≠ [])
    (h : p.streams ≠ 0) (herr : p.erange = false)
    (hfits : HasPlaces a (fgetsLines file))
    (hall : ∀ line ∈ fgetsLines file, ¬ TooLarge line) :
    ∃ max, IsGreatest {x | x ∈ asInts file} max ∧ findMax a files p = .ok
      (match files.output with
        | none => (.invalidInput, none, p)
        | some _ => (.success, some (decimal max ++ [10]), p)) := by
  obtain ⟨line, lines, hlines⟩ :=
    List.exists_cons_of_ne_nil fun hnil => hfile (fgetsLines_eq_nil.mp hnil)
  have hplaces : (fgetsLines file).length ≤ a.places (fgetsLines file).length := by
    rwa [HasPlaces, stored, List.takeWhile_eq_self_iff.mpr fun l hl =>
      by simpa using hall l hl] at hfits
  have hlen : toInt32 ((fgetsLines file).length : Int)
      = ((lines.length + 1 : Nat) : Int) := by
    rw [Allocator.toInt32_of_places hplaces, hlines, List.length_cons]
  have hints : asInts file = toInt32 (leadingInt line) :: lines.map fun l =>
      toInt32 (leadingInt l) := by
    rw [asInts, hlines, List.map_cons]
  rcases readInputFile_cases h herr hfits with
    ⟨⟨l, hl, hbad⟩, -⟩ | ⟨-, vector, beyond, hvector, hread⟩
  · exact absurd hbad (hall l hl)
  · -- the vector holds one number for each line, and something for each place left
    have hholds : vector = some (asInts file ++ beyond) := by
      cases vector with
      | none =>
          rw [Option.getD_none, hints] at hvector
          cases hvector
      | some xs => exact congrArg some hvector
    obtain ⟨max, hmax, hgreatest⟩ :=
      maxFrom_ok beyond (lines.map fun l => toInt32 (leadingInt l))
      [toInt32 (leadingInt line)] (toInt32 (leadingInt line))
    rw [List.length_map, List.length_singleton, List.singleton_append,
      ← List.cons_append, ← hints, ← hholds] at hmax
    rw [← hints] at hgreatest
    have hfirst : fetch vector 0 = .ok (toInt32 (leadingInt line)) := by
      rw [hholds, hints]
      show fetch (some ([] ++ _)) ([] : List Int).length = _
      exact fetch_at
    refine ⟨max, hgreatest, ?_⟩
    have hpos : (0 : Int) < ((lines.length + 1 : Nat) : Int) :=
      Int.natCast_pos.mpr (Nat.succ_pos _)
    rw [Allocator.vector] at hread
    rw [findMax, hinput, linesInputFile_opened h]
    simp only [hread, ok_bind]
    simp only [hlen, hpos, hfirst, ok_bind, Int.toNat_natCast, Nat.add_sub_cancel,
      hmax, ne_eq, not_true_eq_false, if_false, if_true]
    cases files.output with
    | none =>
        obtain ⟨erange, streams⟩ := p
        obtain rfl : erange = false := herr
        rfl
    | some bytes =>
        simp only [writeOpFile, fopen_some h, fclose_opened h, if_true,
          List.flatMap_cons, List.flatMap_nil, List.append_nil]

end Call

end Pyramid
