/-
# `Pyramid.Largest` — when the number that is written is the largest

A file of decimal integers, one on each line.  `find_max` tests for numbers of
`2^64` and more but stores an `int`, and it takes each piece of a long line for
a number; `find_max_iff` says when what it writes is the largest all the same.
-/
import Pyramid.FindMax

namespace Pyramid

/-! ## Integers as text -/

/-- The decimal text of a number of any size. -/
def decimalText (x : Int) : Bytes :=
  if x < 0 then ascii "-" ++ digits (x.natAbs + 1) x.natAbs
    else digits (x.natAbs + 1) x.natAbs

theorem natAbs_lt_pow (n : Nat) : n < 10 ^ (n + 1) :=
  Nat.lt_trans (Nat.lt_succ_self n) (Nat.lt_pow_self (by decide))

theorem leadingInt_decimalText (x : Int) : leadingInt (decimalText x) = x := by
  unfold decimalText
  split
  · rw [leadingInt_minus, leadingNat_digits _ _ (natAbs_lt_pow _)]
    omega
  · rw [leadingInt_digits (natAbs_lt_pow _)]
    omega

/-- More room than a number needs does not change its digits. -/
theorem digits_room : ∀ (f g n : Nat), n < 10 ^ (f + 1) → n < 10 ^ (g + 1) →
    digits (f + 1) n = digits (g + 1) n := by
  have hsucc : ∀ f n : Nat, digits (f + 1) n
      = (if n < 10 then [] else digits f (n / 10)) ++ [UInt8.ofNat (48 + n % 10)] :=
        fun f n => rfl
  intro f
  induction f with
  | zero =>
      intro g n hf _
      have hsmall : n < 10 := hf
      rw [hsucc 0, hsucc g, if_pos hsmall, if_pos hsmall]
  | succ f ih =>
      intro g n hf hg
      rw [hsucc (f + 1), hsucc g]
      split
      · rfl
      · cases g with
        | zero => exact absurd hg (by omega)
        | succ g => rw [ih g (n / 10) (by omega) (by omega)]

theorem decimal_eq {x : Int} (h : x.natAbs < 10 ^ 20) :
    decimal x = decimalText x := by
  rw [decimal, decimalText, digits_room 19 x.natAbs x.natAbs h (natAbs_lt_pow _)]

/-- The file with these integers, one on each line; the last line may
end without a newline. -/
def fileOf : List Numeral → Bool → Bytes
  | [], _ => []
  | [n], ended => n.text ++ if ended then [10] else []
  | n :: ns, ended => n.text ++ 10 :: fileOf ns ended

theorem fileOf_eq_nil {ns : List Numeral} {ended : Bool} :
    fileOf ns ended = [] ↔ ns = [] := by
  constructor
  · intro h
    match ns, h with
    | [], _ => rfl
    | [n], h => exact absurd h (List.append_ne_nil_of_left_ne_nil n.text_ne_nil _)
    | n :: m :: ns, h =>
        exact absurd h (List.append_ne_nil_of_left_ne_nil n.text_ne_nil _)
  · rintro rfl
    rfl

/-! ## Lines that are read whole -/

theorem fgets_newline (text rest : Bytes) (hnewline : 10 ∉ text) :
    ∀ (room : Nat), text.length < room →
    fgets room (text ++ 10 :: rest) = (text ++ [10], rest) := by
  induction text with
  | nil =>
      intro room hroom
      obtain ⟨room, rfl⟩ := Nat.exists_eq_succ_of_ne_zero (Nat.ne_of_gt hroom)
      rfl
  | cons c text ih =>
      intro room hroom
      obtain ⟨room, rfl⟩ := Nat.exists_eq_succ_of_ne_zero
        (Nat.ne_of_gt (Nat.lt_of_le_of_lt (Nat.zero_le _) hroom))
      obtain ⟨hc, htext⟩ := not_or.mp (mt List.mem_cons.mpr hnewline)
      rw [List.cons_append, fgets, if_neg fun h => hc h.symm,
        ih htext room (Nat.lt_of_succ_lt_succ hroom)]
      rfl

theorem fgetsAll_fuel (room : Nat) :
    ∀ (fuel fuel' : Nat) (file : Bytes), file.length ≤ fuel →
    file.length ≤ fuel' →
    fgetsAll (room + 1) fuel file = fgetsAll (room + 1) fuel' file := by
  intro fuel
  induction fuel with
  | zero =>
      intro fuel' file hle _
      rw [List.eq_nil_of_length_eq_zero (Nat.le_zero.mp hle)]
      cases fuel' with
      | zero => rfl
      | succ fuel' => rfl
  | succ fuel ih =>
      intro fuel' file hle hle'
      cases file with
      | nil =>
          cases fuel' with
          | zero => rfl
          | succ fuel' => rfl
      | cons c file =>
          obtain ⟨fuel', rfl⟩ := Nat.exists_eq_succ_of_ne_zero
            (Nat.ne_of_gt (Nat.lt_of_lt_of_le (Nat.succ_pos _) hle'))
          have hlen := congrArg List.length (fgets_append (room + 1) (c :: file))
          rw [List.length_append] at hlen
          have hpos := List.length_pos_of_ne_nil (fgets_ne_nil room c file)
          rw [fgetsAll, fgetsAll, ih fuel' _ (by omega) (by omega)]

/-- One call of `fgets`, and then those for what is left. -/
theorem fgetsLines_step {file line rest : Bytes} (hfile : file ≠ [])
    (h : fgets 124 file = (line, rest)) :
    fgetsLines file = line :: fgetsLines rest := by
  obtain ⟨c, cs, rfl⟩ := List.exists_cons_of_ne_nil hfile
  have hlen := congrArg List.length (fgets_append 124 (c :: cs))
  rw [List.length_append] at hlen
  have hpos := List.length_pos_of_ne_nil (fgets_ne_nil 123 c cs)
  simp only [h, List.length_cons] at hlen hpos
  rw [fgetsLines, List.length_cons, fgetsAll, h, fgetsLines,
    fgetsAll_fuel 123 cs.length rest.length rest (by omega) (Nat.le_refl _)]

/-! ## Right, or no -/

/-- The call writes the text of the largest of the integers, or says no. -/
def RightOrNo (a : Allocator) (files : Files) (p : Process)
    (ns : List Numeral) : Prop :=
  ∃ status written q, findMax a files p = .ok (status, written, q) ∧
    (status = .invalidInput ∨ status = .success ∧
      ∃ max, IsGreatest {x | x ∈ ns.map Numeral.value} max ∧
      written = some (decimalText max ++ [10]))

/-- The number is an `int`, some piece of the file is congruent to it modulo
`2^32`, and no piece to a larger `int`. -/
def Kept (file : Bytes) (max : Int) : Prop :=
  intMin ≤ max ∧ max ≤ intMax ∧
    (∃ line ∈ fgetsLines file, leadingInt line % 4294967296 = max % 4294967296) ∧
    ∀ line ∈ fgetsLines file, ∀ x, max < x → x ≤ intMax →
      leadingInt line % 4294967296 ≠ x % 4294967296

theorem toInt32_eq_iff {x y : Int} (h₁ : intMin ≤ y) (h₂ : y ≤ intMax) :
    toInt32 x = y ↔ x % 4294967296 = y % 4294967296 := by
  unfold intMin at h₁
  unfold intMax at h₂
  unfold toInt32
  omega

theorem kept_iff {file : Bytes} {max : Int} :
    Kept file max ↔ IsGreatest {x | x ∈ asInts file} max := by
  constructor
  · rintro ⟨hmin, hmax, ⟨line, hline, hmod⟩, hnone⟩
    refine ⟨List.mem_map.mpr ⟨line, hline, (toInt32_eq_iff hmin hmax).mpr hmod⟩, ?_⟩
    rintro x hx
    obtain ⟨line, hline, rfl⟩ := List.mem_map.mp hx
    obtain ⟨h₁, h₂⟩ := toInt32_range (leadingInt line)
    by_contra hlt
    exact hnone line hline _ (not_le.mp hlt) h₂ ((toInt32_eq_iff h₁ h₂).mp rfl)
  · rintro ⟨hmem, hall⟩
    obtain ⟨line, hline, rfl⟩ := List.mem_map.mp hmem
    obtain ⟨h₁, h₂⟩ := toInt32_range (leadingInt line)
    refine ⟨h₁, h₂, ⟨line, hline, (toInt32_eq_iff h₁ h₂).mp rfl⟩,
      fun l hl x hlt hx hmod => ?_⟩
    have hle : toInt32 (leadingInt l) ≤ toInt32 (leadingInt line) :=
      hall (List.mem_map.mpr ⟨l, hl, rfl⟩)
    rw [(toInt32_eq_iff (le_trans h₁ (le_of_lt hlt)) hx).mpr hmod] at hle
    exact absurd hlt (not_lt.mpr hle)

/-- A number is the one written for it only if it is the same. -/
theorem decimal_eq_decimalText {m max : Int} (h₁ : intMin ≤ m) (h₂ : m ≤ intMax) :
    some (decimal m ++ [10]) = some (decimalText max ++ [10]) ↔ m = max := by
  unfold intMin at h₁
  unfold intMax at h₂
  rw [decimal_eq (by omega)]
  constructor
  · intro h
    have htext := List.append_cancel_right (Option.some.inj h)
    rw [← leadingInt_decimalText m, htext, leadingInt_decimalText]
  · rintro rfl
    rfl

/-- **When `find_max` is right or says no.**  The input cannot be opened, or the
memory for the numbers is there and: there is nothing to write, or nowhere to
write it, or a number too large to convert, or the largest is what is left of
the numbers as `int`s. -/
theorem find_max_iff (a : Allocator) (ns : List Numeral) (ended : Bool)
    (output : Option Bytes) (p : Process) (herr : p.erange = false) :
    RightOrNo a ⟨some (fileOf ns ended), output⟩ p ns ↔
      p.streams = 0 ∨ HasPlaces a (fgetsLines (fileOf ns ended)) ∧
        (output = none ∨ ns = [] ∨ (∃ line ∈ fgetsLines (fileOf ns ended),
          TooLarge line) ∨
          ∃ max, IsGreatest {x | x ∈ ns.map Numeral.value} max ∧
          Kept (fileOf ns ended) max) := by
  have hinput : (⟨some (fileOf ns ended), output⟩ : Files).input
      = some (fileOf ns ended) := rfl
  by_cases hzero : p.streams = 0
  · exact iff_of_true ⟨_, _, _, findMax_unopened (Or.inr hzero), Or.inl rfl⟩
      (Or.inl hzero)
  by_cases hfits : HasPlaces a (fgetsLines (fileOf ns ended))
  case neg =>
    obtain ⟨e, he⟩ := findMax_overrun hinput hfits
    have hrun := he p hzero herr
    refine iff_of_false ?_ fun h => h.elim hzero fun h => hfits h.1
    rintro ⟨status, written, q, hok, -⟩
    cases hrun.symm.trans hok
  by_cases hns : ns = []
  · have hrun : findMax a ⟨some (fileOf ns ended), output⟩ p
        = .ok (.invalidInput, none, p) :=
      findMax_empty (congrArg some (fileOf_eq_nil.mpr hns)) hzero
    exact iff_of_true ⟨_, _, _, hrun, Or.inl rfl⟩
      (Or.inr ⟨hfits, Or.inr (Or.inl hns)⟩)
  by_cases hlarge : ∃ line ∈ fgetsLines (fileOf ns ended), TooLarge line
  · exact iff_of_true ⟨_, _, _, findMax_tooLarge hinput hzero herr hfits hlarge,
      Or.inl rfl⟩
      (Or.inr ⟨hfits, Or.inr (Or.inr (Or.inl hlarge))⟩)
  -- every number is stored, and the largest of the `int`s is written
  obtain ⟨m, hm, hrun⟩ :=
    findMax_all hinput (mt fileOf_eq_nil.mp hns) hzero herr hfits
    fun line hline hbad => hlarge ⟨line, hline, hbad⟩
  cases output with
  | none =>
      exact iff_of_true ⟨_, _, _, hrun, Or.inl rfl⟩ (Or.inr ⟨hfits, Or.inl rfl⟩)
  | some bytes =>
      obtain ⟨hmin, hmax, -⟩ := kept_iff.mpr hm
      constructor
      · rintro ⟨status, written, q, hok, hright⟩
        cases hrun.symm.trans hok
        rcases hright with hno | ⟨-, max, hgreatest, hwritten⟩
        · cases hno
        · obtain rfl := (decimal_eq_decimalText hmin hmax).mp hwritten
          exact Or.inr ⟨hfits,
            Or.inr (Or.inr (Or.inr ⟨m, hgreatest, kept_iff.mpr hm⟩))⟩
      · rintro (hbad | ⟨-, hbad | hbad | hbad | ⟨max, hgreatest, hkept⟩⟩)
        · exact absurd hbad hzero
        · cases hbad
        · exact absurd hbad hns
        · exact absurd hbad hlarge
        · obtain rfl := hm.unique (kept_iff.mp hkept)
          exact ⟨_, _, _, hrun, Or.inr ⟨rfl, m, hgreatest,
            (decimal_eq_decimalText hmin hmax).mpr rfl⟩⟩

theorem isGreatest_of {xs : List Int} {m : Int} (hmem : m ∈ xs)
    (hall : ∀ x ∈ xs, x ≤ m) :
    IsGreatest {x | x ∈ xs} m := ⟨hmem, fun x hx => hall x hx⟩

/-- The file holds `7` and `-12`. -/
theorem find_max_sample :
    RightOrNo Allocator.zeroed
      ⟨some (fileOf [.ofChecked .bare (ascii "7") (by decide),
        .ofChecked .minus (ascii "12") (by decide)] true), some []⟩ ⟨false, 8⟩
      [.ofChecked .bare (ascii "7") (by decide),
        .ofChecked .minus (ascii "12") (by decide)] := by
  refine (find_max_iff _ _ _ _ _ rfl).mpr
    (Or.inr ⟨by decide, Or.inr (Or.inr (Or.inr ⟨7, ?_, ?_⟩))⟩)
  · exact isGreatest_of (by decide) (by decide)
  · exact kept_iff.mpr (isGreatest_of (by decide) (by decide))

/-- What `main_ut.c` asserts of `test_data.txt`. -/
example :
    (findMax Allocator.zeroed ⟨some (ascii "1433\n343\n6556\n2443\n232111\n"),
      some []⟩ ⟨false, 8⟩).toOption
    = some (.success, some (ascii "232111\n"), ⟨false, 8⟩) := by decide +kernel

/-- The file holds `3000000000`, and `-1294967296` is written. -/
theorem largest_cut :
    ¬ RightOrNo Allocator.zeroed
      ⟨some (fileOf [.ofChecked .bare (ascii "3000000000") (by decide)] true),
        some []⟩ ⟨false, 8⟩
      [.ofChecked .bare (ascii "3000000000") (by decide)] := by
  rintro ⟨status, written, q, hrun, hright⟩
  have hinput :
      (⟨some (fileOf [.ofChecked .bare (ascii "3000000000") (by decide)] true),
        some []⟩ : Files).input
      = some (fileOf [.ofChecked .bare (ascii "3000000000") (by decide)] true) := rfl
  obtain ⟨m, hm, hrun'⟩ := @findMax_all Allocator.zeroed _ ⟨false, 8⟩ _ hinput
    (by decide) (by decide) rfl (by decide) (by decide)
  have hints : asInts (fileOf [.ofChecked .bare (ascii "3000000000") (by decide)]
      true) = [-1294967296] := by
    decide
  rw [hints] at hm
  obtain rfl := List.mem_singleton.mp hm.1
  cases hrun'.symm.trans hrun
  rcases hright with hno | ⟨-, max, hmax, hwritten⟩
  · cases hno
  · obtain rfl := (decimal_eq_decimalText (by decide) (by decide)).mp hwritten
    have hvalue := List.mem_singleton.mp hmax.1
    revert hvalue
    decide

end Pyramid
