/-
# `Pyramid.Memory.Text` — C strings, `printf` and `atoll`

A `char` array is a byte array; the string in it ends before its first zero
byte, and reading a string that has no zero byte runs past the array.
-/
import Pyramid.Memory.Bytes
import Mathlib.Data.List.TakeWhile
import Mathlib.Algebra.Group.Nat.Defs

namespace Pyramid

/-- The bytes of a literal. -/
def ascii (s : String) : Bytes := s.toList.map fun c => UInt8.ofNat c.toNat

/-- The string in an array, without its end mark. -/
def cString (a : Bytes) : Except Halt Bytes :=
  if 0 ∈ a then .ok (a.takeWhile (· ≠ 0)) else .error .outOfBounds

theorem cString_ok {a s : Bytes} :
    cString a = .ok s ↔ 0 ∈ a ∧ s = a.takeWhile (· ≠ 0) := by
  unfold cString
  by_cases h : 0 ∈ a
  · simp [h, eq_comm]
  · simp [h]

/-- `snprintf` into a zeroed array of `size` bytes: what does not fit is cut off. -/
def snprintf (size : Nat) (text : Bytes) : Bytes :=
  text.take (size - 1) ++ List.replicate (size - (text.take (size - 1)).length) 0

theorem cString_append {text room : Bytes} (hnul : 0 ∉ text) :
    cString (text ++ 0 :: room) = .ok text := by
  refine cString_ok.mpr ⟨by simp, ?_⟩
  rw [List.takeWhile_append_of_pos fun b hb =>
    by simpa using fun h : b = 0 => hnul (h ▸ hb)]
  simp

/-- The string, its end mark and what is behind. -/
theorem cString_split {a : Bytes} (hmem : 0 ∈ a) :
    ∃ room, a = a.takeWhile (· ≠ 0) ++ 0 :: room := by
  induction a with
  | nil => exact absurd hmem List.not_mem_nil
  | cons c a ih =>
      by_cases hc : c = 0
      · exact ⟨a, by simp [hc]⟩
      · obtain ⟨room, hroom⟩ :=
          ih ((List.mem_cons.mp hmem).resolve_left fun h => hc h.symm)
        refine ⟨room, ?_⟩
        rw [List.takeWhile_cons_of_pos (by simpa using hc),
          List.cons_append, ← hroom]

theorem cString_eq_ok_iff {a s : Bytes} :
    cString a = .ok s ↔ 0 ∉ s ∧ ∃ room, a = s ++ 0 :: room := by
  constructor
  · intro h
    obtain ⟨hmem, rfl⟩ := cString_ok.mp h
    exact ⟨fun h0 => absurd (List.mem_takeWhile_imp h0) (by decide),
      cString_split hmem⟩
  · rintro ⟨hnul, room, rfl⟩
    exact cString_append hnul

theorem cString_snprintf {size : Nat} {text : Bytes} (hsize : 0 < size)
    (hnul : 0 ∉ text) :
    cString (snprintf size text) = .ok (text.take (size - 1)) := by
  obtain ⟨k, hk⟩ : ∃ k, size - (text.take (size - 1)).length = k + 1 := by
    rw [List.length_take]
    exact ⟨size - min (size - 1) text.length - 1, by omega⟩
  rw [snprintf, hk, List.replicate_succ]
  exact cString_append fun hmem => hnul (List.mem_of_mem_take hmem)

/-- One `fgets` with room for this many characters: the line, and
what is left of the file. -/
def fgets : Nat → Bytes → Bytes × Bytes
  | 0, file => ([], file)
  | _ + 1, [] => ([], [])
  | room + 1, c :: file =>
      if c = 10 then ([c], file) else (c :: (fgets room file).1, (fgets room file).2)

theorem fgets_length : ∀ (room : Nat) (file : Bytes), (fgets room file).1.length
    ≤ room := by
  intro room
  induction room with
  | zero => exact fun file => Nat.le_refl 0
  | succ room ih =>
      intro file
      cases file with
      | nil => exact Nat.zero_le _
      | cons c file =>
          rw [fgets]
          split
          · exact Nat.succ_le_succ (Nat.zero_le room)
          · exact Nat.succ_le_succ (ih file)

/-! ## Decimal numbers -/

def digits : Nat → Nat → Bytes
  | 0, _ => []
  | fuel + 1, n =>
      (if n < 10 then [] else digits fuel (n / 10)) ++ [UInt8.ofNat (48 + n % 10)]

/-- `%d` and `%lld`; no integer of the machine has more than 20 digits. -/
def decimal (x : Int) : Bytes :=
  if x < 0 then ascii "-" ++ digits 20 x.natAbs else digits 20 x.natAbs

theorem digits_length (fuel : Nat) : ∀ n, (digits fuel n).length ≤ fuel := by
  induction fuel with
  | zero => exact fun n => Nat.le_refl 0
  | succ fuel ih =>
      intro n
      have hrest := ih (n / 10)
      rw [digits, List.length_append, List.length_singleton]
      split
      · exact Nat.succ_le_succ (Nat.zero_le _)
      · omega

theorem digit_ne_zero (n : Nat) : UInt8.ofNat (48 + n % 10) ≠ 0 := by
  intro heq
  have hnat := congrArg UInt8.toNat heq
  rw [toNat_ofNat] at hnat
  simp only [UInt8.toNat_zero] at hnat
  omega

theorem digits_nul (fuel : Nat) : ∀ n, 0 ∉ digits fuel n := by
  induction fuel with
  | zero => exact fun n => List.not_mem_nil
  | succ fuel ih =>
      intro n hmem
      rw [digits] at hmem
      rcases List.mem_append.mp hmem with hmem | hmem
      · split at hmem
        · exact List.not_mem_nil hmem
        · exact ih _ hmem
      · exact digit_ne_zero n (List.mem_singleton.mp hmem).symm

theorem decimal_nul (x : Int) : 0 ∉ decimal x := by
  unfold decimal
  split
  · intro hmem
    rcases List.mem_append.mp hmem with hmem | hmem
    · exact absurd hmem (by decide)
    · exact digits_nul 20 _ hmem
  · exact digits_nul 20 _

theorem decimal_length (x : Int) : (decimal x).length ≤ 21 := by
  have hdigits := digits_length 20 x.natAbs
  unfold decimal
  split
  · rw [List.length_append, show (ascii "-").length = 1 from rfl]
    omega
  · omega

def isSpace (c : UInt8) : Bool := c == 32 || (9 ≤ c && c ≤ 13)

def isDigit (c : UInt8) : Bool := 48 ≤ c && c ≤ 57

/-- The digits at the start of `s`, read as a number. -/
def leadingNat (s : Bytes) : Nat :=
  (s.takeWhile isDigit).foldl (fun n c => 10 * n + (c.toNat - 48)) 0

/-- The nearest `long long`. -/
def clampInt64 (x : Int) : Int :=
  max (-9223372036854775808) (min x 9223372036854775807)

def atoll (s : Bytes) : Int :=
  match s.dropWhile isSpace with
  | [] => 0
  | c :: rest =>
      if c = 45 then clampInt64 (-leadingNat rest)
      else if c = 43 then clampInt64 (leadingNat rest)
      else clampInt64 (leadingNat (c :: rest))

example : atoll (ascii " -42\n") = -42 := by decide +kernel

/-- The integer at the start of `s`, whatever its size. -/
def leadingInt (s : Bytes) : Int :=
  match s.dropWhile isSpace with
  | [] => 0
  | c :: rest =>
      if c = 45 then -leadingNat rest
      else if c = 43 then leadingNat rest
      else leadingNat (c :: rest)

theorem atoll_eq (s : Bytes) : atoll s = clampInt64 (leadingInt s) := by
  unfold atoll leadingInt
  split
  · rfl
  · split
    · rfl
    · split
      · rfl
      · rfl

theorem leadingNat_append (v rest : Bytes) :
    leadingNat (v ++ 0 :: rest) = leadingNat v := by
  have htake : (v ++ 0 :: rest).takeWhile isDigit = v.takeWhile isDigit := by
    induction v with
    | nil => rfl
    | cons c v ih =>
        rw [List.cons_append, List.takeWhile_cons, List.takeWhile_cons, ih]
  rw [leadingNat, htake, leadingNat]

/-- The zero byte that ends a string ends the number in it. -/
theorem atoll_append (v rest : Bytes) : atoll (v ++ 0 :: rest) = atoll v := by
  induction v with
  | nil => rfl
  | cons c v ih =>
      unfold atoll at ih ⊢
      rw [List.cons_append, List.dropWhile_cons, List.dropWhile_cons]
      by_cases hc : isSpace c = true
      · rw [if_pos hc, if_pos hc]
        exact ih
      · rw [if_neg hc, if_neg hc, ← List.cons_append]
        simp only [List.cons_append, leadingNat_append]
        rw [← List.cons_append, leadingNat_append]

/-- `strtol(s, NULL, 10)`: a `long` is as wide as a `long long`. -/
def strtol (s : Bytes) : Int := atoll s

/-- `atoi` is `(int) strtol(s, NULL, 10)`. -/
def atoi (s : Bytes) : Int := toInt32 (strtol s)

/-- What follows the blanks and the sign. -/
def unsigned (s : Bytes) : Bytes :=
  match s.dropWhile isSpace with
  | [] => []
  | c :: rest => if c = 45 ∨ c = 43 then rest else c :: rest

/-- Where `strtol(s, &temp, 10)` leaves `temp`: after the digits, or at the start
when there are none. -/
def strtolEnd (s : Bytes) : Bytes :=
  if (unsigned s).takeWhile isDigit = [] then s else (unsigned s).dropWhile isDigit

example : strtolEnd (ascii " -12x") = ascii "x" ∧
    strtolEnd (ascii " +") = ascii " +" := by decide +kernel

/-! ## What is printed is read back -/

theorem digits_ne_nil (fuel n : Nat) : digits (fuel + 1) n ≠ [] := by
  rw [digits]
  exact List.append_ne_nil_of_right_ne_nil _ (List.cons_ne_nil _ _)

theorem digits_isDigit (fuel : Nat) :
    ∀ n, ∀ c ∈ digits fuel n, isDigit c = true := by
  induction fuel with
  | zero => exact fun n c hc => absurd hc List.not_mem_nil
  | succ fuel ih =>
      intro n c hc
      rw [digits] at hc
      rcases List.mem_append.mp hc with hc | hc
      · split at hc
        · exact absurd hc List.not_mem_nil
        · exact ih _ c hc
      · cases List.mem_singleton.mp hc
        simp only [isDigit, UInt8.le_iff_toNat_le, toNat_ofNat, Bool.and_eq_true,
          decide_eq_true_eq]
        exact ⟨by simp; omega, by simp; omega⟩

theorem leadingNat_digits (fuel : Nat) :
    ∀ n, n < 10 ^ fuel → leadingNat (digits fuel n) = n := by
  have hvalue : ∀ fuel n, n < 10 ^ fuel →
      (digits fuel n).foldl (fun n c => 10 * n + (c.toNat - 48)) 0 = n := by
    intro fuel
    induction fuel with
    | zero =>
        intro n hn
        exact (Nat.lt_one_iff.mp hn).symm
    | succ fuel ih =>
        intro n hn
        have hrest := ih (n / 10) (by omega)
        rw [digits, List.foldl_append]
        split
        · simp only [List.foldl_nil, List.foldl_cons, toNat_ofNat]
          omega
        · rw [hrest]
          simp only [List.foldl_nil, List.foldl_cons, toNat_ofNat]
          omega
  intro n hn
  rw [leadingNat, List.takeWhile_eq_self_iff.mpr (digits_isDigit fuel n)]
  exact hvalue fuel n hn

/-- How many digits are printed. -/
theorem digits_length_le (fuel : Nat) : ∀ n k, n < 10 ^ fuel → 0 < k →
    ((digits fuel n).length ≤ k ↔ n < 10 ^ k) := by
  induction fuel with
  | zero =>
      intro n k hn hk
      rw [Nat.lt_one_iff.mp hn]
      exact iff_of_true (Nat.zero_le k) (Nat.pow_pos (by omega))
  | succ fuel ih =>
      intro n k hn hk
      obtain ⟨k, rfl⟩ := Nat.exists_eq_succ_of_ne_zero (Nat.ne_of_gt hk)
      rw [digits, List.length_append, List.length_singleton, Nat.succ_le_succ_iff,
        Nat.pow_succ]
      split
      · next hsmall =>
          have hpow : 0 < 10 ^ k := Nat.pow_pos (by omega)
          exact iff_of_true (Nat.zero_le k) (by omega)
      · next hlarge =>
          cases k with
          | zero =>
              have hne := List.length_pos_of_ne_nil
                (show digits fuel (n / 10) ≠ [] from by
                  cases fuel with
                  | zero => omega
                  | succ fuel => exact digits_ne_nil fuel _)
              simp only [Nat.pow_zero]
              omega
          | succ k =>
              rw [ih (n / 10) (k + 1) (by omega) (Nat.succ_pos k)]
              omega

theorem decimal_bytes (x : Int) : ∀ c ∈ decimal x, c = 45 ∨ isDigit c = true := by
  intro c hc
  unfold decimal at hc
  split at hc
  · rcases List.mem_append.mp hc with hc | hc
    · exact Or.inl (List.mem_singleton.mp hc)
    · exact Or.inr (digits_isDigit 20 _ c hc)
  · exact Or.inr (digits_isDigit 20 _ c hc)

theorem decimal_ne_nil (x : Int) : decimal x ≠ [] := by
  unfold decimal
  split
  · exact List.append_ne_nil_of_right_ne_nil _ (digits_ne_nil 19 _)
  · exact digits_ne_nil 19 _

/-- A `long long` of at most seven characters. -/
theorem decimal_length_le_seven {x : Int} (h₁ : -9223372036854775808 ≤ x)
    (h₂ : x ≤ 9223372036854775807) :
    (decimal x).length ≤ 7 ↔ -999999 ≤ x ∧ x ≤ 9999999 := by
  have hfuel : x.natAbs < 10 ^ 20 := by omega
  unfold decimal
  split
  · have hlen := digits_length_le 20 x.natAbs 6 hfuel (by omega)
    rw [List.length_append, show (ascii "-").length = 1 from rfl]
    omega
  · have hlen := digits_length_le 20 x.natAbs 7 hfuel (by omega)
    omega

theorem clampInt64_of_range {x : Int} (h₁ : -9223372036854775808 ≤ x)
    (h₂ : x ≤ 9223372036854775807) : clampInt64 x = x := by
  unfold clampInt64
  omega

theorem clampInt64_range (x : Int) :
    -9223372036854775808 ≤ clampInt64 x ∧ clampInt64 x ≤ 9223372036854775807 := by
  unfold clampInt64
  omega

theorem atoll_range (s : Bytes) :
    -9223372036854775808 ≤ atoll s ∧ atoll s ≤ 9223372036854775807 := by
  unfold atoll
  split
  · omega
  · split
    · exact clampInt64_range _
    · split
      · exact clampInt64_range _
      · exact clampInt64_range _

theorem toInt32_range (x : Int) : intMin ≤ toInt32 x ∧ toInt32 x ≤ intMax := by
  unfold intMin intMax toInt32
  omega

theorem isSpace_of_digit {c : UInt8} (hdigit : isDigit c = true) :
    isSpace c = false := by
  simp only [isDigit, isSpace, UInt8.le_iff_toNat_le, Bool.and_eq_true,
    decide_eq_true_eq, Bool.or_eq_false_iff, beq_eq_false_iff_ne, ne_eq,
    Bool.and_eq_false_iff, decide_eq_false_iff_not, UInt8.toNat_inj.symm] at hdigit ⊢
  simp at hdigit ⊢
  omega

/-- A text that starts with a digit has no blanks before it and no sign. -/
theorem leadingInt_of_digit {c : UInt8} (hdigit : isDigit c = true) (rest : Bytes) :
    leadingInt (c :: rest) = leadingNat (c :: rest) := by
  have hsign : c ≠ 45 ∧ c ≠ 43 := by
    constructor
    · rintro rfl
      exact absurd hdigit (by decide)
    · rintro rfl
      exact absurd hdigit (by decide)
  rw [leadingInt, List.dropWhile_cons_of_neg
    (by rw [isSpace_of_digit hdigit]; exact Bool.false_ne_true)]
  simp only [hsign.1, hsign.2, if_false]

theorem leadingInt_of_digits {s : Bytes} (h : ∀ c ∈ s, isDigit c = true) :
    leadingInt s = leadingNat s := by
  cases s with
  | nil => rfl
  | cons c s => exact leadingInt_of_digit (h c List.mem_cons_self) s

theorem leadingInt_digits {fuel n : Nat} (h : n < 10 ^ (fuel + 1)) :
    leadingInt (digits (fuel + 1) n) = n := by
  have hvalue := leadingNat_digits (fuel + 1) n h
  obtain ⟨c, cs, hcs⟩ := List.exists_cons_of_ne_nil (digits_ne_nil fuel n)
  have hdigit := digits_isDigit (fuel + 1) n c (hcs ▸ List.mem_cons_self)
  rw [hcs] at hvalue ⊢
  rw [leadingInt_of_digit hdigit, hvalue]

theorem leadingInt_minus (s : Bytes) : leadingInt (ascii "-" ++ s) = -leadingNat s :=
  rfl

theorem leadingInt_decimal {x : Int} (h : x.natAbs < 10 ^ 20) :
    leadingInt (decimal x) = x := by
  unfold decimal
  split
  · next hneg =>
      rw [leadingInt_minus, leadingNat_digits 20 x.natAbs h]
      omega
  · next hnonneg =>
      rw [leadingInt_digits h]
      omega

theorem atoll_decimal {x : Int} (h₁ : -9223372036854775808 ≤ x)
    (h₂ : x ≤ 9223372036854775807) : atoll (decimal x) = x := by
  rw [atoll_eq, leadingInt_decimal (by omega)]
  exact clampInt64_of_range h₁ h₂

theorem atoi_decimal {x : Int} (h₁ : intMin ≤ x) (h₂ : x ≤ intMax) :
    atoi (decimal x) = x := by
  unfold intMin at h₁
  unfold intMax at h₂
  rw [atoi, strtol, atoll_decimal (by omega) (by omega)]
  exact toInt32_of_range h₁ h₂

/-! ## Numerals -/

inductive Sign where
  | bare
  | plus
  | minus
  deriving DecidableEq

def Sign.text : Sign → Bytes
  | .bare => []
  | .plus => ascii "+"
  | .minus => ascii "-"

/-- A decimal integer as it is written: a sign or none, and digits. -/
structure Numeral where
  sign : Sign
  digits : Bytes
  isDigit : ∀ c ∈ digits, isDigit c = true
  ne_nil : digits ≠ []

namespace Numeral

/-- The digits are looked at one by one. -/
def ofChecked (sign : Sign) (digits : Bytes)
    (h : digits.all Pyramid.isDigit = true ∧ digits ≠ []) : Numeral :=
  ⟨sign, digits, List.all_eq_true.mp h.1, h.2⟩

def text (n : Numeral) : Bytes := n.sign.text ++ n.digits

def value (n : Numeral) : Int :=
  match n.sign with
  | .minus => -leadingNat n.digits
  | _ => leadingNat n.digits

theorem text_ne_nil (n : Numeral) : n.text ≠ [] :=
  List.append_ne_nil_of_right_ne_nil _ n.ne_nil

/-- A numeral at the start of a line is read whole. -/
theorem leadingInt_text (n : Numeral) {rest : Bytes}
    (hrest : rest = [] ∨ rest = [10]) :
    leadingInt (n.text ++ rest) = n.value := by
  have hnat : leadingNat (n.digits ++ rest) = leadingNat n.digits := by
    rw [leadingNat, List.takeWhile_append_of_pos n.isDigit, leadingNat,
      List.takeWhile_eq_self_iff.mpr n.isDigit]
    rcases hrest with rfl | rfl
    · rw [List.takeWhile_nil, List.append_nil]
    · rw [List.takeWhile_cons_of_neg (by decide), List.append_nil]
  obtain ⟨c, cs, hcs⟩ := List.exists_cons_of_ne_nil n.ne_nil
  have hdigit := n.isDigit c (hcs ▸ List.mem_cons_self)
  rw [text, value, List.append_assoc]
  cases n.sign with
  | bare =>
      have hlead : leadingInt (n.digits ++ rest)
          = leadingNat (n.digits ++ rest) := by
        rw [hcs]
        exact leadingInt_of_digit hdigit _
      exact hlead.trans (congrArg Nat.cast hnat)
  | plus => exact congrArg Nat.cast hnat
  | minus => exact congrArg (fun m : Nat => -(m : Int)) hnat

/-- No blank stands before a numeral. -/
theorem dropWhile_text (n : Numeral) : n.text.dropWhile isSpace = n.text := by
  obtain ⟨c, cs, hcs⟩ := List.exists_cons_of_ne_nil n.ne_nil
  have hdigit := n.isDigit c (hcs ▸ List.mem_cons_self)
  unfold text
  cases n.sign with
  | bare =>
      rw [hcs]
      exact List.dropWhile_cons_of_neg
        (by rw [isSpace_of_digit hdigit]; exact Bool.false_ne_true)
  | plus => exact List.dropWhile_cons_of_neg (by decide)
  | minus => exact List.dropWhile_cons_of_neg (by decide)

theorem leadingInt_eq (n : Numeral) : leadingInt n.text = n.value := by
  have hvalue := n.leadingInt_text (Or.inl rfl)
  rwa [List.append_nil] at hvalue

end Numeral

/-- A string that `strtol` reads to its end, and that has no blanks, is a numeral. -/
theorem exists_numeral {s : Bytes} (hend : strtolEnd s = []) (hne : s ≠ [])
    (hblank : s.dropWhile isSpace = s) : ∃ n : Numeral, n.text = s := by
  unfold strtolEnd at hend
  split at hend
  · exact absurd hend hne
  next hdigits =>
  have hall := List.dropWhile_eq_nil_iff.mp hend
  have hunsigned : unsigned s ≠ [] := fun hnil => hdigits (by rw [hnil]; rfl)
  obtain ⟨c, cs, rfl⟩ := List.exists_cons_of_ne_nil hne
  rw [unsigned, hblank] at hall hunsigned
  by_cases hsign : c = 45 ∨ c = 43
  · simp only [hsign, if_true] at hall hunsigned
    rcases hsign with rfl | rfl
    · exact ⟨⟨.minus, cs, hall, hunsigned⟩, rfl⟩
    · exact ⟨⟨.plus, cs, hall, hunsigned⟩, rfl⟩
  · simp only [hsign, if_false] at hall hunsigned
    exact ⟨⟨.bare, c :: cs, hall, hunsigned⟩, rfl⟩

end Pyramid
