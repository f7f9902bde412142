/-
# `Pyramid.Split` — cutting the input file into pieces (`server/src/dos.sh`)

`dos.sh` counts newlines with `wc -l`, divides the count by the number of
clients, rounds up, and cuts the file with `split -l` every so many lines.
`split` sees a last line without a newline, which `wc` does not count.

The induction is over the pieces (`cutLines_length`): with a piece of `c` lines
each there are as many as it takes, no matter how many were asked for.  The
rest compares that number with `n` (`quotient_covers_iff`).
-/
import Pyramid.Memory.Text

namespace Pyramid

/-- `wc -l` -/
def wcLines (file : Bytes) : Nat := file.count 10

/-- The lines of a file, each with the newline that ends it;
the last may have none. -/
def fileLines : Bytes → List Bytes
  | [] => []
  | c :: file =>
      if c = 10 then [c] :: fileLines file
      else
        match fileLines file with
        | [] => [[c]]
        | l :: ls => (c :: l) :: ls

/-- Consecutive runs of `count` lines, one piece each. -/
def cutLines (count : Nat) : Nat → List Bytes → List Bytes
  | 0, _ => []
  | _ + 1, [] => []
  | fuel + 1, l :: ls =>
      ((l :: ls).take count).flatten :: cutLines count fuel ((l :: ls).drop count)

/-- `split -l count file`, which refuses a count of 0: piece `i` of
the result is `p<i>`. -/
def split (count : Nat) (file : Bytes) : Option (List Bytes) :=
  if count = 0 then none
    else some (cutLines count (fileLines file).length (fileLines file))

/-- `dos.sh n … file` -/
def dos (n : Nat) (file : Bytes) : Option (List Bytes) :=
  let arr := wcLines file
  let count := arr / n
  let modulus := arr % n
  let count := if modulus ≠ 0 then count + 1 else count
  split count file

/-! ## Lines -/

theorem flatten_fileLines : ∀ file, (fileLines file).flatten = file := by
  intro file
  induction file with
  | nil => rfl
  | cons c file ih =>
      rw [fileLines]
      split
      · rw [List.flatten_cons, ih]
        rfl
      · split
        · next h =>
            rw [h] at ih
            rw [← ih]
            rfl
        · next l ls h =>
            rw [h] at ih
            rw [List.flatten_cons, List.cons_append, ← List.flatten_cons, ih]

theorem fileLines_ne_nil : ∀ file, ∀ l ∈ fileLines file, l ≠ [] := by
  intro file
  induction file with
  | nil => exact fun l hl => absurd hl List.not_mem_nil
  | cons c file ih =>
      intro l hl
      rw [fileLines] at hl
      split at hl
      · rcases List.mem_cons.mp hl with rfl | hl
        · exact List.cons_ne_nil _ _
        · exact ih l hl
      · split at hl
        · rw [List.mem_singleton.mp hl]
          exact List.cons_ne_nil _ _
        · next x xs h =>
            rcases List.mem_cons.mp hl with rfl | hl
            · exact List.cons_ne_nil _ _
            · exact ih l (h ▸ List.mem_cons_of_mem _ hl)

/-- The last line of the file has no newline. -/
def unterminated : Bytes → Bool
  | [] => false
  | [c] => c ≠ 10
  | _ :: c :: file => unterminated (c :: file)

theorem fileLines_cons (c d : UInt8) (file : Bytes) :
    (fileLines (c :: d :: file)).length
      = (if c = 10 then 1 else 0) + (fileLines (d :: file)).length := by
  have hne : fileLines (d :: file) ≠ [] := by
    intro hnil
    have hflat := flatten_fileLines (d :: file)
    rw [hnil] at hflat
    cases hflat
  rw [fileLines]
  split
  · rw [List.length_cons, Nat.add_comm]
  · rw [Nat.zero_add]
    split
    · next h => exact absurd h hne
    · next l ls h => rw [h, List.length_cons, List.length_cons]

theorem wcLines_cons (c : UInt8) (file : Bytes) :
    wcLines (c :: file) = (if c = 10 then 1 else 0) + wcLines file := by
  rw [wcLines, List.count_cons, Nat.add_comm]
  simp only [beq_iff_eq, wcLines]

/-- `wc` misses the last line when nothing ends it. -/
theorem fileLines_length :
    ∀ file, (fileLines file).length = wcLines file + (unterminated file).toNat
  | [] => rfl
  | [c] => by
      by_cases hc : c = 10
      · subst hc
        rfl
      · simp [fileLines, wcLines, unterminated, hc]
  | c :: d :: file => by
      rw [fileLines_cons, wcLines_cons, unterminated, fileLines_length (d :: file),
        Nat.add_assoc]

/-! ## Pieces -/

theorem flatten_cutLines {count : Nat} (hpos : 0 < count) :
    ∀ fuel ls, ls.length ≤ fuel → (cutLines count fuel ls).flatten = ls.flatten := by
  intro fuel
  induction fuel with
  | zero =>
      intro ls hls
      rw [List.eq_nil_of_length_eq_zero (Nat.le_zero.mp hls)]
      rfl
  | succ fuel ih =>
      intro ls hls
      cases ls with
      | nil => rfl
      | cons l ls =>
          have hrest : ((l :: ls).drop count).length ≤ fuel := by
            rw [List.length_drop]
            omega
          rw [cutLines, List.flatten_cons, ih _ hrest, ← List.flatten_append,
            List.take_append_drop]

theorem cutLines_ne_nil {count : Nat} (hpos : 0 < count) :
    ∀ fuel ls, (∀ l ∈ ls, l ≠ []) → ∀ p ∈ cutLines count fuel ls, p ≠ [] := by
  intro fuel
  induction fuel with
  | zero => exact fun ls _ p hp => absurd hp List.not_mem_nil
  | succ fuel ih =>
      intro ls hls p hp
      cases ls with
      | nil => exact absurd hp List.not_mem_nil
      | cons l ls =>
          rcases List.mem_cons.mp hp with rfl | hp
          · obtain ⟨k, rfl⟩ : ∃ k, count = k + 1 := ⟨count - 1, by omega⟩
            rw [List.take_succ_cons, List.flatten_cons]
            exact List.append_ne_nil_of_left_ne_nil (hls l List.mem_cons_self) _
          · exact ih _ (fun x hx => hls x (List.mem_of_mem_drop hx)) p hp

/-- As many pieces as it takes, and the last one holds a line. -/
theorem cutLines_length {count : Nat} (hpos : 0 < count) :
    ∀ fuel ls, ls.length ≤ fuel →
      ls.length ≤ count * (cutLines count fuel ls).length ∧
        count * (cutLines count fuel ls).length < ls.length + count := by
  intro fuel
  induction fuel with
  | zero =>
      intro ls hls
      rw [List.eq_nil_of_length_eq_zero (Nat.le_zero.mp hls)]
      simpa [cutLines] using hpos
  | succ fuel ih =>
      intro ls hls
      cases ls with
      | nil => simpa [cutLines] using hpos
      | cons l ls =>
          have hpieces : count * (cutLines count (fuel + 1) (l :: ls)).length
              = count * (cutLines count fuel ((l :: ls).drop count)).length
                + count := by
            rw [cutLines, List.length_cons, Nat.mul_succ]
          rw [hpieces]
          rcases Nat.lt_or_ge count (l :: ls).length with hlong | hshort
          · have hdrop : ((l :: ls).drop count).length = (l :: ls).length - count :=
              List.length_drop
            obtain ⟨hle, hlt⟩ := ih ((l :: ls).drop count) (by omega)
            omega
          · have hnil : cutLines count fuel ((l :: ls).drop count) = [] := by
              rw [List.drop_eq_nil_of_le hshort]
              cases fuel <;> rfl
            rw [hnil, List.length_nil, Nat.mul_zero, Nat.zero_add]
            exact ⟨hshort, by rw [List.length_cons]; omega⟩

/-- Rounding up covers the lines with exactly `n` pieces: when nothing is left
over there is no room for a line more, and otherwise the pieces before the last
must not use up all the lines. -/
theorem quotient_covers_iff {lines last n count k : Nat} (hn : 1 ≤ n)
    (hlast : last ≤ 1) (hcount : count = if lines % n ≠ 0 then lines / n + 1
      else lines / n) (hpos : 0 < count)
    (hle : lines + last ≤ count * k) (hlt : count * k < lines + last + count) :
    k = n ↔ if lines % n = 0 then last = 0
      else n ≤ lines / n + lines % n + last := by
  have hdiv := Nat.div_add_mod lines n
  have hmod := Nat.mod_lt lines hn
  have hk : k = n ↔ lines + last ≤ count * n ∧ count * n < lines + last + count := by
    constructor
    · rintro rfl
      exact ⟨hle, hlt⟩
    · rintro ⟨hle', hlt'⟩
      have h₁ : count * k < count * (n + 1) := by rw [Nat.mul_succ]; omega
      have h₂ : count * n < count * (k + 1) := by rw [Nat.mul_succ]; omega
      have h₃ := Nat.lt_of_mul_lt_mul_left h₁
      have h₄ := Nat.lt_of_mul_lt_mul_left h₂
      omega
  rw [hk]
  by_cases hr : lines % n = 0
  · rw [if_neg (by omega)] at hcount
    rw [if_pos hr, hcount, Nat.mul_comm]
    omega
  · rw [if_pos hr] at hcount
    rw [if_neg hr, hcount, Nat.mul_comm, Nat.mul_succ]
    omega

/-! ## Coverage -/

/-- The pieces are `n` non-empty ones, numbered from 0, that make up the file. -/
def Covers (n : Nat) (file : Bytes) : Prop :=
  ∃ pieces, dos n file = some pieces ∧ pieces.length = n ∧ (∀ p ∈ pieces, p ≠ []) ∧
    pieces.flatten = file

/-- **When the split covers the assignment.**  The file has a newline, and either
the number of newlines is a multiple of `n` and the last line has one too, or
it is not, and quotient, remainder and an unterminated line come to `n` or more. -/
theorem dos_covers_iff (n : Nat) (hn : 1 ≤ n) (file : Bytes) :
    Covers n file ↔ 0 < wcLines file ∧
      if wcLines file % n = 0 then unterminated file = false
      else n ≤ wcLines file / n + wcLines file % n + (unterminated file).toNat := by
  have hlast : (unterminated file).toNat ≤ 1 := Bool.toNat_le _
  have hzero : (unterminated file).toNat = 0 ↔ unterminated file = false := by
    cases unterminated file <;> decide
  obtain ⟨count, hcount⟩ : ∃ count, count =
      if wcLines file % n ≠ 0 then wcLines file / n + 1 else wcLines file / n :=
    ⟨_, rfl⟩
  have hdos : dos n file = split count file := by rw [hcount]; rfl
  have hpos : 0 < count ↔ 0 < wcLines file := by
    have hdiv := Nat.div_add_mod (wcLines file) n
    rw [hcount]
    by_cases hr : wcLines file % n = 0
    · rw [if_neg (by omega)]
      constructor
      · intro hq
        exact Nat.lt_of_lt_of_le hq (Nat.div_le_self _ _)
      · intro hL
        refine Nat.pos_of_ne_zero fun hq => ?_
        rw [hq, hr] at hdiv
        omega
    · rw [if_pos hr]
      exact ⟨fun _ => Nat.pos_of_ne_zero fun h0 => hr (by rw [h0, Nat.zero_mod]),
        fun _ => Nat.succ_pos _⟩
  rw [Covers, hdos, split]
  rcases Nat.eq_zero_or_pos count with h0 | hc
  · -- a file without a newline is not cut at all
    rw [if_pos h0]
    constructor
    · rintro ⟨pieces, h, -⟩
      cases h
    · rintro ⟨hL, -⟩
      omega
  · obtain ⟨hle, hlt⟩ := cutLines_length hc _ (fileLines file) (Nat.le_refl _)
    rw [fileLines_length] at hle hlt
    have hiff := quotient_covers_iff hn hlast hcount hc hle hlt
    rw [hzero] at hiff
    rw [if_neg (by omega), and_iff_right (hpos.mp hc), ← hiff, ← fileLines_length]
    constructor
    · rintro ⟨pieces, h, hlen, -⟩
      cases h
      exact hlen
    · intro hlen
      refine ⟨_, rfl, hlen, cutLines_ne_nil hc _ _ (fileLines_ne_nil file), ?_⟩
      rw [flatten_cutLines hc _ _ (Nat.le_refl _), flatten_fileLines]

/-- Four lines for three clients are cut into two pieces. -/
theorem third_client_without_piece :
    dos 3 (ascii "1\n2\n3\n4\n") = some [ascii "1\n2\n", ascii "3\n4\n"] ∧
      ¬ Covers 3 (ascii "1\n2\n3\n4\n") := by
  refine ⟨by decide, ?_⟩
  rintro ⟨pieces, h, hlen, -⟩
  have hdos : dos 3 (ascii "1\n2\n3\n4\n") = some [ascii "1\n2\n", ascii "3\n4\n"] :=
    by decide
  rw [hdos] at h
  cases h
  exact absurd hlen (by decide)

theorem dos_covers_sample :
    Covers 3 (ascii "1\n2\n3\n4\n5") ↔ 0 < wcLines (ascii "1\n2\n3\n4\n5") ∧
      if wcLines (ascii "1\n2\n3\n4\n5") % 3 = 0
        then unterminated (ascii "1\n2\n3\n4\n5") = false
      else 3 ≤ wcLines (ascii "1\n2\n3\n4\n5") / 3
        + wcLines (ascii "1\n2\n3\n4\n5") % 3
        + (unterminated (ascii "1\n2\n3\n4\n5")).toNat :=
  dos_covers_iff 3 (by decide) _

end Pyramid
