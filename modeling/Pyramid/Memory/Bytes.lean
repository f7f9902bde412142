/-
# `Pyramid.Memory.Bytes` — byte arrays, words in them, and C integers

A byte array is the list of its bytes; a pointer into it is an offset.  Reads
and writes past the end of the array end the run.  The host is little-endian,
as the programs modelled here assume of both ends of a connection: a word is
stored low byte first, and `htons`/`htonl` swap.

Words are natural numbers.  Where C converts to a narrower type the function
that stores the word keeps its low bytes only, so no bound is assumed here;
the signed `int` is an `Int`, with `toInt32` for the conversion to it and
`subInt` for a subtraction that C leaves undefined when it overflows.
-/
import Pyramid.Memory.Heap
import Mathlib.Data.List.Basic

namespace Pyramid

abbrev Bytes := List UInt8

/-! ## Integers -/

/-- The range of `int`. -/
def intMax : Int := 2147483647

def intMin : Int := -2147483648

/-- The range of `long`, which is that of `long long`. -/
def longMax : Nat := 9223372036854775807

def longMin : Int := -9223372036854775808

/-- Conversion of an integer to `int`: the value modulo `2^32` nearest zero. -/
def toInt32 (x : Int) : Int := (x + 2147483648) % 4294967296 - 2147483648

theorem toInt32_of_range {x : Int} (h₁ : intMin ≤ x) (h₂ : x ≤ intMax) :
    toInt32 x = x := by
  unfold intMin at h₁
  unfold intMax at h₂
  unfold toInt32
  omega

theorem toInt32_nat {n : Nat} (h : (n : Int) ≤ intMax) : toInt32 (n : Int) = n :=
  toInt32_of_range (by unfold intMin; omega) h

/-- `a - b` on `int`s: undefined when the difference is not an `int`. -/
def subInt (a b : Int) : Except Halt Int :=
  if intMin ≤ a - b ∧ a - b ≤ intMax then .ok (a - b) else .error .overflow

theorem subInt_ok {a b c : Int} :
    subInt a b = .ok c ↔ intMin ≤ a - b ∧ a - b ≤ intMax ∧ c = a - b := by
  unfold subInt
  by_cases hr : intMin ≤ a - b ∧ a - b ≤ intMax
  · simp [hr, eq_comm]
  · simp only [hr, if_false, reduceCtorEq, false_iff]
    exact fun ⟨h₁, h₂, _⟩ => hr ⟨h₁, h₂⟩

/-! ## Byte order -/

/-- `htons` (and `ntohs`) on a little-endian host: the argument's low
16 bits, bytes swapped. -/
def htons (x : Nat) : Nat := x % 256 * 256 + x / 256 % 256

/-- `htonl` (and `ntohl`) on a little-endian host. -/
def htonl (x : Nat) : Nat :=
  x % 256 * 16777216 + x / 256 % 256 * 65536 + x / 65536 % 256 * 256 + x
    / 16777216 % 256

theorem htons_pair {a b : Nat} (ha : a < 256) (hb : b < 256) (c : Nat) :
    htons (a + 256 * b + 65536 * c) = b + 256 * a := by
  have h₀ : (a + 256 * b + 65536 * c) % 256 = a := by omega
  have h₁ : (a + 256 * b + 65536 * c) / 256 % 256 = b := by omega
  unfold htons
  omega

theorem htons_htons (x : Nat) : htons (htons x) = x % 65536 := by
  obtain ⟨a, b, c, ha, hb, hx⟩ :
      ∃ a b c, a < 256 ∧ b < 256 ∧ x = a + 256 * b + 65536 * c :=
    ⟨x % 256, x / 256 % 256, x / 65536, by omega, by omega, by omega⟩
  have hswap : htons (b + 256 * a) = a + 256 * b := htons_pair hb ha 0
  rw [hx, htons_pair ha hb c, hswap]
  omega

theorem htonl_quad {a b c d : Nat} (ha : a < 256) (hb : b < 256) (hc : c < 256)
    (hd : d < 256) (e : Nat) :
    htonl (a + 256 * b + 65536 * c + 16777216 * d + 4294967296 * e)
      = d + 256 * c + 65536 * b + 16777216 * a := by
  have h₀ : (a + 256 * b + 65536 * c + 16777216 * d + 4294967296 * e) % 256 = a := by
    omega
  have h₁ : (a + 256 * b + 65536 * c + 16777216 * d + 4294967296 * e) / 256 % 256
      = b := by omega
  have h₂ : (a + 256 * b + 65536 * c + 16777216 * d + 4294967296 * e) / 65536 % 256
      = c := by omega
  have h₃ : (a + 256 * b + 65536 * c + 16777216 * d + 4294967296 * e) / 16777216
      % 256 = d := by
    omega
  unfold htonl
  rw [h₀, h₁, h₂, h₃]
  omega

theorem htonl_htonl (x : Nat) : htonl (htonl x) = x % 4294967296 := by
  obtain ⟨a, b, c, d, e, ha, hb, hc, hd, hx⟩ :
      ∃ a b c d e, a < 256 ∧ b < 256 ∧ c < 256 ∧ d < 256 ∧
        x = a + 256 * b + 65536 * c + 16777216 * d + 4294967296 * e :=
    ⟨x % 256, x / 256 % 256, x / 65536 % 256, x / 16777216 % 256, x / 4294967296,
      by omega, by omega, by omega, by omega, by omega⟩
  have hswap : htonl (d + 256 * c + 65536 * b + 16777216 * a)
      = a + 256 * b + 65536 * c + 16777216 * d := htonl_quad hd hc hb ha 0
  rw [hx, htonl_quad ha hb hc hd e, hswap]
  omega

theorem htons_lt (x : Nat) : htons x < 65536 := by
  unfold htons
  omega

theorem htonl_lt (x : Nat) : htonl x < 4294967296 := by
  unfold htonl
  omega

/-- In network order the high byte comes first. -/
theorem htons_small {x : Nat} (h : x < 256) : htons x % 256 = 0 := by
  have hhigh : x / 256 = 0 := Nat.div_eq_of_lt h
  unfold htons
  rw [hhigh]
  omega

theorem htonl_small {x : Nat} (h : x < 16777216) : htonl x % 256 = 0 := by
  have hhigh : x / 16777216 = 0 := Nat.div_eq_of_lt h
  unfold htonl
  rw [hhigh]
  omega

/-- The two bytes a `uint16_t` store writes. -/
def bytes16 (x : Nat) : Bytes := [UInt8.ofNat x, UInt8.ofNat (x / 256)]

/-- The four bytes a `uint32_t` store writes. -/
def bytes32 (x : Nat) : Bytes :=
  [UInt8.ofNat x, UInt8.ofNat (x / 256), UInt8.ofNat (x / 65536),
    UInt8.ofNat (x / 16777216)]

@[simp] theorem length_bytes16 (x : Nat) : (bytes16 x).length = 2 := rfl

@[simp] theorem length_bytes32 (x : Nat) : (bytes32 x).length = 4 := rfl

/-! ## Reading -/

/-- `buf[off]` -/
def load8 (buf : Bytes) (off : Nat) : Except Halt UInt8 :=
  match buf[off]? with
  | none => .error .outOfBounds
  | some b => .ok b

/-- `*(uint16_t *)(buf + off)` -/
def load16 (buf : Bytes) (off : Nat) : Except Halt Nat :=
  match buf.drop off with
  | b₀ :: b₁ :: _ => .ok (b₀.toNat + 256 * b₁.toNat)
  | _ => .error .outOfBounds

/-- `*(uint32_t *)(buf + off)` -/
def load32 (buf : Bytes) (off : Nat) : Except Halt Nat :=
  match buf.drop off with
  | b₀ :: b₁ :: b₂ :: b₃ :: _ =>
      .ok (b₀.toNat + 256 * b₁.toNat + 65536 * b₂.toNat + 16777216 * b₃.toNat)
  | _ => .error .outOfBounds

/-- The `n` bytes a `memcpy` from `buf + off` reads. -/
def peek (buf : Bytes) (off n : Nat) : Except Halt Bytes :=
  if off + n ≤ buf.length then .ok ((buf.drop off).take n) else .error .outOfBounds

theorem load8_of_lt {buf : Bytes} {off : Nat} (h : off < buf.length) :
    load8 buf off = .ok buf[off] := by
  rw [load8, List.getElem?_eq_getElem h]

theorem load16_bound {buf : Bytes} {off w : Nat} (h : load16 buf off = .ok w) :
    off + 2 ≤ buf.length := by
  unfold load16 at h
  split at h
  · next b₀ b₁ rest heq =>
      have := congrArg List.length heq
      simp only [List.length_drop, List.length_cons] at this
      omega
  · exact absurd h (by simp)

theorem load32_bound {buf : Bytes} {off w : Nat} (h : load32 buf off = .ok w) :
    off + 4 ≤ buf.length := by
  unfold load32 at h
  split at h
  · next b₀ b₁ b₂ b₃ rest heq =>
      have := congrArg List.length heq
      simp only [List.length_drop, List.length_cons] at this
      omega
  · exact absurd h (by simp)

theorem load16_of_bound (buf : Bytes) (off : Nat) (h : off + 2 ≤ buf.length) :
    ∃ w, load16 buf off = .ok w := by
  unfold load16
  match heq : buf.drop off with
  | b₀ :: b₁ :: rest => exact ⟨_, rfl⟩
  | [] | [_] =>
      have := congrArg List.length heq
      simp only [List.length_drop, List.length_cons, List.length_nil] at this
      omega

theorem load32_of_bound (buf : Bytes) (off : Nat) (h : off + 4 ≤ buf.length) :
    ∃ w, load32 buf off = .ok w := by
  unfold load32
  match heq : buf.drop off with
  | b₀ :: b₁ :: b₂ :: b₃ :: rest => exact ⟨_, rfl⟩
  | [] | [_] | [_, _] | [_, _, _] =>
      have := congrArg List.length heq
      simp only [List.length_drop, List.length_cons, List.length_nil] at this
      omega

/-- The number the two bytes at `off` stand for in network order. -/
def be16 (buf : Bytes) (off : Nat) : Nat :=
  match buf.drop off with
  | b₀ :: b₁ :: _ => 256 * b₀.toNat + b₁.toNat
  | _ => 0

/-- The number the four bytes at `off` stand for in network order. -/
def be32 (buf : Bytes) (off : Nat) : Nat :=
  match buf.drop off with
  | b₀ :: b₁ :: b₂ :: b₃ :: _ =>
      16777216 * b₀.toNat + 65536 * b₁.toNat + 256 * b₂.toNat + b₃.toNat
  | _ => 0

theorem htons_load16 {buf : Bytes} {off w : Nat} (h : load16 buf off = .ok w) :
    htons w = be16 buf off := by
  unfold load16 at h
  unfold be16
  split at h
  · next b₀ b₁ rest heq =>
      cases h
      have hpair := htons_pair b₀.toNat_lt b₁.toNat_lt 0
      rw [Nat.mul_zero, Nat.add_zero] at hpair
      omega
  · cases h

theorem htonl_load32 {buf : Bytes} {off w : Nat} (h : load32 buf off = .ok w) :
    htonl w = be32 buf off := by
  unfold load32 at h
  unfold be32
  split at h
  · next b₀ b₁ b₂ b₃ rest heq =>
      cases h
      have hquad := htonl_quad b₀.toNat_lt b₁.toNat_lt b₂.toNat_lt b₃.toNat_lt 0
      rw [Nat.mul_zero, Nat.add_zero] at hquad
      omega
  · cases h

theorem toNat_ofNat (x : Nat) : (UInt8.ofNat x).toNat = x % 256 := by
  simp

theorem load16_append {pre post : Bytes} {x : Nat} :
    load16 (pre ++ (bytes16 x ++ post)) pre.length = .ok (x % 65536) := by
  unfold load16
  simp only [List.drop_left, bytes16, List.cons_append, toNat_ofNat]
  congr 1
  omega

theorem load32_append {pre post : Bytes} {x : Nat} :
    load32 (pre ++ (bytes32 x ++ post)) pre.length = .ok (x % 4294967296) := by
  unfold load32
  simp only [List.drop_left, bytes32, List.cons_append, toNat_ofNat]
  congr 1
  omega

/-! ## Writing -/

/-- Write `bs` at `buf + off`. -/
def poke (buf : Bytes) (off : Nat) (bs : Bytes) : Except Halt Bytes :=
  if off + bs.length ≤ buf.length
    then .ok (buf.take off ++ (bs ++ buf.drop (off + bs.length)))
  else .error .outOfBounds

theorem poke_append (pre old bs post : Bytes) (h : bs.length = old.length) :
    poke (pre ++ (old ++ post)) pre.length bs = .ok (pre ++ (bs ++ post)) := by
  unfold poke
  have hdrop : (pre ++ (old ++ post)).drop (pre.length + bs.length) = post := by
    rw [h, ← List.drop_drop, List.drop_left, List.drop_left]
  have hle : pre.length + bs.length ≤ (pre ++ (old ++ post)).length := by
    simp only [List.length_append]
    omega
  rw [if_pos hle, hdrop, List.take_left]

/-- Writing the first bytes of the room left in an array. -/
theorem poke_room (pre bs room : Bytes) (h : bs.length ≤ room.length) :
    poke (pre ++ room) pre.length bs = .ok (pre ++ (bs ++ room.drop bs.length)) := by
  have hroom : room = room.take bs.length ++ room.drop bs.length :=
    (List.take_append_drop _ _).symm
  have hlen : bs.length = (room.take bs.length).length := by
    rw [List.length_take]
    omega
  conv_lhs => rw [hroom]
  exact poke_append pre _ bs _ hlen

/-- What is apart from the bytes written stays. -/
theorem poke_getElem? {buf bs buf' : Bytes} {off : Nat}
    (h : poke buf off bs = .ok buf') {i : Nat} (hi : i < off ∨ off + bs.length ≤ i) :
    buf'[i]? = buf[i]? := by
  unfold poke at h
  split at h
  · next hle =>
      cases h
      have hoff : (buf.take off).length = off := by
        rw [List.length_take]
        omega
      rcases hi with hi | hi
      · rw [List.getElem?_append_left (by omega), List.getElem?_take_of_lt hi]
      · rw [List.getElem?_append_right (by omega), hoff,
          List.getElem?_append_right (by omega), List.getElem?_drop]
        congr 1
        omega
  · cases h

theorem be16_getElem? (buf : Bytes) (k : Nat) :
    be16 buf k = match buf[k]?, buf[k + 1]? with
      | some b₀, some b₁ => 256 * b₀.toNat + b₁.toNat
      | _, _ => 0 := by
  have hdrop : ∀ i, buf[k + i]? = (buf.drop k)[i]? :=
    fun i => List.getElem?_drop.symm
  rw [← Nat.add_zero k, hdrop 0, Nat.add_zero, hdrop 1, be16]
  cases buf.drop k with
  | nil => rfl
  | cons b₀ rest =>
      cases rest with
      | nil => rfl
      | cons b₁ rest => rfl

theorem poke_be16 {buf bs buf' : Bytes} {off k : Nat}
    (h : poke buf off bs = .ok buf') (hk : k + 2 ≤ off ∨ off + bs.length ≤ k) :
    be16 buf' k = be16 buf k := by
  rw [be16_getElem?, be16_getElem?, poke_getElem? h (by omega),
    poke_getElem? h (by omega)]

theorem be16_take {buf : Bytes} {n k : Nat} (hk : k + 2 ≤ n) :
    be16 (buf.take n) k = be16 buf k := by
  rw [be16_getElem?, be16_getElem?, List.getElem?_take_of_lt (by omega),
    List.getElem?_take_of_lt (by omega)]

/-- A `uint16_t` that was stored in network order. -/
theorem poke_htons {buf buf' : Bytes} {off x : Nat}
    (h : poke buf off (bytes16 (htons x)) = .ok buf') :
    be16 buf' off = x % 65536 := by
  unfold poke at h
  split at h
  · next hle =>
      cases h
      rw [length_bytes16] at hle
      have hoff : (buf.take off).length = off := by
        rw [List.length_take]
        omega
      have hload :=
        @load16_append (buf.take off) (buf.drop (off + (bytes16 (htons x)).length))
          (htons x)
      rw [hoff] at hload
      rw [← htons_load16 hload, Nat.mod_eq_of_lt (htons_lt x), htons_htons]
  · cases h

end Pyramid
