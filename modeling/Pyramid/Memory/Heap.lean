/-
# `Pyramid.Memory.Heap` — C memory, one heap per struct type

A C program that allocates, links and frees records is modelled with one heap
for each record type: a partial map from addresses to records and the least
address never handed out.  Addresses are never handed out twice, so a pointer
to a freed record stays a pointer to nothing, and every use of it is seen.

What C leaves undefined ends the run: `Halt` names the reasons.  A load, a
store or a `free` through `NULL` or through an address that holds no record is
such a reason, and so is a call that never returns (`diverge`, `deadlock`).
Nothing here names a particular program.
-/
import Mathlib.Data.List.Basic

namespace Pyramid

/-- Why a run has no next state. -/
inductive Halt where
  | nullDeref
  | badAddr
  | outOfBounds
  | overflow
  | diverge
  | deadlock
  deriving DecidableEq, Repr

/-- A pointer; `none` is `NULL`. -/
abbrev Ptr := Option Nat

/-! ## Sequencing

Every model function that can end the run returns in `Except Halt`; the two
lemmas below take a finished run apart at a sequencing point. -/

theorem bind_ok {α β : Type} {x : Except Halt α} {f : α → Except Halt β} {r : β} :
    (x >>= f) = .ok r ↔ ∃ a, x = .ok a ∧ f a = .ok r := by
  cases x with
  | error e => simp [bind, Except.bind]
  | ok a => simp [bind, Except.bind]

/-! Not by `rfl`: `simp` would then hand the kernel the whole program before and
after to compare, and the kernel unfolds the arithmetic in it. -/

@[simp] theorem ok_bind {α β : Type} (a : α) (f : α → Except Halt β) :
    ((Except.ok a : Except Halt α) >>= f) = f a := by
  simp [bind, Except.bind]

@[simp] theorem error_bind {α β : Type} (e : Halt) (f : α → Except Halt β) :
    ((Except.error e : Except Halt α) >>= f) = .error e := by
  simp [bind, Except.bind]

/-- The records of one struct type that are allocated now. -/
structure Heap (α : Type) where
  next : Nat
  cell : Nat → Option α
  fresh : ∀ a, next ≤ a → cell a = none

namespace Heap

variable {α β : Type}

def empty : Heap α := ⟨0, fun _ => none, fun _ _ => rfl⟩

theorem lt_next (h : Heap α) {a : Nat} {v : α} (ha : h.cell a = some v) :
    a < h.next := by
  by_contra hlt
  rw [h.fresh a (Nat.le_of_not_lt hlt)] at ha
  exact absurd ha (by simp)

/-- Overwrite the record at an address already handed out. -/
def set (h : Heap α) (a : Nat) (o : Option α) : Heap α where
  next := h.next
  cell b := if b = a ∧ a < h.next then o else h.cell b
  fresh b hb := by
    have hne : ¬ (b = a ∧ a < h.next) := by omega
    simp only [hne, if_false]
    exact h.fresh b hb

/-- Hand out the next address, with these contents. -/
def grow (h : Heap α) (o : Option α) : Heap α where
  next := h.next + 1
  cell b := if b = h.next then o else h.cell b
  fresh b hb := by
    have hne : b ≠ h.next := by omega
    simp only [hne, if_false]
    exact h.fresh b (by omega)

@[simp] theorem next_set (h : Heap α) (a : Nat) (o : Option α) :
    (h.set a o).next = h.next := rfl

@[simp] theorem next_grow (h : Heap α) (o : Option α) :
    (h.grow o).next = h.next + 1 := rfl

theorem cell_set_self {h : Heap α} {a : Nat} {v : α} (ha : h.cell a = some v)
    (o : Option α) :
    (h.set a o).cell a = o := by
  simp [set, h.lt_next ha]

theorem cell_set_ne (h : Heap α) {a b : Nat} (hne : b ≠ a) (o : Option α) :
    (h.set a o).cell b = h.cell b := by
  simp [set, hne]

@[simp] theorem cell_grow_self (h : Heap α) (o : Option α) :
    (h.grow o).cell h.next = o := by
  simp [grow]

theorem cell_grow_ne (h : Heap α) {b : Nat} (hne : b ≠ h.next) (o : Option α) :
    (h.grow o).cell b = h.cell b := by
  simp [grow, hne]

theorem cell_grow_of_cell {h : Heap α} {b : Nat} {v : α} (hb : h.cell b = some v)
    (o : Option α) :
    (h.grow o).cell b = some v := by
  rw [cell_grow_ne h (Nat.ne_of_lt (h.lt_next hb)) o, hb]

theorem set_grow (h : Heap α) (o o' : Option α) :
    (h.grow o).set h.next o' = h.grow o' := by
  have hcell : ((h.grow o).set h.next o').cell = (h.grow o').cell := by
    funext b
    by_cases hb : b = h.next
    · simp [set, grow, hb]
    · simp [set, grow, hb]
  cases hset : (h.grow o).set h.next o' with
  | mk next cell fresh =>
      rw [hset] at hcell
      have hnext : next = h.next + 1 := by
        have hn := congrArg Heap.next hset
        exact hn.symm
      cases hnext
      cases hcell
      rfl

/-! ## The four operations of a C program -/

/-- `*p` -/
def load (h : Heap α) : Ptr → Except Halt α
  | none => .error .nullDeref
  | some a => match h.cell a with
    | none => .error .badAddr
    | some v => .ok v

/-- `p->field = …`, as a function on the record `p` points to. -/
def modify (h : Heap α) (p : Ptr) (f : α → α) : Except Halt (Heap α) :=
  match p with
  | none => .error .nullDeref
  | some a => match h.cell a with
    | none => .error .badAddr
    | some v => .ok (h.set a (some (f v)))

/-- `free(p)`: `free(NULL)` does nothing, freeing twice ends the run. -/
def free (h : Heap α) : Ptr → Except Halt (Heap α)
  | none => .ok h
  | some a => match h.cell a with
    | none => .error .badAddr
    | some _ => .ok (h.set a none)

/-- `malloc`: `src a` is what the request that would get address `a` is given,
nothing when memory is short, else a block with these stale contents. -/
def malloc (h : Heap α) (src : Nat → Option α) : Ptr × Heap α :=
  match src h.next with
  | none => (none, h.grow none)
  | some v => (some h.next, h.grow (some v))

theorem load_ok {h : Heap α} {p : Ptr} {v : α} :
    h.load p = .ok v ↔ ∃ a, p = some a ∧ h.cell a = some v := by
  cases p with
  | none => simp [load]
  | some a => cases hc : h.cell a <;> simp [load, hc]

theorem modify_ok {h h' : Heap α} {p : Ptr} {f : α → α} :
    h.modify p f = .ok h' ↔
      ∃ a v, p = some a ∧ h.cell a = some v ∧ h' = h.set a (some (f v)) := by
  cases p with
  | none => simp [modify]
  | some a => cases hc : h.cell a <;> simp [modify, hc, eq_comm]

theorem free_ok {h h' : Heap α} {a : Nat} :
    h.free (some a) = .ok h' ↔ ∃ v, h.cell a = some v ∧ h' = h.set a none := by
  cases hc : h.cell a <;> simp [free, hc, eq_comm]

theorem load_some {h : Heap α} {a : Nat} {v : α} (ha : h.cell a = some v) :
    h.load (some a) = .ok v := load_ok.mpr ⟨a, rfl, ha⟩

theorem modify_some {h : Heap α} {a : Nat} {v : α} (ha : h.cell a = some v)
    (f : α → α) :
    h.modify (some a) f = .ok (h.set a (some (f v))) :=
  modify_ok.mpr ⟨a, v, rfl, ha, rfl⟩

theorem free_some {h : Heap α} {a : Nat} {v : α} (ha : h.cell a = some v) :
    h.free (some a) = .ok (h.set a none) := free_ok.mpr ⟨v, ha, rfl⟩

/-- The two outcomes of a request for memory. -/
theorem malloc_cases (h : Heap α) (src : Nat → Option α) :
    h.malloc src = (none, h.grow none) ∨
      ∃ v, src h.next = some v ∧ h.malloc src = (some h.next, h.grow (some v)) := by
  cases hs : src h.next with
  | none => exact Or.inl (by simp [malloc, hs])
  | some v => exact Or.inr ⟨v, rfl, by simp [malloc, hs]⟩

/-! ## Freed records -/

/-- The record at `a` was freed, or was never given. -/
def Dead (h : Heap α) (a : Nat) : Prop := a < h.next ∧ h.cell a = none

theorem Dead.of_cell {h h' : Heap α} {a : Nat} (ha : Dead h a)
    (hnext : h.next ≤ h'.next) (hcell : h'.cell a = h.cell a) : Dead h' a :=
  ⟨Nat.lt_of_lt_of_le ha.1 hnext, hcell.trans ha.2⟩

theorem Dead.ne {h : Heap α} {a b : Nat} {v : α} (ha : Dead h a)
    (hb : h.cell b = some v) :
    a ≠ b := by
  rintro rfl
  rw [ha.2] at hb
  cases hb

theorem Dead.set {h : Heap α} {a b : Nat} {v : α} (ha : Dead h a)
    (hb : h.cell b = some v) (o : Option α) : Dead (h.set b o) a :=
  ha.of_cell (Nat.le_refl _) (cell_set_ne h (ha.ne hb) o)

theorem Dead.grow {h : Heap α} {a : Nat} (ha : Dead h a) (o : Option α) :
    Dead (h.grow o) a :=
  ha.of_cell (Nat.le_succ _) (cell_grow_ne h (Nat.ne_of_lt ha.1) o)

theorem dead_of_freed {h : Heap α} {a : Nat} {v : α} (ha : h.cell a = some v) :
    Dead (h.set a none) a := ⟨h.lt_next ha, cell_set_self ha none⟩

/-! ## Observing one part of every record -/

/-- A change of one record that `f` does not see is seen by `f` nowhere. -/
theorem map_cell_set {γ : Type} {h : Heap α} {a : Nat} {v w : α} (f : α → γ)
    (ha : h.cell a = some v) (hf : f w = f v) (b : Nat) :
    ((h.set a (some w)).cell b).map f = (h.cell b).map f := by
  by_cases hb : b = a
  · subst hb
    rw [cell_set_self ha, ha, Option.map_some, Option.map_some, hf]
  · rw [cell_set_ne h hb]

/-! ## Following links -/

/-- `while (cur && !hit(cur)) cur = cur->link;` — the pointer the loop stops at.
A chain that has not ended after as many records as were ever allocated goes
round in a circle. -/
def chase (h : Heap α) (link : α → Ptr) (hit : α → Bool) :
    Nat → Ptr → Except Halt Ptr
  | _, none => .ok none
  | 0, some _ => .error .diverge
  | fuel + 1, some a => match h.cell a with
    | none => .error .badAddr
    | some v => if hit v then .ok (some a) else chase h link hit fuel (link v)

/-- A walk sees of the records only their links and whether they are hit. -/
theorem chase_congr {h h' : Heap α} {link : α → Ptr} {hit : α → Bool}
    (hcell : ∀ a, (h'.cell a).map (fun v => (link v, hit v))
      = (h.cell a).map fun v => (link v, hit v)) :
    ∀ (fuel : Nat) (p : Ptr), h'.chase link hit fuel p
      = h.chase link hit fuel p := by
  intro fuel
  induction fuel with
  | zero =>
      intro p
      cases p with
      | none => rfl
      | some a => rfl
  | succ fuel ih =>
      intro p
      cases p with
      | none => rfl
      | some a =>
          have ha := hcell a
          cases hv : h.cell a with
          | none =>
              rw [hv, Option.map_none, Option.map_eq_none_iff] at ha
              rw [chase, chase, ha, hv]
          | some v =>
              rw [hv, Option.map_some] at ha
              obtain ⟨w, hw, heq⟩ := Option.map_eq_some_iff.mp ha
              obtain ⟨hlink, hhit⟩ := Prod.mk.injEq .. ▸ heq
              rw [chase, chase, hw, hv]
              simp only [hlink, hhit, ih]

/-- A walk that stops at a record stops at one that is hit. -/
theorem chase_found {h : Heap α} {link : α → Ptr} {hit : α → Bool} {a : Nat} :
    ∀ {fuel : Nat} {p : Ptr}, h.chase link hit fuel p = .ok (some a) →
      ∃ v, h.cell a = some v ∧ hit v = true := by
  intro fuel
  induction fuel with
  | zero =>
      intro p hr
      cases p with
      | none => cases hr
      | some b => cases hr
  | succ fuel ih =>
      intro p hr
      cases p with
      | none => cases hr
      | some b =>
          rw [chase] at hr
          cases hv : h.cell b with
          | none =>
              rw [hv] at hr
              cases hr
          | some v =>
              simp only [hv] at hr
              cases hhit : hit v with
              | true =>
                  rw [if_pos hhit] at hr
                  cases hr
                  exact ⟨v, hv, hhit⟩
              | false =>
                  rw [if_neg (by simp [hhit])] at hr
                  exact ih hr

/-- The addresses met from `p` along `link` before `stop`, `NULL` or a freed
record is reached. -/
def trail (h : Heap α) (link : α → Ptr) (stop : Ptr) : Nat → Ptr → List Nat
  | 0, _ => []
  | _ + 1, none => []
  | fuel + 1, some a =>
      if stop = some a then []
      else match h.cell a with
        | none => []
        | some v => a :: trail h link stop fuel (link v)

end Heap

end Pyramid
