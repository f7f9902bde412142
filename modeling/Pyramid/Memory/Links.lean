/-
# `Pyramid.Memory.Links` — doubly linked lists in a heap

`Links` says where a record keeps its two pointers.  `Seg h D p first xs stop`
says that from `first` the records `xs` are met, one after the other, up to
`stop`, and that each points back to the one before it, the first one to `p`.

Some programs keep only one of the two directions right.  `D` is the set of
addresses a forward pointer may lead to instead of the next record: with `D`
empty the list is right in both directions; with `D` the addresses of freed
records it can be trusted backwards only, and a walk along it either finds
every record in its place or ends in a fault (`Seg.chase_cases`).

The operations are the ones C programs write out by hand: a record is put
before the first (`attach`), after the last (`append`), or taken out
(`detach`).
-/
import Pyramid.Memory.Heap
import Mathlib.Data.List.Induction
import Mathlib.Data.List.Perm.Subperm

namespace Pyramid

/-- The two pointers of a record. -/
structure Links (α : Type) where
  next : α → Ptr
  prev : α → Ptr
  setNext : Ptr → α → α
  setPrev : Ptr → α → α
  next_setNext : ∀ p v, next (setNext p v) = p
  prev_setNext : ∀ p v, prev (setNext p v) = prev v
  next_setPrev : ∀ p v, next (setPrev p v) = next v
  prev_setPrev : ∀ p v, prev (setPrev p v) = p

attribute [simp] Links.next_setNext Links.prev_setNext Links.next_setPrev
  Links.prev_setPrev

/-- `p` is `q`, or leads astray, to an address in `D`. -/
def Leads (D : Nat → Prop) (p q : Ptr) : Prop := p = q ∨ ∃ a, p = some a ∧ D a

theorem Leads.refl (D : Nat → Prop) (p : Ptr) : Leads D p p := Or.inl rfl

theorem Leads.mono {D D' : Nat → Prop} (hD : ∀ a, D a → D' a) {p q : Ptr}
    (h : Leads D p q) :
    Leads D' p q := by
  rcases h with rfl | ⟨a, rfl, ha⟩
  · exact Or.inl rfl
  · exact Or.inr ⟨a, rfl, hD a ha⟩

theorem Leads.trans {D : Nat → Prop} {p q r : Ptr} (h₁ : Leads D p q)
    (h₂ : Leads D q r) :
    Leads D p r := by
  rcases h₁ with rfl | h₁
  · exact h₂
  · exact Or.inr h₁

theorem Leads.eq {p q : Ptr} (h : Leads (fun _ => False) p q) : p = q := by
  rcases h with rfl | ⟨a, -, ha⟩
  · rfl
  · exact ha.elim

/-- The pointer to the last of `xs`, `p` if there is none. -/
def lastOf : Ptr → List Nat → Ptr
  | p, [] => p
  | _, a :: xs => lastOf (some a) xs

@[simp] theorem lastOf_append_singleton (p : Ptr) (xs : List Nat) (a : Nat) :
    lastOf p (xs ++ [a]) = some a := by
  induction xs generalizing p with
  | nil => rfl
  | cons b xs ih => exact ih (some b)

theorem lastOf_append_cons (p : Ptr) (xs : List Nat) (a : Nat) (ys : List Nat) :
    lastOf p (xs ++ a :: ys) = lastOf (some a) ys := by
  induction xs generalizing p with
  | nil => rfl
  | cons b xs ih => exact ih (some b)

/-! ## Segments -/

section Segments
variable {α : Type} (L : Links α)

def Seg (h : Heap α) (D : Nat → Prop) : Ptr → Ptr → List Nat → Ptr → Prop
  | _, first, [], stop => Leads D first stop
  | p, first, a :: xs, stop => Leads D first (some a) ∧
      ∃ v, h.cell a = some v ∧ L.prev v = p ∧ Seg h D (some a) (L.next v) xs stop

/-- A whole list, right in both directions. -/
def DList (h : Heap α) (first : Ptr) (xs : List Nat) : Prop :=
  Seg L h (fun _ => False) none first xs none

variable {L} {h h' : Heap α} {D D' : Nat → Prop}

theorem Seg.cell_of_mem {xs : List Nat} {p first stop : Ptr}
    (hs : Seg L h D p first xs stop) {a : Nat} (ha : a ∈ xs) :
    ∃ v, h.cell a = some v := by
  induction xs generalizing p first with
  | nil => exact absurd ha List.not_mem_nil
  | cons b xs ih =>
      obtain ⟨-, v, hv, -, hrest⟩ := hs
      rcases List.mem_cons.mp ha with rfl | ha
      · exact ⟨v, hv⟩
      · exact ih hrest ha

/-- A list without repetitions is no longer than the heap. -/
theorem Seg.length_le {xs : List Nat} {p first stop : Ptr}
    (hs : Seg L h D p first xs stop) (hnd : xs.Nodup) : xs.length ≤ h.next := by
  have hsub : xs ⊆ List.range h.next := by
    intro a ha
    obtain ⟨v, hv⟩ := hs.cell_of_mem ha
    exact List.mem_range.mpr (h.lt_next hv)
  have hle := (List.subperm_of_subset hnd hsub).length_le
  rwa [List.length_range] at hle

theorem seg_append {p first stop : Ptr} {xs ys : List Nat} {a : Nat} :
    Seg L h D p first (xs ++ a :: ys) stop ↔
      Seg L h D p first xs (some a) ∧
        ∃ v, h.cell a = some v ∧ L.prev v = lastOf p xs ∧
        Seg L h D (some a) (L.next v) ys stop := by
  induction xs generalizing p first with
  | nil => exact Iff.rfl
  | cons b xs ih =>
      constructor
      · rintro ⟨hlead, v, hv, hprev, hrest⟩
        obtain ⟨hpre, hpost⟩ := ih.mp hrest
        exact ⟨⟨hlead, v, hv, hprev, hpre⟩, hpost⟩
      · rintro ⟨⟨hlead, v, hv, hprev, hpre⟩, hpost⟩
        exact ⟨hlead, v, hv, hprev, ih.mpr ⟨hpre, hpost⟩⟩

theorem Seg.lead {p first t stop : Ptr} {xs : List Nat} (hlead : Leads D first t)
    (hs : Seg L h D p t xs stop) : Seg L h D p first xs stop := by
  cases xs with
  | nil => exact hlead.trans hs
  | cons a xs => exact ⟨hlead.trans hs.1, hs.2⟩

/-- From no pointer nothing is led to. -/
theorem Seg.eq_nil {p stop : Ptr} {xs : List Nat} (hs : Seg L h D p none xs stop) :
    xs = [] := by
  cases xs with
  | nil => rfl
  | cons a xs =>
      rcases hs.1 with heq | ⟨b, hb, -⟩
      · cases heq
      · cases hb

/-- A record that is there is the next one of the list. -/
theorem Seg.eq_cons {p : Ptr} {a : Nat} {v : α} {xs : List Nat}
    (hs : Seg L h h.Dead p (some a) xs none) (hv : h.cell a = some v) :
    ∃ ys, xs = a :: ys ∧ Seg L h h.Dead (some a) (L.next v) ys none := by
  have halive : ∀ {q : Ptr}, Leads h.Dead (some a) q → q = some a := by
    intro q hlead
    rcases hlead with heq | ⟨b, hb, hdead⟩
    · exact heq.symm
    · cases hb
      exact absurd rfl (hdead.ne hv)
  cases xs with
  | nil => cases halive hs
  | cons b xs =>
      obtain ⟨hlead, w, hw, -, hrest⟩ := hs
      cases halive hlead
      cases hv.symm.trans hw
      exact ⟨xs, rfl, hrest⟩

theorem Seg.join {p first t stop : Ptr} {xs ys : List Nat}
    (hs : Seg L h D p first xs t) (ht : Seg L h D (lastOf p xs) t ys stop) :
    Seg L h D p first (xs ++ ys) stop := by
  induction xs generalizing p first with
  | nil => exact ht.lead hs
  | cons a xs ih =>
      obtain ⟨hlead, v, hv, hprev, hrest⟩ := hs
      exact ⟨hlead, v, hv, hprev, ih hrest ht⟩

/-- A list stays a list when nothing happens to its records' pointers. -/
theorem Seg.frame {p first stop : Ptr} {xs : List Nat}
    (hs : Seg L h D p first xs stop) (hcell : ∀ a ∈ xs, ∀ v, h.cell a = some v →
      ∃ v', h'.cell a = some v' ∧ L.next v' = L.next v ∧ L.prev v' = L.prev v)
    (hD : ∀ a, D a → D' a) : Seg L h' D' p first xs stop := by
  induction xs generalizing p first with
  | nil => exact Leads.mono hD hs
  | cons a xs ih =>
      obtain ⟨hlead, v, hv, hprev, hrest⟩ := hs
      obtain ⟨v', hv', hnext', hprev'⟩ := hcell a List.mem_cons_self v hv
      refine ⟨hlead.mono hD, v', hv', hprev'.trans hprev, ?_⟩
      rw [hnext']
      exact ih hrest fun b hb => hcell b (List.mem_cons_of_mem _ hb)

theorem Seg.congr {p first stop : Ptr} {xs : List Nat}
    (hs : Seg L h D p first xs stop) (hcell : ∀ a ∈ xs, h'.cell a = h.cell a)
    (hD : ∀ a, D a → D' a) :
    Seg L h' D' p first xs stop :=
  hs.frame (fun a ha v hv => ⟨v, by rw [hcell a ha, hv], rfl, rfl⟩) hD

theorem Seg.set_of_not_mem {p first stop : Ptr} {xs : List Nat} {a : Nat}
    (hs : Seg L h D p first xs stop) (ha : a ∉ xs) (o : Option α) :
    Seg L (h.set a o) D p first xs stop :=
  hs.congr (fun b hb => h.cell_set_ne (by rintro rfl; exact ha hb) o) fun _ hb => hb

/-- A record gets new contents and keeps its links. -/
theorem Seg.set_data {p first stop : Ptr} {xs : List Nat} {a : Nat} {v w : α}
    (hs : Seg L h D p first xs stop) (hv : h.cell a = some v)
    (hnext : L.next w = L.next v) (hprev : L.prev w = L.prev v)
    (hD : ∀ b, D b → D' b) :
    Seg L (h.set a (some w)) D' p first xs stop := by
  refine hs.frame (fun b hb u hu => ?_) hD
  by_cases hba : b = a
  · rw [hba] at hu ⊢
    rw [hv] at hu
    cases hu
    exact ⟨w, Heap.cell_set_self hv _, hnext, hprev⟩
  · exact ⟨u, by rw [Heap.cell_set_ne _ hba, hu], rfl, rfl⟩

/-- What the last pointer of a list leads to, once that is an address in `D`. -/
theorem Seg.astray {p first t : Ptr} {xs : List Nat} {a : Nat}
    (hs : Seg L h D p first xs (some a)) (ha : D a) : Seg L h D p first xs t := by
  induction xs generalizing p first with
  | nil =>
      rcases hs with rfl | hs
      · exact Or.inr ⟨a, rfl, ha⟩
      · exact Or.inr hs
  | cons b xs ih =>
      obtain ⟨hlead, v, hv, hprev, hrest⟩ := hs
      exact ⟨hlead, v, hv, hprev, ih hrest⟩

/-- Let the first record point back to `q`. -/
theorem Seg.set_prev_first {p first stop : Ptr} {xs : List Nat} {a : Nat} {v : α}
    (hs : Seg L h D p first (a :: xs) stop) (ha : a ∉ xs) (hv : h.cell a = some v)
    (q : Ptr) :
    Seg L (h.set a (some (L.setPrev q v))) D q first (a :: xs) stop := by
  obtain ⟨hlead, w, hw, -, hrest⟩ := hs
  rw [hv] at hw
  cases hw
  refine ⟨hlead, L.setPrev q v, Heap.cell_set_self hv _, L.prev_setPrev q v, ?_⟩
  rw [L.next_setPrev]
  exact hrest.set_of_not_mem ha _

/-- Let the last record point on to `q`. -/
theorem Seg.set_next_last {p first stop q t : Ptr} {xs : List Nat} {a : Nat} {v : α}
    (hs : Seg L h D p first (xs ++ [a]) stop) (ha : a ∉ xs) (hv : h.cell a = some v)
    (hq : Leads D q t) :
    Seg L (h.set a (some (L.setNext q v))) D p first (xs ++ [a]) t := by
  obtain ⟨hpre, w, hw, hprev, -⟩ := seg_append.mp hs
  rw [hv] at hw
  cases hw
  refine seg_append.mpr ⟨hpre.set_of_not_mem ha _, L.setNext q v,
    Heap.cell_set_self hv _, ?_, ?_⟩
  · rw [L.prev_setNext, hprev]
  · rw [L.next_setNext]
    exact hq

/-- The records of a list have the links that their places in it give them. -/
theorem Seg.determined {p first first' stop : Ptr} {xs : List Nat}
    (hs : Seg L h (fun _ => False) p first xs stop)
    (hs' : Seg L h' (fun _ => False) p first' xs stop) :
    first' = first ∧ ∀ a ∈ xs, (h'.cell a).map (fun v => (L.next v, L.prev v))
      = (h.cell a).map fun v => (L.next v, L.prev v) := by
  induction xs generalizing p first first' with
  | nil => exact ⟨hs'.eq.trans hs.eq.symm, fun a ha => absurd ha List.not_mem_nil⟩
  | cons b xs ih =>
      obtain ⟨hlead, v, hv, hprev, hrest⟩ := hs
      obtain ⟨hlead', v', hv', hprev', hrest'⟩ := hs'
      obtain ⟨hnext, hlinks⟩ := ih hrest hrest'
      refine ⟨hlead'.eq.trans hlead.eq.symm, fun a ha => ?_⟩
      rcases List.mem_cons.mp ha with rfl | ha
      · rw [hv, hv', Option.map_some, Option.map_some, hnext, hprev, hprev']
      · exact hlinks a ha

/-- In a list that is right in both directions no pointer leads out of it. -/
theorem Seg.next_mem {p first : Ptr} {xs : List Nat}
    (hs : Seg L h (fun _ => False) p first xs none) {a b : Nat} {v : α} (ha : a ∈ xs)
    (hv : h.cell a = some v) (hnext : L.next v = some b) :
    b ∈ xs := by
  induction xs generalizing p first with
  | nil => exact absurd ha List.not_mem_nil
  | cons c xs ih =>
      obtain ⟨-, w, hw, -, hrest⟩ := hs
      rcases List.mem_cons.mp ha with rfl | ha
      · cases hv.symm.trans hw
        cases xs with
        | nil =>
            rw [hnext] at hrest
            cases Leads.eq hrest
        | cons d xs =>
            have hlead := hrest.1.eq
            rw [hnext] at hlead
            cases hlead
            simp
      · exact List.mem_cons_of_mem _ (ih hrest ha)

/-! ## Walking along a list -/

/-- A walk that returns has found the first hit, or has passed every record. -/
theorem Seg.chase_cases {p first : Ptr} {xs : List Nat}
    (hs : Seg L h D p first xs none) (hD : ∀ a, D a → h.cell a = none)
    {hit : α → Bool} {fuel : Nat} {r : Ptr}
    (hr : h.chase L.next hit fuel first = .ok r) :
    (r = none ∧ ∀ a ∈ xs, ∀ v, h.cell a = some v → hit v = false) ∨
      ∃ pre a post v, xs = pre ++ a :: post ∧ r = some a ∧ h.cell a = some v ∧
        hit v = true ∧
        ∀ b ∈ pre, ∀ w, h.cell b = some w → hit w = false := by
  have hastray : ∀ {a : Nat} {fuel : Nat}, D a →
      h.chase L.next hit fuel (some a) ≠ .ok r := by
    intro a fuel ha
    cases fuel with
    | zero => exact fun heq => by cases heq
    | succ fuel => simp [Heap.chase, hD a ha]
  induction xs generalizing p first fuel with
  | nil =>
      rcases hs with rfl | ⟨a, rfl, ha⟩
      · rw [Heap.chase] at hr
        exact Or.inl ⟨(Except.ok.inj hr).symm,
          fun a ha => absurd ha List.not_mem_nil⟩
      · exact absurd hr (hastray ha)
  | cons a xs ih =>
      obtain ⟨hlead, v, hv, -, hrest⟩ := hs
      rcases hlead with rfl | ⟨b, rfl, hb⟩
      · cases fuel with
        | zero => cases hr
        | succ fuel =>
            rw [Heap.chase, hv] at hr
            cases hhit : hit v with
            | true =>
                simp only [hhit, if_true] at hr
                exact Or.inr ⟨[], a, xs, v, rfl, (Except.ok.inj hr).symm, hv, hhit,
                  fun b hb => absurd hb List.not_mem_nil⟩
            | false =>
                simp only [hhit, if_false, Bool.false_eq_true] at hr
                have hskip : ∀ w, h.cell a = some w → hit w = false := by
                  intro w hw
                  rw [hv] at hw
                  cases hw
                  exact hhit
                rcases ih hrest hr with ⟨rfl, hnone⟩ | ⟨pre, c, post, w, rfl, rfl,
                  hw, hhit', hpre⟩
                · refine Or.inl ⟨rfl, fun b hb => ?_⟩
                  rcases List.mem_cons.mp hb with rfl | hb
                  · exact hskip
                  · exact hnone b hb
                · refine Or.inr ⟨a :: pre, c, post, w, rfl, rfl, hw, hhit',
                    fun b hb => ?_⟩
                  rcases List.mem_cons.mp hb with rfl | hb
                  · exact hskip
                  · exact hpre b hb
      · exact absurd hr (hastray hb)

/-- On a list that is right in both directions, the walk returns. -/
theorem Seg.chase_ok {p first : Ptr} {xs : List Nat}
    (hs : Seg L h (fun _ => False) p first xs none) (hit : α → Bool) {fuel : Nat}
    (hfuel : xs.length ≤ fuel) :
    ∃ r, h.chase L.next hit fuel first = .ok r := by
  induction xs generalizing p first fuel with
  | nil =>
      rw [Leads.eq hs]
      exact ⟨none, by rw [Heap.chase]⟩
  | cons a xs ih =>
      obtain ⟨hlead, v, hv, -, hrest⟩ := hs
      obtain ⟨fuel, rfl⟩ : ∃ k, fuel = k + 1 := ⟨fuel - 1, by simp at hfuel; omega⟩
      rw [hlead.eq, Heap.chase, hv]
      cases hhit : hit v with
      | true => exact ⟨some a, by simp [hhit]⟩
      | false =>
          obtain ⟨r, hr⟩ := ih hrest (by simpa using hfuel)
          exact ⟨r, by simp [hhit, hr]⟩

/-- The same walk from the last record back to the first. -/
theorem Seg.chase_back {first : Ptr} {xs : List Nat} {stop : Ptr}
    (hs : Seg L h D none first xs stop) (hit : α → Bool) {fuel : Nat}
    (hfuel : xs.length ≤ fuel) :
    (h.chase L.prev hit fuel (lastOf none xs) = .ok none ∧
        ∀ a ∈ xs, ∀ v, h.cell a = some v → hit v = false) ∨
      ∃ pre a post v, xs = pre ++ a :: post ∧
        h.chase L.prev hit fuel (lastOf none xs) = .ok (some a) ∧ h.cell a = some v ∧
        hit v = true ∧ ∀ b ∈ post, ∀ w, h.cell b = some w → hit w = false := by
  induction xs using List.reverseRecOn generalizing stop fuel with
  | nil =>
      exact Or.inl
        ⟨by rw [lastOf, Heap.chase], fun a ha => absurd ha List.not_mem_nil⟩
  | append_singleton xs a ih =>
      obtain ⟨hpre, v, hv, hprev, -⟩ := seg_append.mp hs
      rw [List.length_append, List.length_singleton] at hfuel
      obtain ⟨fuel, rfl⟩ : ∃ k, fuel = k + 1 := ⟨fuel - 1, by omega⟩
      rw [lastOf_append_singleton, Heap.chase, hv]
      cases hhit : hit v with
      | true =>
          exact Or.inr ⟨xs, a, [], v, rfl, by simp [hhit], hv, hhit,
            fun b hb => absurd hb List.not_mem_nil⟩
      | false =>
          have hskip : ∀ w, h.cell a = some w → hit w = false := by
            intro w hw
            rw [hv] at hw
            cases hw
            exact hhit
          simp only [hhit, if_false, Bool.false_eq_true, hprev]
          have hshort : xs.length ≤ fuel := by omega
          rcases ih hpre hshort with ⟨hr, hnone⟩ | ⟨pre, b, post, w, rfl, hr, hw,
            hhit', hpost⟩
          · refine Or.inl ⟨hr, fun b hb => ?_⟩
            rcases List.mem_append.mp hb with hb | hb
            · exact hnone b hb
            · rw [List.mem_singleton.mp hb]
              exact hskip
          · refine Or.inr ⟨pre, b, post ++ [a], w,
              by simp, hr, hw, hhit', fun c hc => ?_⟩
            rcases List.mem_append.mp hc with hc | hc
            · exact hpost c hc
            · rw [List.mem_singleton.mp hc]
              exact hskip

/-- From the last record backwards, everything up to the first one, which `q` is. -/
theorem Seg.trail_back {q first stop : Ptr} {xs : List Nat}
    (hs : Seg L h D q first xs stop) (hq : ∀ a ∈ xs, q ≠ some a) {fuel : Nat}
    (hfuel : xs.length ≤ fuel) :
    h.trail L.prev q fuel (lastOf q xs) = xs.reverse := by
  induction xs using List.reverseRecOn generalizing stop fuel with
  | nil =>
      cases fuel with
      | zero => rfl
      | succ fuel =>
          cases q with
          | none => rfl
          | some a => rw [lastOf, Heap.trail, if_pos rfl, List.reverse_nil]
  | append_singleton xs a ih =>
      obtain ⟨hpre, v, hv, hprev, -⟩ := seg_append.mp hs
      rw [List.length_append, List.length_singleton] at hfuel
      obtain ⟨fuel, rfl⟩ : ∃ k, fuel = k + 1 := ⟨fuel - 1, by omega⟩
      rw [lastOf_append_singleton, Heap.trail, if_neg (hq a (by simp)), hv,
        List.reverse_append]
      simp only [hprev, List.reverse_singleton, List.singleton_append]
      rw [ih hpre (fun b hb => hq b (List.mem_append_left _ hb)) (by omega)]

end Segments

/-! ## Putting a record in, taking one out -/

section Operations
variable {α : Type} (L : Links α)

/-- `if (first) first->prev = a;` -/
def attach (h : Heap α) (first : Ptr) (a : Nat) : Except Halt (Heap α) :=
  match first with
  | none => .ok h
  | some _ => h.modify first (L.setPrev (some a))

/-- `if (v->prev) v->prev->next = v->next;` -/
def detachPrev (h : Heap α) (v : α) : Except Halt (Heap α) :=
  match L.prev v with
  | none => .ok h
  | some _ => h.modify (L.prev v) (L.setNext (L.next v))

/-- `if (v->next) v->next->prev = v->prev;` -/
def detachNext (h : Heap α) (v : α) : Except Halt (Heap α) :=
  match L.next v with
  | none => .ok h
  | some _ => h.modify (L.next v) (L.setPrev (L.prev v))

def detach (h : Heap α) (v : α) : Except Halt (Heap α) := do
  let h ← detachPrev L h v
  detachNext L h v

/-- `v->next->prev = v->prev; v->prev->next = v->next;` for a record with
neighbours. -/
def unlink (h : Heap α) (v : α) : Except Halt (Heap α) := do
  let h ← h.modify (L.next v) (L.setPrev (L.prev v))
  h.modify (L.prev v) (L.setNext (L.next v))

/-- What the first pointer of the list becomes when `v` is taken out. -/
def detachFirst (v : α) (first : Ptr) : Ptr :=
  if L.prev v = none then L.next v else first

/-- What the last pointer of the list becomes when `v` is taken out. -/
def detachLast (v : α) (last : Ptr) : Ptr :=
  if L.next v = none then L.prev v else last

/-- `h'` has the records of `h`, up to their links, and outside
`xs` the same links too. -/
structure Relinked (h h' : Heap α) (xs : List Nat) : Prop where
  next : h'.next = h.next
  same : ∀ b, b ∉ xs → h'.cell b = h.cell b
  data : ∀ {γ : Type} (f : α → γ), (∀ q v, f (L.setNext q v) = f v) →
    (∀ q v, f (L.setPrev q v) = f v) →
    ∀ b, (h'.cell b).map f = (h.cell b).map f

variable {L} {h h' h'' : Heap α} {D : Nat → Prop} {xs ys : List Nat}

theorem Relinked.refl (h : Heap α) (xs : List Nat) : Relinked L h h xs :=
  ⟨rfl, fun _ _ => rfl, fun _ _ _ _ => rfl⟩

theorem Relinked.trans (h₁ : Relinked L h h' xs) (h₂ : Relinked L h' h'' xs) :
    Relinked L h h'' xs :=
  ⟨h₂.next.trans h₁.next, fun b hb => (h₂.same b hb).trans (h₁.same b hb),
    fun f hn hp b => (h₂.data f hn hp b).trans (h₁.data f hn hp b)⟩

theorem Relinked.mono (hr : Relinked L h h' xs) (hsub : ∀ b ∈ xs, b ∈ ys) :
    Relinked L h h' ys :=
  ⟨hr.next, fun b hb => hr.same b fun hmem => hb (hsub b hmem), hr.data⟩

/-- Relinking frees nothing and revives nothing. -/
theorem Relinked.dead (hr : Relinked L h h' xs) {b : Nat} (hb : h.Dead b) :
    h'.Dead b := by
  have hdata := hr.data (fun _ => ()) (fun _ _ => rfl) (fun _ _ => rfl) b
  rw [hb.2, Option.map_none, Option.map_eq_none_iff] at hdata
  exact ⟨by rw [hr.next]; exact hb.1, hdata⟩

theorem relinked_setNext {a : Nat} {v : α} (hv : h.cell a = some v) (q : Ptr) :
    Relinked L h (h.set a (some (L.setNext q v))) [a] :=
  ⟨rfl, fun _ hb => h.cell_set_ne (fun heq => hb (List.mem_singleton.mpr heq)) _,
    fun f hn _ b => Heap.map_cell_set f hv (hn q v) b⟩

theorem relinked_setPrev {a : Nat} {v : α} (hv : h.cell a = some v) (q : Ptr) :
    Relinked L h (h.set a (some (L.setPrev q v))) [a] :=
  ⟨rfl, fun _ hb => h.cell_set_ne (fun heq => hb (List.mem_singleton.mpr heq)) _,
    fun f _ hp b => Heap.map_cell_set f hv (hp q v) b⟩

theorem modify_setNext_relinked {p q : Ptr}
    (hm : h.modify p (L.setNext q) = .ok h') :
    ∃ xs, Relinked L h h' xs := by
  obtain ⟨a, v, -, hv, rfl⟩ := Heap.modify_ok.mp hm
  exact ⟨[a], relinked_setNext hv q⟩

theorem modify_setPrev_relinked {p q : Ptr}
    (hm : h.modify p (L.setPrev q) = .ok h') :
    ∃ xs, Relinked L h h' xs := by
  obtain ⟨a, v, -, hv, rfl⟩ := Heap.modify_ok.mp hm
  exact ⟨[a], relinked_setPrev hv q⟩

/-- Only the record that was the first changes. -/
theorem attach_relinked {first : Ptr} {a : Nat} (hr : attach L h first a = .ok h') :
    ∃ xs, Relinked L h h' xs ∧ ∀ b ∈ xs, first = some b := by
  cases first with
  | none =>
      cases hr
      exact ⟨[], Relinked.refl h [], fun b hb => absurd hb List.not_mem_nil⟩
  | some b =>
      have hr' : h.modify (some b) (L.setPrev (some a)) = .ok h' := hr
      obtain ⟨c, v, hc, hv, rfl⟩ := Heap.modify_ok.mp hr'
      cases hc
      exact ⟨[b], relinked_setPrev hv _,
        fun d hd => by rw [List.mem_singleton.mp hd]⟩

theorem detach_relinked {v : α} (hr : detach L h v = .ok h') :
    ∃ xs, Relinked L h h' xs := by
  obtain ⟨h₁, hprev, hnext⟩ := bind_ok.mp hr
  have hbefore : ∃ xs, Relinked L h h₁ xs := by
    rw [detachPrev] at hprev
    split at hprev
    · cases hprev
      exact ⟨[], Relinked.refl h []⟩
    · exact modify_setNext_relinked hprev
  have hafter : ∃ xs, Relinked L h₁ h' xs := by
    rw [detachNext] at hnext
    split at hnext
    · cases hnext
      exact ⟨[], Relinked.refl _ []⟩
    · exact modify_setPrev_relinked hnext
  obtain ⟨xs, hbefore⟩ := hbefore
  obtain ⟨ys, hafter⟩ := hafter
  exact ⟨xs ++ ys, (hbefore.mono fun b hb => List.mem_append_left _ hb).trans
    (hafter.mono fun b hb => List.mem_append_right _ hb)⟩

/-- A record with the list after it becomes the first. -/
theorem attach_spec {first : Ptr} {a : Nat} {v : α} (hs : DList L h first xs)
    (hnd : xs.Nodup) (ha : a ∉ xs) (hv : h.cell a = some v) (hprev : L.prev v = none)
    (hnext : L.next v = first) :
    ∃ h', attach L h first a = .ok h' ∧ DList L h' (some a) (a :: xs) ∧
      Relinked L h h' xs := by
  cases xs with
  | nil =>
      have hfirst : first = none := Leads.eq hs
      refine ⟨h,
        by rw [hfirst]; rfl, ⟨Leads.refl _ _, v, hv, hprev, ?_⟩, Relinked.refl h []⟩
      rw [hnext]
      exact hs
  | cons b xs =>
      have hfirst : first = some b := Leads.eq hs.1
      obtain ⟨-, w, hw, -, -⟩ := id hs
      obtain ⟨hbxs, -⟩ := List.nodup_cons.mp hnd
      have hne : a ≠ b := fun heq => ha (heq ▸ List.mem_cons_self)
      refine ⟨h.set b (some (L.setPrev (some a) w)), ?_,
        ⟨Leads.refl _ _, v, ?_, hprev, ?_⟩, ?_⟩
      · rw [hfirst]
        exact Heap.modify_some hw _
      · rw [Heap.cell_set_ne _ hne, hv]
      · rw [hnext]
        exact Seg.set_prev_first hs hbxs hw (some a)
      · exact (relinked_setPrev hw (some a)).mono fun c hc =>
          List.mem_cons.mpr (Or.inl (List.mem_singleton.mp hc))

/-- A record is put after the last one, whatever that one's pointer led to. -/
theorem append_spec {p first stop : Ptr} {zs : List Nat} {a t : Nat} {v vt : α}
    (hs : Seg L h D p first zs stop) (hnd : zs.Nodup) (ha : a ∉ zs) (hne : zs ≠ [])
    (ht : lastOf p zs = some t) (hvt : h.cell t = some vt) (hv : h.cell a = some v)
    (hnext : L.next v = none) (hprev : L.prev v = some t) :
    Seg L (h.set t (some (L.setNext (some a) vt))) D p first (zs ++ [a]) none := by
  obtain ⟨pre, hpre⟩ : ∃ pre, zs = pre ++ [t] := by
    rcases List.eq_nil_or_concat' zs with heq | ⟨pre, b, heq⟩
    · exact absurd heq hne
    · rw [heq, lastOf_append_singleton] at ht
      cases ht
      exact ⟨pre, heq⟩
  rw [hpre] at hs hnd ha ⊢
  have hta : a ≠ t := fun heq => ha (by simp [heq])
  have htpre : t ∉ pre :=
    fun hmem => (List.nodup_append.mp hnd).2.2 t hmem t (by simp) rfl
  have hset := hs.set_next_last htpre hvt (Leads.refl D (some a))
  refine seg_append.mpr ⟨hset, v, ?_, ?_, ?_⟩
  · rw [Heap.cell_set_ne _ hta]
    exact hv
  · rw [lastOf_append_singleton]
    exact hprev
  · exact Or.inl hnext

/-- The first half of `detach`: the records before `v` end where it pointed to. -/
theorem detach_before {first t : Ptr} {a : Nat} {v : α}
    (hs : Seg L h D none first xs (some a)) (hnd : xs.Nodup)
    (hprev : L.prev v = lastOf none xs) (ht : Leads D (L.next v) t)
    (hr : detachPrev L h v = .ok h') :
    Seg L h' D none (detachFirst L v first) xs t ∧ Relinked L h h' xs := by
  rcases List.eq_nil_or_concat' xs with rfl | ⟨pre, b, rfl⟩
  · rw [lastOf] at hprev
    rw [detachPrev, hprev] at hr
    cases hr
    rw [detachFirst, if_pos hprev]
    exact ⟨ht, Relinked.refl h []⟩
  · rw [lastOf_append_singleton] at hprev
    rw [detachPrev, hprev] at hr
    obtain ⟨c, w, hc, hw, rfl⟩ := Heap.modify_ok.mp hr
    cases hc
    have hb : b ∉ pre :=
      fun hmem => (List.nodup_append.mp hnd).2.2 b hmem b (by simp) rfl
    rw [detachFirst, if_neg (by simp [hprev])]
    exact ⟨hs.set_next_last hb hw ht, (relinked_setNext hw _).mono (by simp)⟩

/-- The second half: the records after `v` point back to what it pointed back to. -/
theorem detach_after {a : Nat} {v : α} (hs : Seg L h D (some a) (L.next v) ys none)
    (hnd : ys.Nodup) (hD : ∀ b, D b → h.cell b = none)
    (hr : detachNext L h v = .ok h') :
    Seg L h' D (L.prev v) (L.next v) ys none ∧ Relinked L h h' ys := by
  rw [detachNext] at hr
  have hastray : ∀ b, L.next v = some b → ¬ D b := by
    intro b hb hmem
    rw [hb] at hr
    obtain ⟨c, w, hc, hw, -⟩ := Heap.modify_ok.mp hr
    cases hc
    rw [hD b hmem] at hw
    cases hw
  cases ys with
  | nil =>
      have hnext : L.next v = none := by
        rcases hs with heq | ⟨b, hb, hmem⟩
        · exact heq
        · exact absurd hmem (hastray b hb)
      rw [hnext] at hr ⊢
      cases hr
      exact ⟨Leads.refl _ _, Relinked.refl h []⟩
  | cons c ys =>
      have hnext : L.next v = some c := by
        rcases hs.1 with heq | ⟨b, hb, hmem⟩
        · exact heq
        · exact absurd hmem (hastray b hb)
      rw [hnext] at hr
      obtain ⟨d, w, hd, hw, rfl⟩ := Heap.modify_ok.mp hr
      cases hd
      exact ⟨hs.set_prev_first (List.nodup_cons.mp hnd).1 hw _,
        (relinked_setPrev hw _).mono (by simp)⟩

/-- What `unlink` leaves: the records on both sides are linked with one another. -/
theorem unlink_cells {v : α} {p : Nat} (hprev : L.prev v = some p)
    (hapart : ∀ q, L.next v = some q → p ≠ q) (hr : unlink L h v = .ok h') :
    ∃ q u w, L.next v = some q ∧ h.cell p = some u ∧ h.cell q = some w ∧
      h'.cell p = some (L.setNext (some q) u) ∧
      h'.cell q = some (L.setPrev (some p) w) ∧
      ∀ d, d ≠ p → d ≠ q → h'.cell d = h.cell d := by
  obtain ⟨g, hsetPrev, hsetNext⟩ := bind_ok.mp hr
  obtain ⟨q, w, hnext, hw, hg⟩ := Heap.modify_ok.mp hsetPrev
  have hpq := hapart q hnext
  rw [hnext, hprev] at hsetNext
  rw [hprev] at hg
  obtain ⟨p', u, hp', hu, hh⟩ := Heap.modify_ok.mp hsetNext
  cases hp'
  rw [hg, Heap.cell_set_ne _ hpq] at hu
  refine ⟨q, u, w, hnext, hu, hw, ?_, ?_, fun d hdp hdq => ?_⟩
  · rw [hh, hg, Heap.cell_set_self ((Heap.cell_set_ne _ hpq _).trans hu)]
  · rw [hh, Heap.cell_set_ne _ (Ne.symm hpq), hg, Heap.cell_set_self hw]
  · rw [hh, Heap.cell_set_ne _ hdp, hg, Heap.cell_set_ne _ hdq]

/-- `unlink` finishes only for a record with one before it and one after it. -/
theorem unlink_spec {first : Ptr} {a : Nat} {v : α}
    (hs : Seg L h D none first (xs ++ a :: ys) none) (hnd : (xs ++ a :: ys).Nodup)
    (hv : h.cell a = some v) (hD : ∀ b, D b → h.cell b = none)
    (hr : unlink L h v = .ok h') :
    Seg L h' D none first (xs ++ ys) none ∧ Relinked L h h' (xs ++ ys) ∧
      ys ≠ [] := by
  obtain ⟨hpre, w, hw, hprev, hpost⟩ := seg_append.mp hs
  rw [hv] at hw
  cases hw
  obtain ⟨hxs, hays, hdisj⟩ := List.nodup_append.mp hnd
  have hys := (List.nodup_cons.mp hays).2
  obtain ⟨g, hg, hr⟩ := bind_ok.mp hr
  obtain ⟨c, w, hnext, hw, -⟩ := Heap.modify_ok.mp hg
  obtain ⟨d, u, hback, -, -⟩ := Heap.modify_ok.mp hr
  have hne : ys ≠ [] := by
    rintro rfl
    rcases hpost with heq | ⟨b, hb, hmem⟩
    · rw [heq] at hnext
      cases hnext
    · rw [hb] at hnext
      cases hnext
      rw [hD _ hmem] at hw
      cases hw
  have hg' : detachNext L h v = .ok g := by
    rw [detachNext, hnext]
    rw [hnext] at hg
    exact hg
  have hr' : detachPrev L g v = .ok h' := by
    rw [detachPrev, hback]
    rw [hback] at hr
    exact hr
  obtain ⟨hafter, hrel⟩ := detach_after hpost hys hD hg'
  have hpre' : Seg L g D none first xs (some a) := hpre.congr
    (fun b hb => hrel.same b fun hmem =>
      hdisj b hb b (List.mem_cons_of_mem _ hmem) rfl)
    fun _ hb => hb
  obtain ⟨hbefore, hrel'⟩ :=
    detach_before hpre' hxs hprev (Leads.refl D (L.next v)) hr'
  rw [detachFirst, if_neg (by rw [hback]; simp)] at hbefore
  have hafter' : Seg L h' D (L.prev v) (L.next v) ys none := hafter.congr
    (fun b hb => hrel'.same b fun hmem =>
      hdisj b hmem b (List.mem_cons_of_mem _ hb) rfl)
    fun _ hb => hb
  rw [hprev] at hafter'
  exact ⟨hbefore.join hafter', (hrel.mono (by simp +contextual)).trans
    (hrel'.mono (by simp +contextual)), hne⟩

/-- A record with one before it and one after it can be unlinked. -/
theorem unlink_ok {first : Ptr} {a b c : Nat} {v : α}
    (hs : DList L h first (xs ++ b :: a :: c :: ys))
    (hnd : (xs ++ b :: a :: c :: ys).Nodup) (hv : h.cell a = some v) :
    ∃ h', unlink L h v = .ok h' := by
  obtain ⟨-, u, hu, -, -, w, hw, hprev, hpost⟩ := seg_append.mp hs
  cases hv.symm.trans hw
  have hnext : L.next v = some c := hpost.1.eq
  obtain ⟨-, x, hx, -, -⟩ := hpost
  have hbc : b ≠ c := fun heq =>
    (List.nodup_cons.mp (List.nodup_append.mp hnd).2.1).1 (heq ▸ by simp)
  refine ⟨(h.set c (some (L.setPrev (some b) x))).set b
    (some (L.setNext (some c) u)), ?_⟩
  have hprev' : L.prev v = some b := hprev
  rw [unlink, hnext, hprev', Heap.modify_some hx, ok_bind]
  exact Heap.modify_some ((Heap.cell_set_ne _ hbc _).trans hu) _

/-- The record `a` taken out of the list, from either end or from the middle. -/
theorem detach_spec {first : Ptr} {a : Nat} {v : α}
    (hs : Seg L h D none first (xs ++ a :: ys) none) (hnd : (xs ++ a :: ys).Nodup)
    (hv : h.cell a = some v) (hD : ∀ b, D b → h.cell b = none)
    (hr : detach L h v = .ok h') :
    Seg L h' D none (detachFirst L v first) (xs ++ ys) none ∧
      Relinked L h h' (xs ++ ys) := by
  obtain ⟨hpre, w, hw, hprev, hpost⟩ := seg_append.mp hs
  rw [hv] at hw
  cases hw
  obtain ⟨hxs, hays, hdisj⟩ := List.nodup_append.mp hnd
  have hys := (List.nodup_cons.mp hays).2
  obtain ⟨g, hg, hr⟩ := bind_ok.mp hr
  obtain ⟨hbefore, hrel⟩ := detach_before hpre hxs hprev (Leads.refl D (L.next v)) hg
  have hpost' : Seg L g D (some a) (L.next v) ys none := hpost.congr
    (fun b hb => hrel.same b fun hmem =>
      hdisj b hmem b (List.mem_cons_of_mem _ hb) rfl)
    fun _ hb => hb
  have hDg : ∀ b, D b → g.cell b = none := by
    intro b hb
    rw [hrel.same b fun hmem => ?_, hD b hb]
    obtain ⟨w, hw⟩ := hpre.cell_of_mem hmem
    rw [hD b hb] at hw
    cases hw
  obtain ⟨hafter, hrel'⟩ := detach_after hpost' hys hDg hr
  have hbefore' : Seg L h' D none (detachFirst L v first) xs (L.next v) :=
    hbefore.congr
      (fun b hb => hrel'.same b fun hmem =>
        hdisj b hb b (List.mem_cons_of_mem _ hmem) rfl)
      fun _ hb => hb
  rw [hprev] at hafter
  exact ⟨hbefore'.join hafter, (hrel.mono (by simp +contextual)).trans
    (hrel'.mono (by simp +contextual))⟩

/-- On a list that is right in both directions `detach` has no fault. -/
theorem detach_ok {first : Ptr} {a : Nat} {v : α}
    (hs : DList L h first (xs ++ a :: ys)) (hnd : (xs ++ a :: ys).Nodup)
    (hv : h.cell a = some v) :
    ∃ h', detach L h v = .ok h' := by
  obtain ⟨hpre, w, hw, hprev, hpost⟩ := seg_append.mp hs
  rw [hv] at hw
  cases hw
  obtain ⟨g, hg⟩ : ∃ g, detachPrev L h v = .ok g := by
    rw [detachPrev]
    rcases List.eq_nil_or_concat' xs with rfl | ⟨pre, b, rfl⟩
    · rw [hprev]
      exact ⟨h, rfl⟩
    · rw [hprev, lastOf_append_singleton]
      obtain ⟨w, hw⟩ := hpre.cell_of_mem (a := b) (by simp)
      exact ⟨_, Heap.modify_some hw _⟩
  obtain ⟨hxs, hays, hdisj⟩ := List.nodup_append.mp hnd
  obtain ⟨-, hrel⟩ := detach_before hpre hxs hprev (Leads.refl _ (L.next v)) hg
  rw [detach, hg, ok_bind, detachNext]
  cases ys with
  | nil =>
      rw [show L.next v = none from Leads.eq hpost]
      exact ⟨g, rfl⟩
  | cons c ys =>
      obtain ⟨w, hw⟩ := hpost.cell_of_mem (a := c) List.mem_cons_self
      rw [show L.next v = some c from Leads.eq hpost.1]
      rw [← hrel.same c fun hmem => hdisj c hmem c (by simp) rfl] at hw
      exact ⟨_, Heap.modify_some hw _⟩

/-- The last pointer after a record is taken out. -/
theorem detachLast_eq {first : Ptr} {a : Nat} {v : α}
    (hs : DList L h first (xs ++ a :: ys)) (hv : h.cell a = some v) :
    detachLast L v (lastOf none (xs ++ a :: ys)) = lastOf none (xs ++ ys) := by
  obtain ⟨-, w, hw, hprev, hpost⟩ := seg_append.mp hs
  rw [hv] at hw
  cases hw
  cases ys with
  | nil => rw [detachLast, if_pos (Leads.eq hpost), hprev, List.append_nil]
  | cons b ys =>
      rw [detachLast, if_neg (by rw [hpost.1.eq]; simp), lastOf_append_cons,
        lastOf_append_cons]
      rfl

end Operations

/-! ## Lists linked one way -/

section Paths
variable {α : Type} {link : α → Ptr} {h h' : Heap α} {p : Ptr} {xs : List Nat}

/-- From `p` along `link` the records `xs` are met, and then `NULL`. -/
def Path (h : Heap α) (link : α → Ptr) : Ptr → List Nat → Prop
  | p, [] => p = none
  | p, a :: xs => p = some a ∧ ∃ v, h.cell a = some v ∧ Path h link (link v) xs

theorem Path.head (hp : Path h link p xs) : p = xs.head? := by
  cases xs with
  | nil => exact hp
  | cons a xs => exact hp.1

theorem Path.frame (hp : Path h link p xs)
    (hcell : ∀ a ∈ xs, (h'.cell a).map link = (h.cell a).map link) :
    Path h' link p xs := by
  induction xs generalizing p with
  | nil => exact hp
  | cons a xs ih =>
      obtain ⟨rfl, v, hv, hrest⟩ := hp
      have ha := hcell a List.mem_cons_self
      rw [hv, Option.map_some] at ha
      obtain ⟨v', hv', hlink⟩ := Option.map_eq_some_iff.mp ha
      refine ⟨rfl, v', hv', ?_⟩
      rw [hlink]
      exact ih hrest fun b hb => hcell b (List.mem_cons_of_mem _ hb)

theorem Path.determined {p' : Ptr} (hp : Path h link p xs)
    (hp' : Path h' link p' xs) :
    ∀ a ∈ xs, (h'.cell a).map link = (h.cell a).map link := by
  induction xs generalizing p p' with
  | nil => exact fun a ha => absurd ha List.not_mem_nil
  | cons b xs ih =>
      obtain ⟨-, v, hv, hrest⟩ := hp
      obtain ⟨-, v', hv', hrest'⟩ := hp'
      intro a ha
      rcases List.mem_cons.mp ha with rfl | ha
      · rw [hv, hv', Option.map_some, Option.map_some, hrest.head, hrest'.head]
      · exact ih hrest hrest' a ha

theorem Path.trail_eq (hp : Path h link p xs) {fuel : Nat}
    (hfuel : xs.length ≤ fuel) :
    h.trail link none fuel p = xs := by
  induction xs generalizing p fuel with
  | nil =>
      rw [show p = none from hp]
      cases fuel with
      | zero => rfl
      | succ fuel => rfl
  | cons a xs ih =>
      obtain ⟨rfl, v, hv, hrest⟩ := hp
      obtain ⟨fuel, rfl⟩ : ∃ k, fuel = k + 1 := ⟨fuel - 1, by simp at hfuel; omega⟩
      rw [Heap.trail, if_neg (by simp), hv]
      simp only [ih hrest (by simpa using hfuel)]

/-- Forwards, a list that is right in both directions is linked one way. -/
theorem Seg.path {L : Links α} {q : Ptr}
    (hs : Seg L h (fun _ => False) q p xs none) :
    Path h L.next p xs := by
  induction xs generalizing p q with
  | nil => exact Leads.eq hs
  | cons a xs ih =>
      obtain ⟨hlead, v, hv, -, hrest⟩ := hs
      exact ⟨hlead.eq, v, hv, ih hrest⟩

end Paths

end Pyramid
