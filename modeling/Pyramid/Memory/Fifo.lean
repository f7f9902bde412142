/-
# `Pyramid.Memory.Fifo` — queues linked one way

A queue of records in a heap: `front` leads to the oldest record, every record
to the one that came after it, and `rear` is the newest.  Both are `NULL` when
the queue is empty.  `Fifo` says which records it holds, in order; a record is
put behind the newest (`Fifo.push_first`, `Fifo.push`) and taken from the front
(`Fifo.pop`), and whoever writes to other records does not disturb it
(`Fifo.frame`).
-/
import Pyramid.Memory.Links

namespace Pyramid

section Fifos
variable {α : Type} {link : α → Ptr} {h h' : Heap α} {front rear p : Ptr}
  {xs ys : List Nat} {a r : Nat}
variable {v w : α}

theorem Path.unique (hx : Path h link p xs) (hy : Path h link p ys) : xs = ys := by
  induction xs generalizing p ys with
  | nil =>
      cases ys with
      | nil => rfl
      | cons b ys => exact absurd (hx.symm.trans hy.1) (by simp)
  | cons a xs ih =>
      obtain ⟨rfl, v, hv, hrest⟩ := hx
      cases ys with
      | nil => exact absurd hy (by simp [Path])
      | cons b ys =>
          obtain ⟨hab, w, hw, hrest'⟩ := hy
          cases hab
          cases hv.symm.trans hw
          rw [ih hrest hrest']

theorem Path.cell_of_mem (hx : Path h link p xs) (ha : a ∈ xs) :
    ∃ v, h.cell a = some v := by
  induction xs generalizing p with
  | nil => exact absurd ha List.not_mem_nil
  | cons b xs ih =>
      obtain ⟨-, v, hv, hrest⟩ := hx
      rcases List.mem_cons.mp ha with rfl | ha
      · exact ⟨v, hv⟩
      · exact ih hrest ha

theorem Path.of_mem (hx : Path h link p xs) (ha : a ∈ xs) :
    ∃ pre post, xs = pre ++ a :: post ∧ Path h link (some a) (a :: post) := by
  induction xs generalizing p with
  | nil => exact absurd ha List.not_mem_nil
  | cons b xs ih =>
      obtain ⟨rfl, v, hv, hrest⟩ := hx
      rcases List.mem_cons.mp ha with rfl | ha
      · exact ⟨[], xs, rfl, rfl, v, hv, hrest⟩
      · obtain ⟨pre, post, rfl, hpath⟩ := ih hrest ha
        exact ⟨b :: pre, post, rfl, hpath⟩

/-- Links that end do not come back to a record. -/
theorem Path.nodup (hx : Path h link p xs) : xs.Nodup := by
  induction xs generalizing p with
  | nil => exact List.nodup_nil
  | cons a xs ih =>
      obtain ⟨rfl, v, hv, hrest⟩ := hx
      refine List.nodup_cons.mpr ⟨fun ha => ?_, ih hrest⟩
      obtain ⟨pre, post, hsplit, hpath⟩ := hrest.of_mem ha
      have heq : a :: xs = a :: post := Path.unique ⟨rfl, v, hv, hrest⟩ hpath
      have hlen := congrArg List.length (hsplit.symm.trans (List.cons.inj heq).2)
      simp only [List.length_append, List.length_cons] at hlen
      omega

/-- The last record of a path is made to lead on to a new last one. -/
theorem Path.extend (hx : Path h link p (xs ++ [r])) (ha : h.cell a = some v)
    (hv : link v = none) (hfresh : a ∉ xs ++ [r]) (hw : link w = some a) :
    Path (h.set r (some w)) link p (xs ++ [r, a]) := by
  induction xs generalizing p with
  | nil =>
      obtain ⟨rfl, u, hu, -⟩ := hx
      have hne : a ≠ r := fun heq => hfresh (by simp [heq])
      refine ⟨rfl, w, Heap.cell_set_self hu _, hw, v, ?_, hv⟩
      rw [Heap.cell_set_ne h hne, ha]
  | cons b xs ih =>
      have hnd := hx.nodup
      obtain ⟨rfl, u, hu, hrest⟩ := hx
      have hne : b ≠ r := by
        rintro rfl
        exact (List.nodup_cons.mp hnd).1 (by simp)
      refine ⟨rfl, u, ?_, ih hrest fun hmem => hfresh (List.mem_cons_of_mem _ hmem)⟩
      rw [Heap.cell_set_ne h hne, hu]

/-- The records of a queue, the oldest first. -/
structure Fifo (h : Heap α) (link : α → Ptr) (front rear : Ptr)
    (xs : List Nat) : Prop where
  path : Path h link front xs
  rear : rear = xs.getLast?

theorem Fifo.empty (h : Heap α) (link : α → Ptr) : Fifo h link none none [] :=
  ⟨rfl, rfl⟩

theorem Fifo.frame (hq : Fifo h link front rear xs)
    (hcell : ∀ a ∈ xs, (h'.cell a).map link = (h.cell a).map link) :
    Fifo h' link front rear xs :=
  ⟨hq.path.frame hcell, hq.rear⟩

theorem Fifo.push_first (ha : h.cell a = some v) (hv : link v = none) :
    Fifo h link (some a) (some a) [a] :=
  ⟨⟨rfl, v, ha, hv⟩, rfl⟩

theorem Fifo.push (hq : Fifo h link front (some r) xs) (ha : h.cell a = some v)
    (hv : link v = none) (hfresh : a ∉ xs) (hw : link w = some a) :
    Fifo (h.set r (some w)) link front (some a) (xs ++ [a]) := by
  obtain ⟨ys, rfl⟩ := List.getLast?_eq_some_iff.mp hq.rear.symm
  refine ⟨?_, by rw [List.getLast?_concat]⟩
  rw [List.append_assoc]
  exact hq.path.extend ha hv hfresh hw

theorem Fifo.pop {b : Nat} (hq : Fifo h link front rear (a :: b :: xs))
    (ha : h.cell a = some v) :
    Fifo h link (link v) rear (b :: xs) := by
  obtain ⟨⟨rfl, u, hu, hrest⟩, hrear⟩ := hq
  cases hu.symm.trans ha
  exact ⟨hrest, hrear.trans List.getLast?_cons_cons⟩

end Fifos

end Pyramid
