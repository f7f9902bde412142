/-
# `Pyramid.Memory.Backed` — records that are pointed at point back

`Backed` says of a whole heap what a list that is right in both directions says
of its records: whatever a record points on to is allocated, and points back to
it.  It names no list, so it is kept by what happens to one list whatever the
others are.  `P` picks out the records it is about; those that wait somewhere
else do not matter.  The record at `x`, if any, is left out.
-/
import Pyramid.Memory.Links

namespace Pyramid

section Backed
variable {α : Type} (L : Links α) (P : α → Prop)

def Backed (x : Ptr) (h : Heap α) : Prop :=
  ∀ a v n, some a ≠ x → h.cell a = some v → P v → L.next v = some n →
    ∃ w, h.cell n = some w ∧ P w ∧ L.prev w = some a

variable {L P} {x : Ptr} {h h' : Heap α}

namespace Backed

theorem empty : Backed L P none (Heap.empty : Heap α) := by
  intro a v n _ hv
  cases hv

theorem weaken (hb : Backed L P none h) (x : Ptr) : Backed L P x h :=
  fun a v n _ hv hp hn => hb a v n (fun heq => by cases heq) hv hp hn

/-- A record that leads nowhere need not be left out. -/
theorem of_next_none {a : Nat} {v : α} (hb : Backed L P (some a) h)
    (hv : h.cell a = some v) (hnext : L.next v = none) : Backed L P none h := by
  intro b w n _ hw hp hn
  by_cases hba : b = a
  · rw [hba] at hw
    cases hv.symm.trans hw
    rw [hnext] at hn
    cases hn
  · exact hb b w n (fun heq => hba (Option.some.inj heq)) hw hp hn

/-- Only records that `P` does not hold of are changed, given or freed. -/
theorem outside (hb : Backed L P x h)
    (hsame : ∀ a v, P v → (h'.cell a = some v ↔ h.cell a = some v)) :
    Backed L P x h' := by
  intro a v n ha hv hp hn
  obtain ⟨w, hw, hpw, hprev⟩ := hb a v n ha ((hsame a v hp).mp hv) hp hn
  exact ⟨w, (hsame n w hpw).mpr hw, hpw, hprev⟩

/-- A record gets new contents and keeps its links. -/
theorem set_data (hb : Backed L P x h) {a : Nat} {v w : α} (hv : h.cell a = some v)
    (hp : P w ↔ P v) (hnext : L.next w = L.next v) (hprev : L.prev w = L.prev v) :
    Backed L P x (h.set a (some w)) := by
  have hcell : ∀ b u, h.cell b = some u → ∃ u', (h.set a (some w)).cell b = some u'
      ∧ (P u' ↔ P u) ∧
      L.prev u' = L.prev u := by
    intro b u hu
    by_cases hba : b = a
    · rw [hba] at hu ⊢
      cases hv.symm.trans hu
      exact ⟨w, Heap.cell_set_self hv _, hp, hprev⟩
    · exact ⟨u, (Heap.cell_set_ne _ hba _).trans hu, Iff.rfl, rfl⟩
  intro b u n hbx hu hpu hn
  have hold : ∃ u₀, h.cell b = some u₀ ∧ P u₀ ∧ L.next u₀ = some n := by
    by_cases hba : b = a
    · rw [hba, Heap.cell_set_self hv] at hu
      cases hu
      exact ⟨v, hba ▸ hv, hp.mp hpu, hnext ▸ hn⟩
    · rw [Heap.cell_set_ne _ hba] at hu
      exact ⟨u, hu, hpu, hn⟩
  obtain ⟨u₀, hu₀, hpu₀, hn₀⟩ := hold
  obtain ⟨y, hy, hpy, hyprev⟩ := hb b u₀ n hbx hu₀ hpu₀ hn₀
  obtain ⟨y', hy', hpy', hyprev'⟩ := hcell n y hy
  exact ⟨y', hy', hpy'.mpr hpy, hyprev'.trans hyprev⟩

/-- A new record may lead anywhere. -/
theorem fresh (hb : Backed L P none h) {a : Nat} (ha : h.cell a = none)
    (hold : ∀ b, b ≠ a → h'.cell b = h.cell b) : Backed L P (some a) h' := by
  intro b v n hba hv hp hn
  have hne : b ≠ a := fun heq => hba (congrArg some heq)
  rw [hold b hne] at hv
  obtain ⟨w, hw, hpw, hprev⟩ := hb b v n (fun heq => by cases heq) hv hp hn
  have hna : n ≠ a := by
    rintro rfl
    cases ha.symm.trans hw
  exact ⟨w, (hold n hna).trans hw, hpw, hprev⟩

/-- A new record is put after the one at `t`, which may have led anywhere. -/
theorem append (hset : ∀ q v, P (L.setNext q v) ↔ P v) {a t : Nat} {v vt : α}
    (hb : Backed L P (some t) h) (ha : h.cell a = none)
    (hold : ∀ b, b ≠ a → h'.cell b = h.cell b) (hv : h'.cell a = some v) (hp : P v)
    (hnext : L.next v = none) (hprev : L.prev v = some t) (hta : t ≠ a)
    (hvt : h'.cell t = some vt) :
    Backed L P none (h'.set t (some (L.setNext (some a) vt))) := by
  intro b u n _ hu hpu hn
  by_cases hbt : b = t
  · rw [hbt] at hu ⊢
    rw [Heap.cell_set_self hvt] at hu
    cases hu
    rw [L.next_setNext] at hn
    cases hn
    exact ⟨v, (Heap.cell_set_ne _ hta.symm _).trans hv, hp, hprev⟩
  · rw [Heap.cell_set_ne _ hbt] at hu
    by_cases hba : b = a
    · rw [hba] at hu
      cases hv.symm.trans hu
      rw [hnext] at hn
      cases hn
    · rw [hold b hba] at hu
      obtain ⟨w, hw, hpw, hback⟩ :=
        hb b u n (fun heq => hbt (Option.some.inj heq)) hu hpu hn
      have hna : n ≠ a := by
        rintro rfl
        cases ha.symm.trans hw
      by_cases hnt : n = t
      · rw [hnt] at hw hna ⊢
        cases hvt.symm.trans ((hold t hna).trans hw)
        exact ⟨_, Heap.cell_set_self hvt _, (hset _ _).mpr hpw,
          (L.prev_setNext _ _).trans hback⟩
      · exact ⟨w, (Heap.cell_set_ne _ hnt _).trans ((hold n hna).trans hw),
          hpw, hback⟩

/-- The last record of a list is freed, and the one before it becomes the last. -/
theorem free_last (hset : ∀ q v, P (L.setNext q v) ↔ P v) (hb : Backed L P none h)
    {a p : Nat} {v w : α} (hv : h.cell a = some v) (hprev : L.prev v = some p)
    (hpa : p ≠ a) (hw : h.cell p = some w) :
    Backed L P none ((h.set p (some (L.setNext none w))).set a none) := by
  have hv' : (h.set p (some (L.setNext none w))).cell a = some v :=
    (Heap.cell_set_ne _ hpa.symm _).trans hv
  intro b u n _ hu hpu hn
  have hba : b ≠ a := by
    rintro rfl
    rw [Heap.cell_set_self hv'] at hu
    cases hu
  rw [Heap.cell_set_ne _ hba] at hu
  have hbp : b ≠ p := by
    rintro rfl
    rw [Heap.cell_set_self hw] at hu
    cases hu
    rw [L.next_setNext] at hn
    cases hn
  rw [Heap.cell_set_ne _ hbp] at hu
  obtain ⟨y, hy, hpy, hback⟩ := hb b u n (fun heq => by cases heq) hu hpu hn
  have hna : n ≠ a := by
    rintro rfl
    cases hv.symm.trans hy
    exact hbp (Option.some.inj (hback.symm.trans hprev))
  rw [Heap.cell_set_ne _ hna]
  by_cases hnp : n = p
  · rw [hnp] at hy ⊢
    cases hw.symm.trans hy
    exact ⟨_, Heap.cell_set_self hw _, (hset _ _).mpr hpy,
      (L.prev_setNext _ _).trans hback⟩
  · exact ⟨y, (Heap.cell_set_ne _ hnp _).trans hy, hpy, hback⟩

/-- A record between two others is taken out, and `P` no longer holds of it. -/
theorem unlink (hnextP : ∀ q v, P (L.setNext q v) ↔ P v)
    (hprevP : ∀ q v, P (L.setPrev q v) ↔ P v) (hb : Backed L P none h) {a p q : Nat}
    {v : α} (v' : α) (hv : h.cell a = some v) (hp : P v) (hprev : L.prev v = some p)
    (hnext : L.next v = some q) (hpa : p ≠ a) (hqa : q ≠ a) (hpq : p ≠ q)
    (hr : unlink L h v = .ok h') (hv' : ¬ P v') :
    Backed L P none (h'.set a (some v')) := by
  obtain ⟨q', vp, vq, hq', hvp, hvq, hlinkp, hlinkq, hsame⟩ :=
    unlink_cells hprev (fun n hn => Option.some.inj (hnext.symm.trans hn) ▸ hpq) hr
  cases hnext.symm.trans hq'
  have hva : h'.cell a = some v := (hsame a hpa.symm hqa.symm).trans hv
  have hcell : ∀ b, b ≠ a → b ≠ p → b ≠ q → (h'.set a (some v')).cell b = h.cell b :=
    fun b hba hbp hbq => (Heap.cell_set_ne _ hba _).trans (hsame b hbp hbq)
  have hcellp : (h'.set a (some v')).cell p = some (L.setNext (some q) vp) :=
    (Heap.cell_set_ne _ hpa _).trans hlinkp
  have hcellq : (h'.set a (some v')).cell q = some (L.setPrev (some p) vq) :=
    (Heap.cell_set_ne _ hqa _).trans hlinkq
  -- the record after the one that is taken out pointed back to it
  obtain ⟨y, hy, hpq', hqback⟩ := hb a v q (fun heq => by cases heq) hv hp hnext
  cases hvq.symm.trans hy
  intro b u n _ hu hpu hn
  have hba : b ≠ a := by
    rintro rfl
    rw [Heap.cell_set_self hva] at hu
    cases hu
    exact hv' hpu
  by_cases hbp : b = p
  · rw [hbp] at hu ⊢
    cases hcellp.symm.trans hu
    rw [L.next_setNext] at hn
    cases hn
    exact ⟨_, hcellq, (hprevP _ _).mpr hpq', L.prev_setPrev _ _⟩
  have hold : ∃ u₀, h.cell b = some u₀ ∧ P u₀ ∧ L.next u₀ = some n := by
    by_cases hbq : b = q
    · rw [hbq] at hu ⊢
      cases hcellq.symm.trans hu
      exact ⟨vq, hvq, (hprevP _ _).mp hpu, (L.next_setPrev _ _).symm.trans hn⟩
    · rw [hcell b hba hbp hbq] at hu
      exact ⟨u, hu, hpu, hn⟩
  obtain ⟨u₀, hu₀, hpu₀, hn₀⟩ := hold
  obtain ⟨z, hz, hpz, hback⟩ := hb b u₀ n (fun heq => by cases heq) hu₀ hpu₀ hn₀
  have hna : n ≠ a := by
    rintro rfl
    cases hv.symm.trans hz
    exact hbp (Option.some.inj (hback.symm.trans hprev))
  have hnq : n ≠ q := by
    rintro rfl
    cases hvq.symm.trans hz
    exact hba (Option.some.inj (hback.symm.trans hqback))
  by_cases hnp : n = p
  · rw [hnp] at hz ⊢
    cases hvp.symm.trans hz
    exact ⟨_, hcellp, (hnextP _ _).mpr hpz, (L.prev_setNext _ _).trans hback⟩
  · exact ⟨z, (hcell n hna hnp hnq).trans hz, hpz, hback⟩

end Backed

/-- In a heap like this a list leads nowhere else than it should. -/
theorem Seg.exact {p first stop : Ptr} {xs : List Nat} (hb : Backed L P none h)
    (hs : Seg L h h.Dead p first xs stop)
    (hP : ∀ a ∈ xs, ∀ v, h.cell a = some v → P v)
    (hfirst : ∀ a, first = some a → ∃ v, h.cell a = some v) :
    Seg L h (fun _ => False) p first xs stop := by
  have hlead : ∀ {q t : Ptr}, Leads h.Dead q t →
      (∀ a, q = some a → ∃ v, h.cell a = some v) →
      Leads (fun _ => False) q t := by
    intro q t hq halive
    rcases hq with heq | ⟨a, ha, hdead⟩
    · exact Or.inl heq
    · obtain ⟨v, hv⟩ := halive a ha
      exact absurd rfl (hdead.ne hv)
  induction xs generalizing p first with
  | nil => exact hlead hs hfirst
  | cons a xs ih =>
      obtain ⟨hl, v, hv, hprev, hrest⟩ := hs
      refine ⟨hlead hl hfirst, v, hv, hprev,
        ih hrest (fun b hb => hP b (List.mem_cons_of_mem _ hb)) ?_⟩
      intro n hn
      obtain ⟨w, hw, -⟩ :=
        hb a v n (fun heq => by cases heq) hv (hP a List.mem_cons_self v hv) hn
      exact ⟨w, hw⟩

/-- Two records that follow each other. -/
theorem Seg.neighbours {p first stop : Ptr} {xs ys : List Nat} {a b : Nat}
    (hs : Seg L h (fun _ => False) p first (xs ++ a :: b :: ys) stop) :
    ∃ v w, h.cell a = some v ∧ h.cell b = some w ∧ L.next v = some b ∧
      L.prev w = some a := by
  obtain ⟨-, v, hv, -, hlead, w, hw, hprev, -⟩ := seg_append.mp hs
  exact ⟨v, w, hv, hw, hlead.eq, hprev⟩

end Backed

/-! ## What can be reached -/

section Reaches
variable {α : Type}

/-- From `p` along `link` the address `a` is met, whether
there is a record or not. -/
inductive Reaches (h : Heap α) (link : α → Ptr) : Ptr → Nat → Prop
  | here (a : Nat) : Reaches h link (some a) a
  | next {b a : Nat} {v : α} (hv : h.cell b = some v)
      (hr : Reaches h link (link v) a) :
      Reaches h link (some b) a

variable {link : α → Ptr} {h : Heap α}

theorem Path.mem_of_reaches {p : Ptr} {xs : List Nat}
    (hp : Path h link p xs) {a : Nat} (hr : Reaches h link p a) : a ∈ xs := by
  induction hr generalizing xs with
  | here a =>
      cases xs with
      | nil => cases hp
      | cons b xs =>
          cases hp.1
          exact List.mem_cons_self
  | @next b a v hv _ ih =>
      cases xs with
      | nil => cases hp
      | cons c xs =>
          obtain ⟨heq, w, hw, hrest⟩ := hp
          cases heq
          cases hv.symm.trans hw
          exact List.mem_cons_of_mem _ (ih hrest)

/-- Backwards, every list is linked one way. -/
theorem Seg.path_back {L : Links α} {D : Nat → Prop} {p first stop : Ptr}
    {xs ys : List Nat} (hs : Seg L h D p first xs stop) (hp : Path h L.prev p ys) :
    Path h L.prev (lastOf p xs) (xs.reverse ++ ys) := by
  induction xs generalizing p first ys with
  | nil => exact hp
  | cons a xs ih =>
      obtain ⟨-, v, hv, hprev, hrest⟩ := hs
      have hnext : Path h L.prev (some a) (a :: ys) :=
        ⟨rfl, v, hv, by rw [hprev]; exact hp⟩
      have hall := ih hrest hnext
      rw [List.reverse_cons, List.append_assoc]
      exact hall

end Reaches

end Pyramid
