/-
# `Pyramid.Connections` — clients and their connections

What comes in on a connection is taken to come from the client that is found for
its descriptor.  Where every client in the table is found so (`Known`), it comes
from the right one; and that stays so if only those descriptors join that no
client has.
-/
import Pyramid.Deliveries
import Pyramid.Server

namespace Pyramid

namespace Registry

/-- The client at `a` has the descriptor `fd`. -/
def At (reg : Registry) (a : Nat) (fd : Int) : Prop :=
  (reg.infos.cell a).map (·.cfd) = some fd

/-- Every client is the one that is found for its descriptor. -/
def Known (reg : Registry) : Prop :=
  ∀ a fd, reg.At a fd → serverSearchClientFd reg (serverGetClientInfoHead fd) fd =
    .ok (some a)

section
variable {reg reg' : Registry} {member chain bucket : Nat → List Nat} {a a' : Nat}
  {fd fd' cfd : Int}

theorem at_cell : reg.At a fd ↔ ∃ v, reg.infos.cell a = some v ∧ v.cfd = fd :=
  Option.map_eq_some_iff

theorem At.unique (h : reg.At a fd) (h' : reg.At a fd') : fd = fd' :=
  Option.some.inj (h.symm.trans h')

/-- Whoever is found is there. -/
theorem WellFormed.found (h : reg.WellFormed)
    (hfound : serverSearchClientFd reg (serverGetClientInfoHead fd) fd
      = .ok (some a)) : reg.At a fd := by
  obtain ⟨member, chain, bucket, hok⟩ := h
  rcases hok.search (serverGetClientInfoHead fd) fd with
    ⟨hnone, -⟩ | ⟨_, c, _, v, -, hsome, hv, hcfd, -⟩
  · cases hnone.symm.trans hfound
  · cases hsome.symm.trans hfound
    exact at_cell.mpr ⟨v, hv, hcfd⟩

theorem Known.eq (h : reg.Known) (ha : reg.At a fd) (ha' : reg.At a' fd) :
    a = a' := by
  have hsame := (h a fd ha).symm.trans (h a' fd ha')
  cases hsame
  rfl

theorem Known.mem_bucket (h : reg.Known) (hok : reg.Ok member chain bucket)
    (ha : reg.At a fd) :
    a ∈ bucket (getHash fd) := by
  rcases hok.search (serverGetClientInfoHead fd) fd with
    ⟨hnone, -⟩ | ⟨pre, c, post, v, hsplit, hsome, -⟩
  · cases hnone.symm.trans (h a fd ha)
  · cases hsome.symm.trans (h a fd ha)
    rw [← serverGetClientInfoHead, hsplit]
    exact List.mem_append_right _ List.mem_cons_self

/-- A client of its own for every descriptor, in its bucket, is what is needed. -/
theorem Ok.known (hok : reg.Ok member chain bucket)
    (hbucket : ∀ a fd, reg.At a fd → a ∈ bucket (getHash fd))
    (hone : ∀ a a' fd, reg.At a fd → reg.At a' fd → a = a') : reg.Known := by
  intro a fd ha
  obtain ⟨v, hv, hcfd⟩ := at_cell.mp ha
  rcases hok.search (serverGetClientInfoHead fd) fd with
    ⟨-, hnone⟩ | ⟨_, c, _, w, -, hsome, hw, hcfd', -⟩
  · exact absurd hcfd (hnone a (hbucket a fd ha) v hv)
  · rw [hsome, hone c a fd (at_cell.mpr ⟨w, hw, hcfd'⟩) ha]

/-! ## Clients come and go -/

theorem at_same (h : SameClients reg reg') : reg'.At a fd ↔ reg.At a fd := by
  have hcell := congrArg (Option.map fun v : ClientInfo => v.cfd) (h.infos a)
  rw [Option.map_map, Option.map_map] at hcell
  exact iff_of_eq (congrArg (· = some fd) hcell)

theorem at_kept {c : Nat} (h : KeepsInfos reg.infos reg'.infos c) (ha : a ≠ c) :
    reg'.At a fd ↔ reg.At a fd := by
  have hcell := congrArg (Option.map fun v : ClientInfo => v.cfd) (h a ha)
  rw [Option.map_map, Option.map_map] at hcell
  exact iff_of_eq (congrArg (· = some fd) hcell)

theorem Known.same (h : reg.Known) (hsame : SameClients reg reg') : reg'.Known := by
  intro a fd ha
  rw [hsame.search]
  exact h a fd ((at_same hsame).mp ha)

/-- A descriptor joins that no client has: there is one client more, or none. -/
theorem Known.join (h : reg.Known) (hok : reg.WellFormed)
    (hnew : ∀ a, ¬ reg.At a cfd) {supply : Supply} {sa : SockAddr}
    {gids : List Nat} {p : Bool}
    (hr : serverAddOneClientFd supply reg (some (serverGetClientInfoHead cfd)) cfd sa
      gids = .ok (p, reg')) :
    reg'.Known ∧ ∃ c, reg.infos.cell c = none ∧
      (∀ a fd, reg.At a fd → reg'.At a fd) ∧
      ∀ a fd, reg'.At a fd → reg.At a fd ∨ (a = c ∧ fd = cfd) := by
  obtain ⟨member, chain, bucket, hok⟩ := hok
  have hfresh : reg.infos.cell reg.infos.next = none :=
    reg.infos.fresh _ (Nat.le_refl _)
  rcases serverAddOneClientFd_spec supply hok cfd sa gids with
    ⟨reg₁, ⟨-, hrun, rfl⟩ | ⟨hrun, ⟨⟨⟨member', hok'⟩, hcell⟩, -⟩ | ⟨ys, v, hadded⟩⟩⟩
  · cases hr.symm.trans hrun
    exact ⟨h, _, hfresh, fun _ _ ha => ha, fun _ _ ha => Or.inl ha⟩
  · cases hr.symm.trans hrun
    have hat : ∀ a fd, reg'.At a fd ↔ reg.At a fd := fun a fd =>
      iff_of_eq (congrArg (fun o : Option ClientInfo => o.map (·.cfd)
        = some fd) (hcell a))
    refine ⟨hok'.known (fun a fd ha => h.mem_bucket hok ((hat a fd).mp ha))
      fun a a' fd ha ha' => ?_, _, hfresh, fun a fd => (hat a fd).mpr,
      fun a fd ha => Or.inl ((hat a fd).mp ha)⟩
    exact h.eq ((hat a fd).mp ha) ((hat a' fd).mp ha')
  · cases hr.symm.trans hrun
    obtain ⟨member', hok'⟩ := hadded.ok
    have hlast : ∀ fd, reg'.At reg.infos.next fd → fd = cfd := by
      intro fd ha
      exact ha.unique (at_cell.mpr ⟨v, hadded.cell, hadded.fd⟩)
    have hcases : ∀ a fd, reg'.At a fd →
        reg.At a fd ∨ (a = reg.infos.next ∧ fd = cfd) := by
      intro a fd ha
      by_cases hac : a = reg.infos.next
      · exact Or.inr ⟨hac, hlast fd (hac ▸ ha)⟩
      · exact Or.inl ((at_kept hadded.others hac).mp ha)
    refine ⟨hok'.known (fun a fd ha => ?_) fun a a' fd ha ha' => ?_, _, hfresh,
      fun a fd ha => ?_, hcases⟩
    · rcases hcases a fd ha with hold | ⟨rfl, rfl⟩
      · have hmem := h.mem_bucket hok hold
        by_cases hhash : getHash fd = getHash cfd
        · rw [hhash] at hmem ⊢
          rw [put_self]
          exact List.mem_cons_of_mem _ hmem
        · rw [put_ne _ hhash]
          exact hmem
      · rw [put_self]
        exact List.mem_cons_self
    · rcases hcases a fd ha with hold | ⟨rfl, rfl⟩
      · rcases hcases a' fd ha' with hold' | ⟨-, rfl⟩
        · exact h.eq hold hold'
        · exact absurd hold (hnew a)
      · rcases hcases a' fd ha' with hold' | ⟨rfl, -⟩
        · exact absurd hold' (hnew a')
        · rfl
    · have hac : a ≠ reg.infos.next := by
        rintro rfl
        rw [At, hfresh] at ha
        cases ha
      exact (at_kept hadded.others hac).mpr ha

/-- The client of a descriptor leaves: the others stay. -/
theorem Known.leave (h : reg.Known) (hok : reg.WellFormed) {p : Bool}
    (hr : serverDelOneClientFd reg (some (serverGetClientInfoHead cfd)) cfd
      = .ok (p, reg')) :
    reg'.Known ∧ ∀ a fd, reg'.At a fd ↔ reg.At a fd ∧ fd ≠ cfd := by
  obtain ⟨member, chain, bucket, hok⟩ := hok
  rcases serverDelOneClientFd_spec hok cfd with
    ⟨hrun, hnone⟩ | ⟨reg₁, c, v, hrun, hremoved⟩
  · cases hr.symm.trans hrun
    refine ⟨h, fun a fd => ⟨fun ha => ⟨ha, ?_⟩, fun ha => ha.1⟩⟩
    rintro rfl
    obtain ⟨w, hw, hcfd⟩ := at_cell.mp ha
    exact hnone a (h.mem_bucket hok ha) w hw hcfd
  · cases hr.symm.trans hrun
    obtain ⟨member', hok'⟩ := hremoved.ok
    have hc : reg.At c cfd := at_cell.mpr ⟨v, hremoved.cell, hremoved.fd⟩
    have hgone : ∀ fd, ¬ reg'.At c fd := by
      intro fd ha
      rw [At, hremoved.gone] at ha
      cases ha
    have hat : ∀ a fd, reg'.At a fd ↔ reg.At a fd ∧ fd ≠ cfd := by
      intro a fd
      by_cases hac : a = c
      · rw [hac]
        exact iff_of_false (hgone fd) fun ha => ha.2 (ha.1.unique hc)
      · rw [at_kept hremoved.others hac]
        exact ⟨fun ha => ⟨ha, fun hfd => hac (h.eq (hfd ▸ ha) hc)⟩, fun ha => ha.1⟩
    refine ⟨hok'.known (fun a fd ha => ?_) fun a a' fd ha ha' => ?_, hat⟩
    · have hmem := h.mem_bucket hok ((hat a fd).mp ha).1
      have hac : a ≠ c := by
        rintro rfl
        exact hgone fd ha
      by_cases hhash : getHash fd = getHash cfd
      · rw [hhash] at hmem ⊢
        rw [put_self]
        exact (List.mem_erase_of_ne hac).mpr hmem
      · rw [put_ne _ hhash]
        exact hmem
    · exact h.eq ((hat a fd).mp ha).1 ((hat a' fd).mp ha').1

end

end Registry

end Pyramid
