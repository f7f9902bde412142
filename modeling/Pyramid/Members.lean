/-
# `Pyramid.Members` — who is in a group

The members of a group are read off its list, and the group a client joined
last off the client.  What a `client_group` is for is written once, when it is
linked in: `KeepsTags` says so of every function that changes the registry.
So a client stays in its groups until it leaves, whoever comes and goes.
-/
import Pyramid.Roster
import Pyramid.Server

namespace Pyramid

namespace Registry

/-- The clients met from `p` on along the list of a group. -/
def walked (reg : Registry) (fuel : Nat) (p : Ptr) : List Nat :=
  (reg.groups.trail (·.n) none fuel p).filterMap fun a =>
    (reg.groups.cell a).bind (·.ci)

/-- The clients in a group, newest first. -/
def clientsIn (reg : Registry) (gid : Nat) : List Nat :=
  match serverGetClientGidHead gid with
  | none => []
  | some cgh => reg.walked reg.groups.next (reg.multicastGroups cgh).h

/-- The group that comes first in the client's chain. -/
def lastJoined (reg : Registry) (c : Nat) : Option Nat :=
  (reg.infos.cell c).bind fun v => v.cg.bind fun a => (reg.groups.cell a).map (·.gid)

end Registry

theorem Registry.walked_cons {reg : Registry} {fuel cg d : Nat} {v : ClientGroup}
    (hv : reg.groups.cell cg = some v) (hd : v.ci = some d) :
    reg.walked (fuel + 1) (some cg) = d :: reg.walked fuel v.n := by
  have htrail : reg.groups.trail (·.n) none (fuel + 1) (some cg)
      = cg :: reg.groups.trail (·.n) none fuel v.n := by
    rw [Heap.trail, if_neg (by simp), hv]
  rw [Registry.walked, htrail, List.filterMap_cons, hv, Option.bind_some, hd]
  rfl

theorem SameClients.walked {reg reg' : Registry} (h : SameClients reg reg')
    (fuel : Nat) (p : Ptr) :
    reg'.walked fuel p = reg.walked fuel p := by
  unfold Registry.walked
  rw [h.groups]

theorem SameClients.clientsIn {reg reg' : Registry} (h : SameClients reg reg')
    (gid : Nat) :
    reg'.clientsIn gid = reg.clientsIn gid := by
  unfold Registry.clientsIn
  rw [h.multicastGroups, h.groups]
  simp only [h.walked]

/-- A client is in a group exactly when one of its nodes is for it. -/
theorem Registry.Ok.mem_clientsIn {reg : Registry}
    {member chain bucket : Nat → List Nat} (hok : reg.Ok member chain bucket)
    {gid c : Nat} :
    c ∈ reg.clientsIn gid ↔ ∃ x ∈ chain c, Tagged reg.groups x c gid := by
  constructor
  · intro hmem
    unfold Registry.clientsIn at hmem
    cases hg : serverGetClientGidHead gid with
    | none =>
        simp only [hg] at hmem
        exact absurd hmem List.not_mem_nil
    | some g =>
        simp only [hg] at hmem
        obtain ⟨rfl, -⟩ := serverGetClientGidHead_eq.mp hg
        have hlist := hok.groups.list g
        have htrail := hlist.path.trail_eq (hlist.length_le (hok.groups.nodup g))
        obtain ⟨x, hx, hci⟩ := List.mem_filterMap.mp hmem
        have hx' : x ∈ member g := htrail ▸ hx
        obtain ⟨c', ⟨v, hv, hc', hgid⟩, hchain⟩ := hok.groups.owned g x hx'
        rw [hv, Option.bind_some, hc'] at hci
        cases hci
        exact ⟨x, hchain, v, hv, hc', hgid⟩
  · rintro ⟨x, hx, htag⟩
    obtain ⟨g, hg, htag', hmem⟩ := hok.groups.placed c x hx
    obtain rfl := (htag.unique htag').2
    obtain ⟨v, hv, hci, -⟩ := htag
    have hlist := hok.groups.list g
    have htrail := hlist.path.trail_eq (hlist.length_le (hok.groups.nodup g))
    have hhead : serverGetClientGidHead (g + 1) = some g :=
      serverGetClientGidHead_eq.mpr ⟨rfl, hg⟩
    unfold Registry.clientsIn
    rw [hhead]
    refine List.mem_filterMap.mpr ⟨x, ?_, by rw [hv, Option.bind_some, hci]⟩
    exact htrail ▸ hmem

/-! ## What a node is for -/

/-- The nodes of `gs` that are still there are for the same client and group. -/
def KeepsTags (gs gs' : Heap ClientGroup) : Prop :=
  gs.next ≤ gs'.next ∧ ∀ x, x < gs.next → ∀ c gid, Tagged gs' x c gid →
    Tagged gs x c gid

namespace KeepsTags

variable {gs gs' gs'' : Heap ClientGroup}

theorem refl (gs : Heap ClientGroup) : KeepsTags gs gs :=
  ⟨Nat.le_refl _, fun _ _ _ _ htag => htag⟩

theorem trans (h : KeepsTags gs gs') (h' : KeepsTags gs' gs'') : KeepsTags gs gs'' :=
  ⟨Nat.le_trans h.1 h'.1, fun x hx c gid htag =>
    h.2 x hx c gid (h'.2 x (Nat.lt_of_lt_of_le hx h.1) c gid htag)⟩

theorem grow (gs : Heap ClientGroup) (o : Option ClientGroup) :
    KeepsTags gs (gs.grow o) := by
  refine ⟨Nat.le_succ _, fun x hx c gid htag => ?_⟩
  obtain ⟨v, hv, htag⟩ := htag
  rw [Heap.cell_grow_ne _ (Nat.ne_of_lt hx)] at hv
  exact ⟨v, hv, htag⟩

theorem relinked {xs : List Nat} (hr : Relinked groupLinks gs gs' xs) :
    KeepsTags gs gs' := by
  refine ⟨Nat.le_of_eq hr.next.symm, fun x _ c gid htag => htag.of_map ?_⟩
  exact (hr.data (fun v => (v.ci, v.gid)) (fun _ _ => rfl) (fun _ _ => rfl) x).symm

theorem free {a : Nat} (hr : gs.free (some a) = .ok gs') : KeepsTags gs gs' := by
  obtain ⟨w, hw, rfl⟩ := Heap.free_ok.mp hr
  refine ⟨Nat.le_refl _, fun x _ c gid htag => ?_⟩
  obtain ⟨v, hv, htag⟩ := htag
  by_cases hxa : x = a
  · rw [hxa, Heap.cell_set_self hw] at hv
    cases hv
  · rw [Heap.cell_set_ne _ hxa] at hv
    exact ⟨v, hv, htag⟩

/-- A node that has just been allocated is filled in. -/
theorem fill (o : Option ClientGroup) {f : ClientGroup → ClientGroup}
    (hr : (gs.grow o).modify (some gs.next) f = .ok gs') : KeepsTags gs gs' := by
  obtain ⟨a, w, ha, -, rfl⟩ := Heap.modify_ok.mp hr
  cases ha
  refine ⟨Nat.le_succ _, fun x hx c gid htag => (grow gs o).2 x hx c gid ?_⟩
  obtain ⟨v, hv, htag⟩ := htag
  rw [Heap.cell_set_ne _ (Nat.ne_of_lt hx)] at hv
  exact ⟨v, hv, htag⟩

end KeepsTags

section Tags
variable {reg reg' : Registry}

theorem leaveGroup_tags {me : Nat} {v : ClientGroup}
    (hr : leaveGroup reg me v = .ok reg') :
    KeepsTags reg.groups reg'.groups := by
  obtain ⟨gs, hdetach, hr⟩ := bind_ok.mp hr
  obtain ⟨xs, hrelinked⟩ := detach_relinked hdetach
  cases hg : serverGetClientGidHead v.gid with
  | none =>
      simp only [hg] at hr
      cases hr
  | some g =>
      simp only [hg] at hr
      obtain ⟨gs', hfree, hr⟩ := bind_ok.mp hr
      cases hr
      exact (KeepsTags.relinked hrelinked).trans (KeepsTags.free hfree)

theorem serverDelClientFromGroups_tags :
    ∀ {fuel : Nat} {p : Ptr} {reg : Registry}, serverDelClientFromGroups fuel p reg
      = .ok reg' →
      KeepsTags reg.groups reg'.groups := by
  intro fuel
  induction fuel with
  | zero =>
      intro p reg hr
      cases p with
      | none =>
          cases hr
          exact KeepsTags.refl _
      | some me => cases hr
  | succ fuel ih =>
      intro p reg hr
      cases p with
      | none =>
          cases hr
          exact KeepsTags.refl _
      | some me =>
          obtain ⟨v, -, hr⟩ := bind_ok.mp hr
          obtain ⟨reg₁, hleave, hr⟩ := bind_ok.mp hr
          exact (leaveGroup_tags hleave).trans (ih hr)

theorem serverDelOneClientFd_tags {cih : Option Nat} {cfd : Int} {p : Bool}
    (hr : serverDelOneClientFd reg cih cfd = .ok (p, reg')) :
    KeepsTags reg.groups reg'.groups := by
  cases cih with
  | none =>
      cases hr
      exact KeepsTags.refl _
  | some cih =>
      obtain ⟨found, -, hr⟩ := bind_ok.mp hr
      cases found with
      | none =>
          cases hr
          exact KeepsTags.refl _
      | some ci =>
          obtain ⟨v, -, hr⟩ := bind_ok.mp hr
          obtain ⟨reg₁, hdel, hr⟩ := bind_ok.mp hr
          have htags := serverDelClientFromGroups_tags hdel
          obtain ⟨infos, -, hr⟩ := bind_ok.mp hr
          obtain ⟨infos', -, hr⟩ := bind_ok.mp hr
          cases hr
          exact htags

variable {supply : Supply}

theorem serverAddClientToOneGroup_tags {ci gid : Nat} {cg cgt : Ptr}
    (hr : serverAddClientToOneGroup supply ci gid cg reg = .ok (cgt, reg')) :
    KeepsTags reg.groups reg'.groups := by
  have hgrow : ∀ o, KeepsTags reg.groups (reg.groups.grow o) := KeepsTags.grow _
  rcases reg.groups.malloc_cases supply.group with hm | ⟨w, -, hm⟩
  · simp only [serverAddClientToOneGroup, hm] at hr
    cases hr
    exact hgrow _
  · cases hg : serverGetClientGidHead gid with
    | none =>
        simp only [serverAddClientToOneGroup, hm, hg] at hr
        cases hr
        exact hgrow _
    | some cgh =>
        simp only [serverAddClientToOneGroup, hm, hg] at hr
        split at hr
        · cases hr
          exact hgrow _
        · obtain ⟨gs₁, hfill, hr⟩ := bind_ok.mp hr
          obtain ⟨gs₂, hattach, hr⟩ := bind_ok.mp hr
          cases hr
          obtain ⟨xs, hrelinked, -⟩ := attach_relinked hattach
          exact (KeepsTags.fill _ hfill).trans (KeepsTags.relinked hrelinked)

theorem serverAddClientToGroups_tags {ci : Nat} :
    ∀ {gids : List Nat} {cg cg' : Ptr} {reg : Registry},
      serverAddClientToGroups supply ci gids cg reg = .ok (cg', reg') →
      KeepsTags reg.groups reg'.groups := by
  intro gids
  induction gids with
  | nil =>
      intro cg cg' reg hr
      cases hr
      exact KeepsTags.refl _
  | cons gid gids ih =>
      intro cg cg' reg hr
      obtain ⟨⟨cgt, reg₁⟩, hone, hr⟩ := bind_ok.mp hr
      have htags := serverAddClientToOneGroup_tags hone
      cases cgt with
      | none =>
          obtain ⟨reg₂, hdel, hr⟩ := bind_ok.mp hr
          cases hr
          exact htags.trans (serverDelClientFromGroups_tags hdel)
      | some a => exact htags.trans (ih hr)

theorem serverAddOneClientFd_tags {cih : Option Nat} {cfd : Int} {sa : SockAddr}
    {gids : List Nat} {p : Bool}
    (hr : serverAddOneClientFd supply reg cih cfd sa gids = .ok (p, reg')) :
    KeepsTags reg.groups reg'.groups := by
  cases cih with
  | none =>
      cases hr
      exact KeepsTags.refl _
  | some cih =>
      rw [serverAddOneClientFd] at hr
      split at hr
      · cases hr
        exact KeepsTags.refl _
      · obtain ⟨found, -, hr⟩ := bind_ok.mp hr
        obtain ⟨⟨b, reg₁⟩, hnew, hr⟩ := bind_ok.mp hr
        cases hr
        rcases reg.infos.malloc_cases supply.info with hm | ⟨w, -, hm⟩
        · simp only [serverAddOneNewClientFd, hm] at hnew
          cases hnew
          exact KeepsTags.refl _
        · simp only [serverAddOneNewClientFd, hm] at hnew
          obtain ⟨⟨cg, reg₂⟩, hadd, hnew⟩ := bind_ok.mp hnew
          have htags := serverAddClientToGroups_tags hadd
          cases cg with
          | none =>
              obtain ⟨infos, -, hnew⟩ := bind_ok.mp hnew
              cases hnew
              exact htags
          | some a =>
              obtain ⟨infos, -, hnew⟩ := bind_ok.mp hnew
              obtain ⟨infos', -, hnew⟩ := bind_ok.mp hnew
              cases hnew
              exact htags

end Tags

/-! ## Members stay members -/

section Stay
variable {reg reg' : Registry}
  {member member' chain chain' bucket bucket' : Nat → List Nat}
  {supply : Supply} {cfd : Int} {p : Bool}

/-- A client whose chain is the same is in the same groups. -/
theorem Registry.Ok.stays (hok : reg.Ok member chain bucket)
    (hok' : reg'.Ok member' chain' bucket')
    (htags : KeepsTags reg.groups reg'.groups) {c gid : Nat}
    (hchain : chain' c = chain c) (hc : c ∈ reg.clientsIn gid) :
    c ∈ reg'.clientsIn gid := by
  obtain ⟨x, hx, htag⟩ := hok.mem_clientsIn.mp hc
  refine hok'.mem_clientsIn.mpr ⟨x, hchain ▸ hx, ?_⟩
  obtain ⟨g, -, htag', -⟩ := hok'.groups.placed c x (hchain ▸ hx)
  obtain ⟨v, hv, -⟩ := id htag
  have hold := htags.2 x (reg.groups.lt_next hv) c _ htag'
  rw [(htag.unique hold).2]
  exact htag'

theorem clientsIn_join (hwf : reg.WellFormed) {sa : SockAddr} {gids : List Nat}
    (hr : serverAddOneClientFd supply reg (some (serverGetClientInfoHead cfd))
      cfd sa gids
      = .ok (p, reg')) {c gid : Nat} (hc : c ∈ reg.clientsIn gid) : c
        ∈ reg'.clientsIn gid := by
  have htags := serverAddOneClientFd_tags hr
  obtain ⟨member, chain, bucket, hok⟩ := hwf
  rcases serverAddOneClientFd_spec supply hok cfd sa gids with
    ⟨reg₁, ⟨-, hrun, rfl⟩ | ⟨hrun, ⟨⟨⟨member', hok'⟩, -⟩, -⟩ | ⟨ys, v, hadded⟩⟩⟩
  · cases hr.symm.trans hrun
    exact hc
  · cases hr.symm.trans hrun
    exact hok.stays hok' htags rfl hc
  · cases hr.symm.trans hrun
    obtain ⟨member', hok'⟩ := hadded.ok
    refine hok.stays hok' htags (put_ne _ ?_ _) hc
    rintro rfl
    obtain ⟨x, hx, -⟩ := hok.mem_clientsIn.mp hc
    rw [hok.chain_fresh] at hx
    exact absurd hx List.not_mem_nil

/-- Whoever is still registered after one client left. -/
theorem clientsIn_leave (hwf : reg.WellFormed)
    (hr : serverDelOneClientFd reg (some (serverGetClientInfoHead cfd)) cfd
      = .ok (p, reg')) {c gid : Nat}
    (hstays : reg'.infos.cell c ≠ none) (hc : c ∈ reg.clientsIn gid) :
    c ∈ reg'.clientsIn gid := by
  have htags := serverDelOneClientFd_tags hr
  obtain ⟨member, chain, bucket, hok⟩ := hwf
  rcases serverDelOneClientFd_spec hok cfd with
    ⟨hrun, -⟩ | ⟨reg₁, a, v, hrun, hremoved⟩
  · cases hr.symm.trans hrun
    exact hc
  · cases hr.symm.trans hrun
    obtain ⟨member', hok'⟩ := hremoved.ok
    refine hok.stays hok' htags (put_ne _ ?_ _) hc
    rintro rfl
    exact hstays hremoved.gone

end Stay

/-! ## Looking for somebody idle -/

/-- Either everybody that the loop of `reassign_job` meets is busy, or it stops
at somebody who is not. -/
theorem idleMember_cases {reg : Registry} {r : Ptr} :
    ∀ {fuel : Nat} {p : Ptr}, idleMember reg fuel p = .ok r →
      (r = none ∧ ∀ c ∈ reg.walked fuel p, ∃ v, reg.infos.cell c = some v ∧
        v.busy = true) ∨
        ∃ w v, r = some w ∧ w ∈ reg.walked fuel p ∧ reg.infos.cell w = some v ∧
        v.busy = false := by
  intro fuel
  induction fuel with
  | zero =>
      intro p hr
      cases p with
      | none =>
          cases hr
          exact Or.inl ⟨rfl, fun c hc => absurd hc List.not_mem_nil⟩
      | some cg => cases hr
  | succ fuel ih =>
      intro p hr
      cases p with
      | none =>
          cases hr
          exact Or.inl ⟨rfl, fun c hc => absurd hc List.not_mem_nil⟩
      | some cg =>
          obtain ⟨v, hload, hr⟩ := bind_ok.mp hr
          obtain ⟨ci, hci, hr⟩ := bind_ok.mp hr
          obtain ⟨a, ha, hv⟩ := Heap.load_ok.mp hload
          cases ha
          obtain ⟨d, hd, hcell⟩ := Heap.load_ok.mp hci
          rw [Registry.walked_cons hv hd]
          cases hbusy : ci.busy with
          | true =>
              rw [if_pos hbusy] at hr
              rcases ih hr with ⟨rfl, hall⟩ | ⟨w, u, rfl, hw, hidle⟩
              · refine Or.inl ⟨rfl, fun c hc => ?_⟩
                rcases List.mem_cons.mp hc with rfl | hc
                · exact ⟨ci, hcell, hbusy⟩
                · exact hall c hc
              · exact Or.inr ⟨w, u, rfl, List.mem_cons_of_mem _ hw, hidle⟩
          | false =>
              rw [if_neg (by simp [hbusy])] at hr
              cases hr
              exact Or.inr ⟨d, ci, hd, List.mem_cons_self, hcell, hbusy⟩

theorem clientsIn_eq {reg : Registry} {gid cgh : Nat}
    (hgid : serverGetClientGidHead gid = some cgh) :
    reg.clientsIn gid = reg.walked reg.groups.next (reg.multicastGroups cgh).h := by
  unfold Registry.clientsIn
  rw [hgid]

end Pyramid
