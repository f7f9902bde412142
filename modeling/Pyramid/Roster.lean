/-
# `Pyramid.Roster` — the registry is what its lists say it is

The lists a registry is made of are ghosts here: `member g` is the list of the
group with index `g`, `chain ci` the list of the groups of the client at `ci`,
newest first, and `bucket b` the list of the clients in a bucket.  `GroupsOk`
ties the first two to the `client_group` records, `ClientsOk` the last two to
the `client_info` records.

While a client is being added or taken out its chain exists and its
`client_info` is in no bucket, so the two are kept apart: the loops over a
client's groups only need the first (`serverDelClientFromGroups_spec`,
`serverAddClientToGroups_spec`), and both hold together with `Registered`
between calls.
-/
import Mathlib.Algebra.BigOperators.Group.List.Basic
import Mathlib.Algebra.Order.BigOperators.Group.List
import Mathlib.Algebra.Order.Group.Nat
import Mathlib.Data.List.Nodup
import Pyramid.Groups

namespace Pyramid

/-! ## The two halves of the invariant -/

/-- The `client_group` at `x` is for the client at `ci` and the group `gid`. -/
def Tagged (gs : Heap ClientGroup) (x ci gid : Nat) : Prop :=
  ∃ v, gs.cell x = some v ∧ v.ci = some ci ∧ v.gid = gid

structure GroupsOk (gs : Heap ClientGroup) (heads : Nat → Head)
    (member chain : Nat → List Nat) :
    Prop where
  list : ∀ g, DList groupLinks gs (heads g).h (member g)
  nodup : ∀ g, (member g).Nodup
  count : ∀ g, (heads g).tc = (member g).length
  small : ∀ g, (member g).length ≤ maxClientsPerMulticastGroup
  owned : ∀ g, ∀ x ∈ member g, ∃ ci, Tagged gs x ci (g + 1) ∧ x ∈ chain ci
  path : ∀ ci, Path gs (·.ncg) (chain ci).head? (chain ci)
  simple : ∀ ci, (chain ci).Nodup
  placed : ∀ ci, ∀ x ∈ chain ci, ∃ g, g < maxMulticastGroups ∧
    Tagged gs x ci (g + 1) ∧ x ∈ member g

structure ClientsOk (infos : Heap ClientInfo) (map : Nat → Head)
    (bucket chain : Nat → List Nat) :
    Prop where
  list : ∀ b, DList infoLinks infos (map b).h (bucket b)
  nodup : ∀ b, (bucket b).Nodup
  count : ∀ b, (map b).tc = (bucket b).length
  client : ∀ b, ∀ a ∈ bucket b, ∃ v, infos.cell a = some v ∧ getHash v.cfd = b ∧
    v.cg = (chain a).head? ∧ v.tgid = (chain a).length ∧ chain a ≠ []

/-- The clients with groups are the clients in the map. -/
def Registered (bucket chain : Nat → List Nat) : Prop :=
  ∀ ci, chain ci ≠ [] → ∃ b, ci ∈ bucket b

structure Registry.Ok (reg : Registry)
    (member chain bucket : Nat → List Nat) : Prop where
  groups : GroupsOk reg.groups reg.multicastGroups member chain
  clients : ClientsOk reg.infos reg.clientHashMap bucket chain
  registered : Registered bucket chain

def Registry.WellFormed (reg : Registry) : Prop :=
  ∃ member chain bucket, reg.Ok member chain bucket

theorem Registry.zeroed_ok :
    Registry.zeroed.Ok (fun _ => []) (fun _ => []) (fun _ => []) where
  groups := by
    refine ⟨fun _ => Leads.refl _ _, fun _ => List.nodup_nil, fun _ => rfl,
      fun _ => Nat.zero_le _, fun _ x hx => ?_, fun _ => rfl,
      fun _ => List.nodup_nil, fun _ x hx => ?_⟩
    · exact absurd hx List.not_mem_nil
    · exact absurd hx List.not_mem_nil
  clients := ⟨fun _ => Leads.refl _ _, fun _ => List.nodup_nil, fun _ => rfl,
    fun _ a ha => absurd ha List.not_mem_nil⟩
  registered := fun _ hne => absurd rfl hne

theorem Tagged.unique {gs : Heap ClientGroup} {x ci ci' gid gid' : Nat}
    (h : Tagged gs x ci gid) (h' : Tagged gs x ci' gid') :
    ci = ci' ∧ gid = gid' := by
  obtain ⟨v, hv, hci, hgid⟩ := h
  obtain ⟨v', hv', hci', hgid'⟩ := h'
  rw [hv] at hv'
  cases hv'
  rw [hci] at hci'
  cases hci'
  exact ⟨rfl, hgid.symm.trans hgid'⟩

theorem Tagged.of_map {gs gs' : Heap ClientGroup} {x ci gid : Nat}
    (h : Tagged gs x ci gid)
    (hmap : (gs'.cell x).map (fun v => (v.ci, v.gid)) = (gs.cell x).map fun v =>
      (v.ci, v.gid)) :
    Tagged gs' x ci gid := by
  obtain ⟨v, hv, hci, hgid⟩ := h
  rw [hv, Option.map_some] at hmap
  obtain ⟨v', hv', heq⟩ := Option.map_eq_some_iff.mp hmap
  obtain ⟨hci', hgid'⟩ := Prod.mk.injEq .. ▸ heq
  exact ⟨v', hv', hci'.trans hci, hgid'.trans hgid⟩

theorem serverGetClientGidHead_eq {gid g : Nat} :
    serverGetClientGidHead gid = some g ↔ gid = g + 1 ∧ g < maxMulticastGroups := by
  simp only [serverGetClientGidHead, serverIsMulticastGroupValid, Bool.and_eq_true,
    decide_eq_true_eq]
  by_cases hv : 1 ≤ gid ∧ gid ≤ maxMulticastGroups
  · rw [if_pos hv, Option.some_inj]
    omega
  · rw [if_neg hv]
    constructor
    · exact fun heq => by cases heq
    · omega

/-! ## A table of lists -/

section Tables
variable {α : Type} (L : Links α)

/-- The lists of a table with their heads and counters; no
record is in two of them. -/
structure Table (h : Heap α) (heads : Nat → Head) (xs : Nat → List Nat) : Prop where
  list : ∀ k, DList L h (heads k).h (xs k)
  nodup : ∀ k, (xs k).Nodup
  count : ∀ k, (heads k).tc = (xs k).length
  apart : ∀ {a i j : Nat}, a ∈ xs i → a ∈ xs j → i = j

/-- The records other than `a` are the same up to their links. -/
def KeepsData (h h' : Heap α) (a : Nat) : Prop :=
  ∀ {γ : Type} (f : α → γ), (∀ q v, f (L.setNext q v) = f v) →
    (∀ q v, f (L.setPrev q v) = f v) →
    ∀ b, b ≠ a → (h'.cell b).map f = (h.cell b).map f

variable {L} {h : Heap α} {heads : Nat → Head} {xs : Nat → List Nat}
  {a k : Nat} {v : α}

/-- The new record `a` becomes the first of its list. -/
theorem Table.push (ht : Table L h heads xs) (h₁ : Heap α) (ha : h.cell a = none)
    (hold : ∀ b, b ≠ a → h₁.cell b = h.cell b) (hnew : h₁.cell a = some v)
    (hprev : L.prev v = none) (hnext : L.next v = (heads k).h)
    (hsize : (xs k).length + 1 < 4294967296) :
    ∃ h₂, attach L h₁ (heads k).h a = .ok h₂ ∧ h₂.next = h₁.next ∧
      h₂.cell a = some v ∧
      KeepsData L h h₂ a ∧
      Table L h₂ (put heads k ⟨some a, incr (heads k).tc⟩) (put xs k
        (a :: xs k)) := by
  have hout : ∀ j, a ∉ xs j := by
    intro j hmem
    obtain ⟨w, hw⟩ := (ht.list j).cell_of_mem hmem
    rw [ha] at hw
    cases hw
  have hlist₁ : ∀ j, DList L h₁ (heads j).h (xs j) := fun j =>
    (ht.list j).congr (fun b hb => hold b fun heq => hout j (heq ▸ hb))
    fun _ hb => hb
  obtain ⟨h₂, hattach, hlist, hrel⟩ :=
    attach_spec (hlist₁ k) (ht.nodup k) (hout k) hnew hprev hnext
  refine ⟨h₂, hattach, hrel.next,
    by rw [hrel.same a (hout k), hnew], ?_, ?_, ?_, ?_, ?_⟩
  · intro γ f hn hp b hb
    rw [hrel.data f hn hp b, hold b hb]
  · refine forall_put₂ (fun _ (head : Head) (ys : List Nat) => DList L h₂ head.h ys)
      hlist fun j hj => ?_
    exact (hlist₁ j).congr (fun b hb => hrel.same b fun hk => hj (ht.apart hb hk))
      fun _ hb => hb
  · exact forall_put (fun _ (ys : List Nat) => ys.Nodup)
      (List.nodup_cons.mpr ⟨hout k, ht.nodup k⟩) fun j _ => ht.nodup j
  · refine forall_put₂ (fun _ (head : Head) (ys : List Nat) => head.tc = ys.length)
      ?_ fun j _ => ht.count j
    rw [ht.count k, List.length_cons]
    exact incr_of_lt hsize
  · intro y i j hi hj
    rcases mem_put_cons.mp hi with ⟨rfl, rfl⟩ | hi'
    · exact ((mem_put_cons.mp hj).resolve_right (hout j)).1.symm
    · rcases mem_put_cons.mp hj with ⟨rfl, rfl⟩ | hj'
      · exact absurd hi' (hout i)
      · exact ht.apart hi' hj'

/-- The record `a` is taken out of its list and freed. -/
theorem Table.take (ht : Table L h heads xs) (hmem : a ∈ xs k)
    (hv : h.cell a = some v) (hsize : (xs k).length < 4294967296) :
    ∃ h₁, detach L h v = .ok h₁ ∧ h₁.cell a = some v ∧
      KeepsData L h (h₁.set a none) a ∧
      Table L (h₁.set a none) (put heads k ⟨detachFirst L v (heads k).h,
      decr (heads k).tc⟩)
        (put xs k ((xs k).erase a)) := by
  obtain ⟨pre, post, hsplit⟩ := List.append_of_mem hmem
  have hnd := ht.nodup k
  have hlist := ht.list k
  rw [hsplit] at hnd hlist
  have hout : a ∉ pre ++ post :=
    (List.nodup_cons.mp (List.perm_middle.nodup_iff.mp hnd)).1
  have herase : (xs k).erase a = pre ++ post := by
    rw [hsplit, List.erase_append_right _ fun hmem =>
      hout (List.mem_append_left _ hmem), List.erase_cons_head]
  obtain ⟨h₁, hdetach⟩ := detach_ok hlist hnd hv
  obtain ⟨hseg, hrel⟩ := detach_spec hlist hnd hv (fun _ hD => hD.elim) hdetach
  have hsame : ∀ b, b ∉ xs k → (h₁.set a none).cell b = h.cell b := by
    intro b hb
    rw [Heap.cell_set_ne _ (by rintro rfl; exact hb hmem),
      hrel.same b fun hin => hb ?_]
    rw [hsplit]
    exact List.mem_append.mpr ((List.mem_append.mp hin).imp_right
      (List.mem_cons_of_mem a))
  have hmem_iff : ∀ {y j}, y ∈ put xs k ((xs k).erase a) j ↔ y ∈ xs j ∧ y ≠ a :=
    mem_put_erase (ht.nodup k) fun j hj => ht.apart hj hmem
  refine ⟨h₁, hdetach, by rw [hrel.same a hout, hv], ?_, ?_, ?_, ?_, ?_⟩
  · intro γ f hn hp b hb
    rw [Heap.cell_set_ne _ hb]
    exact hrel.data f hn hp b
  · refine forall_put₂ (fun _ (head : Head) (ys : List Nat) =>
      DList L (h₁.set a none) head.h ys) ?_ fun j hj => ?_
    · rw [herase]
      exact hseg.set_of_not_mem hout none
    · exact (ht.list j).congr (fun b hb => hsame b fun hk => hj (ht.apart hb hk))
        fun _ hb => hb
  · exact forall_put (fun _ (ys : List Nat) => ys.Nodup) ((ht.nodup k).erase a)
      fun j _ => ht.nodup j
  · refine forall_put₂ (fun _ (head : Head) (ys : List Nat) => head.tc = ys.length)
      ?_ fun j _ => ht.count j
    have hlen := List.length_erase_add_one hmem
    rw [ht.count k, ← hlen]
    exact decr_succ (by omega)
  · intro y i j hi hj
    exact ht.apart (hmem_iff.mp hi).1 (hmem_iff.mp hj).1

end Tables

namespace GroupsOk

variable {gs gs' : Heap ClientGroup} {heads : Nat → Head}
  {member chain : Nat → List Nat}

/-- A node is in the list of one group only. -/
theorem member_unique (hok : GroupsOk gs heads member chain) {g g' x : Nat}
    (hx : x ∈ member g) (hx' : x ∈ member g') : g = g' := by
  obtain ⟨ci, htag, -⟩ := hok.owned g x hx
  obtain ⟨ci', htag', -⟩ := hok.owned g' x hx'
  have := (htag.unique htag').2
  omega

/-- A node is in the chain of one client only. -/
theorem chain_unique (hok : GroupsOk gs heads member chain) {ci ci' x : Nat}
    (hx : x ∈ chain ci) (hx' : x ∈ chain ci') : ci = ci' := by
  obtain ⟨g, -, htag, -⟩ := hok.placed ci x hx
  obtain ⟨g', -, htag', -⟩ := hok.placed ci' x hx'
  exact (htag.unique htag').1

theorem cell_of_chain (hok : GroupsOk gs heads member chain) {ci x : Nat}
    (hx : x ∈ chain ci) :
    ∃ v, gs.cell x = some v := by
  obtain ⟨-, -, ⟨v, hv, -⟩, -⟩ := hok.placed ci x hx
  exact ⟨v, hv⟩

/-- Memory that is allocated and forgotten changes nothing. -/
theorem grow (hok : GroupsOk gs heads member chain) (o : Option ClientGroup) :
    GroupsOk (gs.grow o) heads member chain := by
  have hcell : ∀ {x : Nat} {v : ClientGroup}, gs.cell x = some v →
      (gs.grow o).cell x = gs.cell x :=
    fun hv => by rw [Heap.cell_grow_of_cell hv, hv]
  have htag : ∀ {x ci gid : Nat}, Tagged gs x ci gid →
      Tagged (gs.grow o) x ci gid := by
    rintro x ci gid ⟨v, hv, hrest⟩
    exact ⟨v, Heap.cell_grow_of_cell hv o, hrest⟩
  refine ⟨fun g => ?_, hok.nodup, hok.count, hok.small, fun g x hx => ?_,
    fun ci => ?_, hok.simple, fun ci x hx => ?_⟩
  · refine (hok.list g).congr (fun a ha => ?_) fun _ ha => ha
    obtain ⟨v, hv⟩ := (hok.list g).cell_of_mem ha
    exact hcell hv
  · obtain ⟨ci, hx', hmem⟩ := hok.owned g x hx
    exact ⟨ci, htag hx', hmem⟩
  · refine (hok.path ci).frame fun a ha => ?_
    obtain ⟨v, hv⟩ := hok.cell_of_chain ha
    rw [hcell hv]
  · obtain ⟨g, hg, hx', hmem⟩ := hok.placed ci x hx
    exact ⟨g, hg, htag hx', hmem⟩

theorem table (hok : GroupsOk gs heads member chain) :
    Table groupLinks gs heads member :=
  ⟨hok.list, hok.nodup, hok.count, hok.member_unique⟩

/-- The node `x`, the newest of its client, is taken out of its
group's list and freed. -/
theorem leave (hok : GroupsOk gs heads member chain) {ci x g : Nat} {rest : List Nat}
    {v : ClientGroup} (hchain : chain ci = x :: rest) (hx : x ∈ chain ci)
    (hmem : x ∈ member g) (hv : gs.cell x = some v) {gs₁ : Heap ClientGroup}
    (hdetach : detach groupLinks gs v = .ok gs₁) :
    gs₁.cell x = some v ∧
      GroupsOk (gs₁.set x none)
        (put heads g ⟨detachFirst groupLinks v (heads g).h, decr (heads g).tc⟩)
        (put member g ((member g).erase x)) (put chain ci rest) := by
  have hsmall := hok.small g
  obtain ⟨gs', hdetach', hx₁, hkeep, htable⟩ := hok.table.take hmem hv
    (by unfold maxClientsPerMulticastGroup at hsmall; omega)
  cases hdetach.symm.trans hdetach'
  have hcore := hkeep (fun v => (v.ci, v.gid)) (fun _ _ => rfl) fun _ _ => rfl
  have hncg := hkeep (·.ncg) (fun _ _ => rfl) fun _ _ => rfl
  have hsimple := hok.simple ci
  rw [hchain] at hsimple
  obtain ⟨hxrest, hrest⟩ := List.nodup_cons.mp hsimple
  have hmember : ∀ {y k}, y ∈ put member g ((member g).erase x) k ↔
      y ∈ member k ∧ y ≠ x :=
    mem_put_erase (hok.nodup g) fun k hk => hok.member_unique hk hmem
  have hchains : ∀ {y k}, y ∈ put chain ci rest k ↔ y ∈ chain k ∧ y ≠ x := by
    intro y k
    have herase : rest = (chain ci).erase x := by rw [hchain, List.erase_cons_head]
    rw [herase]
    exact mem_put_erase (hok.simple ci) fun k hk => hok.chain_unique hk hx
  refine ⟨hx₁, htable.list, htable.nodup, htable.count, ?_, fun k y hy => ?_, ?_, ?_,
    fun k y hy => ?_⟩
  · exact forall_put (fun _ (ys : List Nat) => ys.length
      ≤ maxClientsPerMulticastGroup)
      (Nat.le_trans List.length_erase_le hsmall) fun k _ => hok.small k
  · obtain ⟨hold, hne⟩ := hmember.mp hy
    obtain ⟨ci', htag', hmem'⟩ := hok.owned k y hold
    exact ⟨ci', htag'.of_map (hcore y hne), hchains.mpr ⟨hmem', hne⟩⟩
  · refine forall_put (fun _ (ys : List Nat) =>
      Path (gs₁.set x none) (·.ncg) ys.head? ys) ?_ fun k hk =>
      (hok.path k).frame fun y hy => hncg y fun h =>
        hk (hok.chain_unique (h ▸ hy) hx)
    have hpath := hok.path ci
    rw [hchain] at hpath
    obtain ⟨-, w, -, hpath⟩ := hpath
    rw [hpath.head] at hpath
    exact hpath.frame fun y hy => hncg y fun h => hxrest (h ▸ hy)
  · exact forall_put (fun _ (ys : List Nat) => ys.Nodup) hrest fun k _ =>
      hok.simple k
  · obtain ⟨hold, hne⟩ := hchains.mp hy
    obtain ⟨g', hg', htag', hmem'⟩ := hok.placed k y hold
    exact ⟨g', hg', htag'.of_map (hcore y hne), hmember.mpr ⟨hmem', hne⟩⟩

/-- A new node for the client at `ci` and the group with index `g`. -/
theorem join (hok : GroupsOk gs heads member chain) (gs₁ : Heap ClientGroup)
    {ci a g : Nat} (ha : gs.cell a = none)
    (hold : ∀ b, b ≠ a → gs₁.cell b = gs.cell b)
    (hnew : gs₁.cell a = some ⟨none, (heads g).h, some ci, (chain ci).head?, g + 1⟩)
    (hg : g < maxMulticastGroups)
    (hroom : (member g).length < maxClientsPerMulticastGroup) :
    ∃ gs₂, attach groupLinks gs₁ (heads g).h a = .ok gs₂ ∧ gs₂.next = gs₁.next ∧
      GroupsOk gs₂ (put heads g ⟨some a, incr (heads g).tc⟩)
        (put member g (a :: member g)) (put chain ci (a :: chain ci)) := by
  obtain ⟨gs₂, hattach, hnext, ha₂, hkeep, htable⟩ :=
    hok.table.push gs₁ ha hold hnew rfl rfl
    (by unfold maxClientsPerMulticastGroup at hroom; omega)
  have hchain : ∀ k, a ∉ chain k := by
    intro k hmem
    obtain ⟨v, hv⟩ := hok.cell_of_chain hmem
    rw [ha] at hv
    cases hv
  have hcore := hkeep (fun v => (v.ci, v.gid)) (fun _ _ => rfl) fun _ _ => rfl
  have hncg := hkeep (·.ncg) (fun _ _ => rfl) fun _ _ => rfl
  have htag : Tagged gs₂ a ci (g + 1) := ⟨_, ha₂, rfl, rfl⟩
  have hpath : ∀ k, Path gs₂ (·.ncg) (chain k).head? (chain k) := fun k =>
    (hok.path k).frame fun y hy => hncg y fun h => hchain k (h ▸ hy)
  refine ⟨gs₂, hattach, hnext, htable.list, htable.nodup, htable.count, ?_,
    fun k y hy => ?_, ?_, ?_, fun k y hy => ?_⟩
  · exact forall_put (fun _ (ys : List Nat) => ys.length
      ≤ maxClientsPerMulticastGroup) hroom fun k _ => hok.small k
  · rcases mem_put_cons.mp hy with ⟨rfl, rfl⟩ | hmem
    · exact ⟨ci, htag, mem_put_cons.mpr (Or.inl ⟨rfl, rfl⟩)⟩
    · obtain ⟨ci', htag', hmem'⟩ := hok.owned k y hmem
      have hne : y ≠ a := fun h => hchain ci' (h ▸ hmem')
      exact ⟨ci', htag'.of_map (hcore y hne), mem_put_cons.mpr (Or.inr hmem')⟩
  · exact forall_put (fun _ (ys : List Nat) => Path gs₂ (·.ncg) ys.head? ys) ⟨rfl, _,
      ha₂, hpath ci⟩ fun k _ => hpath k
  · exact forall_put (fun _ (ys : List Nat) => ys.Nodup)
      (List.nodup_cons.mpr ⟨hchain ci, hok.simple ci⟩)
      fun k _ => hok.simple k
  · rcases mem_put_cons.mp hy with ⟨rfl, rfl⟩ | hmem
    · exact ⟨g, hg, htag, mem_put_cons.mpr (Or.inl ⟨rfl, rfl⟩)⟩
    · obtain ⟨g', hg', htag', hmem'⟩ := hok.placed k y hmem
      have hne : y ≠ a := fun h => hchain k (h ▸ hmem)
      exact ⟨g', hg', htag'.of_map (hcore y hne), mem_put_cons.mpr (Or.inr hmem')⟩

end GroupsOk

/-! ## Leaving all groups -/

/-- The client at `ci` leaves the group it joined last. -/
theorem leaveGroup_spec {reg : Registry} {member chain : Nat → List Nat} {ci x : Nat}
    {rest : List Nat} (hok : GroupsOk reg.groups reg.multicastGroups member chain)
    (hchain : chain ci = x :: rest) :
    ∃ v g reg', reg.groups.cell x = some v ∧ v.ncg = rest.head? ∧ x ∈ member g ∧
      leaveGroup reg x v = .ok reg' ∧ reg'.infos = reg.infos ∧
      reg'.clientHashMap = reg.clientHashMap ∧
      (∀ y, reg'.groups.cell y = none ↔ y = x ∨ reg.groups.cell y = none) ∧
      GroupsOk reg'.groups reg'.multicastGroups (put member g ((member g).erase x))
        (put chain ci rest) := by
  have hx : x ∈ chain ci := hchain ▸ List.mem_cons_self
  obtain ⟨g, hg, ⟨v, hv, hci, hgid⟩, hmem⟩ := hok.placed ci x hx
  obtain ⟨xs, ys, hsplit⟩ := List.append_of_mem hmem
  have hlist := hok.list g
  have hnd := hok.nodup g
  rw [hsplit] at hlist hnd
  obtain ⟨gs₁, hdetach⟩ := detach_ok hlist hnd hv
  obtain ⟨hx₁, hok'⟩ := hok.leave hchain hx hmem hv hdetach
  have hpath := hok.path ci
  rw [hchain] at hpath
  obtain ⟨-, v', hv', hpath⟩ := hpath
  rw [hv] at hv'
  cases hv'
  refine ⟨v, g, { reg with
    groups := gs₁.set x none
    multicastGroups := put reg.multicastGroups g
      ⟨detachFirst groupLinks v (reg.multicastGroups g).h,
        decr (reg.multicastGroups g).tc⟩ },
    hv, hpath.head, hmem, ?_, rfl, rfl, fun y => ?_, hok'⟩
  · rw [leaveGroup, hdetach, ok_bind, hgid, serverGetClientGidHead_eq.mpr ⟨rfl, hg⟩]
    simp only [Heap.free_some hx₁, ok_bind]
  · obtain ⟨zs, hrel⟩ := detach_relinked hdetach
    by_cases hy : y = x
    · exact iff_of_true (by rw [hy]; exact Heap.cell_set_self hx₁ none) (Or.inl hy)
    · have hsame := hrel.data (fun _ => ()) (fun _ _ => rfl) (fun _ _ => rfl) y
      have hiff : gs₁.cell y = none ↔ reg.groups.cell y = none := by
        rw [← Option.map_eq_none_iff (f := fun _ => ()), hsame,
          Option.map_eq_none_iff]
      show (gs₁.set x none).cell y = none ↔ _
      rw [Heap.cell_set_ne _ hy, hiff]
      exact ⟨Or.inr, fun h => h.resolve_left hy⟩

/-- The nodes that are not in `L`. -/
def without (L xs : List Nat) : List Nat := xs.filter fun x => !L.contains x

@[simp] theorem without_nil (xs : List Nat) : without [] xs = xs := by simp [without]

theorem without_of_disjoint {L xs : List Nat} (hdisj : ∀ x ∈ xs, x ∉ L) :
    without L xs = xs := by
  rw [without, List.filter_eq_self]
  intro x hx
  simpa using hdisj x hx

/-- Taking the node `x` out of its list, and then those of `L` out of all lists. -/
theorem GroupsOk.without_cons {gs : Heap ClientGroup} {heads : Nat → Head}
    {member chain : Nat → List Nat} (hok : GroupsOk gs heads member chain)
    {g x : Nat} (hmem : x ∈ member g) (L : List Nat) (k : Nat) :
    without L (put member g ((member g).erase x) k)
      = without (x :: L) (member k) := by
  have hcons : ∀ xs : List Nat, without (x :: L) xs
      = without L (xs.filter (· != x)) := by
    intro xs
    rw [without, without, List.filter_filter]
    refine List.filter_congr fun y _ => ?_
    rw [List.contains_cons, Bool.not_or, Bool.and_comm]
    rfl
  rw [hcons]
  by_cases hk : k = g
  · rw [hk, put_self, (hok.nodup g).erase_eq_filter]
  · rw [put_ne _ hk, List.filter_eq_self.mpr]
    intro y hy
    have hne : y ≠ x := fun heq => hk (hok.member_unique (heq ▸ hy) hmem)
    simpa using hne

/-- The loop takes the client out of all its groups; the
induction is on its chain. -/
theorem serverDelClientFromGroups_spec :
    ∀ (L : List Nat) {reg : Registry} {member chain : Nat → List Nat}
      {ci fuel : Nat}, GroupsOk reg.groups reg.multicastGroups member chain →
      chain ci = L → L.length ≤ fuel →
      ∃ reg', serverDelClientFromGroups fuel L.head? reg = .ok reg' ∧
        reg'.infos = reg.infos ∧ reg'.clientHashMap = reg.clientHashMap ∧
        (∀ y, reg'.groups.cell y = none ↔ y ∈ L ∨ reg.groups.cell y = none) ∧
        GroupsOk reg'.groups reg'.multicastGroups (fun g =>
          without L (member g)) (put chain ci []) := by
  intro L
  induction L with
  | nil =>
      intro reg member chain ci fuel hok hchain _
      refine ⟨reg,
        by rw [List.head?_nil, serverDelClientFromGroups], rfl, rfl, by simp, ?_⟩
      rw [put_eq_self hchain]
      simpa using hok
  | cons x rest ih =>
      intro reg member chain ci fuel hok hchain hfuel
      obtain ⟨fuel, rfl⟩ : ∃ k, fuel = k + 1 := ⟨fuel - 1, by simp at hfuel; omega⟩
      obtain ⟨v, g, reg₁, hv, hncg, hmem, hleave, hinfos, hmap, hfreed, hok₁⟩ :=
        leaveGroup_spec hok hchain
      obtain ⟨reg', hdel, hinfos', hmap', hfreed', hok'⟩ :=
        ih hok₁ (put_self chain ci rest)
        (by simpa using hfuel)
      refine ⟨reg', ?_, hinfos'.trans hinfos, hmap'.trans hmap, fun y => ?_, ?_⟩
      · rw [List.head?_cons, serverDelClientFromGroups, Heap.load_some hv, ok_bind,
          hleave, ok_bind, hncg, hdel]
      · rw [hfreed', hfreed, List.mem_cons]
        tauto
      · rw [put_put, funext (hok.without_cons hmem rest)] at hok'
        exact hok'

/-! ## Joining groups -/

section Joining
variable (supply : Supply)

/-- `server_add_client_to_one_group` fails, leaving the lists alone, exactly
when there is no memory, no such group, or no room in it. -/
theorem serverAddClientToOneGroup_spec {reg : Registry}
    {member chain : Nat → List Nat} (ci gid : Nat)
    (hok : GroupsOk reg.groups reg.multicastGroups member chain) :
    ∃ cgt reg', serverAddClientToOneGroup supply ci gid (chain ci).head? reg
      = .ok (cgt, reg') ∧
      reg'.infos = reg.infos ∧ reg'.clientHashMap = reg.clientHashMap ∧
      reg'.groups.next = reg.groups.next + 1 ∧
      ((cgt = none ∧ GroupsOk reg'.groups reg'.multicastGroups member chain ∧
          ¬ (supply.group reg.groups.next ≠ none ∧
            ∃ g, serverGetClientGidHead gid = some g ∧
            (member g).length < maxClientsPerMulticastGroup)) ∨
        ∃ a g, cgt = some a ∧ serverGetClientGidHead gid = some g ∧
          supply.group reg.groups.next ≠ none ∧
          GroupsOk reg'.groups reg'.multicastGroups (put member g (a :: member g))
            (put chain ci (a :: chain ci))) := by
  have hfresh : reg.groups.cell reg.groups.next = none :=
    reg.groups.fresh _ (Nat.le_refl _)
  rcases reg.groups.malloc_cases supply.group with hm | ⟨w, hw, hm⟩
  · have hsupply : supply.group reg.groups.next = none := by
      cases hs : supply.group reg.groups.next with
      | none => rfl
      | some w => simp [Heap.malloc, hs] at hm
    refine ⟨none, { reg with groups := reg.groups.grow none }, ?_, rfl, rfl, rfl,
      Or.inl ⟨rfl, hok.grow none, fun h => h.1 hsupply⟩⟩
    simp only [serverAddClientToOneGroup, hm]
  · cases hg : serverGetClientGidHead gid with
    | none =>
        refine ⟨none, { reg with groups := reg.groups.grow (some w) }, ?_,
          rfl, rfl, rfl, Or.inl ⟨rfl, hok.grow _, by rintro ⟨_, g, h, _⟩; cases h⟩⟩
        simp only [serverAddClientToOneGroup, hm, hg]
    | some g =>
        obtain ⟨rfl, hlt⟩ := serverGetClientGidHead_eq.mp hg
        by_cases hfull : maxClientsPerMulticastGroup ≤ (reg.multicastGroups g).tc
        · refine ⟨none, { reg with groups := reg.groups.grow (some w) }, ?_,
            rfl, rfl, rfl, Or.inl ⟨rfl, hok.grow _, ?_⟩⟩
          · simp only [serverAddClientToOneGroup, hm, hg, hfull, if_true]
          · rintro ⟨-, g', hg', hroom⟩
            cases hg'
            rw [hok.count g] at hfull
            omega
        · have ha : (reg.groups.grow (some w)).cell reg.groups.next = some w :=
            Heap.cell_grow_self _ _
          have hroom : (member g).length < maxClientsPerMulticastGroup := by
            rw [hok.count g] at hfull
            omega
          obtain ⟨gs₂, hattach, hnext, hok'⟩ := hok.join
            ((reg.groups.grow (some w)).set reg.groups.next (some ⟨none,
              (reg.multicastGroups g).h, some ci, (chain ci).head?, g + 1⟩))
            hfresh (fun b hb =>
              by rw [Heap.cell_set_ne _ hb, Heap.cell_grow_ne _ hb])
            (Heap.cell_set_self ha _) hlt hroom
          refine ⟨some reg.groups.next, { reg with
            groups := gs₂
            multicastGroups := put reg.multicastGroups g
              ⟨some reg.groups.next, incr (reg.multicastGroups g).tc⟩ }, ?_,
                rfl, rfl, ?_,
            Or.inr ⟨_, g, rfl, rfl, by rw [hw]; exact Option.some_ne_none w, hok'⟩⟩
          · simp only [serverAddClientToOneGroup, hm, hg, hfull, if_false,
              Heap.modify_some ha, ok_bind, hattach]
          · rw [hnext, Heap.next_set, Heap.next_grow]

/-- The nodes `xs` are for the groups `gids`. -/
def Carries (gs : Heap ClientGroup) (xs gids : List Nat) : Prop :=
  List.Forall₂ (fun x gid => ∃ v, gs.cell x = some v ∧ v.gid = gid) xs gids

/-- There is memory for the nodes, and the groups exist and have room for them. -/
structure Admits (member : Nat → List Nat) (next : Nat)
    (gids : List Nat) : Prop where
  memory : ∀ i, i < gids.length → supply.group (next + i) ≠ none
  valid : ∀ gid ∈ gids, serverIsMulticastGroupValid gid = true
  room : ∀ g, (member g).length + gids.count (g + 1) ≤ maxClientsPerMulticastGroup

theorem Admits.head {member : Nat → List Nat} {next gid : Nat} {gids : List Nat}
    (h : Admits supply member next (gid :: gids)) :
    supply.group next ≠ none ∧ ∃ g, serverGetClientGidHead gid = some g ∧
      (member g).length < maxClientsPerMulticastGroup := by
  have hvalid := h.valid gid List.mem_cons_self
  have hgid : 1 ≤ gid := by
    simp only [serverIsMulticastGroupValid, Bool.and_eq_true, decide_eq_true_eq]
      at hvalid
    exact hvalid.1
  have hroom := h.room (gid - 1)
  rw [Nat.sub_add_cancel hgid, List.count_cons_self] at hroom
  refine ⟨h.memory 0 (by simp), gid - 1,
    by rw [serverGetClientGidHead, if_pos hvalid], by omega⟩

theorem Admits.tail {member : Nat → List Nat} {next gid g a : Nat} {gids : List Nat}
    (h : Admits supply member next (gid :: gids))
    (hg : serverGetClientGidHead gid = some g) :
    Admits supply (put member g (a :: member g)) (next + 1) gids := by
  obtain ⟨rfl, -⟩ := serverGetClientGidHead_eq.mp hg
  refine ⟨fun i hi => ?_, fun k hk => h.valid k (List.mem_cons_of_mem _ hk),
    fun k => ?_⟩
  · rw [Nat.add_assoc, Nat.add_comm 1 i]
    exact h.memory (i + 1) (by simpa using hi)
  · have hroom := h.room k
    by_cases hk : k = g
    · rw [hk, List.count_cons_self] at hroom
      rw [hk, put_self, List.length_cons]
      omega
    · rw [List.count_cons_of_ne (by omega)] at hroom
      rw [put_ne _ hk]
      exact hroom

theorem Admits.cons {member : Nat → List Nat} {next gid g a : Nat} {gids : List Nat}
    (hg : serverGetClientGidHead gid = some g) (hmemory : supply.group next ≠ none)
    (h : Admits supply (put member g (a :: member g)) (next + 1) gids) :
    Admits supply member next (gid :: gids) := by
  obtain ⟨rfl, hlt⟩ := serverGetClientGidHead_eq.mp hg
  refine ⟨fun i hi => ?_, fun k hk => ?_, fun k => ?_⟩
  · cases i with
    | zero => exact hmemory
    | succ i =>
        rw [Nat.add_comm i 1, ← Nat.add_assoc]
        exact h.memory i (by simpa using hi)
  · rcases List.mem_cons.mp hk with rfl | hk
    · simp only [serverIsMulticastGroupValid, Bool.and_eq_true, decide_eq_true_eq]
      omega
    · exact h.valid k hk
  · have hroom := h.room k
    by_cases hk : k = g
    · rw [hk, put_self, List.length_cons] at hroom
      rw [hk, List.count_cons_self]
      omega
    · rw [put_ne _ hk] at hroom
      rw [List.count_cons_of_ne (by omega)]
      exact hroom

theorem GroupsOk.chain_length_le {gs : Heap ClientGroup} {heads : Nat → Head}
    {member chain : Nat → List Nat} (hok : GroupsOk gs heads member chain)
    (ci : Nat) :
    (chain ci).length ≤ gs.next := by
  have hsub : chain ci ⊆ List.range gs.next := by
    intro x hx
    obtain ⟨v, hv⟩ := hok.cell_of_chain hx
    exact List.mem_range.mpr (gs.lt_next hv)
  have hle := (List.subperm_of_subset (hok.simple ci) hsub).length_le
  rwa [List.length_range] at hle

/-- Those of the new nodes `news`, made for the groups `gids`, that are for the group
with index `g`. -/
def newsFor (news gids : List Nat) (g : Nat) : List Nat :=
  ((news.zip gids).filter fun x => x.2 == g + 1).map (·.1)

@[simp] theorem newsFor_nil (gids : List Nat) (g : Nat) : newsFor [] gids g
    = [] := rfl

theorem newsFor_append {news gids : List Nat} (hlen : news.length = gids.length)
    (a gid g : Nat) :
    newsFor (news ++ [a]) (gids ++ [gid]) g = newsFor news gids g ++ if gid = g + 1
      then [a] else [] := by
  rw [newsFor, List.zip_append hlen, List.filter_append, List.map_append]
  refine congrArg _ ?_
  by_cases hgid : gid = g + 1 <;> simp [hgid]

/-- The first nodes of the lists, and the lists after them. -/
theorem newsFor_put {member : Nat → List Nat} {news gids : List Nat}
    (hlen : news.length = gids.length) (a g k : Nat) :
    newsFor news gids k ++ put member g (a :: member g) k
      = newsFor (news ++ [a]) (gids ++ [g + 1]) k ++ member k := by
  rw [newsFor_append hlen, List.append_assoc]
  refine congrArg _ ?_
  by_cases hk : k = g
  · rw [hk, put_self, if_pos rfl]
    rfl
  · rw [put_ne _ hk, if_neg fun heq => hk (Nat.succ.inj heq).symm, List.nil_append]

/-- Either the client ends with no group at all, or with a node for every entry
of `gids` before the nodes it had; the first only when there was no room. -/
theorem serverAddClientToGroups_spec (ci : Nat) :
    ∀ (gids : List Nat) (reg : Registry) {member chain : Nat → List Nat},
      GroupsOk reg.groups reg.multicastGroups member chain →
      ∃ cg reg' member' ys,
        serverAddClientToGroups supply ci gids (chain ci).head? reg
          = .ok (cg, reg') ∧
        reg'.infos = reg.infos ∧ reg'.clientHashMap = reg.clientHashMap ∧
        GroupsOk reg'.groups reg'.multicastGroups member' (put chain ci ys) ∧
        cg = ys.head? ∧
        ((ys = [] ∧ ¬ Admits supply member reg.groups.next gids ∧
            ∀ g, member' g = without (chain ci) (member g)) ∨
          ∃ news, ys = news ++ chain ci ∧ Carries reg'.groups news gids.reverse ∧
            Admits supply member reg.groups.next gids ∧
            ∀ g, member' g = newsFor news gids.reverse g ++ member g) := by
  intro gids
  induction gids with
  | nil =>
      intro reg member chain hok
      refine ⟨(chain ci).head?, reg, member, chain ci, rfl, rfl, rfl, ?_, rfl,
        Or.inr ⟨[], rfl, List.Forall₂.nil,
        ⟨fun i hi => absurd hi (Nat.not_lt_zero i),
          fun k hk => absurd hk List.not_mem_nil, hok.small⟩, fun _ => rfl⟩⟩
      rw [put_eq_self rfl]
      exact hok
  | cons gid gids ih =>
      intro reg member chain hok
      obtain ⟨cgt, reg₁, hone, hinfos, hmap, hnext,
          ⟨rfl, hok₁, hfail⟩ | ⟨a, g, rfl, hg, hmemory, hok₁⟩⟩ :=
        serverAddClientToOneGroup_spec supply ci gid hok
      · -- one registration failed: the ones made so far are undone
        obtain ⟨reg', hdel, hinfos', hmap', -, hok'⟩ :=
          serverDelClientFromGroups_spec (chain ci) hok₁ rfl
            (hok₁.chain_length_le ci)
        refine ⟨none, reg', _, [], ?_, hinfos'.trans hinfos,
          hmap'.trans hmap, hok', rfl, Or.inl ⟨rfl, fun h => hfail h.head,
          fun _ => rfl⟩⟩
        simp only [serverAddClientToGroups, hone, ok_bind, hdel]
      · obtain ⟨cg, reg', member', ys, hrest, hinfos', hmap', hok', hcg, hcases⟩ :=
          ih reg₁ hok₁
        rw [put_self, List.head?_cons] at hrest
        rw [put_put] at hok'
        refine ⟨cg, reg', member', ys, ?_, hinfos'.trans hinfos, hmap'.trans hmap,
          hok', hcg, ?_⟩
        · simp only [serverAddClientToGroups, hone, ok_bind, hrest]
        have ha : a ∈ put member g (a :: member g) g := by
          rw [put_self]
          exact List.mem_cons_self
        rw [hnext, put_self] at hcases
        rcases hcases with ⟨hys, hfail, hmember⟩ | ⟨news, hys, hcarries,
          hadmits, hmember⟩
        · refine Or.inl ⟨hys, fun h => hfail (h.tail supply hg), fun k => ?_⟩
          rw [hmember, ← hok₁.without_cons ha, put_put, put_self,
            List.erase_cons_head, put_eq_self rfl]
        · have hadmits' := hadmits.cons supply hg hmemory
          obtain ⟨rfl, -⟩ := serverGetClientGidHead_eq.mp hg
          have hmem : a ∈ member' g := by
            rw [hmember]
            exact List.mem_append_right _ ha
          obtain ⟨-, ⟨v, hv, -, hgid⟩, -⟩ := hok'.owned g a hmem
          refine Or.inr ⟨news ++ [a],
            by rw [hys, List.append_assoc]; rfl, ?_, hadmits', fun k => ?_⟩
          · rw [List.reverse_cons]
            exact List.rel_append hcarries
              (List.Forall₂.cons ⟨v, hv, hgid⟩ List.Forall₂.nil)
          · rw [hmember, List.reverse_cons, newsFor_put hcarries.length_eq]

end Joining

/-! ## The list of a bucket -/

/-- A `client_info` up to its place in the list of its bucket. -/
def ClientInfo.unlinked (v : ClientInfo) : ClientInfo :=
  { v with l := none, r := none }

theorem ClientInfo.of_unlinked {v v' : ClientInfo} (h : v'.unlinked = v.unlinked) :
    v'.cg = v.cg ∧ v'.tgid = v.tgid ∧ v'.cfd = v.cfd ∧ v'.busy = v.busy ∧
      v'.jn = v.jn :=
  ⟨congrArg (fun w => w.cg) h, congrArg (fun w => w.tgid) h,
    congrArg (fun w => w.cfd) h, congrArg (fun w => w.busy) h,
    congrArg (fun w => w.jn) h⟩

/-- `infos'` has the clients of `infos`, up to their places, except at `a`. -/
def KeepsInfos (infos infos' : Heap ClientInfo) (a : Nat) : Prop :=
  ∀ b, b ≠ a → (infos'.cell b).map ClientInfo.unlinked = (infos.cell b).map
    ClientInfo.unlinked

theorem KeepsInfos.symm {infos infos' : Heap ClientInfo} {a : Nat}
    (hk : KeepsInfos infos infos' a) :
    KeepsInfos infos' infos a := fun b hb => (hk b hb).symm

theorem KeepsInfos.cell {infos infos' : Heap ClientInfo} {a b : Nat}
    (hk : KeepsInfos infos infos' a) (hb : b ≠ a) {v : ClientInfo}
    (hv : infos.cell b = some v) :
    ∃ v', infos'.cell b = some v' ∧ v'.unlinked = v.unlinked := by
  have hmap := hk b hb
  rw [hv, Option.map_some] at hmap
  exact Option.map_eq_some_iff.mp hmap

namespace ClientsOk

variable {infos infos₁ : Heap ClientInfo} {map : Nat → Head}
  {bucket chain chain' : Nat → List Nat}

/-- A client is in one bucket only. -/
theorem bucket_unique (hok : ClientsOk infos map bucket chain) {a b b' : Nat}
    (ha : a ∈ bucket b) (ha' : a ∈ bucket b') : b = b' := by
  obtain ⟨v, hv, hhash, -⟩ := hok.client b a ha
  obtain ⟨v', hv', hhash', -⟩ := hok.client b' a ha'
  rw [hv] at hv'
  cases hv'
  exact hhash.symm.trans hhash'

theorem congr (hok : ClientsOk infos map bucket chain)
    (hcell : ∀ b, ∀ a ∈ bucket b, infos₁.cell a = infos.cell a)
    (hchain : ∀ b, ∀ a ∈ bucket b, chain' a = chain a) :
    ClientsOk infos₁ map bucket chain' := by
  refine ⟨fun b => ?_, hok.nodup, hok.count, fun b a ha => ?_⟩
  · exact (hok.list b).congr (hcell b) fun _ h => h
  · rw [hcell b a ha, hchain b a ha]
    exact hok.client b a ha

theorem table (hok : ClientsOk infos map bucket chain) :
    Table infoLinks infos map bucket :=
  ⟨hok.list, hok.nodup, hok.count, hok.bucket_unique⟩

/-- A client whose record was kept is found as before, with the groups it has now. -/
theorem kept (hok : ClientsOk infos map bucket chain) {a c b : Nat}
    (hkeep : KeepsInfos infos infos₁ a) (hchain : ∀ c, c ≠ a → chain' c = chain c)
    (hc : c ∈ bucket b) (hne : c ≠ a) :
    ∃ v, infos₁.cell c = some v ∧ getHash v.cfd = b ∧ v.cg = (chain' c).head? ∧
      v.tgid = (chain' c).length ∧ chain' c ≠ [] := by
  obtain ⟨v, hv, hhash, hcg, htgid, hgroups⟩ := hok.client b c hc
  obtain ⟨v', hv', heq⟩ := hkeep.cell hne hv
  obtain ⟨hcg', htgid', hcfd', -⟩ := ClientInfo.of_unlinked heq
  rw [hchain c hne]
  exact ⟨v', hv', by rw [hcfd', hhash], by rw [hcg', hcg], by
    rw [htgid', htgid], hgroups⟩

/-- The new record `a` becomes the first of its bucket. -/
theorem add (hok : ClientsOk infos map bucket chain) (infos₁ : Heap ClientInfo)
    (chain' : Nat → List Nat) {a b tgid cip cp : Nat} {cfd : Int} {cg : Ptr}
    (ha : infos.cell a = none) (hold : ∀ c, c ≠ a → infos₁.cell c = infos.cell c)
    (hnew : infos₁.cell a = some ⟨none, (map b).h, cg, tgid, cfd, cip, cp,
      false, none⟩)
    (hhash : getHash cfd = b) (hcg : cg = (chain' a).head?)
    (htgid : tgid = (chain' a).length) (hne : chain' a ≠ [])
    (hchain : ∀ c, c ≠ a → chain' c = chain c)
    (hsize : (bucket b).length + 1 < 4294967296) :
    ∃ infos₂ v, attach infoLinks infos₁ (map b).h a = .ok infos₂ ∧
      infos₂.next = infos₁.next ∧
      ClientsOk infos₂ (put map b ⟨some a, incr (map b).tc⟩)
        (put bucket b (a :: bucket b)) chain' ∧
      infos₂.cell a = some v ∧ v.cfd = cfd ∧ v.busy = false ∧ v.jn = none ∧
      KeepsInfos infos infos₂ a := by
  obtain ⟨infos₂, hattach, hnext, ha₂, hdata, htable⟩ :=
    hok.table.push infos₁ ha hold hnew rfl rfl hsize
  have hkeep : KeepsInfos infos infos₂ a := hdata _ (fun _ _ => rfl) fun _ _ => rfl
  refine ⟨infos₂, _, hattach, hnext,
    ⟨htable.list, htable.nodup, htable.count, fun k c hc => ?_⟩, ha₂, rfl, rfl,
    rfl, hkeep⟩
  rcases mem_put_cons.mp hc with ⟨rfl, rfl⟩ | hmem
  · exact ⟨_, ha₂, hhash, hcg, htgid, hne⟩
  · refine hok.kept hkeep hchain hmem ?_
    rintro rfl
    obtain ⟨v, hv⟩ := (hok.list k).cell_of_mem hmem
    rw [ha] at hv
    cases hv

/-- The record `a` is taken out of its bucket and freed. -/
theorem remove (hok : ClientsOk infos map bucket chain) (chain' : Nat → List Nat)
    {a b : Nat} {v : ClientInfo} (hmem : a ∈ bucket b) (hv : infos.cell a = some v)
    (hchain : ∀ c, c ≠ a → chain' c = chain c)
    (hsize : (bucket b).length < 4294967296) :
    ∃ infos₁, detach infoLinks infos v = .ok infos₁ ∧ infos₁.cell a = some v ∧
      ClientsOk (infos₁.set a none)
        (put map b ⟨detachFirst infoLinks v (map b).h, decr (map b).tc⟩)
        (put bucket b ((bucket b).erase a)) chain' ∧
      KeepsInfos infos (infos₁.set a none) a := by
  obtain ⟨infos₁, hdetach, ha₁, hdata, htable⟩ := hok.table.take hmem hv hsize
  have hkeep : KeepsInfos infos (infos₁.set a none) a :=
    hdata _ (fun _ _ => rfl) fun _ _ => rfl
  refine ⟨infos₁, hdetach, ha₁,
    ⟨htable.list, htable.nodup, htable.count, fun k c hc => ?_⟩, hkeep⟩
  obtain ⟨hold, hne⟩ :=
    (mem_put_erase (hok.nodup b) fun j hj => hok.bucket_unique hj hmem).mp hc
  exact hok.kept hkeep hchain hold hne

end ClientsOk

/-! ## The whole registry -/

namespace Registry.Ok

variable {reg : Registry} {member chain bucket : Nat → List Nat}

/-- Every client has a node of its own, and there is room for 255 in each of
1000 groups, so no bucket counter wraps around. -/
theorem length_bucket_le (hok : reg.Ok member chain bucket) (b : Nat) :
    (bucket b).length ≤ maxMulticastGroups * maxClientsPerMulticastGroup := by
  have hhead : ∀ a ∈ bucket b, ∃ x, (chain a).head? = some x := by
    intro a ha
    obtain ⟨v, -, -, -, -, hne⟩ := hok.clients.client b a ha
    obtain ⟨x, xs, hx⟩ := List.exists_cons_of_ne_nil hne
    exact ⟨x, by rw [hx, List.head?_cons]⟩
  have hmem : ∀ a ∈ bucket b, (chain a).headD 0 ∈ chain a := by
    intro a ha
    obtain ⟨x, hx⟩ := hhead a ha
    rw [List.headD_eq_head?_getD, hx, Option.getD_some]
    exact List.mem_of_mem_head? hx
  have hnd : ((bucket b).map fun a => (chain a).headD 0).Nodup := by
    refine (hok.clients.nodup b).map_on fun a ha c hc heq => ?_
    have hac := hmem a ha
    rw [heq] at hac
    exact hok.groups.chain_unique hac (hmem c hc)
  have hsub : ((bucket b).map fun a => (chain a).headD 0)
      ⊆ (List.range maxMulticastGroups).flatMap member := by
    intro x hx
    obtain ⟨a, ha, rfl⟩ := List.mem_map.mp hx
    obtain ⟨g, hg, -, hg'⟩ := hok.groups.placed a _ (hmem a ha)
    exact List.mem_flatMap.mpr ⟨g, List.mem_range.mpr hg, hg'⟩
  have hle := (List.subperm_of_subset hnd hsub).length_le
  rw [List.length_map, List.length_flatMap] at hle
  refine hle.trans ?_
  have hsum :=
    List.sum_le_card_nsmul ((List.range maxMulticastGroups).map fun g =>
      (member g).length)
    maxClientsPerMulticastGroup (by
      intro n hn
      obtain ⟨g, -, rfl⟩ := List.mem_map.mp hn
      exact hok.groups.small g)
  simpa using hsum

theorem length_bucket_lt (hok : reg.Ok member chain bucket) (b : Nat) :
    (bucket b).length + 1 < 4294967296 := by
  have hle := hok.length_bucket_le b
  simp only [maxMulticastGroups, maxClientsPerMulticastGroup] at hle
  omega

/-- The search of a bucket returns, with a client of this descriptor or after
having seen that there is none. -/
theorem search (hok : reg.Ok member chain bucket) (cih : Nat) (cfd : Int) :
    (serverSearchClientFd reg cih cfd = .ok none ∧
        ∀ a ∈ bucket cih, ∀ v, reg.infos.cell a = some v → v.cfd ≠ cfd) ∨
      ∃ pre a post v, bucket cih = pre ++ a :: post ∧
        serverSearchClientFd reg cih cfd = .ok (some a) ∧
        reg.infos.cell a = some v ∧ v.cfd = cfd ∧
        ∀ c ∈ pre, ∀ w, reg.infos.cell c = some w → w.cfd ≠ cfd := by
  have hlist := hok.clients.list cih
  obtain ⟨r, hr⟩ := hlist.chase_ok (fun ci => ci.cfd == cfd)
    (hlist.length_le (hok.clients.nodup cih))
  have hsearch : serverSearchClientFd reg cih cfd = .ok r := hr
  rcases hlist.chase_cases (fun _ h => h.elim) hr with
    ⟨rfl, hnone⟩ | ⟨pre, a, post, v, hsplit, rfl, hv, hhit, hpre⟩
  · exact Or.inl ⟨hsearch, fun a ha v hv => by simpa using hnone a ha v hv⟩
  · exact Or.inr ⟨pre, a, post, v, hsplit, hsearch, hv, by simpa using hhit,
      fun c hc w hw => by simpa using hpre c hc w hw⟩

/-- A client not yet allocated has no groups. -/
theorem chain_fresh (hok : reg.Ok member chain bucket) :
    chain reg.infos.next = [] := by
  by_contra hne
  obtain ⟨b, hb⟩ := hok.registered _ hne
  obtain ⟨v, hv⟩ := (hok.clients.list b).cell_of_mem hb
  rw [reg.infos.fresh _ (Nat.le_refl _)] at hv
  cases hv

end Registry.Ok

section Calls
variable (supply : Supply) {reg : Registry} {member chain bucket : Nat → List Nat}

/-- Nothing was registered: the lists of the clients are those of `reg`. -/
def Unchanged (reg reg' : Registry) (chain bucket : Nat → List Nat) : Prop :=
  (∃ member', reg'.Ok member' chain bucket) ∧
    ∀ a, reg'.infos.cell a = reg.infos.cell a

/-- The record at `a` was added for `cfd`, with the groups `gids`. -/
structure Added (reg reg' : Registry) (chain bucket : Nat → List Nat) (a : Nat)
    (cfd : Int) (gids ys : List Nat) (v : ClientInfo) : Prop where
  ok : ∃ member', reg'.Ok member' (put chain a ys)
    (put bucket (getHash cfd) (a :: bucket (getHash cfd)))
  nonempty : ys ≠ []
  carries : Carries reg'.groups ys gids.reverse
  cell : reg'.infos.cell a = some v
  fd : v.cfd = cfd
  idle : v.busy = false ∧ v.jn = none
  others : KeepsInfos reg.infos reg'.infos a

/-- Nothing was registered: all the lists, and the clients, are those of `reg`. -/
structure Restored (reg reg' : Registry)
    (member chain bucket : Nat → List Nat) : Prop where
  ok : reg'.Ok member chain bucket
  infos : ∀ a, reg'.infos.cell a = reg.infos.cell a

/-- The client at `a` was registered for `cfd`, with the new nodes `news` for the
groups `gids`, the last one first. -/
structure Joined (reg reg' : Registry) (member chain bucket : Nat → List Nat)
    (a : Nat) (cfd : Int) (gids news : List Nat) (v : ClientInfo) : Prop where
  ok : reg'.Ok (fun g => newsFor news gids.reverse g ++ member g) (put chain a news)
    (put bucket (getHash cfd) (a :: bucket (getHash cfd)))
  nonempty : news ≠ []
  carries : Carries reg'.groups news gids.reverse
  cell : reg'.infos.cell a = some v
  fd : v.cfd = cfd
  idle : v.busy = false ∧ v.jn = none
  others : KeepsInfos reg.infos reg'.infos a

theorem Joined.added {reg' : Registry} {a : Nat} {cfd : Int} {gids news : List Nat}
    {v : ClientInfo} (h : Joined reg reg' member chain bucket a cfd gids news v) :
    Added reg reg' chain bucket a cfd gids news v :=
  ⟨⟨_, h.ok⟩, h.nonempty, h.carries, h.cell, h.fd, h.idle, h.others⟩

theorem Registry.Ok.restored {reg' : Registry} (hok : reg.Ok member chain bucket)
    (hgroups : GroupsOk reg'.groups reg'.multicastGroups member chain)
    (hmap : reg'.clientHashMap = reg.clientHashMap)
    (hcell : ∀ a, reg'.infos.cell a = reg.infos.cell a) :
    Restored reg reg' member chain bucket := by
  refine ⟨⟨hgroups, ?_, hok.registered⟩, hcell⟩
  rw [hmap]
  exact hok.clients.congr (fun _ a _ => hcell a) fun _ _ _ => rfl

/-- A client that is put into the map may have any groups. -/
theorem Registered.add (h : Registered bucket chain) (a b : Nat) (ys : List Nat) :
    Registered (put bucket b (a :: bucket b)) (put chain a ys) := by
  refine forall_put (fun ci (zs : List Nat) => zs ≠ [] →
    ∃ k, ci ∈ put bucket b (a :: bucket b) k)
    (fun _ => ⟨b, mem_put_cons.mpr (Or.inl ⟨rfl, rfl⟩)⟩) fun ci _ hne => ?_
  obtain ⟨k, hk⟩ := h ci hne
  exact ⟨k, mem_put_cons.mpr (Or.inr hk)⟩

/-- `server_add_client_to_groups` for a client that has no groups yet: it gets
nodes for all of `gids`, or it has none and the members are what they were. -/
theorem addClientToGroups_new {ci : Nat} (hchain : chain ci = []) (gids : List Nat)
    (hok : GroupsOk reg.groups reg.multicastGroups member chain) :
    ∃ reg' member' ys,
      serverAddClientToGroups supply ci gids none reg = .ok (ys.head?, reg') ∧
      reg'.infos = reg.infos ∧ reg'.clientHashMap = reg.clientHashMap ∧
      GroupsOk reg'.groups reg'.multicastGroups member' (put chain ci ys) ∧
      ((ys = [] ∧ member' = member ∧
        ¬ (gids ≠ [] ∧ Admits supply member reg.groups.next gids)) ∨
        ys ≠ [] ∧ (gids ≠ [] ∧ Admits supply member reg.groups.next gids) ∧
          Carries reg'.groups ys gids.reverse ∧
          member' = fun g => newsFor ys gids.reverse g ++ member g) := by
  obtain ⟨cg, reg', member', ys, hadd, hinfos, hmap, hgroups, hcg, hcases⟩ :=
    serverAddClientToGroups_spec supply ci gids reg hok
  rw [hchain, List.head?_nil] at hadd
  subst hcg
  refine ⟨reg', member', ys, hadd, hinfos, hmap, hgroups, ?_⟩
  rcases hcases with ⟨rfl, hfail, hmember⟩ | ⟨news, hnews, hcarries,
    hadmits, hmember⟩
  · refine Or.inl ⟨rfl, funext fun g => ?_, fun h => hfail h.2⟩
    rw [hmember, hchain, without_nil]
  · rw [hchain, List.append_nil] at hnews
    subst hnews
    have hlen : ys.length = gids.length := by
      rw [hcarries.length_eq, List.length_reverse]
    cases ys with
    | nil =>
        refine Or.inl ⟨rfl, funext fun g => ?_,
          fun h => h.1 (List.length_eq_zero_iff.mp hlen.symm)⟩
        rw [hmember, newsFor_nil, List.nil_append]
    | cons y ys =>
        refine Or.inr ⟨List.cons_ne_nil y ys, ⟨?_, hadmits⟩, hcarries,
          funext hmember⟩
        rintro rfl
        cases hlen

theorem serverAddOneNewClientFd_spec (hok : reg.Ok member chain bucket) (cfd : Int)
    (sa : SockAddr) (gids : List Nat) :
    ∃ b reg', serverAddOneNewClientFd supply reg (getHash cfd) cfd sa gids
      = .ok (b, reg') ∧
      ((b = false ∧ Restored reg reg' member chain bucket ∧
          ¬ (supply.info reg.infos.next ≠ none ∧ gids ≠ [] ∧
            Admits supply member reg.groups.next gids)) ∨
        b = true ∧ (supply.info reg.infos.next ≠ none ∧ gids ≠ [] ∧
            Admits supply member reg.groups.next gids) ∧
          ∃ news v, Joined reg reg' member chain bucket reg.infos.next cfd gids
            news v) := by
  have hfresh : reg.infos.cell reg.infos.next = none :=
    reg.infos.fresh _ (Nat.le_refl _)
  rcases reg.infos.malloc_cases supply.info with hm | ⟨w, hw, hm⟩
  · have hsupply : supply.info reg.infos.next = none := by
      cases hs : supply.info reg.infos.next with
      | none => rfl
      | some w => simp [Heap.malloc, hs] at hm
    have hcell : ∀ a, (reg.infos.grow none).cell a = reg.infos.cell a := by
      intro a
      by_cases ha : a = reg.infos.next
      · rw [ha, Heap.cell_grow_self, hfresh]
      · rw [Heap.cell_grow_ne _ ha]
    refine ⟨false, { reg with infos := reg.infos.grow none }, ?_,
      Or.inl ⟨rfl, hok.restored hok.groups rfl hcell, fun h => h.1 hsupply⟩⟩
    simp only [serverAddOneNewClientFd, hm]
  · have hsupply : supply.info reg.infos.next ≠ none := by
      rw [hw]
      exact Option.some_ne_none w
    have ha : (reg.infos.grow (some w)).cell reg.infos.next = some w :=
      Heap.cell_grow_self _ _
    obtain ⟨reg₁, member', ys, hadd, hinfos, hmap, hgroups, hcases⟩ :=
      @addClientToGroups_new supply { reg with infos := reg.infos.grow (some w) }
        member chain _
        hok.chain_fresh gids hok.groups
    rcases hcases with ⟨rfl, rfl, hfail⟩ | ⟨hne, ⟨hgids, hadmits⟩, hcarries, rfl⟩
    · -- the record is given back
      rw [put_eq_self hok.chain_fresh] at hgroups
      have hcell : ∀ a, (reg₁.infos.set reg.infos.next none).cell a
          = reg.infos.cell a := by
        intro a
        rw [hinfos]
        by_cases hne : a = reg.infos.next
        · rw [hne, Heap.cell_set_self ha, hfresh]
        · rw [Heap.cell_set_ne _ hne, Heap.cell_grow_ne _ hne]
      refine ⟨false, { reg₁ with infos := reg₁.infos.set reg.infos.next none }, ?_,
        Or.inl ⟨rfl, hok.restored hgroups hmap hcell, fun h => hfail h.2⟩⟩
      have hfree : reg₁.infos.free (some reg.infos.next)
          = .ok (reg₁.infos.set reg.infos.next none) := by
        rw [hinfos]
        exact Heap.free_some ha
      simp only [serverAddOneNewClientFd, hm, hadd, ok_bind, List.head?_nil, hfree]
    · obtain ⟨y, zs, rfl⟩ := List.exists_cons_of_ne_nil hne
      have hlen : gids.length = (y :: zs).length := by
        rw [hcarries.length_eq, List.length_reverse]
      have hmap' : reg₁.clientHashMap = reg.clientHashMap := hmap
      obtain ⟨infos₂, v, hattach, -, hclients, hv, hcfd, hbusy, hjn, hkeep⟩ :=
        hok.clients.add (reg₁.infos.set reg.infos.next (some ⟨none,
            (reg₁.clientHashMap (getHash cfd)).h, (y :: zs).head?, gids.length, cfd,
            htonl sa.sAddr, htons sa.sinPort, false, none⟩))
            (put chain reg.infos.next (y :: zs))
          hfresh (fun c hc =>
            by rw [Heap.cell_set_ne _ hc, hinfos, Heap.cell_grow_ne _ hc])
          (by rw [hinfos, hmap']; exact Heap.cell_set_self ha _) rfl
          (by rw [put_self]) (by rw [put_self]; exact hlen)
          (by rw [put_self]; exact hne) (fun c hc => put_ne chain hc _)
          (hok.length_bucket_lt _)
      refine ⟨true, { reg₁ with
        infos := infos₂
        clientHashMap := put reg₁.clientHashMap (getHash cfd)
          ⟨some reg.infos.next, incr (reg₁.clientHashMap (getHash cfd)).tc⟩ }, ?_,
        Or.inr ⟨rfl, ⟨hsupply, hgids, hadmits⟩, y :: zs, v,
          ⟨hgroups, ?_, hok.registered.add _ _ _⟩, hne, hcarries, hv, hcfd,
          ⟨hbusy, hjn⟩, hkeep⟩⟩
      · have ha₁ : reg₁.infos.cell reg.infos.next = some w := by
          rw [hinfos]; exact ha
        rw [hmap', List.head?_cons] at hattach
        simp only [serverAddOneNewClientFd, hm, hadd, ok_bind, List.head?_cons,
          Heap.modify_some ha₁, hmap']
        rw [hattach, ok_bind]
      · rw [hmap']
        exact hclients

/-- What `server_add_one_client_fd` does, list by list. -/
theorem serverAddOneClientFd_exact (hok : reg.Ok member chain bucket) (cfd : Int)
    (sa : SockAddr) (gids : List Nat) :
    ∃ reg', (maxMulticastGroups < gids.length ∧
          serverAddOneClientFd supply reg (some (getHash cfd)) cfd sa gids
            = .ok (false, reg') ∧
          reg' = reg) ∨
        (serverAddOneClientFd supply reg (some (getHash cfd)) cfd sa gids
          = .ok (true, reg') ∧
          gids.length ≤ maxMulticastGroups ∧
          ((Restored reg reg' member chain bucket ∧
              ¬ (supply.info reg.infos.next ≠ none ∧ gids ≠ [] ∧
                Admits supply member reg.groups.next gids)) ∨
            (supply.info reg.infos.next ≠ none ∧ gids ≠ [] ∧
            Admits supply member reg.groups.next gids) ∧
              ∃ news v, Joined reg reg' member chain bucket reg.infos.next cfd gids
                news v)) := by
  by_cases hmany : maxMulticastGroups < gids.length
  · exact ⟨reg, Or.inl ⟨hmany, by rw [serverAddOneClientFd, if_pos hmany], rfl⟩⟩
  · obtain ⟨b, reg', hnew, hcases⟩ :=
      serverAddOneNewClientFd_spec supply hok cfd sa gids
    have hrun : serverAddOneClientFd supply reg (some (getHash cfd)) cfd sa gids
        = .ok (true, reg') := by
      rw [serverAddOneClientFd, if_neg hmany]
      rcases hok.search (getHash cfd) cfd with ⟨hs, -⟩ | ⟨-, a, -, -, -, hs, -⟩
      · simp only [hs, ok_bind, hnew]
      · simp only [hs, ok_bind, hnew]
    refine ⟨reg', Or.inr ⟨hrun, Nat.not_lt.mp hmany, ?_⟩⟩
    rcases hcases with ⟨-, hrestored, hfail⟩ | ⟨-, hjoined⟩
    · exact Or.inl ⟨hrestored, hfail⟩
    · exact Or.inr hjoined

theorem serverAddOneClientFd_spec (hok : reg.Ok member chain bucket) (cfd : Int)
    (sa : SockAddr) (gids : List Nat) :
    ∃ reg', (maxMulticastGroups < gids.length ∧
          serverAddOneClientFd supply reg (some (getHash cfd)) cfd sa gids
            = .ok (false, reg') ∧
          reg' = reg) ∨
        (serverAddOneClientFd supply reg (some (getHash cfd)) cfd sa gids
          = .ok (true, reg') ∧
          ((Unchanged reg reg' chain bucket ∧
              ¬ (supply.info reg.infos.next ≠ none ∧ gids ≠ [] ∧
                Admits supply member reg.groups.next gids)) ∨
            ∃ ys v, Added reg reg' chain bucket reg.infos.next cfd gids ys v)) := by
  obtain ⟨reg', hrefused | ⟨hrun, -, ⟨hrestored, hfail⟩ | ⟨-, news, v, hjoined⟩⟩⟩ :=
    serverAddOneClientFd_exact supply hok cfd sa gids
  · exact ⟨reg', Or.inl hrefused⟩
  · exact ⟨reg',
      Or.inr ⟨hrun, Or.inl ⟨⟨⟨member, hrestored.ok⟩, hrestored.infos⟩, hfail⟩⟩⟩
  · exact ⟨reg', Or.inr ⟨hrun, Or.inr ⟨news, v, hjoined.added⟩⟩⟩

/-- The first record for `cfd` in its bucket, at `a`, was removed. -/
structure Removed (reg reg' : Registry) (chain bucket : Nat → List Nat) (a : Nat)
    (cfd : Int) (v : ClientInfo) : Prop where
  found : serverSearchClientFd reg (getHash cfd) cfd = .ok (some a)
  mem : a ∈ bucket (getHash cfd)
  cell : reg.infos.cell a = some v
  fd : v.cfd = cfd
  ok : ∃ member', reg'.Ok member' (put chain a [])
    (put bucket (getHash cfd) ((bucket (getHash cfd)).erase a))
  gone : reg'.infos.cell a = none
  others : KeepsInfos reg.infos reg'.infos a

/-- The client at `a`, the first one for `cfd` in its bucket,
left with all its nodes. -/
structure Parted (reg reg' : Registry) (member chain bucket : Nat → List Nat)
    (a : Nat) (cfd : Int) (v : ClientInfo) : Prop where
  found : serverSearchClientFd reg (getHash cfd) cfd = .ok (some a)
  first : ∃ pre post, bucket (getHash cfd) = pre ++ a :: post ∧
    ∀ c ∈ pre, ∀ w, reg.infos.cell c = some w → w.cfd ≠ cfd
  cell : reg.infos.cell a = some v
  fd : v.cfd = cfd
  ok : reg'.Ok (fun g => without (chain a) (member g)) (put chain a [])
    (put bucket (getHash cfd) ((bucket (getHash cfd)).erase a))
  gone : reg'.infos.cell a = none
  freed : ∀ y, reg'.groups.cell y = none ↔ y ∈ chain a ∨ reg.groups.cell y = none
  others : KeepsInfos reg.infos reg'.infos a

theorem Parted.removed {reg' : Registry} {a : Nat} {cfd : Int} {v : ClientInfo}
    (h : Parted reg reg' member chain bucket a cfd v) :
    Removed reg reg' chain bucket a cfd v := by
  obtain ⟨pre, post, hsplit, -⟩ := h.first
  refine ⟨h.found, ?_, h.cell, h.fd, ⟨_, h.ok⟩, h.gone, h.others⟩
  rw [hsplit]
  exact List.mem_append_right _ List.mem_cons_self

/-- What `server_del_one_client_fd` does, list by list. -/
theorem serverDelOneClientFd_exact (hok : reg.Ok member chain bucket) (cfd : Int) :
    (serverDelOneClientFd reg (some (getHash cfd)) cfd = .ok (false, reg) ∧
        ∀ a ∈ bucket (getHash cfd), ∀ v, reg.infos.cell a = some v → v.cfd ≠ cfd) ∨
      ∃ reg' a v, serverDelOneClientFd reg (some (getHash cfd)) cfd
        = .ok (true, reg') ∧
        Parted reg reg' member chain bucket a cfd v := by
  rcases hok.search (getHash cfd) cfd with
    ⟨hs, hnone⟩ | ⟨pre, a, post, v, hsplit, hs, hv, hcfd, hpre⟩
  · exact Or.inl ⟨by simp only [serverDelOneClientFd, hs, ok_bind], hnone⟩
  right
  have hmem : a ∈ bucket (getHash cfd) := by
    rw [hsplit]
    exact List.mem_append_right _ List.mem_cons_self
  obtain ⟨v', hv', -, hcg, -, -⟩ := hok.clients.client _ a hmem
  rw [hv] at hv'
  cases hv'
  obtain ⟨reg₁, hdel, hinfos, hmap, hfreed, hgroups⟩ :=
    serverDelClientFromGroups_spec (chain a) hok.groups rfl
      (hok.groups.chain_length_le a)
  have hlt := hok.length_bucket_lt (getHash cfd)
  obtain ⟨infos₁, hdetach, ha₁, hclients, hkeep⟩ :=
    hok.clients.remove (put chain a [])
    hmem hv (fun c hc => put_ne chain hc []) (by omega)
  refine ⟨{ reg₁ with
    infos := infos₁.set a none
    clientHashMap := put reg₁.clientHashMap (getHash cfd)
      ⟨detachFirst infoLinks v (reg₁.clientHashMap (getHash cfd)).h,
        decr (reg₁.clientHashMap (getHash cfd)).tc⟩ }, a, v, ?_, hs,
        ⟨pre, post, hsplit, hpre⟩, hv, hcfd,
    ⟨hgroups, ?_, ?_⟩, Heap.cell_set_self ha₁ none, hfreed, hkeep⟩
  · simp only [serverDelOneClientFd, hs, ok_bind, Heap.load_some hv, hcg, hdel,
      hinfos, hdetach, Heap.free_some ha₁]
  · rw [hmap]
    exact hclients
  · intro ci hne
    have hci : ci ≠ a := by
      rintro rfl
      exact hne (put_self chain ci [])
    rw [put_ne _ hci] at hne
    obtain ⟨b, hb⟩ := hok.registered ci hne
    refine ⟨b, ?_⟩
    by_cases hbk : b = getHash cfd
    · rw [hbk, put_self]
      exact (List.mem_erase_of_ne hci).mpr (hbk ▸ hb)
    · rw [put_ne _ hbk]
      exact hb

theorem serverDelOneClientFd_spec (hok : reg.Ok member chain bucket) (cfd : Int) :
    (serverDelOneClientFd reg (some (getHash cfd)) cfd = .ok (false, reg) ∧
        ∀ a ∈ bucket (getHash cfd), ∀ v, reg.infos.cell a = some v → v.cfd ≠ cfd) ∨
      ∃ reg' a v, serverDelOneClientFd reg (some (getHash cfd)) cfd
        = .ok (true, reg') ∧
        Removed reg reg' chain bucket a cfd v := by
  rcases serverDelOneClientFd_exact hok cfd with hnone | ⟨reg', a, v, hrun, hparted⟩
  · exact Or.inl hnone
  · exact Or.inr ⟨reg', a, v, hrun, hparted.removed⟩

end Calls

/-! ## Flags -/

/-- A `client_info` up to the job its client was given. -/
def ClientInfo.identity (v : ClientInfo) : ClientInfo :=
  { v with busy := false, jn := none }

/-- The clients are the same, except for the jobs they were given. -/
structure SameClients (reg reg' : Registry) : Prop where
  groups : reg'.groups = reg.groups
  multicastGroups : reg'.multicastGroups = reg.multicastGroups
  clientHashMap : reg'.clientHashMap = reg.clientHashMap
  next : reg'.infos.next = reg.infos.next
  infos : ∀ c, (reg'.infos.cell c).map ClientInfo.identity
    = (reg.infos.cell c).map ClientInfo.identity

namespace SameClients

variable {reg reg' reg'' : Registry}

theorem refl (reg : Registry) : SameClients reg reg :=
  ⟨rfl, rfl, rfl, rfl, fun _ => rfl⟩

theorem trans (h : SameClients reg reg') (h' : SameClients reg' reg'') :
    SameClients reg reg'' :=
  ⟨h'.groups.trans h.groups, h'.multicastGroups.trans h.multicastGroups,
    h'.clientHashMap.trans h.clientHashMap, h'.next.trans h.next,
    fun c => (h'.infos c).trans (h.infos c)⟩

theorem set {c : Nat} {v w : ClientInfo} (hv : reg.infos.cell c = some v)
    (hw : w.identity = v.identity) :
    SameClients reg { reg with infos := reg.infos.set c (some w) } :=
  ⟨rfl, rfl, rfl, rfl, Heap.map_cell_set ClientInfo.identity hv hw⟩

theorem cell (h : SameClients reg reg') {c : Nat} {v : ClientInfo}
    (hv : reg.infos.cell c = some v) :
    ∃ v', reg'.infos.cell c = some v' ∧ v'.identity = v.identity := by
  have hc := h.infos c
  rw [hv, Option.map_some] at hc
  exact Option.map_eq_some_iff.mp hc

theorem search (h : SameClients reg reg') (cih : Nat) (cfd : Int) :
    serverSearchClientFd reg' cih cfd = serverSearchClientFd reg cih cfd := by
  unfold serverSearchClientFd
  rw [h.clientHashMap, h.next]
  refine Heap.chase_congr (fun c => ?_) _ _
  have hc :=
    congrArg (Option.map fun v : ClientInfo => (v.r, v.cfd == cfd)) (h.infos c)
  rw [Option.map_map, Option.map_map] at hc
  exact hc

theorem wellFormed (h : SameClients reg reg') (hok : reg.WellFormed) :
    reg'.WellFormed := by
  obtain ⟨member, chain, bucket, hgroups, hclients, hregistered⟩ := hok
  refine ⟨member, chain, bucket, ?_,
    ⟨fun b => ?_, hclients.nodup, ?_, fun b a ha => ?_⟩, hregistered⟩
  · rw [h.groups, h.multicastGroups]
    exact hgroups
  · rw [h.clientHashMap]
    refine (hclients.list b).frame (fun a _ v hv => ?_) fun _ h => h
    obtain ⟨v', hv', heq⟩ := h.cell hv
    exact ⟨v', hv', congrArg (fun u => u.r) heq, congrArg (fun u => u.l) heq⟩
  · rw [h.clientHashMap]
    exact hclients.count
  · obtain ⟨v, hv, hhash, hcg, htgid, hne⟩ := hclients.client b a ha
    obtain ⟨v', hv', heq⟩ := h.cell hv
    have hcfd : v'.cfd = v.cfd := congrArg (fun u => u.cfd) heq
    have hcg' : v'.cg = v.cg := congrArg (fun u => u.cg) heq
    have htgid' : v'.tgid = v.tgid := congrArg (fun u => u.tgid) heq
    exact ⟨v', hv', by rw [hcfd, hhash], by rw [hcg', hcg], by
      rw [htgid', htgid], hne⟩

end SameClients

end Pyramid
