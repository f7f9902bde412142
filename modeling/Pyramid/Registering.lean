/-
# `Pyramid.Registering` — registration is all or nothing, and undone by deletion

A registry is determined by its lists: the `client_group` records have the
links, the chain and the group that their places in the lists give them
(`GroupsOk.determined`), and the `client_info` records their links
(`ClientsOk.determined`).  So to say that a call has restored the registry it
is enough to say that it has restored the lists.  A registration that fails at
its k-th group takes the k - 1 nodes it has put in front of the lists out again;
one that succeeds leaves one for every group id, and the deletion of its
client takes out exactly these.
-/
import Pyramid.Sessions

namespace Pyramid

/-! ## What the lists determine -/

/-- A `client_group` up to its place in the list of its group. -/
def ClientGroup.unlinked (v : ClientGroup) : ClientGroup :=
  { v with p := none, n := none }

theorem Head.eq_of {x y : Head} (hh : x.h = y.h) (htc : x.tc = y.tc) : x = y := by
  cases x
  cases y
  cases hh
  cases htc
  rfl

section Determined
variable {gs gs' : Heap ClientGroup} {heads heads' : Nat → Head}
  {member member' chain chain' : Nat → List Nat}
  {infos infos' : Heap ClientInfo} {map map' : Nat → Head} {bucket : Nat → List Nat}

/-- The nodes of a client that is in the same groups are the
same, up to their places. -/
theorem GroupsOk.keeps (hok : GroupsOk gs heads member chain)
    (hok' : GroupsOk gs' heads' member' chain') {ci x : Nat} (hx : x ∈ chain ci)
    (hchain : chain' ci = chain ci)
    (hgid : ∀ gid, Tagged gs x ci gid → Tagged gs' x ci gid) :
    (gs'.cell x).map ClientGroup.unlinked
      = (gs.cell x).map ClientGroup.unlinked := by
  obtain ⟨g, -, htag, -⟩ := hok.placed ci x hx
  obtain ⟨v, hv, hci, hg⟩ := id htag
  obtain ⟨v', hv', hci', hg'⟩ := hgid _ htag
  have hpath' := hok'.path ci
  rw [hchain] at hpath'
  have hncg := (hok.path ci).determined hpath' x hx
  rw [hv, hv', Option.map_some, Option.map_some] at hncg
  rw [hv, hv', Option.map_some, Option.map_some, ClientGroup.unlinked,
    ClientGroup.unlinked, hci', hci, hg', hg, Option.some.inj hncg]

/-- The heads and the nodes of the groups can be told from the lists. -/
theorem GroupsOk.determined (hok : GroupsOk gs heads member chain)
    (hok' : GroupsOk gs' heads' member chain) :
    (∀ g, heads' g = heads g) ∧ ∀ g, ∀ x ∈ member g, gs'.cell x = gs.cell x := by
  have hlist := fun g => (hok.list g).determined (hok'.list g)
  refine ⟨fun g => ?_, fun g x hx => ?_⟩
  · exact Head.eq_of (hlist g).1 ((hok'.count g).trans (hok.count g).symm)
  · obtain ⟨ci, htag, hchain⟩ := hok.owned g x hx
    obtain ⟨ci', htag', hchain'⟩ := hok'.owned g x hx
    have hsame := hok.keeps hok' hchain rfl fun gid h => by
      rw [hok.chain_unique hchain hchain', (h.unique htag).2]
      exact htag'
    have hlinks := (hlist g).2 x hx
    obtain ⟨v, hv, -⟩ := htag
    obtain ⟨v', hv', -⟩ := htag'
    rw [hv, hv', Option.map_some, Option.map_some] at hsame hlinks
    rw [hv, hv']
    cases v
    cases v'
    simp only [ClientGroup.unlinked, groupLinks, Option.some.injEq, Prod.mk.injEq,
      ClientGroup.mk.injEq] at *
    tauto

/-- With the clients the same up to their places, the buckets
determine the records. -/
theorem ClientsOk.determined (hok : ClientsOk infos map bucket chain)
    (hok' : ClientsOk infos' map' bucket chain')
    (hsame : ∀ b, ∀ a ∈ bucket b, (infos'.cell a).map ClientInfo.unlinked
      = (infos.cell a).map ClientInfo.unlinked) :
    (∀ b, map' b = map b) ∧ ∀ b, ∀ a ∈ bucket b, infos'.cell a = infos.cell a := by
  have hlist := fun b => (hok.list b).determined (hok'.list b)
  refine ⟨fun b => ?_, fun b a ha => ?_⟩
  · exact Head.eq_of (hlist b).1 ((hok'.count b).trans (hok.count b).symm)
  · have hdata := hsame b a ha
    have hlinks := (hlist b).2 a ha
    obtain ⟨v, hv, -⟩ := hok.client b a ha
    obtain ⟨v', hv', -⟩ := hok'.client b a ha
    rw [hv, hv', Option.map_some, Option.map_some] at hdata hlinks
    rw [hv, hv']
    cases v
    cases v'
    simp only [ClientInfo.unlinked, infoLinks, Option.some.injEq, Prod.mk.injEq,
      ClientInfo.mk.injEq] at *
    tauto

end Determined

/-! ## What the calls do -/

/-- The lists of all groups and buckets are the same: their heads, and the records in
them with all their fields. -/
structure SameLists (reg reg' : Registry) : Prop where
  heads : ∀ g, reg'.multicastGroups g = reg.multicastGroups g
  members : ∀ g, reg'.members g = reg.members g
  nodes : ∀ g, ∀ x ∈ reg.members g, reg'.groups.cell x = reg.groups.cell x
  buckets : ∀ b, reg'.clientHashMap b = reg.clientHashMap b
  clients : ∀ b, reg'.clients b = reg.clients b
  infos : ∀ b, ∀ a ∈ reg.clients b, reg'.infos.cell a = reg.infos.cell a

/-- The nodes that are in the lists before and after are the
same, up to their places. -/
def KeepsNodes (reg reg' : Registry) : Prop :=
  ∀ g, ∀ x ∈ reg.members g, x ∈ reg'.members g →
    (reg'.groups.cell x).map ClientGroup.unlinked
      = (reg.groups.cell x).map ClientGroup.unlinked

/-- The client at `a` is new, first in its bucket, and has one of the nodes `news`
first in the lists of its groups for every one of `gids`. -/
structure Joins (reg reg' : Registry) (cfd : Int) (gids : List Nat) (a : Nat)
    (news : List Nat) : Prop where
  wellFormed : reg'.WellFormed
  client : ∃ v, reg'.infos.cell a = some v ∧ v.cfd = cfd
  fresh : ∀ b, a ∉ reg.clients b
  front : reg'.clients (getHash cfd) = a :: reg.clients (getHash cfd)
  buckets : ∀ b, b ≠ getHash cfd → reg'.clients b = reg.clients b
  nodes : List.Forall₂ (fun x gid => Tagged reg'.groups x a gid) news gids.reverse
  new : ∀ x ∈ news, ∀ g, x ∉ reg.members g
  distinct : news.Nodup
  members : ∀ g, reg'.members g = newsFor news gids.reverse g ++ reg.members g
  counts : ∀ g, (newsFor news gids.reverse g).length = gids.count (g + 1)
  kept : KeepsNodes reg reg'
  infos : KeepsInfos reg.infos reg'.infos a

/-- The client at `a`, the first one for `cfd`, is gone, and with it all its nodes,
which are `nodes`. -/
structure Leaves (reg reg' : Registry) (cfd : Int) (a : Nat)
    (nodes : List Nat) : Prop where
  wellFormed : reg'.WellFormed
  client : ∃ v, reg.infos.cell a = some v ∧ v.cfd = cfd
  first : ∃ pre post, reg.clients (getHash cfd) = pre ++ a :: post ∧
    (∀ c ∈ pre, ∀ w, reg.infos.cell c = some w → w.cfd ≠ cfd) ∧
    reg'.clients (getHash cfd) = pre ++ post
  buckets : ∀ b, b ≠ getHash cfd → reg'.clients b = reg.clients b
  all : ∀ x, x ∈ nodes ↔ ∃ g, x ∈ reg.members g ∧ Tagged reg.groups x a (g + 1)
  freed : reg'.infos.cell a = none ∧ ∀ x, reg'.groups.cell x = none ↔
    x ∈ nodes ∨ reg.groups.cell x = none
  members : ∀ g, reg'.members g = without nodes (reg.members g)
  counts : ∀ g, (reg'.multicastGroups g).tc + (reg.members g).countP (· ∈ nodes)
    = (reg.multicastGroups g).tc
  kept : KeepsNodes reg reg'
  infos : KeepsInfos reg.infos reg'.infos a

section Calls
variable {supply : Supply} {reg reg' reg'' : Registry}
  {member member' chain chain' bucket bucket' : Nat → List Nat}

theorem SameLists.of_ok (hok : reg.Ok member chain bucket)
    (hok' : reg'.Ok member chain bucket)
    (hinfos : ∀ b, ∀ a ∈ bucket b, (reg'.infos.cell a).map ClientInfo.unlinked
      = (reg.infos.cell a).map ClientInfo.unlinked) : SameLists reg reg' := by
  obtain ⟨hheads, hnodes⟩ := hok.groups.determined hok'.groups
  obtain ⟨hbuckets, hcells⟩ := hok.clients.determined hok'.clients hinfos
  refine ⟨hheads, fun g => ?_, fun g => ?_, hbuckets, fun b => ?_, fun b => ?_⟩
  · rw [hok.members_eq, hok'.members_eq]
  · rw [hok.members_eq]
    exact hnodes g
  · rw [hok.clients_eq, hok'.clients_eq]
  · rw [hok.clients_eq]
    exact hcells b

/-- Clients that have the chains they had keep their nodes. -/
theorem KeepsNodes.of_ok (hok : reg.Ok member chain bucket)
    (hok' : reg'.Ok member' chain' bucket')
    (hchain : ∀ c x, x ∈ chain c → ∀ d, x ∈ chain' d → d = c ∧ chain' c = chain c) :
    KeepsNodes reg reg' := by
  intro g x hx hx'
  rw [hok.members_eq] at hx
  rw [hok'.members_eq] at hx'
  obtain ⟨c, htag, hmem⟩ := hok.groups.owned g x hx
  obtain ⟨d, htag', hmem'⟩ := hok'.groups.owned g x hx'
  obtain ⟨rfl, hsame⟩ := hchain c x hmem d hmem'
  refine hok.groups.keeps hok'.groups hmem hsame fun gid h => ?_
  rw [(h.unique htag).2]
  exact htag'

theorem length_newsFor {news gids : List Nat} (hlen : news.length = gids.length)
    (g : Nat) :
    (newsFor news gids g).length = gids.count (g + 1) := by
  have hsnd : (news.zip gids).map Prod.snd = gids :=
    List.map_snd_zip (Nat.le_of_eq hlen.symm)
  rw [newsFor, List.length_map, ← List.countP_eq_length_filter, List.count]
  conv_rhs => rw [← hsnd]
  rw [List.countP_map]
  rfl

theorem length_without (L xs : List Nat) :
    (without L xs).length + xs.countP (· ∈ L) = xs.length := by
  rw [without, ← List.countP_eq_length_filter, Nat.add_comm,
    List.length_eq_countP_add_countP (· ∈ L)]
  simp

theorem Registry.Ok.not_in_bucket (hok : reg.Ok member chain bucket) (b : Nat) :
    reg.infos.next ∉ bucket b := by
  intro hmem
  obtain ⟨v, hv⟩ := (hok.clients.list b).cell_of_mem hmem
  rw [reg.infos.fresh _ (Nat.le_refl _)] at hv
  cases hv

variable {cfd : Int} {gids news : List Nat} {a : Nat} {v : ClientInfo}

/-- The nodes of the new client are none of those that were there. -/
theorem Joined.new (hok : reg.Ok member chain bucket)
    (h : Joined reg reg' member chain bucket reg.infos.next cfd gids news v) :
    (∀ c x, x ∈ chain c → x ∉ news) ∧ ∀ g, ∀ x ∈ member g, x ∉ news := by
  have hchain : ∀ c x, x ∈ chain c → x ∉ news := by
    intro c x hx hnew
    have hc : c ≠ reg.infos.next := by
      rintro rfl
      rw [hok.chain_fresh] at hx
      exact absurd hx List.not_mem_nil
    refine hc (h.ok.groups.chain_unique (x := x) ?_ ?_)
    · rw [put_ne _ hc]
      exact hx
    · rw [put_self]
      exact hnew
  refine ⟨hchain, fun g x hx => ?_⟩
  obtain ⟨c, -, hmem⟩ := hok.groups.owned g x hx
  exact hchain c x hmem

theorem Joined.joins (hok : reg.Ok member chain bucket)
    (h : Joined reg reg' member chain bucket reg.infos.next cfd gids news v) :
    Joins reg reg' cfd gids reg.infos.next news := by
  obtain ⟨hnew, hmember⟩ := h.new hok
  have hlen : news.length = gids.reverse.length := h.carries.length_eq
  refine ⟨⟨_, _, _, h.ok⟩, ⟨v, h.cell, h.fd⟩, fun b => ?_, ?_, fun b hb => ?_, ?_,
    fun x hx g hmem => ?_, ?_, fun g => ?_, fun g => ?_,
    KeepsNodes.of_ok hok h.ok fun c x hx d hd => ?_, h.others⟩
  · rw [hok.clients_eq]
    exact hok.not_in_bucket b
  · rw [h.ok.clients_eq, hok.clients_eq, put_self]
  · rw [h.ok.clients_eq, hok.clients_eq, put_ne _ hb]
  · have htags : ∀ x ∈ news, ∃ gid, Tagged reg'.groups x reg.infos.next gid := by
      intro x hx
      obtain ⟨g, -, htag, -⟩ :=
        h.ok.groups.placed reg.infos.next x (by rw [put_self]; exact hx)
      exact ⟨_, htag⟩
    refine ((List.forall₂_and_left _ _).mpr ⟨htags, h.carries⟩).imp ?_
    rintro x gid ⟨⟨gid', w, hw, hci, hgid'⟩, w', hw', hgid⟩
    cases hw.symm.trans hw'
    exact ⟨w, hw, hci, hgid⟩
  · rw [hok.members_eq] at hmem
    exact hmember g x hmem hx
  · have hsimple := h.ok.groups.simple reg.infos.next
    rwa [put_self] at hsimple
  · rw [h.ok.members_eq, hok.members_eq]
  · rw [length_newsFor hlen, List.count_reverse]
  · have hc : c ≠ reg.infos.next := by
      rintro rfl
      rw [hok.chain_fresh] at hx
      exact absurd hx List.not_mem_nil
    refine ⟨h.ok.groups.chain_unique hd ?_, put_ne _ hc _⟩
    rw [put_ne _ hc]
    exact hx

theorem Parted.leaves (hok : reg.Ok member chain bucket)
    (h : Parted reg reg' member chain bucket a cfd v) :
    Leaves reg reg' cfd a (chain a) := by
  obtain ⟨pre, post, hsplit, hpre⟩ := h.first
  have hnd := hok.clients.nodup (getHash cfd)
  rw [hsplit] at hnd
  have hapre : a ∉ pre :=
    fun hmem => (List.nodup_append.mp hnd).2.2 a hmem a (by simp) rfl
  refine ⟨⟨_, _, _, h.ok⟩, ⟨v, h.cell, h.fd⟩, ⟨pre, post, ?_, hpre, ?_⟩,
    fun b hb => ?_, fun x => ?_, ⟨h.gone, h.freed⟩, fun g => ?_, fun g => ?_,
    KeepsNodes.of_ok hok h.ok fun c x hx d hd => ?_, h.others⟩
  · rw [hok.clients_eq, hsplit]
  · rw [h.ok.clients_eq, put_self, hsplit, List.erase_append_right _ hapre,
      List.erase_cons_head]
  · rw [h.ok.clients_eq, hok.clients_eq, put_ne _ hb]
  · constructor
    · intro hx
      obtain ⟨g, -, htag, hmem⟩ := hok.groups.placed a x hx
      exact ⟨g, by rw [hok.members_eq]; exact hmem, htag⟩
    · rintro ⟨g, hmem, htag⟩
      rw [hok.members_eq] at hmem
      obtain ⟨c, htag', hx⟩ := hok.groups.owned g x hmem
      rwa [(htag.unique htag').1]
  · rw [h.ok.members_eq, hok.members_eq]
  · rw [h.ok.groups.count, hok.groups.count, hok.members_eq]
    exact length_without _ _
  · have hda : d ≠ a := by
      rintro rfl
      rw [put_self] at hd
      exact absurd hd List.not_mem_nil
    rw [put_ne _ hda] at hd
    obtain rfl := hok.groups.chain_unique hd hx
    exact ⟨rfl, put_ne _ hda _⟩

end Calls

/-! ## Registration and deletion -/

/-- A registration puts the client and all its nodes in front of the lists, or leaves
all lists as they were. -/
theorem registration_all_or_nothing (supply : Supply) {reg : Registry}
    (hwf : reg.WellFormed) (cfd : Int) (sa : SockAddr) (gids : List Nat) :
    ∃ b reg',
      serverAddOneNewClientFd supply reg (serverGetClientInfoHead cfd) cfd sa gids
        = .ok (b, reg') ∧
      ((b = true ∧ ∃ a news, Joins reg reg' cfd gids a news) ∨
        (b = false ∧ reg'.WellFormed ∧ SameLists reg reg')) := by
  obtain ⟨member, chain, bucket, hok⟩ := hwf
  obtain ⟨b, reg', hrun, ⟨hb, hrestored, -⟩ | ⟨hb, -, news, v, hjoined⟩⟩ :=
    serverAddOneNewClientFd_spec supply hok cfd sa gids
  · exact ⟨b, reg', hrun, Or.inr ⟨hb, ⟨_, _, _, hrestored.ok⟩,
      SameLists.of_ok hok hrestored.ok fun _ a _ => by rw [hrestored.infos]⟩⟩
  · exact ⟨b, reg', hrun, Or.inl ⟨hb, _, news, hjoined.joins hok⟩⟩

/-- There are two clients, one of them in the bucket of 5.  Client 5 may have two
places of group 1; asking for group 2000 as well, it gets none. -/
theorem registration_all_or_nothing_sample : ∃ s,
    runs (Session.step Supply.zeros) [.add 6 ⟨0, 0⟩ [1, 3],
      .add 260 ⟨0, 0⟩ [1]] Session.start = .ok s ∧
      (∃ reg', serverAddOneNewClientFd Supply.zeros s.reg 5 5 ⟨0, 0⟩ [1, 1]
        = .ok (true, reg') ∧
        ∃ a news, Joins s.reg reg' 5 [1, 1] a news) ∧
      ∃ reg', serverAddOneNewClientFd Supply.zeros s.reg 5 5 ⟨0, 0⟩ [1, 1, 2000]
        = .ok (false, reg') ∧
        SameLists s.reg reg' := by
  obtain ⟨s, hruns, hwf⟩ := runs_total (fun s : Session => s.reg.WellFormed)
    (Session.step_wellFormed Supply.zeros) [.add 6 ⟨0, 0⟩ [1, 3],
      .add 260 ⟨0, 0⟩ [1]]
    (⟨_, _, _, Registry.zeroed_ok⟩ : Session.start.reg.WellFormed)
  obtain ⟨b, reg', hrun, hcases⟩ :=
    registration_all_or_nothing Supply.zeros hwf 5 ⟨0, 0⟩ [1, 1]
  obtain ⟨b', reg'', hrun', hcases'⟩ :=
    registration_all_or_nothing Supply.zeros hwf 5 ⟨0, 0⟩ [1, 1, 2000]
  have hfive : serverGetClientInfoHead 5 = 5 := by decide
  rw [hfive] at hrun hrun'
  have hbs :
      (runs (Session.step Supply.zeros) [.add 6 ⟨0, 0⟩ [1, 3], .add 260 ⟨0, 0⟩ [1]]
      Session.start).toOption.map (fun s =>
        ((serverAddOneNewClientFd Supply.zeros s.reg 5 5 ⟨0, 0⟩ [1, 1]).toOption.map
          (·.1), (serverAddOneNewClientFd Supply.zeros s.reg 5 5 ⟨0, 0⟩ [1, 1,
            2000]).toOption.map (·.1)))
      = some (some true, some false) := by decide +kernel
  rw [hruns] at hbs
  obtain ⟨hb, hb'⟩ := Prod.mk.inj (Option.some.inj hbs)
  rw [hrun] at hb
  rw [hrun'] at hb'
  cases Option.some.inj hb
  cases Option.some.inj hb'
  refine ⟨s, hruns, ⟨reg', hrun, ?_⟩, reg'', hrun', ?_⟩
  · rcases hcases with ⟨-, hjoins⟩ | ⟨hno, -⟩
    · exact hjoins
    · cases hno
  · rcases hcases' with ⟨hno, -⟩ | ⟨-, -, hsame⟩
    · cases hno
    · exact hsame

/-- A client that has just been registered is the one that is deleted. -/
theorem Joined.deleted {reg reg₁ : Registry} {member chain bucket : Nat → List Nat}
    {cfd : Int} {gids news : List Nat} {v : ClientInfo}
    (hok : reg.Ok member chain bucket)
    (h : Joined reg reg₁ member chain bucket reg.infos.next cfd gids news v) :
    ∃ reg₂, serverDelOneClientFd reg₁ (some (getHash cfd)) cfd = .ok (true, reg₂) ∧
      reg₂.WellFormed ∧ SameLists reg reg₂ := by
  obtain ⟨hnew, hmember⟩ := h.new hok
  rcases serverDelOneClientFd_exact h.ok cfd with
    ⟨-, hnone⟩ | ⟨reg₂, a, w, hrun, hparted⟩
  · exact absurd h.fd (hnone _ (by rw [put_self]; exact List.mem_cons_self) v h.cell)
  obtain ⟨pre, post, hsplit, hpre⟩ := hparted.first
  rw [put_self] at hsplit
  obtain ⟨rfl, rfl⟩ : pre = [] ∧ a = reg.infos.next := by
    cases pre with
    | nil => exact ⟨rfl, (List.cons.inj hsplit).1.symm⟩
    | cons c pre =>
        have hc : c = reg.infos.next := (List.cons.inj hsplit).1.symm
        exact absurd h.fd (hpre c List.mem_cons_self v (hc ▸ h.cell))
  have hok₂ := hparted.ok
  rw [put_put, put_put, put_self, put_self, List.erase_cons_head,
    put_eq_self hok.chain_fresh, put_eq_self rfl] at hok₂
  have hlists : (fun g => without news (newsFor news gids.reverse g ++ member g))
      = member := by
    funext g
    have hall : ∀ x ∈ newsFor news gids.reverse g, x ∈ news := by
      intro x hx
      obtain ⟨y, hy, rfl⟩ := List.mem_map.mp hx
      exact (List.of_mem_zip (List.mem_filter.mp hy).1).1
    have hkeep := without_of_disjoint (hmember g)
    rw [without] at hkeep ⊢
    rw [List.filter_append, hkeep, List.filter_eq_nil_iff.mpr, List.nil_append]
    intro x hx
    simpa using hall x hx
  rw [hlists] at hok₂
  refine ⟨reg₂, hrun, ⟨_, _, _, hok₂⟩, SameLists.of_ok hok hok₂ fun b c hc => ?_⟩
  have hne : c ≠ reg.infos.next := by
    rintro rfl
    exact hok.not_in_bucket b hc
  exact (hparted.others c hne).trans (h.others c hne)

/-- A deletion takes out the first client for the descriptor, with all its nodes and
nothing else; after a registration that is all that it added. -/
theorem deletion_exact {reg : Registry} (hwf : reg.WellFormed) (cfd : Int) :
    ((serverDelOneClientFd reg (some (serverGetClientInfoHead cfd)) cfd
      = .ok (false, reg) ∧
        ∀ a ∈ reg.clients (getHash cfd), ∀ v, reg.infos.cell a = some v →
        v.cfd ≠ cfd) ∨
      ∃ reg' a nodes,
      serverDelOneClientFd reg (some (serverGetClientInfoHead cfd)) cfd
        = .ok (true, reg') ∧
        Leaves reg reg' cfd a nodes) ∧
    ∀ supply sa gids reg₁,
      serverAddOneNewClientFd supply reg (serverGetClientInfoHead cfd) cfd sa gids
        = .ok (true, reg₁) →
      ∃ reg₂, serverDelOneClientFd reg₁ (some (serverGetClientInfoHead cfd)) cfd
        = .ok (true, reg₂) ∧
        reg₂.WellFormed ∧ SameLists reg reg₂ := by
  obtain ⟨member, chain, bucket, hok⟩ := hwf
  constructor
  · rcases serverDelOneClientFd_exact hok cfd with
      ⟨hrun, hnone⟩ | ⟨reg', a, v, hrun, hparted⟩
    · exact Or.inl ⟨hrun, by rw [hok.clients_eq]; exact hnone⟩
    · exact Or.inr ⟨reg', a, _, hrun, hparted.leaves hok⟩
  · intro supply sa gids reg₁ hadd
    obtain ⟨b, reg', hrun, ⟨rfl, -⟩ | ⟨-, -, news, v, hjoined⟩⟩ :=
      serverAddOneNewClientFd_spec supply hok cfd sa gids
    · cases hadd.symm.trans hrun
    · cases hadd.symm.trans hrun
      exact hjoined.deleted hok

/-- With two clients there, the client of the descriptor 5 joins and is deleted; and
then the one that was there for 260, in the same bucket. -/
theorem deletion_exact_sample : ∃ s reg₁ reg₂,
    runs (Session.step Supply.zeros) [.add 6 ⟨0, 0⟩ [1, 3],
      .add 260 ⟨0, 0⟩ [1]] Session.start = .ok s ∧
      serverAddOneNewClientFd Supply.zeros s.reg 5 5 ⟨0, 0⟩ [1, 1]
        = .ok (true, reg₁) ∧
      serverDelOneClientFd reg₁ (some 5) 5 = .ok (true, reg₂) ∧
      SameLists s.reg reg₂ ∧
      ∃ reg₃ a nodes, serverDelOneClientFd reg₂ (some 5) 260 = .ok (true, reg₃) ∧
        Leaves reg₂ reg₃ 260 a nodes := by
  obtain ⟨s, hruns, hwf⟩ := runs_total (fun s : Session => s.reg.WellFormed)
    (Session.step_wellFormed Supply.zeros) [.add 6 ⟨0, 0⟩ [1, 3],
      .add 260 ⟨0, 0⟩ [1]]
    (⟨_, _, _, Registry.zeroed_ok⟩ : Session.start.reg.WellFormed)
  have hbs :
      (runs (Session.step Supply.zeros) [.add 6 ⟨0, 0⟩ [1, 3], .add 260 ⟨0, 0⟩ [1]]
      Session.start).toOption.bind (fun s =>
        (serverAddOneNewClientFd Supply.zeros s.reg 5 5 ⟨0, 0⟩ [1, 1]).toOption.bind
          fun r =>
          (serverDelOneClientFd r.2 (some 5) 5).toOption.bind fun r' =>
            (serverDelOneClientFd r'.2 (some 5) 260).toOption.map fun r'' =>
              (r.1, r'.1, r''.1))
      = some (true, true, true) := by decide +kernel
  rw [hruns] at hbs
  obtain ⟨s', hs', hbs⟩ := Option.bind_eq_some_iff.mp hbs
  cases hs'
  obtain ⟨⟨b, reg₁⟩, hadd, hbs⟩ := Option.bind_eq_some_iff.mp hbs
  obtain ⟨⟨b', reg'⟩, hdel, hbs⟩ := Option.bind_eq_some_iff.mp hbs
  obtain ⟨⟨b'', reg₃⟩, hlast, hbs⟩ := Option.map_eq_some_iff.mp hbs
  simp only [Prod.mk.injEq] at hbs
  obtain ⟨rfl, rfl, rfl⟩ := hbs
  have hrun := ok_of_toOption hadd
  obtain ⟨reg₂, hrun₂, hwf₂, hsame⟩ :=
    (deletion_exact hwf 5).2 Supply.zeros ⟨0, 0⟩ [1, 1] reg₁ hrun
  cases hrun₂.symm.trans (ok_of_toOption hdel)
  refine ⟨s, reg₁, reg', hruns, hrun, hrun₂, hsame, ?_⟩
  rcases (deletion_exact hwf₂ 260).1 with ⟨hno, -⟩ | hleaves
  · cases hno.symm.trans (ok_of_toOption hlast)
  · exact hleaves

end Pyramid
