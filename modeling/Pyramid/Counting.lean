/-
# `Pyramid.Counting` — whether `tc` counts the clients of a group

`tc` is the length of the list of the group: every node that is put in or taken
out is counted.  Nothing looks whether a client has a node there already, so
the length is the number of clients only as long as no registration that goes
through has a group id twice (`counts_clients_iff`).
-/
import Pyramid.Registering
import Pyramid.Members
import Mathlib.Data.List.Dedup

namespace Pyramid

/-- The `tc` of every group is the number of the clients in its list, and each of
them is there only once. -/
def Registry.CountsClients (reg : Registry) : Prop :=
  ∀ gid cgh, serverGetClientGidHead gid = some cgh →
    (reg.multicastGroups cgh).tc = (reg.clientsIn gid).dedup.length ∧
      ∀ c, (reg.clientsIn gid).count c ≤ 1

/-- The registration goes through, and asks for some group more than once. -/
def Repeats (supply : Supply) (s : Session) : RegistryCall → Prop
  | .del _ => False
  | .add _ _ gids =>
      ¬ gids.Nodup ∧ gids.length ≤ maxMulticastGroups ∧
        supply.info s.reg.infos.next ≠ none ∧
      (∀ i, i < gids.length → supply.group (s.reg.groups.next + i) ≠ none) ∧
      (∀ gid ∈ gids, serverIsMulticastGroupValid gid = true) ∧
      ∀ g, (s.reg.multicastGroups g).tc + gids.count (g + 1)
        ≤ maxClientsPerMulticastGroup

section Counting
variable {reg reg' : Registry} {member chain bucket : Nat → List Nat} {cfd : Int}
  {a gid g : Nat}
  {gids news nodes : List Nat}

theorem clientsIn_members (hgid : serverGetClientGidHead gid = some g) :
    reg.clientsIn gid = (reg.members g).filterMap fun x =>
      (reg.groups.cell x).bind (·.ci) := by
  rw [clientsIn_eq hgid]
  rfl

/-- Every node of a list is somebody's. -/
theorem Registry.Ok.length_clientsIn (hok : reg.Ok member chain bucket)
    (hgid : serverGetClientGidHead gid = some g) :
    (reg.clientsIn gid).length = (reg.multicastGroups g).tc := by
  rw [clientsIn_members hgid, hok.groups.count, hok.members_eq,
    List.length_filterMap_eq_countP, List.countP_eq_length]
  intro x hx
  obtain ⟨c, ⟨v, hv, hci, -⟩, -⟩ := hok.groups.owned g x hx
  rw [hv, Option.bind_some, hci]
  rfl

/-- The count is right where nobody is listed twice. -/
theorem Registry.Ok.countsClients_iff (hok : reg.Ok member chain bucket) :
    reg.CountsClients ↔ ∀ gid g, serverGetClientGidHead gid = some g →
      (reg.clientsIn gid).Nodup := by
  refine forall_congr' fun gid => forall_congr' fun g =>
    imp_congr_right fun hgid => ?_
  rw [← hok.length_clientsIn hgid, ← List.nodup_iff_count_le_one]
  constructor
  · exact fun h => h.2
  · intro hnd
    exact ⟨by rw [List.dedup_eq_self.mpr hnd], hnd⟩

theorem SameLists.clientsIn (h : SameLists reg reg')
    (hgid : serverGetClientGidHead gid = some g) :
    reg'.clientsIn gid = reg.clientsIn gid := by
  rw [clientsIn_members hgid, clientsIn_members hgid, h.members]
  refine List.filterMap_congr fun x hx => ?_
  rw [h.nodes g x hx]

/-- Nodes that are kept are for the clients they were for. -/
theorem KeepsNodes.client (h : KeepsNodes reg reg') {x : Nat}
    (hx : x ∈ reg.members g) (hx' : x ∈ reg'.members g) :
    (reg'.groups.cell x).bind (·.ci) = (reg.groups.cell x).bind (·.ci) := by
  have hci := congrArg (fun o => o.bind fun v : ClientGroup => v.ci) (h g x hx hx')
  rwa [Option.bind_map, Option.bind_map] at hci

/-- A client that comes is listed once for every time it asked for the group. -/
theorem Joins.clientsIn (h : Joins reg reg' cfd gids a news)
    (hgid : serverGetClientGidHead gid = some g) :
    reg'.clientsIn gid = List.replicate (gids.count gid) a ++ reg.clientsIn gid := by
  obtain ⟨rfl, -⟩ := serverGetClientGidHead_eq.mp hgid
  rw [clientsIn_members hgid, clientsIn_members hgid, h.members,
    List.filterMap_append, ← h.counts g]
  have htags : ∀ x ∈ news, ∃ gid, Tagged reg'.groups x a gid :=
    ((List.forall₂_and_left _ _).mp (h.nodes.imp fun _ gid htag =>
      ⟨⟨gid, htag⟩, htag⟩)).1
  refine congrArg₂ _ ?_ (List.filterMap_congr fun x hx => ?_)
  · have hnews : ∀ x ∈ newsFor news gids.reverse g, (reg'.groups.cell x).bind (·.ci)
        = some a := by
      intro x hx
      obtain ⟨y, hy, rfl⟩ := List.mem_map.mp hx
      obtain ⟨gid, v, hv, hci, -⟩ :=
        htags _ (List.of_mem_zip (List.mem_filter.mp hy).1).1
      rw [hv, Option.bind_some, hci]
    rw [List.filterMap_congr hnews]
    simp
  · exact h.kept.client hx (by rw [h.members]; exact List.mem_append_right _ hx)

theorem Leaves.clientsIn (h : Leaves reg reg' cfd a nodes)
    (hgid : serverGetClientGidHead gid = some g) :
    (reg'.clientsIn gid).Sublist (reg.clientsIn gid) := by
  have hsub : (without nodes (reg.members g)).Sublist (reg.members g) :=
    List.filter_sublist
  have hsame : ∀ x ∈ without nodes (reg.members g),
      (reg'.groups.cell x).bind (·.ci) = (reg.groups.cell x).bind (·.ci) :=
    fun x hx => h.kept.client (hsub.subset hx) (by rw [h.members]; exact hx)
  rw [clientsIn_members hgid, clientsIn_members hgid, h.members,
    List.filterMap_congr hsame]
  exact hsub.filterMap _

theorem SameLists.countsClients (h : SameLists reg reg')
    (hcounts : reg.CountsClients) : reg'.CountsClients := by
  intro gid cgh hgid
  rw [h.heads, h.clientsIn hgid]
  exact hcounts gid cgh hgid

/-- A new client is counted once in each of its groups, if it
has asked for each once. -/
theorem Joins.countsClients_iff (hok : reg.Ok member chain bucket)
    (hcounts : reg.CountsClients)
    (hvalid : ∀ gid ∈ gids, serverIsMulticastGroupValid gid = true)
    (h : Joins reg reg' cfd gids a news) :
    reg'.CountsClients ↔ gids.Nodup := by
  have hold := hok.countsClients_iff.mp hcounts
  obtain ⟨member', chain', bucket', hok'⟩ := h.wellFormed
  have hnot : ∀ gid, a ∉ reg.clientsIn gid := by
    intro gid hmem
    obtain ⟨x, hx, -⟩ := hok.mem_clientsIn.mp hmem
    obtain ⟨b, hb⟩ := hok.registered a (List.ne_nil_of_mem hx)
    exact h.fresh b (by rw [hok.clients_eq]; exact hb)
  rw [hok'.countsClients_iff, List.nodup_iff_count_le_one]
  constructor
  · intro hnd gid
    by_cases hmem : gid ∈ gids
    · have hgid : serverGetClientGidHead gid = some (gid - 1) := by
        rw [serverGetClientGidHead, if_pos (hvalid gid hmem)]
      have hrep := hnd gid (gid - 1) hgid
      rw [h.clientsIn hgid] at hrep
      exact List.nodup_replicate.mp (List.nodup_append.mp hrep).1
    · rw [List.count_eq_zero.mpr hmem]
      exact Nat.zero_le 1
  · intro hcount gid g hgid
    rw [h.clientsIn hgid, List.nodup_append]
    refine ⟨List.nodup_replicate.mpr (hcount gid), hold gid g hgid,
      fun c hc d hd heq => ?_⟩
    rw [List.eq_of_mem_replicate hc] at heq
    exact hnot gid (heq ▸ hd)

theorem Leaves.countsClients (hok : reg.Ok member chain bucket)
    (hcounts : reg.CountsClients) (h : Leaves reg reg' cfd a nodes) :
    reg'.CountsClients := by
  obtain ⟨member', chain', bucket', hok'⟩ := h.wellFormed
  refine hok'.countsClients_iff.mpr fun gid g hgid => ?_
  exact (h.clientsIn hgid).nodup (hok.countsClients_iff.mp hcounts gid g hgid)

end Counting

/-- One call keeps the counts right exactly when it is not such a registration. -/
theorem Session.step_countsClients (supply : Supply) (s : Session)
    (call : RegistryCall) (hwf : s.reg.WellFormed) (hcounts : s.reg.CountsClients) :
    ∃ s', s.step supply call = .ok s' ∧ s'.reg.WellFormed ∧
      (s'.reg.CountsClients ↔ ¬ Repeats supply s call) := by
  obtain ⟨member, chain, bucket, hok⟩ := hwf
  cases call with
  | add cfd sa gids =>
      have hadmits : Repeats supply s (.add cfd sa gids) →
          ¬ gids.Nodup ∧ gids.length ≤ maxMulticastGroups ∧
          supply.info s.reg.infos.next ≠ none ∧ gids ≠ [] ∧
          Admits supply member s.reg.groups.next gids := by
        rintro ⟨hdup, hmany, hinfo, hmemory, hvalid, hroom⟩
        refine ⟨hdup, hmany, hinfo, fun hnil => hdup (hnil ▸ List.nodup_nil),
          hmemory, hvalid, fun g => ?_⟩
        rw [← hok.groups.count]
        exact hroom g
      obtain ⟨reg', ⟨hmany, hrun, rfl⟩ | ⟨hrun, hfew, hcases⟩⟩ :=
        serverAddOneClientFd_exact supply hok cfd sa gids
      · refine ⟨⟨s.reg, some (.add cfd sa gids, false)⟩, ?_, ⟨_, _, _, hok⟩,
          iff_of_true hcounts fun h => ?_⟩
        · simp only [Session.step, serverGetClientInfoHead, hrun, ok_bind]
        · exact Nat.not_lt.mpr (hadmits h).2.1 hmany
      refine ⟨⟨reg', some (.add cfd sa gids, true)⟩, ?_, ?_⟩
      · simp only [Session.step, serverGetClientInfoHead, hrun, ok_bind]
      rcases hcases with ⟨hrestored, hfail⟩ | ⟨⟨hinfo, -, hadmit⟩, news, v, hjoined⟩
      · have hsame := SameLists.of_ok hok hrestored.ok fun _ a _ => by
          rw [hrestored.infos]
        exact ⟨⟨_, _, _, hrestored.ok⟩,
          iff_of_true (hsame.countsClients hcounts) fun h => hfail (hadmits h).2.2⟩
      · refine ⟨⟨_, _, _, hjoined.ok⟩, ?_⟩
        rw [(hjoined.joins hok).countsClients_iff hok hcounts hadmit.valid]
        constructor
        · exact fun hnd h => h.1 hnd
        · intro hno
          by_contra hdup
          refine hno ⟨hdup, hfew, hinfo, hadmit.memory, hadmit.valid, fun g => ?_⟩
          rw [hok.groups.count]
          exact hadmit.room g
  | del cfd =>
      rcases serverDelOneClientFd_exact hok cfd with
        ⟨hrun, -⟩ | ⟨reg', a, v, hrun, hparted⟩
      · refine ⟨⟨s.reg, some (.del cfd, false)⟩, ?_, ⟨_, _, _, hok⟩,
          iff_of_true hcounts id⟩
        simp only [Session.step, serverGetClientInfoHead, hrun, ok_bind]
      · refine ⟨⟨reg', some (.del cfd, true)⟩, ?_, ⟨_, _, _, hparted.ok⟩,
          iff_of_true ((hparted.leaves hok).countsClients hok hcounts) id⟩
        simp only [Session.step, serverGetClientInfoHead, hrun, ok_bind]

theorem zeroed_countsClients : Registry.zeroed.CountsClients := by
  refine Registry.zeroed_ok.countsClients_iff.mpr fun gid g hgid => ?_
  have hlen := Registry.zeroed_ok.length_clientsIn hgid
  rw [List.length_eq_zero_iff.mp (hlen.trans rfl)]
  exact List.nodup_nil

/-- The counts are right all through a run exactly when no registration of it that
goes through asks for a group twice. -/
theorem counts_clients_iff (supply : Supply) (calls : List RegistryCall) :
    (∀ pre post s, calls = pre ++ post →
      runs (Session.step supply) pre Session.start = .ok s →
        s.reg.CountsClients) ↔
      StepsMeet (Session.step supply) (fun s call => ¬ Repeats supply s call) calls
        Session.start :=
  runs_all_iff (fun s : Session => s.reg.WellFormed)
    (fun s call hwf hcounts => s.step_countsClients supply call hwf hcounts) calls
    ⟨_, _, _, Registry.zeroed_ok⟩ zeroed_countsClients

/-- Client 5 registers for group 1 twice: two places are taken,
and there is one client. -/
theorem client_counted_twice :
    ∃ s, runs (Session.step Supply.zeros) [.add 5 ⟨0, 0⟩ [1, 1]] Session.start
      = .ok s ∧
      (s.reg.multicastGroups 0).tc = 2 ∧ s.reg.clientsIn 1 = [0, 0] ∧
      ¬ s.reg.CountsClients := by
  refine ⟨_, rfl, by decide +kernel, by decide +kernel, fun hcounts => ?_⟩
  exact absurd (hcounts 1 0 rfl).1 (by decide +kernel)

end Pyramid
