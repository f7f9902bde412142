/-
# `Pyramid.Sessions` — runs of registrations and disconnects

A `Session` is the registry together with the last call and its result.  Every
run keeps the registry well formed (`registry_wellFormed`).  That a descriptor
has one record, the one it asked for, is true of fewer runs: adding a
descriptor that has a record prints that the old one is replaced and adds a
second one, and a registration that fails is reported as a success
(`second_join`).  It is true of the runs without either (`one_record`).

What a registry holds is read off by walking along its lists: `records`,
`groupIds`, `members`.
-/
import Mathlib.Data.List.Nodup
import Pyramid.Roster
import Pyramid.Runs

namespace Pyramid

/-! ## Runs of the registry -/

inductive RegistryCall where
  | add (cfd : Int) (sa : SockAddr) (gids : List Nat)
  | del (cfd : Int)

/-- The registry, with the last call made and what it returned. -/
structure Session where
  reg : Registry
  last : Option (RegistryCall × Bool)

def Session.start : Session := ⟨Registry.zeroed, none⟩

/-- One call, with the bucket of its descriptor. -/
def Session.step (supply : Supply) (s : Session) (call : RegistryCall) :
    Except Halt Session := do
  let (b, reg) ← match call with
    | .add cfd sa gids =>
        serverAddOneClientFd supply s.reg (some (serverGetClientInfoHead cfd))
          cfd sa gids
    | .del cfd => serverDelOneClientFd s.reg (some (serverGetClientInfoHead cfd)) cfd
  .ok ⟨reg, some (call, b)⟩

theorem Session.step_wellFormed (supply : Supply) (s : Session) (call : RegistryCall)
    (h : s.reg.WellFormed) : ∃ s', s.step supply call = .ok s' ∧
      s'.reg.WellFormed := by
  obtain ⟨member, chain, bucket, hok⟩ := h
  cases call with
  | add cfd sa gids =>
      obtain ⟨reg', ⟨-, hrun, rfl⟩ | ⟨hrun, hcases⟩⟩ :=
        serverAddOneClientFd_spec supply hok cfd sa gids
      · exact ⟨⟨s.reg, some (.add cfd sa gids, false)⟩,
          by simp only [Session.step, serverGetClientInfoHead, hrun, ok_bind],
          member, chain, bucket, hok⟩
      · refine ⟨⟨reg', some (.add cfd sa gids, true)⟩,
          by simp only [Session.step, serverGetClientInfoHead, hrun, ok_bind], ?_⟩
        rcases hcases with ⟨⟨⟨member', hok'⟩, -⟩, -⟩ | ⟨ys, v, hadded⟩
        · exact ⟨member', _, _, hok'⟩
        · obtain ⟨member', hok'⟩ := hadded.ok
          exact ⟨member', _, _, hok'⟩
  | del cfd =>
      rcases serverDelOneClientFd_spec hok cfd with
        ⟨hrun, -⟩ | ⟨reg', a, v, hrun, hremoved⟩
      · exact ⟨⟨s.reg, some (.del cfd, false)⟩,
          by simp only [Session.step, serverGetClientInfoHead, hrun, ok_bind],
          member, chain, bucket, hok⟩
      · obtain ⟨member', hok'⟩ := hremoved.ok
        exact ⟨⟨reg', some (.del cfd, true)⟩,
          by simp only [Session.step, serverGetClientInfoHead, hrun, ok_bind],
          member', _, _, hok'⟩

/-- **The registry.**  Every sequence of calls returns, and leaves a registry
whose lists are well formed and agree with each other. -/
theorem registry_wellFormed (supply : Supply) (calls : List RegistryCall) :
    ∃ s, runs (Session.step supply) calls Session.start = .ok s ∧ s.reg.WellFormed :=
  runs_total (fun s : Session => s.reg.WellFormed) (Session.step_wellFormed supply)
    calls ⟨_, _, _, Registry.zeroed_ok⟩

/-! ## What a registry holds -/

/-- The clients in the bucket `b`. -/
def Registry.clients (reg : Registry) (b : Nat) : List Nat :=
  reg.infos.trail (·.r) none reg.infos.next (reg.clientHashMap b).h

/-- The nodes in the list of the group with index `g`. -/
def Registry.members (reg : Registry) (g : Nat) : List Nat :=
  reg.groups.trail (·.n) none reg.groups.next (reg.multicastGroups g).h

/-- The records for a descriptor anywhere in the hash map. -/
def Registry.records (reg : Registry) (cfd : Int) : List Nat :=
  ((List.range maxHashmapSize).flatMap reg.clients).filter fun a =>
    match reg.infos.cell a with
    | none => false
    | some v => v.cfd == cfd

/-- The groups a record is registered for, the newest first. -/
def Registry.groupIds (reg : Registry) (a : Nat) : List (Option Nat) :=
  match reg.infos.cell a with
  | none => []
  | some v => (reg.groups.trail (·.ncg) none reg.groups.next v.cg).map fun x =>
      (reg.groups.cell x).map (·.gid)

/-- The descriptor a node of a group list mentions. -/
def Registry.fdOf (reg : Registry) (x : Nat) : Option Int := do
  let v ← reg.groups.cell x
  let ci ← v.ci
  let w ← reg.infos.cell ci
  some w.cfd

/-- One record per connection, after any call: no descriptor has two, a
successful `add` leaves the one it was asked for, and `del` leaves none, in the
map or in a group. -/
structure Session.OneRecord (s : Session) : Prop where
  unique : ∀ cfd, (s.reg.records cfd).length ≤ 1
  added : ∀ cfd sa gids, s.last = some (.add cfd sa gids, true) →
    ∃ a, s.reg.records cfd = [a] ∧ s.reg.groupIds a = gids.reverse.map some
  deleted : ∀ cfd b, s.last = some (.del cfd, b) → s.reg.records cfd = [] ∧
    ∀ g, ∀ x ∈ s.reg.members g, ∃ fd, s.reg.fdOf x = some fd ∧ fd ≠ cfd

namespace Registry.Ok

variable {reg : Registry} {member chain bucket : Nat → List Nat}

theorem clients_eq (hok : reg.Ok member chain bucket) (b : Nat) :
    reg.clients b = bucket b :=
  (hok.clients.list b).path.trail_eq
    ((hok.clients.list b).length_le (hok.clients.nodup b))

theorem members_eq (hok : reg.Ok member chain bucket) (g : Nat) :
    reg.members g = member g :=
  (hok.groups.list g).path.trail_eq
    ((hok.groups.list g).length_le (hok.groups.nodup g))

theorem mem_records (hok : reg.Ok member chain bucket) {cfd : Int} {a : Nat} :
    a ∈ reg.records cfd ↔
      a ∈ bucket (getHash cfd) ∧ ∃ v, reg.infos.cell a = some v ∧ v.cfd = cfd := by
  rw [Registry.records, List.mem_filter, List.mem_flatMap]
  constructor
  · rintro ⟨⟨b, -, ha⟩, hmatch⟩
    rw [hok.clients_eq] at ha
    obtain ⟨v, hv, hhash, -⟩ := hok.clients.client b a ha
    rw [hv] at hmatch
    have hcfd : v.cfd = cfd := eq_of_beq hmatch
    rw [hcfd] at hhash
    exact ⟨hhash ▸ ha, v, hv, hcfd⟩
  · rintro ⟨ha, v, hv, hcfd⟩
    refine ⟨⟨getHash cfd, List.mem_range.mpr (Nat.mod_lt _ (by decide)), ?_⟩, ?_⟩
    · rw [hok.clients_eq]
      exact ha
    · rw [hv]
      exact beq_iff_eq.mpr hcfd

theorem nodup_records (hok : reg.Ok member chain bucket) (cfd : Int) :
    (reg.records cfd).Nodup := by
  refine List.Nodup.filter _ (List.nodup_flatMap.mpr ⟨fun b _ => ?_, ?_⟩)
  · rw [hok.clients_eq]
    exact hok.clients.nodup b
  · refine List.Pairwise.imp (fun hne => ?_) List.nodup_range
    show List.Disjoint _ _
    rw [hok.clients_eq, hok.clients_eq]
    exact fun a ha ha' => hne (hok.clients.bucket_unique ha ha')

theorem groupIds_eq (hok : reg.Ok member chain bucket) {b a : Nat}
    (ha : a ∈ bucket b) {gids : List Nat} (hc : Carries reg.groups (chain a) gids) :
    reg.groupIds a = gids.map some := by
  obtain ⟨v, hv, -, hcg, -, -⟩ := hok.clients.client b a ha
  simp only [Registry.groupIds, hv, hcg]
  rw [(hok.groups.path a).trail_eq (hok.groups.chain_length_le a)]
  clear hcg hv
  generalize chain a = xs at hc ⊢
  induction hc with
  | nil => rfl
  | cons hx _ ih =>
      obtain ⟨w, hw, hgid⟩ := hx
      rw [List.map_cons, List.map_cons, ih, hw, Option.map_some, hgid]

theorem records_length_le (hok : reg.Ok member chain bucket) {cfd : Int}
    (h : ∀ a ∈ reg.records cfd, ∀ b ∈ reg.records cfd, a = b) :
    (reg.records cfd).length ≤ 1 := by
  have hnd := hok.nodup_records cfd
  match hl : reg.records cfd with
  | [] => exact Nat.zero_le _
  | [_] => exact Nat.le_refl _
  | a :: b :: rest =>
      rw [hl] at hnd h
      have hab := h a (by simp) b (by simp)
      rw [hab] at hnd
      simp at hnd

/-- A descriptor without records is mentioned by no group. -/
theorem not_mentioned (hok : reg.Ok member chain bucket) {cfd : Int}
    (hnone : reg.records cfd = []) {g x : Nat} (hx : x ∈ reg.members g) :
    ∃ fd, reg.fdOf x = some fd ∧ fd ≠ cfd := by
  rw [hok.members_eq] at hx
  obtain ⟨ci, ⟨v, hv, hci, -⟩, hchain⟩ := hok.groups.owned g x hx
  obtain ⟨b, hb⟩ := hok.registered ci (List.ne_nil_of_mem hchain)
  obtain ⟨w, hw, hhash, -⟩ := hok.clients.client b ci hb
  refine ⟨w.cfd, by simp [Registry.fdOf, hv, hci, hw], fun hcfd => ?_⟩
  have hmem : ci ∈ reg.records cfd :=
    hok.mem_records.mpr ⟨by rw [← hcfd, hhash]; exact hb, w, hw, hcfd⟩
  rw [hnone] at hmem
  exact absurd hmem List.not_mem_nil

end Registry.Ok

/-! ## The runs that keep one record -/

/-- The registration is refused at once, or it is for a descriptor without a
record and nothing stands in its way. -/
def CanAdd (supply : Supply) (s : Session) : RegistryCall → Prop
  | .del _ => True
  | .add cfd _ gids => maxMulticastGroups < gids.length ∨
      (s.reg.records cfd = [] ∧ gids ≠ [] ∧ supply.info s.reg.infos.next ≠ none ∧
        (∀ i, i < gids.length → supply.group (s.reg.groups.next + i) ≠ none) ∧
        (∀ gid ∈ gids, serverIsMulticastGroupValid gid = true) ∧
        ∀ g, (s.reg.multicastGroups g).tc + gids.count (g + 1)
          ≤ maxClientsPerMulticastGroup)

/-- What a run keeps: a well-formed registry with one record per descriptor. -/
def Session.Kept (s : Session) : Prop := s.reg.WellFormed ∧ s.OneRecord

theorem KeepsInfos.records {reg reg' : Registry}
    {member chain bucket member' chain' bucket' : Nat → List Nat} {a : Nat}
    (hok : reg.Ok member chain bucket) (hok' : reg'.Ok member' chain' bucket')
    (hkeep : KeepsInfos reg.infos reg'.infos a)
    (hbucket : ∀ k c, c ≠ a → (c ∈ bucket' k → c ∈ bucket k)) {cfd : Int} {c : Nat}
    (hc : c ≠ a) (hmem : c ∈ reg'.records cfd) : c ∈ reg.records cfd := by
  obtain ⟨hb, v', hv', hcfd⟩ := hok'.mem_records.mp hmem
  have hb₀ := hbucket _ c hc hb
  obtain ⟨v, hv⟩ := (hok.clients.list _).cell_of_mem hb₀
  obtain ⟨w, hw, heq⟩ := hkeep.cell hc hv
  rw [hv'] at hw
  cases hw
  obtain ⟨-, -, hsame, -⟩ := ClientInfo.of_unlinked heq
  exact hok.mem_records.mpr ⟨hb₀, v, hv, hsame.symm.trans hcfd⟩

theorem unique_of_length {l : List Nat} (h : l.length ≤ 1) {a b : Nat} (ha : a ∈ l)
    (hb : b ∈ l) :
    a = b := by
  match l, h with
  | [], _ => exact absurd ha List.not_mem_nil
  | [c], _ => rw [List.mem_singleton.mp ha, List.mem_singleton.mp hb]
  | _ :: _ :: _, h => exact absurd h (by simp)

theorem added_oneRecord {reg reg' : Registry} {member chain bucket : Nat → List Nat}
    {cfd : Int} {sa : SockAddr} {gids ys : List Nat} {v : ClientInfo}
    (hok : reg.Ok member chain bucket) (hunique : ∀ fd, (reg.records fd).length ≤ 1)
    (hnone : reg.records cfd = [])
    (hadded : Added reg reg' chain bucket reg.infos.next cfd gids ys v) :
    Session.OneRecord ⟨reg', some (.add cfd sa gids, true)⟩ := by
  obtain ⟨member', hok'⟩ := hadded.ok
  have hmem : reg.infos.next ∈ put bucket (getHash cfd)
      (reg.infos.next :: bucket (getHash cfd))
      (getHash cfd) := by
    rw [put_self]
    exact List.mem_cons_self
  have hnew : reg.infos.next ∈ reg'.records cfd :=
    hok'.mem_records.mpr ⟨hmem, v, hadded.cell, hadded.fd⟩
  have hold : ∀ {fd : Int} {c : Nat}, c ≠ reg.infos.next → c ∈ reg'.records fd →
      c ∈ reg.records fd := by
    intro fd c hc hmem'
    refine hadded.others.records hok hok' (fun k c hc hck => ?_) hc hmem'
    by_cases hk : k = getHash cfd
    · rw [hk, put_self] at hck
      rw [hk]
      exact (List.mem_cons.mp hck).resolve_left hc
    · rw [put_ne _ hk] at hck
      exact hck
  have honly : ∀ c ∈ reg'.records cfd, c = reg.infos.next := by
    intro c hc
    by_contra hne
    have := hold hne hc
    rw [hnone] at this
    exact absurd this List.not_mem_nil
  refine ⟨fun fd => ?_, fun fd sa' gids' hlast => ?_, fun fd b hlast => ?_⟩
  · refine hok'.records_length_le fun c hc d hd => ?_
    by_cases hfd : fd = cfd
    · rw [hfd] at hc hd
      rw [honly c hc, honly d hd]
    · have hne : ∀ e ∈ reg'.records fd, e ≠ reg.infos.next := by
        rintro e he rfl
        obtain ⟨-, w, hw, hwfd⟩ := hok'.mem_records.mp he
        rw [hadded.cell] at hw
        cases hw
        exact hfd (hwfd.symm.trans hadded.fd)
      exact unique_of_length (hunique fd) (hold (hne c hc) hc) (hold (hne d hd) hd)
  · cases hlast
    refine ⟨reg.infos.next, ?_, ?_⟩
    · refine List.perm_singleton.mp
        ((List.perm_ext_iff_of_nodup (hok'.nodup_records cfd)
        (List.nodup_singleton _)).mpr fun c => ?_)
      rw [List.mem_singleton]
      exact ⟨honly c, fun h => h ▸ hnew⟩
    · refine hok'.groupIds_eq hmem ?_
      rw [put_self]
      exact hadded.carries
  · cases hlast

theorem removed_oneRecord {reg reg' : Registry}
    {member chain bucket : Nat → List Nat} {cfd : Int} {a : Nat} {v : ClientInfo}
    {b : Bool} (hok : reg.Ok member chain bucket)
    (hunique : ∀ fd, (reg.records fd).length ≤ 1)
    (hremoved : Removed reg reg' chain bucket a cfd v) :
    Session.OneRecord ⟨reg', some (.del cfd, b)⟩ := by
  obtain ⟨member', hok'⟩ := hremoved.ok
  have ha : a ∈ reg.records cfd :=
    hok.mem_records.mpr ⟨hremoved.mem, v, hremoved.cell, hremoved.fd⟩
  have hne : ∀ {fd : Int} {c : Nat}, c ∈ reg'.records fd → c ≠ a := by
    rintro fd c hc rfl
    obtain ⟨-, w, hw, -⟩ := hok'.mem_records.mp hc
    rw [hremoved.gone] at hw
    cases hw
  have hold : ∀ {fd : Int} {c : Nat}, c ∈ reg'.records fd → c ∈ reg.records fd := by
    intro fd c hc
    refine hremoved.others.records hok hok' (fun k c hca hck => ?_) (hne hc) hc
    by_cases hk : k = getHash cfd
    · rw [hk, put_self] at hck
      rw [hk]
      exact List.mem_of_mem_erase hck
    · rw [put_ne _ hk] at hck
      exact hck
  have hnone : reg'.records cfd = [] := by
    refine List.eq_nil_iff_forall_not_mem.mpr fun c hc => ?_
    exact hne hc (unique_of_length (hunique cfd) (hold hc) ha)
  refine ⟨fun fd => ?_, fun fd sa gids hlast => ?_, fun fd b' hlast => ?_⟩
  · exact hok'.records_length_le fun c hc d hd =>
      unique_of_length (hunique fd) (hold hc) (hold hd)
  · cases hlast
  · cases hlast
    exact ⟨hnone, fun g x hx => hok'.not_mentioned hnone hx⟩

theorem Session.step_kept (supply : Supply) (s : Session) (call : RegistryCall)
    (s' : Session) (h : s.Kept) (hcall : CanAdd supply s call)
    (hstep : s.step supply call = .ok s') :
    s'.Kept := by
  obtain ⟨⟨member, chain, bucket, hok⟩, hone⟩ := h
  refine ⟨?_, ?_⟩
  · obtain ⟨s₁, hs₁, hwf⟩ :=
      s.step_wellFormed supply call ⟨member, chain, bucket, hok⟩
    rw [hstep] at hs₁
    cases hs₁
    exact hwf
  cases call with
  | add cfd sa gids =>
      obtain ⟨reg', ⟨-, hrun, rfl⟩ | ⟨hrun, hcases⟩⟩ :=
        serverAddOneClientFd_spec supply hok cfd sa gids
      · simp only [Session.step, serverGetClientInfoHead, hrun, ok_bind] at hstep
        cases hstep
        exact ⟨hone.unique, fun _ _ _ hlast =>
          by simp at hlast, fun _ _ hlast => by simp at hlast⟩
      · simp only [Session.step, serverGetClientInfoHead, hrun, ok_bind] at hstep
        cases hstep
        rcases hcall with hmany | ⟨hnone, hne, hinfo, hgroup, hvalid, hroom⟩
        · rw [serverAddOneClientFd, if_pos hmany] at hrun
          cases hrun
        rcases hcases with ⟨-, hfail⟩ | ⟨ys, v, hadded⟩
        · refine absurd ⟨hinfo, hne, hgroup, hvalid, fun g => ?_⟩ hfail
          rw [← hok.groups.count g]
          exact hroom g
        · exact added_oneRecord hok hone.unique hnone hadded
  | del cfd =>
      rcases serverDelOneClientFd_spec hok cfd with
        ⟨hrun, hnone⟩ | ⟨reg', a, v, hrun, hremoved⟩
      · simp only [Session.step, serverGetClientInfoHead, hrun, ok_bind] at hstep
        cases hstep
        refine ⟨hone.unique, fun _ _ _ hlast =>
          by simp at hlast, fun fd b hlast => ?_⟩
        cases hlast
        have hempty : s.reg.records cfd = [] := by
          refine List.eq_nil_iff_forall_not_mem.mpr fun a ha => ?_
          obtain ⟨hb, v, hv, hcfd⟩ := hok.mem_records.mp ha
          exact hnone a hb v hv hcfd
        exact ⟨hempty, fun g x hx => hok.not_mentioned hempty hx⟩
      · simp only [Session.step, serverGetClientInfoHead, hrun, ok_bind] at hstep
        cases hstep
        exact removed_oneRecord hok hone.unique hremoved

theorem Session.start_kept : Session.start.Kept := by
  refine ⟨⟨_, _, _, Registry.zeroed_ok⟩, fun cfd => ?_, fun _ _ _ h => (by cases h),
    fun _ _ h => by cases h⟩
  refine Registry.zeroed_ok.records_length_le fun a ha => ?_
  exact absurd (Registry.zeroed_ok.mem_records.mp ha).1 List.not_mem_nil

/-- **One record per connection**, in every state of every run that registers
only descriptors without a record, and only where nothing stands in the way. -/
theorem one_record (supply : Supply) (calls : List RegistryCall) (s : Session)
    (hcalls : StepsMeet (Session.step supply) (CanAdd supply) calls Session.start)
    (hrun : runs (Session.step supply) calls Session.start = .ok s) : s.OneRecord :=
  (runs_inv_of_meets (Session.step_kept supply) Session.start_kept hcalls hrun).2

/-- Memory is never short, and new records are zeroed. -/
def Supply.zeros : Supply where
  info _ := some ⟨none, none, none, 0, 0, 0, 0, false, none⟩
  group _ := some ⟨none, none, none, none, 0⟩

/-- What can be seen of a registration when memory is never short: there are so few
entries that they would have room in one group. -/
def AddsAnew (s : Session) : RegistryCall → Prop
  | .del _ => True
  | .add cfd _ gids => s.reg.records cfd = [] ∧ gids ≠ [] ∧
      (∀ gid ∈ gids, serverIsMulticastGroupValid gid = true) ∧
      s.reg.groups.next + gids.length ≤ maxClientsPerMulticastGroup

instance (s : Session) : ∀ call, Decidable (AddsAnew s call)
  | .del _ => inferInstanceAs (Decidable True)
  | .add _ _ _ => inferInstanceAs (Decidable (_ ∧ _))

theorem AddsAnew.canAdd {s : Session} {call : RegistryCall} (hwf : s.reg.WellFormed)
    (h : AddsAnew s call) : CanAdd Supply.zeros s call := by
  cases call with
  | del cfd => trivial
  | add cfd sa gids =>
      obtain ⟨member, chain, bucket, hok⟩ := hwf
      obtain ⟨hnone, hne, hvalid, hroom⟩ := h
      refine Or.inr ⟨hnone, hne, Option.some_ne_none _,
        fun _ _ => Option.some_ne_none _, hvalid, fun g => ?_⟩
      have hnodes := (hok.groups.list g).length_le (hok.groups.nodup g)
      rw [← hok.groups.count g] at hnodes
      exact Nat.le_trans (Nat.add_le_add hnodes List.count_le_length) hroom

/-- Two clients join, one leaves, and another one gets its descriptor. -/
theorem one_record_join_leave :
    ∃ s, runs (Session.step Supply.zeros) [.add 5 ⟨0, 0⟩ [1, 2],
      .add 6 ⟨0, 0⟩ [2, 2], .del 5,
        .add 5 ⟨0, 0⟩ [3]] Session.start = .ok s ∧
      (s.reg.records 5, s.reg.records 6) = ([2], [1]) ∧ s.OneRecord := by
  obtain ⟨s₀, s, hstart, hmeets, hrun, hrecords⟩ : ∃ s₀ s,
      Except.ok Session.start = .ok s₀ ∧
      StepsMeet (Session.step Supply.zeros) AddsAnew [.add 5 ⟨0, 0⟩ [1, 2],
        .add 6 ⟨0, 0⟩ [2, 2],
        .del 5, .add 5 ⟨0, 0⟩ [3]] s₀ ∧
      runs (Session.step Supply.zeros) [.add 5 ⟨0, 0⟩ [1, 2],
        .add 6 ⟨0, 0⟩ [2, 2], .del 5,
        .add 5 ⟨0, 0⟩ [3]] s₀ = .ok s ∧
        (s.reg.records 5, s.reg.records 6) = ([2], [1]) :=
    run_of_check (by decide +kernel)
  cases hstart
  have hkeeps : ∀ (s : Session) (call : RegistryCall) (s' : Session),
      s.reg.WellFormed →
      AddsAnew s call → s.step Supply.zeros call = .ok s' → s'.reg.WellFormed := by
    intro s call s' hwf _ hs
    obtain ⟨s₁, hs₁, hwf₁⟩ := s.step_wellFormed Supply.zeros call hwf
    cases hs₁.symm.trans hs
    exact hwf₁
  have hwf : Session.start.reg.WellFormed := ⟨_, _, _, Registry.zeroed_ok⟩
  have hadds : ∀ (s : Session) (call : RegistryCall), s.reg.WellFormed →
      AddsAnew s call →
      CanAdd Supply.zeros s call := fun s call => AddsAnew.canAdd
  have hcan := StepsMeet.imp hadds hkeeps hwf hmeets
  exact ⟨s, hrun, hrecords, one_record Supply.zeros _ s hcan hrun⟩

/-- Descriptor 5 joins group 1, and then group 2: two records. -/
theorem second_join :
    ∃ s, runs (Session.step Supply.zeros) [.add 5 ⟨0, 0⟩ [1],
      .add 5 ⟨0, 0⟩ [2]] Session.start = .ok s ∧
      s.last = some (.add 5 ⟨0, 0⟩ [2], true) ∧ ¬ s.OneRecord := by
  refine ⟨_, rfl, rfl, fun h => ?_⟩
  exact absurd (h.unique 5) (by decide +kernel)

end Pyramid
