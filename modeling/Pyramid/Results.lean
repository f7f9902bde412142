/-
# `Pyramid.Results` — the result of a job

`updateJobResult` merges every value that comes in for a job into its result,
whoever sent it, and no other function touches a result.  `addJob` does not set
it either: the merging starts from what the memory held.  So the result is the
greatest value received for the pieces of the job exactly when nothing above it
was in the memory or came in from clients without a piece (`result_max_iff`).
-/
import Pyramid.Locks

namespace Pyramid

/-! ## What does not touch a result -/

section Calls
variable {supply : JobSupply} {s s' : Server}

theorem reserveClients_sameJobs {j fuel : Nat} {p : Ptr}
    (h : reserveClients supply j fuel p s = .ok s') : SameJobs s s' := by
  replace h := reserveClients_rounds h
  induction h with
  | done fuel => exact SameJobs.refl _
  | busy _ _ _ _ _ ih => exact ih
  | idle _ _ _ _ hadd hjn hset _ ih =>
      exact (((addClientToJob_sameJobs hadd).trans
        (serverUpdateJobNode_sameJobs hjn)).trans
        (setBusy_sameJobs hset)).trans ih

theorem assignFrom_sameJobs {id taskType : Int} {fuel i : Nat} {p : Ptr}
    (h : assignFrom id taskType fuel i p s = .ok s') : SameJobs s s' := by
  replace h := assignFrom_rounds h
  induction h with
  | done fuel i => exact SameJobs.refl _
  | @send fuel i a c u ci s s₁ _ _ _ hsend _ ih =>
      have hindex : SameJobs s { s with
          nodes := s.nodes.set a (some { u with index := i }) } :=
        SameJobs.of_eq rfl rfl rfl
      exact (hindex.trans (shSendEncodedData_sameJobs hsend)).trans ih

theorem assignJob_sameJobs {j : Nat} {task : Ptr} {b : Bool}
    (h : assignJob s j task = .ok (b, s')) :
    SameJobs s s' := by
  obtain ⟨v, -, h⟩ := bind_ok.mp h
  obtain ⟨head, -, h⟩ := bind_ok.mp h
  obtain ⟨t, -, h⟩ := bind_ok.mp h
  obtain ⟨s₁, hassign, h⟩ := bind_ok.mp h
  cases h
  exact assignFrom_sameJobs hassign

theorem queuePiece_sameJobs {j oldcn : Nat} (h : queuePiece s j oldcn = .ok s') :
    SameJobs s s' := by
  obtain ⟨v, -, h⟩ := bind_ok.mp h
  obtain ⟨nodes₁, -, h⟩ := bind_ok.mp h
  obtain ⟨nodes₂, -, h⟩ := bind_ok.mp h
  obtain ⟨s₁, henqueue, h⟩ := bind_ok.mp h
  obtain ⟨w, nodes, -, -, rfl⟩ := enqueuePendingJob_ok henqueue
  obtain ⟨jobs, hjobs, h⟩ := bind_ok.mp h
  cases h
  exact SameJobs.of_modify hjobs rfl rfl fun _ => rfl

theorem movePiece_sameJobs {j oldcn client newClient : Nat}
    (h : movePiece supply s j oldcn client newClient = .ok s') : SameJobs s s' := by
  obtain ⟨s₁, hjn, h⟩ := bind_ok.mp h
  obtain ⟨⟨cn, s₂⟩, hadd, h⟩ := bind_ok.mp h
  obtain ⟨s₃, hbusy, h⟩ := bind_ok.mp h
  obtain ⟨old, -, h⟩ := bind_ok.mp h
  obtain ⟨nodes, -, h⟩ := bind_ok.mp h
  obtain ⟨v, -, h⟩ := bind_ok.mp h
  obtain ⟨t, -, h⟩ := bind_ok.mp h
  obtain ⟨ci, -, h⟩ := bind_ok.mp h
  obtain ⟨s₄, hsend, h⟩ := bind_ok.mp h
  obtain ⟨⟨b, s₅⟩, hfree, h⟩ := bind_ok.mp h
  cases h
  have hnodes : SameJobs s₃ { s₃ with nodes := nodes } := SameJobs.of_eq rfl rfl rfl
  have hgiven :=
    ((serverUpdateJobNode_sameJobs hjn).trans (addClientToJob_sameJobs hadd)).trans
    (setBusy_sameJobs hbusy)
  exact ((hgiven.trans hnodes).trans (shSendEncodedData_sameJobs hsend)).trans
    (freeClient_sameJobs hfree)

theorem reassignJob_sameJobs {cfd : Int} (h : reassignJob supply s cfd = .ok s') :
    SameJobs s s' := by
  obtain ⟨client, -, h⟩ := bind_ok.mp h
  cases client with
  | none =>
      cases h
      exact SameJobs.refl _
  | some client =>
      obtain ⟨ci, -, h⟩ := bind_ok.mp h
      cases hjn : ci.jn with
      | none =>
          simp only [hjn] at h
          cases h
          exact SameJobs.refl _
      | some j =>
          simp only [hjn] at h
          obtain ⟨cg, -, h⟩ := bind_ok.mp h
          obtain ⟨node, -, h⟩ := bind_ok.mp h
          cases node with
          | none =>
              cases h
              exact SameJobs.refl _
          | some oldcn =>
              cases hgid : serverGetClientGidHead cg.gid with
              | none =>
                  simp only [hgid] at h
                  cases h
              | some cgh =>
                  simp only [hgid] at h
                  obtain ⟨idle, -, h⟩ := bind_ok.mp h
                  cases idle with
                  | none => exact queuePiece_sameJobs h
                  | some newClient => exact movePiece_sameJobs h

/-- After its job is added, `initJob` touches no result. -/
theorem initJob_sameJobs {groupId jobId taskType system : Int}
    {inputFile : Bytes} {b : Bool}
    (h : initJob supply s groupId jobId taskType inputFile system = .ok (b, s')) :
    s' = s ∨ ∃ tasks task p s₁, addJob supply { s with tasks := tasks } jobId task =
      .ok (p, s₁) ∧
      SameJobs s₁ s' := by
  rcases initJob_cases h with ⟨-, -, rfl⟩ | ⟨task, tasks, j, s₁, s₂, t,
    hinit, hcases⟩
  · exact Or.inl rfl
  obtain ⟨cgh, -, hreserve⟩ := hinit.reserved
  have hsame := reserveClients_sameJobs hreserve
  refine Or.inr ⟨tasks, task, some j, s₁, hinit.added, ?_⟩
  rcases hcases with ⟨-, -, rfl⟩ | ⟨-, commands, ⟨-, -, rfl⟩ | hassign⟩
  · exact hsame
  · exact hsame.trans (SameJobs.of_eq rfl rfl rfl)
  · have hcommands : SameJobs s₂ { s₂ with commands := commands } :=
      SameJobs.of_eq rfl rfl rfl
    exact (hsame.trans hcommands).trans (assignJob_sameJobs hassign)

end Calls

/-! ## Merging -/

/-- `r` is the greatest of `g` and the values. -/
def IsMerged (r g : Int) (values : List Int) : Prop :=
  ∀ y, r ≤ y ↔ g ≤ y ∧ ∀ x ∈ values, x ≤ y

theorem isMerged_nil (g : Int) : IsMerged g g [] :=
  fun _ => ⟨fun h => ⟨h, fun _ hx => absurd hx List.not_mem_nil⟩, fun h => h.1⟩

theorem IsMerged.cons {r g : Int} {values : List Int} (h : IsMerged r g values)
    (x : Int) :
    IsMerged (max r x) g (x :: values) := by
  intro y
  rw [Int.max_le, h y, List.forall_mem_cons]
  constructor
  · rintro ⟨⟨hg, hall⟩, hx⟩
    exact ⟨hg, hx, hall⟩
  · rintro ⟨hg, hx, hall⟩
    exact ⟨⟨hg, hall⟩, hx⟩

namespace World

variable {supply : JobSupply} {w w' : World}

/-- All values that came in for the job at `j`. -/
def values (w : World) (j : Nat) : List Int :=
  (w.told.filter fun t => t.job == j).map (·.value)

theorem mem_values {j : Nat} {x : Int} :
    x ∈ w.values j ↔ x ∈ w.answers j ∨ x ∈ w.strays j := by
  simp only [values, answers, strays, List.mem_map, List.mem_filter,
    Bool.and_eq_true]
  constructor
  · rintro ⟨t, ⟨ht, hj⟩, rfl⟩
    cases hi : t.index with
    | none => exact Or.inr ⟨t, ⟨ht, hj, by rw [hi]; rfl⟩, rfl⟩
    | some i => exact Or.inl ⟨t, ⟨ht, hj, by rw [hi]; rfl⟩, rfl⟩
  · rintro (⟨t, ⟨ht, hj, -⟩, rfl⟩ | ⟨t, ⟨ht, hj, -⟩, rfl⟩)
    · exact ⟨t, ⟨ht, hj⟩, rfl⟩
    · exact ⟨t, ⟨ht, hj⟩, rfl⟩

/-- The result of every job is what its memory held and what came in, merged. -/
structure Merges (supply : JobSupply) (w : World) : Prop where
  results : ∀ j v, w.server.jobs.cell j = some v →
    ∃ u, supply.job j = some u ∧ IsMerged v.job.result u.job.result (w.values j)
  heard : ∀ t ∈ w.told, ∃ v, w.server.jobs.cell t.job = some v

/-- Nothing comes in, and the results stay. -/
theorem Merges.congr (h : Merges supply w) {s : Server} {started : List (Nat × Nat)}
    (hresults : ∀ j, (s.jobs.cell j).map (·.job.result)
      = (w.server.jobs.cell j).map (·.job.result)) :
    Merges supply ⟨s, started, w.told⟩ := by
  refine ⟨fun j v hv => ?_, fun t ht => ?_⟩
  · have hj := hresults j
    have hv' : s.jobs.cell j = some v := hv
    rw [hv', Option.map_some] at hj
    obtain ⟨v₀, hv₀, heq⟩ := Option.map_eq_some_iff.mp hj.symm
    obtain ⟨u, hu, hmerged⟩ := h.results j v₀ hv₀
    rw [heq] at hmerged
    exact ⟨u, hu, hmerged⟩
  · obtain ⟨v, hv⟩ := h.heard t ht
    have hj := hresults t.job
    rw [hv, Option.map_some] at hj
    obtain ⟨v', hv', -⟩ := Option.map_eq_some_iff.mp hj
    exact ⟨v', hv'⟩

/-- A value comes in. -/
theorem Merges.result (h : Merges supply w) {cfd : Int} {value : Bytes} {b : Bool}
    {s : Server} (hresult : updateJobResult w.server cfd value = .ok (b, s)) :
    Merges supply ⟨s, w.started, w.heard cfd value⟩ := by
  rcases updateJobResult_states hresult with
    ⟨hnone, hsame⟩ | ⟨c, j, v, hassigned, hv, -, hj, hothers, -, -⟩
  · rw [World.heard, hnone]
    exact h.congr hsame.results
  rw [World.heard, hassigned]
  obtain ⟨v', hv', hstate⟩ := Option.map_eq_some_iff.mp hj
  have hresults : ∀ k, k ≠ j →
      (s.jobs.cell k).map (·.job.result)
        = (w.server.jobs.cell k).map (·.job.result) := by
    intro k hk
    have hk' := congrArg (Option.map Prod.snd) (hothers k hk)
    rw [Option.map_map, Option.map_map] at hk'
    exact hk'
  have hmerged : v'.job.result = max v.job.result (atoll value) :=
    congrArg Prod.snd hstate
  refine ⟨fun k u hu => ?_, fun t ht => ?_⟩
  · have hu' : s.jobs.cell k = some u := hu
    by_cases hk : k = j
    · rw [hk, hv'] at hu'
      cases hu'
      obtain ⟨x, hx, hold⟩ := h.results j v hv
      refine ⟨x, hk ▸ hx, ?_⟩
      rw [hmerged, hk, values, List.filter_cons_of_pos (by simp), List.map_cons]
      exact hold.cons _
    · have hk' := hresults k hk
      rw [hu', Option.map_some] at hk'
      obtain ⟨v₀, hv₀, heq⟩ := Option.map_eq_some_iff.mp hk'.symm
      obtain ⟨x, hx, hold⟩ := h.results k v₀ hv₀
      refine ⟨x, hx, ?_⟩
      rw [values, List.filter_cons_of_neg (by simpa using Ne.symm hk), ← heq]
      exact hold
  · rcases List.mem_cons.mp ht with rfl | ht
    · exact ⟨v', hv'⟩
    · obtain ⟨u, hu⟩ := h.heard t ht
      by_cases hk : t.job = j
      · exact ⟨v', hk ▸ hv'⟩
      · have hk' := hresults t.job hk
        rw [hu, Option.map_some] at hk'
        obtain ⟨u', hu', -⟩ := Option.map_eq_some_iff.mp hk'
        exact ⟨u', hu'⟩

/-- A job is added: its result is what the memory held. -/
theorem Merges.add (h : Merges supply w) {s : Server} {jobId : Int}
    {tasks : Heap Task} {task p : Ptr} {started : List (Nat × Nat)}
    (hadd : addJob supply { w.server with tasks := tasks } jobId task = .ok (p, s)) :
    Merges supply ⟨s, started, w.told⟩ := by
  obtain ⟨t, v, u, x, -, hv, hu, -, -, hadded⟩ := addJob_ok jobId task hadd
  have hfresh : w.server.jobs.cell w.server.jobs.next = none :=
    w.server.jobs.fresh _ (Nat.le_refl _)
  have hresults : ∀ k, k ≠ w.server.jobs.next →
      (s.jobs.cell k).map (·.job.result)
        = (w.server.jobs.cell k).map (·.job.result) := by
    intro k hk
    by_cases hkt : k = t
    · have hv' : w.server.jobs.cell t = some v := hv
      rw [hkt, hadded.last, hv']
      rfl
    · exact congrArg _ (hadded.old k hkt hk)
  refine ⟨fun k y hy => ?_, fun z hz => ?_⟩
  · have hy' : s.jobs.cell k = some y := hy
    by_cases hk : k = w.server.jobs.next
    · have hnew := hadded.new
      rw [← show k = ({ w.server with tasks := tasks } : Server).jobs.next from hk,
        hy'] at hnew
      cases hnew
      refine ⟨u, hk ▸ hu, ?_⟩
      have hnone : values ⟨s, started, w.told⟩ k = [] := by
        rw [values, List.map_eq_nil_iff, List.filter_eq_nil_iff]
        intro z hz hzk
        obtain ⟨a, ha⟩ := h.heard z hz
        rw [show z.job = k by simpa using hzk, hk, hfresh] at ha
        cases ha
      rw [hnone]
      exact isMerged_nil _
    · have hk' := hresults k hk
      rw [hy', Option.map_some] at hk'
      obtain ⟨v₀, hv₀, heq⟩ := Option.map_eq_some_iff.mp hk'.symm
      obtain ⟨a, ha, hold⟩ := h.results k v₀ hv₀
      refine ⟨a, ha, ?_⟩
      rw [← heq]
      exact hold
  · obtain ⟨a, ha⟩ := h.heard z hz
    have hz' := hresults z.job (fun heq => by rw [heq, hfresh] at ha; cases ha)
    rw [ha, Option.map_some] at hz'
    obtain ⟨a', ha', -⟩ := Option.map_eq_some_iff.mp hz'
    exact ⟨a', ha'⟩

theorem Merges.step (h : Merges supply w) {e : Event}
    (hstep : w.step supply e = .ok w') :
    Merges supply w' := by
  cases e with
  | join cfd sa gids =>
      obtain ⟨⟨b, reg⟩, -, hstep⟩ := bind_ok.mp hstep
      cases hstep
      exact h.congr fun _ => rfl
  | submit groupId jobId taskType inputFile system =>
      obtain ⟨⟨b, s⟩, hinit, hstep⟩ := bind_ok.mp hstep
      cases hstep
      rcases initJob_sameJobs hinit with rfl | ⟨tasks, task, p, s₁, hadd, hsame⟩
      · exact h.congr fun _ => rfl
      · have hadded : Merges supply ⟨s₁, w.started, w.told⟩ := h.add hadd
        exact hadded.congr hsame.results
  | result cfd value =>
      obtain ⟨⟨b, s⟩, hresult, hstep⟩ := bind_ok.mp hstep
      cases hstep
      exact h.result hresult
  | error cfd =>
      obtain ⟨s, hreassign, hstep⟩ := bind_ok.mp hstep
      cases hstep
      exact h.congr (reassignJob_sameJobs hreassign).results
  | disconnect cfd =>
      obtain ⟨s, hreassign, hstep⟩ := bind_ok.mp hstep
      obtain ⟨⟨b, reg⟩, -, hstep⟩ := bind_ok.mp hstep
      cases hstep
      exact h.congr (reassignJob_sameJobs hreassign).results

theorem merges_start {config : Config} (hstart : start supply config = .ok w) :
    Merges supply w := by
  obtain ⟨s, hs, hstart⟩ := bind_ok.mp hstart
  cases hstart
  obtain ⟨v, hv, rfl⟩ := initializeJobDll_ok hs
  have hcell : ((Heap.empty : Heap JobNode).grow (some v)).cell 0 = some v := rfl
  refine ⟨fun j u hu => ?_, fun t ht => absurd ht List.not_mem_nil⟩
  by_cases hj : j = 0
  · rw [hj] at hu
    cases (Heap.cell_set_self hcell _).symm.trans hu
    exact ⟨v, hj ▸ hv, isMerged_nil _⟩
  · have hold := (Heap.cell_set_ne _ hj _).symm.trans hu
    rw [Heap.cell_grow_ne _ hj] at hold
    cases hold

theorem Run.merges {config : Config} {K : World → Event → Prop} {es : List Event}
    (hrun : Run supply config K es w) : Merges supply w := by
  obtain ⟨w₀, hstart, -, hrun⟩ := hrun
  exact runs_inv (fun _ _ _ h hstep => h.step hstep) (merges_start hstart) hrun

/-- The result of the job at `j` is the greatest of the values that came in for
its pieces. -/
def ResultIsMax (w : World) (j : Nat) : Prop :=
  ∃ v, w.server.jobs.cell j = some v ∧ (w.answers j).max? = some v.job.result

/-- None of them is less than what the memory of the job held, or than a value
that came in from a client without a piece. -/
def NothingAbove (supply : JobSupply) (w : World) (j : Nat) : Prop :=
  ∃ u m, supply.job j = some u ∧ (w.answers j).max? = some m ∧ u.job.result ≤ m ∧
    ∀ x ∈ w.strays j, x ≤ m

theorem Merges.resultIsMax_iff (h : Merges supply w) (j : Nat) :
    w.ResultIsMax j ↔ w.NothingAbove supply j := by
  constructor
  · rintro ⟨v, hv, hmax⟩
    obtain ⟨u, hu, hmerged⟩ := h.results j v hv
    obtain ⟨hgarbage, hvalues⟩ := (hmerged v.job.result).mp (Int.le_refl _)
    exact ⟨u, v.job.result, hu, hmax, hgarbage,
      fun x hx => hvalues x (mem_values.mpr (Or.inr hx))⟩
  · rintro ⟨u, m, hu, hmax, hgarbage, hstrays⟩
    obtain ⟨hm, hanswers⟩ := List.max?_eq_some_iff.mp hmax
    -- a value that came in for the job: it is there
    obtain ⟨t, ht, -⟩ := List.mem_map.mp hm
    obtain ⟨ht, hj⟩ := List.mem_filter.mp ht
    have htj : t.job = j := by simpa using (Bool.and_eq_true_iff.mp hj).1
    obtain ⟨v, hv⟩ := h.heard t ht
    rw [htj] at hv
    obtain ⟨u', hu', hmerged⟩ := h.results j v hv
    cases hu.symm.trans hu'
    have hle : v.job.result ≤ m := by
      refine (hmerged m).mpr ⟨hgarbage, fun x hx => ?_⟩
      rcases mem_values.mp hx with hx | hx
      · exact hanswers x hx
      · exact hstrays x hx
    have hge : m ≤ v.job.result :=
      ((hmerged v.job.result).mp (Int.le_refl _)).2 m (mem_values.mpr (Or.inl hm))
    exact ⟨v, hv, by rw [hmax, Int.le_antisymm hge hle]⟩

/-- The greatest of the values does not depend on their order. -/
theorem ResultIsMax.result_eq {j j' : Nat} (h : w.ResultIsMax j)
    (h' : w'.ResultIsMax j') (hperm : (w'.answers j').Perm (w.answers j)) :
    (w'.server.jobs.cell j').map (·.job.result) = (w.server.jobs.cell j).map
    (·.job.result) := by
  obtain ⟨v, hv, hmax⟩ := h
  obtain ⟨v', hv', hmax'⟩ := h'
  obtain ⟨hm, hle⟩ := List.max?_eq_some_iff.mp hmax
  obtain ⟨hm', hle'⟩ := List.max?_eq_some_iff.mp hmax'
  rw [hv, hv', Option.map_some, Option.map_some]
  exact congrArg some (Int.le_antisymm (hle _ (hperm.mem_iff.mp hm'))
    (hle' _ (hperm.mem_iff.mpr hm)))

end World

/-- **The result.**  In every state of every run the result of a job is the
greatest of the values that came in for its pieces, and the same for every order
in which they come in, exactly when nothing above them was in the memory or came
in from a client without a piece. -/
theorem result_max_iff (supply : JobSupply) (config : Config) (es : List Event)
    (w : World) (hrun : World.Run supply config (fun _ _ => True) es w) (j : Nat) :
    (w.ResultIsMax j ↔ w.NothingAbove supply j) ∧
      ∀ es' w' j', World.Run supply config (fun _ _ => True) es' w' →
      w.NothingAbove supply j →
        w'.NothingAbove supply j' → (w'.answers j').Perm (w.answers j) →
        (w'.server.jobs.cell j').map (·.job.result)
          = (w.server.jobs.cell j).map (·.job.result) := by
  have hiff := hrun.merges.resultIsMax_iff j
  refine ⟨hiff, fun es' w' j' hrun' habove habove' hperm => ?_⟩
  exact (hiff.mpr habove).result_eq ((hrun'.merges.resultIsMax_iff j').mpr habove')
    hperm

/-- Two clients answer, with the values in either order. -/
theorem result_max_sample :
    ∃ w, World.Run JobSupply.zeros Config.sample (fun _ _ => True)
        [.join 5 ⟨0, 0⟩ [1], .join 6 ⟨0, 0⟩ [1], .submit 1 1 102 (ascii "in") 0,
          .result 5 (ascii "7"), .result 6 (ascii "9")] w ∧
      (w.answers 1, w.strays 1) = ([9, 7], []) ∧
      ∃ w', World.Run JobSupply.zeros Config.sample (fun _ _ => True)
          [.join 5 ⟨0, 0⟩ [1], .join 6 ⟨0, 0⟩ [1], .submit 1 1 102 (ascii "in") 0,
            .result 5 (ascii "9"), .result 6 (ascii "7")] w' ∧
        (w'.answers 1, w'.strays 1) = ([7, 9], []) ∧
        w.ResultIsMax 1 ∧
        (w'.server.jobs.cell 1).map (·.job.result)
          = (w.server.jobs.cell 1).map (·.job.result) := by
  refine World.run_of_check (by decide +kernel) fun w hrun hw => ?_
  refine World.run_of_check (by decide +kernel) fun w' hrun' hw' => ?_
  obtain ⟨hanswers, hstrays⟩ := Prod.mk.inj hw
  obtain ⟨hanswers', hstrays'⟩ := Prod.mk.inj hw'
  have habove : w.NothingAbove JobSupply.zeros 1 :=
    ⟨_, 9, rfl, by rw [hanswers]; rfl, by decide, by rw [hstrays]; decide⟩
  have habove' : w'.NothingAbove JobSupply.zeros 1 :=
    ⟨_, 9, rfl, by rw [hanswers']; rfl, by decide, by rw [hstrays']; decide⟩
  obtain ⟨hiff, horder⟩ := result_max_iff JobSupply.zeros Config.sample _ w hrun 1
  refine ⟨hiff.mpr habove, horder _ w' 1 hrun' habove habove' ?_⟩
  rw [hanswers, hanswers']
  exact List.Perm.swap 9 7 []

/-- The memory of the job held 0, and its one client answers `-5`. -/
theorem negative_result :
    ∃ w, World.Run JobSupply.zeros Config.sample (fun _ _ => True)
        [.join 5 ⟨0, 0⟩ [1], .submit 1 1 102 (ascii "in") 0,
          .result 5 (ascii "-5")] w ∧
      (w.started, w.answers 1, (w.server.jobs.cell 1).map fun v =>
        (v.numClients, v.job.result))
        = ([(1, 1)], [-5], some (0, 0)) ∧
      ¬ w.ResultIsMax 1 := by
  refine World.run_of_check (by decide +kernel) fun w _ hw hmax => ?_
  obtain ⟨-, hrest⟩ := Prod.mk.inj hw
  obtain ⟨hanswers, hjob⟩ := Prod.mk.inj hrest
  obtain ⟨v, hv, heq⟩ := hmax
  rw [hv, Option.map_some] at hjob
  have hresult : v.job.result = 0 := congrArg Prod.snd (Option.some.inj hjob)
  rw [hanswers, hresult] at heq
  exact absurd heq (by decide)

end Pyramid
