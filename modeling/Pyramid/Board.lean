/-
# `Pyramid.Board` — what the jobs and the pieces are about

The board shows who holds which piece of which job, which pieces wait to be
handed on, and what has come in; it knows no pointers.  `Step` lists what one
event can do to it.  Two of its steps are marked: a piece that gets `lost`,
and a piece that is `queued` while its client stays.

`garbage j` is what the memory given to the job `j` held where its result is.
-/
import Pyramid.Groups
import Pyramid.Server

namespace Pyramid

structure Holder where
  client : Nat
  index : Int
  deriving DecidableEq, Repr

structure Waiting where
  jid : Int
  index : Int
  deriving DecidableEq, Repr

structure JobView where
  id : Int
  result : Int
  holders : List Holder

structure Seat where
  busy : Bool
  jn : Ptr
  deriving DecidableEq, Repr

structure Board where
  order : List Nat
  job : Nat → JobView
  waiting : List Waiting
  seat : Nat → Option Seat
  started : List (Nat × Nat)
  told : List Told

/-- The indexes of the pieces of a job divided into `n`. -/
def indexes (n : Nat) : List Int := (List.range n).map fun i : Nat => (i : Int)

theorem mem_of_removed {α : Type} {pre post : List α} {a x : α}
    (hx : x ∈ pre ++ post) :
    x ∈ pre ++ a :: post :=
  (List.mem_append.mp hx).elim (List.mem_append_left _)
    fun h => List.mem_append_right _ (List.mem_cons_of_mem _ h)

/-- The seats after the clients of `hs` got pieces of the job `j`. -/
def reserved (seat : Nat → Option Seat) (j : Nat) (hs : List Holder) (c : Nat) :
    Option Seat :=
  if c ∈ hs.map (·.client) then some ⟨true, some j⟩ else seat c

theorem reserved_nil (seat : Nat → Option Seat) (j : Nat) :
    reserved seat j [] = seat := by
  funext c
  simp [reserved]

theorem reserved_cons (seat : Nat → Option Seat) (j : Nat) (x : Holder)
    (hs : List Holder) :
    reserved seat j (x :: hs)
      = reserved (put seat x.client (some ⟨true, some j⟩)) j hs := by
  funext c
  unfold reserved
  by_cases hc : c = x.client
  · rw [hc, put_self, if_pos (by simp)]
    split
    · rfl
    · rfl
  · rw [put_ne _ hc]
    simp [hc]

/-- A job keeps its id when its result and its pieces change. -/
theorem id_put (job : Nat → JobView) (j k : Nat) (r : Int) (hs : List Holder) :
    (put job j ⟨(job j).id, r, hs⟩ k).id = (job k).id := by
  by_cases hk : k = j
  · rw [hk, put_self]
  · rw [put_ne _ hk]

namespace Board

/-- The indexes that wait for the job `j`. -/
def pending (b : Board) (j : Nat) : List Int :=
  (b.waiting.filter fun w => w.jid == (b.job j).id).map (·.index)

/-- The indexes of the pieces of the job `j` for which a value came in. -/
def answered (b : Board) (j : Nat) : List Int :=
  (b.told.filter fun t => t.job == j).filterMap (·.index)

/-- In how many places the piece `i` of the job `j` is. -/
def places (b : Board) (j : Nat) (i : Int) : Nat :=
  ((b.job j).holders.map (·.index)).count i + (b.pending j).count i
    + (b.answered j).count i

def setSeat (b : Board) (c : Nat) (o : Option Seat) : Board :=
  { b with seat := put b.seat c o }

/-- The new job `j`, with the clients `hs` reserved for it. -/
def add (b : Board) (j : Nat) (v : JobView) (ok : Bool) : Board where
  order := b.order ++ [j]
  job := put b.job j v
  waiting := b.waiting
  seat := reserved b.seat j v.holders
  started := if ok then (j, v.holders.length) :: b.started else b.started
  told := b.told

theorem add_job_self (b : Board) (j : Nat) (v : JobView) (ok : Bool) :
    (b.add j v ok).job j = v :=
  put_self _ _ _

inductive Label where
  | added (ok : Bool)
  | lost (j : Nat)
  | queued
  | other
  deriving DecidableEq, Repr

section Steps
variable (garbage : Nat → Int)

inductive Step : Board → Label → Board → Prop
  | stay {b : Board} : Step b .other b
  | join {b : Board} {c : Nat} (hc : b.seat c = none) :
      Step b .other (b.setSeat c (some ⟨false, none⟩))
  | leave {b : Board} {c : Nat}
      (hc : ∀ j ∈ b.order, ∀ x ∈ (b.job j).holders, x.client ≠ c) :
      Step b .other (b.setSeat c none)
  | add {b : Board} {j : Nat} {id : Int} {hs : List Holder} {ok : Bool}
      (hj : j ∉ b.order)
      (hid : ∀ k ∈ b.order, (b.job k).id ≠ id) (hnonneg : 0 ≤ id)
      (hnodup : (hs.map (·.client)).Nodup)
      (hidle : ∀ x ∈ hs, ∃ jn, b.seat x.client = some ⟨false, jn⟩)
      (hok : ok = true → hs ≠ [] ∧ hs.map (·.index) = indexes hs.length) :
      Step b (.added ok) (b.add j ⟨id, garbage j, hs⟩ ok)
  /-- the piece of `c` is answered, and a waiting piece of the job goes to `c` -/
  | handed {b : Board} {j c : Nat} {i w v : Int} {pre post : List Holder}
      {wpre wpost : List Waiting}
      (hj : j ∈ b.order) (hc : (b.job j).holders = pre ++ ⟨c, i⟩ :: post)
      (hw : b.waiting = wpre ++ ⟨(b.job j).id, w⟩ :: wpost) :
      Step b .other { b with
        job := put b.job j ⟨(b.job j).id, max (b.job j).result v,
          pre ++ ⟨c, w⟩ :: post⟩
        waiting := wpre ++ wpost
        told := ⟨j, some i, v⟩ :: b.told }
  /-- the piece of `c` is answered, and `c` is free -/
  | freed {b : Board} {j c : Nat} {i v : Int} {pre post : List Holder}
      (hj : j ∈ b.order)
      (hc : (b.job j).holders = pre ++ ⟨c, i⟩ :: post)
      (hw : ∀ w ∈ b.waiting, w.jid ≠ (b.job j).id) :
      Step b .other { b with
        job := put b.job j ⟨(b.job j).id, max (b.job j).result v, pre ++ post⟩
        seat := put b.seat c (some ⟨false, some j⟩)
        told := ⟨j, some i, v⟩ :: b.told }
  /-- a value comes in from a client without a piece, and a
  waiting piece is dropped -/
  | lost {b : Board} {j : Nat} {w v : Int} {wpre wpost : List Waiting}
      (hj : j ∈ b.order)
      (hw : b.waiting = wpre ++ ⟨(b.job j).id, w⟩ :: wpost) :
      Step b (.lost j) { b with
        job := put b.job j ⟨(b.job j).id, max (b.job j).result v, (b.job j).holders⟩
        waiting := wpre ++ wpost
        told := ⟨j, none, v⟩ :: b.told }
  /-- a value comes in from a client without a piece -/
  | stray {b : Board} {j : Nat} {v : Int} (hj : j ∈ b.order) :
      Step b .other { b with
        job := put b.job j ⟨(b.job j).id, max (b.job j).result v, (b.job j).holders⟩
        told := ⟨j, none, v⟩ :: b.told }
  /-- the piece of `c` goes to the idle client `w`; `c` is free, or gone -/
  | moved {b : Board} {j c w : Nat} {i : Int} {jn : Ptr} {o : Option Seat}
      {pre post : List Holder}
      (hj : j ∈ b.order) (hc : (b.job j).holders = pre ++ ⟨c, i⟩ :: post)
      (hw : b.seat w = some ⟨false, jn⟩) (ho : o = none ∨ o = some ⟨false, some j⟩) :
      Step b .other { b with
        job := put b.job j ⟨(b.job j).id, (b.job j).result, pre ++ post ++ [⟨w, i⟩]⟩
        seat := put (put b.seat w (some ⟨true, some j⟩)) c o }
  /-- the piece of `c` waits, and `c` keeps its seat as it is -/
  | queued {b : Board} {j c : Nat} {i : Int} {pre post : List Holder}
      (hj : j ∈ b.order)
      (hc : (b.job j).holders = pre ++ ⟨c, i⟩ :: post) (hpost : post ≠ []) :
      Step b .queued { b with
        job := put b.job j ⟨(b.job j).id, (b.job j).result, pre ++ post⟩
        waiting := ⟨(b.job j).id, i⟩ :: b.waiting }
  /-- the piece of `c` waits, and `c` is gone -/
  | queuedAway {b : Board} {j c : Nat} {i : Int} {pre post : List Holder}
      (hj : j ∈ b.order)
      (hc : (b.job j).holders = pre ++ ⟨c, i⟩ :: post) (hpost : post ≠ []) :
      Step b .other { b with
        job := put b.job j ⟨(b.job j).id, (b.job j).result, pre ++ post⟩
        waiting := ⟨(b.job j).id, i⟩ :: b.waiting
        seat := put b.seat c none }

end Steps

/-! ## What every step keeps -/

/-- Whoever sits there sits at a job of `order`, if at any. -/
def Knows (order : List Nat) (o : Option Seat) : Prop :=
  ∀ st k, o = some st → st.jn = some k → k ∈ order

theorem knows_none (order : List Nat) : Knows order none := by
  intro st k hst _
  cases hst

theorem knows_job {order : List Nat} {j : Nat} (hj : j ∈ order) (busy : Bool) :
    Knows order (some ⟨busy, some j⟩) := by
  intro st k hst hk
  cases hst
  cases hk
  exact hj

theorem knows_put {order : List Nat} {seat : Nat → Option Seat} {o : Option Seat}
    (ho : Knows order o) (hseat : ∀ c, Knows order (seat c)) (c : Nat) :
    ∀ d, Knows order (put seat c o d) :=
  forall_put (fun _ o => Knows order o) ho fun d _ => hseat d

structure Ok (b : Board) : Prop where
  order : b.order.Nodup
  ids : ∀ j ∈ b.order, ∀ k ∈ b.order, (b.job j).id = (b.job k).id → j = k
  nonneg : ∀ j ∈ b.order, 0 ≤ (b.job j).id
  seated : ∀ j ∈ b.order, ∀ x ∈ (b.job j).holders, b.seat x.client
    = some ⟨true, some j⟩
  once : ∀ j ∈ b.order, ((b.job j).holders.map (·.client)).Nodup
  known : ∀ c st j, b.seat c = some st → st.jn = some j → j ∈ b.order
  jids : ∀ w ∈ b.waiting, ∃ j ∈ b.order, (b.job j).id = w.jid
  served : ∀ j ∈ b.order, ∀ w ∈ b.waiting, w.jid = (b.job j).id →
    (b.job j).holders ≠ []
  begun : ∀ p ∈ b.started, p.1 ∈ b.order
  heard : ∀ t ∈ b.told, t.job ∈ b.order

namespace Ok

variable {b : Board}

/-- A client holds pieces of one job only. -/
theorem holder_unique (hok : b.Ok) {j k : Nat} (hj : j ∈ b.order) (hk : k ∈ b.order)
    {x y : Holder} (hx : x ∈ (b.job j).holders) (hy : y ∈ (b.job k).holders)
    (hxy : x.client = y.client) : j = k := by
  have h₁ := hok.seated j hj x hx
  have h₂ := hok.seated k hk y hy
  rw [hxy, h₂] at h₁
  cases h₁
  rfl

theorem not_holder_of_idle (hok : b.Ok) {w : Nat} {jn : Ptr}
    (hw : b.seat w = some ⟨false, jn⟩) {k : Nat} (hk : k ∈ b.order) {x : Holder}
    (hx : x ∈ (b.job k).holders) : x.client ≠ w := by
  rintro rfl
  rw [hok.seated k hk x hx] at hw
  cases hw

/-- It holds one piece of it. -/
theorem client_ne (hok : b.Ok) {j c : Nat} {i : Int} {pre post : List Holder}
    (hj : j ∈ b.order) (hc : (b.job j).holders = pre ++ ⟨c, i⟩ :: post) {x : Holder}
    (hx : x ∈ pre ++ post) :
    x.client ≠ c := by
  have honce := hok.once j hj
  rw [hc] at honce
  have hperm : (pre ++ ⟨c, i⟩ :: post).Perm (⟨c, i⟩ :: (pre ++ post)) :=
    List.perm_middle
  have hnd := (hperm.map (·.client)).nodup_iff.mp honce
  rw [List.map_cons] at hnd
  intro heq
  exact (List.nodup_cons.mp hnd).1 (List.mem_map.mpr ⟨x, hx, heq⟩)

theorem once_removed (hok : b.Ok) {j c : Nat} {i : Int} {pre post : List Holder}
    (hj : j ∈ b.order) (hc : (b.job j).holders = pre ++ ⟨c, i⟩ :: post) :
    ((pre ++ post).map (·.client)).Nodup := by
  have honce := hok.once j hj
  rw [hc] at honce
  exact honce.sublist
    (List.Sublist.map _ (List.Sublist.append_left (List.sublist_cons_self _ _) _))

/-- A change of one job's pieces, of the seats and of what waits. -/
theorem change (hok : b.Ok) {j : Nat} (hj : j ∈ b.order) {r : Int} {hs : List Holder}
    {ws : List Waiting} {seat : Nat → Option Seat} {told : List Told}
    (hseat : ∀ x ∈ hs, seat x.client = some ⟨true, some j⟩)
    (hothers : ∀ k ∈ b.order, k ≠ j → ∀ x ∈ (b.job k).holders,
      seat x.client = b.seat x.client)
    (honce : (hs.map (·.client)).Nodup)
    (hknown : ∀ c, Knows b.order (seat c))
    (hws : ∀ w ∈ ws, w ∈ b.waiting ∨ w.jid = (b.job j).id)
    (hserved : (∃ w ∈ ws, w.jid = (b.job j).id) → hs ≠ [])
    (htold : ∀ t ∈ told, t.job ∈ b.order) :
    Ok { b with
      job := put b.job j ⟨(b.job j).id, r, hs⟩, waiting := ws, seat := seat, told :=
  told } := by
  have hid : ∀ k, (put b.job j ⟨(b.job j).id, r, hs⟩ k).id = (b.job k).id :=
    fun k => id_put b.job j k r hs
  refine ⟨hok.order, fun k hk l hl h => ?_, fun k hk => ?_, fun k hk x hx => ?_,
    fun k hk => ?_, hknown, fun w hw => ?_, fun k hk w hw hwk => ?_,
    hok.begun, htold⟩
  · rw [hid, hid] at h
    exact hok.ids k hk l hl h
  · show 0 ≤ (put b.job j _ k).id
    rw [hid]
    exact hok.nonneg k hk
  · exact forall_put (fun k (v : JobView) => k ∈ b.order → ∀ x ∈ v.holders,
      seat x.client = some ⟨true, some k⟩)
      (fun _ => hseat) (fun k hkj hk x hx =>
        (hothers k hk hkj x hx).trans (hok.seated k hk x hx)) k hk x hx
  · refine forall_put (fun k (v : JobView) => k ∈ b.order →
      (v.holders.map (·.client)).Nodup) ?_
      (fun k _ => hok.once k) k hk
    exact fun _ => honce
  · rcases hws w hw with hw | hw
    · obtain ⟨k, hk, hkw⟩ := hok.jids w hw
      exact ⟨k, hk, (hid k).trans hkw⟩
    · exact ⟨j, hj, (hid j).trans hw.symm⟩
  · show (put b.job j _ k).holders ≠ []
    have hwk' : w.jid = (b.job k).id := hwk.trans (hid k)
    by_cases hkj : k = j
    · rw [hkj, put_self]
      exact hserved ⟨w, hw, hkj ▸ hwk'⟩
    · rw [put_ne _ hkj]
      rcases hws w hw with hw | hw
      · exact hok.served k hk w hw hwk'
      · exact absurd (hok.ids k hk j hj (hwk'.symm.trans hw)) hkj

theorem seatless (hok : b.Ok) {c : Nat}
    (hc : ∀ j ∈ b.order, ∀ x ∈ (b.job j).holders, x.client ≠ c) (o : Option Seat)
    (ho : Knows b.order o) : (b.setSeat c o).Ok :=
  ⟨hok.order, hok.ids, hok.nonneg,
    fun j hj x hx => (put_ne _ (hc j hj x hx) o).trans (hok.seated j hj x hx),
    hok.once, knows_put ho hok.known c, hok.jids, hok.served, hok.begun, hok.heard⟩

theorem add (hok : b.Ok) {j : Nat} {id r : Int} {hs : List Holder} {ok : Bool}
    (hj : j ∉ b.order) (hid : ∀ k ∈ b.order, (b.job k).id ≠ id) (hnonneg : 0 ≤ id)
    (hnodup : (hs.map (·.client)).Nodup)
    (hidle : ∀ x ∈ hs, ∃ jn, b.seat x.client = some ⟨false, jn⟩) :
    (b.add j ⟨id, r, hs⟩ ok).Ok := by
  have hnew : (b.add j ⟨id, r, hs⟩ ok).job j = ⟨id, r, hs⟩ := b.add_job_self j _ ok
  have hold : ∀ k ∈ b.order, (b.add j ⟨id, r, hs⟩ ok).job k = b.job k :=
    fun k hk => put_ne _ (by rintro rfl; exact hj hk) _
  have hcases : ∀ k ∈ (b.add j ⟨id, r, hs⟩ ok).order, k ∈ b.order ∨ k = j := by
    intro k hk
    exact (List.mem_append.mp hk).imp_right List.mem_singleton.mp
  have hsub : ∀ k ∈ b.order, k ∈ (b.add j ⟨id, r, hs⟩ ok).order :=
    fun k hk => List.mem_append_left _ hk
  have hlast : j ∈ (b.add j ⟨id, r, hs⟩ ok).order :=
    List.mem_append_right _ (List.mem_singleton_self j)
  refine ⟨?_, fun k hk l hl h => ?_, fun k hk => ?_, fun k hk x hx => ?_,
    fun k hk => ?_, fun c st k hc hst => ?_, fun w hw => ?_, fun k hk w hw hwk => ?_,
    fun p hp => ?_, fun t ht => ?_⟩
  · refine List.nodup_append.mpr ⟨hok.order, List.pairwise_singleton _ j,
      fun k hk l hl h => ?_⟩
    rw [List.mem_singleton.mp hl] at h
    exact hj (h ▸ hk)
  · rcases hcases k hk with hk | hkj
    · rcases hcases l hl with hl | hlj
      · rw [hold k hk, hold l hl] at h
        exact hok.ids k hk l hl h
      · rw [hold k hk, hlj, hnew] at h
        exact absurd h (hid k hk)
    · rcases hcases l hl with hl | hlj
      · rw [hold l hl, hkj, hnew] at h
        exact absurd h.symm (hid l hl)
      · exact hkj.trans hlj.symm
  · rcases hcases k hk with hk | rfl
    · rw [hold k hk]
      exact hok.nonneg k hk
    · rw [hnew]
      exact hnonneg
  · show (if x.client ∈ hs.map (·.client) then some ⟨true, some j⟩
        else b.seat x.client) = _
    rcases hcases k hk with hk | rfl
    · rw [hold k hk] at hx
      rw [if_neg, hok.seated k hk x hx]
      intro hmem
      obtain ⟨y, hy, hyx⟩ := List.mem_map.mp hmem
      obtain ⟨jn, hjn⟩ := hidle y hy
      exact hok.not_holder_of_idle hjn hk hx hyx.symm
    · rw [hnew] at hx
      rw [if_pos (List.mem_map_of_mem hx)]
  · rcases hcases k hk with hk | rfl
    · rw [hold k hk]
      exact hok.once k hk
    · rw [hnew]
      exact hnodup
  · have hc' : (if c ∈ hs.map (·.client) then some ⟨true, some j⟩ else b.seat c)
        = some st := hc
    split at hc'
    · cases hc'
      cases hst
      exact hlast
    · exact hsub k (hok.known c st k hc' hst)
  · obtain ⟨k, hk, hkw⟩ := hok.jids w hw
    exact ⟨k, hsub k hk, by rw [hold k hk, hkw]⟩
  · rcases hcases k hk with hk | rfl
    · rw [hold k hk] at hwk ⊢
      exact hok.served k hk w hw hwk
    · obtain ⟨l, hl, hlw⟩ := hok.jids w hw
      rw [hnew] at hwk
      exact absurd (hlw.trans hwk) (hid l hl)
  · have hp' : p ∈ if ok then (j, hs.length) :: b.started else b.started := hp
    split at hp'
    · rcases List.mem_cons.mp hp' with rfl | hp'
      · exact hlast
      · exact hsub _ (hok.begun p hp')
    · exact hsub _ (hok.begun p hp')
  · exact hsub _ (hok.heard t ht)

end Ok

/-- What a value that comes in adds to the record of what was told. -/
theorem mem_told {b : Board} (hok : b.Ok) {j : Nat} (hj : j ∈ b.order)
    {i : Option Int} {v : Int} :
    ∀ t ∈ (⟨j, i, v⟩ : Told) :: b.told, t.job ∈ b.order := by
  intro t ht
  rcases List.mem_cons.mp ht with rfl | ht
  · exact hj
  · exact hok.heard t ht

/-- An answered piece is exchanged for a waiting one: the holders
are the same clients. -/
theorem Ok.handed {b : Board} (hok : b.Ok) {j c : Nat} {i w v : Int}
    {pre post : List Holder} {wpre wpost : List Waiting} (hj : j ∈ b.order)
    (hc : (b.job j).holders = pre ++ ⟨c, i⟩ :: post)
    (hw : b.waiting = wpre ++ ⟨(b.job j).id, w⟩ :: wpost) :
    Ok { b with
      job := put b.job j ⟨(b.job j).id, max (b.job j).result v,
        pre ++ ⟨c, w⟩ :: post⟩
      waiting := wpre ++ wpost
      told := ⟨j, some i, v⟩ :: b.told } := by
  have hmem : (⟨c, i⟩ : Holder) ∈ (b.job j).holders := hc ▸ by simp
  refine hok.change hj (fun x hx => ?_) (fun _ _ _ _ _ => rfl) ?_ hok.known
    (fun x hx => Or.inl ?_) (fun _ => by simp) (mem_told hok hj)
  · by_cases hxc : x.client = c
    · rw [hxc]
      exact hok.seated j hj _ hmem
    · refine hok.seated j hj x ?_
      rw [hc]
      simp only [List.mem_append, List.mem_cons] at hx ⊢
      rcases hx with hx | rfl | hx
      · exact Or.inl hx
      · exact absurd rfl hxc
      · exact Or.inr (Or.inr hx)
  · have honce := hok.once j hj
    rw [hc] at honce
    simpa using honce
  · rw [hw]
    exact mem_of_removed hx

/-- A piece moves to an idle client, which holds no other. -/
theorem Ok.moved {b : Board} (hok : b.Ok) {j c w : Nat} {i : Int} {jn : Ptr}
    {o : Option Seat} {pre post : List Holder} (hj : j ∈ b.order)
    (hc : (b.job j).holders = pre ++ ⟨c, i⟩ :: post)
    (hw : b.seat w = some ⟨false, jn⟩) (ho : o = none ∨ o = some ⟨false, some j⟩) :
    Ok { b with
      job := put b.job j ⟨(b.job j).id, (b.job j).result, pre ++ post ++ [⟨w, i⟩]⟩
      seat := put (put b.seat w (some ⟨true, some j⟩)) c o } := by
  have hsub : ∀ x ∈ pre ++ post, x ∈ (b.job j).holders :=
    fun x hx => hc ▸ mem_of_removed hx
  have hmem : (⟨c, i⟩ : Holder) ∈ (b.job j).holders := hc ▸ by simp
  have hidle : ∀ x ∈ pre ++ post, x.client ≠ w :=
    fun x hx => hok.not_holder_of_idle hw hj (hsub x hx)
  have hwc : w ≠ c := (hok.not_holder_of_idle hw hj hmem).symm
  have ho' : Knows b.order o := by
    rcases ho with rfl | rfl
    · exact knows_none _
    · exact knows_job hj _
  refine hok.change hj (fun x hx => ?_) (fun k hk hkj x hx => ?_) ?_
    (knows_put ho' (knows_put (knows_job hj true) hok.known w) c)
    (fun x hx => Or.inl hx) (fun _ => by simp) hok.heard
  · rcases List.mem_append.mp hx with hx | hx
    · rw [put_ne _ (hok.client_ne hj hc hx), put_ne _ (hidle x hx)]
      exact hok.seated j hj x (hsub x hx)
    · rw [List.mem_singleton.mp hx, put_ne _ hwc, put_self]
  · rw [put_ne _ fun heq => hkj (hok.holder_unique hk hj hx hmem heq),
      put_ne _ (hok.not_holder_of_idle hw hk hx)]
  · rw [List.map_append, List.nodup_append]
    refine ⟨hok.once_removed hj hc, List.pairwise_singleton _ _, fun a ha d hd => ?_⟩
    obtain ⟨x, hx, rfl⟩ := List.mem_map.mp ha
    rw [List.mem_singleton.mp hd]
    exact hidle x hx

theorem Step.ok {garbage : Nat → Int} {b b' : Board} {l : Label}
    (h : Step garbage b l b') (hok : b.Ok) : b'.Ok := by
  cases h with
  | stay => exact hok
  | @join c hc =>
      refine hok.seatless (fun j hj x hx heq => ?_) _ fun st j hst hjn => ?_
      · rw [← heq, hok.seated j hj x hx] at hc
        cases hc
      · cases hst
        cases hjn
  | leave hc => exact hok.seatless hc none (knows_none _)
  | add hj hid hnonneg hnodup hidle _ => exact hok.add hj hid hnonneg hnodup hidle
  | handed hj hc hw => exact hok.handed hj hc hw
  | @freed j c i v pre post hj hc hw =>
      have hsub : ∀ x ∈ pre ++ post, x ∈ (b.job j).holders :=
        fun x hx => hc ▸ mem_of_removed hx
      have hmem : (⟨c, i⟩ : Holder) ∈ (b.job j).holders := hc ▸ by simp
      refine hok.change hj (fun x hx => ?_) (fun k hk hkj x hx =>
        put_ne _ (fun heq => hkj ?_) _) ?_
        (knows_put (knows_job hj false) hok.known c) (fun x hx => Or.inl hx)
        (fun hserved => ?_)
        (mem_told hok hj)
      · rw [put_ne _ (hok.client_ne hj hc hx)]
        exact hok.seated j hj x (hsub x hx)
      · exact hok.holder_unique hk hj hx hmem heq
      · exact hok.once_removed hj hc
      · obtain ⟨x, hx, hxj⟩ := hserved
        exact absurd hxj (hw x hx)
  | @lost j w v wpre wpost hj hw =>
      refine hok.change hj (hok.seated j hj) (fun _ _ _ _ _ => rfl)
        (hok.once j hj) hok.known
        (fun x hx => Or.inl ?_) (fun _ => ?_) (mem_told hok hj)
      · rw [hw]
        exact mem_of_removed hx
      · exact hok.served j hj ⟨(b.job j).id, w⟩ (hw ▸ by simp) rfl
  | @stray j v hj =>
      refine hok.change hj (hok.seated j hj) (fun _ _ _ _ _ => rfl)
        (hok.once j hj) hok.known
        (fun x hx => Or.inl hx) (fun hserved => ?_) (mem_told hok hj)
      obtain ⟨x, hx, hxj⟩ := hserved
      exact hok.served j hj x hx hxj
  | moved hj hc hw ho => exact hok.moved hj hc hw ho
  | @queued j c i pre post hj hc hpost =>
      refine hok.change hj (fun x hx => hok.seated j hj x (hc ▸ mem_of_removed hx))
        (fun _ _ _ _ _ => rfl) (hok.once_removed hj hc) hok.known (fun x hx => ?_)
        (fun _ => by simp [hpost]) hok.heard
      exact (List.mem_cons.mp hx).symm.imp_right fun heq => by rw [heq]
  | @queuedAway j c i pre post hj hc hpost =>
      have hmem : (⟨c, i⟩ : Holder) ∈ (b.job j).holders := hc ▸ by simp
      refine hok.change hj (fun x hx => ?_)
        (fun k hk hkj x hx =>
          put_ne _ (fun heq => hkj (hok.holder_unique hk hj hx hmem heq)) _)
        (hok.once_removed hj hc) (knows_put (knows_none _) hok.known c)
        (fun x hx => ?_)
        (fun _ => by simp [hpost]) hok.heard
      · rw [put_ne _ (hok.client_ne hj hc hx)]
        exact hok.seated j hj x (hc ▸ mem_of_removed hx)
      · exact (List.mem_cons.mp hx).symm.imp_right fun heq => by rw [heq]

/-- The board before anything has happened. -/
def empty : Board := ⟨[], fun _ => ⟨0, 0, []⟩, [], fun _ => none, [], []⟩

theorem empty_ok : empty.Ok := by
  have hnil : ∀ {α : Type} {p : α → Prop}, ∀ x ∈ ([] : List α), p x :=
    fun x hx => absurd hx List.not_mem_nil
  exact ⟨List.nodup_nil, hnil, hnil, hnil, hnil, fun c st j hc => (by cases hc),
    hnil, hnil, hnil, hnil⟩

end Board

end Pyramid
