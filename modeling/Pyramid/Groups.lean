/-
# `Pyramid.Groups` — the registry of clients (`server/src/groups.c`, `groups.h`)

A client is a `client_info` in the list of the bucket its descriptor hashes to.
For every group it registered for it has a `client_group`, which is in two
lists at once: doubly linked with the other clients of the group, and singly
linked (`ncg`) with the client's other groups.

A `client_group_head *` is the index of the head in its table, as is a
`client_info_head *`.  The tables have 1000 and 255 heads; `getHash` and
`serverIsMulticastGroupValid` keep every index below that.  Counters are
`uint`s, so they are kept modulo `2^32`.
-/
import Pyramid.Memory.Links
import Pyramid.Memory.Bytes

namespace Pyramid

/-- `f` with the value `v` at `i`: a store to an array. -/
def put {β : Type} (f : Nat → β) (i : Nat) (v : β) : Nat → β :=
  fun k => if k = i then v else f k

@[simp] theorem put_self {β : Type} (f : Nat → β) (i : Nat) (v : β) :
    put f i v i = v := by
  simp [put]

theorem put_ne {β : Type} (f : Nat → β) {i k : Nat} (h : k ≠ i) (v : β) :
    put f i v k = f k := by
  simp [put, h]

theorem put_eq_self {β : Type} {f : Nat → β} {i : Nat} {v : β} (h : f i = v) :
    put f i v = f := by
  funext k
  by_cases hk : k = i
  · rw [hk, put_self, h]
  · rw [put_ne f hk]

theorem put_put {β : Type} (f : Nat → β) (i : Nat) (v w : β) :
    put (put f i v) i w = put f i w := by
  funext k
  by_cases hk : k = i
  · rw [hk, put_self, put_self]
  · rw [put_ne _ hk, put_ne _ hk, put_ne _ hk]

/-- What holds of the value that was put and of the others holds of all. -/
theorem forall_put {β : Type} (p : Nat → β → Prop) {f : Nat → β} {i : Nat} {v : β}
    (hv : p i v) (hf : ∀ k, k ≠ i → p k (f k)) (k : Nat) : p k (put f i v k) := by
  by_cases hk : k = i
  · rw [hk, put_self]
    exact hv
  · rw [put_ne f hk]
    exact hf k hk

theorem forall_put₂ {β γ : Type} (p : Nat → β → γ → Prop) {f : Nat → β}
    {g : Nat → γ} {i : Nat} {v : β} {w : γ} (hv : p i v w)
    (hf : ∀ k, k ≠ i → p k (f k) (g k)) (k : Nat) :
    p k (put f i v k) (put g i w k) := by
  by_cases hk : k = i
  · rw [hk, put_self, put_self]
    exact hv
  · rw [put_ne f hk, put_ne g hk]
    exact hf k hk

theorem mem_put_cons {xs : Nat → List Nat} {a k y j : Nat} :
    y ∈ put xs k (a :: xs k) j ↔ (j = k ∧ y = a) ∨ y ∈ xs j := by
  refine forall_put (fun j zs => y ∈ zs ↔ (j = k ∧ y = a) ∨ y ∈ xs j) ?_
    (fun j hj => ?_) j
  · rw [List.mem_cons, eq_self_iff_true, true_and]
  · exact ⟨Or.inr, fun h => h.resolve_left fun heq => hj heq.1⟩

/-- Only one of the lists has `a`, and that one has it once. -/
theorem mem_put_erase {xs : Nat → List Nat} {a k : Nat} (hnd : (xs k).Nodup)
    (hapart : ∀ j, a ∈ xs j → j = k) {y j : Nat} :
    y ∈ put xs k ((xs k).erase a) j ↔ y ∈ xs j ∧ y ≠ a := by
  refine forall_put (fun j zs => y ∈ zs ↔ y ∈ xs j ∧ y ≠ a) ?_ (fun j hj => ?_) j
  · rw [hnd.mem_erase_iff, and_comm]
  · exact ⟨fun h => ⟨h, fun heq => hj (hapart j (heq ▸ h))⟩, fun h => h.1⟩

/-! ## Records -/

/-- `client_info`, without the lock that nothing uses. -/
structure ClientInfo where
  l : Ptr
  r : Ptr
  cg : Ptr
  tgid : Nat
  cfd : Int
  cip : Nat
  cp : Nat
  busy : Bool
  jn : Ptr
  deriving DecidableEq, Repr

/-- `client_group` -/
structure ClientGroup where
  p : Ptr
  n : Ptr
  ci : Ptr
  ncg : Ptr
  gid : Nat
  deriving DecidableEq, Repr

/-- `client_group_head` and `client_info_head` -/
structure Head where
  h : Ptr
  tc : Nat
  deriving DecidableEq, Repr

structure Registry where
  infos : Heap ClientInfo
  groups : Heap ClientGroup
  multicastGroups : Nat → Head
  clientHashMap : Nat → Head

/-- The zeroed tables. -/
def Registry.zeroed : Registry :=
  ⟨Heap.empty, Heap.empty, fun _ => ⟨none, 0⟩, fun _ => ⟨none, 0⟩⟩

/-- What `malloc` gives for the next record of each type. -/
structure Supply where
  info : Nat → Option ClientInfo
  group : Nat → Option ClientGroup

def infoLinks : Links ClientInfo where
  next v := v.r
  prev v := v.l
  setNext p v := { v with r := p }
  setPrev p v := { v with l := p }
  next_setNext _ _ := rfl
  prev_setNext _ _ := rfl
  next_setPrev _ _ := rfl
  prev_setPrev _ _ := rfl

def groupLinks : Links ClientGroup where
  next v := v.n
  prev v := v.p
  setNext p v := { v with n := p }
  setPrev p v := { v with p := p }
  next_setNext _ _ := rfl
  prev_setNext _ _ := rfl
  next_setPrev _ _ := rfl
  prev_setPrev _ _ := rfl

/-- `tc++` and `tc--` on a `uint`. -/
def incr (tc : Nat) : Nat := (tc + 1) % 4294967296

def decr (tc : Nat) : Nat := (tc + 4294967295) % 4294967296

theorem incr_of_lt {n : Nat} (h : n + 1 < 4294967296) : incr n = n + 1 := by
  unfold incr
  omega

theorem decr_succ {n : Nat} (h : n < 4294967296) : decr (n + 1) = n := by
  unfold decr
  omega

/-! ## Looking things up -/

def maxMulticastGroups : Nat := 1000

def maxClientsPerMulticastGroup : Nat := 255

def maxHashmapSize : Nat := 255

def serverIsMulticastGroupValid (gid : Nat) : Bool :=
  1 ≤ gid && gid ≤ maxMulticastGroups

def serverGetClientGidHead (gid : Nat) : Option Nat :=
  if serverIsMulticastGroupValid gid then some (gid - 1) else none

/-- `cfd % max_hashmap_size`: the `int` is converted to `uint` first. -/
def getHash (cfd : Int) : Nat := (cfd % 4294967296).toNat % maxHashmapSize

def serverGetClientInfoHead (cfd : Int) : Nat := getHash cfd

def serverSearchClientFd (reg : Registry) (cih : Nat) (cfd : Int) :
    Except Halt Ptr :=
  reg.infos.chase (·.r) (fun ci => ci.cfd == cfd) reg.infos.next
    (reg.clientHashMap cih).h

/-! ## Leaving -/

/-- The body of the loop of `server_del_client_from_groups`,
once `cg` has moved on. -/
def leaveGroup (reg : Registry) (me : Nat) (v : ClientGroup) :
    Except Halt Registry := do
  let groups ← detach groupLinks reg.groups v
  match serverGetClientGidHead v.gid with
  | none => .error .nullDeref
  | some cgh => do
      let head := reg.multicastGroups cgh
      let groups ← groups.free (some me)
      .ok { reg with
        groups := groups
        multicastGroups :=
          put reg.multicastGroups cgh ⟨detachFirst groupLinks v head.h,
            decr head.tc⟩ }

/-- Every round of the loop frees a record. -/
def serverDelClientFromGroups : Nat → Ptr → Registry → Except Halt Registry
  | _, none, reg => .ok reg
  | 0, some _, _ => .error .diverge
  | fuel + 1, some me, reg => do
      let v ← reg.groups.load (some me)
      let reg ← leaveGroup reg me v
      serverDelClientFromGroups fuel v.ncg reg

def serverDelOneClientFd (reg : Registry) (cih : Option Nat) (cfd : Int) :
    Except Halt (Bool × Registry) :=
  match cih with
  | none => .ok (false, reg)
  | some cih => do
      match ← serverSearchClientFd reg cih cfd with
      | none => .ok (false, reg)
      | some ci => do
          let v ← reg.infos.load (some ci)
          let reg ← serverDelClientFromGroups reg.groups.next v.cg reg
          let infos ← detach infoLinks reg.infos v
          let infos ← infos.free (some ci)
          let head := reg.clientHashMap cih
          .ok (true, { reg with
            infos := infos
            clientHashMap :=
              put reg.clientHashMap cih ⟨detachFirst infoLinks v head.h,
                decr head.tc⟩ })

/-! ## Joining -/

section Joining
variable (supply : Supply)

/-- `server_add_client_to_one_group`.  A `client_group` that cannot
be used is not freed. -/
def serverAddClientToOneGroup (ci : Nat) (gid : Nat) (cg : Ptr) (reg : Registry) :
    Except Halt (Ptr × Registry) :=
  let (ncg, groups) := reg.groups.malloc supply.group
  let reg := { reg with groups := groups }
  match ncg, serverGetClientGidHead gid with
  | some a, some cgh =>
      let head := reg.multicastGroups cgh
      if maxClientsPerMulticastGroup ≤ head.tc then .ok (none, reg)
      else do
        let groups ← reg.groups.modify (some a) fun _ =>
          ⟨none, head.h, some ci, cg, gid⟩
        let groups ← attach groupLinks groups head.h a
        .ok (some a, { reg with
          groups := groups
          multicastGroups := put reg.multicastGroups cgh ⟨some a, incr head.tc⟩ })
  | _, _ => .ok (none, reg)

/-- The loop of `server_add_client_to_groups`; `cg` is the group joined last. -/
def serverAddClientToGroups (ci : Nat) :
    List Nat → Ptr → Registry → Except Halt (Ptr × Registry)
  | [], cg, reg => .ok (cg, reg)
  | gid :: gids, cg, reg => do
      let (cgt, reg) ← serverAddClientToOneGroup supply ci gid cg reg
      match cgt with
      | none => do
          let reg ← serverDelClientFromGroups reg.groups.next cg reg
          .ok (none, reg)
      | some a => serverAddClientToGroups ci gids (some a) reg

/-- `struct sockaddr_in`, in network byte order. -/
structure SockAddr where
  sAddr : Nat
  sinPort : Nat

def serverAddOneNewClientFd (reg : Registry) (cih : Nat) (cfd : Int) (sa : SockAddr)
    (gids : List Nat) : Except Halt (Bool × Registry) :=
  let (nci, infos) := reg.infos.malloc supply.info
  let reg := { reg with infos := infos }
  match nci with
  | none => .ok (false, reg)
  | some a => do
      let (cg, reg) ← serverAddClientToGroups supply a gids none reg
      match cg with
      | none => do
          let infos ← reg.infos.free (some a)
          .ok (false, { reg with infos := infos })
      | some _ => do
          let head := reg.clientHashMap cih
          let infos ← reg.infos.modify (some a) fun _ =>
            ⟨none, head.h, cg, gids.length, cfd, htonl sa.sAddr, htons sa.sinPort,
              false, none⟩
          let infos ← attach infoLinks infos head.h a
          .ok (true, { reg with
            infos := infos
            clientHashMap := put reg.clientHashMap cih ⟨some a, incr head.tc⟩ })

/-- `server_add_one_client_fd`: whether the inner registration
succeeded is not asked. -/
def serverAddOneClientFd (reg : Registry) (cih : Option Nat) (cfd : Int)
    (sa : SockAddr) (gids : List Nat) : Except Halt (Bool × Registry) :=
  match cih with
  | none => .ok (false, reg)
  | some cih =>
      if maxMulticastGroups < gids.length then .ok (false, reg)
      else do
        -- the search only decides what is printed
        let _ ← serverSearchClientFd reg cih cfd
        let (_, reg) ← serverAddOneNewClientFd supply reg cih cfd sa gids
        .ok (true, reg)

end Joining

end Pyramid
