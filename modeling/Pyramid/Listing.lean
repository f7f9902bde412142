/-
# `Pyramid.Listing` — what a listing passes on (`server/src/server_helper.c`)

The two listings are followed here with the function they hand the collected
strings to as a parameter, a `Sender`: it gets the array and may end the run.
`batches` says which entries go together in one string, and `takeTexts_run` that
the listing is nothing but the sends of these strings, one after the other, for
every sender.  With `sh_send_encoded_data` for the sender these are the
listings of `Pyramid.Display`.
-/
import Pyramid.Display
import Pyramid.Sessions

namespace Pyramid

/-! ## The functions -/

/-- What the strings are passed to, with a state of its own. -/
abbrev Sender (σ : Type) := Bytes → σ → Except Halt σ

/-- The locals of a listing; `storage_buffer` is not initialised. -/
structure Collected (σ : Type) where
  state : σ
  storage : Bytes
  tc : Nat

section Functions
variable {σ : Type} (send : Sender σ)

/-- `sh_try_to_send_data` -/
def shTryToSendDataBy (text : Bytes) (d : Collected σ) :
    Except Halt (Collected σ) := do
  let d ←
    if 1024 ≤ d.tc + text.length + 1 then do
      let s ← send d.storage d.state
      .ok { d with state := s, tc := 0 }
    else .ok d
  let src ← cString (snprintf 1024 text)
  let storage ← poke d.storage d.tc (src ++ [0])
  .ok { d with storage := storage, tc := d.tc + src.length }

/-- `if (tc) sh_send_encoded_data(…)` -/
def Collected.rest (d : Collected σ) : Except Halt σ :=
  if d.tc = 0 then .ok d.state else send d.storage d.state

def shDisplayAllMulticastGroupsBy (reg : Registry) (storage : Bytes) (s : σ) :
    Except Halt σ := do
  let d ← eachMembership (shTryToSendDataBy send) reg maxMulticastGroups 0 ⟨s,
    storage, 0⟩
  d.rest send

def shDisplayAllClientsBy (reg : Registry) (storage : Bytes) (s : σ) :
    Except Halt σ := do
  let d ← eachClient (shTryToSendDataBy send) reg maxHashmapSize 0 ⟨s, storage, 0⟩
  d.rest send

end Functions

/-! ## Which entries go together -/

/-- The entries of each string, when `kept` are in the buffer
and `ts` are to come. -/
def batches : List Bytes → List Bytes → List (List Bytes)
  | kept, [] => if kept = [] then [] else [kept]
  | kept, t :: ts =>
      if kept.flatten.length + t.length + 1 < 1024 then batches (kept ++ [t]) ts
      else kept :: batches [t] ts

/-- Every entry is in one string, and in its place. -/
theorem batches_flatten :
    ∀ (ts kept : List Bytes), (batches kept ts).flatten = kept ++ ts := by
  intro ts
  induction ts with
  | nil =>
      intro kept
      rw [batches]
      split
      · next hnil => rw [hnil, List.flatten_nil, List.append_nil]
      · rw [List.flatten_singleton, List.append_nil]
  | cons t ts ih =>
      intro kept
      rw [batches]
      split
      · rw [ih, List.append_assoc, List.singleton_append]
      · rw [List.flatten_cons, ih, List.singleton_append]

/-- An array whose string is made of the entries `p`. -/
def Spells (a : Bytes) (p : List Bytes) : Prop :=
  a.length = 1024 ∧ cString a = .ok p.flatten

/-- The buffer starts with the entries it has kept, and its end mark after them. -/
structure Keeps1024 (storage : Bytes) (kept : List Bytes) : Prop where
  size : storage.length = 1024
  nul : 0 ∉ kept.flatten
  texts : ∃ room, storage = kept.flatten ++ room ∧ (kept ≠ [] → room.head? = some 0)

namespace Keeps1024
variable {storage : Bytes} {kept : List Bytes}

theorem empty (h : storage.length = 1024) : Keeps1024 storage [] :=
  ⟨h, List.not_mem_nil, storage, rfl, fun hne => absurd rfl hne⟩

theorem spells (h : Keeps1024 storage kept) (hne : kept ≠ []) :
    Spells storage kept := by
  obtain ⟨room, heq, hend⟩ := h.texts
  cases room with
  | nil => cases hend hne
  | cons b room =>
      cases hend hne
      refine ⟨h.size, ?_⟩
      rw [heq]
      exact cString_append h.nul

/-- An entry that fits is put after those kept. -/
theorem store (h : Keeps1024 storage kept) {t : Bytes} (ht : IsText t)
    (hfit : kept.flatten.length + t.length + 1 ≤ 1024) :
    ∃ storage', poke storage kept.flatten.length (t ++ [0]) = .ok storage' ∧
      Keeps1024 storage' (kept ++ [t]) := by
  obtain ⟨room, heq, -⟩ := h.texts
  have hroom : (t ++ [0]).length ≤ room.length := by
    have hsize := h.size
    rw [heq, List.length_append] at hsize
    rw [List.length_append, List.length_singleton]
    omega
  have hpoke := poke_room kept.flatten (t ++ [0]) room hroom
  rw [← heq] at hpoke
  refine ⟨_, hpoke, (length_poke hpoke).trans h.size, ?_,
    0 :: room.drop (t ++ [0]).length, ?_, fun _ => rfl⟩
  · rw [List.flatten_append, List.flatten_singleton]
    exact fun hmem => (List.mem_append.mp hmem).elim h.nul ht.nul
  · simp [List.append_assoc]

end Keeps1024

section Run
variable {storage : Bytes} {kept : List Bytes} {t : Bytes}

/-- An entry that fits is only stored. -/
theorem tryBy_store (h : Keeps1024 storage kept) (ht : IsText t)
    (hfit : kept.flatten.length + t.length + 1 < 1024) :
    ∃ storage', Keeps1024 storage' (kept ++ [t]) ∧
      ∀ {σ : Type} (send : Sender σ) (s : σ),
      shTryToSendDataBy send t ⟨s, storage, kept.flatten.length⟩
        = .ok ⟨s, storage', (kept ++ [t]).flatten.length⟩ := by
  obtain ⟨storage', hpoke, hkeeps⟩ := h.store ht (Nat.le_of_lt hfit)
  refine ⟨storage', hkeeps, fun send s => ?_⟩
  have hroom : ¬ 1024 ≤ kept.flatten.length + t.length + 1 := Nat.not_le.mpr hfit
  have hlen : (kept ++ [t]).flatten.length = kept.flatten.length + t.length :=
    by simp
  simp only [shTryToSendDataBy, hroom, if_false, ok_bind, ht.printed, hpoke, hlen]

/-- Before one that does not, the string in the buffer is passed on. -/
theorem tryBy_send (h : Keeps1024 storage kept) (ht : IsText t)
    (hfull : ¬ kept.flatten.length + t.length + 1 < 1024) :
    ∃ storage', Keeps1024 storage' [t] ∧ ∀ {σ : Type} (send : Sender σ) (s : σ),
      shTryToSendDataBy send t ⟨s, storage, kept.flatten.length⟩
        = send storage s >>= fun s => .ok ⟨s, storage', [t].flatten.length⟩ := by
  have hshort := ht.short
  obtain ⟨storage', hpoke, hkeeps⟩ := (Keeps1024.empty h.size).store ht (by
    rw [List.flatten_nil, List.length_nil]
    omega)
  refine ⟨storage', hkeeps, fun send s => ?_⟩
  have hroom : 1024 ≤ kept.flatten.length + t.length + 1 := Nat.not_lt.mp hfull
  rw [List.flatten_nil, List.length_nil] at hpoke
  simp only [shTryToSendDataBy, hroom, if_true, ok_bind, ht.printed, hpoke,
    List.flatten_singleton, Nat.zero_add]

/-- The listing is the sends of the batches, one after the other. -/
theorem takeTexts_run : ∀ (ts kept : List Bytes) (storage : Bytes),
    (∀ t ∈ ts, IsText t) →
    (∀ t ∈ kept, IsText t) → Keeps1024 storage kept →
    ∃ arrays, List.Forall₂ Spells arrays (batches kept ts) ∧
    ∀ {σ : Type} (send : Sender σ) (s : σ),
      (takeTexts (shTryToSendDataBy send) ts ⟨s, storage, kept.flatten.length⟩
        >>= (·.rest send))
        = arrays.foldlM (fun s a => send a s) s := by
  intro ts
  induction ts with
  | nil =>
      intro kept storage _ hkept h
      rw [batches]
      by_cases hnil : kept = []
      · rw [if_pos hnil]
        refine ⟨[], .nil, fun send s => ?_⟩
        rw [takeTexts, ok_bind, Collected.rest, if_pos (by rw [hnil]; rfl)]
        rfl
      · rw [if_neg hnil]
        refine ⟨[storage], .cons (h.spells hnil) .nil, fun send s => ?_⟩
        obtain ⟨t, kept, rfl⟩ := List.exists_cons_of_ne_nil hnil
        have hpos := (hkept t List.mem_cons_self).pos
        have hlen : ¬ (t :: kept).flatten.length = 0 := by
          rw [List.flatten_cons, List.length_append]
          omega
        rw [takeTexts, ok_bind, Collected.rest, if_neg hlen, List.foldlM_cons]
        exact (bind_pure _).symm
  | cons t ts ih =>
      intro kept storage hts hkept h
      have ht := hts t List.mem_cons_self
      have hrest : ∀ x ∈ ts, IsText x :=
        fun x hx => hts x (List.mem_cons_of_mem _ hx)
      have hone : ∀ x ∈ [t], IsText x := fun x hx => List.mem_singleton.mp hx ▸ ht
      rw [batches]
      by_cases hfit : kept.flatten.length + t.length + 1 < 1024
      · rw [if_pos hfit]
        obtain ⟨storage', hkeeps, htry⟩ := tryBy_store h ht hfit
        obtain ⟨arrays, hspell, hrun⟩ := ih (kept ++ [t]) storage' hrest
          (fun x hx => (List.mem_append.mp hx).elim (hkept x) (hone x)) hkeeps
        refine ⟨arrays, hspell, fun send s => ?_⟩
        rw [takeTexts, htry, ok_bind, hrun]
      · rw [if_neg hfit]
        have hne : kept ≠ [] := by
          rintro rfl
          have hshort := ht.short
          rw [List.flatten_nil, List.length_nil] at hfit
          omega
        obtain ⟨storage', hkeeps, htry⟩ := tryBy_send h ht hfit
        obtain ⟨arrays, hspell, hrun⟩ := ih [t] storage' hrest hone hkeeps
        refine ⟨storage :: arrays, .cons (h.spells hne) hspell, fun send s => ?_⟩
        rw [takeTexts, htry, List.foldlM_cons]
        simp only [bind_assoc, ok_bind, hrun]

end Run

/-! ## The listings -/

section Listings
variable {reg : Registry} {member chain bucket : Nat → List Nat} {storage : Bytes}

/-- The listing passes on strings made of whole entries, and all of them in
their order; it is the sends of these strings, whatever the sender is. -/
def Lossless (listing : ∀ {σ : Type}, Sender σ → σ → Except Halt σ)
    (entries : List Bytes) : Prop :=
  ∃ (arrays strings : List Bytes) (parts : List (List Bytes)),
    List.Forall₂ (fun a t => a.length = 1024 ∧ cString a = .ok t) arrays strings ∧
    strings = parts.map List.flatten ∧ parts.flatten = entries ∧
    strings.flatten = entries.flatten ∧
    ∀ {σ : Type} (send : Sender σ) (s : σ), listing send s
      = arrays.foldlM (fun s a => send a s) s

theorem lossless_of_texts {listing : ∀ {σ : Type}, Sender σ → σ → Except Halt σ}
    {entries : List Bytes} (hlen : storage.length = 1024)
    (hts : ∀ t ∈ entries, IsText t)
    (hlist : ∀ {σ : Type} (send : Sender σ) (s : σ), listing send s
      = takeTexts (shTryToSendDataBy send) entries ⟨s, storage, 0⟩
        >>= (·.rest send)) :
    Lossless listing entries := by
  obtain ⟨arrays, hspell, hrun⟩ := takeTexts_run entries [] storage hts
    (fun t ht => absurd ht List.not_mem_nil) (.empty hlen)
  have hparts := batches_flatten entries []
  refine ⟨arrays, (batches [] entries).map List.flatten, batches [] entries,
    List.forall₂_map_right_iff.mpr hspell, rfl, hparts, ?_,
    fun send s => (hlist send s).trans (hrun send s)⟩
  rw [← List.flatten_flatten, hparts, List.nil_append]

/-- What `sh_send_encoded_data` of the server is as a sender. -/
def Server.sender (cfd : Int) : Sender Server :=
  fun data s => shSendEncodedData s cfd data cliData

theorem showTexts_by (cfd : Int) : ∀ (ts : List Bytes) (d : Display),
    (showTexts cfd ts d >>= (·.rest cfd cliData))
      = takeTexts (shTryToSendDataBy (Server.sender cfd)) ts ⟨d.server,
        d.storage, d.tc⟩
          >>= (·.rest (Server.sender cfd)) := by
  intro ts
  induction ts with
  | nil => exact fun d => rfl
  | cons t ts ih =>
      intro d
      have hsend : ∀ a s, Server.sender cfd a s
          = shSendEncodedData s cfd a cliData := fun a s => rfl
      rw [showTexts] at ih ⊢
      rw [takeTexts, takeTexts]
      simp only [shTryToSendData, shTryToSendDataBy, hsend]
      split
      · simp only [bind_assoc, ok_bind, ih]
      · simp only [bind_assoc, ok_bind, ih]

/-- **Listings.**  Both listings pass on all their entries, in order and none of them
cut in two, for every sender; the server's are the ones with its own sender. -/
theorem listing_lossless (hwf : reg.WellFormed) (hlen : storage.length = 1024) :
    Lossless (fun send => shDisplayAllClientsBy send reg storage)
      (clientTexts reg reg.clients) ∧
      Lossless (fun send => shDisplayAllMulticastGroupsBy send reg storage)
        (memberTexts reg reg.members) ∧
      ∀ (s : Server) (cfd : Int), s.reg = reg →
        shDisplayAllClients s cfd storage = shDisplayAllClientsBy (Server.sender cfd)
          reg storage s ∧
        shDisplayAllMulticastGroups s cfd storage
          = shDisplayAllMulticastGroupsBy (Server.sender cfd) reg storage s := by
  obtain ⟨member, chain, bucket, hok⟩ := hwf
  have hclients : reg.clients = bucket := funext hok.clients_eq
  have hmembers : reg.members = member := funext hok.members_eq
  have hbuckets : ∀ {σ : Type} (send : Sender σ) (s : σ),
      shDisplayAllClientsBy send reg storage s
      = takeTexts (shTryToSendDataBy send) (clientTexts reg bucket) ⟨s, storage, 0⟩
          >>= (·.rest send) := by
    intro σ send s
    rw [shDisplayAllClientsBy, eachClient_eq _ hok.clients, ← List.range_eq_range']
    rfl
  have hgroups : ∀ {σ : Type} (send : Sender σ) (s : σ),
      shDisplayAllMulticastGroupsBy send reg storage s
      = takeTexts (shTryToSendDataBy send) (memberTexts reg member) ⟨s, storage, 0⟩
          >>= (·.rest send) := by
    intro σ send s
    rw [shDisplayAllMulticastGroupsBy, eachMembership_eq _ hok,
      ← List.range_eq_range']
    rfl
  rw [hclients, hmembers]
  refine ⟨lossless_of_texts hlen isText_clientTexts hbuckets,
    lossless_of_texts hlen isText_memberTexts hgroups, fun s cfd hreg => ?_⟩
  subst hreg
  constructor
  · rw [hbuckets, shDisplayAllClients_eq cfd hok]
    exact showTexts_by cfd _ _
  · rw [hgroups, shDisplayAllMulticastGroups_eq cfd hok]
    exact showTexts_by cfd _ _

/-- Two clients, one of them in two groups. -/
theorem listing_lossless_sample :
    ∃ s, runs (Session.step Supply.zeros) [.add 5 ⟨0, 0⟩ [1],
      .add 7 ⟨0, 0⟩ [1, 2]] Session.start = .ok s ∧
      memberTexts s.reg s.reg.members = [ascii "\ngid 1 : 7 ", ascii "\ngid 1 : 5 ",
        ascii "\ngid 2 : 7 "] ∧
      Lossless (fun send => shDisplayAllMulticastGroupsBy send s.reg
        (List.replicate 1024 1))
        (memberTexts s.reg s.reg.members) := by
  obtain ⟨s, hrun, hwf⟩ := runs_total (fun s : Session => s.reg.WellFormed)
    (Session.step_wellFormed Supply.zeros) [.add 5 ⟨0, 0⟩ [1], .add 7 ⟨0, 0⟩ [1, 2]]
    (⟨_, _, _, Registry.zeroed_ok⟩ : Session.start.reg.WellFormed)
  refine ⟨s, hrun, ?_, (listing_lossless hwf List.length_replicate).2.1⟩
  have htexts :
      (runs (Session.step Supply.zeros) [.add 5 ⟨0, 0⟩ [1], .add 7 ⟨0, 0⟩ [1, 2]]
      Session.start).toOption.map (fun s => memberTexts s.reg s.reg.members)
        = some [ascii "\ngid 1 : 7 ", ascii "\ngid 1 : 5 ", ascii "\ngid 2 : 7 "] :=
          by decide +kernel
  rw [hrun] at htexts
  exact Option.some.inj htexts

end Listings

end Pyramid
