/-
# `Pyramid.Display` — texts for the CLI (`server/src/server_helper.c`)

Every function that shows something formats one text after the other into
`format_buffer` and hands it to `sh_try_to_send_data`, which collects the texts
in `storage_buffer` and sends what is there when another does not fit; the rest
is sent at the end.  Its test leaves room for the end mark and none for the 8
bytes of headers that `encode` puts before the text, so a frame fits in the
1024 bytes of `payload` only if the texts happen not to fill the buffer.

`texts_fit_iff` is the induction over the texts; `Packs` follows the lengths
the buffer has at the sends, starting from what it holds already.
-/
import Pyramid.Server
import Pyramid.Sessions

namespace Pyramid

/-! ## The functions -/

/-- The locals of a display function; `storage_buffer` is not initialised. -/
structure Display where
  server : Server
  storage : Bytes
  tc : Nat

/-- `sh_try_to_send_data` for what `snprintf(format_buffer, ONE_KB, …)` made of
`text`; `c` is its full length, even if it was cut off. -/
def shTryToSendData (fd : Int) (type : Int) (text : Bytes) (d : Display) :
    Except Halt Display := do
  let d ←
    if 1024 ≤ d.tc + text.length + 1 then do
      let s ← shSendEncodedData d.server fd d.storage type
      .ok { d with server := s, tc := 0 }
    else .ok d
  let src ← cString (snprintf 1024 text)
  let storage ← poke d.storage d.tc (src ++ [0])
  .ok { d with storage := storage, tc := d.tc + src.length }

/-- `if (tc) sh_send_encoded_data(…)` -/
def Display.rest (fd : Int) (type : Int) (d : Display) : Except Halt Server :=
  if d.tc = 0 then .ok d.server else shSendEncodedData d.server fd d.storage type

/-- `CLI_DATA` -/
def cliData : Int := 5

/-- `"\ngid %u : %d "` -/
def memberText (gid : Nat) (cfd : Int) : Bytes :=
  ascii "\ngid " ++ decimal gid ++ ascii " : " ++ decimal cfd ++ ascii " "

/-- `"%d "` -/
def clientText (cfd : Int) : Bytes := decimal cfd ++ ascii " "

/-! The walks of the macros, for any way to take the texts. -/

section Walks
variable {D : Type} (take : Bytes → D → Except Halt D)

def takeTexts : List Bytes → D → Except Halt D
  | [], d => .ok d
  | t :: ts, d => do
      let d ← take t d
      takeTexts ts d

/-- `FOR_ALL_GROUP_IDS`, from `cg` on -/
def eachMember (reg : Registry) : Nat → Ptr → D → Except Halt D
  | _, none, d => .ok d
  | 0, some _, _ => .error .diverge
  | fuel + 1, some cg, d => do
      let v ← reg.groups.load (some cg)
      let ci ← reg.infos.load v.ci
      let d ← take (memberText v.gid ci.cfd) d
      eachMember reg fuel v.n d

/-- `FOR_ALL_MULTICAST_GROUPS` -/
def eachMembership (reg : Registry) : Nat → Nat → D → Except Halt D
  | 0, _, d => .ok d
  | n + 1, i, d => do
      let d ← eachMember take reg reg.groups.next (reg.multicastGroups i).h d
      eachMembership reg n (i + 1) d

/-- The inner loop of `FOR_ALL_CLIENT_FDS` -/
def eachInBucket (reg : Registry) : Nat → Ptr → D → Except Halt D
  | _, none, d => .ok d
  | 0, some _, _ => .error .diverge
  | fuel + 1, some p, d => do
      let ci ← reg.infos.load (some p)
      let d ← take (clientText ci.cfd) d
      eachInBucket reg fuel ci.r d

/-- `FOR_ALL_CLIENT_FDS` -/
def eachClient (reg : Registry) : Nat → Nat → D → Except Halt D
  | 0, _, d => .ok d
  | n + 1, i, d => do
      let d ← eachInBucket take reg reg.infos.next (reg.clientHashMap i).h d
      eachClient reg n (i + 1) d

end Walks

def shDisplayAllMulticastGroups (s : Server) (cfd : Int) (storage : Bytes) :
    Except Halt Server := do
  let take := shTryToSendData cfd cliData
  let d ← eachMembership take s.reg maxMulticastGroups 0 ⟨s, storage, 0⟩
  d.rest cfd cliData

def shDisplayAllClients (s : Server) (cfd : Int) (storage : Bytes) :
    Except Halt Server := do
  let take := shTryToSendData cfd cliData
  let d ← eachClient take s.reg maxHashmapSize 0 ⟨s, storage, 0⟩
  d.rest cfd cliData

/-- What the functions that show a single text have in common. -/
def showText (s : Server) (fd type : Int) (text storage : Bytes) :
    Except Halt Server := do
  let d ← shTryToSendData fd type text ⟨s, storage, 0⟩
  d.rest fd type

/-- `value` is what `tlv.value` points to. -/
def shSendJobResultToCli (s : Server) (clientFd : Int) (value storage : Bytes) :
    Except Halt Server := do
  let text ← cString value
  showText s clientFd cliData (ascii "[" ++ text ++ ascii "]") storage

/-! ## One frame -/

theorem length_poke {buf bs buf' : Bytes} {off : Nat}
    (h : poke buf off bs = .ok buf') :
    buf'.length = buf.length := by
  unfold poke at h
  split at h
  · next hle =>
      cases h
      simp only [List.length_append, List.length_take, List.length_drop]
      omega
  · cases h

theorem poke_fits {buf bs : Bytes} {off : Nat} (h : off + bs.length ≤ buf.length) :
    ∃ buf', poke buf off bs = .ok buf' ∧ buf'.length = buf.length := by
  have hp : poke buf off bs
      = .ok (buf.take off ++ (bs ++ buf.drop (off + bs.length))) := if_pos h
  exact ⟨_, hp, length_poke hp⟩

/-- A text of more than 1016 bytes is written past the end of `payload`. -/
theorem encodeCliData_new {data : Bytes} {n : Nat} (hpos : 0 < n) (hlt : n < 1024)
    (hdata : n ≤ data.length) :
    (n ≤ 1016 → ∃ buf, encodeType cliData data n ⟨0, List.replicate 1024 0⟩ = .ok
      (8 + n, buf) ∧
      buf.payload.length = 1024) ∧
    (1016 < n → encodeType cliData data n ⟨0, List.replicate 1024 0⟩ = .error
      .outOfBounds) := by
  have hcli : ∀ buf, encodeType cliData data n buf
      = encodeBytes .cliData data n buf := fun _ => rfl
  have hrej : ¬ ((n : Int) ≤ 0 ∨ 1024 ≤ (n : Int)) := by omega
  have hzero : (List.replicate 1024 (0 : UInt8)).length = 1024 :=
    List.length_replicate
  obtain ⟨p₁, hp₁, hl₁⟩ :=
    @poke_fits (List.replicate 1024 0) (bytes16 (htons Attribute.cliData.code)) 4
    (by rw [hzero, length_bytes16]; omega)
  obtain ⟨p₂, hp₂, hl₂⟩ := @poke_fits p₁ (bytes16 (htons n)) (4 + 2)
    (by rw [hl₁, hzero, length_bytes16]; omega)
  have hpeek : peek data 0 n = .ok (data.take n) := by
    simp [peek, hdata]
  have htake : (data.take n).length = n := by
    rw [List.length_take]
    omega
  have hrun : encodeType cliData data n ⟨0, List.replicate 1024 0⟩
      = poke p₂ 8 (data.take n) >>= fun p => Buffer.close p (8 + n) := by
    simp only [hcli, encodeBytes, hrej, if_false, Buffer.reserve, if_true, hp₁,
      ok_bind, hp₂, Int.toNat_natCast, hpeek]
  constructor
  · intro hle
    obtain ⟨p₃, hp₃, hl₃⟩ :=
      @poke_fits p₂ (data.take n) 8 (by rw [hl₂, hl₁, hzero, htake]; omega)
    obtain ⟨p₄, hp₄, hl₄⟩ := @poke_fits p₃ (bytes32 (htonl (8 + n))) 0
      (by rw [hl₃, hl₂, hl₁, hzero, length_bytes32]; omega)
    refine ⟨⟨8 + n, p₄⟩, ?_, by rw [hl₄, hl₃, hl₂, hl₁, hzero]⟩
    rw [hrun, hp₃, ok_bind, Buffer.close, hp₄, ok_bind]
  · intro hgt
    have hout : poke p₂ 8 (data.take n) = .error .outOfBounds :=
      if_neg (by rw [hl₂, hl₁, hzero, htake]; omega)
    rw [hrun, hout, error_bind]

theorem length_le_of_cString {data text : Bytes} (h : cString data = .ok text) :
    text.length ≤ data.length := by
  rw [(cString_ok.mp h).2]
  exact (List.takeWhile_prefix _).length_le

/-- What is sent of a text that is not empty: one frame, if that fits. -/
theorem shSendEncodedData_cli {s : Server} {fd : Int} {data text : Bytes}
    (htext : cString data = .ok text) (hpos : 0 < text.length)
    (hlt : text.length < 1024) :
    (text.length ≤ 1016 → ∃ frame, shSendEncodedData s fd data cliData
        = .ok { s with sent := s.sent ++ [⟨fd, frame⟩] } ∧
          frame.length = 8 + text.length) ∧
    (1016 < text.length → shSendEncodedData s fd data cliData = .error
      .outOfBounds) := by
  obtain ⟨n, hn⟩ : ∃ n, text.length = n + 1 := ⟨text.length - 1, by omega⟩
  obtain ⟨hok, hbad⟩ := encodeCliData_new hpos hlt (length_le_of_cString htext)
  have hmore : ¬ ((text.length : Int) ≤ 0) := by omega
  have hround : shSendEncodedData s fd data cliData
      = encodeType cliData data text.length ⟨0, List.replicate 1024 0⟩ >>= fun r =>
        sendRounds fd data cliData n (text.length - r.1)
          { s with sent := s.sent ++ [⟨fd, r.2.payload.take r.1⟩] } := by
    rw [shSendEncodedData, htext, ok_bind]
    conv_lhs => rw [hn, sendRounds]
    rw [← hn, if_neg hmore]
  constructor
  · intro hle
    obtain ⟨buf, henc, hlen⟩ := hok hle
    refine ⟨buf.payload.take (8 + text.length), ?_, by rw [List.length_take]; omega⟩
    have hdone : (text.length : Int) - ((8 + text.length : Nat) : Int) ≤ 0 := by
      omega
    rw [hround, henc, ok_bind, sendRounds_done _ _ _ _ hdone]
  · intro hgt
    rw [hround, hbad hgt, error_bind]

/-! ## What is collected -/

/-- `storage_buffer` starts with the `tc` bytes collected, and
its end mark after them. -/
def Display.Holds (d : Display) : Prop :=
  d.storage.length = 1024 ∧ ∃ text room, d.storage = text ++ room ∧
    text.length = d.tc ∧ 0 ∉ text ∧
    (text ≠ [] → room.head? = some 0)

/-- A text as `snprintf` makes them here: short, and without a zero byte. -/
structure IsText (t : Bytes) : Prop where
  nul : 0 ∉ t
  pos : 0 < t.length
  short : t.length ≤ 1022

theorem IsText.printed {t : Bytes} (ht : IsText t) :
    cString (snprintf 1024 t) = .ok t := by
  have hshort := ht.short
  rw [cString_snprintf (by decide) ht.nul, List.take_of_length_le (by omega)]

/-- A text that fits is put after those collected. -/
theorem Display.Holds.store {d : Display} {t : Bytes} (h : d.Holds) (ht : IsText t)
    (hfit : d.tc + t.length + 1 ≤ 1024) :
    ∃ storage, poke d.storage d.tc (t ++ [0]) = .ok storage ∧
      Display.Holds ⟨d.server, storage, d.tc + t.length⟩ := by
  obtain ⟨hlen, text, room, hstorage, htc, hnul, -⟩ := h
  have hroom : (t ++ [0]).length ≤ room.length := by
    rw [hstorage, List.length_append] at hlen
    rw [List.length_append, List.length_singleton]
    omega
  have hpoke := poke_room text (t ++ [0]) room hroom
  rw [← hstorage, htc] at hpoke
  refine ⟨_, hpoke, (length_poke hpoke).trans hlen, text ++ t,
    0 :: room.drop (t ++ [0]).length, ?_, ?_, ?_, fun _ => rfl⟩
  · simp [List.append_assoc]
  · rw [List.length_append, htc]
  · rintro hmem
    rcases List.mem_append.mp hmem with hmem | hmem
    · exact hnul hmem
    · exact ht.nul hmem

theorem Display.Holds.send {d : Display} (h : d.Holds) (hpos : d.tc ≠ 0)
    (hle : d.tc ≤ 1022) (fd : Int) :
    (d.tc ≤ 1016 → ∃ frame, shSendEncodedData d.server fd d.storage cliData
        = .ok { d.server with sent := d.server.sent ++ [⟨fd, frame⟩] } ∧
          frame.length ≤ 1024) ∧
    (¬ d.tc ≤ 1016 → shSendEncodedData d.server fd d.storage cliData = .error
      .outOfBounds) := by
  obtain ⟨-, text, room, hstorage, htc, hnul, hend⟩ := h
  have hne : text ≠ [] := by
    rintro rfl
    exact hpos htc.symm
  obtain ⟨room, rfl⟩ : ∃ r, room = 0 :: r := by
    cases room with
    | nil => cases hend hne
    | cons b room =>
        cases hend hne
        exact ⟨room, rfl⟩
  have htext : cString d.storage = .ok text := by rw [hstorage, cString_append hnul]
  obtain ⟨hok, hbad⟩ :=
    @shSendEncodedData_cli d.server fd _ _ htext (by omega) (by omega)
  rw [htc] at hok hbad
  refine ⟨fun hfit => ?_, fun hno => hbad (by omega)⟩
  obtain ⟨frame, hsend, hframe⟩ := hok hfit
  exact ⟨frame, hsend, by omega⟩

section Try
variable {d : Display} {t : Bytes} {fd type : Int}

/-- A text that fits is only stored. -/
theorem try_store (hd : d.Holds) (ht : IsText t)
    (hfit : d.tc + t.length + 1 < 1024) :
    ∃ d', shTryToSendData fd type t d = .ok d' ∧ d'.Holds ∧ d'.server = d.server ∧
      d'.tc = d.tc + t.length := by
  obtain ⟨storage, hpoke, hd'⟩ := hd.store ht (by omega)
  refine ⟨_, ?_, hd', rfl, rfl⟩
  have hroom : ¬ 1024 ≤ d.tc + t.length + 1 := by omega
  simp only [shTryToSendData, hroom, if_false, ok_bind, ht.printed, hpoke]

/-- Before one that does not, what is there is sent. -/
theorem try_send (hd : d.Holds) (ht : IsText t) {s : Server}
    (hfull : ¬ d.tc + t.length + 1 < 1024)
    (hsend : shSendEncodedData d.server fd d.storage type = .ok s) :
    ∃ d', shTryToSendData fd type t d = .ok d' ∧ d'.Holds ∧ d'.server = s ∧
      d'.tc = t.length := by
  have hshort := ht.short
  have hnew : Display.Holds ⟨s, d.storage, 0⟩ :=
    ⟨hd.1, [], d.storage, rfl, rfl, List.not_mem_nil, fun hne => absurd rfl hne⟩
  obtain ⟨storage, hpoke, hd'⟩ :=
    hnew.store ht (by show 0 + t.length + 1 ≤ 1024; omega)
  refine ⟨_, ?_, hd', rfl, Nat.zero_add _⟩
  have hroom : 1024 ≤ d.tc + t.length + 1 := by omega
  simp only [shTryToSendData, hroom, if_true, hsend, ok_bind, ht.printed, hpoke]

theorem try_error {e : Halt} (hfull : ¬ d.tc + t.length + 1 < 1024)
    (hsend : shSendEncodedData d.server fd d.storage type = .error e) :
    shTryToSendData fd type t d = .error e := by
  have hroom : 1024 ≤ d.tc + t.length + 1 := by omega
  simp only [shTryToSendData, hroom, if_true, hsend, error_bind]

end Try

/-! ## All the frames -/

/-- The call returns, and every frame it sent fits in `payload`. -/
def Fits (s : Server) (r : Except Halt Server) : Prop :=
  ∃ s' frames, r = .ok s' ∧ s'.sent = s.sent ++ frames ∧ ∀ f ∈ frames,
    f.frame.length ≤ 1024

/-- Texts of these lengths, put into a buffer that holds `tc` bytes, never leave
more than 1016 there when it is sent. -/
def Packs : Nat → List Nat → Prop
  | tc, [] => tc ≤ 1016
  | tc, n :: ns =>
      if tc + n + 1 < 1024 then Packs (tc + n) ns else tc ≤ 1016 ∧ Packs n ns

instance decidablePacks : ∀ tc ns, Decidable (Packs tc ns)
  | tc, [] => inferInstanceAs (Decidable (tc ≤ 1016))
  | tc, n :: ns =>
      have := decidablePacks (tc + n) ns
      have := decidablePacks n ns
      inferInstanceAs (Decidable (if tc + n + 1 < 1024 then Packs (tc + n) ns
        else tc ≤ 1016 ∧ Packs n ns))

/-- `sh_try_to_send_data` of one text after the other. -/
def showTexts (fd : Int) : List Bytes → Display → Except Halt Display :=
  takeTexts (shTryToSendData fd cliData)

theorem Fits.after {s s' : Server} {r : Except Halt Server} (f : Sent)
    (hs : s'.sent = s.sent ++ [f]) (hf : f.frame.length ≤ 1024) (h : Fits s' r) :
    Fits s r := by
  obtain ⟨s₂, frames, hrun, hsent, hframes⟩ := h
  refine ⟨s₂, f :: frames, hrun, ?_, fun x hx => ?_⟩
  · rw [hsent, hs, List.append_assoc]
    rfl
  · rcases List.mem_cons.mp hx with rfl | hx
    · exact hf
    · exact hframes x hx

/-- The texts are sent in frames that fit, or the first that
does not ends the run. -/
theorem showTexts_run (fd : Int) :
    ∀ (ts : List Bytes) (d : Display), (∀ t ∈ ts, IsText t) → d.Holds → d.tc ≤ 1022 →
      (Packs d.tc (ts.map List.length) →
        Fits d.server (showTexts fd ts d >>= (·.rest fd cliData))) ∧
      (¬ Packs d.tc (ts.map List.length) →
        showTexts fd ts d >>= (·.rest fd cliData) = .error .outOfBounds) := by
  intro ts
  induction ts with
  | nil =>
      intro d _ hd htc
      rw [showTexts, takeTexts, ok_bind, Display.rest]
      by_cases h0 : d.tc = 0
      · rw [if_pos h0]
        exact ⟨fun _ => ⟨d.server, [], rfl, (List.append_nil _).symm,
          fun f hf => absurd hf List.not_mem_nil⟩,
          fun hno => absurd (by rw [h0]; exact Nat.zero_le _) hno⟩
      · rw [if_neg h0]
        obtain ⟨hok, hbad⟩ := hd.send h0 htc fd
        refine ⟨fun hle => ?_, hbad⟩
        obtain ⟨frame, hsend, hframe⟩ := hok hle
        refine ⟨_, [⟨fd, frame⟩], hsend, rfl, fun f hf => ?_⟩
        rw [List.mem_singleton.mp hf]
        exact hframe
  | cons t ts ih =>
      intro d hts hd htc
      have ht := hts t List.mem_cons_self
      have hrest : ∀ x ∈ ts, IsText x :=
        fun x hx => hts x (List.mem_cons_of_mem _ hx)
      have hshort := ht.short
      rw [showTexts, takeTexts, bind_assoc, List.map_cons, Packs]
      by_cases hfit : d.tc + t.length + 1 < 1024
      · rw [if_pos hfit]
        obtain ⟨d', htry, hd', hserver, htc'⟩ := @try_store _ _ fd cliData hd ht hfit
        rw [htry, ok_bind, ← hserver, ← htc']
        exact ih d' hrest hd' (by omega)
      · rw [if_neg hfit]
        have h0 : d.tc ≠ 0 := by omega
        obtain ⟨hok, hbad⟩ := hd.send h0 htc fd
        by_cases hle : d.tc ≤ 1016
        · obtain ⟨frame, hsend, hframe⟩ := hok hle
          obtain ⟨d', htry, hd', hserver, htc'⟩ := try_send hd ht hfit hsend
          obtain ⟨hgood, hfail⟩ := ih d' hrest hd' (by omega)
          rw [htry, ok_bind, ← htc']
          refine ⟨fun hpacks => (hgood hpacks.2).after ⟨fd, frame⟩ ?_ hframe,
            fun hno =>
            hfail fun hpacks => hno ⟨hle, hpacks⟩⟩
          rw [hserver]
        · rw [try_error hfit (hbad hle), error_bind]
          exact ⟨fun hpacks => absurd hpacks.1 hle, fun _ => rfl⟩

theorem texts_fit_iff (fd : Int) {ts : List Bytes} (hts : ∀ t ∈ ts, IsText t)
    (s : Server) {storage : Bytes} (hlen : storage.length = 1024) :
    Fits s (showTexts fd ts ⟨s, storage, 0⟩ >>= (·.rest fd cliData)) ↔
      Packs 0 (ts.map List.length) := by
  obtain ⟨hok, hbad⟩ := showTexts_run fd ts ⟨s, storage, 0⟩ hts
    ⟨hlen, [], storage, rfl, rfl, List.not_mem_nil, fun hne => absurd rfl hne⟩
    (Nat.zero_le _)
  constructor
  · intro hfits
    by_contra hno
    rw [hbad hno] at hfits
    obtain ⟨s', frames, h, -⟩ := hfits
    cases h
  · exact hok

/-! ## The texts of a registry -/

section Registry
variable {reg : Registry} {member chain bucket : Nat → List Nat} (fd : Int)

/-- What is shown of the clients, in the order of the buckets. -/
def clientTexts (reg : Registry) (bucket : Nat → List Nat) : List Bytes :=
  (List.range maxHashmapSize).flatMap fun b =>
    (bucket b).filterMap fun a => (reg.infos.cell a).map fun ci => clientText ci.cfd

/-- What is shown of one `client_group`. -/
def textOf (reg : Registry) (x : Nat) : Option Bytes :=
  (reg.groups.cell x).bind fun v => (v.ci.bind reg.infos.cell).map fun ci =>
    memberText v.gid ci.cfd

/-- What is shown of the memberships, group by group. -/
def memberTexts (reg : Registry) (member : Nat → List Nat) : List Bytes :=
  (List.range maxMulticastGroups).flatMap fun g => (member g).filterMap (textOf reg)

theorem member_cells (hok : reg.Ok member chain bucket) (g : Nat) :
    ∀ x ∈ member g, ∃ v c ci, reg.groups.cell x = some v ∧ v.ci = some c ∧
    reg.infos.cell c = some ci := by
  intro x hx
  obtain ⟨c, ⟨v, hv, hvc, -⟩, hchain⟩ := hok.groups.owned g x hx
  obtain ⟨b, hb⟩ := hok.registered c (List.ne_nil_of_mem hchain)
  obtain ⟨ci, hcell, -⟩ := hok.clients.client b c hb
  exact ⟨v, c, ci, hv, hvc, hcell⟩

section Walks
variable {D : Type} (take : Bytes → D → Except Halt D)

theorem takeTexts_append (ts us : List Bytes) :
    ∀ d, takeTexts take (ts ++ us) d
      = takeTexts take ts d >>= takeTexts take us := by
  induction ts with
  | nil => exact fun d => (ok_bind d _).symm
  | cons t ts ih =>
      intro d
      simp only [List.cons_append, takeTexts, bind_assoc, ih]

theorem eachInBucket_eq {p first : Ptr} {xs : List Nat}
    (hs : Seg infoLinks reg.infos (fun _ => False) p first xs none) :
    ∀ {fuel : Nat} (d : D), xs.length ≤ fuel →
      eachInBucket take reg fuel first d = takeTexts take
        (xs.filterMap fun a => (reg.infos.cell a).map fun ci =>
          clientText ci.cfd) d := by
  induction xs generalizing p first with
  | nil =>
      intro fuel d _
      rw [Leads.eq hs, eachInBucket]
      rfl
  | cons a xs ih =>
      intro fuel d hfuel
      obtain ⟨hlead, v, hv, -, hrest⟩ := hs
      obtain ⟨fuel, rfl⟩ : ∃ k, fuel = k + 1 := ⟨fuel - 1, by simp at hfuel; omega⟩
      have hnext : ∀ d, eachInBucket take reg fuel v.r d = _ :=
        fun d => ih hrest d (by simpa using hfuel)
      rw [hlead.eq, eachInBucket, Heap.load_some hv, ok_bind,
        List.filterMap_cons_some (b := clientText v.cfd) (by rw [hv]; rfl),
        takeTexts]
      simp only [hnext]

theorem eachMember_eq {p first : Ptr} {xs : List Nat}
    (hs : Seg groupLinks reg.groups (fun _ => False) p first xs none)
    (hci : ∀ x ∈ xs, ∃ v c ci, reg.groups.cell x = some v ∧ v.ci = some c ∧
      reg.infos.cell c = some ci) :
    ∀ {fuel : Nat} (d : D), xs.length ≤ fuel →
      eachMember take reg fuel first d
        = takeTexts take (xs.filterMap (textOf reg)) d := by
  induction xs generalizing p first with
  | nil =>
      intro fuel d _
      rw [Leads.eq hs, eachMember]
      rfl
  | cons a xs ih =>
      intro fuel d hfuel
      obtain ⟨hlead, v, hv, -, hrest⟩ := hs
      obtain ⟨w, c, ci, hw, hwc, hcell⟩ := hci a List.mem_cons_self
      cases hv.symm.trans hw
      obtain ⟨fuel, rfl⟩ : ∃ k, fuel = k + 1 := ⟨fuel - 1, by simp at hfuel; omega⟩
      have hnext : ∀ d, eachMember take reg fuel v.n d = _ :=
        fun d => ih hrest (fun x hx => hci x (List.mem_cons_of_mem _ hx)) d
          (by simpa using hfuel)
      have htext : textOf reg a = some (memberText v.gid ci.cfd) := by
        rw [textOf, hv, Option.bind_some, hwc, Option.bind_some, hcell,
          Option.map_some]
      rw [hlead.eq, eachMember, Heap.load_some hv, ok_bind, hwc,
        Heap.load_some hcell, ok_bind, List.filterMap_cons_some htext, takeTexts]
      simp only [hnext]

theorem eachClient_eq (hok : ClientsOk reg.infos reg.clientHashMap bucket chain) :
    ∀ (n i : Nat) (d : D), eachClient take reg n i d = takeTexts take
      ((List.range' i n).flatMap fun b =>
        (bucket b).filterMap fun a => (reg.infos.cell a).map fun ci =>
          clientText ci.cfd) d := by
  intro n
  induction n with
  | zero => exact fun i d => rfl
  | succ n ih =>
      intro i d
      rw [eachClient, eachInBucket_eq take (hok.list i) d
        ((hok.list i).length_le (hok.nodup i)), List.range'_succ, List.flatMap_cons,
        takeTexts_append]
      simp only [ih]

theorem eachMembership_eq (hok : reg.Ok member chain bucket) :
    ∀ (n i : Nat) (d : D), eachMembership take reg n i d = takeTexts take
      ((List.range' i n).flatMap fun g => (member g).filterMap (textOf reg)) d := by
  intro n
  induction n with
  | zero => exact fun i d => rfl
  | succ n ih =>
      intro i d
      have hlist := hok.groups.list i
      rw [eachMembership, eachMember_eq take hlist (member_cells hok i) d
        (hlist.length_le (hok.groups.nodup i)), List.range'_succ, List.flatMap_cons,
          takeTexts_append]
      simp only [ih]

section Keeping
variable {take} {R : D → D → Prop} (hrefl : ∀ d, R d d) (htrans : ∀ {d e f}, R d e →
  R e f → R d f)
  (htake : ∀ {t d d'}, take t d = .ok d' → R d d')

include hrefl htrans htake

/-! What every text keeps, a walk keeps. -/

theorem eachMember_keeps : ∀ (fuel : Nat) (p : Ptr) {d d' : D},
    eachMember take reg fuel p d = .ok d' → R d d' := by
  intro fuel
  induction fuel with
  | zero =>
      intro p d d' h
      cases p with
      | none =>
          cases h
          exact hrefl _
      | some cg => cases h
  | succ fuel ih =>
      intro p d d' h
      cases p with
      | none =>
          cases h
          exact hrefl _
      | some cg =>
          obtain ⟨v, -, h⟩ := bind_ok.mp h
          obtain ⟨ci, -, h⟩ := bind_ok.mp h
          obtain ⟨d₁, hshow, h⟩ := bind_ok.mp h
          exact htrans (htake hshow) (ih v.n h)

theorem eachMembership_keeps : ∀ (n i : Nat) {d d' : D},
    eachMembership take reg n i d = .ok d' → R d d' := by
  intro n
  induction n with
  | zero =>
      intro i d d' h
      cases h
      exact hrefl _
  | succ n ih =>
      intro i d d' h
      obtain ⟨d₁, hshow, h⟩ := bind_ok.mp h
      exact htrans (eachMember_keeps hrefl htrans htake _ _ hshow) (ih (i + 1) h)

theorem eachInBucket_keeps : ∀ (fuel : Nat) (p : Ptr) {d d' : D},
    eachInBucket take reg fuel p d = .ok d' → R d d' := by
  intro fuel
  induction fuel with
  | zero =>
      intro p d d' h
      cases p with
      | none =>
          cases h
          exact hrefl _
      | some ci => cases h
  | succ fuel ih =>
      intro p d d' h
      cases p with
      | none =>
          cases h
          exact hrefl _
      | some ci =>
          obtain ⟨v, -, h⟩ := bind_ok.mp h
          obtain ⟨d₁, hshow, h⟩ := bind_ok.mp h
          exact htrans (htake hshow) (ih v.r h)

theorem eachClient_keeps : ∀ (n i : Nat) {d d' : D},
    eachClient take reg n i d = .ok d' → R d d' := by
  intro n
  induction n with
  | zero =>
      intro i d d' h
      cases h
      exact hrefl _
  | succ n ih =>
      intro i d d' h
      obtain ⟨d₁, hshow, h⟩ := bind_ok.mp h
      exact htrans (eachInBucket_keeps hrefl htrans htake _ _ hshow) (ih (i + 1) h)

end Keeping

end Walks

theorem shDisplayAllClients_eq {s : Server} (hok : s.reg.Ok member chain bucket)
    (storage : Bytes) :
    shDisplayAllClients s fd storage
      = showTexts fd (clientTexts s.reg bucket) ⟨s, storage, 0⟩
        >>= (·.rest fd cliData) := by
  have hwalk := eachClient_eq (shTryToSendData fd cliData) hok.clients maxHashmapSize
    0 ⟨s, storage, 0⟩
  rw [← List.range_eq_range'] at hwalk
  exact congrArg (· >>= (·.rest fd cliData)) hwalk

theorem shDisplayAllMulticastGroups_eq {s : Server}
    (hok : s.reg.Ok member chain bucket) (storage : Bytes) :
    shDisplayAllMulticastGroups s fd storage
      = showTexts fd (memberTexts s.reg member) ⟨s, storage, 0⟩
        >>= (·.rest fd cliData) := by
  have hwalk := eachMembership_eq (shTryToSendData fd cliData) hok maxMulticastGroups
    0 ⟨s, storage, 0⟩
  rw [← List.range_eq_range'] at hwalk
  exact congrArg (· >>= (·.rest fd cliData)) hwalk

theorem isText_client (cfd : Int) : IsText (clientText cfd) := by
  have hlen := decimal_length cfd
  refine ⟨fun hmem => ?_, ?_, ?_⟩
  · rcases List.mem_append.mp hmem with hmem | hmem
    · exact decimal_nul cfd hmem
    · exact absurd hmem (by decide)
  · rw [clientText, List.length_append]
    exact Nat.lt_add_left _ (by decide)
  · rw [clientText, List.length_append, show (ascii " ").length = 1 from rfl]
    omega

theorem isText_member (gid : Nat) (cfd : Int) : IsText (memberText gid cfd) := by
  have hgid := decimal_length gid
  have hcfd := decimal_length cfd
  refine ⟨fun hmem => ?_, ?_, ?_⟩
  · simp only [memberText, List.mem_append] at hmem
    rcases hmem with (((hmem | hmem) | hmem) | hmem) | hmem
    · exact absurd hmem (by decide)
    · exact decimal_nul gid hmem
    · exact absurd hmem (by decide)
    · exact decimal_nul cfd hmem
    · exact absurd hmem (by decide)
  · rw [memberText, List.length_append]
    exact Nat.lt_add_left _ (by decide)
  · simp only [memberText, List.length_append, show (ascii "\ngid ").length
      = 5 from rfl, show (ascii " : ").length = 3 from rfl, show (ascii " ").length
        = 1 from rfl]
    omega

theorem isText_clientTexts : ∀ t ∈ clientTexts reg bucket, IsText t := by
  intro t ht
  obtain ⟨b, -, ht⟩ := List.mem_flatMap.mp ht
  obtain ⟨a, -, ht⟩ := List.mem_filterMap.mp ht
  obtain ⟨ci, -, rfl⟩ := Option.map_eq_some_iff.mp ht
  exact isText_client ci.cfd

theorem isText_memberTexts : ∀ t ∈ memberTexts reg member, IsText t := by
  intro t ht
  obtain ⟨g, -, ht⟩ := List.mem_flatMap.mp ht
  obtain ⟨x, -, ht⟩ := List.mem_filterMap.mp ht
  obtain ⟨v, -, ht⟩ := Option.bind_eq_some_iff.mp ht
  obtain ⟨ci, -, rfl⟩ := Option.map_eq_some_iff.mp ht
  exact isText_member v.gid ci.cfd

end Registry

/-- The answer to a value of at most 1014 bytes fits; a chunk
has room for two more. -/
theorem result_fits_iff (s : Server) (fd : Int) {chunk storage v : Bytes} {off : Nat}
    (hchunk : chunk.length ≤ 1024) (hoff : 8 ≤ off) (hlen : storage.length = 1024)
    (hv : cString ((chunk ++ [0]).drop off) = .ok v) :
    Fits s (shSendJobResultToCli s fd ((chunk ++ [0]).drop off) storage) ↔
      v.length ≤ 1014 := by
  obtain ⟨hend, htake⟩ := cString_ok.mp hv
  have hnul : 0 ∉ v := by
    intro hmem
    rw [htake] at hmem
    exact absurd (List.all_eq_true.mp List.all_takeWhile 0 hmem) (by decide)
  have hshort : v.length ≤ 1016 := by
    have hle := length_le_of_cString hv
    have hlt : v.length < ((chunk ++ [0]).drop off).length := by
      refine Nat.lt_of_le_of_ne hle fun heq => hnul ?_
      rw [htake] at heq ⊢
      rwa [(List.takeWhile_prefix _).eq_of_length heq]
    rw [List.length_drop, List.length_append, List.length_singleton] at hlt
    omega
  have htext : (ascii "[" ++ v ++ ascii "]").length = v.length + 2 := by
    simp only [List.length_append, show (ascii "[").length = 1 from rfl,
      show (ascii "]").length = 1 from rfl]
    omega
  have hts : ∀ t ∈ [ascii "[" ++ v ++ ascii "]"], IsText t := by
    intro t ht
    rw [List.mem_singleton.mp ht]
    refine ⟨fun hmem => ?_, by omega, by omega⟩
    rcases List.mem_append.mp hmem with hmem | hmem
    · rcases List.mem_append.mp hmem with hmem | hmem
      · exact absurd hmem (by decide)
      · exact hnul hmem
    · exact absurd hmem (by decide)
  have hrun : shSendJobResultToCli s fd ((chunk ++ [0]).drop off) storage
      = showTexts fd [ascii "[" ++ v ++ ascii "]"] ⟨s, storage, 0⟩
        >>= (·.rest fd cliData) := by
    rw [shSendJobResultToCli, hv, ok_bind, showText, showTexts, takeTexts,
      bind_assoc]
    simp only [takeTexts, ok_bind]
  rw [hrun, texts_fit_iff fd hts s hlen, List.map_singleton, htext, Packs,
    if_pos (by omega), Packs]
  omega

/-- **Which frames fit.**  The clients and the memberships of a registry are
shown in frames that fit exactly when their texts, collected as they come, never
leave more than 1016 bytes in a buffer that is sent, and the answer to a value
that came in one chunk fits exactly when the value has at most 1014 bytes. -/
theorem frames_fit_iff (s : Server) {member chain bucket : Nat → List Nat}
    (hok : s.reg.Ok member chain bucket) (cfd : Int) {storage : Bytes}
    (hlen : storage.length = 1024) :
    (Fits s (shDisplayAllClients s cfd storage) ↔
        Packs 0 ((clientTexts s.reg bucket).map List.length)) ∧
      (Fits s (shDisplayAllMulticastGroups s cfd storage) ↔
        Packs 0 ((memberTexts s.reg member).map List.length)) ∧
      ∀ (chunk v : Bytes) (off : Nat), chunk.length ≤ 1024 → 8 ≤ off →
        cString ((chunk ++ [0]).drop off) = .ok v →
        (Fits s (shSendJobResultToCli s cfd ((chunk ++ [0]).drop off) storage) ↔
          v.length ≤ 1014) := by
  refine ⟨?_, ?_, fun chunk v off hchunk hoff hv =>
    result_fits_iff s cfd hchunk hoff hlen hv⟩
  · rw [shDisplayAllClients_eq cfd hok]
    exact texts_fit_iff cfd isText_clientTexts s hlen
  · rw [shDisplayAllMulticastGroups_eq cfd hok]
    exact texts_fit_iff cfd isText_memberTexts s hlen

/-- Two clients, one of them in two groups, and a chunk with the value 12. -/
theorem frames_fit_sample : ∃ s t,
    runs (Session.step Supply.zeros) [.add 5 ⟨0, 0⟩ [1],
      .add 7 ⟨0, 0⟩ [1, 2]] Session.start = .ok s ∧
      t = Server.boot s.reg Config.sample ∧
      Fits t (shDisplayAllClients t 9 (List.replicate 1024 0)) ∧
      Fits t (shDisplayAllMulticastGroups t 9 (List.replicate 1024 0)) ∧
      Fits t (shSendJobResultToCli t 9
        (([0, 0, 0, 11, 0, 102, 0, 3, 49, 50, 10] ++ [0] : Bytes).drop 8)
        (List.replicate 1024 0)) := by
  obtain ⟨s, hrun, member, chain, bucket, hok⟩ :=
    runs_total (fun s : Session => s.reg.WellFormed)
    (Session.step_wellFormed Supply.zeros) [.add 5 ⟨0, 0⟩ [1], .add 7 ⟨0, 0⟩ [1, 2]]
    (⟨_, _, _, Registry.zeroed_ok⟩ : Session.start.reg.WellFormed)
  have hlengths :
      (runs (Session.step Supply.zeros) [.add 5 ⟨0, 0⟩ [1], .add 7 ⟨0, 0⟩ [1, 2]]
        Session.start).toOption.map (fun s =>
          ((clientTexts s.reg s.reg.clients).map List.length,
        (memberTexts s.reg s.reg.members).map List.length))
        = some ([2, 2], [11, 11, 11]) := by
    decide +kernel
  rw [hrun] at hlengths
  obtain ⟨hclients, hmembers⟩ := Prod.mk.inj (Option.some.inj hlengths)
  obtain ⟨t, ht⟩ : ∃ t, t = Server.boot s.reg Config.sample := ⟨_, rfl⟩
  have hreg : s.reg = t.reg := by rw [ht, Server.boot]
  rw [hreg] at hclients hmembers hok
  rw [funext hok.clients_eq] at hclients
  rw [funext hok.members_eq] at hmembers
  obtain ⟨hall, hgroups, hresult⟩ := frames_fit_iff t hok 9
    (show (List.replicate 1024 (0 : UInt8)).length = 1024 from List.length_replicate)
  rw [hclients] at hall
  rw [hmembers] at hgroups
  have hvalue :
      cString (([0, 0, 0, 11, 0, 102, 0, 3, 49, 50, 10] ++ [0] : Bytes).drop 8)
      = .ok [49, 50, 10] := by decide
  have hfits := (hresult _ _ _ (by decide) (Nat.le_refl 8) hvalue).mpr (by decide)
  exact ⟨s, t, hrun, ht, hall.mpr (by decide), hgroups.mpr (by decide), hfits⟩

/-- A chunk of 1023 bytes: 8 of headers and a value of 1015 digits. -/
theorem answer_too_long :
    ¬ Fits (Server.boot Registry.zeroed Config.sample)
      (shSendJobResultToCli (Server.boot Registry.zeroed Config.sample) 5
        ((List.replicate 1023 (57 : UInt8) ++ [0]).drop 8)
        (List.replicate 1024 0)) := by
  have hchunk : (List.replicate 1023 (57 : UInt8)).length = 1023 :=
    List.length_replicate
  have hdrop : (List.replicate 1023 (57 : UInt8) ++ [0]).drop 8
      = List.replicate 1015 57 ++ [0] := by
    rw [List.drop_append_of_le_length (by omega), List.drop_replicate]
  have hv : cString ((List.replicate 1023 (57 : UInt8) ++ [0]).drop 8)
      = .ok (List.replicate 1015 57) := by
    rw [hdrop]
    exact cString_append fun hmem => absurd (List.eq_of_mem_replicate hmem)
      (by decide)
  intro hfits
  have hle :=
    (result_fits_iff _ _ (by omega) (Nat.le_refl 8) List.length_replicate hv).mp
      hfits
  rw [List.length_replicate] at hle
  omega

end Pyramid
