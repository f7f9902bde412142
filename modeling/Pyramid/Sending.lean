/-
# `Pyramid.Sending` — the loops around `send`

`send` may take fewer bytes than it is given.  `sh_send_encoded_data`, the
`send_data` of the client and `request_cli_data` have the same loop around it:
they take the number of bytes sent from the length of the text, and while some
of the text seems to be left they encode the text anew, from its start.

`sendLoop` is this loop, with a schedule that says how many bytes each `send`
takes, and `frameSize` the size of what `encode` builds when it stays inside
its arrays.  `sends_frame_iff` says when the loop puts one whole frame on the
connection: no more and no less than when the first `send` takes all of it and
that is not less than the text.
-/
import Pyramid.RoundTrip
import Pyramid.Deliveries

namespace Pyramid

/-! ## The loops -/

/-- How many bytes the `k`-th `send` takes when it is given so many. -/
abbrev Schedule := Nat → Nat → Nat

/-- At least one byte, unless it is given none, and no more than it is given. -/
def Schedule.Possible (r : Schedule) : Prop := ∀ k n, r k n ≤ n ∧ (0 < n → 0 < r k n)

/-- The buffer that every round starts with. -/
def freshBuffer : Buffer := ⟨0, List.replicate 1024 0⟩

/-- The loop, from the `k`-th `send` on; `out` is on the connection already. -/
def sendLoop (r : Schedule) (data : Bytes) (type : Int) :
    Nat → Nat → Int → Bytes → Except Halt Bytes
  | fuel, k, len, out =>
      if len ≤ 0 then .ok out
      else match fuel with
        | 0 => .error .diverge
        | fuel + 1 => do
            let (encodedLen, buf) ← encodeType type data len freshBuffer
            let sent := r k encodedLen
            sendLoop r data type fuel (k + 1) (len - sent)
              (out ++ buf.payload.take sent)

def sendText (r : Schedule) (fuel : Nat) (data : Bytes) (type : Int) :
    Except Halt Bytes := do
  let text ← cString data
  sendLoop r data type fuel 0 text.length []

/-- `sh_send_encoded_data` -/
def shSendEncodedDataBy (r : Schedule) (fuel : Nat) (data : Bytes) (type : Int) :
    Except Halt Bytes :=
  sendText r fuel data type

/-- `send_data` of the client -/
def sendDataBy (r : Schedule) (fuel : Nat) (buffer : Bytes) (algo : Int) :
    Except Halt Bytes :=
  sendText r fuel buffer algo

/-- `request_cli_data`, which copies its argument into `char buffer[80]` first. -/
def requestCliDataBy (r : Schedule) (fuel : Nat) (cliBuff : Bytes) :
    Except Halt Bytes := do
  let text ← cString cliBuff
  if 80 ≤ text.length then .error .outOfBounds
  else
    sendText r fuel (text ++ List.replicate (80 - text.length) 0)
      Attribute.cliData.code

/-! ## What `encode` builds -/

/-- The size of the frame for a text of `len` bytes, if one is built. -/
def frameSize (type : Int) (data : Bytes) (len : Nat) : Option Nat :=
  match if type < 0 then none else Attribute.ofCode type.toNat with
  | some .stringData | some .cliData | some .algoSort | some .algoMax =>
      if 0 < len ∧ len ≤ 1016 then some (8 + len) else none
  | some .goodBye => some 15
  | some .joinGroup =>
      if 0 < len ∧ len ≤ 254 ∧ 4 * len ≤ data.length
        then some (8 + 4 * len) else none
  | some .algoError =>
      if len ≤ 254 ∧ (0 < len → 4 ≤ data.length) then some (8 + 4 * len) else none
  | _ => none

/-- An encoder that was given `freshBuffer` builds a frame of
this size, or no frame. -/
def Makes (r : Except Halt (Nat × Buffer)) : Option Nat → Prop
  | some n => ∃ buf, r = .ok (n, buf) ∧ buf.payload.length = 1024
  | none => ∀ n buf, r = .ok (n, buf) → n = 0 ∧ buf.payload.length = 1024

section Encoding
variable {data payload : Bytes} {len : Nat}

theorem poke_ok {buf bs buf' : Bytes} {off : Nat} :
    poke buf off bs = .ok buf' → off + bs.length ≤ buf.length
      ∧ buf'.length = buf.length := by
  intro h
  unfold poke at h
  split at h
  · next hle =>
      cases h
      refine ⟨hle, ?_⟩
      simp only [List.length_append, List.length_take, List.length_drop]
      omega
  · cases h

theorem poke_some (buf bs : Bytes) (off : Nat) (hle : off + bs.length ≤ buf.length) :
    ∃ buf', poke buf off bs = .ok buf' ∧ buf'.length = buf.length := by
  have hpoke : poke buf off bs
      = .ok (buf.take off ++ (bs ++ buf.drop (off + bs.length))) := if_pos hle
  exact ⟨_, hpoke, (poke_ok hpoke).2⟩

theorem close_some (total : Nat) (h : payload.length = 1024) :
    ∃ buf, Buffer.close payload total = .ok (total, buf) ∧
      buf.payload.length = 1024 := by
  obtain ⟨p, hp, hlen⟩ := poke_some payload (bytes32 (htonl total)) 0
    (by rw [length_bytes32, h]; decide)
  exact ⟨⟨total, p⟩, by rw [Buffer.close, hp, ok_bind], hlen.trans h⟩

/-- Type and length of the first TLV are stored. -/
theorem stored_head (type length : Nat) :
    ∃ p q, poke (List.replicate 1024 0) 4 (bytes16 type) = .ok p ∧
    poke p (4 + 2) (bytes16 length) = .ok q ∧ q.length = 1024 := by
  obtain ⟨p, hp, hlen⟩ := poke_some (List.replicate 1024 0) (bytes16 type) 4
    (by rw [length_bytes16, List.length_replicate]; decide)
  rw [List.length_replicate] at hlen
  obtain ⟨q, hq, hlen'⟩ := poke_some p (bytes16 length) (4 + 2)
    (by rw [length_bytes16, hlen]; decide)
  exact ⟨p, q, hp, hq, hlen'.trans hlen⟩

theorem encodeBytes_makes (attr : Attribute) (hlen : len ≤ data.length) :
    Makes (encodeBytes attr data len freshBuffer) (if 0 < len ∧ len ≤ 1016
      then some (8 + len) else none) := by
  obtain ⟨p, q, hp, hq, hqlen⟩ := stored_head (htons attr.code) (htons len)
  have hpeek : peek data 0 len = .ok (data.take len) := by
    rw [peek, if_pos (by omega)]
    rfl
  have htake : (data.take len).length = len := by
    rw [List.length_take]
    omega
  by_cases hrej : (len : Int) ≤ 0 ∨ 1024 ≤ (len : Int)
  · rw [if_neg (by omega)]
    intro n buf h
    simp only [encodeBytes, freshBuffer, Buffer.reserve, if_true, if_pos hrej] at h
    cases h
    exact ⟨rfl, List.length_replicate⟩
  have hrun : encodeBytes attr data len freshBuffer =
      (poke q 8 (data.take len) >>= fun payload =>
        Buffer.close payload (8 + len)) := by
    simp only [encodeBytes, freshBuffer, Buffer.reserve, if_true, if_neg hrej,
      Int.toNat_natCast, hp, ok_bind, hq, hpeek]
  rw [hrun]
  by_cases hfits : 0 < len ∧ len ≤ 1016
  · rw [if_pos hfits]
    obtain ⟨p', hp', hplen⟩ := poke_some q (data.take len) 8 (by omega)
    obtain ⟨buf, hclose, hbuf⟩ := close_some (8 + len) (hplen.trans hqlen)
    exact ⟨buf, by rw [hp', ok_bind, hclose], hbuf⟩
  · rw [if_neg hfits]
    intro n buf h
    obtain ⟨p', hp', -⟩ := bind_ok.mp h
    have hle := (poke_ok hp').1
    omega

theorem encodeGoodbye_makes : Makes (encodeGoodbye freshBuffer) (some 15) :=
  @encodeBytes_makes goodbye 7 .goodBye (Nat.le_refl 7)

theorem putGroups_some : ∀ (n i : Nat) (payload : Bytes) (cur : Nat),
    4 * (i + n) ≤ data.length →
    cur + 4 * n ≤ payload.length → ∃ p, putGroups data n i payload cur = .ok p ∧
      p.length = payload.length := by
  intro n
  induction n with
  | zero => exact fun i payload cur _ _ => ⟨payload, rfl, rfl⟩
  | succ n ih =>
      intro i payload cur hdata hroom
      obtain ⟨w, hw⟩ := load32_of_bound data (4 * i) (by omega)
      obtain ⟨p, hp, hlen⟩ := poke_some payload (bytes32 (htons w)) cur
        (by rw [length_bytes32]; omega)
      obtain ⟨p', hp', hlen'⟩ := ih (i + 1) p (cur + 4) (by omega) (by omega)
      exact ⟨p', by rw [putGroups, hw, ok_bind, hp, ok_bind, hp'], hlen'.trans hlen⟩

theorem putGroups_bound : ∀ (n i : Nat) {payload p : Bytes} {cur : Nat}, 0 < n →
    putGroups data n i payload cur = .ok p → 4 * (i + n) ≤ data.length := by
  intro n
  induction n with
  | zero => exact fun i payload p cur hpos _ => absurd hpos (Nat.lt_irrefl 0)
  | succ n ih =>
      intro i payload p cur _ h
      obtain ⟨w, hw, h⟩ := bind_ok.mp h
      obtain ⟨p', -, h⟩ := bind_ok.mp h
      have hfirst := load32_bound hw
      rcases Nat.eq_zero_or_pos n with rfl | hn
      · omega
      · have hrest := ih (i + 1) hn h
        omega

theorem encodeJoinGroup_makes :
    Makes (encodeJoinGroup data len freshBuffer)
      (if 0 < len ∧ len ≤ 254 ∧ 4 * len ≤ data.length then some (8 + 4 * len)
        else none) := by
  obtain ⟨p, q, hp, hq, hqlen⟩ :=
    stored_head (htons Attribute.joinGroup.code) (htons (4 * len))
  by_cases hrej : (len : Int) ≤ 0 ∨ 255 ≤ (len : Int)
  · rw [if_neg (by omega)]
    intro n buf h
    simp only [encodeJoinGroup, freshBuffer, Buffer.reserve, if_true,
      if_pos hrej] at h
    cases h
    exact ⟨rfl, List.length_replicate⟩
  have hrun : encodeJoinGroup data len freshBuffer =
      (putGroups data len 0 q 8 >>= fun payload =>
        Buffer.close payload (8 + 4 * len)) := by
    simp only [encodeJoinGroup, freshBuffer, Buffer.reserve, if_true, if_neg hrej,
      Int.toNat_natCast, hp, ok_bind, hq]
  rw [hrun]
  by_cases hfits : 0 < len ∧ len ≤ 254 ∧ 4 * len ≤ data.length
  · rw [if_pos hfits]
    obtain ⟨p', hp', hplen⟩ :=
      putGroups_some len 0 q 8 (by omega : 4 * (0 + len) ≤ data.length) (by omega)
    obtain ⟨buf, hclose, hbuf⟩ := close_some (8 + 4 * len) (hplen.trans hqlen)
    exact ⟨buf, by rw [hp', ok_bind, hclose], hbuf⟩
  · rw [if_neg hfits]
    intro n buf h
    obtain ⟨p', hp', -⟩ := bind_ok.mp h
    have hle := putGroups_bound len 0 (by omega) hp'
    omega

theorem putErrors_some (hdata : 4 ≤ data.length) :
    ∀ (n : Nat) (payload : Bytes) (cur : Nat), cur + 4 * n ≤ payload.length →
    ∃ p, putErrors data n payload cur = .ok p ∧
      p.length = payload.length := by
  intro n
  induction n with
  | zero => exact fun payload _ _ => ⟨payload, rfl, rfl⟩
  | succ n ih =>
      intro payload cur hroom
      obtain ⟨w, hw⟩ := load32_of_bound data 0 (by omega)
      obtain ⟨p, hp, hlen⟩ := poke_some payload (bytes32 (htonl w)) cur
        (by rw [length_bytes32]; omega)
      obtain ⟨p', hp', hlen'⟩ := ih p (cur + 4) (by omega)
      exact ⟨p', by rw [putErrors, hw, ok_bind, hp, ok_bind, hp'], hlen'.trans hlen⟩

theorem putErrors_bound : ∀ (n : Nat) {payload p : Bytes} {cur : Nat}, 0 < n →
    putErrors data n payload cur = .ok p →
    4 ≤ data.length ∧ cur + 4 * n ≤ payload.length := by
  intro n
  induction n with
  | zero => exact fun hpos _ => absurd hpos (Nat.lt_irrefl 0)
  | succ n ih =>
      intro payload p cur _ h
      obtain ⟨w, hw, h⟩ := bind_ok.mp h
      obtain ⟨p', hp', h⟩ := bind_ok.mp h
      have hfirst := load32_bound hw
      obtain ⟨hle, hlen⟩ := poke_ok hp'
      rw [length_bytes32] at hle
      rcases Nat.eq_zero_or_pos n with rfl | hn
      · omega
      · have hrest := ih hn h
        omega

theorem encodeAlgoError_makes :
    Makes (encodeAlgoError data len freshBuffer)
      (if len ≤ 254 ∧ (0 < len → 4 ≤ data.length) then some (8 + 4 * len)
        else none) := by
  obtain ⟨p, q, hp, hq, hqlen⟩ := stored_head (htons Attribute.algoError.code)
    (htons (4 * (len : Int) % 65536).toNat)
  have hrun : encodeAlgoError data len freshBuffer =
      (putErrors data len q 8 >>= fun payload =>
        Buffer.close payload (8 + 4 * len)) := by
    simp only [encodeAlgoError, freshBuffer, Buffer.reserve, if_true,
      Int.toNat_natCast, hp, ok_bind, hq]
  rw [hrun]
  by_cases hfits : len ≤ 254 ∧ (0 < len → 4 ≤ data.length)
  · rw [if_pos hfits]
    obtain ⟨p', hp', hplen⟩ : ∃ p', putErrors data len q 8 = .ok p' ∧
        p'.length = q.length := by
      rcases Nat.eq_zero_or_pos len with rfl | hpos
      · exact ⟨q, rfl, rfl⟩
      · exact putErrors_some (hfits.2 hpos) len q 8 (by omega)
    obtain ⟨buf, hclose, hbuf⟩ := close_some (8 + 4 * len) (hplen.trans hqlen)
    exact ⟨buf, by rw [hp', ok_bind, hclose], hbuf⟩
  · rw [if_neg hfits]
    intro n buf h
    obtain ⟨p', hp', -⟩ := bind_ok.mp h
    rcases Nat.eq_zero_or_pos len with rfl | hpos
    · exact absurd ⟨Nat.zero_le _, fun hpos => absurd hpos (Nat.lt_irrefl 0)⟩ hfits
    · obtain ⟨hdata, hle⟩ := putErrors_bound len hpos hp'
      exact absurd ⟨by omega, fun _ => hdata⟩ hfits

/-- `encode` builds a frame of size `frameSize`. -/
theorem encodeType_makes (type : Int) (hlen : len ≤ data.length) :
    Makes (encodeType type data len freshBuffer) (frameSize type data len) := by
  have hnothing : Makes (.ok (0, freshBuffer)) none := by
    intro n buf h
    cases h
    exact ⟨rfl, List.length_replicate⟩
  unfold encodeType frameSize
  cases hattr : (if type < 0 then none else Attribute.ofCode type.toNat) with
  | none => exact hnothing
  | some attr =>
      cases attr with
      | stringData | cliData | algoSort | algoMax => exact encodeBytes_makes _ hlen
      | goodBye => exact encodeGoodbye_makes
      | joinGroup => exact encodeJoinGroup_makes
      | algoError => exact encodeAlgoError_makes
      | none | int32Data | cliError | max => exact hnothing

end Encoding

/-! ## Frames of texts -/

/-- The types that are sent with the text itself. -/
def textual : List Attribute := [.stringData, .cliData, .algoSort, .algoMax]

theorem textual_code {attr : Attribute} (h : attr ∈ textual) :
    0 < attr.code ∧ attr.code < 256 := by
  simp only [textual, List.mem_cons, List.not_mem_nil, or_false] at h
  rcases h with rfl | rfl | rfl | rfl <;> decide

theorem byte_zero {x : Nat} (h : UInt8.ofNat x = 0) : x % 256 = 0 := by
  have hnat := congrArg UInt8.toNat h
  rwa [toNat_ofNat] at hnat

theorem ofNat_congr {a b : Nat} (h : a % 256 = b % 256) :
    UInt8.ofNat a = UInt8.ofNat b := by
  apply UInt8.toNat_inj.mp
  rw [toNat_ofNat, toNat_ofNat, h]

theorem bytes16_htons (x : Nat) :
    bytes16 (htons x) = [UInt8.ofNat (x / 256), UInt8.ofNat x] := by
  obtain ⟨a, b, c, ha, hb, rfl⟩ : ∃ a b c, a < 256 ∧ b < 256 ∧
      x = a + 256 * b + 65536 * c :=
    ⟨x % 256, x / 256 % 256, x / 65536, by omega, by omega, by omega⟩
  have hlow : (b + 256 * a) / 256 = a := by omega
  have hhigh : (a + 256 * b + 65536 * c) / 256 = b + 256 * c := by omega
  rw [htons_pair ha hb, bytes16, hlow, hhigh,
    ofNat_congr (by omega : (b + 256 * a) % 256 = (b + 256 * c) % 256),
    ofNat_congr (by omega : a % 256 = (a + 256 * b + 65536 * c) % 256)]

theorem bytes32_htonl {x : Nat} (hx : x < 65536) :
    bytes32 (htonl x) = [0, 0, UInt8.ofNat (x / 256), UInt8.ofNat x] := by
  obtain ⟨a, b, ha, hb, rfl⟩ : ∃ a b, a < 256 ∧ b < 256 ∧ x = a + 256 * b :=
    ⟨x % 256, x / 256, by omega, by omega, by omega⟩
  have hswap : htonl (a + 256 * b) = 65536 * b + 16777216 * a := by
    have hquad := htonl_quad ha hb (by decide : 0 < 256) (by decide : 0 < 256) 0
    simpa using hquad
  have h₀ : (65536 * b + 16777216 * a) / 256 = 256 * b + 65536 * a := by omega
  have h₁ : (65536 * b + 16777216 * a) / 65536 = b + 256 * a := by omega
  have h₂ : (65536 * b + 16777216 * a) / 16777216 = a := by omega
  have h₃ : (a + 256 * b) / 256 = b := by omega
  rw [hswap, bytes32, h₀, h₁, h₂, h₃,
    ofNat_congr (by omega : (65536 * b + 16777216 * a) % 256 = 0 % 256),
    ofNat_congr (by omega : (256 * b + 65536 * a) % 256 = 0 % 256),
    ofNat_congr (by omega : (b + 256 * a) % 256 = b % 256),
    ofNat_congr (by omega : a % 256 = (a + 256 * b) % 256)]
  rfl

/-- The bytes of a segment with one TLV. -/
theorem segment_bytes (f : Frame) (hcode : f.attr.code < 256)
    (hlen : f.value.length ≤ 1016) :
    segment [f] = 0 :: 0 :: UInt8.ofNat ((8 + f.value.length) / 256)
      :: UInt8.ofNat (8 + f.value.length) ::
      0 :: UInt8.ofNat f.attr.code :: UInt8.ofNat (f.value.length / 256) ::
      UInt8.ofNat f.value.length :: f.value := by
  have hbody : 4 + (body [f]).length = 8 + f.value.length := by
    rw [body_cons, body_nil, List.append_nil, Frame.length_wire]
    omega
  have hhigh : f.attr.code / 256 = 0 := by omega
  rw [segment_eq, hbody, bytes32_htonl (by omega), body_cons, body_nil,
    List.append_nil, Frame.wire_eq, bytes16_htons, bytes16_htons, hhigh]
  rfl

/-- No frame of a text ends with the frame of a shorter part of it: the header of
the one would have to be found in the other, and a text has no zero byte. -/
theorem segment_suffix {f g : Frame} {pre : Bytes}
    (hcode : 0 < f.attr.code ∧ f.attr.code < 256) (hattr : g.attr = f.attr)
    (hlen : f.value.length ≤ 1016) (hnul : 0 ∉ f.value) (hpre : 0 < pre.length)
    (hshort : pre.length + g.value.length = f.value.length)
    (hg : 0 < g.value.length) :
    segment [f] ≠ pre ++ segment [g] := by
  intro heq
  rw [segment_bytes f hcode.2 hlen, segment_bytes g (hattr ▸ hcode.2) (by omega),
    hattr] at heq
  have hbyte : ∀ i, (pre ++ _)[pre.length + i]? = _ := fun i =>
    (congrArg (fun l : Bytes => l[pre.length + i]?) heq.symm).trans rfl
  have hright : ∀ (i : Nat) (l : Bytes), (pre ++ l)[pre.length + i]? = l[i]? := by
    intro i l
    rw [List.getElem?_append_right (Nat.le_add_right _ _), Nat.add_sub_cancel_left]
  simp only [hright] at hbyte
  have htext : ∀ i : Nat, f.value[i]? ≠ some (0 : UInt8) :=
    fun _ h => hnul (List.mem_of_getElem? h)
  rcases (by
    omega : pre.length = 1 ∨ pre.length = 2 ∨ pre.length = 3 ∨ pre.length = 4 ∨
      pre.length = 5 ∨
      pre.length = 6 ∨ pre.length = 7 ∨ 8 ≤ pre.length) with
      ho | ho | ho | ho | ho | ho | ho | ho
  · rw [ho] at hbyte
    have := byte_zero (Option.some.inj (hbyte 4)).symm
    omega
  · rw [ho] at hbyte
    have h₀ := byte_zero (Option.some.inj (hbyte 0)).symm
    have h₁ := byte_zero (Option.some.inj (hbyte 1)).symm
    omega
  · rw [ho] at hbyte
    have h₀ := byte_zero (Option.some.inj (hbyte 0)).symm
    have h₄ := byte_zero (Option.some.inj (hbyte 4)).symm
    omega
  · rw [ho] at hbyte
    have := byte_zero (Option.some.inj (hbyte 1)).symm
    omega
  · rw [ho] at hbyte
    have := byte_zero (Option.some.inj (hbyte 0)).symm
    omega
  · rw [ho] at hbyte
    have h₀ := byte_zero (Option.some.inj (hbyte 0)).symm
    have h₁ := byte_zero (Option.some.inj (hbyte 1)).symm
    omega
  · rw [ho] at hbyte
    exact htext 0 (hbyte 1).symm
  · obtain ⟨o, ho⟩ := Nat.exists_eq_add_of_le' ho
    rw [ho] at hbyte
    exact htext o (hbyte 0).symm

/-- A text of a textual type becomes one segment. -/
theorem encodeType_text {attr : Attribute} {data : Bytes} {len : Nat}
    (hattr : attr ∈ textual) (hpos : 0 < len) (hle : len ≤ 1016)
    (hlen : len ≤ data.length) :
    ∃ buf f, f.attr = attr ∧ f.value = data.take len ∧
      encodeType attr.code data len freshBuffer = .ok (8 + len, buf) ∧
      buf.payload.take (8 + len) = segment [f] := by
  have hvalue : (data.take len).length = len := by
    rw [List.length_take]
    omega
  have hframe : ∃ f : Frame, f.attr = attr ∧ f.value = data.take len := by
    refine ⟨⟨attr, data.take len, ?_, by omega, ?_⟩, rfl, rfl⟩
    · simp only [textual, List.mem_cons, List.not_mem_nil, or_false] at hattr
      rcases hattr with rfl | rfl | rfl | rfl <;> decide
    · rintro rfl
      exact absurd hattr (by decide)
  obtain ⟨f, hf, hv⟩ := hframe
  have hroom : f.wire.length
      ≤ ((List.replicate 1024 (0 : UInt8)).drop 4).length := by
    rw [Frame.length_wire, hv, hvalue, List.length_drop, List.length_replicate]
    omega
  obtain ⟨buf, henc, hdr, hhdr, hpay, -, hholds⟩ :=
    @encodeBytes_accepts attr data len freshBuffer [] _ f hf
      (by rw [hv, Int.toNat_natCast]) (by omega) (by omega)
      (by rw [Int.toNat_natCast]; exact hlen)
      (holds_new (by rw [List.length_replicate]; decide)) hroom
  obtain ⟨rfl, hbuf⟩ := hholds (by simp)
  have hsize : buf.length = 8 + len := by
    rw [hbuf, List.nil_append, List.length_append, Packet.length_header, body_cons,
      body_nil, List.append_nil, Frame.length_wire, hv, hvalue]
    omega
  refine ⟨buf, f, hf, hv, ?_, ?_⟩
  · rw [hsize] at henc
    have hcode : ¬ ((attr.code : Int) < 0) := by omega
    rw [encodeType, if_neg hcode, Int.toNat_natCast, Attribute.ofCode_code]
    simp only [textual, List.mem_cons, List.not_mem_nil, or_false] at hattr
    rcases hattr with rfl | rfl | rfl | rfl <;> exact henc
  · rw [hpay, ← hsize, hbuf, List.take_left]
    rfl

/-! ## The loop -/

/-- The loop ends, and what it has put on the connection is the frame of the text. -/
def SendsFrame (run : Nat → Except Halt Bytes) (data : Bytes) (type : Int) : Prop :=
  ∃ fuel out text n buf, cString data = .ok text ∧ run fuel = .ok out ∧
    encodeType type data text.length freshBuffer = .ok (n, buf) ∧
    out = buf.payload.take n

section Loop
variable {r : Schedule} {data text : Bytes} {type : Int}

theorem frameSize_bounds {len k : Nat} (hk : frameSize type data len = some k) :
    0 < k ∧ k ≤ 1024 := by
  unfold frameSize at hk
  split at hk
  case h_5 =>
    cases hk
    decide
  case h_8 => cases hk
  all_goals
    rw [Option.ite_none_right_eq_some] at hk
    obtain ⟨hfits, hk⟩ := hk
    cases hk
    omega

/-- Nothing is built of no text, unless the type does not look at it. -/
theorem encodeType_nothing (hnone : frameSize type data 0 = none) :
    ∃ buf, encodeType type data (0 : Nat) freshBuffer = .ok (0, buf) := by
  unfold frameSize at hnone
  unfold encodeType
  cases hattr : (if type < 0 then none else Attribute.ofCode type.toNat) with
  | none => exact ⟨_, rfl⟩
  | some attr =>
      rw [hattr] at hnone
      cases attr with
      | goodBye | algoError => cases hnone
      | stringData | cliData | algoSort | algoMax | joinGroup => exact ⟨_, rfl⟩
      | none | int32Data | cliError | max => exact ⟨_, rfl⟩

/-- A frame that was built is in the array, and is as large as `frameSize` says. -/
theorem encodeType_size {n len : Nat} {buf : Buffer} (hlen : len ≤ data.length)
    (h : encodeType type data len freshBuffer = .ok (n, buf)) :
    (n = 0 ∧ frameSize type data len = none ∨ frameSize type data len = some n) ∧
      ∀ m ≤ n, (buf.payload.take m).length = m := by
  have hmakes := encodeType_makes type hlen
  cases hsize : frameSize type data len with
  | none =>
      rw [hsize] at hmakes
      obtain ⟨rfl, hbuf⟩ := hmakes n buf h
      refine ⟨Or.inl ⟨rfl, rfl⟩, fun m hm => ?_⟩
      rw [List.length_take]
      omega
  | some k =>
      rw [hsize] at hmakes
      obtain ⟨buf', heq, hbuf⟩ := hmakes
      cases h.symm.trans heq
      have hk := (frameSize_bounds hsize).2
      refine ⟨Or.inr rfl, fun m hm => ?_⟩
      rw [List.length_take]
      omega

/-- The last round of a loop that ends: what it sends reaches the end of the text. -/
theorem sendLoop_last (hr : r.Possible) :
    ∀ {fuel k : Nat} {len : Nat} {out out' : Bytes}, len ≤ data.length → 0 < len →
    sendLoop r data type fuel k len out = .ok out' →
    ∃ pre n buf m, out' = out ++ pre ++ buf.payload.take m ∧ pre.length < len ∧
      encodeType type data ((len - pre.length : Nat) : Int) freshBuffer
        = .ok (n, buf) ∧ 0 < m ∧ m ≤ n ∧
      len ≤ pre.length + m ∧ (pre = [] → m = r k n) := by
  intro fuel
  induction fuel with
  | zero =>
      intro k len out out' _ hpos h
      rw [sendLoop, if_neg (by omega)] at h
      cases h
  | succ fuel ih =>
      intro k len out out' hlen hpos h
      rw [sendLoop, if_neg (by omega)] at h
      obtain ⟨⟨n, buf⟩, henc, h⟩ := bind_ok.mp h
      have hrest : sendLoop r data type fuel (k + 1) ((len : Int) - r k n)
          (out ++ buf.payload.take (r k n)) = .ok out' := h
      obtain ⟨-, htake⟩ := encodeType_size hlen henc
      obtain ⟨hle, hsome⟩ := hr k n
      by_cases hdone : len ≤ r k n
      · have hend : out ++ buf.payload.take (r k n) = out' := by
          unfold sendLoop at hrest
          rw [if_pos (by omega)] at hrest
          exact Except.ok.inj hrest
        exact ⟨[], n, buf, r k n, by rw [List.append_nil, hend], hpos, henc, by
          omega, hle, by rw [List.length_nil]; omega, fun _ => rfl⟩
      · have hleft : (len : Int) - r k n = ((len - r k n : Nat) : Int) := by omega
        rw [hleft] at hrest
        obtain ⟨pre, n', buf', m, hout, hshort, henc', hm, hmn, hreach, -⟩ :=
          ih (by omega) (by omega) hrest
        have hsent := htake (r k n) hle
        refine ⟨buf.payload.take (r k n) ++ pre, n', buf', m, ?_, ?_, ?_, hm, hmn,
          ?_, fun hnil => ?_⟩
        · rw [hout]
          simp only [List.append_assoc]
        · rw [List.length_append, hsent]
          omega
        · rw [List.length_append, hsent, ← Nat.sub_sub]
          exact henc'
        · rw [List.length_append, hsent]
          omega
        · -- nothing was sent in this round or up to the last one: nothing is built
          obtain ⟨hfirst, rfl⟩ := List.append_eq_nil_iff.mp hnil
          rw [hfirst, List.length_nil] at hsent
          rw [← hsent, List.length_nil, Nat.sub_zero, Nat.sub_zero] at henc'
          cases henc.symm.trans henc'
          omega

/-- A first `send` that takes the whole frame, and a text no longer
than that: one round. -/
theorem sendLoop_once {fuel n : Nat} {buf : Buffer} (hpos : text ≠ [])
    (henc : encodeType type data text.length freshBuffer = .ok (n, buf))
    (hlen : text.length ≤ n) (hall : r 0 n = n) :
    sendLoop r data type (fuel + 1) 0 text.length [] = .ok (buf.payload.take n) := by
  have hlt := List.length_pos_of_ne_nil hpos
  rw [sendLoop, if_neg (by omega), henc, ok_bind]
  simp only [hall]
  unfold sendLoop
  rw [if_pos (by omega)]
  rfl

theorem goodbye_frame {buf : Buffer} {n : Nat} {len : Int}
    (h : encodeType Attribute.goodBye.code data len freshBuffer = .ok (n, buf)) :
    n = 15 ∧ buf.payload.take 15 = [0, 0, 0, 15, 0, 2, 0, 7, 103, 111, 111, 100, 98,
      121, 101] := by
  have hrun : encodeGoodbye freshBuffer = .ok (n, buf) := h
  have hknown : (encodeGoodbye freshBuffer).toOption.map
      (fun p => (p.1, p.2.payload.take 15))
      = some (15, [0, 0, 0, 15, 0, 2, 0, 7, 103, 111, 111, 100, 98, 121, 101]) := by
        decide +kernel
  rw [hrun] at hknown
  exact Prod.mk.inj (Option.some.inj hknown)

/-- The frame of a text is not put together from parts. -/
theorem whole_text {attr : Attribute} {m : Nat} {buf₀ buf : Buffer} {pre : Bytes}
    (hattr : attr ∈ textual) (htext : data.take text.length = text)
    (hlen : text.length ≤ data.length) (hnul : 0 ∉ text) (hle : text.length ≤ 1016)
    (hshort : pre.length < text.length)
    (henc₀ : encodeType attr.code data text.length freshBuffer
      = .ok (8 + text.length, buf₀))
    (henc : encodeType attr.code data ((text.length - pre.length : Nat) : Int)
      freshBuffer
      = .ok (8 + (text.length - pre.length), buf))
    (hm : 8 + text.length = pre.length + m)
    (heq : buf₀.payload.take (8 + text.length) = pre ++ buf.payload.take m) :
    pre = [] := by
  by_contra hne
  have hpos := List.length_pos_of_ne_nil hne
  have hshorter : text.length - pre.length ≤ data.length :=
    Nat.le_trans (Nat.sub_le _ _) hlen
  obtain ⟨b₀, f, hf, hfv, hb₀, hseg₀⟩ := encodeType_text hattr (by omega) hle hlen
  obtain ⟨b, g, hg, hgv, hb, hseg⟩ :=
    encodeType_text hattr (Nat.sub_pos_of_lt hshort) (by omega) hshorter
  cases henc₀.symm.trans hb₀
  cases henc.symm.trans hb
  have hlast : m = 8 + (text.length - pre.length) := by omega
  rw [hlast, hseg₀, hseg] at heq
  have hflen : f.value.length = text.length := by rw [hfv, htext]
  have hglen : g.value.length = text.length - pre.length := by
    rw [hgv, List.length_take]
    omega
  have hfle : f.value.length ≤ 1016 := by omega
  have hparts : pre.length + g.value.length = f.value.length := by omega
  have hgpos : 0 < g.value.length := by omega
  have hfnul : 0 ∉ f.value := by
    rw [hfv, htext]
    exact hnul
  exact segment_suffix (hf ▸ textual_code hattr) (hg.trans hf.symm) hfle hfnul hpos
    hparts hgpos heq

/-- Neither is the one of `GOOD_BYE`. -/
theorem whole_goodbye {n₀ n m : Nat} {len₀ len : Int} {buf₀ buf : Buffer}
    {pre : Bytes} (henc₀ : encodeType Attribute.goodBye.code data len₀ freshBuffer
      = .ok (n₀, buf₀))
    (henc : encodeType Attribute.goodBye.code data len freshBuffer = .ok (n, buf))
    (hm : 0 < m) (hmn : m ≤ n) (htotal : n₀ = pre.length + m)
    (heq : buf₀.payload.take n₀ = pre ++ buf.payload.take m) : pre = [] := by
  by_contra hne
  have hpos := List.length_pos_of_ne_nil hne
  obtain ⟨rfl, hbye₀⟩ := goodbye_frame henc₀
  obtain ⟨rfl, hbye⟩ := goodbye_frame henc
  have hpart : buf.payload.take m = (buf.payload.take 15).take m := by
    rw [List.take_take, Nat.min_eq_left hmn]
  have hsuffix := congrArg (List.drop pre.length) heq
  have hmo : m = 15 - pre.length := by omega
  rw [List.drop_left, hpart, hbye₀, hbye, hmo] at hsuffix
  have hno : ∀ o < 15, 0 < o →
      ([0, 0, 0, 15, 0, 2, 0, 7, 103, 111, 111, 100, 98, 121, 101] : Bytes).drop o
      ≠ ([0, 0, 0, 15, 0, 2, 0, 7, 103, 111, 111, 100, 98, 121, 101] :
        Bytes).take (15 - o) := by decide
  exact hno pre.length (by omega) hpos hsuffix

/-- If what was sent is one whole frame, it was sent in one round. -/
theorem whole_frame {n₀ n m : Nat} {buf₀ buf : Buffer} {pre : Bytes}
    (htext : data.take text.length = text) (hlen : text.length ≤ data.length)
    (hnul : 0 ∉ text) (henc₀ : encodeType type data text.length freshBuffer
      = .ok (n₀, buf₀))
    (henc : encodeType type data ((text.length - pre.length : Nat) : Int) freshBuffer
      = .ok (n, buf))
    (hm : 0 < m) (hmn : m ≤ n) (hshort : pre.length < text.length)
    (heq : buf₀.payload.take n₀ = pre ++ buf.payload.take m) : pre = [] := by
  obtain ⟨hsize₀, htake₀⟩ := encodeType_size hlen henc₀
  obtain ⟨hsize, htake⟩ := encodeType_size (Nat.le_trans (Nat.sub_le _ _) hlen) henc
  have htotal : n₀ = pre.length + m := by
    have hlength := congrArg List.length heq
    rwa [htake₀ n₀ (Nat.le_refl _), List.length_append, htake m hmn] at hlength
  have hsome₀ := hsize₀.resolve_left (by omega)
  have hsome := hsize.resolve_left (by omega)
  cases hattr : (if type < 0 then none else Attribute.ofCode type.toNat) with
  | none =>
      rw [frameSize, hattr] at hsome
      cases hsome
  | some attr =>
      obtain rfl : type = attr.code := by
        split at hattr
        · cases hattr
        · have hcode := Attribute.ofCode_eq_some.mp hattr
          omega
      rw [frameSize, hattr] at hsome hsome₀
      cases attr with
      | stringData | cliData | algoSort | algoMax =>
          obtain ⟨⟨-, hle⟩, hn₀⟩ := Option.ite_none_right_eq_some.mp hsome₀
          obtain ⟨-, hn⟩ := Option.ite_none_right_eq_some.mp hsome
          cases hn₀
          cases hn
          exact whole_text (by simp [textual]) htext hlen hnul hle hshort henc₀
            henc htotal heq
      | goodBye => exact whole_goodbye henc₀ henc hm hmn htotal heq
      | joinGroup | algoError =>
          -- a shorter text would have to leave room for a longer frame
          obtain ⟨-, hn₀⟩ := Option.ite_none_right_eq_some.mp hsome₀
          obtain ⟨-, hn⟩ := Option.ite_none_right_eq_some.mp hsome
          cases hn₀
          cases hn
          exact List.eq_nil_of_length_eq_zero (by omega)
      | none | int32Data | cliError | max => cases hsome

/-- The text in a `char` array, and that it has no zero byte. -/
theorem cString_text (htext : cString data = .ok text) :
    text.length ≤ data.length ∧ data.take text.length = text ∧ 0 ∉ text := by
  obtain ⟨hnul, room, rfl⟩ := cString_eq_ok_iff.mp htext
  exact ⟨(List.prefix_append _ _).length_le, List.take_left, hnul⟩

/-- There is nothing to send, or the first `send` takes a whole frame that is no
shorter than the text. -/
def FirstTakesAll (r : Schedule) (data : Bytes) (type : Int) (text : Bytes) : Prop :=
  (text = [] ∧ frameSize type data 0 = none) ∨
    (text ≠ [] ∧ ∃ n, frameSize type data text.length = some n ∧
      text.length ≤ n ∧ r 0 n = n)

theorem sends_frame_iff (hr : r.Possible) (htext : cString data = .ok text) :
    SendsFrame (fun fuel => sendText r fuel data type) data type ↔
      FirstTakesAll r data type text := by
  obtain ⟨hlen, htaken, hnul⟩ := cString_text htext
  have hloop : ∀ fuel, sendText r fuel data type
      = sendLoop r data type fuel 0 text.length [] := by
    intro fuel
    rw [sendText, htext, ok_bind]
  constructor
  · rintro ⟨fuel, out, text', n, buf, htext', hrun, henc, hout⟩
    cases htext.symm.trans htext'
    simp only [hloop] at hrun
    obtain ⟨hsize, hbuf⟩ := encodeType_size hlen henc
    by_cases hnil : text = []
    · -- nothing is sent, so nothing may be built
      subst hnil
      unfold sendLoop at hrun
      rw [if_pos (by decide)] at hrun
      cases hrun
      have hzero := congrArg List.length hout
      rw [hbuf n (Nat.le_refl _), List.length_nil] at hzero
      rcases hsize with ⟨-, hnone⟩ | hsome
      · exact Or.inl ⟨rfl, hnone⟩
      · have hpos := (frameSize_bounds hsome).1
        omega
    · obtain ⟨pre, n', buf', m, hsent, hshort, henc', hm, hmn, hreach, hfirst⟩ :=
        sendLoop_last hr hlen (List.length_pos_of_ne_nil hnil) hrun
      rw [List.nil_append, hout] at hsent
      have hpre := whole_frame htaken hlen hnul henc henc' hm hmn hshort hsent
      subst hpre
      rw [List.length_nil, Nat.sub_zero] at henc'
      cases henc.symm.trans henc'
      have hall := congrArg List.length hsent
      rw [List.nil_append, hbuf n (Nat.le_refl _), hbuf m hmn] at hall
      subst hall
      rw [List.length_nil] at hreach
      exact Or.inr ⟨hnil, n, hsize.resolve_left (by omega),
        by omega, (hfirst rfl).symm⟩
  · rintro (⟨rfl, hnone⟩ | ⟨hne, n, hsome, hle, hall⟩)
    · obtain ⟨buf, henc⟩ := encodeType_nothing hnone
      refine ⟨0, [], [], 0, buf, htext, ?_, henc, rfl⟩
      show sendText r 0 data type = _
      rw [hloop, List.length_nil, sendLoop, if_pos (by decide)]
    · have hmakes := encodeType_makes type hlen
      rw [hsome] at hmakes
      obtain ⟨buf, henc, -⟩ := hmakes
      refine ⟨1, _, text, n, buf, htext, ?_, henc, rfl⟩
      show sendText r 1 data type = _
      rw [hloop]
      exact sendLoop_once hne henc hle hall

/-- The copy that `request_cli_data` makes is encoded like the text itself. -/
theorem encodeType_copy {copy : Bytes} (hcopy : copy.take text.length = text)
    (hdata : data.take text.length = text) :
    encodeType Attribute.cliData.code copy text.length freshBuffer
      = encodeType Attribute.cliData.code data text.length freshBuffer := by
  have hpeek : ∀ {bs : Bytes}, bs.take text.length = text →
      peek bs 0 text.length = .ok text := by
    intro bs hbs
    have hle := congrArg List.length hbs
    rw [List.length_take] at hle
    rw [peek, if_pos (by omega), List.drop_zero, hbs]
  have hbytes : ∀ {bs : Bytes}, encodeType Attribute.cliData.code bs text.length
      freshBuffer
      = encodeBytes .cliData bs text.length freshBuffer := rfl
  rw [hbytes, hbytes]
  simp only [encodeBytes, Int.toNat_natCast, hpeek hcopy, hpeek hdata]

end Loop

/-! ## The frames that are logged -/

section Logged
variable {fd type : Int} {data text : Bytes}

/-- A text that encodes to nothing is tried for ever. -/
theorem sendRounds_stuck {len : Int} {buf : Buffer} (hlen : 0 < len)
    (henc : encodeType type data len freshBuffer = .ok (0, buf)) :
    ∀ (fuel : Nat) (s : Server), sendRounds fd data type fuel len s
      = .error .diverge := by
  have henc' : encodeType type data len ⟨0, List.replicate 1024 0⟩ = .ok (0, buf) :=
    henc
  intro fuel
  induction fuel with
  | zero =>
      intro s
      rw [sendRounds, if_neg (Int.not_le.mpr hlen)]
  | succ fuel ih =>
      intro s
      rw [sendRounds, if_neg (Int.not_le.mpr hlen), henc', ok_bind]
      simp only [Int.natCast_zero, Int.sub_zero, ih]

/-- The first frame of a text that is sent, and the only one if it is no
shorter than the text. -/
theorem framesOf_first {fs : List Sent} (htext : cString data = .ok text)
    (hne : text ≠ []) (h : framesOf fd data type = .ok fs) :
    ∃ n buf rest, encodeType type data text.length freshBuffer = .ok (n, buf) ∧
      frameSize type data text.length = some n ∧ (buf.payload.take n).length = n ∧
      fs = ⟨fd, buf.payload.take n⟩ :: rest ∧ (text.length ≤ n → rest = []) := by
  obtain ⟨hlen, -, -⟩ := cString_text htext
  have hpos := List.length_pos_of_ne_nil hne
  obtain ⟨s, hs, h⟩ := bind_ok.mp h
  cases h
  obtain ⟨text', htext', hs⟩ := bind_ok.mp hs
  cases htext.symm.trans htext'
  obtain ⟨fuel, hfuel⟩ : ∃ fuel, text.length = fuel + 1 :=
    ⟨text.length - 1, by omega⟩
  have hrun := hs
  rw [hfuel, sendRounds, ← hfuel, if_neg (by omega)] at hs
  obtain ⟨⟨n, buf⟩, henc, hs⟩ := bind_ok.mp hs
  have henc' : encodeType type data text.length freshBuffer = .ok (n, buf) := henc
  obtain ⟨hsize, htake⟩ := encodeType_size hlen henc'
  rcases hsize with ⟨rfl, -⟩ | hsome
  · rw [sendRounds_stuck (by omega) henc'] at hrun
    cases hrun
  obtain ⟨rest, rfl, -⟩ := sendRounds_frames hs
  refine ⟨n, buf, rest, henc', hsome, htake n (Nat.le_refl n), rfl, fun hle => ?_⟩
  have hdone : (text.length : Int) - n ≤ 0 := by omega
  have hsent :=
    congrArg Server.sent
      (Except.ok.inj ((sendRounds_done _ _ _ _ hdone _).symm.trans hs))
  exact List.append_right_eq_self.mp hsent.symm

/-- A text that is sent goes out in one frame. -/
theorem framesOf_text {attr : Attribute} {fs : List Sent} (hattr : attr ∈ textual)
    (htext : cString data = .ok text) (hne : text ≠ [])
    (h : framesOf fd data attr.code = .ok fs) :
    text.length ≤ 1016 ∧ ∃ f : Frame, f.attr = attr ∧ f.value = text ∧
      fs = [⟨fd, segment [f]⟩] := by
  obtain ⟨hlen, htaken, -⟩ := cString_text htext
  obtain ⟨n, buf, rest, henc, hsome, -, rfl, hlast⟩ := framesOf_first htext hne h
  have hfits : 0 < text.length ∧ text.length ≤ 1016 := by
    simp only [textual, List.mem_cons, List.not_mem_nil, or_false] at hattr
    rcases hattr with rfl | rfl | rfl | rfl <;>
      exact (Option.ite_none_right_eq_some.mp hsome).1
  obtain ⟨b, f, hf, hfv, hb, hseg⟩ := encodeType_text hattr hfits.1 hfits.2 hlen
  cases henc.symm.trans hb
  refine ⟨hfits.2, f, hf, hfv.trans htaken, ?_⟩
  rw [hseg, hlast (by omega)]

end Logged

/-! ## The three loops -/

/-- The three loops put exactly the frame of the text on the connection if and only
if there is nothing to send, or the first `send` takes a whole frame that is no
shorter than the text; and `request_cli_data` has room for 79 characters. -/
theorem send_whole_frame_iff {r : Schedule} (hr : r.Possible) {data text : Bytes}
    (htext : cString data = .ok text) (type : Int) :
    (SendsFrame (fun fuel => shSendEncodedDataBy r fuel data type) data type ↔
        FirstTakesAll r data type text) ∧
      (SendsFrame (fun fuel => sendDataBy r fuel data type) data type ↔
        FirstTakesAll r data type text) ∧
      (SendsFrame (fun fuel => requestCliDataBy r fuel data) data
        Attribute.cliData.code ↔
        text.length < 80 ∧ FirstTakesAll r data Attribute.cliData.code text) := by
  refine ⟨sends_frame_iff hr htext, sends_frame_iff hr htext, ?_⟩
  obtain ⟨-, hdata, hnul⟩ := cString_text htext
  by_cases hroom : 80 ≤ text.length
  · refine iff_of_false ?_ (by omega)
    rintro ⟨fuel, out, text', n, buf, -, hrun, -⟩
    simp only [requestCliDataBy, htext, ok_bind, if_pos hroom] at hrun
    cases hrun
  have hcopy : (text ++ List.replicate (80 - text.length) 0).take text.length = text :=
    List.take_left
  have hcopied : cString (text ++ List.replicate (80 - text.length) 0)
      = .ok text := by
    obtain ⟨k, hk⟩ := Nat.exists_eq_add_of_lt (Nat.lt_of_not_le hroom)
    have hleft : 80 - text.length = k + 1 := by omega
    rw [hleft, List.replicate_succ]
    exact cString_append hnul
  have hrun : ∀ fuel, requestCliDataBy r fuel data
      = sendText r fuel (text ++ List.replicate (80 - text.length) 0)
        Attribute.cliData.code := by
    intro fuel
    rw [requestCliDataBy, htext, ok_bind, if_neg hroom]
  have hsame := encodeType_copy hcopy hdata
  have hframe := @sends_frame_iff _ _ _ Attribute.cliData.code hr hcopied
  constructor
  · rintro ⟨fuel, out, text', n, buf, htext', hsent, henc, hout⟩
    cases htext.symm.trans htext'
    refine ⟨Nat.lt_of_not_le hroom,
      hframe.mp ⟨fuel, out, text, n, buf, hcopied, ?_, hsame.trans henc, hout⟩⟩
    simpa only [hrun] using hsent
  · rintro ⟨-, hfirst⟩
    obtain ⟨fuel, out, text', n, buf, htext', hsent, henc, hout⟩ := hframe.mpr hfirst
    cases hcopied.symm.trans htext'
    refine ⟨fuel, out, text, n, buf, htext, ?_, hsame.symm.trans henc, hout⟩
    simpa only [hrun] using hsent

theorem takes_all_possible : Schedule.Possible fun _ n => n :=
  fun _ n => ⟨Nat.le_refl n, id⟩

theorem send_whole_frame_sample :
    SendsFrame (fun fuel => shSendEncodedDataBy (fun _ n => n) fuel
      (ascii "hi" ++ [0]) 5)
      (ascii "hi" ++ [0]) 5 :=
  (send_whole_frame_iff takes_all_possible
    (by rfl : cString (ascii "hi" ++ [0]) = .ok (ascii "hi")) 5).1.mpr
    (Or.inr ⟨by decide, 10, by decide, by decide, rfl⟩)

/-- A first `send` that takes 9 of the 10 bytes ends the loop, as "hi" has only 2. -/
theorem short_send_cuts_frame : Schedule.Possible (fun _ n => min n 9) ∧
    ¬ SendsFrame (fun fuel => shSendEncodedDataBy (fun _ n => min n 9) fuel
      (ascii "hi" ++ [0]) 5)
      (ascii "hi" ++ [0]) 5 := by
  have hr : Schedule.Possible (fun _ n => min n 9) :=
    fun _ n => ⟨Nat.min_le_left n 9, fun hn => Nat.lt_min.mpr ⟨hn, by decide⟩⟩
  have htext : cString (ascii "hi" ++ [0]) = .ok (ascii "hi") := rfl
  refine ⟨hr, fun hsends => ?_⟩
  rcases (sends_frame_iff hr htext).mp hsends with ⟨hnil, -⟩ | ⟨-, n, hn, -, hall⟩
  · exact absurd hnil (by decide)
  · cases hn
    exact absurd hall (by decide)

end Pyramid
