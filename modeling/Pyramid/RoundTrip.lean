/-
# `Pyramid.RoundTrip` — a buffer filled by `encode`, received whole

A `Call` is one call of `encode` with the arguments it was given.  The
induction over a sequence of calls carries `Buffer.Holds`: the payload is a
header, the frames of the calls accepted so far, and room; once a call has been
accepted the header counts the bytes before the room.  A rejected call may set
an empty buffer's length to 4, which `Buffer.reserve` does to it anyway.
-/
import Pyramid.Framing

namespace Pyramid

/-! ## Calls -/

structure Call where
  attr : Attribute
  data : Bytes
  length : Int

/-- The length checks of the encoders. -/
def Call.accepted (c : Call) : Bool :=
  match c.attr with
  | .joinGroup => decide (0 < c.length ∧ c.length < 255)
  | .goodBye => true
  | .stringData | .cliData | .algoSort | .algoMax =>
      decide (0 < c.length ∧ c.length < 1024)
  | _ => false

/-- Word `i` of an array of `uint32_t`. -/
def wordAt (data : Bytes) (i : Nat) : Nat :=
  match load32 data (4 * i) with
  | .ok w => w
  | .error _ => 0

/-- What `encode_join_group` stores for the words `i, …, i + n - 1`. -/
def groupBytes (data : Bytes) : Nat → Nat → Bytes
  | 0, _ => []
  | n + 1, i => bytes32 (htons (wordAt data i)) ++ groupBytes data n (i + 1)

@[simp] theorem length_groupBytes (data : Bytes) :
    ∀ n i, (groupBytes data n i).length = 4 * n
  | 0, _ => rfl
  | n + 1, i => by
      simp only [groupBytes, List.length_append, length_bytes32,
        length_groupBytes data n (i + 1)]
      omega

/-- The payload an accepted call puts on the wire. -/
def Call.value (c : Call) : Bytes :=
  match c.attr with
  | .joinGroup => groupBytes c.data c.length.toNat 0
  | .goodBye => goodbye
  | _ => c.data.take c.length.toNat

/-- The call is of a covered type, and its data is as long as the call says. -/
structure Call.Sound (c : Call) : Prop where
  known : c.attr ∈ framed
  groups : c.attr = .joinGroup → 4 * c.length ≤ c.data.length
  bytes : c.attr ≠ .joinGroup → c.attr ≠ .goodBye → c.length ≤ c.data.length

/-- Type, length and, where they are delivered, bytes: of a call, … -/
def Call.told (c : Call) : Nat × Nat × Option Bytes :=
  (c.attr.code, c.value.length, if c.attr = .joinGroup then none else some c.value)

/-- … of a frame, … -/
def Frame.told (f : Frame) : Nat × Nat × Option Bytes :=
  (f.attr.code, f.value.length, if f.attr = .joinGroup then none else some f.value)

/-- … and of a call of `handle_data`. -/
def Delivery.told (d : Delivery) : Nat × Nat × Option Bytes :=
  (d.type, d.length, d.value)

theorem told_deliveries : ∀ (pos : Nat) (fs : List Frame),
    (deliveries pos fs).map Delivery.told = fs.map Frame.told
  | _, [] => rfl
  | pos, f :: fs => by
      simp only [deliveries, List.map_cons, told_deliveries (pos + f.wire.length) fs]
      rfl

theorem told_segDeliveries : ∀ (pos : Nat) (segs : List (List Frame)),
    (segDeliveries pos segs).map Delivery.told = segs.flatMap (·.map Frame.told)
  | _, [] => rfl
  | pos, fs :: segs => by
      simp only [segDeliveries, List.map_append, told_deliveries,
        told_segDeliveries (pos + (segment fs).length) segs, List.flatMap_cons]

theorem accepted_length {c : Call} (hs : c.Sound) (ha : c.accepted = true)
    (hj : c.attr ≠ .joinGroup) (hg : c.attr ≠ .goodBye) :
    0 < c.length ∧ c.length < 1024 ∧ (c.length.toNat ≤ c.data.length) := by
  have hk := hs.known
  have hb := hs.bytes hj hg
  simp only [framed, List.mem_cons, List.not_mem_nil, or_false, hj, hg, false_or]
    at hk
  have hlen : 0 < c.length ∧ c.length < 1024 := by
    rcases hk with h | h | h | h <;> simpa [Call.accepted, h] using ha
  exact ⟨hlen.1, hlen.2, by omega⟩

theorem length_value {c : Call} (hs : c.Sound) (ha : c.accepted = true) :
    c.value.length ≤ 1023 ∧ (c.attr = .joinGroup →
      ∃ n, n ≤ 255 ∧ c.value.length = 4 * n) := by
  by_cases hj : c.attr = .joinGroup
  · have hlen : 0 < c.length ∧ c.length < 255 := by
      simpa [Call.accepted, hj] using ha
    simp only [Call.value, hj, length_groupBytes]
    exact ⟨by omega, fun _ => ⟨c.length.toNat, by omega, rfl⟩⟩
  · refine ⟨?_, fun h => absurd h hj⟩
    by_cases hg : c.attr = .goodBye
    · simp [Call.value, hg, goodbye]
    · obtain ⟨h₀, h₁, h₂⟩ := accepted_length hs ha hj hg
      have hv : c.value = c.data.take c.length.toNat := by
        unfold Call.value
        split
        · next h => exact absurd h hj
        · next h => exact absurd h hg
        · rfl
      rw [hv, List.length_take]
      omega

/-- The frame an accepted call becomes. -/
def Call.frame (c : Call) (hs : c.Sound) (ha : c.accepted = true) : Frame where
  attr := c.attr
  value := c.value
  known := hs.known
  short := by have := (length_value hs ha).1; omega
  words := (length_value hs ha).2

/-! ## The buffer between calls -/

/-- The buffer holds the frames `fs`, with `room` after them. -/
def Buffer.Holds (buf : Buffer) (fs : List Frame) (room : Bytes) : Prop :=
  ∃ hdr : Bytes, hdr.length = 4 ∧ buf.payload = (hdr ++ body fs) ++ room ∧
    buf.reserve.length = (hdr ++ body fs).length ∧
    (fs ≠ [] → hdr = Packet.header (fs.map Frame.packet)
      ∧ buf.length = (hdr ++ body fs).length)

theorem holds_new {room : Bytes} (h : 4 ≤ room.length) :
    Buffer.Holds ⟨0, room⟩ [] (room.drop 4) := by
  refine ⟨room.take 4,
    by rw [List.length_take]; omega, ?_, ?_, fun hne => absurd rfl hne⟩
  · simp
  · simp only [Buffer.reserve, if_true, body_nil, List.append_nil, List.length_take]
    omega

/-- What every encoder finds after its first two lines. -/
theorem Buffer.Holds.reserved {buf : Buffer} {fs : List Frame} {room : Bytes}
    (h : buf.Holds fs room) :
    ∃ hdr : Bytes, hdr.length = 4 ∧ buf.reserve.payload = (hdr ++ body fs) ++ room ∧
      buf.reserve.length = (hdr ++ body fs).length := by
  obtain ⟨hdr, hlen, hpay, hres, -⟩ := h
  refine ⟨hdr, hlen, ?_, hres⟩
  rw [← hpay]
  unfold Buffer.reserve
  split <;> rfl

theorem Buffer.Holds.reserve {buf : Buffer} {fs : List Frame} {room : Bytes}
    (h : buf.Holds fs room) : buf.reserve.Holds fs room := by
  obtain ⟨hdr, hlen, hpay, hres⟩ := h.reserved
  obtain ⟨hdr', hlen', hpay', hres', hhdr⟩ := h
  have hne : buf.reserve.length ≠ 0 := by
    rw [hres, List.length_append, hlen]
    omega
  refine ⟨hdr, hlen, hpay, ?_, ?_⟩
  · rw [Buffer.reserve, if_neg hne, hres]
  · intro hfs
    have hpay₀ : buf.reserve.payload = buf.payload := by
      unfold Buffer.reserve
      split <;> rfl
    have heq : hdr ++ (body fs ++ room) = hdr' ++ (body fs ++ room) := by
      rw [← List.append_assoc, ← hpay, hpay₀, hpay', List.append_assoc]
    exact ⟨(List.append_cancel_right heq).trans (hhdr hfs).1, hres⟩

/-- The header is rewritten for one packet more. -/
theorem Packet.close_packet {hdr room : Bytes} (ps : List Packet) (p : Packet)
    (hlen : hdr.length = 4) :
    ∃ buf', Buffer.close ((hdr ++ wires ps) ++ (p.wire ++ room))
      (4 + (wires (ps ++ [p])).length)
        = .ok (4 + (wires (ps ++ [p])).length, buf') ∧
      buf'.length = 4 + (wires (ps ++ [p])).length ∧
      buf'.payload = segment (ps ++ [p]) ++ room := by
  have hwires : wires (ps ++ [p]) = wires ps ++ p.wire := by simp [wires]
  have hsplit : (hdr ++ wires ps) ++ (p.wire ++ room)
      = [] ++ (hdr ++ (wires (ps ++ [p]) ++ room)) := by
    rw [hwires]
    simp [List.append_assoc]
  have hpoke := poke_append [] hdr (header (ps ++ [p])) (wires (ps ++ [p]) ++ room)
    (by rw [hlen, length_header])
  rw [List.length_nil, List.nil_append, List.nil_append,
    ← List.nil_append (hdr ++ _), ← hsplit] at hpoke
  refine ⟨⟨_, header (ps ++ [p]) ++ (wires (ps ++ [p]) ++ room)⟩, ?_, rfl, ?_⟩
  · rw [Buffer.close, ← header, hpoke, ok_bind]
  · rw [segment, List.append_assoc]

/-- Type, length and payload stored one after the other, then the header
rewritten: the buffer holds one frame more. -/
theorem close_frame {hdr room : Bytes} (fs : List Frame) (f : Frame)
    (hlen : hdr.length = 4) :
    ∃ buf', Buffer.close ((hdr ++ body fs) ++ (f.wire ++ room.drop f.wire.length))
        ((hdr ++ body fs).length + 4 + f.value.length) = .ok (buf'.length, buf') ∧
      Buffer.Holds buf' (fs ++ [f]) (room.drop f.wire.length) := by
  have htotal : (hdr ++ body fs).length + 4 + f.value.length
      = 4 + (body (fs ++ [f])).length := by
    simp only [List.length_append, hlen, body_append, body_cons, body_nil,
      Frame.length_wire, List.append_nil]
    omega
  have hpackets : fs.map Frame.packet ++ [f.packet]
      = (fs ++ [f]).map Frame.packet := by
    rw [List.map_append]
    rfl
  obtain ⟨buf', hclose, hlength, hpay⟩ :=
    @Packet.close_packet hdr (room.drop f.wire.length) (fs.map Frame.packet)
      f.packet hlen
  rw [hpackets, ← body] at hlength
  rw [hpackets, ← body, ← body, ← hlength] at hclose
  rw [hpackets, Packet.segment, ← body] at hpay
  refine ⟨buf', by rw [htotal, ← hlength]; exact hclose,
    Packet.header ((fs ++ [f]).map Frame.packet), Packet.length_header _, hpay, ?_,
    fun _ => ⟨rfl, ?_⟩⟩
  · rw [Buffer.reserve, if_neg (by omega), hlength, List.length_append,
      Packet.length_header]
  · rw [hlength, List.length_append, Packet.length_header]

/-- Storing a type word, a length word and a payload in the room after `pre`. -/
theorem poke_type_length (pre room : Bytes) (t l : Bytes) (ht : t.length = 2)
    (hl : l.length = 2) (hroom : 4 ≤ room.length) :
    ∃ p, poke (pre ++ room) pre.length t = .ok p ∧
      poke p (pre.length + 2) l = .ok ((pre ++ (t ++ l)) ++ room.drop 4) := by
  refine ⟨pre ++ (t ++ room.drop 2), ?_, ?_⟩
  · have := poke_room pre t room (by omega)
    rwa [ht] at this
  · have := poke_room (pre ++ t) l (room.drop 2) (by
      rw [List.length_drop]
      omega)
    rw [List.length_append, ht, hl, List.drop_drop] at this
    rw [← List.append_assoc, this]
    simp [List.append_assoc]

/-! ## Accepted and rejected calls -/

theorem encodeBytes_accepts {attr : Attribute} {data : Bytes} {length : Int}
    {buf : Buffer} {fs : List Frame} {room : Bytes} (f : Frame)
    (hattr : f.attr = attr) (hval : f.value = data.take length.toNat)
    (hpos : 0 < length) (hlt : length < 1024) (hdata : length.toNat ≤ data.length)
    (h : buf.Holds fs room) (hroom : f.wire.length ≤ room.length) :
    ∃ buf', encodeBytes attr data length buf = .ok (buf'.length, buf') ∧
      Buffer.Holds buf' (fs ++ [f]) (room.drop f.wire.length) := by
  obtain ⟨hdr, hlen, hpay, hres⟩ := h.reserved
  have hflen : f.value.length = length.toNat := by
    rw [hval, List.length_take]
    omega
  have hwire : f.wire.length = 4 + length.toNat := by rw [Frame.length_wire, hflen]
  obtain ⟨p, hp₁, hp₂⟩ := poke_type_length (hdr ++ body fs) room
    (bytes16 (htons attr.code)) (bytes16 (htons length.toNat)) rfl rfl (by omega)
  have hpeek : peek data 0 length.toNat = .ok f.value := by
    simp [peek, hdata, hval]
  have hp₃ := poke_room
    ((hdr ++ body fs) ++ (bytes16 (htons attr.code) ++ bytes16 (htons length.toNat)))
    f.value (room.drop 4) (by
      rw [List.length_drop]
      omega)
  have hpre :
      ((hdr ++ body fs) ++ (bytes16 (htons attr.code)
        ++ bytes16 (htons length.toNat))).length
      = (hdr ++ body fs).length + 4 := by
    simp only [List.length_append, length_bytes16]
  have hmem :
      ((hdr ++ body fs) ++ (bytes16 (htons attr.code)
        ++ bytes16 (htons length.toNat)))
        ++ (f.value ++ (room.drop 4).drop f.value.length)
      = (hdr ++ body fs) ++ (f.wire ++ room.drop f.wire.length) := by
    rw [List.drop_drop, hwire, hflen]
    simp [Frame.wire_eq, hattr, hflen, List.append_assoc]
  rw [hpre, hmem] at hp₃
  obtain ⟨buf', hclose, hholds⟩ := close_frame fs f hlen
  refine ⟨buf', ?_, hholds⟩
  have hrej : ¬ (length ≤ 0 ∨ 1024 ≤ length) := by omega
  simp only [encodeBytes, hrej, if_false, hres, hpay, hp₁, ok_bind, hp₂, hpeek, hp₃]
  rw [← hflen]
  exact hclose

theorem putGroups_room (data : Bytes) :
    ∀ (n i : Nat) (pre room : Bytes), 4 * (i + n) ≤ data.length →
      4 * n ≤ room.length →
      putGroups data n i (pre ++ room) pre.length
        = .ok (pre ++ (groupBytes data n i ++ room.drop (4 * n))) := by
  intro n
  induction n with
  | zero => intro i pre room _ _; simp [putGroups, groupBytes]
  | succ n ih =>
      intro i pre room hdata hroom
      obtain ⟨w, hw⟩ := load32_of_bound data (4 * i) (by omega)
      have hword : wordAt data i = w := by simp [wordAt, hw]
      have hpoke := poke_room pre (bytes32 (htons w)) room (by
        rw [length_bytes32]
        omega)
      have hrest :=
        ih (i + 1) (pre ++ bytes32 (htons w)) (room.drop 4) (by omega) (by
        rw [List.length_drop]
        omega)
      rw [length_bytes32] at hpoke
      rw [List.length_append, length_bytes32, List.drop_drop] at hrest
      simp only [putGroups, hw, ok_bind, hpoke]
      rw [← List.append_assoc, hrest]
      simp only [groupBytes, hword, List.append_assoc]
      congr 5
      omega

theorem encodeJoinGroup_accepts {data : Bytes} {n : Int} {buf : Buffer}
    {fs : List Frame} {room : Bytes} (f : Frame) (hattr : f.attr = .joinGroup)
    (hval : f.value = groupBytes data n.toNat 0) (hpos : 0 < n) (hlt : n < 255)
    (hdata : 4 * n ≤ data.length) (h : buf.Holds fs room)
    (hroom : f.wire.length ≤ room.length) :
    ∃ buf', encodeJoinGroup data n buf = .ok (buf'.length, buf') ∧
      Buffer.Holds buf' (fs ++ [f]) (room.drop f.wire.length) := by
  obtain ⟨hdr, hlen, hpay, hres⟩ := h.reserved
  have hflen : f.value.length = 4 * n.toNat := by rw [hval, length_groupBytes]
  have hwire : f.wire.length = 4 + 4 * n.toNat := by rw [Frame.length_wire, hflen]
  obtain ⟨p, hp₁, hp₂⟩ := poke_type_length (hdr ++ body fs) room
    (bytes16 (htons Attribute.joinGroup.code)) (bytes16 (htons (4 * n.toNat))) rfl
    rfl (by omega)
  have hp₃ := putGroups_room data n.toNat 0
    ((hdr ++ body fs) ++ (bytes16 (htons Attribute.joinGroup.code)
      ++ bytes16 (htons (4 * n.toNat))))
    (room.drop 4) (by omega) (by
      rw [List.length_drop]
      omega)
  have hpre : ((hdr ++ body fs)
      ++ (bytes16 (htons Attribute.joinGroup.code)
        ++ bytes16 (htons (4 * n.toNat)))).length
      = (hdr ++ body fs).length + 4 := by
    simp only [List.length_append, length_bytes16]
  have hmem : ((hdr ++ body fs)
        ++ (bytes16 (htons Attribute.joinGroup.code)
          ++ bytes16 (htons (4 * n.toNat))))
        ++ (groupBytes data n.toNat 0 ++ (room.drop 4).drop (4 * n.toNat))
      = (hdr ++ body fs) ++ (f.wire ++ room.drop f.wire.length) := by
    rw [List.drop_drop, hwire]
    simp [Frame.wire_eq, hattr, hval, List.append_assoc]
  rw [hpre, hmem] at hp₃
  obtain ⟨buf', hclose, hholds⟩ := close_frame fs f hlen
  refine ⟨buf', ?_, hholds⟩
  have hrej : ¬ (n ≤ 0 ∨ 255 ≤ n) := by omega
  simp only [encodeJoinGroup, hrej, if_false, hres, hpay, hp₁, ok_bind, hp₂, hp₃]
  rw [← hflen]
  exact hclose

theorem encode_accepts {c : Call} (hs : c.Sound) (ha : c.accepted = true)
    {buf : Buffer} {fs : List Frame} {room : Bytes} (h : buf.Holds fs room)
    (hroom : (c.frame hs ha).wire.length ≤ room.length) :
    ∃ buf', encode c.attr c.data c.length buf = .ok (buf'.length, buf') ∧
      Buffer.Holds buf' (fs ++ [c.frame hs ha]) (room.drop
        (c.frame hs ha).wire.length) := by
  by_cases hj : c.attr = .joinGroup
  · have hlen : 0 < c.length ∧ c.length < 255 := by
      simpa [Call.accepted, hj] using ha
    have hval : (c.frame hs ha).value = groupBytes c.data c.length.toNat 0 := by
      simp [Call.frame, Call.value, hj]
    obtain ⟨buf', henc, hholds⟩ :=
      encodeJoinGroup_accepts (c.frame hs ha) hj hval hlen.1 hlen.2
      (hs.groups hj) h hroom
    exact ⟨buf', by simpa [encode, hj] using henc, hholds⟩
  by_cases hg : c.attr = .goodBye
  · have hval : (c.frame hs ha).value = goodbye.take (7 : Int).toNat := by
      simp [Call.frame, Call.value, hg, goodbye]
    obtain ⟨buf', henc, hholds⟩ :=
      encodeBytes_accepts (c.frame hs ha) hg hval (by decide)
      (by decide) (by decide) h hroom
    exact ⟨buf', by simpa [encode, encodeGoodbye, hg] using henc, hholds⟩
  · obtain ⟨hpos, hlt, hdata⟩ := accepted_length hs ha hj hg
    have hval : (c.frame hs ha).value = c.data.take c.length.toNat := by
      simp only [Call.frame, Call.value]
    obtain ⟨buf', henc, hholds⟩ :=
      encodeBytes_accepts (c.frame hs ha) rfl hval hpos hlt hdata
      h hroom
    have hk := hs.known
    simp only [framed, List.mem_cons, List.not_mem_nil, or_false, hj, hg, false_or]
      at hk
    refine ⟨buf', ?_, hholds⟩
    rcases hk with hk | hk | hk | hk <;>
      simpa [encode, encodeStringData, encodeCliData, encodeAlgoSort, encodeAlgoMax,
        Call.frame, hk]
        using henc

theorem encode_rejects {c : Call} (hs : c.Sound) (ha : c.accepted = false)
    (buf : Buffer) :
    encode c.attr c.data c.length buf = .ok (0, buf.reserve) := by
  have hk := hs.known
  simp only [framed, List.mem_cons, List.not_mem_nil, or_false] at hk
  by_cases hj : c.attr = .joinGroup
  · have hrej : c.length ≤ 0 ∨ 255 ≤ c.length := by
      simp only [Call.accepted, hj, decide_eq_false_iff_not] at ha
      omega
    simp [encode, encodeJoinGroup, hj, hrej]
  by_cases hg : c.attr = .goodBye
  · simp [Call.accepted, hg] at ha
  · have hrej : c.length ≤ 0 ∨ 1024 ≤ c.length := by
      rcases hk with hk | hk | hk | hk | hk | hk <;>
        first
          | exact absurd hk hj
          | exact absurd hk hg
          | (simp only [Call.accepted, hk, decide_eq_false_iff_not] at ha; omega)
    rcases hk with hk | hk | hk | hk | hk | hk
    · exact absurd hk hj
    · exact absurd hk hg
    all_goals
      simp [encode, encodeStringData, encodeCliData, encodeAlgoSort, encodeAlgoMax,
        encodeBytes, hk, hrej]

/-! ## A sequence of calls -/

def encodeAll : List Call → Buffer → Except Halt Buffer
  | [], buf => .ok buf
  | c :: cs, buf => do
      let (_, buf) ← encode c.attr c.data c.length buf
      encodeAll cs buf

/-- The bytes the accepted calls among `calls` need. -/
def roomFor : List Call → Nat
  | [] => 0
  | c :: cs => (if c.accepted then 4 + c.value.length else 0) + roomFor cs

theorem encodeAll_holds :
    ∀ (calls : List Call) (buf : Buffer) (fs : List Frame) (room : Bytes),
      (∀ c ∈ calls, c.Sound) → buf.Holds fs room → roomFor calls ≤ room.length →
      ∃ buf' gs room', encodeAll calls buf = .ok buf' ∧ buf'.Holds (fs ++ gs) room' ∧
        gs.map Frame.told = (calls.filter Call.accepted).map Call.told ∧
        (body gs).length = roomFor calls := by
  intro calls
  induction calls with
  | nil =>
      intro buf fs room _ h _
      exact ⟨buf, [], room, rfl, by simpa using h, rfl, rfl⟩
  | cons c cs ih =>
      intro buf fs room hsound h hroom
      have hs := hsound c List.mem_cons_self
      have hcs : ∀ d ∈ cs, d.Sound :=
        fun d hd => hsound d (List.mem_cons_of_mem _ hd)
      cases ha : c.accepted with
      | true =>
          have hneed : roomFor (c :: cs) = (c.frame hs ha).wire.length
              + roomFor cs := by
            simp [roomFor, ha, Call.frame]
          obtain ⟨buf₁, henc, hholds⟩ := encode_accepts hs ha h (by omega)
          obtain ⟨buf', gs, room', hall, hend, htold, hbody⟩ :=
            ih buf₁ _ _ hcs hholds (by
            rw [List.length_drop]
            omega)
          refine ⟨buf', c.frame hs ha :: gs, room', ?_, ?_, ?_, ?_⟩
          · simp only [encodeAll, henc, ok_bind, hall]
          · simpa [List.append_assoc] using hend
          · simp only [List.filter_cons_of_pos ha, List.map_cons, htold]
            rfl
          · rw [body_cons, List.length_append, hbody, hneed]
      | false =>
          have hneed : roomFor (c :: cs) = roomFor cs := by simp [roomFor, ha]
          obtain ⟨buf', gs, room', hall, hend, htold, hbody⟩ :=
            ih buf.reserve fs room hcs
            h.reserve (by omega)
          refine ⟨buf', gs, room', ?_, hend, ?_, by rw [hbody, hneed]⟩
          · simp only [encodeAll, encode_rejects hs ha, ok_bind, hall]
          · rw [htold]
            simp [ha]

/-- Fill a new buffer over `room` with `calls`; what `send` is then given. -/
def encodeSegment (calls : List Call) (room : Bytes) : Except Halt Bytes := do
  let buf ← encodeAll calls ⟨0, room⟩
  .ok (buf.payload.take buf.length)

/-- Calls that can share one buffer over `room`: sound, one of them accepted, and
enough room. -/
structure Batch where
  calls : List Call
  room : Bytes
  sound : ∀ c ∈ calls, c.Sound
  some : ∃ c ∈ calls, c.accepted = true
  fits : 4 + roomFor calls ≤ room.length

def Batch.bytes (b : Batch) : Except Halt Bytes := encodeSegment b.calls b.room

/-- The bytes the segments of the batches have together. -/
def wireLength : List Batch → Nat
  | [] => 0
  | b :: bs => 4 + roomFor b.calls + wireLength bs

theorem Batch.bytes_ok (b : Batch) :
    ∃ fs : List Frame, b.bytes = .ok (segment fs) ∧ fs ≠ [] ∧
      fs.map Frame.told = (b.calls.filter Call.accepted).map Call.told ∧
      (segment fs).length = 4 + roomFor b.calls := by
  obtain ⟨buf, fs, room', hall, hholds, htold, hbody⟩ :=
    encodeAll_holds b.calls ⟨0, b.room⟩ []
    (b.room.drop 4) b.sound (holds_new (by have := b.fits; omega)) (by
      rw [List.length_drop]
      have := b.fits
      omega)
  have hne : fs ≠ [] := by
    rintro rfl
    obtain ⟨c, hc, ha⟩ := b.some
    have : c ∈ b.calls.filter Call.accepted := List.mem_filter.mpr ⟨hc, ha⟩
    rw [List.map_nil, eq_comm, List.map_eq_nil_iff] at htold
    rw [htold] at this
    exact absurd this List.not_mem_nil
  rw [List.nil_append] at hholds
  obtain ⟨hdr, hlen, hpay, -, hhdr⟩ := hholds
  obtain ⟨rfl, hbuflen⟩ := hhdr hne
  refine ⟨fs, ?_, hne, htold, by rw [length_segment, hbody]⟩
  simp only [Batch.bytes, encodeSegment, hall, ok_bind, hpay, hbuflen,
    List.take_left]
  rfl

theorem batches_bytes : ∀ batches : List Batch,
    ∃ segs : List (List Frame), batches.mapM Batch.bytes = .ok (segs.map segment) ∧
      segs.length = batches.length ∧ (∀ fs ∈ segs, fs ≠ []) ∧
      segs.flatMap (·.map Frame.told)
        = (batches.flatMap fun b => b.calls.filter Call.accepted).map Call.told ∧
      (stream segs).length = wireLength batches := by
  intro batches
  induction batches with
  | nil => exact ⟨[], rfl, rfl, by simp, rfl, rfl⟩
  | cons b bs ih =>
      obtain ⟨fs, hb, hne, htold, hlen⟩ := b.bytes_ok
      obtain ⟨segs, hbs, hcount, hnes, htolds, hlens⟩ := ih
      refine ⟨fs :: segs, ?_, by simp [hcount], ?_, ?_, ?_⟩
      · simp only [List.mapM_cons, hb, ok_bind, hbs, List.map_cons]
        rfl
      · intro gs hgs
        rcases List.mem_cons.mp hgs with rfl | hgs
        · exact hne
        · exact hnes gs hgs
      · simp only [List.flatMap_cons, htold, htolds, List.map_append]
      · simp only [stream_cons, List.length_append, hlen, hlens, wireLength]

/-- **Framing round trip.**  Whatever is encoded is delivered: once per accepted
call, in order, with the call's type, length and bytes, and nothing is left over.
There is at least one segment, since `receive_data` hands on no empty chunk, and
`recvLen` is an `int`. -/
theorem framing_round_trip (batches : List Batch) (hne : batches ≠ [])
    (hint : (wireLength batches : Int) ≤ intMax) (g : Groups) :
    ∃ segs : List Bytes, batches.mapM Batch.bytes = .ok segs ∧
      ∃ g' ds, handleClientMessage record segs.flatten segs.flatten.length
        (some g) []
          = .ok (false, ⟨segs.flatten.length, 0, some g', ds⟩) ∧
        ds.map Delivery.told
          = (batches.flatMap fun b => b.calls.filter Call.accepted).map
            Call.told := by
  obtain ⟨segs, hbytes, hcount, -, htold, hlen⟩ := batches_bytes batches
  have hsegs : segs ≠ [] := by
    rintro rfl
    exact hne (List.eq_nil_of_length_eq_zero hcount.symm)
  have hflat : (segs.map segment).flatten = stream segs := (stream_eq segs).symm
  obtain ⟨g', hrun⟩ :=
    handleClientMessage_stream segs hsegs (by rw [hlen]; exact hint) g []
  refine ⟨segs.map segment, hbytes, g', segDeliveries 0 segs, ?_, ?_⟩
  · rw [hflat, hrun, List.nil_append]
  · rw [told_segDeliveries, htold]
/-- `ALGO_MAX "5"`, a string of length 0, which is rejected, and
`JOIN_GROUP` for group 7. -/
def Batch.sample : Batch where
  calls := [⟨.algoMax, [53], 1⟩, ⟨.stringData, [], 0⟩, ⟨.joinGroup, bytes32 7, 1⟩]
  room := List.replicate 64 0
  sound := by
    intro c hc
    simp only [List.mem_cons, List.not_mem_nil, or_false] at hc
    rcases hc with rfl | rfl | rfl
    · exact ⟨by decide, fun h => absurd h (by decide), fun _ _ => by decide⟩
    · exact ⟨by decide, fun h => absurd h (by decide), fun _ _ => by decide⟩
    · exact ⟨by decide, fun _ => by decide, fun h => absurd rfl h⟩
  some := ⟨_, List.mem_cons_self, rfl⟩
  fits := by decide

theorem framing_round_trip_sample :
    ∃ segs : List Bytes, [Batch.sample, Batch.sample].mapM Batch.bytes = .ok segs ∧
      ∃ g' ds, handleClientMessage record segs.flatten segs.flatten.length
          (some fun _ => 0) [] = .ok (false, ⟨segs.flatten.length, 0, some g', ds⟩) ∧
        ds.map Delivery.told = ([Batch.sample, Batch.sample].flatMap fun b =>
          b.calls.filter Call.accepted).map Call.told :=
  framing_round_trip [Batch.sample, Batch.sample] (by simp) (by decide) (fun _ => 0)

end Pyramid
