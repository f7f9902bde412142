/-
# `Pyramid.GroupIds` — group ids on the wire (`encode_join_group`, `decode`)

A group id is a 32-bit word on both sides, but each side swaps it with `htons`,
which keeps 16 bits.  The induction is over the words of the payload
(`takeGroups_words`): the loop of `decode` fills the slots of `g_groups` from
the one it starts at, in order, and leaves the others alone, so what arrives
is the list that was sent, each id modulo 65536 (`receivedIds_eq`).
-/
import Pyramid.RoundTrip
import Pyramid.Groups

namespace Pyramid

/-- The first `n` words of `g_groups`, which `server_add_one_client_fd` is given. -/
def joinedIds (g : Option Groups) (n : Nat) : List Nat :=
  match g with
  | none => []
  | some g => ((List.finRange 255).map g).take n

/-- `ids`, encoded into a new buffer over `room` and decoded behind the segment
header: the ids `handle_data` passes on, `tlv.length / 4` of them. -/
def receivedIds (ids : List Nat) (room : Bytes) (g : Groups) :
    Except Halt (List Nat) := do
  let (_, buf) ← encodeJoinGroup (ids.flatMap bytes32) ids.length ⟨0, room⟩
  let (tlv, g) ← decode buf.payload 4 (some g)
  .ok (joinedIds g (tlv.length / 4))

/-! ## The words that are sent -/

theorem length_words {f : Nat → Bytes} (hf : ∀ id, (f id).length = 4) :
    ∀ ids : List Nat, (ids.flatMap f).length = 4 * ids.length := by
  intro ids
  induction ids with
  | nil => rfl
  | cons id ids ih =>
      rw [List.flatMap_cons, List.length_append, hf, ih, List.length_cons]
      omega

theorem wordAt_words (pre ids : List Nat) (id : Nat) :
    wordAt ((pre ++ id :: ids).flatMap bytes32) pre.length = id % 4294967296 := by
  have hload : load32 (pre.flatMap bytes32 ++ (bytes32 id ++ ids.flatMap bytes32))
      (pre.flatMap bytes32).length = .ok (id % 4294967296) := load32_append
  rw [length_words length_bytes32] at hload
  simp only [wordAt, List.flatMap_append, List.flatMap_cons, hload]

theorem groupBytes_words :
    ∀ (ids pre : List Nat), (∀ id ∈ ids, id < 4294967296) →
      groupBytes ((pre ++ ids).flatMap bytes32) ids.length pre.length
        = ids.flatMap fun id => bytes32 (htons id) := by
  intro ids
  induction ids with
  | nil => intro pre _; rfl
  | cons id ids ih =>
      intro pre h32
      have hid : id % 4294967296 = id := Nat.mod_eq_of_lt (h32 id List.mem_cons_self)
      have hrest := ih (pre ++ [id]) fun i hi => h32 i (List.mem_cons_of_mem _ hi)
      rw [List.append_assoc, List.singleton_append, List.length_append,
        List.length_singleton]
        at hrest
      simp only [List.length_cons, groupBytes, wordAt_words, hid,
        List.flatMap_cons, hrest]

/-! ## The slots they fill -/

/-- `g` with the words `ids` from slot `i` on. -/
def fill (g : Groups) (i : Nat) (ids : List Nat) : Groups := fun k =>
  if i ≤ k.val then (ids[k.val - i]?).getD (g k) else g k

theorem fill_nil (g : Groups) (i : Nat) : fill g i [] = g := by
  funext k
  simp [fill]

theorem fill_cons (g : Groups) {i : Nat} (hi : i < 255) (id : Nat) (ids : List Nat) :
    fill (fun k => if k = ⟨i, hi⟩ then id else g k) (i + 1) ids
      = fill g i (id :: ids) := by
  funext k
  obtain ⟨k, hk⟩ := k
  simp only [fill, Fin.mk.injEq]
  rcases Nat.lt_trichotomy k i with hlt | heq | hgt
  · rw [if_neg (by omega), if_neg (by omega), if_neg (by omega)]
  · subst heq
    rw [if_neg (by omega), if_pos rfl, if_pos (Nat.le_refl k), Nat.sub_self]
    rfl
  · obtain ⟨d, rfl⟩ : ∃ d, k = i + 1 + d := ⟨k - (i + 1), by omega⟩
    rw [if_pos (by omega), if_neg (by omega), if_pos (by omega),
      show i + 1 + d - i = d + 1 by omega, show i + 1 + d - (i + 1) = d by omega,
      List.getElem?_cons_succ]

theorem take_fill (g : Groups) (ids : List Nat) (hlen : ids.length ≤ 255) :
    joinedIds (some (fill g 0 ids)) ids.length = ids := by
  apply List.ext_getElem
  · simp [joinedIds, hlen]
  · intro k h₁ h₂
    simp [joinedIds, fill, h₂]

theorem takeGroups_words :
    ∀ (ids : List Nat) (pre post : Bytes) (i : Nat) (g : Groups),
      i + ids.length ≤ 255 →
      takeGroups (pre ++ ((ids.flatMap fun id => bytes32 (htons id)) ++ post))
        ids.length i
          pre.length (some g)
        = .ok (some (fill g i (ids.map (· % 65536)))) := by
  intro ids
  induction ids with
  | nil => intro pre post i g _; simp [takeGroups, fill_nil]
  | cons id ids ih =>
      intro pre post i g hi
      rw [List.length_cons] at hi
      have hlt : i < 255 := by omega
      have hload : load32 (pre ++ (bytes32 (htons id)
          ++ ((ids.flatMap fun id => bytes32 (htons id)) ++ post))) pre.length
          = .ok (htons id) := by
        have := htons_lt id
        rw [load32_append, Nat.mod_eq_of_lt (by omega)]
      have hrest := ih (pre ++ bytes32 (htons id)) post (i + 1)
        (fun k => if k = ⟨i, hlt⟩ then id % 65536 else g k) (by omega)
      rw [List.append_assoc, List.length_append, length_bytes32] at hrest
      rw [List.flatMap_cons, List.append_assoc, List.length_cons, takeGroups,
        hload, ok_bind]
      simp only [storeGroup, hlt, dite_true, ok_bind, htons_htons]
      rw [hrest, fill_cons, List.map_cons]

/-! ## Sent and received -/

theorem receivedIds_eq (ids : List Nat) (hpos : 1 ≤ ids.length)
    (hmax : ids.length ≤ 254) (h32 : ∀ id ∈ ids, id < 4294967296) {room : Bytes}
    (hroom : 8 + 4 * ids.length ≤ room.length) (g : Groups) :
    receivedIds ids room g = .ok (ids.map (· % 65536)) := by
  have hbytes : ∀ l : List Nat, (l.flatMap fun id => bytes32 (htons id)).length
      = 4 * l.length :=
    length_words fun id => length_bytes32 (htons id)
  have hdata := length_words length_bytes32 ids
  let f : Frame :=
    { attr := .joinGroup
      value := ids.flatMap fun id => bytes32 (htons id)
      known := by decide
      short := by rw [hbytes]; omega
      words := fun _ => ⟨ids.length, by omega, hbytes ids⟩ }
  have hval : f.value = groupBytes (ids.flatMap bytes32)
      (ids.length : Int).toNat 0 :=
    (groupBytes_words ids [] h32).symm
  have hwire : f.wire.length = 4 + 4 * ids.length := by
    rw [Frame.length_wire, ← hbytes ids]
  have hnew : Buffer.Holds ⟨0, room⟩ [] (room.drop 4) := holds_new (by omega)
  obtain ⟨buf, henc, hdr, hlen, hpay, -⟩ :=
    encodeJoinGroup_accepts f rfl hval (by omega)
    (by omega) (by omega) hnew (by
      rw [hwire, List.length_drop]
      omega)
  have hpay' : buf.payload = hdr
      ++ (f.wire ++ (room.drop 4).drop f.wire.length) := by
    rw [hpay, List.nil_append, body_cons, body_nil, List.append_nil,
      List.append_assoc]
  obtain ⟨htype, hlength⟩ : load16 (hdr ++ (f.wire ++ _)) hdr.length
      = .ok (htons f.attr.code) ∧
      load16 (hdr ++ (f.wire ++ _)) (hdr.length + 2) = .ok (htons f.value.length) :=
    Packet.load_wire hdr ((room.drop 4).drop f.wire.length) f.packet
  have hcode : htons (htons f.attr.code) = Attribute.joinGroup.code := by
    rw [htons_htons]
    rfl
  have hvalue : htons (htons f.value.length) = 4 * ids.length := by
    rw [htons_htons, hbytes, Nat.mod_eq_of_lt (by omega)]
  have htake := takeGroups_words ids
    (hdr ++ (bytes16 (htons f.attr.code) ++ bytes16 (htons f.value.length)))
    ((room.drop 4).drop f.wire.length) 0 g (by omega)
  have hpre :
      (hdr ++ (bytes16 (htons f.attr.code) ++ bytes16 (htons f.value.length))).length
      = 4 + 4 := by
    rw [List.length_append, hlen]
    rfl
  have hbuf : hdr ++ (bytes16 (htons f.attr.code) ++ bytes16 (htons f.value.length))
        ++ ((ids.flatMap fun id => bytes32 (htons id)) ++ (room.drop 4).drop
          f.wire.length)
      = buf.payload := by
    rw [hpay']
    simp only [Frame.wire_eq, List.append_assoc]
    rfl
  rw [hbuf, hpre] at htake
  rw [← hpay', hlen] at htype hlength
  have hattr := Attribute.ofCode_code .joinGroup
  simp only [receivedIds, henc, ok_bind, decode, htype, hlength, hcode,
    hvalue, hattr, Nat.mul_div_cancel_left _ (show 0 < 4 by decide), htake]
  have htaken := take_fill g (ids.map (· % 65536)) (by rw [List.length_map]; omega)
  rw [List.length_map] at htaken
  rw [htaken]

/-- **Which group ids survive the wire.**  A list of 1 to 254 ids arrives as it
was sent exactly when every id fits in 16 bits. -/
theorem group_ids_survive_iff (ids : List Nat) (hpos : 1 ≤ ids.length)
    (hmax : ids.length ≤ 254) (h32 : ∀ id ∈ ids, id < 4294967296) (room : Bytes)
    (hroom : 8 + 4 * ids.length ≤ room.length) (g : Groups) :
    receivedIds ids room g = .ok ids ↔ ∀ id ∈ ids, id < 65536 := by
  rw [receivedIds_eq ids hpos hmax h32 hroom g, Except.ok.injEq]
  constructor
  · intro heq id hid
    have hmem : id ∈ ids.map (· % 65536) := by rw [heq]; exact hid
    obtain ⟨x, -, rfl⟩ := List.mem_map.mp hmem
    exact Nat.mod_lt x (by decide)
  · intro hsmall
    calc ids.map (· % 65536) = ids.map id :=
          List.map_congr_left fun x hx => Nat.mod_eq_of_lt (hsmall x hx)
      _ = ids := List.map_id ids

theorem group_ids_survive_sample :
    receivedIds [7, 1000, 65535] (List.replicate 1024 0) (fun _ => 0)
      = .ok [7, 1000, 65535] ↔
      ∀ id ∈ [7, 1000, 65535], id < 65536 :=
  group_ids_survive_iff [7, 1000, 65535] (by decide) (by decide) (by decide) _
    (by rw [List.length_replicate]; decide) _

/-- The id 65537 names no group; it arrives as 1, which does. -/
theorem forged_group :
    receivedIds [65537] (List.replicate 12 0) (fun _ => 0) = .ok [1] ∧
      serverIsMulticastGroupValid 65537 = false ∧
      serverIsMulticastGroupValid 1 = true := by
  refine ⟨?_, by decide, by decide⟩
  exact receivedIds_eq [65537] (by decide) (by decide) (by decide) (by decide) _

end Pyramid
