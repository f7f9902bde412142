/-
# `Pyramid.Reading` — received values as C strings

No encoder sends a terminator, and nobody who is handed `tlv.value` looks at
`tlv.length`: `atoll`, `strcpy` and `printf` read on to the next zero byte.
That byte is there for one of three reasons, none of them in `decode`:

    another TLV follows       its type is less than 256, the high byte comes first
    another segment follows   its length is less than 2^24
    the chunk ends            `receive_data` has set `buf[count]`

`EndsValue` is what the three have in common, and the walk over a chunk keeps
it (`serve_reads`, `serveAll_reads`).
-/
import Pyramid.Packets
import Pyramid.Memory.Text

namespace Pyramid

/-- A TLV `handle_data` was given, the string `printf` and `strcpy` read at its
value and the number `atoll` reads there. -/
structure Reading where
  type : Nat
  length : Nat
  text : Bytes
  number : Int
  deriving DecidableEq, Repr

/-- The handler that reads every value; some types have none. -/
def readValue : Handler (List Reading) := fun _ buf _ tlv s =>
  match tlv.value with
  | none => .error .badAddr
  | some off => do
      let text ← cString (buf.drop off)
      .ok (s ++ [⟨tlv.type, tlv.length, text, atoll (buf.drop off)⟩])

/-! ## Where a string ends -/

/-- What stands behind a value ends it. -/
def EndsValue (behind : Bytes) : Prop := ∃ rest, behind = 0 :: rest

theorem EndsValue.text {v behind : Bytes} (h : EndsValue behind) (hv : 0 ∉ v) :
    cString (v ++ behind) = .ok v := by
  obtain ⟨rest, rfl⟩ := h
  exact cString_append hv

theorem EndsValue.number {behind : Bytes} (h : EndsValue behind) (v : Bytes) :
    atoll (v ++ behind) = atoll v := by
  obtain ⟨rest, rfl⟩ := h
  exact atoll_append v rest

namespace Packet

/-- A packet with a byte-valued type and no zero byte in its payload. -/
structure Plain (p : Packet) : Prop where
  bytes : p.type ∈ byteValued.map Attribute.code
  nul : 0 ∉ p.value

instance (p : Packet) : Decidable p.Plain :=
  decidable_of_iff (p.type ∈ byteValued.map Attribute.code ∧ 0 ∉ p.value)
    ⟨fun h => ⟨h.1, h.2⟩, fun h => ⟨h.bytes, h.nul⟩⟩

theorem Plain.type_lt {p : Packet} (hp : p.Plain) : p.type < 256 := by
  obtain ⟨a, ha, hcode⟩ := List.mem_map.mp hp.bytes
  have hall : ∀ a ∈ byteValued, a.code < 256 := by decide
  rw [← hcode]
  exact hall a ha

/-- The high byte of the next type. -/
theorem endsValue_wire {p : Packet} (hp : p.type < 256) (post : Bytes) :
    EndsValue (p.wire ++ post) := by
  have hhigh : UInt8.ofNat (htons p.type) = 0 :=
    UInt8.toNat_inj.mp ((toNat_ofNat _).trans (htons_small hp))
  rw [wire, bytes16, hhigh]
  exact ⟨_, rfl⟩

/-- The high byte of the next segment's length. -/
theorem endsValue_segment {ps : List Packet} (hps : (segment ps).length < 16777216)
    (post : Bytes) :
    EndsValue (segment ps ++ post) := by
  rw [length_segment] at hps
  have hhigh : UInt8.ofNat (htonl (4 + (wires ps).length)) = 0 :=
    UInt8.toNat_inj.mp ((toNat_ofNat _).trans (htonl_small hps))
  rw [segment, header, bytes32, hhigh]
  exact ⟨_, rfl⟩

theorem endsValue_wires {ps : List Packet} (hps : ∀ p ∈ ps, p.Plain) {post : Bytes}
    (hpost : EndsValue post) : EndsValue (wires ps ++ post) := by
  cases ps with
  | nil => exact hpost
  | cons p ps =>
      rw [wires_cons, List.append_assoc]
      exact endsValue_wire (hps p List.mem_cons_self).type_lt _

theorem endsValue_stream {segs : List (List Packet)}
    (hsegs : (stream segs).length < 16777216) {post : Bytes}
    (hpost : EndsValue post) : EndsValue (stream segs ++ post) := by
  cases segs with
  | nil => exact hpost
  | cons ps segs =>
      rw [stream_cons, List.length_append] at hsegs
      rw [stream_cons, List.append_assoc]
      exact endsValue_segment (by omega) _

/-! ## What is read -/

/-- What a packet ought to be read as. -/
def reading (p : Packet) : Reading :=
  ⟨p.type, p.value.length, p.value, atoll p.value⟩

theorem readValue_wire {p : Packet} (hp : p.Plain) (pre : Bytes) {post : Bytes}
    (hpost : EndsValue post) (g : Option Groups) (s : List Reading) :
    readValue pre.length (pre ++ (p.wire ++ post)) g
        ⟨p.type, p.value.length, some (pre.length + 4)⟩ s
      = .ok (s ++ [p.reading]) := by
  have htext := hpost.text hp.nul
  have hnumber := hpost.number p.value
  simp only [readValue, drop_wire, htext, ok_bind, hnumber, reading]

section Walk
variable {buf : Bytes} {g : Option Groups}

theorem serve_reads {post : Bytes} (hpost : EndsValue post) :
    ∀ {ps : List Packet} {pre : Bytes} (s : List Reading), (∀ p ∈ ps, p.Plain) →
      buf = pre ++ (wires ps ++ post) →
      serve readValue buf pre.length ps g s = .ok (g, s ++ ps.map reading) := by
  intro ps
  induction ps with
  | nil =>
      intro pre s _ _
      simp [serve]
  | cons p ps ih =>
      intro pre s hps hbuf
      have hp := hps p List.mem_cons_self
      have hrest : ∀ q ∈ ps, q.Plain := fun q hq => hps q (List.mem_cons_of_mem p hq)
      obtain ⟨hbuf₁, hbuf₂⟩ := split_wires hbuf
      have hdec := decode_bytes pre (wires ps ++ post) p hp.bytes g
      have hread := readValue_wire hp pre (endsValue_wires hrest hpost) g s
      have htail := ih (s ++ [p.reading]) hrest hbuf₂
      rw [← hbuf₁] at hdec hread
      rw [List.length_append] at htail
      simp only [serve, hdec, ok_bind, hread, htail, List.map_cons,
        List.append_assoc, List.singleton_append]

theorem serveAll_reads {post : Bytes} (hpost : EndsValue post) :
    ∀ {segs : List (List Packet)} {pre : Bytes} (s : List Reading),
      (∀ ps ∈ segs, ∀ p ∈ ps, p.Plain) → (stream segs).length < 16777216 →
      buf = pre ++ (stream segs ++ post) →
      serveAll readValue buf pre.length segs g s
        = .ok (g, s ++ segs.flatten.map reading) := by
  intro segs
  induction segs with
  | nil =>
      intro pre s _ _ _
      simp [serveAll]
  | cons ps segs ih =>
      intro pre s hsegs hlt hbuf
      have hps := hsegs ps List.mem_cons_self
      have hrest : ∀ qs ∈ segs, ∀ q ∈ qs, q.Plain :=
        fun qs hqs => hsegs qs (List.mem_cons_of_mem ps hqs)
      rw [stream_cons, List.length_append] at hlt
      obtain ⟨hbuf₁, hbuf₂⟩ := split_stream hbuf
      have hbehind := @endsValue_stream segs (by omega) post hpost
      have hinner := @serve_reads buf g _ hbehind ps (pre ++ header ps) s hps hbuf₁
      have htail := ih (s ++ ps.map reading) hrest (by omega) hbuf₂
      rw [List.length_append, length_header] at hinner
      rw [List.length_append] at htail
      simp only [serveAll, hinner, ok_bind, htail, List.flatten_cons,
        List.map_append, List.append_assoc]

end Walk

/-- **Values are read exactly.**  In a chunk of fewer than 1024 bytes made of
segments of byte-valued TLVs without zero bytes, whatever the array holds behind
the zero byte that `receive_data` puts there, every TLV is delivered, and the
string at its value is its payload, with as many characters as the TLV says. -/
theorem values_read_exactly {segs : List (List Packet)} (hne : segs ≠ [])
    (hplain : ∀ ps ∈ segs, ∀ p ∈ ps, p.Plain) (hlt : (stream segs).length < 1024)
    (room : Bytes) (g : Option Groups) :
    storeNul (stream segs).length = .ok () ∧
      handleClientMessage readValue (stream segs ++ 0 :: room)
        (stream segs).length g []
        = .ok (false, ⟨(stream segs).length, 0, g,
            segs.flatten.map fun p => ⟨p.type, p.value.length, p.value,
            atoll p.value⟩⟩) := by
  have hserve :=
    @serveAll_reads (stream segs ++ 0 :: room) g (0 :: room) ⟨room, rfl⟩ segs [] []
    hplain (by omega) rfl
  rw [List.length_nil, List.nil_append] at hserve
  refine ⟨if_pos ⟨by omega, by unfold oneKb; omega⟩, ?_⟩
  rw [handleClientMessage_stream hne (by unfold intMax; omega), hserve, ok_bind]
  rfl

/-- A string and a result in one segment, a result in the next,
and 9s behind the chunk. -/
theorem values_read_exactly_sample :
    let segs : List (List Packet) :=
      [[⟨3, [104, 105], by decide, by decide⟩, ⟨102, [55], by decide, by decide⟩],
        [⟨102, [52, 50], by decide, by decide⟩]]
    storeNul (stream segs).length = .ok () ∧
      handleClientMessage readValue (stream segs ++ 0 :: [57, 57])
        (stream segs).length none []
        = .ok (false, ⟨25, 0, none,
            [⟨3, 2, [104, 105], 0⟩, ⟨102, 1, [55], 7⟩, ⟨102, 2, [52, 50], 42⟩]⟩) :=
  values_read_exactly (List.cons_ne_nil _ _) (by decide) (by decide) [57, 57] none

end Packet

end Pyramid
