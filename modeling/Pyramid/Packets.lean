/-
# `Pyramid.Packets` — the walk over a chunk, whatever `handle_data` does

A `Packet` is a TLV of any type with any payload; a chunk is a sequence of
segments, each a header and a sequence of packets.  Three programs walk over a
chunk with the same two loops and differ in their `handle_data` and in what
`g_groups` is.  On the bytes of such a chunk the loops do what `serve` does by
recursion over the packets: `decode` and the handler, for one packet after the
other, until one of them ends the run (`tlvLoop_wires`, `segLoop_stream`).
-/
import Pyramid.Receive

namespace Pyramid

/-- A TLV, as the value it stands for. -/
structure Packet where
  type : Nat
  value : Bytes
  typed : type < 65536
  short : value.length < 65536

namespace Packet

def wire (p : Packet) : Bytes :=
  bytes16 (htons p.type) ++ (bytes16 (htons p.value.length) ++ p.value)

@[simp] theorem length_wire (p : Packet) : p.wire.length = 4 + p.value.length := by
  simp only [wire, List.length_append, length_bytes16]
  omega

def wires (ps : List Packet) : Bytes := ps.flatMap wire

@[simp] theorem wires_nil : wires [] = [] := rfl

@[simp] theorem wires_cons (p : Packet) (ps : List Packet) :
    wires (p :: ps) = p.wire ++ wires ps :=
  rfl

theorem wires_append (ps qs : List Packet) :
    wires (ps ++ qs) = wires ps ++ wires qs :=
  List.flatMap_append

theorem length_le_wires (ps : List Packet) : ps.length ≤ (wires ps).length := by
  induction ps with
  | nil => exact Nat.le_refl 0
  | cons p ps ih =>
      simp only [wires_cons, List.length_cons, List.length_append, length_wire]
      omega

/-- The header of a segment counts itself. -/
def header (ps : List Packet) : Bytes := bytes32 (htonl (4 + (wires ps).length))

def segment (ps : List Packet) : Bytes := header ps ++ wires ps

@[simp] theorem length_header (ps : List Packet) : (header ps).length = 4 := rfl

@[simp] theorem length_segment (ps : List Packet) :
    (segment ps).length = 4 + (wires ps).length := by
  simp [segment]

def stream (segs : List (List Packet)) : Bytes := segs.flatMap segment

@[simp] theorem stream_nil : stream [] = [] := rfl

@[simp] theorem stream_cons (ps : List Packet) (segs : List (List Packet)) :
    stream (ps :: segs) = segment ps ++ stream segs := rfl

theorem stream_append (xs ys : List (List Packet)) :
    stream (xs ++ ys) = stream xs ++ stream ys :=
  List.flatMap_append

theorem length_le_stream (segs : List (List Packet)) :
    segs.length ≤ (stream segs).length := by
  induction segs with
  | nil => exact Nat.le_refl 0
  | cons ps segs ih =>
      simp only [stream_cons, List.length_cons, List.length_append, length_segment]
      omega

/-! ## Where the bytes stand -/

theorem split_wires {buf pre post : Bytes} {p : Packet} {ps : List Packet}
    (h : buf = pre ++ (wires (p :: ps) ++ post)) :
    buf = pre ++ (p.wire ++ (wires ps ++ post)) ∧
      buf = (pre ++ p.wire) ++ (wires ps ++ post) := by
  rw [wires_cons, List.append_assoc] at h
  exact ⟨h, by rw [h, List.append_assoc]⟩

theorem split_stream {buf pre post : Bytes} {ps : List Packet}
    {segs : List (List Packet)} (h : buf = pre ++ (stream (ps :: segs) ++ post)) :
    buf = (pre ++ header ps) ++ (wires ps ++ (stream segs ++ post)) ∧
      buf = (pre ++ segment ps) ++ (stream segs ++ post) := by
  rw [stream_cons, List.append_assoc] at h
  exact ⟨by simp [h, segment, List.append_assoc], by rw [h, List.append_assoc]⟩

/-! ## One packet -/

section Decode
variable (pre post : Bytes) (p : Packet)

/-- The type and length words, read back. -/
theorem load_wire :
    load16 (pre ++ (p.wire ++ post)) pre.length = .ok (htons p.type) ∧
      load16 (pre ++ (p.wire ++ post)) (pre.length + 2)
        = .ok (htons p.value.length) := by
  have htype := htons_lt p.type
  have hlength := htons_lt p.value.length
  constructor
  · simp only [wire, List.append_assoc]
    rw [load16_append, Nat.mod_eq_of_lt htype]
  · have hpre : pre.length + 2 = (pre ++ bytes16 (htons p.type)).length := by simp
    simp only [wire, List.append_assoc]
    rw [hpre, ← List.append_assoc, load16_append, Nat.mod_eq_of_lt hlength]

theorem htons_type : htons (htons p.type) = p.type := by
  rw [htons_htons, Nat.mod_eq_of_lt p.typed]

theorem htons_length : htons (htons p.value.length) = p.value.length := by
  rw [htons_htons, Nat.mod_eq_of_lt p.short]

/-- The payload starts four bytes behind the packet's first. -/
theorem drop_wire :
    (pre ++ (p.wire ++ post)).drop (pre.length + 4) = p.value ++ post := by
  have hpre : pre.length + 4
      = (pre ++ (bytes16 (htons p.type)
        ++ bytes16 (htons p.value.length))).length := by
    simp
  have hbuf : pre ++ (p.wire ++ post)
      = (pre ++ (bytes16 (htons p.type) ++ bytes16 (htons p.value.length)))
        ++ (p.value ++ post) := by
    simp [wire, List.append_assoc]
  rw [hpre, hbuf, List.drop_left]

/-- What `decode` returns has the packet's length, whatever its type. -/
theorem decode_length {g g' : Option Groups} {tlv : Tlv}
    (h : decode (pre ++ (p.wire ++ post)) pre.length g = .ok (tlv, g')) :
    tlv.length = p.value.length := by
  obtain ⟨-, hlength⟩ := load_wire pre post p
  rw [(decode_cases h).2.2.1, ← htons_load16 hlength, htons_length]

theorem decode_groups (hp : p.type = Attribute.joinGroup.code) (g : Option Groups) :
    decode (pre ++ (p.wire ++ post)) pre.length g =
      takeGroups (pre ++ (p.wire ++ post)) (p.value.length / 4) 0 (pre.length + 4) g
        >>= fun g' =>
        .ok (⟨p.type, p.value.length, none⟩, g') := by
  obtain ⟨htype, hlength⟩ := load_wire pre post p
  have hattr := Attribute.ofCode_eq_some.mpr hp
  simp only [decode, htype, hlength, ok_bind, htons_type, htons_length, hattr]

theorem decode_bytes (hp : p.type ∈ byteValued.map Attribute.code)
    (g : Option Groups) :
    decode (pre ++ (p.wire ++ post)) pre.length g =
      .ok (⟨p.type, p.value.length, some (pre.length + 4)⟩, g) := by
  obtain ⟨htype, hlength⟩ := load_wire pre post p
  obtain ⟨a, ha, hcode⟩ := List.mem_map.mp hp
  have hattr := Attribute.ofCode_eq_some.mpr hcode.symm
  simp only [decode, htype, hlength, ok_bind, htons_type, htons_length, hattr]
  simp only [byteValued, List.mem_cons, List.not_mem_nil, or_false] at ha
  rcases ha with rfl | rfl | rfl | rfl | rfl | rfl <;> rfl

theorem decode_unknown (hjoin : p.type ≠ Attribute.joinGroup.code)
    (hp : p.type ∉ byteValued.map Attribute.code) (g : Option Groups) :
    decode (pre ++ (p.wire ++ post)) pre.length g =
      load16 (pre ++ (p.wire ++ post)) (pre.length + 4) >>= fun _ =>
        .ok (⟨p.type, p.value.length, none⟩, g) := by
  obtain ⟨htype, hlength⟩ := load_wire pre post p
  simp only [decode, htype, hlength, ok_bind, htons_type, htons_length]
  cases hattr : Attribute.ofCode p.type with
  | none => rfl
  | some a =>
      have hcode := Attribute.ofCode_eq_some.mp hattr
      cases a with
      | joinGroup => exact absurd hcode hjoin
      | goodBye | stringData | cliData | algoError | algoSort | algoMax =>
          exact absurd (hcode ▸ List.mem_map_of_mem (by decide)) hp
      | none | int32Data | cliError | max => rfl

end Decode

/-! ## The two loops -/

section Serve
variable {σ : Type} (handleData : Handler σ) (buf : Bytes)

/-- `decode` and `handle_data` for the packets whose bytes start at `pos`. -/
def serve : Nat → List Packet → Option Groups → σ → Except Halt (Option Groups × σ)
  | _, [], g, s => .ok (g, s)
  | pos, p :: ps, g, s => do
      let (tlv, g) ← decode buf pos g
      let s ← handleData pos buf g tlv s
      serve (pos + p.wire.length) ps g s

/-- The same for the segments whose bytes start at `pos`. -/
def serveAll : Nat → List (List Packet) → Option Groups → σ →
    Except Halt (Option Groups × σ)
  | _, [], g, s => .ok (g, s)
  | pos, ps :: segs, g, s => do
      let (g, s) ← serve handleData buf (pos + 4) ps g s
      serveAll (pos + (segment ps).length) segs g s

variable {handleData buf}

theorem tlvLoop_wires {post : Bytes} :
    ∀ {ps : List Packet} {pre : Bytes} {fuel : Nat} (g : Option Groups) (s : σ),
      buf = pre ++ (wires ps ++ post) → ps.length ≤ fuel →
      tlvLoop handleData buf fuel pre.length (wires ps).length g s
        = serve handleData buf pre.length ps g s >>= fun r =>
            .ok (pre.length + (wires ps).length, r.1, r.2) := by
  intro ps
  induction ps with
  | nil =>
      intro pre fuel g s _ _
      unfold tlvLoop
      simp [serve]
  | cons p ps ih =>
      intro pre fuel g s hbuf hfuel
      obtain ⟨fuel, rfl⟩ : ∃ k, fuel = k + 1 := ⟨fuel - 1, by simp at hfuel; omega⟩
      have hpos : (0 : Int) < ((wires (p :: ps)).length : Int) := by
        simp only [wires_cons, List.length_append, length_wire]
        omega
      obtain ⟨hbuf₁, hbuf₂⟩ := split_wires hbuf
      unfold tlvLoop
      rw [if_pos hpos, serve]
      cases hdec : decode buf pre.length g with
      | error e => rfl
      | ok r =>
          obtain ⟨tlv, g₁⟩ := r
          simp only [ok_bind]
          cases hdata : handleData pre.length buf g₁ tlv s with
          | error e => rfl
          | ok s₁ =>
              have hlength : tlv.length = p.value.length := by
                rw [hbuf₁] at hdec
                exact decode_length pre _ p hdec
              have hleft : ((wires (p :: ps)).length : Int) - (tlv.length : Int) - 4
                  = ((wires ps).length : Int) := by
                simp only [wires_cons, List.length_append, length_wire, hlength]
                omega
              have hoff : pre.length + tlv.length + 4 = (pre ++ p.wire).length := by
                simp only [List.length_append, length_wire, hlength]
                omega
              have hend : (pre ++ p.wire).length + (wires ps).length
                  = pre.length + (wires (p :: ps)).length := by
                simp only [wires_cons, List.length_append]
                omega
              simp only [ok_bind]
              rw [hleft, hoff, ih g₁ s₁ hbuf₂ (by simp at hfuel; omega), hend,
                List.length_append]

/-- The header of a segment, as both loops read it. -/
theorem load_header (pre post : Bytes) {ps : List Packet}
    (h : ((segment ps).length : Int) ≤ intMax) :
    ∃ w, load32 (pre ++ (segment ps ++ post)) pre.length = .ok w ∧
      toInt32 (htonl w) = ((segment ps).length : Int) := by
  have hlt : 4 + (wires ps).length < 4294967296 := by
    simp only [length_segment, intMax] at h
    omega
  refine ⟨htonl (4 + (wires ps).length), ?_, ?_⟩
  · simp only [segment, header, List.append_assoc]
    rw [load32_append, Nat.mod_eq_of_lt (htonl_lt _)]
  · rw [htonl_htonl, Nat.mod_eq_of_lt hlt, ← length_segment]
    exact toInt32_nat h

/-- The first header of a chunk of whole segments announces no more than is there. -/
theorem load_stream {segs : List (List Packet)} (hne : segs ≠ [])
    (hmax : ((stream segs).length : Int) ≤ intMax) (room : Bytes) :
    ∃ w, load32 (stream segs ++ room) 0 = .ok w ∧
      toInt32 (htonl w) ≤ ((stream segs).length : Int) := by
  obtain ⟨ps, rest, rfl⟩ := List.exists_cons_of_ne_nil hne
  have hlen : (stream (ps :: rest)).length
      = (segment ps).length + (stream rest).length := by
    simp
  obtain ⟨w, hw, hseg⟩ := load_header [] (stream rest ++ room)
    (show ((segment ps).length : Int) ≤ intMax by omega)
  rw [List.nil_append, List.length_nil, ← List.append_assoc, ← stream_cons] at hw
  exact ⟨w, hw, by omega⟩

theorem segLoop_stream {post : Bytes} :
    ∀ {segs : List (List Packet)} {pre : Bytes} {fuel : Nat}
      (g : Option Groups) (s : σ), buf = pre ++ (stream segs ++ post) →
      segs.length ≤ fuel →
      ((stream segs).length : Int) ≤ intMax →
      segLoop handleData buf fuel ⟨pre.length, (stream segs).length, g, s⟩
        = serveAll handleData buf pre.length segs g s >>= fun r =>
            .ok ⟨pre.length + (stream segs).length, 0, r.1, r.2⟩ := by
  intro segs
  induction segs with
  | nil =>
      intro pre fuel g s _ _ _
      unfold segLoop
      simp [serveAll]
  | cons ps segs ih =>
      intro pre fuel g s hbuf hfuel hmax
      obtain ⟨fuel, rfl⟩ : ∃ k, fuel = k + 1 := ⟨fuel - 1, by simp at hfuel; omega⟩
      have hlen : (stream (ps :: segs)).length
          = (segment ps).length + (stream segs).length := by
        simp
      have hpos : (0 : Int) < ((stream (ps :: segs)).length : Int) := by
        simp only [hlen, length_segment]
        omega
      have hbuf₁ : buf = pre ++ (segment ps ++ (stream segs ++ post)) := by
        rw [hbuf, stream_cons, List.append_assoc]
      obtain ⟨hbuf₂, hbuf₃⟩ := split_stream hbuf
      obtain ⟨w, hw, hseg⟩ := load_header pre (stream segs ++ post)
        (show ((segment ps).length : Int) ≤ intMax by omega)
      rw [← hbuf₁] at hw
      have hsub : subInt ((segment ps).length : Int) 4
          = .ok ((wires ps).length : Int) :=
        subInt_ok.mpr (by
          simp only [length_segment, intMin, intMax] at hmax hlen ⊢
          omega)
      have hsub' : subInt ((stream (ps :: segs)).length : Int)
          ((segment ps).length : Int)
          = .ok ((stream segs).length : Int) :=
        subInt_ok.mpr (by
          simp only [intMin, intMax] at hmax ⊢
          omega)
      have hps : ps.length ≤ buf.length := by
        have := length_le_wires ps
        simp only [hbuf₁, List.length_append, length_segment]
        omega
      have hinner :=
        @tlvLoop_wires σ handleData buf (stream segs ++ post) ps (pre ++ header ps)
        buf.length g s hbuf₂ hps
      have hoff : (pre ++ header ps).length = pre.length + 4 := by simp
      have hstop : pre.length + 4 + (wires ps).length
          = (pre ++ segment ps).length := by
        simp only [List.length_append, length_segment]
        omega
      have hend : (pre ++ segment ps).length + (stream segs).length
          = pre.length + (stream (ps :: segs)).length := by
        simp only [List.length_append, hlen]
        omega
      rw [hoff] at hinner
      unfold segLoop
      simp only [hpos, if_true, hw, ok_bind, hseg, hsub, hinner, hsub']
      rw [serveAll]
      cases serve handleData buf (pre.length + 4) ps g s with
      | error e => rfl
      | ok r =>
          obtain ⟨g₁, s₁⟩ := r
          simp only [ok_bind]
          rw [hstop, ih g₁ s₁ hbuf₃ (by simp at hfuel; omega) (by omega), hend,
            List.length_append]

/-- A chunk of whole segments is walked over to its end; what the array holds
behind it is not looked at by the loops. -/
theorem segLoop_chunk {segs : List (List Packet)}
    (hmax : ((stream segs).length : Int) ≤ intMax) (room : Bytes)
    (g : Option Groups) (s : σ) :
    segLoop handleData (stream segs ++ room) (stream segs ++ room).length
        ⟨0, (stream segs).length, g, s⟩
      = serveAll handleData (stream segs ++ room) 0 segs g s >>= fun r =>
          .ok ⟨(stream segs).length, 0, r.1, r.2⟩ := by
  have hfuel : segs.length ≤ (stream segs ++ room).length := by
    have := length_le_stream segs
    rw [List.length_append]
    omega
  have hloop := @segLoop_stream σ handleData (stream segs ++ room) room segs []
    (stream segs ++ room).length g s (List.nil_append _).symm hfuel hmax
  rwa [List.length_nil, Nat.zero_add] at hloop

theorem handleClientMessage_stream {segs : List (List Packet)} (hne : segs ≠ [])
    (hmax : ((stream segs).length : Int) ≤ intMax) (room : Bytes)
    (g : Option Groups) (s : σ) :
    handleClientMessage handleData (stream segs ++ room) (stream segs).length g s
      = serveAll handleData (stream segs ++ room) 0 segs g s >>= fun r =>
          .ok (false, ⟨(stream segs).length, 0, r.1, r.2⟩) := by
  obtain ⟨w, hw, hle⟩ := load_stream hne hmax room
  simp only [handleClientMessage, hw, ok_bind]
  rw [if_neg (Int.not_lt.mpr hle), segLoop_chunk hmax]
  cases serveAll handleData (stream segs ++ room) 0 segs g s with
  | error e => rfl
  | ok r => rfl

end Serve

end Packet

end Pyramid
