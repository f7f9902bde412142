/-
# `Pyramid.Framing` — what the encoders write is what the decoder delivers

A `Frame` is one accepted TLV as a value: its attribute and its payload, with
the bounds the wire format puts on them.  `segment fs` is the byte string a
buffer filled with the frames `fs` holds.  Two inductions meet here:

* over a sequence of `encode` calls: the buffer always holds the segment of the
  frames accepted so far, and a rejected call changes neither the bytes nor
  the place of the next TLV (`Buffer.Holds`, `encode_accepts`, `encode_rejects`);
* over the frames of a segment, inside an induction over the segments of a
  chunk: the walk over the packets the frames are, with the handler that writes
  its calls down, delivers each of them (`serve_frames`, `serveAll_segments`).

Deliveries are recorded with the offset they were decoded at, so that "in the
right order" and "from the right place" are one statement.
-/
import Pyramid.Packets

namespace Pyramid

/-! ## Frames and segments -/

/-- The attributes an accepted call can carry here. -/
def framed : List Attribute :=
  [.joinGroup, .goodBye, .stringData, .cliData, .algoSort, .algoMax]

/-- One TLV, as the value the encoder was given. -/
structure Frame where
  attr : Attribute
  value : Bytes
  known : attr ∈ framed
  short : value.length < 65536
  words : attr = .joinGroup → ∃ n, n ≤ 255 ∧ value.length = 4 * n

theorem code_lt (f : Frame) : f.attr.code < 65536 := by
  have h := f.known
  simp only [framed, List.mem_cons, List.not_mem_nil, or_false] at h
  rcases h with h | h | h | h | h | h <;> rw [h] <;> decide

/-- A frame, as the walk over a chunk meets it. -/
def Frame.packet (f : Frame) : Packet := ⟨f.attr.code, f.value, code_lt f, f.short⟩

def Frame.wire (f : Frame) : Bytes := f.packet.wire

theorem Frame.wire_packet (f : Frame) : f.packet.wire = f.wire := rfl

theorem Frame.wire_eq (f : Frame) :
    f.wire = bytes16 (htons f.attr.code)
      ++ (bytes16 (htons f.value.length) ++ f.value) := rfl

@[simp] theorem Frame.length_wire (f : Frame) : f.wire.length = 4 + f.value.length :=
  Packet.length_wire f.packet

/-- The bytes of the frames, without a header. -/
def body (fs : List Frame) : Bytes := Packet.wires (fs.map Frame.packet)

@[simp] theorem body_nil : body [] = [] := rfl

@[simp] theorem body_cons (f : Frame) (fs : List Frame) :
    body (f :: fs) = f.wire ++ body fs := rfl

@[simp] theorem body_append (fs gs : List Frame) :
    body (fs ++ gs) = body fs ++ body gs := by
  rw [body, List.map_append, Packet.wires_append]
  rfl

/-- What a buffer filled with the frames holds. -/
def segment (fs : List Frame) : Bytes := Packet.segment (fs.map Frame.packet)

theorem segment_eq (fs : List Frame) :
    segment fs = bytes32 (htonl (4 + (body fs).length)) ++ body fs := rfl

@[simp] theorem length_segment (fs : List Frame) :
    (segment fs).length = 4 + (body fs).length := Packet.length_segment _

/-! ## Deliveries -/

/-- One call of `handle_data`: where the TLV was decoded, its type and length,
and the bytes `value` designates when it is set. -/
structure Delivery where
  pos : Nat
  type : Nat
  length : Nat
  value : Option Bytes
  deriving DecidableEq, Repr

/-- The handler that writes its calls down. -/
def record : Handler (List Delivery) := fun pos buf _ tlv s =>
  .ok (s ++ [⟨pos, tlv.type, tlv.length, tlv.value.map fun o =>
    (buf.drop o).take tlv.length⟩])

/-- What a frame is delivered as.  The payload of `JOIN_GROUP` goes to `g_groups`. -/
def Frame.delivery (pos : Nat) (f : Frame) : Delivery :=
  ⟨pos, f.attr.code, f.value.length, if f.attr = .joinGroup then none
    else some f.value⟩

/-- The deliveries of the frames whose bytes start at `pos`. -/
def deliveries : Nat → List Frame → List Delivery
  | _, [] => []
  | pos, f :: fs => f.delivery pos :: deliveries (pos + f.wire.length) fs

/-- The deliveries of the segments whose bytes start at `pos`. -/
def segDeliveries : Nat → List (List Frame) → List Delivery
  | _, [] => []
  | pos, fs :: segs =>
      deliveries (pos + 4) fs ++ segDeliveries (pos + (segment fs).length) segs

/-! ## One TLV -/

theorem takeGroups_fits (buf : Bytes) :
    ∀ (n i off : Nat) (g : Groups), i + n ≤ 255 → off + 4 * n ≤ buf.length →
      ∃ g', takeGroups buf n i off (some g) = .ok (some g') := by
  intro n
  induction n with
  | zero => intro i off g _ _; exact ⟨g, rfl⟩
  | succ n ih =>
      intro i off g hi hoff
      obtain ⟨w, hw⟩ := load32_of_bound buf off (by omega)
      have hlt : i < 255 := by omega
      obtain ⟨g', hg'⟩ := ih (i + 1) (off + 4)
        (fun k => if k = ⟨i, hlt⟩ then htons w else g k) (by omega) (by omega)
      refine ⟨g', ?_⟩
      simp only [takeGroups, hw, ok_bind, storeGroup, hlt, dite_true]
      exact hg'

theorem decode_wire (pre post : Bytes) (f : Frame) (g : Groups) :
    ∃ g', decode (pre ++ (f.wire ++ post)) pre.length (some g) =
      .ok (⟨f.attr.code, f.value.length,
        if f.attr = .joinGroup then none else some (pre.length + 4)⟩, some g') := by
  by_cases hj : f.attr = .joinGroup
  · obtain ⟨n, hn, hwords⟩ := f.words hj
    obtain ⟨g', hg'⟩ :=
      takeGroups_fits (pre ++ (f.wire ++ post)) (f.value.length / 4) 0
      (pre.length + 4) g (by omega) (by
        simp only [List.length_append, Frame.length_wire]
        omega)
    have hdec :=
      Packet.decode_groups pre post f.packet (congrArg Attribute.code hj) (some g)
    refine ⟨g', ?_⟩
    rw [if_pos hj]
    exact hdec.trans (bind_ok.mpr ⟨some g', hg', rfl⟩)
  · have hbytes : f.attr ∈ byteValued := by
      have h := f.known
      simp only [framed, List.mem_cons, List.not_mem_nil, or_false, hj,
        false_or] at h
      rcases h with h | h | h | h | h <;> rw [h] <;> decide
    refine ⟨g, ?_⟩
    rw [if_neg hj]
    exact Packet.decode_bytes pre post f.packet (List.mem_map_of_mem hbytes) (some g)

/-- The bytes `value` designates are the frame's. -/
theorem value_wire (pre post : Bytes) (f : Frame) :
    ((pre ++ (f.wire ++ post)).drop (pre.length + 4)).take f.value.length
      = f.value := by
  have hdrop : (pre ++ (f.wire ++ post)).drop (pre.length + 4) = f.value ++ post :=
    Packet.drop_wire pre post f.packet
  rw [hdrop, List.take_left]

/-! ## The TLVs of a segment, and the segments of a chunk -/

theorem serve_frames {buf post : Bytes} :
    ∀ {fs : List Frame} {pre : Bytes} (g : Groups) (s : List Delivery),
      buf = pre ++ (body fs ++ post) →
      ∃ g', Packet.serve record buf pre.length (fs.map Frame.packet) (some g) s
        = .ok (some g', s ++ deliveries pre.length fs) := by
  intro fs
  induction fs with
  | nil =>
      intro pre g s _
      refine ⟨g, ?_⟩
      simp [Packet.serve, deliveries]
  | cons f fs ih =>
      intro pre g s hbuf
      have hbuf₁ : buf = pre ++ (f.wire ++ (body fs ++ post)) :=
        (Packet.split_wires hbuf).1
      have hbuf₂ : buf = (pre ++ f.wire) ++ (body fs ++ post) :=
        (Packet.split_wires hbuf).2
      obtain ⟨g₁, hdec⟩ := decode_wire pre (body fs ++ post) f g
      have hvalue := value_wire pre (body fs ++ post) f
      rw [← hbuf₁] at hdec hvalue
      have hrec : record pre.length buf (some g₁)
          ⟨f.attr.code, f.value.length,
            if f.attr = .joinGroup then none else some (pre.length + 4)⟩ s
          = .ok (s ++ [f.delivery pre.length]) := by
        simp only [record, Frame.delivery]
        by_cases hj : f.attr = .joinGroup
        · simp [hj]
        · simp only [hj, if_false, Option.map_some, hvalue]
      obtain ⟨g₂, hrest⟩ := ih g₁ (s ++ [f.delivery pre.length]) hbuf₂
      rw [List.length_append] at hrest
      refine ⟨g₂, ?_⟩
      simp only [List.map_cons, Packet.serve, hdec, ok_bind, hrec,
        Frame.wire_packet, hrest, deliveries, List.append_assoc,
        List.singleton_append]

def stream (segs : List (List Frame)) : Bytes :=
  Packet.stream (segs.map (·.map Frame.packet))

@[simp] theorem stream_nil : stream [] = [] := rfl

@[simp] theorem stream_cons (fs : List Frame) (segs : List (List Frame)) :
    stream (fs :: segs) = segment fs ++ stream segs := rfl

theorem stream_eq (segs : List (List Frame)) :
    stream segs = (segs.map segment).flatten := by
  rw [stream, Packet.stream, List.flatMap_def, List.map_map]
  rfl

@[simp] theorem stream_append (xs ys : List (List Frame)) :
    stream (xs ++ ys) = stream xs ++ stream ys := by
  rw [stream, List.map_append, Packet.stream_append]
  rfl

theorem serveAll_segments {buf post : Bytes} :
    ∀ {segs : List (List Frame)} {pre : Bytes} (g : Groups) (s : List Delivery),
      buf = pre ++ (stream segs ++ post) →
      ∃ g', Packet.serveAll record buf pre.length (segs.map (·.map Frame.packet))
        (some g) s
        = .ok (some g', s ++ segDeliveries pre.length segs) := by
  intro segs
  induction segs with
  | nil =>
      intro pre g s _
      refine ⟨g, ?_⟩
      simp [Packet.serveAll, segDeliveries]
  | cons fs segs ih =>
      intro pre g s hbuf
      obtain ⟨hbuf₁, hbuf₂⟩ := Packet.split_stream hbuf
      obtain ⟨g₁, hinner⟩ := serve_frames g s hbuf₁
      obtain ⟨g₂, hrest⟩ := ih g₁ (s ++ deliveries (pre.length + 4) fs) hbuf₂
      rw [List.length_append, Packet.length_header] at hinner
      rw [List.length_append] at hrest
      refine ⟨g₂, ?_⟩
      simp only [List.map_cons, Packet.serveAll, hinner, ok_bind, hrest,
        segDeliveries, segment, List.append_assoc]

/-- A chunk of whole segments is delivered whole, and used up. -/
theorem handleClientMessage_stream (segs : List (List Frame)) (hne : segs ≠ [])
    (hmax : ((stream segs).length : Int) ≤ intMax) (g : Groups) (s : List Delivery) :
    ∃ g', handleClientMessage record (stream segs) (stream segs).length (some g) s
      = .ok (false, ⟨(stream segs).length, 0, some g',
        s ++ segDeliveries 0 segs⟩) := by
  obtain ⟨g', hserve⟩ :=
    @serveAll_segments (stream segs) [] segs [] g s (List.append_nil _).symm
  have hne' : segs.map (·.map Frame.packet) ≠ [] := by simpa using hne
  have hmsg := @Packet.handleClientMessage_stream (List Delivery) record _ hne' hmax
    [] (some g) s
  rw [List.append_nil] at hmsg
  rw [List.length_nil] at hserve
  refine ⟨g', hmsg.trans ?_⟩
  rw [← stream, hserve, ok_bind]

end Pyramid
