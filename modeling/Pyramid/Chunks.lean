/-
# `Pyramid.Chunks` — what cutting the stream does

`recv` cuts the byte stream of a connection anywhere.  `receive_data` keeps
nothing between two chunks, so a chunk is received as if it were the whole
stream.  This module says for which cuts that is right.

Everything read for one delivery lies inside the chunk it was decoded from,
and no TLV starts in the first four bytes of a chunk (`received_within`).  A
cut inside a segment always has a TLV that breaks one of the two
(`straddle_segments`).  So the deliveries are the right ones only when no cut
lies inside a segment (`cut_between_segments`), and then they are
(`received_whole_segments`).
-/
import Pyramid.RoundTrip

namespace Pyramid

/-! ## Receiving a stream piece by piece -/

/-- The same delivery, seen in a stream of which the chunk is
the part from `base` on. -/
def Delivery.shift (base : Nat) (d : Delivery) : Delivery :=
  { d with pos := base + d.pos }

/-- How one piece of the stream is received. -/
abbrev Receive := Bytes → Option Groups → Except Halt (Option Groups × List Delivery)

/-- The piece is what one `recv` returns. -/
def received : Receive := fun chunk g => do
  let (_, g, ds) ← receiveRound record (.data chunk) g []
  .ok (g, ds)

/-- The piece is one segment, which arrives alone and whole. -/
def whole : Receive := fun seg g => do
  let (_, w) ← handleClientMessage record seg seg.length g []
  .ok (w.groups, w.state)

/-- The deliveries of a connection, at their places in its stream. -/
def overPieces (receive : Receive) :
    Nat → List Bytes → Option Groups → Except Halt (List Delivery)
  | _, [], _ => .ok []
  | base, p :: ps, g => do
      let (g, ds) ← receive p g
      let rest ← overPieces receive (base + p.length) ps g
      .ok (ds.map (Delivery.shift base) ++ rest)

theorem shift_deliveries (base : Nat) : ∀ (pos : Nat) (fs : List Frame),
    (deliveries pos fs).map (Delivery.shift base) = deliveries (base + pos) fs
  | _, [] => rfl
  | pos, f :: fs => by
      simp only [deliveries, List.map_cons,
        shift_deliveries base (pos + f.wire.length) fs, Nat.add_assoc]
      rfl

theorem shift_segDeliveries (base : Nat) : ∀ (pos : Nat) (segs : List (List Frame)),
    (segDeliveries pos segs).map (Delivery.shift base)
      = segDeliveries (base + pos) segs
  | _, [] => rfl
  | pos, fs :: segs => by
      simp only [segDeliveries, List.map_append, shift_deliveries,
        shift_segDeliveries base (pos + (segment fs).length) segs, Nat.add_assoc]

theorem segDeliveries_append : ∀ (pos : Nat) (xs ys : List (List Frame)),
    segDeliveries pos (xs ++ ys) = segDeliveries pos xs ++ segDeliveries
      (pos + (stream xs).length) ys
  | _, [], _ => rfl
  | pos, fs :: xs, ys => by
      simp only [List.cons_append, segDeliveries, segDeliveries_append _ xs ys,
        List.append_assoc, stream_cons, List.length_append, Nat.add_assoc]

/-! ## Where a delivery comes from -/

/-- Everything that was read for this delivery lies before `q`. -/
structure Delivery.Within (d : Delivery) (q : Nat) : Prop where
  head : d.pos + 4 ≤ q
  groups : d.type = Attribute.joinGroup.code → d.pos + 4 + 4 * (d.length / 4) ≤ q
  value : ∀ v, d.value = some v → d.pos + 4 + v.length ≤ q

theorem decode_bound {buf : Bytes} {off : Nat} {g g' : Option Groups} {tlv : Tlv}
    (h : decode buf off g = .ok (tlv, g')) :
    off + 4 ≤ buf.length ∧
      (tlv.type = Attribute.joinGroup.code →
        off + 4 + 4 * (tlv.length / 4) ≤ buf.length) ∧
      ∀ o, tlv.value = some o → o = off + 4 := by
  obtain ⟨hhead, -, -, ⟨-, hvalue, hg⟩ | ⟨hcode, hvalue, -⟩ | ⟨hcode, -,
      hvalue, -, -⟩⟩ :=
    decode_cases h
  · refine ⟨hhead, fun _ => takeGroups_bound buf _ 0 _ g g' hhead hg, fun o ho => ?_⟩
    rw [hvalue] at ho
    cases ho
  · refine ⟨hhead, fun hjoin => ?_, fun o ho => ?_⟩
    · rw [hjoin] at hcode
      exact absurd hcode (by decide)
    · rw [hvalue] at ho
      exact (Option.some.inj ho).symm
  · refine ⟨hhead, fun hjoin => absurd hjoin hcode, fun o ho => ?_⟩
    rw [hvalue] at ho
    cases ho

theorem record_ok {pos : Nat} {buf : Bytes} {g : Option Groups} {tlv : Tlv}
    {s s' : List Delivery} (h : record pos buf g tlv s = .ok s') :
    s' = s ++ [⟨pos, tlv.type, tlv.length, tlv.value.map fun o =>
      (buf.drop o).take tlv.length⟩] :=
  (Except.ok.inj h).symm

/-- The TLVs of a segment that starts its walk at `off`. -/
theorem tlvLoop_within (buf : Bytes) :
    ∀ (fuel off : Nat) (len : Int) (g : Option Groups) (s : List Delivery)
      (off' : Nat)
      (g' : Option Groups) (s' : List Delivery),
      tlvLoop record buf fuel off len g s = .ok (off', g', s') →
      off ≤ off' ∧ ∃ ds, s' = s ++ ds ∧ ∀ d ∈ ds, off ≤ d.pos ∧
      d.Within buf.length := by
  intro fuel
  induction fuel with
  | zero =>
      intro off len g s off' g' s' h
      rw [tlvLoop] at h
      by_cases hlen : 0 < len
      · rw [if_pos hlen] at h
        cases h
      · rw [if_neg hlen] at h
        cases h
        exact ⟨Nat.le_refl _, [], (List.append_nil _).symm, fun d hd => by cases hd⟩
  | succ fuel ih =>
      intro off len g s off' g' s' h
      rw [tlvLoop] at h
      by_cases hlen : 0 < len
      · rw [if_pos hlen] at h
        obtain ⟨⟨tlv, g₁⟩, hdec, h⟩ := bind_ok.mp h
        obtain ⟨s₁, hrec, h⟩ := bind_ok.mp h
        obtain ⟨hle, ds, rfl, hds⟩ := ih _ _ _ _ _ _ _ h
        obtain ⟨hhead, hgroups, hvalue⟩ := decode_bound hdec
        rw [record_ok hrec, List.append_assoc]
        refine ⟨by omega, _, rfl, fun d hd => ?_⟩
        rcases List.mem_append.mp hd with hd | hd
        · rw [List.mem_singleton.mp hd]
          refine ⟨Nat.le_refl _, hhead, hgroups, fun v hv => ?_⟩
          obtain ⟨o, ho, rfl⟩ := Option.map_eq_some_iff.mp hv
          rw [hvalue o ho, List.length_take, List.length_drop]
          show off + 4 + _ ≤ _
          omega
        · exact ⟨by have := (hds d hd).1; omega, (hds d hd).2⟩
      · rw [if_neg hlen] at h
        cases h
        exact ⟨Nat.le_refl _, [], (List.append_nil _).symm, fun d hd => by cases hd⟩

theorem segLoop_within (buf : Bytes) :
    ∀ (fuel : Nat) (w w' : Walk (List Delivery)),
      segLoop record buf fuel w = .ok w' →
      ∃ ds, w'.state = w.state ++ ds ∧ ∀ d ∈ ds, w.off + 4 ≤ d.pos ∧
      d.Within buf.length := by
  intro fuel
  induction fuel with
  | zero =>
      intro w w' h
      rw [segLoop] at h
      by_cases hlen : 0 < w.recvLen
      · rw [if_pos hlen] at h
        cases h
      · rw [if_neg hlen] at h
        cases h
        exact ⟨[], (List.append_nil _).symm, fun d hd => by cases hd⟩
  | succ fuel ih =>
      intro w w' h
      rw [segLoop] at h
      by_cases hlen : 0 < w.recvLen
      · rw [if_pos hlen] at h
        obtain ⟨word, _, h⟩ := bind_ok.mp h
        obtain ⟨len, _, h⟩ := bind_ok.mp h
        obtain ⟨⟨off, g, s⟩, hloop, h⟩ := bind_ok.mp h
        obtain ⟨left, _, h⟩ := bind_ok.mp h
        obtain ⟨hoff, ds₁, hs₁, hds₁⟩ := tlvLoop_within buf _ _ _ _ _ _ _ _ hloop
        obtain ⟨ds₂, hs₂, hds₂⟩ := ih _ _ h
        refine ⟨ds₁ ++ ds₂, ?_, fun d hd => ?_⟩
        · rw [hs₂, ← List.append_assoc, ← hs₁]
        · rcases List.mem_append.mp hd with hd | hd
          · exact hds₁ d hd
          · have hpos := (hds₂ d hd).1
            exact ⟨by simp only at hpos; omega, (hds₂ d hd).2⟩
      · rw [if_neg hlen] at h
        cases h
        exact ⟨[], (List.append_nil _).symm, fun d hd => by cases hd⟩

/-- A chunk that was received without a fault: it is not empty, it leaves room
for the NUL, and what it delivered comes from inside it. -/
theorem received_within {chunk : Bytes} {g g' : Option Groups} {ds : List Delivery}
    (h : received chunk g = .ok (g', ds)) :
    chunk ≠ [] ∧ chunk.length < 1024 ∧ ∀ d ∈ ds, 4 ≤ d.pos ∧
      d.Within chunk.length := by
  rw [received] at h
  obtain ⟨⟨r, g₁, s₁⟩, hround, h⟩ := bind_ok.mp h
  cases h
  rw [receiveRound] at hround
  obtain ⟨_, hnul, hround⟩ := bind_ok.mp hround
  obtain ⟨⟨b, w⟩, hmsg, hround⟩ := bind_ok.mp hround
  cases hround
  have hlt : chunk.length < 1024 := by
    rw [storeNul] at hnul
    by_contra hge
    have hout : ¬ (0 ≤ (RecvResult.data chunk).count ∧
        (RecvResult.data chunk).count < oneKb) := by
      simp only [RecvResult.count, oneKb]
      omega
    rw [if_neg hout] at hnul
    cases hnul
  rw [handleClientMessage] at hmsg
  obtain ⟨word, hword, hmsg⟩ := bind_ok.mp hmsg
  refine ⟨?_, hlt, ?_⟩
  · rintro rfl
    exact absurd (load32_bound hword) (by simp)
  · by_cases hfrag : (chunk.length : Int) < toInt32 (htonl word)
    · simp only [hfrag, if_true] at hmsg
      cases hmsg
      exact fun d hd => by cases hd
    · simp only [hfrag, if_false] at hmsg
      obtain ⟨w', hloop, hmsg⟩ := bind_ok.mp hmsg
      cases hmsg
      obtain ⟨ds, hstate, hds⟩ := segLoop_within chunk _ _ _ hloop
      rw [hstate]
      intro d hd
      have hpos := hds d (by simpa using hd)
      exact ⟨by have := hpos.1; simp only at this; omega, hpos.2⟩

/-! ## A cut inside a segment -/

/-- A cut inside the TLVs of a segment goes through one of
them or just before one. -/
theorem straddle_frames : ∀ (fs : List Frame) (pos q : Nat), pos ≤ q →
    q < pos + (body fs).length →
    ∃ d ∈ deliveries pos fs, d.pos ≤ q ∧ ¬ d.Within q := by
  intro fs
  induction fs with
  | nil =>
      intro pos q hle hlt
      exact absurd hlt (by simp; omega)
  | cons f fs ih =>
      intro pos q hle hlt
      by_cases hq : q < pos + f.wire.length
      · refine ⟨f.delivery pos, List.mem_cons_self, hle, fun hw => ?_⟩
        rw [Frame.length_wire] at hq
        by_cases hj : f.attr = .joinGroup
        · obtain ⟨n, _, hn⟩ := f.words hj
          have hend := hw.groups (by rw [Frame.delivery, hj])
          simp only [Frame.delivery] at hend
          omega
        · have hend := hw.value f.value (by simp only [Frame.delivery, hj, if_false])
          simp only [Frame.delivery] at hend
          omega
      · obtain ⟨d, hd, hpos, hw⟩ := ih (pos + f.wire.length) q (by omega) (by
          rw [body_cons, List.length_append] at hlt
          omega)
        exact ⟨d, List.mem_cons_of_mem _ hd, hpos, hw⟩

/-- A cut between two segments, or a TLV that starts less than four bytes after
the cut and does not lie before it. -/
theorem straddle_segments : ∀ (segs : List (List Frame)) (base q : Nat),
    (∀ fs ∈ segs, fs ≠ []) →
    base ≤ q → q ≤ base + (stream segs).length →
    (∃ pre suf, segs = pre ++ suf ∧ q = base + (stream pre).length) ∨
      ∃ d ∈ segDeliveries base segs, d.pos < q + 4 ∧ ¬ d.Within q := by
  intro segs
  induction segs with
  | nil =>
      intro base q _ hle hge
      exact Or.inl ⟨[], [], rfl, by simp at hge ⊢; omega⟩
  | cons fs segs ih =>
      intro base q hne hle hge
      rcases Nat.lt_or_ge q (base + (segment fs).length) with hq | hq
      · rcases Nat.eq_or_lt_of_le hle with rfl | hlt
        · exact Or.inl ⟨[], fs :: segs, rfl, rfl⟩
        right
        rcases Nat.lt_or_ge q (base + 4) with hhdr | hhdr
        · obtain ⟨f, fs, rfl⟩ :=
            List.exists_cons_of_ne_nil (hne fs List.mem_cons_self)
          refine ⟨f.delivery (base + 4), ?_, ?_, fun hw => ?_⟩
          · exact List.mem_append_left _ List.mem_cons_self
          · show base + 4 < q + 4
            omega
          · have hend : base + 4 + 4 ≤ q := hw.head
            omega
        · obtain ⟨d, hd, hpos, hw⟩ := straddle_frames fs (base + 4) q hhdr (by
            rw [length_segment] at hq
            omega)
          exact ⟨d, List.mem_append_left _ hd, by omega, hw⟩
      · rw [stream_cons, List.length_append] at hge
        rcases ih (base + (segment fs).length) q
          (fun gs hgs => hne gs (List.mem_cons_of_mem _ hgs))
          hq (by omega) with ⟨pre, suf, rfl, hend⟩ | ⟨d, hd, hpos, hw⟩
        · refine Or.inl ⟨fs :: pre, suf, rfl, ?_⟩
          rw [stream_cons, List.length_append]
          omega
        · exact Or.inr ⟨d, List.mem_append_right _ hd, hpos, hw⟩

/-! ## The two directions -/

theorem received_stream {segs : List (List Frame)} (hne : segs ≠ [])
    (hlt : (stream segs).length < 1024) (g : Groups) :
    ∃ g', received (stream segs) (some g) = .ok (some g', segDeliveries 0 segs) := by
  obtain ⟨g', hmsg⟩ :=
    handleClientMessage_stream segs hne (by unfold intMax; omega) g []
  have hnul : storeNul (RecvResult.data (stream segs)).count = .ok () := by
    rw [storeNul, if_pos]
    simp only [RecvResult.count, oneKb]
    omega
  refine ⟨g', ?_⟩
  simp only [received, receiveRound, hnul, ok_bind, hmsg, List.nil_append]

theorem whole_segments : ∀ (segs : List (List Frame)) (base : Nat) (g : Groups),
    (∀ fs ∈ segs, ((segment fs).length : Int) ≤ intMax) →
    overPieces whole base (segs.map segment) (some g)
      = .ok (segDeliveries base segs) := by
  intro segs
  induction segs with
  | nil => intro base g _; rfl
  | cons fs segs ih =>
      intro base g hint
      have hfs := hint fs List.mem_cons_self
      have hone : stream [fs] = segment fs := by simp
      obtain ⟨g', hmsg⟩ := handleClientMessage_stream [fs] (by simp)
        (by rw [hone]; exact hfs) g []
      rw [hone] at hmsg
      have hrest := ih (base + (segment fs).length) g' fun gs hgs =>
        hint gs (List.mem_cons_of_mem _ hgs)
      simp only [List.map_cons, overPieces, whole, hmsg, ok_bind, hrest,
        List.nil_append, shift_deliveries, Nat.zero_add, segDeliveries,
        List.append_nil]

theorem received_whole_segments :
    ∀ (parts : List (List (List Frame))) (base : Nat) (g : Groups),
    (∀ segs ∈ parts, segs ≠ [] ∧ (stream segs).length < 1024) →
    overPieces received base (parts.map stream) (some g)
      = .ok (segDeliveries base parts.flatten) := by
  intro parts
  induction parts with
  | nil => intro base g _; rfl
  | cons segs parts ih =>
      intro base g hparts
      obtain ⟨hne, hlt⟩ := hparts segs List.mem_cons_self
      obtain ⟨g', hrec⟩ := received_stream hne hlt g
      have hrest := ih (base + (stream segs).length) g' fun p hp =>
        hparts p (List.mem_cons_of_mem _ hp)
      simp only [List.map_cons, overPieces, hrec, ok_bind, hrest,
        shift_segDeliveries, Nat.add_zero, List.flatten_cons, segDeliveries_append]

/-- What is delivered from `base` on starts at least four bytes later. -/
theorem pos_of_overPieces : ∀ (chunks : List Bytes) (base : Nat) (g : Option Groups)
    (ds : List Delivery), overPieces received base chunks g = .ok ds →
      ∀ d ∈ ds, base + 4 ≤ d.pos := by
  intro chunks
  induction chunks with
  | nil =>
      intro base g ds h
      cases h
      exact fun d hd => by cases hd
  | cons c cs ih =>
      intro base g ds h
      rw [overPieces] at h
      obtain ⟨⟨g₁, ds₁⟩, hrec, h⟩ := bind_ok.mp h
      obtain ⟨ds₂, hrest, h⟩ := bind_ok.mp h
      cases h
      intro d hd
      rcases List.mem_append.mp hd with hd | hd
      · obtain ⟨d₁, hd₁, rfl⟩ := List.mem_map.mp hd
        have hpos := ((received_within hrec).2.2 d₁ hd₁).1
        show base + 4 ≤ base + d₁.pos
        omega
      · have hpos := ih _ _ _ hrest d hd
        omega

theorem cut_between_segments :
    ∀ (chunks : List Bytes) (segs : List (List Frame)) (base : Nat)
    (g : Groups), (∀ fs ∈ segs, fs ≠ []) → chunks.flatten = stream segs →
    overPieces received base chunks (some g) = .ok (segDeliveries base segs) →
    (∃ parts : List (List (List Frame)), parts.flatten = segs ∧
      chunks = parts.map stream) ∧
      ∀ c ∈ chunks, c.length < 1024 := by
  intro chunks
  induction chunks with
  | nil =>
      intro segs base g _ hcut _
      have hsegs : segs = [] := by
        cases segs with
        | nil => rfl
        | cons fs segs =>
            have := congrArg List.length hcut
            simp only [List.flatten_nil, List.length_nil, stream_cons,
              List.length_append, length_segment] at this
            omega
      exact ⟨⟨[], hsegs.symm, rfl⟩, fun c hc => by cases hc⟩
  | cons c cs ih =>
      intro segs base g hne hcut h
      rw [overPieces] at h
      obtain ⟨⟨g₁, ds₁⟩, hrec, h⟩ := bind_ok.mp h
      obtain ⟨ds₂, hrest, h⟩ := bind_ok.mp h
      have hds : ds₁.map (Delivery.shift base) ++ ds₂ = segDeliveries base segs :=
        Except.ok.inj h
      obtain ⟨hcne, hclt, hwithin⟩ := received_within hrec
      have hlen := congrArg List.length hcut
      rw [List.flatten_cons, List.length_append] at hlen
      rcases straddle_segments segs base (base + c.length) hne (by omega)
        (by omega) with
        ⟨pre, suf, rfl, hend⟩ | ⟨d, hd, hpos, hout⟩
      · -- the chunk is the segments `pre`, so what it delivered is theirs
        have hc : c = stream pre ∧ cs.flatten = stream suf := by
          rw [List.flatten_cons, stream_append] at hcut
          exact List.append_inj hcut (by omega)
        obtain ⟨rfl, hcs⟩ := hc
        have hpre : pre ≠ [] := by
          rintro rfl
          exact hcne rfl
        obtain ⟨g', hrec'⟩ := received_stream hpre hclt g
        rw [hrec'] at hrec
        cases hrec
        rw [shift_segDeliveries, Nat.add_zero, segDeliveries_append] at hds
        rw [List.append_cancel_left hds] at hrest
        obtain ⟨⟨parts, hparts, rfl⟩, hlts⟩ := ih suf _ _
          (fun fs hfs => hne fs (List.mem_append_right _ hfs)) hcs hrest
        refine ⟨⟨pre :: parts, by rw [List.flatten_cons, hparts], rfl⟩,
          fun b hb => ?_⟩
        rcases List.mem_cons.mp hb with rfl | hb
        · exact hclt
        · exact hlts b hb
      · -- the TLV at the cut can come neither from this chunk nor from a later one
        rw [← hds] at hd
        rcases List.mem_append.mp hd with hd | hd
        · obtain ⟨d₁, hd₁, rfl⟩ := List.mem_map.mp hd
          obtain ⟨_, hhead, hgroups, hvalue⟩ := hwithin d₁ hd₁
          refine absurd ⟨?_, fun ht => ?_, fun v hv => ?_⟩ hout
          · show base + d₁.pos + 4 ≤ _
            omega
          · have := hgroups ht
            show base + d₁.pos + 4 + 4 * (d₁.length / 4) ≤ _
            omega
          · have := hvalue v hv
            show base + d₁.pos + 4 + _ ≤ _
            omega
        · have := pos_of_overPieces cs _ _ _ hrest d hd
          omega

/-! ## When the cuts do not matter -/

/-- The chunks deliver what the segments deliver when each
arrives alone and whole. -/
def ChunkingIndependent (segs chunks : List Bytes) (g : Groups) : Prop :=
  ∃ ds, overPieces received 0 chunks (some g) = .ok ds ∧
    overPieces whole 0 segs (some g) = .ok ds

/-- Every chunk is some whole segments, and short enough for the NUL after it. -/
def CutBetweenSegments (segs chunks : List Bytes) : Prop :=
  (∃ parts : List (List Bytes), parts.flatten = segs ∧
    chunks = parts.map List.flatten) ∧
    ∀ c ∈ chunks, c.length < 1024

/-- A list of lists of segments, as lists of lists of frames. -/
theorem parts_of_segments : ∀ (parts : List (List Bytes)) (segs : List (List Frame)),
    parts.flatten = segs.map segment →
    ∃ parts' : List (List (List Frame)), parts'.flatten = segs ∧
      parts = parts'.map (·.map segment) := by
  intro parts
  induction parts with
  | nil =>
      intro segs h
      exact ⟨[], (List.map_eq_nil_iff.mp h.symm).symm, rfl⟩
  | cons p ps ih =>
      intro segs h
      rw [List.flatten_cons, eq_comm] at h
      obtain ⟨pre, suf, rfl, rfl, hsuf⟩ := List.map_eq_append_iff.mp h
      obtain ⟨parts', rfl, rfl⟩ := ih suf hsuf.symm
      exact ⟨pre :: parts', rfl, rfl⟩

/-- **Chunking.**  The TLVs handed on are the right ones exactly when no chunk
ends inside a segment and every chunk leaves room for the NUL: a segment cut in
two is never put together again. -/
theorem chunking_independent_iff {batches : List Batch} {segs chunks : List Bytes}
    (hsegs : batches.mapM Batch.bytes = .ok segs)
    (hint : ∀ s ∈ segs, (s.length : Int) ≤ intMax)
    (hcut : chunks.flatten = segs.flatten)
    (hchunks : ∀ c ∈ chunks, c ≠ [] ∧ c.length ≤ 1024) (g : Groups) :
    ChunkingIndependent segs chunks g ↔ CutBetweenSegments segs chunks := by
  obtain ⟨fss, hbytes, -, hne, -⟩ := batches_bytes batches
  rw [hbytes] at hsegs
  cases hsegs
  have hwhole : overPieces whole 0 (fss.map segment) (some g)
      = .ok (segDeliveries 0 fss) :=
    whole_segments fss 0 g fun fs hfs => hint _ (List.mem_map_of_mem hfs)
  have hflat : ∀ xs : List (List Frame), (xs.map segment).flatten = stream xs :=
    fun xs => (stream_eq xs).symm
  constructor
  · rintro ⟨ds, hds, hds'⟩
    rw [hwhole] at hds'
    cases hds'
    obtain ⟨⟨parts, rfl, rfl⟩, hlt⟩ :=
      cut_between_segments chunks fss 0 g hne (by rw [hcut, hflat]) hds
    refine ⟨⟨parts.map (·.map segment), ?_, ?_⟩, hlt⟩
    · rw [List.map_flatten]
    · rw [List.map_map]
      exact List.map_congr_left fun xs _ => (hflat xs).symm
  · rintro ⟨⟨parts, hparts, rfl⟩, hlt⟩
    obtain ⟨parts', rfl, rfl⟩ := parts_of_segments parts fss hparts
    refine ⟨segDeliveries 0 parts'.flatten, ?_, hwhole⟩
    have hmap : (parts'.map (·.map segment)).map List.flatten
        = parts'.map stream := by
      rw [List.map_map]
      exact List.map_congr_left fun xs _ => hflat xs
    rw [hmap] at hchunks hlt ⊢
    refine received_whole_segments parts' 0 g fun xs hxs =>
      ⟨?_, hlt _ (List.mem_map_of_mem hxs)⟩
    rintro rfl
    exact (hchunks _ (List.mem_map_of_mem hxs)).1 rfl

theorem sample_bytes : [Batch.sample].mapM Batch.bytes =
    .ok [[0, 0, 0, 17, 0, 102, 0, 1, 53, 0, 1, 0, 4, 0, 7, 0, 0]] := by
  decide +kernel

/-- `ALGO_MAX "12"` -/
def Batch.twelve : Batch where
  calls := [⟨.algoMax, [49, 50], 2⟩]
  room := List.replicate 64 0
  sound := by
    intro c hc
    cases List.mem_singleton.mp hc
    exact ⟨by decide, fun h => absurd h (by decide), fun _ _ => by decide⟩
  some := ⟨_, List.mem_cons_self, rfl⟩
  fits := by decide

/-- Of three segments the first two come in together. -/
theorem chunking_independent_sample :
    [Batch.sample, Batch.twelve, Batch.twelve].mapM Batch.bytes
        = .ok [[0, 0, 0, 17, 0, 102, 0, 1, 53, 0, 1, 0, 4, 0, 7, 0, 0],
            [0, 0, 0, 10, 0, 102, 0, 2, 49, 50], [0, 0, 0, 10, 0, 102, 0, 2, 49, 50]] ∧
      ChunkingIndependent [[0, 0, 0, 17, 0, 102, 0, 1, 53, 0, 1, 0, 4, 0, 7, 0, 0],
          [0, 0, 0, 10, 0, 102, 0, 2, 49, 50], [0, 0, 0, 10, 0, 102, 0, 2, 49, 50]]
        [[0, 0, 0, 17, 0, 102, 0, 1, 53, 0, 1, 0, 4, 0, 7, 0, 0, 0, 0, 0, 10, 0, 102,
          0, 2, 49, 50], [0, 0, 0, 10, 0, 102, 0, 2, 49, 50]] (fun _ => 0) := by
  have hbytes : [Batch.sample, Batch.twelve, Batch.twelve].mapM Batch.bytes
      = .ok [[0, 0, 0, 17, 0, 102, 0, 1, 53, 0, 1, 0, 4, 0, 7, 0, 0],
          [0, 0, 0, 10, 0, 102, 0, 2, 49, 50],
          [0, 0, 0, 10, 0, 102, 0, 2, 49, 50]] := by
    decide +kernel
  refine ⟨hbytes,
    (chunking_independent_iff hbytes (by decide) (by decide) (by decide)
    fun _ => 0).mpr ⟨⟨[[_, _], [_]], rfl, rfl⟩, by decide⟩⟩

/-- The same segment in two chunks, cut after its fifth byte, is lost: the first
chunk is dropped as a fragment, and the second is taken for a segment of which
its first four bytes are the length. -/
theorem segment_cut_in_two :
    [Batch.sample].mapM Batch.bytes
        = .ok [[0, 0, 0, 17, 0, 102, 0, 1, 53, 0, 1, 0, 4, 0, 7, 0, 0]] ∧
      ¬ ChunkingIndependent [[0, 0, 0, 17, 0, 102, 0, 1, 53, 0, 1, 0, 4, 0, 7, 0, 0]]
        [[0, 0, 0, 17, 0], [102, 0, 1, 53, 0, 1, 0, 4, 0, 7, 0, 0]]
        (fun _ => 0) := by
  refine ⟨sample_bytes, ?_⟩
  rintro ⟨ds, hchunks, hwhole⟩
  have hnone : overPieces received 0 [[0, 0, 0, 17, 0],
      [102, 0, 1, 53, 0, 1, 0, 4, 0, 7, 0, 0]]
      (some fun _ => 0) = .ok [] := by
    decide +kernel
  rw [hnone] at hchunks
  cases hchunks
  exact absurd hwhole (by decide +kernel)

end Pyramid
