/-
# `Pyramid.Handlers` — handlers that read values as strings

A handler that only looks at the type of a TLV and at the string at its value
does the same wherever the TLV stands: what it does is a function `f` of the
packet (`Reads`).  On a chunk of whole segments the walk is then the fold of
`f` over the packets, in order, however they are spread over the segments
(`Reads.message`).
-/
import Pyramid.Reading

namespace Pyramid

namespace Packet

variable {σ : Type}

/-- On plain packets the handler does what `f` does. -/
def Reads (handleData : Handler σ) (f : σ → Packet → Except Halt σ) : Prop :=
  ∀ (p : Packet), p.Plain → ∀ (pre post : Bytes), EndsValue post →
    ∀ (g : Option Groups) (s : σ),
    handleData pre.length (pre ++ (p.wire ++ post)) g ⟨p.type, p.value.length,
      some (pre.length + 4)⟩ s
      = f s p

section Walk
variable {handleData : Handler σ} {f : σ → Packet → Except Halt σ} {buf : Bytes}
  {g : Option Groups}

theorem Reads.serve (h : Reads handleData f) {post : Bytes}
    (hpost : EndsValue post) :
    ∀ {ps : List Packet} {pre : Bytes} (s : σ), (∀ p ∈ ps, p.Plain) →
      buf = pre ++ (wires ps ++ post) →
      Packet.serve handleData buf pre.length ps g s = ps.foldlM f s >>= fun s' =>
        .ok (g, s') := by
  intro ps
  induction ps with
  | nil =>
      intro pre s _ _
      rfl
  | cons p ps ih =>
      intro pre s hps hbuf
      have hp := hps p List.mem_cons_self
      have hrest : ∀ q ∈ ps, q.Plain := fun q hq => hps q (List.mem_cons_of_mem p hq)
      obtain ⟨hbuf₁, hbuf₂⟩ := split_wires hbuf
      have hdec := decode_bytes pre (wires ps ++ post) p hp.bytes g
      have hread := h p hp pre _ (endsValue_wires hrest hpost) g s
      rw [← hbuf₁] at hdec hread
      rw [Packet.serve, hdec, ok_bind, List.foldlM_cons]
      simp only [hread]
      cases f s p with
      | error e => rfl
      | ok s' =>
          have htail := ih s' hrest hbuf₂
          rw [List.length_append] at htail
          exact htail

theorem Reads.serveAll (h : Reads handleData f) {post : Bytes}
    (hpost : EndsValue post) :
    ∀ {segs : List (List Packet)} {pre : Bytes} (s : σ),
      (∀ ps ∈ segs, ∀ p ∈ ps, p.Plain) →
      (stream segs).length < 16777216 → buf = pre ++ (stream segs ++ post) →
      Packet.serveAll handleData buf pre.length segs g s
        = segs.flatten.foldlM f s >>= fun s' => .ok (g, s') := by
  intro segs
  induction segs with
  | nil =>
      intro pre s _ _ _
      rfl
  | cons ps segs ih =>
      intro pre s hsegs hlt hbuf
      have hps := hsegs ps List.mem_cons_self
      have hrest : ∀ qs ∈ segs, ∀ q ∈ qs, q.Plain :=
        fun qs hqs => hsegs qs (List.mem_cons_of_mem ps hqs)
      rw [stream_cons, List.length_append] at hlt
      obtain ⟨hbuf₁, hbuf₂⟩ := split_stream hbuf
      have hbehind := @endsValue_stream segs (by omega) post hpost
      have hinner :=
        @Reads.serve _ _ _ buf g h _ hbehind ps (pre ++ header ps) s hps hbuf₁
      rw [List.length_append, length_header] at hinner
      rw [Packet.serveAll, hinner, List.flatten_cons, List.foldlM_append]
      cases ps.foldlM f s with
      | error e => rfl
      | ok s' =>
          have htail := ih s' hrest (by omega) hbuf₂
          rw [List.length_append] at htail
          exact htail

/-- The walk over a chunk, which is ended by a zero byte. -/
theorem Reads.message (h : Reads handleData f) {segs : List (List Packet)}
    (hne : segs ≠ []) (hplain : ∀ ps ∈ segs, ∀ p ∈ ps, p.Plain)
    (hlt : (stream segs).length < 1024) (room : Bytes) (g : Option Groups) (s : σ) :
    storeNul (stream segs).length = .ok () ∧
      handleClientMessage handleData (stream segs ++ 0 :: room)
        (stream segs).length g s
        = segs.flatten.foldlM f s >>= fun s' =>
          .ok (false, ⟨(stream segs).length, 0, g, s'⟩) := by
  have hserve :=
    @Reads.serveAll _ _ _ (stream segs ++ 0 :: room) g h (0 :: room) ⟨room,
      rfl⟩ segs [] s
    hplain (by omega) rfl
  rw [List.length_nil] at hserve
  refine ⟨if_pos ⟨by omega, by unfold oneKb; omega⟩, ?_⟩
  rw [handleClientMessage_stream hne (by unfold intMax; omega), hserve]
  cases segs.flatten.foldlM f s with
  | error e => rfl
  | ok s' => rfl

end Walk

end Packet

end Pyramid
