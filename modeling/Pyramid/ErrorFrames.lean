/-
# `Pyramid.ErrorFrames` — words in an `ALGO_ERROR` TLV (`common/src/tlv.c`)

`encode_algo_error` is given an array of 32-bit words and appends a TLV of four
bytes for each of them.  Its loop stores the first word every time, and it is
the one encoder that does not look at the length at all.

A buffer between two calls of `encode` is `Filled` with the packets encoded so
far; `encode_errors` says what the call appends, and `error_words_iff` when
these are the words it was given.
-/
import Pyramid.Sending

namespace Pyramid

namespace Packet

/-! ## Words -/

/-- An array of words, as the host holds it. -/
def memory (words : List UInt32) : Bytes := words.flatMap fun w => bytes32 w.toNat

/-- The same words in network order. -/
def network (words : List UInt32) : Bytes :=
  words.flatMap fun w => bytes32 (htonl w.toNat)

@[simp] theorem length_network (words : List UInt32) :
    (network words).length = 4 * words.length := by
  induction words with
  | nil => rfl
  | cons w words ih =>
      rw [network, List.flatMap_cons, List.length_append, length_bytes32,
        ← network, ih, List.length_cons]
      omega

/-- The words that a receiver reads from `off` on. -/
def wordsFrom (buf : Bytes) (off n : Nat) : List Nat :=
  (List.range n).map fun i => be32 buf (off + 4 * i)

theorem be32_append (pre post : Bytes) (w : UInt32) :
    be32 (pre ++ (bytes32 (htonl w.toNat) ++ post)) pre.length = w.toNat := by
  rw [← htonl_load32 load32_append, Nat.mod_eq_of_lt (htonl_lt _), htonl_htonl]
  exact Nat.mod_eq_of_lt w.toNat_lt

theorem wordsFrom_network (post : Bytes) : ∀ (words : List UInt32) (pre : Bytes),
    wordsFrom (pre ++ (network words ++ post)) pre.length words.length
      = words.map UInt32.toNat := by
  intro words
  induction words with
  | nil => exact fun pre => rfl
  | cons w words ih =>
      intro pre
      have hrest := ih (pre ++ bytes32 (htonl w.toNat))
      have hbuf : pre ++ (network (w :: words) ++ post)
          = (pre ++ bytes32 (htonl w.toNat)) ++ (network words ++ post) := by
        simp [network, List.append_assoc]
      have hnext : ∀ i, pre.length + 4 * (i + 1)
          = (pre ++ bytes32 (htonl w.toNat)).length + 4 * i := by
        intro i
        rw [List.length_append, length_bytes32]
        omega
      rw [wordsFrom, List.length_cons, List.range_succ_eq_map, List.map_cons,
        List.map_map, List.map_cons]
      refine congrArg₂ List.cons ?_ ?_
      · rw [hbuf, List.append_assoc]
        exact be32_append pre _ w
      · rw [← hrest, wordsFrom, ← hbuf]
        refine List.map_congr_left fun i _ => ?_
        rw [Function.comp_apply, hnext]

/-! ## What is appended -/

/-- A buffer of 1024 bytes that holds the packets `ps`; once there is one its header
is written. -/
structure Filled (buf : Buffer) (ps : List Packet) : Prop where
  size : buf.payload.length = 1024
  length : buf.reserve.length = 4 + (wires ps).length
  bytes : ∃ hdr room, hdr.length = 4 ∧ buf.payload = (hdr ++ wires ps) ++ room ∧
    (ps ≠ [] → hdr = header ps)

theorem reserve_payload (buf : Buffer) : buf.reserve.payload = buf.payload := by
  unfold Buffer.reserve
  split <;> rfl

/-- The buffer a caller starts with. -/
theorem filled_fresh : Filled freshBuffer [] :=
  ⟨List.length_replicate, rfl, List.replicate 4 0, List.replicate 1020 0, rfl,
    by rw [wires_nil, List.append_nil, List.replicate_append_replicate]; rfl,
    fun hne => absurd rfl hne⟩

theorem putErrors_room {error : Bytes} {w : UInt32} : ∀ (n : Nat) (pre room : Bytes),
    (0 < n → load32 error 0 = .ok w.toNat) → 4 * n ≤ room.length →
    putErrors error n (pre ++ room) pre.length
      = .ok (pre ++ (network (List.replicate n w) ++ room.drop (4 * n))) := by
  intro n
  induction n with
  | zero => exact fun pre room _ _ => rfl
  | succ n ih =>
      intro pre room hload hroom
      have hpoke := poke_room pre (bytes32 (htonl w.toNat)) room (by
        rw [length_bytes32]
        omega)
      have hrest :=
        ih (pre ++ bytes32 (htonl w.toNat)) (room.drop 4)
          (fun _ => hload (Nat.succ_pos n)) (by
          rw [List.length_drop]
          omega)
      rw [length_bytes32] at hpoke
      rw [List.length_append, length_bytes32, List.drop_drop] at hrest
      rw [putErrors, hload (Nat.succ_pos n), ok_bind, hpoke, ok_bind,
        ← List.append_assoc, hrest]
      have hdrop : 4 + 4 * n = 4 * (n + 1) := by omega
      simp only [network, List.replicate_succ, List.flatMap_cons,
        List.append_assoc, hdrop]

section Encode
variable {buf : Buffer} {ps : List Packet} (words : List UInt32)

/-- The first word, as often as there are words. -/
def repeated : List UInt32 := List.replicate words.length (words.headD 0)

@[simp] theorem length_repeated : (repeated words).length = words.length :=
  List.length_replicate

/-- What the call appends. -/
def errorPacket (h : words.length < 16384) : Packet where
  type := Attribute.algoError.code
  value := network (repeated words)
  typed := by decide
  short := by
    rw [length_network, length_repeated]
    omega

theorem load_first (hpos : 0 < words.length) :
    load32 (memory words) 0 = .ok (words.headD 0).toNat := by
  obtain ⟨w, ws, rfl⟩ := List.exists_cons_of_length_pos hpos
  have hload := @load32_append [] (memory ws) w.toNat
  rw [List.nil_append, List.length_nil, Nat.mod_eq_of_lt w.toNat_lt] at hload
  exact hload

theorem encode_errors (hf : Filled buf ps)
    (hroom : 4 + (wires ps).length + 4 + 4 * words.length ≤ 1024) :
    ∃ buf', encode .algoError (memory words) words.length buf
      = .ok (buf'.length, buf') ∧
      buf'.length = 4 + (wires ps).length + 4 + 4 * words.length ∧
      buf'.payload.take buf'.length
        = segment (ps ++ [errorPacket words (by omega)]) := by
  obtain ⟨hdr, room, hhdr, hpay, -⟩ := hf.bytes
  have hsize : (hdr ++ wires ps).length = 4 + (wires ps).length := by
    rw [List.length_append, hhdr]
  have hleft : 4 + 4 * words.length ≤ room.length := by
    have hall := hf.size
    rw [hpay, List.length_append, hsize] at hall
    omega
  have hvalue : (errorPacket words (by omega)).value.length = 4 * words.length := by
    rw [errorPacket, length_network, length_repeated]
  obtain ⟨p, hp₁, hp₂⟩ := poke_type_length (hdr ++ wires ps) room
    (bytes16 (htons Attribute.algoError.code)) (bytes16 (htons (4 * words.length)))
    rfl rfl (by omega)
  have hp₃ := @putErrors_room (memory words) (words.headD 0) words.length
    ((hdr ++ wires ps) ++ (bytes16 (htons Attribute.algoError.code)
      ++ bytes16 (htons (4 * words.length))))
    (room.drop 4) (load_first words) (by rw [List.length_drop]; omega)
  have hpre : ((hdr ++ wires ps)
      ++ (bytes16 (htons Attribute.algoError.code)
        ++ bytes16 (htons (4 * words.length)))).length
      = (hdr ++ wires ps).length + 4 := by
    simp only [List.length_append, length_bytes16]
  have hmem : ((hdr ++ wires ps)
        ++ (bytes16 (htons Attribute.algoError.code)
          ++ bytes16 (htons (4 * words.length))))
        ++ (network (repeated words) ++ (room.drop 4).drop (4 * words.length))
      = (hdr ++ wires ps) ++ ((errorPacket words (by omega)).wire
        ++ room.drop (4 + 4 * words.length)) := by
    rw [List.drop_drop, wire, hvalue]
    simp [errorPacket, List.append_assoc]
  have htotal : (hdr ++ wires ps).length + 4 + 4 * words.length
      = 4 + (wires (ps ++ [errorPacket words (by omega)])).length := by
    have hwires : wires (ps ++ [errorPacket words (by omega)])
        = wires ps ++ (errorPacket words (by omega)).wire := by simp [wires]
    rw [hsize, hwires, List.length_append, length_wire, hvalue]
    omega
  rw [hpre, ← repeated, hmem] at hp₃
  obtain ⟨buf', hclose, hlen, hbytes⟩ :=
    @close_packet hdr (room.drop (4 + 4 * words.length)) ps
    (errorPacket words (by omega)) hhdr
  have hwrap : (4 * (words.length : Int) % 65536).toNat = 4 * words.length := by
    omega
  refine ⟨buf', ?_, by rw [hlen, ← htotal, hsize], ?_⟩
  · rw [hlen, encode, encodeAlgoError, hwrap, Int.toNat_natCast, reserve_payload,
      hpay, hf.length, ← hsize, hp₁, ok_bind, hp₂, ok_bind, hp₃, ok_bind,
      htotal, hclose]
  · rw [hlen, hbytes, ← length_segment, List.take_left]

/-- More than that is written past the end of the payload. -/
theorem encode_errors_fit (hf : Filled buf ps) {r : Nat × Buffer}
    (h : encode .algoError (memory words) words.length buf = .ok r) :
    4 + (wires ps).length + 4 + 4 * words.length ≤ 1024 := by
  have hstart := hf.length
  have hsize := hf.size
  obtain ⟨p₁, hp₁, h⟩ := bind_ok.mp h
  obtain ⟨p₂, hp₂, h⟩ := bind_ok.mp h
  obtain ⟨p₃, hp₃, -⟩ := bind_ok.mp h
  obtain ⟨-, hlen₁⟩ := poke_ok hp₁
  obtain ⟨hle₂, hlen₂⟩ := poke_ok hp₂
  rw [length_bytes16] at hle₂
  rw [reserve_payload] at hlen₁
  rcases Nat.eq_zero_or_pos words.length with hnil | hpos
  · omega
  · rw [Int.toNat_natCast] at hp₃
    obtain ⟨-, hle₃⟩ := putErrors_bound words.length hpos hp₃
    omega

/-! ## The words that come back -/

/-- The call is rejected, or it appends one TLV with the words in network
order to a segment of at most 1024 bytes; the walk over the segment takes off
exactly that TLV after the packets before it, whatever the handler does, and
the words are read back. -/
def CarriesWords (ps : List Packet) (buf : Buffer) : Prop :=
  ∃ n buf', encode .algoError (memory words) words.length buf = .ok (n, buf') ∧
    (n = 0 ∨ ∃ p : Packet, p.type = Attribute.algoError.code ∧
      p.value = network words ∧
      p.value.length = 4 * words.length ∧ n ≤ 1024 ∧
      buf'.payload.take n = segment (ps ++ [p]) ∧
      (∀ {σ : Type} (handleData : Handler σ) (g : Option Groups) (s : σ),
        handleClientMessage handleData (segment (ps ++ [p])) n g s
          = serve handleData (segment (ps ++ [p])) 4 ps g s >>= fun r =>
            handleData (4 + (wires ps).length) (segment (ps ++ [p])) r.1
              ⟨Attribute.algoError.code, 4 * words.length,
                some (4 + (wires ps).length + 4)⟩ r.2 >>=
            fun s => .ok (false, ⟨n, 0, r.1, s⟩)) ∧
      wordsFrom (segment (ps ++ [p])) (4 + (wires ps).length + 4) words.length
        = words.map UInt32.toNat)

variable {words}

/-- The bytes of a segment around its last packet. -/
theorem segment_last (p : Packet) :
    segment (ps ++ [p]) = (header (ps ++ [p]) ++ wires ps) ++ (p.wire ++ []) := by
  simp [segment, wires, List.append_assoc]

theorem serve_append {σ : Type} (handleData : Handler σ) (buf : Bytes)
    (qs : List Packet) :
    ∀ (ps : List Packet) (pos : Nat) (g : Option Groups) (s : σ),
      serve handleData buf pos (ps ++ qs) g s
        = serve handleData buf pos ps g s >>= fun r =>
            serve handleData buf (pos + (wires ps).length) qs r.1 r.2 := by
  intro ps
  induction ps with
  | nil => exact fun pos g s => rfl
  | cons p ps ih =>
      intro pos g s
      simp only [List.cons_append, serve, bind_assoc, ih, wires_cons,
        List.length_append, Nat.add_assoc]

theorem handleClientMessage_last {σ : Type} (handleData : Handler σ)
    (g : Option Groups) (s : σ) {p : Packet} (hp : p.type = Attribute.algoError.code)
    (hmax : ((segment (ps ++ [p])).length : Int) ≤ intMax) :
    handleClientMessage handleData (segment (ps ++ [p]))
      (segment (ps ++ [p])).length g s
      = serve handleData (segment (ps ++ [p])) 4 ps g s >>= fun r =>
        handleData (4 + (wires ps).length) (segment (ps ++ [p])) r.1
          ⟨Attribute.algoError.code, p.value.length,
            some (4 + (wires ps).length + 4)⟩ r.2 >>=
        fun s => .ok (false, ⟨(segment (ps ++ [p])).length, 0, r.1, s⟩) := by
  have hpre : (header (ps ++ [p]) ++ wires ps).length = 4 + (wires ps).length := by
    rw [List.length_append, length_header]
  have hdec : ∀ g, decode (segment (ps ++ [p])) (4 + (wires ps).length) g
      = .ok (⟨Attribute.algoError.code, p.value.length,
        some (4 + (wires ps).length + 4)⟩, g) := by
    intro g
    have h := decode_bytes (header (ps ++ [p]) ++ wires ps) [] p (hp ▸ by decide) g
    rwa [← segment_last, hpre, hp] at h
  have hone : stream [ps ++ [p]] = segment (ps ++ [p]) := by simp
  have hwalk :=
    @handleClientMessage_stream σ handleData [ps ++ [p]] (List.cons_ne_nil _ _)
    (hone ▸ hmax) [] g s
  rw [hone, List.append_nil] at hwalk
  rw [hwalk]
  simp only [serveAll, Nat.zero_add, serve_append, serve, hdec, ok_bind, bind_assoc]

theorem wordsFrom_last {p : Packet} {ws : List UInt32} (hp : p.value = network ws) :
    wordsFrom (segment (ps ++ [p])) (4 + (wires ps).length + 4) ws.length
      = ws.map UInt32.toNat := by
  have hbytes : segment (ps ++ [p])
      = (header (ps ++ [p]) ++ wires ps ++ bytes16 (htons p.type)
      ++ bytes16 (htons p.value.length)) ++ (network ws ++ []) := by
    rw [segment_last, wire, ← hp]
    simp [List.append_assoc]
  have hread :=
    wordsFrom_network [] ws (header (ps ++ [p]) ++ wires ps ++ bytes16 (htons p.type)
      ++ bytes16 (htons p.value.length))
  have hpre : (header (ps ++ [p]) ++ wires ps ++ bytes16 (htons p.type)
      ++ bytes16 (htons p.value.length)).length = 4 + (wires ps).length + 4 := by
    simp only [List.length_append, length_header, length_bytes16]
  rwa [← hbytes, hpre] at hread

/-- Only words that are all the same one come back. -/
theorem CarriesWords.same (hf : Filled buf ps) (h : CarriesWords words ps buf) :
    ∀ v ∈ words, ∀ w ∈ words, v = w := by
  obtain ⟨n, buf', henc, hcarries⟩ := h
  have hfit := encode_errors_fit words hf henc
  obtain ⟨buf'', henc', hlen, htake⟩ := encode_errors words hf hfit
  cases henc.symm.trans henc'
  rcases hcarries with hzero | ⟨p, -, -, -, -, hseg, -, hwords⟩
  · omega
  · have hsame : segment (ps ++ [p])
        = segment (ps ++ [errorPacket words (by omega)]) :=
      hseg.symm.trans htake
    have hread :=
      @wordsFrom_last ps (errorPacket words (by omega)) (repeated words) rfl
    rw [length_repeated, ← hsame, hwords] at hread
    have hfirst := List.map_injective_iff.mpr (fun _ _ => UInt32.toNat_inj.mp) hread
    have hhead : ∀ v ∈ words, v = words.headD 0 := by
      intro v hv
      rw [hfirst] at hv
      exact List.eq_of_mem_replicate hv
    exact fun v hv w hw => (hhead v hv).trans (hhead w hw).symm

/-- The call carries its words exactly if they are all the same
one and the TLV fits. -/
theorem error_words_iff (hf : Filled buf ps) :
    CarriesWords words ps buf ↔ (∀ v ∈ words, ∀ w ∈ words, v = w) ∧
      4 + (wires ps).length + 4 + 4 * words.length ≤ 1024 := by
  constructor
  · intro h
    refine ⟨h.same hf, ?_⟩
    obtain ⟨n, buf', henc, -⟩ := h
    exact encode_errors_fit words hf henc
  · rintro ⟨hsame, hfit⟩
    obtain ⟨buf', henc, hlen, htake⟩ := encode_errors words hf hfit
    have hrepeated : repeated words = words := by
      cases words with
      | nil => rfl
      | cons w ws =>
          exact (List.eq_replicate_of_mem fun v hv =>
            hsame v hv w List.mem_cons_self).symm
    have hvalue : (errorPacket words (by omega)).value = network words :=
      congrArg network hrepeated
    have hlength : (errorPacket words (by omega)).value.length
        = 4 * words.length := by
      rw [hvalue, length_network]
    refine ⟨_, buf', henc, Or.inr ⟨errorPacket words (by omega), rfl, hvalue,
      hlength, by omega, htake, ?_, wordsFrom_last hvalue⟩⟩
    intro σ handleData g s
    have hwhole : (segment (ps ++ [errorPacket words (by omega)])).length
        = buf'.length := by
      rw [length_segment, hlen]
      simp only [wires, List.flatMap_append, List.flatMap_cons, List.flatMap_nil,
        List.append_nil, List.length_append, length_wire, hlength]
      omega
    have hwalk :=
      @handleClientMessage_last ps σ handleData g s
        (errorPacket words (by omega)) rfl
        (by rw [hwhole, hlen]; unfold intMax; omega)
    rwa [hwhole, hlength] at hwalk

theorem error_words_sample : CarriesWords [7, 7, 7] [] freshBuffer :=
  (error_words_iff filled_fresh).mpr ⟨by simp, by decide⟩

/-- Two different words: the first one is sent twice. -/
theorem second_word_lost :
    (encode .algoError (memory [1, 2]) 2 freshBuffer).toOption.map
    (fun r => r.2.payload.take r.1)
        = some [0, 0, 0, 16, 0, 100, 0, 8, 0, 0, 0, 1, 0, 0, 0, 1] ∧
      ¬ CarriesWords [1, 2] [] freshBuffer := by
  refine ⟨by decide +kernel, fun hcarries => ?_⟩
  exact absurd (hcarries.same filled_fresh 1 (by decide) 2 (by decide)) (by decide)

end Encode

end Packet

end Pyramid
