/-
# `Pyramid.Console` — when the CLI stops waiting (`client/src/cli_commands.c`)

The CLI walks over what it receives with the loops of the server, has no
`g_groups`, and keeps what its own `handle_data` says of the last TLV: `done`
is overwritten, never gathered.  `handle_data` says 1 of `GOOD_BYE`, 0 of the
four types it shows, and -1 of every other, which is `true` as well.

So the answer of `handleNetworkMessage` is that of the last TLV of the chunk
(`serve_console`, `serveAll_console`), and the run ends before it at a
`JOIN_GROUP` with a word in it, where `g_groups` is `NULL`, and at a TLV of an
unknown type that the array ends with: `decode` prints two bytes of it.
-/
import Pyramid.Packets
import Pyramid.Memory.Text

namespace Pyramid

/-- The global `exec`, what has been printed, and the types `handle_data` was
called with; the last is a ghost. -/
structure Console where
  exec : Bool
  printed : Bytes
  handled : List Nat

namespace Console

def print (c : Console) (text : Bytes) : Console :=
  { c with printed := c.printed ++ text }

/-- `printf("\n %s", tlv.value)` -/
def printValue (c : Console) (buf : Bytes) (tlv : Tlv) : Except Halt Console :=
  match tlv.value with
  | none => .error .badAddr
  | some off => do
      let text ← cString (buf.drop off)
      .ok (c.print (ascii "\n " ++ text))

/-- The result is an `unsigned int`, which -1 is the greatest of. -/
def handleData (c : Console) (buf : Bytes) (tlv : Tlv) :
    Except Halt (Nat × Console) :=
  match Attribute.ofCode tlv.type with
  | some .cliData | some .algoMax | some .algoSort => do
      let c ← c.printValue buf tlv
      .ok (0, c)
  | some .algoError =>
      let c := c.print
        (ascii ("\nFailed to execute Job!!! \nThis might be due to wront file path " ++
        "or unavailability of resources. "))
      .ok (0, { c with exec := false })
  | some .goodBye => .ok (1, c.print (ascii "\n---------- \n"))
  | _ =>
      .ok (4294967295,
        c.print (ascii "\nhandle_data : unknown Attribute, can't handle "))

/-- `done = handle_data(tlv)`, a `bool` -/
def onTlv : Handler (Bool × Console) := fun _ buf _ tlv s => do
  let (result, c) ← s.2.handleData buf tlv
  .ok (result != 0, { c with handled := c.handled ++ [tlv.type] })

end Console

def handleNetworkMessage (buf : Bytes) (recvLen : Int) (c : Console) :
    Except Halt (Bool × Console) := do
  let word ← load32 buf 0
  if recvLen < toInt32 (htonl word) then .ok (true, c)
  else do
    let w ← segLoop Console.onTlv buf buf.length ⟨0, recvLen, none, (false, c)⟩
    .ok w.state

/-- The call returns, and with `true` exactly if `handle_data` was given a
`GOOD_BYE`. -/
def StopsOnGoodBye (buf : Bytes) (recvLen : Int) (c : Console) : Prop :=
  ∃ done c' types, handleNetworkMessage buf recvLen c = .ok (done, c') ∧
    c'.handled = c.handled ++ types ∧ (done = true ↔ Attribute.goodBye.code ∈ types)

/-! ## One TLV -/

/-- The types `handle_data` answers with 0. -/
def shown : List Attribute := [.cliData, .algoError, .algoMax, .algoSort]

namespace Packet

/-- `handle_data` does not return 0. -/
def Loud (p : Packet) : Prop := p.type ∉ shown.map Attribute.code

instance (p : Packet) : Decidable p.Loud := inferInstanceAs (Decidable (_ ∉ _))

theorem loud_iff {p : Packet} {a : Attribute} (h : p.type = a.code) :
    p.Loud ↔ a ∉ shown := by
  rw [Loud, h]
  cases a <;> decide

/-- `decode` stores no word through `g_groups`. -/
def NoGroups (p : Packet) : Prop := p.type = Attribute.joinGroup.code →
    p.value.length < 4

/-- `decode` has a message for the type. -/
def Unknown (p : Packet) : Prop :=
  p.type ≠ Attribute.joinGroup.code ∧ p.type ∉ byteValued.map Attribute.code

/-- `decode` gets past the packet, with so many bytes of the array behind it. -/
structure Read (behind : Nat) (p : Packet) : Prop where
  groups : p.NoGroups
  message : p.Unknown → 2 ≤ p.value.length + behind

end Packet

namespace Console

theorem takeGroups_null (buf : Bytes) (n i off : Nat) :
    (∃ r, takeGroups buf n i off none = .ok r) ↔ n = 0 := by
  cases n with
  | zero => exact ⟨fun _ => rfl, fun _ => ⟨none, rfl⟩⟩
  | succ n =>
      constructor
      · rintro ⟨r, h⟩
        obtain ⟨w, -, h⟩ := bind_ok.mp h
        obtain ⟨g, hg, -⟩ := bind_ok.mp h
        cases hg
      · intro h
        cases h

section Decode
variable {pre post : Bytes} {p : Packet}

theorem decode_ok_iff :
    (∃ r, decode (pre ++ (p.wire ++ post)) pre.length none = .ok r) ↔
      p.Read post.length := by
  by_cases hjoin : p.type = Attribute.joinGroup.code
  · have hwords :=
      takeGroups_null (pre ++ (p.wire ++ post)) (p.value.length / 4) 0
        (pre.length + 4)
    rw [Packet.decode_groups pre post p hjoin]
    constructor
    · rintro ⟨r, h⟩
      obtain ⟨g, hg, -⟩ := bind_ok.mp h
      have hzero := hwords.mp ⟨g, hg⟩
      exact ⟨fun _ => by omega, fun hun => absurd hjoin hun.1⟩
    · intro hread
      have hshort := hread.groups hjoin
      obtain ⟨g, hg⟩ := hwords.mpr (Nat.div_eq_of_lt hshort)
      exact ⟨_, bind_ok.mpr ⟨g, hg, rfl⟩⟩
  · by_cases hbytes : p.type ∈ byteValued.map Attribute.code
    · rw [Packet.decode_bytes pre post p hbytes]
      exact iff_of_true ⟨_, rfl⟩ ⟨fun h => absurd h hjoin,
        fun hun => absurd hbytes hun.2⟩
    · have hlen : (pre ++ (p.wire ++ post)).length = pre.length + 4 + p.value.length
          + post.length := by
        simp only [List.length_append, Packet.length_wire]
        omega
      rw [Packet.decode_unknown pre post p hjoin hbytes]
      constructor
      · rintro ⟨r, h⟩
        obtain ⟨w, hw, -⟩ := bind_ok.mp h
        have hbound := load16_bound hw
        exact ⟨fun h => absurd h hjoin, fun _ => by omega⟩
      · intro hread
        have hroom := hread.message ⟨hjoin, hbytes⟩
        obtain ⟨w, hw⟩ :=
          load16_of_bound (pre ++ (p.wire ++ post)) (pre.length + 4) (by omega)
        exact ⟨_, bind_ok.mpr ⟨w, hw, rfl⟩⟩

theorem takeGroups_keeps_null {buf : Bytes} {n i off : Nat} {g : Option Groups}
    (h : takeGroups buf n i off none = .ok g) : g = none := by
  have hzero := (takeGroups_null buf n i off).mp ⟨g, h⟩
  subst hzero
  exact (Except.ok.inj h).symm

theorem decode_packet {tlv : Tlv} {g : Option Groups}
    (h : decode (pre ++ (p.wire ++ post)) pre.length none = .ok (tlv, g)) :
    g = none ∧ tlv.type = p.type ∧
      (p.type ∈ byteValued.map Attribute.code →
        tlv.value = some (pre.length + 4)) := by
  have htype : tlv.type = p.type := by
    obtain ⟨hload, -⟩ := Packet.load_wire pre post p
    rw [(decode_cases h).2.1, ← htons_load16 hload, Packet.htons_type]
  obtain ⟨-, -, -, hkind⟩ := decode_cases h
  rw [htype] at hkind
  rcases hkind with ⟨hjoin, -, hg⟩ | ⟨-, hvalue, hg⟩ | ⟨-, hbytes, -, hg, -⟩
  · refine ⟨takeGroups_keeps_null hg, htype, fun hp => ?_⟩
    rw [hjoin] at hp
    exact absurd hp (by decide)
  · exact ⟨hg, htype, fun _ => hvalue⟩
  · exact ⟨hg, htype, fun hp => absurd hp hbytes⟩

end Decode

/-- Strings are printed up to a zero byte, which is there when one
is behind the packet. -/
theorem handleData_packet {pre post : Bytes} (hnul : 0 ∈ post) (p : Packet)
    (c : Console) {tlv : Tlv} (htype : tlv.type = p.type)
    (hvalue : p.type ∈ byteValued.map Attribute.code →
      tlv.value = some (pre.length + 4)) :
    ∃ n c', c.handleData (pre ++ (p.wire ++ post)) tlv = .ok (n, c') ∧
      (n ≠ 0 ↔ p.Loud) ∧
      c'.handled = c.handled := by
  have hprint : p.type ∈ byteValued.map Attribute.code →
      ∃ c', c.printValue (pre ++ (p.wire ++ post)) tlv = .ok c' ∧
      c'.handled = c.handled := by
    intro hp
    have htext := cString_ok.mpr ⟨List.mem_append_right p.value hnul, rfl⟩
    rw [printValue, hvalue hp]
    simp only [Packet.drop_wire, htext, ok_bind]
    exact ⟨_, rfl, rfl⟩
  rw [handleData, htype]
  cases hattr : Attribute.ofCode p.type with
  | none =>
      refine ⟨_, _, rfl, iff_of_true (by decide) fun hmem => ?_, rfl⟩
      obtain ⟨a, -, hcode⟩ := List.mem_map.mp hmem
      rw [Attribute.ofCode_eq_some.mpr hcode.symm] at hattr
      cases hattr
  | some a =>
      have hcode := Attribute.ofCode_eq_some.mp hattr
      have hloud := Packet.loud_iff hcode
      cases a with
      | cliData | algoMax | algoSort =>
          obtain ⟨c', hc', hhandled⟩ :=
            hprint (hcode ▸ List.mem_map_of_mem (by decide))
          exact ⟨0, c', bind_ok.mpr ⟨c', hc', rfl⟩, iff_of_false (by decide)
            (hloud.not.mpr (by decide)), hhandled⟩
      | algoError =>
          exact
            ⟨0, _, rfl, iff_of_false (by decide) (hloud.not.mpr (by decide)), rfl⟩
      | goodBye | none | joinGroup | stringData | int32Data | cliError | max =>
          exact ⟨_, _, rfl, iff_of_true (by decide) (hloud.mpr (by decide)), rfl⟩

/-- `done` after a packet that `decode` gets past. -/
theorem onTlv_packet {pre post : Bytes} (hnul : 0 ∈ post) {p : Packet}
    (hread : p.Read post.length) (s : Bool × Console) :
    ∃ tlv c', decode (pre ++ (p.wire ++ post)) pre.length none = .ok (tlv, none) ∧
      onTlv pre.length (pre ++ (p.wire ++ post)) none tlv s
        = .ok (decide p.Loud, c') ∧
      c'.handled = s.2.handled ++ [p.type] := by
  obtain ⟨r, hdec⟩ := decode_ok_iff.mpr hread
  obtain ⟨tlv, g⟩ := r
  obtain ⟨rfl, htype, hvalue⟩ := decode_packet hdec
  obtain ⟨n, c', hdata, hloud, hhandled⟩ := handleData_packet hnul p s.2 htype hvalue
  have hflag : (n != 0) = decide p.Loud := by
    rw [Bool.eq_iff_iff, bne_iff_ne, hloud, decide_eq_true_iff]
  refine ⟨tlv, { c' with handled := c'.handled ++ [tlv.type] }, hdec, ?_, ?_⟩
  · simp only [onTlv, hdata, ok_bind, hflag]
  · rw [hhandled, htype]

end Console

/-! ## The TLVs of a chunk -/

namespace Packet

/-- What `done` is after the packets: what the last of them says. -/
def answer (done : Bool) (ps : List Packet) : Bool :=
  ps.foldl (fun _ p => decide p.Loud) done

theorem answer_append (done : Bool) (ps qs : List Packet) :
    answer done (ps ++ qs) = answer (answer done ps) qs := List.foldl_append

/-- `decode` gets past every packet of a segment with so many bytes behind it. -/
def ReadAll (behind : Nat) : List Packet → Prop
  | [] => True
  | p :: ps => p.Read ((wires ps).length + behind) ∧ ReadAll behind ps

/-- The same for the segments of a chunk. -/
def ReadStream (behind : Nat) : List (List Packet) → Prop
  | [] => True
  | ps :: segs => ReadAll ((stream segs).length + behind) ps ∧ ReadStream behind segs

section Walk
variable {buf post : Bytes} (hnul : 0 ∈ post)
include hnul

theorem serve_console :
    ∀ {ps : List Packet} {pre : Bytes} (done : Bool) (c : Console),
      buf = pre ++ (wires ps ++ post) →
      ReadAll post.length ps →
      ∃ c', serve Console.onTlv buf pre.length ps none (done, c)
        = .ok (none, answer done ps, c') ∧
        c'.handled = c.handled ++ ps.map Packet.type := by
  intro ps
  induction ps with
  | nil =>
      intro pre done c _ _
      exact ⟨c, rfl, (List.append_nil _).symm⟩
  | cons p ps ih =>
      intro pre done c hbuf hread
      obtain ⟨hbuf₁, hbuf₂⟩ := split_wires hbuf
      have hbehind : p.Read (wires ps ++ post).length := by
        rw [List.length_append]
        exact hread.1
      obtain ⟨tlv, c₁, hdec, hdata, hhandled⟩ := @Console.onTlv_packet pre _
        (List.mem_append_right (wires ps) hnul) p hbehind (done, c)
      obtain ⟨c₂, hrest, hhandled₂⟩ := ih (decide p.Loud) c₁ hbuf₂ hread.2
      rw [← hbuf₁] at hdec hdata
      rw [List.length_append] at hrest
      refine ⟨c₂, ?_, ?_⟩
      · simp only [serve, hdec, ok_bind, hdata, hrest]
        rfl
      · rw [hhandled₂, hhandled, List.map_cons, List.append_assoc,
          List.singleton_append]

theorem serveAll_console :
    ∀ {segs : List (List Packet)} {pre : Bytes} (done : Bool) (c : Console),
      buf = pre ++ (stream segs ++ post) → ReadStream post.length segs →
      ∃ c', serveAll Console.onTlv buf pre.length segs none (done, c)
          = .ok (none, answer done segs.flatten, c') ∧
        c'.handled = c.handled ++ segs.flatten.map Packet.type := by
  intro segs
  induction segs with
  | nil =>
      intro pre done c _ _
      exact ⟨c, rfl, (List.append_nil _).symm⟩
  | cons ps segs ih =>
      intro pre done c hbuf hread
      obtain ⟨hbuf₁, hbuf₂⟩ := split_stream hbuf
      have hbehind : ReadAll (stream segs ++ post).length ps := by
        rw [List.length_append]
        exact hread.1
      obtain ⟨c₁, hinner, hhandled⟩ :=
        serve_console (List.mem_append_right (stream segs) hnul) done c
        hbuf₁ hbehind
      obtain ⟨c₂, hrest, hhandled₂⟩ := ih (answer done ps) c₁ hbuf₂ hread.2
      rw [List.length_append, length_header] at hinner
      rw [List.length_append] at hrest
      refine ⟨c₂, ?_, ?_⟩
      · simp only [serveAll, hinner, ok_bind, hrest, List.flatten_cons,
          answer_append]
      · rw [hhandled₂, hhandled, List.flatten_cons, List.map_append,
          List.append_assoc]

omit hnul in
/-- A walk that returns has got past every packet. -/
theorem readAll_of_serve :
    ∀ {ps : List Packet} {pre : Bytes} {s : Bool × Console}
      {r : Option Groups × Bool × Console}, buf = pre ++ (wires ps ++ post) →
      serve Console.onTlv buf pre.length ps none s = .ok r →
      ReadAll post.length ps := by
  intro ps
  induction ps with
  | nil => intro pre s r _ _; trivial
  | cons p ps ih =>
      intro pre s r hbuf h
      obtain ⟨hbuf₁, hbuf₂⟩ := split_wires hbuf
      rw [serve] at h
      obtain ⟨⟨tlv, g⟩, hdec, h⟩ := bind_ok.mp h
      obtain ⟨s₁, -, h⟩ := bind_ok.mp h
      rw [hbuf₁] at hdec
      obtain ⟨rfl, -, -⟩ := Console.decode_packet hdec
      have hread := Console.decode_ok_iff.mp ⟨_, hdec⟩
      rw [List.length_append] at hread
      rw [← List.length_append] at h
      exact ⟨hread, ih hbuf₂ h⟩

theorem readStream_of_serveAll :
    ∀ {segs : List (List Packet)} {pre : Bytes} {s : Bool × Console}
      {r : Option Groups × Bool × Console}, buf = pre ++ (stream segs ++ post) →
      serveAll Console.onTlv buf pre.length segs none s = .ok r →
      ReadStream post.length segs := by
  intro segs
  induction segs with
  | nil => intro pre s r _ _; trivial
  | cons ps segs ih =>
      intro pre s r hbuf h
      obtain ⟨hbuf₁, hbuf₂⟩ := split_stream hbuf
      have hnul' : 0 ∈ stream segs ++ post :=
        List.mem_append_right (stream segs) hnul
      have hoff : pre.length + 4 = (pre ++ header ps).length := by
        rw [List.length_append, length_header]
      rw [serveAll, hoff] at h
      obtain ⟨⟨g, s₁⟩, hinner, h⟩ := bind_ok.mp h
      have hread := readAll_of_serve hbuf₁ hinner
      obtain ⟨c', hrun, -⟩ := serve_console hnul' s.1 s.2 hbuf₁ hread
      have hgroups : g = none :=
        congrArg Prod.fst (Except.ok.inj (hinner.symm.trans hrun))
      subst hgroups
      rw [List.length_append] at hread
      rw [← List.length_append] at h
      exact ⟨hread, ih hbuf₂ h⟩

end Walk

/-! ## The answer -/

/-- The message about an unknown type has its two bytes in the array. -/
def Told (p : Packet) : Prop := p.Unknown → p.value ≠ []

section Behind
variable {behind : Nat} (hbehind : 1 ≤ behind)
include hbehind

theorem read_iff {p : Packet} :
    p.Read behind ↔ p.NoGroups ∧ (behind = 1 → p.Told) := by
  constructor
  · intro hread
    refine ⟨hread.groups, fun hone hun hnil => ?_⟩
    have htwo := hread.message hun
    rw [hnil, hone] at htwo
    exact absurd htwo (by decide)
  · rintro ⟨hgroups, htold⟩
    refine ⟨hgroups, fun hun => ?_⟩
    rcases Nat.lt_or_eq_of_le hbehind with hlt | heq
    · omega
    · have hpos := List.length_pos_iff.mpr (htold heq.symm hun)
      omega

/-- Only the last packet of a segment can be too close to the end of the array. -/
theorem readAll_iff : ∀ {ps : List Packet}, ReadAll behind ps ↔
    (∀ p ∈ ps, p.NoGroups) ∧ (behind = 1 → ∀ p ∈ ps.getLast?, p.Told)
  | [] => by simp [ReadAll]
  | [p] => by
      rw [ReadAll, wires_nil, List.length_nil, Nat.zero_add, read_iff hbehind]
      simp [ReadAll]
  | p :: q :: ps => by
      have hfar : ¬ (wires (q :: ps)).length + behind = 1 := by
        simp only [wires_cons, List.length_append, length_wire]
        omega
      rw [ReadAll, readAll_iff, read_iff (by omega), List.getLast?_cons_cons,
        List.forall_mem_cons (l := q :: ps)]
      simp only [hfar, false_imp_iff, and_true, and_assoc]

theorem readStream_iff : ∀ {segs : List (List Packet)}, ReadStream behind segs ↔
    (∀ p ∈ segs.flatten, p.NoGroups) ∧
      (behind = 1 → ∀ ps ∈ segs.getLast?, ∀ p ∈ ps.getLast?, p.Told)
  | [] => by simp [ReadStream]
  | [ps] => by
      rw [ReadStream, stream_nil, List.length_nil, Nat.zero_add, readAll_iff hbehind]
      simp [ReadStream]
  | ps :: qs :: segs => by
      have hfar : ¬ (stream (qs :: segs)).length + behind = 1 := by
        simp only [stream_cons, List.length_append, length_segment]
        omega
      have hmem : (∀ p ∈ (ps :: qs :: segs).flatten, p.NoGroups) ↔
          (∀ p ∈ ps, p.NoGroups) ∧ ∀ p ∈ (qs :: segs).flatten, p.NoGroups := by
        rw [List.flatten_cons]
        exact List.forall_mem_append
      rw [ReadStream, readStream_iff, readAll_iff (by omega),
        List.getLast?_cons_cons, hmem]
      simp only [hfar, false_imp_iff, and_true, and_assoc]

end Behind

theorem answer_iff (ps : List Packet) :
    answer false ps = true ↔ ∃ p ∈ ps.getLast?, p.Loud := by
  rcases List.eq_nil_or_concat ps with rfl | ⟨qs, p, rfl⟩
  · simp [answer]
  · rw [List.concat_eq_append, answer_append, List.getLast?_concat]
    simp [answer]

/-- A chunk of whole segments, as the CLI takes it. -/
theorem handleNetworkMessage_stream {segs : List (List Packet)} (hne : segs ≠ [])
    (hmax : ((stream segs).length : Int) ≤ intMax) (room : Bytes) (c : Console) :
    handleNetworkMessage (stream segs ++ room) (stream segs).length c =
      serveAll Console.onTlv (stream segs ++ room) 0 segs none (false, c)
        >>= fun r => .ok r.2 := by
  obtain ⟨w, hw, hle⟩ := load_stream hne hmax room
  simp only [handleNetworkMessage, hw, ok_bind]
  rw [if_neg (Int.not_lt.mpr hle), segLoop_chunk hmax]
  cases serveAll Console.onTlv (stream segs ++ room) 0 segs none (false, c) with
  | error e => rfl
  | ok r => rfl

/-- **When the CLI stops waiting.**  A chunk of whole segments, with the zero
byte of `receive_data` and whatever the array holds behind it, is answered with
`true` exactly when a `GOOD_BYE` is in it, if and only if no `JOIN_GROUP` has a
word in it, the array does not end too early for the message about the last TLV,
and the last TLV is one that is not just shown exactly when a `GOOD_BYE` is there. -/
theorem stops_on_goodbye_iff {segs : List (List Packet)} (hne : segs ≠ [])
    (hmax : ((stream segs).length : Int) ≤ intMax) (room : Bytes) (c : Console) :
    StopsOnGoodBye (stream segs ++ 0 :: room) (stream segs).length c ↔
      (∀ p ∈ segs.flatten, p.NoGroups) ∧
        (room = [] → ∀ ps ∈ segs.getLast?, ∀ p ∈ ps.getLast?, p.Told) ∧
        ((∃ p ∈ segs.flatten.getLast?, p.Loud) ↔
          ∃ p ∈ segs.flatten, p.type = Attribute.goodBye.code) := by
  have hnul : (0 : UInt8) ∈ 0 :: room := List.mem_cons_self
  have hroom : (0 :: room).length = 1 ↔ room = [] := by
    rw [List.length_cons, Nat.succ_inj, List.length_eq_zero_iff]
  have hread : ReadStream (0 :: room).length segs ↔
      (∀ p ∈ segs.flatten, p.NoGroups) ∧
      (room = [] → ∀ ps ∈ segs.getLast?, ∀ p ∈ ps.getLast?, p.Told) := by
    rw [readStream_iff (List.length_pos_of_mem hnul), hroom]
  have hrun := handleNetworkMessage_stream hne hmax (0 :: room) c
  have hbye : Attribute.goodBye.code ∈ segs.flatten.map Packet.type ↔
      ∃ p ∈ segs.flatten, p.type = Attribute.goodBye.code := List.mem_map
  have hreturns : ReadStream (0 :: room).length segs →
      ∃ c', handleNetworkMessage (stream segs ++ 0 :: room) (stream segs).length c
          = .ok (answer false segs.flatten, c') ∧
        c'.handled = c.handled ++ segs.flatten.map Packet.type := by
    intro h
    obtain ⟨c', hserve, hhandled⟩ :=
      @serveAll_console (stream segs ++ 0 :: room) _ hnul segs [] false c
      rfl h
    refine ⟨c', ?_, hhandled⟩
    rw [hrun]
    exact bind_ok.mpr ⟨_, hserve, rfl⟩
  rw [← and_assoc, ← hread, ← answer_iff, ← hbye]
  constructor
  · rintro ⟨done, c', types, hdone, hhandled, hiff⟩
    rw [hrun] at hdone
    obtain ⟨r, hserve, -⟩ := bind_ok.mp hdone
    have hall : ReadStream (0 :: room).length segs :=
      @readStream_of_serveAll (stream segs ++ 0 :: room) _ hnul segs [] _
        _ rfl hserve
    obtain ⟨c₁, hdone₁, hhandled₁⟩ := hreturns hall
    rw [← hrun] at hdone
    cases hdone.symm.trans hdone₁
    have htypes := List.append_cancel_left (hhandled.symm.trans hhandled₁)
    subst htypes
    exact ⟨hall, hiff⟩
  · rintro ⟨hall, hiff⟩
    obtain ⟨c', hdone, hhandled⟩ := hreturns hall
    exact ⟨_, c', _, hdone, hhandled, hiff⟩

/-- A reply and then the `GOOD_BYE`, in one segment. -/
theorem stops_on_goodbye_sample :
    let segs : List (List Packet) :=
      [[⟨5, [104, 105], by decide, by decide⟩, ⟨2, goodbye, by decide, by decide⟩]]
    let c : Console := ⟨true, [], []⟩
    StopsOnGoodBye (stream segs ++ 0 :: [0]) (stream segs).length c ↔
      (∀ p ∈ segs.flatten, p.NoGroups) ∧
        ([(0 : UInt8)] = [] → ∀ ps ∈ segs.getLast?, ∀ p ∈ ps.getLast?, p.Told) ∧
        ((∃ p ∈ segs.flatten.getLast?, p.Loud) ↔
          ∃ p ∈ segs.flatten, p.type = Attribute.goodBye.code) :=
  stops_on_goodbye_iff (List.cons_ne_nil _ _) (by decide) [0] ⟨true, [], []⟩

/-- A reply that comes behind the `GOOD_BYE` takes its answer away. -/
theorem goodbye_overwritten :
    ¬ StopsOnGoodBye
      (stream [[⟨2, goodbye, by decide, by decide⟩,
        ⟨5, [104, 105], by decide, by decide⟩]] ++ [0, 0])
      21 ⟨true, [], []⟩ := by
  rintro ⟨done, c', types, hrun, hhandled, hiff⟩
  have hresult : some (done, c'.handled) = some (false, [2, 5]) := by
    have hsome :=
      congrArg (fun r => r.toOption.map fun r => (r.1, r.2.handled)) hrun.symm
    exact hsome.trans (by decide +kernel)
  obtain ⟨hdone, htypes⟩ := Prod.mk.inj (Option.some.inj hresult)
  have hbye : Attribute.goodBye.code ∈ types := by
    rw [← List.nil_append types, ← hhandled, htypes]
    decide
  have htrue := hiff.mpr hbye
  rw [hdone] at htrue
  cases htrue

end Packet

end Pyramid
