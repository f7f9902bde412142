/-
# `Pyramid.Tlv` — the wire format (`common/src/tlv.c`, `tlv.h`)

A segment is a 4-byte header holding the segment's length, itself included,
followed by type-length-value triples with 2-byte types and 2-byte lengths.
Every encoder appends one TLV to a `Buffer` and rewrites the header; `decode`
reads one TLV.

Five of the seven encoders differ only in the type they store, so they are one
definition, `encodeBytes`, applied to that type; `encode_join_group` and
`encode_algo_error` store words and keep their own loops.  An `Attribute` the
switch of `encode` does not know is answered with 0.

A pointer into the received bytes is an offset.  `Tlv.value` is `none` where
the C code leaves the field unset: for `JOIN_GROUP`, whose payload goes to
`g_groups`, and for the types `decode` does not know.
-/
import Pyramid.Memory.Bytes

namespace Pyramid

inductive Attribute where
  | none
  | joinGroup
  | goodBye
  | stringData
  | int32Data
  | cliData
  | cliError
  | algoError
  | algoSort
  | algoMax
  | max
  deriving DecidableEq, Repr

def Attribute.code : Attribute → Nat
  | .none => 0
  | .joinGroup => 1
  | .goodBye => 2
  | .stringData => 3
  | .int32Data => 4
  | .cliData => 5
  | .cliError => 6
  | .algoError => 100
  | .algoSort => 101
  | .algoMax => 102
  | .max => 65536

/-- The attribute a number stands for in a `switch`. -/
def Attribute.ofCode (n : Nat) : Option Attribute :=
  [.none, .joinGroup, .goodBye, .stringData, .int32Data, .cliData, .cliError,
    .algoError, .algoSort, .algoMax, .max].find? (fun a => a.code == n)

theorem Attribute.ofCode_code (a : Attribute) :
    Attribute.ofCode a.code = some a := by
  cases a <;> rfl

theorem Attribute.ofCode_eq_some {n : Nat} {a : Attribute} :
    Attribute.ofCode n = some a ↔ n = a.code := by
  constructor
  · intro h
    have hcode := List.find?_some h
    exact (eq_of_beq hcode).symm
  · rintro rfl
    exact Attribute.ofCode_code a

/-! ## The encoders -/

/-- `payload` is the whole array the C pointer designates. -/
structure Buffer where
  length : Nat
  payload : Bytes

/-- `if (buf->length == 0) buf->length = 4;` — room for the segment header. -/
def Buffer.reserve (buf : Buffer) : Buffer :=
  if buf.length = 0 then { buf with length := 4 } else buf

/-- Rewrite the header for a buffer that has grown to `total` bytes. -/
def Buffer.close (payload : Bytes) (total : Nat) : Except Halt (Nat × Buffer) := do
  let payload ← poke payload 0 (bytes32 (htonl total))
  .ok (total, ⟨total, payload⟩)

/-- What `encode_string_data`, `encode_cli_data`, `encode_algo_sort`,
`encode_algo_max` and `encode_goodbye` have in common. -/
def encodeBytes (attr : Attribute) (data : Bytes) (length : Int) (buf : Buffer) :
    Except Halt (Nat × Buffer) :=
  let buf := buf.reserve
  if length ≤ 0 ∨ 1024 ≤ length then .ok (0, buf)
  else do
    let payload ← poke buf.payload buf.length (bytes16 (htons attr.code))
    let payload ← poke payload (buf.length + 2) (bytes16 (htons length.toNat))
    let copied ← peek data 0 length.toNat
    let payload ← poke payload (buf.length + 4) copied
    Buffer.close payload (buf.length + 4 + length.toNat)

def encodeStringData (data : Bytes) (length : Int) (buf : Buffer) :
    Except Halt (Nat × Buffer) :=
  encodeBytes .stringData data length buf

def encodeCliData (data : Bytes) (length : Int) (buf : Buffer) :
    Except Halt (Nat × Buffer) :=
  encodeBytes .cliData data length buf

def encodeAlgoSort (path : Bytes) (length : Int) (buf : Buffer) :
    Except Halt (Nat × Buffer) :=
  encodeBytes .algoSort path length buf

def encodeAlgoMax (data : Bytes) (length : Int) (buf : Buffer) :
    Except Halt (Nat × Buffer) :=
  encodeBytes .algoMax data length buf

/-- `char data[] = "goodbye"` -/
def goodbye : Bytes := [103, 111, 111, 100, 98, 121, 101]

def encodeGoodbye (buf : Buffer) : Except Halt (Nat × Buffer) :=
  encodeBytes .goodBye goodbye 7 buf

/-- The loop of `encode_join_group`: words `i, i+1, …` of
`data` to `payload + cur`. -/
def putGroups (data : Bytes) : Nat → Nat → Bytes → Nat → Except Halt Bytes
  | 0, _, payload, _ => .ok payload
  | n + 1, i, payload, cur => do
      let gid ← load32 data (4 * i)
      let payload ← poke payload cur (bytes32 (htons gid))
      putGroups data n (i + 1) payload (cur + 4)

def encodeJoinGroup (groups : Bytes) (numgroups : Int) (buf : Buffer) :
    Except Halt (Nat × Buffer) :=
  let buf := buf.reserve
  if numgroups ≤ 0 ∨ 255 ≤ numgroups then .ok (0, buf)
  else do
    let payload ← poke buf.payload buf.length
      (bytes16 (htons Attribute.joinGroup.code))
    let payload ← poke payload (buf.length + 2)
      (bytes16 (htons (4 * numgroups.toNat)))
    let payload ← putGroups groups numgroups.toNat 0 payload (buf.length + 4)
    Buffer.close payload (buf.length + 4 + 4 * numgroups.toNat)

/-- The loop of `encode_algo_error`: `*error`, the first word, each time. -/
def putErrors (error : Bytes) : Nat → Bytes → Nat → Except Halt Bytes
  | 0, payload, _ => .ok payload
  | n + 1, payload, cur => do
      let word ← load32 error 0
      let payload ← poke payload cur (bytes32 (htonl word))
      putErrors error n payload (cur + 4)

def encodeAlgoError (error : Bytes) (length : Int) (buf : Buffer) :
    Except Halt (Nat × Buffer) :=
  let buf := buf.reserve
  do
    let payload ← poke buf.payload buf.length
      (bytes16 (htons Attribute.algoError.code))
    let payload ← poke payload (buf.length + 2)
      (bytes16 (htons (4 * length % 65536).toNat))
    let payload ← putErrors error length.toNat payload (buf.length + 4)
    Buffer.close payload (buf.length + 4 + 4 * length.toNat)

def encode (attr : Attribute) (data : Bytes) (length : Int) (buf : Buffer) :
    Except Halt (Nat × Buffer) :=
  match attr with
  | .joinGroup => encodeJoinGroup data length buf
  | .stringData => encodeStringData data length buf
  | .cliData => encodeCliData data length buf
  | .goodBye => encodeGoodbye buf
  | .algoSort => encodeAlgoSort data length buf
  | .algoMax => encodeAlgoMax data length buf
  | .algoError => encodeAlgoError data length buf
  | _ => .ok (0, buf)

/-! ## The decoder -/

structure Tlv where
  type : Nat
  length : Nat
  value : Option Nat
  deriving DecidableEq, Repr

/-- `unsigned int g_groups[255]` -/
abbrev Groups := Fin 255 → Nat

/-- `g_groups[i] = v` -/
def storeGroup (g : Option Groups) (i v : Nat) : Except Halt (Option Groups) :=
  match g with
  | none => .error .nullDeref
  | some g =>
      if h : i < 255 then .ok (some (fun k => if k = ⟨i, h⟩ then v else g k))
      else .error .outOfBounds

/-- The loop of `decode` over a `JOIN_GROUP` payload. -/
def takeGroups (buffer : Bytes) :
    Nat → Nat → Nat → Option Groups → Except Halt (Option Groups)
  | 0, _, _, g => .ok g
  | n + 1, i, off, g => do
      let word ← load32 buffer off
      let g ← storeGroup g i (htons word)
      takeGroups buffer n (i + 1) (off + 4) g

/-- `decode(buffer + off, …, g_groups)`.  The default branch reads two more
bytes for the message it prints; `buflen` is only ever decremented. -/
def decode (buffer : Bytes) (off : Nat) (g : Option Groups) :
    Except Halt (Tlv × Option Groups) := do
  let type ← load16 buffer off
  let length ← load16 buffer (off + 2)
  match Attribute.ofCode (htons type) with
  | some .joinGroup => do
      let g ← takeGroups buffer (htons length / 4) 0 (off + 4) g
      .ok (⟨htons type, htons length, none⟩, g)
  | some .stringData | some .cliData | some .goodBye | some .algoSort | some .algoMax
  | some .algoError => .ok (⟨htons type, htons length, some (off + 4)⟩, g)
  | _ => do
      let _ ← load16 buffer (off + 4)
      .ok (⟨htons type, htons length, none⟩, g)

/-! ## What a `decode` that returned has read -/

/-- The attributes whose TLV points to its payload. -/
def byteValued : List Attribute :=
  [.stringData, .cliData, .goodBye, .algoSort, .algoMax, .algoError]

theorem takeGroups_bound (buf : Bytes) :
    ∀ (n i off : Nat) (g g' : Option Groups), off ≤ buf.length →
      takeGroups buf n i off g = .ok g' → off + 4 * n ≤ buf.length := by
  intro n
  induction n with
  | zero => intro i off g g' hoff _; exact hoff
  | succ n ih =>
      intro i off g g' _ h
      rw [takeGroups] at h
      obtain ⟨w, hw, h⟩ := bind_ok.mp h
      obtain ⟨g₁, _, h⟩ := bind_ok.mp h
      have hrest := ih (i + 1) (off + 4) g₁ g' (load32_bound hw) h
      omega

/-- The three kinds of TLV: groups, bytes, and the ones `decode` does not know. -/
theorem decode_cases {buf : Bytes} {off : Nat} {g g' : Option Groups} {tlv : Tlv}
    (h : decode buf off g = .ok (tlv, g')) :
    off + 4 ≤ buf.length ∧ tlv.type = be16 buf off ∧
      tlv.length = be16 buf (off + 2) ∧
      ((tlv.type = Attribute.joinGroup.code ∧ tlv.value = none ∧
          takeGroups buf (tlv.length / 4) 0 (off + 4) g = .ok g') ∨
        (tlv.type ∈ byteValued.map Attribute.code ∧ tlv.value = some (off + 4) ∧
          g' = g) ∨
        (tlv.type ≠ Attribute.joinGroup.code ∧
          tlv.type ∉ byteValued.map Attribute.code ∧
          tlv.value = none ∧ g' = g ∧ off + 6 ≤ buf.length)) := by
  rw [decode] at h
  obtain ⟨type, htype, h⟩ := bind_ok.mp h
  obtain ⟨length, hlength, h⟩ := bind_ok.mp h
  have hhead : off + 4 ≤ buf.length := load16_bound hlength
  rw [← htons_load16 htype, ← htons_load16 hlength]
  refine ⟨hhead, ?_⟩
  split at h
  · next hattr =>
      obtain ⟨g₁, hg₁, h⟩ := bind_ok.mp h
      cases h
      exact ⟨rfl, rfl, Or.inl ⟨Attribute.ofCode_eq_some.mp hattr, rfl, hg₁⟩⟩
  case h_8 hjoin hstring hcli hbye hsort hmax herror =>
    obtain ⟨w, hw, h⟩ := bind_ok.mp h
    cases h
    refine ⟨rfl, rfl,
      Or.inr (Or.inr ⟨fun heq => ?_, fun hmem => ?_, rfl, rfl, load16_bound hw⟩)⟩
    · exact hjoin (Attribute.ofCode_eq_some.mpr heq)
    · simp only [byteValued, List.map_cons, List.map_nil, List.mem_cons,
        List.not_mem_nil, or_false] at hmem
      rcases hmem with heq | heq | heq | heq | heq | heq
      · exact hstring (Attribute.ofCode_eq_some.mpr heq)
      · exact hcli (Attribute.ofCode_eq_some.mpr heq)
      · exact hbye (Attribute.ofCode_eq_some.mpr heq)
      · exact hsort (Attribute.ofCode_eq_some.mpr heq)
      · exact hmax (Attribute.ofCode_eq_some.mpr heq)
      · exact herror (Attribute.ofCode_eq_some.mpr heq)
  all_goals
    next hattr =>
      cases h
      refine ⟨rfl, rfl, Or.inr (Or.inl ⟨?_, rfl, rfl⟩)⟩
      show htons type ∈ _
      rw [Attribute.ofCode_eq_some.mp hattr]
      decide

/-! ## The type of a frame that was encoded -/

/-- Behind a buffer of `n` bytes the type of its first TLV, `type`, is in place;
a call that is rejected leaves nothing. -/
def FirstType (type : Nat) (r : Nat × Buffer) : Prop :=
  r.1 = 0 ∨ 6 ≤ r.1 ∧ be16 r.2.payload 4 = type

section FirstType
variable {data payload payload' : Bytes} {length : Int} {r : Nat × Buffer}

theorem close_firstType {type total : Nat} (htype : be16 payload 4 = type)
    (htotal : 6 ≤ total) (h : Buffer.close payload total = .ok r) :
    FirstType type r := by
  obtain ⟨p, hp, h⟩ := bind_ok.mp h
  cases h
  exact Or.inr ⟨htotal, (poke_be16 hp (Or.inr (Nat.le_refl 4))).trans htype⟩

theorem encodeBytes_firstType {attr : Attribute} (hattr : attr.code < 65536)
    (h : encodeBytes attr data length ⟨0, payload⟩ = .ok r) :
    FirstType attr.code r := by
  unfold encodeBytes at h
  split at h
  · cases h
    exact Or.inl rfl
  · obtain ⟨p₁, hp₁, h⟩ := bind_ok.mp h
    obtain ⟨p₂, hp₂, h⟩ := bind_ok.mp h
    obtain ⟨copied, -, h⟩ := bind_ok.mp h
    obtain ⟨p₃, hp₃, h⟩ := bind_ok.mp h
    refine close_firstType ?_ ?_ h
    · rw [poke_be16 hp₃ (Or.inl (by decide : 4 + 2 ≤ 4 + 4)),
        poke_be16 hp₂ (Or.inl (by decide : 4 + 2 ≤ 4 + 2)), ← Nat.mod_eq_of_lt hattr]
      exact poke_htons hp₁
    · show 6 ≤ 4 + 4 + length.toNat
      omega

theorem putGroups_be16 : ∀ (n i : Nat) {payload : Bytes} {cur : Nat}, 6 ≤ cur →
    putGroups data n i payload cur = .ok payload' →
    be16 payload' 4 = be16 payload 4 := by
  intro n
  induction n with
  | zero =>
      intro i payload cur _ h
      cases h
      rfl
  | succ n ih =>
      intro i payload cur hcur h
      obtain ⟨gid, -, h⟩ := bind_ok.mp h
      obtain ⟨p, hp, h⟩ := bind_ok.mp h
      rw [ih (i + 1) (by omega) h, poke_be16 hp (Or.inl hcur)]

theorem putErrors_be16 : ∀ (n : Nat) {payload : Bytes} {cur : Nat}, 6 ≤ cur →
    putErrors data n payload cur = .ok payload' →
    be16 payload' 4 = be16 payload 4 := by
  intro n
  induction n with
  | zero =>
      intro payload cur _ h
      cases h
      rfl
  | succ n ih =>
      intro payload cur hcur h
      obtain ⟨word, -, h⟩ := bind_ok.mp h
      obtain ⟨p, hp, h⟩ := bind_ok.mp h
      rw [ih (by omega) h, poke_be16 hp (Or.inl hcur)]

theorem encodeJoinGroup_firstType
    (h : encodeJoinGroup data length ⟨0, payload⟩ = .ok r) :
    FirstType Attribute.joinGroup.code r := by
  unfold encodeJoinGroup at h
  split at h
  · cases h
    exact Or.inl rfl
  · obtain ⟨p₁, hp₁, h⟩ := bind_ok.mp h
    obtain ⟨p₂, hp₂, h⟩ := bind_ok.mp h
    obtain ⟨p₃, hp₃, h⟩ := bind_ok.mp h
    refine close_firstType ?_ ?_ h
    · rw [putGroups_be16 _ _ (by decide : 6 ≤ 4 + 4) hp₃,
        poke_be16 hp₂ (Or.inl (by decide : 4 + 2 ≤ 4 + 2))]
      exact poke_htons hp₁
    · show 6 ≤ 4 + 4 + 4 * length.toNat
      omega

theorem encodeAlgoError_firstType
    (h : encodeAlgoError data length ⟨0, payload⟩ = .ok r) :
    FirstType Attribute.algoError.code r := by
  obtain ⟨p₁, hp₁, h⟩ := bind_ok.mp h
  obtain ⟨p₂, hp₂, h⟩ := bind_ok.mp h
  obtain ⟨p₃, hp₃, h⟩ := bind_ok.mp h
  refine close_firstType ?_ ?_ h
  · rw [putErrors_be16 _ (by decide : 6 ≤ 4 + 4) hp₃,
      poke_be16 hp₂ (Or.inl (by decide : 4 + 2 ≤ 4 + 2))]
    exact poke_htons hp₁
  · show 6 ≤ 4 + 4 + 4 * length.toNat
    omega

theorem encode_firstType {attr : Attribute}
    (h : encode attr data length ⟨0, payload⟩ = .ok r) :
    FirstType attr.code r := by
  cases attr with
  | joinGroup => exact encodeJoinGroup_firstType h
  | algoError => exact encodeAlgoError_firstType h
  | goodBye =>
      have hbye : encodeBytes .goodBye goodbye 7 ⟨0, payload⟩ = .ok r := h
      exact encodeBytes_firstType (by decide) hbye
  | stringData | cliData | algoSort | algoMax =>
      exact encodeBytes_firstType (by decide) h
  | none | int32Data | cliError | max =>
      cases h
      exact Or.inl rfl

end FirstType

end Pyramid
