/-
# `Pyramid.ReceiveSafe` — which bytes can be received safely

Only the length of the first segment of a chunk is compared with the number of
bytes received; every other length is believed.  `SegsFit` is the language of
the chunks for which that does no harm, as a grammar over the bytes alone:

    segments   nothing left, or: a header inside the chunk, announcing n bytes,
               TLVs for n - 4 of them, and segments for what is left
    TLVs       nothing left, or: a TLV that fits, and TLVs for what is left
    a TLV      type and length inside the chunk; the words of a JOIN_GROUP, at
               most 255 of them, inside the chunk; for an unknown type two
               bytes more

The walk of `handleClientMessage` has no fault exactly on this language
(`segLoop_ok_iff`), for every `handle_data` that returns, and a round of
`receive_data` has none exactly when `recv` said that the connection is closed,
or gave a chunk of 4 to 1023 bytes whose first header announces more than was
received or which is in the language (`receiveRound_ok_iff`).
-/
import Pyramid.Framing

namespace Pyramid

/-! ## The language -/

/-- The TLV at `off` can be decoded: what `decode` reads for its type is there. -/
structure TlvFits (buf : Bytes) (off : Nat) : Prop where
  head : off + 4 ≤ buf.length
  groups : be16 buf off = Attribute.joinGroup.code →
    be16 buf (off + 2) / 4 ≤ 255 ∧
    off + 4 + 4 * (be16 buf (off + 2) / 4) ≤ buf.length
  unknown : be16 buf off ≠ Attribute.joinGroup.code →
    be16 buf off ∉ byteValued.map Attribute.code → off + 6 ≤ buf.length

/-- `len` bytes announced from `off` on are TLVs that fit; they end at `stop`. -/
inductive TlvsFit (buf : Bytes) : Nat → Int → Nat → Prop
  | done {off : Nat} {len : Int} : len ≤ 0 → TlvsFit buf off len off
  | tlv {off : Nat} {len : Int} {stop : Nat} : 0 < len → TlvFits buf off →
      TlvsFit buf (off + be16 buf (off + 2) + 4) (len - be16 buf (off + 2) - 4)
        stop →
      TlvsFit buf off len stop

/-- A segment length as the `int` it is read into. -/
def segLen (buf : Bytes) (off : Nat) : Int := toInt32 (be32 buf off)

/-- `left` bytes from `off` on are segments that fit. -/
inductive SegsFit (buf : Bytes) : Nat → Int → Prop
  | done {off : Nat} {left : Int} : left ≤ 0 → SegsFit buf off left
  | seg {off : Nat} {left : Int} {stop : Nat} : 0 < left → off + 4 ≤ buf.length →
      intMin ≤ segLen buf off - 4 → TlvsFit buf (off + 4) (segLen buf off - 4) stop →
      left - segLen buf off ≤ intMax → SegsFit buf stop (left - segLen buf off) →
      SegsFit buf off left

/-! ## One TLV -/

theorem takeGroups_ok_iff (buf : Bytes) :
    ∀ (n i off : Nat) (g : Groups), i ≤ 255 → off ≤ buf.length →
      ((∃ g', takeGroups buf n i off (some g) = .ok (some g')) ↔
        i + n ≤ 255 ∧ off + 4 * n ≤ buf.length) := by
  intro n
  induction n with
  | zero =>
      intro i off g hi hoff
      exact ⟨fun _ => ⟨hi, hoff⟩, fun _ => ⟨g, rfl⟩⟩
  | succ n ih =>
      intro i off g hi hoff
      constructor
      · rintro ⟨g', h⟩
        rw [takeGroups] at h
        obtain ⟨w, hw, h⟩ := bind_ok.mp h
        have hbound := load32_bound hw
        by_cases hlt : i < 255
        · rw [storeGroup, dif_pos hlt, ok_bind] at h
          have hrest := (ih (i + 1) (off + 4) _ hlt hbound).mp ⟨g', h⟩
          omega
        · rw [storeGroup, dif_neg hlt, error_bind] at h
          cases h
      · rintro ⟨hroom, hbound⟩
        obtain ⟨w, hw⟩ := load32_of_bound buf off (by omega)
        have hlt : i < 255 := by omega
        obtain ⟨g', hg'⟩ :=
          (ih (i + 1) (off + 4) (fun k => if k = ⟨i, hlt⟩ then htons w else g k)
          hlt (by omega)).mpr ⟨by omega, by omega⟩
        exact ⟨g',
          by rw [takeGroups, hw, ok_bind, storeGroup, dif_pos hlt, ok_bind, hg']⟩

theorem takeGroups_some {buf : Bytes} :
    ∀ {n i off : Nat} {g : Groups} {r : Option Groups},
      takeGroups buf n i off (some g) = .ok r → ∃ g', r = some g' := by
  intro n
  induction n with
  | zero =>
      intro i off g r h
      exact ⟨g, (Except.ok.inj h).symm⟩
  | succ n ih =>
      intro i off g r h
      rw [takeGroups] at h
      obtain ⟨w, -, h⟩ := bind_ok.mp h
      by_cases hlt : i < 255
      · rw [storeGroup, dif_pos hlt, ok_bind] at h
        exact ih h
      · rw [storeGroup, dif_neg hlt, error_bind] at h
        cases h

theorem decode_fits {buf : Bytes} {off : Nat} {g : Groups} {tlv : Tlv}
    {r : Option Groups} (h : decode buf off (some g) = .ok (tlv, r)) :
    TlvFits buf off ∧ tlv.length = be16 buf (off + 2) ∧ ∃ g', r = some g' := by
  obtain ⟨hhead, htype, hlength, hkind⟩ := decode_cases h
  rw [htype, hlength] at hkind
  rcases hkind with ⟨hcode, -, hgroups⟩ | ⟨hcode, -, hg⟩ | ⟨hjoin, hcode,
    -, hg, hsix⟩
  · obtain ⟨g', rfl⟩ := takeGroups_some hgroups
    have hroom :=
      (takeGroups_ok_iff buf _ 0 (off + 4) g (by decide) hhead).mp ⟨g', hgroups⟩
    refine ⟨⟨hhead, fun _ => ⟨by omega, hroom.2⟩, fun hne => absurd hcode hne⟩,
      hlength, g', rfl⟩
  · refine ⟨⟨hhead, fun hjoin => ?_, fun _ hne => absurd hcode hne⟩, hlength, g, hg⟩
    rw [hjoin] at hcode
    exact absurd hcode (by decide)
  · exact ⟨⟨hhead, fun h => absurd h hjoin, fun _ _ => hsix⟩, hlength, g, hg⟩

theorem decode_of_fits {buf : Bytes} {off : Nat} (h : TlvFits buf off) (g : Groups) :
    ∃ tlv g', decode buf off (some g) = .ok (tlv, some g') := by
  obtain ⟨hhead, hgroups, hunknown⟩ := h
  obtain ⟨type, htype⟩ := load16_of_bound buf off (by omega)
  obtain ⟨length, hlength⟩ := load16_of_bound buf (off + 2) (by omega)
  rw [← htons_load16 htype, ← htons_load16 hlength] at hgroups
  rw [← htons_load16 htype] at hunknown
  simp only [decode, htype, hlength, ok_bind]
  split
  · next hattr =>
      obtain ⟨hcount, hroom⟩ := hgroups (Attribute.ofCode_eq_some.mp hattr)
      obtain ⟨g', hg'⟩ :=
        (takeGroups_ok_iff buf (htons length / 4) 0 (off + 4) g (by decide)
        hhead).mpr ⟨by omega, hroom⟩
      exact ⟨_, g', by rw [hg', ok_bind]⟩
  case h_8 hjoin hstring hcli hbye hsort hmax herror =>
    have hsix := hunknown (fun heq => hjoin (Attribute.ofCode_eq_some.mpr heq)) (by
      intro hmem
      obtain ⟨a, ha, heq⟩ := List.mem_map.mp hmem
      have hattr := Attribute.ofCode_eq_some.mpr heq.symm
      simp only [byteValued, List.mem_cons, List.not_mem_nil, or_false] at ha
      rcases ha with rfl | rfl | rfl | rfl | rfl | rfl
      · exact hstring hattr
      · exact hcli hattr
      · exact hbye hattr
      · exact hsort hattr
      · exact hmax hattr
      · exact herror hattr)
    obtain ⟨w, hw⟩ := load16_of_bound buf (off + 4) (by omega)
    exact ⟨_, g, by rw [hw, ok_bind]⟩
  all_goals exact ⟨_, g, rfl⟩

/-! ## The two loops

`Total` says of `handle_data` that it always returns; what it does otherwise
does not matter. -/

section Loops
variable {σ : Type} (handleData : Handler σ)

def Total : Prop := ∀ pos buf g tlv s, ∃ s', handleData pos buf g tlv s = .ok s'

variable (htotal : Total handleData) (buf : Bytes)
include htotal

/-- `fuel` for as many TLVs as there are bytes after `off` is enough. -/
theorem tlvLoop_ok_iff :
    ∀ (fuel off : Nat) (len : Int) (g : Groups) (s : σ) (stop : Nat),
      buf.length ≤ fuel + off →
      ((∃ g' s', tlvLoop handleData buf fuel off len (some g) s
        = .ok (stop, some g', s')) ↔
        TlvsFit buf off len stop) := by
  intro fuel
  induction fuel with
  | zero =>
      intro off len g s stop hfuel
      rw [tlvLoop]
      constructor
      · rintro ⟨g', s', h⟩
        by_cases hlen : 0 < len
        · rw [if_pos hlen] at h
          cases h
        · rw [if_neg hlen] at h
          cases h
          exact .done (by omega)
      · intro h
        cases h with
        | done hlen => exact ⟨g, s, by rw [if_neg (by omega)]⟩
        | tlv _ hfits _ =>
            have hhead := hfits.head
            omega
  | succ fuel ih =>
      intro off len g s stop hfuel
      rw [tlvLoop]
      constructor
      · rintro ⟨g', s', h⟩
        by_cases hlen : 0 < len
        · rw [if_pos hlen] at h
          obtain ⟨⟨tlv, r⟩, hdec, h⟩ := bind_ok.mp h
          obtain ⟨s₁, -, h⟩ := bind_ok.mp h
          obtain ⟨hfits, hlength, g₁, rfl⟩ := decode_fits hdec
          have hrest := (ih _ _ _ _ _ (by omega)).mp ⟨g', s', h⟩
          rw [hlength] at hrest
          exact .tlv hlen hfits hrest
        · rw [if_neg hlen] at h
          cases h
          exact .done (by omega)
      · intro h
        cases h with
        | done hlen => exact ⟨g, s, by rw [if_neg (by omega)]⟩
        | tlv hlen hfits hrest =>
            obtain ⟨tlv, g₁, hdec⟩ := decode_of_fits hfits g
            obtain ⟨-, hlength, -⟩ := decode_fits hdec
            obtain ⟨s₁, hs₁⟩ := htotal off buf (some g₁) tlv s
            rw [← hlength] at hrest
            obtain ⟨g', s', hloop⟩ := (ih _ _ g₁ s₁ _ (by omega)).mpr hrest
            refine ⟨g', s', ?_⟩
            simp only [hlen, if_true, hdec, ok_bind, hs₁]
            exact hloop

omit htotal in
theorem tlvLoop_some :
    ∀ {fuel off : Nat} {len : Int} {g : Groups} {s : σ} {stop : Nat}
      {r : Option Groups} {s' : σ}, tlvLoop handleData buf fuel off len (some g) s
        = .ok (stop, r, s') →
      off ≤ stop ∧ ∃ g', r = some g' := by
  intro fuel
  induction fuel with
  | zero =>
      intro off len g s stop r s' h
      rw [tlvLoop] at h
      by_cases hlen : 0 < len
      · rw [if_pos hlen] at h
        cases h
      · rw [if_neg hlen] at h
        cases h
        exact ⟨Nat.le_refl _, g, rfl⟩
  | succ fuel ih =>
      intro off len g s stop r s' h
      rw [tlvLoop] at h
      by_cases hlen : 0 < len
      · rw [if_pos hlen] at h
        obtain ⟨⟨tlv, r₁⟩, hdec, h⟩ := bind_ok.mp h
        obtain ⟨s₁, -, h⟩ := bind_ok.mp h
        obtain ⟨-, -, g₁, rfl⟩ := decode_fits hdec
        obtain ⟨hle, hsome⟩ := ih h
        exact ⟨by omega, hsome⟩
      · rw [if_neg hlen] at h
        cases h
        exact ⟨Nat.le_refl _, g, rfl⟩

omit htotal in
theorem TlvsFit.le {off : Nat} {len : Int} {stop : Nat}
    (h : TlvsFit buf off len stop) :
    off ≤ stop := by
  induction h with
  | done _ => exact Nat.le_refl _
  | tlv _ _ _ ih => omega

theorem segLoop_ok_iff :
    ∀ (fuel : Nat) (off : Nat) (left : Int) (g : Groups) (s : σ),
      buf.length ≤ fuel + off →
      ((∃ w, segLoop handleData buf fuel ⟨off, left, some g, s⟩ = .ok w) ↔
        SegsFit buf off left) := by
  have hlow : ∀ {left : Int} (off : Nat), 0 < left →
      intMin ≤ left - segLen buf off := by
    intro left off hleft
    simp only [segLen, toInt32, intMin]
    omega
  have hhigh : ∀ off : Nat, segLen buf off - 4 ≤ intMax := by
    intro off
    simp only [segLen, toInt32, intMax]
    omega
  intro fuel
  induction fuel with
  | zero =>
      intro off left g s hfuel
      rw [segLoop]
      constructor
      · rintro ⟨w, h⟩
        by_cases hleft : 0 < left
        · rw [if_pos hleft] at h
          cases h
        · exact .done (by omega)
      · intro h
        cases h with
        | done hleft => exact ⟨_, by rw [if_neg (by simpa using hleft)]⟩
        | seg _ hhead _ _ _ _ => omega
  | succ fuel ih =>
      intro off left g s hfuel
      rw [segLoop]
      constructor
      · rintro ⟨w, h⟩
        by_cases hleft : 0 < left
        · rw [if_pos hleft] at h
          obtain ⟨word, hword, h⟩ := bind_ok.mp h
          obtain ⟨len, hlen, h⟩ := bind_ok.mp h
          obtain ⟨⟨stop, r, s₁⟩, hloop, h⟩ := bind_ok.mp h
          obtain ⟨left', hleft', h⟩ := bind_ok.mp h
          obtain ⟨hle, g₁, rfl⟩ := tlvLoop_some handleData buf hloop
          have hnext : off + 4 ≤ stop := hle
          rw [htonl_load32 hword] at hlen hleft'
          obtain ⟨hmin, -, hval⟩ := subInt_ok.mp hlen
          obtain ⟨-, hmax, hval'⟩ := subInt_ok.mp hleft'
          rw [hval] at hloop
          rw [hval'] at h
          exact .seg hleft (load32_bound hword) hmin
            ((tlvLoop_ok_iff handleData htotal buf _ _ _ _ _ _ (by omega)).mp ⟨g₁,
              s₁, hloop⟩) hmax
            ((ih _ _ _ _ (by omega)).mp ⟨w, h⟩)
        · exact .done (by omega)
      · intro h
        cases h with
        | done hleft => exact ⟨_, by rw [if_neg (by simpa using hleft)]⟩
        | seg hleft hhead hmin htlvs hmax hrest =>
            obtain ⟨word, hword⟩ := load32_of_bound buf off hhead
            have hlen : subInt (segLen buf off) 4 = .ok (segLen buf off - 4) :=
              subInt_ok.mpr ⟨hmin, hhigh off, rfl⟩
            have hleft' : subInt left (segLen buf off)
                = .ok (left - segLen buf off) :=
              subInt_ok.mpr ⟨hlow off hleft, hmax, rfl⟩
            have hle := TlvsFit.le buf htlvs
            obtain ⟨g₁, s₁, hloop⟩ :=
              (tlvLoop_ok_iff handleData htotal buf buf.length (off + 4) _ g s
              _ (by omega)).mpr htlvs
            obtain ⟨w, hw⟩ := (ih _ _ g₁ s₁ (by omega)).mpr hrest
            refine ⟨w, ?_⟩
            rw [if_pos hleft]
            simp only [hword, ok_bind, htonl_load32 hword]
            rw [← segLen, hlen, ok_bind, hloop, ok_bind]
            show (subInt left (segLen buf off) >>= fun recvLen => _) = _
            rw [hleft', ok_bind, hw]

/-! ## One round of `receive_data` -/

/-- What `recv` can return for a buffer of 1024 bytes. -/
def RecvResult.Possible : RecvResult → Prop
  | .again | .error | .eof => True
  | .data chunk => 1 ≤ chunk.length ∧ chunk.length ≤ 1024

/-- The results of `recv` that are received without a fault. -/
def RecvResult.Safe : RecvResult → Prop
  | .again | .error => False
  | .eof => True
  | .data chunk => 4 ≤ chunk.length ∧ chunk.length ≤ 1023 ∧
      (chunk.length < segLen chunk 0 ∨ SegsFit chunk 0 chunk.length)

omit htotal in
theorem storeNul_ok {n : Int} : storeNul n = .ok () ↔ 0 ≤ n ∧ n < oneKb := by
  rw [storeNul]
  by_cases h : 0 ≤ n ∧ n < oneKb
  · rw [if_pos h]
    exact ⟨fun _ => h, fun _ => rfl⟩
  · rw [if_neg h]
    exact ⟨fun heq => (by cases heq), fun h' => absurd h' h⟩

theorem handleClientMessage_ok_iff (g : Groups) (s : σ) :
    (∃ r, handleClientMessage handleData buf buf.length (some g) s = .ok r) ↔
      4 ≤ buf.length ∧ (buf.length < segLen buf 0 ∨ SegsFit buf 0 buf.length) := by
  have hloop :=
    segLoop_ok_iff handleData htotal buf buf.length 0 buf.length g s (Nat.le_refl _)
  rw [handleClientMessage]
  constructor
  · rintro ⟨r, h⟩
    obtain ⟨word, hword, h⟩ := bind_ok.mp h
    refine ⟨load32_bound hword, ?_⟩
    rw [segLen, ← htonl_load32 hword]
    by_cases hfrag : (buf.length : Int) < toInt32 (htonl word)
    · exact Or.inl hfrag
    · simp only [hfrag, if_false] at h
      obtain ⟨w, hw, -⟩ := bind_ok.mp h
      exact Or.inr (hloop.mp ⟨w, hw⟩)
  · rintro ⟨hfour, hfits⟩
    obtain ⟨word, hword⟩ := load32_of_bound buf 0 (by omega)
    rw [segLen, ← htonl_load32 hword] at hfits
    rw [hword, ok_bind]
    by_cases hfrag : (buf.length : Int) < toInt32 (htonl word)
    · simp only [hfrag, if_true]
      exact ⟨_, rfl⟩
    · obtain ⟨w, hw⟩ := hloop.mpr (hfits.resolve_left hfrag)
      simp only [hfrag, if_false, hw, ok_bind]
      exact ⟨_, rfl⟩

end Loops

/-- **Hostile input.**  A round of `receive_data` returns, having stayed inside
`buf`, the bytes received and `g_groups`, exactly for the safe results of `recv`. -/
theorem receiveRound_ok_iff {σ : Type} {handleData : Handler σ}
    (htotal : Total handleData) {r : RecvResult} (hr : r.Possible)
    (g : Groups) (s : σ) :
    (∃ out, receiveRound handleData r (some g) s = .ok out) ↔ r.Safe := by
  cases r with
  | again => exact ⟨(by rintro ⟨_, h⟩; cases h), fun h => by cases h⟩
  | error => exact ⟨(by rintro ⟨_, h⟩; cases h), fun h => by cases h⟩
  | eof => exact ⟨fun _ => trivial, fun _ => ⟨_, rfl⟩⟩
  | data chunk =>
      rw [receiveRound]
      have hmsg := handleClientMessage_ok_iff handleData htotal chunk g s
      obtain ⟨hone, hkb⟩ := hr
      constructor
      · rintro ⟨out, h⟩
        obtain ⟨_, hnul, h⟩ := bind_ok.mp h
        obtain ⟨r, hrun, -⟩ := bind_ok.mp h
        obtain ⟨-, hlt⟩ := storeNul_ok.mp hnul
        obtain ⟨hfour, hfits⟩ := hmsg.mp ⟨r, hrun⟩
        simp only [RecvResult.count, oneKb] at hlt
        exact ⟨hfour, by omega, hfits⟩
      · rintro ⟨hfour, hlt, hfits⟩
        obtain ⟨⟨b, w⟩, hrun⟩ := hmsg.mpr ⟨hfour, hfits⟩
        have hnul : storeNul (RecvResult.data chunk).count = .ok () :=
          storeNul_ok.mpr (by
            simp only [RecvResult.count, oneKb]
            omega)
        exact ⟨_, by rw [hnul, ok_bind, hrun, ok_bind]⟩

theorem record_total : Total record := fun _ _ _ _ _ => ⟨_, rfl⟩

/-- A segment with `ALGO_MAX "5"` and the id of a group is safe, as is one of which
more is announced than has come in; four zero bytes are not. -/
theorem receiveRound_ok_iff_sample :
    (RecvResult.data [0, 0, 0, 17, 0, 102, 0, 1, 53, 0, 1, 0, 4, 0, 7, 0, 0]).Safe ∧
      (RecvResult.data [0, 0, 0, 17, 0]).Safe ∧
      ¬ (RecvResult.data [0, 0, 0, 0]).Safe := by
  have hiff : ∀ {chunk : Bytes}, (RecvResult.data chunk).Possible →
      ((∃ out, receiveRound record (.data chunk) (some fun _ => 0) [] = .ok out) ↔
        (RecvResult.data chunk).Safe) := fun hchunk =>
    receiveRound_ok_iff record_total hchunk (fun _ => 0) []
  have hruns : ∀ {chunk : Bytes},
      (receiveRound record (.data chunk) (some fun _ => 0) []).isOk = true →
      ∃ out, receiveRound record (.data chunk) (some fun _ => 0) [] = .ok out := by
    intro chunk hok
    cases hrun : receiveRound record (.data chunk) (some fun _ => 0) [] with
    | ok out => exact ⟨out, rfl⟩
    | error e =>
        rw [hrun] at hok
        cases hok
  refine ⟨(hiff ⟨by decide, by decide⟩).mp (hruns (by decide +kernel)),
    (hiff ⟨by decide, by decide⟩).mp (hruns (by decide +kernel)), fun hsafe => ?_⟩
  obtain ⟨out, hout⟩ := (hiff ⟨by decide, by decide⟩).mpr hsafe
  have hfault : (receiveRound record (.data [0, 0, 0, 0]) (some fun _ => 0) []).isOk
      = false := by
    decide +kernel
  rw [hout] at hfault
  cases hfault

/-- `recv` returning -1, as it does at the end of every round of reading,
makes `receive_data` write `buf[-1]`; and four zero bytes make it read
past what it received. -/
theorem receiveRound_faults :
    (¬ ∃ out, receiveRound record .again (some fun _ => 0) [] = .ok out) ∧
      ¬ ∃ out, receiveRound record (.data [0, 0, 0, 0]) (some fun _ => 0) []
        = .ok out := by
  have hagain : (receiveRound record .again (some fun _ => 0) []).isOk = false := rfl
  have hzeros : (receiveRound record (.data [0, 0, 0, 0]) (some fun _ => 0) []).isOk
      = false := by
    decide +kernel
  constructor
  · rintro ⟨out, h⟩
    rw [h] at hagain
    cases hagain
  · rintro ⟨out, h⟩
    rw [h] at hzeros
    cases hzeros

end Pyramid
