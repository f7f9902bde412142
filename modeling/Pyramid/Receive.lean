/-
# `Pyramid.Receive` — from `recv` to `handle_data` (`server/src/server.c`)

`receive_data` calls `recv` until it has nothing more to give and hands every
chunk to `handleClientMessage`, which walks over the segments of the chunk and
the TLVs of each segment with two nested loops and passes every TLV to
`handle_data`.

The loops do not depend on what `handle_data` does, so it is a parameter: it
is given the received bytes (which `Tlv.value` points into), `g_groups`, the
TLV and whatever state it works on.  Its first argument is a ghost, the offset
the TLV was decoded at; no C handler sees it.

A read at or past the number of bytes received, a write outside `buf` or
`g_groups`, and an `int` subtraction that overflows end the run.
-/
import Pyramid.Tlv

namespace Pyramid

/-- `handle_data`, on a state `σ`. -/
abbrev Handler (σ : Type) := Nat → Bytes → Option Groups → Tlv → σ → Except Halt σ

section Loops
variable {σ : Type} (handleData : Handler σ) (buf : Bytes)

/-- `while (lenFromHdr > 0)`: the TLVs of one segment. -/
def tlvLoop : Nat → Nat → Int → Option Groups → σ →
    Except Halt (Nat × Option Groups × σ)
  | fuel, off, lenFromHdr, g, s =>
      if 0 < lenFromHdr then
        match fuel with
        | 0 => .error .diverge
        | fuel + 1 => do
            let (tlv, g) ← decode buf off g
            let s ← handleData off buf g tlv s
            tlvLoop fuel (off + tlv.length + 4) (lenFromHdr - tlv.length - 4) g s
      else .ok (off, g, s)

/-- Where the walk over a chunk stands: `buf` (as an offset), `recvLen`,
`g_groups` and the handler's state. -/
structure Walk (σ : Type) where
  off : Nat
  recvLen : Int
  groups : Option Groups
  state : σ

/-- `while (recvLen > 0)`: the segments of one chunk. -/
def segLoop : Nat → Walk σ → Except Halt (Walk σ)
  | fuel, w =>
      if 0 < w.recvLen then
        match fuel with
        | 0 => .error .diverge
        | fuel + 1 => do
            let word ← load32 buf w.off
            let curSegLen := toInt32 (htonl word)
            let lenFromHdr ← subInt curSegLen 4
            let (off, g, s) ← tlvLoop handleData buf buf.length (w.off + 4)
              lenFromHdr w.groups w.state
            let recvLen ← subInt w.recvLen curSegLen
            segLoop fuel ⟨off, recvLen, g, s⟩
      else .ok w

/-- The `Bool` is the C function's result, the `Walk` what its locals hold when
it returns.  Both loops read four bytes each time round, so neither goes round
more often than there are bytes. -/
def handleClientMessage (recvLen : Int) (g : Option Groups) (s : σ) :
    Except Halt (Bool × Walk σ) := do
  let word ← load32 buf 0
  let lenFromHdr := toInt32 (htonl word)
  if recvLen < lenFromHdr then .ok (true, ⟨0, recvLen, g, s⟩)
  else do
    let w ← segLoop handleData buf buf.length ⟨0, recvLen, g, s⟩
    .ok (false, w)

end Loops

/-! ## The loop around `recv` -/

/-- What `recv` can return: -1 with `errno` `EAGAIN` or another
error, 0, or a chunk. -/
inductive RecvResult where
  | again
  | error
  | eof
  | data (chunk : Bytes)

def RecvResult.count : RecvResult → Int
  | .again | .error => -1
  | .eof => 0
  | .data chunk => chunk.length

/-- How one round of the loop in `receive_data` ends: with `break`, having set
`done` or not, or by going round again. -/
inductive Round where
  | leave (done : Bool)
  | again
  deriving DecidableEq, Repr

def oneKb : Int := 1024

/-- `buf[count] = '\0'` in `char buf[ONE_KB]` -/
def storeNul (count : Int) : Except Halt Unit :=
  if 0 ≤ count ∧ count < oneKb then .ok () else .error .outOfBounds

/-- One round of the `while (1)` of `receive_data`. -/
def receiveRound {σ : Type} (handleData : Handler σ) (r : RecvResult)
    (g : Option Groups) (s : σ) :
    Except Halt (Round × Option Groups × σ) := do
  storeNul r.count
  match r with
  | .again => .ok (.leave false, g, s)
  | .error => .ok (.leave true, g, s)
  | .eof => .ok (.leave true, g, s)
  | .data chunk => do
      let (_, w) ← handleClientMessage handleData chunk chunk.length g s
      .ok (.again, w.groups, w.state)

end Pyramid
