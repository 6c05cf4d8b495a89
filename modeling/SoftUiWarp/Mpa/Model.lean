import SoftUiWarp.Common.ByteOrder

/-!
# Model of the MPA layer (`suiw/mpa/mpa.cpp`)

`mpa_send` and `mpa_recv`, the two functions that put an upper layer's PDU on
the TCP stream and take it off again.

* A scatter entry of `mpa_send` is given by the bytes it points to when
  `sendmsg` reads them; its `length` is their number.
* `mpa_recv` writes through `info->ulpdu`, which points into a header struct
  or into application memory. The model returns the written bytes with their
  offsets from that pointer, and the caller applies them to the object the
  pointer designates.
* `info->crc` receives the padding and the CRC and is never read; the model
  drops those bytes.
* A call may not return: `recv` blocks when the peer is silent, and the payload
  loop spins when the stream ends inside a payload. `Ret` records which.
-/

namespace SoftUiWarp

open TcpStream ByteMem

/-! ## Constants (`suiw/mpa/mpa.h`) -/

def emss : ℕ := 65535

/-- `EMSS - (6 + 4 * (EMSS / 512 + 1) + EMSS % 4)`. -/
def mulpdu : ℕ := emss - (6 + 4 * (emss / 512 + 1) + emss % 4)

abbrev mpaHdrSize : ℤ := 2

abbrev mpaCrcSize : ℤ := 4

/-! ## Sending -/

/-- What one `sendmsg` call does: fail, or accept the given number of bytes. -/
inductive SendEvent
  | fail
  | accept (k : ℕ)
  deriving DecidableEq, Repr

/-- The sending side of the socket: the bytes TCP has accepted so far and the
    outcome of the next calls. Once `evs` is used up a call takes every byte. -/
structure Outbound where
  sent : List UInt8
  evs : List SendEvent
  deriving DecidableEq, Repr

/-- `sendmsg(sockfd, &msg, 0)` on an I/O vector whose content is `bs`. -/
def Outbound.sendmsg (o : Outbound) (bs : List UInt8) : ℤ × Outbound :=
  match o.evs with
  | [] => (bs.length, { o with sent := o.sent ++ bs })
  | .fail :: es => (-1, { o with evs := es })
  | .accept k :: es => (min k bs.length, { sent := o.sent ++ bs.take k, evs := es })

/-- The sum of the entry lengths in `__u16 len` (lines 224–228). -/
def ulpduLen (sgList : List (List UInt8)) : UInt16 :=
  sgList.foldl (fun len e => len + UInt16.ofNat e.length) 0

/-- The I/O vector of `mpa_send` (lines 236–265): length, ULPDU, padding, CRC. -/
def fpdu (sgList : List (List UInt8)) : List UInt8 :=
  let len := ulpduLen sgList
  bytes16 (htons len) ++ sgList.flatten ++ List.replicate ((len.toNat + 2) % 4) 0 ++ bytes32 0

/-- `mpa_send` (lines 214–282). -/
def mpaSend (o : Outbound) (sgList : List (List UInt8)) : ℤ × Outbound :=
  if (ulpduLen sgList).toNat > emss then (-1, o) else o.sendmsg (fpdu sgList)

/-! ## Receiving -/

/-- How a call ends: it returns a value, it blocks in `recv`, or it loops for ever. -/
inductive Ret
  | val (r : ℤ)
  | blocked
  | spin
  deriving DecidableEq, Repr

/-- `struct siw_mpa_packet`, without the target pointer and the CRC. -/
structure MpaPacket where
  ulpduLen : UInt16 := 0
  bytesRcvd : ℤ := 0
  deriving DecidableEq, Repr

/-- The effect of a call: how it ends, the packet, the stream, and the bytes
    written through `info->ulpdu` with their offsets. -/
structure MpaOut where
  ret : Ret
  info : MpaPacket
  inb : Inbound
  writes : List (UInt8 × ℕ)

/-- The conversion of an `int` to the `size_t` parameter of `recv`. -/
def toSize (x : ℤ) : ℕ := (x % 2 ^ 64).toNat

/-- The result of the payload loop. -/
structure LoopOut where
  ret : Ret
  inb : Inbound
  writes : List (UInt8 × ℕ)

/-- The loop of lines 331–334, `do { rcvd += recv(…, ulpdu + rcvd,
    num_bytes_to_read - rcvd, 0); if (rcvd <= 0) break; } while (rcvd <
    num_bytes_to_read)`, for at most `fuel` calls of `recv`. It ends with
    `rcvd`. -/
def payloadLoop (toRead : ℤ) :
    (fuel : ℕ) → Inbound → (rcvd : ℤ) → List (UInt8 × ℕ) → LoopOut
  | 0, inb, _, ws => ⟨.spin, inb, ws⟩
  | fuel + 1, inb, rcvd, ws =>
    match inb.recv (toSize (toRead - rcvd)) with
    | none => ⟨.blocked, inb, ws⟩
    | some (r, bs, inb) =>
      let ws := ws ++ bs.zipIdx rcvd.toNat
      let rcvd := rcvd + r
      if rcvd ≤ 0 then ⟨.val rcvd, inb, ws⟩
      else if rcvd < toRead then payloadLoop toRead fuel inb rcvd ws
      else ⟨.val rcvd, inb, ws⟩

/-- Padding and CRC (lines 344–366): two calls of `recv` that must each
    return everything. -/
def readTrailers (inb : Inbound) (info : MpaPacket) (ws : List (UInt8 × ℕ)) : MpaOut :=
  let paddingLen : ℤ := ((info.ulpduLen.toNat : ℤ) + mpaHdrSize) % 4
  match inb.recv (toSize paddingLen) with
  | none => ⟨.blocked, info, inb, ws⟩
  | some (rcvd, _, inb) =>
    if rcvd < paddingLen then ⟨.val (-1), info, inb, ws⟩
    else
      let info := { info with bytesRcvd := info.bytesRcvd + rcvd }
      match inb.recv (toSize mpaCrcSize) with
      | none => ⟨.blocked, info, inb, ws⟩
      | some (rcvd, _, inb) =>
        if rcvd ≠ mpaCrcSize then ⟨.val (-1), info, inb, ws⟩
        else
          let info := { info with bytesRcvd := info.bytesRcvd + rcvd }
          ⟨.val info.bytesRcvd, info, inb, ws⟩

/-- `mpa_recv` after the MPA header (lines 307–368). Every call of `recv` in
    the loop consumes a pending byte or a failure until the stream is used up,
    so a loop still going after `inb.size + 1` calls goes on for ever. -/
def mpaRecvBody (inb : Inbound) (info : MpaPacket) (numBytes : ℤ) : MpaOut :=
  let packetLen : ℤ := info.ulpduLen.toNat
  if packetLen ≤ 0 then ⟨.val (-2), info, inb, []⟩
  else
    let ulpduRemSize := packetLen - (info.bytesRcvd - mpaHdrSize)
    let toRead := if ulpduRemSize ≤ numBytes then ulpduRemSize else numBytes
    let l := payloadLoop toRead (inb.size + 2) inb 0 []
    match l.ret with
    | .val rcvd =>
      if rcvd ≠ toRead then ⟨.val (-1), info, l.inb, l.writes⟩
      else
        let info := { info with bytesRcvd := info.bytesRcvd + rcvd }
        if ulpduRemSize ≤ numBytes then readTrailers l.inb info l.writes
        else ⟨.val info.bytesRcvd, info, l.inb, l.writes⟩
    | r => ⟨r, info, l.inb, l.writes⟩

/-- The bytes of `info->ulpdu_len` after `bs` was received at offset `o` of it. -/
def patchLen (len : UInt16) (bs : List UInt8) (o : ℕ) : UInt16 :=
  word16 ((Buf.patch (fun i => (bytes16 len).getD i 0) (bs.zipIdx o)).bytes 0 2)

/-- `mpa_recv` (lines 284–369). The header is read only while fewer than two
    bytes of the packet have been received, with a single call of `recv`. -/
def mpaRecv (inb : Inbound) (info : MpaPacket) (numBytes : ℤ) : MpaOut :=
  if info.bytesRcvd < mpaHdrSize then
    match inb.recv (toSize (mpaHdrSize - info.bytesRcvd)) with
    | none => ⟨.blocked, info, inb, []⟩
    | some (rcvd, bs, inb) =>
      let len := patchLen info.ulpduLen bs info.bytesRcvd.toNat
      if rcvd < mpaHdrSize - info.bytesRcvd then ⟨.val (-1), { info with ulpduLen := len }, inb, []⟩
      else mpaRecvBody inb { ulpduLen := ntohs len, bytesRcvd := mpaHdrSize } numBytes
  else mpaRecvBody inb info numBytes

end SoftUiWarp
