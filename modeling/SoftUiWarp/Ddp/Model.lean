import SoftUiWarp.Mpa.Model

/-!
# Model of the DDP layer (`suiw/ddp/ddp.cpp`)

Segmentation of tagged and untagged messages (`ddp_send_tagged`,
`ddp_send_untagged`), reception (`ddp_recv`), the untagged queues and the
registry of tagged buffers.

* `ddp_message` and `ddp_hdr_packed` are unions read through two layouts; the
  model keeps their bytes (`Buf`) and reads and writes the fields at their
  packed offsets.
* The two payload loops of `ddp_recv` differ in the header size, in the field
  they convert and in the destination; `SegKind` holds these three. The two
  send loops differ in the header bytes and in the offset they advance.
* Every segment's payload is stored through one `mpa_recv`. `Placement`
  records it: the header bytes the segment arrived with, the destination and
  the written bytes. The memory after `ddp_recv` is the memory before it with
  these stores made in order.
* `pd`, the buffer chain pointer `next` and `access_ctrl` are read by no
  modelled function and are left out, except that the protection domain
  identifier overlaps a pointer in the `ddp_message` union.
-/

namespace SoftUiWarp

open TcpStream ByteMem

/-! ## Constants and structs (`common/common.h`, `suiw/ddp/ddp.h`, `suiw/ddp/buffer.h`) -/

/-- `DDP_HDR_T = 1 << 7`. -/
def ddpHdrT : UInt8 := 0x80

/-- `DDP_FLAG_LAST = __cpu_to_be16(0x4000)`, which is `0x40` on the hosts modelled. -/
def ddpFlagLast : UInt8 := 0x40

def ddpCtrlSize : ℕ := 1

/-- `sizeof(struct ddp_tagged_meta)`. -/
def ddpTaggedHdrSize : ℕ := 13

/-- `sizeof(struct ddp_untagged_meta)`. -/
def ddpUntaggedHdrSize : ℕ := 17

/-- `ddp_is_tagged`. -/
def ddpIsTagged (bits : UInt8) : Bool := ddpHdrT &&& bits != 0

structure Sge where
  addr : UInt64
  length : UInt32
  lkey : UInt32
  deriving DecidableEq, Repr

structure DdpTaggedMeta where
  rsvdULP1 : UInt8
  tag : UInt32
  TO : UInt64
  deriving DecidableEq, Repr

structure DdpUntaggedMeta where
  rsvdULP1 : UInt8
  rsvdULP2 : UInt32
  qn : UInt32
  msn : UInt32
  mo : UInt32
  deriving DecidableEq, Repr

/-- The 13 bytes of the packed struct. -/
def DdpTaggedMeta.bytes (h : DdpTaggedMeta) : List UInt8 :=
  [h.rsvdULP1] ++ bytes32 h.tag ++ bytes64 h.TO

/-- The 17 bytes of the packed struct. -/
def DdpUntaggedMeta.bytes (h : DdpUntaggedMeta) : List UInt8 :=
  [h.rsvdULP1] ++ bytes32 h.rsvdULP2 ++ bytes32 h.qn ++ bytes32 h.msn ++ bytes32 h.mo

/-- The tagged layout of a header union that starts at offset `o`. -/
def taggedAt (b : Buf) (o : ℕ) : DdpTaggedMeta :=
  ⟨b o, word32 (b.bytes (o + 1) 4), word64 (b.bytes (o + 5) 8)⟩

/-- The untagged layout of a header union that starts at offset `o`. -/
def untaggedAt (b : Buf) (o : ℕ) : DdpUntaggedMeta :=
  ⟨b o, word32 (b.bytes (o + 1) 4), word32 (b.bytes (o + 5) 4), word32 (b.bytes (o + 9) 4),
    word32 (b.bytes (o + 13) 4)⟩

structure UntaggedBuffer where
  data : UInt64
  len : UInt32
  deriving DecidableEq, Repr

/-- `struct untagged_buffer_queue`; `msn` is initialised to 1. -/
structure UntaggedBufferQueue where
  q : List UntaggedBuffer
  msn : ℤ := 1
  deriving DecidableEq, Repr

/-- `struct stag_t`: the tag and the identifier of its protection domain. -/
structure StagT where
  tag : UInt32
  pdId : UInt32
  deriving DecidableEq, Repr

structure TaggedBuffer where
  stag : StagT
  data : UInt64
  len : UInt64
  deriving DecidableEq, Repr

/-- The union `untag_buf` / `tag_buf` of `struct ddp_message`, by the member
    written last. -/
inductive BufUnion
  | untag (b : UntaggedBuffer)
  | tag (b : TaggedBuffer)
  deriving DecidableEq, Repr

/-- Reading `untag_buf`. After a tagged message its pointer is the STag with
    the protection domain identifier above it, and its length the low half of
    the tagged buffer's address. -/
def BufUnion.untagBuf : BufUnion → UntaggedBuffer
  | .untag b => b
  | .tag b => ⟨b.stag.tag.toUInt64 ||| (b.stag.pdId.toUInt64 <<< 32), b.data.toUInt32⟩

/-- `struct ddp_message`; `hdrUnion` holds the bytes of the metadata union. -/
structure DdpMessage where
  hdr : UInt8
  hdrUnion : Buf
  buf : BufUnion
  len : ℤ

def DdpMessage.taggedMetadata (m : DdpMessage) : DdpTaggedMeta := taggedAt m.hdrUnion 0

def DdpMessage.untaggedMetadata (m : DdpMessage) : DdpUntaggedMeta := untaggedAt m.hdrUnion 0

/-- `struct ddp_stream_context`. -/
structure DdpCtx where
  inb : Inbound
  outb : Outbound
  queues : Fin 3 → UntaggedBufferQueue
  taggedBuffers : UInt32 → Option TaggedBuffer

/-! ## Sending -/

/-- The locals of a send loop: `hdr.bits`, the second header with its running
    offset, and the socket. -/
structure SendSt (σ : Type) where
  bits : UInt8
  hdr2 : σ
  out : Outbound

/-- How a send loop writes its second header and advances it past a segment. -/
structure SegHdr (σ : Type) where
  bytes : σ → List UInt8
  advance : σ → ℤ → σ

/-- The `while (remaining_bytes > 0)` loop over one sge (lines 82–102 and
    136–155). Every iteration sends at least one byte, so `remaining` steps
    of fuel are enough. -/
def sgeLoop {σ : Type} (H : SegHdr σ) (mem : Mem) (sg : Sge) (lastSge : Bool) :
    (fuel : ℕ) → (remaining : ℤ) → SendSt σ → ℤ × SendSt σ
  | 0, _, st => (0, st)
  | fuel + 1, remaining, st =>
    if remaining > 0 then
      let packetLen := if remaining > mulpdu then (mulpdu : ℤ) else remaining
      let bits := if lastSge ∧ packetLen = remaining then st.bits ||| ddpFlagLast else st.bits
      let addr := sg.addr + (sg.length - UInt32.ofInt remaining).toUInt64
      let (ret, out) := mpaSend st.out [[bits], H.bytes st.hdr2, mem.read addr packetLen.toNat]
      if ret < 0 then (ret, { st with bits := bits, out := out })
      else sgeLoop H mem sg lastSge fuel (remaining - packetLen)
        ⟨bits, H.advance st.hdr2 packetLen, out⟩
    else (0, st)

/-- `int remaining_bytes = sge_list[i].length`. -/
def remainingBytes (sg : Sge) : ℤ :=
  if sg.length.toNat < 2 ^ 31 then sg.length.toNat else sg.length.toNat - 2 ^ 32

/-- The `for` loop over the sge list (lines 75–103 and 130–156). -/
def sgeListLoop {σ : Type} (H : SegHdr σ) (mem : Mem) : List Sge → SendSt σ → ℤ × SendSt σ
  | [], st => (0, st)
  | sg :: sges, st =>
    let (ret, st) := sgeLoop H mem sg sges.isEmpty (remainingBytes sg).toNat (remainingBytes sg) st
    if ret < 0 then (ret, st) else sgeListLoop H mem sges st

/-- `hdr2` and `ho_TO` of `ddp_send_tagged`. -/
def taggedSegHdr : SegHdr (DdpTaggedMeta × UInt64) where
  bytes h := h.1.bytes
  advance h packetLen :=
    let hoTO := h.2 + UInt64.ofInt packetLen
    ({ h.1 with TO := htonll hoTO }, hoTO)

/-- `hdr2` of `ddp_send_untagged`; `hdr2.mo += packet_len` (line 153). -/
def untaggedSegHdr : SegHdr DdpUntaggedMeta where
  bytes h := h.bytes
  advance h packetLen := { h with mo := h.mo + UInt32.ofInt packetLen }

/-- `ddp_send_tagged` (lines 54–106). -/
def ddpSendTagged (out : Outbound) (mem : Mem) (nextHdr : DdpTaggedMeta) (sgeList : List Sge) :
    ℤ × Outbound :=
  let r := sgeListLoop taggedSegHdr mem sgeList
    ⟨0 ||| ddpHdrT ||| 1, (nextHdr, ntohll nextHdr.TO), out⟩
  (r.1, r.2.out)

/-- `ddp_send_untagged` (lines 109–159). -/
def ddpSendUntagged (out : Outbound) (mem : Mem) (nextHdr : DdpUntaggedMeta)
    (sgeList : List Sge) : ℤ × Outbound :=
  let r := sgeListLoop untaggedSegHdr mem sgeList ⟨0 ||| 1, { nextHdr with mo := 0 }, out⟩
  (r.1, r.2.out)

/-! ## Buffers -/

/-- `ddp_init_stream` (lines 31–43). -/
def ddpInitStream (inb : Inbound) (outb : Outbound) : DdpCtx :=
  ⟨inb, outb, fun _ => { q := [] }, fun _ => none⟩

/-- `ddp_post_recv` (lines 161–170). -/
def ddpPostRecv (ctx : DdpCtx) (qn : ℤ) (bufs : List UntaggedBuffer) : DdpCtx :=
  if h : 0 ≤ qn ∧ qn < 3 then
    let i : Fin 3 := ⟨qn.toNat, by omega⟩
    { ctx with
      queues := Function.update ctx.queues i
        { ctx.queues i with q := (ctx.queues i).q ++ bufs } }
  else ctx

/-- `register_tagged_buffer` (lines 358–364): the STag is the low half of the
    buffer's address. -/
def registerTaggedBuffer (ctx : DdpCtx) (buf : TaggedBuffer) : DdpCtx × TaggedBuffer :=
  let buf := { buf with stag := { buf.stag with tag := buf.data.toUInt32 } }
  ({ ctx with taggedBuffers := Function.update ctx.taggedBuffers buf.stag.tag (some buf) }, buf)

/-- `deregister_tagged_buffer` (lines 366–370): the number of erased entries. -/
def deregisterTaggedBuffer (ctx : DdpCtx) (tag : UInt32) : ℤ × DdpCtx :=
  (if (ctx.taggedBuffers tag).isSome then 1 else 0,
    { ctx with taggedBuffers := Function.update ctx.taggedBuffers tag none })

/-- `ddp_check_stag` (lines 373–389); `data + len` is computed modulo `2 ^ 64`. -/
def ddpCheckStag (tags : UInt32 → Option TaggedBuffer) (hdr : DdpTaggedMeta) :
    Option TaggedBuffer :=
  match tags hdr.tag with
  | none => none
  | some b => if b.data > hdr.TO ∨ b.data + b.len < hdr.TO then none else some b

/-- `ddp_check_untagged_hdr` (lines 172–194). The queue's `int msn` is
    converted to `uint32_t` for the comparison. -/
def ddpCheckUntaggedHdr (queues : Fin 3 → UntaggedBufferQueue) (hdr : DdpUntaggedMeta) :
    Option (Fin 3) :=
  if h : hdr.qn.toNat < 3 then
    let qn : Fin 3 := ⟨hdr.qn.toNat, h⟩
    if UInt32.ofInt (queues qn).msn > hdr.msn then none else some qn
  else none

/-! ## Receiving -/

/-- One segment's payload as `mpa_recv` stored it: the header bytes received
    with the segment, the destination, and the bytes with their offsets. -/
structure Placement where
  raw : List UInt8
  dest : UInt64
  writes : List (UInt8 × ℕ)
  deriving DecidableEq, Repr

/-- The single-byte stores of a placement. -/
def Placement.stores (p : Placement) : List (UInt64 × UInt8) :=
  p.writes.map fun w => (p.dest + UInt64.ofNat w.2, w.1)

/-- What the payload loop of `ddp_recv` starts each round with: the packet,
    `mpa_payload_len`, `packed_hdr`, and the header bytes received. -/
structure SegCtx where
  info : MpaPacket
  payloadLen : ℤ
  packed : Buf
  raw : List UInt8

/-- The differences between the tagged and the untagged payload loop: the
    header size, the conversion of the packed header to host order, and the
    destination. -/
structure SegKind where
  hdrSize : ℕ
  ntoh : Buf → Buf
  dest : Buf → UInt64

/-- Lines 257, 271–276: `packed_hdr.tagged_metadata.TO` sits at offset 6. -/
def taggedKind : SegKind where
  hdrSize := ddpCtrlSize + ddpTaggedHdrSize
  ntoh b := b.patch ((bytes64 (ntohll (taggedAt b 1).TO)).zipIdx 6)
  dest b := (taggedAt b 1).TO

/-- Lines 331, 342–347: `packed_hdr.untagged_metadata.mo` sits at offset 14. -/
def untaggedKind (data : UInt64) : SegKind where
  hdrSize := ddpCtrlSize + ddpUntaggedHdrSize
  ntoh b := b.patch ((bytes32 (ntohl (untaggedAt b 1).mo)).zipIdx 14)
  dest b := data + (untaggedAt b 1).mo.toUInt64

structure PayloadOut where
  ret : Ret
  len : ℤ
  inb : Inbound
  placed : List Placement

/-- The `while(true)` loops of `ddp_recv` (lines 254–278 and 328–349). A round
    that goes on has read an MPA header, so the number of pending bytes bounds
    the number of rounds. -/
def segLoop (K : SegKind) :
    (fuel : ℕ) → Inbound → SegCtx → (len : ℤ) → List Placement → PayloadOut
  | 0, inb, _, len, acc => ⟨.spin, len, inb, acc⟩
  | fuel + 1, inb, c, len, acc =>
    let o := mpaRecv inb c.info c.payloadLen
    let acc := acc ++ [⟨c.raw, K.dest c.packed, o.writes⟩]
    let len := len + c.payloadLen
    match o.ret with
    | .val r =>
      if r < 0 then ⟨.val (-1), len, o.inb, acc⟩
      else if c.packed 0 &&& ddpFlagLast ≠ 0 then ⟨.val 0, len, o.inb, acc⟩
      else
        let o2 := mpaRecv o.inb { o.info with bytesRcvd := 0 } K.hdrSize
        match o2.ret with
        | .val r =>
          if r < 0 then ⟨.val (-1), len, o2.inb, acc⟩
          else
            segLoop K fuel o2.inb
              ⟨o2.info, o2.info.ulpduLen.toNat - K.hdrSize, K.ntoh (c.packed.patch o2.writes),
                o2.writes.map Prod.fst⟩
              len acc
        | r => ⟨r, len, o2.inb, acc⟩
    | r => ⟨r, len, o.inb, acc⟩

/-- The state between the header and the payload of a message: either the
    call is over, or the payload loop follows. -/
structure HeadOut where
  next : Ret ⊕ SegCtx
  ctx : DdpCtx
  msg : DdpMessage

/-- `packed_hdr` before the loop: the control byte and the offset field, given
    as host-order bytes at their place. The other bytes are not initialised
    and never read. -/
def packedInit (bits : UInt8) (field : List UInt8) (o : ℕ) : Buf :=
  (Buf.patch (fun _ => 0) [(bits, 0)]).patch (field.zipIdx o)

/-- The tagged header (lines 218–253). -/
def ddpRecvTaggedHdr (ctx : DdpCtx) (msg : DdpMessage) (info : MpaPacket) : HeadOut :=
  let payloadLen : ℤ := info.ulpduLen.toNat - (ddpCtrlSize + ddpTaggedHdrSize : ℕ)
  if payloadLen < 0 then ⟨.inl (.val (-1)), ctx, msg⟩
  else
    let o := mpaRecv ctx.inb info ddpTaggedHdrSize
    let ctx := { ctx with inb := o.inb }
    let msg := { msg with hdrUnion := msg.hdrUnion.patch o.writes }
    match o.ret with
    | .val r =>
      if r < 0 then ⟨.inl (.val r), ctx, msg⟩
      else
        let tag := ntohl msg.taggedMetadata.tag
        let TO := ntohll msg.taggedMetadata.TO
        let msg := { msg with
          hdrUnion := (msg.hdrUnion.patch ((bytes32 tag).zipIdx 1)).patch ((bytes64 TO).zipIdx 5) }
        match ddpCheckStag ctx.taggedBuffers msg.taggedMetadata with
        | none => ⟨.inl (.val (-1)), ctx, msg⟩
        | some b =>
          ⟨.inr ⟨o.info, payloadLen, packedInit msg.hdr (bytes64 msg.taggedMetadata.TO) 6,
              msg.hdr :: o.writes.map Prod.fst⟩,
            ctx, { msg with buf := .tag b }⟩
    | r => ⟨.inl r, ctx, msg⟩

/-- `try_dequeue(msg->untag_buf)` on queue `qn` (lines 318–322): with an empty
    queue the code logs an error and goes on with whatever the union holds. -/
def tryDequeueBuf (ctx : DdpCtx) (qn : Fin 3) (msg : DdpMessage) : DdpCtx × DdpMessage :=
  match (ctx.queues qn).q with
  | [] => (ctx, msg)
  | b :: bs =>
    ({ ctx with queues := Function.update ctx.queues qn { ctx.queues qn with q := bs } },
      { msg with buf := .untag b })

/-- The untagged header and the buffer (lines 287–326). -/
def ddpRecvUntaggedHdr (ctx : DdpCtx) (msg : DdpMessage) (info : MpaPacket) : HeadOut :=
  let payloadLen : ℤ := info.ulpduLen.toNat - (ddpCtrlSize + ddpUntaggedHdrSize : ℕ)
  if payloadLen < 0 then ⟨.inl (.val (-1)), ctx, msg⟩
  else
    let o := mpaRecv ctx.inb info ddpUntaggedHdrSize
    let ctx := { ctx with inb := o.inb }
    let msg := { msg with hdrUnion := msg.hdrUnion.patch o.writes }
    match o.ret with
    | .val r =>
      if r < 0 then ⟨.inl (.val r), ctx, msg⟩
      else
        let h := msg.untaggedMetadata
        let msg := { msg with
          hdrUnion := ((msg.hdrUnion.patch ((bytes32 (ntohl h.mo)).zipIdx 13)).patch
            ((bytes32 (ntohl h.qn)).zipIdx 5)).patch ((bytes32 (ntohl h.msn)).zipIdx 9) }
        match ddpCheckUntaggedHdr ctx.queues msg.untaggedMetadata with
        | none => ⟨.inl (.val (-1)), ctx, msg⟩
        | some qn =>
          let (ctx, msg) := tryDequeueBuf ctx qn msg
          ⟨.inr ⟨o.info, payloadLen, packedInit msg.hdr (bytes32 msg.untaggedMetadata.mo) 14,
              msg.hdr :: o.writes.map Prod.fst⟩,
            ctx, msg⟩
    | r => ⟨.inl r, ctx, msg⟩

/-- `ddp_recv` up to the payload loop (lines 200–253 and 284–326). -/
def ddpRecvHead (ctx : DdpCtx) (msg : DdpMessage) : HeadOut :=
  let o := mpaRecv ctx.inb {} ddpCtrlSize
  let ctx := { ctx with inb := o.inb }
  let msg := { msg with hdr := Buf.patch (fun _ => msg.hdr) o.writes 0 }
  match o.ret with
  | .val r =>
    if r < ddpCtrlSize then ⟨.inl (.val r), ctx, msg⟩
    else if ddpIsTagged msg.hdr then ddpRecvTaggedHdr ctx msg o.info
    else ddpRecvUntaggedHdr ctx msg o.info
  | r => ⟨.inl r, ctx, msg⟩

/-- The payload loop a message's header selects. -/
def DdpMessage.kind (m : DdpMessage) : SegKind :=
  if ddpIsTagged m.hdr then taggedKind else untaggedKind m.buf.untagBuf.data

/-- The effect of `ddp_recv`. -/
structure DdpOut where
  ret : Ret
  ctx : DdpCtx
  mem : Mem
  msg : DdpMessage
  placed : List Placement

/-- The fields set at the end (lines 280, 351, 354). `orig_TO` is the value
    `tagged_metadata.TO` still has. -/
def DdpMessage.finish (m : DdpMessage) (len : ℤ) : DdpMessage :=
  if ddpIsTagged m.hdr then { m with len := len }
  else { m with hdrUnion := m.hdrUnion.patch ((bytes32 0).zipIdx 13), len := len }

/-- `ddp_recv` from the payload loop on (lines 247–281 and 324–355). -/
def ddpRecvPayload (ctx : DdpCtx) (mem : Mem) (msg : DdpMessage) (c : SegCtx) : DdpOut :=
  let p := segLoop msg.kind (ctx.inb.pending.length + 1) ctx.inb c 0 []
  let ctx := { ctx with inb := p.inb }
  let mem := mem.write (p.placed.flatMap Placement.stores)
  if p.ret = .val 0 then ⟨p.ret, ctx, mem, msg.finish p.len, p.placed⟩
  else ⟨p.ret, ctx, mem, msg, p.placed⟩

/-- `ddp_recv` (lines 198–356). -/
def ddpRecv (ctx : DdpCtx) (mem : Mem) (msg : DdpMessage) : DdpOut :=
  let h := ddpRecvHead ctx msg
  match h.next with
  | .inl r => ⟨r, h.ctx, mem, h.msg, []⟩
  | .inr c => ddpRecvPayload h.ctx mem h.msg c

end SoftUiWarp
