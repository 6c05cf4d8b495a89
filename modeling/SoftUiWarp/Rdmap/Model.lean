import SoftUiWarp.Ddp.Model

/-!
# Model of the RDMAP layer (`suiw/rdmap/rdmap.cpp`)

The two threads of a stream, `rnic_recv` and `rnic_send`, as step functions on
the state they share, and the functions with which the application feeds their
queues.

* The queues are atomic FIFOs. Those of the source (`common/concurrentqueue.h`)
  keep the order of each producer only: on the send queue, to which both the
  application and `rnic_recv` add, the order between the two is theirs to
  choose. `Rdmap.Rounds` has this freedom.
* A step ends before the thread's next operation on shared data, so every
  interleaving of the threads' queue operations is an interleaving of steps. The
  exception is a thread at the head of its loop: the step takes in its check of
  `connected` with what follows. `Rdmap.Rounds` has the check as a step.
  `ddp_recv` is two steps, since the application can post a buffer between its
  `try_dequeue` and the end of the payload. Each send of a DDP message is one
  step.
* `sg_list` is a pointer that the queues copy. An application's array is given
  by its content; the read responses of `rnic_recv` all point to its local
  variable `sg`, and what they send is what `sg` holds when they are sent.
* The three `static __u32 msn` of `rnic_send` belong to the process, not to the
  stream.
* The variables `ddp_hdr` of `rnic_send` are not initialised; the fields that
  are not assigned come from a parameter of the step.
* `send_flags`, the work queue's number and the fields of `work_completion`
  that are only copied are left out. So is `recv_cq`, which `rnic_recv` loads
  and never uses, and the lookup of `src_tag`, whose result is only logged.
-/

namespace SoftUiWarp

open TcpStream ByteMem

/-! ## Enumerations and structs (`common/common.h`, `common/cq.h`, `rdmap_structs.h`) -/

/-- `enum rdma_opcode`. -/
inductive RdmaOpcode
  | rdmaWrite
  | rdmaReadReq
  | rdmaReadResp
  | send
  | sendInval
  | sendSe
  | sendSeInval
  | terminate
  | notSupported
  deriving DecidableEq, Repr

def RdmaOpcode.code : RdmaOpcode → UInt8
  | .rdmaWrite => 0
  | .rdmaReadReq => 1
  | .rdmaReadResp => 2
  | .send => 3
  | .sendInval => 4
  | .sendSe => 5
  | .sendSeInval => 6
  | .terminate => 7
  | .notSupported => 8

/-- The case of the switch in `rnic_recv` that a value of `opcode` selects. -/
def RdmaOpcode.ofCode : UInt8 → Option RdmaOpcode
  | 0 => some .rdmaWrite
  | 1 => some .rdmaReadReq
  | 2 => some .rdmaReadResp
  | 3 => some .send
  | 4 => some .sendInval
  | 5 => some .sendSe
  | 6 => some .sendSeInval
  | 7 => some .terminate
  | _ => none

/-- `get_rdmap_op`. -/
def getRdmapOp (bits : UInt8) : UInt8 := bits &&& 0xF

/-- The two values of `enum wc_status` in use. -/
inductive WcStatus
  | success
  | fatalErr
  deriving DecidableEq, Repr

/-- `enum wc_opcode`; `unnamed` is a value without an enumerator. -/
inductive WcOpcode
  | write
  | readRequest
  | readResponse
  | send
  | sendInvalidate
  | sendSolicit
  | sendSolicitInvalidate
  | terminate
  | recv
  | unnamed (code : UInt8)
  deriving DecidableEq, Repr

/-- The cast from `rdma_opcode` to `wc_opcode`. -/
def RdmaOpcode.toWc : RdmaOpcode → WcOpcode
  | .rdmaWrite => .write
  | .rdmaReadReq => .readRequest
  | .rdmaReadResp => .readResponse
  | .send => .send
  | .sendInval => .sendInvalidate
  | .sendSe => .sendSolicit
  | .sendSeInval => .sendSolicitInvalidate
  | .terminate => .terminate
  | .notSupported => .unnamed 8

structure WorkCompletion where
  wrId : UInt64
  status : WcStatus
  opcode : WcOpcode
  byteLen : UInt32
  deriving DecidableEq, Repr

/-- What `sg_list` points to: an array of the application or the variable `sg`
    of `rnic_recv`. -/
inductive SgList
  | user (sges : List Sge)
  | recvSg
  deriving DecidableEq, Repr

structure SendWr where
  wrId : UInt64
  sgList : SgList
  opcode : RdmaOpcode
  invalidateRkey : UInt32
  remoteAddr : UInt64
  rkey : UInt32
  deriving DecidableEq, Repr

structure RecvWr where
  wrId : UInt64
  sgList : List Sge
  deriving DecidableEq, Repr

structure Cq where
  q : List WorkCompletion
  pendingQ : List WorkCompletion
  deriving DecidableEq, Repr

structure ReadReqFields where
  sinkTag : UInt32
  sinkTO : UInt64
  rdmaRdSz : UInt32
  srcTag : UInt32
  srcTO : UInt64
  deriving DecidableEq, Repr

/-- `sizeof(struct rdmap_read_req_fields)`. -/
def readReqFieldsSize : ℕ := 28

/-- The bytes of the packed struct. -/
def ReadReqFields.bytes (f : ReadReqFields) : List UInt8 :=
  bytes32 f.sinkTag ++ bytes64 f.sinkTO ++ bytes32 f.rdmaRdSz ++ bytes32 f.srcTag ++ bytes64 f.srcTO

/-- The struct at address `a`. -/
def readReqAt (mem : Mem) (a : UInt64) : ReadReqFields :=
  ⟨word32 (mem.read a 4), word64 (mem.read (a + 4) 8), word32 (mem.read (a + 12) 4),
    word32 (mem.read (a + 16) 4), word64 (mem.read (a + 20) 8)⟩

/-- The conversion of lines 85–89. -/
def ReadReqFields.swizzle (f : ReadReqFields) : ReadReqFields :=
  ⟨ntohl f.sinkTag, ntohll f.sinkTO, ntohl f.rdmaRdSz, ntohl f.srcTag, ntohll f.srcTO⟩

def sendQn : UInt32 := 0

def readQn : UInt32 := 1

/-- `RPING` and `NDEBUG`. -/
structure Build where
  rping : Bool
  ndebug : Bool
  deriving DecidableEq, Repr

/-! ## The state of a stream -/

/-- Where `rnic_recv` is. -/
inductive RecvPc
  /-- At the top of the loop. -/
  | idle
  /-- In `ddp_recv`, before the payload loop. -/
  | payload (c : SegCtx)
  /-- `ddp_recv` has returned `ret`, the switch follows. -/
  | dispatch (ret : ℤ)
  /-- `sg` and `read_resp` are filled, `sq->enqueue(read_resp)` follows. -/
  | enqResp
  /-- `ddp_post_recv(ctx->ddp_ctx, READ_QN, &ddp_message.untag_buf, 1)` follows. -/
  | repost
  /-- `cq->enqueue(wce)` of a read (line 135) follows. -/
  | enqRead (wce : WorkCompletion)
  /-- `cq->enqueue(wce)` of a receive (line 164) follows. -/
  | enqRecv (wce : WorkCompletion)
  /-- A call of `recv` blocks, or the payload loop spins, for ever. -/
  | stuck
  /-- The thread has returned. -/
  | exited (ret : ℤ)
  /-- An assertion has failed. -/
  | aborted

/-- Where `rnic_send` is. -/
inductive SendPc
  /-- At the top of the loop. -/
  | idle
  /-- `req` is dequeued. -/
  | transmit (req : SendWr)
  /-- The message of `req` is sent, the completion follows. -/
  | complete (req : SendWr) (ret : ℤ)
  | exited
  deriving DecidableEq, Repr

/-- `struct rdmap_stream_context` with what it points to, and the local
    variables of the two threads. -/
structure Ep where
  mem : Mem
  ddp : DdpCtx
  connected : Bool
  sq : List SendWr
  rq : List RecvWr
  /-- The completion queues of the process, and the one of each work queue. -/
  cqs : ℕ → Cq
  sendCq : ℕ
  recvCq : ℕ
  recvPc : RecvPc
  msg : DdpMessage
  sg : Sge
  readResp : SendWr
  sendPc : SendPc

/-- The three static counters of `rnic_send`. -/
structure Statics where
  sendMsn : UInt32 := 1
  invalMsn : UInt32 := 1
  readMsn : UInt32 := 1
  deriving DecidableEq, Repr

/-- `cq->q` of `send_q->cq`, the only completion queue either thread uses. -/
def Ep.cq (ep : Ep) : List WorkCompletion := (ep.cqs ep.sendCq).q

/-- `pending_cq`. -/
def Ep.pendingCq (ep : Ep) : List WorkCompletion := (ep.cqs ep.sendCq).pendingQ

/-- `cq->enqueue(wce)`. -/
def Ep.enqCq (ep : Ep) (wce : WorkCompletion) : Ep :=
  { ep with
    cqs := Function.update ep.cqs ep.sendCq
      { ep.cqs ep.sendCq with q := (ep.cqs ep.sendCq).q ++ [wce] } }

/-- `pending_cq->enqueue(wce)`. -/
def Ep.enqPending (ep : Ep) (wce : WorkCompletion) : Ep :=
  { ep with
    cqs := Function.update ep.cqs ep.sendCq
      { ep.cqs ep.sendCq with pendingQ := (ep.cqs ep.sendCq).pendingQ ++ [wce] } }

/-- The scatter list a request points to, as it is now. -/
def Ep.sges (ep : Ep) (req : SendWr) : List Sge :=
  match req.sgList with
  | .user sges => sges
  | .recvSg => [ep.sg]

/-! ## `rnic_recv` -/

/-- The memory when the fields of a read request are used (lines 82–90): they
    are converted in the buffer if `RPING` is defined. -/
def Ep.reqMem (bld : Build) (ep : Ep) : Mem :=
  let data := ep.msg.buf.untagBuf.data
  if bld.rping then ep.mem.write (stores data (readReqAt ep.mem data).swizzle.bytes) else ep.mem

/-- `*read_req` as it is then. -/
def Ep.readReq (bld : Build) (ep : Ep) : ReadReqFields :=
  readReqAt (ep.reqMem bld) ep.msg.buf.untagBuf.data

/-- A read request (lines 79–109): `sg` and `read_resp` are filled. -/
def Ep.fillResp (bld : Build) (ep : Ep) : Ep :=
  let readReq := ep.readReq bld
  { ep with
    mem := ep.reqMem bld
    sg := ⟨readReq.srcTO, readReq.rdmaRdSz, readReq.srcTag⟩
    readResp := { ep.readResp with rkey := readReq.sinkTag, remoteAddr := readReq.sinkTO }
    recvPc := .enqResp }

/-- A read response (lines 123–137): `pending_cq->try_dequeue(wce)`. -/
def Ep.takePending (ep : Ep) (ret : ℤ) : Ep :=
  match (ep.cqs ep.sendCq).pendingQ with
  | [] => { ep with recvPc := .idle }
  | wce :: pending =>
    { ep with
      cqs := Function.update ep.cqs ep.sendCq { ep.cqs ep.sendCq with pendingQ := pending }
      recvPc := .enqRead { wce with byteLen := UInt32.ofInt ret } }

/-- A send (lines 151–166): `rq->try_dequeue(wr)`. -/
def Ep.takeRecv (ep : Ep) (op : RdmaOpcode) (ret : ℤ) : Ep :=
  match ep.rq with
  | [] => { ep with recvPc := .idle }
  | wr :: rq =>
    { ep with rq := rq, recvPc := .enqRecv ⟨wr.wrId, .success, op.toWc, UInt32.ofInt ret⟩ }

/-- `assert(cond)`, then `next`. -/
def Ep.assertThen (bld : Build) (ep : Ep) (cond : Bool) (next : Ep) : Ep :=
  if bld.ndebug ∨ cond then next else { ep with recvPc := .aborted }

/-- The case of the two sends (lines 151–166), with its assertion. -/
def Ep.recvSend (bld : Build) (ep : Ep) (op : RdmaOpcode) (ret : ℤ) : Ep :=
  ep.assertThen bld (!ddpIsTagged ep.msg.hdr) (ep.takeRecv op ret)

/-- The sends with invalidate (lines 138–150), which fall through to the send.
    The STag is taken from `tagged_metadata.rsvdULP1`. -/
def Ep.recvSendInval (bld : Build) (ep : Ep) (op : RdmaOpcode) (ret : ℤ) : Ep :=
  let (erased, ddp) := deregisterTaggedBuffer ep.ddp ep.msg.taggedMetadata.rsvdULP1.toUInt32
  let ep := { ep with ddp := ddp }
  if erased ≤ 0 then { ep with recvPc := .exited (-1) } else ep.recvSend bld op ret

/-- The value of `opcode` (lines 69–70): the byte after the DDP control byte. -/
def Ep.opcode (ep : Ep) : Option RdmaOpcode := RdmaOpcode.ofCode (getRdmapOp (ep.msg.hdrUnion 0))

/-- The switch on the opcode (lines 71–173). -/
def Ep.dispatch (bld : Build) (ep : Ep) (ret : ℤ) : Ep :=
  let tagged := ddpIsTagged ep.msg.hdr
  match ep.opcode with
  | some .rdmaWrite => ep.assertThen bld tagged { ep with recvPc := .idle }
  | some .rdmaReadReq => ep.assertThen bld (!tagged) (ep.fillResp bld)
  | some .rdmaReadResp => ep.assertThen bld tagged (ep.takePending ret)
  | some .sendSeInval => ep.recvSendInval bld .sendSeInval ret
  | some .sendInval => ep.recvSendInval bld .sendInval ret
  | some .sendSe => ep.recvSend bld .sendSe ret
  | some .send => ep.recvSend bld .send ret
  | some .terminate => ep.assertThen bld (!tagged) { ep with connected := false, recvPc := .idle }
  | some .notSupported | none => { ep with recvPc := .idle }

/-- How the thread goes on when `ddp_recv` has ended (lines 63–68). -/
def RecvPc.ofRet : Ret → RecvPc
  | .val r => if r < 0 then .exited (-1) else .dispatch r
  | .blocked => .stuck
  | .spin => .stuck

/-- One step of `rnic_recv` (lines 36–179). -/
def rnicRecvStep (bld : Build) (ep : Ep) : Ep :=
  match ep.recvPc with
  | .idle =>
    if ep.connected then
      let h := ddpRecvHead ep.ddp ep.msg
      { ep with
        ddp := h.ctx
        msg := h.msg
        recvPc := match h.next with
          | .inl r => .ofRet r
          | .inr c => .payload c }
    else { ep with recvPc := .exited 0 }
  | .payload c =>
    let r := ddpRecvPayload ep.ddp ep.mem ep.msg c
    { ep with ddp := r.ctx, mem := r.mem, msg := r.msg, recvPc := .ofRet r.ret }
  | .dispatch ret => ep.dispatch bld ret
  | .enqResp =>
    { ep with
      sq := ep.sq ++ [ep.readResp]
      readResp := { ep.readResp with wrId := ep.readResp.wrId + 1 }
      recvPc := .repost }
  | .repost => { ep with ddp := ddpPostRecv ep.ddp readQn.toNat [ep.msg.buf.untagBuf], recvPc := .idle }
  | .enqRead wce => { ep.enqCq wce with recvPc := .idle }
  | .enqRecv wce => { ep.enqCq wce with recvPc := .idle }
  | .stuck => ep
  | .exited _ => ep
  | .aborted => ep

/-! ## `rnic_send` -/

/-- `rdma_hdr = (1 << 6) | req.opcode`. -/
def rdmaHdr (op : RdmaOpcode) : UInt8 := 0x40 ||| op.code

/-- What a request does up to its completion: the static counters, the socket,
    and the value of `ret` if a completion follows. -/
structure TransmitOut where
  statics : Statics
  out : Outbound
  ret : Option ℤ

/-- The memory that holds the struct `fields`, at address 0 (line 267). -/
def ReadReqFields.onStack (f : ReadReqFields) : Mem := ⟨fun a => f.bytes.getD a.toNat 0, []⟩

/-- The cases of the switch up to the completion (lines 199–335); `junk` is
    the uninitialised `ddp_hdr`. -/
def Ep.transmit (junk : DdpUntaggedMeta) (st : Statics) (ep : Ep) (req : SendWr) : TransmitOut :=
  let rsvdULP1 := rdmaHdr req.opcode
  let sges := ep.sges req
  match req.opcode with
  | .sendSe | .send =>
    let h := { junk with rsvdULP1 := rsvdULP1, qn := htonl sendQn, msn := htonl st.sendMsn }
    let r := ddpSendUntagged ep.ddp.outb ep.mem h sges
    ⟨{ st with sendMsn := st.sendMsn + 1 }, r.2, some r.1⟩
  | .sendSeInval | .sendInval =>
    let h := { junk with rsvdULP1 := rsvdULP1, rsvdULP2 := htonl req.invalidateRkey,
                         qn := htonl sendQn, msn := htonl st.invalMsn }
    let r := ddpSendUntagged ep.ddp.outb ep.mem h sges
    ⟨{ st with invalMsn := st.invalMsn + 1 }, r.2, some r.1⟩
  | .rdmaReadReq =>
    let h := { junk with rsvdULP1 := rsvdULP1, qn := htonl readQn, msn := htonl st.readMsn }
    let st := { st with readMsn := st.readMsn + 1 }
    match sges with
    | [sg] =>
      let fields : ReadReqFields := ⟨sg.lkey, sg.addr, sg.length, req.rkey, req.remoteAddr⟩
      let r := ddpSendUntagged ep.ddp.outb fields.onStack h
        [⟨0, UInt32.ofNat readReqFieldsSize, 0⟩]
      ⟨st, r.2, some r.1⟩
    | _ => ⟨st, ep.ddp.outb, none⟩
  | .rdmaWrite =>
    let r := ddpSendTagged ep.ddp.outb ep.mem ⟨rsvdULP1, htonl req.rkey, htonll req.remoteAddr⟩ sges
    ⟨st, r.2, some r.1⟩
  | .rdmaReadResp =>
    let r := ddpSendTagged ep.ddp.outb ep.mem ⟨rsvdULP1, htonl req.rkey, htonll req.remoteAddr⟩ sges
    ⟨st, r.2, none⟩
  | .terminate | .notSupported => ⟨st, ep.ddp.outb, none⟩

/-- `send_wr_to_wce` and the assignments to `wce` after it. -/
def sendWrToWce (req : SendWr) (ret : ℤ) : WorkCompletion :=
  ⟨req.wrId, if ret < 0 then .fatalErr else .success, req.opcode.toWc, UInt32.ofInt ret⟩

/-- The completion of a request: a read that was sent goes to `pending_cq`. -/
def Ep.complete (ep : Ep) (req : SendWr) (ret : ℤ) : Ep :=
  let wce := sendWrToWce req ret
  if req.opcode = .rdmaReadReq ∧ ¬ret < 0 then ep.enqPending wce else ep.enqCq wce

/-- One step of `rnic_send` (lines 183–340). -/
def rnicSendStep (junk : DdpUntaggedMeta) (st : Statics) (ep : Ep) : Statics × Ep :=
  match ep.sendPc with
  | .idle =>
    if ep.connected then
      match ep.sq with
      | [] => (st, ep)
      | req :: sq => (st, { ep with sq := sq, sendPc := .transmit req })
    else (st, { ep with sendPc := .exited })
  | .transmit req =>
    let t := ep.transmit junk st req
    (t.statics, { ep with
      ddp := { ep.ddp with outb := t.out }
      sendPc := match t.ret with
        | some ret => .complete req ret
        | none => .idle })
  | .complete req ret => (st, { ep.complete req ret with sendPc := .idle })
  | .exited => (st, ep)

/-! ## The application's calls -/

/-- `rdmap_send`, `rdmap_write` and `rdmap_read` (lines 401–416). -/
def rdmapPost (ep : Ep) (wr : SendWr) : Ep := { ep with sq := ep.sq ++ [wr] }

/-- The untagged buffer of an sge (lines 431–432). -/
def Sge.toBuffer (sg : Sge) : UntaggedBuffer := ⟨sg.addr, sg.length⟩

/-- The first queue operation of `rdma_post_recv` (lines 427–435). -/
def postRecvBuffers (ep : Ep) (wr : RecvWr) : Ep :=
  { ep with ddp := ddpPostRecv ep.ddp sendQn.toNat (wr.sgList.map Sge.toBuffer) }

/-- The second queue operation of `rdma_post_recv` (line 438). -/
def postRecvWr (ep : Ep) (wr : RecvWr) : Ep := { ep with rq := ep.rq ++ [wr] }

/-- `rdma_post_recv` (lines 425–441). -/
def rdmaPostRecv (ep : Ep) (wr : RecvWr) : Ep := postRecvWr (postRecvBuffers ep wr) wr

/-- `rdma_register` (lines 443–446). -/
def rdmaRegister (ep : Ep) (buf : TaggedBuffer) : Ep :=
  { ep with ddp := (registerTaggedBuffer ep.ddp buf).1 }

/-- `rdma_invalidate` (lines 447–450). -/
def rdmaInvalidate (ep : Ep) (tag : UInt32) : Ep :=
  { ep with ddp := (deregisterTaggedBuffer ep.ddp tag).2 }

/-- `rdmap_init_stream` (lines 344–382) with new work queues, and the first
    assignments of `rnic_recv` (lines 56–59). The read request buffers are at
    the addresses `bufs`; `msg` and `sg` are the variables `rnic_recv` does not
    initialise. -/
def rdmapInitStream (mem : Mem) (inb : Inbound) (outb : Outbound) (sendCq recvCq : ℕ)
    (bufs : List UInt64) (msg : DdpMessage) (sg : Sge) : Ep where
  mem := mem
  ddp := bufs.foldl (fun ctx a => ddpPostRecv ctx readQn.toNat [⟨a, UInt32.ofNat readReqFieldsSize⟩])
    (ddpInitStream inb outb)
  connected := true
  sq := []
  rq := []
  cqs := fun _ => ⟨[], []⟩
  sendCq := sendCq
  recvCq := recvCq
  recvPc := .idle
  msg := msg
  sg := sg
  readResp := ⟨1001, .recvSg, .rdmaReadResp, 0, 0, 0⟩
  sendPc := .idle

end SoftUiWarp
