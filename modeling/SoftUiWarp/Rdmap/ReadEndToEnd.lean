import SoftUiWarp.Rdmap.Delivery
import SoftUiWarp.Rdmap.ReadAccess

/-!
# Reads from end to end

A read crosses the connection twice: the request is an untagged message of one
segment for queue 1, the response a tagged message of as many segments as it
needs. Two hosts run one read after another, each thread to completion before
the next moves, and between two reads the applications store into their memory
and change their registries.

Results:
* `rnicSend_read`, `rnicRecv_readReq`, `rnicSend_readResp`, `rnicRecv_readResp`:
  the whole effect of the four parts of a read.
* `reads_end_to_end`: every read of a sequence copies the bytes it names,
  completes once, and gives its buffer back.
-/

namespace SoftUiWarp

open TcpStream ByteMem

/-! ## The fields of a request in memory -/

@[simp] theorem ReadReqFields.length_bytes (f : ReadReqFields) : f.bytes.length = 28 := by
  simp [ReadReqFields.bytes]

/-- The struct is read back from its bytes. -/
theorem readReqAt_of_read {m : Mem} {a : UInt64} {f : ReadReqFields}
    (h : m.read a 28 = f.bytes) : readReqAt m a = f := by
  have hsplit : m.read a 28 = m.read a 4 ++ m.read (a + 4) 8 ++ m.read (a + 12) 4 ++
      m.read (a + 16) 4 ++ m.read (a + 20) 8 := by
    rw [show 28 = 4 + 8 + 4 + 4 + 8 by rfl]
    simp only [Mem.read_add]
    rfl
  rw [hsplit, ReadReqFields.bytes] at h
  obtain ⟨h, h5⟩ := List.append_inj' h (by simp)
  obtain ⟨h, h4⟩ := List.append_inj' h (by simp)
  obtain ⟨h, h3⟩ := List.append_inj' h (by simp)
  obtain ⟨h1, h2⟩ := List.append_inj' h (by simp)
  rw [readReqAt, h1, h2, h3, h4, h5]
  simp only [word32_bytes32, word64_bytes64]

/-- What the sge of line 267 designates. -/
theorem ReadReqFields.content_onStack (f : ReadReqFields) :
    Sge.content ⟨0, UInt32.ofNat readReqFieldsSize, 0⟩ f.onStack = f.bytes := by
  have hn : (UInt32.ofNat readReqFieldsSize).toNat = 28 := by rfl
  rw [Sge.content, hn]
  apply List.ext_getElem
  · simp
  · intro i h1 h2
    have hlt : i < 28 := by simpa using h1
    have hi : (UInt64.ofNat i).toNat = i := UInt64.toNat_ofNat_of_lt (hlt.trans (by decide))
    simp only [Mem.read, List.getElem_map, List.getElem_range, zero_add]
    change f.bytes.getD (UInt64.ofNat i).toNat 0 = _
    rw [hi, List.getD_eq_getElem _ _ h2]

/-! ## Streams at rest -/

/-- `rnic_recv` is at the top of its loop and has read all that has arrived. -/
structure Listening (ep : Ep) : Prop where
  recvPc : ep.recvPc = .idle
  connected : ep.connected = true
  failFree : ep.ddp.inb.FailFree
  ready : ∀ p, 4 ≤ ep.ddp.inb.ready p
  pending : ep.ddp.inb.pending = []

/-- Both threads are at the top of their loops, nothing is queued or on its
    way, and the responses of the reads `waits` are to come. -/
structure Quiet (waits : List WorkCompletion) (ep : Ep) : Prop extends Listening ep where
  sendPc : ep.sendPc = .idle
  sq : ep.sq = []
  pendingCq : ep.pendingCq = waits
  evs : ep.ddp.outb.evs = []
  msn : (ep.ddp.queues 1).msn = 1
  opcode : ep.readResp.opcode = .rdmaReadResp
  list : ep.readResp.sgList = .recvSg

theorem readQn_lt : readQn.toNat < 3 := by decide

/-- The buffers for read requests. -/
def Ep.readPool (ep : Ep) : List UntaggedBuffer := (ep.ddp.queues ⟨readQn.toNat, readQn_lt⟩).q

theorem Ep.readPool_eq (ep : Ep) : ep.readPool = (ep.ddp.queues 1).q := rfl

/-- The bytes `bs` arrive. -/
def Ep.deliver (ep : Ep) (bs : List UInt8) : Ep :=
  { ep with ddp := { ep.ddp with inb := { ep.ddp.inb with pending := ep.ddp.inb.pending ++ bs } } }

/-- The bytes sent between two states. -/
def Ep.sentSince (ep ep' : Ep) : List UInt8 := ep'.ddp.outb.sent.drop ep.ddp.outb.sent.length

section

variable {ep : Ep}

theorem Listening.deliver_pending (h : Listening ep) (bs : List UInt8) :
    (ep.deliver bs).ddp.inb.pending = bs := by
  simp [Ep.deliver, h.pending]

theorem postReadBuffers_readQueue (bufs : List UInt64) (ctx : DdpCtx) :
    (bufs.foldl (fun ctx a => ddpPostRecv ctx readQn.toNat [⟨a, UInt32.ofNat readReqFieldsSize⟩])
      ctx).queues 1 = { ctx.queues 1 with
        q := (ctx.queues 1).q ++ bufs.map fun a => ⟨a, UInt32.ofNat readReqFieldsSize⟩ } := by
  induction bufs generalizing ctx with
  | nil => simp
  | cons a bufs ih =>
    rw [List.foldl_cons, ih, List.map_cons, List.append_cons]
    rfl

theorem postReadBuffers_sockets (bufs : List UInt64) (ctx : DdpCtx) :
    (bufs.foldl (fun ctx a => ddpPostRecv ctx readQn.toNat [⟨a, UInt32.ofNat readReqFieldsSize⟩])
        ctx).inb = ctx.inb ∧
      (bufs.foldl (fun ctx a => ddpPostRecv ctx readQn.toNat [⟨a, UInt32.ofNat readReqFieldsSize⟩])
        ctx).outb = ctx.outb := by
  induction bufs generalizing ctx with
  | nil => exact ⟨rfl, rfl⟩
  | cons a bufs ih => exact ih _

/-- A new stream is at rest. -/
theorem quiet_init (mem : Mem) {inb : Inbound} {outb : Outbound} (sendCq recvCq : ℕ)
    (bufs : List UInt64) (msg : DdpMessage) (sg : Sge) (hp : inb.pending = [])
    (hf : inb.FailFree) (hr : ∀ p, 4 ≤ inb.ready p) (he : outb.evs = []) :
    Quiet [] (rdmapInitStream mem inb outb sendCq recvCq bufs msg sg) := by
  obtain ⟨ep, hep⟩ : ∃ ep, ep = rdmapInitStream mem inb outb sendCq recvCq bufs msg sg := ⟨_, rfl⟩
  have hin : ep.ddp.inb = inb := by rw [hep]; exact (postReadBuffers_sockets bufs _).1
  have hout : ep.ddp.outb = outb := by rw [hep]; exact (postReadBuffers_sockets bufs _).2
  have hmsn : (ep.ddp.queues 1).msn = 1 := by
    rw [hep]
    exact congrArg UntaggedBufferQueue.msn (postReadBuffers_readQueue bufs _)
  rw [← hep]
  have hlisten : Listening ep := by
    constructor
    case failFree => rw [hin]; exact hf
    case ready => rw [hin]; exact hr
    case pending => rw [hin]; exact hp
    all_goals rw [hep]; rfl
  constructor
  case toListening => exact hlisten
  case evs => rw [hout]; exact he
  case msn => exact hmsn
  all_goals rw [hep]; rfl

end

/-! ## The requester sends -/

/-- A read of one sge. -/
structure ReadWr where
  wrId : UInt64
  sge : Sge
  invalidateRkey : UInt32
  remoteAddr : UInt64
  rkey : UInt32

/-- The work request of the application. -/
def ReadWr.toSendWr (r : ReadWr) : SendWr :=
  ⟨r.wrId, .user [r.sge], .rdmaReadReq, r.invalidateRkey, r.remoteAddr, r.rkey⟩

/-- The fields of the request message (lines 268–273). -/
def ReadWr.fields (r : ReadWr) : ReadReqFields :=
  ⟨r.sge.lkey, r.sge.addr, r.sge.length, r.rkey, r.remoteAddr⟩

/-- The header of the request message with the number `msn` (lines 255–260). -/
def readReqHdr (junk : DdpUntaggedMeta) (msn : UInt32) : DdpUntaggedMeta :=
  { junk with rsvdULP1 := rdmaHdr .rdmaReadReq, qn := htonl readQn, msn := htonl msn }

section

variable {ep : Ep} (junk : ℕ → DdpUntaggedMeta) (st : Statics)

/-- The message of a read. -/
theorem transmit_readWr (junk : DdpUntaggedMeta) (he : ep.ddp.outb.evs = []) (r : ReadWr) :
    ep.transmit junk st r.toSendWr = ⟨{ st with readMsn := st.readMsn + 1 },
      { ep.ddp.outb with
        sent := ep.ddp.outb.sent ++ untaggedWire (readReqHdr junk st.readMsn) [r.fields.bytes] },
      some 0⟩ := by
  have hpieces : sgePieces [⟨0, UInt32.ofNat readReqFieldsSize, 0⟩] r.fields.onStack =
      [r.fields.bytes] := by
    rw [sgePieces, List.flatMap_singleton, ReadReqFields.content_onStack,
      chop_of_length_le (by simp [← List.length_pos_iff]) (by simp [mulpdu_eq])]
  have hsend := @ddpSendUntagged_eq ep.ddp.outb r.fields.onStack (readReqHdr junk st.readMsn)
    [⟨0, UInt32.ofNat readReqFieldsSize, 0⟩] (by simp [readReqFieldsSize])
    ⟨_, rfl, by decide⟩ he
  rw [hpieces] at hsend
  show TransmitOut.mk { st with readMsn := st.readMsn + 1 }
    (ddpSendUntagged ep.ddp.outb r.fields.onStack (readReqHdr junk st.readMsn)
      [⟨0, UInt32.ofNat readReqFieldsSize, 0⟩]).2
    (some (ddpSendUntagged ep.ddp.outb r.fields.onStack (readReqHdr junk st.readMsn)
      [⟨0, UInt32.ofNat readReqFieldsSize, 0⟩]).1) = _
  rw [hsend]

/-- The requester sends the request and waits for the response. -/
theorem rnicSend_read (h : Quiet [] ep) (r : ReadWr) :
    ∃ ep', rnicSend junk 3 (st, rdmapPost ep r.toSendWr) =
        ({ st with readMsn := st.readMsn + 1 }, ep') ∧
      Quiet [sendWrToWce r.toSendWr 0] ep' ∧
      ep.sentSince ep' = untaggedWire (readReqHdr (junk 1) st.readMsn) [r.fields.bytes] ∧
      ep'.mem = ep.mem ∧ ep'.cq = ep.cq ∧ ep'.ddp.taggedBuffers = ep.ddp.taggedBuffers := by
  have hsq : (rdmapPost ep r.toSendWr).sq = [r.toSendWr] := by rw [rdmapPost, h.sq, List.nil_append]
  have hop : r.toSendWr.opcode = .rdmaReadReq := rfl
  have hpend : (ep.cqs ep.sendCq).pendingQ = [] := h.pendingCq
  have hrun := @rnicSend_three (rdmapPost ep r.toSendWr) _ _ st _ _ junk h.sendPc h.connected hsq
    (transmit_readWr st (junk 1) h.evs r) rfl
  simp only [Ep.complete, hop, lt_irrefl, not_false_eq_true, and_self, if_true] at hrun
  refine ⟨_, hrun, ⟨⟨h.recvPc, h.connected, h.failFree, h.ready, h.pending⟩, rfl, rfl, ?_, h.evs,
    h.msn, h.opcode, h.list⟩, List.drop_left, rfl, ?_, rfl⟩
  · simp [Ep.pendingCq, Ep.enqPending, rdmapPost, hpend]
  · simp [Ep.cq, Ep.enqPending, rdmapPost]

end

/-! ## The responder receives -/

section

variable (bld : Build) {ep : Ep}

/-- A call of `ddp_recv` that stores something and returns 0 is two steps. -/
theorem recvStep_ddpRecv {r : DdpOut} (hidle : ep.recvPc = .idle) (hcon : ep.connected = true)
    (hr : ddpRecv ep.ddp ep.mem ep.msg = r) (hret : r.ret = .val 0) (hmem : r.mem ≠ ep.mem) :
    (rnicRecvStep bld)^[2] ep =
      { ep with ddp := r.ctx, mem := r.mem, msg := r.msg, recvPc := .dispatch 0 } := by
  cases hn : (ddpRecvHead ep.ddp ep.msg).next with
  | inl ret =>
    simp only [ddpRecv, hn] at hr
    rw [← hr] at hmem
    exact absurd rfl hmem
  | inr c => exact (recvStep_payload bld hidle hcon hr hret hn).2

/-- The buffer of a request that was just taken is put back. -/
theorem ddpPostRecv_readQn (inb : Inbound) (outb : Outbound) (queues : Fin 3 → UntaggedBufferQueue)
    (tags : UInt32 → Option TaggedBuffer) (bs : List UntaggedBuffer) (msn : ℤ)
    (b : UntaggedBuffer) :
    ddpPostRecv ⟨inb, outb, Function.update queues 1 ⟨bs, msn⟩, tags⟩ readQn.toNat [b] =
      ⟨inb, outb, Function.update queues 1 ⟨bs ++ [b], msn⟩, tags⟩ := by
  show DdpCtx.mk inb outb (Function.update (Function.update queues 1 ⟨bs, msn⟩) 1
    ⟨(Function.update queues 1 ⟨bs, msn⟩ 1).q ++ [b],
      (Function.update queues 1 ⟨bs, msn⟩ 1).msn⟩) tags = _
  rw [Function.update_idem, Function.update_self]

/-- A request at the front of the stream is taken off it and stored, and the
    response is filled from the buffer. -/
theorem recvStep_readReq_stored {msn : UInt32} {junk : DdpUntaggedMeta} {f : ReadReqFields}
    {rest : List UInt8} {b : UntaggedBuffer} {bs : List UntaggedBuffer}
    (hidle : ep.recvPc = .idle) (hcon : ep.connected = true) (hf : ep.ddp.inb.FailFree)
    (hr : ∀ p, 4 ≤ ep.ddp.inb.ready p) (hq : ep.readPool = b :: bs)
    (hqmsn : (ep.ddp.queues 1).msn = 1) (hmsn : msn ≠ 0)
    (hp : ep.ddp.inb.pending = untaggedWire (readReqHdr junk msn) [f.bytes] ++ rest) :
    ∃ e msg, (rnicRecvStep bld)^[3] ep = e.fillResp bld ∧
      e = { ep with
        ddp := { ep.ddp with
          inb := ep.ddp.inb.advance (untaggedWire (readReqHdr junk msn) [f.bytes]).length
          queues := Function.update ep.ddp.queues 1 { ep.ddp.queues 1 with q := bs } }
        mem := ep.mem.write (stores b.data f.bytes)
        msg := msg
        recvPc := .dispatch 0 } ∧
      msg.buf = .untag b ∧ e.mem.read b.data 28 = f.bytes := by
  have hnil : f.bytes ≠ [] := by simp [← List.length_pos_iff]
  obtain ⟨msg, placed, hrecv, htag, hop, hbuf⟩ := @ddpRecv_untagged_first ep.ddp ep.mem ep.msg rest
    (readReqHdr junk msn) f.bytes 1 b bs hf hr hnil (by simp [mulpdu_eq]) hp
    (by simp only [readReqHdr, ntohl_htonl]; rfl) hqmsn
    (by simpa only [readReqHdr, ntohl_htonl] using hmsn) hq
  have h2 := @recvStep_ddpRecv bld ep _ hidle hcon hrecv rfl (Mem.write_stores_ne _ _ hnil)
  obtain ⟨e, he⟩ : ∃ e : Ep, e = (rnicRecvStep bld)^[2] ep := ⟨_, rfl⟩
  rw [← he] at h2
  have h3 : rnicRecvStep bld e = e.fillResp bld := by
    refine recvStep_readReq ?_ (.inr (by rw [h2]; exact htag))
    rw [h2, Ep.handles, Ep.opcode, hop]
    exact ofCode_rdmaHdr (by decide)
  have hself := @Mem.read_write_stores ep.mem b.data f.bytes (by simp)
  rw [ReadReqFields.length_bytes] at hself
  refine ⟨e, msg, by rw [← h3, he]; rfl, h2, hbuf, ?_⟩
  rw [h2]
  exact hself

/-- The responder stores the request in its first buffer, enqueues the response
    and puts the buffer back at the end of the queue. -/
theorem rnicRecv_readReq (hb : bld.rping = false) (h : Quiet [] ep) {b : UntaggedBuffer}
    {bs : List UntaggedBuffer} (hq : ep.readPool = b :: bs) {msn : UInt32} (hmsn : msn ≠ 0)
    (junk : DdpUntaggedMeta) (f : ReadReqFields) :
    let w := untaggedWire (readReqHdr junk msn) [f.bytes]
    ∃ msg, (rnicRecvStep bld)^[5] (ep.deliver w) = { ep with
      ddp := { ep.ddp with
        inb := (ep.deliver w).ddp.inb.advance w.length
        queues := Function.update ep.ddp.queues 1 { ep.ddp.queues 1 with q := bs ++ [b] } }
      mem := ep.mem.write (stores b.data f.bytes)
      msg := msg
      sg := ⟨f.srcTO, f.rdmaRdSz, f.srcTag⟩
      readResp := { ep.readResp with
        wrId := ep.readResp.wrId + 1, rkey := f.sinkTag, remoteAddr := f.sinkTO }
      sq := [{ ep.readResp with rkey := f.sinkTag, remoteAddr := f.sinkTO }]
      recvPc := .idle } := by
  intro w
  have hpend : (ep.deliver w).ddp.inb.pending = w ++ [] := by
    rw [h.deliver_pending, List.append_nil]
  obtain ⟨e, msg, h3, he, hbuf, hread⟩ := @recvStep_readReq_stored bld (ep.deliver w) msn junk f []
    b bs h.recvPc h.connected h.failFree h.ready hq h.msn hmsn hpend
  have hreq : e.readReq bld = f := by
    rw [Ep.readReq, Ep.reqMem, hb]
    apply readReqAt_of_read
    rw [he] at hread ⊢
    simp only [hbuf]
    exact hread
  have hmem : e.reqMem bld = e.mem := by
    rw [Ep.reqMem, hb]
    rfl
  refine ⟨msg, ?_⟩
  calc (rnicRecvStep bld)^[5] (ep.deliver w)
      = rnicRecvStep bld (rnicRecvStep bld ((rnicRecvStep bld)^[3] (ep.deliver w))) := rfl
    _ = rnicRecvStep bld (rnicRecvStep bld (e.fillResp bld)) := by rw [h3]
    _ = _ := by
      simp only [Ep.fillResp, hreq, hmem]
      rw [he]
      simp only [rnicRecvStep, hbuf, h.sq, Ep.deliver, ddpPostRecv_readQn]
      rfl

end

/-! ## The responder sends -/

/-- The header of the response to a request with the given sink. -/
def readRespHdr (sinkTag : UInt32) (sinkTO : UInt64) : DdpTaggedMeta :=
  ⟨rdmaHdr .rdmaReadResp, htonl sinkTag, htonll sinkTO⟩

/-- The responder sends what `sg` designates and makes no completion. -/
theorem rnicSend_readResp {ep : Ep} (junk : ℕ → DdpUntaggedMeta) (st : Statics)
    (hidle : ep.sendPc = .idle) (hcon : ep.connected = true) (he : ep.ddp.outb.evs = [])
    {req : SendWr} (hsq : ep.sq = [req]) (hop : req.opcode = .rdmaReadResp)
    (hl : req.sgList = .recvSg) (hpos : 1 ≤ ep.sg.length.toNat)
    (hlt : ep.sg.length.toNat < 2 ^ 31) :
    rnicSend junk 2 (st, ep) = (st, { ep with
      sq := []
      ddp := { ep.ddp with outb := { ep.ddp.outb with
        sent := ep.ddp.outb.sent ++
          taggedWire (readRespHdr req.rkey req.remoteAddr) (sgePieces [ep.sg] ep.mem) } }
      sendPc := .idle }) := by
  have hsges : ep.sges req = [ep.sg] := by rw [Ep.sges, hl]
  have hsend := @ddpSendTagged_eq ep.ddp.outb ep.mem (readRespHdr req.rkey req.remoteAddr) [ep.sg]
    (by simpa using hlt) ⟨ep.sg, rfl, hpos⟩ he
  have ht : ep.transmit (junk 1) st req = ⟨st, { ep.ddp.outb with
      sent := ep.ddp.outb.sent ++
        taggedWire (readRespHdr req.rkey req.remoteAddr) (sgePieces [ep.sg] ep.mem) }, none⟩ := by
    simp only [Ep.transmit, hop, hsges]
    rw [readRespHdr] at hsend
    rw [hsend, readRespHdr]
  exact rnicSend_two st junk hidle hcon hsq ht rfl

/-- The responder answers a read request. -/
theorem rnic_answers (bld : Build) {ep : Ep} (junk : ℕ → DdpUntaggedMeta) (st : Statics)
    (hb : bld.rping = false) (h : Quiet [] ep) {b : UntaggedBuffer} {bs : List UntaggedBuffer}
    (hq : ep.readPool = b :: bs) {msn : UInt32} (hmsn : msn ≠ 0) (junk' : DdpUntaggedMeta)
    {f : ReadReqFields} (hpos : 1 ≤ f.rdmaRdSz.toNat) (hlt : f.rdmaRdSz.toNat < 2 ^ 31) :
    let resp := (rnicRecvStep bld)^[5] (ep.deliver (untaggedWire (readReqHdr junk' msn) [f.bytes]))
    ∃ ep', rnicSend junk 2 (st, resp) = (st, ep') ∧ Quiet [] ep' ∧
      resp.sentSince ep' = taggedWire (readRespHdr f.sinkTag f.sinkTO)
        (chop (ep'.mem.read f.srcTO f.rdmaRdSz.toNat)) ∧
      ep'.mem = ep.mem.write (stores b.data f.bytes) ∧ ep'.cq = ep.cq ∧
      ep'.readPool = bs ++ [b] := by
  intro resp
  obtain ⟨msg, hresp⟩ := rnicRecv_readReq bld hb h hq hmsn junk' f
  have hsend := @rnicSend_readResp resp junk st (by simp only [resp, hresp]; exact h.sendPc)
    (by simp only [resp, hresp]; exact h.connected) (by simp only [resp, hresp]; exact h.evs)
    { ep.readResp with rkey := f.sinkTag, remoteAddr := f.sinkTO } (by simp only [resp, hresp])
    h.opcode h.list (by simp only [resp, hresp]; exact hpos)
    (by simp only [resp, hresp]; exact hlt)
  refine ⟨_, hsend, ?_, ?_, ?_, ?_, ?_⟩
  all_goals simp only [resp, hresp]
  · refine ⟨⟨rfl, h.connected, h.failFree, h.ready, ?_⟩, rfl, rfl, h.pendingCq, h.evs, ?_, h.opcode,
      h.list⟩
    · rw [advance_pending, h.deliver_pending, List.drop_length]
    · simpa using h.msn
  · refine List.drop_left.trans ?_
    rw [sgePieces, List.flatMap_singleton, Sge.content]
  · rfl
  · simp [Ep.readPool_eq]

/-! ## The requester receives -/

section

variable (bld : Build) {ep : Ep}

theorem recvStep_readResp {ret : ℤ} (hpc : ep.recvPc = .dispatch ret)
    (hop : ep.opcode = some .rdmaReadResp) (ht : ddpIsTagged ep.msg.hdr = true) :
    rnicRecvStep bld ep = ep.takePending ret := by
  simp only [rnicRecvStep, hpc, Ep.dispatch, hop, ht, Ep.assertThen, or_true, if_true]

/-- The requester stores the response at its target and completes the read. -/
theorem rnicRecv_readResp {w : WorkCompletion} (h : Quiet [w] ep) {sinkTag : UInt32}
    {sinkTO : UInt64} {ps : List (List UInt8)} (hne : ps ≠ []) (hps : ∀ p ∈ ps, p ≠ [] ∧ p.length ≤ mulpdu)
    (hstag : (ddpCheckStag ep.ddp.taggedBuffers
      ⟨rdmaHdr .rdmaReadResp, sinkTag, sinkTO⟩).isSome) :
    let wire := taggedWire (readRespHdr sinkTag sinkTO) ps
    ∃ ep', (rnicRecvStep bld)^[4] (ep.deliver wire) = ep' ∧ Quiet [] ep' ∧
      ep'.mem = ep.mem.write (stores sinkTO ps.flatten) ∧
      ep'.cq = ep.cq ++ [{ w with byteLen := UInt32.ofInt 0 }] := by
  intro wire
  have hpend : (ep.deliver wire).ddp.inb.pending = wire ++ [] := by
    rw [h.deliver_pending, List.append_nil]
  obtain ⟨msg, placed, hr, htag, hop⟩ := @ddpRecv_tagged_first (ep.deliver wire).ddp
    (ep.deliver wire).mem (ep.deliver wire).msg _ _ sinkTag sinkTO ps h.failFree h.ready hne hps
    hpend hstag
  have hflat : ps.flatten ≠ [] := by
    obtain ⟨p, ps, rfl⟩ := List.exists_cons_of_ne_nil hne
    have := (hps p (by simp)).1
    simp [this]
  have h2 := @recvStep_ddpRecv bld (ep.deliver wire) _ h.recvPc h.connected hr rfl
    (Mem.write_stores_ne _ _ hflat)
  obtain ⟨e, he⟩ : ∃ e : Ep, e = (rnicRecvStep bld)^[2] (ep.deliver wire) := ⟨_, rfl⟩
  rw [← he] at h2
  have h3 : rnicRecvStep bld e = e.takePending 0 := by
    refine recvStep_readResp bld (by rw [h2]) ?_ (by rw [h2]; exact htag)
    rw [h2, Ep.opcode, hop]
    exact ofCode_rdmaHdr (by decide)
  have h4 : e.takePending 0 = { e with
      cqs := Function.update ep.cqs ep.sendCq { ep.cqs ep.sendCq with pendingQ := [] }
      recvPc := .enqRead { w with byteLen := UInt32.ofInt 0 } } := by
    have hcqs : (e.cqs e.sendCq).pendingQ = [w] := by rw [h2]; exact h.pendingCq
    simp only [Ep.takePending, hcqs]
    rw [h2]
    rfl
  have hrun : (rnicRecvStep bld)^[4] (ep.deliver wire) = rnicRecvStep bld (rnicRecvStep bld e) := by
    rw [he]
    rfl
  rw [h3, h4, h2] at hrun
  refine ⟨_, hrun, ⟨⟨rfl, h.connected, h.failFree, h.ready, ?_⟩, h.sendPc, h.sq, ?_, h.evs, h.msn,
    h.opcode, h.list⟩, rfl, ?_⟩
  · show (ep.deliver wire).ddp.inb.pending.drop wire.length = []
    rw [h.deliver_pending, List.drop_length]
  · simp [rnicRecvStep, Ep.enqCq, Ep.pendingCq, Ep.deliver]
  · simp [rnicRecvStep, Ep.enqCq, Ep.cq, Ep.deliver]

end

/-! ## One read after another -/

/-- What an application does between two reads. -/
inductive AppAct
  | register (buf : TaggedBuffer)
  | invalidate (tag : UInt32)
  | store (ws : List (UInt64 × UInt8))

def AppAct.run : AppAct → Ep → Ep
  | .register buf, ep => rdmaRegister ep buf
  | .invalidate tag, ep => rdmaInvalidate ep tag
  | .store ws, ep => { ep with mem := ep.mem.write ws }

/-- The two hosts, each with the static counters of its process. -/
structure Peers where
  reqSt : Statics
  req : Ep
  respSt : Statics
  resp : Ep

/-- A read, what the applications do before it, and the uninitialised headers
    of the two sends. -/
structure ReadRound where
  reqActs : List AppAct
  respActs : List AppAct
  wr : ReadWr
  reqJunk : ℕ → DdpUntaggedMeta
  respJunk : ℕ → DdpUntaggedMeta

/-- The applications' part of a round. -/
def ReadRound.apps (r : ReadRound) (s : Peers) : Peers :=
  { s with
    req := r.reqActs.foldl (fun ep a => a.run ep) s.req
    resp := r.respActs.foldl (fun ep a => a.run ep) s.resp }

/-- The read is posted; the requester's `rnic_send`, the responder's
    `rnic_recv` and `rnic_send` and the requester's `rnic_recv` run one after
    another, each until it has nothing left to do. -/
def ReadRound.read (bld : Build) (r : ReadRound) (s : Peers) : Peers :=
  let req := rnicSend r.reqJunk 3 (s.reqSt, rdmapPost s.req r.wr.toSendWr)
  let resp := (rnicRecvStep bld)^[5] (s.resp.deliver (s.req.sentSince req.2))
  let resp' := rnicSend r.respJunk 2 (s.respSt, resp)
  ⟨req.1, (rnicRecvStep bld)^[4] (req.2.deliver (resp.sentSince resp'.2)), resp'.1, resp'.2⟩

/-- A sequence of reads. -/
def readRounds (bld : Build) (rs : List ReadRound) (s : Peers) : Peers :=
  rs.foldl (fun s r => r.read bld (r.apps s)) s

/-- The sink of a read lies in a registered buffer, which does not wrap
    around, and its length is a positive `int`. -/
structure ValidRead (ep : Ep) (r : ReadWr) : Prop where
  pos : 1 ≤ r.sge.length.toNat
  lt : r.sge.length.toNat < 2 ^ 31
  sink : ∃ b, ep.ddp.taggedBuffers r.sge.lkey = some b ∧ b.data.toNat ≤ r.sge.addr.toNat ∧
    r.sge.addr.toNat + r.sge.length.toNat ≤ b.data.toNat + b.len.toNat ∧
    b.data.toNat + b.len.toNat < 2 ^ 64

/-- What a read is for. The buffers for read requests are not the
    application's. -/
structure ReadDone (r : ReadWr) (s s' : Peers) : Prop where
  copied : ∀ i < r.sge.length.toNat, s'.req.mem.load (r.sge.addr + UInt64.ofNat i) =
    s'.resp.mem.load (r.remoteAddr + UInt64.ofNat i)
  reqFrame : ∀ a, (∀ i < r.sge.length.toNat, a ≠ r.sge.addr + UInt64.ofNat i) →
    s'.req.mem.load a = s.req.mem.load a
  respFrame : ∀ a, (∀ b ∈ s.resp.readPool, ∀ j < 28, a ≠ b.data + UInt64.ofNat j) →
    s'.resp.mem.load a = s.resp.mem.load a
  completed : ∃ w, s'.req.cq = s.req.cq ++ [w] ∧ w.summary = (r.wrId, .success, .readRequest)
  silent : s'.resp.cq = s.resp.cq
  pool : s'.resp.readPool.Perm s.resp.readPool
  quiet : Quiet [] s'.req ∧ Quiet [] s'.resp

section

variable {bld : Build}

theorem ValidRead.stag {ep : Ep} {r : ReadWr} (h : ValidRead ep r) (rsvdULP1 : UInt8) :
    (ddpCheckStag ep.ddp.taggedBuffers ⟨rsvdULP1, r.sge.lkey, r.sge.addr⟩).isSome := by
  obtain ⟨b, hb, hlo, hhi, hwrap⟩ := h.sink
  have hend : (b.data + b.len).toNat = b.data.toNat + b.len.toNat := by
    rw [UInt64.toNat_add]
    omega
  rw [ddpCheckStag_of_le hb (UInt64.le_iff_toNat_le.mpr hlo)
    (UInt64.le_iff_toNat_le.mpr (by simp only [hend]; omega))]
  rfl

/-- One read, from two streams at rest. -/
theorem ReadRound.read_done (hb : bld.rping = false) {s : Peers} (hreq : Quiet [] s.req)
    (hresp : Quiet [] s.resp) (hpool : s.resp.readPool ≠ []) (hmsn : s.reqSt.readMsn ≠ 0)
    {r : ReadRound} (hv : ValidRead s.req r.wr) :
    ReadDone r.wr s (r.read bld s) ∧
      (r.read bld s).reqSt.readMsn = s.reqSt.readMsn + 1 := by
  obtain ⟨b, bs, hq⟩ := List.exists_cons_of_ne_nil hpool
  obtain ⟨req, hsend, hwait, hwire, hmem, hcq, htags⟩ :=
    rnicSend_read r.reqJunk s.reqSt hreq r.wr
  obtain ⟨resp, hans, hquiet', hwire', hmem', hcq', hpool'⟩ :=
    rnic_answers bld r.respJunk s.respSt hb hresp hq hmsn (r.reqJunk 1) (f := r.wr.fields) hv.pos hv.lt
  have hcontent : (resp.mem.read r.wr.remoteAddr r.wr.sge.length.toNat) ≠ [] := by
    rw [← List.length_pos_iff, Mem.length_read]
    exact hv.pos
  obtain ⟨req', hrecv, hquiet, hmem'', hcq''⟩ := rnicRecv_readResp bld hwait (chop_ne_nil hcontent)
    (chop_bounds _) (by rw [htags]; exact hv.stag _)
  rw [flatten_chop, hmem] at hmem''
  have hread : r.read bld s =
      ⟨{ s.reqSt with readMsn := s.reqSt.readMsn + 1 }, req', s.respSt, resp⟩ := by
    simp only [ReadRound.read, hsend, hwire, hans, hwire']
    exact congrArg (fun e => Peers.mk _ e _ _) hrecv
  have hn : r.wr.sge.length.toNat ≤ 2 ^ 64 := by
    have := hv.lt
    omega
  rw [hread]
  refine ⟨⟨?_, ?_, ?_, ?_, hcq', ?_, hquiet, hquiet'⟩, rfl⟩
  · simp only [hmem'']
    exact Mem.load_write_read _ _ _ _ hn
  · intro a ha
    simp only [hmem'']
    refine Mem.load_write_stores_of_ne _ ?_
    rw [Mem.length_read]
    exact ha
  · intro a ha
    simp only [hmem']
    refine Mem.load_write_stores_of_ne _ fun i hi => ?_
    rw [ReadReqFields.length_bytes] at hi
    exact ha b (by rw [hq]; exact List.mem_cons_self) i hi
  · exact ⟨_, by rw [hcq'', hcq], rfl⟩
  · rw [hpool', hq]
    exact List.perm_append_singleton b bs

/-! ### The applications between two reads -/

section

variable {waits : List WorkCompletion} {ep : Ep}

theorem AppAct.run_quiet (a : AppAct) (h : Quiet waits ep) :
    Quiet waits (a.run ep) ∧ (a.run ep).readPool = ep.readPool := by
  cases a
  all_goals exact ⟨⟨⟨h.recvPc, h.connected, h.failFree, h.ready, h.pending⟩, h.sendPc, h.sq,
    h.pendingCq, h.evs, h.msn, h.opcode, h.list⟩, rfl⟩

theorem AppAct.foldl_quiet (acts : List AppAct) (h : Quiet waits ep) :
    Quiet waits (acts.foldl (fun ep a => a.run ep) ep) ∧
      (acts.foldl (fun ep a => a.run ep) ep).readPool = ep.readPool := by
  induction acts generalizing ep with
  | nil => exact ⟨h, rfl⟩
  | cons a acts ih =>
    obtain ⟨hq, hp⟩ := a.run_quiet h
    obtain ⟨hq', hp'⟩ := ih hq
    exact ⟨hq', hp'.trans hp⟩

end

/-! ### Sequences -/

/-- Two streams at rest, after `k` reads. -/
structure ReadReady (k : ℕ) (s : Peers) : Prop where
  req : Quiet [] s.req
  resp : Quiet [] s.resp
  pool : s.resp.readPool ≠ []
  msn : s.reqSt.readMsn = UInt32.ofNat (k + 1)

theorem ReadReady.apps {k : ℕ} {s : Peers} (h : ReadReady k s) (r : ReadRound) :
    ReadReady k (r.apps s) := by
  obtain ⟨hresp, hpool⟩ := AppAct.foldl_quiet r.respActs h.resp
  refine ⟨(AppAct.foldl_quiet r.reqActs h.req).1, hresp, ?_, h.msn⟩
  show Ep.readPool (r.respActs.foldl (fun ep a => a.run ep) s.resp) ≠ []
  rw [hpool]
  exact h.pool

/-- A read leaves the streams ready for the next one. -/
theorem ReadReady.read (hb : bld.rping = false) {k : ℕ} {s : Peers} (h : ReadReady k s)
    (hk : k < 2 ^ 32 - 1) {r : ReadRound} (hv : ValidRead s.req r.wr) :
    ReadDone r.wr s (r.read bld s) ∧ ReadReady (k + 1) (r.read bld s) := by
  have hmsn : s.reqSt.readMsn ≠ 0 := by
    rw [h.msn]
    intro he
    have hmod : (k + 1) % 2 ^ 32 = 0 := by
      rw [← UInt32.toNat_ofNat', he]
      rfl
    omega
  obtain ⟨hdone, hnext⟩ := r.read_done hb h.req h.resp h.pool hmsn hv
  refine ⟨hdone, hdone.quiet.1, hdone.quiet.2, ?_, ?_⟩
  · intro hnil
    have hp := hdone.pool
    rw [hnil, List.nil_perm] at hp
    exact h.pool hp
  · rw [hnext, h.msn, UInt32.ofNat_add (k + 1) 1]
    rfl

theorem readRounds_append_singleton (pre : List ReadRound) (r : ReadRound) (s : Peers) :
    readRounds bld (pre ++ [r]) s = r.read bld (r.apps (readRounds bld pre s)) := by
  rw [readRounds, List.foldl_append]
  rfl

/-- After each read of a sequence the streams are ready for the next one. -/
theorem readRounds_ready (hb : bld.rping = false) {s : Peers} (hs : ReadReady 0 s)
    {rounds : List ReadRound} (hn : rounds.length < 2 ^ 32 - 1)
    (hv : ∀ (pre : List ReadRound) (r : ReadRound) (post : List ReadRound), rounds = pre ++ r :: post →
      ValidRead (r.apps (readRounds bld pre s)).req r.wr) (pre : List ReadRound) :
    ∀ post : List ReadRound, rounds = pre ++ post → ReadReady pre.length (readRounds bld pre s) := by
  induction pre using List.reverseRecOn with
  | nil => exact fun _ _ => hs
  | append_singleton pre r ih =>
    intro post hpost
    rw [List.append_assoc, List.singleton_append] at hpost
    have hlen : pre.length < 2 ^ 32 - 1 := by
      rw [hpost, List.length_append, List.length_cons] at hn
      omega
    rw [readRounds_append_singleton, List.length_append, List.length_singleton]
    exact (((ih _ hpost).apps r).read hb hlen (hv pre r post hpost)).2

end

/-- Every read of a sequence of fewer than `2 ^ 32 - 1` copies the responder's
    bytes to its sink and changes no other memory of the applications, makes
    one successful completion at the requester, and leaves the responder's
    buffers for read requests as they were, up to order. -/
theorem reads_end_to_end {bld : Build} (hb : bld.rping = false) {s : Peers}
    (hreq : Quiet [] s.req) (hresp : Quiet [] s.resp) (hpool : s.resp.readPool ≠ [])
    (hmsn : s.reqSt.readMsn = 1) {rounds : List ReadRound} (hn : rounds.length < 2 ^ 32 - 1)
    (hv : ∀ (pre : List ReadRound) (r : ReadRound) (post : List ReadRound), rounds = pre ++ r :: post →
      ValidRead (r.apps (readRounds bld pre s)).req r.wr) :
    ∀ (pre : List ReadRound) (r : ReadRound) (post : List ReadRound), rounds = pre ++ r :: post →
      ReadDone r.wr (r.apps (readRounds bld pre s)) (readRounds bld (pre ++ [r]) s) := by
  intro pre r post hpost
  have hready := readRounds_ready hb ⟨hreq, hresp, hpool, hmsn⟩ hn hv pre (r :: post) hpost
  have hlen : pre.length < 2 ^ 32 - 1 := by
    rw [hpost, List.length_append, List.length_cons] at hn
    omega
  rw [readRounds_append_singleton]
  exact ((hready.apps r).read hb hlen (hv pre r post hpost)).1

/-- Two reads of three bytes, the second from 16 bytes further on. -/
theorem reads_end_to_end_twice :
    let round := fun (wrId remoteAddr : UInt64) => ReadRound.mk [.register ⟨⟨0, 0⟩, 0x1000, 8⟩] []
      ⟨wrId, ⟨0x1002, 3, 0x1000⟩, 0, remoteAddr, 0x5000⟩ (fun _ => ⟨0, 0, 0, 0, 0⟩)
      (fun _ => ⟨0, 0, 0, 0, 0⟩)
    let host := fun (mem : Mem) => rdmapInitStream mem { pending := [], eof := false } ⟨[], []⟩ 0 0
      [0x9000] ⟨0, fun _ => 0, .untag ⟨0, 0⟩, 0⟩ ⟨0, 0, 0⟩
    let s : Peers := ⟨{}, host ⟨fun _ => 0, []⟩, {}, host ⟨fun a => a.toUInt8, []⟩⟩
    let s₁ := readRounds ⟨false, false⟩ [round 1 0x5000] s
    let s₂ := readRounds ⟨false, false⟩ [round 1 0x5000, round 2 0x5010] s
    ReadDone (round 1 0x5000).wr ((round 1 0x5000).apps s) s₁ ∧
      ReadDone (round 2 0x5010).wr ((round 2 0x5010).apps s₁) s₂ := by
  intro round host s s₁ s₂
  have hvalid : ∀ (id a : UInt64) (s : Peers),
      ValidRead ((round id a).apps s).req (round id a).wr := by
    intro id a s
    refine ⟨show 1 ≤ (3 : UInt32).toNat by decide, show (3 : UInt32).toNat < 2 ^ 31 by decide,
      ⟨⟨0x1000, 0⟩, 0x1000, 8⟩, ?_, ?_, ?_, by decide⟩
    · show Function.update s.req.ddp.taggedBuffers (0x1000 : UInt64).toUInt32 _ 0x1000 = _
      exact Function.update_self (0x1000 : UInt32) _ _
    · show (0x1000 : UInt64).toNat ≤ (0x1002 : UInt64).toNat
      decide
    · show (0x1002 : UInt64).toNat + (3 : UInt32).toNat ≤
        (0x1000 : UInt64).toNat + (8 : UInt64).toNat
      decide
  have hquiet : ∀ mem, Quiet [] (host mem) := by
    intro mem
    have h4 : 4 ≤ maxRwCount := by decide
    exact quiet_init mem 0 0 _ _ _ rfl (fun _ => rfl) (fun _ => h4) rfl
  have hall : ∀ (pre : List ReadRound) (r : ReadRound) (post : List ReadRound),
      [round 1 0x5000, round 2 0x5010] = pre ++ r :: post →
      ValidRead (r.apps (readRounds ⟨false, false⟩ pre s)).req r.wr := by
    intro pre r post h
    have hr : r ∈ [round 1 0x5000, round 2 0x5010] := by rw [h]; simp
    rcases List.mem_pair.mp hr with rfl | rfl
    · exact hvalid _ _ _
    · exact hvalid _ _ _
  have hdone := @reads_end_to_end ⟨false, false⟩ rfl s (hquiet _) (hquiet _) (List.cons_ne_nil _ _)
    rfl _ (by decide) hall
  exact ⟨hdone [] _ [round 2 0x5010] rfl, hdone [round 1 0x5000] _ [] rfl⟩

end SoftUiWarp
