import SoftUiWarp.Lib.Runs
import SoftUiWarp.Rdmap.Model

/-!
# The threads of a stream and the application, interleaved

The state is that of the stream, the static counters, and where the application
is in `rdma_post_recv`. A label says who takes the next step. The bytes the
peer sends are in the stream from the start, so runs over every stream are runs
with every peer.

A history that the code does not have records what the steps do, for the
statements about whole runs.

Results:
* `newStream_init`: `rdmap_init_stream` makes a new stream.
* `dispatch_cases`: what the switch of `rnic_recv` can do.
-/

namespace SoftUiWarp

open TcpStream ByteMem Runs

/-! ## The history -/

/-- A read response on its way out: the memory and the socket before, and the
    socket after. -/
structure Answer where
  mem : Mem
  before : Outbound
  after : Outbound

structure History where
  /-- Read requests handled by `rnic_recv`. -/
  requests : List ReadReqFields := []
  /-- Read responses sent by `rnic_send`. -/
  answers : List Answer := []
  /-- Receives whose buffer is posted. -/
  posted : List RecvWr := []
  /-- Buffers of queue 0 taken by `ddp_recv`. -/
  taken : List UntaggedBuffer := []
  /-- Receives dequeued by `rnic_recv`. -/
  dequeued : List RecvWr := []
  /-- Completions of receives. -/
  recvDone : List WorkCompletion := []
  /-- Requests posted by the application. -/
  reqs : List SendWr := []
  /-- Reads sent by `rnic_send`. -/
  reads : List SendWr := []
  /-- The number of read responses received. -/
  responses : ℕ := 0
  /-- Completions of reads that `rnic_recv` has moved to the completion queue. -/
  readDone : List WorkCompletion := []

/-- The message uses queue 0. -/
def DdpMessage.OnSendQ (m : DdpMessage) : Prop :=
  ddpIsTagged m.hdr = false ∧ m.untaggedMetadata.qn = sendQn

instance (m : DdpMessage) : Decidable m.OnSendQ := inferInstanceAs (Decidable (_ ∧ _))

/-- The buffer a message that starts now takes from queue 0. -/
def Ep.takenNow (ep : Ep) : List UntaggedBuffer :=
  let h := ddpRecvHead ep.ddp ep.msg
  match h.next with
  | .inl _ => []
  | .inr _ => if h.msg.OnSendQ then (ep.ddp.queues 0).q.take 1 else []

/-- What a step of `rnic_recv` adds. -/
def History.recv (bld : Build) (h : History) (ep : Ep) : History :=
  match ep.recvPc with
  | .idle => if ep.connected then { h with taken := h.taken ++ ep.takenNow } else h
  | .dispatch ret =>
    match (ep.dispatch bld ret).recvPc with
    | .enqResp => { h with requests := h.requests ++ [ep.readReq bld] }
    | .enqRecv _ => { h with dequeued := h.dequeued ++ ep.rq.take 1 }
    | _ => if ep.opcode = some .rdmaReadResp then { h with responses := h.responses + 1 } else h
  | .enqRead wce => { h with readDone := h.readDone ++ [wce] }
  | .enqRecv wce => { h with recvDone := h.recvDone ++ [wce] }
  | _ => h

/-- What a step of `rnic_send` adds. -/
def History.send (h : History) (junk : DdpUntaggedMeta) (st : Statics) (ep : Ep) : History :=
  match ep.sendPc with
  | .transmit req =>
    let t := ep.transmit junk st req
    match req.opcode with
    | .rdmaReadResp => { h with answers := h.answers ++ [⟨ep.mem, ep.ddp.outb, t.out⟩] }
    | .rdmaReadReq => if t.ret.isSome then { h with reads := h.reads ++ [req] } else h
    | _ => h
  | _ => h

/-! ## Steps -/

structure Sys where
  st : Statics
  ep : Ep
  /-- The receive the application is posting: its buffer is on queue 0, the
      work request is not on the receive queue. -/
  posting : Option RecvWr
  hist : History

inductive Label
  /-- A step of `rnic_recv`. -/
  | recv
  /-- A step of `rnic_send`. -/
  | send (junk : DdpUntaggedMeta)
  /-- `rdmap_send`, `rdmap_write` or `rdmap_read`. -/
  | post (wr : SendWr)
  /-- The first queue operation of `rdma_post_recv`. -/
  | postBuffers (wr : RecvWr)
  /-- The second one. -/
  | postWr
  /-- `rdma_register`. -/
  | register (buf : TaggedBuffer)
  /-- `rdma_invalidate`. -/
  | invalidate (tag : UInt32)
  /-- The application stores into memory. -/
  | store (ws : List (UInt64 × UInt8))

/-- One step of the system. `rdma_post_recv` is called by one thread, so its
    two operations alternate. -/
def step (bld : Build) : Label → Sys → Sys
  | .recv, s => { s with ep := rnicRecvStep bld s.ep, hist := s.hist.recv bld s.ep }
  | .send junk, s =>
    { s with
      st := (rnicSendStep junk s.st s.ep).1
      ep := (rnicSendStep junk s.st s.ep).2
      hist := s.hist.send junk s.st s.ep }
  | .post wr, s =>
    { s with ep := rdmapPost s.ep wr, hist := { s.hist with reqs := s.hist.reqs ++ [wr] } }
  | .postBuffers wr, s =>
    match s.posting with
    | none =>
      { s with
        ep := postRecvBuffers s.ep wr
        posting := some wr
        hist := { s.hist with posted := s.hist.posted ++ [wr] } }
    | some _ => s
  | .postWr, s =>
    match s.posting with
    | none => s
    | some wr => { s with ep := postRecvWr s.ep wr, posting := none }
  | .register buf, s => { s with ep := rdmaRegister s.ep buf }
  | .invalidate tag, s => { s with ep := rdmaInvalidate s.ep tag }
  | .store ws, s => { s with ep := { s.ep with mem := s.ep.mem.write ws } }

/-- The application's calls change memory, the work queues, the registry and the
    buffers of the receives, and nothing else of the stream. -/
theorem step_call (bld : Build) {l : Label} (hl : l ≠ .recv) (hl' : ∀ junk, l ≠ .send junk)
    (s : Sys) :
    (step bld l s).st = s.st ∧ ∃ mem sq rq queues tags,
      (step bld l s).ep = { s.ep with
        mem := mem
        sq := sq
        rq := rq
        ddp := { s.ep.ddp with queues := queues, taggedBuffers := tags } } ∧
      (queues 1).q = (s.ep.ddp.queues 1).q := by
  cases l with
  | recv => exact absurd rfl hl
  | send junk => exact absurd rfl (hl' junk)
  | postBuffers wr =>
    unfold step
    simp only
    split <;> exact ⟨rfl, _, _, _, _, _, rfl, rfl⟩
  | postWr =>
    unfold step
    simp only
    split <;> exact ⟨rfl, _, _, _, _, _, rfl, rfl⟩
  | post wr => exact ⟨rfl, _, _, _, _, _, rfl, rfl⟩
  | register buf => exact ⟨rfl, _, _, _, _, _, rfl, rfl⟩
  | invalidate tag => exact ⟨rfl, _, _, _, _, _, rfl, rfl⟩
  | store ws => exact ⟨rfl, _, _, _, _, _, rfl, rfl⟩

/-- The request `rnic_send` has dequeued and not sent. -/
def SendPc.held : SendPc → List SendWr
  | .transmit req => [req]
  | _ => []

/-! ## New streams -/

/-- A new stream: nothing has been posted and no thread has moved. -/
structure NewStream (s : Sys) : Prop where
  recvPc : s.ep.recvPc = .idle
  sendPc : s.ep.sendPc = .idle
  sq : s.ep.sq = []
  rq : s.ep.rq = []
  cqs : ∀ i, s.ep.cqs i = ⟨[], []⟩
  buffers : (s.ep.ddp.queues 0).q = []
  opcode : s.ep.readResp.opcode = .rdmaReadResp
  list : s.ep.readResp.sgList = .recvSg
  posting : s.posting = none
  hist : s.hist = {}

/-- The read request buffers go to queue 1. -/
theorem postReadBuffers_queue (bufs : List UInt64) (ctx : DdpCtx) :
    (bufs.foldl (fun ctx a => ddpPostRecv ctx readQn.toNat [⟨a, UInt32.ofNat readReqFieldsSize⟩])
      ctx).queues 0 = ctx.queues 0 := by
  induction bufs generalizing ctx with
  | nil => rfl
  | cons a bufs ih => exact ih _

theorem newStream_init (st : Statics) (mem : Mem) (inb : Inbound) (outb : Outbound)
    (sendCq recvCq : ℕ) (bufs : List UInt64) (msg : DdpMessage) (sg : Sge) :
    NewStream ⟨st, rdmapInitStream mem inb outb sendCq recvCq bufs msg sg, none, {}⟩ where
  recvPc := rfl
  sendPc := rfl
  sq := rfl
  rq := rfl
  cqs _ := rfl
  buffers := congrArg UntaggedBufferQueue.q (postReadBuffers_queue bufs _)
  opcode := rfl
  list := rfl
  posting := rfl
  hist := rfl

/-! ## The switch -/

/-- The next step of `rnic_recv` handles a message with the opcode `op`. -/
def Ep.handles (ep : Ep) (op : RdmaOpcode) : Prop :=
  match ep.recvPc with
  | .dispatch _ => ep.opcode = some op
  | _ => False

instance (ep : Ep) (op : RdmaOpcode) : Decidable (ep.handles op) :=
  match h : ep.recvPc with
  | .dispatch _ => decidable_of_iff (ep.opcode = some op) (by rw [Ep.handles, h])
  | .idle | .payload _ | .enqResp | .repost | .enqRead _ | .enqRecv _ | .stuck | .exited _
  | .aborted => isFalse (by simp [Ep.handles, h])

/-- The four sends. -/
def RdmaOpcode.IsSend : RdmaOpcode → Prop
  | .send => True
  | .sendSe => True
  | .sendInval => True
  | .sendSeInval => True
  | _ => False

/-- After the switch nothing is left to do for the message: the loop goes on,
    or the thread is over. -/
inductive RecvPc.Ended (op : Option RdmaOpcode) : RecvPc → Prop
  | idle (h : ∀ o, op = some o → ¬o.IsSend ∧ o ≠ .rdmaReadReq ∧ o ≠ .rdmaReadResp) : Ended op .idle
  | exited (ret : ℤ) : Ended op (.exited ret)
  | aborted : Ended op .aborted

/-- The state with another registry. -/
def Ep.withTags (ep : Ep) (tags : UInt32 → Option TaggedBuffer) : Ep :=
  { ep with ddp := { ep.ddp with taggedBuffers := tags } }

/-- What the switch can do: handle a read request, a read response or a send,
    or change at most the registry and the flag `connected`. -/
inductive Dispatched (bld : Build) (ep : Ep) (ret : ℤ) : Ep → Prop
  | request (h : ep.opcode = some .rdmaReadReq) : Dispatched bld ep ret (ep.fillResp bld)
  | response (h : ep.opcode = some .rdmaReadResp) : Dispatched bld ep ret (ep.takePending ret)
  | send {op : RdmaOpcode} (tags : UInt32 → Option TaggedBuffer) (h : ep.opcode = some op)
      (hs : op.IsSend) : Dispatched bld ep ret ((ep.withTags tags).takeRecv op ret)
  | ended (tags : UInt32 → Option TaggedBuffer) (con : Bool) {pc : RecvPc}
      (h : pc.Ended ep.opcode) :
      Dispatched bld ep ret { ep.withTags tags with connected := con, recvPc := pc }

section

variable (bld : Build) (ep : Ep) (ret : ℤ)

/-- A read response takes the oldest pending completion, if there is one. -/
theorem takePending_cases :
    ((ep.cqs ep.sendCq).pendingQ = [] ∧ ep.takePending ret = { ep with recvPc := .idle }) ∨
    ∃ wce pending, (ep.cqs ep.sendCq).pendingQ = wce :: pending ∧
      ep.takePending ret = { ep with
        cqs := Function.update ep.cqs ep.sendCq { ep.cqs ep.sendCq with pendingQ := pending }
        recvPc := .enqRead { wce with byteLen := UInt32.ofInt ret } } := by
  unfold Ep.takePending
  cases hq : (ep.cqs ep.sendCq).pendingQ with
  | nil => exact .inl ⟨rfl, rfl⟩
  | cons wce pending => exact .inr ⟨wce, pending, rfl, rfl⟩

/-- A send takes the oldest receive request, if there is one. -/
theorem takeRecv_cases (op : RdmaOpcode) :
    (ep.rq = [] ∧ ep.takeRecv op ret = { ep with recvPc := .idle }) ∨
    ∃ wr rq, ep.rq = wr :: rq ∧
      ep.takeRecv op ret = { ep with
        rq := rq
        recvPc := .enqRecv ⟨wr.wrId, .success, op.toWc, UInt32.ofInt ret⟩ } := by
  unfold Ep.takeRecv
  cases hq : ep.rq with
  | nil => exact .inl ⟨rfl, rfl⟩
  | cons wr rq => exact .inr ⟨wr, rq, rfl, rfl⟩

theorem Dispatched.assertThen (cond : Bool) {next : Ep} (h : Dispatched bld ep ret next) :
    Dispatched bld ep ret (ep.assertThen bld cond next) := by
  unfold Ep.assertThen
  split
  · exact h
  · exact .ended ep.ddp.taggedBuffers ep.connected .aborted

theorem Dispatched.recvSend {op : RdmaOpcode} (tags : UInt32 → Option TaggedBuffer)
    (h : ep.opcode = some op) (hs : op.IsSend) :
    Dispatched bld ep ret ((ep.withTags tags).recvSend bld op ret) := by
  unfold Ep.recvSend Ep.assertThen
  split
  · exact .send tags h hs
  · exact .ended tags ep.connected .aborted

theorem Dispatched.recvSendInval {op : RdmaOpcode} (h : ep.opcode = some op) (hs : op.IsSend) :
    Dispatched bld ep ret (ep.recvSendInval bld op ret) := by
  have heq : ep.recvSendInval bld op ret =
      if (deregisterTaggedBuffer ep.ddp ep.msg.taggedMetadata.rsvdULP1.toUInt32).1 ≤ 0 then
        { ep.withTags (Function.update ep.ddp.taggedBuffers
            ep.msg.taggedMetadata.rsvdULP1.toUInt32 none) with recvPc := .exited (-1) }
      else (ep.withTags (Function.update ep.ddp.taggedBuffers
          ep.msg.taggedMetadata.rsvdULP1.toUInt32 none)).recvSend bld op ret := rfl
  rw [heq]
  split
  · exact .ended _ ep.connected (.exited (-1))
  · exact .recvSend bld ep ret _ h hs

theorem dispatch_cases : Dispatched bld ep ret (ep.dispatch bld ret) := by
  have ended : ∀ con, (∀ o, ep.opcode = some o → ¬o.IsSend ∧ o ≠ .rdmaReadReq ∧ o ≠ .rdmaReadResp) →
      Dispatched bld ep ret { ep with connected := con, recvPc := .idle } :=
    fun con h => .ended ep.ddp.taggedBuffers con (.idle h)
  unfold Ep.dispatch
  split
  case h_1 h => exact .assertThen bld ep ret _ (ended _ (by simp [h, RdmaOpcode.IsSend]))
  case h_2 h => exact .assertThen bld ep ret _ (.request h)
  case h_3 h => exact .assertThen bld ep ret _ (.response h)
  case h_4 h => exact .recvSendInval bld ep ret h trivial
  case h_5 h => exact .recvSendInval bld ep ret h trivial
  case h_6 h => exact .recvSend bld ep ret ep.ddp.taggedBuffers h trivial
  case h_7 h => exact .recvSend bld ep ret ep.ddp.taggedBuffers h trivial
  case h_8 h => exact .assertThen bld ep ret _ (ended _ (by simp [h, RdmaOpcode.IsSend]))
  case h_9 h => exact ended _ (by simp [h, RdmaOpcode.IsSend])
  case h_10 h => exact ended _ (by simp [h])

/-- At the top of the loop `ddp_recv` begins. -/
theorem recvStep_idle {ep : Ep} (hpc : ep.recvPc = .idle) (hcon : ep.connected = true) :
    let h := ddpRecvHead ep.ddp ep.msg
    ∃ pc, rnicRecvStep bld ep = { ep with ddp := h.ctx, msg := h.msg, recvPc := pc } ∧
      ((∃ r, h.next = .inl r ∧ pc = .ofRet r) ∨ ∃ c, h.next = .inr c ∧ pc = .payload c) := by
  simp only [rnicRecvStep, hpc, hcon, if_true]
  cases hn : (ddpRecvHead ep.ddp ep.msg).next with
  | inl r => exact ⟨.ofRet r, rfl, .inl ⟨r, rfl, rfl⟩⟩
  | inr c => exact ⟨.payload c, rfl, .inr ⟨c, rfl, rfl⟩⟩

/-- When `ddp_recv` has returned the switch follows. -/
theorem recvStep_dispatch {ep : Ep} {ret : ℤ} (hpc : ep.recvPc = .dispatch ret) :
    rnicRecvStep bld ep = ep.dispatch bld ret := by
  unfold rnicRecvStep
  rw [hpc]

theorem ofRet_ne_enqResp (r : Ret) : RecvPc.ofRet r ≠ .enqResp := by
  cases r with
  | val r =>
    simp only [RecvPc.ofRet]
    split <;> simp
  | blocked => simp [RecvPc.ofRet]
  | spin => simp [RecvPc.ofRet]

/-! ## What a step adds to the history -/

variable (h : History)

theorem History.recv_answers : (h.recv bld ep).answers = h.answers := by
  unfold History.recv
  split
  · split <;> rfl
  · split
    · rfl
    · rfl
    · split <;> rfl
  all_goals rfl

theorem History.recv_posted : (h.recv bld ep).posted = h.posted := by
  unfold History.recv
  split
  · split <;> rfl
  · split
    · rfl
    · rfl
    · split <;> rfl
  all_goals rfl

/-- Outside the switch no request is recorded, and in it only with `enqResp`. -/
theorem History.recv_requests
    (hne : ∀ ret, ep.recvPc = .dispatch ret → (ep.dispatch bld ret).recvPc ≠ .enqResp) :
    (h.recv bld ep).requests = h.requests := by
  unfold History.recv
  split
  · split <;> rfl
  · rename_i ret hpc
    split
    · exact absurd ‹_› (hne ret hpc)
    · rfl
    · split <;> rfl
  all_goals rfl

end

/-! ## Concrete streams -/

/-- A read request message. -/
def readReqMsg (msn : UInt32) (f : ReadReqFields) : List UInt8 :=
  fpdu [[0x41], DdpUntaggedMeta.bytes ⟨rdmaHdr .rdmaReadReq, 0, htonl readQn, htonl msn, 0⟩, f.bytes]

/-- A new stream on which the peer sends `bs`, with two buffers for read
    requests and memory that holds the low byte of each address. -/
def newSys (bs : List UInt8) : Sys where
  st := {}
  ep := rdmapInitStream ⟨fun a => a.toUInt8, []⟩ { pending := bs, eof := false } ⟨[], []⟩ 0 0
    [0x9000, 0x9100] ⟨0, fun _ => 0, .untag ⟨0, 0⟩, 0⟩ ⟨0, 0, 0⟩
  posting := none
  hist := {}

theorem newStream_newSys (bs : List UInt8) : NewStream (newSys bs) := newStream_init _ _ _ _ _ _ _ _ _

end SoftUiWarp
