import SoftUiWarp.Rdmap.HandlerTags
import SoftUiWarp.Rdmap.ReadEndToEnd

/-!
# The buffers of the read requests

`ddp_recv` takes a buffer from the queue that the header names, and `rnic_recv`
puts one back into queue 1 if the opcode is that of a read request. The peer
chooses the two independently. If read requests, and no other messages, come on
queue 1, the pool is conserved.

Results:
* `ddpRecvHead_queue`: what a message takes from a queue.
* `poolInv_step`, `pool_conserved`: the pool between messages.
* `pool_loses_and_gains`: a Send on queue 1, and a Read Request on queue 0.
-/

namespace SoftUiWarp

open TcpStream ByteMem Runs

/-! ## The buffer a message takes -/

/-- The message uses the queue `i`. -/
def DdpMessage.OnQueue (i : Fin 3) (m : DdpMessage) : Prop :=
  ddpIsTagged m.hdr = false ∧ m.untaggedMetadata.qn.toNat = i

instance (i : Fin 3) (m : DdpMessage) : Decidable (m.OnQueue i) :=
  inferInstanceAs (Decidable (_ ∧ _))

/-- A message takes the first buffer of its own queue, if there is one. -/
theorem ddpRecvHead_queue (i : Fin 3) {ctx : DdpCtx} {msg : DdpMessage} {c : SegCtx}
    (hnext : (ddpRecvHead ctx msg).next = .inr c) :
    let h := ddpRecvHead ctx msg
    (ctx.queues i).q =
      (if h.msg.OnQueue i ∧ (ctx.queues i).q ≠ [] then [h.msg.buf.untagBuf] else []) ++
        (h.ctx.queues i).q := by
  have h := ddpRecvHead_cases ctx msg
  generalize ddpRecvHead ctx msg = out at h hnext
  cases h with
  | failed => cases hnext
  | @tagged _ inb m htag =>
    have hn : ¬m.OnQueue i := fun hq => by
      rw [DdpMessage.OnQueue, htag] at hq
      cases hq.1
    show (ctx.queues i).q = (if _ then _ else _) ++ (ctx.queues i).q
    rw [if_neg (fun h => hn h.1), List.nil_append]
  | @untagged _ inb m qn htag hqn =>
    cases hb : (ctx.queues qn).q with
    | nil =>
      simp only [tryDequeueBuf, hb]
      by_cases hi : i = qn
      · rw [hi, hb]
        simp
      · rw [if_neg, List.nil_append]
        rintro ⟨⟨-, hqi⟩, -⟩
        have hqi' : m.untaggedMetadata.qn.toNat = i := hqi
        exact hi (Fin.ext (hqi'.symm.trans hqn))
    | cons b bs =>
      simp only [tryDequeueBuf, hb]
      by_cases hi : i = qn
      · have hon : DdpMessage.OnQueue i { m with buf := .untag b } := ⟨htag, by rw [hi]; exact hqn⟩
        subst hi
        rw [if_pos ⟨hon, by rw [hb]; simp⟩, Function.update_self, hb]
        rfl
      · rw [if_neg, List.nil_append, Function.update_of_ne hi]
        rintro ⟨⟨-, hqi⟩, -⟩
        have hqi' : m.untaggedMetadata.qn.toNat = i := hqi
        exact hi (Fin.ext (hqi'.symm.trans hqn))

/-! ## The invariant -/

/-- The queue 1 of the read requests. -/
def readQueue : Fin 3 := ⟨readQn.toNat, readQn_lt⟩

/-- The buffer of the pool `pool` that `rnic_recv` has taken. -/
def Ep.borrowed (pool : List UntaggedBuffer) (ep : Ep) : List UntaggedBuffer :=
  match ep.recvPc with
  | .payload _ | .dispatch _ =>
    if ep.msg.OnQueue readQueue ∧ pool ≠ [] then [ep.msg.buf.untagBuf] else []
  | .enqResp | .repost => [ep.msg.buf.untagBuf]
  | _ => []

/-- In the loop, queue 1 and the buffer that is taken are the pool. -/
def PoolInv (pool : List UntaggedBuffer) (s : Sys) : Prop :=
  s.ep.recvPc.Running → (s.ep.borrowed pool ++ s.ep.readPool).Perm pool

/-- Read requests, and no other messages, come on queue 1, if it has buffers. -/
def PoolTraffic (pool : List UntaggedBuffer) : Label → Sys → Prop
  | .recv, s =>
    match s.ep.recvPc with
    | .dispatch _ => s.ep.opcode = some .rdmaReadReq ↔ s.ep.msg.OnQueue readQueue ∧ pool ≠ []
    | _ => True
  | _, _ => True

instance (pool : List UntaggedBuffer) : ∀ (l : Label) (s : Sys), Decidable (PoolTraffic pool l s)
  | .recv, s =>
    match h : s.ep.recvPc with
    | .dispatch _ =>
      decidable_of_iff (s.ep.opcode = some .rdmaReadReq ↔ s.ep.msg.OnQueue readQueue ∧ pool ≠ [])
        (by rw [PoolTraffic, h])
    | .idle | .payload _ | .enqResp | .repost | .enqRead _ | .enqRecv _ | .stuck | .exited _
    | .aborted => isTrue (by simp [PoolTraffic, h])
  | .post _, _ | .send _, _ | .postBuffers _, _ | .postWr, _ | .register _, _ | .invalidate _, _
  | .store _, _ => isTrue trivial

section

variable {bld : Build} {pool : List UntaggedBuffer} {s : Sys}

/-- `ddp_recv` starts a message. -/
theorem poolInv_idle (h : PoolInv pool s) (hpc : s.ep.recvPc = .idle) :
    PoolInv pool (step bld .recv s) := by
  intro hin
  have hstep : (step bld .recv s).ep = rnicRecvStep bld s.ep := rfl
  have hq : s.ep.readPool.Perm pool := by
    have h0 := h (by rw [hpc]; trivial)
    unfold Ep.borrowed at h0
    rw [hpc] at h0
    exact h0
  rw [hstep] at hin ⊢
  cases hcon : s.ep.connected with
  | false =>
    unfold rnicRecvStep at hin
    simp only [hpc, hcon] at hin
    exact hin.elim
  | true =>
    obtain ⟨pc, heq, hnext⟩ := recvStep_idle bld hpc hcon
    rw [heq] at hin ⊢
    rcases hnext with ⟨r, hnext, rfl⟩ | ⟨c, hnext, rfl⟩
    · rcases ofRet_head hnext with hx | hx <;>
      · rw [hx] at hin
        exact hin.elim
    · have htake := ddpRecvHead_queue readQueue hnext
      have hne : (s.ep.ddp.queues readQueue).q ≠ [] ↔ pool ≠ [] :=
        not_congr ⟨fun h => List.nil_perm.mp (h ▸ hq), fun h => List.perm_nil.mp (h ▸ hq)⟩
      have hperm : (s.ep.ddp.queues readQueue).q.Perm pool := hq
      simp only [hne] at htake
      rw [htake] at hperm
      exact hperm

/-- `ddp_recv` ends. -/
theorem poolInv_payload {c : SegCtx} (h : PoolInv pool s) (hpc : s.ep.recvPc = .payload c) :
    PoolInv pool (step bld .recv s) := by
  intro hin
  have hstep : (step bld .recv s).ep = rnicRecvStep bld s.ep := rfl
  have h0 := h (by rw [hpc]; trivial)
  unfold Ep.borrowed at h0
  rw [hpc] at h0
  rw [hstep] at hin ⊢
  obtain ⟨hqs, -, hhdr, hbuf, hqn⟩ := ddpRecvPayload_keeps s.ep.ddp s.ep.mem s.ep.msg c
  unfold rnicRecvStep at hin ⊢
  simp only [hpc] at hin ⊢
  generalize ddpRecvPayload s.ep.ddp s.ep.mem s.ep.msg c = r at hin hqs hhdr hbuf hqn ⊢
  rcases ofRet_cases r.ret with ⟨ret, hr⟩ | hr | hr
  · have hon : r.msg.OnQueue readQueue ↔ s.ep.msg.OnQueue readQueue := by
      unfold DdpMessage.OnQueue
      rw [hhdr, hqn]
    unfold Ep.borrowed
    simp only [hr, hon, hbuf]
    unfold Ep.readPool
    simp only [hqs]
    exact h0
  all_goals
    rw [hr] at hin
    exact hin.elim

/-- The switch. -/
theorem poolInv_dispatch {ret : ℤ} (h : PoolInv pool s) (hpc : s.ep.recvPc = .dispatch ret)
    (hG : PoolTraffic pool .recv s) : PoolInv pool (step bld .recv s) := by
  intro hin
  have hstep : (step bld .recv s).ep = s.ep.dispatch bld ret := recvStep_dispatch bld hpc
  have h0 := h (by rw [hpc]; trivial)
  unfold Ep.borrowed at h0
  rw [hpc] at h0
  have hiff : s.ep.opcode = some .rdmaReadReq ↔ s.ep.msg.OnQueue readQueue ∧ pool ≠ [] := by
    unfold PoolTraffic at hG
    simp only [hpc] at hG
    exact hG
  rw [hstep] at hin ⊢
  have hd := dispatch_cases bld s.ep ret
  generalize s.ep.dispatch bld ret = ep' at hd hin
  -- a message that is not a read request has taken nothing from the pool
  have hkeep : s.ep.opcode ≠ some .rdmaReadReq → s.ep.readPool.Perm pool := by
    intro hne
    simp only [if_neg (fun hq => hne (hiff.mpr hq))] at h0
    exact h0
  cases hd with
  | request hop =>
    simp only [if_pos (hiff.mp hop)] at h0
    exact h0
  | response hop =>
    have hperm := hkeep (by rw [hop]; simp)
    obtain ⟨-, heq⟩ | ⟨wce, pending, -, heq⟩ := takePending_cases s.ep ret
    all_goals
      rw [heq]
      exact hperm
  | @send op tags hop hs =>
    have hperm := hkeep (by
      rw [hop]
      rintro ⟨⟩
      exact hs)
    obtain ⟨-, heq⟩ | ⟨wr, rq, -, heq⟩ := takeRecv_cases (s.ep.withTags tags) ret op
    all_goals
      rw [heq]
      exact hperm
  | ended tags con hpc' =>
    cases hpc' with
    | idle hother => exact hkeep (fun hop => (hother _ hop).2.1 rfl)
    | exited => exact hin.elim
    | aborted => exact hin.elim

/-- The answer is enqueued, and the buffer of the request put back. -/
theorem poolInv_answer (h : PoolInv pool s) (hpc : s.ep.recvPc = .enqResp ∨ s.ep.recvPc = .repost) :
    PoolInv pool (step bld .recv s) := by
  intro hin
  have h0 := h (by rcases hpc with hpc | hpc <;> rw [hpc] <;> trivial)
  unfold Ep.borrowed at h0
  show ((rnicRecvStep bld s.ep).borrowed pool ++ (rnicRecvStep bld s.ep).readPool).Perm pool
  unfold rnicRecvStep
  rcases hpc with hpc | hpc
  · rw [hpc] at h0 ⊢
    exact h0
  · rw [hpc] at h0 ⊢
    have hback : Ep.readPool { s.ep with
        ddp := ddpPostRecv s.ep.ddp readQn.toNat [s.ep.msg.buf.untagBuf]
        recvPc := .idle } = s.ep.readPool ++ [s.ep.msg.buf.untagBuf] := by
      show (Function.update s.ep.ddp.queues 1 { s.ep.ddp.queues 1 with
        q := (s.ep.ddp.queues 1).q ++ [s.ep.msg.buf.untagBuf] } 1).q = _
      rw [Function.update_self]
      rfl
    show ([] ++ Ep.readPool { s.ep with
      ddp := ddpPostRecv s.ep.ddp readQn.toNat [s.ep.msg.buf.untagBuf]
      recvPc := .idle }).Perm pool
    rw [List.nil_append, hback]
    exact List.perm_append_comm.trans h0

theorem poolInv_recv (h : PoolInv pool s) (hG : PoolTraffic pool .recv s) :
    PoolInv pool (step bld .recv s) := by
  cases hpc : s.ep.recvPc with
  | idle => exact poolInv_idle h hpc
  | payload c => exact poolInv_payload h hpc
  | dispatch ret => exact poolInv_dispatch h hpc hG
  | enqResp => exact poolInv_answer h (.inl hpc)
  | repost => exact poolInv_answer h (.inr hpc)
  | enqRead wce | enqRecv wce =>
    intro _
    have h0 := h (by rw [hpc]; trivial)
    unfold Ep.borrowed at h0
    show ((rnicRecvStep bld s.ep).borrowed pool ++ (rnicRecvStep bld s.ep).readPool).Perm pool
    unfold rnicRecvStep
    rw [hpc] at h0 ⊢
    exact h0
  | stuck | exited ret | aborted =>
    intro hin
    unfold step rnicRecvStep at hin
    simp only [hpc] at hin
    exact hin.elim

theorem poolInv_step (l : Label) (s : Sys) (h : PoolInv pool s) (hG : PoolTraffic pool l s) :
    PoolInv pool (step bld l s) := by
  by_cases hl : l = .recv
  · subst hl
    exact poolInv_recv h hG
  · obtain ⟨hpc, hmsg, hq⟩ := step_other bld hl s
    have hpool : (step bld l s).ep.readPool = s.ep.readPool := hq
    unfold PoolInv Ep.borrowed
    rw [hpc, hmsg, hpool]
    exact h

end

/-! ## Whole runs -/

/-- A stream that `rdmap_init_stream` has made, with the pool `pool`. -/
def InitStream (pool : List UntaggedBuffer) (s : Sys) : Prop :=
  ∃ st mem inb outb sendCq recvCq bufs msg sg,
    s = ⟨st, rdmapInitStream mem inb outb sendCq recvCq bufs msg sg, none, {}⟩ ∧
      pool = bufs.map fun a => ⟨a, UInt32.ofNat readReqFieldsSize⟩

theorem poolInv_init {pool : List UntaggedBuffer} {s : Sys} (h : InitStream pool s) :
    PoolInv pool s := by
  obtain ⟨st, mem, inb, outb, sendCq, recvCq, bufs, msg, sg, rfl, rfl⟩ := h
  intro _
  have hq := congrArg UntaggedBufferQueue.q (postReadBuffers_readQueue bufs (ddpInitStream inb outb))
  exact List.Perm.of_eq hq

/-- In every run in which read requests, and no other messages, come on queue 1,
    this queue holds the buffers of the pool, each once, between two messages. -/
theorem pool_conserved {bld : Build} {pool : List UntaggedBuffer} {s : Sys}
    (h : Reach (step bld) (PoolTraffic pool) (InitStream pool) s) (hidle : s.ep.recvPc = .idle) :
    (s.ep.ddp.queues 1).q.Perm pool := by
  have hinv : PoolInv pool s := h.invariant (fun _ => poolInv_init) poolInv_step
  have h0 := hinv (by rw [hidle]; trivial)
  unfold Ep.borrowed at h0
  rw [hidle] at h0
  exact h0

/-! ## Three messages -/

/-- The pool of the stream `newSys`. -/
def newPool : List UntaggedBuffer := [⟨0x9000, 28⟩, ⟨0x9100, 28⟩]

theorem initStream_newSys (bs : List UInt8) : InitStream newPool (newSys bs) :=
  ⟨{}, _, _, _, _, _, [0x9000, 0x9100], _, _, rfl, rfl⟩

/-- A read request, while the application posts a receive: its buffer is put back
    at the end. -/
theorem pool_conserved_request :
    let s := run (step ⟨false, false⟩) ([.recv, .postBuffers oneRecv] ++ List.replicate 4 .recv)
      (newSys (readReqMsg 1 ⟨1, 0x10, 2, 0x1000, 0x1002⟩))
    (s.ep.ddp.queues 1).q = [⟨0x9100, 28⟩, ⟨0x9000, 28⟩] ∧ (s.ep.ddp.queues 1).q.Perm newPool := by
  intro s
  have hreach : Reach (step ⟨false, false⟩) (PoolTraffic newPool) (InitStream newPool) s :=
    Reach.run _ (.start (initStream_newSys _)) (by decide +kernel)
  exact ⟨by decide +kernel, pool_conserved hreach rfl⟩

/-- A message with the opcode `op` on the queue `qn`. -/
def queueMsg (op : RdmaOpcode) (qn : UInt32) (p : List UInt8) : List UInt8 :=
  fpdu [[0x41], DdpUntaggedMeta.bytes ⟨rdmaHdr op, 0, htonl qn, htonl 1, 0⟩, p]

/-- A Send on queue 1 takes a buffer of the pool for good. A Read Request on queue
    0 puts the application's receive buffer into the pool. -/
theorem pool_loses_and_gains :
    let s := run (step ⟨false, false⟩) (List.replicate 3 .recv)
      (newSys (queueMsg .send readQn [9]))
    let s' := run (step ⟨false, false⟩) ([.postBuffers oneRecv] ++ List.replicate 5 .recv)
      (newSys (queueMsg .rdmaReadReq sendQn [9]))
    s.ep.recvPc = .idle ∧ (s.ep.ddp.queues 1).q = [⟨0x9100, 28⟩] ∧
      ¬(s.ep.ddp.queues 1).q.Perm newPool ∧
      s'.ep.recvPc = .idle ∧ (s'.ep.ddp.queues 1).q = newPool ++ [⟨0x3000, 1⟩] ∧
      ¬(s'.ep.ddp.queues 1).q.Perm newPool := by
  intro s s'
  have hlost : (s.ep.ddp.queues 1).q = [⟨0x9100, 28⟩] := by decide +kernel
  have hgained : (s'.ep.ddp.queues 1).q = newPool ++ [⟨0x3000, 1⟩] := by decide +kernel
  refine ⟨rfl, hlost, fun h => ?_, rfl, hgained, fun h => ?_⟩
  · rw [hlost] at h
    exact absurd h.length_eq (by decide)
  · rw [hgained] at h
    exact absurd h.length_eq (by decide)

end SoftUiWarp
