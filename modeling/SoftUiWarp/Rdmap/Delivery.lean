import SoftUiWarp.Ddp.RoundTrip
import SoftUiWarp.Lib.Runs
import SoftUiWarp.Rdmap.Model

/-!
# In-order delivery of writes and sends

A sequence of RDMA Writes and Sends, posted to one stream, is a sequence of
transfers: each puts a byte string somewhere in the peer's memory, and a Send
also completes a receive. `rnic_send` turns the requests into bytes, and the
peer's `rnic_recv` applies the transfers one at a time, in order.

Results:
* `rnicSend_emits`: the bytes `rnic_send` emits for a sequence of requests.
* `rnicRecv_applies`: what `rnic_recv` makes of these bytes, with every state
  on the way.
* `in_order_delivery`: the two together.
-/

namespace SoftUiWarp

open TcpStream ByteMem Runs

/-! ## The specification: transfers applied one at a time -/

/-- `content` goes to `addr`; a Send also completes the receive with the given
    identifier. -/
structure Transfer where
  addr : UInt64
  content : List UInt8
  completion : Option (UInt64 × WcStatus × WcOpcode)

/-- The memory after one transfer. -/
def Transfer.apply (m : UInt64 → UInt8) (t : Transfer) : UInt64 → UInt8 :=
  fun a => (t.content[(a - t.addr).toNat]?).getD (m a)

/-- The memory after a sequence of transfers. -/
def applyAll (m : UInt64 → UInt8) (ts : List Transfer) : UInt64 → UInt8 :=
  ts.foldl Transfer.apply m

/-- The completions a sequence of transfers makes. -/
def completions (ts : List Transfer) : List (UInt64 × WcStatus × WcOpcode) :=
  ts.filterMap Transfer.completion

@[simp] theorem applyAll_nil (m : UInt64 → UInt8) : applyAll m [] = m := rfl

@[simp] theorem applyAll_cons (m : UInt64 → UInt8) (t : Transfer) (ts : List Transfer) :
    applyAll m (t :: ts) = applyAll (t.apply m) ts := rfl

/-- The part of a completion the specification speaks about. -/
def WorkCompletion.summary (w : WorkCompletion) : UInt64 × WcStatus × WcOpcode :=
  (w.wrId, w.status, w.opcode)

/-! ## The requests -/

section

variable (smem : Mem) (tags : UInt32 → Option TaggedBuffer)

/-- The requests posted at the sender, the receives posted at the peer, one for
    each Send, and the transfers they stand for; `smem` is the sender's memory
    and `tags` the peer's registry. -/
inductive Posted : List SendWr → List RecvWr → List Transfer → Prop
  | nil : Posted [] [] []
  | write {wr : SendWr} {sges : List Sge} {wrs : List SendWr} {recvs : List RecvWr}
      {ts : List Transfer} (op : wr.opcode = .rdmaWrite) (list : wr.sgList = .user sges)
      (last : LastNonempty sges) (total : sgesLength sges < 2 ^ 31)
      (nowrap : wr.remoteAddr.toNat + sgesLength sges ≤ 2 ^ 64)
      (stag : (ddpCheckStag tags ⟨rdmaHdr .rdmaWrite, wr.rkey, wr.remoteAddr⟩).isSome)
      (rest : Posted wrs recvs ts) :
      Posted (wr :: wrs) recvs (⟨wr.remoteAddr, sgesContent sges smem, none⟩ :: ts)
  | send {wr : SendWr} {sg : Sge} {r : RecvWr} {rsg : Sge} {wrs : List SendWr}
      {recvs : List RecvWr} {ts : List Transfer} (op : wr.opcode = .send ∨ wr.opcode = .sendSe)
      (list : wr.sgList = .user [sg]) (pos : 1 ≤ sg.length.toNat) (le : sg.length.toNat ≤ 65014)
      (recv : r.sgList = [rsg]) (fits : sg.length.toNat ≤ rsg.length.toNat)
      (rest : Posted wrs recvs ts) :
      Posted (wr :: wrs) (r :: recvs)
        (⟨rsg.addr, sg.content smem, some (r.wrId, .success, wr.opcode.toWc)⟩ :: ts)

variable {smem tags}

/-- One successful completion for each Send, with the identifiers of the
    receives in order. -/
theorem Posted.completions {wrs : List SendWr} {recvs : List RecvWr} {ts : List Transfer}
    (h : Posted smem tags wrs recvs ts) :
    (completions ts).map Prod.fst = recvs.map RecvWr.wrId ∧
      ∀ c ∈ SoftUiWarp.completions ts, c.2.1 = .success := by
  induction h with
  | nil => exact ⟨rfl, by simp [SoftUiWarp.completions]⟩
  | write _ _ _ _ _ _ _ ih => exact ih
  | send _ _ _ _ _ _ _ ih =>
    obtain ⟨ih1, ih2⟩ := ih
    refine ⟨congrArg (List.cons _) ih1, ?_⟩
    intro c hc
    rcases List.mem_cons.mp hc with rfl | hc
    · rfl
    · exact ih2 c hc

end

/-! ## The sender -/

/-- `n` steps of `rnic_send`; `junk` are the uninitialised headers. -/
def rnicSend : (junk : ℕ → DdpUntaggedMeta) → ℕ → Statics × Ep → Statics × Ep
  | _, 0, s => s
  | junk, n + 1, s => rnicSend (fun i => junk (i + 1)) n (rnicSendStep (junk 0) s.1 s.2)

/-- The array a request of the application points to. -/
def SendWr.userSges (wr : SendWr) : List Sge :=
  match wr.sgList with
  | .user sges => sges
  | .recvSg => []

/-- The bytes of a write or a send. -/
def reqWire (smem : Mem) (junk : DdpUntaggedMeta) (msn : UInt32) (wr : SendWr) : List UInt8 :=
  if wr.opcode = .rdmaWrite then
    taggedWire ⟨rdmaHdr wr.opcode, htonl wr.rkey, htonll wr.remoteAddr⟩
      (sgePieces wr.userSges smem)
  else untaggedWire
      { junk with rsvdULP1 := rdmaHdr wr.opcode, qn := htonl sendQn, msn := htonl msn }
      (sgePieces wr.userSges smem)

/-- The content of an sge that fits a segment. -/
theorem Sge.content_bounds (smem : Mem) {sg : Sge} (hpos : 1 ≤ sg.length.toNat)
    (hle : sg.length.toNat ≤ 65014) : sg.content smem ≠ [] ∧ (sg.content smem).length ≤ mulpdu := by
  have hlen : (sg.content smem).length = sg.length.toNat := by simp [Sge.content]
  refine ⟨?_, by rw [hlen, mulpdu_eq]; exact hle⟩
  rw [← List.length_pos_iff, hlen]
  exact hpos

/-- A Send of one sge that fits a segment is one segment. -/
theorem reqWire_send (smem : Mem) (junk : DdpUntaggedMeta) (msn : UInt32) {wr : SendWr} {sg : Sge}
    (hop : wr.opcode = .send ∨ wr.opcode = .sendSe) (hl : wr.sgList = .user [sg])
    (hpos : 1 ≤ sg.length.toNat) (hle : sg.length.toNat ≤ 65014) :
    reqWire smem junk msn wr = untaggedWire
      { junk with rsvdULP1 := rdmaHdr wr.opcode, qn := htonl sendQn, msn := htonl msn }
      [sg.content smem] := by
  obtain ⟨hcne, hcle⟩ := Sge.content_bounds smem hpos hle
  have hne : wr.opcode ≠ .rdmaWrite := by rcases hop with hop | hop <;> simp [hop]
  have hu : wr.userSges = [sg] := by rw [SendWr.userSges, hl]
  rw [reqWire, if_neg hne, hu, sgePieces, List.flatMap_cons, List.flatMap_nil, List.append_nil,
    chop_of_length_le hcne hcle]

/-- `bs` are the bytes of the requests, the first Send with number `msn`. -/
def Emits (smem : Mem) : UInt32 → List SendWr → List UInt8 → Prop
  | _, [], bs => bs = []
  | msn, wr :: wrs, bs => ∃ junk bs', bs = reqWire smem junk msn wr ++ bs' ∧
      Emits smem (if wr.opcode = .rdmaWrite then msn else msn + 1) wrs bs'

/-- The parts of the sender's state that its next requests depend on. -/
structure SenderReady (ep : Ep) (wrs : List SendWr) : Prop where
  idle : ep.sendPc = .idle
  connected : ep.connected = true
  sq : ep.sq = wrs
  evs : ep.ddp.outb.evs = []

section

variable {smem : Mem} {tags : UInt32 → Option TaggedBuffer} {ep : Ep} {wr : SendWr}
  {wrs : List SendWr} (junk : DdpUntaggedMeta) (st : Statics)

/-- The message of a write or a send. -/
theorem transmit_eq (hop : wr.opcode = .rdmaWrite ∨ wr.opcode = .send ∨ wr.opcode = .sendSe)
    {sges : List Sge} (hl : wr.sgList = .user sges) (hlen : ∀ sg ∈ sges, sg.length.toNat < 2 ^ 31)
    (hlast : LastNonempty sges) (he : ep.ddp.outb.evs = []) :
    ep.transmit junk st wr =
      ⟨{ st with sendMsn := if wr.opcode = .rdmaWrite then st.sendMsn else st.sendMsn + 1 },
        { ep.ddp.outb with sent := ep.ddp.outb.sent ++ reqWire ep.mem junk st.sendMsn wr },
        some 0⟩ := by
  have hs : ep.sges wr = sges := by rw [Ep.sges, hl]
  have hu : wr.userSges = sges := by rw [SendWr.userSges, hl]
  rcases hop with hop | hop | hop
  · simp only [Ep.transmit, reqWire, hop, hs, hu, ddpSendTagged_eq hlen hlast he, if_true]
  · simp only [Ep.transmit, reqWire, hop, hs, hu, ddpSendUntagged_eq hlen hlast he, reduceCtorEq,
      if_false]
  · simp only [Ep.transmit, reqWire, hop, hs, hu, ddpSendUntagged_eq hlen hlast he, reduceCtorEq,
      if_false]

/-- Two steps of `rnic_send` serve a request without a completion. -/
theorem rnicSend_two {t : TransmitOut} (junk : ℕ → DdpUntaggedMeta) (hidle : ep.sendPc = .idle)
    (hcon : ep.connected = true) (hsq : ep.sq = wr :: wrs) (ht : ep.transmit (junk 1) st wr = t)
    (hret : t.ret = none) :
    rnicSend junk 2 (st, ep) =
      (t.statics, { ep with sq := wrs, ddp := { ep.ddp with outb := t.out }, sendPc := .idle }) := by
  have h1 : rnicSendStep (junk 0) st ep = (st, { ep with sq := wrs, sendPc := .transmit wr }) := by
    simp only [rnicSendStep, hidle, hcon, hsq, if_true]
  have ht' : ({ ep with sq := wrs, sendPc := .transmit wr } : Ep).transmit (junk 1) st wr = t := ht
  simp only [rnicSend, h1]
  simp only [rnicSendStep, ht', hret]

/-- Three steps of `rnic_send` serve a request with a completion. -/
theorem rnicSend_three {t : TransmitOut} {ret : ℤ} (junk : ℕ → DdpUntaggedMeta)
    (hidle : ep.sendPc = .idle) (hcon : ep.connected = true) (hsq : ep.sq = wr :: wrs)
    (ht : ep.transmit (junk 1) st wr = t) (hret : t.ret = some ret) :
    rnicSend junk 3 (st, ep) =
      (t.statics, { ({ ep with sq := wrs, ddp := { ep.ddp with outb := t.out } } : Ep).complete wr ret
        with sendPc := .idle }) := by
  have h1 : rnicSendStep (junk 0) st ep = (st, { ep with sq := wrs, sendPc := .transmit wr }) := by
    simp only [rnicSendStep, hidle, hcon, hsq, if_true]
  have ht' : ({ ep with sq := wrs, sendPc := .transmit wr } : Ep).transmit (junk 1) st wr = t := ht
  have h2 : rnicSendStep (junk 1) st { ep with sq := wrs, sendPc := .transmit wr } =
      (t.statics, { ep with
        sq := wrs
        ddp := { ep.ddp with outb := t.out }
        sendPc := .complete wr ret }) := by
    simp only [rnicSendStep, ht', hret]
  simp only [rnicSend, h1, h2]
  simp only [rnicSendStep, Ep.complete]
  split <;> rfl

/-- Three steps of `rnic_send` send one request. -/
theorem rnicSend_request (junk : ℕ → DdpUntaggedMeta) (h : SenderReady ep (wr :: wrs))
    (hop : wr.opcode = .rdmaWrite ∨ wr.opcode = .send ∨ wr.opcode = .sendSe) {sges : List Sge}
    (hl : wr.sgList = .user sges) (hlen : ∀ sg ∈ sges, sg.length.toNat < 2 ^ 31)
    (hlast : LastNonempty sges) :
    ∃ ep', rnicSend junk 3 (st, ep) =
        ({ st with sendMsn := if wr.opcode = .rdmaWrite then st.sendMsn else st.sendMsn + 1 }, ep') ∧
      SenderReady ep' wrs ∧ ep'.mem = ep.mem ∧
      ep'.ddp.outb.sent = ep.ddp.outb.sent ++ reqWire ep.mem (junk 1) st.sendMsn wr := by
  have hnot : wr.opcode ≠ .rdmaReadReq := by rcases hop with hop | hop | hop <;> simp [hop]
  have hrun := rnicSend_three st junk h.idle h.connected h.sq
    (transmit_eq (junk 1) st hop hl hlen hlast h.evs) rfl
  simp only [Ep.complete, hnot, false_and, if_false] at hrun
  rw [hrun]
  exact ⟨_, rfl, ⟨rfl, h.connected, rfl, h.evs⟩, rfl, rfl⟩

end

theorem rnicSend_add (a b : ℕ) : ∀ (junk : ℕ → DdpUntaggedMeta) (s : Statics × Ep),
    rnicSend junk (a + b) s = rnicSend (fun i => junk (i + a)) b (rnicSend junk a s) := by
  induction a with
  | zero => intro junk s; simp [rnicSend]
  | succ a ih =>
    intro junk s
    rw [Nat.add_right_comm, rnicSend, ih, rnicSend]
    simp only [Nat.add_assoc]

/-- `rnic_send` empties the queue and emits the bytes of the requests. -/
theorem rnicSend_emits {smem : Mem} {tags : UInt32 → Option TaggedBuffer} {wrs : List SendWr}
    {recvs : List RecvWr} {ts : List Transfer} (hp : Posted smem tags wrs recvs ts) :
    ∀ (junk : ℕ → DdpUntaggedMeta) (st : Statics) (ep : Ep), SenderReady ep wrs → ep.mem = smem →
      ∃ bs, Emits smem st.sendMsn wrs bs ∧
        SenderReady (rnicSend junk (3 * wrs.length) (st, ep)).2 [] ∧
        (rnicSend junk (3 * wrs.length) (st, ep)).2.ddp.outb.sent = ep.ddp.outb.sent ++ bs := by
  -- a request whose list is `sges`, then the others
  have step : ∀ {wr : SendWr} {wrs : List SendWr} {sges : List Sge},
      (wr.opcode = .rdmaWrite ∨ wr.opcode = .send ∨ wr.opcode = .sendSe) →
      wr.sgList = .user sges → (∀ sg ∈ sges, sg.length.toNat < 2 ^ 31) → LastNonempty sges →
      (∀ (junk : ℕ → DdpUntaggedMeta) (st : Statics) (ep : Ep), SenderReady ep wrs → ep.mem = smem →
        ∃ bs, Emits smem st.sendMsn wrs bs ∧
          SenderReady (rnicSend junk (3 * wrs.length) (st, ep)).2 [] ∧
          (rnicSend junk (3 * wrs.length) (st, ep)).2.ddp.outb.sent = ep.ddp.outb.sent ++ bs) →
      ∀ (junk : ℕ → DdpUntaggedMeta) (st : Statics) (ep : Ep), SenderReady ep (wr :: wrs) →
        ep.mem = smem →
        ∃ bs, Emits smem st.sendMsn (wr :: wrs) bs ∧
          SenderReady (rnicSend junk (3 * (wr :: wrs).length) (st, ep)).2 [] ∧
          (rnicSend junk (3 * (wr :: wrs).length) (st, ep)).2.ddp.outb.sent =
            ep.ddp.outb.sent ++ bs := by
    intro wr wrs sges hop hl hlen hlast ih junk st ep h hm
    obtain ⟨ep', hrun, hready, hmem, hsent⟩ := rnicSend_request st junk h hop hl hlen hlast
    rw [hm] at hmem hsent
    obtain ⟨bs, hbs, hend, hall⟩ := ih (fun i => junk (i + 3)) _ ep' hready hmem
    have hn : 3 * (wr :: wrs).length = 3 + 3 * wrs.length := by
      rw [List.length_cons]
      omega
    rw [hn, rnicSend_add, hrun]
    exact ⟨_, ⟨junk 1, bs, rfl, hbs⟩, hend, by rw [hall, hsent, List.append_assoc]⟩
  induction hp with
  | nil =>
    intro junk st ep h _
    exact ⟨[], rfl, h, by simp [rnicSend]⟩
  | write op list last total _ _ _ ih =>
    refine step (.inl op) list (fun sg hsg => ?_) last ih
    have := length_le_sgesLength hsg
    omega
  | send op list pos le _ _ _ ih =>
    refine step (.inr op) list (fun sg hsg => ?_) ⟨_, rfl, pos⟩ ih
    rw [List.mem_singleton.mp hsg]
    omega

/-! ## The peer -/

/-- The thread is in its loop. -/
def RecvPc.Running : RecvPc → Prop
  | .stuck => False
  | .exited _ => False
  | .aborted => False
  | _ => True

/-- The peer has applied a prefix of the transfers. When its completions are
    those of the first `k`, at least these are in memory. -/
structure Progress (m₀ : UInt64 → UInt8) (cq₀ : List WorkCompletion) (ts : List Transfer)
    (ep : Ep) : Prop where
  running : ep.recvPc.Running
  applied : ∃ k ≤ ts.length,
    (∃ ws, ep.cq = cq₀ ++ ws ∧ ws.map WorkCompletion.summary = completions (ts.take k)) ∧
      (ep.mem.load = applyAll m₀ (ts.take k) ∨ ep.mem.load = applyAll m₀ (ts.take (k + 1)))

/-- The peer is between two messages, `recvs` are posted, everything is ready
    and the stream starts with `bs`. -/
structure PeerReady (tags : UInt32 → Option TaggedBuffer) (recvs : List RecvWr)
    (bs rest : List UInt8) (ep : Ep) : Prop where
  idle : ep.recvPc = .idle
  connected : ep.connected = true
  registry : ep.ddp.taggedBuffers = tags
  buffers : (ep.ddp.queues 0).q = recvs.flatMap fun r => r.sgList.map Sge.toBuffer
  msn : (ep.ddp.queues 0).msn = 1
  rq : ep.rq = recvs
  failFree : ep.ddp.inb.FailFree
  ready : ∀ p, maxRwCount ≤ ep.ddp.inb.ready p
  pending : ep.ddp.inb.pending = bs ++ rest

section

variable (bld : Build) {ep : Ep} {t : Transfer} {ts : List Transfer} {m₀ : UInt64 → UInt8}
  {cq₀ : List WorkCompletion}

/-- Before its completion is enqueued, a transfer may be in memory or not. -/
theorem Progress.first (hr : ep.recvPc.Running) (hcq : ep.cq = cq₀)
    (hm : ep.mem.load = m₀ ∨ ep.mem.load = t.apply m₀) : Progress m₀ cq₀ (t :: ts) ep :=
  ⟨hr, 0, Nat.zero_le _, ⟨[], by simp [hcq], rfl⟩, hm⟩

/-- Progress from the second transfer on is progress on the whole sequence. -/
theorem Progress.cons {cq₁ : List WorkCompletion} (ws : List WorkCompletion) (hcq : cq₁ = cq₀ ++ ws)
    (hws : ws.map WorkCompletion.summary = t.completion.toList)
    (h : Progress (t.apply m₀) cq₁ ts ep) : Progress m₀ cq₀ (t :: ts) ep := by
  obtain ⟨hr, k, hk, ⟨ws', hcq', hws'⟩, hm⟩ := h
  refine ⟨hr, k + 1, by simpa using hk, ⟨ws ++ ws', ?_, ?_⟩, hm⟩
  · rw [hcq', hcq, List.append_assoc]
  · rw [List.map_append, hws, hws', List.take_succ_cons, completions, completions,
      List.filterMap_cons]
    cases t.completion <;> rfl

/-- A call of `ddp_recv` with a payload is two steps. -/
theorem recvStep_payload {r : DdpOut} {c : SegCtx} (hidle : ep.recvPc = .idle)
    (hcon : ep.connected = true) (hr : ddpRecv ep.ddp ep.mem ep.msg = r) (hret : r.ret = .val 0)
    (hn : (ddpRecvHead ep.ddp ep.msg).next = .inr c) :
    rnicRecvStep bld ep = { ep with
        ddp := (ddpRecvHead ep.ddp ep.msg).ctx
        msg := (ddpRecvHead ep.ddp ep.msg).msg
        recvPc := .payload c } ∧
      rnicRecvStep bld (rnicRecvStep bld ep) =
        { ep with ddp := r.ctx, mem := r.mem, msg := r.msg, recvPc := .dispatch 0 } := by
  simp only [ddpRecv, hn] at hr
  have hs : rnicRecvStep bld ep = { ep with
      ddp := (ddpRecvHead ep.ddp ep.msg).ctx
      msg := (ddpRecvHead ep.ddp ep.msg).msg
      recvPc := .payload c } := by
    simp only [rnicRecvStep, hidle, hcon, if_true, hn]
  refine ⟨hs, ?_⟩
  rw [hs]
  simp only [rnicRecvStep, hr, hret, RecvPc.ofRet, lt_irrefl, if_false]

/-- A call of `ddp_recv` that returns 0 is one or two steps. -/
theorem through_ddpRecv {P : Ep → Prop} {r : DdpOut} (hidle : ep.recvPc = .idle)
    (hcon : ep.connected = true) (hr : ddpRecv ep.ddp ep.mem ep.msg = r) (hret : r.ret = .val 0)
    (h0 : P ep) (h1 : ∀ ddp msg c, P { ep with ddp := ddp, msg := msg, recvPc := .payload c })
    (h2 : P { ep with ddp := r.ctx, mem := r.mem, msg := r.msg, recvPc := .dispatch 0 }) :
    Through (rnicRecvStep bld) P ep
      { ep with ddp := r.ctx, mem := r.mem, msg := r.msg, recvPc := .dispatch 0 } := by
  cases hn : (ddpRecvHead ep.ddp ep.msg).next with
  | inl ret =>
    simp only [ddpRecv, hn] at hr
    subst hr
    have hs : rnicRecvStep bld ep = { ep with
        ddp := (ddpRecvHead ep.ddp ep.msg).ctx
        msg := (ddpRecvHead ep.ddp ep.msg).msg
        recvPc := .dispatch 0 } := by
      simp only at hret
      simp only [rnicRecvStep, hidle, hcon, if_true, hn, hret, RecvPc.ofRet, lt_irrefl, if_false]
    exact Through.step_of_eq hs h0 h2
  | inr c =>
    obtain ⟨hs, hs2⟩ := recvStep_payload bld hidle hcon hr hret hn
    have hp1 : P (rnicRecvStep bld ep) := by rw [hs]; exact h1 _ _ _
    exact (Through.step h0 hp1).trans (Through.step_of_eq hs2 hp1 h2)

theorem Transfer.apply_stores {a : UInt64} {bs : List UInt8} {m : Mem}
    {o : Option (UInt64 × WcStatus × WcOpcode)} (h : bs.length ≤ 2 ^ 64) :
    (m.write (stores a bs)).load = Transfer.apply m.load ⟨a, bs, o⟩ := by
  funext x
  rw [Mem.load_write, replay_stores_sub bs _ _ _ h]
  rfl

theorem Progress.start (hr : ep.recvPc.Running) : Progress ep.mem.load ep.cq ts ep :=
  ⟨hr, 0, Nat.zero_le _, ⟨[], by simp, rfl⟩, .inl rfl⟩

/-- The opcode the receiver finds is the one the sender put there. -/
theorem ofCode_rdmaHdr {op : RdmaOpcode} (h : op ≠ .notSupported) :
    RdmaOpcode.ofCode (getRdmapOp (rdmaHdr op)) = some op := by
  cases op <;> first | rfl | exact absurd rfl h

variable {tags : UInt32 → Option TaggedBuffer} {recvs : List RecvWr} {bs rest : List UInt8}

theorem PeerReady.four_le (h : PeerReady tags recvs bs rest ep) (p : ℕ) :
    4 ≤ ep.ddp.inb.ready p := by
  have h4 : 4 ≤ maxRwCount := by decide
  exact h4.trans (h.ready p)

theorem recvStep_write {ret : ℤ} (hpc : ep.recvPc = .dispatch ret)
    (hop : ep.opcode = some .rdmaWrite) (ht : ddpIsTagged ep.msg.hdr = true) :
    rnicRecvStep bld ep = { ep with recvPc := .idle } := by
  simp only [rnicRecvStep, hpc, Ep.dispatch, hop, ht, Ep.assertThen, or_true, if_true]

theorem recvStep_send {ret : ℤ} {op : RdmaOpcode} {wr : RecvWr} {rq : List RecvWr}
    (hpc : ep.recvPc = .dispatch ret) (hop : ep.opcode = some op) (h : op = .send ∨ op = .sendSe)
    (ht : ddpIsTagged ep.msg.hdr = false) (hrq : ep.rq = wr :: rq) :
    rnicRecvStep bld ep = { ep with
      rq := rq
      recvPc := .enqRecv ⟨wr.wrId, .success, op.toWc, UInt32.ofInt ret⟩ } := by
  rcases h with rfl | rfl
  all_goals
    simp only [rnicRecvStep, hpc, Ep.dispatch, hop, Ep.recvSend, ht, Ep.assertThen, Bool.not_false,
      or_true, if_true, Ep.takeRecv, hrq]

/-- What `ddp_recv` leaves for the switch when a write has arrived. -/
theorem ddpRecv_write {rkey : UInt32} {addr : UInt64} {ps : List (List UInt8)}
    (h : PeerReady tags recvs
      (taggedWire ⟨rdmaHdr .rdmaWrite, htonl rkey, htonll addr⟩ ps ++ bs) rest ep)
    (hne : ps ≠ []) (hps : ∀ p ∈ ps, p ≠ [] ∧ p.length ≤ mulpdu)
    (htag : (ddpCheckStag tags ⟨rdmaHdr .rdmaWrite, rkey, addr⟩).isSome) :
    ∃ k msg placed, ddpRecv ep.ddp ep.mem ep.msg =
        ⟨.val 0, { ep.ddp with inb := ep.ddp.inb.advance k },
          ep.mem.write (stores addr ps.flatten), msg, placed⟩ ∧
      ep.ddp.inb.pending.drop k = bs ++ rest ∧ ddpIsTagged msg.hdr = true ∧
      msg.hdrUnion 0 = rdmaHdr .rdmaWrite := by
  have hpend := h.pending
  rw [List.append_assoc] at hpend
  obtain ⟨msg, placed, hr, ht, hop⟩ := ddpRecv_tagged_first ep.mem ep.msg h.failFree h.four_le hne
    hps hpend (by rw [h.registry]; exact htag)
  exact ⟨_, msg, placed, hr, by rw [hpend, List.drop_left], ht, hop⟩

/-- What `ddp_recv` leaves for the switch when a send of one segment has arrived. -/
theorem ddpRecv_send {op : RdmaOpcode} {junk : DdpUntaggedMeta} {msn : UInt32} {p : List UInt8}
    {r : RecvWr} {rsg : Sge}
    (h : PeerReady tags (r :: recvs)
      (untaggedWire { junk with rsvdULP1 := rdmaHdr op, qn := htonl sendQn, msn := htonl msn } [p] ++
        bs) rest ep)
    (hne : p ≠ []) (hle : p.length ≤ mulpdu) (hmsn : msn ≠ 0) (hsg : r.sgList = [rsg]) :
    ∃ k msg placed, ddpRecv ep.ddp ep.mem ep.msg =
        ⟨.val 0,
          { ep.ddp with
            inb := ep.ddp.inb.advance k
            queues := Function.update ep.ddp.queues 0 { ep.ddp.queues 0 with
              q := recvs.flatMap fun r => r.sgList.map Sge.toBuffer } },
          ep.mem.write (stores rsg.addr p), msg, placed⟩ ∧
      ep.ddp.inb.pending.drop k = bs ++ rest ∧ ddpIsTagged msg.hdr = false ∧
      msg.hdrUnion 0 = rdmaHdr op := by
  have hpend := h.pending
  rw [List.append_assoc] at hpend
  have hq : (ep.ddp.queues 0).q =
      rsg.toBuffer :: recvs.flatMap fun r => r.sgList.map Sge.toBuffer := by
    rw [h.buffers, List.flatMap_cons, hsg]
    rfl
  obtain ⟨msg, placed, hr, ht, hop, -⟩ := @ddpRecv_untagged_first ep.ddp ep.mem ep.msg _ _ _ 0 _ _
    h.failFree h.four_le hne hle hpend (by simp only [ntohl_htonl]; decide) h.msn
    (by simpa only [ntohl_htonl] using hmsn) hq
  exact ⟨_, msg, placed, hr, by rw [hpend, List.drop_left], ht, hop⟩

/-- A write is applied. -/
theorem through_write (ts : List Transfer) {rkey : UInt32} {addr : UInt64} {ps : List (List UInt8)}
    (h : PeerReady tags recvs
      (taggedWire ⟨rdmaHdr .rdmaWrite, htonl rkey, htonll addr⟩ ps ++ bs) rest ep)
    (hne : ps ≠ []) (hps : ∀ p ∈ ps, p ≠ [] ∧ p.length ≤ mulpdu)
    (htag : (ddpCheckStag tags ⟨rdmaHdr .rdmaWrite, rkey, addr⟩).isSome)
    (hlen : ps.flatten.length ≤ 2 ^ 64) :
    ∃ ep', Through (rnicRecvStep bld)
        (Progress ep.mem.load ep.cq (⟨addr, ps.flatten, none⟩ :: ts)) ep ep' ∧
      PeerReady tags recvs bs rest ep' ∧
      ep'.mem.load = Transfer.apply ep.mem.load ⟨addr, ps.flatten, none⟩ ∧ ep'.cq = ep.cq := by
  obtain ⟨k, msg, placed, hr, hdrop, htagged, hop⟩ := ddpRecv_write h hne hps htag
  have happ := @Transfer.apply_stores addr ps.flatten ep.mem none hlen
  have hthrough := through_ddpRecv bld
    (P := Progress ep.mem.load ep.cq (⟨addr, ps.flatten, none⟩ :: ts)) h.idle h.connected hr rfl
    (Progress.start (by rw [h.idle]; trivial))
    (fun _ _ _ => Progress.first trivial rfl (.inl rfl))
    (Progress.first trivial rfl (.inr happ))
  refine ⟨_, hthrough.trans (Through.step (Progress.first trivial rfl (.inr happ)) ?_), ?_⟩
  all_goals
    rw [@recvStep_write bld _ 0 rfl (by
      rw [Ep.opcode, hop]
      exact ofCode_rdmaHdr (by decide)) htagged]
  · exact Progress.first trivial rfl (.inr happ)
  · exact ⟨⟨rfl, h.connected, h.registry, h.buffers, h.msn, h.rq, h.failFree, h.ready, hdrop⟩,
      happ, rfl⟩

@[simp] theorem Ep.enqCq_cq (ep : Ep) (w : WorkCompletion) : (ep.enqCq w).cq = ep.cq ++ [w] := by
  simp [Ep.enqCq, Ep.cq]

/-- From the switch on a send takes its receive and enqueues the completion. -/
theorem through_switch_send {P : Ep → Prop} {e e' e'' : Ep} {op : RdmaOpcode} {r : RecvWr}
    {w : WorkCompletion} (hopc : op = .send ∨ op = .sendSe) (hpc : e.recvPc = .dispatch 0)
    (hop : e.opcode = some op) (ht : ddpIsTagged e.msg.hdr = false) (hrq : e.rq = r :: recvs)
    (hw : w = ⟨r.wrId, .success, op.toWc, UInt32.ofInt 0⟩)
    (he' : e' = { e with rq := recvs, recvPc := .enqRecv w })
    (he'' : e'' = { e'.enqCq w with recvPc := .idle }) (h : P e) (h' : P e') (h'' : P e'') :
    Through (rnicRecvStep bld) P e e'' := by
  have hs : rnicRecvStep bld e = e' := by
    rw [recvStep_send bld hpc hop hopc ht hrq, he', hw]
  have hs' : rnicRecvStep bld e' = e'' := by
    rw [he'', he']
    rfl
  exact (Through.step_of_eq hs h h').trans (Through.step_of_eq hs' h' h'')

/-- A send is applied and its receive completed. -/
theorem through_send (ts : List Transfer) {op : RdmaOpcode} {junk : DdpUntaggedMeta}
    {msn : UInt32} {p : List UInt8} {r : RecvWr} {rsg : Sge} (hopc : op = .send ∨ op = .sendSe)
    (h : PeerReady tags (r :: recvs)
      (untaggedWire { junk with rsvdULP1 := rdmaHdr op, qn := htonl sendQn, msn := htonl msn } [p] ++
        bs) rest ep)
    (hne : p ≠ []) (hle : p.length ≤ mulpdu) (hmsn : msn ≠ 0) (hsg : r.sgList = [rsg]) :
    let t : Transfer := ⟨rsg.addr, p, some (r.wrId, .success, op.toWc)⟩
    ∃ ep' w, Through (rnicRecvStep bld) (Progress ep.mem.load ep.cq (t :: ts)) ep ep' ∧
      PeerReady tags recvs bs rest ep' ∧ ep'.mem.load = t.apply ep.mem.load ∧
      ep'.cq = ep.cq ++ [w] ∧ w.summary = (r.wrId, .success, op.toWc) := by
  intro t
  obtain ⟨k, msg, placed, hr, hdrop, htagged, hop⟩ := ddpRecv_send h hne hle hmsn hsg
  have hlen : p.length ≤ 2 ^ 64 := by
    rw [mulpdu_eq] at hle
    omega
  have happ : (ep.mem.write (stores rsg.addr p)).load = t.apply ep.mem.load :=
    Transfer.apply_stores hlen
  have hthrough := through_ddpRecv bld (P := Progress ep.mem.load ep.cq (t :: ts)) h.idle
    h.connected hr rfl (Progress.start (by rw [h.idle]; trivial))
    (fun _ _ _ => Progress.first trivial rfl (.inl rfl))
    (Progress.first trivial rfl (.inr happ))
  obtain ⟨w, hw⟩ : ∃ w : WorkCompletion, w = ⟨r.wrId, .success, op.toWc, UInt32.ofInt 0⟩ :=
    ⟨_, rfl⟩
  -- the state before the switch, after it, and after the completion
  obtain ⟨e₁, he₁⟩ : ∃ e : Ep, e = { ep with
      ddp := { ep.ddp with
        inb := ep.ddp.inb.advance k
        queues := Function.update ep.ddp.queues 0 { ep.ddp.queues 0 with
          q := recvs.flatMap fun r => r.sgList.map Sge.toBuffer } }
      mem := ep.mem.write (stores rsg.addr p)
      msg := msg
      recvPc := .dispatch 0 } := ⟨_, rfl⟩
  have hrq : e₁.rq = r :: recvs := by rw [he₁]; exact h.rq
  have hopc' : e₁.opcode = some op := by
    rw [he₁, Ep.opcode, hop, ofCode_rdmaHdr]
    rcases hopc with rfl | rfl <;> decide
  obtain ⟨e₂, he₂⟩ : ∃ e : Ep, e = { e₁ with rq := recvs, recvPc := .enqRecv w } := ⟨_, rfl⟩
  have hp₁ : Progress ep.mem.load ep.cq (t :: ts) e₁ := by
    rw [he₁]
    exact Progress.first trivial rfl (.inr happ)
  have hp₂ : Progress ep.mem.load ep.cq (t :: ts) e₂ := by
    rw [he₂, he₁]
    exact Progress.first trivial rfl (.inr happ)
  have hmem : e₂.mem.load = t.apply ep.mem.load := by rw [he₂, he₁]; exact happ
  have hcq : ({ e₂.enqCq w with recvPc := .idle } : Ep).cq = ep.cq ++ [w] := by
    have : e₂.cq = ep.cq := by rw [he₂, he₁]; rfl
    rw [← this]
    exact Ep.enqCq_cq e₂ w
  have hsum : w.summary = (r.wrId, .success, op.toWc) := by rw [hw]; rfl
  have hp₃ : Progress ep.mem.load ep.cq (t :: ts) { e₂.enqCq w with recvPc := .idle } := by
    refine Progress.cons [w] hcq (by rw [List.map_singleton, hsum]; rfl) ?_
    rw [← hmem]
    exact @Progress.start { e₂.enqCq w with recvPc := .idle } ts trivial
  have hswitch := through_switch_send bld hopc (by rw [he₁]) hopc' (by rw [he₁]; exact htagged)
    hrq hw he₂ rfl hp₁ hp₂ hp₃
  rw [← he₁] at hthrough
  refine ⟨_, w, hthrough.trans hswitch, ?_, hmem, hcq, hsum⟩
  rw [he₂, he₁]
  refine ⟨rfl, h.connected, h.registry, ?_, ?_, rfl, h.failFree, h.ready, hdrop⟩
  · simp [Ep.enqCq]
  · simpa [Ep.enqCq] using h.msn

/-- `rnic_recv` applies the transfers, in order; `extra` are receives posted for
    later Sends. -/
theorem rnicRecv_applies {smem : Mem} {wrs : List SendWr} (extra : List RecvWr)
    (hp : Posted smem tags wrs recvs ts) :
    ∀ (ep : Ep) (msn : UInt32) (bs : List UInt8), msn.toNat + recvs.length ≤ 2 ^ 32 →
      (recvs ≠ [] → msn ≠ 0) → Emits smem msn wrs bs → PeerReady tags (recvs ++ extra) bs rest ep →
      ∃ ep', Through (rnicRecvStep bld) (Progress ep.mem.load ep.cq ts) ep ep' ∧
        PeerReady tags extra [] rest ep' ∧ ep'.mem.load = applyAll ep.mem.load ts ∧
        ∃ ws, ep'.cq = ep.cq ++ ws ∧ ws.map WorkCompletion.summary = completions ts := by
  induction hp with
  | nil =>
    rintro ep msn _ - - rfl h
    exact ⟨ep, Through.refl (Progress.start (by rw [h.idle]; trivial)), h, rfl, [], by simp, rfl⟩
  | @write wr sges wrs recvs ts op list last total nowrap stag _ ih =>
    rintro ep msn _ hmsn hne ⟨junk, bs, rfl, hbs⟩ h
    have hu : wr.userSges = sges := by rw [SendWr.userSges, list]
    rw [if_pos op] at hbs
    rw [reqWire, if_pos op, op, hu] at h
    have hlen : (sgePieces sges smem).flatten.length ≤ 2 ^ 64 := by
      rw [flatten_sgePieces, length_sgesContent]
      omega
    obtain ⟨e, hthr, hready, hmem, hcq⟩ := through_write bld ts h
      (sgePieces_ne_nil smem last) (sgePieces_bounds sges smem) stag hlen
    rw [flatten_sgePieces] at hthr hmem
    obtain ⟨e', hthr', hready', hmem', ws, hcq', hws⟩ := ih e msn bs hmsn hne hbs hready
    rw [hmem] at hthr' hmem'
    refine ⟨e', hthr.trans (hthr'.mono fun s hs => hs.cons [] (by simpa using hcq) rfl), hready',
      hmem', ws, by rw [hcq', hcq], hws⟩
  | @send wr sg r rsg wrs recvs ts op list pos le recv fits _ ih =>
    rintro ep msn _ hmsn hne ⟨junk, bs, rfl, hbs⟩ h
    have hop : wr.opcode ≠ .rdmaWrite := by rcases op with op | op <;> simp [op]
    obtain ⟨hcne, hcle⟩ := Sge.content_bounds smem pos le
    rw [if_neg hop] at hbs
    rw [reqWire_send smem junk msn op list pos le] at h
    obtain ⟨e, w, hthr, hready, hmem, hcq, hw⟩ := through_send bld ts op h hcne hcle
      (hne (List.cons_ne_nil r recvs)) recv
    rw [List.length_cons] at hmsn
    have hnext : (msn + 1).toNat = (msn.toNat + 1) % 2 ^ 32 := by
      rw [UInt32.toNat_add, show (1 : UInt32).toNat = 1 by rfl]
    -- the number after the last Send may be 0
    have hne' : recvs ≠ [] → msn + 1 ≠ 0 := by
      intro hrecvs he
      have hlen := List.length_pos_iff.mpr hrecvs
      have := congrArg UInt32.toNat he
      rw [hnext] at this
      simp at this
      omega
    obtain ⟨e', hthr', hready', hmem', ws, hcq', hws⟩ := ih e (msn + 1) bs (by omega) hne' hbs hready
    rw [hmem] at hthr' hmem'
    refine ⟨e', hthr.trans (hthr'.mono fun s hs => hs.cons [w] hcq ?_), hready', hmem', w :: ws, ?_,
      ?_⟩
    · rw [List.map_singleton, hw]
      rfl
    · rw [hcq', hcq, List.append_assoc, List.singleton_append]
    · rw [List.map_cons, hw, hws]
      rfl

end

/-! ## Delivery -/

/-- Writes and Sends are delivered in order: the sender's loop empties its
    queue, and the peer's loop, run on the bytes emitted, applies the transfers
    one at a time without leaving the loop, with one successful completion for
    each Send, enqueued when its payload is in memory. -/
theorem in_order_delivery {snd : Ep} {wrs : List SendWr} {recvs : List RecvWr}
    {tags : UInt32 → Option TaggedBuffer} {ts : List Transfer} (bld : Build)
    (junk : ℕ → DdpUntaggedMeta) (hposted : Posted snd.mem tags wrs recvs ts)
    (hsends : recvs.length < 2 ^ 32 - 1) (hsnd : SenderReady snd wrs) :
    ∃ n bs, SenderReady (rnicSend junk n ({}, snd)).2 [] ∧
      (rnicSend junk n ({}, snd)).2.ddp.outb.sent = snd.ddp.outb.sent ++ bs ∧
      ∀ (peer : Ep) (rest : List UInt8), PeerReady tags recvs bs rest peer →
        ∃ peer', Through (rnicRecvStep bld) (Progress peer.mem.load peer.cq ts) peer peer' ∧
          PeerReady tags [] [] rest peer' ∧ peer'.mem.load = applyAll peer.mem.load ts ∧
          ∃ ws, peer'.cq = peer.cq ++ ws ∧ ws.map WorkCompletion.summary = completions ts ∧
            ws.map WorkCompletion.wrId = recvs.map RecvWr.wrId ∧
            ∀ w ∈ ws, w.status = .success := by
  obtain ⟨bs, hbs, hend, hsent⟩ := rnicSend_emits hposted junk {} snd hsnd rfl
  refine ⟨_, bs, hend, hsent, fun peer rest hpeer => ?_⟩
  have h1 : (({} : Statics).sendMsn).toNat = 1 := rfl
  obtain ⟨peer', hthr, hready, hmem, ws, hcq, hws⟩ := rnicRecv_applies bld [] hposted peer _ bs
    (by rw [h1]; omega) (fun _ => by decide) hbs (by rwa [List.append_nil])
  obtain ⟨hids, hok⟩ := hposted.completions
  refine ⟨peer', hthr, hready, hmem, ws, hcq, hws, ?_, fun w hw => ?_⟩
  · rw [← hids, ← hws, List.map_map]
    rfl
  · exact hok w.summary (hws ▸ List.mem_map_of_mem hw)

/-- A write of two bytes and a send of one byte. -/
theorem in_order_delivery_write_then_send :
    let msg : DdpMessage := ⟨0, fun _ => 0, .untag ⟨0, 0⟩, 0⟩
    let init := fun (mem : Mem) (bs : List UInt8) =>
      rdmapInitStream mem { pending := bs, eof := false } ⟨[], []⟩ 0 0 [] msg ⟨0, 0, 0⟩
    let snd := rdmapPost (rdmapPost (init ⟨fun a => a.toUInt8, []⟩ [])
      ⟨1, .user [⟨0x1005, 2, 0⟩], .rdmaWrite, 0, 0x5001, 0x5000⟩)
      ⟨2, .user [⟨0x1009, 1, 0⟩], .send, 0, 0, 0⟩
    ∃ n m, let bs := (rnicSend (fun _ => ⟨0, 0, 0, 0, 0⟩) n ({}, snd)).2.ddp.outb.sent
      let peer := rdmaRegister (rdmaPostRecv (init ⟨fun _ => 0, []⟩ bs) ⟨11, [⟨0x7000, 4, 0⟩]⟩)
        ⟨⟨0, 0⟩, 0x5000, 4⟩
      let peer' := (rnicRecvStep ⟨false, false⟩)^[m] peer
      peer'.mem.load 0x5001 = 5 ∧ peer'.mem.load 0x5002 = 6 ∧ peer'.mem.load 0x7000 = 9 ∧
        peer'.cq.map WorkCompletion.wrId = [11] ∧ peer'.ddp.inb.pending = [] := by
  intro msg init snd
  have hsend : Posted snd.mem
      (Function.update (fun _ => none) 0x5000 (some ⟨⟨0x5000, 0⟩, 0x5000, 4⟩))
      [⟨2, .user [⟨0x1009, 1, 0⟩], .send, 0, 0, 0⟩] [⟨11, [⟨0x7000, 4, 0⟩]⟩]
      [⟨0x7000, [9], some (11, .success, .send)⟩] :=
    @Posted.send _ _ _ ⟨0x1009, 1, 0⟩ _ ⟨0x7000, 4, 0⟩ _ _ _ (.inl rfl) rfl (by decide) (by decide)
      rfl (by decide) .nil
  have hposted : Posted snd.mem
      (Function.update (fun _ => none) 0x5000 (some ⟨⟨0x5000, 0⟩, 0x5000, 4⟩)) snd.sq
      [⟨11, [⟨0x7000, 4, 0⟩]⟩]
      [⟨0x5001, [5, 6], none⟩, ⟨0x7000, [9], some (11, .success, .send)⟩] :=
    @Posted.write _ _ ⟨1, .user [⟨0x1005, 2, 0⟩], .rdmaWrite, 0, 0x5001, 0x5000⟩ [⟨0x1005, 2, 0⟩] _ _ _
      rfl rfl ⟨⟨0x1005, 2, 0⟩, rfl, by decide⟩ (by decide) (by decide) (by decide) hsend
  obtain ⟨n, bs, -, hsent, hpeer⟩ := in_order_delivery ⟨false, false⟩ (fun _ => ⟨0, 0, 0, 0, 0⟩)
    hposted (by decide) ⟨rfl, rfl, rfl, rfl⟩
  obtain ⟨peer', ⟨m, hm, -⟩, hready, hmem, ws, hcq, -, hids, -⟩ := hpeer
    (rdmaRegister (rdmaPostRecv (init ⟨fun _ => 0, []⟩ bs) ⟨11, [⟨0x7000, 4, 0⟩]⟩)
      ⟨⟨0, 0⟩, 0x5000, 4⟩) []
    ⟨rfl, rfl, rfl, rfl, rfl, rfl, fun _ => rfl, fun _ => le_rfl, (List.append_nil bs).symm⟩
  have hbs : (rnicSend (fun _ => ⟨0, 0, 0, 0, 0⟩) n ({}, snd)).2.ddp.outb.sent = bs := hsent
  have hcq' : peer'.cq = ws := hcq
  have hload : peer'.mem.load = applyAll (fun _ => 0)
      [⟨0x5001, [5, 6], none⟩, ⟨0x7000, [9], some (11, .success, .send)⟩] := hmem
  refine ⟨n, m, ?_⟩
  simp only [hbs, hm, hload, hcq', hids]
  exact ⟨by decide, by decide, by decide, rfl, hready.pending⟩

end SoftUiWarp
