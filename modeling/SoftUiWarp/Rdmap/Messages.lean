import SoftUiWarp.Ddp.Arrivals
import SoftUiWarp.Rdmap.ByteLen
import SoftUiWarp.Rdmap.Delivery
import SoftUiWarp.Rdmap.HandlerTags
import SoftUiWarp.Rdmap.SendLoop

/-!
# Messages from call to call

A message is sent by one call of `ddp_send_tagged` or `ddp_send_untagged` in a
step of `rnic_send` and received by one call of `ddp_recv` in steps of
`rnic_recv`. Here are the two ends, and what the steps of the two threads can do
besides.

Results:
* `Delivered.opcode`: a message comes to the case of its request, tagged as the
  case asserts.
* `DdpCall.Sound.arrives`: a call of `ddp_recv` that starts where a message
  begins and returns 0 has received this message.
* `rnicRecvStep_moved`, `step_recvTurn`, `step_sendTurn`: inversion of the steps.
-/

namespace SoftUiWarp

open TcpStream ByteMem Runs

/-! ## What is sent and what is received -/

/-- A call that sends one message. -/
def DdpCall.Sound (c : DdpCall) : Prop :=
  (∀ sg ∈ c.sgeList, sg.length.toNat < 2 ^ 31) ∧ LastNonempty c.sgeList

instance (sges : List Sge) : Decidable (LastNonempty sges) :=
  decidable_of_iff (∃ sg ∈ sges.getLast?, 0 < sg.length.toNat) Iff.rfl

instance (c : DdpCall) : Decidable c.Sound := inferInstanceAs (Decidable (_ ∧ _))

/-- A message received: the stream before the payload loop, and what the call
    of `ddp_recv` returns. -/
structure Rx where
  ep : Ep
  out : DdpOut

/-- The message a step receives. -/
def rxOf : Label → Sys → List Rx
  | .recv, s =>
    match s.ep.recvPc with
    | .payload c =>
      let out := ddpRecvPayload s.ep.ddp s.ep.mem s.ep.msg c
      if out.ret = .val 0 then [⟨s.ep, out⟩] else []
    | _ => []
  | _, _ => []

/-- The messages a step sends: a request whose opcode or list makes no call has none. -/
def msgOf (l : Label) (s : Sys) : List Tx := (txOf l s).filter fun t => t.call.isSome

/-- What a message is at its receiver: the fields it was sent with, the number
    of its bytes, and the bytes themselves in memory. -/
inductive ArrivesAs (mem : Mem) (out : DdpOut) : DdpCall → Prop
  | tagged {smem : Mem} {nextHdr : DdpTaggedMeta} {sges : List Sge}
      (hdr : ddpIsTagged out.msg.hdr = true)
      (fields : out.msg.taggedMetadata =
        ⟨nextHdr.rsvdULP1, ntohl nextHdr.tag, ntohll nextHdr.TO⟩)
      (len : out.msg.len = (sgesContent sges smem).length)
      (stored : out.mem = mem.write (stores (ntohll nextHdr.TO) (sgesContent sges smem))) :
      ArrivesAs mem out (.tagged smem nextHdr sges)
  | untagged {smem : Mem} {nextHdr : DdpUntaggedMeta} {sges : List Sge}
      (hdr : ddpIsTagged out.msg.hdr = false)
      (fields : out.msg.untaggedMetadata =
        ⟨nextHdr.rsvdULP1, nextHdr.rsvdULP2, ntohl nextHdr.qn, ntohl nextHdr.msn, 0⟩)
      (len : out.msg.len = (sgesContent sges smem).length)
      (stored : out.mem =
        mem.write (untaggedStores out.msg.buf.untagBuf.data 0 (sgePieces sges smem))) :
      ArrivesAs mem out (.untagged smem nextHdr sges)

/-- The message received is the one that was sent. -/
def Delivered (t : Tx) (rx : Rx) : Prop := ∃ c, t.call = some c ∧ ArrivesAs rx.ep.mem rx.out c

/-! ## The opcode of a message -/

/-- The opcode `rnic_recv` reads from a message. -/
def Rx.opcode (rx : Rx) : Option RdmaOpcode :=
  RdmaOpcode.ofCode (getRdmapOp (rx.out.msg.hdrUnion 0))

theorem DdpMessage.hdrUnion_tagged (m : DdpMessage) :
    m.hdrUnion 0 = m.taggedMetadata.rsvdULP1 := rfl

theorem DdpMessage.hdrUnion_untagged (m : DdpMessage) :
    m.hdrUnion 0 = m.untaggedMetadata.rsvdULP1 := rfl

/-- The first byte of the header of a call, and whether the call is tagged. -/
def DdpCall.ulp : DdpCall → Bool × UInt8
  | .tagged _ nextHdr _ => (true, nextHdr.rsvdULP1)
  | .untagged _ nextHdr _ => (false, nextHdr.rsvdULP1)

theorem ArrivesAs.ulp {mem : Mem} {out : DdpOut} {c : DdpCall} (h : ArrivesAs mem out c) :
    (ddpIsTagged out.msg.hdr, out.msg.hdrUnion 0) = c.ulp := by
  cases h with
  | tagged hdr fields len stored =>
    rw [hdr, DdpMessage.hdrUnion_tagged, fields]
    rfl
  | untagged hdr fields len stored =>
    rw [hdr, DdpMessage.hdrUnion_untagged, fields]
    rfl

/-- The calls of `rnic_send` have the T bit that the case of their opcode asserts. -/
theorem Job.call_ulp {j : Job} {st : Statics} {c : DdpCall} (h : j.call st = some c) :
    j.req.opcode.asserted = some c.ulp.1 ∧ c.ulp.2 = rdmaHdr j.req.opcode ∧
      j.req.opcode ≠ .notSupported := by
  unfold Job.call at h
  cases hop : j.req.opcode with
  | rdmaReadReq =>
    simp only [hop] at h
    split at h
    · cases h
      exact ⟨rfl, by rw [← hop]; rfl, by simp⟩
    · cases h
  | _ =>
    simp only [hop] at h
    cases h
    all_goals exact ⟨rfl, by rw [← hop]; rfl, by simp⟩

/-- The T bit and the byte behind it are those of the request. -/
theorem Delivered.opcode {t : Tx} {rx : Rx} (h : Delivered t rx) :
    rx.opcode = some t.req.opcode ∧
      t.req.opcode.asserted = some (ddpIsTagged rx.out.msg.hdr) := by
  obtain ⟨c, hc, harr⟩ := h
  obtain ⟨hbit, hop, hne⟩ := Job.call_ulp hc
  have hbit' : ddpIsTagged rx.out.msg.hdr = c.ulp.1 := congrArg Prod.fst harr.ulp
  have hbyte : rx.out.msg.hdrUnion 0 = c.ulp.2 := congrArg Prod.snd harr.ulp
  constructor
  · rw [Rx.opcode, hbyte, hop]
    exact ofCode_rdmaHdr hne
  · rw [hbit']
    exact hbit

/-- The messages of some opcodes are at their receiver those of these opcodes. -/
theorem delivered_filter (p : Option RdmaOpcode → Bool) {ts : List Tx} {rxs : List Rx}
    (h : List.Forall₂ Delivered ts rxs) :
    List.Forall₂ Delivered (ts.filter fun t => p (some t.req.opcode))
      (rxs.filter fun rx => p rx.opcode) := by
  induction h with
  | nil => exact .nil
  | cons hd _ ih =>
    rw [List.filter_cons, List.filter_cons, hd.opcode.1]
    split
    · exact .cons hd ih
    · exact ih

/-- Where a tagged message goes. -/
def Rx.sink (rx : Rx) : UInt32 × UInt64 :=
  (rx.out.msg.taggedMetadata.tag, rx.out.msg.taggedMetadata.TO)

/-- The bytes a request sends, as they are in memory then. -/
def Tx.bytes (t : Tx) : List UInt8 := sgesContent (t.ep.sges t.req) t.ep.mem

/-- A write or a read response comes to the sink it was sent to. -/
theorem Delivered.sink {t : Tx} {rx : Rx} (h : Delivered t rx)
    (hop : t.req.opcode = .rdmaWrite ∨ t.req.opcode = .rdmaReadResp) :
    rx.sink = (t.req.rkey, t.req.remoteAddr) ∧
      rx.out.mem = rx.ep.mem.write (stores t.req.remoteAddr t.bytes) := by
  obtain ⟨c, hc, harr⟩ := h
  have hcall : c = .tagged t.ep.mem t.job.taggedHdr (t.ep.sges t.req) := by
    have hjob : t.job.call t.st = some c := hc
    have hreq : t.job.req = t.req := rfl
    rcases hop with hop | hop
    all_goals
      simp only [Job.call, hreq, hop] at hjob
      exact (Option.some.inj hjob).symm
  subst hcall
  cases harr with
  | tagged hdr fields len stored =>
    constructor
    · rw [Rx.sink, fields]
      simp [Job.taggedHdr, Tx.job]
    · rw [stored, Tx.bytes]
      simp [Job.taggedHdr, Tx.job]

/-! ## The packets of a message -/

section

variable {smem : Mem} {sges : List Sge}

/-- What a tagged call sends. -/
theorem carries_tagged {nextHdr : DdpTaggedMeta}
    (hs : (DdpCall.tagged smem nextHdr sges).Sound) :
    ∃ fs, (DdpCall.tagged smem nextHdr sges).frames.flatten = wireOf fs ∧
      Carries taggedSegHdr 0x81 (sgePieces sges smem) (nextHdr, ntohll nextHdr.TO) fs := by
  obtain ⟨fs, hfs, hwire⟩ := exists_carries (H := taggedSegHdr) 0x81
    (fun h => DdpTaggedMeta.length_bytes h.1) (by decide) (sgePieces sges smem)
    (nextHdr, ntohll nextHdr.TO) (sgePieces_bounds sges smem)
  refine ⟨fs, ?_, hfs⟩
  have hlen : ∀ sg ∈ sges, sg.length.toNat < 2 ^ 31 := hs.1
  have hrun := (DdpCall.tagged smem nextHdr sges).run_full []
  rw [DdpCall.run, ddpSendTagged_eq hlen hs.2 rfl, taggedWire, hwire] at hrun
  have hsent := congrArg (fun r => r.2.sent) hrun
  simpa using hsent.symm

/-- What an untagged call sends. -/
theorem carries_untagged {nextHdr : DdpUntaggedMeta}
    (hs : (DdpCall.untagged smem nextHdr sges).Sound) :
    ∃ fs, (DdpCall.untagged smem nextHdr sges).frames.flatten = wireOf fs ∧
      Carries untaggedSegHdr 0x01 (sgePieces sges smem) { nextHdr with mo := 0 } fs := by
  obtain ⟨fs, hfs, hwire⟩ := exists_carries (H := untaggedSegHdr) 0x01
    DdpUntaggedMeta.length_bytes (by decide) (sgePieces sges smem) { nextHdr with mo := 0 }
    (sgePieces_bounds sges smem)
  refine ⟨fs, ?_, hfs⟩
  have hlen : ∀ sg ∈ sges, sg.length.toNat < 2 ^ 31 := hs.1
  have hrun := (DdpCall.untagged smem nextHdr sges).run_full []
  rw [DdpCall.run, ddpSendUntagged_eq hlen hs.2 rfl, untaggedWire, hwire] at hrun
  have hsent := congrArg (fun r => r.2.sent) hrun
  simpa using hsent.symm

end

/-- The packets of a message that was received, and the bytes behind it. -/
theorem Whole.packets {s₀ : Inbound} {mem : Mem} {out : DdpOut} {f g : Fpdu} {fs gs : List Fpdu}
    {flight bs : List UInt8} (h : Whole s₀ mem out f fs)
    (hmsg : IsMessage (ddpHdrSize g.ctrl) (g :: gs))
    (hp : s₀.pending ++ flight = wireOf (g :: gs) ++ bs) :
    g = f ∧ gs = fs ∧ out.ctx.inb.pending ++ flight = bs := by
  obtain ⟨rest, hrest⟩ := h.pending
  rw [hrest, List.append_assoc] at hp
  -- the first packet tells the size of the headers
  have hf : f = g := by
    rw [wireOf_cons, wireOf_cons, List.append_assoc, List.append_assoc] at hp
    exact (Fpdu.wire_append_inj hp).1
  subst hf
  have heq := h.message.eq_of_wireOf hmsg hp
  obtain ⟨-, rfl⟩ := List.cons.inj heq
  refine ⟨rfl, rfl, ?_⟩
  rw [h.inb, advance_pending, hrest, List.drop_left]
  exact List.append_cancel_left hp

/-- A call of `ddp_recv` that started where the packets of a message begin, and
    has returned 0, has received this message. -/
theorem DdpCall.Sound.arrives {c : DdpCall} (hs : c.Sound) {s₀ : Inbound} {mem : Mem} {out : DdpOut}
    {f : Fpdu} {fs : List Fpdu} {flight bs : List UInt8} (h : Whole s₀ mem out f fs)
    (hp : s₀.pending ++ flight = c.frames.flatten ++ bs) :
    ArrivesAs mem out c ∧ out.ctx.inb.pending ++ flight = bs := by
  cases c with
  | tagged smem nextHdr sges =>
    have hn : ∀ h : DdpTaggedMeta × UInt64, (taggedSegHdr.bytes h).length = 13 := fun h =>
      h.1.length_bytes
    have hne : sgePieces sges smem ≠ [] := sgePieces_ne_nil smem hs.2
    obtain ⟨gs, hwire, hgs⟩ := carries_tagged hs
    have hmsg := hgs.isMessage hn (by decide) (by decide) hne
    have hpay := hgs.payloadOf hn
    have hst := hgs.tagged_stores rfl
    rw [flatten_sgePieces] at hpay hst
    obtain ⟨p, ps, hps⟩ := List.exists_cons_of_ne_nil hne
    rw [hps] at hgs
    obtain ⟨g, gs, rfl, hu, -⟩ := hgs
    obtain ⟨hhdr, -, -, hctrl⟩ := ulpdu_parts hu (DdpTaggedMeta.length_bytes nextHdr)
    have ht : ddpIsTagged g.ctrl = true := by
      rw [hctrl]
      split_ifs <;> decide
    have hH : ddpHdrSize g.ctrl = 14 := by rw [ddpHdrSize, if_pos ht]
    rw [hwire] at hp
    obtain ⟨rfl, rfl, hpend⟩ := h.packets (by rw [hH]; exact hmsg) hp
    obtain ⟨hmeta, hplaced⟩ := h.tagged ht
    refine ⟨.tagged ?_ ?_ ?_ ?_, hpend⟩
    · rw [h.hdr, ht]
    · rw [hmeta, hhdr, taggedSegHdr_bytes, wireTagged_bytes]
    · rw [h.len, hH]
      exact congrArg (fun l => (List.length l : ℤ)) hpay
    · rw [h.mem, hplaced, hst]
  | untagged smem nextHdr sges =>
    have hn : ∀ h : DdpUntaggedMeta, (untaggedSegHdr.bytes h).length = 17 := fun h =>
      h.length_bytes
    have hne : sgePieces sges smem ≠ [] := sgePieces_ne_nil smem hs.2
    obtain ⟨gs, hwire, hgs⟩ := carries_untagged hs
    have hmsg := hgs.isMessage hn (by decide) (by decide) hne
    have hpay := hgs.payloadOf hn
    have hst := hgs.untagged_stores out.msg.buf.untagBuf.data
    rw [flatten_sgePieces] at hpay
    obtain ⟨p, ps, hps⟩ := List.exists_cons_of_ne_nil hne
    rw [hps] at hgs
    obtain ⟨g, gs, rfl, hu, -⟩ := hgs
    obtain ⟨hhdr, -, -, hctrl⟩ := ulpdu_parts hu (DdpUntaggedMeta.length_bytes _)
    have ht : ddpIsTagged g.ctrl = false := by
      rw [hctrl]
      split_ifs <;> decide
    have hH : ddpHdrSize g.ctrl = 18 := by rw [ddpHdrSize, if_neg (by rw [ht]; decide)]
    rw [hwire] at hp
    obtain ⟨rfl, rfl, hpend⟩ := h.packets (by rw [hH]; exact hmsg) hp
    obtain ⟨hmeta, hplaced⟩ := h.untagged ht
    refine ⟨.untagged ?_ ?_ ?_ ?_, hpend⟩
    · rw [h.hdr, ht]
    · rw [hmeta, hhdr, untaggedSegHdr_bytes, wireUntagged_bytes]
    · rw [h.len, hH]
      exact congrArg (fun l => (List.length l : ℤ)) hpay
    · rw [h.mem, hplaced, hst]

/-! ## The steps of `rnic_recv` -/

/-- `rnic_recv` reads no further message. -/
def RecvPc.Stopped : RecvPc → Prop
  | .stuck => True
  | .exited _ => True
  | .aborted => True
  | _ => False

/-- What a step of `rnic_recv` can do. -/
inductive RecvMoved (bld : Build) (ep : Ep) : Ep → Prop
  /-- The header of a message is read. -/
  | begins {c : SegCtx} (hpc : ep.recvPc = .idle) (h : (ddpRecvHead ep.ddp ep.msg).next = .inr c) :
      RecvMoved bld ep { ep with
        ddp := (ddpRecvHead ep.ddp ep.msg).ctx
        msg := (ddpRecvHead ep.ddp ep.msg).msg
        recvPc := .payload c }
  /-- The message is received. -/
  | receives {c : SegCtx} {out : DdpOut} (hpc : ep.recvPc = .payload c)
      (hout : ddpRecvPayload ep.ddp ep.mem ep.msg c = out) (hret : out.ret = .val 0) :
      RecvMoved bld ep { ep with
        ddp := out.ctx, mem := out.mem, msg := out.msg, recvPc := .dispatch 0 }
  | dispatches {ret : ℤ} (hpc : ep.recvPc = .dispatch ret) : RecvMoved bld ep (ep.dispatch bld ret)
  | answers (hpc : ep.recvPc = .enqResp) :
      RecvMoved bld ep { ep with
        sq := ep.sq ++ [ep.readResp]
        readResp := { ep.readResp with wrId := ep.readResp.wrId + 1 }
        recvPc := .repost }
  | reposts (hpc : ep.recvPc = .repost) :
      RecvMoved bld ep { ep with
        ddp := ddpPostRecv ep.ddp readQn.toNat [ep.msg.buf.untagBuf], recvPc := .idle }
  | completesRead {wce : WorkCompletion} (hpc : ep.recvPc = .enqRead wce) :
      RecvMoved bld ep { ep.enqCq wce with recvPc := .idle }
  | completesRecv {wce : WorkCompletion} (hpc : ep.recvPc = .enqRecv wce) :
      RecvMoved bld ep { ep.enqCq wce with recvPc := .idle }
  /-- The thread returns, or waits for ever. -/
  | stops {ddp : DdpCtx} {mem : Mem} {msg : DdpMessage} {pc : RecvPc}
      (hpc : ep.recvPc = .idle ∨ ∃ c, ep.recvPc = .payload c ∧
        (ddpRecvPayload ep.ddp ep.mem ep.msg c).ret ≠ .val 0) (h : pc.Stopped) :
      RecvMoved bld ep { ep with ddp := ddp, mem := mem, msg := msg, recvPc := pc }
  | rests (hpc : ep.recvPc.Stopped) : RecvMoved bld ep ep

theorem stopped_ofRet {r : Ret} (h : ¬r.Ok) : (RecvPc.ofRet r).Stopped := by
  rcases not_ok_cases h with ⟨x, hneg, rfl⟩ | rfl | rfl
  · rw [RecvPc.ofRet, if_pos hneg]
    trivial
  · trivial
  · trivial

theorem rnicRecvStep_moved (bld : Build) (ep : Ep) : RecvMoved bld ep (rnicRecvStep bld ep) := by
  cases hpc : ep.recvPc with
  | idle =>
    by_cases hcon : ep.connected = true
    · obtain ⟨pc, hstep, hnext⟩ := recvStep_idle bld hpc hcon
      rw [hstep]
      rcases hnext with ⟨r, hinl, rfl⟩ | ⟨c, hinr, rfl⟩
      · refine .stops (.inl hpc) ?_
        rcases ofRet_head hinl with h | h
        all_goals
          rw [h]
          trivial
      · exact .begins hpc hinr
    · simp only [rnicRecvStep, hpc, if_neg hcon]
      exact .stops (.inl hpc) trivial
  | payload c =>
    obtain ⟨out, hout⟩ : ∃ out, ddpRecvPayload ep.ddp ep.mem ep.msg c = out := ⟨_, rfl⟩
    simp only [rnicRecvStep, hpc, hout]
    by_cases hret : out.ret = .val 0
    · rw [hret]
      exact .receives hpc hout hret
    · refine .stops (.inr ⟨c, hpc, by rw [hout]; exact hret⟩) (stopped_ofRet fun hok => hret ?_)
      rw [← hout] at hok ⊢
      exact (ddpRecvPayload_zero hok).1
  | dispatch ret =>
    rw [recvStep_dispatch bld hpc]
    exact .dispatches hpc
  | enqResp =>
    simp only [rnicRecvStep, hpc]
    exact .answers hpc
  | repost =>
    simp only [rnicRecvStep, hpc]
    exact .reposts hpc
  | enqRead wce =>
    simp only [rnicRecvStep, hpc]
    exact .completesRead hpc
  | enqRecv wce =>
    simp only [rnicRecvStep, hpc]
    exact .completesRecv hpc
  | _ =>
    simp only [rnicRecvStep, hpc]
    exact .rests (by rw [hpc]; trivial)

section

variable {s : Sys}

theorem rxOf_of_ne {l : Label} (hl : l ≠ .recv) (s : Sys) : rxOf l s = [] := by
  cases l with
  | recv => exact absurd rfl hl
  | _ => rfl

theorem rxOf_recv {c : SegCtx} {out : DdpOut} (hpc : s.ep.recvPc = .payload c)
    (hout : ddpRecvPayload s.ep.ddp s.ep.mem s.ep.msg c = out) (hret : out.ret = .val 0) :
    rxOf .recv s = [⟨s.ep, out⟩] := by
  simp only [rxOf, hpc, hout, hret, if_true]

/-- Only a payload loop that returns 0 receives a message. -/
theorem rxOf_nil (h : ∀ c, s.ep.recvPc = .payload c →
    (ddpRecvPayload s.ep.ddp s.ep.mem s.ep.msg c).ret ≠ .val 0) : rxOf .recv s = [] := by
  simp only [rxOf]
  split
  · exact if_neg (h _ ‹_›)
  · rfl

end

/-- `rnic_recv` has nothing in hand that it has to pass on. -/
def RecvPc.Free : RecvPc → Prop
  | .dispatch _ | .enqResp | .enqRead _ | .enqRecv _ => False
  | _ => True

theorem RecvPc.Stopped.free {pc : RecvPc} (h : pc.Stopped) : pc.Free := by
  cases pc with
  | stuck => trivial
  | exited ret => trivial
  | aborted => trivial
  | _ => exact h.elim

/-- Where the switch goes. -/
inductive SwitchesTo (ep : Ep) : RecvPc → Prop
  | answer (h : ep.opcode = some .rdmaReadReq) : SwitchesTo ep .enqResp
  | read {wce : WorkCompletion} (h : ep.opcode = some .rdmaReadResp) : SwitchesTo ep (.enqRead wce)
  | recv {op : RdmaOpcode} {wce : WorkCompletion} (h : ep.opcode = some op) (hs : op.IsSend) :
      SwitchesTo ep (.enqRecv wce)
  | free {pc : RecvPc} (h : pc.Free) : SwitchesTo ep pc

theorem dispatch_switchesTo (bld : Build) (ep : Ep) (ret : ℤ) :
    SwitchesTo ep (ep.dispatch bld ret).recvPc := by
  have hd := dispatch_cases bld ep ret
  generalize ep.dispatch bld ret = ep' at hd
  cases hd with
  | request h => exact .answer h
  | response h =>
    obtain ⟨-, heq⟩ | ⟨wce, pending, -, heq⟩ := takePending_cases ep ret
    · rw [heq]
      exact .free trivial
    · rw [heq]
      exact .read h
  | @send op tags h hs =>
    obtain ⟨-, heq⟩ | ⟨wr, rq, -, heq⟩ := takeRecv_cases (ep.withTags tags) ret op
    · rw [heq]
      exact .free trivial
    · rw [heq]
      exact .recv h hs
  | ended tags con hend =>
    cases hend with
    | idle => exact .free trivial
    | exited => exact .free trivial
    | aborted => exact .free trivial

theorem RecvPc.Free.not_handles {ep : Ep} {op : RdmaOpcode} (h : ep.recvPc.Free) :
    ¬ep.handles op := by
  cases hpc : ep.recvPc with
  | dispatch ret =>
    rw [hpc] at h
    exact h.elim
  | _ => simp [Ep.handles, hpc]

/-- The other threads leave the message at the switch alone. -/
theorem step_handles (bld : Build) {l : Label} (hl : l ≠ .recv) (s : Sys) (op : RdmaOpcode) :
    (step bld l s).ep.handles op ↔ s.ep.handles op := by
  obtain ⟨hpc, hmsg, -⟩ := step_other bld hl s
  simp only [Ep.handles, Ep.opcode, hpc, hmsg]

/-- After the switch the message is no longer there. -/
theorem dispatch_not_handles (bld : Build) (ep : Ep) (ret : ℤ) (op : RdmaOpcode) :
    ¬(ep.dispatch bld ret).handles op := by
  have hsw := dispatch_switchesTo bld ep ret
  generalize hpc : (ep.dispatch bld ret).recvPc = pc at hsw
  cases hsw with
  | free h => exact RecvPc.Free.not_handles (by rw [hpc]; exact h)
  | _ => simp [Ep.handles, hpc]

/-- What a step of `rnic_recv` does besides reading the stream, and the message
    it receives. -/
inductive RecvTurn (bld : Build) (s : Sys) : List Rx → Sys → Prop
  | reads {ddp : DdpCtx} {mem : Mem} {msg : DdpMessage} {pc : RecvPc} {taken : List UntaggedBuffer}
      (hpc : s.ep.recvPc.Free) (hpc' : pc.Free) (hout : ddp.outb = s.ep.ddp.outb) :
      RecvTurn bld s [] { s with
        ep := { s.ep with ddp := ddp, mem := mem, msg := msg, recvPc := pc }
        hist := { s.hist with taken := taken } }
  | receives {out : DdpOut} (hpc : s.ep.recvPc.Free) (hout : out.ctx.outb = s.ep.ddp.outb) :
      RecvTurn bld s [⟨s.ep, out⟩] { s with ep := { s.ep with
        ddp := out.ctx, mem := out.mem, msg := out.msg, recvPc := .dispatch 0 } }
  | dispatches {ret : ℤ} (hpc : s.ep.recvPc = .dispatch ret) :
      RecvTurn bld s [] { s with ep := s.ep.dispatch bld ret, hist := s.hist.recv bld s.ep }
  | answers (hpc : s.ep.recvPc = .enqResp) :
      RecvTurn bld s [] { s with ep := { s.ep with
        sq := s.ep.sq ++ [s.ep.readResp]
        readResp := { s.ep.readResp with wrId := s.ep.readResp.wrId + 1 }
        recvPc := .repost } }
  | completesRead {wce : WorkCompletion} (hpc : s.ep.recvPc = .enqRead wce) :
      RecvTurn bld s [] { s with
        ep := { s.ep.enqCq wce with recvPc := .idle }
        hist := { s.hist with readDone := s.hist.readDone ++ [wce] } }
  | completesRecv {wce : WorkCompletion} (hpc : s.ep.recvPc = .enqRecv wce) :
      RecvTurn bld s [] { s with
        ep := { s.ep.enqCq wce with recvPc := .idle }
        hist := { s.hist with recvDone := s.hist.recvDone ++ [wce] } }

theorem step_recvTurn (bld : Build) (s : Sys) : RecvTurn bld s (rxOf .recv s) (step bld .recv s) := by
  have hmoved := rnicRecvStep_moved bld s.ep
  have hout := (rnicRecvStep_keeps bld s.ep).1
  have hstep : step bld .recv s =
      { s with ep := rnicRecvStep bld s.ep, hist := s.hist.recv bld s.ep } := rfl
  rw [hstep]
  have hist (h : ∀ ret, s.ep.recvPc ≠ .dispatch ret) (h1 : ∀ wce, s.ep.recvPc ≠ .enqRead wce)
      (h2 : ∀ wce, s.ep.recvPc ≠ .enqRecv wce) :
      ∃ taken, s.hist.recv bld s.ep = { s.hist with taken := taken } := by
    unfold History.recv
    split
    · split <;> exact ⟨_, rfl⟩
    · exact absurd ‹_› (h _)
    · exact absurd ‹_› (h1 _)
    · exact absurd ‹_› (h2 _)
    · exact ⟨_, rfl⟩
  generalize rnicRecvStep bld s.ep = ep' at hmoved hout ⊢
  cases hmoved with
  | begins hpc =>
    obtain ⟨taken, hh⟩ := hist (by simp [hpc]) (by simp [hpc]) (by simp [hpc])
    rw [hh, rxOf_nil (by simp [hpc])]
    exact .reads (by rw [hpc]; trivial) trivial hout
  | receives hpc hrecv hret =>
    have hh : s.hist.recv bld s.ep = s.hist := by simp only [History.recv, hpc]
    rw [hh, rxOf_recv hpc hrecv hret]
    exact .receives (by rw [hpc]; trivial) hout
  | dispatches hpc =>
    rw [rxOf_nil (by simp [hpc])]
    exact .dispatches hpc
  | answers hpc =>
    have hh : s.hist.recv bld s.ep = s.hist := by simp only [History.recv, hpc]
    rw [hh, rxOf_nil (by simp [hpc])]
    exact .answers hpc
  | reposts hpc =>
    obtain ⟨taken, hh⟩ := hist (by simp [hpc]) (by simp [hpc]) (by simp [hpc])
    rw [hh, rxOf_nil (by simp [hpc])]
    exact .reads (by rw [hpc]; trivial) trivial hout
  | @completesRead wce hpc =>
    have hh : s.hist.recv bld s.ep = { s.hist with readDone := s.hist.readDone ++ [wce] } := by
      simp only [History.recv, hpc]
    rw [hh, rxOf_nil (by simp [hpc])]
    exact .completesRead hpc
  | @completesRecv wce hpc =>
    have hh : s.hist.recv bld s.ep = { s.hist with recvDone := s.hist.recvDone ++ [wce] } := by
      simp only [History.recv, hpc]
    rw [hh, rxOf_nil (by simp [hpc])]
    exact .completesRecv hpc
  | stops hpc hstop =>
    have hfree : s.ep.recvPc.Free := by
      rcases hpc with hidle | ⟨c, hpay, -⟩
      · rw [hidle]
        trivial
      · rw [hpay]
        trivial
    have hne : ∀ pc, s.ep.recvPc = pc → pc.Free := by
      rintro _ rfl
      exact hfree
    obtain ⟨taken, hh⟩ := hist (fun _ hd => hne _ hd) (fun _ hd => hne _ hd) (fun _ hd => hne _ hd)
    rw [hh, rxOf_nil fun c hc => ?_]
    · exact .reads hfree hstop.free hout
    · rcases hpc with hidle | ⟨c', hpay, hret⟩
      · rw [hidle] at hc
        cases hc
      · obtain rfl : c' = c := RecvPc.payload.inj (hpay.symm.trans hc)
        exact hret
  | rests hpc =>
    have hne : ∀ pc, s.ep.recvPc = pc → pc.Stopped := by
      rintro _ rfl
      exact hpc
    obtain ⟨taken, hh⟩ := hist (fun _ hd => hne _ hd) (fun _ hd => hne _ hd) (fun _ hd => hne _ hd)
    rw [hh, rxOf_nil fun _ hd => (hne _ hd).elim]
    exact .reads hpc.free hpc.free hout

/-! ## The steps of `rnic_send` -/

/-- Where `rnic_send` is when the message is sent. -/
def Tx.after (t : Tx) : SendPc :=
  match t.out.ret with
  | some ret => .complete t.req ret
  | none => .idle

@[simp] theorem Tx.held_after (t : Tx) : t.after.held = [] := by
  unfold Tx.after
  split <;> rfl

/-- What a step of `rnic_send` does, and the request whose message it sends. -/
inductive SendTurn (junk : DdpUntaggedMeta) (s : Sys) : List Tx → Sys → Prop
  | takes {req : SendWr} {sq : List SendWr} (hpc : s.ep.sendPc = .idle)
      (hcon : s.ep.connected = true) (hsq : s.ep.sq = req :: sq) :
      SendTurn junk s [] { s with ep := { s.ep with sq := sq, sendPc := .transmit req } }
  | transmits {req : SendWr} (t : Tx) (hpc : s.ep.sendPc = .transmit req)
      (ht : t = ⟨junk, s.st, s.ep, req⟩) :
      SendTurn junk s [t] { s with
        st := t.out.statics
        ep := { s.ep with
          ddp := { s.ep.ddp with outb := t.out.out }
          sendPc := t.after }
        hist := s.hist.send junk s.st s.ep }
  | completes {req : SendWr} {ret : ℤ} (hpc : s.ep.sendPc = .complete req ret) :
      SendTurn junk s [] { s with ep := { s.ep.complete req ret with sendPc := .idle } }
  | exits (hpc : s.ep.sendPc = .idle) (hcon : s.ep.connected = false) :
      SendTurn junk s [] { s with ep := { s.ep with sendPc := .exited } }
  | rests (hpc : s.ep.sendPc = .idle ∧ s.ep.connected = true ∧ s.ep.sq = [] ∨
      s.ep.sendPc = .exited) : SendTurn junk s [] s

theorem step_sendTurn (bld : Build) (junk : DdpUntaggedMeta) (s : Sys) :
    SendTurn junk s (txOf (.send junk) s) (step bld (.send junk) s) := by
  have hist (h : ∀ req, s.ep.sendPc ≠ .transmit req) : s.hist.send junk s.st s.ep = s.hist := by
    unfold History.send
    split
    · exact absurd ‹_› (h _)
    · rfl
  have hstep : step bld (.send junk) s = { s with
      st := (rnicSendStep junk s.st s.ep).1
      ep := (rnicSendStep junk s.st s.ep).2
      hist := s.hist.send junk s.st s.ep } := rfl
  cases hpc : s.ep.sendPc with
  | idle =>
    rw [hstep, hist (by simp [hpc]), txOf, hpc]
    by_cases hcon : s.ep.connected = true
    · cases hsq : s.ep.sq with
      | nil =>
        simp only [rnicSendStep, hpc, hcon, hsq, if_true]
        exact .rests (.inl ⟨hpc, hcon, hsq⟩)
      | cons req sq =>
        have heq : (rnicSendStep junk s.st s.ep) =
            (s.st, { s.ep with sq := sq, sendPc := .transmit req }) := by
          simp only [rnicSendStep, hpc, hcon, hsq, if_true]
        rw [heq]
        exact .takes hpc hcon hsq
    · simp only [rnicSendStep, hpc, if_neg hcon]
      exact .exits hpc (by simpa using hcon)
  | transmit req =>
    rw [hstep, txOf, hpc]
    simp only [rnicSendStep, hpc]
    exact .transmits ⟨junk, s.st, s.ep, req⟩ hpc rfl
  | complete req ret =>
    rw [hstep, hist (by simp [hpc]), txOf, hpc]
    simp only [rnicSendStep, hpc]
    exact .completes hpc
  | exited =>
    rw [hstep, hist (by simp [hpc]), txOf, hpc]
    simp only [rnicSendStep, hpc]
    exact .rests (.inr hpc)

end SoftUiWarp
