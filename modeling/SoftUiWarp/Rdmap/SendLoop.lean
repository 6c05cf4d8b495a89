import SoftUiWarp.Ddp.Frames
import SoftUiWarp.Ddp.Queues
import SoftUiWarp.Rdmap.System

/-!
# What `rnic_send` makes of its requests

A request is taken from the send queue, a call of `ddp_send_tagged` or
`ddp_send_untagged` sends its message, and a completion follows. The trace of a
run lists the requests at the step that sends them, whatever the other threads
do in between.

Results:
* `Tx.out_eq`: the switch of `rnic_send` as a call, a counter and a completion.
* `step_view`: what a step does to the counters and the socket.
* `success_means_whole_iff`: when success means that the whole message is on
  the wire.
* `requests_accounted_iff`: when every request has its entry.
-/

namespace SoftUiWarp

open TcpStream ByteMem Runs

/-! ## The calls -/

/-- The static counters of `rnic_send`. -/
inductive Counter
  | send
  | inval
  | read
  deriving DecidableEq, Repr

def Statics.get (st : Statics) : Counter → UInt32
  | .send => st.sendMsn
  | .inval => st.invalMsn
  | .read => st.readMsn

/-- The queue whose messages a counter numbers. -/
def Counter.qn : Counter → UInt32
  | .send => sendQn
  | .inval => sendQn
  | .read => readQn

/-- The counter of the case an opcode selects. -/
def RdmaOpcode.counter : RdmaOpcode → Option Counter
  | .send => some .send
  | .sendSe => some .send
  | .sendInval => some .inval
  | .sendSeInval => some .inval
  | .rdmaReadReq => some .read
  | _ => none

/-- `msn++` in the case an opcode selects. -/
def Statics.next (st : Statics) (op : RdmaOpcode) : Statics :=
  match op.counter with
  | some .send => { st with sendMsn := st.sendMsn + 1 }
  | some .inval => { st with invalMsn := st.invalMsn + 1 }
  | some .read => { st with readMsn := st.readMsn + 1 }
  | none => st

/-- What a request sends: the uninitialised header, the memory and the scatter
    list as they are then. -/
structure Job where
  junk : DdpUntaggedMeta
  req : SendWr
  mem : Mem
  sges : List Sge

/-- The header of an untagged message. -/
def Job.untaggedHdr (j : Job) (st : Statics) (c : Counter) : DdpUntaggedMeta :=
  { j.junk with
    rsvdULP1 := rdmaHdr j.req.opcode
    rsvdULP2 := if c = .inval then htonl j.req.invalidateRkey else j.junk.rsvdULP2
    qn := htonl c.qn
    msn := htonl (st.get c) }

/-- The header of a tagged message. -/
def Job.taggedHdr (j : Job) : DdpTaggedMeta :=
  ⟨rdmaHdr j.req.opcode, htonl j.req.rkey, htonll j.req.remoteAddr⟩

/-- The call that sends the message, if there is one. -/
def Job.call (j : Job) (st : Statics) : Option DdpCall :=
  match j.req.opcode with
  | .sendSe | .send => some (.untagged j.mem (j.untaggedHdr st .send) j.sges)
  | .sendSeInval | .sendInval => some (.untagged j.mem (j.untaggedHdr st .inval) j.sges)
  | .rdmaReadReq =>
    match j.sges with
    | [sg] =>
      let fields : ReadReqFields := ⟨sg.lkey, sg.addr, sg.length, j.req.rkey, j.req.remoteAddr⟩
      some (.untagged fields.onStack (j.untaggedHdr st .read)
        [⟨0, UInt32.ofNat readReqFieldsSize, 0⟩])
    | _ => none
  | .rdmaWrite | .rdmaReadResp => some (.tagged j.mem j.taggedHdr j.sges)
  | .terminate | .notSupported => none

/-- The effect on the counters and the socket. -/
def sendJob (s : Statics × Outbound) (j : Job) : Statics × Outbound :=
  (s.1.next j.req.opcode, match j.call s.1 with
    | some c => (c.run s.2).2
    | none => s.2)

/-- A request at the step that sends its message. -/
structure Tx where
  junk : DdpUntaggedMeta
  st : Statics
  ep : Ep
  req : SendWr

namespace Tx

def out (t : Tx) : TransmitOut := t.ep.transmit t.junk t.st t.req

def job (t : Tx) : Job := ⟨t.junk, t.req, t.ep.mem, t.ep.sges t.req⟩

def call (t : Tx) : Option DdpCall := t.job.call t.st

/-- What the call returns. -/
def ret (t : Tx) : Option ℤ := t.call.map fun c => (c.run t.ep.ddp.outb).1

/-- The FPDUs of the message. -/
def fpdus (t : Tx) : List (List UInt8) := (t.call.map DdpCall.frames).getD []

/-- The switch of `rnic_send`: a counter, a call and, except after a read
    response, a completion. -/
theorem out_eq (t : Tx) :
    t.out = ⟨t.st.next t.req.opcode, (sendJob (t.st, t.ep.ddp.outb) t.job).2,
      if t.req.opcode = .rdmaReadResp then none else t.ret⟩ := by
  obtain ⟨junk, st, ep, req⟩ := t
  cases hop : req.opcode with
  | rdmaReadReq =>
    rcases hsg : ep.sges req with _ | ⟨sg, _ | ⟨sg', sges⟩⟩ <;>
      simp [Tx.out, Tx.ret, Tx.call, Tx.job, Ep.transmit, sendJob, Job.call, Job.untaggedHdr,
        DdpCall.run, Statics.next, RdmaOpcode.counter, Statics.get, Counter.qn, hop, hsg]
  | _ =>
    simp [Tx.out, Tx.ret, Tx.call, Tx.job, Ep.transmit, sendJob, Job.call, Job.untaggedHdr,
      Job.taggedHdr, DdpCall.run, Statics.next, RdmaOpcode.counter, Statics.get, Counter.qn, hop]

/-- The socket after the call. -/
theorem out_out (t : Tx) {c : DdpCall} (h : t.call = some c) :
    t.out.out = (c.run t.ep.ddp.outb).2 := by
  have hc : t.job.call t.st = some c := h
  rw [out_eq, sendJob]
  simp only [hc]

end Tx

/-! ## The trace of a run -/

/-- The request whose message a step sends. -/
def txOf : Label → Sys → List Tx
  | .send junk, s => s.ep.sendPc.held.map fun req => ⟨junk, s.st, s.ep, req⟩
  | _, _ => []

/-- The requests sent in a run, in order. -/
def txs (bld : Build) (ls : List Label) (s : Sys) : List Tx := trace (step bld) txOf ls s

theorem txOf_of_ne {l : Label} (hl : ∀ junk, l ≠ .send junk) (s : Sys) : txOf l s = [] := by
  cases l with
  | send junk => exact absurd rfl (hl junk)
  | _ => rfl

/-- A step sends at most one message, from the state before it. -/
theorem txOf_cases (l : Label) (s : Sys) :
    txOf l s = [] ∨ ∃ junk req, txOf l s = [⟨junk, s.st, s.ep, req⟩] := by
  cases l with
  | send junk =>
    cases hpc : s.ep.sendPc with
    | transmit req => exact .inr ⟨junk, req, by simp [txOf, hpc, SendPc.held]⟩
    | _ => exact .inl (by simp [txOf, hpc, SendPc.held])
  | _ => exact .inl rfl

section

variable (bld : Build)

/-- `rnic_recv` does not touch what `rnic_send` works with. -/
theorem rnicRecvStep_keeps (ep : Ep) :
    (rnicRecvStep bld ep).ddp.outb = ep.ddp.outb ∧ (rnicRecvStep bld ep).sendPc = ep.sendPc ∧
      (rnicRecvStep bld ep).sendCq = ep.sendCq := by
  cases hpc : ep.recvPc with
  | idle =>
    by_cases hcon : ep.connected = true
    · obtain ⟨pc, heq, -⟩ := recvStep_idle bld hpc hcon
      rw [heq]
      exact ⟨ddpRecvHead_outb _ _, rfl, rfl⟩
    · simp [rnicRecvStep, hpc, hcon]
  | payload c =>
    simp only [rnicRecvStep, hpc, and_true]
    exact (ddpRecvPayload_keeps _ _ _ _).2.1
  | dispatch ret =>
    have h := dispatch_cases bld ep ret
    simp only [rnicRecvStep, hpc]
    generalize ep.dispatch bld ret = ep' at h
    cases h with
    | request => exact ⟨rfl, rfl, rfl⟩
    | response =>
      obtain ⟨-, heq⟩ | ⟨wce, pending, -, heq⟩ := takePending_cases ep ret
      all_goals
        rw [heq]
        exact ⟨rfl, rfl, rfl⟩
    | @send op tags =>
      obtain ⟨-, heq⟩ | ⟨wr, rq, -, heq⟩ := takeRecv_cases (ep.withTags tags) ret op
      all_goals
        rw [heq]
        exact ⟨rfl, rfl, rfl⟩
    | ended => exact ⟨rfl, rfl, rfl⟩
  | repost =>
    simp only [rnicRecvStep, hpc, ddpPostRecv, and_true]
    split <;> rfl
  | _ => simp [rnicRecvStep, hpc, Ep.enqCq]

/-- Only `rnic_send` changes the counters, the socket and its own position. -/
theorem step_keeps {l : Label} (hl : ∀ junk, l ≠ .send junk) (s : Sys) :
    (step bld l s).st = s.st ∧ (step bld l s).ep.ddp.outb = s.ep.ddp.outb ∧
      (step bld l s).ep.sendPc = s.ep.sendPc := by
  by_cases hrecv : l = .recv
  · subst hrecv
    obtain ⟨hout, hpc, -⟩ := rnicRecvStep_keeps bld s.ep
    exact ⟨rfl, hout, hpc⟩
  · obtain ⟨hst, mem, sq, rq, queues, tags, heq, -⟩ := step_call bld hrecv hl s
    rw [hst, heq]
    exact ⟨rfl, rfl, rfl⟩

/-- At the top of the loop `rnic_send` takes a request, goes on waiting or exits. -/
theorem sendStep_idle {ep : Ep} (hpc : ep.sendPc = .idle) (junk : DdpUntaggedMeta) (st : Statics) :
    ∃ sq pc, rnicSendStep junk st ep = (st, { ep with sq := sq, sendPc := pc }) ∧
      ∀ req ret, pc ≠ .complete req ret := by
  cases hcon : ep.connected with
  | true =>
    cases hsq : ep.sq with
    | nil =>
      refine ⟨[], .idle, ?_, by simp⟩
      simp only [rnicSendStep, hpc, hcon, hsq, if_true]
      rw [← hsq, ← hpc, ← hcon]
    | cons req sq =>
      refine ⟨sq, .transmit req, ?_, by simp⟩
      simp only [rnicSendStep, hpc, hcon, hsq, if_true]
  | false =>
    refine ⟨ep.sq, .exited, ?_, by simp⟩
    simp only [rnicSendStep, hpc, hcon, Bool.false_eq_true, if_false]

/-- Outside the call `rnic_send` leaves the counters and the socket alone. -/
theorem rnicSendStep_view (junk : DdpUntaggedMeta) (s : Sys) :
    ((rnicSendStep junk s.st s.ep).1, (rnicSendStep junk s.st s.ep).2.ddp.outb) =
      ((txOf (.send junk) s).map Tx.job).foldl sendJob (s.st, s.ep.ddp.outb) := by
  cases hpc : s.ep.sendPc with
  | idle =>
    obtain ⟨sq, pc, heq, -⟩ := sendStep_idle hpc junk s.st
    simp only [txOf, hpc, SendPc.held, List.map_nil, List.foldl_nil, heq]
  | transmit req =>
    have h := Tx.out_eq ⟨junk, s.st, s.ep, req⟩
    simp only [Tx.out] at h
    simp only [txOf, hpc, SendPc.held, List.map_cons, List.map_nil, List.foldl_cons, List.foldl_nil,
      rnicSendStep, h]
    rfl
  | complete req ret =>
    simp only [txOf, hpc, SendPc.held, List.map_nil, List.foldl_nil, rnicSendStep, Ep.complete]
    split <;> rfl
  | exited => simp only [txOf, hpc, SendPc.held, List.map_nil, List.foldl_nil, rnicSendStep]

/-- What a step does to the counters and the socket. -/
theorem step_view (l : Label) (s : Sys) :
    ((step bld l s).st, (step bld l s).ep.ddp.outb) =
      (txOf l s).foldl (fun v t => sendJob v t.job) (s.st, s.ep.ddp.outb) := by
  rw [← List.foldl_map]
  by_cases hl : ∃ junk, l = .send junk
  · obtain ⟨junk, rfl⟩ := hl
    exact rnicSendStep_view junk s
  · obtain ⟨hst, hout, -⟩ := step_keeps bld (fun junk h => hl ⟨junk, h⟩) s
    rw [hst, hout, txOf_of_ne fun junk h => hl ⟨junk, h⟩]
    rfl

/-- What a step does to the counters. -/
theorem step_st (l : Label) (s : Sys) :
    (step bld l s).st = (txOf l s).foldl (fun st t => st.next t.req.opcode) s.st := by
  have h := congrArg Prod.fst (step_view bld l s)
  rcases txOf_cases l s with hnil | ⟨junk, req, heq⟩
  · rw [hnil] at h ⊢
    exact h
  · rw [heq] at h ⊢
    exact h

/-- A request finds the counters as the requests before it have left them. -/
theorem txs_st {ls : List Label} {s : Sys} {pre post : List Tx} {t : Tx}
    (ht : txs bld ls s = pre ++ t :: post) :
    t.st = pre.foldl (fun st t => st.next t.req.opcode) s.st := by
  refine view_of_trace Sys.st Tx.st (step_st bld) (fun l s => ?_) ht
  rcases txOf_cases l s with hnil | ⟨junk, req, heq⟩
  · exact .inl hnil
  · exact .inr ⟨_, heq, rfl⟩

/-- What a step puts on the wire when every byte is accepted. -/
theorem step_sent (l : Label) {s : Sys} (he : s.ep.ddp.outb.evs = []) :
    (step bld l s).ep.ddp.outb =
      ⟨s.ep.ddp.outb.sent ++ ((txOf l s).flatMap Tx.fpdus).flatten, []⟩ := by
  have h := congrArg Prod.snd (step_view bld l s)
  have hout : s.ep.ddp.outb = ⟨s.ep.ddp.outb.sent, []⟩ := by rw [← he]
  rcases txOf_cases l s with hnil | ⟨junk, req, heq⟩
  · rw [hnil] at h ⊢
    simpa [← hout] using h
  · rw [heq] at h ⊢
    simp only [List.foldl_cons, List.foldl_nil, sendJob] at h
    rw [h]
    simp only [List.flatMap_cons, List.flatMap_nil, List.append_nil, Tx.fpdus, Tx.call]
    cases Job.call (Tx.job ⟨junk, s.st, s.ep, req⟩) s.st with
    | none => simp [← hout]
    | some c =>
      rw [hout]
      exact congrArg Prod.snd (c.run_full _)

/-- Without send errors a run puts the messages of its trace on the wire. -/
theorem txs_sent (ls : List Label) {s : Sys} (he : s.ep.ddp.outb.evs = []) :
    (run (step bld) ls s).ep.ddp.outb =
      ⟨s.ep.ddp.outb.sent ++ ((txs bld ls s).flatMap Tx.fpdus).flatten, []⟩ := by
  induction ls generalizing s with
  | nil => simp [run, txs, trace, ← he]
  | cons l ls ih =>
    have hstep := step_sent bld l he
    have hrest := ih (s := step bld l s) (by rw [hstep])
    rw [hstep] at hrest
    refine hrest.trans ?_
    simp [txs, trace]

end

/-! ## Success and the wire -/

/-- If the call returns 0, TCP has accepted the whole message. -/
def Tx.Whole (t : Tx) : Prop :=
  t.ret = some 0 → t.out.out.sent = t.ep.ddp.outb.sent ++ t.fpdus.flatten

/-- A call of `sendmsg` fails, or none is short. -/
def Tx.NotShort (t : Tx) : Prop :=
  SendFails t.fpdus t.ep.ddp.outb.evs ∨ ¬SendsShort t.fpdus t.ep.ddp.outb.evs

theorem Tx.whole_iff (t : Tx) : t.Whole ↔ t.NotShort := by
  unfold Tx.Whole Tx.NotShort
  cases hc : t.call with
  | none =>
    refine iff_of_true (fun h => ?_) (.inr ?_)
    · simp [Tx.ret, hc] at h
    · rintro ⟨f, k, hf, -⟩
      simp [Tx.fpdus, hc] at hf
  | some c =>
    have hret : t.ret = some (sendFrames c.frames t.ep.ddp.outb).1 := by
      rw [Tx.ret, hc, Option.map_some, c.run_eq]
    have hfp : t.fpdus = c.frames := by
      rw [Tx.fpdus, hc]
      rfl
    rw [hret, hfp, t.out_out hc, c.run_eq, Option.some_inj]
    exact sendFrames_whole_iff c.frames t.ep.ddp.outb

/-- In every run, each request whose send returns 0 has its whole message on
    the wire exactly if no request that succeeds meets a short count. -/
theorem success_means_whole_iff (bld : Build) (ls : List Label) (s : Sys) :
    (∀ t ∈ txs bld ls s, t.Whole) ↔ ∀ t ∈ txs bld ls s, t.NotShort :=
  forall₂_congr fun t _ => t.whole_iff

instance (t : Tx) : Decidable t.Whole := inferInstanceAs (Decidable (_ → _))

/-- A new stream on which the calls of `sendmsg` have the outcomes `evs`. -/
def sendSys (evs : List SendEvent) : Sys :=
  let s := newSys []
  { s with ep := { s.ep with ddp := { s.ep.ddp with outb := ⟨[], evs⟩ } } }

/-- A Send of one byte. -/
def sendWr (wrId : UInt64) : SendWr := ⟨wrId, .user [⟨0x1000, 1, 0⟩], .send, 0, 0, 0⟩

/-- The application posts a request, and `rnic_send` takes it, sends it and
    completes it. -/
def serve (wr : SendWr) : List Label :=
  [.post wr, .send ⟨0, 0, 0, 0, 0⟩, .send ⟨0, 0, 0, 0, 0⟩, .send ⟨0, 0, 0, 0, 0⟩]

/-- `sendmsg` takes 10 bytes of an FPDU of 26, and the request succeeds. -/
theorem success_short_count :
    ¬∀ t ∈ txs ⟨false, false⟩ (serve (sendWr 1)) (sendSys [.accept 10]), t.Whole := by
  decide +kernel

/-! ## One entry for each request -/

/-- An element of the completion queue or of the queue of pending reads. -/
inductive Entry
  | cq (wce : WorkCompletion)
  | pending (wce : WorkCompletion)
  deriving DecidableEq, Repr

/-- What a step of `rnic_send` adds to the two queues. -/
def entriesOf : Label → Sys → List Entry
  | .send junk, s =>
    let ep := (rnicSendStep junk s.st s.ep).2
    (ep.cq.drop s.ep.cq.length).map .cq ++ (ep.pendingCq.drop s.ep.pendingCq.length).map .pending
  | _, _ => []

/-- What `rnic_send` adds to the two queues in a run. -/
def entries (bld : Build) (ls : List Label) (s : Sys) : List Entry :=
  trace (step bld) entriesOf ls s

/-- The requests the application may post. -/
def RdmaOpcode.isUser : RdmaOpcode → Bool
  | .rdmaReadResp => false
  | .terminate => false
  | .notSupported => false
  | _ => true

/-- `e` is the entry of the request: it has its identifier and opcode, and it
    is on the completion queue with the status of the send or, for a read that
    was sent, on the queue of pending reads. -/
inductive Accounts (t : Tx) : Entry → Prop
  | cq {wce : WorkCompletion} {ret : ℤ} (wrId : wce.wrId = t.req.wrId)
      (opcode : wce.opcode = t.req.opcode.toWc) (sent : t.ret = some ret)
      (status : wce.status = if ret < 0 then .fatalErr else .success)
      (read : t.req.opcode = .rdmaReadReq → ret < 0) : Accounts t (.cq wce)
  | pending {wce : WorkCompletion} {ret : ℤ} (wrId : wce.wrId = t.req.wrId)
      (opcode : wce.opcode = t.req.opcode.toWc) (sent : t.ret = some ret) (ok : 0 ≤ ret)
      (read : t.req.opcode = .rdmaReadReq) : Accounts t (.pending wce)

/-- The entry of a request whose send returned `ret`. -/
def entryOf (req : SendWr) (ret : ℤ) : Entry :=
  if req.opcode = .rdmaReadReq ∧ ¬ret < 0 then .pending (sendWrToWce req ret)
  else .cq (sendWrToWce req ret)

/-- The entry that the completion of a request will make. -/
def SendPc.owed : SendPc → List Entry
  | .complete req ret => [entryOf req ret]
  | _ => []

/-- The entries a request leads to. -/
def Tx.owes (t : Tx) : List Entry := (t.out.ret.map (entryOf t.req)).toList

section

variable {s : Sys} {junk : DdpUntaggedMeta}

/-- The completion of a request adds its entry. -/
theorem entriesOf_complete {req : SendWr} {ret : ℤ} (hpc : s.ep.sendPc = .complete req ret) :
    entriesOf (.send junk) s = [entryOf req ret] := by
  have hstep : (rnicSendStep junk s.st s.ep).2 = { s.ep.complete req ret with sendPc := .idle } := by
    simp only [rnicSendStep, hpc]
  simp only [entriesOf, hstep]
  unfold entryOf Ep.complete
  simp only
  split
  · simp [Ep.enqPending, Ep.cq, Ep.pendingCq]
  · simp [Ep.enqCq, Ep.cq, Ep.pendingCq]

/-- No other step of `rnic_send` adds one. -/
theorem entriesOf_nil (hpc : ∀ req ret, s.ep.sendPc ≠ .complete req ret) :
    entriesOf (.send junk) s = [] := by
  have hq : (rnicSendStep junk s.st s.ep).2.cq = s.ep.cq ∧
      (rnicSendStep junk s.st s.ep).2.pendingCq = s.ep.pendingCq := by
    cases h : s.ep.sendPc with
    | complete req ret => exact absurd h (hpc req ret)
    | idle =>
      obtain ⟨sq, pc, heq, -⟩ := sendStep_idle h junk s.st
      rw [heq]
      exact ⟨rfl, rfl⟩
    | transmit req => simp [rnicSendStep, h, Ep.cq, Ep.pendingCq]
    | exited => simp [rnicSendStep, h]
  simp [entriesOf, hq.1, hq.2]

/-- A step either sends a message, and the entry is owed from then on, or adds
    the entry that was owed. -/
theorem step_owed (bld : Build) (l : Label) (s : Sys) :
    s.ep.sendPc.owed ++ (txOf l s).flatMap Tx.owes =
      entriesOf l s ++ (step bld l s).ep.sendPc.owed := by
  by_cases hl : ∃ junk, l = .send junk
  · obtain ⟨junk, rfl⟩ := hl
    cases hpc : s.ep.sendPc with
    | complete req ret =>
      have hnext : (step bld (.send junk) s).ep.sendPc = .idle := by simp only [step, rnicSendStep, hpc]
      rw [entriesOf_complete hpc, hnext]
      simp [txOf, hpc, SendPc.held, SendPc.owed]
    | idle =>
      obtain ⟨sq, pc, heq, hne⟩ := sendStep_idle hpc junk s.st
      rw [entriesOf_nil (by simp [hpc])]
      simp only [step, heq, txOf, hpc, SendPc.held, List.map_nil, List.flatMap_nil, List.append_nil]
      cases pc with
      | complete req ret => exact absurd rfl (hne req ret)
      | _ => rfl
    | transmit req =>
      rw [entriesOf_nil (by simp [hpc])]
      simp only [step, rnicSendStep, hpc, txOf, SendPc.held, List.map_cons, List.map_nil,
        List.flatMap_cons, List.flatMap_nil, List.append_nil]
      unfold Tx.owes Tx.out
      cases (s.ep.transmit junk s.st req).ret <;> rfl
    | exited =>
      rw [entriesOf_nil (by simp [hpc])]
      simp [step, rnicSendStep, hpc, txOf, SendPc.held, SendPc.owed]
  · have hl' : ∀ junk, l ≠ .send junk := fun junk h => hl ⟨junk, h⟩
    have hnil : entriesOf l s = [] := by
      cases l with
      | send junk => exact absurd rfl (hl' junk)
      | _ => rfl
    rw [txOf_of_ne hl', hnil, (step_keeps bld hl' s).2.2]
    simp

/-- The entries of a run are those its requests lead to. -/
theorem entries_eq (bld : Build) (ls : List Label) {s : Sys} (hs : s.ep.sendPc = .idle)
    (hend : (run (step bld) ls s).ep.sendPc = .idle) :
    entries bld ls s = (txs bld ls s).flatMap Tx.owes := by
  have h := trace_telescope (fun s : Sys => s.ep.sendPc.owed) (step_owed bld) ls s
  rw [hs, hend, trace_flatMap] at h
  simpa [SendPc.owed, entries, txs] using h.symm

end

/-- A read is sent if its scatter list has one entry. -/
def Tx.Served (t : Tx) : Prop :=
  t.req.opcode = .rdmaReadReq → (t.ep.sges t.req).length = 1

section

variable {t : Tx}

/-- Only a read with another number of entries makes no call. -/
theorem Tx.call_isSome (hu : t.req.opcode.isUser = true) : t.call.isSome ↔ t.Served := by
  unfold Tx.call Job.call Tx.Served
  cases hop : t.req.opcode with
  | rdmaReadReq =>
    rcases hsg : t.ep.sges t.req with _ | ⟨sg, _ | ⟨sg', sges⟩⟩ <;> simp [Tx.job, hop, hsg]
  | rdmaReadResp => simp [hop, RdmaOpcode.isUser] at hu
  | terminate => simp [hop, RdmaOpcode.isUser] at hu
  | notSupported => simp [hop, RdmaOpcode.isUser] at hu
  | _ => simp [Tx.job, hop]

theorem Tx.owes_of_not_user (hu : t.req.opcode.isUser = false) : t.owes = [] := by
  unfold Tx.owes
  rw [t.out_eq]
  cases hop : t.req.opcode with
  | rdmaReadResp => rfl
  | terminate => simp [Tx.ret, Tx.call, Job.call, Tx.job, hop]
  | notSupported => simp [Tx.ret, Tx.call, Job.call, Tx.job, hop]
  | _ => simp [hop, RdmaOpcode.isUser] at hu

theorem Tx.owes_of_user (hu : t.req.opcode.isUser = true) :
    t.owes = (t.ret.map (entryOf t.req)).toList := by
  have hne : t.req.opcode ≠ .rdmaReadResp := by
    intro h
    simp [h, RdmaOpcode.isUser] at hu
  unfold Tx.owes
  rw [t.out_eq]
  simp only [hne, if_false]

theorem flatMap_owes_user (ts : List Tx) :
    (ts.filter fun t => t.req.opcode.isUser).flatMap Tx.owes = ts.flatMap Tx.owes := by
  induction ts with
  | nil => rfl
  | cons t ts ih =>
    cases hu : t.req.opcode.isUser with
    | true => rw [List.filter_cons_of_pos (by simp [hu]), List.flatMap_cons, ih, List.flatMap_cons]
    | false =>
      rw [List.filter_cons_of_neg (by simp [hu]), ih, List.flatMap_cons, Tx.owes_of_not_user hu,
        List.nil_append]

/-- The entry of a completion accounts for its request. -/
theorem accounts_entryOf {ret : ℤ} (h : t.ret = some ret) : Accounts t (entryOf t.req ret) := by
  unfold entryOf
  split
  · rename_i hr
    exact .pending rfl rfl h (by omega) hr.1
  · rename_i hr
    refine .cq rfl rfl h rfl fun hop => ?_
    by_contra hneg
    exact hr ⟨hop, hneg⟩

/-- Requests that are served have an entry each. -/
theorem forall₂_accounts {ts : List Tx} (h : ∀ t ∈ ts, t.req.opcode.isUser = true ∧ t.Served) :
    List.Forall₂ Accounts ts (ts.flatMap Tx.owes) := by
  induction ts with
  | nil => exact .nil
  | cons t ts ih =>
    obtain ⟨hu, hserved⟩ := h t (by simp)
    obtain ⟨c, hc⟩ := Option.isSome_iff_exists.mp ((Tx.call_isSome hu).mpr hserved)
    have hret : t.ret = some (c.run t.ep.ddp.outb).1 := by rw [Tx.ret, hc, Option.map_some]
    rw [List.flatMap_cons, Tx.owes_of_user hu, hret]
    exact .cons (accounts_entryOf hret) (ih fun x hx => h x (List.mem_cons_of_mem _ hx))

/-- Every request has at most one entry, and one that is not served has none. -/
theorem length_owes_le (t : Tx) : t.owes.length ≤ 1 := by
  unfold Tx.owes
  cases t.out.ret <;> simp

theorem length_flatMap_owes {ts : List Tx} (h : ∃ t ∈ ts, t.owes = []) :
    (ts.flatMap Tx.owes).length < ts.length := by
  have hle : ∀ ts : List Tx, (ts.flatMap Tx.owes).length ≤ ts.length := by
    intro ts
    induction ts with
    | nil => simp
    | cons t ts ih =>
      have := length_owes_le t
      simp only [List.flatMap_cons, List.length_append, List.length_cons]
      omega
  obtain ⟨t, ht, hnil⟩ := h
  obtain ⟨as, bs, rfl⟩ := List.append_of_mem ht
  have ha := hle as
  have hb := hle bs
  simp only [List.flatMap_append, List.flatMap_cons, hnil, List.nil_append, List.length_append,
    List.length_cons]
  omega

end

/-- The requests of the application sent in a run. -/
def userTxs (bld : Build) (ls : List Label) (s : Sys) : List Tx :=
  (txs bld ls s).filter fun t => t.req.opcode.isUser

/-- In every run after which `rnic_send` is back at the top of its loop, each
    request of the application has exactly one entry, in order, if and only if
    no read has another number of entries in its scatter list than one. -/
theorem requests_accounted_iff (bld : Build) (ls : List Label) {s : Sys}
    (hs : s.ep.sendPc = .idle) (hend : (run (step bld) ls s).ep.sendPc = .idle) :
    List.Forall₂ Accounts (userTxs bld ls s) (entries bld ls s) ↔
      ∀ t ∈ userTxs bld ls s, t.Served := by
  have huser : ∀ t ∈ userTxs bld ls s, t.req.opcode.isUser = true := fun t ht =>
    (List.mem_filter.mp ht).2
  have hentries : entries bld ls s = (userTxs bld ls s).flatMap Tx.owes := by
    rw [entries_eq bld ls hs hend, userTxs]
    exact (flatMap_owes_user _).symm
  rw [hentries]
  constructor
  · intro h t ht
    by_contra hns
    have hcall : ¬t.call.isSome := fun h => hns ((Tx.call_isSome (huser t ht)).mp h)
    have hnil : t.owes = [] := by
      rw [Tx.owes_of_user (huser t ht), Tx.ret, Option.not_isSome_iff_eq_none.mp hcall]
      rfl
    have hlt := length_flatMap_owes ⟨t, ht, hnil⟩
    have hlen := h.length_eq
    omega
  · exact fun h => forall₂_accounts fun t ht => ⟨huser t ht, h t ht⟩

instance (t : Tx) : Decidable t.Served := inferInstanceAs (Decidable (_ → _))

/-- A read into the given buffers. -/
def readWr (wrId : UInt64) (sges : List Sge) : SendWr :=
  ⟨wrId, .user sges, .rdmaReadReq, 0, 0x5000, 0x5000⟩

/-- A read is sent and a Send fails: one entry on each queue. -/
theorem requests_accounted_read_then_send :
    let ls := serve (readWr 7 [⟨0x1000, 4, 0x1000⟩]) ++ serve (sendWr 8)
    let s := sendSys [.accept 100, .fail]
    List.Forall₂ Accounts (userTxs ⟨false, false⟩ ls s) (entries ⟨false, false⟩ ls s) ∧
      entries ⟨false, false⟩ ls s =
        [.pending ⟨7, .success, .readRequest, 0⟩, .cq ⟨8, .fatalErr, .send, 0xffffffff⟩] :=
  ⟨(requests_accounted_iff ⟨false, false⟩ _ rfl (by decide +kernel)).mpr (by decide +kernel),
    by decide +kernel⟩

/-- A read into two buffers is dropped. -/
theorem requests_accounted_dropped :
    let ls := serve (readWr 7 [⟨0x1000, 4, 0x1000⟩, ⟨0x1004, 4, 0x1000⟩])
    ¬List.Forall₂ Accounts (userTxs ⟨false, false⟩ ls (sendSys []))
      (entries ⟨false, false⟩ ls (sendSys [])) := by
  intro ls h
  have hlen := h.length_eq
  revert hlen
  decide +kernel

end SoftUiWarp
