import SoftUiWarp.Ddp.Queues
import SoftUiWarp.Ddp.Send
import SoftUiWarp.Rdmap.System

/-!
# The completions of reads

`rnic_send` sends a read request and only then puts the completion on
`pending_cq`; `rnic_recv` takes a completion from there for each read response
and does nothing if there is none. In runs in which the completion is there
when the response is handled, every read is completed once, in order. A
response handled before loses its completion.

Results:
* `readInv_step`: the invariant of requests, pending and delivered completions.
* `reads_completed`: every read is completed once, in order, after its
  response.
-/

namespace SoftUiWarp

open TcpStream ByteMem Runs

/-! ## Reads and a peer that answers them -/

def SgList.Single : SgList → Prop
  | .user [_] => True
  | _ => False

instance : ∀ l : SgList, Decidable l.Single
  | .user [_] => isTrue trivial
  | .user [] | .user (_ :: _ :: _) | .recvSg => isFalse id

/-- The peer answers the requests it has received: a further message comes only
    while a request is unanswered, and it is a read response. -/
def Ep.Answered (ep : Ep) (h : History) : Prop :=
  match ep.recvPc with
  | .idle => h.responses < h.reads.length
  | .dispatch _ => ep.opcode = some .rdmaReadResp ∧ ddpIsTagged ep.msg.hdr = true
  | _ => True

/-- The application posts reads with one sge, and the peer answers them. -/
def ReadTraffic : Label → Sys → Prop
  | .post wr, _ => wr.opcode = .rdmaReadReq ∧ wr.sgList.Single
  | .recv, s => s.ep.Answered s.hist
  | _, _ => True

/-- When `rnic_recv` handles a read response, a completion is on `pending_cq`. -/
def PendingFirst : Label → Sys → Prop
  | .recv, s => s.ep.handles .rdmaReadResp → s.ep.pendingCq ≠ []
  | _, _ => True

instance (ep : Ep) (h : History) : Decidable (ep.Answered h) :=
  match hpc : ep.recvPc with
  | .idle => decidable_of_iff (h.responses < h.reads.length) (by rw [Ep.Answered, hpc])
  | .dispatch _ =>
    decidable_of_iff (ep.opcode = some .rdmaReadResp ∧ ddpIsTagged ep.msg.hdr = true)
      (by rw [Ep.Answered, hpc])
  | .payload _ | .enqResp | .repost | .enqRead _ | .enqRecv _ | .stuck | .exited _ | .aborted =>
    isTrue (by simp [Ep.Answered, hpc])

instance : ∀ (l : Label) (s : Sys), Decidable (ReadTraffic l s)
  | .post wr, _ => inferInstanceAs (Decidable (wr.opcode = .rdmaReadReq ∧ wr.sgList.Single))
  | .recv, s => inferInstanceAs (Decidable (s.ep.Answered s.hist))
  | .send _, _ | .postBuffers _, _ | .postWr, _ | .register _, _ | .invalidate _, _
  | .store _, _ => isTrue trivial

instance : ∀ (l : Label) (s : Sys), Decidable (PendingFirst l s)
  | .recv, s => inferInstanceAs (Decidable (s.ep.handles .rdmaReadResp → s.ep.pendingCq ≠ []))
  | .post _, _ | .send _, _ | .postBuffers _, _ | .postWr, _ | .register _, _ | .invalidate _, _
  | .store _, _ => isTrue trivial

/-! ## The invariant -/

/-- The request sent whose completion is not on a queue. -/
def SendPc.sent : SendPc → List SendWr
  | .complete req _ => [req]
  | _ => []

/-- The completion taken from `pending_cq` and not on the completion queue. -/
def Ep.moving (ep : Ep) : List WorkCompletion :=
  match ep.recvPc with
  | .enqRead wce => [wce]
  | _ => []

/-- The places of `rnic_recv` at which it uses neither the send queue nor the
    completion queue. -/
def RecvPc.Quiet : RecvPc → Prop
  | .enqResp | .enqRecv _ => False
  | _ => True

/-- Every request is waiting, being sent or sent; the completions of the reads
    sent are on the completion queue, on their way to it, on `pending_cq` or on
    their way there, in this order. -/
structure ReadInv (s : Sys) : Prop where
  evs : s.ep.ddp.outb.evs = []
  single : ∀ wr ∈ s.hist.reqs, wr.opcode = .rdmaReadReq ∧ wr.sgList.Single
  reqs : s.hist.reqs = s.hist.reads ++ (s.ep.sendPc.held ++ s.ep.sq)
  order : s.hist.reads.map SendWr.wrId =
    (s.hist.readDone ++ (s.ep.moving ++ s.ep.pendingCq)).map WorkCompletion.wrId ++
      s.ep.sendPc.sent.map SendWr.wrId
  count : s.hist.responses = s.hist.readDone.length + s.ep.moving.length
  cq : s.ep.cq = s.hist.readDone
  ret : ∀ req ret, s.ep.sendPc = .complete req ret → ret = 0 ∧ req.opcode = .rdmaReadReq
  quiet : s.ep.recvPc.Quiet

section

variable {bld : Build} {s s' : Sys}

/-- A step that leaves the requests and the completions alone. -/
theorem ReadInv.frame (h : ReadInv s) (hout : s'.ep.ddp.outb = s.ep.ddp.outb)
    (hpc : s'.ep.sendPc = s.ep.sendPc) (hsq : s'.ep.sq = s.ep.sq)
    (hcqs : s'.ep.cqs = s.ep.cqs) (hcq : s'.ep.sendCq = s.ep.sendCq)
    (hmov : s'.ep.moving = s.ep.moving) (hq : s'.ep.recvPc.Quiet)
    (hreqs : s'.hist.reqs = s.hist.reqs) (hreads : s'.hist.reads = s.hist.reads)
    (hresp : s'.hist.responses = s.hist.responses)
    (hdone : s'.hist.readDone = s.hist.readDone) : ReadInv s' where
  evs := by rw [hout]; exact h.evs
  single := by rw [hreqs]; exact h.single
  reqs := by rw [hreqs, hreads, hpc, hsq]; exact h.reqs
  order := by
    rw [hreads, hdone, hmov, Ep.pendingCq, hcqs, hcq, hpc]
    exact h.order
  count := by rw [hresp, hdone, hmov]; exact h.count
  cq := by rw [hdone, Ep.cq, hcqs, hcq]; exact h.cq
  ret := by rw [hpc]; exact h.ret
  quiet := hq

/-! ## `rnic_recv` -/

theorem dispatch_readResp {ep : Ep} {ret : ℤ} (hop : ep.opcode = some .rdmaReadResp)
    (ht : ddpIsTagged ep.msg.hdr = true) : ep.dispatch bld ret = ep.takePending ret := by
  simp only [Ep.dispatch, hop, Ep.assertThen, ht, or_true, if_true]

/-- A read response moves a completion off `pending_cq`. -/
theorem readInv_response {ret : ℤ} (h : ReadInv s) (hpc : s.ep.recvPc = .dispatch ret)
    (hans : s.ep.Answered s.hist) (hpend : PendingFirst .recv s) :
    ReadInv (step bld .recv s) := by
  simp only [Ep.Answered, hpc] at hans
  obtain ⟨hop, ht⟩ := hans
  have hne := hpend (by simpa only [Ep.handles, hpc] using hop)
  obtain ⟨wce, pending, hq⟩ := List.exists_cons_of_ne_nil hne
  have hstep : step bld .recv s =
      { s with
        ep := { s.ep with
          cqs := Function.update s.ep.cqs s.ep.sendCq
            { s.ep.cqs s.ep.sendCq with pendingQ := pending }
          recvPc := .enqRead { wce with byteLen := UInt32.ofInt ret } }
        hist := { s.hist with responses := s.hist.responses + 1 } } := by
    rw [Ep.pendingCq] at hq
    simp only [step, rnicRecvStep, History.recv, hpc, dispatch_readResp hop ht, Ep.takePending, hq,
      hop, if_true]
  have hmov : s.ep.moving = [] := by simp only [Ep.moving, hpc]
  have hord := h.order
  have hcount := h.count
  rw [hmov] at hord hcount
  rw [hq] at hord
  rw [hstep]
  exact
    { evs := h.evs
      single := h.single
      reqs := h.reqs
      order := by simpa [Ep.moving, Ep.pendingCq] using hord
      count := by simpa [Ep.moving] using hcount
      cq := by simpa [Ep.cq] using h.cq
      ret := h.ret
      quiet := trivial }

/-- The completion taken from `pending_cq` reaches the completion queue. -/
theorem readInv_enqRead {wce : WorkCompletion} (h : ReadInv s)
    (hpc : s.ep.recvPc = .enqRead wce) : ReadInv (step bld .recv s) := by
  have hstep : step bld .recv s =
      { s with
        ep := { s.ep.enqCq wce with recvPc := .idle }
        hist := { s.hist with readDone := s.hist.readDone ++ [wce] } } := by
    simp only [step, rnicRecvStep, History.recv, hpc]
  have hmov : s.ep.moving = [wce] := by simp only [Ep.moving, hpc]
  have hord := h.order
  have hcount := h.count
  have hcq := h.cq
  rw [hmov] at hord hcount
  rw [Ep.cq] at hcq
  rw [hstep]
  exact
    { evs := h.evs
      single := h.single
      reqs := h.reqs
      order := by simpa [Ep.moving, Ep.pendingCq, Ep.enqCq] using hord
      count := by simpa [Ep.moving] using hcount
      cq := by simp [Ep.cq, Ep.enqCq, hcq]
      ret := h.ret
      quiet := trivial }

theorem ofRet_quiet (r : Ret) : (RecvPc.ofRet r).Quiet := by
  cases r with
  | val r =>
    simp only [RecvPc.ofRet]
    split <;> trivial
  | blocked => trivial
  | spin => trivial

theorem ofRet_ne_enqRead (r : Ret) (wce : WorkCompletion) : RecvPc.ofRet r ≠ .enqRead wce := by
  cases r with
  | val r =>
    simp only [RecvPc.ofRet]
    split <;> simp
  | blocked => simp [RecvPc.ofRet]
  | spin => simp [RecvPc.ofRet]

theorem Ep.moving_of_ne {ep : Ep} (h : ∀ wce, ep.recvPc ≠ .enqRead wce) : ep.moving = [] := by
  unfold Ep.moving
  split
  · exact absurd ‹_› (h _)
  · rfl

/-- A step of `rnic_recv` that handles no read response and moves no
    completion. -/
theorem ReadInv.frame_recv (h : ReadInv s) {ep : Ep} {hist : History}
    (hout : ep.ddp.outb = s.ep.ddp.outb) (hpc : ep.sendPc = s.ep.sendPc) (hsq : ep.sq = s.ep.sq)
    (hcqs : ep.cqs = s.ep.cqs) (hcq : ep.sendCq = s.ep.sendCq)
    (h1 : ∀ wce, s.ep.recvPc ≠ .enqRead wce) (h2 : ∀ wce, ep.recvPc ≠ .enqRead wce)
    (hq : ep.recvPc.Quiet) (hhist : ∃ taken, hist = { s.hist with taken := taken }) :
    ReadInv { s with ep := ep, hist := hist } := by
  obtain ⟨taken, rfl⟩ := hhist
  exact h.frame hout hpc hsq hcqs hcq (by rw [Ep.moving_of_ne h1]; exact Ep.moving_of_ne h2) hq
    rfl rfl rfl rfl

/-- A step of `rnic_recv`. -/
theorem readInv_recv (h : ReadInv s) (hans : s.ep.Answered s.hist) (hpend : PendingFirst .recv s) :
    ReadInv (step bld .recv s) := by
  have hquiet := h.quiet
  cases hpc : s.ep.recvPc with
  | idle =>
    simp only [step, rnicRecvStep, hpc]
    split
    · refine h.frame_recv (ddpRecvHead_outb _ _) rfl rfl rfl rfl (by simp [hpc]) ?_ ?_ ?_
      · simp only
        split
        · exact ofRet_ne_enqRead _
        · simp
      · simp only
        split
        · exact ofRet_quiet _
        · trivial
      · simp only [History.recv, hpc, if_pos ‹_›]
        exact ⟨_, rfl⟩
    · refine h.frame_recv rfl rfl rfl rfl rfl (by simp [hpc]) (by simp) trivial ?_
      simp only [History.recv, hpc, if_neg ‹_›]
      exact ⟨_, rfl⟩
  | payload c =>
    simp only [step, rnicRecvStep, History.recv, hpc]
    exact h.frame_recv (ddpRecvPayload_keeps _ _ _ _).2.1 rfl rfl rfl rfl (by simp [hpc])
      (ofRet_ne_enqRead _) (ofRet_quiet _) ⟨_, rfl⟩
  | dispatch ret => exact readInv_response h hpc hans hpend
  | enqResp =>
    rw [hpc] at hquiet
    exact hquiet.elim
  | repost =>
    simp only [step, rnicRecvStep, History.recv, hpc]
    exact h.frame_recv rfl rfl rfl rfl rfl (by simp [hpc]) (by simp) trivial ⟨_, rfl⟩
  | enqRead wce => exact readInv_enqRead h hpc
  | enqRecv wce =>
    rw [hpc] at hquiet
    exact hquiet.elim
  | stuck =>
    simp only [step, rnicRecvStep, History.recv, hpc]
    exact h.frame_recv rfl rfl rfl rfl rfl (by simp [hpc]) (by simp [hpc]) hquiet ⟨_, rfl⟩
  | exited ret =>
    simp only [step, rnicRecvStep, History.recv, hpc]
    exact h.frame_recv rfl rfl rfl rfl rfl (by simp [hpc]) (by simp [hpc]) hquiet ⟨_, rfl⟩
  | aborted =>
    simp only [step, rnicRecvStep, History.recv, hpc]
    exact h.frame_recv rfl rfl rfl rfl rfl (by simp [hpc]) (by simp [hpc]) hquiet ⟨_, rfl⟩

/-! ## `rnic_send` -/

/-- A read request is sent whole. -/
theorem transmit_read (junk : DdpUntaggedMeta) (st : Statics) {ep : Ep} {req : SendWr}
    (hop : req.opcode = .rdmaReadReq) (hs : req.sgList.Single) (he : ep.ddp.outb.evs = []) :
    (ep.transmit junk st req).ret = some 0 ∧ (ep.transmit junk st req).out.evs = [] := by
  obtain ⟨sg, hsg⟩ : ∃ sg, req.sgList = .user [sg] := by
    unfold SgList.Single at hs
    split at hs
    · exact ⟨_, ‹_›⟩
    · exact hs.elim
  have hlast : LastNonempty [⟨0, UInt32.ofNat readReqFieldsSize, 0⟩] := ⟨_, rfl, by decide⟩
  simp only [Ep.transmit, Ep.sges, hop, hsg]
  rw [ddpSendUntagged_eq (by decide) hlast he]
  exact ⟨rfl, he⟩

/-- The request held by `rnic_send` is a read of the application. -/
theorem ReadInv.held_single (h : ReadInv s) {req : SendWr} (hpc : s.ep.sendPc = .transmit req) :
    req.opcode = .rdmaReadReq ∧ req.sgList.Single := by
  refine h.single req ?_
  rw [h.reqs, hpc]
  simp [SendPc.held]

/-- Sending a request: its completion is not on `pending_cq` yet. -/
theorem readInv_transmit {junk : DdpUntaggedMeta} {req : SendWr} (h : ReadInv s)
    (hpc : s.ep.sendPc = .transmit req) : ReadInv (step bld (.send junk) s) := by
  obtain ⟨hop, hs⟩ := h.held_single hpc
  obtain ⟨hret, hevs⟩ := transmit_read junk s.st hop hs h.evs
  have hstep : step bld (.send junk) s =
      { s with
        st := (s.ep.transmit junk s.st req).statics
        ep := { s.ep with
          ddp := { s.ep.ddp with outb := (s.ep.transmit junk s.st req).out }
          sendPc := .complete req 0 }
        hist := { s.hist with reads := s.hist.reads ++ [req] } } := by
    simp only [step, rnicSendStep, History.send, hpc, hop, hret, Option.isSome_some, if_true]
  have hreqs := h.reqs
  have hord := h.order
  rw [hpc] at hreqs hord
  simp only [SendPc.held, SendPc.sent, List.map_nil, List.append_nil] at hreqs hord
  rw [hstep]
  exact
    { evs := hevs
      single := h.single
      reqs := by simpa [SendPc.held] using hreqs
      order := by
        simp only [List.map_append, hord]
        simp [SendPc.sent, Ep.moving, Ep.pendingCq]
      count := h.count
      cq := h.cq
      ret := by
        rintro _ _ ⟨⟩
        exact ⟨rfl, hop⟩
      quiet := h.quiet }

/-- The completion of a read that was sent goes to `pending_cq`. -/
theorem readInv_complete {junk : DdpUntaggedMeta} {req : SendWr} {ret : ℤ} (h : ReadInv s)
    (hpc : s.ep.sendPc = .complete req ret) : ReadInv (step bld (.send junk) s) := by
  obtain ⟨rfl, hop⟩ := h.ret req ret hpc
  have hstep : step bld (.send junk) s =
      { s with ep := { s.ep.enqPending (sendWrToWce req 0) with sendPc := .idle } } := by
    simp [step, rnicSendStep, History.send, hpc, Ep.complete, hop]
  have hreqs := h.reqs
  have hord := h.order
  rw [hpc] at hreqs hord
  rw [Ep.pendingCq] at hord
  rw [hstep]
  exact
    { evs := h.evs
      single := h.single
      reqs := by simpa [SendPc.held, Ep.enqPending] using hreqs
      order := by simpa [SendPc.sent, Ep.moving, Ep.pendingCq, Ep.enqPending, sendWrToWce] using hord
      count := h.count
      cq := by simpa [Ep.cq, Ep.enqPending] using h.cq
      ret := fun _ _ => nofun
      quiet := h.quiet }

/-- A step of `rnic_send`. -/
theorem readInv_send (junk : DdpUntaggedMeta) (h : ReadInv s) :
    ReadInv (step bld (.send junk) s) := by
  cases hpc : s.ep.sendPc with
  | idle =>
    have hhist : s.hist.send junk s.st s.ep = s.hist := by simp only [History.send, hpc]
    have hreqs := h.reqs
    have hord := h.order
    rw [hpc] at hreqs hord
    simp only [SendPc.held, List.nil_append] at hreqs
    by_cases hcon : s.ep.connected = true
    · cases hsq : s.ep.sq with
      | nil =>
        have heq : step bld (.send junk) s = s := by
          simp only [step, rnicSendStep, hpc, hcon, hsq, if_true, hhist]
        rw [heq]
        exact h
      | cons req sq =>
        have heq : step bld (.send junk) s =
            { s with ep := { s.ep with sq := sq, sendPc := .transmit req } } := by
          simp only [step, rnicSendStep, hpc, hcon, hsq, if_true, hhist]
        rw [heq]
        rw [hsq] at hreqs
        exact ⟨h.evs, h.single, hreqs, hord, h.count, h.cq, fun _ _ => nofun, h.quiet⟩
    · have heq : step bld (.send junk) s = { s with ep := { s.ep with sendPc := .exited } } := by
        simp only [step, rnicSendStep, hpc, if_neg hcon, hhist]
      rw [heq]
      exact ⟨h.evs, h.single, hreqs, hord, h.count, h.cq, fun _ _ => nofun, h.quiet⟩
  | transmit req => exact readInv_transmit h hpc
  | complete req ret => exact readInv_complete h hpc
  | exited =>
    have heq : step bld (.send junk) s = s := by
      simp only [step, rnicSendStep, History.send, hpc]
    rw [heq]
    exact h

/-! ## Runs -/

/-- The invariant is kept by every step that finds its completion pending. -/
theorem readInv_step (l : Label) (h : ReadInv s) (htr : ReadTraffic l s) (hpend : PendingFirst l s) :
    ReadInv (step bld l s) := by
  cases l with
  | recv => exact readInv_recv h htr hpend
  | send junk => exact readInv_send junk h
  | post wr =>
    exact
      { evs := h.evs
        single := by
          intro w hw
          rcases List.mem_append.mp hw with hw | hw
          · exact h.single w hw
          · rw [List.mem_singleton.mp hw]
            exact htr
        reqs := by simp [step, rdmapPost, h.reqs]
        order := h.order
        count := h.count
        cq := h.cq
        ret := h.ret
        quiet := h.quiet }
  | postBuffers wr =>
    simp only [step]
    split
    · have hout : (postRecvBuffers s.ep wr).ddp.outb = s.ep.ddp.outb := by
        simp only [postRecvBuffers, ddpPostRecv]
        split <;> rfl
      exact h.frame hout rfl rfl rfl rfl rfl h.quiet rfl rfl rfl rfl
    · exact h
  | postWr =>
    simp only [step]
    split
    · exact h
    · exact h.frame rfl rfl rfl rfl rfl rfl h.quiet rfl rfl rfl rfl
  | register buf => exact h.frame rfl rfl rfl rfl rfl rfl h.quiet rfl rfl rfl rfl
  | invalidate tag => exact h.frame rfl rfl rfl rfl rfl rfl h.quiet rfl rfl rfl rfl
  | store ws => exact h.frame rfl rfl rfl rfl rfl rfl h.quiet rfl rfl rfl rfl

end

/-- A new stream whose socket takes everything it is given. -/
def NewReadStream (s : Sys) : Prop := NewStream s ∧ s.ep.ddp.outb.evs = []

theorem readInv_newStream {s : Sys} (h : NewReadStream s) : ReadInv s := by
  obtain ⟨h, hevs⟩ := h
  have hmov : s.ep.moving = [] := Ep.moving_of_ne (by simp [h.recvPc])
  exact
    { evs := hevs
      single := by simp [h.hist]
      reqs := by simp [h.hist, h.sendPc, h.sq, SendPc.held]
      order := by simp [h.hist, h.sendPc, hmov, SendPc.sent, Ep.pendingCq, h.cqs]
      count := by simp [h.hist, hmov]
      cq := by simp [h.hist, Ep.cq, h.cqs]
      ret := by simp [h.sendPc]
      quiet := by rw [h.recvPc]; trivial }

/-- Every response has been received and `rnic_send` has finished the requests. -/
structure ReadsOver (s : Sys) : Prop where
  recvPc : s.ep.recvPc = .idle
  sendPc : s.ep.sendPc = .idle
  sq : s.ep.sq = []
  responses : s.hist.responses = s.hist.reads.length

/-- The completions on the completion queue are those of the first reads, in
    order, each one after its response; in the end there is one for each read
    and none is pending. -/
structure ReadsCompleted (s : Sys) : Prop where
  order : s.ep.cq.map WorkCompletion.wrId = (s.hist.reqs.take s.ep.cq.length).map SendWr.wrId
  placed : s.ep.cq.length ≤ s.hist.responses
  finished : ReadsOver s → s.ep.cq.length = s.hist.reqs.length ∧ s.ep.pendingCq = []

/-- In every run in which the completion of a read is pending when its response
    is handled, every read is completed once and in order. -/
theorem reads_completed {bld : Build} {s : Sys}
    (h : Reach (step bld) (fun l s => ReadTraffic l s ∧ PendingFirst l s) NewReadStream s) :
    ReadsCompleted s := by
  have hinv : ReadInv s := h.invariant (fun s hs => readInv_newStream hs)
    fun l s hs hG => readInv_step l hs hG.1 hG.2
  have hids : s.hist.reqs.map SendWr.wrId = s.hist.readDone.map WorkCompletion.wrId ++
      ((s.ep.moving ++ s.ep.pendingCq).map WorkCompletion.wrId ++
        s.ep.sendPc.sent.map SendWr.wrId ++ (s.ep.sendPc.held ++ s.ep.sq).map SendWr.wrId) := by
    rw [hinv.reqs, List.map_append, hinv.order, List.map_append]
    simp only [List.append_assoc]
  have hcount := hinv.count
  refine ⟨?_, ?_, fun hover => ?_⟩
  · rw [hinv.cq, List.map_take, hids]
    exact (List.take_left' (List.length_map _)).symm
  · rw [hinv.cq]
    omega
  · have hmov : s.ep.moving = [] := Ep.moving_of_ne (by simp [hover.recvPc])
    have hlen := congrArg List.length hinv.order
    have hreqs := congrArg List.length hinv.reqs
    simp only [List.length_map, List.length_append, hmov, hover.sendPc, hover.sq, SendPc.sent,
      SendPc.held, List.length_nil] at hlen hreqs hcount
    have hresp := hover.responses
    refine ⟨by rw [hinv.cq]; omega, List.eq_nil_of_length_eq_zero (by omega)⟩

/-! ## One read -/

/-- A read response message with one byte. -/
def readRespMsg (tag : UInt32) (addr : UInt64) (b : UInt8) : List UInt8 :=
  fpdu [[0xc1], DdpTaggedMeta.bytes ⟨rdmaHdr .rdmaReadResp, htonl tag, htonll addr⟩, [b]]

/-- A read of one byte into `0x2000`. -/
def oneRead : SendWr := ⟨42, .user [⟨0x2000, 1, 0x2000⟩], .rdmaReadReq, 0, 0x1000, 7⟩

/-- A read of the byte after it into `0x2001`. -/
def nextRead : SendWr := ⟨43, .user [⟨0x2001, 1, 0x2000⟩], .rdmaReadReq, 0, 0x1001, 7⟩

/-- The reads are sent and their completions enqueued before the responses come. -/
theorem reads_completed_two :
    let s := run (step ⟨false, false⟩)
      ([.register ⟨⟨0, 0⟩, 0x2000, 2⟩, .post oneRead, .post nextRead] ++
        List.replicate 6 (.send ⟨0, 0, 0, 0, 0⟩) ++ List.replicate 8 .recv)
      (newSys (readRespMsg 0x2000 0x2000 9 ++ readRespMsg 0x2000 0x2001 8))
    s.ep.cq.map WorkCompletion.wrId = [42, 43] ∧ s.ep.mem.read 0x2000 2 = [9, 8] ∧
      ReadsCompleted s := by
  intro s
  have hreach : Reach (step ⟨false, false⟩) (fun l s => ReadTraffic l s ∧ PendingFirst l s)
      NewReadStream s := Reach.run _ (.start ⟨newStream_newSys _, rfl⟩) (by decide +kernel)
  exact ⟨by decide +kernel, by decide +kernel, reads_completed hreach⟩

/-- The response is handled between the sending of the request and the enqueue
    on `pending_cq`: the read is never completed. -/
theorem reads_completed_lost :
    let s := run (step ⟨false, false⟩)
      ([.register ⟨⟨0, 0⟩, 0x2000, 1⟩, .post oneRead] ++
        List.replicate 2 (.send ⟨0, 0, 0, 0, 0⟩) ++ List.replicate 3 .recv ++
        [.send ⟨0, 0, 0, 0, 0⟩])
      (newSys (readRespMsg 0x2000 0x2000 9))
    Reach (step ⟨false, false⟩) ReadTraffic NewReadStream s ∧ ReadsOver s ∧
      s.hist.reqs = [oneRead] ∧ s.ep.cq = [] ∧ ¬ReadsCompleted s := by
  intro s
  have hover : ReadsOver s := ⟨rfl, by decide +kernel, by decide +kernel, by decide +kernel⟩
  have hcq : s.ep.cq = [] := by decide +kernel
  have hreqs : s.hist.reqs = [oneRead] := by decide +kernel
  refine ⟨Reach.run _ (.start ⟨newStream_newSys _, rfl⟩) (by decide +kernel), hover, hreqs, hcq,
    fun h => ?_⟩
  have hlen := (h.finished hover).1
  rw [hcq, hreqs] at hlen
  cases hlen

end SoftUiWarp
