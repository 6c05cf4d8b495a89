import SoftUiWarp.Rdmap.System

/-!
# Which request a read response answers

`rnic_recv` fills its variable `sg` for each read request and enqueues a
response that points to it. A response still waiting when the next request is
handled is sent with that request's source. In runs in which `sg` is refilled
only when no response waits, every response answers its own request; two
requests handled before the first response is sent break it.

Results:
* `answerInv_step`: the invariant of the waiting responses.
* `read_answers_own`: every response sent is that of its own request.
-/

namespace SoftUiWarp

open TcpStream ByteMem Runs

/-- A read response that goes out as the request `f` asks: `rdma_rd_sz` bytes
    read at `src_TO`, to `sink_tag` and `sink_TO`. -/
def OwnAnswer (a : Answer) (f : ReadReqFields) : Prop :=
  a.after = (ddpSendTagged a.before a.mem
    ⟨rdmaHdr .rdmaReadResp, htonl f.sinkTag, htonll f.sinkTO⟩
    [⟨f.srcTO, f.rdmaRdSz, f.srcTag⟩]).2

instance (a : Answer) (f : ReadReqFields) : Decidable (OwnAnswer a f) :=
  inferInstanceAs (Decidable (_ = _))

/-- The responses sent answer the first requests, one by one. -/
def AnswersOwn (h : History) : Prop :=
  List.Forall₂ OwnAnswer h.answers (h.requests.take h.answers.length)

instance (h : History) : Decidable (AnswersOwn h) := inferInstanceAs (Decidable (List.Forall₂ _ _ _))

/-! ## Waiting responses -/

def SendWr.isResp (wr : SendWr) : Bool := wr.opcode = .rdmaReadResp

/-- The response filled and not enqueued. -/
def Ep.filled (ep : Ep) : List SendWr :=
  match ep.recvPc with
  | .enqResp => [ep.readResp]
  | _ => []

/-- The responses filled and not sent, the oldest first. -/
def Ep.waiting (ep : Ep) : List SendWr :=
  ep.sendPc.held.filter SendWr.isResp ++ ep.sq.filter SendWr.isResp ++ ep.filled

/-- The response `w` and the content of `sg` are those of the request `f`. -/
structure RespFor (sg : Sge) (w : SendWr) (f : ReadReqFields) : Prop where
  list : w.sgList = .recvSg
  rkey : w.rkey = f.sinkTag
  remoteAddr : w.remoteAddr = f.sinkTO
  sge : sg = ⟨f.srcTO, f.rdmaRdSz, f.srcTag⟩

/-- At most one response waits, and it is the one for the last request. -/
structure AnswerInv (s : Sys) : Prop where
  opcode : s.ep.readResp.opcode = .rdmaReadResp
  list : s.ep.readResp.sgList = .recvSg
  own : ∃ done waiting, s.hist.requests = done ++ waiting ∧
    List.Forall₂ OwnAnswer s.hist.answers done ∧
    List.Forall₂ (RespFor s.ep.sg) s.ep.waiting waiting ∧ waiting.length ≤ 1

/-- The application does not post read responses. -/
def UserPosts : Label → Prop
  | .post wr => wr.opcode ≠ .rdmaReadResp
  | _ => True

/-- No read response is on the send queue or held by the send thread when the
    next read request is handled. -/
def SgFree : Label → Sys → Prop
  | .recv, s => s.ep.handles .rdmaReadReq → (∀ wr ∈ s.ep.sq, wr.opcode ≠ .rdmaReadResp) ∧
      ∀ req ∈ s.ep.sendPc.held, req.opcode ≠ .rdmaReadResp
  | _, _ => True

instance : ∀ l : Label, Decidable (UserPosts l)
  | .post wr => inferInstanceAs (Decidable (wr.opcode ≠ .rdmaReadResp))
  | .recv | .send _ | .postBuffers _ | .postWr | .register _ | .invalidate _ | .store _ =>
    isTrue trivial

instance : ∀ (l : Label) (s : Sys), Decidable (SgFree l s)
  | .recv, s => inferInstanceAs (Decidable (s.ep.handles .rdmaReadReq → _ ∧ _))
  | .post _, _ | .send _, _ | .postBuffers _, _ | .postWr, _ | .register _, _ | .invalidate _, _
  | .store _, _ => isTrue trivial

section

variable {bld : Build} {s s' : Sys}

/-- A step that leaves the waiting responses and `sg` alone. -/
theorem AnswerInv.frame (h : AnswerInv s) (hw : s'.ep.waiting = s.ep.waiting)
    (hsg : s'.ep.sg = s.ep.sg) (hop : s'.ep.readResp.opcode = s.ep.readResp.opcode)
    (hl : s'.ep.readResp.sgList = s.ep.readResp.sgList)
    (hreq : s'.hist.requests = s.hist.requests) (hans : s'.hist.answers = s.hist.answers) :
    AnswerInv s' := by
  refine ⟨hop.trans h.opcode, hl.trans h.list, ?_⟩
  rw [hreq, hans, hw, hsg]
  exact h.own

theorem Ep.filled_of_ne {ep : Ep} (h : ep.recvPc ≠ .enqResp) : ep.filled = [] := by
  unfold Ep.filled
  split
  · exact absurd ‹_› h
  · rfl

/-- A step of `rnic_recv` outside the read request handler. -/
theorem AnswerInv.frame_recv (h : AnswerInv s) {ep : Ep} {hist : History}
    (h1 : s.ep.recvPc ≠ .enqResp) (h2 : ep.recvPc ≠ .enqResp) (hsq : ep.sq = s.ep.sq)
    (hpc : ep.sendPc = s.ep.sendPc) (hsg : ep.sg = s.ep.sg) (hresp : ep.readResp = s.ep.readResp)
    (hreq : hist.requests = s.hist.requests) (hans : hist.answers = s.hist.answers) :
    AnswerInv { s with ep := ep, hist := hist } := by
  refine h.frame ?_ hsg (by rw [hresp]) (by rw [hresp]) hreq hans
  simp only [Ep.waiting, hsq, hpc, Ep.filled_of_ne h1, Ep.filled_of_ne h2]

/-- `sg` and `read_resp` are filled while no response waits. -/
theorem AnswerInv.fill (h : AnswerInv s) (hnone : s.ep.waiting = []) {ep : Ep} {hist : History}
    {f : ReadReqFields} (h1 : s.ep.recvPc ≠ .enqResp) (h2 : ep.recvPc = .enqResp)
    (hsq : ep.sq = s.ep.sq) (hpc : ep.sendPc = s.ep.sendPc)
    (hop : ep.readResp.opcode = s.ep.readResp.opcode)
    (hl : ep.readResp.sgList = s.ep.readResp.sgList) (hresp : RespFor ep.sg ep.readResp f)
    (hreq : hist.requests = s.hist.requests ++ [f]) (hans : hist.answers = s.hist.answers) :
    AnswerInv { s with ep := ep, hist := hist } := by
  obtain ⟨done, waiting, hreq', hans', hwait, -⟩ := h.own
  rw [hnone] at hwait
  cases hwait
  have hw : ep.waiting = [ep.readResp] := by
    have hnone' := hnone
    simp only [Ep.waiting, Ep.filled_of_ne h1, List.append_nil] at hnone'
    simp only [Ep.waiting, hsq, hpc, hnone', Ep.filled, h2, List.nil_append]
  refine ⟨hop.trans h.opcode, hl.trans h.list, done, [f], ?_, ?_, ?_, le_rfl⟩
  · simp only [hreq, hreq', List.append_nil]
  · simpa only [hans] using hans'
  · simp only [hw]
    exact .cons hresp .nil

theorem waiting_of_free {ep : Ep} (hne : ep.recvPc ≠ .enqResp)
    (hsq : ∀ wr ∈ ep.sq, wr.opcode ≠ .rdmaReadResp)
    (hheld : ∀ req ∈ ep.sendPc.held, req.opcode ≠ .rdmaReadResp) : ep.waiting = [] := by
  have hnil : ∀ l : List SendWr, (∀ wr ∈ l, wr.opcode ≠ .rdmaReadResp) →
      l.filter SendWr.isResp = [] := by
    intro l hl
    rw [List.filter_eq_nil_iff]
    intro wr hwr
    simpa [SendWr.isResp] using hl wr hwr
  simp only [Ep.waiting, hnil _ hsq, hnil _ hheld, Ep.filled_of_ne hne, List.append_nil]

theorem fillResp_respFor (bld : Build) {ep : Ep} (h : ep.readResp.sgList = .recvSg) :
    RespFor (ep.fillResp bld).sg (ep.fillResp bld).readResp (ep.readReq bld) := by
  simp only [Ep.fillResp]
  generalize ep.readReq bld = f
  exact ⟨h, rfl, rfl, rfl⟩

/-- The switch of `rnic_recv`. -/
theorem answerInv_dispatch {ret : ℤ} (h : AnswerInv s) (hpc : s.ep.recvPc = .dispatch ret)
    (hfree : SgFree .recv s) : AnswerInv (step bld .recv s) := by
  have hne : s.ep.recvPc ≠ .enqResp := by rw [hpc]; simp
  have hans := History.recv_answers bld s.ep s.hist
  have hreq : (s.ep.dispatch bld ret).recvPc ≠ .enqResp →
      (s.hist.recv bld s.ep).requests = s.hist.requests := fun hn =>
    History.recv_requests bld s.ep s.hist fun r hr => by
      rw [hpc] at hr
      cases hr
      exact hn
  have hfill : (s.ep.dispatch bld ret).recvPc = .enqResp →
      (s.hist.recv bld s.ep).requests = s.hist.requests ++ [s.ep.readReq bld] := fun hn => by
    simp only [History.recv, hpc, hn]
  have hstep : step bld .recv s = { s with
      ep := s.ep.dispatch bld ret
      hist := s.hist.recv bld s.ep } := by
    simp only [step, rnicRecvStep, hpc]
  rw [hstep]
  have hd := dispatch_cases bld s.ep ret
  generalize s.hist.recv bld s.ep = hist at hans hreq hfill
  generalize s.ep.dispatch bld ret = e at hd hreq hfill
  cases hd with
  | request hop =>
    obtain ⟨hsq, hsend⟩ := hfree (by simpa only [Ep.handles, hpc] using hop)
    -- not by `rfl`, which would look into the fields of the request
    have hresp : (s.ep.fillResp bld).readResp.opcode = s.ep.readResp.opcode ∧
        (s.ep.fillResp bld).readResp.sgList = s.ep.readResp.sgList := by
      simp only [Ep.fillResp, and_self]
    exact h.fill (waiting_of_free hne hsq hsend) hne rfl rfl rfl hresp.1 hresp.2
      (fillResp_respFor bld h.list) (hfill rfl) hans
  | response hop =>
    obtain ⟨-, heq⟩ | ⟨wce, pending, -, heq⟩ := takePending_cases s.ep ret
    all_goals
      rw [heq] at hreq ⊢
      exact h.frame_recv hne (by simp) rfl rfl rfl rfl (hreq (by simp)) hans
  | @send op tags hop hs =>
    obtain ⟨-, heq⟩ | ⟨wr, rq, -, heq⟩ := takeRecv_cases (s.ep.withTags tags) ret op
    all_goals
      rw [heq] at hreq ⊢
      exact h.frame_recv hne (by simp) rfl rfl rfl rfl (hreq (by simp)) hans
  | @ended tags con pc hend =>
    have hpc' : pc ≠ .enqResp := by cases hend <;> simp
    exact h.frame_recv hne hpc' rfl rfl rfl rfl (hreq hpc') hans

/-- A step of `rnic_recv`. -/
theorem answerInv_recv (h : AnswerInv s) (hfree : SgFree .recv s) :
    AnswerInv (step bld .recv s) := by
  have hans := History.recv_answers bld s.ep s.hist
  have hreq : (∀ ret, s.ep.recvPc ≠ .dispatch ret) →
      (s.hist.recv bld s.ep).requests = s.hist.requests := fun hn =>
    History.recv_requests bld s.ep s.hist fun r hr => absurd hr (hn r)
  cases hpc : s.ep.recvPc with
  | idle =>
    simp only [step, rnicRecvStep, hpc]
    split
    · refine h.frame_recv (by simp [hpc]) ?_ rfl rfl rfl rfl (hreq (by simp [hpc])) hans
      simp only
      split
      · exact ofRet_ne_enqResp _
      · simp
    · exact h.frame_recv (by simp [hpc]) (by simp) rfl rfl rfl rfl (hreq (by simp [hpc])) hans
  | payload c =>
    simp only [step, rnicRecvStep, hpc]
    exact h.frame_recv (by simp [hpc]) (ofRet_ne_enqResp _) rfl rfl rfl rfl (hreq (by simp [hpc]))
      hans
  | dispatch ret => exact answerInv_dispatch h hpc hfree
  | enqResp =>
    -- the response moves from `read_resp` to the end of the send queue
    refine h.frame ?_ ?_ ?_ ?_ (hreq (by simp [hpc])) hans
    all_goals simp only [step, rnicRecvStep, hpc]
    have hresp : s.ep.readResp.isResp = true := by simp [SendWr.isResp, h.opcode]
    simp [Ep.waiting, Ep.filled, hpc, hresp]
  | repost =>
    simp only [step, rnicRecvStep, hpc]
    exact h.frame_recv (by simp [hpc]) (by simp) rfl rfl rfl rfl (hreq (by simp [hpc])) hans
  | enqRead wce =>
    simp only [step, rnicRecvStep, hpc]
    exact h.frame_recv (by simp [hpc]) (by simp) rfl rfl rfl rfl (hreq (by simp [hpc])) hans
  | enqRecv wce =>
    simp only [step, rnicRecvStep, hpc]
    exact h.frame_recv (by simp [hpc]) (by simp) rfl rfl rfl rfl (hreq (by simp [hpc])) hans
  | stuck =>
    simp only [step, rnicRecvStep, hpc]
    exact h.frame_recv (by simp [hpc]) (by simp [hpc]) rfl rfl rfl rfl (hreq (by simp [hpc])) hans
  | exited ret =>
    simp only [step, rnicRecvStep, hpc]
    exact h.frame_recv (by simp [hpc]) (by simp [hpc]) rfl rfl rfl rfl (hreq (by simp [hpc])) hans
  | aborted =>
    simp only [step, rnicRecvStep, hpc]
    exact h.frame_recv (by simp [hpc]) (by simp [hpc]) rfl rfl rfl rfl (hreq (by simp [hpc])) hans

/-- Sending a read response takes it off the waiting responses. -/
theorem answerInv_answer {junk : DdpUntaggedMeta} {req : SendWr} (h : AnswerInv s)
    (hpc : s.ep.sendPc = .transmit req) (hop : req.opcode = .rdmaReadResp) :
    AnswerInv (step bld (.send junk) s) := by
  obtain ⟨done, waiting, hreq, hans, hwait, hlen⟩ := h.own
  have hw : s.ep.waiting = req :: (s.ep.sq.filter SendWr.isResp ++ s.ep.filled) := by
    simp [Ep.waiting, SendPc.held, hpc, SendWr.isResp, hop]
  rw [hw] at hwait
  cases hwait with
  | @cons _ f _ rest hresp hrest =>
    have hsges : s.ep.sges req = [⟨f.srcTO, f.rdmaRdSz, f.srcTag⟩] := by
      simp only [Ep.sges, hresp.list, ← hresp.sge]
    have hout : (s.ep.transmit junk s.st req).out = (ddpSendTagged s.ep.ddp.outb s.ep.mem
        ⟨rdmaHdr .rdmaReadResp, htonl f.sinkTag, htonll f.sinkTO⟩
        [⟨f.srcTO, f.rdmaRdSz, f.srcTag⟩]).2 := by
      simp only [Ep.transmit, hop, hsges, hresp.rkey, hresp.remoteAddr]
    have hret : (s.ep.transmit junk s.st req).ret = none := by simp only [Ep.transmit, hop]
    refine ⟨?_, ?_, done ++ [f], rest, ?_, ?_, ?_, by rw [List.length_cons] at hlen; omega⟩
    · simpa only [step, rnicSendStep, hpc] using h.opcode
    · simpa only [step, rnicSendStep, hpc] using h.list
    · simp only [step, History.send, hpc, hop, hreq, List.append_assoc, List.singleton_append]
    · simp only [step, History.send, hpc, hop]
      refine List.rel_append hans (.cons ?_ .nil)
      exact hout
    · have hw' : (step bld (.send junk) s).ep.waiting =
          s.ep.sq.filter SendWr.isResp ++ s.ep.filled := by
        simp only [step, rnicSendStep, hpc, hret, Ep.waiting, SendPc.held, List.filter_nil,
          List.nil_append]
        rfl
      rw [hw']
      simpa only [step, rnicSendStep, hpc] using hrest

/-- A step of `rnic_send`. -/
theorem answerInv_send (junk : DdpUntaggedMeta) (h : AnswerInv s) :
    AnswerInv (step bld (.send junk) s) := by
  cases hpc : s.ep.sendPc with
  | idle =>
    have hhist : s.hist.send junk s.st s.ep = s.hist := by simp only [History.send, hpc]
    by_cases hcon : s.ep.connected = true
    · cases hsq : s.ep.sq with
      | nil =>
        have heq : step bld (.send junk) s = s := by
          simp only [step, rnicSendStep, hpc, hcon, hsq, if_true, hhist]
        rw [heq]
        exact h
      | cons req sq =>
        have heq : step bld (.send junk) s =
            { s with ep := { s.ep with sq := sq, sendPc := .transmit req } } := by
          simp only [step, rnicSendStep, hpc, hcon, hsq, if_true, hhist]
        rw [heq]
        refine h.frame ?_ rfl rfl rfl rfl rfl
        simp only [Ep.waiting, SendPc.held, hpc, hsq, List.filter_nil, List.nil_append]
        rw [← List.filter_append, List.singleton_append]
        rfl
    · have heq : step bld (.send junk) s = { s with ep := { s.ep with sendPc := .exited } } := by
        simp only [step, rnicSendStep, hpc, if_neg hcon, hhist]
      rw [heq]
      refine h.frame ?_ rfl rfl rfl rfl rfl
      simp only [Ep.waiting, SendPc.held, hpc]
      rfl
  | transmit req =>
    by_cases hop : req.opcode = .rdmaReadResp
    · exact answerInv_answer h hpc hop
    · have hans : (s.hist.send junk s.st s.ep).answers = s.hist.answers ∧
          (s.hist.send junk s.st s.ep).requests = s.hist.requests := by
        simp only [History.send, hpc]
        split
        · exact absurd ‹_› hop
        · split <;> exact ⟨rfl, rfl⟩
        · exact ⟨rfl, rfl⟩
      refine h.frame ?_ ?_ ?_ ?_ hans.2 hans.1
      all_goals simp only [step, rnicSendStep, hpc]
      have hreq : s.ep.sendPc.held.filter SendWr.isResp = [] := by
        simp [SendPc.held, hpc, SendWr.isResp, hop]
      simp only [Ep.waiting, hreq]
      cases (s.ep.transmit junk s.st req).ret <;> rfl
  | complete req ret =>
    have hhist : s.hist.send junk s.st s.ep = s.hist := by simp only [History.send, hpc]
    have heq : step bld (.send junk) s =
        { s with ep := { s.ep.complete req ret with sendPc := .idle } } := by
      simp only [step, rnicSendStep, hpc, hhist]
    rw [heq]
    unfold Ep.complete
    simp only
    split
    all_goals
      refine h.frame ?_ rfl rfl rfl rfl rfl
      simp only [Ep.waiting, SendPc.held, hpc]
      rfl
  | exited =>
    have heq : step bld (.send junk) s = s := by
      simp only [step, rnicSendStep, History.send, hpc]
    rw [heq]
    exact h

/-- The invariant is kept by every step that finds `sg` free. -/
theorem answerInv_step (l : Label) (h : AnswerInv s) (huser : UserPosts l) (hfree : SgFree l s) :
    AnswerInv (step bld l s) := by
  cases l with
  | recv => exact answerInv_recv h hfree
  | send junk => exact answerInv_send junk h
  | post wr =>
    refine h.frame ?_ rfl rfl rfl rfl rfl
    have hwr : wr.isResp = false := by simpa [SendWr.isResp, UserPosts] using huser
    simp only [step, rdmapPost, Ep.waiting, List.filter_append, List.filter_cons, hwr,
      List.filter_nil]
    simp [Ep.filled]
  | postBuffers wr =>
    simp only [step]
    split
    · exact h.frame rfl rfl rfl rfl rfl rfl
    · exact h
  | postWr =>
    simp only [step]
    split
    · exact h
    · exact h.frame rfl rfl rfl rfl rfl rfl
  | register buf => exact h.frame rfl rfl rfl rfl rfl rfl
  | invalidate tag => exact h.frame rfl rfl rfl rfl rfl rfl
  | store ws => exact h.frame rfl rfl rfl rfl rfl rfl

end

/-! ## Runs -/

end SoftUiWarp
