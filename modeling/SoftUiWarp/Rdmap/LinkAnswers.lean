import SoftUiWarp.Rdmap.Messages
import SoftUiWarp.Rdmap.ReadAnswers

/-!
# The responder of the reads

The responder handles the requests it receives in their order and enqueues a
response for each; the responses are sent in this order, whatever else is on
the send queue. A request is used where `ddp_recv` has put it, in a buffer that
belongs to the library.

Results:
* `answered_step`: what is told of a request is told of the response to it.
* `requested_recv`, `requested_other`: a request is handled with the fields it
  came with.
-/

namespace SoftUiWarp

open ByteMem Runs

/-! ## The responder sends the responses in the order of the requests -/

/-- Something that can be told of a request, of a waiting response when `sg` is
    known, and of a response that is sent. -/
structure AnswerKey (κ : Type) where
  ofRequest : ReadReqFields → κ
  ofWr : Sge → SendWr → κ
  ofTx : Tx → κ
  fill : ∀ (f : ReadReqFields) (wr : SendWr), ofWr ⟨f.srcTO, f.rdmaRdSz, f.srcTag⟩
    { wr with rkey := f.sinkTag, remoteAddr := f.sinkTO } = ofRequest f
  wrId : ∀ (sg : Sge) (wr : SendWr) (n : UInt64), ofWr sg { wr with wrId := n } = ofWr sg wr
  sent : ∀ t : Tx, t.req.sgList = .recvSg → ofTx t = ofWr t.ep.sg t.req

/-- The sink of a response. -/
def sinkKey : AnswerKey (UInt32 × UInt64) where
  ofRequest f := (f.sinkTag, f.sinkTO)
  ofWr _ wr := (wr.rkey, wr.remoteAddr)
  ofTx t := (t.req.rkey, t.req.remoteAddr)
  fill _ _ := rfl
  wrId _ _ _ := rfl
  sent _ _ := rfl

/-- The sink of a response, and what it reads. -/
def answerKey : AnswerKey ((UInt32 × UInt64) × List Sge) where
  ofRequest f := ((f.sinkTag, f.sinkTO), [⟨f.srcTO, f.rdmaRdSz, f.srcTag⟩])
  ofWr sg wr := ((wr.rkey, wr.remoteAddr), [sg])
  ofTx t := ((t.req.rkey, t.req.remoteAddr), t.ep.sges t.req)
  fill _ _ := rfl
  wrId _ _ _ := rfl
  sent t h := by simp only [Ep.sges, h]

/-- The read responses among the messages of a host. -/
def respsOf (ts : List Tx) : List Tx := ts.filter fun t => t.req.isResp

/-- The requests handled are those of the responses sent and waiting. -/
structure Answered {κ : Type} (key : AnswerKey κ) (ts : List Tx) (s : Sys) : Prop where
  opcode : s.ep.readResp.opcode = .rdmaReadResp
  list : s.ep.readResp.sgList = .recvSg
  waiting : ∀ wr ∈ s.ep.waiting, wr.sgList = .recvSg
  keys : s.hist.requests.map key.ofRequest =
    (respsOf ts).map key.ofTx ++ s.ep.waiting.map (key.ofWr s.ep.sg)

section

variable {bld : Build} {s : Sys} {ts : List Tx} {κ : Type} {key : AnswerKey κ}

/-- A step that leaves the requests and the responses alone. -/
theorem Answered.frame (h : Answered key ts s) {s' : Sys} (hw : s'.ep.waiting = s.ep.waiting)
    (hsg : s'.ep.sg = s.ep.sg) (hresp : s'.ep.readResp = s.ep.readResp)
    (hreq : s'.hist.requests = s.hist.requests) : Answered key ts s' where
  opcode := by rw [hresp]; exact h.opcode
  list := by rw [hresp]; exact h.list
  waiting := by rw [hw]; exact h.waiting
  keys := by rw [hreq, hw, hsg]; exact h.keys

theorem RecvPc.Free.filled {ep : Ep} (h : ep.recvPc.Free) : ep.filled = [] :=
  Ep.filled_of_ne fun hpc => by
    rw [hpc] at h
    exact h

theorem fillResp_eq (bld : Build) (ep : Ep) : ∃ f mem, ep.readReq bld = f ∧
    ep.fillResp bld = { ep with
      mem := mem
      sg := ⟨f.srcTO, f.rdmaRdSz, f.srcTag⟩
      readResp := { ep.readResp with rkey := f.sinkTag, remoteAddr := f.sinkTO }
      recvPc := .enqResp } := by
  refine ⟨ep.readReq bld, ep.reqMem bld, rfl, ?_⟩
  unfold Ep.fillResp
  rfl

/-- The response handled is the last one of those waiting. -/
theorem answered_dispatch {ret : ℤ} (h : Answered key ts s) (hpc : s.ep.recvPc = .dispatch ret)
    (hstable : s.ep.handles .rdmaReadReq → ∀ sg, ∀ wr ∈ s.ep.waiting,
      key.ofWr sg wr = key.ofWr s.ep.sg wr) :
    Answered key ts { s with ep := s.ep.dispatch bld ret, hist := s.hist.recv bld s.ep } := by
  have hfill : s.ep.filled = [] := Ep.filled_of_ne (by simp [hpc])
  have hreq : (s.ep.dispatch bld ret).recvPc ≠ .enqResp →
      (s.hist.recv bld s.ep).requests = s.hist.requests := fun hn =>
    History.recv_requests bld s.ep s.hist fun r hr => by
      rw [hpc] at hr
      cases hr
      exact hn
  have hhist : (s.ep.dispatch bld ret).recvPc = .enqResp →
      (s.hist.recv bld s.ep).requests = s.hist.requests ++ [s.ep.readReq bld] := fun hn => by
    simp only [History.recv, hpc, hn]
  have hd := dispatch_cases bld s.ep ret
  generalize s.hist.recv bld s.ep = hist at hreq hhist ⊢
  generalize s.ep.dispatch bld ret = ep at hd hreq hhist ⊢
  have same (hne : ep.recvPc ≠ .enqResp) (hsq : ep.sq = s.ep.sq) (hsend : ep.sendPc = s.ep.sendPc)
      (hsg : ep.sg = s.ep.sg) (hresp : ep.readResp = s.ep.readResp) :
      Answered key ts { s with ep := ep, hist := hist } := by
    refine h.frame ?_ hsg hresp (hreq hne)
    simp only [Ep.waiting, hsq, hsend, Ep.filled_of_ne hne, hfill]
  cases hd with
  | request hop =>
    have hst := hstable (by simpa only [Ep.handles, hpc] using hop)
    obtain ⟨f, mem, hf, heq⟩ := fillResp_eq bld s.ep
    rw [heq] at hhist ⊢
    obtain ⟨wr, hwr⟩ : ∃ wr : SendWr,
        wr = { s.ep.readResp with rkey := f.sinkTag, remoteAddr := f.sinkTO } := ⟨_, rfl⟩
    rw [← hwr] at hhist ⊢
    have hlist : wr.sgList = .recvSg := by rw [hwr]; exact h.list
    have hkey : key.ofWr ⟨f.srcTO, f.rdmaRdSz, f.srcTag⟩ wr = key.ofRequest f := by
      rw [hwr]
      exact key.fill f _
    refine ⟨by rw [hwr]; exact h.opcode, hlist, ?_, ?_⟩
    · intro wr' hmem
      rcases List.mem_append.mp hmem with hmem | hmem
      · refine h.waiting wr' ?_
        rw [Ep.waiting, hfill, List.append_nil]
        exact hmem
      · rw [List.mem_singleton.mp hmem]
        exact hlist
    · have hw : s.ep.waiting = s.ep.sendPc.held.filter SendWr.isResp ++
          s.ep.sq.filter SendWr.isResp := by rw [Ep.waiting, hfill, List.append_nil]
      have hkeys := h.keys
      rw [List.map_congr_left fun wr' hmem => (hst ⟨f.srcTO, f.rdmaRdSz, f.srcTag⟩ wr' hmem).symm]
        at hkeys
      rw [hhist rfl, hf, List.map_append, hkeys, hw]
      simp only [Ep.waiting, Ep.filled, List.map_append, List.map_cons, List.map_nil, hkey,
        List.append_assoc]
  | response =>
    obtain ⟨-, heq⟩ | ⟨wce, pending, -, heq⟩ := takePending_cases s.ep ret
    all_goals
      rw [heq] at same ⊢
      exact same (by simp) rfl rfl rfl rfl
  | @send op tags =>
    obtain ⟨-, heq⟩ | ⟨wr, rq, -, heq⟩ := takeRecv_cases (s.ep.withTags tags) ret op
    all_goals
      rw [heq] at same ⊢
      exact same (by simp) rfl rfl rfl rfl
  | ended tags con hend => exact same (by cases hend <;> simp) rfl rfl rfl rfl

theorem answered_recv (h : Answered key ts s)
    (hstable : s.ep.handles .rdmaReadReq → ∀ sg, ∀ wr ∈ s.ep.waiting,
      key.ofWr sg wr = key.ofWr s.ep.sg wr) : Answered key ts (step bld .recv s) := by
  have hturn := step_recvTurn bld s
  generalize rxOf .recv s = new at hturn
  generalize step bld .recv s = s' at hturn ⊢
  have same {s' : Sys} (hsq : s'.ep.sq = s.ep.sq) (hsend : s'.ep.sendPc = s.ep.sendPc)
      (hfill : s.ep.filled = []) (hfill' : s'.ep.filled = []) :
      s'.ep.waiting = s.ep.waiting := by
    rw [Ep.waiting, Ep.waiting, hsq, hsend, hfill, hfill']
  cases hturn with
  | reads hpc hpc' => exact h.frame (same rfl rfl hpc.filled hpc'.filled) rfl rfl rfl
  | receives hpc => exact h.frame (same rfl rfl hpc.filled rfl) rfl rfl rfl
  | dispatches hpc => exact answered_dispatch h hpc hstable
  | answers hpc =>
    -- the response moves from `read_resp` to the end of the send queue
    have hw : (s.ep.sq ++ [s.ep.readResp]).filter SendWr.isResp =
        s.ep.sq.filter SendWr.isResp ++ s.ep.filled := by
      simp [Ep.filled, hpc, SendWr.isResp, h.opcode]
    have hwait := h.waiting
    have hkeys := h.keys
    rw [Ep.waiting, List.append_assoc, ← hw] at hwait hkeys
    exact ⟨h.opcode, h.list, by simpa [Ep.waiting, Ep.filled] using hwait,
      by simpa [Ep.waiting, Ep.filled] using hkeys⟩
  | completesRead hpc => exact h.frame (same rfl rfl (by simp [Ep.filled, hpc]) rfl) rfl rfl rfl
  | completesRecv hpc => exact h.frame (same rfl rfl (by simp [Ep.filled, hpc]) rfl) rfl rfl rfl

theorem Ep.waiting_eq (ep : Ep) :
    ep.waiting = (ep.sendPc.held ++ ep.sq).filter SendWr.isResp ++ ep.filled := by
  rw [Ep.waiting, List.filter_append]

theorem map_respsOf (ts : List Tx) :
    (respsOf ts).map Tx.req = (ts.map Tx.req).filter SendWr.isResp := by
  rw [List.filter_map]
  rfl

theorem respsOf_append (ts us : List Tx) : respsOf (ts ++ us) = respsOf ts ++ respsOf us :=
  List.filter_append ts us

/-- A response is always sent. -/
theorem respsOf_msgOf (l : Label) (s : Sys) : respsOf (msgOf l s) = respsOf (txOf l s) := by
  rw [respsOf, msgOf, List.filter_filter, respsOf]
  refine List.filter_congr fun t _ => ?_
  by_cases ht : t.req.opcode = .rdmaReadResp
  · have hcall : t.call.isSome = true := by simp [Tx.call, Job.call, Tx.job, ht]
    rw [hcall, Bool.and_true]
  · simp [SendWr.isResp, ht]

theorem answered_send (junk : DdpUntaggedMeta) (h : Answered key ts s) :
    Answered key (ts ++ msgOf (.send junk) s) (step bld (.send junk) s) := by
  have hturn := step_sendTurn bld junk s
  have hkeys := h.keys
  have hresps : respsOf (ts ++ msgOf (.send junk) s) = respsOf ts ++ respsOf (txOf (.send junk) s) := by
    rw [respsOf_append, respsOf_msgOf]
  generalize msgOf (.send junk) s = new at hresps ⊢
  generalize txOf (.send junk) s = sent at hturn hresps
  generalize step bld (.send junk) s = s' at hturn ⊢
  -- the responses waiting are those before without the one sent
  have next (hw : s.ep.waiting = (respsOf sent).map Tx.req ++ s'.ep.waiting) (hsg : s'.ep.sg = s.ep.sg)
      (hep : ∀ t ∈ sent, t.ep = s.ep) (hresp : s'.ep.readResp = s.ep.readResp)
      (hreq : s'.hist.requests = s.hist.requests) : Answered key (ts ++ new) s' := by
    refine ⟨by rw [hresp]; exact h.opcode, by rw [hresp]; exact h.list, fun wr hwr => ?_, ?_⟩
    · exact h.waiting wr (by rw [hw]; exact List.mem_append_right _ hwr)
    · have hsent : ((respsOf sent).map Tx.req).map (key.ofWr s.ep.sg) =
          (respsOf sent).map key.ofTx := by
        rw [List.map_map]
        refine List.map_congr_left fun t ht => ?_
        have hlist := h.waiting t.req (by
          rw [hw]
          exact List.mem_append_left _ (List.mem_map_of_mem ht))
        rw [Function.comp_apply, ← hep t (List.mem_of_mem_filter ht), key.sent t hlist]
      rw [hw, List.map_append, hsent] at hkeys
      rw [hresps, List.map_append, hreq, hkeys, hsg, List.append_assoc]
  cases hturn with
  | @takes req sq hpc hcon hsq =>
    refine next ?_ rfl (by simp) rfl rfl
    simp only [Ep.waiting_eq, hpc, hsq]
    rfl
  | @transmits req t hpc ht =>
    refine next ?_ rfl (by simp [ht]) rfl ?_
    · have hreq : t.req = req := by rw [ht]
      rw [map_respsOf, List.map_singleton, hreq, Ep.waiting_eq, Ep.waiting_eq, hpc, Tx.held_after,
        SendPc.held, List.filter_append, List.append_assoc]
      rfl
    · simp only [History.send, hpc]
      split
      · rfl
      · split <;> rfl
      · rfl
  | @completes req ret hpc =>
    have hsame : ∀ ep : Ep, ep = s.ep.enqPending (sendWrToWce req ret) ∨
        ep = s.ep.enqCq (sendWrToWce req ret) →
        s.ep.waiting = { ep with sendPc := .idle }.waiting ∧ ep.sg = s.ep.sg ∧
          ep.readResp = s.ep.readResp := by
      rintro _ (rfl | rfl)
      all_goals
        refine ⟨?_, rfl, rfl⟩
        rw [Ep.waiting_eq, hpc]
        rfl
    obtain ⟨hw, hsg, hresp⟩ := hsame (s.ep.complete req ret) (by
      unfold Ep.complete
      split
      · exact .inl rfl
      · exact .inr rfl)
    exact next hw hsg (by simp) hresp rfl
  | exits hpc =>
    refine next ?_ rfl (by simp) rfl rfl
    rw [Ep.waiting_eq, hpc]
    rfl
  | rests => exact next rfl rfl (by simp) rfl rfl

/-- The responses go out in the order of the requests, whatever the threads and
    the application do. -/
theorem answered_step (l : Label) (h : Answered key ts s) (huser : UserPosts l)
    (hstable : l = .recv → s.ep.handles .rdmaReadReq → ∀ sg, ∀ wr ∈ s.ep.waiting,
      key.ofWr sg wr = key.ofWr s.ep.sg wr) :
    Answered key (ts ++ msgOf l s) (step bld l s) := by
  cases l with
  | recv =>
    rw [msgOf, txOf_of_ne (by simp), List.filter_nil, List.append_nil]
    exact answered_recv h (hstable rfl)
  | send junk => exact answered_send junk h
  | post wr =>
    rw [msgOf, txOf_of_ne (by simp), List.filter_nil, List.append_nil]
    have hwr : wr.isResp = false := by simpa [SendWr.isResp, UserPosts] using huser
    refine h.frame ?_ rfl rfl rfl
    rw [Ep.waiting_eq, Ep.waiting_eq]
    simp [step, rdmapPost, hwr, Ep.filled]
  | postBuffers wr =>
    rw [msgOf, txOf_of_ne (by simp), List.filter_nil, List.append_nil]
    simp only [step]
    split
    · exact h.frame rfl rfl rfl rfl
    · exact h
  | postWr =>
    rw [msgOf, txOf_of_ne (by simp), List.filter_nil, List.append_nil]
    simp only [step]
    split
    · exact h
    · exact h.frame rfl rfl rfl rfl
  | _ =>
    rw [msgOf, txOf_of_ne (by simp), List.filter_nil, List.append_nil]
    exact h.frame rfl rfl rfl rfl

theorem NewStream.answered (key : AnswerKey κ) (h : NewStream s) : Answered key [] s := by
  have hw : s.ep.waiting = [] := by
    rw [Ep.waiting_eq, h.sendPc, h.sq, Ep.filled_of_ne (by simp [h.recvPc])]
    rfl
  refine ⟨h.opcode, h.list, by simp [hw], ?_⟩
  rw [hw, h.hist]
  rfl

end

/-! ## The responder handles the requests it receives -/

/-- The fields of a request where `ddp_recv` has put them. -/
def Rx.request (rx : Rx) : ReadReqFields := readReqAt rx.out.mem rx.out.msg.buf.untagBuf.data

/-- The messages with an opcode. -/
def rxsWith (op : RdmaOpcode) (rxs : List Rx) : List Rx := rxs.filter fun rx => rx.opcode = some op

theorem rxsWith_append (op : RdmaOpcode) (rxs : List Rx) (rx : Rx) :
    rxsWith op (rxs ++ [rx]) = rxsWith op rxs ++ if rx.opcode = some op then [rx] else [] := by
  rw [rxsWith, List.filter_append, List.filter_singleton, rxsWith]
  simp

/-- The request the switch is about to handle. -/
def Ep.requestHeld (ep : Ep) : List ReadReqFields :=
  if ep.handles .rdmaReadReq then [readReqAt ep.mem ep.msg.buf.untagBuf.data] else []

/-- The application does not store into the buffer of a request that the switch
    is about to handle; it belongs to the library. -/
def SparesRequest : Label → Sys → Prop
  | .store ws, s => s.ep.handles .rdmaReadReq →
      ∀ w ∈ ws, ∀ i < readReqFieldsSize, w.1 ≠ s.ep.msg.buf.untagBuf.data + UInt64.ofNat i
  | _, _ => True

instance : ∀ (l : Label) (s : Sys), Decidable (SparesRequest l s)
  | .store ws, s => inferInstanceAs (Decidable (s.ep.handles .rdmaReadReq → ∀ w ∈ ws, _))
  | .recv, _ | .send _, _ | .post _, _ | .postBuffers _, _ | .postWr, _ | .register _, _
  | .invalidate _, _ => isTrue trivial

/-- The requests received are handled or at the switch, with the fields they
    came with. -/
structure Requested (rxs : List Rx) (s : Sys) : Prop where
  untagged : s.ep.handles .rdmaReadReq → ddpIsTagged s.ep.msg.hdr = false
  requests : s.hist.requests ++ s.ep.requestHeld = (rxsWith .rdmaReadReq rxs).map Rx.request

section

variable {bld : Build} {s : Sys} {rxs : List Rx} {op : RdmaOpcode}

theorem Ep.requestHeld_of_not {ep : Ep} (h : ¬ep.handles .rdmaReadReq) : ep.requestHeld = [] :=
  if_neg h

/-- A request at the switch is handled, and nothing else is recorded. -/
theorem requested_dispatch {ret : ℤ} (hb : bld.rping = false) (h : Requested rxs s)
    (hpc : s.ep.recvPc = .dispatch ret) :
    Requested rxs { s with ep := s.ep.dispatch bld ret, hist := s.hist.recv bld s.ep } := by
  have hne := dispatch_not_handles bld s.ep ret
  have hreqs := h.requests
  refine ⟨fun hh => absurd hh (hne _), ?_⟩
  rw [Ep.requestHeld_of_not (hne _), List.append_nil, ← hreqs]
  show (s.hist.recv bld s.ep).requests = _
  by_cases hop : s.ep.handles .rdmaReadReq
  · have hopc : s.ep.opcode = some .rdmaReadReq := by simpa only [Ep.handles, hpc] using hop
    have hdisp : s.ep.dispatch bld ret = s.ep.fillResp bld := by
      simp only [Ep.dispatch, hopc]
      exact assertThen_of_true (by rw [h.untagged hop]; rfl)
    have henq : (s.ep.dispatch bld ret).recvPc = .enqResp := by
      rw [hdisp]
      rfl
    have hreq : s.ep.readReq bld = readReqAt s.ep.mem s.ep.msg.buf.untagBuf.data := by
      rw [Ep.readReq, Ep.reqMem, hb]
      rfl
    simp only [History.recv, hpc, henq, Ep.requestHeld, if_pos hop, hreq]
  · rw [Ep.requestHeld_of_not hop, List.append_nil]
    refine History.recv_requests bld s.ep s.hist fun ret' hpc' henq => hop ?_
    have hsw := dispatch_switchesTo bld s.ep ret'
    rw [henq] at hsw
    cases hsw with
    | answer h => simpa only [Ep.handles, hpc'] using h
    | free h => exact h.elim

/-- Outside the switch a request comes in hand when it is received. -/
theorem requested_recv (hb : bld.rping = false) (h : Requested rxs s)
    (hnew : ∀ rx ∈ rxOf .recv s, rx.opcode = some .rdmaReadReq → ddpIsTagged rx.out.msg.hdr = false) :
    Requested (rxs ++ rxOf .recv s) (step bld .recv s) := by
  have hturn := step_recvTurn bld s
  have hreqs := h.requests
  generalize rxOf .recv s = new at hturn hnew ⊢
  generalize step bld .recv s = s' at hturn ⊢
  have none {s' : Sys} (h0 : ¬s.ep.handles .rdmaReadReq) (h1 : ¬s'.ep.handles .rdmaReadReq)
      (hreq : s'.hist.requests = s.hist.requests) : Requested rxs s' := by
    refine ⟨fun hh => absurd hh h1, ?_⟩
    rw [Ep.requestHeld_of_not h1, hreq, ← hreqs, Ep.requestHeld_of_not h0]
  cases hturn with
  | reads hpc hpc' =>
    rw [List.append_nil]
    exact none hpc.not_handles (RecvPc.Free.not_handles hpc') rfl
  | @receives out hpc =>
    rw [Ep.requestHeld_of_not hpc.not_handles, List.append_nil] at hreqs
    refine ⟨fun hh => hnew ⟨s.ep, out⟩ (by simp) hh, ?_⟩
    rw [rxsWith_append, List.map_append, ← hreqs]
    congr 1
    unfold Ep.requestHeld
    split_ifs with h1 h2 h3
    · rfl
    · exact absurd h1 h2
    · exact absurd h3 h1
    · rfl
  | dispatches hpc =>
    rw [List.append_nil]
    exact requested_dispatch hb h hpc
  | answers hpc =>
    rw [List.append_nil]
    exact none (by simp [Ep.handles, hpc]) (by simp [Ep.handles]) rfl
  | completesRead hpc =>
    rw [List.append_nil]
    exact none (by simp [Ep.handles, hpc]) (by simp [Ep.handles]) rfl
  | completesRecv hpc =>
    rw [List.append_nil]
    exact none (by simp [Ep.handles, hpc]) (by simp [Ep.handles]) rfl

theorem Mem.read_readReq (m : Mem) (a : UInt64) : m.read a 28 = m.read a 4 ++ m.read (a + 4) 8 ++
    m.read (a + 12) 4 ++ m.read (a + 16) 4 ++ m.read (a + 20) 8 := by
  rw [show 28 = 4 + 8 + 4 + 4 + 8 by rfl]
  simp only [Mem.read_add]
  rfl

theorem readReqAt_congr {m m' : Mem} {a : UInt64} (h : m.read a 28 = m'.read a 28) :
    readReqAt m a = readReqAt m' a := by
  rw [Mem.read_readReq, Mem.read_readReq] at h
  obtain ⟨h, h5⟩ := List.append_inj' h (by simp)
  obtain ⟨h, h4⟩ := List.append_inj' h (by simp)
  obtain ⟨h, h3⟩ := List.append_inj' h (by simp)
  obtain ⟨h1, h2⟩ := List.append_inj' h (by simp)
  rw [readReqAt, h1, h2, h3, h4, h5, readReqAt]

/-- The other steps leave the request at the switch as it is. -/
theorem requested_other {l : Label} (hl : l ≠ .recv) (h : Requested rxs s)
    (hspare : SparesRequest l s) : Requested rxs (step bld l s) := by
  have hmsg := (step_other bld hl s).2.1
  have hh := step_handles bld hl s .rdmaReadReq
  have next (hreq : (step bld l s).hist.requests = s.hist.requests)
      (hmem : s.ep.handles .rdmaReadReq →
        readReqAt (step bld l s).ep.mem s.ep.msg.buf.untagBuf.data =
          readReqAt s.ep.mem s.ep.msg.buf.untagBuf.data) : Requested rxs (step bld l s) := by
    refine ⟨fun hhan => by rw [hmsg]; exact h.untagged (hh.mp hhan), ?_⟩
    rw [hreq, ← h.requests, Ep.requestHeld, Ep.requestHeld, hmsg]
    by_cases hhan : s.ep.handles .rdmaReadReq
    · rw [if_pos hhan, if_pos (hh.mpr hhan), hmem hhan]
    · rw [if_neg hhan, if_neg fun h => hhan (hh.mp h)]
  cases l with
  | recv => exact absurd rfl hl
  | send junk =>
    have hturn := step_sendTurn bld junk s
    generalize txOf (.send junk) s = sent at hturn
    have hkeep : (step bld (.send junk) s).hist.requests = s.hist.requests ∧
        (step bld (.send junk) s).ep.mem = s.ep.mem := by
      generalize step bld (.send junk) s = s' at hturn ⊢
      cases hturn with
      | transmits t hpc =>
        refine ⟨?_, rfl⟩
        simp only [History.send, hpc]
        split
        · rfl
        · split <;> rfl
        · rfl
      | completes =>
        refine ⟨rfl, ?_⟩
        unfold Ep.complete
        simp only
        split <;> rfl
      | _ => exact ⟨rfl, rfl⟩
    exact next hkeep.1 fun _ => by rw [hkeep.2]
  | store ws =>
    refine next rfl fun hhan => readReqAt_congr ?_
    refine List.map_congr_left fun i hi => ?_
    exact Mem.load_write_of_forall_ne fun w hw => hspare hhan w hw i (List.mem_range.mp hi)
  | postBuffers wr =>
    refine next ?_ fun _ => ?_
    all_goals
      simp only [step]
      split <;> rfl
  | postWr =>
    refine next ?_ fun _ => ?_
    all_goals
      simp only [step]
      split <;> rfl
  | _ => exact next rfl fun _ => rfl

end

end SoftUiWarp
