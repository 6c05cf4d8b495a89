import SoftUiWarp.Ddp.Queues
import SoftUiWarp.Rdmap.System

/-!
# Receives posted while sends arrive

`rdma_post_recv` puts the buffer on queue 0 and then the work request on the
receive queue; a send takes the buffer in `ddp_recv` and the work request in
`rnic_recv`. In runs in which a send finds a work request exactly if it was
given a buffer, every such send completes the receive whose buffer holds it. A
send handled between the two operations of `rdma_post_recv` loses its
completion, and the receive stays for another send.

Results:
* `takenNow_spec`: the buffer a message takes from queue 0.
* `recvInv_step`: the invariant of the two queues.
* `recvs_matched`: every send that was given a buffer completes its receive.
-/

namespace SoftUiWarp

open TcpStream ByteMem Runs

/-- The buffers `rdma_post_recv` posts for `wr`. -/
def RecvWr.buffers (wr : RecvWr) : List UntaggedBuffer := wr.sgList.map Sge.toBuffer

def RdmaOpcode.isSend : Option RdmaOpcode → Bool
  | some .send | some .sendSe | some .sendInval | some .sendSeInval => true
  | _ => false

theorem RdmaOpcode.isSend_iff {op : Option RdmaOpcode} :
    RdmaOpcode.isSend op = true ↔ ∃ o, op = some o ∧ o.IsSend := by
  cases op with
  | none => simp [RdmaOpcode.isSend]
  | some o => cases o <;> simp [RdmaOpcode.isSend, RdmaOpcode.IsSend]

/-- The next step of `rnic_recv` handles a send. -/
def Ep.handlesSend (ep : Ep) : Bool :=
  match ep.recvPc with
  | .dispatch _ => RdmaOpcode.isSend ep.opcode
  | _ => false

/-- A message that is a send, and no other, uses queue 0. -/
def Ep.SendsOnly (ep : Ep) : Prop :=
  match ep.recvPc with
  | .dispatch _ => RdmaOpcode.isSend ep.opcode = true ↔ ep.msg.OnSendQ
  | _ => True

/-- The application posts receives with one sge; sends, and no other messages,
    come on queue 0. -/
def SendTraffic : Label → Sys → Prop
  | .postBuffers wr, _ => wr.sgList.length = 1
  | .recv, s => s.ep.SendsOnly
  | _, _ => True

/-- When `rnic_recv` handles a send, a work request is on the receive queue
    exactly if the send was given a buffer. -/
def PostedInTime : Label → Sys → Prop
  | .recv, s => s.ep.handlesSend = true →
      (s.ep.rq ≠ [] ↔ s.hist.recvDone.length < s.hist.taken.length)
  | _, _ => True

instance (ep : Ep) : Decidable ep.SendsOnly :=
  match h : ep.recvPc with
  | .dispatch _ =>
    decidable_of_iff (RdmaOpcode.isSend ep.opcode = true ↔ ep.msg.OnSendQ) (by rw [Ep.SendsOnly, h])
  | .idle | .payload _ | .enqResp | .repost | .enqRead _ | .enqRecv _ | .stuck | .exited _
  | .aborted => isTrue (by simp [Ep.SendsOnly, h])

instance : ∀ (l : Label) (s : Sys), Decidable (SendTraffic l s)
  | .postBuffers wr, _ => inferInstanceAs (Decidable (wr.sgList.length = 1))
  | .recv, s => inferInstanceAs (Decidable s.ep.SendsOnly)
  | .post _, _ | .send _, _ | .postWr, _ | .register _, _ | .invalidate _, _ | .store _, _ =>
    isTrue trivial

instance : ∀ (l : Label) (s : Sys), Decidable (PostedInTime l s)
  | .recv, s => inferInstanceAs (Decidable (s.ep.handlesSend = true → (_ ↔ _)))
  | .post _, _ | .send _, _ | .postBuffers _, _ | .postWr, _ | .register _, _ | .invalidate _, _
  | .store _, _ => isTrue trivial

/-! ## The buffer a message takes -/

/-- A message takes at most one buffer from queue 0, the first one, and only if
    it is on queue 0. -/
theorem takenNow_spec (ep : Ep) :
    let h := ddpRecvHead ep.ddp ep.msg
    (ep.ddp.queues 0).q = ep.takenNow ++ (h.ctx.queues 0).q ∧
      (ep.takenNow = [] ∨ ∃ c, h.next = .inr c ∧ h.msg.OnSendQ ∧
        ep.takenNow = [h.msg.buf.untagBuf]) := by
  have h := ddpRecvHead_cases ep.ddp ep.msg
  unfold Ep.takenNow
  generalize ddpRecvHead ep.ddp ep.msg = out at h
  cases h with
  | failed r inb msg => exact ⟨rfl, .inl rfl⟩
  | @tagged c inb msg h =>
    have hn : ¬msg.OnSendQ := fun hq => by
      rw [DdpMessage.OnSendQ, h] at hq
      cases hq.1
    simp only [if_neg hn]
    exact ⟨rfl, .inl trivial⟩
  | @untagged c inb msg qn h hqn =>
    by_cases h0 : qn = 0
    · subst h0
      have hon : msg.OnSendQ := ⟨h, UInt32.toNat_inj.mp hqn⟩
      cases hb : (ep.ddp.queues 0).q with
      | nil =>
        simp only [tryDequeueBuf, hb, List.take_nil, ite_self]
        exact ⟨rfl, .inl trivial⟩
      | cons b bs =>
        have hon' : DdpMessage.OnSendQ { msg with buf := .untag b } := hon
        simp only [tryDequeueBuf, hb, if_pos hon']
        refine ⟨?_, .inr ⟨c, rfl, hon', rfl⟩⟩
        simp
    · have hn : ∀ buf, ¬DdpMessage.OnSendQ { msg with buf := buf } := by
        intro buf hq
        have hqn0 : msg.untaggedMetadata.qn = sendQn := hq.2
        rw [hqn0] at hqn
        exact h0 (Fin.ext hqn.symm)
      cases hb : (ep.ddp.queues qn).q with
      | nil =>
        have hn' : ¬msg.OnSendQ := hn msg.buf
        simp only [tryDequeueBuf, hb, if_neg hn']
        exact ⟨rfl, .inl trivial⟩
      | cons b bs =>
        simp only [tryDequeueBuf, hb, if_neg (hn _)]
        refine ⟨?_, .inl trivial⟩
        simp [Function.update_of_ne (Ne.symm h0)]

/-! ## The invariant -/

/-- The completion made and not enqueued. -/
def Ep.completing (ep : Ep) : List WorkCompletion :=
  match ep.recvPc with
  | .enqRecv wce => [wce]
  | _ => []

/-- All sends that were given a buffer are completed. -/
def Settled (s : Sys) : Prop := s.hist.taken.length = s.hist.recvDone.length

/-- The message in hand was given the buffer taken last, and all sends before
    it are completed. -/
structure Given (s : Sys) : Prop where
  count : s.hist.taken.length = s.hist.recvDone.length + 1
  onSendQ : s.ep.msg.OnSendQ
  last : s.hist.taken.getLast? = some s.ep.msg.buf.untagBuf

/-- What the place of `rnic_recv` says about the message in hand. -/
def Phase (s : Sys) : Prop :=
  match s.ep.recvPc with
  | .payload _ | .dispatch _ => Settled s ∨ Given s
  | .enqRecv _ => Given s
  | .stuck | .exited _ | .aborted => True
  | .idle | .enqResp | .repost | .enqRead _ => Settled s

/-- The buffers posted are taken or on queue 0, and the receives posted are
    dequeued, on the receive queue or on their way there. -/
structure RecvInv (s : Sys) : Prop where
  buffers : s.hist.posted.flatMap RecvWr.buffers = s.hist.taken ++ (s.ep.ddp.queues 0).q
  posted : s.hist.posted = s.hist.dequeued ++ (s.ep.rq ++ s.posting.toList)
  dequeued : s.hist.dequeued.map RecvWr.wrId =
    (s.hist.recvDone ++ s.ep.completing).map WorkCompletion.wrId
  phase : Phase s

section

variable {bld : Build} {s s' : Sys}

/-- The parts of the state the invariant is about. -/
structure SameRecvs (s s' : Sys) : Prop where
  queue : (s'.ep.ddp.queues 0).q = (s.ep.ddp.queues 0).q
  rq : s'.ep.rq = s.ep.rq
  posting : s'.posting = s.posting
  posted : s'.hist.posted = s.hist.posted
  taken : s'.hist.taken = s.hist.taken
  dequeued : s'.hist.dequeued = s.hist.dequeued
  recvDone : s'.hist.recvDone = s.hist.recvDone

theorem RecvInv.frame (h : RecvInv s) (hs : SameRecvs s s')
    (hc : s'.ep.completing = s.ep.completing) (hp : Phase s') : RecvInv s' where
  buffers := by rw [hs.posted, hs.taken, hs.queue]; exact h.buffers
  posted := by rw [hs.posted, hs.dequeued, hs.rq, hs.posting]; exact h.posted
  dequeued := by rw [hs.dequeued, hs.recvDone, hc]; exact h.dequeued
  phase := hp

theorem Settled.same (h : Settled s) (htaken : s'.hist.taken = s.hist.taken)
    (hdone : s'.hist.recvDone = s.hist.recvDone) : Settled s' := by
  rw [Settled, htaken, hdone]
  exact h

theorem Given.same (h : Given s) (htaken : s'.hist.taken = s.hist.taken)
    (hdone : s'.hist.recvDone = s.hist.recvDone) (hon : s'.ep.msg.OnSendQ)
    (hbuf : s'.ep.msg.buf = s.ep.msg.buf) : Given s' := by
  refine ⟨?_, hon, ?_⟩
  · rw [htaken, hdone]
    exact h.count
  · rw [htaken, hbuf]
    exact h.last

theorem Phase.same (h : Phase s) (htaken : s'.hist.taken = s.hist.taken)
    (hdone : s'.hist.recvDone = s.hist.recvDone) (hpc : s'.ep.recvPc = s.ep.recvPc)
    (hmsg : s'.ep.msg = s.ep.msg) : Phase s' := by
  have hset : Settled s → Settled s' := fun h => h.same htaken hdone
  have hgiven : Given s → Given s' := fun h =>
    h.same htaken hdone (by rw [hmsg]; exact h.onSendQ) (by rw [hmsg])
  simp only [Phase, hpc] at h ⊢
  split at h
  · exact h.imp hset hgiven
  · exact h.imp hset hgiven
  · exact hgiven h
  · trivial
  · trivial
  · trivial
  all_goals exact hset h

/-- A step that leaves `rnic_recv` and its message where they are. -/
theorem RecvInv.frame_other (h : RecvInv s) (hs : SameRecvs s s') (hpc : s'.ep.recvPc = s.ep.recvPc)
    (hmsg : s'.ep.msg = s.ep.msg) : RecvInv s' :=
  h.frame hs (by simp only [Ep.completing, hpc]) (h.phase.same hs.taken hs.recvDone hpc hmsg)

/-! ## `rnic_recv` -/

theorem Ep.completing_of_ne {ep : Ep} (h : ∀ wce, ep.recvPc ≠ .enqRecv wce) :
    ep.completing = [] := by
  unfold Ep.completing
  split
  · exact absurd ‹_› (h _)
  · rfl

theorem Ep.recvPc_of_completing {ep : Ep} {wce : WorkCompletion} (h : ep.completing = [wce]) :
    ep.recvPc = .enqRecv wce := by
  unfold Ep.completing at h
  split at h
  · cases h
    assumption
  · cases h

theorem Settled.phase (h : Settled s) (hne : ∀ wce, s.ep.recvPc ≠ .enqRecv wce) : Phase s := by
  unfold Phase
  split
  · exact .inl h
  · exact .inl h
  · exact absurd ‹_› (hne _)
  all_goals trivial

theorem ofRet_cases (r : Ret) :
    (∃ ret, RecvPc.ofRet r = .dispatch ret) ∨ RecvPc.ofRet r = .stuck ∨
      RecvPc.ofRet r = .exited (-1) := by
  cases r with
  | val r =>
    simp only [RecvPc.ofRet]
    split
    · exact .inr (.inr rfl)
    · exact .inl ⟨r, rfl⟩
  | blocked => exact .inr (.inl rfl)
  | spin => exact .inr (.inl rfl)

theorem ofRet_ne_enqRecv (r : Ret) (wce : WorkCompletion) : RecvPc.ofRet r ≠ .enqRecv wce := by
  rcases ofRet_cases r with ⟨ret, h⟩ | h | h <;> simp [h]

/-- `ddp_recv` starts a message. -/
theorem recvInv_idle (h : RecvInv s) (hpc : s.ep.recvPc = .idle) :
    RecvInv (step bld .recv s) := by
  have hset : Settled s := by
    have hph := h.phase
    simp only [Phase, hpc] at hph
    exact hph
  have hc : s.ep.completing = [] := Ep.completing_of_ne (by simp [hpc])
  by_cases hcon : s.ep.connected = true
  · obtain ⟨hq, htaken⟩ := takenNow_spec s.ep
    obtain ⟨pc, hep, hnext⟩ := recvStep_idle bld hpc hcon
    have hstep : step bld .recv s =
        { s with
          ep := { s.ep with
            ddp := (ddpRecvHead s.ep.ddp s.ep.msg).ctx
            msg := (ddpRecvHead s.ep.ddp s.ep.msg).msg
            recvPc := pc }
          hist := { s.hist with taken := s.hist.taken ++ s.ep.takenNow } } := by
      simp only [step, hep, History.recv, hpc, hcon, if_true]
    generalize ddpRecvHead s.ep.ddp s.ep.msg = out at hq htaken hstep hnext
    generalize s.ep.takenNow = now at hq htaken hstep
    have hbuf := h.buffers
    rw [hq, ← List.append_assoc] at hbuf
    have hne : ∀ wce, pc ≠ .enqRecv wce := by
      intro wce
      rcases hnext with ⟨r, -, rfl⟩ | ⟨c, -, rfl⟩
      · exact ofRet_ne_enqRecv _ _
      · simp
    have hdeq := h.dequeued
    rw [hc] at hdeq
    rw [hstep]
    refine ⟨hbuf, h.posted, by rw [Ep.completing_of_ne hne]; exact hdeq, ?_⟩
    rcases htaken with rfl | ⟨c, hc, hon, rfl⟩
    · refine Settled.phase ?_ hne
      simpa [Settled] using hset
    · rcases hnext with ⟨r, hr, -⟩ | ⟨c', -, rfl⟩
      · rw [hc] at hr
        cases hr
      · refine .inr ⟨?_, hon, ?_⟩
        · simp only [List.length_append, List.length_singleton]
          rw [hset]
        · simp
  · have hstep : step bld .recv s = { s with ep := { s.ep with recvPc := .exited 0 } } := by
      simp only [step, rnicRecvStep, History.recv, hpc, if_neg hcon]
    rw [hstep]
    exact h.frame ⟨rfl, rfl, rfl, rfl, rfl, rfl, rfl⟩ hc.symm trivial

/-- `ddp_recv` ends: the message keeps its buffer. -/
theorem recvInv_payload {c : SegCtx} (h : RecvInv s) (hpc : s.ep.recvPc = .payload c) :
    RecvInv (step bld .recv s) := by
  have hph := h.phase
  simp only [Phase, hpc] at hph
  have hc : s.ep.completing = [] := Ep.completing_of_ne (by simp [hpc])
  obtain ⟨hq, -, hhdr, hbuf, hqn⟩ := ddpRecvPayload_keeps s.ep.ddp s.ep.mem s.ep.msg c
  have hstep : step bld .recv s =
      { s with
        ep := { s.ep with
          ddp := (ddpRecvPayload s.ep.ddp s.ep.mem s.ep.msg c).ctx
          mem := (ddpRecvPayload s.ep.ddp s.ep.mem s.ep.msg c).mem
          msg := (ddpRecvPayload s.ep.ddp s.ep.mem s.ep.msg c).msg
          recvPc := .ofRet (ddpRecvPayload s.ep.ddp s.ep.mem s.ep.msg c).ret } } := by
    simp only [step, rnicRecvStep, History.recv, hpc]
  generalize ddpRecvPayload s.ep.ddp s.ep.mem s.ep.msg c = out at hq hhdr hbuf hqn hstep
  have hsame : SameRecvs s (step bld .recv s) := by
    rw [hstep]
    exact ⟨by rw [hq], rfl, rfl, rfl, rfl, rfl, rfl⟩
  have hor : Settled (step bld .recv s) ∨ Given (step bld .recv s) := by
    refine hph.imp (fun h => h.same hsame.taken hsame.recvDone) fun h =>
      h.same hsame.taken hsame.recvDone ?_ ?_
    · rw [hstep]
      refine ⟨?_, ?_⟩
      · simp only [hhdr]
        exact h.onSendQ.1
      · simp only [hqn]
        exact h.onSendQ.2
    · rw [hstep]
      exact hbuf
  have hpc' : (step bld .recv s).ep.recvPc = .ofRet out.ret := by rw [hstep]
  refine h.frame hsame ?_ ?_
  · rw [hc]
    exact Ep.completing_of_ne (by rw [hpc']; exact ofRet_ne_enqRecv _)
  · rcases ofRet_cases out.ret with ⟨ret, hr⟩ | hr | hr
    · simp only [Phase, hpc', hr]
      exact hor
    · simp only [Phase, hpc', hr]
    · simp only [Phase, hpc', hr]

/-- Only a send that finds a work request is recorded in the switch. -/
theorem History.recv_receives (bld : Build) {ep : Ep} {ret : ℤ} (h : History)
    (hpc : ep.recvPc = .dispatch ret)
    (hne : ∀ wce, (ep.dispatch bld ret).recvPc ≠ .enqRecv wce) :
    (h.recv bld ep).posted = h.posted ∧ (h.recv bld ep).taken = h.taken ∧
      (h.recv bld ep).dequeued = h.dequeued ∧ (h.recv bld ep).recvDone = h.recvDone := by
  simp only [History.recv, hpc]
  split
  · exact ⟨rfl, rfl, rfl, rfl⟩
  · exact absurd ‹_› (hne _)
  · split <;> exact ⟨rfl, rfl, rfl, rfl⟩

/-- A step of `rnic_recv` with no send in hand that was given a buffer. -/
theorem RecvInv.frame_settled (h : RecvInv s) (hset : Settled s)
    (h1 : ∀ wce, s.ep.recvPc ≠ .enqRecv wce) {ep : Ep} {hist : History}
    (h2 : ∀ wce, ep.recvPc ≠ .enqRecv wce)
    (hq : (ep.ddp.queues 0).q = (s.ep.ddp.queues 0).q) (hrq : ep.rq = s.ep.rq)
    (hhist : hist.posted = s.hist.posted ∧ hist.taken = s.hist.taken ∧
      hist.dequeued = s.hist.dequeued ∧ hist.recvDone = s.hist.recvDone) :
    RecvInv { s with ep := ep, hist := hist } := by
  obtain ⟨hposted, htaken, hdeq, hdone⟩ := hhist
  have hc : ep.completing = [] := Ep.completing_of_ne h2
  exact h.frame ⟨hq, hrq, rfl, hposted, htaken, hdeq, hdone⟩
    (hc.trans (Ep.completing_of_ne h1).symm) (Settled.phase (hset.same htaken hdone) h2)

/-- A send is handled: it completes the first receive on the receive queue. -/
theorem recvInv_complete {ret : ℤ} {wr : RecvWr} {rq : List RecvWr} {wce : WorkCompletion}
    (h : RecvInv s) (hpc : s.ep.recvPc = .dispatch ret) (hgiven : Given s) (hrq : s.ep.rq = wr :: rq)
    {ep : Ep} {hist : History} (hpc' : ep.recvPc = .enqRecv wce) (hid : wce.wrId = wr.wrId)
    (hq : (ep.ddp.queues 0).q = (s.ep.ddp.queues 0).q) (hrq' : ep.rq = rq)
    (hmsg : ep.msg = s.ep.msg) (hhist : hist = { s.hist with dequeued := s.hist.dequeued ++ [wr] }) :
    RecvInv { s with ep := ep, hist := hist } := by
  subst hhist
  have hpost := h.posted
  have hdeq := h.dequeued
  rw [Ep.completing_of_ne (by simp [hpc])] at hdeq
  rw [hrq] at hpost
  have hc : ep.completing = [wce] := by simp only [Ep.completing, hpc']
  exact
    { buffers := by rw [hq]; exact h.buffers
      posted := by rw [hrq', hpost]; simp
      dequeued := by
        simp only [hc, List.append_nil] at hdeq ⊢
        rw [List.map_append, List.map_append, hdeq]
        simp [hid]
      phase := by
        simp only [Phase, hpc']
        exact ⟨hgiven.count, by rw [hmsg]; exact hgiven.onSendQ, by rw [hmsg]; exact hgiven.last⟩ }

/-- The switch. -/
theorem recvInv_dispatch {ret : ℤ} (h : RecvInv s) (hpc : s.ep.recvPc = .dispatch ret)
    (htr : s.ep.SendsOnly) (htime : PostedInTime .recv s) : RecvInv (step bld .recv s) := by
  have hph := h.phase
  simp only [Phase, hpc] at hph
  simp only [Ep.SendsOnly, hpc] at htr
  simp only [PostedInTime, Ep.handlesSend, hpc] at htime
  -- a message that is no send was given no buffer
  have hother : RdmaOpcode.isSend s.ep.opcode ≠ true → Settled s := by
    intro hn
    rcases hph with hset | hgiven
    · exact hset
    · exact absurd (htr.mpr hgiven.onSendQ) hn
  have hhist := History.recv_receives bld s.hist hpc
  have hsend : ∀ wce, (s.ep.dispatch bld ret).recvPc = .enqRecv wce → s.hist.recv bld s.ep =
      { s.hist with dequeued := s.hist.dequeued ++ s.ep.rq.take 1 } := by
    intro wce hn
    simp only [History.recv, hpc, hn]
  have hstep : step bld .recv s = { s with
      ep := s.ep.dispatch bld ret
      hist := s.hist.recv bld s.ep } := by
    simp only [step, rnicRecvStep, hpc]
  rw [hstep]
  have hd := dispatch_cases bld s.ep ret
  generalize s.hist.recv bld s.ep = hist at hhist hsend
  generalize s.ep.dispatch bld ret = e at hd hhist hsend
  cases hd with
  | request hop =>
    have hne : ∀ wce, (s.ep.fillResp bld).recvPc ≠ .enqRecv wce := by simp [Ep.fillResp]
    exact h.frame_settled (hother (by simp [hop, RdmaOpcode.isSend])) (by simp [hpc]) hne rfl rfl (hhist hne)
  | response hop =>
    have hset := hother (by simp [hop, RdmaOpcode.isSend])
    obtain ⟨-, heq⟩ | ⟨wce, pending, -, heq⟩ := takePending_cases s.ep ret
    all_goals
      rw [heq] at hhist ⊢
      exact h.frame_settled hset (by simp [hpc]) (by simp) rfl rfl (hhist (by simp))
  | @send op tags hop hs =>
    have hiff := htime (RdmaOpcode.isSend_iff.mpr ⟨op, hop, hs⟩)
    obtain ⟨hrq, heq⟩ | ⟨wr, rq, hrq, heq⟩ := takeRecv_cases (s.ep.withTags tags) ret op
    · change s.ep.rq = [] at hrq
      rw [heq] at hhist ⊢
      have hset : Settled s := by
        rcases hph with hset | hgiven
        · exact hset
        · have hlt : s.hist.recvDone.length < s.hist.taken.length := by rw [hgiven.count]; omega
          exact absurd hrq (hiff.mpr hlt)
      exact h.frame_settled hset (by simp [hpc]) (by simp) rfl rfl (hhist (by simp))
    · change s.ep.rq = wr :: rq at hrq
      rw [heq] at hsend ⊢
      have hgiven : Given s := by
        rcases hph with hset | hgiven
        · have hlt := hiff.mp (by simp [hrq])
          rw [hset] at hlt
          omega
        · exact hgiven
      exact recvInv_complete h hpc hgiven hrq rfl rfl rfl rfl rfl (by rw [hsend _ rfl, hrq]; rfl)
  | @ended tags con pc hend =>
    cases hend with
    | idle hn =>
      have hset : Settled s := hother fun hs => by
        obtain ⟨o, ho, hsend⟩ := RdmaOpcode.isSend_iff.mp hs
        exact (hn o ho).1 hsend
      exact h.frame_settled hset (by simp [hpc]) (by simp) rfl rfl (hhist (by simp))
    | exited ret =>
      obtain ⟨h1, h2, h3, h4⟩ := hhist (by simp)
      exact h.frame ⟨rfl, rfl, rfl, h1, h2, h3, h4⟩
        (by rw [Ep.completing_of_ne (by simp), Ep.completing_of_ne (by simp [hpc])]) trivial
    | aborted =>
      obtain ⟨h1, h2, h3, h4⟩ := hhist (by simp)
      exact h.frame ⟨rfl, rfl, rfl, h1, h2, h3, h4⟩
        (by rw [Ep.completing_of_ne (by simp), Ep.completing_of_ne (by simp [hpc])]) trivial

/-- The completion is enqueued. -/
theorem recvInv_enqRecv {wce : WorkCompletion} (h : RecvInv s) (hpc : s.ep.recvPc = .enqRecv wce) :
    RecvInv (step bld .recv s) := by
  have hstep : step bld .recv s =
      { s with
        ep := { s.ep.enqCq wce with recvPc := .idle }
        hist := { s.hist with recvDone := s.hist.recvDone ++ [wce] } } := by
    simp only [step, rnicRecvStep, History.recv, hpc]
  have hph := h.phase
  have hdeq := h.dequeued
  simp only [Phase, hpc] at hph
  simp only [Ep.completing, hpc] at hdeq
  rw [hstep]
  exact
    { buffers := h.buffers
      posted := h.posted
      dequeued := by simpa [Ep.completing] using hdeq
      phase := by simpa [Phase, Settled] using hph.count }

/-- A step of `rnic_recv`. -/
theorem recvInv_recv (h : RecvInv s) (htr : s.ep.SendsOnly) (htime : PostedInTime .recv s) :
    RecvInv (step bld .recv s) := by
  have hph := h.phase
  have hsame : ∀ ep : Ep, (ep.ddp.queues 0).q = (s.ep.ddp.queues 0).q → ep.rq = s.ep.rq →
      SameRecvs s { s with ep := ep } := fun _ hq hrq => ⟨hq, hrq, rfl, rfl, rfl, rfl, rfl⟩
  cases hpc : s.ep.recvPc with
  | idle => exact recvInv_idle h hpc
  | payload c => exact recvInv_payload h hpc
  | dispatch ret => exact recvInv_dispatch h hpc htr htime
  | enqResp =>
    simp only [Phase, hpc] at hph
    simp only [step, rnicRecvStep, History.recv, hpc]
    exact h.frame_settled hph (by simp [hpc]) (by simp) rfl rfl ⟨rfl, rfl, rfl, rfl⟩
  | repost =>
    simp only [Phase, hpc] at hph
    simp only [step, rnicRecvStep, History.recv, hpc]
    exact h.frame_settled hph (by simp [hpc]) (by simp) rfl rfl ⟨rfl, rfl, rfl, rfl⟩
  | enqRead wce =>
    simp only [Phase, hpc] at hph
    simp only [step, rnicRecvStep, History.recv, hpc]
    exact h.frame_settled hph (by simp [hpc]) (by simp) rfl rfl ⟨rfl, rfl, rfl, rfl⟩
  | enqRecv wce => exact recvInv_enqRecv h hpc
  | stuck =>
    simp only [step, rnicRecvStep, History.recv, hpc]
    exact h.frame_other (hsame _ rfl rfl) rfl rfl
  | exited ret =>
    simp only [step, rnicRecvStep, History.recv, hpc]
    exact h.frame_other (hsame _ rfl rfl) rfl rfl
  | aborted =>
    simp only [step, rnicRecvStep, History.recv, hpc]
    exact h.frame_other (hsame _ rfl rfl) rfl rfl

/-! ## `rnic_send` and the application -/

theorem rnicSendStep_keeps (junk : DdpUntaggedMeta) (st : Statics) (ep : Ep) :
    let ep' := (rnicSendStep junk st ep).2
    ep'.ddp.queues = ep.ddp.queues ∧ ep'.rq = ep.rq ∧ ep'.recvPc = ep.recvPc ∧ ep'.msg = ep.msg := by
  unfold rnicSendStep
  split
  · split
    · split <;> exact ⟨rfl, rfl, rfl, rfl⟩
    · exact ⟨rfl, rfl, rfl, rfl⟩
  · exact ⟨rfl, rfl, rfl, rfl⟩
  · simp only [Ep.complete]
    split <;> exact ⟨rfl, rfl, rfl, rfl⟩
  · exact ⟨rfl, rfl, rfl, rfl⟩

theorem History.send_receives (h : History) (junk : DdpUntaggedMeta) (st : Statics) (ep : Ep) :
    let h' := h.send junk st ep
    h'.posted = h.posted ∧ h'.taken = h.taken ∧ h'.dequeued = h.dequeued ∧
      h'.recvDone = h.recvDone := by
  unfold History.send
  split
  · simp only
    split
    · exact ⟨rfl, rfl, rfl, rfl⟩
    · split <;> exact ⟨rfl, rfl, rfl, rfl⟩
    · exact ⟨rfl, rfl, rfl, rfl⟩
  · exact ⟨rfl, rfl, rfl, rfl⟩

/-- The buffer is on queue 0, the work request is still to come. -/
theorem recvInv_postBuffers {wr : RecvWr} (h : RecvInv s) :
    RecvInv (step bld (.postBuffers wr) s) := by
  cases hpost : s.posting with
  | some w =>
    simp only [step, hpost]
    exact h
  | none =>
    simp only [step, hpost]
    have hq : ((postRecvBuffers s.ep wr).ddp.queues 0).q = (s.ep.ddp.queues 0).q ++ wr.buffers := rfl
    have hposted := h.posted
    rw [hpost] at hposted
    exact
      { buffers := by
          rw [hq, List.flatMap_append, h.buffers, List.append_assoc]
          simp
        posted := by simp [hposted, postRecvBuffers]
        dequeued := h.dequeued
        phase := h.phase.same rfl rfl rfl rfl }

/-- The invariant is kept by every step in which a send finds a work request
    exactly if it was given a buffer. -/
theorem recvInv_step (l : Label) (h : RecvInv s) (htr : l = .recv → s.ep.SendsOnly)
    (htime : PostedInTime l s) : RecvInv (step bld l s) := by
  cases l with
  | recv => exact recvInv_recv h (htr rfl) htime
  | send junk =>
    obtain ⟨hq, hrq, hpc, hmsg⟩ := rnicSendStep_keeps junk s.st s.ep
    obtain ⟨h1, h2, h3, h4⟩ := History.send_receives s.hist junk s.st s.ep
    exact h.frame_other ⟨congrArg (fun q => (q 0).q) hq, hrq, rfl, h1, h2, h3, h4⟩ hpc hmsg
  | post wr => exact h.frame_other ⟨rfl, rfl, rfl, rfl, rfl, rfl, rfl⟩ rfl rfl
  | postBuffers wr => exact recvInv_postBuffers h
  | postWr =>
    cases hpost : s.posting with
    | none =>
      simp only [step, hpost]
      exact h
    | some wr =>
      have hposted := h.posted
      rw [hpost] at hposted
      simp only [step, hpost]
      exact ⟨h.buffers, by simpa [postRecvWr] using hposted, h.dequeued,
        h.phase.same rfl rfl rfl rfl⟩
  | register buf => exact h.frame_other ⟨rfl, rfl, rfl, rfl, rfl, rfl, rfl⟩ rfl rfl
  | invalidate tag => exact h.frame_other ⟨rfl, rfl, rfl, rfl, rfl, rfl, rfl⟩ rfl rfl
  | store ws => exact h.frame_other ⟨rfl, rfl, rfl, rfl, rfl, rfl, rfl⟩ rfl rfl

/-- What holds of every receive posted. -/
theorem posted_step {P : RecvWr → Prop} (l : Label) (h : ∀ wr ∈ s.hist.posted, P wr)
    (hpost : ∀ wr, l = .postBuffers wr → P wr) : ∀ wr ∈ (step bld l s).hist.posted, P wr := by
  cases l with
  | recv =>
    have hkeep : (s.hist.recv bld s.ep).posted = s.hist.posted := History.recv_posted bld s.ep s.hist
    simpa only [step, hkeep] using h
  | send junk =>
    have hkeep := (History.send_receives s.hist junk s.st s.ep).1
    simpa only [step, hkeep] using h
  | postBuffers wr =>
    simp only [step]
    split
    · intro w hw
      rcases List.mem_append.mp hw with hw | hw
      · exact h w hw
      · rw [List.mem_singleton.mp hw]
        exact hpost wr rfl
    · exact h
  | postWr =>
    simp only [step]
    split <;> exact h
  | post wr => exact h
  | register buf => exact h
  | invalidate tag => exact h
  | store ws => exact h

end

/-! ## Runs -/

/-- The sends that were given a buffer hold the buffers of the first receives
    posted; each completes the receive whose buffer holds it, and between two
    messages there is one completion for each. -/
structure RecvsMatched (s : Sys) : Prop where
  taken : s.hist.taken = (s.hist.posted.take s.hist.taken.length).flatMap RecvWr.buffers
  own : ∀ wce, s.ep.recvPc = .enqRecv wce → ∃ wr, s.hist.posted[s.hist.recvDone.length]? = some wr ∧
    wce.wrId = wr.wrId ∧ wr.buffers = [s.ep.msg.buf.untagBuf]
  between : s.ep.recvPc = .idle → s.hist.taken.length = s.hist.recvDone.length ∧
    s.hist.recvDone.map WorkCompletion.wrId =
      (s.hist.posted.take s.hist.taken.length).map RecvWr.wrId

theorem recvInv_newStream {s : Sys} (h : NewStream s) : RecvInv s := by
  have hc : s.ep.completing = [] := Ep.completing_of_ne (by simp [h.recvPc])
  exact
    { buffers := by simp [h.hist, h.buffers]
      posted := by simp [h.hist, h.rq, h.posting]
      dequeued := by simp [h.hist, hc]
      phase := by simp [Phase, h.recvPc, Settled, h.hist] }

def RecvWr.buffer (wr : RecvWr) : UntaggedBuffer := wr.buffers.headD ⟨0, 0⟩

theorem RecvWr.buffers_eq {wr : RecvWr} (h : wr.sgList.length = 1) : wr.buffers = [wr.buffer] := by
  obtain ⟨sg, hsg⟩ := List.length_eq_one_iff.mp h
  simp [RecvWr.buffer, RecvWr.buffers, hsg]

/-- One buffer for each receive. -/
theorem flatMap_buffers {wrs : List RecvWr} (h : ∀ wr ∈ wrs, wr.sgList.length = 1) :
    wrs.flatMap RecvWr.buffers = wrs.map RecvWr.buffer := by
  rw [← List.flatMap_pure_eq_map]
  exact List.flatMap_congr fun wr hwr => RecvWr.buffers_eq (h wr hwr)

/-- In every run in which a send finds a work request exactly if it was given a
    buffer, every send that was given one completes the receive whose buffer
    holds it, once. -/
theorem recvs_matched {bld : Build} {s : Sys}
    (h : Reach (step bld) (fun l s => SendTraffic l s ∧ PostedInTime l s) NewStream s) :
    RecvsMatched s := by
  obtain ⟨hinv, hsingle⟩ : RecvInv s ∧ ∀ wr ∈ s.hist.posted, wr.sgList.length = 1 := by
    refine Reach.invariant (I := fun s => RecvInv s ∧ ∀ wr ∈ s.hist.posted, wr.sgList.length = 1)
      (fun s hs => ⟨recvInv_newStream hs, by simp [hs.hist]⟩) ?_ h
    rintro l s ⟨hs, hone⟩ ⟨htr, htime⟩
    refine ⟨recvInv_step l hs ?_ htime, posted_step l hone ?_⟩
    · rintro rfl
      exact htr
    · rintro wr rfl
      exact htr
  have hbuf : s.hist.posted.map RecvWr.buffer = s.hist.taken ++ (s.ep.ddp.queues 0).q := by
    rw [← flatMap_buffers hsingle, hinv.buffers]
  have htaken : s.hist.taken = (s.hist.posted.take s.hist.taken.length).flatMap RecvWr.buffers := by
    rw [flatMap_buffers fun wr hwr => hsingle wr (List.mem_of_mem_take hwr), List.map_take, hbuf,
      List.take_left]
  have hids : s.hist.posted.map RecvWr.wrId =
      (s.hist.recvDone ++ s.ep.completing).map WorkCompletion.wrId ++
        (s.ep.rq ++ s.posting.toList).map RecvWr.wrId := by
    rw [hinv.posted, List.map_append, hinv.dequeued]
  refine ⟨htaken, fun wce hpc => ?_, fun hpc => ?_⟩
  · have hgiven : Given s := by
      have hph := hinv.phase
      simp only [Phase, hpc] at hph
      exact hph
    have hc : s.ep.completing = [wce] := by simp only [Ep.completing, hpc]
    rw [hc] at hids
    -- the completion in hand is that of receive number `recvDone.length`
    have hid := congrArg (fun l => l[s.hist.recvDone.length]?) hids
    simp only [List.map_append, List.map_cons, List.map_nil, List.append_assoc] at hid
    rw [List.getElem?_append_right (by simp)] at hid
    simp only [List.length_map, Nat.sub_self, List.singleton_append, List.getElem?_cons_zero,
      List.getElem?_map, Option.map_eq_some_iff] at hid
    obtain ⟨wr, hwr, hwrid⟩ := hid
    refine ⟨wr, hwr, hwrid.symm, ?_⟩
    -- and the buffer in hand is the one with this number
    have hlast := hgiven.last
    rw [List.getLast?_eq_getElem?, hgiven.count, Nat.add_sub_cancel] at hlast
    have hat := congrArg (fun l => l[s.hist.recvDone.length]?) hbuf
    simp only [List.getElem?_map, hwr, Option.map_some] at hat
    rw [List.getElem?_append_left (by rw [hgiven.count]; omega), hlast] at hat
    rw [RecvWr.buffers_eq (hsingle wr (List.mem_of_getElem? hwr)), Option.some_inj.mp hat]
  · have hset : Settled s := by
      have hph := hinv.phase
      simp only [Phase, hpc] at hph
      exact hph
    refine ⟨hset, ?_⟩
    have hc : s.ep.completing = [] := Ep.completing_of_ne (by simp [hpc])
    rw [hc, List.append_nil] at hids
    rw [List.map_take, hids, hset]
    exact (List.take_left' (List.length_map _)).symm

/-! ## One send -/

/-- A send message with one byte. -/
def sendMsg (msn : UInt32) (b : UInt8) : List UInt8 :=
  fpdu [[0x41], DdpUntaggedMeta.bytes ⟨rdmaHdr .send, 0, htonl sendQn, htonl msn, 0⟩, [b]]

/-- A receive of one byte at `0x3000`. -/
def oneRecv : RecvWr := ⟨42, [⟨0x3000, 1, 0⟩]⟩

/-- The send comes while the receive is being posted and is handled after it. -/
theorem recvs_matched_one :
    let s := run (step ⟨false, false⟩)
      ([.postBuffers oneRecv] ++ List.replicate 2 .recv ++ [.postWr] ++ List.replicate 2 .recv)
      (newSys (sendMsg 1 9))
    s.ep.cq.map WorkCompletion.wrId = [42] ∧ s.ep.mem.read 0x3000 1 = [9] ∧ RecvsMatched s := by
  intro s
  have hreach : Reach (step ⟨false, false⟩) (fun l s => SendTraffic l s ∧ PostedInTime l s)
      NewStream s := Reach.run _ (.start (newStream_newSys _)) (by decide +kernel)
  exact ⟨by decide +kernel, by decide +kernel, recvs_matched hreach⟩

/-- The send is handled between the two operations of `rdma_post_recv`: it is
    never completed. -/
theorem recvs_matched_lost :
    let s := run (step ⟨false, false⟩)
      ([.postBuffers oneRecv] ++ List.replicate 3 .recv ++ [.postWr]) (newSys (sendMsg 1 9))
    Reach (step ⟨false, false⟩) SendTraffic NewStream s ∧
      s.hist.posted = [oneRecv] ∧ s.hist.taken = [⟨0x3000, 1⟩] ∧ s.ep.mem.read 0x3000 1 = [9] ∧
      s.ep.cq = [] ∧ ¬RecvsMatched s := by
  intro s
  have hpc : s.ep.recvPc = .idle := rfl
  have hlen : s.hist.taken.length ≠ s.hist.recvDone.length := by decide +kernel
  exact ⟨Reach.run _ (.start (newStream_newSys _)) (by decide +kernel), by decide +kernel,
    by decide +kernel, by decide +kernel, by decide +kernel, fun h => hlen (h.between hpc).1⟩

end SoftUiWarp
