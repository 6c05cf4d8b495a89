import SoftUiWarp.Rdmap.LinkReceives
import SoftUiWarp.Rdmap.SendQueue

/-!
# Sends for which a receive is posted

A Send that finds no buffer or no work request is lost to the application. Here
a host posts a Send only if its peer has called `rdma_post_recv` for it before:
no more Sends than receives. Then none is lost, however the threads, the
applications and TCP take their steps: when a header is read the buffer is on
queue 0, and when the message is handled its work request is on the receive
queue.

Results:
* `sending_step`: the Sends transmitted and queued are those posted.
* `matched_recv`: a step of `rnic_recv` when the Send in hand has a receive.
* `Flow.step`: the invariant of a direction.
* `Flow.completes`, `Flow.completes_all`: what it says of the receives completed.
* `sends_find_receives`: in every run in which no more Sends are posted than
  receives, the receives completed hold the Sends, the first the first and so on.
-/

namespace SoftUiWarp

open Runs

/-! ## What is posted -/

def SendWr.isSend (wr : SendWr) : Bool := RdmaOpcode.isSend (some wr.opcode)

/-- The Sends that the application has posted. -/
def Sys.sendsPosted (s : Sys) : ℕ := s.hist.reqs.countP SendWr.isSend

/-- The calls of `rdma_post_recv` that are over. -/
def Sys.recvsPosted (s : Sys) : ℕ := s.hist.posted.length - s.posting.toList.length

/-- A Send is posted only if the peer has posted more receives than there are
    Sends. -/
def InCredit (r : Role) : LinkLabel → Link → Prop
  | .act q (.post wr), w =>
    q = r → wr.isSend = true → (w.host r).sendsPosted < (w.host r.peer).recvsPosted
  | _, _ => True

instance (r : Role) : ∀ (l : LinkLabel) (w : Link), Decidable (InCredit r l w)
  | .act q (.post wr), w => inferInstanceAs (Decidable (q = r → wr.isSend = true →
      (w.host r).sendsPosted < (w.host r.peer).recvsPosted))
  | .act _ .recv, _ | .act _ (.send _), _ | .act _ (.postBuffers _), _ | .act _ .postWr, _
  | .act _ (.register _), _ | .act _ (.invalidate _), _ | .act _ (.store _), _
  | .deliver _ _, _ => isTrue trivial

/-- The receives have one sge. -/
def PostsSingle : Label → Sys → Prop
  | .postBuffers wr, _ => wr.sgList.length = 1
  | _, _ => True

instance : ∀ (l : Label) (s : Sys), Decidable (PostsSingle l s)
  | .postBuffers wr, _ => inferInstanceAs (Decidable (wr.sgList.length = 1))
  | .recv, _ | .send _, _ | .post _, _ | .postWr, _ | .register _, _ | .invalidate _, _
  | .store _, _ => isTrue trivial

section

variable {bld : Build} {s : Sys} {ts : List Tx} {rxs : List Rx}

/-- The threads post nothing for the application. -/
theorem History.recv_reqs (bld : Build) (ep : Ep) (h : History) : (h.recv bld ep).reqs = h.reqs := by
  unfold History.recv
  split
  · split <;> rfl
  · split
    · rfl
    · rfl
    · split <;> rfl
  all_goals rfl

theorem History.send_reqs (h : History) (junk : DdpUntaggedMeta) (st : Statics) (ep : Ep) :
    (h.send junk st ep).reqs = h.reqs := by
  unfold History.send
  split
  · simp only
    split
    · rfl
    · split <;> rfl
    · rfl
  · rfl

theorem recvsPosted_step (bld : Build) (l : Label) (s : Sys) :
    s.recvsPosted ≤ (step bld l s).recvsPosted := by
  have same {s' : Sys} (hposted : s'.hist.posted = s.hist.posted) (hposting : s'.posting = s.posting) :
      s.recvsPosted ≤ s'.recvsPosted := by
    rw [Sys.recvsPosted, Sys.recvsPosted, hposted, hposting]
  cases l with
  | recv => exact same (History.recv_posted bld s.ep s.hist) rfl
  | send junk => exact same (History.send_receives s.hist junk s.st s.ep).1 rfl
  | postBuffers wr =>
    cases hpost : s.posting with
    | none => simp [step, Sys.recvsPosted, hpost]
    | some w => simp [step, hpost]
  | postWr =>
    cases hpost : s.posting with
    | none => simp [step, hpost]
    | some w => simp [step, Sys.recvsPosted, hpost]
  | _ => exact same rfl rfl

theorem sendsPosted_step (bld : Build) (l : Label) (s : Sys) :
    (step bld l s).sendsPosted = s.sendsPosted +
      match l with
      | .post wr => if wr.isSend then 1 else 0
      | _ => 0 := by
  have same {s' : Sys} (hreqs : s'.hist.reqs = s.hist.reqs) : s'.sendsPosted = s.sendsPosted + 0 := by
    rw [Sys.sendsPosted, Sys.sendsPosted, hreqs, Nat.add_zero]
  cases l with
  | recv => exact same (History.recv_reqs bld s.ep s.hist)
  | send junk => exact same (History.send_reqs s.hist junk s.st s.ep)
  | post wr => simp [step, Sys.sendsPosted, List.countP_append]
  | postBuffers wr =>
    refine same ?_
    simp only [step]
    split <;> rfl
  | postWr =>
    refine same ?_
    simp only [step]
    split <;> rfl
  | _ => exact same rfl

/-! ## The sender -/

/-- The response to a read request is never turned into a Send. -/
theorem readResp_opcode_step (bld : Build) (l : Label) (s : Sys) :
    (step bld l s).ep.readResp.opcode = s.ep.readResp.opcode := by
  by_cases hsend : ∃ junk, l = .send junk
  · obtain ⟨junk, rfl⟩ := hsend
    have hturn := step_sendTurn bld junk s
    generalize txOf (.send junk) s = new at hturn
    generalize step bld (.send junk) s = s' at hturn ⊢
    cases hturn with
    | @completes req ret hpc =>
      show (s.ep.complete req ret).readResp.opcode = _
      unfold Ep.complete
      split <;> rfl
    | _ => rfl
  by_cases hrecv : l = .recv
  · subst hrecv
    have hturn := step_recvTurn bld s
    generalize rxOf .recv s = new at hturn
    generalize step bld .recv s = s' at hturn ⊢
    cases hturn with
    | @dispatches ret hpc =>
      have hd := dispatch_cases bld s.ep ret
      show (s.ep.dispatch bld ret).readResp.opcode = _
      generalize s.ep.dispatch bld ret = ep at hd ⊢
      cases hd with
      | request =>
        obtain ⟨f, mem, -, heq⟩ := fillResp_eq bld s.ep
        rw [heq]
      | response =>
        obtain ⟨-, heq⟩ | ⟨wce, pending, -, heq⟩ := takePending_cases s.ep ret
        · rw [heq]
        · rw [heq]
      | @send op tags =>
        obtain ⟨-, heq⟩ | ⟨wr, rq, -, heq⟩ := takeRecv_cases (s.ep.withTags tags) ret op
        · rw [heq]
          rfl
        · rw [heq]
          rfl
      | ended => rfl
    | _ => rfl
  obtain ⟨-, mem, sq, rq, queues, tags, heq, -⟩ :=
    step_call bld hrecv (fun junk h => hsend ⟨junk, h⟩) s
  rw [heq]

/-- The Sends transmitted and those that wait have been posted. -/
structure Sending (ts : List Tx) (s : Sys) : Prop where
  opcode : s.ep.readResp.opcode = .rdmaReadResp
  count : (sendsOf ts).length + s.ep.queued.countP SendWr.isSend ≤ s.sendsPosted

theorem sendsOf_append (ts us : List Tx) : sendsOf (ts ++ us) = sendsOf ts ++ sendsOf us :=
  List.filter_append ts us

theorem length_sendsOf_le (l : Label) (s : Sys) :
    (sendsOf (msgOf l s)).length ≤ ((txOf l s).map Tx.req).countP SendWr.isSend := by
  rw [List.countP_map, List.countP_eq_length_filter]
  exact (List.filter_sublist.filter _).length_le

theorem sending_step (bld : Build) (l : Label) (h : Sending ts s) :
    Sending (ts ++ msgOf l s) (step bld l s) := by
  refine ⟨(readResp_opcode_step bld l s).trans h.opcode, ?_⟩
  have hqueued := congrArg (List.countP SendWr.isSend) (step_queued bld l s)
  rw [List.countP_append, List.countP_append] at hqueued
  have hby : (queuedBy l s).countP SendWr.isSend + s.sendsPosted ≤ (step bld l s).sendsPosted := by
    rw [sendsPosted_step]
    cases l with
    | post wr =>
      rw [queuedBy, List.countP_singleton, Nat.add_comm]
    | recv =>
      have hnone : s.ep.filled.countP SendWr.isSend = 0 := by
        unfold Ep.filled
        split
        · simp [SendWr.isSend, h.opcode, RdmaOpcode.isSend]
        · rfl
      rw [queuedBy, hnone, Nat.zero_add, Nat.add_zero]
    | _ => exact (Nat.zero_add _).le
  have hcount := h.count
  have hle := length_sendsOf_le l s
  rw [sendsOf_append, List.length_append]
  omega

theorem NewStream.sending (h : NewStream s) : Sending [] s := by
  refine ⟨h.opcode, ?_⟩
  simp [sendsOf, Ep.queued, h.sendPc, h.sq, SendPc.held]

/-! ## The receiver -/

/-- The receives dequeued hold the first Sends that were received. As long as
    `rnic_recv` goes on these are all that it has handled, and a Send that it
    handles next was given a buffer. -/
structure Matched (rxs : List Rx) (s : Sys) : Prop extends Received rxs s where
  held : List.Forall₂ RecvWr.Holds s.hist.dequeued
    ((rxSends (s.ep.past rxs)).take s.hist.dequeued.length)
  count : ¬s.ep.recvPc.Stopped → s.hist.dequeued.length = (rxSends (s.ep.past rxs)).length
  given : ∀ ret, s.ep.recvPc = .dispatch ret → RdmaOpcode.isSend s.ep.opcode = true → Given s

theorem RecvInv.recvsPosted_eq (h : RecvInv s) :
    s.recvsPosted = s.hist.dequeued.length + s.ep.rq.length := by
  have hlen := congrArg List.length h.posted
  rw [List.length_append, List.length_append] at hlen
  rw [Sys.recvsPosted]
  omega

theorem stopped_recv (bld : Build) (h : s.ep.recvPc.Stopped) :
    (step bld .recv s).ep.recvPc.Stopped := by
  show (rnicRecvStep bld s.ep).recvPc.Stopped
  cases hpc : s.ep.recvPc with
  | stuck | exited ret | aborted =>
    simp only [rnicRecvStep, hpc]
    trivial
  | _ =>
    rw [hpc] at h
    exact h.elim

/-- A Send for which there is a work request is handled, or the thread is over. -/
theorem handled_send (bld : Build) {ret : ℤ} (hpc : s.ep.recvPc = .dispatch ret)
    (hs : RdmaOpcode.isSend s.ep.opcode = true) {wr : RecvWr} {rq : List RecvWr}
    (hrq : s.ep.rq = wr :: rq) :
    ((s.ep.dispatch bld ret).recvPc.Stopped ∧
        (s.hist.recv bld s.ep).dequeued = s.hist.dequeued) ∨
      (s.hist.recv bld s.ep).dequeued = s.hist.dequeued ++ [wr] := by
  have hsw : (s.ep.dispatch bld ret).recvPc.Stopped ∨
      ∃ wce, (s.ep.dispatch bld ret).recvPc = .enqRecv wce := by
    have hd := dispatch_cases bld s.ep ret
    generalize s.ep.dispatch bld ret = ep at hd ⊢
    cases hd with
    | request h =>
      rw [h] at hs
      cases hs
    | response h =>
      rw [h] at hs
      cases hs
    | @send op tags =>
      obtain ⟨hnil, -⟩ | ⟨w, ws, -, heq⟩ := takeRecv_cases (s.ep.withTags tags) ret op
      · have hrq' : s.ep.rq = [] := hnil
        rw [hrq] at hrq'
        cases hrq'
      · rw [heq]
        exact .inr ⟨_, rfl⟩
    | ended tags con hend =>
      cases hend with
      | idle h =>
        obtain ⟨o, ho, hsend⟩ := RdmaOpcode.isSend_iff.mp hs
        exact absurd hsend (h o ho).1
      | exited => exact .inl trivial
      | aborted => exact .inl trivial
  rcases hsw with hstop | ⟨wce, hwce⟩
  · refine .inl ⟨hstop, (History.recv_receives bld s.hist hpc fun wce hwce => ?_).2.2.1⟩
    rw [hwce] at hstop
    exact hstop
  · right
    simp only [History.recv, hpc, hwce, hrq]
    rfl

/-- One message is received at a time; it is on queue 0 if the one in hand was. -/
theorem mem_rxOf {rx : Rx} (h : rx ∈ rxOf .recv s) :
    (∃ c, s.ep.recvPc = .payload c) ∧ rxOf .recv s = [rx] ∧
      (rx.out.msg.OnSendQ ↔ s.ep.msg.OnSendQ) := by
  cases hpc : s.ep.recvPc with
  | payload c =>
    simp only [rxOf, hpc] at h ⊢
    split at h
    · obtain rfl := List.mem_singleton.mp h
      obtain ⟨-, -, hhdr, -, hqn⟩ := ddpRecvPayload_keeps s.ep.ddp s.ep.mem s.ep.msg c
      refine ⟨⟨c, rfl⟩, if_pos ‹_›, ?_⟩
      simp only [DdpMessage.OnSendQ, hhdr, hqn]
    · cases h
  | _ =>
    simp only [rxOf, hpc] at h
    cases h

/-- The switch handles a Send for which there is a work request. -/
theorem matched_dispatch (h : Matched rxs s) {ret : ℤ} (hpc : s.ep.recvPc = .dispatch ret)
    (hrq : RdmaOpcode.isSend s.ep.opcode = true → s.ep.rq ≠ [])
    (hrec : Received rxs { s with ep := s.ep.dispatch bld ret, hist := s.hist.recv bld s.ep }) :
    Matched rxs { s with ep := s.ep.dispatch bld ret, hist := s.hist.recv bld s.ep } := by
  obtain ⟨pre, rx, heq, hmsg⟩ := h.last ret hpc
  have hne : ∀ ret', (s.ep.dispatch bld ret).recvPc ≠ .dispatch ret' := by
    intro ret' hd
    have hsw := dispatch_switchesTo bld s.ep ret
    rw [hd] at hsw
    cases hsw with
    | free h => exact h
  have hpast : s.ep.past rxs = pre := by simp only [Ep.past, hpc, heq, List.dropLast_concat]
  have hlen : s.hist.dequeued.length = (rxSends pre).length := by
    rw [← hpast]
    exact h.count (by rw [hpc]; exact id)
  have hheld := h.held
  rw [hpast, hlen, List.take_length] at hheld
  have hop : rx.opcode = s.ep.opcode := by rw [Rx.opcode, hmsg, Ep.opcode]
  have next (hdeq : (s.hist.recv bld s.ep).dequeued.length = (rxSends rxs).length ∨
        (s.ep.dispatch bld ret).recvPc.Stopped)
      (hforall : List.Forall₂ RecvWr.Holds (s.hist.recv bld s.ep).dequeued
        ((rxSends rxs).take (s.hist.recv bld s.ep).dequeued.length)) :
      Matched rxs { s with ep := s.ep.dispatch bld ret, hist := s.hist.recv bld s.ep } := by
    refine ⟨hrec, ?_, fun hs => ?_, fun ret' hd => absurd hd (hne ret')⟩
    · rw [Ep.past_of_ne hne]
      exact hforall
    · rw [Ep.past_of_ne hne]
      exact hdeq.resolve_right hs
  have hsplit : rxSends rxs = rxSends pre ++ if RdmaOpcode.isSend s.ep.opcode then [rx] else [] := by
    rw [heq, rxSends, List.filter_append, List.filter_singleton, hop, cond_eq_ite]
    rfl
  by_cases hs : RdmaOpcode.isSend s.ep.opcode = true
  · rw [if_pos hs] at hsplit
    cases hwr : s.ep.rq with
    | nil => exact absurd hwr (hrq hs)
    | cons wr rq =>
      rcases handled_send bld hpc hs hwr with ⟨hstop', hdeq⟩ | hdeq
      · refine next (.inr hstop') ?_
        rw [hdeq, hsplit, hlen, List.take_left]
        exact hheld
      · have hbuf : wr.buffers = [s.ep.msg.buf.untagBuf] := by
          have hcount' := (h.given ret hpc hs).count
          exact h.inv.buffer_eq h.single hpc (by omega) hwr
        refine next (.inl ?_) ?_
        · rw [hdeq, hsplit, List.length_append, List.length_append, hlen]
          rfl
        · rw [hdeq, hsplit, List.take_of_length_le (by simp [hlen])]
          refine List.rel_append hheld (.cons ?_ .nil)
          rw [RecvWr.Holds, hmsg]
          exact hbuf
  · rw [if_neg hs, List.append_nil] at hsplit
    have hdeq : (s.hist.recv bld s.ep).dequeued = s.hist.dequeued := by
      rcases dequeued_dispatch bld hpc with hdeq | ⟨-, -, -, hs', -⟩
      · exact hdeq
      · exact absurd hs' hs
    refine next (.inl ?_) ?_
    · rw [hdeq, hsplit, hlen]
    · rw [hdeq, hsplit, hlen, List.take_length]
      exact hheld

theorem matched_recv (h : Matched rxs s)
    (hrxs : ∀ rx ∈ rxs, RdmaOpcode.isSend rx.opcode = true ↔ rx.out.msg.OnSendQ)
    (hrq : s.ep.handlesSend = true → s.ep.rq ≠ [])
    (hnew : ∀ rx ∈ rxOf .recv s, RdmaOpcode.isSend rx.opcode = true → Given s) :
    Matched (rxs ++ rxOf .recv s) (step bld .recv s) := by
  have htime : PostedInTime .recv s := by
    intro hs
    refine iff_of_true (hrq hs) ?_
    cases hpc : s.ep.recvPc with
    | dispatch ret =>
      rw [Ep.handlesSend, hpc] at hs
      have hcount := (h.given ret hpc hs).count
      omega
    | _ =>
      rw [Ep.handlesSend, hpc] at hs
      cases hs
  have hrec : Received (rxs ++ rxOf .recv s) (step bld .recv s) :=
    received_recv h.toReceived hrxs htime
  have hstop : s.ep.recvPc.Stopped → (step bld .recv s).ep.recvPc.Stopped := stopped_recv bld
  have hturn := step_recvTurn bld s
  generalize rxOf .recv s = new at hturn hnew hrec ⊢
  generalize step bld .recv s = s' at hturn hrec hstop ⊢
  have hgo : ¬s'.ep.recvPc.Stopped → ¬s.ep.recvPc.Stopped := fun hgo hs => hgo (hstop hs)
  have hheld := h.held
  have hcount := h.count
  cases hturn with
  | reads hpc hpc' =>
    rw [hpc.past] at hheld hcount
    rw [List.append_nil] at hrec ⊢
    refine ⟨hrec, ?_, fun hs => ?_, fun ret hd => ?_⟩
    · rw [RecvPc.Free.past hpc']
      exact hheld
    · rw [RecvPc.Free.past hpc']
      exact hcount (hgo hs)
    · simp only at hd
      rw [hd] at hpc'
      exact hpc'.elim
  | @receives out hpc =>
    rw [hpc.past] at hheld hcount
    refine ⟨hrec, ?_, fun hs => ?_, fun ret _ hs => ?_⟩
    · simp only [Ep.past, List.dropLast_concat]
      exact hheld
    · simp only [Ep.past, List.dropLast_concat]
      exact hcount (hgo hs)
    · -- what was given to the message is still given to it
      have hgiven := hnew _ (List.mem_singleton_self _) hs
      have hphase := hrec.inv.phase
      rcases hphase with hset | hgiven'
      · have heq := hset.symm.trans hgiven.count
        simp at heq
      · exact hgiven'
  | dispatches hpc =>
    rw [List.append_nil] at hrec ⊢
    exact matched_dispatch h hpc (fun hs => hrq (by simpa only [Ep.handlesSend, hpc] using hs)) hrec
  | answers hpc =>
    rw [Ep.past_of_ne (by simp [hpc])] at hheld hcount
    rw [List.append_nil] at hrec ⊢
    exact ⟨hrec, hheld, fun hs => hcount (hgo hs), fun ret hd => by cases hd⟩
  | completesRead hpc =>
    rw [Ep.past_of_ne (by simp [hpc])] at hheld hcount
    rw [List.append_nil] at hrec ⊢
    exact ⟨hrec, hheld, fun hs => hcount (hgo hs), fun ret hd => by cases hd⟩
  | completesRecv hpc =>
    rw [Ep.past_of_ne (by simp [hpc])] at hheld hcount
    rw [List.append_nil] at hrec ⊢
    exact ⟨hrec, hheld, fun hs => hcount (hgo hs), fun ret hd => by cases hd⟩

/-- The other steps of a host leave the receives that are under way alone. -/
theorem step_recvs (bld : Build) {l : Label} (hl : l ≠ .recv) (s : Sys) :
    (step bld l s).hist.taken = s.hist.taken ∧ (step bld l s).hist.dequeued = s.hist.dequeued ∧
      (step bld l s).hist.recvDone = s.hist.recvDone := by
  cases l with
  | recv => exact absurd rfl hl
  | send junk =>
    obtain ⟨-, htaken, hdeq, hdone⟩ := s.hist.send_receives junk s.st s.ep
    exact ⟨htaken, hdeq, hdone⟩
  | postBuffers wr =>
    simp only [step]
    split <;> exact ⟨rfl, rfl, rfl⟩
  | postWr =>
    simp only [step]
    split <;> exact ⟨rfl, rfl, rfl⟩
  | _ => exact ⟨rfl, rfl, rfl⟩

theorem given_other {l : Label} (hl : l ≠ .recv) (h : Given s) : Given (step bld l s) := by
  obtain ⟨-, hmsg, -⟩ := step_other bld hl s
  obtain ⟨htaken, -, hdone⟩ := step_recvs bld hl s
  refine h.same htaken hdone ?_ (by rw [hmsg])
  rw [hmsg]
  exact h.onSendQ

theorem matched_other {l : Label} (hl : l ≠ .recv) (h : Matched rxs s)
    (hpost : ∀ wr, l = .postBuffers wr → wr.sgList.length = 1) : Matched rxs (step bld l s) := by
  obtain ⟨hpc, hmsg, -⟩ := step_other bld hl s
  obtain ⟨-, hdeq, -⟩ := step_recvs bld hl s
  have htime : PostedInTime l s := by
    cases l with
    | recv => exact absurd rfl hl
    | _ => trivial
  have hpast : (step bld l s).ep.past rxs = s.ep.past rxs := by simp only [Ep.past, hpc]
  refine ⟨received_other hl h.toReceived hpost htime, ?_, ?_, fun ret hd hs => ?_⟩
  · rw [hpast, hdeq]
    exact h.held
  · rw [hpast, hdeq, hpc]
    exact h.count
  · rw [hpc] at hd
    rw [Ep.opcode, hmsg] at hs
    exact given_other hl (h.given ret hd hs)

theorem Given.deliver (h : Given s) (bs : List UInt8) : Given (s.deliver bs) :=
  ⟨h.count, h.onSendQ, h.last⟩

theorem Matched.deliver (h : Matched rxs s) (bs : List UInt8) : Matched rxs (s.deliver bs) :=
  ⟨h.toReceived.deliver bs, h.held, h.count, fun ret hpc hs => (h.given ret hpc hs).deliver bs⟩

theorem NewStream.matched (h : NewStream s) : Matched [] s := by
  refine ⟨h.received, ?_, fun _ => ?_, fun ret hpc => ?_⟩
  · rw [h.hist]
    exact .nil
  · rw [h.hist, Ep.past_of_ne (by simp [h.recvPc])]
    rfl
  · rw [h.recvPc] at hpc
    cases hpc

/-! ### Room for a Send -/

/-- A Send at the switch finds a work request if there are as many receives as
    Sends. -/
theorem Matched.rq_ne_nil (h : Matched rxs s) (hroom : (rxSends rxs).length ≤ s.recvsPosted)
    (hs : s.ep.handlesSend = true) : s.ep.rq ≠ [] := by
  cases hpc : s.ep.recvPc with
  | dispatch ret =>
    rw [Ep.handlesSend, hpc] at hs
    obtain ⟨pre, rx, heq, hmsg⟩ := h.last ret hpc
    have hop : RdmaOpcode.isSend rx.opcode = true := by
      rw [Rx.opcode, hmsg]
      exact hs
    have hpast : s.ep.past rxs = pre := by simp only [Ep.past, hpc, heq, List.dropLast_concat]
    have hcount := h.count (by rw [hpc]; exact id)
    have hsends : (rxSends rxs).length = (rxSends pre).length + 1 := by
      rw [heq, rxSends, List.filter_append, List.filter_singleton, hop, List.length_append]
      rfl
    rw [h.inv.recvsPosted_eq] at hroom
    rw [hpast] at hcount
    intro hnil
    rw [hnil, List.length_nil] at hroom
    omega
  | _ =>
    rw [Ep.handlesSend, hpc] at hs
    cases hs

/-- Between two messages a buffer is left if there are more receives than Sends
    have been received. -/
theorem Matched.taken_lt (h : Matched rxs s) (hroom : (rxSends rxs).length < s.recvsPosted)
    (hpc : s.ep.recvPc = .idle) :
    s.hist.taken.length < (s.hist.posted.flatMap RecvWr.buffers).length := by
  have hset : Settled s := by
    have hph := h.inv.phase
    simp only [Phase, hpc] at hph
    exact hph
  have hcount := h.count (by rw [hpc]; exact id)
  rw [Ep.past_of_ne (by simp [hpc])] at hcount
  have hdeq := congrArg List.length h.inv.dequeued
  rw [Ep.completing_of_ne (by simp [hpc]), List.append_nil, List.length_map, List.length_map] at hdeq
  have hposted : s.recvsPosted ≤ s.hist.posted.length := Nat.sub_le _ _
  rw [flatMap_buffers h.single, List.length_map, hset]
  omega

/-- Where a step of `rnic_recv` begins with the payload. -/
theorem payload_begins {c : SegCtx} (h : (step bld .recv s).ep.recvPc = .payload c) :
    s.ep.recvPc = .idle ∧ s.ep.connected = true ∧
      (ddpRecvHead s.ep.ddp s.ep.msg).next = .inr c := by
  have hmoved := rnicRecvStep_moved bld s.ep
  have hcon : s.ep.recvPc = .idle → s.ep.connected = true := by
    intro hpc
    by_contra hcon
    have hexit : (step bld .recv s).ep.recvPc = .exited 0 := by
      simp only [step, rnicRecvStep, hpc, if_neg hcon]
    rw [h] at hexit
    cases hexit
  have h' : (rnicRecvStep bld s.ep).recvPc = .payload c := h
  generalize rnicRecvStep bld s.ep = ep' at hmoved h'
  cases hmoved with
  | begins hpc hnext =>
    cases h'
    exact ⟨hpc, hcon hpc, hnext⟩
  | dispatches => exact absurd h' ((dispatch_inb bld s.ep _).2 c)
  | stops _ hstop =>
    simp only at h'
    rw [h'] at hstop
    exact hstop.elim
  | rests hpc =>
    rw [h'] at hpc
    exact hpc.elim
  | _ => cases h'

/-- A message on queue 0 is given a buffer if there is one. -/
theorem given_begins (h : RecvInv s) {c : SegCtx}
    (hlt : s.hist.taken.length < (s.hist.posted.flatMap RecvWr.buffers).length)
    (hnew : (step bld .recv s).ep.recvPc = .payload c) (hon : (step bld .recv s).ep.msg.OnSendQ) :
    Given (step bld .recv s) := by
  obtain ⟨hpc, hcon, hnext⟩ := payload_begins hnew
  have hset : Settled s := by
    have hph := h.phase
    simp only [Phase, hpc] at hph
    exact hph
  have hinv : RecvInv (step bld .recv s) := recvInv_idle h hpc
  have hphase := hinv.phase
  simp only [Phase, hnew] at hphase
  refine hphase.resolve_left fun hset' => ?_
  obtain ⟨pc, hep, -⟩ := recvStep_idle bld hpc hcon
  have hmsg : (step bld .recv s).ep.msg = (ddpRecvHead s.ep.ddp s.ep.msg).msg := by
    show (rnicRecvStep bld s.ep).msg = _
    rw [hep]
  have hhist : (step bld .recv s).hist =
      { s.hist with taken := s.hist.taken ++ s.ep.takenNow } := by
    simp only [step, History.recv, hpc, hcon, if_true]
  rw [hmsg] at hon
  have hnow : s.ep.takenNow = (s.ep.ddp.queues 0).q.take 1 := by
    simp only [Ep.takenNow, hnext, if_pos hon]
  -- nothing more is taken, although a buffer is left
  rw [Settled, hhist] at hset'
  have hbuf := congrArg List.length h.buffers
  rw [List.length_append] at hbuf
  simp only [List.length_append, hnow, List.length_take] at hset'
  rw [Settled] at hset
  omega

end

/-! ## A direction -/

/-- A message whose header has been read is the first one on its way; if it is a
    Send on queue 0 it was given a buffer. -/
def Begun (s : Sys) (rest : List Tx) : Prop :=
  ∀ c, s.ep.recvPc = .payload c → ∃ t ts, rest = t :: ts ∧
    (t.req.isSend = true → s.ep.msg.OnSendQ → Given s)

/-- The messages of `r`, those sent and those received: there are no more Sends
    than receives, and each Send received has its receive. -/
structure Flow (r : Role) (sent : List Tx) (rxs : List Rx) (w : Link) : Prop where
  sending : Sending sent (w.host r)
  credit : (w.host r).sendsPosted ≤ (w.host r.peer).recvsPosted
  matched : Matched rxs (w.host r.peer)
  way : ∃ got rest, sent = got ++ rest ∧ List.Forall₂ Delivered got rxs ∧ OnTheWay r w rest ∧
    Begun (w.host r.peer) rest

section

variable {bld : Role → Build} {r : Role} {w : Link} {sent : List Tx} {rxs : List Rx}

theorem length_sendsOf_delivered {ts : List Tx} (h : List.Forall₂ Delivered ts rxs) :
    (sendsOf ts).length = (rxSends rxs).length :=
  (delivered_filter RdmaOpcode.isSend h).length_eq

theorem Flow.room (h : Flow r sent rxs w) : (sendsOf sent).length ≤ (w.host r.peer).recvsPosted := by
  have hcount := h.sending.count
  have hcredit := h.credit
  omega

/-- A header is read only if there is a message. -/
theorem ddpRecvHead_pending {ctx : DdpCtx} {msg : DdpMessage} {c : SegCtx} (hf : ctx.inb.FailFree)
    (h : (ddpRecvHead ctx msg).next = .inr c) : ctx.inb.pending ≠ [] := by
  intro hnil
  have hready : ¬FirstReady ctx.inb (ddpHdrSize (ctx.inb.pending.getD 2 0)) := by
    intro hr
    have havail := hr.ctrl.avail
    rw [hnil] at havail
    simp at havail
  obtain ⟨ret, -, hinl, -⟩ := ddpRecvHead_of_not_ready msg hf hready
  rw [hinl] at h
  cases h

theorem OnTheWay.ne_nil {ts : List Tx} (h : OnTheWay r w ts) (hpc : (w.host r.peer).ep.recvPc = .idle)
    {c : SegCtx}
    (hnext : (ddpRecvHead (w.host r.peer).ep.ddp (w.host r.peer).ep.msg).next = .inr c) : ts ≠ [] := by
  rintro rfl
  have hwait := h.waiting
  generalize hbs : wireOfTxs [] = bs at hwait
  cases hwait with
  | between _ hf =>
    have hne := ddpRecvHead_pending hf hnext
    rw [wireOfTxs_nil] at hbs
    exact hne (List.append_eq_nil_iff.mp hbs.symm).1
  | inside hpay =>
    rw [hpc] at hpay
    cases hpay
  | stopped hstop =>
    rw [hpc] at hstop
    exact hstop

/-- `r` sends. -/
theorem Flow.send (h : Flow r sent rxs w) {l : Label} (hG : SendsMessages (.act r l) w)
    (hcredit : InCredit r (.act r l) w) :
    Flow r (sent ++ onHost r msgOf (.act r l) w) rxs (Link.step bld (.act r l) w) := by
  have hpeer : (Link.step bld (.act r l) w).host r.peer = w.host r.peer :=
    Link.act_host_of_ne bld w l r.peer_ne
  have hmsg : onHost r msgOf (.act r l) w = msgOf l (w.host r) := if_pos rfl
  obtain ⟨got, rest, heq, hgot, hway, hbegun⟩ := h.way
  refine ⟨?_, ?_, ?_, got, rest ++ onHost r msgOf (.act r l) w, ?_, hgot, hway.send hG, ?_⟩
  · rw [Link.act_host, hmsg]
    exact sending_step (bld r) l h.sending
  · rw [Link.act_host, hpeer, sendsPosted_step]
    have hle := h.credit
    cases l with
    | post wr =>
      have hlt := hcredit rfl
      dsimp only
      split
      · exact hlt ‹_›
      · exact hle
    | _ => exact hle
  · rw [hpeer]
    exact h.matched
  · rw [heq, List.append_assoc]
  · rw [hpeer]
    intro c hc
    obtain ⟨t, ts, rfl, hgiven⟩ := hbegun c hc
    exact ⟨t, ts ++ onHost r msgOf (.act r l) w, rfl, hgiven⟩

/-- `rnic_recv` of `r.peer` takes a step. -/
theorem Flow.recv (h : Flow r sent rxs w) : Flow r sent (rxs ++ onHost r.peer rxOf (.act r.peer .recv) w)
    (Link.step bld (.act r.peer .recv) w) := by
  have hself : (Link.step bld (.act r.peer .recv) w).host r = w.host r :=
    Link.act_host_of_ne bld w .recv r.peer_ne.symm
  have hrx : onHost r.peer rxOf (.act r.peer .recv) w = rxOf .recv (w.host r.peer) := if_pos rfl
  have hroom := h.room
  obtain ⟨got, rest, heq, hgot, hway, hbegun⟩ := h.way
  obtain ⟨got', rest', heq', hgot', hway'⟩ := @OnTheWay.recv bld w r rest hway .recv
  have hlen := length_sendsOf_delivered hgot
  rw [heq, sendsOf_append, List.length_append] at hroom
  rw [hrx] at hgot' ⊢
  have hnew : ∀ rx ∈ rxOf .recv (w.host r.peer), RdmaOpcode.isSend rx.opcode = true →
      Given (w.host r.peer) := by
    intro rx hmem hs
    obtain ⟨⟨c, hpc⟩, hone, hqueue⟩ := mem_rxOf hmem
    obtain ⟨t, ts, rfl, hgiven⟩ := hbegun c hpc
    rw [hone] at hgot'
    cases hgot' with
    | cons hd hnil =>
      cases hnil
      obtain ⟨rfl, -⟩ := List.cons.inj heq'
      refine hgiven ?_ (hqueue.mp (hd.onSendQ.mp hs))
      rw [SendWr.isSend, ← hd.opcode.1]
      exact hs
  have hmatched : Matched (rxs ++ rxOf .recv (w.host r.peer))
      (step (bld r.peer) .recv (w.host r.peer)) :=
    matched_recv h.matched (onSendQ_of_delivered hgot) (h.matched.rq_ne_nil (by omega)) hnew
  refine ⟨?_, ?_, ?_, got ++ got', rest', ?_, List.rel_append hgot hgot', hway', ?_⟩
  · rw [hself]
    exact h.sending
  · rw [hself, Link.act_host]
    exact h.credit.trans (recvsPosted_step _ _ _)
  · rw [Link.act_host]
    exact hmatched
  · rw [heq, heq', List.append_assoc]
  · rw [Link.act_host]
    intro c hc
    obtain ⟨hidle, -, hnext⟩ := payload_begins hc
    have hnone : rxOf .recv (w.host r.peer) = [] := rxOf_nil (by simp [hidle])
    rw [hnone] at hgot'
    cases hgot'
    obtain rfl : rest = rest' := heq'
    cases hrest : rest with
    | nil => exact absurd hrest (hway.ne_nil hidle hnext)
    | cons t ts =>
      refine ⟨t, ts, rfl, fun hs hon => given_begins h.matched.inv ?_ hc hon⟩
      refine h.matched.taken_lt ?_ hidle
      have hsend : RdmaOpcode.isSend (some t.req.opcode) = true := hs
      have hcons : sendsOf (t :: ts) = t :: sendsOf ts := List.filter_cons_of_pos (by simpa using hsend)
      rw [hrest, hcons, List.length_cons] at hroom
      omega

/-- `rnic_send` or the application of `r.peer` takes a step. -/
theorem Flow.other (h : Flow r sent rxs w) {l : Label} (hl : l ≠ .recv)
    (hone : AtHost r.peer PostsSingle (.act r.peer l) w) :
    Flow r sent rxs (Link.step bld (.act r.peer l) w) := by
  have hself : (Link.step bld (.act r.peer l) w).host r = w.host r :=
    Link.act_host_of_ne bld w l r.peer_ne.symm
  have hpost : ∀ wr, l = .postBuffers wr → wr.sgList.length = 1 := by
    rintro wr rfl
    exact hone rfl
  obtain ⟨hpc, hmsg, -⟩ := step_other (bld r.peer) hl (w.host r.peer)
  obtain ⟨got, rest, heq, hgot, hway, hbegun⟩ := h.way
  obtain ⟨got', rest', heq', hgot', hway'⟩ := @OnTheWay.recv bld w r rest hway l
  have hnone : onHost r.peer rxOf (.act r.peer l) w = [] := (if_pos rfl).trans (rxOf_of_ne hl _)
  rw [hnone] at hgot'
  cases hgot'
  obtain rfl : rest = rest' := heq'
  refine ⟨?_, ?_, ?_, got, rest, heq, hgot, hway', ?_⟩
  · rw [hself]
    exact h.sending
  · rw [hself, Link.act_host]
    exact h.credit.trans (recvsPosted_step _ _ _)
  · rw [Link.act_host]
    exact matched_other hl h.matched hpost
  · rw [Link.act_host]
    intro c hc
    rw [hpc] at hc
    obtain ⟨t, ts, hrest, hgiven⟩ := hbegun c hc
    refine ⟨t, ts, hrest, fun hs hon => ?_⟩
    rw [hmsg] at hon
    exact given_other hl (hgiven hs hon)

/-- Bytes arrive. -/
theorem Flow.deliver (h : Flow r sent rxs w) (q : Role) (k : ℕ) :
    Flow r sent rxs (Link.step bld (.deliver q k) w) := by
  obtain ⟨got, rest, heq, hgot, hway, hbegun⟩ := h.way
  rcases r.eq_or_eq_peer q with rfl | rfl
  · have hself : (Link.step bld (.deliver q k) w).host q = w.host q :=
      Link.deliver_host_of_ne bld w k q.peer_ne.symm
    refine ⟨?_, ?_, ?_, got, rest, heq, hgot, hway.deliver k, ?_⟩
    · rw [hself]
      exact h.sending
    · rw [hself, Link.deliver_host]
      exact h.credit
    · rw [Link.deliver_host]
      exact h.matched.deliver _
    · rw [Link.deliver_host]
      intro c hc
      obtain ⟨t, ts, hrest, hgiven⟩ := hbegun c hc
      exact ⟨t, ts, hrest, fun hs hon => (hgiven hs hon).deliver _⟩
  · have hpeer : (Link.step bld (.deliver r.peer k) w).host r.peer = w.host r.peer :=
      Link.deliver_host_of_ne bld w k r.peer.peer_ne.symm
    have hself := Link.deliver_host bld w (r := r.peer) k
    rw [r.peer_peer] at hself
    refine ⟨?_, ?_, ?_, got, rest, heq, hgot, hway.other k, ?_⟩
    · rw [hself]
      exact ⟨h.sending.opcode, h.sending.count⟩
    · rw [hself, hpeer]
      exact h.credit
    · rw [hpeer]
      exact h.matched
    · rw [hpeer]
      exact hbegun

/-- What is assumed of the steps: every call sends one message, the receives
    have one sge, and there are no more Sends than receives. -/
def CreditRun (r : Role) (l : LinkLabel) (w : Link) : Prop :=
  SendsMessages l w ∧ AtHost r.peer PostsSingle l w ∧ InCredit r l w

instance (r : Role) (l : LinkLabel) (w : Link) : Decidable (CreditRun r l w) :=
  inferInstanceAs (Decidable (_ ∧ _ ∧ _))

theorem Flow.step (h : Flow r sent rxs w) {l : LinkLabel} (hG : CreditRun r l w) :
    Flow r (sent ++ onHost r msgOf l w) (rxs ++ onHost r.peer rxOf l w) (Link.step bld l w) := by
  obtain ⟨hsends, hone, hcredit⟩ := hG
  cases l with
  | act q l =>
    rcases r.eq_or_eq_peer q with rfl | rfl
    · have hrx : onHost q.peer rxOf (.act q l) w = [] := if_neg q.peer_ne.symm
      rw [hrx, List.append_nil]
      exact h.send hsends hcredit
    · have htx : onHost r msgOf (.act r.peer l) w = [] := if_neg r.peer_ne
      rw [htx, List.append_nil]
      by_cases hl : l = .recv
      · subst hl
        exact h.recv
      · have hrx : onHost r.peer rxOf (.act r.peer l) w = [] := (if_pos rfl).trans (rxOf_of_ne hl _)
        rw [hrx, List.append_nil]
        exact h.other hl hone
  | deliver q k =>
    show Flow r (sent ++ []) (rxs ++ []) _
    rw [List.append_nil, List.append_nil]
    exact h.deliver q k

theorem Link.New.flow (hw : w.New) (r : Role) : Flow r [] [] w where
  sending := (hw.stream r).sending
  credit := by
    rw [Sys.sendsPosted, (hw.stream r).hist]
    exact Nat.zero_le _
  matched := (hw.stream r.peer).matched
  way := ⟨[], [], rfl, .nil, hw.toFresh.onTheWay r, fun c hc => by
    rw [(hw.stream r.peer).recvPc] at hc
    cases hc⟩

end

/-! ## Runs -/

theorem DdpCall.Sound.frames_ne_nil {c : DdpCall} (h : c.Sound) : c.frames ≠ [] := by
  obtain ⟨fs, hfs⟩ := c.exists_packets
  have hmarked := ((marked_listPieces_iff c.mem c.sgeList).mpr h).1
  have hne := ((c.frames_isMessage hfs).1.mpr hmarked).ne_nil
  rw [hfs]
  simpa using hne

/-- No bytes are on their way if and only if no messages are. -/
theorem eq_nil_of_wireOfTxs {ts : List Tx} (hts : ∀ t ∈ ts, t.Sound) (h : wireOfTxs ts = []) :
    ts = [] := by
  cases ts with
  | nil => rfl
  | cons t ts =>
    obtain ⟨c, hc, hsound⟩ := hts t List.mem_cons_self
    obtain ⟨f, fs, hfs⟩ := List.exists_cons_of_ne_nil hsound.frames_ne_nil
    obtain ⟨F, rfl⟩ := c.frames_wire f (by simp [hfs])
    have hcons : wireOfTxs (t :: ts) = F.wire ++ (fs.flatten ++ wireOfTxs ts) := by
      have hframes : t.fpdus = F.wire :: fs := by
        rw [Tx.fpdus, hc]
        exact hfs
      simp [wireOfTxs, hframes]
    rw [hcons] at h
    exact absurd (List.append_eq_nil_iff.mp h).1 F.wire_ne_nil

theorem Matched.take_past {s : Sys} {rxs : List Rx} (h : Matched rxs s) {n : ℕ}
    (hn : n ≤ s.hist.dequeued.length) :
    List.Forall₂ RecvWr.Holds (s.hist.dequeued.take n) ((rxSends rxs).take n) := by
  have hle : s.hist.dequeued.length ≤ (rxSends (s.ep.past rxs)).length := by
    have hlen := h.held.length_eq
    rw [List.length_take] at hlen
    omega
  obtain ⟨rest, hrest⟩ : rxSends (s.ep.past rxs) <+: rxSends rxs := by
    refine List.IsPrefix.filter _ ?_
    unfold Ep.past
    split
    · exact List.dropLast_prefix rxs
    · exact List.prefix_rfl
  have htake := List.forall₂_take n h.held
  rw [List.take_take, Nat.min_eq_left hn] at htake
  rw [← hrest, List.take_append_of_le_length (hn.trans hle)]
  exact htake

theorem Link.New.flow_run {bld : Role → Build} {r : Role} {w : Link} (hw : w.New)
    {ls : List LinkLabel} (hG : Admits (Link.step bld) (CreditRun r) ls w) :
    Flow r (linkTxs bld r ls w) (linkRxs bld r.peer ls w) (run (Link.step bld) ls w) :=
  trace_invariant₂ (I := Flow r) (fun _ _ _ _ hg hf => hf.step hg) (hw.flow r) hG

/-- The receives completed are the first ones posted, and they hold the first
    Sends. -/
theorem Flow.completes {r : Role} {sent : List Tx} {rxs : List Rx} {w : Link}
    (h : Flow r sent rxs w) :
    let s := w.host r.peer
    let n := s.hist.recvDone.length
    n ≤ (sendsOf sent).length ∧
      s.hist.recvDone.map WorkCompletion.wrId = (s.hist.posted.take n).map RecvWr.wrId ∧
      List.Forall₂ (fun wr t => ∃ rx ∈ rxs, Delivered t rx ∧ wr.Holds rx) (s.hist.posted.take n)
        ((sendsOf sent).take n) := by
  intro s n
  obtain ⟨got, rest, heq, hgot, -⟩ := h.way
  have hm : Matched rxs s := h.matched
  have hsends : sendsOf sent = sendsOf got ++ sendsOf rest := by
    rw [heq, sendsOf_append]
  have hdeq := hm.inv.dequeued
  have hn : n ≤ s.hist.dequeued.length := by
    have hcount := congrArg List.length hdeq
    rw [List.length_map, List.length_map, List.length_append] at hcount
    omega
  have hposted : s.hist.posted.take n = s.hist.dequeued.take n := by
    rw [hm.inv.posted, List.take_append_of_le_length hn]
  have hheld := hm.take_past hn
  have hle : n ≤ (sendsOf got).length := by
    have hlen := length_sendsOf_delivered hgot
    have hcount := hheld.length_eq
    rw [List.length_take, List.length_take] at hcount
    omega
  refine ⟨?_, ?_, ?_⟩
  · rw [hsends, List.length_append]
    omega
  · rw [hposted, List.map_take, hdeq, List.map_append]
    exact (List.take_left' (List.length_map _)).symm
  · rw [hposted, hsends, List.take_append_of_le_length hle]
    have hdel := List.forall₂_take n (delivered_filter RdmaOpcode.isSend hgot)
    refine (forall₂_meet hheld hdel).imp fun wr t h => ?_
    obtain ⟨rx, hrx, hd, hwr⟩ := h
    exact ⟨rx, List.mem_of_mem_filter (List.mem_of_mem_take hrx), hd, hwr⟩

/-- Nothing is on its way to a `rnic_recv` that has read everything: all the
    Sends have completed a receive. -/
theorem Flow.completes_all {r : Role} {sent : List Tx} {rxs : List Rx} {w : Link}
    (h : Flow r sent rxs w) (hidle : (w.host r.peer).ep.recvPc = .idle)
    (hpend : (w.host r.peer).ep.ddp.inb.pending = []) (hflight : w.flight r = []) :
    (w.host r.peer).hist.recvDone.length = (sendsOf sent).length := by
  obtain ⟨got, rest, heq, hgot, hway, -⟩ := h.way
  have hnone : rest = [] := by
    refine eq_nil_of_wireOfTxs hway.sound ?_
    have hwait := hway.waiting
    generalize wireOfTxs rest = bs at hwait
    cases hwait with
    | between => exact List.append_eq_nil_iff.mpr ⟨hpend, hflight⟩
    | inside hpay =>
      rw [hidle] at hpay
      cases hpay
    | stopped hstop =>
      rw [hidle] at hstop
      exact hstop.elim
  have hcount := h.matched.count (by rw [hidle]; exact id)
  rw [Ep.past_of_ne (by simp [hidle])] at hcount
  have hdeq := h.matched.inv.dequeued
  rw [Ep.completing_of_ne (by simp [hidle]), List.append_nil] at hdeq
  have hdone := congrArg List.length hdeq
  rw [List.length_map, List.length_map] at hdone
  rw [heq, hnone, List.append_nil, length_sendsOf_delivered hgot, ← hcount, hdone]

end SoftUiWarp
