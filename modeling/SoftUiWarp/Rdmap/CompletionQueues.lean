import Mathlib.Tactic.Abel
import SoftUiWarp.Rdmap.Delivery
import SoftUiWarp.Rdmap.ReadCompletions
import SoftUiWarp.Rdmap.RecvPosting
import SoftUiWarp.Rdmap.SendLoop

/-!
# What is put on the completion queues

Two threads put completions on one queue. Each of them is the completion of a
work request that was dequeued before, whatever the peer sends and however the
threads interleave; but it goes to the queue of the send queue also when it is
that of a receive.

Results:
* `step_effect`: what a step does to the queues.
* `completed_balance`, `completions_from_requests`: no completion is invented or
  duplicated, and those of reads keep their order.
* `recvs_routed_iff`: receives are completed on their own queue's completion
  queue only if the send queue has the same one.
-/

namespace SoftUiWarp

open TcpStream ByteMem Runs

/-! ## Requests and completions -/

/-- A request or a completion as it is counted. -/
abbrev WrKey := UInt64 × WcOpcode

def WorkCompletion.key (w : WorkCompletion) : WrKey := (w.wrId, w.opcode)

def SendWr.key (req : SendWr) : WrKey := (req.wrId, req.opcode.toWc)

/-- What a step puts on the completion queue. -/
def completed (bld : Build) (l : Label) (s : Sys) : List WorkCompletion :=
  (step bld l s).ep.cq.drop s.ep.cq.length

/-- The requests a step dequeues from the send queue. -/
def dequeuedSends (bld : Build) (l : Label) (s : Sys) : List SendWr :=
  s.ep.sq.take (s.ep.sq.length - (step bld l s).ep.sq.length)

/-- The requests a step dequeues from the receive queue, with the opcode of the
    message it handles. -/
def dequeuedRecvs (bld : Build) (l : Label) (s : Sys) : List WrKey :=
  s.ep.opcode.toList.flatMap fun op =>
    (s.ep.rq.take (s.ep.rq.length - (step bld l s).ep.rq.length)).map fun wr => (wr.wrId, op.toWc)

/-- The completions a step puts on `pending_cq`. -/
def putPending (bld : Build) (l : Label) (s : Sys) : List WorkCompletion :=
  (step bld l s).ep.pendingCq.drop s.ep.pendingCq.length

/-- The completions of reads that a step of `rnic_recv` puts on the completion queue. -/
def completedReads (bld : Build) : Label → Sys → List WorkCompletion
  | .recv, s =>
    match s.ep.recvPc with
    | .enqRead _ => completed bld .recv s
    | _ => []
  | _, _ => []

/-! ## What a step does to the queues -/

/-- The effect of a step of `rnic_recv` on the completion queue, `pending_cq` and
    the receive queue. -/
inductive RecvEffect (ep ep' : Ep) : Prop
  /-- It moves no completion. -/
  | quiet (hcq : ep'.cq = ep.cq) (hp : ep'.pendingCq = ep.pendingCq) (hm : ep.moving = [])
      (hm' : ep'.moving = []) (hc' : ep'.completing = [])
  /-- It takes the completion of a read from `pending_cq`. -/
  | takePending {w : WorkCompletion} {n : UInt32} (hcq : ep'.cq = ep.cq)
      (hp : ep.pendingCq = w :: ep'.pendingCq) (hm : ep.moving = [])
      (hm' : ep'.moving = [{ w with byteLen := n }]) (hc' : ep'.completing = [])
  /-- It takes a receive for a send. -/
  | takeRecv {wr : RecvWr} {op : RdmaOpcode} {n : UInt32} (hcq : ep'.cq = ep.cq)
      (hp : ep'.pendingCq = ep.pendingCq) (hop : ep.opcode = some op) (hrq : ep.rq = wr :: ep'.rq)
      (hm : ep.moving = []) (hm' : ep'.moving = [])
      (hc' : ep'.completing = [⟨wr.wrId, .success, op.toWc, n⟩])
  /-- It completes a read or a receive. -/
  | done {wce : WorkCompletion} (h : ep.recvPc = .enqRead wce ∨ ep.recvPc = .enqRecv wce)
      (hcq : ep'.cq = ep.cq ++ [wce]) (hp : ep'.pendingCq = ep.pendingCq) (hm' : ep'.moving = [])
      (hc' : ep'.completing = [])

/-- The request that is dequeued and not completed. -/
def SendPc.keys : SendPc → List WrKey
  | .transmit req => [req.key]
  | .complete req _ => [req.key]
  | _ => []

/-- The effect of a step of `rnic_send` on the completion queue, `pending_cq` and
    the send queue. -/
inductive SendEffect (ep ep' : Ep) : Prop
  /-- It moves no completion. -/
  | quiet (hcq : ep'.cq = ep.cq) (hp : ep'.pendingCq = ep.pendingCq)
      (hk : ep'.sendPc.keys = ep.sendPc.keys ∨ ep'.sendPc.keys = [])
  /-- It takes a request. -/
  | takeSend {req : SendWr} (hcq : ep'.cq = ep.cq) (hp : ep'.pendingCq = ep.pendingCq)
      (hsq : ep.sq = req :: ep'.sq) (hk : ep'.sendPc.keys = [req.key])
  /-- It puts the completion of its request on `pending_cq`. -/
  | pend {req : SendWr} {ret : ℤ} (h : ep.sendPc = .complete req ret) (hcq : ep'.cq = ep.cq)
      (hp : ep'.pendingCq = ep.pendingCq ++ [sendWrToWce req ret]) (hk' : ep'.sendPc.keys = [])
  /-- It completes its request. -/
  | done {req : SendWr} {ret : ℤ} (h : ep.sendPc = .complete req ret)
      (hcq : ep'.cq = ep.cq ++ [sendWrToWce req ret]) (hp : ep'.pendingCq = ep.pendingCq)
      (hk' : ep'.sendPc.keys = [])

section

variable (bld : Build) (ep : Ep)

theorem Ep.enqCq_pendingCq (wce : WorkCompletion) : (ep.enqCq wce).pendingCq = ep.pendingCq := by
  unfold Ep.pendingCq Ep.enqCq
  simp only [Function.update_self]

theorem ofRet_moves_nothing {ep : Ep} {r : Ret} (h : ep.recvPc = .ofRet r) :
    ep.moving = [] ∧ ep.completing = [] :=
  ⟨Ep.moving_of_ne (by rw [h]; exact ofRet_ne_enqRead r),
    Ep.completing_of_ne (by rw [h]; exact ofRet_ne_enqRecv r)⟩

theorem dispatch_effect {ret : ℤ} (hpc : ep.recvPc = .dispatch ret) :
    RecvEffect ep (ep.dispatch bld ret) := by
  have hm : ep.moving = [] := by
    unfold Ep.moving
    rw [hpc]
  have hd := dispatch_cases bld ep ret
  generalize ep.dispatch bld ret = ep' at hd
  cases hd with
  | request => exact .quiet rfl rfl hm rfl rfl
  | response =>
    obtain ⟨-, heq⟩ | ⟨w, pending, h, heq⟩ := takePending_cases ep ret
    · rw [heq]
      exact .quiet rfl rfl hm rfl rfl
    · rw [heq]
      refine .takePending ?_ (h.trans (congrArg _ ?_)) hm rfl rfl
      · unfold Ep.cq
        simp only [Function.update_self]
      · unfold Ep.pendingCq
        simp only [Function.update_self]
  | @send op tags hop =>
    obtain ⟨-, heq⟩ | ⟨wr, rq, h, heq⟩ := takeRecv_cases (ep.withTags tags) ret op
    · rw [heq]
      exact .quiet rfl rfl hm rfl rfl
    · rw [heq]
      exact .takeRecv rfl rfl hop h hm rfl rfl
  | ended tags con hpc' =>
    cases hpc' <;> exact .quiet rfl rfl hm rfl rfl

/-- A step of `rnic_recv` has one of the four effects. -/
theorem recvStep_effect : RecvEffect ep (rnicRecvStep bld ep) := by
  have hm : ∀ {pc}, ep.recvPc = pc → (∀ wce, pc ≠ .enqRead wce) → ep.moving = [] := by
    intro pc hpc hne
    exact Ep.moving_of_ne (by rw [hpc]; exact hne)
  cases hpc : ep.recvPc with
  | idle =>
    have hm := hm hpc (by simp)
    by_cases hcon : ep.connected = true
    · obtain ⟨pc, heq, hnext⟩ := recvStep_idle bld hpc hcon
      rw [heq]
      rcases hnext with ⟨r, -, rfl⟩ | ⟨c, -, rfl⟩
      · obtain ⟨h1, h2⟩ := @ofRet_moves_nothing { ep with
          ddp := (ddpRecvHead ep.ddp ep.msg).ctx
          msg := (ddpRecvHead ep.ddp ep.msg).msg
          recvPc := .ofRet r } r rfl
        exact .quiet rfl rfl hm h1 h2
      · exact .quiet rfl rfl hm rfl rfl
    · unfold rnicRecvStep
      simp only [hpc, hcon]
      exact .quiet rfl rfl hm rfl rfl
  | payload c =>
    have hm := hm hpc (by simp)
    unfold rnicRecvStep
    simp only [hpc]
    obtain ⟨h1, h2⟩ := @ofRet_moves_nothing { ep with
      ddp := (ddpRecvPayload ep.ddp ep.mem ep.msg c).ctx
      mem := (ddpRecvPayload ep.ddp ep.mem ep.msg c).mem
      msg := (ddpRecvPayload ep.ddp ep.mem ep.msg c).msg
      recvPc := .ofRet (ddpRecvPayload ep.ddp ep.mem ep.msg c).ret } _ rfl
    exact .quiet rfl rfl hm h1 h2
  | dispatch ret =>
    unfold rnicRecvStep
    simp only [hpc]
    exact dispatch_effect bld ep hpc
  | enqRead wce =>
    unfold rnicRecvStep
    simp only [hpc]
    exact .done (.inl hpc) (Ep.enqCq_cq ep wce) (Ep.enqCq_pendingCq ep wce) rfl rfl
  | enqRecv wce =>
    unfold rnicRecvStep
    simp only [hpc]
    exact .done (.inr hpc) (Ep.enqCq_cq ep wce) (Ep.enqCq_pendingCq ep wce) rfl rfl
  | enqResp | repost =>
    have hm := hm hpc (by simp)
    unfold rnicRecvStep
    simp only [hpc]
    exact .quiet rfl rfl hm rfl rfl
  | stuck | exited ret | aborted =>
    have hm := hm hpc (by simp)
    unfold rnicRecvStep
    simp only [hpc]
    exact .quiet rfl rfl hm hm (Ep.completing_of_ne (by simp [hpc]))

/-- A step of `rnic_send` has one of the four effects. -/
theorem sendStep_effect (junk : DdpUntaggedMeta) (st : Statics) :
    SendEffect ep (rnicSendStep junk st ep).2 := by
  unfold rnicSendStep
  cases hpc : ep.sendPc with
  | idle =>
    simp only
    split
    · split
      · exact .quiet rfl rfl (.inl rfl)
      · rename_i hsq
        exact .takeSend rfl rfl hsq rfl
    · exact .quiet rfl rfl (.inr rfl)
  | transmit req =>
    refine .quiet rfl rfl ?_
    rw [hpc]
    simp only
    split
    · exact .inl rfl
    · exact .inr rfl
  | complete req ret =>
    unfold Ep.complete
    simp only
    split
    · refine .pend hpc ?_ ?_ rfl
      · unfold Ep.enqPending Ep.cq
        simp only [Function.update_self]
      · unfold Ep.enqPending Ep.pendingCq
        simp only [Function.update_self]
    · exact .done hpc (Ep.enqCq_cq ep _) (Ep.enqCq_pendingCq ep _) rfl
  | exited => exact .quiet rfl rfl (.inl rfl)

variable {ep}

theorem moves_of_recvPc {ep' : Ep} (h : ep'.recvPc = ep.recvPc) :
    ep'.moving = ep.moving ∧ ep'.completing = ep.completing := by
  unfold Ep.moving Ep.completing
  rw [h]
  exact ⟨rfl, rfl⟩

/-- The effect of a step of the system: that of one of the threads, or none. -/
inductive StepEffect (bld : Build) (s : Sys) : Label → Prop
  | recv (h : RecvEffect s.ep (step bld .recv s).ep)
      (hpc : (step bld .recv s).ep.sendPc = s.ep.sendPc) : StepEffect bld s .recv
  | send (junk : DdpUntaggedMeta) (h : SendEffect s.ep (step bld (.send junk) s).ep)
      (hm : (step bld (.send junk) s).ep.moving = s.ep.moving)
      (hc : (step bld (.send junk) s).ep.completing = s.ep.completing) :
      StepEffect bld s (.send junk)
  | call {l : Label} (hl : l ≠ .recv) (hcq : (step bld l s).ep.cq = s.ep.cq)
      (hp : (step bld l s).ep.pendingCq = s.ep.pendingCq)
      (hm : (step bld l s).ep.moving = s.ep.moving)
      (hc : (step bld l s).ep.completing = s.ep.completing)
      (hpc : (step bld l s).ep.sendPc = s.ep.sendPc) : StepEffect bld s l

theorem step_effect (l : Label) (s : Sys) : StepEffect bld s l := by
  by_cases hrecv : l = .recv
  · subst hrecv
    exact .recv (recvStep_effect bld s.ep) (rnicRecvStep_keeps bld s.ep).2.1
  · by_cases hsend : ∃ junk, l = .send junk
    · obtain ⟨junk, rfl⟩ := hsend
      obtain ⟨hm, hc⟩ := moves_of_recvPc (rnicSendStep_keeps junk s.st s.ep).2.2.1
      exact .send junk (sendStep_effect s.ep junk s.st) hm hc
    · obtain ⟨-, mem, sq, rq, queues, tags, heq, -⟩ :=
        step_call bld hrecv (fun junk h => hsend ⟨junk, h⟩) s
      refine .call hrecv ?_ ?_ ?_ ?_ (by rw [heq])
      all_goals
        rw [heq]
        rfl

end

/-! ## No completion is invented -/

/-- The requests and completions on their way to the completion queue. -/
def Ep.inFlight (ep : Ep) : Multiset WrKey :=
  ↑ep.sendPc.keys + ↑(ep.pendingCq.map WorkCompletion.key) +
    ↑((ep.moving ++ ep.completing).map WorkCompletion.key)

/-- What a step dequeues. -/
def dequeued (bld : Build) (l : Label) (s : Sys) : List WrKey :=
  (dequeuedSends bld l s).map SendWr.key ++ dequeuedRecvs bld l s

section

variable {bld : Build} {s : Sys}

theorem completed_of_cq {l : Label} {ws : List WorkCompletion}
    (h : (step bld l s).ep.cq = s.ep.cq ++ ws) : completed bld l s = ws := by
  unfold completed
  rw [h, List.drop_left]

theorem completed_of_same {l : Label} (h : (step bld l s).ep.cq = s.ep.cq) :
    completed bld l s = [] := completed_of_cq (by rw [h, List.append_nil])

/-- The balance of a step of `rnic_recv`. -/
theorem recv_balance (s : Sys) (heff : RecvEffect s.ep (step bld .recv s).ep)
    (hsend : (step bld .recv s).ep.sendPc = s.ep.sendPc) :
    ↑((completed bld .recv s).map WorkCompletion.key) + (step bld .recv s).ep.inFlight ≤
      s.ep.inFlight + ↑(dequeued bld .recv s) := by
  unfold Ep.inFlight
  rw [hsend]
  cases heff with
  | quiet hcq hp hm hm' hc' =>
    rw [completed_of_same hcq, hp, hm', hc']
    simp only [List.append_nil, List.map_nil, Multiset.coe_nil, zero_add, add_zero]
    exact le_self_add.trans le_self_add
  | @takePending w n hcq hp hm hm' hc' =>
    rw [completed_of_same hcq, hp, hm', hc', hm]
    have hmove : (0 : Multiset WrKey) + (↑s.ep.sendPc.keys +
          ↑((step bld .recv s).ep.pendingCq.map WorkCompletion.key) + {w.key}) =
        ↑s.ep.sendPc.keys +
          (w.key ::ₘ ↑((step bld .recv s).ep.pendingCq.map WorkCompletion.key)) := by
      rw [← Multiset.singleton_add]
      abel
    exact hmove.le.trans (le_self_add.trans le_self_add)
  | @takeRecv wr op n hcq hp hop hrq hm hm' hc' =>
    have hd : dequeuedRecvs bld .recv s = [(wr.wrId, op.toWc)] := by
      unfold dequeuedRecvs
      rw [hop, hrq]
      simp
    unfold dequeued
    rw [completed_of_same hcq, hp, hm', hc', hm, hd, ← Multiset.coe_add]
    simp only [List.nil_append, List.map_nil, Multiset.coe_nil, zero_add]
    exact add_le_add le_self_add le_add_self
  | @done wce h hcq hp hm' hc' =>
    have hm : s.ep.moving ++ s.ep.completing = [wce] := by
      unfold Ep.moving Ep.completing
      rcases h with h | h <;> rw [h] <;> rfl
    rw [completed_of_cq hcq, hp, hm', hc', hm, List.append_nil, List.map_nil, Multiset.coe_nil,
      add_zero, add_comm]
    exact le_self_add

/-- The balance of a step of `rnic_send`. -/
theorem send_balance (junk : DdpUntaggedMeta) (s : Sys)
    (heff : SendEffect s.ep (step bld (.send junk) s).ep)
    (hm : (step bld (.send junk) s).ep.moving = s.ep.moving)
    (hc : (step bld (.send junk) s).ep.completing = s.ep.completing) :
    ↑((completed bld (.send junk) s).map WorkCompletion.key) +
        (step bld (.send junk) s).ep.inFlight ≤
      s.ep.inFlight + ↑(dequeued bld (.send junk) s) := by
  unfold Ep.inFlight
  rw [hm, hc]
  cases heff with
  | quiet hcq hp hk =>
    rw [completed_of_same hcq, hp, List.map_nil, Multiset.coe_nil, zero_add]
    refine le_trans (add_le_add_left (add_le_add_left ?_ _) _) le_self_add
    rcases hk with hk | hk
    · rw [hk]
    · rw [hk]
      exact Multiset.zero_le _
  | @takeSend req hcq hp hsq hk =>
    have hd : dequeuedSends bld (.send junk) s = [req] := by
      unfold dequeuedSends
      rw [hsq]
      simp
    unfold dequeued
    rw [completed_of_same hcq, hp, hk, hd, List.map_nil, Multiset.coe_nil, zero_add,
      ← Multiset.coe_add, add_assoc (Multiset.ofList [req.key]),
      add_comm (Multiset.ofList [req.key]), add_assoc (Multiset.ofList s.ep.sendPc.keys)]
    exact add_le_add le_add_self le_self_add
  | @pend req ret h hcq hp hk' =>
    have hk : s.ep.sendPc.keys = [(sendWrToWce req ret).key] := congrArg SendPc.keys h
    rw [completed_of_same hcq, hp, hk, hk', List.map_append, ← Multiset.coe_add]
    simp only [List.map_nil, Multiset.coe_nil, zero_add]
    rw [add_comm (Multiset.ofList _) (Multiset.ofList _)]
    exact le_self_add
  | @done req ret h hcq hp hk' =>
    have hk : s.ep.sendPc.keys = [(sendWrToWce req ret).key] := congrArg SendPc.keys h
    rw [completed_of_cq hcq, hp, hk, hk', Multiset.coe_nil, zero_add, ← add_assoc]
    exact le_self_add

variable (bld) in
/-- What a step completes and what is on its way after it was on its way before,
    or is dequeued in the step. -/
theorem completed_balance (l : Label) (s : Sys) :
    ↑((completed bld l s).map WorkCompletion.key) + (step bld l s).ep.inFlight ≤
      s.ep.inFlight + ↑(dequeued bld l s) := by
  cases step_effect bld l s with
  | recv heff hpc => exact recv_balance s heff hpc
  | send junk heff hm hc => exact send_balance junk s heff hm hc
  | call _ hcq hp hm hc hpc =>
    unfold Ep.inFlight
    rw [completed_of_same hcq, hpc, hp, hm, hc, List.map_nil, Multiset.coe_nil, zero_add]
    exact le_self_add

end

/-! ## The order of the reads -/

section

variable {bld : Build}

theorem putPending_of_append {l : Label} {s : Sys} {ws : List WorkCompletion}
    (h : (step bld l s).ep.pendingCq = s.ep.pendingCq ++ ws) : putPending bld l s = ws := by
  unfold putPending
  rw [h, List.drop_left]

theorem putPending_of_same {l : Label} {s : Sys}
    (h : (step bld l s).ep.pendingCq = s.ep.pendingCq) : putPending bld l s = [] :=
  putPending_of_append (by rw [h, List.append_nil])

theorem completedReads_of_ne {l : Label} {s : Sys} (hl : l ≠ .recv) :
    completedReads bld l s = [] := by
  cases l with
  | recv => exact absurd rfl hl
  | _ => rfl

theorem completedReads_of_moving {s : Sys} (h : s.ep.moving = []) :
    completedReads bld .recv s = [] := by
  unfold completedReads
  simp only
  split
  · rename_i hpc
    unfold Ep.moving at h
    rw [hpc] at h
    cases h
  · rfl

/-- The reads that are sent and not completed, in order. -/
def Ep.openReads (ep : Ep) : List WrKey := (ep.moving ++ ep.pendingCq).map WorkCompletion.key

variable (bld) in
/-- What a step puts on `pending_cq` and what it completes, in order. -/
theorem reads_balance (l : Label) (s : Sys) :
    s.ep.openReads ++ (putPending bld l s).map WorkCompletion.key =
      (completedReads bld l s).map WorkCompletion.key ++ (step bld l s).ep.openReads := by
  unfold Ep.openReads
  cases step_effect bld l s with
  | recv heff =>
    cases heff with
    | quiet hcq hp hm hm' hc' | takeRecv hcq hp hop hrq hm hm' hc' =>
      rw [putPending_of_same hp, completedReads_of_moving hm, hm, hm', hp]
      simp
    | @takePending w n hcq hp hm hm' hc' =>
      have hput : putPending bld .recv s = [] := by
        unfold putPending
        rw [hp]
        simp
      rw [hput, completedReads_of_moving hm, hm, hm', hp]
      simp [WorkCompletion.key]
    | @done wce h hcq hp hm' hc' =>
      rw [putPending_of_same hp, hm', hp]
      rcases h with h | h
      · have hdone : completedReads bld .recv s = [wce] := by
          unfold completedReads
          simp only [h]
          exact completed_of_cq hcq
        have hm : s.ep.moving = [wce] := by
          unfold Ep.moving
          rw [h]
        rw [hdone, hm]
        simp
      · have hm : s.ep.moving = [] := Ep.moving_of_ne (by simp [h])
        rw [completedReads_of_moving hm, hm]
        simp
  | send junk heff hm =>
    rw [hm, completedReads_of_ne (by simp)]
    cases heff with
    | quiet hcq hp | takeSend hcq hp | done h hcq hp =>
      rw [putPending_of_same hp, hp]
      simp
    | pend h hcq hp =>
      rw [putPending_of_append hp, hp]
      simp
  | call hl _ hp hm =>
    rw [putPending_of_same hp, hp, hm, completedReads_of_ne hl]
    simp

end

/-! ## Every run -/

/-- In every run of a new stream the completions put on the completion queue are
    those of requests and receives dequeued before, each counted once; and the
    completions of reads are put there in the order in which they were put on
    `pending_cq`. -/
theorem completions_from_requests {bld : Build} {s : Sys} (hs : NewStream s) (ls : List Label) :
    (↑((trace (step bld) (completed bld) ls s).map WorkCompletion.key) : Multiset WrKey) ≤
        ↑((trace (step bld) (dequeuedSends bld) ls s).map SendWr.key) +
          ↑(trace (step bld) (dequeuedRecvs bld) ls s) ∧
      (trace (step bld) (completedReads bld) ls s).map WorkCompletion.key <+:
        (trace (step bld) (putPending bld) ls s).map WorkCompletion.key := by
  have hidle : s.ep.inFlight = 0 ∧ s.ep.openReads = [] := by
    have hpend : s.ep.pendingCq = [] := by
      unfold Ep.pendingCq
      rw [hs.cqs]
    have hm : s.ep.moving = [] := Ep.moving_of_ne (by simp [hs.recvPc])
    have hc : s.ep.completing = [] := Ep.completing_of_ne (by simp [hs.recvPc])
    unfold Ep.inFlight Ep.openReads
    rw [hs.sendPc, hpend, hm, hc]
    exact ⟨rfl, rfl⟩
  constructor
  · have hle := trace_le (fun s : Sys => s.ep.inFlight) (completed_balance bld) ls s
    have hsupply : (↑(trace (step bld) (dequeued bld) ls s) : Multiset WrKey) =
        ↑((trace (step bld) (dequeuedSends bld) ls s).map SendWr.key) +
          ↑(trace (step bld) (dequeuedRecvs bld) ls s) := by
      rw [← trace_map]
      exact trace_append ls s
    rw [hidle.1, zero_add, hsupply, trace_map] at hle
    exact le_self_add.trans hle
  · have heq := trace_telescope (fun s : Sys => s.ep.openReads) (reads_balance bld) ls s
    rw [hidle.2, List.nil_append, trace_map, trace_map] at heq
    exact ⟨_, heq.symm⟩

/-- A Send with a receive posted, an unsolicited Read Response, and a request of
    the application: two completions. -/
theorem completions_from_requests_send :
    let ls : List Label := [.postBuffers oneRecv, .post ⟨7, .user [], .send, 0, 0, 0⟩, .postWr,
      .register ⟨⟨0, 0⟩, 0x2000, 1⟩, .send ⟨0, 0, 0, 0, 0⟩, .recv, .send ⟨0, 0, 0, 0, 0⟩, .recv, .recv,
      .send ⟨0, 0, 0, 0, 0⟩, .recv, .recv, .recv, .recv]
    let s := newSys (sendMsg 1 9 ++ readRespMsg 0x2000 0x2000 9)
    let done := (trace (step ⟨false, false⟩) (completed ⟨false, false⟩) ls s).map WorkCompletion.key
    done = [(7, .send), (42, .send)] ∧
      (↑done : Multiset WrKey) ≤
        ↑((trace (step ⟨false, false⟩) (dequeuedSends ⟨false, false⟩) ls s).map SendWr.key) +
          ↑(trace (step ⟨false, false⟩) (dequeuedRecvs ⟨false, false⟩) ls s) := by
  intro ls s done
  exact ⟨by decide +kernel, (completions_from_requests (newStream_newSys _) ls).1⟩

/-! ## The completion queue of the receives -/

/-- A step that completes a receive. -/
def CompletesRecv (l : Label) (s : Sys) : Prop := l = .recv ∧ ∃ wce, s.ep.recvPc = .enqRecv wce

/-- The step completes a request of the send queue with `w`. -/
def CompletesSend : Label → Sys → WorkCompletion → Prop
  | .send _, s, w => ∃ req ret, s.ep.sendPc = .complete req ret ∧ w = sendWrToWce req ret
  | .recv, s, w => s.ep.recvPc = .enqRead w
  | _, _, _ => False

/-- The step puts completions where they belong. -/
structure Routed (bld : Build) (l : Label) (s : Sys) : Prop where
  /-- A receive is completed on the completion queue of the receive queue. -/
  recvs : ∀ wce, l = .recv → s.ep.recvPc = .enqRecv wce →
    ((step bld l s).ep.cqs s.ep.recvCq).q = (s.ep.cqs s.ep.recvCq).q ++ [wce]
  /-- The completion queue of the send queue, if it is another, gets completions
      of the send queue's requests only. -/
  sends : s.ep.sendCq ≠ s.ep.recvCq → ∀ w ∈ completed bld l s, CompletesSend l s w

section

variable {bld : Build}

theorem recvStep_completes {ep : Ep} {wce : WorkCompletion} (h : ep.recvPc = .enqRecv wce) :
    rnicRecvStep bld ep = { ep.enqCq wce with recvPc := .idle } := by
  unfold rnicRecvStep
  rw [h]

/-- A step routes its completions except if it completes a receive and the two
    work queues have different completion queues. -/
theorem routed_iff (l : Label) (s : Sys) :
    Routed bld l s ↔ s.ep.sendCq = s.ep.recvCq ∨ ¬CompletesRecv l s := by
  constructor
  · intro h
    by_contra hno
    rw [not_or, not_not] at hno
    obtain ⟨hne, rfl, wce, hpc⟩ := hno
    have hgrown := h.recvs wce rfl hpc
    have hsame : (step bld .recv s).ep.cqs s.ep.recvCq = s.ep.cqs s.ep.recvCq := by
      show (rnicRecvStep bld s.ep).cqs s.ep.recvCq = _
      rw [recvStep_completes hpc]
      unfold Ep.enqCq
      exact Function.update_of_ne (Ne.symm hne) _ _
    rw [hsame] at hgrown
    exact absurd (congrArg List.length hgrown) (by simp)
  · intro h
    constructor
    · intro wce hl hpc
      have heq : s.ep.sendCq = s.ep.recvCq := h.resolve_right fun hno => hno ⟨hl, wce, hpc⟩
      subst hl
      show ((rnicRecvStep bld s.ep).cqs s.ep.recvCq).q = _
      rw [recvStep_completes hpc, ← heq]
      exact Ep.enqCq_cq s.ep wce
    · intro hne w hw
      have hnot := h.resolve_left hne
      cases step_effect bld l s with
      | recv heff =>
        cases heff with
        | quiet hcq | takePending hcq | takeRecv hcq =>
          rw [completed_of_same hcq] at hw
          cases hw
        | done h hcq =>
          rw [completed_of_cq hcq] at hw
          obtain rfl := List.mem_singleton.mp hw
          exact h.resolve_right fun hpc => hnot ⟨rfl, _, hpc⟩
      | send junk heff =>
        cases heff with
        | quiet hcq | takeSend hcq | pend h hcq =>
          rw [completed_of_same hcq] at hw
          cases hw
        | done h hcq =>
          rw [completed_of_cq hcq] at hw
          obtain rfl := List.mem_singleton.mp hw
          exact ⟨_, _, h, rfl⟩
      | call _ hcq =>
        rw [completed_of_same hcq] at hw
        cases hw

theorem dispatch_recvCq (ep : Ep) (ret : ℤ) : (ep.dispatch bld ret).recvCq = ep.recvCq := by
  have hd := dispatch_cases bld ep ret
  generalize ep.dispatch bld ret = ep' at hd
  cases hd with
  | request => rfl
  | response => obtain ⟨-, heq⟩ | ⟨wce, pending, -, heq⟩ := takePending_cases ep ret <;> rw [heq]
  | @send op tags =>
    obtain ⟨-, heq⟩ | ⟨wr, rq, -, heq⟩ := takeRecv_cases (ep.withTags tags) ret op
    all_goals
      rw [heq]
      rfl
  | ended => rfl

variable (bld) in
/-- The work queues stay attached to their completion queues. -/
theorem step_attached (l : Label) (s : Sys) :
    (step bld l s).ep.sendCq = s.ep.sendCq ∧ (step bld l s).ep.recvCq = s.ep.recvCq := by
  by_cases hrecv : l = .recv
  · subst hrecv
    refine ⟨(rnicRecvStep_keeps bld s.ep).2.2, ?_⟩
    show (rnicRecvStep bld s.ep).recvCq = s.ep.recvCq
    unfold rnicRecvStep
    split
    · split <;> rfl
    · rfl
    · exact dispatch_recvCq _ _
    all_goals rfl
  · by_cases hsend : ∃ junk, l = .send junk
    · obtain ⟨junk, rfl⟩ := hsend
      show (rnicSendStep junk s.st s.ep).2.sendCq = _ ∧ (rnicSendStep junk s.st s.ep).2.recvCq = _
      unfold rnicSendStep
      split
      · split
        · split <;> exact ⟨rfl, rfl⟩
        · exact ⟨rfl, rfl⟩
      · exact ⟨rfl, rfl⟩
      · unfold Ep.complete
        simp only
        split <;> exact ⟨rfl, rfl⟩
      · exact ⟨rfl, rfl⟩
    · obtain ⟨-, mem, sq, rq, queues, tags, heq, -⟩ :=
        step_call bld hrecv (fun junk h => hsend ⟨junk, h⟩) s
      rw [heq]
      exact ⟨rfl, rfl⟩

/-- In a run every receive is completed on the completion queue of the receive
    queue, and that of the send queue gets nothing else than its own completions,
    if and only if the two are the same or no receive is completed. -/
theorem recvs_routed_iff (ls : List Label) (s : Sys) :
    Admits (step bld) (Routed bld) ls s ↔
      s.ep.sendCq = s.ep.recvCq ∨ Admits (step bld) (fun l s => ¬CompletesRecv l s) ls s := by
  induction ls generalizing s with
  | nil => exact iff_of_true trivial (.inr trivial)
  | cons l ls ih =>
    obtain ⟨hsend, hrecv⟩ := step_attached bld l s
    show Routed bld l s ∧ Admits _ _ ls _ ↔ _ ∨ ¬CompletesRecv l s ∧ Admits _ _ ls _
    rw [ih (step bld l s), hsend, hrecv, routed_iff, or_and_left]

end

/-- The stream `newSys` with its receive queue attached to another completion queue. -/
def twoCqs (bs : List UInt8) : Sys := { newSys bs with ep := { (newSys bs).ep with recvCq := 1 } }

/-- The completion of a receive goes to the completion queue 0 of the send queue,
    on which no request was posted. -/
theorem recvs_routed_two_cqs :
    let ls : List Label := [.postBuffers oneRecv, .postWr, .recv, .recv, .recv, .recv]
    let s := run (step ⟨false, false⟩) ls (twoCqs (sendMsg 1 9))
    (twoCqs (sendMsg 1 9)).ep.sendCq = 0 ∧ (twoCqs (sendMsg 1 9)).ep.recvCq = 1 ∧
      (s.ep.cqs 0).q.map WorkCompletion.key = [(42, .send)] ∧ (s.ep.cqs 1).q = [] ∧
      ¬Admits (step ⟨false, false⟩) (Routed ⟨false, false⟩) ls (twoCqs (sendMsg 1 9)) := by
  intro ls s
  refine ⟨rfl, rfl, by decide +kernel, by decide +kernel, ?_⟩
  rintro ⟨-, -, -, -, -, hlast, -⟩
  obtain ⟨s₁, hs₁⟩ : ∃ s₁, run (step ⟨false, false⟩)
      [.postBuffers oneRecv, .postWr, .recv, .recv, .recv] (twoCqs (sendMsg 1 9)) = s₁ := ⟨_, rfl⟩
  have hroute : Routed ⟨false, false⟩ .recv s₁ := by
    rw [← hs₁]
    exact hlast
  have hpc : s₁.ep.completing = [⟨42, .success, .send, 0⟩] := by
    rw [← hs₁]
    decide +kernel
  have hnone : ((step ⟨false, false⟩ .recv s₁).ep.cqs s₁.ep.recvCq).q = [] := by
    rw [← hs₁]
    decide +kernel
  have hgrown := hroute.recvs _ rfl (Ep.recvPc_of_completing hpc)
  rw [hnone] at hgrown
  exact absurd (congrArg List.length hgrown) (by simp)

end SoftUiWarp
