import SoftUiWarp.Rdmap.LinkAnswers

/-!
# The send queue

The application and `rnic_recv` add to the send queue, and only `rnic_send`
takes from it.

Results:
* `step_sq`: what the other threads and the application do to the queue.
* `step_queued`: each request queued waits until it is sent.
-/

namespace SoftUiWarp

open Runs

section

variable {bld : Build} {s : Sys}

/-! ## The switch -/

/-- What belongs to `rnic_send` is left alone, and `connected` is not set. -/
structure Ep.LeavesSend (ep ep' : Ep) : Prop where
  sq : ep'.sq = ep.sq
  sendPc : ep'.sendPc = ep.sendPc
  connected : ep.connected = false → ep'.connected = false

variable {ep : Ep} {ret : ℤ}

theorem Ep.LeavesSend.assertThen {cond : Bool} {next : Ep} (h : ep.LeavesSend next) :
    ep.LeavesSend (ep.assertThen bld cond next) := by
  unfold Ep.assertThen
  split
  · exact h
  · exact ⟨rfl, rfl, id⟩

theorem leavesSend_takePending : ep.LeavesSend (ep.takePending ret) := by
  obtain ⟨-, heq⟩ | ⟨wce, pending, -, heq⟩ := takePending_cases ep ret <;> rw [heq]
  · exact ⟨rfl, rfl, id⟩
  · exact ⟨rfl, rfl, id⟩

theorem leavesSend_recvSend {op : RdmaOpcode} (ddp : DdpCtx) :
    ep.LeavesSend (Ep.recvSend bld { ep with ddp := ddp } op ret) := by
  have htake : ep.LeavesSend (Ep.takeRecv { ep with ddp := ddp } op ret) := by
    obtain ⟨-, heq⟩ | ⟨wr, rq, -, heq⟩ := takeRecv_cases { ep with ddp := ddp } ret op <;> rw [heq]
    · exact ⟨rfl, rfl, id⟩
    · exact ⟨rfl, rfl, id⟩
  unfold Ep.recvSend Ep.assertThen
  split
  · exact htake
  · exact ⟨rfl, rfl, id⟩

theorem leavesSend_recvSendInval {op : RdmaOpcode} :
    ep.LeavesSend (ep.recvSendInval bld op ret) := by
  unfold Ep.recvSendInval
  simp only
  split
  · exact ⟨rfl, rfl, id⟩
  · exact leavesSend_recvSend _

theorem leavesSend_dispatch (bld : Build) (ep : Ep) (ret : ℤ) :
    ep.LeavesSend (ep.dispatch bld ret) := by
  unfold Ep.dispatch
  split
  case h_2 => exact .assertThen ⟨rfl, rfl, id⟩
  case h_3 => exact .assertThen leavesSend_takePending
  case h_4 => exact leavesSend_recvSendInval
  case h_5 => exact leavesSend_recvSendInval
  case h_6 => exact leavesSend_recvSend ep.ddp
  case h_7 => exact leavesSend_recvSend ep.ddp
  case h_8 => exact .assertThen ⟨rfl, rfl, fun _ => rfl⟩
  all_goals
    first
      | exact .assertThen ⟨rfl, rfl, id⟩
      | exact ⟨rfl, rfl, id⟩

/-! ## The send queue -/

/-- The requests that wait to be sent, the oldest first. -/
def Ep.queued (ep : Ep) : List SendWr := ep.sendPc.held ++ ep.sq

/-- The requests a step adds to the send queue: those of the application, and
    the read responses of `rnic_recv`. -/
def queuedBy : Label → Sys → List SendWr
  | .post wr, _ => [wr]
  | .recv, s => s.ep.filled
  | _, _ => []

/-- The other threads and the application only add to the send queue. -/
theorem step_sq (bld : Build) {l : Label} (hl : ∀ junk, l ≠ .send junk) (s : Sys) :
    (step bld l s).ep.sq = s.ep.sq ++ queuedBy l s ∧ (step bld l s).ep.sendPc = s.ep.sendPc ∧
      (s.ep.connected = false → (step bld l s).ep.connected = false) := by
  cases l with
  | send junk => exact absurd rfl (hl junk)
  | recv =>
    have hturn := step_recvTurn bld s
    generalize hrx : rxOf .recv s = rx at hturn
    generalize step bld .recv s = s' at hturn
    cases hturn with
    | reads hpc => exact ⟨by simp [queuedBy, hpc.filled], rfl, id⟩
    | receives hpc => exact ⟨by simp [queuedBy, hpc.filled], rfl, id⟩
    | @dispatches ret hpc =>
      obtain ⟨hsq, hsend, hcon⟩ := leavesSend_dispatch bld s.ep ret
      have hfill : s.ep.filled = [] := Ep.filled_of_ne (by simp [hpc])
      exact ⟨by simp [queuedBy, hfill, hsq], hsend, hcon⟩
    | answers hpc => exact ⟨by simp [queuedBy, Ep.filled, hpc], rfl, id⟩
    | completesRead hpc =>
      have hfill : s.ep.filled = [] := Ep.filled_of_ne (by simp [hpc])
      exact ⟨by simp [queuedBy, hfill, Ep.enqCq], rfl, id⟩
    | completesRecv hpc =>
      have hfill : s.ep.filled = [] := Ep.filled_of_ne (by simp [hpc])
      exact ⟨by simp [queuedBy, hfill, Ep.enqCq], rfl, id⟩
  | post wr => exact ⟨rfl, rfl, id⟩
  | postBuffers wr =>
    unfold step
    simp only
    split
    all_goals exact ⟨by simp [queuedBy, postRecvBuffers], rfl, id⟩
  | postWr =>
    unfold step
    simp only
    split
    all_goals exact ⟨by simp [queuedBy, postRecvWr], rfl, id⟩
  | register buf => exact ⟨by simp [queuedBy, step, rdmaRegister], rfl, id⟩
  | invalidate tag => exact ⟨by simp [queuedBy, step, rdmaInvalidate], rfl, id⟩
  | store ws => exact ⟨by simp [queuedBy, step], rfl, id⟩

/-- A request is queued at the end and sent from the front. -/
theorem step_queued (bld : Build) (l : Label) (s : Sys) :
    s.ep.queued ++ queuedBy l s = (txOf l s).map Tx.req ++ (step bld l s).ep.queued := by
  by_cases hl : ∃ junk, l = .send junk
  · obtain ⟨junk, rfl⟩ := hl
    have hturn := step_sendTurn bld junk s
    generalize txOf (.send junk) s = ts at hturn
    generalize step bld (.send junk) s = s' at hturn
    cases hturn with
    | takes hpc hcon hsq => simp [queuedBy, Ep.queued, hpc, hsq, SendPc.held]
    | transmits t hpc ht =>
      simp only [queuedBy, Ep.queued, hpc, Tx.held_after]
      simp [SendPc.held, ht]
    | completes hpc =>
      simp only [queuedBy, Ep.queued, hpc, Ep.complete, SendPc.held]
      split <;> simp [Ep.enqCq, Ep.enqPending]
    | exits hpc => simp [queuedBy, Ep.queued, hpc, SendPc.held]
    | rests => simp [queuedBy]
  · obtain ⟨hsq, hpc, -⟩ := step_sq bld (fun junk h => hl ⟨junk, h⟩) s
    rw [txOf_of_ne fun junk h => hl ⟨junk, h⟩, Ep.queued, Ep.queued, hsq, hpc]
    simp

end

end SoftUiWarp
