import SoftUiWarp.Rdmap.Rounds

/-!
# The end of a stream

When `connected` is reset each of the two threads finishes the message it is at,
or begins one if it has already made its check, and returns. A thread that waits
in `recv` takes no step. A Terminate message resets `connected`; what
`rdmap_kill_stream` frees before it does so is not modelled.

Results:
* `send_disconnected`, `recv_disconnected`: what one step still does.
* `stream_ends`: what the threads still do.
-/

namespace SoftUiWarp

open Runs Producers

section

variable {bld : Build} {x : Rounds} {s : Sys}

/-- The steps `rnic_send` takes to return when `connected` is reset and it does
    not pass its check. -/
def SendPc.left : SendPc → ℕ
  | .transmit _ => 3
  | .complete _ _ => 2
  | .idle => 1
  | .exited => 0

/-- The steps `rnic_recv` takes to stop when `connected` is reset and it does not
    pass its check. -/
def RecvPc.left : RecvPc → ℕ
  | .payload _ => 5
  | .dispatch _ => 4
  | .enqResp => 3
  | .repost => 2
  | .enqRead _ => 2
  | .enqRecv _ => 2
  | .idle => 1
  | .stuck => 0
  | .exited _ => 0
  | .aborted => 0

theorem SendPc.left_eq_zero {pc : SendPc} : pc.left = 0 ↔ pc = .exited := by
  cases pc <;> simp [SendPc.left]

theorem SendPc.left_le (pc : SendPc) : pc.left ≤ 3 := by
  unfold SendPc.left
  split <;> omega

theorem RecvPc.left_eq_zero {pc : RecvPc} : pc.left = 0 ↔ pc.Stopped := by
  cases pc <;> simp [RecvPc.left, RecvPc.Stopped]

theorem RecvPc.left_le (pc : RecvPc) : pc.left ≤ 5 := by
  unfold RecvPc.left
  split <;> omega

theorem RecvPc.Ended.left_le {op : Option RdmaOpcode} {pc : RecvPc} (h : pc.Ended op) :
    pc.left ≤ 1 := by
  cases h with
  | idle => exact le_rfl
  | exited => exact Nat.zero_le 1
  | aborted => exact Nat.zero_le 1

theorem dispatch_left (bld : Build) (ep : Ep) (ret : ℤ) : (ep.dispatch bld ret).recvPc.left ≤ 3 := by
  have hd := dispatch_cases bld ep ret
  generalize ep.dispatch bld ret = ep' at hd
  cases hd with
  | request => exact le_rfl
  | response =>
    obtain ⟨-, heq⟩ | ⟨wce, pending, -, heq⟩ := takePending_cases ep ret
    · simp [heq, RecvPc.left]
    · simp [heq, RecvPc.left]
  | @send op tags =>
    obtain ⟨-, heq⟩ | ⟨wr, rq, -, heq⟩ := takeRecv_cases (ep.withTags tags) ret op
    · rw [heq]
      simp [RecvPc.left]
    · rw [heq]
      simp [RecvPc.left]
  | ended tags con h => exact h.left_le.trans (by omega)

/-- When `connected` is reset `rnic_recv` begins no message. -/
theorem rnicRecvStep_left (bld : Build) {ep : Ep} (hcon : ep.connected = false) :
    (rnicRecvStep bld ep).recvPc.left ≤ ep.recvPc.left - 1 := by
  by_cases hidle : ep.recvPc = .idle
  · simp [rnicRecvStep, hidle, hcon, RecvPc.left]
  have hmoved := rnicRecvStep_moved bld ep
  generalize rnicRecvStep bld ep = ep' at hmoved
  cases hmoved with
  | begins hpc => exact absurd hpc hidle
  | receives hpc => simp [hpc, RecvPc.left]
  | @dispatches ret hpc =>
    have := dispatch_left bld ep ret
    simp only [hpc]
    exact this
  | answers hpc => simp [hpc, RecvPc.left]
  | reposts hpc => simp [hpc, RecvPc.left]
  | completesRead hpc => simp [hpc, RecvPc.left]
  | completesRecv hpc => simp [hpc, RecvPc.left]
  | stops hpc h =>
    show RecvPc.left _ ≤ _
    rw [RecvPc.left_eq_zero.mpr h]
    exact Nat.zero_le _
  | rests hpc => rw [RecvPc.left_eq_zero.mpr hpc]

theorem rnicSendStep_left (bld : Build) (junk : DdpUntaggedMeta) (hcon : s.ep.connected = false) :
    (step bld (.send junk) s).ep.sendPc.left ≤ s.ep.sendPc.left - 1 ∧
      (step bld (.send junk) s).ep.sq = s.ep.sq := by
  have hturn := step_sendTurn bld junk s
  generalize txOf (.send junk) s = ts at hturn
  generalize step bld (.send junk) s = s' at hturn
  cases hturn with
  | takes hpc hcon' =>
    rw [hcon] at hcon'
    cases hcon'
  | transmits t hpc =>
    refine ⟨?_, rfl⟩
    show t.after.left ≤ s.ep.sendPc.left - 1
    unfold Tx.after
    split
    · simp [hpc, SendPc.left]
    · simp [hpc, SendPc.left]
  | completes hpc =>
    refine ⟨by simp [hpc, SendPc.left], ?_⟩
    simp only [Ep.complete]
    split
    · rfl
    · rfl
  | exits hpc => exact ⟨by simp [hpc, SendPc.left], rfl⟩
  | rests hpc =>
    refine ⟨?_, rfl⟩
    rcases hpc with ⟨-, hcon', -⟩ | hexit
    · rw [hcon] at hcon'
      cases hcon'
    · rw [hexit, SendPc.left]

/-- When `connected` is reset the request in hand is sent or stays in hand, and
    none is taken from the queue. -/
theorem held_disconnected (bld : Build) (junk : DdpUntaggedMeta) (hcon : s.ep.connected = false) :
    (txOf (.send junk) s).map Tx.req ++ (step bld (.send junk) s).ep.sendPc.held =
      s.ep.sendPc.held := by
  have hnone : queuedBy (.send junk) s = [] := rfl
  have hqueued := step_queued bld (.send junk) s
  rw [Ep.queued, Ep.queued, (rnicSendStep_left bld junk hcon).2, hnone, List.append_nil,
    ← List.append_assoc] at hqueued
  exact (List.append_cancel_right hqueued).symm

theorem rxOf_length_le (l : Label) (s : Sys) : (rxOf l s).length ≤ 1 := by
  unfold rxOf
  split
  · split
    · simp only []
      split_ifs <;> simp
    · simp
  · simp

/-- `rnic_send` has passed its check and takes no notice of `connected`. -/
def Rounds.passedSend (x : Rounds) : Bool :=
  match x.sys.ep.sendPc with
  | .idle => x.sendIn
  | _ => false

/-- The same for `rnic_recv`. -/
def Rounds.passedRecv (x : Rounds) : Bool :=
  match x.sys.ep.recvPc with
  | .idle => x.recvIn
  | _ => false

theorem Rounds.passedSend_out (h : x.sendIn = false) : x.passedSend = false := by
  unfold Rounds.passedSend
  split
  · exact h
  · rfl

theorem Rounds.passedRecv_out (h : x.recvIn = false) : x.passedRecv = false := by
  unfold Rounds.passedRecv
  split
  · exact h
  · rfl

/-- The messages `rnic_recv` still receives if it does not pass its check. -/
def RecvPc.unread : RecvPc → ℕ
  | .payload _ => 1
  | _ => 0

theorem SendPc.held_length_le (pc : SendPc) : pc.held.length ≤ 1 := by
  cases pc <;> simp [SendPc.held]

theorem RecvPc.unread_le (pc : RecvPc) : pc.unread ≤ 1 := by
  unfold RecvPc.unread
  split <;> omega

/-- The steps `rnic_send` takes to return. -/
def Rounds.sendLeft (x : Rounds) : ℕ := if x.passedSend then 4 else x.sys.ep.sendPc.left

/-- The steps `rnic_recv` takes to stop. -/
def Rounds.recvLeft (x : Rounds) : ℕ := if x.passedRecv then 6 else x.sys.ep.recvPc.left

/-- The messages `rnic_send` still sends. -/
def Rounds.unsent (x : Rounds) : ℕ := if x.passedSend then 1 else x.sys.ep.sendPc.held.length

/-- The messages `rnic_recv` still receives. -/
def Rounds.unread (x : Rounds) : ℕ := if x.passedRecv then 1 else x.sys.ep.recvPc.unread

/-- `k`, or its bound `n` if the thread has passed its check. -/
theorem le_ite_le {b : Bool} {k n : ℕ} (h : k ≤ n) :
    k ≤ (if b then n else k) ∧ (if b then n else k) ≤ n := by
  split_ifs
  · exact ⟨h, le_rfl⟩
  · exact ⟨le_rfl, h⟩

theorem Rounds.sendLeft_bounds (x : Rounds) :
    x.sys.ep.sendPc.left ≤ x.sendLeft ∧ x.sendLeft ≤ 4 :=
  le_ite_le ((SendPc.left_le _).trans (by omega))

theorem Rounds.recvLeft_bounds (x : Rounds) :
    x.sys.ep.recvPc.left ≤ x.recvLeft ∧ x.recvLeft ≤ 6 :=
  le_ite_le ((RecvPc.left_le _).trans (by omega))

theorem Rounds.unsent_bounds (x : Rounds) :
    x.sys.ep.sendPc.held.length ≤ x.unsent ∧ x.unsent ≤ 1 :=
  le_ite_le (SendPc.held_length_le _)

theorem Rounds.unread_bounds (x : Rounds) : x.sys.ep.recvPc.unread ≤ x.unread ∧ x.unread ≤ 1 :=
  le_ite_le (RecvPc.unread_le _)

theorem Rounds.sendLeft_out (h : x.sendIn = false) : x.sendLeft = x.sys.ep.sendPc.left := by
  simp [Rounds.sendLeft, Rounds.passedSend_out h]

theorem Rounds.unsent_out (h : x.sendIn = false) : x.unsent = x.sys.ep.sendPc.held.length := by
  simp [Rounds.unsent, Rounds.passedSend_out h]

theorem Rounds.recvLeft_out (h : x.recvIn = false) : x.recvLeft = x.sys.ep.recvPc.left := by
  simp [Rounds.recvLeft, Rounds.passedRecv_out h]

theorem Rounds.unread_out (h : x.recvIn = false) : x.unread = x.sys.ep.recvPc.unread := by
  simp [Rounds.unread, Rounds.passedRecv_out h]

/-- When `connected` is reset each step of `rnic_send` takes it nearer to its end,
    and a message it sends is one less to be sent. -/
theorem send_disconnected (bld : Build) (l : Label × Producer) (x : Rounds)
    (hcon : x.sys.ep.connected = false) :
    (Rounds.step bld l x).sendLeft ≤ x.sendLeft - (if l.1.isSend then 1 else 0) ∧
      (txOf l.1 x.sys).length + (Rounds.step bld l x).unsent ≤ x.unsent := by
  obtain ⟨l, p⟩ := l
  by_cases hl : ∃ junk, l = .send junk
  · obtain ⟨junk, rfl⟩ := hl
    have hmove := rounds_move bld (.send junk, p) x
    generalize Rounds.step bld (.send junk, p) x = x' at hmove
    cases hmove with
    | checksSend hpc hin hcon' =>
      rw [hcon] at hcon'
      cases hcon'
    | entersSend hpc hin =>
      have hleft : x.sendLeft = 4 := by simp [Rounds.sendLeft, Rounds.passedSend, hpc, hin]
      have hunsent : x.unsent = 1 := by simp [Rounds.unsent, Rounds.passedSend, hpc, hin]
      rw [hleft, hunsent, Rounds.sendLeft_out rfl, Rounds.unsent_out rfl, txOf_idle hpc]
      exact ⟨SendPc.left_le _, (Nat.zero_add _).le.trans (SendPc.held_length_le _)⟩
    | movesSend =>
      have hheld := congrArg List.length (held_disconnected bld junk hcon)
      rw [List.length_append, List.length_map] at hheld
      rw [Rounds.sendLeft_out rfl, Rounds.unsent_out rfl]
      exact ⟨(rnicSendStep_left bld junk hcon).1.trans (Nat.sub_le_sub_right x.sendLeft_bounds.1 1),
        hheld.le.trans x.unsent_bounds.1⟩
    | calls hrecv hsend => exact absurd rfl (hsend junk)
  · have hne : ∀ junk, l ≠ .send junk := fun junk h => hl ⟨junk, h⟩
    obtain ⟨hpc, hin⟩ := rounds_sendPc bld (l := (l, p)) hne x
    have hpassed : (Rounds.step bld (l, p) x).passedSend = x.passedSend := by
      rw [Rounds.passedSend, hpc, hin, ← Rounds.passedSend]
    simp [Rounds.sendLeft, Rounds.unsent, hpc, hpassed, Label.isSend_of_ne hne, txOf_of_ne hne]

/-- A thread that has not passed its check sends only what it has in hand. -/
theorem rounds_held (bld : Build) (l : Label × Producer) (x : Rounds)
    (hcon : x.sys.ep.connected = false) (hin : x.sendIn = false) :
    (Rounds.step bld l x).sendIn = false ∧ (txOf l.1 x.sys).map Tx.req ++
      (Rounds.step bld l x).sys.ep.sendPc.held = x.sys.ep.sendPc.held := by
  obtain ⟨l, p⟩ := l
  by_cases hl : ∃ junk, l = .send junk
  · obtain ⟨junk, rfl⟩ := hl
    have hmove := rounds_move bld (.send junk, p) x
    generalize Rounds.step bld (.send junk, p) x = x' at hmove
    cases hmove with
    | checksSend hpc hin' hcon' =>
      rw [hcon] at hcon'
      cases hcon'
    | entersSend hpc hin' =>
      rw [hin] at hin'
      cases hin'
    | movesSend => exact ⟨rfl, held_disconnected bld junk hcon⟩
    | calls hrecv hsend => exact absurd rfl (hsend junk)
  · have hne : ∀ junk, l ≠ .send junk := fun junk h => hl ⟨junk, h⟩
    obtain ⟨hpc, hin'⟩ := rounds_sendPc bld (l := (l, p)) hne x
    exact ⟨hin'.trans hin, by simp [hpc, txOf_of_ne hne]⟩

theorem RecvPc.unread_of_lt {pc : RecvPc} (h : pc.left < 5) : pc.unread = 0 := by
  cases pc with
  | payload c => simp [RecvPc.left] at h
  | _ => rfl

theorem unread_disconnected (bld : Build) (s : Sys) (hcon : s.ep.connected = false) :
    (rxOf .recv s).length + (step bld .recv s).ep.recvPc.unread ≤ s.ep.recvPc.unread := by
  have hleft := rnicRecvStep_left bld hcon
  show (rxOf .recv s).length + (rnicRecvStep bld s.ep).recvPc.unread ≤ _
  cases hpc : s.ep.recvPc with
  | payload c =>
    rw [hpc] at hleft
    rw [RecvPc.unread_of_lt (Nat.lt_succ_of_le hleft)]
    exact rxOf_length_le _ _
  | _ =>
    rw [hpc] at hleft
    rw [rxOf_nil (by simp [hpc]), RecvPc.unread_of_lt (lt_of_le_of_lt hleft (by simp [RecvPc.left]))]
    exact Nat.zero_le _

/-- The same for `rnic_recv`. -/
theorem recv_disconnected (bld : Build) (l : Label × Producer) (x : Rounds)
    (hcon : x.sys.ep.connected = false) :
    (Rounds.step bld l x).recvLeft ≤ x.recvLeft - (if l.1.isRecv then 1 else 0) ∧
      (rxOf l.1 x.sys).length + (Rounds.step bld l x).unread ≤ x.unread := by
  obtain ⟨l, p⟩ := l
  by_cases hl : l = .recv
  · subst hl
    have hmove := rounds_move bld (.recv, p) x
    generalize Rounds.step bld (.recv, p) x = x' at hmove
    cases hmove with
    | checksRecv hpc hin hcon' =>
      rw [hcon] at hcon'
      cases hcon'
    | entersRecv hpc hin =>
      have hleft : x.recvLeft = 6 := by simp [Rounds.recvLeft, Rounds.passedRecv, hpc, hin]
      have hunread : x.unread = 1 := by simp [Rounds.unread, Rounds.passedRecv, hpc, hin]
      rw [hleft, hunread, Rounds.recvLeft_out rfl, Rounds.unread_out rfl, rxOf_nil (by simp [hpc])]
      exact ⟨RecvPc.left_le _, (Nat.zero_add _).le.trans (RecvPc.unread_le _)⟩
    | movesRecv =>
      rw [Rounds.recvLeft_out rfl, Rounds.unread_out rfl]
      exact ⟨(rnicRecvStep_left bld hcon).trans (Nat.sub_le_sub_right x.recvLeft_bounds.1 1),
        (unread_disconnected bld x.sys hcon).trans x.unread_bounds.1⟩
    | calls hrecv => exact absurd rfl hrecv
  · obtain ⟨hpc, hin⟩ := rounds_recvPc bld (l := (l, p)) hl x
    have hpassed : (Rounds.step bld (l, p) x).passedRecv = x.passedRecv := by
      rw [Rounds.passedRecv, hpc, hin, ← Rounds.passedRecv]
    simp [Rounds.recvLeft, Rounds.unread, hpc, hpassed, Label.isRecv_of_ne hl, rxOf_of_ne hl]

end

/-- `connected` is reset after both threads have made their checks; two requests
    are queued and a read request is on its way in. -/
def closing (bld : Build) : Rounds :=
  let s := run (step bld) [.post (sendWr 1), .post (sendWr 2)]
    (newSys (readReqMsg 1 ⟨1, 2, 3, 4, 5⟩))
  ⟨s.setConnected false, true, true⟩

end SoftUiWarp
