import SoftUiWarp.Lib.Producers
import SoftUiWarp.Rdmap.SendQueue

/-!
# Rounds of the threads

The system of this module is finer than that of `Rdmap.System` in two places.

* A thread checks `connected` in one step and goes on in its next one, so
  `connected` may be reset in between, for instance while `rnic_recv` waits in
  `recv`.
* Both the application and `rnic_recv` add to the send queue, and the queue keeps
  the order of each of them only (`common/concurrentqueue.h`, lines 1104–1135). A
  step says to which of the two `try_dequeue` turns. The application posts from
  one thread.

Results:
* `rounds_move`: inversion of the steps.
* `rounds_disconnected`: a stream does not come back.
* `exists_rounds`: every run of `Rdmap.System` is one of this system.
* `rounds_order`: each request is sent once, those of a producer in their order.
-/

namespace SoftUiWarp

open Runs Producers

/-! ## The threads with their checks -/

/-- Who adds to the send queue. -/
inductive Producer
  | application
  | rnicRecv
  deriving DecidableEq, Repr

/-- The read responses of `rnic_recv` point to its variable `sg`, and no other
    request does. -/
def SendWr.producer (wr : SendWr) : Producer :=
  match wr.sgList with
  | .user _ => .application
  | .recvSg => .rnicRecv

structure Rounds where
  sys : Sys
  /-- `rnic_recv` has found `connected` set and is about to call `ddp_recv`. -/
  recvIn : Bool
  /-- `rnic_send` has found `connected` set and is about to call `try_dequeue`. -/
  sendIn : Bool

def Sys.setConnected (s : Sys) (con : Bool) : Sys :=
  { s with ep := { s.ep with connected := con } }

/-- The step of a thread that has found `connected` set, whatever it is now. -/
def Sys.enter (bld : Build) (l : Label) (s : Sys) : Sys :=
  (step bld l (s.setConnected true)).setConnected s.ep.connected

/-- `try_dequeue` turns to `p`. -/
def Sys.turnTo (p : Producer) (s : Sys) : Sys :=
  { s with ep := { s.ep with sq := Producers.turnTo SendWr.producer p s.ep.sq } }

/-- One step; the producer counts where `rnic_send` calls `try_dequeue`. -/
def Rounds.step (bld : Build) (l : Label × Producer) (x : Rounds) : Rounds :=
  match l.1 with
  | .recv =>
    match x.sys.ep.recvPc with
    | .idle =>
      if x.recvIn then { x with sys := x.sys.enter bld .recv, recvIn := false }
      else if x.sys.ep.connected then { x with recvIn := true }
      else { x with sys := SoftUiWarp.step bld .recv x.sys, recvIn := false }
    | _ => { x with sys := SoftUiWarp.step bld .recv x.sys, recvIn := false }
  | .send junk =>
    match x.sys.ep.sendPc with
    | .idle =>
      if x.sendIn then { x with sys := (x.sys.turnTo l.2).enter bld (.send junk), sendIn := false }
      else if x.sys.ep.connected then { x with sendIn := true }
      else { x with sys := SoftUiWarp.step bld (.send junk) x.sys, sendIn := false }
    | _ => { x with sys := SoftUiWarp.step bld (.send junk) x.sys, sendIn := false }
  | call => { x with sys := SoftUiWarp.step bld call x.sys }

/-- The requests sent in a run, in order: those `rnic_send` has carried out, which
    for a read with `num_sge` other than 1 puts nothing on the wire. -/
def roundTxs (bld : Build) (ls : List (Label × Producer)) (x : Rounds) : List Tx :=
  trace (Rounds.step bld) (fun l x => txOf l.1 x.sys) ls x

/-- The requests queued in a run. -/
def roundQueued (bld : Build) (ls : List (Label × Producer)) (x : Rounds) : List SendWr :=
  trace (Rounds.step bld) (fun l x => queuedBy l.1 x.sys) ls x

/-- The messages received in a run. -/
def roundRxs (bld : Build) (ls : List (Label × Producer)) (x : Rounds) : List Rx :=
  trace (Rounds.step bld) (fun l x => rxOf l.1 x.sys) ls x

def Label.isSend : Label → Bool
  | .send _ => true
  | _ => false

def Label.isRecv : Label → Bool
  | .recv => true
  | _ => false

theorem Label.isSend_of_ne {l : Label} (hl : ∀ junk, l ≠ .send junk) : l.isSend = false := by
  cases l with
  | send junk => exact absurd rfl (hl junk)
  | _ => rfl

theorem Label.isRecv_of_ne {l : Label} (hl : l ≠ .recv) : l.isRecv = false := by
  cases l with
  | recv => exact absurd rfl hl
  | _ => rfl

section

variable {bld : Build} {x : Rounds}

/-- What a step does. -/
inductive RoundsMove (bld : Build) (x : Rounds) : Label × Producer → Rounds → Prop
  | checksRecv {p : Producer} (hpc : x.sys.ep.recvPc = .idle) (hin : x.recvIn = false)
      (hcon : x.sys.ep.connected = true) : RoundsMove bld x (.recv, p) { x with recvIn := true }
  | entersRecv {p : Producer} (hpc : x.sys.ep.recvPc = .idle) (hin : x.recvIn = true) :
      RoundsMove bld x (.recv, p) { x with sys := x.sys.enter bld .recv, recvIn := false }
  | movesRecv {p : Producer}
      (h : x.sys.ep.recvPc = .idle → x.recvIn = false ∧ x.sys.ep.connected = false) :
      RoundsMove bld x (.recv, p) { x with sys := step bld .recv x.sys, recvIn := false }
  | checksSend {junk : DdpUntaggedMeta} {p : Producer} (hpc : x.sys.ep.sendPc = .idle)
      (hin : x.sendIn = false) (hcon : x.sys.ep.connected = true) :
      RoundsMove bld x (.send junk, p) { x with sendIn := true }
  | entersSend {junk : DdpUntaggedMeta} {p : Producer} (hpc : x.sys.ep.sendPc = .idle)
      (hin : x.sendIn = true) : RoundsMove bld x (.send junk, p)
        { x with sys := (x.sys.turnTo p).enter bld (.send junk), sendIn := false }
  | movesSend {junk : DdpUntaggedMeta} {p : Producer}
      (h : x.sys.ep.sendPc = .idle → x.sendIn = false ∧ x.sys.ep.connected = false) :
      RoundsMove bld x (.send junk, p)
        { x with sys := step bld (.send junk) x.sys, sendIn := false }
  | calls {l : Label} {p : Producer} (hrecv : l ≠ .recv) (hsend : ∀ junk, l ≠ .send junk) :
      RoundsMove bld x (l, p) { x with sys := step bld l x.sys }

theorem rounds_move (bld : Build) (l : Label × Producer) (x : Rounds) :
    RoundsMove bld x l (Rounds.step bld l x) := by
  obtain ⟨l, p⟩ := l
  cases l with
  | recv =>
    simp only [Rounds.step]
    split
    case h_1 hpc =>
      split_ifs with hin hcon
      · exact .entersRecv hpc hin
      · exact .checksRecv hpc (by simpa using hin) hcon
      · exact .movesRecv fun _ => ⟨by simpa using hin, by simpa using hcon⟩
    case h_2 hpc => exact .movesRecv fun hidle => absurd hidle hpc
  | send junk =>
    simp only [Rounds.step]
    split
    case h_1 hpc =>
      split_ifs with hin hcon
      · exact .entersSend hpc hin
      · exact .checksSend hpc (by simpa using hin) hcon
      · exact .movesSend fun _ => ⟨by simpa using hin, by simpa using hcon⟩
    case h_2 hpc => exact .movesSend fun hidle => absurd hidle hpc
  | _ => exact .calls (by simp) (by simp)

/-- The other threads leave `rnic_send` where it is. -/
theorem rounds_sendPc (bld : Build) {l : Label × Producer} (hl : ∀ junk, l.1 ≠ .send junk)
    (x : Rounds) : (Rounds.step bld l x).sys.ep.sendPc = x.sys.ep.sendPc ∧
      (Rounds.step bld l x).sendIn = x.sendIn := by
  have hmove := rounds_move bld l x
  generalize Rounds.step bld l x = x' at hmove
  cases hmove with
  | checksRecv => exact ⟨rfl, rfl⟩
  | entersRecv => exact ⟨(step_sq bld hl (x.sys.setConnected true)).2.1, rfl⟩
  | movesRecv => exact ⟨(step_sq bld hl x.sys).2.1, rfl⟩
  | checksSend => exact absurd rfl (hl _)
  | entersSend => exact absurd rfl (hl _)
  | movesSend => exact absurd rfl (hl _)
  | calls => exact ⟨(step_sq bld hl x.sys).2.1, rfl⟩

/-- The other threads leave `rnic_recv` where it is. -/
theorem rounds_recvPc (bld : Build) {l : Label × Producer} (hl : l.1 ≠ .recv) (x : Rounds) :
    (Rounds.step bld l x).sys.ep.recvPc = x.sys.ep.recvPc ∧
      (Rounds.step bld l x).recvIn = x.recvIn := by
  have hmove := rounds_move bld l x
  generalize Rounds.step bld l x = x' at hmove
  cases hmove with
  | checksRecv => exact absurd rfl hl
  | entersRecv => exact absurd rfl hl
  | movesRecv => exact absurd rfl hl
  | checksSend => exact ⟨rfl, rfl⟩
  | @entersSend junk p =>
    exact ⟨(step_other bld hl ((x.sys.turnTo p).setConnected true)).1, rfl⟩
  | movesSend => exact ⟨(step_other bld hl x.sys).1, rfl⟩
  | calls => exact ⟨(step_other bld hl x.sys).1, rfl⟩

/-! ## The runs of `Rdmap.System` -/

variable {s : Sys}

theorem Sys.setConnected_self (hcon : s.ep.connected = true) : s.setConnected true = s := by
  rw [Sys.setConnected, ← hcon]

/-- A thread at the head of its loop does not change `connected`. -/
theorem connected_recv_idle (bld : Build) (hpc : s.ep.recvPc = .idle) :
    (step bld .recv s).ep.connected = s.ep.connected := by
  show (rnicRecvStep bld s.ep).connected = s.ep.connected
  simp only [rnicRecvStep, hpc]
  split <;> rfl

theorem connected_send (bld : Build) (junk : DdpUntaggedMeta) (s : Sys) :
    (step bld (.send junk) s).ep.connected = s.ep.connected := by
  have hturn := step_sendTurn bld junk s
  generalize txOf (.send junk) s = ts at hturn
  generalize step bld (.send junk) s = s' at hturn
  cases hturn with
  | completes hpc =>
    simp only [Ep.complete]
    split <;> rfl
  | _ => rfl

/-- A stream does not come back. -/
theorem rounds_disconnected (bld : Build) (l : Label × Producer) (x : Rounds)
    (hcon : x.sys.ep.connected = false) : (Rounds.step bld l x).sys.ep.connected = false := by
  have hmove := rounds_move bld l x
  generalize Rounds.step bld l x = x' at hmove
  cases hmove with
  | checksRecv => exact hcon
  | entersRecv => exact hcon
  | movesRecv => exact (step_sq bld (l := .recv) (by simp) x.sys).2.2 hcon
  | checksSend => exact hcon
  | entersSend => exact hcon
  | movesSend => exact (connected_send bld _ x.sys).trans hcon
  | calls hrecv hsend => exact (step_sq bld hsend x.sys).2.2 hcon

/-- If `connected` is still set the check and the rest of the step are one. -/
theorem Sys.enter_eq {l : Label} (hcon : s.ep.connected = true)
    (hkeep : (step bld l s).ep.connected = s.ep.connected) : s.enter bld l = step bld l s := by
  rw [Sys.enter, Sys.setConnected_self hcon, hcon]
  exact Sys.setConnected_self (hkeep.trans hcon)

theorem exists_rounds_step (bld : Build) (l : Label) (s : Sys) :
    ∃ ls, run (Rounds.step bld) ls ⟨s, false, false⟩ = ⟨step bld l s, false, false⟩ := by
  cases l with
  | recv =>
    by_cases hin : s.ep.recvPc = .idle ∧ s.ep.connected = true
    · obtain ⟨hpc, hcon⟩ := hin
      refine ⟨[(.recv, .application), (.recv, .application)], ?_⟩
      simp [run, Rounds.step, hpc, hcon, Sys.enter_eq hcon (connected_recv_idle bld hpc)]
    · refine ⟨[(.recv, .application)], ?_⟩
      by_cases hpc : s.ep.recvPc = .idle
      · have hcon : s.ep.connected = false := by simpa [hpc] using hin
        simp [run, Rounds.step, hpc, hcon]
      · simp [run, Rounds.step]
  | send junk =>
    by_cases hin : s.ep.sendPc = .idle ∧ s.ep.connected = true
    · obtain ⟨hpc, hcon⟩ := hin
      obtain ⟨p, hp⟩ : ∃ p, s.turnTo p = s := by
        cases hsq : s.ep.sq with
        | nil =>
          refine ⟨.application, ?_⟩
          rw [Sys.turnTo, hsq, turnTo_nil, ← hsq]
        | cons wr sq =>
          refine ⟨wr.producer, ?_⟩
          rw [Sys.turnTo, hsq, turnTo_head, ← hsq]
      refine ⟨[(.send junk, p), (.send junk, p)], ?_⟩
      simp [run, Rounds.step, hpc, hcon, hp, Sys.enter_eq hcon (connected_send bld junk s)]
    · refine ⟨[(.send junk, .application)], ?_⟩
      by_cases hpc : s.ep.sendPc = .idle
      · have hcon : s.ep.connected = false := by simpa [hpc] using hin
        simp [run, Rounds.step, hpc, hcon]
      · simp [run, Rounds.step]
  | post wr => exact ⟨[(.post wr, .application)], rfl⟩
  | postBuffers wr => exact ⟨[(.postBuffers wr, .application)], rfl⟩
  | postWr => exact ⟨[(.postWr, .application)], rfl⟩
  | register buf => exact ⟨[(.register buf, .application)], rfl⟩
  | invalidate tag => exact ⟨[(.invalidate tag, .application)], rfl⟩
  | store ws => exact ⟨[(.store ws, .application)], rfl⟩

/-- Every run of `Rdmap.System` is one of this system. -/
theorem exists_rounds (bld : Build) (ls : List Label) (s : Sys) :
    ∃ ls', run (Rounds.step bld) ls' ⟨s, false, false⟩ = ⟨run (step bld) ls s, false, false⟩ := by
  induction ls generalizing s with
  | nil => exact ⟨[], rfl⟩
  | cons l ls ih =>
    obtain ⟨ls₁, hstep⟩ := exists_rounds_step bld l s
    obtain ⟨ls₂, hrest⟩ := ih (step bld l s)
    exact ⟨ls₁ ++ ls₂, by rw [run_append, hstep, hrest]; rfl⟩

/-! ## The order of the requests -/

theorem txOf_idle {junk : DdpUntaggedMeta} (hpc : s.ep.sendPc = .idle) :
    txOf (.send junk) s = [] := by
  simp [txOf, hpc, SendPc.held]

theorem turnTo_queued (p : Producer) (hpc : s.ep.sendPc = .idle) :
    SameOrder SendWr.producer s.ep.queued (s.turnTo p).ep.queued := by
  intro i
  simp only [Ep.queued, Sys.turnTo, hpc, SendPc.held, List.nil_append]
  exact (turnTo_sameOrder p s.ep.sq i).symm

theorem rounds_queued (bld : Build) (l : Label × Producer) (x : Rounds) :
    SameOrder SendWr.producer (x.sys.ep.queued ++ queuedBy l.1 x.sys)
      ((txOf l.1 x.sys).map Tx.req ++ (Rounds.step bld l x).sys.ep.queued) := by
  have hmove := rounds_move bld l x
  generalize Rounds.step bld l x = x' at hmove
  cases hmove with
  | checksRecv hpc =>
    have hfill : x.sys.ep.filled = [] := Ep.filled_of_ne (by simp [hpc])
    rw [queuedBy, hfill, List.append_nil]
    exact .refl _
  | entersRecv hpc => exact .of_eq (step_queued bld .recv (x.sys.setConnected true))
  | movesRecv => exact .of_eq (step_queued bld .recv x.sys)
  | @checksSend junk p hpc =>
    show SameOrder _ (x.sys.ep.queued ++ [])
      ((txOf (.send junk) x.sys).map Tx.req ++ x.sys.ep.queued)
    rw [txOf_idle hpc, List.append_nil]
    exact .refl _
  | @entersSend junk p hpc =>
    have hstep := step_queued bld (.send junk) ((x.sys.turnTo p).setConnected true)
    rw [txOf_idle (s := (x.sys.turnTo p).setConnected true) hpc] at hstep
    show SameOrder _ (x.sys.ep.queued ++ []) ((txOf (.send junk) x.sys).map Tx.req ++ _)
    rw [txOf_idle hpc]
    exact ((turnTo_queued p hpc).append (.refl _)).trans (.of_eq hstep)
  | @movesSend junk => exact .of_eq (step_queued bld (.send junk) x.sys)
  | @calls l => exact .of_eq (step_queued bld l x.sys)

/-- Each request is sent once, those of a producer in their order. -/
theorem rounds_order (bld : Build) (ls : List (Label × Producer)) (x : Rounds) :
    SameOrder SendWr.producer (x.sys.ep.queued ++ roundQueued bld ls x)
      ((roundTxs bld ls x).map Tx.req ++ (run (Rounds.step bld) ls x).sys.ep.queued) := by
  rw [roundTxs, ← trace_map]
  exact sameOrder_trace (fun x : Rounds => x.sys.ep.queued) (rounds_queued bld) ls x

end

end SoftUiWarp
