import SoftUiWarp.Rdmap.Rounds

/-!
# Progress of `rnic_send`

`rnic_send` polls its queue without waiting for anything. As long as a request
waits and the stream is connected, one is sent in every four of its steps,
whatever the other threads do: the check of `connected`, `try_dequeue`, the send
and the completion.

Results:
* `ahead_step`: what one step does.
* `empty_or_sent`: what a run does.
* `requests_sent`: four steps of `rnic_send` for each request.
-/

namespace SoftUiWarp

open Runs Producers

section

variable {bld : Build} {x : Rounds} {s : Sys}

/-- The steps of `rnic_send` before the one that sends the next message, if a
    request waits. -/
def Rounds.ahead (x : Rounds) : ℕ :=
  match x.sys.ep.sendPc with
  | .transmit _ => 0
  | .idle => if x.sendIn then 1 else 2
  | _ => 3

theorem Rounds.ahead_le (x : Rounds) : x.ahead ≤ 3 := by
  unfold Rounds.ahead
  split
  · omega
  · split_ifs <;> omega
  · omega

/-- What `rnic_send` does after its check. -/
theorem enter_send (bld : Build) (junk : DdpUntaggedMeta) (hpc : s.ep.sendPc = .idle) :
    s.ep.sq = [] ∧ (s.enter bld (.send junk)).ep.sendPc = .idle ∨
      ∃ req, (s.enter bld (.send junk)).ep.sendPc = .transmit req := by
  have hturn := step_sendTurn bld junk (s.setConnected true)
  rw [Sys.enter]
  generalize txOf (.send junk) (s.setConnected true) = ts at hturn
  generalize step bld (.send junk) (s.setConnected true) = s' at hturn
  cases hturn with
  | @takes req => exact .inr ⟨req, rfl⟩
  | transmits t ht => cases hpc.symm.trans ht
  | completes hcompl => cases hpc.symm.trans hcompl
  | exits hidle hcon => cases hcon
  | rests h =>
    rcases h with ⟨-, -, hsq⟩ | hexit
    · exact .inl ⟨hsq, hpc⟩
    · cases hpc.symm.trans hexit

theorem Tx.after_ne_exited (t : Tx) : t.after ≠ .exited := by
  unfold Tx.after
  split <;> simp

theorem step_exited (bld : Build) (junk : DdpUntaggedMeta)
    (h : s.ep.sendPc = .exited → s.ep.connected = false) :
    (step bld (.send junk) s).ep.sendPc = .exited →
      (step bld (.send junk) s).ep.connected = false := by
  have hturn := step_sendTurn bld junk s
  generalize txOf (.send junk) s = ts at hturn
  generalize step bld (.send junk) s = s' at hturn
  cases hturn with
  | takes => simp
  | transmits t => exact fun hexit => absurd hexit t.after_ne_exited
  | completes => simp
  | exits hpc hcon => exact fun _ => hcon
  | rests => exact h

/-- `rnic_send` does not return while the stream is connected. -/
theorem rounds_exited (bld : Build) (l : Label × Producer) (x : Rounds)
    (h : x.sys.ep.sendPc = .exited → x.sys.ep.connected = false) :
    (Rounds.step bld l x).sys.ep.sendPc = .exited →
      (Rounds.step bld l x).sys.ep.connected = false := by
  obtain ⟨l, p⟩ := l
  intro hexit
  by_cases hl : ∃ junk, l = .send junk
  · obtain ⟨junk, rfl⟩ := hl
    have hmove := rounds_move bld (.send junk, p) x
    generalize Rounds.step bld (.send junk, p) x = x' at hmove hexit
    cases hmove with
    | checksSend => exact h hexit
    | entersSend hpc =>
      obtain ⟨-, hidle⟩ | ⟨req, hreq⟩ := enter_send (s := x.sys.turnTo p) bld junk hpc
      · cases hidle.symm.trans hexit
      · cases hreq.symm.trans hexit
    | movesSend => exact step_exited bld junk h hexit
    | calls hrecv hsend => exact absurd rfl (hsend junk)
  · rw [(rounds_sendPc bld (l := (l, p)) (fun junk h => hl ⟨junk, h⟩) x).1] at hexit
    exact rounds_disconnected bld (l, p) x (h hexit)

/-- While a request waits, each step of `rnic_send` brings the next message
    nearer, and the other threads leave `rnic_send` where it is. -/
theorem ahead_step (bld : Build) (l : Label × Producer) (x : Rounds)
    (hcon : x.sys.ep.connected = true) (hpc : x.sys.ep.sendPc ≠ .exited)
    (hwait : x.sys.ep.queued ≠ []) :
    (if l.1.isSend then 1 else 0) + (Rounds.step bld l x).ahead ≤
      x.ahead + 4 * (txOf l.1 x.sys).length := by
  obtain ⟨l, p⟩ := l
  by_cases hl : ∃ junk, l = .send junk
  · obtain ⟨junk, rfl⟩ := hl
    have hmove := rounds_move bld (.send junk, p) x
    generalize Rounds.step bld (.send junk, p) x = x' at hmove
    cases hmove with
    | checksSend hidle hin => simp [Rounds.ahead, hidle, hin, Label.isSend, txOf]
    | entersSend hidle hin =>
      obtain ⟨hsq, -⟩ | ⟨req, hreq⟩ := enter_send (s := x.sys.turnTo p) bld junk hidle
      · have hlen := (turnTo_queued p hidle).perm.length_eq
        simp only [Ep.queued, Sys.turnTo, hidle, SendPc.held, List.nil_append] at hsq hlen hwait
        rw [hsq] at hlen
        exact absurd (List.length_eq_zero_iff.mp hlen) hwait
      · simp [Rounds.ahead, hreq, hidle, hin, Label.isSend]
    | movesSend h =>
      have hbusy : x.sys.ep.sendPc ≠ .idle := fun hidle => by
        rw [hcon] at h
        cases (h hidle).2
      have hturn := step_sendTurn bld junk x.sys
      generalize txOf (.send junk) x.sys = ts at hturn
      generalize step bld (.send junk) x.sys = s' at hturn
      cases hturn with
      | takes hidle => exact absurd hidle hbusy
      | transmits t =>
        exact (Nat.add_le_add_left (Rounds.ahead_le _) 1).trans (Nat.le_add_left 4 x.ahead)
      | completes hcompl => simp [Rounds.ahead, hcompl, Label.isSend]
      | exits hidle => exact absurd hidle hbusy
      | rests hrest =>
        rcases hrest with ⟨hidle, -, -⟩ | hexit
        · exact absurd hidle hbusy
        · exact absurd hexit hpc
    | calls hrecv hsend => exact absurd rfl (hsend junk)
  · have hne : ∀ junk, l ≠ .send junk := fun junk h => hl ⟨junk, h⟩
    obtain ⟨hpc', hin⟩ := rounds_sendPc bld (l := (l, p)) hne x
    simp [Rounds.ahead, hpc', hin, Label.isSend_of_ne hne]

/-- While the stream is connected, either the send queue was empty at some time
    or `rnic_send` has sent a message in every four of its steps. -/
theorem empty_or_sent (bld : Build) {ls : List (Label × Producer)}
    (hcon : Admits (Rounds.step bld) (fun _ x => x.sys.ep.connected = true) ls x)
    (hpc : x.sys.ep.sendPc ≠ .exited) :
    (∃ pre, pre <+: ls ∧ (run (Rounds.step bld) pre x).sys.ep.queued = []) ∨
      ls.countP (fun l => l.1.isSend) ≤ 3 + 4 * (roundTxs bld ls x).length := by
  have hlive : Admits (Rounds.step bld)
      (fun _ x => x.sys.ep.connected = true ∧ x.sys.ep.sendPc ≠ .exited) ls x :=
    hcon.mono (rounds_exited bld) (fun _ x h hcon' => ⟨hcon', fun hexit => by
      rw [h hexit] at hcon'
      cases hcon'⟩) fun hexit => absurd hexit hpc
  obtain ⟨pre, hpre, hempty⟩ | hle := countP_le_trace (fun l : Label × Producer => l.1.isSend)
    (fun x : Rounds => x.sys.ep.queued ≠ []) Rounds.ahead 4
    (fun l x h => ahead_step bld l x h.1 h.2) hlive
  · exact .inl ⟨pre, hpre, not_not.mp hempty⟩
  · have hahead := x.ahead_le
    exact .inr (by rw [roundTxs]; omega)

/-- While the stream is connected, whatever the other threads do and to
    whichever producer `try_dequeue` turns: no request is lost or sent twice, and
    those of a producer are sent in their order. In `4 * k` steps of `rnic_send`
    `k` of the requests that wait, or as many others, are sent. In four steps for
    each request that waits or is queued in the run all that wait are sent, each
    producer's before any it queues later. -/
theorem requests_sent (bld : Build) {ls : List (Label × Producer)}
    (hcon : Admits (Rounds.step bld) (fun _ x => x.sys.ep.connected = true) ls x)
    (hpc : x.sys.ep.sendPc ≠ .exited) :
    SameOrder SendWr.producer (x.sys.ep.queued ++ roundQueued bld ls x)
        ((roundTxs bld ls x).map Tx.req ++ (run (Rounds.step bld) ls x).sys.ep.queued) ∧
      (∀ k ≤ x.sys.ep.queued.length, 4 * k ≤ ls.countP (fun l => l.1.isSend) →
        k ≤ (roundTxs bld ls x).length) ∧
      (4 * (x.sys.ep.queued.length + (roundQueued bld ls x).length) ≤
          ls.countP (fun l => l.1.isSend) →
        ∀ p, (x.sys.ep.queued.filter fun wr => wr.producer = p) <+:
          ((roundTxs bld ls x).map Tx.req).filter fun wr => wr.producer = p) := by
  have horder := rounds_order bld ls x
  have hsum := horder.perm.length_eq
  rw [List.length_append, List.length_append, List.length_map] at hsum
  have hempty : ∀ pre, pre <+: ls → (run (Rounds.step bld) pre x).sys.ep.queued = [] →
      ∀ p, (x.sys.ep.queued.filter fun wr => wr.producer = p) <+:
        ((roundTxs bld ls x).map Tx.req).filter fun wr => wr.producer = p := by
    rintro pre ⟨post, rfl⟩ hnone p
    have hpre := rounds_order bld pre x p
    rw [hnone, List.append_nil, List.filter_append] at hpre
    rw [roundTxs, trace_run_append, List.map_append, List.filter_append, ← roundTxs, ← hpre,
      List.append_assoc]
    exact List.prefix_append _ _
  refine ⟨horder, fun k hk hn => ?_, fun hn => ?_⟩
  · obtain ⟨pre, ⟨post, rfl⟩, hnone⟩ | hle := empty_or_sent bld hcon hpc
    · have hpre := (rounds_order bld pre x).perm.length_eq
      rw [hnone, List.append_nil, List.length_append, List.length_map] at hpre
      rw [roundTxs, trace_run_append, List.length_append, ← roundTxs]
      omega
    · omega
  · obtain ⟨pre, hpre, hnone⟩ | hle := empty_or_sent bld hcon hpc
    · exact hempty pre hpre hnone
    · exact hempty ls (List.prefix_refl ls) (List.length_eq_zero_iff.mp (by omega))

end

/-- Two Sends and the read response between them wait; `try_dequeue` turns to the
    response first, and a third Send is posted meanwhile. -/
theorem requests_sent_two :
    let bld : Build := ⟨false, false⟩
    let x : Rounds := ⟨run (step bld)
      [.post (sendWr 1), .recv, .recv, .recv, .recv, .post (sendWr 2)]
      (newSys (readReqMsg 1 ⟨1, 2, 3, 4, 5⟩)), false, false⟩
    let send : Label := .send ⟨0, 0, 0, 0, 0⟩
    let ls := List.replicate 4 (send, .rnicRecv) ++ [(.post (sendWr 3), .application)] ++
      List.replicate 12 (send, .application)
    [sendWr 1, sendWr 2] <+: ((roundTxs bld ls x).map Tx.req).filter
      fun wr => wr.producer = .application := by
  intro bld x send ls
  obtain ⟨-, -, hall⟩ := @requests_sent x bld ls (by decide +kernel) (by decide +kernel)
  have hsent := hall (by decide +kernel) .application
  have hqueued : (x.sys.ep.queued.filter fun wr => wr.producer = .application) =
      [sendWr 1, sendWr 2] := by decide +kernel
  rw [hqueued] at hsent
  exact hsent

end SoftUiWarp
