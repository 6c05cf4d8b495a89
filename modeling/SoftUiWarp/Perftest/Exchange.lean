import SoftUiWarp.Rdmap.Credits
import SoftUiWarp.Rdmap.LinkReads

/-!
# The exchange of buffers in perftest (`perftest/perftest.cpp`)

Before a benchmark starts each side sends the address and the STag of its buffer
(`struct send_data`) to the other in a Send: it posts a receive, meets the other
side in `sync_with_remote`, sends, and takes two completions from the queue that
its send and its receive queue share, the first in `rdmap_send_data` and the
second in `rdmap_recv_ack`, whichever they are.

The two programs take their steps between those of the threads of both streams
and of TCP, on the stream and on the socket for the synchronisation.

* `send` in `sync_with_remote` may take any part of the 8 bytes, or fail; `recv`
  returns any part of what has arrived and waits when nothing has.
* A completion dequeued is one more at the front that is done with; the queue of
  the model is not shortened.

A Send that is there before its receive would be lost. Here none is: a side is
past the synchronisation only when the other one has posted.

Results:
* `threads_recv`, `threads_send`: the threads while only Sends are posted.
* `OnSide.main`: the calls of a program.
* `exchanging_step`, `exchanging_run`: the invariant of the two programs.
* `exchange_delivers`: a side that is through has its receive completed, and in
  the buffer the bytes that the other side has sent.
-/

namespace SoftUiWarp

open ByteMem TcpStream Runs

/-! ## The program -/

/-- The variables of a side: the addresses of `my_sd` and `their_sd`, and what
    the source leaves uninitialised in the work requests. -/
structure Side where
  mySd : UInt64
  theirSd : UInt64
  sendLkey : UInt32
  recvLkey : UInt32
  invalidateRkey : UInt32
  remoteAddr : UInt64
  rkey : UInt32

/-- `sizeof(struct send_data)`. -/
def sendDataSize : UInt32 := 24

/-- `send_wr` with the list of `rdmap_send_data`. -/
def Side.sendWr (a : Side) : SendWr :=
  ⟨1, .user [⟨a.mySd, sendDataSize, a.sendLkey⟩], .send, a.invalidateRkey, a.remoteAddr, a.rkey⟩

/-- `recv_wr` with the list of `rdmap_recv_issue`. -/
def Side.recvWr (a : Side) : RecvWr := ⟨1901, [⟨a.theirSd, sendDataSize, a.recvLkey⟩]⟩

/-- Where `perftest_run` is in the exchange (lines 345–375). -/
inductive MainPc
  /-- `rdmap_recv_issue`, with the two queue operations of `rdma_post_recv`. -/
  | recvIssue
  | recvIssueWr
  /-- `sync_with_remote`. -/
  | syncSend
  | syncRecv
  /-- `rdmap_send_data`. -/
  | sendData
  | sendAck
  /-- `rdmap_recv_ack`. -/
  | recvAck
  | through
  deriving DecidableEq

/-- The place in the order of the program. -/
def MainPc.stage : MainPc → ℕ
  | .recvIssue => 0
  | .recvIssueWr => 1
  | .syncSend => 2
  | .syncRecv => 3
  | .sendData => 4
  | .sendAck => 5
  | .recvAck => 6
  | .through => 7

/-- The two streams with the two programs. -/
structure Perftest where
  link : Link
  pc : Role → MainPc
  /-- What each side has sent on `sync_sock`. -/
  sync : Role → Chan
  /-- How many completions the program has dequeued. -/
  polled : Role → ℕ

inductive PerfLabel
  | recv (r : Role)
  | send (r : Role) (junk : DdpUntaggedMeta)
  | deliver (r : Role) (k : ℕ)
  | syncDeliver (r : Role) (k : ℕ)
  /-- The program goes on; a call of `send` or `recv` takes `n` bytes. -/
  | main (r : Role) (n : ℕ)

def Perftest.goto (x : Perftest) (r : Role) (pc : MainPc) : Perftest :=
  { x with pc := Function.update x.pc r pc }

/-- `try_dequeue`, which is repeated until there is a completion. -/
def Perftest.dequeue (x : Perftest) (r : Role) (pc : MainPc) : Perftest :=
  if x.polled r < (x.link.host r).ep.cq.length then
    { x.goto r pc with polled := Function.update x.polled r (x.polled r + 1) }
  else x

/-- What a step of the program does besides its calls to the stream. -/
def Perftest.mainStep (x : Perftest) (r : Role) (n : ℕ) : Perftest :=
  match x.pc r with
  | .recvIssue => x.goto r .recvIssueWr
  | .recvIssueWr => x.goto r .syncSend
  | .syncSend =>
    { x.goto r .syncRecv with
      sync := Function.update x.sync r ((x.sync r).send (List.replicate (min n 8) 0)) }
  | .syncRecv =>
    if (x.sync r.peer).ready = [] then x
    else
      { x.goto r .sendData with
        sync := Function.update x.sync r.peer ((x.sync r.peer).read (min (max 1 n) 8)) }
  | .sendData => x.goto r .sendAck
  | .sendAck => x.dequeue r .recvAck
  | .recvAck => x.dequeue r .through
  | .through => x

/-- The calls of the program to the stream. -/
def mainCalls (a : Side) : MainPc → List Label
  | .recvIssue => [.postBuffers a.recvWr]
  | .recvIssueWr => [.postWr]
  | .sendData => [.post a.sendWr]
  | _ => []

/-- What a step does to the two streams. -/
def linkLabels (side : Role → Side) : PerfLabel → Perftest → List LinkLabel
  | .recv r, _ => [.act r .recv]
  | .send r junk, _ => [.act r (.send junk)]
  | .deliver r k, _ => [.deliver r k]
  | .syncDeliver _ _, _ => []
  | .main r _, x => acts r (mainCalls (side r) (x.pc r))

/-- What a step does besides. -/
def Perftest.control : PerfLabel → Perftest → Perftest
  | .main r n, x => x.mainStep r n
  | .syncDeliver r k, x => { x with sync := Function.update x.sync r ((x.sync r).deliver k) }
  | _, x => x

def Perftest.step (bld : Role → Build) (side : Role → Side) (l : PerfLabel) (x : Perftest) :
    Perftest :=
  { x.control l with link := run (Link.step bld) (linkLabels side l x) x.link }

/-- Both connections are set up, and nothing has been exchanged. -/
structure Perftest.New (x : Perftest) : Prop where
  link : x.link.New
  pc : ∀ r, x.pc r = .recvIssue
  sync : ∀ r, x.sync r = {}
  polled : ∀ r, x.polled r = 0

/-! ## The threads -/

/-- Of a host whose application posts nothing but `wr`: what is sent, what waits
    and what has been completed. -/
structure Threads (wr : SendWr) (sent : ℕ) (s : Sys) : Prop where
  queued : ∀ req ∈ s.ep.queued, req = wr
  response : s.ep.recvPc ≠ .enqResp
  read : ∀ wce, s.ep.recvPc ≠ .enqRead wce
  count : sent + s.ep.queued.length ≤ s.hist.reqs.length
  entries : s.ep.cq.length + s.ep.sendPc.owed.length ≤ sent + s.hist.recvDone.length

section

variable {bld : Build} {s : Sys} {wr : SendWr} {n : ℕ}

theorem Ep.length_enqCq (ep : Ep) (wce : WorkCompletion) :
    (ep.enqCq wce).cq.length = ep.cq.length + 1 := by
  rw [Ep.enqCq_cq, List.length_append, List.length_singleton]

theorem Ep.length_complete_le (ep : Ep) (req : SendWr) (ret : ℤ) :
    (ep.complete req ret).cq.length ≤ ep.cq.length + 1 := by
  unfold Ep.complete
  dsimp only
  split
  · simp [Ep.enqPending, Ep.cq]
  · exact (ep.length_enqCq _).le

/-- A Send at the switch: the queues of the sender are left alone. -/
theorem dispatch_send_cq (bld : Build) (ret : ℤ) {ep : Ep} (hop : ep.opcode = some .send) :
    (ep.dispatch bld ret).cq = ep.cq ∧ (ep.dispatch bld ret).recvPc ≠ .enqResp ∧
      ∀ wce, (ep.dispatch bld ret).recvPc ≠ .enqRead wce := by
  have hd := dispatch_cases bld ep ret
  generalize ep.dispatch bld ret = ep' at hd ⊢
  cases hd with
  | request h =>
    rw [hop] at h
    cases h
  | response h =>
    rw [hop] at h
    cases h
  | @send op tags =>
    obtain ⟨-, heq⟩ | ⟨w, ws, -, heq⟩ := takeRecv_cases (ep.withTags tags) ret op
    · rw [heq]
      exact ⟨rfl, by simp, by simp⟩
    · rw [heq]
      exact ⟨rfl, by simp, by simp⟩
  | ended tags con hend => exact ⟨rfl, by cases hend <;> simp, by cases hend <;> simp⟩

theorem threads_recv (bld : Build) (h : Threads wr n s)
    (hop : ∀ ret, s.ep.recvPc = .dispatch ret → s.ep.opcode = some .send) :
    Threads wr n (step bld .recv s) ∧ s.ep.cq.length ≤ (step bld .recv s).ep.cq.length := by
  obtain ⟨hsq, hpc, -⟩ := step_sq bld (l := .recv) (by simp) s
  have hqueued : (step bld .recv s).ep.queued = s.ep.queued := by
    rw [Ep.queued, Ep.queued, hpc, hsq, queuedBy, Ep.filled_of_ne h.response, List.append_nil]
  have hreqs : (step bld .recv s).hist.reqs = s.hist.reqs := History.recv_reqs bld s.ep s.hist
  have next (hresp : (step bld .recv s).ep.recvPc ≠ .enqResp)
      (hread : ∀ wce, (step bld .recv s).ep.recvPc ≠ .enqRead wce)
      {k : ℕ} (hcq : (step bld .recv s).ep.cq.length = s.ep.cq.length + k)
      (hdone : (step bld .recv s).hist.recvDone.length = s.hist.recvDone.length + k) :
      Threads wr n (step bld .recv s) ∧ s.ep.cq.length ≤ (step bld .recv s).ep.cq.length := by
    refine ⟨⟨by rw [hqueued]; exact h.queued, hresp, hread, ?_, ?_⟩, hcq ▸ Nat.le_add_right _ _⟩
    · rw [hqueued, hreqs]
      exact h.count
    · have hentries := h.entries
      rw [hpc]
      omega
  have hturn := step_recvTurn bld s
  generalize rxOf .recv s = new at hturn
  generalize step bld .recv s = s' at hturn next
  cases hturn with
  | reads hpc hpc' =>
    refine next (fun he => ?_) (fun wce he => ?_) (Nat.add_zero _).symm (Nat.add_zero _).symm
    · simp only at he
      rw [he] at hpc'
      exact hpc'
    · simp only at he
      rw [he] at hpc'
      exact hpc'
  | receives => exact next (by simp) (by simp) (Nat.add_zero _).symm (Nat.add_zero _).symm
  | @dispatches ret hpc =>
    obtain ⟨hcq, hresp, hread⟩ := dispatch_send_cq bld ret (hop ret hpc)
    have hdone : (s.hist.recv bld s.ep).recvDone = s.hist.recvDone := by
      simp only [History.recv, hpc]
      split
      · rfl
      · rfl
      · split <;> rfl
    refine next hresp hread (k := 0) ?_ ?_
    · rw [hcq, Nat.add_zero]
    · rw [hdone, Nat.add_zero]
  | answers hpc => exact absurd hpc h.response
  | completesRead hpc => exact absurd hpc (h.read _)
  | @completesRecv wce hpc =>
    refine next (by simp) (by simp) (s.ep.length_enqCq wce) ?_
    rw [List.length_append, List.length_singleton]

theorem threads_send (h : Threads wr n s) (hwr : wr.opcode = .send) (junk : DdpUntaggedMeta) :
    Threads wr (n + (msgOf (.send junk) s).length) (step bld (.send junk) s) := by
  obtain ⟨-, -, hpc, -⟩ := rnicSendStep_keeps junk s.st s.ep
  have hpc' : (step bld (.send junk) s).ep.recvPc = s.ep.recvPc := hpc
  have hqueued := step_queued bld (.send junk) s
  have hby : queuedBy (.send junk) s = [] := rfl
  rw [hby, List.append_nil] at hqueued
  have hreqs : (step bld (.send junk) s).hist.reqs = s.hist.reqs := History.send_reqs s.hist junk s.st s.ep
  have hdone : (step bld (.send junk) s).hist.recvDone = s.hist.recvDone :=
    (History.send_receives s.hist junk s.st s.ep).2.2.2
  have hle : (msgOf (.send junk) s).length ≤ (txOf (.send junk) s).length := List.length_filter_le _ _
  refine ⟨fun req hreq => h.queued req ?_, ?_, ?_, ?_, ?_⟩
  · rw [hqueued]
    exact List.mem_append_right _ hreq
  · rw [hpc']
    exact h.response
  · rw [hpc']
    exact h.read
  · have hcount := h.count
    rw [hqueued, List.length_append, List.length_map] at hcount
    rw [hreqs]
    omega
  · have hentries := h.entries
    rw [hdone]
    have hturn := step_sendTurn bld junk s
    have hmsg : msgOf (.send junk) s = (txOf (.send junk) s).filter fun t => t.call.isSome := rfl
    rw [hmsg]
    generalize txOf (.send junk) s = new at hturn ⊢
    generalize step bld (.send junk) s = s' at hturn ⊢
    cases hturn with
    | takes hpc =>
      rw [hpc] at hentries
      exact hentries
    | @transmits req t hpc ht =>
      have hreq : t.req = wr := by
        rw [ht]
        exact h.queued req (by simp [Ep.queued, hpc, SendPc.held])
      have hcall : t.call.isSome = true := by
        simp [Tx.call, Job.call, Tx.job, hreq, hwr]
      have howed : t.after.owed.length ≤ 1 := by
        unfold Tx.after
        split
        · exact le_rfl
        · exact Nat.zero_le _
      have hone : ([t].filter fun t => t.call.isSome) = [t] := by simp [hcall]
      rw [hone]
      show s.ep.cq.length + t.after.owed.length ≤ _
      have hnone : s.ep.sendPc.owed.length = 0 := by
        rw [hpc]
        rfl
      rw [List.length_singleton]
      omega
    | @completes req ret hpc =>
      have hcomp := s.ep.length_complete_le req ret
      show (s.ep.complete req ret).cq.length + 0 ≤ _
      rw [hpc] at hentries
      simp only [SendPc.owed, List.length_singleton, List.filter_nil, List.length_nil] at hentries ⊢
      omega
    | exits hpc =>
      rw [hpc] at hentries
      exact hentries
    | rests => exact hentries

end

/-! ## One side -/

/-- What a side has done when its program is at `pc`. -/
structure OnSide (a : Side) (pc : MainPc) (k : ℕ) (sent : List Tx) (s : Sys) : Prop where
  reqs : s.hist.reqs = if 5 ≤ pc.stage then [a.sendWr] else []
  posted : s.hist.posted = if 1 ≤ pc.stage then [a.recvWr] else []
  posting : s.posting = if pc.stage = 1 then some a.recvWr else none
  threads : Threads a.sendWr sent.length s
  sent : ∀ t ∈ sent, t.req = a.sendWr
  polled : k = pc.stage - 5
  taken : k ≤ s.ep.cq.length

section

variable {bld : Build} {a : Side} {pc : MainPc} {k n : ℕ} {sent : List Tx} {s : Sys}

theorem length_cq_send (bld : Build) (junk : DdpUntaggedMeta) (s : Sys) :
    s.ep.cq.length ≤ (step bld (.send junk) s).ep.cq.length := by
  have hturn := step_sendTurn bld junk s
  generalize txOf (.send junk) s = new at hturn
  generalize step bld (.send junk) s = s' at hturn ⊢
  cases hturn with
  | completes hpc =>
    show _ ≤ (s.ep.complete _ _).cq.length
    unfold Ep.complete
    dsimp only
    split
    · simp [Ep.enqPending, Ep.cq]
    · rw [Ep.length_enqCq]
      exact Nat.le_succ _
  | _ => exact Nat.le_refl s.ep.cq.length

theorem OnSide.recv (h : OnSide a pc k sent s)
    (hop : ∀ ret, s.ep.recvPc = .dispatch ret → s.ep.opcode = some .send) :
    OnSide a pc k sent (step bld .recv s) := by
  obtain ⟨hthreads, hcq⟩ := threads_recv bld h.threads hop
  exact {
    reqs := (History.recv_reqs bld s.ep s.hist).trans h.reqs
    posted := (History.recv_posted bld s.ep s.hist).trans h.posted
    posting := h.posting
    threads := hthreads
    sent := h.sent
    polled := h.polled
    taken := h.taken.trans hcq }

theorem Threads.req_eq (h : Threads a.sendWr n s) {t : Tx} {l : Label} (ht : t ∈ txOf l s) :
    t.req = a.sendWr := by
  have hqueued := step_queued ⟨false, false⟩ l s
  by_cases hl : ∃ junk, l = .send junk
  · obtain ⟨junk, rfl⟩ := hl
    have hby : queuedBy (.send junk) s = [] := rfl
    rw [hby, List.append_nil] at hqueued
    refine h.queued t.req ?_
    rw [hqueued]
    exact List.mem_append_left _ (List.mem_map_of_mem ht)
  · rw [txOf_of_ne (fun junk hj => hl ⟨junk, hj⟩)] at ht
    cases ht

theorem OnSide.send (h : OnSide a pc k sent s) (junk : DdpUntaggedMeta) :
    OnSide a pc k (sent ++ msgOf (.send junk) s) (step bld (.send junk) s) := by
  obtain ⟨hposted, -⟩ := History.send_receives s.hist junk s.st s.ep
  exact {
    reqs := (History.send_reqs s.hist junk s.st s.ep).trans h.reqs
    posted := hposted.trans h.posted
    posting := h.posting
    threads := by
      rw [List.length_append]
      exact threads_send h.threads rfl junk
    sent := fun t ht => by
      rcases List.mem_append.mp ht with ht | ht
      · exact h.sent t ht
      · exact h.threads.req_eq (List.mem_of_mem_filter ht)
    polled := h.polled
    taken := h.taken.trans (length_cq_send bld junk s) }

theorem OnSide.deliver (h : OnSide a pc k sent s) (bs : List UInt8) :
    OnSide a pc k sent (s.deliver bs) :=
  ⟨h.reqs, h.posted, h.posting,
    ⟨h.threads.queued, h.threads.response, h.threads.read, h.threads.count, h.threads.entries⟩,
    h.sent, h.polled, h.taken⟩

/-- The program goes on, with its calls. -/
theorem OnSide.main (h : OnSide a pc k sent s) {pc' : MainPc} {k' : ℕ}
    (hpc : pc'.stage = pc.stage + 1) (hpolled : k' = pc'.stage - 5)
    (htaken : k' ≤ s.ep.cq.length) :
    OnSide a pc' k' sent (run (step bld) (mainCalls a pc) s) := by
  have hreqs := h.reqs
  have hposted := h.posted
  have hposting := h.posting
  have ht := h.threads
  cases pc with
  | recvIssue =>
    have hnone : s.posting = none := hposting
    simp only [mainCalls, run, List.foldl_cons, List.foldl_nil, step, hnone]
    refine ⟨?_, ?_, ?_, ⟨ht.queued, ht.response, ht.read, ht.count, ht.entries⟩, h.sent, hpolled, htaken⟩
    · rw [hpc]
      simpa [MainPc.stage] using hreqs
    · rw [hpc]
      simpa [MainPc.stage] using hposted
    · rw [hpc]
      simp [MainPc.stage]
  | recvIssueWr =>
    have hsome : s.posting = some a.recvWr := hposting
    simp only [mainCalls, run, List.foldl_cons, List.foldl_nil, step, hsome]
    refine ⟨?_, ?_, ?_, ⟨ht.queued, ht.response, ht.read, ht.count, ht.entries⟩, h.sent, hpolled, htaken⟩
    · rw [hpc]
      simpa [MainPc.stage] using hreqs
    · rw [hpc]
      simpa [MainPc.stage] using hposted
    · rw [hpc]
      simp [MainPc.stage]
  | sendData =>
    simp only [mainCalls, run, List.foldl_cons, List.foldl_nil, step]
    refine ⟨?_, ?_, ?_, ⟨fun req hreq => ?_, ht.response, ht.read, ?_, ht.entries⟩, h.sent, hpolled,
      htaken⟩
    · rw [hpc]
      simpa [MainPc.stage] using hreqs
    · rw [hpc]
      simpa [MainPc.stage] using hposted
    · rw [hpc]
      simpa [MainPc.stage] using hposting
    · have hmem : req ∈ s.ep.queued ++ [a.sendWr] := by
        rw [Ep.queued, List.append_assoc]
        exact hreq
      rcases List.mem_append.mp hmem with hmem | hmem
      · exact ht.queued req hmem
      · exact List.mem_singleton.mp hmem
    · have hcount := ht.count
      rw [Ep.queued, List.length_append] at hcount
      simp only [Ep.queued, rdmapPost, List.length_append, List.length_singleton]
      omega
  | _ =>
    show OnSide a pc' k' sent s
    refine ⟨?_, ?_, ?_, ht, h.sent, hpolled, htaken⟩
    · rw [hpc]
      simpa [MainPc.stage] using hreqs
    · rw [hpc]
      simpa [MainPc.stage] using hposted
    · rw [hpc]
      simpa [MainPc.stage] using hposting

end

/-! ## The two sides -/

/-- The invariant of the exchange. A side that has met the other one has sent
    after the other has posted its receive. -/
structure Exchanging (side : Role → Side) (x : Perftest) (sent : Role → List Tx)
    (rxs : Role → List Rx) : Prop where
  own : ∀ r, OnSide (side r) (x.pc r) (x.polled r) (sent r) (x.link.host r)
  flow : ∀ r, Flow r (sent r) (rxs r.peer) x.link
  quiet : ∀ r, (x.pc r).stage ≤ 2 → (x.sync r).all = []
  met : ∀ r, 4 ≤ (x.pc r).stage → 3 ≤ (x.pc r.peer).stage

section

variable {bld : Role → Build} {side : Role → Side} {x : Perftest} {sent : Role → List Tx}
  {rxs : Role → List Rx}

theorem exists_of_delivered {ts : List Tx} {rs : List Rx} (h : List.Forall₂ Delivered ts rs) :
    ∀ rx ∈ rs, ∃ t ∈ ts, Delivered t rx := by
  induction h with
  | nil => simp
  | @cons t rx ts rs hd _ ih =>
    intro rx' hrx
    rcases List.mem_cons.mp hrx with rfl | hrx
    · exact ⟨t, List.mem_cons_self, hd⟩
    · obtain ⟨t', ht', hd'⟩ := ih rx' hrx
      exact ⟨t', List.mem_cons_of_mem t ht', hd'⟩

/-- Only Sends are received. -/
theorem Exchanging.opcode (h : Exchanging side x sent rxs) (q : Role) {ret : ℤ}
    (hpc : (x.link.host q).ep.recvPc = .dispatch ret) : (x.link.host q).ep.opcode = some .send := by
  have hflow := h.flow q.peer
  have hmatched := hflow.matched
  obtain ⟨got, rest, heq, hgot, -⟩ := hflow.way
  rw [q.peer_peer] at hmatched hgot
  obtain ⟨pre, rx, hrxs, hmsg⟩ := hmatched.last ret hpc
  obtain ⟨t, ht, hd⟩ := exists_of_delivered hgot rx (by simp [hrxs])
  have hreq : t.req = (side q.peer).sendWr := (h.own q.peer).sent t (heq ▸ List.mem_append_left _ ht)
  have hop := hd.opcode.1
  rw [Rx.opcode, hmsg, hreq] at hop
  exact hop

theorem sound_of_sendWr {t : Tx} {a : Side} (ht : t.req = a.sendWr) : ∀ c ∈ t.call, c.Sound := by
  intro c hc
  have hcall : t.call = some (.untagged t.job.mem (t.job.untaggedHdr t.st .send) t.job.sges) := by
    simp only [Tx.call, Job.call, Tx.job, ht, Side.sendWr]
  rw [hcall] at hc
  obtain rfl := Option.some.inj hc
  have hsges : t.job.sges = [⟨a.mySd, sendDataSize, a.sendLkey⟩] := by
    simp only [Tx.job, Ep.sges, ht, Side.sendWr]
  refine ⟨fun sg hsg => ?_, ⟨⟨a.mySd, sendDataSize, a.sendLkey⟩, ?_, ?_⟩⟩
  · have hsg' : sg ∈ t.job.sges := hsg
    rw [hsges] at hsg'
    obtain rfl := List.mem_singleton.mp hsg'
    show sendDataSize.toNat < 2 ^ 31
    decide
  · show t.job.sges.getLast? = _
    rw [hsges]
    rfl
  · show 0 < sendDataSize.toNat
    decide

theorem linkLabels_cases (side : Role → Side) (l : PerfLabel) (x : Perftest) :
    linkLabels side l x = [] ∨ ∃ k, linkLabels side l x = [k] := by
  cases l with
  | syncDeliver r k => exact .inl rfl
  | main r n =>
    simp only [linkLabels]
    cases x.pc r with
    | recvIssue | recvIssueWr | sendData => exact .inr ⟨_, rfl⟩
    | _ => exact .inl rfl
  | _ => exact .inr ⟨_, rfl⟩

/-- A side sends only when the other one has posted its receive. -/
theorem Exchanging.creditRun (h : Exchanging side x sent rxs) {l : PerfLabel} {k : LinkLabel}
    (hk : linkLabels side l x = [k]) (r : Role) : CreditRun r k x.link := by
  have act {q : Role} {m : Label} (hsound : ∀ t ∈ txOf m (x.link.host q), t.req = (side q).sendWr)
      (hpost : ∀ wr, m = .postBuffers wr → wr = (side q).recvWr)
      (hsend : ∀ wr, m = .post wr → x.pc q = .sendData) : CreditRun r (.act q m) x.link := by
    refine ⟨fun t ht => sound_of_sendWr (hsound t ht), fun hq => ?_, ?_⟩
    · cases m with
      | postBuffers wr =>
        obtain rfl := hpost wr rfl
        rfl
      | _ => trivial
    · cases m with
      | post wr =>
        rintro rfl -
        have hpc := hsend wr rfl
        have hreqs := (h.own q).reqs
        have hmet := h.met q (by rw [hpc]; decide)
        have hposted := (h.own q.peer).posted
        have hposting := (h.own q.peer).posting
        rw [hpc] at hreqs
        rw [if_pos (by omega)] at hposted
        rw [if_neg (by omega)] at hposting
        rw [Sys.sendsPosted, Sys.recvsPosted, hreqs, hposted, hposting]
        simp [MainPc.stage]
      | _ => trivial
  cases l with
  | recv q =>
    obtain rfl := List.singleton_inj.mp hk
    exact act (by simp [txOf]) (by simp) (by simp)
  | send q junk =>
    obtain rfl := List.singleton_inj.mp hk
    exact act (fun t ht => (h.own q).threads.req_eq ht) (by simp) (by simp)
  | deliver q n =>
    obtain rfl := List.singleton_inj.mp hk
    exact ⟨trivial, trivial, trivial⟩
  | syncDeliver q n => cases hk
  | main q n =>
    simp only [linkLabels] at hk
    cases hpc : x.pc q with
    | recvIssue =>
      rw [hpc] at hk
      obtain rfl := List.singleton_inj.mp hk
      exact act (by simp [txOf]) (by simp) (by simp)
    | recvIssueWr =>
      rw [hpc] at hk
      obtain rfl := List.singleton_inj.mp hk
      exact act (by simp [txOf]) (by simp) (by simp)
    | sendData =>
      rw [hpc] at hk
      obtain rfl := List.singleton_inj.mp hk
      exact act (by simp [txOf]) (by simp) (fun _ _ => hpc)
    | _ =>
      rw [hpc] at hk
      cases hk

theorem run_acts_host (q : Role) (ms : List Label) (w : Link) :
    (run (Link.step bld) (acts q ms) w).host q = run (step (bld q)) ms (w.host q) := by
  induction ms generalizing w with
  | nil => rfl
  | cons m ms ih =>
    show (run (Link.step bld) (acts q ms) (Link.step bld (.act q m) w)).host q = _
    rw [ih, Link.act_host]
    rfl

theorem run_acts_host_of_ne {q r : Role} (hr : r ≠ q) (ms : List Label) (w : Link) :
    (run (Link.step bld) (acts q ms) w).host r = w.host r := by
  induction ms generalizing w with
  | nil => rfl
  | cons m ms ih =>
    show (run (Link.step bld) (acts q ms) (Link.step bld (.act q m) w)).host r = _
    rw [ih, Link.act_host_of_ne bld w m hr]

/-- Sends are handed to the thread, which sends them. -/
theorem linkTxs_main (r q : Role) (a : Side) (pc : MainPc) (w : Link) :
    linkTxs bld r (acts q (mainCalls a pc)) w = [] := by
  have one {m : Label} (hm : ∀ junk, m ≠ .send junk) : linkTxs bld r (acts q [m]) w = [] := by
    show onHost r msgOf (.act q m) w ++ [] = []
    rw [List.append_nil]
    simp only [onHost, msgOf, txOf_of_ne hm, List.filter_nil, ite_self]
  cases pc with
  | recvIssue | recvIssueWr | sendData => exact one (by simp)
  | _ => rfl

theorem Exchanging.links (bld : Role → Build) (h : Exchanging side x sent rxs) (l : PerfLabel)
    (r : Role) :
    Flow r (sent r ++ linkTxs bld r (linkLabels side l x) x.link)
      (rxs r.peer ++ linkRxs bld r.peer (linkLabels side l x) x.link)
      (run (Link.step bld) (linkLabels side l x) x.link) := by
  refine trace_invariant₂ (I := Flow r) (fun _ _ _ _ hg hf => hf.step hg) (h.flow r) ?_
  obtain hnil | ⟨k, hk⟩ := linkLabels_cases side l x
  · rw [hnil]
    trivial
  · rw [hk]
    exact ⟨h.creditRun hk r, trivial⟩

/-- The invariant after a step, with the messages that the step sends and
    receives. -/
def After (bld : Role → Build) (side : Role → Side) (l : PerfLabel) (x : Perftest)
    (sent : Role → List Tx) (rxs : Role → List Rx) : Prop :=
  Exchanging side (Perftest.step bld side l x)
    (fun r => sent r ++ linkTxs bld r (linkLabels side l x) x.link)
    (fun r => rxs r ++ linkRxs bld r (linkLabels side l x) x.link)

/-- The program of `q` goes on to `pc`. -/
theorem Exchanging.goes (h : Exchanging side x sent rxs) {q : Role} {n : ℕ} (pc : MainPc) (k : ℕ)
    (sync : Role → Chan)
    (hstep : x.mainStep q n =
      ⟨x.link, Function.update x.pc q pc, sync, Function.update x.polled q k⟩)
    (hpc : pc.stage = (x.pc q).stage + 1) (hk : k = pc.stage - 5)
    (hcq : k ≤ (x.link.host q).ep.cq.length)
    (hsync : ∀ r, r ≠ q ∨ pc.stage ≠ 3 → (sync r).all = (x.sync r).all)
    (hmet : pc.stage = 4 → 3 ≤ (x.pc q.peer).stage) : After bld side (.main q n) x sent rxs := by
  have hlinks := h.links bld (.main q n)
  simp only [After, Perftest.step, Perftest.control, hstep]
  refine ⟨fun r => ?_, hlinks, fun r hr => ?_, fun r hr => ?_⟩
  · have htxs : linkTxs bld r (linkLabels side (.main q n) x) x.link = [] := linkTxs_main r q _ _ _
    rw [htxs, List.append_nil]
    show OnSide (side r) (Function.update x.pc q pc r) (Function.update x.polled q k r) (sent r)
      ((run (Link.step bld) (acts q (mainCalls (side q) (x.pc q))) x.link).host r)
    by_cases hr : r = q
    · subst hr
      rw [Function.update_self, Function.update_self, run_acts_host]
      exact (h.own r).main hpc hk hcq
    · rw [Function.update_of_ne hr, Function.update_of_ne hr, run_acts_host_of_ne hr]
      exact h.own r
  · show (sync r).all = []
    replace hr : (Function.update x.pc q pc r).stage ≤ 2 := hr
    by_cases hq : r = q
    · subst hq
      rw [Function.update_self] at hr
      rw [hsync r (.inr (by omega))]
      exact h.quiet r (by omega)
    · rw [Function.update_of_ne hq] at hr
      rw [hsync r (.inl hq)]
      exact h.quiet r hr
  · show 3 ≤ (Function.update x.pc q pc r.peer).stage
    replace hr : 4 ≤ (Function.update x.pc q pc r).stage := hr
    rcases q.eq_or_eq_peer r with rfl | rfl
    · rw [Function.update_self] at hr
      rw [Function.update_of_ne r.peer_ne]
      by_cases h4 : pc.stage = 4
      · exact hmet h4
      · exact h.met r (by omega)
    · rw [Function.update_of_ne q.peer_ne] at hr
      rw [q.peer_peer, Function.update_self]
      have hq := h.met q.peer hr
      rw [q.peer_peer] at hq
      omega

theorem Exchanging.waits (h : Exchanging side x sent rxs) {q : Role} {n : ℕ}
    (hcalls : mainCalls (side q) (x.pc q) = []) (hstep : x.mainStep q n = x) :
    After bld side (.main q n) x sent rxs := by
  have hnil : linkLabels side (.main q n) x = [] := by
    simp only [linkLabels, hcalls]
    rfl
  simp only [After, Perftest.step, Perftest.control, hstep, hnil, linkTxs, linkRxs, trace,
    List.append_nil]
  exact h

theorem Exchanging.calls (h : Exchanging side x sent rxs) {q : Role} {n : ℕ} (pc : MainPc)
    (hstep : x.mainStep q n = x.goto q pc) (hpc : pc.stage = (x.pc q).stage + 1)
    (h5 : pc.stage ≤ 5) (h4 : pc.stage ≠ 4) : After bld side (.main q n) x sent rxs := by
  have hpolled := (h.own q).polled
  refine h.goes pc (x.polled q) x.sync ?_ hpc (by omega) (h.own q).taken (fun _ _ => rfl)
    fun h => absurd h h4
  rw [hstep, Function.update_eq_self]
  rfl

theorem Exchanging.polls (h : Exchanging side x sent rxs) {q : Role} {n : ℕ} (pc : MainPc)
    (hstep : x.mainStep q n = x.dequeue q pc) (hcalls : mainCalls (side q) (x.pc q) = [])
    (hpc : pc.stage = (x.pc q).stage + 1) (h6 : 6 ≤ pc.stage) :
    After bld side (.main q n) x sent rxs := by
  have hpolled := (h.own q).polled
  unfold Perftest.dequeue at hstep
  split at hstep
  · exact h.goes pc (x.polled q + 1) x.sync hstep hpc (by omega) ‹_› (fun _ _ => rfl) (by omega)
  · exact h.waits hcalls hstep

/-- A step of the program of `q`. -/
theorem Exchanging.main (h : Exchanging side x sent rxs) (q : Role) (n : ℕ) :
    After bld side (.main q n) x sent rxs := by
  have hpolled := (h.own q).polled
  have htaken := (h.own q).taken
  cases hpc : x.pc q with
  | recvIssue =>
    exact h.calls .recvIssueWr (by simp only [Perftest.mainStep, hpc]) (by rw [hpc]; rfl) (by decide)
      (by decide)
  | recvIssueWr =>
    exact h.calls .syncSend (by simp only [Perftest.mainStep, hpc]) (by rw [hpc]; rfl) (by decide)
      (by decide)
  | syncSend =>
    refine h.goes .syncRecv (x.polled q)
      (Function.update x.sync q ((x.sync q).send (List.replicate (min n 8) 0))) ?_ (by rw [hpc]; rfl)
      (by rw [hpolled, hpc]; rfl) htaken (fun r hr => ?_) (by simp [MainPc.stage])
    · rw [Function.update_eq_self]
      simp only [Perftest.mainStep, hpc]
      rfl
    · rw [Function.update_of_ne (hr.resolve_right (by simp [MainPc.stage]))]
  | syncRecv =>
    by_cases hready : (x.sync q.peer).ready = []
    · exact h.waits (by rw [hpc]; rfl) (by simp only [Perftest.mainStep, hpc, if_pos hready])
    · refine h.goes .sendData (x.polled q)
        (Function.update x.sync q.peer ((x.sync q.peer).read (min (max 1 n) 8))) ?_ (by rw [hpc]; rfl)
        (by rw [hpolled, hpc]; rfl) htaken (fun r _ => ?_) fun _ => ?_
      · rw [Function.update_eq_self]
        simp only [Perftest.mainStep, hpc, if_neg hready]
        rfl
      · by_cases hr : r = q.peer
        · subst hr
          rw [Function.update_self, Chan.all_read]
        · rw [Function.update_of_ne hr]
      · -- the bytes are there because the peer has sent them
        by_contra hlt
        have hall := h.quiet q.peer (by omega)
        rw [Chan.all, List.append_eq_nil_iff, List.append_eq_nil_iff] at hall
        exact hready hall.1.2
  | sendData =>
    exact h.calls .sendAck (by simp only [Perftest.mainStep, hpc]) (by rw [hpc]; rfl) (by decide)
      (by decide)
  | sendAck =>
    exact h.polls .recvAck (by simp only [Perftest.mainStep, hpc]) (by rw [hpc]; rfl) (by rw [hpc]; rfl)
      (by decide)
  | recvAck =>
    exact h.polls .through (by simp only [Perftest.mainStep, hpc]) (by rw [hpc]; rfl) (by rw [hpc]; rfl)
      (by decide)
  | through => exact h.waits (by rw [hpc]; rfl) (by simp only [Perftest.mainStep, hpc])

/-- What a step of the two programs, the threads or TCP preserves. -/
theorem exchanging_step (bld : Role → Build) (l : PerfLabel) (h : Exchanging side x sent rxs) :
    After bld side l x sent rxs := by
  have hlinks := h.links bld l
  cases l with
  | recv q =>
    refine ⟨fun r => ?_, hlinks, h.quiet, h.met⟩
    show OnSide _ _ _ (sent r ++ (onHost r msgOf (.act q .recv) x.link ++ []))
      ((Link.step bld (.act q .recv) x.link).host r)
    have hnone : onHost r msgOf (.act q .recv) x.link = [] := by
      simp [onHost, msgOf, txOf]
    rw [hnone, List.append_nil, List.append_nil]
    by_cases hr : r = q
    · subst hr
      rw [Link.act_host]
      exact (h.own r).recv fun ret hret => h.opcode r hret
    · rw [Link.act_host_of_ne bld x.link .recv hr]
      exact h.own r
  | send q junk =>
    refine ⟨fun r => ?_, hlinks, h.quiet, h.met⟩
    show OnSide _ _ _ (sent r ++ (onHost r msgOf (.act q (.send junk)) x.link ++ []))
      ((Link.step bld (.act q (.send junk)) x.link).host r)
    rw [List.append_nil]
    by_cases hr : r = q
    · subst hr
      rw [Link.act_host]
      have hown : onHost r msgOf (.act r (.send junk)) x.link = msgOf (.send junk) (x.link.host r) :=
        if_pos rfl
      rw [hown]
      exact (h.own r).send junk
    · rw [Link.act_host_of_ne bld x.link (.send junk) hr]
      have hnone : onHost r msgOf (.act q (.send junk)) x.link = [] := if_neg (Ne.symm hr)
      rw [hnone, List.append_nil]
      exact h.own r
  | deliver q n =>
    refine ⟨fun r => ?_, hlinks, h.quiet, h.met⟩
    show OnSide _ _ _ (sent r ++ []) ((Link.step bld (.deliver q n) x.link).host r)
    rw [List.append_nil]
    by_cases hr : r = q.peer
    · subst hr
      rw [Link.deliver_host]
      exact (h.own q.peer).deliver _
    · rw [Link.deliver_host_of_ne bld x.link n hr]
      exact h.own r
  | syncDeliver q n =>
    refine ⟨fun r => ?_, hlinks, fun r hr => ?_, h.met⟩
    · show OnSide _ _ _ (sent r ++ []) (x.link.host r)
      rw [List.append_nil]
      exact h.own r
    · have hall := h.quiet r hr
      show (Function.update x.sync q ((x.sync q).deliver n) r).all = []
      by_cases hq : r = q
      · subst hq
        rw [Function.update_self, Chan.all_deliver]
        exact hall
      · rw [Function.update_of_ne hq]
        exact hall
  | main q n => exact h.main q n

theorem Perftest.New.exchanging (side : Role → Side) (hx : x.New) :
    Exchanging side x (fun _ => []) (fun _ => []) where
  own r := by
    have hs := hx.link.stream r
    rw [hx.pc r, hx.polled r]
    refine ⟨?_, ?_, hs.posting, ⟨?_, ?_, ?_, ?_, ?_⟩, by simp, rfl, Nat.zero_le _⟩
    · rw [hs.hist]
      rfl
    · rw [hs.hist]
      rfl
    · simp [Ep.queued, hs.sendPc, hs.sq, SendPc.held]
    · simp [hs.recvPc]
    · simp [hs.recvPc]
    · simp [Ep.queued, hs.sendPc, hs.sq, SendPc.held]
    · simp [Ep.cq, hs.cqs, hs.sendPc, SendPc.owed]
  flow r := hx.link.flow r
  quiet r _ := by
    rw [hx.sync r]
    rfl
  met r h := by
    rw [hx.pc r] at h
    cases h

end

/-! ## Runs -/

/-- What the steps of a run do to the two streams, in order. -/
def streamsOf (bld : Role → Build) (side : Role → Side) (ls : List PerfLabel) (x : Perftest) :
    List LinkLabel :=
  trace (Perftest.step bld side) (linkLabels side) ls x

theorem exchanging_run (bld : Role → Build) {side : Role → Side} (ls : List PerfLabel) {x : Perftest}
    {sent : Role → List Tx} {rxs : Role → List Rx} (h : Exchanging side x sent rxs) :
    Exchanging side (run (Perftest.step bld side) ls x)
      (fun r => sent r ++ linkTxs bld r (streamsOf bld side ls x) x.link)
      (fun r => rxs r ++ linkRxs bld r (streamsOf bld side ls x) x.link) := by
  induction ls generalizing x sent rxs with
  | nil =>
    simp only [streamsOf, trace, linkTxs, linkRxs, List.append_nil]
    exact h
  | cons l ls ih =>
    have hrest := ih (exchanging_step bld l h)
    simp only [linkTxs, linkRxs, streamsOf, trace, trace_run_append, ← List.append_assoc] at hrest ⊢
    exact hrest

/-- The 24 bytes arrive in the buffer of the receive. -/
theorem Delivered.struct_copied {t : Tx} {rx : Rx} {a b : Side} (h : Delivered t rx)
    (hreq : t.req = a.sendWr) (hheld : b.recvWr.Holds rx) :
    rx.out.mem.read b.theirSd 24 = t.ep.mem.read a.mySd 24 := by
  obtain ⟨c, hc, harr⟩ := h
  have hcall : t.call = some (.untagged t.ep.mem (t.job.untaggedHdr t.st .send)
      [⟨a.mySd, sendDataSize, a.sendLkey⟩]) := by
    simp only [Tx.call, Job.call, Tx.job, Ep.sges, hreq, Side.sendWr]
  rw [hcall] at hc
  obtain rfl := Option.some.inj hc
  cases harr with
  | untagged hdr fields len stored =>
    have hbuf : rx.out.msg.buf.untagBuf = ⟨b.theirSd, sendDataSize⟩ := by
      have hlist : [Sge.toBuffer ⟨b.theirSd, sendDataSize, b.recvLkey⟩] =
        [rx.out.msg.buf.untagBuf] := hheld
      exact (List.singleton_inj.mp hlist).symm
    have hlen : (t.ep.mem.read a.mySd 24).length = 24 := Mem.length_read _ _ _
    have hpieces : sgePieces [⟨a.mySd, sendDataSize, a.sendLkey⟩] t.ep.mem =
        [t.ep.mem.read a.mySd 24] := by
      show chop (t.ep.mem.read a.mySd 24) ++ [] = _
      rw [chop_of_length_le (List.ne_nil_of_length_pos (by rw [hlen]; decide)) (by rw [hlen]; decide),
        List.append_nil]
    have hstores : untaggedStores b.theirSd 0 [t.ep.mem.read a.mySd 24] =
        stores b.theirSd (t.ep.mem.read a.mySd 24) := by
      have hzero : b.theirSd + (ntohl 0).toUInt64 = b.theirSd := UInt64.add_zero b.theirSd
      rw [untaggedStores, untaggedStores, List.append_nil, hzero]
    rw [stored, hbuf, hpieces, hstores]
    have hread := @Mem.read_write_stores rx.ep.mem b.theirSd (t.ep.mem.read a.mySd 24)
      (by rw [hlen]; decide)
    rwa [hlen] at hread

/-- In every run of the two programs, the threads and TCP: a side that is through
    has had its receive completed, by the one message that the other side has
    sent, and the buffer has the bytes of the other side's `my_sd`. -/
theorem exchange_delivers (bld : Role → Build) (side : Role → Side) {x : Perftest} (hx : x.New)
    {ls : List PerfLabel} {r : Role} (hr : (run (Perftest.step bld side) ls x).pc r = .through) :
    let ks := streamsOf bld side ls x
    let x' := run (Perftest.step bld side) ls x
    (x'.link.host r).hist.recvDone.map WorkCompletion.wrId = [1901] ∧
      ∃ t rx, linkTxs bld r.peer ks x.link = [t] ∧ linkRxs bld r ks x.link = [rx] ∧
        t.req = (side r.peer).sendWr ∧ Delivered t rx ∧
        rx.out.mem.read (side r).theirSd 24 = t.ep.mem.read (side r.peer).mySd 24 := by
  intro ks x'
  have h : Exchanging side x' (fun r => linkTxs bld r ks x.link) (fun r => linkRxs bld r ks x.link) :=
    exchanging_run bld ls (hx.exchanging side)
  have hown := h.own r
  have hpc : x'.pc r = .through := hr
  rw [hpc] at hown
  have hposted : (x'.link.host r).hist.posted = [(side r).recvWr] := hown.posted
  -- each side has sent at most once
  have hsent (q : Role) : (linkTxs bld q ks x.link).length ≤ 1 := by
    have hcount := (h.own q).threads.count
    have hreqs : (x'.link.host q).hist.reqs.length ≤ 1 := by
      rw [(h.own q).reqs]
      split
      · exact le_rfl
      · exact Nat.zero_le _
    omega
  have hdone : 1 ≤ (x'.link.host r).hist.recvDone.length := by
    have hpolled : x'.polled r = 2 := hown.polled
    have htaken := hown.taken
    have hentries := hown.threads.entries
    have hone := hsent r
    omega
  have hflow := h.flow r.peer
  obtain ⟨hle, hids, hheld⟩ := hflow.completes
  obtain ⟨got, rest, heq, hgot, -⟩ := hflow.way
  rw [r.peer_peer] at hle hids hheld hgot
  rw [hposted, List.take_of_length_le hdone] at hids hheld
  refine ⟨hids, ?_⟩
  obtain ⟨t, ht⟩ : ∃ t, linkTxs bld r.peer ks x.link = [t] := by
    refine List.length_eq_one_iff.mp ?_
    have hfilter : (sendsOf (linkTxs bld r.peer ks x.link)).length ≤
      (linkTxs bld r.peer ks x.link).length := List.length_filter_le _ _
    have hone := hsent r.peer
    omega
  have hreq : t.req = (side r.peer).sendWr := (h.own r.peer).sent t (by simp [ht])
  obtain ⟨t', us, hmeet, -, htake⟩ := List.forall₂_cons_left_iff.mp hheld
  obtain ⟨rx, hrx, hd, hwr⟩ := hmeet
  obtain rfl : t' = t := by
    have hmem := List.mem_of_mem_take (htake ▸ List.mem_cons_self)
    exact List.mem_singleton.mp (ht ▸ List.mem_of_mem_filter hmem)
  have hrxs : (linkRxs bld r ks x.link).length ≤ 1 := by
    rw [← hgot.length_eq]
    have hlen := congrArg List.length heq
    have hone := hsent r.peer
    rw [List.length_append] at hlen
    omega
  have hone : linkRxs bld r ks x.link = [rx] := by
    obtain ⟨rx', hrx'⟩ := List.length_eq_one_iff.mp
      (hrxs.antisymm (List.length_pos_of_mem hrx))
    rw [hrx', List.mem_singleton] at hrx
    rw [hrx', hrx]
  exact ⟨t', rx, ht, hone, hreq, hd, hd.struct_copied hreq hwr⟩

def newPerftest : Perftest := ⟨newLink, fun _ => .recvIssue, fun _ => {}, fun _ => 0⟩

theorem new_newPerftest : newPerftest.New := ⟨new_newLink, fun _ => rfl, fun _ => rfl, fun _ => rfl⟩

/-- The client is the first at each place, and its synchronisation is cut in two. -/
theorem exchange_delivers_client :
    let side : Role → Side := fun _ => ⟨0x1000, 0x3000, 0, 0, 0, 0, 0⟩
    let both : List Role := [.client, .server]
    let send (r : Role) : List PerfLabel := List.replicate 3 (.send r ⟨0, 0, 0, 0, 0⟩)
    let ls : List PerfLabel := both.flatMap (fun r => List.replicate 3 (.main r 5)) ++
      both.flatMap (fun r => [.syncDeliver r 3, .main r.peer 8, .main r.peer 0]) ++
      both.flatMap send ++ both.map (fun r => .deliver r 100) ++
      both.flatMap (fun r => List.replicate 4 (.recv r)) ++
      both.flatMap fun r => [.main r 0, .main r 0]
    let bld : Role → Build := fun _ => ⟨false, false⟩
    let ks := streamsOf bld side ls newPerftest
    ((run (Perftest.step bld side) ls newPerftest).link.host .client).hist.recvDone.map
        WorkCompletion.wrId = [1901] ∧
      ∃ t rx, linkTxs bld .server ks newLink = [t] ∧ linkRxs bld .client ks newLink = [rx] ∧
        rx.out.mem.read 0x3000 24 = t.ep.mem.read 0x1000 24 := by
  intro side both send ls bld ks
  obtain ⟨hids, t, rx, ht, hrx, -, -, hbytes⟩ :=
    @exchange_delivers bld side newPerftest new_newPerftest ls .client (by decide +kernel)
  exact ⟨hids, t, rx, ht, hrx, hbytes⟩

end SoftUiWarp
