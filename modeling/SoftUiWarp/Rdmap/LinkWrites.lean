import SoftUiWarp.Rdmap.LinkReads

/-!
# Writes come before what is sent after them

An RDMA Write has no completion at the host it stores into. The application
there learns of it by a Send that follows, and the peer by a read: both are
handled after every write that was sent before them, since a stream keeps the
order of its messages and `rnic_recv` stores a message before it looks at the
next one.

Results:
* `kept_step`: what was received stays in memory but where something is stored
  later.
* `writes_before_receives`: a receive completes after the writes sent before its
  Send are in memory.
* `reads_see_writes`: the response to a read is sent after the writes sent
  before the read are in memory.
-/

namespace SoftUiWarp

open ByteMem Runs

/-! ## One host -/

section

variable {bld : Build} {s : Sys} {rxs : List Rx}

theorem dispatch_mem (bld : Build) (ep : Ep) (ret : ℤ) :
    ∃ ws, (ep.dispatch bld ret).mem = ep.mem.write ws := by
  have hd := dispatch_cases bld ep ret
  generalize ep.dispatch bld ret = ep' at hd
  cases hd with
  | request =>
    show ∃ ws, ep.reqMem bld = ep.mem.write ws
    unfold Ep.reqMem
    dsimp only
    split
    · exact ⟨_, rfl⟩
    · exact ⟨[], (Mem.write_nil _).symm⟩
  | response =>
    obtain ⟨-, heq⟩ | ⟨wce, pending, -, heq⟩ := takePending_cases ep ret
    all_goals
      rw [heq]
      exact ⟨[], (Mem.write_nil _).symm⟩
  | @send op tags =>
    obtain ⟨-, heq⟩ | ⟨wr, rq, -, heq⟩ := takeRecv_cases (ep.withTags tags) ret op
    all_goals
      rw [heq]
      exact ⟨[], (Mem.write_nil _).symm⟩
  | ended => exact ⟨[], (Mem.write_nil _).symm⟩

theorem ddpRecvPayload_mem (ctx : DdpCtx) (mem : Mem) (msg : DdpMessage) (c : SegCtx) :
    ∃ ws, (ddpRecvPayload ctx mem msg c).mem = mem.write ws := by
  unfold ddpRecvPayload
  dsimp only
  split
  · exact ⟨_, rfl⟩
  · exact ⟨_, rfl⟩

/-- `rnic_recv` changes memory by stores. -/
theorem rnicRecvStep_mem (bld : Build) (ep : Ep) :
    ∃ ws, (rnicRecvStep bld ep).mem = ep.mem.write ws := by
  have same {ep' : Ep} (h : ep'.mem = ep.mem) : ∃ ws, ep'.mem = ep.mem.write ws :=
    ⟨[], by rw [h, Mem.write_nil]⟩
  cases hpc : ep.recvPc with
  | idle =>
    by_cases hcon : ep.connected = true
    · obtain ⟨pc, hstep, -⟩ := recvStep_idle bld hpc hcon
      rw [hstep]
      exact same rfl
    · simp only [rnicRecvStep, hpc, if_neg hcon]
      exact same rfl
  | payload c =>
    simp only [rnicRecvStep, hpc]
    exact ddpRecvPayload_mem ep.ddp ep.mem ep.msg c
  | dispatch ret =>
    rw [recvStep_dispatch bld hpc]
    exact dispatch_mem bld ep ret
  | _ =>
    simp only [rnicRecvStep, hpc]
    exact same rfl

theorem step_mem (bld : Build) (l : Label) (s : Sys) :
    ∃ ws, (step bld l s).ep.mem = s.ep.mem.write ws := by
  have same {ep : Ep} (h : ep.mem = s.ep.mem) : ∃ ws, ep.mem = s.ep.mem.write ws :=
    ⟨[], by rw [h, Mem.write_nil]⟩
  cases l with
  | recv => exact rnicRecvStep_mem bld s.ep
  | send junk =>
    have hturn := step_sendTurn bld junk s
    generalize txOf (.send junk) s = ts at hturn
    generalize step bld (.send junk) s = s' at hturn
    cases hturn with
    | completes =>
      refine same ?_
      simp only [Ep.complete]
      split <;> rfl
    | _ => exact same rfl
  | postBuffers wr =>
    unfold step
    simp only
    split
    all_goals exact same rfl
  | postWr =>
    unfold step
    simp only
    split
    all_goals exact same rfl
  | store ws => exact ⟨ws, rfl⟩
  | _ => exact same rfl

/-- The memory is that after each of the messages `rxs`, with later stores. -/
def Kept (rxs : List Rx) (s : Sys) : Prop := ∀ rx ∈ rxs, ∃ ws, s.ep.mem = rx.out.mem.write ws

theorem kept_step (l : Label) (h : Kept rxs s) : Kept (rxs ++ rxOf l s) (step bld l s) := by
  intro rx hrx
  rcases List.mem_append.mp hrx with hold | hnew
  · obtain ⟨ws, hws⟩ := h rx hold
    obtain ⟨ws', hws'⟩ := step_mem bld l s
    exact ⟨ws ++ ws', by rw [hws', hws]; simp [Mem.write]⟩
  · have hl : l = .recv := by
      by_contra hne
      rw [rxOf_of_ne hne] at hnew
      cases hnew
    subst hl
    have hturn := step_recvTurn bld s
    generalize rxOf .recv s = new at hturn hnew
    generalize step bld .recv s = s' at hturn ⊢
    cases hturn with
    | receives =>
      rw [List.mem_singleton.mp hnew]
      exact ⟨[], (Mem.write_nil _).symm⟩
    | _ => cases hnew

end

/-! ## Two hosts -/

section

variable {bld : Role → Build} {w : Link} {ls : List LinkLabel} {r : Role}

theorem linkRxs_kept (bld : Role → Build) (ls : List LinkLabel) (w : Link) (r : Role) :
    Kept (linkRxs bld r ls w) ((run (Link.step bld) ls w).host r) :=
  host_invariant (G := fun _ _ => True) (fun l _ _ _ h => kept_step l h) (fun _ _ _ h => h)
    (fun _ h => absurd h List.not_mem_nil) (admits_atHost bld r ls w)

/-- A write among the messages received is in memory. -/
theorem keeps_of_received {s : Sys} {got : List Tx} {rxs : List Rx} (hkept : Kept rxs s)
    (hgot : List.Forall₂ Delivered got rxs) {t : Tx} (ht : t ∈ got)
    (hop : t.req.opcode = .rdmaWrite) : s.ep.mem.Keeps t.req.remoteAddr t.bytes := by
  induction hgot with
  | nil => cases ht
  | @cons u rx got rxs hdel _ ih =>
    rcases List.mem_cons.mp ht with rfl | hmem
    · obtain ⟨ws, hws⟩ := hkept rx (by simp)
      rw [hws, (hdel.sink (.inl hop)).2]
      exact (Mem.keeps_stores _ _ _).write ws
    · exact ih (fun rx hrx => hkept rx (by simp [hrx])) hmem

/-- Of two prefixes the one with fewer of some elements is the shorter one. -/
theorem prefix_of_filter_lt {α : Type} {p : α → Bool} {pre got l : List α} (hpre : pre <+: l)
    (hgot : got <+: l) (hlt : (pre.filter p).length < (got.filter p).length) : pre <+: got := by
  rcases List.prefix_or_prefix_of_prefix hpre hgot with h | h
  · exact h
  · exact absurd (h.filter p).length_le (by omega)

/-- In every run of the two hosts that sends messages: when more receives of a
    host have completed than there are Sends among the first messages of its peer, the writes among
    these are in its memory, but where something was stored since. -/
theorem writes_before_receives (bld : Role → Build) {w : Link} (hw : w.New) {ls : List LinkLabel}
    (hG : Admits (Link.step bld) SendsMessages ls w) (r : Role) {pre : List Tx}
    (hpre : pre <+: linkTxs bld r ls w)
    (hdone : (sendsOf pre).length < ((run (Link.step bld) ls w).host r.peer).hist.recvDone.length) :
    ∀ t ∈ pre, t.req.opcode = .rdmaWrite →
      ((run (Link.step bld) ls w).host r.peer).ep.mem.Keeps t.req.remoteAddr t.bytes := by
  obtain ⟨got, rest, heq, hgot, -⟩ := hw.toFresh.run bld hG r
  have hopcodes := (hw.sendsInv bld ls r.peer).opcodes.length_le
  rw [flatMap_delivered hgot, List.length_append, List.length_map, List.length_map] at hopcodes
  have hsub : pre <+: got := by
    have hlt : (sendsOf pre).length < (sendsOf got).length := by omega
    exact prefix_of_filter_lt hpre (by rw [heq]; exact List.prefix_append _ _) hlt
  exact fun t ht => keeps_of_received (linkRxs_kept bld ls w r.peer) hgot (hsub.subset ht)

/-- In every run of the two hosts that sends messages, with a responder without
    `RPING` whose application leaves the answers to the library: when a response
    is sent, the writes that the peer has sent before the read it answers are in memory, but where something
    was stored since. The read it answers is behind all messages that have no
    more reads among them than there are responses before it. -/
theorem reads_see_writes (bld : Role → Build) {w : Link} (hw : w.New) (r : Role)
    (hb : (bld r.peer).rping = false) {ls : List LinkLabel}
    (hG : Admits (Link.step bld) (AnswersReads r.peer) ls w) {pre : List Tx}
    (hpre : pre <+: linkTxs bld r ls w) {resp : Tx} {before after : List Tx}
    (hresp : linkTxs bld r.peer ls w = before ++ resp :: after)
    (hop : resp.req.opcode = .rdmaReadResp)
    (hk : (txsWith .rdmaReadReq pre).length ≤ (respsOf before).length) :
    ∀ t ∈ pre, t.req.opcode = .rdmaWrite → resp.ep.mem.Keeps t.req.remoteAddr t.bytes := by
  obtain ⟨ls₁, ⟨ls₂, rfl⟩, hbefore, hep, hpc⟩ := exists_of_linkTxs hresp
  -- the response waits, so its request has been handled
  have hkeys := congrArg List.length (requests_answered sinkKey hw hG.left
    (admits_atHost bld r.peer ls₁ w) fun s _ _ sg wr _ => sinkKey_stable sg s wr).keys
  have hwait : 0 < ((run (Link.step bld) ls₁ w).host r.peer).ep.waiting.length := by
    rw [← hep, Ep.waiting_eq, hpc]
    simp [SendPc.held, SendWr.isResp, hop]
  have hreqs := (requests_received hw hb hG.left).length_le
  simp only [List.length_map, List.length_append, hbefore] at hkeys hreqs
  -- so the messages before it have been received
  obtain ⟨got, rest, heq, hgot, -⟩ := hw.toFresh.run bld (hG.left.imp fun _ _ h => h.1) r
  have hread := (delivered_with .rdmaReadReq hgot).length_eq
  have hsub : pre <+: got := by
    have hlt : (txsWith .rdmaReadReq pre).length < (txsWith .rdmaReadReq got).length := by omega
    have hgot' : got <+: linkTxs bld r (ls₁ ++ ls₂) w := by
      rw [linkTxs, trace_run_append, ← linkTxs, heq, List.append_assoc]
      exact List.prefix_append _ _
    exact prefix_of_filter_lt hpre hgot' hlt
  intro t ht hwrite
  rw [hep]
  exact keeps_of_received (linkRxs_kept bld ls₁ w r.peer) hgot (hsub.subset ht) hwrite

end

/-- The server gives the client a buffer of 16 bytes. -/
def serverReady : List LinkLabel := acts .server [.register ⟨⟨0x5000, 0⟩, 0x5000, 16⟩]

/-- A write of three bytes. -/
def writeWr (wrId remoteAddr : UInt64) : SendWr :=
  ⟨wrId, .user [⟨0x1000, 3, 0⟩], .rdmaWrite, 0, remoteAddr, 0x5000⟩

/-- The client writes and sends, and the server receives both. -/
def writeAndSend (wrId remoteAddr : UInt64) (wr : RecvWr) : List LinkLabel :=
  acts .server [.postBuffers wr, .postWr] ++
  acts .client (serve (writeWr wrId remoteAddr) ++ serve (sendWr (wrId + 1))) ++
  [.deliver .client 200] ++ acts .server (List.replicate 7 .recv)

def writesAndSends : List LinkLabel :=
  serverReady ++ writeAndSend 1 0x5004 oneRecv ++ writeAndSend 3 0x5008 ⟨43, [⟨0x3001, 1, 0⟩]⟩

theorem writes_before_receives_two :
    let bld : Role → Build := fun _ => ⟨false, false⟩
    let h := ((run (Link.step bld) writesAndSends newLink).host .server)
    let pre := (linkTxs bld .client writesAndSends newLink).take 3
    h.hist.recvDone.length = 2 ∧
      (pre.map fun t => t.req.opcode) = [.rdmaWrite, .send, .rdmaWrite] ∧
      ∀ t ∈ pre, t.req.opcode = .rdmaWrite → h.ep.mem.Keeps t.req.remoteAddr t.bytes := by
  intro bld h pre
  exact ⟨by decide +kernel, by decide +kernel, @writes_before_receives bld newLink new_newLink
    writesAndSends (by decide +kernel) .client pre (List.take_prefix _ _) (by decide +kernel)⟩

/-- A read of two bytes. -/
def readBackWr (wrId remoteAddr : UInt64) : SendWr :=
  ⟨wrId, .user [⟨0x1008, 2, 0x1000⟩], .rdmaReadReq, 0, remoteAddr, 0x5000⟩

/-- The client writes and reads, twice, and the server answers both reads. -/
def writesAndReads : List LinkLabel :=
  serverReady ++ acts .client (serve (writeWr 1 0x5004) ++ serve (readBackWr 2 0x5004)) ++
  acts .client (serve (writeWr 3 0x5008) ++ serve (readBackWr 4 0x5008)) ++
  [.deliver .client 200] ++ acts .server (List.replicate 3 .recv ++ answerOne) ++
  acts .server (List.replicate 3 .recv ++ answerOne)

/-- Both writes are there when the second response is sent. -/
theorem reads_see_writes_two :
    let bld : Role → Build := fun _ => ⟨false, false⟩
    let pre := (linkTxs bld .client writesAndReads newLink).take 3
    (pre.map fun t => t.req.opcode) = [.rdmaWrite, .rdmaReadReq, .rdmaWrite] ∧
      ∃ first resp, linkTxs bld .server writesAndReads newLink = [first, resp] ∧
        ∀ t ∈ pre, t.req.opcode = .rdmaWrite → resp.ep.mem.Keeps t.req.remoteAddr t.bytes := by
  intro bld pre
  have hops : ((linkTxs bld .server writesAndReads newLink).map fun t => t.req.opcode) =
      [.rdmaReadResp, .rdmaReadResp] := by decide +kernel
  obtain ⟨first, resps, htxs, hfirst, hrest⟩ := List.map_eq_cons_iff.mp hops
  obtain ⟨resp, rfl, hop⟩ := List.map_eq_singleton_iff.mp hrest
  have hreads : (txsWith .rdmaReadReq pre).length ≤ (respsOf [first]).length := by
    have hone : (txsWith .rdmaReadReq pre).length = 1 := by decide +kernel
    have hresp : first.req.isResp = true := by simp [SendWr.isResp, hfirst]
    rw [hone]
    simp [respsOf, hresp]
  exact ⟨by decide +kernel, first, resp, htxs, @reads_see_writes bld newLink new_newLink .client rfl
    writesAndReads (by decide +kernel) pre (List.take_prefix _ _) resp [first] [] htxs hop hreads⟩

end SoftUiWarp
