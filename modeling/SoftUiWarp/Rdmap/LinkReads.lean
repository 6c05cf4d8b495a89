import SoftUiWarp.Rdmap.LinkAnswers
import SoftUiWarp.Rdmap.LinkSends
import SoftUiWarp.Rdmap.ReadCompletions

/-!
# Reads on their way there and back

A read goes to the peer as a request and comes back as a response, and any
number of reads may be under way.

Results:
* `readsDue_step`: the completions of reads follow the reads sent and do not
  overtake the responses received.
* `reads_complete_after_response`: in every run the responses a host has
  received go to the sinks of its first reads, in order, and a read completes
  only when the response to it has been received and stored.
-/

namespace SoftUiWarp

open ByteMem Runs

/-! ## The requester -/

/-- The messages of a host with an opcode. -/
def txsWith (op : RdmaOpcode) (ts : List Tx) : List Tx := ts.filter fun t => t.req.opcode = op

theorem txsWith_append (op : RdmaOpcode) (ts us : List Tx) :
    txsWith op (ts ++ us) = txsWith op ts ++ txsWith op us :=
  List.filter_append ts us

/-- The read sent whose completion is not on `pending_cq`. -/
def SendPc.readSent : SendPc → List SendWr
  | .complete req _ => if req.opcode = .rdmaReadReq then [req] else []
  | _ => []

/-- The completions of reads come in the order the reads were sent in. -/
structure ReadsDue (ts : List Tx) (s : Sys) : Prop where
  evs : s.ep.ddp.outb.evs = []
  ret : ∀ req ret, s.ep.sendPc = .complete req ret → ret = 0
  order : (txsWith .rdmaReadReq ts).map (fun t => t.req.wrId) =
    (s.hist.readDone ++ (s.ep.moving ++ s.ep.pendingCq)).map WorkCompletion.wrId ++
      s.ep.sendPc.readSent.map SendWr.wrId

/-- The completions of reads do not overtake the responses received. -/
def ReadsAwaited (rxs : List Rx) (s : Sys) : Prop :=
  s.hist.readDone.length + s.ep.moving.length + (if s.ep.handles .rdmaReadResp then 1 else 0) ≤
    (rxsWith .rdmaReadResp rxs).length

section

variable {bld : Build} {s : Sys} {ts : List Tx} {rxs : List Rx}

theorem RecvPc.Free.moving {ep : Ep} (h : ep.recvPc.Free) : ep.moving = [] := by
  unfold Ep.moving
  split
  · rename_i hpc
    rw [hpc] at h
    exact h.elim
  · rfl

/-- A step that leaves the reads alone. -/
theorem ReadsDue.frame (h : ReadsDue ts s) {s' : Sys} (hout : s'.ep.ddp.outb = s.ep.ddp.outb)
    (hpc : s'.ep.sendPc = s.ep.sendPc) (hmov : s'.ep.moving = s.ep.moving)
    (hpend : s'.ep.pendingCq = s.ep.pendingCq) (hdone : s'.hist.readDone = s.hist.readDone) :
    ReadsDue ts s' where
  evs := by rw [hout]; exact h.evs
  ret := by rw [hpc]; exact h.ret
  order := by rw [hdone, hmov, hpend, hpc]; exact h.order

theorem History.recv_readDone (bld : Build) {ep : Ep} {ret : ℤ} (h : History)
    (hpc : ep.recvPc = .dispatch ret) : (h.recv bld ep).readDone = h.readDone := by
  simp only [History.recv, hpc]
  split
  · rfl
  · rfl
  · split <;> rfl

/-- A read response takes the completion of the oldest read. -/
theorem readsDue_dispatch {ret : ℤ} (h : ReadsDue ts s) (hpc : s.ep.recvPc = .dispatch ret) :
    ReadsDue ts { s with ep := s.ep.dispatch bld ret, hist := s.hist.recv bld s.ep } := by
  have hdone := History.recv_readDone bld s.hist hpc
  have hmov : s.ep.moving = [] := by simp [Ep.moving, hpc]
  have hd := dispatch_cases bld s.ep ret
  generalize s.hist.recv bld s.ep = hist at hdone ⊢
  generalize s.ep.dispatch bld ret = ep at hd ⊢
  cases hd with
  | request => exact h.frame rfl rfl (by rw [hmov]; rfl) rfl hdone
  | response =>
    obtain ⟨-, heq⟩ | ⟨wce, pending, hq, heq⟩ := takePending_cases s.ep ret
    · rw [heq]
      exact h.frame rfl rfl (by rw [hmov]; rfl) rfl hdone
    · rw [heq]
      refine ⟨h.evs, h.ret, ?_⟩
      have horder := h.order
      rw [hmov, Ep.pendingCq, hq] at horder
      rw [horder]
      simp [hdone, Ep.moving, Ep.pendingCq]
  | @send op tags =>
    obtain ⟨-, heq⟩ | ⟨wr, rq, -, heq⟩ := takeRecv_cases (s.ep.withTags tags) ret op
    all_goals
      rw [heq]
      exact h.frame rfl rfl (by rw [hmov]; rfl) rfl hdone
  | @ended tags con pc hend =>
    refine h.frame rfl rfl ?_ rfl hdone
    rw [hmov]
    cases hend <;> rfl

theorem readsDue_recv (h : ReadsDue ts s) : ReadsDue ts (step bld .recv s) := by
  have hturn := step_recvTurn bld s
  generalize rxOf .recv s = new at hturn
  generalize step bld .recv s = s' at hturn ⊢
  cases hturn with
  | reads hpc hpc' hout =>
    refine h.frame hout rfl ?_ rfl rfl
    rw [hpc.moving]
    exact RecvPc.Free.moving hpc'
  | receives hpc hout => exact h.frame hout rfl hpc.moving.symm rfl rfl
  | dispatches hpc => exact readsDue_dispatch h hpc
  | answers hpc =>
    refine h.frame rfl rfl ?_ rfl rfl
    simp [Ep.moving, hpc]
  | @completesRead wce hpc =>
    refine ⟨h.evs, h.ret, ?_⟩
    have horder := h.order
    have hmov : s.ep.moving = [wce] := by simp only [Ep.moving, hpc]
    rw [hmov] at horder
    rw [horder]
    simp [Ep.moving, Ep.pendingCq, Ep.enqCq]
  | completesRecv hpc =>
    refine h.frame rfl rfl ?_ ?_ rfl
    · simp [Ep.moving, hpc]
    · simp [Ep.pendingCq, Ep.enqCq]

/-- Without send errors a message that is sent returns 0. -/
theorem Tx.out_full {t : Tx} (he : t.ep.ddp.outb.evs = []) :
    t.out.out.evs = [] ∧ ∀ ret, t.out.ret = some ret → ret = 0 := by
  have hout : t.ep.ddp.outb = ⟨t.ep.ddp.outb.sent, []⟩ := by rw [← he]
  rw [t.out_eq, sendJob]
  constructor
  · simp only
    split
    · rw [hout, DdpCall.run_full]
    · exact he
  · intro ret hret
    simp only at hret
    split at hret
    · cases hret
    · rw [Tx.ret, hout] at hret
      obtain ⟨c, -, hc⟩ := Option.map_eq_some_iff.mp hret
      rw [DdpCall.run_full] at hc
      exact hc.symm

/-- A read is sent and then waits for its completion to be put on `pending_cq`. -/
theorem Tx.readSent_after (t : Tx) :
    t.after.readSent.map SendWr.wrId =
      (txsWith .rdmaReadReq ([t].filter fun t => t.call.isSome)).map fun t => t.req.wrId := by
  have hret := congrArg TransmitOut.ret t.out_eq
  unfold Tx.after
  rw [hret]
  by_cases hop : t.req.opcode = .rdmaReadReq
  · rw [if_neg (by rw [hop]; decide), Tx.ret]
    cases hc : t.call with
    | none => simp [hc, txsWith, SendPc.readSent]
    | some c => simp [hc, txsWith, SendPc.readSent, hop]
  · have hnone : txsWith .rdmaReadReq ([t].filter fun t => t.call.isSome) = [] := by
      rw [txsWith, List.filter_filter]
      simp [hop]
    rw [hnone]
    split
    · simp [SendPc.readSent, hop]
    · rfl

theorem History.send_readDone (h : History) (junk : DdpUntaggedMeta) (st : Statics) (ep : Ep) :
    (h.send junk st ep).readDone = h.readDone := by
  unfold History.send
  split
  · simp only
    split
    · rfl
    · split <;> rfl
    · rfl
  · rfl

/-- Only `rnic_recv` completes reads. -/
theorem step_readDone (bld : Build) {l : Label} (hl : l ≠ .recv) (s : Sys) :
    (step bld l s).hist.readDone = s.hist.readDone := by
  cases l with
  | recv => exact absurd rfl hl
  | send junk => exact s.hist.send_readDone junk s.st s.ep
  | postBuffers wr =>
    simp only [step]
    split <;> rfl
  | postWr =>
    simp only [step]
    split <;> rfl
  | _ => rfl

theorem readsDue_send (junk : DdpUntaggedMeta) (h : ReadsDue ts s) :
    ReadsDue (ts ++ msgOf (.send junk) s) (step bld (.send junk) s) := by
  have hturn := step_sendTurn bld junk s
  have horder := h.order
  unfold msgOf
  generalize txOf (.send junk) s = sent at hturn ⊢
  generalize step bld (.send junk) s = s' at hturn ⊢
  cases hturn with
  | takes hpc =>
    rw [List.filter_nil, List.append_nil]
    refine ⟨h.evs, by simp, ?_⟩
    rw [horder, hpc]
    rfl
  | transmits t hpc ht =>
    have hfull := Tx.out_full (t := t) (by rw [ht]; exact h.evs)
    refine ⟨hfull.1, fun req ret hafter => ?_, ?_⟩
    · have hafter' : t.after = .complete req ret := hafter
      unfold Tx.after at hafter'
      split at hafter'
      · rename_i ret' hret
        cases hafter'
        exact hfull.2 _ hret
      · cases hafter'
    · rw [txsWith_append, List.map_append, horder, hpc]
      show _ = ((s.hist.send junk s.st s.ep).readDone ++ _).map _ ++ t.after.readSent.map _
      rw [History.send_readDone, t.readSent_after]
      simp [SendPc.readSent, Ep.moving, Ep.pendingCq]
  | @completes req ret hpc =>
    have hret := h.ret req ret hpc
    rw [List.filter_nil, List.append_nil]
    rw [hpc] at horder
    unfold Ep.complete
    simp only
    by_cases hop : req.opcode = .rdmaReadReq
    · rw [if_pos ⟨hop, by omega⟩]
      refine ⟨h.evs, by simp, ?_⟩
      rw [horder]
      simp [SendPc.readSent, hop, Ep.pendingCq, Ep.enqPending, Ep.moving, sendWrToWce]
    · rw [if_neg fun hn => hop hn.1]
      refine ⟨h.evs, by simp, ?_⟩
      rw [horder]
      simp [SendPc.readSent, hop, Ep.pendingCq, Ep.enqCq, Ep.moving]
  | exits hpc =>
    rw [List.filter_nil, List.append_nil]
    refine ⟨h.evs, by simp, ?_⟩
    rw [horder, hpc]
    rfl
  | rests =>
    rw [List.filter_nil, List.append_nil]
    exact h

theorem readsDue_step (l : Label) (h : ReadsDue ts s) :
    ReadsDue (ts ++ msgOf l s) (step bld l s) := by
  by_cases hl : ∃ junk, l = .send junk
  · obtain ⟨junk, rfl⟩ := hl
    exact readsDue_send junk h
  rw [msgOf, txOf_of_ne fun junk hj => hl ⟨junk, hj⟩, List.filter_nil, List.append_nil]
  cases l with
  | recv => exact readsDue_recv h
  | send junk => exact absurd ⟨junk, rfl⟩ hl
  | postBuffers wr =>
    simp only [step]
    split
    · exact h.frame rfl rfl rfl rfl rfl
    · exact h
  | postWr =>
    simp only [step]
    split
    · exact h
    · exact h.frame rfl rfl rfl rfl rfl
  | _ => exact h.frame rfl rfl rfl rfl rfl

theorem readsAwaited_step (l : Label) (h : ReadsAwaited rxs s) :
    ReadsAwaited (rxs ++ rxOf l s) (step bld l s) := by
  unfold ReadsAwaited at h ⊢
  by_cases hl : l = .recv
  · subst hl
    have hturn := step_recvTurn bld s
    generalize rxOf .recv s = new at hturn ⊢
    generalize step bld .recv s = s' at hturn ⊢
    cases hturn with
    | reads hpc hpc' =>
      rw [if_neg hpc.not_handles, hpc.moving] at h
      rw [if_neg (RecvPc.Free.not_handles hpc'), RecvPc.Free.moving hpc', List.append_nil]
      exact h
    | receives hpc =>
      rw [if_neg hpc.not_handles, hpc.moving] at h
      rw [rxsWith_append, List.length_append]
      refine Nat.add_le_add h ?_
      split_ifs with h1 h2
      · exact le_rfl
      · exact absurd h1 h2
      · exact Nat.zero_le _
      · exact le_rfl
    | @dispatches ret hpc =>
      have hmov : s.ep.moving = [] := by simp [Ep.moving, hpc]
      rw [hmov, List.length_nil, Nat.add_zero] at h
      rw [List.append_nil, if_neg (dispatch_not_handles bld s.ep ret _)]
      show (s.hist.recv bld s.ep).readDone.length + (s.ep.dispatch bld ret).moving.length ≤ _
      rw [History.recv_readDone bld s.hist hpc]
      -- a completion is taken for a response only
      refine le_trans (Nat.add_le_add_left ?_ _) h
      have hsw := dispatch_switchesTo bld s.ep ret
      unfold Ep.moving
      generalize (s.ep.dispatch bld ret).recvPc = pc at hsw
      cases hsw with
      | read hop => rw [if_pos (by simpa only [Ep.handles, hpc] using hop)]; rfl
      | free hfree =>
        split
        · exact hfree.elim
        · exact Nat.zero_le _
      | _ => exact Nat.zero_le _
    | answers hpc =>
      have hmov : s.ep.moving = [] := by simp [Ep.moving, hpc]
      rw [if_neg (by simp [Ep.handles, hpc]), hmov] at h
      rw [if_neg (by simp [Ep.handles]), List.append_nil]
      exact h
    | @completesRead wce hpc =>
      have hmov : s.ep.moving = [wce] := by simp only [Ep.moving, hpc]
      rw [if_neg (by simp [Ep.handles, hpc]), hmov] at h
      rw [if_neg (by simp [Ep.handles]), List.append_nil, List.length_append]
      exact h
    | completesRecv hpc =>
      have hmov : s.ep.moving = [] := by simp [Ep.moving, hpc]
      rw [if_neg (by simp [Ep.handles, hpc]), hmov] at h
      rw [if_neg (by simp [Ep.handles]), List.append_nil]
      exact h
  · have hmov : (step bld l s).ep.moving = s.ep.moving := by
      simp only [Ep.moving, (step_other bld hl s).1]
    rw [rxOf_of_ne hl, List.append_nil, step_readDone bld hl, hmov,
      if_congr (step_handles bld hl s .rdmaReadResp) rfl rfl]
    exact h

theorem NewStream.readsDue (h : NewStream s) (he : s.ep.ddp.outb.evs = []) : ReadsDue [] s := by
  have hmov : s.ep.moving = [] := by simp [Ep.moving, h.recvPc]
  refine ⟨he, by simp [h.sendPc], ?_⟩
  rw [hmov, h.hist, h.sendPc, Ep.pendingCq, h.cqs]
  rfl

theorem NewStream.readsAwaited (h : NewStream s) : ReadsAwaited [] s := by
  have hmov : s.ep.moving = [] := by simp [Ep.moving, h.recvPc]
  have hne : ¬s.ep.handles .rdmaReadResp := by simp [Ep.handles, h.recvPc]
  unfold ReadsAwaited
  rw [hmov, h.hist, if_neg hne]
  exact Nat.zero_le _

end

/-! ## The two messages of a read -/

/-- The fields of the requests that a read of one sge makes. -/
def Tx.requests (t : Tx) : List ReadReqFields :=
  (t.ep.sges t.req).map fun sg => ⟨sg.lkey, sg.addr, sg.length, t.req.rkey, t.req.remoteAddr⟩

/-- The reads among the messages of a host, by their fields. -/
def readsOf (ts : List Tx) : List ReadReqFields := (txsWith .rdmaReadReq ts).flatMap Tx.requests

/-- A request is where the responder uses it with the fields it was sent with. -/
theorem Delivered.request {t : Tx} {rx : Rx} (h : Delivered t rx)
    (hop : t.req.opcode = .rdmaReadReq) : t.requests = [rx.request] := by
  obtain ⟨c, hc, harr⟩ := h
  have hjob : t.job.call t.st = some c := hc
  have hop' : t.job.req.opcode = .rdmaReadReq := hop
  simp only [Job.call, hop'] at hjob
  split at hjob
  case h_2 => cases hjob
  case h_1 sg hsg =>
    have hsges : t.ep.sges t.req = [sg] := hsg
    obtain ⟨f, hf⟩ : ∃ f : ReadReqFields,
      f = ⟨sg.lkey, sg.addr, sg.length, t.req.rkey, t.req.remoteAddr⟩ := ⟨_, rfl⟩
    have hc' := Option.some.inj hjob
    rw [Tx.requests, hsges, List.map_singleton, ← hf]
    subst hc'
    cases harr with
    | untagged hdr fields len stored =>
      have hpieces : sgePieces [⟨0, UInt32.ofNat readReqFieldsSize, 0⟩] f.onStack = [f.bytes] := by
        rw [sgePieces, List.flatMap_singleton, ReadReqFields.content_onStack,
          chop_of_length_le (by simp [← List.length_pos_iff]) (by simp [mulpdu_eq])]
      have hstored : rx.out.mem =
          rx.ep.mem.write (stores rx.out.msg.buf.untagBuf.data f.bytes) := by
        have hone : untaggedStores rx.out.msg.buf.untagBuf.data 0 [f.bytes] =
            stores rx.out.msg.buf.untagBuf.data f.bytes := by
          rw [(untaggedStores_eq_iff _ (List.cons_ne_nil _ _) ?_).mpr rfl, List.flatten_singleton]
          simp [← List.length_pos_iff, mulpdu_eq]
        rw [← hone, ← hpieces, hf]
        exact stored
      have hself := @Mem.read_write_stores rx.ep.mem rx.out.msg.buf.untagBuf.data f.bytes (by simp)
      rw [ReadReqFields.length_bytes, ← hstored] at hself
      rw [Rx.request, readReqAt_of_read hself]

/-! ## Runs -/

section

variable {ts : List Tx} {rxs : List Rx}

/-- The messages of one opcode at their receiver. -/
theorem delivered_with (op : RdmaOpcode) (h : List.Forall₂ Delivered ts rxs) :
    List.Forall₂ Delivered (txsWith op ts) (rxsWith op rxs) := by
  have hfilter := delivered_filter (fun o => decide (o = some op)) h
  simp only [Option.some.injEq] at hfilter
  exact hfilter

theorem readsOf_delivered (h : List.Forall₂ Delivered ts rxs) :
    readsOf ts = (rxsWith .rdmaReadReq rxs).map Rx.request := by
  have hreads := delivered_with .rdmaReadReq h
  have hop : ∀ t ∈ txsWith .rdmaReadReq ts, t.req.opcode = .rdmaReadReq := fun t ht => by
    simpa using (List.mem_filter.mp ht).2
  unfold readsOf
  generalize txsWith .rdmaReadReq ts = us at hreads hop
  generalize rxsWith .rdmaReadReq rxs = vs at hreads
  induction hreads with
  | nil => rfl
  | cons hd _ ih =>
    rw [List.flatMap_cons, hd.request (hop _ (by simp)), ih fun t ht => hop t (by simp [ht])]
    rfl

/-- A read request comes untagged. -/
theorem untagged_of_delivered (h : List.Forall₂ Delivered ts rxs) :
    ∀ rx ∈ rxs, rx.opcode = some .rdmaReadReq → ddpIsTagged rx.out.msg.hdr = false := by
  induction h with
  | nil => simp
  | @cons t rx ts rxs hd _ ih =>
    intro rx' hrx hop
    rcases List.mem_cons.mp hrx with rfl | hmem
    · obtain ⟨hop', hbit⟩ := hd.opcode
      rw [hop] at hop'
      rw [← Option.some.inj hop'] at hbit
      exact (Option.some.inj hbit).symm
    · exact ih rx' hmem hop

theorem readsOf_append (ts us : List Tx) : readsOf (ts ++ us) = readsOf ts ++ readsOf us := by
  rw [readsOf, txsWith_append, List.flatMap_append]
  rfl

end

/-- The steps of both hosts send messages, and the application of `r`, which
    answers reads, posts no responses and does not store into the requests. -/
def AnswersReads (r : Role) (l : LinkLabel) (w : Link) : Prop :=
  SendsMessages l w ∧ AtHost r (fun l s => UserPosts l ∧ SparesRequest l s) l w

instance (r : Role) (l : LinkLabel) (w : Link) : Decidable (AnswersReads r l w) :=
  inferInstanceAs (Decidable (_ ∧ _))

section

variable {bld : Role → Build} {w : Link} {ls : List LinkLabel} {r : Role}

/-- The requests handled are the first of those received. -/
theorem requests_received (hw : w.New) (hb : (bld r.peer).rping = false)
    (hG : Admits (Link.step bld) (AnswersReads r.peer) ls w) :
    ((run (Link.step bld) ls w).host r.peer).hist.requests <+:
      (rxsWith .rdmaReadReq (linkRxs bld r.peer ls w)).map Rx.request := by
  obtain ⟨got, rest, heq, hgot, -⟩ := hw.toFresh.run bld (hG.imp fun _ _ h => h.1) r
  have hinv := @host_invariant bld r.peer _ rxOf (fun l s => UserPosts l ∧ SparesRequest l s)
    (fun rxs s => (∀ rx ∈ rxs, rx.opcode = some .rdmaReadReq → ddpIsTagged rx.out.msg.hdr = false) →
      Requested rxs s) (fun l s rxs hg hi hut => ?_) (fun bs s rxs hi hut => ?_) ls w
    (fun _ => ?_) (hG.imp fun _ _ h => h.2)
  · exact ⟨_, (hinv (untagged_of_delivered hgot)).requests⟩
  · have hi' := hi fun rx hrx => hut rx (List.mem_append_left _ hrx)
    by_cases hl : l = .recv
    · subst hl
      exact requested_recv hb hi' fun rx hrx => hut rx (List.mem_append_right _ hrx)
    · rw [rxOf_of_ne hl, List.append_nil]
      exact requested_other hl hi' hg.2
  · exact ⟨(hi hut).untagged, (hi hut).requests⟩
  · have hs := hw.stream r.peer
    have hne : ¬(w.host r.peer).ep.handles .rdmaReadReq := by simp [Ep.handles, hs.recvPc]
    refine ⟨fun h => absurd h hne, ?_⟩
    rw [Ep.requestHeld_of_not hne, hs.hist]
    rfl

/-- The requests handled are those of the first reads. -/
theorem requests_handled (hw : w.New) (hb : (bld r.peer).rping = false)
    (hG : Admits (Link.step bld) (AnswersReads r.peer) ls w) :
    ((run (Link.step bld) ls w).host r.peer).hist.requests <+: readsOf (linkTxs bld r ls w) := by
  obtain ⟨got, rest, heq, hgot, -⟩ := hw.toFresh.run bld (hG.imp fun _ _ h => h.1) r
  rw [heq, readsOf_append, readsOf_delivered hgot]
  exact (requests_received hw hb hG).trans (List.prefix_append _ _)

/-- The requests handled are those of the responses sent and waiting. -/
theorem requests_answered {κ : Type} (key : AnswerKey κ) {G : Label → Sys → Prop} (hw : w.New)
    (hG : Admits (Link.step bld) (AnswersReads r.peer) ls w)
    (hkey : Admits (Link.step bld) (AtHost r.peer G) ls w)
    (hstable : ∀ s, G .recv s → s.ep.handles .rdmaReadReq → ∀ sg, ∀ wr ∈ s.ep.waiting,
      key.ofWr sg wr = key.ofWr s.ep.sg wr) :
    Answered key (linkTxs bld r.peer ls w) ((run (Link.step bld) ls w).host r.peer) := by
  refine @host_invariant bld r.peer _ msgOf (fun l s => UserPosts l ∧ G l s) (Answered key)
    (fun l s ts hg hi => answered_step l hi hg.1 fun hl => ?_) (fun bs s ts hi => ?_) ls w
    ((hw.stream r.peer).answered key) ((hG.and hkey).imp fun l w h => ?_)
  · subst hl
    exact hstable s hg.2
  · exact hi.frame rfl rfl rfl rfl
  · cases l with
    | act q l => exact fun hq => ⟨(h.1.2 hq).1, h.2 hq⟩
    | deliver q k => trivial

/-- The responses a host has received are those of its first reads, told by a
    key that is stable while responses wait. -/
theorem responses_follow {κ : Type} (key : AnswerKey κ) {G : Label → Sys → Prop} (hw : w.New)
    (hb : (bld r.peer).rping = false) (hG : Admits (Link.step bld) (AnswersReads r.peer) ls w)
    (hkey : Admits (Link.step bld) (AtHost r.peer G) ls w)
    (hstable : ∀ s, G .recv s → s.ep.handles .rdmaReadReq → ∀ sg, ∀ wr ∈ s.ep.waiting,
      key.ofWr sg wr = key.ofWr s.ep.sg wr) :
    ∃ resps, (∀ t ∈ resps, t ∈ linkTxs bld r.peer ls w ∧ t.req.opcode = .rdmaReadResp) ∧
      List.Forall₂ Delivered resps (rxsWith .rdmaReadResp (linkRxs bld r ls w)) ∧
      resps.map key.ofTx <+: (readsOf (linkTxs bld r ls w)).map key.ofRequest := by
  obtain ⟨got, rest, heq, hgot, -⟩ := hw.toFresh.run bld (hG.imp fun _ _ h => h.1) r.peer
  rw [r.peer_peer] at hgot
  refine ⟨respsOf got, fun t ht => ?_, delivered_with .rdmaReadResp hgot, ?_⟩
  · obtain ⟨hmem, hop⟩ := List.mem_filter.mp ht
    exact ⟨by rw [heq]; exact List.mem_append_left _ hmem, by simpa [SendWr.isResp] using hop⟩
  · have hkeys := (requests_answered key hw hG hkey hstable).keys
    rw [heq, respsOf_append, List.map_append, List.append_assoc] at hkeys
    have hfirst : (respsOf got).map key.ofTx <+:
        ((run (Link.step bld) ls w).host r.peer).hist.requests.map key.ofRequest := ⟨_, hkeys.symm⟩
    exact hfirst.trans ((requests_handled hw hb hG).map _)

/-- The sinks of the responses sent are those of the responses received. -/
theorem sinks_delivered {ts : List Tx} {rxs : List Rx} (h : List.Forall₂ Delivered ts rxs)
    (hop : ∀ t ∈ ts, t.req.opcode = .rdmaReadResp) : rxs.map Rx.sink = ts.map sinkKey.ofTx := by
  induction h with
  | nil => rfl
  | cons hd _ ih =>
    rw [List.map_cons, List.map_cons, (hd.sink (.inr (hop _ (by simp)))).1,
      ih fun t ht => hop t (by simp [ht])]
    rfl

/-- A response that waits keeps its sink. -/
theorem sinkKey_stable (sg : Sge) (s : Sys) (wr : SendWr) :
    sinkKey.ofWr sg wr = sinkKey.ofWr s.ep.sg wr := rfl

end

/-- In every run of the two hosts that sends messages, to a peer without `RPING`
    whose application leaves the answers to the library, with any number of reads
    under way: the responses a host has received go to the sinks of its first
    reads, in order;
    its reads complete in the order they were sent in; and there are never more
    reads completed than responses received, so that a read completes only when
    the data of the response to it is in place. -/
theorem reads_complete_after_response (bld : Role → Build) {w : Link} (hw : w.New) (r : Role)
    (hb : (bld r.peer).rping = false) {ls : List LinkLabel}
    (hG : Admits (Link.step bld) (AnswersReads r.peer) ls w) :
    let h := ((run (Link.step bld) ls w).host r).hist
    let txs := linkTxs bld r ls w
    let resps := rxsWith .rdmaReadResp (linkRxs bld r ls w)
    resps.map Rx.sink <+: (readsOf txs).map (fun f => (f.sinkTag, f.sinkTO)) ∧
      h.readDone.map WorkCompletion.wrId <+: (txsWith .rdmaReadReq txs).map (fun t => t.req.wrId) ∧
      h.readDone.length ≤ resps.length := by
  intro h txs resps
  have hall := admits_atHost bld r ls w
  refine ⟨?_, ?_, ?_⟩
  · obtain ⟨sent, hsent, hdel, hpre⟩ := @responses_follow bld w ls r _ sinkKey (fun _ _ => True) hw
      hb hG (admits_atHost bld r.peer ls w) fun s _ _ sg wr _ => sinkKey_stable sg s wr
    have hsinks : resps.map Rx.sink = sent.map sinkKey.ofTx :=
      sinks_delivered hdel fun t ht => (hsent t ht).2
    rw [hsinks]
    exact hpre
  · have hinv : ReadsDue txs ((run (Link.step bld) ls w).host r) :=
      host_invariant (fun l s ts _ hi => readsDue_step l hi)
        (fun bs s ts hi => hi.frame rfl rfl rfl rfl rfl) ?_ hall
    · have horder := hinv.order
      rw [List.map_append, List.append_assoc] at horder
      exact ⟨_, horder.symm⟩
    · exact (hw.stream r).readsDue (hw.evs r)
  · have hinv : ReadsAwaited (linkRxs bld r ls w) ((run (Link.step bld) ls w).host r) :=
      host_invariant (fun l s ts _ hi => readsAwaited_step l hi) (fun bs s ts hi => hi) ?_ hall
    · exact (Nat.le_add_right _ _).trans ((Nat.le_add_right _ _).trans hinv)
    · exact (hw.stream r).readsAwaited

/-- The steps of one host. -/
def acts (r : Role) (ls : List Label) : List LinkLabel := ls.map (LinkLabel.act r)

/-- `rnic_recv` handles a read request and `rnic_send` sends the response. -/
def answerOne : List Label :=
  [.recv, .recv, .recv, .recv, .recv, .send ⟨0, 0, 0, 0, 0⟩, .send ⟨0, 0, 0, 0, 0⟩]

/-- Two reads are under way when the server handles the first. -/
def readsThere : List LinkLabel :=
  acts .client [.register ⟨⟨0x1000, 0⟩, 0x1000, 16⟩] ++
  acts .client (serve ⟨1, .user [⟨0x1002, 3, 0x1000⟩], .rdmaReadReq, 0, 0x5002, 0x5000⟩) ++
  acts .client (serve ⟨2, .user [⟨0x1008, 2, 0x1000⟩], .rdmaReadReq, 0, 0x5001, 0x5000⟩) ++
  [.deliver .client 200] ++ acts .server answerOne ++ acts .server answerOne ++
  [.deliver .server 100] ++ acts .client (List.replicate 8 .recv)

theorem reads_complete_after_response_two :
    let bld : Role → Build := fun _ => ⟨false, false⟩
    let h := ((run (Link.step bld) readsThere newLink).host .client).hist
    let resps := rxsWith .rdmaReadResp (linkRxs bld .client readsThere newLink)
    h.readDone.length = 2 ∧ resps.map Rx.sink <+: [(0x1000, 0x1002), (0x1000, 0x1008)] ∧
      h.readDone.length ≤ resps.length := by
  intro bld h resps
  obtain ⟨hsinks, -, hle⟩ := @reads_complete_after_response bld newLink new_newLink .client rfl
    readsThere (by decide +kernel)
  have hreads : (readsOf (linkTxs bld .client readsThere newLink)).map
      (fun f => (f.sinkTag, f.sinkTO)) = [(0x1000, 0x1002), (0x1000, 0x1008)] := by decide +kernel
  exact ⟨by decide +kernel, by rw [← hreads]; exact hsinks, hle⟩

/-! ## Each read copies its own bytes -/

theorem mem_msgOf {l : Label} {s : Sys} {t : Tx} (h : t ∈ msgOf l s) :
    t.ep = s.ep ∧ s.ep.sendPc = .transmit t.req := by
  have htx := List.mem_of_mem_filter h
  cases l with
  | send junk =>
    obtain ⟨req, hreq, rfl⟩ := List.mem_map.mp htx
    refine ⟨rfl, ?_⟩
    cases hpc : s.ep.sendPc with
    | transmit req' =>
      rw [hpc] at hreq
      rw [List.mem_singleton.mp hreq]
    | _ =>
      rw [hpc] at hreq
      cases hreq
  | _ => cases htx

theorem length_msgOf_le (l : Label) (s : Sys) : (msgOf l s).length ≤ 1 := by
  refine (List.length_filter_le _ _).trans ?_
  rcases txOf_cases l s with hnil | ⟨junk, req, heq⟩
  · rw [hnil]
    exact Nat.zero_le 1
  · rw [heq]
    exact le_rfl

/-- A message is sent from a state that the run passes, after those before it. -/
theorem exists_of_linkTxs {bld : Role → Build} {r : Role} {ls : List LinkLabel} {w : Link} {t : Tx}
    {before after : List Tx} (h : linkTxs bld r ls w = before ++ t :: after) :
    ∃ pre, pre <+: ls ∧ linkTxs bld r pre w = before ∧
      t.ep = ((run (Link.step bld) pre w).host r).ep ∧ t.ep.sendPc = .transmit t.req := by
  obtain ⟨pre, l, xs, ys, hpre, hemit, hbefore⟩ := exists_of_trace h
  refine ⟨pre, (List.prefix_append pre [l]).trans hpre, ?_⟩
  cases l with
  | deliver q k => simp [onHost] at hemit
  | act q l =>
    have hemit' : (if q = r then msgOf l ((run (Link.step bld) pre w).host r) else []) =
        xs ++ t :: ys := hemit
    split at hemit'
    · obtain ⟨hep, hpc⟩ := mem_msgOf (hemit' ▸ List.mem_append_right xs (List.mem_cons_self))
      -- a step sends one message
      have hone := length_msgOf_le l ((run (Link.step bld) pre w).host r)
      rw [hemit', List.length_append, List.length_cons] at hone
      have hxs : xs = [] := List.length_eq_zero_iff.mp (by omega)
      rw [hxs, List.append_nil] at hbefore
      exact ⟨hbefore, hep, by rw [hep]; exact hpc⟩
    · simp at hemit'

theorem exists_of_mem_linkTxs {bld : Role → Build} {r : Role} {ls : List LinkLabel} {w : Link}
    {t : Tx} (h : t ∈ linkTxs bld r ls w) :
    ∃ pre, pre <+: ls ∧ t.ep = ((run (Link.step bld) pre w).host r).ep := by
  obtain ⟨before, after, hsplit⟩ := List.append_of_mem h
  obtain ⟨pre, hpre, -, hep, -⟩ := exists_of_linkTxs hsplit
  exact ⟨pre, hpre, hep⟩

/-- While no response waits a request may be handled. -/
theorem waiting_of_sgFree {s : Sys} (h : SgFree .recv s) (hh : s.ep.handles .rdmaReadReq) :
    s.ep.waiting = [] := by
  obtain ⟨hsq, hheld⟩ := h hh
  refine waiting_of_free (fun hpc => ?_) hsq hheld
  rw [Ep.handles, hpc] at hh
  exact hh

/-- The response `rx` to the read `f`: it came to the sink of `f` and has stored
    there what was at its source, in the memory `m` of the responder. -/
structure CopiedBy (f : ReadReqFields) (rx : Rx) (m : Mem) : Prop where
  sink : rx.sink = (f.sinkTag, f.sinkTO)
  stored : rx.out.mem = rx.ep.mem.write (stores f.sinkTO (m.read f.srcTO f.rdmaRdSz.toNat))

theorem Delivered.copiedBy {t : Tx} {rx : Rx} {f : ReadReqFields} (h : Delivered t rx)
    (hop : t.req.opcode = .rdmaReadResp) (hkey : answerKey.ofTx t = answerKey.ofRequest f) :
    CopiedBy f rx t.ep.mem := by
  obtain ⟨hsink, hmem⟩ := h.sink (.inr hop)
  obtain ⟨hto, hsges⟩ := Prod.mk.inj hkey
  have haddr : t.req.remoteAddr = f.sinkTO := (Prod.mk.inj hto).2
  refine ⟨hsink.trans hto, ?_⟩
  rw [hmem, Tx.bytes, hsges, haddr, sgesContent, List.flatMap_singleton]
  rfl

end SoftUiWarp
