import SoftUiWarp.Rdmap.Link

/-!
# The completions of receives

A receive completion is made when `rnic_recv` handles a Send, whatever the two
applications and TCP do in the meantime. A Send that finds no work request on
the receive queue makes none.

Results:
* `sendsInv_step`: the invariant of the Sends received and the completions.
* `receives_complete_sends`: in every run the receive completions of a host are
  for Sends of its peer, in the order they were sent, at most one for each, and
  for its own receives in the order they were posted.
-/

namespace SoftUiWarp

open Runs

/-! ## One host -/

/-- The opcode that the completion of a receive has, for a message with the
    opcode `op`. -/
def RdmaOpcode.recvWc (op : Option RdmaOpcode) : List WcOpcode :=
  if RdmaOpcode.isSend op then (op.map RdmaOpcode.toWc).toList else []

theorem RdmaOpcode.recvWc_of_isSend {op : RdmaOpcode} (h : op.IsSend) :
    RdmaOpcode.recvWc (some op) = [op.toWc] := by
  rw [RdmaOpcode.recvWc, if_pos (RdmaOpcode.isSend_iff.mpr ⟨op, rfl, h⟩)]
  rfl

/-- The Send that waits for the switch or, behind the switch, for the completion
    queue. -/
def Ep.sendHeld (ep : Ep) : List WcOpcode :=
  match ep.recvPc with
  | .dispatch _ => RdmaOpcode.recvWc ep.opcode
  | .enqRecv wce => [wce.opcode]
  | _ => []

/-- Receives are dequeued and completed in the order they were posted, and the
    completions have the opcodes of some of the Sends among the messages `rxs`. -/
structure SendsInv (rxs : List Rx) (s : Sys) : Prop where
  posted : s.hist.posted = s.hist.dequeued ++ (s.ep.rq ++ s.posting.toList)
  dequeued : s.hist.dequeued.map RecvWr.wrId =
    (s.hist.recvDone ++ s.ep.completing).map WorkCompletion.wrId
  opcodes : (s.hist.recvDone.map WorkCompletion.opcode ++ s.ep.sendHeld).Sublist
    (rxs.flatMap fun rx => RdmaOpcode.recvWc rx.opcode)
  success : ∀ wce ∈ s.hist.recvDone ++ s.ep.completing, wce.status = .success

section

variable {bld : Build} {s : Sys} {rxs : List Rx} {ep : Ep} {hist : History}
  {st : Statics}

/-- The lists of the history that the invariant is about. -/
structure History.SameReceives (h h' : History) : Prop where
  posted : h'.posted = h.posted
  dequeued : h'.dequeued = h.dequeued
  recvDone : h'.recvDone = h.recvDone

/-- A step that leaves the receives alone; it may drop the Send in hand. -/
theorem SendsInv.frame (h : SendsInv rxs s) (hh : s.hist.SameReceives hist)
    (hrq : ep.rq = s.ep.rq) (hc : ep.completing = s.ep.completing)
    (hheld : ep.sendHeld.Sublist s.ep.sendHeld) :
    SendsInv rxs { s with st := st, ep := ep, hist := hist } where
  posted := by
    simp only [hh.posted, hh.dequeued, hrq]
    exact h.posted
  dequeued := by
    simp only [hh.dequeued, hh.recvDone, hc]
    exact h.dequeued
  opcodes := by
    simp only [hh.recvDone]
    exact (List.Sublist.append_left hheld _).trans h.opcodes
  success := by
    simp only [hh.recvDone, hc]
    exact h.success

theorem RecvPc.Free.completing (h : ep.recvPc.Free) : ep.completing = [] :=
  Ep.completing_of_ne fun wce hpc => by
    rw [hpc] at h
    exact h

theorem Ep.sendHeld_of_ne (hd : ∀ ret, ep.recvPc ≠ .dispatch ret)
    (he : ∀ wce, ep.recvPc ≠ .enqRecv wce) : ep.sendHeld = [] := by
  unfold Ep.sendHeld
  split
  · exact absurd ‹_› (hd _)
  · exact absurd ‹_› (he _)
  · rfl

theorem RecvPc.Free.sendHeld (h : ep.recvPc.Free) : ep.sendHeld = [] :=
  Ep.sendHeld_of_ne
    (fun ret hpc => by
      rw [hpc] at h
      exact h)
    fun wce hpc => by
      rw [hpc] at h
      exact h

/-- The switch makes a completion for a Send that finds a work request. -/
theorem sendsInv_dispatch {ret : ℤ} (h : SendsInv rxs s) (hpc : s.ep.recvPc = .dispatch ret) :
    SendsInv rxs { s with ep := s.ep.dispatch bld ret, hist := s.hist.recv bld s.ep } := by
  have hc : s.ep.completing = [] := Ep.completing_of_ne (by simp [hpc])
  have hsame : (∀ wce, (s.ep.dispatch bld ret).recvPc ≠ .enqRecv wce) →
      s.hist.SameReceives (s.hist.recv bld s.ep) := fun hne =>
    have hh := History.recv_receives bld s.hist hpc hne
    ⟨hh.1, hh.2.2.1, hh.2.2.2⟩
  have hsend : ∀ wce, (s.ep.dispatch bld ret).recvPc = .enqRecv wce → s.hist.recv bld s.ep =
      { s.hist with dequeued := s.hist.dequeued ++ s.ep.rq.take 1 } := fun wce hn => by
    simp only [History.recv, hpc, hn]
  have hd := dispatch_cases bld s.ep ret
  generalize s.hist.recv bld s.ep = hist at hsame hsend ⊢
  generalize s.ep.dispatch bld ret = ep at hd hsame hsend ⊢
  -- no completion is made: the message in hand is dropped
  have drop (hrq : ep.rq = s.ep.rq) (hne : ∀ wce, ep.recvPc ≠ .enqRecv wce)
      (hnd : ∀ ret, ep.recvPc ≠ .dispatch ret) : SendsInv rxs { s with ep := ep, hist := hist } := by
    refine h.frame (hsame hne) hrq ((Ep.completing_of_ne hne).trans hc.symm) ?_
    rw [Ep.sendHeld_of_ne hnd hne]
    exact List.nil_sublist _
  cases hd with
  | request => exact drop rfl (by simp [Ep.fillResp]) (by simp [Ep.fillResp])
  | response =>
    obtain ⟨-, heq⟩ | ⟨wce, pending, -, heq⟩ := takePending_cases s.ep ret
    all_goals exact drop (by rw [heq]) (by simp [heq]) (by simp [heq])
  | ended tags con hend => exact drop rfl (by cases hend <;> simp) (by cases hend <;> simp)
  | @send op tags hop hs =>
    obtain ⟨-, heq⟩ | ⟨wr, rq, hrq, heq⟩ := takeRecv_cases (s.ep.withTags tags) ret op
    · exact drop (by rw [heq]; rfl) (by simp [heq]) (by simp [heq])
    · have hrq' : s.ep.rq = wr :: rq := hrq
      rw [heq] at hsend ⊢
      rw [hsend _ rfl, hrq']
      have hheld : s.ep.sendHeld = [op.toWc] := by
        simp only [Ep.sendHeld, hpc, hop, RdmaOpcode.recvWc_of_isSend hs]
      have hdeq := h.dequeued
      have hops := h.opcodes
      have hok := h.success
      rw [hc] at hdeq hok
      rw [hheld] at hops
      refine ⟨?_, ?_, ?_, ?_⟩
      · rw [h.posted, hrq']
        simp
      · simpa [Ep.completing] using hdeq
      · simpa [Ep.sendHeld] using hops
      · simpa [Ep.completing, or_imp, forall_and] using hok

/-- Outside the switch a Send comes in hand when it is received, and its
    completion goes to the completion queue. -/
theorem sendsInv_recv (h : SendsInv rxs s) : SendsInv (rxs ++ rxOf .recv s) (step bld .recv s) := by
  have hturn := step_recvTurn bld s
  generalize rxOf .recv s = new at hturn ⊢
  generalize step bld .recv s = s' at hturn ⊢
  cases hturn with
  | reads hpc hpc' =>
    rw [List.append_nil]
    refine h.frame ⟨rfl, rfl, rfl⟩ rfl (hpc'.completing.trans hpc.completing.symm) ?_
    rw [hpc'.sendHeld]
    exact List.nil_sublist _
  | receives hpc =>
    have hops := h.opcodes
    rw [hpc.sendHeld, List.append_nil] at hops
    refine ⟨h.posted, ?_, ?_, ?_⟩
    · have hdeq := h.dequeued
      rw [hpc.completing] at hdeq
      exact hdeq
    · rw [List.flatMap_append, List.flatMap_singleton]
      exact hops.append (List.Sublist.refl _)
    · have hok := h.success
      rw [hpc.completing] at hok
      exact hok
  | dispatches hpc =>
    rw [List.append_nil]
    exact sendsInv_dispatch h hpc
  | answers hpc =>
    rw [List.append_nil]
    have hc : s.ep.completing = [] := Ep.completing_of_ne (by simp [hpc])
    refine h.frame ⟨rfl, rfl, rfl⟩ rfl hc.symm ?_
    exact List.nil_sublist _
  | completesRead hpc =>
    rw [List.append_nil]
    have hc : s.ep.completing = [] := Ep.completing_of_ne (by simp [hpc])
    refine h.frame ⟨rfl, rfl, rfl⟩ rfl hc.symm ?_
    exact List.nil_sublist _
  | @completesRecv wce hpc =>
    rw [List.append_nil]
    have hc : s.ep.completing = [wce] := by simp only [Ep.completing, hpc]
    have hheld : s.ep.sendHeld = [wce.opcode] := by simp only [Ep.sendHeld, hpc]
    have hdeq := h.dequeued
    have hops := h.opcodes
    have hok := h.success
    rw [hc] at hdeq hok
    rw [hheld] at hops
    refine ⟨h.posted, ?_, ?_, ?_⟩
    · simpa [Ep.completing] using hdeq
    · simpa [Ep.sendHeld] using hops
    · simpa [Ep.completing] using hok

/-! ### The other steps -/

/-- The message in hand and the completion made are where they were. -/
theorem SendsInv.same (h : SendsInv rxs s) (hh : s.hist.SameReceives hist)
    (hrq : ep.rq = s.ep.rq) (hpc : ep.recvPc = s.ep.recvPc) (hmsg : ep.msg = s.ep.msg) :
    SendsInv rxs { s with st := st, ep := ep, hist := hist } := by
  refine h.frame hh hrq (by simp only [Ep.completing, hpc]) ?_
  have hheld : ep.sendHeld = s.ep.sendHeld := by simp only [Ep.sendHeld, Ep.opcode, hpc, hmsg]
  rw [hheld]

theorem sendsInv_step (bld : Build) (l : Label) (s : Sys) (rxs : List Rx) (h : SendsInv rxs s) :
    SendsInv (rxs ++ rxOf l s) (step bld l s) := by
  by_cases hl : l = .recv
  · subst hl
    exact sendsInv_recv h
  rw [rxOf_of_ne hl, List.append_nil]
  cases l with
  | recv => exact absurd rfl hl
  | send junk =>
    obtain ⟨-, hrq, hpc, hmsg⟩ := rnicSendStep_keeps junk s.st s.ep
    obtain ⟨hposted, -, hdeq, hdone⟩ := s.hist.send_receives junk s.st s.ep
    exact h.same ⟨hposted, hdeq, hdone⟩ hrq hpc hmsg
  | postBuffers wr =>
    cases hpost : s.posting with
    | some w =>
      simp only [step, hpost]
      exact h
    | none =>
      simp only [step, hpost]
      have hposted := h.posted
      rw [hpost] at hposted
      refine ⟨?_, h.dequeued, h.opcodes, h.success⟩
      simp [postRecvBuffers, hposted]
  | postWr =>
    cases hpost : s.posting with
    | none =>
      simp only [step, hpost]
      exact h
    | some wr =>
      simp only [step, hpost]
      have hposted := h.posted
      rw [hpost] at hposted
      refine ⟨?_, h.dequeued, h.opcodes, h.success⟩
      simpa [postRecvWr] using hposted
  | _ => exact h.same ⟨rfl, rfl, rfl⟩ rfl rfl rfl

theorem NewStream.sendsInv (h : NewStream s) : SendsInv [] s := by
  have hc : s.ep.completing = [] := Ep.completing_of_ne (by simp [h.recvPc])
  have hheld : s.ep.sendHeld = [] := Ep.sendHeld_of_ne (by simp [h.recvPc]) (by simp [h.recvPc])
  refine ⟨?_, ?_, ?_, ?_⟩
  all_goals simp [h.hist, h.rq, h.posting, hc, hheld]

end

/-! ## Both hosts -/

/-- Two new streams whose handshake is over. -/
structure Link.New (w : Link) : Prop extends w.Fresh where
  stream : ∀ r, NewStream (w.host r)

/-- The Sends among the messages of a host. -/
def sendsOf (ts : List Tx) : List Tx := ts.filter fun t => RdmaOpcode.isSend (some t.req.opcode)

theorem flatMap_recvWc (ts : List Tx) :
    (ts.flatMap fun t => RdmaOpcode.recvWc (some t.req.opcode)) =
      (sendsOf ts).map fun t => t.req.opcode.toWc := by
  induction ts with
  | nil => rfl
  | cons t ts ih =>
    rw [List.flatMap_cons, ih, sendsOf, sendsOf, List.filter_cons, RdmaOpcode.recvWc]
    split <;> rfl

/-- What the receiver takes for Sends are the Sends. -/
theorem flatMap_delivered {ts : List Tx} {rxs : List Rx} (h : List.Forall₂ Delivered ts rxs) :
    (rxs.flatMap fun rx => RdmaOpcode.recvWc rx.opcode) =
      (sendsOf ts).map fun t => t.req.opcode.toWc := by
  rw [← flatMap_recvWc]
  induction h with
  | nil => rfl
  | cons hd _ ih => rw [List.flatMap_cons, List.flatMap_cons, ih, hd.opcode.1]

theorem Link.New.sendsInv {w : Link} (hw : w.New) (bld : Role → Build) (ls : List LinkLabel)
    (r : Role) : SendsInv (linkRxs bld r ls w) ((run (Link.step bld) ls w).host r) :=
  host_invariant (G := fun _ _ => True) (fun l s ts _ => sendsInv_step _ l s ts)
    (fun _ _ _ hi => hi.same ⟨rfl, rfl, rfl⟩ rfl rfl rfl) (hw.stream r).sendsInv
    (admits_atHost bld r ls w)

/-- In every run of the two hosts that sends messages: the receive completions of a host are for
    Sends of its peer, in the order they were sent and at most one for each;
    they are all successful, have the opcode of the Send, and complete the
    receives of the host in the order they were posted. -/
theorem receives_complete_sends (bld : Role → Build) {w : Link} (hw : w.New) {ls : List LinkLabel}
    (hG : Admits (Link.step bld) SendsMessages ls w) (r : Role) :
    let h := ((run (Link.step bld) ls w).host r.peer).hist
    (∃ sends : List Tx, sends.Sublist (sendsOf (linkTxs bld r ls w)) ∧
      h.recvDone.map WorkCompletion.opcode = sends.map fun t => t.req.opcode.toWc) ∧
    (∀ wce ∈ h.recvDone, wce.status = .success) ∧
    h.recvDone.map WorkCompletion.wrId <+: h.posted.map RecvWr.wrId := by
  intro h
  obtain ⟨got, rest, heq, hgot, -⟩ := hw.toFresh.run bld hG r
  have hinv := hw.sendsInv bld ls r.peer
  refine ⟨?_, fun wce hwce => hinv.success wce (List.mem_append_left _ hwce), ?_⟩
  · have hsub := (List.sublist_append_left _ _).trans hinv.opcodes
    rw [flatMap_delivered hgot] at hsub
    obtain ⟨sends, hsends, hops⟩ := List.sublist_map_iff.mp hsub
    refine ⟨sends, ?_, hops⟩
    rw [heq, sendsOf, List.filter_append]
    exact hsends.trans (List.sublist_append_left _ _)
  · have hposted := congrArg (List.map RecvWr.wrId) hinv.posted
    rw [List.map_append, hinv.dequeued, List.map_append, List.append_assoc] at hposted
    exact ⟨_, hposted.symm⟩

theorem new_newLink : newLink.New where
  toFresh := fresh_newLink
  stream _ := newStream_newSys []

/-- The steps of two Sends of one byte, one after the other, the first into the
    receive `wr`, the second into the receive `wr'`. -/
def sendTwice (wr wr' : RecvWr) : List LinkLabel :=
  [.act .server (.postBuffers wr), .act .server .postWr] ++ (serve (sendWr 1)).map (.act .client) ++
  [.deliver .client 100] ++ List.replicate 3 (.act .server .recv) ++
  [.act .server (.postBuffers wr'), .act .server .postWr] ++ (serve (sendWr 2)).map (.act .client) ++
  [.deliver .client 100] ++ List.replicate 5 (.act .server .recv)

theorem receives_complete_sends_two :
    let ls := sendTwice oneRecv ⟨43, [⟨0x3001, 1, 0⟩]⟩
    let bld : Role → Build := fun _ => ⟨false, false⟩
    let h := ((run (Link.step bld) ls newLink).host .server).hist
    h.recvDone.length = 2 ∧ (sendsOf (linkTxs bld .client ls newLink)).length = 2 ∧
      (∃ sends : List Tx, sends.Sublist (sendsOf (linkTxs bld .client ls newLink)) ∧
        h.recvDone.map WorkCompletion.opcode = sends.map fun t => t.req.opcode.toWc) ∧
      h.recvDone.map WorkCompletion.wrId <+: h.posted.map RecvWr.wrId := by
  intro ls bld h
  obtain ⟨hops, -, hids⟩ :=
    @receives_complete_sends bld newLink new_newLink ls (by decide +kernel) .client
  exact ⟨by decide +kernel, by decide +kernel, hops, hids⟩

end SoftUiWarp
