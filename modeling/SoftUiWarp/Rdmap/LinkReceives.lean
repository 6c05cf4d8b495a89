import SoftUiWarp.Rdmap.LinkSends

/-!
# The buffers of the receives

A Send takes the buffer of a receive when its header is read, and the work
request when it is handled. In runs in which it finds a work request exactly if
it was given a buffer, the two are of one receive, and this receive has the
bytes that the peer has sent.

Results:
* `Delivered.onSendQ`: the Sends, and no other messages, come on queue 0.
* `received_step`: the receives dequeued and the Sends whose buffers they are.
* `receives_hold_sends`: in every run the receives completed hold the first
  Sends that were given a buffer.
-/

namespace SoftUiWarp

open ByteMem Runs

/-- The queue of an untagged call is the one of its counter. -/
theorem Job.call_qn {j : Job} {st : Statics} {mem : Mem} {h : DdpUntaggedMeta} {sges : List Sge}
    (hc : j.call st = some (.untagged mem h sges)) :
    ∃ c, j.req.opcode.counter = some c ∧ h.qn = htonl c.qn := by
  unfold Job.call at hc
  cases hop : j.req.opcode with
  | rdmaReadReq =>
    simp only [hop] at hc
    split at hc
    · cases hc
      exact ⟨.read, rfl, rfl⟩
    · cases hc
  | send | sendSe =>
    simp only [hop] at hc
    cases hc
    exact ⟨.send, rfl, rfl⟩
  | sendInval | sendSeInval =>
    simp only [hop] at hc
    cases hc
    exact ⟨.inval, rfl, rfl⟩
  | _ =>
    simp only [hop] at hc
    cases hc

/-- Only the Sends use queue 0. -/
theorem Delivered.onSendQ {t : Tx} {rx : Rx} (h : Delivered t rx) :
    RdmaOpcode.isSend rx.opcode = true ↔ rx.out.msg.OnSendQ := by
  rw [h.opcode.1]
  obtain ⟨c, hc, harr⟩ := h
  have hjob : t.job.call t.st = some c := hc
  cases harr with
  | tagged hdr =>
    have htag := (Job.call_ulp hjob).1
    have hnot : ¬rx.out.msg.OnSendQ := fun hq => by
      rw [hq.1] at hdr
      cases hdr
    refine iff_of_false (fun hs => ?_) hnot
    obtain ⟨o, ho, hsend⟩ := RdmaOpcode.isSend_iff.mp hs
    have ho' : t.job.req.opcode = o := Option.some.inj ho
    rw [ho'] at htag
    cases o <;> simp [RdmaOpcode.IsSend, RdmaOpcode.asserted, DdpCall.ulp] at hsend htag
  | @untagged smem nextHdr sges hdr fields =>
    have hqn : rx.out.msg.untaggedMetadata.qn = ntohl nextHdr.qn := by rw [fields]
    have hq : rx.out.msg.OnSendQ ↔ ntohl nextHdr.qn = sendQn := by
      rw [DdpMessage.OnSendQ, hqn]
      exact and_iff_right hdr
    obtain ⟨c, hcounter, hc⟩ := Job.call_qn hjob
    have hcounter' : t.req.opcode.counter = some c := hcounter
    rw [hq, hc, ntohl_htonl]
    cases hop : t.req.opcode with
    | rdmaReadReq =>
      rw [hop] at hcounter'
      rw [← Option.some.inj hcounter']
      decide
    | send | sendSe | sendInval | sendSeInval =>
      rw [hop] at hcounter'
      rw [← Option.some.inj hcounter']
      decide
    | _ =>
      rw [hop] at hcounter'
      cases hcounter'

/-! ## One host -/

/-- The messages of which the switch has been left. -/
def Ep.past (ep : Ep) (rxs : List Rx) : List Rx :=
  match ep.recvPc with
  | .dispatch _ => rxs.dropLast
  | _ => rxs

/-- The buffer of the receive is the one the message took. -/
def RecvWr.Holds (wr : RecvWr) (rx : Rx) : Prop := wr.buffers = [rx.out.msg.buf.untagBuf]

def rxSends (rxs : List Rx) : List Rx := rxs.filter fun rx => RdmaOpcode.isSend rx.opcode

/-- The receives dequeued are matched with Sends that took their buffers. -/
structure Received (rxs : List Rx) (s : Sys) : Prop where
  inv : RecvInv s
  single : ∀ wr ∈ s.hist.posted, wr.sgList.length = 1
  last : ∀ ret, s.ep.recvPc = .dispatch ret → ∃ pre rx, rxs = pre ++ [rx] ∧ rx.out.msg = s.ep.msg
  matched : ∃ sends : List Rx, sends.Sublist (rxSends (s.ep.past rxs)) ∧
    List.Forall₂ RecvWr.Holds s.hist.dequeued sends

section

variable {bld : Build} {s : Sys} {rxs : List Rx}

theorem Ep.past_of_ne {ep : Ep} (h : ∀ ret, ep.recvPc ≠ .dispatch ret) (rxs : List Rx) :
    ep.past rxs = rxs := by
  unfold Ep.past
  split
  · exact absurd ‹_› (h _)
  · rfl

theorem RecvPc.Free.past {ep : Ep} (h : ep.recvPc.Free) (rxs : List Rx) : ep.past rxs = rxs :=
  Ep.past_of_ne (fun ret hpc => by
    rw [hpc] at h
    exact h) rxs

theorem Ep.past_sublist (ep : Ep) (rxs : List Rx) : (ep.past rxs).Sublist rxs := by
  unfold Ep.past
  split
  · exact List.dropLast_sublist rxs
  · exact List.Sublist.refl rxs

/-- When a Send is handled that was given a buffer, the buffer is the one of the
    first receive on the receive queue. -/
theorem RecvInv.buffer_eq (h : RecvInv s) (hone : ∀ wr ∈ s.hist.posted, wr.sgList.length = 1)
    {ret : ℤ} (hpc : s.ep.recvPc = .dispatch ret) (hlt : s.hist.recvDone.length < s.hist.taken.length)
    {wr : RecvWr} {rq : List RecvWr} (hrq : s.ep.rq = wr :: rq) :
    wr.buffers = [s.ep.msg.buf.untagBuf] := by
  have hgiven : Given s := by
    have hph := h.phase
    simp only [Phase, hpc] at hph
    rcases hph with hset | hgiven
    · rw [hset] at hlt
      omega
    · exact hgiven
  have hposted := h.posted
  rw [hrq, List.cons_append] at hposted
  have hlen : s.hist.dequeued.length = s.hist.recvDone.length := by
    have hdeq := congrArg List.length h.dequeued
    rw [Ep.completing_of_ne (by simp [hpc])] at hdeq
    simpa using hdeq
  have hwr : s.hist.posted[s.hist.recvDone.length]? = some wr := by
    rw [hposted, ← hlen, List.getElem?_append_right le_rfl, Nat.sub_self]
    rfl
  have hbuf : s.hist.posted.map RecvWr.buffer = s.hist.taken ++ (s.ep.ddp.queues 0).q := by
    rw [← flatMap_buffers hone, h.buffers]
  have hlast := hgiven.last
  rw [List.getLast?_eq_getElem?, hgiven.count, Nat.add_sub_cancel] at hlast
  have hat := congrArg (fun l => l[s.hist.recvDone.length]?) hbuf
  simp only [List.getElem?_map, hwr, Option.map_some] at hat
  rw [List.getElem?_append_left hlt, hlast] at hat
  rw [RecvWr.buffers_eq (hone wr (List.mem_of_getElem? hwr)), Option.some_inj.mp hat]

/-- Only a Send that finds a work request dequeues one. -/
theorem dequeued_dispatch (bld : Build) {ret : ℤ} (hpc : s.ep.recvPc = .dispatch ret) :
    (s.hist.recv bld s.ep).dequeued = s.hist.dequeued ∨
      ∃ wr rq, s.ep.rq = wr :: rq ∧ RdmaOpcode.isSend s.ep.opcode = true ∧
        (s.hist.recv bld s.ep).dequeued = s.hist.dequeued ++ [wr] := by
  by_cases hne : ∀ wce, (s.ep.dispatch bld ret).recvPc ≠ .enqRecv wce
  · exact .inl (History.recv_receives bld s.hist hpc hne).2.2.1
  · simp only [not_forall, not_not] at hne
    obtain ⟨wce, hwce⟩ := hne
    have hsw := dispatch_switchesTo bld s.ep ret
    rw [hwce] at hsw
    cases hsw with
    | free h => exact h.elim
    | recv hop hs =>
      cases hrq : s.ep.rq with
      | nil =>
        left
        simp only [History.recv, hpc, hwce, hrq]
        simp
      | cons wr rq =>
        refine .inr ⟨wr, rq, rfl, RdmaOpcode.isSend_iff.mpr ⟨_, hop, hs⟩, ?_⟩
        simp only [History.recv, hpc, hwce, hrq]
        rfl

/-- At the switch the last message is in hand. -/
theorem Received.sendsOnly (h : Received rxs s)
    (hrxs : ∀ rx ∈ rxs, RdmaOpcode.isSend rx.opcode = true ↔ rx.out.msg.OnSendQ) :
    s.ep.SendsOnly := by
  cases hpc : s.ep.recvPc with
  | dispatch ret =>
    obtain ⟨pre, rx, heq, hmsg⟩ := h.last ret hpc
    have hiff := hrxs rx (by simp [heq])
    rw [Rx.opcode, hmsg] at hiff
    simp only [Ep.SendsOnly, hpc]
    exact hiff
  | _ => simp [Ep.SendsOnly, hpc]

theorem received_recv (h : Received rxs s)
    (hrxs : ∀ rx ∈ rxs, RdmaOpcode.isSend rx.opcode = true ↔ rx.out.msg.OnSendQ)
    (htime : PostedInTime .recv s) : Received (rxs ++ rxOf .recv s) (step bld .recv s) := by
  have hinv : RecvInv (step bld .recv s) :=
    recvInv_step .recv h.inv (fun _ => h.sendsOnly hrxs) htime
  have hone : ∀ wr ∈ (step bld .recv s).hist.posted, wr.sgList.length = 1 :=
    posted_step .recv h.single (by simp)
  have hturn := step_recvTurn bld s
  generalize rxOf .recv s = new at hturn ⊢
  generalize step bld .recv s = s' at hturn hinv hone ⊢
  obtain ⟨sends, hsub, hholds⟩ := h.matched
  cases hturn with
  | reads hpc hpc' =>
    rw [List.append_nil]
    refine ⟨hinv, hone, fun ret hd => ?_, sends, ?_, hholds⟩
    · simp only at hd
      rw [hd] at hpc'
      exact hpc'.elim
    · rw [hpc.past] at hsub
      rw [RecvPc.Free.past hpc']
      exact hsub
  | @receives out hpc =>
    refine ⟨hinv, hone, fun ret hd => ⟨rxs, ⟨s.ep, out⟩, rfl, rfl⟩, sends, ?_, hholds⟩
    rw [hpc.past] at hsub
    simp only [Ep.past, List.dropLast_concat]
    exact hsub
  | @dispatches ret hpc =>
    obtain ⟨pre, rx, heq, hmsg⟩ := h.last ret hpc
    have hne : ∀ ret', (s.ep.dispatch bld ret).recvPc ≠ .dispatch ret' := by
      intro ret' hd
      have hsw := dispatch_switchesTo bld s.ep ret
      rw [hd] at hsw
      cases hsw with
      | free h => exact h
    have hpast : s.ep.past rxs = pre := by simp only [Ep.past, hpc, heq, List.dropLast_concat]
    rw [hpast] at hsub
    rw [List.append_nil]
    refine ⟨hinv, hone, fun ret' hd => absurd hd (hne ret'), ?_⟩
    rw [Ep.past_of_ne hne, heq, rxSends, List.filter_append]
    show ∃ sends : List Rx, _ ∧ List.Forall₂ RecvWr.Holds (s.hist.recv bld s.ep).dequeued sends
    rcases dequeued_dispatch bld hpc with hdeq | ⟨wr, rq, hrq, hs, hdeq⟩
    · rw [hdeq]
      exact ⟨sends, hsub.trans (List.sublist_append_left _ _), hholds⟩
    · -- the Send was given the buffer of the receive it completes
      have hlt : s.hist.recvDone.length < s.hist.taken.length :=
        (htime (by simpa only [Ep.handlesSend, hpc] using hs)).mp (by simp [hrq])
      have hbuf := h.inv.buffer_eq h.single hpc hlt hrq
      have hsend : RdmaOpcode.isSend rx.opcode = true := by
        rw [Rx.opcode, hmsg]
        exact hs
      rw [hdeq, List.filter_singleton, hsend, cond_true]
      refine ⟨sends ++ [rx], hsub.append (List.Sublist.refl _), ?_⟩
      refine List.rel_append hholds (.cons ?_ .nil)
      rw [RecvWr.Holds, hmsg]
      exact hbuf
  | answers hpc =>
    rw [List.append_nil]
    refine ⟨hinv, hone, by simp, sends, ?_, hholds⟩
    rw [Ep.past_of_ne (by simp [hpc])] at hsub
    exact hsub
  | completesRead hpc =>
    rw [List.append_nil]
    refine ⟨hinv, hone, by simp, sends, ?_, hholds⟩
    rw [Ep.past_of_ne (by simp [hpc])] at hsub
    exact hsub
  | completesRecv hpc =>
    rw [List.append_nil]
    refine ⟨hinv, hone, by simp, sends, ?_, hholds⟩
    rw [Ep.past_of_ne (by simp [hpc])] at hsub
    exact hsub

theorem received_other {l : Label} (hl : l ≠ .recv) (h : Received rxs s)
    (hpost : ∀ wr, l = .postBuffers wr → wr.sgList.length = 1) (htime : PostedInTime l s) :
    Received rxs (step bld l s) := by
  obtain ⟨hpc, hmsg, -⟩ := step_other bld hl s
  have hdeq : (step bld l s).hist.dequeued = s.hist.dequeued := by
    cases l with
    | recv => exact absurd rfl hl
    | send junk => exact (s.hist.send_receives junk s.st s.ep).2.2.1
    | postBuffers wr =>
      simp only [step]
      split <;> rfl
    | postWr =>
      simp only [step]
      split <;> rfl
    | _ => rfl
  have hpast : (step bld l s).ep.past rxs = s.ep.past rxs := by simp only [Ep.past, hpc]
  refine ⟨recvInv_step l h.inv (fun he => absurd he hl) htime, posted_step l h.single hpost, ?_, ?_⟩
  · rw [hpc, hmsg]
    exact h.last
  · rw [hpast, hdeq]
    exact h.matched

/-- Bytes that arrive change nothing of the receives. -/
theorem Received.deliver (h : Received rxs s) (bs : List UInt8) : Received rxs (s.deliver bs) :=
  ⟨h.inv.frame_other ⟨rfl, rfl, rfl, rfl, rfl, rfl, rfl⟩ rfl rfl, h.single, h.last, h.matched⟩

theorem NewStream.received (h : NewStream s) : Received [] s := by
  refine ⟨recvInv_newStream h, by simp [h.hist], by simp [h.recvPc], [], List.nil_sublist _, ?_⟩
  rw [h.hist]
  exact .nil

theorem onSendQ_of_delivered {ts : List Tx} (h : List.Forall₂ Delivered ts rxs) :
    ∀ rx ∈ rxs, RdmaOpcode.isSend rx.opcode = true ↔ rx.out.msg.OnSendQ := by
  induction h with
  | nil => simp
  | cons hd _ ih =>
    intro rx hrx
    rcases List.mem_cons.mp hrx with rfl | hrx
    · exact hd.onSendQ
    · exact ih rx hrx

end

/-! ## Both hosts -/

/-- The application posts receives with one sge, and a Send finds a work request
    exactly if it was given a buffer. -/
def ReceivesInTime : Label → Sys → Prop
  | .postBuffers wr, _ => wr.sgList.length = 1
  | l, s => PostedInTime l s

instance : ∀ (l : Label) (s : Sys), Decidable (ReceivesInTime l s)
  | .postBuffers wr, _ => inferInstanceAs (Decidable (wr.sgList.length = 1))
  | .recv, s => inferInstanceAs (Decidable (PostedInTime .recv s))
  | .post _, _ | .send _, _ | .postWr, _ | .register _, _ | .invalidate _, _ | .store _, _ =>
    isTrue trivial

theorem ReceivesInTime.cases {l : Label} {s : Sys} (h : ReceivesInTime l s) :
    (∀ wr, l = .postBuffers wr → wr.sgList.length = 1) ∧ PostedInTime l s := by
  cases l with
  | postBuffers wr => exact ⟨fun wr' he => by cases he; exact h, trivial⟩
  | _ => exact ⟨by simp, h⟩

/-- What corresponds to a part of a list. -/
theorem exists_sublist_forall₂ {α β : Type} {R : α → β → Prop} {as : List α} {bs cs : List β}
    (h : List.Forall₂ R as bs) (hs : cs.Sublist bs) :
    ∃ ds : List α, ds.Sublist as ∧ List.Forall₂ R ds cs := by
  induction h generalizing cs with
  | nil =>
    rw [List.sublist_nil.mp hs]
    exact ⟨[], List.Sublist.refl _, .nil⟩
  | @cons a b as bs hab _ ih =>
    cases hs with
    | cons _ hs =>
      obtain ⟨ds, hds, hR⟩ := ih hs
      exact ⟨ds, hds.cons a, hR⟩
    | cons_cons _ hs =>
      obtain ⟨ds, hds, hR⟩ := ih hs
      exact ⟨a :: ds, hds.cons_cons a, .cons hab hR⟩

/-- What corresponds to the same list. -/
theorem forall₂_meet {α β γ : Type} {R : α → β → Prop} {S : γ → β → Prop} {as : List α} {bs : List β}
    {cs : List γ} (hR : List.Forall₂ R as bs) (hS : List.Forall₂ S cs bs) :
    List.Forall₂ (fun a c => ∃ b ∈ bs, S c b ∧ R a b) as cs := by
  induction hR generalizing cs with
  | nil =>
    cases hS
    exact .nil
  | @cons a b as bs hab _ ih =>
    cases hS with
    | cons hcb hrest =>
      refine .cons ⟨b, List.mem_cons_self, hcb, hab⟩ ((ih hrest).imp fun a' c' h => ?_)
      obtain ⟨b', hb', h'⟩ := h
      exact ⟨b', List.mem_cons_of_mem b hb', h'⟩

end SoftUiWarp
