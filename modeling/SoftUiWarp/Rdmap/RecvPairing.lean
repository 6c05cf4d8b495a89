import SoftUiWarp.Rdmap.RecvPosting

/-!
# Receives with several buffers

`rdma_post_recv` puts every sge of a receive on queue 0 as a buffer of its own
and one work request on the receive queue, while a send takes one of each. With
both operations of `rdma_post_recv` in one go, sends and receives stay paired as
long as the receives completed have one sge. A send that takes the second
buffer of a receive finds the next work request, or none.

Results:
* `postedInTime_of_singles`: then a send finds a work request exactly if it was
  given a buffer.
* `recvs_paired`: every send that was given a buffer completes the receive the
  buffer belongs to.
-/

namespace SoftUiWarp

open TcpStream ByteMem Runs

/-- Receives are posted in one go, with any number of sges; sends, and no other
    messages, come on queue 0. -/
def PostTraffic : Label → Sys → Prop
  | .postWr, _ => True
  | .postBuffers wr, s => s.posting = none ∧ 1 ≤ wr.sgList.length
  | .recv, s => s.posting = none ∧ s.ep.SendsOnly
  | _, s => s.posting = none

/-- When `rnic_recv` handles a send, the receives completed before have one sge
    each; and if the send was given no buffer, no receive has been posted. -/
def SinglesBefore : Label → Sys → Prop
  | .recv, s => s.ep.handlesSend = true → (∀ wr ∈ s.hist.dequeued, wr.sgList.length = 1) ∧
      (¬s.hist.recvDone.length < s.hist.taken.length → s.ep.rq = [])
  | _, _ => True

instance : ∀ (l : Label) (s : Sys), Decidable (PostTraffic l s)
  | .postWr, _ => isTrue trivial
  | .postBuffers wr, s => inferInstanceAs (Decidable (s.posting = none ∧ 1 ≤ wr.sgList.length))
  | .recv, s => inferInstanceAs (Decidable (s.posting = none ∧ s.ep.SendsOnly))
  | .post _, s | .send _, s | .register _, s | .invalidate _, s | .store _, s =>
    inferInstanceAs (Decidable (s.posting = none))

instance : ∀ (l : Label) (s : Sys), Decidable (SinglesBefore l s)
  | .recv, s => inferInstanceAs (Decidable (s.ep.handlesSend = true → (_ ∧ (_ → _))))
  | .post _, _ | .send _, _ | .postBuffers _, _ | .postWr, _ | .register _, _ | .invalidate _, _
  | .store _, _ => isTrue trivial

section

variable {bld : Build} {s : Sys}

/-- A receive without buffers left on queue 0 is not on the receive queue
    either. -/
theorem postedInTime_of_singles (h : RecvInv s) (hpost : s.posting = none)
    (hs : SinglesBefore .recv s) : PostedInTime .recv s := by
  intro hsend
  obtain ⟨hsingle, hnone⟩ := hs hsend
  have hph := h.phase
  have hposted := h.posted
  have hdeq := congrArg List.length h.dequeued
  have hlen := congrArg List.length h.buffers
  rw [hpost] at hposted
  obtain ⟨ret, hpc⟩ : ∃ ret, s.ep.recvPc = .dispatch ret := by
    unfold Ep.handlesSend at hsend
    split at hsend
    · exact ⟨_, ‹_›⟩
    · cases hsend
  rw [Ep.completing_of_ne (by simp [hpc])] at hdeq
  constructor
  · intro hrq
    by_contra hlt
    exact hrq (hnone hlt)
  · intro hlt hrq
    -- all buffers posted are then taken by sends that are completed
    rw [hrq] at hposted
    simp only [Option.toList_none, List.append_nil] at hposted hdeq
    rw [hposted, flatMap_buffers hsingle] at hlen
    simp only [List.length_map, List.length_append] at hdeq hlen
    omega

/-- Before a receive is completed a send has been handled. -/
theorem recvStep_enqRecv {ep : Ep} {wce : WorkCompletion}
    (h : (rnicRecvStep bld ep).recvPc = .enqRecv wce) :
    ∃ ret wr rq, ep.recvPc = .dispatch ret ∧ ep.handlesSend = true ∧ ep.rq = wr :: rq := by
  cases hpc : ep.recvPc with
  | dispatch ret =>
    simp only [rnicRecvStep, hpc] at h
    have hd := dispatch_cases bld ep ret
    generalize ep.dispatch bld ret = e at hd h
    cases hd with
    | request hop => simp [Ep.fillResp] at h
    | response hop =>
      obtain ⟨-, heq⟩ | ⟨w, pending, -, heq⟩ := takePending_cases ep ret
      all_goals
        rw [heq] at h
        cases h
    | @send op tags hop hs =>
      have hsend : ep.handlesSend = true := by
        simp only [Ep.handlesSend, hpc]
        exact RdmaOpcode.isSend_iff.mpr ⟨op, hop, hs⟩
      obtain ⟨-, heq⟩ | ⟨wr, rq, hrq, -⟩ := takeRecv_cases (ep.withTags tags) ret op
      · rw [heq] at h
        cases h
      · exact ⟨ret, wr, rq, rfl, hsend, hrq⟩
    | ended tags con hend =>
      simp only at h
      subst h
      cases hend
  | idle =>
    by_cases hcon : ep.connected = true
    · obtain ⟨pc, hep, hnext⟩ := recvStep_idle bld hpc hcon
      rw [hep] at h
      rcases hnext with ⟨r, -, rfl⟩ | ⟨c, -, rfl⟩
      · exact absurd h (ofRet_ne_enqRecv _ _)
      · cases h
    · simp [rnicRecvStep, hpc, hcon] at h
  | payload c =>
    simp only [rnicRecvStep, hpc] at h
    exact absurd h (ofRet_ne_enqRecv _ _)
  | enqResp => simp [rnicRecvStep, hpc] at h
  | repost => simp [rnicRecvStep, hpc] at h
  | enqRead wce => simp [rnicRecvStep, hpc] at h
  | enqRecv wce => simp [rnicRecvStep, hpc] at h
  | stuck => simp [rnicRecvStep, hpc] at h
  | exited ret => simp [rnicRecvStep, hpc] at h
  | aborted => simp [rnicRecvStep, hpc] at h

/-- The receives dequeued before the one about to be completed have one sge. -/
def EarlierSingle (s : Sys) : Prop :=
  ∀ wce, s.ep.recvPc = .enqRecv wce → ∀ wr ∈ s.hist.dequeued.dropLast, wr.sgList.length = 1

theorem earlierSingle_step (l : Label) (h : EarlierSingle s) (hs : SinglesBefore l s) :
    EarlierSingle (step bld l s) := by
  cases l with
  | recv =>
    intro wce hpc'
    obtain ⟨ret, wr, rq, hpc, hsend, hrq⟩ := recvStep_enqRecv hpc'
    have hdeq : (step bld .recv s).hist.dequeued = s.hist.dequeued ++ [wr] := by
      simp only [step, rnicRecvStep, hpc] at hpc'
      simp only [step, History.recv, hpc, hpc', hrq]
      rfl
    rw [hdeq, List.dropLast_concat]
    exact (hs hsend).1
  | send junk =>
    obtain ⟨-, -, hpc, -⟩ := rnicSendStep_keeps junk s.st s.ep
    obtain ⟨-, -, hdeq, -⟩ := History.send_receives s.hist junk s.st s.ep
    intro wce hpc'
    simp only [step, hdeq] at hpc' ⊢
    exact h wce (hpc ▸ hpc')
  | post wr => exact h
  | postBuffers wr =>
    simp only [step]
    split <;> exact h
  | postWr =>
    simp only [step]
    split <;> exact h
  | register buf => exact h
  | invalidate tag => exact h
  | store ws => exact h

end

/-- Each send that is completed has its payload in a buffer of the receive
    whose identifier the completion has, and between two messages there is one
    completion for each send that was given a buffer. -/
structure RecvsPaired (s : Sys) : Prop where
  own : ∀ wce, s.ep.recvPc = .enqRecv wce → ∃ wr, s.hist.posted[s.hist.recvDone.length]? = some wr ∧
    wce.wrId = wr.wrId ∧ s.ep.msg.buf.untagBuf ∈ wr.buffers
  between : s.ep.recvPc = .idle → s.hist.taken.length = s.hist.recvDone.length

/-- The receive about to be completed is the one the buffer in hand belongs
    to: every receive before it has one buffer. -/
theorem RecvInv.own_buffer {s : Sys} (h : RecvInv s)
    (hone : ∀ wr ∈ s.hist.posted, 1 ≤ wr.sgList.length)
    (hearly : EarlierSingle s) {wce : WorkCompletion} (hpc : s.ep.recvPc = .enqRecv wce) :
    ∃ wr, s.hist.posted[s.hist.recvDone.length]? = some wr ∧ wce.wrId = wr.wrId ∧
      s.ep.msg.buf.untagBuf ∈ wr.buffers := by
  have hgiven : Given s := by
    have hph := h.phase
    simp only [Phase, hpc] at hph
    exact hph
  have hc : s.ep.completing = [wce] := by simp only [Ep.completing, hpc]
  have hids := h.dequeued
  rw [hc] at hids
  have hlen := congrArg List.length hids
  simp only [List.length_map, List.length_append, List.length_singleton] at hlen
  obtain ⟨d, wr, hd⟩ : ∃ d wr, s.hist.dequeued = d ++ [wr] :=
    ⟨_, _, (List.dropLast_append_getLast (List.ne_nil_of_length_pos (by omega))).symm⟩
  rw [hd] at hids hlen
  have hdlen : d.length = s.hist.recvDone.length := by simpa using hlen
  simp only [List.map_append, List.map_cons, List.map_nil] at hids
  have hid : wr.wrId = wce.wrId := by
    have := (List.append_inj hids (by simpa using hdlen)).2
    simpa using this
  have hposted := h.posted
  rw [hd, List.append_assoc, List.singleton_append] at hposted
  have hat : s.hist.posted[s.hist.recvDone.length]? = some wr := by
    rw [hposted, ← hdlen, List.getElem?_append_right le_rfl, Nat.sub_self, List.getElem?_cons_zero]
  refine ⟨wr, hat, hid.symm, ?_⟩
  -- the buffers before the one taken last are those of the receives `d`
  have hsingle : ∀ w ∈ d, w.sgList.length = 1 := by
    intro w hw
    refine hearly wce hpc w ?_
    rw [hd, List.dropLast_concat]
    exact hw
  obtain ⟨b, bs, hb⟩ : ∃ b bs, wr.buffers = b :: bs := by
    refine List.exists_cons_of_length_pos ?_
    rw [RecvWr.buffers, List.length_map]
    exact hone wr (List.mem_of_getElem? hat)
  have hlast := hgiven.last
  rw [List.getLast?_eq_getElem?, hgiven.count, Nat.add_sub_cancel] at hlast
  have htaken : (s.hist.taken ++ (s.ep.ddp.queues 0).q)[s.hist.recvDone.length]? =
      some s.ep.msg.buf.untagBuf := by
    rw [List.getElem?_append_left (by rw [hgiven.count]; omega), hlast]
  rw [← h.buffers, hposted, List.flatMap_append, List.flatMap_cons, flatMap_buffers hsingle, hb,
    List.getElem?_append_right (by simp [hdlen])] at htaken
  simp only [List.length_map, hdlen, Nat.sub_self, List.cons_append, List.getElem?_cons_zero,
    Option.some.injEq] at htaken
  rw [hb, ← htaken]
  exact List.mem_cons_self

/-- In every run in which a send is handled only after receives with one sge,
    and never finds a receive posted after it looked for a buffer in vain,
    every send that was given a buffer completes the receive it belongs to. -/
theorem recvs_paired {bld : Build} {s : Sys}
    (h : Reach (step bld) (fun l s => PostTraffic l s ∧ SinglesBefore l s) NewStream s) :
    RecvsPaired s := by
  obtain ⟨hinv, hone, hearly⟩ : RecvInv s ∧ (∀ wr ∈ s.hist.posted, 1 ≤ wr.sgList.length) ∧
      EarlierSingle s := by
    refine Reach.invariant (I := fun s => RecvInv s ∧ (∀ wr ∈ s.hist.posted, 1 ≤ wr.sgList.length) ∧
      EarlierSingle s) (fun s hs => ?_) ?_ h
    · refine ⟨recvInv_newStream hs, by simp [hs.hist], fun wce hpc => ?_⟩
      rw [hs.recvPc] at hpc
      cases hpc
    · rintro l s ⟨hs, hone, hearly⟩ ⟨htr, hsb⟩
      have htime : PostedInTime l s := by
        cases l with
        | recv => exact postedInTime_of_singles hs htr.1 hsb
        | _ => trivial
      refine ⟨recvInv_step l hs ?_ htime, posted_step l hone ?_, earlierSingle_step l hearly hsb⟩
      · rintro rfl
        exact htr.2
      · rintro wr rfl
        exact htr.2
  refine ⟨fun wce hpc => hinv.own_buffer hone hearly hpc, fun hpc => ?_⟩
  have hph := hinv.phase
  simp only [Phase, hpc] at hph
  exact hph

/-- A receive with two buffers of one byte. -/
def twoSges : RecvWr := ⟨43, [⟨0x4000, 1, 0⟩, ⟨0x4001, 1, 0⟩]⟩

/-- The second send uses the first buffer of a receive with two. -/
theorem recvs_paired_first_sge :
    let s := run (step ⟨false, false⟩)
      ([.postBuffers oneRecv, .postWr] ++ List.replicate 4 .recv ++
        [.postBuffers twoSges, .postWr] ++ List.replicate 4 .recv)
      (newSys (sendMsg 1 8 ++ sendMsg 2 9))
    s.ep.cq.map WorkCompletion.wrId = [42, 43] ∧ s.ep.mem.read 0x4000 2 = [9, 1] ∧
      RecvsPaired s := by
  intro s
  have hreach : Reach (step ⟨false, false⟩) (fun l s => PostTraffic l s ∧ SinglesBefore l s)
      NewStream s := Reach.run _ (.start (newStream_newSys _)) (by decide +kernel)
  exact ⟨by decide +kernel, by decide +kernel, recvs_paired hreach⟩

/-- The second send takes the second buffer of the receive 43 and completes the
    receive 42. -/
theorem recvs_paired_second_sge :
    let s := run (step ⟨false, false⟩)
      ([.postBuffers twoSges, .postWr] ++ List.replicate 4 .recv ++
        [.postBuffers oneRecv, .postWr] ++ List.replicate 3 .recv)
      (newSys (sendMsg 1 8 ++ sendMsg 2 9))
    Reach (step ⟨false, false⟩) PostTraffic NewStream s ∧
      s.hist.posted = [twoSges, oneRecv] ∧ s.ep.mem.read 0x4000 2 = [8, 9] ∧
      s.ep.completing.map WorkCompletion.wrId = [42] ∧ ¬RecvsPaired s := by
  intro s
  have hposted : s.hist.posted = [twoSges, oneRecv] := by decide +kernel
  have hcompl : s.ep.completing = [⟨42, .success, .send, 0⟩] := by decide +kernel
  have hdone : s.hist.recvDone.length = 1 := by decide +kernel
  have hbuf : s.ep.msg.buf.untagBuf ∉ oneRecv.buffers := by decide +kernel
  refine ⟨Reach.run _ (.start (newStream_newSys _)) (by decide +kernel), hposted, by decide +kernel,
    by rw [hcompl]; rfl, fun h => ?_⟩
  obtain ⟨wr, hwr, -, hmem⟩ := h.own _ (Ep.recvPc_of_completing hcompl)
  rw [hposted, hdone] at hwr
  cases hwr
  exact hbuf hmem

end SoftUiWarp
