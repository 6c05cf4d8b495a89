import SoftUiWarp.Rdmap.System

/-!
# What a peer can read

`rnic_recv` looks up the STag of a read request and logs an error if it is not
registered; it does not compare the range with the buffer, and it enqueues the
response in every case. So a peer reads only registered memory exactly when it
asks for nothing else.

Results:
* `recvStep_enqResp`: a response is about to be enqueued only after a read
  request, with the fields of that request.
* `read_access_iff`: the responses enqueued in a run of `rnic_recv` name
  registered memory exactly when the requests received do.
-/

namespace SoftUiWarp

open TcpStream ByteMem

/-- The `n` bytes from `addr` on lie in the buffer registered under `tag`. -/
def Registered (tags : UInt32 → Option TaggedBuffer) (tag : UInt32) (addr : UInt64) (n : ℕ) : Prop :=
  ∃ b, tags tag = some b ∧
    ∀ i < n, b.data.toNat ≤ addr.toNat + i ∧ addr.toNat + i < b.data.toNat + b.len.toNat

/-- If the next step of `rnic_recv` enqueues a read response, the bytes it will
    send are registered now. -/
def RespRegistered (ep : Ep) : Prop :=
  ep.recvPc = .enqResp → Registered ep.ddp.taggedBuffers ep.sg.lkey ep.sg.addr ep.sg.length.toNat

/-- If the next step of `rnic_recv` handles a read request, the request names
    registered memory. A tagged message with this opcode ends the process,
    unless `NDEBUG` is defined. -/
def ReqRegistered (bld : Build) (ep : Ep) : Prop :=
  ep.handles .rdmaReadReq → (bld.ndebug ∨ ddpIsTagged ep.msg.hdr = false) →
    Registered ep.ddp.taggedBuffers (ep.readReq bld).srcTag (ep.readReq bld).srcTO
      (ep.readReq bld).rdmaRdSz.toNat

section

variable {bld : Build} {ep : Ep}

theorem fillResp_registered :
    RespRegistered (ep.fillResp bld) ↔
      Registered ep.ddp.taggedBuffers (ep.readReq bld).srcTag (ep.readReq bld).srcTO
        (ep.readReq bld).rdmaRdSz.toNat := by
  simp only [RespRegistered, Ep.fillResp, true_implies]

/-- A read request is handled by filling `sg` and `read_resp`. -/
theorem recvStep_readReq (h : ep.handles .rdmaReadReq)
    (ht : bld.ndebug ∨ ddpIsTagged ep.msg.hdr = false) :
    rnicRecvStep bld ep = ep.fillResp bld := by
  unfold Ep.handles at h
  split at h
  · rename_i ret hpc
    have hc : bld.ndebug = true ∨ (!ddpIsTagged ep.msg.hdr) = true := by
      rcases ht with ht | ht
      · exact .inl ht
      · exact .inr (by simp [ht])
    simp only [rnicRecvStep, hpc, Ep.dispatch, h, Ep.assertThen, if_pos hc]
  · exact h.elim

/-- Before a response is enqueued a read request has been handled. -/
theorem recvStep_enqResp (h : (rnicRecvStep bld ep).recvPc = .enqResp) :
    ep.handles .rdmaReadReq ∧ (bld.ndebug ∨ ddpIsTagged ep.msg.hdr = false) := by
  cases hpc : ep.recvPc with
  | dispatch ret =>
    simp only [rnicRecvStep, hpc] at h
    have hop : ep.opcode = some .rdmaReadReq := by
      have hd := dispatch_cases bld ep ret
      generalize ep.dispatch bld ret = e at hd h
      cases hd with
      | request hop => exact hop
      | response hop =>
        obtain ⟨-, heq⟩ | ⟨wce, pending, -, heq⟩ := takePending_cases ep ret
        all_goals
          rw [heq] at h
          cases h
      | @send op tags hop hs =>
        obtain ⟨-, heq⟩ | ⟨wr, rq, -, heq⟩ := takeRecv_cases (ep.withTags tags) ret op
        all_goals
          rw [heq] at h
          cases h
      | ended tags con hend =>
        simp only at h
        subst h
        cases hend
    refine ⟨by simpa only [Ep.handles, hpc] using hop, ?_⟩
    -- otherwise the assertion fails
    by_contra hn
    have hc : ¬(bld.ndebug = true ∨ (!ddpIsTagged ep.msg.hdr) = true) := by
      rintro (hc | hc)
      · exact hn (.inl hc)
      · exact hn (.inr (by simpa using hc))
    simp only [Ep.dispatch, hop, Ep.assertThen, if_neg hc, reduceCtorEq] at h
  | idle =>
    simp only [rnicRecvStep, hpc] at h
    split at h
    · simp only at h
      split at h
      · exact absurd h (ofRet_ne_enqResp _)
      · cases h
    · cases h
  | payload c =>
    simp only [rnicRecvStep, hpc] at h
    exact absurd h (ofRet_ne_enqResp _)
  | enqResp => simp only [rnicRecvStep, hpc, reduceCtorEq] at h
  | repost => simp only [rnicRecvStep, hpc, reduceCtorEq] at h
  | enqRead wce => simp only [rnicRecvStep, hpc, reduceCtorEq] at h
  | enqRecv wce => simp only [rnicRecvStep, hpc, reduceCtorEq] at h
  | stuck => simp only [rnicRecvStep, hpc, reduceCtorEq] at h
  | exited ret => simp only [rnicRecvStep, hpc, reduceCtorEq] at h
  | aborted => simp only [rnicRecvStep, hpc, reduceCtorEq] at h

/-- Over every stream and with every registry, the read responses `rnic_recv`
    enqueues name registered memory exactly when the read requests it handles
    do. -/
theorem read_access_iff (bld : Build) {ep : Ep} (h0 : ep.recvPc ≠ .enqResp) :
    (∀ n, RespRegistered ((rnicRecvStep bld)^[n] ep)) ↔
      ∀ n, ReqRegistered bld ((rnicRecvStep bld)^[n] ep) := by
  constructor
  · intro h n hreq ht
    have hn := h (n + 1)
    rw [Function.iterate_succ_apply', recvStep_readReq hreq ht] at hn
    exact fillResp_registered.mp hn
  · intro h n
    cases n with
    | zero => exact fun hpc => absurd hpc h0
    | succ n =>
      rw [Function.iterate_succ_apply']
      intro hpc
      obtain ⟨hreq, ht⟩ := recvStep_enqResp hpc
      have hn := fillResp_registered.mpr (h n hreq ht)
      rw [← recvStep_readReq hreq ht] at hn
      exact hn hpc

end

/-! ## Two requests -/

/-- A blocked thread handles no further request. -/
theorem handles_of_stuck {bld : Build} {ep : Ep} (h : ep.recvPc = .stuck) (n : ℕ) :
    ¬((rnicRecvStep bld)^[n] ep).handles .rdmaReadReq := by
  have hfix : rnicRecvStep bld ep = ep := by simp only [rnicRecvStep, h]
  rw [Function.iterate_fixed hfix]
  simp [Ep.handles, h]

def RecvPc.isStuck : RecvPc → Bool
  | .stuck => true
  | _ => false

def RecvPc.isEnqResp : RecvPc → Bool
  | .enqResp => true
  | _ => false

theorem RecvPc.eq_stuck {pc : RecvPc} (h : pc.isStuck = true) : pc = .stuck := by
  unfold RecvPc.isStuck at h
  split at h
  · rfl
  · cases h

theorem RecvPc.eq_enqResp {pc : RecvPc} (h : pc.isEnqResp = true) : pc = .enqResp := by
  unfold RecvPc.isEnqResp at h
  split at h
  · rfl
  · cases h

/-- A request for two bytes inside the buffer registered at `0x1000`: one
    response is enqueued. -/
theorem read_access_inside :
    let ep := rdmaRegister (newSys (readReqMsg 1 ⟨1, 0x10, 2, 0x1000, 0x1002⟩)).ep
      ⟨⟨0, 0⟩, 0x1000, 4⟩
    ((rnicRecvStep ⟨false, false⟩)^[4] ep).sq.length = 1 ∧
      ∀ n, RespRegistered ((rnicRecvStep ⟨false, false⟩)^[n] ep) := by
  intro ep
  refine ⟨by decide +kernel, (read_access_iff ⟨false, false⟩ (fun h => by cases h)).mpr ?_⟩
  intro n hreq
  by_cases hn : n < 6
  · have hother : n ≠ 2 → ¬((rnicRecvStep ⟨false, false⟩)^[n] ep).handles .rdmaReadReq := by
      clear hreq
      revert n
      decide +kernel
    obtain rfl : n = 2 := by
      by_contra hne
      exact hother hne hreq
    exact fun _ => ⟨⟨⟨0x1000, 0⟩, 0x1000, 4⟩, by decide +kernel, by decide +kernel⟩
  · obtain ⟨k, rfl⟩ := Nat.exists_eq_add_of_le (not_lt.mp hn)
    rw [Nat.add_comm, Function.iterate_add_apply] at hreq
    exact absurd hreq (handles_of_stuck (RecvPc.eq_stuck (by decide +kernel)) k)

/-- Nothing is registered and the peer asks for two bytes under the STag 7: the
    response is enqueued all the same. -/
theorem read_access_unregistered :
    let ep := (newSys (readReqMsg 1 ⟨1, 0x10, 2, 7, 0x1002⟩)).ep
    (∀ tag, ep.ddp.taggedBuffers tag = none) ∧
      ((rnicRecvStep ⟨false, false⟩)^[4] ep).sq.length = 1 ∧
      ¬∀ n, RespRegistered ((rnicRecvStep ⟨false, false⟩)^[n] ep) := by
  intro ep
  refine ⟨fun _ => rfl, by decide +kernel, fun h => ?_⟩
  obtain ⟨b, hb, -⟩ := h 3 (RecvPc.eq_enqResp (by decide +kernel))
  have hnone : ((rnicRecvStep ⟨false, false⟩)^[3] ep).ddp.taggedBuffers
      ((rnicRecvStep ⟨false, false⟩)^[3] ep).sg.lkey = none := by decide +kernel
  rw [hnone] at hb
  cases hb

end SoftUiWarp
