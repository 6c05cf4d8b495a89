import SoftUiWarp.Ddp.Framing
import SoftUiWarp.Rdmap.CompletionQueues
import SoftUiWarp.Rdmap.HandlerTags

/-!
# The length a completion reports

`ddp_recv` adds up the payload of a message in `msg->len` and returns a status.
`rnic_recv` copies the status into `byte_len`.

Nothing is assumed of the stream: calls of `recv` return any counts and fail
anywhere.

Results:
* `ddpRecvPayload_zero`: a message that is received has a status of 0 and payload
  in its first segment.
* `byte_len_never`: no completion reports the length of its message.
-/

namespace SoftUiWarp

open TcpStream ByteMem Runs

/-! ## A packet that is used up -/

section

variable {s t : Inbound} {info : MpaPacket} {n r : ℤ} {len : UInt16} {k : ℕ}

theorem completes_of_ok (h : (mpaRecv s info n).ret.Ok) :
    HdrWhole s info ∧ ∃ rs ws t, Completes (s.advance info.hdrRem) (info.opened s) n rs ws t := by
  obtain ⟨r, h0, hr⟩ := h
  exact completes_of_val hr h0

/-- The packet after a call that opens it. -/
theorem mpaRecv_info_of_new (h : (mpaRecv s {} n).ret.Ok) :
    (mpaRecv s {} n).info = (MpaPacket.mk (segField s.pending) 2).after n := by
  obtain ⟨hh, rs, ws, t, hc⟩ := completes_of_ok h
  have hle : 2 ≤ s.pending.length := hdrRem_le hh
  have hopen : MpaPacket.opened {} s = ⟨segField s.pending, 2⟩ := by
    show MpaPacket.mk (ntohs (patchLen 0 (s.pending.take 2) 0)) 2 = _
    rw [patchLen_zero 0 (by simp; omega)]
    rfl
  rw [mpaRecv_of_completes hh hc, hopen]

/-- The packet after a call inside it. -/
theorem mpaRecv_info_of_open (hb : 2 ≤ info.bytesRcvd) (h : (mpaRecv s info n).ret.Ok) :
    (mpaRecv s info n).info = info.after n := by
  obtain ⟨hh, rs, ws, t, hc⟩ := completes_of_ok h
  have hopen : info.opened s = info := if_neg (not_lt.mpr hb)
  rw [mpaRecv_of_completes hh hc, hopen]

theorem rem_open : (MpaPacket.mk len (2 + k)).rem = (len.toNat : ℤ) - k := by
  simp only [MpaPacket.rem, mpaHdrSize]
  omega

theorem toRead_of_rem_le (h : info.rem ≤ n) : info.toRead n = info.rem := if_pos h

/-- Behind the end of the ULPDU a call for 0 bytes asks for a negative number of
    them, and fails. -/
theorem mpaRecv_used_up (h : len.toNat + 1 < k) : ¬(mpaRecv s ⟨len, 2 + k⟩ 0).ret.Ok := by
  intro hok
  obtain ⟨-, rs, ws, t, hc⟩ := completes_of_ok hok
  have hopen : (MpaPacket.mk len (2 + k)).opened s = ⟨len, 2 + k⟩ :=
    if_neg (by simp only [mpaHdrSize]; omega)
  rw [hopen] at hc
  have hrem : (MpaPacket.mk len (2 + k)).rem = (len.toNat : ℤ) - k := rem_open
  have hsum := hc.sum
  rw [toRead_of_rem_le (by omega), hrem] at hsum
  have hge := served_sum_ge hc.served le_rfl
  omega

/-- When the call for the rest of a header of `1 + k` bytes has taken the whole
    ULPDU, a payload of 0 bytes cannot be read. -/
theorem not_ok_after_header (hlen : len.toNat = 1 + k)
    (h : (mpaRecv s ⟨len, 2 + (1 : ℕ)⟩ k).ret.Ok) :
    ¬(mpaRecv t (mpaRecv s ⟨len, 2 + (1 : ℕ)⟩ k).info 0).ret.Ok := by
  have hrem : (MpaPacket.mk len (2 + (1 : ℕ))).rem = (len.toNat : ℤ) - (1 : ℕ) := rem_open
  have hle : (MpaPacket.mk len (2 + (1 : ℕ))).rem ≤ k := by omega
  have htrailer : (MpaPacket.mk len (2 + (1 : ℕ))).trailerLen k = padLen len.toNat + 4 := if_pos hle
  have hafter : (MpaPacket.mk len (2 + (1 : ℕ))).after k =
      ⟨len, 2 + ((1 + k + padLen len.toNat + 4 : ℕ) : ℤ)⟩ := by
    rw [MpaPacket.after, toRead_of_rem_le hle, htrailer, hrem, hlen]
    simp only [MpaPacket.mk.injEq, true_and]
    push_cast
    ring
  rw [mpaRecv_info_of_open (by simp only; omega) h, hafter]
  exact mpaRecv_used_up (by omega)

end

/-! ## The first segment -/

/-- The payload loop starts with a segment of `len` bytes whose header has `H` of
    them, and the call for its payload succeeds only if there is any. -/
structure FirstPayload (len H : ℕ) (c : SegCtx) : Prop where
  payloadLen : c.payloadLen = (len : ℤ) - H
  pos : ∀ s, (payloadCall s c).ret.Ok → 0 < c.payloadLen

section

variable {ctx : DdpCtx} {mem : Mem} {msg : DdpMessage} {c : SegCtx} {len : UInt16}

theorem firstPayload_of_header {s : Inbound} {k : ℕ} {r : ℤ}
    (hret : (mpaRecv s ⟨len, 2 + (1 : ℕ)⟩ k).ret = .val r) (h0 : 0 ≤ r)
    (hle : ¬(len.toNat : ℤ) - (1 + k : ℕ) < 0) (hinfo : c.info = (mpaRecv s ⟨len, 2 + (1 : ℕ)⟩ k).info)
    (hlen : c.payloadLen = (len.toNat : ℤ) - (1 + k : ℕ)) : FirstPayload len.toNat (1 + k) c where
  payloadLen := hlen
  pos t hok := by
    by_contra hpos
    have hzero : c.payloadLen = 0 := by omega
    rw [payloadCall, hzero, hinfo] at hok
    exact not_ok_after_header (by omega) ⟨r, h0, hret⟩ hok

theorem firstPayload_tagged (h : (ddpRecvTaggedHdr ctx msg ⟨len, 2 + (1 : ℕ)⟩).next = .inr c) :
    FirstPayload len.toNat 14 c := by
  unfold ddpRecvTaggedHdr at h
  simp only at h
  split at h
  · cases h
  · rename_i hle
    split at h
    · rename_i r hret
      split at h
      · cases h
      · rename_i hneg
        split at h
        · cases h
        · cases h
          exact firstPayload_of_header hret (by omega) hle rfl rfl
    · cases h

theorem firstPayload_untagged (h : (ddpRecvUntaggedHdr ctx msg ⟨len, 2 + (1 : ℕ)⟩).next = .inr c) :
    FirstPayload len.toNat 18 c := by
  unfold ddpRecvUntaggedHdr at h
  simp only at h
  split at h
  · cases h
  · rename_i hle
    split at h
    · rename_i r hret
      split at h
      · cases h
      · rename_i hneg
        split at h
        · cases h
        · cases h
          exact firstPayload_of_header hret (by omega) hle rfl rfl
    · cases h

/-- Of a message whose header is accepted. -/
theorem firstPayload_head (h : (ddpRecvHead ctx msg).next = .inr c) :
    FirstPayload (segLen ctx.inb.pending) (ddpHdrSize (ctx.inb.pending.getD 2 0)) c := by
  unfold ddpRecvHead at h
  simp only at h
  split at h
  · rename_i r hret
    split at h
    · cases h
    · rename_i hr
      have h0 : 0 ≤ r := by
        simp only [ddpCtrlSize] at hr
        omega
      obtain ⟨-, hctrl, hrest⟩ := mpaRecv_ctrl_any hret h0 (fun _ => msg.hdr)
      have hlen := congrArg MpaPacket.ulpduLen (mpaRecv_info_of_new ⟨r, h0, hret⟩)
      obtain ⟨⟨len, rcvd⟩, hinfo⟩ : ∃ i, (mpaRecv ctx.inb {} ddpCtrlSize).info = i := ⟨_, rfl⟩
      rw [hinfo] at hrest hlen h
      simp only [hctrl] at h
      have hseg : segLen ctx.inb.pending = len.toNat := congrArg UInt16.toNat hlen.symm
      rw [hseg, ddpHdrSize]
      split at h
      · rename_i ht
        obtain ⟨-, rfl⟩ := hrest (lt_len_of_taggedHdr h)
        rw [if_pos ht]
        exact firstPayload_tagged h
      · rename_i ht
        obtain ⟨-, rfl⟩ := hrest (lt_len_of_untaggedHdr h)
        rw [if_neg ht]
        exact firstPayload_untagged h
  · cases h

/-- The payload loop returns 0 or fails. -/
theorem segLoop_ok {K : SegKind} (fuel : ℕ) (s : Inbound) (c : SegCtx) (sum : ℤ)
    (acc : List Placement) (h : (segLoop K fuel s c sum acc).ret.Ok) :
    (segLoop K fuel s c sum acc).ret = .val 0 ∧ (payloadCall s c).ret.Ok := by
  induction fuel generalizing s c sum acc with
  | zero => exact absurd h not_ok_spin
  | succ fuel ih =>
    by_cases hok : (payloadCall s c).ret.Ok
    · refine ⟨?_, hok⟩
      by_cases hl : c.packed 0 &&& ddpFlagLast ≠ 0
      · rw [segLoop_last K hok hl]
      · by_cases hok2 : (headerCall K s c).ret.Ok
        · rw [segLoop_next K hok hl hok2] at h ⊢
          exact (ih _ _ _ _ h).1
        · rw [segLoop_hdr_stop K hok hl hok2] at h
          exact absurd h not_ok_failRet
    · rw [segLoop_stop K hok] at h
      exact absurd h not_ok_failRet

theorem ddpRecvPayload_zero (h : (ddpRecvPayload ctx mem msg c).ret.Ok) :
    (ddpRecvPayload ctx mem msg c).ret = .val 0 ∧ (payloadCall ctx.inb c).ret.Ok := by
  have hret : (ddpRecvPayload ctx mem msg c).ret =
      (segLoop msg.kind (ctx.inb.pending.length + 1) ctx.inb c 0 []).ret := by
    unfold ddpRecvPayload
    simp only
    split <;> rfl
  rw [hret] at h ⊢
  exact segLoop_ok _ _ _ _ _ h

end

/-- The payload of a message is at least that of its first segment. -/
theorem le_payloadSum {H : ℕ} {f : Fpdu} {fs : List Fpdu} (h : IsMessage H (f :: fs)) :
    (f.len : ℤ) - H ≤ payloadSum H (f :: fs) := by
  induction fs generalizing f with
  | nil => simp [payloadSum]
  | cons g fs ih =>
    obtain ⟨-, -, hrest⟩ := h
    have hle := ih hrest
    have hg := hrest.le
    simp only [payloadSum, List.map_cons, List.sum_cons] at hle ⊢
    omega

/-! ## The completion of a message -/

/-- `rnic_recv` has made the completion `wce` of the message in hand and enqueues
    it next. -/
def Ep.Reports (ep : Ep) (wce : WorkCompletion) : Prop :=
  ep.recvPc = .enqRead wce ∨ ep.recvPc = .enqRecv wce

section

variable {bld : Build} {ep : Ep} {wce : WorkCompletion} {ret : ℤ}

theorem not_reports_of_ne (h1 : ∀ w, ep.recvPc ≠ .enqRead w) (h2 : ∀ w, ep.recvPc ≠ .enqRecv w) :
    ¬ep.Reports wce := by
  rintro (h | h)
  · exact h1 wce h
  · exact h2 wce h

theorem not_reports_ofRet {r : Ret} (h : ep.recvPc = .ofRet r) : ¬ep.Reports wce := by
  apply not_reports_of_ne
  · rw [h]
    exact ofRet_ne_enqRead r
  · rw [h]
    exact ofRet_ne_enqRecv r

/-- The switch puts the status of `ddp_recv` into the completion. -/
theorem dispatch_byteLen (h : (ep.dispatch bld ret).Reports wce) :
    wce.byteLen = UInt32.ofInt ret := by
  have hd := dispatch_cases bld ep ret
  generalize ep.dispatch bld ret = ep' at hd h
  cases hd with
  | request => exact absurd h (not_reports_of_ne (by simp [Ep.fillResp]) (by simp [Ep.fillResp]))
  | response =>
    obtain ⟨-, heq⟩ | ⟨w, pending, -, heq⟩ := takePending_cases ep ret
    · rw [heq] at h
      exact absurd h (not_reports_of_ne (by simp) (by simp))
    · rw [heq] at h
      rcases h with h | h <;> cases h
      rfl
  | @send op tags =>
    obtain ⟨-, heq⟩ | ⟨wr, rq, -, heq⟩ := takeRecv_cases (ep.withTags tags) ret op
    · rw [heq] at h
      exact absurd h (not_reports_of_ne (by simp) (by simp))
    · rw [heq] at h
      rcases h with h | h <;> cases h
      rfl
  | ended tags con hend =>
    rcases h with h | h <;>
    · simp only at h
      subst h
      cases hend

/-- A completion is made in the switch and nowhere else. -/
theorem reports_of_step (h : (rnicRecvStep bld ep).Reports wce) :
    ∃ ret, ep.recvPc = .dispatch ret ∧ wce.byteLen = UInt32.ofInt ret := by
  cases hpc : ep.recvPc with
  | dispatch ret =>
    rw [recvStep_dispatch bld hpc] at h
    exact ⟨ret, rfl, dispatch_byteLen h⟩
  | idle =>
    by_cases hcon : ep.connected = true
    · obtain ⟨pc, heq, hnext⟩ := recvStep_idle bld hpc hcon
      rw [heq] at h
      rcases hnext with ⟨r, -, rfl⟩ | ⟨c, -, rfl⟩
      · exact absurd h (not_reports_ofRet rfl)
      · exact absurd h (not_reports_of_ne (by simp) (by simp))
    · simp only [rnicRecvStep, hpc, hcon] at h
      exact absurd h (not_reports_of_ne (by simp) (by simp))
  | payload c =>
    simp only [rnicRecvStep, hpc] at h
    exact absurd h (not_reports_ofRet rfl)
  | enqResp | repost | enqRead _ | enqRecv _ =>
    simp only [rnicRecvStep, hpc] at h
    exact absurd h (not_reports_of_ne (by simp) (by simp))
  | stuck | exited _ | aborted =>
    simp only [rnicRecvStep, hpc] at h
    exact absurd h (not_reports_of_ne (by simp [hpc]) (by simp [hpc]))

/-- The next step of `rnic_recv` enqueues it. -/
theorem recvStep_reports (h : ep.Reports wce) : (rnicRecvStep bld ep).cq = ep.cq ++ [wce] := by
  unfold rnicRecvStep
  rcases h with h | h <;> rw [h] <;> exact Ep.enqCq_cq ep wce

theorem ofRet_dispatch {r : Ret} (h : RecvPc.ofRet r = .dispatch ret) : r.Ok ∧ r = .val ret := by
  cases r with
  | val x =>
    simp only [RecvPc.ofRet] at h
    split at h
    · cases h
    · rename_i hneg
      cases h
      exact ⟨⟨_, by omega, rfl⟩, rfl⟩
  | blocked => cases h
  | spin => cases h

variable {s : Sys} {ls ls' ls'' : List Label} {fs : List Fpdu} {rest : List UInt8}

/-- A message that reaches the switch has status 0, and payload. -/
theorem atSwitch_zero (hidle : s.ep.recvPc = .idle)
    (hp : s.ep.ddp.inb.pending = wireOf fs ++ rest)
    (hmsg : IsMessage (ddpHdrSize (s.ep.ddp.inb.pending.getD 2 0)) fs)
    (hls : ∀ l ∈ ls, l ≠ .recv) (hls' : ∀ l ∈ ls', l ≠ .recv)
    (hret : (run (step bld) (.recv :: ls ++ .recv :: ls') s).ep.recvPc = .dispatch ret) :
    ret = 0 ∧ 0 < payloadSum (ddpHdrSize (s.ep.ddp.inb.pending.getD 2 0)) fs := by
  obtain ⟨c, ctx, mem, hnext, hof, -⟩ := atSwitch_payload hidle hls hls' hret
  obtain ⟨hok, hval⟩ := ofRet_dispatch hof
  obtain ⟨hzero, hpay⟩ := ddpRecvPayload_zero hok
  obtain ⟨hlen, hpos⟩ := firstPayload_head hnext
  refine ⟨by cases hzero.symm.trans hval; rfl, ?_⟩
  cases fs with
  | nil => exact absurd hmsg id
  | cons f fs =>
    have hseg : segLen s.ep.ddp.inb.pending = f.len := by
      rw [hp, wireOf_cons, List.append_assoc, segLen_wire]
    rw [hseg] at hlen
    have hfirst := hpos ctx.inb hpay
    have hsum := le_payloadSum hmsg
    omega

/-- For every message that `rnic_recv` completes, a Send or a Read Response, of any
    length and in any segments, and whatever the other threads do in between: the
    completion does not carry the number of its payload bytes. -/
theorem byte_len_never (hidle : s.ep.recvPc = .idle)
    (hp : s.ep.ddp.inb.pending = wireOf fs ++ rest)
    (hmsg : IsMessage (ddpHdrSize (s.ep.ddp.inb.pending.getD 2 0)) fs)
    (hls : ∀ l ∈ ls, l ≠ .recv) (hls' : ∀ l ∈ ls', l ≠ .recv) (hls'' : ∀ l ∈ ls'', l ≠ .recv)
    (hwce : (run (step bld) ((.recv :: ls ++ .recv :: ls') ++ .recv :: ls'') s).ep.Reports wce) :
    let t := run (step bld) ((.recv :: ls ++ .recv :: ls') ++ .recv :: ls'') s
    (step bld .recv t).ep.cq = t.ep.cq ++ [wce] ∧
      ¬(wce.byteLen.toNat : ℤ) = payloadSum (ddpHdrSize (s.ep.ddp.inb.pending.getD 2 0)) fs := by
  intro t
  refine ⟨recvStep_reports hwce, ?_⟩
  obtain ⟨s', hs'⟩ : ∃ s', run (step bld) (.recv :: ls ++ .recv :: ls') s = s' := ⟨_, rfl⟩
  have hsplit : run (step bld) ((.recv :: ls ++ .recv :: ls') ++ .recv :: ls'') s =
      run (step bld) ls'' (step bld .recv s') := by
    rw [run_append, hs']
    rfl
  obtain ⟨hpc, -⟩ := run_others bld hls'' (step bld .recv s')
  have hmade : (rnicRecvStep bld s'.ep).Reports wce := by
    rw [hsplit] at hwce
    unfold Ep.Reports at hwce ⊢
    rw [hpc] at hwce
    exact hwce
  obtain ⟨ret, hret, hbyte⟩ := reports_of_step hmade
  rw [← hs'] at hret
  obtain ⟨rfl, hpos⟩ := atSwitch_zero hidle hp hmsg hls hls' hret
  rw [hbyte, show (UInt32.ofInt 0).toNat = 0 by decide]
  omega

end

/-! ## A Send and a Read Response -/

/-- A segment of a Send, with the payload byte `b` at the offset `mo`. -/
def sendSegment (ctrl mo b : UInt8) : Fpdu :=
  ⟨[ctrl, 0x43, 0, 0, 0, 0, 0, 0, 0, 0, 0, 0, 0, 1, 0, 0, 0, mo, b], [0, 0, 0, 0, 0], by simp, by simp,
    by simp [padLen]⟩

/-- A Send of two bytes in two segments. -/
def twoByteSend : List Fpdu := [sendSegment 0x01 0 8, sendSegment 0x41 1 9]

/-- A receive of two bytes at `0x3000`. -/
def twoByteRecv : RecvWr := ⟨42, [⟨0x3000, 2, 0⟩]⟩

/-- A Read Response with one byte for `0x2000`. -/
def oneByteResp : Fpdu :=
  ⟨[0xC1, 0x42, 0, 0, 0x20, 0, 0, 0, 0, 0, 0, 0, 0x20, 0, 9], [0, 0, 0, 0, 0], by simp, by simp,
    by simp [padLen]⟩

/-- The application posts the receive and, while the message is handled, a read. -/
theorem byte_len_two_segments :
    let s := run (step ⟨false, false⟩) [.postBuffers twoByteRecv, .postWr]
      (newSys (wireOf twoByteSend))
    let t := run (step ⟨false, false⟩) ((.recv :: [] ++ .recv :: [.post oneRead]) ++ .recv :: []) s
    (step ⟨false, false⟩ .recv t).ep.cq = t.ep.cq ++ [⟨42, .success, .send, 0⟩] ∧
      ¬((0 : UInt32).toNat : ℤ) =
        payloadSum (ddpHdrSize (s.ep.ddp.inb.pending.getD 2 0)) twoByteSend := by
  intro s t
  have hmsg : IsMessage (ddpHdrSize (s.ep.ddp.inb.pending.getD 2 0)) twoByteSend := by
    rw [show ddpHdrSize (s.ep.ddp.inb.pending.getD 2 0) = 18 by decide +kernel]
    exact ⟨by decide, by decide, by decide, by decide⟩
  have hp : s.ep.ddp.inb.pending = wireOf twoByteSend ++ [] := by decide +kernel
  have hmade : t.ep.completing = [⟨42, .success, .send, 0⟩] := by decide +kernel
  exact byte_len_never rfl hp hmsg (by simp) (by simp) (by simp)
    (.inr (Ep.recvPc_of_completing hmade))

/-- Both bytes of the Send and the byte of the Read Response are in memory, and the
    two completions report 0 bytes. -/
theorem byte_len_zero :
    let recvd := run (step ⟨false, false⟩)
      ([.postBuffers twoByteRecv, .postWr] ++ List.replicate 4 .recv) (newSys (wireOf twoByteSend))
    let read := run (step ⟨false, false⟩)
      ([.register ⟨⟨0, 0⟩, 0x2000, 1⟩, .post oneRead] ++
        List.replicate 3 (.send ⟨0, 0, 0, 0, 0⟩) ++ List.replicate 4 .recv)
      (newSys (wireOf [oneByteResp]))
    (recvd.ep.mem.read 0x3000 2 = [8, 9] ∧ recvd.ep.cq = [⟨42, .success, .send, 0⟩] ∧
        ¬∀ wce ∈ recvd.ep.cq, (wce.byteLen.toNat : ℤ) = payloadSum 18 twoByteSend) ∧
      read.ep.mem.read 0x2000 1 = [9] ∧ read.ep.cq = [⟨42, .success, .readRequest, 0⟩] ∧
        ¬∀ wce ∈ read.ep.cq, (wce.byteLen.toNat : ℤ) = payloadSum 14 [oneByteResp] := by
  intro recvd read
  have hrecvd : recvd.ep.cq = [⟨42, .success, .send, 0⟩] := by decide +kernel
  have hread : read.ep.cq = [⟨42, .success, .readRequest, 0⟩] := by decide +kernel
  refine ⟨⟨by decide +kernel, hrecvd, ?_⟩, by decide +kernel, hread, ?_⟩
  · rw [hrecvd]
    decide +kernel
  · rw [hread]
    decide +kernel

end SoftUiWarp
