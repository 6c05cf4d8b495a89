import SoftUiWarp.Ddp.FirstBytes
import SoftUiWarp.Rdmap.RecvPosting

/-!
# The T bit and the opcode

The T bit is in the first byte of a message and the opcode in the second, and
`ddp_recv` looks at the T bit only. The cases of `rnic_recv` assert that the two
agree, and an `NDEBUG` build goes on without asking.

Between the steps of `rnic_recv` the other threads take any steps of theirs.

Results:
* `handlers_safe_iff`: the cases' assumptions hold exactly for messages whose
  first two bytes match.
* `handlers_tagged_send`: a tagged Send reaches the case of the sends.
-/

namespace SoftUiWarp

open TcpStream ByteMem Runs

/-! ## What the cases assume -/

/-- The T bit that the case of an opcode asserts. -/
def RdmaOpcode.asserted : RdmaOpcode → Option Bool
  | .rdmaWrite | .rdmaReadResp => some true
  | .rdmaReadReq | .send | .sendInval | .sendSe | .sendSeInval | .terminate => some false
  | .notSupported => none

/-- What the switch may assume of the message it handles; before the message the
    union of the two buffers was `before`. -/
structure HandlersSafe (before : BufUnion) (ep : Ep) : Prop where
  /-- The T bit is the one the case asserts. -/
  bit : ∀ op t, ep.opcode = some op → op.asserted = some t → ddpIsTagged ep.msg.hdr = t
  /-- No assertion fails in a debug build. -/
  asserts : ∀ rping ret, (ep.dispatch ⟨rping, false⟩ ret).recvPc ≠ .aborted
  /-- The one case that reads `untag_buf` has a message that did not set `tag_buf`. -/
  buf : ep.opcode = some .rdmaReadReq → (∃ b, ep.msg.buf = .untag b) ∨ ep.msg.buf = before

/-- The control byte and the byte after it match: the opcodes 0 and 2 come
    tagged, the other ones up to 7 untagged. -/
def TagMatches (ctrl op : UInt8) : Prop :=
  if getRdmapOp op = 0 ∨ getRdmapOp op = 2 then ddpIsTagged ctrl = true
  else getRdmapOp op ≤ 7 → ddpIsTagged ctrl = false

instance (ctrl op : UInt8) : Decidable (TagMatches ctrl op) :=
  inferInstanceAs (Decidable (if getRdmapOp op = 0 ∨ getRdmapOp op = 2 then _ else _))

theorem ofCode_asserted (op : UInt8) :
    (RdmaOpcode.ofCode (getRdmapOp op)).bind RdmaOpcode.asserted =
      if getRdmapOp op = 0 ∨ getRdmapOp op = 2 then some true
      else if getRdmapOp op ≤ 7 then some false else none := by
  revert op
  decide +kernel

theorem tagMatches_iff (ep : Ep) :
    TagMatches ep.msg.hdr (ep.msg.hdrUnion 0) ↔
      ∀ op t, ep.opcode = some op → op.asserted = some t → ddpIsTagged ep.msg.hdr = t := by
  have h := ofCode_asserted (ep.msg.hdrUnion 0)
  unfold TagMatches
  constructor
  · intro hm op t hop ht
    have hop' : RdmaOpcode.ofCode (getRdmapOp (ep.msg.hdrUnion 0)) = some op := hop
    rw [hop', Option.bind_some, ht] at h
    split_ifs at h hm with h1 h2
    · rw [hm, Option.some.inj h]
    · rw [hm h2, Option.some.inj h]
  · intro hall
    cases hop : ep.opcode with
    | none =>
      have hop' : RdmaOpcode.ofCode (getRdmapOp (ep.msg.hdrUnion 0)) = none := hop
      rw [hop', Option.bind_none] at h
      split_ifs at h ⊢ with h1 h2
      exact fun hle => absurd hle h2
    | some op =>
      have hop' : RdmaOpcode.ofCode (getRdmapOp (ep.msg.hdrUnion 0)) = some op := hop
      rw [hop', Option.bind_some] at h
      split_ifs at h ⊢ with h1 h2
      · exact hall op true hop h
      · exact fun _ => hall op false hop h
      · exact fun hle => absurd hle h2

/-! ## The assertions -/

section

variable {bld : Build} {ep : Ep} {ret : ℤ}

theorem assertThen_of_true {cond : Bool} {next : Ep} (h : cond = true) :
    ep.assertThen bld cond next = next := by
  unfold Ep.assertThen
  rw [if_pos (Or.inr h)]

theorem takeRecv_ne_aborted (op : RdmaOpcode) : (ep.takeRecv op ret).recvPc ≠ .aborted := by
  obtain ⟨-, heq⟩ | ⟨wr, rq, -, heq⟩ := takeRecv_cases ep ret op <;> simp [heq]

theorem recvSend_ne_aborted (op : RdmaOpcode) (h : ddpIsTagged ep.msg.hdr = false) :
    (ep.recvSend bld op ret).recvPc ≠ .aborted := by
  unfold Ep.recvSend
  rw [assertThen_of_true (by rw [h]; rfl)]
  exact takeRecv_ne_aborted op

theorem recvSendInval_ne_aborted (op : RdmaOpcode) (h : ddpIsTagged ep.msg.hdr = false) :
    (ep.recvSendInval bld op ret).recvPc ≠ .aborted := by
  unfold Ep.recvSendInval
  simp only
  split
  · simp
  · exact recvSend_ne_aborted op h

/-- With the T bit the case asserts, no build aborts. -/
theorem dispatch_ne_aborted
    (h : ∀ op t, ep.opcode = some op → op.asserted = some t → ddpIsTagged ep.msg.hdr = t) :
    (ep.dispatch bld ret).recvPc ≠ .aborted := by
  unfold Ep.dispatch
  split
  case h_1 hop =>
    rw [assertThen_of_true (h _ true hop rfl)]
    simp
  case h_2 hop =>
    rw [assertThen_of_true (by rw [h _ false hop rfl]; rfl)]
    unfold Ep.fillResp
    simp
  case h_3 hop =>
    rw [assertThen_of_true (h _ true hop rfl)]
    obtain ⟨-, heq⟩ | ⟨wce, pending, -, heq⟩ := takePending_cases ep ret <;> simp [heq]
  case h_4 hop => exact recvSendInval_ne_aborted _ (h _ false hop rfl)
  case h_5 hop => exact recvSendInval_ne_aborted _ (h _ false hop rfl)
  case h_6 hop => exact recvSend_ne_aborted _ (h _ false hop rfl)
  case h_7 hop => exact recvSend_ne_aborted _ (h _ false hop rfl)
  case h_8 hop =>
    rw [assertThen_of_true (by rw [h _ false hop rfl]; rfl)]
    simp
  all_goals simp

end

/-! ## The other threads -/

section

variable (bld : Build)

/-- The position of `rnic_recv`, its message and queue 1 are its own. -/
theorem step_other {l : Label} (hl : l ≠ .recv) (s : Sys) :
    (step bld l s).ep.recvPc = s.ep.recvPc ∧ (step bld l s).ep.msg = s.ep.msg ∧
      ((step bld l s).ep.ddp.queues 1).q = (s.ep.ddp.queues 1).q := by
  by_cases hsend : ∃ junk, l = .send junk
  · obtain ⟨junk, rfl⟩ := hsend
    obtain ⟨hqs, -, hpc, hmsg⟩ := rnicSendStep_keeps junk s.st s.ep
    exact ⟨hpc, hmsg, congrArg (fun qs => (qs 1).q) hqs⟩
  · obtain ⟨-, mem, sq, rq, queues, tags, heq, hq⟩ :=
      step_call bld hl (fun junk h => hsend ⟨junk, h⟩) s
    rw [heq]
    exact ⟨rfl, rfl, hq⟩

theorem run_others {ls : List Label} (hls : ∀ l ∈ ls, l ≠ .recv) (s : Sys) :
    (run (step bld) ls s).ep.recvPc = s.ep.recvPc ∧ (run (step bld) ls s).ep.msg = s.ep.msg := by
  induction ls generalizing s with
  | nil => exact ⟨rfl, rfl⟩
  | cons l ls ih =>
    obtain ⟨h1, h2⟩ := ih (fun l' h => hls l' (by simp [h])) (step bld l s)
    obtain ⟨h3, h4, -⟩ := step_other bld (hls l (by simp)) s
    exact ⟨h1.trans h3, h2.trans h4⟩

end

/-! ## The message at the switch -/

section

variable {ctx : DdpCtx} {msg : DdpMessage} {c : SegCtx}

theorem ddpRecvTaggedHdr_hdr (info : MpaPacket) :
    (ddpRecvTaggedHdr ctx msg info).msg.hdr = msg.hdr := by
  unfold ddpRecvTaggedHdr
  simp only
  split
  · rfl
  · split
    · split
      · rfl
      · split <;> rfl
    · rfl

theorem ddpRecvUntaggedHdr_buf (info : MpaPacket) :
    (∃ b, (ddpRecvUntaggedHdr ctx msg info).msg.buf = .untag b) ∨
      (ddpRecvUntaggedHdr ctx msg info).msg.buf = msg.buf := by
  unfold ddpRecvUntaggedHdr
  simp only
  split
  · exact .inr rfl
  · split
    · split
      · exact .inr rfl
      · split
        · exact .inr rfl
        · unfold tryDequeueBuf
          split
          · exact .inr rfl
          · exact .inl ⟨_, rfl⟩
    · exact .inr rfl

/-- An untagged message sets `untag_buf`, or finds no buffer and leaves the union
    as it was. -/
theorem ddpRecvHead_untagBuf (ht : ddpIsTagged (ddpRecvHead ctx msg).msg.hdr = false) :
    (∃ b, (ddpRecvHead ctx msg).msg.buf = .untag b) ∨ (ddpRecvHead ctx msg).msg.buf = msg.buf := by
  unfold ddpRecvHead at ht ⊢
  simp only at ht ⊢
  split at ht
  · split at ht
    · rename_i hr
      rw [if_pos hr]
      exact .inr rfl
    · rename_i hr
      rw [if_neg hr]
      split at ht
      · rename_i hset
        rw [ddpRecvTaggedHdr_hdr] at ht
        rw [ht] at hset
        cases hset
      · rename_i hclear
        rw [if_neg hclear]
        exact ddpRecvUntaggedHdr_buf _
  · exact .inr rfl

/-- A message that is given up before the payload does not reach the switch. -/
theorem ofRet_head {r : Ret} (h : (ddpRecvHead ctx msg).next = .inl r) :
    RecvPc.ofRet r = .stuck ∨ RecvPc.ofRet r = .exited (-1) := by
  cases r with
  | val x => exact .inr (if_pos (ddpRecvHead_neg h))
  | blocked => exact .inl rfl
  | spin => exact .inl rfl

variable {bld : Build} {s : Sys} {ls ls' : List Label} {ret : ℤ}

/-- A message that reaches the switch has gone through both parts of `ddp_recv`;
    the registry, the queues and the memory are those of the second part. -/
theorem atSwitch_payload (hidle : s.ep.recvPc = .idle) (hls : ∀ l ∈ ls, l ≠ .recv)
    (hls' : ∀ l ∈ ls', l ≠ .recv)
    (hret : (run (step bld) (.recv :: ls ++ .recv :: ls') s).ep.recvPc = .dispatch ret) :
    let h := ddpRecvHead s.ep.ddp s.ep.msg
    ∃ c ctx mem, h.next = .inr c ∧
      RecvPc.ofRet (ddpRecvPayload ctx mem h.msg c).ret = .dispatch ret ∧
      (run (step bld) (.recv :: ls ++ .recv :: ls') s).ep.msg =
        (ddpRecvPayload ctx mem h.msg c).msg := by
  have hsplit : run (step bld) (.recv :: ls ++ .recv :: ls') s =
      run (step bld) ls' (step bld .recv (run (step bld) ls (step bld .recv s))) :=
    run_append (.recv :: ls) (.recv :: ls') s
  obtain ⟨s₁, h₁⟩ : ∃ s₁, run (step bld) ls (step bld .recv s) = s₁ := ⟨_, rfl⟩
  obtain ⟨hpc₁, hmsg₁⟩ := run_others bld hls (step bld .recv s)
  obtain ⟨hpc₂, hmsg₂⟩ := run_others bld hls' (step bld .recv s₁)
  rw [hsplit, h₁] at hret ⊢
  rw [h₁] at hpc₁ hmsg₁
  rw [hpc₂] at hret
  simp only [hmsg₂]
  have hfirst : (step bld .recv s).ep = rnicRecvStep bld s.ep := rfl
  have hsecond : (step bld .recv s₁).ep = rnicRecvStep bld s₁.ep := rfl
  rw [hfirst] at hpc₁ hmsg₁
  rw [hsecond] at hret ⊢
  cases hcon : s.ep.connected with
  | false =>
    simp only [rnicRecvStep, hidle, hcon, Bool.false_eq_true, if_false] at hpc₁
    simp only [rnicRecvStep, hpc₁] at hret
    cases hret
  | true =>
    obtain ⟨pc, heq, hpc⟩ := recvStep_idle bld hidle hcon
    rw [heq] at hpc₁ hmsg₁
    simp only at hpc₁ hmsg₁
    rcases hpc with ⟨r, hnext, rfl⟩ | ⟨c, hnext, rfl⟩
    · rcases ofRet_head hnext with hx | hx <;>
      · rw [hx] at hpc₁
        simp only [rnicRecvStep, hpc₁] at hret
        cases hret
    · simp only [rnicRecvStep, hpc₁, hmsg₁] at hret ⊢
      exact ⟨c, s₁.ep.ddp, s₁.ep.mem, hnext, hret, rfl⟩

/-- What `ddp_recv` has read before the payload loop is still there. -/
theorem atSwitch_spec (hidle : s.ep.recvPc = .idle) (hls : ∀ l ∈ ls, l ≠ .recv)
    (hls' : ∀ l ∈ ls', l ≠ .recv)
    (hret : (run (step bld) (.recv :: ls ++ .recv :: ls') s).ep.recvPc = .dispatch ret) :
    let h := ddpRecvHead s.ep.ddp s.ep.msg
    let m := (run (step bld) (.recv :: ls ++ .recv :: ls') s).ep.msg
    (∃ c, h.next = .inr c) ∧ m.hdr = h.msg.hdr ∧ m.hdrUnion 0 = h.msg.hdrUnion 0 ∧
      m.buf = h.msg.buf := by
  intro h m
  obtain ⟨c, ctx, mem, hnext, -, hmsg⟩ := atSwitch_payload hidle hls hls' hret
  have hm : m = (ddpRecvPayload ctx mem h.msg c).msg := hmsg
  obtain ⟨-, -, -, hbuf, -⟩ := ddpRecvPayload_keeps ctx mem h.msg c
  obtain ⟨hhdr, hunion⟩ := ddpRecvPayload_first ctx mem h.msg c
  rw [hm]
  exact ⟨⟨c, hnext⟩, hhdr, hunion, hbuf⟩

/-- The cases' assumptions hold of a message that reaches the switch if and only
    if the first two bytes of its first segment match. -/
theorem handlers_safe_iff (hidle : s.ep.recvPc = .idle) (hls : ∀ l ∈ ls, l ≠ .recv)
    (hls' : ∀ l ∈ ls', l ≠ .recv)
    (hret : (run (step bld) (.recv :: ls ++ .recv :: ls') s).ep.recvPc = .dispatch ret) :
    HandlersSafe s.ep.msg.buf (run (step bld) (.recv :: ls ++ .recv :: ls') s).ep ↔
      TagMatches (s.ep.ddp.inb.pending.getD 2 0) (s.ep.ddp.inb.pending.getD 3 0) := by
  obtain ⟨⟨c, hnext⟩, hhdr, hunion, hbuf⟩ := atSwitch_spec hidle hls hls' hret
  obtain ⟨hctrl, hop⟩ := ddpRecvHead_first hnext
  generalize (run (step bld) (.recv :: ls ++ .recv :: ls') s).ep = ep at hhdr hunion hbuf ⊢
  rw [← hctrl, ← hop, ← hhdr, ← hunion, tagMatches_iff]
  constructor
  · intro h
    exact h.bit
  · intro h
    refine ⟨h, fun rping ret => dispatch_ne_aborted h, fun hreq => ?_⟩
    have ht := h _ false hreq rfl
    rw [hhdr] at ht
    rw [hbuf]
    exact ddpRecvHead_untagBuf ht

end

/-! ## A Send, tagged and untagged -/

/-- The registered buffer at `0x1000`. -/
def tagBuf : TaggedBuffer := ⟨⟨0x1000, 0⟩, 0x1000, 4⟩

/-- A tagged message of one byte with the opcode `op`. -/
def taggedMsg (op : RdmaOpcode) : List UInt8 :=
  fpdu [[0xC1], DdpTaggedMeta.bytes ⟨rdmaHdr op, htonl 0x1000, htonll 0x1000⟩, [9]]

/-- The stream on which `bs` comes, with a registered buffer. -/
def tagSys (bs : List UInt8) : Sys := step ⟨false, false⟩ (.register tagBuf) (newSys bs)

def RecvPc.isDispatch : RecvPc → Bool
  | .dispatch _ => true
  | _ => false

theorem RecvPc.eq_dispatch {pc : RecvPc} (h : pc.isDispatch = true) : ∃ ret, pc = .dispatch ret := by
  unfold RecvPc.isDispatch at h
  split at h
  · exact ⟨_, rfl⟩
  · cases h

def RecvPc.isAborted : RecvPc → Bool
  | .aborted => true
  | _ => false

theorem RecvPc.eq_aborted {pc : RecvPc} (h : pc.isAborted = true) : pc = .aborted := by
  unfold RecvPc.isAborted at h
  split at h
  · rfl
  · cases h

/-- An untagged Send, while the application posts a receive. -/
theorem handlers_safe_send :
    let s := tagSys (sendMsg 1 9)
    HandlersSafe s.ep.msg.buf
      (run (step ⟨false, false⟩) (.recv :: [.postBuffers oneRecv] ++ .recv :: [.postWr]) s).ep := by
  intro s
  obtain ⟨ret, hret⟩ : ∃ ret, (run (step ⟨false, false⟩)
      (.recv :: [.postBuffers oneRecv] ++ .recv :: [.postWr]) s).ep.recvPc = .dispatch ret :=
    RecvPc.eq_dispatch (by decide +kernel)
  exact (handlers_safe_iff rfl (by simp) (by simp) hret).mpr (by decide +kernel)

/-- A tagged Send is received and reaches the case of the sends: a debug build
    aborts. A tagged Read Request makes an `NDEBUG` build read `untag_buf` of a
    message that has set `tag_buf`, and a response is enqueued. -/
theorem handlers_tagged_send :
    let s := run (step ⟨false, false⟩) (.recv :: [] ++ .recv :: []) (tagSys (taggedMsg .send))
    let s' := run (step ⟨false, true⟩) (.recv :: [] ++ .recv :: [])
      (tagSys (taggedMsg .rdmaReadReq))
    s.ep.handles .send ∧ ddpIsTagged s.ep.msg.hdr = true ∧
      (step ⟨false, false⟩ .recv s).ep.recvPc = .aborted ∧
      ¬HandlersSafe (tagSys (taggedMsg .send)).ep.msg.buf s.ep ∧
      s'.ep.handles .rdmaReadReq ∧ s'.ep.msg.buf = .tag tagBuf ∧
      (run (step ⟨false, true⟩) [.recv, .recv] s').ep.sq.length = 1 := by
  intro s s'
  have hop : s.ep.opcode = some .send := by decide +kernel
  have htag : ddpIsTagged s.ep.msg.hdr = true := by decide +kernel
  refine ⟨by decide +kernel, htag, RecvPc.eq_aborted (by decide +kernel), fun h => ?_,
    by decide +kernel, ?_, by decide +kernel⟩
  · have hclear := h.bit _ _ hop rfl
    rw [htag] at hclear
    cases hclear
  · decide +kernel

end SoftUiWarp
