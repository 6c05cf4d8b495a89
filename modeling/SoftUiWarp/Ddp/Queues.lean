import SoftUiWarp.Ddp.Model

/-!
# What `ddp_recv` does to a stream's queues

Whatever the peer sends, the part of `ddp_recv` before the payload loop changes
the inbound bytes and takes at most one buffer, from the queue its header
names; the payload loop leaves the queues and the queue number alone.

Results:
* `ddpRecvHead_cases`: the outcomes of the header part.
* `ddpRecvPayload_keeps`: what the payload loop leaves alone.
-/

namespace SoftUiWarp

open TcpStream ByteMem

/-- The outcomes of `ddp_recv` before the payload loop: the call has failed,
    or the message is tagged, or it has taken its buffer from queue `qn`. -/
inductive HeadDone (ctx : DdpCtx) : HeadOut → Prop
  | failed (r : Ret) (inb : Inbound) (msg : DdpMessage) :
      HeadDone ctx ⟨.inl r, { ctx with inb := inb }, msg⟩
  | tagged (c : SegCtx) (inb : Inbound) {msg : DdpMessage} (h : ddpIsTagged msg.hdr = true) :
      HeadDone ctx ⟨.inr c, { ctx with inb := inb }, msg⟩
  | untagged (c : SegCtx) (inb : Inbound) {msg : DdpMessage} {qn : Fin 3}
      (h : ddpIsTagged msg.hdr = false) (hqn : msg.untaggedMetadata.qn.toNat = qn) :
      HeadDone ctx ⟨.inr c, (tryDequeueBuf { ctx with inb := inb } qn msg).1,
        (tryDequeueBuf { ctx with inb := inb } qn msg).2⟩

theorem ddpCheckUntaggedHdr_qn {queues : Fin 3 → UntaggedBufferQueue} {hdr : DdpUntaggedMeta}
    {qn : Fin 3} (h : ddpCheckUntaggedHdr queues hdr = some qn) : hdr.qn.toNat = qn := by
  unfold ddpCheckUntaggedHdr at h
  split at h
  · simp only at h
    split at h
    · cases h
    · cases h
      rfl
  · cases h

section

variable (ctx : DdpCtx) (msg : DdpMessage) (info : MpaPacket)

theorem ddpRecvTaggedHdr_cases (h : ddpIsTagged msg.hdr = true) :
    HeadDone ctx (ddpRecvTaggedHdr ctx msg info) := by
  unfold ddpRecvTaggedHdr
  simp only
  split
  · exact .failed _ ctx.inb _
  · split
    · split
      · exact .failed _ _ _
      · split
        · exact .failed _ _ _
        · exact .tagged _ _ h
    · exact .failed _ _ _

theorem ddpRecvUntaggedHdr_cases (h : ddpIsTagged msg.hdr = false) :
    HeadDone ctx (ddpRecvUntaggedHdr ctx msg info) := by
  unfold ddpRecvUntaggedHdr
  simp only
  split
  · exact .failed _ ctx.inb _
  · split
    · split
      · exact .failed _ _ _
      · split
        · exact .failed _ _ _
        · rename_i hqn
          exact .untagged _ _ h (ddpCheckUntaggedHdr_qn hqn)
    · exact .failed _ _ _

theorem ddpRecvHead_cases : HeadDone ctx (ddpRecvHead ctx msg) := by
  have trans : ∀ {inb : Inbound} {out : HeadOut}, HeadDone { ctx with inb := inb } out →
      HeadDone ctx out := by
    intro inb out h
    cases h with
    | failed r inb msg => exact .failed r inb msg
    | tagged c inb h => exact .tagged c inb h
    | untagged c inb h hqn => exact .untagged c inb h hqn
  unfold ddpRecvHead
  simp only
  split
  · split
    · exact .failed _ _ _
    · split
      · exact trans (ddpRecvTaggedHdr_cases _ _ _ ‹_›)
      · exact trans (ddpRecvUntaggedHdr_cases _ _ _ (Bool.not_eq_true _ ▸ ‹_›))
  · exact .failed _ _ _

/-- The bytes on their way out are not touched. -/
theorem ddpRecvHead_outb : (ddpRecvHead ctx msg).ctx.outb = ctx.outb := by
  have h := ddpRecvHead_cases ctx msg
  generalize ddpRecvHead ctx msg = out at h
  cases h with
  | failed => rfl
  | tagged => rfl
  | untagged =>
    unfold tryDequeueBuf
    split <;> rfl

end

/-- `try_dequeue` takes at most one buffer, from the queue it is called on. -/
theorem tryDequeueBuf_keeps (ctx : DdpCtx) (qn : Fin 3) (msg : DdpMessage) :
    let d := tryDequeueBuf ctx qn msg
    d.1.inb = ctx.inb ∧ d.1.taggedBuffers = ctx.taggedBuffers ∧ d.2.hdr = msg.hdr ∧
      (∀ i ≠ qn, d.1.queues i = ctx.queues i) ∧
      ∃ taken, taken.length ≤ 1 ∧ (ctx.queues qn).q = taken ++ (d.1.queues qn).q := by
  cases hq : (ctx.queues qn).q with
  | nil =>
    simp only [tryDequeueBuf, hq]
    exact ⟨trivial, trivial, trivial, fun _ _ => trivial, [], by decide, rfl⟩
  | cons b bs =>
    simp only [tryDequeueBuf, hq]
    refine ⟨trivial, trivial, trivial, fun i hi => Function.update_of_ne hi _ _, [b], by simp, ?_⟩
    simp

/-- The offset field, set to 0 at the end, lies behind the queue number. -/
theorem finish_qn (msg : DdpMessage) (len : ℤ) :
    (msg.finish len).untaggedMetadata.qn = msg.untaggedMetadata.qn := by
  unfold DdpMessage.finish
  split
  · rfl
  · simp only [DdpMessage.untaggedMetadata, untaggedAt]
    rw [Buf.bytes_patch_of_disjoint (by omega)]

theorem ddpRecvPayload_keeps (ctx : DdpCtx) (mem : Mem) (msg : DdpMessage) (c : SegCtx) :
    let r := ddpRecvPayload ctx mem msg c
    r.ctx.queues = ctx.queues ∧ r.ctx.outb = ctx.outb ∧ r.msg.hdr = msg.hdr ∧
      r.msg.buf = msg.buf ∧ r.msg.untaggedMetadata.qn = msg.untaggedMetadata.qn := by
  unfold ddpRecvPayload
  simp only
  split
  · refine ⟨rfl, rfl, ?_, ?_, finish_qn _ _⟩
    all_goals
      unfold DdpMessage.finish
      split <;> rfl
  · exact ⟨rfl, rfl, rfl, rfl, rfl⟩

end SoftUiWarp
