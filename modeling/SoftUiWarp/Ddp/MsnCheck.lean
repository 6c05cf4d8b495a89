import SoftUiWarp.Ddp.Placement
import SoftUiWarp.Ddp.Queues
import SoftUiWarp.Lib.Runs
import SoftUiWarp.Mpa.Results

/-!
# The sequence numbers `ddp_recv` accepts

`ddp_check_untagged_hdr` compares the number of an untagged message with the
`msn` of its queue. That is 1 from the start and no path of `ddp_recv` changes
it, so the check rejects the number 0 and nothing else: a message that comes
again is accepted again.

Results:
* `mpaRecv_failFree`, `ddpRecv_failFree`: a stream without failures stays one.
* `accepted_arrives`: what is accepted is the message at the front of the stream.
* `oldRejected_of_newNumber`, `newNumber_of_oldRejected`: what a peer must send
  for its old messages to be rejected.
* `msns_increasing`: the numbers accepted increase while the peer's do.
-/

namespace SoftUiWarp

open TcpStream ByteMem Runs

/-! ## Streams without failures -/

section

variable {s t : Inbound}

theorem failFree_of_recv {n : ℕ} {r : ℤ} {bs : List UInt8} (hf : s.FailFree)
    (h : s.recv n = some (r, bs, t)) : t.FailFree := by
  cases recv_cases h with
  | failed herr => exact absurd (hf _) herr.ne'
  | nothing => exact hf
  | bytes => exact hf.advance _

theorem payloadLoop_failFree (toRead : ℤ) (fuel : ℕ) (rcvd : ℤ) (ws : List (UInt8 × ℕ))
    (hf : s.FailFree) : (payloadLoop toRead fuel s rcvd ws).inb.FailFree := by
  induction fuel generalizing s rcvd ws with
  | zero => exact hf
  | succ fuel ih =>
    unfold payloadLoop
    split
    · exact hf
    · rename_i hrecv
      have hf' := failFree_of_recv hf hrecv
      simp only
      split_ifs
      · exact hf'
      · exact ih _ _ hf'
      · exact hf'

theorem readTrailers_failFree (info : MpaPacket) (ws : List (UInt8 × ℕ)) (hf : s.FailFree) :
    (readTrailers s info ws).inb.FailFree := by
  unfold readTrailers
  simp only
  split
  · exact hf
  · rename_i hpad
    have hf' := failFree_of_recv hf hpad
    split
    · exact hf'
    · split
      · exact hf'
      · rename_i hcrc
        split <;> exact failFree_of_recv hf' hcrc

theorem mpaRecvBody_failFree (info : MpaPacket) (n : ℤ) (hf : s.FailFree) :
    (mpaRecvBody s info n).inb.FailFree := by
  by_cases hpos : 0 < info.ulpduLen.toNat
  · have hf' := payloadLoop_failFree (info.toRead n) (s.size + 2) 0 [] hf
    rw [mpaRecvBody_eq hpos rfl]
    split
    · split
      · exact hf'
      · split
        · exact readTrailers_failFree _ _ hf'
        · exact hf'
    · exact hf'
  · unfold mpaRecvBody
    simp only
    rw [if_pos (by omega)]
    exact hf

theorem mpaRecv_failFree (info : MpaPacket) (n : ℤ) (hf : s.FailFree) :
    (mpaRecv s info n).inb.FailFree := by
  unfold mpaRecv
  split
  · split
    · exact hf
    · rename_i hrecv
      have hf' := failFree_of_recv hf hrecv
      simp only
      split
      · exact hf'
      · exact mpaRecvBody_failFree _ _ hf'
  · exact mpaRecvBody_failFree _ _ hf

theorem segLoop_failFree (K : SegKind) (fuel : ℕ) (c : SegCtx) (len : ℤ) (acc : List Placement)
    (hf : s.FailFree) : (segLoop K fuel s c len acc).inb.FailFree := by
  induction fuel generalizing s c len acc with
  | zero => exact hf
  | succ fuel ih =>
    have hf' := mpaRecv_failFree c.info c.payloadLen hf
    have hf'' := mpaRecv_failFree { (mpaRecv s c.info c.payloadLen).info with bytesRcvd := 0 }
      K.hdrSize hf'
    unfold segLoop
    simp only
    split
    · split_ifs
      · exact hf'
      · exact hf'
      · split
        · split_ifs
          · exact hf''
          · exact ih _ _ _ hf''
        · exact hf''
    · exact hf'

end

section

variable (ctx : DdpCtx) (mem : Mem) (msg : DdpMessage) (info : MpaPacket)

theorem ddpRecvTaggedHdr_failFree (hf : ctx.inb.FailFree) :
    (ddpRecvTaggedHdr ctx msg info).ctx.inb.FailFree := by
  have hf' := mpaRecv_failFree info ddpTaggedHdrSize hf
  unfold ddpRecvTaggedHdr
  simp only
  split
  · exact hf
  · split
    · split
      · exact hf'
      · split <;> exact hf'
    · exact hf'

theorem ddpRecvUntaggedHdr_failFree (hf : ctx.inb.FailFree) :
    (ddpRecvUntaggedHdr ctx msg info).ctx.inb.FailFree := by
  have hf' := mpaRecv_failFree info ddpUntaggedHdrSize hf
  unfold ddpRecvUntaggedHdr
  simp only
  split
  · exact hf
  · split
    · split
      · exact hf'
      · split
        · exact hf'
        · rw [(tryDequeueBuf_keeps _ _ _).1]
          exact hf'
    · exact hf'

theorem ddpRecv_failFree (hf : ctx.inb.FailFree) : (ddpRecv ctx mem msg).ctx.inb.FailFree := by
  have hhead : (ddpRecvHead ctx msg).ctx.inb.FailFree := by
    have hf' := mpaRecv_failFree {} ddpCtrlSize hf
    unfold ddpRecvHead
    simp only
    split
    · split_ifs
      · exact hf'
      · exact ddpRecvTaggedHdr_failFree _ _ _ hf'
      · exact ddpRecvUntaggedHdr_failFree _ _ _ hf'
    · exact hf'
  unfold ddpRecv
  simp only
  split
  · exact hhead
  · unfold ddpRecvPayload
    simp only
    split <;> exact segLoop_failFree _ _ _ _ _ hhead

/-- No call changes the number a queue expects. -/
theorem ddpRecv_msn (i : Fin 3) :
    ((ddpRecv ctx mem msg).ctx.queues i).msn = (ctx.queues i).msn := by
  have hdeq : ∀ (ctx : DdpCtx) (qn : Fin 3) (msg : DdpMessage),
      ((tryDequeueBuf ctx qn msg).1.queues i).msn = (ctx.queues i).msn := by
    intro ctx qn msg
    unfold tryDequeueBuf
    split
    · rfl
    · by_cases hi : i = qn
      · rw [hi]
        simp
      · simp [Function.update_of_ne hi]
  have hhead := ddpRecvHead_cases ctx msg
  unfold ddpRecv
  generalize ddpRecvHead ctx msg = out at hhead
  cases hhead with
  | failed => rfl
  | tagged c =>
    simp only
    rw [(ddpRecvPayload_keeps _ _ _ _).1]
  | untagged c =>
    simp only
    rw [(ddpRecvPayload_keeps _ _ _ _).1, hdeq]

end

/-! ## The check -/

/-- The header `h` of an untagged message is at the front of the stream, and
    the calls that read it find it ready. -/
structure Arrives (s : Inbound) (h : DdpUntaggedMeta) : Prop where
  untagged : ddpIsTagged (s.pending.getD 2 0) = false
  ready : FirstReady s 18
  hdr : h = wireUntagged (segRaw 18 s.pending)

section

variable {ctx : DdpCtx} {mem : Mem} {msg : DdpMessage} {h : DdpUntaggedMeta}

theorem ofInt_one_gt_iff (m : UInt32) : UInt32.ofInt 1 > m ↔ m = 0 := by
  rw [show UInt32.ofInt 1 = 1 by decide, gt_iff_lt, UInt32.lt_iff_toNat_lt, ← UInt32.toNat_inj]
  change m.toNat < 1 ↔ m.toNat = 0
  omega

/-- With the number a queue has from the start the check rejects 0 alone. -/
theorem ddpCheckUntaggedHdr_of_one (queues : Fin 3 → UntaggedBufferQueue)
    (hmsn : ∀ i, (queues i).msn = 1) {qn : Fin 3} (hqn : h.qn.toNat = qn) :
    ddpCheckUntaggedHdr queues h = if h.msn = 0 then none else some qn := by
  have hlt : h.qn.toNat < 3 := by omega
  have hfin : (⟨h.qn.toNat, hlt⟩ : Fin 3) = qn := Fin.ext hqn
  unfold ddpCheckUntaggedHdr
  rw [dif_pos hlt]
  simp only [hfin, hmsn, ofInt_one_gt_iff]

/-- A message the check rejects: the call fails and the queues are as before. -/
theorem ddpRecv_rejected (mem : Mem) (msg : DdpMessage) (hf : ctx.inb.FailFree) (ha : Arrives ctx.inb h)
    (hc : ddpCheckUntaggedHdr ctx.queues h = none) :
    (ddpRecv ctx mem msg).ret = .val (-1) ∧ (ddpRecv ctx mem msg).ctx.queues = ctx.queues := by
  have hhead := ddpRecvHead_untagged_of_ready msg hf ha.untagged ha.ready
  rw [← ha.hdr, hc] at hhead
  unfold ddpRecv
  rw [hhead]
  exact ⟨rfl, rfl⟩

/-- The offset field, set to 0 at the end, lies behind the sequence number. -/
theorem finish_msn (msg : DdpMessage) (len : ℤ) :
    (msg.finish len).untaggedMetadata.msn = msg.untaggedMetadata.msn := by
  unfold DdpMessage.finish
  split
  · rfl
  · simp only [DdpMessage.untaggedMetadata, untaggedAt]
    rw [Buf.bytes_patch_of_disjoint (by omega)]

theorem ddpRecvPayload_msn (ctx : DdpCtx) (mem : Mem) (msg : DdpMessage) (c : SegCtx) :
    (ddpRecvPayload ctx mem msg c).msg.untaggedMetadata.msn = msg.untaggedMetadata.msn := by
  unfold ddpRecvPayload
  simp only
  split
  · exact finish_msn _ _
  · rfl

/-- A message that is accepted is the one at the front of the stream, and it has
    passed the check. -/
theorem accepted_arrives (hf : ctx.inb.FailFree) (hret : (ddpRecv ctx mem msg).ret = .val 0)
    (ht : ddpIsTagged (ddpRecv ctx mem msg).msg.hdr = false) :
    ∃ h qn, Arrives ctx.inb h ∧ ddpCheckUntaggedHdr ctx.queues h = some qn ∧
      (ddpRecv ctx mem msg).msg.untaggedMetadata.qn = h.qn ∧
      (ddpRecv ctx mem msg).msg.untaggedMetadata.msn = h.msn := by
  by_cases hr : FirstReady ctx.inb (ddpHdrSize (ctx.inb.pending.getD 2 0))
  · unfold ddpRecv at hret ht ⊢
    cases hctrl : ddpIsTagged (ctx.inb.pending.getD 2 0) with
    | true =>
      -- then the T bit of what is returned is set
      simp only [ddpHdrSize, hctrl, if_true] at hr
      rw [ddpRecvHead_tagged_of_ready msg hf hctrl hr] at hret ht
      cases hstag : ddpCheckStag ctx.taggedBuffers (wireTagged (segRaw 14 ctx.inb.pending)) with
      | none =>
        simp only [hstag] at hret
        cases hret
      | some b =>
        simp only [hstag] at ht
        rw [(ddpRecvPayload_keeps _ _ _ _).2.2.1] at ht
        change ddpIsTagged ((segRaw 14 ctx.inb.pending).getD 0 0) = false at ht
        rw [getD_segRaw (by decide) hr.ctrl.pos, hctrl] at ht
        cases ht
    | false =>
      simp only [ddpHdrSize, hctrl, Bool.false_eq_true, if_false] at hr
      have hhdr := untaggedHdrMsg_metadata msg
        (length_segRaw hr.size (firstReady_avail (by decide) hr))
      rw [ddpRecvHead_untagged_of_ready msg hf hctrl hr] at hret ⊢
      cases hc : ddpCheckUntaggedHdr ctx.queues (wireUntagged (segRaw 18 ctx.inb.pending)) with
      | none =>
        simp only [hc] at hret
        cases hret
      | some qn =>
        refine ⟨_, qn, ⟨hctrl, hr, rfl⟩, hc, ?_⟩
        simp only
        rw [(ddpRecvPayload_keeps _ _ _ _).2.2.2.2, ddpRecvPayload_msn, ← hhdr]
        unfold DdpMessage.untaggedMetadata
        rw [tryDequeueBuf_hdrUnion]
        exact ⟨rfl, rfl⟩
  · obtain ⟨r, hok, hnext, -⟩ := ddpRecvHead_of_not_ready msg hf hr
    unfold ddpRecv at hret
    simp only [hnext] at hret
    exact absurd ⟨0, le_rfl, hret⟩ hok

end

/-! ## Runs of calls -/

inductive RecvCall
  | recv (mem : Mem) (msg : DdpMessage)
  | post (qn : ℤ) (bufs : List UntaggedBuffer)
  | register (buf : TaggedBuffer)
  | deregister (tag : UInt32)

/-- The stream, and the headers of the untagged messages accepted, in order. -/
structure Recvs where
  ctx : DdpCtx
  accepted : List DdpUntaggedMeta

namespace Recvs

def step : RecvCall → Recvs → Recvs
  | .recv mem msg, s =>
    let r := ddpRecv s.ctx mem msg
    { ctx := r.ctx
      accepted :=
        if r.ret = .val 0 ∧ ddpIsTagged r.msg.hdr = false then
          s.accepted ++ [r.msg.untaggedMetadata]
        else s.accepted }
  | .post qn bufs, s => { s with ctx := ddpPostRecv s.ctx qn bufs }
  | .register buf, s => { s with ctx := (registerTaggedBuffer s.ctx buf).1 }
  | .deregister tag, s => { s with ctx := (deregisterTaggedBuffer s.ctx tag).2 }

/-- A stream on which nothing has been received. -/
structure New (s : Recvs) : Prop where
  failFree : s.ctx.inb.FailFree
  msn : ∀ i, (s.ctx.queues i).msn = 1
  accepted : s.accepted = []

/-- A message on the same queue with this number or a later one was accepted. -/
def Old (s : Recvs) (h : DdpUntaggedMeta) : Prop := ∃ a ∈ s.accepted, a.qn = h.qn ∧ h.msn ≤ a.msn

/-- An old message makes the call fail and takes no buffer. -/
def OldRejected : RecvCall → Recvs → Prop
  | .recv mem msg, s => ∀ h, Arrives s.ctx.inb h → s.Old h →
      (∃ r < 0, (ddpRecv s.ctx mem msg).ret = .val r) ∧
        (ddpRecv s.ctx mem msg).ctx.queues = s.ctx.queues
  | _, _ => True

/-- The message that arrives has a number above those accepted on its queue, or 0. -/
def NewNumber : RecvCall → Recvs → Prop
  | .recv _ _, s => ∀ h, Arrives s.ctx.inb h → s.Old h → h.msn = 0
  | _, _ => True

/-- A buffer is posted for the message that arrives. -/
def Posted : RecvCall → Recvs → Prop
  | .recv _ _, s => ∀ h, Arrives s.ctx.inb h → ∀ qn : Fin 3, h.qn.toNat = qn →
      (s.ctx.queues qn).q ≠ []
  | _, _ => True

/-- On each queue the numbers accepted increase. -/
def Increasing (s : Recvs) : Prop :=
  s.accepted.Pairwise fun a b => a.qn = b.qn → a.msn < b.msn

/-- The stream does not fail, every queue still expects 1, and what was accepted
    was on a queue. -/
structure Inv (s : Recvs) : Prop where
  failFree : s.ctx.inb.FailFree
  msn : ∀ i, (s.ctx.queues i).msn = 1
  qn : ∀ a ∈ s.accepted, a.qn.toNat < 3

section

variable {s : Recvs} {c : RecvCall}

theorem New.inv (h : s.New) : s.Inv := ⟨h.failFree, h.msn, by simp [h.accepted]⟩

theorem step_inv (c : RecvCall) (h : s.Inv) : (step c s).Inv := by
  cases c with
  | recv mem msg =>
    refine ⟨ddpRecv_failFree _ _ _ h.failFree, fun i => ?_, ?_⟩
    · rw [← h.msn i]
      exact ddpRecv_msn _ _ _ i
    · intro a ha
      simp only [step] at ha
      split at ha
      · rename_i hacc
        rcases List.mem_append.mp ha with ha | ha
        · exact h.qn a ha
        · obtain ⟨m, qn, -, hc, hqn, -⟩ := accepted_arrives h.failFree hacc.1 hacc.2
          rw [List.mem_singleton.mp ha, hqn, ddpCheckUntaggedHdr_qn hc]
          exact qn.isLt
      · exact h.qn a ha
  | post qn bufs =>
    have hinb : (ddpPostRecv s.ctx qn bufs).inb = s.ctx.inb := by
      unfold ddpPostRecv
      split <;> rfl
    refine ⟨hinb ▸ h.failFree, fun i => ?_, h.qn⟩
    rw [← h.msn i]
    show ((ddpPostRecv s.ctx qn bufs).queues i).msn = _
    unfold ddpPostRecv
    split
    · simp only [Function.update_apply]
      split
      · rename_i hi
        rw [hi]
      · rfl
    · rfl
  | register buf => exact ⟨h.failFree, h.msn, h.qn⟩
  | deregister tag => exact ⟨h.failFree, h.msn, h.qn⟩

/-- Old messages with the number 0 are rejected. -/
theorem oldRejected_of_newNumber (h : s.Inv) (hn : NewNumber c s) : OldRejected c s := by
  cases c with
  | recv mem msg =>
    intro m ha hold
    obtain ⟨a, hmem, hqn, -⟩ := id hold
    have hlt := h.qn a hmem
    rw [hqn] at hlt
    have hc := @ddpCheckUntaggedHdr_of_one m s.ctx.queues h.msn ⟨m.qn.toNat, hlt⟩ rfl
    rw [if_pos (hn m ha hold)] at hc
    obtain ⟨hret, hqueues⟩ := ddpRecv_rejected mem msg h.failFree ha hc
    exact ⟨⟨-1, by decide, hret⟩, hqueues⟩
  | post qn bufs => trivial
  | register buf => trivial
  | deregister tag => trivial

/-- All others take the buffer that is posted for them. -/
theorem newNumber_of_oldRejected (h : s.Inv) (hp : Posted c s) (ho : OldRejected c s) :
    NewNumber c s := by
  cases c with
  | recv mem msg =>
    intro m ha hold
    by_contra hm
    obtain ⟨-, hqueues⟩ := ho m ha hold
    obtain ⟨a, hmem, hqn, -⟩ := hold
    have hlt := h.qn a hmem
    rw [hqn] at hlt
    obtain ⟨qn, hfin⟩ : ∃ qn : Fin 3, m.qn.toNat = qn := ⟨⟨m.qn.toNat, hlt⟩, rfl⟩
    have hc := ddpCheckUntaggedHdr_of_one s.ctx.queues h.msn hfin
    rw [if_neg hm, ha.hdr] at hc
    obtain ⟨b, bs, hq⟩ := List.exists_cons_of_ne_nil (hp m ha qn hfin)
    obtain ⟨hdeq, -⟩ := untagged_placed mem msg h.failFree ha.untagged ha.ready hc hq
    have heq := congrArg UntaggedBufferQueue.q (congrFun (hqueues.symm.trans hdeq) qn)
    rw [Function.update_self, hq] at heq
    exact List.cons_ne_self b bs heq
  | post qn bufs => trivial
  | register buf => trivial
  | deregister tag => trivial

/-- A message that is accepted is not an old one. -/
theorem step_increasing (h : s.Inv) (hi : s.Increasing) (ho : OldRejected c s) :
    (step c s).Increasing := by
  cases c with
  | recv mem msg =>
    unfold Increasing
    simp only [step]
    split
    · rename_i hacc
      obtain ⟨m, qn, ha, -, hqn, hmsn⟩ := accepted_arrives h.failFree hacc.1 hacc.2
      refine List.pairwise_append.mpr ⟨hi, List.pairwise_singleton _ _, fun a hmem b hb hab => ?_⟩
      rw [List.mem_singleton.mp hb, hqn] at hab
      rw [List.mem_singleton.mp hb, hmsn]
      by_contra hle
      obtain ⟨⟨r, hneg, hr⟩, -⟩ := ho m ha ⟨a, hmem, hab, UInt32.not_lt.mp hle⟩
      rw [hacc.1] at hr
      cases hr
      omega
    · exact hi
  | post qn bufs => exact hi
  | register buf => exact hi
  | deregister tag => exact hi

end

/-- The header that comes next has a number above those accepted on its queue. -/
def Above : RecvCall → Recvs → Prop
  | .recv _ _, s => ∀ a ∈ s.accepted, a.qn = (wireUntagged (segRaw 18 s.ctx.inb.pending)).qn →
      a.msn < (wireUntagged (segRaw 18 s.ctx.inb.pending)).msn
  | _, _ => True

instance : ∀ (c : RecvCall) (s : Recvs), Decidable (Above c s)
  | .recv _ _, s => inferInstanceAs (Decidable (∀ a ∈ s.accepted, _ → _))
  | .post _ _, _ | .register _, _ | .deregister _, _ => isTrue trivial

theorem newNumber_of_above {c : RecvCall} {s : Recvs} (h : Above c s) : NewNumber c s := by
  cases c with
  | recv mem msg =>
    rintro m ⟨-, -, rfl⟩ ⟨a, hmem, hqn, hle⟩
    exact absurd (h a hmem hqn) (UInt32.not_lt.mpr hle)
  | post qn bufs => trivial
  | register buf => trivial
  | deregister tag => trivial

instance (s : Recvs) : Decidable s.Increasing :=
  inferInstanceAs (Decidable (List.Pairwise _ s.accepted))

/-- While the peer sends new numbers, or 0, every old message is rejected and
    the numbers accepted increase. When a buffer is posted for each message,
    this is so for no other peer. -/
theorem msns_increasing {s : Recvs} (hs : s.New) (cs : List RecvCall) :
    (Admits step NewNumber cs s → Admits step OldRejected cs s ∧ (run step cs s).Increasing) ∧
      (Admits step Posted cs s → Admits step OldRejected cs s → Admits step NewNumber cs s) := by
  constructor
  · intro hnew
    have hold : Admits step OldRejected cs s :=
      hnew.mono (fun c _ h => step_inv c h) (fun _ _ h hn => oldRejected_of_newNumber h hn) hs.inv
    refine ⟨hold, ?_⟩
    have hreach : Reach step OldRejected (· = s) (run step cs s) := Reach.run cs (.start rfl) hold
    refine (hreach.invariant (I := fun s => s.Inv ∧ s.Increasing) ?_ ?_).2
    · rintro _ rfl
      exact ⟨hs.inv, by simp [Increasing, hs.accepted]⟩
    · exact fun c s h ho => ⟨step_inv c h.1, step_increasing h.1 h.2 ho⟩
  · intro hposted hold
    exact (hposted.and hold).mono (fun c _ h => step_inv c h)
      (fun _ _ h hpo => newNumber_of_oldRejected h hpo.1 hpo.2) hs.inv

/-- A stream of two messages of one byte on queue 0 with the given numbers. -/
def twoMessages (m n : UInt32) : Recvs where
  ctx := ddpInitStream
    { pending := fpdu [[0x41], DdpUntaggedMeta.bytes ⟨0x43, 0, 0, htonl m, 0⟩, [8]] ++
        fpdu [[0x41], DdpUntaggedMeta.bytes ⟨0x43, 0, 0, htonl n, 0⟩, [9]]
      eof := false } ⟨[], []⟩
  accepted := []

/-- Two buffers are posted and two messages received. -/
def twoCalls : List RecvCall :=
  [.post 0 [⟨0x7000, 1⟩, ⟨0x7100, 1⟩]] ++
    List.replicate 2 (.recv ⟨fun _ => 0, []⟩ ⟨0, fun _ => 0, .untag ⟨0, 0⟩, 0⟩)

/-- The numbers 1 and 2. -/
theorem msns_increasing_new :
    Admits step OldRejected twoCalls (twoMessages 1 2) ∧
      (run step twoCalls (twoMessages 1 2)).Increasing := by
  have hnew : (twoMessages 1 2).New := ⟨fun _ => rfl, fun _ => rfl, rfl⟩
  have habove : Admits step Above twoCalls (twoMessages 1 2) := by decide +kernel
  have hadm : Admits step NewNumber twoCalls (twoMessages 1 2) :=
    habove.mono (I := fun _ => True) (fun _ _ _ => trivial) (fun _ _ _ => newNumber_of_above) trivial
  exact (msns_increasing hnew twoCalls).1 hadm

/-- The number 1 twice: both messages are accepted and take a buffer. -/
theorem msns_repeated_accepted :
    let t := run step twoCalls (twoMessages 1 1)
    t.accepted.map DdpUntaggedMeta.msn = [1, 1] ∧ (t.ctx.queues 0).q = [] ∧ ¬t.Increasing := by
  intro t
  exact ⟨by decide +kernel, by decide +kernel, by decide +kernel⟩

end Recvs

end SoftUiWarp
