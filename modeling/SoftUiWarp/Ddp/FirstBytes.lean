import SoftUiWarp.Ddp.Queues
import SoftUiWarp.Ddp.Recv
import SoftUiWarp.Mpa.Interrupts

/-!
# The first bytes of a message, on any stream

A failure of `recv` inside a header may be made up for by bytes that come
later, and then the fields after it are wrong. The first byte a call stores is
always the next byte of the stream, so the control byte and the byte after it
are what the peer sent, whatever `recv` returns.

Results:
* `served_patch_zero`: the first byte the payload loop stores.
* `ddpRecvHead_first`: the control byte and the opcode byte of a message that
  `ddp_recv` accepts.
-/

namespace SoftUiWarp

open TcpStream ByteMem

/-! ## The first byte of a call -/

section

variable {s t : Inbound} {info : MpaPacket} {toRead rcvd n r : ℤ} {rs : List ℤ}
  {ws : List (UInt8 × ℕ)}

/-- Bytes counted earlier are not stored over. -/
theorem served_offset_pos (h : Served toRead s rcvd rs ws t) (h0 : 0 < rcvd) :
    ∀ w ∈ ws, 0 < w.2 := by
  induction h with
  | last =>
    intro w hw
    have hle := List.le_snd_of_mem_zipIdx hw
    omega
  | more _ hpos _ _ ih =>
    intro w hw
    rcases List.mem_append.mp hw with hw | hw
    · have hle := List.le_snd_of_mem_zipIdx hw
      omega
    · exact ih hpos w hw

theorem Buf.patch_of_pos {b : Buf} (h : ∀ w ∈ ws, 0 < w.2) : b.patch ws 0 = b 0 := by
  induction ws generalizing b with
  | nil => rfl
  | cons w ws ih =>
    show Buf.patch (Function.update b w.2 w.1) ws 0 = b 0
    rw [ih fun x hx => h x (by simp [hx]), Function.update_of_ne (h w (by simp)).ne]

/-- The first bytes that are counted start with the next byte of the stream. -/
theorem patch_of_recv {m : ℕ} {bs : List UInt8} (h : s.recv m = some (r, bs, t)) (hr : 0 < r)
    (b : Buf) : b.patch (bs.zipIdx 0) 0 = s.pending.getD 0 0 := by
  cases recv_cases h with
  | failed => omega
  | nothing => omega
  | bytes h0 _ _ hk =>
    rw [Buf.patch_apply, if_pos ⟨le_rfl, by simp; omega⟩]
    simp [List.getD_eq_getElem?_getD, h0]

theorem served_patch_zero (h : Served toRead s 0 rs ws t) (hpos : 0 < rs.sum) (b : Buf) :
    b.patch ws 0 = s.pending.getD 0 0 := by
  generalize hc : (0 : ℤ) = c at h
  cases h with
  | last h =>
    subst hc
    rw [List.sum_singleton] at hpos
    exact patch_of_recv h hpos b
  | more h h0 _ rest =>
    subst hc
    rw [zero_add] at h0
    unfold Buf.patch
    rw [List.foldl_append]
    exact (Buf.patch_of_pos (served_offset_pos rest (by omega))).trans (patch_of_recv h h0 b)

/-- A loop that asks for one byte. -/
theorem served_one (h : Served 1 s 0 rs ws t) (hsum : rs.sum = 1) : t = s.advance 1 := by
  generalize hc : (0 : ℤ) = c at h
  cases h with
  | last h =>
    rw [List.sum_singleton] at hsum
    obtain ⟨k, hk, -, -, rfl⟩ := read_of_recv h (by omega)
    rw [show k = 1 by omega]
  | more h h0 hlt => omega

/-- A call that returns a count. -/
theorem completes_of_val (hret : (mpaRecv s info n).ret = .val r) (h0 : 0 ≤ r) :
    HdrWhole s info ∧ ∃ rs ws t, Completes (s.advance info.hdrRem) (info.opened s) n rs ws t := by
  rcases mpaRecv_cases s info n with ⟨x, hneg, hx⟩ | ⟨hb, -⟩ | hs | h
  · cases hret.symm.trans hx
    omega
  · cases hret.symm.trans hb
  · cases hret.symm.trans (mpaRecv_of_starved hs)
  · exact h

/-- A call inside a packet that stores at least one byte. -/
theorem mpaRecv_patch_zero {len : UInt16} {k : ℕ} (hret : (mpaRecv s ⟨len, 2 + k⟩ n).ret = .val r)
    (h0 : 0 ≤ r) (hpos : 0 < n) (hlen : k < len.toNat) (b : Buf) :
    b.patch (mpaRecv s ⟨len, 2 + k⟩ n).writes 0 = s.pending.getD 0 0 := by
  obtain ⟨hh, rs, ws, t, hc⟩ := completes_of_val hret h0
  have hrem : (MpaPacket.mk len (2 + k)).hdrRem = 0 := by
    simp only [MpaPacket.hdrRem, mpaHdrSize]
    omega
  have hopen : (MpaPacket.mk len (2 + k)).opened s = ⟨len, 2 + k⟩ := by
    unfold MpaPacket.opened
    rw [if_neg (by simp only [mpaHdrSize]; omega)]
  have hsum : 0 < rs.sum := by
    rw [hc.sum, hopen]
    simp only [MpaPacket.toRead, MpaPacket.rem, mpaHdrSize]
    split_ifs <;> omega
  rw [mpaRecv_of_completes hh hc]
  have hz := served_patch_zero hc.served hsum b
  rwa [hrem, advance_zero] at hz

end

/-! ## The first two bytes of a message -/

section

variable {s : Inbound} {r : ℤ}

/-- The call for the control byte: it is stored, and the reader is behind it if
    the ULPDU goes on. -/
theorem mpaRecv_ctrl_any (hret : (mpaRecv s {} ddpCtrlSize).ret = .val r) (h0 : 0 ≤ r) (b : Buf) :
    3 ≤ r ∧ b.patch (mpaRecv s {} ddpCtrlSize).writes 0 = s.pending.getD 2 0 ∧
      (1 < (mpaRecv s {} ddpCtrlSize).info.ulpduLen.toNat →
        (mpaRecv s {} ddpCtrlSize).inb = s.advance 3 ∧
        (mpaRecv s {} ddpCtrlSize).info.bytesRcvd = 2 + (1 : ℕ)) := by
  obtain ⟨hh, rs, ws, t, hc⟩ := completes_of_val hret h0
  obtain ⟨p, hp⟩ : ∃ p, MpaPacket.opened {} s = p := ⟨_, rfl⟩
  have hrcvd : p.bytesRcvd = 2 := by
    rw [← hp, opened_bytesRcvd]
    rfl
  rw [hp, show MpaPacket.hdrRem {} = 2 from rfl] at hc
  have hpos := hc.pos
  have hone : p.toRead (ddpCtrlSize : ℕ) = 1 := by
    simp only [MpaPacket.toRead, MpaPacket.rem, hrcvd, mpaHdrSize, ddpCtrlSize]
    split_ifs <;> omega
  have hsum := hc.sum
  have hserved := hc.served
  rw [hone] at hsum hserved
  have hafter : (p.after (ddpCtrlSize : ℕ)).bytesRcvd =
      p.bytesRcvd + p.toRead (ddpCtrlSize : ℕ) + p.trailerLen (ddpCtrlSize : ℕ) := rfl
  rw [hrcvd, hone] at hafter
  rw [mpaRecv_of_completes hh (by rw [hp]; exact hc), hp] at hret ⊢
  refine ⟨?_, ?_, ?_⟩
  · cases hret
    omega
  · rw [served_patch_zero hserved (by omega) b, advance_pending]
    simp [List.getD_eq_getElem?_getD]
  · intro hlen
    have hlen' : 1 < p.ulpduLen.toNat := hlen
    have htr : p.trailerLen (ddpCtrlSize : ℕ) = 0 := by
      simp only [MpaPacket.trailerLen, MpaPacket.rem, hrcvd, mpaHdrSize, ddpCtrlSize]
      rw [if_neg (by omega)]
    have hinb : t.advance 0 = s.advance 3 := by
      rw [served_one hserved hsum, advance_zero, advance_advance]
    simp only [htr, hinb, hafter]
    exact ⟨trivial, by norm_num⟩

variable {ctx : DdpCtx} {mem : Mem} {msg : DdpMessage} {len : UInt16} {c : SegCtx}

/-- The tagged header keeps the control byte and starts with the next byte. -/
theorem ddpRecvTaggedHdr_first (h : (ddpRecvTaggedHdr ctx msg ⟨len, 2 + (1 : ℕ)⟩).next = .inr c) :
    (ddpRecvTaggedHdr ctx msg ⟨len, 2 + (1 : ℕ)⟩).msg.hdr = msg.hdr ∧
      (ddpRecvTaggedHdr ctx msg ⟨len, 2 + (1 : ℕ)⟩).msg.hdrUnion 0 =
        ctx.inb.pending.getD 0 0 := by
  unfold ddpRecvTaggedHdr at h ⊢
  simp only at h ⊢
  split at h
  · cases h
  · rename_i hlen
    simp only [ddpCtrlSize, ddpTaggedHdrSize] at hlen
    rw [if_neg (by simpa only [ddpCtrlSize, ddpTaggedHdrSize] using hlen)]
    split at h
    · rename_i r hret
      split at h
      · cases h
      · rename_i hneg
        have hz := mpaRecv_patch_zero hret (by omega) (by decide) (by omega) msg.hdrUnion
        simp only [if_neg hneg]
        split at h
        · cases h
        · refine ⟨rfl, ?_⟩
          simp only
          rw [Buf.patch_apply, if_neg (by omega), Buf.patch_apply, if_neg (by omega)]
          exact hz
    · cases h

/-- The untagged header keeps the control byte and starts with the next byte. -/
theorem ddpRecvUntaggedHdr_first
    (h : (ddpRecvUntaggedHdr ctx msg ⟨len, 2 + (1 : ℕ)⟩).next = .inr c) :
    (ddpRecvUntaggedHdr ctx msg ⟨len, 2 + (1 : ℕ)⟩).msg.hdr = msg.hdr ∧
      (ddpRecvUntaggedHdr ctx msg ⟨len, 2 + (1 : ℕ)⟩).msg.hdrUnion 0 =
        ctx.inb.pending.getD 0 0 := by
  unfold ddpRecvUntaggedHdr at h ⊢
  simp only at h ⊢
  split at h
  · cases h
  · rename_i hlen
    simp only [ddpCtrlSize, ddpUntaggedHdrSize] at hlen
    rw [if_neg (by simpa only [ddpCtrlSize, ddpUntaggedHdrSize] using hlen)]
    split at h
    · rename_i r hret
      split at h
      · cases h
      · rename_i hneg
        have hz := mpaRecv_patch_zero hret (by omega) (by decide) (by omega) msg.hdrUnion
        simp only [if_neg hneg]
        split at h
        · cases h
        · refine ⟨tryDequeueBuf_hdr _ _ _, ?_⟩
          rw [tryDequeueBuf_hdrUnion]
          simp only
          rw [Buf.patch_apply, if_neg (by omega), Buf.patch_apply, if_neg (by omega),
            Buf.patch_apply, if_neg (by omega)]
          exact hz
    · cases h

/-- The ULPDU of a message whose header is accepted goes on after the control
    byte. -/
theorem lt_len_of_taggedHdr {info : MpaPacket} (h : (ddpRecvTaggedHdr ctx msg info).next = .inr c) :
    1 < info.ulpduLen.toNat := by
  unfold ddpRecvTaggedHdr at h
  simp only at h
  split at h
  · cases h
  · rename_i hlen
    simp only [ddpCtrlSize, ddpTaggedHdrSize] at hlen
    omega

theorem lt_len_of_untaggedHdr {info : MpaPacket}
    (h : (ddpRecvUntaggedHdr ctx msg info).next = .inr c) : 1 < info.ulpduLen.toNat := by
  unfold ddpRecvUntaggedHdr at h
  simp only at h
  split at h
  · cases h
  · rename_i hlen
    simp only [ddpCtrlSize, ddpUntaggedHdrSize] at hlen
    omega

/-- A message whose header is accepted has the control byte and the opcode byte
    the peer sent. -/
theorem ddpRecvHead_first (h : (ddpRecvHead ctx msg).next = .inr c) :
    (ddpRecvHead ctx msg).msg.hdr = ctx.inb.pending.getD 2 0 ∧
      (ddpRecvHead ctx msg).msg.hdrUnion 0 = ctx.inb.pending.getD 3 0 := by
  have hnext : (ctx.inb.advance 3).pending.getD 0 0 = ctx.inb.pending.getD 3 0 := by
    simp [List.getD_eq_getElem?_getD]
  unfold ddpRecvHead at h ⊢
  simp only at h ⊢
  split at h
  · rename_i r hret
    split at h
    · cases h
    · rename_i hr
      obtain ⟨-, hctrl, hrest⟩ := mpaRecv_ctrl_any hret (by simp only [ddpCtrlSize] at hr; omega)
        (fun _ => msg.hdr)
      obtain ⟨⟨len, rcvd⟩, hinfo⟩ : ∃ i, (mpaRecv ctx.inb {} ddpCtrlSize).info = i := ⟨_, rfl⟩
      rw [hinfo] at hrest h ⊢
      simp only [if_neg hr]
      split at h
      · rename_i ht
        obtain ⟨hinb, rfl⟩ := hrest (lt_len_of_taggedHdr h)
        obtain ⟨h1, h2⟩ := ddpRecvTaggedHdr_first h
        rw [if_pos ht, h1, h2, hinb, hnext]
        exact ⟨hctrl, rfl⟩
      · rename_i ht
        obtain ⟨hinb, rfl⟩ := hrest (lt_len_of_untaggedHdr h)
        obtain ⟨h1, h2⟩ := ddpRecvUntaggedHdr_first h
        rw [if_neg ht, h1, h2, hinb, hnext]
        exact ⟨hctrl, rfl⟩
  · cases h

theorem ddpRecvTaggedHdr_neg {info : MpaPacket}
    (h : (ddpRecvTaggedHdr ctx msg info).next = .inl (.val r)) : r < 0 := by
  unfold ddpRecvTaggedHdr at h
  simp only at h
  split at h
  · cases h
    decide
  · split at h
    · split at h
      · cases h
        assumption
      · split at h
        · cases h
          decide
        · cases h
    · rename_i hno
      exact absurd (Sum.inl.inj h) (hno r)

theorem ddpRecvUntaggedHdr_neg {info : MpaPacket}
    (h : (ddpRecvUntaggedHdr ctx msg info).next = .inl (.val r)) : r < 0 := by
  unfold ddpRecvUntaggedHdr at h
  simp only at h
  split at h
  · cases h
    decide
  · split at h
    · split at h
      · cases h
        assumption
      · split at h
        · cases h
          decide
        · cases h
    · rename_i hno
      exact absurd (Sum.inl.inj h) (hno r)

/-- A call that ends before the payload reports an error or does not return. -/
theorem ddpRecvHead_neg (h : (ddpRecvHead ctx msg).next = .inl (.val r)) : r < 0 := by
  unfold ddpRecvHead at h
  simp only at h
  split at h
  · rename_i x hret
    split at h
    · rename_i hx
      cases h
      by_contra hneg
      obtain ⟨h3, -⟩ := mpaRecv_ctrl_any hret (by omega) (fun _ => 0)
      simp only [ddpCtrlSize] at hx
      omega
    · split at h
      · exact ddpRecvTaggedHdr_neg h
      · exact ddpRecvUntaggedHdr_neg h
  · rename_i hno
    exact absurd (Sum.inl.inj h) (hno r)

/-- The payload loop leaves both bytes alone. -/
theorem ddpRecvPayload_first (ctx : DdpCtx) (mem : Mem) (msg : DdpMessage) (c : SegCtx) :
    (ddpRecvPayload ctx mem msg c).msg.hdr = msg.hdr ∧
      (ddpRecvPayload ctx mem msg c).msg.hdrUnion 0 = msg.hdrUnion 0 := by
  refine ⟨(ddpRecvPayload_keeps ctx mem msg c).2.2.1, ?_⟩
  unfold ddpRecvPayload
  simp only
  split
  · unfold DdpMessage.finish
    split
    · rfl
    · simp only
      rw [Buf.patch_apply, if_neg (by omega)]
  · rfl

end

end SoftUiWarp
