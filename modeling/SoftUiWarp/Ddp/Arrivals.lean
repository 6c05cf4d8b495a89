import SoftUiWarp.Ddp.HeaderOnly

/-!
# Messages that arrive while they are received

`rnic_recv` may be in `ddp_recv` while the rest of a message is still on its way.
What it has read by then does not depend on the bytes that come later, and a
call that returns 0 has read exactly the message that starts where it started.

Results:
* `AtHead.arrive`: bytes that arrive behind the header change nothing.
* `segLoop_whole`: a payload loop that returns 0 has received a whole message.
* `underway_of_head`, `Underway.arrive`, `Underway.whole`: the two steps of a
  call of `ddp_recv`, and what may happen between them.
-/

namespace SoftUiWarp

open TcpStream ByteMem

/-! ## Bytes behind a header -/

section

variable {t : List UInt8} (bs : List UInt8)

theorem segField_append (h : 2 ≤ t.length) : segField (t ++ bs) = segField t := by
  rw [segField, segField, List.take_append_of_le_length h]

theorem segLen_append (h : 2 ≤ t.length) : segLen (t ++ bs) = segLen t :=
  congrArg UInt16.toNat (segField_append bs h)

theorem hdrEnd_append {H : ℕ} (h : 2 ≤ t.length) : hdrEnd H (t ++ bs) = hdrEnd H t := by
  rw [hdrEnd, hdrEnd, segLen_append bs h]

theorem getD_append_two (h : 3 ≤ t.length) : (t ++ bs).getD 2 0 = t.getD 2 0 := by
  rw [List.getD_eq_getElem?_getD, List.getD_eq_getElem?_getD, List.getElem?_append_left h]

/-- A header that has arrived. -/
theorem segRaw_append {H : ℕ} (h : hdrEnd H t ≤ t.length) : segRaw H (t ++ bs) = segRaw H t := by
  have hle : 2 + min H (segLen t) ≤ hdrEnd H t := by
    rw [hdrEnd, bodyEnd]
    split_ifs <;> omega
  rw [segRaw, segRaw, segLen_append bs (by omega), List.drop_append_of_le_length (by omega),
    List.take_append_of_le_length]
  rw [List.length_drop]
  omega

end

section

variable {K : SegKind} {α : Type} {S : FieldSpec K α} {v : α} {s₀ s : Inbound} {c : SegCtx}

/-- The control byte has arrived with the header. -/
theorem AtHead.three_le (h : AtHead S v s₀ s c) : 3 ≤ s₀.pending.length := by
  have hpos := h.pos
  have hsize := S.size_pos
  have hle : 3 ≤ hdrEnd K.hdrSize s₀.pending := by
    rw [hdrEnd, bodyEnd]
    split_ifs <;> omega
  exact hle.trans h.avail

/-- What arrives behind a header that has been read leaves the reader where it is. -/
theorem AtHead.arrive (h : AtHead S v s₀ s c) (bs : List UInt8) :
    AtHead S v (s₀.arrive bs) (s.arrive bs) c := by
  have h3 := h.three_le
  have h2 : 2 ≤ s₀.pending.length := by omega
  constructor
  case pos => rw [arrive_pending, segLen_append bs h2]; exact h.pos
  case avail =>
    rw [arrive_pending, hdrEnd_append bs h2, List.length_append]
    exact h.avail.trans (Nat.le_add_right _ _)
  case inb => rw [arrive_pending, hdrEnd_append bs h2, advance_arrive h.avail, h.inb]
  case info => rw [arrive_pending, segField_append bs h2, hdrEnd_append bs h2]; exact h.info
  case payloadLen => rw [arrive_pending, segLen_append bs h2]; exact h.payloadLen
  case raw => rw [arrive_pending, segRaw_append bs h.avail]; exact h.raw
  case ctrl => rw [arrive_pending, getD_append_two bs h3]; exact h.ctrl
  case val => exact h.val

/-! ## A payload loop that returns 0 -/

/-- A loop that returns 0 has read the whole message that starts at `s₀`, and
    has placed the payload of every segment where its header says. -/
theorem segLoop_whole (w : α) : ∀ (fuel : ℕ) (v : α) (s₀ s : Inbound) (c : SegCtx) (len : ℤ)
    (acc : List Placement), s₀.FailFree → AtHead S v s₀ s c →
      (segLoop K fuel s c len acc).ret = .val 0 →
      ∃ f fs rest, s₀.pending = wireOf (f :: fs) ++ rest ∧ IsMessage K.hdrSize (f :: fs) ∧
        (∀ g ∈ f :: fs, K.hdrSize < g.len) ∧
        segLoop K fuel s c len acc =
          ⟨.val 0, len + (payloadOf K.hdrSize (f :: fs)).length,
            s₀.advance (wireOf (f :: fs)).length, acc ++ (f :: fs).map (S.placement w)⟩ := by
  have hstop : ∀ x : Ret, failRet x ≠ .val 0 := fun x hx =>
    not_ok_failRet (x := x) ⟨0, le_rfl, hx⟩
  intro fuel
  induction fuel with
  | zero => intro v s₀ s c len acc _ _ hret; cases hret
  | succ fuel ih =>
    intro v s₀ s c len acc hf h hret
    by_cases hok : (payloadCall s c).ret.Ok
    swap
    · rw [segLoop_stop K hok] at hret
      exact absurd hret (hstop _)
    obtain ⟨f, rest, ht, hH, hinb⟩ := h.payload_ok hf hok
    have hplace := h.roundPlacement_wire hf w ht hH
    have hlen : c.payloadLen = (f.payload K.hdrSize).length := by
      rw [h.payloadLen, ht, segLen_wire, Fpdu.length_payload, Nat.cast_sub hH.le]
    by_cases hl : c.packed 0 &&& ddpFlagLast ≠ 0
    · -- the last segment
      have hlast : f.last = true := by simpa [h.last_eq ht] using hl
      refine ⟨f, [], rest, by simpa using ht, ⟨hH.le, hlast⟩, by simpa using hH, ?_⟩
      rw [segLoop_last K hok hl, hinb, hplace, hlen]
      simp
    by_cases hok2 : (headerCall K s c).ret.Ok
    swap
    · rw [segLoop_hdr_stop K hok hl hok2] at hret
      exact absurd hret (hstop _)
    -- the segments behind the first one
    have hpf : (payloadCall s c).inb.FailFree := by rw [hinb]; exact hf.advance _
    have hlast : f.last = false := by simpa [h.last_eq ht] using hl
    rw [segLoop_next K hok hl hok2] at hret ⊢
    obtain ⟨g, gs, rest', hp, hmsg, hsize, heq⟩ := ih (S.val c.packed) _ _ _ _ _ hpf
      (atHead_of_headerCall S hpf hok2) hret
    have hrest : rest = wireOf (g :: gs) ++ rest' := by
      rw [← hp, hinb, advance_pending, ht, List.drop_left]
    refine ⟨f, g :: gs, rest', ?_, ⟨hH.le, hlast, hmsg⟩, List.forall_mem_cons.mpr ⟨hH, hsize⟩, ?_⟩
    · rw [ht, hrest, wireOf_cons f, List.append_assoc]
    · rw [heq, hinb, hplace, hlen, advance_advance, wireOf_cons f, payloadOf_cons K.hdrSize f,
        List.length_append, List.length_append, List.map_cons, List.append_assoc]
      push_cast
      rw [add_assoc]
      rfl

end

/-! ## The two steps of a call -/

/-- The first header of the message that starts at `s₀` has been read and
    accepted; the reader is at `inb`, and `msg` and `c` are the variables of
    `ddp_recv` before the payload loop. -/
structure Underway (s₀ inb : Inbound) (msg : DdpMessage) (c : SegCtx) : Prop where
  failFree : s₀.FailFree
  hdr : msg.hdr = s₀.pending.getD 2 0
  tagged : ddpIsTagged msg.hdr = true → AtHead taggedField 0 s₀ inb c ∧
    msg.taggedMetadata = wireTagged (segRaw 14 s₀.pending)
  untagged : ddpIsTagged msg.hdr = false →
    AtHead (untaggedField msg.buf.untagBuf.data) 0 s₀ inb c ∧
    msg.untaggedMetadata = wireUntagged (segRaw 18 s₀.pending)

/-- A call of `ddp_recv` that started on the stream `s₀` and has returned 0 has
    received the message of the segments `f :: fs`. -/
structure Whole (s₀ : Inbound) (mem : Mem) (out : DdpOut) (f : Fpdu) (fs : List Fpdu) : Prop where
  pending : ∃ rest, s₀.pending = wireOf (f :: fs) ++ rest
  inb : out.ctx.inb = s₀.advance (wireOf (f :: fs)).length
  message : IsMessage (ddpHdrSize f.ctrl) (f :: fs)
  size : ∀ g ∈ f :: fs, ddpHdrSize f.ctrl < g.len
  hdr : out.msg.hdr = f.ctrl
  len : out.msg.len = (payloadOf (ddpHdrSize f.ctrl) (f :: fs)).length
  mem : out.mem = mem.write (out.placed.flatMap Placement.stores)
  tagged : ddpIsTagged f.ctrl = true → out.msg.taggedMetadata = wireTagged (f.hdr 14) ∧
    out.placed = (f :: fs).map (taggedField.placement 0)
  untagged : ddpIsTagged f.ctrl = false →
    out.msg.untaggedMetadata = { wireUntagged (f.hdr 18) with mo := 0 } ∧
    out.placed = (f :: fs).map ((untaggedField out.msg.buf.untagBuf.data).placement 0)

theorem DdpMessage.taggedMetadata_setBuf (msg : DdpMessage) (b : BufUnion) :
    { msg with buf := b }.taggedMetadata = msg.taggedMetadata := rfl

section

variable {ctx : DdpCtx} {msg : DdpMessage} {c : SegCtx}

/-- Only a header that is complete and accepted leads to the payload loop. -/
theorem underway_of_head (hf : ctx.inb.FailFree) (hnext : (ddpRecvHead ctx msg).next = .inr c) :
    Underway ctx.inb (ddpRecvHead ctx msg).ctx.inb (ddpRecvHead ctx msg).msg c := by
  have hr : FirstReady ctx.inb (ddpHdrSize (ctx.inb.pending.getD 2 0)) := by
    by_contra hn
    obtain ⟨r, -, hinl, -⟩ := ddpRecvHead_of_not_ready msg hf hn
    rw [hinl] at hnext
    cases hnext
  have hpos := hr.ctrl.pos
  cases ht : ddpIsTagged (ctx.inb.pending.getD 2 0) with
  | true =>
    rw [ddpHdrSize, ht, if_pos rfl] at hr
    have hraw := getD_segRaw (H := 14) (by decide) hpos
    have hhead := ddpRecvHead_tagged_of_ready msg hf ht hr
    cases hb : ddpCheckStag ctx.taggedBuffers (wireTagged (segRaw 14 ctx.inb.pending)) with
    | none =>
      rw [hb] at hhead
      rw [hhead] at hnext
      cases hnext
    | some b =>
      rw [hb] at hhead
      rw [hhead] at hnext ⊢
      obtain rfl := Sum.inr.inj hnext
      refine ⟨hf, hraw, fun _ => ⟨atHead_tagged hr 0, ?_⟩, fun hu => ?_⟩
      · rw [DdpMessage.taggedMetadata_setBuf]
        exact taggedHdrMsg_metadata msg (length_segRaw hr.size (firstReady_avail (by decide) hr))
      · have : ddpIsTagged ((segRaw 14 ctx.inb.pending).getD 0 0) = false := hu
        rw [hraw, ht] at this
        cases this
  | false =>
    rw [ddpHdrSize, ht, if_neg (by decide)] at hr
    have hraw := getD_segRaw (H := 18) (by decide) hpos
    have hhead := ddpRecvHead_untagged_of_ready msg hf ht hr
    cases hqn : ddpCheckUntaggedHdr ctx.queues (wireUntagged (segRaw 18 ctx.inb.pending)) with
    | none =>
      simp only [hqn] at hhead
      rw [hhead] at hnext
      cases hnext
    | some qn =>
      simp only [hqn] at hhead
      obtain ⟨d, hd⟩ : ∃ d, tryDequeueBuf
        { ctx with inb := ctx.inb.advance (hdrEnd 18 ctx.inb.pending) } qn
        (untaggedHdrMsg msg (segRaw 18 ctx.inb.pending)) = d := ⟨_, rfl⟩
      have hinb : d.1.inb = ctx.inb.advance (hdrEnd 18 ctx.inb.pending) := by
        rw [← hd]
        exact (tryDequeueBuf_keeps _ _ _).1
      have hhdr : d.2.hdr = ctx.inb.pending.getD 2 0 := by
        rw [← hd, tryDequeueBuf_hdr]
        exact hraw
      have hmeta : d.2.untaggedMetadata = wireUntagged (segRaw 18 ctx.inb.pending) := by
        rw [← hd, DdpMessage.untaggedMetadata, tryDequeueBuf_hdrUnion]
        exact untaggedHdrMsg_metadata msg (length_segRaw hr.size (firstReady_avail (by decide) hr))
      rw [hd] at hhead
      rw [hhead] at hnext ⊢
      obtain rfl := Sum.inr.inj hnext
      refine ⟨hf, hhdr, fun hu => ?_, fun _ => ⟨?_, hmeta⟩⟩
      · have : ddpIsTagged d.2.hdr = true := hu
        rw [hhdr, ht] at this
        cases this
      · show AtHead (untaggedField d.2.buf.untagBuf.data) 0 ctx.inb d.1.inb _
        rw [hinb]
        exact atHead_untagged hr _ 0

variable {s₀ inb : Inbound}

/-- Bytes may arrive between the two steps. -/
theorem Underway.arrive (h : Underway s₀ inb msg c) (bs : List UInt8) :
    Underway (s₀.arrive bs) (inb.arrive bs) msg c := by
  have hcases : 3 ≤ s₀.pending.length := by
    cases ht : ddpIsTagged msg.hdr with
    | true => exact (h.tagged ht).1.three_le
    | false => exact (h.untagged ht).1.three_le
  refine ⟨h.failFree.arrive bs, ?_, fun ht => ?_, fun ht => ?_⟩
  · rw [arrive_pending, getD_append_two bs hcases]
    exact h.hdr
  · obtain ⟨hat, hmeta⟩ := h.tagged ht
    refine ⟨hat.arrive bs, ?_⟩
    rw [arrive_pending, segRaw_append (H := 14) bs hat.avail]
    exact hmeta
  · obtain ⟨hat, hmeta⟩ := h.untagged ht
    refine ⟨hat.arrive bs, ?_⟩
    rw [arrive_pending, segRaw_append (H := 18) bs hat.avail]
    exact hmeta

theorem finish_hdr (msg : DdpMessage) (len : ℤ) : (msg.finish len).hdr = msg.hdr := by
  unfold DdpMessage.finish
  split <;> rfl

/-- The fields of an untagged message when `ddp_recv` returns: the offset is
    set to 0. -/
theorem finish_untaggedMetadata {msg : DdpMessage} (ht : ddpIsTagged msg.hdr = false) (len : ℤ) :
    (msg.finish len).untaggedMetadata = { msg.untaggedMetadata with mo := 0 } := by
  rw [DdpMessage.finish, if_neg (by rw [ht]; decide)]
  simp only [DdpMessage.untaggedMetadata, untaggedAt, Nat.zero_add, DdpUntaggedMeta.mk.injEq]
  refine ⟨?_, ?_, ?_, ?_, ?_⟩
  · rw [Buf.patch_apply, if_neg (by omega)]
  · rw [Buf.bytes_patch_of_disjoint (by omega)]
  · rw [Buf.bytes_patch_of_disjoint (by omega)]
  · rw [Buf.bytes_patch_of_disjoint (by omega)]
  · rw [Buf.bytes_patch_self (by simp), word32_bytes32]

/-- The call from the payload loop on, when it returns 0. -/
theorem ddpRecvPayload_of_loop {mem : Mem} {p : PayloadOut}
    (hp : segLoop msg.kind (ctx.inb.pending.length + 1) ctx.inb c 0 [] = p)
    (hret : p.ret = .val 0) :
    ddpRecvPayload ctx mem msg c = ⟨.val 0, { ctx with inb := p.inb },
      mem.write (p.placed.flatMap Placement.stores), msg.finish p.len, p.placed⟩ := by
  rw [ddpRecvPayload, hp]
  simp only [hret, if_true]

/-- The return value is that of the loop. -/
theorem ddpRecvPayload_ret (ctx : DdpCtx) (mem : Mem) (msg : DdpMessage) (c : SegCtx) :
    (ddpRecvPayload ctx mem msg c).ret =
      (segLoop msg.kind (ctx.inb.pending.length + 1) ctx.inb c 0 []).ret := by
  rw [ddpRecvPayload]
  split <;> rfl

/-- The second step receives the message the first one started on, with the
    fields its first header had. -/
theorem Underway.whole {mem : Mem} (h : Underway s₀ ctx.inb msg c)
    (hret : (ddpRecvPayload ctx mem msg c).ret = .val 0) :
    ∃ f fs, Whole s₀ mem (ddpRecvPayload ctx mem msg c) f fs := by
  rw [ddpRecvPayload_ret] at hret
  cases ht : ddpIsTagged msg.hdr with
  | true =>
    obtain ⟨hat, hmeta⟩ := h.tagged ht
    rw [kind_of_tagged ht] at hret
    obtain ⟨f, fs, rest, hp, hmsg, hsize, heq⟩ :=
      segLoop_whole 0 _ 0 s₀ ctx.inb c 0 [] h.failFree hat hret
    have hloop := (congrArg (fun K => segLoop K (ctx.inb.pending.length + 1) ctx.inb c 0 [])
      (kind_of_tagged ht)).trans heq
    have hp' : s₀.pending = f.wire ++ (wireOf fs ++ rest) := by
      rw [hp, wireOf_cons, List.append_assoc]
    have hc : msg.hdr = f.ctrl := by rw [h.hdr, hp', ctrl_wire]
    have hH : ddpHdrSize f.ctrl = 14 := by rw [← hc, ddpHdrSize, if_pos ht]
    have hle : 14 ≤ f.len := (hsize f (by simp)).le
    rw [hp', segRaw_wire hle] at hmeta
    rw [ddpRecvPayload_of_loop hloop rfl]
    refine ⟨f, fs, ⟨⟨rest, hp⟩, rfl, ?_, ?_, ?_, ?_, rfl, fun _ => ⟨?_, rfl⟩, fun hu => ?_⟩⟩
    · rw [hH]; exact hmsg
    · rw [hH]; exact hsize
    · exact (finish_hdr _ _).trans hc
    · rw [hH]
      simp only [DdpMessage.finish, ht, if_true, zero_add]
      rfl
    · simp only [DdpMessage.finish, ht, if_true]
      exact hmeta
    · rw [← hc, ht] at hu
      cases hu
  | false =>
    obtain ⟨hat, hmeta⟩ := h.untagged ht
    rw [kind_of_untagged ht] at hret
    obtain ⟨f, fs, rest, hp, hmsg, hsize, heq⟩ :=
      segLoop_whole 0 _ 0 s₀ ctx.inb c 0 [] h.failFree hat hret
    have hloop := (congrArg (fun K => segLoop K (ctx.inb.pending.length + 1) ctx.inb c 0 [])
      (kind_of_untagged ht)).trans heq
    have hp' : s₀.pending = f.wire ++ (wireOf fs ++ rest) := by
      rw [hp, wireOf_cons, List.append_assoc]
    have hc : msg.hdr = f.ctrl := by rw [h.hdr, hp', ctrl_wire]
    have hH : ddpHdrSize f.ctrl = 18 := by rw [← hc, ddpHdrSize, if_neg (by rw [ht]; decide)]
    have hle : 18 ≤ f.len := (hsize f (by simp)).le
    have hbuf : ∀ len, (msg.finish len).buf = msg.buf := by
      intro len
      rw [DdpMessage.finish, if_neg (by rw [ht]; decide)]
    rw [hp', segRaw_wire hle] at hmeta
    rw [ddpRecvPayload_of_loop hloop rfl]
    refine ⟨f, fs, ⟨⟨rest, hp⟩, rfl, ?_, ?_, ?_, ?_, rfl, fun hu => ?_, fun _ => ⟨?_, ?_⟩⟩⟩
    · rw [hH]; exact hmsg
    · rw [hH]; exact hsize
    · exact (finish_hdr _ _).trans hc
    · rw [hH]
      simp only [DdpMessage.finish, ht, Bool.false_eq_true, if_false, zero_add]
      rfl
    · rw [← hc, ht] at hu
      cases hu
    · rw [finish_untaggedMetadata ht, hmeta]
    · rw [hbuf]
      rfl

end

end SoftUiWarp
