import SoftUiWarp.Ddp.Segments

/-!
# `ddp_recv` on a complete message

The header of the first segment is read in two calls and checked; then the
payload loop runs. A DDP message on the stream is a list of FPDUs; each ULPDU
starts with the segment's header and the last one has the L bit set. On such a
stream the payload of every segment is stored at the destination its own
header names.

Results:
* `ddpRecvHead_tagged_of_ready`, `ddpRecvHead_untagged_of_ready` and their
  converses: the first header, on any stream.
* `segLoop_message`: the payload loop on a complete message.
* `ddpRecv_tagged`, `ddpRecv_untagged`: the whole call.
-/

namespace SoftUiWarp

open TcpStream ByteMem

/-! ## The header fields -/

/-- `msg` after a tagged header `hdr` was read and converted (lines 206, 227–238). -/
def taggedHdrMsg (msg : DdpMessage) (hdr : List UInt8) : DdpMessage :=
  let u := msg.hdrUnion.patch (hdr.drop 1).zipIdx
  { msg with
    hdr := hdr.getD 0 0
    hdrUnion := (u.patch ((bytes32 (ntohl (taggedAt u 0).tag)).zipIdx 1)).patch
      ((bytes64 (ntohll (taggedAt u 0).TO)).zipIdx 5) }

/-- `msg` after an untagged header `hdr` was read and converted (lines 206, 296–308). -/
def untaggedHdrMsg (msg : DdpMessage) (hdr : List UInt8) : DdpMessage :=
  let u := msg.hdrUnion.patch (hdr.drop 1).zipIdx
  { msg with
    hdr := hdr.getD 0 0
    hdrUnion := ((u.patch ((bytes32 (ntohl (untaggedAt u 0).mo)).zipIdx 13)).patch
      ((bytes32 (ntohl (untaggedAt u 0).qn)).zipIdx 5)).patch
      ((bytes32 (ntohl (untaggedAt u 0).msn)).zipIdx 9) }

/-- The control byte is set with the header. -/
theorem untaggedHdrMsg_set_hdr (msg : DdpMessage) (x : UInt8) (hdr : List UInt8) :
    untaggedHdrMsg { msg with hdr := x } hdr = untaggedHdrMsg msg hdr := rfl

/-- The tagged header fields on the wire, in host order. -/
def wireTagged (hdr : List UInt8) : DdpTaggedMeta :=
  ⟨hdr.getD 1 0, ntohl (word32 ((hdr.drop 2).take 4)), ntohll (word64 ((hdr.drop 6).take 8))⟩

/-- The untagged header fields on the wire, in host order. `rsvdULP2` is not
    converted. -/
def wireUntagged (hdr : List UInt8) : DdpUntaggedMeta :=
  ⟨hdr.getD 1 0, word32 ((hdr.drop 2).take 4), ntohl (word32 ((hdr.drop 6).take 4)),
    ntohl (word32 ((hdr.drop 10).take 4)), ntohl (word32 ((hdr.drop 14).take 4))⟩

theorem Buf.bytes_patch_drop_one (b : Buf) (hdr : List UInt8) (k n : ℕ)
    (h : k + 1 + n ≤ hdr.length) :
    (b.patch (hdr.drop 1).zipIdx).bytes k n = (hdr.drop (k + 1)).take n := by
  have := Buf.bytes_patch b (hdr.drop 1) 0 k n (by simp; omega)
  rwa [Nat.zero_add, List.drop_drop, Nat.add_comm] at this

theorem Buf.patch_drop_one_zero {b : Buf} {hdr : List UInt8} (h : 1 < hdr.length) :
    b.patch (hdr.drop 1).zipIdx 0 = hdr.getD 1 0 := by
  rw [Buf.patch_apply, if_pos (by simp; omega)]
  simp [List.getD_eq_getElem?_getD]

theorem taggedHdrMsg_metadata (msg : DdpMessage) {hdr : List UInt8} (h : hdr.length = 14) :
    (taggedHdrMsg msg hdr).taggedMetadata = wireTagged hdr := by
  have h1 := Buf.bytes_patch_drop_one msg.hdrUnion hdr 1 4 (by omega)
  have h2 := Buf.bytes_patch_drop_one msg.hdrUnion hdr 5 8 (by omega)
  simp only [taggedHdrMsg, DdpMessage.taggedMetadata, taggedAt, Nat.zero_add, wireTagged, h1, h2,
    DdpTaggedMeta.mk.injEq]
  refine ⟨?_, ?_, ?_⟩
  · rw [Buf.patch_apply, if_neg (by omega), Buf.patch_apply, if_neg (by omega),
      Buf.patch_drop_one_zero (by omega)]
  · rw [Buf.bytes_patch_of_disjoint (by omega), Buf.bytes_patch_self (by simp), word32_bytes32]
  · rw [Buf.bytes_patch_self (by simp), word64_bytes64]

theorem untaggedHdrMsg_metadata (msg : DdpMessage) {hdr : List UInt8} (h : hdr.length = 18) :
    (untaggedHdrMsg msg hdr).untaggedMetadata = wireUntagged hdr := by
  have h1 := Buf.bytes_patch_drop_one msg.hdrUnion hdr 1 4 (by omega)
  have h2 := Buf.bytes_patch_drop_one msg.hdrUnion hdr 5 4 (by omega)
  have h3 := Buf.bytes_patch_drop_one msg.hdrUnion hdr 9 4 (by omega)
  have h4 := Buf.bytes_patch_drop_one msg.hdrUnion hdr 13 4 (by omega)
  simp only [untaggedHdrMsg, DdpMessage.untaggedMetadata, untaggedAt, Nat.zero_add, wireUntagged,
    h2, h3, h4, DdpUntaggedMeta.mk.injEq]
  refine ⟨?_, ?_, ?_, ?_, ?_⟩
  · rw [Buf.patch_apply, if_neg (by omega), Buf.patch_apply, if_neg (by omega), Buf.patch_apply,
      if_neg (by omega), Buf.patch_drop_one_zero (by omega)]
  · rw [Buf.bytes_patch_of_disjoint (by simp), Buf.bytes_patch_of_disjoint (by simp),
      Buf.bytes_patch_of_disjoint (by simp), h1]
  · rw [Buf.bytes_patch_of_disjoint (by simp), Buf.bytes_patch_self (by simp), word32_bytes32]
  · rw [Buf.bytes_patch_self (by simp), word32_bytes32]
  · rw [Buf.bytes_patch_of_disjoint (by simp), Buf.bytes_patch_of_disjoint (by simp),
      Buf.bytes_patch_self (by simp), word32_bytes32]

section

variable {ctx : DdpCtx} (msg : DdpMessage) (info : MpaPacket) {o : MpaOut} {r : ℤ}
  {hdr : List UInt8}

/-- The tagged header has been read in full. -/
theorem ddpRecvTaggedHdr_of_recv (hlen : 14 ≤ info.ulpduLen.toNat)
    (ho : mpaRecv ctx.inb info ddpTaggedHdrSize = o) (hret : o.ret = .val r) (hr : 0 ≤ r)
    (hw : o.writes = (hdr.drop 1).zipIdx) (hl : hdr.length = 14) (hc : msg.hdr = hdr.getD 0 0) :
    ddpRecvTaggedHdr ctx msg info =
      match ddpCheckStag ctx.taggedBuffers (wireTagged hdr) with
      | none => ⟨.inl (.val (-1)), { ctx with inb := o.inb }, taggedHdrMsg msg hdr⟩
      | some b => ⟨.inr ⟨o.info, info.ulpduLen.toNat - 14,
            packedInit (hdr.getD 0 0) (bytes64 (wireTagged hdr).TO) 6, hdr⟩,
          { ctx with inb := o.inb }, { taggedHdrMsg msg hdr with buf := .tag b }⟩ := by
  have hraw : msg.hdr :: (hdr.drop 1).zipIdx.map Prod.fst = hdr := by
    rw [List.zipIdx_map_fst, hc]
    cases hdr with
    | nil => simp at hl
    | cons b bs => rfl
  have hmsg : { msg with
      hdrUnion := ((msg.hdrUnion.patch (hdr.drop 1).zipIdx).patch
        ((bytes32 (ntohl (taggedAt (msg.hdrUnion.patch (hdr.drop 1).zipIdx) 0).tag)).zipIdx
          1)).patch
        ((bytes64 (ntohll (taggedAt (msg.hdrUnion.patch (hdr.drop 1).zipIdx) 0).TO)).zipIdx 5) } =
      taggedHdrMsg msg hdr := by
    rw [taggedHdrMsg, ← hc]
  rw [ddpRecvTaggedHdr, if_neg (by simp only [ddpCtrlSize, ddpTaggedHdrSize]; omega), ho]
  simp only [hret, hw, hraw, DdpMessage.taggedMetadata]
  rw [if_neg (by omega), hmsg]
  change (match ddpCheckStag ctx.taggedBuffers (taggedHdrMsg msg hdr).taggedMetadata with
    | none => _
    | some b => ⟨.inr ⟨_, _, packedInit _ (bytes64 (taggedHdrMsg msg hdr).taggedMetadata.TO) 6, _⟩,
        _, _⟩ : HeadOut) = _
  rw [taggedHdrMsg_metadata msg hl]
  cases ddpCheckStag ctx.taggedBuffers (wireTagged hdr) with
  | none => rfl
  | some b => simp only [taggedHdrMsg, ← hc]; rfl

theorem tryDequeueBuf_hdr (ctx : DdpCtx) (qn : Fin 3) (msg : DdpMessage) :
    (tryDequeueBuf ctx qn msg).2.hdr = msg.hdr := by
  rw [tryDequeueBuf]
  split <;> rfl

theorem tryDequeueBuf_nil {ctx : DdpCtx} {qn : Fin 3} (msg : DdpMessage)
    (h : (ctx.queues qn).q = []) : tryDequeueBuf ctx qn msg = (ctx, msg) := by
  rw [tryDequeueBuf, h]

theorem tryDequeueBuf_cons {ctx : DdpCtx} {qn : Fin 3} {b : UntaggedBuffer}
    {bs : List UntaggedBuffer} (msg : DdpMessage) (h : (ctx.queues qn).q = b :: bs) :
    tryDequeueBuf ctx qn msg =
      ({ ctx with queues := Function.update ctx.queues qn { ctx.queues qn with q := bs } },
        { msg with buf := .untag b }) := by
  rw [tryDequeueBuf, h]

theorem tryDequeueBuf_hdrUnion (ctx : DdpCtx) (qn : Fin 3) (msg : DdpMessage) :
    (tryDequeueBuf ctx qn msg).2.hdrUnion = msg.hdrUnion := by
  rw [tryDequeueBuf]
  split <;> rfl

/-- The untagged header has been read in full. -/
theorem ddpRecvUntaggedHdr_of_recv (hlen : 18 ≤ info.ulpduLen.toNat)
    (ho : mpaRecv ctx.inb info ddpUntaggedHdrSize = o) (hret : o.ret = .val r) (hr : 0 ≤ r)
    (hw : o.writes = (hdr.drop 1).zipIdx) (hl : hdr.length = 18) (hc : msg.hdr = hdr.getD 0 0) :
    ddpRecvUntaggedHdr ctx msg info =
      match ddpCheckUntaggedHdr ctx.queues (wireUntagged hdr) with
      | none => ⟨.inl (.val (-1)), { ctx with inb := o.inb }, untaggedHdrMsg msg hdr⟩
      | some qn => ⟨.inr ⟨o.info, info.ulpduLen.toNat - 18,
            packedInit (hdr.getD 0 0) (bytes32 (wireUntagged hdr).mo) 14, hdr⟩,
          (tryDequeueBuf { ctx with inb := o.inb } qn (untaggedHdrMsg msg hdr)).1,
          (tryDequeueBuf { ctx with inb := o.inb } qn (untaggedHdrMsg msg hdr)).2⟩ := by
  have hraw : msg.hdr :: (hdr.drop 1).zipIdx.map Prod.fst = hdr := by
    rw [List.zipIdx_map_fst, hc]
    cases hdr with
    | nil => simp at hl
    | cons b bs => rfl
  have hmsg : { msg with
      hdrUnion := (((msg.hdrUnion.patch (hdr.drop 1).zipIdx).patch
        ((bytes32 (ntohl (untaggedAt (msg.hdrUnion.patch (hdr.drop 1).zipIdx) 0).mo)).zipIdx
          13)).patch
        ((bytes32 (ntohl (untaggedAt (msg.hdrUnion.patch (hdr.drop 1).zipIdx) 0).qn)).zipIdx
          5)).patch
        ((bytes32 (ntohl (untaggedAt (msg.hdrUnion.patch (hdr.drop 1).zipIdx) 0).msn)).zipIdx
          9) } = untaggedHdrMsg msg hdr := by
    rw [untaggedHdrMsg, ← hc]
  rw [ddpRecvUntaggedHdr, if_neg (by simp only [ddpCtrlSize, ddpUntaggedHdrSize]; omega), ho]
  simp only [hret, hw, DdpMessage.untaggedMetadata]
  rw [if_neg (by omega), hmsg]
  change (match ddpCheckUntaggedHdr ctx.queues (untaggedHdrMsg msg hdr).untaggedMetadata with
    | none => _
    | some qn => ⟨.inr ⟨_, _, packedInit _
        (bytes32 (tryDequeueBuf { ctx with inb := o.inb } qn
          (untaggedHdrMsg msg hdr)).2.untaggedMetadata.mo) 14, _⟩, _, _⟩ : HeadOut) = _
  rw [untaggedHdrMsg_metadata msg hl]
  cases hq : ddpCheckUntaggedHdr ctx.queues (wireUntagged hdr) with
  | none => rfl
  | some qn =>
    have h1 := tryDequeueBuf_hdr { ctx with inb := o.inb } qn (untaggedHdrMsg msg hdr)
    have h2 := tryDequeueBuf_hdrUnion { ctx with inb := o.inb } qn (untaggedHdrMsg msg hdr)
    have h3 : (untaggedHdrMsg msg hdr).hdr = msg.hdr := hc.symm
    simp only [DdpMessage.untaggedMetadata, h1, h2, h3, hraw]
    change (⟨.inr ⟨_, _, packedInit _
      (bytes32 (untaggedHdrMsg msg hdr).untaggedMetadata.mo) 14, _⟩, _, _⟩ : HeadOut) = _
    rw [untaggedHdrMsg_metadata msg hl, hc]
    rfl

end

/-! ## The first header -/

/-- What the two header calls need to succeed, with headers of `H` bytes. -/
structure FirstReady (s : Inbound) (H : ℕ) : Prop where
  ctrl : HdrReady s 1
  size : H ≤ segLen s.pending
  rest : BodyReady (s.advance 3) (segLen s.pending) 1 (H - 1)

section

variable {s : Inbound} {H : ℕ}

theorem bodyEnd_one (hH : 2 ≤ H) (hL : H ≤ segLen s.pending) :
    3 + bodyEnd (segLen s.pending) 1 (H - 1) = hdrEnd H s.pending := by
  rw [hdrEnd, bodyEnd, bodyEnd, show 1 + (H - 1) = 0 + H by omega]
  split_ifs <;> omega

theorem firstReady_avail (hH : 2 ≤ H) (h : FirstReady s H) :
    hdrEnd H s.pending ≤ s.pending.length := by
  have h1 := h.rest.avail
  have h2 := h.ctrl.body.avail
  have h3 := h.size
  have h4 := h.ctrl.avail
  rw [bodyEnd, if_pos (by omega), advance_pending, List.length_drop] at h2
  rw [advance_pending, List.length_drop] at h1
  rw [← bodyEnd_one hH h.size]
  omega

theorem length_segRaw (hL : H ≤ segLen s.pending) (hav : hdrEnd H s.pending ≤ s.pending.length) :
    (segRaw H s.pending).length = H := by
  have hle : 2 + H ≤ hdrEnd H s.pending := by
    rw [hdrEnd, bodyEnd]
    split_ifs <;> omega
  rw [segRaw, List.length_take, List.length_drop]
  omega

theorem getD_segRaw (hH : 0 < H) (hL : 0 < segLen s.pending) :
    (segRaw H s.pending).getD 0 0 = s.pending.getD 2 0 := by
  rw [segRaw, List.getD_eq_getElem?_getD, List.getD_eq_getElem?_getD, List.getElem?_take,
    if_pos (by omega), List.getElem?_drop]

theorem drop_segRaw (hH : 2 ≤ H) (hL : H ≤ segLen s.pending) :
    (segRaw H s.pending).drop 1 =
      (s.advance 3).pending.take (min (H - 1) (segLen s.pending - 1)) := by
  rw [segRaw, advance_pending, List.drop_take, List.drop_drop, Nat.min_eq_left hL,
    Nat.min_eq_left (by omega)]

/-- The call for the control byte. -/
theorem mpaRecv_ctrl (hf : s.FailFree) (h : HdrReady s 1) :
    mpaRecv s {} ddpCtrlSize =
      ⟨.val (hdrEnd 1 s.pending), ⟨segField s.pending, hdrEnd 1 s.pending⟩,
        s.advance (hdrEnd 1 s.pending), ((s.pending.drop 2).take 1).zipIdx⟩ := by
  have hcall : mpaRecv s {} ddpCtrlSize = bodyOut (s.advance 2) (segField s.pending) 0 1 :=
    mpaRecv_of_ready hf rfl (by decide) h
  have hpos := h.pos
  rw [segLen] at hpos
  have hmin : min 1 ((segField s.pending).toNat - 0) = 1 := by omega
  have hend : hdrEnd 1 s.pending = 2 + bodyEnd (segField s.pending).toNat 0 1 := rfl
  rw [bodyOut, hmin, advance_advance, ← hend] at hcall
  rw [hcall]
  simp only [MpaOut.mk.injEq, Ret.val.injEq, MpaPacket.mk.injEq, true_and]
  exact ⟨by omega, by omega, rfl⟩

theorem hdrEnd_one (hL : 1 < segLen s.pending) : hdrEnd 1 s.pending = 3 := by
  rw [hdrEnd, bodyEnd, if_pos (by omega)]

/-- The call for the rest of the header. -/
theorem mpaRecv_hdr_rest (hf : s.FailFree) (hH : 2 ≤ H) (hmax : H ≤ maxRwCount)
    (h : FirstReady s H) :
    mpaRecv (s.advance 3) ⟨segField s.pending, 3⟩ (H - 1 : ℕ) =
      ⟨.val (hdrEnd H s.pending), ⟨segField s.pending, hdrEnd H s.pending⟩,
        s.advance (hdrEnd H s.pending), ((segRaw H s.pending).drop 1).zipIdx⟩ := by
  have hL := h.size
  have hbody := mpaRecvBody_of_ready (k := 1) (n := H - 1) (hf.advance 3) h.ctrl.pos
    (by exact le_trans (by omega) hL) (by omega) h.rest
  have hend : 3 + bodyEnd (segField s.pending).toNat 1 (H - 1) = hdrEnd H s.pending :=
    bodyEnd_one hH hL
  rw [mpaRecv, if_neg (by simp only [mpaHdrSize]; omega)]
  refine hbody.trans ?_
  rw [bodyOut, drop_segRaw hH hL, advance_advance, ← hend]
  simp only [MpaOut.mk.injEq, Ret.val.injEq, MpaPacket.mk.injEq, true_and]
  exact ⟨by omega, by omega, rfl⟩

/-- What the first header leaves the payload loop with. -/
theorem atHead_first {K : SegKind} {α : Type} (S : FieldSpec K α) (v : α) {packed : Buf}
    (hs : FirstReady s K.hdrSize) (hH : 2 ≤ K.hdrSize) (hc : packed 0 = s.pending.getD 2 0)
    (hv : S.val packed = S.next v (segRaw K.hdrSize s.pending)) :
    AtHead S v s (s.advance (hdrEnd K.hdrSize s.pending))
      ⟨⟨segField s.pending, hdrEnd K.hdrSize s.pending⟩, segLen s.pending - K.hdrSize, packed,
        segRaw K.hdrSize s.pending⟩ :=
  ⟨hs.ctrl.pos, firstReady_avail hH hs, rfl, rfl, rfl, rfl, hc, hv⟩

/-- The offset a full tagged header carries. -/
theorem nextTO_full (v : UInt64) {hdr : List UInt8} (h : hdr.length = 14) :
    nextTO v hdr = (wireTagged hdr).TO := by
  have h8 : (hdr.drop 6).length = 8 := by simp [h]
  have hd : (bytes64 v).drop (hdr.length - 6) = [] := List.drop_eq_nil_of_le (by simp [h])
  rw [nextTO, hd, List.append_nil]
  simp only [wireTagged]
  rw [List.take_of_length_le h8.le]

/-- The offset a full untagged header carries. -/
theorem nextMO_full (v : UInt32) {hdr : List UInt8} (h : hdr.length = 18) :
    nextMO v hdr = (wireUntagged hdr).mo := by
  have h4 : (hdr.drop 14).length = 4 := by simp [h]
  have hd : (bytes32 v).drop (hdr.length - 14) = [] := List.drop_eq_nil_of_le (by simp [h])
  rw [nextMO, hd, List.append_nil]
  simp only [wireUntagged]
  rw [List.take_of_length_le h4.le]

theorem packedInit_ctrl (bits : UInt8) (field : List UInt8) {o : ℕ} (ho : 0 < o) :
    packedInit bits field o 0 = bits := by
  rw [packedInit, Buf.patch_apply, if_neg (by omega)]
  simp [Buf.patch]

end

/-- The loop variables after the first header, given the offset field. -/
def firstCtx (s : Inbound) (H : ℕ) (field : List UInt8) (o : ℕ) : SegCtx :=
  ⟨⟨segField s.pending, hdrEnd H s.pending⟩, segLen s.pending - H,
    packedInit (s.pending.getD 2 0) field o, segRaw H s.pending⟩

section

variable {ctx : DdpCtx} (msg : DdpMessage)

/-- The control byte has been read; its T bit says what follows. -/
theorem ddpRecvHead_ctrl (hf : ctx.inb.FailFree) (h : HdrReady ctx.inb 1) :
    ddpRecvHead ctx msg =
      if ddpIsTagged (ctx.inb.pending.getD 2 0) then
        ddpRecvTaggedHdr { ctx with inb := ctx.inb.advance (hdrEnd 1 ctx.inb.pending) }
          { msg with hdr := ctx.inb.pending.getD 2 0 }
          ⟨segField ctx.inb.pending, hdrEnd 1 ctx.inb.pending⟩
      else ddpRecvUntaggedHdr { ctx with inb := ctx.inb.advance (hdrEnd 1 ctx.inb.pending) }
          { msg with hdr := ctx.inb.pending.getD 2 0 }
          ⟨segField ctx.inb.pending, hdrEnd 1 ctx.inb.pending⟩ := by
  have hcall := mpaRecv_ctrl hf h
  have hpos := h.pos
  have hlen : 3 ≤ ctx.inb.pending.length := by
    have h1 := h.body.avail
    have h2 := h.avail
    rw [bodyEnd, advance_pending, List.length_drop] at h1
    split_ifs at h1 <;> omega
  have hctrl : Buf.patch (fun _ => msg.hdr) ((ctx.inb.pending.drop 2).take 1).zipIdx 0 =
      ctx.inb.pending.getD 2 0 := by
    rw [Buf.patch_apply, if_pos (by simp; omega)]
    simp [List.getD_eq_getElem?_getD, List.getElem?_drop]
  have hend : ¬(hdrEnd 1 ctx.inb.pending : ℤ) < ddpCtrlSize := by
    rw [hdrEnd, ddpCtrlSize]
    omega
  simp only [ddpRecvHead, hcall, hctrl, if_neg hend]

/-- The first header of a tagged message, complete and not cut. -/
theorem ddpRecvHead_tagged_of_ready (hf : ctx.inb.FailFree)
    (ht : ddpIsTagged (ctx.inb.pending.getD 2 0) = true) (h : FirstReady ctx.inb 14) :
    ddpRecvHead ctx msg =
      match ddpCheckStag ctx.taggedBuffers (wireTagged (segRaw 14 ctx.inb.pending)) with
      | none => ⟨.inl (.val (-1)),
          { ctx with inb := ctx.inb.advance (hdrEnd 14 ctx.inb.pending) },
          taggedHdrMsg msg (segRaw 14 ctx.inb.pending)⟩
      | some b => ⟨.inr (firstCtx ctx.inb 14
            (bytes64 (wireTagged (segRaw 14 ctx.inb.pending)).TO) 6),
          { ctx with inb := ctx.inb.advance (hdrEnd 14 ctx.inb.pending) },
          { taggedHdrMsg msg (segRaw 14 ctx.inb.pending) with buf := .tag b }⟩ := by
  have hL := h.size
  have hl := length_segRaw hL (firstReady_avail (by decide) h)
  have hc := getD_segRaw (H := 14) (by decide) h.ctrl.pos
  have hrest := mpaRecv_hdr_rest hf (by decide) (by decide) h
  rw [ddpRecvHead_ctrl msg hf h.ctrl, hdrEnd_one (by omega), Nat.cast_ofNat,
    if_pos ht,
    ddpRecvTaggedHdr_of_recv { msg with hdr := ctx.inb.pending.getD 2 0 }
      ⟨segField ctx.inb.pending, 3⟩ hL hrest rfl (by omega) rfl hl hc.symm, hc]
  rfl

/-- The first header of an untagged message, complete and not cut. -/
theorem ddpRecvHead_untagged_of_ready (hf : ctx.inb.FailFree)
    (ht : ddpIsTagged (ctx.inb.pending.getD 2 0) = false) (h : FirstReady ctx.inb 18) :
    ddpRecvHead ctx msg =
      match ddpCheckUntaggedHdr ctx.queues (wireUntagged (segRaw 18 ctx.inb.pending)) with
      | none => ⟨.inl (.val (-1)),
          { ctx with inb := ctx.inb.advance (hdrEnd 18 ctx.inb.pending) },
          untaggedHdrMsg msg (segRaw 18 ctx.inb.pending)⟩
      | some qn =>
        let d := tryDequeueBuf { ctx with inb := ctx.inb.advance (hdrEnd 18 ctx.inb.pending) } qn
          (untaggedHdrMsg msg (segRaw 18 ctx.inb.pending))
        ⟨.inr (firstCtx ctx.inb 18 (bytes32 (wireUntagged (segRaw 18 ctx.inb.pending)).mo) 14),
          d.1, d.2⟩ := by
  have hL := h.size
  have hl := length_segRaw hL (firstReady_avail (by decide) h)
  have hc := getD_segRaw (H := 18) (by decide) h.ctrl.pos
  have hrest := mpaRecv_hdr_rest hf (by decide) (by decide) h
  rw [ddpRecvHead_ctrl msg hf h.ctrl, hdrEnd_one (by omega), Nat.cast_ofNat,
    if_neg (by rw [ht]; decide),
    ddpRecvUntaggedHdr_of_recv { msg with hdr := ctx.inb.pending.getD 2 0 }
      ⟨segField ctx.inb.pending, 3⟩ hL hrest rfl (by omega) rfl hl hc.symm, hc,
    untaggedHdrMsg_set_hdr]
  cases ddpCheckUntaggedHdr ctx.queues (wireUntagged (segRaw 18 ctx.inb.pending)) with
  | none => rfl
  | some qn => rfl

/-! ### A first header that is cut, missing or too short -/

theorem ddpRecvTaggedHdr_fail (ctx : DdpCtx) (msg : DdpMessage) (info : MpaPacket)
    (h : info.ulpduLen.toNat < 14 ∨
      ¬(mpaRecv ctx.inb info ddpTaggedHdrSize).ret.Ok) :
    ∃ r : Ret, ¬r.Ok ∧ (ddpRecvTaggedHdr ctx msg info).next = .inl r ∧
      (14 ≤ info.ulpduLen.toNat → (ddpRecvTaggedHdr ctx msg info).ctx =
        { ctx with inb := (mpaRecv ctx.inb info ddpTaggedHdrSize).inb }) := by
  rw [ddpRecvTaggedHdr]
  by_cases hlen : info.ulpduLen.toNat < 14
  · rw [if_pos (by simp only [ddpCtrlSize, ddpTaggedHdrSize]; omega)]
    exact ⟨_, not_ok_neg_one, rfl, fun _ => by omega⟩
  · rw [if_neg (by simp only [ddpCtrlSize, ddpTaggedHdrSize]; omega)]
    rcases not_ok_cases (h.resolve_left hlen) with ⟨r, hneg, hr⟩ | hr | hr
    · simp only [hr, if_pos hneg]
      refine ⟨_, ?_, rfl, fun _ => trivial⟩
      rintro ⟨r', hr', he⟩
      cases he
      omega
    · simp only [hr]
      exact ⟨_, not_ok_blocked, rfl, fun _ => trivial⟩
    · simp only [hr]
      exact ⟨_, not_ok_spin, rfl, fun _ => trivial⟩

theorem ddpRecvUntaggedHdr_fail (ctx : DdpCtx) (msg : DdpMessage) (info : MpaPacket)
    (h : info.ulpduLen.toNat < 18 ∨
      ¬(mpaRecv ctx.inb info ddpUntaggedHdrSize).ret.Ok) :
    ∃ r : Ret, ¬r.Ok ∧ (ddpRecvUntaggedHdr ctx msg info).next = .inl r ∧
      (18 ≤ info.ulpduLen.toNat → (ddpRecvUntaggedHdr ctx msg info).ctx =
        { ctx with inb := (mpaRecv ctx.inb info ddpUntaggedHdrSize).inb }) := by
  rw [ddpRecvUntaggedHdr]
  by_cases hlen : info.ulpduLen.toNat < 18
  · rw [if_pos (by simp only [ddpCtrlSize, ddpUntaggedHdrSize]; omega)]
    exact ⟨_, not_ok_neg_one, rfl, fun _ => by omega⟩
  · rw [if_neg (by simp only [ddpCtrlSize, ddpUntaggedHdrSize]; omega)]
    rcases not_ok_cases (h.resolve_left hlen) with ⟨r, hneg, hr⟩ | hr | hr
    · simp only [hr, if_pos hneg]
      refine ⟨_, ?_, rfl, fun _ => trivial⟩
      rintro ⟨r', hr', he⟩
      cases he
      omega
    · simp only [hr]
      exact ⟨_, not_ok_blocked, rfl, fun _ => trivial⟩
    · simp only [hr]
      exact ⟨_, not_ok_spin, rfl, fun _ => trivial⟩

/-- The header size the control byte selects. -/
def ddpHdrSize (c : UInt8) : ℕ := if ddpIsTagged c then 14 else 18

theorem two_le_ddpHdrSize (c : UInt8) : 2 ≤ ddpHdrSize c := by
  rw [ddpHdrSize]
  split_ifs <;> decide

/-- The call for the rest of the header fails inside the header. -/
theorem mpaRecv_hdr_rest_fail {s : Inbound} {H : ℕ} (hf : s.FailFree) (hH : 2 ≤ H)
    (hmax : H ≤ maxRwCount) (hc : HdrReady s 1) (hL : H ≤ segLen s.pending)
    (h : ¬FirstReady s H) :
    ¬(mpaRecv (s.advance 3) ⟨segField s.pending, 3⟩ (H - 1 : ℕ)).ret.Ok ∧
      ∃ j < hdrEnd H s.pending,
        (mpaRecv (s.advance 3) ⟨segField s.pending, 3⟩ (H - 1 : ℕ)).inb = s.advance j := by
  have hbody := mpaRecvBody_of_not_ready (k := 1) (n := H - 1) (hf.advance 3) hc.pos
    (by exact le_trans (by omega) hL) (by omega) (fun hb => h ⟨hc, hL, hb⟩)
  have hcall : mpaRecv (s.advance 3) ⟨segField s.pending, 3⟩ (H - 1 : ℕ) =
      mpaRecvBody (s.advance 3) ⟨segField s.pending, 2 + (1 : ℕ)⟩ (H - 1 : ℕ) := by
    rw [mpaRecv, if_neg (by simp only [mpaHdrSize]; omega)]
    rfl
  rw [hcall]
  obtain ⟨h1, -, j, hj, h2⟩ := hbody
  have hend : 3 + bodyEnd (segField s.pending).toNat 1 (H - 1) = hdrEnd H s.pending :=
    bodyEnd_one hH hL
  exact ⟨h1, 3 + j, by omega, by rw [h2, advance_advance]⟩

/-- After the control byte, a rest of the header that is not read ends the call
    inside the header; `F` is one of the two functions that read it. -/
theorem head_of_rest_fail {F : DdpCtx → DdpMessage → MpaPacket → HeadOut} {H : ℕ} (hH : 2 ≤ H)
    (hmax : H ≤ maxRwCount)
    (hfail : ∀ (ctx : DdpCtx) (msg : DdpMessage) (info : MpaPacket),
      info.ulpduLen.toNat < H ∨ ¬(mpaRecv ctx.inb info (H - 1 : ℕ)).ret.Ok →
      ∃ r : Ret, ¬r.Ok ∧ (F ctx msg info).next = .inl r ∧ (H ≤ info.ulpduLen.toNat →
        (F ctx msg info).ctx = { ctx with inb := (mpaRecv ctx.inb info (H - 1 : ℕ)).inb }))
    (hf : ctx.inb.FailFree) (hc : HdrReady ctx.inb 1) (h : ¬FirstReady ctx.inb H) :
    let o := F { ctx with inb := ctx.inb.advance (hdrEnd 1 ctx.inb.pending) } msg
      ⟨segField ctx.inb.pending, hdrEnd 1 ctx.inb.pending⟩
    ∃ r : Ret, ¬r.Ok ∧ o.next = .inl r ∧ (H ≤ segLen ctx.inb.pending →
      ∃ j < hdrEnd H ctx.inb.pending, o.ctx = { ctx with inb := ctx.inb.advance j }) := by
  intro o
  by_cases hL : H ≤ segLen ctx.inb.pending
  · obtain ⟨hok, j, hj, hinb⟩ := mpaRecv_hdr_rest_fail hf hH hmax hc hL h
    obtain ⟨r, hr, hn, hctx⟩ := hfail { ctx with inb := ctx.inb.advance 3 } msg
      ⟨segField ctx.inb.pending, 3⟩ (.inr hok)
    have ho : o = F { ctx with inb := ctx.inb.advance 3 } msg ⟨segField ctx.inb.pending, 3⟩ := by
      simp only [o, hdrEnd_one (show 2 ≤ segLen ctx.inb.pending by omega)]
      rfl
    rw [ho]
    refine ⟨r, hr, hn, fun _ => ⟨j, hj, (hctx hL).trans ?_⟩⟩
    exact congrArg (fun i => { ctx with inb := i }) hinb
  · obtain ⟨r, hr, hn, -⟩ := hfail
      { ctx with inb := ctx.inb.advance (hdrEnd 1 ctx.inb.pending) } msg
      ⟨segField ctx.inb.pending, hdrEnd 1 ctx.inb.pending⟩ (.inl (not_le.mp hL))
    exact ⟨r, hr, hn, fun hL' => absurd hL' hL⟩

/-- A control byte that is not read ends the call. -/
theorem ddpRecvHead_of_no_ctrl (hf : ctx.inb.FailFree) (hc : ¬HdrReady ctx.inb 1) :
    ∃ r : Ret, ¬r.Ok ∧ (ddpRecvHead ctx msg).next = .inl r ∧
      ∃ j < 2 + bodyEnd (segLen ctx.inb.pending) 0 1,
        (ddpRecvHead ctx msg).ctx = { ctx with inb := ctx.inb.advance j } := by
  obtain ⟨hok, j, hj, hinb⟩ : ¬(mpaRecv ctx.inb {} ddpCtrlSize).ret.Ok ∧
      ∃ j < 2 + bodyEnd (segLen ctx.inb.pending) 0 1,
        (mpaRecv ctx.inb {} ddpCtrlSize).inb = ctx.inb.advance j :=
    mpaRecv_of_not_ready hf rfl (by decide) hc
  have hctx : { ctx with inb := (mpaRecv ctx.inb {} ddpCtrlSize).inb } =
      { ctx with inb := ctx.inb.advance j } := by rw [hinb]
  rcases not_ok_cases hok with ⟨r, hneg, hr⟩ | hr | hr
  · have hlt : r < (ddpCtrlSize : ℤ) := by
      simp [ddpCtrlSize]
      omega
    refine ⟨.val r, ?_, ?_, j, hj, ?_⟩
    · rintro ⟨r', hr', he⟩
      have := Ret.val.inj he
      omega
    · simp only [ddpRecvHead, hr, if_pos hlt]
    · rw [← hctx]
      simp only [ddpRecvHead, hr, if_pos hlt]
  · refine ⟨_, not_ok_blocked, ?_, j, hj, ?_⟩
    · simp only [ddpRecvHead, hr]
    · rw [← hctx]
      simp only [ddpRecvHead, hr]
  · refine ⟨_, not_ok_spin, ?_, j, hj, ?_⟩
    · simp only [ddpRecvHead, hr]
    · rw [← hctx]
      simp only [ddpRecvHead, hr]

/-- A first header that is not read ends the call; if the ULPDU is long enough
    for it, inside the header. -/
theorem ddpRecvHead_of_not_ready (hf : ctx.inb.FailFree)
    (h : ¬FirstReady ctx.inb (ddpHdrSize (ctx.inb.pending.getD 2 0))) :
    ∃ r : Ret, ¬r.Ok ∧ (ddpRecvHead ctx msg).next = .inl r ∧
      (ddpHdrSize (ctx.inb.pending.getD 2 0) ≤ segLen ctx.inb.pending →
        ∃ j < hdrEnd (ddpHdrSize (ctx.inb.pending.getD 2 0)) ctx.inb.pending,
          (ddpRecvHead ctx msg).ctx = { ctx with inb := ctx.inb.advance j }) := by
  by_cases hc : HdrReady ctx.inb 1
  · rw [ddpRecvHead_ctrl msg hf hc]
    cases ht : ddpIsTagged (ctx.inb.pending.getD 2 0) with
    | true =>
      simp only [ddpHdrSize, ht, if_true] at h ⊢
      exact head_of_rest_fail _ (by decide) (by decide) ddpRecvTaggedHdr_fail hf hc h
    | false =>
      simp only [ddpHdrSize, ht, Bool.false_eq_true, if_false] at h ⊢
      exact head_of_rest_fail _ (by decide) (by decide) ddpRecvUntaggedHdr_fail hf hc h
  · obtain ⟨r, hr, hn, j, hj, hctx⟩ := ddpRecvHead_of_no_ctrl msg hf hc
    refine ⟨r, hr, hn, fun hL => ⟨j, ?_, hctx⟩⟩
    have hend := two_le_ddpHdrSize (ctx.inb.pending.getD 2 0)
    rw [bodyEnd, if_pos (by omega)] at hj
    rw [hdrEnd, bodyEnd]
    split_ifs <;> omega

end

/-! ## Complete messages -/

/-- The segments of one message with headers of `H` bytes: each ULPDU holds its
    header, and the L bit is on the last segment alone. -/
def IsMessage (H : ℕ) : List Fpdu → Prop
  | [] => False
  | [f] => H ≤ f.len ∧ f.last = true
  | f :: g :: fs => H ≤ f.len ∧ f.last = false ∧ IsMessage H (g :: fs)

section

variable {H : ℕ} {f : Fpdu} {fs : List Fpdu}

theorem IsMessage.ne_nil (h : IsMessage H fs) : fs ≠ [] := by
  rintro rfl
  exact h

/-- The first segment holds its header. -/
theorem IsMessage.le (h : IsMessage H (f :: fs)) : H ≤ f.len := by
  cases fs with
  | nil => exact h.1
  | cons g fs => exact h.1

/-- The L bit tells whether a packet is the last one. -/
theorem IsMessage.last_iff (h : IsMessage H (f :: fs)) : f.last = true ↔ fs = [] := by
  cases fs with
  | nil => exact iff_of_true h.2 rfl
  | cons g fs => exact iff_of_false (by rw [h.2.1]; decide) (by simp)

theorem IsMessage.tail (h : IsMessage H (f :: fs)) (hne : fs ≠ []) : IsMessage H fs := by
  cases fs with
  | nil => exact absurd rfl hne
  | cons g fs => exact h.2.2

end

/-- The payload of a message. -/
def payloadOf (H : ℕ) (fs : List Fpdu) : List UInt8 := fs.flatMap (Fpdu.payload H)

@[simp] theorem payloadOf_nil (H : ℕ) : payloadOf H [] = [] := rfl

@[simp] theorem payloadOf_cons (H : ℕ) (f : Fpdu) (fs : List Fpdu) :
    payloadOf H (f :: fs) = f.payload H ++ payloadOf H fs := rfl

/-- Every packet from stream position `p` on finds its single-call reads ready. -/
def MsgReady (ready : ℕ → ℕ) : ℕ → List Fpdu → Prop
  | _, [] => True
  | p, f :: fs => (2 ≤ ready p ∧ TrailerReady ready p f.len) ∧
      MsgReady ready (p + f.wire.length) fs

theorem msgReady_of_le {ready : ℕ → ℕ} (h : ∀ p, 4 ≤ ready p) (p : ℕ) (fs : List Fpdu) :
    MsgReady ready p fs := by
  induction fs generalizing p with
  | nil => trivial
  | cons f fs ih => exact ⟨⟨le_trans (by omega) (h p), trailerReady_of_le h _ _⟩, ih _⟩

section

variable {K : SegKind} {α : Type} {S : FieldSpec K α} {s : Inbound} {f : Fpdu}
  {rest : List UInt8}

/-- The header call on a complete packet with payload needs only the MPA
    header to be ready. -/
theorem hdrReady_wire {n : ℕ} (hp : s.pending = f.wire ++ rest) (hn : n < f.len)
    (hr : 2 ≤ s.ready s.pos) : HdrReady s n := by
  have hw := f.length_wire
  have hL : segLen s.pending = f.len := by rw [hp, segLen_wire]
  refine ⟨by rw [hp, List.length_append]; omega, hr, by rw [hL]; exact f.len_pos, ?_, fun h => ?_⟩
  · rw [hL, bodyEnd, if_pos (by omega), advance_pending, List.length_drop, hp, List.length_append]
    omega
  · rw [hL] at h
    omega

theorem firstReady_wire {H : ℕ} (hp : s.pending = f.wire ++ rest) (hH : 2 ≤ H) (hlt : H < f.len)
    (hr : 2 ≤ s.ready s.pos) : FirstReady s H := by
  have hw := f.length_wire
  have hL : segLen s.pending = f.len := by rw [hp, segLen_wire]
  refine ⟨hdrReady_wire hp (by omega) hr, by omega, ?_, fun h => by omega⟩
  rw [hL, bodyEnd, if_pos (by omega), advance_pending, List.length_drop, hp, List.length_append]
  omega

/-- The payload loop on a complete message whose segments all have payload. -/
theorem segLoop_message (w : α) : ∀ (fs : List Fpdu) (f : Fpdu) (rest : List UInt8) (fuel : ℕ)
    (v : α) (s₀ s : Inbound) (c : SegCtx) (len : ℤ) (acc : List Placement), s₀.FailFree →
      IsMessage K.hdrSize (f :: fs) → (∀ g ∈ f :: fs, K.hdrSize < g.len) → fs.length < fuel →
      MsgReady s₀.ready s₀.pos (f :: fs) → s₀.pending = f.wire ++ (wireOf fs ++ rest) →
      AtHead S v s₀ s c →
      segLoop K fuel s c len acc =
        ⟨.val 0, len + (payloadOf K.hdrSize (f :: fs)).length,
          s₀.advance (wireOf (f :: fs)).length, acc ++ (f :: fs).map (S.placement w)⟩ := by
  intro fs
  induction fs with
  | nil =>
    intro f rest fuel v s₀ s c len acc hf hmsg hlt hfuel hr hp h
    obtain ⟨fuel, rfl⟩ : ∃ k, fuel = k + 1 := ⟨fuel - 1, by simp at hfuel; omega⟩
    have hH := hlt f (by simp)
    have hcall := h.payload_wire hf hp hH hr.1.2
    have hl : c.packed 0 &&& ddpFlagLast ≠ 0 := by
      have := (h.last_eq hp).symm.trans hmsg.2
      simpa using this
    have hlen : c.payloadLen = (f.payload K.hdrSize).length := by
      rw [h.payloadLen, hp, segLen_wire, Fpdu.length_payload, Nat.cast_sub hH.le]
    rw [segLoop_last K hcall.1 hl, hcall.2, h.roundPlacement_wire hf w hp hH, hlen]
    simp
  | cons g fs ih =>
    intro f rest fuel v s₀ s c len acc hf hmsg hlt hfuel hr hp h
    obtain ⟨fuel, rfl⟩ : ∃ k, fuel = k + 1 := ⟨fuel - 1, by simp at hfuel; omega⟩
    have hH := hlt f (by simp)
    have hgH := hlt g (by simp)
    obtain ⟨hok, hinb⟩ := h.payload_wire hf hp hH hr.1.2
    have hl : ¬c.packed 0 &&& ddpFlagLast ≠ 0 := by
      have := (h.last_eq hp).symm.trans hmsg.2.1
      simpa using this
    have hlen : c.payloadLen = (f.payload K.hdrSize).length := by
      rw [h.payloadLen, hp, segLen_wire, Fpdu.length_payload, Nat.cast_sub hH.le]
    -- the stream after the first segment
    have hpf : (payloadCall s c).inb.FailFree := by rw [hinb]; exact hf.advance _
    have hrest : (payloadCall s c).inb.pending = g.wire ++ (wireOf fs ++ rest) := by
      rw [hinb, advance_pending, hp, List.drop_left, wireOf_cons, List.append_assoc]
    have hrg : MsgReady (payloadCall s c).inb.ready (payloadCall s c).inb.pos (g :: fs) := by
      rw [hinb]
      exact hr.2
    have hok2 := headerCall_ok S hpf (hdrReady_wire hrest hgH hrg.1.1)
    rw [segLoop_next K hok hl hok2, ih g rest fuel (S.val c.packed) _ _ _ _ _ hpf hmsg.2.2
      (fun x hx => hlt x (by simp [hx])) (by simp at hfuel; omega) hrg hrest
      (atHead_of_headerCall S hpf hok2), hinb, h.roundPlacement_wire hf w hp hH, hlen,
      advance_advance]
    simp [add_assoc]

/-- The payload loop with the fuel `ddp_recv` gives it. -/
theorem segLoop_first (w v : α) {fs : List Fpdu} {c : SegCtx} {k : ℕ} (hf : s.FailFree)
    (hmsg : IsMessage K.hdrSize (f :: fs)) (hlen : ∀ g ∈ f :: fs, K.hdrSize < g.len)
    (hp : s.pending = wireOf (f :: fs) ++ rest) (hr : MsgReady s.ready s.pos (f :: fs))
    (h : AtHead S v s (s.advance k) c) :
    segLoop K ((s.advance k).pending.length + 1) (s.advance k) c 0 [] =
      ⟨.val 0, (payloadOf K.hdrSize (f :: fs)).length, s.advance (wireOf (f :: fs)).length,
        (f :: fs).map (S.placement w)⟩ := by
  rw [wireOf_cons, List.append_assoc] at hp
  have hH := hlen f (by simp)
  have hfuel : fs.length < (s.advance k).pending.length + 1 := by
    have hle := length_le_length_wireOf fs
    rw [h.length_pending, hp, hdrEnd_wire hH, List.length_append, List.length_append, f.length_wire]
    omega
  rw [segLoop_message w fs f rest _ v s _ c 0 [] hf hmsg hlen hfuel hr hp h, zero_add,
    List.nil_append]

end

/-! ## The whole call -/

section

variable {ctx : DdpCtx} (mem : Mem) (msg : DdpMessage) {f : Fpdu} {fs : List Fpdu}
  {rest : List UInt8}

theorem atHead_tagged {s : Inbound} (h : FirstReady s 14) (v : UInt64) :
    AtHead taggedField v s (s.advance (hdrEnd 14 s.pending))
      (firstCtx s 14 (bytes64 (wireTagged (segRaw 14 s.pending)).TO) 6) := by
  refine atHead_first taggedField v h (by decide) (packedInit_ctrl _ _ (by decide)) ?_
  have hl := length_segRaw h.size (firstReady_avail (by decide) h)
  change word64 ((packedInit _ _ 6).bytes 6 8) = nextTO v (segRaw 14 s.pending)
  rw [packedInit, Buf.bytes_patch_self (by simp), word64_bytes64, nextTO_full v hl]

theorem atHead_untagged {s : Inbound} (h : FirstReady s 18) (data : UInt64) (v : UInt32) :
    AtHead (untaggedField data) v s (s.advance (hdrEnd 18 s.pending))
      (firstCtx s 18 (bytes32 (wireUntagged (segRaw 18 s.pending)).mo) 14) := by
  refine atHead_first (untaggedField data) v h (by simp [untaggedKind, ddpUntaggedHdrSize])
    (packedInit_ctrl _ _ (by decide)) ?_
  have hl := length_segRaw h.size (firstReady_avail (by decide) h)
  change word32 ((packedInit _ _ 14).bytes 14 4) = nextMO v (segRaw 18 s.pending)
  rw [packedInit, Buf.bytes_patch_self (by simp), word32_bytes32, nextMO_full v hl]

theorem kind_of_tagged {m : DdpMessage} (h : ddpIsTagged m.hdr = true) : m.kind = taggedKind :=
  if_pos h

theorem kind_of_untagged {m : DdpMessage} (h : ddpIsTagged m.hdr = false) :
    m.kind = untaggedKind m.buf.untagBuf.data :=
  if_neg (by rw [h]; decide)

/-- A first header that is accepted: the payload loop of tagged messages follows. -/
theorem ddpRecvHead_tagged_loop {ctx : DdpCtx} (msg : DdpMessage) {b : TaggedBuffer}
    (hf : ctx.inb.FailFree) (ht : ddpIsTagged (ctx.inb.pending.getD 2 0) = true)
    (h : FirstReady ctx.inb 14)
    (hb : ddpCheckStag ctx.taggedBuffers (wireTagged (segRaw 14 ctx.inb.pending)) = some b) :
    ∃ c, (ddpRecvHead ctx msg).next = .inr c ∧
      (ddpRecvHead ctx msg).ctx =
        { ctx with inb := ctx.inb.advance (hdrEnd 14 ctx.inb.pending) } ∧
      (ddpRecvHead ctx msg).msg.kind = taggedKind ∧
      AtHead taggedField 0 ctx.inb (ctx.inb.advance (hdrEnd 14 ctx.inb.pending)) c := by
  have hhead := ddpRecvHead_tagged_of_ready msg hf ht h
  rw [hb] at hhead
  rw [hhead]
  refine ⟨_, rfl, rfl, kind_of_tagged ?_, atHead_tagged h 0⟩
  show ddpIsTagged ((segRaw 14 ctx.inb.pending).getD 0 0) = true
  rw [getD_segRaw (by decide) h.ctrl.pos, ht]

/-- A first header that is accepted: the loop of untagged messages follows, on the
    buffer the structure holds then. -/
theorem ddpRecvHead_untagged_loop {ctx : DdpCtx} (msg : DdpMessage) {qn : Fin 3}
    {d : DdpCtx × DdpMessage} (hf : ctx.inb.FailFree) (ht : ddpIsTagged (ctx.inb.pending.getD 2 0) = false)
    (h : FirstReady ctx.inb 18)
    (hqn : ddpCheckUntaggedHdr ctx.queues (wireUntagged (segRaw 18 ctx.inb.pending)) = some qn)
    (hd : tryDequeueBuf { ctx with inb := ctx.inb.advance (hdrEnd 18 ctx.inb.pending) } qn
      (untaggedHdrMsg msg (segRaw 18 ctx.inb.pending)) = d) :
    ∃ c, (ddpRecvHead ctx msg).next = .inr c ∧ (ddpRecvHead ctx msg).ctx = d.1 ∧
      (ddpRecvHead ctx msg).msg = d.2 ∧ d.2.kind = untaggedKind d.2.buf.untagBuf.data ∧
      AtHead (untaggedField d.2.buf.untagBuf.data) 0 ctx.inb
        (ctx.inb.advance (hdrEnd 18 ctx.inb.pending)) c := by
  have hhead := ddpRecvHead_untagged_of_ready msg hf ht h
  simp only [hqn, hd] at hhead
  rw [hhead]
  refine ⟨_, rfl, rfl, rfl, kind_of_untagged ?_, atHead_untagged h _ 0⟩
  rw [← hd, tryDequeueBuf_hdr]
  show ddpIsTagged ((segRaw 18 ctx.inb.pending).getD 0 0) = false
  rw [getD_segRaw (by decide) h.ctrl.pos, ht]

/-- A tagged message with a valid STag is received whole. -/
theorem ddpRecv_tagged {b : TaggedBuffer} (hf : ctx.inb.FailFree) (hmsg : IsMessage 14 (f :: fs))
    (hlen : ∀ g ∈ f :: fs, 14 < g.len) (hp : ctx.inb.pending = wireOf (f :: fs) ++ rest)
    (hr : MsgReady ctx.inb.ready ctx.inb.pos (f :: fs)) (ht : ddpIsTagged f.ctrl = true)
    (hb : ddpCheckStag ctx.taggedBuffers (wireTagged (f.hdr 14)) = some b) :
    ddpRecv ctx mem msg =
      ⟨.val 0, { ctx with inb := ctx.inb.advance (wireOf (f :: fs)).length },
        mem.write (((f :: fs).map (taggedField.placement 0)).flatMap Placement.stores),
        { taggedHdrMsg msg (f.hdr 14) with buf := .tag b, len := (payloadOf 14 (f :: fs)).length },
        (f :: fs).map (taggedField.placement 0)⟩ := by
  have hH := hlen f (by simp)
  have hp' : ctx.inb.pending = f.wire ++ (wireOf fs ++ rest) := by
    rw [hp, wireOf_cons, List.append_assoc]
  have hfirst := firstReady_wire hp' (by decide) hH hr.1.1
  have hc : ctx.inb.pending.getD 2 0 = f.ctrl := by rw [hp', ctrl_wire]
  have hraw : segRaw 14 ctx.inb.pending = f.hdr 14 := by rw [hp', segRaw_wire hH.le]
  have hhead := ddpRecvHead_tagged_of_ready msg hf (by rw [hc]; exact ht) hfirst
  rw [hraw, hb] at hhead
  have htag : ddpIsTagged (taggedHdrMsg msg (f.hdr 14)).hdr = true := by
    rw [← ht, ← f.getD_hdr (show 0 < 14 by decide)]
    rfl
  have hat := atHead_tagged hfirst 0
  rw [hraw] at hat
  have hloop := segLoop_first 0 0 hf hmsg hlen hp hr hat
  simp only [ddpRecv, hhead, ddpRecvPayload, DdpMessage.kind, htag, if_true, hloop,
    DdpMessage.finish]
  rfl

/-- An untagged message for a queue that holds a buffer is received whole. -/
theorem ddpRecv_untagged {qn : Fin 3} {b : UntaggedBuffer} {bs : List UntaggedBuffer}
    (hf : ctx.inb.FailFree) (hmsg : IsMessage 18 (f :: fs)) (hlen : ∀ g ∈ f :: fs, 18 < g.len)
    (hp : ctx.inb.pending = wireOf (f :: fs) ++ rest)
    (hr : MsgReady ctx.inb.ready ctx.inb.pos (f :: fs)) (ht : ddpIsTagged f.ctrl = false)
    (hqn : ddpCheckUntaggedHdr ctx.queues (wireUntagged (f.hdr 18)) = some qn)
    (hq : (ctx.queues qn).q = b :: bs) :
    ddpRecv ctx mem msg =
      ⟨.val 0,
        { ctx with
          inb := ctx.inb.advance (wireOf (f :: fs)).length
          queues := Function.update ctx.queues qn { ctx.queues qn with q := bs } },
        mem.write (((f :: fs).map ((untaggedField b.data).placement 0)).flatMap Placement.stores),
        { untaggedHdrMsg msg (f.hdr 18) with
          hdrUnion := (untaggedHdrMsg msg (f.hdr 18)).hdrUnion.patch ((bytes32 0).zipIdx 13)
          buf := .untag b
          len := (payloadOf 18 (f :: fs)).length },
        (f :: fs).map ((untaggedField b.data).placement 0)⟩ := by
  have hH := hlen f (by simp)
  have hp' : ctx.inb.pending = f.wire ++ (wireOf fs ++ rest) := by
    rw [hp, wireOf_cons, List.append_assoc]
  have hfirst := firstReady_wire hp' (by decide) hH hr.1.1
  have hc : ctx.inb.pending.getD 2 0 = f.ctrl := by rw [hp', ctrl_wire]
  have hraw : segRaw 18 ctx.inb.pending = f.hdr 18 := by rw [hp', segRaw_wire hH.le]
  have hhead := ddpRecvHead_untagged_of_ready msg hf (by rw [hc]; exact ht) hfirst
  simp only [hraw, hqn, tryDequeueBuf, hq] at hhead
  have htag : ddpIsTagged (untaggedHdrMsg msg (f.hdr 18)).hdr = false := by
    rw [← ht, ← f.getD_hdr (show 0 < 18 by decide)]
    rfl
  have hat := atHead_untagged hfirst b.data 0
  rw [hraw] at hat
  have hloop := segLoop_first 0 0 hf hmsg hlen hp hr hat
  simp only [ddpRecv, hhead, ddpRecvPayload, DdpMessage.kind, htag, Bool.false_eq_true, if_false,
    BufUnion.untagBuf, hloop, if_true, DdpMessage.finish]
  rfl

end

end SoftUiWarp
