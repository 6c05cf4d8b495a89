import SoftUiWarp.Ddp.Framing
import SoftUiWarp.Ddp.Placement
import SoftUiWarp.Mpa.Results

/-!
# The sizes that `ddp_recv` asks `recv` for

They are `int`s, differences of lengths the peer sends, sizes of headers and the
count of the bytes of a packet, and converted to `size_t`. `mpa_recv` reads
padding and CRC with the last byte of a ULPDU and counts them too. For a segment
that is no longer than its header that happens while the header is read, and
what is left of the ULPDU when its payload is called for is a negative number.

Results:
* `recvAll_ddpRecvSizes`: the calls of `recv` with the sizes listed here are
  those that `ddp_recv` makes.
* `segLoopSizes_iff`: the sizes that the payload loop asks for.
* `read_sizes_iff`: all sizes are between 0 and 65535 exactly when every segment
  the call comes to is longer than its header.
-/

namespace SoftUiWarp

open TcpStream ByteMem

/-! ## The sizes that `recv` is asked for -/

/-- The calls of the payload loop. -/
def payloadLoopSizes (toRead : ℤ) : (fuel : ℕ) → Inbound → (rcvd : ℤ) → List ℤ
  | 0, _, _ => []
  | fuel + 1, inb, rcvd =>
    (toRead - rcvd) ::
      match inb.recv (toSize (toRead - rcvd)) with
      | none => []
      | some (r, _, inb) =>
        if rcvd + r ≤ 0 then []
        else if rcvd + r < toRead then payloadLoopSizes toRead fuel inb (rcvd + r)
        else []

/-- The calls for padding and CRC. -/
def trailerSizes (inb : Inbound) (info : MpaPacket) : List ℤ :=
  let paddingLen : ℤ := ((info.ulpduLen.toNat : ℤ) + mpaHdrSize) % 4
  paddingLen ::
    match inb.recv (toSize paddingLen) with
    | none => []
    | some (rcvd, _, _) => if rcvd < paddingLen then [] else [mpaCrcSize]

/-- The calls of `mpa_recv` after the MPA header. -/
def mpaRecvBodySizes (inb : Inbound) (info : MpaPacket) (numBytes : ℤ) : List ℤ :=
  let packetLen : ℤ := info.ulpduLen.toNat
  if packetLen ≤ 0 then []
  else
    let ulpduRemSize := packetLen - (info.bytesRcvd - mpaHdrSize)
    let toRead := if ulpduRemSize ≤ numBytes then ulpduRemSize else numBytes
    let l := payloadLoop toRead (inb.size + 2) inb 0 []
    payloadLoopSizes toRead (inb.size + 2) inb 0 ++
      if l.ret = .val toRead ∧ ulpduRemSize ≤ numBytes then trailerSizes l.inb info else []

/-- The calls of `mpa_recv`. -/
def mpaRecvSizes (inb : Inbound) (info : MpaPacket) (numBytes : ℤ) : List ℤ :=
  if info.bytesRcvd < mpaHdrSize then
    (mpaHdrSize - info.bytesRcvd) ::
      match inb.recv (toSize (mpaHdrSize - info.bytesRcvd)) with
      | none => []
      | some (rcvd, bs, inb) =>
        let len := patchLen info.ulpduLen bs info.bytesRcvd.toNat
        if rcvd < mpaHdrSize - info.bytesRcvd then []
        else mpaRecvBodySizes inb { ulpduLen := ntohs len, bytesRcvd := mpaHdrSize } numBytes
  else mpaRecvBodySizes inb info numBytes

/-- The calls of the loops over the segments of a message. -/
def segLoopSizes (K : SegKind) : (fuel : ℕ) → Inbound → SegCtx → List ℤ
  | 0, _, _ => []
  | fuel + 1, inb, c =>
    let o := mpaRecv inb c.info c.payloadLen
    mpaRecvSizes inb c.info c.payloadLen ++
      match o.ret with
      | .val r =>
        if r < 0 then []
        else if c.packed 0 &&& ddpFlagLast ≠ 0 then []
        else
          let o2 := mpaRecv o.inb { o.info with bytesRcvd := 0 } K.hdrSize
          mpaRecvSizes o.inb { o.info with bytesRcvd := 0 } K.hdrSize ++
            match o2.ret with
            | .val r =>
              if r < 0 then []
              else
                segLoopSizes K fuel o2.inb
                  ⟨o2.info, o2.info.ulpduLen.toNat - K.hdrSize, K.ntoh (c.packed.patch o2.writes),
                    o2.writes.map Prod.fst⟩
            | _ => []
      | _ => []

/-- The calls of `ddp_recv` up to the payload loop. -/
def ddpRecvHeadSizes (ctx : DdpCtx) (msg : DdpMessage) : List ℤ :=
  let o := mpaRecv ctx.inb {} ddpCtrlSize
  let hdr := Buf.patch (fun _ => msg.hdr) o.writes 0
  let hdrSize := if ddpIsTagged hdr then ddpTaggedHdrSize else ddpUntaggedHdrSize
  mpaRecvSizes ctx.inb {} ddpCtrlSize ++
    match o.ret with
    | .val r =>
      if r < ddpCtrlSize then []
      else if (o.info.ulpduLen.toNat : ℤ) - (ddpCtrlSize + hdrSize : ℕ) < 0 then []
      else mpaRecvSizes o.inb o.info hdrSize
    | _ => []

/-- The calls of `ddp_recv`. -/
def ddpRecvSizes (ctx : DdpCtx) (msg : DdpMessage) : List ℤ :=
  let h := ddpRecvHead ctx msg
  ddpRecvHeadSizes ctx msg ++
    match h.next with
    | .inl _ => []
    | .inr c => segLoopSizes h.msg.kind (h.ctx.inb.pending.length + 1) h.ctx.inb c

/-! ### The calls take the stream where the functions take it -/

/-- The stream after a call of `recv` for `x` bytes. -/
def afterRecv (s : Inbound) (x : ℤ) : Inbound :=
  match s.recv (toSize x) with
  | none => s
  | some (_, _, t) => t

/-- The stream after calls for the given sizes. -/
def recvAll (s : Inbound) (xs : List ℤ) : Inbound := xs.foldl afterRecv s

section

variable {s : Inbound} {info : MpaPacket} {n : ℤ}

theorem recvAll_cons (x : ℤ) (xs : List ℤ) : recvAll s (x :: xs) = recvAll (afterRecv s x) xs :=
  rfl

theorem recvAll_append (xs ys : List ℤ) : recvAll s (xs ++ ys) = recvAll (recvAll s xs) ys :=
  List.foldl_append

theorem recvAll_payloadLoopSizes (toRead : ℤ) (fuel : ℕ) (rcvd : ℤ) (ws : List (UInt8 × ℕ)) :
    recvAll s (payloadLoopSizes toRead fuel s rcvd) =
      (payloadLoop toRead fuel s rcvd ws).inb := by
  induction fuel generalizing s rcvd ws with
  | zero => rfl
  | succ fuel ih =>
    rw [payloadLoopSizes, payloadLoop, recvAll_cons, afterRecv]
    cases s.recv (toSize (toRead - rcvd)) with
    | none => rfl
    | some x =>
      obtain ⟨r, bs, t⟩ := x
      simp only
      split_ifs with h0 hlt
      · rfl
      · exact ih _ _
      · rfl

theorem recvAll_trailerSizes (b : ℤ) (ws : List (UInt8 × ℕ)) :
    recvAll s (trailerSizes s info) = (readTrailers s { info with bytesRcvd := b } ws).inb := by
  simp only [trailerSizes, readTrailers, recvAll_cons, afterRecv]
  cases s.recv (toSize (((info.ulpduLen.toNat : ℤ) + mpaHdrSize) % 4)) with
  | none => rfl
  | some x =>
    obtain ⟨r, bs, t⟩ := x
    simp only
    split_ifs with hr
    · rfl
    · rw [recvAll_cons, afterRecv]
      cases t.recv (toSize mpaCrcSize) with
      | none => rfl
      | some x =>
        simp only
        split_ifs <;> rfl

/-- The calls after the MPA header, in terms of the parts of a call. -/
theorem mpaRecvBodySizes_eq (hpos : 0 < info.ulpduLen.toNat) {l : LoopOut}
    (hl : payloadLoop (info.toRead n) (s.size + 2) s 0 [] = l) :
    mpaRecvBodySizes s info n =
      payloadLoopSizes (info.toRead n) (s.size + 2) s 0 ++
        if l.ret = .val (info.toRead n) ∧ info.rem ≤ n then trailerSizes l.inb info else [] := by
  subst hl
  unfold mpaRecvBodySizes
  simp only
  rw [if_neg (by omega)]
  rfl

theorem recvAll_mpaRecvBodySizes :
    recvAll s (mpaRecvBodySizes s info n) = (mpaRecvBody s info n).inb := by
  by_cases hpos : 0 < info.ulpduLen.toNat
  · obtain ⟨l, hl⟩ : ∃ l, payloadLoop (info.toRead n) (s.size + 2) s 0 [] = l := ⟨_, rfl⟩
    rw [mpaRecvBodySizes_eq hpos hl, mpaRecvBody_eq hpos hl, recvAll_append,
      recvAll_payloadLoopSizes _ _ _ [], hl]
    cases hret : l.ret with
    | val r =>
      simp only [Ret.val.injEq]
      by_cases hr : r = info.toRead n
      · rw [if_neg (not_not.mpr hr)]
        by_cases hrem : info.rem ≤ n
        · rw [if_pos ⟨hr, hrem⟩, if_pos hrem]
          exact recvAll_trailerSizes _ _
        · rw [if_neg (fun h => hrem h.2), if_neg hrem]
          rfl
      · rw [if_neg (fun h => hr h.1), if_pos hr]
        rfl
    | blocked => rw [if_neg (fun h => by cases h.1)]; rfl
    | spin => rw [if_neg (fun h => by cases h.1)]; rfl
  · rw [mpaRecvBodySizes, mpaRecvBody]
    simp only
    rw [if_pos (by omega), if_pos (by omega)]
    rfl

theorem recvAll_mpaRecvSizes : recvAll s (mpaRecvSizes s info n) = (mpaRecv s info n).inb := by
  rw [mpaRecvSizes, mpaRecv]
  split_ifs with hb
  · rw [recvAll_cons, afterRecv]
    cases s.recv (toSize (mpaHdrSize - info.bytesRcvd)) with
    | none => rfl
    | some x =>
      obtain ⟨r, bs, t⟩ := x
      simp only
      split_ifs with hr
      · rfl
      · exact recvAll_mpaRecvBodySizes
  · exact recvAll_mpaRecvBodySizes

end

/-! ### One round of the payload loop -/

section

variable (K : SegKind) {fuel : ℕ} {s : Inbound} {c : SegCtx}

theorem segLoopSizes_stop (h : ¬(payloadCall s c).ret.Ok) :
    segLoopSizes K (fuel + 1) s c = mpaRecvSizes s c.info c.payloadLen := by
  rw [payloadCall] at h
  rw [segLoopSizes]
  rcases not_ok_cases h with ⟨r, hneg, hr⟩ | hr | hr
  · simp only [hr, if_pos hneg, List.append_nil]
  · simp only [hr, List.append_nil]
  · simp only [hr, List.append_nil]

theorem segLoopSizes_last (h : (payloadCall s c).ret.Ok) (hl : c.packed 0 &&& ddpFlagLast ≠ 0) :
    segLoopSizes K (fuel + 1) s c = mpaRecvSizes s c.info c.payloadLen := by
  obtain ⟨r, hr0, hr⟩ := h
  rw [payloadCall] at hr
  rw [segLoopSizes]
  simp only [hr, if_neg (show ¬r < 0 by omega), if_pos hl, List.append_nil]

/-- The sizes of a round's header call. -/
def headerSizes (s : Inbound) (c : SegCtx) : List ℤ :=
  mpaRecvSizes (payloadCall s c).inb { (payloadCall s c).info with bytesRcvd := 0 } K.hdrSize

theorem segLoopSizes_hdr_stop (h : (payloadCall s c).ret.Ok)
    (hl : ¬c.packed 0 &&& ddpFlagLast ≠ 0) (h2 : ¬(headerCall K s c).ret.Ok) :
    segLoopSizes K (fuel + 1) s c =
      mpaRecvSizes s c.info c.payloadLen ++ headerSizes K s c := by
  obtain ⟨r, hr0, hr⟩ := h
  rw [headerSizes]
  rw [payloadCall] at hr
  rw [headerCall, payloadCall] at h2
  rw [segLoopSizes]
  simp only [hr, if_neg (show ¬r < 0 by omega), if_neg hl]
  rcases not_ok_cases h2 with ⟨r2, hneg, hr2⟩ | hr2 | hr2
  · simp only [hr2, if_pos hneg, List.append_nil]
    rfl
  · simp only [hr2, List.append_nil]
    rfl
  · simp only [hr2, List.append_nil]
    rfl

theorem segLoopSizes_next (h : (payloadCall s c).ret.Ok) (hl : ¬c.packed 0 &&& ddpFlagLast ≠ 0)
    (h2 : (headerCall K s c).ret.Ok) :
    segLoopSizes K (fuel + 1) s c =
      mpaRecvSizes s c.info c.payloadLen ++
        (headerSizes K s c ++ segLoopSizes K fuel (headerCall K s c).inb (nextCtx K s c)) := by
  obtain ⟨r, hr0, hr⟩ := h
  obtain ⟨r2, hr20, hr2⟩ := h2
  rw [payloadCall] at hr
  rw [headerCall, payloadCall] at hr2
  rw [segLoopSizes]
  simp only [hr, if_neg (show ¬r < 0 by omega), if_neg hl, hr2, if_neg (show ¬r2 < 0 by omega)]
  rfl

theorem recvAll_payload : recvAll s (mpaRecvSizes s c.info c.payloadLen) = (payloadCall s c).inb :=
  recvAll_mpaRecvSizes

theorem recvAll_header :
    recvAll (payloadCall s c).inb (headerSizes K s c) = (headerCall K s c).inb :=
  recvAll_mpaRecvSizes

theorem recvAll_segLoopSizes (fuel : ℕ) (c : SegCtx) (len : ℤ) (acc : List Placement) :
    recvAll s (segLoopSizes K fuel s c) = (segLoop K fuel s c len acc).inb := by
  induction fuel generalizing s c len acc with
  | zero => rfl
  | succ fuel ih =>
    by_cases hok : (payloadCall s c).ret.Ok
    · by_cases hl : c.packed 0 &&& ddpFlagLast ≠ 0
      · rw [segLoopSizes_last K hok hl, segLoop_last K hok hl, recvAll_payload]
      · by_cases hok2 : (headerCall K s c).ret.Ok
        · rw [segLoopSizes_next K hok hl hok2, segLoop_next K hok hl hok2, recvAll_append,
            recvAll_append, recvAll_payload, recvAll_header]
          exact ih _ _ _
        · rw [segLoopSizes_hdr_stop K hok hl hok2, segLoop_hdr_stop K hok hl hok2, recvAll_append,
            recvAll_payload, recvAll_header]
    · rw [segLoopSizes_stop K hok, segLoop_stop K hok, recvAll_payload]

end

section

variable (ctx : DdpCtx) (mem : Mem) (msg : DdpMessage)

theorem ddpRecvTaggedHdr_inb (info : MpaPacket) :
    (ddpRecvTaggedHdr ctx msg info).ctx.inb =
      if (info.ulpduLen.toNat : ℤ) - (ddpCtrlSize + ddpTaggedHdrSize : ℕ) < 0 then ctx.inb
      else (mpaRecv ctx.inb info ddpTaggedHdrSize).inb := by
  rw [ddpRecvTaggedHdr]
  simp only
  split
  · rfl
  · split
    · split
      · rfl
      · split <;> rfl
    · rfl

theorem ddpRecvUntaggedHdr_inb (info : MpaPacket) :
    (ddpRecvUntaggedHdr ctx msg info).ctx.inb =
      if (info.ulpduLen.toNat : ℤ) - (ddpCtrlSize + ddpUntaggedHdrSize : ℕ) < 0 then ctx.inb
      else (mpaRecv ctx.inb info ddpUntaggedHdrSize).inb := by
  rw [ddpRecvUntaggedHdr]
  simp only
  split
  · rfl
  · split
    · split
      · rfl
      · split
        · rfl
        · rw [tryDequeueBuf]
          split <;> rfl
    · rfl

theorem recvAll_ddpRecvHeadSizes :
    recvAll ctx.inb (ddpRecvHeadSizes ctx msg) = (ddpRecvHead ctx msg).ctx.inb := by
  rw [ddpRecvHeadSizes, ddpRecvHead]
  simp only [recvAll_append, recvAll_mpaRecvSizes]
  cases (mpaRecv ctx.inb {} ddpCtrlSize).ret with
  | blocked => rfl
  | spin => rfl
  | val r =>
    simp only
    by_cases hr : r < ddpCtrlSize
    · rw [if_pos hr, if_pos hr]
      rfl
    · rw [if_neg hr, if_neg hr]
      cases ddpIsTagged (Buf.patch (fun _ => msg.hdr) (mpaRecv ctx.inb {} ddpCtrlSize).writes 0) with
      | true =>
        simp only [if_true]
        rw [ddpRecvTaggedHdr_inb]
        split_ifs
        · rfl
        · exact recvAll_mpaRecvSizes
      | false =>
        simp only [Bool.false_eq_true, if_false]
        rw [ddpRecvUntaggedHdr_inb]
        split_ifs
        · rfl
        · exact recvAll_mpaRecvSizes

/-- The calls for these sizes, one after the other, take the stream where
    `ddp_recv` leaves it. -/
theorem recvAll_ddpRecvSizes :
    recvAll ctx.inb (ddpRecvSizes ctx msg) = (ddpRecv ctx mem msg).ctx.inb := by
  rw [ddpRecvSizes, ddpRecv]
  simp only [recvAll_append, recvAll_ddpRecvHeadSizes]
  cases (ddpRecvHead ctx msg).next with
  | inl r => rfl
  | inr c =>
    simp only [ddpRecvPayload, recvAll_segLoopSizes _ _ _ 0 []]
    split <;> rfl

end

/-! ## Sizes in range -/

/-- The size is that of at most 65535 bytes, and not a negative number. -/
def SizeOk (x : ℤ) : Prop := 0 ≤ x ∧ x ≤ 65535

section

variable {s : Inbound} {info : MpaPacket} {n : ℤ}

/-- The loop asks for part of what it has been asked for. -/
theorem payloadLoopSizes_le {toRead : ℤ} (fuel : ℕ) {rcvd : ℤ} (h0 : 0 ≤ rcvd)
    (hle : rcvd ≤ toRead) : ∀ x ∈ payloadLoopSizes toRead fuel s rcvd, 0 ≤ x ∧ x ≤ toRead := by
  induction fuel generalizing s rcvd with
  | zero => simp [payloadLoopSizes]
  | succ fuel ih =>
    intro x hx
    rw [payloadLoopSizes] at hx
    rcases List.mem_cons.mp hx with rfl | hx
    · omega
    · cases hrecv : s.recv (toSize (toRead - rcvd)) with
      | none =>
        rw [hrecv] at hx
        cases hx
      | some y =>
        obtain ⟨r, bs, t⟩ := y
        rw [hrecv] at hx
        simp only at hx
        split_ifs at hx with hneg hlt
        · cases hx
        · exact ih (by omega) hlt.le x hx
        · cases hx

theorem trailerSizes_ok : ∀ x ∈ trailerSizes s info, SizeOk x := by
  intro x hx
  rw [trailerSizes] at hx
  rcases List.mem_cons.mp hx with rfl | hx
  · unfold SizeOk
    omega
  · split at hx
    · cases hx
    · split at hx
      · cases hx
      · rw [List.mem_singleton.mp hx]
        exact ⟨by decide, by decide⟩

theorem mpaRecvBodySizes_ok (hb : 2 ≤ info.bytesRcvd) (hrem : 0 ≤ info.rem) (hn : 0 ≤ n) :
    ∀ x ∈ mpaRecvBodySizes s info n, SizeOk x := by
  intro x hx
  by_cases hpos : 0 < info.ulpduLen.toNat
  · have hlen := info.ulpduLen.toNat_lt
    have hto : 0 ≤ info.toRead n ∧ info.toRead n ≤ 65535 := by
      unfold MpaPacket.toRead
      unfold MpaPacket.rem mpaHdrSize at hrem ⊢
      split_ifs <;> omega
    rw [mpaRecvBodySizes_eq hpos rfl] at hx
    rcases List.mem_append.mp hx with hx | hx
    · have := payloadLoopSizes_le _ le_rfl hto.1 x hx
      unfold SizeOk
      omega
    · split_ifs at hx
      · exact trailerSizes_ok x hx
      · cases hx
  · rw [mpaRecvBodySizes] at hx
    simp only at hx
    rw [if_pos (by omega)] at hx
    cases hx

/-- A call at the start of a packet. -/
theorem mpaRecvSizes_ok (h0 : info.bytesRcvd = 0) (hn : 0 ≤ n) :
    ∀ x ∈ mpaRecvSizes s info n, SizeOk x := by
  intro x hx
  rw [mpaRecvSizes, if_pos (by rw [h0]; decide), h0] at hx
  rcases List.mem_cons.mp hx with rfl | hx
  · exact ⟨by decide, by decide⟩
  · split at hx
    · cases hx
    · simp only at hx
      split_ifs at hx
      · cases hx
      · exact mpaRecvBodySizes_ok le_rfl (by simp [MpaPacket.rem]) hn x hx

/-- A call that has less than nothing left to read asks for it. -/
theorem neg_mem_mpaRecvSizes (hpos : 0 < info.ulpduLen.toNat) (hb : 2 ≤ info.bytesRcvd)
    (hneg : info.toRead n < 0) : ∃ x ∈ mpaRecvSizes s info n, x < 0 := by
  refine ⟨info.toRead n, ?_, hneg⟩
  rw [mpaRecvSizes, if_neg (by unfold mpaHdrSize; omega), mpaRecvBodySizes_eq hpos rfl,
    payloadLoopSizes, sub_zero]
  exact List.mem_append_left _ (List.mem_cons_self ..)

end

/-! ## The segments the call comes to -/

/-- The stream `s` goes on to a segment at the front of `t` whose header is read
    whole: the packets before it have payload, no L bit, and MPA header, padding
    and CRC that are not cut. -/
structure ComesTo (H : ℕ) (s : Inbound) (fs : List Fpdu) (t : List UInt8) : Prop where
  split : s.pending = wireOf fs ++ t
  before : ∀ f ∈ fs, H < f.len ∧ f.last = false
  ready : MsgReady s.ready s.pos fs
  header : HdrReady (s.advance (wireOf fs).length) H

section

variable {s : Inbound} {H : ℕ} {f : Fpdu} {fs : List Fpdu} {t rest : List UInt8}

theorem advance_wireOf_cons (s : Inbound) (f : Fpdu) (fs : List Fpdu) :
    s.advance (wireOf (f :: fs)).length =
      (s.advance f.wire.length).advance (wireOf fs).length := by
  rw [wireOf_cons, List.length_append, advance_advance]

theorem ComesTo.tail (h : ComesTo H s (f :: fs) t) :
    ComesTo H (s.advance f.wire.length) fs t where
  split := by
    rw [advance_pending, h.split, wireOf_cons, List.append_assoc, List.drop_left]
  before g hg := h.before g (List.mem_cons_of_mem f hg)
  ready := h.ready.2
  header := by
    have hh := h.header
    rwa [advance_wireOf_cons] at hh

theorem ComesTo.cons (h : ComesTo H (s.advance f.wire.length) fs t)
    (hp : s.pending = f.wire ++ rest) (hH : H < f.len) (hl : f.last = false)
    (hr : 2 ≤ s.ready s.pos ∧ TrailerReady s.ready s.pos f.len) : ComesTo H s (f :: fs) t where
  split := by
    have hrest := h.split
    rw [advance_pending, hp, List.drop_left] at hrest
    rw [hp, hrest, wireOf_cons, List.append_assoc]
  before g hg := by
    rcases List.mem_cons.mp hg with rfl | hg
    · exact ⟨hH, hl⟩
    · exact h.before g hg
  ready := ⟨hr, h.ready⟩
  header := by
    rw [advance_wireOf_cons]
    exact h.header

/-- The header at the front is read too. -/
theorem ComesTo.front (h : ComesTo H s fs t) : HdrReady s H := by
  cases fs with
  | nil => exact h.header
  | cons f fs =>
    have hp := h.split
    rw [wireOf_cons, List.append_assoc] at hp
    exact hdrReady_wire hp (h.before f (List.mem_cons_self ..)).1 h.ready.1.1

/-- When nothing more is read, the stream comes to no other segment than the first. -/
theorem ComesTo.forall_of_stop {n : ℕ} (hfront : n < segLen s.pending)
    (hno : ∀ f fs t, ¬ComesTo H s (f :: fs) t) : ∀ fs t, ComesTo H s fs t → n < segLen t := by
  intro fs t ht
  cases fs with
  | nil =>
    rw [show t = s.pending from ht.split.symm]
    exact hfront
  | cons f fs => exact absurd ht (hno f fs t)

/-- Behind a packet with which the loop goes on, it comes to the segments that the
    rest of the stream comes to. -/
theorem ComesTo.forall_iff_next {n : ℕ} (hp : s.pending = f.wire ++ rest) (hH : H < f.len)
    (hl : f.last = false) (hr : 2 ≤ s.ready s.pos ∧ TrailerReady s.ready s.pos f.len)
    (hfront : n < segLen s.pending) :
    (∀ fs t, ComesTo H s fs t → n < segLen t) ↔
      ∀ fs t, ComesTo H (s.advance f.wire.length) fs t → n < segLen t := by
  constructor
  · intro hall fs t ht
    exact hall (f :: fs) t (ht.cons hp hH hl hr)
  · intro hall fs t ht
    cases fs with
    | nil =>
      rw [show t = s.pending from ht.split.symm]
      exact hfront
    | cons g gs =>
      have hsplit := ht.split
      rw [hp, wireOf_cons, List.append_assoc] at hsplit
      obtain ⟨rfl, -⟩ := Fpdu.wire_append_inj hsplit
      exact hall gs t ht.tail

end

section

variable {K : SegKind} {α : Type} {S : FieldSpec K α} {v : α} {s₀ s : Inbound} {c : SegCtx}

theorem AtHead.payloadSizes_ok (h : AtHead S v s₀ s c) (hH : K.hdrSize < segLen s₀.pending) :
    ∀ x ∈ mpaRecvSizes s c.info c.payloadLen, SizeOk x := by
  have hend : hdrEnd K.hdrSize s₀.pending = 2 + K.hdrSize := by
    rw [hdrEnd, bodyEnd, if_pos (by omega)]
  have hb : c.info.bytesRcvd = 2 + K.hdrSize := by
    rw [h.info, hend]
    push_cast
    rfl
  have hlen : c.info.ulpduLen.toNat = segLen s₀.pending := by rw [h.info, segLen]
  rw [mpaRecvSizes, if_neg (by rw [hb]; unfold mpaHdrSize; omega)]
  refine mpaRecvBodySizes_ok (by omega) ?_ ?_
  · unfold MpaPacket.rem mpaHdrSize
    omega
  · rw [h.payloadLen]
    omega

/-- A segment that is no longer than its header has been read to its end, padding
    and CRC included. -/
theorem AtHead.payloadSizes_neg (h : AtHead S v s₀ s c) (hH : ¬K.hdrSize < segLen s₀.pending) :
    ∃ x ∈ mpaRecvSizes s c.info c.payloadLen, x < 0 := by
  have hpos := h.pos
  have hend : hdrEnd K.hdrSize s₀.pending =
      2 + (segLen s₀.pending + padLen (segLen s₀.pending) + 4) := by
    rw [hdrEnd, bodyEnd, if_neg (by omega), Nat.sub_zero]
  have hb : c.info.bytesRcvd = hdrEnd K.hdrSize s₀.pending := by rw [h.info]
  have hlen : c.info.ulpduLen.toNat = segLen s₀.pending := by rw [h.info, segLen]
  refine neg_mem_mpaRecvSizes (by omega) (by omega) ?_
  rw [h.payloadLen]
  unfold MpaPacket.toRead MpaPacket.rem mpaHdrSize
  split_ifs <;> omega

theorem headerSizes_ok : ∀ x ∈ headerSizes K s c, SizeOk x :=
  mpaRecvSizes_ok rfl (Int.natCast_nonneg _)

/-- A segment further on is behind a payload call that succeeds. -/
theorem AtHead.payload_of_comesTo (h : AtHead S v s₀ s c) (hf : s₀.FailFree) {f : Fpdu}
    {fs : List Fpdu} {t : List UInt8} (ht : ComesTo K.hdrSize s₀ (f :: fs) t) :
    (payloadCall s c).ret.Ok ∧ (payloadCall s c).inb = s₀.advance f.wire.length ∧
      ¬c.packed 0 &&& ddpFlagLast ≠ 0 := by
  have hp := ht.split
  rw [wireOf_cons, List.append_assoc] at hp
  obtain ⟨hfH, hfl⟩ := ht.before f (List.mem_cons_self ..)
  obtain ⟨hok, hinb⟩ := h.payload_wire hf hp hfH ht.ready.1.2
  refine ⟨hok, hinb, ?_⟩
  rw [h.last_eq hp] at hfl
  simpa using hfl

/-- A round that goes on: what it has read was a whole packet with payload, and the
    loop starts again behind it. -/
theorem AtHead.round (h : AtHead S v s₀ s c) (hf : s₀.FailFree) (hok : (payloadCall s c).ret.Ok)
    (hl : ¬c.packed 0 &&& ddpFlagLast ≠ 0) (hok2 : (headerCall K s c).ret.Ok) :
    ∃ (f : Fpdu) (rest : List UInt8), s₀.pending = f.wire ++ rest ∧
      (K.hdrSize < f.len ∧ f.last = false) ∧
      TrailerReady s₀.ready s₀.pos f.len ∧ HdrReady (s₀.advance f.wire.length) K.hdrSize ∧
      AtHead S (S.val c.packed) (s₀.advance f.wire.length) (headerCall K s c).inb (nextCtx K s c) ∧
      (headerCall K s c).inb.pending.length < s.pending.length := by
  obtain ⟨f, rest, hp, hfH, hinb⟩ := h.payload_ok hf hok
  have hpf : (payloadCall s c).inb.FailFree := by
    rw [hinb]
    exact hf.advance _
  have hnext := atHead_of_headerCall S hpf hok2
  have hready : HdrReady (payloadCall s c).inb K.hdrSize := by
    by_contra hn
    exact (headerCall_of_not_ready S hpf hn).1 hok2
  have htrail : TrailerReady s₀.ready s₀.pos f.len := by
    by_contra hn
    exact (h.payload_wire_cut hf hp hfH hn).1 hok
  have hlast : f.last = false := by
    rw [h.last_eq hp]
    simpa using hl
  have hshort : (headerCall K s c).inb.pending.length < s.pending.length := by
    have hw := f.length_wire
    rw [h.length_pending, hnext.length_pending, hinb, advance_pending, List.length_drop, hp,
      hdrEnd_wire hfH, List.length_append]
    omega
  rw [hinb] at hready hnext
  exact ⟨f, rest, hp, ⟨hfH, hlast⟩, htrail, hready, hnext, hshort⟩

/-- The payload loop asks for sizes in range exactly when every segment it comes
    to is longer than its header. -/
theorem segLoopSizes_iff : ∀ (fuel : ℕ) (v : α) (s₀ s : Inbound) (c : SegCtx), s₀.FailFree →
    AtHead S v s₀ s c → HdrReady s₀ K.hdrSize → s.pending.length < fuel →
    ((∀ x ∈ segLoopSizes K fuel s c, SizeOk x) ↔
      ∀ fs t, ComesTo K.hdrSize s₀ fs t → K.hdrSize < segLen t) := by
  intro fuel
  induction fuel with
  | zero => intro v s₀ s c _ _ _ hfuel; omega
  | succ fuel ih =>
    intro v s₀ s c hf h hr hfuel
    by_cases hH : K.hdrSize < segLen s₀.pending
    · have hpay := h.payloadSizes_ok hH
      by_cases hok : (payloadCall s c).ret.Ok
      · by_cases hl : c.packed 0 &&& ddpFlagLast ≠ 0
        · rw [segLoopSizes_last K hok hl]
          exact iff_of_true hpay (ComesTo.forall_of_stop hH fun f fs t ht =>
            (h.payload_of_comesTo hf ht).2.2 hl)
        · by_cases hok2 : (headerCall K s c).ret.Ok
          · obtain ⟨f, rest, hp, ⟨hfH, hlast⟩, htrail, hready, hnext, hshort⟩ :=
              h.round hf hok hl hok2
            have hrec := ih (S.val c.packed) _ _ _ (hf.advance _) hnext hready (by omega)
            rw [segLoopSizes_next K hok hl hok2,
              ComesTo.forall_iff_next hp hfH hlast ⟨hr.header, htrail⟩ hH, ← hrec,
              List.forall_mem_append, List.forall_mem_append]
            exact ⟨fun hall => hall.2.2, fun hall => ⟨hpay, headerSizes_ok, hall⟩⟩
          · rw [segLoopSizes_hdr_stop K hok hl hok2]
            refine iff_of_true (List.forall_mem_append.mpr ⟨hpay, headerSizes_ok⟩)
              (ComesTo.forall_of_stop hH fun f fs t ht => hok2 ?_)
            obtain ⟨-, hinb, -⟩ := h.payload_of_comesTo hf ht
            have hpf : (payloadCall s c).inb.FailFree := by
              rw [hinb]
              exact hf.advance _
            refine headerCall_ok S hpf ?_
            rw [hinb]
            exact ht.tail.front
      · rw [segLoopSizes_stop K hok]
        exact iff_of_true hpay (ComesTo.forall_of_stop hH fun f fs t ht =>
          hok (h.payload_of_comesTo hf ht).1)
    · -- the payload call of this segment asks for a negative number
      obtain ⟨x, hx, hneg⟩ := h.payloadSizes_neg hH
      refine iff_of_false (fun hall => ?_) (fun hall => hH (hall [] s₀.pending ?_))
      · have hmem : x ∈ segLoopSizes K (fuel + 1) s c := by
          rw [segLoopSizes]
          exact List.mem_append_left _ hx
        exact absurd (hall x hmem).1 (not_le.mpr hneg)
      · exact ⟨rfl, by simp, trivial, hr⟩

end

/-! ## The whole call -/

/-- The check of the first header lets the message pass. -/
def HeaderPasses (ctx : DdpCtx) : Prop :=
  if ddpIsTagged (ctx.inb.pending.getD 2 0) then
    (ddpCheckStag ctx.taggedBuffers (wireTagged (segRaw 14 ctx.inb.pending))).isSome
  else (ddpCheckUntaggedHdr ctx.queues (wireUntagged (segRaw 18 ctx.inb.pending))).isSome

/-- The payload loop follows, with headers of `H` bytes. -/
def LoopFollows (ctx : DdpCtx) (msg : DdpMessage) (H : ℕ) : Prop :=
  ∃ (K : SegKind) (α : Type) (S : FieldSpec K α) (v : α) (c : SegCtx), K.hdrSize = H ∧
    (ddpRecvHead ctx msg).next = .inr c ∧ (ddpRecvHead ctx msg).msg.kind = K ∧
    AtHead S v ctx.inb (ddpRecvHead ctx msg).ctx.inb c

section

variable {ctx : DdpCtx} (msg : DdpMessage)

theorem head_tagged (hf : ctx.inb.FailFree) (ht : ddpIsTagged (ctx.inb.pending.getD 2 0) = true)
    (h : FirstReady ctx.inb 14) :
    (∃ r, (ddpRecvHead ctx msg).next = .inl r) ∧ ¬HeaderPasses ctx ∨
      HeaderPasses ctx ∧ LoopFollows ctx msg 14 := by
  have hhead := ddpRecvHead_tagged_of_ready msg hf ht h
  rw [HeaderPasses, if_pos ht]
  cases hb : ddpCheckStag ctx.taggedBuffers (wireTagged (segRaw 14 ctx.inb.pending)) with
  | none =>
    rw [hb] at hhead
    exact .inl ⟨⟨_, by rw [hhead]⟩, by simp⟩
  | some b =>
    obtain ⟨c, hnext, hctx, hkind, hat⟩ := ddpRecvHead_tagged_loop msg hf ht h hb
    refine .inr ⟨rfl, taggedKind, _, taggedField, 0, c, rfl, hnext, hkind, ?_⟩
    rw [hctx]
    exact hat

theorem head_untagged (hf : ctx.inb.FailFree)
    (ht : ddpIsTagged (ctx.inb.pending.getD 2 0) = false) (h : FirstReady ctx.inb 18) :
    (∃ r, (ddpRecvHead ctx msg).next = .inl r) ∧ ¬HeaderPasses ctx ∨
      HeaderPasses ctx ∧ LoopFollows ctx msg 18 := by
  have hhead := ddpRecvHead_untagged_of_ready msg hf ht h
  rw [HeaderPasses, if_neg (by rw [ht]; decide)]
  cases hb : ddpCheckUntaggedHdr ctx.queues (wireUntagged (segRaw 18 ctx.inb.pending)) with
  | none =>
    rw [hb] at hhead
    exact .inl ⟨⟨_, by rw [hhead]⟩, by simp⟩
  | some qn =>
    obtain ⟨c, hnext, hctx, hmsg, hkind, hat⟩ := ddpRecvHead_untagged_loop msg hf ht h hb rfl
    have hinb : (ddpRecvHead ctx msg).ctx.inb = ctx.inb.advance (hdrEnd 18 ctx.inb.pending) := by
      rw [hctx, (tryDequeueBuf_keeps _ _ _).1]
    rw [← hmsg] at hkind hat
    rw [← hinb] at hat
    exact .inr ⟨rfl, _, _, _, 0, c, rfl, hnext, hkind, hat⟩

/-- Either the call is over with the first header, or the payload loop follows. -/
theorem head_cases (hf : ctx.inb.FailFree) :
    (∃ r, (ddpRecvHead ctx msg).next = .inl r) ∧
        ¬(FirstReady ctx.inb (ddpHdrSize (ctx.inb.pending.getD 2 0)) ∧ HeaderPasses ctx) ∨
      FirstReady ctx.inb (ddpHdrSize (ctx.inb.pending.getD 2 0)) ∧ HeaderPasses ctx ∧
        LoopFollows ctx msg (ddpHdrSize (ctx.inb.pending.getD 2 0)) := by
  by_cases hr : FirstReady ctx.inb (ddpHdrSize (ctx.inb.pending.getD 2 0))
  · have hhead : (∃ r, (ddpRecvHead ctx msg).next = .inl r) ∧ ¬HeaderPasses ctx ∨
        HeaderPasses ctx ∧ LoopFollows ctx msg (ddpHdrSize (ctx.inb.pending.getD 2 0)) := by
      cases ht : ddpIsTagged (ctx.inb.pending.getD 2 0) with
      | true =>
        rw [ddpHdrSize, ht] at hr ⊢
        exact head_tagged msg hf ht hr
      | false =>
        rw [ddpHdrSize, ht] at hr ⊢
        exact head_untagged msg hf ht hr
    rcases hhead with ⟨hover, hno⟩ | hloop
    · exact .inl ⟨hover, fun h => hno h.2⟩
    · exact .inr ⟨hr, hloop⟩
  · obtain ⟨r, -, hnext, -⟩ := ddpRecvHead_of_not_ready msg hf hr
    exact .inl ⟨⟨r, hnext⟩, fun h => hr h.1⟩

theorem ddpRecvHeadSizes_ok (hf : ctx.inb.FailFree) : ∀ x ∈ ddpRecvHeadSizes ctx msg, SizeOk x := by
  intro x hx
  have hctrl : ∀ x ∈ mpaRecvSizes ctx.inb {} ddpCtrlSize, SizeOk x :=
    mpaRecvSizes_ok rfl (Int.natCast_nonneg _)
  rw [ddpRecvHeadSizes] at hx
  rcases List.mem_append.mp hx with hx | hx
  · exact hctrl x hx
  by_cases hready : HdrReady ctx.inb 1
  · rw [mpaRecv_ctrl hf hready] at hx
    obtain ⟨n, hn⟩ : ∃ n, (if ddpIsTagged (Buf.patch (fun _ => msg.hdr)
      ((ctx.inb.pending.drop 2).take 1).zipIdx 0) then ddpTaggedHdrSize else ddpUntaggedHdrSize) =
        n := ⟨_, rfl⟩
    have hn0 : 0 < n := by
      rw [← hn]
      split_ifs <;> decide
    simp only [hn] at hx
    split_ifs at hx with _ hshort
    · cases hx
    · cases hx
    · -- the ULPDU is longer than the control byte, which is all that has been read
      have hlen : ddpCtrlSize + n ≤ segLen ctx.inb.pending := by
        unfold segLen
        omega
      rw [ddpCtrlSize] at hlen
      have hend : hdrEnd 1 ctx.inb.pending = 3 := hdrEnd_one (by omega)
      rw [hend, mpaRecvSizes, if_neg (by simp [mpaHdrSize])] at hx
      refine mpaRecvBodySizes_ok (by simp) ?_ (Int.natCast_nonneg _) x hx
      simp only [MpaPacket.rem, mpaHdrSize]
      unfold segLen at hlen
      omega
  · have hno := (@mpaRecv_of_not_ready ctx.inb {} 1 hf rfl (by decide) hready).1
    rcases not_ok_cases hno with ⟨r, hneg, hr⟩ | hr | hr
    · change (mpaRecv ctx.inb {} ddpCtrlSize).ret = _ at hr
      rw [hr] at hx
      simp only [if_pos (show r < ddpCtrlSize by unfold ddpCtrlSize; omega)] at hx
      cases hx
    · change (mpaRecv ctx.inb {} ddpCtrlSize).ret = _ at hr
      rw [hr] at hx
      cases hx
    · change (mpaRecv ctx.inb {} ddpCtrlSize).ret = _ at hr
      rw [hr] at hx
      cases hx

/-- The two calls for the first header need what one call for all of it needs. -/
theorem FirstReady.hdrReady {s : Inbound} {H : ℕ} (hH : 2 ≤ H) (h : FirstReady s H) :
    HdrReady s H := by
  have hend := bodyEnd_one hH h.size
  have hav := firstReady_avail hH h
  have hle := h.size
  rw [hdrEnd] at hav
  refine ⟨h.ctrl.avail, h.ctrl.header, h.ctrl.pos, ⟨?_, fun htr => ?_⟩⟩
  · rw [advance_pending, List.length_drop]
    omega
  · have hrest := h.rest.trailer (by omega)
    simp only [advance_ready, advance_pos] at hrest ⊢
    rwa [show s.pos + 2 + (segLen s.pending - 0) = s.pos + 3 + (segLen s.pending - 1) by omega]

/-- The sizes that `ddp_recv` makes `mpa_recv` ask for are never negative or out of
    range, if and only if every segment the call comes to, its first header
    accepted, is longer than the header. -/
theorem read_sizes_iff (hf : ctx.inb.FailFree) :
    (∀ x ∈ ddpRecvSizes ctx msg, 0 ≤ x ∧ x ≤ 65535) ↔
      (FirstReady ctx.inb (ddpHdrSize (ctx.inb.pending.getD 2 0)) → HeaderPasses ctx →
        ∀ fs t, ComesTo (ddpHdrSize (ctx.inb.pending.getD 2 0)) ctx.inb fs t →
          ddpHdrSize (ctx.inb.pending.getD 2 0) < segLen t) := by
  have hhead := ddpRecvHeadSizes_ok msg hf
  rw [ddpRecvSizes]
  rcases head_cases msg hf with ⟨⟨r, hnext⟩, hno⟩ | ⟨hr, hpass, K, α, S, v, c, hK, hnext, hk, hat⟩
  · simp only [hnext, List.append_nil]
    exact iff_of_true hhead fun hr hpass => absurd ⟨hr, hpass⟩ hno
  · obtain ⟨fuel, hfuel⟩ : ∃ fuel, (ddpRecvHead ctx msg).ctx.inb.pending.length + 1 = fuel := ⟨_, rfl⟩
    have hready : HdrReady ctx.inb K.hdrSize := hK ▸ hr.hdrReady (two_le_ddpHdrSize _)
    have hloop := segLoopSizes_iff fuel v _ _ c hf hat hready (by omega)
    rw [hK] at hloop
    simp only [hnext, hfuel, hk]
    rw [List.forall_mem_append]
    exact ⟨fun h _ _ => hloop.mp h.2, fun h => ⟨hhead, hloop.mpr (h hr hpass)⟩⟩

end

/-- A tagged message of two segments with one byte of payload each. -/
theorem read_sizes_two_segments :
    let bs : List UInt8 := [0, 15, 0x81, 0x40, 0, 0, 0, 7, 0, 0, 0, 0, 0, 0, 0x50, 0x00, 9,
      0, 0, 0, 0, 0, 0, 15, 0xC1, 0x40, 0, 0, 0, 7, 0, 0, 0, 0, 0, 0, 0x50, 0x01, 8, 0, 0, 0, 0, 0]
    let ctx : DdpCtx := ⟨{ pending := bs, eof := false }, ⟨[], []⟩, fun _ => ⟨[], 1⟩,
      Function.update (fun _ => none) 7 (some ⟨⟨7, 0⟩, 0x5000, 4⟩)⟩
    let msg : DdpMessage := ⟨0, fun _ => 0, .untag ⟨0, 0⟩, 0⟩
    ddpRecvSizes ctx msg = [2, 1, 13, 1, 1, 4, 2, 14, 1, 1, 4] ∧
      ∀ fs t, ComesTo 14 ctx.inb fs t → 14 < segLen t := by
  intro bs ctx msg
  have hsizes : ddpRecvSizes ctx msg = [2, 1, 13, 1, 1, 4, 2, 14, 1, 1, 4] := by decide +kernel
  have hready : FirstReady ctx.inb 14 :=
    firstReady_of_le (by decide) (fun _ => show 4 ≤ maxRwCount by decide) (by decide) (by decide)
  have hpass : HeaderPasses ctx := by
    rw [HeaderPasses, if_pos (by decide)]
    decide
  have hiff := @read_sizes_iff ctx msg fun _ => rfl
  rw [hsizes, show ddpHdrSize (ctx.inb.pending.getD 2 0) = 14 by decide] at hiff
  exact ⟨hsizes, hiff.mp (by decide) hready hpass⟩

/-- A tagged message that is all header: 18 bytes have been counted behind the
    MPA header, of a ULPDU of 14. -/
theorem read_sizes_negative :
    let bs : List UInt8 := [0, 14, 0xC1, 0x40, 0, 0, 0, 7, 0, 0, 0, 0, 0, 0, 0x50, 0x00, 0, 0, 0, 0]
    let ctx : DdpCtx := ⟨{ pending := bs, eof := false }, ⟨[], []⟩, fun _ => ⟨[], 1⟩,
      Function.update (fun _ => none) 7 (some ⟨⟨7, 0⟩, 0x5000, 4⟩)⟩
    let msg : DdpMessage := ⟨0, fun _ => 0, .untag ⟨0, 0⟩, 0⟩
    ddpRecvSizes ctx msg = [2, 1, 13, 0, 4, -4] ∧ toSize (-4) = 2 ^ 64 - 4 ∧
      ¬(∀ x ∈ ddpRecvSizes ctx msg, 0 ≤ x ∧ x ≤ 65535) := by
  intro bs ctx msg
  have hsizes : ddpRecvSizes ctx msg = [2, 1, 13, 0, 4, -4] := by decide +kernel
  refine ⟨hsizes, by decide, ?_⟩
  rw [hsizes]
  decide

end SoftUiWarp
