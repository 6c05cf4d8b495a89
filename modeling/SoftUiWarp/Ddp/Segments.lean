import SoftUiWarp.Ddp.Model
import SoftUiWarp.Mpa.Fpdu
import SoftUiWarp.Mpa.Outcome

/-!
# The segments `ddp_recv` takes off an arbitrary stream

What the payload loop does on any bytes, handed out in any pieces: at the
start of each segment it reads a header, of which fewer bytes may arrive than
the struct has, then it stores what follows at the destination the header
field gives. A segment without payload has no length left, so the next bytes
of the stream, whatever they are, are stored there.

Results:
* `segLoop_stop`, `segLoop_last`, `segLoop_hdr_stop`, `segLoop_next`: one round.
* `placed_of_segLoop`: every store of a run belongs to a segment of the stream.
* `segLoop_places`: with everything ready every segment is stored.
-/

namespace SoftUiWarp

open TcpStream ByteMem

/-! ## Segments on the stream -/

namespace Fpdu

/-- The DDP control byte. -/
def ctrl (f : Fpdu) : UInt8 := f.ulpdu.getD 0 0

/-- The L bit. -/
def last (f : Fpdu) : Bool := f.ctrl &&& ddpFlagLast != 0

/-- The first `H` bytes, the segment's header. -/
def hdr (H : ℕ) (f : Fpdu) : List UInt8 := f.ulpdu.take H

/-- What follows a header of `H` bytes. -/
def payload (H : ℕ) (f : Fpdu) : List UInt8 := f.ulpdu.drop H

theorem length_hdr {H : ℕ} {f : Fpdu} (h : H ≤ f.len) : (f.hdr H).length = H := by
  simpa [hdr, len] using h

theorem length_payload (H : ℕ) (f : Fpdu) : (f.payload H).length = f.len - H := by
  simp [payload, len]

theorem getD_hdr {H : ℕ} (h : 0 < H) (f : Fpdu) : (f.hdr H).getD 0 0 = f.ctrl := by
  simp [hdr, ctrl, h]

end Fpdu

/-- The bytes of a list of packets. -/
def wireOf (fs : List Fpdu) : List UInt8 := fs.flatMap Fpdu.wire

@[simp] theorem wireOf_nil : wireOf [] = [] := rfl

@[simp] theorem wireOf_cons (f : Fpdu) (fs : List Fpdu) :
    wireOf (f :: fs) = f.wire ++ wireOf fs := rfl

theorem length_le_length_wireOf (fs : List Fpdu) : fs.length ≤ (wireOf fs).length := by
  induction fs with
  | nil => simp
  | cons f fs ih =>
    have := f.length_wire
    rw [wireOf_cons, List.length_append, List.length_cons]
    omega

/-- The header bytes the segment at the front of `t` arrives with. -/
def segRaw (H : ℕ) (t : List UInt8) : List UInt8 := (t.drop 2).take (min H (segLen t))

/-- The position after the header, and after the trailer if the ULPDU holds no more. -/
def hdrEnd (H : ℕ) (t : List UInt8) : ℕ := 2 + bodyEnd (segLen t) 0 H

/-- The most bytes that are stored for the segment at the front of `t`: the
    payload bytes the stream has, or everything that follows when the ULPDU
    holds no payload. -/
def segCount (H : ℕ) (t : List UInt8) : ℕ :=
  if H < segLen t then min (segLen t - H) (t.length - hdrEnd H t)
  else if segLen t = 0 then 0 else min maxRwCount (t.length - hdrEnd H t)

theorem segCount_pos {H : ℕ} {t : List UInt8} (h : 0 < segCount H t) :
    0 < segLen t ∧ hdrEnd H t ≤ t.length := by
  simp only [segCount] at h
  split_ifs at h <;> omega

theorem segLen_wire (f : Fpdu) (rest : List UInt8) : segLen (f.wire ++ rest) = f.len := by
  rw [segLen, segField, Fpdu.wire, List.append_assoc, List.take_left' (length_bytes16 _),
    word16_bytes16, ntohs_htons, f.toNat_len]

/-- The packet at the front of the stream can be told from the bytes. -/
theorem Fpdu.wire_append_inj {f g : Fpdu} {r r' : List UInt8} (h : f.wire ++ r = g.wire ++ r') :
    f = g ∧ r = r' := by
  have hlen : f.len = g.len := by rw [← segLen_wire f r, h, segLen_wire]
  obtain ⟨hwire, hr⟩ := List.append_inj h (by rw [f.length_wire, g.length_wire, hlen])
  unfold Fpdu.wire at hwire
  rw [hlen] at hwire
  obtain ⟨hu, ht⟩ := List.append_inj (List.append_cancel_left hwire) hlen
  refine ⟨?_, hr⟩
  cases f
  cases g
  cases hu
  cases ht
  rfl

theorem segRaw_wire {H : ℕ} {f : Fpdu} (h : H ≤ f.len) (rest : List UInt8) :
    segRaw H (f.wire ++ rest) = f.hdr H := by
  rw [segRaw, segLen_wire, Nat.min_eq_left h, Fpdu.wire, List.append_assoc,
    List.drop_left' (length_bytes16 _), List.append_assoc, List.take_append_of_le_length h]
  rfl

theorem ctrl_wire (f : Fpdu) (rest : List UInt8) : (f.wire ++ rest).getD 2 0 = f.ctrl := by
  have hpos := f.ulpdu_pos
  have hdrop : (f.wire ++ rest).drop 2 = f.ulpdu ++ (f.trailer ++ rest) := by
    rw [Fpdu.wire, List.append_assoc, List.drop_left' (length_bytes16 _), List.append_assoc]
  have h := congrArg (fun l => l.getD 0 0) hdrop
  simp only [List.getD_eq_getElem?_getD, List.getElem?_drop] at h
  rw [List.getD_eq_getElem?_getD, Fpdu.ctrl, List.getD_eq_getElem?_getD, h,
    List.getElem?_append_left hpos]

theorem hdrEnd_wire {H : ℕ} {f : Fpdu} (h : H < f.len) (rest : List UInt8) :
    hdrEnd H (f.wire ++ rest) = 2 + H := by
  rw [hdrEnd, segLen_wire, bodyEnd, if_pos (by omega)]

/-- A packet that has arrived in full. -/
theorem exists_fpdu {t : List UInt8} (h0 : 0 < segLen t)
    (h : 2 + segLen t + padLen (segLen t) + 4 ≤ t.length) :
    ∃ f rest, t = Fpdu.wire f ++ rest ∧ f.len = segLen t := by
  have hlt : segLen t < 2 ^ 16 := (segField t).toNat_lt
  obtain ⟨u, hu⟩ : ∃ u, u = (t.drop 2).take (segLen t) := ⟨_, rfl⟩
  obtain ⟨tr, htr⟩ : ∃ tr, tr = (t.drop (2 + segLen t)).take (padLen (segLen t) + 4) := ⟨_, rfl⟩
  have hul : u.length = segLen t := by simp [hu]; omega
  have htl : tr.length = padLen (segLen t) + 4 := by simp [htr]; omega
  refine ⟨⟨u, tr, by omega, by omega, by rw [hul, htl]⟩,
    t.drop (2 + segLen t + (padLen (segLen t) + 4)), ?_, hul⟩
  have h2 : (t.take 2).length = 2 := by simp; omega
  have hfield : bytes16 (htons (UInt16.ofNat u.length)) = t.take 2 := by
    rw [hul, segLen, UInt16.ofNat_toNat, segField, htons_ntohs, bytes16_word16 h2]
  change t = bytes16 (htons (UInt16.ofNat u.length)) ++ (u ++ tr) ++ _
  have h1 := List.take_append_drop (padLen (segLen t) + 4) (t.drop (2 + segLen t))
  have h2 := List.take_append_drop (segLen t) (t.drop 2)
  rw [List.drop_drop] at h1 h2
  rw [hfield, hu, htr, List.append_assoc, List.append_assoc, h1, h2, List.take_append_drop]

/-! ## The header field -/

/-- How the offset field of `packed_hdr` evolves: `val` is the field in host
    order and `next v raw` its value after the header bytes `raw` were received
    over a field `v` and converted. With fewer bytes than the struct has, part
    of `v` remains and is converted a second time. -/
structure FieldSpec (K : SegKind) (α : Type) where
  size_pos : 0 < K.hdrSize
  size_lt : K.hdrSize < 2 ^ 16
  val : Buf → α
  next : α → List UInt8 → α
  destOf : α → UInt64
  dest_eq : ∀ b : Buf, K.dest b = destOf (val b)
  val_ntoh : ∀ (b : Buf) (raw : List UInt8), raw.length ≤ K.hdrSize →
    val (K.ntoh (b.patch raw.zipIdx)) = next (val b) raw
  ctrl : ∀ (b : Buf) (raw : List UInt8), 0 < raw.length → K.ntoh (b.patch raw.zipIdx) 0 = raw.getD 0 0
  next_full : ∀ (v v' : α) (raw : List UInt8), raw.length = K.hdrSize → next v raw = next v' raw

/-- The control byte is read back from a struct after later fields were set. -/
theorem patch_ctrl (b : Buf) {hdr field : List UInt8} {o : ℕ} (ho : 0 < o) (h : 0 < hdr.length) :
    (b.patch hdr.zipIdx).patch (field.zipIdx o) 0 = hdr.getD 0 0 := by
  rw [Buf.patch_apply, if_neg (by omega), Buf.patch_apply, if_pos (by omega)]

/-- The tagged offset after the header bytes `raw` were received over `v`. -/
def nextTO (v : UInt64) (raw : List UInt8) : UInt64 :=
  ntohll (word64 (raw.drop 6 ++ (bytes64 v).drop (raw.length - 6)))

/-- The message offset after the header bytes `raw` were received over `v`. -/
def nextMO (v : UInt32) (raw : List UInt8) : UInt32 :=
  ntohl (word32 (raw.drop 14 ++ (bytes32 v).drop (raw.length - 14)))

def taggedField : FieldSpec taggedKind UInt64 where
  size_pos := by decide
  size_lt := by decide
  val b := (taggedAt b 1).TO
  next := nextTO
  destOf v := v
  dest_eq _ := rfl
  val_ntoh b raw h := by
    have hp := Buf.bytes_patch_start b (o := 6) (w := 8) h
    simp only [taggedKind, taggedAt, Nat.reduceAdd, nextTO]
    rw [Buf.bytes_patch_self (by simp), word64_bytes64, hp, bytes64_word64 (by simp)]
  ctrl b raw h := patch_ctrl b (by decide) h
  next_full v v' raw h := by
    have hd : ∀ x : UInt64, (bytes64 x).drop (raw.length - 6) = [] := fun x =>
      List.drop_eq_nil_of_le (by rw [h, length_bytes64]; decide)
    rw [nextTO, nextTO, hd, hd]

def untaggedField (data : UInt64) : FieldSpec (untaggedKind data) UInt32 where
  size_pos := by simp [untaggedKind, ddpCtrlSize]
  size_lt := by simp [untaggedKind, ddpCtrlSize, ddpUntaggedHdrSize]
  val b := (untaggedAt b 1).mo
  next := nextMO
  destOf v := data + v.toUInt64
  dest_eq _ := rfl
  val_ntoh b raw h := by
    have hp := Buf.bytes_patch_start b (o := 14) (w := 4) h
    simp only [untaggedKind, untaggedAt, Nat.reduceAdd, nextMO]
    rw [Buf.bytes_patch_self (by simp), word32_bytes32, hp, bytes32_word32 (by simp)]
  ctrl b raw h := patch_ctrl b (by decide) h
  next_full v v' raw h := by
    have hd : ∀ x : UInt32, (bytes32 x).drop (raw.length - 14) = [] := fun x =>
      List.drop_eq_nil_of_le (by
        rw [h, length_bytes32]
        simp [untaggedKind, ddpCtrlSize, ddpUntaggedHdrSize])
    rw [nextMO, nextMO, hd, hd]

/-! ## One round of the payload loop -/

section

variable (K : SegKind) {fuel : ℕ} {s : Inbound} {c : SegCtx} {len : ℤ} {acc : List Placement}

/-- The payload call of a round. -/
def payloadCall (s : Inbound) (c : SegCtx) : MpaOut := mpaRecv s c.info c.payloadLen

/-- The header call of a round. -/
def headerCall (s : Inbound) (c : SegCtx) : MpaOut :=
  mpaRecv (payloadCall s c).inb { (payloadCall s c).info with bytesRcvd := 0 } K.hdrSize

/-- What a round stores. -/
def roundPlacement (s : Inbound) (c : SegCtx) : Placement :=
  ⟨c.raw, K.dest c.packed, (payloadCall s c).writes⟩

/-- The loop's variables after the header call. -/
def nextCtx (s : Inbound) (c : SegCtx) : SegCtx :=
  ⟨(headerCall K s c).info, (headerCall K s c).info.ulpduLen.toNat - K.hdrSize,
    K.ntoh (c.packed.patch (headerCall K s c).writes), (headerCall K s c).writes.map Prod.fst⟩

/-- What the loop returns for a call that failed. -/
def failRet : Ret → Ret
  | .val _ => .val (-1)
  | r => r

theorem not_ok_failRet {x : Ret} : ¬(failRet x).Ok := by
  cases x with
  | val r => exact not_ok_neg_one
  | blocked => exact not_ok_blocked
  | spin => exact not_ok_spin

theorem segLoop_stop (h : ¬(payloadCall s c).ret.Ok) :
    segLoop K (fuel + 1) s c len acc =
      ⟨failRet (payloadCall s c).ret, len + c.payloadLen, (payloadCall s c).inb,
        acc ++ [roundPlacement K s c]⟩ := by
  rw [roundPlacement]
  rw [payloadCall] at h ⊢
  rw [segLoop]
  rcases not_ok_cases h with ⟨r, hneg, hr⟩ | hr | hr
  · simp only [hr, if_pos hneg, failRet]
  · simp only [hr, failRet]
  · simp only [hr, failRet]

theorem segLoop_last (h : (payloadCall s c).ret.Ok) (hl : c.packed 0 &&& ddpFlagLast ≠ 0) :
    segLoop K (fuel + 1) s c len acc =
      ⟨.val 0, len + c.payloadLen, (payloadCall s c).inb, acc ++ [roundPlacement K s c]⟩ := by
  obtain ⟨r, hr0, hr⟩ := h
  rw [payloadCall] at hr
  rw [segLoop]
  simp only [hr, if_neg (show ¬r < 0 by omega), if_pos hl]
  rfl

theorem segLoop_hdr_stop (h : (payloadCall s c).ret.Ok) (hl : ¬c.packed 0 &&& ddpFlagLast ≠ 0)
    (h2 : ¬(headerCall K s c).ret.Ok) :
    segLoop K (fuel + 1) s c len acc =
      ⟨failRet (headerCall K s c).ret, len + c.payloadLen, (headerCall K s c).inb,
        acc ++ [roundPlacement K s c]⟩ := by
  obtain ⟨r, hr0, hr⟩ := h
  rw [roundPlacement]
  rw [payloadCall] at hr
  rw [headerCall, payloadCall] at h2 ⊢
  rw [segLoop]
  simp only [hr, if_neg (show ¬r < 0 by omega), if_neg hl]
  rcases not_ok_cases h2 with ⟨r2, hneg, hr2⟩ | hr2 | hr2
  · simp only [hr2, if_pos hneg, failRet]
  · simp only [hr2, failRet]
  · simp only [hr2, failRet]

theorem segLoop_next (h : (payloadCall s c).ret.Ok) (hl : ¬c.packed 0 &&& ddpFlagLast ≠ 0)
    (h2 : (headerCall K s c).ret.Ok) :
    segLoop K (fuel + 1) s c len acc =
      segLoop K fuel (headerCall K s c).inb (nextCtx K s c) (len + c.payloadLen)
        (acc ++ [roundPlacement K s c]) := by
  obtain ⟨r, hr0, hr⟩ := h
  obtain ⟨r2, hr20, hr2⟩ := h2
  rw [payloadCall] at hr
  rw [headerCall, payloadCall] at hr2
  rw [segLoop]
  simp only [hr, if_neg (show ¬r < 0 by omega), if_neg hl, hr2, if_neg (show ¬r2 < 0 by omega)]
  rfl

end

/-! ## The state at a segment -/

/-- The stream `s₀` starts with a segment whose header has been read over the
    field value `v`; `s` and `c` are the reader and the loop's variables after
    that. -/
structure AtHead {K : SegKind} {α : Type} (S : FieldSpec K α) (v : α) (s₀ s : Inbound)
    (c : SegCtx) : Prop where
  pos : 0 < segLen s₀.pending
  avail : hdrEnd K.hdrSize s₀.pending ≤ s₀.pending.length
  inb : s = s₀.advance (hdrEnd K.hdrSize s₀.pending)
  info : c.info = ⟨segField s₀.pending, hdrEnd K.hdrSize s₀.pending⟩
  payloadLen : c.payloadLen = segLen s₀.pending - K.hdrSize
  raw : c.raw = segRaw K.hdrSize s₀.pending
  ctrl : c.packed 0 = s₀.pending.getD 2 0
  val : S.val c.packed = S.next v c.raw

section

variable {K : SegKind} {α : Type} {S : FieldSpec K α} {v : α} {s₀ s : Inbound} {c : SegCtx}

theorem AtHead.payloadCall_long (h : AtHead S v s₀ s c) (hH : K.hdrSize < segLen s₀.pending) :
    payloadCall s c =
      mpaRecvBody s ⟨segField s₀.pending, 2 + K.hdrSize⟩
        (segLen s₀.pending - K.hdrSize : ℕ) := by
  have hend : hdrEnd K.hdrSize s₀.pending = 2 + K.hdrSize := by
    rw [hdrEnd, bodyEnd, if_pos (by omega)]
  rw [payloadCall, h.info, h.payloadLen, mpaRecv, if_neg (by simp only [mpaHdrSize]; omega), hend,
    Nat.cast_sub hH.le]
  push_cast
  rfl

theorem AtHead.payloadCall_over (h : AtHead S v s₀ s c) (hf : s.FailFree)
    (hH : ¬K.hdrSize < segLen s₀.pending) :
    (payloadCall s c).ret = overRet s (.val (-1)) ∧
      (payloadCall s c).writes = (s.pending.take (overCount s)).zipIdx ∧
      (payloadCall s c).inb = s.advance (overCount s) := by
  have hpos := h.pos
  have hsize := S.size_lt
  have hpad := padLen_lt (segLen s₀.pending)
  have hend : hdrEnd K.hdrSize s₀.pending =
      2 + (segLen s₀.pending + padLen (segLen s₀.pending) + 4) := by
    rw [hdrEnd, bodyEnd, if_neg (by omega)]
    omega
  rw [payloadCall, h.info, h.payloadLen, mpaRecv, if_neg (by simp only [mpaHdrSize]; omega)]
  rw [mpaRecvBody_over ⟨segField s₀.pending, _⟩ hf rfl ?_ ?_ hpos]
  · exact ⟨rfl, rfl, rfl⟩
  · simp only [hend]
    push_cast
    simp only [segLen]
    omega
  · simp only [hend]
    push_cast
    simp only [segLen] at hpad ⊢
    omega

theorem AtHead.failFree (h : AtHead S v s₀ s c) (hf : s₀.FailFree) : s.FailFree := by
  rw [h.inb]
  exact hf.advance _

theorem AtHead.length_pending (h : AtHead S v s₀ s c) :
    s.pending.length = s₀.pending.length - hdrEnd K.hdrSize s₀.pending := by
  rw [h.inb, advance_pending, List.length_drop]

theorem AtHead.payload_writes_long (h : AtHead S v s₀ s c) (hf : s₀.FailFree)
    (hH : K.hdrSize < segLen s₀.pending) :
    (payloadCall s c).writes = (s.pending.take (segLen s₀.pending - K.hdrSize)).zipIdx := by
  have hmax := segLen_le_maxRwCount s₀.pending
  have hmin : min (segLen s₀.pending - K.hdrSize) ((segField s₀.pending).toNat - K.hdrSize) =
      segLen s₀.pending - K.hdrSize := by
    simp only [segLen]
    omega
  rw [h.payloadCall_long hH, mpaRecvBody_writes (h.failFree hf) h.pos hH.le (by omega), hmin]

/-- What a round stores: the payload bytes the stream has, or, for a segment
    without payload, what follows it. -/
theorem AtHead.payload_writes (h : AtHead S v s₀ s c) (hf : s₀.FailFree) :
    ∃ bytes : List UInt8, (payloadCall s c).writes = bytes.zipIdx ∧
      bytes.length ≤ segCount K.hdrSize s₀.pending ∧
      ((∀ p, maxRwCount ≤ s₀.ready p) → bytes.length = segCount K.hdrSize s₀.pending) := by
  have hsl := h.length_pending
  by_cases hH : K.hdrSize < segLen s₀.pending
  · refine ⟨_, h.payload_writes_long hf hH, ?_⟩
    rw [List.length_take, hsl, segCount, if_pos hH]
    exact ⟨le_rfl, fun _ => rfl⟩
  · obtain ⟨-, hw, -⟩ := h.payloadCall_over (h.failFree hf) hH
    have hpos := h.pos
    have hready : s.ready = s₀.ready := by rw [h.inb, advance_ready]
    refine ⟨s.pending.take (overCount s), hw, ?_⟩
    rw [List.length_take, segCount, if_neg hH, if_neg (by omega), overCount, ← hsl, hready]
    refine ⟨by omega, fun hfull => ?_⟩
    have := hfull s.pos
    omega

/-- A payload call that succeeds has read a whole packet with payload. -/
theorem AtHead.payload_ok (h : AtHead S v s₀ s c) (hf : s₀.FailFree)
    (hok : (payloadCall s c).ret.Ok) :
    ∃ f rest, s₀.pending = Fpdu.wire f ++ rest ∧ K.hdrSize < f.len ∧
      (payloadCall s c).inb = s₀.advance f.wire.length := by
  have hsf := h.failFree hf
  have hmax := segLen_le_maxRwCount s₀.pending
  by_cases hH : K.hdrSize < segLen s₀.pending
  · have hend : hdrEnd K.hdrSize s₀.pending = 2 + K.hdrSize := by
      rw [hdrEnd, bodyEnd, if_pos (by omega)]
    have hav := h.avail
    rw [h.payloadCall_long hH] at hok ⊢
    by_cases hr : BodyReady s (segField s₀.pending).toNat K.hdrSize
        (segLen s₀.pending - K.hdrSize)
    · have hlen := hr.avail
      change bodyEnd (segLen s₀.pending) _ _ ≤ _ at hlen
      rw [bodyEnd, if_neg (by omega), h.inb, advance_pending, List.length_drop, hend] at hlen
      obtain ⟨f, rest, ht, hfl⟩ := exists_fpdu h.pos (by omega)
      refine ⟨f, rest, ht, by omega, ?_⟩
      rw [mpaRecvBody_of_ready hsf h.pos hH.le (by omega) hr]
      change s.advance (bodyEnd (segLen s₀.pending) _ _) = _
      rw [h.inb, advance_advance, hend, bodyEnd, if_neg (by omega), f.length_wire, hfl]
      congr 1
      omega
    · exact absurd hok (mpaRecvBody_of_not_ready hsf h.pos hH.le (by omega) hr).1
  · rw [(h.payloadCall_over hsf hH).1] at hok
    exact absurd hok not_ok_overRet

/-- On a complete packet with payload the call succeeds exactly when the
    trailer is not cut. -/
theorem AtHead.bodyReady_wire (h : AtHead S v s₀ s c) {f : Fpdu} {rest : List UInt8}
    (ht : s₀.pending = f.wire ++ rest) (hH : K.hdrSize < f.len) :
    BodyReady s f.len K.hdrSize (f.len - K.hdrSize) ↔ TrailerReady s₀.ready s₀.pos f.len := by
  have hwire := f.length_wire
  have hinb : s = s₀.advance (2 + K.hdrSize) := by rw [h.inb, ht, hdrEnd_wire hH]
  have hp : s.pos + (f.len - K.hdrSize) = s₀.pos + 2 + f.len := by
    rw [hinb, advance_pos]
    omega
  have hr : s.ready = s₀.ready := by rw [hinb, advance_ready]
  constructor
  · intro hb
    obtain ⟨h1, h2⟩ := hb.trailer (by omega)
    rw [hp, hr] at h1 h2
    exact ⟨h1, h2⟩
  · rintro ⟨h1, h2⟩
    refine ⟨?_, fun _ => by rw [hp, hr]; exact ⟨h1, h2⟩⟩
    rw [bodyEnd, if_neg (by omega), hinb, advance_pending, ht, List.length_drop,
      List.length_append]
    omega

theorem AtHead.payload_wire (h : AtHead S v s₀ s c) (hf : s₀.FailFree) {f : Fpdu}
    {rest : List UInt8} (ht : s₀.pending = f.wire ++ rest) (hH : K.hdrSize < f.len)
    (hr : TrailerReady s₀.ready s₀.pos f.len) :
    (payloadCall s c).ret.Ok ∧ (payloadCall s c).inb = s₀.advance f.wire.length := by
  have hL : segLen s₀.pending = f.len := by rw [ht, segLen_wire]
  have hF : (segField s₀.pending).toNat = f.len := hL
  have hmax := f.len_le_maxRwCount
  have hcall := h.payloadCall_long (by omega)
  rw [hL] at hcall
  rw [hcall, mpaRecvBody_of_ready (h.failFree hf) h.pos (by omega) (by omega)
    (by rw [hF]; exact (h.bodyReady_wire ht hH).mpr hr)]
  refine ⟨⟨_, by positivity, rfl⟩, ?_⟩
  change s.advance (bodyEnd (segField s₀.pending).toNat _ _) = _
  rw [hF, bodyEnd, if_neg (by omega), h.inb, ht, hdrEnd_wire hH, advance_advance, f.length_wire]
  congr 1
  omega

/-- A payload call whose trailer is cut stops inside the packet. -/
theorem AtHead.payload_wire_cut (h : AtHead S v s₀ s c) (hf : s₀.FailFree) {f : Fpdu}
    {rest : List UInt8} (ht : s₀.pending = f.wire ++ rest) (hH : K.hdrSize < f.len)
    (hr : ¬TrailerReady s₀.ready s₀.pos f.len) :
    ¬(payloadCall s c).ret.Ok ∧ ∃ j < f.wire.length, (payloadCall s c).inb = s₀.advance j := by
  have hL : segLen s₀.pending = f.len := by rw [ht, segLen_wire]
  have hF : (segField s₀.pending).toNat = f.len := hL
  have hmax := f.len_le_maxRwCount
  have hwire := f.length_wire
  have hcall := h.payloadCall_long (by omega)
  rw [hL] at hcall
  obtain ⟨h1, -, j, hj, h2⟩ := mpaRecvBody_of_not_ready (k := K.hdrSize) (h.failFree hf) h.pos
    (by omega) (show f.len - K.hdrSize ≤ maxRwCount by omega)
    (by rw [hF]; exact fun hb => hr ((h.bodyReady_wire ht hH).mp hb))
  rw [hF, bodyEnd, if_neg (by omega)] at hj
  rw [hcall]
  refine ⟨h1, 2 + K.hdrSize + j, by omega, ?_⟩
  rw [h2, h.inb, ht, hdrEnd_wire hH, advance_advance]

theorem FieldSpec.size_le (S : FieldSpec K α) : K.hdrSize ≤ maxRwCount := by
  have h1 := S.size_lt
  have h2 : 2 ^ 16 ≤ maxRwCount := by decide
  omega

theorem headerCall_of_ready (S : FieldSpec K α) (hf : (payloadCall s c).inb.FailFree)
    (hr : HdrReady (payloadCall s c).inb K.hdrSize) :
    headerCall K s c =
      bodyOut ((payloadCall s c).inb.advance 2) (segField (payloadCall s c).inb.pending) 0
        K.hdrSize :=
  mpaRecv_of_ready hf rfl S.size_le hr

theorem headerCall_ok (S : FieldSpec K α) (hf : (payloadCall s c).inb.FailFree)
    (hr : HdrReady (payloadCall s c).inb K.hdrSize) : (headerCall K s c).ret.Ok := by
  rw [headerCall_of_ready S hf hr]
  exact ⟨_, by positivity, rfl⟩

theorem headerCall_of_not_ready (S : FieldSpec K α) (hf : (payloadCall s c).inb.FailFree)
    (hr : ¬HdrReady (payloadCall s c).inb K.hdrSize) :
    ¬(headerCall K s c).ret.Ok ∧
      ∃ j < hdrEnd K.hdrSize (payloadCall s c).inb.pending,
        (headerCall K s c).inb = (payloadCall s c).inb.advance j :=
  mpaRecv_of_not_ready hf rfl S.size_le hr

/-- A header call that succeeds leads to the next segment. -/
theorem atHead_of_headerCall (S : FieldSpec K α) (hf : (payloadCall s c).inb.FailFree)
    (hok : (headerCall K s c).ret.Ok) :
    AtHead S (S.val c.packed) (payloadCall s c).inb (headerCall K s c).inb (nextCtx K s c) := by
  have hready : HdrReady (payloadCall s c).inb K.hdrSize := by
    by_contra hn
    exact (headerCall_of_not_ready S hf hn).1 hok
  have hcall := headerCall_of_ready S hf hready
  generalize (payloadCall s c).inb = s₁ at hready hcall ⊢
  have hav := hready.avail
  have hbody := hready.body.avail
  have hpos := hready.pos
  have hsize := S.size_pos
  rw [advance_pending, List.length_drop] at hbody
  have hraw : (headerCall K s c).writes = (segRaw K.hdrSize s₁.pending).zipIdx := by
    rw [hcall]
    rfl
  have hrlen : (segRaw K.hdrSize s₁.pending).length = min K.hdrSize (segLen s₁.pending) := by
    have hle : min K.hdrSize (segLen s₁.pending) ≤ bodyEnd (segLen s₁.pending) 0 K.hdrSize := by
      rw [bodyEnd]
      split_ifs <;> omega
    rw [segRaw, List.length_take, List.length_drop]
    omega
  refine ⟨hpos, by rw [hdrEnd]; omega, ?_, ?_, ?_, ?_, ?_, ?_⟩
  · rw [hcall]
    exact advance_advance _ _
  · rw [nextCtx, hcall]
    simp only [bodyOut, hdrEnd, segLen, MpaPacket.mk.injEq, true_and]
    push_cast
    omega
  · rw [nextCtx, hcall]
    rfl
  · rw [nextCtx, hraw]
    exact List.zipIdx_map_fst _ _
  · rw [nextCtx, hraw]
    refine (S.ctrl _ _ (by omega)).trans ?_
    rw [segRaw, List.getD_eq_getElem?_getD, List.getD_eq_getElem?_getD, List.getElem?_take,
      if_pos (by omega), List.getElem?_drop]
  · rw [nextCtx, hraw]
    simp only [List.zipIdx_map_fst]
    exact S.val_ntoh _ _ (by omega)

/-! ## Runs of the loop -/

/-- The field value after the headers of complete segments. -/
def FieldSpec.after (S : FieldSpec K α) (v : α) (fs : List Fpdu) : α :=
  fs.foldl (fun v f => S.next v (f.hdr K.hdrSize)) v

/-- `t` is where a segment starts that a message beginning at the front of `bs`
    goes on with: the packets before it are complete, have payload, and none
    is the last of the message. -/
def SegmentAt (K : SegKind) (bs : List UInt8) (fs : List Fpdu) (t : List UInt8) : Prop :=
  bs = wireOf fs ++ t ∧ ∀ f ∈ fs, K.hdrSize < f.len ∧ f.last = false

theorem SegmentAt.cons {bs t : List UInt8} {f : Fpdu} {fs : List Fpdu} (h : SegmentAt K bs fs t)
    (hH : K.hdrSize < f.len) (hl : f.last = false) :
    SegmentAt K (f.wire ++ bs) (f :: fs) t := by
  refine ⟨by rw [h.1, wireOf_cons, List.append_assoc], fun g hg => ?_⟩
  rcases List.mem_cons.mp hg with rfl | hg
  · exact ⟨hH, hl⟩
  · exact h.2 g hg

/-- The placement of `bytes` for the segment at the front of `t`. -/
def segPlacement (S : FieldSpec K α) (v : α) (t bytes : List UInt8) : Placement :=
  ⟨segRaw K.hdrSize t, S.destOf (S.next v (segRaw K.hdrSize t)), bytes.zipIdx⟩

/-- The placement of a complete segment. -/
def FieldSpec.placement (S : FieldSpec K α) (v : α) (f : Fpdu) : Placement :=
  ⟨f.hdr K.hdrSize, S.destOf (S.next v (f.hdr K.hdrSize)), (f.payload K.hdrSize).zipIdx⟩

/-- What is pending after the header of a complete segment. -/
theorem pending_after_hdr {f : Fpdu} {rest : List UInt8} {H : ℕ}
    (hp : s.pending = f.wire ++ rest) (hH : H ≤ f.len) :
    (s.advance (2 + H)).pending = f.payload H ++ (f.trailer ++ rest) := by
  rw [advance_pending, hp, Fpdu.wire, List.append_assoc, ← List.drop_drop,
    List.drop_left' (length_bytes16 _), List.append_assoc, List.drop_append_of_le_length hH]
  rfl

/-- A complete segment with payload is placed whole. -/
theorem AtHead.roundPlacement_wire (h : AtHead S v s₀ s c) (hf : s₀.FailFree) (w : α) {f : Fpdu}
    {rest : List UInt8} (ht : s₀.pending = f.wire ++ rest) (hH : K.hdrSize < f.len) :
    roundPlacement K s c = S.placement w f := by
  have hL : segLen s₀.pending = f.len := by rw [ht, segLen_wire]
  have hs : s.pending = f.payload K.hdrSize ++ (f.trailer ++ rest) := by
    rw [h.inb, ht, hdrEnd_wire hH]
    exact pending_after_hdr ht hH.le
  have hw := h.payload_writes_long hf (by omega)
  rw [hL, hs, List.take_left' (Fpdu.length_payload _ _)] at hw
  rw [roundPlacement, FieldSpec.placement, S.dest_eq, h.val, h.raw, hw, ht, segRaw_wire hH.le,
    S.next_full v w _ (Fpdu.length_hdr hH.le)]

theorem AtHead.roundPlacement_eq (h : AtHead S v s₀ s c) {bytes : List UInt8}
    (hw : (payloadCall s c).writes = bytes.zipIdx) :
    roundPlacement K s c = segPlacement S v s₀.pending bytes := by
  rw [roundPlacement, segPlacement, S.dest_eq, h.val, h.raw, hw]

theorem AtHead.last_eq (h : AtHead S v s₀ s c) {f : Fpdu} {rest : List UInt8}
    (ht : s₀.pending = f.wire ++ rest) : f.last = (c.packed 0 &&& ddpFlagLast != 0) := by
  rw [h.ctrl, ht, ctrl_wire]
  rfl

/-- Every placement of a run is that of a segment of the stream, and holds no
    more bytes than the segment allows. -/
theorem placed_of_segLoop : ∀ (fuel : ℕ) (v : α) (s₀ s : Inbound) (c : SegCtx) (len : ℤ)
    (acc : List Placement), s₀.FailFree → AtHead S v s₀ s c →
      ∃ ps, (segLoop K fuel s c len acc).placed = acc ++ ps ∧
        ∀ p ∈ ps, ∃ fs t bytes, SegmentAt K s₀.pending fs t ∧
          bytes.length ≤ segCount K.hdrSize t ∧ p = segPlacement S (S.after v fs) t bytes := by
  intro fuel
  induction fuel with
  | zero => intro v s₀ s c len acc _ _; exact ⟨[], by simp [segLoop], by simp⟩
  | succ fuel ih =>
    intro v s₀ s c len acc hf h
    -- the placement of this round
    obtain ⟨bytes, hw, hlen, -⟩ := h.payload_writes hf
    have hp := h.roundPlacement_eq hw
    have hhere : ∀ p ∈ [roundPlacement K s c], ∃ fs t bytes, SegmentAt K s₀.pending fs t ∧
        bytes.length ≤ segCount K.hdrSize t ∧ p = segPlacement S (S.after v fs) t bytes := by
      intro p hmem
      rw [List.mem_singleton.mp hmem, hp]
      exact ⟨[], s₀.pending, bytes, ⟨rfl, by simp⟩, hlen, rfl⟩
    by_cases hok : (payloadCall s c).ret.Ok
    · by_cases hl : c.packed 0 &&& ddpFlagLast ≠ 0
      · rw [segLoop_last K hok hl]
        exact ⟨_, rfl, hhere⟩
      · by_cases hok2 : (headerCall K s c).ret.Ok
        · obtain ⟨f, rest, ht, hH, hinb⟩ := h.payload_ok hf hok
          have hpf : (payloadCall s c).inb.FailFree := by rw [hinb]; exact hf.advance _
          have hnext := atHead_of_headerCall S hpf hok2
          obtain ⟨ps, hps, hall⟩ := ih (S.val c.packed) _ _ _ (len + c.payloadLen)
            (acc ++ [roundPlacement K s c]) hpf hnext
          refine ⟨roundPlacement K s c :: ps, ?_, ?_⟩
          · rw [segLoop_next K hok hl hok2, hps, List.append_assoc]
            rfl
          · intro p hmem
            rcases List.mem_cons.mp hmem with rfl | hmem
            · exact hhere _ (by simp)
            · obtain ⟨fs, t, bs, hseg, hbs, hpe⟩ := hall p hmem
              have hlast : f.last = false := by simpa [h.last_eq ht] using hl
              have hrest : (payloadCall s c).inb.pending = rest := by
                rw [hinb, advance_pending, ht, List.drop_left]
              rw [hrest] at hseg
              refine ⟨f :: fs, t, bs, ?_, hbs, ?_⟩
              · rw [ht]
                exact hseg.cons hH hlast
              · rw [hpe, h.val, h.raw, ht, segRaw_wire hH.le]
                rfl
        · rw [segLoop_hdr_stop K hok hl hok2]
          exact ⟨_, rfl, hhere⟩
    · rw [segLoop_stop K hok]
      exact ⟨_, rfl, hhere⟩

/-- The accumulator of a run is a prefix of its placements. -/
theorem segLoop_placed_extends : ∀ (fuel : ℕ) (s : Inbound) (c : SegCtx) (len : ℤ)
    (acc : List Placement), acc <+: (segLoop K fuel s c len acc).placed := by
  intro fuel
  induction fuel with
  | zero => intro s c len acc; exact List.prefix_rfl
  | succ fuel ih =>
    intro s c len acc
    by_cases hok : (payloadCall s c).ret.Ok
    · by_cases hl : c.packed 0 &&& ddpFlagLast ≠ 0
      · rw [segLoop_last K hok hl]
        exact List.prefix_append _ _
      · by_cases hok2 : (headerCall K s c).ret.Ok
        · rw [segLoop_next K hok hl hok2]
          exact (List.prefix_append _ _).trans (ih _ _ _ _)
        · rw [segLoop_hdr_stop K hok hl hok2]
          exact List.prefix_append _ _
    · rw [segLoop_stop K hok]
      exact List.prefix_append _ _

theorem mem_placed_of_round (fuel : ℕ) (s : Inbound) (c : SegCtx) (len : ℤ)
    (acc : List Placement) :
    roundPlacement K s c ∈ (segLoop K (fuel + 1) s c len acc).placed := by
  by_cases hok : (payloadCall s c).ret.Ok
  · by_cases hl : c.packed 0 &&& ddpFlagLast ≠ 0
    · rw [segLoop_last K hok hl]
      simp
    · by_cases hok2 : (headerCall K s c).ret.Ok
      · rw [segLoop_next K hok hl hok2]
        exact (segLoop_placed_extends fuel _ _ _ _).subset (by simp)
      · rw [segLoop_hdr_stop K hok hl hok2]
        simp
  · rw [segLoop_stop K hok]
    simp

/-- With everything ready, each segment of the stream is placed with all the
    bytes it allows. -/
theorem segLoop_places : ∀ (fs : List Fpdu) (t : List UInt8) (fuel : ℕ) (v : α)
    (s₀ s : Inbound) (c : SegCtx) (len : ℤ) (acc : List Placement), s₀.FailFree →
      (∀ p, maxRwCount ≤ s₀.ready p) → SegmentAt K s₀.pending fs t → 0 < segCount K.hdrSize t →
      fs.length < fuel → AtHead S v s₀ s c →
      ∃ bytes, bytes.length = segCount K.hdrSize t ∧
        segPlacement S (S.after v fs) t bytes ∈ (segLoop K fuel s c len acc).placed := by
  intro fs
  induction fs with
  | nil =>
    intro t fuel v s₀ s c len acc hf hfull hseg _ hfuel h
    obtain ⟨fuel, rfl⟩ : ∃ k, fuel = k + 1 := ⟨fuel - 1, by simp at hfuel; omega⟩
    obtain rfl : s₀.pending = t := hseg.1
    obtain ⟨bytes, hw, -, hlen⟩ := h.payload_writes hf
    refine ⟨bytes, hlen hfull, ?_⟩
    rw [FieldSpec.after, List.foldl_nil, ← h.roundPlacement_eq hw]
    exact mem_placed_of_round fuel s c len acc
  | cons f fs ih =>
    intro t fuel v s₀ s c len acc hf hfull hseg hpos hfuel h
    obtain ⟨fuel, rfl⟩ : ∃ k, fuel = k + 1 := ⟨fuel - 1, by simp at hfuel; omega⟩
    obtain ⟨hbs, hfs⟩ := hseg
    have ht : s₀.pending = f.wire ++ (wireOf fs ++ t) := by
      rw [hbs, wireOf_cons, List.append_assoc]
    obtain ⟨hH, hlast⟩ := hfs f (by simp)
    have h4 : ∀ p, 4 ≤ s₀.ready p := by
      intro p
      have h1 : 4 ≤ maxRwCount := by decide
      exact h1.trans (hfull p)
    obtain ⟨hok, hinb⟩ := h.payload_wire hf ht hH (trailerReady_of_le h4 _ _)
    have hl : ¬c.packed 0 &&& ddpFlagLast ≠ 0 := by
      rw [h.last_eq ht] at hlast
      simpa using hlast
    have hpf : (payloadCall s c).inb.FailFree := by rw [hinb]; exact hf.advance _
    have hrest : (payloadCall s c).inb.pending = wireOf fs ++ t := by
      rw [hinb, advance_pending, ht, List.drop_left]
    -- the next header is complete
    have hhdr : 0 < segLen (wireOf fs ++ t) ∧
        hdrEnd K.hdrSize (wireOf fs ++ t) ≤ (wireOf fs ++ t).length := by
      cases fs with
      | nil => exact segCount_pos hpos
      | cons g gs =>
        have hgH := (hfs g (by simp)).1
        have hgw := g.length_wire
        rw [wireOf_cons, List.append_assoc, segLen_wire, hdrEnd_wire hgH, List.length_append]
        omega
    have hready : HdrReady (payloadCall s c).inb K.hdrSize := by
      have hle := hhdr.2
      rw [hdrEnd] at hle
      refine ⟨by rw [hrest]; omega, ?_, by rw [hrest]; exact hhdr.1, bodyReady_of_le ?_ ?_⟩
      · rw [hinb, advance_ready]
        exact le_trans (by omega) (h4 _)
      · intro p
        rw [hinb, advance_ready, advance_ready]
        exact h4 p
      · rw [advance_pending, List.length_drop, hrest]
        omega
    have hok2 := headerCall_ok S hpf hready
    have hnext := atHead_of_headerCall S hpf hok2
    obtain ⟨bytes, hlen, hmem⟩ := ih t fuel (S.val c.packed) _ _ _ (len + c.payloadLen)
      (acc ++ [roundPlacement K s c]) hpf (by rw [hinb, advance_ready]; exact hfull)
      ⟨hrest, fun g hg => hfs g (by simp [hg])⟩ hpos (by simp at hfuel; omega) hnext
    refine ⟨bytes, hlen, ?_⟩
    rw [segLoop_next K hok hl hok2]
    rw [h.val, h.raw, ht, segRaw_wire hH.le] at hmem
    exact hmem

end

end SoftUiWarp
