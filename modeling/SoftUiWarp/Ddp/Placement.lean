import SoftUiWarp.Ddp.Recv

/-!
# Where `ddp_recv` can be made to store

The peer chooses the STag, the offset and the length of every segment. The code
compares the offset of the first segment with the registered buffer and
compares nothing else: not the length, not the continuation segments, not the
length of a posted untagged buffer. A segment without payload makes the bytes
that follow it be stored, whatever they are.

Results:
* `tagged_placement_iff`: all stores of a tagged message are inside the buffers
  its segments name, for every way TCP hands out the stream, exactly when every
  segment of the stream fits its buffer.
* `untagged_placement_iff`: the same for the posted buffer of an untagged
  message.
-/

namespace SoftUiWarp

open TcpStream ByteMem

/-! ## Ranges -/

/-- The address lies in the `len` bytes from `data` on. -/
def InBuffer (data : UInt64) (len : ℕ) (a : UInt64) : Prop :=
  data.toNat ≤ a.toNat ∧ a.toNat < data.toNat + len

/-- The `m` addresses from `dest` on lie in the `len` bytes from `data` on. -/
def RangeFits (data : UInt64) (len : ℕ) (dest : UInt64) (m : ℕ) : Prop :=
  data.toNat ≤ dest.toNat ∧ dest.toNat + m ≤ data.toNat + len ∧ dest.toNat + m ≤ 2 ^ 64

instance (data : UInt64) (len : ℕ) (a : UInt64) : Decidable (InBuffer data len a) :=
  inferInstanceAs (Decidable (_ ∧ _))

instance (data : UInt64) (len : ℕ) (dest : UInt64) (m : ℕ) :
    Decidable (RangeFits data len dest m) :=
  inferInstanceAs (Decidable (_ ∧ _ ∧ _))

theorem toNat_add_ofNat (a : UInt64) (i : ℕ) :
    (a + UInt64.ofNat i).toNat = (a.toNat + i) % 2 ^ 64 := by
  rw [UInt64.toNat_add, UInt64.toNat_ofNat', Nat.add_mod_mod]

/-- A store may wrap around the address space, but then it leaves the buffer. -/
theorem inBuffer_iff {data dest : UInt64} {len m : ℕ} (hlen : len < 2 ^ 64) (hm : 0 < m) :
    (∀ i < m, InBuffer data len (dest + UInt64.ofNat i)) ↔ RangeFits data len dest m := by
  have hd := dest.toNat_lt
  simp only [InBuffer, toNat_add_ofNat, RangeFits]
  constructor
  · intro h
    have h0 := h 0 hm
    have hlast := h (m - 1) (by omega)
    by_cases hw : dest.toNat + m ≤ 2 ^ 64
    · omega
    · -- the last address and address 0 are both written
      have h1 := h (2 ^ 64 - 1 - dest.toNat) (by omega)
      have h2 := h (2 ^ 64 - dest.toNat) (by omega)
      omega
  · rintro ⟨h1, h2, h3⟩ i hi
    omega

section

variable {K : SegKind} {α : Type}

/-- The stores of a segment's placement are at consecutive addresses. -/
theorem mem_segPlacement_stores (S : FieldSpec K α) (v : α) (t bytes : List UInt8) (a : UInt64) :
    (∃ w ∈ (segPlacement S v t bytes).stores, w.1 = a) ↔
      ∃ i < bytes.length, a = S.destOf (S.next v (segRaw K.hdrSize t)) + UInt64.ofNat i := by
  constructor
  · rintro ⟨w, hw, rfl⟩
    obtain ⟨i, hi, rfl⟩ := mem_stores.mp hw
    exact ⟨i, hi, rfl⟩
  · rintro ⟨i, hi, rfl⟩
    exact ⟨_, mem_stores.mpr ⟨i, hi, rfl⟩, rfl⟩

/-- A message that reaches a segment has a complete first header. -/
theorem SegmentAt.hdrEnd_le {bs t : List UInt8} {fs : List Fpdu} (h : SegmentAt K bs fs t)
    (hpos : 0 < segCount K.hdrSize t) : hdrEnd K.hdrSize bs ≤ bs.length := by
  cases fs with
  | nil =>
    obtain rfl : bs = t := h.1
    exact (segCount_pos hpos).2
  | cons f fs =>
    have hf := (h.2 f (by simp)).1
    have hw := f.length_wire
    rw [h.1, wireOf_cons, List.append_assoc, hdrEnd_wire hf, List.length_append]
    omega

theorem SegmentAt.length_lt {bs t : List UInt8} {fs : List Fpdu} (h : SegmentAt K bs fs t) :
    fs.length < bs.length - hdrEnd K.hdrSize bs + 1 := by
  cases fs with
  | nil => simp
  | cons f fs =>
    have hle := length_le_length_wireOf fs
    have hf := (h.2 f (by simp)).1
    have hw := f.length_wire
    rw [h.1, wireOf_cons, List.append_assoc, hdrEnd_wire hf, List.length_append,
      List.length_append, List.length_cons]
    omega

end

/-- A message whose first segment is its last has no other segment. -/
theorem SegmentAt.eq_nil_of_last {K : SegKind} {bs t : List UInt8} {fs : List Fpdu}
    (h : SegmentAt K bs fs t) (hl : bs.getD 2 0 &&& ddpFlagLast ≠ 0) : fs = [] ∧ bs = t := by
  cases fs with
  | nil => exact ⟨rfl, h.1⟩
  | cons f fs =>
    have hlast := (h.2 f (by simp)).2
    rw [h.1, wireOf_cons, List.append_assoc, ctrl_wire] at hl
    rw [Fpdu.last] at hlast
    simp [hl] at hlast

theorem firstReady_of_le {s : Inbound} {H : ℕ} (hH : 2 ≤ H) (h4 : ∀ p, 4 ≤ s.ready p)
    (hL : H ≤ segLen s.pending) (hav : hdrEnd H s.pending ≤ s.pending.length) : FirstReady s H := by
  have hend := bodyEnd_one hH hL
  have h2H : 2 + H ≤ hdrEnd H s.pending := by
    rw [hdrEnd, bodyEnd]
    split_ifs <;> omega
  refine ⟨⟨by omega, le_trans (by omega) (h4 _), by omega, bodyReady_of_le h4 ?_⟩, hL,
    bodyReady_of_le h4 ?_⟩
  · rw [bodyEnd, if_pos (by omega), advance_pending, List.length_drop]
    omega
  · rw [advance_pending, List.length_drop]
    omega

section

variable {K : SegKind} {α : Type} {S : FieldSpec K α} {v : α} {s₀ s : Inbound} {c : SegCtx}
  {fs : List Fpdu} {t : List UInt8}

theorem SegmentAt.firstReady (hseg : SegmentAt K s₀.pending fs t) (hpos : 0 < segCount K.hdrSize t)
    (hH : 2 ≤ K.hdrSize) (hL : K.hdrSize ≤ segLen s₀.pending)
    (hfull : ∀ p, maxRwCount ≤ s₀.ready p) : FirstReady s₀ K.hdrSize :=
  firstReady_of_le hH (fun p => le_trans (by decide) (hfull p)) hL (hseg.hdrEnd_le hpos)

/-- With everything ready every segment is stored whole. -/
theorem AtHead.stores_segment (h : AtHead S v s₀ s c) (hf : s₀.FailFree)
    (hfull : ∀ p, maxRwCount ≤ s₀.ready p) (hseg : SegmentAt K s₀.pending fs t)
    (hpos : 0 < segCount K.hdrSize t) :
    ∃ bytes, bytes.length = segCount K.hdrSize t ∧
      segPlacement S (S.after v fs) t bytes ∈
        (segLoop K (s.pending.length + 1) s c 0 []).placed := by
  have hfuel : fs.length < s.pending.length + 1 := by
    rw [h.length_pending]
    exact hseg.length_lt
  exact segLoop_places fs t _ v s₀ s c 0 [] hf hfull hseg hpos hfuel h

/-- A stored byte is one of the bytes of a segment, at its place. -/
theorem AtHead.stored_in_segment (h : AtHead S v s₀ s c) (hf : s₀.FailFree) {p : Placement}
    (hp : p ∈ (segLoop K (s.pending.length + 1) s c 0 []).placed) {w : UInt64 × UInt8}
    (hw : w ∈ p.stores) :
    ∃ fs t, SegmentAt K s₀.pending fs t ∧ p.raw = segRaw K.hdrSize t ∧
      ∃ i < segCount K.hdrSize t,
        w.1 = S.destOf (S.next (S.after v fs) (segRaw K.hdrSize t)) + UInt64.ofNat i := by
  obtain ⟨ps, hps, hall⟩ := placed_of_segLoop (s.pending.length + 1) v s₀ s c 0 [] hf h
  rw [hps, List.nil_append] at hp
  obtain ⟨fs, t, bytes, hseg, hlen, rfl⟩ := hall p hp
  obtain ⟨i, hi, hwi⟩ := (mem_segPlacement_stores _ _ _ _ _).mp ⟨w, hw, rfl⟩
  exact ⟨fs, t, hseg, rfl, i, lt_of_lt_of_le hi hlen, hwi⟩

end

/-! ## Tagged messages -/

/-- The STag a segment carries, if its header reaches that far. -/
def tagOf (raw : List UInt8) : Option UInt32 :=
  if 6 ≤ raw.length then some (wireTagged raw).tag else none

def TaggedBuffer.Contains (b : TaggedBuffer) (a : UInt64) : Prop :=
  InBuffer b.data b.len.toNat a

/-- Every byte stored for a segment is in the buffer registered under the STag
    that segment carries, and no other memory has changed. -/
def TaggedContained (tags : UInt32 → Option TaggedBuffer) (mem : Mem) (r : DdpOut) : Prop :=
  (∀ p ∈ r.placed, ∀ w ∈ p.stores, ∃ tag b, tagOf p.raw = some tag ∧ tags tag = some b ∧
    b.Contains w.1) ∧
  ∀ a, (∀ tag b, tags tag = some b → ¬b.Contains a) → r.mem.load a = mem.load a

/-- Every segment of the tagged message at the front of `bs` fits: if the first
    header is accepted, then wherever a segment starts, the bytes it makes the
    receiver store lie in the buffer registered under its STag. -/
def TaggedFits (tags : UInt32 → Option TaggedBuffer) (bs : List UInt8) : Prop :=
  14 ≤ segLen bs → (ddpCheckStag tags (wireTagged (segRaw 14 bs))).isSome →
    ∀ fs t, SegmentAt taggedKind bs fs t → 0 < segCount 14 t →
      ∃ tag b, tagOf (segRaw 14 t) = some tag ∧ tags tag = some b ∧
        RangeFits b.data b.len.toNat (nextTO (taggedField.after 0 fs) (segRaw 14 t)) (segCount 14 t)

/-- The memory part of `TaggedContained` follows from the stores. -/
theorem taggedContained_of_stores {tags : UInt32 → Option TaggedBuffer} {mem : Mem} {r : DdpOut}
    (hmem : r.mem = mem.write (r.placed.flatMap Placement.stores))
    (h : ∀ p ∈ r.placed, ∀ w ∈ p.stores, ∃ tag b, tagOf p.raw = some tag ∧ tags tag = some b ∧
      b.Contains w.1) : TaggedContained tags mem r := by
  refine ⟨h, fun a ha => ?_⟩
  rw [hmem]
  apply Mem.load_write_of_forall_ne
  rintro w hw rfl
  obtain ⟨p, hp, hw⟩ := List.mem_flatMap.mp hw
  obtain ⟨tag, b, -, htag, hb⟩ := h p hp w hw
  exact ha tag b htag hb

/-- The memory after `ddp_recv` is the memory before it with the placements stored. -/
theorem ddpRecv_mem (ctx : DdpCtx) (mem : Mem) (msg : DdpMessage) :
    (ddpRecv ctx mem msg).mem =
      mem.write ((ddpRecv ctx mem msg).placed.flatMap Placement.stores) := by
  rw [ddpRecv]
  cases (ddpRecvHead ctx msg).next with
  | inl r => exact (Mem.write_nil mem).symm
  | inr c =>
    simp only [ddpRecvPayload]
    split <;> rfl

theorem ddpRecv_placed_of_inl {ctx : DdpCtx} {msg : DdpMessage} {r : Ret} (mem : Mem)
    (h : (ddpRecvHead ctx msg).next = .inl r) : (ddpRecv ctx mem msg).placed = [] := by
  rw [ddpRecv, h]

/-- The placements of an accepted message are those of the payload loop. -/
theorem ddpRecv_placed_of_inr {ctx : DdpCtx} {msg : DdpMessage} {c : SegCtx} (mem : Mem)
    (h : (ddpRecvHead ctx msg).next = .inr c) :
    (ddpRecv ctx mem msg).placed =
      (segLoop (ddpRecvHead ctx msg).msg.kind ((ddpRecvHead ctx msg).ctx.inb.pending.length + 1)
        (ddpRecvHead ctx msg).ctx.inb c 0 []).placed := by
  rw [ddpRecv, h]
  simp only [ddpRecvPayload]
  split <;> rfl

section

variable {ctx : DdpCtx} (mem : Mem) (msg : DdpMessage)

/-- The placements of a tagged message: none, or those of the loop from the
    first segment on. -/
theorem tagged_placed (hf : ctx.inb.FailFree)
    (ht : ddpIsTagged (ctx.inb.pending.getD 2 0) = true) :
    (ddpRecv ctx mem msg).placed = [] ∧ ¬(FirstReady ctx.inb 14 ∧
        (ddpCheckStag ctx.taggedBuffers (wireTagged (segRaw 14 ctx.inb.pending))).isSome) ∨
      FirstReady ctx.inb 14 ∧
        (ddpCheckStag ctx.taggedBuffers (wireTagged (segRaw 14 ctx.inb.pending))).isSome ∧
        ∃ s c, AtHead taggedField 0 ctx.inb s c ∧
          (ddpRecv ctx mem msg).placed =
            (segLoop taggedKind (s.pending.length + 1) s c 0 []).placed := by
  by_cases hr : FirstReady ctx.inb 14
  · have hhead := ddpRecvHead_tagged_of_ready msg hf ht hr
    cases hb : ddpCheckStag ctx.taggedBuffers (wireTagged (segRaw 14 ctx.inb.pending)) with
    | none =>
      rw [hb] at hhead
      exact .inl ⟨ddpRecv_placed_of_inl mem (by rw [hhead]), by simp⟩
    | some b =>
      obtain ⟨c, hnext, hctx, hkind, hat⟩ := ddpRecvHead_tagged_loop msg hf ht hr hb
      refine .inr ⟨hr, rfl, _, c, hat, ?_⟩
      rw [ddpRecv_placed_of_inr mem hnext, hctx, hkind]
  · have hsz : ddpHdrSize (ctx.inb.pending.getD 2 0) = 14 := by rw [ddpHdrSize, if_pos ht]
    obtain ⟨r, -, hn, -⟩ := ddpRecvHead_of_not_ready msg hf (by rw [hsz]; exact hr)
    exact .inl ⟨ddpRecv_placed_of_inl mem hn, fun h => hr h.1⟩

/-- The stores of a tagged message stay inside the registered buffers, however
    TCP hands out the stream, exactly when every segment of it fits. -/
theorem tagged_placement_iff (hf : ctx.inb.FailFree)
    (ht : ddpIsTagged (ctx.inb.pending.getD 2 0) = true) :
    (∀ ready, TaggedContained ctx.taggedBuffers mem
        (ddpRecv { ctx with inb := { ctx.inb with ready := ready } } mem msg)) ↔
      TaggedFits ctx.taggedBuffers ctx.inb.pending := by
  constructor
  · -- with everything ready each segment is stored whole
    intro h hL hacc fs t hseg hpos
    obtain ⟨ctx', hctx'⟩ : ∃ ctx', ctx' = { ctx with inb := ctx.inb.full } := ⟨_, rfl⟩
    have hpend : ctx'.inb.pending = ctx.inb.pending := by rw [hctx']; rfl
    have htags : ctx'.taggedBuffers = ctx.taggedBuffers := by rw [hctx']
    have hf' : ctx'.inb.FailFree := by rw [hctx']; exact hf.full
    have hfull : ∀ p, maxRwCount ≤ ctx'.inb.ready p := by rw [hctx']; exact fun _ => le_rfl
    have hcont := (h fun _ => maxRwCount).1
    change ∀ p ∈ (ddpRecv { ctx with inb := ctx.inb.full } mem msg).placed, _ at hcont
    rw [← hctx'] at hcont
    rw [← hpend] at hseg
    have hready : FirstReady ctx'.inb 14 :=
      hseg.firstReady hpos (by decide) (by rw [hpend]; exact hL) hfull
    have hcases := tagged_placed mem msg hf' (by rw [hpend]; exact ht)
    rw [htags, hpend] at hcases
    rcases hcases with ⟨-, hno⟩ | ⟨-, -, s, c, hat, hpl⟩
    · exact absurd ⟨hready, hacc⟩ hno
    · obtain ⟨bytes, hlen, hmem⟩ := hat.stores_segment hf' hfull hseg hpos
      have hlen' : bytes.length = segCount 14 t := hlen
      rw [← hpl] at hmem
      have hst := hcont _ hmem
      -- the tag is the same for all bytes of the segment
      obtain ⟨w, hw, -⟩ := (mem_segPlacement_stores taggedField _ t bytes _).mpr ⟨0, by omega, rfl⟩
      obtain ⟨tag, b, htag, hb, -⟩ := hst w hw
      refine ⟨tag, b, htag, hb, (inBuffer_iff b.len.toNat_lt hpos).mp fun i hi => ?_⟩
      obtain ⟨w, hw, hwa⟩ := (mem_segPlacement_stores taggedField _ t bytes _).mpr
        ⟨i, by omega, rfl⟩
      obtain ⟨tag', b', htag', hb', hin⟩ := hst w hw
      obtain rfl : tag' = tag := Option.some.inj (htag'.symm.trans htag)
      obtain rfl : b' = b := Option.some.inj (hb'.symm.trans hb)
      rw [hwa] at hin
      exact hin
  · intro h ready
    apply taggedContained_of_stores (ddpRecv_mem _ mem msg)
    obtain ⟨ctx', hctx'⟩ : ∃ ctx' : DdpCtx, ctx' = { ctx with inb := { ctx.inb with ready := ready } } :=
      ⟨_, rfl⟩
    have hpend : ctx'.inb.pending = ctx.inb.pending := by rw [hctx']
    have htags : ctx'.taggedBuffers = ctx.taggedBuffers := by rw [hctx']
    have hf' : ctx'.inb.FailFree := by rw [hctx']; exact hf
    rw [← hctx']
    have hcases := tagged_placed mem msg hf' (by rw [hpend]; exact ht)
    rw [htags, hpend] at hcases
    rcases hcases with ⟨hnil, -⟩ | ⟨hready, hacc, s, c, hat, hpl⟩
    · rw [hnil]
      simp
    · rw [hpl]
      intro p hp w hw
      obtain ⟨fs, t, hseg, hraw, i, hi, hwi⟩ := hat.stored_in_segment hf' hp hw
      have hpos : 0 < segCount 14 t := lt_of_le_of_lt (Nat.zero_le i) hi
      have hsize := hready.size
      rw [hpend] at hsize hseg
      obtain ⟨tag, b, htag, hb, hfit⟩ := h hsize hacc fs t hseg hpos
      refine ⟨tag, b, ?_, hb, ?_⟩
      · rw [hraw]
        exact htag
      · rw [hwi]
        exact (inBuffer_iff b.len.toNat_lt hpos).mpr hfit i hi

end

/-- One byte for the last address of a registered buffer of four bytes. -/
theorem tagged_placement_last_byte :
    let bs : List UInt8 := [0, 15, 0xC1, 0x40, 0, 0, 0, 7, 0, 0, 0, 0, 0, 0, 0x50, 0x03, 9,
      0, 0, 0, 0, 0]
    let tags : UInt32 → Option TaggedBuffer :=
      Function.update (fun _ => none) 7 (some ⟨⟨7, 0⟩, 0x5000, 4⟩)
    ∀ ready, TaggedContained tags ⟨fun _ => 0, []⟩
      (ddpRecv ⟨⟨bs, false, 0, ready, fun _ => 0⟩, ⟨[], []⟩, fun _ => ⟨[], 1⟩, tags⟩
        ⟨fun _ => 0, []⟩ ⟨0, fun _ => 0, .untag ⟨0, 0⟩, 0⟩) := by
  intro bs tags
  have h := @tagged_placement_iff
    ⟨{ pending := bs, eof := false }, ⟨[], []⟩, fun _ => ⟨[], 1⟩, tags⟩ ⟨fun _ => 0, []⟩
    ⟨0, fun _ => 0, .untag ⟨0, 0⟩, 0⟩ (fun _ => rfl) (by decide)
  refine h.mpr fun _ _ fs t hseg _ => ?_
  obtain ⟨rfl, rfl⟩ := hseg.eq_nil_of_last (by decide)
  exact ⟨7, ⟨⟨7, 0⟩, 0x5000, 4⟩, by decide, by decide, by decide⟩

/-- One byte for the address after the last of a registered buffer of four
    bytes: `ddp_check_stag` accepts it. -/
theorem tagged_one_past_end :
    let bs : List UInt8 := [0, 15, 0xC1, 0x40, 0, 0, 0, 7, 0, 0, 0, 0, 0, 0, 0x50, 0x04, 9,
      0, 0, 0, 0, 0]
    let tags : UInt32 → Option TaggedBuffer :=
      Function.update (fun _ => none) 7 (some ⟨⟨7, 0⟩, 0x5000, 4⟩)
    let r := ddpRecv ⟨{ pending := bs, eof := false }, ⟨[], []⟩, fun _ => ⟨[], 1⟩, tags⟩
      ⟨fun _ => 0, []⟩ ⟨0, fun _ => 0, .untag ⟨0, 0⟩, 0⟩
    r.ret = .val 0 ∧ r.mem.log = [(0x5004, 9)] ∧ ¬TaggedContained tags ⟨fun _ => 0, []⟩ r := by
  intro bs tags r
  have hret : r.ret = .val 0 := by decide +kernel
  have hpl : r.placed =
      [⟨[0xC1, 0x40, 0, 0, 0, 7, 0, 0, 0, 0, 0, 0, 0x50, 0x04], 0x5004, [(9, 0)]⟩] := by
    decide +kernel
  have hlog : r.mem.log = [(0x5004, 9)] := by decide +kernel
  refine ⟨hret, hlog, fun h => ?_⟩
  obtain ⟨tag, b, htag, hb, hin⟩ := h.1 _ (by rw [hpl]; exact List.mem_singleton.mpr rfl)
    (0x5004, 9) (by decide)
  obtain rfl : tag = 7 := Option.some.inj (htag.symm.trans (by decide))
  obtain rfl : b = ⟨⟨7, 0⟩, 0x5000, 4⟩ := Option.some.inj (hb.symm.trans (by decide))
  exact absurd hin.2 (by decide)

/-! ## Untagged messages -/

def UntaggedBuffer.Contains (b : UntaggedBuffer) (a : UInt64) : Prop :=
  InBuffer b.data b.len.toNat a

/-- If the call dequeued a buffer, every byte it stored is in that buffer. -/
def UntaggedContained (queues : Fin 3 → UntaggedBufferQueue) (r : DdpOut) : Prop :=
  ∀ qn b bs, (queues qn).q = b :: bs → (r.ctx.queues qn).q = bs →
    ∀ p ∈ r.placed, ∀ w ∈ p.stores, b.Contains w.1

/-- Every segment of the untagged message at the front of `bs` fits: if the
    first header is accepted and finds a buffer, then wherever a segment starts,
    the bytes it makes the receiver store lie in that buffer. -/
def UntaggedFits (queues : Fin 3 → UntaggedBufferQueue) (bs : List UInt8) : Prop :=
  18 ≤ segLen bs → ∀ qn b rest,
    ddpCheckUntaggedHdr queues (wireUntagged (segRaw 18 bs)) = some qn →
    (queues qn).q = b :: rest →
    ∀ fs t, SegmentAt (untaggedKind b.data) bs fs t → 0 < segCount 18 t →
      RangeFits b.data b.len.toNat
        (b.data + (nextMO ((untaggedField b.data).after 0 fs) (segRaw 18 t)).toUInt64)
        (segCount 18 t)

theorem ddpRecvTaggedHdr_queues (ctx : DdpCtx) (msg : DdpMessage) (info : MpaPacket) :
    (ddpRecvTaggedHdr ctx msg info).ctx.queues = ctx.queues := by
  rw [ddpRecvTaggedHdr]
  split
  · rfl
  · simp only
    split
    · split
      · rfl
      · split <;> rfl
    · rfl

/-- A buffer is dequeued only when the payload loop follows. -/
theorem ddpRecvUntaggedHdr_queues {ctx : DdpCtx} {msg : DdpMessage} {info : MpaPacket} {r : Ret}
    (h : (ddpRecvUntaggedHdr ctx msg info).next = .inl r) :
    (ddpRecvUntaggedHdr ctx msg info).ctx.queues = ctx.queues := by
  rw [ddpRecvUntaggedHdr] at h ⊢
  split at h
  · rename_i hneg
    rw [if_pos hneg]
  · rename_i hneg
    rw [if_neg hneg]
    simp only at h ⊢
    split at h
    · split at h
      · rename_i hlt
        simp only [if_pos hlt]
      · rename_i hlt
        simp only [if_neg hlt]
        split at h
        · rfl
        · cases h
    · rfl

theorem ddpRecvHead_queues_of_inl {ctx : DdpCtx} {msg : DdpMessage} {r : Ret}
    (h : (ddpRecvHead ctx msg).next = .inl r) :
    (ddpRecvHead ctx msg).ctx.queues = ctx.queues := by
  rw [ddpRecvHead] at h ⊢
  simp only at h ⊢
  split at h
  · split at h
    · rename_i hlt
      rw [if_pos hlt]
    · rename_i hlt
      rw [if_neg hlt]
      split at h
      · rename_i htag
        rw [if_pos htag, ddpRecvTaggedHdr_queues]
      · rename_i htag
        rw [if_neg htag, ddpRecvUntaggedHdr_queues h]
  · rfl

theorem ddpRecv_queues_of_inl {ctx : DdpCtx} {msg : DdpMessage} {r : Ret} (mem : Mem)
    (h : (ddpRecvHead ctx msg).next = .inl r) :
    (ddpRecv ctx mem msg).ctx = (ddpRecvHead ctx msg).ctx := by
  rw [ddpRecv, h]

theorem ddpRecv_queues_of_inr {ctx : DdpCtx} {msg : DdpMessage} {c : SegCtx} (mem : Mem)
    (h : (ddpRecvHead ctx msg).next = .inr c) :
    (ddpRecv ctx mem msg).ctx.queues = (ddpRecvHead ctx msg).ctx.queues := by
  rw [ddpRecv, h]
  simp only [ddpRecvPayload]
  split <;> rfl

section

variable {ctx : DdpCtx} (mem : Mem) (msg : DdpMessage)

/-- An untagged message that finds a buffer: the buffer is dequeued and the
    loop runs on it. -/
theorem untagged_placed {qn : Fin 3} {b : UntaggedBuffer} {bs : List UntaggedBuffer}
    (hf : ctx.inb.FailFree) (ht : ddpIsTagged (ctx.inb.pending.getD 2 0) = false)
    (hr : FirstReady ctx.inb 18)
    (hqn : ddpCheckUntaggedHdr ctx.queues (wireUntagged (segRaw 18 ctx.inb.pending)) = some qn)
    (hq : (ctx.queues qn).q = b :: bs) :
    (ddpRecv ctx mem msg).ctx.queues =
        Function.update ctx.queues qn { ctx.queues qn with q := bs } ∧
      ∃ s c, AtHead (untaggedField b.data) 0 ctx.inb s c ∧
        (ddpRecv ctx mem msg).placed =
          (segLoop (untaggedKind b.data) (s.pending.length + 1) s c 0 []).placed := by
  obtain ⟨c, hnext, hctx, hmsg, hkind, hat⟩ :=
    ddpRecvHead_untagged_loop msg hf ht hr hqn (tryDequeueBuf_cons _ hq)
  refine ⟨?_, _, c, hat, ?_⟩
  · rw [ddpRecv_queues_of_inr mem hnext, hctx]
  · rw [ddpRecv_placed_of_inr mem hnext, hctx, hmsg, hkind]
    rfl

/-- The buffer a call has dequeued is the one its header names. -/
theorem untagged_dequeued {qn : Fin 3} {b : UntaggedBuffer} {bs : List UntaggedBuffer}
    (hf : ctx.inb.FailFree) (ht : ddpIsTagged (ctx.inb.pending.getD 2 0) = false)
    (hq : (ctx.queues qn).q = b :: bs) (hd : ((ddpRecv ctx mem msg).ctx.queues qn).q = bs) :
    FirstReady ctx.inb 18 ∧
      ddpCheckUntaggedHdr ctx.queues (wireUntagged (segRaw 18 ctx.inb.pending)) = some qn := by
  have hne : (ctx.queues qn).q ≠ bs := by
    rw [hq]
    exact List.cons_ne_self b bs
  by_cases hr : FirstReady ctx.inb 18
  · refine ⟨hr, ?_⟩
    have hhead := ddpRecvHead_untagged_of_ready msg hf ht hr
    cases hc : ddpCheckUntaggedHdr ctx.queues (wireUntagged (segRaw 18 ctx.inb.pending)) with
    | none =>
      rw [hc] at hhead
      rw [ddpRecv_queues_of_inl mem (by rw [hhead]), hhead] at hd
      exact absurd hd hne
    | some qn' =>
      by_cases he : qn' = qn
      · rw [he]
      · -- another queue was used
        rw [hc] at hhead
        rw [ddpRecv_queues_of_inr mem (by rw [hhead]), hhead] at hd
        simp only [tryDequeueBuf] at hd
        cases hq' : (ctx.queues qn').q with
        | nil =>
          simp only [hq'] at hd
          exact absurd hd hne
        | cons b' bs' =>
          simp only [hq'] at hd
          rw [Function.update_of_ne (Ne.symm he)] at hd
          exact absurd hd hne
  · have hsz : ddpHdrSize (ctx.inb.pending.getD 2 0) = 18 := by
      rw [ddpHdrSize, ht]
      rfl
    obtain ⟨r, -, hn, hctx⟩ := ddpRecvHead_of_not_ready msg hf (by rw [hsz]; exact hr)
    rw [ddpRecv_queues_of_inl mem hn, ddpRecvHead_queues_of_inl hn] at hd
    exact absurd hd hne

/-- The stores of an untagged message stay inside the buffer it was given,
    however TCP hands out the stream, exactly when every segment of it fits. -/
theorem untagged_placement_iff (hf : ctx.inb.FailFree)
    (ht : ddpIsTagged (ctx.inb.pending.getD 2 0) = false) :
    (∀ ready, UntaggedContained ctx.queues
        (ddpRecv { ctx with inb := { ctx.inb with ready := ready } } mem msg)) ↔
      UntaggedFits ctx.queues ctx.inb.pending := by
  constructor
  · intro h hL qn b rest hqn hq fs t hseg hpos
    obtain ⟨ctx', hctx'⟩ : ∃ ctx', ctx' = { ctx with inb := ctx.inb.full } := ⟨_, rfl⟩
    have hpend : ctx'.inb.pending = ctx.inb.pending := by rw [hctx']; rfl
    have hqs : ctx'.queues = ctx.queues := by rw [hctx']
    have hf' : ctx'.inb.FailFree := by rw [hctx']; exact hf.full
    have hfull : ∀ p, maxRwCount ≤ ctx'.inb.ready p := by rw [hctx']; exact fun _ => le_rfl
    have hcont := h fun _ => maxRwCount
    change UntaggedContained _ (ddpRecv { ctx with inb := ctx.inb.full } mem msg) at hcont
    rw [← hctx'] at hcont
    rw [← hpend] at hseg
    have hready : FirstReady ctx'.inb 18 :=
      hseg.firstReady hpos (show 2 ≤ 18 by decide) (by rw [hpend]; exact hL) hfull
    obtain ⟨hdeq, s, c, hat, hpl⟩ := untagged_placed mem msg hf' (by rw [hpend]; exact ht) hready
      (by rw [hpend, hqs]; exact hqn) (by rw [hqs]; exact hq)
    obtain ⟨bytes, hlen, hmem⟩ := hat.stores_segment hf' hfull hseg hpos
    have hlen' : bytes.length = segCount 18 t := hlen
    rw [← hpl] at hmem
    have hst := hcont qn b rest hq (by rw [hdeq, Function.update_self]) _ hmem
    refine (inBuffer_iff (lt_trans b.len.toNat_lt (by decide)) hpos).mp fun i hi => ?_
    obtain ⟨w, hw, hwa⟩ := (mem_segPlacement_stores (untaggedField b.data) _ t bytes _).mpr
      ⟨i, by omega, rfl⟩
    have hin := hst w hw
    rw [hwa] at hin
    exact hin
  · intro h ready qn b bs hq hd
    obtain ⟨ctx', hctx'⟩ : ∃ ctx' : DdpCtx,
        ctx' = { ctx with inb := { ctx.inb with ready := ready } } := ⟨_, rfl⟩
    have hpend : ctx'.inb.pending = ctx.inb.pending := by rw [hctx']
    have hqs : ctx'.queues = ctx.queues := by rw [hctx']
    have hf' : ctx'.inb.FailFree := by rw [hctx']; exact hf
    have ht' : ddpIsTagged (ctx'.inb.pending.getD 2 0) = false := by rw [hpend]; exact ht
    rw [← hctx'] at hd ⊢
    rw [← hqs] at hq
    obtain ⟨hready, hqn⟩ := untagged_dequeued mem msg hf' ht' hq hd
    obtain ⟨-, s, c, hat, hpl⟩ := untagged_placed mem msg hf' ht' hready hqn hq
    rw [hpl]
    intro p hp w hw
    obtain ⟨fs, t, hseg, -, i, hi, hwi⟩ := hat.stored_in_segment hf' hp hw
    have hpos : 0 < segCount 18 t := lt_of_le_of_lt (Nat.zero_le i) hi
    have hsize := hready.size
    rw [hpend] at hsize hseg
    rw [hpend, hqs] at hqn
    rw [hqs] at hq
    have hfit := h hsize qn b bs hqn hq fs t hseg hpos
    change InBuffer b.data b.len.toNat w.1
    rw [hwi]
    exact (inBuffer_iff (lt_trans b.len.toNat_lt (by decide)) hpos).mpr hfit i hi

end

/-- Two bytes for a posted buffer of two bytes. -/
theorem untagged_placement_full_buffer :
    let bs : List UInt8 := [0, 20, 0x41, 0x43, 0, 0, 0, 0, 0, 0, 0, 0, 0, 0, 0, 1, 0, 0, 0, 0, 8, 9,
      0, 0, 0, 0, 0, 0]
    let queues : Fin 3 → UntaggedBufferQueue := fun _ => ⟨[⟨0x7000, 2⟩], 1⟩
    ∀ ready, UntaggedContained queues
      (ddpRecv ⟨⟨bs, false, 0, ready, fun _ => 0⟩, ⟨[], []⟩, queues, fun _ => none⟩
        ⟨fun _ => 0, []⟩ ⟨0, fun _ => 0, .untag ⟨0, 0⟩, 0⟩) := by
  intro bs queues
  have h := @untagged_placement_iff
    ⟨{ pending := bs, eof := false }, ⟨[], []⟩, queues, fun _ => none⟩ ⟨fun _ => 0, []⟩
    ⟨0, fun _ => 0, .untag ⟨0, 0⟩, 0⟩ (fun _ => rfl) (by decide)
  refine h.mpr fun _ qn b rest _ hq fs t hseg _ => ?_
  obtain ⟨rfl, rfl⟩ := hseg.eq_nil_of_last (by decide)
  obtain rfl : b = ⟨0x7000, 2⟩ := (List.cons.inj hq).1.symm
  decide

/-- Two bytes for a posted buffer of one byte: the length of the buffer is not
    looked at. -/
theorem untagged_longer_than_buffer :
    let bs : List UInt8 := [0, 20, 0x41, 0x43, 0, 0, 0, 0, 0, 0, 0, 0, 0, 0, 0, 1, 0, 0, 0, 0, 8, 9,
      0, 0, 0, 0, 0, 0]
    let queues : Fin 3 → UntaggedBufferQueue := fun _ => ⟨[⟨0x7000, 1⟩], 1⟩
    let r := ddpRecv ⟨{ pending := bs, eof := false }, ⟨[], []⟩, queues, fun _ => none⟩
      ⟨fun _ => 0, []⟩ ⟨0, fun _ => 0, .untag ⟨0, 0⟩, 0⟩
    r.ret = .val 0 ∧ r.mem.log = [(0x7000, 8), (0x7001, 9)] ∧ ¬UntaggedContained queues r := by
  intro bs queues r
  have hret : r.ret = .val 0 := by decide +kernel
  have hpl : r.placed = [⟨[0x41, 0x43, 0, 0, 0, 0, 0, 0, 0, 0, 0, 0, 0, 1, 0, 0, 0, 0], 0x7000,
      [(8, 0), (9, 1)]⟩] := by
    decide +kernel
  have hlog : r.mem.log = [(0x7000, 8), (0x7001, 9)] := by decide +kernel
  have hq : (r.ctx.queues 0).q = [] := by decide +kernel
  refine ⟨hret, hlog, fun h => ?_⟩
  have hin := h 0 ⟨0x7000, 1⟩ [] rfl hq _ (by rw [hpl]; exact List.mem_singleton.mpr rfl)
    (0x7001, 9) (by decide)
  exact absurd hin.2 (by decide)

end SoftUiWarp
