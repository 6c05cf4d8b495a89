import SoftUiWarp.Ddp.ReadSizes

/-!
# Untagged messages for which no buffer is posted

When the queue that the header names is empty, `ddp_recv` logs an error and goes
on with whatever the union of `struct ddp_message` holds: the buffer of an
earlier untagged message, or the STag and the protection domain of a tagged one
read as a pointer.

Results:
* `ddpRecv_stored`: the bytes that a call stores, by their stream positions.
* `empty_queue_iff`: when such a message has no effect.
-/

namespace SoftUiWarp

open TcpStream ByteMem

/-! ## A header that is cut -/

section

variable {ctx : DdpCtx} (msg : DdpMessage) {f : Fpdu} {rest : List UInt8}

/-- A header that is not read although the packet is there: no call blocks. -/
theorem ddpRecvHead_cut (hf : ctx.inb.FailFree) (hp : ctx.inb.pending = f.wire ++ rest)
    (ht : ddpIsTagged f.ctrl = false) (hle : 18 ≤ f.len) (h : ¬FirstReady ctx.inb 18) :
    ∃ r < 0, (ddpRecvHead ctx msg).next = .inl (.val r) := by
  have hw := f.length_wire
  have hc : ctx.inb.pending.getD 2 0 = f.ctrl := by rw [hp, ctrl_wire]
  have hL : segLen ctx.inb.pending = f.len := by rw [hp, segLen_wire]
  have hlen : f.wire.length ≤ ctx.inb.pending.length := by
    rw [hp, List.length_append]
    omega
  by_cases hctrl : HdrReady ctx.inb 1
  · have hav : bodyEnd (segField ctx.inb.pending).toNat 1 17 ≤
        (ctx.inb.advance 3).pending.length := by
      change bodyEnd (segLen ctx.inb.pending) 1 17 ≤ _
      rw [hL, bodyEnd, advance_pending, List.length_drop]
      split_ifs <;> omega
    obtain ⟨r, hr⟩ := mpaRecvBody_val (hf.advance 3) (show 1 ≤ segLen ctx.inb.pending by omega)
      (by decide) hav
    have hrest : (mpaRecv (ctx.inb.advance 3) ⟨segField ctx.inb.pending, 3⟩ 17).ret = .val r := by
      rw [mpaRecv, if_neg (by simp [mpaHdrSize])]
      exact hr
    have hno : ¬(mpaRecv (ctx.inb.advance 3) ⟨segField ctx.inb.pending, 3⟩ 17).ret.Ok :=
      (mpaRecv_hdr_rest_fail hf (by decide) (by decide) hctrl (by omega) h).1
    have hneg : r < 0 := by
      by_contra hr0
      exact hno ⟨r, not_lt.mp hr0, hrest⟩
    refine ⟨r, hneg, ?_⟩
    have hsize : ¬((segField ctx.inb.pending).toNat : ℤ) -
        (ddpCtrlSize + ddpUntaggedHdrSize : ℕ) < 0 := by
      unfold segLen at hL
      simp only [ddpCtrlSize, ddpUntaggedHdrSize]
      omega
    rw [ddpRecvHead_ctrl msg hf hctrl, hdrEnd_one (by omega), hc, if_neg (by rw [ht]; decide),
      ddpRecvUntaggedHdr]
    have hrest' : (mpaRecv (ctx.inb.advance 3) ⟨segField ctx.inb.pending, (3 : ℕ)⟩
        (ddpUntaggedHdrSize : ℕ)).ret = .val r := hrest
    simp only [if_neg hsize, hrest', if_pos hneg]
  · obtain ⟨r, hr⟩ := @mpaRecv_val ctx.inb {} 1 hf rfl (by decide) (by
      rw [hL, bodyEnd]
      split_ifs <;> omega)
    have hneg : r < 0 := by
      by_contra hr0
      exact (mpaRecv_of_not_ready hf rfl (by decide) hctrl).1 ⟨r, not_lt.mp hr0, hr⟩
    refine ⟨r, hneg, ?_⟩
    change (mpaRecv ctx.inb {} ddpCtrlSize).ret = .val r at hr
    rw [ddpRecvHead]
    simp only [hr]
    rw [if_pos (by unfold ddpCtrlSize; omega)]

end

/-! ## Where the stored bytes come from -/

instance : (x : Ret) → Decidable x.Ok
  | .val r => if h : 0 ≤ r then isTrue ⟨r, h, rfl⟩ else isFalse (by
      rintro ⟨r', h', he⟩
      cases he
      exact h h')
  | .blocked => isFalse not_ok_blocked
  | .spin => isFalse not_ok_spin

/-- The states in which the payload loop starts its rounds. -/
def segLoopRounds (K : SegKind) : (fuel : ℕ) → Inbound → SegCtx → List (Inbound × SegCtx)
  | 0, _, _ => []
  | fuel + 1, s, c =>
    (s, c) ::
      if (payloadCall s c).ret.Ok ∧ c.packed 0 &&& ddpFlagLast = 0 ∧ (headerCall K s c).ret.Ok then
        segLoopRounds K fuel (headerCall K s c).inb (nextCtx K s c)
      else []

/-- The stream positions of the bytes that a round stores. -/
def roundStored (r : Inbound × SegCtx) : List ℕ :=
  List.range' r.1.pos (payloadCall r.1 r.2).writes.length

/-- The stream positions of the bytes that `ddp_recv` stores. -/
def ddpRecvStored (ctx : DdpCtx) (msg : DdpMessage) : List ℕ :=
  let h := ddpRecvHead ctx msg
  match h.next with
  | .inl _ => []
  | .inr c =>
    (segLoopRounds h.msg.kind (h.ctx.inb.pending.length + 1) h.ctx.inb c).flatMap roundStored

section

variable {K : SegKind} {α : Type} {S : FieldSpec K α} {v : α} {s₀ s : Inbound} {c : SegCtx}

theorem segLoop_placed (fuel : ℕ) (s : Inbound) (c : SegCtx) (len : ℤ) (acc : List Placement) :
    (segLoop K fuel s c len acc).placed =
      acc ++ (segLoopRounds K fuel s c).map fun r => roundPlacement K r.1 r.2 := by
  induction fuel generalizing s c len acc with
  | zero => simp [segLoop, segLoopRounds]
  | succ fuel ih =>
    rw [segLoopRounds]
    by_cases hok : (payloadCall s c).ret.Ok
    · by_cases hl : c.packed 0 &&& ddpFlagLast = 0
      · by_cases hok2 : (headerCall K s c).ret.Ok
        · rw [segLoop_next K hok (not_not.mpr hl) hok2, ih, if_pos ⟨hok, hl, hok2⟩, List.map_cons,
            List.append_assoc]
          rfl
        · rw [segLoop_hdr_stop K hok (not_not.mpr hl) hok2, if_neg (fun h => hok2 h.2.2)]
          rfl
      · rw [segLoop_last K hok hl, if_neg (fun h => hl h.2.1)]
        rfl
    · rw [segLoop_stop K hok, if_neg (fun h => hok h.1)]
      rfl

/-- Every round starts behind the header of a segment. -/
theorem atHead_of_round : ∀ (fuel : ℕ) (v : α) (s₀ s : Inbound) (c : SegCtx), s₀.FailFree →
    AtHead S v s₀ s c → ∀ r ∈ segLoopRounds K fuel s c,
      ∃ v' k, AtHead S v' (s₀.advance k) r.1 r.2 := by
  intro fuel
  induction fuel with
  | zero => intro v s₀ s c _ _ r hr; cases hr
  | succ fuel ih =>
    intro v s₀ s c hf h r hr
    rw [segLoopRounds] at hr
    rcases List.mem_cons.mp hr with rfl | hr
    · exact ⟨v, 0, h⟩
    · split_ifs at hr with hgo
      · obtain ⟨hok, -, hok2⟩ := hgo
        obtain ⟨f, rest, -, -, hinb⟩ := h.payload_ok hf hok
        have hpf : (payloadCall s c).inb.FailFree := by
          rw [hinb]
          exact hf.advance _
        obtain ⟨v', k, hat⟩ := ih _ _ _ _ hpf (atHead_of_headerCall S hpf hok2) r hr
        rw [hinb, advance_advance] at hat
        exact ⟨v', _, hat⟩
      · cases hr

/-- A payload call stores the next bytes of the stream. -/
theorem AtHead.payload_taken (h : AtHead S v s₀ s c) (hf : s₀.FailFree) :
    ∃ n, (payloadCall s c).writes = (s.pending.take n).zipIdx := by
  by_cases hH : K.hdrSize < segLen s₀.pending
  · exact ⟨_, h.payload_writes_long hf hH⟩
  · exact ⟨_, (h.payloadCall_over (h.failFree hf) hH).2.1⟩

theorem take_pending_eq (s : Inbound) (k n : ℕ) :
    (s.advance k).pending.take n =
      (List.range' (s.advance k).pos ((s.advance k).pending.take n).length).map
        fun i => s.pending.getD (i - s.pos) 0 := by
  refine List.ext_getElem (by simp) fun i h1 h2 => ?_
  have hle : s.pos + k + i - s.pos = k + i := by omega
  simp only [List.getElem_take, advance_pending, List.getElem_drop, List.getElem_map,
    List.getElem_range', advance_pos, one_mul, hle]
  rw [List.getD_eq_getElem?_getD, List.getElem?_eq_getElem, Option.getD_some]

/-- The bytes that a run stores are the bytes of the stream at these positions. -/
theorem ddpRecv_stored {ctx : DdpCtx} (hf : ctx.inb.FailFree) (mem : Mem) (msg : DdpMessage) :
    (ddpRecv ctx mem msg).placed.flatMap (fun p => p.writes.map Prod.fst) =
      (ddpRecvStored ctx msg).map fun i => ctx.inb.pending.getD (i - ctx.inb.pos) 0 := by
  rw [ddpRecvStored]
  rcases head_cases msg hf with ⟨⟨r, hnext⟩, -⟩ | ⟨-, -, K, α, S, v, c, -, hnext, hk, hat⟩
  · rw [ddpRecv_placed_of_inl mem hnext, hnext]
    rfl
  · rw [ddpRecv_placed_of_inr mem hnext, hnext, hk, segLoop_placed, List.nil_append,
      List.flatMap_map, List.map_flatMap]
    refine List.flatMap_congr fun r hr => ?_
    obtain ⟨v', k, hround⟩ := atHead_of_round _ v _ _ c hf hat r hr
    obtain ⟨n, hw⟩ := hround.payload_taken (hf.advance k)
    have hs : r.1 = ctx.inb.advance (k + hdrEnd K.hdrSize (ctx.inb.advance k).pending) := by
      rw [hround.inb, advance_advance]
    simp only [roundPlacement, roundStored, hw, List.zipIdx_map_fst, List.length_zipIdx]
    rw [hs]
    exact take_pending_eq _ _ _

end

section

variable {K : SegKind} {α : Type} {S : FieldSpec K α} {v : α} {s₀ s : Inbound} {c : SegCtx}
  {f : Fpdu} {rest : List UInt8}

/-- The first payload byte of a segment that has some is stored. -/
theorem AtHead.stores_payload (h : AtHead S v s₀ s c) (hf : s₀.FailFree)
    (hp : s₀.pending = f.wire ++ rest) (hH : K.hdrSize < f.len) (fuel : ℕ) :
    s₀.pos + (2 + K.hdrSize) ∈ (segLoopRounds K (fuel + 1) s c).flatMap roundStored := by
  have hround := congrArg Placement.writes (h.roundPlacement_wire hf v hp hH)
  change (payloadCall s c).writes = (f.payload K.hdrSize).zipIdx at hround
  have hlen := f.length_payload K.hdrSize
  have hpos : s.pos = s₀.pos + (2 + K.hdrSize) := by rw [h.inb, hp, hdrEnd_wire hH, advance_pos]
  rw [segLoopRounds, List.flatMap_cons]
  refine List.mem_append_left _ ?_
  simp only [roundStored, hround, List.length_zipIdx, List.mem_range'_1, hpos]
  omega

/-- Behind a segment that has none, one call stores what it gets and fails. -/
theorem AtHead.stores_behind (h : AtHead S v s₀ s c) (hf : s₀.FailFree)
    (hp : s₀.pending = f.wire ++ rest) (hH : f.len = K.hdrSize) (fuel : ℕ) (len : ℤ)
    (acc : List Placement) :
    (segLoop K (fuel + 1) s c len acc).ret =
        failRet (overRet (s₀.advance f.wire.length) (.val (-1))) ∧
      (segLoopRounds K (fuel + 1) s c).flatMap roundStored =
        List.range' (s₀.pos + f.wire.length) (overCount (s₀.advance f.wire.length)) := by
  have hw := f.length_wire
  have hs : s = s₀.advance f.wire.length := by
    rw [h.inb, hdrEnd, hp, segLen_wire, bodyEnd, if_neg (by omega)]
    congr 1
    omega
  have hshort : ¬K.hdrSize < segLen s₀.pending := by
    rw [hp, segLen_wire]
    omega
  obtain ⟨hret, hwr, -⟩ := h.payloadCall_over (h.failFree hf) hshort
  have hno : ¬(payloadCall s c).ret.Ok := by
    rw [hret]
    exact not_ok_overRet
  have hcount : overCount s ≤ s.pending.length := by
    unfold overCount
    omega
  constructor
  · rw [segLoop_stop K hno, hret, hs]
  · rw [segLoopRounds, if_neg (fun hgo => hno hgo.1), List.flatMap_singleton, roundStored]
    simp only [hwr, List.length_zipIdx, List.length_take, Nat.min_eq_left hcount]
    rw [hs, advance_pos]

end

/-! ## The message -/

/-- Byte `i` of the untagged segments `fs` on the wire is a payload byte. -/
def IsPayloadByte : List Fpdu → ℕ → Prop
  | [], _ => False
  | f :: fs, i =>
    (20 ≤ i ∧ i < 2 + f.len) ∨ (f.wire.length ≤ i ∧ IsPayloadByte fs (i - f.wire.length))

/-- The message `fs` at the front of the stream has no effect: the call returns a
    negative value, has stored no payload byte of the message and has left the
    queues and the registry as they were. -/
structure NoEffect (fs : List Fpdu) (ctx : DdpCtx) (mem : Mem) (msg : DdpMessage) : Prop where
  ret : ∃ r < 0, (ddpRecv ctx mem msg).ret = .val r
  stored : ∀ i ∈ ddpRecvStored ctx msg, ¬IsPayloadByte fs (i - ctx.inb.pos)
  queues : (ddpRecv ctx mem msg).ctx.queues = ctx.queues
  tags : (ddpRecv ctx mem msg).ctx.taggedBuffers = ctx.taggedBuffers

/-- The first segment of a message holds no payload, and what one call of `recv`
    returns behind it, the end of the stream or some bytes, is no payload of the
    message either. -/
def NothingBehind (s : Inbound) (f : Fpdu) (fs : List Fpdu) (rest : List UInt8) : Prop :=
  f.len = 18 ∧ (fs ≠ [] ∨ rest ≠ [] ∨ s.eof = true) ∧
    ∀ i < overCount (s.advance f.wire.length), ¬IsPayloadByte fs i

section

variable {ctx : DdpCtx} {mem : Mem} {msg : DdpMessage} {f : Fpdu} {fs : List Fpdu}
  {rest : List UInt8}

/-- No call of `ddp_recv` changes the registry. -/
theorem ddpRecv_tags : (ddpRecv ctx mem msg).ctx.taggedBuffers = ctx.taggedBuffers := by
  have hhead : (ddpRecvHead ctx msg).ctx.taggedBuffers = ctx.taggedBuffers := by
    have h := ddpRecvHead_cases ctx msg
    generalize ddpRecvHead ctx msg = out at h
    cases h with
    | failed => rfl
    | tagged => rfl
    | untagged => exact (tryDequeueBuf_keeps _ _ _).2.1
  rw [ddpRecv]
  cases (ddpRecvHead ctx msg).next with
  | inl r => exact hhead
  | inr c =>
    simp only [ddpRecvPayload]
    split <;> exact hhead

/-- A call that is over with the header. -/
theorem noEffect_of_inl {r : ℤ} (hneg : r < 0) (h : (ddpRecvHead ctx msg).next = .inl (.val r)) :
    NoEffect fs ctx mem msg where
  ret := ⟨r, hneg, by rw [ddpRecv, h]⟩
  stored := by
    rw [ddpRecvStored, h]
    simp
  queues := by rw [ddpRecv_queues_of_inl mem h, ddpRecvHead_queues_of_inl h]
  tags := ddpRecv_tags

theorem ddpRecv_ret_of_inr {c : SegCtx} (h : (ddpRecvHead ctx msg).next = .inr c) :
    (ddpRecv ctx mem msg).ret =
      (segLoop (ddpRecvHead ctx msg).msg.kind ((ddpRecvHead ctx msg).ctx.inb.pending.length + 1)
        (ddpRecvHead ctx msg).ctx.inb c 0 []).ret := by
  rw [ddpRecv, h]
  simp only [ddpRecvPayload]
  split <;> rfl

/-- With an empty queue the loop follows all the same, on the buffer that the
    structure holds. -/
theorem loop_of_empty_queue {qn : Fin 3} (msg : DdpMessage) (hf : ctx.inb.FailFree)
    (ht : ddpIsTagged (ctx.inb.pending.getD 2 0) = false) (hr : FirstReady ctx.inb 18)
    (hqn : ddpCheckUntaggedHdr ctx.queues (wireUntagged (segRaw 18 ctx.inb.pending)) = some qn)
    (hq : (ctx.queues qn).q = []) :
    ∃ c, (ddpRecvHead ctx msg).next = .inr c ∧
      (ddpRecvHead ctx msg).msg.kind = untaggedKind msg.buf.untagBuf.data ∧
      (ddpRecvHead ctx msg).ctx =
        { ctx with inb := ctx.inb.advance (hdrEnd 18 ctx.inb.pending) } ∧
      AtHead (untaggedField msg.buf.untagBuf.data) 0 ctx.inb
        (ctx.inb.advance (hdrEnd 18 ctx.inb.pending)) c := by
  obtain ⟨c, hnext, hctx, hmsg, hkind, hat⟩ :=
    ddpRecvHead_untagged_loop msg hf ht hr hqn (tryDequeueBuf_nil _ hq)
  refine ⟨c, hnext, ?_, hctx, hat⟩
  rw [hmsg]
  exact hkind

/-- Behind the first packet the payload bytes are those of the packets that follow. -/
theorem isPayloadByte_behind {i : ℕ} :
    IsPayloadByte (f :: fs) (f.wire.length + i) ↔ IsPayloadByte fs i := by
  have hw := f.length_wire
  rw [IsPayloadByte, Nat.add_sub_cancel_left]
  constructor
  · rintro (h | h)
    · omega
    · exact h.2
  · exact fun h => .inr ⟨Nat.le_add_right _ _, h⟩

theorem failRet_overRet {s : Inbound} {r : ℤ} :
    failRet (overRet s (.val (-1))) = .val r ↔ r = -1 ∧ (s.pending ≠ [] ∨ s.eof = true) := by
  rw [overRet]
  split_ifs with hb
  · simp [failRet, hb.1, hb.2]
  · rw [not_and_or, Bool.not_eq_false] at hb
    simp only [failRet, Ret.val.injEq, ne_eq]
    exact ⟨fun h => ⟨h.symm, hb⟩, fun h => h.1.symm⟩

theorem wireOf_eq_nil : wireOf fs = [] ↔ fs = [] := by
  cases fs with
  | nil => simp
  | cons f fs =>
    have hw := f.length_wire
    refine iff_of_false (fun h => ?_) (by simp)
    have hlen := congrArg List.length h
    rw [wireOf_cons, List.length_append, List.length_nil] at hlen
    omega

theorem more_behind_iff {e : Bool} :
    wireOf fs ++ rest ≠ [] ∨ e = true ↔ fs ≠ [] ∨ rest ≠ [] ∨ e = true := by
  rw [ne_eq, List.append_eq_nil_iff, wireOf_eq_nil, not_and_or, or_assoc]

/-- What the loop does to the message behind its header. -/
theorem noEffect_iff_of_loop {data : UInt64} {c : SegCtx} (hf : ctx.inb.FailFree)
    (hle : 18 ≤ f.len) (hp : ctx.inb.pending = f.wire ++ (wireOf fs ++ rest))
    (hnext : (ddpRecvHead ctx msg).next = .inr c)
    (hk : (ddpRecvHead ctx msg).msg.kind = untaggedKind data)
    (hctx : (ddpRecvHead ctx msg).ctx =
      { ctx with inb := ctx.inb.advance (hdrEnd 18 ctx.inb.pending) })
    (hat : AtHead (untaggedField data) 0 ctx.inb
      (ctx.inb.advance (hdrEnd 18 ctx.inb.pending)) c) :
    NoEffect (f :: fs) ctx mem msg ↔ NothingBehind ctx.inb f fs rest := by
  obtain ⟨fuel, hfuel⟩ :
      ∃ fuel, (ctx.inb.advance (hdrEnd 18 ctx.inb.pending)).pending.length = fuel := ⟨_, rfl⟩
  have hret := @ddpRecv_ret_of_inr ctx mem msg c hnext
  have hstored : ddpRecvStored ctx msg = (segLoopRounds (untaggedKind data) (fuel + 1)
      (ctx.inb.advance (hdrEnd 18 ctx.inb.pending)) c).flatMap roundStored := by
    rw [ddpRecvStored, hnext, hk, hctx, ← hfuel]
  rw [hk, hctx, hfuel] at hret
  rcases Nat.lt_or_ge 18 f.len with hH | hH
  · -- the first payload byte is stored
    have hmem := hat.stores_payload hf hp hH fuel
    rw [← hstored] at hmem
    refine iff_of_false (fun h => h.stored _ hmem ?_) (fun h => absurd h.1 hH.ne')
    rw [Nat.add_sub_cancel_left]
    exact .inl ⟨le_rfl, Nat.add_lt_add_left hH 2⟩
  · have hlen : f.len = 18 := le_antisymm hH hle
    obtain ⟨hover, hbehind⟩ := hat.stores_behind hf hp hlen fuel 0 []
    rw [← hret] at hover
    rw [← hstored] at hbehind
    have hpend : (ctx.inb.advance f.wire.length).pending = wireOf fs ++ rest := by
      rw [advance_pending, hp, List.drop_left]
    have hval : ∀ r, (ddpRecv ctx mem msg).ret = .val r ↔
        r = -1 ∧ (fs ≠ [] ∨ rest ≠ [] ∨ ctx.inb.eof = true) := by
      intro r
      rw [hover, failRet_overRet, hpend, advance_eof, more_behind_iff]
    constructor
    · intro h
      obtain ⟨r, -, hr⟩ := h.ret
      refine ⟨hlen, ((hval r).mp hr).2, fun i hi hbyte => ?_⟩
      refine h.stored (ctx.inb.pos + f.wire.length + i) ?_ ?_
      · rw [hbehind, List.mem_range'_1]
        omega
      · rw [Nat.add_assoc, Nat.add_sub_cancel_left]
        exact isPayloadByte_behind.mpr hbyte
    · rintro ⟨-, hmore, hnone⟩
      refine ⟨⟨-1, by decide, (hval _).mpr ⟨rfl, hmore⟩⟩, fun i hi => ?_, ?_, ddpRecv_tags⟩
      · rw [hbehind, List.mem_range'_1] at hi
        obtain ⟨j, rfl⟩ : ∃ j, i = ctx.inb.pos + (f.wire.length + j) :=
          ⟨i - (ctx.inb.pos + f.wire.length), by omega⟩
        rw [Nat.add_sub_cancel_left, isPayloadByte_behind]
        exact hnone j (by omega)
      · rw [ddpRecv_queues_of_inr mem hnext, hctx]

/-- An untagged message whose queue is empty has no effect exactly when its first
    header is cut or rejected, or when no payload byte of it comes to be read. -/
theorem empty_queue_iff {qn : Fin 3} (mem : Mem) (msg : DdpMessage) (hf : ctx.inb.FailFree)
    (hmsg : IsMessage 18 (f :: fs)) (hp : ctx.inb.pending = wireOf (f :: fs) ++ rest)
    (ht : ddpIsTagged f.ctrl = false) (hqn : (wireUntagged (f.hdr 18)).qn.toNat = qn)
    (hq : (ctx.queues qn).q = []) :
    NoEffect (f :: fs) ctx mem msg ↔
      ¬FirstReady ctx.inb 18 ∨
        ddpCheckUntaggedHdr ctx.queues (wireUntagged (f.hdr 18)) = none ∨
        NothingBehind ctx.inb f fs rest := by
  have hp' : ctx.inb.pending = f.wire ++ (wireOf fs ++ rest) := by
    rw [hp, wireOf_cons, List.append_assoc]
  have hle := hmsg.le
  have hc : ddpIsTagged (ctx.inb.pending.getD 2 0) = false := by rw [hp', ctrl_wire, ht]
  have hraw : segRaw 18 ctx.inb.pending = f.hdr 18 := by rw [hp', segRaw_wire hle]
  by_cases hr : FirstReady ctx.inb 18
  · rw [← hraw]
    cases hcheck : ddpCheckUntaggedHdr ctx.queues (wireUntagged (segRaw 18 ctx.inb.pending)) with
    | none =>
      have hhead := ddpRecvHead_untagged_of_ready msg hf hc hr
      rw [hcheck] at hhead
      exact iff_of_true (noEffect_of_inl neg_one_lt_zero (by rw [hhead])) (.inr (.inl rfl))
    | some qn' =>
      obtain rfl : qn' = qn := by
        have hqn' := ddpCheckUntaggedHdr_qn hcheck
        rw [hraw] at hqn'
        exact Fin.ext (hqn'.symm.trans hqn)
      obtain ⟨c, hnext, hk, hctx, hat⟩ := loop_of_empty_queue msg hf hc hr hcheck hq
      rw [noEffect_iff_of_loop hf hle hp' hnext hk hctx hat]
      exact ⟨fun h => .inr (.inr h), fun h => (h.resolve_left (not_not.mpr hr)).resolve_left
        (Option.some_ne_none _)⟩
  · obtain ⟨r, hneg, hnext⟩ := ddpRecvHead_cut msg hf hp' ht hle hr
    exact iff_of_true (noEffect_of_inl hneg hnext) (.inl hr)

end

/-- One byte for queue 0, with the MSN 1. -/
def oneByteSend : Fpdu :=
  ⟨[0x41, 0x43, 0, 0, 0, 0, 0, 0, 0, 0, 0, 0, 0, 1, 0, 0, 0, 0, 8], [0, 0, 0, 0, 0], by decide,
    by decide, by decide⟩

/-- A Terminate message of one byte, for queue 2. -/
def oneByteTerminate : Fpdu :=
  ⟨[0x41, 0x47, 0, 0, 0, 0, 0, 0, 0, 2, 0, 0, 0, 1, 0, 0, 0, 0, 9], [0, 0, 0, 0, 0], by decide,
    by decide, by decide⟩

/-- One byte for queue 0, with the MSN 0. -/
def zeroMsnSend : Fpdu :=
  ⟨[0x41, 0x43, 0, 0, 0, 0, 0, 0, 0, 0, 0, 0, 0, 0, 0, 0, 0, 0, 8], [0, 0, 0, 0, 0], by decide,
    by decide, by decide⟩

/-- The MSN of the message is below that of queue 0. -/
theorem empty_queue_old_msn :
    let ctx : DdpCtx := ⟨{ pending := zeroMsnSend.wire, eof := false }, ⟨[], []⟩,
      fun _ => ⟨[], 1⟩, fun _ => none⟩
    NoEffect [zeroMsnSend] ctx ⟨fun _ => 0, []⟩ ⟨0, fun _ => 0, .untag ⟨0x7000, 8⟩, 0⟩ := by
  intro ctx
  have hiff := @empty_queue_iff ctx zeroMsnSend [] [] ⟨0, by decide⟩ ⟨fun _ => 0, []⟩
    ⟨0, fun _ => 0, .untag ⟨0x7000, 8⟩, 0⟩ (fun _ => rfl) ⟨by decide, by decide⟩ (by simp [ctx])
    (by decide) (by decide) rfl
  exact hiff.mpr (.inr (.inl (by decide)))

/-- A Send takes the posted buffer at `0x7000`; the Terminate message behind it, for
    which none is posted, is stored into the same buffer, and the call returns 0. -/
theorem empty_queue_terminate :
    let ctx : DdpCtx := ⟨{ pending := oneByteSend.wire ++ oneByteTerminate.wire, eof := false },
      ⟨[], []⟩, fun qn => ⟨if qn.val = 0 then [⟨0x7000, 8⟩] else [], 1⟩, fun _ => none⟩
    let send := ddpRecv ctx ⟨fun _ => 0, []⟩ ⟨0, fun _ => 0, .untag ⟨0, 0⟩, 0⟩
    let term := ddpRecv send.ctx send.mem send.msg
    (send.ret = .val 0 ∧ term.ret = .val 0 ∧ term.mem.log = [(0x7000, 8), (0x7000, 9)]) ∧
      ¬NoEffect [oneByteTerminate] send.ctx send.mem send.msg := by
  intro ctx send term
  have hret : term.ret = .val 0 := by decide +kernel
  refine ⟨⟨by decide +kernel, hret, by decide +kernel⟩, fun h => ?_⟩
  obtain ⟨r, hneg, hr⟩ := h.ret
  have hzero := Ret.val.inj (hr.symm.trans hret)
  omega

end SoftUiWarp
