import SoftUiWarp.Ddp.Queues
import SoftUiWarp.Ddp.Recv

/-!
# `ddp_recv` on any stream

Only the first segment of a message is checked, and the loop goes on until it
sees the L bit. Still no stream makes `ddp_recv` return 0 out of frame: a call
for the payload of a segment that has none reads on behind the packet and
never succeeds, so what was consumed is a sequence of whole FPDUs.

Results:
* `segLoop_framed`: what the payload loop has consumed when it returns 0.
* `ddpRecv_in_frame`: the same for the whole call, with its effect on the
  queues and the registry.
-/

namespace SoftUiWarp

open TcpStream ByteMem

/-- The payload bytes of the segments `fs` with headers of `H` bytes, counted. -/
def payloadSum (H : ℕ) (fs : List Fpdu) : ℤ := (fs.map fun f => (f.len : ℤ) - H).sum

/-- `out` is what a call of `ddp_recv` that has consumed the segments `f :: fs`
    leaves of the stream `ctx`. `msg->len` is an `int`, so `len` is exact while
    the payload has fewer than `2 ^ 31` bytes. -/
structure InFrame (ctx : DdpCtx) (out : DdpOut) (f : Fpdu) (fs : List Fpdu) : Prop where
  pending : ∃ rest, ctx.inb.pending = wireOf (f :: fs) ++ rest
  inb : out.ctx.inb = ctx.inb.advance (wireOf (f :: fs)).length
  message : IsMessage (ddpHdrSize f.ctrl) (f :: fs)
  size : ∀ g ∈ f :: fs, ddpHdrSize f.ctrl < g.len
  len : out.msg.len = payloadSum (ddpHdrSize f.ctrl) (f :: fs)
  tagged : ddpIsTagged f.ctrl = true → out.ctx.queues = ctx.queues
  untagged : ddpIsTagged f.ctrl = false → ∃ qn : Fin 3, (wireUntagged (f.hdr 18)).qn.toNat = qn ∧
    (∀ i ≠ qn, out.ctx.queues i = ctx.queues i) ∧
    ∃ taken, taken.length ≤ 1 ∧ (ctx.queues qn).q = taken ++ (out.ctx.queues qn).q
  tags : out.ctx.taggedBuffers = ctx.taggedBuffers

/-! ## The payload loop -/

/-- A loop that returns 0 has read whole segments with payload up to the first
    one with the L bit. -/
theorem segLoop_framed {K : SegKind} {α : Type} {S : FieldSpec K α} : ∀ (fuel : ℕ) (v : α)
    (s₀ s : Inbound) (c : SegCtx) (len : ℤ) (acc : List Placement), s₀.FailFree →
      AtHead S v s₀ s c → (segLoop K fuel s c len acc).ret = .val 0 →
      ∃ f fs rest, s₀.pending = wireOf (f :: fs) ++ rest ∧
        (segLoop K fuel s c len acc).inb = s₀.advance (wireOf (f :: fs)).length ∧
        IsMessage K.hdrSize (f :: fs) ∧ (∀ g ∈ f :: fs, K.hdrSize < g.len) ∧
        (segLoop K fuel s c len acc).len = len + payloadSum K.hdrSize (f :: fs) := by
  intro fuel
  induction fuel with
  | zero => intro v s₀ s c len acc _ _ hret; cases hret
  | succ fuel ih =>
    intro v s₀ s c len acc hf h hret
    have hstop : ∀ x : Ret, failRet x ≠ .val 0 := fun x hx =>
      not_ok_failRet (x := x) ⟨0, le_rfl, hx⟩
    by_cases hok : (payloadCall s c).ret.Ok
    · obtain ⟨f, rest, ht, hH, hinb⟩ := h.payload_ok hf hok
      have hlen : c.payloadLen = (f.len : ℤ) - K.hdrSize := by rw [h.payloadLen, ht, segLen_wire]
      by_cases hl : c.packed 0 &&& ddpFlagLast ≠ 0
      · rw [segLoop_last K hok hl]
        refine ⟨f, [], rest, by simpa using ht, by simpa using hinb, ⟨hH.le, ?_⟩, by simpa using hH, ?_⟩
        · simpa [h.last_eq ht] using hl
        · simp [payloadSum, hlen]
      · by_cases hok2 : (headerCall K s c).ret.Ok
        · have hpf : (payloadCall s c).inb.FailFree := by rw [hinb]; exact hf.advance _
          rw [segLoop_next K hok hl hok2] at hret ⊢
          obtain ⟨g, gs, rest', hp, hinb', hmsg, hsize, hsum⟩ := ih (S.val c.packed) _ _ _
            (len + c.payloadLen) (acc ++ [roundPlacement K s c]) hpf
            (atHead_of_headerCall S hpf hok2) hret
          have hrest : (payloadCall s c).inb.pending = rest := by
            rw [hinb, advance_pending, ht, List.drop_left]
          refine ⟨f, g :: gs, rest', ?_, ?_, ⟨hH.le, ?_, hmsg⟩, ?_, ?_⟩
          · rw [ht, ← hrest, hp, wireOf_cons f, List.append_assoc]
          · rw [hinb', hinb, advance_advance, wireOf_cons f, List.length_append]
          · simpa [h.last_eq ht] using hl
          · intro x hx
            rcases List.mem_cons.mp hx with rfl | hx
            · exact hH
            · exact hsize x hx
          · rw [hsum, hlen]
            simp only [payloadSum, List.map_cons, List.sum_cons]
            ring
        · rw [segLoop_hdr_stop K hok hl hok2] at hret
          exact absurd hret (hstop _)
    · rw [segLoop_stop K hok] at hret
      exact absurd hret (hstop _)

/-! ## The whole call -/

section

variable {ctx : DdpCtx} {mem : Mem} {msg : DdpMessage}

/-- A call that returns 0 has accepted the first header. -/
theorem firstReady_of_ret (hf : ctx.inb.FailFree) (h : (ddpRecv ctx mem msg).ret = .val 0) :
    FirstReady ctx.inb (ddpHdrSize (ctx.inb.pending.getD 2 0)) := by
  by_contra hn
  obtain ⟨r, hr, hnext, -⟩ := ddpRecvHead_of_not_ready msg hf hn
  rw [ddpRecv, hnext] at h
  exact hr ⟨0, le_rfl, h⟩

/-- The call from the payload loop on, when the loop has returned 0. -/
theorem ddpRecv_of_payload {c : SegCtx} (hnext : (ddpRecvHead ctx msg).next = .inr c)
    (h : (ddpRecv ctx mem msg).ret = .val 0) :
    let head := ddpRecvHead ctx msg
    let p := segLoop head.msg.kind (head.ctx.inb.pending.length + 1) head.ctx.inb c 0 []
    p.ret = .val 0 ∧ (ddpRecv ctx mem msg).ctx = { head.ctx with inb := p.inb } ∧
      (ddpRecv ctx mem msg).msg.len = p.len := by
  simp only [ddpRecv, hnext, ddpRecvPayload] at h ⊢
  split at h
  · rename_i hret
    refine ⟨hret, by rw [if_pos hret], ?_⟩
    rw [if_pos hret, DdpMessage.finish]
    split <;> rfl
  · exact absurd h ‹_›

theorem in_frame_tagged (hf : ctx.inb.FailFree) (ht : ddpIsTagged (ctx.inb.pending.getD 2 0) = true)
    (h : (ddpRecv ctx mem msg).ret = .val 0) :
    ∃ f fs, InFrame ctx (ddpRecv ctx mem msg) f fs := by
  have hr := firstReady_of_ret hf h
  rw [ddpHdrSize, if_pos ht] at hr
  have hhead := ddpRecvHead_tagged_of_ready msg hf ht hr
  cases hb : ddpCheckStag ctx.taggedBuffers (wireTagged (segRaw 14 ctx.inb.pending)) with
  | none =>
    rw [hb] at hhead
    rw [ddpRecv, hhead] at h
    cases h
  | some b =>
    obtain ⟨c, hnext, hctx', hkind, hat⟩ := ddpRecvHead_tagged_loop msg hf ht hr hb
    obtain ⟨hret, hctx, hlen⟩ := ddpRecv_of_payload hnext h
    simp only [hctx', hkind] at hret hctx hlen
    obtain ⟨f, fs, rest, hp, hinb, hmsg, hsize, hsum⟩ :=
      segLoop_framed _ 0 ctx.inb _ _ 0 [] hf hat hret
    have hc : f.ctrl = ctx.inb.pending.getD 2 0 := by
      rw [hp, wireOf_cons, List.append_assoc, ctrl_wire]
    have hH : ddpHdrSize f.ctrl = 14 := by rw [hc, ddpHdrSize, if_pos ht]
    refine ⟨f, fs, ?_⟩
    exact
      { pending := ⟨rest, hp⟩
        inb := by rw [hctx]; exact hinb
        message := by rw [hH]; exact hmsg
        size := by rw [hH]; exact hsize
        len := by rw [hH, hlen, hsum, zero_add]; rfl
        tagged := fun _ => by rw [hctx]
        untagged := fun hu => by rw [hc, ht] at hu; cases hu
        tags := by rw [hctx] }

theorem in_frame_untagged (hf : ctx.inb.FailFree)
    (ht : ddpIsTagged (ctx.inb.pending.getD 2 0) = false)
    (h : (ddpRecv ctx mem msg).ret = .val 0) :
    ∃ f fs, InFrame ctx (ddpRecv ctx mem msg) f fs := by
  have hr := firstReady_of_ret hf h
  rw [ddpHdrSize, if_neg (by rw [ht]; decide)] at hr
  have hhead := ddpRecvHead_untagged_of_ready msg hf ht hr
  cases hqn : ddpCheckUntaggedHdr ctx.queues (wireUntagged (segRaw 18 ctx.inb.pending)) with
  | none =>
    rw [hqn] at hhead
    rw [ddpRecv, hhead] at h
    cases h
  | some qn =>
    obtain ⟨c, hnext, hctx', hmsg', hkind, hat⟩ := ddpRecvHead_untagged_loop msg hf ht hr hqn rfl
    obtain ⟨hdinb, hdtags, -, hdother, hdtaken⟩ := tryDequeueBuf_keeps
      { ctx with inb := ctx.inb.advance (hdrEnd 18 ctx.inb.pending) } qn
      (untaggedHdrMsg msg (segRaw 18 ctx.inb.pending))
    obtain ⟨hret, hctx, hlen⟩ := ddpRecv_of_payload hnext h
    simp only [hctx', hmsg', hkind, hdinb] at hret hctx hlen
    obtain ⟨f, fs, rest, hp, hinb, hmsg, hsize, hsum⟩ :=
      segLoop_framed _ 0 ctx.inb _ _ 0 [] hf hat hret
    have hp' : ctx.inb.pending = f.wire ++ (wireOf fs ++ rest) := by
      rw [hp, wireOf_cons, List.append_assoc]
    have hc : f.ctrl = ctx.inb.pending.getD 2 0 := by rw [hp', ctrl_wire]
    have hH : ddpHdrSize f.ctrl = 18 := by rw [hc, ddpHdrSize, if_neg (by rw [ht]; decide)]
    have hle : 18 ≤ f.len := (hsize f (by simp)).le
    refine ⟨f, fs, ?_⟩
    exact
      { pending := ⟨rest, hp⟩
        inb := by rw [hctx]; exact hinb
        message := by rw [hH]; exact hmsg
        size := by rw [hH]; exact hsize
        len := by rw [hH, hlen, hsum, zero_add]; rfl
        tagged := fun htg => by rw [hc, ht] at htg; cases htg
        untagged := fun _ => by
          rw [hp', segRaw_wire hle] at hqn
          rw [hctx]
          exact ⟨qn, ddpCheckUntaggedHdr_qn hqn, hdother, hdtaken⟩
        tags := by rw [hctx]; exact hdtags }

/-- For every stream, every registry and every content of the queues: a call
    that returns 0 has consumed whole FPDUs, up to the first segment with the L
    bit. -/
theorem ddpRecv_in_frame (hf : ctx.inb.FailFree) (h : (ddpRecv ctx mem msg).ret = .val 0) :
    ∃ f fs, InFrame ctx (ddpRecv ctx mem msg) f fs := by
  cases ht : ddpIsTagged (ctx.inb.pending.getD 2 0) with
  | true => exact in_frame_tagged hf ht h
  | false => exact in_frame_untagged hf ht h

end

/-- An untagged message in two segments of one byte. -/
theorem ddpRecv_in_frame_two_segments :
    let seg : UInt8 → UInt32 → List UInt8 := fun ctrl mo =>
      fpdu [[ctrl], DdpUntaggedMeta.bytes ⟨0x43, 0, htonl 0, htonl 1, htonl mo⟩, [9]]
    let ctx : DdpCtx := ⟨⟨seg 0x01 0 ++ seg 0x41 1, false, 0, fun _ => maxRwCount, fun _ => 0⟩,
      ⟨[], []⟩, fun _ => ⟨[⟨0x7000, 8⟩], 1⟩, fun _ => none⟩
    let out := ddpRecv ctx ⟨fun _ => 0, []⟩ ⟨0, fun _ => 0, .untag ⟨0, 0⟩, 0⟩
    out.msg.len = 2 ∧ out.ctx.inb.pending = [] ∧ ∃ f fs, InFrame ctx out f fs := by
  intro seg ctx out
  exact ⟨by decide +kernel, by decide +kernel, ddpRecv_in_frame (fun _ => rfl) (by decide +kernel)⟩

end SoftUiWarp
