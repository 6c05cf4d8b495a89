import SoftUiWarp.Ddp.Framing
import SoftUiWarp.Ddp.OneMessage

/-!
# Messages that end with an empty segment

`ddp_recv` takes a segment that holds nothing but its header for one with a
payload of 0 bytes. Its padding and CRC have been read with the header, so the
call for these 0 bytes reads on into what follows the packet and fails.

Results:
* `IsMessage.eq_of_wireOf`: the packets of a message can be told from the stream.
* `header_only_rejected`: no message whose last segment is empty is received.
-/

namespace SoftUiWarp

open TcpStream ByteMem

section

variable {H : ℕ} {f : Fpdu} {fs gs : List Fpdu} {rest rest' : List UInt8}

/-- No message is the beginning of another one. -/
theorem IsMessage.eq_of_wireOf (h : IsMessage H fs) (h' : IsMessage H gs)
    (hw : wireOf fs ++ rest = wireOf gs ++ rest') : fs = gs := by
  induction fs generalizing gs with
  | nil => exact absurd rfl h.ne_nil
  | cons f fs ih =>
    cases gs with
    | nil => exact absurd rfl h'.ne_nil
    | cons g gs =>
      rw [wireOf_cons, wireOf_cons, List.append_assoc, List.append_assoc] at hw
      obtain ⟨rfl, hrest⟩ := Fpdu.wire_append_inj hw
      have hends : fs = [] ↔ gs = [] := h.last_iff.symm.trans h'.last_iff
      by_cases hnil : fs = []
      · rw [hnil, hends.mp hnil]
      · rw [ih (h.tail hnil) (h'.tail (fun hg => hnil (hends.mpr hg))) hrest]

/-- The message of the segments `fs`, which have payload, and of `f`, which is all
    header. -/
structure HeaderOnly (H : ℕ) (fs : List Fpdu) (f : Fpdu) : Prop where
  before : ∀ g ∈ fs, H < g.len ∧ g.last = false
  len : f.len = H
  last : f.last = true

theorem HeaderOnly.isMessage (h : HeaderOnly H fs f) : IsMessage H (fs ++ [f]) := by
  obtain ⟨hbefore, hlen, hlast⟩ := h
  induction fs with
  | nil => exact ⟨hlen.ge, hlast⟩
  | cons g fs ih =>
    obtain ⟨hg, hgl⟩ := hbefore g (List.mem_cons_self ..)
    have hrest := ih fun x hx => hbefore x (List.mem_cons_of_mem g hx)
    cases fs with
    | nil => exact ⟨hg.le, hgl, hrest⟩
    | cons g' fs => exact ⟨hg.le, hgl, hrest⟩

end

/-- The call has received the message `fs`: it returns 0 with the number of its
    payload bytes in `msg->len`, has stored for every segment its payload, which
    is nothing for an empty one, and has taken these packets off the stream. -/
structure ReceivedWhole (H : ℕ) (fs : List Fpdu) (ctx : DdpCtx) (out : DdpOut) : Prop where
  ret : out.ret = .val 0
  len : out.msg.len = payloadSum H fs
  stored : out.placed.map (fun p => p.writes.map Prod.fst) = fs.map (Fpdu.payload H)
  inb : out.ctx.inb = ctx.inb.advance (wireOf fs).length

/-- Whatever the registry and the queues hold, and however TCP hands out the
    stream. -/
theorem header_only_rejected {ctx : DdpCtx} {fs : List Fpdu} {f : Fpdu} {rest : List UInt8}
    (mem : Mem) (msg : DdpMessage) (hf : ctx.inb.FailFree)
    (hp : ctx.inb.pending = wireOf (fs ++ [f]) ++ rest)
    (h : HeaderOnly (ddpHdrSize (ctx.inb.pending.getD 2 0)) fs f) :
    ¬ReceivedWhole (ddpHdrSize (ctx.inb.pending.getD 2 0)) (fs ++ [f]) ctx
      (ddpRecv ctx mem msg) := by
  intro hr
  obtain ⟨g, gs, hframe⟩ := ddpRecv_in_frame hf hr.ret
  obtain ⟨rest', hp'⟩ := hframe.pending
  have hc : ctx.inb.pending.getD 2 0 = g.ctrl := by
    rw [hp', wireOf_cons, List.append_assoc, ctrl_wire]
  rw [hc] at h
  have heq : fs ++ [f] = g :: gs := h.isMessage.eq_of_wireOf hframe.message (hp.symm.trans hp')
  have hmem : f ∈ g :: gs := by
    rw [← heq]
    simp
  -- every segment of a message that is received has payload
  exact absurd (hframe.size f hmem) (by rw [h.len]; exact lt_irrefl _)

/-- A tagged segment for the start of the buffer 7 at `0x5000`, all header. -/
def emptyWrite : Fpdu :=
  ⟨[0xC1, 0x40, 0, 0, 0, 7, 0, 0, 0, 0, 0, 0, 0x50, 0], [0, 0, 0, 0], by decide, by decide, by decide⟩

/-- The same segment for one byte, and not the last of its message. -/
def oneByteFirst : Fpdu :=
  ⟨[0x81, 0x40, 0, 0, 0, 7, 0, 0, 0, 0, 0, 0, 0x50, 0, 9], [0, 0, 0, 0, 0], by decide, by decide,
    by decide⟩

theorem header_only_after_payload :
    let ctx : DdpCtx := ⟨{ pending := oneByteFirst.wire ++ emptyWrite.wire, eof := true }, ⟨[], []⟩,
      fun _ => ⟨[], 1⟩, Function.update (fun _ => none) 7 (some ⟨⟨7, 0⟩, 0x5000, 4⟩)⟩
    ¬ReceivedWhole 14 [oneByteFirst, emptyWrite] ctx
      (ddpRecv ctx ⟨fun _ => 0, []⟩ ⟨0, fun _ => 0, .untag ⟨0, 0⟩, 0⟩) := by
  intro ctx
  have hsize : ddpHdrSize (ctx.inb.pending.getD 2 0) = 14 := by decide
  have hr := @header_only_rejected ctx [oneByteFirst] emptyWrite [] ⟨fun _ => 0, []⟩
    ⟨0, fun _ => 0, .untag ⟨0, 0⟩, 0⟩ (fun _ => rfl) (by simp [ctx])
  rw [hsize] at hr
  exact hr ⟨by decide, by decide, by decide⟩

/-- With a registered buffer, a message that is all header and another one behind
    it: the call fails, and the packet of the second one has been stored into the
    buffer and is gone. -/
theorem header_only_eats_next :
    let ctx : DdpCtx := ⟨{ pending := emptyWrite.wire ++ emptyWrite.wire, eof := false }, ⟨[], []⟩,
      fun _ => ⟨[], 1⟩, Function.update (fun _ => none) 7 (some ⟨⟨7, 0⟩, 0x5000, 4⟩)⟩
    let out := ddpRecv ctx ⟨fun _ => 0, []⟩ ⟨0, fun _ => 0, .untag ⟨0, 0⟩, 0⟩
    (out.ret = .val (-1) ∧ out.mem.log.length = 20 ∧ out.ctx.inb.pending = []) ∧
      ¬ReceivedWhole 14 [emptyWrite] ctx out := by
  intro ctx out
  have hret : out.ret = .val (-1) := by decide +kernel
  refine ⟨⟨hret, by decide +kernel, by decide +kernel⟩, fun h => ?_⟩
  have hzero := h.ret
  rw [hret] at hzero
  exact absurd hzero (by decide)

end SoftUiWarp
