import SoftUiWarp.Rdmap.ReadEndToEnd

/-!
# The fields of a read request, from one host to the other

`rnic_send` copies five values of the work request into the request message as
they are. `rnic_recv` converts them from network order if `RPING` is defined, and
uses them as they are otherwise.

Results:
* `recvStep_readReq_fields`: what the responder reads from its buffer, in either
  build.
* `read_fields_iff`: when the response is built from the values of the work
  request.
-/

namespace SoftUiWarp

open TcpStream ByteMem

/-- The response that `rnic_recv` is about to enqueue is built from the work
    request: what it reads, and where it goes. -/
structure BuiltFrom (r : ReadWr) (ep : Ep) : Prop where
  pc : ep.recvPc = .enqResp
  source : ep.sg = ⟨r.remoteAddr, r.sge.length, r.rkey⟩
  sinkTag : ep.readResp.rkey = r.sge.lkey
  sinkTO : ep.readResp.remoteAddr = r.sge.addr

/-- The fields as a build of `rnic_recv` takes them from the message. -/
def ReadReqFields.received (bld : Build) (f : ReadReqFields) : ReadReqFields :=
  if bld.rping then f.swizzle else f

section

variable {bld : Build} {ep : Ep} {f : ReadReqFields}

/-- The conversion is made in the buffer. -/
theorem readReq_of_read (h : ep.mem.read ep.msg.buf.untagBuf.data 28 = f.bytes) :
    ep.readReq bld = f.received bld := by
  have hf := readReqAt_of_read h
  rw [Ep.readReq, Ep.reqMem, ReadReqFields.received]
  cases bld.rping with
  | false => exact hf
  | true =>
    simp only [if_true, hf]
    apply readReqAt_of_read
    have hself := @Mem.read_write_stores ep.mem ep.msg.buf.untagBuf.data f.swizzle.bytes (by simp)
    rwa [ReadReqFields.length_bytes] at hself

/-- A request at the front of the stream is stored, and the response is filled
    from it. -/
theorem recvStep_readReq_fields {msn : UInt32} {junk : DdpUntaggedMeta} {rest : List UInt8}
    (hidle : ep.recvPc = .idle) (hcon : ep.connected = true) (hf : ep.ddp.inb.FailFree)
    (hr : ∀ p, 4 ≤ ep.ddp.inb.ready p) (hpool : ep.readPool ≠ [])
    (hqmsn : (ep.ddp.queues 1).msn = 1) (hmsn : msn ≠ 0)
    (hp : ep.ddp.inb.pending = untaggedWire (readReqHdr junk msn) [f.bytes] ++ rest) :
    ∃ e : Ep, (rnicRecvStep bld)^[3] ep = e.fillResp bld ∧ e.readReq bld = f.received bld := by
  obtain ⟨b, bs, hq⟩ := List.exists_cons_of_ne_nil hpool
  obtain ⟨e, msg, h3, he, hbuf, hread⟩ :=
    recvStep_readReq_stored bld hidle hcon hf hr hq hqmsn hmsn hp
  refine ⟨e, h3, readReq_of_read ?_⟩
  rw [he] at hread ⊢
  simp only [hbuf]
  exact hread

/-- The response is built from the work request exactly when the conversion, if
    it is made, changes nothing. -/
theorem builtFrom_fillResp_iff {r : ReadWr} (h : ep.readReq bld = r.fields.received bld) :
    BuiltFrom r (ep.fillResp bld) ↔ bld.rping = false ∨ r.fields.swizzle = r.fields := by
  have hfields : BuiltFrom r (ep.fillResp bld) ↔ ep.readReq bld = r.fields := by
    constructor
    · rintro ⟨-, hsource, htag, hto⟩
      simp only [Ep.fillResp] at hsource htag hto
      obtain ⟨h1, h2, h3⟩ := Sge.mk.inj hsource
      obtain ⟨f, hf⟩ : ∃ f, ep.readReq bld = f := ⟨_, rfl⟩
      rw [hf] at h1 h2 h3 htag hto ⊢
      rw [ReadWr.fields, ← h1, ← h2, ← h3, ← htag, ← hto]
    · intro he
      constructor
      all_goals simp only [Ep.fillResp, he, ReadWr.fields]
  rw [hfields, h, ReadReqFields.received]
  cases bld.rping <;> simp

end

/-- For every read of one sge and either build of both peers: what `rnic_send`
    puts on the stream makes `rnic_recv`, once it takes the request off it, build
    a response from the values of the work request exactly when `RPING` is not
    defined or each value reads the same with its bytes reversed. -/
theorem read_fields_iff (bld : Build) (r : ReadWr) {req resp : Ep} {st : Statics}
    {junk : DdpUntaggedMeta} {w rest : List UInt8} (he : req.ddp.outb.evs = [])
    (hw : (req.transmit junk st r.toSendWr).out.sent = req.ddp.outb.sent ++ w)
    (hmsn : st.readMsn ≠ 0) (hidle : resp.recvPc = .idle) (hcon : resp.connected = true)
    (hf : resp.ddp.inb.FailFree) (hr : ∀ p, 4 ≤ resp.ddp.inb.ready p)
    (hpool : resp.readPool ≠ []) (hqmsn : (resp.ddp.queues 1).msn = 1)
    (hp : resp.ddp.inb.pending = w ++ rest) :
    BuiltFrom r ((rnicRecvStep bld)^[3] resp) ↔
      bld.rping = false ∨ r.fields.swizzle = r.fields := by
  rw [transmit_readWr st junk he] at hw
  have hwire := List.append_cancel_left hw
  rw [← hwire] at hp
  obtain ⟨e, hrun, hreq⟩ := @recvStep_readReq_fields bld resp r.fields st.readMsn junk rest hidle
    hcon hf hr hpool hqmsn hmsn hp
  rw [hrun]
  exact builtFrom_fillResp_iff hreq

/-- A host with one buffer for requests and the given bytes to read. -/
def fieldsHost (bs : List UInt8) : Ep :=
  rdmapInitStream ⟨fun _ => 0, []⟩ { pending := bs, eof := false } ⟨[], []⟩ 0 0 [0x9000]
    ⟨0, fun _ => 0, .untag ⟨0, 0⟩, 0⟩ ⟨0, 0, 0⟩

/-- A read of three bytes. -/
def fieldsRead : ReadWr := ⟨1, ⟨0x1002, 3, 0x1000⟩, 0, 0x5002, 0x5000⟩

theorem read_fields_plain :
    BuiltFrom fieldsRead ((rnicRecvStep ⟨false, false⟩)^[3]
      (fieldsHost (untaggedWire (readReqHdr ⟨0, 0, 0, 0, 0⟩ 1) [fieldsRead.fields.bytes]))) := by
  have h4 : 4 ≤ maxRwCount := by decide
  refine (@read_fields_iff ⟨false, false⟩ fieldsRead (fieldsHost []) (fieldsHost _) {}
    ⟨0, 0, 0, 0, 0⟩ (untaggedWire (readReqHdr ⟨0, 0, 0, 0, 0⟩ 1) [fieldsRead.fields.bytes]) [] rfl
    ?_ (by decide) rfl rfl (fun _ => rfl) (fun _ => h4) (List.cons_ne_nil _ _) rfl
    (List.append_nil _).symm).mpr (.inl rfl)
  rw [transmit_readWr {} _ rfl]

/-- With `RPING` the responder takes the length 3 for 0x03000000. -/
theorem read_fields_rping :
    ¬BuiltFrom fieldsRead ((rnicRecvStep ⟨true, false⟩)^[3]
      (fieldsHost (untaggedWire (readReqHdr ⟨0, 0, 0, 0, 0⟩ 1) [fieldsRead.fields.bytes]))) := by
  have h4 : 4 ≤ maxRwCount := by decide
  obtain ⟨e, hrun, hreq⟩ := @recvStep_readReq_fields ⟨true, false⟩ (fieldsHost (untaggedWire
    (readReqHdr ⟨0, 0, 0, 0, 0⟩ 1) [fieldsRead.fields.bytes])) fieldsRead.fields 1 ⟨0, 0, 0, 0, 0⟩ []
    rfl rfl (fun _ => rfl) (fun _ => h4) (List.cons_ne_nil _ _) rfl (by decide)
    (List.append_nil _).symm
  rw [hrun, builtFrom_fillResp_iff hreq]
  decide

end SoftUiWarp
