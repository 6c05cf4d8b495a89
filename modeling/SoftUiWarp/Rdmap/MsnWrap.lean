import SoftUiWarp.Rdmap.Delivery
import SoftUiWarp.Rdmap.System

/-!
# The wrap of the sequence number

The counter of `rnic_send` is a `__u32`, and the queue's number stays 1 at the
peer, so `ddp_check_untagged_hdr` rejects the number 0 and no other. It comes
with the Send that follows `2 ^ 32 - 1` others; `ddp_recv` fails and the peer's
receive thread exits.

Results:
* `Posted.split`, `Emits.split`: the `n`-th Send of a sequence, and its bytes.
* `sends_rejected`: from the `2 ^ 32`-th Send on nothing is received.
* `sends_accepted_iff`: all Sends of a sequence are received exactly if there
  are fewer than `2 ^ 32`.
-/

namespace SoftUiWarp

open TcpStream ByteMem Runs

section

variable {smem : Mem} {tags : UInt32 → Option TaggedBuffer} {wrs : List SendWr}
  {recvs : List RecvWr} {ts : List Transfer}

/-! ## The `n`-th Send -/

/-- The requests and receives up to the `n`-th Send, the Send, and the rest. -/
theorem Posted.split (hp : Posted smem tags wrs recvs ts) {n : ℕ} (hn : n < recvs.length) :
    ∃ wrs₁ wr wrs₂ recvs₁ r recvs₂ ts₁ sg,
      wrs = wrs₁ ++ wr :: wrs₂ ∧ recvs = recvs₁ ++ r :: recvs₂ ∧ recvs₁.length = n ∧
      Posted smem tags wrs₁ recvs₁ ts₁ ∧ (wr.opcode = .send ∨ wr.opcode = .sendSe) ∧
      wr.sgList = .user [sg] ∧ 1 ≤ sg.length.toNat ∧ sg.length.toNat ≤ 65014 := by
  induction hp generalizing n with
  | nil => simp at hn
  | @write wr sges wrs recvs ts op list last total nowrap stag rest ih =>
    obtain ⟨wrs₁, w, wrs₂, recvs₁, r, recvs₂, ts₁, sg, rfl, rfl, hlen, hp₁, hop, hl, h1, h2⟩ := ih hn
    exact ⟨wr :: wrs₁, w, wrs₂, recvs₁, r, recvs₂, _, sg, rfl, rfl, hlen,
      .write op list last total nowrap stag hp₁, hop, hl, h1, h2⟩
  | @send wr sg r rsg wrs recvs ts op list pos le recv fits rest ih =>
    cases n with
    | zero => exact ⟨[], wr, wrs, [], r, recvs, [], sg, rfl, rfl, rfl, .nil, op, list, pos, le⟩
    | succ n =>
      obtain ⟨wrs₁, w, wrs₂, recvs₁, r', recvs₂, ts₁, sg', rfl, rfl, hlen, hp₁, hop, hl, h1, h2⟩ :=
        ih (by simpa using hn)
      exact ⟨wr :: wrs₁, w, wrs₂, r :: recvs₁, r', recvs₂, _, sg', rfl, rfl, by simp [hlen],
        .send op list pos le recv fits hp₁, hop, hl, h1, h2⟩

/-- The bytes of the requests before a Send, its own, and the rest. -/
theorem Emits.split {wrs₁ wrs₂ : List SendWr} {wr : SendWr} {recvs₁ : List RecvWr}
    {ts₁ : List Transfer} (hp : Posted smem tags wrs₁ recvs₁ ts₁) {msn : UInt32} {bs : List UInt8}
    (he : Emits smem msn (wrs₁ ++ wr :: wrs₂) bs) :
    ∃ bs₁ junk bs₂, bs = bs₁ ++ (reqWire smem junk (msn + UInt32.ofNat recvs₁.length) wr ++ bs₂) ∧
      Emits smem msn wrs₁ bs₁ := by
  induction hp generalizing msn bs with
  | nil =>
    obtain ⟨junk, bs', rfl, -⟩ := he
    exact ⟨[], junk, bs', by simp, rfl⟩
  | @write w sges wrs recvs ts op list last total nowrap stag rest ih =>
    obtain ⟨j, bs', rfl, hrest⟩ := he
    rw [if_pos op] at hrest
    obtain ⟨bs₁, junk, bs₂, rfl, h₁⟩ := ih hrest
    refine ⟨reqWire smem j msn w ++ bs₁, junk, bs₂, by rw [List.append_assoc], j, bs₁, rfl, ?_⟩
    rwa [if_pos op]
  | @send w sg r rsg wrs recvs ts op list pos le recv fits rest ih =>
    have hop : w.opcode ≠ .rdmaWrite := by rcases op with op | op <;> simp [op]
    obtain ⟨j, bs', rfl, hrest⟩ := he
    rw [if_neg hop] at hrest
    obtain ⟨bs₁, junk, bs₂, rfl, h₁⟩ := ih hrest
    refine ⟨reqWire smem j msn w ++ bs₁, junk, bs₂, ?_, j, bs₁, rfl, by rwa [if_neg hop]⟩
    have hone : msn + 1 + UInt32.ofNat recvs.length =
        msn + UInt32.ofNat (r :: recvs).length := by
      rw [List.length_cons, UInt32.ofNat_add, UInt32.add_assoc, UInt32.add_comm 1]
      rfl
    rw [List.append_assoc, hone]

theorem length_completions (hp : Posted smem tags wrs recvs ts) :
    (completions ts).length = recvs.length := by
  have h := congrArg List.length hp.completions.1
  simpa using h

end

/-! ## The number 0 -/

section

variable (bld : Build) {tags : UInt32 → Option TaggedBuffer} {recvs : List RecvWr}
  {bs rest : List UInt8} {ep : Ep}

/-- The thread exits when a Send carries the number 0. -/
theorem recvStep_msn_zero {op : RdmaOpcode} {junk : DdpUntaggedMeta} {p : List UInt8}
    (h : PeerReady tags recvs
      (untaggedWire { junk with rsvdULP1 := rdmaHdr op, qn := htonl sendQn, msn := htonl 0 } [p] ++
        bs) rest ep)
    (hne : p ≠ []) (hle : p.length ≤ mulpdu) :
    (rnicRecvStep bld ep).recvPc = .exited (-1) ∧ (rnicRecvStep bld ep).cq = ep.cq := by
  have hpend := h.pending
  rw [List.append_assoc] at hpend
  have hbounds : ∀ q ∈ [p], q ≠ [] ∧ q.length ≤ mulpdu := by
    intro q hq
    rw [List.mem_singleton.mp hq]
    exact ⟨hne, hle⟩
  have hzero : (0 : UInt32) < UInt32.ofInt (ep.ddp.queues 0).msn := by
    rw [h.msn]
    decide
  have hhead := ddpRecvHead_untaggedWire_rejected ep.msg h.failFree h.four_le
    (List.cons_ne_nil p []) hbounds hpend (by
      simp only [ntohl_htonl, ddpCheckUntaggedHdr, sendQn]
      rw [dif_pos (by decide)]
      exact if_pos hzero)
  obtain ⟨pc, hstep, ⟨r, hr, rfl⟩ | ⟨c, hc, -⟩⟩ := recvStep_idle bld h.idle h.connected
  · rw [hhead] at hr
    obtain rfl := Sum.inl.inj hr
    rw [hstep]
    exact ⟨rfl, rfl⟩
  · rw [hhead] at hc
    cases hc

/-- From the `2 ^ 32`-th Send on nothing is received: the completions never
    become as many as the receives posted. -/
theorem sends_rejected {smem : Mem} {wrs : List SendWr} {ts : List Transfer}
    (hp : Posted smem tags wrs recvs ts) (hmany : 2 ^ 32 ≤ recvs.length) (hbs : Emits smem 1 wrs bs)
    (hready : PeerReady tags recvs bs rest ep) (m : ℕ) :
    ((rnicRecvStep bld)^[m] ep).cq.length < ep.cq.length + recvs.length := by
  obtain ⟨wrs₁, wr, wrs₂, recvs₁, r, recvs₂, ts₁, sg, rfl, rfl, hlen, hp₁, hop, hl, hpos, hle⟩ :=
    hp.split (n := 2 ^ 32 - 1) (by omega)
  obtain ⟨bs₁, junk, bs₂, rfl, hbs₁⟩ := Emits.split hp₁ hbs
  have hmsn : 1 + UInt32.ofNat recvs₁.length = 0 := by
    rw [hlen]
    decide
  obtain ⟨hcne, hcle⟩ := Sge.content_bounds smem hpos hle
  rw [hmsn, reqWire_send smem junk 0 hop hl hpos hle] at hready
  have hpend := hready.pending
  rw [List.append_assoc] at hpend
  -- the Sends before it are received
  obtain ⟨ep₁, hthr, hready₁, -, ws, hcq, hws⟩ := rnicRecv_applies bld (r :: recvs₂) hp₁ ep 1 bs₁
    (by rw [hlen]; decide) (fun _ => by decide) hbs₁
    ⟨hready.idle, hready.connected, hready.registry, hready.buffers, hready.msn, hready.rq,
      hready.failFree, hready.ready, hpend⟩
  have hbound : ∀ e : Ep, Progress ep.mem.load ep.cq ts₁ e →
      e.cq.length < ep.cq.length + (recvs₁ ++ r :: recvs₂).length := by
    rintro e ⟨-, k, -, ⟨ws, hcq, hws⟩, -⟩
    have hle : ws.length ≤ recvs₁.length := by
      rw [← List.length_map WorkCompletion.summary, hws, ← length_completions hp₁]
      exact ((List.take_sublist k ts₁).filterMap _).length_le
    rw [hcq]
    simp only [List.length_append, List.length_cons]
    omega
  -- then the thread exits
  have hready₂ : PeerReady tags (r :: recvs₂) (untaggedWire
      { junk with rsvdULP1 := rdmaHdr wr.opcode, qn := htonl sendQn, msn := htonl 0 }
      [sg.content smem] ++ bs₂) rest ep₁ :=
    ⟨hready₁.idle, hready₁.connected, hready₁.registry, hready₁.buffers, hready₁.msn, hready₁.rq,
      hready₁.failFree, hready₁.ready, hready₁.pending⟩
  obtain ⟨hexit, hcq₁⟩ := recvStep_msn_zero bld hready₂ hcne hcle
  have hrun := hthr.mono hbound
  have hlast : ep₁.cq.length < ep.cq.length + (recvs₁ ++ r :: recvs₂).length := by
    obtain ⟨n, hn, hall⟩ := hrun
    rw [← hn]
    exact hall n le_rfl
  have hstop : rnicRecvStep bld (rnicRecvStep bld ep₁) = rnicRecvStep bld ep₁ := by
    rw [rnicRecvStep, hexit]
  have hwhole := hrun.trans (Through.step (f := rnicRecvStep bld) hlast (by rw [hcq₁]; exact hlast))
  exact hwhole.always hstop m

end

/-! ## Long-lived streams -/

/-- The peer completes a receive for every Send exactly if there are fewer than
    `2 ^ 32`: the `2 ^ 32`-th is rejected. -/
theorem sends_accepted_iff {snd : Ep} {wrs : List SendWr} {recvs : List RecvWr}
    {tags : UInt32 → Option TaggedBuffer} {ts : List Transfer} (bld : Build)
    (junk : ℕ → DdpUntaggedMeta) (hposted : Posted snd.mem tags wrs recvs ts)
    (hsnd : SenderReady snd wrs) :
    ∃ n bs, SenderReady (rnicSend junk n ({}, snd)).2 [] ∧
      (rnicSend junk n ({}, snd)).2.ddp.outb.sent = snd.ddp.outb.sent ++ bs ∧
      ∀ (peer : Ep) (rest : List UInt8), PeerReady tags recvs bs rest peer →
        ((∃ m ws, ((rnicRecvStep bld)^[m] peer).cq = peer.cq ++ ws ∧
            ws.map WorkCompletion.wrId = recvs.map RecvWr.wrId) ↔
          recvs.length < 2 ^ 32) := by
  obtain ⟨bs, hbs, hend, hsent⟩ := rnicSend_emits hposted junk {} snd hsnd rfl
  refine ⟨_, bs, hend, hsent, fun peer rest hpeer => ⟨?_, fun hfew => ?_⟩⟩
  · rintro ⟨m, ws, hcq, hids⟩
    by_contra hmany
    have hlt := sends_rejected bld hposted (by omega) hbs hpeer m
    have hlen := congrArg List.length hids
    simp only [List.length_map] at hlen
    rw [hcq, List.length_append] at hlt
    omega
  · have h1 : (({} : Statics).sendMsn).toNat = 1 := rfl
    obtain ⟨peer', ⟨m, hm, -⟩, -, -, ws, hcq, hws⟩ := rnicRecv_applies bld [] hposted peer _ bs
      (by rw [h1]; omega) (fun _ => by decide) hbs (by rwa [List.append_nil])
    refine ⟨m, ws, by rw [hm, hcq], ?_⟩
    rw [← hposted.completions.1, ← hws, List.map_map]
    rfl

section

variable {tags : UInt32 → Option TaggedBuffer} {bs rest : List UInt8}

theorem PeerReady.postRecv {recvs : List RecvWr} {ep : Ep} (h : PeerReady tags recvs bs rest ep)
    (more : List RecvWr) :
    PeerReady tags (recvs ++ more) bs rest (more.foldl rdmaPostRecv ep) := by
  induction more generalizing recvs ep with
  | nil => simpa using h
  | cons r more ih =>
    rw [List.append_cons]
    refine ih ⟨h.idle, h.connected, h.registry, ?_, h.msn, ?_, h.failFree, h.ready, h.pending⟩
    · rw [List.flatMap_append, ← h.buffers, List.flatMap_singleton]
      rfl
    · show ep.rq ++ [r] = recvs ++ [r]
      rw [h.rq]

theorem foldl_postRecv_cq (recvs : List RecvWr) (ep : Ep) :
    (recvs.foldl rdmaPostRecv ep).cq = ep.cq := by
  induction recvs generalizing ep with
  | nil => rfl
  | cons r recvs ih => exact ih (rdmaPostRecv ep r)

theorem SenderReady.post {wrs : List SendWr} {ep : Ep} (h : SenderReady ep wrs)
    (more : List SendWr) : SenderReady (more.foldl rdmapPost ep) (wrs ++ more) ∧
      (more.foldl rdmapPost ep).ddp = ep.ddp := by
  induction more generalizing wrs ep with
  | nil => simpa using h
  | cons wr more ih =>
    rw [List.append_cons]
    refine @ih _ (rdmapPost ep wr) ⟨h.idle, h.connected, ?_, h.evs⟩
    show ep.sq ++ [wr] = wrs ++ [wr]
    rw [h.sq]

end

/-- A new stream on which the peer sends `bs`. -/
def newEp (bs : List UInt8) : Ep := (newSys bs).ep

/-- A Send of one byte. -/
def byteSend : SendWr := ⟨1, .user [⟨0x1009, 1, 0⟩], .send, 0, 0, 0⟩

/-- A receive of four bytes. -/
def byteRecv : RecvWr := ⟨11, [⟨0x7000, 4, 0⟩]⟩

/-- A stream with `k` Sends posted. -/
def senderOf (k : ℕ) : Ep := (List.replicate k byteSend).foldl rdmapPost (newEp [])

/-- A stream with `k` receives posted. -/
def receiverOf (k : ℕ) (bs : List UInt8) : Ep :=
  (List.replicate k byteRecv).foldl rdmaPostRecv (newEp bs)

section

variable (k : ℕ)

theorem posted_replicate (smem : Mem) : ∃ ts, Posted smem (fun _ => none) (List.replicate k byteSend)
    (List.replicate k byteRecv) ts := by
  induction k with
  | zero => exact ⟨[], .nil⟩
  | succ k ih =>
    obtain ⟨ts, h⟩ := ih
    exact ⟨_, .send (.inl rfl) rfl (by decide) (by decide) rfl (by decide) h⟩

theorem senderOf_ready : SenderReady (senderOf k) (List.replicate k byteSend) ∧
    (senderOf k).ddp.outb.sent = [] := by
  have h : SenderReady (newEp []) [] := ⟨rfl, rfl, rfl, rfl⟩
  obtain ⟨hready, hddp⟩ := h.post (List.replicate k byteSend)
  refine ⟨hready, ?_⟩
  rw [senderOf, hddp]
  rfl

theorem receiverOf_ready (bs : List UInt8) :
    PeerReady (fun _ => none) (List.replicate k byteRecv) bs [] (receiverOf k bs) := by
  have h : PeerReady (fun _ => none) [] bs [] (newEp bs) :=
    ⟨rfl, rfl, rfl, rfl, rfl, rfl, fun _ => rfl, fun _ => le_rfl, (List.append_nil bs).symm⟩
  exact h.postRecv _

end

/-- Two Sends are received. -/
theorem sends_accepted_two :
    ∃ n m, let bs := (rnicSend (fun _ => ⟨0, 0, 0, 0, 0⟩) n ({}, senderOf 2)).2.ddp.outb.sent
      ((rnicRecvStep ⟨false, false⟩)^[m] (receiverOf 2 bs)).cq.map WorkCompletion.wrId = [11, 11] := by
  obtain ⟨ts, hposted⟩ := posted_replicate 2 (senderOf 2).mem
  obtain ⟨hsnd, hnil⟩ := senderOf_ready 2
  obtain ⟨n, bs, -, hsent, hpeer⟩ := sends_accepted_iff ⟨false, false⟩ (fun _ => ⟨0, 0, 0, 0, 0⟩)
    hposted hsnd
  rw [hnil, List.nil_append] at hsent
  obtain ⟨m, ws, hcq, hids⟩ := (hpeer _ [] (receiverOf_ready 2 bs)).mpr (by decide)
  have hnew : (receiverOf 2 bs).cq = [] := foldl_postRecv_cq _ _
  refine ⟨n, m, ?_⟩
  simp only [hsent, hcq, hnew, List.nil_append]
  exact hids

/-- Of `2 ^ 32` Sends, each with its receive, not all are received. -/
theorem sends_accepted_wrap :
    let snd := senderOf (2 ^ 32)
    let bs := (rnicSend (fun _ => ⟨0, 0, 0, 0, 0⟩) (3 * 2 ^ 32) ({}, snd)).2.ddp.outb.sent
    ∀ m, ((rnicRecvStep ⟨false, false⟩)^[m] (receiverOf (2 ^ 32) bs)).cq.length < 2 ^ 32 := by
  have hwrap : ∀ k, 2 ^ 32 ≤ k → ∀ m, ((rnicRecvStep ⟨false, false⟩)^[m] (receiverOf k
      (rnicSend (fun _ => ⟨0, 0, 0, 0, 0⟩) (3 * k) ({}, senderOf k)).2.ddp.outb.sent)).cq.length < k := by
    intro k hk m
    obtain ⟨ts, hposted⟩ := posted_replicate k (senderOf k).mem
    obtain ⟨hsnd, hnil⟩ := senderOf_ready k
    obtain ⟨bs, hbs, -, hsent⟩ := rnicSend_emits hposted (fun _ => ⟨0, 0, 0, 0, 0⟩) {} (senderOf k)
      hsnd rfl
    rw [List.length_replicate, hnil, List.nil_append] at hsent
    have hlt := sends_rejected ⟨false, false⟩ hposted (by rwa [List.length_replicate]) hbs
      (receiverOf_ready k bs) m
    have hnew : (receiverOf k bs).cq = [] := foldl_postRecv_cq _ _
    rw [hnew, List.length_nil, Nat.zero_add, List.length_replicate] at hlt
    rwa [hsent]
  exact hwrap (2 ^ 32) le_rfl

end SoftUiWarp
