import SoftUiWarp.Ddp.Recv
import SoftUiWarp.Ddp.Registry
import SoftUiWarp.Ddp.Send

/-!
# What `ddp_recv` makes of the bytes a DDP sender emits

The sender's bytes are the packets of one message (`Carries`), so the results
on complete messages apply. A tagged message lands where it was addressed,
whatever its segmentation. The segments of an untagged message carry their
offset in host order, which the receiver converts: only a message of a single
segment, whose offset is 0, lands at the start of its buffer and nowhere else.

Results:
* `ddpRecv_taggedWire`, `ddpRecv_untaggedWire`: the whole effect of `ddp_recv`
  on what either sender emits.
* `tagged_roundTrip`: a tagged message is stored at its target.
* `untagged_roundTrip_iff`: an untagged message is stored in its buffer exactly
  when it is sent as one segment.
-/

namespace SoftUiWarp

open TcpStream ByteMem Endian

/-! ## The packets of a sent message -/

section

variable {σ : Type} (H : SegHdr σ)

/-- The packets `fs` carry the pieces `ps`, from the header state `h` on. -/
def Carries (bits : UInt8) : List (List UInt8) → σ → List Fpdu → Prop
  | [], _, fs => fs = []
  | p :: ps, h, fs => ∃ f fs', fs = f :: fs' ∧
      f.ulpdu = (if ps = [] then bits ||| ddpFlagLast else bits) :: (H.bytes h ++ p) ∧
      Carries bits ps (H.advance h p.length) fs'

variable {H} {bits : UInt8} {n : ℕ}

theorem exists_carries (bits : UInt8) (hn : ∀ h, (H.bytes h).length = n)
    (hmax : n + 1 + mulpdu < 2 ^ 16) :
    ∀ (ps : List (List UInt8)) (h : σ), (∀ p ∈ ps, p ≠ [] ∧ p.length ≤ mulpdu) →
      ∃ fs, Carries H bits ps h fs ∧ segWire H bits ps h = wireOf fs := by
  intro ps
  induction ps with
  | nil => intro h _; exact ⟨[], rfl, rfl⟩
  | cons p ps ih =>
    intro h hps
    obtain ⟨fs, hfs, hwire⟩ := ih (H.advance h p.length) fun q hq => hps q (by simp [hq])
    obtain ⟨b, hb⟩ : ∃ b, b = if ps = [] then bits ||| ddpFlagLast else bits := ⟨_, rfl⟩
    have hflat : [[b], H.bytes h, p].flatten = b :: (H.bytes h ++ p) := by simp
    have hlen : [[b], H.bytes h, p].flatten.length = n + 1 + p.length := by
      rw [hflat, List.length_cons, List.length_append, hn]
      omega
    have hp := (hps p (by simp)).2
    refine ⟨Fpdu.ofUlpdu [[b], H.bytes h, p].flatten (by omega) (by omega) :: fs,
      ⟨_, fs, rfl, ?_, hfs⟩, ?_⟩
    · rw [← hb, ← hflat]
      rfl
    · rw [segWire, ← hb, hwire, wireOf_cons, fpdu_eq_wire (by omega) (by omega)]

/-- The header and the payload of a packet that carries `p`. -/
theorem ulpdu_parts {f : Fpdu} {b : UInt8} {bs p : List UInt8} (hu : f.ulpdu = b :: (bs ++ p))
    (hbs : bs.length = n) :
    f.hdr (n + 1) = b :: bs ∧ f.payload (n + 1) = p ∧ f.len = n + 1 + p.length ∧ f.ctrl = b := by
  refine ⟨?_, ?_, ?_, ?_⟩
  · rw [Fpdu.hdr, hu, List.take_succ_cons, List.take_left' hbs]
  · rw [Fpdu.payload, hu, List.drop_succ_cons, List.drop_left' hbs]
  · rw [Fpdu.len, hu, List.length_cons, List.length_append, hbs]
    omega
  · simp [Fpdu.ctrl, hu]

theorem Carries.payloadOf (hn : ∀ h, (H.bytes h).length = n) :
    ∀ {ps : List (List UInt8)} {h : σ} {fs : List Fpdu}, Carries H bits ps h fs →
      payloadOf (n + 1) fs = ps.flatten := by
  intro ps
  induction ps with
  | nil => rintro h fs rfl; rfl
  | cons p ps ih =>
    rintro h _ ⟨f, fs, rfl, hu, hfs⟩
    rw [payloadOf_cons, ih hfs, (ulpdu_parts hu (hn h)).2.1, List.flatten_cons]

theorem Carries.lt_len (hn : ∀ h, (H.bytes h).length = n) :
    ∀ {ps : List (List UInt8)} {h : σ} {fs : List Fpdu}, Carries H bits ps h fs →
      (∀ p ∈ ps, p ≠ [] ∧ p.length ≤ mulpdu) → ∀ g ∈ fs, n + 1 < g.len := by
  intro ps
  induction ps with
  | nil => rintro h fs rfl _ g hg; simp at hg
  | cons p ps ih =>
    rintro h _ ⟨f, fs, rfl, hu, hfs⟩ hps g hg
    rcases List.mem_cons.mp hg with rfl | hg
    · have hp := List.length_pos_iff.mpr (hps p (by simp)).1
      rw [(ulpdu_parts hu (hn h)).2.2.1]
      omega
    · exact ih hfs (fun q hq => hps q (by simp [hq])) g hg

theorem Carries.isMessage (hn : ∀ h, (H.bytes h).length = n) (hbits : bits &&& ddpFlagLast = 0)
    (hlast : (bits ||| ddpFlagLast) &&& ddpFlagLast ≠ 0) :
    ∀ {ps : List (List UInt8)} {h : σ} {fs : List Fpdu}, Carries H bits ps h fs → ps ≠ [] →
      IsMessage (n + 1) fs := by
  intro ps
  induction ps with
  | nil => intro h fs _ hne; exact absurd rfl hne
  | cons p ps ih =>
    rintro h _ ⟨f, fs, rfl, hu, hfs⟩ _
    obtain ⟨-, -, hlen, hctrl⟩ := ulpdu_parts hu (hn h)
    have hle : n + 1 ≤ f.len := by omega
    by_cases hps : ps = []
    · subst hps
      obtain rfl : fs = [] := hfs
      exact ⟨hle, by simpa [Fpdu.last, hctrl] using hlast⟩
    · have hmsg := ih hfs hps
      cases fs with
      | nil => exact hmsg.elim
      | cons g gs => exact ⟨hle, by simp [Fpdu.last, hctrl, hps, hbits], hmsg⟩

end

/-! ## Where the segments go -/

@[simp] theorem DdpTaggedMeta.length_bytes (h : DdpTaggedMeta) : h.bytes.length = 13 := by
  simp [DdpTaggedMeta.bytes]

@[simp] theorem DdpUntaggedMeta.length_bytes (h : DdpUntaggedMeta) : h.bytes.length = 17 := by
  simp [DdpUntaggedMeta.bytes]

theorem taggedSegHdr_bytes (h : DdpTaggedMeta × UInt64) : taggedSegHdr.bytes h = h.1.bytes := rfl

theorem untaggedSegHdr_bytes (h : DdpUntaggedMeta) : untaggedSegHdr.bytes h = h.bytes := rfl

/-- The header fields as the receiver reads them. -/
theorem wireTagged_bytes (b : UInt8) (h : DdpTaggedMeta) :
    wireTagged (b :: h.bytes) = ⟨h.rsvdULP1, ntohl h.tag, ntohll h.TO⟩ := by
  have h1 : (bytes32 h.tag ++ bytes64 h.TO).take 4 = bytes32 h.tag := List.take_left' (by simp)
  have h2 : (bytes32 h.tag ++ bytes64 h.TO).drop 4 = bytes64 h.TO := List.drop_left' (by simp)
  have h3 : (bytes64 h.TO).take 8 = bytes64 h.TO := List.take_of_length_le (by simp)
  simp only [wireTagged, DdpTaggedMeta.bytes, List.cons_append, List.nil_append,
    List.drop_succ_cons, List.drop_zero, h1, h2, h3, word32_bytes32, word64_bytes64]
  rfl

theorem wireUntagged_bytes (b : UInt8) (h : DdpUntaggedMeta) :
    wireUntagged (b :: h.bytes) =
      ⟨h.rsvdULP1, h.rsvdULP2, ntohl h.qn, ntohl h.msn, ntohl h.mo⟩ := by
  obtain ⟨r1, r2, qn, msn, mo⟩ := h
  have h1 : (bytes32 r2 ++ (bytes32 qn ++ (bytes32 msn ++ bytes32 mo))).take 4 = bytes32 r2 :=
    List.take_left' (by simp)
  have h2 : (bytes32 r2 ++ (bytes32 qn ++ (bytes32 msn ++ bytes32 mo))).drop 4 =
      bytes32 qn ++ (bytes32 msn ++ bytes32 mo) := List.drop_left' (by simp)
  have h3 : (bytes32 r2 ++ (bytes32 qn ++ (bytes32 msn ++ bytes32 mo))).drop 8 =
      bytes32 msn ++ bytes32 mo := by
    rw [← List.append_assoc, List.drop_left' (by simp)]
  have h4 : (bytes32 r2 ++ (bytes32 qn ++ (bytes32 msn ++ bytes32 mo))).drop 12 = bytes32 mo := by
    rw [← List.append_assoc, ← List.append_assoc, List.drop_left' (by simp)]
  have h5 : (bytes32 qn ++ (bytes32 msn ++ bytes32 mo)).take 4 = bytes32 qn :=
    List.take_left' (by simp)
  have h6 : (bytes32 msn ++ bytes32 mo).take 4 = bytes32 msn := List.take_left' (by simp)
  have h7 : (bytes32 mo).take 4 = bytes32 mo := List.take_of_length_le (by simp)
  simp only [wireUntagged, DdpUntaggedMeta.bytes, List.append_assoc, List.cons_append,
    List.nil_append, List.drop_succ_cons, List.drop_zero, h1, h2, h3, h4, h5, h6, h7,
    word32_bytes32]
  rfl

/-- The stores of a segment's payload. -/
theorem FieldSpec.placement_stores {K : SegKind} {α : Type} (S : FieldSpec K α) (v : α) (f : Fpdu) :
    (S.placement v f).stores =
      stores (S.destOf (S.next v (f.hdr K.hdrSize))) (f.payload K.hdrSize) := rfl

theorem nextTO_bytes (v : UInt64) (b : UInt8) (h : DdpTaggedMeta) :
    nextTO v (b :: h.bytes) = ntohll h.TO := by
  rw [nextTO_full v (by simp), wireTagged_bytes]

theorem nextMO_bytes (v : UInt32) (b : UInt8) (h : DdpUntaggedMeta) :
    nextMO v (b :: h.bytes) = ntohl h.mo := by
  rw [nextMO_full v (by simp), wireUntagged_bytes]

/-- The running target offset stays in network order, so each segment of a
    tagged message follows the one before it. -/
theorem Carries.tagged_stores {bits : UInt8} : ∀ {ps : List (List UInt8)}
    {h : DdpTaggedMeta × UInt64} {fs : List Fpdu}, Carries taggedSegHdr bits ps h fs →
      ntohll h.1.TO = h.2 →
      (fs.map (taggedField.placement 0)).flatMap Placement.stores = stores h.2 ps.flatten := by
  intro ps
  induction ps with
  | nil => rintro h fs rfl _; rfl
  | cons p ps ih =>
    rintro h _ ⟨f, fs, rfl, hu, hfs⟩ hTO
    obtain ⟨hhdr, hpay, -, -⟩ := ulpdu_parts hu (DdpTaggedMeta.length_bytes h.1)
    have hrest := ih hfs (ntohll_htonll _)
    rw [List.map_cons, List.flatMap_cons, hrest, FieldSpec.placement_stores]
    change stores (nextTO 0 (f.hdr 14)) (f.payload 14) ++ _ = _
    rw [hhdr, hpay, taggedSegHdr_bytes, nextTO_bytes, hTO, List.flatten_cons, stores_append]
    simp only [taggedSegHdr, UInt64.ofInt_natCast]

/-- The stores of an untagged message sent as the pieces `ps` when the first
    has the offset field `mo`: each later offset is the sum of the lengths so
    far, read with its bytes reversed. -/
def untaggedStores (data : UInt64) : UInt32 → List (List UInt8) → List (UInt64 × UInt8)
  | _, [] => []
  | mo, p :: ps => stores (data + (ntohl mo).toUInt64) p ++
      untaggedStores data (mo + UInt32.ofNat p.length) ps

theorem Carries.untagged_stores {bits : UInt8} (data : UInt64) : ∀ {ps : List (List UInt8)}
    {h : DdpUntaggedMeta} {fs : List Fpdu}, Carries untaggedSegHdr bits ps h fs →
      (fs.map ((untaggedField data).placement 0)).flatMap Placement.stores =
        untaggedStores data h.mo ps := by
  intro ps
  induction ps with
  | nil => rintro h fs rfl; rfl
  | cons p ps ih =>
    rintro h _ ⟨f, fs, rfl, hu, hfs⟩
    obtain ⟨hhdr, hpay, -, -⟩ := ulpdu_parts hu (DdpUntaggedMeta.length_bytes h)
    have hrest := ih hfs
    rw [List.map_cons, List.flatMap_cons, hrest, FieldSpec.placement_stores, untaggedStores]
    change stores (data + (nextMO 0 (f.hdr 18)).toUInt64) (f.payload 18) ++ _ = _
    rw [hhdr, hpay, untaggedSegHdr_bytes, nextMO_bytes]
    simp only [untaggedSegHdr, UInt32.ofInt_natCast]

/-! ## The whole effect -/

section

variable {ctx : DdpCtx} (mem : Mem) (msg : DdpMessage) {ps : List (List UInt8)}
  {rest : List UInt8}

/-- What `ddp_recv` makes of a tagged message addressed to a valid STag. -/
theorem ddpRecv_taggedWire {nextHdr : DdpTaggedMeta} {b : TaggedBuffer} (hf : ctx.inb.FailFree)
    (hr : ∀ p, 4 ≤ ctx.inb.ready p) (hne : ps ≠ []) (hps : ∀ p ∈ ps, p ≠ [] ∧ p.length ≤ mulpdu)
    (hp : ctx.inb.pending = taggedWire nextHdr ps ++ rest)
    (hb : ddpCheckStag ctx.taggedBuffers
      ⟨nextHdr.rsvdULP1, ntohl nextHdr.tag, ntohll nextHdr.TO⟩ = some b) :
    ∃ c placed, ddpIsTagged c = true ∧
      ddpRecv ctx mem msg =
        ⟨.val 0, { ctx with inb := ctx.inb.advance (taggedWire nextHdr ps).length },
          mem.write (stores (ntohll nextHdr.TO) ps.flatten),
          { taggedHdrMsg msg (c :: nextHdr.bytes) with buf := .tag b, len := ps.flatten.length },
          placed⟩ := by
  obtain ⟨fs, hfs, hwire⟩ := exists_carries (H := taggedSegHdr) 0x81
    (fun h => DdpTaggedMeta.length_bytes h.1) (by decide) ps (nextHdr, ntohll nextHdr.TO) hps
  have hmsg := hfs.isMessage (fun h => DdpTaggedMeta.length_bytes h.1) (by decide) (by decide) hne
  have hlen := hfs.lt_len (fun h => DdpTaggedMeta.length_bytes h.1) hps
  have hpay := hfs.payloadOf fun h => DdpTaggedMeta.length_bytes h.1
  have hst := hfs.tagged_stores rfl
  obtain ⟨p, ps, rfl⟩ := List.exists_cons_of_ne_nil hne
  obtain ⟨f, fs, rfl, hu, -⟩ := hfs
  obtain ⟨hhdr, -, -, hctrl⟩ := ulpdu_parts hu (DdpTaggedMeta.length_bytes nextHdr)
  have ht : ddpIsTagged f.ctrl = true := by
    rw [hctrl]
    split_ifs <;> decide
  have hb' : ddpCheckStag ctx.taggedBuffers (wireTagged (f.hdr 14)) = some b := by
    rw [hhdr, taggedSegHdr_bytes, wireTagged_bytes]
    exact hb
  rw [taggedWire, hwire] at hp
  refine ⟨f.ctrl, (f :: fs).map (taggedField.placement 0), ht, ?_⟩
  rw [ddpRecv_tagged mem msg hf hmsg hlen hp (msgReady_of_le hr _ _) ht hb', hst, hhdr, ← hctrl]
  simp only [taggedWire, hwire]
  congr 2
  exact congrArg (fun l => (List.length l : ℤ)) hpay

/-- What `ddp_recv` makes of an untagged message for a queue with a buffer. -/
theorem ddpRecv_untaggedWire {nextHdr : DdpUntaggedMeta} {qn : Fin 3} {b : UntaggedBuffer}
    {bs : List UntaggedBuffer} (hf : ctx.inb.FailFree) (hr : ∀ p, 4 ≤ ctx.inb.ready p)
    (hne : ps ≠ []) (hps : ∀ p ∈ ps, p ≠ [] ∧ p.length ≤ mulpdu)
    (hp : ctx.inb.pending = untaggedWire nextHdr ps ++ rest)
    (hqn : ddpCheckUntaggedHdr ctx.queues
      ⟨nextHdr.rsvdULP1, nextHdr.rsvdULP2, ntohl nextHdr.qn, ntohl nextHdr.msn, 0⟩ = some qn)
    (hq : (ctx.queues qn).q = b :: bs) :
    ∃ c placed, ddpIsTagged c = false ∧
      ddpRecv ctx mem msg =
        ⟨.val 0,
          { ctx with
            inb := ctx.inb.advance (untaggedWire nextHdr ps).length
            queues := Function.update ctx.queues qn { ctx.queues qn with q := bs } },
          mem.write (untaggedStores b.data 0 ps),
          { untaggedHdrMsg msg (c :: { nextHdr with mo := 0 }.bytes) with
            hdrUnion := (untaggedHdrMsg msg (c :: { nextHdr with mo := 0 }.bytes)).hdrUnion.patch
              ((bytes32 0).zipIdx 13)
            buf := .untag b
            len := ps.flatten.length },
          placed⟩ := by
  obtain ⟨fs, hfs, hwire⟩ := exists_carries (H := untaggedSegHdr) 0x01
    DdpUntaggedMeta.length_bytes (by decide) ps { nextHdr with mo := 0 } hps
  have hmsg := hfs.isMessage DdpUntaggedMeta.length_bytes (by decide) (by decide) hne
  have hlen := hfs.lt_len DdpUntaggedMeta.length_bytes hps
  have hpay := hfs.payloadOf DdpUntaggedMeta.length_bytes
  have hst := hfs.untagged_stores b.data
  obtain ⟨p, ps, rfl⟩ := List.exists_cons_of_ne_nil hne
  obtain ⟨f, fs, rfl, hu, -⟩ := hfs
  obtain ⟨hhdr, -, -, hctrl⟩ := ulpdu_parts hu (DdpUntaggedMeta.length_bytes _)
  have ht : ddpIsTagged f.ctrl = false := by
    rw [hctrl]
    split_ifs <;> decide
  have hqn' : ddpCheckUntaggedHdr ctx.queues (wireUntagged (f.hdr 18)) = some qn := by
    rw [hhdr, untaggedSegHdr_bytes, wireUntagged_bytes]
    exact hqn
  rw [untaggedWire, hwire] at hp
  refine ⟨f.ctrl, (f :: fs).map ((untaggedField b.data).placement 0), ht, ?_⟩
  rw [ddpRecv_untagged mem msg hf hmsg hlen hp (msgReady_of_le hr _ _) ht hqn' hq, hst, hhdr, ← hctrl]
  simp only [untaggedWire, hwire]
  congr 2
  exact congrArg (fun l => (List.length l : ℤ)) hpay

/-- An untagged message whose header is rejected. -/
theorem ddpRecvHead_untaggedWire_rejected {nextHdr : DdpUntaggedMeta} (hf : ctx.inb.FailFree)
    (hr : ∀ p, 4 ≤ ctx.inb.ready p) (hne : ps ≠ []) (hps : ∀ p ∈ ps, p ≠ [] ∧ p.length ≤ mulpdu)
    (hp : ctx.inb.pending = untaggedWire nextHdr ps ++ rest)
    (hqn : ddpCheckUntaggedHdr ctx.queues
      ⟨nextHdr.rsvdULP1, nextHdr.rsvdULP2, ntohl nextHdr.qn, ntohl nextHdr.msn, 0⟩ = none) :
    (ddpRecvHead ctx msg).next = .inl (.val (-1)) := by
  obtain ⟨fs, hfs, hwire⟩ := exists_carries (H := untaggedSegHdr) 0x01
    DdpUntaggedMeta.length_bytes (by decide) ps { nextHdr with mo := 0 } hps
  have hlen := hfs.lt_len DdpUntaggedMeta.length_bytes hps
  obtain ⟨p, ps, rfl⟩ := List.exists_cons_of_ne_nil hne
  obtain ⟨f, fs, rfl, hu, -⟩ := hfs
  obtain ⟨hhdr, -, -, hctrl⟩ := ulpdu_parts hu (DdpUntaggedMeta.length_bytes _)
  have ht : ddpIsTagged f.ctrl = false := by
    rw [hctrl]
    split_ifs <;> decide
  have hH := hlen f (by simp)
  rw [untaggedWire, hwire, wireOf_cons, List.append_assoc] at hp
  have hready := msgReady_of_le hr ctx.inb.pos (f :: fs)
  have hfirst := firstReady_wire hp (by decide) hH hready.1.1
  have hraw : segRaw 18 ctx.inb.pending = f.hdr 18 := by rw [hp, segRaw_wire hH.le]
  have hqn' : ddpCheckUntaggedHdr ctx.queues (wireUntagged (f.hdr 18)) = none := by
    rw [hhdr, untaggedSegHdr_bytes, wireUntagged_bytes]
    exact hqn
  have hhead := ddpRecvHead_untagged_of_ready msg hf (by rw [hp, ctrl_wire]; exact ht) hfirst
  simp only [hraw, hqn'] at hhead
  rw [hhead]

end

/-! ## Tagged messages -/

/-- The number of bytes an sge list designates. -/
def sgesLength (sges : List Sge) : ℕ := (sges.map fun sg => sg.length.toNat).sum

theorem length_sgesContent (sges : List Sge) (mem : Mem) :
    (sgesContent sges mem).length = sgesLength sges := by
  simp [sgesContent, sgesLength, Sge.content, List.length_flatMap]

theorem length_le_sgesLength {sges : List Sge} {sg : Sge} (h : sg ∈ sges) :
    sg.length.toNat ≤ sgesLength sges :=
  List.single_le_sum (by simp) _ (List.mem_map_of_mem h)

/-- A tagged message of any segmentation is stored at the target the sender
    named, byte after byte, and nothing else is stored. -/
theorem tagged_roundTrip {out : Outbound} {smem rmem : Mem} {ctx : DdpCtx} {msg : DdpMessage}
    {sges : List Sge} {rsvdULP1 : UInt8} {tag : UInt32} {TO : UInt64} {b : TaggedBuffer} {n : ℕ}
    {emitted rest : List UInt8} (hev : out.evs = []) (hlast : LastNonempty sges)
    (hn : sgesLength sges = n) (hmax : n < 2 ^ 31) (htag : ctx.taggedBuffers tag = some b)
    (hlo : b.data ≤ TO) (hhi : TO ≤ b.data + b.len) (hwrap : TO.toNat + n < 2 ^ 64)
    (hsent : (ddpSendTagged out smem ⟨rsvdULP1, htonl tag, htonll TO⟩ sges).2.sent =
      out.sent ++ emitted)
    (hfree : ctx.inb.FailFree) (hfull : ∀ p, maxRwCount ≤ ctx.inb.ready p)
    (hin : ctx.inb.pending = emitted ++ rest) :
    let r := ddpRecv ctx rmem msg
    (ddpSendTagged out smem ⟨rsvdULP1, htonl tag, htonll TO⟩ sges).1 = 0 ∧
      r.ret = .val 0 ∧ r.msg.len = n ∧ r.msg.taggedMetadata.TO = TO ∧
      r.mem = rmem.write (stores TO (sgesContent sges smem)) ∧
      (∀ a, r.mem.load a = if TO.toNat ≤ a.toNat ∧ a.toNat < TO.toNat + n
        then (sgesContent sges smem).getD (a.toNat - TO.toNat) 0 else rmem.load a) ∧
      r.ctx.inb.pending = rest := by
  have hlen : ∀ sg ∈ sges, sg.length.toNat < 2 ^ 31 := by
    intro sg hsg
    have := length_le_sgesLength hsg
    omega
  rw [ddpSendTagged_eq hlen hlast hev] at hsent ⊢
  have hem : emitted = taggedWire ⟨rsvdULP1, htonl tag, htonll TO⟩ (sgePieces sges smem) :=
    (List.append_cancel_left hsent).symm
  subst hem
  have hready : ∀ p, 4 ≤ ctx.inb.ready p := by
    intro p
    have h4 : 4 ≤ maxRwCount := by decide
    exact h4.trans (hfull p)
  have hb : ddpCheckStag ctx.taggedBuffers ⟨rsvdULP1, tag, TO⟩ = some b :=
    ddpCheckStag_of_le htag hlo hhi
  have hc : (sgesContent sges smem).length = n := by rw [length_sgesContent, hn]
  obtain ⟨c, placed, -, hr⟩ := ddpRecv_taggedWire rmem msg hfree hready
    (sgePieces_ne_nil smem hlast) (sgePieces_bounds sges smem) hin
    (by rw [ntohl_htonl, ntohll_htonll]; exact hb)
  rw [flatten_sgePieces, ntohll_htonll, hc] at hr
  rw [hr]
  refine ⟨rfl, rfl, rfl, ?_, rfl, ?_, ?_⟩
  · have hm := taggedHdrMsg_metadata msg (show
      (c :: DdpTaggedMeta.bytes ⟨rsvdULP1, htonl tag, htonll TO⟩).length = 14 by simp)
    rw [wireTagged_bytes, ntohll_htonll] at hm
    exact congrArg DdpTaggedMeta.TO hm
  · intro a
    rw [Mem.load_write, replay_stores _ _ _ _ (by omega), hc]
  · rw [advance_pending, hin, List.drop_left]

/-- Two sges of three and two bytes, sent to offset 1 of a registered buffer. -/
theorem tagged_roundTrip_two_sges :
    let out : Outbound := ⟨[], []⟩
    let smem : Mem := ⟨fun a => a.toUInt8, []⟩
    let sges : List Sge := [⟨0x1000, 3, 0⟩, ⟨0x2000, 2, 0⟩]
    let emitted := (ddpSendTagged out smem ⟨0x40, htonl 7, htonll 0x5001⟩ sges).2.sent
    let ctx : DdpCtx := ⟨{ pending := emitted ++ [9, 9], eof := false }, out, fun _ => ⟨[], 1⟩,
      Function.update (fun _ => none) 7 (some ⟨⟨7, 0⟩, 0x5000, 16⟩)⟩
    let r := ddpRecv ctx ⟨fun _ => 0, []⟩ ⟨0, fun _ => 0, .untag ⟨0, 0⟩, 0⟩
    r.ret = .val 0 ∧ r.mem = Mem.write ⟨fun _ => 0, []⟩ (stores 0x5001 [0, 1, 2, 0, 1]) ∧
      r.ctx.inb.pending = [9, 9] := by
  intro out smem sges emitted ctx
  have hcontent : sgesContent sges smem = [0, 1, 2, 0, 1] := by decide
  have h := @tagged_roundTrip out smem ⟨fun _ => 0, []⟩ ctx ⟨0, fun _ => 0, .untag ⟨0, 0⟩, 0⟩ sges
    0x40 7 0x5001 ⟨⟨7, 0⟩, 0x5000, 16⟩ 5 emitted [9, 9] (by rfl) ⟨⟨0x2000, 2, 0⟩, by rfl, by decide⟩
    (by decide) (by decide) (by simp only [ctx, Function.update_self]) (by decide) (by decide)
    (by decide) (List.nil_append _).symm (fun _ => by rfl) (fun _ => by exact le_rfl) (by rfl)
  obtain ⟨-, h1, -, -, h2, -, h3⟩ := h
  rw [hcontent] at h2
  exact ⟨h1, h2, h3⟩

/-! ## Untagged messages -/

/-- Reversing the bytes of a number below `2 ^ 16` moves it above. -/
theorem swap_four_ne {k : ℕ} (h0 : 0 < k) (h : k < 2 ^ 16) : swap 4 k ≠ k := by
  have h2 : k / 256 / 256 = 0 := by omega
  have hs : swap 4 k = 65536 * (k / 256 + 256 * (k % 256)) := by
    simp only [swap, toLE, h2, Nat.zero_div, List.reverse_cons, List.reverse_nil,
      List.nil_append, List.cons_append, ofLE, UInt8.toNat_ofNat']
    omega
  omega

/-- The first continuation segment is stored at an offset other than its own. -/
theorem ntohl_ofNat_ne {k : ℕ} (h0 : 0 < k) (h : k < 2 ^ 16) :
    (ntohl (UInt32.ofNat k)).toUInt64 ≠ UInt64.ofNat k := by
  intro he
  have hk : (UInt32.ofNat k).toNat = k := by
    rw [UInt32.toNat_ofNat']
    omega
  have hswap := swap_lt 4 k
  have hn := congrArg UInt64.toNat he
  rw [UInt32.toNat_toUInt64, ntohl, hk, UInt32.toNat_ofNat', UInt64.toNat_ofNat'] at hn
  exact swap_four_ne h0 h (by omega)

theorem untaggedStores_eq_iff (data : UInt64) {ps : List (List UInt8)} (hne : ps ≠ [])
    (hps : ∀ p ∈ ps, p ≠ [] ∧ p.length ≤ mulpdu) :
    untaggedStores data 0 ps = stores data ps.flatten ↔ ps.length = 1 := by
  have h0 : data + (ntohl 0).toUInt64 = data := by
    rw [show (ntohl 0).toUInt64 = 0 by decide, add_zero]
  match ps, hne with
  | [p], _ => simp [untaggedStores, h0]
  | p :: q :: ps, _ =>
    refine ⟨fun he => ?_, fun he => by simp at he⟩
    -- the first byte of the second piece
    obtain ⟨hp, hplen⟩ := hps p (by simp)
    obtain ⟨c, q', rfl⟩ := List.exists_cons_of_ne_nil (hps q (by simp)).1
    rw [mulpdu_eq] at hplen
    rw [untaggedStores, untaggedStores, h0, List.flatten_cons, stores_append, zero_add,
      List.append_cancel_left_eq, List.flatten_cons, List.cons_append, stores_cons, stores_cons,
      List.cons_append, List.cons.injEq, Prod.mk.injEq] at he
    exact absurd (add_left_cancel he.1.1)
      (ntohl_ofNat_ne (List.length_pos_iff.mpr hp) (by omega))

/-- The list designates one piece of at most `MULPDU` bytes: all entries but
    the last are empty, and the last fits a segment. -/
def SingleSegment (sges : List Sge) : Prop :=
  (∀ sg ∈ sges.dropLast, sg.length.toNat = 0) ∧
    ∀ sg, sges.getLast? = some sg → sg.length.toNat ≤ mulpdu

theorem length_chop_eq_one {bs : List UInt8} (h : bs ≠ []) :
    (chop bs).length = 1 ↔ bs.length ≤ mulpdu := by
  rw [chop_of_ne_nil h]
  constructor
  · intro h1
    by_contra hlt
    have hne : bs.drop mulpdu ≠ [] := by
      rw [← List.length_pos_iff, List.length_drop]
      omega
    have := List.length_pos_iff.mpr (chop_ne_nil hne)
    rw [List.length_cons] at h1
    omega
  · intro hle
    simp [List.drop_eq_nil_of_le hle]

/-- A message is sent as one segment exactly when its list designates one piece. -/
theorem length_sgePieces_eq_one (mem : Mem) : ∀ {sges : List Sge}, LastNonempty sges →
    ((sgePieces sges mem).length = 1 ↔ SingleSegment sges) := by
  intro sges
  induction sges with
  | nil => rintro ⟨sg, hsg, -⟩; simp at hsg
  | cons sg sges ih =>
    intro hlast
    by_cases hs : sges = []
    · subst hs
      obtain ⟨sg', hsg', hpos⟩ := hlast
      obtain rfl : sg = sg' := by simpa using hsg'
      have hc : sg.content mem ≠ [] := by
        rw [← List.length_pos_iff, Sge.content, Mem.length_read]
        exact hpos
      have hone := length_chop_eq_one hc
      rw [Sge.content, Mem.length_read] at hone
      simpa [sgePieces, SingleSegment, Sge.content] using hone
    · have htail := hlast.tail hs
      have hpos := List.length_pos_iff.mpr (sgePieces_ne_nil mem htail)
      have hsplit : (sgePieces (sg :: sges) mem).length =
          (chop (sg.content mem)).length + (sgePieces sges mem).length := by
        simp [sgePieces]
      have hnil : (chop (sg.content mem)).length = 0 ↔ sg.length.toNat = 0 := by
        constructor
        · intro h
          by_contra hne
          refine chop_ne_nil ?_ (List.length_eq_zero_iff.mp h)
          rw [← List.length_pos_iff, Sge.content, Mem.length_read]
          omega
        · intro h
          simp [Sge.content, h]
      have hstep : SingleSegment (sg :: sges) ↔ sg.length.toNat = 0 ∧ SingleSegment sges := by
        simp only [SingleSegment, List.dropLast_cons_of_ne_nil hs, List.mem_cons, forall_eq_or_imp,
          List.getLast?_cons_of_ne_nil hs, and_assoc]
      rw [hstep, ← hnil, ← ih htail, hsplit]
      omega

/-- The message `content` was received into the buffer `b` at the head of queue
    `qn`, byte `k` at `data + k`, and exactly `rest` is left unread. -/
def UntaggedDelivered (ctx : DdpCtx) (mem : Mem) (r : DdpOut) (qn : Fin 3) (b : UntaggedBuffer)
    (bs : List UntaggedBuffer) (content rest : List UInt8) : Prop :=
  r.ret = .val 0 ∧ r.msg.len = content.length ∧ r.msg.buf = .untag b ∧
    r.ctx.queues = Function.update ctx.queues qn { ctx.queues qn with q := bs } ∧
    r.mem = mem.write (stores b.data content) ∧ r.ctx.inb.pending = rest

theorem ddpCheckUntaggedHdr_of_msn {queues : Fin 3 → UntaggedBufferQueue} {hdr : DdpUntaggedMeta}
    {qn : Fin 3} (hqn : hdr.qn.toNat = qn.val) (hq : (queues qn).msn = 1) (hm : hdr.msn ≠ 0) :
    ddpCheckUntaggedHdr queues hdr = some qn := by
  have hlt : hdr.qn.toNat < 3 := by rw [hqn]; exact qn.isLt
  have heq : (⟨hdr.qn.toNat, hlt⟩ : Fin 3) = qn := Fin.ext hqn
  have hmsn : ¬UInt32.ofInt 1 > hdr.msn := by
    have h1 : (UInt32.ofInt 1).toNat = 1 := by decide
    have h0 : hdr.msn.toNat ≠ 0 := fun h => hm (UInt32.toNat_inj.mp (by rw [h]; rfl))
    rw [gt_iff_lt, UInt32.lt_iff_toNat_lt, h1]
    omega
  simp only [ddpCheckUntaggedHdr, dif_pos hlt, heq, hq, if_neg hmsn]

/-! ## What the layer above sees -/

section

variable {ctx : DdpCtx} (mem : Mem) (msg : DdpMessage) {rest : List UInt8}

/-- A tagged message addressed to a valid STag: where it went, and its first
    header byte. -/
theorem ddpRecv_tagged_first {rsvdULP1 : UInt8} {tag : UInt32} {TO : UInt64}
    {ps : List (List UInt8)} (hf : ctx.inb.FailFree) (hr : ∀ p, 4 ≤ ctx.inb.ready p)
    (hne : ps ≠ []) (hps : ∀ p ∈ ps, p ≠ [] ∧ p.length ≤ mulpdu)
    (hp : ctx.inb.pending = taggedWire ⟨rsvdULP1, htonl tag, htonll TO⟩ ps ++ rest)
    (hb : (ddpCheckStag ctx.taggedBuffers ⟨rsvdULP1, tag, TO⟩).isSome) :
    ∃ msg' placed, ddpRecv ctx mem msg =
        ⟨.val 0,
          { ctx with
            inb := ctx.inb.advance (taggedWire ⟨rsvdULP1, htonl tag, htonll TO⟩ ps).length },
          mem.write (stores TO ps.flatten), msg', placed⟩ ∧
      ddpIsTagged msg'.hdr = true ∧ msg'.hdrUnion 0 = rsvdULP1 := by
  obtain ⟨b, hb⟩ := Option.isSome_iff_exists.mp hb
  obtain ⟨c, placed, hc, hr⟩ := ddpRecv_taggedWire mem msg hf hr hne hps hp
    (by rw [ntohl_htonl, ntohll_htonll]; exact hb)
  rw [ntohll_htonll] at hr
  have hmeta := congrArg DdpTaggedMeta.rsvdULP1 (taggedHdrMsg_metadata msg
    (show (c :: DdpTaggedMeta.bytes ⟨rsvdULP1, htonl tag, htonll TO⟩).length = 14 by simp))
  rw [wireTagged_bytes] at hmeta
  exact ⟨_, placed, hr, hc, hmeta⟩

/-- An untagged message of one segment: where it went, and its first header
    byte. -/
theorem ddpRecv_untagged_first {nextHdr : DdpUntaggedMeta} {p : List UInt8} {qn : Fin 3}
    {b : UntaggedBuffer} {bs : List UntaggedBuffer} (hf : ctx.inb.FailFree)
    (hr : ∀ p, 4 ≤ ctx.inb.ready p) (hne : p ≠ []) (hle : p.length ≤ mulpdu)
    (hp : ctx.inb.pending = untaggedWire nextHdr [p] ++ rest)
    (hqn : (ntohl nextHdr.qn).toNat = qn.val) (hqmsn : (ctx.queues qn).msn = 1)
    (hmsn : ntohl nextHdr.msn ≠ 0) (hq : (ctx.queues qn).q = b :: bs) :
    ∃ msg' placed, ddpRecv ctx mem msg =
        ⟨.val 0,
          { ctx with
            inb := ctx.inb.advance (untaggedWire nextHdr [p]).length
            queues := Function.update ctx.queues qn { ctx.queues qn with q := bs } },
          mem.write (stores b.data p), msg', placed⟩ ∧
      ddpIsTagged msg'.hdr = false ∧ msg'.hdrUnion 0 = nextHdr.rsvdULP1 ∧
      msg'.buf = .untag b := by
  have hbounds : ∀ q ∈ [p], q ≠ [] ∧ q.length ≤ mulpdu := by
    intro q hq
    rw [List.mem_singleton.mp hq]
    exact ⟨hne, hle⟩
  obtain ⟨c, placed, hc, hr⟩ := ddpRecv_untaggedWire mem msg hf hr (List.cons_ne_nil p []) hbounds
    hp (ddpCheckUntaggedHdr_of_msn hqn hqmsn hmsn) hq
  have hst := (untaggedStores_eq_iff b.data (List.cons_ne_nil p []) hbounds).mpr rfl
  rw [List.flatten_cons, List.flatten_nil, List.append_nil] at hst
  rw [hst] at hr
  have hmeta := congrArg DdpUntaggedMeta.rsvdULP1 (untaggedHdrMsg_metadata msg
    (show (c :: DdpUntaggedMeta.bytes { nextHdr with mo := 0 }).length = 18 by simp))
  rw [wireUntagged_bytes] at hmeta
  refine ⟨_, placed, hr, hc, ?_, rfl⟩
  refine (Buf.patch_apply _ _ _ _).trans ?_
  rw [if_neg (by omega)]
  exact hmeta

end

/-! ## Untagged messages sent by `ddp_send_untagged` -/

section

variable {out : Outbound} {smem : Mem} (rmem : Mem) {ctx : DdpCtx} (msg : DdpMessage)
  {sges : List Sge} {rsvdULP1 : UInt8} {rsvdULP2 msn mo : UInt32} {qn : Fin 3}
  {b : UntaggedBuffer} {bs : List UntaggedBuffer} {emitted rest : List UInt8}

/-- What happens to an untagged message of any segmentation. -/
theorem ddpRecv_ddpSendUntagged (hev : out.evs = []) (hlast : LastNonempty sges)
    (hmax : sgesLength sges < 2 ^ 31) (hmsn : msn ≠ 0) (hqmsn : (ctx.queues qn).msn = 1)
    (hq : (ctx.queues qn).q = b :: bs)
    (hsent : (ddpSendUntagged out smem
      ⟨rsvdULP1, rsvdULP2, htonl (UInt32.ofNat qn), htonl msn, mo⟩ sges).2.sent = out.sent ++ emitted)
    (hfree : ctx.inb.FailFree) (hfull : ∀ p, maxRwCount ≤ ctx.inb.ready p)
    (hin : ctx.inb.pending = emitted ++ rest) :
    (ddpRecv ctx rmem msg).ret = .val 0 ∧
      (ddpRecv ctx rmem msg).msg.len = (sgesContent sges smem).length ∧
      (ddpRecv ctx rmem msg).msg.buf = .untag b ∧
      (ddpRecv ctx rmem msg).ctx.queues =
        Function.update ctx.queues qn { ctx.queues qn with q := bs } ∧
      (ddpRecv ctx rmem msg).mem = rmem.write (untaggedStores b.data 0 (sgePieces sges smem)) ∧
      (ddpRecv ctx rmem msg).ctx.inb.pending = rest := by
  have hlen : ∀ sg ∈ sges, sg.length.toNat < 2 ^ 31 := by
    intro sg hsg
    have := length_le_sgesLength hsg
    omega
  rw [ddpSendUntagged_eq hlen hlast hev] at hsent
  have hem := (List.append_cancel_left hsent).symm
  subst hem
  have hready : ∀ p, 4 ≤ ctx.inb.ready p := by
    intro p
    have h4 : 4 ≤ maxRwCount := by decide
    exact h4.trans (hfull p)
  have hqnat : (UInt32.ofNat qn.val).toNat = qn.val := by
    have := qn.isLt
    rw [UInt32.toNat_ofNat']
    omega
  obtain ⟨c, placed, -, hr⟩ := ddpRecv_untaggedWire rmem msg hfree hready
    (sgePieces_ne_nil smem hlast) (sgePieces_bounds sges smem) hin
    (ddpCheckUntaggedHdr_of_msn (by simpa using hqnat) hqmsn (by simpa using hmsn)) hq
  rw [hr, flatten_sgePieces]
  exact ⟨rfl, rfl, rfl, rfl, rfl, by rw [advance_pending, hin, List.drop_left]⟩

/-- An untagged message is delivered exactly when it is sent as one segment. -/
theorem untagged_roundTrip_iff {n : ℕ} (hev : out.evs = []) (hlast : LastNonempty sges)
    (hn : sgesLength sges = n) (hmax : n < 2 ^ 31) (hmsn : msn ≠ 0)
    (hqmsn : (ctx.queues qn).msn = 1) (hq : (ctx.queues qn).q = b :: bs)
    (hsent : (ddpSendUntagged out smem
      ⟨rsvdULP1, rsvdULP2, htonl (UInt32.ofNat qn), htonl msn, mo⟩ sges).2.sent = out.sent ++ emitted)
    (hfree : ctx.inb.FailFree) (hfull : ∀ p, maxRwCount ≤ ctx.inb.ready p)
    (hin : ctx.inb.pending = emitted ++ rest) :
    UntaggedDelivered ctx rmem (ddpRecv ctx rmem msg) qn b bs (sgesContent sges smem) rest ↔
      SingleSegment sges := by
  subst hn
  obtain ⟨h1, h2, h3, h4, h5, h6⟩ := ddpRecv_ddpSendUntagged rmem msg hev hlast
    hmax hmsn hqmsn hq hsent hfree hfull hin
  have hst := untaggedStores_eq_iff b.data (sgePieces_ne_nil smem hlast)
    (sgePieces_bounds sges smem)
  rw [flatten_sgePieces, length_sgePieces_eq_one smem hlast] at hst
  rw [UntaggedDelivered, h5]
  constructor
  · rintro ⟨-, -, -, -, hmem, -⟩
    exact hst.mp (List.append_cancel_left (congrArg Mem.log hmem))
  · intro hs
    exact ⟨h1, h2, h3, h4, by rw [hst.mpr hs], h6⟩

end

/-- A single sge of three bytes is delivered. -/
theorem untagged_roundTrip_one_sge :
    let out : Outbound := ⟨[], []⟩
    let smem : Mem := ⟨fun a => a.toUInt8, []⟩
    let sges : List Sge := [⟨0x1000, 3, 0⟩]
    let emitted := (ddpSendUntagged out smem ⟨0x43, 0, htonl (UInt32.ofNat (0 : Fin 3)), htonl 1, 0⟩
      sges).2.sent
    let ctx : DdpCtx := ⟨{ pending := emitted ++ [], eof := false }, out,
      fun _ => ⟨[⟨0x7000, 8⟩], 1⟩, fun _ => none⟩
    UntaggedDelivered ctx ⟨fun _ => 0, []⟩
      (ddpRecv ctx ⟨fun _ => 0, []⟩ ⟨0, fun _ => 0, .untag ⟨0, 0⟩, 0⟩) 0 ⟨0x7000, 8⟩ []
      (sgesContent sges smem) [] := by
  intro out smem sges emitted ctx
  have h := @untagged_roundTrip_iff out smem ⟨fun _ => 0, []⟩ ctx
    ⟨0, fun _ => 0, .untag ⟨0, 0⟩, 0⟩ sges 0x43 0 1 0 0 ⟨0x7000, 8⟩ [] emitted [] 3 (by rfl)
    ⟨⟨0x1000, 3, 0⟩, by rfl, by decide⟩ (by decide) (by decide) (by decide) (by rfl) (by rfl)
    (List.nil_append _).symm (fun _ => by rfl) (fun _ => by exact le_rfl) (by rfl)
  exact h.mpr ⟨by simp [sges], by simp [sges, mulpdu_eq]⟩

/-- Two sges of one byte each: the second byte is stored `2 ^ 24` bytes above
    the buffer's start, and the byte after the first is not stored. -/
theorem untagged_two_sges_misplaced :
    let out : Outbound := ⟨[], []⟩
    let smem : Mem := ⟨fun a => a.toUInt8, []⟩
    let sges : List Sge := [⟨0x1001, 1, 0⟩, ⟨0x1002, 1, 0⟩]
    let emitted := (ddpSendUntagged out smem ⟨0x43, 0, htonl (UInt32.ofNat (0 : Fin 3)), htonl 1, 0⟩
      sges).2.sent
    let ctx : DdpCtx := ⟨{ pending := emitted ++ [], eof := false }, out,
      fun _ => ⟨[⟨0x7000, 8⟩], 1⟩, fun _ => none⟩
    let r := ddpRecv ctx ⟨fun _ => 0, []⟩ ⟨0, fun _ => 0, .untag ⟨0, 0⟩, 0⟩
    sgesContent sges smem = [1, 2] ∧ r.mem.load 0x7001 = 0 ∧ r.mem.load 0x1007000 = 2 ∧
      ¬UntaggedDelivered ctx ⟨fun _ => 0, []⟩ r 0 ⟨0x7000, 8⟩ [] (sgesContent sges smem) [] := by
  intro out smem sges emitted ctx r
  have hcontent : sgesContent sges smem = [1, 2] := by decide
  have hpieces : sgePieces sges smem = [[1], [2]] := by
    have h1 : Sge.content ⟨0x1001, 1, 0⟩ smem = [1] := by decide
    have h2 : Sge.content ⟨0x1002, 1, 0⟩ smem = [2] := by decide
    simp only [sgePieces, sges, List.flatMap_cons, List.flatMap_nil, h1, h2]
    rw [chop_of_length_le (by simp) (by simp [mulpdu_eq]),
      chop_of_length_le (by simp) (by simp [mulpdu_eq])]
    rfl
  obtain ⟨-, -, -, -, hmem, -⟩ := @ddpRecv_ddpSendUntagged out smem ⟨fun _ => 0, []⟩ ctx
    ⟨0, fun _ => 0, .untag ⟨0, 0⟩, 0⟩ sges 0x43 0 1 0 0 ⟨0x7000, 8⟩ [] emitted [] (by rfl)
    ⟨⟨0x1002, 1, 0⟩, by rfl, by decide⟩ (by decide) (by decide) (by rfl) (by rfl)
    (List.nil_append _).symm (fun _ => by rfl) (fun _ => by exact le_rfl) (by rfl)
  rw [hpieces, show untaggedStores 0x7000 0 [[1], [2]] = [(0x7000, 1), (0x1007000, 2)] by decide]
    at hmem
  have hr : r.mem = ⟨fun _ => 0, [(0x7000, 1), (0x1007000, 2)]⟩ := hmem
  refine ⟨hcontent, by rw [hr]; decide, by rw [hr]; decide, ?_⟩
  rintro ⟨-, -, -, -, hst, -⟩
  rw [hr, hcontent] at hst
  exact absurd (congrArg Mem.log hst) (by decide)

end SoftUiWarp
