import SoftUiWarp.Ddp.Model
import SoftUiWarp.Mpa.Fpdu

/-!
# The bytes a successful DDP send puts on the wire

When `sendmsg` takes every byte, `ddp_send_tagged` and `ddp_send_untagged`
cut each sge into pieces of at most `MULPDU` bytes and send one FPDU for each
piece; the L bit is on the last one. `segWire` is that byte string, for any
list of pieces and either kind of header.

Results:
* `sgeLoop_eq`, `sgeListLoop_pieces`: the nested loops send the pieces of the
  sges one after another, until a call fails.
* `ddpSendTagged_eq`, `ddpSendUntagged_eq`: the emitted bytes.
-/

namespace SoftUiWarp

open TcpStream ByteMem

/-! ## Cutting a byte string -/

/-- The pieces of at most `MULPDU` bytes a send loop cuts one sge into. -/
def chop (bs : List UInt8) : List (List UInt8) :=
  if _h : bs = [] then [] else bs.take mulpdu :: chop (bs.drop mulpdu)
termination_by bs.length
decreasing_by
  have := List.length_pos_iff.mpr _h
  simp [mulpdu, emss]
  omega

theorem mulpdu_eq : mulpdu = 65014 := by decide

@[simp] theorem chop_nil : chop [] = [] := by simp [chop]

theorem chop_of_ne_nil {bs : List UInt8} (h : bs ≠ []) :
    chop bs = bs.take mulpdu :: chop (bs.drop mulpdu) := by
  rw [chop, dif_neg h]

theorem chop_of_length_le {bs : List UInt8} (h : bs ≠ []) (hle : bs.length ≤ mulpdu) :
    chop bs = [bs] := by
  rw [chop_of_ne_nil h, List.take_of_length_le hle, List.drop_eq_nil_of_le hle, chop_nil]

theorem chop_ne_nil {bs : List UInt8} (h : bs ≠ []) : chop bs ≠ [] := by
  simp [chop_of_ne_nil h]

theorem flatten_chop (bs : List UInt8) : (chop bs).flatten = bs := by
  induction bs using chop.induct with
  | case1 => simp
  | case2 bs h ih => rw [chop_of_ne_nil h, List.flatten_cons, ih, List.take_append_drop]

/-- Every piece is non-empty and fits a segment. -/
theorem chop_bounds (bs : List UInt8) : ∀ p ∈ chop bs, p ≠ [] ∧ p.length ≤ mulpdu := by
  induction bs using chop.induct with
  | case1 => simp
  | case2 bs h ih =>
    intro p hp
    rw [chop_of_ne_nil h, List.mem_cons] at hp
    rcases hp with rfl | hp
    · have hm : mulpdu ≠ 0 := by decide
      simp [h, hm]
    · exact ih p hp

/-! ## The send loops -/

section

variable {σ : Type} (H : SegHdr σ) (mem : Mem)

/-- Sending the given pieces as consecutive segments; `last` says that the
    final piece ends the message. -/
def sendSegs (last : Bool) : List (List UInt8) → SendSt σ → SendSt σ
  | [], st => st
  | p :: ps, st =>
    let bits := if last ∧ ps = [] then st.bits ||| ddpFlagLast else st.bits
    sendSegs last ps ⟨bits, H.advance st.hdr2 p.length,
      { st.out with sent := st.out.sent ++ fpdu [[bits], H.bytes st.hdr2, p] }⟩

/-- The wire form of a message whose segments carry the given pieces, from
    the header state `h` on. -/
def segWire (bits : UInt8) : List (List UInt8) → σ → List UInt8
  | [], _ => []
  | p :: ps, h =>
    fpdu [[if ps = [] then bits ||| ddpFlagLast else bits], H.bytes h, p] ++
      segWire bits ps (H.advance h p.length)

/-- Marks the final piece if it ends the message. -/
def markLast (last : Bool) : List (List UInt8) → List (Bool × List UInt8)
  | [] => []
  | p :: ps => (last && ps.isEmpty, p) :: markLast last ps

/-- Sending the given pieces as consecutive segments, until a call fails; a
    marked piece ends the message. -/
def sendPieces : List (Bool × List UInt8) → SendSt σ → ℤ × SendSt σ
  | [], st => (0, st)
  | (last, p) :: ps, st =>
    let bits := if last then st.bits ||| ddpFlagLast else st.bits
    let (ret, out) := mpaSend st.out [[bits], H.bytes st.hdr2, p]
    if ret < 0 then (ret, { st with bits := bits, out := out })
    else sendPieces ps ⟨bits, H.advance st.hdr2 p.length, out⟩

variable {H mem}

/-- With every byte accepted all pieces are sent. -/
theorem sendPieces_eq (last : Bool) (ps : List (List UInt8)) (st : SendSt σ)
    (he : st.out.evs = []) :
    sendPieces H (markLast last ps) st = (0, sendSegs H last ps st) := by
  induction ps generalizing st with
  | nil => rfl
  | cons p ps ih =>
    simp only [markLast, sendPieces, mpaSend_eq he, sendSegs, Bool.and_eq_true, List.isEmpty_iff]
    rw [if_neg (by omega)]
    exact ih _ he

theorem sendPieces_append (ps qs : List (Bool × List UInt8)) (st : SendSt σ) :
    sendPieces H (ps ++ qs) st =
      if (sendPieces H ps st).1 < 0 then sendPieces H ps st
      else sendPieces H qs (sendPieces H ps st).2 := by
  induction ps generalizing st with
  | nil => simp [sendPieces]
  | cons p ps ih =>
    obtain ⟨last, p⟩ := p
    simp only [List.cons_append, sendPieces, ih]
    by_cases h : (mpaSend st.out [[if last then st.bits ||| ddpFlagLast else st.bits],
        H.bytes st.hdr2, p]).1 < 0
    · simp only [h, if_true]
    · simp only [h, if_false]

theorem sendSegs_out_evs (last : Bool) (ps : List (List UInt8)) (st : SendSt σ) :
    (sendSegs H last ps st).out.evs = st.out.evs := by
  induction ps generalizing st with
  | nil => rfl
  | cons p ps ih => simp [sendSegs, ih]

theorem sendSegs_sent (ps : List (List UInt8)) (st : SendSt σ) :
    (sendSegs H true ps st).out.sent = st.out.sent ++ segWire H st.bits ps st.hdr2 := by
  induction ps generalizing st with
  | nil => simp [sendSegs, segWire]
  | cons p ps ih =>
    by_cases hp : ps = []
    · subst hp
      simp [sendSegs, segWire]
    · simp [sendSegs, segWire, ih, hp]

/-- `sge_list[i].length - remaining_bytes`, the offset of the next segment. -/
theorem segOffset_eq {len : UInt32} {r : ℕ} (hlen : len.toNat < 2 ^ 31) (hr : r ≤ len.toNat) :
    (len - UInt32.ofInt (r : ℤ)).toUInt64 = UInt64.ofNat (len.toNat - r) := by
  have hle : UInt32.ofNat r ≤ len := by
    rw [UInt32.le_iff_toNat_le, UInt32.toNat_ofNat']
    omega
  apply UInt64.toNat_inj.mp
  rw [UInt32.toNat_toUInt64, UInt32.ofInt_natCast, UInt32.toNat_sub_of_le _ _ hle,
    UInt32.toNat_ofNat', UInt64.toNat_ofNat']
  omega

/-- The first piece of what remains of an sge, and what remains after it. -/
theorem chop_read {a : UInt64} {len r m : ℕ} (hm : m = min r mulpdu) (hr : 0 < r) (hle : r ≤ len) :
    chop (mem.read (a + UInt64.ofNat (len - r)) r) =
      mem.read (a + UInt64.ofNat (len - r)) m ::
        chop (mem.read (a + UInt64.ofNat (len - (r - m))) (r - m)) := by
  have hsplit := mem.read_add (a + UInt64.ofNat (len - r)) m (r - m)
  rw [show m + (r - m) = r by omega, add_assoc, ← UInt64.ofNat_add,
    show len - r + m = len - (r - m) by omega] at hsplit
  have hne : mem.read (a + UInt64.ofNat (len - r)) r ≠ [] := by
    rw [← List.length_pos_iff]
    simpa using hr
  have hcut : (mem.read (a + UInt64.ofNat (len - r)) m).length = m := by simp
  rw [chop_of_ne_nil hne]
  by_cases hbig : r ≤ mulpdu
  · obtain rfl : m = r := by omega
    rw [List.take_of_length_le (by simpa using hbig), List.drop_eq_nil_of_le (by simpa using hbig)]
    simp
  · obtain rfl : m = mulpdu := by omega
    rw [hsplit, List.take_left' hcut, List.drop_left' hcut]

/-- `packet_len` (lines 84 and 138). -/
def packetLen (remaining : ℤ) : ℤ := if remaining > mulpdu then mulpdu else remaining

theorem packetLen_natCast (k : ℕ) : packetLen k = (min k mulpdu : ℕ) := by
  unfold packetLen
  split <;> omega

theorem packetLen_bounds {r : ℤ} (hr : 0 < r) :
    0 < packetLen r ∧ packetLen r ≤ r ∧ packetLen r ≤ mulpdu := by
  have hm : 0 < mulpdu := by decide
  unfold packetLen
  split <;> omega

theorem sgeLoop_of_nonpos {sg : Sge} {last : Bool} {r : ℤ} (hr : r ≤ 0) (fuel : ℕ)
    (st : SendSt σ) : sgeLoop H mem sg last fuel r st = (0, st) := by
  cases fuel with
  | zero => rfl
  | succ fuel => rw [sgeLoop, if_neg (not_lt.mpr hr)]

theorem sgeLoop_succ {sg : Sge} {last : Bool} {r : ℤ} (hr : 0 < r) (fuel : ℕ) (st : SendSt σ) :
    sgeLoop H mem sg last (fuel + 1) r st =
      let bits := if last ∧ packetLen r = r then st.bits ||| ddpFlagLast else st.bits
      let addr := sg.addr + (sg.length - UInt32.ofInt r).toUInt64
      let (ret, out) := mpaSend st.out [[bits], H.bytes st.hdr2, mem.read addr (packetLen r).toNat]
      if ret < 0 then (ret, { st with bits := bits, out := out })
      else sgeLoop H mem sg last fuel (r - packetLen r)
        ⟨bits, H.advance st.hdr2 (packetLen r), out⟩ := by
  rw [sgeLoop, if_pos hr]
  rfl

/-- The inner loop sends the pieces of the part of the sge that remains. -/
theorem sgeLoop_eq (mem : Mem) {sg : Sge} (last : Bool) (hlen : sg.length.toNat < 2 ^ 31) :
    ∀ (fuel r : ℕ) (st : SendSt σ), r ≤ fuel → r ≤ sg.length.toNat →
      sgeLoop H mem sg last fuel r st =
        sendPieces H (markLast last
          (chop (mem.read (sg.addr + UInt64.ofNat (sg.length.toNat - r)) r))) st := by
  intro fuel
  induction fuel with
  | zero =>
    intro r st hr _
    obtain rfl : r = 0 := by omega
    simp [sgeLoop, markLast, sendPieces]
  | succ fuel ih =>
    intro r st hr hrl
    rcases Nat.eq_zero_or_pos r with rfl | hr0
    · simp [sgeLoop, markLast, sendPieces]
    · -- one segment of `m` bytes, then the rest
      obtain ⟨m, hm⟩ : ∃ m, m = min r mulpdu := ⟨_, rfl⟩
      have hm0 : 0 < m := by rw [hm, mulpdu_eq]; omega
      have hpkt : packetLen r = (m : ℤ) := by rw [packetLen_natCast, hm]
      have hlast : (m : ℤ) = (r : ℤ) ↔
          chop (mem.read (sg.addr + UInt64.ofNat (sg.length.toNat - (r - m))) (r - m)) = [] := by
        constructor
        · intro h
          rw [show r - m = 0 by omega]
          simp
        · intro h
          by_contra hne
          have : mem.read (sg.addr + UInt64.ofNat (sg.length.toNat - (r - m))) (r - m) ≠ [] := by
            rw [← List.length_pos_iff, Mem.length_read]
            omega
          exact chop_ne_nil this h
      rw [sgeLoop_succ (by omega)]
      simp only [hpkt, segOffset_eq hlen hrl, Int.toNat_natCast]
      rw [show (r : ℤ) - (m : ℤ) = ((r - m : ℕ) : ℤ) by omega, chop_read hm hr0 hrl]
      simp only [markLast, sendPieces, Mem.length_read, hlast, Bool.and_eq_true, List.isEmpty_iff,
        ih (r - m) _ (by omega) (by omega)]

theorem remainingBytes_eq {sg : Sge} (h : sg.length.toNat < 2 ^ 31) :
    remainingBytes sg = (sg.length.toNat : ℤ) := by
  rw [remainingBytes, if_pos h]

/-- The bytes an sge points to. -/
def Sge.content (sg : Sge) (mem : Mem) : List UInt8 := mem.read sg.addr sg.length.toNat

/-- The concatenation of the sges of a list. -/
def sgesContent (sges : List Sge) (mem : Mem) : List UInt8 := sges.flatMap fun sg => sg.content mem

/-- The pieces of all sges of a list, in order. -/
def sgePieces (sges : List Sge) (mem : Mem) : List (List UInt8) :=
  sges.flatMap fun sg => chop (sg.content mem)

theorem flatten_sgePieces (sges : List Sge) (mem : Mem) :
    (sgePieces sges mem).flatten = sgesContent sges mem := by
  induction sges with
  | nil => rfl
  | cons sg sges ih =>
    simp only [sgePieces, sgesContent, List.flatMap_cons, List.flatten_append, flatten_chop] at ih ⊢
    rw [ih]

theorem sgePieces_bounds (sges : List Sge) (mem : Mem) :
    ∀ p ∈ sgePieces sges mem, p ≠ [] ∧ p.length ≤ mulpdu := by
  intro p hp
  obtain ⟨sg, _, hsg⟩ := List.mem_flatMap.mp hp
  exact chop_bounds _ p hsg

/-- The last sge of a list is not empty. -/
def LastNonempty (sges : List Sge) : Prop := ∃ sg, sges.getLast? = some sg ∧ 0 < sg.length.toNat

theorem LastNonempty.tail {sg : Sge} {sges : List Sge} (h : LastNonempty (sg :: sges))
    (hne : sges ≠ []) : LastNonempty sges := by
  obtain ⟨l, hl, hpos⟩ := h
  exact ⟨l, by rwa [List.getLast?_cons_of_ne_nil hne] at hl, hpos⟩

theorem sgePieces_ne_nil {sges : List Sge} (mem : Mem) (h : LastNonempty sges) :
    sgePieces sges mem ≠ [] := by
  obtain ⟨sg, hsg, hpos⟩ := h
  have hmem : sg ∈ sges := List.mem_of_getLast? hsg
  have hc : sg.content mem ≠ [] := by
    rw [← List.length_pos_iff]
    simpa [Sge.content] using hpos
  intro hnil
  exact chop_ne_nil hc (List.flatMap_eq_nil_iff.mp hnil sg hmem)

/-- The pieces of one sge. A length from `2 ^ 31` on is negative as an `int`,
    and such an sge is skipped. -/
def Sge.pieces (sg : Sge) (mem : Mem) : List (List UInt8) :=
  if sg.length.toNat < 2 ^ 31 then chop (sg.content mem) else []

/-- The pieces of all sges, in order, with the one that ends the message marked. -/
def listPieces (mem : Mem) : List Sge → List (Bool × List UInt8)
  | [] => []
  | sg :: sges => markLast sges.isEmpty (sg.pieces mem) ++ listPieces mem sges

/-- The inner loop, run on a whole sge, sends its pieces. -/
theorem sgeLoop_whole (sg : Sge) (last : Bool) (st : SendSt σ) :
    sgeLoop H mem sg last (remainingBytes sg).toNat (remainingBytes sg) st =
      sendPieces H (markLast last (sg.pieces mem)) st := by
  by_cases hsg : sg.length.toNat < 2 ^ 31
  · rw [remainingBytes_eq hsg, Int.toNat_natCast, sgeLoop_eq mem last hsg _ _ st le_rfl le_rfl,
      Nat.sub_self, show sg.addr + UInt64.ofNat 0 = sg.addr by simp, Sge.pieces, if_pos hsg,
      Sge.content]
  · have hneg : (remainingBytes sg).toNat = 0 := by
      have := sg.length.toNat_lt
      rw [remainingBytes, if_neg hsg]
      omega
    rw [hneg, sgeLoop, Sge.pieces, if_neg hsg, markLast, sendPieces]

/-- The outer loop sends the pieces of all sges until a call fails. -/
theorem sgeListLoop_pieces (sges : List Sge) (st : SendSt σ) :
    sgeListLoop H mem sges st = sendPieces H (listPieces mem sges) st := by
  induction sges generalizing st with
  | nil => rfl
  | cons sg sges ih =>
    rw [listPieces, sendPieces_append, sgeListLoop]
    simp only [sgeLoop_whole, ih]

theorem mem_of_mem_markLast {last : Bool} {ps : List (List UInt8)} {q : Bool × List UInt8}
    (hq : q ∈ markLast last ps) : q.2 ∈ ps := by
  induction ps with
  | nil => simp [markLast] at hq
  | cons p ps ih =>
    rcases List.mem_cons.mp hq with rfl | hq
    · simp
    · exact List.mem_cons_of_mem _ (ih hq)

/-- Every piece fits a segment. -/
theorem listPieces_le (mem : Mem) (sges : List Sge) :
    ∀ q ∈ listPieces mem sges, q.2.length ≤ mulpdu := by
  induction sges with
  | nil => simp [listPieces]
  | cons sg sges ih =>
    intro q hq
    rcases List.mem_append.mp hq with hq | hq
    · have hmem := mem_of_mem_markLast hq
      unfold Sge.pieces at hmem
      split at hmem
      · exact (chop_bounds _ _ hmem).2
      · simp at hmem
    · exact ih q hq

theorem markLast_append (ps qs : List (List UInt8)) (hq : qs ≠ []) :
    markLast true (ps ++ qs) = markLast false ps ++ markLast true qs := by
  induction ps with
  | nil => rfl
  | cons p ps ih => simp [markLast, ih, hq]

/-- A list whose last sge is not empty ends with a marked piece. -/
theorem listPieces_eq {sges : List Sge} (hlen : ∀ sg ∈ sges, sg.length.toNat < 2 ^ 31)
    (hlast : LastNonempty sges) : listPieces mem sges = markLast true (sgePieces sges mem) := by
  induction sges with
  | nil =>
    obtain ⟨sg, hsg, -⟩ := hlast
    simp at hsg
  | cons sg sges ih =>
    have hsg : sg.pieces mem = chop (sg.content mem) := by
      rw [Sge.pieces, if_pos (hlen sg (by simp))]
    by_cases hs : sges = []
    · subst hs
      simp [listPieces, sgePieces, hsg]
    · rw [listPieces, ih (fun x hx => hlen x (by simp [hx])) (hlast.tail hs),
        show sges.isEmpty = false by simpa using hs, hsg,
        ← markLast_append _ _ (sgePieces_ne_nil mem (hlast.tail hs))]
      rfl

/-- With every byte accepted the outer loop sends the pieces of all sges, the L
    bit on the last. -/
theorem sgeListLoop_eq (sges : List Sge) (st : SendSt σ)
    (hlen : ∀ sg ∈ sges, sg.length.toNat < 2 ^ 31) (hlast : LastNonempty sges)
    (he : st.out.evs = []) :
    sgeListLoop H mem sges st = (0, sendSegs H true (sgePieces sges mem) st) := by
  rw [sgeListLoop_pieces, listPieces_eq hlen hlast, sendPieces_eq true _ st he]

end

/-! ## The two senders -/

theorem length_taggedSegHdr_le (h : DdpTaggedMeta × UInt64) :
    (taggedSegHdr.bytes h).length ≤ ddpUntaggedHdrSize := by
  simp [taggedSegHdr, DdpTaggedMeta.bytes, ddpUntaggedHdrSize]

theorem length_untaggedSegHdr_le (h : DdpUntaggedMeta) :
    (untaggedSegHdr.bytes h).length ≤ ddpUntaggedHdrSize := by
  simp [untaggedSegHdr, DdpUntaggedMeta.bytes, ddpUntaggedHdrSize]

/-- What `ddp_send_tagged` emits. -/
def taggedWire (nextHdr : DdpTaggedMeta) (ps : List (List UInt8)) : List UInt8 :=
  segWire taggedSegHdr 0x81 ps (nextHdr, ntohll nextHdr.TO)

/-- What `ddp_send_untagged` emits. -/
def untaggedWire (nextHdr : DdpUntaggedMeta) (ps : List (List UInt8)) : List UInt8 :=
  segWire untaggedSegHdr 0x01 ps { nextHdr with mo := 0 }

theorem ddpSendTagged_eq {out : Outbound} {mem : Mem} {nextHdr : DdpTaggedMeta}
    {sges : List Sge} (hlen : ∀ sg ∈ sges, sg.length.toNat < 2 ^ 31) (hlast : LastNonempty sges)
    (he : out.evs = []) :
    ddpSendTagged out mem nextHdr sges =
      (0, { out with sent := out.sent ++ taggedWire nextHdr (sgePieces sges mem) }) := by
  rw [ddpSendTagged, sgeListLoop_eq sges _ hlen hlast he]
  have hs := sendSegs_sent (H := taggedSegHdr) (sgePieces sges mem)
    ⟨0 ||| ddpHdrT ||| 1, (nextHdr, ntohll nextHdr.TO), out⟩
  have hev := sendSegs_out_evs (H := taggedSegHdr) true (sgePieces sges mem)
    ⟨0 ||| ddpHdrT ||| 1, (nextHdr, ntohll nextHdr.TO), out⟩
  generalize (sendSegs taggedSegHdr true (sgePieces sges mem)
    ⟨0 ||| ddpHdrT ||| 1, (nextHdr, ntohll nextHdr.TO), out⟩).out = o at hs hev ⊢
  obtain ⟨sent, evs⟩ := o
  simp only at hs hev
  rw [hs, hev]
  rfl

theorem ddpSendUntagged_eq {out : Outbound} {mem : Mem} {nextHdr : DdpUntaggedMeta}
    {sges : List Sge} (hlen : ∀ sg ∈ sges, sg.length.toNat < 2 ^ 31) (hlast : LastNonempty sges)
    (he : out.evs = []) :
    ddpSendUntagged out mem nextHdr sges =
      (0, { out with sent := out.sent ++ untaggedWire nextHdr (sgePieces sges mem) }) := by
  rw [ddpSendUntagged, sgeListLoop_eq sges _ hlen hlast he]
  have hs := sendSegs_sent (H := untaggedSegHdr) (sgePieces sges mem)
    ⟨0 ||| 1, { nextHdr with mo := 0 }, out⟩
  have hev := sendSegs_out_evs (H := untaggedSegHdr) true (sgePieces sges mem)
    ⟨0 ||| 1, { nextHdr with mo := 0 }, out⟩
  generalize (sendSegs untaggedSegHdr true (sgePieces sges mem)
    ⟨0 ||| 1, { nextHdr with mo := 0 }, out⟩).out = o at hs hev ⊢
  obtain ⟨sent, evs⟩ := o
  simp only at hs hev
  rw [hs, hev]
  rfl

end SoftUiWarp
