import SoftUiWarp.Rdmap.SendLoop
import Mathlib.Data.Nat.ModEq

/-!
# The sequence numbers on the wire

The peer expects the messages of a queue to be numbered 1, 2, 3, … `rnic_send`
has one counter for the two plain sends and another one for the two sends with
invalidate, although all four use queue 0, and it advances a counter before it
knows whether there is something to send.

Results:
* `Tx.msnOn_eq`: the number a message carries is its counter's.
* `listPieces_eq_nil`: which scatter lists send something.
* `msns_gapless_iff`: when the numbers of both queues are without gap and
  repetition.
-/

namespace SoftUiWarp

open TcpStream ByteMem Runs

/-! ## The numbers of a message -/

/-- The queue number in an untagged FPDU. -/
def fpduQn (f : List UInt8) : UInt32 := ntohl (word32 ((f.drop 8).take 4))

/-- The sequence number in an untagged FPDU. -/
def fpduMsn (f : List UInt8) : UInt32 := ntohl (word32 ((f.drop 12).take 4))

theorem fpdu_parts (bits : UInt8) (h : DdpUntaggedMeta) (p : List UInt8) :
    ∃ (len : List UInt8) (rest : List UInt8), len.length = 2 ∧ fpdu [[bits], h.bytes, p] =
      len ++ (bits :: h.rsvdULP1 :: (bytes32 h.rsvdULP2 ++ (bytes32 h.qn ++ (bytes32 h.msn ++ rest)))) := by
  refine ⟨bytes16 (htons (ulpduLen [[bits], h.bytes, p])),
    bytes32 h.mo ++ p ++ List.replicate (((ulpduLen [[bits], h.bytes, p]).toNat + 2) % 4) 0 ++ bytes32 0,
    length_bytes16 _, ?_⟩
  simp [fpdu, DdpUntaggedMeta.bytes]

theorem fpduQn_fpdu (bits : UInt8) (h : DdpUntaggedMeta) (p : List UInt8) :
    fpduQn (fpdu [[bits], h.bytes, p]) = ntohl h.qn := by
  obtain ⟨len, rest, hlen, heq⟩ := fpdu_parts bits h p
  have hsplit : fpdu [[bits], h.bytes, p] = (len ++ (bits :: h.rsvdULP1 :: bytes32 h.rsvdULP2)) ++
      (bytes32 h.qn ++ (bytes32 h.msn ++ rest)) := by simp [heq]
  rw [fpduQn, hsplit, List.drop_left' (by simp [hlen]), List.take_left' (by simp), word32_bytes32]

theorem fpduMsn_fpdu (bits : UInt8) (h : DdpUntaggedMeta) (p : List UInt8) :
    fpduMsn (fpdu [[bits], h.bytes, p]) = ntohl h.msn := by
  obtain ⟨len, rest, hlen, heq⟩ := fpdu_parts bits h p
  have hsplit : fpdu [[bits], h.bytes, p] =
      (len ++ (bits :: h.rsvdULP1 :: (bytes32 h.rsvdULP2 ++ bytes32 h.qn))) ++
        (bytes32 h.msn ++ rest) := by simp [heq]
  rw [fpduMsn, hsplit, List.drop_left' (by simp [hlen]), List.take_left' (by simp), word32_bytes32]

/-- The control byte of an FPDU. -/
theorem getD_fpdu (bits : UInt8) (l : List (List UInt8)) : (fpdu ([bits] :: l)).getD 2 0 = bits := by
  have hlen : (bytes16 (htons (ulpduLen ([bits] :: l)))).length = 2 := length_bytes16 _
  simp only [fpdu, List.flatten_cons, List.append_assoc, List.getD_eq_getElem?_getD]
  rw [List.getElem?_append_right (by omega), hlen]
  rfl

/-- The sequence number of a message on queue `q`: that of its first FPDU. -/
def msnOn (q : UInt32) : List (List UInt8) → Option UInt32
  | [] => none
  | f :: _ => if ddpIsTagged (f.getD 2 0) = false ∧ fpduQn f = q then some (fpduMsn f) else none

/-- The sequence numbers of the messages on queue `q`, in order. -/
def msnsOn (q : UInt32) (ts : List Tx) : List UInt32 := ts.filterMap fun t => msnOn q t.fpdus

/-- The numbers are 1, 2, 3, … modulo `2 ^ 32`. -/
def Gapless (ms : List UInt32) : Prop := ∀ i m, ms[i]? = some m → m = UInt32.ofNat (i + 1)

/-- An entry of a scatter list that is sent. -/
def Sge.isSent (sg : Sge) : Bool := decide (0 < sg.length.toNat ∧ sg.length.toNat < 2 ^ 31)

/-- The request sends a message. -/
def Tx.transmits (t : Tx) : Bool :=
  if t.req.opcode = .rdmaReadReq then decide ((t.ep.sges t.req).length = 1)
  else (t.ep.sges t.req).any Sge.isSent

section

variable (q : UInt32)

theorem markLast_eq_nil (last : Bool) (ps : List (List UInt8)) : markLast last ps = [] ↔ ps = [] := by
  cases ps <;> simp [markLast]

theorem pieces_eq_nil (sg : Sge) (mem : Mem) : sg.pieces mem = [] ↔ sg.isSent = false := by
  unfold Sge.pieces Sge.isSent
  split
  · rename_i hlt
    constructor
    · intro h
      have hc : sg.content mem = [] := by
        by_contra hne
        exact chop_ne_nil hne h
      have hlen := congrArg List.length hc
      simp [Sge.content] at hlen
      simp [hlen]
    · intro h
      have hz : sg.length.toNat = 0 := by
        simp only [hlt, and_true, decide_eq_false_iff_not] at h
        omega
      simp [Sge.content, hz]
  · rename_i hge
    simp only [hge, and_false, decide_false]

/-- A list sends something exactly if one of its entries does. -/
theorem listPieces_eq_nil (mem : Mem) (sges : List Sge) :
    listPieces mem sges = [] ↔ sges.any Sge.isSent = false := by
  induction sges with
  | nil => simp [listPieces]
  | cons sg sges ih =>
    rw [listPieces, List.append_eq_nil_iff, markLast_eq_nil, pieces_eq_nil, ih, List.any_cons,
      Bool.or_eq_false_iff]

theorem msnOn_untagged (mem : Mem) (h : DdpUntaggedMeta) (sges : List Sge) :
    msnOn q (DdpCall.untagged mem h sges).frames =
      if sges.any Sge.isSent = true ∧ ntohl h.qn = q then some (ntohl h.msn) else none := by
  simp only [DdpCall.frames]
  cases hp : listPieces mem sges with
  | nil =>
    rw [(listPieces_eq_nil mem sges).mp hp]
    simp [segFrames, msnOn]
  | cons lp ps =>
    obtain ⟨last, p⟩ := lp
    have hany : sges.any Sge.isSent = true := by
      rw [← Bool.not_eq_false, ← listPieces_eq_nil mem, hp]
      simp
    have htag :
        ddpIsTagged (if last = true then (0x01 : UInt8) ||| ddpFlagLast else 0x01) = false := by
      cases last <;> decide
    have hqn := fpduQn_fpdu (if last = true then (0x01 : UInt8) ||| ddpFlagLast else 0x01)
      { h with mo := 0 } p
    have hmsn := fpduMsn_fpdu (if last = true then (0x01 : UInt8) ||| ddpFlagLast else 0x01)
      { h with mo := 0 } p
    simp only [segFrames, msnOn, getD_fpdu, htag, true_and, hany, untaggedSegHdr, hqn, hmsn]

theorem msnOn_tagged (mem : Mem) (h : DdpTaggedMeta) (sges : List Sge) :
    msnOn q (DdpCall.tagged mem h sges).frames = none := by
  simp only [DdpCall.frames]
  cases hp : listPieces mem sges with
  | nil => rfl
  | cons lp ps =>
    obtain ⟨last, p⟩ := lp
    have htag :
        ddpIsTagged (if last = true then (0x81 : UInt8) ||| ddpFlagLast else 0x81) = true := by
      cases last <;> decide
    simp only [segFrames, msnOn, getD_fpdu, htag, Bool.true_eq_false, false_and, if_false]

/-- A message carries the number its counter has. -/
theorem Tx.msnOn_eq (t : Tx) :
    msnOn q t.fpdus = t.req.opcode.counter.bind fun c =>
      if t.transmits = true ∧ c.qn = q then some (t.st.get c) else none := by
  unfold Tx.fpdus Tx.call Job.call Tx.transmits
  cases hop : t.req.opcode with
  | rdmaReadReq =>
    rcases hsg : t.ep.sges t.req with _ | ⟨sg, _ | ⟨sg', sges⟩⟩
    · simp [Tx.job, hop, hsg, msnOn, RdmaOpcode.counter]
    · have hsent : Sge.isSent ⟨0, UInt32.ofNat readReqFieldsSize, 0⟩ = true := by decide
      simp [Tx.job, hop, hsg, msnOn_untagged, RdmaOpcode.counter, Job.untaggedHdr, ntohl_htonl, hsent]
    · simp [Tx.job, hop, hsg, msnOn, RdmaOpcode.counter]
  | send => simp [Tx.job, hop, msnOn_untagged, RdmaOpcode.counter, Job.untaggedHdr, ntohl_htonl]
  | sendSe => simp [Tx.job, hop, msnOn_untagged, RdmaOpcode.counter, Job.untaggedHdr, ntohl_htonl]
  | sendInval => simp [Tx.job, hop, msnOn_untagged, RdmaOpcode.counter, Job.untaggedHdr, ntohl_htonl]
  | sendSeInval => simp [Tx.job, hop, msnOn_untagged, RdmaOpcode.counter, Job.untaggedHdr, ntohl_htonl]
  | rdmaWrite => simp [Tx.job, hop, msnOn_tagged, RdmaOpcode.counter]
  | rdmaReadResp => simp [Tx.job, hop, msnOn_tagged, RdmaOpcode.counter]
  | terminate => simp [Tx.job, hop, msnOn, RdmaOpcode.counter]
  | notSupported => simp [Tx.job, hop, msnOn, RdmaOpcode.counter]

end

/-! ## Counting -/

/-- The request advances the counter `c`. -/
def Tx.counts (c : Counter) (t : Tx) : Bool := decide (t.req.opcode.counter = some c)

/-- The request sends a message on queue `q`. -/
def Tx.sendsOn (q : UInt32) (t : Tx) : Bool :=
  t.transmits && t.req.opcode.counter.any fun c => decide (c.qn = q)

/-- The number of requests that advance the counter `c` and send nothing. -/
def skipped (c : Counter) (ts : List Tx) : ℕ := ts.countP fun t => t.counts c && !t.transmits

/-- The number of messages on the queue of `c` that another counter numbers. -/
def foreign (c : Counter) (ts : List Tx) : ℕ := ts.countP fun t => t.sendsOn c.qn && !t.counts c

/-- Before every message, the other counter of its queue has numbered as many
    messages, modulo `2 ^ 32`, as its own counter has skipped numbers. -/
def MsnsAligned (ts : List Tx) : Prop :=
  ∀ i t c, ts[i]? = some t → t.req.opcode.counter = some c → t.transmits = true →
    foreign c (ts.take i) ≡ skipped c (ts.take i) [MOD 2 ^ 32]

section

variable {α : Type} {c : Counter}

/-- The numbers in a list of optional numbers are 1, 2, 3, … if each is the one
    after the number of those before it. -/
theorem gapless_filterMap_iff (f : α → Option UInt32) (ts : List α) :
    Gapless (ts.filterMap f) ↔ ∀ i t m, ts[i]? = some t → f t = some m →
      m = UInt32.ofNat ((ts.take i).countP (fun t => (f t).isSome) + 1) := by
  constructor
  · intro h i t m hi hm
    have hsplit : ts = ts.take i ++ t :: ts.drop (i + 1) := by
      obtain ⟨hlt, rfl⟩ := List.getElem?_eq_some_iff.mp hi
      rw [List.getElem_cons_drop, List.take_append_drop]
    have hlen : ((ts.take i).filterMap f).length = (ts.take i).countP fun t => (f t).isSome :=
      List.length_filterMap_eq_countP
    have hfm : ts.filterMap f = (ts.take i).filterMap f ++ m :: (ts.drop (i + 1)).filterMap f := by
      conv_lhs => rw [hsplit, List.filterMap_append, List.filterMap_cons_some hm]
    refine h _ m ?_
    rw [← hlen, hfm, List.getElem?_append_right le_rfl, Nat.sub_self]
    rfl
  · intro h j m hj
    obtain ⟨hlt, hget⟩ := List.getElem?_eq_some_iff.mp hj
    have hsplit : ts.filterMap f = (ts.filterMap f).take j ++ m :: (ts.filterMap f).drop (j + 1) := by
      rw [← hget, List.getElem_cons_drop, List.take_append_drop]
    obtain ⟨l₁, l₂, hts, h₁, h₂⟩ := List.filterMap_eq_append_iff.mp hsplit
    obtain ⟨l₃, t, l₄, hl₂, h₃, hm, -⟩ := List.filterMap_eq_cons_iff.mp h₂
    have hpre : ts = (l₁ ++ l₃) ++ t :: l₄ := by rw [hts, hl₂, List.append_assoc]
    have hnone : l₃.filterMap f = [] := List.filterMap_eq_nil_iff.mpr h₃
    have hcount : (l₁ ++ l₃).countP (fun t => (f t).isSome) = j := by
      rw [← List.length_filterMap_eq_countP, List.filterMap_append, h₁, hnone, List.append_nil,
        List.length_take]
      omega
    have hi := h (l₁ ++ l₃).length t m (by rw [hpre]; simp) hm
    rwa [hpre, List.take_left' rfl, hcount] at hi

theorem Statics.next_get (st : Statics) (op : RdmaOpcode) (c : Counter) :
    (st.next op).get c = if op.counter = some c then st.get c + 1 else st.get c := by
  unfold Statics.next
  rcases op.counter with _ | (_ | _ | _) <;> cases c <;> simp [Statics.get]

/-- A counter after a sequence of steps that each advance the counters for the
    opcode `op x`. -/
theorem foldl_get {β : Type} (st : β → Statics) {g : β → α → β} {op : α → RdmaOpcode}
    (hg : ∀ v x, st (g v x) = (st v).next (op x)) (xs : List α) (v : β) (c : Counter) :
    (st (xs.foldl g v)).get c =
      (st v).get c + UInt32.ofNat (xs.countP fun x => decide ((op x).counter = some c)) := by
  induction xs generalizing v with
  | nil => simp
  | cons x xs ih =>
    rw [List.foldl_cons, ih, hg, Statics.next_get, List.countP_cons]
    by_cases h : (op x).counter = some c
    · have hone : (UInt32.ofNat 1 : UInt32) = 1 := rfl
      simp only [h, decide_true, if_true, UInt32.ofNat_add, hone]
      rw [UInt32.add_assoc, UInt32.add_comm 1]
    · simp [h]

theorem isSome_msnOn (q : UInt32) (t : Tx) : (msnOn q t.fpdus).isSome = t.sendsOn q := by
  rw [t.msnOn_eq, Tx.sendsOn]
  cases t.req.opcode.counter with
  | none => simp
  | some c =>
    simp only [Option.bind_some, Option.any_some]
    cases t.transmits with
    | true => by_cases hq : c.qn = q <;> simp [hq]
    | false => simp

/-- The requests of a counter are its messages and those that send nothing. -/
theorem countP_counts (c : Counter) (ts : List Tx) :
    ts.countP (Tx.counts c) = ts.countP (fun t => t.counts c && t.transmits) + skipped c ts := by
  induction ts with
  | nil => rfl
  | cons t ts ih =>
    simp only [skipped, List.countP_cons] at ih ⊢
    cases t.counts c <;> cases t.transmits <;> simp <;> omega

/-- The messages of a queue are those of the counter and the foreign ones. -/
theorem countP_sendsOn (c : Counter) (ts : List Tx) :
    ts.countP (Tx.sendsOn c.qn) = ts.countP (fun t => t.counts c && t.transmits) + foreign c ts := by
  have hown : ∀ t : Tx, t.counts c = true → t.sendsOn c.qn = t.transmits := by
    intro t ht
    have hc : t.req.opcode.counter = some c := by simpa [Tx.counts] using ht
    simp [Tx.sendsOn, hc]
  induction ts with
  | nil => rfl
  | cons t ts ih =>
    simp only [foreign, List.countP_cons] at ih ⊢
    cases hc : t.counts c with
    | true =>
      rw [hown t hc]
      cases t.transmits <;> simp <;> omega
    | false => cases t.sendsOn c.qn <;> simp <;> omega

theorem ofNat_inj_iff (a b : ℕ) : UInt32.ofNat a = UInt32.ofNat b ↔ a ≡ b [MOD 2 ^ 32] := by
  rw [← UInt32.toNat_inj, UInt32.toNat_ofNat', UInt32.toNat_ofNat', Nat.ModEq]

/-- A message carries the number after the number of those before it on its
    queue exactly if the foreign ones make up for the skipped ones. -/
theorem msn_eq_iff {bld : Build} {ls : List Label} {s : Sys} (hst : s.st = {}) {i : ℕ} {t : Tx}
    (hi : (txs bld ls s)[i]? = some t) :
    t.st.get c = UInt32.ofNat (((txs bld ls s).take i).countP (Tx.sendsOn c.qn) + 1) ↔
      foreign c ((txs bld ls s).take i) ≡ skipped c ((txs bld ls s).take i) [MOD 2 ^ 32] := by
  obtain ⟨hlt, hget⟩ := List.getElem?_eq_some_iff.mp hi
  have hsplit : txs bld ls s = (txs bld ls s).take i ++ t :: (txs bld ls s).drop (i + 1) := by
    rw [← hget, List.getElem_cons_drop, List.take_append_drop]
  have hfirst : (s.st.get c) = UInt32.ofNat 1 := by
    rw [hst]
    cases c <;> rfl
  have hget : t.st.get c =
      s.st.get c + UInt32.ofNat (((txs bld ls s).take i).countP (Tx.counts c)) := by
    rw [txs_st bld hsplit]
    exact foldl_get id (fun _ _ => rfl) _ _ c
  rw [hget, hfirst, ← UInt32.ofNat_add, ofNat_inj_iff, countP_counts, countP_sendsOn]
  generalize ((txs bld ls s).take i).countP (fun t => t.counts c && t.transmits) = own
  rw [show own + foreign c _ + 1 = 1 + own + foreign c ((txs bld ls s).take i) by omega,
    ← Nat.add_assoc]
  exact ⟨fun h => (Nat.ModEq.add_left_cancel' _ h).symm, fun h => h.symm.add_left _⟩

/-- The numbers of one queue. -/
theorem gapless_iff {bld : Build} {ls : List Label} {s : Sys} (hst : s.st = {}) (q : UInt32) :
    Gapless (msnsOn q (txs bld ls s)) ↔
      ∀ i t c, (txs bld ls s)[i]? = some t → t.req.opcode.counter = some c → t.transmits = true →
        c.qn = q →
        foreign c ((txs bld ls s).take i) ≡ skipped c ((txs bld ls s).take i) [MOD 2 ^ 32] := by
  have hcount : ∀ ts : List Tx, ts.countP (fun t => (msnOn q t.fpdus).isSome) =
      ts.countP (Tx.sendsOn q) := fun ts => by
    congr 1
    funext t
    exact isSome_msnOn q t
  unfold msnsOn
  rw [gapless_filterMap_iff]
  constructor
  · intro h i t c hi hc ht hq
    subst hq
    have hm : msnOn c.qn t.fpdus = some (t.st.get c) := by
      rw [t.msnOn_eq, hc]
      simp [ht]
    have heq := h i t _ hi hm
    rw [hcount] at heq
    exact (msn_eq_iff hst hi).mp heq
  · intro h i t m hi hm
    rw [t.msnOn_eq] at hm
    obtain ⟨c, hc, hm⟩ := Option.bind_eq_some_iff.mp hm
    obtain ⟨⟨ht, rfl⟩, hget⟩ := Option.ite_none_right_eq_some.mp hm
    rw [hcount, ← Option.some_inj.mp hget]
    exact (msn_eq_iff hst hi).mpr (h i t c hi hc ht rfl)

end

/-! ## The two queues -/

/-- In a process with one stream and without send errors, the messages of the
    requests are on the wire, and their numbers are without gap and repetition
    on both queues exactly if the counters are aligned. -/
theorem msns_gapless_iff (bld : Build) (ls : List Label) {s : Sys} (hst : s.st = {})
    (he : s.ep.ddp.outb.evs = []) :
    (run (step bld) ls s).ep.ddp.outb.sent =
        s.ep.ddp.outb.sent ++ ((txs bld ls s).flatMap Tx.fpdus).flatten ∧
      (Gapless (msnsOn sendQn (txs bld ls s)) ∧ Gapless (msnsOn readQn (txs bld ls s)) ↔
        MsnsAligned (txs bld ls s)) := by
  refine ⟨by rw [txs_sent bld ls he], ?_⟩
  rw [gapless_iff hst, gapless_iff hst]
  constructor
  · rintro ⟨h0, h1⟩ i t c hi hc ht
    cases c with
    | send => exact h0 i t .send hi hc ht rfl
    | inval => exact h0 i t .inval hi hc ht rfl
    | read => exact h1 i t .read hi hc ht rfl
  · exact fun h => ⟨fun i t c hi hc ht _ => h i t c hi hc ht,
      fun i t c hi hc ht _ => h i t c hi hc ht⟩

/-- Requests of one counter for each queue, all of which send something, are
    aligned. -/
theorem aligned_of_single {ts : List Tx}
    (h : ∀ t ∈ ts, t.transmits = true ∧ t.req.opcode.counter ≠ some .inval) : MsnsAligned ts := by
  intro i t c hi hc _
  have hmem : ∀ u ∈ ts.take i, u.transmits = true ∧ u.req.opcode.counter ≠ some .inval :=
    fun u hu => h u (List.mem_of_mem_take hu)
  have hci : c ≠ .inval := by
    rintro rfl
    exact (h t (List.mem_of_getElem? hi)).2 hc
  have hskip : skipped c (ts.take i) = 0 := by
    refine List.countP_eq_zero.mpr fun u hu => ?_
    simp [(hmem u hu).1]
  have hforeign : foreign c (ts.take i) = 0 := by
    refine List.countP_eq_zero.mpr fun u hu => ?_
    have hui := (hmem u hu).2
    unfold Tx.sendsOn Tx.counts
    rcases hu' : u.req.opcode.counter with _ | (_ | _ | _)
    · simp
    · cases c <;> simp_all [Counter.qn, sendQn, readQn]
    · exact absurd hu' hui
    · cases c <;> simp_all [Counter.qn, sendQn, readQn]
  rw [hskip, hforeign]

/-- Two Sends and a read. -/
theorem msns_gapless_sends_and_read :
    let ls := serve (sendWr 1) ++ serve (readWr 7 [⟨0x1000, 4, 0x1000⟩]) ++ serve (sendWr 2)
    Gapless (msnsOn sendQn (txs ⟨false, false⟩ ls (sendSys []))) ∧
      msnsOn sendQn (txs ⟨false, false⟩ ls (sendSys [])) = [1, 2] := by
  intro ls
  have hall : ∀ t ∈ txs ⟨false, false⟩ ls (sendSys []),
      t.transmits = true ∧ t.req.opcode.counter ≠ some .inval := by decide +kernel
  exact ⟨((msns_gapless_iff ⟨false, false⟩ ls rfl rfl).2.mpr (aligned_of_single hall)).1,
    by decide +kernel⟩

/-- A Send with invalidate after a Send repeats its number. -/
theorem msns_repeated :
    let ls := serve (sendWr 1) ++ serve { sendWr 2 with opcode := .sendInval }
    msnsOn sendQn (txs ⟨false, false⟩ ls (sendSys [])) = [1, 1] ∧
      ¬Gapless (msnsOn sendQn (txs ⟨false, false⟩ ls (sendSys []))) := by
  intro ls
  have heq : msnsOn sendQn (txs ⟨false, false⟩ ls (sendSys [])) = [1, 1] := by decide +kernel
  refine ⟨heq, fun h => ?_⟩
  rw [heq] at h
  exact absurd (h 1 1 rfl) (by decide)

end SoftUiWarp
