import SoftUiWarp.Ddp.Frames
import SoftUiWarp.Ddp.RoundTrip

/-!
# When a successful send is one message

The send loops set the L bit in the segment that ends the last entry of the
list. An entry without bytes sends no segment, and one of `2 ^ 31` bytes or more
is taken for negative and sends none either; when it is the last one, no segment
ends the message and the call still returns 0.

Results:
* `Fpdu.map_wire_inj`: packets can be told apart on the wire.
* `segFrames_payload`, `segFrames_isMessage`: the packets of a call carry its
  pieces, and are a message when the final piece alone is marked.
* `marked_listPieces_iff`: for which lists that is so.
* `sends_one_message_iff`: a call that returns 0 has sent one message exactly
  for these lists.
-/

namespace SoftUiWarp

open TcpStream ByteMem

/-! ## Packets on the wire -/

namespace Fpdu

theorem wire_ne_nil (f : Fpdu) : f.wire ≠ [] := by
  have hlen := f.length_wire
  rw [← List.length_pos_iff]
  omega

/-- The bytes of a list of packets determine it. -/
theorem map_wire_inj {fs gs : List Fpdu} (h : (fs.map wire).flatten = (gs.map wire).flatten) :
    fs = gs := by
  induction fs generalizing gs with
  | nil =>
    cases gs with
    | nil => rfl
    | cons g gs => exact absurd (List.append_eq_nil_iff.mp h.symm).1 g.wire_ne_nil
  | cons f fs ih =>
    cases gs with
    | nil => exact absurd (List.append_eq_nil_iff.mp h).1 f.wire_ne_nil
    | cons g gs =>
      obtain ⟨rfl, hrest⟩ := wire_append_inj h
      rw [ih hrest]

end Fpdu

/-! ## The packets of a list of pieces -/

/-- The final piece is marked and no other. -/
def Marked : List (Bool × List UInt8) → Prop
  | [] => False
  | [p] => p.1 = true
  | p :: q :: ps => p.1 = false ∧ Marked (q :: ps)

instance : ∀ ps : List (Bool × List UInt8), Decidable (Marked ps)
  | [] => isFalse id
  | [p] => inferInstanceAs (Decidable (p.1 = true))
  | p :: q :: ps =>
    have := instDecidableMarked (q :: ps)
    inferInstanceAs (Decidable (p.1 = false ∧ Marked (q :: ps)))

section

variable {σ : Type} {H : SegHdr σ} {n : ℕ} {bits : UInt8} {h : σ} {fs : List Fpdu}
  {ps : List (Bool × List UInt8)}

/-- One packet and the piece it carries. -/
theorem wire_of_fpdu {b : UInt8} {bs p : List UInt8} {f : Fpdu} (hbs : bs.length = n)
    (hlen : n + 1 + p.length < 2 ^ 16) (hf : fpdu [[b], bs, p] = f.wire) :
    f.payload (n + 1) = p ∧ n + 1 ≤ f.len ∧ f.ctrl = b := by
  have hflat : [[b], bs, p].flatten = b :: (bs ++ p) := by simp
  have hl : [[b], bs, p].flatten.length = n + 1 + p.length := by
    rw [hflat, List.length_cons, List.length_append, hbs]
    omega
  rw [fpdu_eq_wire (by omega) (by omega), ← List.append_nil (Fpdu.wire _),
    ← List.append_nil f.wire] at hf
  obtain ⟨hofUlpdu, -⟩ := Fpdu.wire_append_inj hf
  have hu : f.ulpdu = b :: (bs ++ p) := by
    rw [← hofUlpdu]
    exact hflat
  obtain ⟨-, hp, hlen', hc⟩ := ulpdu_parts hu hbs
  exact ⟨hp, by omega, hc⟩

variable (hn : ∀ h, (H.bytes h).length = n) (hmax : n + 1 + mulpdu < 2 ^ 16)

include hn hmax

theorem segFrames_payload (hps : ∀ p ∈ ps, p.2.length ≤ mulpdu)
    (heq : segFrames H ps bits h = fs.map Fpdu.wire) :
    payloadOf (n + 1) fs = (ps.map Prod.snd).flatten := by
  induction ps generalizing bits h fs with
  | nil =>
    obtain rfl := List.map_eq_nil_iff.mp heq.symm
    rfl
  | cons p ps ih =>
    obtain ⟨f, fs, rfl, hf, hrest⟩ := List.map_eq_cons_iff.mp heq.symm
    have hp := hps p (by simp)
    obtain ⟨hpay, -, -⟩ := wire_of_fpdu (hn h) (by omega) hf.symm
    rw [payloadOf_cons, hpay, ih (fun q hq => hps q (by simp [hq])) hrest.symm]
    rfl

/-- The packets are a message when the final piece alone is marked. -/
theorem segFrames_isMessage (hps : ∀ p ∈ ps, p.2.length ≤ mulpdu)
    (hbits : bits &&& ddpFlagLast = 0) (hlast : (bits ||| ddpFlagLast) &&& ddpFlagLast ≠ 0)
    (heq : segFrames H ps bits h = fs.map Fpdu.wire) : IsMessage (n + 1) fs ↔ Marked ps := by
  induction ps generalizing h fs with
  | nil =>
    obtain rfl := List.map_eq_nil_iff.mp heq.symm
    exact Iff.rfl
  | cons p ps ih =>
    obtain ⟨last, p⟩ := p
    obtain ⟨f, fs, rfl, hf, hrest⟩ := List.map_eq_cons_iff.mp heq.symm
    have hp : p.length ≤ mulpdu := hps (last, p) (by simp)
    obtain ⟨-, hlen, hctrl⟩ := wire_of_fpdu (hn h) (by omega) hf.symm
    have hflag : f.last = last := by
      unfold Fpdu.last
      rw [hctrl]
      cases last with
      | true => simpa using hlast
      | false => simpa using hbits
    cases ps with
    | nil =>
      obtain rfl := List.map_eq_nil_iff.mp hrest
      show n + 1 ≤ f.len ∧ f.last = true ↔ last = true
      rw [hflag]
      exact and_iff_right hlen
    | cons q ps =>
      obtain ⟨g, gs, rfl, -, -⟩ := List.map_eq_cons_iff.mp hrest
      show n + 1 ≤ f.len ∧ f.last = false ∧ IsMessage (n + 1) (g :: gs) ↔
        last = false ∧ Marked (q :: ps)
      rw [hflag, and_iff_right hlen]
      cases last with
      | true => simp
      | false => rw [ih (fun q hq => hps q (by simp [hq])) hrest.symm]

end

/-! ## The lists that end with a marked piece -/

section

variable {mem : Mem} {sges : List Sge}

theorem map_snd_markLast (last : Bool) (ps : List (List UInt8)) :
    (markLast last ps).map Prod.snd = ps := by
  induction ps with
  | nil => rfl
  | cons p ps ih => rw [markLast, List.map_cons, ih]

theorem marked_markLast {ps : List (List UInt8)} (h : ps ≠ []) : Marked (markLast true ps) := by
  induction ps with
  | nil => exact absurd rfl h
  | cons p ps ih =>
    cases ps with
    | nil => rfl
    | cons q ps => exact ⟨rfl, ih (by simp)⟩

/-- The pieces of an entry that is not the last one do not end the message. -/
theorem marked_of_append {ps : List (List UInt8)} {qs : List (Bool × List UInt8)}
    (h : Marked (markLast false ps ++ qs)) : Marked qs := by
  induction ps with
  | nil => exact h
  | cons p ps ih =>
    have hrest : Marked (markLast false ps ++ qs) := by
      cases hr : markLast false ps ++ qs with
      | nil =>
        rw [markLast, List.cons_append, hr] at h
        cases h
      | cons q rest =>
        rw [markLast, List.cons_append, hr] at h
        exact h.2
    exact ih hrest

theorem lastNonempty_of_marked (h : Marked (listPieces mem sges)) : LastNonempty sges := by
  induction sges with
  | nil => exact h.elim
  | cons sg sges ih =>
    cases sges with
    | nil =>
      refine ⟨sg, rfl, Nat.pos_of_ne_zero fun h0 => ?_⟩
      have hnil : sg.pieces mem = [] := by simp [Sge.pieces, Sge.content, h0]
      rw [listPieces, hnil] at h
      exact h.elim
    | cons sg' sges =>
      obtain ⟨l, hl, hpos⟩ := ih (marked_of_append h)
      exact ⟨l, by rw [List.getLast?_cons_cons, hl], hpos⟩

/-- The pieces of an entry hold its bytes, or nothing if it is skipped. -/
theorem flatten_pieces (sg : Sge) (mem : Mem) :
    (sg.pieces mem).flatten = if sg.length.toNat < 2 ^ 31 then sg.content mem else [] := by
  unfold Sge.pieces
  split
  · exact flatten_chop _
  · rfl

theorem flatten_listPieces (mem : Mem) (sges : List Sge) :
    ((listPieces mem sges).map Prod.snd).flatten =
      sges.flatMap fun sg => (sg.pieces mem).flatten := by
  induction sges with
  | nil => rfl
  | cons sg sges ih =>
    rw [listPieces, List.map_append, map_snd_markLast, List.flatten_append, ih, List.flatMap_cons]

theorem length_flatten_pieces_le (sges : List Sge) (mem : Mem) :
    (sges.flatMap fun sg => (sg.pieces mem).flatten).length ≤ (sgesContent sges mem).length := by
  induction sges with
  | nil => exact le_rfl
  | cons sg sges ih =>
    have hsg : (sg.pieces mem).flatten.length ≤ (sg.content mem).length := by
      rw [flatten_pieces]
      split <;> simp
    unfold sgesContent at ih ⊢
    rw [List.flatMap_cons, List.flatMap_cons, List.length_append, List.length_append]
    omega

/-- An entry that is skipped is missing from the message. -/
theorem lt_of_flatten_pieces
    (h : (sges.flatMap fun sg => (sg.pieces mem).flatten) = sgesContent sges mem) :
    ∀ sg ∈ sges, sg.length.toNat < 2 ^ 31 := by
  induction sges with
  | nil => simp
  | cons sg sges ih =>
    unfold sgesContent at h ih
    rw [List.flatMap_cons, List.flatMap_cons] at h
    have hrest := length_flatten_pieces_le sges mem
    have hlen := congrArg List.length h
    unfold sgesContent at hrest
    rw [List.length_append, List.length_append] at hlen
    have hsg : sg.length.toNat < 2 ^ 31 := by
      by_contra hbig
      rw [flatten_pieces, if_neg hbig, Sge.content, Mem.length_read, List.length_nil] at hlen
      omega
    rw [flatten_pieces, if_pos hsg] at h
    intro x hx
    rcases List.mem_cons.mp hx with rfl | hx
    · exact hsg
    · exact ih (List.append_cancel_left h) x hx

/-- The pieces hold every byte and the final one alone is marked. -/
theorem marked_listPieces_iff (mem : Mem) (sges : List Sge) :
    (Marked (listPieces mem sges) ∧
      ((listPieces mem sges).map Prod.snd).flatten = sgesContent sges mem) ↔
      (∀ sg ∈ sges, sg.length.toNat < 2 ^ 31) ∧ LastNonempty sges := by
  constructor
  · rintro ⟨hm, hc⟩
    rw [flatten_listPieces] at hc
    exact ⟨lt_of_flatten_pieces hc, lastNonempty_of_marked hm⟩
  · rintro ⟨hlen, hlast⟩
    rw [listPieces_eq hlen hlast, map_snd_markLast, flatten_sgePieces]
    exact ⟨marked_markLast (sgePieces_ne_nil mem hlast), rfl⟩

end

/-! ## Calls -/

namespace DdpCall

def mem : DdpCall → Mem
  | .tagged mem _ _ => mem
  | .untagged mem _ _ => mem

def sgeList : DdpCall → List Sge
  | .tagged _ _ sgeList => sgeList
  | .untagged _ _ sgeList => sgeList

/-- The size of the segment headers, control byte included. -/
def hdrSize : DdpCall → ℕ
  | .tagged .. => ddpTaggedHdrSize + ddpCtrlSize
  | .untagged .. => ddpUntaggedHdrSize + ddpCtrlSize

/-- The call has given the segments of one message to the socket: at least one,
    the L bit on the final one alone, with the bytes of the list as payload. -/
def OneMessage (c : DdpCall) (o : Outbound) : Prop :=
  ∃ fs : List Fpdu, c.run o = sendFrames (fs.map Fpdu.wire) o ∧ IsMessage c.hdrSize fs ∧
    payloadOf c.hdrSize fs = sgesContent c.sgeList c.mem

/-- The packets of a call are a message with its bytes when its pieces are. -/
theorem frames_isMessage (c : DdpCall) {fs : List Fpdu} (h : c.frames = fs.map Fpdu.wire) :
    (IsMessage c.hdrSize fs ↔ Marked (listPieces c.mem c.sgeList)) ∧
      payloadOf c.hdrSize fs = ((listPieces c.mem c.sgeList).map Prod.snd).flatten := by
  cases c with
  | tagged mem nextHdr sgeList =>
    have hn : ∀ h, (taggedSegHdr.bytes h).length = ddpTaggedHdrSize := fun h =>
      h.1.length_bytes
    exact ⟨segFrames_isMessage hn (by decide) (listPieces_le mem sgeList) (by decide) (by decide) h,
      segFrames_payload hn (by decide) (listPieces_le mem sgeList) h⟩
  | untagged mem nextHdr sgeList =>
    have hn : ∀ h, (untaggedSegHdr.bytes h).length = ddpUntaggedHdrSize := fun h =>
      h.length_bytes
    exact ⟨segFrames_isMessage hn (by decide) (listPieces_le mem sgeList) (by decide) (by decide) h,
      segFrames_payload hn (by decide) (listPieces_le mem sgeList) h⟩

/-- The packets of a call, as packets. -/
theorem exists_packets (c : DdpCall) : ∃ fs : List Fpdu, c.frames = fs.map Fpdu.wire := by
  have h := c.frames_wire
  revert h
  generalize c.frames = l
  intro h
  induction l with
  | nil => exact ⟨[], rfl⟩
  | cons f l ih =>
    obtain ⟨F, rfl⟩ := h f (by simp)
    obtain ⟨fs, rfl⟩ := ih fun g hg => h g (List.mem_cons_of_mem _ hg)
    exact ⟨F :: fs, rfl⟩

/-- What a socket that takes everything has been given tells the packets. -/
theorem oneMessage_iff (c : DdpCall) :
    (∀ o, (c.run o).1 = 0 → c.OneMessage o) ↔ Marked (listPieces c.mem c.sgeList) ∧
      ((listPieces c.mem c.sgeList).map Prod.snd).flatten = sgesContent c.sgeList c.mem := by
  obtain ⟨gs, hgs⟩ := c.exists_packets
  obtain ⟨hmsg, hpay⟩ := c.frames_isMessage hgs
  rw [← hmsg, ← hpay]
  constructor
  · intro h
    obtain ⟨fs, hrun, hfs⟩ := h ⟨[], []⟩ (by rw [run_full])
    rw [run_full, sendFrames_full, hgs] at hrun
    have hsent := congrArg (fun r => r.2.sent) hrun
    obtain rfl := Fpdu.map_wire_inj (List.append_cancel_left hsent)
    exact hfs
  · intro h o _
    exact ⟨gs, by rw [run_eq, hgs], h⟩

end DdpCall

/-- A call that returns 0 has sent exactly one message, if and only if no entry
    of its list has `2 ^ 31` bytes or more and the last one has some. -/
theorem sends_one_message_iff (c : DdpCall) :
    (∀ o, (c.run o).1 = 0 → c.OneMessage o) ↔
      (∀ sg ∈ c.sgeList, sg.length.toNat < 2 ^ 31) ∧ LastNonempty c.sgeList :=
  c.oneMessage_iff.trans (marked_listPieces_iff c.mem c.sgeList)

/-- Two entries of which the last is empty: the call returns 0 and has sent one
    segment without the L bit. An empty list is sent as no segment. -/
theorem sends_unterminated :
    let mem : Mem := ⟨fun a => a.toUInt8, []⟩
    let c : DdpCall := .tagged mem ⟨0x43, 0, 0⟩ [⟨7, 1, 0⟩, ⟨0, 0, 0⟩]
    let e : DdpCall := .untagged mem ⟨0x43, 0, 0, 0, 0⟩ []
    (c.run ⟨[], []⟩).1 = 0 ∧ (c.run ⟨[], []⟩).2.sent.getD 2 0 = 0x81 ∧
      ¬(∀ o, (c.run o).1 = 0 → c.OneMessage o) ∧
      e.run ⟨[], []⟩ = (0, ⟨[], []⟩) ∧ ¬(∀ o, (e.run o).1 = 0 → e.OneMessage o) := by
  intro mem c e
  refine ⟨by decide +kernel, by decide +kernel, ?_, by decide +kernel, ?_⟩
  · rw [c.oneMessage_iff]
    intro h
    exact absurd h.1 (by decide +kernel)
  · rw [e.oneMessage_iff]
    intro h
    exact h.1

end SoftUiWarp
