import SoftUiWarp.Mpa.Outcome
import SoftUiWarp.Mpa.Fpdu

/-!
# MPA framing, read back in any pieces

`mpa_send` frames one ULPDU. The receiver reads a packet with as many calls of
`mpa_recv` as it likes, and the call that reaches the end of the ULPDU takes
the padding and the CRC with it.

Results:
* `readCalls_body`: the calls after the MPA header.
* `packet_read`: all calls for one packet.
* `framing_roundTrip`: a sequence of packets.
-/

namespace SoftUiWarp

open TcpStream ByteMem

/-- The stream after `mpa_send` was called on each scatter list in turn. -/
def sendAll (o : Outbound) (ls : List (List (List UInt8))) : Outbound :=
  ls.foldl (fun o l => (mpaSend o l).2) o

/-- The calls of `mpa_recv` on one packet, with the given numbers of bytes. -/
def readCalls : List ℕ → Inbound → MpaPacket → List MpaOut
  | [], _, _ => []
  | n :: ns, s, info =>
    let o := mpaRecv s info n
    o :: readCalls ns o.inb o.info

/-- The stream after these calls. -/
def readEnd (s : Inbound) (os : List MpaOut) : Inbound := (os.getLast?.map MpaOut.inb).getD s

/-- Positive numbers of bytes with which the last call, and no call before it,
    reaches the end of a ULPDU of which `rem` bytes remain. -/
def Exhausts : (rem : ℕ) → List ℕ → Prop
  | _, [] => False
  | rem, [n] => 0 < n ∧ rem ≤ n
  | rem, n :: m :: ns => 0 < n ∧ n < rem ∧ Exhausts (rem - n) (m :: ns)

/-- The calls `os` have read the packet of the scatter list `l` at the front of
    `s`. -/
structure PacketRead (l : List (List UInt8)) (s : Inbound) (os : List MpaOut) : Prop where
  ok : ∀ o ∈ os, o.ret.Ok
  bytes : ∃ bss : List (List UInt8), os.map MpaOut.writes = bss.map List.zipIdx ∧
    bss.flatten = l.flatten
  info : ∃ o, os.getLast? = some o ∧ o.info.ulpduLen.toNat = l.flatten.length ∧
    o.info.bytesRcvd = 2 + l.flatten.length + padLen l.flatten.length + 4
  next : readEnd s os = s.advance (fpdu l).length

/-- The packets of the scatter lists are read one after the other, the calls of
    each one on a fresh packet. -/
def PacketsRead (fresh : MpaPacket) : List (List (List UInt8)) → List (List ℕ) → Inbound → Prop
  | l :: ls, ns :: nss, s => PacketRead l s (readCalls ns s fresh) ∧
      PacketsRead fresh ls nss (readEnd s (readCalls ns s fresh))
  | _, _, _ => True

/-! ## One packet -/

section

variable {s : Inbound} {len : UInt16}

theorem packet_advance (len : UInt16) (k n : ℕ) :
    (⟨len, (2 : ℤ) + k + n⟩ : MpaPacket) = ⟨len, 2 + (k + n : ℕ)⟩ := by
  simp only [MpaPacket.mk.injEq, true_and]
  omega

/-- Behind the header, every call is one for the body. -/
theorem readCalls_inside (m k : ℕ) (ns : List ℕ) (s : Inbound) (len : UInt16) :
    readCalls (m :: ns) s ⟨len, 2 + k⟩ =
      let o := mpaRecvBody s ⟨len, 2 + k⟩ m
      o :: readCalls ns o.inb o.info := by
  rw [readCalls, mpaRecv, if_neg (by simp only [mpaHdrSize]; omega)]

/-- The calls for the bytes of a ULPDU from the `k`-th on, after its header. -/
theorem readCalls_body : ∀ (ns : List ℕ) (n k : ℕ) (s : Inbound), s.FailFree →
    (∀ p, 4 ≤ s.ready p) → k < len.toNat → Exhausts (len.toNat - k) (n :: ns) →
    len.toNat - k + padLen len.toNat + 4 ≤ s.pending.length →
    let o := mpaRecvBody s ⟨len, 2 + k⟩ n
    let os := o :: readCalls ns o.inb o.info
    (∀ o ∈ os, o.ret.Ok) ∧
      (∃ bss : List (List UInt8), os.map MpaOut.writes = bss.map List.zipIdx ∧
        bss.flatten = s.pending.take (len.toNat - k)) ∧
      ∃ o, os.getLast? = some o ∧
        o.info = ⟨len, 2 + len.toNat + padLen len.toNat + 4⟩ ∧
        o.inb = s.advance (len.toNat - k + padLen len.toNat + 4) := by
  intro ns
  induction ns with
  | nil =>
    intro n k s hf hr hk hns hlen
    have hpad := padLen_lt len.toNat
    have hmax : 2 ^ 16 ≤ maxRwCount := by decide
    have hlt := len.toNat_lt
    have hready := hr (s.pos + (len.toNat - k))
    have hsum : (2 : ℤ) + k + (len.toNat - k : ℕ) = 2 + len.toNat := by omega
    have hpos : 0 < len.toNat := by omega
    have hpad' : padLen len.toNat ≤ max 1 (s.ready (s.pos + (len.toNat - k))) := by omega
    have hcall := mpaRecvBody_last ⟨len, 2 + k⟩ (len.toNat - k) hf (by simp only; omega) hns.2 hpos
      (by omega) hlen hpad' (hr _)
    simp only [hsum] at hcall
    simp only [hcall, readCalls]
    refine ⟨?_, ⟨[s.pending.take (len.toNat - k)], rfl, by simp⟩, _, rfl, rfl, rfl⟩
    intro o ho
    rw [List.mem_singleton.mp ho]
    exact ⟨_, by positivity, rfl⟩
  | cons m ns ih =>
    intro n k s hf hr hk hns hlen
    obtain ⟨hn0, hn, hns⟩ := hns
    have hmax : 2 ^ 16 ≤ maxRwCount := by decide
    have hlt := len.toNat_lt
    have hcall := mpaRecvBody_part ⟨len, 2 + k⟩ (n := n) hf (by omega) (by omega)
      (by simp only; omega) (by simp only; omega)
    have hsub : len.toNat - k - n = len.toNat - (k + n) := by omega
    rw [hsub] at hns
    obtain ⟨hok, ⟨bss, hbss, hflat⟩, o, hlast, ho, hinb⟩ := ih m (k + n) (s.advance n) (hf.advance n)
      (by simpa using hr) (by omega) hns (by rw [advance_pending, List.length_drop]; omega)
    have hrest := readCalls_inside m (k + n) ns (s.advance n) len
    simp only [hcall, packet_advance, hrest]
    refine ⟨?_, ⟨s.pending.take n :: bss, ?_, ?_⟩, o, ?_, ho, ?_⟩
    · intro x hx
      rcases List.mem_cons.mp hx with rfl | hx
      · exact ⟨_, by positivity, rfl⟩
      · exact hok x hx
    · rw [List.map_cons, hbss, List.map_cons]
    · rw [List.flatten_cons, hflat, advance_pending, ← List.take_add]
      congr 1
      omega
    · rw [List.getLast?_cons_cons]
      exact hlast
    · rw [hinb, advance_advance]
      congr 1
      omega

/-- The calls for one packet, whatever its header struct held before. -/
theorem packet_read {l : List (List UInt8)} {ns : List ℕ} {rest : List UInt8} {fresh : MpaPacket}
    (hf : s.FailFree) (hr : ∀ p, 4 ≤ s.ready p) (h0 : 0 < l.flatten.length)
    (hl : l.flatten.length < 2 ^ 16) (hns : Exhausts l.flatten.length ns)
    (hfresh : fresh.bytesRcvd = 0) (hp : s.pending = fpdu l ++ rest) :
    PacketRead l s (readCalls ns s fresh) := by
  obtain ⟨n, ns, rfl⟩ := List.exists_cons_of_ne_nil (l := ns) (by rintro rfl; exact hns)
  have hlen : (ulpduLen l).toNat = l.flatten.length := by
    rw [ulpduLen_toNat, Nat.mod_eq_of_lt hl]
  have htotal : (fpdu l).length = 2 + (l.flatten.length + padLen l.flatten.length + 4) := by
    simp only [fpdu, List.length_append, length_bytes16, List.length_replicate, length_bytes32,
      hlen, padLen]
    omega
  have hpend := congrArg List.length hp
  rw [List.length_append, htotal] at hpend
  have hfield : ntohs (word16 (s.pending.take 2)) = ulpduLen l := by
    rw [hp, fpdu]
    simp only [List.append_assoc]
    rw [List.take_left' (length_bytes16 _), word16_bytes16, ntohs_htons]
  have hbody : (s.advance 2).pending.take l.flatten.length = l.flatten := by
    rw [advance_pending, hp, fpdu]
    simp only [List.append_assoc]
    rw [List.drop_left' (length_bytes16 _), List.take_left]
  have hcall := @mpaRecv_header s fresh n hf hfresh (by omega) (le_trans (by omega) (hr s.pos))
  rw [hfield] at hcall
  obtain ⟨hok, ⟨bss, hbss, hflat⟩, o, hlast, hinfo, hinb⟩ :=
    @readCalls_body (ulpduLen l) ns n 0 (s.advance 2) (hf.advance 2) (by simpa using hr)
      (by omega) (by rw [hlen]; exact hns) (by rw [hlen, advance_pending, List.length_drop]; omega)
  simp only [Nat.cast_zero, add_zero, hlen, Nat.sub_zero, ← hcall] at hok hbss hflat hlast hinfo hinb
  have hos : readCalls (n :: ns) s fresh =
      mpaRecv s fresh n :: readCalls ns (mpaRecv s fresh n).inb (mpaRecv s fresh n).info := rfl
  rw [← hos] at hok hbss hlast
  refine ⟨hok, ⟨bss, hbss, hflat.trans hbody⟩, ⟨o, hlast, ?_, ?_⟩, ?_⟩
  · rw [hinfo]
    exact hlen
  · rw [hinfo]
  · rw [readEnd, hlast, Option.map_some, Option.getD_some, hinb, advance_advance, htotal]

end

/-! ## A sequence of packets -/

theorem sendAll_sent {o : Outbound} (he : o.evs = []) (ls : List (List (List UInt8))) :
    (sendAll o ls).sent = o.sent ++ ls.flatMap fpdu := by
  induction ls generalizing o with
  | nil => simp [sendAll]
  | cons l ls ih =>
    have hsend := mpaSend_eq he l
    have hstep : sendAll o (l :: ls) = sendAll { o with sent := o.sent ++ fpdu l } ls := by
      rw [sendAll, List.foldl_cons, hsend]
      rfl
    have hrest := @ih { o with sent := o.sent ++ fpdu l } he
    rw [hstep, hrest, List.flatMap_cons, List.append_assoc]

theorem packetsRead_of_pending {fresh : MpaPacket} (hfresh : fresh.bytesRcvd = 0)
    {ls : List (List (List UInt8))} {nss : List (List ℕ)}
    (h : List.Forall₂ (fun l ns => 1 ≤ l.flatten.length ∧ l.flatten.length ≤ 65535 ∧
      Exhausts l.flatten.length ns) ls nss) :
    ∀ (s : Inbound) (rest : List UInt8), s.FailFree → (∀ p, 4 ≤ s.ready p) →
      s.pending = ls.flatMap fpdu ++ rest → PacketsRead fresh ls nss s := by
  induction h with
  | nil => intro s rest _ _ _; trivial
  | @cons l ns ls nss hl _ ih =>
    intro s rest hf hr hp
    obtain ⟨h0, hmax, hns⟩ := hl
    rw [List.flatMap_cons, List.append_assoc] at hp
    have hread : PacketRead l s (readCalls ns s fresh) :=
      packet_read hf hr h0 (by omega) hns hfresh hp
    refine ⟨hread, ?_⟩
    rw [hread.next]
    refine ih _ rest (hf.advance _) (by simpa using hr) ?_
    rw [advance_pending, hp, List.drop_left]

/-- For every sequence of scatter lists and every way of reading the packets:
    what `mpa_send` has put on the stream is read back packet by packet. -/
theorem framing_roundTrip {out : Outbound} {s : Inbound} {fresh : MpaPacket} {rest : List UInt8}
    {ls : List (List (List UInt8))} {nss : List (List ℕ)}
    (h : List.Forall₂ (fun l ns => 1 ≤ l.flatten.length ∧ l.flatten.length ≤ 65535 ∧
      Exhausts l.flatten.length ns) ls nss)
    (he : out.evs = []) (hf : s.FailFree) (hr : ∀ p, maxRwCount ≤ s.ready p)
    (hfresh : fresh.bytesRcvd = 0)
    (hp : (sendAll out ls).sent ++ rest = out.sent ++ s.pending) :
    PacketsRead fresh ls nss s := by
  have h4 : ∀ p, 4 ≤ s.ready p := fun p => le_trans (by decide) (hr p)
  refine packetsRead_of_pending hfresh h s rest hf h4 ?_
  rw [sendAll_sent he, List.append_assoc] at hp
  exact (List.append_cancel_left hp).symm

/-- Two packets, the first read in two calls and the second in one that asks
    for more than there is. -/
theorem framing_roundTrip_two_packets :
    let ls : List (List (List UInt8)) := [[[1, 2], [3]], [[4]]]
    let s : Inbound := { pending := (sendAll ⟨[], []⟩ ls).sent, eof := false }
    s.pending = [0, 3, 1, 2, 3, 0, 0, 0, 0, 0, 0, 1, 4, 0, 0, 0, 0, 0, 0, 0] ∧
      PacketsRead {} ls [[2, 1], [100]] s := by
  intro ls s
  refine ⟨by decide, ?_⟩
  have hpatterns : List.Forall₂ (fun l ns => 1 ≤ l.flatten.length ∧ l.flatten.length ≤ 65535 ∧
      Exhausts l.flatten.length ns) ls [[2, 1], [100]] :=
    .cons ⟨by decide, by decide, by decide, by decide, by decide, by decide⟩
      (.cons ⟨by decide, by decide, by decide, by decide⟩ .nil)
  exact @framing_roundTrip ⟨[], []⟩ s {} [] ls _ hpatterns rfl (fun _ => rfl) (fun _ => le_rfl) rfl
    (by simp [s])

end SoftUiWarp
