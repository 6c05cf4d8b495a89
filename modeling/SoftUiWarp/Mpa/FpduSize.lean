import SoftUiWarp.Mpa.RoundTrip

/-!
# The size of an FPDU

The length field of an FPDU counts the ULPDU bytes, and padding takes the FPDU to
a multiple of four bytes: behind `len` bytes of ULPDU stand
`(4 - (len + 2) % 4) % 4` bytes of it. `mpa_send` adds the lengths up modulo
`2 ^ 16` before it compares them with `EMSS`, and both `mpa_send` and `mpa_recv`
take the number `(len + 2) % 4` for the padding.

Results:
* `framesTruthfully_iff`: the scatter lists for which the length field counts
  the ULPDU bytes, or which are refused for being too long.
* `padLen_eq_padToFour_iff`: where the two numbers agree.
* `padsToFour_iff`: the FPDUs of `mpa_send` that end on a multiple of four.
* `readsExactly_iff`: the FPDUs of a peer that pads to four bytes which
  `mpa_recv` reads to their end and no further.
-/

namespace SoftUiWarp

open TcpStream ByteMem

/-! ## The length field -/

/-- `mpa_send` refuses a scatter list that is longer than `EMSS`, or it writes a
    length field that counts the ULPDU bytes behind it. -/
def FramesTruthfully (l : List (List UInt8)) : Prop :=
  (emss < l.flatten.length ∧ ∀ o, (mpaSend o l).1 < 0 ∧ (mpaSend o l).2.sent = o.sent) ∨
    ∃ (len : UInt16) (trailer : List UInt8), len.toNat = l.flatten.length ∧
      ∀ o, mpaSend o l = o.sendmsg (bytes16 (htons len) ++ l.flatten ++ trailer)

theorem framesTruthfully_of_le {l : List (List UInt8)} (h : l.flatten.length ≤ emss) :
    FramesTruthfully l := by
  right
  refine ⟨ulpduLen l, List.replicate (padLen (ulpduLen l).toNat) 0 ++ bytes32 0, ?_, ?_⟩
  · rw [ulpduLen_toNat]
    simp only [emss] at h
    omega
  · intro o
    rw [mpaSend_sendmsg, fpdu, padLen, List.append_assoc (_ ++ _)]

/-- The sum is taken modulo `2 ^ 16` and then compared with `2 ^ 16 - 1`, so
    nothing is refused, and the length field falls short. -/
theorem not_framesTruthfully {l : List (List UInt8)} (h : emss < l.flatten.length) :
    ¬FramesTruthfully l := by
  obtain ⟨o, ho⟩ : ∃ o : Outbound, o = ⟨[], []⟩ := ⟨_, rfl⟩
  have hsend := mpaSend_eq (o := o) (by rw [ho]) l
  rintro (⟨-, hrefused⟩ | ⟨len, trailer, hlen, hwrites⟩)
  · have hneg := (hrefused o).1
    rw [hsend] at hneg
    simp only at hneg
    omega
  · have hlt := len.toNat_lt
    simp only [emss] at h
    omega

/-- Exactly the scatter lists that fit into an FPDU are framed truthfully. -/
theorem framesTruthfully_iff (l : List (List UInt8)) :
    FramesTruthfully l ↔ l.flatten.length ≤ emss :=
  ⟨fun h => not_lt.mp fun hlt => not_framesTruthfully hlt h, framesTruthfully_of_le⟩

/-- One entry of `2 ^ 16` bytes goes out with the length field 0. -/
theorem framesTruthfully_wraps :
    ¬FramesTruthfully [List.replicate 65536 0] ∧
      (mpaSend ⟨[], []⟩ [List.replicate 65536 0]).2.sent.take 2 = [0, 0] := by
  have hlen : [List.replicate 65536 (0 : UInt8)].flatten.length = 65536 := by
    rw [List.flatten_singleton, List.length_replicate]
  refine ⟨not_framesTruthfully (by rw [hlen]; decide), ?_⟩
  have hfield : ulpduLen [List.replicate 65536 0] = 0 := by
    rw [← UInt16.toNat_inj, ulpduLen_toNat, hlen]
    rfl
  rw [mpaSend_eq rfl, fpdu, hfield]
  rfl

/-! ## Padding -/

/-- The padding that takes an FPDU of `len` ULPDU bytes to a multiple of four. -/
def padToFour (len : ℕ) : ℕ := (4 - (len + 2) % 4) % 4

theorem four_dvd_padToFour (len : ℕ) : 4 ∣ 2 + len + padToFour len + 4 := by
  unfold padToFour
  omega

theorem padLen_eq_padToFour_iff (len : ℕ) : padLen len = padToFour len ↔ Even len := by
  rw [Nat.even_iff, padLen, padToFour]
  omega

/-! ## What `mpa_send` emits -/

/-- `mpa_send` writes length, ULPDU, at most three bytes of padding and the CRC,
    together a multiple of four bytes. -/
def PadsToFour (l : List (List UInt8)) : Prop :=
  ∃ (len : UInt16) (pad crc : List UInt8), pad.length ≤ 3 ∧ crc.length = 4 ∧
    4 ∣ (bytes16 (htons len) ++ l.flatten ++ pad ++ crc).length ∧
    ∀ o, mpaSend o l = o.sendmsg (bytes16 (htons len) ++ l.flatten ++ pad ++ crc)

theorem length_fpdu {l : List (List UInt8)} (h : l.flatten.length < 2 ^ 16) :
    (fpdu l).length = 2 + l.flatten.length + padLen l.flatten.length + 4 := by
  have hlen : (ulpduLen l).toNat = l.flatten.length := by rw [ulpduLen_toNat, Nat.mod_eq_of_lt h]
  simp only [fpdu, List.length_append, length_bytes16, List.length_replicate, length_bytes32, hlen,
    padLen]

theorem padsToFour_iff {l : List (List UInt8)} (h : l.flatten.length ≤ 65535) :
    PadsToFour l ↔ Even l.flatten.length := by
  have hlen := length_fpdu (l := l) (by omega)
  constructor
  · rintro ⟨len, pad, crc, -, -, hdvd, hwrites⟩
    have hsame : fpdu l = bytes16 (htons len) ++ l.flatten ++ pad ++ crc := by
      have hsend := hwrites ⟨[], []⟩
      rw [mpaSend_sendmsg] at hsend
      simpa [Outbound.sendmsg] using congrArg (fun x => x.2.sent) hsend
    rw [← hsame, hlen] at hdvd
    rw [Nat.even_iff]
    simp only [padLen] at hdvd
    omega
  · intro heven
    have hpad := padLen_lt (ulpduLen l).toNat
    refine ⟨ulpduLen l, List.replicate (padLen (ulpduLen l).toNat) 0, bytes32 0, ?_,
      length_bytes32 _, ?_, fun o => mpaSend_sendmsg o l⟩
    · rw [List.length_replicate]
      omega
    · change 4 ∣ (fpdu l).length
      rw [hlen, (padLen_eq_padToFour_iff _).mpr heven]
      exact four_dvd_padToFour _

/-! ## What `mpa_recv` takes -/

/-- An FPDU of a peer that pads to four bytes. -/
structure PaddedFpdu where
  ulpdu : List UInt8
  padding : List UInt8
  crc : List UInt8
  ulpdu_pos : 0 < ulpdu.length
  ulpdu_lt : ulpdu.length < 2 ^ 16
  length_padding : padding.length = padToFour ulpdu.length
  length_crc : crc.length = 4

namespace PaddedFpdu

def len (f : PaddedFpdu) : ℕ := f.ulpdu.length

def wire (f : PaddedFpdu) : List UInt8 :=
  bytes16 (htons (UInt16.ofNat f.len)) ++ (f.ulpdu ++ (f.padding ++ f.crc))

theorem length_wire (f : PaddedFpdu) : f.wire.length = 2 + f.len + padToFour f.len + 4 := by
  have h1 := f.length_padding
  have h2 := f.length_crc
  simp only [wire, len, List.length_append, length_bytes16]
  omega

theorem toNat_len (f : PaddedFpdu) : (UInt16.ofNat f.len).toNat = f.len := by
  have := f.ulpdu_lt
  rw [UInt16.toNat_ofNat', len]
  omega

theorem segField_wire (f : PaddedFpdu) (rest : List UInt8) :
    segField (f.wire ++ rest) = UInt16.ofNat f.len := by
  rw [segField, wire, List.append_assoc, List.take_left' (length_bytes16 _), word16_bytes16,
    ntohs_htons]

theorem segLen_wire (f : PaddedFpdu) (rest : List UInt8) : segLen (f.wire ++ rest) = f.len := by
  rw [segLen, segField_wire, toNat_len]

end PaddedFpdu

/-- Numbers of bytes with which the last call, and no call before it, reaches the
    end of a ULPDU of which `rem` bytes remain. -/
def Reaches : (rem : ℕ) → List ℕ → Prop
  | _, [] => False
  | rem, [n] => rem ≤ n
  | rem, n :: m :: ns => n < rem ∧ Reaches (rem - n) (m :: ns)

instance decidableReaches : (rem : ℕ) → (ns : List ℕ) → Decidable (Reaches rem ns)
  | _, [] => inferInstanceAs (Decidable False)
  | rem, [n] => inferInstanceAs (Decidable (rem ≤ n))
  | rem, n :: m :: ns =>
    have := decidableReaches (rem - n) (m :: ns)
    inferInstanceAs (Decidable (n < rem ∧ Reaches (rem - n) (m :: ns)))

/-- The calls `os` succeed and leave the stream right behind the FPDU. -/
structure ReadExactly (f : PaddedFpdu) (s : Inbound) (os : List MpaOut) : Prop where
  ok : ∀ o ∈ os, o.ret.Ok
  next : readEnd s os = s.advance f.wire.length

/-- The FPDUs are read one after the other, each to its end and no further. -/
def ReadsExactly (fresh : MpaPacket) : List PaddedFpdu → List (List ℕ) → Inbound → Prop
  | f :: fs, ns :: nss, s => ReadExactly f s (readCalls ns s fresh) ∧
      ReadsExactly fresh fs nss (readEnd s (readCalls ns s fresh))
  | _, _, _ => True

/-- The FPDU that starts at stream position `p` has an even number of ULPDU
    bytes, and its MPA header, padding and CRC are each found ready. -/
structure ReadableAt (ready : ℕ → ℕ) (p : ℕ) (f : PaddedFpdu) : Prop where
  even : Even f.len
  header : 2 ≤ ready p
  trailer : TrailerReady ready p f.len

/-- All FPDUs of a stream that is at position `p`. -/
def Readable (ready : ℕ → ℕ) : (p : ℕ) → List PaddedFpdu → Prop
  | _, [] => True
  | p, f :: fs => ReadableAt ready p f ∧ Readable ready (p + f.wire.length) fs

section

variable {s : Inbound} {len : UInt16}

theorem readEnd_cons_cons (s t : Inbound) (o o' : MpaOut) (os : List MpaOut) :
    readEnd s (o :: o' :: os) = readEnd t (o' :: os) := by
  rw [readEnd, readEnd, List.getLast?_cons_cons, List.getLast?_cons, Option.map_some,
    Option.getD_some, Option.getD_some]

/-- A call that asks for more than the rest of the ULPDU reads the rest. -/
theorem mpaRecvBody_cap {k n : ℕ} (h : len.toNat - k ≤ n) (hk : k ≤ len.toNat) :
    mpaRecvBody s ⟨len, 2 + k⟩ n = mpaRecvBody s ⟨len, 2 + k⟩ (len.toNat - k : ℕ) := by
  have h1 : (len.toNat : ℤ) - (2 + k - 2) ≤ n := by omega
  have h2 : (len.toNat : ℤ) - (2 + k - 2) ≤ (len.toNat - k : ℕ) := by omega
  simp only [mpaRecvBody, mpaHdrSize, if_pos h1, if_pos h2]

theorem bodyEnd_rest {len k : ℕ} (hk : k ≤ len) :
    bodyEnd len k (len - k) = len - k + padLen len + 4 := by
  rw [bodyEnd, if_neg (by omega)]

/-- What the rest of a ULPDU needs, `n` bytes further on. -/
theorem bodyReady_advance {len k n : ℕ} (hk : k + n ≤ len) :
    n ≤ s.pending.length ∧ BodyReady (s.advance n) len (k + n) (len - (k + n)) ↔
      BodyReady s len k (len - k) := by
  have hpos : s.pos + n + (len - (k + n)) = s.pos + (len - k) := by omega
  have hend : bodyEnd len k (len - k) = len - k + padLen len + 4 := bodyEnd_rest (by omega)
  have hend' := bodyEnd_rest hk
  constructor
  · rintro ⟨hn, hav, htr⟩
    rw [hend', advance_pending, List.length_drop] at hav
    refine ⟨by rw [hend]; omega, fun _ => ?_⟩
    have := htr (by omega)
    rwa [advance_ready, advance_pos, hpos] at this
  · rintro ⟨hav, htr⟩
    rw [hend] at hav
    refine ⟨by omega, by rw [hend', advance_pending, List.length_drop]; omega, fun _ => ?_⟩
    rw [advance_ready, advance_pos, hpos]
    exact htr (by omega)

/-- The calls for the bytes of a ULPDU from the `k`-th on: when they succeed, and
    where they leave the stream. -/
theorem readCalls_body_iff : ∀ (ns : List ℕ) (n k : ℕ) (s : Inbound), s.FailFree →
    k < len.toNat → Reaches (len.toNat - k) (n :: ns) →
    let o := mpaRecvBody s ⟨len, 2 + k⟩ n
    let os := o :: readCalls ns o.inb o.info
    ((∀ o ∈ os, o.ret.Ok) ↔ BodyReady s len.toNat k (len.toNat - k)) ∧
      ((∀ o ∈ os, o.ret.Ok) →
        readEnd s os = s.advance (len.toNat - k + padLen len.toNat + 4)) := by
  have hmax : 2 ^ 16 ≤ maxRwCount := by decide
  have hlt := len.toNat_lt
  intro ns
  induction ns with
  | nil =>
    intro n k s hf hk hns
    have hcap := mpaRecvBody_cap (s := s) hns hk.le
    simp only [readCalls, List.forall_mem_singleton, hcap]
    by_cases hr : BodyReady s len.toNat k (len.toNat - k)
    · have hcall := mpaRecvBody_of_ready hf (by omega) hk.le (by omega) hr
      rw [hcall]
      refine ⟨⟨fun _ => hr, fun _ => ⟨_, by positivity, rfl⟩⟩, fun _ => ?_⟩
      rw [← bodyEnd_rest hk.le]
      rfl
    · have hcall := mpaRecvBody_of_not_ready hf (by omega) hk.le (by omega) hr
      exact ⟨⟨fun h => absurd h hcall.1, fun h => absurd h hr⟩, fun h => absurd h hcall.1⟩
  | cons m ns ih =>
    intro n k s hf hk hns
    obtain ⟨hn, hns⟩ := hns
    have hstep := bodyReady_advance (s := s) (show k + n ≤ len.toNat by omega)
    have hend : bodyEnd len.toNat k n = n := by rw [bodyEnd, if_pos (by omega)]
    by_cases hr : n ≤ s.pending.length
    · have hready : BodyReady s len.toNat k n := ⟨by omega, fun _ => by omega⟩
      have hcall := mpaRecvBody_of_ready hf (by omega) hk.le (by omega) hready
      rw [bodyOut, hend] at hcall
      rw [show len.toNat - k - n = len.toNat - (k + n) by omega] at hns
      obtain ⟨hiff, hnext⟩ := ih m (k + n) (s.advance n) (hf.advance n) (by omega) hns
      have hrest := readCalls_inside m (k + n) ns (s.advance n) len
      have hok : (Ret.val ((2 : ℤ) + k + n)).Ok := ⟨_, by positivity, rfl⟩
      simp only [hcall, packet_advance, hrest]
      rw [List.forall_mem_cons, hiff]
      refine ⟨⟨fun h => hstep.mp ⟨hr, h.2⟩, fun h => ⟨hok, (hstep.mpr h).2⟩⟩, fun h => ?_⟩
      rw [readEnd_cons_cons s (s.advance n), hnext (hiff.mpr h.2), advance_advance]
      congr 1
      omega
    · have hready : ¬BodyReady s len.toNat k n := fun h => hr (by
        have := h.avail
        omega)
      have hcall := mpaRecvBody_of_not_ready hf (by omega) hk.le (by omega) hready
      have hfails : ¬∀ o ∈ mpaRecvBody s ⟨len, 2 + k⟩ n :: readCalls (m :: ns)
          (mpaRecvBody s ⟨len, 2 + k⟩ n).inb (mpaRecvBody s ⟨len, 2 + k⟩ n).info, o.ret.Ok :=
        fun h => hcall.1 (h _ (List.mem_cons_self ..))
      exact ⟨⟨fun h => absurd h hfails, fun h => absurd (hstep.mpr h).1 hr⟩,
        fun h => absurd h hfails⟩

/-- Exactly the FPDUs of even length are read to their end and no further, if
    TCP hands over the header and the trailer whole. -/
theorem readExactly_iff {f : PaddedFpdu} {ns : List ℕ} {rest : List UInt8} {fresh : MpaPacket}
    (hf : s.FailFree) (hns : Reaches f.len ns) (hfresh : fresh.bytesRcvd = 0)
    (hp : s.pending = f.wire ++ rest) :
    ReadExactly f s (readCalls ns s fresh) ↔ ReadableAt s.ready s.pos f := by
  obtain ⟨n, ns, rfl⟩ := List.exists_cons_of_ne_nil (l := ns) (by rintro rfl; exact hns)
  have hwire := f.length_wire
  have hlen := f.toNat_len
  have hpos : 0 < f.len := f.ulpdu_pos
  have hpend := congrArg List.length hp
  rw [List.length_append, hwire] at hpend
  by_cases hh : 2 ≤ s.ready s.pos
  · have hcall := @mpaRecv_header s fresh n hf hfresh (by omega) hh
    have hfield := f.segField_wire rest
    rw [← hp, segField] at hfield
    rw [hfield] at hcall
    obtain ⟨hok, hnext⟩ := @readCalls_body_iff (UInt16.ofNat f.len) ns n 0 (s.advance 2)
      (hf.advance 2) (by omega) (by rw [hlen]; exact hns)
    simp only [Nat.cast_zero, add_zero, hlen, Nat.sub_zero, ← hcall] at hok hnext
    have hos : mpaRecv s fresh n :: readCalls ns (mpaRecv s fresh n).inb (mpaRecv s fresh n).info =
      readCalls (n :: ns) s fresh := rfl
    have hend : readEnd (s.advance 2) (readCalls (n :: ns) s fresh) =
        readEnd s (readCalls (n :: ns) s fresh) := by
      rw [← hos, readEnd, readEnd, List.getLast?_cons, Option.map_some, Option.getD_some,
        Option.getD_some]
    rw [hos] at hok hnext
    rw [hend, advance_advance] at hnext
    constructor
    · intro h
      have hready := (hok.mp h.ok).trailer (by omega)
      have hsame := congrArg Inbound.pos ((hnext h.ok).symm.trans h.next)
      rw [advance_pos, advance_pos, hwire] at hsame
      exact ⟨(padLen_eq_padToFour_iff _).mp (by omega), hh, hready.1, hready.2⟩
    · intro h
      have hpad := (padLen_eq_padToFour_iff _).mpr h.even
      have hready : BodyReady (s.advance 2) f.len 0 f.len :=
        ⟨by simp [bodyEnd]; omega, fun _ => ⟨h.trailer.padding, h.trailer.crc⟩⟩
      refine ⟨hok.mpr hready, ?_⟩
      rw [hnext (hok.mpr hready), hwire, hpad]
      congr 1
      omega
  · refine ⟨fun h => absurd ?_ hh, fun h => absurd h.header hh⟩
    by_contra hno
    exact (mpaRecv_header_short n hf hfresh (.inr (by omega))).1 (h.ok _ (List.mem_cons_self ..))

/-- The stream of a peer that pads to four bytes, read packet by packet. -/
theorem readsExactly_iff {fresh : MpaPacket} (hfresh : fresh.bytesRcvd = 0)
    {fs : List PaddedFpdu} {nss : List (List ℕ)}
    (h : List.Forall₂ (fun f ns => Reaches f.len ns) fs nss) :
    ∀ (s : Inbound) (rest : List UInt8), s.FailFree →
      s.pending = fs.flatMap PaddedFpdu.wire ++ rest →
      (ReadsExactly fresh fs nss s ↔ Readable s.ready s.pos fs) := by
  induction h with
  | nil => intro s rest _ _; exact Iff.rfl
  | @cons f ns fs nss hns _ ih =>
    intro s rest hf hp
    rw [List.flatMap_cons, List.append_assoc] at hp
    have hone := readExactly_iff hf hns hfresh hp
    have hrest := ih (s.advance f.wire.length) rest (hf.advance _)
      (by rw [advance_pending, hp, List.drop_left])
    rw [ReadsExactly, Readable, hone]
    refine and_congr_right fun hread => ?_
    rw [(hone.mpr hread).next]
    exact hrest

end

/-- Both sides keep to four bytes exactly on ULPDUs of even length. -/
theorem padding_iff (l : List (List UInt8)) (hmax : l.flatten.length ≤ 65535)
    (fresh : MpaPacket) (hfresh : fresh.bytesRcvd = 0) (s : Inbound) (hf : s.FailFree)
    (fs : List PaddedFpdu) (rest : List UInt8)
    (hp : s.pending = fs.flatMap PaddedFpdu.wire ++ rest) (nss : List (List ℕ))
    (h : List.Forall₂ (fun f ns => Reaches f.len ns) fs nss) :
    (PadsToFour l ↔ Even l.flatten.length) ∧
      (ReadsExactly fresh fs nss s ↔ Readable s.ready s.pos fs) :=
  ⟨padsToFour_iff hmax, readsExactly_iff hfresh h s rest hf hp⟩

/-- A FPDU with one ULPDU byte and one byte of padding. -/
def paddedOne : PaddedFpdu :=
  ⟨[7], [0], [0, 0, 0, 0], by decide, by decide, by decide, by decide⟩

/-- A FPDU with two ULPDU bytes and no padding. -/
def paddedTwo : PaddedFpdu :=
  ⟨[7, 8], [], [0, 0, 0, 0], by decide, by decide, by decide, by decide⟩

theorem padding_two_bytes :
    PadsToFour [[7], [8]] ∧
      ReadsExactly {} [paddedTwo, paddedTwo] [[1, 1], [100]]
        { pending := paddedTwo.wire ++ paddedTwo.wire, eof := false } := by
  have hpatterns : List.Forall₂ (fun f ns => Reaches (PaddedFpdu.len f) ns)
      [paddedTwo, paddedTwo] [[1, 1], [100]] :=
    .cons (by decide) (.cons (by decide) .nil)
  have hready : ∀ p, ReadableAt (fun _ => maxRwCount) p paddedTwo := fun p =>
    ⟨by decide, by decide, by decide, by decide⟩
  obtain ⟨hsent, hread⟩ := padding_iff [[7], [8]] (by decide) {} rfl
    { pending := paddedTwo.wire ++ paddedTwo.wire, eof := false } (fun _ => rfl)
    [paddedTwo, paddedTwo] [] (by simp) _ hpatterns
  exact ⟨hsent.mpr (by decide), hread.mpr ⟨hready _, hready _, trivial⟩⟩

/-- One ULPDU byte: `mpa_send` emits ten bytes, and the FPDU of eight bytes that
    a peer sends instead is not read to its end and no further. -/
theorem padding_one_byte :
    (¬PadsToFour [[7]] ∧ (fpdu [[7]]).length = 10) ∧
      paddedOne.wire.length = 8 ∧
      ¬ReadsExactly {} [paddedOne, paddedTwo] [[1], [2]]
        { pending := paddedOne.wire ++ paddedTwo.wire, eof := false } := by
  have hpatterns : List.Forall₂ (fun f ns => Reaches (PaddedFpdu.len f) ns)
      [paddedOne, paddedTwo] [[1], [2]] :=
    .cons (by decide) (.cons (by decide) .nil)
  refine ⟨⟨?_, by decide⟩, by decide, ?_⟩
  · rw [padsToFour_iff (by decide)]
    decide
  · rw [readsExactly_iff rfl hpatterns _ [] (fun _ => rfl) (by simp)]
    intro h
    exact absurd h.1.even (by decide)

end SoftUiWarp
