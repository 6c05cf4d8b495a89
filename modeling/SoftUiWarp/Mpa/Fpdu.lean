import SoftUiWarp.Mpa.Recv

/-!
# FPDUs on the stream

An `Fpdu` is one framed packet: a ULPDU of 1 to 65535 bytes and the trailer
(padding and CRC, of any content) the framing gives it.

Results:
* `fpdu_eq_wire`: what `mpa_send` emits is such a packet.
-/

namespace SoftUiWarp

open TcpStream ByteMem

structure Fpdu where
  ulpdu : List UInt8
  trailer : List UInt8
  ulpdu_pos : 0 < ulpdu.length
  ulpdu_lt : ulpdu.length < 2 ^ 16
  trailer_length : trailer.length = padLen ulpdu.length + 4

namespace Fpdu

/-- The number of ULPDU bytes. -/
def len (f : Fpdu) : ℕ := f.ulpdu.length

/-- The bytes of the packet on the stream. -/
def wire (f : Fpdu) : List UInt8 :=
  bytes16 (htons (UInt16.ofNat f.len)) ++ (f.ulpdu ++ f.trailer)

theorem length_wire (f : Fpdu) : f.wire.length = 2 + f.len + padLen f.len + 4 := by
  have := f.trailer_length
  simp only [wire, len, List.length_append, length_bytes16]
  omega

theorem len_pos (f : Fpdu) : 0 < f.len := f.ulpdu_pos

theorem len_lt (f : Fpdu) : f.len < 2 ^ 16 := f.ulpdu_lt

theorem toNat_len (f : Fpdu) : (UInt16.ofNat f.len).toNat = f.len := by
  have := f.len_lt
  rw [UInt16.toNat_ofNat']
  omega

theorem len_le_maxRwCount (f : Fpdu) : f.len ≤ maxRwCount := by
  have h1 := f.len_lt
  have h2 : 2 ^ 16 ≤ maxRwCount := by decide
  omega

end Fpdu

/-- Padding and CRC of a packet at stream position `p` with `len` ULPDU bytes,
    each read with a single call, are found ready. -/
structure TrailerReady (ready : ℕ → ℕ) (p len : ℕ) : Prop where
  padding : padLen len ≤ max 1 (ready (p + 2 + len))
  crc : 4 ≤ ready (p + 2 + len + padLen len)

theorem trailerReady_of_le {ready : ℕ → ℕ} (h : ∀ p, 4 ≤ ready p) (p len : ℕ) :
    TrailerReady ready p len := by
  have hp := padLen_lt len
  have h1 := h (p + 2 + len)
  exact ⟨by omega, h _⟩

/-! ## The packets `mpa_send` emits -/

theorem ulpduLen_foldl (l : List (List UInt8)) (a : UInt16) :
    l.foldl (fun len e => len + UInt16.ofNat e.length) a =
      a + UInt16.ofNat l.flatten.length := by
  induction l generalizing a with
  | nil => simp
  | cons e l ih =>
    rw [List.foldl_cons, ih, List.flatten_cons, List.length_append, UInt16.ofNat_add, add_assoc]

/-- The length field is the number of ULPDU bytes modulo `2 ^ 16`. -/
theorem ulpduLen_toNat (l : List (List UInt8)) :
    (ulpduLen l).toNat = l.flatten.length % 2 ^ 16 := by
  rw [ulpduLen, ulpduLen_foldl]
  simp

theorem ulpduLen_le_emss (l : List (List UInt8)) : ¬(ulpduLen l).toNat > emss := by
  have := (ulpduLen l).toNat_lt
  simp only [emss]
  omega

/-- Nothing is refused. -/
theorem mpaSend_sendmsg (o : Outbound) (l : List (List UInt8)) :
    mpaSend o l = o.sendmsg (fpdu l) := if_neg (ulpduLen_le_emss l)

/-- With every byte accepted `mpa_send` emits one FPDU. -/
theorem mpaSend_eq {o : Outbound} (he : o.evs = []) (l : List (List UInt8)) :
    mpaSend o l = (((fpdu l).length : ℤ), { o with sent := o.sent ++ fpdu l }) := by
  rw [mpaSend_sendmsg, Outbound.sendmsg, he]

/-- The packet with the given ULPDU, zero padding and zero CRC. -/
def Fpdu.ofUlpdu (u : List UInt8) (h0 : 0 < u.length) (h : u.length < 2 ^ 16) : Fpdu where
  ulpdu := u
  trailer := List.replicate (padLen u.length) 0 ++ bytes32 0
  ulpdu_pos := h0
  ulpdu_lt := h
  trailer_length := by simp

theorem fpdu_eq_wire {l : List (List UInt8)} (h0 : 0 < l.flatten.length)
    (h : l.flatten.length < 2 ^ 16) : fpdu l = (Fpdu.ofUlpdu l.flatten h0 h).wire := by
  have hlen : (ulpduLen l).toNat = l.flatten.length := by rw [ulpduLen_toNat, Nat.mod_eq_of_lt h]
  have hof : UInt16.ofNat l.flatten.length = ulpduLen l := by rw [← hlen, UInt16.ofNat_toNat]
  simp only [fpdu, Fpdu.wire, Fpdu.len, Fpdu.ofUlpdu, hof, hlen, padLen, List.append_assoc]

end SoftUiWarp
