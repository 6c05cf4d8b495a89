import SoftUiWarp.Mpa.Recv

/-!
# The outcome of any `mpa_recv` call on a stream without `recv` failures

A call succeeds exactly when its bytes are in the stream and the reads made
with a single `recv` are not cut short; otherwise it fails, and the reader is
left strictly before the point a successful call would have reached. In both
cases the payload bytes found are stored.

Results:
* `mpaRecvBody_of_ready`, `mpaRecvBody_of_not_ready`: a call inside a packet.
* `mpaRecv_of_ready`, `mpaRecv_of_not_ready`: a call at the start of a packet.
* `mpaRecv_val`: a call whose bytes have all been delivered returns.
-/

namespace SoftUiWarp

open TcpStream ByteMem

section

variable {s : Inbound}

/-! ## Calls inside a packet -/

/-- How many stream bytes a call takes that asks for `n` more bytes of a ULPDU
    of `len` bytes of which `k` have been read. -/
def bodyEnd (len k n : ℕ) : ℕ := if k + n < len then n else len - k + padLen len + 4

/-- What such a call needs to succeed: the bytes are in the stream, and when
    it reads padding and CRC each of them arrives at once. -/
structure BodyReady (s : Inbound) (len k n : ℕ) : Prop where
  avail : bodyEnd len k n ≤ s.pending.length
  trailer : len ≤ k + n → padLen len ≤ max 1 (s.ready (s.pos + (len - k))) ∧
    4 ≤ s.ready (s.pos + (len - k) + padLen len)

theorem bodyReady_of_le {len k n : ℕ} (h : ∀ p, 4 ≤ s.ready p)
    (hlen : bodyEnd len k n ≤ s.pending.length) : BodyReady s len k n := by
  have hp := padLen_lt len
  have h1 := h (s.pos + (len - k))
  exact ⟨hlen, fun _ => ⟨by omega, h _⟩⟩

/-- What a call returns and stores when it succeeds. -/
def bodyOut (s : Inbound) (len : UInt16) (k n : ℕ) : MpaOut :=
  ⟨.val (2 + k + bodyEnd len.toNat k n), ⟨len, 2 + k + bodyEnd len.toNat k n⟩,
    s.advance (bodyEnd len.toNat k n), (s.pending.take (min n (len.toNat - k))).zipIdx⟩

theorem mpaRecvBody_of_ready {len : UInt16} {k n : ℕ} (hf : s.FailFree) (hpos : 0 < len.toNat)
    (hk : k ≤ len.toNat) (hn : n ≤ maxRwCount) (h : BodyReady s len.toNat k n) :
    mpaRecvBody s ⟨len, 2 + k⟩ n = bodyOut s len k n := by
  have hav := h.avail
  by_cases hlt : k + n < len.toNat
  · rw [bodyEnd, if_pos hlt] at hav
    rw [mpaRecvBody_part ⟨len, 2 + k⟩ hf hn hav hpos (by simp only; omega), bodyOut, bodyEnd,
      if_pos hlt, Nat.min_eq_left (by omega)]
  · obtain ⟨hpad, hcrc⟩ := h.trailer (by omega)
    rw [bodyEnd, if_neg hlt] at hav
    rw [mpaRecvBody_last ⟨len, 2 + k⟩ (len.toNat - k) hf (by simp only; omega) (by omega) hpos
      (by omega) hav hpad hcrc, bodyOut, bodyEnd, if_neg hlt, Nat.min_eq_right (by omega)]
    simp only [MpaOut.mk.injEq, MpaPacket.mk.injEq, Ret.val.injEq, true_and, and_true]
    push_cast
    exact ⟨by ring, by ring⟩

/-- A call that does not find what it needs fails before the end of what it
    would have read; the bytes of the ULPDU it found are stored. -/
theorem mpaRecvBody_of_not_ready {len : UInt16} {k n : ℕ} (hf : s.FailFree)
    (hpos : 0 < len.toNat) (hk : k ≤ len.toNat) (hn : n ≤ maxRwCount)
    (h : ¬BodyReady s len.toNat k n) :
    ¬(mpaRecvBody s ⟨len, 2 + k⟩ n).ret.Ok ∧
      (mpaRecvBody s ⟨len, 2 + k⟩ n).writes = (s.pending.take (min n (len.toNat - k))).zipIdx ∧
      ∃ j < bodyEnd len.toNat k n, (mpaRecvBody s ⟨len, 2 + k⟩ n).inb = s.advance j := by
  have hm : ((min n (len.toNat - k) : ℕ) : ℤ) =
      min ((len.toNat : ℤ) - ((2 : ℤ) + k - 2)) n := by omega
  have hmax : min n (len.toNat - k) ≤ maxRwCount := by omega
  have hend : min n (len.toNat - k) ≤ bodyEnd len.toNat k n := by
    rw [bodyEnd]
    split_ifs <;> omega
  by_cases hlen : s.pending.length < min n (len.toNat - k)
  · obtain ⟨h1, h2, h3⟩ := mpaRecvBody_short ⟨len, 2 + k⟩ hf hm hmax hpos hlen
    rw [← List.take_of_length_le hlen.le] at h2
    exact ⟨h1, h2, _, by omega, h3⟩
  · by_cases hlt : k + n < len.toNat
    · refine absurd ⟨?_, fun hle => absurd hle (by omega)⟩ h
      rw [bodyEnd, if_pos hlt]
      omega
    · -- the ULPDU is complete, so the trailer is not
      have hmin : min n (len.toNat - k) = len.toNat - k := by omega
      rw [mpaRecvBody_rest ⟨len, 2 + k⟩ (len.toNat - k) hf (by simp only; omega) (by omega) hpos
        (by omega) (by omega), hmin]
      have hend' : bodyEnd len.toNat k n = len.toNat - k + (padLen len.toNat + 4) := by
        rw [bodyEnd, if_neg hlt]
        omega
      obtain ⟨h1, h2, j, hj, h3⟩ := readTrailers_short (s := s.advance (len.toNat - k))
        ⟨len, 2 + k + (len.toNat - k : ℕ)⟩ (s.pending.take (len.toNat - k)).zipIdx (hf.advance _)
        (by
          rintro ⟨hav, hpad, hcrc⟩
          refine h ⟨?_, fun _ => ⟨hpad, hcrc⟩⟩
          rw [advance_pending, List.length_drop] at hav
          simp only at hav
          omega)
      refine ⟨h1, h2, len.toNat - k + j, ?_, ?_⟩
      · rw [hend']
        simp only at hj
        omega
      · rw [h3, advance_advance]

/-- The ULPDU bytes a call finds are stored whether it succeeds or not. -/
theorem mpaRecvBody_writes {len : UInt16} {k n : ℕ} (hf : s.FailFree) (hpos : 0 < len.toNat)
    (hk : k ≤ len.toNat) (hn : n ≤ maxRwCount) :
    (mpaRecvBody s ⟨len, 2 + k⟩ n).writes = (s.pending.take (min n (len.toNat - k))).zipIdx := by
  by_cases h : BodyReady s len.toNat k n
  · rw [mpaRecvBody_of_ready hf hpos hk hn h]
    rfl
  · exact (mpaRecvBody_of_not_ready hf hpos hk hn h).2.1

/-! ## Calls at the start of a packet -/

/-- The length field of the packet that starts at the front of `t`. -/
def segField (t : List UInt8) : UInt16 := ntohs (word16 (t.take 2))

/-- The number of ULPDU bytes of that packet. -/
def segLen (t : List UInt8) : ℕ := (segField t).toNat

theorem segLen_le_maxRwCount (t : List UInt8) : segLen t ≤ maxRwCount := by
  have h1 := (segField t).toNat_lt
  have h2 : 2 ^ 16 ≤ maxRwCount := by decide
  simp only [segLen]
  omega

/-- What a call at the start of a packet needs to succeed. -/
structure HdrReady (s : Inbound) (n : ℕ) : Prop where
  avail : 2 ≤ s.pending.length
  header : 2 ≤ s.ready s.pos
  pos : 0 < segLen s.pending
  body : BodyReady (s.advance 2) (segLen s.pending) 0 n

variable {info : MpaPacket} {n : ℕ}

theorem mpaRecv_of_ready (hf : s.FailFree) (h0 : info.bytesRcvd = 0) (hn : n ≤ maxRwCount)
    (h : HdrReady s n) :
    mpaRecv s info n = bodyOut (s.advance 2) (segField s.pending) 0 n := by
  have hbody := mpaRecvBody_of_ready (hf.advance 2) h.pos (Nat.zero_le _) hn h.body
  rw [Nat.cast_zero, add_zero] at hbody
  rw [mpaRecv_header hf h0 h.avail h.header, ← hbody, segField]

theorem mpaRecv_of_not_ready (hf : s.FailFree) (h0 : info.bytesRcvd = 0) (hn : n ≤ maxRwCount)
    (h : ¬HdrReady s n) :
    ¬(mpaRecv s info n).ret.Ok ∧
      ∃ j < 2 + bodyEnd (segLen s.pending) 0 n, (mpaRecv s info n).inb = s.advance j := by
  by_cases hh : s.pending.length < 2 ∨ s.ready s.pos < 2
  · obtain ⟨h1, -, j, hj, h2⟩ := mpaRecv_header_short n hf h0 hh
    exact ⟨h1, j, by omega, h2⟩
  · rw [mpaRecv_header hf h0 (by omega) (by omega)]
    change ¬(mpaRecvBody (s.advance 2) ⟨segField s.pending, 2⟩ n).ret.Ok ∧
      ∃ j < 2 + bodyEnd (segLen s.pending) 0 n,
        (mpaRecvBody (s.advance 2) ⟨segField s.pending, 2⟩ n).inb = s.advance j
    by_cases hpos : 0 < segLen s.pending
    · have hbody : ¬BodyReady (s.advance 2) (segLen s.pending) 0 n :=
        fun hb => h ⟨by omega, by omega, hpos, hb⟩
      obtain ⟨h1, -, j, hj, h2⟩ :=
        mpaRecvBody_of_not_ready (hf.advance 2) hpos (Nat.zero_le _) hn hbody
      exact ⟨h1, 2 + j, by simp only [segLen]; omega, by
        rw [← advance_advance]
        exact h2⟩
    · -- an empty ULPDU is an error
      have hz : ((segField s.pending).toNat : ℤ) ≤ 0 := by
        simp only [segLen] at hpos
        omega
      have hz' : segLen s.pending = 0 := by omega
      rw [mpaRecvBody, if_pos hz]
      refine ⟨?_, 2, ?_, rfl⟩
      · rintro ⟨r, hr, he⟩
        have := Ret.val.inj he
        omega
      · rw [bodyEnd, if_neg (by omega)]
        omega

end

/-! ## Calls that find all their bytes on the stream -/

section

variable {s : Inbound}

theorem readTrailers_val (info : MpaPacket) (ws : List (UInt8 × ℕ)) (hf : s.FailFree)
    (hlen : padLen info.ulpduLen.toNat + 4 ≤ s.pending.length) :
    ∃ r, (readTrailers s info ws).ret = .val r := by
  have hlt := padLen_lt info.ulpduLen.toNat
  have hne : s.pending ≠ [] := by
    rintro h
    rw [h, List.length_nil] at hlen
    omega
  rw [readTrailers, padLen_eq, toSize_natCast (by omega), recv_eq hf, if_neg (fun h => hne h.2.1)]
  simp only
  split_ifs with hpad
  · exact ⟨_, rfl⟩
  · -- the padding has been read, and the CRC is still there
    have hle := recvCount_le (s := s) (padLen info.ulpduLen.toNat)
    have hcrc : (s.advance (recvCount s (padLen info.ulpduLen.toNat))).pending ≠ [] := by
      rw [advance_pending, ← List.length_pos_iff, List.length_drop]
      omega
    rw [recv_eq (hf.advance _), if_neg (fun h => hcrc h.2.1)]
    simp only
    split_ifs <;> exact ⟨_, rfl⟩

theorem mpaRecvBody_val {len : UInt16} {k n : ℕ} (hf : s.FailFree) (hk : k ≤ len.toNat)
    (hn : n ≤ maxRwCount) (hav : bodyEnd len.toNat k n ≤ s.pending.length) :
    ∃ r, (mpaRecvBody s ⟨len, 2 + k⟩ n).ret = .val r := by
  by_cases hpos : 0 < len.toNat
  · by_cases hlt : k + n < len.toNat
    · rw [bodyEnd, if_pos hlt] at hav
      rw [mpaRecvBody_part ⟨len, 2 + k⟩ hf hn hav hpos (by simp only; omega)]
      exact ⟨_, rfl⟩
    · rw [bodyEnd, if_neg hlt] at hav
      rw [mpaRecvBody_rest ⟨len, 2 + k⟩ (len.toNat - k) hf (by simp only; omega) (by omega) hpos
        (by omega) (by omega)]
      refine readTrailers_val _ _ (hf.advance _) ?_
      simp only [advance_pending, List.length_drop]
      omega
  · rw [mpaRecvBody, if_pos (by simp only; omega)]
    exact ⟨_, rfl⟩

theorem mpaRecv_val {info : MpaPacket} {n : ℕ} (hf : s.FailFree) (h0 : info.bytesRcvd = 0)
    (hn : n ≤ maxRwCount) (hav : 2 + bodyEnd (segLen s.pending) 0 n ≤ s.pending.length) :
    ∃ r, (mpaRecv s info n).ret = .val r := by
  by_cases hr : 2 ≤ s.ready s.pos
  · rw [mpaRecv_header hf h0 (by omega) hr]
    have hbody : ∃ r, (mpaRecvBody (s.advance 2) ⟨segField s.pending, 2 + (0 : ℕ)⟩ n).ret = .val r := by
      refine mpaRecvBody_val (hf.advance 2) (Nat.zero_le _) hn ?_
      rw [advance_pending, List.length_drop]
      unfold segLen at hav
      omega
    rwa [Nat.cast_zero, add_zero] at hbody
  · -- the two bytes of the MPA header do not come with one call
    have hne : s.pending ≠ [] := by
      rintro h
      rw [h, List.length_nil] at hav
      omega
    have hk : recvCount s 2 < 2 := by
      simp only [recvCount]
      omega
    rw [mpaRecv, if_pos (by simp [h0]), h0, show toSize (mpaHdrSize - 0) = 2 by decide, recv_eq hf,
      if_neg (fun h => hne h.2.1)]
    simp only [mpaHdrSize, sub_zero]
    rw [if_pos (by omega)]
    exact ⟨_, rfl⟩

end

end SoftUiWarp
