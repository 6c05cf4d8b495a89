import SoftUiWarp.Mpa.Model

/-!
# What `mpa_recv` does on a stream without `recv` failures

The payload loop collects what it needs whatever the short counts are; the MPA
header, the padding and the CRC are each read by one call that must return
everything. The lemmas below say this once, for the callers to use.

Results:
* `payloadLoop_eq`: the loop reads the next `n` bytes, or blocks or spins when
  the stream ends before.
* `mpaRecv_header`, `mpaRecvBody_part`, `mpaRecvBody_last`: a call that
  succeeds.
* `mpaRecv_header_short`, `readTrailers_short`, `mpaRecvBody_short`: a call that
  a short count or the end of the stream makes fail, and how far it reads.
* `mpaRecvBody_over`: a call on a packet that has no bytes left, which reads on
  into whatever follows.
-/

namespace SoftUiWarp

open TcpStream ByteMem

/-! ## One call of `recv` -/

/-- How many bytes a call asking for `n` returns. -/
def recvCount (s : Inbound) (n : ℕ) : ℕ :=
  min (min n maxRwCount) (min (max 1 (s.ready s.pos)) s.pending.length)

section

variable {s : Inbound}

theorem recv_eq (hf : s.FailFree) (n : ℕ) :
    s.recv n = if 0 < n ∧ s.pending = [] ∧ s.eof = false then none
      else some ((recvCount s n : ℤ), s.pending.take (recvCount s n), s.advance (recvCount s n)) := by
  rcases Nat.eq_zero_or_pos n with rfl | hn
  · simp [recv_zero hf, recvCount]
  · by_cases hp : s.pending = []
    · rw [recv_of_pending_nil hf hn hp]
      cases he : s.eof <;> simp [hn, hp, recvCount]
    · rw [recv_of_failFree hf hn hp rfl, if_neg (by simp [hp])]
      rfl

theorem recvCount_le (n : ℕ) : recvCount s n ≤ n := by
  simp only [recvCount]
  omega

theorem toSize_natCast {n : ℕ} (h : n < 2 ^ 64) : toSize (n : ℤ) = n := by
  unfold toSize
  omega

/-! ## The payload loop -/

/-- How the loop ends that still needs `n` bytes when `avail` are left, `k`
    having been read before. -/
def loopRet (eof : Bool) (total n k avail : ℕ) : Ret :=
  if n ≤ avail then .val total
  else if eof then if k + avail = 0 then .val 0 else .spin
  else .blocked

theorem payloadLoop_spin {n : ℕ} (hn : n < 2 ^ 64) (hf : s.FailFree) (he : s.eof = true)
    (hp : s.pending = []) :
    ∀ (fuel k : ℕ) (ws : List (UInt8 × ℕ)), 0 < k → k < n →
      payloadLoop n fuel s k ws = ⟨.spin, s, ws⟩ := by
  intro fuel
  induction fuel with
  | zero => intro k ws _ _; rfl
  | succ fuel ih =>
    intro k ws hk hkn
    have hsz : toSize ((n : ℤ) - (k : ℤ)) = n - k := by
      rw [show (n : ℤ) - (k : ℤ) = ((n - k : ℕ) : ℤ) by omega, toSize_natCast (by omega)]
    rw [payloadLoop, hsz, recv_of_pending_nil hf (by omega) hp]
    simp only [he, if_true, List.zipIdx_nil, List.append_nil, add_zero]
    rw [if_neg (by omega), if_pos (by omega)]
    exact ih k ws hk hkn

/-- The loop from the state in which `k` of `n` bytes have been read. -/
theorem payloadLoop_from {n : ℕ} (hn : n ≤ maxRwCount) :
    ∀ (fuel : ℕ) (s : Inbound) (k : ℕ) (ws : List (UInt8 × ℕ)), s.FailFree → k < n →
      s.pending.length + 1 < fuel →
      payloadLoop n fuel s k ws =
        ⟨loopRet s.eof n (n - k) k s.pending.length, s.advance (min (n - k) s.pending.length),
          ws ++ (s.pending.take (n - k)).zipIdx k⟩ := by
  have hmax : maxRwCount < 2 ^ 64 := by decide
  intro fuel
  induction fuel with
  | zero => intro s k ws _ _ h; omega
  | succ fuel ih =>
    intro s k ws hf hk hfuel
    have hsz : toSize ((n : ℤ) - (k : ℤ)) = n - k := by
      rw [show (n : ℤ) - (k : ℤ) = ((n - k : ℕ) : ℤ) by omega, toSize_natCast (by omega)]
    rw [payloadLoop, hsz, recv_eq hf]
    by_cases hp : s.pending = []
    · -- nothing is left: the stream ends here or the call blocks
      cases he : s.eof with
      | false => simp [hp, loopRet, show 0 < n - k by omega, show n - k ≠ 0 by omega]
      | true =>
        have h0 : recvCount s (n - k) = 0 := by simp [recvCount, hp]
        simp only [h0, hp, List.take_nil, List.zipIdx_nil, List.append_nil, advance_zero]
        by_cases hk0 : k = 0
        · simp [hk0, loopRet, show ¬n ≤ 0 by omega]
        · have hspin := payloadLoop_spin (by omega) hf he hp fuel k ws (by omega) hk
          simp [hk0, loopRet, hspin, show ¬n - k ≤ 0 by omega, hk]
    · -- `j` bytes arrive
      have hlen : 0 < s.pending.length := List.length_pos_iff.mpr hp
      obtain ⟨j, hj⟩ : ∃ j, recvCount s (n - k) = j := ⟨_, rfl⟩
      have hj0 : 0 < j := by simp only [recvCount] at hj; omega
      have hjn : j ≤ n - k := by simp only [recvCount] at hj; omega
      have hjl : j ≤ s.pending.length := by simp only [recvCount] at hj; omega
      rw [hj, if_neg (by simp [hp])]
      simp only [Int.toNat_natCast]
      rw [if_neg (by omega)]
      by_cases hdone : k + j = n
      · rw [if_neg (by omega)]
        simp [loopRet, hjl, ← hdone]
      · rw [if_pos (by omega)]
        have hih := ih (s.advance j) (k + j) (ws ++ (s.pending.take j).zipIdx k) (hf.advance j)
          (by omega) (by simp; omega)
        push_cast at hih
        rw [hih]
        have hret : loopRet s.eof n (n - (k + j)) (k + j) (s.pending.length - j) =
            loopRet s.eof n (n - k) k s.pending.length := by
          unfold loopRet
          split_ifs <;> first | rfl | omega
        have hws : (s.pending.take (n - k)).zipIdx k = (s.pending.take j).zipIdx k ++
            ((s.pending.drop j).take (n - (k + j))).zipIdx (k + j) := by
          rw [show n - k = j + (n - (k + j)) by omega, List.take_add, List.zipIdx_append,
            List.length_take, Nat.min_eq_left hjl]
        simp only [advance_eof, advance_pending, List.length_drop, advance_advance, hret, hws,
          List.append_assoc]
        congr 2
        omega

/-- The whole loop: it reads the next `n` bytes whatever counts `recv` returns. -/
theorem payloadLoop_eq {n : ℕ} (fuel : ℕ) (hn : n ≤ maxRwCount) (hf : s.FailFree)
    (hfuel : s.pending.length + 1 < fuel) :
    payloadLoop n fuel s 0 [] =
      ⟨loopRet s.eof n n 0 s.pending.length, s.advance (min n s.pending.length),
        (s.pending.take n).zipIdx⟩ := by
  rcases Nat.eq_zero_or_pos n with rfl | h0
  · obtain ⟨f, rfl⟩ : ∃ f, fuel = f + 1 := ⟨fuel - 1, by omega⟩
    simp [payloadLoop, toSize, recv_zero hf, loopRet]
  · have h := payloadLoop_from hn fuel s 0 [] hf h0 hfuel
    simpa using h

/-! ## Calls that succeed -/

/-- The number of padding bytes after a ULPDU of `len` bytes (lines 252 and 347). -/
def padLen (len : ℕ) : ℕ := (len + 2) % 4

theorem padLen_lt (len : ℕ) : padLen len < 4 := Nat.mod_lt _ (by decide)

theorem padLen_eq (len : UInt16) :
    ((len.toNat : ℤ) + mpaHdrSize) % 4 = (padLen len.toNat : ℤ) := by
  simp only [padLen, mpaHdrSize]
  omega

/-- Both bytes of the length field are overwritten. -/
theorem patchLen_zero (len : UInt16) {bs : List UInt8} (h : bs.length = 2) :
    patchLen len bs 0 = word16 bs := by
  have hb := Buf.bytes_patch (fun i => (bytes16 len).getD i 0) bs 0 0 2 (by omega)
  rw [patchLen, hb, List.drop_zero, List.take_of_length_le (by omega)]

/-- The two header bytes of a packet are ready and read. -/
theorem mpaRecv_header {info : MpaPacket} {numBytes : ℤ} (hf : s.FailFree)
    (h0 : info.bytesRcvd = 0) (hlen : 2 ≤ s.pending.length) (hr : 2 ≤ s.ready s.pos) :
    mpaRecv s info numBytes =
      mpaRecvBody (s.advance 2) ⟨ntohs (word16 (s.pending.take 2)), 2⟩ numBytes := by
  have hrecv := recv_of_ready (n := 2) hf hlen (by decide) (by omega)
  have hpatch := @patchLen_zero info.ulpduLen (s.pending.take 2) (by simp; omega)
  simp [mpaRecv, h0, mpaHdrSize, show toSize 2 = 2 by decide, hrecv, hpatch]

/-- A call that leaves part of the ULPDU for later. -/
theorem mpaRecvBody_part (info : MpaPacket) {n : ℕ} (hf : s.FailFree) (hn : n ≤ maxRwCount)
    (hlen : n ≤ s.pending.length) (hpos : 0 < info.ulpduLen.toNat)
    (hrem : (n : ℤ) < info.ulpduLen.toNat - (info.bytesRcvd - 2)) :
    mpaRecvBody s info n =
      ⟨.val (info.bytesRcvd + n), { info with bytesRcvd := info.bytesRcvd + n }, s.advance n,
        (s.pending.take n).zipIdx⟩ := by
  have hloop := payloadLoop_eq (s.size + 2) hn hf (by rw [hf.size]; omega)
  have hsz : s.size = s.pending.length := hf.size
  simp only [mpaRecvBody, mpaHdrSize, if_neg (not_le.mpr hrem)]
  rw [if_neg (by omega), hloop]
  simp [loopRet, hlen]

/-- Padding and CRC, when each is ready. -/
theorem readTrailers_ready (info : MpaPacket) (ws : List (UInt8 × ℕ)) (hf : s.FailFree)
    (hlen : padLen info.ulpduLen.toNat + 4 ≤ s.pending.length)
    (hpad : padLen info.ulpduLen.toNat ≤ max 1 (s.ready s.pos))
    (hcrc : 4 ≤ s.ready (s.pos + padLen info.ulpduLen.toNat)) :
    readTrailers s info ws =
      ⟨.val (info.bytesRcvd + padLen info.ulpduLen.toNat + 4),
        { info with bytesRcvd := info.bytesRcvd + padLen info.ulpduLen.toNat + 4 },
        s.advance (padLen info.ulpduLen.toNat + 4), ws⟩ := by
  have hlt := padLen_lt info.ulpduLen.toNat
  have hp := padLen_eq info.ulpduLen
  have hmax : (4 : ℕ) ≤ maxRwCount := by decide
  have hr1 := recv_of_ready hf (by omega : padLen info.ulpduLen.toNat ≤ s.pending.length)
    (by omega) hpad
  have hr2 := recv_of_ready (n := 4) (hf.advance (padLen info.ulpduLen.toNat))
    (by simp; omega) hmax (by simp; omega)
  have hc : toSize mpaCrcSize = 4 := by decide
  simp only [readTrailers, hp, toSize_natCast (show padLen info.ulpduLen.toNat < 2 ^ 64 by omega),
    hr1, lt_irrefl, if_false, hc, hr2]
  simp [mpaCrcSize]

/-- A call that reads the rest of a ULPDU goes on with padding and CRC. -/
theorem mpaRecvBody_rest (info : MpaPacket) {n : ℕ} (rem : ℕ) (hf : s.FailFree)
    (hrem : (rem : ℤ) = info.ulpduLen.toNat - (info.bytesRcvd - 2)) (hle : rem ≤ n)
    (hpos : 0 < info.ulpduLen.toNat) (hmax : rem ≤ maxRwCount) (hlen : rem ≤ s.pending.length) :
    mpaRecvBody s info n =
      readTrailers (s.advance rem) { info with bytesRcvd := info.bytesRcvd + rem }
        (s.pending.take rem).zipIdx := by
  have hsz : s.size = s.pending.length := hf.size
  have hloop := payloadLoop_eq (s.size + 2) hmax hf (by omega)
  have hle' : (rem : ℤ) ≤ n := by omega
  simp only [mpaRecvBody, mpaHdrSize, ← hrem, if_pos hle']
  rw [if_neg (by omega), hloop]
  simp only [loopRet, if_pos hlen, Nat.min_eq_left hlen, ne_eq, not_true, if_false]

/-- A call that reads the rest of the ULPDU and with it padding and CRC. -/
theorem mpaRecvBody_last (info : MpaPacket) {n : ℕ} (rem : ℕ) (hf : s.FailFree)
    (hrem : (rem : ℤ) = info.ulpduLen.toNat - (info.bytesRcvd - 2)) (hle : rem ≤ n)
    (hpos : 0 < info.ulpduLen.toNat) (hmax : rem ≤ maxRwCount)
    (hlen : rem + padLen info.ulpduLen.toNat + 4 ≤ s.pending.length)
    (hpad : padLen info.ulpduLen.toNat ≤ max 1 (s.ready (s.pos + rem)))
    (hcrc : 4 ≤ s.ready (s.pos + rem + padLen info.ulpduLen.toNat)) :
    mpaRecvBody s info n =
      ⟨.val (info.bytesRcvd + rem + padLen info.ulpduLen.toNat + 4),
        { info with bytesRcvd := info.bytesRcvd + rem + padLen info.ulpduLen.toNat + 4 },
        s.advance (rem + padLen info.ulpduLen.toNat + 4), (s.pending.take rem).zipIdx⟩ := by
  have ht := readTrailers_ready (s := s.advance rem)
    { info with bytesRcvd := info.bytesRcvd + rem } (s.pending.take rem).zipIdx
    (hf.advance rem) (by simp; omega) hpad hcrc
  rw [mpaRecvBody_rest info rem hf hrem hle hpos hmax (by omega), ht]
  simp [Nat.add_assoc]

/-! ## Calls that fail -/

/-- The call returned a count. -/
def Ret.Ok (x : Ret) : Prop := ∃ r : ℤ, 0 ≤ r ∧ x = .val r

theorem not_ok_neg_one : ¬(Ret.val (-1)).Ok := by
  rintro ⟨r, h, he⟩
  cases he
  omega

theorem not_ok_blocked : ¬Ret.blocked.Ok := by
  rintro ⟨r, -, he⟩
  cases he

theorem not_ok_spin : ¬Ret.spin.Ok := by
  rintro ⟨r, -, he⟩
  cases he

theorem not_ok_cases {x : Ret} (h : ¬x.Ok) :
    (∃ r : ℤ, r < 0 ∧ x = .val r) ∨ x = .blocked ∨ x = .spin := by
  cases x with
  | val r =>
    left
    refine ⟨r, ?_, rfl⟩
    by_contra hge
    exact h ⟨r, by omega, rfl⟩
  | blocked => exact .inr (.inl rfl)
  | spin => exact .inr (.inr rfl)

/-- A header that does not arrive in one call ends the call. -/
theorem mpaRecv_header_short {info : MpaPacket} (numBytes : ℤ) (hf : s.FailFree)
    (h0 : info.bytesRcvd = 0) (h : s.pending.length < 2 ∨ s.ready s.pos < 2) :
    ¬(mpaRecv s info numBytes).ret.Ok ∧ (mpaRecv s info numBytes).writes = [] ∧
      ∃ k < 2, (mpaRecv s info numBytes).inb = s.advance k := by
  have hk : recvCount s 2 < 2 := by
    simp only [recvCount]
    omega
  rw [mpaRecv, if_pos (by simp [h0]), h0, show toSize (mpaHdrSize - 0) = 2 by decide, recv_eq hf]
  by_cases hb : 0 < 2 ∧ s.pending = [] ∧ s.eof = false
  · rw [if_pos hb]
    exact ⟨not_ok_blocked, rfl, 0, by omega, rfl⟩
  · rw [if_neg hb]
    simp only [mpaHdrSize, sub_zero]
    rw [if_pos (by omega)]
    exact ⟨not_ok_neg_one, rfl, _, hk, rfl⟩

/-- Padding or CRC that is missing or does not arrive in one call. -/
theorem readTrailers_short (info : MpaPacket) (ws : List (UInt8 × ℕ)) (hf : s.FailFree)
    (h : ¬(padLen info.ulpduLen.toNat + 4 ≤ s.pending.length ∧
      padLen info.ulpduLen.toNat ≤ max 1 (s.ready s.pos) ∧
      4 ≤ s.ready (s.pos + padLen info.ulpduLen.toNat))) :
    ¬(readTrailers s info ws).ret.Ok ∧ (readTrailers s info ws).writes = ws ∧
      ∃ k < padLen info.ulpduLen.toNat + 4, (readTrailers s info ws).inb = s.advance k := by
  have hlt := padLen_lt info.ulpduLen.toNat
  have hmax : (4 : ℕ) ≤ maxRwCount := by decide
  have hp := padLen_eq info.ulpduLen
  obtain ⟨p, hpp⟩ : ∃ p, padLen info.ulpduLen.toNat = p := ⟨_, rfl⟩
  rw [hpp] at hp h hlt ⊢
  rw [readTrailers, hp]
  simp only [toSize_natCast (show p < 2 ^ 64 by omega), recv_eq hf]
  by_cases hb : 0 < p ∧ s.pending = [] ∧ s.eof = false
  · rw [if_pos hb]
    exact ⟨not_ok_blocked, rfl, 0, by omega, rfl⟩
  rw [if_neg hb]
  simp only
  by_cases hpad : recvCount s p < p
  · rw [if_pos (by omega)]
    exact ⟨not_ok_neg_one, rfl, _, by omega, rfl⟩
  -- the padding is complete, so the CRC is not
  have hcp : recvCount s p = p := by
    have := recvCount_le (s := s) p
    omega
  have hpl : p ≤ s.pending.length ∧ p ≤ max 1 (s.ready s.pos) := by
    simp only [recvCount] at hcp
    omega
  have hcrc : recvCount (s.advance p) 4 < 4 := by
    simp only [recvCount, advance_pending, List.length_drop, advance_ready, advance_pos]
    omega
  rw [if_neg (by omega), hcp, show toSize mpaCrcSize = 4 by decide, recv_eq (hf.advance p)]
  by_cases hb : 0 < 4 ∧ (s.advance p).pending = [] ∧ (s.advance p).eof = false
  · rw [if_pos hb]
    exact ⟨not_ok_blocked, rfl, p, by omega, rfl⟩
  · rw [if_neg hb]
    simp only [mpaCrcSize]
    rw [if_pos (by omega)]
    refine ⟨not_ok_neg_one, rfl, p + recvCount (s.advance p) 4, by omega, ?_⟩
    rw [advance_advance]

/-- A payload loop that does not end with the count asked for ends the call. -/
theorem mpaRecvBody_of_loop (info : MpaPacket) {n m : ℤ} {l : LoopOut}
    (hm : m = min ((info.ulpduLen.toNat : ℤ) - (info.bytesRcvd - 2)) n)
    (hpos : 0 < info.ulpduLen.toNat) (hl : payloadLoop m (s.size + 2) s 0 [] = l)
    (hne : l.ret ≠ .val m) :
    ¬(mpaRecvBody s info n).ret.Ok ∧ (mpaRecvBody s info n).writes = l.writes ∧
      (mpaRecvBody s info n).inb = l.inb := by
  have hto : (if (info.ulpduLen.toNat : ℤ) - (info.bytesRcvd - 2) ≤ n then
      (info.ulpduLen.toNat : ℤ) - (info.bytesRcvd - 2) else n) = m := by
    split_ifs <;> omega
  obtain ⟨x, inb, ws⟩ := l
  simp only [mpaRecvBody, mpaHdrSize, hto, hl]
  rw [if_neg (by omega)]
  cases x with
  | val r =>
    simp only
    rw [if_pos (fun h => hne (by rw [h]))]
    exact ⟨not_ok_neg_one, rfl, rfl⟩
  | blocked => exact ⟨not_ok_blocked, rfl, rfl⟩
  | spin => exact ⟨not_ok_spin, rfl, rfl⟩

/-- A stream that ends inside the part of the ULPDU a call asks for. -/
theorem mpaRecvBody_short (info : MpaPacket) {n m : ℕ} (hf : s.FailFree)
    (hm : (m : ℤ) = min ((info.ulpduLen.toNat : ℤ) - (info.bytesRcvd - 2)) n)
    (hmax : m ≤ maxRwCount) (hpos : 0 < info.ulpduLen.toNat) (hlen : s.pending.length < m) :
    ¬(mpaRecvBody s info n).ret.Ok ∧ (mpaRecvBody s info n).writes = s.pending.zipIdx ∧
      (mpaRecvBody s info n).inb = s.advance s.pending.length := by
  have hsz : s.size = s.pending.length := hf.size
  have hloop := payloadLoop_eq (s.size + 2) hmax hf (by omega)
  rw [Nat.min_eq_right hlen.le, List.take_of_length_le hlen.le] at hloop
  refine mpaRecvBody_of_loop info hm hpos hloop ?_
  simp only [loopRet, if_neg (show ¬m ≤ s.pending.length by omega)]
  split_ifs
  · intro h
    have := Ret.val.inj h
    omega
  · exact fun h => by cases h
  · exact fun h => by cases h

/-- How many bytes a call stores whose length has become negative. -/
def overCount (s : Inbound) : ℕ := min maxRwCount (min (max 1 (s.ready s.pos)) s.pending.length)

/-- How a call ends that finds nothing to wait for but the stream's next bytes. -/
def overRet (s : Inbound) (x : Ret) : Ret :=
  if s.pending = [] ∧ s.eof = false then .blocked else x

/-- The payload loop with a negative length: `size_t` turns it into a length
    that bounds nothing, and one call stores what the stream has. -/
theorem payloadLoop_over {m : ℤ} (fuel : ℕ) (hf : s.FailFree) (hneg : m < 0)
    (hbig : -2 ^ 32 < m) :
    payloadLoop m (fuel + 1) s 0 [] =
      ⟨overRet s (.val (overCount s)), s.advance (overCount s),
        (s.pending.take (overCount s)).zipIdx⟩ := by
  have hrw : maxRwCount < 2 ^ 32 ∧ 0 < maxRwCount := by decide
  have hsize : maxRwCount ≤ toSize (m - 0) := by
    rw [toSize, sub_zero]
    omega
  have hcount : recvCount s (toSize (m - 0)) = overCount s := by
    simp only [recvCount, overCount]
    omega
  rw [payloadLoop, recv_eq hf, hcount]
  by_cases hb : s.pending = [] ∧ s.eof = false
  · have h0 : overCount s = 0 := by simp [overCount, hb.1]
    rw [if_pos ⟨by omega, hb⟩, overRet, if_pos hb, h0]
    rfl
  · rw [if_neg (fun h => hb h.2), overRet, if_neg hb]
    simp only [Int.toNat_zero, List.nil_append, zero_add]
    split_ifs <;> first | rfl | omega

/-- A call on a packet that has been read to its end, or one asking for a
    negative number of bytes. -/
theorem mpaRecvBody_over (info : MpaPacket) {n m : ℤ} (hf : s.FailFree)
    (hm : m = min ((info.ulpduLen.toNat : ℤ) - (info.bytesRcvd - 2)) n) (hneg : m < 0)
    (hbig : -2 ^ 32 < m) (hpos : 0 < info.ulpduLen.toNat) :
    mpaRecvBody s info n =
      ⟨overRet s (.val (-1)), info, s.advance (overCount s),
        (s.pending.take (overCount s)).zipIdx⟩ := by
  have hloop := payloadLoop_over (s.size + 1) hf hneg hbig
  have hto : (if (info.ulpduLen.toNat : ℤ) - (info.bytesRcvd - 2) ≤ n then
      (info.ulpduLen.toNat : ℤ) - (info.bytesRcvd - 2) else n) = m := by
    split_ifs <;> omega
  simp only [mpaRecvBody, mpaHdrSize, hto]
  rw [if_neg (by omega), hloop, overRet, overRet]
  by_cases hb : s.pending = [] ∧ s.eof = false
  · simp only [if_pos hb]
  · simp only [if_neg hb]
    rw [if_pos (by omega)]

theorem not_ok_overRet : ¬(overRet s (.val (-1))).Ok := by
  rw [overRet]
  split_ifs
  · exact not_ok_blocked
  · exact not_ok_neg_one

end

end SoftUiWarp
