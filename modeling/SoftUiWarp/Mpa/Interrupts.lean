import SoftUiWarp.Mpa.Results

/-!
# The end of the stream and failures of `recv` inside a packet

The payload loop of `mpa_recv` adds the results of `recv` up and tests the sum.
A stream that ends when some of the bytes have arrived leaves the sum where it
is, and the loop goes on for ever. A failure takes 1 off the sum, so the next
call stores its bytes one place too early and the loop reads a byte too many.

Results:
* `mpaRecv_ends`: on a stream that ends, a call returns exactly when the end
  does not fall where the loop goes on.
* `starves_iff`: when no call fails, that is an end strictly inside the payload.
* `mpaRecv_intact`: a call that returns a count has stored the next bytes and
  nothing else, exactly when no failure is made up for.
-/

namespace SoftUiWarp

open TcpStream ByteMem

/-! ## What can go wrong -/

/-- The header is read, and the stream ends when the results of the calls for
    the payload add up to more than 0 and less than what was asked for. -/
def Starved (s : Inbound) (info : MpaPacket) (numBytes : ℤ) : Prop :=
  HdrWhole s info ∧ 0 < (info.opened s).ulpduLen.toNat ∧
    Starves ((info.opened s).toRead numBytes) (s.advance info.hdrRem)

/-- The header is read, and the results of the calls for the payload, a failure
    among them, add up to what was asked for; the trailers arrive. -/
def Absorbed (s : Inbound) (info : MpaPacket) (numBytes : ℤ) : Prop :=
  HdrWhole s info ∧ ∃ rs ws t,
    Completes (s.advance info.hdrRem) (info.opened s) numBytes rs ws t ∧ -1 ∈ rs

section

variable {s t : Inbound} {info : MpaPacket} {n : ℤ} {rs : List ℤ} {ws : List (UInt8 × ℕ)}

theorem mpaRecv_of_starved (h : Starved s info n) : (mpaRecv s info n).ret = .spin := by
  obtain ⟨hh, hpos, rs, ws, t, hs, h0, hlt, ht⟩ := h
  have hloop := payloadLoop_starves hs (by rwa [zero_add]) (by rwa [zero_add]) ht
    ((s.advance info.hdrRem).size + 2) []
  rw [mpaRecv_opened hh, mpaRecvBody_eq hpos rfl, hloop]

/-- How a call ends on any stream. -/
theorem mpaRecv_cases (s : Inbound) (info : MpaPacket) (n : ℤ) :
    (∃ r < 0, (mpaRecv s info n).ret = .val r) ∨
      ((mpaRecv s info n).ret = .blocked ∧ s.eof = false) ∨ Starved s info n ∨
      (HdrWhole s info ∧ ∃ rs ws t,
        Completes (s.advance info.hdrRem) (info.opened s) n rs ws t) := by
  by_cases hh : HdrWhole s info
  · rw [mpaRecv_opened hh]
    rcases mpaRecvBody_cases (s.advance info.hdrRem) (le_opened s info) n with h | h | h | h
    · exact .inl h
    · exact .inr (.inl h)
    · exact .inr (.inr (.inl ⟨hh, h⟩))
    · exact .inr (.inr (.inr ⟨hh, h⟩))
  · rcases mpaRecv_unopened hh n with h | h
    · exact .inl ⟨-1, by decide, h⟩
    · exact .inr (.inl h)

/-- A call that succeeds. -/
theorem mpaRecv_of_completes (hh : HdrWhole s info)
    (h : Completes (s.advance info.hdrRem) (info.opened s) n rs ws t) :
    mpaRecv s info n =
      ⟨.val ((info.opened s).after n).bytesRcvd, (info.opened s).after n,
        t.advance ((info.opened s).trailerLen n), ws⟩ := by
  rw [mpaRecv_opened hh]
  exact mpaRecvBody_of_completes (le_opened s info) h

theorem opened_bytesRcvd (s : Inbound) (info : MpaPacket) :
    (info.opened s).bytesRcvd = info.bytesRcvd + info.hdrRem := by
  unfold MpaPacket.opened
  split <;> simp only [MpaPacket.hdrRem, mpaHdrSize] at * <;> omega

theorem hdrRem_le (hh : HdrWhole s info) : info.hdrRem ≤ s.pending.length := by
  by_cases hb : info.bytesRcvd < mpaHdrSize
  · exact (hh hb).le.1
  · simp only [MpaPacket.hdrRem]
    omega

theorem trailerLen_le (h : Completes s info n rs ws t) : info.trailerLen n ≤ t.pending.length := by
  unfold MpaPacket.trailerLen
  split
  · rename_i hrem
    obtain ⟨hpad, hcrc⟩ := h.trailers hrem
    have h1 := hpad.le.1
    have h2 := hcrc.le.1
    rw [advance_pending, List.length_drop] at h2
    omega
  · exact Nat.zero_le _

/-- How far a call that succeeds has read: header, payload and trailers, and a
    byte for each failure. -/
theorem completes_moved (hh : HdrWhole s info)
    (h : Completes (s.advance info.hdrRem) (info.opened s) n rs ws t) :
    ∃ j : ℕ, (j : ℤ) = (info.opened s).toRead n + rs.count (-1) ∧
      s.Moved (info.hdrRem + j + (info.opened s).trailerLen n)
        (t.advance ((info.opened s).trailerLen n)) := by
  obtain ⟨j, hj, hsum⟩ := served_moved h.served
  rw [h.sum] at hsum
  exact ⟨j, hsum, ((Inbound.moved_advance (hdrRem_le hh)).trans hj).trans
    (Inbound.moved_advance (trailerLen_le h))⟩

end

/-! ## Streams that end -/

/-- The number of stream bytes a call needs: what is missing of the header, the
    payload it asks for, and padding and CRC at the end of the ULPDU. -/
def bytesNeeded (s : Inbound) (info : MpaPacket) (numBytes : ℤ) : ℕ :=
  info.hdrRem + ((info.opened s).toRead numBytes).toNat + (info.opened s).trailerLen numBytes

/-- On a stream that ends, a call returns, and reports an error if its bytes
    have not all been delivered, unless the loop is left without more to read. -/
theorem mpaRecv_ends {s : Inbound} (info : MpaPacket) (n : ℤ) (he : s.eof = true) :
    (∃ r, (mpaRecv s info n).ret = .val r ∧ (0 ≤ r → bytesNeeded s info n ≤ s.pending.length)) ↔
      ¬Starved s info n := by
  constructor
  · rintro ⟨r, hr, -⟩ hs
    rw [mpaRecv_of_starved hs] at hr
    cases hr
  · intro hs
    rcases mpaRecv_cases s info n with ⟨r, hneg, hr⟩ | ⟨-, hopen⟩ | h | ⟨hh, rs, ws, t, h⟩
    · exact ⟨r, hr, fun h0 => absurd h0 (by omega)⟩
    · rw [he] at hopen
      cases hopen
    · exact absurd h hs
    · obtain ⟨j, hj, hmoved⟩ := completes_moved hh h
      have hle := hmoved.le
      refine ⟨_, by rw [mpaRecv_of_completes hh h], fun _ => ?_⟩
      unfold bytesNeeded
      omega

/-- When no call fails, the stream ends there if it ends inside the payload, and
    not before it. -/
theorem starves_iff {s : Inbound} {n : ℕ} (hf : s.FailFree) (he : s.eof = true)
    (hn : n ≤ maxRwCount) : Starves n s ↔ 0 < s.pending.length ∧ s.pending.length < n := by
  have hmax : maxRwCount < 2 ^ 64 := by decide
  have hsize : s.size = s.pending.length := hf.size
  have hloop := payloadLoop_eq (s.size + 2) hn hf (by omega)
  have hret : (payloadLoop n (s.size + 2) s 0 []).ret = .spin ↔
      0 < s.pending.length ∧ s.pending.length < n := by
    rw [hloop]
    simp only [loopRet, he, if_true]
    split_ifs <;> simp <;> omega
  rw [← hret]
  constructor
  · rintro ⟨rs, ws, t, hs, h0, hlt, ht⟩
    exact payloadLoop_starves hs (by rwa [zero_add]) (by rwa [zero_add]) ht _ _
  · intro hspin
    obtain ⟨rs, ws, t, hs, hsum⟩ := starves_of_spin (s.size + 2) [] le_rfl id (by omega) (by omega)
      hspin
    rw [zero_add] at hsum
    exact ⟨rs, ws, t, hs, hsum⟩

/-- The peer closes after the header: the call reports an error. -/
theorem mpaRecv_ends_header : ¬Starved { pending := [0, 5], eof := true } {} 5 :=
  (mpaRecv_ends {} 5 rfl).mp ⟨-1, by decide +kernel, by decide⟩

/-- The peer closes after the first byte of the payload: the loop is still going
    after any number of calls, and `mpa_recv` does not return. -/
theorem mpaRecv_ends_inside :
    (∀ fuel, (payloadLoop 5 fuel { pending := [1], eof := true, pos := 2 } 0 []).ret = .spin) ∧
      ¬∃ r, (mpaRecv { pending := [0, 5, 1], eof := true } {} 5).ret = .val r := by
  constructor
  · intro fuel
    have hserved : Served 5 { pending := [1], eof := true, pos := 2 } 0 [1] _ _ :=
      .last (s := { pending := [1], eof := true, pos := 2 }) (r := 1) rfl
    exact payloadLoop_starves hserved (by decide) (by decide) ⟨rfl, rfl, rfl⟩ fuel []
  · rintro ⟨r, hr⟩
    have hspin : (mpaRecv { pending := [0, 5, 1], eof := true } {} 5).ret = .spin := by
      decide +kernel
    rw [hspin] at hr
    cases hr

/-! ## Failures -/

/-- The next bytes of the payload are stored and nothing else, and the reader
    has moved as far as `bytes_rcvd` says. -/
structure Exact (s : Inbound) (info : MpaPacket) (numBytes : ℤ) (o : MpaOut) : Prop where
  stored : o.writes =
    ((s.pending.drop info.hdrRem).take ((info.opened s).toRead numBytes).toNat).zipIdx
  moved : ∃ k : ℕ, s.Moved k o.inb ∧ (k : ℤ) = o.info.bytesRcvd - info.bytesRcvd

/-- The call has not returned, because `recv` blocks, or it reports an error, or
    what it has done is exact. -/
def Intact (s : Inbound) (info : MpaPacket) (numBytes : ℤ) : Prop :=
  (mpaRecv s info numBytes).ret = .blocked ∨
    ∃ r, (mpaRecv s info numBytes).ret = .val r ∧
      (0 ≤ r → Exact s info numBytes (mpaRecv s info numBytes))

/-- A failure that is made up for leaves the reader too far on. -/
theorem not_intact_of_absorbed {s : Inbound} {info : MpaPacket} {n : ℤ} (h : Absorbed s info n) :
    ¬Intact s info n := by
  obtain ⟨hh, rs, ws, t, hc, hmem⟩ := h
  obtain ⟨j, hj, hmoved⟩ := completes_moved hh hc
  have hsum := served_sum_ge hc.served le_rfl
  have hcount : 0 < rs.count (-1) := List.count_pos_iff.mpr hmem
  have hopen := opened_bytesRcvd s info
  have hle := le_opened s info
  have hafter : ((info.opened s).after n).bytesRcvd = (info.opened s).bytesRcvd +
      (info.opened s).toRead n + (info.opened s).trailerLen n := rfl
  rw [zero_add, hc.sum] at hsum
  unfold Intact
  rw [mpaRecv_of_completes hh hc]
  rintro (hblk | ⟨r, hr, hex⟩)
  · cases hblk
  · cases hr
    obtain ⟨k, hk, hkr⟩ := (hex (by omega)).moved
    have hpos := hk.pos.symm.trans hmoved.pos
    simp only at hkr
    omega

/-- Whatever `recv` returns, a call either reports an error or has stored the
    next bytes in order and counted the bytes it has read, unless a failure is
    made up for or the loop is left without more to read. -/
theorem mpaRecv_intact (s : Inbound) (info : MpaPacket) (n : ℤ) :
    Intact s info n ↔ ¬Absorbed s info n ∧ ¬Starved s info n := by
  constructor
  · intro h
    refine ⟨fun ha => not_intact_of_absorbed ha h, fun hs => ?_⟩
    unfold Intact at h
    rw [mpaRecv_of_starved hs] at h
    rcases h with h | ⟨r, hr, -⟩
    · cases h
    · cases hr
  · rintro ⟨ha, hs⟩
    rcases mpaRecv_cases s info n with ⟨r, hneg, hr⟩ | ⟨hblk, -⟩ | h | ⟨hh, rs, ws, t, h⟩
    · exact .inr ⟨r, hr, fun h0 => absurd h0 (by omega)⟩
    · exact .inl hblk
    · exact absurd h hs
    · -- no call has failed
      have hne : -1 ∉ rs := fun hmem => ha ⟨hh, rs, ws, t, h, hmem⟩
      obtain ⟨j, hj, hmoved⟩ := completes_moved hh h
      obtain ⟨k, hk, -, -, hws⟩ := served_stored h.served hne le_rfl
      have hopen := opened_bytesRcvd s info
      rw [List.count_eq_zero_of_not_mem hne] at hj
      rw [h.sum] at hk
      unfold Intact
      rw [mpaRecv_of_completes hh h]
      refine .inr ⟨_, rfl, fun _ => ⟨?_, _, hmoved, ?_⟩⟩
      · rw [hws, advance_pending, ← hk]
        rfl
      · simp only [MpaPacket.after]
        push_cast
        omega

/-- A stream that delivers at most two bytes a call, whose next call fails when
    two bytes of the payload have been read. -/
def failingStream : Inbound where
  pending := [0, 8, 1, 2, 3, 4, 5, 6, 7, 8]
  eof := false
  ready := fun _ => 2
  errs := fun p => if p = 4 then 1 else 0

/-- Three bytes of the payload are asked for: the third byte of the stream
    overwrites the second, and a fourth is read and counted as the third. -/
theorem mpaRecv_absorbs :
    let o := mpaRecv failingStream {} 3
    o.ret = .val 5 ∧ (Buf.patch (fun _ => 0) o.writes).bytes 0 3 = [1, 3, 4] ∧ o.inb.pos = 6 ∧
      ¬Intact failingStream {} 3 := by
  intro o
  have hret : o.ret = .val 5 := by decide +kernel
  have hpos : o.inb.pos = 6 := by decide +kernel
  have hrcvd : o.info.bytesRcvd = 5 := by decide +kernel
  refine ⟨hret, by decide +kernel, hpos, ?_⟩
  rintro (hblk | ⟨r, hr, hex⟩)
  · cases hret.symm.trans hblk
  · cases hret.symm.trans hr
    obtain ⟨k, hk, hkr⟩ := (hex (by decide)).moved
    have hkpos := hk.pos.symm.trans hpos
    have hk5 : (k : ℤ) = 5 := hkr.trans (by rw [hrcvd]; rfl)
    simp only [failingStream] at hkpos
    omega

end SoftUiWarp
