import SoftUiWarp.Mpa.Recv

/-!
# `mpa_recv` whatever `recv` returns

A call of `recv` may fail, return fewer bytes than it was asked for or report the
end of the stream, in any order. The payload loop adds the results up: what it
stores and where it stops depends on their sum, and `Served` records them.

Results:
* `payloadLoop_of_served`, `served_of_val`: the loop ends with the sum of the
  results.
* `payloadLoop_starves`, `starves_of_spin`: it goes on for ever exactly when the
  stream ends while the sum is between 0 and what was asked for.
* `served_moved`: the reader has moved by the sum and one byte more for each
  failure.
* `mpaRecv_opened`, `mpaRecvBody_cases`, `mpaRecvBody_of_completes`: how a call
  ends on any stream.
-/

namespace SoftUiWarp

open TcpStream ByteMem

/-! ## The calls of the payload loop -/

/-- The payload loop, with `rcvd` on entry, makes calls of `recv` with the
    results `rs`, stores `ws` and leaves the stream `t`; after each of them but
    the last it goes on. -/
inductive Served (toRead : ℤ) :
    Inbound → (rcvd : ℤ) → List ℤ → List (UInt8 × ℕ) → Inbound → Prop
  | last {s t : Inbound} {rcvd r : ℤ} {bs : List UInt8}
      (h : s.recv (toSize (toRead - rcvd)) = some (r, bs, t)) :
      Served toRead s rcvd [r] (bs.zipIdx rcvd.toNat) t
  | more {s t u : Inbound} {rcvd r : ℤ} {bs : List UInt8} {rs : List ℤ} {ws : List (UInt8 × ℕ)}
      (h : s.recv (toSize (toRead - rcvd)) = some (r, bs, t)) (h0 : 0 < rcvd + r)
      (hlt : rcvd + r < toRead) (rest : Served toRead t (rcvd + r) rs ws u) :
      Served toRead s rcvd (r :: rs) (bs.zipIdx rcvd.toNat ++ ws) u

/-- The stream ends when some of the bytes asked for have been counted, and not
    all. -/
def Starves (toRead : ℤ) (s : Inbound) : Prop :=
  ∃ rs ws t, Served toRead s 0 rs ws t ∧ 0 < rs.sum ∧ rs.sum < toRead ∧ t.Over

section

variable {s t : Inbound} {toRead rcvd v : ℤ} {rs : List ℤ} {ws : List (UInt8 × ℕ)}

theorem toSize_pos {x : ℤ} (h0 : 0 < x) (hx : x < 2 ^ 64) : 0 < toSize x := by
  unfold toSize
  omega

theorem toSize_le {x : ℤ} (h0 : 0 ≤ x) : (toSize x : ℤ) ≤ x := by
  unfold toSize
  omega

/-- A call in the loop makes progress or finds the end of the stream. -/
theorem loop_recv {r : ℤ} {bs : List UInt8} (hlt : rcvd < toRead) (h0 : 0 ≤ rcvd)
    (hT : toRead < 2 ^ 64) (h : s.recv (toSize (toRead - rcvd)) = some (r, bs, t)) :
    t.size < s.size ∨ (s.Over ∧ t = s ∧ r = 0) := by
  have hpos := toSize_pos (show 0 < toRead - rcvd by omega) (by omega)
  cases recv_cases h with
  | failed herr => exact .inl (size_fail herr)
  | nothing hn => exact .inr ⟨hn.resolve_left (by omega), rfl, rfl⟩
  | bytes hk _ _ hlen => exact .inl (size_advance hk hlen)

/-- After the end of the stream every call returns 0. -/
theorem served_over (h : Served toRead s rcvd rs ws t) (hs : s.Over) : t = s ∧ rs.sum = 0 := by
  induction h with
  | last h =>
    rw [hs.recv] at h
    cases h
    exact ⟨rfl, rfl⟩
  | more h _ _ _ ih =>
    rw [hs.recv] at h
    cases h
    obtain ⟨ht, hsum⟩ := ih hs
    exact ⟨ht, by rw [List.sum_cons, hsum, add_zero]⟩

/-- The loop ends with the sum of the results once it is 0 or less, or all that
    was asked for. -/
theorem payloadLoop_of_served (h : Served toRead s rcvd rs ws t) (h0 : 0 ≤ rcvd)
    (hlt : 0 < toRead → rcvd < toRead) (hT : toRead < 2 ^ 64)
    (hend : rcvd + rs.sum ≤ 0 ∨ toRead ≤ rcvd + rs.sum) :
    ∀ (fuel : ℕ) (acc : List (UInt8 × ℕ)), s.size < fuel →
      payloadLoop toRead fuel s rcvd acc = ⟨.val (rcvd + rs.sum), t, acc ++ ws⟩ := by
  induction h with
  | @last s t rcvd r bs h =>
    intro fuel acc hf
    obtain ⟨f, rfl⟩ : ∃ f, fuel = f + 1 := ⟨fuel - 1, by omega⟩
    rw [List.sum_singleton] at hend ⊢
    simp only [payloadLoop, h]
    by_cases hle : rcvd + r ≤ 0
    · rw [if_pos hle]
    · rw [if_neg hle, if_neg (by omega)]
  | @more s t u rcvd r bs rs ws h hpos hlt' rest ih =>
    intro fuel acc hf
    obtain ⟨f, rfl⟩ : ∃ f, fuel = f + 1 := ⟨fuel - 1, by omega⟩
    rw [List.sum_cons, ← add_assoc] at hend ⊢
    have hsize : t.size < s.size := by
      rcases loop_recv (hlt (by omega)) h0 hT h with hsize | ⟨hover, rfl, rfl⟩
      · exact hsize
      · -- at the end of the stream the sum stays where it is
        obtain ⟨-, hsum⟩ := served_over rest hover
        omega
    simp only [payloadLoop, h]
    rw [if_neg (by omega), if_pos hlt', ih hpos.le (fun _ => hlt') hend f _ (by omega),
      List.append_assoc]

/-- A loop that ends has been served. -/
theorem served_of_val (fuel : ℕ) (acc : List (UInt8 × ℕ))
    (h : (payloadLoop toRead fuel s rcvd acc).ret = .val v) :
    ∃ rs ws, Served toRead s rcvd rs ws (payloadLoop toRead fuel s rcvd acc).inb ∧
      v = rcvd + rs.sum ∧ (payloadLoop toRead fuel s rcvd acc).writes = acc ++ ws := by
  induction fuel generalizing s rcvd acc with
  | zero => cases h
  | succ f ih =>
    unfold payloadLoop at h ⊢
    cases hrecv : s.recv (toSize (toRead - rcvd)) with
    | none => simp [hrecv] at h
    | some x =>
      obtain ⟨r, bs, t⟩ := x
      simp only [hrecv] at h ⊢
      by_cases hle : rcvd + r ≤ 0
      · rw [if_pos hle] at h ⊢
        cases h
        exact ⟨[r], _, .last hrecv, by rw [List.sum_singleton], rfl⟩
      · rw [if_neg hle] at h ⊢
        by_cases hlt : rcvd + r < toRead
        · rw [if_pos hlt] at h ⊢
          obtain ⟨rs, ws, hs, hv, hws⟩ := ih _ h
          refine ⟨r :: rs, _, .more hrecv (by omega) hlt hs, ?_, ?_⟩
          · rw [hv, List.sum_cons, add_assoc]
          · rw [hws, List.append_assoc]
        · rw [if_neg hlt] at h ⊢
          cases h
          exact ⟨[r], _, .last hrecv, by rw [List.sum_singleton], rfl⟩

/-- A loop that is still going after more calls than can make progress has come
    to the end of the stream. -/
theorem starves_of_spin (fuel : ℕ) (acc : List (UInt8 × ℕ)) (h0 : 0 ≤ rcvd)
    (hlt : 0 < toRead → rcvd < toRead) (hT : toRead < 2 ^ 64) (hfuel : s.size + 1 < fuel)
    (h : (payloadLoop toRead fuel s rcvd acc).ret = .spin) :
    ∃ rs ws t, Served toRead s rcvd rs ws t ∧ 0 < rcvd + rs.sum ∧ rcvd + rs.sum < toRead ∧
      t.Over := by
  induction fuel generalizing s rcvd acc with
  | zero => omega
  | succ f ih =>
    unfold payloadLoop at h
    cases hrecv : s.recv (toSize (toRead - rcvd)) with
    | none => simp [hrecv] at h
    | some x =>
      obtain ⟨r, bs, t⟩ := x
      simp only [hrecv] at h
      by_cases hle : rcvd + r ≤ 0
      · rw [if_pos hle] at h
        cases h
      by_cases hlt' : rcvd + r < toRead
      · rw [if_neg hle, if_pos hlt'] at h
        rcases loop_recv (hlt (by omega)) h0 hT hrecv with hsize | ⟨hover, rfl, rfl⟩
        · obtain ⟨rs, ws, u, hs, hsum⟩ := ih _ (by omega) (fun _ => hlt') (by omega) h
          rw [add_assoc, ← List.sum_cons] at hsum
          exact ⟨_, _, u, .more hrecv (by omega) hlt' hs, hsum⟩
        · exact ⟨[0], _, _, .last hrecv, by simpa using hle, by simpa using hlt', hover⟩
      · rw [if_neg hle, if_neg hlt'] at h
        cases h

/-- From there it goes on for ever. -/
theorem payloadLoop_over_spin (hs : s.Over) (h0 : 0 < rcvd) (hlt : rcvd < toRead) (fuel : ℕ)
    (acc : List (UInt8 × ℕ)) : (payloadLoop toRead fuel s rcvd acc).ret = .spin := by
  induction fuel generalizing acc with
  | zero => rfl
  | succ f ih =>
    unfold payloadLoop
    rw [hs.recv]
    simp only [add_zero]
    rw [if_neg (by omega), if_pos hlt]
    exact ih _

theorem payloadLoop_starves (h : Served toRead s rcvd rs ws t) (hpos : 0 < rcvd + rs.sum)
    (hlt : rcvd + rs.sum < toRead) (ht : t.Over) (fuel : ℕ) (acc : List (UInt8 × ℕ)) :
    (payloadLoop toRead fuel s rcvd acc).ret = .spin := by
  induction h generalizing fuel acc with
  | @last s t rcvd r bs h =>
    rw [List.sum_singleton] at hpos hlt
    cases fuel with
    | zero => rfl
    | succ f =>
      unfold payloadLoop
      simp only [h]
      rw [if_neg (by omega), if_pos hlt]
      exact payloadLoop_over_spin ht hpos hlt f _
  | @more s t u rcvd r bs rs ws h hpos' hlt' rest ih =>
    rw [List.sum_cons, ← add_assoc] at hpos hlt
    cases fuel with
    | zero => rfl
    | succ f =>
      unfold payloadLoop
      simp only [h]
      rw [if_neg (by omega), if_pos hlt']
      exact ih hpos hlt ht f _

/-- Only a stream that stays open blocks the loop. -/
theorem eof_of_blocked (fuel : ℕ) (acc : List (UInt8 × ℕ))
    (h : (payloadLoop toRead fuel s rcvd acc).ret = .blocked) : s.eof = false := by
  induction fuel generalizing s rcvd acc with
  | zero => cases h
  | succ f ih =>
    unfold payloadLoop at h
    cases hrecv : s.recv (toSize (toRead - rcvd)) with
    | none => exact eof_of_recv hrecv
    | some x =>
      obtain ⟨r, bs, t⟩ := x
      obtain ⟨k, hk, -⟩ := moved_of_recv hrecv
      simp only [hrecv] at h
      split_ifs at h
      exact hk.eof ▸ ih _ h

/-- The reader has moved by the sum of the results, and by one byte more for
    each failure. -/
theorem served_moved (h : Served toRead s rcvd rs ws t) :
    ∃ k : ℕ, s.Moved k t ∧ (k : ℤ) = rs.sum + rs.count (-1) := by
  induction h with
  | @last s t rcvd r bs h =>
    obtain ⟨k, hk, hkr⟩ := moved_of_recv h
    refine ⟨k, hk, ?_⟩
    rw [hkr, List.sum_singleton, List.count_singleton]
    by_cases hr : r = -1 <;> simp [hr]
  | @more s t u rcvd r bs rs ws h _ _ _ ih =>
    obtain ⟨k, hk, hkr⟩ := moved_of_recv h
    obtain ⟨j, hj, hjr⟩ := ih
    refine ⟨k + j, hk.trans hj, ?_⟩
    rw [Nat.cast_add, hkr, hjr, List.sum_cons, List.count_cons]
    by_cases hr : r = -1 <;> simp [hr] <;> ring

/-- The count is negative only when the first call has failed. -/
theorem served_sum_ge (h : Served toRead s rcvd rs ws t) (h0 : 0 ≤ rcvd) : -1 ≤ rcvd + rs.sum := by
  induction h with
  | @last s t rcvd r bs h =>
    obtain ⟨k, -, hk⟩ := moved_of_recv h
    rw [List.sum_singleton]
    split_ifs at hk <;> omega
  | more _ hpos _ _ ih =>
    rw [List.sum_cons, ← add_assoc]
    exact ih hpos.le

/-- A call that does not fail. -/
theorem read_of_recv {n : ℕ} {r : ℤ} {bs : List UInt8} (h : s.recv n = some (r, bs, t))
    (hr : r ≠ -1) :
    ∃ k : ℕ, r = k ∧ k ≤ s.pending.length ∧ bs = s.pending.take k ∧ t = s.advance k := by
  cases recv_cases h with
  | failed => exact absurd rfl hr
  | nothing => exact ⟨0, rfl, Nat.zero_le _, rfl, rfl⟩
  | bytes _ _ _ hk => exact ⟨_, rfl, hk, rfl, rfl⟩

/-- Without a failure the loop stores the next bytes of the stream, in order. -/
theorem served_stored (h : Served toRead s rcvd rs ws t) (hr : -1 ∉ rs) (h0 : 0 ≤ rcvd) :
    ∃ k : ℕ, (k : ℤ) = rs.sum ∧ k ≤ s.pending.length ∧ t = s.advance k ∧
      ws = (s.pending.take k).zipIdx rcvd.toNat := by
  induction h with
  | @last s t rcvd r bs h =>
    obtain ⟨k, rfl, hk, rfl, rfl⟩ := read_of_recv h fun he => hr (by simp [he])
    exact ⟨k, by rw [List.sum_singleton], hk, rfl, rfl⟩
  | @more s t u rcvd r bs rs ws h hpos _ _ ih =>
    rw [List.mem_cons, not_or] at hr
    obtain ⟨k, rfl, hk, rfl, rfl⟩ := read_of_recv h (Ne.symm hr.1)
    obtain ⟨j, hj, hjl, rfl, rfl⟩ := ih hr.2 hpos.le
    rw [advance_pending, List.length_drop] at hjl
    refine ⟨k + j, by rw [Nat.cast_add, hj, List.sum_cons], by omega, by rw [advance_advance], ?_⟩
    rw [advance_pending, List.take_add, List.zipIdx_append, List.length_take, Nat.min_eq_left hk,
      show (rcvd + (k : ℤ)).toNat = rcvd.toNat + k by omega]

end

/-! ## The parts of a call -/

/-- How many bytes of the MPA header are missing. -/
def MpaPacket.hdrRem (info : MpaPacket) : ℕ := (mpaHdrSize - info.bytesRcvd).toNat

/-- The packet when the next bytes of `s` have completed its header. -/
def MpaPacket.opened (info : MpaPacket) (s : Inbound) : MpaPacket :=
  if info.bytesRcvd < mpaHdrSize then
    { ulpduLen :=
        ntohs (patchLen info.ulpduLen (s.pending.take info.hdrRem) info.bytesRcvd.toNat)
      bytesRcvd := mpaHdrSize }
  else info

/-- `ulpdu_rem_size`. -/
def MpaPacket.rem (info : MpaPacket) : ℤ :=
  info.ulpduLen.toNat - (info.bytesRcvd - mpaHdrSize)

/-- `num_bytes_to_read`. -/
def MpaPacket.toRead (info : MpaPacket) (numBytes : ℤ) : ℤ :=
  if info.rem ≤ numBytes then info.rem else numBytes

/-- The number of bytes a call takes after the ULPDU. -/
def MpaPacket.trailerLen (info : MpaPacket) (numBytes : ℤ) : ℕ :=
  if info.rem ≤ numBytes then padLen info.ulpduLen.toNat + 4 else 0

/-- The packet after a call inside it that succeeds. -/
def MpaPacket.after (info : MpaPacket) (numBytes : ℤ) : MpaPacket :=
  { info with bytesRcvd := info.bytesRcvd + info.toRead numBytes + info.trailerLen numBytes }

/-- The one call for the header, if it is made, returns all of it. -/
def HdrWhole (s : Inbound) (info : MpaPacket) : Prop :=
  info.bytesRcvd < mpaHdrSize → s.Whole info.hdrRem

/-- The call for the padding and the call for the CRC return all of them. -/
def TrailersWhole (s : Inbound) (len : ℕ) : Prop :=
  s.Whole (padLen len) ∧ (s.advance (padLen len)).Whole 4

/-- The results of the payload loop add up to what was asked for, and the
    trailers arrive if the call reads them. -/
structure Completes (s : Inbound) (info : MpaPacket) (numBytes : ℤ) (rs : List ℤ)
    (ws : List (UInt8 × ℕ)) (t : Inbound) : Prop where
  pos : 0 < info.ulpduLen.toNat
  served : Served (info.toRead numBytes) s 0 rs ws t
  sum : rs.sum = info.toRead numBytes
  trailers : info.rem ≤ numBytes → TrailersWhole t info.ulpduLen.toNat

section

variable {s t : Inbound} {info : MpaPacket} {n : ℤ} {rs : List ℤ} {ws : List (UInt8 × ℕ)}

theorem le_opened (s : Inbound) (info : MpaPacket) : 2 ≤ (info.opened s).bytesRcvd := by
  unfold MpaPacket.opened
  split
  · exact le_rfl
  · rename_i hb
    exact not_lt.mp hb

theorem toRead_lt (hb : 2 ≤ info.bytesRcvd) (n : ℤ) : info.toRead n < 2 ^ 64 := by
  have hlen := info.ulpduLen.toNat_lt
  simp only [MpaPacket.toRead, MpaPacket.rem, mpaHdrSize]
  split_ifs <;> omega

/-- A call that gets past the header. -/
theorem mpaRecv_opened (h : HdrWhole s info) (n : ℤ) :
    mpaRecv s info n = mpaRecvBody (s.advance info.hdrRem) (info.opened s) n := by
  unfold mpaRecv MpaPacket.opened
  by_cases hb : info.bytesRcvd < mpaHdrSize
  · have hw := h hb
    have hmax : maxRwCount < 2 ^ 64 := by decide
    have hrem : (mpaHdrSize - info.bytesRcvd) = (info.hdrRem : ℤ) := by
      simp only [MpaPacket.hdrRem]
      omega
    have hsize : toSize (mpaHdrSize - info.bytesRcvd) = info.hdrRem := by
      rw [hrem, toSize_natCast (lt_of_le_of_lt hw.le.2 hmax)]
    unfold Inbound.Whole at hw
    rw [if_pos hb, if_pos hb, hsize, hw]
    simp only
    rw [if_neg (by omega)]
  · have h0 : info.hdrRem = 0 := by
      simp only [MpaPacket.hdrRem]
      omega
    rw [if_neg hb, if_neg hb, h0, advance_zero]

/-- A call that does not. -/
theorem mpaRecv_unopened (h : ¬HdrWhole s info) (n : ℤ) :
    (mpaRecv s info n).ret = .val (-1) ∨
      (mpaRecv s info n).ret = .blocked ∧ s.eof = false := by
  obtain ⟨hb, hw⟩ := Classical.not_imp.mp h
  unfold mpaRecv
  rw [if_pos hb]
  cases hrecv : s.recv (toSize (mpaHdrSize - info.bytesRcvd)) with
  | none => exact .inr ⟨rfl, eof_of_recv hrecv⟩
  | some x =>
    obtain ⟨r, bs, t⟩ := x
    left
    simp only
    by_cases hr : r < mpaHdrSize - info.bytesRcvd
    · rw [if_pos hr]
    · -- then the call has returned the whole header
      have hle := toSize_le (show 0 ≤ mpaHdrSize - info.bytesRcvd by omega)
      have hwhole := whole_of_recv hrecv (by omega)
      cases hrecv.symm.trans hwhole
      have heq : toSize (mpaHdrSize - info.bytesRcvd) = info.hdrRem := by
        simp only [MpaPacket.hdrRem]
        omega
      rw [heq] at hwhole
      exact absurd hwhole hw

/-- Padding and CRC. -/
theorem readTrailers_of_whole (info : MpaPacket) (h : TrailersWhole s info.ulpduLen.toNat)
    (ws : List (UInt8 × ℕ)) :
    readTrailers s info ws =
      ⟨.val (info.bytesRcvd + padLen info.ulpduLen.toNat + 4),
        { info with bytesRcvd := info.bytesRcvd + padLen info.ulpduLen.toNat + 4 },
        s.advance (padLen info.ulpduLen.toNat + 4), ws⟩ := by
  obtain ⟨hpad, hcrc⟩ := h
  have hlt := padLen_lt info.ulpduLen.toNat
  unfold Inbound.Whole at hpad hcrc
  unfold readTrailers
  simp only [padLen_eq, toSize_natCast (show padLen info.ulpduLen.toNat < 2 ^ 64 by omega), hpad,
    lt_irrefl, if_false, show toSize mpaCrcSize = 4 by decide, hcrc]
  simp [mpaCrcSize]

theorem readTrailers_of_not_whole (info : MpaPacket) (h : ¬TrailersWhole s info.ulpduLen.toNat)
    (ws : List (UInt8 × ℕ)) :
    (readTrailers s info ws).ret = .val (-1) ∨
      (readTrailers s info ws).ret = .blocked ∧ s.eof = false := by
  have hlt := padLen_lt info.ulpduLen.toNat
  unfold readTrailers
  simp only [padLen_eq, toSize_natCast (show padLen info.ulpduLen.toNat < 2 ^ 64 by omega)]
  cases hpad : s.recv (padLen info.ulpduLen.toNat) with
  | none => exact .inr ⟨rfl, eof_of_recv hpad⟩
  | some x =>
    obtain ⟨r, bs, t⟩ := x
    simp only
    by_cases hr : r < padLen info.ulpduLen.toNat
    · rw [if_pos hr]
      exact .inl rfl
    · rw [if_neg hr]
      have hwhole := whole_of_recv hpad (by omega)
      cases hpad.symm.trans hwhole
      cases hcrc : (s.advance (padLen info.ulpduLen.toNat)).recv (toSize mpaCrcSize) with
      | none => exact .inr ⟨rfl, eof_of_recv (s := s.advance _) hcrc⟩
      | some y =>
        obtain ⟨r, bs, t⟩ := y
        simp only
        by_cases hr : r = mpaCrcSize
        · refine absurd ⟨hwhole, whole_of_recv hcrc ?_⟩ h
          rw [hr]
          decide
        · rw [if_pos hr]
          exact .inl rfl

/-! ## How a call ends -/

/-- `mpa_recv` after the header, in terms of the parts of a call. -/
theorem mpaRecvBody_eq (hpos : 0 < info.ulpduLen.toNat) {l : LoopOut}
    (hl : payloadLoop (info.toRead n) (s.size + 2) s 0 [] = l) :
    mpaRecvBody s info n =
      match l.ret with
      | .val rcvd =>
        if rcvd ≠ info.toRead n then ⟨.val (-1), info, l.inb, l.writes⟩
        else if info.rem ≤ n then
          readTrailers l.inb { info with bytesRcvd := info.bytesRcvd + rcvd } l.writes
        else
          ⟨.val (info.bytesRcvd + rcvd), { info with bytesRcvd := info.bytesRcvd + rcvd }, l.inb,
            l.writes⟩
      | r => ⟨r, info, l.inb, l.writes⟩ := by
  subst hl
  unfold mpaRecvBody
  simp only
  rw [if_neg (by omega)]
  rfl

/-- A call inside a packet that succeeds. -/
theorem mpaRecvBody_of_completes (hb : 2 ≤ info.bytesRcvd) (h : Completes s info n rs ws t) :
    mpaRecvBody s info n =
      ⟨.val (info.after n).bytesRcvd, info.after n, t.advance (info.trailerLen n), ws⟩ := by
  have hend : 0 + rs.sum ≤ 0 ∨ info.toRead n ≤ 0 + rs.sum := .inr (by rw [zero_add, h.sum])
  have hloop := payloadLoop_of_served h.served le_rfl id (toRead_lt hb n) hend (s.size + 2) []
    (by omega)
  rw [zero_add, h.sum, List.nil_append] at hloop
  rw [mpaRecvBody_eq h.pos hloop]
  simp only [ne_eq, not_true, if_false]
  by_cases hrem : info.rem ≤ n
  · have htr := readTrailers_of_whole { info with bytesRcvd := info.bytesRcvd + info.toRead n }
      (h.trailers hrem) ws
    rw [if_pos hrem, htr]
    simp [MpaPacket.after, MpaPacket.trailerLen, hrem, add_assoc]
  · rw [if_neg hrem]
    simp [MpaPacket.after, MpaPacket.trailerLen, hrem]

/-- Any call inside a packet. -/
theorem mpaRecvBody_cases (s : Inbound) (hb : 2 ≤ info.bytesRcvd) (n : ℤ) :
    (∃ r < 0, (mpaRecvBody s info n).ret = .val r) ∨
      ((mpaRecvBody s info n).ret = .blocked ∧ s.eof = false) ∨
      (0 < info.ulpduLen.toNat ∧ Starves (info.toRead n) s) ∨
      ∃ rs ws t, Completes s info n rs ws t := by
  by_cases hpos : 0 < info.ulpduLen.toNat
  · obtain ⟨l, hl⟩ : ∃ l, payloadLoop (info.toRead n) (s.size + 2) s 0 [] = l := ⟨_, rfl⟩
    have heq := mpaRecvBody_eq hpos hl
    cases hret : l.ret with
    | val v =>
      rw [hret] at heq
      simp only at heq
      by_cases hv : v = info.toRead n
      · obtain ⟨rs, ws, hs, hsum, -⟩ := served_of_val (s.size + 2) [] (hl ▸ hret)
        rw [hl] at hs
        rw [hv, zero_add] at hsum
        by_cases htr : info.rem ≤ n → TrailersWhole l.inb info.ulpduLen.toNat
        · exact .inr (.inr (.inr ⟨rs, ws, l.inb, hpos, hs, hsum.symm, htr⟩))
        · obtain ⟨hrem, htr⟩ := Classical.not_imp.mp htr
          rw [if_neg (not_not.mpr hv), if_pos hrem] at heq
          obtain ⟨k, hk, -⟩ := served_moved hs
          rw [heq]
          rcases readTrailers_of_not_whole { info with bytesRcvd := info.bytesRcvd + v } htr l.writes
            with h | ⟨h, he⟩
          · exact .inl ⟨-1, by decide, h⟩
          · exact .inr (.inl ⟨h, by rw [← hk.eof, he]⟩)
      · rw [if_pos hv] at heq
        exact .inl ⟨-1, by decide, by rw [heq]⟩
    | blocked =>
      rw [hret] at heq
      exact .inr (.inl ⟨by rw [heq], eof_of_blocked (s.size + 2) [] (hl ▸ hret)⟩)
    | spin =>
      obtain ⟨rs, ws, t, hs, hsum⟩ := starves_of_spin (s.size + 2) [] le_rfl id (toRead_lt hb n)
        (by omega) (hl ▸ hret)
      rw [zero_add] at hsum
      exact .inr (.inr (.inl ⟨hpos, rs, ws, t, hs, hsum⟩))
  · left
    refine ⟨-2, by decide, ?_⟩
    unfold mpaRecvBody
    simp only
    rw [if_pos (by omega)]

end

end SoftUiWarp
