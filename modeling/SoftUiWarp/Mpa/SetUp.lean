import SoftUiWarp.Mpa.Handshake

/-!
# What the two set-up calls take for success

`mpa_recv_rr` in one piece, on any results of its two calls of `recv`, and
`mpa_client_connect` and `mpa_server_accept` around it, which look at nothing but
the sign of what it returns.

Results:
* `receive_failures_reported_iff`: after which results a frame that was not
  received in full is reported.
* `setUp_accepts`: which of the frames that have been delivered in full the two
  calls accept.
-/

namespace SoftUiWarp

open TcpStream

/-! ## The calls -/

def eNoMem : ℤ := 12

/-- The header struct after `memset`. -/
def zeroHdr : MpaRr := ⟨List.replicate 16 0, 0, 0⟩

/-- `mpa_recv_rr` up to its header check (lines 94–107), on a struct that holds
    `h0`. -/
def mpaRecvRrHdrOn (h0 : MpaRr) : RecvRes → ℤ ⊕ MpaRr
  | .data bs => if bs.length < mpaRrSize then .inl (-1) else .inr (.ofBytes bs)
  | _ => .inr h0

/-- `mpa_recv_rr` from there on (lines 109–178): `r2 n` is what `recv` returns
    when it is asked for `n` bytes. There is a buffer for private data if
    `info->pdata` was set or `malloc` has found one. -/
def mpaRecvRrAfter (h : MpaRr) (buf : Bool) (r2 : ℕ → RecvRes) : ℤ :=
  match h.restSize with
  | none => mpaRrSize
  | some n =>
    if 0 < h.pdLength ∧ buf = false then -eNoMem else (mpaRecvRrRest h (r2 n)).1

/-- `mpa_recv_rr` (lines 94–178). -/
def mpaRecvRr (h0 : MpaRr) (buf : Bool) (r1 : RecvRes) (r2 : ℕ → RecvRes) : ℤ :=
  match mpaRecvRrHdrOn h0 r1 with
  | .inl ret => ret
  | .inr h => mpaRecvRrAfter h buf r2

/-- `mpa_client_connect` (lines 181–197); `sendRet` is what `sendmsg` returns for
    the frame of the client. -/
def mpaClientConnect (sendRet : ℤ) (buf : Bool) (r1 : RecvRes) (r2 : ℕ → RecvRes) : ℤ :=
  if sendRet < 0 then sendRet
  else
    let ret := mpaRecvRr zeroHdr buf r1 r2
    if ret < 0 then ret else 0

/-- `mpa_server_accept` (lines 199–212). -/
def mpaServerAccept (sendRet : ℤ) (buf : Bool) (r1 : RecvRes) (r2 : ℕ → RecvRes) : ℤ :=
  let ret := mpaRecvRr zeroHdr buf r1 r2
  if ret < 0 then ret
  else if sendRet < 0 then sendRet
  else 0

/-- The call of either side. -/
def Role.setUp : Role → ℤ → Bool → RecvRes → (ℕ → RecvRes) → ℤ
  | .client => mpaClientConnect
  | .server => mpaServerAccept

section

variable {h h0 : MpaRr} {buf : Bool} {r1 : RecvRes} {r2 : ℕ → RecvRes} {sendRet : ℤ}

/-- Both calls hand on a failure and turn everything else into 0. -/
theorem Role.setUp_cases (r : Role) :
    (0 ≤ sendRet ∧ 0 ≤ mpaRecvRr zeroHdr buf r1 r2 ∧ r.setUp sendRet buf r1 r2 = 0) ∨
      ((sendRet < 0 ∨ mpaRecvRr zeroHdr buf r1 r2 < 0) ∧ r.setUp sendRet buf r1 r2 < 0) := by
  cases r with
  | client =>
    simp only [Role.setUp, mpaClientConnect]
    split_ifs <;> omega
  | server =>
    simp only [Role.setUp, mpaServerAccept]
    split_ifs <;> omega

theorem Role.setUp_neg_iff (r : Role) :
    r.setUp sendRet buf r1 r2 < 0 ↔ sendRet < 0 ∨ mpaRecvRr zeroHdr buf r1 r2 < 0 := by
  rcases @Role.setUp_cases buf r1 r2 sendRet r with h | h <;> omega

/-! ## Failures to receive -/

/-- The number of bytes the call for private data asks for (line 163). -/
def MpaRr.askSize (h : MpaRr) : ℕ := if h.isReq then h.pdLength + 4 else h.pdLength

/-- The header has arrived in full and so has the private data it announces. -/
def FrameReceived (r1 : RecvRes) (r2 : ℕ → RecvRes) : Prop :=
  ∃ bs, r1 = .data bs ∧ mpaRrSize ≤ bs.length ∧
    ((MpaRr.ofBytes bs).pdLength = 0 ∨
      ∃ ds, r2 (MpaRr.ofBytes bs).askSize = .data ds ∧ (MpaRr.ofBytes bs).pdLength ≤ ds.length)

/-- The call for private data returns less than was announced, or the end of
    the stream. -/
def PdataCut (h : MpaRr) (buf : Bool) (r2 : ℕ → RecvRes) : Prop :=
  0 < h.pdLength ∧ buf = true ∧ ∃ ds, r2 h.askSize = .data ds ∧ ds.length < h.pdLength

/-- What the second call of `recv` returns, or the lack of a buffer, makes
    `mpa_recv_rr` fail on the header `h`. -/
def Refused (h : MpaRr) (buf : Bool) (r2 : ℕ → RecvRes) : Prop :=
  if h.pdLength = 0 then h.isReq = true ∧ (r2 4 = .failed ∨ r2 4 = .data [])
  else buf = false ∨ ∀ ds, r2 h.askSize = .data ds → h.pdLength < ds.length

/-- The results after which `mpa_recv_rr` on a struct that holds `h0` reports
    what it has not received. -/
def Reported (h0 : MpaRr) (buf : Bool) (r1 : RecvRes) (r2 : ℕ → RecvRes) : Prop :=
  match r1 with
  | .data bs => mpaRrSize ≤ bs.length → ¬PdataCut (.ofBytes bs) buf r2
  | _ => Refused h0 buf r2

theorem MpaRr.restSize_of_pos (hpd : 0 < h.pdLength) : h.restSize = some h.askSize := by
  rw [MpaRr.restSize, if_neg hpd.ne', MpaRr.askSize]

theorem mpaRecvRrAfter_neg_iff : mpaRecvRrAfter h buf r2 < 0 ↔ Refused h buf r2 := by
  unfold mpaRecvRrAfter Refused
  by_cases hpd : h.pdLength = 0
  · cases hreq : h.isReq with
    | false => simp [MpaRr.restSize, hpd, hreq, mpaRrSize]
    | true =>
      simp only [MpaRr.restSize, hpd, hreq, if_true, lt_irrefl, false_and, if_false, mpaRecvRrRest]
      cases r2 4 with
      | again => simp
      | failed => simp
      | data bs => cases bs <;> simp [ePipe]; omega
  · have hpos : 0 < h.pdLength := Nat.pos_of_ne_zero hpd
    simp only [MpaRr.restSize_of_pos hpos, if_neg hpd, hpos, true_and, mpaRecvRrRest]
    cases buf with
    | false => simp [eNoMem]
    | true =>
      cases r2 h.askSize with
      | again => simp
      | failed => simp
      | data bs =>
        by_cases hlt : h.pdLength < bs.length
        · simp [hlt, eProto]
        · simp [hlt]

/-- Private data that is not all there is refused, unless it is cut. -/
theorem refused_iff_not_cut (hpd : 0 < h.pdLength)
    (hno : ¬∃ ds, r2 h.askSize = .data ds ∧ h.pdLength ≤ ds.length) :
    Refused h buf r2 ↔ ¬PdataCut h buf r2 := by
  rw [Refused, if_neg hpd.ne', PdataCut]
  cases hr : r2 h.askSize with
  | again => simp
  | failed => simp
  | data ds =>
    have hlt : ds.length < h.pdLength := not_le.mp fun hle => hno ⟨ds, hr, hle⟩
    simp [hpd, hlt, not_lt.mpr hlt.le]

/-- Without a header there is no frame. -/
theorem not_frameReceived (hr1 : ∀ bs, r1 ≠ .data bs) : ¬FrameReceived r1 r2 := by
  rintro ⟨bs, he, -⟩
  exact hr1 bs he

theorem mpaRecvRr_reported_iff :
    (¬FrameReceived r1 r2 → mpaRecvRr h0 buf r1 r2 < 0) ↔ Reported h0 buf r1 r2 := by
  cases r1 with
  | again | failed =>
    rw [imp_iff_right (not_frameReceived (by simp))]
    exact mpaRecvRrAfter_neg_iff
  | data bs =>
    simp only [mpaRecvRr, mpaRecvRrHdrOn, Reported]
    by_cases hlen : mpaRrSize ≤ bs.length
    · rw [if_neg (not_lt.mpr hlen), imp_iff_right hlen]
      simp only [mpaRecvRrAfter_neg_iff]
      by_cases hrec : FrameReceived (.data bs) r2
      · refine iff_of_true (fun hno => absurd hrec hno) ?_
        rintro ⟨hpd, -, ds, hds, hlt⟩
        obtain ⟨bs', he, -, h0 | ⟨ds', hds', hle⟩⟩ := hrec
        · cases he
          omega
        · cases he
          cases hds.symm.trans hds'
          omega
      · rw [imp_iff_right hrec]
        refine refused_iff_not_cut (Nat.pos_of_ne_zero fun h0 => hrec ?_) fun hds => hrec ?_
        · exact ⟨bs, rfl, hlen, .inl h0⟩
        · exact ⟨bs, rfl, hlen, .inr hds⟩
    · rw [if_pos (not_le.mp hlen)]
      exact iff_of_true (fun _ => (by decide : (-1 : ℤ) < 0)) (fun hle => absurd hle hlen)

/-- The two callers report what `mpa_recv_rr` reports. -/
theorem setUp_reported_iff (r : Role) :
    (¬FrameReceived r1 r2 → r.setUp sendRet buf r1 r2 < 0) ↔
      sendRet < 0 ∨ Reported zeroHdr buf r1 r2 := by
  rw [← mpaRecvRr_reported_iff, r.setUp_neg_iff]
  by_cases hsend : sendRet < 0
  · simp [hsend]
  · simp [hsend]

end

/-- For all results of the two calls of `recv`: when a frame that has not been
    received in full makes `mpa_recv_rr` and its two callers return a negative
    value. -/
theorem receive_failures_reported_iff (h0 : MpaRr) (buf : Bool) (r1 : RecvRes)
    (r2 : ℕ → RecvRes) (sendRet : ℤ) :
    ((¬FrameReceived r1 r2 → mpaRecvRr h0 buf r1 r2 < 0) ↔ Reported h0 buf r1 r2) ∧
      ((¬FrameReceived r1 r2 → mpaClientConnect sendRet buf r1 r2 < 0) ↔
        sendRet < 0 ∨ Reported zeroHdr buf r1 r2) ∧
      ((¬FrameReceived r1 r2 → mpaServerAccept sendRet buf r1 r2 < 0) ↔
        sendRet < 0 ∨ Reported zeroHdr buf r1 r2) :=
  ⟨mpaRecvRr_reported_iff, setUp_reported_iff .client, setUp_reported_iff .server⟩

/-- A call for the header that fails, and a reply of which one of two announced
    bytes of private data arrives: both calls return 0. -/
theorem receive_failures_unreported :
    (¬FrameReceived .failed (fun _ => .failed) ∧
      mpaRecvRr zeroHdr true .failed (fun _ => .failed) = 20 ∧
      ∀ r : Role, r.setUp 20 true .failed (fun _ => .failed) = 0) ∧
    ¬FrameReceived (.data (mpaKeyRep ++ [0, 1, 0, 2])) (fun _ => .data [7]) ∧
      mpaRecvRr zeroHdr true (.data (mpaKeyRep ++ [0, 1, 0, 2])) (fun _ => .data [7]) = 1 ∧
      ∀ r : Role, r.setUp 20 true (.data (mpaKeyRep ++ [0, 1, 0, 2])) (fun _ => .data [7]) = 0 := by
  refine ⟨⟨?_, by decide, fun r => by cases r <;> decide⟩, ?_, by decide,
    fun r => by cases r <;> decide⟩
  · rintro ⟨bs, he, -⟩
    cases he
  · rintro ⟨bs, he, -, h0 | ⟨ds, hds, hle⟩⟩
    · cases he
      exact absurd h0 (by decide)
    · cases he
      cases hds
      exact absurd hle (by decide)

/-! ## Frames that have been delivered -/

/-- A call that asks for `n` of the delivered bytes `bs`, which the peer's end of
    stream follows or nothing yet. -/
def recvDelivered (bs : List UInt8) (eof : Bool) (n : ℕ) : RecvRes :=
  if bs = [] then if eof then .data [] else .again else .data (bs.take n)

/-- The call of either side when its peer's bytes `bs` have all been delivered. -/
def Role.setUpOn (r : Role) (sendRet : ℤ) (buf : Bool) (bs : List UInt8) (eof : Bool) : ℤ :=
  r.setUp sendRet buf (recvDelivered bs eof mpaRrSize) (recvDelivered (bs.drop mpaRrSize) eof)

/-- What follows the announced private data. -/
def extra (bs : List UInt8) : List UInt8 := bs.drop (mpaRrSize + (MpaRr.ofBytes bs).pdLength)

/-- `MPA_RR_FLAG_REJECT` is clear. -/
def MpaRr.NotRejected (h : MpaRr) : Prop := h.bits &&& htons 0x2000 = 0

/-- The frames a side should take: a request that nothing follows, a reply that
    does not reject. -/
def Role.Valid (bs : List UInt8) : Role → Prop
  | .server => (MpaRr.ofBytes bs).key = mpaKeyReq ∧ extra bs = []
  | .client => (MpaRr.ofBytes bs).key = mpaKeyRep ∧ (MpaRr.ofBytes bs).NotRejected

/-- The frames both sides take: everything without the key of a request, and
    requests that nothing follows, as long as a peer that announces nothing has
    not closed. -/
def Accepted (bs : List UInt8) (eof : Bool) : Prop :=
  (MpaRr.ofBytes bs).isReq = true →
    extra bs = [] ∧ ((MpaRr.ofBytes bs).pdLength = 0 → eof = false)

instance (bs : List UInt8) (eof : Bool) : Decidable (Accepted bs eof) :=
  inferInstanceAs (Decidable (_ → _))

section

variable {bs : List UInt8} {eof buf : Bool}

theorem MpaRr.ofBytes_take (bs : List UInt8) :
    MpaRr.ofBytes (bs.take mpaRrSize) = .ofBytes bs := by
  simp only [MpaRr.ofBytes, mpaRrSize, List.take_take, List.drop_take]
  rfl

theorem mpaRecvRr_delivered (hlen : mpaRrSize ≤ bs.length) :
    mpaRecvRr zeroHdr buf (recvDelivered bs eof mpaRrSize)
        (recvDelivered (bs.drop mpaRrSize) eof) =
      mpaRecvRrAfter (.ofBytes bs) buf (recvDelivered (bs.drop mpaRrSize) eof) := by
  have hne : bs ≠ [] := by
    rintro rfl
    exact absurd hlen (by decide)
  have htake : (bs.take mpaRrSize).length = mpaRrSize := by
    rw [List.length_take, Nat.min_eq_left hlen]
  rw [mpaRecvRr, recvDelivered, if_neg hne, mpaRecvRrHdrOn, htake, if_neg (lt_irrefl _),
    MpaRr.ofBytes_take]

/-- A request without private data that bytes follow is left out: their number is
    returned, and the callers take it for a success. -/
theorem refused_delivered_iff (hlen : mpaRrSize + (MpaRr.ofBytes bs).pdLength ≤ bs.length)
    (hextra : (MpaRr.ofBytes bs).isReq = true → (MpaRr.ofBytes bs).pdLength = 0 → extra bs = []) :
    Refused (.ofBytes bs) buf (recvDelivered (bs.drop mpaRrSize) eof) ↔
      ¬(((MpaRr.ofBytes bs).pdLength = 0 ∨ buf = true) ∧ Accepted bs eof) := by
  obtain ⟨h, hh⟩ : ∃ h, MpaRr.ofBytes bs = h := ⟨_, rfl⟩
  obtain ⟨tail, htail⟩ : ∃ tail, bs.drop mpaRrSize = tail := ⟨_, rfl⟩
  have hdrop : extra bs = tail.drop h.pdLength := by
    rw [extra, hh, ← htail, List.drop_drop]
  have hlen' : h.pdLength ≤ tail.length := by
    rw [← htail, List.length_drop]
    rw [hh] at hlen
    omega
  rw [hh, hdrop] at hextra
  rw [hh, htail, Accepted, hh, hdrop, Refused]
  by_cases hpd : h.pdLength = 0
  · simp only [hpd, if_true, true_or, true_and, List.drop_zero, true_imp_iff] at hextra ⊢
    cases hreq : h.isReq with
    | false => simp
    | true =>
      rw [hreq] at hextra
      rw [hextra rfl, recvDelivered]
      cases eof <;> simp
  · have hne : tail ≠ [] := by
      rintro rfl
      exact hpd (Nat.le_zero.mp hlen')
    rw [if_neg hpd, recvDelivered, if_neg hne]
    cases buf with
    | false => simp [hpd]
    | true =>
      cases hreq : h.isReq with
      | false => simp [MpaRr.askSize, hreq, hpd]
      | true => simp [MpaRr.askSize, hreq, hpd]

end

/-- Among the frames that have been delivered in full with what follows them, the
    calls do not tell replies that reject from others, nor a reply from a request
    that nothing follows. They take these, and return a negative value for a
    request that something follows, if it announces private data, or that the
    end of the stream follows, if it announces none. -/
theorem setUp_accepts (r : Role) (sendRet : ℤ) (buf : Bool) (bs : List UInt8) (eof : Bool)
    (hlen : mpaRrSize + (MpaRr.ofBytes bs).pdLength ≤ bs.length)
    (hextra : (MpaRr.ofBytes bs).isReq = true → (MpaRr.ofBytes bs).pdLength = 0 → extra bs = []) :
    (r.setUpOn sendRet buf bs eof = 0 ↔
      0 ≤ sendRet ∧ ((MpaRr.ofBytes bs).pdLength = 0 ∨ buf = true) ∧ Accepted bs eof) ∧
    (r.setUpOn sendRet buf bs eof ≠ 0 → r.setUpOn sendRet buf bs eof < 0) := by
  have hrefused : Refused (.ofBytes bs) buf (recvDelivered (bs.drop mpaRrSize) eof) ↔ _ :=
    refused_delivered_iff hlen hextra
  rw [← mpaRecvRrAfter_neg_iff, ← mpaRecvRr_delivered (by omega)] at hrefused
  obtain ⟨hsend, hrecv, hret⟩ | ⟨hneg, hret⟩ := @Role.setUp_cases buf
    (recvDelivered bs eof mpaRrSize) (recvDelivered (bs.drop mpaRrSize) eof) sendRet r
  · have hacc := not_not.mp (mt hrefused.mpr (not_lt.mpr hrecv))
    exact ⟨iff_of_true hret ⟨hsend, hacc⟩, fun hne => absurd hret hne⟩
  · refine ⟨iff_of_false (ne_of_lt hret) ?_, fun _ => hret⟩
    rintro ⟨hsend, hacc⟩
    rcases hneg with hneg | hneg
    · omega
    · exact hrefused.mp hneg hacc

/-- A request with two bytes of private data, alone, for the server, and a reply
    that does not reject for the client. -/
theorem setUp_accepts_both :
    Role.server.setUpOn 20 true (mpaKeyReq ++ [0, 1, 0, 2, 7, 8]) false = 0 ∧
      Role.client.setUpOn 20 true (mpaKeyRep ++ [0, 1, 0, 0]) false = 0 :=
  ⟨(setUp_accepts .server 20 true _ false (by decide) (by decide)).1.mpr
      ⟨by decide, by decide, by decide⟩,
    (setUp_accepts .client 20 true _ false (by decide) (by decide)).1.mpr
      ⟨by decide, by decide, by decide⟩⟩

/-- The server takes a reply, the client a request and a reply that rejects. -/
theorem setUp_accepts_invalid :
    (Role.server.setUpOn 20 true (mpaKeyRep ++ [0, 1, 0, 0]) false = 0 ∧
        ¬Role.server.Valid (mpaKeyRep ++ [0, 1, 0, 0])) ∧
      (Role.client.setUpOn 20 true (mpaKeyReq ++ [0, 1, 0, 0]) false = 0 ∧
        ¬Role.client.Valid (mpaKeyReq ++ [0, 1, 0, 0])) ∧
      (Role.client.setUpOn 20 true (mpaKeyRep ++ [0x20, 1, 0, 0]) false = 0 ∧
        ¬Role.client.Valid (mpaKeyRep ++ [0x20, 1, 0, 0])) := by
  refine ⟨⟨by decide, ?_⟩, ⟨by decide, ?_⟩, by decide, ?_⟩
  · rintro ⟨hkey, -⟩
    exact absurd hkey (by decide)
  · rintro ⟨hkey, -⟩
    exact absurd hkey (by decide)
  · rintro ⟨-, hclear⟩
    unfold MpaRr.NotRejected at hclear
    exact absurd hclear (by decide)

end SoftUiWarp
