import SoftUiWarp.Common.ByteOrder
import SoftUiWarp.Lib.Runs

/-!
# The MPA handshake (`suiw/mpa/mpa.cpp`, lines 45–212)

`mpa_client_connect` sends a request frame and receives a reply frame,
`mpa_server_accept` receives and then sends. A frame is a header of 20 bytes and
the private data it announces. The header is received with a blocking call, the
private data with one that does not block, and a request is read four bytes
further to find out whether anything follows it.

The two calls run against each other over a connection that delivers what was
sent in pieces of any size, at any time. `sendmsg` takes a whole frame, of at
most 275 bytes, and a call of `recv` fails only with `EAGAIN`. A call that has
returned 0 leaves the socket to its application, which sends what it likes.
`mpa_protocol_version`, which is written and not read, is left out.

Results:
* `handshake_agreement`: when no receive of private data finds only a part of
  it, two calls that both return 0 agree.
* `handshake_part_received`: when one does, both still return 0.
-/

namespace SoftUiWarp

open TcpStream Runs

/-! ## Frames (`common/common.h`, lines 50–92) -/

/-- `MPA_KEY_REQ`. -/
def mpaKeyReq : List UInt8 :=
  ['M', 'P', 'A', ' ', 'I', 'D', ' ', 'R', 'e', 'q', ' ', 'F', 'r', 'a', 'm', 'e'].map
    fun c => c.toNat.toUInt8

/-- `MPA_KEY_REP`. -/
def mpaKeyRep : List UInt8 :=
  ['M', 'P', 'A', ' ', 'I', 'D', ' ', 'R', 'e', 'p', ' ', 'F', 'r', 'a', 'm', 'e'].map
    fun c => c.toNat.toUInt8

/-- `struct mpa_rr`; `bits` and `pdLen` are in network order. -/
structure MpaRr where
  key : List UInt8
  bits : UInt16
  pdLen : UInt16
  deriving DecidableEq, Repr

/-- `sizeof(struct mpa_rr)`. -/
def mpaRrSize : ℕ := 20

def MpaRr.bytes (h : MpaRr) : List UInt8 := h.key ++ bytes16 h.bits ++ bytes16 h.pdLen

/-- The struct in 20 bytes. -/
def MpaRr.ofBytes (bs : List UInt8) : MpaRr :=
  ⟨bs.take 16, word16 ((bs.drop 16).take 2), word16 ((bs.drop 18).take 2)⟩

/-- `__mpa_rr_set_revision`. -/
def mpaRrSetRevision (bits : UInt16) (rev : UInt8) : UInt16 :=
  (bits &&& ~~~htons 0x00ff) ||| (htons rev.toUInt16 &&& htons 0x00ff)

/-- `__be16_to_cpu(hdr->params.pd_len)`. -/
def MpaRr.pdLength (h : MpaRr) : ℕ := (ntohs h.pdLen).toNat

/-- `strncmp(MPA_KEY_REQ, hdr->key, MPA_RR_KEY_LEN) == 0`; the key has 16
    characters, none of them 0. -/
def MpaRr.isReq (h : MpaRr) : Bool := h.key = mpaKeyReq

/-! ## Sending and receiving a frame -/

/-- Private data: a pointer and a length of type `__u8`. -/
structure PData where
  bytes : List UInt8
  lt : bytes.length < 256

def PData.len (pdata : PData) : UInt8 := UInt8.ofNat pdata.bytes.length

/-- The header `mpa_send_rr` makes (lines 48–55). -/
def mpaSendHdr (pdata : PData) (req : Bool) : MpaRr :=
  ⟨if req then mpaKeyReq else mpaKeyRep, mpaRrSetRevision 0 1, htons pdata.len.toUInt16⟩

/-- The message `mpa_send_rr` gives to `sendmsg` (lines 45–92). -/
def mpaSendRr (pdata : PData) (req : Bool) : List UInt8 :=
  (mpaSendHdr pdata req).bytes ++ pdata.bytes

/-- What a call of `recv` returns: -1 with `EAGAIN`, -1 with another error, or
    the number of the bytes it has stored. -/
inductive RecvRes
  | again
  | failed
  | data (bs : List UInt8)
  deriving DecidableEq, Repr

/-- `mpa_recv_rr` after its first call of `recv` (lines 101–107): it returns, or
    goes on with the header. `rcvd < sizeof(struct mpa_rr)` compares unsigned
    numbers, so -1 passes, with the header as `memset` left it. -/
def mpaRecvRrHdr : RecvRes → ℤ ⊕ MpaRr
  | .data bs => if bs.length < mpaRrSize then .inl (-1) else .inr (.ofBytes bs)
  | _ => .inr ⟨List.replicate 16 0, 0, 0⟩

/-- The number of bytes the second call of `recv` asks for, if there is one
    (lines 116–148 and 163). -/
def MpaRr.restSize (h : MpaRr) : Option ℕ :=
  if h.pdLength = 0 then if h.isReq then some 4 else none
  else some (if h.isReq then h.pdLength + 4 else h.pdLength)

def ePipe : ℤ := 32

def eProto : ℤ := 71

/-- `mpa_recv_rr` after the second call of `recv` (lines 124–145 and 165–177):
    its return value and what `info->pdata` holds. -/
def mpaRecvRrRest (h : MpaRr) (res : RecvRes) : ℤ × List UInt8 :=
  if h.pdLength = 0 then
    match res with
    | .again => (0, [])
    | .failed => (-1, [])
    | .data bs => (if bs = [] then -ePipe else bs.length, [])
  else
    match res with
    | .data bs => (if h.pdLength < bs.length then -eProto else bs.length, bs)
    | _ => (-1, [])

/-! ## The two calls -/

inductive Role
  | client
  | server
  deriving DecidableEq, Repr

def Role.peer : Role → Role
  | .client => .server
  | .server => .client

/-- The message of either side. -/
def Role.frame (r : Role) (pdata : PData) : List UInt8 := mpaSendRr pdata (r = .client)

/-- Where a call is. -/
inductive HsPc
  /-- `mpa_send_rr` follows. -/
  | sendRr
  /-- The first `recv` of `mpa_recv_rr` follows. -/
  | recvHdr
  /-- The header is received, the rest of `mpa_recv_rr` follows. -/
  | recvRest (h : MpaRr)
  /-- The call has returned. -/
  | done (ret : ℤ)
  deriving DecidableEq, Repr

/-- `mpa_client_connect` (lines 181–197) sends first, `mpa_server_accept` (lines
    199–212) receives first. -/
def Role.start : Role → HsPc
  | .client => .sendRr
  | .server => .recvHdr

/-- After `mpa_send_rr`. -/
def Role.afterSend : Role → HsPc
  | .client => .recvHdr
  | .server => .done 0

/-- After `mpa_recv_rr` has returned `ret`. -/
def Role.afterRecv (ret : ℤ) : Role → HsPc
  | .client => if ret < 0 then .done ret else .done 0
  | .server => if ret < 0 then .done ret else .sendRr

/-- Both calls and the connection. -/
structure Hs where
  pc : Role → HsPc
  /-- What `pdata_recv` holds. -/
  pdataRecv : Role → List UInt8
  /-- The bytes each side sends to its peer. -/
  out : Role → Chan

def Hs.init : Hs := ⟨Role.start, fun _ => [], fun _ => {}⟩

inductive HsLabel
  /-- The next socket operation of a call. -/
  | call (r : Role)
  /-- `k` bytes that `r` has sent are delivered. -/
  | deliver (r : Role) (k : ℕ)
  /-- The application of `r` sends. -/
  | app (r : Role) (bs : List UInt8)

/-- The next operation of the call of `r`. -/
def Hs.call (pdata : Role → PData) (s : Hs) (r : Role) : Hs :=
  let inp := s.out r.peer
  match s.pc r with
  | .sendRr =>
    { s with
      pc := Function.update s.pc r r.afterSend
      out := Function.update s.out r ((s.out r).send (r.frame (pdata r))) }
  | .recvHdr =>
    -- the call blocks while nothing is delivered
    if inp.ready = [] then s
    else
      { s with
        pc := Function.update s.pc r
          (match mpaRecvRrHdr (.data (inp.ready.take mpaRrSize)) with
          | .inl ret => r.afterRecv ret
          | .inr h => .recvRest h)
        out := Function.update s.out r.peer (inp.read mpaRrSize) }
  | .recvRest h =>
    match h.restSize with
    | none => { s with pc := Function.update s.pc r (r.afterRecv mpaRrSize) }
    | some n =>
      let res := mpaRecvRrRest h (if inp.ready = [] then .again else .data (inp.ready.take n))
      { pc := Function.update s.pc r (r.afterRecv res.1)
        pdataRecv := Function.update s.pdataRecv r res.2
        out := Function.update s.out r.peer (inp.read n) }
  | .done _ => s

def Hs.step (pdata : Role → PData) : HsLabel → Hs → Hs
  | .call r, s => s.call pdata r
  | .deliver r k, s => { s with out := Function.update s.out r ((s.out r).deliver k) }
  | .app r bs, s =>
    if s.pc r = .done 0 then { s with out := Function.update s.out r ((s.out r).send bs) } else s

/-- When both calls have returned 0, each side has the other's private data and
    has read the other's frame and nothing else. -/
def Hs.Agreed (pdata : Role → PData) (s : Hs) : Prop :=
  (∀ r, s.pc r = .done 0) → ∀ r, s.pdataRecv r = (pdata r.peer).bytes ∧
    (s.out r.peer).taken = r.peer.frame (pdata r.peer)

/-- The receive of private data that follows finds nothing, or all of it. -/
def HsLabel.Whole : HsLabel → Hs → Prop
  | .call r, s => ∀ h, s.pc r = .recvRest h →
      (s.out r.peer).ready = [] ∨ h.pdLength ≤ (s.out r.peer).ready.length
  | _, _ => True

instance HsLabel.decidableWhole (l : HsLabel) (s : Hs) : Decidable (l.Whole s) :=
  match l with
  | .call r =>
    match hpc : s.pc r with
    | .recvRest h =>
      decidable_of_iff
        ((s.out r.peer).ready = [] ∨ h.pdLength ≤ (s.out r.peer).ready.length)
        ⟨fun hw h' he => by
          rw [hpc] at he
          cases he
          exact hw, fun hw => hw h hpc⟩
    | .sendRr | .recvHdr | .done _ => isTrue fun h he => by rw [hpc] at he; cases he
  | .deliver _ _ | .app _ _ => isTrue trivial

/-! ## Frames are read back -/

@[simp] theorem Role.peer_peer (r : Role) : r.peer.peer = r := by cases r <;> rfl

theorem Role.peer_ne (r : Role) : r.peer ≠ r := by cases r <;> decide

theorem Role.eq_or_eq_peer (r q : Role) : q = r ∨ q = r.peer := by
  cases r <;> cases q <;> decide

section

variable (pdata : PData) (req : Bool)

theorem length_mpaSendHdr_key : (mpaSendHdr pdata req).key.length = 16 := by
  cases req <;> rfl

@[simp] theorem length_mpaSendHdr_bytes : (mpaSendHdr pdata req).bytes.length = mpaRrSize := by
  simp only [MpaRr.bytes, List.length_append, length_mpaSendHdr_key, length_bytes16]
  rfl

theorem MpaRr.ofBytes_bytes {h : MpaRr} (hkey : h.key.length = 16) : MpaRr.ofBytes h.bytes = h := by
  obtain ⟨key, bits, pdLen⟩ := h
  have h1 : (key ++ (bytes16 bits ++ bytes16 pdLen)).take 16 = key := List.take_left' hkey
  have h2 : (key ++ (bytes16 bits ++ bytes16 pdLen)).drop 16 = bytes16 bits ++ bytes16 pdLen :=
    List.drop_left' hkey
  have h3 : (key ++ (bytes16 bits ++ bytes16 pdLen)).drop 18 = bytes16 pdLen := by
    rw [← List.append_assoc]
    exact List.drop_left' (by simp at hkey ⊢; omega)
  have h4 : (bytes16 bits ++ bytes16 pdLen).take 2 = bytes16 bits := List.take_left' (by simp)
  have h5 : (bytes16 pdLen).take 2 = bytes16 pdLen := List.take_of_length_le (by simp)
  simp only [MpaRr.ofBytes, MpaRr.bytes, List.append_assoc, h1, h2, h3, h4, h5, word16_bytes16]

/-- The header announces the length of the private data. -/
theorem pdLength_mpaSendHdr : (mpaSendHdr pdata req).pdLength = pdata.bytes.length := by
  have hlt := pdata.lt
  simp only [MpaRr.pdLength, mpaSendHdr, ntohs_htons, PData.len, UInt8.toNat_toUInt16,
    UInt8.toNat_ofNat']
  omega

theorem isReq_mpaSendHdr : (mpaSendHdr pdata req).isReq = req := by
  cases req <;> rfl

theorem mpaSendRr_ne_nil : mpaSendRr pdata req ≠ [] := by
  have hpos : 0 < (mpaSendRr pdata req).length := by
    rw [mpaSendRr, List.length_append, length_mpaSendHdr_bytes]
    exact Nat.lt_of_lt_of_le (by decide) (Nat.le_add_right _ _)
  exact List.length_pos_iff.mp hpos

end

/-! ## The invariant -/

/-- `r` has sent its frame. -/
def Role.HasSent : Role → HsPc → Prop
  | .client, pc => pc ≠ .sendRr
  | .server, pc => pc = .done 0

/-- What `r` has read of its peer's bytes, and stored, when it is at a given
    place; `pdata` is the peer's private data. -/
def Role.Received (r : Role) (pdata : PData) (taken stored : List UInt8) : HsPc → Prop
  | .recvHdr => taken = [] ∧ stored = []
  | .recvRest h => h = mpaSendHdr pdata (r.peer = .client) ∧ taken = h.bytes ∧ stored = []
  | .sendRr => (r = .client → taken = [] ∧ stored = []) ∧
      (r = .server → taken = r.peer.frame pdata ∧ stored = pdata.bytes)
  | .done ret => ret = 0 → taken = r.peer.frame pdata ∧ stored = pdata.bytes

/-- Either side's bytes are its frame and then, once its call has returned 0,
    those of its application; either side has read what `Received` says. -/
structure Hs.Inv (pdata : Role → PData) (s : Hs) : Prop where
  sent : ∀ r : Role, r.HasSent (s.pc r) → ∃ rest, (s.out r).all = r.frame (pdata r) ++ rest ∧
    (s.pc r ≠ .done 0 → rest = [])
  silent : ∀ r : Role, ¬r.HasSent (s.pc r) → (s.out r).all = []
  received : ∀ r : Role, r.Received (pdata r.peer) (s.out r.peer).taken (s.pdataRecv r) (s.pc r)

section

variable {pdata : Role → PData} {s s' : Hs} {r : Role}

theorem Hs.inv_init (pdata : Role → PData) : Hs.Inv pdata Hs.init := by
  refine ⟨?_, fun _ _ => rfl, ?_⟩
  · intro r hr
    cases r
    · exact absurd rfl hr
    · cases hr
  · intro r
    cases r
    · exact ⟨fun _ => ⟨rfl, rfl⟩, fun h => by cases h⟩
    · exact ⟨rfl, rfl⟩

/-- A step that changes only what is in flight or delivered, and appends what
    applications send. -/
theorem Hs.Inv.of_out (h : s.Inv pdata) (hpc : s'.pc = s.pc) (hst : s'.pdataRecv = s.pdataRecv)
    (htaken : ∀ r, (s'.out r).taken = (s.out r).taken)
    (hall : ∀ r, ∃ bs, (s'.out r).all = (s.out r).all ++ bs ∧ (s.pc r ≠ .done 0 → bs = [])) :
    s'.Inv pdata := by
  refine ⟨?_, ?_, ?_⟩
  · intro r hr
    rw [hpc] at hr ⊢
    obtain ⟨rest, hrest, hnil⟩ := h.sent r hr
    obtain ⟨bs, hbs, hnil'⟩ := hall r
    refine ⟨rest ++ bs, by rw [hbs, hrest, List.append_assoc], fun hne => ?_⟩
    rw [hnil hne, hnil' hne]
    rfl
  · intro r hr
    rw [hpc] at hr
    obtain ⟨bs, hbs, hnil⟩ := hall r
    have hne : s.pc r ≠ .done 0 := by
      intro hdone
      rw [hdone] at hr
      cases r
      · exact hr (fun he => by cases he)
      · exact hr rfl
    rw [hbs, h.silent r hr, hnil hne]
    rfl
  · intro r
    rw [hpc, hst, htaken]
    exact h.received r

/-- A step in which `r` receives. -/
theorem Hs.Inv.of_recv {pc : HsPc} (h : s.Inv pdata) (hpc : s'.pc = Function.update s.pc r pc)
    (hne : s.pc r ≠ .done 0) (hsent : r.HasSent pc ↔ r.HasSent (s.pc r))
    (hall : ∀ q, (s'.out q).all = (s.out q).all) (htaken : (s'.out r).taken = (s.out r).taken)
    (hst : s'.pdataRecv r.peer = s.pdataRecv r.peer)
    (hr : r.Received (pdata r.peer) (s'.out r.peer).taken (s'.pdataRecv r) pc) : s'.Inv pdata := by
  have hself : s'.pc r = pc := by rw [hpc, Function.update_self]
  have hpeer : s'.pc r.peer = s.pc r.peer := by rw [hpc, Function.update_of_ne r.peer_ne]
  refine ⟨fun q hq => ?_, fun q hq => ?_, fun q => ?_⟩
  · rw [hall]
    rcases r.eq_or_eq_peer q with rfl | rfl
    · rw [hself] at hq
      obtain ⟨rest, hrest, hnil⟩ := h.sent q (hsent.mp hq)
      exact ⟨rest, hrest, fun _ => hnil hne⟩
    · rw [hpeer] at hq ⊢
      exact h.sent _ hq
  · rw [hall]
    rcases r.eq_or_eq_peer q with rfl | rfl
    · rw [hself] at hq
      exact h.silent q (fun hs => hq (hsent.mpr hs))
    · rw [hpeer] at hq
      exact h.silent _ hq
  · rcases r.eq_or_eq_peer q with rfl | rfl
    · rw [hself]
      exact hr
    · have hold := h.received r.peer
      rw [Role.peer_peer] at hold ⊢
      rw [hpeer, hst, htaken]
      exact hold

/-- `r` sends its frame. -/
theorem Hs.Inv.call_send (h : s.Inv pdata) (hpc : s.pc r = .sendRr) :
    (s.call pdata r).Inv pdata := by
  have hcall : s.call pdata r = { s with
      pc := Function.update s.pc r r.afterSend
      out := Function.update s.out r ((s.out r).send (r.frame (pdata r))) } := by
    simp only [Hs.call, hpc]
  have hnot : ¬r.HasSent (s.pc r) := by
    rw [hpc]
    cases r
    · exact fun hs => hs rfl
    · exact fun hs => by cases hs
  have hsent : r.HasSent r.afterSend := by
    cases r
    · exact fun he => by cases he
    · rfl
  have hrecv := h.received r
  rw [hpc] at hrecv
  rw [hcall]
  refine ⟨fun q hq => ?_, fun q hq => ?_, fun q => ?_⟩
  · rcases r.eq_or_eq_peer q with rfl | rfl
    · refine ⟨[], ?_, fun _ => rfl⟩
      simp only [Function.update_self, Chan.all_send, h.silent q hnot, List.nil_append,
        List.append_nil]
    · simp only [Function.update_of_ne r.peer_ne] at hq ⊢
      exact h.sent _ hq
  · rcases r.eq_or_eq_peer q with rfl | rfl
    · simp only [Function.update_self] at hq
      exact absurd hsent hq
    · simp only [Function.update_of_ne r.peer_ne] at hq ⊢
      exact h.silent _ hq
  · rcases r.eq_or_eq_peer q with rfl | rfl
    · simp only [Function.update_self, Function.update_of_ne q.peer_ne]
      cases q
      · exact hrecv.1 rfl
      · exact fun _ => hrecv.2 rfl
    · have hold := h.received r.peer
      rw [Role.peer_peer] at hold ⊢
      simp only [Function.update_self, Function.update_of_ne r.peer_ne, Chan.taken_send]
      exact hold

/-- The failure of `mpa_recv_rr` ends either call. -/
theorem Role.afterRecv_neg {ret : ℤ} (h : ret < 0) : r.afterRecv ret = .done ret := by
  cases r <;> simp [Role.afterRecv, h]

/-- While `r` receives, the place of a failed call counts as before. -/
theorem Role.hasSent_done_iff {ret : ℤ} (h : ret ≠ 0) {pc : HsPc}
    (hpc : pc = .recvHdr ∨ ∃ hdr, pc = .recvRest hdr) : r.HasSent (.done ret) ↔ r.HasSent pc := by
  rcases hpc with rfl | ⟨hdr, rfl⟩
  all_goals cases r <;> simp [Role.HasSent, h]

/-- What is delivered to a side that receives is the start of its peer's frame. -/
theorem Hs.Inv.peer_all (h : s.Inv pdata) (hne : (s.out r.peer).all ≠ []) :
    ∃ rest, (s.out r.peer).all = r.peer.frame (pdata r.peer) ++ rest ∧
      (s.pc r.peer ≠ .done 0 → rest = []) := by
  by_cases hs : r.peer.HasSent (s.pc r.peer)
  · exact h.sent _ hs
  · exact absurd (h.silent _ hs) hne

/-- `r` reads at most `n` bytes. -/
theorem Hs.Inv.of_read {pc : HsPc} {stored : Role → List UInt8} (n : ℕ) (h : s.Inv pdata)
    (hne : s.pc r ≠ .done 0) (hsent : r.HasSent pc ↔ r.HasSent (s.pc r))
    (hst : stored r.peer = s.pdataRecv r.peer)
    (hr : r.Received (pdata r.peer) ((s.out r.peer).taken ++ (s.out r.peer).ready.take n) (stored r)
      pc) :
    Hs.Inv pdata ⟨Function.update s.pc r pc, stored,
      Function.update s.out r.peer ((s.out r.peer).read n)⟩ := by
  refine h.of_recv rfl hne hsent (fun q => ?_) ?_ hst ?_
  · by_cases hq : q = r.peer
    · subst hq
      simp only [Function.update_self, Chan.all_read]
    · simp only [Function.update_of_ne hq]
  · simp only [Function.update_of_ne r.peer_ne.symm]
  · simp only [Function.update_self]
    exact hr

/-- A prefix of a stream that starts with `cs`. -/
theorem take_of_append_eq {as bs cs ds : List UInt8} (h : as ++ bs = cs ++ ds)
    (hlen : cs.length ≤ as.length) : as.take cs.length = cs := by
  have htake := congrArg (List.take cs.length) h
  rwa [List.take_append_of_le_length hlen, List.take_left] at htake

/-- `r` receives the header, or too little of it. -/
theorem Hs.Inv.call_hdr (h : s.Inv pdata) (hpc : s.pc r = .recvHdr) :
    (s.call pdata r).Inv pdata := by
  by_cases hready : (s.out r.peer).ready = []
  · simp only [Hs.call, hpc, hready, if_true]
    exact h
  obtain ⟨htaken, hstored⟩ : (s.out r.peer).taken = [] ∧ s.pdataRecv r = [] := by
    have hrecv := h.received r
    rwa [hpc] at hrecv
  have hne : s.pc r ≠ .done 0 := by
    rw [hpc]
    exact fun he => by cases he
  simp only [Hs.call, hpc, hready, if_false, mpaRecvRrHdr]
  by_cases hlen : ((s.out r.peer).ready.take mpaRrSize).length < mpaRrSize
  · simp only [if_pos hlen, Role.afterRecv_neg (show (-1 : ℤ) < 0 by decide)]
    refine h.of_read _ hne ?_ rfl (fun he => by cases he)
    rw [hpc]
    exact Role.hasSent_done_iff (by decide) (.inl rfl)
  · simp only [if_neg hlen]
    have hlen' : mpaRrSize ≤ (s.out r.peer).ready.length := by
      rw [List.length_take] at hlen
      omega
    have hnil : (s.out r.peer).all ≠ [] := by
      simp [Chan.all, hready]
    obtain ⟨rest, hrest, -⟩ := h.peer_all hnil
    have hstream := @Chan.ready_eq (s.out r.peer) [] _ (by simpa using hrest) htaken
    rw [Role.frame, mpaSendRr, List.append_assoc] at hstream
    have hhdr := take_of_append_eq hstream (by simpa using hlen')
    rw [length_mpaSendHdr_bytes] at hhdr
    refine h.of_read _ hne ?_ rfl ⟨?_, ?_, hstored⟩
    · rw [hpc]
      cases r <;> simp [Role.HasSent]
    · rw [hhdr]
      exact MpaRr.ofBytes_bytes (length_mpaSendHdr_key _ _)
    · rw [htaken, hhdr, MpaRr.ofBytes_bytes (length_mpaSendHdr_key _ _)]
      rfl

/-- The server returns first: the client waits for its frame. -/
theorem Hs.Inv.server_first (h : s.Inv pdata) (hs : s.pc .server ≠ .done 0) :
    s.pc .client ≠ .done 0 := by
  intro hdone
  have hrecv := h.received .client
  rw [hdone] at hrecv
  have hall := h.silent .server hs
  have htaken : (s.out .server).taken = Role.frame .server (pdata .server) := (hrecv rfl).1
  rw [Chan.all, htaken, List.append_assoc] at hall
  exact mpaSendRr_ne_nil _ _ (List.append_eq_nil_iff.mp hall).1

/-- The success of `mpa_recv_rr`. -/
theorem Role.received_afterRecv {pdata : PData} {taken stored : List UInt8} {ret : ℤ} (h : 0 ≤ ret)
    (ht : taken = r.peer.frame pdata) (hs : stored = pdata.bytes) :
    r.Received pdata taken stored (r.afterRecv ret) := by
  cases r
  · simp only [Role.afterRecv, if_neg (not_lt.mpr h)]
    exact fun _ => ⟨ht, hs⟩
  · simp only [Role.afterRecv, if_neg (not_lt.mpr h)]
    exact ⟨(fun he => by cases he), fun _ => ⟨ht, hs⟩⟩

theorem Role.hasSent_afterRecv_iff {ret : ℤ} (h : 0 ≤ ret) (hdr : MpaRr) :
    r.HasSent (r.afterRecv ret) ↔ r.HasSent (.recvRest hdr) := by
  cases r <;> simp [Role.afterRecv, Role.HasSent, not_lt.mpr h]

/-- When the header is read. -/
theorem Hs.Inv.header {hdr : MpaRr} (h : s.Inv pdata) (hpc : s.pc r = .recvRest hdr) :
    hdr = mpaSendHdr (pdata r.peer) (r.peer = .client) ∧ (s.out r.peer).taken = hdr.bytes ∧
      s.pdataRecv r = [] := by
  have hrecv := h.received r
  rwa [hpc] at hrecv

/-- What is left of the peer's frame then: its private data, and nothing after
    it if it is a request. -/
theorem Hs.Inv.rest_eq {hdr : MpaRr} (h : s.Inv pdata) (hpc : s.pc r = .recvRest hdr) :
    ∃ rest, (s.out r.peer).ready ++ (s.out r.peer).flight = (pdata r.peer).bytes ++ rest ∧
      (r = .server → rest = []) := by
  obtain ⟨hhdr, htaken, -⟩ := h.header hpc
  have hnil : (s.out r.peer).all ≠ [] := by
    have hpos : hdr.bytes ≠ [] := by
      rw [hhdr, ← List.length_pos_iff, length_mpaSendHdr_bytes]
      decide
    simp [Chan.all, htaken, hpos]
  obtain ⟨rest, hrest, hdone⟩ := h.peer_all hnil
  rw [Role.frame, mpaSendRr, List.append_assoc] at hrest
  rw [hhdr] at htaken
  refine ⟨rest, Chan.ready_eq hrest htaken, fun hr => ?_⟩
  subst hr
  refine hdone (h.server_first ?_)
  rw [hpc]
  exact fun he => by cases he

/-- The second call of `recv` has failed, or has taken the private data. -/
theorem Hs.Inv.of_rest {hdr : MpaRr} {n : ℕ} {ret : ℤ} {stored : List UInt8} (h : s.Inv pdata)
    (hpc : s.pc r = .recvRest hdr)
    (hret : ret < 0 ∨ 0 ≤ ret ∧ (s.out r.peer).ready.take n = (pdata r.peer).bytes ∧
      stored = (pdata r.peer).bytes) :
    Hs.Inv pdata ⟨Function.update s.pc r (r.afterRecv ret), Function.update s.pdataRecv r stored,
      Function.update s.out r.peer ((s.out r.peer).read n)⟩ := by
  have hne : s.pc r ≠ .done 0 := by
    rw [hpc]
    exact fun he => by cases he
  rcases hret with hret | ⟨hret, htake, hst⟩
  · rw [Role.afterRecv_neg hret]
    refine h.of_read n hne ?_ (Function.update_of_ne r.peer_ne _ _)
      (fun he => absurd he (ne_of_lt hret))
    rw [hpc]
    exact Role.hasSent_done_iff (ne_of_lt hret) (.inr ⟨hdr, rfl⟩)
  · obtain ⟨hhdr, htaken, -⟩ := h.header hpc
    refine h.of_read n hne ?_ (Function.update_of_ne r.peer_ne _ _) ?_
    · rw [hpc]
      exact Role.hasSent_afterRecv_iff hret hdr
    · refine Role.received_afterRecv hret ?_ ?_
      · rw [htake, htaken, hhdr]
        rfl
      · rw [Function.update_self, hst]

/-- `r` goes on after the header of a frame without private data. -/
theorem Hs.Inv.call_empty {hdr : MpaRr} (h : s.Inv pdata) (hpc : s.pc r = .recvRest hdr)
    (h0 : (pdata r.peer).bytes = []) : (s.call pdata r).Inv pdata := by
  obtain ⟨hhdr, htaken, hstored⟩ := h.header hpc
  have hlen : hdr.pdLength = 0 := by rw [hhdr, pdLength_mpaSendHdr, h0, List.length_nil]
  have hreq : hdr.isReq = decide (r.peer = .client) := by rw [hhdr, isReq_mpaSendHdr]
  cases r with
  | client =>
    have hreq' : hdr.isReq = false := hreq
    have hsize : hdr.restSize = none := by
      simp [MpaRr.restSize, hlen, hreq']
    have hread := @Hs.Inv.of_rest pdata s .client hdr 0 mpaRrSize [] h hpc
      (.inr ⟨Int.natCast_nonneg _, by rw [h0]; rfl, h0.symm⟩)
    have hst : Function.update s.pdataRecv .client [] = s.pdataRecv := by
      rw [← hstored, Function.update_eq_self]
    have hout : Function.update s.out (Role.peer .client) ((s.out (Role.peer .client)).read 0) =
        s.out := by
      have hread0 : (s.out (Role.peer .client)).read 0 = s.out (Role.peer .client) := by
        simp [Chan.read]
      rw [hread0, Function.update_eq_self]
    rw [hst, hout] at hread
    simp only [Hs.call, hpc, hsize]
    exact hread
  | server =>
    have hreq' : hdr.isReq = true := hreq
    have hsize : hdr.restSize = some 4 := by
      simp [MpaRr.restSize, hlen, hreq']
    -- the client sends nothing more before it has the reply
    obtain ⟨rest, hstream, hrest⟩ := h.rest_eq hpc
    have hready : (s.out (Role.peer .server)).ready = [] := by
      rw [h0, hrest rfl] at hstream
      exact (List.append_eq_nil_iff.mp hstream).1
    simp only [Hs.call, hpc, hsize, hready, if_true, mpaRecvRrRest, hlen]
    exact h.of_rest hpc (.inr ⟨le_rfl, by rw [hready, h0]; rfl, h0.symm⟩)

/-- The second call of `recv` takes the private data if it finds enough. -/
theorem take_rest {ready flight bs rest : List UInt8} {n : ℕ} (h : ready ++ flight = bs ++ rest)
    (hlen : bs.length ≤ ready.length) (hn : n = bs.length ∨ bs.length ≤ n ∧ rest = []) :
    ready.take n = bs := by
  rcases hn with rfl | ⟨hn, rfl⟩
  · exact take_of_append_eq h hlen
  · rw [List.append_nil] at h
    have hflight : flight = [] := by
      have := congrArg List.length h
      rw [List.length_append] at this
      exact List.length_eq_zero_iff.mp (by omega)
    rw [hflight, List.append_nil] at h
    rw [h, List.take_of_length_le hn]

/-- `r` receives the private data, if it finds none or all of it. -/
theorem Hs.Inv.call_pdata {hdr : MpaRr} (h : s.Inv pdata) (hpc : s.pc r = .recvRest hdr)
    (h0 : (pdata r.peer).bytes ≠ [])
    (hwhole : (s.out r.peer).ready = [] ∨ hdr.pdLength ≤ (s.out r.peer).ready.length) :
    (s.call pdata r).Inv pdata := by
  obtain ⟨hhdr, htaken, -⟩ := h.header hpc
  obtain ⟨rest, hstream, hrest⟩ := h.rest_eq hpc
  have hlen : hdr.pdLength = (pdata r.peer).bytes.length := by rw [hhdr, pdLength_mpaSendHdr]
  have hreq : hdr.isReq = decide (r.peer = .client) := by rw [hhdr, isReq_mpaSendHdr]
  have hpos : hdr.pdLength ≠ 0 := by
    rw [hlen]
    exact fun he => h0 (List.length_eq_zero_iff.mp he)
  obtain ⟨n, hn⟩ : ∃ n, n = if hdr.isReq then hdr.pdLength + 4 else hdr.pdLength := ⟨_, rfl⟩
  have hsize : hdr.restSize = some n := by
    simp only [MpaRr.restSize, if_neg hpos, hn]
  simp only [Hs.call, hpc, hsize, mpaRecvRrRest, if_neg hpos]
  by_cases hready : (s.out r.peer).ready = []
  · simp only [hready, if_true]
    exact h.of_rest hpc (.inl (by decide))
  · have htake : (s.out r.peer).ready.take n = (pdata r.peer).bytes := by
      refine take_rest hstream (by rw [← hlen]; exact hwhole.resolve_left hready) ?_
      cases r with
      | client =>
        have hreq' : hdr.isReq = false := hreq
        exact .inl (by rw [hn, hreq', ← hlen]; rfl)
      | server =>
        have hreq' : hdr.isReq = true := hreq
        exact .inr ⟨by rw [hn, hreq', ← hlen]; exact Nat.le_add_right _ _, hrest rfl⟩
    simp only [hready, if_false, htake, hlen, lt_irrefl]
    exact h.of_rest hpc (.inr ⟨Int.natCast_nonneg _, htake, rfl⟩)

/-- Every step that finds no private data, or all of it, keeps the invariant. -/
theorem Hs.Inv.step (l : HsLabel) (h : s.Inv pdata) (hl : l.Whole s) :
    (Hs.step pdata l s).Inv pdata := by
  cases l with
  | call r =>
    show (s.call pdata r).Inv pdata
    cases hpc : s.pc r with
    | sendRr => exact h.call_send hpc
    | recvHdr => exact h.call_hdr hpc
    | recvRest hdr =>
      by_cases h0 : (pdata r.peer).bytes = []
      · exact h.call_empty hpc h0
      · exact h.call_pdata hpc h0 (hl hdr hpc)
    | done ret =>
      have hcall : s.call pdata r = s := by simp only [Hs.call, hpc]
      rw [hcall]
      exact h
  | deliver r k =>
    refine h.of_out rfl rfl (fun q => ?_) (fun q => ⟨[], ?_, fun _ => rfl⟩)
    · by_cases hq : q = r
      · subst hq
        simp only [Hs.step, Function.update_self, Chan.taken_deliver]
      · simp only [Hs.step, Function.update_of_ne hq]
    · by_cases hq : q = r
      · subst hq
        simp only [Hs.step, Function.update_self, Chan.all_deliver, List.append_nil]
      · simp only [Hs.step, Function.update_of_ne hq, List.append_nil]
  | app r bs =>
    by_cases hdone : s.pc r = .done 0
    · simp only [Hs.step, hdone, if_true]
      refine h.of_out rfl rfl (fun q => ?_) (fun q => ?_)
      · by_cases hq : q = r
        · subst hq
          simp only [Function.update_self, Chan.taken_send]
        · simp only [Function.update_of_ne hq]
      · by_cases hq : q = r
        · subst hq
          exact ⟨bs, by simp only [Function.update_self, Chan.all_send],
            fun hne => absurd hdone hne⟩
        · exact ⟨[], by simp only [Function.update_of_ne hq, List.append_nil], fun _ => rfl⟩
    · simp only [Hs.step, hdone, if_false]
      exact h

end

/-! ## Agreement -/

/-- For all private data and under every delivery, as long as no receive of
    private data finds only a part of it: two calls that have both returned 0
    agree. -/
theorem handshake_agreement (pdata : Role → PData) {s : Hs}
    (h : Reach (Hs.step pdata) HsLabel.Whole (· = Hs.init) s) : s.Agreed pdata := by
  have hinv : s.Inv pdata := by
    refine h.invariant ?_ (fun l s hs hl => hs.step l hl)
    rintro s rfl
    exact Hs.inv_init pdata
  intro hdone r
  have hrecv := hinv.received r
  rw [hdone r] at hrecv
  exact ⟨(hrecv rfl).2, (hrecv rfl).1⟩

/-- Two bytes for the server and one for the client, delivered whole. -/
theorem handshake_agreement_both :
    let pdata : Role → PData :=
      fun r => if r = .client then ⟨[1, 2], by decide⟩ else ⟨[7], by decide⟩
    let s := run (Hs.step pdata) [.call .client, .deliver .client 22, .call .server, .call .server,
      .call .server, .deliver .server 21, .call .client, .call .client] Hs.init
    (∀ r, s.pc r = .done 0) ∧ s.Agreed pdata ∧ s.pdataRecv .server = [1, 2] ∧
      s.pdataRecv .client = [7] := by
  intro pdata s
  have hdone : ∀ r, s.pc r = .done 0 := by
    intro r
    cases r <;> decide +kernel
  have hagreed : s.Agreed pdata := handshake_agreement pdata
    (Reach.run _ (Reach.start rfl) (by decide +kernel))
  exact ⟨hdone, hagreed, (hagreed hdone .server).1, (hagreed hdone .client).1⟩

/-- The second of two bytes is late: the server has the first, both calls return
    0, and the second is where the first FPDU should be. -/
theorem handshake_part_received :
    let pdata : Role → PData :=
      fun r => if r = .client then ⟨[1, 2], by decide⟩ else ⟨[], by decide⟩
    let s := run (Hs.step pdata) [.call .client, .deliver .client 21, .call .server, .call .server,
      .deliver .client 1, .call .server, .deliver .server 20, .call .client, .call .client] Hs.init
    Reach (Hs.step pdata) (fun _ _ => True) (· = Hs.init) s ∧ (∀ r, s.pc r = .done 0) ∧
      s.pdataRecv .server = [1] ∧ (s.out .client).ready = [2] ∧ ¬s.Agreed pdata := by
  intro pdata s
  have hdone : ∀ r, s.pc r = .done 0 := by
    intro r
    cases r <;> decide +kernel
  have hrecv : s.pdataRecv .server = [1] := by decide +kernel
  refine ⟨Reach.run _ (Reach.start rfl) (by decide +kernel), hdone, hrecv, by decide +kernel, ?_⟩
  intro hagreed
  have := (hagreed hdone .server).1
  rw [hrecv] at this
  exact absurd this (by decide)

end SoftUiWarp
