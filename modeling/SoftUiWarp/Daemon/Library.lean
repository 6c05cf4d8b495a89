import SoftUiWarp.Common.ByteOrder
import SoftUiWarp.Daemon.Dispatch
import SoftUiWarp.Lib.TcpStream

/-!
# The library and the daemon (`libsuiw/softuiwarp.cpp`, `libsuiw/libsuiwd.cpp`)

The library asks for an event channel on its first connection and connects once
more for the channel itself; the daemon accepts that connection and from then on
sends every event back that it receives there. Here `workloop` takes its steps
one system call at a time, between those of the library's threads and of TCP.

* Connections are accepted in the order they are made, and the kernel gives the
  daemon the lowest free descriptor: 3 is `server_fd`, 4 the first connection
  of the library, and `main` passes -1 for DPDK.
* `poll` passes over negative descriptors.
* A call of `recv` without bytes waits, unless the other side has closed and
  nothing more comes. A call of `send` takes at least one byte or fails.
* The `rdma_cm_id` of an event is its address.

Results:
* `bytes_echoed`: what a channel brings back is a first part of what was sent.
* `events_echoed`: the events read from a channel are the first ones sent there.
* `channels_served`: the channels of the daemon are the connections of the
  library in their order, each handled as the event channel it is.
-/

namespace SoftUiWarp

open Endian Runs TcpStream

/-! ## What is sent -/

/-- `enum rdma_cm_event_type`, as far as the library sends it. -/
inductive RdmaCmEventType
  | addrResolved
  | routeResolved
  deriving DecidableEq, Repr

def RdmaCmEventType.code : RdmaCmEventType → UInt32
  | .addrResolved => 0
  | .routeResolved => 2

/-- The bytes of a `struct rdma_cm_event` with `id` and `event` set and 0
    elsewhere. -/
def cmEvent (event : RdmaCmEventType) (id : UInt64) : List UInt8 :=
  bytes64 id ++ List.replicate 8 0 ++ bytes32 event.code ++ List.replicate 60 0

theorem length_cmEvent (event : RdmaCmEventType) (id : UInt64) : (cmEvent event id).length = 80 := by
  simp [cmEvent]

/-- The bytes of a `struct daemon_msg` with the type `DAEMON_CREATE_EC`. -/
def createEcMsg : List UInt8 := bytes32 0

/-! ## The state -/

/-- One connection, with what the library and the daemon have sent on it. -/
structure Conn where
  up : Chan := {}
  down : Chan := {}
  /-- The library has closed it. -/
  closed : Bool := false

/-- A pass over the array: the variables `i` and `pollret`, and what `poll` and
    the start of the pass have left. -/
structure Scan where
  i : ℕ
  pollret : ℕ
  revents : ℕ → UInt16
  ecStart : ℕ
  cqStart : ℕ

/-- Where `workloop` is. -/
inductive DaemonPc
  /-- `poll` follows. -/
  | poll
  /-- At the top of the loop of lines 201–233. -/
  | scan (c : Scan)
  /-- In `create_event_channel` or `create_completion_queue`, `accept` follows. -/
  | accept (c : Scan) (type : DaemonMsgT)
  /-- In `ec_handle_recv`, `send` follows. -/
  | echo (c : Scan) (fd : ℤ) (idx : ℕ) (event : List UInt8)
  | ended (e : Exit)

structure Ipc where
  /-- The first connection of the library. -/
  control : Conn
  /-- The connections of the event channels, in the order they were made. -/
  conns : ℕ → Conn
  connected : ℕ
  accepted : ℕ
  daemon : Daemon
  pc : DaemonPc

def libFd : ℤ := 4

def dpdkFd : ℤ := -1

/-- The descriptor of the `k`th connection that is accepted. -/
def connFd (k : ℕ) : ℤ := k + 5

/-- The connection of a descriptor. -/
def connOf (fd : ℤ) : ℕ := (fd - 5).toNat

def Ipc.setConn (s : Ipc) (k : ℕ) (c : Conn) : Ipc :=
  { s with conns := Function.update s.conns k c }

/-! ## The library -/

/-- `send` in `suiw_create_event_channel` (line 114), which takes `n` bytes. -/
def Ipc.createEventChannel (s : Ipc) (n : ℕ) : Ipc :=
  { s with control := { s.control with up := s.control.up.send (createEcMsg.take n) } }

/-- `connect_to_daemon` in `suiw_create_event_channel`. -/
def Ipc.connectToDaemon (s : Ipc) : Ipc := { s with connected := s.connected + 1 }

/-- `suiw_resolve_addr` and `suiw_resolve_route` (lines 145–162) on channel `k`;
    `send` takes `n` bytes. -/
def Ipc.resolve (s : Ipc) (k : ℕ) (event : RdmaCmEventType) (id : UInt64) (n : ℕ) : Ipc :=
  if k < s.connected then
    let c := s.conns k
    s.setConn k { c with up := c.up.send ((cmEvent event id).take n) }
  else s

/-- `suiw_get_cm_event` (lines 164–170). -/
def Ipc.getCmEvent (s : Ipc) (k : ℕ) : Ipc :=
  let c := s.conns k
  s.setConn k { c with down := c.down.read rdmaCmEventSize.toNat }

/-- `suiw_destroy_event_channel` (lines 122–126). -/
def Ipc.destroyEventChannel (s : Ipc) (k : ℕ) : Ipc :=
  s.setConn k { s.conns k with closed := true }

/-! ## The daemon -/

/-- What the system calls of a step return, where the state does not say. -/
structure DaemonIo where
  fails : Bool
  revents : ℕ → UInt16
  /-- What `dpdk_handle_recv` and `cq_handle_recv` return. -/
  ret : ℤ
  /-- The bytes `send` takes. -/
  sent : ℕ

/-- The next descriptor. -/
def Scan.next (c : Scan) : Scan := { c with i := c.i + 1, pollret := c.pollret - 1 }

/-- After a handler has returned `ret`. -/
def Scan.finish (c : Scan) (call : Call) (ret : ℤ) : DaemonPc :=
  match exitAfter ret call with
  | some e => .ended e
  | none => .scan c.next

/-- `recv` of the control connection (line 92), with `MSG_WAITALL`. -/
def Ipc.libRecv (s : Ipc) (io : DaemonIo) (c : Scan) : Ipc :=
  if io.fails then { s with pc := c.finish (.lib libFd) (-1) }
  else
    let up := s.control.up
    let rcvd := up.ready.take 4
    if rcvd.length < 4 ∧ ¬(s.control.closed = true ∧ up.flight = []) then s
    else
      let s := { s with control := { s.control with up := up.read 4 } }
      if rcvd.length < 4 then
        { s with pc := c.finish (.lib libFd) (libHandleRecv ⟨rcvd.length, 0, 0⟩ s.daemon.vecs).1 }
      else
        match DaemonMsgT.ofCode (word32 rcvd) with
        | some .createEc => { s with pc := .accept c .createEc }
        | some .createCq => { s with pc := .accept c .createCq }
        | _ => { s with pc := c.finish (.lib libFd) 4 }

/-- `recv` of an event channel (line 125). -/
def Ipc.ecRecv (s : Ipc) (io : DaemonIo) (c : Scan) (fd : ℤ) (idx : ℕ) : Ipc :=
  if io.fails then { s with pc := c.finish (.ec fd idx) (-1) }
  else
    let conn := s.conns (connOf fd)
    let event := conn.up.ready.take rdmaCmEventSize.toNat
    if event = [] then
      if conn.closed = true ∧ conn.up.flight = [] then { s with pc := c.finish (.ec fd idx) 0 }
      else s
    else
      let s := s.setConn (connOf fd) { conn with up := conn.up.read rdmaCmEventSize.toNat }
      if event.length < 80 then
        { s with pc := c.finish (.ec fd idx) (ecHandleRecv ⟨event.length, 0⟩) }
      else { s with pc := .echo c fd idx event }

/-- The handler of a descriptor, up to its second system call. -/
def Ipc.handle (s : Ipc) (io : DaemonIo) (c : Scan) : Call → Ipc
  | .lib _ => s.libRecv io c
  | .dpdk fd => { s with pc := c.finish (.dpdk fd) io.ret }
  | .ec fd idx => s.ecRecv io c fd idx
  | .cq fd idx => { s with pc := c.finish (.cq fd idx) io.ret }

/-- One system call of `workloop`, or one descriptor passed over. -/
def Ipc.daemonStep (s : Ipc) (io : DaemonIo) : Ipc :=
  match s.pc with
  | .poll =>
    let fds := s.daemon.pollFds libFd dpdkFd
    let s := { s with daemon := { s.daemon with fds := fds } }
    let ecStart := 2
    let cqStart := ecStart + s.daemon.vecs.ecFds.length
    if io.fails then { s with pc := .ended (.returned (-1)) }
    else
      let revents := fun i => if fds.getD i 0 < 0 then 0 else io.revents i
      let pollret := (List.range fds.length).countP fun i => revents i ≠ 0
      { s with pc := .scan ⟨0, pollret, revents, ecStart, cqStart⟩ }
  | .scan c =>
    if c.pollret = 0 then { s with pc := .poll }
    else
      match s.daemon.fds[c.i]? with
      | none => { s with pc := .poll }
      | some fd =>
        if c.revents c.i = 0 then { s with pc := .scan { c with i := c.i + 1 } }
        else
          match exitOn (c.revents c.i) with
          | some e => { s with pc := .ended e }
          | none =>
            match callAt c.ecStart c.cqStart s.daemon.vecs c.i fd with
            | some call => s.handle io c call
            | none => { s with pc := .scan c.next }
  | .accept c type =>
    if ¬io.fails ∧ s.accepted = s.connected then s
    else
      let fd := if io.fails then -1 else connFd s.accepted
      let (ret, vecs) := libHandleRecv ⟨4, if type = .createEc then 0 else 1, fd⟩ s.daemon.vecs
      { s with
        accepted := if io.fails then s.accepted else s.accepted + 1
        daemon := { s.daemon with vecs := vecs }
        pc := c.finish (.lib libFd) ret }
  | .echo c fd idx event =>
    let conn := s.conns (connOf fd)
    let sent := if io.fails then 0 else min (max 1 io.sent) 80
    let s := s.setConn (connOf fd) { conn with down := conn.down.send (event.take sent) }
    { s with pc := c.finish (.ec fd idx) (ecHandleRecv ⟨80, if io.fails then -1 else sent⟩) }
  | .ended _ => s

/-! ## Runs -/

inductive IpcLabel
  | createEventChannel (n : ℕ)
  | connectToDaemon
  | resolve (k : ℕ) (event : RdmaCmEventType) (id : UInt64) (n : ℕ)
  | getCmEvent (k : ℕ)
  | destroyEventChannel (k : ℕ)
  /-- The library is unloaded. -/
  | fini
  /-- TCP delivers `n` bytes. -/
  | deliverControl (n : ℕ)
  | deliverUp (k : ℕ) (n : ℕ)
  | deliverDown (k : ℕ) (n : ℕ)
  | daemon (io : DaemonIo)

def Ipc.step : IpcLabel → Ipc → Ipc
  | .createEventChannel n, s => s.createEventChannel n
  | .connectToDaemon, s => s.connectToDaemon
  | .resolve k event id n, s => s.resolve k event id n
  | .getCmEvent k, s => s.getCmEvent k
  | .destroyEventChannel k, s => s.destroyEventChannel k
  | .fini, s => { s with control := { s.control with closed := true } }
  | .deliverControl n, s => { s with control := { s.control with up := s.control.up.deliver n } }
  | .deliverUp k n, s => s.setConn k { s.conns k with up := (s.conns k).up.deliver n }
  | .deliverDown k n, s => s.setConn k { s.conns k with down := (s.conns k).down.deliver n }
  | .daemon io, s => s.daemonStep io

/-- The library is loaded and the daemon has accepted its first connection. -/
def Ipc.start : Ipc where
  control := {}
  conns _ := {}
  connected := 0
  accepted := 0
  daemon := Daemon.start libFd dpdkFd ⟨[], []⟩
  pc := .poll

/-! ## The steps of the daemon -/

/-- The daemon has received no event that it has not sent back. -/
def DaemonPc.Quiet : DaemonPc → Prop
  | .echo _ _ _ _ => False
  | _ => True

def DaemonPc.Ended : DaemonPc → Prop
  | .ended _ => True
  | _ => False

theorem DaemonPc.Ended.quiet {pc : DaemonPc} (h : pc.Ended) : pc.Quiet := by
  cases pc with
  | ended e => trivial
  | _ => exact h.elim

theorem Scan.finish_quiet (c : Scan) (call : Call) (ret : ℤ) : (c.finish call ret).Quiet := by
  unfold Scan.finish
  split <;> trivial

theorem Scan.finish_ec_fails (c : Scan) (fd : ℤ) (idx : ℕ) : (c.finish (.ec fd idx) (-1)).Ended := by
  trivial

/-- A part of an event is an error. -/
theorem ecHandleRecv_short {rcvd : ℤ} (h0 : 0 < rcvd) (h : rcvd < 80) (sent : ℤ) :
    ecHandleRecv ⟨rcvd, sent⟩ = -1 := by
  simp only [ecHandleRecv, rdmaCmEventSize]
  split_ifs <;> omega

theorem ecHandleRecv_cut {sent : ℤ} (h0 : 0 < sent) (h : sent < 80) :
    ecHandleRecv ⟨80, sent⟩ = -1 := by
  simp only [ecHandleRecv, rdmaCmEventSize]
  split_ifs <;> omega

/-- What a step of the daemon does to the connections of the event channels. -/
inductive DaemonTurn (s : Ipc) : Ipc → Prop
  | rests : DaemonTurn s s
  | moves {control : Conn} {accepted : ℕ} {daemon : Daemon} {pc : DaemonPc} (hpc : s.pc.Quiet)
      (hrun : ¬s.pc.Ended) (hpc' : pc.Quiet) :
      DaemonTurn s
        { s with control := control, accepted := accepted, daemon := daemon, pc := pc }
  /-- An event is received, or a part of one. -/
  | receives {c : Scan} {fd : ℤ} {pc : DaemonPc} (hpc : s.pc = .scan c)
      (hpc' : (∃ idx, pc = .echo c fd idx ((s.conns (connOf fd)).up.ready.take 80)) ∨ pc.Ended) :
      DaemonTurn s { s.setConn (connOf fd) { s.conns (connOf fd) with
        up := (s.conns (connOf fd)).up.read 80 } with pc := pc }
  /-- The event in hand is sent back, or a part of it. -/
  | sends {c : Scan} {fd : ℤ} {idx n : ℕ} {event : List UInt8} {pc : DaemonPc}
      (hpc : s.pc = .echo c fd idx event) (hpc' : pc.Quiet) (hn : pc.Ended ∨ n = 80) :
      DaemonTurn s { s.setConn (connOf fd) { s.conns (connOf fd) with
        down := (s.conns (connOf fd)).down.send (event.take n) } with pc := pc }

section

variable {s : Ipc}

theorem turn_libRecv (io : DaemonIo) {c : Scan} (hpc : s.pc = .scan c) :
    DaemonTurn s (s.libRecv io c) := by
  have hquiet : s.pc.Quiet := by rw [hpc]; trivial
  have hrun : ¬s.pc.Ended := by rw [hpc]; exact id
  unfold Ipc.libRecv
  dsimp only
  split_ifs
  · exact .moves hquiet hrun (c.finish_quiet _ _)
  · exact .rests
  · exact .moves hquiet hrun (c.finish_quiet _ _)
  · split
    · exact .moves hquiet hrun trivial
    · exact .moves hquiet hrun trivial
    · exact .moves hquiet hrun (c.finish_quiet _ _)

theorem turn_ecRecv (io : DaemonIo) {c : Scan} (hpc : s.pc = .scan c) (fd : ℤ) (idx : ℕ) :
    DaemonTurn s (s.ecRecv io c fd idx) := by
  have hquiet : s.pc.Quiet := by rw [hpc]; trivial
  have hrun : ¬s.pc.Ended := by rw [hpc]; exact id
  unfold Ipc.ecRecv
  dsimp only
  split_ifs with hfail hnil hclosed hlen
  · exact .moves hquiet hrun (c.finish_quiet _ _)
  · exact .moves hquiet hrun (c.finish_quiet _ _)
  · exact .rests
  · refine .receives hpc (.inr ?_)
    -- a part of an event ends `workloop`
    have hpos : 0 < ((s.conns (connOf fd)).up.ready.take rdmaCmEventSize.toNat).length :=
      List.length_pos_iff.mpr hnil
    rw [ecHandleRecv_short (by omega) (by omega)]
    exact c.finish_ec_fails fd idx
  · exact .receives hpc (.inl ⟨idx, rfl⟩)

/-- What a step of the daemon can do. -/
theorem daemonStep_turn (s : Ipc) (io : DaemonIo) : DaemonTurn s (s.daemonStep io) := by
  unfold Ipc.daemonStep
  cases hpc : s.pc with
  | poll =>
    have hquiet : s.pc.Quiet := by rw [hpc]; trivial
    have hrun : ¬s.pc.Ended := by rw [hpc]; exact id
    dsimp only
    split_ifs
    · exact .moves hquiet hrun trivial
    · exact .moves hquiet hrun trivial
  | scan c =>
    have hquiet : s.pc.Quiet := by rw [hpc]; trivial
    have hrun : ¬s.pc.Ended := by rw [hpc]; exact id
    dsimp only
    split
    · exact .moves hquiet hrun trivial
    split
    · exact .moves hquiet hrun trivial
    split
    · exact .moves hquiet hrun trivial
    split
    · exact .moves hquiet hrun trivial
    split
    · rename_i call _
      cases call with
      | lib fd => exact turn_libRecv io hpc
      | dpdk fd => exact .moves hquiet hrun (c.finish_quiet _ _)
      | ec fd idx => exact turn_ecRecv io hpc fd idx
      | cq fd idx => exact .moves hquiet hrun (c.finish_quiet _ _)
    · exact .moves hquiet hrun trivial
  | accept c type =>
    have hquiet : s.pc.Quiet := by rw [hpc]; trivial
    have hrun : ¬s.pc.Ended := by rw [hpc]; exact id
    dsimp only
    split
    · exact .rests
    · exact .moves hquiet hrun (c.finish_quiet _ _)
  | echo c fd idx event =>
    dsimp only
    refine .sends hpc (c.finish_quiet _ _) ?_
    split_ifs with hfail
    · exact .inl (c.finish_ec_fails fd idx)
    · by_cases hn : min (max 1 io.sent) 80 = 80
      · exact .inr hn
      · rw [ecHandleRecv_cut (by omega) (by omega)]
        exact .inl (c.finish_ec_fails fd idx)
  | ended e => exact .rests

end

/-! ## Echo -/

/-- The event that the daemon has received on connection `k` and not sent back. -/
def DaemonPc.inHand (k : ℕ) : DaemonPc → List UInt8
  | .echo _ fd _ event => if connOf fd = k then event else []
  | _ => []

/-- What the daemon has sent back on connection `k` is what it has received
    there, but for the event in hand; when it ends the last event may be cut. -/
structure Echoes (k : ℕ) (s : Ipc) : Prop where
  hand : ∀ j, (s.pc.inHand j).length ≤ 80
  running : ¬s.pc.Ended → (s.conns k).up.taken = (s.conns k).down.all ++ s.pc.inHand k
  back : (s.conns k).down.all <+: (s.conns k).up.taken

section

variable {s : Ipc} {k : ℕ}

theorem DaemonPc.Quiet.inHand {pc : DaemonPc} (h : pc.Quiet) (k : ℕ) : pc.inHand k = [] := by
  cases pc with
  | echo c fd idx event => exact h.elim
  | _ => rfl

@[simp] theorem setConn_self (c : Conn) : (s.setConn k c).conns k = c := Function.update_self _ _ _

theorem setConn_of_ne {j : ℕ} (h : j ≠ k) (c : Conn) : (s.setConn j c).conns k = s.conns k :=
  Function.update_of_ne (Ne.symm h) _ _

/-- The library and TCP change neither what the daemon has received nor what it
    has sent. -/
theorem Echoes.setConn (h : Echoes k s) {j : ℕ} {c : Conn} (hup : c.up.taken = (s.conns j).up.taken)
    (hdown : c.down.all = (s.conns j).down.all) : Echoes k (s.setConn j c) := by
  have hconn : ((s.setConn j c).conns k).up.taken = (s.conns k).up.taken ∧
      ((s.setConn j c).conns k).down.all = (s.conns k).down.all := by
    by_cases hj : j = k
    · subst hj
      rw [setConn_self]
      exact ⟨hup, hdown⟩
    · rw [setConn_of_ne hj]
      exact ⟨rfl, rfl⟩
  refine ⟨h.hand, fun hrun => ?_, ?_⟩
  · rw [hconn.1, hconn.2]
    exact h.running hrun
  · rw [hconn.1, hconn.2]
    exact h.back

/-- An event is received, or a part of one. -/
theorem Echoes.receives (h : Echoes k s) {c : Scan} {fd : ℤ} {pc : DaemonPc} (hpc : s.pc = .scan c)
    (hpc' : (∃ idx, pc = .echo c fd idx ((s.conns (connOf fd)).up.ready.take 80)) ∨ pc.Ended) :
    Echoes k { s.setConn (connOf fd) { s.conns (connOf fd) with
      up := (s.conns (connOf fd)).up.read 80 } with pc := pc } := by
  have heq := h.running (by rw [hpc]; exact id)
  have hquiet : s.pc.Quiet := by rw [hpc]; trivial
  rw [hquiet.inHand, List.append_nil] at heq
  have hhand : ∀ j, (pc.inHand j).length ≤ 80 := by
    intro j
    rcases hpc' with ⟨idx, rfl⟩ | hend
    · rw [DaemonPc.inHand]
      split
      · exact List.length_take_le _ _
      · exact Nat.zero_le _
    · simp [hend.quiet.inHand]
  by_cases hk : connOf fd = k
  · subst hk
    refine ⟨hhand, fun hrun => ?_, ?_⟩
    · rcases hpc' with ⟨idx, rfl⟩ | hend
      · show ((s.setConn _ _).conns _).up.taken = ((s.setConn _ _).conns _).down.all ++ _
        rw [setConn_self, DaemonPc.inHand, if_pos rfl, ← heq]
        rfl
      · exact absurd hend hrun
    · show ((s.setConn _ _).conns _).down.all <+: ((s.setConn _ _).conns _).up.taken
      rw [setConn_self]
      show (s.conns (connOf fd)).down.all <+: (s.conns (connOf fd)).up.taken ++ _
      exact h.back.trans (List.prefix_append _ _)
  · have hconn : ∀ c', (s.setConn (connOf fd) c').conns k = s.conns k := setConn_of_ne hk
    refine ⟨hhand, fun hrun => ?_, ?_⟩
    · have hnone : pc.inHand k = [] := by
        rcases hpc' with ⟨idx, rfl⟩ | hend
        · rw [DaemonPc.inHand, if_neg hk]
        · exact hend.quiet.inHand k
      simp only [hconn, hnone, List.append_nil]
      exact heq
    · simp only [hconn]
      exact h.back

/-- The event in hand is sent back, or a part of it. -/
theorem Echoes.sends (h : Echoes k s) {c : Scan} {fd : ℤ} {idx n : ℕ} {event : List UInt8}
    {pc : DaemonPc} (hpc : s.pc = .echo c fd idx event) (hpc' : pc.Quiet) (hn : pc.Ended ∨ n = 80) :
    Echoes k { s.setConn (connOf fd) { s.conns (connOf fd) with
      down := (s.conns (connOf fd)).down.send (event.take n) } with pc := pc } := by
  have heq := h.running (by rw [hpc]; exact id)
  have hlen := h.hand (connOf fd)
  rw [hpc, DaemonPc.inHand, if_pos rfl] at hlen
  by_cases hk : connOf fd = k
  · subst hk
    rw [hpc, DaemonPc.inHand, if_pos rfl] at heq
    refine ⟨fun j => by simp [hpc'.inHand], fun hrun => ?_, ?_⟩
    · obtain rfl : n = 80 := hn.resolve_left hrun
      show ((s.setConn _ _).conns _).up.taken = ((s.setConn _ _).conns _).down.all ++ _
      rw [setConn_self, hpc'.inHand, List.append_nil, Chan.all_send,
        List.take_of_length_le hlen]
      exact heq
    · show ((s.setConn _ _).conns _).down.all <+: ((s.setConn _ _).conns _).up.taken
      rw [setConn_self, Chan.all_send]
      show (s.conns (connOf fd)).down.all ++ _ <+: (s.conns (connOf fd)).up.taken
      rw [heq]
      exact (List.prefix_append_right_inj _).mpr (List.take_prefix _ _)
  · have hconn : ∀ c', (s.setConn (connOf fd) c').conns k = s.conns k := setConn_of_ne hk
    rw [hpc, DaemonPc.inHand, if_neg hk, List.append_nil] at heq
    refine ⟨fun j => by simp [hpc'.inHand], fun _ => ?_, ?_⟩
    · simp only [hconn, hpc'.inHand, List.append_nil]
      exact heq
    · simp only [hconn]
      exact h.back

theorem echoes_daemonStep (h : Echoes k s) (io : DaemonIo) : Echoes k (s.daemonStep io) := by
  have hturn := daemonStep_turn s io
  generalize s.daemonStep io = s' at hturn
  cases hturn with
  | rests => exact h
  | moves hpc hrun hpc' =>
    refine ⟨fun j => by simp [hpc'.inHand], fun _ => ?_, h.back⟩
    have heq := h.running hrun
    rw [hpc.inHand] at heq
    simp only [hpc'.inHand]
    exact heq
  | receives hpc hpc' => exact h.receives hpc hpc'
  | sends hpc hpc' hn => exact h.sends hpc hpc' hn

theorem echoes_step (l : IpcLabel) (h : Echoes k s) : Echoes k (Ipc.step l s) := by
  cases l with
  | daemon io => exact echoes_daemonStep h io
  | resolve j event id n =>
    show Echoes k (s.resolve j event id n)
    unfold Ipc.resolve
    split
    · exact h.setConn rfl rfl
    · exact h
  | getCmEvent j => exact h.setConn rfl (Chan.all_read _ _)
  | destroyEventChannel j => exact h.setConn rfl rfl
  | deliverUp j n => exact h.setConn rfl rfl
  | deliverDown j n => exact h.setConn rfl (Chan.all_deliver _ _)
  | _ => exact ⟨h.hand, h.running, h.back⟩

/-- What the library has read from a connection is a first part of what it has
    sent there, whatever fails and however the bytes are cut. -/
theorem bytes_echoed (ls : List IpcLabel) (k : ℕ) :
    let c := (run Ipc.step ls Ipc.start).conns k
    c.down.taken <+: c.up.all := by
  intro c
  have hinv : Echoes k (run Ipc.step ls Ipc.start) :=
    run_invariant (fun l s => echoes_step l) ls
      ⟨fun j => by simp [Ipc.start, DaemonPc.inHand], fun _ => rfl, List.prefix_rfl⟩
  have hdown : c.down.taken <+: c.down.all := by
    rw [Chan.all, List.append_assoc]
    exact List.prefix_append _ _
  have hup : c.up.taken <+: c.up.all := by
    rw [Chan.all, List.append_assoc]
    exact List.prefix_append _ _
  exact hdown.trans (hinv.back.trans hup)

/-- The events that a step sends on connection `k`, if all their bytes are taken. -/
def eventSent (k : ℕ) : IpcLabel → Ipc → List (List UInt8)
  | .resolve j event id _, _ => if j = k then [cmEvent event id] else []
  | _, _ => []

/-- The events that a step reads from connection `k`. -/
def eventGot (k : ℕ) : IpcLabel → Ipc → List (List UInt8)
  | .getCmEvent j, s => if j = k then [(s.conns k).down.ready.take rdmaCmEventSize.toNat] else []
  | _, _ => []

/-- A call on channel `k` returns 0. -/
def Succeeds (k : ℕ) : IpcLabel → Ipc → Prop
  | .resolve j _ _ n, s => j = k → k < s.connected ∧ 80 ≤ n
  | .getCmEvent j, s => j = k → 80 ≤ (s.conns k).down.ready.length
  | _, _ => True

instance (k : ℕ) : ∀ (l : IpcLabel) (s : Ipc), Decidable (Succeeds k l s)
  | .resolve j _ _ n, s => inferInstanceAs (Decidable (j = k → k < s.connected ∧ 80 ≤ n))
  | .getCmEvent j, s => inferInstanceAs (Decidable (j = k → 80 ≤ (s.conns k).down.ready.length))
  | .createEventChannel _, _ => isTrue trivial
  | .connectToDaemon, _ => isTrue trivial
  | .destroyEventChannel _, _ => isTrue trivial
  | .fini, _ => isTrue trivial
  | .deliverControl _, _ => isTrue trivial
  | .deliverUp _ _, _ => isTrue trivial
  | .deliverDown _ _, _ => isTrue trivial
  | .daemon _, _ => isTrue trivial

/-- What the library has sent on a connection and what it has read. -/
def Conn.same (c c' : Conn) : Prop := c'.up.all = c.up.all ∧ c'.down.taken = c.down.taken

theorem setConn_same {j : ℕ} {c : Conn} (h : (s.conns j).same c) :
    (s.conns k).same ((s.setConn j c).conns k) := by
  by_cases hj : j = k
  · subst hj
    rw [setConn_self]
    exact h
  · rw [setConn_of_ne hj]
    exact ⟨rfl, rfl⟩

theorem daemonStep_same (s : Ipc) (io : DaemonIo) (k : ℕ) :
    (s.conns k).same ((s.daemonStep io).conns k) := by
  have hturn := daemonStep_turn s io
  generalize s.daemonStep io = s' at hturn
  cases hturn with
  | rests => exact ⟨rfl, rfl⟩
  | moves => exact ⟨rfl, rfl⟩
  | receives => exact setConn_same ⟨Chan.all_read _ _, rfl⟩
  | sends => exact setConn_same ⟨rfl, rfl⟩

/-- Only the library's calls send to the daemon and read from it. -/
theorem Ipc.step_bytes (l : IpcLabel) (h : Succeeds k l s) :
    ((Ipc.step l s).conns k).up.all = (s.conns k).up.all ++ (eventSent k l s).flatten ∧
      ((Ipc.step l s).conns k).down.taken = (s.conns k).down.taken ++ (eventGot k l s).flatten := by
  have same {c : Conn} (hsame : (s.conns k).same c) : c.up.all = (s.conns k).up.all ++ [].flatten ∧
      c.down.taken = (s.conns k).down.taken ++ [].flatten := by
    rw [List.flatten_nil, List.append_nil, List.append_nil]
    exact hsame
  cases l with
  | resolve j event id n =>
    by_cases hj : j = k
    · subst hj
      obtain ⟨hcon, hn⟩ := h rfl
      have hevent : eventSent j (.resolve j event id n) s = [cmEvent event id] := if_pos rfl
      have htake : (cmEvent event id).take n = cmEvent event id :=
        List.take_of_length_le ((length_cmEvent event id).trans_le hn)
      rw [hevent, Ipc.step, Ipc.resolve, if_pos hcon, setConn_self, htake]
      simp [eventGot]
    · have hevent : eventSent k (.resolve j event id n) s = [] := if_neg hj
      rw [hevent]
      refine same ?_
      show (s.conns k).same ((s.resolve j event id n).conns k)
      unfold Ipc.resolve
      split
      · rw [setConn_of_ne hj]
        exact ⟨rfl, rfl⟩
      · exact ⟨rfl, rfl⟩
  | getCmEvent j =>
    by_cases hj : j = k
    · subst hj
      have hevent : eventGot j (.getCmEvent j) s =
          [(s.conns j).down.ready.take rdmaCmEventSize.toNat] := if_pos rfl
      rw [hevent, Ipc.step, Ipc.getCmEvent, setConn_self]
      simp [eventSent, Chan.read]
    · have hevent : eventGot k (.getCmEvent j) s = [] := if_neg hj
      rw [hevent]
      exact same (setConn_of_ne hj _ ▸ ⟨rfl, rfl⟩)
  | destroyEventChannel j => exact same (setConn_same ⟨rfl, rfl⟩)
  | deliverUp j n => exact same (setConn_same ⟨Chan.all_deliver _ _, rfl⟩)
  | deliverDown j n => exact same (setConn_same ⟨rfl, rfl⟩)
  | daemon io => exact same (daemonStep_same s io k)
  | _ => exact same ⟨rfl, rfl⟩

/-- Lists of equal pieces are compared piece by piece. -/
theorem prefix_of_flatten {α : Type} {n : ℕ} (hn : 0 < n) {xs ys : List (List α)}
    (hxs : ∀ x ∈ xs, x.length = n) (hys : ∀ y ∈ ys, y.length = n) (h : xs.flatten <+: ys.flatten) :
    xs <+: ys := by
  induction xs generalizing ys with
  | nil => exact List.nil_prefix
  | cons x xs ih =>
    have hx : x.length = n := hxs x (by simp)
    cases ys with
    | nil =>
      have hlen := h.length_le
      simp only [List.flatten_cons, List.length_append, List.flatten_nil, List.length_nil] at hlen
      omega
    | cons y ys =>
      obtain ⟨rest, hrest⟩ := h
      rw [List.flatten_cons, List.flatten_cons, List.append_assoc] at hrest
      obtain ⟨rfl, htail⟩ := List.append_inj hrest (hx.trans (hys y (by simp)).symm)
      exact List.cons_prefix_cons.mpr ⟨rfl, ih (fun z hz => hxs z (by simp [hz]))
        (fun z hz => hys z (by simp [hz])) ⟨rest, htail⟩⟩

theorem length_events (l : IpcLabel) (h : Succeeds k l s) :
    (∀ t ∈ eventSent k l s, t.length = 80) ∧ ∀ t ∈ eventGot k l s, t.length = 80 := by
  cases l with
  | resolve j event id n =>
    refine ⟨fun t ht => ?_, by simp [eventGot]⟩
    rw [eventSent] at ht
    split at ht
    · rw [List.mem_singleton.mp ht]
      exact length_cmEvent event id
    · cases ht
  | getCmEvent j =>
    refine ⟨by simp [eventSent], fun t ht => ?_⟩
    rw [eventGot] at ht
    split at ht
    · have hready := h ‹_›
      rw [List.mem_singleton.mp ht, List.length_take]
      exact min_eq_left hready
    · cases ht
  | _ => simp [eventSent, eventGot]

/-- While the calls on a channel succeed it carries whole events. -/
theorem run_events {ls : List IpcLabel} (hG : Admits Ipc.step (Succeeds k) ls s) :
    let sent := trace Ipc.step (eventSent k) ls s
    let got := trace Ipc.step (eventGot k) ls s
    ((run Ipc.step ls s).conns k).up.all = (s.conns k).up.all ++ sent.flatten ∧
      ((run Ipc.step ls s).conns k).down.taken = (s.conns k).down.taken ++ got.flatten ∧
      (∀ t ∈ sent, t.length = 80) ∧ ∀ t ∈ got, t.length = 80 := by
  induction ls generalizing s with
  | nil => simp [trace, run]
  | cons l ls ih =>
    obtain ⟨hup, hdown, hsent, hgot⟩ := ih hG.2
    obtain ⟨hup', hdown'⟩ := Ipc.step_bytes l hG.1
    obtain ⟨hsent', hgot'⟩ := length_events l hG.1
    rw [hup', List.append_assoc, ← List.flatten_append] at hup
    rw [hdown', List.append_assoc, ← List.flatten_append] at hdown
    exact ⟨hup, hdown, List.forall_mem_append.mpr ⟨hsent', hsent⟩,
      List.forall_mem_append.mpr ⟨hgot', hgot⟩⟩

/-- As long as the calls on a channel succeed, the events read from it are the
    first ones sent there, in their order, whatever happens on the other channels. -/
theorem events_echoed (ls : List IpcLabel) (k : ℕ)
    (hG : Admits Ipc.step (Succeeds k) ls Ipc.start) :
    trace Ipc.step (eventGot k) ls Ipc.start <+: trace Ipc.step (eventSent k) ls Ipc.start := by
  obtain ⟨hup, hdown, hsent, hgot⟩ := run_events hG
  have hbytes : ((run Ipc.step ls Ipc.start).conns k).down.taken <+:
      ((run Ipc.step ls Ipc.start).conns k).up.all := bytes_echoed ls k
  rw [hup, hdown] at hbytes
  exact prefix_of_flatten (by decide) hgot hsent hbytes

/-- A step of the daemon whose calls succeed, where `poll` reports descriptor `i`. -/
def daemonOn (i : ℕ) : IpcLabel := .daemon ⟨false, fun j => if j = i then 1 else 0, 0, 80⟩

/-- The library makes a channel and sends two events on it, of which the first
    and a part of the second have arrived when the daemon reads. -/
def twoEvents : List IpcLabel :=
  [.createEventChannel 4, .deliverControl 4, daemonOn 0, daemonOn 0, .connectToDaemon, daemonOn 0,
    daemonOn 0, .resolve 0 .addrResolved 7 80, .resolve 0 .routeResolved 7 80, .deliverUp 0 100,
    daemonOn 2, daemonOn 2, daemonOn 2, daemonOn 2, daemonOn 2, .deliverDown 0 80, .getCmEvent 0]

theorem events_echoed_first :
    trace Ipc.step (eventGot 0) twoEvents Ipc.start = [cmEvent .addrResolved 7] ∧
      trace Ipc.step (eventGot 0) twoEvents Ipc.start <+:
        trace Ipc.step (eventSent 0) twoEvents Ipc.start :=
  ⟨by decide +kernel, events_echoed twoEvents 0 (by decide +kernel)⟩

end

/-! ## The channels of the daemon -/

/-- A pass that is under way. -/
def DaemonPc.current : DaemonPc → Option Scan
  | .scan c => some c
  | .accept c _ => some c
  | .echo c _ _ _ => some c
  | _ => none

/-- The event channels for which the daemon has read a message and not yet
    accepted a connection. -/
def DaemonPc.due : DaemonPc → ℕ
  | .accept _ _ => 1
  | _ => 0

/-- The library asks for event channels only, and the daemon has the connections
    it has accepted, in their order. A failed `accept` leaves a -1. -/
structure InStep (s : Ipc) : Prop where
  zeros : ∀ b ∈ s.control.up.all, b = 0
  cqs : s.daemon.vecs.cqFds = []
  ecs : s.daemon.vecs.ecFds.filter (0 ≤ ·) = (List.range s.accepted).map connFd
  accepted : s.accepted ≤ s.connected
  asked : 4 * (s.daemon.vecs.ecFds.length + s.pc.due) ≤ s.control.up.taken.length
  type : ∀ c t, s.pc = .accept c t → t = .createEc
  fds : s.daemon.Inv libFd dpdkFd
  pass : ∀ c, s.pc.current = some c → c.ecStart = 2

section

variable {s : Ipc}

/-- The library's calls and TCP. -/
theorem InStep.library (h : InStep s) {conns : ℕ → Conn} {connected : ℕ} {control : Conn}
    (hcon : s.connected ≤ connected) (hzero : ∀ b ∈ control.up.all, b = 0)
    (htaken : control.up.taken = s.control.up.taken) :
    InStep { s with conns := conns, connected := connected, control := control } :=
  ⟨hzero, h.cqs, h.ecs, h.accepted.trans hcon, by rw [htaken]; exact h.asked, h.type, h.fds, h.pass⟩

/-- A step of the daemon that leaves the array and the vectors alone. -/
theorem InStep.moved (h : InStep s) (conns : ℕ → Conn) {pc : DaemonPc} (hdue : pc.due = 0)
    (hpass : ∀ c, pc.current = some c → c.ecStart = 2) :
    InStep { s with conns := conns, pc := pc } := by
  refine ⟨h.zeros, h.cqs, h.ecs, h.accepted, ?_, ?_, h.fds, hpass⟩
  · have hasked := h.asked
    simp only [hdue]
    omega
  · rintro c t rfl
    cases hdue

theorem Scan.finish_due (c : Scan) (call : Call) (ret : ℤ) : (c.finish call ret).due = 0 := by
  unfold Scan.finish
  split <;> rfl

theorem Scan.finish_current (c : Scan) (call : Call) (ret : ℤ) :
    ∀ c', (c.finish call ret).current = some c' → c'.ecStart = c.ecStart := by
  unfold Scan.finish
  split
  · intro c' h
    cases h
  · intro c' h
    cases h
    rfl

theorem InStep.finish (h : InStep s) {c : Scan} (hc : c.ecStart = 2) (conns : ℕ → Conn) (call : Call)
    (ret : ℤ) : InStep { s with conns := conns, pc := c.finish call ret } :=
  h.moved conns (c.finish_due call ret) fun c' hc' => (c.finish_current call ret c' hc').trans hc

/-- The bytes of the library's messages are 0, wherever they are cut. -/
theorem ofCode_zeros {bs : List UInt8} (h : ∀ b ∈ bs, b = 0) :
    DaemonMsgT.ofCode (word32 bs) = some .createEc := by
  have hzero : ofLE bs = 0 := by
    induction bs with
    | nil => rfl
    | cons b bs ih =>
      rw [ofLE, h b (by simp), ih fun b hb => h b (by simp [hb])]
      rfl
  rw [word32, hzero]
  rfl

theorem InStep.zeros_ready (h : InStep s) : ∀ b ∈ s.control.up.ready.take 4, b = 0 := fun b hb =>
  h.zeros b (by simp [Chan.all, List.mem_of_mem_take hb])

theorem InStep.read (h : InStep s) (n : ℕ) :
    InStep { s with control := { s.control with up := s.control.up.read n } } := by
  refine ⟨?_, h.cqs, h.ecs, h.accepted, ?_, h.type, h.fds, h.pass⟩
  · rw [Chan.all_read]
    exact h.zeros
  · refine h.asked.trans ?_
    simp [Chan.read]

theorem InStep.libRecv (h : InStep s) (io : DaemonIo) {c : Scan} (hpc : s.pc = .scan c)
    (hc : c.ecStart = 2) : InStep (s.libRecv io c) := by
  unfold Ipc.libRecv
  dsimp only
  split_ifs with hfail hwait hshort
  · exact h.finish hc s.conns _ _
  · exact h
  · exact (h.read 4).finish hc s.conns _ _
  · rw [ofCode_zeros h.zeros_ready]
    have hdue : s.pc.due = 0 := by rw [hpc]; rfl
    have hasked := h.asked
    refine ⟨(h.read 4).zeros, h.cqs, h.ecs, h.accepted, ?_, ?_, h.fds, ?_⟩
    · simp only [Chan.read, List.length_append, DaemonPc.due]
      omega
    · rintro c' t ht
      cases ht
      rfl
    · rintro c' h'
      cases h'
      exact hc

/-- A connection is accepted, or `accept` fails. -/
theorem InStep.accept (h : InStep s) {c : Scan} (hpc : s.pc = .accept c .createEc) {n : ℕ} {fd : ℤ}
    {pc : DaemonPc} (hfd : fd = -1 ∧ n = s.accepted ∨
      s.accepted < s.connected ∧ fd = connFd s.accepted ∧ n = s.accepted + 1)
    (hpc' : pc = c.finish (.lib libFd) 4) :
    InStep { s with
      accepted := n
      daemon := { s.daemon with
        vecs := { s.daemon.vecs with ecFds := s.daemon.vecs.ecFds ++ [fd] } }
      pc := pc } := by
  have hc : c.ecStart = 2 := h.pass c (by rw [hpc]; rfl)
  have hdue : pc.due = 0 := by rw [hpc', Scan.finish_due]
  obtain ⟨ec, cq, hec, hcq, hfds⟩ := h.fds
  refine ⟨h.zeros, h.cqs, ?_, ?_, ?_, ?_, ?_, fun c' hc' => ?_⟩
  · show (s.daemon.vecs.ecFds ++ [fd]).filter (0 ≤ ·) = _
    rw [List.filter_append, h.ecs]
    rcases hfd with ⟨rfl, rfl⟩ | ⟨-, rfl, rfl⟩
    · simp
    · have hpos : (0 : ℤ) ≤ connFd s.accepted := by rw [connFd]; omega
      simp [hpos, List.range_succ]
  · have hle := h.accepted
    show n ≤ s.connected
    omega
  · have hasked := h.asked
    rw [hpc, DaemonPc.due] at hasked
    simpa [hdue] using hasked
  · rintro c' t rfl
    cases hdue
  · exact ⟨ec, cq, hec.trans (List.prefix_append _ _), hcq, hfds⟩
  · have hcur : (c.finish (.lib libFd) 4).current = some c' := hpc' ▸ hc'
    exact (c.finish_current (.lib libFd) 4 c' hcur).trans hc

theorem inStep_daemonStep (h : InStep s) (io : DaemonIo) : InStep (s.daemonStep io) := by
  unfold Ipc.daemonStep
  cases hpc : s.pc with
  | poll =>
    have hs : InStep { s with
        daemon := { s.daemon with fds := s.daemon.pollFds libFd dpdkFd } } :=
      ⟨h.zeros, h.cqs, h.ecs, h.accepted, h.asked, h.type,
        ⟨_, _, List.prefix_rfl, List.prefix_rfl, h.fds.pollFds⟩, h.pass⟩
    dsimp only
    split_ifs
    · exact hs.moved s.conns rfl (by simp [DaemonPc.current])
    · refine hs.moved s.conns rfl ?_
      rintro c hc
      cases hc
      rfl
  | scan c =>
    have hc : c.ecStart = 2 := h.pass c (by rw [hpc]; rfl)
    have hnext : ∀ pc : DaemonPc, pc.due = 0 → (∀ c', pc.current = some c' → c'.ecStart = c.ecStart) →
        InStep { s with pc := pc } := fun pc hdue hcur =>
      h.moved s.conns hdue fun c' hc' => (hcur c' hc').trans hc
    dsimp only
    split
    · exact hnext .poll rfl (by simp [DaemonPc.current])
    split
    · exact hnext .poll rfl (by simp [DaemonPc.current])
    split
    · exact hnext _ rfl (by rintro c' h'; cases h'; rfl)
    split
    · exact hnext _ rfl (by simp [DaemonPc.current])
    split
    · rename_i call _
      cases call with
      | lib fd => exact h.libRecv io hpc hc
      | dpdk fd => exact h.finish hc s.conns _ _
      | ec fd idx =>
        show InStep (s.ecRecv io c fd idx)
        unfold Ipc.ecRecv
        dsimp only
        split_ifs
        · exact h.finish hc s.conns _ _
        · exact h.finish hc s.conns _ _
        · exact h
        · exact h.finish hc _ _ _
        · refine h.moved _ rfl ?_
          rintro c' h'
          cases h'
          exact hc
      | cq fd idx => exact h.finish hc s.conns _ _
    · exact hnext _ rfl (by rintro c' h'; cases h'; rfl)
  | accept c type =>
    obtain rfl : type = .createEc := h.type c type hpc
    by_cases hwait : ¬io.fails ∧ s.accepted = s.connected
    · simp only [if_pos hwait]
      exact h
    · simp only [if_neg hwait]
      cases hfail : io.fails with
      | true => exact h.accept hpc (.inl ⟨rfl, rfl⟩) rfl
      | false =>
        have hlt : s.accepted < s.connected :=
          lt_of_le_of_ne h.accepted fun heq => hwait ⟨by simp [hfail], heq⟩
        exact h.accept hpc (.inr ⟨hlt, rfl, rfl⟩) rfl
  | echo c fd idx event =>
    have hc : c.ecStart = 2 := h.pass c (by rw [hpc]; rfl)
    exact h.finish hc _ _ _
  | ended e =>
    exact h

theorem inStep_step (l : IpcLabel) (h : InStep s) : InStep (Ipc.step l s) := by
  have same {conns : ℕ → Conn} : InStep { s with conns := conns } :=
    h.library le_rfl h.zeros rfl
  cases l with
  | daemon io => exact inStep_daemonStep h io
  | createEventChannel n =>
    refine h.library le_rfl ?_ rfl
    rw [Chan.all_send]
    intro b hb
    rcases List.mem_append.mp hb with hb | hb
    · exact h.zeros b hb
    · have hmsg : createEcMsg = [0, 0, 0, 0] := by decide
      rw [hmsg] at hb
      simpa using List.mem_of_mem_take hb
  | connectToDaemon => exact h.library (Nat.le_succ _) h.zeros rfl
  | resolve k event id n =>
    show InStep (s.resolve k event id n)
    unfold Ipc.resolve
    split
    · exact same
    · exact h
  | fini => exact h.library le_rfl h.zeros rfl
  | deliverControl n =>
    refine h.library le_rfl ?_ rfl
    rw [Chan.all_deliver]
    exact h.zeros
  | _ => exact same

theorem inStep_start : InStep Ipc.start where
  zeros := by simp [Ipc.start, Chan.all]
  cqs := rfl
  ecs := rfl
  accepted := le_rfl
  asked := le_rfl
  type := by simp [Ipc.start]
  fds := Daemon.inv_start _
  pass := by simp [Ipc.start, DaemonPc.current]

/-- In every run: the event channels of the daemon are the connections the
    library has made for them, in their order, not more than it has asked for;
    there are no completion queues; and at any time of a pass every descriptor
    goes to the handler of its own kind, an event channel with its own index. -/
theorem channels_served (ls : List IpcLabel) :
    let s := run Ipc.step ls Ipc.start
    s.daemon.vecs.ecFds.filter (0 ≤ ·) = (List.range s.accepted).map connFd ∧
      s.accepted ≤ s.connected ∧ 4 * s.daemon.vecs.ecFds.length ≤ s.control.up.all.length ∧
      s.daemon.vecs.cqFds = [] ∧
      ∀ c, s.pc = .scan c → ∀ i fd, s.daemon.fds[i]? = some fd →
        (i = 0 ∧ callAt c.ecStart c.cqStart s.daemon.vecs i fd = some (.lib libFd)) ∨
        (i = 1 ∧ callAt c.ecStart c.cqStart s.daemon.vecs i fd = some (.dpdk dpdkFd)) ∨
        ∃ k, i = 2 + k ∧ callAt c.ecStart c.cqStart s.daemon.vecs i fd = some (.ec fd k) ∧
          s.daemon.vecs.ecFds[k]? = some fd := by
  intro s
  have h : InStep s := run_invariant (fun l _ => inStep_step l) ls inStep_start
  refine ⟨h.ecs, h.accepted, ?_, h.cqs, fun c hpc i fd hfd => ?_⟩
  · have htaken : s.control.up.taken.length ≤ s.control.up.all.length := by
      simp [Chan.all]
    have hasked := h.asked
    omega
  · obtain ⟨ec, cq, hec, hcq, hfds⟩ := h.fds
    rw [h.cqs, List.prefix_nil] at hcq
    subst hcq
    rw [hfds, List.append_nil] at hfd
    have hc : c.ecStart = 2 := h.pass c (by rw [hpc]; rfl)
    rw [hc]
    rcases i with _ | _ | k
    · exact .inl ⟨rfl, by rw [callAt, if_pos rfl, ← Option.some.inj hfd]⟩
    · exact .inr (.inl ⟨rfl, by rw [callAt, if_neg (by omega), if_pos rfl, ← Option.some.inj hfd]⟩)
    · have hk : ec[k]? = some fd := hfd
      obtain ⟨hlt, rfl⟩ := List.getElem?_eq_some_iff.mp hk
      have hi : k + 1 + 1 = 2 + k := by omega
      refine .inr (.inr ⟨k, hi, ?_, List.prefix_iff_getElem?.mp hec k hlt⟩)
      have hle := hec.length_le
      rw [hi, callAt, if_neg (by omega), if_neg (by omega), sizeSub_add, if_pos (by omega)]

end

end SoftUiWarp
