import SoftUiWarp.Lib.Runs
import Mathlib.Data.List.Basic

/-!
# Model of the daemon (`libsuiw/libsuiwd.cpp`)

`workloop` polls the connection with the library, a DPDK descriptor, the event
channels and the completion queues, in this order, and hands each descriptor that
is ready to a handler. A library message may append to `ec_fds` or `cq_fds` in the
middle of a pass.

* What the system calls of a pass return is input: `Pass`.
* `cq_handle_recv` and `dpdk_handle_recv` end without a `return`, so what they
  return is input as well.
* `poll` returns the number of descriptors with events.
* `poll` sets no events but those asked for and `POLLERR`, `POLLHUP` and
  `POLLNVAL`; the assertion that `POLLIN` is among them ends the process where
  it fails.
-/

namespace SoftUiWarp

/-! ## Events -/

def pollIn : UInt16 := 0x001

def pollErr : UInt16 := 0x008

def pollHup : UInt16 := 0x010

def pollNval : UInt16 := 0x020

/-! ## Messages of the library (`libsuiw/libsuiw_internal.h`) -/

/-- `daemon_msg_t`. -/
inductive DaemonMsgT
  | createEc
  | createCq
  | createQp
  deriving DecidableEq, Repr

def DaemonMsgT.ofCode (x : UInt32) : Option DaemonMsgT :=
  if x = 0 then some .createEc
  else if x = 1 then some .createCq
  else if x = 2 then some .createQp
  else none

/-- `sizeof(struct daemon_msg)`. -/
def daemonMsgSize : ℤ := 4

/-- `sizeof(rdma_cm_event)`. -/
def rdmaCmEventSize : ℤ := 80

/-! ## The handlers -/

/-- `ec_fds` and `cq_fds`. -/
structure Fds where
  ecFds : List ℤ
  cqFds : List ℤ
  deriving DecidableEq, Repr

/-- What `recv` returns and stores in `lib_handle_recv`, and what `accept`
    returns if it is called. -/
structure LibIo where
  rcvd : ℤ
  type : UInt32
  accepted : ℤ
  deriving DecidableEq, Repr

/-- `lib_handle_recv` (lines 89–116). -/
def libHandleRecv (io : LibIo) (v : Fds) : ℤ × Fds :=
  if io.rcvd = -1 then (-1, v)
  else if io.rcvd = 0 then (0, v)
  else if io.rcvd < daemonMsgSize then (-1, v)
  else
    match DaemonMsgT.ofCode io.type with
    | some .createEc => (io.rcvd, { v with ecFds := v.ecFds ++ [io.accepted] })
    | some .createCq => (io.rcvd, { v with cqFds := v.cqFds ++ [io.accepted] })
    | some .createQp => (io.rcvd, v)
    | none => (io.rcvd, v)

/-- What `recv` and `send` return in `ec_handle_recv`. -/
structure EcIo where
  rcvd : ℤ
  sent : ℤ
  deriving DecidableEq, Repr

/-- `ec_handle_recv` (lines 122–150). -/
def ecHandleRecv (io : EcIo) : ℤ :=
  if io.rcvd = -1 then -1
  else if io.rcvd = 0 then 0
  else if io.rcvd < rdmaCmEventSize then -1
  else if io.sent = -1 then -1
  else if io.sent = 0 then 0
  else if io.sent < rdmaCmEventSize then -1
  else io.sent

/-- The system calls of one pass. `revents i` are the events of the descriptor
    at index `i`; the event channels and completion queues have their results by
    the index their handler is called with. -/
structure Pass where
  pollFails : Bool
  revents : ℕ → UInt16
  lib : LibIo
  dpdk : ℤ
  ec : ℕ → EcIo
  cq : ℕ → ℤ

/-- A call of a handler. -/
inductive Call
  | lib (fd : ℤ)
  | dpdk (fd : ℤ)
  | ec (fd : ℤ) (idx : ℕ)
  | cq (fd : ℤ) (idx : ℕ)
  deriving DecidableEq, Repr

/-- How `workloop` ends. -/
inductive Exit
  | returned (ret : ℤ)
  | aborted
  deriving DecidableEq, Repr

/-! ## One pass -/

/-- The difference of two values of type `size_t`. -/
def sizeSub (a b : ℕ) : ℕ := if b ≤ a then a - b else a + 2 ^ 64 - b

/-- Which handler the descriptor at index `i` goes to (lines 213–225), given the
    vectors as they are now; `ecStart` and `cqStart` are from before the pass. -/
def callAt (ecStart cqStart : ℕ) (v : Fds) (i : ℕ) (fd : ℤ) : Option Call :=
  if i = 0 then some (.lib fd)
  else if i = 1 then some (.dpdk fd)
  else if sizeSub i ecStart < v.ecFds.length then some (.ec fd (sizeSub i ecStart))
  else if sizeSub i cqStart < v.cqFds.length then some (.cq fd (sizeSub i cqStart))
  else none

/-- What the handler returns, and the vectors after it. -/
def Pass.handle (p : Pass) (v : Fds) : Call → ℤ × Fds
  | .lib _ => libHandleRecv p.lib v
  | .dpdk _ => (p.dpdk, v)
  | .ec _ idx => (ecHandleRecv (p.ec idx), v)
  | .cq _ idx => (p.cq idx, v)

/-- Whether `workloop` ends after a handler has returned `ret` (lines 213–229). -/
def exitAfter (ret : ℤ) : Call → Option Exit
  | .lib _ => if ret = 0 then some (.returned 0) else if ret = -1 then some (.returned (-1)) else none
  | _ => if ret = -1 then some (.returned (-1)) else none

/-- Whether `workloop` ends on the events of a descriptor (lines 205–212). -/
def exitOn (revents : UInt16) : Option Exit :=
  if revents &&& pollHup ≠ 0 then some (.returned (-1))
  else if revents &&& (pollErr ||| pollNval) ≠ 0 then some (.returned (-1))
  else if revents &&& pollIn = 0 then some .aborted
  else none

/-- What a pass does: the calls it makes, the vectors after it, and how
    `workloop` ends if it does. -/
structure PassOut where
  calls : List Call
  fds : Fds
  exit : Option Exit

/-- The loop of lines 201–233, from index `i` on, with `pollret` descriptors still
    to be handled. Where no handler is called `ret` keeps an earlier value, which
    is not -1. -/
def passLoop (p : Pass) (ecStart cqStart : ℕ) :
    List ℤ → (i : ℕ) → (pollret : ℕ) → Fds → PassOut
  | [], _, _, v => ⟨[], v, none⟩
  | _ :: _, _, 0, v => ⟨[], v, none⟩
  | fd :: fds, i, pollret + 1, v =>
    if p.revents i = 0 then passLoop p ecStart cqStart fds (i + 1) (pollret + 1) v
    else
      match exitOn (p.revents i) with
      | some e => ⟨[], v, some e⟩
      | none =>
        match callAt ecStart cqStart v i fd with
        | none => passLoop p ecStart cqStart fds (i + 1) pollret v
        | some c =>
          let (ret, v) := p.handle v c
          match exitAfter ret c with
          | some e => ⟨[c], v, some e⟩
          | none =>
            let out := passLoop p ecStart cqStart fds (i + 1) pollret v
            { out with calls := c :: out.calls }

/-! ## The workloop -/

/-- The state of the daemon between two passes; `fds` are the descriptors in the
    array given to `poll`. -/
structure Daemon where
  vecs : Fds
  fds : List ℤ
  exit : Option Exit

/-- The descriptor at index `i` of the array that is built (lines 180–188). -/
def fdAt (libFd dpdkFd : ℤ) (v : Fds) (i : ℕ) : ℤ :=
  let ecStart := 2
  let cqStart := ecStart + v.ecFds.length
  if i = 0 then libFd
  else if i = 1 then dpdkFd
  else if sizeSub i ecStart < v.ecFds.length then v.ecFds.getD (sizeSub i ecStart) 0
  else if sizeSub i cqStart < v.cqFds.length then v.cqFds.getD (sizeSub i cqStart) 0
  else 0

/-- The array at the call of `poll` (lines 169–191): it is built anew when the
    number of descriptors has changed. -/
def Daemon.pollFds (libFd dpdkFd : ℤ) (d : Daemon) : List ℤ :=
  let newNumFds := 2 + d.vecs.ecFds.length + d.vecs.cqFds.length
  if d.fds.length ≠ newNumFds then (List.range newNumFds).map (fdAt libFd dpdkFd d.vecs) else d.fds

/-- What `poll` returns for `n` descriptors. -/
def Pass.pollret (p : Pass) (n : ℕ) : ℕ := (List.range n).countP fun i => p.revents i ≠ 0

/-- One iteration of the main loop (lines 168–234). -/
def Daemon.pass (libFd dpdkFd : ℤ) (p : Pass) (d : Daemon) : PassOut :=
  let ecStart := 2
  let cqStart := ecStart + d.vecs.ecFds.length
  let fds := d.pollFds libFd dpdkFd
  if p.pollFails then ⟨[], d.vecs, some (.returned (-1))⟩
  else passLoop p ecStart cqStart fds 0 (p.pollret fds.length) d.vecs

/-- The daemon after it. -/
def Daemon.step (libFd dpdkFd : ℤ) (p : Pass) (d : Daemon) : Daemon :=
  let out := d.pass libFd dpdkFd p
  ⟨out.fds, d.pollFds libFd dpdkFd, out.exit⟩

/-- Before the first pass, with vectors of any content (lines 158–167). -/
def Daemon.start (libFd dpdkFd : ℤ) (v : Fds) : Daemon := ⟨v, [libFd, dpdkFd], none⟩

end SoftUiWarp
