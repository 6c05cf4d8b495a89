import SoftUiWarp.Daemon.Model

/-!
# Which handler a ready descriptor reaches

The descriptors are polled in a fixed order: library, DPDK, event channels,
completion queues. The calls a pass should make are those of the ready ones,
each to the handler of its own kind with its own index.

Results:
* `passLoop_eq_serveItems`: a pass handles its descriptors one after the other.
* `dispatches_iff`: in every state reached, the passes that make the calls they
  should.
-/

namespace SoftUiWarp

open Runs

/-! ## A pass as a list of descriptors -/

/-- A polled descriptor: its events, the call made if it is ready, and how
    `workloop` ends after the call, if it does. -/
structure Item where
  revents : UInt16
  call : Call
  after : Option Exit

/-- The descriptor has events. -/
def Item.Ready (it : Item) : Prop := it.revents ≠ 0

instance (it : Item) : Decidable it.Ready := inferInstanceAs (Decidable (_ ≠ _))

/-- The calls for a list of descriptors, up to the one with which `workloop`
    ends. -/
def serveItems : List Item → List Call × Option Exit
  | [] => ([], none)
  | it :: its =>
    if it.Ready then
      match exitOn it.revents with
      | some e => ([], some e)
      | none =>
        match it.after with
        | some e => ([it.call], some e)
        | none => (it.call :: (serveItems its).1, (serveItems its).2)
    else serveItems its

/-- The calls of the ready ones. -/
def readyCalls (its : List Item) : List Call := (its.filter Item.Ready).map Item.call

/-- A ready descriptor does not end `workloop`. -/
def Item.Passes (it : Item) : Prop := it.Ready → exitOn it.revents = none ∧ it.after = none

section

variable {its its' : List Item} {it : Item}

@[simp] theorem readyCalls_nil : readyCalls [] = [] := rfl

theorem readyCalls_append : readyCalls (its ++ its') = readyCalls its ++ readyCalls its' := by
  rw [readyCalls, List.filter_append, List.map_append]
  rfl

theorem readyCalls_cons :
    readyCalls (it :: its) = if it.Ready then it.call :: readyCalls its else readyCalls its := by
  by_cases h : it.Ready <;> simp [readyCalls, h]

/-- What is served is served in order, and all of it if `workloop` goes on. -/
theorem serveItems_prefix (its : List Item) :
    (serveItems its).1 <+: readyCalls its ∧
      ((serveItems its).2 = none → (serveItems its).1 = readyCalls its) := by
  induction its with
  | nil => exact ⟨List.prefix_rfl, fun _ => rfl⟩
  | cons it its ih =>
    rw [readyCalls_cons, serveItems]
    by_cases hr : it.Ready
    · rw [if_pos hr, if_pos hr]
      cases exitOn it.revents with
      | some e => exact ⟨List.nil_prefix, fun h => by cases h⟩
      | none =>
        cases it.after with
        | some e => exact ⟨List.cons_prefix_cons.mpr ⟨rfl, List.nil_prefix⟩, fun h => by cases h⟩
        | none =>
          exact ⟨List.cons_prefix_cons.mpr ⟨rfl, ih.1⟩, fun h => by rw [ih.2 h]⟩
    · rw [if_neg hr, if_neg hr]
      exact ih

/-- `workloop` goes on behind descriptors none of which ends it. -/
theorem serveItems_append_of_passes (h : ∀ it ∈ its, it.Passes) :
    serveItems (its ++ its') = (readyCalls its ++ (serveItems its').1, (serveItems its').2) := by
  induction its with
  | nil => rfl
  | cons it its ih =>
    have ih := ih fun x hx => h x (List.mem_cons_of_mem _ hx)
    rw [List.cons_append, serveItems, readyCalls_cons]
    by_cases hr : it.Ready
    · obtain ⟨hon, hafter⟩ := h it List.mem_cons_self hr
      rw [if_pos hr, if_pos hr, hon, hafter, ih]
      rfl
    · rw [if_neg hr, if_neg hr, ih]

/-- Otherwise what follows does not matter. -/
theorem serveItems_append_of_not_passes (h : ¬∀ it ∈ its, it.Passes) :
    serveItems (its ++ its') = serveItems its := by
  induction its with
  | nil => exact absurd (fun it hit => by cases hit) h
  | cons it its ih =>
    rw [List.cons_append, serveItems, serveItems]
    by_cases hr : it.Ready
    · rw [if_pos hr, if_pos hr]
      cases hon : exitOn it.revents with
      | some e => rfl
      | none =>
        cases hafter : it.after with
        | some e => rfl
        | none =>
          have hrest : ¬∀ x ∈ its, x.Passes := by
            intro hall
            refine h fun x hx => ?_
            rcases List.mem_cons.mp hx with rfl | hx
            · exact fun _ => ⟨hon, hafter⟩
            · exact hall x hx
          simp only [ih hrest]
    · rw [if_neg hr, if_neg hr]
      refine ih fun hall => h fun x hx => ?_
      rcases List.mem_cons.mp hx with rfl | hx
      · exact fun hr' => absurd hr' hr
      · exact hall x hx

end

/-! ## The loop over the array -/

/-- What the handler returns does not depend on the vectors. -/
def Pass.ret (p : Pass) (c : Call) : ℤ := (p.handle ⟨[], []⟩ c).1

/-- The descriptors from index `i` on, when their calls are `cs`. -/
def Pass.items (p : Pass) (i : ℕ) (cs : List Call) : List Item :=
  (cs.zipIdx i).map fun x => ⟨p.revents x.2, x.1, exitAfter (p.ret x.1) x.1⟩

/-- With the vectors `v` the descriptors from index `i` on go to the calls `cs`. -/
def Routes (ecStart cqStart : ℕ) (v : Fds) : (i : ℕ) → List ℤ → List Call → Prop
  | _, [], [] => True
  | i, fd :: fds, c :: cs =>
    callAt ecStart cqStart v i fd = some c ∧ Routes ecStart cqStart v (i + 1) fds cs
  | _, _, _ => False

/-- The vectors after the library's descriptor was handled, if it was. -/
def Pass.vecsAfterLib (p : Pass) (v : Fds) : Fds :=
  if p.revents 0 ≠ 0 ∧ exitOn (p.revents 0) = none then (libHandleRecv p.lib v).2 else v

section

variable {p : Pass} {ecStart cqStart i : ℕ} {v : Fds} {fd : ℤ} {fds : List ℤ} {c : Call}
  {cs : List Call}

theorem Pass.handle_ret (p : Pass) (v : Fds) (c : Call) : (p.handle v c).1 = p.ret c := by
  cases c with
  | lib fd =>
    simp only [Pass.ret, Pass.handle, libHandleRecv]
    split_ifs
    · rfl
    · rfl
    · rfl
    · split <;> rfl
  | dpdk fd => rfl
  | ec fd idx => rfl
  | cq fd idx => rfl

theorem Pass.items_cons :
    p.items i (c :: cs) = ⟨p.revents i, c, exitAfter (p.ret c) c⟩ :: p.items (i + 1) cs := rfl

theorem Pass.items_append (cs cs' : List Call) :
    p.items i (cs ++ cs') = p.items i cs ++ p.items (i + cs.length) cs' := by
  rw [Pass.items, List.zipIdx_append, List.map_append]
  rfl

/-- How many of the descriptors are ready. -/
def Pass.readyCount (p : Pass) (i : ℕ) (cs : List Call) : ℕ := (p.items i cs).countP Item.Ready

theorem Pass.readyCount_eq_pollret (p : Pass) (cs : List Call) :
    p.readyCount 0 cs = p.pollret cs.length := by
  have h : ∀ (cs : List Call) (i : ℕ),
      p.readyCount i cs = (List.range' i cs.length).countP fun i => p.revents i ≠ 0 := by
    intro cs
    induction cs with
    | nil => intro i; rfl
    | cons c cs ih =>
      intro i
      rw [Pass.readyCount, Pass.items_cons, List.countP_cons, List.length_cons, List.range'_succ,
        List.countP_cons, ← ih (i + 1)]
      rfl
  rw [h, Pass.pollret, List.range_eq_range']

/-- A descriptor behind the library's leaves the vectors as they are. -/
theorem handle_fds_of_pos (hi : 1 ≤ i) (h : callAt ecStart cqStart v i fd = some c) :
    (p.handle v c).2 = v := by
  rw [callAt, if_neg (by omega)] at h
  split_ifs at h <;> cases h <;> rfl

theorem passLoop_zero (fds : List ℤ) (i : ℕ) (v : Fds) :
    passLoop p ecStart cqStart fds i 0 v = ⟨[], v, none⟩ := by
  cases fds <;> rfl

/-- A descriptor that is not ready is passed over. -/
theorem passLoop_quiet (h : p.revents i = 0) (fd : ℤ) (fds : List ℤ) (n : ℕ) (v : Fds) :
    passLoop p ecStart cqStart (fd :: fds) i n v = passLoop p ecStart cqStart fds (i + 1) n v := by
  cases n with
  | zero => rw [passLoop_zero, passLoop_zero]
  | succ n => rw [passLoop, if_pos h]

theorem Pass.readyCount_cons :
    p.readyCount i (c :: cs) = if p.revents i = 0 then p.readyCount (i + 1) cs
      else p.readyCount (i + 1) cs + 1 := by
  rw [Pass.readyCount, Pass.items_cons, List.countP_cons]
  by_cases h : p.revents i = 0 <;> simp [Item.Ready, h, Pass.readyCount]

/-- The loop behind the library's descriptor. -/
theorem passLoop_eq_serveItems (hi : 1 ≤ i) (h : Routes ecStart cqStart v i fds cs) :
    passLoop p ecStart cqStart fds i (p.readyCount i cs) v =
      ⟨(serveItems (p.items i cs)).1, v, (serveItems (p.items i cs)).2⟩ := by
  induction fds generalizing i cs with
  | nil =>
    cases cs with
    | nil => rfl
    | cons c cs => exact h.elim
  | cons fd fds ih =>
    cases cs with
    | nil => exact h.elim
    | cons c cs =>
      obtain ⟨hc, h⟩ := h
      have ih := ih (i := i + 1) (by omega) h
      have hhandle : p.handle v c = (p.ret c, v) := by
        rw [← p.handle_ret v c]
        exact Prod.ext rfl (handle_fds_of_pos hi hc)
      rw [Pass.readyCount_cons, Pass.items_cons, serveItems]
      by_cases hr : p.revents i = 0
      · rw [if_pos hr, passLoop_quiet hr, ih, if_neg (by simp [Item.Ready, hr])]
      · have hready : Item.Ready ⟨p.revents i, c, exitAfter (p.ret c) c⟩ := hr
        rw [if_neg hr, if_pos hready, passLoop, if_neg hr]
        cases exitOn (p.revents i) with
        | some e => rfl
        | none =>
          simp only [hc, hhandle, ih]
          cases exitAfter (p.ret c) c with
          | some e => rfl
          | none => rfl

/-- The whole loop: the calls behind the library's are those of the vectors after
    it. -/
theorem passLoop_lib (libFd : ℤ)
    (h : Routes ecStart cqStart (p.vecsAfterLib v) 1 fds cs) :
    passLoop p ecStart cqStart (libFd :: fds) 0 (p.readyCount 0 (.lib libFd :: cs)) v =
      ⟨(serveItems (p.items 0 (.lib libFd :: cs))).1, p.vecsAfterLib v,
        (serveItems (p.items 0 (.lib libFd :: cs))).2⟩ := by
  have htail := passLoop_eq_serveItems (p := p) le_rfl h
  rw [Pass.readyCount_cons, Pass.items_cons, serveItems]
  by_cases hr : p.revents 0 = 0
  · have hv : p.vecsAfterLib v = v := if_neg (fun hn => hn.1 hr)
    rw [hv] at htail ⊢
    rw [if_pos hr, passLoop_quiet hr, htail, if_neg (by simp [Item.Ready, hr])]
  · have hready : Item.Ready ⟨p.revents 0, .lib libFd, exitAfter (p.ret (.lib libFd)) (.lib libFd)⟩ :=
      hr
    rw [if_neg hr, if_pos hready, passLoop, if_neg hr]
    cases hon : exitOn (p.revents 0) with
    | some e =>
      have hv : p.vecsAfterLib v = v := if_neg (fun hn => by rw [hon] at hn; cases hn.2)
      rw [hv]
    | none =>
      have hv : p.vecsAfterLib v = (libHandleRecv p.lib v).2 := if_pos ⟨hr, hon⟩
      have hcall : callAt ecStart cqStart v 0 libFd = some (.lib libFd) := rfl
      have hhandle : p.handle v (.lib libFd) = (p.ret (.lib libFd), p.vecsAfterLib v) := by
        rw [hv, ← p.handle_ret v]
        rfl
      simp only [hcall, hhandle, htail]
      cases exitAfter (p.ret (.lib libFd)) (.lib libFd) with
      | some e => rfl
      | none => rfl

end

/-! ## The calls of the polled descriptors -/

/-- The calls for the descriptors of the event channels from index `k` on. -/
def ecCalls (k : ℕ) (fds : List ℤ) : List Call := (fds.zipIdx k).map fun x => .ec x.1 x.2

def cqCalls (k : ℕ) (fds : List ℤ) : List Call := (fds.zipIdx k).map fun x => .cq x.1 x.2

/-- What the polled descriptors were polled as, in the order of the array. -/
def polledCalls (libFd dpdkFd : ℤ) (v : Fds) : List Call :=
  .lib libFd :: .dpdk dpdkFd :: (ecCalls 0 v.ecFds ++ cqCalls 0 v.cqFds)

section

variable {v : Fds} {cqStart : ℕ} {fds : List ℤ} {cs : List Call}

theorem routes_append {ecStart cqStart i : ℕ} {v : Fds} {fds fds' : List ℤ} {cs cs' : List Call}
    (h : Routes ecStart cqStart v i fds cs)
    (h' : Routes ecStart cqStart v (i + fds.length) fds' cs') :
    Routes ecStart cqStart v i (fds ++ fds') (cs ++ cs') := by
  induction fds generalizing i cs with
  | nil =>
    cases cs with
    | nil => exact h'
    | cons c cs => exact h.elim
  | cons fd fds ih =>
    cases cs with
    | nil => exact h.elim
    | cons c cs =>
      refine ⟨h.1, ih h.2 ?_⟩
      rw [List.length_cons] at h'
      rwa [show i + 1 + fds.length = i + (fds.length + 1) by omega]

theorem sizeSub_add (a b : ℕ) : sizeSub (a + b) a = b := by
  rw [sizeSub, if_pos (Nat.le_add_right a b), Nat.add_sub_cancel_left]

/-- The descriptors below the current number of event channels. -/
theorem routes_ec (k : ℕ) (fds : List ℤ) (h : k + fds.length ≤ v.ecFds.length) :
    Routes 2 cqStart v (2 + k) fds (ecCalls k fds) := by
  induction fds generalizing k with
  | nil => trivial
  | cons fd fds ih =>
    rw [List.length_cons] at h
    refine ⟨?_, ih (k + 1) (by omega)⟩
    rw [callAt, if_neg (by omega), if_neg (by omega), sizeSub_add, if_pos (by omega)]

/-- The descriptors behind them. -/
theorem routes_cq (k : ℕ) (fds : List ℤ) (hec : v.ecFds.length + 2 ≤ cqStart + k)
    (hcq : k + fds.length ≤ v.cqFds.length) (h2 : 2 ≤ cqStart) :
    Routes 2 cqStart v (cqStart + k) fds (cqCalls k fds) := by
  induction fds generalizing k with
  | nil => trivial
  | cons fd fds ih =>
    rw [List.length_cons] at hcq
    refine ⟨?_, ih (k + 1) (by omega) (by omega)⟩
    have hsub : sizeSub (cqStart + k) 2 = cqStart + k - 2 := if_pos (by omega)
    rw [callAt, if_neg (by omega), if_neg (by omega), hsub, if_neg (by omega), sizeSub_add,
      if_pos (by omega)]

end

/-! ## The array matches the vectors -/

/-- The array holds the two fixed descriptors and those the vectors held when it
    was built. -/
def Daemon.Inv (libFd dpdkFd : ℤ) (d : Daemon) : Prop :=
  ∃ ec cq, ec <+: d.vecs.ecFds ∧ cq <+: d.vecs.cqFds ∧ d.fds = libFd :: dpdkFd :: (ec ++ cq)

/-- The library's message of this pass creates an event channel. -/
structure Pass.CreatesEc (p : Pass) : Prop where
  ready : p.revents 0 ≠ 0
  readable : exitOn (p.revents 0) = none
  whole : daemonMsgSize ≤ p.lib.rcvd
  type : DaemonMsgT.ofCode p.lib.type = some .createEc

section

variable {libFd dpdkFd : ℤ} {d : Daemon} {p : Pass} {v : Fds}

theorem Daemon.inv_start (v : Fds) : (Daemon.start libFd dpdkFd v).Inv libFd dpdkFd :=
  ⟨[], [], List.nil_prefix, List.nil_prefix, rfl⟩

/-- The array that is built. -/
theorem map_fdAt (v : Fds) :
    (List.range (2 + v.ecFds.length + v.cqFds.length)).map (fdAt libFd dpdkFd v) =
      libFd :: dpdkFd :: (v.ecFds ++ v.cqFds) := by
  apply List.ext_getElem
  · simp
    omega
  · intro i h1 h2
    rw [List.getElem_map, List.getElem_range]
    match i with
    | 0 => rfl
    | 1 => rfl
    | i + 2 =>
      have hsub : sizeSub (i + 2) 2 = i := by rw [Nat.add_comm, sizeSub_add]
      simp only [List.length_cons, List.length_append] at h2
      simp only [List.getElem_cons_succ, fdAt, hsub]
      rw [if_neg (by omega), if_neg (by omega)]
      by_cases hec : i < v.ecFds.length
      · rw [if_pos hec, List.getElem_append_left hec, List.getD_eq_getElem?_getD,
          List.getElem?_eq_getElem hec, Option.getD_some]
      · have hsub' : sizeSub (i + 2) (2 + v.ecFds.length) = i - v.ecFds.length := by
          rw [sizeSub, if_pos (by omega)]
          omega
        rw [if_neg hec, hsub', if_pos (by omega), List.getElem_append_right (not_lt.mp hec),
          List.getD_eq_getElem?_getD, List.getElem?_eq_getElem, Option.getD_some]

/-- At the call of `poll` the array holds all descriptors: the vectors only grow,
    so if the number is right nothing has changed. -/
theorem Daemon.Inv.pollFds (h : d.Inv libFd dpdkFd) :
    d.pollFds libFd dpdkFd = libFd :: dpdkFd :: (d.vecs.ecFds ++ d.vecs.cqFds) := by
  obtain ⟨ec, cq, hec, hcq, hfds⟩ := h
  rw [Daemon.pollFds]
  by_cases hn : d.fds.length ≠ 2 + d.vecs.ecFds.length + d.vecs.cqFds.length
  · rw [if_pos hn, map_fdAt]
  · rw [if_neg hn]
    have hlen := hec.length_le
    have hlen' := hcq.length_le
    rw [hfds] at hn
    simp only [List.length_cons, List.length_append] at hn
    rw [hfds, hec.eq_of_length (by omega), hcq.eq_of_length (by omega)]

theorem vecsAfterLib_of_creates (h : p.CreatesEc) (v : Fds) :
    p.vecsAfterLib v = { v with ecFds := v.ecFds ++ [p.lib.accepted] } := by
  have hw := h.whole
  rw [daemonMsgSize] at hw
  rw [Pass.vecsAfterLib, if_pos ⟨h.ready, h.readable⟩, libHandleRecv, if_neg (by omega),
    if_neg (by omega), if_neg (by rw [daemonMsgSize]; omega), h.type]

theorem vecsAfterLib_of_not_creates (h : ¬p.CreatesEc) (v : Fds) :
    (p.vecsAfterLib v).ecFds = v.ecFds ∧ v.cqFds <+: (p.vecsAfterLib v).cqFds := by
  rw [Pass.vecsAfterLib]
  by_cases hr : p.revents 0 ≠ 0 ∧ exitOn (p.revents 0) = none
  · rw [if_pos hr, libHandleRecv]
    split_ifs with h1 h2 h3
    · exact ⟨rfl, List.prefix_rfl⟩
    · exact ⟨rfl, List.prefix_rfl⟩
    · exact ⟨rfl, List.prefix_rfl⟩
    · cases ht : DaemonMsgT.ofCode p.lib.type with
      | none => exact ⟨rfl, List.prefix_rfl⟩
      | some t =>
        cases t with
        | createEc => exact absurd ⟨hr.1, hr.2, not_lt.mp h3, ht⟩ h
        | createCq => exact ⟨rfl, List.prefix_append _ _⟩
        | createQp => exact ⟨rfl, List.prefix_rfl⟩
  · rw [if_neg hr]
    exact ⟨rfl, List.prefix_rfl⟩

theorem vecsAfterLib_prefix (p : Pass) (v : Fds) :
    v.ecFds <+: (p.vecsAfterLib v).ecFds ∧ v.cqFds <+: (p.vecsAfterLib v).cqFds := by
  by_cases h : p.CreatesEc
  · rw [vecsAfterLib_of_creates h]
    exact ⟨List.prefix_append _ _, List.prefix_rfl⟩
  · obtain ⟨hec, hcq⟩ := vecsAfterLib_of_not_creates h v
    exact ⟨⟨[], by rw [List.append_nil, hec]⟩, hcq⟩

/-! ## The calls that are made -/

instance (p : Pass) : Decidable p.CreatesEc :=
  decidable_of_iff
    (p.revents 0 ≠ 0 ∧ exitOn (p.revents 0) = none ∧ daemonMsgSize ≤ p.lib.rcvd ∧
      DaemonMsgT.ofCode p.lib.type = some .createEc)
    ⟨fun h => ⟨h.1, h.2.1, h.2.2.1, h.2.2.2⟩, fun h => ⟨h.1, h.2, h.3, h.4⟩⟩

/-- The calls for the completion queues in a pass that creates an event channel:
    the first one is taken for the new channel. -/
def cqCallsLate (n : ℕ) : List ℤ → List Call
  | [] => []
  | fd :: fds => .ec fd n :: cqCalls 1 fds

def Pass.cqCallsMade (p : Pass) (v : Fds) : List Call :=
  if p.CreatesEc then cqCallsLate v.ecFds.length v.cqFds else cqCalls 0 v.cqFds

/-- All calls, given those for the completion queues. -/
def callsWith (libFd dpdkFd : ℤ) (v : Fds) (cqs : List Call) : List Call :=
  .lib libFd :: .dpdk dpdkFd :: ecCalls 0 v.ecFds ++ cqs

theorem routes_made (p : Pass) (v : Fds) :
    Routes 2 (2 + v.ecFds.length) (p.vecsAfterLib v) 1 (dpdkFd :: (v.ecFds ++ v.cqFds))
      (.dpdk dpdkFd :: (ecCalls 0 v.ecFds ++ p.cqCallsMade v)) := by
  obtain ⟨hec, hcq⟩ := vecsAfterLib_prefix p v
  have hecs := @routes_ec (p.vecsAfterLib v) (2 + v.ecFds.length) 0 v.ecFds
    (by have := hec.length_le; omega)
  refine ⟨rfl, routes_append hecs ?_⟩
  rw [Pass.cqCallsMade]
  by_cases h : p.CreatesEc
  · rw [if_pos h, vecsAfterLib_of_creates h]
    cases hv : v.cqFds with
    | nil => trivial
    | cons fd fds =>
      have hsub := sizeSub_add 2 v.ecFds.length
      refine ⟨?_, ?_⟩
      · rw [callAt, if_neg (by omega), if_neg (by omega), Nat.add_zero, hsub, if_pos (by simp)]
      · exact routes_cq 1 fds (by simp; omega) (by simp; omega) (by omega)
  · rw [if_neg h]
    obtain ⟨heq, -⟩ := vecsAfterLib_of_not_creates h v
    exact routes_cq 0 v.cqFds (by rw [heq]; omega)
      (by have := hcq.length_le; omega) (by omega)

theorem routes_length {ecStart cqStart i : ℕ} {v : Fds} {fds : List ℤ} {cs : List Call}
    (h : Routes ecStart cqStart v i fds cs) : cs.length = fds.length := by
  induction fds generalizing i cs with
  | nil =>
    cases cs with
    | nil => rfl
    | cons c cs => exact h.elim
  | cons fd fds ih =>
    cases cs with
    | nil => exact h.elim
    | cons c cs => rw [List.length_cons, List.length_cons, ih h.2]

/-- A pass handles the polled descriptors one after the other. -/
theorem Daemon.Inv.pass_eq (h : d.Inv libFd dpdkFd) (hpoll : p.pollFails = false) :
    d.pass libFd dpdkFd p =
      ⟨(serveItems (p.items 0 (callsWith libFd dpdkFd d.vecs (p.cqCallsMade d.vecs)))).1,
        p.vecsAfterLib d.vecs,
        (serveItems (p.items 0 (callsWith libFd dpdkFd d.vecs (p.cqCallsMade d.vecs)))).2⟩ := by
  have hroutes := @routes_made dpdkFd p d.vecs
  have hloop := passLoop_lib libFd hroutes
  rw [p.readyCount_eq_pollret, List.length_cons, routes_length hroutes, ← List.length_cons] at hloop
  rw [Daemon.pass, h.pollFds, if_neg (by rw [hpoll]; decide)]
  exact hloop

/-- The vectors only grow. -/
theorem Daemon.Inv.step (h : d.Inv libFd dpdkFd) (p : Pass) :
    (d.step libFd dpdkFd p).Inv libFd dpdkFd := by
  refine ⟨d.vecs.ecFds, d.vecs.cqFds, ?_⟩
  rw [Daemon.step]
  cases hpoll : p.pollFails with
  | true =>
    rw [Daemon.pass, if_pos hpoll]
    exact ⟨List.prefix_rfl, List.prefix_rfl, h.pollFds⟩
  | false =>
    obtain ⟨hec, hcq⟩ := vecsAfterLib_prefix p d.vecs
    rw [h.pass_eq hpoll]
    exact ⟨hec, hcq, h.pollFds⟩

/-! ## The calls that should be made -/

/-- The events of a descriptor that its handler is called for. -/
def HasInput (revents : UInt16) : Prop :=
  revents &&& pollHup = 0 ∧ revents &&& (pollErr ||| pollNval) = 0 ∧ revents &&& pollIn ≠ 0

theorem exitOn_eq_none_iff (revents : UInt16) : exitOn revents = none ↔ HasInput revents := by
  rw [exitOn, HasInput]
  split_ifs <;> simp_all

theorem HasInput.ne_zero {revents : UInt16} (h : HasInput revents) : revents ≠ 0 := by
  rintro rfl
  exact h.2.2 (by decide)

/-- A descriptor that no handler is called for may as well have another one. -/
theorem serveItems_congr_of_not_served {its its' : List Item} {revents : UInt16} {c c' : Call}
    {after after' : Option Exit} (h : ¬((∀ it ∈ its, it.Passes) ∧ HasInput revents)) :
    serveItems (its ++ ⟨revents, c, after⟩ :: its') =
      serveItems (its ++ ⟨revents, c', after'⟩ :: its') := by
  by_cases hA : ∀ it ∈ its, it.Passes
  · rw [serveItems_append_of_passes hA, serveItems_append_of_passes hA, serveItems, serveItems]
    by_cases hready : revents = 0
    · rw [if_neg (by simp [Item.Ready, hready]), if_neg (by simp [Item.Ready, hready])]
    · have hon : exitOn revents ≠ none := fun hon => h ⟨hA, (exitOn_eq_none_iff _).mp hon⟩
      cases he : exitOn revents with
      | none => exact absurd he hon
      | some e => simp only [Item.Ready, ne_eq, hready, not_false_eq_true, if_true]
  · rw [serveItems_append_of_not_passes hA, serveItems_append_of_not_passes hA]

/-- A descriptor that is served shows which handler it went to. -/
theorem not_prefix_of_served {its its' : List Item} {revents : UInt16} {c c' : Call}
    {after after' : Option Exit} (hA : ∀ it ∈ its, it.Passes) (hr : HasInput revents)
    (hne : c ≠ c') :
    ¬(serveItems (its ++ ⟨revents, c, after⟩ :: its')).1 <+:
      readyCalls (its ++ ⟨revents, c', after'⟩ :: its') := by
  have hready : Item.Ready ⟨revents, c, after⟩ := hr.ne_zero
  have hready' : Item.Ready ⟨revents, c', after'⟩ := hr.ne_zero
  have hcall : ∃ rest, (serveItems (⟨revents, c, after⟩ :: its')).1 = c :: rest := by
    rw [serveItems, if_pos hready, (exitOn_eq_none_iff _).mpr hr]
    cases after with
    | none => exact ⟨_, rfl⟩
    | some e => exact ⟨_, rfl⟩
  obtain ⟨rest, hrest⟩ := hcall
  rw [serveItems_append_of_passes hA, readyCalls_append, readyCalls_cons, if_pos hready', hrest,
    List.prefix_append_right_inj, List.cons_prefix_cons]
  exact fun h => hne h.1

/-- What the descriptors with events were polled as. -/
def Pass.readyAs (p : Pass) (cs : List Call) : List Call :=
  (cs.zipIdx.filter fun x => p.revents x.2 ≠ 0).map Prod.fst

/-- The pass calls the handlers of the ready descriptors, each with its own index
    and in their order: of all of them, or up to the one with which `workloop`
    ends. -/
structure PassDispatched (libFd dpdkFd : ℤ) (d : Daemon) (p : Pass) : Prop where
  calls : (d.pass libFd dpdkFd p).calls <+: p.readyAs (polledCalls libFd dpdkFd d.vecs)
  all : (d.pass libFd dpdkFd p).exit = none →
    (d.pass libFd dpdkFd p).calls = p.readyAs (polledCalls libFd dpdkFd d.vecs)

/-- The library asks for an event channel, the first completion queue is ready,
    and no descriptor before it ends `workloop`. -/
structure Misrouted (d : Daemon) (p : Pass) : Prop where
  polls : p.pollFails = false
  lib : HasInput (p.revents 0)
  whole : daemonMsgSize ≤ p.lib.rcvd
  type : DaemonMsgT.ofCode p.lib.type = some .createEc
  dpdk : p.revents 1 ≠ 0 → HasInput (p.revents 1) ∧ p.dpdk ≠ -1
  ec : ∀ k < d.vecs.ecFds.length, p.revents (2 + k) ≠ 0 →
    HasInput (p.revents (2 + k)) ∧ ecHandleRecv (p.ec k) ≠ -1
  cqs : d.vecs.cqFds ≠ []
  cq : HasInput (p.revents (2 + d.vecs.ecFds.length))

theorem Pass.readyAs_eq (p : Pass) (cs : List Call) : p.readyAs cs = readyCalls (p.items 0 cs) := by
  rw [Pass.readyAs, readyCalls, Pass.items, List.filter_map, List.map_map]
  rfl

theorem polledCalls_eq (libFd dpdkFd : ℤ) (v : Fds) :
    polledCalls libFd dpdkFd v = callsWith libFd dpdkFd v (cqCalls 0 v.cqFds) := rfl

/-- The calls for the completion queues make all the difference. -/
theorem Pass.items_callsWith (p : Pass) (v : Fds) (cqs : List Call) :
    p.items 0 (callsWith libFd dpdkFd v cqs) =
      p.items 0 (callsWith libFd dpdkFd v []) ++ p.items (2 + v.ecFds.length) cqs := by
  rw [callsWith, Pass.items_append, callsWith, List.append_nil]
  have hlen : (Call.lib libFd :: .dpdk dpdkFd :: ecCalls 0 v.ecFds).length = 2 + v.ecFds.length := by
    simp [ecCalls]
    omega
  rw [hlen, Nat.zero_add]

/-- When all that is polled goes where it should. -/
theorem dispatched_of_serveItems (hinv : d.Inv libFd dpdkFd) (hpoll : p.pollFails = false)
    (h : serveItems (p.items 0 (callsWith libFd dpdkFd d.vecs (p.cqCallsMade d.vecs))) =
      serveItems (p.items 0 (polledCalls libFd dpdkFd d.vecs))) : PassDispatched libFd dpdkFd d p := by
  obtain ⟨hcalls, hall⟩ := serveItems_prefix (p.items 0 (polledCalls libFd dpdkFd d.vecs))
  constructor
  · rw [hinv.pass_eq hpoll, p.readyAs_eq, h]
    exact hcalls
  · rw [hinv.pass_eq hpoll, p.readyAs_eq, h]
    exact hall

theorem passes_of_ne_lib {revents : UInt16} {ret : ℤ} {c : Call} (hc : ∀ fd, c ≠ .lib fd) :
    Item.Passes ⟨revents, c, exitAfter ret c⟩ ↔
      (revents ≠ 0 → HasInput revents ∧ ret ≠ -1) := by
  have hafter : exitAfter ret c = none ↔ ret ≠ -1 := by
    cases c with
    | lib fd => exact absurd rfl (hc fd)
    | dpdk fd => simp [exitAfter]
    | ec fd idx => simp [exitAfter]
    | cq fd idx => simp [exitAfter]
  rw [Item.Passes, Item.Ready, exitOn_eq_none_iff, hafter]

/-- The event channels do not end `workloop`. -/
theorem passes_ec (p : Pass) (k : ℕ) (fds : List ℤ) :
    (∀ it ∈ p.items (2 + k) (ecCalls k fds), it.Passes) ↔
      ∀ j, k ≤ j → j < k + fds.length → p.revents (2 + j) ≠ 0 →
        HasInput (p.revents (2 + j)) ∧ ecHandleRecv (p.ec j) ≠ -1 := by
  induction fds generalizing k with
  | nil => exact ⟨fun _ j h1 h2 => by simp at h2; omega, fun _ it hit => by cases hit⟩
  | cons fd fds ih =>
    have hitems : p.items (2 + k) (ecCalls k (fd :: fds)) =
        ⟨p.revents (2 + k), .ec fd k, exitAfter (ecHandleRecv (p.ec k)) (.ec fd k)⟩ ::
          p.items (2 + (k + 1)) (ecCalls (k + 1) fds) := rfl
    rw [hitems, List.forall_mem_cons, passes_of_ne_lib (fun _ h => by cases h), ih (k + 1),
      List.length_cons]
    constructor
    · rintro ⟨h0, h⟩ j h1 h2
      rcases Nat.eq_or_lt_of_le h1 with rfl | hlt
      · exact h0
      · exact h j hlt (by omega)
    · intro h
      exact ⟨h k le_rfl (by omega), fun j h1 h2 => h j (by omega) (by omega)⟩

/-- The descriptors before the completion queues do not end `workloop`, in a pass
    that creates an event channel. -/
theorem passes_iff (hc : p.CreatesEc) (v : Fds) :
    (∀ it ∈ p.items 0 (callsWith libFd dpdkFd v []), it.Passes) ↔
      (p.revents 1 ≠ 0 → HasInput (p.revents 1) ∧ p.dpdk ≠ -1) ∧
        ∀ k < v.ecFds.length, p.revents (2 + k) ≠ 0 →
          HasInput (p.revents (2 + k)) ∧ ecHandleRecv (p.ec k) ≠ -1 := by
  have hw := hc.whole
  rw [daemonMsgSize] at hw
  have hret : p.ret (.lib libFd) = p.lib.rcvd := by
    simp only [Pass.ret, Pass.handle, libHandleRecv]
    rw [if_neg (by omega), if_neg (by omega), if_neg (by rw [daemonMsgSize]; omega), hc.type]
  have hlib : Item.Passes
      ⟨p.revents 0, .lib libFd, exitAfter (p.ret (.lib libFd)) (.lib libFd)⟩ := by
    refine fun _ => ⟨hc.readable, ?_⟩
    rw [hret, exitAfter, if_neg (by omega), if_neg (by omega)]
  have hitems : p.items 0 (callsWith libFd dpdkFd v []) =
      ⟨p.revents 0, .lib libFd, exitAfter (p.ret (.lib libFd)) (.lib libFd)⟩ ::
        ⟨p.revents 1, .dpdk dpdkFd, exitAfter p.dpdk (.dpdk dpdkFd)⟩ ::
          p.items (2 + 0) (ecCalls 0 v.ecFds) := by
    rw [callsWith, List.append_nil]
    rfl
  have hdpdk := @passes_of_ne_lib (p.revents 1) p.dpdk (.dpdk dpdkFd) (fun _ h => by cases h)
  rw [hitems, List.forall_mem_cons, List.forall_mem_cons, hdpdk, passes_ec]
  simp only [hlib, true_and, Nat.zero_le, true_imp_iff, Nat.zero_add]

theorem misrouted_iff (hpoll : p.pollFails = false) (hc : p.CreatesEc) {fd : ℤ} {fds : List ℤ}
    (hcq : d.vecs.cqFds = fd :: fds) :
    Misrouted d p ↔ (∀ it ∈ p.items 0 (callsWith libFd dpdkFd d.vecs []), it.Passes) ∧
      HasInput (p.revents (2 + d.vecs.ecFds.length)) := by
  rw [passes_iff hc]
  constructor
  · intro h
    exact ⟨⟨h.dpdk, h.ec⟩, h.cq⟩
  · rintro ⟨⟨hdpdk, hec⟩, hcq'⟩
    exact ⟨hpoll, (exitOn_eq_none_iff _).mp hc.readable, hc.whole, hc.type, hdpdk, hec,
      by rw [hcq]; exact List.cons_ne_nil _ _, hcq'⟩

theorem Misrouted.createsEc (h : Misrouted d p) : p.CreatesEc := by
  refine ⟨fun h0 => ?_, (exitOn_eq_none_iff _).mpr h.lib, h.whole, h.type⟩
  have hin := h.lib.2.2
  rw [h0] at hin
  exact hin (by decide)

/-- A pass that creates an event channel while there are completion queues. -/
theorem dispatched_iff_of_creates (hinv : d.Inv libFd dpdkFd) (hpoll : p.pollFails = false)
    (hc : p.CreatesEc) {fd : ℤ} {fds : List ℤ} (hcq : d.vecs.cqFds = fd :: fds) :
    PassDispatched libFd dpdkFd d p ↔ ¬Misrouted d p := by
  rw [@misrouted_iff libFd dpdkFd d p hpoll hc fd fds hcq]
  obtain ⟨n, hn⟩ : ∃ n, 2 + d.vecs.ecFds.length = n := ⟨_, rfl⟩
  -- the two lists of descriptors differ in the first completion queue
  have hmade : serveItems (p.items 0 (callsWith libFd dpdkFd d.vecs (p.cqCallsMade d.vecs))) =
      serveItems (p.items 0 (callsWith libFd dpdkFd d.vecs []) ++
        ⟨p.revents n, .ec fd d.vecs.ecFds.length,
          exitAfter (p.ret (.ec fd d.vecs.ecFds.length)) (.ec fd d.vecs.ecFds.length)⟩ ::
        p.items (n + 1) (cqCalls 1 fds)) := by
    rw [p.items_callsWith, Pass.cqCallsMade, if_pos hc, hcq, hn]
    rfl
  have hpolled : p.items 0 (polledCalls libFd dpdkFd d.vecs) =
      p.items 0 (callsWith libFd dpdkFd d.vecs []) ++
        ⟨p.revents n, .cq fd 0, exitAfter (p.ret (.cq fd 0)) (.cq fd 0)⟩ ::
        p.items (n + 1) (cqCalls 1 fds) := by
    rw [polledCalls_eq, p.items_callsWith, hcq, hn]
    rfl
  rw [hn]
  by_cases hserved : (∀ it ∈ p.items 0 (callsWith libFd dpdkFd d.vecs []), it.Passes) ∧
      HasInput (p.revents n)
  · refine iff_of_false (fun h => ?_) (not_not.mpr hserved)
    have hcalls := h.calls
    rw [hinv.pass_eq hpoll, hmade, p.readyAs_eq, hpolled] at hcalls
    exact not_prefix_of_served hserved.1 hserved.2 (by simp) hcalls
  · refine iff_of_true (dispatched_of_serveItems hinv hpoll ?_) hserved
    rw [hmade, hpolled]
    exact serveItems_congr_of_not_served hserved

/-- From a state in which the array matches the vectors. -/
theorem Daemon.Inv.dispatched_iff (hinv : d.Inv libFd dpdkFd) (p : Pass) :
    PassDispatched libFd dpdkFd d p ↔ ¬Misrouted d p := by
  cases hpoll : p.pollFails with
  | true =>
    have hpass : d.pass libFd dpdkFd p = ⟨[], d.vecs, some (.returned (-1))⟩ := if_pos hpoll
    refine iff_of_true ⟨?_, ?_⟩ fun h => ?_
    · rw [hpass]
      exact List.nil_prefix
    · rw [hpass]
      exact fun h => by cases h
    · rw [h.polls] at hpoll
      cases hpoll
  | false =>
    by_cases hc : p.CreatesEc
    · cases hcq : d.vecs.cqFds with
      | nil =>
        refine iff_of_true (dispatched_of_serveItems hinv hpoll ?_) fun h => h.cqs hcq
        rw [polledCalls_eq, Pass.cqCallsMade, if_pos hc, hcq]
        rfl
      | cons fd fds => exact dispatched_iff_of_creates hinv hpoll hc hcq
    · refine iff_of_true (dispatched_of_serveItems hinv hpoll ?_) fun h => hc h.createsEc
      rw [polledCalls_eq, Pass.cqCallsMade, if_neg hc]

end

/-! ## Every pass of every run -/

/-- The states between two passes, from vectors of any content on. -/
def Daemon.Reached (libFd dpdkFd : ℤ) : Daemon → Prop :=
  Reach (Daemon.step libFd dpdkFd) (fun _ d => d.exit = none)
    (fun d => ∃ v, d = Daemon.start libFd dpdkFd v)

theorem Daemon.Reached.inv {libFd dpdkFd : ℤ} {d : Daemon} (h : d.Reached libFd dpdkFd) :
    d.Inv libFd dpdkFd := by
  refine Reach.invariant ?_ (fun p d hd _ => hd.step p) h
  rintro d ⟨v, rfl⟩
  exact Daemon.inv_start v

/-- In every state reached a pass hands the ready descriptors to their own
    handlers exactly when it is not one in which an event channel is created, the
    first completion queue is ready, and nothing ends `workloop` before. -/
theorem dispatches_iff {libFd dpdkFd : ℤ} {d : Daemon} (h : d.Reached libFd dpdkFd) (p : Pass) :
    PassDispatched libFd dpdkFd d p ↔ ¬Misrouted d p :=
  h.inv.dispatched_iff p

/-- A pass in which the descriptors with the given indices are ready and the
    library sends a message of the given type. -/
def samplePass (ready : List ℕ) (type : UInt32) : Pass where
  pollFails := false
  revents i := if i ∈ ready then pollIn else 0
  lib := ⟨4, type, 9⟩
  dpdk := 0
  ec _ := ⟨80, 80⟩
  cq _ := 0

/-- One event channel and one completion queue, both ready. -/
theorem dispatches_both :
    PassDispatched 3 (-1) (Daemon.start 3 (-1) ⟨[5], [7]⟩) (samplePass [2, 3] 0) := by
  refine (dispatches_iff (Reach.start ⟨_, rfl⟩) _).mpr fun h => ?_
  exact absurd h.lib.ne_zero (by decide)

/-- The library asks for an event channel while the only completion queue is
    ready: its descriptor 7 goes to `ec_handle_recv`, as event channel 0. -/
theorem dispatches_wrong_kind :
    let d := Daemon.start 3 (-1) ⟨[], [7]⟩
    let p := samplePass [0, 2] 0
    Daemon.Reached 3 (-1) d ∧ (d.pass 3 (-1) p).calls = [.lib 3, .ec 7 0] ∧
      p.readyAs (polledCalls 3 (-1) d.vecs) = [.lib 3, .cq 7 0] ∧ ¬PassDispatched 3 (-1) d p := by
  intro d p
  have hmade : (d.pass 3 (-1) p).calls = [.lib 3, .ec 7 0] := by decide +kernel
  have hshould : p.readyAs (polledCalls 3 (-1) d.vecs) = [.lib 3, .cq 7 0] := by decide +kernel
  refine ⟨Reach.start ⟨_, rfl⟩, hmade, hshould, fun h => ?_⟩
  have hcalls := h.calls
  rw [hmade, hshould] at hcalls
  exact absurd hcalls (by decide)

end SoftUiWarp
