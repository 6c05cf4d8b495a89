import SoftUiWarp.Mpa.Handshake
import SoftUiWarp.Rdmap.Messages
import SoftUiWarp.Rdmap.ReadEndToEnd

/-!
# Two hosts with a stream between them

Each host has its two threads and its application, and TCP delivers what a host
has sent in pieces of any size at any time. All of them take their steps in any
order.

`sendmsg` takes what it is given and no call of `recv` fails, but a call may
return any part of what has arrived, wait for ever, or find a message cut and
make `rnic_recv` exit; a call that waits for a time is one made when the bytes
have come. Of the messages themselves it is assumed that each ends
with an sge that has some bytes, and that no sge has `2 ^ 31` or more.

Results:
* `host_invariant`: an invariant of one host in a run of the two.
* `waiting_recv`: what a step of `rnic_recv` does to the bytes on their way.
* `messages_in_order`: in every run the messages a host has received are the
  first ones its peer has sent, each with the fields and the bytes it was sent
  with; none is lost, repeated, overtaken or made up.
-/

namespace SoftUiWarp

open TcpStream ByteMem Runs

/-! ## The two hosts -/

/-- The hosts, and how many of the bytes each has sent have been delivered. -/
structure Link where
  host : Role → Sys
  arrived : Role → ℕ

inductive LinkLabel
  /-- A thread or the application of a host moves. -/
  | act (r : Role) (l : Label)
  /-- The next `k` bytes `r` has sent are delivered. -/
  | deliver (r : Role) (k : ℕ)

/-- The bytes `r` has sent that have not been delivered. -/
def Link.flight (w : Link) (r : Role) : List UInt8 :=
  (w.host r).ep.ddp.outb.sent.drop (w.arrived r)

/-- Bytes arrive at a host. -/
def Sys.deliver (s : Sys) (bs : List UInt8) : Sys := { s with ep := s.ep.deliver bs }

def Link.step (bld : Role → Build) : LinkLabel → Link → Link
  | .act r l, w =>
    { w with host := Function.update w.host r (SoftUiWarp.step (bld r) l (w.host r)) }
  | .deliver r k, w =>
    { host := Function.update w.host r.peer ((w.host r.peer).deliver ((w.flight r).take k))
      arrived := Function.update w.arrived r (w.arrived r + ((w.flight r).take k).length) }

section

variable (bld : Role → Build) (w : Link) {r q : Role} (l : Label) (k : ℕ)

@[simp] theorem Link.act_host :
    (Link.step bld (.act r l) w).host r = SoftUiWarp.step (bld r) l (w.host r) :=
  Function.update_self _ _ _

theorem Link.act_host_of_ne (h : q ≠ r) : (Link.step bld (.act r l) w).host q = w.host q :=
  Function.update_of_ne h _ _

@[simp] theorem Link.act_arrived : (Link.step bld (.act r l) w).arrived = w.arrived := rfl

@[simp] theorem Link.deliver_host : (Link.step bld (.deliver r k) w).host r.peer =
    (w.host r.peer).deliver ((w.flight r).take k) :=
  Function.update_self _ _ _

theorem Link.deliver_host_of_ne (h : q ≠ r.peer) :
    (Link.step bld (.deliver r k) w).host q = w.host q :=
  Function.update_of_ne h _ _

@[simp] theorem Link.deliver_arrived : (Link.step bld (.deliver r k) w).arrived r =
    w.arrived r + ((w.flight r).take k).length :=
  Function.update_self _ _ _

theorem Link.deliver_arrived_of_ne (h : q ≠ r) :
    (Link.step bld (.deliver r k) w).arrived q = w.arrived q :=
  Function.update_of_ne h _ _

end

/-- Two streams whose handshake is over: what was sent before has been read. -/
structure Link.Fresh (w : Link) : Prop where
  recvPc : ∀ r, (w.host r).ep.recvPc = .idle
  failFree : ∀ r, (w.host r).ep.ddp.inb.FailFree
  pending : ∀ r, (w.host r).ep.ddp.inb.pending = []
  evs : ∀ r, (w.host r).ep.ddp.outb.evs = []
  arrived : ∀ r, w.arrived r = (w.host r).ep.ddp.outb.sent.length

/-! ## Runs of the two -/

/-- Every call of the step sends one message. -/
def SendsMessages : LinkLabel → Link → Prop
  | .act r l, w => ∀ t ∈ txOf l (w.host r), ∀ c ∈ t.call, c.Sound
  | .deliver _ _, _ => True

instance : ∀ (l : LinkLabel) (w : Link), Decidable (SendsMessages l w)
  | .act r l, w => inferInstanceAs (Decidable (∀ t ∈ txOf l (w.host r), ∀ c ∈ t.call, c.Sound))
  | .deliver _ _, _ => isTrue trivial

/-- What the steps of `r` emit. -/
def onHost {τ : Type} (r : Role) (emit : Label → Sys → List τ) : LinkLabel → Link → List τ
  | .act q l, w => if q = r then emit l (w.host r) else []
  | .deliver _ _, _ => []

/-- The messages `r` sends in a run, in order. -/
def linkTxs (bld : Role → Build) (r : Role) (ls : List LinkLabel) (w : Link) : List Tx :=
  trace (Link.step bld) (onHost r msgOf) ls w

/-- The messages `r` receives in a run, in order. -/
def linkRxs (bld : Role → Build) (r : Role) (ls : List LinkLabel) (w : Link) : List Rx :=
  trace (Link.step bld) (onHost r rxOf) ls w

/-! ## The bytes on their way -/

/-- `bs` are the bytes `rnic_recv` goes on with, of which `flight` have not been
    delivered: from the first message that it has not received on. -/
inductive Waiting (ep : Ep) (flight : List UInt8) : List UInt8 → Prop
  | between (hpc : ∀ c, ep.recvPc ≠ .payload c) (hf : ep.ddp.inb.FailFree) :
      Waiting ep flight (ep.ddp.inb.pending ++ flight)
  | inside {c : SegCtx} {s₀ : Inbound} (hpc : ep.recvPc = .payload c)
      (h : Underway s₀ ep.ddp.inb ep.msg c) : Waiting ep flight (s₀.pending ++ flight)
  | stopped {bs : List UInt8} (hpc : ep.recvPc.Stopped) : Waiting ep flight bs

section

variable {ep ep' : Ep} {flight bs : List UInt8}

/-- More is sent. -/
theorem Waiting.sent (h : Waiting ep flight bs) (x : List UInt8) :
    Waiting ep (flight ++ x) (bs ++ x) := by
  cases h with
  | between hpc hf =>
    rw [List.append_assoc]
    exact .between hpc hf
  | inside hpc h =>
    rw [List.append_assoc]
    exact .inside hpc h
  | stopped hpc => exact .stopped hpc

/-- Some of what was sent arrives. -/
theorem Waiting.deliver {x : List UInt8} (h : Waiting ep (x ++ flight) bs) :
    Waiting (ep.deliver x) flight bs := by
  cases h with
  | between hpc hf =>
    rw [← List.append_assoc]
    exact .between hpc (hf.arrive x)
  | inside hpc h =>
    rw [← List.append_assoc]
    show Waiting (ep.deliver x) flight ((Inbound.arrive _ x).pending ++ flight)
    exact .inside hpc (h.arrive x)
  | stopped hpc => exact .stopped hpc

/-- `rnic_recv` has not moved. -/
theorem Waiting.same (h : Waiting ep flight bs) (hpc : ep'.recvPc = ep.recvPc)
    (hmsg : ep'.msg = ep.msg) (hinb : ep'.ddp.inb = ep.ddp.inb) : Waiting ep' flight bs := by
  cases h with
  | between h hf =>
    rw [← hinb]
    exact .between (by rw [hpc]; exact h) (by rw [hinb]; exact hf)
  | inside h hu =>
    refine .inside (hpc.trans h) ?_
    rw [hinb, hmsg]
    exact hu
  | stopped h => exact .stopped (by rw [hpc]; exact h)

/-- `rnic_recv` has moved on without reading. -/
theorem Waiting.moved (h : Waiting ep flight bs) (hpc : ∀ c, ep.recvPc ≠ .payload c)
    (hgo : ¬ep.recvPc.Stopped) (hpc' : ∀ c, ep'.recvPc ≠ .payload c)
    (hinb : ep'.ddp.inb = ep.ddp.inb) : Waiting ep' flight bs := by
  cases h with
  | between _ hf =>
    rw [← hinb]
    exact .between hpc' (by rw [hinb]; exact hf)
  | inside h => exact absurd h (hpc _)
  | stopped h => exact absurd h hgo

/-- The switch leaves the stream alone. -/
theorem dispatch_inb (bld : Build) (ep : Ep) (ret : ℤ) :
    (ep.dispatch bld ret).ddp.inb = ep.ddp.inb ∧
      ∀ c, (ep.dispatch bld ret).recvPc ≠ .payload c := by
  have h := dispatch_cases bld ep ret
  generalize ep.dispatch bld ret = ep' at h
  cases h with
  | request => exact ⟨rfl, fun c => by simp [Ep.fillResp]⟩
  | response =>
    obtain ⟨-, heq⟩ | ⟨wce, pending, -, heq⟩ := takePending_cases ep ret
    all_goals
      rw [heq]
      exact ⟨rfl, fun c => by simp⟩
  | @send op tags =>
    obtain ⟨-, heq⟩ | ⟨wr, rq, -, heq⟩ := takeRecv_cases (ep.withTags tags) ret op
    all_goals
      rw [heq]
      exact ⟨rfl, fun c => by simp⟩
  | ended tags con h =>
    refine ⟨rfl, fun c hc => ?_⟩
    dsimp only at hc
    rw [hc] at h
    cases h

/-- The messages `ts`, as bytes. -/
def wireOfTxs (ts : List Tx) : List UInt8 := (ts.flatMap Tx.fpdus).flatten

@[simp] theorem wireOfTxs_nil : wireOfTxs [] = [] := rfl

@[simp] theorem wireOfTxs_append (ts us : List Tx) :
    wireOfTxs (ts ++ us) = wireOfTxs ts ++ wireOfTxs us := by
  simp [wireOfTxs]

/-- A message whose call sends one message. -/
def Tx.Sound (t : Tx) : Prop := ∃ c, t.call = some c ∧ c.Sound

/-- A step of `rnic_recv` receives the message that is the next one, or none. -/
theorem waiting_recv {bld : Build} {s : Sys} {ts : List Tx} (hts : ∀ t ∈ ts, t.Sound)
    (h : Waiting s.ep flight (wireOfTxs ts)) :
    ∃ got rest, ts = got ++ rest ∧ List.Forall₂ Delivered got (rxOf .recv s) ∧
      Waiting (rnicRecvStep bld s.ep) flight (wireOfTxs rest) := by
  have hmoved := rnicRecvStep_moved bld s.ep
  generalize rnicRecvStep bld s.ep = ep' at hmoved ⊢
  have none (hrx : rxOf .recv s = []) (h' : Waiting ep' flight (wireOfTxs ts)) :
      ∃ got rest, ts = got ++ rest ∧ List.Forall₂ Delivered got (rxOf .recv s) ∧
        Waiting ep' flight (wireOfTxs rest) :=
    ⟨[], ts, rfl, by rw [hrx]; exact .nil, h'⟩
  cases hmoved with
  | begins hpc hinr =>
    refine none (rxOf_nil (by simp [hpc])) ?_
    generalize wireOfTxs ts = bs at h ⊢
    cases h with
    | between _ hf => exact .inside rfl (underway_of_head hf hinr)
    | inside hpay => rw [hpc] at hpay; cases hpay
    | stopped hstop => rw [hpc] at hstop; exact hstop.elim
  | @receives c out hpc hout hret =>
    rw [rxOf_recv hpc hout hret]
    generalize hbs : wireOfTxs ts = bs at h
    cases h with
    | between hne _ => exact absurd hpc (hne c)
    | stopped hstop => rw [hpc] at hstop; exact hstop.elim
    | @inside c' s₀ hpc' hu =>
      obtain rfl : c = c' := RecvPc.payload.inj (hpc.symm.trans hpc')
      obtain ⟨f, fs, hwhole⟩ := hu.whole (hout ▸ hret)
      rw [hout] at hwhole
      cases ts with
      | nil =>
        obtain ⟨rest, hrest⟩ := hwhole.pending
        have hf := f.wire_ne_nil
        rw [wireOfTxs_nil, hrest, wireOf_cons] at hbs
        simp [hf] at hbs
      | cons t ts =>
        obtain ⟨call, hcall, hsound⟩ := hts t (by simp)
        have hfp : t.fpdus = call.frames := by
          rw [Tx.fpdus, hcall]
          rfl
        have hp : s₀.pending ++ flight = call.frames.flatten ++ wireOfTxs ts := by
          rw [← hbs, ← hfp]
          simp [wireOfTxs]
        obtain ⟨harr, hpend⟩ := hsound.arrives hwhole hp
        refine ⟨[t], ts, rfl, .cons ⟨call, hcall, harr⟩ .nil, ?_⟩
        rw [← hpend]
        refine .between (fun c => by simp) ?_
        show out.ctx.inb.FailFree
        rw [hwhole.inb]
        exact hu.failFree.advance _
  | dispatches hpc =>
    obtain ⟨hinb, hne⟩ := dispatch_inb bld s.ep _
    exact none (rxOf_nil (by simp [hpc]))
      (h.moved (by simp [hpc]) (by simp [hpc, RecvPc.Stopped]) hne hinb)
  | stops hpc hstop =>
    refine none (rxOf_nil fun c hc => ?_) (.stopped hstop)
    rcases hpc with hidle | ⟨c', hpay, hret⟩
    · rw [hidle] at hc
      cases hc
    · obtain rfl : c' = c := RecvPc.payload.inj (hpay.symm.trans hc)
      exact hret
  | rests hpc =>
    refine none (rxOf_nil fun c hc => ?_) h
    rw [hc] at hpc
    exact hpc.elim
  | reposts hpc =>
    refine none (rxOf_nil (by simp [hpc]))
      (h.moved (by simp [hpc]) (by simp [hpc, RecvPc.Stopped]) (by simp) ?_)
    unfold ddpPostRecv
    split <;> rfl
  | answers hpc =>
    exact none (rxOf_nil (by simp [hpc]))
      (h.moved (by simp [hpc]) (by simp [hpc, RecvPc.Stopped]) (by simp) rfl)
  | completesRead hpc =>
    exact none (rxOf_nil (by simp [hpc]))
      (h.moved (by simp [hpc]) (by simp [hpc, RecvPc.Stopped]) (by simp) rfl)
  | completesRecv hpc =>
    exact none (rxOf_nil (by simp [hpc]))
      (h.moved (by simp [hpc]) (by simp [hpc, RecvPc.Stopped]) (by simp) rfl)

/-- No other step of a host moves its reader. -/
theorem step_inb (bld : Build) {l : Label} (hl : l ≠ .recv) (s : Sys) :
    (SoftUiWarp.step bld l s).ep.ddp.inb = s.ep.ddp.inb := by
  by_cases hsend : ∃ junk, l = .send junk
  · obtain ⟨junk, rfl⟩ := hsend
    show (rnicSendStep junk s.st s.ep).2.ddp.inb = s.ep.ddp.inb
    unfold rnicSendStep Ep.complete
    split
    · split
      · split <;> rfl
      · rfl
    · rfl
    · dsimp only
      split <;> rfl
    · rfl
  · obtain ⟨-, mem, sq, rq, queues, tags, heq, -⟩ :=
      step_call bld hl (fun junk h => hsend ⟨junk, h⟩) s
    rw [heq]

end

/-! ## One host of the two -/

/-- A condition on the steps of one host. -/
def AtHost (r : Role) (G : Label → Sys → Prop) : LinkLabel → Link → Prop
  | .act q l, w => q = r → G l (w.host q)
  | .deliver _ _, _ => True

instance {r : Role} {G : Label → Sys → Prop} [∀ l s, Decidable (G l s)] :
    ∀ (l : LinkLabel) (w : Link), Decidable (AtHost r G l w)
  | .act q l, w => inferInstanceAs (Decidable (q = r → G l (w.host q)))
  | .deliver _ _, _ => isTrue trivial

theorem admits_atHost (bld : Role → Build) (r : Role) (ls : List LinkLabel) (w : Link) :
    Admits (Link.step bld) (AtHost r fun _ _ => True) ls w := by
  refine Admits.of_forall (fun l w => ?_) ls w
  cases l with
  | act q l => exact fun _ => trivial
  | deliver q k => trivial

/-- What the steps of a host and the bytes that arrive there keep is true of the
    host after every run of the two. -/
theorem host_invariant {bld : Role → Build} {r : Role} {τ : Type} {emit : Label → Sys → List τ}
    {G : Label → Sys → Prop} {I : List τ → Sys → Prop}
    (hstep : ∀ l s ts, G l s → I ts s → I (ts ++ emit l s) (step (bld r) l s))
    (hdeliver : ∀ bs s ts, I ts s → I ts (s.deliver bs)) {ls : List LinkLabel} {w : Link}
    (hw : I [] (w.host r)) (hG : Admits (Link.step bld) (AtHost r G) ls w) :
    I (trace (Link.step bld) (onHost r emit) ls w) ((run (Link.step bld) ls w).host r) := by
  refine @trace_invariant _ _ (Link.step bld) (AtHost r G) _ (onHost r emit)
    (fun ts w => I ts (w.host r)) (fun l w ts hG h => ?_) ls w [] hw hG
  cases l with
  | act q l =>
    by_cases hq : q = r
    · subst hq
      rw [Link.act_host, onHost, if_pos rfl]
      exact hstep l _ ts (hG rfl) h
    · rw [Link.act_host_of_ne bld w l (Ne.symm hq), onHost, if_neg hq, List.append_nil]
      exact h
  | deliver q k =>
    rw [onHost, List.append_nil]
    by_cases hq : r = q.peer
    · subst hq
      rw [Link.deliver_host]
      exact hdeliver _ _ ts h
    · rw [Link.deliver_host_of_ne bld w k hq]
      exact h

/-! ## Messages on their way -/

/-- The messages `ts` of `r` are on their way: they are sent and `r.peer` has
    not received them. -/
structure OnTheWay (r : Role) (w : Link) (ts : List Tx) : Prop where
  evs : (w.host r).ep.ddp.outb.evs = []
  arrived : w.arrived r ≤ (w.host r).ep.ddp.outb.sent.length
  sound : ∀ t ∈ ts, t.Sound
  waiting : Waiting (w.host r.peer).ep (w.flight r) (wireOfTxs ts)

section

variable {bld : Role → Build} {w : Link} {r : Role} {ts : List Tx}

theorem Link.Fresh.onTheWay (hw : w.Fresh) (r : Role) : OnTheWay r w [] where
  evs := hw.evs r
  arrived := (hw.arrived r).le
  sound t ht := by cases ht
  waiting := by
    have hflight : w.flight r = [] := by rw [Link.flight, hw.arrived r, List.drop_length]
    have h : Waiting (w.host r.peer).ep (w.flight r)
        ((w.host r.peer).ep.ddp.inb.pending ++ w.flight r) :=
      .between (by simp [hw.recvPc r.peer]) (hw.failFree r.peer)
    rw [hw.pending r.peer, hflight] at h
    rw [hflight]
    exact h

/-- Requests without a message put nothing on the wire. -/
theorem wireOfTxs_filter (ts : List Tx) :
    wireOfTxs (ts.filter fun t => t.call.isSome) = wireOfTxs ts := by
  induction ts with
  | nil => rfl
  | cons t ts ih =>
    have hcons : ∀ us : List Tx, wireOfTxs (t :: us) = t.fpdus.flatten ++ wireOfTxs us := by
      simp [wireOfTxs]
    cases hc : t.call with
    | none =>
      rw [List.filter_cons_of_neg (by simp [hc]), hcons, ih, Tx.fpdus, hc]
      rfl
    | some c => rw [List.filter_cons_of_pos (by simp [hc]), hcons, hcons, ih]

/-- A step of the sender adds the message it sends. -/
theorem OnTheWay.send (h : OnTheWay r w ts) {l : Label} (hG : SendsMessages (.act r l) w) :
    OnTheWay r (Link.step bld (.act r l) w) (ts ++ onHost r msgOf (.act r l) w) := by
  have hout := step_sent (bld r) l h.evs
  have htx : onHost r msgOf (.act r l) w = msgOf l (w.host r) := if_pos rfl
  have hflight : (Link.step bld (.act r l) w).flight r =
      w.flight r ++ wireOfTxs (txOf l (w.host r)) := by
    rw [Link.flight, Link.act_host, hout, Link.act_arrived, List.drop_append_of_le_length h.arrived]
    rfl
  constructor
  case evs => rw [Link.act_host, hout]
  case arrived =>
    rw [Link.act_host, hout, List.length_append]
    exact h.arrived.trans (Nat.le_add_right _ _)
  case sound =>
    intro t ht
    rcases List.mem_append.mp ht with ht | ht
    · exact h.sound t ht
    · rw [htx] at ht
      obtain ⟨hmem, hsome⟩ := List.mem_filter.mp ht
      obtain ⟨c, hc⟩ := Option.isSome_iff_exists.mp hsome
      exact ⟨c, hc, hG t hmem c hc⟩
  case waiting =>
    rw [Link.act_host_of_ne bld w l r.peer_ne, hflight, htx, wireOfTxs_append, msgOf, wireOfTxs_filter]
    exact h.waiting.sent _

/-- A step of the receiver takes the next message, or none. -/
theorem OnTheWay.recv (h : OnTheWay r w ts) (l : Label) :
    ∃ got rest, ts = got ++ rest ∧
      List.Forall₂ Delivered got (onHost r.peer rxOf (.act r.peer l) w) ∧
      OnTheWay r (Link.step bld (.act r.peer l) w) rest := by
  have hsend := Link.act_host_of_ne bld w l r.peer_ne.symm
  have hflight : (Link.step bld (.act r.peer l) w).flight r = w.flight r := by
    rw [Link.flight, hsend]
    rfl
  have hrx : onHost r.peer rxOf (.act r.peer l) w = rxOf l (w.host r.peer) := if_pos rfl
  have next {rest : List Tx} (hsound : ∀ t ∈ rest, t.Sound)
      (hw : Waiting (step (bld r.peer) l (w.host r.peer)).ep (w.flight r) (wireOfTxs rest)) :
      OnTheWay r (Link.step bld (.act r.peer l) w) rest := by
    refine ⟨?_, ?_, hsound, ?_⟩
    · rw [hsend]
      exact h.evs
    · rw [hsend]
      exact h.arrived
    · rw [Link.act_host, hflight]
      exact hw
  rw [hrx]
  by_cases hl : l = .recv
  · subst hl
    obtain ⟨got, rest, heq, hgot, hw⟩ := waiting_recv h.sound h.waiting
    exact ⟨got, rest, heq, hgot, next (fun t ht => h.sound t (by simp [heq, ht])) hw⟩
  · have hnil := rxOf_of_ne hl (w.host r.peer)
    obtain ⟨hpc, hmsg, -⟩ := step_other (bld r.peer) hl (w.host r.peer)
    have hsame := h.waiting.same hpc hmsg (step_inb (bld r.peer) hl (w.host r.peer))
    exact ⟨[], ts, rfl, by rw [hnil]; exact .nil, next h.sound hsame⟩

/-- A delivery moves bytes from one place to the other. -/
theorem OnTheWay.deliver (h : OnTheWay r w ts) (k : ℕ) :
    OnTheWay r (Link.step bld (.deliver r k) w) ts := by
  have hsend := Link.deliver_host_of_ne bld w k r.peer_ne.symm
  have hlen : (w.flight r).length = (w.host r).ep.ddp.outb.sent.length - w.arrived r :=
    List.length_drop
  have hflight : (Link.step bld (.deliver r k) w).flight r = (w.flight r).drop k := by
    rw [Link.flight, hsend, Link.deliver_arrived, ← List.drop_drop]
    show (w.flight r).drop ((w.flight r).take k).length = _
    rw [List.length_take]
    rcases Nat.le_total k (w.flight r).length with hk | hk
    · rw [Nat.min_eq_left hk]
    · rw [Nat.min_eq_right hk, List.drop_length, List.drop_eq_nil_of_le hk]
  refine ⟨by rw [hsend]; exact h.evs, ?_, h.sound, ?_⟩
  · have ha := h.arrived
    rw [hsend, Link.deliver_arrived, List.length_take]
    omega
  · have hw := h.waiting
    rw [← List.take_append_drop k (w.flight r)] at hw
    rw [Link.deliver_host, hflight]
    exact hw.deliver

/-- What the peer has sent arrives, which is nothing that `r` sends. -/
theorem OnTheWay.other (h : OnTheWay r w ts) (k : ℕ) :
    OnTheWay r (Link.step bld (.deliver r.peer k) w) ts := by
  have hself := Link.deliver_host bld w (r := r.peer) k
  rw [r.peer_peer] at hself
  have hpeer : (Link.step bld (.deliver r.peer k) w).host r.peer = w.host r.peer :=
    Link.deliver_host_of_ne bld w k r.peer.peer_ne.symm
  have harr : (Link.step bld (.deliver r.peer k) w).arrived r = w.arrived r :=
    Link.deliver_arrived_of_ne bld w k r.peer_ne.symm
  have hout : ((Link.step bld (.deliver r.peer k) w).host r).ep.ddp.outb =
      (w.host r).ep.ddp.outb := by
    rw [hself]
    rfl
  refine ⟨by rw [hout]; exact h.evs, by rw [hout, harr]; exact h.arrived, h.sound, ?_⟩
  rw [hpeer, Link.flight, hout, harr]
  exact h.waiting

/-- Every step keeps the order: what it sends goes to the end, what it receives
    comes from the front. -/
theorem OnTheWay.step (h : OnTheWay r w ts) {l : LinkLabel} (hG : SendsMessages l w) :
    ∃ got rest, ts ++ onHost r msgOf l w = got ++ rest ∧
      List.Forall₂ Delivered got (onHost r.peer rxOf l w) ∧ OnTheWay r (Link.step bld l w) rest := by
  cases l with
  | act q l =>
    rcases r.eq_or_eq_peer q with rfl | rfl
    · have hrx : onHost q.peer rxOf (.act q l) w = [] := if_neg q.peer_ne.symm
      exact ⟨[], _, rfl, by rw [hrx]; exact .nil, h.send hG⟩
    · have htx : onHost r msgOf (.act r.peer l) w = [] := if_neg r.peer_ne
      rw [htx, List.append_nil]
      exact h.recv l
  | deliver q k =>
    refine ⟨[], ts, List.append_nil ts, .nil, ?_⟩
    rcases r.eq_or_eq_peer q with rfl | rfl
    · exact h.deliver k
    · exact h.other k

end

/-- The messages sent in a run are received or on their way. -/
theorem Link.Fresh.run (bld : Role → Build) {w : Link} (hw : w.Fresh) {ls : List LinkLabel}
    (hG : Admits (Link.step bld) SendsMessages ls w) (r : Role) :
    ∃ got rest, linkTxs bld r ls w = got ++ rest ∧
      List.Forall₂ Delivered got (linkRxs bld r.peer ls w) ∧
      OnTheWay r (Runs.run (Link.step bld) ls w) rest :=
  trace_channel (OnTheWay r) (fun _ _ _ hG h => h.step hG) (hw.onTheWay r) hG

/-- In every run in which each call sends a message, whatever order the threads,
    the applications and TCP take their steps in: the messages a host receives
    are the first ones its peer has sent, each as it was sent. When `rnic_recv` is between two messages, what it
    has still to read is exactly the others. -/
theorem messages_in_order (bld : Role → Build) {w : Link} (hw : w.Fresh) {ls : List LinkLabel}
    (hG : Admits (Link.step bld) SendsMessages ls w) (r : Role) :
    ∃ got rest, linkTxs bld r ls w = got ++ rest ∧
      List.Forall₂ Delivered got (linkRxs bld r.peer ls w) ∧
      (((run (Link.step bld) ls w).host r.peer).ep.recvPc = .idle →
        ((run (Link.step bld) ls w).host r.peer).ep.ddp.inb.pending ++
          (run (Link.step bld) ls w).flight r = wireOfTxs rest) := by
  obtain ⟨got, rest, heq, hgot, hend⟩ := hw.run bld hG r
  refine ⟨got, rest, heq, hgot, fun hidle => ?_⟩
  have hwait := hend.waiting
  generalize wireOfTxs rest = bs at hwait
  cases hwait with
  | between => rfl
  | inside hpc => rw [hidle] at hpc; cases hpc
  | stopped hpc => rw [hidle] at hpc; exact hpc.elim

/-! ## Three messages -/

/-- Two new streams. -/
def newLink : Link := ⟨fun _ => newSys [], fun _ => 0⟩

theorem fresh_newLink : newLink.Fresh where
  recvPc _ := rfl
  failFree _ _ := rfl
  pending _ := rfl
  evs _ := rfl
  arrived _ := rfl

/-- A write of three bytes. -/
def oneWrite : SendWr := ⟨1, .user [⟨0x1000, 3, 0⟩], .rdmaWrite, 0, 0x5002, 0x5000⟩

/-- A write, a Send and a write. The header of the first arrives and is read before
    its payload arrives; the third is on its way. -/
theorem messages_in_order_three :
    let ls : List LinkLabel := [.act .server (.register ⟨⟨0, 0⟩, 0x5000, 16⟩),
        .act .server (.postBuffers ⟨42, [⟨0x3000, 1, 0⟩]⟩), .act .server .postWr] ++
      (serve oneWrite ++ serve (sendWr 2) ++ serve oneWrite).map (.act .client) ++
      [.deliver .client 16, .act .server .recv, .deliver .client 100] ++
      List.replicate 6 (.act .server .recv)
    let bld : Role → Build := fun _ => ⟨false, false⟩
    (linkRxs bld .server ls newLink).length = 2 ∧
      ∃ got rest, linkTxs bld .client ls newLink = got ++ rest ∧ rest.length = 1 ∧
        List.Forall₂ Delivered got (linkRxs bld .server ls newLink) := by
  intro ls bld
  obtain ⟨got, rest, heq, hgot, -⟩ :=
    @messages_in_order bld newLink fresh_newLink ls (by decide +kernel) .client
  have hrxs : (linkRxs bld .server ls newLink).length = 2 := by decide +kernel
  have htxs : (linkTxs bld .client ls newLink).length = 3 := by decide +kernel
  have hlen : got.length = 2 := hgot.length_eq.trans hrxs
  rw [heq, List.length_append] at htxs
  exact ⟨hrxs, got, rest, heq, by omega, hgot⟩

end SoftUiWarp
