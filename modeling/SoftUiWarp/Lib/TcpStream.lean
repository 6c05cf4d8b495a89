import SoftUiWarp.Lib.ByteMem

/-!
# TCP connections

`Inbound` is the receiving side of a connection: the bytes the peer's TCP will
still deliver, the position of the reader in the whole stream, and what the
calls of `recv` see at each position: `errs p` calls fail when the reader is at
position `p`, and after them a call returns at most `ready p` bytes (and at
least one). A successful call moves the reader, so every sequence of short
counts and failures is given by some `ready` and `errs`. When no byte is left a
call reports the end of the stream (`eof`) or blocks.

`Chan` is one direction of a connection whose two ends both move: what is sent
is in flight until it is delivered, in pieces of any size, and a call of `recv`
sees what has been delivered.

Results:
* `recv_of_ready`: when everything is ready a call returns all it asks for.
* `recv_of_failFree`: without failures a call returns a non-empty prefix of the
  pending bytes.
* `recv_cases`, `moved_of_recv`: what a call can do on any stream.
* `size_fail`, `size_advance`: a call that returns something other than 0 makes
  progress.
* `Chan.all_send`, `Chan.all_deliver`, `Chan.all_read`: no byte is lost, made up
  or overtaken.
-/

namespace TcpStream

/-- The most bytes Linux transfers in one call (`MAX_RW_COUNT`). -/
def maxRwCount : ℕ := 0x7ffff000

structure Inbound where
  pending : List UInt8
  eof : Bool
  pos : ℕ := 0
  ready : ℕ → ℕ := fun _ => maxRwCount
  errs : ℕ → ℕ := fun _ => 0

/-- The reader `k` bytes further on. -/
def Inbound.advance (s : Inbound) (k : ℕ) : Inbound :=
  { s with pending := s.pending.drop k, pos := s.pos + k }

/-- `recv(sockfd, buf, n, 0)`: its return value, the bytes it stores and the
    stream after it; `none` if it blocks. -/
def Inbound.recv (s : Inbound) (n : ℕ) : Option (ℤ × List UInt8 × Inbound) :=
  if 0 < s.errs s.pos then
    some (-1, [], { s with errs := Function.update s.errs s.pos (s.errs s.pos - 1) })
  else if n = 0 then some (0, [], s)
  else if s.pending = [] then if s.eof then some (0, [], s) else none
  else
    let k := min (min n maxRwCount) (min (max 1 (s.ready s.pos)) s.pending.length)
    some (k, s.pending.take k, s.advance k)

/-- No call fails. -/
def Inbound.FailFree (s : Inbound) : Prop := ∀ p, s.errs p = 0

/-- More bytes arrive behind the pending ones. -/
def Inbound.arrive (s : Inbound) (bs : List UInt8) : Inbound := { s with pending := s.pending ++ bs }

/-- The same stream with everything ready: a call returns all the bytes it
    asks for while they exist. -/
def Inbound.full (s : Inbound) : Inbound := { s with ready := fun _ => maxRwCount }

/-- A bound on the number of calls that can make progress. -/
def Inbound.size (s : Inbound) : ℕ :=
  s.pending.length + ((List.range (s.pending.length + 1)).map fun i => s.errs (s.pos + i)).sum

section

variable {s : Inbound} {k n : ℕ}

@[simp] theorem advance_pending : (s.advance k).pending = s.pending.drop k := rfl

@[simp] theorem advance_eof : (s.advance k).eof = s.eof := rfl

@[simp] theorem advance_pos : (s.advance k).pos = s.pos + k := rfl

@[simp] theorem advance_ready : (s.advance k).ready = s.ready := rfl

@[simp] theorem advance_errs : (s.advance k).errs = s.errs := rfl

@[simp] theorem advance_zero : s.advance 0 = s := rfl

@[simp] theorem advance_advance (a b : ℕ) : (s.advance a).advance b = s.advance (a + b) := by
  simp [Inbound.advance, List.drop_drop, Nat.add_assoc]

@[simp] theorem arrive_pending (bs : List UInt8) : (s.arrive bs).pending = s.pending ++ bs := rfl

/-- A reader that moves over bytes it has does not notice what arrives behind them. -/
theorem advance_arrive {k : ℕ} (h : k ≤ s.pending.length) (bs : List UInt8) :
    (s.arrive bs).advance k = (s.advance k).arrive bs := by
  simp [Inbound.advance, Inbound.arrive, List.drop_append_of_le_length h]

@[simp] theorem full_pending : s.full.pending = s.pending := rfl

@[simp] theorem full_eof : s.full.eof = s.eof := rfl

@[simp] theorem full_pos : s.full.pos = s.pos := rfl

@[simp] theorem full_ready (p : ℕ) : s.full.ready p = maxRwCount := rfl

theorem full_advance : (s.advance k).full = s.full.advance k := rfl

theorem Inbound.FailFree.advance (hf : s.FailFree) (k : ℕ) : (s.advance k).FailFree := hf

theorem Inbound.FailFree.arrive (hf : s.FailFree) (bs : List UInt8) : (s.arrive bs).FailFree := hf

theorem Inbound.FailFree.full (hf : s.FailFree) : s.full.FailFree := hf

theorem Inbound.FailFree.size (hf : s.FailFree) : s.size = s.pending.length := by
  have h : ∀ p, s.errs p = 0 := hf
  simp [Inbound.size, h]

/-- A call that asks for nothing returns at once. -/
theorem recv_zero (hf : s.FailFree) : s.recv 0 = some (0, [], s) := by
  simp [Inbound.recv, hf s.pos]

/-- Without failures a call that asks for some bytes of a non-empty stream
    returns a non-empty prefix of what is pending. -/
theorem recv_of_failFree (hf : s.FailFree) (hn : 0 < n) (hp : s.pending ≠ [])
    (hk : k = min (min n maxRwCount) (min (max 1 (s.ready s.pos)) s.pending.length)) :
    s.recv n = some ((k : ℤ), s.pending.take k, s.advance k) := by
  subst hk
  simp [Inbound.recv, hf s.pos, hn.ne', hp]

/-- A call that finds all it asks for ready returns it. -/
theorem recv_of_ready (hf : s.FailFree) (hn : n ≤ s.pending.length) (hmax : n ≤ maxRwCount)
    (hr : n ≤ max 1 (s.ready s.pos)) :
    s.recv n = some ((n : ℤ), s.pending.take n, s.advance n) := by
  rcases Nat.eq_zero_or_pos n with rfl | h0
  · simp [recv_zero hf]
  · have hp : s.pending ≠ [] := by
      intro h
      simp [h] at hn
      omega
    exact recv_of_failFree hf h0 hp (by omega)

/-- At the end of the bytes a call reports the end of the stream or blocks. -/
theorem recv_of_pending_nil (hf : s.FailFree) (hn : 0 < n) (hp : s.pending = []) :
    s.recv n = if s.eof then some (0, [], s) else none := by
  simp [Inbound.recv, hf s.pos, hn.ne', hp]

end

/-! ### Calls with any result -/

/-- The reader after a call that failed. -/
def Inbound.fail (s : Inbound) : Inbound :=
  { s with errs := Function.update s.errs s.pos (s.errs s.pos - 1) }

/-- The stream has ended, and every further call reports it. -/
structure Inbound.Over (s : Inbound) : Prop where
  pending : s.pending = []
  eof : s.eof = true
  errs : s.errs s.pos = 0

/-- What a call that asks for `n` bytes can do: fail, find nothing to return,
    or return some of the pending bytes. -/
inductive Received (s : Inbound) (n : ℕ) : ℤ → List UInt8 → Inbound → Prop
  | failed (h : 0 < s.errs s.pos) : Received s n (-1) [] s.fail
  | nothing (h : n = 0 ∨ s.Over) : Received s n 0 [] s
  | bytes {k : ℕ} (h0 : 0 < k) (hn : k ≤ n) (hmax : k ≤ maxRwCount)
      (hk : k ≤ s.pending.length) : Received s n k (s.pending.take k) (s.advance k)

/-- A call that asks for `n` bytes returns all of them. -/
def Inbound.Whole (s : Inbound) (n : ℕ) : Prop :=
  s.recv n = some ((n : ℤ), s.pending.take n, s.advance n)

/-- The reader is `k` bytes further on, whatever calls have failed. -/
structure Inbound.Moved (s : Inbound) (k : ℕ) (t : Inbound) : Prop where
  le : k ≤ s.pending.length
  pending : t.pending = s.pending.drop k
  pos : t.pos = s.pos + k
  eof : t.eof = s.eof

section

variable {s t u : Inbound} {j k n : ℕ} {r : ℤ} {bs : List UInt8}

@[simp] theorem fail_pending : s.fail.pending = s.pending := rfl

@[simp] theorem fail_eof : s.fail.eof = s.eof := rfl

@[simp] theorem fail_pos : s.fail.pos = s.pos := rfl

theorem recv_cases (h : s.recv n = some (r, bs, t)) : Received s n r bs t := by
  unfold Inbound.recv at h
  split at h
  · rename_i herr
    cases h
    exact .failed herr
  · rename_i herr
    split at h
    · rename_i h0
      cases h
      exact .nothing (.inl h0)
    · rename_i h0
      split at h
      · rename_i hp
        split at h
        · rename_i he
          cases h
          exact .nothing (.inr ⟨hp, he, by omega⟩)
        · cases h
      · rename_i hp
        have hlen := List.length_pos_iff.mpr hp
        have hmax : 0 < maxRwCount := by decide
        cases h
        exact .bytes (by omega) (by omega) (by omega) (by omega)

/-- Only a call on a stream that is still open blocks. -/
theorem eof_of_recv (h : s.recv n = none) : s.eof = false := by
  unfold Inbound.recv at h
  split_ifs at h with _ _ _ he
  simpa using he

/-- A call that returns no less than it was asked for. -/
theorem whole_of_recv (h : s.recv n = some (r, bs, t)) (hr : (n : ℤ) ≤ r) : s.Whole n := by
  unfold Inbound.Whole
  cases recv_cases h with
  | failed => omega
  | nothing =>
    obtain rfl : n = 0 := by omega
    exact h
  | bytes h0 hn =>
    obtain rfl : _ = n := le_antisymm hn (by omega)
    exact h

theorem recv_le (h : s.recv n = some (r, bs, t)) :
    r ≤ s.pending.length ∧ r ≤ maxRwCount := by
  cases recv_cases h with
  | failed => omega
  | nothing => omega
  | bytes => omega

theorem Inbound.Whole.le (h : s.Whole n) : n ≤ s.pending.length ∧ n ≤ maxRwCount := by
  have hle := recv_le h
  omega

theorem Inbound.Over.recv (h : s.Over) (n : ℕ) : s.recv n = some (0, [], s) := by
  simp [Inbound.recv, h.errs, h.pending, h.eof]

theorem Inbound.Moved.refl (s : Inbound) : s.Moved 0 s := ⟨Nat.zero_le _, rfl, rfl, rfl⟩

theorem Inbound.moved_fail (s : Inbound) : s.Moved 0 s.fail := ⟨Nat.zero_le _, rfl, rfl, rfl⟩

theorem Inbound.moved_advance (hk : k ≤ s.pending.length) : s.Moved k (s.advance k) :=
  ⟨hk, rfl, rfl, rfl⟩

theorem Inbound.Moved.trans (h : s.Moved j t) (h' : t.Moved k u) : s.Moved (j + k) u := by
  have hle := h'.le
  rw [h.pending, List.length_drop] at hle
  have hj := h.le
  exact
    { le := by omega
      pending := by rw [h'.pending, h.pending, List.drop_drop]
      pos := by rw [h'.pos, h.pos, Nat.add_assoc]
      eof := h'.eof.trans h.eof }

/-- A call that fails reads nothing and counts as one byte less. -/
theorem moved_of_recv (h : s.recv n = some (r, bs, t)) :
    ∃ k : ℕ, s.Moved k t ∧ (k : ℤ) = r + if r = -1 then 1 else 0 := by
  cases recv_cases h with
  | failed => exact ⟨0, s.moved_fail, by simp⟩
  | nothing => exact ⟨0, .refl s, by simp⟩
  | bytes h0 _ _ hk => exact ⟨_, Inbound.moved_advance hk, by rw [if_neg (by omega), add_zero]⟩

/-- A failure uses up one of the calls that fail here. -/
theorem size_fail (h : 0 < s.errs s.pos) : s.fail.size < s.size := by
  have hrest : ∀ i, s.fail.errs (s.pos + (i + 1)) = s.errs (s.pos + (i + 1)) := fun i =>
    Function.update_of_ne (by omega) _ _
  have hhere : s.fail.errs s.pos = s.errs s.pos - 1 := Function.update_self _ _ _
  simp only [Inbound.size, fail_pending, fail_pos, List.range_succ_eq_map, List.map_cons,
    List.map_map, List.sum_cons, Function.comp_def, Nat.succ_eq_add_one, hrest, hhere, Nat.add_zero]
  omega

/-- Bytes that are read are no longer pending. -/
theorem size_advance (h0 : 0 < k) (hk : k ≤ s.pending.length) : (s.advance k).size < s.size := by
  obtain ⟨j, hj⟩ : ∃ j, s.pending.length = k + j := ⟨s.pending.length - k, by omega⟩
  have hsum : ((List.range (j + 1)).map fun i => s.errs (s.pos + k + i)).sum ≤
      ((List.range (k + j + 1)).map fun i => s.errs (s.pos + i)).sum := by
    have hrange : List.range (k + j + 1) = List.range k ++ (List.range (j + 1)).map (k + ·) := by
      rw [Nat.add_assoc]
      exact List.range_add
    rw [hrange, List.map_append, List.sum_append, List.map_map]
    simp only [Function.comp_def, Nat.add_assoc]
    exact Nat.le_add_left _ _
  unfold Inbound.size
  rw [advance_pending, advance_pos, advance_errs, List.length_drop, hj, Nat.add_sub_cancel_left]
  omega

end

/-! ## A connection with both its ends -/

/-- One direction of a connection: the bytes the receiver has read, those
    delivered and not read, and those in flight. -/
structure Chan where
  taken : List UInt8 := []
  ready : List UInt8 := []
  flight : List UInt8 := []
  deriving DecidableEq, Repr

/-- Everything sent so far. -/
def Chan.all (c : Chan) : List UInt8 := c.taken ++ c.ready ++ c.flight

def Chan.send (c : Chan) (bs : List UInt8) : Chan := { c with flight := c.flight ++ bs }

/-- The next `k` bytes in flight are delivered. -/
def Chan.deliver (c : Chan) (k : ℕ) : Chan :=
  { c with ready := c.ready ++ c.flight.take k, flight := c.flight.drop k }

/-- The receiver reads at most `n` bytes. -/
def Chan.read (c : Chan) (n : ℕ) : Chan :=
  { c with taken := c.taken ++ c.ready.take n, ready := c.ready.drop n }

section

variable (c : Chan)

@[simp] theorem Chan.all_send (bs : List UInt8) : (c.send bs).all = c.all ++ bs := by
  simp [Chan.all, Chan.send]

@[simp] theorem Chan.all_deliver (k : ℕ) : (c.deliver k).all = c.all := by
  simp [Chan.all, Chan.deliver]

@[simp] theorem Chan.all_read (n : ℕ) : (c.read n).all = c.all := by
  simp [Chan.all, Chan.read]

@[simp] theorem Chan.taken_send (bs : List UInt8) : (c.send bs).taken = c.taken := rfl

@[simp] theorem Chan.taken_deliver (k : ℕ) : (c.deliver k).taken = c.taken := rfl

/-- What is delivered and unread continues what was read. -/
theorem Chan.ready_eq {c : Chan} {bs cs : List UInt8} (h : c.all = bs ++ cs) (ht : c.taken = bs) :
    c.ready ++ c.flight = cs := by
  rw [Chan.all, ht, List.append_assoc] at h
  exact List.append_cancel_left h

end

end TcpStream
