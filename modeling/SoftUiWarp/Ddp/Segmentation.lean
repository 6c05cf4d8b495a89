import SoftUiWarp.Ddp.Send
import SoftUiWarp.Lib.Runs

/-!
# The segmentation loops

The nested loops of `ddp_send_tagged` and `ddp_send_untagged` one step at a
time, with a record of the `mpa_send` calls they make: the entries of
`mpa_sge_list` and the value returned. Nothing bounds the number of steps, so
that the loops end is something to prove.

Results:
* `segStep_toGo`: every step brings the loops nearer to their end.
* `segStep_result`: the steps compute what `sgeListLoop` does, and so what
  `ddpSendTagged` and `ddpSendUntagged` return and emit.
* `segStep_fits`, `segStep_tiling`, `segStep_headed`: the loop invariants, how long
  the payloads are, which ranges have been sent and which header each call had.
* `segmentation`: the loops end, and what they have done if every call succeeded.
* `Segmented.content`: the bytes sent are then the content of the sges.
-/

namespace SoftUiWarp

open TcpStream ByteMem Runs StateTransition

/-! ## The loops, step by step -/

/-- A call of `mpa_send`: `hdr.bits`, `hdr2`, the third entry of `mpa_sge_list`,
    and the return value. -/
structure SegCall (σ : Type) where
  bits : UInt8
  hdr2 : σ
  addr : UInt64
  length : UInt32
  ret : ℤ

/-- Where the loops are: at the head of the `for` loop with the sges from `i` on,
    at the head of the `while` loop for the sge `i` with `remaining_bytes`, or
    behind a `return`. -/
inductive SegPc
  | sges (rest : List Sge)
  | segs (sg : Sge) (rest : List Sge) (remaining : ℤ)
  | done (ret : ℤ)

/-- The state of the loops and the calls made so far. -/
structure SegRun (σ : Type) where
  pc : SegPc
  st : SendSt σ
  calls : List (SegCall σ)

section

variable {σ : Type}

/-- The content of the three entries of `mpa_sge_list`. -/
def sgEntries (H : SegHdr σ) (mem : Mem) (bits : UInt8) (hdr2 : σ) (addr : UInt64)
    (length : UInt32) : List (List UInt8) :=
  [[bits], H.bytes hdr2, mem.read addr length.toNat]

/-- The ULPDU of a call, entry by entry. -/
def SegCall.sgList (H : SegHdr σ) (mem : Mem) (c : SegCall σ) : List (List UInt8) :=
  sgEntries H mem c.bits c.hdr2 c.addr c.length

/-- The payload range. -/
def SegCall.range (c : SegCall σ) : MemRange := (c.addr, c.length.toNat)

/-- The range an sge describes. -/
def Sge.region (sg : Sge) : MemRange := (sg.addr, sg.length.toNat)

/-- The body of the `while` loop (lines 84–101 and 138–154). -/
def segBody (H : SegHdr σ) (mem : Mem) (sg : Sge) (rest : List Sge) (remaining : ℤ)
    (s : SegRun σ) : SegRun σ :=
  let len := packetLen remaining
  let bits := if rest.isEmpty ∧ len = remaining then s.st.bits ||| ddpFlagLast else s.st.bits
  let addr := sg.addr + (sg.length - UInt32.ofInt remaining).toUInt64
  let (ret, out) := mpaSend s.st.out (sgEntries H mem bits s.st.hdr2 addr (UInt32.ofInt len))
  let calls := s.calls ++ [⟨bits, s.st.hdr2, addr, UInt32.ofInt len, ret⟩]
  if ret < 0 then ⟨.done ret, ⟨bits, s.st.hdr2, out⟩, calls⟩
  else ⟨.segs sg rest (remaining - len), ⟨bits, H.advance s.st.hdr2 len, out⟩, calls⟩

/-- One test of a loop condition, with the body of the `while` loop if it holds. -/
def segStep (H : SegHdr σ) (mem : Mem) (s : SegRun σ) : Option (SegRun σ) :=
  match s.pc with
  | .sges [] => some { s with pc := .done 0 }
  | .sges (sg :: rest) => some { s with pc := .segs sg rest (remainingBytes sg) }
  | .segs sg rest remaining =>
    if remaining > 0 then some (segBody H mem sg rest remaining s)
    else some { s with pc := .sges rest }
  | .done _ => none

/-- `ddp_send_tagged` at its loop (lines 56–74). -/
def taggedRun (out : Outbound) (nextHdr : DdpTaggedMeta) (sgeList : List Sge) :
    SegRun (DdpTaggedMeta × UInt64) :=
  ⟨.sges sgeList, ⟨0 ||| ddpHdrT ||| 1, (nextHdr, ntohll nextHdr.TO), out⟩, []⟩

/-- `ddp_send_untagged` at its loop (lines 112–128). -/
def untaggedRun (out : Outbound) (nextHdr : DdpUntaggedMeta) (sgeList : List Sge) :
    SegRun DdpUntaggedMeta :=
  ⟨.sges sgeList, ⟨0 ||| 1, { nextHdr with mo := 0 }, out⟩, []⟩

/-! ## What a step does -/

/-- `c` is the call the body of the `while` loop makes, and leaves the socket as `out`. -/
structure SegCall.MadeIn (H : SegHdr σ) (mem : Mem) (sg : Sge) (rest : List Sge) (r : ℤ)
    (st : SendSt σ) (c : SegCall σ) (out : Outbound) : Prop where
  bits : c.bits = if rest.isEmpty ∧ packetLen r = r then st.bits ||| ddpFlagLast else st.bits
  hdr2 : c.hdr2 = st.hdr2
  addr : c.addr = sg.addr + (sg.length - UInt32.ofInt r).toUInt64
  length : c.length = UInt32.ofInt (packetLen r)
  sent : mpaSend st.out (c.sgList H mem) = (c.ret, out)

/-- The five ways a step can go. -/
inductive SegMove (H : SegHdr σ) (mem : Mem) (s : SegRun σ) : SegRun σ → Prop
  | finish (h : s.pc = .sges []) : SegMove H mem s { s with pc := .done 0 }
  | enter {sg : Sge} {rest : List Sge} (h : s.pc = .sges (sg :: rest)) :
      SegMove H mem s { s with pc := .segs sg rest (remainingBytes sg) }
  | leave {sg : Sge} {rest : List Sge} {r : ℤ} (h : s.pc = .segs sg rest r) (hr : r ≤ 0) :
      SegMove H mem s { s with pc := .sges rest }
  | fail {sg : Sge} {rest : List Sge} {r : ℤ} {c : SegCall σ} {out : Outbound}
      (h : s.pc = .segs sg rest r) (hr : 0 < r) (hc : c.MadeIn H mem sg rest r s.st out)
      (hret : c.ret < 0) :
      SegMove H mem s ⟨.done c.ret, ⟨c.bits, s.st.hdr2, out⟩, s.calls ++ [c]⟩
  | send {sg : Sge} {rest : List Sge} {r : ℤ} {c : SegCall σ} {out : Outbound}
      (h : s.pc = .segs sg rest r) (hr : 0 < r) (hc : c.MadeIn H mem sg rest r s.st out)
      (hret : 0 ≤ c.ret) :
      SegMove H mem s ⟨.segs sg rest (r - packetLen r),
        ⟨c.bits, H.advance s.st.hdr2 (packetLen r), out⟩, s.calls ++ [c]⟩

variable {H : SegHdr σ} {mem : Mem} {s s' : SegRun σ}

theorem segBody_move {sg : Sge} {rest : List Sge} {r : ℤ} (h : s.pc = .segs sg rest r)
    (hr : 0 < r) : SegMove H mem s (segBody H mem sg rest r s) := by
  obtain ⟨bits, hbits⟩ : ∃ bits, bits =
      if rest.isEmpty ∧ packetLen r = r then s.st.bits ||| ddpFlagLast else s.st.bits := ⟨_, rfl⟩
  obtain ⟨addr, haddr⟩ : ∃ addr, addr = sg.addr + (sg.length - UInt32.ofInt r).toUInt64 := ⟨_, rfl⟩
  obtain ⟨⟨ret, out⟩, hsent⟩ : ∃ p, mpaSend s.st.out
      (sgEntries H mem bits s.st.hdr2 addr (UInt32.ofInt (packetLen r))) = p := ⟨_, rfl⟩
  have hc : SegCall.MadeIn H mem sg rest r s.st
      ⟨bits, s.st.hdr2, addr, UInt32.ofInt (packetLen r), ret⟩ out :=
    ⟨hbits, rfl, haddr, rfl, hsent⟩
  simp only [segBody, ← hbits, ← haddr, hsent]
  split
  · exact .fail h hr hc ‹_›
  · exact .send h hr hc (not_lt.mp ‹_›)

theorem segStep_move (h : segStep H mem s = some s') : SegMove H mem s s' := by
  unfold segStep at h
  split at h
  · next hpc =>
    cases h
    exact .finish hpc
  · next hpc =>
    cases h
    exact .enter hpc
  · next hpc =>
    split at h
    · next hr =>
      cases h
      exact segBody_move hpc hr
    · next hr =>
      cases h
      exact .leave hpc (not_lt.mp hr)
  · cases h

theorem segStep_none (h : segStep H mem s = none) : ∃ ret, s.pc = .done ret := by
  unfold segStep at h
  split at h
  · cases h
  · cases h
  · split at h <;> cases h
  · next ret hpc => exact ⟨ret, hpc⟩

/-! ## Termination -/

/-- The number of steps left if no call failed and every segment had one byte. -/
def SegRun.toGo (s : SegRun σ) : ℕ :=
  let cost (rest : List Sge) := (rest.map fun sg => (remainingBytes sg).toNat + 2).sum
  match s.pc with
  | .sges rest => cost rest + 1
  | .segs _ rest r => r.toNat + cost rest + 2
  | .done _ => 0

/-- Every step brings the loops nearer to their end. -/
theorem segStep_toGo (h : segStep H mem s = some s') : s'.toGo < s.toGo := by
  cases segStep_move h with
  | finish hpc => simp [SegRun.toGo, hpc]
  | enter hpc =>
    simp only [SegRun.toGo, hpc, List.map_cons, List.sum_cons]
    omega
  | leave hpc hr =>
    simp only [SegRun.toGo, hpc]
    omega
  | fail hpc hr =>
    simp only [SegRun.toGo, hpc]
    omega
  | send hpc hr =>
    have hlen := packetLen_bounds hr
    simp only [SegRun.toGo, hpc]
    omega

/-! ## The steps compute what the loops return -/

theorem SegCall.MadeIn.toNat_length {sg : Sge} {rest : List Sge} {r : ℤ} {c : SegCall σ}
    {out : Outbound} {st : SendSt σ} (hc : c.MadeIn H mem sg rest r st out) (hr : 0 < r) :
    (c.length.toNat : ℤ) = packetLen r := by
  obtain ⟨h0, -, hle⟩ := packetLen_bounds hr
  obtain ⟨k, hk⟩ := Int.eq_ofNat_of_zero_le h0.le
  rw [mulpdu_eq] at hle
  rw [hc.length, hk, UInt32.ofInt_natCast, UInt32.toNat_ofNat']
  omega

/-- `remaining_bytes` steps are enough for the inner loop. -/
theorem sgeLoop_fuel {sg : Sge} {last : Bool} : ∀ (fuel fuel' : ℕ) (r : ℤ) (st : SendSt σ),
    r.toNat ≤ fuel → r.toNat ≤ fuel' →
      sgeLoop H mem sg last fuel r st = sgeLoop H mem sg last fuel' r st := by
  intro fuel
  induction fuel with
  | zero =>
    intro fuel' r st h _
    have hr : r ≤ 0 := by omega
    rw [sgeLoop_of_nonpos hr, sgeLoop_of_nonpos hr]
  | succ fuel ih =>
    intro fuel' r st h h'
    by_cases hr : 0 < r
    · obtain ⟨fuel', rfl⟩ : ∃ k, fuel' = k + 1 := ⟨fuel' - 1, by omega⟩
      have hlen := packetLen_bounds hr
      have hrest := fun st => ih fuel' (r - packetLen r) st (by omega) (by omega)
      rw [sgeLoop_succ hr, sgeLoop_succ hr]
      simp only [hrest]
    · rw [sgeLoop_of_nonpos (not_lt.mp hr), sgeLoop_of_nonpos (not_lt.mp hr)]

/-- One round of the inner loop, given the call it makes. -/
theorem sgeLoop_round {sg : Sge} {rest : List Sge} {r : ℤ} {c : SegCall σ} {out : Outbound}
    {st : SendSt σ} (hc : c.MadeIn H mem sg rest r st out) (hr : 0 < r) :
    sgeLoop H mem sg rest.isEmpty r.toNat r st =
      if c.ret < 0 then (c.ret, { st with bits := c.bits, out := out })
      else sgeLoop H mem sg rest.isEmpty (r - packetLen r).toNat (r - packetLen r)
        ⟨c.bits, H.advance st.hdr2 (packetLen r), out⟩ := by
  obtain ⟨fuel, hfuel⟩ : ∃ k, r.toNat = k + 1 := ⟨r.toNat - 1, by omega⟩
  have hlen := packetLen_bounds hr
  have hread : c.length.toNat = (packetLen r).toNat := by
    have := hc.toNat_length hr
    omega
  have hsent := hc.sent
  rw [SegCall.sgList, sgEntries, hc.hdr2, hc.addr, hread, hc.bits] at hsent
  rw [hfuel, sgeLoop_succ hr]
  simp only [hsent, hc.bits]
  rw [sgeLoop_fuel fuel _ _ _ (by omega) le_rfl]

/-- What the loops will have returned and sent, by the model that runs them to
    their end. -/
def SegRun.result (H : SegHdr σ) (mem : Mem) (s : SegRun σ) : ℤ × SendSt σ :=
  match s.pc with
  | .sges rest => sgeListLoop H mem rest s.st
  | .segs sg rest r =>
    let (ret, st) := sgeLoop H mem sg rest.isEmpty r.toNat r s.st
    if ret < 0 then (ret, st) else sgeListLoop H mem rest st
  | .done ret => (ret, s.st)

theorem segStep_result (h : segStep H mem s = some s') :
    s'.result H mem = s.result H mem := by
  cases segStep_move h with
  | finish hpc => simp only [SegRun.result, hpc, sgeListLoop]
  | enter hpc => simp only [SegRun.result, hpc, sgeListLoop]
  | leave hpc hr =>
    simp only [SegRun.result, hpc, sgeLoop_of_nonpos hr]
    rw [if_neg (by omega)]
  | fail hpc hr hc hret =>
    simp only [SegRun.result, hpc, sgeLoop_round hc hr, if_pos hret]
  | send hpc hr hc hret =>
    simp only [SegRun.result, hpc, sgeLoop_round hc hr, if_neg (not_lt.mpr hret)]

/-! ## The calls -/

/-- The payload of every call has between 1 and `MULPDU` bytes. -/
def SegRun.Fits (s : SegRun σ) : Prop :=
  ∀ c ∈ s.calls, 1 ≤ c.length.toNat ∧ c.length.toNat ≤ mulpdu

theorem SegCall.MadeIn.fits {sg : Sge} {rest : List Sge} {r : ℤ} {c : SegCall σ} {out : Outbound}
    {st : SendSt σ} (hc : c.MadeIn H mem sg rest r st out) (hr : 0 < r) :
    1 ≤ c.length.toNat ∧ c.length.toNat ≤ mulpdu := by
  have hlen := packetLen_bounds hr
  have := hc.toNat_length hr
  omega

theorem SegRun.Fits.snoc (h : s.Fits) {c : SegCall σ}
    (hc : 1 ≤ c.length.toNat ∧ c.length.toNat ≤ mulpdu) :
    ∀ d ∈ s.calls ++ [c], 1 ≤ d.length.toNat ∧ d.length.toNat ≤ mulpdu := by
  intro d hd
  rcases List.mem_append.mp hd with hd | hd
  · exact h d hd
  · rw [List.mem_singleton.mp hd]
    exact hc

theorem segStep_fits (h : segStep H mem s = some s') (hs : s.Fits) : s'.Fits := by
  cases segStep_move h with
  | finish hpc => exact hs
  | enter hpc => exact hs
  | leave hpc hr => exact hs
  | fail hpc hr hc hret => exact hs.snoc (hc.fits hr)
  | send hpc hr hc hret => exact hs.snoc (hc.fits hr)

/-- No sum of three entry lengths that fit wraps. -/
theorem SegCall.ulpdu_bounds {c : SegCall σ} (hH : (H.bytes c.hdr2).length ≤ ddpUntaggedHdrSize)
    (hc : c.length.toNat ≤ mulpdu) :
    (c.sgList H mem).flatten.length ≤ 65032 ∧
      (ulpduLen (c.sgList H mem)).toNat = (c.sgList H mem).flatten.length := by
  have hlen : (c.sgList H mem).flatten.length ≤ 65032 := by
    rw [mulpdu_eq] at hc
    simp only [ddpUntaggedHdrSize] at hH
    simp only [SegCall.sgList, sgEntries, List.flatten_cons, List.flatten_nil, List.length_append,
      List.length_cons, List.length_nil, Mem.length_read]
    omega
  refine ⟨hlen, ?_⟩
  rw [ulpduLen_toNat]
  omega

theorem sendmsg_accepts {o o' : Outbound} {bs : List UInt8} {ret : ℤ}
    (h : SendEvent.fail ∉ o.evs) (hs : o.sendmsg bs = (ret, o')) :
    0 ≤ ret ∧ SendEvent.fail ∉ o'.evs := by
  obtain ⟨sent, evs⟩ := o
  rcases evs with _ | ⟨_ | k, es⟩
  · cases hs
    exact ⟨by omega, h⟩
  · exact absurd (List.mem_cons_self ..) h
  · cases hs
    exact ⟨by omega, fun hm => h (List.mem_cons_of_mem _ hm)⟩

/-- On a socket that never fails every call succeeds. -/
theorem segStep_succeeds (h : segStep H mem s = some s')
    (hs : SendEvent.fail ∉ s.st.out.evs ∧ ∀ c ∈ s.calls, 0 ≤ c.ret) :
    SendEvent.fail ∉ s'.st.out.evs ∧ ∀ c ∈ s'.calls, 0 ≤ c.ret := by
  cases segStep_move h with
  | finish hpc => exact hs
  | enter hpc => exact hs
  | leave hpc hr => exact hs
  | fail hpc hr hc hret =>
    have hsent := hc.sent
    rw [mpaSend_sendmsg] at hsent
    have := (sendmsg_accepts hs.1 hsent).1
    omega
  | @send sg rest r c out hpc hr hc hret =>
    have hsent := hc.sent
    rw [mpaSend_sendmsg] at hsent
    refine ⟨(sendmsg_accepts hs.1 hsent).2, fun d hd => ?_⟩
    rcases List.mem_append.mp hd with hd | hd
    · exact hs.2 d hd
    · rw [List.mem_singleton.mp hd]
      exact hret

/-! ## The ranges tile the sges -/

/-- The ranges sent so far tile the sges before `i`, and of the sge `i` all but
    the last `remaining_bytes` bytes. -/
def SegRun.Tiling (sges : List Sge) (s : SegRun σ) : Prop :=
  match s.pc with
  | .sges rest => ∃ before, sges = before ++ rest ∧
      TilesAll (before.map Sge.region) (s.calls.map SegCall.range)
  | .segs sg rest r => ∃ before whole part, ∃ k : ℕ, sges = before ++ sg :: rest ∧
      r = k ∧ k ≤ sg.length.toNat ∧ s.calls.map SegCall.range = whole ++ part ∧
      TilesAll (before.map Sge.region) whole ∧ Tiles sg.addr (sg.length.toNat - k) part
  | .done ret => (ret = 0 ∧ TilesAll (sges.map Sge.region) (s.calls.map SegCall.range)) ∨
      ∃ c ∈ s.calls, c.ret < 0

/-- The next range starts where the part of the sge that was sent ends. -/
theorem SegCall.MadeIn.range_eq {sg : Sge} {rest : List Sge} {k : ℕ} {c : SegCall σ}
    {out : Outbound} {st : SendSt σ} (hc : c.MadeIn H mem sg rest k st out) (hk0 : 0 < k)
    (hlen : sg.length.toNat < 2 ^ 31) (hk : k ≤ sg.length.toNat) :
    c.range = (sg.addr + UInt64.ofNat (sg.length.toNat - k), min k mulpdu) := by
  have hl := hc.toNat_length (by omega)
  rw [packetLen_natCast, Nat.cast_inj] at hl
  rw [SegCall.range, hc.addr, segOffset_eq hlen hk, hl]

theorem segStep_tiling {sges : List Sge} (hlen : ∀ sg ∈ sges, sg.length.toNat < 2 ^ 31)
    (h : segStep H mem s = some s') (hs : s.Tiling sges) : s'.Tiling sges := by
  cases segStep_move h with
  | finish hpc =>
    simp only [SegRun.Tiling, hpc] at hs
    obtain ⟨before, rfl, ht⟩ := hs
    rw [List.append_nil]
    exact .inl ⟨rfl, ht⟩
  | @enter sg rest hpc =>
    simp only [SegRun.Tiling, hpc] at hs
    obtain ⟨before, rfl, ht⟩ := hs
    refine ⟨before, _, [], sg.length.toNat, rfl, remainingBytes_eq (hlen sg (by simp)), le_rfl,
      (List.append_nil _).symm, ht, ?_⟩
    rw [Nat.sub_self]
    rfl
  | @leave sg rest r hpc hr =>
    simp only [SegRun.Tiling, hpc] at hs
    obtain ⟨before, whole, part, k, rfl, rfl, -, hranges, hw, hp⟩ := hs
    -- nothing remains, so the sge is tiled whole and joins those before it
    obtain rfl : k = 0 := by omega
    refine ⟨before ++ [sg], by simp, ?_⟩
    rw [hranges, List.map_append]
    exact hw.snoc hp
  | @fail sg rest r c out hpc hr hc hret => exact .inr ⟨c, by simp, hret⟩
  | @send sg rest r c out hpc hr hc hret =>
    simp only [SegRun.Tiling, hpc] at hs
    obtain ⟨before, whole, part, k, rfl, rfl, hk, hranges, hw, hp⟩ := hs
    -- the new range takes up the tiling of this sge where it stands
    have hrange := hc.range_eq (by omega) (hlen sg (by simp)) hk
    refine ⟨before, whole, part ++ [c.range], k - min k mulpdu, rfl, ?_, by omega, ?_, hw, ?_⟩
    · rw [packetLen_natCast]
      omega
    · rw [List.map_append, hranges, List.append_assoc]
      rfl
    · rw [hrange, show sg.length.toNat - (k - min k mulpdu) =
        sg.length.toNat - k + min k mulpdu by omega]
      exact hp.snoc _

/-! ## The headers -/

/-- The second header after the given calls. -/
def hdrAfter (H : SegHdr σ) (h : σ) (calls : List (SegCall σ)) : σ :=
  calls.foldl (fun h c => H.advance h c.length.toNat) h

/-- Every call has the header that the calls before it leave, and so will the
    next one. -/
structure SegRun.Headed (H : SegHdr σ) (h : σ) (s : SegRun σ) : Prop where
  calls : ∀ k c, s.calls[k]? = some c → c.hdr2 = hdrAfter H h (s.calls.take k)
  next : (∀ ret, s.pc ≠ .done ret) → s.st.hdr2 = hdrAfter H h s.calls

theorem SegRun.Headed.snoc {h : σ} (hs : s.Headed H h) {c : SegCall σ} (hc : c.hdr2 = s.st.hdr2)
    (hpc : ∀ ret, s.pc ≠ .done ret) :
    ∀ k d, (s.calls ++ [c])[k]? = some d → d.hdr2 = hdrAfter H h ((s.calls ++ [c]).take k) := by
  intro k d hd
  rcases Nat.lt_trichotomy k s.calls.length with hk | rfl | hk
  · rw [List.getElem?_append_left hk] at hd
    rw [List.take_append_of_le_length hk.le]
    exact hs.calls k d hd
  · rw [List.getElem?_concat_length] at hd
    cases hd
    rw [List.take_left, hc, hs.next hpc]
  · rw [List.getElem?_eq_none (by simp; omega)] at hd
    cases hd

theorem segStep_headed {h : σ} (hstep : segStep H mem s = some s') (hs : s.Headed H h) :
    s'.Headed H h := by
  cases segStep_move hstep with
  | finish hpc => exact ⟨hs.calls, fun hne => absurd rfl (hne 0)⟩
  | enter hpc => exact ⟨hs.calls, fun _ => hs.next (by simp [hpc])⟩
  | leave hpc hr => exact ⟨hs.calls, fun _ => hs.next (by simp [hpc])⟩
  | fail hpc hr hc hret =>
    -- the header is not advanced past a call that failed
    exact ⟨hs.snoc hc.hdr2 (by simp [hpc]), fun hne => absurd rfl (hne _)⟩
  | send hpc hr hc hret =>
    have hrun : ∀ ret, s.pc ≠ .done ret := by simp [hpc]
    refine ⟨hs.snoc hc.hdr2 hrun, fun _ => ?_⟩
    simp only [hdrAfter, List.foldl_append, List.foldl_cons, List.foldl_nil, hc.toNat_length hr]
    rw [hs.next hrun, hdrAfter]

/-! ## Whole runs -/

/-- What a run of the loops over `sges` has done when every call has succeeded. -/
structure Segmented (H : SegHdr σ) (mem : Mem) (sges : List Sge) (t : SegRun σ) : Prop where
  ret : t.pc = .done 0
  payload : ∀ c ∈ t.calls, 1 ≤ c.length.toNat ∧ c.length.toNat ≤ 65014
  ulpdu : ∀ c ∈ t.calls, (c.sgList H mem).flatten.length ≤ 65032 ∧
    (ulpduLen (c.sgList H mem)).toNat = (c.sgList H mem).flatten.length
  tiles : TilesAll (sges.map Sge.region) (t.calls.map SegCall.range)

/-- The payload bytes handed to `mpa_send` are the content of the sges. -/
theorem Segmented.content {sges : List Sge} {t : SegRun σ} (h : Segmented H mem sges t) :
    (t.calls.flatMap fun c => mem.read c.addr c.length.toNat) = sgesContent sges mem := by
  have hread := h.tiles.read mem
  rwa [List.flatMap_map, List.flatMap_map] at hread

variable {sges : List Sge} {st : SendSt σ} {t : SegRun σ}

theorem result_of_run (ht : t ∈ eval (segStep H mem) ⟨.sges sges, st, []⟩) :
    t.result H mem = sgeListLoop H mem sges st :=
  eval_invariant (I := fun s => s.result H mem = sgeListLoop H mem sges st)
    (fun _ _ hstep hs => (segStep_result hstep).trans hs) ht rfl

theorem loop_of_segmented (ht : t ∈ eval (segStep H mem) ⟨.sges sges, st, []⟩)
    (h : Segmented H mem sges t) : sgeListLoop H mem sges st = (0, t.st) := by
  rw [← result_of_run ht, SegRun.result, h.ret]

theorem headed_of_run (ht : t ∈ eval (segStep H mem) ⟨.sges sges, st, []⟩) :
    t.Headed H st.hdr2 :=
  eval_invariant (fun _ _ => segStep_headed) ht ⟨by simp, fun _ => rfl⟩

theorem segmented_of_run (hH : ∀ h, (H.bytes h).length ≤ ddpUntaggedHdrSize)
    (hlen : ∀ sg ∈ sges, sg.length.toNat < 2 ^ 31)
    (ht : t ∈ eval (segStep H mem) ⟨.sges sges, st, []⟩) (hok : ∀ c ∈ t.calls, 0 ≤ c.ret) :
    Segmented H mem sges t := by
  have htile : t.Tiling sges :=
    eval_invariant (fun _ _ => segStep_tiling hlen) ht ⟨[], rfl, .nil⟩
  have hfits : t.Fits := eval_invariant (fun _ _ => segStep_fits) ht (by simp [SegRun.Fits])
  obtain ⟨ret, hpc⟩ := segStep_none (mem_eval.mp ht).2
  simp only [SegRun.Tiling, hpc] at htile
  obtain ⟨rfl, htiles⟩ | ⟨c, hc, hneg⟩ := htile
  · refine ⟨hpc, ?_, fun c hc => SegCall.ulpdu_bounds (hH _) (hfits c hc).2, htiles⟩
    rw [← mulpdu_eq]
    exact hfits
  · have := hok c hc
    omega

end

/-- The offset that `ddp_send_tagged` keeps in host order is the one in the
    header, and counts the payload bytes. -/
theorem hdrAfter_tagged (calls : List (SegCall (DdpTaggedMeta × UInt64)))
    (h : DdpTaggedMeta × UInt64) (hTO : ntohll h.1.TO = h.2) :
    ntohll (hdrAfter taggedSegHdr h calls).1.TO =
      h.2 + UInt64.ofNat (calls.map fun c => c.length.toNat).sum := by
  induction calls generalizing h with
  | nil => simp [hdrAfter, hTO]
  | cons c calls ih =>
    have hstep := ih (taggedSegHdr.advance h c.length.toNat) (ntohll_htonll _)
    rw [hdrAfter, List.foldl_cons, ← hdrAfter, hstep, List.map_cons, List.sum_cons]
    simp only [taggedSegHdr, UInt64.ofInt_natCast, UInt64.ofNat_add, add_assoc]

section

variable {mem : Mem} {sges : List Sge}

/-- The nested loops end. If every call of `mpa_send` succeeded, each had 1 to
    65014 payload bytes and a ULPDU length of at most 65032 that its length field
    holds, the payload ranges tile the sges in order, and in `ddp_send_tagged` the
    TO of each segment is the initial one plus the payload bytes sent before. -/
theorem segmentation (out : Outbound) (hlen : ∀ sg ∈ sges, sg.length.toNat < 2 ^ 31) :
    (∀ nextHdr : DdpTaggedMeta,
      ∃ t ∈ eval (segStep taggedSegHdr mem) (taggedRun out nextHdr sges),
        (∀ c ∈ t.calls, 0 ≤ c.ret) →
          ddpSendTagged out mem nextHdr sges = (0, t.st.out) ∧
          Segmented taggedSegHdr mem sges t ∧
          ∀ k c, t.calls[k]? = some c → (ntohll c.hdr2.1.TO).toNat =
            ((ntohll nextHdr.TO).toNat +
              ((t.calls.take k).map fun c => c.length.toNat).sum) % 2 ^ 64) ∧
    ∀ nextHdr : DdpUntaggedMeta,
      ∃ t ∈ eval (segStep untaggedSegHdr mem) (untaggedRun out nextHdr sges),
        (∀ c ∈ t.calls, 0 ≤ c.ret) →
          ddpSendUntagged out mem nextHdr sges = (0, t.st.out) ∧
          Segmented untaggedSegHdr mem sges t := by
  constructor
  · intro nextHdr
    obtain ⟨t, ht⟩ := exists_mem_eval SegRun.toGo (fun _ _ => segStep_toGo)
      (taggedRun out nextHdr sges)
    refine ⟨t, ht, fun hok => ?_⟩
    have hseg := segmented_of_run length_taggedSegHdr_le hlen ht hok
    refine ⟨?_, hseg, fun k c hc => ?_⟩
    · rw [ddpSendTagged, loop_of_segmented ht hseg]
    · have hhdr : c.hdr2 = hdrAfter taggedSegHdr (nextHdr, ntohll nextHdr.TO) (t.calls.take k) :=
        (headed_of_run ht).calls k c hc
      rw [hhdr, hdrAfter_tagged _ _ rfl, UInt64.toNat_add, UInt64.toNat_ofNat', Nat.add_mod_mod]
  · intro nextHdr
    obtain ⟨t, ht⟩ := exists_mem_eval SegRun.toGo (fun _ _ => segStep_toGo)
      (untaggedRun out nextHdr sges)
    refine ⟨t, ht, fun hok => ?_⟩
    have hseg := segmented_of_run length_untaggedSegHdr_le hlen ht hok
    refine ⟨?_, hseg⟩
    rw [ddpSendUntagged, loop_of_segmented ht hseg]

end

/-- An sge of two segments, an empty one and a short one, with offsets that pass
    `2 ^ 64`. -/
theorem segmentation_three_sges :
    let mem : Mem := ⟨fun a => a.toUInt8, []⟩
    let sges : List Sge := [⟨0x1000, 70000, 0⟩, ⟨0, 0, 0⟩, ⟨0x20000, 3, 0⟩]
    let nextHdr : DdpTaggedMeta := ⟨0, 7, htonll 0xFFFFFFFFFFFFFF00⟩
    (∃ t ∈ eval (segStep taggedSegHdr mem) (taggedRun ⟨[], []⟩ nextHdr sges),
      ddpSendTagged ⟨[], []⟩ mem nextHdr sges = (0, t.st.out) ∧
      Segmented taggedSegHdr mem sges t ∧
      ∀ k c, t.calls[k]? = some c → (ntohll c.hdr2.1.TO).toNat =
        ((ntohll nextHdr.TO).toNat +
          ((t.calls.take k).map fun c => c.length.toNat).sum) % 2 ^ 64) ∧
    ∃ t ∈ eval (segStep untaggedSegHdr mem) (untaggedRun ⟨[], []⟩ ⟨0, 0, 0, 1, 0⟩ sges),
      ddpSendUntagged ⟨[], []⟩ mem ⟨0, 0, 0, 1, 0⟩ sges = (0, t.st.out) ∧
      Segmented untaggedSegHdr mem sges t := by
  intro mem sges nextHdr
  obtain ⟨htagged, huntagged⟩ := @segmentation mem sges ⟨[], []⟩ (by decide)
  obtain ⟨t, ht, h⟩ := htagged nextHdr
  obtain ⟨t', ht', h'⟩ := huntagged ⟨0, 0, 0, 1, 0⟩
  have hok := eval_invariant (fun _ _ => segStep_succeeds) ht
    ⟨by simp [taggedRun], by simp [taggedRun]⟩
  have hok' := eval_invariant (fun _ _ => segStep_succeeds) ht'
    ⟨by simp [untaggedRun], by simp [untaggedRun]⟩
  exact ⟨⟨t, ht, h hok.2⟩, t', ht', h' hok'.2⟩

end SoftUiWarp
