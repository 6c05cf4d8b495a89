import SoftUiWarp.Ddp.Recv

/-!
# How TCP's fragmentation of a message shows in `ddp_recv`

The payload is read in a loop, so its fragmentation does not matter. The MPA
header, the padding and the CRC are each read with one call of `recv` that must
return everything: a segment boundary inside one of them makes the call fail.
The same stream is run twice, once as TCP hands it out and once with everything
ready, and the two runs are compared segment by segment.

Results:
* `segLoop_full`: the payload loop, where no single-call read is cut and where
  one is.
* `fragmentation_iff`: the two runs of `ddp_recv` have the same outcome exactly
  when no read made with a single call is cut.
-/

namespace SoftUiWarp

open TcpStream ByteMem

/-! ## The reads made with a single call -/

/-- The header of the first of the packets arrives at once, and with it the
    trailer of a packet that has no payload. -/
def HeaderReady (H : ℕ) (ready : ℕ → ℕ) (p : ℕ) : List Fpdu → Prop
  | [] => True
  | f :: _ => 2 ≤ ready p ∧ (f.len ≤ H → TrailerReady ready p f.len)

/-- From the payload of the first packet on, no single-call read of the message
    is cut; `n` bytes follow the message. After a packet without payload the
    call that stores what follows is the last. -/
def LoopReady (H : ℕ) (ready : ℕ → ℕ) (n : ℕ) : ℕ → List Fpdu → Prop
  | _, [] => True
  | p, f :: fs =>
    if H < f.len then
      TrailerReady ready p f.len ∧ HeaderReady H ready (p + f.wire.length) fs ∧
        LoopReady H ready n (p + f.wire.length) fs
    else min maxRwCount ((wireOf fs).length + n) ≤ max 1 (ready (p + f.wire.length))

/-! ## The reader only moves forward -/

section

variable {K : SegKind} {α : Type} {S : FieldSpec K α} {v : α} {s₀ s : Inbound} {c : SegCtx}

theorem AtHead.payload_advance (h : AtHead S v s₀ s c) (hf : s₀.FailFree) :
    ∃ j, (payloadCall s c).inb = s.advance j := by
  have hsf := h.failFree hf
  by_cases hH : K.hdrSize < segLen s₀.pending
  · have hmax := segLen_le_maxRwCount s₀.pending
    rw [h.payloadCall_long hH]
    by_cases hr : BodyReady s (segField s₀.pending).toNat K.hdrSize
        (segLen s₀.pending - K.hdrSize)
    · rw [mpaRecvBody_of_ready hsf h.pos hH.le (by omega) hr]
      exact ⟨_, rfl⟩
    · obtain ⟨-, -, j, -, hj⟩ := mpaRecvBody_of_not_ready hsf h.pos hH.le (by omega) hr
      exact ⟨j, hj⟩
  · exact ⟨_, (h.payloadCall_over hsf hH).2.2⟩

theorem headerCall_advance (S : FieldSpec K α) (hf : (payloadCall s c).inb.FailFree) :
    ∃ j, (headerCall K s c).inb = (payloadCall s c).inb.advance j := by
  by_cases hr : HdrReady (payloadCall s c).inb K.hdrSize
  · rw [headerCall_of_ready S hf hr]
    exact ⟨_, advance_advance _ _⟩
  · obtain ⟨-, j, -, hj⟩ := headerCall_of_not_ready S hf hr
    exact ⟨j, hj⟩

theorem segLoop_pos_le : ∀ (fuel : ℕ) (v : α) (s₀ s : Inbound) (c : SegCtx) (len : ℤ)
    (acc : List Placement), s₀.FailFree → AtHead S v s₀ s c →
      s.pos ≤ (segLoop K fuel s c len acc).inb.pos := by
  intro fuel
  induction fuel with
  | zero => intro v s₀ s c len acc _ _; exact le_rfl
  | succ fuel ih =>
    intro v s₀ s c len acc hf h
    obtain ⟨j, hj⟩ := h.payload_advance hf
    have hpf : (payloadCall s c).inb.FailFree := by rw [hj]; exact (h.failFree hf).advance j
    have hle : s.pos ≤ (payloadCall s c).inb.pos := by rw [hj, advance_pos]; omega
    by_cases hok : (payloadCall s c).ret.Ok
    · by_cases hl : c.packed 0 &&& ddpFlagLast ≠ 0
      · rw [segLoop_last K hok hl]
        exact hle
      · obtain ⟨k, hk⟩ := headerCall_advance S hpf
        have hle2 : s.pos ≤ (headerCall K s c).inb.pos := by rw [hk, advance_pos]; omega
        by_cases hok2 : (headerCall K s c).ret.Ok
        · rw [segLoop_next K hok hl hok2]
          exact hle2.trans (ih _ _ _ _ _ _ hpf (atHead_of_headerCall S hpf hok2))
        · rw [segLoop_hdr_stop K hok hl hok2]
          exact hle2
    · rw [segLoop_stop K hok]
      exact hle

/-! ## The two runs of the payload loop -/

theorem AtHead.full (h : AtHead S v s₀ s c) : AtHead S v s₀.full s.full c :=
  ⟨h.pos, h.avail, by rw [h.inb, full_advance]; rfl, h.info, h.payloadLen, h.raw, h.ctrl, h.val⟩

theorem four_le_full (s : Inbound) (p : ℕ) : 4 ≤ s.full.ready p := by
  rw [full_ready]
  decide

theorem headerReady_full (s : Inbound) (H p : ℕ) (fs : List Fpdu) :
    HeaderReady H s.full.ready p fs := by
  cases fs with
  | nil => trivial
  | cons f fs =>
    exact ⟨le_trans (by omega) (four_le_full s p), fun _ => trailerReady_of_le (four_le_full s) _ _⟩

/-- On a complete packet the header call succeeds exactly when its single-call
    reads are not cut. -/
theorem hdrReady_iff_wire {f : Fpdu} {rest : List UInt8} {H : ℕ} {fs : List Fpdu}
    (hp : s.pending = f.wire ++ rest) : HdrReady s H ↔ HeaderReady H s.ready s.pos (f :: fs) := by
  have hw := f.length_wire
  have hL : segLen s.pending = f.len := by rw [hp, segLen_wire]
  constructor
  · intro h
    refine ⟨h.header, fun hle => ?_⟩
    obtain ⟨ht1, ht2⟩ := h.body.trailer (by rw [hL]; omega)
    rw [hL, Nat.sub_zero, advance_ready, advance_pos] at ht1 ht2
    exact ⟨ht1, ht2⟩
  · rintro ⟨h1, h2⟩
    refine ⟨by rw [hp, List.length_append]; omega, h1, by rw [hL]; exact f.len_pos, ?_, fun hle => ?_⟩
    · rw [hL, bodyEnd, advance_pending, List.length_drop, hp, List.length_append]
      split_ifs <;> omega
    · rw [hL] at hle ⊢
      rw [Nat.sub_zero, advance_ready, advance_pos]
      obtain ⟨ht1, ht2⟩ := h2 (by omega)
      exact ⟨ht1, ht2⟩

/-- A payload call that is not cut behaves as with everything ready. -/
theorem AtHead.payload_full (h : AtHead S v s₀ s c) (hf : s₀.FailFree) {f : Fpdu}
    {rest : List UInt8} (hp : s₀.pending = f.wire ++ rest) (hH : K.hdrSize < f.len) :
    (payloadCall s.full c).ret.Ok ∧
      (payloadCall s.full c).inb = s₀.full.advance f.wire.length ∧
      roundPlacement K s.full c = roundPlacement K s c := by
  have hcall := h.full.payload_wire hf.full hp hH (trailerReady_of_le (four_le_full s₀) _ _)
  refine ⟨hcall.1, hcall.2, ?_⟩
  rw [h.roundPlacement_wire hf v hp hH, h.full.roundPlacement_wire hf.full v hp hH]

/-- The next header, read with everything ready and as handed out. -/
theorem header_full (S : FieldSpec K α) {s₁ : Inbound} (hf : s₁.FailFree)
    (h₁ : (payloadCall s c).inb = s₁) (h₂ : (payloadCall s.full c).inb = s₁.full)
    (hr : HdrReady s₁ K.hdrSize) (hr' : HdrReady s₁.full K.hdrSize) :
    nextCtx K s.full c = nextCtx K s c ∧
      (headerCall K s.full c).inb = (headerCall K s c).inb.full := by
  have hc := headerCall_of_ready S (s := s) (c := c) (by rw [h₁]; exact hf) (by rw [h₁]; exact hr)
  have hc' := headerCall_of_ready S (s := s.full) (c := c) (by rw [h₂]; exact hf.full)
    (by rw [h₂]; exact hr')
  rw [h₁] at hc
  rw [h₂] at hc'
  rw [nextCtx, nextCtx, hc, hc']
  exact ⟨rfl, rfl⟩

/-- The over-read after a segment without payload. -/
theorem AtHead.over_full (h : AtHead S v s₀ s c) (hf : s₀.FailFree) {f : Fpdu} {rest : List UInt8}
    (hp : s₀.pending = f.wire ++ rest) (hH : f.len = K.hdrSize) (fuel : ℕ) (len : ℤ)
    (acc : List Placement) :
    (min maxRwCount rest.length ≤ max 1 (s₀.ready (s₀.pos + f.wire.length)) →
      segLoop K (fuel + 1) s.full c len acc = { segLoop K (fuel + 1) s c len acc with
        inb := (segLoop K (fuel + 1) s c len acc).inb.full }) ∧
    (¬min maxRwCount rest.length ≤ max 1 (s₀.ready (s₀.pos + f.wire.length)) →
      (segLoop K (fuel + 1) s c len acc).inb.pos <
        (segLoop K (fuel + 1) s.full c len acc).inb.pos) := by
  have hL : segLen s₀.pending = f.len := by rw [hp, segLen_wire]
  have hnot : ¬K.hdrSize < segLen s₀.pending := by omega
  have hend : hdrEnd K.hdrSize s₀.pending = f.wire.length := by
    rw [hdrEnd, hL, bodyEnd, if_neg (by omega), f.length_wire]
    omega
  have hinb : s = s₀.advance f.wire.length := by rw [h.inb, hend]
  have hpend : s.pending = rest := by rw [hinb, advance_pending, hp, List.drop_left]
  have hready : s.ready s.pos = s₀.ready (s₀.pos + f.wire.length) := by rw [hinb]; rfl
  obtain ⟨hr1, hw1, hi1⟩ := h.payloadCall_over (h.failFree hf) hnot
  obtain ⟨hr2, hw2, hi2⟩ := h.full.payloadCall_over (h.failFree hf).full hnot
  have hok1 : ¬(payloadCall s c).ret.Ok := by rw [hr1]; exact not_ok_overRet
  have hok2 : ¬(payloadCall s.full c).ret.Ok := by rw [hr2]; exact not_ok_overRet
  have hfull : overCount s.full = min maxRwCount rest.length := by
    have h1 : 0 < maxRwCount := by decide
    simp only [overCount, full_ready, full_pending, hpend]
    omega
  have hcut : overCount s = min (min maxRwCount rest.length)
      (max 1 (s₀.ready (s₀.pos + f.wire.length))) := by
    simp only [overCount, hready, hpend]
    omega
  rw [segLoop_stop K hok1, segLoop_stop K hok2]
  constructor
  · intro hle
    have heq : overCount s.full = overCount s := by rw [hfull, hcut, Nat.min_eq_left hle]
    simp only [roundPlacement, hr1, hr2, hw1, hw2, hi1, hi2, heq]
    rfl
  · intro hlt
    simp only [hi1, hi2, advance_pos, full_pos]
    omega

/-- The last segment's round. -/
theorem AtHead.last_full (h : AtHead S v s₀ s c) (hf : s₀.FailFree) {f : Fpdu} {rest : List UInt8}
    (hp : s₀.pending = f.wire ++ rest) (hle : K.hdrSize ≤ f.len)
    (hl : c.packed 0 &&& ddpFlagLast ≠ 0) (fuel : ℕ) (len : ℤ) (acc : List Placement) :
    (LoopReady K.hdrSize s₀.ready rest.length s₀.pos [f] →
      segLoop K (fuel + 1) s.full c len acc = { segLoop K (fuel + 1) s c len acc with
        inb := (segLoop K (fuel + 1) s c len acc).inb.full }) ∧
    (¬LoopReady K.hdrSize s₀.ready rest.length s₀.pos [f] →
      (segLoop K (fuel + 1) s c len acc).inb.pos <
        (segLoop K (fuel + 1) s.full c len acc).inb.pos) := by
  by_cases hH : K.hdrSize < f.len
  · obtain ⟨hok', hinb', hpl⟩ := h.payload_full hf hp hH
    rw [LoopReady, if_pos hH, segLoop_last K hok' hl, hinb', hpl]
    by_cases hr : TrailerReady s₀.ready s₀.pos f.len
    · obtain ⟨hok, hinb⟩ := h.payload_wire hf hp hH hr
      rw [segLoop_last K hok hl, hinb]
      exact ⟨fun _ => rfl, fun hn => absurd ⟨hr, trivial, trivial⟩ hn⟩
    · obtain ⟨hok, j, hj, hinb⟩ := h.payload_wire_cut hf hp hH hr
      rw [segLoop_stop K hok, hinb]
      refine ⟨fun hn => absurd hn.1 hr, fun _ => ?_⟩
      simp only [advance_pos, full_pos]
      omega
  · have hover := h.over_full hf hp (by omega) fuel len acc
    rw [LoopReady, if_neg hH]
    simpa using hover

/-- With everything ready, the header call behind a segment reads the next one's
    header. -/
theorem AtHead.header_full_ok (h : AtHead S v s₀ s c) (hf : s₀.FailFree) {f g : Fpdu}
    {rest : List UInt8} (hp : s₀.pending = f.wire ++ (g.wire ++ rest)) (hH : K.hdrSize < f.len) :
    HdrReady (s₀.advance f.wire.length).full K.hdrSize ∧ (headerCall K s.full c).ret.Ok ∧
      AtHead S (S.val c.packed) (s₀.advance f.wire.length).full (headerCall K s.full c).inb
        (nextCtx K s.full c) := by
  obtain ⟨-, hinb, -⟩ := h.payload_full hf hp hH
  have hp₁ : (s₀.advance f.wire.length).full.pending = g.wire ++ rest := by
    rw [full_pending, advance_pending, hp, List.drop_left]
  have hfail : (payloadCall s.full c).inb.FailFree := by
    rw [hinb]
    exact hf.full.advance _
  have hready : HdrReady (s₀.advance f.wire.length).full K.hdrSize :=
    (hdrReady_iff_wire hp₁).mpr (headerReady_full _ _ _ [g])
  have hok : (headerCall K s.full c).ret.Ok := headerCall_ok S hfail (by rw [hinb]; exact hready)
  have hat := atHead_of_headerCall S hfail hok
  rw [hinb] at hat
  exact ⟨hready, hok, hat⟩

/-- With everything ready, the loop passes the next segment's header. -/
theorem AtHead.pos_full (h : AtHead S v s₀ s c) (hf : s₀.FailFree) {f g : Fpdu}
    {rest : List UInt8} (hp : s₀.pending = f.wire ++ (g.wire ++ rest)) (hH : K.hdrSize < f.len)
    (hl : ¬c.packed 0 &&& ddpFlagLast ≠ 0) (fuel : ℕ) (len : ℤ) (acc : List Placement) :
    s₀.pos + f.wire.length + hdrEnd K.hdrSize (s₀.advance f.wire.length).pending ≤
      (segLoop K (fuel + 1) s.full c len acc).inb.pos := by
  obtain ⟨hok, -, -⟩ := h.payload_full hf hp hH
  obtain ⟨-, hok2, hat⟩ := h.header_full_ok hf hp hH
  have hmono := segLoop_pos_le fuel _ _ _ _ (len + c.payloadLen)
    (acc ++ [roundPlacement K s.full c]) (hf.advance _).full hat
  rw [segLoop_next K hok hl hok2]
  refine le_trans ?_ hmono
  rw [hat.inb, advance_pos, full_pos, advance_pos]
  exact le_rfl

/-- A cut payload or header call leaves the stream before the next segment's
    payload. -/
theorem AtHead.cut_pos (h : AtHead S v s₀ s c) (hf : s₀.FailFree) {f g : Fpdu} {rest : List UInt8}
    {fs : List Fpdu} (hp : s₀.pending = f.wire ++ (g.wire ++ rest)) (hH : K.hdrSize < f.len)
    (hl : ¬c.packed 0 &&& ddpFlagLast ≠ 0)
    (hr : ¬(TrailerReady s₀.ready s₀.pos f.len ∧
      HeaderReady K.hdrSize s₀.ready (s₀.pos + f.wire.length) (g :: fs)))
    (fuel : ℕ) (len : ℤ) (acc : List Placement) :
    (segLoop K (fuel + 1) s c len acc).inb.pos <
      s₀.pos + f.wire.length + hdrEnd K.hdrSize (s₀.advance f.wire.length).pending := by
  by_cases ht : TrailerReady s₀.ready s₀.pos f.len
  · obtain ⟨hok, hinb⟩ := h.payload_wire hf hp hH ht
    have hp₁ : (s₀.advance f.wire.length).pending = g.wire ++ rest := by
      rw [advance_pending, hp, List.drop_left]
    have hnr : ¬HdrReady (payloadCall s c).inb K.hdrSize := by
      rw [hinb]
      exact fun hh => hr ⟨ht, (hdrReady_iff_wire hp₁).mp hh⟩
    obtain ⟨hok2, j, hj, hinb2⟩ := headerCall_of_not_ready S
      (by rw [hinb]; exact hf.advance _) hnr
    rw [hinb] at hj
    rw [segLoop_hdr_stop K hok hl hok2, hinb2, hinb, advance_pos, advance_pos]
    omega
  · obtain ⟨hok, j, hj, hinb⟩ := h.payload_wire_cut hf hp hH ht
    rw [segLoop_stop K hok, hinb]
    simp only [advance_pos]
    omega

/-- The loop ends as with everything ready if no single-call read is cut, and
    at an earlier position of the stream if one is. -/
theorem segLoop_full : ∀ (fs : List Fpdu) (f : Fpdu) (rest : List UInt8) (fuel : ℕ) (v : α)
    (s₀ s : Inbound) (c : SegCtx) (len : ℤ) (acc : List Placement), s₀.FailFree →
      IsMessage K.hdrSize (f :: fs) → fs.length < fuel →
      s₀.pending = f.wire ++ (wireOf fs ++ rest) → AtHead S v s₀ s c →
      (LoopReady K.hdrSize s₀.ready rest.length s₀.pos (f :: fs) →
        segLoop K fuel s.full c len acc = { segLoop K fuel s c len acc with
          inb := (segLoop K fuel s c len acc).inb.full }) ∧
      (¬LoopReady K.hdrSize s₀.ready rest.length s₀.pos (f :: fs) →
        (segLoop K fuel s c len acc).inb.pos < (segLoop K fuel s.full c len acc).inb.pos) := by
  intro fs
  induction fs with
  | nil =>
    intro f rest fuel v s₀ s c len acc hf hmsg hfuel hp h
    obtain ⟨fuel, rfl⟩ : ∃ k, fuel = k + 1 := ⟨fuel - 1, by simp at hfuel; omega⟩
    have hl : c.packed 0 &&& ddpFlagLast ≠ 0 := by
      have := (h.last_eq hp).symm.trans hmsg.2
      simpa using this
    exact h.last_full hf hp hmsg.1 hl fuel len acc
  | cons g fs ih =>
    intro f rest fuel v s₀ s c len acc hf hmsg hfuel hp h
    obtain ⟨fuel, rfl⟩ : ∃ k, fuel = k + 1 := ⟨fuel - 1, by simp at hfuel; omega⟩
    obtain ⟨hle, hlast, hmsg'⟩ := hmsg
    by_cases hH : K.hdrSize < f.len
    · have hl : ¬c.packed 0 &&& ddpFlagLast ≠ 0 := by
        have := (h.last_eq hp).symm.trans hlast
        simpa using this
      have hp' : s₀.pending = f.wire ++ (g.wire ++ (wireOf fs ++ rest)) := by
        rw [hp, wireOf_cons, List.append_assoc]
      rw [LoopReady, if_pos hH]
      by_cases hr : TrailerReady s₀.ready s₀.pos f.len ∧
          HeaderReady K.hdrSize s₀.ready (s₀.pos + f.wire.length) (g :: fs)
      · -- neither call of this round is cut, so both runs go on to the next segment
        have hp₁ : (s₀.advance f.wire.length).pending = g.wire ++ (wireOf fs ++ rest) := by
          rw [advance_pending, hp', List.drop_left]
        obtain ⟨hok, hinb⟩ := h.payload_wire hf hp hH hr.1
        obtain ⟨hok', hinb', hpl⟩ := h.payload_full hf hp hH
        obtain ⟨hhdr', hok2', -⟩ := h.header_full_ok hf hp' hH
        have hhdr : HdrReady (s₀.advance f.wire.length) K.hdrSize :=
          (hdrReady_iff_wire hp₁).mpr hr.2
        have hpf : (payloadCall s c).inb.FailFree := by
          rw [hinb]
          exact hf.advance _
        have hok2 : (headerCall K s c).ret.Ok := headerCall_ok S hpf (by rw [hinb]; exact hhdr)
        have hat := atHead_of_headerCall S hpf hok2
        rw [hinb] at hat
        obtain ⟨hctx, hfin⟩ := header_full S (hf.advance _) hinb hinb' hhdr hhdr'
        have hih := ih g rest fuel (S.val c.packed) _ _ _ (len + c.payloadLen)
          (acc ++ [roundPlacement K s c]) (hf.advance _) hmsg' (by simp at hfuel; omega) hp₁ hat
        rw [segLoop_next K hok' hl hok2', segLoop_next K hok hl hok2, hctx, hfin, hpl]
        exact ⟨fun hall => hih.1 hall.2.2, fun hn => hih.2 fun hall => hn ⟨hr.1, hr.2, hall⟩⟩
      · refine ⟨fun hall => absurd ⟨hall.1, hall.2.1⟩ hr, fun _ => ?_⟩
        exact lt_of_lt_of_le (h.cut_pos hf hp' hH hl hr fuel len acc)
          (h.pos_full hf hp' hH hl fuel len acc)
    · have hover := h.over_full hf hp (by omega) fuel len acc
      rw [LoopReady, if_neg hH]
      rw [List.length_append] at hover
      exact hover

end

/-! ## The first header -/

section

variable {s : Inbound} {f : Fpdu} {rest : List UInt8} {H : ℕ}

/-- On a complete packet the two calls for the first header succeed exactly when
    their single-call reads are not cut. -/
theorem firstReady_iff_wire {fs : List Fpdu} (hp : s.pending = f.wire ++ rest) (hH : 2 ≤ H)
    (hle : H ≤ f.len) : FirstReady s H ↔ HeaderReady H s.ready s.pos (f :: fs) := by
  have hw := f.length_wire
  have hL : segLen s.pending = f.len := by rw [hp, segLen_wire]
  have hctrl := @hdrReady_iff_wire s f rest 1 fs hp
  constructor
  · intro h
    refine ⟨h.ctrl.header, fun hf => ?_⟩
    obtain ⟨ht1, ht2⟩ := h.rest.trailer (by rw [hL]; omega)
    rw [hL, advance_ready, advance_pos, show s.pos + 3 + (f.len - 1) = s.pos + 2 + f.len by omega]
      at ht1 ht2
    exact ⟨ht1, ht2⟩
  · rintro ⟨h1, h2⟩
    refine ⟨hctrl.mpr ⟨h1, fun hf => by omega⟩, by rw [hL]; exact hle, ?_, fun hf => ?_⟩
    · rw [hL, bodyEnd, advance_pending, List.length_drop, hp, List.length_append]
      split_ifs <;> omega
    · rw [hL] at hf ⊢
      obtain ⟨ht1, ht2⟩ := h2 (by omega)
      rw [advance_ready, advance_pos, show s.pos + 3 + (f.len - 1) = s.pos + 2 + f.len by omega]
      exact ⟨ht1, ht2⟩

theorem le_hdrEnd_length (hp : s.pending = f.wire ++ rest) (hle : H ≤ f.len) :
    hdrEnd H s.pending ≤ f.wire.length := by
  rw [hdrEnd, hp, segLen_wire, bodyEnd, f.length_wire]
  split_ifs <;> omega

end

/-! ## The whole call -/

/-- Two runs of `ddp_recv` return the same value, store the same bytes at the
    same addresses, set the same fields of the message and take the same bytes
    off the stream. -/
structure SameOutcome (r r' : DdpOut) : Prop where
  ret : r.ret = r'.ret
  mem : r.mem = r'.mem
  msg : r.msg = r'.msg
  pending : r.ctx.inb.pending = r'.ctx.inb.pending
  pos : r.ctx.inb.pos = r'.ctx.inb.pos

/-- The check of the first header lets the message pass. -/
def Accepts (ctx : DdpCtx) (f : Fpdu) : Prop :=
  if ddpIsTagged f.ctrl then (ddpCheckStag ctx.taggedBuffers (wireTagged (f.hdr 14))).isSome
  else (ddpCheckUntaggedHdr ctx.queues (wireUntagged (f.hdr 18))).isSome

/-- No read made with a single call is cut: of the first header, and of what
    follows it if the header is accepted; `n` bytes follow the message. -/
def NotCut (ctx : DdpCtx) (n : ℕ) (f : Fpdu) (fs : List Fpdu) : Prop :=
  HeaderReady (ddpHdrSize f.ctrl) ctx.inb.ready ctx.inb.pos (f :: fs) ∧
    (Accepts ctx f → LoopReady (ddpHdrSize f.ctrl) ctx.inb.ready n ctx.inb.pos (f :: fs))

/-- The context with everything ready. -/
def DdpCtx.full (ctx : DdpCtx) : DdpCtx := { ctx with inb := ctx.inb.full }

section

variable {ctx : DdpCtx} (mem : Mem) (msg : DdpMessage) {f : Fpdu} {fs : List Fpdu}
  {rest : List UInt8}

/-- The two runs from the payload loop on. -/
theorem ddpRecvPayload_full {K : SegKind} {α : Type} {S : FieldSpec K α} {v : α} {s₀ : Inbound}
    {c : SegCtx} {k : ℕ} (hf : s₀.FailFree) (hmsg : IsMessage K.hdrSize (f :: fs))
    (hp : s₀.pending = wireOf (f :: fs) ++ rest) (hinb : ctx.inb = s₀.advance k)
    (hat : AtHead S v s₀ (s₀.advance k) c) (hk : msg.kind = K) (hkle : k ≤ f.wire.length) :
    SameOutcome (ddpRecvPayload ctx mem msg c) (ddpRecvPayload ctx.full mem msg c) ↔
      LoopReady K.hdrSize s₀.ready rest.length s₀.pos (f :: fs) := by
  have hfuel : fs.length < ctx.inb.pending.length + 1 := by
    have hle := length_le_length_wireOf fs
    rw [hinb, advance_pending, List.length_drop, hp, List.length_append, wireOf_cons,
      List.length_append]
    omega
  rw [wireOf_cons, List.append_assoc] at hp
  obtain ⟨hyes, hno⟩ := segLoop_full fs f rest (ctx.inb.pending.length + 1) v s₀ _ c 0 [] hf hmsg
    hfuel hp hat
  rw [← hinb] at hyes hno
  constructor
  · intro h
    by_contra hcut
    have hpos := h.pos
    have hlt := hno hcut
    simp only [ddpRecvPayload, hk, DdpCtx.full, full_pending] at hpos
    split_ifs at hpos <;> exact absurd hpos hlt.ne
  · intro hready
    have heq := hyes hready
    simp only [ddpRecvPayload, hk, DdpCtx.full, full_pending, heq]
    split_ifs <;> exact ⟨rfl, rfl, rfl, rfl, rfl⟩

/-- A first header that is read and rejected: the call is over. -/
def HeadRejected (ctx : DdpCtx) (msg : DdpMessage) (k : ℕ) : Prop :=
  ∃ m, ddpRecvHead ctx msg = ⟨.inl (.val (-1)), { ctx with inb := ctx.inb.advance k }, m⟩ ∧
    ddpRecvHead ctx.full msg = ⟨.inl (.val (-1)), { ctx with inb := ctx.inb.full.advance k }, m⟩

/-- A first header that is read and accepted: in both runs the same payload loop
    follows, with headers of `H` bytes. -/
def HeadAccepted (ctx : DdpCtx) (msg : DdpMessage) (H k : ℕ) : Prop :=
  ∃ (K : SegKind) (α : Type) (S : FieldSpec K α) (v : α) (c : SegCtx) (m : DdpMessage)
    (ctx' : DdpCtx), K.hdrSize = H ∧ m.kind = K ∧ ctx'.inb = ctx.inb.advance k ∧
      AtHead S v ctx.inb (ctx.inb.advance k) c ∧ ddpRecvHead ctx msg = ⟨.inr c, ctx', m⟩ ∧
      ddpRecvHead ctx.full msg = ⟨.inr c, ctx'.full, m⟩

theorem firstReady_full (hp : ctx.inb.pending = f.wire ++ rest) {H : ℕ} (hH : 2 ≤ H)
    (hle : H ≤ f.len) : FirstReady ctx.full.inb H :=
  (@firstReady_iff_wire ctx.full.inb f rest H [] hp hH hle).mpr (headerReady_full ctx.inb H _ [f])

theorem head_tagged_full (hf : ctx.inb.FailFree) (hp : ctx.inb.pending = f.wire ++ rest)
    (ht : ddpIsTagged f.ctrl = true) (hle : 14 ≤ f.len) (h : FirstReady ctx.inb 14) :
    (¬Accepts ctx f ∧ HeadRejected ctx msg (hdrEnd 14 ctx.inb.pending)) ∨
      (Accepts ctx f ∧ HeadAccepted ctx msg 14 (hdrEnd 14 ctx.inb.pending)) := by
  have hc : ctx.inb.pending.getD 2 0 = f.ctrl := by rw [hp, ctrl_wire]
  have hraw : segRaw 14 ctx.inb.pending = f.hdr 14 := by rw [hp, segRaw_wire hle]
  have hhead := ddpRecvHead_tagged_of_ready msg hf (by rw [hc]; exact ht) h
  have hfull := @ddpRecvHead_tagged_of_ready ctx.full msg hf.full
    (by rw [← ht, ← hc]; rfl) (firstReady_full hp (by decide) hle)
  have heq : ddpCheckStag ctx.full.taggedBuffers (wireTagged (segRaw 14 ctx.full.inb.pending)) =
      ddpCheckStag ctx.taggedBuffers (wireTagged (segRaw 14 ctx.inb.pending)) := rfl
  rw [heq] at hfull
  have hat := atHead_tagged h 0
  rw [Accepts, if_pos ht, ← hraw]
  cases hb : ddpCheckStag ctx.taggedBuffers (wireTagged (segRaw 14 ctx.inb.pending)) with
  | none =>
    rw [hb] at hhead hfull
    exact .inl ⟨by simp, _, hhead, hfull⟩
  | some b =>
    rw [hb] at hhead hfull
    refine .inr ⟨rfl, taggedKind, _, taggedField, 0, _, _, _, rfl, ?_, rfl, hat, hhead, hfull⟩
    have htag : ddpIsTagged (taggedHdrMsg msg (segRaw 14 ctx.inb.pending)).hdr = true := by
      rw [hraw, ← ht, ← f.getD_hdr (show 0 < 14 by decide)]
      rfl
    simp only [DdpMessage.kind, htag, if_true]

/-- The buffer of the first header does not depend on the stream. -/
theorem tryDequeueBuf_inb (s : Inbound) (qn : Fin 3) :
    tryDequeueBuf { ctx with inb := s } qn msg =
      ({ (tryDequeueBuf ctx qn msg).1 with inb := s }, (tryDequeueBuf ctx qn msg).2) := by
  simp only [tryDequeueBuf]
  split <;> rfl

theorem head_untagged_full (hf : ctx.inb.FailFree) (hp : ctx.inb.pending = f.wire ++ rest)
    (ht : ddpIsTagged f.ctrl = false) (hle : 18 ≤ f.len) (h : FirstReady ctx.inb 18) :
    (¬Accepts ctx f ∧ HeadRejected ctx msg (hdrEnd 18 ctx.inb.pending)) ∨
      (Accepts ctx f ∧ HeadAccepted ctx msg 18 (hdrEnd 18 ctx.inb.pending)) := by
  have hc : ctx.inb.pending.getD 2 0 = f.ctrl := by rw [hp, ctrl_wire]
  have hraw : segRaw 18 ctx.inb.pending = f.hdr 18 := by rw [hp, segRaw_wire hle]
  have hhead := ddpRecvHead_untagged_of_ready msg hf (by rw [hc]; exact ht) h
  have hfull := @ddpRecvHead_untagged_of_ready ctx.full msg hf.full
    (by rw [← ht, ← hc]; rfl) (firstReady_full hp (by decide) hle)
  have heq : ddpCheckUntaggedHdr ctx.full.queues (wireUntagged (segRaw 18 ctx.full.inb.pending)) =
      ddpCheckUntaggedHdr ctx.queues (wireUntagged (segRaw 18 ctx.inb.pending)) := rfl
  rw [heq] at hfull
  rw [Accepts, if_neg (by rw [ht]; decide), ← hraw]
  cases hb : ddpCheckUntaggedHdr ctx.queues (wireUntagged (segRaw 18 ctx.inb.pending)) with
  | none =>
    rw [hb] at hhead hfull
    exact .inl ⟨by simp, _, hhead, hfull⟩
  | some qn =>
    rw [hb] at hhead hfull
    simp only [DdpCtx.full] at hfull
    simp only [tryDequeueBuf_inb] at hhead hfull
    have htag : ddpIsTagged (tryDequeueBuf ctx qn
        (untaggedHdrMsg msg (segRaw 18 ctx.inb.pending))).2.hdr = false := by
      rw [tryDequeueBuf_hdr, hraw, ← ht, ← f.getD_hdr (show 0 < 18 by decide)]
      rfl
    obtain ⟨data, hdata⟩ : ∃ data, data = (tryDequeueBuf ctx qn
      (untaggedHdrMsg msg (segRaw 18 ctx.inb.pending))).2.buf.untagBuf.data := ⟨_, rfl⟩
    refine .inr ⟨rfl, untaggedKind data, _, untaggedField data, 0, _, _, _, rfl, ?_, rfl,
      atHead_untagged h data 0, hhead, hfull⟩
    rw [hdata]
    simp only [DdpMessage.kind, htag, Bool.false_eq_true, if_false]

/-- The two runs after a first header that is read. -/
theorem head_full (hf : ctx.inb.FailFree) (hp : ctx.inb.pending = f.wire ++ rest)
    (hle : ddpHdrSize f.ctrl ≤ f.len) (h : FirstReady ctx.inb (ddpHdrSize f.ctrl)) :
    (¬Accepts ctx f ∧ HeadRejected ctx msg (hdrEnd (ddpHdrSize f.ctrl) ctx.inb.pending)) ∨
      (Accepts ctx f ∧ HeadAccepted ctx msg (ddpHdrSize f.ctrl)
        (hdrEnd (ddpHdrSize f.ctrl) ctx.inb.pending)) := by
  cases ht : ddpIsTagged f.ctrl with
  | true =>
    simp only [ddpHdrSize, ht, if_true] at hle h ⊢
    exact head_tagged_full msg hf hp ht hle h
  | false =>
    simp only [ddpHdrSize, ht, Bool.false_eq_true, if_false] at hle h ⊢
    exact head_untagged_full msg hf hp ht hle h

/-- With everything ready the reader passes the first header. -/
theorem ddpRecv_full_pos (hf : ctx.inb.FailFree) (hp : ctx.inb.pending = f.wire ++ rest)
    (hle : ddpHdrSize f.ctrl ≤ f.len) :
    ctx.inb.pos + hdrEnd (ddpHdrSize f.ctrl) ctx.inb.pending ≤
      (ddpRecv ctx.full mem msg).ctx.inb.pos := by
  have hsize := two_le_ddpHdrSize f.ctrl
  rcases @head_full ctx.full msg f rest hf.full hp hle (firstReady_full hp hsize hle) with
    ⟨-, m, hm, -⟩ | ⟨-, K, α, S, v, c, m, ctx', -, hk, hinb, hat, hm, -⟩
  · simp only [ddpRecv, hm]
    exact le_rfl
  · have hmono := segLoop_pos_le (ctx'.inb.pending.length + 1) v ctx.full.inb _ c 0 [] hf.full hat
    rw [← hinb] at hmono
    simp only [ddpRecv, hm, ddpRecvPayload, hk]
    have hstart : ctx'.inb.pos = ctx.inb.pos + hdrEnd (ddpHdrSize f.ctrl) ctx.inb.pending := by
      rw [hinb]
      rfl
    split_ifs <;> exact hstart ▸ hmono

/-- Fragmentation does not show exactly when no single-call read is cut. -/
theorem fragmentation_iff (hf : ctx.inb.FailFree) (hmsg : IsMessage (ddpHdrSize f.ctrl) (f :: fs))
    (hp : ctx.inb.pending = wireOf (f :: fs) ++ rest) :
    SameOutcome (ddpRecv ctx mem msg) (ddpRecv ctx.full mem msg) ↔
      NotCut ctx rest.length f fs := by
  have hp' : ctx.inb.pending = f.wire ++ (wireOf fs ++ rest) := by
    rw [hp, wireOf_cons, List.append_assoc]
  have hle := hmsg.le
  have hsize := two_le_ddpHdrSize f.ctrl
  have hc : ctx.inb.pending.getD 2 0 = f.ctrl := by rw [hp', ctrl_wire]
  have hL : segLen ctx.inb.pending = f.len := by rw [hp', segLen_wire]
  rw [NotCut]
  by_cases hr : HeaderReady (ddpHdrSize f.ctrl) ctx.inb.ready ctx.inb.pos (f :: fs)
  · have hfirst := (firstReady_iff_wire hp' hsize hle).mpr hr
    rcases head_full msg hf hp' hle hfirst with
      ⟨hrej, m, hm, hm'⟩ | ⟨hacc, K, α, S, v, c, m, ctx', hK, hk, hinb, hat, hm, hm'⟩
    · simp only [ddpRecv, hm, hm']
      exact ⟨fun _ => ⟨hr, fun ha => absurd ha hrej⟩, fun _ => ⟨rfl, rfl, rfl, rfl, rfl⟩⟩
    · rw [← hK] at hmsg hr ⊢
      have hiff := ddpRecvPayload_full mem m hf hmsg hp hinb hat hk
        (le_hdrEnd_length hp' hle)
      simp only [ddpRecv, hm, hm']
      rw [hiff]
      exact ⟨fun hl => ⟨hr, fun _ => hl⟩, fun hn => hn.2 hacc⟩
  · -- the run as handed out stops inside the header
    have hnot : ¬FirstReady ctx.inb (ddpHdrSize f.ctrl) :=
      fun h => hr ((firstReady_iff_wire hp' hsize hle).mp h)
    have hfail := ddpRecvHead_of_not_ready msg hf (by rw [hc]; exact hnot)
    rw [hc, hL] at hfail
    obtain ⟨r, -, hnext, hadv⟩ := hfail
    obtain ⟨j, hj, hctx⟩ := hadv hle
    have hfull := ddpRecv_full_pos mem msg hf hp' hle
    refine ⟨fun hsame => ?_, fun hn => absurd hn.1 hr⟩
    have hpos := hsame.pos
    simp only [ddpRecv, hnext, hctx, advance_pos] at hpos hfull
    omega

end

/-- A tagged message of one payload byte, for the buffer at `0x5000`. -/
def oneByteWrite : Fpdu where
  ulpdu := [0xc1, 0x40, 0, 0, 0x50, 0, 0, 0, 0, 0, 0, 0, 0x50, 0, 7]
  trailer := [0, 0, 0, 0, 0]
  ulpdu_pos := by decide
  ulpdu_lt := by decide
  trailer_length := by decide

/-- Handed out in pieces of at most four bytes the message is received as when
    it is handed out at once. -/
theorem fragmentation_four_bytes :
    let ctx : DdpCtx := ⟨⟨wireOf [oneByteWrite] ++ [], false, 0, fun _ => 4, fun _ => 0⟩,
      ⟨[], []⟩, fun _ => ⟨[], 1⟩,
      fun t => if t = 0x5000 then some ⟨⟨0x5000, 0⟩, 0x5000, 4⟩ else none⟩
    SameOutcome (ddpRecv ctx ⟨fun _ => 0, []⟩ ⟨0, fun _ => 0, .untag ⟨0, 0⟩, 0⟩)
      (ddpRecv ctx.full ⟨fun _ => 0, []⟩ ⟨0, fun _ => 0, .untag ⟨0, 0⟩, 0⟩) := by
  intro ctx
  have h := @fragmentation_iff ctx ⟨fun _ => 0, []⟩ ⟨0, fun _ => 0, .untag ⟨0, 0⟩, 0⟩ oneByteWrite
    [] [] (fun _ => rfl) ⟨by decide, by decide⟩ rfl
  have htr : ∀ p len, TrailerReady ctx.inb.ready p len := trailerReady_of_le fun _ => le_rfl
  refine h.mpr ⟨⟨(by decide : 2 ≤ 4), fun _ => htr _ _⟩, fun _ => ?_⟩
  exact ⟨htr _ _, trivial, trivial⟩

/-- Handed out byte by byte the same message is an error: the MPA header is cut. -/
theorem fragmentation_single_bytes :
    let ctx : DdpCtx := ⟨⟨wireOf [oneByteWrite] ++ [], false, 0, fun _ => 1, fun _ => 0⟩,
      ⟨[], []⟩, fun _ => ⟨[], 1⟩,
      fun t => if t = 0x5000 then some ⟨⟨0x5000, 0⟩, 0x5000, 4⟩ else none⟩
    let r := ddpRecv ctx ⟨fun _ => 0, []⟩ ⟨0, fun _ => 0, .untag ⟨0, 0⟩, 0⟩
    let r' := ddpRecv ctx.full ⟨fun _ => 0, []⟩ ⟨0, fun _ => 0, .untag ⟨0, 0⟩, 0⟩
    IsMessage (ddpHdrSize oneByteWrite.ctrl) [oneByteWrite] ∧ r.ret = .val (-1) ∧
      r'.ret = .val 0 ∧ ¬SameOutcome r r' := by
  intro ctx r r'
  have h1 : r.ret = .val (-1) := by decide +kernel
  have h2 : r'.ret = .val 0 := by decide +kernel
  refine ⟨⟨by decide, by decide⟩, h1, h2, fun h => ?_⟩
  have := h.ret
  rw [h1, h2] at this
  exact absurd this (by decide)

end SoftUiWarp
