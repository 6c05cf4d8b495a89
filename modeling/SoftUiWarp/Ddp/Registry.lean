import SoftUiWarp.Ddp.Model
import SoftUiWarp.Lib.Runs

/-!
# The registry of tagged buffers

`register_tagged_buffer` makes the low half of a buffer's address its STag and
stores the buffer under it, whatever is stored there. A buffer whose address
agrees with that of a live one in its low half replaces it. A buffer that
reaches past the end of the address space is not found at its own start, as
`ddp_check_stag` adds its length without regard to the carry.

Results:
* `ddpCheckStag_of_le`: the check accepts what is stored.
* `registrations_held_iff`: the runs of calls that keep every live buffer are
  those that register no such buffer.
-/

namespace SoftUiWarp

open Runs

theorem ddpCheckStag_of_le {tags : UInt32 → Option TaggedBuffer} {hdr : DdpTaggedMeta}
    {b : TaggedBuffer} (hb : tags hdr.tag = some b) (h1 : b.data ≤ hdr.TO)
    (h2 : hdr.TO ≤ b.data + b.len) : ddpCheckStag tags hdr = some b := by
  have hn : ¬(b.data > hdr.TO ∨ b.data + b.len < hdr.TO) := by
    rintro (h | h)
    · exact UInt64.not_lt.mpr h1 h
    · exact UInt64.not_lt.mpr h2 h
  simp only [ddpCheckStag, hb, if_neg hn]

/-! ## Calls -/

inductive RegCall
  | register (buf : TaggedBuffer)
  | deregister (tag : UInt32)

/-- The stream and the registered buffers whose STag has not been deregistered
    since, as `register_tagged_buffer` returned them. -/
structure Registry where
  ctx : DdpCtx
  live : List TaggedBuffer

namespace Registry

def step : RegCall → Registry → Registry
  | .register buf, s =>
    { ctx := (registerTaggedBuffer s.ctx buf).1
      live := (registerTaggedBuffer s.ctx buf).2 :: s.live }
  | .deregister tag, s =>
    { ctx := (deregisterTaggedBuffer s.ctx tag).2
      live := s.live.filter fun b => b.stag.tag ≠ tag }

/-- The check finds the buffer, under its own STag and with its own extent, for
    every target inside it. -/
def Found (s : Registry) (b : TaggedBuffer) : Prop :=
  ∀ hdr : DdpTaggedMeta, hdr.tag = b.stag.tag → b.data.toNat ≤ hdr.TO.toNat →
    hdr.TO.toNat ≤ b.data.toNat + b.len.toNat →
      ∃ b', ddpCheckStag s.ctx.taggedBuffers hdr = some b' ∧ b'.data = b.data ∧ b'.len = b.len

/-- Every live buffer is found, and no two have the same STag. -/
structure Held (s : Registry) : Prop where
  found : ∀ b ∈ s.live, s.Found b
  distinct : s.live.Pairwise fun b b' => b.stag.tag ≠ b'.stag.tag

/-- The STag of a live buffer is the low half of its address. -/
def Tagged (s : Registry) : Prop := ∀ b ∈ s.live, b.stag.tag = b.data.toUInt32

/-- The buffer to register agrees with no live one in the low half of its
    address, and ends inside the address space. -/
def Fresh : RegCall → Registry → Prop
  | .register buf, s => (∀ b ∈ s.live, b.data.toUInt32 ≠ buf.data.toUInt32) ∧
      buf.data.toNat + buf.len.toNat < 2 ^ 64
  | .deregister _, _ => True

section

variable {s : Registry} {b buf : TaggedBuffer} {tag : UInt32}

theorem tagged_step (c : RegCall) (h : s.Tagged) : (step c s).Tagged := by
  cases c with
  | register buf =>
    intro b hb
    rcases List.mem_cons.mp hb with rfl | hb
    · rfl
    · exact h b hb
  | deregister tag => exact fun b hb => h b (List.mem_filter.mp hb).1

theorem tagged_run (cs : List RegCall) (h : s.Tagged) : (run step cs s).Tagged := by
  induction cs generalizing s with
  | nil => exact h
  | cons c cs ih => exact ih (tagged_step c h)

/-- What the check finds depends on the entry under the STag alone. -/
theorem Found.congr {s' : Registry}
    (h : s'.ctx.taggedBuffers b.stag.tag = s.ctx.taggedBuffers b.stag.tag) (hf : s.Found b) :
    s'.Found b := by
  intro hdr htag hlo hhi
  obtain ⟨b', hb', hext⟩ := hf hdr htag hlo hhi
  refine ⟨b', ?_, hext⟩
  rw [← hb']
  simp only [ddpCheckStag, htag, h]

/-- A stored buffer is found if and only if it ends inside the address space. -/
theorem found_iff (hb : s.ctx.taggedBuffers b.stag.tag = some b) :
    s.Found b ↔ b.data.toNat + b.len.toNat < 2 ^ 64 := by
  constructor
  · -- otherwise the check rejects the start of the buffer
    intro hf
    by_contra hend
    obtain ⟨b', hb', -⟩ := hf ⟨0, b.stag.tag, b.data⟩ rfl le_rfl (by simp)
    have hlen := b.len.toNat_lt
    have hdata := b.data.toNat_lt
    have hwrap : b.data + b.len < b.data := by
      rw [UInt64.lt_iff_toNat_lt, UInt64.toNat_add]
      omega
    simp [ddpCheckStag, hb, hwrap] at hb'
  · intro hend hdr htag hlo hhi
    refine ⟨b, ddpCheckStag_of_le (by rw [htag, hb]) (UInt64.le_iff_toNat_le.mpr hlo) ?_, rfl, rfl⟩
    rw [UInt64.le_iff_toNat_le, UInt64.toNat_add]
    omega

/-- A registration keeps the live buffers if and only if the buffer is fresh. -/
theorem held_register (h : s.Held) (ht : s.Tagged) :
    (step (.register buf) s).Held ↔ Fresh (.register buf) s := by
  obtain ⟨b, hb⟩ : ∃ b, (registerTaggedBuffer s.ctx buf).2 = b := ⟨_, rfl⟩
  have htag : b.stag.tag = buf.data.toUInt32 := by rw [← hb]; rfl
  have hdata : b.data = buf.data := by rw [← hb]; rfl
  have hlen : b.len = buf.len := by rw [← hb]; rfl
  have hctx : (registerTaggedBuffer s.ctx buf).1.taggedBuffers =
      Function.update s.ctx.taggedBuffers b.stag.tag (some b) := by
    rw [← hb]
    rfl
  have hstep : step (.register buf) s = ⟨(registerTaggedBuffer s.ctx buf).1, b :: s.live⟩ := by
    rw [← hb]
    rfl
  have hself : (step (.register buf) s).Found b ↔ b.data.toNat + b.len.toNat < 2 ^ 64 := by
    refine found_iff ?_
    rw [hstep, hctx, Function.update_self]
  show _ ↔ (∀ x ∈ s.live, x.data.toUInt32 ≠ buf.data.toUInt32) ∧
    buf.data.toNat + buf.len.toNat < 2 ^ 64
  rw [← hdata, ← hlen, ← hself]
  constructor
  · intro h'
    have hlive := h'.distinct
    rw [hstep] at hlive
    refine ⟨fun x hx => ?_, h'.found b (by simp [hstep])⟩
    rw [← ht x hx, hdata, ← htag]
    exact ((List.pairwise_cons.mp hlive).1 x hx).symm
  · rintro ⟨hne, hfound⟩
    have hne' : ∀ x ∈ s.live, b.stag.tag ≠ x.stag.tag := by
      intro x hx heq
      exact hne x hx (by rw [← ht x hx, ← heq, htag, hdata])
    rw [hstep] at hfound ⊢
    refine ⟨?_, List.pairwise_cons.mpr ⟨hne', h.distinct⟩⟩
    intro x hx
    rcases List.mem_cons.mp hx with rfl | hx
    · exact hfound
    · refine (h.found x hx).congr ?_
      simp only [hctx]
      exact Function.update_of_ne (hne' x hx).symm _ _

/-- A deregistration keeps the buffers that remain. -/
theorem held_deregister (h : s.Held) : (step (.deregister tag) s).Held where
  found := by
    intro b hb
    obtain ⟨hmem, hne⟩ := List.mem_filter.mp hb
    exact (h.found b hmem).congr (Function.update_of_ne (by simpa using hne) _ _)
  distinct := h.distinct.filter _

theorem held_step (c : RegCall) (h : s.Held) (ht : s.Tagged) : (step c s).Held ↔ Fresh c s := by
  cases c with
  | register buf => exact held_register h ht
  | deregister tag => exact iff_of_true (held_deregister h) trivial

end

/-- Along a run of calls every live buffer is found with its own extent and no
    two have the same STag, if and only if every buffer registered is fresh. -/
theorem registrations_held_iff (ctx : DdpCtx) (cs : List RegCall) :
    (∀ pre, pre <+: cs → (run step pre ⟨ctx, []⟩).Held) ↔ Admits step Fresh cs ⟨ctx, []⟩ := by
  have hT : Tagged ⟨ctx, []⟩ := fun b hb => absurd hb (by simp)
  have hH : Held ⟨ctx, []⟩ := ⟨fun b hb => absurd hb (by simp), .nil⟩
  have hstep : ∀ c s, Held s ∧ Tagged s → ((Held (step c s) ∧ Tagged (step c s)) ↔ Fresh c s) := by
    rintro c s ⟨h, ht⟩
    rw [and_iff_left (tagged_step c ht)]
    exact held_step c h ht
  rw [← admits_iff hstep cs ⟨hH, hT⟩]
  exact forall₂_congr fun pre _ => (and_iff_left (tagged_run pre hT)).symm

/-- Two buffers whose addresses are `2 ^ 32` apart: the first is live and is no
    longer found. -/
theorem registrations_collide :
    let ctx := ddpInitStream { pending := [], eof := false } ⟨[], []⟩
    let s := run step [.register ⟨⟨0, 0⟩, 0x1000, 16⟩, .register ⟨⟨0, 0⟩, 0x100001000, 16⟩] ⟨ctx, []⟩
    ⟨⟨0x1000, 0⟩, 0x1000, 16⟩ ∈ s.live ∧
      ddpCheckStag s.ctx.taggedBuffers ⟨0, 0x1000, 0x1000⟩ = none ∧ ¬s.Held := by
  intro ctx s
  have hlive : ⟨⟨0x1000, 0⟩, 0x1000, 16⟩ ∈ s.live := by decide
  have hnone : ddpCheckStag s.ctx.taggedBuffers ⟨0, 0x1000, 0x1000⟩ = none := by decide
  refine ⟨hlive, hnone, fun h => ?_⟩
  obtain ⟨b', hb', -⟩ := h.found _ hlive ⟨0, 0x1000, 0x1000⟩ rfl (by decide) (by decide)
  rw [hnone] at hb'
  cases hb'

end Registry

end SoftUiWarp
