import SoftUiWarp.Rdmap.Delivery
import SoftUiWarp.Rdmap.HandlerTags
import SoftUiWarp.Rdmap.SendLoop

/-!
# Send with Invalidate

`rnic_send` puts the STag to revoke into `rsvdULP2` of the untagged header.
`rnic_recv` reads `rsvdULP1` of the tagged layout of the same union, which is
the opcode byte, and so revokes the STag `0x44` or `0x46`.

Results:
* `revokes_iff`: the keys and registries for which the named STag is revoked.
* `revokes_opcode`: the STag of the opcode byte is revoked instead of the named
  one.
-/

namespace SoftUiWarp

open TcpStream ByteMem Runs

/-- The STag `rkey` and no other is revoked; if it is not registered, nothing is
    and the receive loop ends with an error. -/
def Revokes (old : UInt32 → Option TaggedBuffer) (rkey : UInt32) (ep : Ep) : Prop :=
  if (old rkey).isSome then ep.ddp.taggedBuffers = Function.update old rkey none
  else ep.ddp.taggedBuffers = old ∧ ep.recvPc = .exited (-1)

/-- The sends with invalidate. -/
def RdmaOpcode.IsInval (op : RdmaOpcode) : Prop := op = .sendInval ∨ op = .sendSeInval

/-! ## The registry -/

section

variable {α β : Type*} [DecidableEq α] {f : α → Option β} {a b : α}

/-- Removing one key is removing another only if they are the same, or neither is
    there. -/
theorem update_none_eq_iff :
    Function.update f a none = Function.update f b none ↔ a = b ∨ (f a = none ∧ f b = none) := by
  constructor
  · intro h
    by_cases hab : a = b
    · exact .inl hab
    · have ha := congrFun h a
      have hb := congrFun h b
      rw [Function.update_self, Function.update_of_ne hab] at ha
      rw [Function.update_self, Function.update_of_ne (Ne.symm hab)] at hb
      exact .inr ⟨ha.symm, hb⟩
  · rintro (rfl | ⟨ha, hb⟩)
    · rfl
    · rw [Function.update_eq_self_iff.mpr ha.symm, Function.update_eq_self_iff.mpr hb.symm]

end

/-! ## The two sides -/

section

variable {ep : Ep} {op : RdmaOpcode}

/-- The bytes of the message: the byte after the control byte is the opcode byte. -/
theorem fpdus_opcode {t : Tx} (hop : t.req.opcode.IsInval) (hne : t.fpdus ≠ [])
    (rest : List UInt8) :
    (t.fpdus.flatten ++ rest).getD 3 0 = rdmaHdr t.req.opcode := by
  have hcall : t.call = some (.untagged t.job.mem (t.job.untaggedHdr t.st .inval) t.job.sges) := by
    have hjob : t.job.req.opcode.IsInval := hop
    unfold Tx.call Job.call
    rcases hjob with h | h <;> rw [h]
  have hfpdus : t.fpdus = segFrames untaggedSegHdr (listPieces t.job.mem t.job.sges) 0x01
      { t.job.untaggedHdr t.st .inval with mo := 0 } := by
    unfold Tx.fpdus
    rw [hcall]
    rfl
  rw [hfpdus] at hne ⊢
  cases hps : listPieces t.job.mem t.job.sges with
  | nil =>
    rw [hps] at hne
    exact absurd rfl hne
  | cons p ps =>
    obtain ⟨last, p⟩ := p
    show (fpdu [[_], DdpUntaggedMeta.bytes _, p] ++ _ ++ rest).getD 3 0 = _
    rfl

/-- The case of the sends with invalidate revokes the STag of the opcode byte, and
    ends the loop if it is not registered. -/
theorem dispatch_inval (bld : Build) (ret : ℤ) (hop : ep.opcode = some op) (hinval : op.IsInval) :
    (ep.dispatch bld ret).ddp.taggedBuffers =
        Function.update ep.ddp.taggedBuffers (ep.msg.hdrUnion 0).toUInt32 none ∧
      (ep.ddp.taggedBuffers (ep.msg.hdrUnion 0).toUInt32 = none →
        (ep.dispatch bld ret).recvPc = .exited (-1)) := by
  have hcase : ep.dispatch bld ret = ep.recvSendInval bld op ret := by
    unfold Ep.dispatch
    rcases hinval with rfl | rfl <;> rw [hop]
  obtain ⟨tag, htag⟩ : ∃ tag, ep.msg.taggedMetadata.rsvdULP1.toUInt32 = tag := ⟨_, rfl⟩
  have hunion : (ep.msg.hdrUnion 0).toUInt32 = tag := htag
  rw [hcase, hunion]
  unfold Ep.recvSendInval
  rw [htag]
  unfold deregisterTaggedBuffer
  cases hreg : ep.ddp.taggedBuffers tag with
  | none => exact ⟨rfl, fun _ => rfl⟩
  | some b =>
    refine ⟨?_, fun h => by cases h⟩
    simp only [Option.isSome_some, if_true]
    rw [if_neg (by decide)]
    unfold Ep.recvSend Ep.assertThen
    split
    · obtain ⟨-, heq⟩ | ⟨wr, rq, -, heq⟩ := takeRecv_cases _ ret _
      all_goals
        rw [heq]
    · rfl

end

/-! ## The law -/

section

variable {bld : Build} {s : Sys} {ls ls' : List Label} {ret : ℤ} {t : Tx} {rest : List UInt8}

/-- The message of a send with invalidate has arrived and the switch follows. For
    the registry `old` that is there then, the named STag is revoked if and only if
    it is the opcode byte, or neither of the two is registered. -/
theorem revokes_iff (hop : t.req.opcode.IsInval) (hne : t.fpdus ≠ [])
    (hpend : s.ep.ddp.inb.pending = t.fpdus.flatten ++ rest) (hidle : s.ep.recvPc = .idle)
    (hls : ∀ l ∈ ls, l ≠ .recv) (hls' : ∀ l ∈ ls', l ≠ .recv)
    (hret : (run (step bld) (.recv :: ls ++ .recv :: ls') s).ep.recvPc = .dispatch ret) :
    let s' := run (step bld) (.recv :: ls ++ .recv :: ls') s
    let old := s'.ep.ddp.taggedBuffers
    let rkey := t.req.invalidateRkey
    let ulp1 := (rdmaHdr t.req.opcode).toUInt32
    Revokes old rkey (step bld .recv s').ep ↔
      rkey = ulp1 ∨ (old rkey = none ∧ old ulp1 = none) := by
  intro s' old rkey ulp1
  obtain ⟨⟨c, hnext⟩, -, hunion, -⟩ := atSwitch_spec hidle hls hls' hret
  obtain ⟨-, hfirst⟩ := ddpRecvHead_first hnext
  rw [hpend, fpdus_opcode hop hne] at hfirst
  have hbyte : s'.ep.msg.hdrUnion 0 = rdmaHdr t.req.opcode := hunion.trans hfirst
  have hcode : s'.ep.opcode = some t.req.opcode := by
    unfold Ep.opcode
    rw [hbyte, ofCode_rdmaHdr]
    rcases hop with h | h <;> rw [h] <;> decide
  have hstep : (step bld .recv s').ep = s'.ep.dispatch bld ret := recvStep_dispatch bld hret
  obtain ⟨htags, hexit⟩ := dispatch_inval bld ret hcode hop
  rw [hbyte] at htags hexit
  rw [hstep]
  unfold Revokes
  rw [htags]
  split
  · exact update_none_eq_iff.trans (or_congr eq_comm and_comm)
  · rename_i hreg
    have hnone : old rkey = none := Option.not_isSome_iff_eq_none.mp hreg
    constructor
    · rintro ⟨hsame, -⟩
      exact .inr ⟨hnone, (Function.update_eq_self_iff.mp hsame).symm⟩
    · intro h
      have hulp : old ulp1 = none := by
        rcases h with heq | ⟨-, h⟩
        · rw [← heq, hnone]
        · exact h
      exact ⟨Function.update_eq_self_iff.mpr hulp.symm, hexit hulp⟩

end

/-! ## Two registered buffers -/

/-- The message of a Send with Invalidate of one byte for the STag `rkey`. -/
def invalTx (rkey : UInt32) : Tx where
  junk := ⟨0, 0, 0, 0, 0⟩
  st := {}
  ep := (newSys []).ep
  req := ⟨1, .user [⟨0x2000, 1, 0⟩], .sendInval, rkey, 0, 0⟩

/-- A stream on which it comes, with a receive posted and a buffer registered
    under the STag `0x44`. -/
def invalSys (rkey : UInt32) : Sys :=
  run (step ⟨false, false⟩)
    [.postBuffers oneRecv, .postWr, .register ⟨⟨0x44, 0⟩, 0x44, 4⟩, .register tagBuf]
    (newSys (invalTx rkey).fpdus.flatten)

/-- The message names the STag `0x44`. -/
theorem revokes_named :
    let s' := run (step ⟨false, false⟩) (.recv :: [] ++ .recv :: []) (invalSys 0x44)
    Revokes s'.ep.ddp.taggedBuffers 0x44 (step ⟨false, false⟩ .recv s').ep := by
  intro s'
  obtain ⟨ret, hret⟩ : ∃ ret, s'.ep.recvPc = .dispatch ret := RecvPc.eq_dispatch (by decide +kernel)
  have hpend : (invalSys 0x44).ep.ddp.inb.pending = (invalTx 0x44).fpdus.flatten ++ [] := by
    decide +kernel
  exact (revokes_iff (.inl rfl) (by decide +kernel) hpend rfl (by simp) (by simp) hret).mpr
    (.inl (by decide +kernel))

/-- The message names the registered STag `0x1000`: afterwards this one is still
    registered and `0x44` is not. -/
theorem revokes_opcode :
    let s' := run (step ⟨false, false⟩) (.recv :: [] ++ .recv :: []) (invalSys 0x1000)
    let tags := (step ⟨false, false⟩ .recv s').ep.ddp.taggedBuffers
    s'.ep.ddp.inb.pending = [] ∧ s'.ep.handles .sendInval ∧
      (s'.ep.ddp.taggedBuffers 0x1000).isSome ∧ (s'.ep.ddp.taggedBuffers 0x44).isSome ∧
      (tags 0x1000).isSome ∧ tags 0x44 = none ∧
      ¬Revokes s'.ep.ddp.taggedBuffers 0x1000 (step ⟨false, false⟩ .recv s').ep := by
  intro s' tags
  have hreg : (s'.ep.ddp.taggedBuffers 0x1000).isSome := by decide +kernel
  have hstill : (tags 0x1000).isSome := by decide +kernel
  refine ⟨by decide +kernel, by decide +kernel, hreg, by decide +kernel, hstill, by decide +kernel,
    fun h => ?_⟩
  unfold Revokes at h
  rw [if_pos hreg] at h
  have hnone : tags 0x1000 = none := by
    show (step ⟨false, false⟩ .recv s').ep.ddp.taggedBuffers 0x1000 = none
    rw [h, Function.update_self]
  rw [hnone] at hstill
  cases hstill

end SoftUiWarp
