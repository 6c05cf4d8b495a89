import SoftUiWarp.Ddp.Send

/-!
# A DDP message as a list of FPDUs

Every iteration of a send loop gives one FPDU to `sendmsg` and looks only at
the sign of the count it returns. A message is therefore a list of byte
strings, sent one after another until a call fails, whatever the calls accept.

Results:
* `DdpCall.run_eq`: `ddp_send_tagged` and `ddp_send_untagged` send the FPDUs of
  their message in this way.
* `DdpCall.frames_wire`: each of them is a well-formed packet.
* `sendFrames_whole_iff`: when the return value 0 means that every byte was
  accepted.
-/

namespace SoftUiWarp

open TcpStream ByteMem

/-! ## Sending byte strings -/

/-- Sends byte strings one after another, until a call fails. -/
def sendFrames : List (List UInt8) → Outbound → ℤ × Outbound
  | [], o => (0, o)
  | f :: fs, o =>
    let (ret, o) := o.sendmsg f
    if ret < 0 then (ret, o) else sendFrames fs o

/-- One of the calls that send `fs` fails, with the outcomes `evs`. -/
def SendFails (fs : List (List UInt8)) (evs : List SendEvent) : Prop :=
  ∃ f, (f, SendEvent.fail) ∈ fs.zip evs

/-- One of the calls that send `fs` accepts only a part of what it is given. -/
def SendsShort (fs : List (List UInt8)) (evs : List SendEvent) : Prop :=
  ∃ f k, (f, SendEvent.accept k) ∈ fs.zip evs ∧ k < f.length

section

variable {f : List UInt8} {fs : List (List UInt8)} {es : List SendEvent} {k : ℕ}

theorem sendFails_nil : ¬SendFails fs [] := by
  rintro ⟨f, hf⟩
  simp at hf

theorem sendsShort_nil : ¬SendsShort fs [] := by
  rintro ⟨f, k, hf, -⟩
  simp at hf

theorem sendFails_fail : SendFails (f :: fs) (.fail :: es) := ⟨f, by simp⟩

theorem sendFails_accept : SendFails (f :: fs) (.accept k :: es) ↔ SendFails fs es := by
  simp [SendFails]

theorem sendsShort_accept :
    SendsShort (f :: fs) (.accept k :: es) ↔ k < f.length ∨ SendsShort fs es := by
  constructor
  · rintro ⟨g, m, hmem, hlt⟩
    rcases List.mem_cons.mp hmem with heq | hmem
    · obtain ⟨rfl, h⟩ := Prod.mk.inj heq
      obtain rfl := SendEvent.accept.inj h
      exact .inl hlt
    · exact .inr ⟨g, m, hmem, hlt⟩
  · rintro (hlt | ⟨g, m, hmem, hlt⟩)
    · exact ⟨f, k, by simp, hlt⟩
    · exact ⟨g, m, List.mem_cons_of_mem _ hmem, hlt⟩

/-- With every byte accepted all strings are sent. -/
theorem sendFrames_full (sent : List UInt8) :
    sendFrames fs ⟨sent, []⟩ = (0, ⟨sent ++ fs.flatten, []⟩) := by
  induction fs generalizing sent with
  | nil => simp [sendFrames]
  | cons f fs ih =>
    simp only [sendFrames, Outbound.sendmsg, ih, List.flatten_cons, List.append_assoc]
    rw [if_neg (by omega)]

theorem sendFrames_fail (sent : List UInt8) :
    sendFrames (f :: fs) ⟨sent, .fail :: es⟩ = (-1, ⟨sent, es⟩) := by
  simp [sendFrames, Outbound.sendmsg]

theorem sendFrames_accept (sent : List UInt8) :
    sendFrames (f :: fs) ⟨sent, .accept k :: es⟩ = sendFrames fs ⟨sent ++ f.take k, es⟩ := by
  have hs : (Outbound.mk sent (.accept k :: es)).sendmsg f =
      (min (k : ℤ) (f.length : ℤ), ⟨sent ++ f.take k, es⟩) := rfl
  rw [sendFrames, hs]
  exact if_neg (by omega)

/-- The return value is 0 unless a call fails. -/
theorem sendFrames_ret (sent : List UInt8) :
    (sendFrames fs ⟨sent, es⟩).1 = 0 ↔ ¬SendFails fs es := by
  induction fs generalizing sent es with
  | nil => simp [sendFrames, SendFails]
  | cons f fs ih =>
    rcases es with _ | ⟨_ | k, es⟩
    · simp [sendFrames_full, sendFails_nil]
    · simp [sendFrames_fail, sendFails_fail]
    · rw [sendFrames_accept, sendFails_accept, ih]

theorem sendFrames_length_le (sent : List UInt8) :
    (sendFrames fs ⟨sent, es⟩).2.sent.length ≤ sent.length + fs.flatten.length := by
  induction fs generalizing sent es with
  | nil => simp [sendFrames]
  | cons f fs ih =>
    rcases es with _ | ⟨_ | k, es⟩
    · simp [sendFrames_full]
    · simp [sendFrames_fail]
    · rw [sendFrames_accept]
      have h := @ih es (sent ++ f.take k)
      simp only [List.length_append, List.length_take, List.flatten_cons] at h ⊢
      omega

/-- Without failures everything is accepted exactly if no call is short: a
    short call is not made up for later. -/
theorem sendFrames_sent (sent : List UInt8) (hf : ¬SendFails fs es) :
    (sendFrames fs ⟨sent, es⟩).2.sent = sent ++ fs.flatten ↔ ¬SendsShort fs es := by
  induction fs generalizing sent es with
  | nil => simp [sendFrames, SendsShort]
  | cons f fs ih =>
    rcases es with _ | ⟨_ | k, es⟩
    · simp [sendFrames_full, sendsShort_nil]
    · exact absurd sendFails_fail hf
    · rw [sendFails_accept] at hf
      rw [sendFrames_accept, sendsShort_accept, List.flatten_cons, ← List.append_assoc]
      by_cases hk : k < f.length
      · have hle := @sendFrames_length_le fs es (sent ++ f.take k)
        refine iff_of_false (fun heq => ?_) (not_not_intro (.inl hk))
        rw [heq] at hle
        simp only [List.length_append, List.length_take] at hle
        omega
      · rw [List.take_of_length_le (by omega), ih _ hf]
        simp [hk]

/-- The return value 0 means that every byte was accepted exactly if a call
    fails, so that the value is not 0, or no call is short. -/
theorem sendFrames_whole_iff (fs : List (List UInt8)) (o : Outbound) :
    ((sendFrames fs o).1 = 0 → (sendFrames fs o).2.sent = o.sent ++ fs.flatten) ↔
      SendFails fs o.evs ∨ ¬SendsShort fs o.evs := by
  obtain ⟨sent, es⟩ := o
  rw [sendFrames_ret]
  by_cases hf : SendFails fs es
  · simp [hf]
  · simp only [hf, not_false_eq_true, true_imp_iff, false_or]
    exact sendFrames_sent sent hf

end

/-! ## The FPDUs of a message -/

section

variable {σ : Type} (H : SegHdr σ)

/-- The FPDUs of a message whose segments carry the given pieces. -/
def segFrames : List (Bool × List UInt8) → UInt8 → σ → List (List UInt8)
  | [], _, _ => []
  | (last, p) :: ps, bits, h =>
    let bits := if last then bits ||| ddpFlagLast else bits
    fpdu [[bits], H.bytes h, p] :: segFrames ps bits (H.advance h p.length)

variable {H}

theorem sendPieces_frames (ps : List (Bool × List UInt8)) (st : SendSt σ) :
    ((sendPieces H ps st).1, (sendPieces H ps st).2.out) =
      sendFrames (segFrames H ps st.bits st.hdr2) st.out := by
  induction ps generalizing st with
  | nil => rfl
  | cons p ps ih =>
    obtain ⟨last, p⟩ := p
    simp only [sendPieces, segFrames, sendFrames, mpaSend_sendmsg]
    generalize (if last = true then st.bits ||| ddpFlagLast else st.bits) = bits
    split
    · rfl
    · exact ih _

/-- Pieces that fit a segment make well-formed packets. -/
theorem segFrames_wire (hH : ∀ h, (H.bytes h).length ≤ ddpUntaggedHdrSize)
    {ps : List (Bool × List UInt8)} (hps : ∀ p ∈ ps, p.2.length ≤ mulpdu) (bits : UInt8) (h : σ) :
    ∀ f ∈ segFrames H ps bits h, ∃ F : Fpdu, f = F.wire := by
  induction ps generalizing bits h with
  | nil => simp [segFrames]
  | cons p ps ih =>
    obtain ⟨last, p⟩ := p
    intro f hf
    rcases List.mem_cons.mp hf with rfl | hf
    · have hlen := hH h
      have hp : p.length ≤ mulpdu := hps (last, p) (by simp)
      rw [mulpdu_eq] at hp
      refine ⟨_, fpdu_eq_wire ?_ ?_⟩
      · simp
      · simp only [ddpUntaggedHdrSize] at hlen
        simp only [List.flatten_cons, List.flatten_nil, List.length_append, List.length_cons,
          List.length_nil]
        omega
    · exact ih (fun q hq => hps q (List.mem_cons_of_mem _ hq)) _ _ f hf

end

/-- A call of `ddp_send_tagged` or `ddp_send_untagged`. -/
inductive DdpCall
  | tagged (mem : Mem) (nextHdr : DdpTaggedMeta) (sgeList : List Sge)
  | untagged (mem : Mem) (nextHdr : DdpUntaggedMeta) (sgeList : List Sge)

namespace DdpCall

/-- What the call does. -/
def run (o : Outbound) : DdpCall → ℤ × Outbound
  | .tagged mem nextHdr sgeList => ddpSendTagged o mem nextHdr sgeList
  | .untagged mem nextHdr sgeList => ddpSendUntagged o mem nextHdr sgeList

/-- The FPDUs of its message. -/
def frames : DdpCall → List (List UInt8)
  | .tagged mem nextHdr sgeList =>
    segFrames taggedSegHdr (listPieces mem sgeList) 0x81 (nextHdr, ntohll nextHdr.TO)
  | .untagged mem nextHdr sgeList =>
    segFrames untaggedSegHdr (listPieces mem sgeList) 0x01 { nextHdr with mo := 0 }

theorem run_eq (c : DdpCall) (o : Outbound) : c.run o = sendFrames c.frames o := by
  cases c with
  | tagged mem nextHdr sgeList =>
    show ddpSendTagged o mem nextHdr sgeList = _
    rw [ddpSendTagged, sgeListLoop_pieces, sendPieces_frames]
    rfl
  | untagged mem nextHdr sgeList =>
    show ddpSendUntagged o mem nextHdr sgeList = _
    rw [ddpSendUntagged, sgeListLoop_pieces, sendPieces_frames]
    rfl

/-- With every byte accepted the whole message is sent. -/
theorem run_full (c : DdpCall) (sent : List UInt8) :
    c.run ⟨sent, []⟩ = (0, ⟨sent ++ c.frames.flatten, []⟩) := by
  rw [run_eq, sendFrames_full]

/-- Every FPDU is a well-formed packet. -/
theorem frames_wire (c : DdpCall) : ∀ f ∈ c.frames, ∃ F : Fpdu, f = F.wire := by
  cases c with
  | tagged mem nextHdr sgeList =>
    exact segFrames_wire length_taggedSegHdr_le (listPieces_le mem sgeList) _ _
  | untagged mem nextHdr sgeList =>
    exact segFrames_wire length_untaggedSegHdr_le (listPieces_le mem sgeList) _ _

end DdpCall

end SoftUiWarp
