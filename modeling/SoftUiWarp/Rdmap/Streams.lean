import SoftUiWarp.Rdmap.MsnSequence

/-!
# Several streams in one process

The counters of `rnic_send` have static storage, so the send threads of all
streams of a process share them. Everything else a send thread works with
belongs to its stream. A stream's view of memory is its own here; what other
threads of the process store into it is a store of its application.

Results:
* `jobs_out`: what a run puts on the socket of a stream.
* `streams_isolated`: when two runs that agree on a stream put the same bytes
  on its socket.
-/

namespace SoftUiWarp

open TcpStream ByteMem Runs

variable {ι : Type} [DecidableEq ι]

/-! ## The process -/

/-- The counters and the streams; the counters of a stream's own state are not
    used. -/
structure Proc (ι : Type) where
  st : Statics
  streams : ι → Sys

/-- A stream with the counters of the process. -/
def Proc.sys (p : Proc ι) (i : ι) : Sys := { p.streams i with st := p.st }

def Proc.outb (p : Proc ι) (i : ι) : Outbound := (p.streams i).ep.ddp.outb

/-- One step of one stream. -/
def procStep (bld : Build) (l : ι × Label) (p : Proc ι) : Proc ι :=
  let s := step bld l.2 (p.sys l.1)
  ⟨s.st, Function.update p.streams l.1 s⟩

/-- The request whose message a step sends, with its stream. -/
def procTxOf (l : ι × Label) (p : Proc ι) : List (ι × Tx) := (txOf l.2 (p.sys l.1)).map (l.1, ·)

/-- The requests sent in a run, in order. -/
def procTxs (bld : Build) (ls : List (ι × Label)) (p : Proc ι) : List (ι × Tx) :=
  trace (procStep bld) procTxOf ls p

/-- The requests of stream `a`, with the memory they are sent from. -/
def jobsOn (a : ι) (xs : List (ι × Tx)) : List Job :=
  (xs.filter fun x => x.1 = a).map fun x => x.2.job

/-- What the jobs leave on the socket of a stream that is alone in its process. -/
def soloOut (js : List Job) (o : Outbound) : Outbound := (js.foldl sendJob ({}, o)).2

/-- Before every message of stream `a`, the other streams have advanced its
    counter by a multiple of `2 ^ 32`. -/
def Undisturbed (a : ι) (xs : List (ι × Tx)) : Prop :=
  ∀ k t c, xs[k]? = some (a, t) → t.req.opcode.counter = some c → t.transmits = true →
    2 ^ 32 ∣ (xs.take k).countP fun x => x.2.counts c && decide (x.1 ≠ a)

/-! ## The socket of one stream -/

/-- What a request does to the counters and the socket of stream `a`. -/
def sendOn (a : ι) (v : Statics × Outbound) (x : ι × Tx) : Statics × Outbound :=
  if x.1 = a then sendJob v x.2.job else (v.1.next x.2.req.opcode, v.2)

section

variable (bld : Build) (a : ι)

theorem procStep_view (l : ι × Label) (p : Proc ι) :
    ((procStep bld l p).st, (procStep bld l p).outb a) =
      (procTxOf l p).foldl (sendOn a) (p.st, p.outb a) := by
  obtain ⟨i, l⟩ := l
  have hview := step_view bld l (p.sys i)
  by_cases hi : i = a
  · subst hi
    have hout : (procStep bld (i, l) p).outb i = (step bld l (p.sys i)).ep.ddp.outb := by
      simp [procStep, Proc.outb]
    have hf : (fun (v : Statics × Outbound) (t : Tx) => sendOn i v (i, t)) =
        fun v t => sendJob v t.job := by
      funext v t
      simp [sendOn]
    rw [hout, procTxOf, List.foldl_map, hf]
    exact hview
  · have hout : (procStep bld (i, l) p).outb a = p.outb a := by
      simp [procStep, Proc.outb, Function.update_of_ne (Ne.symm hi)]
    rw [hout, procTxOf, List.foldl_map]
    show ((step bld l (p.sys i)).st, _) = _
    rw [step_st]
    rcases txOf_cases l (p.sys i) with hnil | ⟨junk, req, heq⟩
    · rw [hnil]
      rfl
    · rw [heq]
      simp [sendOn, hi, Proc.sys]

theorem proc_view (ls : List (ι × Label)) (p : Proc ι) :
    ((run (procStep bld) ls p).st, (run (procStep bld) ls p).outb a) =
      (procTxs bld ls p).foldl (sendOn a) (p.st, p.outb a) :=
  view_run (fun p => (p.st, p.outb a)) (procStep_view bld a) ls p

end

/-! ## What a job sends -/

/-- The FPDUs of a job's message. -/
def Job.fpdus (j : Job) (st : Statics) : List (List UInt8) :=
  ((j.call st).map DdpCall.frames).getD []

theorem sendJob_out (v : Statics × Outbound) (j : Job) :
    (sendJob v j).2 = (sendFrames (j.fpdus v.1) v.2).2 := by
  unfold sendJob Job.fpdus
  cases j.call v.1 with
  | none => rfl
  | some c => exact congrArg Prod.snd (c.run_eq v.2)

theorem untagged_frames_nil {mem : Mem} {h : DdpUntaggedMeta} {sges : List Sge}
    (hs : sges.any Sge.isSent = false) : (DdpCall.untagged mem h sges).frames = [] := by
  simp only [DdpCall.frames, (listPieces_eq_nil mem sges).mpr hs, segFrames]

/-- The counters matter only for the number of a message that is sent. -/
theorem Tx.fpdus_congr (t : Tx) {st st' : Statics}
    (h : ∀ c, t.req.opcode.counter = some c → t.transmits = true → st.get c = st'.get c) :
    t.job.fpdus st = t.job.fpdus st' := by
  -- an untagged message with the counter `c`
  have huntagged : ∀ {c : Counter} {mem : Mem} {sges : List Sge}, t.req.opcode.counter = some c →
      (sges.any Sge.isSent = true → t.transmits = true) →
      (DdpCall.untagged mem (t.job.untaggedHdr st c) sges).frames =
        (DdpCall.untagged mem (t.job.untaggedHdr st' c) sges).frames := by
    intro c mem sges hc hs
    cases hany : sges.any Sge.isSent with
    | true => rw [Job.untaggedHdr, Job.untaggedHdr, h c hc (hs hany)]
    | false => rw [untagged_frames_nil hany, untagged_frames_nil hany]
  unfold Job.fpdus Job.call
  cases hop : t.req.opcode with
  | rdmaReadReq =>
    rcases hsg : t.ep.sges t.req with _ | ⟨sg, _ | ⟨sg', sges⟩⟩
    · simp [Tx.job, hop, hsg]
    · have ht : t.transmits = true := by simp [Tx.transmits, hop, hsg]
      simp only [Tx.job, hop, hsg, Option.map_some, Option.getD_some]
      exact huntagged (by rw [hop]; rfl) fun _ => ht
    · simp [Tx.job, hop, hsg]
  | send | sendSe | sendInval | sendSeInval =>
    simp only [Tx.job, hop, Option.map_some, Option.getD_some]
    refine huntagged (by rw [hop]; rfl) fun hany => ?_
    simpa [Tx.transmits, hop] using hany
  | _ => simp [Tx.job, hop]

section

variable {a : ι}

theorem sendOn_fst (v : Statics × Outbound) (x : ι × Tx) :
    (sendOn a v x).1 = v.1.next x.2.req.opcode := by
  unfold sendOn
  split <;> rfl

theorem jobsOn_append (xs : List (ι × Tx)) (x : ι × Tx) :
    jobsOn a (xs ++ [x]) = if x.1 = a then jobsOn a xs ++ [x.2.job] else jobsOn a xs := by
  unfold jobsOn
  by_cases hx : x.1 = a <;> simp [hx]

/-- The requests of a counter are those of stream `a` and those of the others. -/
theorem countP_jobsOn (xs : List (ι × Tx)) (c : Counter) :
    xs.countP (fun x => x.2.counts c) =
      (jobsOn a xs).countP (fun j => decide (j.req.opcode.counter = some c)) +
        xs.countP fun x => x.2.counts c && decide (x.1 ≠ a) := by
  induction xs using List.reverseRecOn with
  | nil => rfl
  | append_singleton xs x ih =>
    rw [List.countP_append, List.countP_append, jobsOn_append, ih]
    by_cases hx : x.1 = a
    · simp only [hx, if_true, List.countP_append, List.countP_singleton, Tx.counts, Tx.job, ne_eq,
        not_true_eq_false, decide_false, Bool.and_false, Bool.false_eq_true, if_false]
      omega
    · simp only [hx, if_false, List.countP_singleton, ne_eq, not_false_eq_true, decide_true,
        Bool.and_true]
      omega

/-- The counter of a message of stream `a` has the value it would have if the
    stream were alone. -/
theorem counters_eq {xs : List (ι × Tx)} {c : Counter} (o : Outbound)
    (hdvd : 2 ^ 32 ∣ xs.countP fun x => x.2.counts c && decide (x.1 ≠ a)) :
    (xs.foldl (sendOn a) ({}, o)).1.get c = ((jobsOn a xs).foldl sendJob ({}, o)).1.get c := by
  have hall := foldl_get Prod.fst (g := sendOn a) sendOn_fst xs ({}, o) c
  have hown : ((jobsOn a xs).foldl sendJob ({}, o)).1.get c = _ :=
    foldl_get Prod.fst (fun _ _ => rfl) (jobsOn a xs) ({}, o) c
  obtain ⟨d, hd⟩ := hdvd
  have hcount := countP_jobsOn (a := a) xs c
  rw [hd] at hcount
  rw [hall, hown]
  congr 1
  apply (ofNat_inj_iff _ _).mpr
  show List.countP (fun x => x.2.counts c) xs ≡ _ [MOD 2 ^ 32]
  rw [hcount, Nat.ModEq, Nat.add_mul_mod_self_left]

theorem Undisturbed.init {xs : List (ι × Tx)} {x : ι × Tx} (h : Undisturbed a (xs ++ [x])) :
    Undisturbed a xs := by
  intro k t c hk hc ht
  obtain ⟨hlt, -⟩ := List.getElem?_eq_some_iff.mp hk
  have hd := h k t c (by rwa [List.getElem?_append_left hlt]) hc ht
  rwa [List.take_append_of_le_length hlt.le] at hd

/-- What the requests put on the socket of an undisturbed stream is what its
    jobs put there alone. -/
theorem jobs_out (xs : List (ι × Tx)) (o : Outbound) (h : Undisturbed a xs) :
    (xs.foldl (sendOn a) ({}, o)).2 = soloOut (jobsOn a xs) o := by
  induction xs using List.reverseRecOn with
  | nil => rfl
  | append_singleton xs x ih =>
    obtain ⟨i, t⟩ := x
    have hout := ih h.init
    rw [List.foldl_append, jobsOn_append]
    by_cases hi : i = a
    · subst hi
      have hcong : t.job.fpdus (xs.foldl (sendOn i) ({}, o)).1 =
          t.job.fpdus ((jobsOn i xs).foldl sendJob ({}, o)).1 := by
        refine t.fpdus_congr fun c hc ht => counters_eq o ?_
        have hd := h xs.length t c (by simp) hc ht
        rwa [List.take_left' rfl] at hd
      simp only [List.foldl_cons, List.foldl_nil, sendOn, if_true, soloOut, List.foldl_append]
      rw [sendJob_out, sendJob_out, hcong, hout, soloOut]
    · simp only [List.foldl_cons, List.foldl_nil, sendOn, hi, if_false]
      exact hout

end

/-! ## Two runs -/

/-- Two runs that agree on the requests of stream `a`, on the memory they are
    sent from and on the socket put the same bytes on it, the numbers of its
    messages starting at 1, if in both of them it is undisturbed. -/
theorem streams_isolated {bld : Build} {a : ι} {ls₁ ls₂ : List (ι × Label)} {p₁ p₂ : Proc ι}
    (hst₁ : p₁.st = {}) (hst₂ : p₂.st = {}) (hsocket : p₁.outb a = p₂.outb a)
    (hjobs : jobsOn a (procTxs bld ls₁ p₁) = jobsOn a (procTxs bld ls₂ p₂))
    (h₁ : Undisturbed a (procTxs bld ls₁ p₁)) (h₂ : Undisturbed a (procTxs bld ls₂ p₂)) :
    (run (procStep bld) ls₁ p₁).outb a = (run (procStep bld) ls₂ p₂).outb a ∧
      (run (procStep bld) ls₁ p₁).outb a =
        soloOut (jobsOn a (procTxs bld ls₁ p₁)) (p₁.outb a) := by
  have hrun : ∀ {ls : List (ι × Label)} {p : Proc ι}, p.st = {} →
      Undisturbed a (procTxs bld ls p) →
      (run (procStep bld) ls p).outb a = soloOut (jobsOn a (procTxs bld ls p)) (p.outb a) := by
    intro ls p hst h
    have hview := congrArg Prod.snd (proc_view bld a ls p)
    rw [hst, jobs_out _ _ h] at hview
    exact hview
  refine ⟨?_, hrun hst₁ h₁⟩
  rw [hrun hst₁ h₁, hrun hst₂ h₂, hjobs, hsocket]

/-- A stream is undisturbed if no other stream uses a counter of its own. -/
theorem undisturbed_of_disjoint {a : ι} {xs : List (ι × Tx)}
    (h : ∀ x ∈ xs, ∀ y ∈ xs, x.1 = a → y.1 ≠ a →
      y.2.req.opcode.counter ≠ x.2.req.opcode.counter) : Undisturbed a xs := by
  intro k t c hk hc _
  have hzero : (xs.take k).countP (fun x => x.2.counts c && decide (x.1 ≠ a)) = 0 := by
    refine List.countP_eq_zero.mpr fun y hy => ?_
    by_cases hya : y.1 = a
    · simp [hya]
    · have hne := h _ (List.mem_of_getElem? hk) y (List.mem_of_mem_take hy) rfl hya
      rw [hc] at hne
      simp [Tx.counts, hne]
  rw [hzero]
  exact dvd_zero _

/-- The labels of one stream. -/
def onStream (i : ι) (ls : List Label) : List (ι × Label) := ls.map (i, ·)

/-- Two new streams. -/
def twoStreams : Proc Bool := ⟨{}, fun _ => sendSys []⟩

/-- The job of a Send. -/
def sendWrJob : Job := ⟨⟨0, 0, 0, 0, 0⟩, sendWr 1, (sendSys []).ep.mem, [⟨0x1000, 1, 0⟩]⟩

/-- A read on the other stream does not change what a Send looks like. -/
theorem streams_isolated_read :
    let bld : Build := ⟨false, false⟩
    let ls₁ := onStream true (serve (sendWr 1))
    let ls₂ := onStream false (serve (readWr 7 [⟨0x1000, 4, 0x1000⟩])) ++
      onStream true (serve (sendWr 1))
    (run (procStep bld) ls₁ twoStreams).outb true = (run (procStep bld) ls₂ twoStreams).outb true := by
  intro bld ls₁ ls₂
  have hjobs₁ : jobsOn true (procTxs bld ls₁ twoStreams) = [sendWrJob] := rfl
  have hjobs₂ : jobsOn true (procTxs bld ls₂ twoStreams) = [sendWrJob] := rfl
  have h₁ : Undisturbed true (procTxs bld ls₁ twoStreams) :=
    undisturbed_of_disjoint (by decide +kernel)
  have h₂ : Undisturbed true (procTxs bld ls₂ twoStreams) :=
    undisturbed_of_disjoint (by decide +kernel)
  exact (streams_isolated rfl rfl rfl (hjobs₁.trans hjobs₂.symm) h₁ h₂).1

/-- A Send on the other stream does. -/
theorem streams_coupled :
    let bld : Build := ⟨false, false⟩
    let ls₁ := onStream true (serve (sendWr 1))
    let ls₂ := onStream false (serve (sendWr 2)) ++ onStream true (serve (sendWr 1))
    jobsOn true (procTxs bld ls₁ twoStreams) = jobsOn true (procTxs bld ls₂ twoStreams) ∧
      (run (procStep bld) ls₁ twoStreams).outb true ≠ (run (procStep bld) ls₂ twoStreams).outb true := by
  intro bld ls₁ ls₂
  have hjobs₁ : jobsOn true (procTxs bld ls₁ twoStreams) = [sendWrJob] := rfl
  have hjobs₂ : jobsOn true (procTxs bld ls₂ twoStreams) = [sendWrJob] := rfl
  refine ⟨hjobs₁.trans hjobs₂.symm, ?_⟩
  decide +kernel

end SoftUiWarp
