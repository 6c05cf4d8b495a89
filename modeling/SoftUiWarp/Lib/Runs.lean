import Mathlib.Algebra.Order.Group.Multiset
import Mathlib.Computability.StateTransition
import Mathlib.Logic.Function.Iterate

/-!
# Runs of step functions

A sequential program is a step function `f : σ → σ`; `Through f P a b` says that
it goes from `a` to `b` and that every state on the way satisfies `P`. A program
that may end is a partial one, `loop : σ → Option σ`, and `t ∈ eval loop s` says
that from `s` it ends in `t`.

A concurrent one is a step function for each label, the label saying who moves.
`Reach step G init` are the states reached when every step is admitted by `G`,
a condition on the label and the state before the step.

Results:
* `Through.trans`, `Through.mono`, `Through.always`: composing runs.
* `exists_mem_eval`, `eval_invariant`: a loop that lowers a measure ends, and what
  each step keeps holds where it ends.
* `Reach.invariant`: what the first states satisfy and admitted steps keep
  holds in every state reached.
* `run_invariant`: what every step keeps is true after every run.
* `Reach.run`: the state after a list of admitted labels is reached.
* `Admits.mono`: a condition on the steps of a run replaced by a weaker one.
* `admits_iff`: when a condition is exactly what one step needs to keep `I`, the
  runs it admits are exactly those that keep `I` all the way.
* `view_run`: a part of the state that every step updates by what it emits is
  updated by a run's trace.
* `exists_of_trace`: where an element of a trace was emitted.
* `trace_telescope`: what is announced by one kind of step and delivered by
  another is delivered in the same order.
* `trace_channel`: the same when what is held is only described, and what is
  delivered is related to what was announced.
* `trace_invariant`, `trace_invariant₂`: an invariant of the state and of what was
  emitted so far.
* `trace_le`: what a run gives out is covered by what was held and supplied.
* `run_measure`: the labels of one party lower a measure that the others do not
  raise.
* `countP_le_trace`: a party that never stands still while something waits emits
  in proportion to its steps.
* `length_trace_le`: a bound on what can still be emitted.
-/

namespace Runs

variable {σ ℓ : Type*}

/-! ## Sequential runs -/

/-- `f` goes from `a` to `b` through states that satisfy `P`. -/
def Through (f : σ → σ) (P : σ → Prop) (a b : σ) : Prop :=
  ∃ n, f^[n] a = b ∧ ∀ m ≤ n, P (f^[m] a)

variable {f : σ → σ} {P Q : σ → Prop} {a b c : σ}

theorem Through.refl (h : P a) : Through f P a a :=
  ⟨0, rfl, fun m hm => by rw [Nat.le_zero.mp hm]; exact h⟩

theorem Through.step (ha : P a) (hb : P (f a)) : Through f P a (f a) := by
  refine ⟨1, rfl, fun m hm => ?_⟩
  rcases Nat.le_one_iff_eq_zero_or_eq_one.mp hm with rfl | rfl
  · exact ha
  · exact hb

theorem Through.step_of_eq (h : f a = b) (ha : P a) (hb : P b) : Through f P a b := by
  rw [← h] at hb ⊢
  exact Through.step ha hb

theorem Through.trans (hab : Through f P a b) (hbc : Through f P b c) : Through f P a c := by
  obtain ⟨n, rfl, hn⟩ := hab
  obtain ⟨k, rfl, hk⟩ := hbc
  refine ⟨k + n, Function.iterate_add_apply f k n a, fun m hm => ?_⟩
  rcases Nat.le_total m n with h | h
  · exact hn m h
  · obtain ⟨i, rfl⟩ := Nat.exists_eq_add_of_le h
    rw [Nat.add_comm, Function.iterate_add_apply]
    exact hk i (by omega)

theorem Through.mono (h : Through f P a b) (hPQ : ∀ s, P s → Q s) : Through f Q a b := by
  obtain ⟨n, hb, hn⟩ := h
  exact ⟨n, hb, fun m hm => hPQ _ (hn m hm)⟩

/-- A run into a state that no longer changes is the whole run. -/
theorem Through.always (h : Through f P a b) (hb : f b = b) (m : ℕ) : P (f^[m] a) := by
  obtain ⟨n, rfl, hn⟩ := h
  rcases Nat.le_total m n with hm | hm
  · exact hn m hm
  · rw [← Nat.sub_add_cancel hm, Function.iterate_add_apply, Function.iterate_fixed hb]
    exact hn n (Nat.le_refl n)

/-! ## Runs that end -/

section

open StateTransition

variable {loop : σ → Option σ}

/-- A loop whose every step makes a measure smaller ends. -/
theorem exists_mem_eval (μ : σ → ℕ) (hμ : ∀ s s', loop s = some s' → μ s' < μ s) (s : σ) :
    ∃ t, t ∈ eval loop s := by
  induction hn : μ s using Nat.strong_induction_on generalizing s with
  | _ n ih =>
    cases hs : loop s with
    | none => exact ⟨s, mem_eval.mpr ⟨.refl, hs⟩⟩
    | some s' =>
      obtain ⟨t, ht⟩ := ih (μ s') (hn ▸ hμ s s' hs) s' rfl
      obtain ⟨hreach, hend⟩ := mem_eval.mp ht
      exact ⟨t, mem_eval.mpr ⟨hreach.head hs, hend⟩⟩

/-- What every step keeps holds where the loop ends. -/
theorem eval_invariant {I : σ → Prop} (hI : ∀ s s', loop s = some s' → I s → I s') {s t : σ}
    (ht : t ∈ eval loop s) (hs : I s) : I t := by
  have hreach := (mem_eval.mp ht).1
  clear ht
  induction hreach with
  | refl => exact hs
  | tail _ hstep ih => exact hI _ _ hstep ih

end

/-! ## Concurrent runs -/

/-- The states reached from `init` by steps that `G` admits. -/
inductive Reach (step : ℓ → σ → σ) (G : ℓ → σ → Prop) (init : σ → Prop) : σ → Prop
  | start {s : σ} : init s → Reach step G init s
  | step {s : σ} (l : ℓ) : Reach step G init s → G l s → Reach step G init (step l s)

variable {step : ℓ → σ → σ} {G : ℓ → σ → Prop} {init : σ → Prop}

theorem Reach.invariant {I : σ → Prop} (h0 : ∀ s, init s → I s)
    (hstep : ∀ l s, I s → G l s → I (step l s)) {s : σ} (h : Reach step G init s) : I s := by
  induction h with
  | start hs => exact h0 _ hs
  | step l _ hG ih => exact hstep l _ ih hG

/-- Every step of the labels `ls`, taken from `s` on, is admitted. -/
def Admits (step : ℓ → σ → σ) (G : ℓ → σ → Prop) : List ℓ → σ → Prop
  | [], _ => True
  | l :: ls, s => G l s ∧ Admits step G ls (step l s)

instance decidableAdmits [∀ l s, Decidable (G l s)] :
    ∀ (ls : List ℓ) (s : σ), Decidable (Admits step G ls s)
  | [], _ => isTrue trivial
  | l :: ls, s =>
    have := decidableAdmits ls (step l s)
    inferInstanceAs (Decidable (_ ∧ _))

/-- The state after the labels `ls`. -/
def run (step : ℓ → σ → σ) (ls : List ℓ) (s : σ) : σ := ls.foldl (fun s l => step l s) s

theorem run_append (ls ls' : List ℓ) (s : σ) :
    run step (ls ++ ls') s = run step ls' (run step ls s) :=
  List.foldl_append

/-- What every step keeps is true after every run. -/
theorem run_invariant {I : σ → Prop} (hI : ∀ l s, I s → I (step l s)) (ls : List ℓ) {s : σ}
    (hs : I s) : I (run step ls s) := by
  induction ls generalizing s with
  | nil => exact hs
  | cons l ls ih => exact ih (hI l s hs)

theorem Reach.run : ∀ (ls : List ℓ) {s : σ}, Reach step G init s → Admits step G ls s →
    Reach step G init (run step ls s) := by
  intro ls
  induction ls with
  | nil => intro s h _; exact h
  | cons l ls ih => intro s h hG; exact ih (h.step l hG.1) hG.2

variable {H : ℓ → σ → Prop}

theorem Admits.and {ls : List ℓ} {s : σ} (hG : Admits step G ls s) (hH : Admits step H ls s) :
    Admits step (fun l s => G l s ∧ H l s) ls s := by
  induction ls generalizing s with
  | nil => trivial
  | cons l ls ih => exact ⟨⟨hG.1, hH.1⟩, ih hG.2 hH.2⟩

theorem Admits.left {ls ls' : List ℓ} {s : σ} (hG : Admits step G (ls ++ ls') s) :
    Admits step G ls s := by
  induction ls generalizing s with
  | nil => trivial
  | cons l ls ih => exact ⟨hG.1, ih hG.2⟩

theorem Admits.of_forall (h : ∀ l s, G l s) (ls : List ℓ) (s : σ) : Admits step G ls s := by
  induction ls generalizing s with
  | nil => trivial
  | cons l ls ih => exact ⟨h l s, ih _⟩

theorem Admits.of_invariant {I : σ → Prop} (hI : ∀ l s, I s → I (step l s)) (ls : List ℓ) {s : σ}
    (hs : I s) : Admits step (fun _ s => I s) ls s := by
  induction ls generalizing s with
  | nil => trivial
  | cons l ls ih => exact ⟨hs, ih (hI l s hs)⟩

/-- In states that satisfy an invariant a condition may be replaced by a weaker one. -/
theorem Admits.mono {I : σ → Prop} (hI : ∀ l s, I s → I (step l s))
    (h : ∀ l s, I s → G l s → H l s) {ls : List ℓ} {s : σ} (hs : I s) (hG : Admits step G ls s) :
    Admits step H ls s := by
  induction ls generalizing s with
  | nil => trivial
  | cons l ls ih => exact ⟨h l s hs hG.1, ih (hI l s hs) hG.2⟩

/-- `I` holds along a run if and only if every step is admitted. -/
theorem admits_iff {I : σ → Prop} (h : ∀ l s, I s → (I (step l s) ↔ G l s)) (ls : List ℓ) {s : σ}
    (hs : I s) : (∀ pre, pre <+: ls → I (run step pre s)) ↔ Admits step G ls s := by
  induction ls generalizing s with
  | nil =>
    refine ⟨fun _ => trivial, fun _ pre hpre => ?_⟩
    rw [List.prefix_nil.mp hpre]
    exact hs
  | cons l ls ih =>
    constructor
    · intro hall
      have hl : I (step l s) := hall [l] (List.prefix_append [l] ls)
      exact ⟨(h l s hs).mp hl, (ih hl).mp fun pre hpre =>
        hall (l :: pre) (List.cons_prefix_cons.mpr ⟨rfl, hpre⟩)⟩
    · rintro ⟨hG, hrest⟩ pre hpre
      have hl : I (step l s) := (h l s hs).mpr hG
      cases pre with
      | nil => exact hs
      | cons l' pre =>
        obtain ⟨rfl, hpre'⟩ := List.cons_prefix_cons.mp hpre
        exact (ih hl).mpr hrest pre hpre'

theorem Admits.imp (h : ∀ l s, G l s → H l s) {ls : List ℓ} {s : σ} (hG : Admits step G ls s) :
    Admits step H ls s :=
  hG.mono (I := fun _ => True) (fun _ _ _ => trivial) (fun l s _ => h l s) trivial

/-! ## Traces -/

variable {τ β : Type*}

/-- What the steps of a run emit, in order. -/
def trace (step : ℓ → σ → σ) (emit : ℓ → σ → List τ) : List ℓ → σ → List τ
  | [], _ => []
  | l :: ls, s => emit l s ++ trace step emit ls (step l s)

variable {emit : ℓ → σ → List τ}

theorem trace_run_append (ls ls' : List ℓ) (s : σ) :
    trace step emit (ls ++ ls') s =
      trace step emit ls s ++ trace step emit ls' (Runs.run step ls s) := by
  induction ls generalizing s with
  | nil => rfl
  | cons l ls ih =>
    rw [List.cons_append, trace, ih, trace, List.append_assoc]
    rfl

theorem view_run (view : σ → β) {f : β → τ → β}
    (h : ∀ l s, view (step l s) = (emit l s).foldl f (view s)) (ls : List ℓ) (s : σ) :
    view (Runs.run step ls s) = (trace step emit ls s).foldl f (view s) := by
  induction ls generalizing s with
  | nil => rfl
  | cons l ls ih =>
    rw [trace, List.foldl_append, ← h]
    exact ih (step l s)

/-- When a step emits at most one element, and with it the view before the
    step, an element of the trace comes with what those before it have made of
    the first view. -/
theorem view_of_trace (view : σ → β) (proj : τ → β) {f : β → τ → β}
    (h : ∀ l s, view (step l s) = (emit l s).foldl f (view s))
    (hemit : ∀ l s, emit l s = [] ∨ ∃ t, emit l s = [t] ∧ proj t = view s) {ls : List ℓ} {s : σ}
    {pre post : List τ} {t : τ} (ht : trace step emit ls s = pre ++ t :: post) :
    proj t = pre.foldl f (view s) := by
  induction ls generalizing s pre with
  | nil => simp [trace] at ht
  | cons l ls ih =>
    rw [trace] at ht
    rcases hemit l s with hnil | ⟨u, hu, hproj⟩
    · rw [hnil, List.nil_append] at ht
      rw [ih ht, h, hnil, List.foldl_nil]
    · rw [hu, List.singleton_append] at ht
      cases pre with
      | nil =>
        obtain ⟨rfl, -⟩ := List.cons.inj ht
        exact hproj
      | cons v pre =>
        obtain ⟨rfl, hrest⟩ := List.cons.inj ht
        rw [ih hrest, h, hu]
        rfl

/-- Where an element of a trace was emitted, and what was emitted before. -/
theorem exists_of_trace {ls : List ℓ} {s : σ} {t : τ} {pre post : List τ}
    (h : trace step emit ls s = pre ++ t :: post) :
    ∃ ls' l xs ys, ls' ++ [l] <+: ls ∧ emit l (Runs.run step ls' s) = xs ++ t :: ys ∧
      trace step emit ls' s ++ xs = pre := by
  induction ls generalizing s pre with
  | nil => simp [trace] at h
  | cons l ls ih =>
    rw [trace, List.append_eq_append_iff] at h
    rcases h with ⟨rest, rfl, hrest⟩ | ⟨rest, hemit, hrest⟩
    · obtain ⟨ls', l', xs, ys, ⟨post', hpost⟩, ht, hpre⟩ := ih hrest
      refine ⟨l :: ls', l', xs, ys, ⟨post', by rw [← hpost]; rfl⟩, ht, ?_⟩
      rw [trace, List.append_assoc, hpre]
    · cases rest with
      | nil =>
        obtain ⟨ls', l', xs, ys, ⟨post', hpost⟩, ht, hpre⟩ := @ih (step l s) [] hrest.symm
        refine ⟨l :: ls', l', xs, ys, ⟨post', by rw [← hpost]; rfl⟩, ht, ?_⟩
        rw [trace, List.append_assoc, hpre, hemit, List.append_nil, List.append_nil]
      | cons u rest =>
        obtain ⟨rfl, -⟩ := List.cons.inj hrest
        exact ⟨[], l, pre, rest, ⟨ls, rfl⟩, hemit, rfl⟩

theorem trace_flatMap (f : τ → List β) (ls : List ℓ) (s : σ) :
    trace step (fun l s => (emit l s).flatMap f) ls s = (trace step emit ls s).flatMap f := by
  induction ls generalizing s with
  | nil => rfl
  | cons l ls ih => rw [trace, ih, trace, List.flatMap_append]

theorem trace_map (f : τ → β) (ls : List ℓ) (s : σ) :
    trace step (fun l s => (emit l s).map f) ls s = (trace step emit ls s).map f := by
  induction ls generalizing s with
  | nil => rfl
  | cons l ls ih => rw [trace, ih, trace, List.map_append]

theorem trace_append {emit' : ℓ → σ → List τ} (ls : List ℓ) (s : σ) :
    (↑(trace step (fun l s => emit l s ++ emit' l s) ls s) : Multiset τ) =
      ↑(trace step emit ls s) + ↑(trace step emit' ls s) := by
  induction ls generalizing s with
  | nil => rfl
  | cons l ls ih =>
    simp only [trace, ← Multiset.coe_add, ih]
    exact add_add_add_comm _ _ _ _

theorem trace_telescope (held : σ → List τ) {deliver : ℓ → σ → List τ}
    (h : ∀ l s, held s ++ emit l s = deliver l s ++ held (step l s)) (ls : List ℓ) (s : σ) :
    held s ++ trace step emit ls s = trace step deliver ls s ++ held (Runs.run step ls s) := by
  induction ls generalizing s with
  | nil => simp [trace, Runs.run]
  | cons l ls ih =>
    rw [trace, ← List.append_assoc, h, List.append_assoc, ih (step l s), trace, List.append_assoc]
    rfl

/-- What is true of the state and of all that was emitted before it. -/
theorem trace_invariant {I : List τ → σ → Prop}
    (h : ∀ l s ts, G l s → I ts s → I (ts ++ emit l s) (step l s)) {ls : List ℓ} {s : σ}
    {ts : List τ} (hs : I ts s) (hG : Admits step G ls s) :
    I (ts ++ trace step emit ls s) (Runs.run step ls s) := by
  induction ls generalizing s ts with
  | nil => simpa [trace, Runs.run] using hs
  | cons l ls ih =>
    have hrest := ih (h l s ts hG.1 hs) hG.2
    rw [List.append_assoc] at hrest
    exact hrest

/-- The same for two things that the steps emit. -/
theorem trace_invariant₂ {δ : Type*} {emit' : ℓ → σ → List δ} {I : List τ → List δ → σ → Prop}
    (h : ∀ l s ts us, G l s → I ts us s → I (ts ++ emit l s) (us ++ emit' l s) (step l s))
    {ls : List ℓ} {s : σ} {ts : List τ} {us : List δ} (hs : I ts us s) (hG : Admits step G ls s) :
    I (ts ++ trace step emit ls s) (us ++ trace step emit' ls s) (Runs.run step ls s) := by
  induction ls generalizing s ts us with
  | nil => simpa [trace, Runs.run] using hs
  | cons l ls ih =>
    have hrest := ih (h l s ts us hG.1 hs) hG.2
    rw [List.append_assoc, List.append_assoc] at hrest
    exact hrest

/-- `Held s ts` says that the elements `ts` are on their way in the state `s`.
    When every step adds what it announces at the end and takes what it delivers
    from the front, a run delivers in order what was on its way and announced. -/
theorem trace_channel {δ : Type*} {R : τ → δ → Prop} (Held : σ → List τ → Prop)
    {deliver : ℓ → σ → List δ}
    (h : ∀ l s ts, G l s → Held s ts → ∃ got rest, ts ++ emit l s = got ++ rest ∧
      List.Forall₂ R got (deliver l s) ∧ Held (step l s) rest) {ls : List ℓ} {s : σ} {ts : List τ}
    (hs : Held s ts) (hG : Admits step G ls s) :
    ∃ got rest, ts ++ trace step emit ls s = got ++ rest ∧
      List.Forall₂ R got (trace step deliver ls s) ∧ Held (Runs.run step ls s) rest := by
  induction ls generalizing s ts with
  | nil => exact ⟨[], ts, by simp [trace], .nil, hs⟩
  | cons l ls ih =>
    obtain ⟨got, rest, heq, hgot, hrest⟩ := h l s ts hG.1 hs
    obtain ⟨got', rest', heq', hgot', hrest'⟩ := ih hrest hG.2
    refine ⟨got ++ got', rest', ?_, List.rel_append hgot hgot', hrest'⟩
    calc ts ++ (emit l s ++ trace step emit ls (step l s))
        = got ++ (rest ++ trace step emit ls (step l s)) := by
          rw [← List.append_assoc, heq, List.append_assoc]
      _ = got ++ got' ++ rest' := by rw [heq', List.append_assoc]

/-- The same with multisets, when a step may also drop what is held. -/
theorem trace_le (held : σ → Multiset τ) {supply : ℓ → σ → List τ}
    (h : ∀ l s, ↑(emit l s) + held (step l s) ≤ held s + ↑(supply l s)) (ls : List ℓ) (s : σ) :
    ↑(trace step emit ls s) + held (Runs.run step ls s) ≤ held s + ↑(trace step supply ls s) := by
  induction ls generalizing s with
  | nil => simp [trace, Runs.run]
  | cons l ls ih =>
    rw [trace, trace, ← Multiset.coe_add, ← Multiset.coe_add, add_assoc]
    calc ↑(emit l s) + (↑(trace step emit ls (step l s)) + held (Runs.run step (l :: ls) s))
        ≤ ↑(emit l s) + (held (step l s) + ↑(trace step supply ls (step l s))) :=
          add_le_add_right (ih (step l s)) _
      _ = ↑(emit l s) + held (step l s) + ↑(trace step supply ls (step l s)) :=
          (add_assoc _ _ _).symm
      _ ≤ held s + ↑(supply l s) + ↑(trace step supply ls (step l s)) :=
          add_le_add_left (h l s) _
      _ = held s + (↑(supply l s) + ↑(trace step supply ls (step l s))) := add_assoc _ _ _

/-! ## Progress -/

section

variable {G : ℓ → σ → Prop} {emit : ℓ → σ → List τ} (mine : ℓ → Bool)

/-- A measure that the steps of one party lower as long as it is not 0, and that
    the others do not raise, goes down with each step of the party. -/
theorem run_measure (μ : σ → ℕ) (hle : ∀ l s, G l s → μ (step l s) ≤ μ s)
    (hlt : ∀ l s, G l s → mine l = true → μ (step l s) ≤ μ s - 1) {ls : List ℓ} {s : σ}
    (hG : Admits step G ls s) : μ (Runs.run step ls s) ≤ μ s - ls.countP mine := by
  induction ls generalizing s with
  | nil => exact le_rfl
  | cons l ls ih =>
    have hrest := ih hG.2
    have hle' := hle l s hG.1
    rw [List.countP_cons]
    refine hrest.trans ?_
    split_ifs with hl
    · have := hlt l s hG.1 hl
      omega
    · omega

/-- `ahead` bounds the steps of one party before the next one that emits, as long
    as something waits: either nothing waited at some time, or the party has
    emitted once in every `c` steps. -/
theorem countP_le_trace (waits : σ → Prop) (ahead : σ → ℕ) (c : ℕ)
    (h : ∀ l s, G l s → waits s →
      (if mine l then 1 else 0) + ahead (step l s) ≤ ahead s + c * (emit l s).length)
    {ls : List ℓ} {s : σ} (hG : Admits step G ls s) :
    (∃ pre, pre <+: ls ∧ ¬waits (Runs.run step pre s)) ∨
      ls.countP mine + ahead (Runs.run step ls s) ≤
        ahead s + c * (trace step emit ls s).length := by
  induction ls generalizing s with
  | nil => exact .inr (by simp [trace, Runs.run])
  | cons l ls ih =>
    by_cases hw : waits s
    · obtain ⟨pre, hpre, hnone⟩ | hle := ih hG.2
      · exact .inl ⟨l :: pre, List.cons_prefix_cons.mpr ⟨rfl, hpre⟩, hnone⟩
      · have hstep := h l s hG.1 hw
        rw [List.countP_cons, trace, List.length_append, Nat.mul_add]
        right
        show _ + ahead (Runs.run step ls (step l s)) ≤ _
        omega
    · exact .inl ⟨[], List.nil_prefix, hw⟩

/-- What is emitted is taken off a bound. -/
theorem length_trace_le (μ : σ → ℕ)
    (h : ∀ l s, G l s → (emit l s).length + μ (step l s) ≤ μ s) {ls : List ℓ} {s : σ}
    (hG : Admits step G ls s) : (trace step emit ls s).length + μ (Runs.run step ls s) ≤ μ s := by
  induction ls generalizing s with
  | nil => exact (Nat.zero_add _).le
  | cons l ls ih =>
    have hrest := ih hG.2
    have hstep := h l s hG.1
    rw [trace, List.length_append]
    show _ + μ (Runs.run step ls (step l s)) ≤ _
    omega

end

end Runs
