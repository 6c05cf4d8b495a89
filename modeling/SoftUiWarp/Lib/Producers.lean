import Mathlib.Data.List.Perm.Basic
import SoftUiWarp.Lib.Runs

/-!
# Queues with several producers

A queue that keeps the order of each producer, and no order between producers:
the consumer turns to a producer that has an element in the queue and takes the
oldest of its elements. The queue is a list in the order of arrival, and
`turnTo` brings that element to the front.

Results:
* `SameOrder.perm`: lists with the same elements of each producer, in the same
  order, have the same elements.
* `turnTo_sameOrder`: the order of each producer is kept.
* `sameOrder_trace`: what goes in and what comes out in a run is in the same
  order.
-/

namespace Producers

open Runs

variable {α ι : Type*} [DecidableEq ι] (producer : α → ι)

/-- The same elements of each producer, in the same order. -/
def SameOrder (xs ys : List α) : Prop :=
  ∀ i, (xs.filter fun x => producer x = i) = ys.filter fun x => producer x = i

/-- The queue `xs` when the consumer has turned to the producer `i`: the oldest
    element of `i` is in front. If `i` has none nothing changes. -/
def turnTo (i : ι) (xs : List α) : List α :=
  match xs.find? fun x => producer x = i with
  | some x => x :: xs.eraseP fun x => producer x = i
  | none => xs

variable {producer} {xs ys zs : List α}

theorem SameOrder.refl (xs : List α) : SameOrder producer xs xs := fun _ => rfl

theorem SameOrder.of_eq (h : xs = ys) : SameOrder producer xs ys := fun _ => by rw [h]

theorem SameOrder.trans (h : SameOrder producer xs ys) (h' : SameOrder producer ys zs) :
    SameOrder producer xs zs := fun i => (h i).trans (h' i)

theorem SameOrder.append {xs' ys' : List α} (h : SameOrder producer xs ys)
    (h' : SameOrder producer xs' ys') : SameOrder producer (xs ++ xs') (ys ++ ys') := by
  intro i
  rw [List.filter_append, List.filter_append, h i, h' i]

theorem SameOrder.perm (h : SameOrder producer xs ys) : xs.Perm ys := by
  classical
  refine List.perm_iff_count.mpr fun a => ?_
  have hown (l : List α) : (l.filter fun x => producer x = producer a).count a = l.count a :=
    List.count_filter (by simp)
  rw [← hown xs, ← hown ys, h (producer a)]

theorem turnTo_cases (i : ι) (xs : List α) :
    turnTo producer i xs = xs ∨ ∃ before x after, xs = before ++ x :: after ∧ producer x = i ∧
      (∀ y ∈ before, producer y ≠ i) ∧ turnTo producer i xs = x :: (before ++ after) := by
  unfold turnTo
  split
  case h_1 x hx =>
    right
    obtain ⟨hi, before, after, rfl, hbefore⟩ := List.find?_eq_some_iff_append.mp hx
    have hne : ∀ y ∈ before, producer y ≠ i := by simpa using hbefore
    refine ⟨before, x, after, rfl, by simpa using hi, hne, ?_⟩
    rw [List.eraseP_append_right _ (by simpa using hne),
      List.eraseP_cons_of_pos (p := fun x => decide (producer x = i)) hi]
  case h_2 => exact .inl rfl

/-- The elements of each producer stay in their order. -/
theorem turnTo_sameOrder (i : ι) (xs : List α) : SameOrder producer (turnTo producer i xs) xs := by
  intro j
  obtain heq | ⟨before, x, after, rfl, hx, hbefore, heq⟩ := @turnTo_cases _ _ _ producer i xs
  · rw [heq]
  rw [heq, List.filter_append, List.filter_cons, List.filter_cons, List.filter_append]
  by_cases hj : i = j
  · subst hj
    have hnone : before.filter (fun y => producer y = i) = [] :=
      List.filter_eq_nil_iff.mpr (by simpa using hbefore)
    rw [hnone]
    simp
  · have hne : producer x ≠ j := fun h => hj (hx.symm.trans h)
    simp [hne]

theorem turnTo_nil (i : ι) : turnTo producer i [] = [] := rfl

/-- The producer of the element in front. -/
theorem turnTo_head (x : α) (xs : List α) : turnTo producer (producer x) (x :: xs) = x :: xs := by
  simp [turnTo]

section

variable {σ ℓ : Type*} {step : ℓ → σ → σ} {emit deliver : ℓ → σ → List α}

/-- What is announced by one kind of step and delivered by another is delivered
    in the order of its producer. -/
theorem sameOrder_trace (held : σ → List α)
    (h : ∀ l s, SameOrder producer (held s ++ emit l s) (deliver l s ++ held (step l s)))
    (ls : List ℓ) (s : σ) : SameOrder producer (held s ++ trace step emit ls s)
      (trace step deliver ls s ++ held (run step ls s)) := by
  induction ls generalizing s with
  | nil =>
    rw [trace, trace, List.append_nil, List.nil_append]
    exact .refl _
  | cons l ls ih =>
    rw [trace, trace, ← List.append_assoc, List.append_assoc (deliver l s)]
    have hstep := (h l s).append (.refl (trace step emit ls (step l s)))
    rw [List.append_assoc (deliver l s)] at hstep
    exact hstep.trans ((SameOrder.refl _).append (ih (step l s)))

end

end Producers
