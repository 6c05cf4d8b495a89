import Mathlib

/-!
# Fixed-width little-endian integers and byte reversal

An `n`-byte unsigned integer in the memory of a little-endian host is the list
`toLE n x` of its bytes, least significant first; `ofLE` reads such a list
back. `swap n` reverses the `n` bytes of an integer.

Results:
* `ofLE_toLE`, `toLE_ofLE`: the two directions of the round trip.
* `swap_swap`: reversing twice gives the integer back.
-/

namespace Endian

/-- The `n` least significant bytes of `x`, least significant first. -/
def toLE : ℕ → ℕ → List UInt8
  | 0, _ => []
  | n + 1, x => UInt8.ofNat x :: toLE n (x / 256)

/-- The integer whose bytes, least significant first, are the given list. -/
def ofLE : List UInt8 → ℕ
  | [] => 0
  | b :: bs => b.toNat + 256 * ofLE bs

@[simp] theorem length_toLE (n x : ℕ) : (toLE n x).length = n := by
  induction n generalizing x with
  | zero => rfl
  | succ n ih => simp [toLE, ih]

theorem ofLE_lt (bs : List UInt8) : ofLE bs < 256 ^ bs.length := by
  induction bs with
  | nil => simp [ofLE]
  | cons b bs ih =>
    have hb : b.toNat < 256 := b.toNat_lt
    simp only [ofLE, List.length_cons, pow_succ]
    omega

theorem ofLE_toLE (n x : ℕ) : ofLE (toLE n x) = x % 256 ^ n := by
  induction n generalizing x with
  | zero => simp [toLE, ofLE, Nat.mod_one]
  | succ n ih =>
    simp only [toLE, ofLE, ih, UInt8.toNat_ofNat']
    rw [pow_succ 256 n, Nat.mul_comm (256 ^ n) 256, Nat.mod_mul]

theorem toLE_ofLE (bs : List UInt8) : toLE bs.length (ofLE bs) = bs := by
  induction bs with
  | nil => rfl
  | cons b bs ih =>
    have hb : b.toNat < 256 := b.toNat_lt
    have hdiv : (b.toNat + 256 * ofLE bs) / 256 = ofLE bs := by omega
    have hlow : UInt8.ofNat (b.toNat + 256 * ofLE bs) = b := by
      apply UInt8.toNat_inj.mp
      simp only [UInt8.toNat_ofNat']
      omega
    simp only [List.length_cons, ofLE, toLE, hdiv, ih, hlow]

theorem toLE_ofLE_of_length {n : ℕ} {bs : List UInt8} (h : bs.length = n) :
    toLE n (ofLE bs) = bs := by
  subst h
  exact toLE_ofLE bs

/-- The integer whose `n` bytes are those of `x` in the opposite order. -/
def swap (n x : ℕ) : ℕ := ofLE (toLE n x).reverse

theorem swap_lt (n x : ℕ) : swap n x < 256 ^ n := by
  have := ofLE_lt (toLE n x).reverse
  simpa [swap] using this

theorem toLE_swap (n x : ℕ) : toLE n (swap n x) = (toLE n x).reverse :=
  toLE_ofLE_of_length (by simp)

theorem swap_swap {n x : ℕ} (hx : x < 256 ^ n) : swap n (swap n x) = x := by
  rw [swap, toLE_swap, List.reverse_reverse, ofLE_toLE, Nat.mod_eq_of_lt hx]

end Endian
